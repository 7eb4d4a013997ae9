/-
  MemoSeq/Proofs/Twin/Terms.lean
  ==============================
  **Names and terms in twin worlds.**

  A term that uses only names that are in use in both worlds, and whose iterators are scripts
  of fixed items, is read alike in both (`Term.Kept.read_follows`); so are offers and the
  operands of conditions.  What is bound under a name is found under it in both worlds.
-/
import MemoSeq.Proofs.Twin.Production
import MemoSeq.Proofs.Twin.Shown

namespace MemoSeq.Session

variable {α β : Type} {π : Pairing} {τ τ' : TwinWorlds} {V : String → Prop}

/-! ### Names -/

namespace Names

variable (names : Names α) (name : String) (a : α)

theorem find?_erase (other : String) :
    (names.erase name).find? other = if other = name then none else names.find? other := by
  unfold find? erase
  rw [List.find?_filter]
  split
  case isTrue heq =>
    subst heq
    rw [List.find?_eq_none.mpr (by simp), Option.map_none]
  case isFalse hne =>
    have hsame : (fun b : String × α => decide ((b.1 != name) = true ∧ (b.1 == other) = true)) =
        fun b => b.1 == other := by
      funext b
      by_cases hb : b.1 = other
      · simp [hb, hne]
      · simp [hb]
    rw [hsame]

theorem find?_insert (other : String) :
    (names.insert name a).find? other = if other = name then some a else names.find? other := by
  have hothers := names.find?_erase name other
  unfold find? at hothers ⊢
  dsimp only [insert]
  generalize (fun b : String × α => Text.before b.1 name) = earlier
  split
  case isTrue heq =>
    subst heq
    have hnone : ((names.erase other).bindings.takeWhile earlier).find? (·.1 == other) = none := by
      rw [List.find?_eq_none]
      intro b hb
      simpa [erase] using (List.mem_filter.mp ((List.takeWhile_sublist _).subset hb)).2
    rw [List.find?_append, hnone, Option.none_or, List.find?_cons_of_pos (by simp)]
    rfl
  case isFalse hne =>
    rw [List.find?_append, List.find?_cons_of_neg (by simpa using Ne.symm hne),
      ← List.find?_append, List.takeWhile_append_dropWhile, hothers, if_neg hne]

end Names

/-- What is bound alike elsewhere is bound alike when a name is bound alike. -/
theorem Names.insert_twin {R : α → α → Prop} {names names' : Names α}
    (h : ∀ other, V other → Option.Rel R (names.find? other) (names'.find? other)) (name : String)
    {a a' : α} (ha : R a a') (other : String) (hother : V other) :
    Option.Rel R ((names.insert name a).find? other) ((names'.insert name a').find? other) := by
  rw [find?_insert, find?_insert]
  split
  · exact .some ha
  · exact h other hother

theorem Names.erase_twin {R : α → α → Prop} {names names' : Names α}
    (h : ∀ other, V other → Option.Rel R (names.find? other) (names'.find? other)) (name : String)
    (other : String) (hother : V other) :
    Option.Rel R ((names.erase name).find? other) ((names'.erase name).find? other) := by
  rw [find?_erase, find?_erase]
  split
  · exact .none
  · exact h other hother

/-- Under other names nothing changes. -/
theorem Names.insert_leaves {name : String} (hname : V name) (names : Names α) (a : α)
    (other : String) (hother : ¬ V other) :
    (names.insert name a).find? other = names.find? other := by
  rw [find?_insert, if_neg]
  rintro rfl
  exact hother hname

theorem Names.erase_leaves {name : String} (hname : V name) (names : Names α) (other : String)
    (hother : ¬ V other) : (names.erase name).find? other = names.find? other := by
  rw [find?_erase, if_neg]
  rintro rfl
  exact hother hname

/-! ### The desk -/

/-- Both desks change alike, and only under names that are in use. -/
structure Desk.Follows (π : Pairing) (d d' e e' : Desk) : Prop where
  twin : e.Twin π e'
  leaves : d.Leaves π.names e

namespace Desk.Follows

variable {d d' e e' : Desk} {name : String}

theorem of_sameNames (h : d.Twin π d') (he : e.SameNames d) (he' : e'.SameNames d') :
    Follows π d d' e e' :=
  ⟨h.of_sameNames he he', he.leaves _⟩

variable (h : d.Twin π d') (hname : π.names name)
include h hname

theorem sequence {s s' : Sequence} (hs : π.lists s s') :
    Follows π d d' { d with sequences := d.sequences.insert name s }
      { d' with sequences := d'.sequences.insert name s' } where
  twin := {
    looked := Names.insert_twin h.looked name (π.seen_of_lists hs)
    sequences := Names.insert_twin h.sequences name hs
    iterations := h.iterations
    branches := h.branches }
  leaves := ⟨Names.insert_leaves hname _ _, fun _ _ => rfl, fun _ _ => rfl⟩

theorem iteration {i i' : Iteration} (hi : i.Twin π i') :
    Follows π d d' { d with iterations := d.iterations.insert name i }
      { d' with iterations := d'.iterations.insert name i' } where
  twin := { h with iterations := Names.insert_twin h.iterations name hi }
  leaves := ⟨fun _ _ => rfl, Names.insert_leaves hname _ _, fun _ _ => rfl⟩

theorem branch {r r' : Reader} (hr : r.Twin π r') :
    Follows π d d' { d with branches := d.branches.insert name r }
      { d' with branches := d'.branches.insert name r' } where
  twin := { h with branches := Names.insert_twin h.branches name hr }
  leaves := ⟨fun _ _ => rfl, fun _ _ => rfl, Names.insert_leaves hname _ _⟩

theorem noIteration :
    Follows π d d' { d with iterations := d.iterations.erase name }
      { d' with iterations := d'.iterations.erase name } where
  twin := { h with iterations := Names.erase_twin h.iterations name }
  leaves := ⟨fun _ _ => rfl, Names.erase_leaves hname _, fun _ _ => rfl⟩

theorem noBranch :
    Follows π d d' { d with branches := d.branches.erase name }
      { d' with branches := d'.branches.erase name } where
  twin := { h with branches := Names.erase_twin h.branches name }
  leaves := ⟨fun _ _ => rfl, fun _ _ => rfl, Names.erase_leaves hname _⟩

theorem dropped : Follows π d d' (d.drop name).2 (d'.drop name).2 where
  twin := {
    looked := Names.erase_twin h.looked name
    sequences := Names.erase_twin h.sequences name
    iterations := Names.erase_twin h.iterations name
    branches := Names.erase_twin h.branches name }
  leaves := ⟨Names.erase_leaves hname _, Names.erase_leaves hname _, Names.erase_leaves hname _⟩

end Desk.Follows

/-! ### Turns -/

/-- A turn that is an attempt fails with the failure of the attempt. -/
theorem Turn.lift_follows {a a' : Attempt host α} {Q : TwinWorlds → α → α → Prop}
    (ha : Attempt.Follows τ a a' Q) :
    Attempt.Follows τ (liftM a : Turn α) (liftM a') Q := by
  change Attempt.Follows τ (MonadLift.monadLift a : Turn α) (MonadLift.monadLift a') Q
  simp only [MonadLift.monadLift]
  refine Act.Follows.bind ha fun τ' x x' _ hx => ?_
  cases hx with
  | ok hx => exact Act.Follows.pure (.ok hx)
  | error e => exact Act.Follows.pure (.error _)

theorem Turn.lift_act_follows {a a' : Act host α} {Q : TwinWorlds → α → α → Prop}
    (ha : Act.Follows τ a a' Q) : Attempt.Follows τ (liftM a : Turn α) (liftM a') Q :=
  Turn.lift_follows (.lift ha)

theorem changeDesk_follows {f f' : Desk → Desk}
    (h : Desk.Follows τ.pairing τ.first.host τ.second.host (f τ.first.host) (f' τ.second.host)) :
    Act.Follows τ (changeDesk f) (changeDesk f') fun τ' _ _ => τ'.Whole → τ.Whole :=
  .modify (τ.twin.host h.twin) (.host _ h.leaves) id

theorem withDesk_follows {f f' : Desk → α × Desk} {R : α → α → Prop}
    (h : Desk.Follows τ.pairing τ.first.host τ.second.host (f τ.first.host).2
      (f' τ.second.host).2)
    (hR : R (f τ.first.host).1 (f' τ.second.host).1) :
    Act.Follows τ (withDesk f) (withDesk f') fun _ => R := by
  intro x w hrun
  cases hrun
  exact ⟨⟨_, _, _, τ.twin.host h.twin⟩, _, rfl, rfl, .refl _,
    .of_pairing (.host _ h.leaves), hR⟩

/-- A name that is in use in both worlds is found in both or in neither. -/
theorem sequence_follows {name : String} (hname : τ.pairing.names name) :
    Attempt.Follows τ (sequence name) (sequence name) fun τ' => τ'.pairing.lists := by
  refine .get_bind ?_
  have hfound := τ.twin.desk.sequences name hname
  generalize τ.first.host.sequences.find? name = x at hfound
  generalize τ.second.host.sequences.find? name = x' at hfound
  cases hfound with
  | none => exact .throw _
  | some hs => exact .pure hs

theorem looked_follows {name : String} (hname : τ.pairing.looked name) :
    Attempt.Follows τ (sequence name) (sequence name) fun τ' => τ'.pairing.seen := by
  refine .get_bind ?_
  have hfound := τ.twin.desk.looked name hname
  generalize τ.first.host.sequences.find? name = x at hfound
  generalize τ.second.host.sequences.find? name = x' at hfound
  cases hfound with
  | none => exact .throw _
  | some hs => exact .pure hs

theorem branch_follows {name : String} (hname : τ.pairing.names name) :
    Attempt.Follows τ (branch name) (branch name) fun τ' r r' => r.Twin τ'.pairing r' := by
  refine .get_bind ?_
  have hfound := τ.twin.desk.branches name hname
  generalize τ.first.host.branches.find? name = x at hfound
  generalize τ.second.host.branches.find? name = x' at hfound
  cases hfound with
  | none => exact .throw _
  | some hr => exact .pure hr

def Supply.Plain (supply : Supply Entry) : Prop := ∃ items, supply.Gives 0 items

theorem newScript_follows {supply : Supply Entry} (h : supply.Plain) (counter : Option String) :
    Act.Follows τ (newScript supply counter) (newScript supply counter) fun _ s s' =>
      s.Twin s' := by
  have hnames (d : Desk) : (d.newCount counter).2.SameNames d := by
    cases counter <;> exact ⟨rfl, rfl, rfl⟩
  exact (withDesk_follows (R := fun _ _ => True)
    (.of_sameNames τ.twin.desk (hnames _) (hnames _)) trivial).bind
    fun _ _ _ _ _ => .pure ⟨rfl, rfl, h⟩

/-! ### Terms -/

/-- Only these names are used, and all scripts are of fixed items. -/
inductive Term.Kept (V : String → Prop) : Term → Prop
  | int (n : Int) : Kept V (.int n)
  | rational (r : Rat) : Kept V (.rational r)
  | float (x : Double) : Kept V (.float x)
  | str (text : String) : Kept V (.str text)
  | symbolic (s : Symbolic) : Kept V (.symbolic s)
  | items (terms : List Term) : (∀ t ∈ terms, Kept V t) → Kept V (.items terms)
  | named (name : String) : V name → Kept V (.named name)
  | canonical (t : Term) : Kept V t → Kept V (.canonical t)
  | iterator (supply : Supply Entry) (counter : Option String) : supply.Plain →
      Kept V (.iterator supply counter)

/-- What is read one after the other is listed in both worlds. -/
theorem Term.readAll_follows {terms : List Term}
    (h : ∀ t ∈ terms, ∀ {τ : TwinWorlds}, τ.pairing.names = V →
      Attempt.Follows τ t.read t.read fun τ' x x' => x.Twin τ'.pairing x')
    (hV : τ.pairing.names = V) :
    Attempt.Follows τ (Term.readAll terms) (Term.readAll terms) fun τ' =>
      List.Forall₂ (External.Twin τ'.pairing) := by
  induction terms generalizing τ with
  | nil => exact .pure .nil
  | cons t terms ih =>
    refine (h t List.mem_cons_self hV).bind fun τ₁ x x' hτ₁ hx => ?_
    refine (ih (fun t ht => h t (List.mem_cons_of_mem _ ht)) (hτ₁.names.trans hV)).bind
      fun τ₂ xs xs' hτ₂ hxs => ?_
    exact .pure (.cons (hx.mono hτ₂) hxs)

theorem Term.Kept.read_follows {t : Term} (ht : t.Kept V) (hV : τ.pairing.names = V) :
    Attempt.Follows τ t.read t.read fun τ' x x' => x.Twin τ'.pairing x' := by
  induction ht generalizing τ with
  | int | rational | float | str | symbolic => exact .pure (.plain rfl)
  | items terms _ ih =>
    exact (Term.readAll_follows (fun t ht {τ} => ih t ht) hV).bind fun _ _ _ _ hxs =>
      .pure (.of_forall₂ hxs)
  | named name hname =>
    exact (sequence_follows (hV ▸ hname)).bind fun _ _ _ _ hs => .pure (.value (.list hs))
  | canonical t _ ih =>
    refine (ih hV).bind fun τ₁ x x' _ hx => ?_
    exact (Turn.lift_follows (canonicalize_follows hx)).bind fun _ _ _ _ hv => .pure (.value hv)
  | iterator supply counter h =>
    exact (Turn.lift_act_follows (newScript_follows h counter)).bind fun _ _ _ _ hs =>
      .pure (.iterator hs)

theorem Term.Kept.value_follows {t : Term} (ht : t.Kept V) (hV : τ.pairing.names = V) :
    Attempt.Follows τ t.value t.value fun τ' v v' => v.Twin τ'.pairing v' :=
  (ht.read_follows hV).bind fun _ _ _ _ hx => Turn.lift_follows (canonicalize_follows hx)

/-! ### Offers and conditions -/

inductive Offer.Kept (V : String → Prop) : Offer Term → Prop
  | host (v : HostValue) : Kept V (.host v)
  | canonical (t : Term) : t.Kept V → Kept V (.canonical t)
  | external (t : Term) : t.Kept V → Kept V (.external t)
  | named (name : String) : V name → Kept V (.named name)
  | vector (offers : List (Offer Term)) : (∀ o ∈ offers, Kept V o) → Kept V (.vector offers)

theorem Offer.readAll_follows {offers : List (Offer Term)}
    (h : ∀ o ∈ offers, ∀ {τ : TwinWorlds}, τ.pairing.names = V →
      Attempt.Follows τ o.read o.read fun τ' x x' => x.Twin τ'.pairing x')
    (hV : τ.pairing.names = V) :
    Attempt.Follows τ (Offer.readAll offers) (Offer.readAll offers) fun τ' =>
      List.Forall₂ (External.Twin τ'.pairing) := by
  induction offers generalizing τ with
  | nil => exact .pure .nil
  | cons o offers ih =>
    refine (h o List.mem_cons_self hV).bind fun τ₁ x x' hτ₁ hx => ?_
    refine (ih (fun o ho => h o (List.mem_cons_of_mem _ ho)) (hτ₁.names.trans hV)).bind
      fun τ₂ xs xs' hτ₂ hxs => ?_
    exact .pure (.cons (hx.mono hτ₂) hxs)

theorem Offer.Kept.read_follows {o : Offer Term} (ho : o.Kept V) (hV : τ.pairing.names = V) :
    Attempt.Follows τ o.read o.read fun τ' x x' => x.Twin τ'.pairing x' := by
  induction ho generalizing τ with
  | host v => exact .pure v.toExternal_twin
  | canonical t ht => exact (ht.value_follows hV).bind fun _ _ _ _ hv => .pure (.value hv)
  | external t ht => exact ht.read_follows hV
  | named name hname =>
    exact (sequence_follows (hV ▸ hname)).bind fun _ _ _ _ hs => .pure (.value (.list hs))
  | vector offers _ ih =>
    exact (Offer.readAll_follows (fun o ho {τ} => ih o ho) hV).bind fun _ _ _ _ hxs =>
      .pure (.of_forall₂ hxs)

/-- The operand uses only these names, and no steps are taken. -/
def Condition.Kept (V : String → Prop) : Condition Term Step → Prop
  | .equalTo t | .unequalTo t | .below t | .atMost t | .above t | .atLeast t | .failsOn t _ =>
    t.Kept V
  | .after _ => False
  | _ => True

theorem Condition.Kept.read_follows {c : Condition Term Step} (hc : c.Kept V)
    (hV : τ.pairing.names = V) :
    Attempt.Follows τ c.read c.read fun τ' c c' => MemoSeq.Condition.Twin τ'.pairing c c' := by
  cases c with
  | all => exact .pure .all
  | none => exact .pure .none
  | equalTo t => exact (Term.Kept.value_follows hc hV).bind fun _ _ _ _ hv => .pure (.equalTo hv)
  | unequalTo t =>
    exact (Term.Kept.value_follows hc hV).bind fun _ _ _ _ hv => .pure (.unequalTo hv)
  | below t => exact (Term.Kept.value_follows hc hV).bind fun _ _ _ _ hv => .pure (.below hv)
  | atMost t => exact (Term.Kept.value_follows hc hV).bind fun _ _ _ _ hv => .pure (.atMost hv)
  | above t => exact (Term.Kept.value_follows hc hV).bind fun _ _ _ _ hv => .pure (.above hv)
  | atLeast t => exact (Term.Kept.value_follows hc hV).bind fun _ _ _ _ hv => .pure (.atLeast hv)
  | number => exact .pure .number
  | even => exact .pure .even
  | kind name => exact .pure (.kind name)
  | failsOn t message =>
    exact (Term.Kept.value_follows hc hV).bind fun _ _ _ _ hv => .pure (.failsOn message hv)
  | after steps => exact hc.elim

end MemoSeq.Session
