/-
  MemoSeq/Proofs/Twin/Turns.lean
  ==============================
  **Every step answers the same in twin worlds.**

  A step is taken in both worlds, and it uses only names that are in use in both
  (`Step.Uses`).  The worlds are twins again, and it is answered alike (`Session.answer_follows`).
  If the answer shows what is cached in lists, this takes that no list lies within itself.

  Nothing is said of what four kinds of steps answer.  Some take many items at once, and show
  each as it is then; it would have to be said of each moment that no list lies within itself.
  And whether a branch has ended tells how far its tape has been read.
-/
import MemoSeq.Proofs.Twin.Terms

namespace MemoSeq

variable {τ : TwinWorlds} {v v' : Value}

/-! ### What is shown in answers -/

def Snapshot.IsList : Snapshot → Prop
  | .list _ _ _ => True
  | _ => False

instance : DecidablePred Snapshot.IsList
  | .list _ _ _ => .isTrue trivial
  | .int _ | .rational _ | .str _ => .isFalse id

theorem World.snapshot_isList (w : World Session.host) (s : Sequence) :
    (w.snapshot (.list s)).IsList :=
  trivial

namespace TwinWorlds

/-- Only of a list does a snapshot show what is cached. -/
theorem snapshot_eq (hv : v.Twin τ.pairing v')
    (h : (τ.first.snapshot v).IsList → τ.Whole) : τ.second.snapshot v' = τ.first.snapshot v := by
  refine τ.twin.snapshot_eq hv ?_
  rintro s rfl
  cases hv with
  | scalar hscalar => cases hscalar
  | list hs => exact h (τ.first.snapshot_isList s) s (τ.twin.lists.own (τ.pairing.seen_of_lists hs))

theorem Whole.acyclic (h : τ.Whole) (hv : v.Twin τ.pairing v') :
    ∀ s, v = .list s → τ.first.Acyclic s := by
  rintro s rfl
  cases hv with
  | scalar hscalar => cases hscalar
  | list hs => exact h s (τ.twin.lists.own (τ.pairing.seen_of_lists hs))

theorem Whole.display_eq (h : τ.Whole) (hv : v.Twin τ.pairing v') :
    τ.second.display v' = τ.first.display v :=
  τ.twin.display_eq hv (h.acyclic hv)

theorem Whole.structureOf_eq (h : τ.Whole) (hv : v.Twin τ.pairing v') :
    τ.second.structureOf v' = τ.first.structureOf v :=
  τ.twin.structureOf_eq hv (h.acyclic hv)

theorem Whole.structureOfExternal_eq (h : τ.Whole) {x x' : External Session.Script}
    (hx : x.Twin τ.pairing x') :
    τ.second.structureOfExternal x' = τ.first.structureOfExternal x := by
  induction hx with
  | @plain x y hplain =>
    cases x with
    | value v =>
      obtain ⟨hscalar, -⟩ := Option.ite_none_right_eq_some.mp hplain
      simp only [World.structureOfExternal, h.structureOf_eq (.scalar hscalar)]
    | items | iterator => cases hplain
    | int | rational | float | str | symbolic => simp only [World.structureOfExternal]
  | value hv => simp only [World.structureOfExternal, h.structureOf_eq hv]
  | iterator => simp only [World.structureOfExternal]
  | items hlength _ ih =>
    have hall := List.forall₂_iff_zip.mpr ⟨hlength, fun {_ _} hmem => ih hmem⟩
    simp only [World.structureOfExternal, List.Forall₂.map_eq (fun _ _ heq => heq) hall]

end TwinWorlds

namespace Session

variable {E E' : Engine host} {V : String → Prop} {α : Type}

/-- The answer shows what is cached in a list. -/
def Answer.Shows : Answer → Prop
  | .text _ | .items _ _ | .sliceSequence _ _ | .description _ _ _ _ _ => True
  | .value v => v.IsList
  | .values vs | .sliceItems _ vs => ∃ v ∈ vs, v.IsList
  | _ => False

instance : DecidablePred Answer.Shows
  | .text _ | .items _ _ | .sliceSequence _ _ | .description _ _ _ _ _ => .isTrue trivial
  | .value v => inferInstanceAs (Decidable v.IsList)
  | .values vs | .sliceItems _ vs => inferInstanceAs (Decidable (∃ v ∈ vs, v.IsList))
  | .nothing | .flag _ | .flags _ _ | .number _ | .ratio _ | .flat _ | .flattened _ _ | .host _
  | .comparison _ _ _ _ _ _ | .failure _ | .complaint _ => .isFalse id

/-- The same answer.  If it shows what is cached in lists, no list may lie within itself. -/
def Alike (τ : TwinWorlds) (a a' : Answer) : Prop := (a.Shows → τ.Whole) → a' = a

theorem answered_follows {a a' : Answer} (h : a' = a) :
    Attempt.Follows τ (pure a : Turn Answer) (pure a') Alike :=
  .pure fun _ => h

theorem written_follows (hv : v.Twin τ.pairing v') :
    Act.Follows τ (written v) (written v') Alike :=
  .get_bind (.pure fun h => congrArg Answer.value (TwinWorlds.snapshot_eq hv h))

theorem writtenAll_follows {vs vs' : List Value} (hvs : Values.Twin τ.pairing vs vs') :
    Act.Follows τ (writtenAll vs) (writtenAll vs') fun τ' shown shown' =>
      ((∃ v ∈ shown, v.IsList) → τ'.Whole) → shown' = shown := by
  refine .get_bind (.pure fun h => ?_)
  induction hvs with
  | nil => rfl
  | cons hv _ ih =>
    rw [List.map_cons, List.map_cons, ih ?_, TwinWorlds.snapshot_eq hv fun hlist =>
      h ⟨_, List.mem_cons_self, hlist⟩]
    rintro ⟨u, hu, hlist⟩
    exact h ⟨u, List.mem_cons_of_mem _ hu, hlist⟩

/-- If there is a target, its name is in use. -/
def Binds (V : String → Prop) (target : Option String) : Prop := ∀ name ∈ target, V name

theorem Binds.mono {π π' : Pairing} {target : Option String} (h : Binds π.names target)
    (hπ : π.Grows π') : Binds π'.names target := by
  rwa [hπ.names]

theorem bindTarget_follows {target : Option String} (htarget : Binds τ.pairing.names target)
    (hv : v.Twin τ.pairing v') :
    Act.Follows τ (bindTarget target v) (bindTarget target v') fun τ' _ _ =>
      τ'.Whole → τ.Whole := by
  cases target with
  | none => exact .pure id
  | some name =>
    cases hv with
    | scalar hscalar =>
      cases v with
      | int | rational | str => exact .pure id
      | list => cases hscalar
    | list hs =>
      dsimp only [bindTarget]
      exact changeDesk_follows (.sequence τ.twin.desk (htarget name rfl) hs)

theorem give_follows {target : Option String} (htarget : Binds τ.pairing.names target)
    (hv : v.Twin τ.pairing v') :
    Act.Follows τ (give target v) (give target v') Alike :=
  (written_follows hv).bind fun _ _ _ hτ ha =>
    (bindTarget_follows (htarget.mono hτ) (hv.mono hτ)).bind fun _ _ _ _ hwhole =>
      .pure fun h => ha fun hshows => hwhole (h hshows)

/-- A value is given as the answer to a step. -/
theorem given_follows {target : Option String} (htarget : Binds τ.pairing.names target)
    (hv : v.Twin τ.pairing v') :
    Attempt.Follows τ (liftM (give target v) : Turn Answer) (liftM (give target v')) Alike :=
  Turn.lift_act_follows (give_follows htarget hv)

/-- A target is bound, and then the step is answered. -/
theorem named_follows {a : Answer} {target : Option String} (htarget : Binds τ.pairing.names target)
    (hv : v.Twin τ.pairing v') :
    Attempt.Follows τ (do bindTarget target v; return a : Turn Answer)
      (do bindTarget target v'; return a) Alike :=
  (Turn.lift_act_follows (bindTarget_follows htarget hv)).bind
    fun _ _ _ _ _ => answered_follows rfl

theorem binds_some {V : String → Prop} {name : String} (h : V name) : Binds V name := by
  rintro _ ⟨⟩
  exact h

theorem giveItem_follows {x x' : Option Item} (hx : Option.Rel (Item.Twin τ.pairing) x x') :
    Act.Follows τ (giveItem x) (giveItem x') Alike := by
  cases hx with
  | none => exact .pure fun _ => rfl
  | some hitem =>
    cases hitem with
    | error e => exact .pure fun _ => rfl
    | ok hv => exact written_follows hv

/-! ### Iterations and branches -/

section Driving

/-! What is driven corresponds, also when other things have been done. -/

variable {R : Pairing → α → α → Prop} {next next' : α → Act host (Option Item × α)}
variable (hnext : ∀ {τ : TwinWorlds} {b b' : α}, R τ.pairing b b' →
  Act.Follows τ (next b) (next' b') fun τ' x x' =>
    Option.Rel (Item.Twin τ'.pairing) x.1 x'.1 ∧ R τ'.pairing x.2 x'.2)
include hnext

theorem takeItem_follows
    (hmono : ∀ {π π' : Pairing} {b b' : α}, π.Grows π' → R π b b' → R π' b b')
    {b b' : α} (hb : R τ.pairing b b') :
    Act.Follows τ (takeItem next b) (takeItem next' b') fun τ' x x' =>
      Alike τ' x.1 x'.1 ∧ R τ'.pairing x.2 x'.2 :=
  (hnext hb).bind fun _ _ _ _ hx => (giveItem_follows hx.1).bind fun _ _ _ hτ ha =>
    .pure ⟨ha, hmono hτ hx.2⟩

theorem takeItems_follows (count : Nat) {b b' : α} (hb : R τ.pairing b b')
    (taken taken' : List (Outcome Snapshot)) :
    Act.Follows τ (takeItems next count b taken) (takeItems next' count b' taken') fun τ' x x' =>
      R τ'.pairing x.2 x'.2 := by
  induction count generalizing τ b b' taken taken' with
  | zero => exact .pure hb
  | succ count ih =>
    refine (hnext hb).bind fun τ₁ x x' _ hx => ?_
    obtain ⟨x, b⟩ := x
    obtain ⟨x', b'⟩ := x'
    obtain ⟨hitem, hb⟩ := hx
    cases hitem with
    | none => exact .pure hb
    | some hitem =>
      cases hitem with
      | error e => exact ih hb _ _
      | ok hv => exact .get_bind (ih hb _ _)

end Driving

section Named

/-! An iteration or a branch is found under a name, driven, and found under it again. -/

variable {name : String} (hname : τ.pairing.names name)
variable {Q : TwinWorlds → Answer → Answer → Prop}
  (hQ : ∀ {τ τ' : TwinWorlds} {a a' : Answer}, (τ'.Whole → τ.Whole) → Q τ a a' → Q τ' a a')
include hname hQ

theorem withIteration_follows {drive drive' : Iteration → Act host (Answer × Iteration)}
    (hdrive : ∀ {τ : TwinWorlds} {i i' : Iteration}, i.Twin τ.pairing i' →
      Act.Follows τ (drive i) (drive' i') fun τ' x x' => Q τ' x.1 x'.1 ∧ x.2.Twin τ'.pairing x'.2) :
    Attempt.Follows τ (withIteration name drive) (withIteration name drive') Q := by
  refine .get_bind ?_
  have hfound := τ.twin.desk.iterations name hname
  generalize τ.first.host.iterations.find? name = x at hfound
  generalize τ.second.host.iterations.find? name = x' at hfound
  cases hfound with
  | none => exact .throw _
  | some hi =>
    refine (Turn.lift_act_follows (changeDesk_follows (.noIteration τ.twin.desk hname))).bind
      fun τ₁ _ _ hτ₁ _ => ?_
    refine (Turn.lift_act_follows (hdrive (hi.mono hτ₁))).bind fun τ₂ y y' hτ₂ hy => ?_
    obtain ⟨a, i⟩ := y
    obtain ⟨a', i'⟩ := y'
    have hname₂ : τ₂.pairing.names name := (hτ₁.trans hτ₂).names ▸ hname
    refine (Turn.lift_act_follows (changeDesk_follows (.iteration τ₂.twin.desk hname₂ hy.2))).bind
      fun _ _ _ _ hwhole => ?_
    exact .pure (hQ hwhole hy.1)

theorem withBranch_follows {drive drive' : Reader → Act host (Answer × Reader)}
    (hdrive : ∀ {τ : TwinWorlds} {r r' : Reader}, r.Twin τ.pairing r' →
      Act.Follows τ (drive r) (drive' r') fun τ' x x' => Q τ' x.1 x'.1 ∧ x.2.Twin τ'.pairing x'.2) :
    Attempt.Follows τ (withBranch name drive) (withBranch name drive') Q := by
  refine (branch_follows hname).bind fun τ₀ r r' hτ₀ hr => ?_
  have hname₀ : τ₀.pairing.names name := hτ₀.names ▸ hname
  refine (Turn.lift_act_follows (changeDesk_follows (.noBranch τ₀.twin.desk hname₀))).bind
    fun τ₁ _ _ hτ₁ _ => ?_
  refine (Turn.lift_act_follows (hdrive (hr.mono hτ₁))).bind fun τ₂ y y' hτ₂ hy => ?_
  obtain ⟨a, q⟩ := y
  obtain ⟨a', q'⟩ := y'
  have hname₂ : τ₂.pairing.names name := (hτ₁.trans hτ₂).names ▸ hname₀
  refine (Turn.lift_act_follows (changeDesk_follows (.branch τ₂.twin.desk hname₂ hy.2))).bind
    fun _ _ _ _ hwhole => ?_
  exact .pure (hQ hwhole hy.1)

end Named

theorem nest_follows (depth : Nat) (hv : v.Twin τ.pairing v') :
    Act.Follows τ (nest depth v) (nest depth v') fun τ' u u' => u.Twin τ'.pairing u' := by
  induction depth generalizing τ v v' with
  | zero => exact .pure hv
  | succ depth ih =>
    exact (Sequence.adopt_follows (Producer.Twin.fresh (.values (.cons hv .nil))) false).bind
      fun _ _ _ _ hs => ih (.list hs)

theorem skipCalls_follows (hE : E.Follows E') (count : Nat) {s s' : Script} (hs : s.Twin s') :
    Act.Follows τ (skipCalls E count s) (skipCalls E' count s') fun _ s s' => s.Twin s' := by
  induction count generalizing τ s s' with
  | zero => exact .pure hs
  | succ count ih => exact (hE.pull hs).bind fun _ _ _ _ hs => ih hs

/-! ### Steps -/

/-- Only names that are in use are used and bound, all scripts are of fixed items, and no hook
    is set.  To open an iteration over a list, to filter it and to join it, is to look at it. -/
def Step.Uses (U : Usage) : Step → Prop
  | .newContainer name terms _ | .newValues name terms =>
    U.names name ∧ ∀ t ∈ terms, t.Kept U.names
  | .newScripted name supply _ _ _ => U.names name ∧ supply.Plain
  | .tee supply left right _ => supply.Plain ∧ U.names left ∧ U.names right
  | .drop name | .length name | .materialize name | .cached name | .display name
  | .structureText name | .next name | .take name _ | .nextOfBranch name | .takeOfBranch name _
  | .branchEnded name => U.names name
  | .alias name other | .identical name other | .split name other | .adoptBranch name other _ =>
    U.names name ∧ U.names other
  | .advance name target | .get name _ target | .slice name _ _ _ _ target
  | .reverse name target => U.names name ∧ Binds U.names target
  | .append name other target => U.looked name ∧ U.looked other ∧ Binds U.names target
  | .set name _ t | .contains name t | .count name t | .equals name t =>
    U.names name ∧ t.Kept U.names
  | .filter name condition spare target =>
    U.looked name ∧ condition.Kept U.names ∧ (∀ t, spare = some t → t.Kept U.names) ∧
      Binds U.names target
  | .iterate name iteration => U.looked name ∧ U.names iteration
  | .collect name _ => U.looked name
  | .canonicalize t target => t.Kept U.names ∧ Binds U.names target
  | .nest t _ name => t.Kept U.names ∧ U.names name
  | .describe t | .externalText t | .flatten t | .flatText t | .fromValue _ t | .fromList _ t
  | .toJson t => t.Kept U.names
  | .compare s t | .flatEqual s t => s.Kept U.names ∧ t.Kept U.names
  | .toValue offer target => offer.Kept U.names ∧ Binds U.names target
  | .toList offers target => (∀ o ∈ offers, o.Kept U.names) ∧ Binds U.names target
  | .fromJson _ target | .listFromJson _ target => Binds U.names target
  | .setLimit _ | .setDisplayLength _ => U.settings
  | .ratio _ _ | .parseDecimal _ | .limit | .displayLength => True

/-- What the step answers tells nothing of how far tapes have been read, and of lists at one
    moment only. -/
def Step.Told : Step → Prop
  | .take _ _ | .collect _ _ | .takeOfBranch _ _ | .branchEnded _ => False
  | _ => True

section Steps

variable (hE : E.Follows E')
include hE

theorem turn_follows_of_making {step : Step} (huses : step.Uses τ.pairing.toUsage)
    (hsubject : step.subject = .making) :
    Attempt.Follows τ (turn E step) (turn E' step) Alike := by
  cases step with
  | newContainer name items infinite =>
    obtain ⟨hname, hitems⟩ := huses
    refine (Term.readAll_follows (fun t ht {τ} => (hitems t ht).read_follows) rfl).bind
      fun τ₁ xs xs' hτ₁ hxs => ?_
    refine (Turn.lift_act_follows (Sequence.adopt_follows (Producer.Twin.fresh (.container hxs))
      infinite)).bind fun τ₂ s s' hτ₂ hs => ?_
    exact named_follows ((binds_some hname).mono (hτ₁.trans hτ₂)) (.list hs)
  | newValues name items =>
    obtain ⟨hname, hitems⟩ := huses
    refine (Term.readAll_follows (fun t ht {τ} => (hitems t ht).read_follows) rfl).bind
      fun τ₁ xs xs' hτ₁ hxs => ?_
    refine (Turn.lift_follows (Attempt.Follows.mapM (R := fun τ => External.Twin τ.pairing)
      (S := fun τ => Value.Twin τ.pairing) (fun hτ hx => hx.mono hτ) (fun hτ hv => hv.mono hτ)
      (fun _ _ _ hx => canonicalize_follows hx) hxs)).bind fun τ₂ vs vs' hτ₂ hvs => ?_
    refine (Turn.lift_act_follows (Sequence.adopt_follows (Producer.Twin.fresh (.values hvs))
      false)).bind fun τ₃ s s' hτ₃ hs => ?_
    exact named_follows ((binds_some hname).mono ((hτ₁.trans hτ₂).trans hτ₃)) (.list hs)
  | newScripted name supply infinite skip announced =>
    obtain ⟨hname, hsupply⟩ := huses
    refine (Turn.lift_act_follows (newScript_follows hsupply _)).bind fun τ₁ s s' hτ₁ hs => ?_
    refine (Turn.lift_act_follows (skipCalls_follows hE skip hs)).bind fun τ₂ s s' hτ₂ hs => ?_
    have rest {τ' : TwinWorlds} (hτ : τ.Grows τ') : Attempt.Follows τ' (do
          let s ← Sequence.ofSource (H := host) s infinite
          bindTarget name (.list s)
          return .nothing : Turn Answer)
        (do
          let s ← Sequence.ofSource (H := host) s' infinite
          bindTarget name (.list s)
          return .nothing) Alike :=
      (Turn.lift_act_follows (Sequence.adopt_follows hs.fresh infinite)).bind
        fun _ _ _ hτ' hs => named_follows ((binds_some hname).mono (hτ.trans hτ')) (.list hs)
    have hτ := hτ₁.trans hτ₂
    dsimp only
    split
    · exact (Turn.lift_act_follows (changeDesk_follows (.of_sameNames τ₂.twin.desk ⟨rfl, rfl, rfl⟩
        ⟨rfl, rfl, rfl⟩))).bind fun _ _ _ hτ₃ _ => rest (hτ.trans hτ₃)
    · exact rest hτ
  | «alias» list name =>
    obtain ⟨hlist, hname⟩ := huses
    exact (sequence_follows hlist).bind fun _ _ _ hτ₁ hs =>
      named_follows ((binds_some hname).mono hτ₁) (.list hs)
  | drop name =>
    have hname : τ.pairing.names name := huses
    have hdesk := τ.twin.desk
    have hfound : (τ.second.host.drop name).1 = (τ.first.host.drop name).1 := by
      simp only [Desk.drop, (hdesk.sequences name hname).isSome_eq,
        (hdesk.iterations name hname).isSome_eq, (hdesk.branches name hname).isSome_eq]
    exact (Turn.lift_act_follows (withDesk_follows (R := fun b b' => b' = b)
      (.dropped hdesk hname) hfound)).bind fun _ _ _ _ hsame => answered_follows (congrArg _ hsame)
  | identical list other =>
    obtain ⟨hlist, hother⟩ := huses
    refine (sequence_follows hlist).bind fun τ₁ s s' hτ₁ hs => ?_
    refine (sequence_follows (hτ₁.names ▸ hother)).bind fun τ₂ t t' hτ₂ ht => ?_
    -- lists that go together are the same list just when their partners are
    have hunique := τ₂.twin.lists.unique (τ₂.pairing.seen_of_lists (hτ₂.lists hs))
      (τ₂.pairing.seen_of_lists ht)
    have hsame : (s' == t') = (s == t) := by
      rw [Bool.eq_iff_iff, beq_iff_eq, beq_iff_eq]
      exact hunique.symm
    exact answered_follows (congrArg _ hsame)
  | _ => cases hsubject

theorem turn_follows_of_lists {step : Step} (huses : step.Uses τ.pairing.toUsage)
    (hsubject : step.subject = .lists) :
    Attempt.Follows τ (turn E step) (turn E' step) Alike := by
  cases step with
  | advance list target =>
    obtain ⟨hlist, htarget⟩ := huses
    refine (sequence_follows hlist).bind fun τ₁ s s' hτ₁ hs => ?_
    refine (Turn.lift_follows (Sequence.advance_follows hE hs)).bind fun τ₂ x x' hτ₂ hx => ?_
    cases hx with
    | none => exact answered_follows rfl
    | some hv => exact given_follows (htarget.mono (hτ₁.trans hτ₂)) hv
  | get list index target =>
    obtain ⟨hlist, htarget⟩ := huses
    refine (sequence_follows hlist).bind fun τ₁ s s' hτ₁ hs => ?_
    exact (Turn.lift_follows (Sequence.read_follows hE hs index)).bind
      fun _ _ _ hτ₂ hv => given_follows (htarget.mono (hτ₁.trans hτ₂)) hv
  | set list index t =>
    obtain ⟨hlist, ht⟩ := huses
    -- the value is read before the list is looked up, so the list is found in the later world
    refine (ht.read_follows rfl).bind fun τ₁ x x' hτ₁ hx => ?_
    refine (sequence_follows (hτ₁.names ▸ hlist)).bind fun τ₂ s s' hτ₂ hs => ?_
    exact (Turn.lift_follows (Sequence.overwrite_follows hE hs index (hx.mono hτ₂))).bind
      fun _ _ _ _ _ => answered_follows rfl
  | contains list t =>
    obtain ⟨hlist, ht⟩ := huses
    refine (sequence_follows hlist).bind fun τ₁ s s' hτ₁ hs => ?_
    refine (ht.value_follows hτ₁.names).bind fun τ₂ v v' hτ₂ hv => ?_
    exact (Turn.lift_follows (Sequence.contains_follows hE (hτ₂.lists hs) hv)).bind
      fun _ _ _ _ hb => answered_follows (congrArg _ hb)
  | count list t =>
    obtain ⟨hlist, ht⟩ := huses
    refine (sequence_follows hlist).bind fun τ₁ s s' hτ₁ hs => ?_
    refine (ht.value_follows hτ₁.names).bind fun τ₂ v v' hτ₂ hv => ?_
    exact (Turn.lift_follows (Sequence.count_follows hE (hτ₂.lists hs) hv)).bind
      fun _ _ _ _ hn => answered_follows (by rw [hn])
  | length list =>
    refine (sequence_follows huses).bind fun τ₁ s s' _ hs => ?_
    exact (Turn.lift_follows (Sequence.length_follows hE hs)).bind
      fun _ _ _ _ hn => answered_follows (by rw [hn])
  | equals list t =>
    obtain ⟨hlist, ht⟩ := huses
    refine (sequence_follows hlist).bind fun τ₁ s s' hτ₁ hs => ?_
    refine (ht.value_follows hτ₁.names).bind fun τ₂ v v' hτ₂ hv => ?_
    exact (Turn.lift_follows (Sequence.equals_follows hE (hτ₂.lists hs) hv)).bind
      fun _ _ _ _ hb => answered_follows (congrArg _ hb)
  | materialize list =>
    refine (sequence_follows huses).bind fun τ₁ s s' _ hs => ?_
    -- the answer writes the values out, which compares them only when both desks may show
    refine (Turn.lift_follows (Sequence.materialize_follows hE hs)).bind fun τ₂ vs vs' _ hvs => ?_
    exact (Turn.lift_act_follows (writtenAll_follows hvs)).bind
      fun _ _ _ _ hshown => .pure fun h => congrArg Answer.values (hshown h)
  | cached list =>
    refine (sequence_follows huses).bind fun τ₁ s s' _ hs => .get_bind ?_
    exact (Turn.lift_act_follows (writtenAll_follows (τ₁.twin.cell_of_lists hs).cache)).bind
      fun _ _ _ _ hshown => .pure fun h => congrArg Answer.values (hshown h)
  | display list =>
    exact (sequence_follows huses).bind fun _ _ _ _ hs => .get_bind
      (.pure fun h => congrArg Answer.text ((h trivial).display_eq (.list hs)))
  | structureText list =>
    exact (sequence_follows huses).bind fun _ _ _ _ hs => .get_bind
      (.pure fun h => congrArg Answer.text ((h trivial).structureOf_eq (.list hs)))
  | _ => cases hsubject

theorem turn_follows_of_derived {step : Step} (huses : step.Uses τ.pairing.toUsage)
    (hsubject : step.subject = .derived) :
    Attempt.Follows τ (turn E step) (turn E' step) Alike := by
  cases step with
  | slice list start stop step asSequence target =>
    obtain ⟨hlist, htarget⟩ := huses
    refine (sequence_follows hlist).bind fun τ₁ s s' hτ₁ hs => ?_
    refine (Turn.lift_follows (Sequence.slice_follows hE hs start stop step)).bind
      fun τ₂ slice slice' hτ₂ hslice => ?_
    -- whether the slice is opened or read at once, the same is done with it
    have rest (isLazy : Bool) : Attempt.Follows τ₂ (do
          if asSequence then
            let s ← slice.toSequence (H := host)
            let snapshot := (← get).snapshot (.list s)
            bindTarget target (.list s)
            return .sliceSequence isLazy snapshot
          else
            return .sliceItems isLazy (← writtenAll (← slice.toList E)) : Turn Answer)
        (do
          if asSequence then
            let s ← slice'.toSequence (H := host)
            let snapshot := (← get).snapshot (.list s)
            bindTarget target (.list s)
            return .sliceSequence isLazy snapshot
          else
            return .sliceItems isLazy (← writtenAll (← slice'.toList E'))) Alike := by
      split
      · refine (Turn.lift_act_follows (Slice.toSequence_follows hslice)).bind fun τ₃ t t' hτ₃ ht =>
          .get_bind ?_
        have htarget₃ := htarget.mono ((hτ₁.trans hτ₂).trans hτ₃)
        refine (Turn.lift_act_follows (bindTarget_follows htarget₃ (.list ht))).bind
          fun _ _ _ _ hwhole => .pure fun h => ?_
        exact congrArg _ (TwinWorlds.snapshot_eq (.list ht) fun _ => hwhole (h trivial))
      · refine (Turn.lift_follows (Slice.toList_follows hE hslice)).bind
          fun τ₃ vs vs' _ hvs => ?_
        exact (Turn.lift_act_follows (writtenAll_follows hvs)).bind
          fun _ _ _ _ hshown => .pure fun h => congrArg _ (hshown h)
    cases hslice with
    | «lazy» => exact rest true
    | items => exact rest false
  | filter list condition spare target =>
    obtain ⟨hlist, hcondition, hspare, htarget⟩ := huses
    refine (looked_follows hlist).bind fun τ₁ s s' hτ₁ hs => ?_
    refine (hcondition.read_follows hτ₁.names).bind fun τ₂ c c' hτ₂ hc => ?_
    have rest {τ' : TwinWorlds} (hτ' : τ₂.Grows τ') : Attempt.Follows τ' (do
          give target (.list (← s.filter (H := host) c)) : Turn Answer)
        (do give target (.list (← s'.filter (H := host) c'))) Alike := by
      refine (Turn.lift_act_follows (Sequence.filter_follows ((hτ₂.trans hτ').seen hs)
        (hc.mono hτ'))).bind fun τ₃ t t' hτ₃ ht => ?_
      exact given_follows (htarget.mono (((hτ₁.trans hτ₂).trans hτ').trans hτ₃)) (.list ht)
    cases spare with
    | none => exact rest (.refl _)
    | some t =>
      exact (((hspare t rfl).value_follows (hτ₁.trans hτ₂).names).map
        (P := fun _ _ _ => True) fun _ _ _ _ _ => trivial).bind fun _ _ _ hτ₃ _ => rest hτ₃
  | reverse list target =>
    obtain ⟨hlist, htarget⟩ := huses
    refine (sequence_follows hlist).bind fun τ₁ s s' hτ₁ hs => ?_
    exact (Turn.lift_follows (Sequence.reverse_follows hE hs)).bind
      fun _ _ _ hτ₂ hs => given_follows (htarget.mono (hτ₁.trans hτ₂)) (.list hs)
  | append list other target =>
    obtain ⟨hlist, hother, htarget⟩ := huses
    refine (looked_follows hlist).bind fun τ₁ s s' hτ₁ hs => ?_
    refine (looked_follows (hτ₁.looked ▸ hother)).bind fun τ₂ t t' hτ₂ ht => ?_
    exact (Turn.lift_act_follows (Sequence.append_follows (hτ₂.seen hs) ht)).bind
      fun _ _ _ hτ₃ hs => given_follows (htarget.mono ((hτ₁.trans hτ₂).trans hτ₃)) (.list hs)
  | _ => cases hsubject

theorem turn_follows_of_iterations {step : Step} (huses : step.Uses τ.pairing.toUsage)
    (htold : step.Told) (hsubject : step.subject = .iterations) :
    Attempt.Follows τ (turn E step) (turn E' step) Alike := by
  cases step with
  | iterate list name =>
    obtain ⟨hlist, hname⟩ := huses
    refine (looked_follows hlist).bind fun τ₁ s s' hτ₁ hs => .get_bind ?_
    have hname₁ : τ₁.pairing.names name := hτ₁.names ▸ hname
    exact (Turn.lift_act_follows (changeDesk_follows (.iteration τ₁.twin.desk hname₁
      (τ₁.twin.iteration hs)))).bind fun _ _ _ _ _ => answered_follows rfl
  | next name =>
    exact withIteration_follows huses (fun hwhole ha h => ha fun hshows =>
      hwhole (h hshows)) fun hi =>
      takeItem_follows (R := fun π (i i' : Iteration) => i.Twin π i')
        (fun hi => Iteration.next_follows hE hi) (fun hπ hi => hi.mono hπ) hi
  | take | collect => exact htold.elim
  | _ => cases hsubject

theorem turn_follows_of_branches {step : Step} (huses : step.Uses τ.pairing.toUsage)
    (htold : step.Told) (hsubject : step.subject = .branches) :
    Attempt.Follows τ (turn E step) (turn E' step) Alike := by
  cases step with
  | tee supply left right counter =>
    obtain ⟨hsupply, hleft, hright⟩ := huses
    refine (Turn.lift_act_follows (newScript_follows hsupply counter)).bind
      fun τ₁ s s' hτ₁ hs => ?_
    refine (Turn.lift_act_follows (Reader.onto_follows hs.fresh)).bind fun τ₂ r r' hτ₂ hr => ?_
    have hnames := (hτ₁.trans hτ₂).names
    have hfirst := Desk.Follows.branch τ₂.twin.desk (hnames ▸ hleft) hr
    have hsecond := Desk.Follows.branch hfirst.twin (hnames ▸ hright) hr
    exact (Turn.lift_act_follows (changeDesk_follows
      ⟨hsecond.twin, hfirst.leaves.trans hsecond.leaves⟩)).bind
      fun _ _ _ _ _ => answered_follows rfl
  | nextOfBranch name =>
    exact withBranch_follows huses (fun hwhole ha h => ha fun hshows => hwhole (h hshows)) fun hr =>
      takeItem_follows (R := fun π (r r' : Reader) => r.Twin π r')
        (fun hr => (Reader.next_follows hE hr).mono fun _ _ _ _ hx => ⟨hx.1, hx.2.1⟩)
        (fun hπ hr => hr.mono hπ) hr
  | split name other =>
    obtain ⟨hname, hother⟩ := huses
    refine (branch_follows hname).bind fun τ₁ r r' hτ₁ hr => ?_
    have hother₁ : τ₁.pairing.names other := hτ₁.names ▸ hother
    exact (Turn.lift_act_follows (changeDesk_follows (.branch τ₁.twin.desk hother₁ hr))).bind
      fun _ _ _ _ _ => answered_follows rfl
  | adoptBranch name list infinite =>
    obtain ⟨hname, hlist⟩ := huses
    refine (branch_follows hname).bind fun τ₁ r r' hτ₁ hr => ?_
    have hname₁ : τ₁.pairing.names name := hτ₁.names ▸ hname
    refine (Turn.lift_act_follows (changeDesk_follows (.noBranch τ₁.twin.desk hname₁))).bind
      fun τ₂ _ _ hτ₂ _ => ?_
    refine (Turn.lift_act_follows (Sequence.adopt_follows (Producer.Twin.fresh
      (.reader (hr.mono hτ₂))) infinite)).bind fun τ₃ s s' hτ₃ hs => ?_
    exact named_follows ((binds_some hlist).mono ((hτ₁.trans hτ₂).trans hτ₃)) (.list hs)
  | takeOfBranch | branchEnded => exact htold.elim
  | _ => cases hsubject

theorem turn_follows_of_values {step : Step} (huses : step.Uses τ.pairing.toUsage)
    (hsubject : step.subject = .values) :
    Attempt.Follows τ (turn E step) (turn E' step) Alike := by
  cases step with
  | canonicalize t target =>
    obtain ⟨ht, htarget⟩ := huses
    exact (ht.value_follows rfl).bind fun _ _ _ hτ₁ hv => given_follows (htarget.mono hτ₁) hv
  | nest t depth name =>
    obtain ⟨ht, hname⟩ := huses
    refine (ht.value_follows rfl).bind fun τ₁ v v' hτ₁ hv => ?_
    exact (Turn.lift_act_follows (nest_follows depth hv)).bind fun _ _ _ hτ₂ hu =>
      named_follows ((binds_some hname).mono (hτ₁.trans hτ₂)) hu
  | ratio num den =>
    -- no list occurs in a ratio, so both sides write the very same value
    dsimp only [turn]
    split
    case h_1 v hv =>
      refine Turn.lift_act_follows (written_follows (.scalar ?_))
      unfold Value.ratio? at hv
      split at hv
      · cases hv
      · cases hv
        exact Value.asList?_ofRat _
    case h_2 => exact Turn.lift_act_follows fun _ _ hrun => nomatch hrun
  | describe t =>
    refine (Term.Kept.value_follows huses rfl).bind fun τ₁ v v' _ hv =>
      .get_bind (.pure fun h => ?_)
    rw [hv.kind, hv.isNumber, hv.asList?, (h trivial).display_eq hv, (h trivial).structureOf_eq hv]
  | compare s t =>
    obtain ⟨hs, ht⟩ := huses
    refine (hs.value_follows rfl).bind fun τ₁ v v' hτ₁ hv => ?_
    refine (ht.value_follows hτ₁.names).bind fun τ₂ u u' hτ₂ hu => ?_
    -- the first value is compared in the world that the second one was read in
    have hv₂ := hv.mono hτ₂
    refine (Turn.lift_act_follows (Value.same_follows hE hv₂ hu)).bind fun τ₃ b b' _ hb => ?_
    refine answered_follows ?_
    rw [hb, hv₂.compare? hu, hv₂.less hu, hv₂.atMost hu, hv₂.greater hu, hv₂.atLeast hu]
  | externalText t =>
    exact (Term.Kept.read_follows huses rfl).bind fun τ₁ x x' _ hx => .get_bind
      (.pure fun h => congrArg Answer.text ((h trivial).structureOfExternal_eq hx))
  | parseDecimal text =>
    refine (Turn.lift_follows (Attempt.Follows.ofOutcome (Q := fun _ r r' => r' = r) ?_)).bind
      fun _ _ _ _ hr => answered_follows (congrArg _ hr)
    cases decimalOfText text with
    | ok r => exact .ok rfl
    | error e => exact .error e
  | flatten t | flatText t | toJson t =>
    refine (Term.Kept.value_follows huses rfl).bind fun τ₁ v v' _ hv => ?_
    exact (Turn.lift_follows (Value.flatten_follows hE hv)).bind
      fun _ _ _ _ hf => answered_follows (by rw [hf])
  | flatEqual s t =>
    obtain ⟨hs, ht⟩ := huses
    refine (hs.value_follows rfl).bind fun τ₁ v v' hτ₁ hv => ?_
    refine (Turn.lift_follows (Value.flatten_follows hE hv)).bind fun τ₂ f f' hτ₂ hf => ?_
    refine (ht.value_follows (hτ₁.trans hτ₂).names).bind fun τ₃ u u' _ hu => ?_
    exact (Turn.lift_follows (Value.flatten_follows hE hu)).bind
      fun _ _ _ _ hg => answered_follows (by rw [hf, hg])
  | _ => cases hsubject

omit hE in
theorem turn_follows_of_settings {step : Step} (huses : step.Uses τ.pairing.toUsage)
    (hsubject : step.subject = .settings) :
    Attempt.Follows τ (turn E step) (turn E' step) Alike := by
  cases step with
  | limit =>
    refine .get_bind ?_
    rw [τ.twin.limit]
    generalize τ.first.limit = previous
    cases previous <;> exact answered_follows rfl
  | setLimit limit =>
    refine .get_bind ?_
    dsimp only
    rw [τ.twin.limit]
    refine (Turn.lift_act_follows (Act.Follows.modify (P := fun _ _ _ => True)
      (τ.twin.setLimit limit) (.settings huses) trivial)).bind fun _ _ _ _ _ => ?_
    generalize τ.first.limit = previous
    cases previous <;> exact answered_follows rfl
  | displayLength =>
    refine .get_bind (answered_follows ?_)
    rw [τ.twin.displayLength]
  | setDisplayLength length =>
    refine .get_bind ?_
    dsimp only
    rw [τ.twin.displayLength]
    exact (Turn.lift_act_follows (Act.Follows.modify (P := fun _ _ _ => True)
      (τ.twin.setDisplayLength length) (.settings huses) trivial)).bind
      fun _ _ _ _ _ => answered_follows rfl
  | _ => cases hsubject

theorem turn_follows_of_exchange {step : Step} (huses : step.Uses τ.pairing.toUsage)
    (hsubject : step.subject = .exchange) :
    Attempt.Follows τ (turn E step) (turn E' step) Alike := by
  cases step with
  | toValue offer target =>
    obtain ⟨hoffer, htarget⟩ := huses
    refine (hoffer.read_follows rfl).bind fun τ₁ x x' hτ₁ hx => ?_
    exact (Turn.lift_follows (canonicalize_follows hx)).bind
      fun _ _ _ hτ₂ hv => given_follows (htarget.mono (hτ₁.trans hτ₂)) hv
  | toList offers target =>
    obtain ⟨hoffers, htarget⟩ := huses
    refine (Offer.readAll_follows (fun o ho {τ} => (hoffers o ho).read_follows) rfl).bind
      fun τ₁ xs xs' hτ₁ hxs => ?_
    exact (Turn.lift_act_follows (Sequence.adopt_follows (Producer.Twin.fresh (.container hxs))
      false)).bind fun _ _ _ hτ₂ hs => given_follows (htarget.mono (hτ₁.trans hτ₂)) (.list hs)
  | fromValue type t =>
    refine (Term.Kept.value_follows huses rfl).bind fun τ₁ v v' _ hv => ?_
    exact (Turn.lift_follows (Value.read_follows hE hv type)).bind
      fun _ _ _ _ hx => answered_follows (by rw [hx])
  | fromList element t =>
    refine (Term.Kept.value_follows huses rfl).bind fun τ₁ v v' _ hv => ?_
    cases hv with
    | @list s s' hs =>
      exact (Turn.lift_follows (Value.read_follows hE (.list hs) (.vector element))).bind
        fun _ _ _ _ hx => answered_follows (by rw [hx])
    | scalar hscalar =>
      cases v with
      | int | rational | str => exact .throw _
      | list => cases hscalar
  | fromJson text target =>
    dsimp only [turn]
    split
    · exact .throw _
    · exact (Turn.lift_follows (Document.canonicalize_follows _)).bind
        fun _ _ _ hτ₁ hv => given_follows (Binds.mono huses hτ₁) hv
  | listFromJson text target =>
    dsimp only [turn]
    split
    · exact .throw _
    · exact (Turn.lift_follows (Document.toSequence_follows _)).bind
        fun _ _ _ hτ₁ hs => given_follows (Binds.mono huses hτ₁) (.list hs)
  | _ => cases hsubject

theorem turn_follows {step : Step} (huses : step.Uses τ.pairing.toUsage) (htold : step.Told) :
    Attempt.Follows τ (turn E step) (turn E' step) Alike := by
  cases hsubject : step.subject with
  | making => exact turn_follows_of_making hE huses hsubject
  | lists => exact turn_follows_of_lists hE huses hsubject
  | derived => exact turn_follows_of_derived hE huses hsubject
  | iterations => exact turn_follows_of_iterations hE huses htold hsubject
  | branches => exact turn_follows_of_branches hE huses htold hsubject
  | values => exact turn_follows_of_values hE huses hsubject
  | settings => exact turn_follows_of_settings huses hsubject
  | exchange => exact turn_follows_of_exchange hE huses hsubject

/-- The four kinds of steps whose answers may differ. -/
theorem turn_follows_untold {step : Step} (huses : step.Uses τ.pairing.toUsage)
    (htold : ¬ step.Told) :
    Attempt.Follows τ (turn E step) (turn E' step) fun _ _ _ => True := by
  cases step with
  | take name count =>
    exact withIteration_follows huses (fun _ _ => trivial) fun hi =>
      (takeItems_follows (R := fun π (i i' : Iteration) => i.Twin π i')
        (fun hi => Iteration.next_follows hE hi) count hi _ _).mono fun _ _ _ _ hi => ⟨trivial, hi⟩
  | collect list count =>
    refine (looked_follows huses).bind fun τ₁ s s' _ hs => .get_bind ?_
    exact (Turn.lift_act_follows (takeItems_follows (R := fun π (i i' : Iteration) => i.Twin π i')
      (fun hi => Iteration.next_follows hE hi) count (τ₁.twin.iteration hs) _ _)).bind
      fun _ _ _ _ _ => .pure trivial
  | takeOfBranch name count =>
    exact withBranch_follows huses (fun _ _ => trivial) fun hr =>
      (takeItems_follows (R := fun π (r r' : Reader) => r.Twin π r')
        (fun hr => (Reader.next_follows hE hr).mono fun _ _ _ _ hx => ⟨hx.1, hx.2.1⟩) count hr
        _ _).mono fun _ _ _ _ hr => ⟨trivial, hr⟩
  | branchEnded name =>
    exact (branch_follows huses).bind fun _ _ _ _ _ => .get_bind (.pure trivial)
  | _ => exact (htold trivial).elim

/-- In twin worlds a step is answered alike, whether it succeeds or fails. -/
theorem answer_follows {step : Step} (huses : step.Uses τ.pairing.toUsage) :
    Act.Follows τ (answer E step) (answer E' step) fun τ' a a' => step.Told → Alike τ' a a' := by
  by_cases htold : step.Told
  · refine Act.Follows.bind (turn_follows hE huses htold) fun τ' x x' _ hx => ?_
    cases hx with
    | ok ha => exact .pure fun _ => ha
    | error a => exact .pure fun _ _ => rfl
  · refine Act.Follows.bind (turn_follows_untold hE huses htold) fun τ' x x' _ hx => ?_
    cases hx with
    | ok | error => exact .pure fun h => (htold h).elim

/-- What is to be seen in a report of the list under a name. -/
def Report.shown (r : Report) (name : String) : Option SequenceReport :=
  r.sequences.find? (·.name == name)

omit hE in
theorem report_shown (w : World host) (a : Answer) (name : String) :
    (report w a).shown name = (w.host.sequences.find? name).map fun s =>
      ⟨name, (w.sequence s).cache.size, (w.sequence s).isExhausted, (w.sequence s).infinite⟩ := by
  unfold Report.shown report Names.find?
  rw [List.find?_map, Option.map_map]
  cases hfound : w.host.sequences.bindings.find? (·.1 == name) with
  | none => simpa [Function.comp_def] using hfound
  | some b =>
    have hname : b.1 = name := by simpa using List.find?_some hfound
    have hfound' : w.host.sequences.bindings.find?
        ((fun r : SequenceReport => r.name == name) ∘ fun b => ⟨b.1, (w.sequence b.2).cache.size,
          (w.sequence b.2).isExhausted, (w.sequence b.2).infinite⟩) = some b := hfound
    rw [hfound']
    simp [hname]

/-- The reports are alike, as far as they tell of the names in use. -/
structure Report.Alike (names : String → Prop) (r r' : Report) : Prop where
  answer : r'.answer = r.answer
  shown : ∀ name, names name → r'.shown name = r.shown name

/-- In twin worlds a step is reported alike. -/
theorem step_follows {s : Step} (huses : s.Uses τ.pairing.toUsage) :
    Act.Follows τ (step E s) (step E' s) fun τ' r r' =>
      s.Told → (r.answer.Shows → τ'.Whole) → r.Alike τ.pairing.names r' := by
  refine (changeDesk_follows (.of_sameNames τ.twin.desk ⟨rfl, rfl, rfl⟩ ⟨rfl, rfl, rfl⟩)).bind
    fun τ₁ _ _ hτ₁ _ => ?_
  refine (answer_follows hE (hτ₁.usage ▸ huses)).bind fun τ₂ a a' hτ₂ ha => .get_bind ?_
  refine .pure fun htold hwhole => ⟨ha htold hwhole, fun name hname => ?_⟩
  rw [report_shown, report_shown]
  have hfound := τ₂.twin.desk.sequences name ((hτ₁.trans hτ₂).names ▸ hname)
  generalize τ₂.first.host.sequences.find? name = x at hfound
  generalize τ₂.second.host.sequences.find? name = x' at hfound
  cases hfound with
  | none => rfl
  | some hs =>
    have hcell := τ₂.twin.cell_of_lists hs
    rw [Option.map_some, Option.map_some, hcell.size, hcell.isExhausted, hcell.infinite]

end Steps

end Session

end MemoSeq
