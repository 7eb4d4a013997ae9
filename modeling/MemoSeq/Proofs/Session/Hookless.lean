/-
  MemoSeq/Proofs/Session/Hookless.lean
  =====================================
  **Without hooks, production makes new lists only so deep.**

  A script gives terms, and a term without hooks is written down: what it nests in new lists
  has some depth (`Term.Hookless.exists_within`), and what it names is there already.  So
  scripts keep to a grading, and conditions that take no steps do as well
  (`behavior_redeems`).  The grading needs nothing of the lists that have names, which may lie
  within each other in any way.
-/
import MemoSeq.Proofs.Flattening.Graded
import MemoSeq.Proofs.Session.Custody

namespace MemoSeq

namespace Session

variable {K : Pledge host} {G : Grading} {w : World host} {h h' : Nat} {α : Type}

/-! ### Terms without hooks -/

inductive Term.Hookless : Term → Prop
  | int (n : Int) : Hookless (.int n)
  | rational (r : Rat) : Hookless (.rational r)
  | float (x : Double) : Hookless (.float x)
  | str (text : String) : Hookless (.str text)
  | symbolic (s : Symbolic) : Hookless (.symbolic s)
  | items {terms : List Term} : (∀ t ∈ terms, Hookless t) → Hookless (.items terms)
  | named (name : String) : Hookless (.named name)
  | canonical {t : Term} : Hookless t → Hookless (.canonical t)
  | iterator {supply : Supply Entry} {counter : Option String} :
      (∀ calls t, supply.entry? calls = some (.term t) → Hookless t) →
      (∀ calls steps entry, supply.entry? calls ≠ some (.hook steps entry)) →
      Hookless (.iterator supply counter)

structure Supply.Hookless (supply : Supply Entry) : Prop where
  term : ∀ calls t, supply.entry? calls = some (.term t) → t.Hookless
  hook : ∀ calls steps entry, supply.entry? calls ≠ some (.hook steps entry)

/-- No script in the term has a hook, and its new lists are nested at most so deep.  A named
    list is not a new one. -/
inductive Term.Within : Nat → Term → Prop
  | int {h : Nat} (n : Int) : Within h (.int n)
  | rational {h : Nat} (r : Rat) : Within h (.rational r)
  | float {h : Nat} (x : Double) : Within h (.float x)
  | str {h : Nat} (text : String) : Within h (.str text)
  | symbolic {h : Nat} (s : Symbolic) : Within h (.symbolic s)
  | items {h h' : Nat} {terms : List Term} : h' < h → (∀ t ∈ terms, Within h' t) →
      Within h (.items terms)
  | named {h : Nat} (name : String) : Within h (.named name)
  | canonical {h : Nat} {t : Term} : Within h t → Within h (.canonical t)
  | iterator {h h' : Nat} {supply : Supply Entry} {counter : Option String} : h' < h →
      (∀ calls t, supply.entry? calls = some (.term t) → Within h' t) →
      (∀ calls steps entry, supply.entry? calls ≠ some (.hook steps entry)) →
      Within h (.iterator supply counter)

/-- A supply without hooks, whose terms nest new lists at most so deep. -/
structure Supply.Within (h : Nat) (supply : Supply Entry) : Prop where
  term : ∀ calls t, supply.entry? calls = some (.term t) → t.Within h
  hook : ∀ calls steps entry, supply.entry? calls ≠ some (.hook steps entry)

theorem Term.Within.mono {t : Term} (ht : t.Within h) (hle : h ≤ h') : t.Within h' := by
  induction ht generalizing h' with
  | int | rational | float | str | symbolic | named => constructor
  | items hlt hterms => exact .items (hlt.trans_le hle) hterms
  | canonical _ ih => exact .canonical (ih hle)
  | iterator hlt hterms hhook => exact .iterator (hlt.trans_le hle) hterms hhook

theorem Supply.Within.mono {supply : Supply Entry} (hsupply : supply.Within h) (hle : h ≤ h') :
    supply.Within h' :=
  ⟨fun calls t ht => (hsupply.term calls t ht).mono hle, hsupply.hook⟩

/-- If finitely many things have a depth each, there is one that is enough for all of them. -/
theorem exists_depth_of_forall {P : Nat → α → Prop} {xs : List α} (hxs : ∀ x ∈ xs, ∃ h, P h x)
    (hmono : ∀ {h h' : Nat} {x : α}, P h x → h ≤ h' → P h' x) : ∃ h, ∀ x ∈ xs, P h x := by
  induction xs with
  | nil => exact ⟨0, nofun⟩
  | cons x xs ih =>
    obtain ⟨h, hx⟩ := hxs x List.mem_cons_self
    obtain ⟨h', hrest⟩ := ih fun y hy => hxs y (List.mem_cons_of_mem _ hy)
    refine ⟨max h h', List.forall_mem_cons.mpr ⟨hmono hx (Nat.le_max_left _ _), fun y hy => ?_⟩⟩
    exact hmono (hrest y hy) (Nat.le_max_right _ _)

def Entry.term? : Entry → Option Term
  | .term t => some t
  | _ => none

/-- A supply repeats the entries that are written down, or counts. -/
theorem Supply.exists_within_of_forall {supply : Supply Entry}
    (hterms : ∀ calls t, supply.entry? calls = some (.term t) → ∃ h, t.Within h) :
    ∃ h, ∀ calls t, supply.entry? calls = some (.term t) → t.Within h := by
  have hwritten : ∀ entries : List Entry,
      (∀ t, Entry.term t ∈ entries → ∃ h, t.Within h) →
      ∃ h, ∀ t, Entry.term t ∈ entries → t.Within h := by
    intro entries hentries
    have hmem : ∀ {t}, t ∈ entries.filterMap Entry.term? ↔ Entry.term t ∈ entries := by
      intro t
      rw [List.mem_filterMap]
      constructor
      · rintro ⟨entry, hentry, hsome⟩
        cases entry with
        | term u =>
          cases hsome
          exact hentry
        | hook | pause | failure => cases hsome
      · exact fun ht => ⟨.term t, ht, rfl⟩
    obtain ⟨h, hall⟩ :=
      exists_depth_of_forall (fun t ht => hentries t (hmem.mp ht)) Term.Within.mono
    exact ⟨h, fun t ht => hall t (hmem.mpr ht)⟩
  cases supply with
  | once entries =>
    obtain ⟨h, hall⟩ := hwritten entries fun t ht => by
      obtain ⟨i, hi⟩ := List.mem_iff_getElem?.mp ht
      exact hterms i t hi
    exact ⟨h, fun calls t ht => hall t (List.mem_of_getElem? ht)⟩
  | cycle entries =>
    obtain ⟨h, hall⟩ := hwritten entries fun t ht => by
      obtain ⟨i, hi⟩ := List.mem_iff_getElem?.mp ht
      have hlt := (List.getElem?_eq_some_iff.mp hi).1
      exact hterms i t (by rwa [Supply.entry?, Nat.mod_eq_of_lt hlt])
    exact ⟨h, fun calls t ht => hall t (List.mem_of_getElem? ht)⟩
  | count start step den length =>
    refine ⟨0, fun calls t ht => ?_⟩
    rw [Supply.entry?] at ht
    split at ht
    · cases ht
    · cases ht
      cases den with
      | none => exact .int _
      | some d => exact .rational _

/-- A term without hooks is nested only so deep. -/
theorem Term.Hookless.exists_within {t : Term} (ht : t.Hookless) : ∃ h, t.Within h := by
  induction ht with
  | int | rational | float | str | symbolic | named => exact ⟨0, by constructor⟩
  | items _ ih =>
    obtain ⟨h, hall⟩ := exists_depth_of_forall ih Term.Within.mono
    exact ⟨h + 1, .items (Nat.lt_succ_self h) hall⟩
  | canonical _ ih =>
    obtain ⟨h, ht⟩ := ih
    exact ⟨h, .canonical ht⟩
  | iterator _ hhook ih =>
    obtain ⟨h, hall⟩ := Supply.exists_within_of_forall ih
    exact ⟨h + 1, .iterator (Nat.lt_succ_self h) hall hhook⟩

theorem Supply.Hookless.exists_within {supply : Supply Entry} (hsupply : supply.Hookless) :
    ∃ h, supply.Within h := by
  obtain ⟨h, hall⟩ :=
    Supply.exists_within_of_forall fun calls t ht => (hsupply.term calls t ht).exists_within
  exact ⟨h, hall, hsupply.hook⟩

/-! ### What sessions without hooks pledge -/

/-- What has a name is there, and a list with a name has been there for some time. -/
structure Desk.Stands (since : Nat) (w : World host) (d : Desk) : Prop where
  sequences : d.sequences.All fun s => s.id < since
  iterations : d.iterations.All fun i => i.Stands w
  branches : d.branches.All fun r => r.tape.id < w.tapes.size

/-- Scripts and conditions take no steps, and what has a name is not spoken of. -/
def hookless : Pledge host where
  source _ _ h script := script.supply.Within h
  test c := ∀ steps, c ≠ .after steps
  host G w d := d.Stands G.since w
  source_mono _ hs := hs
  host_mono hextends hd :=
    ⟨hextends.since ▸ hd.sequences,
      hd.iterations.mono fun _ hi => hi.mono hextends.tapes hextends.sequences,
      hd.branches.mono fun _ hr => hr.trans_le hextends.tapes⟩

open Pledge (Keeps Tries)

section Reading

variable {Q : Grading → World host → α → Prop}

theorem Turn.lift_graded {a : Attempt host α} (ha : K.Tries G w a Q) :
    K.Tries G w (liftM a : Turn α) Q := by
  change K.Tries G w (MonadLift.monadLift a : Turn α) Q
  simp only [MonadLift.monadLift]
  refine Pledge.Keeps.bind ha ?_
  intro r G' w' hleads hr
  cases r with
  | ok x => exact Tries.pure hleads.holds (hr x rfl)
  | error e => exact Tries.throw hleads.holds

theorem sequence_graded (hw : hookless.Holds G w) (name : String) :
    hookless.Tries G w (sequence name) fun G' w' s => G'.Bounds w' h (.list s) := by
  have hnamed : w.host.sequences.All fun s => s.id < G.since := hw.host.sequences
  refine .get_bind ?_
  split
  case h_2 => exact .throw hw
  case h_1 s hs =>
    refine .pure hw ?_
    rintro t ⟨⟩
    exact .inl (hnamed.find? hs)

theorem newScript_graded (hw : hookless.Holds G w) (supply : Supply Entry)
    (counter : Option String) :
    hookless.Keeps G w (newScript supply counter) fun _ _ script => script.supply = supply := by
  have hcount : hookless.host G w (w.host.newCount counter).2 := by
    cases counter <;> exact { hw.host with }
  intro script w' hrun
  cases hrun
  exact ⟨G, hw.withHost hcount, rfl⟩

mutual

theorem Term.read_graded {G : Grading} {w : World host} {h : Nat} (hw : hookless.Holds G w) :
    ∀ t : Term, t.Within h →
      hookless.Tries G w t.read fun G' w' x => hookless.External G' w' h x
  | .int n, _ => .pure hw (.int n)
  | .rational r, _ => .pure hw (.rational r)
  | .float x, _ => .pure hw (.float x)
  | .str text, _ => .pure hw (.str text)
  | .symbolic s, _ => .pure hw (.symbolic s)
  | .items terms, .items hlt hterms =>
      (Term.readAll_graded hw terms hterms).bind fun _ _ _ hleads hitems =>
        .pure hleads.holds (.items hlt hitems)
  | .named name, _ => (sequence_graded hw name).bind fun _ _ _ hleads hs =>
      .pure hleads.holds (.value hs)
  | .canonical t, .canonical ht => (Term.read_graded hw t ht).bind fun _ _ _ hleads hx =>
      (Turn.lift_graded (canonicalize_graded hleads.holds hx)).bind fun _ _ _ hleads' hv =>
        .pure hleads'.holds (.value hv)
  | .iterator supply counter, .iterator hlt hterms hhook =>
      (Turn.lift_graded (.lift (newScript_graded hw supply counter))).bind
        fun _ _ _ hleads hscript => .pure hleads.holds
          (.iterator hlt (show Supply.Within _ _ from hscript ▸ ⟨hterms, hhook⟩))

theorem Term.readAll_graded {G : Grading} {w : World host} {h : Nat}
    (hw : hookless.Holds G w) : ∀ terms : List Term, (∀ t ∈ terms, t.Within h) →
      hookless.Tries G w (Term.readAll terms) fun G' w' items =>
        ∀ x ∈ items, hookless.External G' w' h x
  | [], _ => .pure hw nofun
  | t :: terms, hterms =>
      (Term.read_graded hw t (hterms t List.mem_cons_self)).bind fun _ _ _ hleads hx =>
        (Term.readAll_graded hleads.holds terms fun u hu =>
          hterms u (List.mem_cons_of_mem _ hu)).bind fun _ _ _ hleads' hitems =>
            .pure hleads'.holds
              (List.forall_mem_cons.mpr ⟨hx.mono hleads'.toExtends, hitems⟩)

end

end Reading

theorem Entry.give_graded {E : Engine host} {entry : Entry} (hw : hookless.Holds G w)
    (hterm : ∀ t, entry = .term t → t.Within h) (hhook : ∀ steps next, entry ≠ .hook steps next) :
    hookless.Keeps G w (entry.give E) fun G' w' x =>
      ∀ y, x = some (.ok y) → hookless.External G' w' h y := by
  cases entry with
  | hook steps next => exact (hhook steps next rfl).elim
  | pause | failure => exact .pure hw nofun
  | term t =>
    refine Keeps.bind (Term.read_graded hw t (hterm t rfl)) ?_
    intro r G' w' hleads hr
    split
    case h_1 x =>
      refine .pure hleads.holds ?_
      rintro y ⟨⟩
      exact hr x rfl
    case h_2 | h_3 => exact .pure hleads.holds nofun

theorem Script.pull_graded {E : Engine host} {script : Script} (hw : hookless.Holds G w)
    (hscript : script.supply.Within h) :
    hookless.Keeps G w (script.pull E) fun G' w' x =>
      (∀ y, x.1 = some (.ok y) → hookless.External G' w' h y) ∧ x.2.supply.Within h := by
  have hcounted : hookless.Keeps G w (changeDesk (·.countCall script.counter)) fun _ _ _ =>
      True := by
    intro _ w' hrun
    cases hrun
    exact ⟨G, hw.withHost (by cases script.counter <;> exact { hw.host with }), trivial⟩
  refine hcounted.bind fun _ _ _ hleads _ => ?_
  dsimp only
  split
  case h_1 entry hentry =>
    have hgive := Entry.give_graded (E := E) hleads.holds
      (fun t ht => hscript.term script.calls t (ht ▸ hentry))
      fun steps next hnext => hscript.hook script.calls steps next (hnext ▸ hentry)
    exact hgive.bind fun _ _ _ hleads' hx => .pure hleads'.holds ⟨hx, hscript⟩
  case h_2 =>
    have hnone : ∀ {G' w'}, hookless.Holds G' w' →
        hookless.Keeps G' w' (pure none : Act host (Option (Outcome (External Script))))
          fun _ _ x => x = none := fun hw' => .pure hw' rfl
    exact (hnone hleads.holds).bind fun x _ _ hleads' hx =>
      .pure hleads'.holds ⟨by simp [hx], hscript⟩

theorem Condition.test_graded {E : Engine host} (hE : hookless.Drives E)
    {c : Condition Value Step} {v : Value} (hw : hookless.Holds G w)
    (hc : ∀ steps, c ≠ .after steps) :
    hookless.Tries G w (c.test E v) fun _ _ _ => True := by
  have hsame : ∀ operand, hookless.Tries G w (liftM (v.same E operand) : Attempt host Bool)
      fun _ _ _ => True :=
    fun operand => .lift (v.same_graded hE hw operand)
  cases c with
  | after steps => exact (hc steps rfl).elim
  | equalTo operand => exact hsame operand
  | unequalTo operand => exact (hsame operand).bind fun _ _ _ hleads _ => .pure hleads.holds trivial
  | failsOn operand message =>
    refine (hsame operand).bind fun b _ _ hleads _ => ?_
    cases b with
    | false => exact .pure hleads.holds trivial
    | true => exact .throw hleads.holds
  | even => cases v <;> exact .pure hw trivial
  | all | none | below | atMost | above | atLeast | number | kind => exact .pure hw trivial

/-- Scripts and conditions without hooks do as they are pledged to. -/
theorem behavior_redeems : behavior.Redeems hookless where
  pull _ hw hscript := Script.pull_graded hw hscript
  test hE hw hc := Condition.test_graded hE hw hc

end Session

end MemoSeq
