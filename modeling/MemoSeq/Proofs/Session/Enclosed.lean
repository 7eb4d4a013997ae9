/-
  MemoSeq/Proofs/Session/Enclosed.lean
  =====================================
  **Enclosures of sessions without hooks.**

  Lists may be held and named anywhere in a session.  Only a comparison of two lists looks at
  what it is given, so lists that are held have to belong to a part of the world if one of its
  conditions compares with a list.  Scripts and conditions without hooks then look at nothing
  else (`behavior_overlooks`).
-/
import MemoSeq.Proofs.Enclosures.Production
import MemoSeq.Proofs.Forcing
import MemoSeq.Session.Run

namespace MemoSeq

namespace Session

variable {names : String → Prop}

/-- No script in the term has a hook, and lists are named by these names only. -/
inductive Term.Confined (names : String → Prop) : Term → Prop
  | int (n : Int) : Confined names (.int n)
  | rational (r : Rat) : Confined names (.rational r)
  | float (x : Double) : Confined names (.float x)
  | str (text : String) : Confined names (.str text)
  | symbolic (s : Symbolic) : Confined names (.symbolic s)
  | items {terms : List Term} : (∀ t ∈ terms, Confined names t) → Confined names (.items terms)
  | named {name : String} : names name → Confined names (.named name)
  | canonical {t : Term} : Confined names t → Confined names (.canonical t)
  | iterator {supply : Supply Entry} {counter : Option String} :
      (∀ calls t, supply.entry? calls = some (.term t) → Confined names t) →
      (∀ calls steps entry, supply.entry? calls ≠ some (.hook steps entry)) →
      Confined names (.iterator supply counter)

structure Supply.Confined (names : String → Prop) (supply : Supply Entry) : Prop where
  term : ∀ calls t, supply.entry? calls = some (.term t) → t.Confined names
  hook : ∀ calls steps entry, supply.entry? calls ≠ some (.hook steps entry)

/-- A number, a text, or one of the lists that may be held, if these belong to the enclosure. -/
def Comparable (lists held : Sequence → Prop) (v : Value) : Prop :=
  v.asList? = none ∨ (∀ q, held q → lists q) ∧ ∀ q, v.asList? = some q → held q

/-- The condition takes no steps, and compares with such values only. -/
def Condition.Confined (lists held : Sequence → Prop) : Condition Value Step → Prop
  | .equalTo v | .unequalTo v | .failsOn v _ => Comparable lists held v
  | .after _ => False
  | _ => True

/-- The part of a session that these tapes and lists make up, where such lists may be held, and
    scripts use these names. -/
def enclosure (tapes : Tape → Prop) (lists held : Sequence → Prop) (names : String → Prop) :
    Enclosure host where
  tape := tapes
  list := lists
  admits v := ∀ q, v.asList? = some q → held q
  source script := script.supply.Confined names
  test := Condition.Confined lists held
  host d := ∀ name q, names name → d.sequences.find? name = some q → held q
  scalar hv q hq := by
    rw [hv] at hq
    cases hq

variable {tapes : Tape → Prop} {lists held : Sequence → Prop} {s : Sequence} {w : World host}
variable {E : Engine host} {α : Type} {N : Enclosure host} {Q : α → Prop}

/-! ### Reading terms -/

theorem changeDesk_enclosed (hw : N.Holds w) {f : Desk → Desk} (hf : N.host (f w.host)) :
    N.Keeps s w (changeDesk f) fun _ => True :=
  .modify (hw.withHost hf) trivial fun _ => rfl

theorem Turn.lift_enclosed {a : Attempt host α} (ha : N.Tries s w a Q) :
    N.Tries s w (liftM a : Turn α) Q := by
  change N.Tries s w (MonadLift.monadLift a : Turn α) Q
  simp only [MonadLift.monadLift]
  refine Enclosure.Keeps.bind ha fun r w' hw' hr => ?_
  cases r with
  | ok x => exact Enclosure.Tries.pure hw' (hr x rfl)
  | error e => exact Enclosure.Tries.throw hw'

theorem sequence_enclosed (hw : (enclosure tapes lists held names).Holds w) {name : String}
    (hname : names name) : (enclosure tapes lists held names).Tries s w (sequence name) held := by
  refine .get_bind (fun c => rfl) ?_
  split
  case h_2 => exact .throw hw
  case h_1 q hq => exact .pure hw (hw.host name q hname hq)

theorem newScript_enclosed (hw : (enclosure tapes lists held names).Holds w) (supply : Supply Entry)
    (counter : Option String) :
    (enclosure tapes lists held names).Keeps s w (newScript supply counter)
      fun script => script.supply = supply := by
  have hcount : (enclosure tapes lists held names).host (w.host.newCount counter).2 := by
    cases counter with
    | none => exact hw.host
    | some name => exact hw.host
  intro script w' hrun
  cases hrun
  exact ⟨hw.withHost hcount, rfl, fun c => rfl⟩

mutual

theorem Term.read_enclosed (hs : ¬ lists s) {w : World host}
    (hw : (enclosure tapes lists held names).Holds w) :
    ∀ t : Term, t.Confined names → (enclosure tapes lists held names).Tries s w t.read
      (enclosure tapes lists held names).External
  | .int n, _ => .pure hw (.int n)
  | .rational r, _ => .pure hw (.rational r)
  | .float x, _ => .pure hw (.float x)
  | .str text, _ => .pure hw (.str text)
  | .symbolic s, _ => .pure hw (.symbolic s)
  | .items terms, .items hterms =>
      (Term.readAll_enclosed hs hw terms hterms).bind fun _ _ hw' hitems =>
        .pure hw' (.items hitems)
  | .named _, .named hname => (sequence_enclosed hw hname).bind fun _ _ hw' hq =>
      .pure hw' (.value fun _ hlist => Option.some.inj hlist ▸ hq)
  | .canonical t, .canonical ht => (Term.read_enclosed hs hw t ht).bind fun _ _ hw' hx =>
      (Turn.lift_enclosed (canonicalize_enclosed hs hw' hx)).bind fun _ _ hw'' hv =>
        .pure hw'' (.value hv)
  | .iterator supply counter, .iterator hterms hhook =>
      (Turn.lift_enclosed (.lift (newScript_enclosed hw supply counter))).bind
        fun _ _ hw' hscript => .pure hw'
          (.iterator (show Supply.Confined _ _ from hscript ▸ ⟨hterms, hhook⟩))

theorem Term.readAll_enclosed (hs : ¬ lists s) {w : World host}
    (hw : (enclosure tapes lists held names).Holds w) :
    ∀ terms : List Term, (∀ t ∈ terms, t.Confined names) →
      (enclosure tapes lists held names).Tries s w (Term.readAll terms) fun items =>
        ∀ x ∈ items, (enclosure tapes lists held names).External x
  | [], _ => .pure hw nofun
  | t :: terms, hterms =>
      (Term.read_enclosed hs hw t (hterms t List.mem_cons_self)).bind fun _ _ hw' hx =>
        (Term.readAll_enclosed hs hw' terms fun u hu =>
          hterms u (List.mem_cons_of_mem _ hu)).bind fun _ _ hw'' hitems =>
            .pure hw'' (List.forall_mem_cons.mpr ⟨hx, hitems⟩)

end

/-! ### Scripts and conditions -/

section

variable (hs : ¬ lists s)
include hs

theorem Entry.give_enclosed (hw : (enclosure tapes lists held names).Holds w) {entry : Entry}
    (hterm : ∀ t, entry = .term t → t.Confined names)
    (hhook : ∀ steps next, entry ≠ .hook steps next) :
    (enclosure tapes lists held names).Keeps s w (entry.give E) fun x =>
      ∀ y, x = some (.ok y) → (enclosure tapes lists held names).External y := by
  cases entry with
  | hook steps next => exact (hhook steps next rfl).elim
  | pause | failure => exact .pure hw nofun
  | term t =>
    refine Enclosure.Keeps.bind (Term.read_enclosed hs hw t (hterm t rfl)) fun r w' hw' hr => ?_
    split
    case h_1 x =>
      refine .pure hw' ?_
      rintro y ⟨⟩
      exact hr x rfl
    case h_2 | h_3 => exact .pure hw' nofun

theorem Script.pull_enclosed (hw : (enclosure tapes lists held names).Holds w) {script : Script}
    (hscript : script.supply.Confined names) :
    (enclosure tapes lists held names).Keeps s w (script.pull E) fun x =>
      (∀ y, x.1 = some (.ok y) → (enclosure tapes lists held names).External y) ∧
        x.2.supply.Confined names := by
  have hcounted : (enclosure tapes lists held names).host (w.host.countCall script.counter) := by
    cases script.counter with
    | none => exact hw.host
    | some i => exact hw.host
  refine (changeDesk_enclosed hw hcounted).bind fun _ w' hw' _ => ?_
  dsimp only
  split
  case h_1 entry hentry =>
    have hgive := Entry.give_enclosed (E := E) hs hw'
      (fun t ht => hscript.term script.calls t (ht ▸ hentry))
      fun steps next hnext => hscript.hook script.calls steps next (hnext ▸ hentry)
    exact hgive.bind fun _ _ hw'' hx => .pure hw'' ⟨hx, hscript⟩
  case h_2 =>
    have hnone : (enclosure tapes lists held names).Keeps s w'
        (pure none : Act host (Option (Outcome (External Script)))) fun x => x = none :=
      .pure hw' rfl
    exact hnone.bind fun x _ hw'' hx => .pure hw'' ⟨by simp [hx], hscript⟩

theorem Condition.test_enclosed (hE : (enclosure tapes lists held names).Drives s E)
    (hw : (enclosure tapes lists held names).Holds w) {c : Condition Value Step}
    (hc : (enclosure tapes lists held names).test c) {v : Value}
    (hv : (enclosure tapes lists held names).admits v) :
    (enclosure tapes lists held names).Tries s w (c.test E v) fun _ => True := by
  have hsame {operand : Value} (hoperand : Comparable lists held operand) :
      (enclosure tapes lists held names).Tries s w (liftM (v.same E operand) : Attempt host Bool)
        fun _ => True := by
    rcases hoperand with hscalar | ⟨hheld, hoperand⟩
    · rw [Value.same_eq (.inr hscalar)]
      exact .lift (.pure hw trivial)
    · exact .lift (Value.same_enclosed hs hE (fun q hq => hheld q (hq q rfl)) hw hv hoperand)
  cases c with
  | after steps => exact hc.elim
  | equalTo operand => exact hsame hc
  | unequalTo operand => exact (hsame hc).bind fun _ _ hw' _ => .pure hw' trivial
  | failsOn operand message =>
    refine (hsame hc).bind fun b _ hw' _ => ?_
    cases b with
    | false => exact .pure hw' trivial
    | true => exact .throw hw'
  | even => cases v <;> exact .pure hw trivial
  | all | none | below | atMost | above | atLeast | number | kind => exact .pure hw trivial

/-- Scripts and conditions without hooks overlook the lists that they do not lead to. -/
theorem behavior_overlooks : behavior.Overlooks (enclosure tapes lists held names) s where
  pull _ hw hscript := Script.pull_enclosed hs hw hscript
  test hE hw hc hv := Condition.test_enclosed hs hE hw hc hv

end

end Session

end MemoSeq
