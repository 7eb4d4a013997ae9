/-
  MemoSeq/Proofs/Session/Overlooked.lean
  =======================================
  **When a list is overlooked by what it is produced from.**

  A list is produced from what was there before it (`World.Closed`).  Production may come
  upon the list again all the same, for it may be held in one of the earlier lists; but a
  script without hooks hands lists on unseen, and so does a condition that compares with
  numbers and texts only.  Where all producers are of that kind, no list is looked at by what
  it is produced from (`overlooked_of_made`).  In a session without hooks that asks no more
  than that no filter compares with a list (`overlooked_of_hookless`).
-/
import MemoSeq.Proofs.Enclosures.Earlier
import MemoSeq.Proofs.Enclosures.Outside
import MemoSeq.Proofs.Session.Enclosed
import MemoSeq.Proofs.Session.Lawful
import MemoSeq.Proofs.Session.Unhooked.Basic

namespace MemoSeq.Session

variable {tapes lists bound : Nat} {s : Sequence} {w w₀ w₁ : World host}

/-! ### Producers that look at no list -/

/-- All that the scripts in it give, they give without taking steps. -/
abbrev Unhooked : External Script → Prop :=
  (enclosure (fun _ => True) (fun _ => True) (fun _ => True) fun _ => True).External

/-- The condition takes no steps, and compares with numbers and texts only. -/
def Condition.Scalar : Condition Value Step → Prop
  | .equalTo v | .unequalTo v | .failsOn v _ => v.asList? = Option.none
  | .after _ => False
  | _ => True

/-- No script has a hook, and a condition compares with numbers and texts only. -/
def Unseeing : Producer host → Prop
  | .source script => script.supply.Confined fun _ => True
  | .container items => ∀ x ∈ items, Unhooked x
  | .filtered test _ => test.Scalar
  | _ => True

/-! ### What is earlier -/

/-- The first tapes and sequences, and all that are made from now on.  Any list may be held. -/
def earlier (tapes lists : Nat) (w : World host) : Enclosure host :=
  enclosure (fun t => t.id < tapes ∨ w.tapes.size ≤ t.id)
    (fun q => q.id < lists ∨ w.sequences.size ≤ q.id) (fun _ => True) fun _ => True

theorem Condition.Scalar.confined {c : Condition Value Step} (hc : c.Scalar)
    (lists held : Sequence → Prop) : c.Confined lists held := by
  cases c with
  | equalTo | unequalTo | failsOn => exact .inl hc
  | after => exact hc
  | all | none | below | atMost | above | atLeast | number | even | kind => trivial

theorem Unhooked.earlier {x : External Script} (hx : Unhooked x) :
    (earlier tapes lists w).External x :=
  hx.mono (fun _ => id) fun _ => id

theorem earlier_admits (v : Value) : (earlier tapes lists w).admits v := fun _ _ => trivial

theorem earlier_iteration {i : Iteration} (hi : i.Earlier tapes) :
    (earlier tapes lists w).Iteration i :=
  ⟨fun v _ => earlier_admits v, fun r hr => .inl (hi r hr)⟩

theorem earlier_deferred {state : Deferred Sequence Iteration}
    (hstate : state.Earlier tapes lists) : (earlier tapes lists w).Deferred state := by
  cases state with
  | pending q => exact .inl hstate
  | opened i => exact earlier_iteration hstate
  | finished => trivial

theorem Unseeing.earlier {p : Producer host} (hp : Unseeing p)
    (hearlier : p.Earlier tapes lists) : (earlier tapes lists w).Producer p := by
  cases p with
  | source script => exact hp
  | container items => exact fun x hx => (hp x hx).earlier
  | values values => exact fun v _ => earlier_admits v
  | documents => trivial
  | reader r => exact .inl hearlier
  | filtered test state => exact ⟨hp.confined _ _, earlier_deferred hearlier⟩
  | joined left right =>
    exact ⟨fun i hi => earlier_iteration (hearlier.1 i hi), earlier_deferred hearlier.2⟩
  | strided start step state =>
    cases state with
    | pending q => exact .inl hearlier
    | opened rest => exact fun v _ => earlier_admits v
    | finished => trivial

theorem earlier_holds (hw : w.Closed tapes lists)
    (hproducers : ∀ (t : Tape) p, (w.tape t).phase = .idle p → Unseeing p) :
    (earlier tapes lists w).Holds w where
  tapes _ ht := .inr ht
  lists q hq := ⟨.inr hq, earlier_admits _⟩
  logged _ _ _ v _ := earlier_admits v
  idle t ht p hp := by
    have hlt := ht.resolve_right (Nat.not_le.mpr (World.lt_of_phase_idle hp))
    exact (hproducers t p hp).earlier (hw.idle t p hlt hp)
  cached _ _ _ v _ := earlier_admits v
  reading q hq r hr := by
    have hlt := hq.resolve_right (Nat.not_le.mpr (World.lt_of_reader_eq_some r hr))
    exact .inl (hw.reading q r hlt hr)
  host _ _ _ _ := trivial

/-! ### Lists that are overlooked -/

theorem start_closed : start.Closed start.tapes.size start.sequences.size where
  tapes_le := Nat.le_refl _
  lists_le := Nat.le_refl _
  idle _ _ hlt := (Nat.not_lt_zero _ hlt).elim
  reading _ _ hlt := (Nat.not_lt_zero _ hlt).elim

/-- A list is made of what is there, anything is done, and now the producers look at no list.
    Then what the list is still to be produced from does not look at the list. -/
theorem overlooked_of_made {depth : Nat} {p : Producer host} {infinite : Bool}
    (hw₀ : w₀.Closed w₀.tapes.size w₀.sequences.size)
    (hp : p.Earlier w₀.tapes.size w₀.sequences.size)
    (hmade : (Sequence.adopt p infinite).run w₀ = .ok (s, w₁))
    (hlater : (Engine.ofBehavior behavior depth).Moves w₁ w)
    (hproducers : ∀ (t : Tape) p, (w.tape t).phase = .idle p → Unseeing p) :
    s.Overlooked behavior w := by
  cases hmade
  -- what is there before the list is closed, and so is that with the list
  have hclosed {lists : Nat} (hle : w₀.sequences.size ≤ lists)
      (hle' : lists ≤ w₀.sequences.size + 1) : w.Closed (w₀.tapes.size + 1) lists :=
    Engine.moves_closed behavior_lawful hlater (hw₀.withSequence hp infinite hle hle')
  have hbefore := hclosed (Nat.le_refl _) (Nat.le_succ _)
  have hwith := hclosed (Nat.le_succ _) (Nat.le_refl _)
  have houtside : ¬ (earlier (w₀.tapes.size + 1) w₀.sequences.size w).list w₀.freshSequence := by
    rintro (hlt | hge)
    · exact Nat.lt_irrefl _ hlt
    · exact Nat.not_succ_le_self _ (hwith.lists_le.trans hge)
  refine ⟨earlier (w₀.tapes.size + 1) w₀.sequences.size w, behavior_overlooks houtside, {
    holds := earlier_holds hbefore hproducers
    outside := houtside
    reading := fun r hr => .inl ?_ }⟩
  exact hwith.reading w₀.freshSequence r (Nat.lt_succ_self _) hr

/-! ### Sessions without hooks -/

theorem Term.Within.confined {h : Nat} {t : Term} (ht : t.Within h) :
    t.Confined fun _ => True := by
  induction ht with
  | int | rational | float | str | symbolic => constructor
  | items _ _ ih => exact .items ih
  | named name => exact .named trivial
  | canonical _ ih => exact .canonical ih
  | iterator _ _ hhook ih => exact .iterator ih hhook

theorem Supply.Within.confined {h : Nat} {supply : Supply Entry} (hsupply : supply.Within h) :
    supply.Confined fun _ => True :=
  ⟨fun calls t ht => (hsupply.term calls t ht).confined, hsupply.hook⟩

theorem Unhooked.of_hookless {G : Grading} {h : Nat} {x : External Script}
    (hx : hookless.External G w h x) : Unhooked x :=
  .of_graded hx (fun _ _ _ => trivial) fun _ _ => Supply.Within.confined

theorem Unseeing.of_hookless {G : Grading} {h : Nat} {p : Producer host}
    (hp : hookless.Producer G w h p)
    (hscalar : ∀ test state, p = .filtered test state → test.Scalar) : Unseeing p := by
  cases p with
  | source script => exact Supply.Within.confined hp
  | container items => exact fun x hx => .of_hookless (hp x hx)
  | filtered test state => exact hscalar test state rfl
  | values | documents | reader | joined => trivial
  | strided => trivial

/-- In a session without hooks, a list is made of what is there, and later no filter that is
    to go on compares with a list.  Then the list is overlooked. -/
theorem overlooked_of_hookless {depth : Nat} {p : Producer host} {infinite : Bool}
    (hw₀ : w₀.Hookless) (hp : p.Earlier w₀.tapes.size w₀.sequences.size)
    (hmade : (Sequence.adopt p infinite).run w₀ = .ok (s, w₁))
    (hlater : (Engine.ofBehavior behavior depth).Moves w₁ w) (hw : w.Hookless)
    (hscalar : ∀ (t : Tape) test state,
      (w.tape t).phase = .idle (.filtered test state) → test.Scalar) :
    s.Overlooked behavior w := by
  obtain ⟨_, hw₀⟩ := hw₀
  obtain ⟨_, hw⟩ := hw
  refine overlooked_of_made hw₀.closed hp hmade hlater fun t p hphase => ?_
  refine .of_hookless (hw.idle t p hphase) fun test state heq => ?_
  exact hscalar t test state (heq ▸ hphase)

end MemoSeq.Session
