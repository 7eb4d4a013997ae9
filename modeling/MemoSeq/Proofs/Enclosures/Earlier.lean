/-
  MemoSeq/Proofs/Enclosures/Earlier.lean
  =======================================
  **What is there leads to what was there before.**

  A producer leads to the sequences that it is made of and to the tapes that its iterations
  read from, and a sequence leads to its tape.  If some of the first tapes and sequences lead
  to each other only (`World.Closed`), this stays so, whatever is done: going on, a producer
  opens its sequences and leads to their tapes then, and to nothing new
  (`Producer.next_earlier`).  So a sequence is never produced from one that is made after it.

  What is held in them is another matter, for it may be a list that is made later.
-/
import MemoSeq.Proofs.Demand.Owners
import MemoSeq.Proofs.Flattening.Grading

namespace MemoSeq

variable {H : Host} {E : Engine H} {tapes lists : Nat} {w w' : World H}

/-! ### What leads to the first tapes and sequences only -/

def Iteration.Earlier (tapes : Nat) (i : Iteration) : Prop :=
  ∀ r, i.rest = some r → r.tape.id < tapes

def Deferred.Earlier (tapes lists : Nat) : Deferred Sequence Iteration → Prop
  | .pending s => s.id < lists
  | .opened i => i.Earlier tapes
  | .finished => True

def Producer.Earlier (tapes lists : Nat) : Producer H → Prop
  | .reader r => r.tape.id < tapes
  | .filtered _ state => state.Earlier tapes lists
  | .joined left right => (∀ i, left = some i → i.Earlier tapes) ∧ right.Earlier tapes lists
  | .strided _ _ (.pending s) => s.id < lists
  | _ => True

/-- So many tapes and so many sequences are there, and they lead to each other only. -/
structure World.Closed (tapes lists : Nat) (w : World H) : Prop where
  tapes_le : tapes ≤ w.tapes.size
  lists_le : lists ≤ w.sequences.size
  idle : ∀ (t : Tape) (p : Producer H), t.id < tapes → (w.tape t).phase = .idle p →
    p.Earlier tapes lists
  reading : ∀ (s : Sequence) (r : Reader), s.id < lists → (w.sequence s).reader = some r →
    r.tape.id < tapes

theorem Deferred.Earlier.mono {state : Deferred Sequence Iteration}
    (h : state.Earlier tapes lists) {tapes' lists' : Nat} (htapes : tapes ≤ tapes')
    (hlists : lists ≤ lists') : state.Earlier tapes' lists' := by
  cases state with
  | pending s => exact Nat.lt_of_lt_of_le h hlists
  | opened i => exact fun r hr => (h r hr).trans_le htapes
  | finished => trivial

theorem Producer.Earlier.mono {p : Producer H} (h : p.Earlier tapes lists) {tapes' lists' : Nat}
    (htapes : tapes ≤ tapes') (hlists : lists ≤ lists') : p.Earlier tapes' lists' := by
  cases p with
  | source | container | values | documents => trivial
  | reader r => exact Nat.lt_of_lt_of_le h htapes
  | filtered test state => exact Deferred.Earlier.mono h htapes hlists
  | joined left right =>
    exact ⟨fun i hi r hr => (h.1 i hi r hr).trans_le htapes, h.2.mono htapes hlists⟩
  | strided start step state =>
    cases state with
    | pending s => exact Nat.lt_of_lt_of_le h hlists
    | opened | finished => trivial

namespace World.Closed

theorem iteration (hw : w.Closed tapes lists) {s : Sequence} (hs : s.id < lists) :
    (w.iteration s).Earlier tapes := by
  intro r hr
  refine hw.reading s r hs ?_
  simp only [World.iteration] at hr
  split at hr
  · cases hr
  · exact hr

/-- What is done besides these tapes and sequences does not matter. -/
theorem of_bypasses (hw : w.Closed tapes lists)
    (h : w.Bypasses (·.id < tapes) (·.id < lists) w') : w'.Closed tapes lists where
  tapes_le := hw.tapes_le.trans h.tapesSize
  lists_le := hw.lists_le.trans h.sequencesSize
  idle t p ht hp := hw.idle t p ht (h.tapes t ht (ht.trans_le hw.tapes_le) ▸ hp)
  reading s r hs hr := hw.reading s r hs (h.sequences s hs (hs.trans_le hw.lists_le) ▸ hr)

theorem updateTape (hw : w.Closed tapes lists) (t : Tape) {f : TapeState H → TapeState H}
    (hidle : ∀ p, (f (w.tape t)).phase = .idle p → p.Earlier tapes lists) :
    (w.updateTape t f).Closed tapes lists := by
  refine { hw with tapes_le := ?_, idle := fun q p hq hp => ?_ }
  · simpa [World.updateTape] using hw.tapes_le
  · rw [World.tape_updateTape] at hp
    split at hp
    case isTrue heq =>
      obtain ⟨rfl, -⟩ := heq
      exact hidle p hp
    case isFalse => exact hw.idle q p hq hp

theorem updateSequence (hw : w.Closed tapes lists) (s : Sequence)
    {f : SequenceState → SequenceState}
    (hreader : s.id < lists → ∀ r, (f (w.sequence s)).reader = some r → r.tape.id < tapes) :
    (w.updateSequence s f).Closed tapes lists := by
  refine { hw with lists_le := ?_, reading := fun q r hq hr => ?_ }
  · simpa using hw.lists_le
  · rw [World.sequence_updateSequence] at hr
    split at hr
    case isTrue heq =>
      obtain ⟨rfl, -⟩ := heq
      exact hreader hq r hr
    case isFalse => exact hw.reading q r hq hr

theorem running (hw : w.Closed tapes lists) (t : Tape) : (w.running t).Closed tapes lists :=
  hw.updateTape t fun _ hp => by cases hp

theorem recorded (hw : w.Closed tapes lists) (t : Tape) {x : Option Item} {p : Producer H}
    (hp : p.Earlier tapes lists) : (w.recorded t x p).Closed tapes lists := by
  refine hw.updateTape t fun q hq => ?_
  rcases x with _ | _ | _
  · cases hq
  · cases hq
  · cases hq
    exact hp

theorem waiting (hw : w.Closed tapes lists) (s : Sequence) : (w.waiting s).Closed tapes lists :=
  hw.updateSequence s (f := SequenceState.waiting) fun _ _ hr => by cases hr

theorem settled (hw : w.Closed tapes lists) (s : Sequence) (x : Option Item) {r : Reader}
    (hr : r.tape.id < tapes) : (w.settled s x r).Closed tapes lists := by
  refine hw.updateSequence s fun _ q hq => ?_
  rcases x with _ | _ | _
  · simp only [SequenceState.settled] at hq
    split at hq
    · cases hq
    · cases hq
      exact hr
  · cases hq
  · cases hq
    exact hr

theorem overwrite (hw : w.Closed tapes lists) (s : Sequence) (position : Nat) (v : Value) :
    (w.overwrite s position v).Closed tapes lists := by
  refine hw.updateSequence s fun hs r hr => hw.reading s r hs ?_
  split at hr <;> exact hr

/-- When a sequence is made, its tape comes to be the last one. -/
theorem withSequence (hw : w.Closed w.tapes.size w.sequences.size) {p : Producer H}
    (hp : p.Earlier w.tapes.size w.sequences.size) (infinite : Bool) {lists : Nat}
    (hle : w.sequences.size ≤ lists) (hle' : lists ≤ w.sequences.size + 1) :
    (w.withSequence p infinite).Closed (w.tapes.size + 1) lists where
  tapes_le := by simp
  lists_le := by simpa using hle'
  idle t q ht hq := by
    rw [World.tape_withSequence, World.tape_withTape] at hq
    split at hq
    case isTrue =>
      cases hq
      exact hp.mono (Nat.le_succ _) hle
    case isFalse hne => exact (hw.idle t q (by omega) hq).mono (Nat.le_succ _) hle
  reading s r hs hr := by
    rw [World.sequence_withSequence] at hr
    split at hr
    case isTrue =>
      cases hr
      exact Nat.lt_succ_self _
    case isFalse hne =>
      exact (hw.reading s r (by omega) hr).trans (Nat.lt_succ_self _)

end World.Closed

namespace Pledge

variable {K : Pledge H} {G : Grading} {h : Nat}

theorem Producer.earlier {p : MemoSeq.Producer H} (hp : K.Producer G w h p) :
    p.Earlier w.tapes.size w.sequences.size := by
  have hdeferred {state : Deferred Sequence Iteration} (hstate : G.Deferred w h state) :
      state.Earlier w.tapes.size w.sequences.size := by
    cases state with
    | pending s => exact hstate.1
    | opened i => exact fun r hr => (hstate.rest r hr).1
    | finished => trivial
  cases p with
  | source | container | values | documents => trivial
  | reader r => exact hp.1
  | filtered test state => exact hdeferred hp.2
  | joined left right => exact ⟨fun i hi r hr => ((hp.1 i hi).rest r hr).1, hdeferred hp.2⟩
  | strided start step state =>
    cases state with
    | pending s => exact hp.1
    | opened | finished => trivial

/-- In a graded world all tapes and sequences lead to what is there. -/
theorem Holds.closed (hw : K.Holds G w) : w.Closed w.tapes.size w.sequences.size :=
  ⟨Nat.le_refl _, Nat.le_refl _, fun t p _ hp => Producer.earlier (hw.idle t p hp),
    fun s r _ hr => (hw.reading s r hr).1⟩

end Pledge

/-! ### Going on -/

/-- What the engine drives leaves the first tapes and sequences closed, and their producers
    lead nowhere else. -/
structure Engine.Encloses (E : Engine H) (tapes lists : Nat) : Prop where
  within : E.Within fun w w' => w.Closed tapes lists → w'.Closed tapes lists
  next : ∀ {w w' : World H} {p : Producer H} {x : Option Item × Producer H},
    w.Closed tapes lists → p.Earlier tapes lists → (E.next p).run w = .ok (x, w') →
      x.2.Earlier tapes lists

section Encloses

variable (hE : E.Encloses tapes lists)
include hE

theorem Reader.Reads.earlier {r r' : Reader} {x : Option Item} (hw : w.Closed tapes lists)
    (hr : r.tape.id < tapes) (h : r.Reads E w x r' w') :
    w'.Closed tapes lists ∧ r'.tape.id < tapes := by
  cases h with
  | logged | paused => exact ⟨hw, hr⟩
  | drove p p' x v hlog hphase hnext =>
    have hrunning := hw.running r.tape
    refine ⟨?_, by rwa [Reader.tape_past]⟩
    exact (hE.within.next p hnext hrunning).recorded r.tape
      (hE.next hrunning (hw.idle r.tape p hr hphase) hnext)

theorem Engine.Encloses.guards :
    E.Guards (·.id < tapes) (·.id < lists) (World.Closed tapes lists) where
  bypasses hw h := hw.of_bypasses h
  reads hr hw h := (h.earlier hE hw hr).1
  advances hs hw h := by
    cases h with
    | failed | still => exact hw
    | pulled r r' x v hfailure hbusy hreader hreads =>
      obtain ⟨hv, hr'⟩ := hreads.earlier hE (hw.waiting _) (hw.reading _ r hs hreader)
      exact hv.settled _ x hr'
  overwrite hs hw := hw.overwrite _

theorem Iteration.next_earlier (hw : w.Closed tapes lists) {i : Iteration}
    (hi : i.Earlier tapes) :
    (i.next E).Manages True w fun x v => v.Closed tapes lists ∧ x.2.Earlier tapes := by
  unfold Iteration.next
  split
  case h_1 => exact .of_run rfl ⟨hw, hi⟩
  case h_2 =>
    split
    case h_1 => exact .of_run rfl ⟨hw, hi⟩
    case h_2 r hrest =>
      have hnext : (r.next E).Manages True w fun x v =>
          v.Closed tapes lists ∧ x.2.tape.id < tapes :=
        .of_runs fun x v hrun => (Reader.run_next_iff.mp hrun).earlier hE hw (hi r hrest)
      refine hnext.bind fun x v hx => .of_run rfl ⟨hx.1, fun q hq => ?_⟩
      dsimp only at hq
      split at hq
      · cases hq
        exact hx.2
      · cases hq

namespace Producer

theorem search_earlier (hw : w.Closed tapes lists) (test : H.Test) (rounds : Nat)
    {i : Iteration} (hi : i.Earlier tapes) :
    (search E test rounds i).Manages True w fun x _ => x.2.Earlier tapes lists := by
  induction rounds generalizing w i with
  | zero => exact .halted trivial rfl
  | succ rounds ih =>
    refine (Iteration.next_earlier hE hw hi).bind ?_
    rintro ⟨_ | e | v, i⟩ u ⟨hu, hi'⟩
    · exact .of_run rfl trivial
    · exact .of_run rfl hi'
    · have htest : (E.test test v).outcome.Manages True u fun _ u' => u'.Closed tapes lists :=
        .of_runs fun x u' hrun => hE.within.test test v hrun hu
      refine htest.bind fun passed u' hu' => ?_
      rcases passed with e | _ | _
      · exact .of_run rfl hi'
      · exact ih hu' hi'
      · exact .of_run rfl hi'

theorem searching_earlier (hw : w.Closed tapes lists) (test : H.Test) {i : Iteration}
    (hi : i.Earlier tapes) :
    Act.Manages (do
        let (item, state) ← search E test E.fuel i
        return (item, (.filtered test state : Producer H))) True w
      fun x _ => x.2.Earlier tapes lists :=
  (search_earlier hE hw test E.fuel hi).bind fun _ _ hx => .of_run rfl hx

theorem along_earlier (hw : w.Closed tapes lists) {i : Iteration} (hi : i.Earlier tapes) :
    (nextDeferred.along E i).Manages True w fun x _ => x.2.Earlier tapes lists := by
  refine (Iteration.next_earlier hE hw hi).bind ?_
  rintro ⟨_ | item, i⟩ u ⟨-, hi'⟩
  · exact .of_run rfl trivial
  · exact .of_run rfl hi'

theorem nextDeferred_earlier (hw : w.Closed tapes lists) {state : Deferred Sequence Iteration}
    (hstate : state.Earlier tapes lists) :
    (nextDeferred E state).Manages True w fun x _ => x.2.Earlier tapes lists := by
  cases state with
  | pending s => exact .congr rfl (along_earlier hE hw (hw.iteration hstate))
  | opened i => exact along_earlier hE hw hstate
  | finished => exact .of_run rfl trivial

theorem going_earlier (hw : w.Closed tapes lists) {right : Deferred Sequence Iteration}
    (hright : right.Earlier tapes lists) :
    Act.Manages (do
        let (item, right) ← nextDeferred E right
        return (item, (.joined none right : Producer H))) True w
      fun x _ => x.2.Earlier tapes lists := by
  refine (nextDeferred_earlier hE hw hright).bind fun x v hx => .of_run rfl ⟨fun i hi => ?_, hx⟩
  cases hi

omit hE in
theorem earlier_strided (start step : Int) (values : List Value) :
    Producer.Earlier (H := H) tapes lists (.strided start step (nextValue values).2) := by
  cases values <;> trivial

/-- A producer opens the sequences it is made of, and then leads to their tapes. -/
theorem next_earlier (hw : w.Closed tapes lists) {p : Producer H} (hp : p.Earlier tapes lists) :
    (p.next E).Manages True w fun x _ => x.2.Earlier tapes lists := by
  cases p with
  | source source =>
    refine Act.Manages.bind (Q := fun _ _ => True) (.of_runs fun _ _ _ => trivial) ?_
    rintro ⟨_ | e | x, source⟩ u -
    · exact .of_run rfl trivial
    · exact .of_run rfl trivial
    · exact Act.Manages.bind (Q := fun _ _ => True) (.of_runs fun _ _ _ => trivial)
        fun _ _ _ => .of_run rfl trivial
  | container items =>
    cases items with
    | nil => exact .of_run rfl trivial
    | cons x items =>
      exact Act.Manages.bind (Q := fun _ _ => True) (.of_runs fun _ _ _ => trivial)
        fun _ _ _ => .of_run rfl trivial
  | values items => cases items <;> exact .of_run rfl trivial
  | documents items =>
    cases items with
    | nil => exact .of_run rfl trivial
    | cons d items =>
      exact Act.Manages.bind (Q := fun _ _ => True) (.of_runs fun _ _ _ => trivial)
        fun _ _ _ => .of_run rfl trivial
  | reader r =>
    have hnext : (r.next E).Manages True w fun x _ => x.2.tape.id < tapes :=
      .of_runs fun x v hrun => ((Reader.run_next_iff.mp hrun).earlier hE hw hp).2
    exact hnext.bind fun x v hx => .of_run rfl hx
  | filtered test state =>
    cases state with
    -- what is opened reads the tape of `s`, and that is closed under `tapes` by `hw`
    | pending s => exact .congr rfl (searching_earlier hE hw test (hw.iteration hp))
    | opened i => exact searching_earlier hE hw test hp
    | finished => exact .of_run rfl trivial
  | joined left right =>
    cases left with
    | none => exact going_earlier hE hw hp.2
    | some left =>
      refine (Iteration.next_earlier hE hw (hp.1 left rfl)).bind ?_
      rintro ⟨x, left⟩ u ⟨hu, hleft⟩
      cases x with
      | none => exact going_earlier hE hu hp.2
      | some item =>
        refine .of_run rfl ⟨fun i hi => ?_, hp.2⟩
        cases hi
        exact hleft
  | strided start step state =>
    cases state with
    | pending s =>
      refine Act.Manages.bind (Q := fun _ _ => True) (.of_runs fun _ _ _ => trivial) ?_
      rintro (e | all) u -
      · exact .of_run rfl trivial
      · exact .of_run rfl (earlier_strided start step _)
    | opened rest => exact .of_run rfl (earlier_strided start step rest)
    | finished => exact .of_run rfl trivial

end Producer

end Encloses

/-! ### The engines of all depths -/

namespace Engine

variable {B : Behavior H}

theorem ofBehavior_encloses (hB : B.Lawful) (depth : Nat) :
    (ofBehavior B depth).Encloses tapes lists := by
  induction depth with
  | zero => exact ⟨idle_within _, fun _ _ hrun => (Act.run_starve_eq_ok.mp hrun).elim⟩
  | succ depth ih =>
    have hmoves (w w' : World H) (h : (ofBehavior B depth).Moves w w')
        (hw : w.Closed tapes lists) : w'.Closed tapes lists := h.guards ih.guards ih.within hw
    exact {
      within := {
        pull := fun s => (hB.pull _ s).mono hmoves
        test := fun t v => Act.Within.mono (hB.test _ t v) hmoves
        next := fun p => (Producer.next_moves _ p).mono hmoves }
      next := fun hw hp hrun => (Producer.next_earlier ih hw hp).result hrun }

/-- Whatever is done, the first tapes and sequences stay closed. -/
theorem moves_closed (hB : B.Lawful) {depth : Nat} (h : (ofBehavior B depth).Moves w w')
    (hw : w.Closed tapes lists) : w'.Closed tapes lists :=
  moves_guards hB (fun depth => (ofBehavior_encloses hB depth).guards) h hw

end Engine

end MemoSeq
