/-
  MemoSeq/Proofs/Reading.lean
  ===========================
  **All that reading from a tape and advancing a sequence can do.**

  A reader finds an item on its tape, or finds the tape at its end or at work, or
  drives the tape's producer (`Reader.Reads`).  A sequence repeats its failure,
  sees that nothing more can come now, or takes what its reader reads
  (`Sequence.Advances`).  Both relations say of each case what the world is
  afterwards, and both are what the acts do, no more and no less
  (`Reader.run_next_iff`, `Sequence.run_advance_iff`).  Later modules reason by
  these cases and do not open the acts again.
-/
import MemoSeq.Proofs.Runs
import MemoSeq.Sequence.Basic

namespace MemoSeq

variable {H : Host} {E : Engine H} {w w' : World H}

/-! ### Worlds between the parts of a pull -/

def TapeState.started (cell : TapeState H) : TapeState H := { cell with phase := .running }

/-- A tape that has noted what its producer answered. -/
def TapeState.recorded (cell : TapeState H) (x : Option Item) (p : Producer H) : TapeState H :=
  match x with
  | none => { cell with phase := .ended }
  | some (.error e) => { log := cell.log.push (.error e), phase := .ended }
  | some (.ok v) => { log := cell.log.push (.ok v), phase := .idle p }

namespace TapeState

variable {cell : TapeState H} {x : Option Item} {p : Producer H}

@[simp] theorem log_started : cell.started.log = cell.log := rfl

@[simp] theorem phase_started : cell.started.phase = .running := rfl

theorem log_recorded : (cell.recorded x p).log = cell.log ++ x.toArray := by
  match x with
  | none => simp [recorded]
  | some (.ok v) => simp [recorded]
  | some (.error e) => simp [recorded]

end TapeState

def SequenceState.waiting (c : SequenceState) : SequenceState :=
  { c with busy := true, reader := none }

/-- A sequence that has taken in what its reader read: a value is cached, a failure
    is kept, and of a tape that has ended it lets go. -/
def SequenceState.settled (c : SequenceState) (x : Option Item) (ended : Bool) (r : Reader) :
    SequenceState :=
  match x with
  | none => { c with busy := false, reader := if ended then none else some r }
  | some (.error e) => { c with busy := false, reader := none, failure := some e }
  | some (.ok v) => { c with busy := false, reader := some r, cache := c.cache.push v }

/-- Where a reader stands after it has read an item, or has read none. -/
def Reader.past (r : Reader) (x : Option Item) : Reader := if x.isSome then r.advance else r

@[simp] theorem Reader.tape_past (r : Reader) (x : Option Item) : (r.past x).tape = r.tape := by
  cases x <;> rfl

namespace World

def running (w : World H) (t : Tape) : World H := w.updateTape t TapeState.started

def recorded (w : World H) (t : Tape) (x : Option Item) (p : Producer H) : World H :=
  w.updateTape t (·.recorded x p)

def waiting (w : World H) (s : Sequence) : World H :=
  w.updateSequence s SequenceState.waiting

def settled (w : World H) (s : Sequence) (x : Option Item) (r : Reader) : World H :=
  w.updateSequence s (·.settled x (r.isExhausted w) r)

/-! ### What changes and what does not -/

section Frames

variable (w : World H) (s u : Sequence) (t q : Tape) (x : Option Item) (p : Producer H) (r : Reader)

@[simp] theorem sequence_running : (w.running t).sequence s = w.sequence s := rfl

@[simp] theorem sequence_recorded : (w.recorded t x p).sequence s = w.sequence s := rfl

@[simp] theorem tape_waiting : (w.waiting s).tape t = w.tape t := rfl

@[simp] theorem tape_settled : (w.settled s x r).tape t = w.tape t := rfl

@[simp] theorem tapes_size_running : (w.running t).tapes.size = w.tapes.size := by
  simp [running, updateTape]

@[simp] theorem tapes_size_recorded : (w.recorded t x p).tapes.size = w.tapes.size := by
  simp [recorded, updateTape]

@[simp] theorem tapes_size_waiting : (w.waiting s).tapes.size = w.tapes.size := rfl

@[simp] theorem tapes_size_settled : (w.settled s x r).tapes.size = w.tapes.size := rfl

@[simp] theorem sequences_size_updateSequence (f : SequenceState → SequenceState) :
    (w.updateSequence s f).sequences.size = w.sequences.size := by
  simp [updateSequence]

@[simp] theorem tapes_size_updateSequence (f : SequenceState → SequenceState) :
    (w.updateSequence s f).tapes.size = w.tapes.size := rfl

@[simp] theorem sequences_size_running : (w.running t).sequences.size = w.sequences.size := rfl

@[simp] theorem sequences_size_recorded :
    (w.recorded t x p).sequences.size = w.sequences.size := rfl

@[simp] theorem sequences_size_waiting : (w.waiting s).sequences.size = w.sequences.size := by
  simp [waiting]

@[simp] theorem sequences_size_settled : (w.settled s x r).sequences.size = w.sequences.size := by
  simp [settled]

variable {w s u t q p}

theorem tape_updateTape_self (f : TapeState H → TapeState H) (ht : t.id < w.tapes.size) :
    (w.updateTape t f).tape t = f (w.tape t) := by
  rw [tape_updateTape, if_pos ⟨rfl, ht⟩]

theorem tape_updateTape_of_ne (f : TapeState H → TapeState H) (h : t ≠ q) :
    (w.updateTape t f).tape q = w.tape q := by
  rw [tape_updateTape, if_neg fun both => h both.1]

theorem tape_running_self (ht : t.id < w.tapes.size) :
    (w.running t).tape t = (w.tape t).started := tape_updateTape_self _ ht

theorem tape_running_of_ne (h : t ≠ q) : (w.running t).tape q = w.tape q :=
  tape_updateTape_of_ne _ h

theorem tape_recorded_self (ht : t.id < w.tapes.size) :
    (w.recorded t x p).tape t = (w.tape t).recorded x p := tape_updateTape_self _ ht

theorem tape_recorded_of_ne (h : t ≠ q) : (w.recorded t x p).tape q = w.tape q :=
  tape_updateTape_of_ne _ h

theorem sequence_updateSequence_self (f : SequenceState → SequenceState)
    (hs : s.id < w.sequences.size) : (w.updateSequence s f).sequence s = f (w.sequence s) := by
  rw [sequence_updateSequence, if_pos ⟨rfl, hs⟩]

theorem sequence_updateSequence_of_ne (f : SequenceState → SequenceState) (h : s ≠ u) :
    (w.updateSequence s f).sequence u = w.sequence u := by
  rw [sequence_updateSequence, if_neg fun both => h both.1]

theorem sequence_waiting_self (hs : s.id < w.sequences.size) :
    (w.waiting s).sequence s = (w.sequence s).waiting := sequence_updateSequence_self _ hs

theorem sequence_settled_self (hs : s.id < w.sequences.size) :
    (w.settled s x r).sequence s = (w.sequence s).settled x (w.tape r.tape).hasEnded r :=
  sequence_updateSequence_self _ hs

theorem updateSequence_updateSequence (f g : SequenceState → SequenceState) :
    (w.updateSequence s f).updateSequence s g = w.updateSequence s (g ∘ f) := by
  have hmodify : (w.sequences.modify s.id f).modify s.id g = w.sequences.modify s.id (g ∘ f) := by
    ext i hi
    · simp
    · simp only [Array.getElem_modify]
      split <;> rfl
  simp only [updateSequence, hmodify]

/-- What a sequence takes in does not depend on its having been waiting. -/
theorem settled_waiting : (w.waiting s).settled s x r = w.settled s x r := by
  refine (updateSequence_updateSequence _ _).trans (congrArg (w.updateSequence s) ?_)
  funext c
  match x with
  | none | some (.ok _) | some (.error _) => rfl

/-- A tape that is not there has ended, so any other one is there. -/
theorem lt_of_phase_ne_ended (h : (w.tape t).phase ≠ .ended) : t.id < w.tapes.size := by
  apply Nat.lt_of_not_le
  intro hle
  apply h
  rw [tape, Array.getD, dif_neg (Nat.not_lt.mpr hle)]
  rfl

theorem lt_of_phase_idle (h : (w.tape t).phase = .idle p) : t.id < w.tapes.size :=
  lt_of_phase_ne_ended (by simp [h])

/-- A sequence that is not there has no reader, so one with a reader is there. -/
theorem lt_of_reader_eq_some (h : (w.sequence s).reader = some r) :
    s.id < w.sequences.size := by
  apply Nat.lt_of_not_le
  intro hle
  rw [sequence, Array.getD, dif_neg (Nat.not_lt.mpr hle)] at h
  cases h

end Frames

end World

/-! ### Reading from a tape -/

namespace Reader

def noting (r : Reader) (answer : Option Item × Producer H) : Act H (Option Item × Reader) := do
  modify fun w => w.recorded r.tape answer.1 answer.2
  return (answer.1, r.past answer.1)

theorem run_next_of_logged {r : Reader} {item : Item}
    (hlog : (w.tape r.tape).log[r.position]? = some item) :
    (r.next E).run w = .ok ((some item, r.advance), w) := by
  unfold next
  rw [Act.run_bind_of_eq rfl]
  simp only [hlog]
  rfl

theorem run_next_of_paused {r : Reader} (hlog : (w.tape r.tape).log[r.position]? = none)
    (hphase : ∀ p, (w.tape r.tape).phase ≠ .idle p) :
    (r.next E).run w = .ok ((none, r), w) := by
  unfold next
  rw [Act.run_bind_of_eq rfl]
  simp only [hlog]
  split
  · rfl
  · rfl
  · exact (hphase _ ‹_›).elim

theorem run_next_of_idle {r : Reader} {p : Producer H}
    (hlog : (w.tape r.tape).log[r.position]? = none) (hphase : (w.tape r.tape).phase = .idle p) :
    (r.next E).run w = (E.next p >>= r.noting).run (w.running r.tape) := by
  unfold next
  rw [Act.run_bind_of_eq rfl]
  simp only [hlog, hphase]
  have hstart : (modify fun w => w.running r.tape : Act H Unit).run w =
      .ok ((), w.running r.tape) := rfl
  exact Act.run_bind_of_eq hstart

/-- What a reader can come upon: the item, the reader behind it and the world after. -/
inductive Reads (E : Engine H) (r : Reader) (w : World H) :
    Option Item → Reader → World H → Prop
  | logged (item : Item) : (w.tape r.tape).log[r.position]? = some item →
      Reads E r w (some item) r.advance w
  /-- There is no further item, for now or for good. -/
  | paused : (w.tape r.tape).log[r.position]? = none →
      (∀ p, (w.tape r.tape).phase ≠ .idle p) → Reads E r w none r w
  | drove (p p' : Producer H) (x : Option Item) (v : World H) :
      (w.tape r.tape).log[r.position]? = none → (w.tape r.tape).phase = .idle p →
      (E.next p).run (w.running r.tape) = .ok ((x, p'), v) →
      Reads E r w x (r.past x) (v.recorded r.tape x p')

theorem run_next_iff {r r' : Reader} {x : Option Item} :
    (r.next E).run w = .ok ((x, r'), w') ↔ r.Reads E w x r' w' := by
  constructor
  · intro h
    cases hlog : (w.tape r.tape).log[r.position]? with
    | some item =>
      rw [run_next_of_logged hlog] at h
      cases h
      exact .logged item hlog
    | none =>
      by_cases hphase : ∃ p, (w.tape r.tape).phase = .idle p
      · obtain ⟨p, hp⟩ := hphase
        rw [run_next_of_idle hlog hp] at h
        obtain ⟨⟨y, p'⟩, v, hnext, h⟩ := Act.run_bind_eq_ok.mp h
        cases h
        exact .drove p p' _ v hlog hp hnext
      · have hphase : ∀ p, (w.tape r.tape).phase ≠ .idle p := by
          intro p hp
          exact hphase ⟨p, hp⟩
        rw [run_next_of_paused hlog hphase] at h
        cases h
        exact .paused hlog hphase
  · rintro (⟨item, hlog⟩ | ⟨hlog, hphase⟩ | ⟨p, p', x, v, hlog, hphase, hnext⟩)
    · exact run_next_of_logged hlog
    · exact run_next_of_paused hlog hphase
    · rw [run_next_of_idle hlog hphase, Act.run_bind_of_eq hnext]
      rfl

end Reader

/-! ### Advancing a sequence -/

namespace Sequence

def outcomeOf : Option Item → Outcome (Option Value)
  | none => .ok none
  | some (.error e) => .error e
  | some (.ok v) => .ok (some v)

def settling (s : Sequence) (answer : Option Item × Reader) :
    Act H (Outcome (Option Value)) := do
  modify fun w => w.settled s answer.1 answer.2
  return outcomeOf answer.1

theorem run_advance_of_failed {s : Sequence} {e : Error}
    (he : (w.sequence s).failure = some e) :
    (s.advance E).run.run w = .ok (.error e, w) := by
  unfold advance
  rw [Attempt.run_bind_of_ok (a := get) rfl]
  simp only [he]
  rfl

theorem run_pull_of_still {s : Sequence}
    (hstill : (w.sequence s).busy = true ∨ (w.sequence s).reader = none) :
    (s.pull E).run w = .ok (none, w) := by
  unfold pull
  rw [Act.run_bind_of_eq rfl]
  cases hbusy : (w.sequence s).busy with
  | true =>
    simp only [hbusy]
    rfl
  | false =>
    have hreader : (w.sequence s).reader = none := by simpa [hbusy] using hstill
    simp only [hbusy, hreader]
    rfl

theorem run_pull_of_reader {s : Sequence} {r : Reader} (hbusy : (w.sequence s).busy = false)
    (hreader : (w.sequence s).reader = some r) :
    (s.pull E).run w = (do
      let (x, r') ← r.next E
      modify fun w => w.updateSequence s fun c =>
        { c with
          busy := false
          reader := if x.isNone && r'.isExhausted w then none else some r' }
      return x : Act H (Option Item)).run (w.waiting s) := by
  unfold pull
  rw [Act.run_bind_of_eq rfl]
  simp only [hbusy, hreader]
  have hstart : (modify fun w => w.waiting s : Act H Unit).run w = .ok ((), w.waiting s) := rfl
  exact Act.run_bind_of_eq hstart

theorem run_advance_of_still {s : Sequence} (hfailure : (w.sequence s).failure = none)
    (hstill : (w.sequence s).busy = true ∨ (w.sequence s).reader = none) :
    (s.advance E).run.run w = .ok (.ok none, w) := by
  unfold advance
  rw [Attempt.run_bind_of_ok (a := get) rfl]
  simp only [hfailure]
  rw [Attempt.run_bind_lift, Act.run_bind_of_eq (run_pull_of_still hstill)]
  rfl

/-- A value or a failure is taken in by two updates of the sequence, which
    `World.settled` does at once. -/
theorem run_advance_of_reader {s : Sequence} {r : Reader}
    (hfailure : (w.sequence s).failure = none) (hbusy : (w.sequence s).busy = false)
    (hreader : (w.sequence s).reader = some r) :
    (s.advance E).run.run w = (r.next E >>= s.settling).run (w.waiting s) := by
  unfold advance
  rw [Attempt.run_bind_of_ok (a := get) rfl]
  simp only [hfailure]
  rw [Attempt.run_bind_lift, Act.run_bind_congr _ (run_pull_of_reader hbusy hreader), bind_assoc]
  refine congrArg (fun after => (r.next E >>= after).run (w.waiting s)) (funext fun ⟨x, r'⟩ => ?_)
  funext v
  match x with
  | none => rfl
  | some (.error e) =>
    refine congrArg (fun v => Except.ok (outcomeOf (some (.error e)), v)) ?_
    exact World.updateSequence_updateSequence _ _
  | some (.ok a) =>
    refine congrArg (fun v => Except.ok (outcomeOf (some (.ok a)), v)) ?_
    exact World.updateSequence_updateSequence _ _

inductive Advances (E : Engine H) (s : Sequence) (w : World H) :
    Outcome (Option Value) → World H → Prop
  | failed (e : Error) : (w.sequence s).failure = some e → Advances E s w (.error e) w
  /-- There is no further value, for now or for good. -/
  | still : (w.sequence s).failure = none →
      ((w.sequence s).busy = true ∨ (w.sequence s).reader = none) →
      Advances E s w (.ok none) w
  | pulled (r r' : Reader) (x : Option Item) (v : World H) :
      (w.sequence s).failure = none → (w.sequence s).busy = false →
      (w.sequence s).reader = some r → r.Reads E (w.waiting s) x r' v →
      Advances E s w (outcomeOf x) (v.settled s x r')

theorem run_advance_iff {s : Sequence} {y : Outcome (Option Value)} :
    (s.advance E).run.run w = .ok (y, w') ↔ s.Advances E w y w' := by
  constructor
  · intro h
    cases hfailure : (w.sequence s).failure with
    | some e =>
      rw [run_advance_of_failed hfailure] at h
      cases h
      exact .failed e hfailure
    | none =>
      by_cases hready : ∃ r, (w.sequence s).busy = false ∧ (w.sequence s).reader = some r
      · obtain ⟨r, hbusy, hreader⟩ := hready
        rw [run_advance_of_reader hfailure hbusy hreader] at h
        obtain ⟨⟨x, r'⟩, v, hnext, h⟩ := Act.run_bind_eq_ok.mp h
        cases h
        exact .pulled r r' x v hfailure hbusy hreader (Reader.run_next_iff.mp hnext)
      · have hstill : (w.sequence s).busy = true ∨ (w.sequence s).reader = none := by
          cases hbusy : (w.sequence s).busy with
          | true => exact .inl rfl
          | false =>
            cases hreader : (w.sequence s).reader with
            | none => exact .inr rfl
            | some r => exact (hready ⟨r, hbusy, hreader⟩).elim
        rw [run_advance_of_still hfailure hstill] at h
        cases h
        exact .still hfailure hstill
  · rintro (⟨e, he⟩ | ⟨hfailure, hstill⟩ | ⟨r, r', x, v, hfailure, hbusy, hreader, hreads⟩)
    · exact run_advance_of_failed he
    · exact run_advance_of_still hfailure hstill
    · rw [run_advance_of_reader hfailure hbusy hreader,
        Act.run_bind_of_eq (Reader.run_next_iff.mpr hreads)]
      rfl

end Sequence

end MemoSeq
