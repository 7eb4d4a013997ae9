/-
  MemoSeq/Proofs/Custody/Deeds.lean
  =================================
  **Deeds, and the courses they make up.**

  A `Deed` is what is done at a moment, with all that it is done to; `Moment.Does` says
  when it can be done and what comes of it.  It tells more than `Moment.Step`: a reader
  that takes what is on its tape does something although the world stays the same, and
  a producer is called only by a reader that stands at the end of the log.
-/
import MemoSeq.Proofs.Moments

namespace MemoSeq

variable {H : Host}

inductive Deed (H : Host) where
  | host
  | limit
  | displayLength
  | onto (p : Producer H)
  | adopt (p : Producer H) (infinite : Bool)
  | overwrite (s : Sequence) (position : Nat) (v : Value)
  /-- A reader takes what is on its tape. -/
  | read (r : Reader)
  /-- A reader calls the producer of its tape, as it is then. -/
  | drive (r : Reader) (p : Producer H)
  | answer (r : Reader) (x : Option Item) (p : Producer H)
  | take (s : Sequence) (r : Reader) (x : Option Item)
  | pull (s : Sequence) (r : Reader) (p : Producer H)
  | settle (s : Sequence) (r : Reader) (x : Option Item) (p : Producer H)
  /-- An iterator of the host is called before any tape is made of it. -/
  | ahead (s : H.Source)
  | cameAhead

namespace Moment

inductive Does : Moment H → Deed H → Moment H → Prop
  | host (w : World H) (calls : List Call) (h : H.State) :
      Does ⟨w, calls⟩ .host ⟨{ w with host := h }, calls⟩
  | limit (w : World H) (calls : List Call) (limit : Option Nat) :
      Does ⟨w, calls⟩ .limit ⟨{ w with limit }, calls⟩
  | displayLength (w : World H) (calls : List Call) (displayLength : Nat) :
      Does ⟨w, calls⟩ .displayLength ⟨{ w with displayLength }, calls⟩
  | onto (w : World H) (calls : List Call) (p : Producer H) :
      Does ⟨w, calls⟩ (.onto p) ⟨w.withTape p, calls⟩
  | adopt (w : World H) (calls : List Call) (p : Producer H) (infinite : Bool) :
      Does ⟨w, calls⟩ (.adopt p infinite) ⟨w.withSequence p infinite, calls⟩
  | overwrite (w : World H) (calls : List Call) (s : Sequence) (position : Nat) (v : Value) :
      Does ⟨w, calls⟩ (.overwrite s position v) ⟨w.overwrite s position v, calls⟩
  | read (w : World H) (calls : List Call) (r : Reader) (item : Item) :
      (w.tape r.tape).log[r.position]? = some item → Does ⟨w, calls⟩ (.read r) ⟨w, calls⟩
  | drive (w : World H) (calls : List Call) (r : Reader) (p : Producer H) :
      r.position = (w.tape r.tape).log.size → (w.tape r.tape).phase = .idle p →
      Does ⟨w, calls⟩ (.drive r p) ⟨w.running r.tape, .read r :: calls⟩
  | answer (w : World H) (calls : List Call) (r : Reader) (x : Option Item) (p : Producer H) :
      Does ⟨w, .read r :: calls⟩ (.answer r x p) ⟨w.recorded r.tape x p, calls⟩
  | take (w : World H) (calls : List Call) (s : Sequence) (r : Reader) (x : Option Item) :
      (w.sequence s).failure = none → (w.sequence s).busy = false →
      (w.sequence s).reader = some r → (w.tape r.tape).log[r.position]? = x →
      (x = none → ∀ p, (w.tape r.tape).phase ≠ .idle p) →
      Does ⟨w, calls⟩ (.take s r x) ⟨w.settled s x (r.past x), calls⟩
  | pull (w : World H) (calls : List Call) (s : Sequence) (r : Reader) (p : Producer H) :
      (w.sequence s).failure = none → (w.sequence s).busy = false →
      (w.sequence s).reader = some r → r.position = (w.tape r.tape).log.size →
      (w.tape r.tape).phase = .idle p →
      Does ⟨w, calls⟩ (.pull s r p) ⟨(w.waiting s).running r.tape, .pull s r :: calls⟩
  | settle (w : World H) (calls : List Call) (s : Sequence) (r : Reader) (x : Option Item)
      (p : Producer H) :
      Does ⟨w, .pull s r :: calls⟩ (.settle s r x p)
        ⟨(w.recorded r.tape x p).settled s x (r.past x), calls⟩
  | ahead (w : World H) (calls : List Call) (s : H.Source) :
      Does ⟨w, calls⟩ (.ahead s) ⟨w, calls⟩
  | cameAhead (w : World H) (calls : List Call) : Does ⟨w, calls⟩ .cameAhead ⟨w, calls⟩

theorem Does.steps {m m' : Moment H} {d : Deed H} (h : m.Does d m') : m.Steps m' := by
  cases h with
  | host w calls h => exact (Step.host w calls h).steps
  | limit w calls limit => exact (Step.limit w calls limit).steps
  | displayLength w calls length => exact (Step.displayLength w calls length).steps
  | onto w calls p => exact (Step.onto w calls p).steps
  | adopt w calls p infinite => exact (Step.adopt w calls p infinite).steps
  | overwrite w calls s position v => exact (Step.overwrite w calls s position v).steps
  | read | ahead | cameAhead => exact .refl _
  | drive w calls r p hposition hphase =>
    exact (Step.drive w calls r p (by simp [hposition]) hphase).steps
  | answer w calls r x p => exact (Step.answer w calls r x p).steps
  | take w calls s r x hfailure hbusy hreader hx hnone =>
    exact (Step.take w calls s r x hfailure hbusy hreader hx hnone).steps
  | pull w calls s r p hfailure hbusy hreader hposition hphase =>
    exact (Step.pull w calls s r p hfailure hbusy hreader (by simp [hposition]) hphase).steps
  | settle w calls s r x p => exact (Step.settle w calls s r x p).steps

end Moment

/-! ### What stands when a world is extended -/

/-- Nothing that was there has gone. -/
structure World.Extends (w w' : World H) : Prop where
  tapes : w.tapes.size ≤ w'.tapes.size
  logs : ∀ t : Tape, (w.tape t).log.size ≤ (w'.tape t).log.size
  sequences : w.sequences.size ≤ w'.sequences.size

/-- A reader stands on a tape, at most right behind what is on it. -/
structure Reader.Stands (w : World H) (r : Reader) : Prop where
  tape : r.tape.id < w.tapes.size
  position : r.position ≤ (w.tape r.tape).log.size

namespace World

variable {w w' w'' : World H} {t q : Tape} {s : Sequence} {x : Option Item} {p : Producer H}

theorem Extends.refl (w : World H) : w.Extends w :=
  ⟨Nat.le_refl _, fun _ => Nat.le_refl _, Nat.le_refl _⟩

theorem Extends.trans (h : w.Extends w') (h' : w'.Extends w'') : w.Extends w'' where
  tapes := Nat.le_trans h.tapes h'.tapes
  logs t := Nat.le_trans (h.logs t) (h'.logs t)
  sequences := Nat.le_trans h.sequences h'.sequences

theorem Extends.of_eq (htapes : w'.tapes = w.tapes) (hsequences : w'.sequences = w.sequences) :
    w.Extends w' where
  tapes := by simp [htapes]
  logs t := by simp [tape, htapes]
  sequences := by simp [hsequences]

theorem size_log_of_le (ht : w.tapes.size ≤ t.id) : (w.tape t).log.size = 0 := by
  rw [tape, Array.getD, dif_neg (Nat.not_lt.mpr ht)]
  rfl

theorem extends_withTape (w : World H) (p : Producer H) : w.Extends (w.withTape p) where
  tapes := by simp
  logs t := by
    rcases Nat.lt_or_ge t.id w.tapes.size with hlt | hge
    · exact Nat.le_of_eq (by rw [tape_withTape_of_lt p hlt])
    · rw [size_log_of_le hge]
      exact Nat.zero_le _
  sequences := Nat.le_refl _

theorem extends_withSequence (w : World H) (p : Producer H) (infinite : Bool) :
    w.Extends (w.withSequence p infinite) where
  tapes := (w.extends_withTape p).tapes
  logs := (w.extends_withTape p).logs
  sequences := by simp

theorem extends_updateSequence (w : World H) (s : Sequence) (f : SequenceState → SequenceState) :
    w.Extends (w.updateSequence s f) :=
  ⟨Nat.le_refl _, fun _ => Nat.le_refl _, by simp⟩

theorem extends_settled (w : World H) (s : Sequence) (x : Option Item) (r : Reader) :
    w.Extends (w.settled s x r) :=
  w.extends_updateSequence s _

theorem extends_updateTape (w : World H) (t : Tape) {f : TapeState H → TapeState H}
    (hf : (w.tape t).log.size ≤ (f (w.tape t)).log.size) : w.Extends (w.updateTape t f) where
  tapes := by simp [updateTape]
  logs q := by
    rw [tape_updateTape]
    split
    case isTrue h =>
      obtain ⟨rfl, -⟩ := h
      exact hf
    case isFalse => exact Nat.le_refl _
  sequences := Nat.le_refl _

theorem extends_running (w : World H) (t : Tape) : w.Extends (w.running t) :=
  w.extends_updateTape t (Nat.le_refl _)

theorem size_log_recorded (cell : TapeState H) (x : Option Item) (p : Producer H) :
    (cell.recorded x p).log.size = cell.log.size + if x.isSome then 1 else 0 := by
  rw [TapeState.log_recorded]
  cases x <;> simp

theorem extends_recorded (w : World H) (t : Tape) (x : Option Item) (p : Producer H) :
    w.Extends (w.recorded t x p) :=
  w.extends_updateTape t (by rw [size_log_recorded]; exact Nat.le_add_right _ _)

end World

/-- Each step extends the world. -/
theorem Moment.Step.extends_world {m m' : Moment H} (h : m.Step m') :
    m.world.Extends m'.world := by
  cases h with
  | host | limit | displayLength => exact .of_eq rfl rfl
  | onto w calls p => exact w.extends_withTape p
  | adopt w calls p infinite => exact w.extends_withSequence p infinite
  | overwrite w calls s => exact w.extends_updateSequence s _
  | drive w calls r => exact w.extends_running r.tape
  | answer w calls r x p => exact w.extends_recorded r.tape x p
  | take w calls s r x => exact w.extends_settled s x _
  | pull w calls s r => exact (w.extends_updateSequence s _).trans (World.extends_running _ r.tape)
  | settle w calls s r x p =>
    exact (w.extends_recorded r.tape x p).trans (World.extends_settled _ s x _)

theorem Moment.Steps.extends_world {m m' : Moment H} (h : m.Steps m') :
    m.world.Extends m'.world := by
  induction h with
  | refl => exact .refl _
  | tail _ hstep ih => exact ih.trans hstep.extends_world

theorem Engine.moves_extends {B : Behavior H} (hB : B.Lawful) {depth : Nat} {w w' : World H}
    (h : (Engine.ofBehavior B depth).Moves w w') : w.Extends w' :=
  (Engine.moves_steps hB h []).extends_world

namespace Reader.Stands

variable {w w' : World H} {r : Reader}

theorem mono (h : r.Stands w) (hw : w.Extends w') : r.Stands w' :=
  ⟨Nat.lt_of_lt_of_le h.tape hw.tapes, Nat.le_trans h.position (hw.logs r.tape)⟩

/-- A reader finds nothing only at the end of the log. -/
theorem position_eq (h : r.Stands w) (hlog : (w.tape r.tape).log[r.position]? = none) :
    r.position = (w.tape r.tape).log.size :=
  Nat.le_antisymm h.position (by simpa using hlog)

theorem advance (h : r.Stands w) {item : Item}
    (hlog : (w.tape r.tape).log[r.position]? = some item) : r.advance.Stands w :=
  ⟨h.tape, (Array.getElem?_eq_some_iff.mp hlog).1⟩

/-- Behind what its tape has just noted, a reader stands as well. -/
theorem past_recorded (h : r.Stands w) (x : Option Item) (p : Producer H) :
    (r.past x).Stands (w.recorded r.tape x p) := by
  constructor
  · simpa using h.tape
  · rw [Reader.tape_past, World.tape_recorded_self x h.tape, World.size_log_recorded]
    have hle := h.position
    cases x with
    | none => exact hle
    | some item => exact Nat.succ_le_succ hle

end Reader.Stands

end MemoSeq
