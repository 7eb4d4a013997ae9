/-
  MemoSeq/Proofs/Moments.lean
  ===========================
  **Moments, and how one leads to the next.**

  Code of the host can run while producers are at work, and what it does then is
  done within calls that have not returned.  A `Moment` is a world together with
  these calls, and `Moment.Step` says how one moment leads to the next: a call
  begins, a call returns, something is done between.  What a producer answers is
  left open, so the steps allow for every host.

  Every act that moves a world is a run of steps that returns from each call it
  begins (`Engine.moves_steps`), so what is proved of all runs of steps holds at
  every moment of every act, within producers and outside of them.
-/
import MemoSeq.Proofs.Moves
import MemoSeq.Proofs.Reading
import Mathlib.Logic.Relation

namespace MemoSeq

variable {H : Host}

/-! ### Moments -/

/-- A call of a producer that has not returned. -/
inductive Call where
  /-- A reader drives the producer of its tape. -/
  | read (r : Reader)
  /-- A sequence waits for its reader, which drives the producer. -/
  | pull (s : Sequence) (r : Reader)
deriving DecidableEq, Repr

def Call.tape : Call → Tape
  | .read r | .pull _ r => r.tape

/-- A world, and the calls that have not returned, the latest first. -/
structure Moment (H : Host) where
  world : World H
  calls : List Call

/-! ### New tapes and sequences -/

namespace World

def withTape (w : World H) (p : Producer H) : World H :=
  { w with tapes := w.tapes.push ⟨#[], .idle p⟩ }

def withSequence (w : World H) (p : Producer H) (infinite : Bool) : World H :=
  { w.withTape p with
    sequences := w.sequences.push ⟨some ⟨w.freshTape, 0⟩, #[], infinite, false, none, []⟩ }

section Frames

variable {w : World H} (p : Producer H) (infinite : Bool)

theorem tape_withTape_of_lt {t : Tape} (ht : t.id < w.tapes.size) :
    (w.withTape p).tape t = w.tape t := by
  simp [withTape, tape, Array.getD, ht, Nat.lt_succ_of_lt ht, Array.getElem_push_lt]

@[simp] theorem tape_withTape_freshTape : (w.withTape p).tape w.freshTape = ⟨#[], .idle p⟩ := by
  simp [withTape, tape, freshTape, Array.getD]

theorem phase_withTape_ne_running {t : Tape} (ht : w.tapes.size ≤ t.id) :
    ((w.withTape p).tape t).phase ≠ .running := by
  rcases Nat.lt_or_eq_of_le ht with hlt | heq
  · simp [withTape, tape, Array.getD, Nat.not_lt.mpr hlt, default]
  · have hfresh : t = w.freshTape := by
      cases t
      exact congrArg Tape.mk heq.symm
    simp [hfresh]

@[simp] theorem sequence_withTape (s : Sequence) : (w.withTape p).sequence s = w.sequence s := rfl

@[simp] theorem tape_withSequence (t : Tape) :
    (w.withSequence p infinite).tape t = (w.withTape p).tape t := rfl

theorem sequence_withSequence_of_lt {s : Sequence} (hs : s.id < w.sequences.size) :
    (w.withSequence p infinite).sequence s = w.sequence s := by
  simp [withSequence, sequence, Array.getD, hs, Nat.lt_succ_of_lt hs, Array.getElem_push_lt]

theorem sequence_withSequence (s : Sequence) :
    (w.withSequence p infinite).sequence s =
      if s.id = w.sequences.size then ⟨some ⟨w.freshTape, 0⟩, #[], infinite, false, none, []⟩
      else w.sequence s := by
  rcases Nat.lt_trichotomy s.id w.sequences.size with hlt | heq | hgt
  · rw [sequence_withSequence_of_lt p infinite hlt, if_neg (Nat.ne_of_lt hlt)]
  · simp [withSequence, sequence, Array.getD, heq]
  · have hnew : ¬ s.id < w.sequences.size + 1 := by omega
    simp [withSequence, sequence, Array.getD, hnew, Nat.ne_of_gt hgt, Nat.lt_asymm hgt]

@[simp] theorem sequence_withSequence_freshSequence :
    (w.withSequence p infinite).sequence w.freshSequence =
      ⟨some ⟨w.freshTape, 0⟩, #[], infinite, false, none, []⟩ := by
  simp [withSequence, sequence, freshSequence, Array.getD]

@[simp] theorem tapes_size_withTape : (w.withTape p).tapes.size = w.tapes.size + 1 := by
  simp [withTape]

@[simp] theorem tapes_size_withSequence :
    (w.withSequence p infinite).tapes.size = w.tapes.size + 1 := by
  simp [withSequence, withTape]

@[simp] theorem sequences_size_withSequence :
    (w.withSequence p infinite).sequences.size = w.sequences.size + 1 := by
  simp [withSequence]

end Frames

end World

namespace Moment

/-! ### Steps -/

inductive Step : Moment H → Moment H → Prop
  | host (w : World H) (calls : List Call) (h : H.State) :
      Step ⟨w, calls⟩ ⟨{ w with host := h }, calls⟩
  | limit (w : World H) (calls : List Call) (limit : Option Nat) :
      Step ⟨w, calls⟩ ⟨{ w with limit }, calls⟩
  | displayLength (w : World H) (calls : List Call) (displayLength : Nat) :
      Step ⟨w, calls⟩ ⟨{ w with displayLength }, calls⟩
  | onto (w : World H) (calls : List Call) (p : Producer H) :
      Step ⟨w, calls⟩ ⟨w.withTape p, calls⟩
  | adopt (w : World H) (calls : List Call) (p : Producer H) (infinite : Bool) :
      Step ⟨w, calls⟩ ⟨w.withSequence p infinite, calls⟩
  | overwrite (w : World H) (calls : List Call) (s : Sequence) (position : Nat) (v : Value) :
      Step ⟨w, calls⟩ ⟨w.overwrite s position v, calls⟩
  /-- A reader at the end of its tape calls the producer. -/
  | drive (w : World H) (calls : List Call) (r : Reader) (p : Producer H) :
      (w.tape r.tape).log[r.position]? = none → (w.tape r.tape).phase = .idle p →
      Step ⟨w, calls⟩ ⟨w.running r.tape, .read r :: calls⟩
  | answer (w : World H) (calls : List Call) (r : Reader) (x : Option Item) (p : Producer H) :
      Step ⟨w, .read r :: calls⟩ ⟨w.recorded r.tape x p, calls⟩
  /-- A sequence takes in what its reader finds without a call. -/
  | take (w : World H) (calls : List Call) (s : Sequence) (r : Reader) (x : Option Item) :
      (w.sequence s).failure = none → (w.sequence s).busy = false →
      (w.sequence s).reader = some r → (w.tape r.tape).log[r.position]? = x →
      (x = none → ∀ p, (w.tape r.tape).phase ≠ .idle p) →
      Step ⟨w, calls⟩ ⟨w.settled s x (r.past x), calls⟩
  /-- A sequence whose reader is at the end of its tape calls the producer. -/
  | pull (w : World H) (calls : List Call) (s : Sequence) (r : Reader) (p : Producer H) :
      (w.sequence s).failure = none → (w.sequence s).busy = false →
      (w.sequence s).reader = some r → (w.tape r.tape).log[r.position]? = none →
      (w.tape r.tape).phase = .idle p →
      Step ⟨w, calls⟩ ⟨(w.waiting s).running r.tape, .pull s r :: calls⟩
  /-- The producer that a sequence called answers, and the sequence takes it in. -/
  | settle (w : World H) (calls : List Call) (s : Sequence) (r : Reader) (x : Option Item)
      (p : Producer H) :
      Step ⟨w, .pull s r :: calls⟩ ⟨(w.recorded r.tape x p).settled s x (r.past x), calls⟩

def Steps : Moment H → Moment H → Prop := Relation.ReflTransGen Step

/-- A moment that comes up in a world without tapes and sequences at first. -/
def Reached (m : Moment H) : Prop := ∃ h : H.State, Steps ⟨World.initial h, []⟩ m

theorem Steps.refl (m : Moment H) : m.Steps m := Relation.ReflTransGen.refl

theorem Steps.trans {m m' m'' : Moment H} (h : m.Steps m') (h' : m'.Steps m'') : m.Steps m'' :=
  Relation.ReflTransGen.trans h h'

theorem Step.steps {m m' : Moment H} (h : m.Step m') : m.Steps m' :=
  Relation.ReflTransGen.single h

end Moment

/-! ### Acts are runs of steps -/

/-- One world leads to another by steps that return from each call they begin,
    whatever calls have not returned before. -/
def World.Leads (w w' : World H) : Prop :=
  ∀ calls : List Call, Moment.Steps ⟨w, calls⟩ ⟨w', calls⟩

section Acts

variable {E : Engine H} (hE : E.Within World.Leads)

include hE

theorem Reader.Reads.leads {r r' : Reader} {x : Option Item} {w w' : World H}
    (h : r.Reads E w x r' w') : w.Leads w' := by
  intro calls
  cases h with
  | logged | paused => exact .refl _
  | drove p p' x v hlog hphase hnext =>
    have within := hE.next p hnext (.read r :: calls)
    exact ((Moment.Step.drive w calls r p hlog hphase).steps.trans within).trans
      (Moment.Step.answer v calls r x p').steps

/-- When the reader of a sequence makes no call, pulling is one step; otherwise the
    call is of the sequence and not of the reader. -/
theorem Sequence.Advances.leads {s : Sequence} {y : Outcome (Option Value)} {w w' : World H}
    (h : s.Advances E w y w') : w.Leads w' := by
  intro calls
  cases h with
  | failed | still => exact .refl _
  | pulled r r' x v hfailure hbusy hreader hreads =>
    cases hreads with
    | logged item hlog =>
      rw [World.settled_waiting]
      exact (Moment.Step.take w calls s r (some item) hfailure hbusy hreader hlog nofun).steps
    | paused hlog hphase =>
      rw [World.settled_waiting]
      exact (Moment.Step.take w calls s r none hfailure hbusy hreader hlog fun _ => hphase).steps
    | drove p p' x v hlog hphase hnext =>
      have within := hE.next p hnext (.pull s r :: calls)
      exact ((Moment.Step.pull w calls s r p hfailure hbusy hreader hlog hphase).steps.trans
        within).trans (Moment.Step.settle v calls s r x p').steps

theorem Engine.Moves.leads {w w' : World H} (h : E.Moves w w') : w.Leads w' := by
  induction h with
  | refl w => exact fun _ => .refl _
  | trans _ _ ih ih' => exact fun calls => (ih calls).trans (ih' calls)
  | host w h => exact fun calls => (Moment.Step.host w calls h).steps
  | limit w limit => exact fun calls => (Moment.Step.limit w calls limit).steps
  | displayLength w length => exact fun calls => (Moment.Step.displayLength w calls length).steps
  | onto p h =>
    cases h
    exact fun calls => (Moment.Step.onto _ calls p).steps
  | adopt p infinite h =>
    cases h
    exact fun calls => (Moment.Step.adopt _ calls p infinite).steps
  | overwrite w s position v =>
    exact fun calls => (Moment.Step.overwrite w calls s position v).steps
  | next r h => exact (Reader.run_next_iff.mp h).leads hE
  | advance s h => exact (Sequence.run_advance_iff.mp h).leads hE
  | pull s h => exact hE.pull s h
  | test t v h => exact hE.test t v h

end Acts

/-- Whatever is driven at any depth is a run of steps. -/
theorem Engine.ofBehavior_leads {B : Behavior H} (hB : B.Lawful) (depth : Nat) :
    (Engine.ofBehavior B depth).Within World.Leads :=
  Engine.within_of_closed hB (fun _ hE _ _ h => h.leads hE) depth

/-- A loop may take almost as many rounds as the engine reaches levels down. -/
theorem Engine.lt_fuel {B : Behavior H} {n depth : Nat} (h : n + 2 ≤ depth) :
    n < (Engine.ofBehavior B depth).fuel := by
  obtain ⟨depth, rfl⟩ := Nat.exists_eq_add_of_le' h
  exact Nat.lt_of_lt_of_le n.lt_succ_self (Nat.le_add_left (n + 1) depth)

theorem Engine.moves_steps {B : Behavior H} (hB : B.Lawful) {depth : Nat} {w w' : World H}
    (h : (Engine.ofBehavior B depth).Moves w w') (calls : List Call) :
    Moment.Steps ⟨w, calls⟩ ⟨w', calls⟩ :=
  h.leads (Engine.ofBehavior_leads hB depth) calls

end MemoSeq
