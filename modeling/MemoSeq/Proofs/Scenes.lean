/-
  MemoSeq/Proofs/Scenes.lean
  ==========================
  **Scenes: what has begun and not ended, and what it will be held to.**

  A step of a moment leaves open what a producer answers, so a run of steps may tell of
  answers that no engine would ever give.  A `Scene` keeps, for each call that has not
  returned, the producer, the world in which it was called and the depth of the engine
  that drives it.  When the call returns, the answer has to be what that engine gives in
  that world (`Scene.Does.returns`).

  A host may also call one of its own iterators before any tape is made of it.  Such a
  call is told as well, and answered in the same way.

  All that an engine does to a world is a course of such deeds (`Engine.moves_unfold`),
  so a statement about all courses is one about whatever the program runs.
-/
import MemoSeq.Proofs.Custody.Deeds

namespace MemoSeq

variable {H : Host} {B : Behavior H} {depth : Nat} {q : Tape} {x : Option Item}
variable {p p' : Producer H} {w w' v : World H} {calls : List Call} {c : Call}

/-! ### Calls -/

namespace Call

/-- The producer is idle, and who calls it finds nothing on the tape. -/
def Begins (w : World H) (p : Producer H) : Call → Prop
  | .read r => (w.tape r.tape).log[r.position]? = none ∧ (w.tape r.tape).phase = .idle p
  | .pull s r =>
    (w.sequence s).failure = none ∧ (w.sequence s).busy = false ∧
      (w.sequence s).reader = some r ∧ (w.tape r.tape).log[r.position]? = none ∧
      (w.tape r.tape).phase = .idle p

/-- The world in which the producer is called. -/
def opened (w : World H) : Call → World H
  | .read r => w.running r.tape
  | .pull s r => (w.waiting s).running r.tape

/-- The world in which the producer has answered. -/
def answered (w : World H) (x : Option Item) (p : Producer H) : Call → World H
  | .read r => w.recorded r.tape x p
  | .pull s r => (w.recorded r.tape x p).settled s x (r.past x)

def begun (p : Producer H) : Call → Deed H
  | .read r => .drive r p
  | .pull s r => .pull s r p

def returned (x : Option Item) (p : Producer H) : Call → Deed H
  | .read r => .answer r x p
  | .pull s r => .settle s r x p

def reader : Call → Reader
  | .read r | .pull _ r => r

@[simp] theorem tape_reader (c : Call) : c.reader.tape = c.tape := by cases c <;> rfl

theorem Begins.phase (h : c.Begins w p) : (w.tape c.tape).phase = .idle p := by
  cases c with
  | read r => exact h.2
  | pull s r => exact h.2.2.2.2

theorem Begins.step (h : c.Begins w p) (calls : List Call) :
    Moment.Step ⟨w, calls⟩ ⟨c.opened w, c :: calls⟩ := by
  cases c with
  | read r => exact .drive w calls r p h.1 h.2
  | pull s r => exact .pull w calls s r p h.1 h.2.1 h.2.2.1 h.2.2.2.1 h.2.2.2.2

/-- A call that a reader makes at the end of the log is a deed of the moment. -/
theorem Begins.does (h : c.Begins w p) (hposition : c.reader.position = (w.tape c.tape).log.size)
    (calls : List Call) :
    Moment.Does ⟨w, calls⟩ (c.begun p) ⟨c.opened w, c :: calls⟩ := by
  cases c with
  | read r => exact .drive w calls r p hposition h.2
  | pull s r => exact .pull w calls s r p h.1 h.2.1 h.2.2.1 hposition h.2.2.2.2

theorem does_answered (w : World H) (x : Option Item) (p : Producer H) (calls : List Call) :
    Moment.Does ⟨w, c :: calls⟩ (c.returned x p) ⟨c.answered w x p, calls⟩ := by
  cases c with
  | read r => exact .answer w calls r x p
  | pull s r => exact .settle w calls s r x p

theorem step_answered (w : World H) (x : Option Item) (p : Producer H) :
    Moment.Step ⟨w, c :: calls⟩ ⟨c.answered w x p, calls⟩ := by
  cases c with
  | read r => exact .answer w calls r x p
  | pull s r => exact .settle w calls s r x p

theorem tape_opened_of_ne (hne : c.tape ≠ q) : (c.opened w).tape q = w.tape q := by
  cases c with
  | read r | pull s r => exact World.tape_running_of_ne hne

theorem tape_opened_self (hlt : c.tape.id < w.tapes.size) :
    (c.opened w).tape c.tape = (w.tape c.tape).started := by
  cases c with
  | read r => exact World.tape_running_self hlt
  | pull s r => exact World.tape_running_self (w := w.waiting s) hlt

@[simp] theorem tapes_size_opened : (c.opened w).tapes.size = w.tapes.size := by
  cases c <;> simp [opened]

@[simp] theorem host_opened : (c.opened w).host = w.host := by cases c <;> rfl

theorem log_opened (h : c.Begins w p) (q : Tape) : ((c.opened w).tape q).log = (w.tape q).log := by
  by_cases heq : c.tape = q
  · subst heq
    rw [tape_opened_self (World.lt_of_phase_idle h.phase)]
    rfl
  · rw [tape_opened_of_ne heq]

theorem tape_answered_of_ne (hne : c.tape ≠ q) : (c.answered w x p).tape q = w.tape q := by
  cases c with
  | read r | pull s r => exact World.tape_recorded_of_ne x hne

theorem tape_answered_self (hlt : c.tape.id < w.tapes.size) :
    (c.answered w x p).tape c.tape = (w.tape c.tape).recorded x p := by
  cases c with
  | read r | pull s r => exact World.tape_recorded_self x hlt

@[simp] theorem tapes_size_answered : (c.answered w x p).tapes.size = w.tapes.size := by
  cases c <;> simp [answered]

@[simp] theorem host_answered : (c.answered w x p).host = w.host := by cases c <;> rfl

end Call

/-! ### Scenes -/

/-- Something that has begun and not ended, with the world in which it began and the depth
    of the engine that is to come to its end. -/
inductive Visit (H : Host) where
  | call (c : Call) (p : Producer H) (opened : World H) (depth : Nat)
  /-- A call of an iterator of the host that no tape is made of yet. -/
  | ahead (s : H.Source) (opened : World H) (depth : Nat)

def Visit.call? : Visit H → Option Call
  | .call c _ _ _ => some c
  | .ahead _ _ _ => none

/-- A world, and what has not ended in it, the latest first. -/
structure Scene (H : Host) where
  world : World H
  visits : List (Visit H)

/-- Neither begins nor ends anything that an answer is owed to. -/
def Deed.IsAside : Deed H → Prop
  | .drive _ _ | .answer _ _ _ | .pull _ _ _ | .settle _ _ _ _ | .ahead _ | .cameAhead => False
  | _ => True

/-- A reader that makes a call stands at the end of the log. -/
def Deed.Stands (w : World H) : Deed H → Prop
  | .drive r _ | .pull _ r _ => r.position = (w.tape r.tape).log.size
  | _ => True

namespace Scene

def moment (σ : Scene H) : Moment H := ⟨σ.world, σ.visits.filterMap Visit.call?⟩

variable {σ σ' σ'' : Scene H} {visits : List (Visit H)} {d : Deed H} {past past' : List (Deed H)}

inductive Does (B : Behavior H) : Scene H → Deed H → Scene H → Prop
  | aside {w w' : World H} {visits : List (Visit H)} {d : Deed H} : d.IsAside →
      Moment.Does (moment ⟨w, visits⟩) d (moment ⟨w', visits⟩) → Does B ⟨w, visits⟩ d ⟨w', visits⟩
  | begins {w : World H} {p : Producer H} (visits : List (Visit H)) (c : Call) (depth : Nat) :
      c.Begins w p →
      Does B ⟨w, visits⟩ (c.begun p) ⟨c.opened w, .call c p (c.opened w) depth :: visits⟩
  /-- The answer is what the engine gives in the world in which the producer was called. -/
  | returns {u w : World H} {x : Option Item} {p p' : Producer H} (visits : List (Visit H))
      (c : Call) (depth : Nat) :
      (Engine.next (.ofBehavior B depth) p).run u = .ok ((x, p'), w) →
      Does B ⟨w, .call c p u depth :: visits⟩ (c.returned x p') ⟨c.answered w x p', visits⟩
  | ahead (w : World H) (visits : List (Visit H)) (s : H.Source) (depth : Nat) :
      Does B ⟨w, visits⟩ (.ahead s) ⟨w, .ahead s w depth :: visits⟩
  | cameAhead {u w : World H} {y : Option (Outcome (External H.Source)) × H.Source}
      (visits : List (Visit H)) (s : H.Source) (depth : Nat) :
      (Engine.pull (.ofBehavior B depth) s).run u = .ok (y, w) →
      Does B ⟨w, .ahead s u depth :: visits⟩ .cameAhead ⟨w, visits⟩

/-- The deeds, the latest first, by which one scene leads to another. -/
inductive Course (B : Behavior H) (σ : Scene H) : List (Deed H) → Scene H → Prop
  | here : Course B σ [] σ
  | next {past : List (Deed H)} {σ' σ'' : Scene H} {d : Deed H} :
      Course B σ past σ' → Does B σ' d σ'' → Course B σ (d :: past) σ''

theorem Does.steps (h : Does B σ d σ') : σ.moment.Steps σ'.moment := by
  cases h with
  | aside _ hdoes => exact hdoes.steps
  | begins visits c depth hbegins => exact (hbegins.step _).steps
  | returns visits c depth hrun => exact (c.step_answered _ _ _).steps
  | ahead | cameAhead => exact .refl _

/-- Where a reader stands at the end of the log when it makes a call, what is done is a deed
    of the moment. -/
theorem Does.does (h : Does B σ d σ') (hd : d.Stands σ.world) : σ.moment.Does d σ'.moment := by
  cases h with
  | aside _ hdoes => exact hdoes
  | begins visits c depth hbegins =>
    cases c with
    | read r | pull s r => exact hbegins.does hd _
  | returns visits c depth hrun => exact c.does_answered _ _ _ _
  | ahead w visits s depth => exact .ahead w _ s
  | cameAhead visits s depth hrun => exact .cameAhead _ _

theorem Course.steps (h : Course B σ past σ') : σ.moment.Steps σ'.moment := by
  induction h with
  | here => exact .refl _
  | next _ hdoes ih => exact ih.trans hdoes.steps

theorem Course.trans (h : Course B σ past σ') (h' : Course B σ' past' σ'') :
    Course B σ (past' ++ past) σ'' := by
  induction h' with
  | here => exact h
  | next _ hdoes ih => exact ih.next hdoes

end Scene

/-! ### All that an engine does -/

/-- One world leads to another by deeds that end all that they begin, whatever has not ended
    before. -/
def World.Unfolds (B : Behavior H) (w w' : World H) : Prop :=
  ∀ visits : List (Visit H), ∃ past, Scene.Course B ⟨w, visits⟩ past ⟨w', visits⟩

namespace World.Unfolds

theorem refl (w : World H) : w.Unfolds B w := fun _ => ⟨[], .here⟩

theorem trans (h : w.Unfolds B v) (h' : v.Unfolds B w') : w.Unfolds B w' := by
  intro visits
  obtain ⟨past, hpast⟩ := h visits
  obtain ⟨past', hpast'⟩ := h' visits
  exact ⟨past' ++ past, hpast.trans hpast'⟩

theorem aside {d : Deed H} (hd : d.IsAside)
    (hdoes : ∀ calls : List Call, Moment.Does ⟨w, calls⟩ d ⟨w', calls⟩) : w.Unfolds B w' :=
  fun _ => ⟨[d], Scene.Course.here.next (.aside hd (hdoes _))⟩

end World.Unfolds

section Acts

variable (hE : (Engine.ofBehavior B depth).Within (World.Unfolds B))
include hE

/-- A call, what is done while it runs, and its answer. -/
theorem Call.unfolds (hbegins : c.Begins w p)
    (hrun : (Engine.next (.ofBehavior B depth) p).run (c.opened w) = .ok ((x, p'), v)) :
    w.Unfolds B (c.answered v x p') := by
  intro visits
  obtain ⟨past, hpast⟩ := hE.next p hrun (.call c p (c.opened w) depth :: visits)
  have hcall := Scene.Course.here.next (Scene.Does.begins (B := B) visits c depth hbegins)
  exact ⟨_, (hcall.trans hpast).next (.returns visits c depth hrun)⟩

theorem Reader.Reads.unfolds {r r' : Reader}
    (h : r.Reads (.ofBehavior B depth) w x r' w') : w.Unfolds B w' := by
  cases h with
  | logged | paused => exact .refl _
  | drove p p' x v hlog hphase hnext =>
    exact Call.unfolds hE (c := .read r) ⟨hlog, hphase⟩ hnext

theorem Sequence.Advances.unfolds {s : Sequence} {y : Outcome (Option Value)}
    (h : s.Advances (.ofBehavior B depth) w y w') : w.Unfolds B w' := by
  cases h with
  | failed | still => exact .refl _
  | pulled r r' x v hfailure hbusy hreader hreads =>
    cases hreads with
    | logged item hlog =>
      rw [World.settled_waiting]
      exact .aside (d := .take s r (some item)) trivial fun calls =>
        .take w calls s r (some item) hfailure hbusy hreader hlog nofun
    | paused hlog hphase =>
      rw [World.settled_waiting]
      exact .aside (d := .take s r none) trivial fun calls =>
        .take w calls s r none hfailure hbusy hreader hlog fun _ => hphase
    | drove p p' x v hlog hphase hnext =>
      exact Call.unfolds hE (c := .pull s r) ⟨hfailure, hbusy, hreader, hlog, hphase⟩ hnext

theorem Engine.Moves.unfolds (h : (Engine.ofBehavior B depth).Moves w w') :
    w.Unfolds B w' := by
  induction h with
  | refl w => exact .refl w
  | trans _ _ ih ih' => exact ih.trans ih'
  | host w h => exact .aside (d := .host) trivial fun calls => .host w calls h
  | limit w limit => exact .aside (d := .limit) trivial fun calls => .limit w calls limit
  | displayLength w length =>
    exact .aside (d := .displayLength) trivial fun calls => .displayLength w calls length
  | onto p h =>
    cases h
    exact .aside (d := .onto p) trivial fun calls => .onto _ calls p
  | adopt p infinite h =>
    cases h
    exact .aside (d := .adopt p infinite) trivial fun calls => .adopt _ calls p infinite
  | overwrite w s position v =>
    exact .aside (d := .overwrite s position v) trivial fun calls =>
      .overwrite w calls s position v
  | next r h => exact (Reader.run_next_iff.mp h).unfolds hE
  | advance s h => exact (Sequence.run_advance_iff.mp h).unfolds hE
  | pull s h => exact hE.pull s h
  | test t v h => exact hE.test t v h

end Acts

end MemoSeq
