/-
  MemoSeq/Proofs/Endings/Turns.lean
  ==================================
  **Runs as one tape sees them.**

  Code that a producer runs may ask for what is made of the producer's own tape.  Such a
  reader finds the tape at work and goes without an item, and whoever takes this for the
  end of the tape is mistaken.  The steps of `Moment.Step` do not tell the two apart, since
  they leave open what a producer answers.

  So a run is told here from a single tape (`Moment.Turns`).  A call of its producer is one
  turn, with the answer that the engine comes to; whatever else is done is left open as
  before.  Of each call it is asked that some other tapes, the sources, be at rest when it
  begins.

  With no sources, all that an engine does is such a run.  So it is with sources whose
  producers give fixed values and run nothing meanwhile, whatever other producers run
  (`Engine.moves_turns`).
-/
import MemoSeq.Proofs.Provision.Steady
import MemoSeq.Proofs.Scenes

namespace MemoSeq

variable {H : Host} {B : Behavior H} {E : Engine H} {u q : Tape} {sources : List Tape}
variable {calls : List Call} {x : Option Item} {p p' : Producer H} {depth : Nat}
variable {w w' v : World H} {m m' : Moment H} {c : Call}

/-! ### Turns -/

/-- None of these tapes is at work. -/
def World.AtRest (sources : List Tape) (w : World H) : Prop :=
  ∀ q ∈ sources, (w.tape q).phase ≠ .running

namespace Moment

/-- How one moment leads to the next, for the tape `u`: something is done that leaves it as
    it is, or its producer is called while the sources are at rest, and answers. -/
inductive Turn (B : Behavior H) (u : Tape) (sources : List Tape) : Moment H → Moment H → Prop
  | aside {m m' : Moment H} : m.Step m' → m'.world.tape u = m.world.tape u →
      Turn B u sources m m'
  | call {w v : World H} {calls : List Call} {x : Option Item} {p p' : Producer H}
      (c : Call) (depth : Nat) : c.tape = u → (w.tape u).phase = .idle p → w.AtRest sources →
      Step ⟨w, calls⟩ ⟨c.opened w, c :: calls⟩ →
      (Engine.next (.ofBehavior B depth) p).run (c.opened w) = .ok ((x, p'), v) →
      Turn B u sources ⟨w, calls⟩ ⟨c.answered v x p', calls⟩

def Turns (B : Behavior H) (u : Tape) (sources : List Tape) : Moment H → Moment H → Prop :=
  Relation.ReflTransGen (Turn B u sources)

theorem Turn.turns (h : Turn B u sources m m') : Turns B u sources m m' := .single h

theorem Turn.steps (hB : B.Lawful) (h : Turn B u sources m m') : m.Steps m' := by
  cases h with
  | aside hstep _ => exact hstep.steps
  | call c depth _ _ _ hopens hrun =>
    have hwithin := (Engine.ofBehavior_leads hB depth).next _ hrun
    exact (hopens.steps.trans (hwithin _)).trans (c.step_answered _ _ _).steps

theorem Turns.steps (hB : B.Lawful) (h : Turns B u sources m m') : m.Steps m' := by
  induction h with
  | refl => exact .refl _
  | tail _ hturn ih => exact ih.trans (hturn.steps hB)

end Moment

/-! ### All that an engine does -/

/-- The producer of the tape gives fixed values and runs nothing meanwhile. -/
def World.Streamed (B : Behavior H) (q : Tape) (w : World H) : Prop :=
  ∃ items stage, B.Streams items stage ∧ (Provision.streamed items stage).Stocks q w

namespace World.Streamed

theorem of_tape (h : w.Streamed B q) (hsize : w.tapes.size ≤ w'.tapes.size)
    (htape : w'.tape q = w.tape q) : w'.Streamed B q := by
  obtain ⟨items, stage, hS, hstocks⟩ := h
  exact ⟨items, stage, hS, hstocks.of_tape (Nat.lt_of_lt_of_le hstocks.tape_lt hsize) htape⟩

theorem phase_ne_running (h : w.Streamed B q) : (w.tape q).phase ≠ .running := by
  obtain ⟨items, stage, -, hstocks⟩ := h
  intro hrunning
  have hphase := hstocks.phase
  simp only [hrunning] at hphase

/-- Driven in any world, the producer changes nothing but the state of the host. -/
theorem drives (h : w.Streamed B q) (hphase : (w.tape q).phase = .idle p)
    (hrun : (Engine.next (.ofBehavior B depth) p).run v = .ok ((x, p'), w')) :
    ∃ host, w' = { v with host } := by
  obtain ⟨items, stage, hS, hstocks⟩ := h
  have hstage : stage (w.tape q).log.size p := by
    have hstocked := hstocks.phase
    simp only [hphase] at hstocked
    exact hstocked
  exact (hS.next_of_run hstage hrun).2.1

theorem moves (hB : B.Lawful) (h : w.Streamed B q)
    (hmoves : (Engine.ofBehavior B depth).Moves w w') : w'.Streamed B q := by
  obtain ⟨items, stage, hS, hstocks⟩ := h
  exact ⟨items, stage, hS, (Engine.moves_restocks hB hS hmoves hstocks).1⟩

end World.Streamed

/-- The tape is there, and its sources do nothing but give fixed values. -/
structure World.Undisturbed (B : Behavior H) (u : Tape) (sources : List Tape) (w : World H) :
    Prop where
  tape_lt : u.id < w.tapes.size
  streamed : ∀ q ∈ sources, w.Streamed B q

namespace World.Undisturbed

theorem atRest (h : w.Undisturbed B u sources) : w.AtRest sources :=
  fun q hq => (h.streamed q hq).phase_ne_running

theorem moves (hB : B.Lawful) (h : w.Undisturbed B u sources)
    (hmoves : (Engine.ofBehavior B depth).Moves w w') : w'.Undisturbed B u sources where
  tape_lt := by
    have hleads := hmoves.leads (Engine.ofBehavior_leads hB depth)
    exact Nat.lt_of_lt_of_le h.tape_lt hleads.tapes_size_le
  streamed q hq := (h.streamed q hq).moves hB hmoves

theorem opened (h : w.Undisturbed B u sources) (hsource : c.tape ∉ sources) :
    (c.opened w).Undisturbed B u sources where
  tape_lt := by simpa using h.tape_lt
  streamed q hq := (h.streamed q hq).of_tape (by simp)
    (Call.tape_opened_of_ne fun heq => hsource (heq ▸ hq))

end World.Undisturbed

/-- Whatever has been done is a run as the tape sees it. -/
def World.Turns (B : Behavior H) (u : Tape) (sources : List Tape) (w w' : World H) : Prop :=
  w.Undisturbed B u sources → ∀ calls, Moment.Turns B u sources ⟨w, calls⟩ ⟨w', calls⟩

section Turns

variable (hE : (Engine.ofBehavior B depth).Within (World.Turns B u sources))
include hE

/-- A call is one turn if it is one of the tape.  If it is one of a source, nothing is done
    within it; if it is one of another tape, what is done within it is a run in turn. -/
theorem Call.turns (h : w.Undisturbed B u sources) (hphase : (w.tape c.tape).phase = .idle p)
    (hopens : Moment.Step ⟨w, calls⟩ ⟨c.opened w, c :: calls⟩)
    (hrun : (Engine.next (.ofBehavior B depth) p).run (c.opened w) = .ok ((x, p'), v)) :
    Moment.Turns B u sources ⟨w, calls⟩ ⟨c.answered v x p', calls⟩ := by
  by_cases hself : c.tape = u
  · exact (Moment.Turn.call c depth hself (hself ▸ hphase) h.atRest hopens hrun).turns
  · have hwithin : Moment.Turns B u sources ⟨c.opened w, c :: calls⟩ ⟨v, c :: calls⟩ := by
      by_cases hsource : c.tape ∈ sources
      · obtain ⟨host, rfl⟩ := (h.streamed _ hsource).drives hphase hrun
        exact (Moment.Turn.aside (.host _ _ host) rfl).turns
      · exact hE.next p hrun (h.opened hsource) (c :: calls)
    have hbegins : Moment.Turn B u sources ⟨w, calls⟩ ⟨c.opened w, c :: calls⟩ :=
      .aside hopens (Call.tape_opened_of_ne hself)
    have hends : Moment.Turn B u sources ⟨v, c :: calls⟩ ⟨c.answered v x p', calls⟩ :=
      .aside (c.step_answered v x p') (Call.tape_answered_of_ne hself)
    exact (hbegins.turns.trans hwithin).trans hends.turns

theorem Reader.Reads.turns {r r' : Reader} (h : r.Reads (.ofBehavior B depth) w x r' w') :
    World.Turns B u sources w w' := by
  intro hw calls
  cases h with
  | logged | paused => exact .refl
  | drove p p' x v hlog hphase hnext =>
    exact Call.turns hE (c := .read r) hw hphase (.drive w calls r p hlog hphase) hnext

theorem Sequence.Advances.turns {s : Sequence} {y : Outcome (Option Value)}
    (h : s.Advances (.ofBehavior B depth) w y w') : World.Turns B u sources w w' := by
  intro hw calls
  cases h with
  | failed | still => exact .refl
  | pulled r r' x v hfailure hbusy hreader hreads =>
    cases hreads with
    | logged item hlog =>
      rw [World.settled_waiting]
      exact (Moment.Turn.aside (.take w calls s r (some item) hfailure hbusy hreader hlog nofun)
        rfl).turns
    | paused hlog hphase =>
      rw [World.settled_waiting]
      exact (Moment.Turn.aside (.take w calls s r none hfailure hbusy hreader hlog fun _ => hphase)
        rfl).turns
    | drove p p' x v hlog hphase hnext =>
      exact Call.turns hE (c := .pull s r) hw hphase
        (.pull w calls s r p hfailure hbusy hreader hlog hphase) hnext

theorem Engine.Moves.turns (hB : B.Lawful) (h : (Engine.ofBehavior B depth).Moves w w') :
    World.Turns B u sources w w' := by
  induction h with
  | refl => exact fun _ _ => .refl
  | trans hfirst _ ih ih' =>
    exact fun hw calls => (ih hw calls).trans (ih' (hw.moves hB hfirst) calls)
  | host w h => exact fun _ calls => (Moment.Turn.aside (.host w calls h) rfl).turns
  | limit w limit => exact fun _ calls => (Moment.Turn.aside (.limit w calls limit) rfl).turns
  | displayLength w length =>
    exact fun _ calls => (Moment.Turn.aside (.displayLength w calls length) rfl).turns
  | onto p h =>
    cases h
    exact fun hw calls =>
      (Moment.Turn.aside (.onto _ calls p) (World.tape_withTape_of_lt p hw.tape_lt)).turns
  | adopt p infinite h =>
    cases h
    exact fun hw calls => (Moment.Turn.aside (.adopt _ calls p infinite)
      (World.tape_withTape_of_lt p hw.tape_lt)).turns
  | overwrite w s position v =>
    exact fun _ calls => (Moment.Turn.aside (.overwrite w calls s position v) rfl).turns
  | next r h => exact (Reader.run_next_iff.mp h).turns hE
  | advance s h => exact (Sequence.run_advance_iff.mp h).turns hE
  | pull s h => exact hE.pull s h
  | test t v h => exact hE.test t v h

end Turns

/-- Whatever an engine does is a run as any tape sees it, with the sources at rest at its
    calls if they do nothing but give fixed values. -/
theorem Engine.moves_turns (hB : B.Lawful) (hw : w.Undisturbed B u sources)
    (h : (Engine.ofBehavior B depth).Moves w w') (calls : List Call) :
    Moment.Turns B u sources ⟨w, calls⟩ ⟨w', calls⟩ :=
  h.turns (Engine.ofBehavior_within hB (fun _ hE _ _ h => h.turns hE hB) depth) hB hw calls

end MemoSeq
