/-
  MemoSeq/Proofs/Endings/Exhausted.lean
  ======================================
  **What an exhausted sequence is the whole of.**

  A sequence that is exhausted and has not failed has all that its own producer gave, and
  that producer has reported its end (first part of `Sequence.whole_when_exhausted`).  A pull
  that comes upon the sequence's own tape at work does not exhaust it.

  Whether the end that a derived producer reports is that of what it is made of is another
  question.  A reader that finds a tape at work gets no item, as at its end, and a filter, a
  concatenation, a slice or a branch of the tape take it for the end.  So the other parts ask
  that no call of the derived producer begin while one of its sources is at work.  Then it
  does not matter what else is run by the sources, by the predicate and by others, nor in
  which calls.

  The condition is needed: `cut_short_at_work` is a session in which the source of a tape
  advances a sequence over a branch of that tape.
-/
import MemoSeq.Proofs.Endings.Production
import MemoSeq.Proofs.Plain
import MemoSeq.Proofs.Views.Overwrites

namespace MemoSeq

variable {H : Host} {B : Behavior H} {sources : List Tape} {base : Moment H → Prop}
variable {fits : List Value → Producer H → World H → Prop} {whole : List Value → World H → Prop}
variable {calls : List Call} {s r d : Sequence} {t q u : Tape} {p : Producer H} {infinite : Bool}
variable {w v : World H} {m : Moment H} {values : List Value}

/-- A sequence is exhausted, has neither failed nor been overwritten, and has these values. -/
structure SequenceState.Exhausts (c : SequenceState) (values : List Value) : Prop where
  exhausted : c.isExhausted = true
  unfailed : c.failure = none
  clean : c.overwritten = []
  cached : c.cache.toList = values

instance (c : SequenceState) : Decidable (c.Exhausts values) :=
  decidable_of_iff
    (c.isExhausted = true ∧ c.failure = none ∧ c.overwritten = [] ∧ c.cache.toList = values)
    ⟨fun ⟨h₁, h₂, h₃, h₄⟩ => ⟨h₁, h₂, h₃, h₄⟩,
      fun h => ⟨h.exhausted, h.unfailed, h.clean, h.cached⟩⟩

/-- An exhausted sequence has all values of the tape that it draws from. -/
theorem Moment.Draws.gave (h : m.Draws s t) (hexhausts : (m.world.sequence s).Exhausts values) :
    (m.world.tape t).Gave 0 values := by
  obtain ⟨hended, hcache, hlog⟩ := h.exhausted hexhausts.exhausted
  rw [hexhausts.unfailed] at hlog
  refine ⟨hended, ?_⟩
  rw [List.drop_zero, hlog, ← hexhausts.cached, hcache,
    SequenceState.contents_of_clean hexhausts.clean]

/-- A sequence that was made over a producer that concludes is the whole of what that is made
    of when it is exhausted. -/
theorem Behavior.Concludes.of_exhausts (hC : B.Concludes sources base fits whole) (hB : B.Lawful)
    (hreached : Moment.Reached ⟨w, calls⟩) (hsources : w.freshTape ∉ sources)
    (hbase : base ⟨w, calls⟩) (hfits : fits [] p (w.withSequence p infinite))
    (hturns : Moment.Turns B w.freshTape sources ⟨w.withSequence p infinite, calls⟩ m)
    (hexhausts : (m.world.sequence w.freshSequence).Exhausts values) :
    whole values m.world := by
  have hadopts := (Moment.Step.adopt w calls p infinite).steps
  have hcarries := hturns.carries hB hC hsources (hC.base_steps hbase hadopts) (.made hfits)
  have hdraws := (hreached.draws_of_made rfl (hturns.steps hB)).2
  obtain ⟨hended, hlog⟩ := hdraws.gave hexhausts
  exact hcarries.ended hended values hlog

/-- At some moment a sequence `d` is made of the sequences `s` and `r`, which draw from the
    tapes `t` and `q` and may themselves be made of others, or of a branch `b` of a tape.  Later
    on it is exhausted and has not failed, and none of the three has been overwritten.  Then,
    whatever was done meanwhile and within whatever calls,

    - over any producer, that has reported its end and the values of `d` are all that it gave.

    If moreover no call of the producer of `d` began while a tape was at work that it is made
    of, these tapes have ended without a failure, and the values of `d` are

    - for a filter, all values of the one tape that pass;
    - for a concatenation, all values of the one tape, then all of the other, if the left
      sequence was not waiting for its own tape when it was made;
    - for a slice without a stop, the stride over all values of the tape;
    - for a branch, all values of its tape from the position of the branch on. -/
theorem Sequence.whole_when_exhausted (hB : B.Lawful) (hreached : Moment.Reached ⟨w, calls⟩)
    (hs : Moment.Draws ⟨w, calls⟩ s t) (hr : Moment.Draws ⟨w, calls⟩ r q) {b : Reader}
    (hb : b.Stands w) (hexhausts : (m.world.sequence d).Exhausts values)
    (hcleanS : (m.world.sequence s).overwritten = [])
    (hcleanR : (m.world.sequence r).overwritten = []) :
    (∀ p infinite, (adopt p infinite).run w = .ok (d, v) → Moment.Steps ⟨v, calls⟩ m →
      (m.world.tape w.freshTape).Gave 0 values) ∧
    (∀ test holds, B.Accepts test holds → (s.filter test).run w = .ok (d, v) →
      Moment.Turns B w.freshTape [t] ⟨v, calls⟩ m →
      ∃ all, (m.world.tape t).Gave 0 all ∧ values = all.filter holds) ∧
    ((s.append r).run w = .ok (d, v) → (w.sequence s).busy = false →
      Moment.Turns B w.freshTape [t, q] ⟨v, calls⟩ m →
      ∃ all all', (m.world.tape t).Gave 0 all ∧ (m.world.tape q).Gave 0 all' ∧
        values = all ++ all') ∧
    (∀ E start step, (s.slice E start none step).run.run w = .ok (.ok (.lazy d), v) →
      Moment.Turns B w.freshTape [t] ⟨v, calls⟩ m →
      ∃ all, (m.world.tape t).Gave 0 all ∧
        values = stride all.toArray (start.getD 0) (Plain.stepOf step)) ∧
    (∀ infinite, (adopt (.reader b) infinite).run w = .ok (d, v) →
      Moment.Turns B w.freshTape [b.tape] ⟨v, calls⟩ m →
      (m.world.tape b.tape).Gave b.position values) := by
  have hm := hreached.ordered
  have hnew {q : Tape} (hq : q.id < w.tapes.size) : w.freshTape ≠ q := fun heq =>
    Nat.ne_of_gt hq (congrArg Tape.id heq)
  refine ⟨fun p infinite hmade hsteps => ?_, fun test holds htest hmade hturns => ?_,
    fun hmade hbusy hturns => ?_, fun E start step hmade hturns => ?_,
    fun infinite hmade hturns => ?_⟩
  · exact (hreached.draws_of_made hmade hsteps).2.gave hexhausts
  · cases hmade
    obtain ⟨all, hall, hvalues⟩ := (Behavior.concludes_filters hB htest).of_exhausts hB hreached
      (by simpa using hnew hs.tape_lt) ⟨hm, by simpa using hs⟩ (.inl ⟨rfl, rfl⟩) hturns hexhausts
    exact ⟨all, hall hcleanS, hvalues⟩
  · cases hmade
    -- the iteration over the left sequence was opened when the two were joined
    have hopened := (Iteration.Shown.opened hs hbusy).steps hm hs (Moment.Step.adopt w calls
      (.joined (some (w.iteration s)) (.pending r))
      ((w.sequence s).infinite || (w.sequence r).infinite)).steps
    obtain ⟨all, all', hall, hall', hvalues⟩ := (Behavior.concludes_joins hB).of_exhausts hB
      hreached (by simp [hnew hs.tape_lt, hnew hr.tape_lt]) ⟨hm, by simp [hs, hr]⟩
      (.inl ⟨_, rfl, hopened⟩) hturns hexhausts
    exact ⟨all, all', hall hcleanS, hall' hcleanR, hvalues⟩
  · rw [slice_eq] at hmade
    cases hmade
    obtain ⟨all, hall, hvalues⟩ := (Behavior.concludes_slices hB).of_exhausts hB hreached
      (by simpa using hnew hs.tape_lt) ⟨hm, by simpa using hs⟩ (.inl ⟨rfl, rfl⟩) hturns hexhausts
    exact ⟨all, hall hcleanS, hvalues⟩
  · cases hmade
    -- a branch has no sequence of its own to open: its tape is as it was when it was adopted
    have hsame : (w.withTape (.reader b)).tape b.tape = w.tape b.tape :=
      World.tape_withTape_of_lt _ hb.tape
    refine (Behavior.concludes_forwards hB).of_exhausts hB hreached (by simpa using hnew hb.tape)
      ⟨hm, hb.tape⟩ ⟨rfl, TapeState.begins_nil _ _, ?_⟩ hturns hexhausts
    simpa [hsame] using hb.position

namespace Session

/-- A sequence of three numbers that has a name. -/
def named : World host :=
  after (step (engine 8) (.newValues "L" [.int 1, .int 2, .int 3])) start

/-- Another one has been made besides, and the first has been advanced once. -/
def namedTwo : World host :=
  after (step (engine 8) (.advance "L" none))
    (after (step (engine 8) (.newValues "R" [.int 4])) named)

/-- A sequence that is made over a producer then, and forced as a whole. -/
def forced (p : Producer host) : World host :=
  after (Sequence.materialize (engine 8) ⟨2⟩).run (namedTwo.withSequence p false)

theorem after_step_moves (steps : Step) (w : World host) :
    (engine 8).Moves w (after (step (engine 8) steps) w) :=
  after_moves (step_moves _ _) w

/-- A predicate that lets everything pass, whatever it runs before. -/
theorem accepts_after (steps : List Step) : behavior.Accepts (.after steps) fun _ => true := by
  intro depth v w b w' hrun
  cases depth with
  | zero => exact (Act.run_starve_eq_ok.mp hrun).elim
  | succ depth =>
    rcases Attempt.run_bind_eq_ok.mp hrun with ⟨x, u, -, hrest⟩ | ⟨e, -, hb⟩
    · exact Except.ok.inj (Attempt.run_pure_eq_ok.mp hrest).1
    · cases hb

theorem reached_namedTwo : Moment.Reached ⟨namedTwo, []⟩ :=
  ⟨default, Engine.moves_steps behavior_lawful
    (.trans (after_step_moves _ start) (.trans (after_step_moves _ _) (after_step_moves _ _))) []⟩

/-- Both sequences draw from tapes of their own, whose producers nothing disturbs. -/
theorem draws_namedTwo :
    (Moment.Draws ⟨namedTwo, []⟩ ⟨0⟩ ⟨0⟩ ∧ namedTwo.Streamed behavior ⟨0⟩) ∧
      Moment.Draws ⟨namedTwo, []⟩ ⟨1⟩ ⟨1⟩ ∧ namedTwo.Streamed behavior ⟨1⟩ := by
  have hscalar : ∀ v ∈ [Value.int 1, .int 2, .int 3], v.asList? = none := by decide
  have hscalar' : ∀ v ∈ [Value.int 4], v.asList? = none := by decide
  have hfirst : (engine 8).Moves overThree namedTwo := .trans (.host overThree named.host)
    (.trans (after_step_moves _ _) (after_step_moves _ _))
  have hsecond : (engine 8).Moves (named.withSequence (.values [.int 4]) false) namedTwo :=
    .trans (.host _ (after (step (engine 8) (.newValues "R" [.int 4])) named).host)
      (after_step_moves _ _)
  have hstart : Moment.Reached ⟨start, []⟩ := ⟨default, .refl _⟩
  have hnamed : Moment.Reached ⟨named, []⟩ :=
    ⟨default, Engine.moves_steps behavior_lawful (after_step_moves _ start) []⟩
  have hmade : (Sequence.adopt (.values [.int 1, .int 2, .int 3]) false).run start =
      .ok (⟨0⟩, overThree) := rfl
  have hmade' : (Sequence.adopt (.values [.int 4]) false).run named =
      .ok (⟨1⟩, named.withSequence (.values [.int 4]) false) := rfl
  refine ⟨⟨?_, _, _, .values hscalar, ?_⟩, ?_, _, _, .values hscalar', ?_⟩
  · exact (hstart.draws_of_made hmade (Engine.moves_steps behavior_lawful hfirst [])).2
  · exact (Sequence.supplies_of_made behavior_lawful (.values hscalar) rfl hstart hmade
      hfirst).toStocks
  · exact (hnamed.draws_of_made hmade' (Engine.moves_steps behavior_lawful hsecond [])).2
  · exact (Sequence.supplies_of_made behavior_lawful (.values hscalar') rfl hnamed hmade'
      hsecond).toStocks

/-- Forcing a third one, no call of its producer begins while those tapes are at work. -/
theorem turns_forced (p : Producer host) {sources : List Tape}
    (hsources : ∀ q ∈ sources, q = ⟨0⟩ ∨ q = ⟨1⟩) :
    Moment.Turns behavior namedTwo.freshTape sources ⟨namedTwo.withSequence p false, []⟩
      ⟨forced p, []⟩ := by
  obtain ⟨⟨-, hstreamed⟩, -, hstreamed'⟩ := draws_namedTwo
  have hadopt : (engine 8).Moves namedTwo (namedTwo.withSequence p false) := .adopt p false rfl
  refine Engine.moves_turns behavior_lawful ⟨by simp [World.freshTape], fun q hq => ?_⟩
    (after_moves (Sequence.materialize_moves _ _) _) []
  rcases hsources q hq with rfl | rfl
  · exact hstreamed.moves behavior_lawful hadopt
  · exact hstreamed'.moves behavior_lawful hadopt

/-- The predicate of the filter forces the sequence that it filters.  The branch is one behind
    the first number. -/
theorem whole_when_exhausted_namedTwo :
    (∃ all, ((forced (.filtered (.after [.materialize "L"]) (.pending ⟨0⟩))).tape ⟨0⟩).Gave 0 all ∧
      [.int 1, .int 2, .int 3] = all.filter fun _ => true) ∧
    (∃ all all', ((forced (.joined (some (namedTwo.iteration ⟨0⟩)) (.pending ⟨1⟩))).tape ⟨0⟩).Gave 0
      all ∧ ((forced (.joined (some (namedTwo.iteration ⟨0⟩)) (.pending ⟨1⟩))).tape ⟨1⟩).Gave 0
      all' ∧ [.int 1, .int 2, .int 3, .int 4] = all ++ all') ∧
    (∃ all, ((forced (.strided (-1) (-2) (.pending ⟨0⟩))).tape ⟨0⟩).Gave 0 all ∧
      [.int 3, .int 1] = stride all.toArray (-1) (-2)) ∧
    ((forced (.reader ⟨⟨0⟩, 1⟩)).tape ⟨2⟩).Gave 0 [.int 2, .int 3] ∧
    ((forced (.reader ⟨⟨0⟩, 1⟩)).tape ⟨0⟩).Gave 1 [.int 2, .int 3] := by
  obtain ⟨⟨hs, -⟩, hr, -⟩ := draws_namedTwo
  have hfresh : namedTwo.freshSequence = ⟨2⟩ := by decide +kernel
  have hfinite : (namedTwo.sequence ⟨0⟩).infinite = false := by decide +kernel
  have hfinite' : (namedTwo.sequence ⟨1⟩).infinite = false := by decide +kernel
  have hidle : (namedTwo.sequence ⟨0⟩).busy = false := by decide +kernel
  have hadopt (p : Producer host) : (Sequence.adopt p false).run namedTwo =
      .ok (⟨2⟩, namedTwo.withSequence p false) := by
    rw [← hfresh]
    rfl
  have hwhole (p : Producer host) (values : List Value)
      (hexhausts : ((forced p).sequence ⟨2⟩).Exhausts values)
      (hclean : ((forced p).sequence ⟨0⟩).overwritten = [])
      (hclean' : ((forced p).sequence ⟨1⟩).overwritten = []) :=
    Sequence.whole_when_exhausted (m := ⟨forced p, []⟩) (v := namedTwo.withSequence p false)
      behavior_lawful reached_namedTwo hs hr (b := ⟨⟨0⟩, 1⟩) ⟨by decide +kernel, by decide +kernel⟩
      hexhausts hclean hclean'
  refine ⟨?_, ?_, ?_, ?_⟩
  · have hrun : (Sequence.filter (H := host) ⟨0⟩ (.after [.materialize "L"])).run namedTwo =
        .ok (⟨2⟩, namedTwo.withSequence
          (.filtered (.after [.materialize "L"]) (.pending ⟨0⟩)) false) := by
      rw [← hadopt, ← hfinite]
      rfl
    have hfilters := hwhole (.filtered (.after [.materialize "L"]) (.pending ⟨0⟩))
      [.int 1, .int 2, .int 3] (by decide +kernel) (by decide +kernel) (by decide +kernel)
    simpa only using hfilters.2.1 _ _ (accepts_after _) hrun (turns_forced _ (by simp))
  · have hneither : ((namedTwo.sequence ⟨0⟩).infinite || (namedTwo.sequence ⟨1⟩).infinite) =
        false := by rw [hfinite, hfinite', Bool.or_self]
    have hrun : (Sequence.append ⟨0⟩ ⟨1⟩).run namedTwo = .ok (⟨2⟩, namedTwo.withSequence
        (.joined (some (namedTwo.iteration ⟨0⟩)) (.pending ⟨1⟩)) false) := by
      rw [← hadopt, ← hneither]
      rfl
    have hjoins := hwhole (.joined (some (namedTwo.iteration ⟨0⟩)) (.pending ⟨1⟩))
      [.int 1, .int 2, .int 3, .int 4] (by decide +kernel) (by decide +kernel) (by decide +kernel)
    exact hjoins.2.2.1 hrun hidle (turns_forced _ (by simp))
  · have hslice (w : World host) :
        (Sequence.slice (engine 8) ⟨0⟩ (some (-1)) none (some (-2))).run.run w = .ok (.ok
          (.lazy w.freshSequence), w.withSequence (.strided (-1) (-2) (.pending ⟨0⟩)) false) := rfl
    have hrun := hslice namedTwo
    rw [hfresh] at hrun
    have hslices := hwhole (.strided (-1) (-2) (.pending ⟨0⟩)) [.int 3, .int 1]
      (by decide +kernel) (by decide +kernel) (by decide +kernel)
    have hgave := hslices.2.2.2.1 (engine 8) (some (-1)) (some (-2)) hrun
      (turns_forced _ (by simp))
    simpa only [Option.getD_some, show Plain.stepOf (some (-2)) = -2 from rfl] using hgave
  · have hforwards := hwhole (.reader ⟨⟨0⟩, 1⟩) [.int 2, .int 3] (by decide +kernel)
      (by decide +kernel) (by decide +kernel)
    have hturns : Moment.Turns behavior namedTwo.freshTape [⟨0⟩]
        ⟨namedTwo.withSequence (.reader ⟨⟨0⟩, 1⟩) false, []⟩ ⟨forced (.reader ⟨⟨0⟩, 1⟩), []⟩ :=
      turns_forced _ (by simp)
    exact ⟨hforwards.1 _ false (hadopt _) (hturns.steps behavior_lawful),
      hforwards.2.2.2.2 false (hadopt _) hturns⟩

/-- A producer of three numbers advances a sequence when it is asked for the second. -/
def teeing : List Step :=
  [.tee (.once [.term (.int 1),
      .hook [.advance "L" none, .advance "L" none] (.term (.int 2)), .term (.int 3)])
      "a" "b" (some "p"),
    .adoptBranch "b" "L" false]

/-- That sequence has just been made over the other branch of its tape. -/
def adoptedBranch : World host := after (teeing.mapM (step (engine 9))) start

/-- The tape is read along the first branch, to its end. -/
def cutShort : World host :=
  after ([.nextOfBranch "a", .nextOfBranch "a", .nextOfBranch "a", .nextOfBranch "a"].mapM
    (step (engine 9))) adoptedBranch

/-- Advanced for the second time while the tape is at work, the sequence takes that for the
    end: it is exhausted with one value for good, though three come from its position on. -/
theorem cut_short_at_work :
    (adoptedBranch.sequence ⟨0⟩).reader = some ⟨⟨1⟩, 0⟩ ∧
    adoptedBranch.tape ⟨1⟩ = ⟨#[], .idle (.reader ⟨⟨0⟩, 0⟩)⟩ ∧
    (cutShort.sequence ⟨0⟩).Exhausts [.int 1] ∧
    (cutShort.tape ⟨0⟩).Gave 0 [.int 1, .int 2, .int 3] := by
  refine ⟨by decide +kernel, rfl, by decide +kernel, ?_, ?_⟩
  all_goals decide +kernel

end Session

end MemoSeq
