/-
  MemoSeq/Proofs/Faithful.lean
  ============================
  **The cache of a sequence is a faithful copy of what its producer gave.**

  What a producer gave is read off the course of what was done since the sequence was made:
  each answer in it is what an engine gives for the producer, in the world in which it is
  called (`Scene.Does.returns`).  The statement is about every moment of every such course,
  so also about those within calls of the producer: whatever has been done to this and to
  other sequences, whichever iterations and derived sequences read the same tape, and
  whatever limits were in force.
-/
import MemoSeq.Proofs.Accounts
import MemoSeq.Proofs.Contents
import MemoSeq.Proofs.Session.Lawful

namespace MemoSeq

variable {H : Host} {B : Behavior H}

namespace Scene

variable {w w' : World H} {visits : List (Visit H)} {σ σ' : Scene H} {past past' : List (Deed H)}
variable {s : Sequence} {t : Tape} {x : Option Item} {p : Producer H} {c : Call} {depth n : Nat}

/-! ### What is told of a new tape -/

/-- Of the tape that is made next, nothing is told yet. -/
theorem Accounts.fresh (hw : (moment ⟨w, visits⟩).Ordered) (p : Producer H) (infinite : Bool) :
    Accounts [] ⟨w.withSequence p infinite, visits⟩ w.freshTape := by
  have hopen : w.freshTape ∉ (visits.filterMap Visit.call?).map Call.tape := by
    intro hmem
    have hrunning : (w.tape w.freshTape).phase = .running := (hw.running w.freshTape).mpr hmem
    have hlt := World.lt_of_phase_ne_ended (w := w) (t := w.freshTape) (by simp [hrunning])
    exact Nat.lt_irrefl _ hlt
  constructor <;> simp [callsOf, answersOf, hasReportedEnd, moment, List.count_eq_zero.mpr hopen]

/-- Whatever may come yet, each call of the producer on a tape is answered and no answer is
    a failure, and there are at most so many answers in all, its end among them. -/
structure Finite (B : Behavior H) (depth n : Nat) (t : Tape) (past : List (Deed H))
    (σ : Scene H) : Prop where
  answers : ∀ (later : List (Deed H)) (c : Call) (p : Producer H) (u : World H)
    (visits : List (Visit H)), σ.Course B later ⟨u, .call c p u depth :: visits⟩ → c.tape = t →
      ∃ y u', (Engine.next (.ofBehavior B depth) p).run u = .ok (y, u')
  unfailing : ∀ (later : List (Deed H)) (σ' : Scene H), σ.Course B later σ' →
    ∀ e, some (.error e) ∉ answersOf t (later ++ past)
  within : ∀ (later : List (Deed H)) (σ' : Scene H), σ.Course B later σ' →
    (answersOf t (later ++ past)).length ≤ n

namespace Finite

theorem course (h : Finite B depth n t past σ) (hcourse : σ.Course B past' σ') :
    Finite B depth n t (past' ++ past) σ' where
  answers later c p u visits hlater := h.answers _ c p u visits (hcourse.trans hlater)
  unfailing later σ'' hlater := by
    rw [← List.append_assoc]
    exact h.unfailing _ σ'' (hcourse.trans hlater)
  within later σ'' hlater := by
    rw [← List.append_assoc]
    exact h.within _ σ'' (hcourse.trans hlater)

/-- Outside of its calls, a sequence over a finite producer can be advanced. -/
theorem advances (h : Finite B depth n t past ⟨w, visits⟩)
    (hdraws : (moment ⟨w, visits⟩).Draws s t) (hopen : (w.tape t).phase ≠ .running) :
    ∃ y w', (s.advance (.ofBehavior B depth)).run.run w = .ok (y, w') := by
  cases hfailure : (w.sequence s).failure with
  | some e => exact ⟨_, w, Sequence.run_advance_iff.mpr (.failed e hfailure)⟩
  | none =>
    cases hbusy : (w.sequence s).busy with
    | true => exact ⟨_, w, Sequence.run_advance_iff.mpr (.still hfailure (.inl hbusy))⟩
    | false =>
      cases hreader : (w.sequence s).reader with
      | none => exact ⟨_, w, Sequence.run_advance_iff.mpr (.still hfailure (.inr hreader))⟩
      | some r =>
        obtain ⟨rfl, -, -⟩ := hdraws.mirrors.reading r hreader
        obtain ⟨x, r', v, hreads⟩ : ∃ x r' v, Reader.Reads (.ofBehavior B depth)
            ⟨t, (w.sequence s).cache.size⟩ (w.waiting s) x r' v := by
          cases hlog : (w.tape t).log[(w.sequence s).cache.size]? with
          | some item => exact ⟨_, _, _, .logged item hlog⟩
          | none =>
            cases hphase : (w.tape t).phase with
            | running => exact (hopen hphase).elim
            | ended =>
              exact ⟨_, _, _, .paused hlog fun p hidle => by cases hphase.symm.trans hidle⟩
            | idle p =>
              have hbegins : (Call.pull s ⟨t, (w.sequence s).cache.size⟩).Begins w p :=
                ⟨hfailure, hbusy, hreader, hlog, hphase⟩
              have hcall := Course.here.next (Does.begins (B := B) visits _ depth hbegins)
              obtain ⟨⟨x, p'⟩, v, hrun⟩ := h.answers _ _ p _ visits hcall rfl
              exact ⟨x, _, _, .drove p p' x v hlog hphase hrun⟩
        exact ⟨_, _, Sequence.run_advance_iff.mpr
          (.pulled _ r' x v hfailure hbusy hreader hreads)⟩

end Finite

end Scene

/-! ### Producers that are finite -/

namespace Producer

/-- Wherever the producer is called, the engine of this depth has an answer, and the answers
    of all engines are such. -/
def Answers (B : Behavior H) (depth : Nat) (p : Producer H)
    (such : Option Item → Producer H → Prop) : Prop :=
  (∀ u, ∃ y u', (Engine.next (.ofBehavior B depth) p).run u = .ok (y, u')) ∧
    ∀ d u x p' u', (Engine.next (.ofBehavior B d) p).run u = .ok ((x, p'), u') → such x p'

/-- Called time after time, a producer gives these values and then its end. -/
def RunsThrough (B : Behavior H) (depth : Nat) : List Value → Producer H → Prop
  | [], p => p.Answers B depth fun x _ => x = none
  | v :: rest, p => p.Answers B depth fun x p' => x = some (.ok v) ∧ RunsThrough B depth rest p'

theorem RunsThrough.returns {p : Producer H} {depth : Nat} {all : List Value}
    (h : p.RunsThrough B depth all) (u : World H) :
    ∃ y u', (Engine.next (.ofBehavior B depth) p).run u = .ok (y, u') := by
  cases all with
  | nil => exact h.1 u
  | cons => exact h.1 u

end Producer

namespace Scene

variable {w w' : World H} {visits : List (Visit H)} {σ σ' : Scene H} {past past' : List (Deed H)}
variable {t : Tape} {x : Option Item} {p : Producer H} {c : Call} {depth : Nat}

/-- The producer on a tape, be it idle or called, has still to give what is not in the log. -/
structure Streams (B : Behavior H) (depth : Nat) (values : List Value) (t : Tape)
    (σ : Scene H) : Prop where
  tape_lt : t.id < σ.world.tapes.size
  size_le : (σ.world.tape t).log.size ≤ values.length
  unfailing : ∀ (i : Nat) (e : Error), (σ.world.tape t).log[i]? ≠ some (.error e)
  idle : ∀ p, (σ.world.tape t).phase = .idle p →
    p.RunsThrough B depth (values.drop (σ.world.tape t).log.size)
  called : ∀ c p u d, .call c p u d ∈ σ.visits → c.tape = t →
    p.RunsThrough B depth (values.drop (σ.world.tape t).log.size)

namespace Streams

variable {values : List Value} {d : Deed H}

/-- The tape stays as it is, and no call of its producer begins. -/
theorem of_tape_eq (h : Streams B depth values t σ) (htape : σ'.world.tape t = σ.world.tape t)
    (hsize : σ.world.tapes.size ≤ σ'.world.tapes.size)
    (hvisits : ∀ c p u d, .call c p u d ∈ σ'.visits → c.tape = t → .call c p u d ∈ σ.visits) :
    Streams B depth values t σ' where
  tape_lt := Nat.lt_of_lt_of_le h.tape_lt hsize
  size_le := htape ▸ h.size_le
  unfailing := htape ▸ h.unfailing
  idle := htape ▸ h.idle
  called c p u d hmem hc := htape ▸ h.called c p u d (hvisits c p u d hmem hc) hc

theorem begins (h : Streams B depth values t ⟨w, visits⟩) (hbegins : c.Begins w p) (d : Nat) :
    Streams B depth values t ⟨c.opened w, .call c p (c.opened w) d :: visits⟩ := by
  by_cases hc : c.tape = t
  · subst hc
    have hlog := Call.log_opened hbegins c.tape
    have htape := Call.tape_opened_self (c := c) h.tape_lt
    refine ⟨by simpa using h.tape_lt, hlog ▸ h.size_le, hlog ▸ h.unfailing, ?_, ?_⟩
    · intro q hq
      rw [htape] at hq
      cases hq
    · intro c' q u d' hmem hc'
      rw [hlog]
      rcases List.mem_cons.mp hmem with heq | hmem
      · cases heq
        exact h.idle _ hbegins.phase
      · exact h.called c' q u d' hmem hc'
  · refine h.of_tape_eq (Call.tape_opened_of_ne hc) (by simp) fun c' q u d' hmem hc' => ?_
    rcases List.mem_cons.mp hmem with heq | hmem
    · cases heq
      exact (hc hc').elim
    · exact hmem

/-- The answer is the next of the values, or the end when all of them have been given. -/
theorem returns {u : World H} {d : Nat} {p' : Producer H}
    (h : Streams B depth values t ⟨w, .call c p u d :: visits⟩)
    (hm : (moment ⟨w, .call c p u d :: visits⟩).Ordered)
    (hrun : (Engine.next (.ofBehavior B d) p).run u = .ok ((x, p'), w)) :
    Streams B depth values t ⟨c.answered w x p', visits⟩ := by
  by_cases hc : c.tape = t
  · subst hc
    have htape : (c.answered w x p').tape c.tape = (w.tape c.tape).recorded x p' :=
      Call.tape_answered_self h.tape_lt
    have hruns := h.called c p u d List.mem_cons_self rfl
    have hsize : (w.tape c.tape).log.size ≤ values.length := h.size_le
    have hunfailing := h.unfailing
    dsimp only at hruns hunfailing
    have hnone : ∀ c' q u' d', .call c' q u' d' ∈ visits → c'.tape ≠ c.tape := by
      intro c' q u' d' hmem
      exact (hm.tape_ne c' (List.mem_filterMap.mpr ⟨_, hmem, rfl⟩)).symm
    have hlt : c.tape.id < (c.answered w x p').tapes.size := by simpa using h.tape_lt
    -- the producer answers what is due after the values that are logged
    cases hleft : values.drop (w.tape c.tape).log.size with
    | nil =>
      rw [hleft] at hruns
      obtain rfl := hruns.2 d u x p' w hrun
      refine ⟨hlt, ?_, ?_, ?_, fun c' q u' d' hmem hc' => (hnone c' q u' d' hmem hc').elim⟩
      · exact htape ▸ hsize
      · exact htape ▸ hunfailing
      · intro q hq
        dsimp only at hq
        rw [htape] at hq
        cases hq
    | cons v rest =>
      rw [hleft] at hruns
      obtain ⟨rfl, hrest⟩ := hruns.2 d u x p' w hrun
      have hmore : (w.tape c.tape).log.size < values.length := by
        refine Nat.lt_of_not_le fun hle => ?_
        rw [List.drop_eq_nil_of_le hle] at hleft
        cases hleft
      refine ⟨hlt, ?_, ?_, ?_, fun c' q u' d' hmem hc' => (hnone c' q u' d' hmem hc').elim⟩
      · dsimp only
        rw [htape, TapeState.recorded, Array.size_push]
        exact hmore
      · intro i e
        dsimp only
        rw [htape, TapeState.recorded, Array.getElem?_push]
        split
        · intro hitem
          cases hitem
        · exact hunfailing i e
      · intro q hq
        dsimp only at hq ⊢
        rw [htape] at hq ⊢
        cases hq
        rw [TapeState.recorded, Array.size_push, ← List.tail_drop, hleft]
        exact hrest
  · exact h.of_tape_eq (Call.tape_answered_of_ne hc) (by simp) fun c' q u' d' hmem _ =>
      List.mem_cons_of_mem _ hmem

theorem does (h : Streams B depth values t σ) (hm : σ.moment.Ordered) (hdoes : σ.Does B d σ') :
    Streams B depth values t σ' := by
  cases hdoes with
  | @aside w w' visits d haside hdoes =>
    generalize hfrom : moment ⟨w, visits⟩ = m at hdoes
    generalize hto : moment ⟨w', visits⟩ = m' at hdoes
    cases hdoes with
    | host | limit | displayLength | overwrite | read | take =>
      cases hfrom
      cases hto
      exact h.of_tape_eq rfl (Nat.le_refl _) fun _ _ _ _ hmem _ => hmem
    | onto w calls p =>
      cases hfrom
      cases hto
      exact h.of_tape_eq (World.tape_withTape_of_lt p h.tape_lt) (by simp)
        fun _ _ _ _ hmem _ => hmem
    | adopt w calls p infinite =>
      cases hfrom
      cases hto
      exact h.of_tape_eq (World.tape_withTape_of_lt p h.tape_lt) (by simp)
        fun _ _ _ _ hmem _ => hmem
    | drive | answer | pull | settle | ahead | cameAhead => exact haside.elim
  | begins visits c d hbegins => exact h.begins hbegins d
  | returns visits c d hrun => exact h.returns hm hrun
  | ahead w visits s d =>
    refine h.of_tape_eq rfl (Nat.le_refl _) fun c p u d' hmem _ => ?_
    simpa using hmem
  | cameAhead visits s d hrun =>
    exact h.of_tape_eq rfl (Nat.le_refl _) fun c p u d' hmem _ => List.mem_cons_of_mem _ hmem

theorem course (h : Streams B depth values t σ) (hm : σ.moment.Ordered)
    (hcourse : σ.Course B past σ') : Streams B depth values t σ' := by
  induction hcourse with
  | here => exact h
  | next hpast hdoes ih => exact ih.does (hm.steps hpast.steps) hdoes

end Streams

/-- The tape of a sequence that is made over such a producer has it all before it. -/
theorem Streams.fresh {values : List Value} (hw : (moment ⟨w, visits⟩).Ordered)
    (hp : p.RunsThrough B depth values) (infinite : Bool) :
    Streams B depth values w.freshTape ⟨w.withSequence p infinite, visits⟩ where
  tape_lt := by simp [World.freshTape]
  size_le := by simp
  unfailing := by simp
  idle q hq := by
    simp only [World.tape_withSequence, World.tape_withTape_freshTape, Phase.idle.injEq] at hq
    simpa [← hq] using hp
  called c q u d hmem hc := by
    have hcalled : w.freshTape ∈ (moment ⟨w, visits⟩).calls.map Call.tape :=
      List.mem_map.mpr ⟨c, List.mem_filterMap.mpr ⟨_, hmem, rfl⟩, hc⟩
    have hrunning := (hw.running w.freshTape).mpr hcalled
    have hlt := World.lt_of_phase_ne_ended (w := w) (t := w.freshTape)
      (by simp [show (w.tape w.freshTape).phase = .running from hrunning])
    exact (Nat.lt_irrefl _ hlt).elim

end Scene

/-! ### The statement -/

end MemoSeq
