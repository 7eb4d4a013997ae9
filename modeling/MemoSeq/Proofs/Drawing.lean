/-
  MemoSeq/Proofs/Drawing.lean
  ===========================
  **A sequence and the tape it draws from.**

  A sequence that was made over a producer reads one tape for good.  What ties the
  two together is an invariant of all moments (`Moment.Draws`): the cache is a copy
  of the beginning of the tape except where it was overwritten, the reader stands
  right behind that copy, and while the sequence waits for its tape nothing is on
  the tape that it has not got.  The invariant holds from the making of the
  sequence on and each step keeps it, whatever calls have not returned.
-/
import MemoSeq.Proofs.Moments
import MemoSeq.Sequence.Index

namespace MemoSeq

variable {H : Host}

/-! ### Tapes -/

namespace TapeState

variable {cell : TapeState H} {x : Option Item} {p : Producer H}

/-- A failure is the last item of a tape, and no producer is left behind it. -/
def Sound (cell : TapeState H) : Prop :=
  ∀ i e, cell.log[i]? = some (.error e) → i + 1 = cell.log.size ∧ cell.phase = .ended

theorem phase_recorded_ne_running : (cell.recorded x p).phase ≠ .running := by
  match x with
  | none | some (.ok _) | some (.error _) => nofun

theorem recorded_of_logged {i : Nat} {item : Item} (h : cell.log[i]? = some item) :
    (cell.recorded x p).log[i]? = some item := by
  have hi := (Array.getElem?_eq_some_iff.mp h).1
  rw [log_recorded, Array.getElem?_append_left hi, h]

theorem recorded_log_size : (cell.recorded x p).log[cell.log.size]? = x := by
  rw [log_recorded, Array.getElem?_append_right (Nat.le_refl _), Nat.sub_self]
  cases x <;> simp

theorem Sound.not_error (h : cell.Sound) (hphase : cell.phase ≠ .ended) (i : Nat) (e : Error) :
    cell.log[i]? ≠ some (.error e) :=
  fun hi => hphase (h i e hi).2

theorem Sound.running (h : cell.Sound) (hp : cell.phase = .idle p) :
    cell.started.Sound :=
  fun i e hi => (h.not_error (by simp [hp]) i e hi).elim

/-- The items noted before are values, since the tape had not ended. -/
theorem Sound.recorded (h : cell.Sound) (hphase : cell.phase = .running) :
    (cell.recorded x p).Sound := by
  intro i e hi
  have hvalue := h.not_error (by simp [hphase]) i e
  match x with
  | none => exact (hvalue hi).elim
  | some (.ok v) =>
    simp only [TapeState.recorded, Array.getElem?_push] at hi
    split at hi
    · cases hi
    · exact (hvalue hi).elim
  | some (.error e') =>
    simp only [TapeState.recorded, Array.getElem?_push] at hi
    split at hi
    case isTrue hlast => exact ⟨by simp [TapeState.recorded, hlast], rfl⟩
    case isFalse => exact (hvalue hi).elim

end TapeState

/-! ### Sequences -/

namespace SequenceState

/-- What a sequence has at a position for which its producer gave a value: the
    last value put there, or else the one given. -/
def shown (c : SequenceState) (i : Nat) (produced : Value) : Value :=
  (c.overwritten.lookup i).getD produced

/-- The cache is the beginning of a tape except where it was overwritten. -/
structure Copies (c : SequenceState) (cell : TapeState H) : Prop where
  cached : ∀ i v, c.cache[i]? = some v →
    ∃ produced, cell.log[i]? = some (.ok produced) ∧ v = c.shown i produced
  overwritten : ∀ i v, (i, v) ∈ c.overwritten → i < c.cache.size

/-- The state of a sequence fits that of the tape it draws from. -/
structure Mirrors (c : SequenceState) (t : Tape) (cell : TapeState H) : Prop
    extends c.Copies cell where
  reading : ∀ r, c.reader = some r →
    r = ⟨t, c.cache.size⟩ ∧ c.busy = false ∧ c.failure = none
  waiting : c.busy = true →
    c.reader = none ∧ c.failure = none ∧ cell.log.size = c.cache.size
  done : c.busy = false → c.reader = none →
    cell.hasEnded = true ∧
      cell.log[c.cache.size]? = c.failure.map .error

def put (c : SequenceState) (position : Nat) (v : Value) : SequenceState :=
  { c with
    cache := c.cache.setIfInBounds position v
    overwritten := (position, v) :: c.overwritten }

/-- The cache may have grown, and an end that was seen has stayed. -/
structure Grows (c c' : SequenceState) : Prop where
  cached : c.cache.size ≤ c'.cache.size
  exhausted : c.isExhausted = true → c'.isExhausted = true

theorem Grows.refl (c : SequenceState) : c.Grows c := ⟨Nat.le_refl _, id⟩

theorem Grows.trans {c c' c'' : SequenceState} (h : c.Grows c') (h' : c'.Grows c'') :
    c.Grows c'' :=
  ⟨Nat.le_trans h.cached h'.cached, fun hended => h'.exhausted (h.exhausted hended)⟩

theorem Grows.of_not_exhausted {c c' : SequenceState} (h : c.isExhausted = false)
    (hsize : c.cache.size ≤ c'.cache.size) : c.Grows c' :=
  ⟨hsize, by simp [h]⟩

variable {c : SequenceState} {t : Tape} {cell : TapeState H} {x : Option Item} {p : Producer H}

@[simp] theorem size_cache_waiting : c.waiting.cache.size = c.cache.size := rfl

@[simp] theorem size_cache_put (position : Nat) (v : Value) :
    (c.put position v).cache.size = c.cache.size := by
  simp [put]

@[simp] theorem reader_put (position : Nat) (v : Value) : (c.put position v).reader = c.reader :=
  rfl

@[simp] theorem busy_put (position : Nat) (v : Value) : (c.put position v).busy = c.busy := rfl

@[simp] theorem failure_put (position : Nat) (v : Value) :
    (c.put position v).failure = c.failure := rfl

@[simp] theorem busy_settled (ended : Bool) (r : Reader) : (c.settled x ended r).busy = false := by
  match x with
  | none | some (.ok _) | some (.error _) => rfl

@[simp] theorem overwritten_settled (c : SequenceState) (x : Option Item) (ended : Bool)
    (r : Reader) : (c.settled x ended r).overwritten = c.overwritten := by
  match x with
  | none | some (.ok _) | some (.error _) => rfl

theorem size_cache_le_settled (ended : Bool) (r : Reader) :
    c.cache.size ≤ (c.settled x ended r).cache.size := by
  match x with
  | none | some (.error _) => exact Nat.le_refl _
  | some (.ok v) => simp [settled]

theorem Copies.recorded (h : c.Copies cell) : c.Copies (cell.recorded x p) where
  cached i v hv := by
    obtain ⟨produced, hlog, hv⟩ := h.cached i v hv
    exact ⟨produced, TapeState.recorded_of_logged hlog, hv⟩
  overwritten := h.overwritten

theorem Copies.cache_size_le (h : c.Copies cell) : c.cache.size ≤ cell.log.size := by
  apply Nat.le_of_not_lt
  intro hlt
  obtain ⟨produced, hlog, -⟩ := h.cached cell.log.size _ (Array.getElem?_eq_getElem hlt)
  simp at hlog

/-- What is not cached yet was not overwritten. -/
theorem Copies.lookup_eq_none (h : c.Copies cell) {i : Nat} (hi : c.cache.size ≤ i) :
    c.overwritten.lookup i = none := by
  apply List.lookup_eq_none_iff.mpr
  intro entry hentry
  have hlt := h.overwritten entry.1 entry.2 hentry
  rw [bne_iff_ne]
  omega

namespace Mirrors

/-- While its tape has not ended, a sequence that does not wait has a reader where its
    cache ends. -/
theorem reader_of_not_ended (h : c.Mirrors t cell) (hphase : cell.phase ≠ .ended)
    (hbusy : c.busy = false) :
    c.reader = some ⟨t, c.cache.size⟩ ∧ c.failure = none := by
  cases hreader : c.reader with
  | none =>
    have hended := (h.done hbusy hreader).1
    rw [TapeState.hasEnded] at hended
    split at hended
    · exact (hphase ‹_›).elim
    · cases hended
  | some r =>
    obtain ⟨rfl, -, hfailure⟩ := h.reading r hreader
    exact ⟨rfl, hfailure⟩

theorem running (h : c.Mirrors t cell) (hp : cell.phase = .idle p) :
    c.Mirrors t cell.started where
  cached := h.cached
  overwritten := h.overwritten
  reading := h.reading
  waiting := h.waiting
  done hbusy hreader := by
    have hsome := (h.reader_of_not_ended (by simp [hp]) hbusy).1
    rw [hreader] at hsome
    cases hsome

theorem recorded (h : c.Mirrors t cell) (hbusy : c.busy = false)
    (hphase : cell.phase = .running) : c.Mirrors t (cell.recorded x p) where
  toCopies := h.toCopies.recorded
  reading := h.reading
  waiting hwaiting := by simp [hbusy] at hwaiting
  done hbusy hreader := by
    have hsome := (h.reader_of_not_ended (by simp [hphase]) hbusy).1
    rw [hreader] at hsome
    cases hsome

theorem waiting_running (h : c.Mirrors t cell) {r : Reader} (hr : c.reader = some r)
    (hlog : cell.log[r.position]? = none) :
    c.waiting.Mirrors t cell.started where
  cached := h.cached
  overwritten := h.overwritten
  reading r' hr' := by cases hr'
  waiting _ := by
    obtain ⟨rfl, -, hfailure⟩ := h.reading r hr
    exact ⟨rfl, hfailure, Nat.le_antisymm (by simpa using hlog) h.cache_size_le⟩
  done hbusy := by cases hbusy

theorem put (h : c.Mirrors t cell) {position : Nat} (hlt : position < c.cache.size) (v : Value) :
    (c.put position v).Mirrors t cell where
  cached i u hu := by
    simp only [SequenceState.put, Array.getElem?_setIfInBounds] at hu
    split at hu
    case isTrue heq =>
      obtain ⟨produced, hlog, -⟩ := h.cached i _ (Array.getElem?_eq_getElem (heq ▸ hlt))
      cases heq
      simp only [Option.some.injEq] at hu
      exact ⟨produced, hlog, by simp [shown, SequenceState.put, hu]⟩
    case isFalse hne =>
      obtain ⟨produced, hlog, hu⟩ := h.cached i u hu
      refine ⟨produced, hlog, ?_⟩
      simp [shown, SequenceState.put, List.lookup_cons, beq_false_of_ne (Ne.symm hne), hu]
  overwritten i u hu := by
    rcases List.mem_cons.mp hu with heq | hu
    · cases heq
      simpa using hlt
    · simpa using h.overwritten i u hu
  reading r hr := by simpa using h.reading r hr
  waiting hbusy := by simpa using h.waiting hbusy
  done hbusy hreader := by simpa using h.done hbusy hreader

end Mirrors

/-- Taking in what is on the tape behind the cache keeps the two together. -/
theorem Copies.settled (h : c.Copies cell) (hsound : cell.Sound) (hfailure : c.failure = none)
    (hx : cell.log[c.cache.size]? = x) :
    (c.settled x cell.hasEnded (Reader.past ⟨t, c.cache.size⟩ x)).Mirrors t cell := by
  match x with
  | none =>
    refine ⟨⟨h.cached, h.overwritten⟩, ?_, nofun, ?_⟩
    · intro r hr
      simp only [SequenceState.settled, Reader.past] at hr
      split at hr
      · cases hr
      · cases hr
        exact ⟨rfl, rfl, hfailure⟩
    · intro _ hr
      simp only [SequenceState.settled] at hr
      cases hended : cell.hasEnded with
      | true => exact ⟨rfl, by simpa [SequenceState.settled, hfailure] using hx⟩
      | false => simp [hended] at hr
  | some (.error e) =>
    refine ⟨⟨h.cached, h.overwritten⟩, nofun, nofun, fun _ _ => ⟨?_, hx⟩⟩
    simp [TapeState.hasEnded, (hsound _ e hx).2]
  | some (.ok v) =>
    refine ⟨⟨?_, ?_⟩, ?_, nofun, nofun⟩
    · intro i u hu
      simp only [SequenceState.settled, Array.getElem?_push] at hu
      split at hu
      case isTrue heq =>
        cases heq
        cases hu
        exact ⟨_, hx, by simp [shown, SequenceState.settled, h.lookup_eq_none (Nat.le_refl _)]⟩
      case isFalse => exact h.cached i u hu
    · intro i u hu
      simpa [SequenceState.settled] using Nat.lt_succ_of_lt (h.overwritten i u hu)
    · intro r hr
      cases hr
      simp [SequenceState.settled, Reader.past, Reader.advance, hfailure]

end SequenceState

/-! ### Moments -/

theorem World.overwrite_eq (w : World H) (s : Sequence) (position : Nat) (v : Value) :
    w.overwrite s position v = w.updateSequence s fun c =>
      if position < c.cache.size then c.put position v else c := rfl

namespace Moment

/-- No tape is called twice, the called ones are those at work, and the calling
    sequences are there. -/
structure Ordered (m : Moment H) : Prop where
  nodup : (m.calls.map Call.tape).Nodup
  running : ∀ t, (m.world.tape t).phase = .running ↔ t ∈ m.calls.map Call.tape
  sequences : ∀ s r, .pull s r ∈ m.calls → s.id < m.world.sequences.size

/-- A sequence draws from a tape: the two fit each other, and the sequence waits
    just when its own call has not returned. -/
structure Draws (m : Moment H) (s : Sequence) (t : Tape) : Prop where
  tape_lt : t.id < m.world.tapes.size
  sequence_lt : s.id < m.world.sequences.size
  sound : (m.world.tape t).Sound
  mirrors : (m.world.sequence s).Mirrors t (m.world.tape t)
  calls : ∀ r, .pull s r ∈ m.calls ↔
    (m.world.sequence s).busy = true ∧ r = ⟨t, (m.world.sequence s).cache.size⟩

variable {w : World H} {calls calls' : List Call} {s u : Sequence} {t q : Tape}
variable {x : Option Item} {p : Producer H} {m m' : Moment H}

/-! ### The calls in order -/

namespace Ordered

theorem call (h : Ordered ⟨w, calls⟩) (hp : (w.tape t).phase = .idle p) (c : Call)
    (hc : c.tape = t) (hs : ∀ s r, c = .pull s r → s.id < w.sequences.size) :
    Ordered ⟨w.running t, c :: calls⟩ := by
  subst hc
  refine ⟨List.nodup_cons.mpr ⟨?_, h.nodup⟩, ?_, ?_⟩
  · intro hmem
    have hrunning := (h.running c.tape).mpr hmem
    simp [hp] at hrunning
  · intro q
    by_cases heq : c.tape = q
    · subst heq
      simp [World.tape_running_self (World.lt_of_phase_idle hp)]
    · simpa [World.tape_running_of_ne heq, Ne.symm heq] using h.running q
  · intro s r hmem
    rcases List.mem_cons.mp hmem with heq | hmem
    · exact hs s r heq.symm
    · exact h.sequences s r hmem

theorem returned {c : Call} (h : Ordered ⟨w, c :: calls⟩) (x : Option Item) (p : Producer H) :
    Ordered ⟨w.recorded c.tape x p, calls⟩ := by
  obtain ⟨hnew, hnodup⟩ := List.nodup_cons.mp h.nodup
  have hc : (w.tape c.tape).phase = .running := (h.running c.tape).mpr (by simp)
  refine ⟨hnodup, ?_, fun s r hmem => h.sequences s r (List.mem_cons_of_mem _ hmem)⟩
  intro q
  by_cases heq : c.tape = q
  · subst heq
    have hlt := World.lt_of_phase_ne_ended (w := w) (t := c.tape) (by simp [hc])
    simp only [World.tape_recorded_self x hlt, TapeState.phase_recorded_ne_running, false_iff]
    exact hnew
  · simpa [World.tape_recorded_of_ne x heq, Ne.symm heq] using h.running q

theorem tape_ne {c : Call} (h : Ordered ⟨w, c :: calls⟩) : ∀ d ∈ calls, c.tape ≠ d.tape :=
  fun _ hd heq => (List.nodup_cons.mp h.nodup).1 (List.mem_map.mpr ⟨_, hd, heq.symm⟩)

theorem updateSequence (h : Ordered ⟨w, calls⟩) (s : Sequence)
    (f : SequenceState → SequenceState) : Ordered ⟨w.updateSequence s f, calls⟩ :=
  ⟨h.nodup, h.running, fun u r hmem => by simpa using h.sequences u r hmem⟩

theorem withTape (h : Ordered ⟨w, calls⟩) (p : Producer H) : Ordered ⟨w.withTape p, calls⟩ := by
  refine ⟨h.nodup, ?_, h.sequences⟩
  intro q
  by_cases hq : q.id < w.tapes.size
  · simpa [World.tape_withTape_of_lt p hq] using h.running q
  · have hold : (w.tape q).phase ≠ .running := fun hphase =>
      hq (World.lt_of_phase_ne_ended (by simp [hphase]))
    refine iff_of_false (World.phase_withTape_ne_running p (Nat.le_of_not_lt hq)) ?_
    intro hmem
    exact hold ((h.running q).mpr hmem)

theorem step (h : m.Ordered) (hstep : m.Step m') : m'.Ordered := by
  cases hstep with
  | host | limit | displayLength => exact ⟨h.nodup, h.running, h.sequences⟩
  | overwrite | take => exact h.updateSequence _ _
  | onto w calls p => exact h.withTape p
  | adopt w calls p infinite =>
    refine ⟨h.nodup, (h.withTape p).running, ?_⟩
    intro s r hmem
    simpa using Nat.lt_succ_of_lt (h.sequences s r hmem)
  | drive w calls r p hlog hphase => exact h.call hphase (.read r) rfl (by simp)
  | answer w calls r x p => exact h.returned x p
  | pull w calls s r p hfailure hbusy hreader hlog hphase =>
    refine (h.updateSequence s SequenceState.waiting).call hphase (.pull s r) rfl ?_
    intro u q heq
    cases heq
    simpa using World.lt_of_reader_eq_some r hreader
  | settle w calls s r x p => exact (h.returned x p).updateSequence s _

theorem steps (h : m.Ordered) (hsteps : m.Steps m') : m'.Ordered := by
  induction hsteps with
  | refl => exact h
  | tail _ hstep ih => exact ih.step hstep

end Ordered

theorem Reached.ordered (h : m.Reached) : m.Ordered := by
  obtain ⟨host, hsteps⟩ := h
  have hfirst : Ordered (H := H) ⟨World.initial host, []⟩ :=
    ⟨List.nodup_nil, fun t => by simp [World.initial, World.tape, default], by simp⟩
  exact hfirst.steps hsteps

/-! ### The invariant along the steps -/

namespace Draws

theorem calls_congr (h : Draws ⟨w, calls⟩ s t)
    (hcalls : ∀ r, .pull s r ∈ calls' ↔ .pull s r ∈ calls) : Draws ⟨w, calls'⟩ s t :=
  ⟨h.tape_lt, h.sequence_lt, h.sound, h.mirrors, fun r => (hcalls r).trans (h.calls r)⟩

theorem updateSequence_of_ne (h : Draws ⟨w, calls⟩ s t) (hne : u ≠ s)
    (f : SequenceState → SequenceState) : Draws ⟨w.updateSequence u f, calls⟩ s t := by
  have hsame := World.sequence_updateSequence_of_ne (w := w) f hne
  exact {
    tape_lt := h.tape_lt
    sequence_lt := by simpa using h.sequence_lt
    sound := h.sound
    mirrors := by simpa [hsame] using h.mirrors
    calls := by simpa [hsame] using h.calls }

theorem running (h : Draws ⟨w, calls⟩ s t) (hp : (w.tape q).phase = .idle p) :
    Draws ⟨w.running q, calls⟩ s t := by
  by_cases heq : q = t
  · subst heq
    have hself := World.tape_running_self h.tape_lt
    exact {
      tape_lt := by simpa using h.tape_lt
      sequence_lt := h.sequence_lt
      sound := by simpa [hself] using h.sound.running hp
      mirrors := by simpa [hself] using h.mirrors.running hp
      calls := h.calls }
  · have hother := World.tape_running_of_ne (w := w) heq
    exact {
      tape_lt := by simpa using h.tape_lt
      sequence_lt := h.sequence_lt
      sound := by simpa [hother] using h.sound
      mirrors := by simpa [hother] using h.mirrors
      calls := h.calls }

theorem recorded (h : Draws ⟨w, calls⟩ s t)
    (hq : q = t → (w.sequence s).busy = false ∧ (w.tape t).phase = .running) :
    Draws ⟨w.recorded q x p, calls⟩ s t := by
  by_cases heq : q = t
  · obtain ⟨hbusy, hphase⟩ := hq heq
    subst heq
    have hself := World.tape_recorded_self x (p := p) h.tape_lt
    exact {
      tape_lt := by simpa using h.tape_lt
      sequence_lt := h.sequence_lt
      sound := by simpa [hself] using h.sound.recorded hphase
      mirrors := by simpa [hself] using h.mirrors.recorded hbusy hphase
      calls := h.calls }
  · have hother := World.tape_recorded_of_ne (w := w) x (p := p) heq
    exact {
      tape_lt := by simpa using h.tape_lt
      sequence_lt := h.sequence_lt
      sound := by simpa [hother] using h.sound
      mirrors := by simpa [hother] using h.mirrors
      calls := h.calls }

/-- A call of its tape has returned, and it was not the sequence that had made it. -/
theorem returned {c : Call} (h : Draws ⟨w, c :: calls⟩ s t) (hm : Ordered ⟨w, c :: calls⟩)
    (hc : ∀ r, c ≠ .pull s r) (x : Option Item) (p : Producer H) :
    Draws ⟨w.recorded c.tape x p, calls⟩ s t := by
  have hcalls : Draws ⟨w, calls⟩ s t :=
    h.calls_congr fun r => by simp [(hc r).symm]
  refine hcalls.recorded fun heq => ⟨?_, heq ▸ (hm.running c.tape).mpr (by simp)⟩
  apply Bool.eq_false_iff.mpr
  intro hbusy
  have hmem := (hcalls.calls _).mpr ⟨hbusy, rfl⟩
  exact hm.tape_ne _ hmem heq

theorem of_settled (ht : t.id < w.tapes.size) (hs : s.id < w.sequences.size)
    (hsound : (w.tape t).Sound) (hcopies : (w.sequence s).Copies (w.tape t))
    (hfailure : (w.sequence s).failure = none)
    (hx : (w.tape t).log[(w.sequence s).cache.size]? = x)
    (hcalls : ∀ r, .pull s r ∉ calls) :
    Draws ⟨w.settled s x (Reader.past ⟨t, (w.sequence s).cache.size⟩ x), calls⟩ s t := by
  have hself := World.sequence_settled_self (w := w) x
    (Reader.past ⟨t, (w.sequence s).cache.size⟩ x) hs
  rw [Reader.tape_past] at hself
  exact {
    tape_lt := ht
    sequence_lt := by simpa using hs
    sound := hsound
    mirrors := by simpa [hself] using hcopies.settled (t := t) hsound hfailure hx
    calls := fun r => by simp [hself, hcalls r] }

theorem not_mem_calls (h : Draws ⟨w, calls⟩ s t) (hbusy : (w.sequence s).busy = false)
    (r : Reader) : .pull s r ∉ calls := by
  intro hmem
  have hwaits := ((h.calls r).mp hmem).1
  simp [hbusy] at hwaits

theorem take (h : Draws ⟨w, calls⟩ s t) {r : Reader} (hbusy : (w.sequence s).busy = false)
    (hreader : (w.sequence s).reader = some r) (hx : (w.tape r.tape).log[r.position]? = x) :
    Draws ⟨w.settled s x (r.past x), calls⟩ s t := by
  obtain ⟨rfl, -, hfailure⟩ := h.mirrors.reading r hreader
  exact of_settled h.tape_lt h.sequence_lt h.sound h.mirrors.toCopies hfailure hx
    (h.not_mem_calls hbusy)

theorem pull (h : Draws ⟨w, calls⟩ s t) {r : Reader} (hbusy : (w.sequence s).busy = false)
    (hreader : (w.sequence s).reader = some r) (hlog : (w.tape r.tape).log[r.position]? = none)
    (hphase : (w.tape r.tape).phase = .idle p) :
    Draws ⟨(w.waiting s).running r.tape, .pull s r :: calls⟩ s t := by
  obtain ⟨rfl, -, -⟩ := h.mirrors.reading r hreader
  have hself := World.sequence_waiting_self h.sequence_lt
  have htape := World.tape_running_self (w := w.waiting s) h.tape_lt
  exact {
    tape_lt := by simpa using h.tape_lt
    sequence_lt := by simpa using h.sequence_lt
    sound := by simpa [htape] using h.sound.running hphase
    mirrors := by simpa [htape, hself] using h.mirrors.waiting_running hreader hlog
    calls := fun r => by simp [hself, h.not_mem_calls hbusy r, SequenceState.waiting] }

theorem settle {r : Reader} (h : Draws ⟨w, .pull s r :: calls⟩ s t)
    (hm : Ordered ⟨w, .pull s r :: calls⟩) (x : Option Item) (p : Producer H) :
    Draws ⟨(w.recorded r.tape x p).settled s x (r.past x), calls⟩ s t := by
  obtain ⟨hbusy, hr⟩ := (h.calls r).mp List.mem_cons_self
  dsimp only at hr
  subst hr
  obtain ⟨-, hfailure, hsize⟩ := h.mirrors.waiting hbusy
  have htape := World.tape_recorded_self x (p := p) h.tape_lt
  refine of_settled (w := w.recorded t x p) (by simpa using h.tape_lt) h.sequence_lt ?_ ?_
    hfailure ?_ ?_
  · rw [htape]
    exact h.sound.recorded ((hm.running t).mpr (by simp [Call.tape]))
  · rw [htape]
    exact h.mirrors.toCopies.recorded
  · rw [htape, World.sequence_recorded, ← hsize]
    exact TapeState.recorded_log_size
  · intro r hmem
    obtain ⟨-, rfl⟩ := (h.calls r).mp (List.mem_cons_of_mem _ hmem)
    exact hm.tape_ne _ hmem rfl

theorem overwrite (h : Draws ⟨w, calls⟩ s t) (u : Sequence) (position : Nat) (v : Value) :
    Draws ⟨w.overwrite u position v, calls⟩ s t := by
  rw [World.overwrite_eq]
  by_cases heq : u = s
  · subst heq
    have hself := World.sequence_updateSequence_self
      (fun c => if position < c.cache.size then c.put position v else c) h.sequence_lt
    refine ⟨h.tape_lt, by simpa using h.sequence_lt, h.sound, ?_, ?_⟩
    · dsimp only
      rw [hself]
      split
      case isTrue hlt => exact h.mirrors.put hlt v
      case isFalse => exact h.mirrors
    · intro r
      dsimp only
      rw [hself]
      split
      · simpa using h.calls r
      · exact h.calls r
  · exact h.updateSequence_of_ne heq _

/-- Each step keeps the invariant.  Only the sequence's own call, begun or returned,
    and what it takes in change its state and the tape's together; every other step
    changes one of the two, or neither. -/
theorem step (h : m.Draws s t) (hm : m.Ordered) (hstep : m.Step m') : m'.Draws s t := by
  cases hstep with
  | host | limit | displayLength =>
    exact ⟨h.tape_lt, h.sequence_lt, h.sound, h.mirrors, h.calls⟩
  | onto w calls p =>
    have htape := World.tape_withTape_of_lt (w := w) p h.tape_lt
    exact {
      tape_lt := by simpa using Nat.lt_succ_of_lt h.tape_lt
      sequence_lt := h.sequence_lt
      sound := by simpa [htape] using h.sound
      mirrors := by simpa [htape] using h.mirrors
      calls := h.calls }
  | adopt w calls p infinite =>
    have htape := World.tape_withTape_of_lt (w := w) p h.tape_lt
    have hsequence := World.sequence_withSequence_of_lt (w := w) p infinite h.sequence_lt
    exact {
      tape_lt := by simpa using Nat.lt_succ_of_lt h.tape_lt
      sequence_lt := by simpa using Nat.lt_succ_of_lt h.sequence_lt
      sound := by simpa [htape] using h.sound
      mirrors := by simpa [htape, hsequence] using h.mirrors
      calls := by simpa [hsequence] using h.calls }
  | overwrite w calls u position v => exact h.overwrite u position v
  | drive w calls r p hlog hphase =>
    exact (h.running hphase).calls_congr fun _ => by simp
  | answer w calls r x p => exact h.returned hm (by simp) x p
  | take w calls u r x hfailure hbusy hreader hx hnone =>
    by_cases heq : u = s
    · subst heq
      exact h.take hbusy hreader hx
    · exact h.updateSequence_of_ne heq _
  | pull w calls u r p hfailure hbusy hreader hlog hphase =>
    by_cases heq : u = s
    · subst heq
      exact h.pull hbusy hreader hlog hphase
    · have hwaiting : Draws ⟨w.waiting u, calls⟩ s t := h.updateSequence_of_ne heq _
      exact (hwaiting.running hphase).calls_congr fun _ => by simp [Ne.symm heq]
  | settle w calls u r x p =>
    by_cases heq : u = s
    · subst heq
      exact h.settle hm x p
    · exact (h.returned hm (by simp [heq]) x p).updateSequence_of_ne heq _

theorem steps (h : m.Draws s t) (hm : m.Ordered) (hsteps : m.Steps m') : m'.Draws s t := by
  induction hsteps with
  | refl => exact h
  | tail hsteps hstep ih => exact ih.step (hm.steps hsteps) hstep

end Draws

/-- A sequence draws from the tape that its producer was put on. -/
theorem Ordered.draws_adopt (h : Ordered ⟨w, calls⟩) (p : Producer H) (infinite : Bool) :
    Draws ⟨w.withSequence p infinite, calls⟩ w.freshSequence w.freshTape where
  tape_lt := by simp [World.freshTape]
  sequence_lt := by simp [World.freshSequence]
  sound i e hi := by simp at hi
  mirrors := by
    simp only [World.sequence_withSequence_freshSequence, World.tape_withSequence,
      World.tape_withTape_freshTape]
    constructor
    · exact ⟨by simp, by simp⟩
    · simp
    · simp
    · simp
  calls r := by
    have hfresh : .pull w.freshSequence r ∉ calls := fun hmem =>
      Nat.lt_irrefl _ (h.sequences _ r hmem)
    simp [hfresh]

/-- From when it was made on, a sequence draws from the tape of its producer. -/
theorem Reached.draws_of_made (h : Reached ⟨w, calls⟩) {infinite : Bool} {w' : World H}
    (hmade : (Sequence.adopt p infinite).run w = .ok (s, w')) (hlater : Steps ⟨w', calls⟩ m) :
    m.Ordered ∧ m.Draws s w.freshTape := by
  cases hmade
  have hm : Ordered ⟨w.withSequence p infinite, calls⟩ :=
    h.ordered.step (.adopt w calls p infinite)
  exact ⟨hm.steps hlater, (h.ordered.draws_adopt p infinite).steps hm hlater⟩

/-! ### What is not taken back -/

theorem tapes_size_le_step (hstep : m.Step m') : m.world.tapes.size ≤ m'.world.tapes.size := by
  cases hstep <;> simp [World.overwrite_eq]

theorem logged_step {i : Nat} {item : Item} (h : (m.world.tape t).log[i]? = some item)
    (ht : t.id < m.world.tapes.size) (hstep : m.Step m') :
    (m'.world.tape t).log[i]? = some item := by
  have hrecorded {w : World H} {q : Tape} {x : Option Item} {p : Producer H}
      (h : (w.tape t).log[i]? = some item) (ht : t.id < w.tapes.size) :
      ((w.recorded q x p).tape t).log[i]? = some item := by
    by_cases heq : q = t
    · subst heq
      rw [World.tape_recorded_self x ht]
      exact TapeState.recorded_of_logged h
    · rwa [World.tape_recorded_of_ne x heq]
  have hrunning {w : World H} {q : Tape} (h : (w.tape t).log[i]? = some item)
      (ht : t.id < w.tapes.size) : ((w.running q).tape t).log[i]? = some item := by
    by_cases heq : q = t
    · subst heq
      rwa [World.tape_running_self ht]
    · rwa [World.tape_running_of_ne heq]
  cases hstep with
  | host | limit | displayLength | overwrite | take => exact h
  | onto w calls p | adopt w calls p =>
    simpa [World.tape_withTape_of_lt p ht] using h
  | drive w calls r p hlog hphase => exact hrunning h ht
  | answer w calls r x p => exact hrecorded h ht
  | pull w calls s r p hfailure hbusy hreader hlog hphase =>
    exact hrunning (w := w.waiting s) h ht
  | settle w calls s r x p => exact hrecorded h ht

theorem logged_steps {i : Nat} {item : Item} (h : (m.world.tape t).log[i]? = some item)
    (ht : t.id < m.world.tapes.size) (hsteps : m.Steps m') :
    (m'.world.tape t).log[i]? = some item := by
  have hboth : (m'.world.tape t).log[i]? = some item ∧ t.id < m'.world.tapes.size := by
    induction hsteps with
    | refl => exact ⟨h, ht⟩
    | tail _ hstep ih =>
      exact ⟨logged_step ih.1 ih.2 hstep, Nat.lt_of_lt_of_le ih.2 (tapes_size_le_step hstep)⟩
  exact hboth.1

theorem overwritten_eq_nil_step (hs : s.id < m.world.sequences.size) (hstep : m.Step m')
    (hclean : (m'.world.sequence s).overwritten = []) :
    (m.world.sequence s).overwritten = [] := by
  have hupdate {w : World H} (u : Sequence) {f : SequenceState → SequenceState}
      (hf : ∀ c, (f c).overwritten = [] → c.overwritten = [])
      (h : ((w.updateSequence u f).sequence s).overwritten = []) :
      (w.sequence s).overwritten = [] := by
    rw [World.sequence_updateSequence] at h
    split at h
    · exact hf _ h
    · exact h
  cases hstep with
  | host | limit | displayLength | onto | drive | answer => exact hclean
  | adopt w calls p infinite => rwa [World.sequence_withSequence_of_lt p infinite hs] at hclean
  | overwrite w calls u position v =>
    refine hupdate u (fun c hc => ?_) hclean
    split at hc
    · cases hc
    · exact hc
  | take w calls u r x => exact hupdate u (fun c hc => by simpa using hc) hclean
  | pull w calls u r p => exact hupdate u (f := SequenceState.waiting) (fun c hc => hc) hclean
  | settle w calls u r x p =>
    exact hupdate (w := w.recorded r.tape x p) u (fun c hc => by simpa using hc) hclean

theorem sequences_size_le_step (hstep : m.Step m') :
    m.world.sequences.size ≤ m'.world.sequences.size := by
  cases hstep <;> simp [World.overwrite_eq, World.withTape]

/-- A sequence that has not been overwritten was not overwritten before. -/
theorem Steps.overwritten_eq_nil (hsteps : m.Steps m') (hs : s.id < m.world.sequences.size)
    (hclean : (m'.world.sequence s).overwritten = []) :
    (m.world.sequence s).overwritten = [] := by
  have hboth : s.id < m'.world.sequences.size ∧
      ((m'.world.sequence s).overwritten = [] → (m.world.sequence s).overwritten = []) := by
    clear hclean
    induction hsteps with
    | refl => exact ⟨hs, id⟩
    | tail _ hstep ih =>
      exact ⟨Nat.lt_of_lt_of_le ih.1 (sequences_size_le_step hstep),
        fun h => ih.2 (overwritten_eq_nil_step ih.1 hstep h)⟩
  exact hboth.2 hclean

theorem Draws.grows_step (h : m.Draws s t) (hstep : m.Step m') :
    (m.world.sequence s).Grows (m'.world.sequence s) := by
  have hupdate {w : World H} {u : Sequence} {f : SequenceState → SequenceState}
      (hs : s.id < w.sequences.size) (hf : u = s → (w.sequence s).Grows (f (w.sequence s))) :
      (w.sequence s).Grows ((w.updateSequence u f).sequence s) := by
    by_cases heq : u = s
    · rw [heq, World.sequence_updateSequence_self f hs]
      exact hf heq
    · rw [World.sequence_updateSequence_of_ne f heq]
      exact .refl _
  cases hstep with
  | host | limit | displayLength | onto | drive | answer => exact .refl _
  | adopt w calls p infinite =>
    dsimp only
    rw [World.sequence_withSequence_of_lt p infinite h.sequence_lt]
    exact .refl _
  | overwrite w calls u position v =>
    apply hupdate h.sequence_lt
    intro _
    split
    · exact ⟨by simp, by simp [SequenceState.isExhausted]⟩
    · exact .refl _
  | take w calls u r x hfailure hbusy hreader hx hnone =>
    apply hupdate h.sequence_lt
    intro heq
    subst heq
    exact .of_not_exhausted (by simp [SequenceState.isExhausted, hreader])
      (SequenceState.size_cache_le_settled _ _)
  | pull w calls u r p hfailure hbusy hreader hlog hphase =>
    apply hupdate h.sequence_lt
    intro heq
    subst heq
    exact .of_not_exhausted (by simp [SequenceState.isExhausted, hreader]) (Nat.le_refl _)
  | settle w calls u r x p =>
    apply hupdate (w := w.recorded r.tape x p) h.sequence_lt
    intro heq
    subst heq
    have hbusy := ((h.calls r).mp List.mem_cons_self).1
    exact .of_not_exhausted (by simp [SequenceState.isExhausted, hbusy])
      (SequenceState.size_cache_le_settled _ _)

theorem Draws.grows_steps (h : m.Draws s t) (hm : m.Ordered) (hsteps : m.Steps m') :
    (m.world.sequence s).Grows (m'.world.sequence s) := by
  induction hsteps with
  | refl => exact .refl _
  | tail hsteps hstep ih => exact ih.trans ((h.steps hm hsteps).grows_step hstep)

end Moment

end MemoSeq
