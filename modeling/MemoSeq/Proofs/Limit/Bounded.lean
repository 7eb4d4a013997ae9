/-
  MemoSeq/Proofs/Limit/Bounded.lean
  ==================================
  **Forcing under a limit.**

  A sequence over a producer that does not fail is forced as a whole under a limit.  If
  there are more values than the limit allows and than are cached, forcing stops when one
  value too many is cached; if there are not, it gives all of them.  In both cases the
  producer has been called no more often than the limit has room for what is not cached,
  or once, and nothing is lost: what was cached is cached, and what is new stands behind
  it in the order in which it was produced (`Sequence.forced_within_limit`).
-/
import MemoSeq.Proofs.Limit.Repeated
import MemoSeq.Proofs.Provision.Calls
import MemoSeq.Proofs.Provision.Unfailing
import MemoSeq.Proofs.Session.Steady

namespace MemoSeq

variable {H : Host} {B : Behavior H} {E : Engine H} {total : ℕ∞}
variable {stage : Nat → Producer H → Prop} {bottom depth bound : Nat} {s : Sequence} {t : Tape}
variable {w w' w'' u : World H}

/-! ### What producing adds -/

/-- A sequence has taken in more from its tape.  What was cached is cached, the new values
    are those of the tape at their positions, and nothing has been overwritten. -/
structure World.Adds (s : Sequence) (t : Tape) (w w' : World H) : Prop where
  cache : (w.sequence s).cache.toList <+: (w'.sequence s).cache.toList
  added : ∀ (i : Nat) (v : Value), (w.sequence s).cache.size ≤ i →
    (w'.sequence s).cache[i]? = some v → (w'.tape t).log[i]? = some (.ok v)
  overwritten : (w'.sequence s).overwritten = (w.sequence s).overwritten
  goes : (w.tape t).Goes (w'.tape t)

namespace World.Adds

theorem trans (h : w.Adds s t w') (h' : w'.Adds s t w'') : w.Adds s t w'' where
  cache := h.cache.trans h'.cache
  added i v hi hv := by
    rcases Nat.lt_or_ge i (w'.sequence s).cache.size with hlt | hge
    · refine h'.goes.logged i _ (h.added i v hi ?_)
      obtain ⟨more, hmore⟩ := h'.cache
      rw [← Array.getElem?_toList, ← hmore, List.getElem?_append_left (by simpa using hlt)] at hv
      simpa using hv
    · exact h'.added i v hge hv
  overwritten := h'.overwritten.trans h.overwritten
  goes := h.goes.trans h'.goes

theorem size_le (h : w.Adds s t w') :
    (w.sequence s).cache.size ≤ (w'.sequence s).cache.size := by
  have hle := h.cache.length_le
  simpa using hle

end World.Adds

namespace Provision

variable {P : Provision H}

/-- Advancing a supplied sequence adds the value that it gives, if it gives one. -/
theorem Supplies.adds_advance (hP : P.Valid E t.id s.id) (h : P.Supplies s t w) :
    ∃ x w', (s.advance E).run.run w = .ok (Sequence.outcomeOf x, w') ∧
      P.allows (w.sequence s).cache.size x ∧ P.Supplies s t w' ∧ w'.limit = w.limit ∧
      w.Adds s t w' ∧
      (w'.tape t).calls = max (w.tape t).calls ((w.sequence s).cache.size + 1) ∧
      w'.sequence s = (w.sequence s).settled x true
        (Reader.past ⟨t, (w.sequence s).cache.size⟩ x) := by
  obtain ⟨x, w', hrun, hx, hlog, hsupplies, hspares, hcell⟩ := h.run_advance hP
  refine ⟨x, w', hrun, hx, hsupplies, hspares.limit, ⟨?_, ?_, ?_, hspares.goes t h.tape_lt⟩,
    h.calls_of_advance hP hrun, hcell⟩
  · rw [hcell]
    rcases x with _ | (_ | a)
    · exact List.prefix_rfl
    · exact List.prefix_rfl
    · exact Array.toList_push ▸ List.prefix_append _ _
  · intro i v hi hv
    rw [hcell] at hv
    rcases x with _ | (_ | a)
    · exact absurd (Array.getElem?_eq_some_iff.mp hv).1 (Nat.not_lt.mpr hi)
    · exact absurd (Array.getElem?_eq_some_iff.mp hv).1 (Nat.not_lt.mpr hi)
    · simp only [SequenceState.settled, Array.getElem?_push] at hv
      split at hv
      case isTrue heq =>
        cases hv
        rw [heq]
        exact hlog
      case isFalse =>
        have hlt := (Array.getElem?_eq_some_iff.mp hv).1
        exact absurd hlt (Nat.not_lt.mpr hi)
  · rw [hcell, SequenceState.overwritten_settled]

theorem Supplies.cache_size_le_total (h : (yielded total stage).Supplies s t w) :
    (w.sequence s).cache.size ≤ total := by
  by_contra hlt
  cases hsize : (w.sequence s).cache.size with
  | zero => simp [hsize] at hlt
  | succ c =>
    obtain ⟨v, hv⟩ := h.allows_of_cached (k := c) (by omega)
    rw [hsize, not_le, Nat.cast_succ, ENat.lt_add_one_iff (ENat.natCast_ne_top c)] at hlt
    cases hv.2 hlt

theorem Supplies.failure_eq_none (h : (yielded total stage).Supplies s t w) :
    (w.sequence s).failure = none := by
  cases hfailure : (w.sequence s).failure with
  | none => rfl
  | some e =>
    have hreader : (w.sequence s).reader = none := by
      refine Option.eq_none_iff_forall_ne_some.mpr fun r hr => ?_
      rw [(h.mirrors.reading r hr).2.2] at hfailure
      cases hfailure
    have hlast := (h.mirrors.done h.busy hreader).2
    rw [hfailure] at hlast
    have hallows := h.logged _ _ hlast
    rcases lt_or_ge ((w.sequence s).cache.size : ℕ∞) total with hlt | hge
    · obtain ⟨a, ha⟩ := hallows.1 hlt
      cases ha
    · cases hallows.2 hge

/-! ### Draining -/

section Draining

variable (hP : (yielded total stage).Valid E t.id s.id)
include hP

/-- If there is a value too many, draining stops behind it. -/
theorem Supplies.run_drain_of_lt {rounds : Nat} (h : (yielded total stage).Supplies s t w)
    (hlt : (max (w.sequence s).cache.size bound : Nat) < total) (hpos : 0 < rounds)
    (hrounds : bound < (w.sequence s).cache.size + rounds) :
    ∃ w', (s.drain E (some bound) rounds).run.run w = .ok (.error (.materializeLimit bound), w') ∧
      w.Adds s t w' ∧ (w'.sequence s).cache.size = max (w.sequence s).cache.size bound + 1 ∧
      (w'.tape t).calls = max (w.tape t).calls (max (w.sequence s).cache.size bound + 1) := by
  induction rounds generalizing w with
  | zero => cases hpos
  | succ rounds ih =>
    obtain ⟨x, u, hrun, hx, hsupplies, -, hadds, hcalls, hcell⟩ := h.adds_advance hP
    obtain ⟨a, rfl⟩ := hx.1 (lt_of_le_of_lt (Nat.cast_le.mpr (Nat.le_max_left _ _)) hlt)
    have hsize : (u.sequence s).cache.size = (w.sequence s).cache.size + 1 := by
      rw [hcell]
      exact Array.size_push ..
    have hfirst : (s.advance E).run.run w = .ok (.ok (some a), u) := hrun
    rw [Sequence.drain, Attempt.run_bind_of_ok hfirst]
    change ∃ w', (do if bound < ((← get).sequence s).cache.size then _ else _ :
      Attempt H Unit).run.run u = _ ∧ _
    rw [Attempt.run_bind_of_ok (a := get) rfl]
    split
    case isTrue hexceeded =>
      have hmax : max (w.sequence s).cache.size bound = (w.sequence s).cache.size := by omega
      rw [hmax]
      exact ⟨u, rfl, hadds, hsize, hcalls⟩
    case isFalse hwithin =>
      have hmax : max (u.sequence s).cache.size bound = max (w.sequence s).cache.size bound := by
        omega
      obtain ⟨w', hrest, hadds', hsize', hcalls'⟩ :=
        ih hsupplies (hmax ▸ hlt) (by omega) (by omega)
      refine ⟨w', hrest, hadds.trans hadds', by rw [hsize', hmax], ?_⟩
      rw [hcalls', hcalls, hmax]
      omega

/-- If there is none, draining goes on to the end. -/
theorem Supplies.run_drain_of_le {rounds : Nat} (h : (yielded total stage).Supplies s t w)
    (hle : total ≤ (max (w.sequence s).cache.size bound : Nat)) (hpos : 0 < rounds)
    (hrounds : bound < (w.sequence s).cache.size + rounds) :
    ∃ w', (s.drain E (some bound) rounds).run.run w = .ok (.ok (), w') ∧
      (yielded total stage).Supplies s t w' ∧ w.Adds s t w' ∧ w'.limit = w.limit ∧
      (w'.sequence s).cache.size = total ∧ (w'.sequence s).reader = none ∧
      (w'.tape t).calls = max (w.tape t).calls ((w'.sequence s).cache.size + 1) := by
  induction rounds generalizing w with
  | zero => cases hpos
  | succ rounds ih =>
    obtain ⟨x, u, hrun, hx, hsupplies, hlimit, hadds, hcalls, hcell⟩ := h.adds_advance hP
    rcases lt_or_ge ((w.sequence s).cache.size : ℕ∞) total with hlt | hend
    · obtain ⟨a, rfl⟩ := hx.1 hlt
      have hsize : (u.sequence s).cache.size = (w.sequence s).cache.size + 1 := by
        rw [hcell]
        exact Array.size_push ..
      -- there is a further value, so the limit leaves room for it
      have hroom : (w.sequence s).cache.size < bound := by
        have hbelow := Nat.cast_lt.mp (lt_of_lt_of_le hlt hle)
        omega
      have hmax : max (u.sequence s).cache.size bound = max (w.sequence s).cache.size bound := by
        omega
      have hfirst : (s.advance E).run.run w = .ok (.ok (some a), u) := hrun
      rw [Sequence.drain, Attempt.run_bind_of_ok hfirst]
      change ∃ w', (do if bound < ((← get).sequence s).cache.size then _ else _ :
        Attempt H Unit).run.run u = _ ∧ _
      rw [Attempt.run_bind_of_ok (a := get) rfl, if_neg (by omega)]
      obtain ⟨w', hrest, hsupplies', hadds', hlimit', hsize', hreader', hcalls'⟩ :=
        ih hsupplies (hmax ▸ hle) (by omega) (by omega)
      have hgrown := hadds'.size_le
      refine ⟨w', hrest, hsupplies', hadds.trans hadds', hlimit'.trans hlimit, hsize', hreader', ?_⟩
      rw [hcalls', hcalls]
      omega
    · obtain rfl := hx.2 hend
      have hlast : (s.advance E).run.run w = .ok (.ok none, u) := hrun
      have hcache : (u.sequence s).cache = (w.sequence s).cache := congrArg (·.cache) hcell
      refine ⟨u, ?_, hsupplies, hadds, hlimit, ?_, congrArg (·.reader) hcell,
        by rw [hcache, hcalls]⟩
      · rw [Sequence.drain, Attempt.run_bind_of_ok hlast]
        rfl
      · rw [hcache]
        exact le_antisymm h.cache_size_le_total hend

end Draining

end Provision

/-! ### Sequences without a further value -/

namespace Sequence

section Still

variable (hstill : (s.advance E).run.run w = .ok (.ok none, w))
include hstill

theorem run_produce_of_still (count : Nat) :
    ∃ found, (s.produce E count).run.run w = .ok (.ok found, w) := by
  cases count with
  | zero => exact ⟨true, rfl⟩
  | succ count => exact ⟨false, Attempt.run_bind_of_ok hstill⟩

theorem run_materialize_of_still (hfuel : 0 < E.fuel) :
    (s.materialize E).run.run w = .ok (.ok (w.sequence s).cache, w) := by
  obtain ⟨rounds, hrounds⟩ := Nat.exists_eq_add_one_of_ne_zero (Nat.ne_of_gt hfuel)
  refine run_materialize_eq_ok.mpr ⟨.ok (), ?_, rfl⟩
  rw [hrounds, drain.eq_def]
  exact Attempt.run_bind_of_ok hstill

theorem run_read_of_still (hfuel : 0 < E.fuel) (index : Int) :
    (s.read E index).run.run w = .ok (.ok (wrapped (w.sequence s).cache index), w) := by
  unfold read
  split
  · exact Attempt.run_bind_of_ok (run_materialize_of_still hstill hfuel)
  · obtain ⟨found, hrun⟩ := run_produce_of_still hstill
      (index.toNat + 1 - (w.sequence s).cache.size)
    have hforce : (s.forceThrough E index.toNat).run.run w = .ok (.ok found, w) := hrun
    exact Attempt.run_bind_of_ok hforce

theorem run_readRange_of_still (hfuel : 0 < E.fuel) (step : Int) (count : Nat) (index : Int)
    (done : Array Value) :
    ∃ values, (s.readRange E step count index done).run.run w = .ok (.ok values, w) := by
  induction count generalizing index done with
  | zero => exact ⟨done.toList, rfl⟩
  | succ count ih =>
    obtain ⟨values, hrest⟩ := ih (index + step) (done.push (wrapped (w.sequence s).cache index))
    have hrun := run_read_of_still hstill hfuel index
    exact ⟨values, (Attempt.run_bind_of_ok hrun).trans hrest⟩

end Still

/-! ### Requests that need all values -/

variable {e : Error}

theorem run_length_of_error (h : (s.materialize E).run.run w = .ok (.error e, w')) :
    (s.length E).run.run w = .ok (.error e, w') :=
  Attempt.run_bind_eq_ok.mpr (.inr ⟨e, h, rfl⟩)

theorem run_slice_of_error (h : (s.materialize E).run.run w = .ok (.error e, w'))
    (start : Option Int) {stop : Int} (hstop : stop < 0) (step : Option Int) :
    (s.slice E start (some stop) step).run.run w = .ok (.error e, w') := by
  rw [slice_eq]
  simp only [if_pos hstop]
  exact Attempt.run_bind_eq_ok.mpr (.inr ⟨e, run_length_of_error h, rfl⟩)

/-- A slice that counts its stop from the end is answered once all values are cached. -/
theorem run_slice_of_materialized {values : Array Value} (hfuel : 0 < E.fuel)
    (h : (s.materialize E).run.run w = .ok (.ok values, w'))
    (hstill : (s.advance E).run.run w' = .ok (.ok none, w')) (start : Option Int) {stop : Int}
    (hstop : stop < 0) (step : Option Int) :
    ∃ answer, (s.slice E start (some stop) step).run.run w = .ok (.ok answer, w') := by
  have hlength : (s.length E).run.run w = .ok (.ok values.size, w') := Attempt.run_bind_of_ok h
  obtain ⟨read, hread⟩ := run_readRange_of_still hstill hfuel (Plain.stepOf step)
    (rangeCount (start.getD 0) (stop + values.size) (Plain.stepOf step)) (start.getD 0) #[]
  refine ⟨.items read, ?_⟩
  rw [slice_eq]
  simp only [if_pos hstop]
  rw [Attempt.run_bind_of_ok hlength]
  exact Attempt.run_bind_of_ok hread

theorem run_overwrite_of_error {x : External H.Source} {v : Value}
    (hcanonical : (canonicalize x).run.run w = .ok (.ok v, u))
    (h : (s.materialize E).run.run u = .ok (.error e, w')) {index : Int} (hindex : index < 0) :
    (s.overwrite E index x).run.run w = .ok (.error e, w') := by
  rw [overwrite, Attempt.run_bind_of_ok hcanonical, if_pos hindex]
  exact Attempt.run_bind_eq_ok.mpr (.inr ⟨e, run_length_of_error h, rfl⟩)

theorem run_overwrite_of_materialized {x : External H.Source} {v : Value} {values : Array Value}
    (hcanonical : (canonicalize x).run.run w = .ok (.ok v, u))
    (h : (s.materialize E).run.run u = .ok (.ok values, w')) {index : Int} (hindex : index < 0) :
    (s.overwrite E index x).run.run w =
      if values.size + index < 0 then .ok (.error (.indexOutOfBounds index values.size), w')
      else .ok (.ok (), w'.overwrite s (values.size + index).toNat v) := by
  have hlength : (s.length E).run.run u = .ok (.ok values.size, w') := Attempt.run_bind_of_ok h
  rw [overwrite, Attempt.run_bind_of_ok hcanonical, if_pos hindex, Attempt.run_bind_of_ok hlength]
  split
  · rfl
  · rfl

/-- Once all values are cached, a request for the whole sequence is answered, unless it
    compares sequences: that may take more means than there are. -/
theorem Request.Whole.run_of_materialized {request : Request H} (hwhole : request.Whole)
    (hscalar : ∀ target, request = .count target → target.asList? = none) {values : Array Value}
    (h : (s.materialize E).run.run w = .ok (.ok values, w')) :
    ∃ reply u, (request.act E s).run.run w = .ok (.ok reply, u) := by
  have hbind {f : Array Value → Attempt H Reply}
      (hf : ∃ reply u, (f values).run.run w' = .ok (.ok reply, u)) :
      ∃ reply u, (s.materialize E >>= f).run.run w = .ok (.ok reply, u) := by
    obtain ⟨reply, u, hrest⟩ := hf
    exact ⟨reply, u, (Attempt.run_bind_of_ok h).trans hrest⟩
  cases request with
  | materialize => exact hbind ⟨_, w', rfl⟩
  | length =>
    rw [act, Sequence.length, bind_assoc]
    exact hbind ⟨_, w', rfl⟩
  | read index =>
    have hnegative : index < 0 := hwhole
    rw [act, Sequence.read, if_pos hnegative, bind_assoc]
    exact hbind ⟨_, w', rfl⟩
  | count target =>
    have hcount : (countSame E target values.toList).run w' = .ok (_, w') :=
      run_countSame fun v _ => .inr (hscalar target rfl)
    rw [act, Sequence.count, bind_assoc]
    refine hbind ⟨_, w', Attempt.run_bind_of_ok (Attempt.run_lift_eq_ok.mpr ⟨_, hcount, rfl⟩)⟩
  | reverse =>
    rw [act, Sequence.reverse, bind_assoc]
    exact hbind ⟨_, _, rfl⟩
  | advance | overwrite | contains | slice | filter | append | flatten | equals | cached
  | exhausted | display | structureText => exact hwhole.elim

end Sequence

/-! ### Forcing under a limit -/

/-- Forcing has stopped at the first value that is one too many. -/
structure World.Exceeds (s : Sequence) (t : Tape) (bound : Nat) (w w' : World H) : Prop
    extends w.Adds s t w' where
  size : (w'.sequence s).cache.size = max (w.sequence s).cache.size bound + 1
  calls : (w'.tape t).calls ≤
    (w.tape t).calls + max 1 (bound + 1 - (w.sequence s).cache.size)

/-- What is exceeded is a matter of the sequence and its tape only. -/
theorem World.Exceeds.of_eq (h : u.Exceeds s t bound w') (hcell : u.sequence s = w.sequence s)
    (htape : u.tape t = w.tape t) : w.Exceeds s t bound w' where
  cache := hcell ▸ h.cache
  added := hcell ▸ h.added
  overwritten := hcell ▸ h.overwritten
  goes := htape ▸ h.goes
  size := hcell ▸ h.size
  calls := by
    rw [← hcell, ← htape]
    exact h.calls

namespace Provision

theorem Supplies.size_cache_le_calls {P : Provision H} (h : P.Supplies s t w) :
    (w.sequence s).cache.size ≤ (w.tape t).calls :=
  h.mirrors.cache_size_le.trans (TapeState.log_size_le_calls _)

section Forced

variable (hP : (yielded total stage).Valid E t.id s.id) (hlimit : w.limit = some bound)
variable (hfuel : bound < E.fuel) (h : (yielded total stage).Supplies s t w)
include hP hlimit hfuel h

theorem Supplies.run_materialize_of_lt
    (hlt : (max (w.sequence s).cache.size bound : Nat) < total) :
    ∃ w', (s.materialize E).run.run w = .ok (.error (.materializeLimit bound), w') ∧
      w.Exceeds s t bound w' := by
  have hcalled := h.size_cache_le_calls
  obtain ⟨w', hrun, hadds, hsize, hcalls⟩ :=
    h.run_drain_of_lt hP hlt (Nat.zero_lt_of_lt hfuel) (by omega)
  refine ⟨w', ?_, hadds, hsize, by omega⟩
  rw [Sequence.run_materialize_eq_ok, hlimit]
  exact ⟨_, hrun, rfl⟩

theorem Supplies.run_materialize_of_le
    (hle : total ≤ (max (w.sequence s).cache.size bound : Nat)) :
    ∃ w', (s.materialize E).run.run w = .ok (.ok (w'.sequence s).cache, w') ∧
      w.Adds s t w' ∧ (w'.sequence s).cache.size = total ∧
      (w'.tape t).calls ≤ (w.tape t).calls + max 1 (bound + 1 - (w.sequence s).cache.size) ∧
      (w'.sequence s).cache.toList = (w'.sequence s).contents (w'.tape t) ∧
      (w'.tape t).hasEnded = true ∧ (s.advance E).run.run w' = .ok (.ok none, w') := by
  have hcalled := h.size_cache_le_calls
  obtain ⟨w', hrun, hsupplies, hadds, -, hsize, hreader, hcalls⟩ :=
    h.run_drain_of_le hP hle (Nat.zero_lt_of_lt hfuel) (by omega)
  have hfailure := hsupplies.failure_eq_none
  obtain ⟨hended, hleft⟩ := hsupplies.mirrors.done hsupplies.busy hreader
  have hall := hsupplies.mirrors.toCopies.cache_eq_contents hsupplies.sound hleft
  have hwithin : (w'.sequence s).cache.size ≤ max (w.sequence s).cache.size bound :=
    Nat.cast_le.mp (hsize.trans_le hle)
  refine ⟨w', ?_, hadds, hsize, by omega, hall, hended, ?_⟩
  · rw [Sequence.run_materialize_eq_ok, hlimit]
    exact ⟨_, hrun, rfl⟩
  · exact Sequence.run_advance_iff.mpr (.still hfailure (.inr hreader))

end Forced

end Provision

/-- Under every limit, a sequence that was made over a producer that does not fail may be
    forced as a whole whenever no call is open, and

    - if there are more values than the limit allows and than are cached, forcing fails
      because of the limit, with one value too many cached.  So does every request for the
      whole sequence, in the same way; so do slices that count their stop from the end and
      assignments that count their position from there;
    - if there are no more, forcing gives all of them and the producer has ended.  No such
      request fails then, and if an assignment does, it is because of its position.

    In both cases the producer is called as often as the limit has room for what is not
    cached, and one time more, or once if there is no room; all that was cached stays where
    it is, and nothing is overwritten. -/
theorem Sequence.forced_within_limit (hB : B.Lawful) (hY : B.Yields total stage bottom)
    {p : Producer H} (hp : stage 0 p) {w₀ w₁ : World H} (hreached : Moment.Reached ⟨w₀, []⟩)
    {infinite : Bool} (hmade : (adopt p infinite).run w₀ = .ok (s, w₁))
    (hmoves : (Engine.ofBehavior B depth).Moves w₁ w) (hlimit : w.limit = some bound)
    (hbottom : bottom < depth) (hdepth : bound + 2 ≤ depth) :
    ((max (w.sequence s).cache.size bound : Nat) < total → ∃ w',
      (s.materialize (.ofBehavior B depth)).run.run w =
        .ok (.error (.materializeLimit bound), w') ∧
      w.Exceeds s w₀.freshTape bound w' ∧
      (∀ request : Request H, request.Whole → (request.act (.ofBehavior B depth) s).run.run w =
        .ok (.error (.materializeLimit bound), w')) ∧
      (∀ start stop step, stop < 0 →
        (s.slice (.ofBehavior B depth) start (some stop) step).run.run w =
          .ok (.error (.materializeLimit bound), w')) ∧
      ∀ index x, index < 0 → x.failure? = none → ∃ u,
        (s.overwrite (.ofBehavior B depth) index x).run.run w =
          .ok (.error (.materializeLimit bound), u) ∧
        w.Exceeds s w₀.freshTape bound u) ∧
    (total ≤ (max (w.sequence s).cache.size bound : Nat) → ∃ values w',
      (s.materialize (.ofBehavior B depth)).run.run w = .ok (.ok values, w') ∧
      values.size = total ∧ values.toList = (w.sequence s).contents (w'.tape w₀.freshTape) ∧
      (w'.tape w₀.freshTape).hasEnded = true ∧ w.Adds s w₀.freshTape w' ∧
      (w'.tape w₀.freshTape).calls ≤
        (w.tape w₀.freshTape).calls + max 1 (bound + 1 - (w.sequence s).cache.size) ∧
      (∀ request : Request H, request.Whole →
        (∀ e u, (request.act (.ofBehavior B depth) s).run.run w ≠ .ok (.error e, u)) ∧
        ((∀ target, request = .count target → target.asList? = none) → ∃ reply u,
          (request.act (.ofBehavior B depth) s).run.run w = .ok (.ok reply, u))) ∧
      (∀ start stop step, stop < 0 → ∃ answer,
        (s.slice (.ofBehavior B depth) start (some stop) step).run.run w = .ok (.ok answer, w')) ∧
      ∀ index x, index < 0 → x.failure? = none → ∃ u,
        (s.overwrite (.ofBehavior B depth) index x).run.run w =
          .ok (if values.size + index < 0 then .error (.indexOutOfBounds index values.size)
            else .ok (), u)) := by
  obtain ⟨depth, rfl⟩ := Nat.exists_eq_add_of_le' (Nat.le_of_add_left_le hdepth)
  have hsupplies := yielded_of_made hB hY hp hreached hmade hmoves
  have hP := hY.valid hbottom w₀.freshTape.id s.id
  have hfuel : bound < (Engine.ofBehavior B (depth + 2)).fuel := by
    change bound < depth + 1
    omega
  have hpos := Nat.zero_lt_of_lt hfuel
  -- the value of an assignment is made canonical first, which does nothing to the sequence
  have hbeside {x : External H.Source} (hx : x.failure? = none) :
      ∃ v u, (canonicalize x).run.run w = .ok (.ok v, u) ∧ u.limit = some bound ∧
        (Provision.yielded total stage).Supplies s w₀.freshTape u ∧
        u.sequence s = w.sequence s ∧ u.tape w₀.freshTape = w.tape w₀.freshTape := by
    obtain ⟨y, u, hrun, hspares, hy⟩ := run_canonicalize x w
    rw [hx] at hy
    obtain ⟨v, rfl, -⟩ := hy
    exact ⟨v, u, hrun, hspares.limit.trans hlimit,
      hsupplies.of_spares hP (hspares.mono (fun _ _ => trivial) fun _ _ => trivial) trivial,
      hspares.sequences s trivial hsupplies.sequence_lt,
      hspares.tapes _ trivial hsupplies.tape_lt⟩
  constructor
  · intro hlt
    obtain ⟨w', hrun, hexceeds⟩ := hsupplies.run_materialize_of_lt hP hlimit hfuel hlt
    refine ⟨w', hrun, hexceeds, fun request hwhole => hwhole.run_eq_error_iff.mpr hrun,
      fun start stop step hstop => run_slice_of_error hrun start hstop step,
      fun index x hindex hx => ?_⟩
    obtain ⟨v, u, hcanonical, hlimit', hsupplies', hcell, htape⟩ := hbeside hx
    obtain ⟨u', hrun', hexceeds'⟩ :=
      hsupplies'.run_materialize_of_lt hP hlimit' hfuel (by rwa [hcell])
    refine ⟨u', run_overwrite_of_error hcanonical hrun' hindex, ?_⟩
    exact hexceeds'.of_eq hcell htape
  · intro hle
    obtain ⟨w', hrun, hadds, hsize, hcalls, hall, hended, hstill⟩ :=
      hsupplies.run_materialize_of_le hP hlimit hfuel hle
    refine ⟨_, w', hrun, hsize, ?_, hended, hadds, hcalls, fun request hwhole => ⟨?_, ?_⟩,
      fun start stop step hstop => run_slice_of_materialized hpos hrun hstill start hstop step,
      fun index x hindex hx => ?_⟩
    · have hshown : (w'.sequence s).shown = (w.sequence s).shown := by
        funext i v
        rw [SequenceState.shown, SequenceState.shown, hadds.overwritten]
      rw [hall, SequenceState.contents, hshown]
      rfl
    · intro e u hfails
      cases hrun.symm.trans (hwhole.run_eq_error_iff.mp hfails)
    · exact fun hscalar => hwhole.run_of_materialized hscalar hrun
    · obtain ⟨v, u, hcanonical, hlimit', hsupplies', hcell, htape⟩ := hbeside hx
      obtain ⟨u', hrun', -, hsize', -⟩ :=
        hsupplies'.run_materialize_of_le hP hlimit' hfuel (by rwa [hcell])
      have hsame : (u'.sequence s).cache.size = (w'.sequence s).cache.size :=
        Nat.cast_inj.mp (hsize'.trans hsize.symm)
      rw [run_overwrite_of_materialized hcanonical hrun' hindex, hsame]
      split
      · exact ⟨u', rfl⟩
      · exact ⟨_, rfl⟩

namespace Session

def naturals : Script := ⟨.count 0 1 none none, 0, none⟩

theorem naturals_yields : behavior.Yields ⊤
    (fun k p => p = .source { naturals with calls := 0 + k }) 1 := by
  have hgives : naturals.supply.Gives 0 fun k => some (.int k) := by
    intro k
    have hentry : naturals.supply.entry? (0 + k) = some (.term (.int k)) := by
      simp [naturals, Supply.entry?]
    rw [hentry]
    exact ⟨.int k, .int k, .int k, rfl, rfl, rfl, rfl⟩
  exact (Script.streams hgives none).yields fun k =>
    ⟨fun _ => Option.some_ne_none _, fun _ => ENat.natCast_lt_top k⟩

/-- A sequence of all natural numbers has been made, and three of them are allowed. -/
def overNaturals : World host :=
  { start.withSequence (.source naturals) false with limit := some 3 }

theorem naturals_forced_within_limit :
    ∃ w', (Sequence.materialize (.ofBehavior behavior 6) ⟨0⟩).run.run overNaturals =
        .ok (.error (.materializeLimit 3), w') ∧
      (w'.sequence ⟨0⟩).cache.size = 4 ∧ (w'.tape ⟨0⟩).calls ≤ 4 := by
  have hmade : (Sequence.adopt (.source naturals) false).run start =
      .ok (⟨0⟩, start.withSequence (.source naturals) false) := rfl
  have hmoves : (Engine.ofBehavior behavior 6).Moves
      (start.withSequence (.source naturals) false) overNaturals := .limit _ (some 3)
  obtain ⟨w', hrun, hexceeds, -⟩ := (Sequence.forced_within_limit behavior_lawful naturals_yields
    rfl ⟨default, .refl _⟩ hmade hmoves rfl (by decide) (by decide)).1 (ENat.natCast_lt_top _)
  exact ⟨w', hrun, hexceeds.size, hexceeds.calls⟩

end Session

end MemoSeq
