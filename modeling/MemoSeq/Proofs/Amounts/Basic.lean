/-
  MemoSeq/Proofs/Amounts/Basic.lean
  ==================================
  **What a sequence amounts to.**

  At any time a sequence amounts to certain values, finitely many or not: those that are
  cached, overwritten or not, and behind them those that it gives when it is advanced time
  after time (`Sequence.AmountsTo`).  How it comes by them does not matter here: it may be
  made over a producer of its own or of other sequences, and others may have read its tape
  before.

  An advance caches the value that it gives, which is the next one, and the sequence is
  exhausted just when there is none (`Sequence.Stands.run_advance`).  So forcing it up to a
  position caches no more than that, and forcing it as a whole ends with its last value.
-/
import MemoSeq.Proofs.Flattening.Graded
import MemoSeq.Proofs.Forcing
import MemoSeq.Proofs.Limit.Repeated
import MemoSeq.Proofs.Provision.Steady

namespace MemoSeq

variable {H : Host} {B : Behavior H} {E : Engine H} {S : Nat → Option Value} {s : Sequence}
variable {t : Tape} {calls : List Call} {k count reach n depth : Nat} {w w' u : World H}

/-! ### Advancing time after time -/

/-- Behind the end there is nothing. -/
theorem eq_none_of_le (hended : ∀ k, S k = none → S (k + 1) = none) {j : Nat}
    (hk : S k = none) (hle : k ≤ j) : S j = none :=
  Nat.le_induction hk (fun k _ => hended k) j hle

namespace Sequence

/-- Advanced so many times, the sequence gives what `S` has from position `k` on, and
    nothing where `S` has nothing.  Meanwhile nobody puts a value into it or sets a limit. -/
inductive Gives (E : Engine H) (s : Sequence) (S : Nat → Option Value) :
    Nat → Nat → World H → Prop
  | done (k : Nat) (w : World H) : Gives E s S k 0 w
  | next {k count : Nat} {w u : World H} :
      (s.advance E).run.run w = .ok (.ok (S k), u) →
      (u.sequence s).overwritten = (w.sequence s).overwritten → u.limit = w.limit →
      Gives E s S (k + 1) count u → Gives E s S k (count + 1) w

/-- What the sequence has cached and is still to produce, given the means. -/
structure AmountsTo (B : Behavior H) (s : Sequence) (S : Nat → Option Value) (w : World H) :
    Prop where
  cached : ∀ k < (w.sequence s).cache.size, (w.sequence s).cache[k]? = S k
  gives : ∀ count, ∃ enough, ∀ depth ≥ enough,
    s.Gives (.ofBehavior B depth) S (w.sequence s).cache.size count w

theorem Gives.mono (h : s.Gives E S k count w) {fewer : Nat} (hle : fewer ≤ count) :
    s.Gives E S k fewer w := by
  induction h generalizing fewer with
  | done => exact Nat.le_zero.mp hle ▸ .done _ _
  | next hrun hover hlimit _ ih =>
    cases fewer with
    | zero => exact .done _ _
    | succ fewer => exact .next hrun hover hlimit (ih (Nat.le_of_succ_le_succ hle))

/-- Where nothing more comes, nothing is given time after time, and nothing is done. -/
theorem Gives.of_still (hrun : (s.advance E).run.run w = .ok (.ok none, w))
    (hS : ∀ j ≥ k, S j = none) (count : Nat) : s.Gives E S k count w := by
  induction count generalizing k with
  | zero => exact .done k w
  | succ count ih =>
    have hnone : S k = none := hS k (Nat.le_refl k)
    exact .next (hnone ▸ hrun) rfl rfl (ih fun j hj => hS j (Nat.le_of_succ_le hj))

theorem run_advance_of_exhausted (hexhausted : (w.sequence s).isExhausted = true)
    (hfailure : (w.sequence s).failure = none) :
    (s.advance E).run.run w = .ok (.ok none, w) := by
  have hstate : (w.sequence s).busy = false ∧ (w.sequence s).reader = none := by
    simpa [SequenceState.isExhausted] using hexhausted
  exact run_advance_iff.mpr (.still hfailure (.inr hstate.2))

end Sequence

namespace Moment

section Advances

variable (h : Draws ⟨w, calls⟩ s t) (hm : Ordered ⟨w, calls⟩) (hE : E.Within World.Leads)
include h hm hE

/-- If nothing is put into the sequence meanwhile, the value that is given comes behind what
    was cached, and that is as it was. -/
theorem Draws.cache_of_advance {x : Option Value}
    (hrun : (s.advance E).run.run w = .ok (.ok x, w'))
    (hover : (w'.sequence s).overwritten = (w.sequence s).overwritten) :
    (w'.sequence s).cache.toList = (w.sequence s).cache.toList ++ x.toList := by
  have hadvances := Sequence.run_advance_iff.mp hrun
  have hleads := hadvances.leads hE calls
  have hafter := h.steps hm hleads
  have hsize := h.size_cache_of_advance hm hE hrun
  -- what both caches have at a position is the produced value or what was put there
  have hsame : ∀ i < (w.sequence s).cache.size,
      (w'.sequence s).cache[i]? = (w.sequence s).cache[i]? := by
    intro i hi
    have hi' : i < (w'.sequence s).cache.size := by omega
    obtain ⟨produced, hlog, hv⟩ := h.mirrors.cached i _ (Array.getElem?_eq_getElem hi)
    obtain ⟨produced', hlog', hv'⟩ := hafter.mirrors.cached i _ (Array.getElem?_eq_getElem hi')
    cases hlog'.symm.trans (logged_steps hlog h.tape_lt hleads)
    dsimp only at hv hv'
    rw [SequenceState.shown, hover] at hv'
    rw [Array.getElem?_eq_getElem hi, Array.getElem?_eq_getElem hi', hv, hv']
    rfl
  have hlast : ∀ a, x = some a →
      (w'.sequence s).cache[(w.sequence s).cache.size]? = some a := by
    rintro a rfl
    generalize hy : (.ok (some a) : Outcome (Option Value)) = y at hadvances
    cases hadvances with
    | failed | still => cases hy
    | pulled r r' x v hfailure hbusy hreader hreads =>
      have hlt : s.id < v.sequences.size := by simpa using hafter.sequence_lt
      have hgrown := h.size_cache_of_reads hm hE hfailure hbusy hreader hreads
      rcases x with _ | (e | b)
      · cases hy
      · cases hy
      · cases hy
        rw [World.sequence_settled_self _ r' hlt, ← hgrown]
        exact Array.getElem?_push_size
  apply List.ext_getElem?
  intro i
  rw [Array.getElem?_toList]
  rcases Nat.lt_trichotomy i (w.sequence s).cache.size with hlt | rfl | hgt
  · rw [List.getElem?_append_left (by simpa using hlt), Array.getElem?_toList]
    exact hsame i hlt
  · rw [List.getElem?_append_right (by simp), Array.length_toList, Nat.sub_self]
    cases x with
    | none => exact Array.getElem?_eq_none (by simp [hsize])
    | some a => exact hlast a rfl
  · rw [Array.getElem?_eq_none (by cases x <;> simp [hsize] <;> omega),
      List.getElem?_eq_none]
    cases x <;> simp <;> omega

/-- A sequence that has just given a value is not exhausted. -/
theorem Draws.not_exhausted_of_advance {v : Value}
    (hrun : (s.advance E).run.run w = .ok (.ok (some v), w')) :
    (w'.sequence s).isExhausted = false := by
  have hadvances := Sequence.run_advance_iff.mp hrun
  have hafter := h.steps hm (hadvances.leads hE calls)
  generalize hy : (.ok (some v) : Outcome (Option Value)) = y at hadvances
  cases hadvances with
  | failed | still => cases hy
  | pulled r r' x u hfailure hbusy hreader hreads =>
    have hlt : s.id < u.sequences.size := by simpa using hafter.sequence_lt
    rcases x with _ | (e | a)
    · cases hy
    · cases hy
    · rw [World.sequence_settled_self _ r' hlt]
      rfl

end Advances

end Moment

/-! ### What is known of a sequence at a moment -/

/-- At a moment at which its own tape is not at work and there is no limit, the sequence has
    cached a beginning of `S`, and it goes on giving that as far as position `reach`. -/
structure Sequence.Stands (E : Engine H) (s : Sequence) (t : Tape) (S : Nat → Option Value)
    (reach : Nat) (calls : List Call) (w : World H) : Prop where
  ordered : Moment.Ordered ⟨w, calls⟩
  draws : Moment.Draws ⟨w, calls⟩ s t
  idle : (w.tape t).phase ≠ .running
  limit : w.limit = none
  cached : ∀ k < (w.sequence s).cache.size, (w.sequence s).cache[k]? = S k
  gives : s.Gives E S (w.sequence s).cache.size (reach - (w.sequence s).cache.size) w

/-- There is nothing left to be produced, and the sequence knows it. -/
structure Sequence.Ended (s : Sequence) (S : Nat → Option Value) (w : World H) : Prop where
  exhausted : (w.sequence s).isExhausted = true
  failure : (w.sequence s).failure = none
  all : S (w.sequence s).cache.size = none

theorem Sequence.AmountsTo.exists_stands (h : s.AmountsTo B S w) (hm : Moment.Ordered ⟨w, calls⟩)
    (hd : Moment.Draws ⟨w, calls⟩ s t) (hidle : (w.tape t).phase ≠ .running)
    (hlimit : w.limit = none) (reach : Nat) :
    ∃ enough, ∀ depth ≥ enough, s.Stands (.ofBehavior B depth) t S reach calls w := by
  obtain ⟨enough, hgives⟩ := h.gives (reach - (w.sequence s).cache.size)
  exact ⟨enough, fun depth hdepth => ⟨hm, hd, hidle, hlimit, h.cached, hgives depth hdepth⟩⟩

/-- From when it was made on, this is known whenever its tape is not at work. -/
theorem Sequence.AmountsTo.exists_stands_of_made (h : s.AmountsTo B S w) {p : Producer H}
    {w₀ w₁ : World H} {calls₀ : List Call} (hreached : Moment.Reached ⟨w₀, calls₀⟩)
    {infinite : Bool}
    (hmade : (adopt p infinite).run w₀ = .ok (s, w₁))
    (hlater : Moment.Steps ⟨w₁, calls₀⟩ ⟨w, calls⟩)
    (hidle : w₀.freshTape ∉ calls.map Call.tape) (hlimit : w.limit = none) (reach : Nat) :
    ∃ enough, ∀ depth ≥ enough, s.Stands (.ofBehavior B depth) w₀.freshTape S reach calls w := by
  obtain ⟨hm, hdraws⟩ := hreached.draws_of_made hmade hlater
  exact h.exists_stands hm hdraws (fun hrunning => hidle ((hm.running _).mp hrunning)) hlimit reach

namespace Sequence.Stands

variable (h : s.Stands E t S reach calls w)
include h

theorem le_of_none {n : Nat} (hn : S n = none) : (w.sequence s).cache.size ≤ n := by
  apply Nat.le_of_not_lt
  intro hlt
  have hcached := h.cached n hlt
  rw [hn, Array.getElem?_eq_getElem hlt] at hcached
  cases hcached

theorem cache_eq {values : List Value} (hS : ∀ k, S k = values[k]?) :
    (w.sequence s).cache.toList = values.take (w.sequence s).cache.size := by
  apply List.ext_getElem?
  intro k
  rcases Nat.lt_or_ge k (w.sequence s).cache.size with hlt | hge
  · rw [List.getElem?_take, if_pos hlt, Array.getElem?_toList, h.cached k hlt, hS]
  · rw [List.getElem?_eq_none (by simpa using hge),
      List.getElem?_eq_none ((List.length_take_le ..).trans hge)]

variable (hE : E.Within World.Leads) (hended : ∀ k, S k = none → S (k + 1) = none)
include hE hended

/-- An advance gives the next value and caches it; where there is none, the sequence is
    exhausted afterwards. -/
theorem run_advance (hreach : (w.sequence s).cache.size < reach) :
    ∃ w', (s.advance E).run.run w = .ok (.ok (S (w.sequence s).cache.size), w') ∧
      s.Stands E t S reach calls w' ∧
      match S (w.sequence s).cache.size with
      | some _ => (w'.sequence s).cache.size = (w.sequence s).cache.size + 1 ∧
          (w'.sequence s).isExhausted = false
      | none => (w'.sequence s).cache.size = (w.sequence s).cache.size ∧ s.Ended S w' := by
  obtain ⟨count, hcount⟩ := Nat.exists_eq_add_one_of_ne_zero (Nat.sub_ne_zero_of_lt hreach)
  have hgives := h.gives
  rw [hcount] at hgives
  cases hgives with
  | next hrun hover hlimit hrest =>
    rename_i w'
    have hleads := (Sequence.run_advance_iff.mp hrun).leads hE calls
    have hm := h.ordered.steps hleads
    have hd := h.draws.steps h.ordered hleads
    have hidle : (w'.tape t).phase ≠ .running := fun hrunning =>
      h.idle ((h.ordered.running t).mpr ((hm.running t).mp hrunning))
    have hcache := h.draws.cache_of_advance h.ordered hE hrun hover
    have hgrown := congrArg List.length hcache
    rw [List.length_append, Array.length_toList, Array.length_toList] at hgrown
    -- one value more at most is cached, behind those that were
    have hcached : ∀ k < (w'.sequence s).cache.size, (w'.sequence s).cache[k]? = S k := by
      intro k hk
      rw [← Array.getElem?_toList, hcache]
      rcases Nat.lt_or_ge k (w.sequence s).cache.size with hlt | hge
      · rw [List.getElem?_append_left (by simpa using hlt), Array.getElem?_toList, h.cached k hlt]
      · rw [List.getElem?_append_right (by simpa using hge), Array.length_toList]
        cases hv : S (w.sequence s).cache.size with
        | none =>
          rw [hv] at hgrown
          exact absurd hk (Nat.not_lt.mpr (hgrown.le.trans hge))
        | some v =>
          rw [hv] at hgrown
          obtain rfl : k = (w.sequence s).cache.size :=
            Nat.le_antisymm (Nat.le_of_lt_succ (hk.trans_eq hgrown)) hge
          rw [Nat.sub_self, hv]
          rfl
    -- what is given from there on is the rest
    have hlater : s.Gives E S (w'.sequence s).cache.size (reach - (w'.sequence s).cache.size) w' ∧
        match S (w.sequence s).cache.size with
        | some _ => (w'.sequence s).cache.size = (w.sequence s).cache.size + 1 ∧
            (w'.sequence s).isExhausted = false
        | none => (w'.sequence s).cache.size = (w.sequence s).cache.size ∧ s.Ended S w' := by
      cases hv : S (w.sequence s).cache.size with
      | some v =>
        rw [hv] at hrun hgrown
        have hsize : (w'.sequence s).cache.size = (w.sequence s).cache.size + 1 := hgrown
        rw [hsize]
        exact ⟨hrest.mono (by omega), rfl, h.draws.not_exhausted_of_advance h.ordered hE hrun⟩
      | none =>
        rw [hv] at hrun hgrown
        have hsize : (w'.sequence s).cache.size = (w.sequence s).cache.size := hgrown
        obtain ⟨hexhausted, hfailure⟩ :=
          h.draws.exhausted_of_advance h.ordered hE h.idle hrun nofun
        have hnone : ∀ j ≥ (w'.sequence s).cache.size, S j = none := fun j hj =>
          eq_none_of_le hended (hsize ▸ hv) hj
        exact ⟨.of_still (run_advance_of_exhausted hexhausted hfailure) hnone _, hsize,
          hexhausted, hfailure, hsize ▸ hv⟩
    exact ⟨w', hrun, ⟨hm, hd, hidle, hlimit.trans h.limit, hcached, hlater.1⟩, hlater.2⟩

/-- Producing so many values caches them all, or ends with the last one before. -/
theorem run_produce (count : Nat) (hreach : (w.sequence s).cache.size + count ≤ reach) :
    ∃ more w', (s.produce E count).run.run w = .ok (.ok more, w') ∧
      s.Stands E t S reach calls w' ∧
      ((w'.sequence s).cache.size = (w.sequence s).cache.size + count ∧
          ((w'.sequence s).isExhausted = true → w' = w) ∨
        (w'.sequence s).cache.size < (w.sequence s).cache.size + count ∧ s.Ended S w') := by
  induction count generalizing w with
  | zero => exact ⟨true, w, rfl, h, .inl ⟨rfl, fun _ => rfl⟩⟩
  | succ count ih =>
    obtain ⟨u, hrun, hu, hgiven⟩ := h.run_advance hE hended (by omega)
    rw [produce, Attempt.run_bind_of_ok hrun]
    cases hv : S (w.sequence s).cache.size with
    | none =>
      rw [hv] at hgiven
      exact ⟨false, u, rfl, hu, .inr ⟨by omega, hgiven.2⟩⟩
    | some v =>
      rw [hv] at hgiven
      obtain ⟨hsize, hgoing⟩ := hgiven
      obtain ⟨more, w', hrest, hw', hdone⟩ := ih hu (by omega)
      refine ⟨more, w', hrest, hw', hdone.imp ?_ ?_⟩
      · rintro ⟨hsize', hsame⟩
        refine ⟨by omega, fun hexhausted => ?_⟩
        rw [hsame hexhausted, hgoing] at hexhausted
        cases hexhausted
      · rintro ⟨hlt, hend⟩
        exact ⟨by omega, hend⟩

/-- Forcing up to a position at which there is a value caches no more than that. -/
theorem run_forceThrough {index : Nat} {v : Value} (hv : S index = some v)
    (hreach : index < reach) :
    ∃ more w', (s.forceThrough E index).run.run w = .ok (.ok more, w') ∧
      s.Stands E t S reach calls w' ∧
      (w'.sequence s).cache.size = max (w.sequence s).cache.size (index + 1) ∧
      (w'.sequence s).isExhausted = (w.sequence s).isExhausted := by
  rcases Nat.lt_or_ge index (w.sequence s).cache.size with hlt | hge
  · have hcount : index + 1 - (w.sequence s).cache.size = 0 := by omega
    have hrun : (s.forceThrough E index).run.run w =
        (s.produce E (index + 1 - (w.sequence s).cache.size)).run.run w := rfl
    rw [hcount] at hrun
    exact ⟨true, w, hrun, h, by omega, rfl⟩
  · obtain ⟨more, w', hrun, hw', ⟨hsize, hsame⟩ | ⟨hlt, hend⟩⟩ :=
      h.run_produce hE hended (index + 1 - (w.sequence s).cache.size) (by omega)
    · have hmoved : w' ≠ w := by
        rintro rfl
        omega
      have hgrows := h.draws.grows_steps h.ordered ((produce_moves E s _ hrun).leads hE calls)
      have hgoing : (w.sequence s).isExhausted = false :=
        Bool.eq_false_iff.mpr fun hexhausted => hmoved (hsame (hgrows.exhausted hexhausted))
      have hgoing' : (w'.sequence s).isExhausted = false :=
        Bool.eq_false_iff.mpr fun hexhausted => hmoved (hsame hexhausted)
      exact ⟨more, w', hrun, hw', by omega, hgoing'.trans hgoing.symm⟩
    · have hnone : S index = none := eq_none_of_le hended hend.all (by omega)
      rw [hv] at hnone
      cases hnone

/-- Forcing up to a position at which there is no value ends with the last one. -/
theorem run_forceThrough_of_none {index : Nat} (hv : S index = none) (hreach : index < reach) :
    ∃ more w', (s.forceThrough E index).run.run w = .ok (.ok more, w') ∧
      s.Stands E t S reach calls w' ∧ s.Ended S w' := by
  have hle := h.le_of_none hv
  obtain ⟨more, w', hrun, hw', ⟨hsize, -⟩ | ⟨-, hend⟩⟩ :=
    h.run_produce hE hended (index + 1 - (w.sequence s).cache.size) (by omega)
  · have hle' := hw'.le_of_none hv
    omega
  · exact ⟨more, w', hrun, hw', hend⟩

/-- So does forcing the sequence as a whole. -/
theorem run_drain {n rounds : Nat} (hn : S n = none) (hreach : n < reach)
    (hrounds : n < (w.sequence s).cache.size + rounds) :
    ∃ w', (s.drain E none rounds).run.run w = .ok (.ok (), w') ∧
      s.Stands E t S reach calls w' ∧ s.Ended S w' := by
  induction rounds generalizing w with
  | zero => exact absurd (h.le_of_none hn) (Nat.not_le.mpr hrounds)
  | succ rounds ih =>
    have hle := h.le_of_none hn
    obtain ⟨u, hrun, hu, hgiven⟩ := h.run_advance hE hended (by omega)
    rw [drain, Attempt.run_bind_of_ok hrun]
    cases hv : S (w.sequence s).cache.size with
    | none =>
      rw [hv] at hgiven
      exact ⟨u, rfl, hu, hgiven.2⟩
    | some v =>
      rw [hv] at hgiven
      exact ih hu (by omega)

theorem run_materialize {n : Nat} (hn : S n = none) (hreach : n < reach) (hfuel : n < E.fuel) :
    ∃ w', (s.materialize E).run.run w = .ok (.ok (w'.sequence s).cache, w') ∧
      s.Stands E t S reach calls w' ∧ s.Ended S w' := by
  have hrounds : n < (w.sequence s).cache.size + E.fuel := by omega
  obtain ⟨w', hrun, hw', hend⟩ := h.run_drain hE hended hn hreach hrounds
  exact ⟨w', run_materialize_eq_ok.mpr ⟨_, h.limit ▸ hrun, rfl⟩, hw', hend⟩

end Sequence.Stands

/-- When they are finitely many, the sequence unfolds to what it amounts to. -/
theorem Sequence.Stands.unfolds {values : List Value} (hE : E.Within World.Leads)
    (hS : ∀ k, S k = values[k]?) :
    s.Unfolds E values (s.Stands E t S (values.length + 1) calls) where
  cache _ h := h.cache_eq hS
  advance w h := by
    have hended : ∀ k, S k = none → S (k + 1) = none := by
      intro k hk
      rw [hS, List.getElem?_eq_none_iff] at hk ⊢
      exact Nat.le_succ_of_le hk
    have hle := h.le_of_none (n := values.length) (by simp [hS])
    obtain ⟨w', hrun, hw', hgiven⟩ := h.run_advance hE hended (Nat.lt_succ_of_le hle)
    rw [hS] at hrun hgiven
    refine ⟨w', hrun, hw', ?_⟩
    rcases Nat.lt_or_eq_of_le hle with hlt | heq
    · rw [List.getElem?_eq_getElem hlt] at hgiven
      have hsize := hgiven.1
      omega
    · rw [List.getElem?_eq_none heq.ge] at hgiven
      have hsize := hgiven.1
      omega

/-! ### Hosts that put nothing into sequences -/

/-- Asked so many times, the sequence gives what `S` has from position `k` on. -/
inductive Sequence.Advanced (E : Engine H) (s : Sequence) (S : Nat → Option Value) :
    Nat → Nat → World H → Prop
  | done (k : Nat) (w : World H) : Advanced E s S k 0 w
  | next {k count : Nat} {w u : World H} :
      (s.advance E).run.run w = .ok (.ok (S k), u) → Advanced E s S (k + 1) count u →
      Advanced E s S k (count + 1) w

/-- If the host's iterators and tests keep to a grading, as they do in sessions without hooks,
    nothing is put into a sequence and no limit is set while it is asked. -/
theorem Behavior.Redeems.amountsTo {K : Pledge H} {G : Grading} (hB : B.Redeems K)
    (hw : K.Holds G w) (hcached : ∀ k < (w.sequence s).cache.size, (w.sequence s).cache[k]? = S k)
    (hadvanced : ∀ count, ∃ enough, ∀ depth ≥ enough,
      s.Advanced (.ofBehavior B depth) S (w.sequence s).cache.size count w) :
    s.AmountsTo B S w := by
  refine ⟨hcached, fun count => ?_⟩
  obtain ⟨enough, hadvanced⟩ := hadvanced count
  refine ⟨enough, fun depth hdepth => ?_⟩
  have hgives : ∀ {k count : Nat} {w : World H} {G : Grading}, K.Holds G w →
      s.Advanced (.ofBehavior B depth) S k count w →
      s.Gives (.ofBehavior B depth) S k count w := by
    intro k count w G hw h
    induction h generalizing G with
    | done => exact .done _ _
    | next hrun _ ih =>
      obtain ⟨G', hleads, -⟩ := s.advance_graded (Engine.ofBehavior_graded hB depth) hw hrun
      exact .next hrun (hleads.overwritten s) hleads.limit (ih hleads.holds)
  exact hgives hw (hadvanced depth hdepth)

/-! ### Sequences whose items are known -/

/-- A sequence that is supplied with certain items amounts to what it has cached and then
    those. -/
theorem Provision.Supplies.amountsTo {P : Provision H} {items : Nat → Option Value} {bottom : Nat}
    (hP : ∀ depth ≥ bottom, P.Valid (.ofBehavior B depth) t.id s.id)
    (hitems : ∀ k x, P.allows k x → x = (items k).map .ok)
    (hended : ∀ k, items k = none → items (k + 1) = none) (h : P.Supplies s t w) :
    s.AmountsTo B (fun k => (w.sequence s).cache[k]?.or (items k)) w where
  cached k hk := by
    rw [Array.getElem?_eq_getElem hk, Option.some_or]
  gives count := by
    refine ⟨bottom, fun depth hdepth => ?_⟩
    -- the values are asked for one by one; those found cached at first do not come up again
    have hgives {S : Nat → Option Value} {k : Nat} {w : World H} (h : P.Supplies s t w)
        (hS : ∀ j ≥ (w.sequence s).cache.size, S j = items j) (hk : (w.sequence s).cache.size ≤ k)
        (hend : (w.sequence s).cache.size < k → items (w.sequence s).cache.size = none) :
        s.Gives (.ofBehavior B depth) S k count w := by
      induction count generalizing k w with
      | zero => exact .done k w
      | succ count ih =>
        obtain ⟨x, w', hrun, hx, -, hsupplies, hspares, hcell⟩ := h.run_advance (hP depth hdepth)
        obtain rfl := hitems _ x hx
        have hover : (w'.sequence s).overwritten = (w.sequence s).overwritten := by
          rw [hcell, SequenceState.overwritten_settled]
        cases hv : items (w.sequence s).cache.size with
        | none =>
          have hsize : (w'.sequence s).cache.size = (w.sequence s).cache.size := by
            rw [hcell, hv]
            rfl
          have hnone : S k = none := (hS k hk).trans (eq_none_of_le hended hv hk)
          rw [hv] at hrun
          refine .next (hnone ▸ hrun) hover hspares.limit (ih hsupplies ?_ (by omega) fun _ => ?_)
          · rwa [hsize]
          · rwa [hsize]
        | some v =>
          have hsize : (w'.sequence s).cache.size = (w.sequence s).cache.size + 1 := by
            rw [hcell, hv]
            exact Array.size_push ..
          obtain rfl : k = (w.sequence s).cache.size := by
            refine Nat.le_antisymm (Nat.le_of_not_lt fun hlt => ?_) hk
            rw [hend hlt] at hv
            cases hv
          have hsome : S (w.sequence s).cache.size = some v := (hS _ (Nat.le_refl _)).trans hv
          rw [hv] at hrun
          refine .next (hsome ▸ hrun) hover hspares.limit
            (ih hsupplies (fun j hj => hS j ?_) (by omega) fun hlt => ?_)
          · omega
          · omega
    refine hgives h (fun j hj => ?_) (Nat.le_refl _) fun hlt => absurd hlt (Nat.lt_irrefl _)
    rw [Array.getElem?_eq_none hj, Option.none_or]

/-- If nothing has been put into it, it amounts to those items. -/
theorem Provision.Supplies.amountsTo_of_clean {P : Provision H} {items : Nat → Option Value}
    {bottom : Nat} (hP : ∀ depth ≥ bottom, P.Valid (.ofBehavior B depth) t.id s.id)
    (hitems : ∀ k x, P.allows k x → x = (items k).map .ok)
    (hended : ∀ k, items k = none → items (k + 1) = none) (h : P.Supplies s t w)
    (hclean : (w.sequence s).overwritten = []) : s.AmountsTo B items w := by
  have hsame : (fun k => (w.sequence s).cache[k]?.or (items k)) = items := by
    funext k
    cases hv : (w.sequence s).cache[k]? with
    | none => rw [Option.none_or]
    | some v =>
      obtain ⟨produced, hlog, hshown⟩ := h.mirrors.cached k v hv
      have hitem := hitems k _ (h.logged k _ hlog)
      rw [SequenceState.shown, hclean] at hshown
      cases hi : items k with
      | none =>
        rw [hi] at hitem
        cases hitem
      | some a =>
        rw [hi] at hitem
        cases hitem
        exact congrArg some hshown
  exact hsame ▸ h.amountsTo hP hitems hended

/-- Over a producer of fixed items it amounts to what is cached and then these. -/
theorem Provision.Supplies.amountsTo_streamed {items : Nat → Option Value}
    {stage : Nat → Producer H → Prop} (hS : B.Streams items stage)
    (h : (Provision.streamed items stage).Supplies s t w) :
    s.AmountsTo B (fun k => (w.sequence s).cache[k]?.or (items k)) w :=
  h.amountsTo (fun _ hdepth => hS.valid hdepth t.id s.id) (fun _ _ hx => hx) fun _ => hS.ended

end MemoSeq
