/-
  MemoSeq/Proofs/Demand/Owners.lean
  ==================================
  **Sequences that own their producers.**

  The producer of such a sequence gives so many values, finitely many or not, and touches
  nothing that is there already (`Behavior.Delivers`): it is a container or an iterator of
  the host, and not made of other sequences.  Its sequence is supplied at all times
  (`Owner.supplied_of_moves`), whoever reads it and whatever else is done.

  What is read of its tape, and what an iteration over it gives, is the value at that
  position or the end, and the producer is called no further than up to there
  (`Owner.Reaches`).
-/
import MemoSeq.Proofs.Provision.Calls
import MemoSeq.Proofs.Provision.Unfailing

namespace MemoSeq

variable {H : Host} {B : Behavior H} {depth k : Nat} {w w' : World H}

/-- A producer that has been called is not called back. -/
theorem TapeState.Goes.calls_le {cell cell' : TapeState H} (h : cell.Goes cell') :
    cell.calls ≤ cell'.calls := by
  cases hended : cell.hasEnded with
  | true => rw [h.ended hended]
  | false =>
    have hcalls : cell.calls = cell.log.size := by simp [TapeState.calls, hended]
    rw [hcalls]
    exact h.size_le.trans cell'.log_size_le_calls

/-! ### Invariants of some tapes and sequences -/

/-- What is known of some tapes and sequences is kept by all that is done besides them, by
    who reads one of the tapes, and by advancing and overwriting one of the sequences. -/
structure Engine.Guards (E : Engine H) (T : Tape → Prop) (S : Sequence → Prop)
    (I : World H → Prop) : Prop where
  bypasses : ∀ {w w' : World H}, I w → w.Bypasses T S w' → I w'
  reads : ∀ {r r' : Reader} {x : Option Item} {w w' : World H},
    T r.tape → I w → r.Reads E w x r' w' → I w'
  advances : ∀ {s : Sequence} {y : Outcome (Option Value)} {w w' : World H},
    S s → I w → s.Advances E w y w' → I w'
  overwrite : ∀ {s : Sequence} {w : World H},
    S s → I w → ∀ position v, I (w.overwrite s position v)

namespace Engine

variable {E : Engine H} {T : Tape → Prop} {S : Sequence → Prop} {I : World H → Prop}

theorem Guards.of_reads (hG : E.Guards T S I) (hE : E.Within fun w w' => I w → I w')
    {r r' : Reader} {x : Option Item} (hw : I w) (h : r.Reads E w x r' w') : I w' := by
  by_cases ht : T r.tape
  · exact hG.reads ht hw h
  · cases h with
    | logged | paused => exact hw
    | drove p p' x v hlog hphase hnext =>
      have hv := hE.next p hnext (hG.bypasses hw (.updateTape w ht _))
      exact hG.bypasses hv (.updateTape v ht _)

theorem Moves.guards (hG : E.Guards T S I) (hE : E.Within fun w w' => I w → I w')
    (h : E.Moves w w') (hw : I w) : I w' := by
  induction h with
  | refl => exact hw
  | trans _ _ ih ih' => exact ih' (ih hw)
  | host | limit | displayLength =>
    exact hG.bypasses hw ⟨Nat.le_refl _, Nat.le_refl _, fun _ _ _ => rfl, fun _ _ _ => rfl⟩
  | onto p h =>
    cases h
    exact hG.bypasses hw ⟨by simp, Nat.le_refl _, fun _ _ hlt => World.tape_withTape_of_lt p hlt,
      fun _ _ _ => rfl⟩
  | adopt p infinite h =>
    cases h
    exact hG.bypasses hw (.withSequence _ p infinite)
  | overwrite w s position v =>
    by_cases hs : S s
    · exact hG.overwrite hs hw position v
    · exact hG.bypasses hw (.updateSequence w hs _)
  | next r h => exact hG.of_reads hE hw (Reader.run_next_iff.mp h)
  | advance s h =>
    have hadvances := Sequence.run_advance_iff.mp h
    by_cases hs : S s
    · exact hG.advances hs hw hadvances
    · cases hadvances with
      | failed | still => exact hw
      | pulled r r' x v hfailure hbusy hreader hreads =>
        have hv := hG.of_reads hE (hG.bypasses hw (.updateSequence _ hs _)) hreads
        exact hG.bypasses hv (.updateSequence v hs _)
  | pull s h => exact hE.pull s h hw
  | test t v h => exact hE.test t v h hw

/-- What is guarded at every depth is kept by whatever is done. -/
theorem moves_guards (hB : B.Lawful) (hG : ∀ depth, (Engine.ofBehavior B depth).Guards T S I)
    (h : (Engine.ofBehavior B depth).Moves w w') (hw : I w) : I w' :=
  h.guards (hG depth) (ofBehavior_within hB (fun depth hE _ _ h => h.guards (hG depth) hE) depth) hw

end Engine

/-! ### Producers that are owned -/

/-- A production that does not fail, and of whose values something is known, of each by its
    position. -/
structure Behavior.Delivers (B : Behavior H) (total : ℕ∞) (known : Nat → Value → Prop)
    (stage : Nat → Producer H → Prop) : Prop extends B.Yields total stage 1 where
  known : ∀ {k : Nat} {p p' : Producer H} {v : Value} {depth : Nat} {w w' : World H}, stage k p →
    (p.next (.ofBehavior B depth)).run w = .ok ((some (.ok v), p'), w') → known k v

namespace Behavior

/-- A production of fixed numbers and texts. -/
theorem Streams.delivers {items : Nat → Option Value} {stage : Nat → Producer H → Prop}
    (hS : B.Streams items stage) {total : ℕ∞} (htotal : ∀ k : Nat, k < total ↔ items k ≠ none) :
    B.Delivers total (fun k v => items k = some v) stage where
  toYields := hS.yields htotal
  known {k p p' v depth w w'} hp hrun := by
    have hdriven : (Engine.next (.ofBehavior B (depth + 1)) p).run w =
        .ok ((some (.ok v), p'), w') := hrun
    have hitem := (hS.next_of_run hp hdriven).1
    obtain ⟨a, ha, hav⟩ := Option.map_eq_some_iff.mp hitem.symm
    cases hav
    exact ha

/-- A container gives what its values become, nested containers too. -/
theorem delivers_container {externals : List (External H.Source)}
    (hgood : ∀ x ∈ externals, x.failure? = none) :
    B.Delivers externals.length (fun k v => ∃ x, externals[k]? = some x ∧ x.Becomes v)
      fun k p => p = .container (externals.drop k) where
  next hp depth w := ((yields_container hgood).next hp depth w).of_imp
    (Nat.lt_of_lt_of_le · (by simp))
  known {k p p' v depth w w'} hp hrun := by
    subst hp
    rcases Nat.lt_or_ge k externals.length with hlt | hge
    · obtain ⟨y, u, hcanon, -, hy⟩ := run_canonicalize externals[k] w
      rw [hgood _ (List.getElem_mem hlt)] at hy
      obtain ⟨a, rfl, ha⟩ := hy
      rw [List.drop_eq_getElem_cons hlt] at hrun
      cases hrun.symm.trans (Act.run_bind_of_eq hcanon)
      exact ⟨_, List.getElem?_eq_getElem hlt, ha⟩
    · rw [List.drop_eq_nil_of_le hge] at hrun
      cases hrun

end Behavior

/-- A sequence that owns a production of `total` values, and the tape that they come on. -/
structure Owner (B : Behavior H) where
  sequence : Sequence
  tape : Tape
  total : ℕ∞
  known : Nat → Value → Prop
  stage : Nat → Producer H → Prop
  delivers : B.Delivers total known stage

namespace Owner

variable (A : Owner B) {p p' : Producer H} {x : Option Item} {position asked : Nat}

def provision : Provision H where
  allows k x := if k < A.total then ∃ v, x = some (.ok v) ∧ A.known k v else x = none
  relies _ := True
  fits k p _ := A.stage k p

abbrev Stocked (w : World H) : Prop := A.provision.Stocks A.tape w

abbrev Supplied (w : World H) : Prop := A.provision.Supplies A.sequence A.tape w

variable {A}

theorem allows_some {a : Value} :
    A.provision.allows k (some (.ok a)) ↔ k < A.total ∧ A.known k a := by
  unfold provision
  dsimp only
  split <;> simp [*]

theorem not_allows_error {e : Error} : ¬ A.provision.allows k (some (.error e)) := by
  unfold provision
  dsimp only
  split <;> simp

theorem allows_none : A.provision.allows k none ↔ A.total ≤ k := by
  unfold provision
  dsimp only
  split
  case isTrue hlt => simpa using hlt
  case isFalse hge => simpa using hge

variable (A)

/-- Driven at any depth, the producer gives what is due and touches nothing. -/
theorem next_manages (hp : A.stage k p) (w : World H) :
    (Engine.next (.ofBehavior B depth) p).Manages (depth < 2) w fun y w' =>
      w.Spares (fun _ => True) (fun _ => True) w' ∧ A.provision.allows k y.1 ∧
        ∀ v, y.1 = some (.ok v) → A.stage (k + 1) y.2 := by
  cases depth with
  | zero => exact .halted Nat.zero_lt_two rfl
  | succ depth =>
    rcases A.delivers.next hp depth w with ⟨⟨x, p'⟩, w', hrun, hgives, hends, hspares⟩ |
      ⟨hwanting, h, hrun⟩
    · refine .of_run hrun ⟨hspares, ?_⟩
      rcases lt_or_ge (k : ℕ∞) A.total with hlt | hge
      · obtain ⟨v, rfl, hp'⟩ := hgives hlt
        exact ⟨allows_some.mpr ⟨hlt, A.delivers.known hp hrun⟩, fun _ _ => hp'⟩
      · obtain rfl : x = none := hends hge
        exact ⟨allows_none.mpr hge, nofun⟩
    · exact .halted (Nat.succ_lt_succ hwanting) hrun

theorem valid (hdepth : 2 ≤ depth) (m n : Nat) :
    A.provision.Valid (.ofBehavior B depth) m n where
  ended {k x} hx hvalue := by
    match x with
    | some (.ok v) => exact (hvalue v rfl).elim
    | some (.error e) => exact (not_allows_error hx).elim
    | none => exact allows_none.mpr ((allows_none.mp hx).trans (by exact_mod_cast k.le_succ))
  relies_mono _ _ := trivial
  fits_mono hp _ := hp
  next {k p w} _ hp := by
    have hmanages : (Engine.next (.ofBehavior B depth) p).Manages (depth < 2) w _ :=
      A.next_manages hp w
    obtain ⟨⟨x, p'⟩, w', hrun, hspares, hx, hp'⟩ := hmanages.run (Nat.not_lt.mpr hdepth)
    exact ⟨x, p', w', hrun, hx, trivial, hspares.mono (fun _ _ => trivial) fun _ _ => trivial, hp'⟩

end Owner

namespace Owner

variable {A : Owner B} {p : Producer H} {x : Option Item} {position asked : Nat} {i : Iteration}

theorem Stocked.of_eq (h : A.Stocked w) (hsize : w.tapes.size ≤ w'.tapes.size)
    (htape : w'.tape A.tape = w.tape A.tape) : A.Stocked w' where
  tape_lt := Nat.lt_of_lt_of_le h.tape_lt hsize
  sound := htape ▸ h.sound
  relies := trivial
  logged := htape ▸ h.logged
  phase := by
    rw [htape]
    exact h.phase

theorem Supplied.of_bypasses {T : Tape → Prop} {S : Sequence → Prop} (h : A.Supplied w)
    (hT : T A.tape) (hS : S A.sequence) (hw : w.Bypasses T S w') : A.Supplied w' where
  toStocks := Stocked.of_eq h.toStocks hw.tapesSize (hw.tapes _ hT h.tape_lt)
  sequence_lt := Nat.lt_of_lt_of_le h.sequence_lt hw.sequencesSize
  mirrors := by
    rw [hw.tapes _ hT h.tape_lt, hw.sequences _ hS h.sequence_lt]
    exact h.mirrors
  busy := by
    rw [hw.sequences _ hS h.sequence_lt]
    exact h.busy

namespace Stocked

theorem value_of_logged {y : Item} (h : A.Stocked w) (hy : (w.tape A.tape).log[k]? = some y) :
    ∃ v, y = .ok v ∧ k < A.total ∧ A.known k v := by
  have hallows := h.logged k y hy
  cases y with
  | error e => exact (not_allows_error hallows).elim
  | ok v => exact ⟨v, rfl, allows_some.mp hallows⟩

theorem size_le_total (h : A.Stocked w) : (w.tape A.tape).log.size ≤ A.total := by
  rcases Nat.eq_zero_or_eq_succ_pred (w.tape A.tape).log.size with hzero | hsucc
  · simp [hzero]
  · have hlt : (w.tape A.tape).log.size.pred < (w.tape A.tape).log.size := by omega
    obtain ⟨-, -, hbelow, -⟩ := h.value_of_logged (Array.getElem?_eq_getElem hlt)
    rw [hsucc]
    exact_mod_cast Order.add_one_le_of_lt hbelow

/-- A tape that has ended holds all values. -/
theorem total_eq_of_ended (h : A.Stocked w) (hended : (w.tape A.tape).hasEnded = true) :
    A.total = (w.tape A.tape).log.size :=
  le_antisymm (allows_none.mp (h.allows (Nat.le_refl _) (by simp) fun _ => hended)) h.size_le_total

/-- Driven from its tape, the producer leaves the tape stocked and everything else alone. -/
theorem drive_manages (h : A.Stocked w) (hphase : (w.tape A.tape).phase = .idle p) :
    (Engine.next (.ofBehavior B depth) p).Manages (depth < 2) (w.running A.tape) fun y v =>
      A.Stocked (v.recorded A.tape y.1 y.2) ∧
        w.Spares (· ≠ A.tape.id) (fun _ => True) (v.recorded A.tape y.1 y.2) ∧
        (v.recorded A.tape y.1 y.2).tape A.tape = (w.tape A.tape).started.recorded y.1 y.2 := by
  have hp : A.stage (w.tape A.tape).log.size p := by
    have hstocked := h.phase
    simp only [hphase] at hstocked
    exact hstocked
  have hidle : (w.tape A.tape).phase ≠ .ended := by simp [hphase]
  refine (A.next_manages hp (w.running A.tape)).mono ?_
  rintro ⟨x, p'⟩ v ⟨hspares, hx, hp'⟩
  have hlt : A.tape.id < (w.running A.tape).tapes.size := by simpa using h.tape_lt
  have hltv := Nat.lt_of_lt_of_le hlt hspares.tapesSize
  have hcell : v.tape A.tape = (w.tape A.tape).started := by
    rw [hspares.tapes _ trivial hlt, World.tape_running_self h.tape_lt]
  have hrunning : w.Spares (· ≠ A.tape.id) (fun _ => True) (w.running A.tape) :=
    .running w A.tape (by simp) hidle
  refine ⟨h.recorded (A.valid (Nat.le_refl 2) 0 0) hidle hltv hcell hx trivial hp', ?_, ?_⟩
  · exact (hrunning.trans (hspares.mono (fun _ _ => trivial) fun _ _ => trivial)).trans
      (.recorded v A.tape (by simp) (by simp [hcell]) x p')
  · rw [World.tape_recorded_self x hltv, hcell]

/-- Whoever reads the tape does so. -/
theorem of_reads (h : A.Stocked w) {r r' : Reader} (hr : r.tape = A.tape)
    (hreads : r.Reads (.ofBehavior B depth) w x r' w') :
    A.Stocked w' ∧ w.Spares (· ≠ A.tape.id) (fun _ => True) w' := by
  obtain ⟨t, position⟩ := r
  obtain rfl : t = A.tape := hr
  cases hreads with
  | logged | paused => exact ⟨h, .refl w⟩
  | drove p p' x v hlog hphase hnext =>
    obtain ⟨hstocked, hspares, -⟩ := (h.drive_manages hphase).result hnext
    exact ⟨hstocked, hspares⟩

end Stocked

/-- Of all that is there only the tape has been changed, and its producer has been called no
    further than for the value at this position. -/
structure Reaches (A : Owner B) (position : Nat) (w w' : World H) : Prop where
  stocked : A.Stocked w'
  spares : w.Spares (· ≠ A.tape.id) (fun _ => True) w'
  calls_le : (w'.tape A.tape).calls ≤ max (w.tape A.tape).calls (position + 1)

theorem Reaches.refl (h : A.Stocked w) (position : Nat) : A.Reaches position w w :=
  ⟨h, .refl w, Nat.le_max_left ..⟩

theorem Reaches.trans {w'' : World H} {earlier : Nat} (h : A.Reaches earlier w w')
    (h' : A.Reaches position w' w'') (hle : earlier ≤ position) : A.Reaches position w w'' where
  stocked := h'.stocked
  spares := h.spares.trans h'.spares
  calls_le := by
    have hfirst := h.calls_le
    have hsecond := h'.calls_le
    omega

theorem Reaches.host (h : A.Stocked w) (host : H.State) (position : Nat) :
    A.Reaches position w { w with host } :=
  ⟨Stocked.of_eq h (Nat.le_refl _) rfl, .host w host, Nat.le_max_left ..⟩

/-- A sequence stays supplied when its tape is read by others. -/
theorem Reaches.supplied (h : A.Reaches position w w') (hw : A.Supplied w) : A.Supplied w' :=
  hw.of_read h.stocked (h.spares.mono (fun _ hk heq => by omega) fun _ _ => trivial)

/-- So does a sequence on another tape. -/
theorem Reaches.supplied_of_ne {A' : Owner B} (h : A.Reaches position w w')
    (hne : A'.tape ≠ A.tape) (hw : A'.Supplied w) : A'.Supplied w' := by
  refine Supplied.of_bypasses (T := (· ≠ A.tape)) (S := fun _ => True) hw hne trivial ?_
  exact .of_spares h.spares (fun t ht heq => ht (congrArg Tape.mk heq)) fun _ _ => trivial

/-- At any depth, a reader gets what is due where it stands. -/
theorem Stocked.read_manages (h : A.Stocked w)
    (hposition : position ≤ (w.tape A.tape).log.size) :
    (Reader.next (.ofBehavior B depth) ⟨A.tape, position⟩).Manages (depth < 2) w fun y w' =>
      y.2 = Reader.past ⟨A.tape, position⟩ y.1 ∧ (w'.tape A.tape).log[position]? = y.1 ∧
        (y.1 = none → (w'.tape A.tape).hasEnded = true) ∧ A.Reaches position w w' := by
  cases hlog : (w.tape A.tape).log[position]? with
  | some y =>
    exact .of_run (Reader.run_next_of_logged hlog) ⟨rfl, hlog, nofun, .refl h position⟩
  | none =>
    have hend : position = (w.tape A.tape).log.size :=
      Nat.le_antisymm hposition (by simpa using hlog)
    have hphase := h.phase
    cases hcell : (w.tape A.tape).phase with
    | running => simp only [hcell] at hphase
    | ended =>
      refine .of_run (Reader.run_next_of_paused hlog (by simp [hcell]))
        ⟨rfl, hlog, fun _ => ?_, .refl h position⟩
      simp [TapeState.hasEnded, hcell]
    | idle p =>
      refine .congr (Reader.run_next_of_idle hlog hcell) ((h.drive_manages hcell).bind ?_)
      rintro ⟨x, p'⟩ v ⟨hstocked, hspares, hrecorded⟩
      refine .of_run rfl ⟨rfl, ?_, fun hnone => ?_, hstocked, hspares, ?_⟩
      · dsimp only
        rw [hrecorded, hend]
        change ((w.tape A.tape).started.recorded x p').log[(w.tape A.tape).started.log.size]? = x
        exact TapeState.recorded_log_size
      · dsimp only at hnone ⊢
        rw [hrecorded, hnone]
        rfl
      · dsimp only
        have hsound : (w.tape A.tape).started.Sound := h.sound.running hcell
        rw [hrecorded, hsound.calls_recorded (by simp),
          TapeState.calls_of_phase_ne_ended (by simp), TapeState.log_started, ← hend]
        exact Nat.le_max_right ..

/-! ### Sequences that are supplied for good -/

/-- Being supplied is kept at every depth: what the producer does when it is driven is known,
    and whoever drives it notes that on the tape. -/
theorem guards (A : Owner B) (depth : Nat) :
    (Engine.ofBehavior B depth).Guards (· = A.tape) (· = A.sequence) A.Supplied where
  bypasses h hw :=
    Supplied.of_bypasses (T := (· = A.tape)) (S := (· = A.sequence)) h rfl rfl hw
  reads ht hw h := by
    obtain ⟨hstocked, hspares⟩ := Stocked.of_reads hw.toStocks ht h
    exact hw.of_read hstocked (hspares.mono (fun _ hk heq => by omega) fun _ _ => trivial)
  advances {s y w w'} hs hw h := by
    obtain rfl : s = A.sequence := hs
    cases h with
    | failed | still => exact hw
    | pulled r r' x v hfailure hbusy hreader hreads =>
      obtain ⟨rfl, -, -⟩ := hw.mirrors.reading r hreader
      have hstocked : A.Stocked (w.waiting A.sequence) :=
        Stocked.of_eq hw.toStocks (Nat.le_refl _) rfl
      obtain ⟨hpast, hlog, hended, hreaches⟩ :=
        (hstocked.read_manages hw.mirrors.toCopies.cache_size_le).result
          (Reader.run_next_iff.mpr hreads)
      dsimp only at hpast hlog hended
      subst hpast
      have hsame := hreaches.spares.sequences A.sequence trivial (by simpa using hw.sequence_lt)
      rw [World.sequence_waiting_self hw.sequence_lt] at hsame
      have hgoes := hreaches.spares.goes A.tape hstocked.tape_lt
      exact (hreaches.stocked.settled (A.valid (Nat.le_refl 2) _ _)
        (Nat.lt_of_lt_of_le (by simpa using hw.sequence_lt) hreaches.spares.sequencesSize) hsame
        hfailure (hw.mirrors.toCopies.of_goes hgoes) hlog hended).1
  overwrite {s w} hs hw position v := by
    obtain rfl : s = A.sequence := hs
    exact hw.overwrite (A.valid (Nat.le_refl 2) _ _) position v

theorem supplied_of_moves (hB : B.Lawful) (h : (Engine.ofBehavior B depth).Moves w w')
    (hw : A.Supplied w) : A.Supplied w' :=
  Engine.moves_guards hB A.guards h hw

/-- The sequence has been made, when no call was open, and anything at all has been done
    since. -/
def Made (A : Owner B) (w : World H) : Prop :=
  ∃ p infinite w₀ w₁ depth, A.stage 0 p ∧ Moment.Reached ⟨w₀, []⟩ ∧
    (Sequence.adopt p infinite).run w₀ = .ok (A.sequence, w₁) ∧ w₀.freshTape = A.tape ∧
    (Engine.ofBehavior B depth).Moves w₁ w

theorem Made.since (h : A.Made w) : ∃ p infinite w₀ depth, A.stage 0 p ∧
    Moment.Reached ⟨w₀, []⟩ ∧ w₀.freshSequence = A.sequence ∧ w₀.freshTape = A.tape ∧
    (Engine.ofBehavior B depth).Moves (w₀.withSequence p infinite) w := by
  obtain ⟨p, infinite, w₀, w₁, depth, hp, hreached, hmade, htape, hmoves⟩ := h
  have hadopt : (Sequence.adopt p infinite).run w₀ =
      .ok (w₀.freshSequence, w₀.withSequence p infinite) := rfl
  obtain ⟨hsequence, rfl⟩ := Prod.mk.inj (Except.ok.inj (hadopt.symm.trans hmade))
  exact ⟨p, infinite, w₀, depth, hp, hreached, hsequence, htape, hmoves⟩

theorem Made.supplied (hB : B.Lawful) (h : A.Made w) : A.Supplied w := by
  obtain ⟨p, infinite, w₀, depth, hp, -, hsequence, htape, hmoves⟩ := h.since
  refine supplied_of_moves hB hmoves ?_
  have hsupplies := Provision.supplies_withSequence
    (A.valid (Nat.le_refl 2) w₀.freshTape.id w₀.freshSequence.id) trivial hp infinite
  rwa [htape, hsequence] at hsupplies

theorem Made.ordered (hB : B.Lawful) (h : A.Made w) : Moment.Ordered ⟨w, []⟩ := by
  obtain ⟨p, infinite, w₀, depth, -, hreached, -, -, hmoves⟩ := h.since
  exact (hreached.ordered.step (.adopt w₀ [] p infinite)).steps (Engine.moves_steps hB hmoves [])

/-! ### Iterations -/

/-- An iteration over the sequence that has been asked so many times, and whose end has not
    come yet.  What it found cached when it was opened is what had been produced. -/
def Attended (A : Owner B) (w : World H) (asked : Nat) (i : Iteration) : Prop :=
  ∃ found : List Value, (∀ (k : Nat) v, found[k]? = some v → k < A.total ∧ A.known k v) ∧
    found.length ≤ (w.tape A.tape).log.size ∧ asked ≤ (w.tape A.tape).log.size ∧
    i.Follows A.tape w found asked

namespace Attended

theorem of_goes (h : A.Attended w asked i) (hgoes : (w.tape A.tape).Goes (w'.tape A.tape)) :
    A.Attended w' asked i := by
  obtain ⟨found, hfound, hlength, hasked, hfollows⟩ := h
  exact ⟨found, hfound, hlength.trans hgoes.size_le, hasked.trans hgoes.size_le,
    hfollows.of_goes hgoes⟩

/-- An iteration that is opened while the sequence has not been overwritten. -/
theorem opened (h : A.Supplied w) (hclean : (w.sequence A.sequence).overwritten = []) :
    A.Attended w 0 (w.iteration A.sequence) := by
  refine ⟨_, fun k v hv => ?_, by simpa using h.mirrors.toCopies.cache_size_le, Nat.zero_le _,
    .opened h⟩
  rw [Array.getElem?_toList] at hv
  obtain ⟨produced, hlog, hshown⟩ := h.mirrors.cached k v hv
  obtain rfl : v = produced := by simpa [SequenceState.shown, hclean] using hshown
  exact allows_some.mp (h.logged k _ hlog)

/-- At any depth, the iteration gives the value at the position that it has come to, or the
    end. -/
theorem next_manages (h : A.Attended w asked i) (hstocked : A.Stocked w) :
    (i.next (.ofBehavior B depth)).Manages (depth < 2) w fun y w' =>
      A.Reaches asked w w' ∧
        ((asked < A.total ∧ ∃ v, y.1 = some (.ok v) ∧ A.known asked v ∧
            A.Attended w' (asked + 1) y.2) ∨
          (A.total = asked ∧ y.1 = none ∧ (w'.tape A.tape).hasEnded = true)) := by
  obtain ⟨found, hfound, hlength, hasked, hfollows⟩ := h
  refine (hfollows.next_manages hstocked.sound (Q := A.Reaches asked w) (.refl hstocked asked)
    fun hposition => hstocked.read_manages hposition).mono ?_
  rintro ⟨x, i'⟩ w' ⟨hfollows', hx, hnone, hreaches⟩
  refine ⟨hreaches, ?_⟩
  have hlength' := hlength.trans (hreaches.spares.goes A.tape hstocked.tape_lt).size_le
  have hasked' := hasked.trans (hreaches.spares.goes A.tape hstocked.tape_lt).size_le
  dsimp only at hx hnone ⊢
  cases hcached : found[asked]? with
  | some v =>
    have hlt := (List.getElem?_eq_some_iff.mp hcached).1
    obtain ⟨hbelow, hv⟩ := hfound asked v hcached
    exact .inl ⟨hbelow, v, by simp [hx, TapeState.behind, hcached], hv, found, hfound, hlength',
      Nat.le_trans hlt hlength', hfollows'⟩
  | none =>
    have hbehind : x = (w'.tape A.tape).log[asked]? := by
      simpa [TapeState.behind, hcached] using hx
    cases hlog : (w'.tape A.tape).log[asked]? with
    | some y =>
      obtain ⟨v, rfl, hbelow, hv⟩ := hreaches.stocked.value_of_logged hlog
      exact .inl ⟨hbelow, v, hbehind.trans hlog, hv, found, hfound, hlength',
        (Array.getElem?_eq_some_iff.mp hlog).1, hfollows'⟩
    | none =>
      have hend := hnone (hbehind.trans hlog)
      have hsize : (w'.tape A.tape).log.size = asked :=
        Nat.le_antisymm (by simpa using hlog) hasked'
      exact .inr ⟨hsize ▸ hreaches.stocked.total_eq_of_ended hend, hbehind.trans hlog, hend⟩

end Attended

end Owner

end MemoSeq
