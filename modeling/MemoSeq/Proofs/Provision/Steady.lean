/-
  MemoSeq/Proofs/Provision/Steady.lean
  ====================================
  **Productions that are fixed.**

  A producer of fixed numbers and texts gives them one after the other, for ever or up to
  its end, whatever the world is, and changes nothing but the state of the host
  (`Behavior.Streams`).  A tape that is stocked with it stays so whatever is done at all
  (`Engine.moves_restocks`): readers, sequences, derived sequences and code of the host
  may drive it as they like, at any depth.

  So an iteration over a sequence on such a tape gives what it found cached and then the
  fixed items behind that, and whatever else is done in the meantime does not matter
  (`Iteration.Asked.follows`).
-/
import MemoSeq.Proofs.Provision.Ending

namespace MemoSeq

variable {H : Host} {B : Behavior H} {items : Nat → Option Value}
variable {stage : Nat → Producer H → Prop} {infinite : Bool} {depth : Nat}
variable {s : Sequence} {t : Tape} {w w' : World H}

/-! ### Producers of fixed items -/

/-- The producers at the stages of a production of fixed numbers and texts: the one at
    stage `k` is about to give item `k`, or the end.  It changes nothing but the state of
    the host, and lacks the means for an item at depth zero only. -/
structure Behavior.Streams (B : Behavior H) (items : Nat → Option Value)
    (stage : Nat → Producer H → Prop) : Prop where
  scalar : ∀ {k : Nat} {v : Value}, items k = some v → v.asList? = none
  ended : ∀ {k : Nat}, items k = none → items (k + 1) = none
  next : ∀ {k : Nat} {p : Producer H}, stage k p → ∀ depth w,
    (∃ p' host, (p.next (.ofBehavior B depth)).run w =
      .ok (((items k).map .ok, p'), { w with host }) ∧ (items k ≠ none → stage (k + 1) p')) ∨
    depth = 0 ∧ ∃ h, (p.next (.ofBehavior B depth)).run w = .error h

namespace Behavior.Streams

variable (hS : B.Streams items stage)
include hS

/-- At every depth, what comes of driving it is the item that is due, if anything does. -/
theorem next_of_run {k : Nat} {p p' : Producer H} {x : Option Item} (hp : stage k p)
    (hrun : (Engine.next (.ofBehavior B depth) p).run w = .ok ((x, p'), w')) :
    x = (items k).map .ok ∧ (∃ host, w' = { w with host }) ∧
      (items k ≠ none → stage (k + 1) p') := by
  cases depth with
  | zero => exact (Act.run_starve_eq_ok.mp hrun).elim
  | succ depth =>
    rw [Engine.next_ofBehavior] at hrun
    rcases hS.next hp depth w with ⟨q, host, hnext, hq⟩ | ⟨-, h, hnext⟩
    · cases hnext.symm.trans hrun
      exact ⟨rfl, ⟨host, rfl⟩, hq⟩
    · cases hnext.symm.trans hrun

theorem run_next {k : Nat} {p : Producer H} (hp : stage k p) (hdepth : 2 ≤ depth) (w : World H) :
    ∃ p' host, (Engine.next (.ofBehavior B depth) p).run w =
      .ok (((items k).map .ok, p'), { w with host }) ∧
      (items k ≠ none → stage (k + 1) p') := by
  obtain ⟨depth, rfl⟩ := Nat.exists_eq_add_of_le' hdepth
  rw [Engine.next_ofBehavior]
  rcases hS.next hp (depth + 1) w with hnext | ⟨hzero, -⟩
  · exact hnext
  · cases hzero

theorem none_of_le {k j : Nat} (hnone : items k = none) (hle : k ≤ j) : items j = none := by
  induction hle with
  | refl => exact hnone
  | step _ ih => exact hS.ended ih

end Behavior.Streams

/-! ### Producers that do so -/

/-- What comes of making an external value canonical, when that takes no world: a number
    or a text, or the reason why there is none. -/
def External.plain? {ι : Type} : External ι → Option (Outcome Value)
  | .int n => some (.ok (.int n))
  | .rational r => some (.ok (.ofRat r))
  | .float x => some x.canonical
  | .str text => some (.ok (.str text))
  | .value v => if v.asList? = none then some (.ok v) else none
  | .symbolic s => some s.canonical
  | .items _ | .iterator _ => none

theorem Value.asList?_ofRat (r : Rat) : (Value.ofRat r).asList? = none := by
  unfold Value.ofRat
  split <;> rfl

theorem Binary.asList?_canonical {x : Double} {v : Value} (h : Binary.canonical x = .ok v) :
    v.asList? = none := by
  unfold Binary.canonical at h
  split at h
  · cases h
    exact Value.asList?_ofRat _
  · cases h

theorem Symbolic.asList?_canonical {s : Symbolic} {v : Value} (h : s.canonical = .ok v) :
    v.asList? = none := by
  unfold Symbolic.canonical at h
  split at h
  · exact Binary.asList?_canonical h
  · exact Binary.asList?_canonical h
  · split at h
    · cases h
      rfl
    · cases h
  all_goals
    split at h
    · cases h
      rfl
    · cases h
      exact Value.asList?_ofRat _
    · cases h

/-- A number or a text is made canonical without looking at the world. -/
theorem External.run_canonicalize_of_plain {x : External H.Source} {y : Outcome Value}
    (hx : x.plain? = some y) :
    (∀ v, y = .ok v → v.asList? = none) ∧ ∀ w, (canonicalize x).run.run w = .ok (y, w) := by
  cases x with
  | int | str =>
    cases hx
    refine ⟨?_, fun _ => rfl⟩
    rintro v ⟨⟩
    rfl
  | rational r =>
    cases hx
    refine ⟨?_, fun _ => rfl⟩
    rintro v ⟨⟩
    exact Value.asList?_ofRat r
  | float x =>
    cases hx
    exact ⟨fun _ => Binary.asList?_canonical, fun _ => rfl⟩
  | symbolic s =>
    cases hx
    exact ⟨fun _ => Symbolic.asList?_canonical, fun _ => rfl⟩
  | value v =>
    obtain ⟨hv, hy⟩ := Option.ite_none_right_eq_some.mp hx
    cases hy
    refine ⟨?_, fun _ => rfl⟩
    rintro u ⟨⟩
    exact hv
  | items | iterator => cases hx

namespace Behavior.Streams

theorem values {values : List Value} (hvalues : ∀ v ∈ values, v.asList? = none) :
    B.Streams (values[·]?) fun k p => p = .values (values.drop k) where
  scalar hv := hvalues _ (List.mem_of_getElem? hv)
  ended hnone := by
    rw [List.getElem?_eq_none_iff] at hnone ⊢
    exact Nat.le_succ_of_le hnone
  next {k p} hp depth w := by
    subst hp
    left
    rcases Nat.lt_or_ge k values.length with hlt | hge
    · rw [List.drop_eq_getElem_cons hlt, List.getElem?_eq_getElem hlt]
      exact ⟨_, w.host, rfl, fun _ => rfl⟩
    · rw [List.drop_eq_nil_of_le hge, List.getElem?_eq_none hge]
      exact ⟨_, w.host, rfl, fun hsome => (hsome rfl).elim⟩

/-- A container of numbers and texts gives what they become. -/
theorem container {externals : List (External H.Source)} {values : List Value}
    (hvalues : externals.map External.plain? = values.map fun v => some (.ok v)) :
    B.Streams (values[·]?) fun k p => p = .container (externals.drop k) where
  scalar {k v} hv := by
    have hplain : (externals[k]?).map External.plain? = some (some (.ok v)) := by
      rw [← List.getElem?_map, hvalues, List.getElem?_map, hv, Option.map_some]
    obtain ⟨x, -, hx⟩ := Option.map_eq_some_iff.mp hplain
    exact (External.run_canonicalize_of_plain hx).1 v rfl
  ended hnone := by
    rw [List.getElem?_eq_none_iff] at hnone ⊢
    exact Nat.le_succ_of_le hnone
  next {k p} hp depth w := by
    subst hp
    have hitem : (externals[k]?).map External.plain? = values[k]?.map fun v => some (.ok v) := by
      rw [← List.getElem?_map, hvalues, List.getElem?_map]
    left
    rcases Nat.lt_or_ge k externals.length with hlt | hge
    · rw [List.getElem?_eq_getElem hlt, Option.map_some] at hitem
      obtain ⟨v, hv, hx⟩ := Option.map_eq_some_iff.mp hitem.symm
      have hrun := (External.run_canonicalize_of_plain hx.symm).2 w
      rw [List.drop_eq_getElem_cons hlt, hv]
      exact ⟨_, w.host, Act.run_bind_of_eq hrun, fun _ => rfl⟩
    · rw [List.drop_eq_nil_of_le hge]
      rw [List.getElem?_eq_none hge, Option.map_none] at hitem
      rw [Option.map_eq_none_iff.mp hitem.symm]
      exact ⟨_, w.host, rfl, fun hsome => (hsome rfl).elim⟩

/-- A host iterator gives what its items become, for ever or up to its end, if all it does
    is to count in the host's own state. -/
theorem source {sources : Nat → H.Source}
    (hscalar : ∀ {k : Nat} {v : Value}, items k = some v → v.asList? = none)
    (hended : ∀ {k : Nat}, items k = none → items (k + 1) = none)
    (hpull : ∀ k depth w, ∃ host,
      (items k = none ∧ (B.pull (.ofBehavior B depth) (sources k)).run w =
          .ok ((none, sources (k + 1)), { w with host })) ∨
        ∃ x v, items k = some v ∧ x.plain? = some (.ok v) ∧
          (B.pull (.ofBehavior B depth) (sources k)).run w =
            .ok ((some (.ok x), sources (k + 1)), { w with host })) :
    B.Streams items fun k p => p = .source (sources k) where
  scalar := hscalar
  ended := hended
  next {k p} hp depth w := by
    subst hp
    cases depth with
    | zero => exact .inr ⟨rfl, _, rfl⟩
    | succ depth =>
      left
      obtain ⟨host, ⟨hnone, hrun⟩ | ⟨x, v, hsome, hx, hrun⟩⟩ := hpull k depth w
      · rw [hnone]
        exact ⟨_, host, Act.run_bind_of_eq hrun, fun hsome => (hsome rfl).elim⟩
      · have hcanon := (External.run_canonicalize_of_plain hx).2 { w with host }
        rw [hsome]
        exact ⟨_, host, (Act.run_bind_of_eq hrun).trans (Act.run_bind_of_eq hcanon),
          fun _ => rfl⟩

end Behavior.Streams

/-! ### Tapes that stay stocked -/

def Provision.streamed (items : Nat → Option Value) (stage : Nat → Producer H → Prop) :
    Provision H where
  allows k x := x = (items k).map .ok
  relies _ := True
  fits k p _ := stage k p

/-- Whatever has been done, a tape is still stocked and has gone on. -/
def World.Restocks (P : Provision H) (t : Tape) (w w' : World H) : Prop :=
  P.Stocks t w → P.Stocks t w' ∧ (w.tape t).Goes (w'.tape t)

instance (P : Provision H) (t : Tape) : IsPreorder (World H) (World.Restocks P t) where
  refl w h := ⟨h, .refl _⟩
  trans u v w huv hvw h := by
    obtain ⟨h', hgoes⟩ := huv h
    obtain ⟨h'', hgoes'⟩ := hvw h'
    exact ⟨h'', hgoes.trans hgoes'⟩

theorem Behavior.Streams.valid (hS : B.Streams items stage) (hdepth : 2 ≤ depth) (m n : Nat) :
    (Provision.streamed items stage).Valid (.ofBehavior B depth) m n where
  ended {k x} hx hvalue := by
    have hitem : x = (items k).map .ok := hx
    cases hv : items k with
    | none => simp [Provision.streamed, hS.ended hv]
    | some v => exact (hvalue v (by rw [hitem, hv, Option.map_some])).elim
  relies_mono _ _ := trivial
  fits_mono hp _ := hp
  next {k p w} _ hp := by
    obtain ⟨p', host, hrun, hstage⟩ := hS.run_next hp hdepth w
    refine ⟨_, p', _, hrun, rfl, trivial, .host w host, fun v hv => hstage ?_⟩
    rintro hnone
    simp [hnone] at hv

/-- Whether a tape is stocked with fixed items is a matter of its cell only. -/
theorem Provision.Stocks.of_tape (h : (Provision.streamed items stage).Stocks t w)
    (hlt : t.id < w'.tapes.size) (htape : w'.tape t = w.tape t) :
    (Provision.streamed items stage).Stocks t w' where
  tape_lt := hlt
  sound := htape ▸ h.sound
  relies := trivial
  logged := htape ▸ h.logged
  phase := by
    rw [htape]
    exact h.phase

theorem World.Restocks.of_tape (hsize : w.tapes.size ≤ w'.tapes.size)
    (htape : t.id < w.tapes.size → w'.tape t = w.tape t) :
    World.Restocks (Provision.streamed items stage) t w w' := by
  intro h
  have hsame := htape h.tape_lt
  exact ⟨h.of_tape (Nat.lt_of_lt_of_le h.tape_lt hsize) hsame, hsame ▸ .refl _⟩

theorem Provision.Stocks.running (h : (Provision.streamed items stage).Stocks t w) {u : Tape}
    (hne : u ≠ t) : (Provision.streamed items stage).Stocks t (w.running u) :=
  h.of_tape (by simpa using h.tape_lt) (World.tape_running_of_ne hne)

/-- When the producer of a tape that is stocked with fixed items has been driven, the tape
    is stocked again. -/
theorem Provision.Stocks.drove (hS : B.Streams items stage)
    (h : (Provision.streamed items stage).Stocks t w) {p p' : Producer H} {x : Option Item}
    {v : World H} (hphase : (w.tape t).phase = .idle p)
    (hx : x = (items (w.tape t).log.size).map .ok)
    (hv : ∃ host, v = { w.running t with host })
    (hstage : items (w.tape t).log.size ≠ none → stage ((w.tape t).log.size + 1) p') :
    (Provision.streamed items stage).Stocks t (v.recorded t x p') ∧
      (v.recorded t x p').tape t = (w.tape t).started.recorded x p' := by
  obtain ⟨host, rfl⟩ := hv
  have hidle : (w.tape t).phase ≠ .ended := by simp [hphase]
  have hcell : World.tape { w.running t with host } t = (w.tape t).started :=
    World.tape_running_self h.tape_lt
  have hlt : t.id < (w.running t).tapes.size := by simpa using h.tape_lt
  refine ⟨h.recorded (hS.valid (Nat.le_refl 2) 0 0) hidle hlt hcell hx trivial ?_, ?_⟩
  · intro a ha
    refine hstage fun hnone => ?_
    rw [hx, hnone] at ha
    cases ha
  · have hrecorded := World.tape_recorded_self (w := { w.running t with host }) x hlt (p := p')
    rwa [hcell] at hrecorded

/-- What reading does, and what changes no tape, says what all moves do. -/
theorem Engine.Moves.of_reads {E : Engine H} {R : World H → World H → Prop}
    [IsPreorder (World H) R] (hE : E.Within R)
    (hsame : ∀ {w w' : World H}, w.tapes.size ≤ w'.tapes.size →
      (∀ q : Tape, q.id < w.tapes.size → w'.tape q = w.tape q) → R w w')
    (hreads : ∀ {r r' : Reader} {x : Option Item} {w w' : World H}, r.Reads E w x r' w' → R w w')
    (h : E.Moves w w') : R w w' := by
  induction h with
  | refl w => exact refl_of R w
  | trans _ _ ih ih' => exact trans_of R ih ih'
  | host | limit | displayLength | overwrite => exact hsame (Nat.le_refl _) fun _ _ => rfl
  | onto p h =>
    cases h
    exact hsame (by simp) fun _ hlt => World.tape_withTape_of_lt p hlt
  | adopt p infinite h =>
    cases h
    exact hsame (by simp) fun _ hlt => World.tape_withTape_of_lt p hlt
  | next r h => exact hreads (Reader.run_next_iff.mp h)
  | advance u h =>
    cases Sequence.run_advance_iff.mp h with
    | failed | still => exact refl_of R _
    | pulled r r' x v hfailure hbusy hreader hread =>
      -- the sequence is changed before and after, the tapes only by what is read
      have hwaiting {w : World H} : R w (w.waiting u) := hsame (Nat.le_refl _) fun _ _ => rfl
      have hsettled : R v (v.settled u x r') := hsame (Nat.le_refl _) fun _ _ => rfl
      exact trans_of R (trans_of R hwaiting (hreads hread)) hsettled
  | pull s h => exact hE.pull s h
  | test q v h => exact hE.test q v h

section Restocks

variable (hS : B.Streams items stage)
variable (hE : (Engine.ofBehavior B depth).Within
  (World.Restocks (Provision.streamed items stage) t))
include hS hE

/-- A reader that drives the producer gets the item that is due; one that drives another
    producer does what the engine does. -/
theorem Reader.Reads.restocks {r r' : Reader} {x : Option Item}
    (h : r.Reads (.ofBehavior B depth) w x r' w') :
    World.Restocks (Provision.streamed items stage) t w w' := by
  cases h with
  | logged | paused => exact refl_of (World.Restocks (Provision.streamed items stage) t) w
  | drove p p' x v hlog hphase hnext =>
    by_cases ht : r.tape = t
    · subst ht
      intro h
      have hfits : stage (w.tape r.tape).log.size p := by
        have hstocked := h.phase
        simp only [hphase] at hstocked
        exact hstocked
      have hidle : (w.tape r.tape).phase ≠ .ended := by simp [hphase]
      obtain ⟨hx, hv, hstage⟩ := hS.next_of_run hfits hnext
      obtain ⟨hstocks, hcell⟩ := h.drove hS hphase hx hv hstage
      refine ⟨hstocks, ?_⟩
      rw [hcell]
      exact (TapeState.Goes.started hidle).trans (.recorded (by simp) _ _)
    · have hrunning : World.Restocks (Provision.streamed items stage) t w (w.running r.tape) :=
        .of_tape (by simp) fun _ => World.tape_running_of_ne ht
      have hrecorded : World.Restocks (Provision.streamed items stage) t v
          (v.recorded r.tape x p') :=
        .of_tape (by simp) fun _ => World.tape_recorded_of_ne _ ht
      exact trans_of _ (trans_of _ hrunning (hE.next p hnext)) hrecorded

theorem Engine.Moves.restocks (h : (Engine.ofBehavior B depth).Moves w w') :
    World.Restocks (Provision.streamed items stage) t w w' :=
  h.of_reads hE (fun hsize hsame => .of_tape hsize fun hlt => hsame t hlt) fun hread =>
    hread.restocks hS hE

end Restocks

/-- Whatever is done at all, a tape with a producer of fixed items stays stocked. -/
theorem Engine.moves_restocks (hB : B.Lawful) (hS : B.Streams items stage)
    (h : (Engine.ofBehavior B depth).Moves w w') :
    World.Restocks (Provision.streamed items stage) t w w' :=
  h.restocks hS (Engine.ofBehavior_within hB (fun _ hE _ _ h => h.restocks hS hE) depth)

/-- A sequence that has not called is not waiting. -/
theorem Moment.Draws.busy_eq_false {calls : List Call} (h : Moment.Draws ⟨w, calls⟩ s t)
    (hcalls : ∀ r, Call.pull s r ∉ calls) : (w.sequence s).busy = false := by
  cases hbusy : (w.sequence s).busy with
  | false => rfl
  | true => exact (hcalls _ ((h.calls ⟨t, _⟩).mpr ⟨hbusy, rfl⟩)).elim

/-- A sequence that draws from a stocked tape is supplied, unless it has called. -/
theorem Moment.Draws.supplies_of_not_mem {P : Provision H} {calls : List Call}
    (h : Moment.Draws ⟨w, calls⟩ s t) (hcalls : ∀ r, Call.pull s r ∉ calls)
    (hstocks : P.Stocks t w) : P.Supplies s t w :=
  ⟨hstocks, h.sequence_lt, h.mirrors, h.busy_eq_false hcalls⟩

theorem Moment.Draws.supplies {P : Provision H} (h : Moment.Draws ⟨w, []⟩ s t)
    (hstocks : P.Stocks t w) : P.Supplies s t w :=
  h.supplies_of_not_mem (fun _ => List.not_mem_nil) hstocks

/-- A sequence that was made over a producer of fixed items is supplied with them whenever
    no call is open. -/
theorem Sequence.supplies_of_made (hB : B.Lawful) (hS : B.Streams items stage) {p : Producer H}
    (hp : stage 0 p) {w₀ w₁ : World H} (hreached : Moment.Reached ⟨w₀, []⟩) {infinite : Bool}
    (hmade : (adopt p infinite).run w₀ = .ok (s, w₁))
    (hmoves : (Engine.ofBehavior B depth).Moves w₁ w) :
    (Provision.streamed items stage).Supplies s w₀.freshTape w := by
  have hdraws := (hreached.draws_of_made hmade (Engine.moves_steps hB hmoves [])).2
  cases hmade
  have hstocks := (Provision.supplies_withSequence (hS.valid (Nat.le_refl 2) _ _)
    (w := w₀) trivial hp infinite).toStocks
  exact hdraws.supplies (Engine.moves_restocks hB hS hmoves hstocks).1

/-! ### Iterations over them -/

/-- What a reader gets of a tape that is stocked with fixed items is the one that is due. -/
theorem Provision.Stocks.item_eq (h : (Provision.streamed items stage).Stocks t w)
    (hS : B.Streams items stage) {k : Nat} {x : Option Item} (hx : (w.tape t).log[k]? = x)
    (hnone : x = none → (w.tape t).hasEnded = true) : x = (items k).map .ok := by
  cases x with
  | some x => exact h.logged k x hx
  | none =>
    have hend : (none : Option Item) = (items (w.tape t).log.size).map .ok :=
      h.allows (Nat.le_refl _) (by simp) hnone
    have hle : (w.tape t).log.size ≤ k := by simpa using hx
    rw [hS.none_of_le (Option.map_eq_none_iff.mp hend.symm) hle]
    rfl

theorem Provision.Stocks.behind_eq (h : (Provision.streamed items stage).Stocks t w)
    (hS : B.Streams items stage) {found : List Value} {k : Nat} {x : Option Item}
    (hx : x = (w.tape t).behind found k) (hnone : x = none → (w.tape t).hasEnded = true) :
    x = (found[k]?.or (items k)).map .ok := by
  cases hfound : found[k]? with
  | some v => simpa [TapeState.behind, hfound] using hx
  | none =>
    rw [TapeState.behind, hfound, Option.map_none, Option.none_or] at hx
    exact h.item_eq hS hx.symm hnone

/-- An iteration is asked for its next item again and again, and anything at all is done
    in between. -/
inductive Iteration.Asked (E : Engine H) (i : Iteration) (w : World H) :
    List (Option Item) → Iteration → World H → Prop
  | opened : Asked E i w [] i w
  | meanwhile {given : List (Option Item)} {i' : Iteration} {w' w'' : World H} :
      Asked E i w given i' w' → E.Moves w' w'' → Asked E i w given i' w''
  | next {given : List (Option Item)} {x : Option Item} {i' i'' : Iteration} {w' w'' : World H} :
      Asked E i w given i' w' → (i'.next E).run w' = .ok ((x, i''), w'') →
      Asked E i w (given ++ [x]) i'' w''

/-- What has been given is on the tape behind what was found cached. -/
theorem Iteration.Asked.follows (hB : B.Lawful) (hS : B.Streams items stage) (hdepth : 2 ≤ depth)
    (h : (Provision.streamed items stage).Supplies s t w) {given : List (Option Item)}
    {i : Iteration} (hasked : (w.iteration s).Asked (.ofBehavior B depth) w given i w') :
    (Provision.streamed items stage).Stocks t w' ∧
      i.Follows t w' (w.sequence s).cache.toList given.length ∧
      ∀ j x, given[j]? = some x → x = ((w.sequence s).cache[j]?.or (items j)).map .ok := by
  induction hasked with
  | opened => exact ⟨h.toStocks, .opened h, by simp⟩
  | meanwhile _ hmoves ih =>
    obtain ⟨hstocks, hfollows, hgiven⟩ := ih
    obtain ⟨hstocks', hgoes⟩ := Engine.moves_restocks hB hS hmoves hstocks
    exact ⟨hstocks', hfollows.of_goes hgoes, hgiven⟩
  | @next given x i' i'' w' w'' _ hnext ih =>
    obtain ⟨hstocks, hfollows, hgiven⟩ := ih
    obtain ⟨y, j', v, hrun, hfollows', hy, hnone, hstocks', -⟩ :=
      hfollows.run_next (hS.valid hdepth _ s.id) hstocks
    cases hnext.symm.trans hrun
    refine ⟨hstocks', by simpa using hfollows', fun j z hz => ?_⟩
    rcases Nat.lt_or_ge j given.length with hlt | hge
    · rw [List.getElem?_append_left hlt] at hz
      exact hgiven j z hz
    · obtain ⟨hj, rfl⟩ : j = given.length ∧ z = x := by
        obtain ⟨hlt, hz⟩ := List.getElem?_eq_some_iff.mp hz
        rw [List.length_append, List.length_singleton] at hlt
        obtain rfl : j = given.length := by omega
        exact ⟨rfl, by simpa using hz.symm⟩
      subst hj
      simpa using hstocks'.behind_eq hS hy hnone

/-- So far it has given what it found cached and behind that the fixed items, and it goes on
    to. -/
theorem Iteration.Asked.gives (hB : B.Lawful) (hS : B.Streams items stage) (hdepth : 2 ≤ depth)
    (h : (Provision.streamed items stage).Supplies s t w) {given : List (Option Item)}
    {i : Iteration} (hasked : (w.iteration s).Asked (.ofBehavior B depth) w given i w') :
    (∀ j x, given[j]? = some x → x = ((w.sequence s).cache[j]?.or (items j)).map .ok) ∧
      ∃ i' w'', (i.next (.ofBehavior B depth)).run w' =
        .ok ((((w.sequence s).cache[given.length]?.or (items given.length)).map .ok, i'), w'') := by
  obtain ⟨hstocks, hfollows, hgiven⟩ := hasked.follows hB hS hdepth h
  obtain ⟨x, i', w'', hrun, -, hx, hnone, hstocks', -⟩ :=
    hfollows.run_next (hS.valid hdepth _ s.id) hstocks
  have hitem := hstocks'.behind_eq hS hx hnone
  rw [Array.getElem?_toList] at hitem
  subst hitem
  exact ⟨hgiven, i', w'', hrun⟩

end MemoSeq
