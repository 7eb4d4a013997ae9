/-
  MemoSeq/Proofs/Amounts/Strides.lean
  ====================================
  **Slices without a stop.**

  A slice without a stop is another sequence, and making it drives nothing.  When it is
  called for the first time it forces the whole sequence and strides over what that amounts
  to then, and gives the values on its way, and no others, from then on
  (`Sequence.stride_of_amountsTo`).  No position on the way is outside of the sequence, and
  none leaves the words that the bounds are written in.
-/
import MemoSeq.Proofs.Amounts.Slices

namespace MemoSeq

variable {H : Host} {B : Behavior H} {s d : Sequence} {t u : Tape} {calls : List Call}
variable {depth : Nat} {values out : List Value} {w w' v : World H}

/-! ### The first call -/

/-- The world after a slice without a stop has been made of a sequence. -/
def World.withStride (w : World H) (s : Sequence) (start step : Option Int) : World H :=
  w.withSequence (.strided (start.getD 0) (Plain.stepOf step) (.pending s)) false

/-- The first call of a slice without a stop gives the first value of the stride, and the
    slice amounts to the whole stride afterwards. -/
theorem Pull.act_strided (hB : B.Lawful) (hm : Moment.Ordered ⟨w, []⟩)
    (hd : Moment.Draws ⟨w, []⟩ d u) {start step : Int}
    (htape : w.tape u = ⟨#[], .idle (.strided start step (.pending s))⟩) {pull : Pull}
    (hforce : (s.materialize (.ofBehavior B depth)).run.run (pull.calling w d u) =
      .ok (.ok values.toArray, v)) :
    ∃ w', (pull.act (.ofBehavior B (depth + 1)) d u).run w =
        .ok (.ok (stride values.toArray start step)[0]?, w') ∧
      d.AmountsTo B ((stride values.toArray start step)[·]?) w' := by
  generalize hout : stride values.toArray start step = out
  have hphase : (w.tape u).phase = .idle (.strided start step (.pending s)) := by rw [htape]
  have hsize : (w.tape u).log.size = 0 := by rw [htape]; rfl
  have hidle : (w.tape u).phase ≠ .ended := by simp [hphase]
  have hbehind (_ : pull = .sequence) : (w.sequence d).cache.size = (w.tape u).log.size :=
    Nat.le_antisymm hd.mirrors.toCopies.cache_size_le (hsize ▸ Nat.zero_le _)
  -- while the sequence is forced, the tape is at work and stays as it is
  obtain ⟨c, -, -, hstep⟩ := Pull.step_calling hd hphase hbehind
  have hleads := (s.materialize_moves _ hforce).leads (Engine.ofBehavior_leads hB depth)
  have hcalled : (pull.calling w d u).tape u = (w.tape u).started := by
    cases pull <;> exact World.tape_running_self hd.tape_lt
  have hcell : v.tape u = (w.tape u).started := by
    rw [hleads.tape_running (by rw [hcalled]; rfl), hcalled]
  have hinside := (hd.step hm hstep).steps (hm.step hstep) (hleads [c])
  have hclean : (v.sequence d).overwritten = [] := by
    have hle := hinside.mirrors.toCopies.cache_size_le
    rw [hcell] at hle
    refine List.eq_nil_iff_forall_not_mem.mpr fun ⟨i, a⟩ hi => ?_
    have hlt := hinside.mirrors.overwritten i a hi
    exact Nat.not_lt_zero i (hsize ▸ Nat.lt_of_lt_of_le hlt hle)
  -- then the values are all there
  let P : Provision H := .ending B 1 (fun _ => True) u.id d.id none (exactly out)
  have hP {depth : Nat} (hdepth : 1 ≤ depth) : P.Valid (.ofBehavior B depth) u.id d.id :=
    Provision.ending_valid (fun _ _ _ _ => trivial) hdepth
  have hopened : P.fits 0 (.strided start step (.opened out)) v :=
    ⟨Nat.zero_le _, Producer.comes_striding start step out v⟩
  obtain ⟨x, p', v', hrun, hx, -, hspares, hfits⟩ :=
    (hP (Nat.succ_le_succ (Nat.zero_le depth))).next (w := v) trivial hopened
  have hitems (k : Nat) (y : Option Item) (hy : P.allows k y) : y = out[k]?.map .ok := by
    have hexact := Provision.exact_ending hy
    rwa [itemsOf, Option.map_none, Option.toList_none, List.append_nil, List.getElem?_map] at hexact
  obtain rfl : x = out[0]?.map .ok := hitems 0 x hx
  have hopens : (Engine.next (.ofBehavior B (depth + 1)) (.strided start step (.pending s))).run
      (pull.calling w d u) =
      (Engine.next (.ofBehavior B (depth + 1)) (.strided start step (.opened out))).run v := by
    subst hout
    exact Act.run_bind_of_eq hforce
  obtain ⟨w', hact, hmoves, hsettled, hover⟩ :=
    Pull.run_act hd hphase hbehind (hopens.trans hrun)
  have houtcome : Sequence.outcomeOf (out[0]?.map .ok) = .ok out[0]? := by
    cases out[0]? <;> rfl
  refine ⟨w', houtcome ▸ hact, ?_⟩
  have htaped : v'.tape u = (w.tape u).started := by
    rw [hspares.tapes u (Nat.le_refl _) hinside.tape_lt, hcell]
  have hlt : u.id < v'.tapes.size := Nat.lt_of_lt_of_le hinside.tape_lt hspares.tapesSize
  have hnoted : v'.Continues (v'.recorded u (out[0]?.map .ok) p') :=
    .recorded v' u id (by simp [htaped]) _ p'
  have hstocks : P.Stocks u (v'.recorded u (out[0]?.map .ok) p') := by
    refine .of_recorded hd.sound (by simp [htape]) hidle hlt htaped ?_ ?_ trivial fun a ha => ?_
    · rwa [hsize]
    · rw [hsize]
      exact (hP (Nat.le_refl 1)).ended hx
    · rw [hsize]
      exact (hP (Nat.le_refl 1)).fits_mono (hfits a ha) hnoted
  have hsteps := Engine.moves_steps hB hmoves []
  have hsupplies := (hd.steps hm hsteps).supplies (hstocks.of_eq (hP (Nat.le_refl 1))
    hsettled.continues trivial (hsettled.tapes u trivial hstocks.tape_lt))
  refine hsupplies.amountsTo_of_clean (fun _ => hP) hitems (fun k hk => ?_) ?_
  · rw [List.getElem?_eq_none_iff] at hk ⊢
    exact Nat.le_succ_of_le hk
  · rw [hover, hspares.sequences d (Nat.le_refl _) hinside.sequence_lt, hclean]

/-- What a slice without a stop reads positions of is there when it is called. -/
theorem Sequence.AmountsTo.act_strided (hB : B.Lawful) {p : Producer H} {w₀ w₁ : World H}
    (hreached : Moment.Reached ⟨w₀, calls⟩) {infinite : Bool}
    (hmade : (adopt p infinite).run w₀ = .ok (s, w₁))
    (hbefore : Moment.Steps ⟨w₁, calls⟩ ⟨w, []⟩) {start step : Option Int}
    (hlater : Moment.Steps ⟨w.withStride s start step, []⟩ ⟨v, []⟩)
    (hsame : v.tape w.freshTape = (w.withStride s start step).tape w.freshTape)
    (hlimit : v.limit = none) {pull : Pull}
    (hS : s.AmountsTo B (values[·]?) (pull.calling v w.freshSequence w.freshTape)) :
    ∃ enough, ∀ depth ≥ enough, ∃ v',
      (pull.act (.ofBehavior B depth) w.freshSequence w.freshTape).run v =
        .ok (.ok (stride values.toArray (start.getD 0) (Plain.stepOf step))[0]?, v') ∧
      w.freshSequence.AmountsTo B
        ((stride values.toArray (start.getD 0) (Plain.stepOf step))[·]?) v' := by
  have hmade' := hmade
  cases hmade'
  have hm₁ : Moment.Ordered ⟨w₀.withSequence p infinite, calls⟩ :=
    hreached.ordered.step (.adopt w₀ calls p infinite)
  have hm := hm₁.steps hbefore
  have hbase := (hreached.ordered.draws_adopt p infinite).steps hm₁ hbefore
  have hadopt : Moment.Step ⟨w, []⟩ ⟨w.withStride w₀.freshSequence start step, []⟩ :=
    .adopt w [] _ false
  have hm₂ := hm.step hadopt
  have hd := (hm.draws_adopt (.strided (start.getD 0) (Plain.stepOf step)
    (.pending w₀.freshSequence)) false).steps hm₂ hlater
  have htape : v.tape w.freshTape =
      ⟨#[], .idle (.strided (start.getD 0) (Plain.stepOf step) (.pending w₀.freshSequence))⟩ :=
    hsame.trans (World.tape_withTape_freshTape _)
  -- nothing has been taken from the slice yet, so its cache has the size of its tape
  have hbehind (_ : pull = .sequence) :
      (v.sequence w.freshSequence).cache.size = (v.tape w.freshTape).log.size := by
    have hle := hd.mirrors.toCopies.cache_size_le
    rw [htape] at hle ⊢
    exact Nat.le_antisymm hle (Nat.zero_le _)
  obtain ⟨c, hc, -, hstep⟩ := Pull.step_calling hd (congrArg TapeState.phase htape) hbehind
  -- the tape that is at work is that of the slice, which is younger than that of `s`
  have hidle : w₀.freshTape ∉ [c].map Call.tape := by
    have hlt := hbase.tape_lt
    rw [List.map_singleton, List.mem_singleton, hc]
    intro heq
    exact Nat.lt_irrefl _ (heq ▸ hlt)
  obtain ⟨enough, hstands⟩ := hS.exists_stands_of_made hreached hmade
    (((hbefore.tail hadopt).trans hlater).tail hstep) hidle
    ((pull.limit_calling v _ _).trans hlimit) (values.length + 1)
  -- one level of the engine goes into the producer of the slice, the rest into forcing `s`
  refine ⟨max enough (values.length + 2) + 1, fun depth hdepth => ?_⟩
  obtain ⟨depth, rfl⟩ := Nat.exists_eq_add_of_le' (Nat.le_trans (Nat.le_add_left 1 _) hdepth)
  have hle : max enough (values.length + 2) ≤ depth := Nat.le_of_succ_le_succ hdepth
  have hE := Engine.ofBehavior_leads hB depth
  obtain ⟨u, hforce, -⟩ := (Stands.unfolds hE fun _ => rfl).run_materialize
    ((pull.limit_calling v _ _).trans hlimit) (Engine.lt_fuel (le_of_max_le_right hle))
    (hstands depth (le_of_max_le_left hle))
  exact Pull.act_strided hB (hm₂.steps hlater) hd htape hforce

/-- In a call of a sequence made of it, a sequence over fixed values amounts to what it looks
    like from outside. -/
theorem World.Layered.amountsTo_calling {produced : List Value}
    {stage : Nat → Producer H → Prop} (h : w.Layered produced stage s t d u) (hB : B.Lawful)
    (hS : B.Streams (produced[·]?) stage) {p : Producer H} (hphase : (w.tape u).phase = .idle p)
    {pull : Pull}
    (hbehind : pull = .sequence → (w.sequence d).cache.size = (w.tape u).log.size) :
    s.AmountsTo B ((w.outlook s produced)[·]?) (pull.calling w d u) := by
  obtain ⟨hsupplies, -⟩ := h.within_call hB hS hphase hbehind
    (.refl (E := .ofBehavior B 0) (pull.calling w d u))
  have hamounts := hsupplies.amountsTo_streamed hS
  rw [Pull.sequence_calling h.sequences] at hamounts
  have hlooks : (fun k : Nat => (w.sequence s).cache[k]?.or produced[k]?) =
      ((w.outlook s produced)[·]?) := by
    funext k
    rw [World.outlook, getElem?_resumed]
    exact congrArg (Option.or · _) Array.getElem?_toList.symm
  exact hlooks ▸ hamounts

/-- A sequence is made, and later, when no call is open, a slice without a stop of it.  That
    makes another sequence and drives nothing, whatever the engine.

    When the slice is called for the first time, with no limit, by itself or by a reader of
    its tape, the sequence amounts to finitely many values.  There are positions in it, from
    where the slice begins and a step apart as long as they are within the sequence, and the
    slice gives the values that are there, one after the other, and then ends.

    - If the start and the length are words of 64 bits, then so is where the slice begins and
      each position, and going on as long as the next position is such a word leads through
      all of them.
    - Forwards from a start that is not negative, the slice that stops at the length has the
      same values, whenever the sequence amounts to the same. -/
theorem Sequence.stride_of_amountsTo (hB : B.Lawful) {p : Producer H} {w₀ w₁ : World H}
    (hreached : Moment.Reached ⟨w₀, calls⟩) {infinite : Bool}
    (hmade : (adopt p infinite).run w₀ = .ok (s, w₁))
    (hbefore : Moment.Steps ⟨w₁, calls⟩ ⟨w, []⟩) (start step : Option Int) :
    (∀ E : Engine H, (s.slice E start none step).run.run w =
      .ok (.ok (.lazy w.freshSequence), w.withStride s start step)) ∧
    ∀ (v : World H) (values : List Value) (pull : Pull),
      Moment.Steps ⟨w.withStride s start step, []⟩ ⟨v, []⟩ →
      v.tape w.freshTape = (w.withStride s start step).tape w.freshTape → v.limit = none →
      s.AmountsTo B (values[·]?) (pull.calling v w.freshSequence w.freshTape) →
      ∃ (positions : List Int) (out : List Value),
        (∃ enough, ∀ depth ≥ enough, ∃ v',
          (pull.act (.ofBehavior B depth) w.freshSequence w.freshTape).run v =
            .ok (.ok out[0]?, v') ∧
          w.freshSequence.AmountsTo B (out[·]?) v') ∧
        out.map some = positions.map (fun i => values[i.toNat]?) ∧
        (∀ k : Nat, positions[k]? =
          let i := Plain.firstOf values.length (start.getD 0) (Plain.stepOf step) +
            k * Plain.stepOf step
          if 0 ≤ i ∧ i < values.length then some i else none) ∧
        (Width.signed64.contains (start.getD 0) → Width.signed64.contains values.length →
          Width.signed64.contains
            (Plain.firstOf values.length (start.getD 0) (Plain.stepOf step)) ∧
          (∀ i ∈ positions, Width.signed64.contains i) ∧
          Width.signed64.Walks (Plain.boundOf values.length (Plain.stepOf step))
            (Plain.stepOf step)
            (Plain.firstOf values.length (start.getD 0) (Plain.stepOf step)) positions) ∧
        (0 ≤ start.getD 0 → 0 < Plain.stepOf step → ∀ v₁ : World H,
          Moment.Steps ⟨w₁, calls⟩ ⟨v₁, []⟩ → v₁.limit = none → s.AmountsTo B (values[·]?) v₁ →
          ∃ enough, ∀ depth ≥ enough, ∃ v₂,
            (s.slice (.ofBehavior B depth) start (some values.length) step).run.run v₁ =
              .ok (.ok (.items out), v₂)) := by
  have hstep := Plain.stepOf_ne_zero step
  refine ⟨fun E => by rw [slice_eq]; rfl, fun v values pull hlater hsame hlimit hS => ?_⟩
  refine ⟨Plain.strideOf values.length (start.getD 0) (Plain.stepOf step), _,
    hS.act_strided hB hreached hmade hbefore hlater hsame hlimit, ?_,
    fun k => Plain.getElem?_strideOf hstep, fun hstart hlength => ?_,
    fun hstart hpos v₁ hlater₁ hlimit₁ hS₁ => ?_⟩
  · rw [Plain.stride_eq_map hstep, List.map_map]
    refine List.map_congr_left fun i hi => ?_
    obtain ⟨hpos, hlt⟩ := Plain.mem_strideOf hstep hi
    exact Plain.some_read hpos hlt
  · have hsigned : Width.signed64.contains (-1) := rfl
    have hfirst := Plain.contains_firstOf hsigned hstart hlength (Plain.stepOf step)
    refine ⟨hfirst, fun i hi => ?_, Plain.walks_strideOf hsigned hstart hlength _⟩
    obtain ⟨hpos, hlt⟩ := Plain.mem_strideOf hstep hi
    exact Width.contains_of_between hsigned hlength (by omega) hlt.le
  · -- the slice with a stop materializes up to it, which is all there is
    obtain ⟨enough, hstands⟩ := hS₁.exists_stands_of_made hreached hmade hlater₁
      List.not_mem_nil hlimit₁ (values.length + 1)
    refine ⟨max enough (values.length + 2), fun depth hdepth => ?_⟩
    obtain ⟨v₂, hrun⟩ := (hstands depth (le_of_max_le_left hdepth)).run_slice
      (Engine.ofBehavior_leads hB depth) (Engine.lt_fuel (le_of_max_le_right hdepth)) start
      values.length step
    refine ⟨v₂, ?_⟩
    rw [Plain.stride_eq_window hstart hpos, Plain.window_eq_map]
    exact hrun

namespace Session

/-- Backwards from behind the end, two apart: the last value, and the one that has been put
    in the place of the first. -/
theorem stride_readAhead :
    ((Sequence.slice (engine 6) ⟨0⟩ (some 9) none (some (-2))).run.run readAhead =
      .ok (.ok (.lazy ⟨1⟩), readAhead.withStride ⟨0⟩ (some 9) (some (-2)))) ∧
    ∀ pull : Pull, ∃ enough, ∀ depth ≥ enough, ∃ v,
      (pull.act (.ofBehavior behavior depth) ⟨1⟩ ⟨1⟩).run
        (readAhead.withStride ⟨0⟩ (some 9) (some (-2))) = .ok (.ok (some (.int 3)), v) ∧
      Sequence.AmountsTo behavior ⟨1⟩ ([.int 3, .int 8][·]?) v := by
  have hscalar : ∀ v ∈ [Value.int 1, .int 2, .int 3], v.asList? = none := by decide
  have hmade : (Sequence.adopt (.values [.int 1, .int 2, .int 3]) false).run start =
      .ok (⟨0⟩, overThree) := rfl
  have hlayered : (readAhead.withStride ⟨0⟩ (some 9) (some (-2))).Layered [.int 1, .int 2, .int 3]
      _ ⟨0⟩ ⟨0⟩ ⟨1⟩ ⟨1⟩ := World.Layered.of_made behavior_lawful (.values hscalar) rfl
    ⟨default, .refl _⟩ hmade readAhead_moves (.strided 9 (-2) (.pending ⟨0⟩)) false
  have hamounts (pull : Pull) := hlayered.amountsTo_calling behavior_lawful (.values hscalar) rfl
    fun _ : pull = .sequence => rfl
  have hlooks : (readAhead.withStride ⟨0⟩ (some 9) (some (-2))).outlook ⟨0⟩
      [.int 1, .int 2, .int 3] = [.int 8, .int 2, .int 3] := rfl
  rw [hlooks] at hamounts
  obtain ⟨hslice, hcalled⟩ := Sequence.stride_of_amountsTo behavior_lawful ⟨default, .refl _⟩ hmade
    (Engine.moves_steps behavior_lawful readAhead_moves []) (some 9) (some (-2))
  refine ⟨hslice _, fun pull => ?_⟩
  obtain ⟨positions, out, hpull, hout, hpositions, -⟩ :=
    hcalled _ _ pull (.refl _) rfl rfl (hamounts pull)
  obtain rfl : positions = [2, 0] := by
    apply List.ext_getElem?
    intro k
    rw [hpositions]
    rcases k with _ | _ | k
    · rfl
    · rfl
    · refine if_neg ?_
      change ¬ (0 ≤ 2 + ((k + 2 : Nat) : Int) * -2 ∧ _)
      omega
  obtain rfl : out = [.int 3, .int 8] := by
    have hsome : out.map some = [Value.int 3, .int 8].map some := hout
    exact List.map_injective_iff.mpr (Option.some_injective _) hsome
  exact hpull

end Session

end MemoSeq
