/-
  MemoSeq/Proofs/Limit/Striking.lean
  ===================================
  **What is left of a limit when it is lifted.**

  A failure because of a limit is only kept where it came as an item, and that can only
  be where a slice without a stop was opened while the limit was in force.  The tape of the
  slice has ended with the failure then, and so have all that came upon it; others still
  draw on such a tape, or hold an iteration that will give the failure (`World.Struck`).
  All other lists are as good as new: there is a plan for the time after the limit in which
  only those that are struck may fail (`Tallies.lifted`).
-/
import MemoSeq.Proofs.Limit.Redrawing

namespace MemoSeq

variable {H : Host} {B : Behavior H} {π : Plan} {w : World H} {n depth : Nat}
variable {late : Prop} {values : List Value}

/-! ### Lists that a limit has struck -/

/-- Is still to read the tape with this number. -/
def Iteration.DrawsOn (i : Iteration) (k : Nat) : Prop := ∃ r, i.rest = some r ∧ r.tape.id = k

def Deferred.DrawsOn : Deferred Sequence Iteration → Nat → Prop
  | .pending s, k => s.id = k
  | .opened i, k => i.DrawsOn k
  | .finished, _ => False

def Producer.DrawsOn : Producer H → Nat → Prop
  | .reader r, k => r.tape.id = k
  | .filtered _ state, k => state.DrawsOn k
  | .joined left right, k => (∃ i, left = some i ∧ i.DrawsOn k) ∨ right.DrawsOn k
  | .strided _ _ (.pending s), k => s.id = k
  | _, _ => False

/-- Is still to give a failure that a sequence had kept. -/
def Deferred.Doomed : Deferred Sequence Iteration → Prop
  | .opened i => i.failure ≠ none
  | _ => False

def Producer.Doomed : Producer H → Prop
  | .filtered _ state => state.Doomed
  | .joined left right => (∃ i, left = some i ∧ i.failure ≠ none) ∨ right.Doomed
  | _ => False

/-- A failure is on the tape with this number or is kept by its sequence, or the producer
    will come upon one. -/
inductive World.Struck (w : World H) : Nat → Prop
  | logged (k : Nat) (e : Error) : .error e ∈ (w.tape ⟨k⟩).log → Struck w k
  | kept (k : Nat) (e : Error) : (w.sequence ⟨k⟩).failure = some e → Struck w k
  | doomed (k : Nat) (p : Producer H) : (w.tape ⟨k⟩).phase = .idle p → p.Doomed → Struck w k
  | drawn (k j : Nat) (p : Producer H) : (w.tape ⟨k⟩).phase = .idle p → p.DrawsOn j →
      Struck w j → Struck w k

/-! ### Plans for the time after a limit -/

/-- No new list is struck, and of the others those that are struck now. -/
def Plan.lifted (π : Plan) (w : World H) : Plan :=
  { π with
    late := fun k => π.late k ∧ ∃ s, w.Places π k s ∧ w.Struck s.id
    wary := False
    spoilt := True }

namespace World.Places

theorem lifted {k : Nat} {s : Sequence} (h : w.Places π k s) : w.Places (π.lifted w) k s := by
  induction h with
  | made k s hs => exact .made k s hs
  | born c k i s t hc _ ht ih => exact .born c k i s t hc ih ht

theorem of_lifted {k : Nat} {s : Sequence} (h : w.Places (π.lifted w) k s) : w.Places π k s := by
  induction h with
  | made k s hs => exact .made k s hs
  | born c k i s t hc _ ht ih => exact .born c k i s t hc ih ht

end World.Places

theorem Value.StandsFor.lifted {items shown : List Value}
    (h : List.Forall₂ (Value.StandsFor π w) items shown) :
    List.Forall₂ (Value.StandsFor (π.lifted w) w) items shown :=
  h.imp fun _ _ hv => hv.mono fun _ _ => World.Places.lifted

section Lifted

variable {struck : Prop} (hproper : π.Proper)
include hproper

/-- A list in its place is struck if its tape is. -/
theorem Plan.struck_of_lifted {k : Nat} {s : Sequence} (hs : w.Places π k s)
    (h : (π.lifted w).late k) : π.late k ∧ w.Struck s.id := by
  obtain ⟨hlate, t, ht, hstruck⟩ := h
  exact ⟨hlate, hs.unique hproper ht ▸ hstruck⟩

theorem Reader.Prospect.lifted {r : Reader} (h : r.Prospect π w n late values)
    (hdraws : w.Struck r.tape.id → struck) :
    r.Prospect (π.lifted w) w n (late ∧ struck) values := by
  cases h with
  | reading j hj hplace hlate hposition =>
    refine .reading (π := π.lifted w) j hj hplace.lifted (fun hl => ?_) hposition
    obtain ⟨hl, hstruck⟩ := Plan.struck_of_lifted hproper hplace hl
    exact ⟨hlate hl, hdraws hstruck⟩
  | spent hlt hended hend => exact .spent hlt hended hend

theorem Iteration.Prospect.lifted {i : Iteration} (h : i.Prospect π w n late values)
    (hdraws : ∀ k, i.DrawsOn k → w.Struck k → struck) (hdoomed : i.failure ≠ none → struck) :
    i.Prospect (π.lifted w) w n (late ∧ struck) values := by
  cases h with
  | reading cached shown rest r hcached hr =>
    exact .reading cached shown rest r (Value.StandsFor.lifted hcached)
      (hr.lifted hproper (hdraws _ ⟨r, rfl, rfl⟩))
  | done cached _ hcached => exact .done cached values (Value.StandsFor.lifted hcached)
  | failed cached shown left e hcached hl hspoilt he =>
    exact .failed cached shown left e (Value.StandsFor.lifted hcached)
      ⟨hl, hdoomed (Option.some_ne_none e)⟩ trivial he

theorem Deferred.Prospect.lifted {state : Deferred Sequence Iteration}
    (h : state.Prospect π w n late values) (hdraws : ∀ k, state.DrawsOn k → w.Struck k → struck)
    (hdoomed : state.Doomed → struck) :
    state.Prospect (π.lifted w) w n (late ∧ struck) values := by
  cases h with
  | pending s j hj hplace hrelied hlate =>
    refine .pending (π := π.lifted w) s j hj hplace.lifted hrelied fun hl => ?_
    obtain ⟨hl, hstruck⟩ := Plan.struck_of_lifted hproper hplace hl
    exact ⟨hlate hl, hdraws _ rfl hstruck⟩
  | opened i _ hi hfits => exact .opened i values (hi.lifted hproper hdraws hdoomed) hfits
  | finished => exact .finished

theorem Crop.Sown.lifted {k i : Nat} {crop : Crop} (h : crop.Sown π w k i values)
    (hunborn : ∀ c j, π.within c = some (k, j) → i ≤ j → ∀ s, ¬w.Places π c s)
    (hdue : (π.whole k).drop i = values) : crop.Sown (π.lifted w) w k i values := by
  have hspares : π.Spares (π.lifted w) w :=
    fun _ _ _ hc _ => ⟨rfl, rfl, rfl, And.left, fun _ => hc⟩
  exact h.mono hproper hspares (fun _ _ => World.Places.lifted) hunborn hdue

theorem Producer.Prospect.lifted {i : Nat} {p : Producer H}
    (h : p.Prospect π w n late B i values) (hdraws : ∀ k, p.DrawsOn k → w.Struck k → struck)
    (hdoomed : p.Doomed → struck)
    (hunborn : ∀ c j, π.within c = some (n, j) → i ≤ j → ∀ s, ¬w.Places π c s)
    (hdue : (π.whole n).drop i = values) :
    p.Prospect (π.lifted w) w n (late ∧ struck) B i values := by
  cases h with
  | fixed _ crop _ hp hcrop =>
    exact .fixed p crop values hp (hcrop.lifted hproper hunborn hdue)
  | filtered test holds state rest htest hstate =>
    exact .filtered test holds state rest htest (hstate.lifted hproper hdraws hdoomed)
  | joinedLeft left right first second hleft hright =>
    have hleft' := hleft.lifted hproper (fun k hk => hdraws k (.inl ⟨left, rfl, hk⟩))
      fun hfailure => hdoomed (.inl ⟨left, rfl, hfailure⟩)
    have hright' := hright.lifted hproper (fun k hk => hdraws k (.inr hk)) fun h => hdoomed (.inr h)
    exact .joinedLeft left right first second hleft' hright'
  | joinedRight right _ hright =>
    exact .joinedRight right values
      (hright.lifted hproper (fun k hk => hdraws k (.inr hk)) fun h => hdoomed (.inr h))
  | striding start step s j hj hplace hrelied hstep hlate hwary =>
    refine .striding (π := π.lifted w) start step s j hj hplace.lifted hrelied hstep
      (fun hl => ?_) False.elim
    obtain ⟨hl, hstruck⟩ := Plan.struck_of_lifted hproper hplace hl
    exact ⟨hlate hl, hdraws _ rfl hstruck⟩
  | strided start step rest _ hrest =>
    exact .strided start step rest values (Value.StandsFor.lifted hrest)
  | strode start step => exact .strode start step

end Lifted

theorem TapeState.Follows.lifted {k : Nat} {s : Sequence} (hproper : π.Proper)
    (hs : w.Places π k s) (h : (w.tape ⟨s.id⟩).Follows π B w k) :
    (w.tape ⟨s.id⟩).Follows (π.lifted w) B w k := by
  generalize hcell : w.tape ⟨s.id⟩ = cell at h
  cases h with
  | ended items hitems => exact .ended (π := π.lifted w) items (Value.StandsFor.lifted hitems)
  | idle items done left p hitems hdone hp =>
    have hlifted : p.Prospect (π.lifted w) w k (π.late k ∧ w.Struck s.id) B done.length left := by
      refine hp.lifted hproper (fun j hj hstruck => .drawn s.id j p (by rw [hcell]) hj hstruck)
        (fun hdoomed => .doomed s.id p (by rw [hcell]) hdoomed) (fun c j hc hj => ?_) ?_
      · refine hs.not_of_size_le hproper hc ?_
        simpa [hcell, hitems.length_eq] using hj
      · rw [hdone, List.drop_left]
    exact .idle items done left p (Value.StandsFor.lifted hitems) hdone
      (hlifted.later (.refl w) fun hl => ⟨hl.1, s, hs, hl.2⟩)
  | struck items done left e hitems hdone hf he =>
    refine .struck items done left e (Value.StandsFor.lifted hitems) hdone
      ⟨⟨hf.1, s, hs, .logged s.id e ?_⟩, trivial⟩ he
    simp [hcell]

theorem SequenceState.Follows.lifted {k logged : Nat} {s : Sequence} (hs : w.Places π k s)
    (h : (w.sequence s).Follows π w k s logged) :
    (w.sequence s).Follows (π.lifted w) w k s logged := by
  generalize hcell : w.sequence s = c at h
  cases h with
  | reading cache shown left overwritten hcache hshown hleft hbehind =>
    exact .reading cache shown left overwritten (Value.StandsFor.lifted hcache) hshown hleft hbehind
  | done cache overwritten hcache =>
    exact .done cache overwritten (Value.StandsFor.lifted hcache)
  | failed cache shown left e overwritten hcache hshown hf he =>
    exact .failed cache shown left e overwritten (Value.StandsFor.lifted hcache) hshown
      ⟨⟨hf.1, s, hs, .kept s.id e (by rw [hcell])⟩, trivial⟩ he

namespace Limited

variable {P : Ledger} {z : Extent} {T : Register}

/-- Once the limit is lifted there is a plan in which only lists that are struck can fail. -/
theorem Tallies.lifted (h : Tallies B π P z w T) (hlimit : w.limit = none) :
    Tallies B (π.lifted w) P z w T where
  sound := by
    have hproper := h.sound.proper
    refine ⟨⟨hproper.whole, hproper.face, hproper.within, hproper.above, hproper.apart,
      hproper.within_lt, hproper.placed_lt⟩, ⟨.inl hlimit, h.sound.holds.sizes, ?_, ?_, ?_, ?_⟩⟩
    · exact fun k s hs => h.sound.holds.located k s hs.of_lifted
    · exact fun k l s hk hl => h.sound.holds.single k l s hk.of_lifted hl.of_lifted
    · exact fun k s hs hk => (h.sound.holds.tapes k s hs.of_lifted hk).lifted hproper hs.of_lifted
    · exact fun k s hs hk => (h.sound.holds.sequences k s hs.of_lifted hk).lifted hs.of_lifted
  outline := h.outline
  next := h.next
  bound := h.bound
  fresh := h.fresh
  named a := by
    have ha := h.named a
    generalize T.lists.things a = s?, P.names.things a = k? at ha ⊢
    cases ha with
    | listed s k hs => exact .listed s k hs.lifted
    | missing => exact .missing _ (.inl trivial)
  opened := h.opened
  bases _ _ := .inl trivial
  strides k hk := (h.strides k hk.1).imp fun _ => And.imp_right World.Places.lifted
  iterations k i hi := by
    obtain ⟨values, hvalues, hfits⟩ := h.iterations k i hi
    have hlifted : i.Prospect (π.lifted w) w π.next (True ∧ True) values :=
      hvalues.lifted h.sound.proper (fun _ _ _ => trivial) fun _ => trivial
    exact ⟨values, hlifted.mono (Nat.le_refl _) (.refl _ _ _) (.refl w) And.left, hfits⟩

/-- From now on a limit may be set. -/
theorem Tallies.spoiled (h : Tallies B π P z w T) (hwary : π.wary) :
    Tallies B { π with spoilt := True } P z w T := by
  have hplaces {k : Nat} {s : Sequence} (hs : w.Places { π with spoilt := True } k s) :
      w.Places π k s := by
    induction hs with
    | made k s hs => exact .made k s hs
    | born c k i s t hc _ ht ih => exact .born c k i s t hc ih ht
  have hsuits : π.Suits { π with spoilt := True } w π.next := by
    refine ⟨fun k s hs => ?_, fun _ _ => rfl, fun _ _ _ => rfl, fun _ _ => (·), fun _ _ => .rfl,
      fun _ _ _ hc _ => ⟨rfl, rfl, rfl, (·), fun _ => hc⟩, (·), fun _ => trivial, Nat.le_refl _⟩
    induction hs with
    | made k s hs => exact .made k s hs
    | born c k i s t hc _ ht ih => exact .born c k i s t hc ih ht
  have hproper := h.sound.proper
  obtain ⟨htapes, hsequences⟩ :=
    h.sound.holds.replanned hproper hsuits (fun _ _ => rfl) fun _ _ => rfl
  refine h.replanned ⟨⟨hproper.whole, hproper.face, hproper.within, hproper.above, hproper.apart,
    hproper.within_lt, hproper.placed_lt⟩, ⟨.inr ⟨hwary, trivial⟩, h.sound.holds.sizes, ?_, ?_, ?_,
    ?_⟩⟩ (.refl w) hsuits (Nat.le_refl _) h.outline rfl h.next h.bound h.opened
    (fun _ _ => .inl trivial)
    fun k hk => (h.strides k hk).imp fun _ => And.imp_right (hsuits.places (.refl w))
  · exact fun k s hs => h.sound.holds.located k s (hplaces hs)
  · exact fun k l s hk hl => h.sound.holds.single k l s (hplaces hk) (hplaces hl)
  · exact fun k s hs _ => htapes k s (hplaces hs)
  · exact fun k s hs _ => hsequences k s (hplaces hs)

/-- Nothing has been made yet. -/
theorem ready_initial (B : Behavior H) (host : H.State) :
    Ready B ⟨0, 0⟩ (.initial host) .empty := by
  let π : Plan := ⟨⟨fun _ => [], fun _ => [], fun _ => false, fun _ => none, 0⟩, fun _ => none,
    fun _ => False, fun _ => False, True, False, 0⟩
  have hnone {k : Nat} {s : Sequence} (hs : (World.initial host).Places π k s) : False := by
    cases hs with
    | made _ _ hs => cases hs
    | born _ _ _ _ _ hc => cases hc
  refine ⟨π, ⟨π.toOutline, .empty, fun _ => False⟩, (·), trivial,
    ⟨⟨fun _ => Nat.le_refl 0, fun _ => Nat.le_refl 0, fun _ _ _ => nofun, fun _ _ _ => nofun,
      fun _ _ => nofun, fun _ _ => nofun, fun _ _ => nofun⟩,
      ⟨.inl rfl, rfl, fun _ _ hs => (hnone hs).elim, fun _ _ _ hs => (hnone hs).elim,
        fun _ _ hs => (hnone hs).elim, fun _ _ hs => (hnone hs).elim⟩⟩,
    rfl, Nat.le_refl _, Nat.le_refl _, rfl, fun _ => .missing _ (.inr rfl), fun _ => (·),
    fun _ => False.elim, fun _ => False.elim, fun _ _ => nofun⟩

end Limited

end MemoSeq
