/-
  MemoSeq/Proofs/Demand/Filters.lean
  ===================================
  **What a filter asks for.**

  A filter of a sequence that owns its producer goes along the sequence up to the first value
  that passes the test, and no further, whatever it skips on the way
  (`Owner.Attended.search_manages`).  So the producer of a filter is a `Derivation`
  (`Owner.filtering`), and what a read of the filter needs is the position of the value that
  it finds (`Owner.demand_of_filter`).
-/
import MemoSeq.Proofs.Demand.Derived
import MemoSeq.Proofs.Provision.Derived
import Mathlib.Data.Nat.Count

namespace MemoSeq

variable {H : Host} {B : Behavior H} {depth k m asked : Nat} {w w' : World H}

/-- A test that judges puts its verdict and does nothing else, if it has the means. -/
theorem Behavior.Judges.manages {test : H.Test} {v : Value} {verdict : Outcome Bool}
    (h : B.Judges test v verdict) (w : World H) :
    ((Engine.test (.ofBehavior B depth) test v).outcome).Manages (depth < 2) w fun y w' =>
      y = verdict ∧ ∃ host, w' = { w with host } := by
  cases depth with
  | zero => exact .halted Nat.zero_lt_two rfl
  | succ depth =>
    obtain ⟨host, hrun⟩ := h depth w
    exact .of_run hrun ⟨rfl, host, rfl⟩

namespace Owner

variable {A : Owner B} {test : H.Test} {passes : Nat → Bool} {i : Iteration}

/-- A search asks for one value after the other, up to the first that passes the test. -/
theorem Attended.search_manages
    (htest : ∀ k v, A.known k v → B.Judges test v (.ok (passes k)))
    (h : A.Attended w asked i) (hstocked : A.Stocked w) {wanting : Prop} {rounds : Nat}
    (hdepth : depth < 2 → wanting)
    (hrounds : ¬ wanting → ∃ stop : Nat, asked ≤ stop ∧ stop < asked + rounds ∧
      (stop < A.total → passes stop = true)) :
    (Producer.search (.ofBehavior B depth) test rounds i).Manages wanting w fun y w' =>
      ∃ last : Nat, asked ≤ last ∧
        Nat.count (passes · = true) last = Nat.count (passes · = true) asked ∧
        A.Reaches last w w' ∧
        ((last < A.total ∧ passes last = true ∧ ∃ v i', y = (some (.ok v), .opened i') ∧
            A.Attended w' (last + 1) i') ∨
          (A.total = last ∧ y.1 = none ∧ (w'.tape A.tape).hasEnded = true)) := by
  induction rounds generalizing w i asked with
  | zero =>
    refine .halted (h := .starved) (by_contra fun hmeans => ?_) rfl
    obtain ⟨stop, hle, hlt, -⟩ := hrounds hmeans
    omega
  | succ rounds ih =>
    refine ((h.next_manages hstocked).of_imp hdepth).bind ?_
    rintro ⟨x, i'⟩ v ⟨hreaches, hitem⟩
    rcases hitem with ⟨hlt, a, rfl, ha, hattended⟩ | ⟨htotal, rfl, hended⟩
    · refine (((htest asked a ha).manages v).of_imp hdepth).bind ?_
      rintro _ _ ⟨rfl, host, rfl⟩
      have hhost := Owner.Reaches.host hreaches.stocked host asked
      have hattended' : A.Attended { v with host } (asked + 1) i' := hattended.of_goes (.refl _)
      cases hpasses : passes asked with
      | true =>
        exact .of_run rfl ⟨asked, Nat.le_refl _, rfl, hreaches.trans hhost (Nat.le_refl _),
          .inl ⟨hlt, hpasses, a, i', rfl, hattended'⟩⟩
      | false =>
        have hcount :
            Nat.count (passes · = true) (asked + 1) = Nat.count (passes · = true) asked := by
          simp [Nat.count_succ, hpasses]
        refine (ih hattended' hhost.stocked ?_).mono ?_
        · intro hmeans
          -- the value asked for does not pass, so the search stops behind it
          obtain ⟨stop, hle, hstop, hpass⟩ := hrounds hmeans
          refine ⟨stop, Nat.lt_of_le_of_ne hle ?_, by omega, hpass⟩
          rintro rfl
          rw [hpass hlt] at hpasses
          cases hpasses
        · rintro y w' ⟨last, hle, hlast, hreaches', hy⟩
          exact ⟨last, by omega, hlast.trans hcount,
            (hreaches.trans hhost (Nat.le_refl _)).trans hreaches' (by omega), hy⟩
    · exact .of_run rfl ⟨asked, Nat.le_refl _, rfl, hreaches, .inr ⟨htotal, rfl, hended⟩⟩

/-- A position that passes is not before one up to which no more have passed than before it. -/
theorem le_of_count_le {j : Nat} (hpasses : passes j = true)
    (hcount : Nat.count (passes · = true) asked ≤ Nat.count (passes · = true) j) : asked ≤ j := by
  by_contra hlt
  have hmono : Nat.count (passes · = true) (j + 1) ≤ Nat.count (passes · = true) asked :=
    Nat.count_monotone _ (by omega)
  rw [Nat.count_succ, if_pos hpasses] at hmono
  omega

/-- The producer of a filter that has given so many values has had the test put to the values
    before some position, and so many of them passed. -/
def FilterFits (A : Owner B) (test : H.Test) (passes : Nat → Bool) (k : Nat) (p : Producer H)
    (w : World H) : Prop :=
  (k = 0 ∧ p = .filtered test (.pending A.sequence)) ∨
    ∃ asked i, Nat.count (passes · = true) asked = k ∧ p = .filtered test (.opened i) ∧
      A.Attended w asked i

def FilterEnds (A : Owner B) (passes : Nat → Bool) (k : Nat) (w : World H) : Prop :=
  (w.tape A.tape).hasEnded = true ∧
    ∃ n : Nat, A.total = n ∧ Nat.count (passes · = true) n = k

/-- A filter asks for nothing behind the value that it gives. -/
theorem FilterFits.next_manages
    (htest : ∀ k v, A.known k v → B.Judges test v (.ok (passes k)))
    {p : Producer H} (h : A.FilterFits test passes k p w) (hsupplied : A.Supplied w)
    (hclean : (w.sequence A.sequence).overwritten = []) {wanting : Prop}
    (hdepth : depth < 2 → wanting)
    (hstop : ¬ wanting → ∃ stop : Nat, stop < (Engine.ofBehavior B depth).fuel ∧
      (stop < A.total → passes stop = true ∧ k ≤ Nat.count (passes · = true) stop)) :
    (p.next (.ofBehavior B depth)).Manages wanting w fun y w' =>
      Answers (fun _ : Unit => A) (A.FilterFits test passes) (A.FilterEnds passes) k w y w' ∧
        ∃ last : Nat, Nat.count (passes · = true) last = k ∧ last ≤ A.total ∧
          A.Reaches last w w' := by
  -- an iteration that has just been opened has been asked for nothing
  obtain ⟨asked, i, hcount, hattended, hopens⟩ : ∃ asked i,
      Nat.count (passes · = true) asked = k ∧ A.Attended w asked i ∧
      (p.next (.ofBehavior B depth)).run w =
        (Producer.next (.ofBehavior B depth) (.filtered test (.opened i))).run w := by
    rcases h with ⟨rfl, rfl⟩ | ⟨asked, i, hcount, rfl, hattended⟩
    · exact ⟨0, _, Nat.count_zero _, .opened hsupplied hclean, rfl⟩
    · exact ⟨asked, i, hcount, hattended, rfl⟩
  have hasked : asked ≤ A.total := by
    obtain ⟨found, -, -, hle, -⟩ := hattended
    exact le_trans (Nat.cast_le.mpr hle) (Owner.Stocked.size_le_total hsupplied.toStocks)
  refine .congr hopens ((hattended.search_manages htest hsupplied.toStocks hdepth ?_).bind ?_)
  · intro hmeans
    obtain ⟨stop, hfuel, hpass⟩ := hstop hmeans
    refine ⟨stop, ?_, by omega, fun hlt => (hpass hlt).1⟩
    rcases lt_or_ge (stop : ℕ∞) A.total with hlt | hge
    · obtain ⟨hpasses, hle⟩ := hpass hlt
      exact le_of_count_le hpasses (hcount.trans_le hle)
    · exact_mod_cast hasked.trans hge
  · rintro ⟨x, state⟩ w' ⟨last, -, hlast, hreaches, hitem⟩
    rw [hcount] at hlast
    have hspares : w.Spares (fun t => ∀ _ : Unit, t ≠ A.tape.id) (fun _ => True) w' :=
      hreaches.spares.mono (fun t ht => ht ()) fun _ _ => trivial
    have hsupplied' : Unit → A.Supplied w' := fun _ => hreaches.supplied hsupplied
    rcases hitem with ⟨hlt, hpasses, v, i', hy, hattended'⟩ | ⟨htotal, hnone, hended⟩
    · cases hy
      have hnext : Nat.count (passes · = true) (last + 1) = k + 1 := by
        simp [Nat.count_succ, hpasses, hlast]
      exact .of_run rfl ⟨⟨hsupplied', hspares,
        .inl ⟨v, rfl, .inr ⟨last + 1, i', hnext, rfl, hattended'⟩⟩⟩, last, hlast, hlt.le, hreaches⟩
    · exact .of_run rfl ⟨⟨hsupplied', hspares, .inr ⟨hnone, hended, last, htotal, hlast⟩⟩,
        last, hlast, htotal.ge, hreaches⟩

def filtering (A : Owner B) (htest : ∀ k v, A.known k v → B.Judges test v (.ok (passes k))) :
    Derivation B Unit where
  owner _ := A
  fits := A.FilterFits test passes
  ends := A.FilterEnds passes
  fits_goes h hgoes := by
    refine h.imp_right ?_
    rintro ⟨asked, i, hcount, rfl, hattended⟩
    exact ⟨asked, i, hcount, rfl, hattended.of_goes (hgoes ())⟩
  ends_goes h hgoes := by
    refine ⟨?_, h.2⟩
    rw [(hgoes ()).ended h.1]
    exact h.1
  next hsupplied hclean hfits depth :=
    (hfits.next_manages htest (hsupplied ()) (hclean ()) (fun _ => trivial)
      fun hmeans => (hmeans trivial).elim).mono fun _ _ h => h.1

section Filter

variable (htest : ∀ k v, A.known k v → B.Judges test v (.ok (passes k)))

/-- Up to the position of a value that passes, or to the end, a filter has what it needs. -/
theorem filtering_serves {stop : Nat} (hstop : stop < A.total →
      passes stop = true ∧ k ≤ Nat.count (passes · = true) stop)
    (hdepth : stop + 3 ≤ depth) : (A.filtering htest).Serves depth k fun _ => stop + 1 := by
  intro j p w hj hsupplied hclean hfits
  obtain ⟨depth, rfl⟩ := Nat.exists_eq_add_one_of_ne_zero (by omega : depth ≠ 0)
  have hmanages : (p.next (.ofBehavior B depth)).Manages False w _ :=
    hfits.next_manages htest (hsupplied ()) (hclean ()) (by omega) fun _ =>
      ⟨stop, Engine.lt_fuel (by omega), fun hlt => ⟨(hstop hlt).1, hj.trans (hstop hlt).2⟩⟩
  refine hmanages.mono ?_
  rintro y w' ⟨hanswers, last, hlast, htotal, hreaches⟩
  have hle : last ≤ stop := by
    rcases lt_or_ge (stop : ℕ∞) A.total with hlt | hge
    · obtain ⟨hpasses, hk⟩ := hstop hlt
      exact le_of_count_le hpasses (hlast.trans_le (hj.trans hk))
    · exact_mod_cast htotal.trans hge
  refine ⟨hanswers, fun _ => ⟨hreaches.spares.goes _ (hsupplied ()).tape_lt, ?_⟩⟩
  have hcalls := hreaches.calls_le
  change (w'.tape A.tape).calls ≤ max (w.tape A.tape).calls (stop + 1)
  omega

/-- Once a filter has given more than `k` values or has ended, so many positions have been
    asked for that more than `k` of them pass, or all have. -/
theorem filtering_asked {u : Tape} (h : (A.filtering htest).Guarded u w)
    (hclean : (w.sequence A.sequence).overwritten = [])
    (hfar : k < (w.tape u).log.size ∨ (w.tape u).hasEnded = true) :
    (∃ asked ≤ (w.tape A.tape).log.size, k < Nat.count (passes · = true) asked) ∨
      (w.tape A.tape).hasEnded = true := by
  have hphase := (h.stands fun _ => hclean).phase
  cases hcell : (w.tape u).phase with
  | running => simp only [hcell] at hphase
  | idle p =>
    simp only [hcell] at hphase
    have hgoing : (w.tape u).hasEnded = false := by simp [TapeState.hasEnded, hcell]
    have hlt : k < (w.tape u).log.size := by simpa [hgoing] using hfar
    rcases hphase with ⟨hzero, -⟩ | ⟨asked, i, hasked, -, found, -, -, hle, -⟩
    · omega
    · exact .inl ⟨asked, hle, hasked ▸ hlt⟩
  | ended =>
    simp only [hcell] at hphase
    exact .inr hphase.1

end Filter

/-- A filter of a sequence that owns its producer is made, and anything is done, but nothing
    put into the sequence.  Reading the filter at a position asks for the value that is found
    there and for nothing behind it, or for everything if there is none. -/
theorem demand_of_filter (hB : B.Lawful) (A : Owner B) {d : Sequence} {w₁ w₂ : World H}
    (hmade : A.Made w₁)
    (htest : ∀ k v, A.known k v → B.Judges test v (.ok (passes k)))
    (hfilter : (A.sequence.filter test).run w₁ = .ok (d, w₂))
    (hmoves : (Engine.ofBehavior B depth).Moves w₂ w)
    (hclean : (w.sequence A.sequence).overwritten = []) (k : Nat) :
    (∀ j : Nat, j < A.total → passes j = true → Nat.count (passes · = true) j = k →
      ∃ enough, ∀ depth ≥ enough, ∃ v w',
        (d.read (.ofBehavior B depth) k).run.run w = .ok (.ok v, w') ∧
        (w'.tape A.tape).calls = max (w.tape A.tape).calls (j + 1)) ∧
    (∀ n : Nat, A.total = n → Nat.count (passes · = true) n ≤ k →
      ∃ enough, ∀ depth ≥ enough, ∃ v w',
        (d.read (.ofBehavior B depth) k).run.run w = .ok (.ok v, w') ∧
        (w'.tape A.tape).hasEnded = true) := by
  have hopens : (A.sequence.filter test).run w₁ = .ok (w₁.freshSequence,
      w₁.withSequence (.filtered test (.pending A.sequence)) (w₁.sequence A.sequence).infinite) :=
    rfl
  cases hopens.symm.trans hfilter
  have hready : (A.filtering htest).Ready w₁.freshSequence w₁.freshTape w :=
    .of_adopt hB (fun _ => hmade.supplied hB) (hmade.ordered hB) _ (fun _ => .inl ⟨rfl, rfl⟩)
      hmoves fun _ => hclean
  refine ⟨fun j hj hpasses hcount => ⟨j + 3, fun depth hdepth => ?_⟩,
    fun n hn hcount => ⟨n + 3, fun depth hdepth => ?_⟩⟩
  · obtain ⟨v, w', hrun, hready', hdemands, hfar⟩ :=
      hready.run_read hB (filtering_serves htest (fun _ => ⟨hpasses, hcount.ge⟩) hdepth)
    have hcalls : (w.tape A.tape).calls ≤ (w'.tape A.tape).calls := (hdemands ()).1.calls_le
    have hle : (w'.tape A.tape).calls ≤ max (w.tape A.tape).calls (j + 1) := (hdemands ()).2
    have hlogged := (w'.tape A.tape).log_size_le_calls
    suffices hasked : j < (w'.tape A.tape).log.size from ⟨v, w', hrun, by omega⟩
    -- the filter has its value, so the search came as far as the one at `j`
    rcases filtering_asked htest hready'.guarded (hready'.untouched ()) hfar with
      ⟨asked, hasked, hlt⟩ | hended
    · refine Nat.lt_of_lt_of_le (Nat.lt_of_not_le fun hge => ?_) hasked
      have hmono : Nat.count (passes · = true) asked ≤ Nat.count (passes · = true) j :=
        Nat.count_monotone _ hge
      omega
    · have hstocked : A.Stocked w' := (hready'.guarded.supplied ()).toStocks
      rw [hstocked.total_eq_of_ended hended] at hj
      exact_mod_cast hj
  · obtain ⟨v, w', hrun, hready', -, hfar⟩ :=
      hready.run_read hB (filtering_serves htest (fun hlt => absurd hn.le (not_le.mpr hlt)) hdepth)
    refine ⟨v, w', hrun, ?_⟩
    rcases filtering_asked htest hready'.guarded (hready'.untouched ()) hfar with
      ⟨asked, hasked, hlt⟩ | hended
    · have hstocked : A.Stocked w' := (hready'.guarded.supplied ()).toStocks
      -- not even all values together pass often enough
      have hbelow : (asked : ℕ∞) ≤ A.total := (Nat.cast_le.mpr hasked).trans hstocked.size_le_total
      have hmono : Nat.count (passes · = true) asked ≤ Nat.count (passes · = true) n := by
        rw [hn] at hbelow
        exact Nat.count_monotone _ (by exact_mod_cast hbelow)
      omega
    · exact hended

end Owner

end MemoSeq
