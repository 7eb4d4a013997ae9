/-
  MemoSeq/Proofs/Flattening/Equality.lean
  =======================================
  **In how far equality is an equivalence.**

  Two sequences are equal when they are the same one or flatten to equal values.  Among flat
  values an integer equals a floating-point number when it rounds to it, so two integers
  that round to the same number equal that number and not each other: equality of flat
  values is symmetric but not transitive (`Flat.exists_not_trans`).  It is transitive
  between flat values whose integers are small enough for a double to hold
  (`Flat.equal_trans`).

  Comparing two planted values comes to comparing what they flatten to, however much of
  them has been forced before (`World.Planted.run_same`), so the same holds of values
  (`External.same_equivalence`).
-/
import MemoSeq.Equality
import MemoSeq.Proofs.Flattening.Eager
import MemoSeq.Proofs.Number.ReadBack

namespace MemoSeq

/-! ### Numbers -/

namespace Binary

variable {F : Format} {x y z : Binary F}

theorem equal_iff : x.equal y = true ↔
    x.isNaN = false ∧ y.isNaN = false ∧ x.code = y.code ∧
      (x.code = 0 ∨ x.negative = y.negative) := by
  simp [equal, and_assoc]

theorem equal_comm (x y : Binary F) : x.equal y = y.equal x := by
  rw [Bool.eq_iff_iff, equal_iff, equal_iff]
  constructor
  · rintro ⟨hx, hy, hcode, hsign⟩
    exact ⟨hy, hx, hcode.symm, hsign.imp (hcode ▸ ·) Eq.symm⟩
  · rintro ⟨hy, hx, hcode, hsign⟩
    exact ⟨hx, hy, hcode.symm, hsign.imp (hcode ▸ ·) Eq.symm⟩

theorem equal_trans (hxy : x.equal y = true) (hyz : y.equal z = true) : x.equal z = true := by
  rw [equal_iff] at *
  obtain ⟨hx, -, hcode, hsign⟩ := hxy
  obtain ⟨-, hz, hcode', hsign'⟩ := hyz
  refine ⟨hx, hz, hcode.trans hcode', ?_⟩
  rcases hsign with hzero | hsame
  · exact .inl hzero
  · exact hsign'.imp hcode.trans hsame.trans

theorem equal_self (hx : x.isNaN = false) : x.equal x = true :=
  equal_iff.mpr ⟨hx, hx, rfl, .inr rfl⟩

theorem isNaN_ofInt (n : Int) : (ofInt n : Binary F).isNaN = false :=
  decide_eq_false (Nat.not_lt.mpr (Nat.min_le_right _ _))

/-- The integers that every double of their size tells apart. -/
def exactBound : Nat := 2 ^ 53

theorem eq_of_equal_ofInt {a b : Int} (ha : a.natAbs ≤ exactBound) (hb : b.natAbs ≤ exactBound)
    (h : (ofInt a : Double).equal (ofInt b) = true) : a = b := by
  have hwhole {n : Int} (hn : n.natAbs ≤ exactBound) :
      Format.double.quanta (ofInt n : Double).code = n.natAbs * 2 ^ Format.double.places := by
    have hcode : (ofInt n : Double).code = Format.double.nearest n.natAbs 1 :=
      congrArg (Format.double.nearest · 1) (sightedBits_of_lt (Nat.lt_of_le_of_lt hn (by decide)))
    exact (congrArg Format.double.quanta hcode).trans (Format.quanta_nearest_of_le (by decide) hn)
  obtain ⟨-, -, hcode, hsign⟩ := equal_iff.mp h
  have hsize : a.natAbs = b.natAbs := by
    have hquanta := hwhole ha
    rw [hcode, hwhole hb] at hquanta
    exact (Nat.mul_right_cancel (Nat.two_pow_pos _) hquanta).symm
  rcases hsign with hzero | hsame
  · have hquanta := hwhole ha
    have hnone : Format.double.quanta 0 = 0 := by decide
    rw [hzero, hnone] at hquanta
    have hsizeless : a.natAbs = 0 :=
      (Nat.mul_eq_zero.mp hquanta.symm).resolve_right (Nat.ne_of_gt (Nat.two_pow_pos _))
    omega
  · have hsame : (a < 0) = (b < 0) := by simpa [ofInt] using hsame
    have hiff : a < 0 ↔ b < 0 := iff_of_eq hsame
    omega

end Binary

/-! ### Flat values -/

namespace Flat

mutual

/-- All integers are small enough for a double to hold them. -/
def Exact : Flat → Prop
  | .int n => n.natAbs ≤ Binary.exactBound
  | .float _ | .str _ => True
  | .list items => AllExact items

def AllExact : List Flat → Prop
  | [] => True
  | f :: fs => f.Exact ∧ AllExact fs

end

mutual

theorem equal_comm : ∀ f g : Flat, f.equal g = g.equal f
  | .int a, .int b | .str a, .str b => by simp [equal, Bool.beq_comm]
  | .float x, .float y => by simp [equal, Binary.equal_comm]
  | .list as, .list bs => by simp [equal, equalItems_comm as bs]
  | .int _, .float _ | .float _, .int _ => by simp [equal]
  | .int _, .str _ | .int _, .list _ | .float _, .str _ | .float _, .list _ | .str _, .int _
  | .str _, .float _ | .str _, .list _ | .list _, .int _ | .list _, .float _
  | .list _, .str _ => by simp [equal]

theorem equalItems_comm : ∀ fs gs : List Flat, equalItems fs gs = equalItems gs fs
  | [], [] | [], _ :: _ | _ :: _, [] => rfl
  | f :: fs, g :: gs => by rw [equalItems, equalItems, equal_comm f g, equalItems_comm fs gs]

end

def double? : Flat → Option Double
  | .int n => some (.ofInt n)
  | .float x => some x
  | .str _ | .list _ => none

/-- Equal numbers are rounded to equal doubles. -/
theorem double?_of_equal {f g : Flat} {x : Double} (h : f.equal g = true)
    (hf : f.double? = some x) : ∃ y, g.double? = some y ∧ x.equal y = true := by
  cases f with
  | str | list => cases hf
  | int a =>
    cases hf
    cases g with
    | int b =>
      obtain rfl : a = b := by simpa [equal] using h
      exact ⟨_, rfl, Binary.equal_self (Binary.isNaN_ofInt a)⟩
    | float y => exact ⟨y, rfl, h⟩
    | str | list => cases h
  | float x =>
    cases hf
    cases g with
    | int b => exact ⟨_, rfl, Binary.equal_comm _ x ▸ h⟩
    | float y => exact ⟨y, rfl, h⟩
    | str | list => cases h

/-- Among numbers that doubles hold, those that are rounded to equal doubles are equal. -/
theorem equal_of_double? {f g : Flat} {x y : Double} (hf : f.double? = some x)
    (hg : g.double? = some y) (hfexact : f.Exact) (hgexact : g.Exact) (h : x.equal y = true) :
    f.equal g = true := by
  cases f with
  | str | list => cases hf
  | int a =>
    cases hf
    cases g with
    | int b =>
      cases hg
      exact beq_iff_eq.mpr (Binary.eq_of_equal_ofInt hfexact hgexact h)
    | float y =>
      cases hg
      exact h
    | str | list => cases hg
  | float x =>
    cases hf
    cases g with
    | int b =>
      cases hg
      change (Binary.ofInt b).equal x = true
      rw [Binary.equal_comm]
      exact h
    | float y =>
      cases hg
      exact h
    | str | list => cases hg

mutual

/-- Between flat values with small integers, equality is transitive. -/
theorem equal_trans : ∀ f g h : Flat, f.Exact → h.Exact → f.equal g = true → g.equal h = true →
    f.equal h = true
  | .str a, .str b, h, _, _, hfg, hgh => by
    obtain rfl : a = b := by simpa [equal] using hfg
    exact hgh
  | .list as, .list bs, .list cs, has, hcs, hfg, hgh => equalItems_trans as bs cs has hcs hfg hgh
  | .int a, g, h, ha, hh, hfg, hgh => by
    obtain ⟨y, hy, hxy⟩ := double?_of_equal hfg rfl
    obtain ⟨z, hz, hyz⟩ := double?_of_equal hgh hy
    exact equal_of_double? rfl hz ha hh (Binary.equal_trans hxy hyz)
  | .float x, g, h, hx, hh, hfg, hgh => by
    obtain ⟨y, hy, hxy⟩ := double?_of_equal hfg rfl
    obtain ⟨z, hz, hyz⟩ := double?_of_equal hgh hy
    exact equal_of_double? rfl hz hx hh (Binary.equal_trans hxy hyz)
  | .str _, .int _, _, _, _, hfg, _ | .str _, .float _, _, _, _, hfg, _
  | .str _, .list _, _, _, _, hfg, _ | .list _, .int _, _, _, _, hfg, _
  | .list _, .float _, _, _, _, hfg, _ | .list _, .str _, _, _, _, hfg, _ => nomatch hfg
  | .list _, .list _, .int _, _, _, _, hgh | .list _, .list _, .float _, _, _, _, hgh
  | .list _, .list _, .str _, _, _, _, hgh => nomatch hgh

theorem equalItems_trans : ∀ fs gs hs : List Flat, AllExact fs → AllExact hs →
    equalItems fs gs = true → equalItems gs hs = true → equalItems fs hs = true
  | [], [], [], _, _, _, _ => rfl
  | f :: fs, g :: gs, h :: hs, hf, hh, hfg, hgh => by
    simp only [equalItems, Bool.and_eq_true] at hfg hgh ⊢
    exact ⟨equal_trans f g h hf.1 hh.1 hfg.1 hgh.1,
      equalItems_trans fs gs hs hf.2 hh.2 hfg.2 hgh.2⟩
  | [], [], _ :: _, _, _, _, hgh | _ :: _, _ :: _, [], _, _, _, hgh => nomatch hgh
  | [], _ :: _, _, _, _, hfg, _ | _ :: _, [], _, _, _, hfg, _ => nomatch hfg

end

/-- Two integers that are rounded to the same double equal it, but not each other. -/
theorem exists_not_trans : ∃ f g h : Flat, f.equal g = true ∧ g.equal h = true ∧
    f.equal h = false :=
  ⟨.int (2 ^ 53), .float (.ofInt (2 ^ 53)), .int (2 ^ 53 + 1), by decide +kernel⟩

end Flat

/-! ### Values -/

namespace Value

/-- What comparing two values comes to when they flatten to these flat values. -/
def sameAs : Value → Value → Flat → Flat → Bool
  | .list s, .list t, f, g => decide (s = t) || f.equal g
  | a, b, _, _ => a.sameScalar b

/-- What numbers and texts are compared by. -/
def measure? : Value → Option (Rat ⊕ String)
  | .int n => some (.inl n)
  | .rational r => some (.inl r)
  | .str text => some (.inr text)
  | .list _ => none

theorem sameScalar_iff {a b : Value} :
    a.sameScalar b = true ↔ ∃ m, a.measure? = some m ∧ b.measure? = some m := by
  cases a <;> cases b <;> simp [sameScalar, asRat?, measure?] <;> exact eq_comm

theorem sameAs_of_scalar {a b : Value} {f g : Flat} (h : a.asList? = none ∨ b.asList? = none) :
    a.sameAs b f g = a.sameScalar b := by
  cases a with
  | int | rational | str => rfl
  | list s =>
    cases b with
    | int | rational | str => rfl
    | list t => rcases h with h | h <;> cases h

theorem sameAs_self (a : Value) (f : Flat) : a.sameAs a f f = true := by
  cases a with
  | list s => simp [sameAs]
  | int | rational | str =>
    rw [sameAs_of_scalar (.inl rfl), sameScalar_iff]
    exact ⟨_, rfl, rfl⟩

theorem sameAs_comm (a b : Value) (f g : Flat) : a.sameAs b f g = b.sameAs a g f := by
  by_cases h : a.asList? = none ∨ b.asList? = none
  · rw [sameAs_of_scalar h, sameAs_of_scalar h.symm, Bool.eq_iff_iff, sameScalar_iff,
      sameScalar_iff]
    exact exists_congr fun m => and_comm
  · cases a with
    | int | rational | str => exact (h (.inl rfl)).elim
    | list s =>
      cases b with
      | int | rational | str => exact (h (.inr rfl)).elim
      | list t => simp [sameAs, eq_comm, Flat.equal_comm f g]

/-- Equality is transitive between values of which the outer ones flatten to small
    integers only.  The same sequence flattens to the same. -/
theorem sameAs_trans {a b c : Value} {f g k : Flat} (hf : f.Exact) (hk : k.Exact)
    (hone : a = b → f = g) (hother : b = c → g = k) (hab : a.sameAs b f g = true)
    (hbc : b.sameAs c g k = true) : a.sameAs c f k = true := by
  cases b with
  | int | rational | str =>
    rw [sameAs_of_scalar (.inr rfl), sameScalar_iff] at hab
    rw [sameAs_of_scalar (.inl rfl), sameScalar_iff] at hbc
    obtain ⟨m, ha, hb⟩ := hab
    obtain ⟨m', hb', hc⟩ := hbc
    cases hb.symm.trans hb'
    have hscalar : a.asList? = none := by
      cases a with
      | list s => cases ha
      | int | rational | str => rfl
    rw [sameAs_of_scalar (.inl hscalar), sameScalar_iff]
    exact ⟨m, ha, hc⟩
  | list t =>
    cases a with
    | int | rational | str => cases hab
    | list s =>
      cases c with
      | int | rational | str => cases hbc
      | list u =>
        simp only [sameAs, Bool.or_eq_true, decide_eq_true_eq] at hab hbc ⊢
        rcases hab with rfl | hfg
        · obtain rfl := hone rfl
          exact hbc
        · rcases hbc with rfl | hgk
          · obtain rfl := hother rfl
            exact .inr hfg
          · exact .inr (Flat.equal_trans f g k hf hk hfg hgk)

end Value

variable {H : Host} {B : Behavior H} {w w' : World H} {depth : Nat} {a b c : Value}
variable {ta tb tc : Tree} {f g k : Flat}

theorem Tree.Shown.unique {G : Planting} (ha : ta.Shown G a) (hb : tb.Shown G a) : ta = tb := by
  cases ta with
  | leaf y =>
    obtain ⟨rfl, hscalar⟩ := ha
    cases tb with
    | leaf z => rw [hb.1]
    | node children =>
      obtain ⟨s, t, rfl, -⟩ := hb
      cases hscalar
  | node children =>
    obtain ⟨s, t, rfl, hs⟩ := ha
    cases tb with
    | leaf z => cases hb.2
    | node children' =>
      obtain ⟨s', t', heq, hs'⟩ := hb
      cases heq
      cases hs.symm.trans hs'
      rfl

/-- Comparing planted values comes to comparing what they flatten to. -/
theorem World.Planted.run_same {G : Planting} (h : w.Planted B G) (ha : ta.Shown G a)
    (hb : tb.Shown G b) (hf : ta.eager = .ok f) (hg : tb.eager = .ok g)
    (hdepth : ta.size < depth) (hdepth' : tb.size < depth) :
    ∃ w' G', (a.same (.ofBehavior B depth) b).run w = .ok (a.sameAs b f g, w') ∧
      G.Extends G' ∧ w'.Planted B G' := by
  by_cases hscalar : a.asList? = none ∨ b.asList? = none
  · rw [Value.same_eq hscalar, Value.sameAs_of_scalar hscalar]
    exact ⟨w, G, rfl, .refl G, h⟩
  · cases a with
    | int | rational | str => exact (hscalar (.inl rfl)).elim
    | list s =>
      cases b with
      | int | rational | str => exact (hscalar (.inr rfl)).elim
      | list t =>
        change ∃ w' G', (s.same (.ofBehavior B depth) t).run w = _ ∧ _
        unfold Sequence.same
        by_cases hst : s = t
        · rw [if_pos hst]
          simp only [Value.sameAs, hst, decide_true, Bool.true_or]
          exact ⟨w, G, rfl, .refl G, h⟩
        · obtain ⟨w₁, G₁, hrun, hext, hplanted⟩ := h.run_flatten hdepth ha
          obtain ⟨w₂, G₂, hrun', hext', hplanted'⟩ :=
            hplanted.run_flatten hdepth' (hb.mono hext)
          rw [hf] at hrun
          rw [hg] at hrun'
          have hequals : (s.equals (.ofBehavior B depth) (.list t)).run.run w =
              .ok (.ok (f.equal g), w₂) :=
            (Attempt.run_bind_of_ok hrun).trans (Attempt.run_bind_of_ok hrun')
          rw [if_neg hst]
          simp only [Value.sameAs, hst, decide_false, Bool.false_or]
          exact ⟨w₂, G₂, Act.run_bind_of_eq hequals, hext.trans hext', hplanted'⟩

/-- Making a value canonical plants it. -/
theorem Tree.ShownBy.planted {G : Planting} {x : External H.Source} (hx : ta.ShownBy B x)
    (h : w.Planted B G) (hrun : (canonicalize x).run.run w = .ok (.ok a, w')) :
    ∃ G', G.Extends G' ∧ w'.Planted B G' ∧ ta.Shown G' a := by
  obtain ⟨item, w'', hcanon, hsprouts⟩ := hx.run_canonicalize w
  cases hcanon.symm.trans hrun
  obtain ⟨G', hext, hplanted, -, hshown⟩ := hsprouts.planted h
  exact ⟨G', hext, hplanted, hshown⟩

section Three

variable {x y z : External H.Source} {w₁ w₂ w₃ : World H}

/-- Three values from outside are made canonical one after the other. -/
theorem External.planted_three (hx : ta.ShownBy B x) (hy : tb.ShownBy B y) (hz : tc.ShownBy B z)
    (hlimit : w.limit = none) (ha : (canonicalize x).run.run w = .ok (.ok a, w₁))
    (hb : (canonicalize y).run.run w₁ = .ok (.ok b, w₂))
    (hc : (canonicalize z).run.run w₂ = .ok (.ok c, w₃)) :
    ∃ G, w₃.Planted B G ∧ ta.Shown G a ∧ tb.Shown G b ∧ tc.Shown G c := by
  obtain ⟨G₁, -, hplanted₁, ha⟩ := hx.planted (World.planted_empty hlimit) ha
  obtain ⟨G₂, hext₂, hplanted₂, hb⟩ := hy.planted hplanted₁ hb
  obtain ⟨G₃, hext₃, h, hc⟩ := hz.planted hplanted₂ hc
  exact ⟨G₃, h, (ha.mono hext₂).mono hext₃, hb.mono hext₃, hc⟩

/-- What comparing the first with the second, the second with the third and the first with
    the third comes to, one after the other. -/
theorem World.Planted.run_same_three {G : Planting} (h : w.Planted B G) (ha : ta.Shown G a)
    (hb : tb.Shown G b) (hc : tc.Shown G c) (hf : ta.eager = .ok f) (hg : tb.eager = .ok g)
    (hk : tc.eager = .ok k) (hta : ta.size < depth) (htb : tb.size < depth)
    (htc : tc.size < depth) :
    ∃ u u' u'', (a.same (.ofBehavior B depth) b).run w = .ok (a.sameAs b f g, u) ∧
      (b.same (.ofBehavior B depth) c).run u = .ok (b.sameAs c g k, u') ∧
      (a.same (.ofBehavior B depth) c).run u' = .ok (a.sameAs c f k, u'') := by
  obtain ⟨u, G₁, hrun, hext, hplanted⟩ := h.run_same ha hb hf hg hta htb
  obtain ⟨u', G₂, hrun', hext', hplanted'⟩ :=
    hplanted.run_same (hb.mono hext) (hc.mono hext) hg hk htb htc
  obtain ⟨u'', -, hrun'', -⟩ := hplanted'.run_same ((ha.mono hext).mono hext')
    ((hc.mono hext).mono hext') hf hk hta htc
  exact ⟨u, u', u'', hrun, hrun', hrun''⟩

/-- Three values from outside, with trees without errors, are made canonical one after the
    other.  Then each equals itself, and which of two is compared with the other does not
    matter.  If the first equals the second and the second the third, the first equals the
    third provided that no integer in either is too large for a double to hold. -/
theorem External.same_equivalence {x y z : External H.Source} (hx : ta.ShownBy B x)
    (hy : tb.ShownBy B y) (hz : tc.ShownBy B z) (hf : ta.eager = .ok f) (hg : tb.eager = .ok g)
    (hk : tc.eager = .ok k) (hlimit : w.limit = none)
    (hdepth : ta.size < depth ∧ tb.size < depth ∧ tc.size < depth) {w₁ w₂ w₃ : World H}
    (ha : (canonicalize x).run.run w = .ok (.ok a, w₁))
    (hb : (canonicalize y).run.run w₁ = .ok (.ok b, w₂))
    (hc : (canonicalize z).run.run w₂ = .ok (.ok c, w₃)) :
    (∃ u, (a.same (.ofBehavior B depth) a).run w₃ = .ok (true, u)) ∧
    (∃ r u u', (a.same (.ofBehavior B depth) b).run w₃ = .ok (r, u) ∧
      (b.same (.ofBehavior B depth) a).run u = .ok (r, u')) ∧
    (f.Exact → k.Exact → ∀ u u', (a.same (.ofBehavior B depth) b).run w₃ = .ok (true, u) →
      (b.same (.ofBehavior B depth) c).run u = .ok (true, u') →
      ∃ u'', (a.same (.ofBehavior B depth) c).run u' = .ok (true, u'')) := by
  obtain ⟨hta, htb, htc⟩ := hdepth
  obtain ⟨G, h, ha, hb, hc⟩ := planted_three hx hy hz hlimit ha hb hc
  refine ⟨?_, ?_, fun hfexact hkexact u u' hab hbc => ?_⟩
  · obtain ⟨u, -, hrun, -⟩ := h.run_same ha ha hf hf hta hta
    rw [Value.sameAs_self] at hrun
    exact ⟨u, hrun⟩
  · obtain ⟨u, G₄, hrun, hext, hplanted⟩ := h.run_same ha hb hf hg hta htb
    obtain ⟨u', -, hrun', -⟩ := hplanted.run_same (hb.mono hext) (ha.mono hext) hg hf htb hta
    rw [Value.sameAs_comm] at hrun'
    exact ⟨_, u, u', hrun, hrun'⟩
  · obtain ⟨v, v', u'', hrun, hrun', hrun''⟩ :=
      h.run_same_three ha hb hc hf hg hk hta htb htc
    obtain ⟨hsame, rfl⟩ := Prod.mk.inj (Except.ok.inj (hrun.symm.trans hab))
    obtain ⟨hsame', rfl⟩ := Prod.mk.inj (Except.ok.inj (hrun'.symm.trans hbc))
    have hone : a = b → f = g := by
      rintro rfl
      exact Except.ok.inj (hf.symm.trans (ha.unique hb ▸ hg))
    have hother : b = c → g = k := by
      rintro rfl
      exact Except.ok.inj (hg.symm.trans (hb.unique hc ▸ hk))
    rw [Value.sameAs_trans hfexact hkexact hone hother hsame hsame'] at hrun''
    exact ⟨u'', hrun''⟩

end Three

/-- A rational is shown by the leaf of its canonical form. -/
theorem Tree.shownBy_rational {r : Rat} {v : Value} (h : Value.ofRat r = v) :
    (Tree.leaf (.ok v)).ShownBy B (.rational r) :=
  congrArg (fun v => some (Except.ok v)) h

theorem Tree.shownBy_float {x : Double} {y : Outcome Value} (h : x.canonical = y) :
    (Tree.leaf y).ShownBy B (.float x) :=
  congrArg some h

namespace Session

/-- Three containers of the same items, written differently: an integer, a rational that is
    not whole, and a container of a text and another integer. -/
theorem same_equivalence_nested :
    ∃ a b c w₃, (do return (
        ← canonicalize (H := host) (.items [.int 1, .rational (1 / 2), .items [.str "x", .int 2]]),
        ← canonicalize (H := host)
          (.items [.rational 1, .float (.ofRat (1 / 2)), .items [.str "x", .rational 2]]),
        ← canonicalize (H := host)
          (.items [.float (.ofInt 1), .rational (1 / 2), .items [.str "x", .int 2]])) :
          Attempt host (Value × Value × Value)).run.run start = .ok (.ok (a, b, c), w₃) ∧
      (∃ u, (a.same (engine 9) a).run w₃ = .ok (true, u)) ∧
      (∃ r u u', (a.same (engine 9) b).run w₃ = .ok (r, u) ∧
        (b.same (engine 9) a).run u = .ok (r, u')) ∧
      ∃ u u' u'', (a.same (engine 9) b).run w₃ = .ok (true, u) ∧
        (b.same (engine 9) c).run u = .ok (true, u') ∧
        (a.same (engine 9) c).run u' = .ok (true, u'') := by
  let t : Tree := .node [.leaf (.ok (.int 1)), .leaf (.ok (.rational (1 / 2))),
    .node [.leaf (.ok (.str "x")), .leaf (.ok (.int 2))]]
  let f : Flat := .list [.int 1, .float (.ofRat (1 / 2)), .list [.str "x", .int 2]]
  have hx : t.ShownBy behavior (.items [.int 1, .rational (1 / 2), .items [.str "x", .int 2]]) :=
    ⟨rfl, Tree.shownBy_rational (by decide +kernel), ⟨rfl, rfl, trivial⟩, trivial⟩
  have hy : t.ShownBy behavior
      (.items [.rational 1, .float (.ofRat (1 / 2)), .items [.str "x", .rational 2]]) :=
    ⟨Tree.shownBy_rational (by decide), Tree.shownBy_float (by decide +kernel),
      ⟨rfl, Tree.shownBy_rational (by decide), trivial⟩, trivial⟩
  have hz : t.ShownBy behavior
      (.items [.float (.ofInt 1), .rational (1 / 2), .items [.str "x", .int 2]]) :=
    ⟨Tree.shownBy_float (by decide +kernel), Tree.shownBy_rational (by decide +kernel),
      ⟨rfl, rfl, trivial⟩, trivial⟩
  have heager : t.eager = .ok f := rfl
  have hdepth : t.size < 9 := by decide
  have hbound : (1 : Int).natAbs ≤ Binary.exactBound ∧ (2 : Int).natAbs ≤ Binary.exactBound := by
    decide
  have hexact : f.Exact := ⟨hbound.1, trivial, ⟨trivial, hbound.2, trivial⟩, trivial⟩
  obtain ⟨hself, hcomm, htrans⟩ := External.same_equivalence (w := start) hx hy hz heager heager
    heager rfl ⟨hdepth, hdepth, hdepth⟩ rfl rfl rfl
  obtain ⟨G, h, ha, hb, hc⟩ := External.planted_three (w := start) hx hy hz rfl rfl rfl rfl
  obtain ⟨u, u', -, hrun, hrun', -⟩ :=
    h.run_same_three ha hb hc heager heager heager hdepth hdepth hdepth
  have hequal : f.equal f = true := by decide +kernel
  simp only [Value.sameAs, hequal, Bool.or_true] at hrun hrun'
  obtain ⟨u'', hrun''⟩ := htrans hexact hexact u u' hrun hrun'
  exact ⟨_, _, _, _, rfl, hself, hcomm, u, u', u'', hrun, hrun', hrun''⟩

/-- Of three sequences, the first equals the second and the second the third, but the first
    does not equal the third: each holds one number, and the one in the middle is half way
    between two integers that a double cannot tell apart. -/
theorem same_not_trans :
    ∃ a b c w₃ u u' u'', (do return (
        ← canonicalize (H := host) (.items [.int (2 ^ 53)]),
        ← canonicalize (H := host) (.items [.rational (2 ^ 53 + 1 / 2)]),
        ← canonicalize (H := host) (.items [.int (2 ^ 53 + 1)])) :
          Attempt host (Value × Value × Value)).run.run start = .ok (.ok (a, b, c), w₃) ∧
      (a.same (engine 5) b).run w₃ = .ok (true, u) ∧
      (b.same (engine 5) c).run u = .ok (true, u') ∧
      (a.same (engine 5) c).run u' = .ok (false, u'') := by
  have hx : (Tree.node [.leaf (.ok (.int (2 ^ 53)))]).ShownBy behavior (.items [.int (2 ^ 53)]) :=
    ⟨rfl, trivial⟩
  have hy : (Tree.node [.leaf (.ok (.rational (2 ^ 53 + 1 / 2)))]).ShownBy behavior
      (.items [.rational (2 ^ 53 + 1 / 2)]) :=
    ⟨Tree.shownBy_rational (by decide +kernel), trivial⟩
  have hz : (Tree.node [.leaf (.ok (.int (2 ^ 53 + 1)))]).ShownBy behavior
      (.items [.int (2 ^ 53 + 1)]) :=
    ⟨rfl, trivial⟩
  obtain ⟨G, h, ha, hb, hc⟩ := External.planted_three (w := start) (a := .list ⟨0⟩)
    (b := .list ⟨1⟩) (c := .list ⟨2⟩) hx hy hz rfl rfl rfl rfl
  have hf : (Tree.node [.leaf (.ok (.int (2 ^ 53)))]).eager = .ok (.list [.int (2 ^ 53)]) := rfl
  have hg : (Tree.node [.leaf (.ok (.rational (2 ^ 53 + 1 / 2)))]).eager =
      .ok (.list [.float (.ofRat (2 ^ 53 + 1 / 2))]) := rfl
  have hk : (Tree.node [.leaf (.ok (.int (2 ^ 53 + 1)))]).eager =
      .ok (.list [.int (2 ^ 53 + 1)]) := rfl
  obtain ⟨u, u', u'', hrun, hrun', hrun''⟩ := h.run_same_three ha hb hc hf hg hk
    (by decide : _ < 5) (by decide) (by decide)
  have hfirst : Value.sameAs (.list ⟨0⟩) (.list ⟨1⟩) (.list [.int (2 ^ 53)])
      (.list [.float (.ofRat (2 ^ 53 + 1 / 2))]) = true := by decide +kernel
  have hsecond : Value.sameAs (.list ⟨1⟩) (.list ⟨2⟩) (.list [.float (.ofRat (2 ^ 53 + 1 / 2))])
      (.list [.int (2 ^ 53 + 1)]) = true := by decide +kernel
  have hthird : Value.sameAs (.list ⟨0⟩) (.list ⟨2⟩) (.list [.int (2 ^ 53)])
      (.list [.int (2 ^ 53 + 1)]) = false := by decide +kernel
  rw [hfirst] at hrun
  rw [hsecond] at hrun'
  rw [hthird] at hrun''
  exact ⟨_, _, _, _, u, u', u'', rfl, hrun, hrun', hrun''⟩

end Session

end MemoSeq
