/-
  MemoSeq/Proofs/Demand/Concatenations.lean
  ==========================================
  **What a concatenation asks for.**

  A concatenation of two sequences over different producers goes along the left one, and
  opens the right one in the very pull that ends the left one
  (`Owner.JoinFits.next_manages`).  So the right one is not asked for anything as long as the
  left one has a value for the position that is read (`Owner.demand_of_append`).
-/
import MemoSeq.Proofs.Demand.Derived

namespace MemoSeq

variable {H : Host} {B : Behavior H} {depth k asked : Nat} {w w' : World H}

namespace Owner

variable {A A' : Owner B} {i : Iteration}

def sides (A A' : Owner B) : Bool → Owner B
  | false => A
  | true => A'

/-- The producer of a concatenation that has given so many values has had them of the left
    one, or all that the left one has and the rest of the right one. -/
def JoinFits (A A' : Owner B) (k : Nat) (p : Producer H) (w : World H) : Prop :=
  (∃ i, p = .joined (some i) (.pending A'.sequence) ∧ A.Attended w k i) ∨
    ∃ (n asked : Nat) (i : Iteration), A.total = n ∧ n + asked = k ∧
      (w.tape A.tape).hasEnded = true ∧ p = .joined none (.opened i) ∧ A'.Attended w asked i

def JoinEnds (A A' : Owner B) (k : Nat) (w : World H) : Prop :=
  A.total + A'.total = k ∧ (w.tape A.tape).hasEnded = true ∧ (w.tape A'.tape).hasEnded = true

/-- How far a concatenation goes along the two for the value at position `k`. -/
inductive JoinReaches (A A' : Owner B) (k : Nat) (w w' : World H) : Prop
  | left : k < A.total → A.Reaches k w w' → JoinReaches A A' k w w'
  | right (n asked : Nat) (v : World H) : A.total = n → n + asked = k → A.Reaches n w v →
      A'.Reaches asked v w' → JoinReaches A A' k w w'

theorem Attended.along_manages (h : A.Attended w asked i) (hstocked : A.Stocked w) :
    (Producer.nextDeferred.along (.ofBehavior B depth) i).Manages (depth < 2) w fun y w' =>
      A.Reaches asked w w' ∧
        ((∃ v i', y = (some (.ok v), .opened i') ∧ A.Attended w' (asked + 1) i') ∨
          (A.total = asked ∧ y.1 = none ∧ (w'.tape A.tape).hasEnded = true)) := by
  refine (h.next_manages hstocked).bind ?_
  rintro ⟨x, i'⟩ w' ⟨hreaches, ⟨hlt, v, rfl, -, hattended⟩ | ⟨htotal, rfl, hended⟩⟩
  · exact .of_run rfl ⟨hreaches, .inl ⟨v, i', rfl, hattended⟩⟩
  · exact .of_run rfl ⟨hreaches, .inr ⟨htotal, rfl, hended⟩⟩

namespace JoinReaches

variable (hne : A.tape ≠ A'.tape)
include hne

theorem supplied (h : JoinReaches A A' k w w') (hA : A.Supplied w) (hA' : A'.Supplied w) :
    A.Supplied w' ∧ A'.Supplied w' := by
  cases h with
  | left hlt hreaches => exact ⟨hreaches.supplied hA, hreaches.supplied_of_ne hne.symm hA'⟩
  | right n asked v htotal hk hleft hright =>
    exact ⟨hright.supplied_of_ne hne (hleft.supplied hA),
      hright.supplied (hleft.supplied_of_ne hne.symm hA')⟩

omit hne in
theorem spares (h : JoinReaches A A' k w w') :
    w.Spares (fun t => ∀ b, t ≠ (sides A A' b).tape.id) (fun _ => True) w' := by
  cases h with
  | left hlt hreaches => exact hreaches.spares.mono (fun t ht => ht false) fun _ _ => trivial
  | right n asked v htotal hk hleft hright =>
    exact (hleft.spares.mono (fun t ht => ht false) fun _ _ => trivial).trans
      (hright.spares.mono (fun t ht => ht true) fun _ _ => trivial)

/-- The calls are within any bounds that allow for this. -/
theorem calls_le (h : JoinReaches A A' k w w') (hA' : A'.Supplied w)
    {cap : Bool → Nat} (hleft : k < A.total → k + 1 ≤ cap false)
    (hright : ∀ n asked : Nat, A.total = n → n + asked = k →
      n + 1 ≤ cap false ∧ asked + 1 ≤ cap true) (b : Bool) :
    (w'.tape (sides A A' b).tape).calls ≤ max (w.tape (sides A A' b).tape).calls (cap b) := by
  have hids : A.tape.id ≠ A'.tape.id := fun heq => hne (congrArg Tape.mk heq)
  cases h with
  | left hlt hreaches =>
    have hcap := hleft hlt
    have hcalls := hreaches.calls_le
    have hother : w'.tape A'.tape = w.tape A'.tape :=
      hreaches.spares.tapes _ hids.symm hA'.tape_lt
    cases b with
    | false =>
      change (w'.tape A.tape).calls ≤ max (w.tape A.tape).calls (cap false)
      omega
    | true =>
      change (w'.tape A'.tape).calls ≤ max (w.tape A'.tape).calls (cap true)
      rw [hother]
      exact Nat.le_max_left ..
  | right n asked v htotal hk hreaches hreaches' =>
    obtain ⟨hcap, hcap'⟩ := hright n asked htotal hk
    have hcalls := hreaches.calls_le
    have hcalls' := hreaches'.calls_le
    have hother : v.tape A'.tape = w.tape A'.tape :=
      hreaches.spares.tapes _ hids.symm hA'.tape_lt
    have hother' : w'.tape A.tape = v.tape A.tape :=
      hreaches'.spares.tapes _ hids hreaches.stocked.tape_lt
    cases b with
    | false =>
      change (w'.tape A.tape).calls ≤ max (w.tape A.tape).calls (cap false)
      rw [hother']
      omega
    | true =>
      change (w'.tape A'.tape).calls ≤ max (w.tape A'.tape).calls (cap true)
      rw [hother] at hcalls'
      omega

end JoinReaches

/-- When the left one has ended, the rest is had of the right one. -/
theorem Attended.rest_manages (hne : A.tape ≠ A'.tape) {v : World H} {n : Nat}
    (htotal : A.total = n) (hk : n + asked = k) (hleft : A.Reaches n w v)
    (hended : (v.tape A.tape).hasEnded = true) (hA' : A'.Stocked v)
    (h : A'.Attended v asked i) :
    (do
      let (item, right) ← Producer.nextDeferred.along (.ofBehavior B depth) i
      return (item, .joined none right) : Act H (Option Item × Producer H)).Manages (depth < 2) v
      fun y w' => JoinReaches A A' k w w' ∧
        ((∃ a, y.1 = some (.ok a) ∧ JoinFits A A' (k + 1) y.2 w') ∨
          (y.1 = none ∧ JoinEnds A A' k w')) := by
  refine (h.along_manages hA').bind ?_
  rintro ⟨x, state⟩ w' ⟨hright, hitem⟩
  have hsame : w'.tape A.tape = v.tape A.tape :=
    hright.spares.tapes _ (fun heq => hne (congrArg Tape.mk heq)) hleft.stocked.tape_lt
  refine .of_run rfl ⟨.right n asked v htotal hk hleft hright, ?_⟩
  rcases hitem with ⟨a, i', hy, hattended⟩ | ⟨htotal', hnone, hended'⟩
  · cases hy
    exact .inl ⟨a, rfl, .inr ⟨n, asked + 1, i', htotal, by omega, hsame ▸ hended, rfl, hattended⟩⟩
  · refine .inr ⟨hnone, ?_, hsame ▸ hended, hended'⟩
    rw [htotal, htotal']
    exact_mod_cast hk

/-- A concatenation gives the values of the left one and then those of the right one. -/
theorem JoinFits.next_manages (hne : A.tape ≠ A'.tape) {p : Producer H}
    (h : JoinFits A A' k p w) (hA : A.Supplied w) (hA' : A'.Supplied w)
    (hclean : (w.sequence A'.sequence).overwritten = []) :
    (p.next (.ofBehavior B depth)).Manages (depth < 2) w fun y w' =>
      JoinReaches A A' k w w' ∧
        ((∃ a, y.1 = some (.ok a) ∧ JoinFits A A' (k + 1) y.2 w') ∨
          (y.1 = none ∧ JoinEnds A A' k w')) := by
  rcases h with ⟨i, rfl, hattended⟩ | ⟨n, asked, i, htotal, hk, hended, rfl, hattended⟩
  · refine (hattended.next_manages hA.toStocks).bind ?_
    rintro ⟨x, i'⟩ v ⟨hreaches, ⟨hlt, a, rfl, -, hattended'⟩ | ⟨htotal, rfl, hended⟩⟩
    · exact .of_run rfl ⟨.left hlt hreaches, .inl ⟨a, rfl, .inl ⟨i', rfl, hattended'⟩⟩⟩
    · -- the right one is opened in the very pull that ends the left one
      have hsupplied := hreaches.supplied_of_ne hne.symm hA'
      have hsame := hreaches.spares.sequences A'.sequence trivial hA'.sequence_lt
      have hopened := Attended.opened hsupplied (hsame ▸ hclean)
      exact .congr rfl (hopened.rest_manages hne htotal (Nat.add_zero k) hreaches hended
        hsupplied.toStocks)
  · exact hattended.rest_manages hne htotal hk (.refl hA.toStocks n) hended hA'.toStocks

def joining (hne : A.tape ≠ A'.tape) : Derivation B Bool where
  owner := sides A A'
  fits := JoinFits A A'
  ends := JoinEnds A A'
  fits_goes {k p w w'} h hgoes := by
    rcases h with ⟨i, rfl, hattended⟩ | ⟨n, asked, i, htotal, hk, hended, rfl, hattended⟩
    · exact .inl ⟨i, rfl, hattended.of_goes (hgoes false)⟩
    · have hsame : w'.tape A.tape = w.tape A.tape := (hgoes false).ended hended
      exact .inr ⟨n, asked, i, htotal, hk, hsame ▸ hended, rfl, hattended.of_goes (hgoes true)⟩
  ends_goes {k w w'} h hgoes := by
    obtain ⟨htotal, hended, hended'⟩ := h
    have hsame : w'.tape A.tape = w.tape A.tape := (hgoes false).ended hended
    have hsame' : w'.tape A'.tape = w.tape A'.tape := (hgoes true).ended hended'
    exact ⟨htotal, hsame ▸ hended, hsame' ▸ hended'⟩
  next hsupplied hclean hfits depth := by
    refine ((hfits.next_manages hne (hsupplied false) (hsupplied true) (hclean true)).of_imp
      fun _ => trivial).mono ?_
    rintro y w' ⟨hreaches, hitem⟩
    have hboth := hreaches.supplied hne (hsupplied false) (hsupplied true)
    exact ⟨Bool.forall_bool.mpr hboth, hreaches.spares, hitem⟩

section Concatenation

variable (hne : A.tape ≠ A'.tape)

theorem joining_serves (hdepth : 3 ≤ depth) {cap : Bool → Nat}
    (hcap : ∀ j ≤ k, (j < A.total → j + 1 ≤ cap false) ∧
      ∀ n asked : Nat, A.total = n → n + asked = j → n + 1 ≤ cap false ∧ asked + 1 ≤ cap true) :
    (joining hne).Serves depth k cap := by
  intro j p w hj hsupplied hclean hfits
  obtain ⟨depth, rfl⟩ := Nat.exists_eq_add_one_of_ne_zero (by omega : depth ≠ 0)
  refine ((hfits.next_manages hne (hsupplied false) (hsupplied true) (hclean true)).of_imp
    (by omega)).mono ?_
  rintro y w' ⟨hreaches, hitem⟩
  have hboth := hreaches.supplied hne (hsupplied false) (hsupplied true)
  exact ⟨⟨Bool.forall_bool.mpr hboth, hreaches.spares, hitem⟩, fun b =>
    ⟨hreaches.spares.goes _ (hsupplied b).tape_lt,
      hreaches.calls_le hne (hsupplied true) (hcap j hj).1 (hcap j hj).2 b⟩⟩

/-- Once a concatenation has given more than `k` values or has ended, the two have been asked
    for as many as that takes. -/
theorem joining_asked {u : Tape} (h : (joining hne).Guarded u w)
    (hclean : Untouched (sides A A') w)
    (hfar : k < (w.tape u).log.size ∨ (w.tape u).hasEnded = true) :
    (k < A.total → k < (w.tape A.tape).log.size) ∧
      ∀ n : Nat, A.total = n → n ≤ k → k < A.total + A'.total →
        k - n < (w.tape A'.tape).log.size := by
  have hphase := (h.stands hclean).phase
  have hA : A.Stocked w := (h.supplied false).toStocks
  have hA' : A'.Stocked w := (h.supplied true).toStocks
  have hall (hended : (w.tape A.tape).hasEnded = true) (hlt : (k : ℕ∞) < A.total) :
      k < (w.tape A.tape).log.size := by
    rw [hA.total_eq_of_ended hended] at hlt
    exact_mod_cast hlt
  cases hcell : (w.tape u).phase with
  | running => simp only [hcell] at hphase
  | idle p =>
    simp only [hcell] at hphase
    have hgoing : (w.tape u).hasEnded = false := by simp [TapeState.hasEnded, hcell]
    have hgiven : k < (w.tape u).log.size := by simpa [hgoing] using hfar
    rcases hphase with ⟨i, -, found, -, -, hle, -⟩ |
      ⟨n, asked, i, htotal, hk, hended, -, found, -, -, hle, -⟩
    · refine ⟨fun _ => Nat.lt_of_lt_of_le hgiven hle, fun n hn hnk => ?_⟩
      have hbelow := hA.size_le_total
      rw [hn, Nat.cast_le] at hbelow
      omega
    · refine ⟨hall hended, fun m hm hmk _ => ?_⟩
      obtain rfl : n = m := by exact_mod_cast htotal.symm.trans hm
      omega
  | ended =>
    simp only [hcell] at hphase
    obtain ⟨-, hended, hended'⟩ := hphase
    refine ⟨hall hended, fun n hn hnk hlt => ?_⟩
    rw [hn, hA'.total_eq_of_ended hended'] at hlt
    have hbelow : k < n + (w.tape A'.tape).log.size := by exact_mod_cast hlt
    change k - n < (w.tape A'.tape).log.size
    omega

end Concatenation

/-- A concatenation of two sequences over different producers is made, and anything is done,
    but nothing put into the two.  Reading the concatenation at a position asks the left one
    for the value there, if it has one, and the right one for nothing.  If the left one has
    no value there and the right one has, the right one is asked for its value. -/
theorem demand_of_append (hB : B.Lawful) (A A' : Owner B) (hne : A.tape ≠ A'.tape)
    {d : Sequence} {w₁ w₂ : World H} (hmade : A.Made w₁) (hmade' : A'.Made w₁)
    (happend : (A.sequence.append A'.sequence).run w₁ = .ok (d, w₂))
    (hmoves : (Engine.ofBehavior B depth).Moves w₂ w)
    (hclean : (w.sequence A.sequence).overwritten = [])
    (hclean' : (w.sequence A'.sequence).overwritten = []) (k : Nat) :
    (k < A.total → ∃ enough, ∀ depth ≥ enough, ∃ v w',
      (d.read (.ofBehavior B depth) k).run.run w = .ok (.ok v, w') ∧
      (w'.tape A.tape).calls = max (w.tape A.tape).calls (k + 1) ∧
      (w'.tape A'.tape).calls = (w.tape A'.tape).calls) ∧
    (∀ n : Nat, A.total = n → n ≤ k → k < A.total + A'.total →
      ∃ enough, ∀ depth ≥ enough, ∃ v w',
        (d.read (.ofBehavior B depth) k).run.run w = .ok (.ok v, w') ∧
        (w'.tape A'.tape).calls = max (w.tape A'.tape).calls (k - n + 1)) := by
  have hopens : (A.sequence.append A'.sequence).run w₁ = .ok (w₁.freshSequence,
      w₁.withSequence (.joined (some (w₁.iteration A.sequence)) (.pending A'.sequence))
        ((w₁.sequence A.sequence).infinite || (w₁.sequence A'.sequence).infinite)) := rfl
  cases hopens.symm.trans happend
  have hready : (joining hne).Ready w₁.freshSequence w₁.freshTape w :=
    .of_adopt hB (Bool.forall_bool.mpr ⟨hmade.supplied hB, hmade'.supplied hB⟩)
      (hmade.ordered hB) _
      (fun huntouched => .inl ⟨_, rfl, .opened (hmade.supplied hB) (huntouched false)⟩)
      hmoves (Bool.forall_bool.mpr ⟨hclean, hclean'⟩)
  refine ⟨fun hlt => ⟨3, fun depth hdepth => ?_⟩, fun n hn hle hlt => ⟨3, fun depth hdepth => ?_⟩⟩
  · -- the left one may be asked for its value at `k`, and the right one for nothing
    have hserves : (joining hne).Serves depth k fun b => if b then 0 else k + 1 := by
      refine joining_serves hne hdepth fun j hj => ⟨fun _ => ?_, fun n asked hn hk => ?_⟩
      · simpa using hj
      · rw [hn] at hlt
        have hbelow : k < n := by exact_mod_cast hlt
        omega
    obtain ⟨v, w', hrun, hready', hdemands, hfar⟩ := hready.run_read hB hserves
    have hasked := (joining_asked hne hready'.guarded hready'.untouched hfar).1 hlt
    have hlogged := (w'.tape A.tape).log_size_le_calls
    have hcalls : (w.tape A.tape).calls ≤ (w'.tape A.tape).calls := (hdemands false).1.calls_le
    have hcalls' : (w.tape A'.tape).calls ≤ (w'.tape A'.tape).calls := (hdemands true).1.calls_le
    have hmost : (w'.tape A.tape).calls ≤ max (w.tape A.tape).calls (k + 1) := (hdemands false).2
    have hmost' : (w'.tape A'.tape).calls ≤ max (w.tape A'.tape).calls 0 := (hdemands true).2
    exact ⟨v, w', hrun, by omega, by omega⟩
  · -- one call more than the left one has values finds its end
    have hserves : (joining hne).Serves depth k fun b => if b then k - n + 1 else n + 1 := by
      refine joining_serves hne hdepth fun j hj => ⟨fun hbelow => ?_, fun m asked hm hk => ?_⟩
      · rw [hn, Nat.cast_lt] at hbelow
        simpa using hbelow.le
      · obtain rfl : n = m := by exact_mod_cast hn.symm.trans hm
        exact ⟨by simp, by simp; omega⟩
    obtain ⟨v, w', hrun, hready', hdemands, hfar⟩ := hready.run_read hB hserves
    have hasked := (joining_asked hne hready'.guarded hready'.untouched hfar).2 n hn hle hlt
    have hlogged := (w'.tape A'.tape).log_size_le_calls
    have hcalls : (w.tape A'.tape).calls ≤ (w'.tape A'.tape).calls := (hdemands true).1.calls_le
    have hmost : (w'.tape A'.tape).calls ≤ max (w.tape A'.tape).calls (k - n + 1) :=
      (hdemands true).2
    exact ⟨v, w', hrun, by omega⟩

end Owner

end MemoSeq
