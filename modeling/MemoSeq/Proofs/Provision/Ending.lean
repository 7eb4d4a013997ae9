/-
  MemoSeq/Proofs/Provision/Ending.lean
  ====================================
  **Productions that come to an end.**

  A producer comes to its end (`Producer.Comes`) when it gives so many values, of each of
  which something may be known, and then ends or fails, in whatever worlds it is driven.
  What it gives may depend on the world: a nested container becomes a new sequence
  wherever it is reached.  Put on a tape, such a producer makes a provision
  (`Provision.ending`).

  Containers and host iterators come to their ends by themselves, in all worlds; those
  that are made of other sequences do in worlds that are as they rely on.
-/
import MemoSeq.Proofs.Provision.Basic
import MemoSeq.Production

namespace MemoSeq

variable {H : Host} {B : Behavior H} {I : World H → Prop} {h m n depth : Nat}
variable {failure : Option Error} {known : List (Value → Prop)}

/-! ### Making external values canonical -/

namespace External

variable {ι : Type}

/-- Why an external value has no canonical form. -/
def failure? : External ι → Option Error
  | .float x => if x.isFinite then none else some (.nonFinite x)
  | .symbolic s =>
    match s.canonical with
    | .ok _ => none
    | .error e => some e
  | _ => none

/-- What is known of the canonical form of an external value: a number or a text is a
    certain one, a container or an iterator is some list. -/
def Becomes (x : External ι) (v : Value) : Prop :=
  match x with
  | .int n => v = .int n
  | .rational r => v = .ofRat r
  | .float x => x.canonical = .ok v
  | .str text => v = .str text
  | .value u => v = u
  | .symbolic s => s.canonical = .ok v
  | .items _ | .iterator _ => v.asList?.isSome = true

end External

/-- Making a value canonical spares all that is there. -/
theorem run_canonicalize (x : External H.Source) (w : World H) :
    ∃ y w', (canonicalize x).run.run w = .ok (y, w') ∧
      w.Spares (fun _ => True) (fun _ => True) w' ∧
      match x.failure? with
      | some e => y = .error e
      | none => ∃ v, y = .ok v ∧ x.Becomes v := by
  cases x with
  | int n => exact ⟨_, w, rfl, .refl w, _, rfl, rfl⟩
  | rational r => exact ⟨_, w, rfl, .refl w, _, rfl, rfl⟩
  | str text => exact ⟨_, w, rfl, .refl w, _, rfl, rfl⟩
  | value v => exact ⟨_, w, rfl, .refl w, _, rfl, rfl⟩
  | items items => exact ⟨_, _, rfl, .withSequence w _ _, _, rfl, rfl⟩
  | iterator source => exact ⟨_, _, rfl, .withSequence w _ _, _, rfl, rfl⟩
  | float x =>
    refine ⟨x.canonical, w, rfl, .refl w, ?_⟩
    cases hx : x.isFinite with
    | true => simp [External.failure?, External.Becomes, Binary.canonical, hx]
    | false => simp [External.failure?, Binary.canonical, hx]
  | symbolic s =>
    refine ⟨s.canonical, w, rfl, .refl w, ?_⟩
    cases hs : s.canonical with
    | error e => simp [External.failure?, hs]
    | ok v => simp [External.failure?, External.Becomes, hs]

/-! ### Producers that come to their ends -/

theorem Engine.next_ofBehavior (B : Behavior H) (depth : Nat) (p : Producer H) :
    (Engine.ofBehavior B (depth + 1)).next p = p.next (.ofBehavior B depth) := rfl

/-- In whatever world that extends this one and is as the producer relies on, driven by
    whatever engine that reaches down far enough, it gives one value after the other,
    each with what is known of it, and then ends or fails.  It spares the tapes from
    number `m` and the sequences from number `n` on. -/
def Producer.Comes (B : Behavior H) (h : Nat) (I : World H → Prop) (m n : Nat)
    (failure : Option Error) : List (Value → Prop) → Producer H → World H → Prop
  | [], p, w => ∀ v, I v → w.Continues v → ∀ depth, h ≤ depth → ∃ p' v',
      (Engine.next (.ofBehavior B depth) p).run v = .ok ((failure.map .error, p'), v') ∧
        I v' ∧ v.Spares (m ≤ ·) (n ≤ ·) v'
  | A :: known, p, w => ∀ v, I v → w.Continues v → ∀ depth, h ≤ depth → ∃ a p' v',
      (Engine.next (.ofBehavior B depth) p).run v = .ok ((some (.ok a), p'), v') ∧
        A a ∧ I v' ∧ v.Spares (m ≤ ·) (n ≤ ·) v' ∧ p'.Comes B h I m n failure known v'

theorem Producer.Comes.mono {p : Producer H} {w w' : World H}
    (hp : p.Comes B h I m n failure known w) (hw : w.Continues w') :
    p.Comes B h I m n failure known w' := by
  cases known with
  | nil => exact fun v hv hlater => hp v hv (hw.trans hlater)
  | cons A known => exact fun v hv hlater => hp v hv (hw.trans hlater)

/-- What is relied upon is not touched by what is done to later tapes and sequences. -/
def World.Lasts (I : World H → Prop) (m n : Nat) : Prop :=
  ∀ ⦃w w' : World H⦄, I w → w.Spares (· < m) (· < n) w' → I w'

namespace Provision

/-- What comes of a producer that comes to its end. -/
def ending (B : Behavior H) (h : Nat) (I : World H → Prop) (m n : Nat)
    (failure : Option Error) (known : List (Value → Prop)) : Provision H where
  allows k x :=
    match known[k]? with
    | some A => ∃ a, x = some (.ok a) ∧ A a
    | none => x = if k = known.length then failure.map .error else none
  relies := I
  fits k p w := k ≤ known.length ∧ p.Comes B h I m n failure (known.drop k) w

theorem ending_valid (hI : World.Lasts I m n) (hdepth : h ≤ depth) :
    (ending B h I m n failure known).Valid (.ofBehavior B depth) m n where
  ended {k x} hx hvalue := by
    simp only [ending] at hx ⊢
    cases hk : known[k]? with
    | some A =>
      simp only [hk] at hx
      obtain ⟨a, rfl, -⟩ := hx
      exact (hvalue a rfl).elim
    | none =>
      have hle : known.length ≤ k := by simpa using hk
      simp [List.getElem?_eq_none (Nat.le_succ_of_le hle), Nat.ne_of_gt (Nat.lt_succ_of_le hle)]
  relies_mono := fun hw hspares => hI hw hspares
  fits_mono := fun hp hw => ⟨hp.1, hp.2.mono hw⟩
  next {k p w} hw hp := by
    obtain ⟨hle, hp⟩ := hp
    rcases Nat.lt_or_eq_of_le hle with hlt | rfl
    · rw [List.drop_eq_getElem_cons hlt] at hp
      obtain ⟨a, p', w', hrun, ha, hw', hspares, hp'⟩ := hp w hw (.refl w) depth hdepth
      refine ⟨_, p', w', hrun, ?_, hw', hspares, fun _ _ => ⟨hlt, hp'⟩⟩
      simp only [ending, List.getElem?_eq_getElem hlt]
      exact ⟨a, rfl, ha⟩
    · rw [List.drop_length] at hp
      obtain ⟨p', w', hrun, hw', hspares⟩ := hp w hw (.refl w) depth hdepth
      refine ⟨_, p', w', hrun, ?_, hw', hspares, ?_⟩
      · simp [ending]
      · intro v hv
        cases failure <;> simp at hv

/-- A sequence made over a fit producer is supplied. -/
theorem supplies_withSequence {P : Provision H} {E : Engine H} {w : World H} {p : Producer H}
    (hP : P.Valid E w.freshTape.id w.freshSequence.id) (hw : P.relies w) (hp : P.fits 0 p w)
    (infinite : Bool) :
    P.Supplies w.freshSequence w.freshTape (w.withSequence p infinite) where
  tape_lt := by simp [World.freshTape]
  sequence_lt := by simp [World.freshSequence]
  sound i e hi := by simp at hi
  relies := hP.relies_mono hw (.withSequence w p infinite)
  logged k x hk := by simp at hk
  phase := by
    have hfits := hP.fits_mono hp (.withSequence w p infinite)
    simpa using hfits
  mirrors := by
    simp only [World.sequence_withSequence_freshSequence, World.tape_withSequence,
      World.tape_withTape_freshTape]
    exact ⟨⟨by simp, by simp⟩, by simp, by simp, by simp⟩
  busy := by simp

end Provision

/-! ### Containers and host iterators -/

/-- What comes of external values that are made canonical one by one: what is known of
    each value, up to the first that has no canonical form, or to the end and what is
    raised there. -/
def External.production {ι : Type} (raised : Option Error) :
    List (External ι) → List (Value → Prop) × Option Error
  | [] => ([], raised)
  | x :: xs =>
    match x.failure? with
    | some e => ([], some e)
    | none => (x.Becomes :: (production raised xs).1, (production raised xs).2)

namespace Producer

variable (hI : World.Lasts I m n)
include hI

theorem comes_container (items : List (External H.Source)) (w : World H) :
    (Producer.container items).Comes B 1 I m n (External.production none items).2
      (External.production none items).1 w := by
  induction items generalizing w with
  | nil =>
    simp only [External.production]
    intro v hv _ depth hdepth
    obtain ⟨depth, rfl⟩ := Nat.exists_eq_add_of_le' hdepth
    exact ⟨.container [], v, rfl, hv, .refl v⟩
  | cons x items ih =>
    cases hx : x.failure? with
    | some e =>
      simp only [External.production, hx]
      intro v hv _ depth hdepth
      obtain ⟨depth, rfl⟩ := Nat.exists_eq_add_of_le' hdepth
      obtain ⟨y, v', hrun, hspares, hy⟩ := run_canonicalize x v
      simp only [hx] at hy
      subst hy
      exact ⟨_, v', Act.run_bind_of_eq hrun, hI hv (hspares.mono (by simp) (by simp)),
        hspares.mono (by simp) (by simp)⟩
    | none =>
      simp only [External.production, hx]
      intro v hv _ depth hdepth
      obtain ⟨depth, rfl⟩ := Nat.exists_eq_add_of_le' hdepth
      obtain ⟨y, v', hrun, hspares, hy⟩ := run_canonicalize x v
      simp only [hx] at hy
      obtain ⟨a, rfl, ha⟩ := hy
      exact ⟨a, _, v', Act.run_bind_of_eq hrun, ha, hI hv (hspares.mono (by simp) (by simp)),
        hspares.mono (by simp) (by simp), ih v'⟩

end Producer

end MemoSeq
