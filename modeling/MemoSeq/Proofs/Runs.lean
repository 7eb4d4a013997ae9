/-
  MemoSeq/Proofs/Runs.lean
  ========================
  **What a run of an act says about the runs of its parts.**

  An act is run in a world; it comes to a halt, or it gives a result and leaves
  a world.  A run of two acts in a row splits into a run of each
  (`Act.run_bind_eq_ok`), and an attempt goes on only if its first part did not
  fail (`Attempt.run_bind_eq_ok`).  The other lemmas give the runs of the acts
  that have no parts.

  What is known of an act that may lack the means to go on (`Act.Manages`) says
  both what holds of its result and when it does come to one.
-/
import MemoSeq.Engine

namespace MemoSeq

variable {H : Host} {α β ε : Type} {w w' w'' : World H}

namespace Act

/-- A run of two acts in a row is a run of the first, then one of the second. -/
theorem run_bind_eq_ok {a : Act H α} {f : α → Act H β} {y : β} :
    (a >>= f).run w = .ok (y, w'') ↔
      ∃ x w', a.run w = .ok (x, w') ∧ (f x).run w' = .ok (y, w'') := by
  rw [StateT.run_bind]
  cases h : a.run w with
  | error halt => simp [bind, Except.bind]
  | ok p =>
    constructor
    · intro hf
      exact ⟨p.1, p.2, rfl, hf⟩
    · rintro ⟨x, w', hp, hf⟩
      cases hp
      exact hf

theorem run_bind_of_eq {a : Act H α} {f : α → Act H β} {x : α} (h : a.run w = .ok (x, w')) :
    (a >>= f).run w = (f x).run w' := by
  rw [StateT.run_bind, h]
  rfl

theorem run_bind_congr {a : Act H α} {b : Act H α} (f : α → Act H β) (h : a.run w = b.run w') :
    (a >>= f).run w = (b >>= f).run w' := by
  rw [StateT.run_bind, StateT.run_bind, h]

theorem run_map_eq_ok {a : Act H α} {f : α → β} {y : β} :
    (f <$> a).run w = .ok (y, w') ↔ ∃ x, a.run w = .ok (x, w') ∧ f x = y := by
  rw [map_eq_pure_bind, run_bind_eq_ok]
  constructor
  · rintro ⟨x, w'', ha, hf⟩
    cases hf
    exact ⟨x, ha, rfl⟩
  · rintro ⟨x, ha, rfl⟩
    exact ⟨x, w', ha, rfl⟩

@[simp] theorem run_pure_eq_ok {x y : α} :
    (pure x : Act H α).run w = .ok (y, w') ↔ y = x ∧ w' = w := by
  constructor
  · intro h
    cases h
    exact ⟨rfl, rfl⟩
  · rintro ⟨rfl, rfl⟩
    rfl

@[simp] theorem run_get_eq_ok {u : World H} :
    (get : Act H (World H)).run w = .ok (u, w') ↔ u = w ∧ w' = w := by
  constructor
  · intro h
    cases h
    exact ⟨rfl, rfl⟩
  · rintro ⟨rfl, rfl⟩
    rfl

@[simp] theorem run_modify_eq_ok {f : World H → World H} {u : Unit} :
    (modify f : Act H Unit).run w = .ok (u, w') ↔ w' = f w := by
  constructor
  · intro h
    cases h
    rfl
  · rintro rfl
    rfl

@[simp] theorem run_starve_eq_ok {x : α} : (starve : Act H α).run w = .ok (x, w') ↔ False :=
  ⟨fun h => (nomatch h), False.elim⟩

@[simp] theorem run_abort_eq_ok {x : α} : (abort : Act H α).run w = .ok (x, w') ↔ False :=
  ⟨fun h => (nomatch h), False.elim⟩

end Act

namespace Attempt

/-- A run of two attempts in a row is a run of the first that succeeds, then one of
    the second, or a run of the first that fails. -/
theorem run_bind_eq_ok {a : ExceptT ε (Act H) α} {f : α → ExceptT ε (Act H) β}
    {y : Except ε β} :
    (a >>= f).run.run w = .ok (y, w'') ↔
      (∃ x w', a.run.run w = .ok (.ok x, w') ∧ (f x).run.run w' = .ok (y, w'')) ∨
      (∃ e, a.run.run w = .ok (.error e, w'') ∧ y = .error e) := by
  rw [ExceptT.run_bind, Act.run_bind_eq_ok]
  constructor
  · rintro ⟨x, w', ha, hf⟩
    cases x with
    | ok x => exact .inl ⟨x, w', ha, hf⟩
    | error e =>
      cases hf
      exact .inr ⟨e, ha, rfl⟩
  · rintro (⟨x, w', ha, hf⟩ | ⟨e, ha, rfl⟩)
    · exact ⟨.ok x, w', ha, hf⟩
    · exact ⟨.error e, w'', ha, rfl⟩

theorem run_bind_of_ok {a : ExceptT ε (Act H) α} {f : α → ExceptT ε (Act H) β} {x : α}
    (h : a.run.run w = .ok (.ok x, w')) : (a >>= f).run.run w = (f x).run.run w' := by
  rw [ExceptT.run_bind, Act.run_bind_of_eq h]

theorem run_bind_of_halt {a : ExceptT ε (Act H) α} {f : α → ExceptT ε (Act H) β} {h : Halt}
    (ha : a.run.run w = .error h) : (a >>= f).run.run w = .error h := by
  rw [ExceptT.run_bind, StateT.run_bind, ha]
  rfl

/-- What is made of the result of an attempt, or its error, is what comes of both in a row. -/
theorem run_bind_pure_of_eq {a : ExceptT ε (Act H) α} {y : Except ε α}
    (h : a.run.run w = .ok (y, w')) (f : α → β) :
    (a >>= fun x => pure (f x)).run.run w = .ok (y.map f, w') := by
  cases y with
  | ok x => exact run_bind_of_ok h
  | error e => exact run_bind_eq_ok.mpr (.inr ⟨e, h, rfl⟩)

/-- An act at the head of an attempt is run as the act that it is. -/
theorem run_bind_lift {a : Act H α} {f : α → ExceptT ε (Act H) β} :
    ((liftM a : ExceptT ε (Act H) α) >>= f).run.run w = (a >>= fun x => (f x).run).run w := by
  change ((ExceptT.lift a : ExceptT ε (Act H) α) >>= f).run.run w = _
  rw [ExceptT.run_bind, ExceptT.run_lift, map_eq_pure_bind, bind_assoc]
  rfl

@[simp] theorem run_pure_eq_ok {x : α} {y : Except ε α} :
    (pure x : ExceptT ε (Act H) α).run.run w = .ok (y, w') ↔ y = .ok x ∧ w' = w :=
  Act.run_pure_eq_ok

@[simp] theorem run_throw_eq_ok {e : ε} {y : Except ε α} :
    (throw e : ExceptT ε (Act H) α).run.run w = .ok (y, w') ↔ y = .error e ∧ w' = w :=
  Act.run_pure_eq_ok

/-- An act cannot fail where it is a part of an attempt. -/
@[simp] theorem run_lift_eq_ok {a : Act H α} {y : Except ε α} :
    (ExceptT.lift a : ExceptT ε (Act H) α).run.run w = .ok (y, w') ↔
      ∃ x, a.run w = .ok (x, w') ∧ y = .ok x := by
  rw [ExceptT.run_lift, Act.run_map_eq_ok]
  exact exists_congr fun x => and_congr_right fun _ => eq_comm

end Attempt

/-! ### Acts that may lack the means -/

/-- The act comes to a result of which the property holds.  If something is wanting, it may
    come to a halt instead. -/
def Act.Manages (a : Act H α) (wanting : Prop) (w : World H) (Q : α → World H → Prop) : Prop :=
  (∃ x w', a.run w = .ok (x, w') ∧ Q x w') ∨ wanting ∧ ∃ h, a.run w = .error h

namespace Act.Manages

variable {a : Act H α} {wanting : Prop} {Q Q' : α → World H → Prop}

theorem of_run {x : α} (hrun : a.run w = .ok (x, w')) (hQ : Q x w') : a.Manages wanting w Q :=
  .inl ⟨x, w', hrun, hQ⟩

theorem halted {h : Halt} (hwanting : wanting) (hrun : a.run w = .error h) :
    a.Manages wanting w Q :=
  .inr ⟨hwanting, h, hrun⟩

/-- An act of which something holds whenever it comes to a result manages that, if it may
    always come to a halt. -/
theorem of_runs (h : ∀ x w', a.run w = .ok (x, w') → Q x w') : a.Manages True w Q := by
  cases hrun : a.run w with
  | ok y => exact .of_run hrun (h _ _ hrun)
  | error e => exact .halted trivial hrun

theorem congr {b : Act H α} (hsame : a.run w = b.run w') (hb : b.Manages wanting w' Q) :
    a.Manages wanting w Q := by
  unfold Manages at hb ⊢
  rwa [hsame]

theorem mono (ha : a.Manages wanting w Q) (hQ : ∀ x v, Q x v → Q' x v) :
    a.Manages wanting w Q' := by
  rcases ha with ⟨x, v, hrun, hx⟩ | hhalt
  · exact .inl ⟨x, v, hrun, hQ x v hx⟩
  · exact .inr hhalt

theorem of_imp {wanting' : Prop} (ha : a.Manages wanting w Q) (himp : wanting → wanting') :
    a.Manages wanting' w Q :=
  Or.imp_right (And.imp_left himp) ha

/-- If the act comes to a result at all, the property holds of it. -/
theorem result (ha : a.Manages wanting w Q) {x : α} (hrun : a.run w = .ok (x, w')) : Q x w' := by
  rcases ha with ⟨y, v, hrun', hy⟩ | ⟨-, h, hrun'⟩
  · cases hrun.symm.trans hrun'
    exact hy
  · cases hrun.symm.trans hrun'

/-- If nothing is wanting, it does come to a result. -/
theorem run (ha : a.Manages wanting w Q) (hmeans : ¬ wanting) :
    ∃ x w', a.run w = .ok (x, w') ∧ Q x w' :=
  ha.resolve_right fun hhalt => hmeans hhalt.1

theorem bind {f : α → Act H β} {R : β → World H → Prop} (ha : a.Manages wanting w Q)
    (hf : ∀ x v, Q x v → (f x).Manages wanting v R) : (a >>= f).Manages wanting w R := by
  rcases ha with ⟨x, v, hrun, hx⟩ | ⟨hwanting, h, hrun⟩
  · have hrest := hf x v hx
    unfold Manages at hrest ⊢
    rwa [run_bind_of_eq hrun]
  · refine .halted (h := h) hwanting ?_
    rw [StateT.run_bind, hrun]
    rfl

end Act.Manages

end MemoSeq
