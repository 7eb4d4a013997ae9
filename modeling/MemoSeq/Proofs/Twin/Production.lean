/-
  MemoSeq/Proofs/Twin/Production.lean
  ===================================
  **What producers make in twin worlds.**

  Producers that correspond make the same items and correspond afterwards
  (`Producer.next_follows`), conditions that correspond decide alike, and scripts of fixed
  items give them wherever their calls are counted.  So an engine is followed by any engine
  that goes two levels deeper (`Engine.ofBehavior_follows`).
-/
import MemoSeq.Proofs.Twin.Operations

namespace MemoSeq

open Session (behavior host Script)

variable {E E' : Engine host} {τ τ' : TwinWorlds} {s s' : Sequence}

namespace Producer

/-- A deferred iteration that corresponds. -/
abbrev Later (τ : TwinWorlds) : Deferred Sequence Iteration → Deferred Sequence Iteration → Prop :=
  Deferred.Twin τ.pairing.seen (Iteration.Twin τ.pairing)

/-- Items alike, and deferred iterations that correspond behind them. -/
abbrev Goes (τ : TwinWorlds) (x x' : Option Item × Deferred Sequence Iteration) : Prop :=
  Option.Rel (Item.Twin τ.pairing) x.1 x'.1 ∧ Later τ x.2 x'.2

section Iterations

variable (hE : E.Follows E')
include hE

theorem search_follows {c c' : host.Test} (hc : Condition.Twin τ.pairing c c')
    {rounds rounds' : Nat} (hrounds : rounds ≤ rounds') {i i' : Iteration}
    (hi : i.Twin τ.pairing i') :
    Act.Follows τ (search E c rounds i) (search E' c' rounds' i') Goes := by
  induction rounds generalizing τ rounds' i i' with
  | zero => exact .starve
  | succ rounds ih =>
    obtain ⟨rounds', rfl⟩ := Nat.exists_eq_succ_of_ne_zero (Nat.ne_zero_of_lt hrounds)
    refine (Iteration.next_follows hE hi).bind fun τ₁ x x' hτ₁ hx => ?_
    obtain ⟨x, i⟩ := x
    obtain ⟨x', i'⟩ := x'
    obtain ⟨hitem, hi⟩ := hx
    cases hitem with
    | none => exact .pure ⟨.none, .finished⟩
    | some hitem =>
      cases hitem with
      | error e => exact .pure ⟨.some (.error e), .opened hi⟩
      | ok hv =>
        have hc₁ := hc.mono hτ₁
        refine Act.Follows.bind (hE.test hc₁ hv) fun τ₂ y y' hτ₂ hy => ?_
        cases hy with
        | error e => exact .pure ⟨.some (.error e), .opened (hi.mono hτ₂)⟩
        | @ok b b' hb =>
          obtain rfl := hb
          cases b' with
          | true => exact .pure ⟨.some (.ok (hv.mono hτ₂)), .opened (hi.mono hτ₂)⟩
          | false => exact ih (hc₁.mono hτ₂) (Nat.le_of_succ_le_succ hrounds) (hi.mono hτ₂)

theorem along_follows {i i' : Iteration} (hi : i.Twin τ.pairing i') :
    Act.Follows τ (nextDeferred.along E i) (nextDeferred.along E' i') Goes := by
  refine (Iteration.next_follows hE hi).bind fun τ₁ x x' _ hx => ?_
  obtain ⟨x, i⟩ := x
  obtain ⟨x', i'⟩ := x'
  obtain ⟨hitem, hi⟩ := hx
  cases hitem with
  | none => exact .pure ⟨.none, .finished⟩
  | some hitem => exact .pure ⟨.some hitem, .opened hi⟩

theorem nextDeferred_follows {d d' : Deferred Sequence Iteration} (hd : Later τ d d') :
    Act.Follows τ (nextDeferred E d) (nextDeferred E' d') Goes := by
  cases hd with
  | pending hs => exact .get_bind (along_follows hE (τ.twin.iteration hs))
  | opened hi => exact along_follows hE hi
  | finished => exact .pure ⟨.none, .finished⟩

end Iterations

/-- Items alike, and producers that correspond behind them. -/
abbrev Makes (τ : TwinWorlds) (x x' : Option Item × Producer host) : Prop :=
  Option.Rel (Item.Twin τ.pairing) x.1 x'.1 ∧ x.2.Twin τ.pairing x'.2

/-- The outcome of an attempt to make one value is the item. -/
theorem outcome_follows {a a' : Attempt host Value} {p p' : Producer host}
    (ha : Attempt.Follows τ a a' fun τ' v v' => v.Twin τ'.pairing v')
    (hp : p.Twin τ.pairing p') :
    Act.Follows τ (do return (some (← a.outcome), p)) (do return (some (← a'.outcome), p')) Makes :=
  Act.Follows.bind ha fun _ _ _ hτ hx => .pure ⟨.some hx, hp.mono hτ⟩

theorem nextValue_follows (start step : Int) {vs vs' : List Value}
    (hvs : Values.Twin τ.pairing vs vs') :
    Makes τ ((nextValue vs).1, .strided start step (nextValue vs).2)
      ((nextValue vs').1, .strided start step (nextValue vs').2) := by
  cases hvs with
  | nil => exact ⟨.none, .strided start step .finished⟩
  | cons hv hvs => exact ⟨.some (.ok hv), .strided start step (.opened hvs)⟩

theorem next_follows (hE : E.Follows E') {p p' : Producer host} (hp : p.Twin τ.pairing p') :
    Act.Follows τ (p.next E) (p'.next E') Makes := by
  cases hp with
  | container hxs =>
    cases hxs with
    | nil => exact .pure ⟨.none, .container .nil⟩
    | cons hx hxs => exact outcome_follows (canonicalize_follows hx) (.container hxs)
  | values hvs =>
    cases hvs with
    | nil => exact .pure ⟨.none, .values .nil⟩
    | cons hv hvs => exact .pure ⟨.some (.ok hv), .values hvs⟩
  | documents ds =>
    cases ds with
    | nil => exact .pure ⟨.none, .documents []⟩
    | cons d ds => exact outcome_follows d.canonicalize_follows (.documents ds)
  | reader hr =>
    exact (Reader.next_follows hE hr).bind fun _ _ _ _ hx => .pure ⟨hx.1, .reader hx.2.1⟩
  | filtered hc hd =>
    cases hd with
    | pending hs =>
      refine .get_bind ?_
      exact (search_follows hE hc hE.fuel (τ.twin.iteration hs)).bind fun _ _ _ hτ hx =>
        .pure ⟨hx.1, .filtered (hc.mono hτ) hx.2⟩
    | opened hi =>
      exact (search_follows hE hc hE.fuel hi).bind fun _ _ _ hτ hx =>
        .pure ⟨hx.1, .filtered (hc.mono hτ) hx.2⟩
    | finished => exact .pure ⟨.none, .filtered hc .finished⟩
  | joined hleft hright =>
    cases hleft with
    | none =>
      exact (nextDeferred_follows hE hright).bind fun _ _ _ _ hx => .pure ⟨hx.1, .joined .none hx.2⟩
    | some hi =>
      refine (Iteration.next_follows hE hi).bind fun τ₁ x x' hτ₁ hx => ?_
      -- the right side is opened only when the left one is through, in the world of then
      have hlater : Later τ₁ _ _ := hright.imp (fun _ _ => hτ₁.seen) fun _ _ h => h.mono hτ₁
      obtain ⟨x, i⟩ := x
      obtain ⟨x', i'⟩ := x'
      obtain ⟨hitem, hi⟩ := hx
      cases hitem with
      | none =>
        exact (nextDeferred_follows hE hlater).bind fun _ _ _ _ hx =>
          .pure ⟨hx.1, .joined .none hx.2⟩
      | some hitem => exact .pure ⟨.some hitem, .joined (.some hi) hlater⟩
  | strided start step hd =>
    cases hd with
    | pending hs =>
      -- materializing may fail in one world exactly when it fails in the other
      refine Act.Follows.bind (Sequence.materialize_follows hE hs) fun τ₁ x x' _ hx => ?_
      cases hx with
      | error e => exact .pure ⟨.some (.error e), .strided start step .finished⟩
      | ok hvs => exact .pure (nextValue_follows start step (stride_twin hvs start step))
    | opened hvs => exact .pure (nextValue_follows start step hvs)
    | finished => exact .pure ⟨.none, .strided start step .finished⟩

end Producer

/-! ### Conditions and scripts -/

namespace Session

theorem Condition.test_follows (hE : E.Follows E') {c c' : host.Test} {v v' : Value}
    (hc : MemoSeq.Condition.Twin τ.pairing c c') (hv : v.Twin τ.pairing v') :
    Attempt.Follows τ (Condition.test E c v) (Condition.test E' c' v') fun _ b b' => b' = b := by
  cases hc with
  | all | none => exact .pure rfl
  | equalTo hu => exact .lift (Value.same_follows hE hv hu)
  | unequalTo hu =>
    exact (Attempt.Follows.lift (Value.same_follows hE hv hu)).bind fun _ _ _ _ hb =>
      .pure (congrArg _ hb)
  | below hu => exact .pure (hv.less hu)
  | atMost hu => exact .pure (hv.atMost hu)
  | above hu => exact .pure (hv.greater hu)
  | atLeast hu => exact .pure (hv.atLeast hu)
  | number => exact .pure hv.isNumber
  | even =>
    cases hv with
    | scalar hscalar =>
      cases v with
      | int | rational | str => exact .pure rfl
      | list => cases hscalar
    | list => exact .pure rfl
  | kind name => exact .pure (by rw [hv.kind])
  | failsOn message hu =>
    refine (Attempt.Follows.lift (Value.same_follows hE hv hu)).bind fun _ b b' _ hb => ?_
    obtain rfl := hb
    cases b' with
    | true =>
      exact (Attempt.Follows.throw (Q := fun _ _ _ => True) _).bind fun _ _ _ _ _ => .pure rfl
    | false => exact .pure rfl

/-- Some calls of the script have been made already. -/
theorem Supply.Gives.later {supply : Supply Entry} {calls : Nat} {items : Nat → Option Value}
    (h : supply.Gives calls items) (made : Nat) :
    supply.Gives (calls + made) fun k => items (made + k) := by
  intro k
  have hk := h (made + k)
  rwa [← Nat.add_assoc] at hk

theorem Script.pull_follows {script script' : Script} (h : script.Twin script') :
    Act.Follows τ (Script.pull E script) (Script.pull E' script') fun _ x x' => x.2.Twin x'.2 := by
  obtain ⟨supply, calls, counter⟩ := script
  obtain ⟨supply', calls', counter'⟩ := script'
  obtain ⟨hsupply, hcalls, items, hgives⟩ := h
  dsimp only at hsupply hcalls hgives
  subst hsupply hcalls
  obtain ⟨y, hrun, -⟩ := Script.run_pull_of_gives hgives counter 0 E τ.first
  obtain ⟨y', hrun', -⟩ := Script.run_pull_of_gives hgives counter' 0 E' τ.second
  have hcounted (d : Desk) (counter : Option Nat) : (d.countCall counter).SameNames d := by
    cases counter <;> exact ⟨rfl, rfl, rfl⟩
  have htwin := τ.twin.host (τ.twin.desk.of_sameNames (hcounted _ counter) (hcounted _ counter'))
  have hleaves : World.Leaves τ.pairing τ.first _ := .host _ ((hcounted _ counter).leaves _)
  intro x w hx
  cases hrun.symm.trans hx
  exact ⟨⟨_, _, _, htwin⟩, _, rfl, hrun', .refl _,
    .of_pairing hleaves, rfl, rfl, _, hgives.later 1⟩

end Session

/-- An engine that goes two levels deeper follows. -/
theorem Engine.ofBehavior_follows {depth depth' : Nat} (hdepth : depth + 2 ≤ depth') :
    Engine.Follows (.ofBehavior behavior depth) (.ofBehavior behavior depth') := by
  induction depth generalizing depth' with
  | zero =>
    exact ⟨⟨0, rfl⟩, ⟨depth', rfl, hdepth⟩, Nat.zero_le _, fun _ => .starve,
      fun _ _ => .starve, fun _ => .starve⟩
  | succ depth ih =>
    obtain ⟨depth', rfl⟩ := Nat.exists_eq_succ_of_ne_zero (Nat.ne_zero_of_lt hdepth)
    have hbelow := ih (Nat.le_of_succ_le_succ hdepth)
    exact {
      depth := ⟨depth + 1, rfl⟩
      depth' := ⟨depth' + 1, rfl, by omega⟩
      fuel := show depth ≤ depth' by omega
      pull := fun hs => Session.Script.pull_follows hs
      test := fun hc hv => Session.Condition.test_follows hbelow hc hv
      next := fun hp => Producer.next_follows hbelow hp }

end MemoSeq
