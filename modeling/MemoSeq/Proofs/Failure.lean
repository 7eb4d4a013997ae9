/-
  MemoSeq/Proofs/Failure.lean
  ===========================
  **All views of a failing sequence agree.**

  A sequence is used in any order: its own operations, and iterations that are opened at
  any time and go on at any time.  When its production gives some values and then fails,
  everything that is done returns, each iteration gives what it found cached, then the
  produced values behind that, then the failure once and nothing ever after, and each
  operation that would go past the values fails with that same failure.

  The theorem is about every producer that comes to such an end, whatever causes it: the
  host's iterator raises it, a value has no canonical form, the test of a filter fails, or
  a slice without a stop cannot be opened (`MemoSeq.Proofs.Provision.Derived`).
-/
import Mathlib.Data.List.Forall2
import MemoSeq.Proofs.Forcing
import MemoSeq.Proofs.Provision.Derived
import MemoSeq.Proofs.Provision.Failing
import MemoSeq.Proofs.Requests
import MemoSeq.Proofs.Session.Lawful

namespace MemoSeq

variable {H : Host}

/-! ### Using a sequence -/

namespace Sequence

/-- All requests but a search for a list, which would have to be forced itself. -/
def Request.OfItself : Request H → Prop
  | .contains target => target.asList? = none
  | _ => True

/-- An iteration in use: what it found cached, where it is, and what it has given. -/
structure Opened where
  found : List Value
  iteration : Iteration
  given : List (Option Item)

inductive Doing (H : Host) where
  | ask (request : Request H) (ofItself : request.OfItself)
  | iterate
  /-- Asks one of the iterations for its next item. -/
  | next (number : Nat)

def Doing.perform (E : Engine H) (s : Sequence) (opened : List Opened) :
    Doing H → Act H (List Opened)
  | .ask request _ => do
    let _ ← (request.act E s).outcome
    return opened
  | .iterate => do
    let w ← get
    return opened ++ [⟨(w.sequence s).cache.toList, w.iteration s, []⟩]
  | .next number =>
    match opened[number]? with
    | none => return opened
    | some o => do
      let (x, iteration) ← o.iteration.next E
      return opened.set number ⟨o.found, iteration, o.given ++ [x]⟩

def performAll (E : Engine H) (s : Sequence) (doings : List (Doing H)) : Act H (List Opened) :=
  doings.foldlM (Doing.perform E s) []

end Sequence

/-! ### Everything returns -/

namespace Provision

variable {P : Provision H} {E : Engine H} {s : Sequence} {t : Tape} {w w' w'' : World H}
variable {k : Nat} {e : Error} {α β : Type}

/-- Whatever has been done, the sequence is supplied as before. -/
structure Keeps (P : Provision H) (s : Sequence) (t : Tape) (w w' : World H) : Prop where
  supplies : P.Supplies s t w'
  continues : w.Continues w'

/-- An attempt comes to an outcome and leaves the sequence supplied. -/
def Returns (P : Provision H) (s : Sequence) (t : Tape) (w : World H) (a : Attempt H α) : Prop :=
  ∃ y w', a.run.run w = .ok (y, w') ∧ P.Keeps s t w w'

theorem Keeps.refl (h : P.Supplies s t w) : P.Keeps s t w w := ⟨h, .refl w⟩

theorem Keeps.trans (h : P.Keeps s t w w') (h' : P.Keeps s t w' w'') : P.Keeps s t w w'' :=
  ⟨h'.supplies, h.continues.trans h'.continues⟩

theorem Forced.keeps (h : P.Forced s t w w') : P.Keeps s t w w' := ⟨h.supplies, h.spares.continues⟩

theorem Refuses.returns {a : Attempt H α} (h : P.Refuses s t e w a) : P.Returns s t w a := by
  obtain ⟨w', hrun, hforced⟩ := h
  exact ⟨.error e, w', hrun, hforced.keeps⟩

namespace Returns

theorem pure (h : P.Supplies s t w) (x : α) : P.Returns s t w (pure x : Attempt H α) :=
  ⟨.ok x, w, rfl, .refl h⟩

theorem throw (h : P.Supplies s t w) (e : Error) : P.Returns s t w (throw e : Attempt H α) :=
  ⟨.error e, w, rfl, .refl h⟩

theorem bind {a : Attempt H α} {f : α → Attempt H β} (ha : P.Returns s t w a)
    (hf : ∀ x w', P.Keeps s t w w' → P.Returns s t w' (f x)) : P.Returns s t w (a >>= f) := by
  obtain ⟨y, w', hrun, hkeeps⟩ := ha
  cases y with
  | error e => exact ⟨.error e, w', Attempt.run_bind_eq_ok.mpr (.inr ⟨e, hrun, rfl⟩), hkeeps⟩
  | ok x =>
    obtain ⟨y, w'', hrest, hkeeps'⟩ := hf x w' hkeeps
    exact ⟨y, w'', (Attempt.run_bind_of_ok hrun).trans hrest, hkeeps.trans hkeeps'⟩

theorem of_run {a : Attempt H α} {f : α → Attempt H β} {x : α}
    (hrun : a.run.run w = .ok (.ok x, w')) (hkeeps : P.Keeps s t w w')
    (h : P.Returns s t w' (f x)) : P.Returns s t w (a >>= f) := by
  obtain ⟨y, w'', hrest, hkeeps'⟩ := h
  exact ⟨y, w'', (Attempt.run_bind_of_ok hrun).trans hrest, hkeeps.trans hkeeps'⟩

/-- What comes of it is told. -/
theorem told {a : Attempt H α} (h : P.Returns s t w a) (f : α → β) :
    P.Returns s t w (a >>= fun x => Pure.pure (f x)) :=
  h.bind fun _ _ hkeeps => .pure hkeeps.supplies _

theorem get_bind {f : World H → Attempt H β} (h : P.Returns s t w (f w)) :
    P.Returns s t w (get >>= f) := by
  obtain ⟨y, w', hrun, hkeeps⟩ := h
  exact ⟨y, w', (Attempt.run_bind_of_ok (a := get) rfl).trans hrun, hkeeps⟩

theorem lift {a : Act H α} {x : α} (hrun : a.run w = .ok (x, w')) (h : P.Keeps s t w w') :
    P.Returns s t w (ExceptT.lift a : Attempt H α) :=
  ⟨.ok x, w', Attempt.run_lift_eq_ok.mpr ⟨x, hrun, rfl⟩, h⟩

end Returns

section Operations

variable (hP : P.Valid E t.id s.id)
include hP

theorem Keeps.of_spares (h : P.Supplies s t w)
    (hspares : w.Spares (fun _ => True) (fun _ => True) w') : P.Keeps s t w w' where
  supplies := h.of_spares hP (hspares.mono (by simp) (by simp))
    (hP.relies_mono h.relies (hspares.mono (by simp) (by simp)))
  continues := hspares.continues

theorem Keeps.withSequence (h : P.Supplies s t w) (p : Producer H) (infinite : Bool) :
    P.Keeps s t w (w.withSequence p infinite) :=
  .of_spares hP h (.withSequence w p infinite)

theorem Supplies.returns_advance (h : P.Supplies s t w) : P.Returns s t w (s.advance E) := by
  obtain ⟨x, w', hrun, -, -, hsupplies, hspares, -⟩ := h.run_advance hP
  exact ⟨_, w', hrun, hsupplies, hspares.continues⟩

theorem Supplies.returns_produce (count : Nat) (h : P.Supplies s t w) :
    P.Returns s t w (s.produce E count) := by
  induction count generalizing w with
  | zero => exact .pure h true
  | succ count ih =>
    refine (h.returns_advance hP).bind fun x w' hkeeps => ?_
    cases x with
    | none => exact .pure hkeeps.supplies false
    | some v => exact ih hkeeps.supplies

theorem Supplies.returns_overwriting (h : P.Supplies s t w) (position : Nat) (v : Value) :
    P.Returns s t w (modify (·.overwrite s position v) : Attempt H Unit) := by
  refine ⟨.ok (), w.overwrite s position v, rfl, h.overwrite hP position v, ?_⟩
  exact .updateSequence w s id _

variable (hF : P.FailsAt k e) (hfuel : k < E.fuel)
include hF hfuel

theorem Supplies.returns_materialize (h : P.Supplies s t w) (hlimit : w.limit = none) :
    P.Returns s t w (s.materialize E) :=
  (h.refuses_materialize hP hF hlimit hfuel).returns

theorem Supplies.returns_read (h : P.Supplies s t w) (hlimit : w.limit = none) (index : Int) :
    P.Returns s t w (s.read E index) := by
  rw [Sequence.read]
  split
  · exact (h.returns_materialize hP hF hfuel hlimit).bind fun _ _ hkeeps =>
      .pure hkeeps.supplies _
  · exact (h.returns_produce hP _).bind fun _ _ hkeeps => .get_bind (.pure hkeeps.supplies _)

theorem Supplies.returns_overwrite (h : P.Supplies s t w) (hlimit : w.limit = none) (index : Int)
    (x : External H.Source) : P.Returns s t w (s.overwrite E index x) := by
  obtain ⟨y, u, hrun, hspares, -⟩ := run_canonicalize x w
  refine Returns.bind ⟨y, u, hrun, .of_spares hP h hspares⟩ fun v w' hkeeps => ?_
  have hnone : w'.limit = none := hkeeps.continues.limit.trans hlimit
  split
  · refine ((hkeeps.supplies.returns_materialize hP hF hfuel hnone).bind
      fun values _ hlater => .pure hlater.supplies values.size).bind fun length v' hlater => ?_
    split
    · exact (Returns.throw hlater.supplies _).bind fun _ _ hthrown =>
        hthrown.supplies.returns_overwriting hP _ v
    · exact hlater.supplies.returns_overwriting hP _ v
  · refine (hkeeps.supplies.returns_produce hP _).bind fun found v' hlater => ?_
    cases found with
    | true => exact hlater.supplies.returns_overwriting hP _ v
    | false => exact .get_bind (.throw hlater.supplies _)

theorem Supplies.returns_readRange (step : Int) (count : Nat) (index : Int) (read : Array Value)
    (h : P.Supplies s t w) (hlimit : w.limit = none) :
    P.Returns s t w (s.readRange E step count index read) := by
  induction count generalizing w index read with
  | zero => exact .pure h _
  | succ count ih =>
    refine (h.returns_read hP hF hfuel hlimit index).bind fun v w' hkeeps => ?_
    exact ih _ _ hkeeps.supplies (hkeeps.continues.limit.trans hlimit)

theorem Supplies.returns_slice (h : P.Supplies s t w) (hlimit : w.limit = none)
    (start stop step : Option Int) : P.Returns s t w (s.slice E start stop step) := by
  cases stop with
  | none =>
    exact (Returns.lift rfl (.withSequence hP h _ _)).bind fun _ _ hkeeps => .pure hkeeps.supplies _
  | some stop =>
    have items (step : Int) (count : Nat) (index : Int) {v : World H} (hv : P.Supplies s t v)
        (hnone : v.limit = none) :
        P.Returns s t v (do return Slice.items (← s.readRange E step count index #[])) :=
      (hv.returns_readRange hP hF hfuel step count index #[] hnone).bind fun _ _ hkeeps =>
        .pure hkeeps.supplies _
    unfold Sequence.slice
    dsimp only
    split
    · refine ((h.returns_materialize hP hF hfuel hlimit).bind fun values _ hlater =>
        .pure hlater.supplies values.size).bind fun length v hkeeps => ?_
      exact (Returns.pure hkeeps.supplies _).bind fun _ _ hlater =>
        items _ _ _ hlater.supplies
          (((hkeeps.trans hlater).continues.limit).trans hlimit)
    · exact (Returns.pure h _).bind fun _ _ hkeeps =>
        items _ _ _ hkeeps.supplies (hkeeps.continues.limit.trans hlimit)

/-- A search along an iteration comes upon the value or upon the failure. -/
theorem Supplies.returns_scan {target : Value} (hscalar : target.asList? = none) (rounds : Nat)
    {found : List Value} {asked : Nat} {i : Iteration} (h : P.Supplies s t w)
    (hi : i.Follows t w found asked) (hfound : found.length ≤ k) (hasked : asked ≤ k)
    (hrounds : k < asked + rounds) : P.Returns s t w (Sequence.scan E target rounds i) := by
  induction rounds generalizing w i asked with
  | zero => omega
  | succ rounds ih =>
    obtain ⟨x, i', w', hrun, hi', hx, hnone, hstocks, hspares⟩ := hi.run_next hP h.toStocks
    have hkeeps : P.Keeps s t w w' := ⟨h.of_read hstocks hspares, hspares.continues⟩
    refine Returns.of_run (Attempt.run_lift_eq_ok.mpr ⟨_, hrun, rfl⟩) hkeeps ?_
    match x with
    | none => exact .pure hkeeps.supplies false
    | some (.error e') => exact .throw hkeeps.supplies e'
    | some (.ok v) =>
      dsimp only
      have hlt : asked < k := by
        refine Nat.lt_of_le_of_ne hasked ?_
        rintro rfl
        rw [TapeState.behind, List.getElem?_eq_none hfound, Option.map_none, Option.none_or] at hx
        cases hF.failure (hkeeps.supplies.logged _ _ hx.symm)
      have hsame : (v.same E target).run w' = .ok (v.sameScalar target, w') := by
        rw [Value.same_eq (.inr hscalar)]
        rfl
      refine Returns.of_run (Attempt.run_lift_eq_ok.mpr ⟨_, hsame, rfl⟩) (.refl hkeeps.supplies) ?_
      split
      · exact .pure hkeeps.supplies true
      · exact ih hkeeps.supplies hi' hlt (by omega)

omit hfuel in
theorem Supplies.returns_climb {target : Value} (hscalar : target.asList? = none) (rounds : Nat)
    (last : Value) (h : P.Supplies s t w) (hrounds : k < (w.sequence s).cache.size + rounds) :
    P.Returns s t w (s.climb E target rounds last) := by
  induction rounds generalizing w last with
  | zero =>
    have hle := hF.cache_size_le h
    omega
  | succ rounds ih =>
    unfold Sequence.climb
    split
    case isFalse => exact .pure h false
    case isTrue =>
      rcases Nat.lt_or_eq_of_le (hF.cache_size_le h) with hbefore | heq
      · obtain ⟨v, u, hrun, hforced, hsize⟩ := h.run_advance_of_lt hP hF hbefore
        refine Returns.of_run hrun hforced.keeps ?_
        have hsame : (v.same E target).run u = .ok (v.sameScalar target, u) := by
          rw [Value.same_eq (.inr hscalar)]
          rfl
        refine Returns.of_run (Attempt.run_lift_eq_ok.mpr ⟨_, hsame, rfl⟩)
          (.refl hforced.supplies) ?_
        split
        · exact .pure hforced.supplies true
        · exact ih v hforced.supplies (by omega)
      · exact ((h.refuses_advance hP hF heq).bind _).returns

theorem Supplies.returns_contains {target : Value} (hscalar : target.asList? = none)
    (h : P.Supplies s t w) : P.Returns s t w (s.contains E target) := by
  refine .get_bind ?_
  dsimp only
  split
  · refine (Returns.lift (Sequence.run_anySame fun _ _ => .inr hscalar) (.refl h)).bind
      fun found w' hkeeps => ?_
    split
    · exact .pure hkeeps.supplies true
    · exact hkeeps.supplies.returns_climb hP hF hscalar _ _ (by omega)
  · exact h.returns_scan hP hF hfuel hscalar _ (.opened h) (hF.cache_size_le h) (Nat.zero_le k)
      (by omega)

theorem Supplies.refuses_flatten (h : P.Supplies s t w) (hlimit : w.limit = none) :
    P.Refuses s t e w (Value.flatten E (.list s)) := by
  obtain ⟨rounds, hrounds⟩ := Nat.exists_eq_add_of_lt hfuel
  rw [Value.flatten, hrounds]
  exact (h.refuses_materialize hP hF hlimit hfuel).bind _

/-- Whatever is asked of a sequence that will fail, it returns. -/
theorem Supplies.returns_act (h : P.Supplies s t w) (hlimit : w.limit = none)
    {request : Sequence.Request H} (hrequest : request.OfItself) :
    P.Returns s t w (request.act E s) := by
  cases request with
  | advance => exact (h.returns_advance hP).told _
  | read index => exact (h.returns_read hP hF hfuel hlimit index).told _
  | overwrite index x =>
    exact (h.returns_overwrite hP hF hfuel hlimit index x).told fun _ => Sequence.Reply.done
  | length => exact (h.refuses_length hP hF hlimit hfuel).returns.told _
  | materialize => exact (h.returns_materialize hP hF hfuel hlimit).told _
  | count target => exact (h.refuses_count hP hF hlimit hfuel target).returns.told _
  | contains target => exact (h.returns_contains hP hF hfuel hrequest).told _
  | slice start stop step => exact (h.returns_slice hP hF hfuel hlimit start stop step).told _
  | reverse =>
    exact (h.refuses_reverse hP hF hlimit hfuel).returns.told fun _ => Sequence.Reply.made
  | filter test =>
    exact (Returns.lift rfl (.withSequence hP h _ _)).told fun _ => Sequence.Reply.made
  | append other =>
    exact (Returns.lift rfl (.withSequence hP h _ _)).told fun _ => Sequence.Reply.made
  | flatten =>
    exact (h.refuses_flatten hP hF hfuel hlimit).returns.told fun _ => Sequence.Reply.done
  | equals v => exact ((h.refuses_flatten hP hF hfuel hlimit).bind _).returns.told _
  | cached | exhausted | display | structureText => exact .get_bind (.pure h _)

end Operations

end Provision

/-! ### What iterations give -/

theorem TapeState.Goes.behind {cell cell' : TapeState H} (h : cell.Goes cell') {found : List Value}
    {j : Nat} {x : Option Item} (hx : x = cell.behind found j)
    (hnone : x = none → cell.hasEnded = true) : x = cell'.behind found j := by
  subst hx
  simp only [TapeState.behind] at hnone ⊢
  cases hfound : found[j]? with
  | some v => rfl
  | none =>
    rw [hfound, Option.map_none, Option.none_or] at hnone
    rw [Option.map_none, Option.none_or, Option.none_or]
    exact (h.getElem? rfl hnone).symm

/-- An iteration in use has given what was behind what it found, so far as it was asked. -/
structure Sequence.Opened.Agrees (t : Tape) (k : Nat) (w : World H) (o : Sequence.Opened) :
    Prop where
  found : o.found.length ≤ k
  follows : o.iteration.Follows t w o.found o.given.length
  given : ∀ (j : Nat) (x : Option Item), o.given[j]? = some x →
    x = (w.tape t).behind o.found j ∧ (x = none → (w.tape t).hasEnded = true)

theorem Sequence.Opened.Agrees.of_goes {t : Tape} {k : Nat} {w w' : World H} {o : Sequence.Opened}
    (h : o.Agrees t k w) (hgoes : (w.tape t).Goes (w'.tape t)) : o.Agrees t k w' where
  found := h.found
  follows := h.follows.of_goes hgoes
  given j x hx := by
    obtain ⟨hbehind, hnone⟩ := h.given j x hx
    refine ⟨hgoes.behind hbehind hnone, fun heq => ?_⟩
    rw [hgoes.ended (hnone heq)]
    exact hnone heq

namespace Provision

variable {P : Provision H} {E : Engine H} {s : Sequence} {t : Tape} {w : World H}
variable {k : Nat} {e : Error}

section Doings

variable (hP : P.Valid E t.id s.id) (hF : P.FailsAt k e) (hfuel : k < E.fuel)
include hP hF hfuel

theorem Supplies.run_doing (h : P.Supplies s t w) (hlimit : w.limit = none)
    {opened : List Sequence.Opened} (hopened : ∀ o ∈ opened, o.Agrees t k w)
    (doing : Sequence.Doing H) :
    ∃ opened' w', (doing.perform E s opened).run w = .ok (opened', w') ∧ P.Keeps s t w w' ∧
      ∀ o ∈ opened', o.Agrees t k w' := by
  cases doing with
  | ask request hrequest =>
    obtain ⟨y, w', hrun, hkeeps⟩ := h.returns_act hP hF hfuel hlimit hrequest
    refine ⟨opened, w', Act.run_bind_of_eq hrun, hkeeps, fun o ho => ?_⟩
    exact (hopened o ho).of_goes (hkeeps.continues.goes t h.tape_lt)
  | iterate =>
    refine ⟨_, w, rfl, .refl h, fun o ho => ?_⟩
    rcases List.mem_append.mp ho with hold | hnew
    · exact hopened o hold
    · rw [List.mem_singleton.mp hnew]
      exact ⟨hF.cache_size_le h, .opened h, by simp⟩
  | next number =>
    dsimp only [Sequence.Doing.perform]
    cases ho : opened[number]? with
    | none => exact ⟨opened, w, rfl, .refl h, hopened⟩
    | some o =>
      have hold := hopened o (List.mem_of_getElem? ho)
      obtain ⟨x, i', w', hrun, hfollows, hx, hnone, hstocks, hspares⟩ :=
        hold.follows.run_next hP h.toStocks
      have hgoes := hspares.goes t h.tape_lt
      refine ⟨_, w', Act.run_bind_of_eq hrun, ⟨h.of_read hstocks hspares, hspares.continues⟩, ?_⟩
      intro o' ho'
      rcases List.mem_or_eq_of_mem_set ho' with hother | rfl
      · exact (hopened o' hother).of_goes hgoes
      · refine ⟨hold.found, by simpa using hfollows, fun j y hy => ?_⟩
        rw [List.getElem?_append] at hy
        split at hy
        · exact (hold.of_goes hgoes).given j y hy
        · rename_i hge
          have hj : j = o.given.length := by
            have hlt := (List.getElem?_eq_some_iff.mp hy).1
            rw [List.length_singleton] at hlt
            omega
          rw [hj, Nat.sub_self, List.getElem?_cons_zero, Option.some.injEq] at hy
          rw [← hy, hj]
          exact ⟨hx, hnone⟩

/-- Whatever is done in a row returns, and the iterations keep giving what is behind what
    they found. -/
theorem Supplies.run_doings (doings : List (Sequence.Doing H)) (h : P.Supplies s t w)
    (hlimit : w.limit = none) {opened : List Sequence.Opened}
    (hopened : ∀ o ∈ opened, o.Agrees t k w) :
    ∃ opened' w', (doings.foldlM (Sequence.Doing.perform E s) opened).run w = .ok (opened', w') ∧
      P.Keeps s t w w' ∧ ∀ o ∈ opened', o.Agrees t k w' := by
  induction doings generalizing w opened with
  | nil => exact ⟨opened, w, rfl, .refl h, hopened⟩
  | cons doing doings ih =>
    obtain ⟨opened₁, w₁, hrun, hkeeps, hopened₁⟩ := h.run_doing hP hF hfuel hlimit hopened doing
    obtain ⟨opened', w', hrest, hkeeps', hopened'⟩ :=
      ih hkeeps.supplies (hkeeps.continues.limit.trans hlimit) hopened₁
    refine ⟨opened', w', ?_, hkeeps.trans hkeeps', hopened'⟩
    rw [List.foldlM_cons, Act.run_bind_of_eq hrun]
    exact hrest

omit hfuel in
/-- In the end the failure can be on the tape. -/
theorem Supplies.reaches_failure (h : P.Supplies s t w) :
    ∃ w', P.Keeps s t w w' ∧ (w'.tape t).log[k]? = some (.error e) := by
  have hle := hF.cache_size_le h
  obtain ⟨u, -, hforced, hsize⟩ :=
    h.run_produce_of_le hP hF (k - (w.sequence s).cache.size) (by omega)
  have hlast : (u.sequence s).cache.size = k := by omega
  obtain ⟨x, w', -, hx, hlog, hsupplies, hspares, -⟩ := hforced.supplies.run_advance hP
  rw [hlast] at hx hlog
  refine ⟨w', hforced.keeps.trans ⟨hsupplies, hspares.continues⟩, ?_⟩
  rw [hlog]
  exact hF.failure hx

end Doings

end Provision

/-! ### Tapes that have failed -/

/-- The items for who has found other values in the first places. -/
theorem getElem?_itemsOf_found {found values : List Value} (hle : found.length ≤ values.length)
    (failure : Option Error) (j : Nat) :
    (itemsOf (found ++ values.drop found.length) failure)[j]? =
      (found[j]?.map .ok).or (itemsOf values failure)[j]? := by
  have hdrop : itemsOf (found ++ values.drop found.length) failure =
      found.map .ok ++ (itemsOf values failure).drop found.length := by
    rw [itemsOf, itemsOf, List.drop_append_of_le_length (by simpa using hle), List.map_append,
      List.map_drop, List.append_assoc]
  rw [hdrop, List.getElem?_append]
  split
  · rename_i hlt
    rw [List.length_map] at hlt
    simp [hlt]
  · rename_i hge
    rw [List.length_map, Nat.not_lt] at hge
    simp [hge]

/-- A tape that has failed holds its values and then the failure. -/
theorem TapeState.Sound.log_eq_itemsOf {cell : TapeState H} (h : cell.Sound) {k : Nat} {e : Error}
    (he : cell.log[k]? = some (.error e)) :
    cell.values.length = k ∧ ∀ j : Nat, cell.log[j]? = (itemsOf cell.values (some e))[j]? := by
  have hlast := (h k e he).1
  have hvalue : ∀ j : Nat, j < k → ∃ v, cell.log[j]? = some (.ok v) ∧ cell.values[j]? = some v := by
    intro j hj
    have hlt : j < cell.log.size := by omega
    cases hx : cell.log[j] with
    | error e' =>
      have hend := (h j e' (by rw [Array.getElem?_eq_getElem hlt, hx])).1
      omega
    | ok v =>
      have hlog : cell.log[j]? = some (.ok v) := by rw [Array.getElem?_eq_getElem hlt, hx]
      exact ⟨v, hlog, by rw [h.getElem?_values, hlog]; rfl⟩
  have hlength : cell.values.length = k := by
    apply Nat.le_antisymm
    · rw [← List.getElem?_eq_none_iff, h.getElem?_values, he]
      rfl
    · apply Nat.le_of_not_lt
      intro hlt
      obtain ⟨v, -, hv⟩ := hvalue _ hlt
      simp at hv
  refine ⟨hlength, fun j => ?_⟩
  rcases Nat.lt_trichotomy j k with hlt | rfl | hgt
  · obtain ⟨v, hlog, hv⟩ := hvalue j hlt
    rw [hlog, itemsOf_eq_ok.mpr hv]
  · have hend : (itemsOf cell.values (some e))[cell.values.length]? = some (.error e) :=
      getElem?_itemsOf_length
    rw [hlength] at hend
    rw [he, hend]
  · rw [Array.getElem?_eq_none (by omega), List.getElem?_eq_none (by simp [itemsOf]; omega)]

/-! ### The views of a failing sequence -/

theorem SequenceState.shown_of_not_overwritten {c : SequenceState} {j : Nat}
    (h : ∀ u, (j, u) ∉ c.overwritten) (v : Value) : c.shown j v = v := by
  have hlookup : c.overwritten.lookup j = none := by
    apply List.lookup_eq_none_iff.mpr
    intro entry hentry
    apply bne_iff_ne.mpr
    rintro rfl
    exact h entry.2 hentry
  rw [shown, hlookup]
  rfl

namespace Sequence

/-- What an iteration has given are the items of a production that fails, with what it
    found cached in the first places: the values, then the failure once, then nothing. -/
structure Opened.Views (produced : List Value) (e : Error) (o : Opened) : Prop where
  found : o.found.length ≤ produced.length
  given : ∀ (j : Nat) (x : Option Item), o.given[j]? = some x →
    x = (itemsOf (o.found ++ produced.drop o.found.length) (some e))[j]?

/-- An attempt fails with this error.  What is cached stays, nothing is overwritten, and
    no more than `k` values are cached. -/
def Refused (s : Sequence) (k : Nat) (e : Error) (w : World H) {α : Type} (a : Attempt H α) :
    Prop :=
  ∃ w', a.run.run w = .ok (.error e, w') ∧
    (w.sequence s).cache.toList <+: (w'.sequence s).cache.toList ∧
    (w'.sequence s).overwritten = (w.sequence s).overwritten ∧ (w'.sequence s).cache.size ≤ k

/-- A sequence has `k` values and then a failure, whichever way one looks at it. -/
structure FailsBehind (E : Engine H) (s : Sequence) (k : Nat) (e : Error) (w : World H) :
    Prop where
  cache_size_le : (w.sequence s).cache.size ≤ k
  read : ∀ index : Int, 0 ≤ index → index < k →
    ∃ v w', (s.read E index).run.run w = .ok (.ok v, w')
  advance : (w.sequence s).cache.size = k → s.Refused k e w (s.advance E)
  readBehind : ∀ index : Int, index < 0 ∨ k ≤ index → s.Refused k e w (s.read E index)
  overwriteBehind : ∀ (index : Int) (x : External H.Source), index < 0 ∨ k ≤ index →
    x.failure? = none → s.Refused k e w (s.overwrite E index x)
  length : s.Refused k e w (s.length E)
  materialize : s.Refused k e w (s.materialize E)
  count : ∀ target, s.Refused k e w (s.count E target)
  reverse : s.Refused k e w (s.reverse E)

end Sequence

namespace Provision

variable {P : Provision H} {E : Engine H} {s : Sequence} {t : Tape} {w : World H}
variable {k : Nat} {e : Error}

theorem Refuses.refused {α : Type} {a : Attempt H α} (h : P.Refuses s t e w a)
    (hF : P.FailsAt k e) : s.Refused k e w a := by
  obtain ⟨w', hrun, hforced⟩ := h
  exact ⟨w', hrun, hforced.cache, hforced.overwritten, hF.cache_size_le hforced.supplies⟩

theorem Supplies.failsBehind (h : P.Supplies s t w) (hP : P.Valid E t.id s.id)
    (hF : P.FailsAt k e) (hfuel : k < E.fuel) (hlimit : w.limit = none) :
    s.FailsBehind E k e w where
  cache_size_le := hF.cache_size_le h
  read index hindex hlt := by
    obtain ⟨v, w', hrun, -⟩ := h.run_read_of_lt hP hF hindex hlt
    exact ⟨v, w', hrun⟩
  advance heq := (h.refuses_advance hP hF heq).refused hF
  readBehind _ hindex := (h.refuses_read hP hF hlimit hfuel hindex).refused hF
  overwriteBehind _ _ hindex hx := (h.refuses_overwrite hP hF hlimit hfuel hindex hx).refused hF
  length := (h.refuses_length hP hF hlimit hfuel).refused hF
  materialize := (h.refuses_materialize hP hF hlimit hfuel).refused hF
  count target := (h.refuses_count hP hF hlimit hfuel target).refused hF
  reverse := (h.refuses_reverse hP hF hlimit hfuel).refused hF

/-- What is known of the values of a production holds of those on the tape. -/
theorem Supplies.forall₂_known {B : Behavior H} {h m n : Nat} {I : World H → Prop}
    {known : List (Value → Prop)} {failure : Option Error} {values : List Value}
    (hw : (ending B h I m n failure known).Supplies s t w) (hlength : values.length = known.length)
    (hlog : ∀ (j : Nat) (v : Value), values[j]? = some v → (w.tape t).log[j]? = some (.ok v)) :
    List.Forall₂ (fun A v => A v) known values := by
  refine List.forall₂_iff_get.mpr ⟨hlength.symm, fun j hj hv => ?_⟩
  have hallowed := hw.logged j _ (hlog j _ (List.getElem?_eq_getElem hv))
  simp only [ending, List.getElem?_eq_getElem hj] at hallowed
  obtain ⟨a, ha, hknown⟩ := hallowed
  cases ha
  exact hknown

end Provision

namespace Sequence

/-- A sequence is made over a producer that comes to so many values and then to a failure,
    in whatever worlds are as it relies on.  Then whatever is done with the sequence and
    with iterations over it, without a limit, everything returns, and it all agrees on one
    list of values, of which is known what is known of the producer's:

    - each iteration gives what it found cached, then the values behind that, then the
      failure exactly once, and nothing ever after;
    - the sequence can be read before the failure, and everything that needs more, or all
      of it, fails with that same failure, overwrites nothing and caches no more than the
      values. -/
theorem failing_views_agree {B : Behavior H} {h depth : Nat} {I : World H → Prop}
    {known : List (Value → Prop)} {e : Error} {p : Producer H} {infinite : Bool} {s : Sequence}
    {w₀ w₁ : World H} (hI : World.Lasts I w₀.tapes.size w₀.sequences.size) (hrelies : I w₀)
    (hp : p.Comes B h I w₀.tapes.size w₀.sequences.size (some e) known w₀)
    (hdepth : h ≤ depth) (hfuel : known.length < (Engine.ofBehavior B depth).fuel)
    (hlimit : w₀.limit = none) (hmade : (adopt p infinite).run w₀ = .ok (s, w₁))
    (doings : List (Doing H)) :
    ∃ opened w produced, (performAll (.ofBehavior B depth) s doings).run w₁ = .ok (opened, w) ∧
      List.Forall₂ (fun A v => A v) known produced ∧
      (∀ j v, (w.sequence s).cache[j]? = some v → (∀ u, (j, u) ∉ (w.sequence s).overwritten) →
        produced[j]? = some v) ∧
      (∀ o ∈ opened, o.Views produced e) ∧
      s.FailsBehind (.ofBehavior B depth) known.length e w := by
  have hadopt : (adopt p infinite).run w₀ =
      .ok (w₀.freshSequence, w₀.withSequence p infinite) := rfl
  rw [hadopt] at hmade
  cases hmade
  have hP : (Provision.ending B h I w₀.tapes.size w₀.sequences.size (some e) known).Valid
      (.ofBehavior B depth) w₀.freshTape.id w₀.freshSequence.id := Provision.ending_valid hI hdepth
  have hF : (Provision.ending B h I w₀.tapes.size w₀.sequences.size (some e) known).FailsAt
      known.length e := Provision.ending_failsAt
  have hmade := Provision.supplies_withSequence hP hrelies ⟨Nat.zero_le _, hp⟩ infinite
  have hfresh : ∀ o ∈ [], Opened.Agrees w₀.freshTape known.length (w₀.withSequence p infinite) o :=
    by simp
  obtain ⟨opened, w, hrun, hkeeps, hopened⟩ :=
    hmade.run_doings hP hF hfuel doings hlimit hfresh
  have hnone : w.limit = none := hkeeps.continues.limit.trans hlimit
  obtain ⟨u, hafter, hlast⟩ := hkeeps.supplies.reaches_failure hP hF
  obtain ⟨hlength, hlog⟩ := hafter.supplies.sound.log_eq_itemsOf hlast
  have hgoes := hafter.continues.goes w₀.freshTape hkeeps.supplies.tape_lt
  refine ⟨opened, w, _, hrun, hafter.supplies.forall₂_known hlength fun j v hv => ?_,
    fun j v hv hnot => ?_, fun o ho => ?_, hkeeps.supplies.failsBehind hP hF hfuel hnone⟩
  · rw [hlog, itemsOf_eq_ok.mpr hv]
  · obtain ⟨a, ha, rfl⟩ := hkeeps.supplies.mirrors.cached j v hv
    rw [SequenceState.shown_of_not_overwritten hnot, ← itemsOf_eq_ok, ← hlog]
    exact hgoes.logged j _ ha
  · have hviews := (hopened o ho).of_goes hgoes
    have hle : o.found.length ≤ (u.tape w₀.freshTape).values.length := hlength ▸ hviews.found
    refine ⟨hle, fun j x hx => ?_⟩
    rw [(hviews.given j x hx).1, TapeState.behind, hlog, getElem?_itemsOf_found hle]

def unknownNumber : External Session.host.Source :=
  .symbolic ⟨.integer, none, none, ⟨false, 0, by decide⟩, "x"⟩

/-- Over a container of an integer and an unknown number: an iteration that was opened
    before the sequence met the failure has given the integer, the failure once and then
    nothing; one that is opened afterwards has found the integer cached. -/
theorem failing_views_agree_unknownNumber :
    ∃ opened w, (performAll (.ofBehavior Session.behavior 3) ⟨0⟩
        [.iterate, .next 0, .ask .length trivial, .next 0, .next 0, .iterate]).run
          (Session.start.withSequence (.container [.int 7, unknownNumber]) false) =
        .ok (opened, w) ∧
      opened.map (fun o => (o.found, o.given)) =
        [([], [some (.ok (.int 7)), some (.error (.unrepresentable "x")), none]),
          ([.int 7], [])] ∧
      (∀ o ∈ opened, o.Views [.int 7] (.unrepresentable "x")) ∧
      FailsBehind (.ofBehavior Session.behavior 3) ⟨0⟩ 1 (.unrepresentable "x") w := by
  have hI : World.Lasts (fun _ : World Session.host => True) 0 0 := fun _ _ hw _ => hw
  have hp := Producer.comes_container (B := Session.behavior) hI [.int 7, unknownNumber]
    Session.start
  have hmade : (adopt (.container [.int 7, unknownNumber]) false).run Session.start =
      .ok (⟨0⟩, Session.start.withSequence (.container [.int 7, unknownNumber]) false) := rfl
  obtain ⟨opened, w, produced, hrun, hproduced, -, hviews, hbehind⟩ :=
    failing_views_agree hI trivial hp (by decide : 1 ≤ 3) (by decide) rfl hmade
      [.iterate, .next 0, .ask .length trivial, .next 0, .next 0, .iterate]
  refine ⟨opened, w, hrun, ?_, ?_, hbehind⟩
  · obtain ⟨opened', w', hrun', hgiven⟩ : ∃ opened' w',
        (performAll (.ofBehavior Session.behavior 3) ⟨0⟩
          [.iterate, .next 0, .ask .length trivial, .next 0, .next 0, .iterate]).run
            (Session.start.withSequence (.container [.int 7, unknownNumber]) false) =
          .ok (opened', w') ∧
        opened'.map (fun o => (o.found, o.given)) =
          [([], [some (.ok (.int 7)), some (.error (.unrepresentable "x")), none]),
            ([.int 7], [])] := ⟨_, _, rfl, rfl⟩
    cases hrun.symm.trans hrun'
    exact hgiven
  · obtain ⟨a, rest, ha, hnil, rfl⟩ := List.forall₂_cons_left_iff.mp hproduced
    cases ha
    cases hnil
    exact hviews

end Sequence

end MemoSeq
