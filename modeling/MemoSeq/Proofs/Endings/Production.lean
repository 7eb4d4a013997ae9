/-
  MemoSeq/Proofs/Endings/Production.lean
  =======================================
  **Producers that come to the end of what they are made of.**

  A derived producer that is driven while its sources are at rest comes to its end only when
  they have come to theirs (`Behavior.Concludes`): a filter has shown all of a sequence that
  passes, a concatenation all of both parts, a slice without a stop all that it takes of a
  sequence, and a producer that reads another tape all that is behind its position.  What it
  has given before makes no difference, nor does what the sources run when they are called.

  A tape on which such a producer has been put carries that on along the run
  (`Moment.Turns.carries`).
-/
import MemoSeq.Proofs.Endings.Iterations
import MemoSeq.Proofs.Endings.Turns

namespace MemoSeq

variable {H : Host} {B : Behavior H} {u : Tape} {sources : List Tape} {depth k : Nat}
variable {base : Moment H → Prop} {fits : List Value → Producer H → World H → Prop}
variable {whole : List Value → World H → Prop} {given seen : List Value} {p : Producer H}
variable {calls : List Call} {s r : Sequence} {t q : Tape} {w w' : World H} {m m' : Moment H}

/-! ### Productions that conclude -/

/-- What comes of driving a producer that has given these values: one value more, and it
    still fits; a failure; or the end, and they are the whole of what it is made of. -/
def Producer.Proceeds (fits : List Value → Producer H → World H → Prop)
    (whole : List Value → World H → Prop) (given : List Value) (v : World H) :
    Option Item × Producer H → Prop
  | (none, _) => whole given v
  | (some (.ok a), p) => fits (given ++ [a]) p v
  | (some (.error _), _) => True

/-- Driven while its sources are at rest, a producer that fits comes to no end but the whole.
    The base is what it relies on at all moments. -/
structure Behavior.Concludes (B : Behavior H) (sources : List Tape) (base : Moment H → Prop)
    (fits : List Value → Producer H → World H → Prop) (whole : List Value → World H → Prop) :
    Prop where
  base_steps : ∀ {m m' : Moment H}, base m → m.Steps m' → base m'
  fits_steps : ∀ {m m' : Moment H} {given : List Value} {p : Producer H}, base m →
    m.Steps m' → fits given p m.world → fits given p m'.world
  whole_steps : ∀ {m m' : Moment H} {given : List Value}, base m → m.Steps m' →
    whole given m.world → whole given m'.world
  next : ∀ {given : List Value} {p : Producer H} {w : World H} {calls : List Call},
    base ⟨w, calls⟩ → w.AtRest sources → fits given p w → ∀ depth,
    (p.next (.ofBehavior B depth)).Manages True w fun y v => Producer.Proceeds fits whole given v y

/-- The tape has been given such a producer: while it goes on, the producer fits, and once it
    has ended without a failure, its values are the whole. -/
structure World.Carries (u : Tape) (fits : List Value → Producer H → World H → Prop)
    (whole : List Value → World H → Prop) (w : World H) : Prop where
  tape_lt : u.id < w.tapes.size
  idle : ∀ p, (w.tape u).phase = .idle p →
    ∃ given : List Value, (w.tape u).log.toList = given.map .ok ∧ fits given p w
  ended : (w.tape u).hasEnded = true →
    ∀ given : List Value, (w.tape u).log.toList = given.map .ok → whole given w

theorem Behavior.Concludes.proceeds_steps (hC : B.Concludes sources base fits whole)
    (hm : base m) (hsteps : m.Steps m') {y : Option Item × Producer H}
    (h : Producer.Proceeds fits whole given m.world y) :
    Producer.Proceeds fits whole given m'.world y := by
  obtain ⟨_ | e | a, p⟩ := y
  · exact hC.whole_steps hm hsteps h
  · trivial
  · exact hC.fits_steps hm hsteps h

/-- The tape carries what comes of driving the producer when that has been recorded. -/
theorem World.Carries.of_recorded {cell : TapeState H} {x : Option Item}
    (hlt : u.id < w.tapes.size) (hcell : w.tape u = cell.recorded x p)
    (hlog : cell.log.toList = given.map .ok)
    (hcomes : Producer.Proceeds fits whole given w (x, p)) : w.Carries u fits whole := by
  rcases x with _ | e | a
  · refine ⟨hlt, fun p hp => ?_, fun _ given' hlog' => ?_⟩
    · rw [hcell] at hp
      cases hp
    · rw [hcell] at hlog'
      obtain rfl : given = given' :=
        List.map_injective_iff.mpr (fun _ _ => Except.ok.inj) (hlog.symm.trans hlog')
      exact hcomes
  · refine ⟨hlt, fun p hp => ?_, fun _ given' hlog' => ?_⟩
    · rw [hcell] at hp
      cases hp
    · have hmem : (.error e : Item) ∈ given'.map .ok := by
        rw [← hlog', hcell]
        simp [TapeState.recorded]
      simp at hmem
  · refine ⟨hlt, fun p hp => ?_, fun hended => ?_⟩
    · rw [hcell] at hp ⊢
      cases hp
      exact ⟨given ++ [a], by simp [TapeState.recorded, hlog], hcomes⟩
    · rw [hcell] at hended
      cases hended

section Turns

variable (hB : B.Lawful) (hC : B.Concludes sources base fits whole) (hu : u ∉ sources)
include hB hC hu

/-- A turn leaves the tape as it is, or is a call of the producer, which fits and finds the
    sources at rest. -/
theorem Moment.Turn.carries (hturn : Turn B u sources m m') (hm : base m)
    (h : m.world.Carries u fits whole) : m'.world.Carries u fits whole := by
  cases hturn with
  | aside hstep hsame =>
    refine ⟨Nat.lt_of_lt_of_le h.tape_lt (tapes_size_le_step hstep), ?_, ?_⟩
    · intro p hphase
      rw [hsame] at hphase ⊢
      obtain ⟨given, hlog, hfits⟩ := h.idle p hphase
      exact ⟨given, hlog, hC.fits_steps hm hstep.steps hfits⟩
    · intro hended given hlog
      rw [hsame] at hended hlog
      exact hC.whole_steps hm hstep.steps (h.ended hended given hlog)
  | @call w v calls x p p' c depth htape hphase hrest hopens hrun =>
    subst htape
    obtain ⟨given, hlog, hfits⟩ := h.idle p hphase
    have hleads := (Engine.ofBehavior_leads hB depth).next p hrun
    have hopened := hC.base_steps hm hopens.steps
    have hrest' : (c.opened w).AtRest sources := fun q hq => by
      rw [Call.tape_opened_of_ne fun heq => hu (heq ▸ hq)]
      exact hrest q hq
    have hcomes : Producer.Proceeds fits whole given v (x, p') := by
      cases depth with
      | zero => exact (Act.run_starve_eq_ok.mp hrun).elim
      | succ depth =>
        have hfits' := hC.fits_steps hm hopens.steps hfits
        exact (hC.next hopened hrest' hfits' depth).result hrun
    -- within its call the tape has stayed as it was
    have hstarted : v.tape c.tape = (w.tape c.tape).started := by
      rw [← Call.tape_opened_self h.tape_lt]
      exact World.Leads.tape_running hleads (by rw [Call.tape_opened_self h.tape_lt]; rfl)
    have hlt : c.tape.id < v.tapes.size :=
      Nat.lt_of_lt_of_le (by simpa using h.tape_lt) (World.Leads.tapes_size_le hleads)
    have hcell := Call.tape_answered_self (c := c) (w := v) (x := x) (p := p') hlt
    rw [hstarted] at hcell
    have hanswers : Step ⟨v, c :: calls⟩ ⟨c.answered v x p', calls⟩ := c.step_answered v x p'
    have hinner := hC.base_steps hopened (hleads (c :: calls))
    exact .of_recorded (Nat.lt_of_lt_of_le hlt (tapes_size_le_step hanswers)) hcell hlog
      (hC.proceeds_steps hinner hanswers.steps hcomes)

theorem Moment.Turns.carries (hturns : Turns B u sources m m') (hm : base m)
    (h : m.world.Carries u fits whole) : m'.world.Carries u fits whole := by
  induction hturns with
  | refl => exact h
  | tail hturns hturn ih =>
    exact hturn.carries hB hC hu (hC.base_steps hm (Turns.steps hB hturns)) ih

end Turns

/-- A tape carries a producer that has just been put on it and fits there. -/
theorem World.Carries.made {infinite : Bool} (hfits : fits [] p (w.withSequence p infinite)) :
    (w.withSequence p infinite).Carries w.freshTape fits whole where
  tape_lt := by simp [World.freshTape]
  idle p' hphase := by
    simp only [World.tape_withSequence, World.tape_withTape_freshTape] at hphase ⊢
    cases hphase
    exact ⟨[], rfl, hfits⟩
  ended hended := by
    simp only [World.tape_withSequence, World.tape_withTape_freshTape] at hended
    cases hended

/-! ### What the producers rely on -/

/-- The calls are in order and these sequences draw from these tapes. -/
def Moment.Drawing (drawn : List (Sequence × Tape)) (m : Moment H) : Prop :=
  m.Ordered ∧ ∀ d ∈ drawn, m.Draws d.1 d.2

theorem Moment.Drawing.steps {drawn : List (Sequence × Tape)} (h : m.Drawing drawn)
    (hsteps : m.Steps m') : m'.Drawing drawn :=
  ⟨h.1.steps hsteps, fun d hd => (h.2 d hd).steps h.1 hsteps⟩

/-! ### Filters -/

/-- When a predicate comes to a verdict, it is a matter of the value only, whatever the
    predicate runs meanwhile. -/
def Behavior.Accepts (B : Behavior H) (test : H.Test) (holds : Value → Bool) : Prop :=
  ∀ depth v w b w', (Engine.test (.ofBehavior B depth) test v).run.run w = .ok (.ok b, w') →
    b = holds v

section Filters

variable {test : H.Test} {holds : Value → Bool}

/-- A filter of the sequence that has given what passes of what it has seen. -/
def Producer.Filters (test : H.Test) (holds : Value → Bool) (s : Sequence) (t : Tape)
    (given : List Value) (p : Producer H) (w : World H) : Prop :=
  (p = .filtered test (.pending s) ∧ given = []) ∨
    ∃ i seen, p = .filtered test (.opened i) ∧ i.Shown s t w seen ∧ given = seen.filter holds

def World.Filtered (holds : Value → Bool) (s : Sequence) (t : Tape) (given : List Value)
    (w : World H) : Prop :=
  ∃ all, w.AllOf s t all ∧ given = all.filter holds

theorem Producer.search_concludes (hB : B.Lawful) (htest : B.Accepts test holds) (rounds : Nat)
    {i : Iteration} (hq : Moment.Quiet ⟨w, calls⟩ s t) (hi : i.Shown s t w seen) :
    (search (.ofBehavior B depth) test rounds i).Manages True w fun y v =>
      Proceeds (Filters test holds s t) (World.Filtered holds s t) (seen.filter holds) v
        (y.1, .filtered test y.2) := by
  have hE := Engine.ofBehavior_leads hB depth
  -- each round shows one value more, and goes on when it does not pass
  induction rounds generalizing w i seen with
  | zero => exact .halted trivial rfl
  | succ rounds ih =>
    rw [search]
    refine (hi.next_manages hE hq).bind ?_
    rintro ⟨x, i'⟩ v ⟨hleads, hx⟩
    have hv := hq.leads hleads
    match x with
    | none => exact .of_run rfl ⟨seen, hx, rfl⟩
    | some (.error e) => exact .of_run rfl trivial
    | some (.ok a) =>
      have hi' : i'.Shown s t v (seen ++ [a]) := hx
      refine Act.Manages.bind (Q := fun y v' => v.Leads v' ∧ ∀ b, y = .ok b → b = holds a)
        (.of_runs fun y v' hrun => ⟨hE.test test a hrun, ?_⟩) ?_
      · rintro b rfl
        exact htest depth a v b v' hrun
      · rintro y v' ⟨hleads', hverdict⟩
        have hi'' : i'.Shown s t v' (seen ++ [a]) :=
          hi'.steps hv.ordered hv.draws (hleads' calls)
        match y with
        | .error e => exact .of_run rfl trivial
        | .ok true =>
          refine .of_run rfl (.inr ⟨i', _, rfl, hi'', ?_⟩)
          rw [List.filter_append, List.filter_singleton, ← hverdict true rfl]
          rfl
        | .ok false =>
          have hgiven : (seen ++ [a]).filter holds = seen.filter holds := by
            rw [List.filter_append, List.filter_singleton, ← hverdict false rfl]
            simp
          rw [← hgiven]
          exact ih (hv.leads hleads') hi''

theorem Behavior.concludes_filters (hB : B.Lawful) (htest : B.Accepts test holds) :
    B.Concludes [t] (Moment.Drawing [(s, t)]) (Producer.Filters test holds s t)
      (World.Filtered holds s t) where
  base_steps := .steps
  fits_steps {m m' given p} hm hsteps hp := by
    rcases hp with hpending | ⟨i, seen, rfl, hi, hgiven⟩
    · exact .inl hpending
    · exact .inr ⟨i, seen, rfl, hi.steps hm.1 (hm.2 (s, t) (by simp)) hsteps, hgiven⟩
  whole_steps {m m' given} hm hsteps := by
    rintro ⟨all, hall, hgiven⟩
    exact ⟨all, (hm.2 (s, t) (by simp)).allOf_steps hm.1 hsteps hall, hgiven⟩
  next {given p w calls} hm hrest hp depth := by
    have hq : Moment.Quiet ⟨w, calls⟩ s t := ⟨hm.1, hm.2 (s, t) (by simp), hrest t (by simp)⟩
    have hopened {i : Iteration} {seen : List Value} (hi : i.Shown s t w seen) :
        (Producer.next (.ofBehavior B depth) (.filtered test (.opened i))).Manages True w
          fun y v => Producer.Proceeds (Producer.Filters test holds s t)
            (World.Filtered holds s t) (seen.filter holds) v y :=
      (Producer.search_concludes hB htest _ hq hi).bind fun _ _ hy => .of_run rfl hy
    rcases hp with ⟨rfl, rfl⟩ | ⟨i, seen, rfl, hi, rfl⟩
    · exact hopened (.opened hq.draws hq.busy_eq_false)
    · exact hopened hi

end Filters

/-! ### Concatenations -/

/-- A concatenation of the sequences that has given what it has seen of the left one, or all of
    that and what it has seen of the right one. -/
def Producer.Joins (s : Sequence) (t : Tape) (r : Sequence) (q : Tape) (given : List Value)
    (p : Producer H) (w : World H) : Prop :=
  (∃ left, p = .joined (some left) (.pending r) ∧ left.Shown s t w given) ∨
    ∃ i all seen, p = .joined none (.opened i) ∧ w.AllOf s t all ∧ i.Shown r q w seen ∧
      given = all ++ seen

def World.Joined (s : Sequence) (t : Tape) (r : Sequence) (q : Tape) (given : List Value)
    (w : World H) : Prop :=
  ∃ all all', w.AllOf s t all ∧ w.AllOf r q all' ∧ given = all ++ all'

/-- The right part of a concatenation, after all of the left part. -/
theorem Producer.along_concludes (hB : B.Lawful) (depth : Nat) {all : List Value} {i : Iteration}
    (hs : Moment.Draws ⟨w, calls⟩ s t) (hq : Moment.Quiet ⟨w, calls⟩ r q)
    (hall : w.AllOf s t all) (hi : i.Shown r q w seen) :
    (nextDeferred.along (.ofBehavior B depth) i).Manages True w fun y v =>
      Proceeds (Joins s t r q) (World.Joined s t r q) (all ++ seen) v (y.1, .joined none y.2) := by
  refine (hi.next_manages (Engine.ofBehavior_leads hB depth) hq).bind ?_
  rintro ⟨x, i'⟩ v ⟨hleads, hx⟩
  have hall' : v.AllOf s t all := hs.allOf_steps hq.ordered (hleads calls) hall
  match x with
  | none => exact .of_run rfl ⟨all, seen, hall', hx, rfl⟩
  | some (.error e) => exact .of_run rfl trivial
  | some (.ok a) =>
    exact .of_run rfl (.inr ⟨i', all, seen ++ [a], rfl, hall', hx, List.append_assoc ..⟩)

theorem Behavior.concludes_joins (hB : B.Lawful) :
    B.Concludes [t, q] (Moment.Drawing [(s, t), (r, q)]) (Producer.Joins s t r q)
      (World.Joined s t r q) where
  base_steps := .steps
  fits_steps {m m' given p} hm hsteps hp := by
    have hs := hm.2 (s, t) (by simp)
    have hr := hm.2 (r, q) (by simp)
    rcases hp with ⟨left, rfl, hleft⟩ | ⟨i, all, seen, rfl, hall, hi, hgiven⟩
    · exact .inl ⟨left, rfl, hleft.steps hm.1 hs hsteps⟩
    · exact .inr ⟨i, all, seen, rfl, hs.allOf_steps hm.1 hsteps hall, hi.steps hm.1 hr hsteps,
        hgiven⟩
  whole_steps {m m' given} hm hsteps := by
    rintro ⟨all, all', hall, hall', hgiven⟩
    exact ⟨all, all', (hm.2 (s, t) (by simp)).allOf_steps hm.1 hsteps hall,
      (hm.2 (r, q) (by simp)).allOf_steps hm.1 hsteps hall', hgiven⟩
  next {given p w calls} hm hrest hp depth := by
    have hs : Moment.Quiet ⟨w, calls⟩ s t := ⟨hm.1, hm.2 (s, t) (by simp), hrest t (by simp)⟩
    have hr : Moment.Quiet ⟨w, calls⟩ r q := ⟨hm.1, hm.2 (r, q) (by simp), hrest q (by simp)⟩
    rcases hp with ⟨left, rfl, hleft⟩ | ⟨i, all, seen, rfl, hall, hi, rfl⟩
    · refine (hleft.next_manages (Engine.ofBehavior_leads hB depth) hs).bind ?_
      rintro ⟨x, left'⟩ v ⟨hleads, hx⟩
      match x with
      | some (.error e) => exact .of_run rfl trivial
      | some (.ok a) => exact .of_run rfl (.inl ⟨left', rfl, hx⟩)
      | none =>
        -- the left part has come to its end, and the right part is opened within the same call
        have hr' := hr.leads hleads
        have hopens := Producer.along_concludes hB depth (hs.leads hleads).draws hr' hx
          (.opened hr'.draws hr'.busy_eq_false)
        rw [List.append_nil] at hopens
        exact Act.Manages.bind hopens fun _ _ hy => .of_run rfl hy
    · exact (Producer.along_concludes hB depth hs.draws hr hall hi).bind fun _ _ hy =>
        .of_run rfl hy

/-! ### Slices without a stop -/

/-- A slice of the sequence that has given the first of the values that it takes. -/
def Producer.Slices (start step : Int) (s : Sequence) (t : Tape) (given : List Value)
    (p : Producer H) (w : World H) : Prop :=
  (p = .strided start step (.pending s) ∧ given = []) ∨
    ∃ rest all, p = .strided start step (.opened rest) ∧ w.AllOf s t all ∧
      stride all.toArray start step = given ++ rest

def World.Sliced (start step : Int) (s : Sequence) (t : Tape) (given : List Value)
    (w : World H) : Prop :=
  ∃ all, w.AllOf s t all ∧ given = stride all.toArray start step

/-- Values that are there already are given one after the other. -/
theorem Producer.nextValue_concludes {start step : Int} {rest all : List Value}
    (hall : w.AllOf s t all) (hrest : stride all.toArray start step = given ++ rest) :
    Proceeds (Slices start step s t) (World.Sliced start step s t) given w
      ((nextValue rest).1, .strided start step (nextValue rest).2) := by
  cases rest with
  | nil => exact ⟨all, hall, by rw [hrest, List.append_nil]⟩
  | cons a rest => exact .inr ⟨rest, all, rfl, hall, by rw [hrest, List.append_assoc]; rfl⟩

theorem Behavior.concludes_slices (hB : B.Lawful) {start step : Int} :
    B.Concludes [t] (Moment.Drawing [(s, t)]) (Producer.Slices start step s t)
      (World.Sliced start step s t) where
  base_steps := .steps
  fits_steps {m m' given p} hm hsteps hp := by
    rcases hp with hpending | ⟨rest, all, rfl, hall, hrest⟩
    · exact .inl hpending
    · exact .inr ⟨rest, all, rfl, (hm.2 (s, t) (by simp)).allOf_steps hm.1 hsteps hall, hrest⟩
  whole_steps {m m' given} hm hsteps := by
    rintro ⟨all, hall, hgiven⟩
    exact ⟨all, (hm.2 (s, t) (by simp)).allOf_steps hm.1 hsteps hall, hgiven⟩
  next {given p w calls} hm hrest hp depth := by
    have hq : Moment.Quiet ⟨w, calls⟩ s t := ⟨hm.1, hm.2 (s, t) (by simp), hrest t (by simp)⟩
    rcases hp with ⟨rfl, rfl⟩ | ⟨rest, all, rfl, hall, hvalues⟩
    · refine (hq.materialize_manages (Engine.ofBehavior_leads hB depth)).bind ?_
      rintro y v ⟨-, hy⟩
      match y with
      | .error e => exact .of_run rfl trivial
      | .ok all => exact .of_run rfl (Producer.nextValue_concludes (hy all rfl) rfl)
    · exact .of_run rfl (Producer.nextValue_concludes hall hvalues)

/-! ### Producers that read another tape -/

/-- A reader of the tape that has given what it has read from position `k` on. -/
def Producer.Forwards (t : Tape) (k : Nat) (given : List Value) (p : Producer H) (w : World H) :
    Prop :=
  p = .reader ⟨t, k + given.length⟩ ∧ (w.tape t).Begins k given ∧
    k + given.length ≤ (w.tape t).log.size

theorem Behavior.concludes_forwards (hB : B.Lawful) :
    B.Concludes [t] (fun m => m.Ordered ∧ t.id < m.world.tapes.size) (Producer.Forwards t k)
      (fun given w => (w.tape t).Gave k given) where
  base_steps {m m'} hm hsteps := by
    refine ⟨hm.1.steps hsteps, ?_⟩
    induction hsteps with
    | refl => exact hm.2
    | tail _ hstep ih => exact Nat.lt_of_lt_of_le ih (Moment.tapes_size_le_step hstep)
  fits_steps {m m' given p} hm hsteps := by
    rintro ⟨rfl, hbegins, hle⟩
    have hgoes := hm.1.goes_steps hsteps hm.2
    exact ⟨rfl, hbegins.goes hgoes, Nat.le_trans hle hgoes.size_le⟩
  whole_steps hm hsteps hgave := hgave.goes (hm.1.goes_steps hsteps hm.2)
  next {given p w calls} hm hrest := by
    rintro ⟨rfl, hbegins, hle⟩ depth
    refine Act.Manages.bind (Reader.next_manages (Engine.ofBehavior_leads hB depth) hm.2
      (hrest t (by simp)) hle) ?_
    rintro ⟨x, r'⟩ v ⟨hr', hx, hended, hleads⟩
    dsimp only at hr' hx hended
    subst hr'
    have hbegins' := hbegins.goes (hm.1.goes_steps (hleads calls) hm.2)
    match x with
    | none => exact .of_run rfl (hbegins'.gave (hended rfl) hx)
    | some (.error e) => exact .of_run rfl trivial
    | some (.ok a) =>
      refine .of_run rfl ⟨?_, hbegins'.concat hx, ?_⟩
      · simp [Reader.past, Reader.advance, Nat.add_assoc]
      · rw [List.length_append, ← Nat.add_assoc]
        exact (Array.getElem?_eq_some_iff.mp hx).1

end MemoSeq
