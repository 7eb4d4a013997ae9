/-
  MemoSeq/Proofs/Pipeline/LazyEager.lean
  ======================================
  **Running a program lazily gives the replies of running it eagerly.**

  At each step the table of the lazy run and that of the eager run agree
  (`Agrees`): a sequence is as it should be and has the values of its list for a whole,
  and an iteration has promised the values that are left.  A query forces what it needs
  and changes no promise (`Query.run_perform`), and a new list is put behind all that
  there are, with a producer that promises its values (`Making.run_perform`).
-/
import MemoSeq.Proofs.Moments
import MemoSeq.Proofs.Pipeline.Production
import MemoSeq.Proofs.Pipeline.Program
import Mathlib.Data.Option.Basic

namespace MemoSeq.Pipeline

variable {H : Host} {B : Behavior H} {whole : Nat → List Value} {bound : Nat}
variable {w w' : World H} {n depth : Nat}

/-! ### Shelves side by side -/

structure Shelf.Rel {α β : Type} (R : α → β → Prop) (S : Shelf α) (S' : Shelf β) : Prop where
  fresh : S.fresh = S'.fresh
  things : ∀ k, Option.Rel R (S.things k) (S'.things k)

namespace Shelf.Rel

variable {α β : Type} {R R' : α → β → Prop} {S : Shelf α} {S' : Shelf β}

theorem mono (h : Rel R S S') (himp : ∀ x y, R x y → R' x y) : Rel R' S S' where
  fresh := h.fresh
  things k := by
    have hk := h.things k
    generalize S.things k = x, S'.things k = y at hk ⊢
    cases hk with
    | some hxy => exact .some (himp _ _ hxy)
    | none => exact .none

theorem put (h : Rel R S S') (k : Nat) {x : Option α} {y : Option β} (hxy : Option.Rel R x y) :
    Rel R (S.put k x) (S'.put k y) where
  fresh := h.fresh
  things j := by
    simp only [Shelf.put, Function.update_apply]
    split
    · exact hxy
    · exact h.things j

theorem add (h : Rel R S S') {x : α} {y : β} (hxy : R x y) : Rel R (S.add x) (S'.add y) where
  fresh := congrArg (· + 1) h.fresh
  things := by
    rw [Shelf.add, Shelf.add, h.fresh]
    exact (h.put S'.fresh (.some hxy)).things

end Shelf.Rel

/-- Related things stay related when each is made into another. -/
theorem map_rel {α β γ δ : Type} {R : α → β → Prop} {R' : γ → δ → Prop} {x : Option α}
    {y : Option β} (h : Option.Rel R x y) {f : α → γ} {g : β → δ}
    (hfg : ∀ a b, R a b → R' (f a) (g b)) : Option.Rel R' (x.map f) (y.map g) := by
  cases h with
  | some hab => exact .some (hfg _ _ hab)
  | none => exact .none

/-! ### Agreement -/

/-- A sequence that holds the values of a list, once it is forced. -/
structure Stands (whole : Nat → List Value) (w : World H) (s : Sequence) (l : Series) : Prop where
  lt : s.id < w.tapes.size
  values : whole s.id = l.values
  infinite : (w.sequence s).infinite = l.infinite

/-- What a lazy run has made and what an eager run has made. -/
structure Agrees (B : Behavior H) (whole : Nat → List Value) (bound : Nat) (w : World H)
    (T : Table Sequence Iteration) (T' : Table Series (List Value)) : Prop where
  modest : Modest whole bound
  keeps : w.Keeps B whole w.tapes.size w.tapes.size
  sizes : w.sequences.size = w.tapes.size
  lists : T.lists.Rel (Stands whole w) T'.lists
  iterations : T.iterations.Rel (fun i values => i.Promises whole w w.tapes.size values)
    T'.iterations

variable {T : Table Sequence Iteration} {T' : Table Series (List Value)}

theorem Stands.onward {s : Sequence} {l : Series} (h : Stands whole w s l)
    (honward : w.Onward B whole w.tapes.size w.tapes.size w') : Stands whole w' s l where
  lt := by
    rw [honward.tapesSize]
    exact h.lt
  values := h.values
  infinite := (honward.infinite s).trans h.infinite

/-- What forces only what was promised leaves the tables in agreement. -/
theorem Agrees.onward (h : Agrees B whole bound w T T')
    (honward : w.Onward B whole w.tapes.size w.tapes.size w') : Agrees B whole bound w' T T' where
  modest := h.modest
  keeps := by
    rw [honward.tapesSize]
    exact honward.keeps
  sizes := by
    rw [honward.tapesSize, honward.sequencesSize]
    exact h.sizes
  lists := h.lists.mono fun s l hs => hs.onward honward
  iterations := h.iterations.mono fun i values hi =>
    hi.mono (Nat.le_of_eq honward.tapesSize.symm) (fun _ _ => rfl) honward.grows

/-! ### New lists -/

def extended (whole : Nat → List Value) (n : Nat) (values : List Value) : Nat → List Value :=
  Function.update whole n values

theorem extended_of_lt {values : List Value} {k : Nat} (hk : k < n) :
    extended whole n values k = whole k := Function.update_of_ne (Nat.ne_of_lt hk) _ _

theorem extended_self {values : List Value} : extended whole n values n = values :=
  Function.update_self _ _ _

theorem modest_extended (h : Modest whole bound) {values : List Value}
    (hscalar : ∀ v ∈ values, v.asList? = none) (n : Nat) :
    Modest (extended whole n values) (bound + values.length) := by
  intro k
  by_cases heq : k = n
  · subst heq
    rw [extended_self]
    exact ⟨Nat.le_add_left _ _, hscalar⟩
  · rw [extended, Function.update_of_ne heq]
    exact ⟨Nat.le_trans (h k).1 (Nat.le_add_right _ _), (h k).2⟩

variable {p : Producer H} {values : List Value} {infinite : Bool}

theorem log_size_withSequence (p : Producer H) (infinite : Bool) (t : Tape) :
    (w.tape t).log.size ≤ ((w.withSequence p infinite).tape t).log.size := by
  rw [World.tape_withSequence]
  rcases Nat.lt_or_ge t.id w.tapes.size with hlt | hge
  · rw [World.tape_withTape_of_lt p hlt]
  · rw [World.tape, Array.getD, dif_neg (Nat.not_lt.mpr hge)]
    exact Nat.zero_le _

theorem keeps_withSequence (hw : w.Keeps B whole w.tapes.size w.tapes.size)
    (hsizes : w.sequences.size = w.tapes.size) (hp : p.Promises whole w w.tapes.size B values) :
    (w.withSequence p infinite).Keeps B (extended whole w.tapes.size values)
      (w.tapes.size + 1) (w.tapes.size + 1) := by
  have hwhole : ∀ k < w.tapes.size, extended whole w.tapes.size values k = whole k := by
    intro k hk
    exact extended_of_lt hk
  have hgrows := log_size_withSequence (w := w) p infinite
  refine ⟨hw.limit, ?_, ?_⟩
  · intro t ht
    rcases Nat.lt_succ_iff_lt_or_eq.mp ht with hlt | heq
    · exact (hw.tapes t hlt).congr (World.tape_withTape_of_lt p hlt)
        (fun k hk => hwhole k (Nat.lt_of_le_of_lt hk hlt)) hgrows
    · obtain rfl : t = w.freshTape := by
        cases t
        exact congrArg Tape.mk heq
      have hcell : (w.withSequence p infinite).tape w.freshTape = ⟨#[], .idle p⟩ :=
        World.tape_withTape_freshTape p
      constructor
      · rw [hcell]
        exact List.nil_prefix
      · rw [hcell]
        have hp' := hp.mono (Nat.le_refl _) hwhole hgrows
        change p.Promises _ _ w.tapes.size B (extended whole w.tapes.size values w.tapes.size)
        rwa [extended_self]
  · intro s hs
    rcases Nat.lt_succ_iff_lt_or_eq.mp hs with hlt | heq
    · rw [World.sequence_withSequence_of_lt p infinite (hsizes ▸ hlt), hwhole s.id hlt]
      exact (hw.sequences s hlt).mono (hgrows _)
    · obtain rfl : s = w.freshSequence := by
        cases s
        exact congrArg Sequence.mk (heq.trans hsizes.symm)
      rw [World.sequence_withSequence_freshSequence]
      refine ⟨rfl, rfl, List.nil_prefix, ?_, Nat.zero_le _⟩
      change (⟨⟨w.tapes.size⟩, 0⟩ : Reader) = ⟨⟨w.sequences.size⟩, 0⟩
      rw [hsizes]

/-- A list whose producer reads earlier lists goes behind all that there are. -/
theorem Agrees.withSequence (h : Agrees B whole bound w T T')
    (hp : p.Promises whole w w.tapes.size B values) (hscalar : ∀ v ∈ values, v.asList? = none)
    (infinite : Bool) :
    Agrees B (extended whole w.tapes.size values) (bound + values.length)
        (w.withSequence p infinite) T T' ∧
      Stands (extended whole w.tapes.size values) (w.withSequence p infinite) w.freshSequence
        ⟨values, infinite⟩ := by
  have hsize : (w.withSequence p infinite).tapes.size = w.tapes.size + 1 :=
    World.tapes_size_withSequence p infinite
  have hwhole : ∀ k < w.tapes.size, extended whole w.tapes.size values k = whole k := by
    intro k hk
    exact extended_of_lt hk
  constructor
  · constructor
    · exact modest_extended h.modest hscalar _
    · rw [hsize]
      exact keeps_withSequence h.keeps h.sizes hp
    · rw [hsize, World.sequences_size_withSequence, h.sizes]
    · refine h.lists.mono fun s l hs => ⟨?_, ?_, ?_⟩
      · rw [hsize]
        exact Nat.lt_succ_of_lt hs.lt
      · rw [hwhole s.id hs.lt]
        exact hs.values
      · rw [World.sequence_withSequence_of_lt p infinite (h.sizes ▸ hs.lt)]
        exact hs.infinite
    · refine h.iterations.mono fun i rest hi => hi.mono ?_ hwhole (log_size_withSequence p infinite)
      rw [hsize]
      exact Nat.le_succ _
  · constructor
    · rw [hsize]
      change w.sequences.size < _
      rw [h.sizes]
      exact Nat.lt_succ_self _
    · change extended whole w.tapes.size values w.sequences.size = values
      rw [h.sizes, extended_self]
    · rw [World.sequence_withSequence_freshSequence]

/-! ### Queries -/

section Queries

variable (hmodest : Modest whole bound) (hdepth : n + bound + 2 ≤ depth)
variable (hw : w.Keeps B whole n n)

include hmodest hdepth hw

/-- A search along an iteration finds what is among the values that it has promised. -/
theorem run_scan {i : Iteration} {values : List Value} (h : i.Promises whole w n values)
    (target : Value) {rounds : Nat} (hrounds : values.length < rounds) :
    ∃ w', (Sequence.scan (.ofBehavior B depth) target rounds i).run.run w =
        .ok (.ok (Plain.contains values target), w') ∧ w.Onward B whole n n w' := by
  induction values generalizing w i rounds with
  | nil =>
    obtain ⟨rounds, rfl⟩ : ∃ k, rounds = k + 1 := ⟨rounds - 1, by omega⟩
    obtain ⟨i', w', hrun, honward, -⟩ := h.next (fun t _ => Reader.served hmodest t) hdepth hw
    refine ⟨w', ?_, honward⟩
    rw [Sequence.scan, Attempt.run_bind_lift, Act.run_bind_of_eq hrun]
    rfl
  | cons v values ih =>
    obtain ⟨rounds, rfl⟩ : ∃ k, rounds = k + 1 := ⟨rounds - 1, by omega⟩
    obtain ⟨i', u, hrun, honward, hi'⟩ :=
      h.next (fun t _ => Reader.served hmodest t) hdepth hw
    obtain ⟨k, -, hpart⟩ := h.part
    have hscalar := (hmodest k).2 v (hpart.subset List.mem_cons_self)
    rw [Sequence.scan, Attempt.run_bind_lift, Act.run_bind_of_eq hrun]
    simp only [List.head?_cons, Option.map_some]
    have hsame : (v.same (.ofBehavior B depth) target).run u =
        .ok (v.sameScalar target, u) := by
      rw [Value.same_of_scalar hscalar]
      rfl
    rw [Attempt.run_bind_lift, Act.run_bind_of_eq hsame, Plain.contains, List.any_cons]
    cases v.sameScalar target with
    | true => exact ⟨u, rfl, honward⟩
    | false =>
      obtain ⟨w', hrest, honward'⟩ := ih honward.keeps hi' (Nat.lt_of_succ_lt_succ hrounds)
      exact ⟨w', hrest, honward.trans honward'⟩

/-- An iteration that is driven to its end gives all that it has promised. -/
theorem run_exhaust {i : Iteration} {values : List Value} (h : i.Promises whole w n values)
    {rounds : Nat} (hrounds : values.length < rounds) :
    ∃ i' w', (exhaust (.ofBehavior B depth) rounds i).run w =
        .ok ((values.map .ok, i'), w') ∧
      w.Onward B whole n n w' ∧ i'.Promises whole w' n [] := by
  induction values generalizing w i rounds with
  | nil =>
    obtain ⟨rounds, rfl⟩ : ∃ k, rounds = k + 1 := ⟨rounds - 1, by omega⟩
    obtain ⟨i', w', hrun, honward, hi'⟩ :=
      h.next (fun t _ => Reader.served hmodest t) hdepth hw
    refine ⟨i', w', ?_, honward, hi'⟩
    rw [exhaust, Act.run_bind_of_eq hrun]
    rfl
  | cons v values ih =>
    obtain ⟨rounds, rfl⟩ : ∃ k, rounds = k + 1 := ⟨rounds - 1, by omega⟩
    obtain ⟨i', u, hrun, honward, hi'⟩ :=
      h.next (fun t _ => Reader.served hmodest t) hdepth hw
    obtain ⟨i'', w', hrest, honward', hi''⟩ :=
      ih honward.keeps hi' (Nat.lt_of_succ_lt_succ hrounds)
    refine ⟨i'', w', ?_, honward.trans honward', hi''⟩
    rw [exhaust, Act.run_bind_of_eq hrun]
    exact Act.run_bind_of_eq hrest

theorem Drive.run_perform {i : Iteration} {values : List Value}
    (h : i.Promises whole w n values) (d : Drive) :
    ∃ i' w', (d.perform (.ofBehavior B depth) i).run w = .ok (((d.plain values).1, i'), w') ∧
      w.Onward B whole n n w' ∧ i'.Promises whole w' n (d.plain values).2 := by
  cases d with
  | next =>
    obtain ⟨i', w', hrun, hrest⟩ := h.next (fun t _ => Reader.served hmodest t) hdepth hw
    exact ⟨i', w', Act.run_bind_of_eq hrun, hrest⟩
  | collect =>
    obtain ⟨k, -, hpart⟩ := h.part
    have hrounds : values.length < (Engine.ofBehavior B depth).fuel :=
      Nat.lt_of_le_of_lt hpart.length_le (hmodest.lt_fuel (show bound + 2 ≤ depth by omega) k)
    obtain ⟨i', w', hrun, hrest⟩ := run_exhaust hmodest hdepth hw h hrounds
    exact ⟨i', w', Act.run_bind_of_eq hrun, hrest⟩

theorem Query.run_perform {s : Sequence} (hs : s.id < n) {l : Series}
    (hvalues : whole s.id = l.values) (hinfinite : (w.sequence s).infinite = l.infinite)
    (q : Query) :
    ∃ w', (q.perform (.ofBehavior B depth) s).run.run w = .ok (.ok (q.plain l), w') ∧
      w.Onward B whole n n w' := by
  have hunfolds :=
    World.Keeps.unfolds (B := B) (w := w) (fun t _ => Reader.served hmodest t) hdepth hs
  have hfuel := hmodest.lt_fuel (B := B) (show bound + 2 ≤ depth by omega) s.id
  have hscalar := (hmodest s.id).2
  have hstart : w.Onward B whole n n w := .refl hw
  rw [hvalues] at hunfolds hfuel hscalar
  -- whatever is asked forces the list as far as needed, and what it unfolds to answers
  cases q with
  | advance =>
    obtain ⟨w', hrun, hw', -⟩ := hunfolds.advance w hstart
    exact ⟨w', Attempt.run_bind_of_ok hrun, hw'⟩
  | read index =>
    obtain ⟨w', hrun, hw'⟩ := hunfolds.run_read hw.limit hfuel hstart index
    exact ⟨w', Attempt.run_bind_of_ok hrun, hw'⟩
  | slice start stop step =>
    obtain ⟨w', hrun, hw'⟩ :=
      hunfolds.run_slice (fun u hu => hu.keeps.limit) hfuel start stop step hstart
    exact ⟨w', Attempt.run_bind_of_ok hrun, hw'⟩
  | length =>
    obtain ⟨w', hrun, hw'⟩ := hunfolds.run_length hw.limit hfuel hstart
    exact ⟨w', Attempt.run_bind_of_ok hrun, hw'⟩
  | count target =>
    obtain ⟨w', hrun, hw'⟩ := hunfolds.run_count hw.limit hfuel hstart hscalar target
    exact ⟨w', Attempt.run_bind_of_ok hrun, hw'⟩
  | materialize =>
    obtain ⟨w', hrun, hw'⟩ := hunfolds.run_materialize hw.limit hfuel hstart
    exact ⟨w', Attempt.run_bind_of_ok hrun, hw'⟩
  | contains target =>
    rw [Query.perform, Attempt.run_bind_of_ok (a := get) rfl, Query.plain, hinfinite]
    cases hword : l.infinite with
    | true => exact ⟨w, rfl, hstart⟩
    | false =>
      -- the search is along a fresh iteration
      have hpromises := hw.iteration hs
      rw [hvalues] at hpromises
      obtain ⟨w', hrun, hw'⟩ := run_scan hmodest hdepth hw hpromises target hfuel
      refine ⟨w', ?_, hw'⟩
      have hcontains : (s.contains (.ofBehavior B depth) target).run.run w =
          .ok (.ok (Plain.contains l.values target), w') := by
        rw [Sequence.contains, Attempt.run_bind_of_ok (a := get) rfl]
        simp only [hinfinite, hword, Bool.false_eq_true, if_false]
        exact hrun
      exact Attempt.run_bind_of_ok hcontains

end Queries

/-! ### Making lists -/

/-- An attempt that comes to a list with these values, behind all that there are or one of
    them. -/
def Comes (B : Behavior H) (bound : Nat) (w : World H) (T : Table Sequence Iteration)
    (T' : Table Series (List Value)) (act : Attempt H Sequence) (l : Series) : Prop :=
  ∃ s w' whole', act.run.run w = .ok (.ok s, w') ∧ w'.tapes.size ≤ w.tapes.size + 1 ∧
    Agrees B whole' (bound + l.values.length) w' T T' ∧ Stands whole' w' s l

theorem Agrees.adopt (h : Agrees B whole bound w T T')
    (hp : p.Promises whole w w.tapes.size B values) (hscalar : ∀ v ∈ values, v.asList? = none)
    (infinite : Bool) :
    Comes B bound w T T' (Sequence.adopt (H := H) p infinite) ⟨values, infinite⟩ := by
  obtain ⟨hagrees, hstands⟩ := h.withSequence hp hscalar infinite
  exact ⟨w.freshSequence, w.withSequence p infinite, _, rfl,
    Nat.le_of_eq (World.tapes_size_withSequence p infinite), hagrees, hstands⟩

theorem Comes.bind {α : Type} {a : Attempt H α} {f : α → Attempt H Sequence} {x : α} {u : World H}
    {l : Series} (hrun : a.run.run w = .ok (.ok x, u)) (hsize : u.tapes.size = w.tapes.size)
    (h : Comes B bound u T T' (f x) l) : Comes B bound w T T' (a >>= f) l := by
  obtain ⟨s, w', whole', hf, hgrows, hrest⟩ := h
  rw [hsize] at hgrows
  exact ⟨s, w', whole', (Attempt.run_bind_of_ok hrun).trans hf, hgrows, hrest⟩

theorem Comes.congr {act act' : Attempt H Sequence} {l : Series}
    (hrun : act.run.run w = act'.run.run w) (h : Comes B bound w T T' act' l) :
    Comes B bound w T T' act l := by
  obtain ⟨s, w', whole', hact, hrest⟩ := h
  exact ⟨s, w', whole', hrun.trans hact, hrest⟩

theorem Agrees.adoptValues (h : Agrees B whole bound w T T') {values : List Value}
    (hscalar : ∀ v ∈ values, v.asList? = none) :
    Comes B bound w T T' (Sequence.ofValues (H := H) values) ⟨values, false⟩ :=
  h.adopt (.fixed _ _ (Producer.delivers_values values)) hscalar false

section Makings

variable {s s' : Sequence} {l l' : Series}

theorem Agrees.scalar (h : Agrees B whole bound w T T') (hs : Stands whole w s l) :
    ∀ v ∈ l.values, v.asList? = none := by
  intro v hv
  rw [← hs.values] at hv
  exact (h.modest s.id).2 v hv

theorem Agrees.share (h : Agrees B whole bound w T T') (hs : Stands whole w s l) :
    Comes B bound w T T' (return s) l := by
  have hmodest : Modest whole (bound + l.values.length) := by
    intro k
    exact ⟨Nat.le_trans (h.modest k).1 (Nat.le_add_right _ _), (h.modest k).2⟩
  exact ⟨s, w, whole, rfl, Nat.le_succ _,
    ⟨hmodest, h.keeps, h.sizes, h.lists, h.iterations⟩, hs⟩

theorem Agrees.filter (h : Agrees B whole bound w T T') (hs : Stands whole w s l)
    (c : Criterion B) :
    Comes B bound w T T' (Sequence.filter (H := H) s c.test)
      ⟨l.values.filter c.holds, l.infinite⟩ := by
  have hp : (Producer.filtered c.test (.pending s)).Promises whole w w.tapes.size B
      (l.values.filter c.holds) := by
    rw [← hs.values]
    exact .filtered c.test c.holds (.pending s) _ c.decides (.pending s hs.lt)
  have hscalar : ∀ v ∈ l.values.filter c.holds, v.asList? = none := by
    intro v hv
    exact h.scalar hs v (List.mem_filter.mp hv).1
  refine (h.adopt hp hscalar l.infinite).congr ?_
  rw [← hs.infinite]
  rfl

theorem Agrees.append (h : Agrees B whole bound w T T') (hs : Stands whole w s l)
    (hs' : Stands whole w s' l') :
    Comes B bound w T T' (Sequence.append (H := H) s s')
      ⟨l.values ++ l'.values, l.infinite || l'.infinite⟩ := by
  have hp : (Producer.joined (some (w.iteration s)) (.pending s')).Promises whole w
      w.tapes.size B (l.values ++ l'.values) := by
    rw [← hs.values, ← hs'.values]
    exact .joinedLeft _ _ _ _ (h.keeps.iteration hs.lt) (.pending s' hs'.lt)
  have hscalar : ∀ v ∈ l.values ++ l'.values, v.asList? = none := by
    intro v hv
    rcases List.mem_append.mp hv with hv | hv
    · exact h.scalar hs v hv
    · exact h.scalar hs' v hv
  refine (h.adopt hp hscalar (l.infinite || l'.infinite)).congr ?_
  rw [← hs.infinite, ← hs'.infinite]
  rfl

theorem Agrees.reverse (h : Agrees B whole bound w T T')
    (hdepth : w.tapes.size + bound + 2 ≤ depth) (hs : Stands whole w s l) :
    Comes B bound w T T' (s.reverse (.ofBehavior B depth)) ⟨l.values.reverse, false⟩ := by
  obtain ⟨u, hrun, honward⟩ := Sequence.run_materialize_of_keeps h.modest
    (fun t _ => Reader.served h.modest t) hdepth h.keeps hs.lt
  rw [hs.values] at hrun
  have hscalar : ∀ v ∈ l.values.reverse, v.asList? = none := by
    intro v hv
    exact h.scalar hs v (List.mem_reverse.mp hv)
  exact .bind hrun honward.tapesSize ((h.onward honward).adoptValues hscalar)

/-- A slice without a stop is produced when it is forced, one with a stop at once. -/
theorem Agrees.slice (h : Agrees B whole bound w T T')
    (hdepth : w.tapes.size + bound + 2 ≤ depth) (hs : Stands whole w s l)
    (start stop step : Option Int) :
    Comes B bound w T T'
      (do
        let sliced ← s.slice (.ofBehavior B depth) start stop step
        Slice.toSequence (H := H) sliced)
      ⟨Plain.slice l.values start stop step, false⟩ := by
  have hscalar : ∀ v ∈ Plain.slice l.values start stop step, v.asList? = none := by
    intro v hv
    rcases Plain.mem_or_zero_of_mem_slice hv with hmem | rfl
    · exact h.scalar hs v hmem
    · rfl
  cases stop with
  | none =>
    have hp : (Producer.strided (start.getD 0) (Plain.stepOf step) (.pending s)).Promises whole
        w w.tapes.size B (Plain.slice l.values start none step) := by
      rw [← hs.values]
      exact .striding _ _ s hs.lt (Plain.stepOf_ne_zero step)
    refine (h.adopt hp hscalar false).congr ?_
    rw [Sequence.slice_eq]
    rfl
  | some stop =>
    have hunfolds := World.Keeps.unfolds (B := B) (w := w) (fun t _ => Reader.served h.modest t)
      hdepth hs.lt
    have hfuel := h.modest.lt_fuel (B := B) (show bound + 2 ≤ depth by omega) s.id
    rw [hs.values] at hunfolds hfuel
    obtain ⟨u, hrun, honward⟩ := hunfolds.run_slice (fun u hu => hu.keeps.limit) hfuel start stop
      step (.refl h.keeps)
    exact .bind hrun honward.tapesSize ((h.onward honward).adoptValues hscalar)

end Makings

/-- Each list comes to what the plain functions make of the values that it is made from. -/
theorem Making.run_perform (h : Agrees B whole bound w T T')
    (hdepth : w.tapes.size + bound + 2 ≤ depth) (m : Making B) :
    Option.Rel (Comes B bound w T T') (m.perform (.ofBehavior B depth) T.lists)
      (m.plain T'.lists) := by
  cases m with
  | source f => exact .some (h.adopt (.fixed _ _ f.delivers) f.scalars f.infinite)
  | share a =>
    have hshared := map_rel (h.lists.things a) (f := fun s => (return s : Attempt H Sequence))
      (g := id) fun s l hs => h.share hs
    rwa [Option.map_id] at hshared
  | filter a c => exact map_rel (h.lists.things a) fun s l hs => h.filter hs c
  | append a b =>
    have ha := h.lists.things a
    have hb := h.lists.things b
    simp only [Making.perform, Making.plain]
    generalize T.lists.things a = x, T'.lists.things a = y at ha ⊢
    generalize T.lists.things b = x', T'.lists.things b = y' at hb ⊢
    cases ha with
    | none => exact .none
    | some hs =>
      cases hb with
      | none => exact .none
      | some hs' => exact .some (h.append hs hs')
  | reverse a => exact map_rel (h.lists.things a) fun s l hs => h.reverse hdepth hs
  | slice a start stop step =>
    exact map_rel (h.lists.things a) fun s l hs => h.slice hdepth hs start stop step

/-! ### Steps and programs -/

def Step.added (T' : Table Series (List Value)) : Step B → Nat
  | .make m => ((m.plain T'.lists).map (·.values.length)).getD 0
  | _ => 0

/-- A step gets the same reply lazily and eagerly and leaves the tables in agreement. -/
theorem Step.run_perform (h : Agrees B whole bound w T T')
    (hdepth : w.tapes.size + bound + 2 ≤ depth) (step : Step B) :
    ∃ T₁ w₁ whole₁, (step.perform (.ofBehavior B depth) T).run.run w =
        .ok (.ok ((step.plain T').1, T₁), w₁) ∧
      w₁.tapes.size ≤ w.tapes.size + 1 ∧
      Agrees B whole₁ (bound + step.added T') w₁ T₁ (step.plain T').2 := by
  -- a new list or iteration gets the same name on both sides, as equally many have been made
  cases step with
  | make m =>
    have hmade := Making.run_perform h hdepth m
    simp only [Step.perform, Step.plain, Step.added]
    generalize m.perform (.ofBehavior B depth) T.lists = x, m.plain T'.lists = y at hmade ⊢
    cases hmade with
    | none => exact ⟨T, w, whole, rfl, Nat.le_succ _, h⟩
    | some hcomes =>
      obtain ⟨s, w₁, whole₁, hrun, hgrows, hagrees, hs⟩ := hcomes
      refine ⟨{ T with lists := T.lists.add s }, w₁, whole₁, ?_, hgrows, hagrees.modest,
        hagrees.keeps, hagrees.sizes, hagrees.lists.add hs, hagrees.iterations⟩
      rw [← h.lists.fresh]
      exact Attempt.run_bind_of_ok hrun
  | ask a q =>
    have hlist := h.lists.things a
    simp only [Step.perform, Step.plain]
    generalize T.lists.things a = x, T'.lists.things a = y at hlist ⊢
    cases hlist with
    | none => exact ⟨T, w, whole, rfl, Nat.le_succ _, h⟩
    | some hs =>
      obtain ⟨w₁, hrun, honward⟩ :=
        Query.run_perform h.modest hdepth h.keeps hs.lt hs.values hs.infinite q
      exact ⟨T, w₁, whole, Attempt.run_bind_of_ok hrun,
        Nat.le_trans (Nat.le_of_eq honward.tapesSize) (Nat.le_succ _), h.onward honward⟩
  | drop a =>
    exact ⟨_, w, whole, rfl, Nat.le_succ _, h.modest, h.keeps, h.sizes, h.lists.put a .none,
      h.iterations⟩
  | iterate a =>
    have hlist := h.lists.things a
    simp only [Step.perform, Step.plain]
    generalize T.lists.things a = x, T'.lists.things a = y at hlist ⊢
    cases hlist with
    | none => exact ⟨T, w, whole, rfl, Nat.le_succ _, h⟩
    | @some s l hs =>
      have hi : (w.iteration s).Promises whole w w.tapes.size l.values := by
        rw [← hs.values]
        exact h.keeps.iteration hs.lt
      refine ⟨{ T with iterations := T.iterations.add (w.iteration s) }, w, whole, ?_,
        Nat.le_succ _, h.modest, h.keeps, h.sizes, h.lists, h.iterations.add hi⟩
      rw [← h.iterations.fresh]
      rfl
  | drive k d =>
    have hiteration := h.iterations.things k
    simp only [Step.perform, Step.plain]
    generalize T.iterations.things k = x, T'.iterations.things k = y at hiteration ⊢
    cases hiteration with
    | none => exact ⟨T, w, whole, rfl, Nat.le_succ _, h⟩
    | some hi =>
      obtain ⟨i', w₁, hrun, honward, hi'⟩ := d.run_perform h.modest hdepth h.keeps hi
      rw [← honward.tapesSize] at hi'
      have h' := h.onward honward
      refine ⟨{ T with iterations := T.iterations.put k (some i') }, w₁, whole, ?_,
        Nat.le_trans (Nat.le_of_eq honward.tapesSize) (Nat.le_succ _), h'.modest, h'.keeps,
        h'.sizes, h'.lists, h'.iterations.put k (.some hi')⟩
      rw [Attempt.run_bind_lift]
      exact Act.run_bind_of_eq hrun
  | close k =>
    exact ⟨_, w, whole, rfl, Nat.le_succ _, h.modest, h.keeps, h.sizes, h.lists,
      h.iterations.put k .none⟩

/-- How far down the engine must reach for a program: the more lists it makes and the
    longer they are, the farther. -/
def enough : List (Step B) → Table Series (List Value) → Nat → Nat → Nat
  | [], _, _, _ => 0
  | step :: program, T', lists, bound =>
    max (lists + bound + 2)
      (enough program (step.plain T').2 (lists + 1) (bound + step.added T'))

theorem run_performAll (program : List (Step B)) (h : Agrees B whole bound w T T') {lists : Nat}
    (hlists : w.tapes.size ≤ lists) (hdepth : enough program T' lists bound ≤ depth) :
    ∃ w', (performAll (.ofBehavior B depth) program T).run.run w =
      .ok (.ok (plainAll program T'), w') := by
  induction program generalizing w T T' whole bound lists with
  | nil => exact ⟨w, rfl⟩
  | cons step program ih =>
    obtain ⟨hhere, hrest⟩ := Nat.max_le.mp hdepth
    have hreach : w.tapes.size + bound + 2 ≤ depth := by omega
    obtain ⟨T₁, w₁, whole₁, hrun, hgrows, h₁⟩ := step.run_perform h hreach
    obtain ⟨w', hprogram⟩ := ih h₁ (Nat.le_trans hgrows (Nat.succ_le_succ hlists)) hrest
    refine ⟨w', ?_⟩
    rw [performAll, Attempt.run_bind_of_ok hrun]
    exact Attempt.run_bind_of_ok hprogram

/-- Whatever lists a program makes, and in whatever order it forces them, it gets the
    replies that it would get from plain lists, provided that the engine reaches down far
    enough. -/
theorem lazy_eq_eager (B : Behavior H) (program : List (Step B)) (host : H.State) :
    ∃ enough, ∀ depth ≥ enough, ∃ w,
      (performAll (.ofBehavior B depth) program .empty).run.run (.initial host) =
        .ok (.ok (plainAll program .empty), w) := by
  refine ⟨enough program .empty 0 0, ?_⟩
  intro depth hdepth
  have hstart : Agrees B (fun _ => []) 0 (.initial host) .empty .empty := by
    refine ⟨?_, ⟨rfl, ?_, ?_⟩, rfl, ⟨rfl, fun k => .none⟩, ⟨rfl, fun k => .none⟩⟩
    · intro k
      refine ⟨Nat.le_refl _, ?_⟩
      intro v hv
      cases hv
    · intro t ht
      cases ht
    · intro s hs
      cases hs
  exact run_performAll program hstart (Nat.le_refl _) hdepth

end MemoSeq.Pipeline
