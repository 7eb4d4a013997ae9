/-
  MemoSeq/Proofs/Session/Reduced.lean
  ===================================
  **Whatever a session stores or answers is in lowest terms.**

  Values come into a session by many ways: as terms of every kind, from scripts, from
  JSON texts and from the host's own types, as slices, filtered or put into a list by
  overwriting.  Each way gives a canonical value, or hands on one that is stored already.
  So there is a custody of the values in lowest terms (`reducedValue`), and every step
  keeps to it, in hooks and through failures.

  The caches of sequences, the logs of tapes and what is left of an iteration are where a
  world stores values, and so is what a producer at rest still has to give
  (`World.Stores`).  A course through worlds of which something holds is made of all
  moments of a run, so also of those within the calls of producers
  (`Moment.CourseThrough`).
-/
import MemoSeq.Proofs.Session.Custody

namespace MemoSeq

/-! ### Values in lowest terms -/

namespace Value

def Reduced : Value → Prop
  | .int _ | .str _ | .list _ => True
  | .rational r => 2 ≤ r.den ∧ r.num.natAbs.Coprime r.den

theorem reduced_iff_canonical {v : Value} : v.Reduced ↔ v.Canonical := by
  cases v with
  | int | str | list => exact Iff.rfl
  | rational r =>
    have hpos := r.den_pos
    constructor
    · intro h hone
      exact absurd h.1 (by omega)
    · intro h
      have hone : r.den ≠ 1 := h
      exact ⟨by omega, r.reduced⟩

variable {u v : Value}

/-- A whole number is never the size of a rational that is not whole. -/
theorem int_ne_of_two_le_den (n : Int) {r : Rat} (h : 2 ≤ r.den) : (n : Rat) ≠ r := by
  rintro rfl
  rw [Rat.den_intCast] at h
  omega

/-- Numbers in lowest terms are of the same size only if they are the same. -/
theorem sameScalar_of_reduced (hu : u.Reduced) (hv : v.Reduced) (hnumber : u.isNumber)
    (hnumber' : v.isNumber) : u.sameScalar v = decide (u = v) := by
  cases u with
  | str | list => cases hnumber
  | int m =>
    cases v with
    | str | list => cases hnumber'
    | int n => exact Bool.eq_iff_iff.mpr (by simp [sameScalar, asRat?])
    | rational r => simp [sameScalar, asRat?, int_ne_of_two_le_den m hv.1]
  | rational r =>
    cases v with
    | str | list => cases hnumber'
    | int n => simp [sameScalar, asRat?, (int_ne_of_two_le_den n hu.1).symm]
    | rational q => exact Bool.eq_iff_iff.mpr (by simp [sameScalar, asRat?])

theorem run_same_of_reduced {H : Host} (E : Engine H) (w : World H) (hu : u.Reduced)
    (hv : v.Reduced) (hnumber : u.isNumber) (hnumber' : v.isNumber) :
    (u.same E v).run w = .ok (decide (u = v), w) := by
  rw [← sameScalar_of_reduced hu hv hnumber hnumber']
  cases u with
  | list => cases hnumber
  | int | rational | str => rfl

end Value

/-! ### Where values are stored -/

/-- An external value brings a value along. -/
inductive External.Brings {ι : Type} (v : Value) : External ι → Prop
  | value : Brings v (.value v)
  | items {items : List (External ι)} {x : External ι} :
      x ∈ items → Brings v x → Brings v (.items items)

/-- A producer has a value at hand, which it may still give or look at. -/
inductive Producer.Carries {H : Host} (v : Value) : Producer H → Prop
  | container {items : List (External H.Source)} {x : External H.Source} :
      x ∈ items → x.Brings v → Carries v (.container items)
  | values {items : List Value} : v ∈ items → Carries v (.values items)
  | filtered {test : H.Test} {i : Iteration} :
      v ∈ i.cached → Carries v (.filtered test (.opened i))
  | joined {i : Iteration} {right : Deferred Sequence Iteration} :
      v ∈ i.cached → Carries v (.joined (some i) right)
  | joinedTo {left : Option Iteration} {i : Iteration} :
      v ∈ i.cached → Carries v (.joined left (.opened i))
  | strided {start step : Int} {rest : List Value} :
      v ∈ rest → Carries v (.strided start step (.opened rest))

/-- A value is in the cache of a sequence, on a tape, with a producer at rest, or due in an
    iteration. -/
inductive World.Stores (w : World Session.host) (v : Value) : Prop
  | cached (s : Sequence) (i : Nat) : (w.sequence s).cache[i]? = some v → Stores w v
  | logged (t : Tape) (i : Nat) : (w.tape t).log[i]? = some (.ok v) → Stores w v
  | carried (t : Tape) (p : Producer Session.host) :
      (w.tape t).phase = .idle p → p.Carries v → Stores w v
  | due (name : String) (i : Iteration) :
      w.host.iterations.find? name = some i → v ∈ i.cached → Stores w v

/-- All that a world stores is in lowest terms. -/
def World.Reduced (w : World Session.host) : Prop := ∀ v, w.Stores v → v.Reduced

/-! ### What is stored in custody -/

namespace Custody

variable {H : Host} {C : Custody H} {w : World H} {v : Value}

theorem External.admits {x : MemoSeq.External H.Source} (hx : C.External x) (hv : x.Brings v) :
    C.admits v := by
  induction hv with
  | value =>
    cases hx with
    | value _ h => exact h
  | items hmem _ ih =>
    cases hx with
    | items _ h => exact ih (h _ hmem)

theorem Producer.admits {p : MemoSeq.Producer H} (hp : C.Producer w p) (hv : p.Carries v) :
    C.admits v := by
  cases hv with
  | container hmem hbrings => exact External.admits (hp _ hmem) hbrings
  | values hmem => exact hp v hmem
  | filtered hmem => exact hp.2.cached v hmem
  | joined hmem => exact (hp.1 _ rfl).cached v hmem
  | joinedTo hmem => exact hp.2.cached v hmem
  | strided hmem => exact hp v hmem

end Custody

/-! ### Courses through worlds -/

/-- A course through worlds with a property, the first and the last among them. -/
inductive Moment.CourseThrough {H : Host} (P : World H → Prop) (m : Moment H) :
    List (Deed H) → Moment H → Prop
  | here : P m.world → CourseThrough P m [] m
  | next {past : List (Deed H)} {m' m'' : Moment H} {d : Deed H} :
      CourseThrough P m past m' → m'.Does d m'' → P m''.world → CourseThrough P m (d :: past) m''

theorem Custody.Course.through {H : Host} {C : Custody H} {P : World H → Prop}
    {σ σ' : Scene H} {past : List (Deed H)} (h : C.Course σ past σ') (hσ : C.Holds σ.world)
    (hP : ∀ w, C.Holds w → P w) : σ.moment.CourseThrough P past σ'.moment := by
  induction h with
  | here => exact .here (hP _ hσ)
  | next _ hdoes hstands _ hholds ih => exact ih.next (hdoes.does hstands) (hP _ hholds)

namespace Session

/-- What is in lowest terms may be held. -/
def reducedValue : Admission where
  admits := Value.Reduced
  since := 0
  int _ := trivial
  str _ := trivial
  ofRat r := Value.reduced_iff_canonical.mpr (Value.canonical_ofRat r)
  made _ _ := trivial

theorem reduced_of_holds {w : World host} (hw : (custody reducedValue).Holds w) :
    w.Reduced := by
  intro v hv
  cases hv with
  | cached s i h => exact hw.cached s i v h
  | logged t i h => exact hw.logged t i v h
  | carried t p hphase h => exact Custody.Producer.admits (hw.idle t p hphase) h
  | due name i hfind h => exact (hw.host.iterations.find? hfind).cached v h

/-! ### Sessions -/

/-- A transcript reports on the steps before the one that was aborted, if one was. -/
theorem transcript?_eq_some {E : Engine host} {w : World host} {steps : List Step}
    {t : Transcript} (h : transcript? E w steps = some t) :
    ∃ w', ((steps.take t.reports.length).mapM (step E)).run w = .ok (t.reports, w') := by
  induction steps generalizing w t with
  | nil =>
    cases h
    exact ⟨w, rfl⟩
  | cons s rest ih =>
    rw [transcript?] at h
    split at h
    case h_1 r w₁ hstep =>
      obtain ⟨t', hrest, rfl⟩ := Option.map_eq_some_iff.mp h
      obtain ⟨w', hrun⟩ := ih hrest
      refine ⟨w', ?_⟩
      simp only [List.length_cons, List.take_succ_cons, List.mapM_cons]
      rw [Act.run_bind_of_eq hstep, Act.run_bind_of_eq hrun]
      rfl
    case h_2 =>
      cases h
      exact ⟨w, rfl⟩
    case h_3 => cases h

theorem courseThrough_reduced {depth : Nat} {steps : List Step} {reports : List Report}
    {w : World host}
    (hrun : (steps.mapM (step (engine depth))).run start = .ok (reports, w)) :
    (∃ past, Moment.CourseThrough World.Reduced ⟨start, []⟩ past ⟨w, []⟩) ∧
      ∀ r ∈ reports, r.All Value.Reduced := by
  have hstart : (custody reducedValue).Holds start := start_holds rfl
  obtain ⟨hleads, hreports⟩ := mapM_step_keeps hstart depth steps hrun
  obtain ⟨past, hpast, -⟩ := hleads.course []
  exact ⟨⟨past, hpast.through hstart fun _ => reduced_of_holds⟩, hreports⟩

/-- Whatever steps a session takes until it ends or is aborted, it goes through worlds that
    store nothing but values in lowest terms, and every value that it answers with, at the top
    level and in hooks, is in lowest terms.  Two numbers in lowest terms, such as any two that
    are stored, are equal exactly when they are the same in kind and components. -/
theorem stays_reduced {depth : Nat} {session : List Step} {t : Transcript}
    (ht : run? depth session = some t) :
    (∃ w past,
      ((session.take t.reports.length).mapM (step (engine depth))).run start =
        .ok (t.reports, w) ∧
      Moment.CourseThrough World.Reduced ⟨start, []⟩ past ⟨w, []⟩) ∧
    (∀ r ∈ t.reports, r.All Value.Reduced) ∧
    ∀ (E : Engine host) (w : World host) (u v : Value), u.Reduced → v.Reduced →
      u.isNumber → v.isNumber → (u.same E v).run w = .ok (decide (u = v), w) := by
  obtain ⟨w, hrun⟩ := transcript?_eq_some ht
  obtain ⟨⟨past, hpast⟩, hreports⟩ := courseThrough_reduced hrun
  exact ⟨⟨w, past, hrun, hpast⟩, hreports, fun E w u v => Value.run_same_of_reduced E w⟩

/-- A hook puts a number into another list, as a rational although it is whole.  The last step
    is aborted. -/
def hookedSession : List Step :=
  [.newValues "a" [.rational (mkRat 3 2), .rational (mkRat 5 2)],
    .newScripted "b" (.once [.hook [.set "a" 0 (.rational (mkRat 6 2)), .get "a" 0 none]
      (.term (.rational (mkRat 6 4)))]) false 0 false,
    .iterate "b" "i", .take "i" 2, .ratio 1 0]

theorem stays_reduced_hooked :
    ∃ t w past,
      run? 6 hookedSession = some t ∧ t.aborted = true ∧
      ((hookedSession.take 4).mapM (step (engine 6))).run start = .ok (t.reports, w) ∧
      (w.sequence ⟨0⟩).cache = #[.int 3] ∧
      Moment.CourseThrough World.Reduced ⟨start, []⟩ past ⟨w, []⟩ ∧
      (∀ r ∈ t.reports, r.All Value.Reduced) ∧
      ((Value.int 3).same (engine 6) (.rational (mkRat 3 2))).run w = .ok (false, w) := by
  have hseen : (run? 6 hookedSession).map (fun t => (t.aborted, t.reports.length)) =
      some (true, 4) := by decide +kernel
  have hcache : (((hookedSession.take 4).mapM (step (engine 6))).run start).toOption.map
      (fun x => (x.2.sequence ⟨0⟩).cache) = some #[.int 3] := by decide +kernel
  obtain ⟨t, ht, hseen⟩ := Option.map_eq_some_iff.mp hseen
  obtain ⟨haborted, hlength⟩ := Prod.mk.inj hseen
  obtain ⟨⟨w, past, hrun, hpast⟩, hreports, hsame⟩ := stays_reduced ht
  rw [hlength] at hrun
  rw [hrun] at hcache
  have hhalves : (Value.rational (mkRat 3 2)).Reduced := ⟨by decide, by decide⟩
  exact ⟨t, w, past, ht, haborted, hrun, Option.some.inj hcache, hpast, hreports,
    hsame (engine 6) w _ _ trivial hhalves rfl rfl⟩

end Session

end MemoSeq
