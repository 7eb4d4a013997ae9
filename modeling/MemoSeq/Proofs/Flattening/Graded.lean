/-
  MemoSeq/Proofs/Flattening/Graded.lean
  ======================================
  **Production keeps to a grading.**

  An act keeps to a grading (`Pledge.Keeps`) when it leads from a world that is graded to one
  that is, and every tape and list that was there keeps its number.  Reading from a tape and
  advancing a list do, given that what the engine drives does, and so does every producer of
  the library; so the engines of all depths do, if the host's iterators and tests keep what
  is pledged for them (`Behavior.Redeems`).

  Values that are put into lists are not spoken of: that may bring a list within itself.
-/
import MemoSeq.Equality
import MemoSeq.Proofs.Flattening.Grading

namespace MemoSeq

variable {H : Host} {α β ε : Type} {K : Pledge H} {G G' : Grading} {w w' : World H} {h : Nat}

namespace Pledge

/-- What the act does from this graded world on leads to another one, and its result has the
    property there. -/
def Keeps (K : Pledge H) (G : Grading) (w : World H) (a : Act H α)
    (Q : Grading → World H → α → Prop) : Prop :=
  ∀ ⦃x w'⦄, a.run w = .ok (x, w') → ∃ G', K.Leads w G w' G' ∧ Q G' w' x

/-- The same of an attempt; when it fails, there is no result to speak of. -/
def Tries (K : Pledge H) (G : Grading) (w : World H) (a : ExceptT ε (Act H) α)
    (Q : Grading → World H → α → Prop) : Prop :=
  K.Keeps G w a.run fun G' w' y => ∀ x, y = .ok x → Q G' w' x

/-- What the engine drives keeps to a grading. -/
structure Drives (K : Pledge H) (E : Engine H) : Prop where
  pull : ∀ {G : Grading} {w : World H} {h : Nat} {s : H.Source}, K.Holds G w → K.source G w h s →
    K.Keeps G w (E.pull s) fun G' w' x =>
      (∀ y, x.1 = some (.ok y) → K.External G' w' h y) ∧ K.source G' w' h x.2
  test : ∀ {G : Grading} {w : World H} {t : H.Test} {v : Value}, K.Holds G w → K.test t →
    K.Tries G w (E.test t v) fun _ _ _ => True
  next : ∀ {G : Grading} {w : World H} {h : Nat} {p : MemoSeq.Producer H}, K.Holds G w →
    K.Producer G w h p → K.Keeps G w (E.next p) fun G' w' x =>
      G'.Item w' h x.1 ∧ K.Producer G' w' h x.2

namespace Keeps

variable {a : Act H α} {f : α → Act H β} {Q : Grading → World H → α → Prop}
variable {P : Grading → World H → β → Prop}

theorem pure {x : α} (hw : K.Holds G w) (hx : Q G w x) : K.Keeps G w (pure x) Q := by
  intro y w' hrun
  obtain ⟨rfl, rfl⟩ := Act.run_pure_eq_ok.mp hrun
  exact ⟨G, .refl hw, hx⟩

theorem starve : K.Keeps G w (Act.starve : Act H α) Q :=
  fun _ _ hrun => (Act.run_starve_eq_ok.mp hrun).elim

theorem bind (ha : K.Keeps G w a Q)
    (hf : ∀ x G' w', K.Leads w G w' G' → Q G' w' x → K.Keeps G' w' (f x) P) :
    K.Keeps G w (a >>= f) P := by
  intro y w'' hrun
  obtain ⟨x, w', hx, hy⟩ := Act.run_bind_eq_ok.mp hrun
  obtain ⟨G', hleads, hQ⟩ := ha hx
  obtain ⟨G'', hleads', hP⟩ := hf x G' w' hleads hQ hy
  exact ⟨G'', hleads.trans hleads', hP⟩

theorem mono {P : Grading → World H → α → Prop} (ha : K.Keeps G w a Q)
    (hQ : ∀ x G' w', K.Leads w G w' G' → Q G' w' x → P G' w' x) : K.Keeps G w a P := by
  intro x w' hrun
  obtain ⟨G', hleads, hx⟩ := ha hrun
  exact ⟨G', hleads, hQ x G' w' hleads hx⟩

theorem get_bind {f : World H → Act H β} (hf : K.Keeps G w (f w) P) :
    K.Keeps G w (get >>= f) P := by
  intro y w'' hrun
  obtain ⟨x, w', hx, hy⟩ := Act.run_bind_eq_ok.mp hrun
  obtain ⟨rfl, rfl⟩ := Act.run_get_eq_ok.mp hx
  exact hf hy

end Keeps

namespace Tries

variable {a : ExceptT ε (Act H) α} {f : α → ExceptT ε (Act H) β} {Q : Grading → World H → α → Prop}
variable {P : Grading → World H → β → Prop}

theorem pure {x : α} (hw : K.Holds G w) (hx : Q G w x) :
    K.Tries G w (pure x : ExceptT ε (Act H) α) Q := by
  refine Keeps.pure hw ?_
  intro y hy
  cases hy
  exact hx

theorem throw {e : ε} (hw : K.Holds G w) : K.Tries G w (throw e : ExceptT ε (Act H) α) Q :=
  Keeps.pure hw nofun

theorem mono {P : Grading → World H → α → Prop} (ha : K.Tries G w a Q)
    (hQ : ∀ x G' w', K.Leads w G w' G' → Q G' w' x → P G' w' x) : K.Tries G w a P :=
  Keeps.mono ha fun _ G' w' hleads hy x hx => hQ x G' w' hleads (hy x hx)

theorem lift {a : Act H α} (ha : K.Keeps G w a Q) :
    K.Tries G w (ExceptT.lift a : ExceptT ε (Act H) α) Q := by
  intro y w' hrun
  obtain ⟨x, hx, rfl⟩ := Attempt.run_lift_eq_ok.mp hrun
  obtain ⟨G', hleads, hQ⟩ := ha hx
  refine ⟨G', hleads, ?_⟩
  intro z hz
  cases hz
  exact hQ

theorem ofOutcome {r : Outcome α} (hw : K.Holds G w) (hr : ∀ x, r = .ok x → Q G w x) :
    K.Tries G w (Attempt.ofOutcome r : Attempt H α) Q :=
  Keeps.pure hw hr

theorem bind (ha : K.Tries G w a Q)
    (hf : ∀ x G' w', K.Leads w G w' G' → Q G' w' x → K.Tries G' w' (f x) P) :
    K.Tries G w (a >>= f) P := by
  intro y w'' hrun
  rcases Attempt.run_bind_eq_ok.mp hrun with ⟨x, w', hx, hy⟩ | ⟨e, he, rfl⟩
  · obtain ⟨G', hleads, hQ⟩ := ha hx
    obtain ⟨G'', hleads', hP⟩ := hf x G' w' hleads (hQ x rfl) hy
    exact ⟨G'', hleads.trans hleads', hP⟩
  · obtain ⟨G', hleads, -⟩ := ha he
    exact ⟨G', hleads, nofun⟩

theorem get_bind {f : World H → ExceptT ε (Act H) β} (hf : K.Tries G w (f w) P) :
    K.Tries G w (get >>= f) P := by
  intro y w'' hrun
  have hsame : (get >>= f : ExceptT ε (Act H) β).run.run w = (f w).run.run w :=
    Attempt.run_bind_of_ok rfl
  rw [hsame] at hrun
  exact hf hrun

/-- One attempt after the other, until one fails. -/
theorem mapM {f : α → ExceptT ε (Act H) β} (hw : K.Holds G w)
    (hf : ∀ x G' w', K.Holds G' w' → K.Tries G' w' (f x) fun _ _ _ => True) (xs : List α) :
    K.Tries G w (xs.mapM f) fun _ _ _ => True := by
  induction xs generalizing G w with
  | nil => exact .pure hw trivial
  | cons x xs ih =>
    rw [List.mapM_cons]
    refine (hf x G w hw).bind fun _ _ _ hleads _ => ?_
    exact (ih hleads.holds).bind fun _ _ _ hleads' _ => .pure hleads'.holds trivial

end Tries

end Pledge

open Pledge (Keeps Tries)

/-! ### Canonical values -/

theorem Sequence.adopt_graded (hw : K.Holds G w) {p : Producer H} (hp : K.Producer G w h p)
    (infinite : Bool) :
    K.Keeps G w (Sequence.adopt p infinite) fun G' w' s => G'.Covers w' h s := by
  intro s w' hrun
  cases hrun
  exact hw.withSequence hp infinite

theorem Grading.Covers.bounds {s : Sequence} {h' : Nat} (hs : G.Covers w h' s) (hlt : h' < h) :
    G.Bounds w h (.list s) := by
  intro t ht
  cases ht
  exact .inr ⟨hs.1, hs.2.trans_lt hlt⟩

theorem canonicalize_graded (hw : K.Holds G w) {x : External H.Source}
    (hx : K.External G w h x) :
    K.Tries G w (canonicalize x) fun G' w' v => G'.Bounds w' h v := by
  cases hx with
  | int | str => exact .pure hw (.of_scalar rfl)
  | rational r => exact .pure hw (.of_scalar (Value.asList?_ofRat r))
  | float x => exact .ofOutcome hw fun v hv => .of_scalar (Binary.asList?_canonical hv)
  | symbolic s => exact .ofOutcome hw fun v hv => .of_scalar (Symbolic.asList?_canonical hv)
  | value hv => exact .pure hw hv
  | items hlt hitems =>
    refine (Tries.lift (Sequence.adopt_graded hw (p := .container _) hitems _)).bind ?_
    exact fun s G' w' hleads hs => .pure hleads.holds (hs.bounds hlt)
  | iterator hlt hsource =>
    refine (Tries.lift (Sequence.adopt_graded hw (p := .source _) hsource _)).bind ?_
    exact fun s G' w' hleads hs => .pure hleads.holds (hs.bounds hlt)

theorem Document.canonicalize_graded (hw : K.Holds G w) {d : Document} (hd : d.Within h) :
    K.Tries G w (d.canonicalize (H := H)) fun G' w' v => G'.Bounds w' h v := by
  cases hd with
  | array hlt hitems =>
    refine (Tries.lift (Sequence.adopt_graded hw (p := .documents _) hitems _)).bind ?_
    exact fun s G' w' hleads hs => .pure hleads.holds (hs.bounds hlt)
  | other hd =>
    cases d with
    | array items => exact (hd items rfl).elim
    | integer | string => exact .pure hw (.of_scalar rfl)
    | float x => exact .ofOutcome hw fun v hv => .of_scalar (Binary.asList?_canonical hv)
    | null | boolean | object => exact .throw hw

section Driving

variable {E : Engine H} (hE : K.Drives E)
include hE

/-! ### Reading and advancing -/

/-- What a reader gets was logged, or comes from the producer that is called. -/
theorem Reader.Reads.graded {r r' : Reader} {x : Option Item} (hw : K.Holds G w)
    (hr : G.Reads w h r) (hreads : r.Reads E w x r' w') :
    ∃ G', K.Leads w G w' G' ∧ G'.Item w' h x ∧ G'.Reads w' h r' := by
  cases hreads with
  | logged item hlog =>
    refine ⟨G, .refl hw, fun v hv => ?_, hr⟩
    cases hv
    exact (hw.logged _ _ v hlog).mono (.refl w G) hr.2
  | paused => exact ⟨G, .refl hw, Grading.item_none, hr⟩
  | drove p p' x v hlog hphase hnext =>
    have hrunning := hw.running r.tape
    obtain ⟨G', hleads, hx, hp'⟩ :=
      hE.next hrunning.holds ((hw.idle _ p hphase).mono hrunning.toExtends) hnext
    have hsame : G'.tape r.tape = G.tape r.tape :=
      hleads.tape _ (hr.1.trans_le hrunning.tapes)
    have hrecorded := hleads.holds.recorded r.tape (hsame ▸ hx) (hsame ▸ hp')
    have hall := (hrunning.trans hleads).trans hrecorded
    have hr' := hr.mono hall.toExtends (Nat.le_refl h)
    refine ⟨G', hall, hx.mono hrecorded.toExtends hr.2, ?_⟩
    rw [Reader.past]
    split
    · exact hr'
    · exact hr'

theorem Reader.next_graded (hw : K.Holds G w) {r : Reader} (hr : G.Reads w h r) :
    K.Keeps G w (r.next E) fun G' w' x => G'.Item w' h x.1 ∧ G'.Reads w' h x.2 :=
  fun _ _ hrun => (Reader.run_next_iff.mp hrun).graded hE hw hr

/-- A list keeps its number, and a value that it gives has been added to what it has cached. -/
theorem Sequence.Advances.graded {s : Sequence} {y : Outcome (Option Value)} (hw : K.Holds G w)
    (hadvances : s.Advances E w y w') :
    ∃ G', K.Leads w G w' G' ∧ ∀ v, y = .ok (some v) →
      G'.Bounds w' (G'.list s) v ∧ (w.sequence s).cache.size < (w'.sequence s).cache.size := by
  cases hadvances with
  | failed | still => exact ⟨G, .refl hw, nofun⟩
  | pulled r r' x u hfailure hbusy hreader hreads =>
    have hs := World.lt_of_reader_eq_some r hreader
    have hwaiting := hw.waiting s
    obtain ⟨G', hleads, hx, hr'⟩ := hreads.graded hE hwaiting.holds
      ((hw.reading s r hreader).mono hwaiting.toExtends (Nat.le_refl _))
    have hsame : G'.list s = G.list s := hleads.list s (hs.trans_le hwaiting.sequences)
    have hsettled := hleads.holds.settled s (hsame ▸ hx) (hsame ▸ hr')
    refine ⟨G', (hwaiting.trans hleads).trans hsettled, fun v hv => ?_⟩
    have hkept := (hwaiting.trans hleads).toExtends.size_cache_le s
    have hlt : s.id < u.sequences.size := hs.trans_le (hwaiting.trans hleads).sequences
    match x with
    | none | some (.error _) => cases hv
    | some (.ok _) =>
      cases hv
      refine ⟨(hx v rfl).mono hsettled.toExtends hsame.ge, ?_⟩
      rw [World.sequence_settled_self _ r' hlt]
      simpa [SequenceState.settled] using Nat.lt_succ_of_le hkept

theorem Sequence.advance_graded {s : Sequence} (hw : K.Holds G w) :
    K.Tries G w (s.advance E) fun G' w' x => ∀ v, x = some v →
      G'.Bounds w' (G'.list s) v ∧ (w.sequence s).cache.size < (w'.sequence s).cache.size := by
  intro y w' hrun
  obtain ⟨G', hleads, hgiven⟩ := (Sequence.run_advance_iff.mp hrun).graded hE hw
  exact ⟨G', hleads, fun x hx v hv => hgiven v (hx.trans (congrArg _ hv))⟩

theorem Sequence.drain_graded {s : Sequence} (hw : K.Holds G w) (limit : Option Nat)
    (rounds : Nat) : K.Tries G w (s.drain E limit rounds) fun _ _ _ => True := by
  induction rounds generalizing G w with
  | zero => exact .lift .starve
  | succ rounds ih =>
    refine (advance_graded hE hw).bind fun x G' w' hleads _ => ?_
    cases x with
    | none => exact .pure hleads.holds trivial
    | some v =>
      cases limit with
      | none => exact ih hleads.holds
      | some bound =>
        refine .get_bind ?_
        split
        · exact .throw hleads.holds
        · exact ih hleads.holds

theorem Sequence.materialize_graded {s : Sequence} (hw : K.Holds G w) :
    K.Tries G w (s.materialize E) fun G' w' values =>
      ∀ v ∈ values, G'.Bounds w' (G'.list s) v := by
  refine .get_bind ((drain_graded hE hw _ _).bind fun _ G' w' hleads _ => ?_)
  refine .get_bind (.pure hleads.holds fun v hv => ?_)
  obtain ⟨i, hi⟩ := Array.mem_iff_getElem?.mp hv
  exact hleads.holds.cached s i v hi

theorem Iteration.next_graded (hw : K.Holds G w) {i : Iteration} (hi : G.Iteration w h i) :
    K.Keeps G w (i.next E) fun G' w' x => G'.Item w' h x.1 ∧ G'.Iteration w' h x.2 := by
  unfold Iteration.next
  split
  case h_1 v cached hcached =>
    have hbounds := hi.cached
    rw [hcached] at hbounds
    exact .pure hw ⟨Grading.item_ok (hbounds v List.mem_cons_self),
      fun u hu => hbounds u (List.mem_cons_of_mem _ hu), hi.rest⟩
  case h_2 hcached =>
    split
    · refine .pure hw ⟨fun v hv => ?_, hi.cached, hi.rest⟩
      cases hfailure : i.failure <;> simp [hfailure] at hv
    case h_2 r hrest =>
      refine (Reader.next_graded hE hw (hi.rest r hrest)).bind ?_
      rintro ⟨item, r'⟩ G' w' hleads ⟨hitem, hr'⟩
      have hcached' := (hi.mono hleads.toExtends (Nat.le_refl h)).cached
      refine .pure hleads.holds ⟨hitem, hcached', fun q hq => ?_⟩
      dsimp only at hq
      split at hq
      · cases hq
        exact hr'
      · cases hq

/-! ### Producers -/

namespace Producer

theorem search_graded (hw : K.Holds G w) {test : H.Test} (ht : K.test test) (rounds : Nat)
    {i : Iteration} (hi : G.Iteration w h i) :
    K.Keeps G w (search E test rounds i) fun G' w' x =>
      G'.Item w' h x.1 ∧ G'.Deferred w' h x.2 := by
  induction rounds generalizing G w i with
  | zero => exact .starve
  | succ rounds ih =>
    refine (Iteration.next_graded hE hw hi).bind ?_
    rintro ⟨_ | e | v, i⟩ G' w' hleads ⟨hitem, hi'⟩
    · exact .pure hleads.holds ⟨Grading.item_none, trivial⟩
    · exact .pure hleads.holds ⟨Grading.item_error e, hi'⟩
    · refine Keeps.bind (hE.test hleads.holds ht) ?_
      intro passed G'' w'' hleads' _
      have hi'' := hi'.mono hleads'.toExtends (Nat.le_refl h)
      rcases passed with e | _ | _
      · exact .pure hleads'.holds ⟨Grading.item_error e, hi''⟩
      · exact ih hleads'.holds hi''
      · exact .pure hleads'.holds ⟨hitem.mono hleads'.toExtends (Nat.le_refl h), hi''⟩

theorem searching_graded (hw : K.Holds G w) {test : H.Test} (ht : K.test test) {i : Iteration}
    (hi : G.Iteration w h i) :
    K.Keeps G w (do
        let (item, state) ← search E test E.fuel i
        return (item, .filtered test state))
      fun G' w' x => G'.Item w' h x.1 ∧ K.Producer G' w' h x.2 :=
  (search_graded hE hw ht _ hi).bind fun _ _ _ hleads hx => .pure hleads.holds ⟨hx.1, ht, hx.2⟩

theorem along_graded (hw : K.Holds G w) {i : Iteration} (hi : G.Iteration w h i) :
    K.Keeps G w (nextDeferred.along E i) fun G' w' x =>
      G'.Item w' h x.1 ∧ G'.Deferred w' h x.2 := by
  refine (Iteration.next_graded hE hw hi).bind ?_
  rintro ⟨_ | item, i⟩ G' w' hleads ⟨hitem, hi'⟩
  · exact .pure hleads.holds ⟨Grading.item_none, trivial⟩
  · exact .pure hleads.holds ⟨hitem, hi'⟩

theorem nextDeferred_graded (hw : K.Holds G w) {state : Deferred Sequence Iteration}
    (hstate : G.Deferred w h state) :
    K.Keeps G w (nextDeferred E state) fun G' w' x =>
      G'.Item w' h x.1 ∧ G'.Deferred w' h x.2 := by
  cases state with
  | pending s => exact .get_bind (along_graded hE hw (hw.iteration hstate))
  | opened i => exact along_graded hE hw hstate
  | finished => exact .pure hw ⟨Grading.item_none, trivial⟩

theorem going_graded (hw : K.Holds G w) {right : Deferred Sequence Iteration}
    (hright : G.Deferred w h right) :
    K.Keeps G w (do
        let (item, right) ← nextDeferred E right
        return (item, .joined none right))
      fun G' w' x => G'.Item w' h x.1 ∧ K.Producer G' w' h x.2 :=
  (nextDeferred_graded hE hw hright).bind fun _ _ _ hleads hx =>
    .pure hleads.holds ⟨hx.1, nofun, hx.2⟩

omit hE in
/-- A canonical value, or the failure to become one, as the next item of a producer. -/
theorem outcome_graded {a : Attempt H Value} {p : Producer H}
    (ha : K.Tries G w a fun G' w' v => G'.Bounds w' h v) (hp : K.Producer G w h p) :
    K.Keeps G w (do return (some (← a.outcome), p)) fun G' w' x =>
      G'.Item w' h x.1 ∧ K.Producer G' w' h x.2 := by
  refine Keeps.bind ha ?_
  intro r G' w' hleads hr
  refine .pure hleads.holds ⟨fun v hv => ?_, hp.mono hleads.toExtends⟩
  cases hv
  exact hr v rfl

omit hE in
theorem nextValue_graded (start step : Int) {values : List Value}
    (hvalues : ∀ v ∈ values, G.Bounds w h v) :
    G.Item w h (nextValue values).1 ∧
      K.Producer G w h (.strided start step (nextValue values).2) := by
  cases values with
  | nil => exact ⟨Grading.item_none, trivial⟩
  | cons v rest =>
    exact ⟨Grading.item_ok (hvalues v List.mem_cons_self),
      fun u hu => hvalues u (List.mem_cons_of_mem _ hu)⟩

theorem next_graded (hw : K.Holds G w) {p : Producer H} (hp : K.Producer G w h p) :
    K.Keeps G w (p.next E) fun G' w' x => G'.Item w' h x.1 ∧ K.Producer G' w' h x.2 := by
  -- nothing new comes out but what an iterator of the host, a container or a document makes
  cases p with
  | source s =>
    refine (hE.pull hw hp).bind ?_
    rintro ⟨_ | e | x, s⟩ G' w' hleads ⟨hx, hs⟩
    · exact .pure hleads.holds ⟨Grading.item_none, hs⟩
    · exact .pure hleads.holds ⟨Grading.item_error e, hs⟩
    · exact outcome_graded (canonicalize_graded hleads.holds (hx x rfl)) hs
  | container items =>
    cases items with
    | nil => exact .pure hw ⟨Grading.item_none, hp⟩
    | cons x items =>
      have hrest : K.Producer G w h (.container items) :=
        fun y hy => hp y (List.mem_cons_of_mem _ hy)
      exact outcome_graded (canonicalize_graded hw (hp x List.mem_cons_self)) hrest
  | values items =>
    cases items with
    | nil => exact .pure hw ⟨Grading.item_none, hp⟩
    | cons v items =>
      exact .pure hw ⟨Grading.item_ok (hp v List.mem_cons_self),
        fun u hu => hp u (List.mem_cons_of_mem _ hu)⟩
  | documents items =>
    cases items with
    | nil => exact .pure hw ⟨Grading.item_none, hp⟩
    | cons d items =>
      have hrest : K.Producer G w h (.documents items) :=
        fun e he => hp e (List.mem_cons_of_mem _ he)
      exact outcome_graded (Document.canonicalize_graded hw (hp d List.mem_cons_self)) hrest
  | reader r =>
    exact (r.next_graded hE hw hp).bind fun x G' w' hleads hx => .pure hleads.holds hx
  | filtered test state =>
    cases state with
    | pending s => exact .get_bind (searching_graded hE hw hp.1 (hw.iteration hp.2))
    | opened i => exact searching_graded hE hw hp.1 hp.2
    | finished => exact .pure hw ⟨Grading.item_none, hp.1, trivial⟩
  | joined left right =>
    cases left with
    | none => exact going_graded hE hw hp.2
    | some left =>
      refine (Iteration.next_graded hE hw (hp.1 left rfl)).bind ?_
      rintro ⟨x, left⟩ G' w' hleads ⟨hitem, hleft⟩
      have hstate := hp.2.mono hleads.toExtends
      cases x with
      | none => exact going_graded hE hleads.holds hstate
      | some item =>
        refine .pure hleads.holds ⟨hitem, fun i hi => ?_, hstate⟩
        cases hi
        exact hleft
  | strided start step state =>
    cases state with
    | pending s =>
      refine Keeps.bind (Sequence.materialize_graded hE hw) ?_
      intro x G' w' hleads hx
      cases x with
      | error e => exact .pure hleads.holds ⟨Grading.item_error e, trivial⟩
      | ok all =>
        refine .pure hleads.holds (nextValue_graded start step fun v hv => ?_)
        obtain ⟨k, -, hk⟩ := List.mem_filterMap.mp hv
        have hs := Grading.Covers.mono (s := s) hp hleads.toExtends
        exact (hx all rfl v (Array.mem_of_getElem? hk)).mono (.refl w' G') hs.2
    | opened rest => exact .pure hw (nextValue_graded start step hp)
    | finished => exact .pure hw ⟨Grading.item_none, trivial⟩

end Producer

/-! ### Flattening and comparing -/

theorem Value.flattenWithin_graded (hw : K.Holds G w) (levels : Nat) (v : Value) :
    K.Tries G w (v.flattenWithin E levels) fun _ _ _ => True := by
  induction levels generalizing G w v with
  | zero =>
    cases v with
    | int | rational | str => exact .pure hw trivial
    | list s => exact .lift .starve
  | succ levels ih =>
    cases v with
    | int | rational | str => exact .pure hw trivial
    | list s =>
      refine (s.materialize_graded hE hw).bind fun values _ _ hleads _ => ?_
      refine (Tries.mapM hleads.holds (fun v _ _ hw' => ih hw' v) _).bind ?_
      exact fun _ _ _ hleads' _ => .pure hleads'.holds trivial

theorem Sequence.equals_graded (hw : K.Holds G w) (s : Sequence) (v : Value) :
    K.Tries G w (s.equals E v) fun _ _ _ => True :=
  (Value.flattenWithin_graded hE hw _ _).bind fun _ _ _ hleads _ =>
    (Value.flattenWithin_graded hE hleads.holds _ _).bind fun _ _ _ hleads' _ =>
      .pure hleads'.holds trivial

theorem Value.same_graded (hw : K.Holds G w) (u v : Value) :
    K.Keeps G w (u.same E v) fun _ _ _ => True := by
  unfold Value.same
  split
  case h_2 => exact .pure hw trivial
  case h_1 s t =>
    unfold Sequence.same
    split
    case isTrue => exact .pure hw trivial
    case isFalse =>
      refine Keeps.bind (s.equals_graded hE hw (.list t)) ?_
      intro r _ _ hleads _
      cases r with
      | ok b => exact .pure hleads.holds trivial
      | error e => exact .pure hleads.holds trivial

end Driving

/-! ### Hosts that keep what is pledged -/

/-- The host's iterators and tests keep what is pledged if what they drive does. -/
structure Behavior.Redeems (B : Behavior H) (K : Pledge H) : Prop where
  pull : ∀ {E : Engine H} {G : Grading} {w : World H} {h : Nat} {s : H.Source}, K.Drives E →
    K.Holds G w → K.source G w h s → K.Keeps G w (B.pull E s) fun G' w' x =>
      (∀ y, x.1 = some (.ok y) → K.External G' w' h y) ∧ K.source G' w' h x.2
  test : ∀ {E : Engine H} {G : Grading} {w : World H} {t : H.Test} {v : Value}, K.Drives E →
    K.Holds G w → K.test t → K.Tries G w (B.test E t v) fun _ _ _ => True

theorem Engine.ofBehavior_graded {B : Behavior H} (hB : B.Redeems K) (depth : Nat) :
    K.Drives (Engine.ofBehavior B depth) := by
  induction depth with
  | zero => exact ⟨fun _ _ => .starve, fun _ _ => Keeps.starve, fun _ _ => .starve⟩
  | succ depth ih => exact ⟨hB.pull ih, hB.test ih, fun hw hp => Producer.next_graded ih hw hp⟩

end MemoSeq
