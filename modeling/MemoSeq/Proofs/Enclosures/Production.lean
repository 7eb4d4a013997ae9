/-
  MemoSeq/Proofs/Enclosures/Production.lean
  ==========================================
  **Production within an enclosure overlooks what lies outside.**

  Reading from a tape that belongs to an enclosure, advancing a sequence that does, and
  every producer of the library keep to it, given that what the engine drives does; so do the
  engines of all depths, if the host's iterators and tests keep to it (`Behavior.Overlooks`).

  What is logged and cached goes from hand to hand and is not looked at on the way, so it may
  be a list outside.  Only tests look at values, and only comparing forces lists.
-/
import MemoSeq.Equality
import MemoSeq.Proofs.Enclosures.Basic

namespace MemoSeq

variable {H : Host} {N : Enclosure H} {s q : Sequence} {w w' : World H}

open Enclosure (Keeps Tries)

/-! ### Reading and iterating -/

section Reading

variable {E : Engine H} (hE : N.Drives s E)
include hE

/-- A reader gets the same behind a mask. -/
theorem Reader.Reads.enclosed {r r' : Reader} {x : Option Item} (hw : N.Holds w)
    (hr : N.tape r.tape) (hreads : r.Reads E w x r' w') :
    N.Holds w' ∧ (N.Item x ∧ N.tape r'.tape) ∧
      ∀ c, r.Reads E (w.masked s c) x r' (w'.masked s c) := by
  cases hreads with
  | logged item hlog =>
    refine ⟨hw, ⟨fun v hv => ?_, hr⟩, fun c => .logged item hlog⟩
    cases hv
    exact hw.logged _ hr _ v hlog
  | paused hlog hphase => exact ⟨hw, ⟨Enclosure.item_none, hr⟩, fun c => .paused hlog hphase⟩
  | drove p p' x v hlog hphase hnext =>
    obtain ⟨hv, ⟨hx, hp'⟩, hmask⟩ := hE.next (hw.running r.tape) (hw.idle _ hr p hphase) hnext
    refine ⟨hv.recorded r.tape hx hp', ⟨hx, (r.tape_past x).symm ▸ hr⟩, fun c => ?_⟩
    exact .drove p p' x (v.masked s c) hlog hphase (hmask c)

theorem Reader.next_enclosed (hw : N.Holds w) {r : Reader} (hr : N.tape r.tape) :
    N.Keeps s w (r.next E) fun x => N.Item x.1 ∧ N.tape x.2.tape := by
  intro x w' hrun
  obtain ⟨hw', hx, hmask⟩ := (Reader.run_next_iff.mp hrun).enclosed hE hw hr
  exact ⟨hw', hx, fun c => Reader.run_next_iff.mpr (hmask c)⟩

theorem Iteration.next_enclosed (hw : N.Holds w) {i : Iteration} (hi : N.Iteration i) :
    N.Keeps s w (i.next E) fun x => N.Item x.1 ∧ N.Iteration x.2 := by
  unfold Iteration.next
  split
  case h_1 v cached hcached =>
    have hadmits := hi.cached
    rw [hcached] at hadmits
    exact .pure hw ⟨Enclosure.item_ok (hadmits v List.mem_cons_self),
      fun u hu => hadmits u (List.mem_cons_of_mem _ hu), hi.rest⟩
  case h_2 hcached =>
    split
    · refine .pure hw ⟨fun v hv => ?_, hi.cached, hi.rest⟩
      cases hfailure : i.failure <;> simp [hfailure] at hv
    case h_2 r hrest =>
      refine (Reader.next_enclosed hE hw (hi.rest r hrest)).bind ?_
      rintro ⟨item, r'⟩ w' hw' ⟨hitem, hr'⟩
      refine .pure hw' ⟨hitem, hi.cached, fun u hu => ?_⟩
      dsimp only at hu
      split at hu
      · cases hu
        exact hr'
      · cases hu

theorem Producer.search_enclosed (hw : N.Holds w) {test : H.Test} (ht : N.test test)
    (rounds : Nat) {i : Iteration} (hi : N.Iteration i) :
    N.Keeps s w (search E test rounds i) fun x => N.Item x.1 ∧ N.Deferred x.2 := by
  induction rounds generalizing w i with
  | zero => exact .starve
  | succ rounds ih =>
    refine (Iteration.next_enclosed hE hw hi).bind ?_
    rintro ⟨_ | e | v, i⟩ w' hw' ⟨hitem, hi'⟩
    · exact .pure hw' ⟨Enclosure.item_none, trivial⟩
    · exact .pure hw' ⟨Enclosure.item_error e, hi'⟩
    · refine Keeps.bind (hE.test hw' ht (hitem v rfl)) fun passed w'' hw'' _ => ?_
      rcases passed with e | _ | _
      · exact .pure hw'' ⟨Enclosure.item_error e, hi'⟩
      · exact ih hw'' hi'
      · exact .pure hw'' ⟨hitem, hi'⟩

theorem Producer.searching_enclosed (hw : N.Holds w) {test : H.Test} (ht : N.test test)
    {i : Iteration} (hi : N.Iteration i) :
    N.Keeps s w (do
        let (item, state) ← search E test E.fuel i
        return (item, .filtered test state))
      fun x => N.Item x.1 ∧ N.Producer x.2 :=
  (search_enclosed hE hw ht _ hi).bind fun _ _ hw' hx => .pure hw' ⟨hx.1, ht, hx.2⟩

theorem Producer.along_enclosed (hw : N.Holds w) {i : Iteration} (hi : N.Iteration i) :
    N.Keeps s w (nextDeferred.along E i) fun x => N.Item x.1 ∧ N.Deferred x.2 := by
  refine (Iteration.next_enclosed hE hw hi).bind ?_
  rintro ⟨_ | item, i⟩ w' hw' ⟨hitem, hi'⟩
  · exact .pure hw' ⟨Enclosure.item_none, trivial⟩
  · exact .pure hw' ⟨hitem, hi'⟩

end Reading

/-! ### Items of producers -/

/-- A canonical value, or the failure to become one, as the next item of a producer. -/
theorem Producer.outcome_enclosed {a : Attempt H Value} {p : Producer H}
    (ha : N.Tries s w a N.admits) (hp : N.Producer p) :
    N.Keeps s w (do return (some (← a.outcome), p)) fun x => N.Item x.1 ∧ N.Producer x.2 := by
  refine Keeps.bind ha fun r w' hw' hr => .pure hw' ⟨fun v hv => ?_, hp⟩
  cases hv
  exact hr v rfl

theorem Producer.nextValue_enclosed (start step : Int) {values : List Value}
    (hvalues : ∀ v ∈ values, N.admits v) :
    N.Item (nextValue values).1 ∧ N.Producer (.strided start step (nextValue values).2) := by
  cases values with
  | nil => exact ⟨Enclosure.item_none, trivial⟩
  | cons v rest =>
    exact ⟨Enclosure.item_ok (hvalues v List.mem_cons_self),
      fun u hu => hvalues u (List.mem_cons_of_mem _ hu)⟩

section Outside

variable (hs : ¬ N.list s)
include hs

/-! ### Canonical values -/

theorem Sequence.adopt_enclosed (hw : N.Holds w) {p : Producer H} (hp : N.Producer p)
    (infinite : Bool) :
    N.Keeps s w (Sequence.adopt p infinite) fun q => N.list q ∧ N.admits (.list q) := by
  intro q w' hrun
  cases hrun
  refine ⟨hw.withSequence hp infinite, hw.lists _ (Nat.le_refl _), fun c => ?_⟩
  have hrun : (Sequence.adopt p infinite).run (w.masked s c) =
      .ok ((w.masked s c).freshSequence, (w.masked s c).withSequence p infinite) := rfl
  have hfresh : (w.masked s c).freshSequence = w.freshSequence := by
    simp [World.freshSequence, World.masked]
  rw [hrun, hfresh, World.masked_withSequence (hw.lt_of_outside hs)]
  rfl

theorem canonicalize_enclosed (hw : N.Holds w) {x : External H.Source} (hx : N.External x) :
    N.Tries s w (canonicalize x) N.admits := by
  cases hx with
  | int | str => exact .pure hw (N.scalar rfl)
  | rational r => exact .pure hw (N.scalar (Value.asList?_ofRat r))
  | float x => exact .ofOutcome hw fun v hv => N.scalar (Binary.asList?_canonical hv)
  | symbolic s => exact .ofOutcome hw fun v hv => N.scalar (Symbolic.asList?_canonical hv)
  | value hv => exact .pure hw hv
  | items hitems =>
    refine (Tries.lift (Sequence.adopt_enclosed hs hw (p := .container _) hitems _)).bind ?_
    exact fun q w' hw' hq => .pure hw' hq.2
  | iterator hsource =>
    refine (Tries.lift (Sequence.adopt_enclosed hs hw (p := .source _) hsource _)).bind ?_
    exact fun q w' hw' hq => .pure hw' hq.2

theorem Document.canonicalize_enclosed (hw : N.Holds w) (d : Document) :
    N.Tries s w (d.canonicalize (H := H)) N.admits := by
  cases d with
  | integer | string => exact .pure hw (N.scalar rfl)
  | float x => exact .ofOutcome hw fun v hv => N.scalar (Binary.asList?_canonical hv)
  | null | boolean | object => exact .throw hw
  | array items =>
    refine (Tries.lift (Sequence.adopt_enclosed hs hw (p := .documents _) trivial _)).bind ?_
    exact fun q w' hw' hq => .pure hw' hq.2

/-- An iteration over a sequence within the enclosure is the same behind a mask. -/
theorem World.iteration_masked (hq : N.list q) (c : SequenceState) :
    (w.masked s c).iteration q = w.iteration q := by
  have hne : q ≠ s := fun heq => hs (heq ▸ hq)
  rw [World.iteration, World.sequence_masked_of_ne hne]
  rfl

section Driving

variable {E : Engine H} (hE : N.Drives s E)
include hE

/-! ### Advancing and forcing -/

/-- A sequence that belongs to the enclosure gives the same behind a mask. -/
theorem Sequence.advance_enclosed (hw : N.Holds w) (hq : N.list q) :
    N.Tries s w (q.advance E) fun _ => True := by
  have hne : q ≠ s := fun heq => hs (heq ▸ hq)
  intro y w' hrun
  cases Sequence.run_advance_iff.mp hrun with
  | failed e he =>
    refine ⟨hw, fun _ _ => trivial, fun c => Sequence.run_advance_iff.mpr (.failed e ?_)⟩
    rwa [World.sequence_masked_of_ne hne]
  | still hfailure hstill =>
    refine ⟨hw, fun _ _ => trivial, fun c => Sequence.run_advance_iff.mpr (.still ?_ ?_)⟩
    · rwa [World.sequence_masked_of_ne hne]
    · rwa [World.sequence_masked_of_ne hne]
  | pulled r r' x v hfailure hbusy hreader hreads =>
    obtain ⟨hv, ⟨hx, hr'⟩, hmask⟩ :=
      hreads.enclosed hE (hw.waiting q) (hw.reading q hq r hreader)
    refine ⟨hv.settled q (fun _ => hx) fun _ => hr', fun _ _ => trivial, fun c => ?_⟩
    have hsettled : (v.settled q x r').masked s c = (v.masked s c).settled q x r' :=
      (World.masked_updateSequence hne c _).symm
    have hwaiting : (w.masked s c).waiting q = (w.waiting q).masked s c :=
      World.masked_updateSequence hne c _
    rw [hsettled]
    refine Sequence.run_advance_iff.mpr (.pulled r r' x _ ?_ ?_ ?_ (hwaiting ▸ hmask c))
    · rwa [World.sequence_masked_of_ne hne]
    · rwa [World.sequence_masked_of_ne hne]
    · rwa [World.sequence_masked_of_ne hne]

theorem Sequence.drain_enclosed (hw : N.Holds w) (hq : N.list q) (limit : Option Nat)
    (rounds : Nat) : N.Tries s w (q.drain E limit rounds) fun _ => True := by
  have hne : q ≠ s := fun heq => hs (heq ▸ hq)
  induction rounds generalizing w with
  | zero => exact .lift .starve
  | succ rounds ih =>
    refine (advance_enclosed hs hE hw hq).bind fun x w' hw' _ => ?_
    cases x with
    | none => exact .pure hw' trivial
    | some v =>
      cases limit with
      | none => exact ih hw'
      | some bound =>
        refine .get_bind (fun c => by rw [World.sequence_masked_of_ne hne]) ?_
        split
        · exact .throw hw'
        · exact ih hw'

theorem Sequence.materialize_enclosed (hw : N.Holds w) (hq : N.list q) :
    N.Tries s w (q.materialize E) fun values => ∀ v ∈ values, N.admits v := by
  have hne : q ≠ s := fun heq => hs (heq ▸ hq)
  refine .get_bind (fun c => rfl) ((drain_enclosed hs hE hw hq _ _).bind fun _ w' hw' _ => ?_)
  refine .get_bind (fun c => by rw [World.sequence_masked_of_ne hne]) (.pure hw' fun v hv => ?_)
  obtain ⟨i, hi⟩ := Array.mem_iff_getElem?.mp hv
  exact hw'.cached q hq i v hi

/-! ### Producers -/

namespace Producer

theorem nextDeferred_enclosed (hw : N.Holds w) {state : Deferred Sequence Iteration}
    (hstate : N.Deferred state) :
    N.Keeps s w (nextDeferred E state) fun x => N.Item x.1 ∧ N.Deferred x.2 := by
  cases state with
  | pending q =>
    refine .get_bind (fun c => ?_) (along_enclosed hE hw (hw.iteration hstate))
    rw [World.iteration_masked hs hstate]
  | opened i => exact along_enclosed hE hw hstate
  | finished => exact .pure hw ⟨Enclosure.item_none, trivial⟩

theorem going_enclosed (hw : N.Holds w) {right : Deferred Sequence Iteration}
    (hright : N.Deferred right) :
    N.Keeps s w (do
        let (item, right) ← nextDeferred E right
        return (item, .joined none right))
      fun x => N.Item x.1 ∧ N.Producer x.2 :=
  (nextDeferred_enclosed hs hE hw hright).bind fun _ _ hw' hx => .pure hw' ⟨hx.1, nofun, hx.2⟩

theorem next_enclosed (hw : N.Holds w) {p : Producer H} (hp : N.Producer p) :
    N.Keeps s w (p.next E) fun x => N.Item x.1 ∧ N.Producer x.2 := by
  -- items come from the outside, or from sequences within the enclosure
  cases p with
  | source source =>
    refine (hE.pull hw hp).bind ?_
    rintro ⟨_ | e | x, source⟩ w' hw' ⟨hx, hsource⟩
    · exact .pure hw' ⟨Enclosure.item_none, hsource⟩
    · exact .pure hw' ⟨Enclosure.item_error e, hsource⟩
    · exact outcome_enclosed (canonicalize_enclosed hs hw' (hx x rfl)) hsource
  | container items =>
    cases items with
    | nil => exact .pure hw ⟨Enclosure.item_none, hp⟩
    | cons x items =>
      have hrest : N.Producer (.container items) := fun y hy => hp y (List.mem_cons_of_mem _ hy)
      exact outcome_enclosed (canonicalize_enclosed hs hw (hp x List.mem_cons_self)) hrest
  | values items =>
    cases items with
    | nil => exact .pure hw ⟨Enclosure.item_none, hp⟩
    | cons v items =>
      exact .pure hw ⟨Enclosure.item_ok (hp v List.mem_cons_self),
        fun u hu => hp u (List.mem_cons_of_mem _ hu)⟩
  | documents items =>
    cases items with
    | nil => exact .pure hw ⟨Enclosure.item_none, hp⟩
    | cons d items => exact outcome_enclosed (Document.canonicalize_enclosed hs hw d) trivial
  | reader r => exact (r.next_enclosed hE hw hp).bind fun x w' hw' hx => .pure hw' hx
  | filtered test state =>
    cases state with
    | pending q =>
      refine .get_bind (fun c => ?_) (searching_enclosed hE hw hp.1 (hw.iteration hp.2))
      rw [World.iteration_masked hs hp.2]
    | opened i => exact searching_enclosed hE hw hp.1 hp.2
    | finished => exact .pure hw ⟨Enclosure.item_none, hp.1, trivial⟩
  | joined left right =>
    cases left with
    | none => exact going_enclosed hs hE hw hp.2
    | some left =>
      refine (Iteration.next_enclosed hE hw (hp.1 left rfl)).bind ?_
      rintro ⟨x, left⟩ w' hw' ⟨hitem, hleft⟩
      cases x with
      | none => exact going_enclosed hs hE hw' hp.2
      | some item =>
        refine .pure hw' ⟨hitem, fun i hi => ?_, hp.2⟩
        cases hi
        exact hleft
  | strided start step state =>
    cases state with
    | pending q =>
      refine Keeps.bind (Sequence.materialize_enclosed hs hE hw hp) fun x w' hw' hx => ?_
      cases x with
      | error e => exact .pure hw' ⟨Enclosure.item_error e, trivial⟩
      | ok all =>
        refine .pure hw' (nextValue_enclosed start step fun v hv => ?_)
        obtain ⟨k, -, hk⟩ := List.mem_filterMap.mp hv
        exact hx all rfl v (Array.mem_of_getElem? hk)
    | opened rest => exact .pure hw (nextValue_enclosed start step hp)
    | finished => exact .pure hw ⟨Enclosure.item_none, trivial⟩

end Producer

/-! ### Flattening and comparing -/

section Comparing

variable (hlists : ∀ q, N.admits (.list q) → N.list q)
include hlists

/-- Lists that are compared are forced, so they have to belong to the enclosure. -/
theorem Value.flattenWithin_enclosed (hw : N.Holds w) (levels : Nat) {v : Value}
    (hv : N.admits v) : N.Tries s w (v.flattenWithin E levels) fun _ => True := by
  induction levels generalizing w v with
  | zero =>
    cases v with
    | int | rational | str => exact .pure hw trivial
    | list q => exact .lift .starve
  | succ levels ih =>
    cases v with
    | int | rational | str => exact .pure hw trivial
    | list q =>
      have hforced := Sequence.materialize_enclosed hs hE hw (hlists q hv)
      refine hforced.bind fun values _ hw' hvalues => ?_
      refine (Tries.mapM (A := N.admits) hw' (fun v _ hw' hv => ih hw' hv) fun u hu =>
        hvalues u (Array.mem_toList_iff.mp hu)).bind ?_
      exact fun _ _ hw'' _ => .pure hw'' trivial

theorem Sequence.equals_enclosed (hw : N.Holds w) {q : Sequence} (hq : N.admits (.list q))
    {v : Value} (hv : N.admits v) : N.Tries s w (q.equals E v) fun _ => True :=
  (Value.flattenWithin_enclosed hs hE hlists hw _ hq).bind fun _ _ hw' _ =>
    (Value.flattenWithin_enclosed hs hE hlists hw' _ hv).bind fun _ _ hw'' _ => .pure hw'' trivial

theorem Value.same_enclosed (hw : N.Holds w) {u v : Value} (hu : N.admits u) (hv : N.admits v) :
    N.Keeps s w (u.same E v) fun _ => True := by
  unfold Value.same
  split
  case h_2 => exact .pure hw trivial
  case h_1 q q' =>
    unfold Sequence.same
    split
    case isTrue => exact .pure hw trivial
    case isFalse =>
      refine Keeps.bind (Sequence.equals_enclosed hs hE hlists hw hu hv) fun r _ hw' _ => ?_
      cases r with
      | ok b => exact .pure hw' trivial
      | error e => exact .pure hw' trivial

end Comparing

end Driving

end Outside

/-! ### Hosts that overlook what lies outside -/

/-- The host's iterators and tests that may be driven within the enclosure keep to it, if
    what they drive does. -/
structure Behavior.Overlooks (B : Behavior H) (N : Enclosure H) (s : Sequence) : Prop where
  pull : ∀ {E : Engine H} {w : World H} {source : H.Source}, N.Drives s E → N.Holds w →
    N.source source → N.Keeps s w (B.pull E source) fun x =>
      (∀ y, x.1 = some (.ok y) → N.External y) ∧ N.source x.2
  test : ∀ {E : Engine H} {w : World H} {t : H.Test} {v : Value}, N.Drives s E → N.Holds w →
    N.test t → N.admits v → N.Tries s w (B.test E t v) fun _ => True

theorem Engine.ofBehavior_enclosed {B : Behavior H} (hB : B.Overlooks N s) (hs : ¬ N.list s)
    (depth : Nat) : N.Drives s (Engine.ofBehavior B depth) := by
  induction depth with
  | zero => exact ⟨fun _ _ => .starve, fun _ _ _ => Keeps.starve, fun _ _ => .starve⟩
  | succ depth ih =>
    exact ⟨hB.pull ih, hB.test ih, fun hw hp => Producer.next_enclosed hs ih hw hp⟩

end MemoSeq
