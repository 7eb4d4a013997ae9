/-
  MemoSeq/Proofs/Custody/Operations.lean
  ======================================
  **Every operation of the library keeps to a custody.**

  What the operations are given has to be in custody, and what they give is: a value, an
  iteration or a producer.  The two acts that call producers, reading from a tape and
  advancing a sequence, are taken apart by their cases; all other operations are made of
  these, of making sequences and of overwriting.

  A host keeps to a custody (`Custody.Kept`) when its iterators and tests do, given an
  engine that does.  Then so do the engines of all depths.
-/
import MemoSeq.Proofs.Custody.Basic

namespace MemoSeq

variable {H : Host} {C : Custody H} {w : World H}

/-! ### Making sequences -/

theorem Reader.onto_keeps (hw : C.Holds w) {p : Producer H} (hp : C.Producer w p) :
    C.Keeps w (Reader.onto p) fun w' r => r.Stands w' := by
  intro r w' hrun
  cases hrun
  refine ⟨.deed (fun calls => .onto w calls p) trivial trivial (w.extends_withTape p)
    (hw.withTape hp) rfl, ?_⟩
  exact ⟨by simp [World.freshTape], Nat.zero_le _⟩

theorem Sequence.adopt_keeps (hw : C.Holds w) {p : Producer H} (hp : C.Producer w p)
    (infinite : Bool) :
    C.Keeps w (Sequence.adopt p infinite) fun _ s => C.admits (.list s) := by
  intro s w' hrun
  cases hrun
  exact ⟨.deed (fun calls => .adopt w calls p infinite) trivial trivial
    (w.extends_withSequence p infinite) (hw.withSequence hp infinite) rfl, C.made _ hw.since⟩

section Driving

variable {E : Engine H} (hE : C.Drives E)
include hE

/-! ### Reading and advancing -/

/-- The producer is called in a world in custody, and so is what it answers noted. -/
theorem Reader.Reads.keeps {r r' : Reader} {x : Option Item} {w' : World H} (hw : C.Holds w)
    (hr : r.Stands w) (h : r.Reads E w x r' w') :
    C.Leads w w' ∧ C.Item x ∧ r'.Stands w' := by
  cases h with
  | logged item hlog =>
    refine ⟨.deed (fun calls => .read w calls r item hlog) trivial trivial (.refl w) hw rfl, ?_,
      hr.advance hlog⟩
    intro v hv
    cases hv
    exact hw.logged _ _ v hlog
  | paused => exact ⟨.refl hw, C.item_none, hr⟩
  | drove p p' x v hlog hphase hnext =>
    have hrunning := w.extends_running r.tape
    obtain ⟨hleads, hx, hp'⟩ := hE.next (hw.running r.tape)
      ((hw.idle _ p hphase).mono hrunning) hnext
    have hextends := (hrunning.trans hleads.extends_).trans (v.extends_recorded r.tape x p')
    obtain ⟨depth, rfl⟩ := hE.depth
    exact ⟨.call (c := .read r) ⟨hlog, hphase⟩ (hr.position_eq hlog) trivial (hw.running r.tape)
      hnext hleads hextends (hleads.holds.recorded r.tape hx hp'), hx,
      ((hr.mono hrunning).mono hleads.extends_).past_recorded x p'⟩

theorem Reader.next_keeps (hw : C.Holds w) {r : Reader} (hr : r.Stands w) :
    C.Keeps w (r.next E) fun w' x => C.Item x.1 ∧ x.2.Stands w' :=
  fun _ _ hrun => (Reader.run_next_iff.mp hrun).keeps hE hw hr

/-- What a sequence takes in is on its tape, or comes from the call that it makes. -/
theorem Sequence.Advances.keeps {s : Sequence} {y : Outcome (Option Value)} {w' : World H}
    (hw : C.Holds w) (hs : C.admits (.list s)) (h : s.Advances E w y w') :
    C.Leads w w' ∧ ∀ v, y = .ok (some v) → C.admits v := by
  have hitem : ∀ x, C.Item x → ∀ v, Sequence.outcomeOf x = .ok (some v) → C.admits v := by
    intro x hx v hv
    match x with
    | none | some (.error _) => cases hv
    | some (.ok u) =>
      cases hv
      exact hx v rfl
  cases h with
  | failed => exact ⟨.refl hw, nofun⟩
  | still => exact ⟨.refl hw, nofun⟩
  | pulled r r' x v hfailure hbusy hreader hreads =>
    have hr := hw.reading s r hreader
    cases hreads with
    | logged item hlog =>
      have hx : C.Item (some item) := by
        intro v hv
        cases hv
        exact hw.logged _ _ v hlog
      rw [World.settled_waiting]
      exact ⟨.deed (fun calls => .take w calls s r (some item) hfailure hbusy hreader hlog nofun)
        trivial hs (w.extends_settled s _ _) (hw.settled s hx (hr.advance hlog)) rfl, hitem _ hx⟩
    | paused hlog hphase =>
      rw [World.settled_waiting]
      exact ⟨.deed (fun calls => .take w calls s r none hfailure hbusy hreader hlog fun _ => hphase)
        trivial hs (w.extends_settled s _ _) (hw.settled s C.item_none hr) rfl, hitem _ C.item_none⟩
    | drove p p' x v hlog hphase hnext =>
      -- the sequence waits and the tape is at work while the producer is called
      have hwaiting := w.extends_updateSequence s SequenceState.waiting
      have hrunning := hwaiting.trans ((w.waiting s).extends_running r.tape)
      have hcalled := (hw.waiting s).running r.tape
      obtain ⟨hleads, hx, hp'⟩ := hE.next hcalled ((hw.idle _ p hphase).mono hrunning) hnext
      have hrecorded := hleads.holds.recorded r.tape hx hp'
      have hstands := ((hr.mono hrunning).mono hleads.extends_).past_recorded x p'
      have hextends := (hrunning.trans hleads.extends_).trans
        ((v.extends_recorded r.tape x p').trans
          ((v.recorded r.tape x p').extends_settled s x (r.past x)))
      obtain ⟨depth, rfl⟩ := hE.depth
      exact ⟨.call (c := .pull s r) ⟨hfailure, hbusy, hreader, hlog, hphase⟩
        (hr.position_eq hlog) hs hcalled hnext hleads hextends (hrecorded.settled s hx hstands),
        hitem x hx⟩

namespace Sequence

variable {s : Sequence} (hw : C.Holds w) (hs : C.admits (.list s))
include hw hs

theorem advance_keeps :
    C.Tries w (s.advance E) fun _ x => ∀ v, x = some v → C.admits v := by
  intro y w' hrun
  obtain ⟨hleads, hy⟩ := (Sequence.run_advance_iff.mp hrun).keeps hE hw hs
  refine ⟨hleads, ?_⟩
  rintro x rfl v rfl
  exact hy v rfl

theorem produce_keeps (count : Nat) : C.Tries w (s.produce E count) fun _ _ => True := by
  induction count generalizing w with
  | zero => exact .pure hw trivial
  | succ count ih =>
    refine (advance_keeps hE hw hs).bind ?_
    intro x w' hleads _
    cases x with
    | none => exact .pure hleads.holds trivial
    | some v => exact ih hleads.holds

theorem forceThrough_keeps (index : Nat) :
    C.Tries w (s.forceThrough E index) fun _ _ => True :=
  .get_bind (produce_keeps hE hw hs _)

theorem drain_keeps (limit : Option Nat) (rounds : Nat) :
    C.Tries w (s.drain E limit rounds) fun _ _ => True := by
  induction rounds generalizing w with
  | zero => exact .lift .starve
  | succ rounds ih =>
    refine (advance_keeps hE hw hs).bind ?_
    intro x w' hleads _
    cases x with
    | none => exact .pure hleads.holds trivial
    | some v =>
      cases limit with
      | none => exact ih hleads.holds
      | some bound =>
        refine .get_bind ?_
        split
        · exact .throw hleads.holds
        · exact ih hleads.holds

theorem materialize_keeps :
    C.Tries w (s.materialize E) fun _ values => ∀ v ∈ values, C.admits v := by
  refine .get_bind ((drain_keeps hE hw hs _ _).bind ?_)
  intro _ w' hleads _
  refine .get_bind (.pure hleads.holds ?_)
  intro v hv
  obtain ⟨i, hi⟩ := Array.mem_iff_getElem?.mp hv
  exact hleads.holds.cached s i v hi

theorem length_keeps : C.Tries w (s.length E) fun _ _ => True :=
  (materialize_keeps hE hw hs).bind fun _ _ hleads _ => .pure hleads.holds trivial

end Sequence

theorem Iteration.next_keeps (hw : C.Holds w) {i : Iteration} (hi : C.Iteration w i) :
    C.Keeps w (i.next E) fun w' x => C.Item x.1 ∧ C.Iteration w' x.2 := by
  unfold Iteration.next
  split
  case h_1 v cached hcached =>
    have hadmits := hi.cached
    rw [hcached] at hadmits
    refine .pure hw ⟨?_, fun u hu => hadmits u (List.mem_cons_of_mem _ hu), hi.rest⟩
    intro u hu
    cases hu
    exact hadmits v List.mem_cons_self
  case h_2 hcached =>
    split
    · refine .pure hw ⟨?_, hi.cached, hi.rest⟩
      intro v hv
      cases hfailure : i.failure <;> simp [hfailure] at hv
    case h_2 r hrest =>
      refine (Reader.next_keeps hE hw (hi.rest r hrest)).bind ?_
      rintro ⟨item, r'⟩ w' hleads ⟨hitem, hr'⟩
      refine .pure hleads.holds ⟨hitem, hi.cached, ?_⟩
      intro q hq
      dsimp only at hq
      split at hq
      · cases hq
        exact hr'
      · cases hq

omit hE

/-! ### Canonical values -/

theorem Binary.canonical_admits {x : Double} {v : Value} (h : Binary.canonical x = .ok v) :
    C.admits v := by
  unfold Binary.canonical at h
  split at h
  · cases h
    exact C.ofRat _
  · cases h

theorem Symbolic.canonical_admits {s : Symbolic} {v : Value} (h : s.canonical = .ok v) :
    C.admits v := by
  unfold Symbolic.canonical at h
  split at h
  · exact Binary.canonical_admits h
  · exact Binary.canonical_admits h
  · split at h
    · cases h
      exact C.int _
    · cases h
  all_goals
    split at h
    · cases h
      exact C.int _
    · cases h
      exact C.ofRat _
    · cases h

theorem canonicalize_keeps (hw : C.Holds w) {x : External H.Source} (hx : C.External x) :
    C.Tries w (canonicalize x) fun _ v => C.admits v := by
  cases hx with
  | int n => exact .pure hw (C.int n)
  | rational r => exact .pure hw (C.ofRat r)
  | float x => exact .ofOutcome hw fun v hv => Binary.canonical_admits hv
  | str text => exact .pure hw (C.str text)
  | value v hv => exact .pure hw hv
  | symbolic s => exact .ofOutcome hw fun v hv => Symbolic.canonical_admits hv
  | items items hitems =>
    refine (Custody.Tries.lift (Sequence.adopt_keeps hw (p := .container items) hitems _)).bind ?_
    exact fun s w' hleads hs => .pure hleads.holds hs
  | iterator source hsource =>
    refine (Custody.Tries.lift (Sequence.adopt_keeps hw (p := .source source) hsource _)).bind ?_
    exact fun s w' hleads hs => .pure hleads.holds hs

theorem Document.toSequence_keeps (hw : C.Holds w) (d : Document) :
    C.Tries w (d.toSequence (H := H)) fun _ s => C.admits (.list s) := by
  cases d with
  | array items => exact .lift (Sequence.adopt_keeps hw (p := .documents items) trivial _)
  | null | boolean | integer | float | string | object => exact .throw hw

theorem Document.canonicalize_keeps (hw : C.Holds w) (d : Document) :
    C.Tries w (d.canonicalize (H := H)) fun _ v => C.admits v := by
  cases d with
  | integer n => exact .pure hw (C.int n)
  | string text => exact .pure hw (C.str text)
  | float x => exact .ofOutcome hw fun v hv => Binary.canonical_admits hv
  | array items =>
    refine (Document.toSequence_keeps hw _).bind ?_
    exact fun s w' hleads hs => .pure hleads.holds hs
  | null | boolean | object => exact .throw hw

include hE

/-! ### Flattening and equality -/

theorem Value.flattenWithin_keeps (depth : Nat) (hw : C.Holds w) {v : Value} (hv : C.admits v) :
    C.Tries w (v.flattenWithin E depth) fun _ _ => True := by
  induction depth generalizing w v with
  | zero => cases v <;> first | exact .pure hw trivial | exact .lift .starve
  | succ depth ih =>
    cases v with
    | int | rational | str => exact .pure hw trivial
    | list s =>
      refine (Sequence.materialize_keeps hE hw hv).bind ?_
      intro values w' hleads hvalues
      refine (Custody.Tries.mapM hleads.holds (fun v w'' hw'' hv => ih hw'' hv)
        (by simpa using hvalues)).bind ?_
      exact fun _ w'' hleads' _ => .pure hleads'.holds trivial

theorem Value.flatten_keeps (hw : C.Holds w) {v : Value} (hv : C.admits v) :
    C.Tries w (v.flatten E) fun _ _ => True :=
  Value.flattenWithin_keeps hE _ hw hv

theorem Sequence.equals_keeps (hw : C.Holds w) {s : Sequence} (hs : C.admits (.list s))
    {v : Value} (hv : C.admits v) : C.Tries w (s.equals E v) fun _ _ => True :=
  (Value.flatten_keeps hE hw hs).bind fun _ _ hleads _ =>
    (Value.flatten_keeps hE hleads.holds hv).bind fun _ _ hleads' _ => .pure hleads'.holds trivial

theorem Sequence.same_keeps (hw : C.Holds w) {s t : Sequence} (hs : C.admits (.list s))
    (ht : C.admits (.list t)) : C.Keeps w (s.same E t) fun _ _ => True := by
  unfold Sequence.same
  split
  · exact .pure hw trivial
  · refine Custody.Keeps.bind (Sequence.equals_keeps hE hw hs ht) ?_
    intro r w' hleads _
    cases r with
    | ok b => exact .pure hleads.holds trivial
    | error e => exact .pure hleads.holds trivial

theorem Value.same_keeps (hw : C.Holds w) {v u : Value} (hv : C.admits v) (hu : C.admits u) :
    C.Keeps w (v.same E u) fun _ _ => True := by
  unfold Value.same
  split
  · exact Sequence.same_keeps hE hw hv hu
  · exact .pure hw trivial

theorem Value.read_keeps (hw : C.Holds w) {v : Value} (hv : C.admits v) (type : HostType) :
    C.Tries w (v.read E type) fun _ _ => True :=
  (Value.flatten_keeps hE hw hv).bind fun _ _ hleads _ => .ofOutcome hleads.holds fun _ _ => trivial

/-! ### Positions, slices and searches -/

omit hE in
theorem Sequence.wrapped_admits {values : Array Value} (hvalues : ∀ v ∈ values, C.admits v)
    (index : Int) : C.admits (wrapped values index) := by
  unfold wrapped
  rw [Array.getD_eq_getD_getElem?]
  cases hv : values[(index % values.size).toNat]? with
  | none => exact C.int 0
  | some v => exact hvalues v (Array.mem_of_getElem? hv)

namespace Sequence

variable {s : Sequence} (hw : C.Holds w) (hs : C.admits (.list s))
include hw hs

theorem read_keeps (index : Int) : C.Tries w (s.read E index) fun _ v => C.admits v := by
  unfold read
  split
  · refine (materialize_keeps hE hw hs).bind ?_
    exact fun values w' hleads hvalues => .pure hleads.holds (wrapped_admits hvalues index)
  · refine (forceThrough_keeps hE hw hs _).bind ?_
    intro _ w' hleads _
    refine .get_bind (.pure hleads.holds (wrapped_admits ?_ index))
    intro v hv
    obtain ⟨i, hi⟩ := Array.mem_iff_getElem?.mp hv
    exact hleads.holds.cached s i v hi

omit hE in
theorem modify_overwrite_keeps (position : Nat) {v : Value} (hv : C.admits v) :
    C.Tries w (modify (·.overwrite s position v) : Attempt H Unit) fun _ _ => True :=
  .modify (.deed (fun calls => .overwrite w calls s position v) trivial ⟨hs, hv⟩
    (w.extends_updateSequence s _) (hw.overwrite s position hv) rfl) trivial

theorem overwrite_keeps (index : Int) {x : External H.Source} (hx : C.External x) :
    C.Tries w (s.overwrite E index x) fun _ _ => True := by
  refine (canonicalize_keeps hw hx).bind ?_
  intro v w' hleads hv
  have hw' := hleads.holds
  split
  · refine (length_keeps hE hw' hs).bind ?_
    intro length w'' hleads' _
    split
    · refine (Custody.Tries.throw (Q := fun _ _ => True) hleads'.holds).bind ?_
      exact fun _ w₃ hleads'' _ => modify_overwrite_keeps hleads''.holds hs _ hv
    · exact modify_overwrite_keeps hleads'.holds hs _ hv
  · refine (forceThrough_keeps hE hw' hs _).bind ?_
    intro found w'' hleads' _
    cases found with
    | true => exact modify_overwrite_keeps hleads'.holds hs _ hv
    | false => exact .get_bind (.throw hleads'.holds)

theorem readRange_keeps (step : Int) (count : Nat) (index : Int) {read : Array Value}
    (hread : ∀ v ∈ read, C.admits v) :
    C.Tries w (s.readRange E step count index read) fun _ values => ∀ v ∈ values, C.admits v := by
  induction count generalizing w index read with
  | zero => exact .pure hw (by simpa using hread)
  | succ count ih =>
    refine (read_keeps hE hw hs index).bind ?_
    intro v w' hleads hv
    refine ih hleads.holds _ ?_
    intro u hu
    rcases Array.mem_push.mp hu with hu | rfl
    · exact hread u hu
    · exact hv

end Sequence

omit hE in
/-- A slice that may be held: a list, or values. -/
def Custody.Slice (C : Custody H) : Slice → Prop
  | .lazy s => C.admits (.list s)
  | .items values => ∀ v ∈ values, C.admits v

theorem Sequence.slice_keeps (hw : C.Holds w) {s : Sequence} (hs : C.admits (.list s))
    (start stop step : Option Int) :
    C.Tries w (s.slice E start stop step) fun _ slice => C.Slice slice := by
  cases stop with
  | none =>
    refine (Custody.Tries.lift (Sequence.adopt_keeps hw (p := .strided _ _ (.pending s)) hs _)).bind
      ?_
    exact fun s' w' hleads hs' => .pure hleads.holds hs'
  | some stop =>
    have items {w : World H} (hw : C.Holds w) (step : Int) (count : Nat) (index : Int) :
        C.Tries w (do return Slice.items (← s.readRange E step count index #[]))
          fun _ slice => C.Slice slice :=
      (readRange_keeps hE hw hs step count index (by simp)).bind fun values w' hleads hvalues =>
        .pure hleads.holds hvalues
    unfold slice
    dsimp only
    split
    · refine (length_keeps hE hw hs).bind fun _ w' hleads _ =>
        (Custody.Tries.pure (Q := fun _ _ => True) hleads.holds trivial).bind ?_
      exact fun _ w'' hleads' _ => items hleads'.holds _ _ _
    · refine (Custody.Tries.pure (Q := fun _ _ => True) hw trivial).bind ?_
      exact fun _ w' hleads _ => items hleads.holds _ _ _

theorem Sequence.scan_keeps (hw : C.Holds w) {target : Value} (htarget : C.admits target)
    (rounds : Nat) {i : Iteration} (hi : C.Iteration w i) :
    C.Tries w (scan E target rounds i) fun _ _ => True := by
  induction rounds generalizing w i with
  | zero => exact .lift .starve
  | succ rounds ih =>
    refine (Custody.Tries.lift (Iteration.next_keeps hE hw hi)).bind ?_
    rintro x w' hleads ⟨hitem, hi'⟩
    match x with
    | (none, _) => exact .pure hleads.holds trivial
    | (some (.error e), _) => exact .throw hleads.holds
    | (some (.ok v), i) =>
      refine (Custody.Tries.lift
        (Value.same_keeps hE hleads.holds (hitem v rfl) htarget)).bind ?_
      intro found w'' hleads' _
      cases found with
      | true => exact .pure hleads'.holds trivial
      | false => exact ih hleads'.holds (hi'.mono hleads'.extends_)

theorem Sequence.anySame_keeps (hw : C.Holds w) {target : Value} (htarget : C.admits target)
    {values : List Value} (hvalues : ∀ v ∈ values, C.admits v) :
    C.Keeps w (anySame E target values) fun _ _ => True := by
  induction values generalizing w with
  | nil => exact .pure hw trivial
  | cons v values ih =>
    refine (Value.same_keeps hE hw (hvalues v List.mem_cons_self) htarget).bind ?_
    intro found w' hleads _
    cases found with
    | true => exact .pure hleads.holds trivial
    | false => exact ih hleads.holds fun u hu => hvalues u (List.mem_cons_of_mem _ hu)

theorem Sequence.climb_keeps (hw : C.Holds w) {s : Sequence} (hs : C.admits (.list s))
    {target : Value} (htarget : C.admits target) (rounds : Nat) (last : Value) :
    C.Tries w (s.climb E target rounds last) fun _ _ => True := by
  induction rounds generalizing w last with
  | zero => exact .lift .starve
  | succ rounds ih =>
    unfold climb
    split
    · refine (advance_keeps hE hw hs).bind ?_
      intro x w' hleads hx
      cases x with
      | none => exact .pure hleads.holds trivial
      | some v =>
        refine (Custody.Tries.lift
          (Value.same_keeps hE hleads.holds (hx v rfl) htarget)).bind ?_
        intro found w'' hleads' _
        cases found with
        | true => exact .pure hleads'.holds trivial
        | false => exact ih hleads'.holds v
    · exact .pure hw trivial

theorem Sequence.contains_keeps (hw : C.Holds w) {s : Sequence} (hs : C.admits (.list s))
    {target : Value} (htarget : C.admits target) :
    C.Tries w (s.contains E target) fun _ _ => True := by
  refine .get_bind ?_
  dsimp only
  split
  · refine (Custody.Tries.lift (anySame_keeps hE hw htarget ?_)).bind ?_
    · intro v hv
      obtain ⟨i, hi⟩ := List.mem_iff_getElem?.mp hv
      exact hw.cached s i v (by simpa using hi)
    · intro found w' hleads _
      cases found with
      | true => exact .pure hleads.holds trivial
      | false => exact climb_keeps hE hleads.holds hs htarget _ _
  · exact scan_keeps hE hw htarget _ (hw.iteration s)

theorem Sequence.countSame_keeps (hw : C.Holds w) {target : Value} (htarget : C.admits target)
    {values : List Value} (hvalues : ∀ v ∈ values, C.admits v) :
    C.Keeps w (countSame E target values) fun _ _ => True := by
  unfold countSame
  generalize 0 = n
  induction values generalizing w n with
  | nil => exact .pure hw trivial
  | cons v values ih =>
    rw [List.foldlM_cons]
    have hone : C.Keeps w (do return if ← v.same E target then n + 1 else n : Act H Nat)
        fun _ _ => True :=
      (Value.same_keeps hE hw (hvalues v List.mem_cons_self) htarget).bind fun _ _ hleads _ =>
        .pure hleads.holds trivial
    refine hone.bind ?_
    exact fun _ w' hleads _ => ih hleads.holds (fun u hu => hvalues u (List.mem_cons_of_mem _ hu)) _

theorem Sequence.count_keeps (hw : C.Holds w) {s : Sequence} (hs : C.admits (.list s))
    {target : Value} (htarget : C.admits target) :
    C.Tries w (s.count E target) fun _ _ => True :=
  (materialize_keeps hE hw hs).bind fun _ _ hleads hvalues =>
    .lift (countSame_keeps hE hleads.holds htarget (by simpa using hvalues))

/-! ### Derived sequences -/

omit hE in
/-- Any list may be filtered, also one that may not be held. -/
theorem Sequence.filter_keeps (hw : C.Holds w) (s : Sequence) {test : H.Test} (ht : C.test test) :
    C.Keeps w (s.filter test) fun _ s' => C.admits (.list s') :=
  .get_bind (adopt_keeps hw (p := .filtered test (.pending s)) ⟨ht, trivial⟩ _)

omit hE in
theorem Sequence.append_keeps (hw : C.Holds w) (s t : Sequence) :
    C.Keeps w (s.append (H := H) t) fun _ s' => C.admits (.list s') := by
  refine .get_bind (adopt_keeps hw (p := .joined _ (.pending t)) ⟨?_, trivial⟩ _)
  intro i hi
  cases hi
  exact hw.iteration s

theorem Sequence.reverse_keeps (hw : C.Holds w) {s : Sequence} (hs : C.admits (.list s)) :
    C.Tries w (s.reverse E) fun _ s' => C.admits (.list s') := by
  refine (materialize_keeps hE hw hs).bind ?_
  intro values w' hleads hvalues
  refine .lift (adopt_keeps hleads.holds (p := .values _) ?_ _)
  intro v hv
  exact hvalues v (by simpa using hv)

namespace Slice

omit hE in
theorem toSequence_keeps (hw : C.Holds w) {slice : Slice} (hslice : C.Slice slice) :
    C.Keeps w (slice.toSequence (H := H)) fun _ s => C.admits (.list s) := by
  cases slice with
  | lazy s => exact .pure hw hslice
  | items values => exact Sequence.adopt_keeps hw (p := .values values) hslice _

theorem toList_keeps (hw : C.Holds w) {slice : Slice} (hslice : C.Slice slice) :
    C.Tries w (slice.toList E) fun _ values => ∀ v ∈ values, C.admits v := by
  cases slice with
  | lazy s =>
    refine (Sequence.materialize_keeps hE hw hslice).bind ?_
    exact fun values w' hleads hvalues => .pure hleads.holds (by simpa using hvalues)
  | items values => exact .pure hw hslice

end Slice

/-! ### Producers -/

namespace Producer

theorem search_keeps (hw : C.Holds w) {test : H.Test} (ht : C.test test) (rounds : Nat)
    {i : Iteration} (hi : C.Iteration w i) :
    C.Keeps w (search E test rounds i) fun w' x => C.Item x.1 ∧ C.Deferred w' x.2 := by
  induction rounds generalizing w i with
  | zero => exact .starve
  | succ rounds ih =>
    refine (Iteration.next_keeps hE hw hi).bind ?_
    rintro ⟨_ | e | v, i⟩ w' hleads ⟨hitem, hi'⟩
    · exact .pure hleads.holds ⟨C.item_none, trivial⟩
    · exact .pure hleads.holds ⟨C.item_error e, hi'⟩
    · refine Custody.Keeps.bind (hE.test hleads.holds ht (hitem v rfl)) ?_
      intro passed w'' hleads' _
      have hi'' := hi'.mono hleads'.extends_
      rcases passed with e | _ | _
      · exact .pure hleads'.holds ⟨C.item_error e, hi''⟩
      · exact ih hleads'.holds hi''
      · exact .pure hleads'.holds ⟨hitem, hi''⟩

/-- The search of a filter keeps to the custody. -/
theorem searching_keeps (hw : C.Holds w) {test : H.Test} (ht : C.test test) {i : Iteration}
    (hi : C.Iteration w i) :
    C.Keeps w (do
        let (item, state) ← search E test E.fuel i
        return (item, .filtered test state))
      fun w' x => C.Item x.1 ∧ C.Producer w' x.2 :=
  (search_keeps hE hw ht _ hi).bind fun _ _ hleads hx => .pure hleads.holds ⟨hx.1, ht, hx.2⟩

theorem along_keeps (hw : C.Holds w) {i : Iteration} (hi : C.Iteration w i) :
    C.Keeps w (nextDeferred.along E i) fun w' x => C.Item x.1 ∧ C.Deferred w' x.2 := by
  refine (Iteration.next_keeps hE hw hi).bind ?_
  rintro ⟨_ | item, i⟩ w' hleads ⟨hitem, hi'⟩
  · exact .pure hleads.holds ⟨C.item_none, trivial⟩
  · exact .pure hleads.holds ⟨hitem, hi'⟩

theorem nextDeferred_keeps (hw : C.Holds w) {state : Deferred Sequence Iteration}
    (hstate : C.Deferred w state) :
    C.Keeps w (nextDeferred E state) fun w' x => C.Item x.1 ∧ C.Deferred w' x.2 := by
  cases state with
  | pending s => exact .get_bind (along_keeps hE hw (hw.iteration s))
  | opened i => exact along_keeps hE hw hstate
  | finished => exact .pure hw ⟨C.item_none, trivial⟩

/-- A concatenation of which only the right part is left keeps to the custody. -/
theorem going_keeps (hw : C.Holds w) {right : Deferred Sequence Iteration}
    (hright : C.Deferred w right) :
    C.Keeps w (do
        let (item, right) ← nextDeferred E right
        return (item, .joined none right))
      fun w' x => C.Item x.1 ∧ C.Producer w' x.2 := by
  refine (nextDeferred_keeps hE hw hright).bind fun x w' hleads hx =>
    .pure hleads.holds ⟨hx.1, ?_, hx.2⟩
  intro i hi
  cases hi

omit hE in
/-- A canonical value, or the failure to become one, as the next item of a producer. -/
theorem outcome_keeps {a : Attempt H Value} {p : Producer H}
    (ha : C.Tries w a fun _ v => C.admits v) (hp : ∀ w', C.Producer w' p) :
    C.Keeps w (do return (some (← a.outcome), p)) fun w' x => C.Item x.1 ∧ C.Producer w' x.2 := by
  refine Custody.Keeps.bind ha ?_
  intro r w' hleads hr
  refine .pure hleads.holds ⟨?_, hp w'⟩
  intro v hv
  cases hv
  exact hr v rfl

omit hE in
theorem nextValue_keeps (start step : Int) {values : List Value}
    (hvalues : ∀ v ∈ values, C.admits v) :
    C.Item (nextValue values).1 ∧ C.Producer w (.strided start step (nextValue values).2) := by
  cases values with
  | nil => exact ⟨C.item_none, trivial⟩
  | cons v rest =>
    exact ⟨C.item_ok (hvalues v List.mem_cons_self),
      fun u hu => hvalues u (List.mem_cons_of_mem _ hu)⟩

theorem next_source_keeps (hw : C.Holds w) {s : H.Source} (hs : C.source s) :
    C.KeepsBy (C.worth s) w (next E (.source s)) fun w' x => C.Item x.1 ∧ C.Producer w' x.2 := by
  refine Custody.KeepsBy.bind (k := fun _ => 0) (hE.pull hw hs) ?_
  rintro ⟨_ | e | x, s⟩ w' hleads ⟨hx, hs⟩
  · exact Custody.Keeps.pure hleads.holds ⟨C.item_none, hs⟩
  · exact Custody.Keeps.pure hleads.holds ⟨C.item_error e, hs⟩
  · exact outcome_keeps (canonicalize_keeps hleads.holds (hx x rfl)) fun _ => hs

/-- A producer that is no iterator of the host calls none itself. -/
theorem next_own_keeps (hw : C.Holds w) {p : Producer H} (hp : C.Producer w p)
    (hown : ∀ s, p ≠ .source s) :
    C.Keeps w (p.next E) fun w' x => C.Item x.1 ∧ C.Producer w' x.2 := by
  cases p with
  | source s => exact (hown s rfl).elim
  | container items =>
    cases items with
    | nil => exact .pure hw ⟨C.item_none, hp⟩
    | cons x items =>
      exact outcome_keeps (canonicalize_keeps hw (hp x List.mem_cons_self))
        fun _ y hy => hp y (List.mem_cons_of_mem _ hy)
  | values items =>
    cases items with
    | nil => exact .pure hw ⟨C.item_none, hp⟩
    | cons v items =>
      exact .pure hw ⟨C.item_ok (hp v List.mem_cons_self),
        fun u hu => hp u (List.mem_cons_of_mem _ hu)⟩
  | documents items =>
    cases items with
    | nil => exact .pure hw ⟨C.item_none, trivial⟩
    | cons d items => exact outcome_keeps (d.canonicalize_keeps hw) fun _ => trivial
  | reader r =>
    refine (r.next_keeps hE hw hp).bind ?_
    exact fun x w' hleads hx => .pure hleads.holds hx
  | filtered test state =>
    cases state with
    | pending s => exact .get_bind (searching_keeps hE hw hp.1 (hw.iteration s))
    | opened i => exact searching_keeps hE hw hp.1 hp.2
    | finished => exact .pure hw ⟨C.item_none, hp.1, trivial⟩
  | joined left right =>
    cases left with
    | none => exact going_keeps hE hw hp.2
    | some left =>
      refine (Iteration.next_keeps hE hw (hp.1 left rfl)).bind ?_
      rintro ⟨x, left⟩ w' hleads ⟨hitem, hleft⟩
      -- the left part may have grown the world, and the right part is admitted there as well
      have hstate := hp.2.mono hleads.extends_
      cases x with
      | none => exact going_keeps hE hleads.holds hstate
      | some item =>
        refine .pure hleads.holds ⟨hitem, ?_, hstate⟩
        intro i hi
        cases hi
        exact hleft
  | strided start step state =>
    cases state with
    | pending s =>
      refine Custody.Keeps.bind (Sequence.materialize_keeps hE hw hp) ?_
      intro x w' hleads hx
      cases x with
      | error e => exact .pure hleads.holds ⟨C.item_error e, trivial⟩
      | ok all =>
        refine .pure hleads.holds (nextValue_keeps start step ?_)
        intro v hv
        obtain ⟨k, -, hk⟩ := List.mem_filterMap.mp hv
        exact hx all rfl v (Array.mem_of_getElem? hk)
    | opened rest => exact .pure hw (nextValue_keeps start step hp)
    | finished => exact .pure hw ⟨C.item_none, trivial⟩

theorem next_keeps (hw : C.Holds w) {p : Producer H} (hp : C.Producer w p) :
    C.KeepsBy (C.load p) w (p.next E) fun w' x => C.Item x.1 ∧ C.Producer w' x.2 := by
  cases p with
  | source s => exact next_source_keeps hE hw hp
  | container | values | documents | reader | filtered | joined | strided =>
    exact next_own_keeps hE hw hp nofun

end Producer

end Driving

/-! ### Hosts that keep to a custody -/

/-- The host's iterators and tests keep to the custody if what they drive does. -/
structure Custody.Kept (C : Custody H) : Prop where
  pull : ∀ {E : Engine H} {w : World H} {s : H.Source}, C.Drives E → C.Holds w → C.source s →
    C.KeepsBy (C.worth s) w (C.behavior.pull E s) fun _ x =>
      (∀ y, x.1 = some (.ok y) → C.External y) ∧ C.source x.2
  test : ∀ {E : Engine H} {w : World H} {t : H.Test} {v : Value}, C.Drives E → C.Holds w →
    C.test t → C.admits v → C.Tries w (C.behavior.test E t v) fun _ _ => True

theorem Engine.ofBehavior_drives (hC : C.Kept) (depth : Nat) :
    C.Drives (.ofBehavior C.behavior depth) := by
  induction depth with
  | zero =>
    exact ⟨⟨0, rfl⟩, fun _ _ => .starve, fun _ _ _ => Custody.KeepsBy.starve, fun _ _ => .starve⟩
  | succ depth ih =>
    exact ⟨⟨depth + 1, rfl⟩, hC.pull ih, hC.test ih, fun hw hp => Producer.next_keeps ih hw hp⟩

end MemoSeq
