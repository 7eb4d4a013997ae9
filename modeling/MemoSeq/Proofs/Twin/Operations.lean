/-
  MemoSeq/Proofs/Twin/Operations.lean
  ===================================
  **Every operation comes to the same in twin worlds.**

  Lists that correspond are advanced, forced, read and searched with the same results, up to
  the numbers of lists (`Sequence.advance_follows` and what is built on it).  What is made
  of them corresponds in turn.
-/
import MemoSeq.Proofs.Twin.Acts

namespace MemoSeq

open Session (behavior host Script)

variable {E E' : Engine host} {τ τ' : TwinWorlds} {s s' t t' : Sequence} {v v' u u' : Value}

/-! ### Making lists -/

theorem Reader.onto_follows {p p' : Producer host}
    (hp : TapeState.Twin τ.pairing ⟨#[], .idle p⟩ ⟨#[], .idle p'⟩) :
    Act.Follows τ (Reader.onto p) (Reader.onto p') fun τ' r r' => r.Twin τ'.pairing r' := by
  intro r w hrun
  cases hrun
  have hπ := τ.pairing.grows_withTape τ.first.freshTape τ.second.freshTape
  refine ⟨⟨_, _, _, τ.twin.withTape (hp.mono hπ)⟩, _, rfl, rfl, hπ, ?_, .inr ⟨rfl, rfl⟩, rfl,
    Nat.zero_le _⟩
  exact { World.Leaves.refl τ.pairing τ.first with
    bypasses := .withTape τ.first p
    seen := .inl
    lists := fun hs _ => hs
    tapes := fun ht hlt => ht.resolve_right fun hfresh => by
      rw [hfresh.1] at hlt
      exact Nat.lt_irrefl _ hlt
    otherLists := rfl
    otherTapes := rfl }

theorem Sequence.adopt_follows {p p' : Producer host}
    (hp : TapeState.Twin τ.pairing ⟨#[], .idle p⟩ ⟨#[], .idle p'⟩) (infinite : Bool) :
    Act.Follows τ (adopt p infinite) (adopt p' infinite) fun τ' => τ'.pairing.lists := by
  intro s w hrun
  cases hrun
  have hπ := τ.pairing.grows_withTape τ.first.freshTape τ.second.freshTape
  refine ⟨⟨_, _, _, τ.twin.withSequence infinite (hp.mono hπ)⟩, _, rfl, rfl,
    hπ.trans (Pairing.grows_withList _ _ _), ?_, .inr ⟨rfl, rfl⟩⟩
  exact { World.Leaves.refl τ.pairing τ.first with
    bypasses := .withSequence τ.first p infinite
    seen := Or.imp_right .inr
    lists := fun hs hlt => hs.resolve_right fun hfresh => by
      rw [hfresh.1] at hlt
      exact Nat.lt_irrefl _ hlt
    tapes := fun ht hlt => ht.resolve_right fun hfresh => by
      rw [hfresh.1] at hlt
      exact Nat.lt_irrefl _ hlt
    otherLists := rfl
    otherTapes := rfl }

/-- A producer that works alike is put on a tape. -/
theorem Producer.Twin.fresh {π : Pairing} {p p' : Producer Session.host} (h : p.Twin π p') :
    TapeState.Twin π ⟨#[], .idle p⟩ ⟨#[], .idle p'⟩ :=
  .exact .nil (.idle h)

namespace Sequence

/-! ### Production -/

section Production

variable (hE : E.Follows E')
include hE

theorem advance_follows (hs : τ.pairing.lists s s') :
    Attempt.Follows τ (s.advance E) (s'.advance E') fun τ' =>
      Option.Rel (Value.Twin τ'.pairing) := by
  intro y w hrun
  have hcell := τ.twin.cell_of_lists hs
  cases run_advance_iff.mp hrun with
  | failed e he =>
    exact ⟨τ, .error e, rfl, run_advance_iff.mpr (.failed e (hcell.failure.trans he)), .refl _,
      .refl _, .error e⟩
  | still hfailure hstill =>
    have hreader : (τ.first.sequence s).reader = none → (τ.second.sequence s').reader = none := by
      have hreaders := hcell.reader
      intro hnone
      rw [hnone] at hreaders
      generalize (τ.second.sequence s').reader = r at hreaders
      cases hreaders
      rfl
    exact ⟨τ, .ok none, rfl, run_advance_iff.mpr (.still (hcell.failure.trans hfailure)
      (hstill.imp hcell.busy.trans hreader)), .refl _, .refl _, .ok .none⟩
  | pulled r q x v hfailure hbusy hreader hreads =>
    have hreaders := hcell.reader
    rw [hreader] at hreaders
    generalize hreader' : (τ.second.sequence s').reader = o at hreaders
    cases hreaders with
    | @some _ r' hr =>
      have hwaiting : (τ.first.waiting s).Twin τ.pairing (τ.second.waiting s') :=
        τ.twin.updateSequence (τ.pairing.seen_of_lists hs)
          ⟨.none, hcell.cache, hcell.infinite, rfl, hcell.failure⟩
      obtain ⟨τ', ⟨x', q'⟩, rfl, hread', hτ, hleaves, hx, hq, hended⟩ :=
        Reader.next_follows hE (τ := ⟨_, _, _, hwaiting⟩) hr (Reader.run_next_iff.mpr hreads)
      have hs' : τ'.pairing.lists s s' := hτ.lists hs
      have hlater := τ'.twin.cell_of_lists hs'
      have hsettled : ((τ'.first.sequence s).settled x (q.isExhausted τ'.first) q).Twin τ'.pairing
          ((τ'.second.sequence s').settled x' (q'.isExhausted τ'.second) q') ∧
          Outcome.Twin (Option.Rel (Value.Twin τ'.pairing)) (outcomeOf x) (outcomeOf x') := by
        cases hx with
        | none =>
          refine ⟨⟨?_, hlater.cache, hlater.infinite, rfl, hlater.failure⟩, .ok .none⟩
          dsimp only [SequenceState.settled]
          rw [hended rfl]
          split
          · exact .none
          · exact .some hq
        | some hitem =>
          cases hitem with
          | error e => exact ⟨⟨.none, hlater.cache, hlater.infinite, rfl, rfl⟩, .error e⟩
          | ok hv =>
            refine ⟨⟨.some hq, ?_, hlater.infinite, rfl, hlater.failure⟩, .ok (.some hv)⟩
            simpa [SequenceState.settled] using List.rel_append hlater.cache (.cons hv .nil)
      have htwin : (τ'.first.settled s x q).Twin τ'.pairing (τ'.second.settled s' x' q') :=
        τ'.twin.updateSequence (τ'.pairing.seen_of_lists hs') hsettled.1
      -- the list is one that corresponds, before the call and after it
      have hbefore : τ.Leaves ⟨_, _, _, hwaiting⟩ := .of_pairing (.updateSequence _ hs _)
      have hafter : τ'.Leaves ⟨_, _, _, htwin⟩ := .of_pairing (.updateSequence _ hs' _)
      exact ⟨⟨_, _, _, htwin⟩, _, rfl,
        run_advance_iff.mpr (.pulled r' q' x' _ (hcell.failure.trans hfailure)
          (hcell.busy.trans hbusy) hreader' (Reader.run_next_iff.mp hread')), hτ,
        (hbefore.trans (.refl _) hleaves hτ).trans hτ hafter (.refl _), hsettled.2⟩

theorem produce_follows (hs : τ.pairing.lists s s') (count : Nat) :
    Attempt.Follows τ (s.produce E count) (s'.produce E' count) fun _ b b' => b' = b := by
  induction count generalizing τ with
  | zero => exact .pure rfl
  | succ count ih =>
    refine (advance_follows hE hs).bind fun τ' x x' hτ hx => ?_
    cases hx with
    | none => exact .pure rfl
    | some hv => exact ih (hτ.lists hs)

theorem forceThrough_follows (hs : τ.pairing.lists s s') (index : Nat) :
    Attempt.Follows τ (s.forceThrough E index) (s'.forceThrough E' index) fun _ b b' => b' = b := by
  refine .get_bind ?_
  rw [(τ.twin.cell_of_lists hs).size]
  exact produce_follows hE hs _

theorem drain_follows (hs : τ.pairing.lists s s') (limit : Option Nat) {rounds rounds' : Nat}
    (hrounds : rounds ≤ rounds') :
    Attempt.Follows τ (s.drain E limit rounds) (s'.drain E' limit rounds') fun _ _ _ => True := by
  induction rounds generalizing τ rounds' with
  | zero => exact .starve
  | succ rounds ih =>
    obtain ⟨rounds', rfl⟩ := Nat.exists_eq_succ_of_ne_zero (Nat.ne_zero_of_lt hrounds)
    refine (advance_follows hE hs).bind fun τ' x x' hτ hx => ?_
    cases hx with
    | none => exact .pure trivial
    | some hv =>
      have hrest := ih (hτ.lists hs) (Nat.le_of_succ_le_succ hrounds)
      cases limit with
      | none => exact hrest
      | some bound =>
        refine .get_bind ?_
        rw [(τ'.twin.cell_of_lists (hτ.lists hs)).size]
        split
        · exact .throw _
        · exact hrest

theorem materialize_follows (hs : τ.pairing.lists s s') :
    Attempt.Follows τ (s.materialize E) (s'.materialize E') fun τ' vs vs' =>
      Values.Twin τ'.pairing vs.toList vs'.toList := by
  refine .get_bind ?_
  rw [τ.twin.limit]
  exact (drain_follows hE hs _ hE.fuel).bind fun τ' _ _ hτ _ =>
    .get_bind (.pure (τ'.twin.cell_of_lists (hτ.lists hs)).cache)

theorem length_follows (hs : τ.pairing.lists s s') :
    Attempt.Follows τ (s.length E) (s'.length E') fun _ n n' => n' = n :=
  (materialize_follows hE hs).bind fun _ _ _ _ hvs => .pure (by simpa using hvs.length_eq.symm)

end Production

end Sequence

/-! ### Iterations -/

theorem World.Twin.iteration {π : Pairing} {w w' : World Session.host} (h : w.Twin π w')
    (hs : π.seen s s') : (w.iteration s).Twin π (w'.iteration s') := by
  have hcell := h.cell hs
  have hreader := hcell.reader
  have hrest : Option.Rel (Reader.Twin π)
      (if (w.sequence s).busy then none else (w.sequence s).reader)
      (if (w'.sequence s').busy then none else (w'.sequence s').reader) := by
    rw [hcell.busy]
    split
    · exact .none
    · exact hreader
  refine ⟨hcell.cache, hrest, ?_⟩
  dsimp only [World.iteration]
  generalize (if (w.sequence s).busy then none else (w.sequence s).reader) = r at hrest
  generalize (if (w'.sequence s').busy then none else (w'.sequence s').reader) = r' at hrest
  cases hrest with
  | none => exact hcell.failure
  | some => rfl

theorem Iteration.next_follows (hE : E.Follows E') {i i' : Iteration}
    (hi : i.Twin τ.pairing i') :
    Act.Follows τ (i.next E) (i'.next E') fun τ' x x' =>
      Option.Rel (Item.Twin τ'.pairing) x.1 x'.1 ∧ x.2.Twin τ'.pairing x'.2 := by
  obtain ⟨cached, rest, failure⟩ := i
  obtain ⟨cached', rest', failure'⟩ := i'
  obtain ⟨hcached, hrest, hfailure⟩ := hi
  dsimp only at hcached hrest hfailure
  subst hfailure
  cases hcached with
  | cons hv hcached => exact .pure ⟨.some (.ok hv), hcached, hrest, rfl⟩
  | nil =>
    cases hrest with
    | none =>
      refine .pure ⟨?_, .nil, .none, rfl⟩
      cases failure' with
      | none => exact .none
      | some e => exact .some (.error e)
    | some hr =>
      refine (Reader.next_follows hE hr).bind fun τ' x x' hτ hx => ?_
      obtain ⟨x, q⟩ := x
      obtain ⟨x', q'⟩ := x'
      obtain ⟨hitem, hq, -⟩ := hx
      refine .pure ⟨hitem, .nil, ?_, rfl⟩
      cases hitem with
      | none => exact .none
      | some => exact .some hq

/-! ### Canonical values -/

/-- Scripts of fixed items are steady, wherever their calls are counted. -/
theorem Session.Supply.Gives.steady {supply : Supply Entry} {calls : Nat}
    {items : Nat → Option Value} (h : supply.Gives calls items) :
    Steady items fun k p => ∃ counter, p = .source ⟨supply, calls + k, counter⟩ where
  scalar := (Script.streams h none).scalar
  ended := (Script.streams h none).ended
  next := by
    rintro k p ⟨counter, rfl⟩ depth w
    refine ((Script.streams h counter).next rfl depth w).imp ?_ id
    rintro ⟨p', host, hrun, hstage⟩
    exact ⟨p', host, hrun, fun hsome => ⟨counter, hstage hsome⟩⟩
  names := by
    rintro k p ⟨counter, rfl⟩ depth w w' y hrun
    have hcounted : (w.host.countCall counter).SameNames w.host := by
      cases counter <;> exact ⟨rfl, rfl, rfl⟩
    cases depth with
    | zero => exact (Act.run_bind_eq_ok.mp hrun).elim fun _ ⟨_, h, _⟩ => (nomatch h)
    | succ depth =>
      obtain ⟨z, hpull, hz⟩ := Script.run_pull_of_gives h counter k (.ofBehavior behavior depth) w
      obtain ⟨z', u, hpull', hrest⟩ := Act.run_bind_eq_ok.mp hrun
      cases hpull.symm.trans hpull'
      rcases hz with ⟨-, rfl⟩ | ⟨x, v, -, hx, rfl⟩
      · cases hrest
        exact hcounted
      · have hcanonical := (External.run_canonicalize_of_plain (H := host) hx).2
          { w with host := w.host.countCall counter }
        cases (Act.run_bind_of_eq hcanonical).symm.trans hrest
        exact hcounted

theorem Session.Script.Twin.fresh {π : Pairing} {script script' : Script}
    (h : script.Twin script') :
    TapeState.Twin π ⟨#[], .idle (.source script)⟩ ⟨#[], .idle (.source script')⟩ := by
  obtain ⟨supply, calls, counter⟩ := script
  obtain ⟨supply', calls', counter'⟩ := script'
  obtain ⟨hsupply, hcalls, items, hgives⟩ := h
  dsimp only at hsupply hcalls hgives
  subst hsupply hcalls
  exact .fixed hgives.steady ⟨nofun, nofun, counter, rfl⟩ ⟨nofun, nofun, counter', rfl⟩

theorem canonicalize_follows {x x' : External Script} (hx : x.Twin τ.pairing x') :
    Attempt.Follows τ (canonicalize (H := host) x) (canonicalize x') fun τ' v v' =>
      v.Twin τ'.pairing v' := by
  cases hx with
  | value hv => exact .pure hv
  | @plain _ y hy =>
    obtain ⟨hscalar, hrun⟩ := External.run_canonicalize_of_plain (H := host) hy
    intro z w hz
    cases (hrun τ.first).symm.trans hz
    refine ⟨τ, y, rfl, hrun τ.second, .refl _, .refl _, ?_⟩
    cases y with
    | error e => exact .error e
    | ok v => exact .ok (.scalar (hscalar v rfl))
  | @items xs xs' hlength hxs =>
    refine (Attempt.Follows.lift (Sequence.adopt_follows (Producer.Twin.fresh (.container ?_))
      false)).bind fun _ _ _ _ hs => .pure (.list hs)
    exact List.forall₂_iff_zip.mpr ⟨hlength, fun h => hxs h⟩
  | iterator hscript =>
    exact (Attempt.Follows.lift (Sequence.adopt_follows hscript.fresh false)).bind
      fun _ _ _ _ hs => .pure (.list hs)

theorem Flat.toExternal_twin {π : Pairing} (f : Flat) :
    External.Twin π f.toExternal f.toExternal := by
  induction f using Flat.toExternal.induct with
  | case1 | case2 | case3 => simpa [Flat.toExternal] using .plain rfl
  | case4 items ih =>
    rw [Flat.toExternal]
    refine .of_forall₂ (List.forall₂_map_left_iff.mpr (List.forall₂_map_right_iff.mpr ?_))
    exact List.forall₂_same.mpr ih

theorem HostValue.toExternal_twin {π : Pairing} (v : HostValue) :
    External.Twin π v.toExternal v.toExternal := by
  induction v using HostValue.toExternal.induct with
  | case5 f => simpa [HostValue.toExternal] using f.toExternal_twin
  | case6 items ih =>
    rw [HostValue.toExternal]
    refine .of_forall₂ (List.forall₂_map_left_iff.mpr (List.forall₂_map_right_iff.mpr ?_))
    exact List.forall₂_same.mpr ih
  | _ => simpa [HostValue.toExternal] using .plain rfl

theorem Document.toSequence_follows (d : Document) :
    Attempt.Follows τ (d.toSequence (H := host)) d.toSequence fun τ' => τ'.pairing.lists := by
  cases d with
  | array items =>
    exact .lift (Sequence.adopt_follows (Producer.Twin.fresh (.documents items)) false)
  | null | boolean | integer | float | string | object => exact .throw _

theorem Document.canonicalize_follows (d : Document) :
    Attempt.Follows τ (d.canonicalize (H := host)) d.canonicalize fun τ' v v' =>
      v.Twin τ'.pairing v' := by
  cases d with
  | integer | string => exact .pure (.scalar rfl)
  | float x =>
    refine .ofOutcome ?_
    cases hx : x.canonical with
    | error e => exact .error e
    | ok v => exact .ok (.scalar (Binary.asList?_canonical hx))
  | array items =>
    exact (Document.toSequence_follows (.array items)).bind fun _ _ _ _ hs => .pure (.list hs)
  | null | boolean | object => exact .throw _

/-! ### Flattening and equality -/

section Equality

variable (hE : E.Follows E')
include hE

theorem Value.flattenWithin_follows {depth depth' : Nat} (hdepth : depth ≤ depth')
    (hv : v.Twin τ.pairing v') :
    Attempt.Follows τ (v.flattenWithin E depth) (v'.flattenWithin E' depth') fun _ f f' =>
      f' = f := by
  induction depth generalizing depth' τ v v' with
  | zero =>
    cases hv with
    | list => exact .starve
    | scalar hscalar =>
      cases v with
      | int | rational | str => cases depth' <;> exact .pure rfl
      | list => cases hscalar
  | succ depth ih =>
    obtain ⟨depth', rfl⟩ := Nat.exists_eq_succ_of_ne_zero (Nat.ne_zero_of_lt hdepth)
    cases hv with
    | scalar hscalar =>
      cases v with
      | int | rational | str => exact .pure rfl
      | list => cases hscalar
    | list hs =>
      refine (Sequence.materialize_follows hE hs).bind fun τ₁ vs vs' hτ₁ hvs => ?_
      refine (Attempt.Follows.mapM (R := fun τ => Value.Twin τ.pairing) (S := fun _ f f' => f' = f)
        (fun hτ hv => hv.mono hτ) (fun _ hf => hf)
        (fun τ v v' hv => ih (Nat.le_of_succ_le_succ hdepth) hv) hvs).bind fun _ fs fs' _ hfs => ?_
      have hsame : fs' = fs := by
        induction hfs with
        | nil => rfl
        | cons hf _ ih => rw [hf, ih]
      exact .pure (congrArg Flat.list hsame)

theorem Value.flatten_follows (hv : v.Twin τ.pairing v') :
    Attempt.Follows τ (v.flatten E) (v'.flatten E') fun _ f f' => f' = f :=
  Value.flattenWithin_follows hE hE.fuel hv

theorem Sequence.equals_follows (hs : τ.pairing.lists s s') (hv : v.Twin τ.pairing v') :
    Attempt.Follows τ (s.equals E v) (s'.equals E' v') fun _ b b' => b' = b := by
  refine (Value.flatten_follows hE (.list hs)).bind fun τ₁ f f' hτ₁ hf => ?_
  refine (Value.flatten_follows hE (hv.mono hτ₁)).bind fun _ g g' _ hg => ?_
  exact .pure (by rw [hf, hg])

theorem Sequence.same_follows (hs : τ.pairing.lists s s') (ht : τ.pairing.lists t t') :
    Act.Follows τ (s.same E t) (s'.same E' t') fun _ b b' => b' = b := by
  unfold Sequence.same
  have hunique := τ.twin.lists.unique (τ.pairing.seen_of_lists hs) (τ.pairing.seen_of_lists ht)
  by_cases heq : s = t
  · rw [if_pos heq, if_pos (hunique.mp heq)]
    exact .pure rfl
  · rw [if_neg heq, if_neg fun hsame => heq (hunique.mpr hsame)]
    refine Act.Follows.bind (Sequence.equals_follows hE hs (.list ht)) fun _ x x' _ hx => ?_
    cases hx with
    | ok hb => exact .pure hb
    | error e => exact .pure rfl

theorem Value.same_follows (hv : v.Twin τ.pairing v') (hu : u.Twin τ.pairing u') :
    Act.Follows τ (v.same E u) (v'.same E' u') fun _ b b' => b' = b := by
  cases hv with
  | list hs =>
    cases hu with
    | list ht => exact Sequence.same_follows hE hs ht
    | scalar hscalar =>
      cases u with
      | int | rational | str => exact .pure rfl
      | list => cases hscalar
  | scalar hscalar =>
    have hsame := (Value.Twin.scalar (π := τ.pairing) hscalar).sameScalar hu
    cases v with
    | int | rational | str => exact .pure hsame
    | list => cases hscalar

theorem Value.read_follows (hv : v.Twin τ.pairing v') (type : HostType) :
    Attempt.Follows τ (v.read E type) (v'.read E' type) fun _ x x' => x' = x := by
  refine (Value.flatten_follows hE hv).bind fun _ f f' _ hf => .ofOutcome ?_
  obtain rfl := hf
  cases type.read f' with
  | ok => exact .ok rfl
  | error e => exact .error e

end Equality

/-! ### Positions and slices -/

/-- What is listed is alike at each position. -/
theorem Values.Twin.getD {π : Pairing} {vs vs' : Array Value}
    (h : Values.Twin π vs.toList vs'.toList) (i : Nat) :
    (vs.getD i .zero).Twin π (vs'.getD i .zero) := by
  have hi : Option.Rel (Value.Twin π) vs[i]? vs'[i]? := by simpa using h.getElem? i
  rw [Array.getD_eq_getD_getElem?, Array.getD_eq_getD_getElem?]
  generalize vs[i]? = x, vs'[i]? = x' at hi
  cases hi with
  | none => exact .scalar rfl
  | some hv => exact hv

theorem Sequence.wrapped_twin {π : Pairing} {vs vs' : Array Value}
    (h : Values.Twin π vs.toList vs'.toList) (index : Int) :
    (wrapped vs index).Twin π (wrapped vs' index) := by
  have hsize : vs'.size = vs.size := by simpa using h.length_eq.symm
  rw [wrapped, wrapped, hsize]
  exact h.getD _

theorem stride_twin {π : Pairing} {vs vs' : Array Value}
    (h : Values.Twin π vs.toList vs'.toList) (start step : Int) :
    Values.Twin π (stride vs start step) (stride vs' start step) := by
  have hsize : vs'.size = vs.size := by simpa using h.length_eq.symm
  unfold stride
  rw [hsize]
  dsimp only
  generalize (if 0 < step then if start < 0 then max (start + (vs.size : Int)) 0
    else min start vs.size else if start < 0 then start + vs.size
    else min start (vs.size - 1)) = first
  generalize List.range _ = ks
  induction ks with
  | nil => exact .nil
  | cons k ks ih =>
    have hk : Option.Rel (Value.Twin π) vs[(first + (k : Int) * step).toNat]?
        vs'[(first + (k : Int) * step).toNat]? := by
      simpa using h.getElem? (first + (k : Int) * step).toNat
    rw [List.filterMap_cons, List.filterMap_cons]
    generalize vs[(first + (k : Int) * step).toNat]? = x at hk
    generalize vs'[(first + (k : Int) * step).toNat]? = x' at hk
    cases hk with
    | none => exact ih
    | some hv => exact .cons hv ih

inductive Slice.Twin (π : Pairing) : Slice → Slice → Prop
  | lazy {s s' : Sequence} : π.lists s s' → Twin π (.lazy s) (.lazy s')
  | items {vs vs' : List Value} : Values.Twin π vs vs' → Twin π (.items vs) (.items vs')

namespace Sequence

section Positions

variable (hE : E.Follows E')
include hE

theorem read_follows (hs : τ.pairing.lists s s') (index : Int) :
    Attempt.Follows τ (s.read E index) (s'.read E' index) fun τ' v v' =>
      v.Twin τ'.pairing v' := by
  unfold read
  split
  · exact (materialize_follows hE hs).bind fun _ _ _ _ hvs => .pure (wrapped_twin hvs index)
  · exact (forceThrough_follows hE hs _).bind fun τ' _ _ hτ _ =>
      .get_bind (.pure (wrapped_twin (τ'.twin.cell_of_lists (hτ.lists hs)).cache index))

omit hE in
theorem modify_overwrite_follows (hs : τ.pairing.lists s s') (position : Nat)
    (hv : v.Twin τ.pairing v') :
    Attempt.Follows τ (modify (·.overwrite s position v) : Attempt host Unit)
      (modify (·.overwrite s' position v')) fun _ _ _ => True := by
  have hcell := τ.twin.cell_of_lists hs
  refine .lift (.modify (τ.twin.updateSequence (τ.pairing.seen_of_lists hs) ?_)
    (.updateSequence _ hs _) trivial)
  rw [hcell.size]
  split
  · refine ⟨hcell.reader, ?_, hcell.infinite, hcell.busy, hcell.failure⟩
    simpa only [Array.toList_setIfInBounds] using hcell.cache.set position hv
  · exact hcell

theorem overwrite_follows (hs : τ.pairing.lists s s') (index : Int)
    {x x' : External Script} (hx : x.Twin τ.pairing x') :
    Attempt.Follows τ (s.overwrite E index x) (s'.overwrite E' index x') fun _ _ _ => True := by
  refine (canonicalize_follows hx).bind fun τ₁ v v' hτ₁ hv => ?_
  have hs₁ := hτ₁.lists hs
  split
  · refine (length_follows hE hs₁).bind fun τ₂ n n' hτ₂ hn => ?_
    obtain rfl := hn
    split
    · exact (Attempt.Follows.throw (Q := fun _ _ _ => True) _).bind fun τ₃ _ _ hτ₃ _ =>
        modify_overwrite_follows ((hτ₂.trans hτ₃).lists hs₁) _ (hv.mono (hτ₂.trans hτ₃))
    · exact modify_overwrite_follows (hτ₂.lists hs₁) _ (hv.mono hτ₂)
  · refine (forceThrough_follows hE hs₁ _).bind fun τ₂ found found' hτ₂ hfound => ?_
    obtain rfl := hfound
    cases found' with
    | true => exact modify_overwrite_follows (hτ₂.lists hs₁) _ (hv.mono hτ₂)
    | false =>
      refine .get_bind ?_
      rw [(τ₂.twin.cell_of_lists (hτ₂.lists hs₁)).size]
      exact .throw _

theorem readRange_follows (hs : τ.pairing.lists s s') (step : Int) (count : Nat) (index : Int)
    {read read' : Array Value} (hread : Values.Twin τ.pairing read.toList read'.toList) :
    Attempt.Follows τ (s.readRange E step count index read)
      (s'.readRange E' step count index read') fun τ' => Values.Twin τ'.pairing := by
  induction count generalizing τ index read read' with
  | zero => exact .pure hread
  | succ count ih =>
    refine (read_follows hE hs index).bind fun τ₁ v v' hτ₁ hv => ih (hτ₁.lists hs) _ ?_
    simpa using List.rel_append (hread.mono hτ₁) (.cons hv .nil)

theorem slice_follows (hs : τ.pairing.lists s s') (start stop step : Option Int) :
    Attempt.Follows τ (s.slice E start stop step) (s'.slice E' start stop step) fun τ' x x' =>
      x.Twin τ'.pairing x' := by
  cases stop with
  | none =>
    exact (Attempt.Follows.lift (adopt_follows (Producer.Twin.fresh (.strided _ _ (.pending hs)))
      false)).bind fun _ _ _ _ ht => .pure (.lazy ht)
  | some stop =>
    have items {τ' : TwinWorlds} (hτ : τ.Grows τ') (step : Int) (count : Nat) (index : Int) :
        Attempt.Follows τ' (do return Slice.items (← s.readRange E step count index #[]))
          (do return Slice.items (← s'.readRange E' step count index #[])) fun τ'' x x' =>
            x.Twin τ''.pairing x' :=
      (readRange_follows hE (hτ.lists hs) step count index .nil).bind fun _ _ _ _ hvs =>
        .pure (.items hvs)
    unfold slice
    dsimp only
    split
    · refine (length_follows hE hs).bind fun τ₁ n n' hτ₁ hn => ?_
      obtain rfl := hn
      refine Attempt.Follows.bind (Q := fun _ k k' => k' = k) (.pure rfl) fun τ₂ k k' hτ₂ hk => ?_
      obtain rfl := hk
      exact items (hτ₁.trans hτ₂) _ _ _
    · refine Attempt.Follows.bind (Q := fun _ k k' => k' = k) (.pure rfl) fun τ₁ k k' hτ₁ hk => ?_
      obtain rfl := hk
      exact items hτ₁ _ _ _

end Positions

end Sequence

namespace Slice

theorem toSequence_follows {x x' : Slice} (hx : x.Twin τ.pairing x') :
    Act.Follows τ (x.toSequence (H := host)) x'.toSequence fun τ' => τ'.pairing.lists := by
  cases hx with
  | lazy hs => exact .pure hs
  | items hvs => exact Sequence.adopt_follows (Producer.Twin.fresh (.values hvs)) false

theorem toList_follows (hE : E.Follows E') {x x' : Slice} (hx : x.Twin τ.pairing x') :
    Attempt.Follows τ (x.toList E) (x'.toList E') fun τ' => Values.Twin τ'.pairing := by
  cases hx with
  | lazy hs => exact (Sequence.materialize_follows hE hs).bind fun _ _ _ _ hvs => .pure hvs
  | items hvs => exact .pure hvs

end Slice

/-! ### Searches -/

namespace Sequence

section Searches

variable (hE : E.Follows E')
include hE

theorem scan_follows (hu : u.Twin τ.pairing u') {rounds rounds' : Nat} (hrounds : rounds ≤ rounds')
    {i i' : Iteration} (hi : i.Twin τ.pairing i') :
    Attempt.Follows τ (scan E u rounds i) (scan E' u' rounds' i') fun _ b b' => b' = b := by
  induction rounds generalizing τ rounds' i i' with
  | zero => exact .starve
  | succ rounds ih =>
    obtain ⟨rounds', rfl⟩ := Nat.exists_eq_succ_of_ne_zero (Nat.ne_zero_of_lt hrounds)
    refine (Attempt.Follows.lift (Iteration.next_follows hE hi)).bind fun τ₁ x x' hτ₁ hx => ?_
    obtain ⟨x, i⟩ := x
    obtain ⟨x', i'⟩ := x'
    obtain ⟨hitem, hi⟩ := hx
    cases hitem with
    | none => exact .pure rfl
    | some hitem =>
      cases hitem with
      | error e => exact .throw e
      | ok hv =>
        refine (Attempt.Follows.lift (Value.same_follows hE hv (hu.mono hτ₁))).bind
          fun τ₂ b b' hτ₂ hb => ?_
        obtain rfl := hb
        cases b' with
        | true => exact .pure rfl
        | false =>
          exact ih (hu.mono (hτ₁.trans hτ₂)) (Nat.le_of_succ_le_succ hrounds) (hi.mono hτ₂)

theorem anySame_follows (hu : u.Twin τ.pairing u') {vs vs' : List Value}
    (hvs : Values.Twin τ.pairing vs vs') :
    Act.Follows τ (anySame E u vs) (anySame E' u' vs') fun _ b b' => b' = b := by
  induction vs generalizing τ vs' with
  | nil =>
    cases hvs
    exact .pure rfl
  | cons v vs ih =>
    cases hvs with
    | cons hv hvs =>
      refine (Value.same_follows hE hv hu).bind fun τ₁ b b' hτ₁ hb => ?_
      obtain rfl := hb
      cases b' with
      | true => exact .pure rfl
      | false => exact ih (hu.mono hτ₁) (Values.Twin.mono hvs hτ₁)

theorem climb_follows (hs : τ.pairing.lists s s') (hu : u.Twin τ.pairing u')
    {rounds rounds' : Nat} (hrounds : rounds ≤ rounds') (hv : v.Twin τ.pairing v') :
    Attempt.Follows τ (s.climb E u rounds v) (s'.climb E' u' rounds' v') fun _ b b' => b' = b := by
  induction rounds generalizing τ rounds' v v' with
  | zero => exact .starve
  | succ rounds ih =>
    obtain ⟨rounds', rfl⟩ := Nat.exists_eq_succ_of_ne_zero (Nat.ne_zero_of_lt hrounds)
    unfold climb
    rw [hv.atMost hu]
    split
    · refine (advance_follows hE hs).bind fun τ₁ x x' hτ₁ hx => ?_
      cases hx with
      | none => exact .pure rfl
      | some hlast =>
        refine (Attempt.Follows.lift (Value.same_follows hE hlast (hu.mono hτ₁))).bind
          fun τ₂ b b' hτ₂ hb => ?_
        obtain rfl := hb
        cases b' with
        | true => exact .pure rfl
        | false =>
          have hτ := hτ₁.trans hτ₂
          exact ih (hτ.lists hs) (hu.mono hτ) (Nat.le_of_succ_le_succ hrounds) (hlast.mono hτ₂)
    · exact .pure rfl

theorem contains_follows (hs : τ.pairing.lists s s') (hu : u.Twin τ.pairing u') :
    Attempt.Follows τ (s.contains E u) (s'.contains E' u') fun _ b b' => b' = b := by
  refine .get_bind ?_
  have hcell := τ.twin.cell_of_lists hs
  dsimp only
  rw [hcell.infinite]
  split
  · refine (Attempt.Follows.lift (anySame_follows hE hu hcell.cache)).bind fun τ₁ b b' hτ₁ hb => ?_
    obtain rfl := hb
    cases b' with
    | true => exact .pure rfl
    | false =>
      refine climb_follows hE (hτ₁.lists hs) (hu.mono hτ₁) hE.fuel (Value.Twin.mono ?_ hτ₁)
      have hlast : Option.Rel (Value.Twin τ.pairing)
          (τ.first.sequence s).cache.back? (τ.second.sequence s').cache.back? := by
        rw [Array.back?, Array.back?, hcell.size]
        simpa using hcell.cache.getElem? ((τ.first.sequence s).cache.size - 1)
      generalize (τ.first.sequence s).cache.back? = x at hlast
      generalize (τ.second.sequence s').cache.back? = x' at hlast
      cases hlast with
      | none => exact .scalar rfl
      | some hv => exact hv
  · exact scan_follows hE hu hE.fuel (τ.twin.iteration (τ.pairing.seen_of_lists hs))

theorem countSame_follows (hu : u.Twin τ.pairing u') {vs vs' : List Value}
    (hvs : Values.Twin τ.pairing vs vs') :
    Act.Follows τ (countSame E u vs) (countSame E' u' vs') fun _ n n' => n' = n := by
  unfold countSame
  generalize 0 = n
  induction vs generalizing τ vs' n with
  | nil =>
    cases hvs
    exact .pure rfl
  | cons v vs ih =>
    cases hvs with
    | cons hv hvs =>
      rw [List.foldlM_cons, List.foldlM_cons]
      refine Act.Follows.bind (Q := fun _ n n' => n' = n) ?_ fun τ₁ m m' hτ₁ hm => ?_
      · refine (Value.same_follows hE hv hu).bind fun _ b b' _ hb => ?_
        obtain rfl := hb
        exact .pure rfl
      · obtain rfl := hm
        exact ih (hu.mono hτ₁) (Values.Twin.mono hvs hτ₁) m'

theorem count_follows (hs : τ.pairing.lists s s') (hu : u.Twin τ.pairing u') :
    Attempt.Follows τ (s.count E u) (s'.count E' u') fun _ n n' => n' = n :=
  (materialize_follows hE hs).bind fun _ _ _ hτ hvs =>
    .lift (countSame_follows hE (hu.mono hτ) hvs)

theorem reverse_follows (hs : τ.pairing.lists s s') :
    Attempt.Follows τ (s.reverse E) (s'.reverse E') fun τ' => τ'.pairing.lists :=
  (materialize_follows hE hs).bind fun _ _ _ _ hvs =>
    .lift (adopt_follows (Producer.Twin.fresh (.values (List.rel_reverse hvs))) false)

end Searches

/-! ### Derived lists -/

theorem filter_follows (hs : τ.pairing.seen s s') {c c' : host.Test}
    (hc : Condition.Twin τ.pairing c c') :
    Act.Follows τ (s.filter (H := host) c) (s'.filter c') fun τ' => τ'.pairing.lists := by
  refine .get_bind ?_
  rw [(τ.twin.cell hs).infinite]
  exact adopt_follows (Producer.Twin.fresh (.filtered hc (.pending hs))) _

theorem append_follows (hs : τ.pairing.seen s s') (ht : τ.pairing.seen t t') :
    Act.Follows τ (s.append (H := host) t) (s'.append t') fun τ' => τ'.pairing.lists := by
  refine .get_bind ?_
  rw [(τ.twin.cell hs).infinite, (τ.twin.cell ht).infinite]
  exact adopt_follows (Producer.Twin.fresh
    (.joined (.some (τ.twin.iteration hs)) (.pending ht))) _

end Sequence

end MemoSeq
