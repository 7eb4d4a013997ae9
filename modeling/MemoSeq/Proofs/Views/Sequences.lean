/-
  MemoSeq/Proofs/Views/Sequences.lean
  ===================================
  **What sequences over views show.**

  A sequence over a view shows the values of the view for good, whatever is done
  (`Behavior.Views.shows`): when it is asked for the next one, in its cache, and in every
  iteration over it.  It need not be over a view from the beginning: what a stage that is
  deferred comes to is settled by the call that opens it (`Behavior.Views.shows_of_pull`).
-/
import MemoSeq.Proofs.Views.Basic

namespace MemoSeq

variable {H : Host} {B : Behavior H} {items : Nat → Option Value} {values : List Value}
variable {stage : Nat → Producer H → Prop} {all : Prop} {bottom depth : Nat}
variable {fits : Nat → Producer H → World H → Prop} {d : Sequence} {t u : Tape}
variable {w w' : World H}

/-- Whatever is done from this world on, the sequence shows these values to begin with and,
    if they are all, its end behind them.  It does so when it is advanced, and, as long as
    nothing has been put into it, in what it has cached and in every iteration over it. -/
structure Sequence.Shows (E : Engine H) (d : Sequence) (values : List Value) (all : Prop)
    (w : World H) : Prop where
  cached : ∀ {v : World H}, E.Moves w v → (v.sequence d).overwritten = [] →
    ∀ {k : Nat} {a : Value}, (v.sequence d).cache[k]? = some a → (all ∨ k < values.length) →
      values[k]? = some a
  advance : ∀ {v : World H}, E.Moves w v → (all ∨ (v.sequence d).cache.size < values.length) →
    ∃ v', (d.advance E).run.run v = .ok (.ok values[(v.sequence d).cache.size]?, v') ∧
      (v'.sequence d).cache.toList =
        (v.sequence d).cache.toList ++ values[(v.sequence d).cache.size]?.toList ∧
      (v'.sequence d).overwritten = (v.sequence d).overwritten
  iteration : ∀ {v v' : World H} {given : List (Option Item)} {i : Iteration}, E.Moves w v →
    (v.sequence d).overwritten = [] → (v.iteration d).Asked E v given i v' →
      (∀ {j : Nat} {x : Option Item}, given[j]? = some x → (all ∨ j < values.length) →
        x = values[j]?.map .ok) ∧
      ((all ∨ given.length < values.length) → ∃ i' v'',
        (i.next E).run v' = .ok ((values[given.length]?.map .ok, i'), v''))

/-- A sequence that shows these values and no others unfolds to them. -/
theorem Sequence.Shows.unfolds {E : Engine H} (h : d.Shows E values True w) :
    d.Unfolds E values fun v => E.Moves w v ∧ (v.sequence d).overwritten = [] where
  cache v hv := by
    apply List.ext_getElem?
    intro k
    rcases Nat.lt_or_ge k (v.sequence d).cache.size with hlt | hge
    · rw [List.getElem?_take, if_pos hlt, Array.getElem?_toList, Array.getElem?_eq_getElem hlt]
      exact (h.cached hv.1 hv.2 (Array.getElem?_eq_getElem hlt) (.inl trivial)).symm
    · rw [List.getElem?_eq_none (by simpa using hge),
        List.getElem?_eq_none (Nat.le_trans (List.length_take_le ..) hge)]
  advance v hv := by
    obtain ⟨v', hrun, hcache, hclean⟩ := h.advance hv.1 (.inl trivial)
    refine ⟨v', hrun, ⟨.trans hv.1 (.advance d hrun), hclean.trans hv.2⟩, ?_⟩
    have hsize := congrArg List.length hcache
    rw [List.length_append, Array.length_toList, Array.length_toList] at hsize
    rw [hsize]
    have hle : (v.sequence d).cache.size ≤ values.length := by
      rcases Nat.eq_zero_or_pos (v.sequence d).cache.size with hzero | hpos
      · omega
      · have hlast := h.cached hv.1 hv.2
          (Array.getElem?_eq_getElem (Nat.sub_lt hpos Nat.one_pos)) (.inl trivial)
        have hlt := (List.getElem?_eq_some_iff.mp hlast).1
        omega
    rcases Nat.lt_or_eq_of_le hle with hlt | heq
    · simp only [List.getElem?_eq_getElem hlt, Option.toList_some, List.length_singleton]
      omega
    · simp [heq]

section Views

variable (hV : B.Views items stage t values all bottom fits)

/-- A sequence over a view has cached what the view gives. -/
theorem Provision.Supplies.view_cached
    (h : (Provision.view items stage t values all fits).Supplies d u w)
    (hclean : (w.sequence d).overwritten = []) {k : Nat} {a : Value}
    (ha : (w.sequence d).cache[k]? = some a) (hknown : all ∨ k < values.length) :
    values[k]? = some a := by
  obtain ⟨given, hlog, hshown⟩ := h.mirrors.cached k a ha
  have hitem : (some (.ok given) : Option Item) = values[k]?.map .ok := h.logged k _ hlog hknown
  rw [SequenceState.shown, hclean] at hshown
  cases hv : values[k]? with
  | none =>
    rw [hv] at hitem
    cases hitem
  | some b =>
    rw [hv] at hitem
    cases hitem
    exact congrArg some hshown.symm

variable (hB : B.Lawful) (hS : B.Streams items stage) (htu : t.id < u.id)
variable (hdepth : bottom < depth)
include hV hB hS htu hdepth

/-- An iteration over a sequence over a view gives what is due. -/
theorem Iteration.Follows.run_next_view {found : List Value} {asked : Nat} {i : Iteration}
    (h : i.Follows u w found asked)
    (hstocks : (Provision.view items stage t values all fits).Stocks u w)
    (hfound : ∀ a, found[asked]? = some a → values[asked]? = some a)
    (hknown : all ∨ asked < values.length) :
    ∃ i' w', (i.next (.ofBehavior B depth)).run w = .ok ((values[asked]?.map .ok, i'), w') ∧
      i'.Follows u w' found (asked + 1) := by
  have hmanages : (i.next (.ofBehavior B depth)).Manages False w _ :=
    h.next_manages hstocks.sound hstocks fun hposition => by
      obtain ⟨w', hrun, hlog, hended, hstocks', -⟩ :=
        hV.run_read hB hS htu hdepth hstocks hposition hknown
      exact .of_run hrun
        ⟨rfl, hlog, fun hnone => hended (Option.map_eq_none_iff.mp hnone), hstocks'⟩
  obtain ⟨⟨x, i'⟩, w', hrun, hfollows, hx, hnone, hstocks'⟩ := hmanages.run id
  obtain rfl : x = values[asked]?.map .ok := hstocks'.view_behind hfound hknown hx hnone
  exact ⟨i', w', hrun, hfollows⟩

theorem Iteration.Asked.view (h : (Provision.view items stage t values all fits).Supplies d u w)
    (hclean : (w.sequence d).overwritten = []) {given : List (Option Item)} {i : Iteration}
    (hasked : (w.iteration d).Asked (.ofBehavior B depth) w given i w') :
    (Provision.view items stage t values all fits).Stocks u w' ∧
      (all ∨ given.length ≤ values.length →
        i.Follows u w' (w.sequence d).cache.toList given.length) ∧
      ∀ j x, given[j]? = some x → (all ∨ j < values.length) → x = values[j]?.map .ok := by
  have hne : t ≠ u := fun heq => Nat.ne_of_lt htu (congrArg Tape.id heq)
  induction hasked with
  | opened => exact ⟨h.toStocks, fun _ => .opened h, by simp⟩
  | meanwhile _ hmoves ih =>
    obtain ⟨hstocks, hfollows, hgiven⟩ := ih
    obtain ⟨hstocks', hgoes⟩ := Engine.moves_views hV hB hS hne hmoves hstocks
    exact ⟨hstocks', fun hknown => (hfollows hknown).of_goes hgoes, hgiven⟩
  | @next given x i' i'' w' w'' _ hnext ih =>
    obtain ⟨hstocks, hfollows, hgiven⟩ := ih
    have hstocks' := (Engine.moves_views hV hB hS hne (i'.next_moves _ hnext) hstocks).1
    have hdue (hknown : all ∨ given.length < values.length) :
        x = values[given.length]?.map .ok ∧
          i''.Follows u w'' (w.sequence d).cache.toList (given.length + 1) := by
      obtain ⟨j', v, hrun, hfollows'⟩ := (hfollows (hknown.imp_right Nat.le_of_lt)).run_next_view
        hV hB hS htu hdepth hstocks (fun a ha => h.view_cached hclean (by simpa using ha) hknown)
        hknown
      cases hnext.symm.trans hrun
      exact ⟨rfl, hfollows'⟩
    refine ⟨hstocks', fun hknown => ?_, fun j z hz hknown => ?_⟩
    · rw [List.length_append, List.length_singleton] at hknown ⊢
      exact (hdue hknown).2
    · rcases Nat.lt_or_ge j given.length with hlt | hge
      · rw [List.getElem?_append_left hlt] at hz
        exact hgiven j z hz hknown
      · obtain ⟨rfl, rfl⟩ : j = given.length ∧ z = x := by
          obtain ⟨hlt, hz⟩ := List.getElem?_eq_some_iff.mp hz
          rw [List.length_append, List.length_singleton] at hlt
          obtain rfl : j = given.length := by omega
          exact ⟨rfl, by simpa using hz.symm⟩
        exact (hdue hknown).1

/-- A sequence that draws from a tape with a view shows its values for good. -/
theorem Behavior.Views.shows (hm : Moment.Ordered ⟨w, []⟩) (hd : Moment.Draws ⟨w, []⟩ d u)
    (hstocks : (Provision.view items stage t values all fits).Stocks u w) :
    d.Shows (.ofBehavior B depth) values all w := by
  have hne : t ≠ u := fun heq => Nat.ne_of_lt htu (congrArg Tape.id heq)
  have supplied {v : World H} (hmoves : (Engine.ofBehavior B depth).Moves w v) :
      (Provision.view items stage t values all fits).Supplies d u v :=
    (hd.steps hm (Engine.moves_steps hB hmoves [])).supplies
      (Engine.moves_views hV hB hS hne hmoves hstocks).1
  refine ⟨fun hmoves hclean _ _ => (supplied hmoves).view_cached hclean, fun hmoves hknown =>
    hV.run_advance hB hS htu hdepth (supplied hmoves) hknown, fun hmoves hclean hasked => ?_⟩
  have hsupplies := supplied hmoves
  obtain ⟨hstocks', hfollows, hgiven⟩ := hasked.view hV hB hS htu hdepth hsupplies hclean
  refine ⟨fun hx hknown => hgiven _ _ hx hknown, fun hknown => ?_⟩
  obtain ⟨i', v'', hrun, -⟩ := (hfollows (hknown.imp_right Nat.le_of_lt)).run_next_view hV hB hS htu
    hdepth hstocks' (fun a ha => hsupplies.view_cached hclean (by simpa using ha) hknown) hknown
  exact ⟨i', v'', hrun⟩

end Views

/-! ### Calls that open a view -/

/-- How the producer of the tape of a sequence comes to be called: by the sequence when it
    is advanced, or by a reader behind all that is on the tape, such as that of an
    iteration over the sequence. -/
inductive Pull where
  | sequence
  | reader

namespace Pull

def act (E : Engine H) (d : Sequence) (u : Tape) : Pull → Act H (Outcome (Option Value))
  | .sequence => (d.advance E).outcome
  | .reader => do
    let w ← get
    let (x, _) ← Reader.next E ⟨u, (w.tape u).log.size⟩
    return Sequence.outcomeOf x

/-- The world in which the producer is called. -/
def calling (w : World H) (d : Sequence) (u : Tape) : Pull → World H
  | .sequence => (w.waiting d).running u
  | .reader => w.running u

/-- The call gives the value at a position, or the end, and from then on the sequence shows
    these values and no others. -/
def Settles (E : Engine H) (d : Sequence) (u : Tape) (values : List Value) (position : Nat)
    (w : World H) (pull : Pull) : Prop :=
  ∃ w', (pull.act E d u).run w = .ok (.ok values[position]?, w') ∧ d.Shows E values True w'

theorem sequence_calling {s : Sequence} (hs : s ≠ d) (u : Tape) (pull : Pull) :
    (pull.calling w d u).sequence s = w.sequence s := by
  cases pull with
  | reader => rfl
  | sequence => exact World.sequence_updateSequence_of_ne _ hs.symm

theorem limit_calling (w : World H) (d : Sequence) (u : Tape) (pull : Pull) :
    (pull.calling w d u).limit = w.limit := by
  cases pull <;> rfl

theorem tape_calling (hne : u ≠ t) (d : Sequence) (pull : Pull) :
    (pull.calling w d u).tape t = w.tape t := by
  cases pull <;> exact World.tape_running_of_ne hne

theorem sequences_size_calling (w : World H) (d : Sequence) (u : Tape) (pull : Pull) :
    (pull.calling w d u).sequences.size = w.sequences.size := by
  cases pull <;> simp [calling]

/-- Another tape is stocked within the call as it was before. -/
theorem stocks_calling (h : (Provision.streamed items stage).Stocks t w) (hne : u ≠ t)
    (d : Sequence) (pull : Pull) :
    (Provision.streamed items stage).Stocks t (pull.calling w d u) := by
  cases pull with
  | reader => exact h.running hne
  | sequence =>
    have hwaiting : (Provision.streamed items stage).Stocks t (w.waiting d) :=
      h.of_tape h.tape_lt rfl
    exact hwaiting.running hne

end Pull

/-- Such a call opens a call of the tape, which is not one of another sequence. -/
theorem Pull.step_calling (hd : Moment.Draws ⟨w, []⟩ d u) {p : Producer H}
    (hphase : (w.tape u).phase = .idle p) {pull : Pull}
    (hbehind : pull = .sequence → (w.sequence d).cache.size = (w.tape u).log.size) :
    ∃ c, c.tape = u ∧ (∀ s r, s ≠ d → c ≠ .pull s r) ∧
      Moment.Step ⟨w, []⟩ ⟨pull.calling w d u, [c]⟩ := by
  have hlog : (w.tape u).log[(w.tape u).log.size]? = none := by simp
  cases pull with
  | reader =>
    exact ⟨_, rfl, fun _ _ _ => Call.noConfusion, .drive w [] ⟨u, (w.tape u).log.size⟩ p hlog
      hphase⟩
  | sequence =>
    have hbusy := hd.busy_eq_false fun _ => List.not_mem_nil
    obtain ⟨hreader, hfailure⟩ := hd.mirrors.reader_of_not_ended (by simp [hphase]) hbusy
    dsimp only at hreader hfailure
    rw [hbehind rfl] at hreader
    refine ⟨_, rfl, fun s r hs heq => ?_,
      .pull w [] d ⟨u, (w.tape u).log.size⟩ p hfailure hbusy hreader hlog hphase⟩
    cases heq
    exact hs rfl

/-- A call that comes at the end of what is on the tape gives what the producer gives, and
    the tape notes that. -/
theorem Pull.run_act {E : Engine H} (hd : Moment.Draws ⟨w, []⟩ d u) {p p' : Producer H}
    {x : Option Item} (hphase : (w.tape u).phase = .idle p) {pull : Pull}
    (hbehind : pull = .sequence → (w.sequence d).cache.size = (w.tape u).log.size) {v : World H}
    (hrun : (E.next p).run (pull.calling w d u) = .ok ((x, p'), v)) :
    ∃ w', (pull.act E d u).run w = .ok (Sequence.outcomeOf x, w') ∧ E.Moves w w' ∧
      (v.recorded u x p').Spares (fun _ => True) (fun _ => False) w' ∧
      (w'.sequence d).overwritten = (v.sequence d).overwritten := by
  have hlog : (w.tape u).log[(w.tape u).log.size]? = none := by simp
  cases pull with
  | reader =>
    have hread : (Reader.next E ⟨u, (w.tape u).log.size⟩).run w =
        .ok ((x, Reader.past ⟨u, (w.tape u).log.size⟩ x), v.recorded u x p') := by
      rw [Reader.run_next_of_idle hlog hphase]
      exact Act.run_bind_of_eq hrun
    exact ⟨_, (Act.run_bind_of_eq rfl).trans (Act.run_bind_of_eq hread), .next _ hread, .refl _,
      rfl⟩
  | sequence =>
    have hbusy := hd.busy_eq_false fun _ => List.not_mem_nil
    obtain ⟨hreader, hfailure⟩ := hd.mirrors.reader_of_not_ended (by simp [hphase]) hbusy
    dsimp only at hreader hfailure
    rw [hbehind rfl] at hreader
    have hread : (Reader.next E ⟨u, (w.tape u).log.size⟩).run (w.waiting d) =
        .ok ((x, Reader.past ⟨u, (w.tape u).log.size⟩ x), v.recorded u x p') := by
      rw [Reader.run_next_of_idle (w := w.waiting d) (r := ⟨u, (w.tape u).log.size⟩) hlog hphase]
      exact Act.run_bind_of_eq hrun
    have hadvance : (d.advance E).run.run w = .ok (Sequence.outcomeOf x,
        (v.recorded u x p').settled d x (Reader.past ⟨u, (w.tape u).log.size⟩ x)) := by
      rw [Sequence.run_advance_of_reader hfailure hbusy hreader, Act.run_bind_of_eq hread]
      rfl
    refine ⟨_, hadvance, .advance d hadvance, .updateSequence _ d id _, ?_⟩
    rw [World.settled, World.sequence_updateSequence]
    split
    case isTrue => exact SequenceState.overwritten_settled ..
    case isFalse => rfl

/-- If what a producer does when it is called is what a producer of a view does, the call
    gives what is due, and from then on the sequence shows the values of the view. -/
theorem Behavior.Views.shows_of_pull (hV : B.Views items stage t values all bottom fits)
    (hB : B.Lawful) (hS : B.Streams items stage) (htu : t.id < u.id) (hdepth : bottom < depth)
    (hm : Moment.Ordered ⟨w, []⟩) (hd : Moment.Draws ⟨w, []⟩ d u) {p q : Producer H}
    (hphase : (w.tape u).phase = .idle p)
    (hlogged : ∀ (k : Nat) (y : Item), (w.tape u).log[k]? = some y →
      (Provision.view items stage t values all fits).allows k (some y))
    {pull : Pull} (hbehind : pull = .sequence → (w.sequence d).cache.size = (w.tape u).log.size)
    {v : World H}
    (hopens : (Engine.next (.ofBehavior B depth) p).run (pull.calling w d u) =
      (Engine.next (.ofBehavior B depth) q).run v)
    (hcell : v.tape u = (w.tape u).started)
    (hbase : (Provision.streamed items stage).Stocks t v) (hq : fits (w.tape u).log.size q v)
    (hknown : all ∨ (w.tape u).log.size < values.length) :
    ∃ w', (pull.act (.ofBehavior B depth) d u).run w =
        .ok (.ok values[(w.tape u).log.size]?, w') ∧
      d.Shows (.ofBehavior B depth) values all w' := by
  have hidle : (w.tape u).phase ≠ .ended := by simp [hphase]
  have hlt := World.lt_of_phase_ne_ended (w := v) (t := u) (by simp [hcell])
  obtain ⟨p'', v', hrun, hstocks, -, -⟩ :=
    hV.drive hB hS htu hdepth hd.sound hlogged hidle hlt hcell hbase hq hknown
  rw [← hopens] at hrun
  have houtcome : Sequence.outcomeOf (values[(w.tape u).log.size]?.map .ok) =
      .ok values[(w.tape u).log.size]? := by
    cases values[(w.tape u).log.size]? <;> rfl
  obtain ⟨w', hact, hmoves, hspares, -⟩ := Pull.run_act hd hphase hbehind hrun
  have hsteps := Engine.moves_steps hB hmoves []
  have hbase' : (Provision.streamed items stage).Stocks t _ := hstocks.relies
  have hsame := hspares.tapes t trivial hbase'.tape_lt
  refine ⟨w', houtcome ▸ hact, hV.shows hB hS htu hdepth (hm.steps hsteps) (hd.steps hm hsteps) ?_⟩
  exact hstocks.view_of_tapes hV hspares.tapesSize (hspares.tapes u trivial hstocks.tape_lt)
    (hbase'.of_tape (Nat.lt_of_lt_of_le hbase'.tape_lt hspares.tapesSize) hsame)
    (hsame ▸ .refl _)

end MemoSeq
