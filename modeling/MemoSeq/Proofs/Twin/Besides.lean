/-
  MemoSeq/Proofs/Twin/Besides.lean
  ================================
  **What only the first of twin worlds does.**

  Something may be done in the first of two twin worlds and not in the second, and they stay
  twins if it spares what corresponds (`World.Twin.besides`): the lists are as they were, the
  names in use are bound as before, and the settings have not been changed.  The tapes need
  not be as they were.  One whose producer gives fixed numbers and texts may have been read on
  (`TapeState.Plain`), for it gives the same to who reads it later.
-/
import MemoSeq.Proofs.Twin.Turns

namespace MemoSeq

open Session (behavior host Script)

variable {π : Pairing} {items : Nat → Option Value}
variable {stage : Nat → Producer Session.host → Prop}

/-! ### Producers of fixed items -/

namespace Steady

/-- Other numbers and texts have been given before. -/
theorem behind (hS : Steady items stage) {given : List Value}
    (hgiven : ∀ v ∈ given, v.asList? = none) :
    Steady (fun k => if k < given.length then given[k]? else items (k - given.length))
      fun k p => given.length ≤ k ∧ stage (k - given.length) p where
  scalar {k v} hv := by
    split at hv
    · exact hgiven v (List.mem_of_getElem? hv)
    · exact hS.scalar hv
  ended {k} hnone := by
    split at hnone
    case isTrue hlt => simp [hlt] at hnone
    case isFalse hge =>
      rw [if_neg (by omega), show k + 1 - given.length = k - given.length + 1 by omega]
      exact hS.ended hnone
  next {k p} hp depth w := by
    obtain ⟨hle, hp⟩ := hp
    rw [if_neg (Nat.not_lt.mpr hle)]
    refine (hS.next hp depth w).imp_left ?_
    rintro ⟨p', d, hrun, hstage⟩
    refine ⟨p', d, hrun, fun hsome => ⟨Nat.le_succ_of_le hle, ?_⟩⟩
    rw [show k + 1 - given.length = k - given.length + 1 by omega]
    exact hstage hsome
  names hp _ _ _ _ hrun := hS.names hp.2 hrun

theorem values {vs : List Value} (hvs : ∀ v ∈ vs, v.asList? = none) :
    Steady (vs[·]?) fun k p => p = .values (vs.drop k) where
  toStreams := .values hvs
  names {k p} hp depth w w' y hrun := by
    obtain ⟨p', d, hrun', -⟩ | ⟨-, h, hrun'⟩ :=
      (Behavior.Streams.values (B := behavior) hvs).next hp depth w
    · subst hp
      cases hdrop : vs.drop k <;> rw [hdrop] at hrun <;> cases hrun <;> exact ⟨rfl, rfl, rfl⟩
    · cases hrun'.symm.trans hrun

theorem container {xs : List (External Script)} {vs : List Value}
    (hvs : xs.map External.plain? = vs.map fun v => some (.ok v)) :
    Steady (vs[·]?) fun k p => p = .container (xs.drop k) where
  toStreams := .container hvs
  names {k p} hp depth w w' y hrun := by
    subst hp
    cases hdrop : xs.drop k with
    | nil =>
      rw [hdrop] at hrun
      cases hrun
      exact ⟨rfl, rfl, rfl⟩
    | cons x rest =>
      rw [hdrop] at hrun
      have hmem : External.plain? x ∈ xs.map External.plain? :=
        List.mem_map_of_mem (List.mem_of_mem_drop (hdrop ▸ List.mem_cons_self))
      rw [hvs] at hmem
      obtain ⟨v, -, hx⟩ := List.mem_map.mp hmem
      have hcanonical := (External.run_canonicalize_of_plain (H := host) hx.symm).2 w
      cases (Act.run_bind_of_eq hcanonical).symm.trans hrun
      exact ⟨rfl, rfl, rfl⟩

end Steady

/-- The producer gives fixed numbers and texts, and does not fail. -/
inductive Producer.Plain : Producer host → Prop
  | source {script : Script} {items : Nat → Option Value} :
      script.supply.Gives script.calls items → Plain (.source script)
  | values {vs : List Value} : (∀ v ∈ vs, v.asList? = none) → Plain (.values vs)
  | container {xs : List (External Script)} {vs : List Value} :
      (xs.map External.plain? = vs.map fun v => some (.ok v)) → Plain (.container xs)

/-- It stays one while it gives them. -/
theorem Producer.Plain.steady {p : Producer host} (hp : p.Plain) :
    ∃ items stage, Steady items stage ∧ stage 0 p ∧ ∀ k q, stage k q → q.Plain := by
  cases hp with
  | @source script items hgives =>
    refine ⟨items, _, hgives.steady, ⟨script.counter, rfl⟩, ?_⟩
    rintro k q ⟨counter, rfl⟩
    exact .source (hgives.later k)
  | values hvs =>
    refine ⟨_, _, .values hvs, rfl, ?_⟩
    rintro k q rfl
    exact .values fun v hv => hvs v (List.mem_of_mem_drop hv)
  | @container xs vs hvs =>
    refine ⟨_, _, .container hvs, rfl, ?_⟩
    rintro k q rfl
    refine @Producer.Plain.container _ (vs.drop k) ?_
    rw [List.map_drop, List.map_drop, hvs]

/-- A producer that works alike is the same, or both are iterators of the host. -/
theorem Producer.Twin.eq_of_plain {p p' : Producer host} (h : p.Twin π p') (hp : p.Plain) :
    p' = p := by
  cases hp with
  | source => cases h
  | values hscalar =>
    cases h with
    | values hvs =>
      congr 1
      induction hvs with
      | nil => rfl
      | cons hv _ ih =>
        rw [ih fun v hv => hscalar v (List.mem_cons_of_mem _ hv)]
        cases hv with
        | scalar => rfl
        | list => cases hscalar _ List.mem_cons_self
  | @container xs vs hvs =>
    cases h with
    | container hxs =>
      congr 1
      induction hxs generalizing vs with
      | nil => rfl
      | cons hx _ ih =>
        cases vs with
        | nil => cases hvs
        | cons v vs =>
          obtain ⟨hplain, hrest⟩ := List.cons.inj hvs
          rw [ih hrest]
          cases hx with
          | plain => rfl
          | value hv =>
            cases hv with
            | scalar => rfl
            | list => cases hplain
          | items | iterator => cases hplain

/-! ### Tapes of fixed items -/

/-- The tape holds numbers and texts, and its producer gives fixed ones or has ended. -/
structure TapeState.Plain (cell : TapeState host) : Prop where
  logged : ∀ x ∈ cell.log.toList, ∃ v : Value, x = .ok v ∧ v.asList? = none
  phase : cell.phase = .ended ∨ ∃ p, cell.phase = .idle p ∧ p.Plain

namespace TapeState

variable {cell cell' : TapeState host}

theorem Plain.fixed (h : cell.Plain) : ∃ items stage, Steady items stage ∧
    cell.Fixed items stage ∧ ∀ k p, stage k p → p.Plain := by
  obtain ⟨given, hlog, hscalar⟩ : ∃ given : List Value, cell.log.toList = given.map .ok ∧
      ∀ v ∈ given, v.asList? = none := by
    have hlogged := h.logged
    generalize cell.log.toList = log at hlogged
    induction log with
    | nil => exact ⟨[], rfl, List.forall_mem_nil _⟩
    | cons x log ih =>
      obtain ⟨given, rfl, hgiven⟩ := ih fun y hy => hlogged y (List.mem_cons_of_mem _ hy)
      obtain ⟨v, rfl, hv⟩ := hlogged x List.mem_cons_self
      exact ⟨v :: given, rfl, List.forall_mem_cons.mpr ⟨hv, hgiven⟩⟩
  have hsize : cell.log.size = given.length := by
    rw [← Array.length_toList, hlog, List.length_map]
  have hitem (k : Nat) : cell.log[k]? = given[k]?.map .ok := by
    rw [← Array.getElem?_toList, hlog, List.getElem?_map]
  have hsound : cell.Sound := by
    intro i e hi
    rw [hitem] at hi
    obtain ⟨v, -, hv⟩ := Option.map_eq_some_iff.mp hi
    cases hv
  have hlt {k : Nat} {x : Item} (hx : cell.log[k]? = some x) : k < given.length :=
    hsize ▸ (Array.getElem?_eq_some_iff.mp hx).1
  rcases h.phase with hended | ⟨p, hphase, hp⟩
  · -- what has been logged is all there is
    have hnone : ∀ v ∈ ([] : List Value), v.asList? = none := List.forall_mem_nil _
    refine ⟨_, _, (Steady.values hnone).behind hscalar,
      ⟨hsound, fun k x hx => ?_, ?_⟩, ?_⟩
    · rw [if_pos (hlt hx), ← hitem, hx]
    · simp [hended, hsize]
    · rintro k p ⟨-, rfl⟩
      exact .values (by simp)
  · obtain ⟨items, stage, hS, hfits, hplain⟩ := hp.steady
    refine ⟨_, _, hS.behind hscalar, ⟨hsound, fun k x hx => ?_, ?_⟩, fun k q hq => hplain _ q hq.2⟩
    · rw [if_pos (hlt hx), ← hitem, hx]
    · rw [hphase]
      simpa [hsize] using hfits

theorem Fixed.plain {items : Nat → Option Value} {stage : Nat → Producer host → Prop}
    (hS : Steady items stage) (h : cell.Fixed items stage) (hstage : ∀ k p, stage k p → p.Plain) :
    cell.Plain where
  logged x hx := by
    obtain ⟨k, hk⟩ := List.mem_iff_getElem?.mp hx
    rw [Array.getElem?_toList] at hk
    obtain ⟨v, hv, rfl⟩ := Option.map_eq_some_iff.mp (h.logged k x hk).symm
    exact ⟨v, rfl, hS.scalar hv⟩
  phase := by
    have hphase := h.phase
    cases hcase : cell.phase with
    | idle p =>
      rw [hcase] at hphase
      exact .inr ⟨p, rfl, hstage _ p hphase⟩
    | running =>
      rw [hcase] at hphase
      exact hphase.elim
    | ended => exact .inl rfl

theorem Plain.twin {cell : TapeState Session.host} (h : cell.Plain) : cell.Twin π cell := by
  obtain ⟨items, stage, hS, hcell, -⟩ := h.fixed
  exact .fixed hS hcell hcell

/-- Whatever has been done, the tape is still one of fixed numbers and texts. -/
theorem Plain.later {w v : World host} {t : Tape} {depth : Nat} (h : (w.tape t).Plain)
    (hlt : t.id < w.tapes.size) (hmoves : (Engine.ofBehavior behavior depth).Moves w v) :
    (v.tape t).Plain := by
  obtain ⟨items, stage, hS, hcell, hstage⟩ := h.fixed
  exact (Engine.moves_restocks Session.behavior_lawful hS.toStreams hmoves
    (hcell.stocks hlt)).1.fixed.plain hS hstage

/-- A tape that corresponds to such a one is the same, or has been read another way. -/
theorem Twin.fixed_of_plain (h : cell.Twin π cell') (hplain : cell.Plain) :
    ∃ items stage, Steady items stage ∧ cell.Fixed items stage ∧ cell'.Fixed items stage := by
  cases h with
  | fixed hS hcell hcell' => exact ⟨_, _, hS, hcell, hcell'⟩
  | exact hlogs hphases =>
    have hlog : cell'.log = cell.log := by
      have hlogged := hplain.logged
      rw [← Array.toList_inj]
      generalize cell.log.toList = log at hlogs hlogged
      generalize cell'.log.toList = log' at hlogs
      induction hlogs with
      | nil => rfl
      | cons hx _ ih =>
        rw [ih fun y hy => hlogged y (List.mem_cons_of_mem _ hy)]
        obtain ⟨v, rfl, hv⟩ := hlogged _ List.mem_cons_self
        cases hx with
        | ok hv' =>
          cases hv' with
          | scalar => rfl
          | list => cases hv
    have hphase : cell'.phase = cell.phase := by
      rcases hplain.phase with hended | ⟨p, hidle, hp⟩
      · rw [hended] at hphases ⊢
        generalize cell'.phase = phase at hphases
        cases hphases
        rfl
      · rw [hidle] at hphases ⊢
        generalize cell'.phase = phase at hphases
        cases hphases with
        | idle htwin => rw [htwin.eq_of_plain hp]
    obtain rfl : cell' = cell := by
      cases cell
      cases cell'
      cases hlog
      cases hphase
      rfl
    obtain ⟨items, stage, hS, hfixed, -⟩ := hplain.fixed
    exact ⟨items, stage, hS, hfixed, hfixed⟩

end TapeState

/-! ### Worlds -/

/-- Lists and tapes that were made aside. -/
structure Made where
  lists : Sequence → Prop
  tapes : Tape → Prop

namespace Made

def none : Made := ⟨fun _ => False, fun _ => False⟩

/-- All that has been made from one world to the next is made aside. -/
def since (m : Made) (w v : World host) : Made where
  lists s := m.lists s ∨ w.sequences.size ≤ s.id ∧ s.id < v.sequences.size
  tapes t := m.tapes t ∨ w.tapes.size ≤ t.id ∧ t.id < v.tapes.size

end Made

/-- Nothing has been changed but what was made aside, and no names but others.  Only tapes of
    fixed items may have been read on. -/
structure World.Spared (names : String → Prop) (m : Made) (w v : World Session.host) :
    Prop where
  sequences : ∀ s : Sequence, s.id < w.sequences.size → ¬ m.lists s → v.sequence s = w.sequence s
  tapes : ∀ t : Tape, t.id < w.tapes.size → ¬ m.tapes t →
    v.tape t = w.tape t ∨ (w.tape t).Plain
  limit : v.limit = w.limit
  displayLength : v.displayLength = w.displayLength
  desk : w.host.Leaves (fun name => ¬ names name) v.host

def Pairing.made (π : Pairing) : Made := ⟨π.otherLists, π.otherTapes⟩

theorem TwinWorlds.Leaves.made {τ τ' : TwinWorlds} (h : τ.Leaves τ') :
    τ'.pairing.made = τ.pairing.made := by
  rw [Pairing.made, Pairing.made, h.otherLists, h.otherTapes]

/-- Besides what was made aside, these have been made. -/
def Pairing.since (π : Pairing) (w v : World host) : Pairing :=
  { π with
    otherLists := (π.made.since w v).lists
    otherTapes := (π.made.since w v).tapes }

theorem Pairing.Fits.since {α : Type} {id : α → Nat} {R : α → α → Prop} {other : α → Prop}
    {size size' n : Nat} (h : Fits id R other size size') (hn : size ≤ n) :
    Fits id R (fun a => other a ∨ size ≤ id a ∧ id a < n) n size' where
  lt ha := ⟨(h.lt ha).1.trans_le hn, (h.lt ha).2⟩
  unique := h.unique
  own ha := by
    rintro (hother | ⟨hge, -⟩)
    · exact h.own ha hother
    · exact Nat.not_lt.mpr hge (h.lt ha).1
  other_lt := by
    rintro a (hother | ⟨-, hlt⟩)
    · exact (h.other_lt hother).trans_le hn
    · exact hlt

/-- The first world goes on alone, and spares what corresponds. -/
theorem World.Twin.besides {w w' v : World Session.host} {depth : Nat} (h : w.Twin π w')
    (hmoves : (Engine.ofBehavior behavior depth).Moves w v)
    (hspared : w.Spared π.names π.made v)
    (hlooked : ∀ name, π.looked name → π.names name) : v.Twin (π.since w v) w' := by
  have hextends := Engine.moves_extends Session.behavior_lawful hmoves
  have hπ : π.Grows (π.since w v) := ⟨id, id, id, fun _ => Nat.le_refl _, rfl⟩
  constructor
  case lists => exact h.lists.since hextends.sequences
  case tapes => exact h.tapes.since hextends.tapes
  case cell =>
    intro s s' hs
    rw [hspared.sequences s (h.lists.lt hs).1 (h.lists.own hs)]
    exact (h.cell hs).mono hπ
  case tape =>
    intro t t' ht
    obtain ⟨hlt, -⟩ := h.tapes.lt ht
    -- a tape of fixed items is still one, however far it has been read
    have later {items : Nat → Option Value} {stage : Nat → Producer Session.host → Prop}
        (hS : Steady items stage) (hcell : (w.tape t).Fixed items stage)
        (hcell' : (w'.tape t').Fixed items stage) :
        (v.tape t).Twin (π.since w v) (w'.tape t') :=
      .fixed hS (Engine.moves_restocks Session.behavior_lawful hS.toStreams hmoves
        (hcell.stocks hlt)).1.fixed hcell'
    rcases hspared.tapes t hlt (h.tapes.own ht) with hsame | hplain
    · rw [hsame]
      exact (h.tape ht).mono hπ
    · obtain ⟨items, stage, hS, hcell, hcell'⟩ := (h.tape ht).fixed_of_plain hplain
      exact later hS hcell hcell'
  case reach =>
    intro t t' ht
    obtain ⟨hreach, hreach'⟩ := h.reach ht
    exact ⟨hreach.trans (hextends.logs t), hreach'⟩
  case reach_eq => exact fun t ht => h.reach_eq t (hextends.tapes.trans ht)
  case limit => exact h.limit.trans hspared.limit.symm
  case displayLength => exact h.displayLength.trans hspared.displayLength.symm
  case desk =>
    have hdesk := h.desk.mono hπ
    have spared (name : String) (hname : π.names name) :=
      hspared.desk.sequences name (not_not_intro hname)
    refine ⟨fun name hname => ?_, fun name hname => ?_, fun name hname => ?_, fun name hname => ?_⟩
    · rw [spared name (hlooked name hname)]
      exact hdesk.looked name hname
    · rw [spared name hname]
      exact hdesk.sequences name hname
    · rw [hspared.desk.iterations name (not_not_intro hname)]
      exact hdesk.iterations name hname
    · rw [hspared.desk.branches name (not_not_intro hname)]
      exact hdesk.branches name hname

end MemoSeq
