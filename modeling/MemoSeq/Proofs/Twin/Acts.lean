/-
  MemoSeq/Proofs/Twin/Acts.lean
  =============================
  **The same act in twin worlds.**

  An act of the first world is followed by one of the second when the second comes to a
  result like that of the first, and the worlds after both are twins again (`Act.Follows`).
  What corresponds to nothing is left as it was (`TwinWorlds.Leaves`).  Two acts in a row are
  followed by two in a row (`Act.Follows.bind`), so this goes through an operation part by part.

  The second engine has at least the means of the first, and two levels more
  (`Engine.Follows`): a reader that finds a fixed item on its tape in the first world may
  have to drive the producer in the second (`Reader.Reads.follows`).
-/
import MemoSeq.Proofs.Reentrancy
import MemoSeq.Proofs.Twin.Basic

namespace MemoSeq

open Session (behavior host Script)

variable {α β ε : Type}

structure TwinWorlds where
  first : World host
  second : World host
  pairing : Pairing
  twin : first.Twin pairing second

variable {τ τ' : TwinWorlds}

abbrev TwinWorlds.Grows (τ τ' : TwinWorlds) : Prop := τ.pairing.Grows τ'.pairing

/-! ### What is left as it was -/

/-- Only under these names has anything been bound or dropped. -/
structure Session.Desk.Leaves (names : String → Prop) (d d' : Session.Desk) : Prop where
  sequences : ∀ name, ¬ names name → d'.sequences.find? name = d.sequences.find? name
  iterations : ∀ name, ¬ names name → d'.iterations.find? name = d.iterations.find? name
  branches : ∀ name, ¬ names name → d'.branches.find? name = d.branches.find? name

theorem Session.Desk.SameNames.leaves {d d' : Session.Desk} (h : d'.SameNames d)
    (names : String → Prop) : d.Leaves names d' :=
  ⟨fun _ _ => by rw [h.sequences], fun _ _ => by rw [h.iterations], fun _ _ => by rw [h.branches]⟩

theorem Session.Desk.Leaves.trans {names : String → Prop} {d d' d'' : Session.Desk}
    (h : d.Leaves names d') (h' : d'.Leaves names d'') : d.Leaves names d'' where
  sequences name hname := (h'.sequences name hname).trans (h.sequences name hname)
  iterations name hname := (h'.iterations name hname).trans (h.iterations name hname)
  branches name hname := (h'.branches name hname).trans (h.branches name hname)

/-- What corresponds to nothing has been left as it was. -/
structure World.Leaves (π : Pairing) (w v : World Session.host) : Prop where
  bypasses : w.Bypasses (fun t => ∀ t', ¬ π.tapes t t') (fun s => ∀ s', ¬ π.lists s s') v
  limit : ¬ π.settings → v.limit = w.limit
  displayLength : ¬ π.settings → v.displayLength = w.displayLength
  desk : w.host.Leaves π.names v.host

namespace World.Leaves

variable {π : Pairing}

theorem refl (π : Pairing) (w : World Session.host) : w.Leaves π w :=
  ⟨.refl w, fun _ => rfl, fun _ => rfl, Session.Desk.SameNames.leaves ⟨rfl, rfl, rfl⟩ _⟩

theorem host (w : World Session.host) {d : Session.Desk} (hd : w.host.Leaves π.names d) :
    World.Leaves π w { w with host := d } :=
  ⟨.host w d, fun _ => rfl, fun _ => rfl, hd⟩

theorem updateTape (w : World Session.host) {t t' : Tape} (ht : π.tapes t t')
    (f : TapeState Session.host → TapeState Session.host) : w.Leaves π (w.updateTape t f) :=
  { refl π w with bypasses := .updateTape w (fun hnone => hnone t' ht) f }

theorem updateSequence (w : World Session.host) {s s' : Sequence} (hs : π.lists s s')
    (f : SequenceState → SequenceState) : w.Leaves π (w.updateSequence s f) :=
  { refl π w with bypasses := .updateSequence w (fun hnone => hnone s' hs) f }

theorem settings {w : World Session.host} {limit : Option Nat} {displayLength : Nat}
    (h : π.settings) : World.Leaves π w { w with limit, displayLength } :=
  { refl π w with
    bypasses := ⟨Nat.le_refl _, Nat.le_refl _, fun _ _ _ => rfl, fun _ _ _ => rfl⟩
    limit := fun hnot => (hnot h).elim
    displayLength := fun hnot => (hnot h).elim }

theorem of_spares {w v : World Session.host} {t t' : Tape} (ht : π.tapes t t')
    (h : w.Spares (· ≠ t.id) (fun _ => True) v) (hnames : v.host.SameNames w.host) :
    w.Leaves π v where
  bypasses := by
    refine .of_spares h (fun q hq heq => hq t' ?_) fun _ _ => trivial
    obtain rfl : q = t := by cases q; cases t; cases heq; rfl
    exact ht
  limit _ := h.limit
  displayLength _ := h.displayLength
  desk := hnames.leaves _

end World.Leaves

/-- Nor has it come to correspond to anything, and nothing has been made aside. -/
structure TwinWorlds.Leaves (τ τ' : TwinWorlds) : Prop
    extends τ.first.Leaves τ.pairing τ'.first where
  seen : ∀ {s s'}, τ'.pairing.seen s s' → τ.pairing.seen s s' ∨ τ'.pairing.lists s s'
  lists : ∀ {s s'}, τ'.pairing.lists s s' → s.id < τ.first.sequences.size → τ.pairing.lists s s'
  tapes : ∀ {t t'}, τ'.pairing.tapes t t' → t.id < τ.first.tapes.size → τ.pairing.tapes t t'
  otherLists : τ'.pairing.otherLists = τ.pairing.otherLists
  otherTapes : τ'.pairing.otherTapes = τ.pairing.otherTapes

theorem TwinWorlds.Leaves.of_pairing {v v' : World host} {hv : v.Twin τ.pairing v'}
    (h : τ.first.Leaves τ.pairing v) : τ.Leaves ⟨v, v', τ.pairing, hv⟩ :=
  ⟨h, .inl, fun hs _ => hs, fun ht _ => ht, rfl, rfl⟩

theorem TwinWorlds.Leaves.refl (τ : TwinWorlds) : τ.Leaves τ :=
  .of_pairing (.refl _ _)

theorem TwinWorlds.Leaves.trans {τ'' : TwinWorlds} (h : τ.Leaves τ') (hτ : τ.Grows τ')
    (h' : τ'.Leaves τ'') (hτ' : τ'.Grows τ'') : τ.Leaves τ'' where
  bypasses := h.bypasses.trans h'.bypasses
    (fun _ ht hlt t' hpaired => ht t' (h.tapes hpaired hlt))
    (fun _ hs hlt s' hpaired => hs s' (h.lists hpaired hlt))
  limit hsettings := (h'.limit (hτ.settings ▸ hsettings)).trans (h.limit hsettings)
  displayLength hsettings :=
    (h'.displayLength (hτ.settings ▸ hsettings)).trans (h.displayLength hsettings)
  desk := h.desk.trans (hτ.names ▸ h'.desk)
  seen hs := (h'.seen hs).elim (fun hs => (h.seen hs).imp_right hτ'.lists) .inr
  lists hs hlt := h.lists (h'.lists hs (hlt.trans_le h.bypasses.sequencesSize)) hlt
  tapes ht hlt := h.tapes (h'.tapes ht (hlt.trans_le h.bypasses.tapesSize)) hlt
  otherLists := h'.otherLists.trans h.otherLists
  otherTapes := h'.otherTapes.trans h.otherTapes

/-! ### Acts -/

/-- If the first act comes to a result in the first world, the second comes to one like it
    in the second world, and they leave twins.  What corresponds to nothing stays as it is. -/
def Act.Follows (τ : TwinWorlds) (a a' : Act host α) (Q : TwinWorlds → α → α → Prop) : Prop :=
  ∀ ⦃x w⦄, a.run τ.first = .ok (x, w) → ∃ (τ' : TwinWorlds) (x' : α), τ'.first = w ∧
    a'.run τ.second = .ok (x', τ'.second) ∧ τ.Grows τ' ∧ τ.Leaves τ' ∧ Q τ' x x'

/-- The same of attempts: both succeed, or both fail with the same error. -/
def Attempt.Follows (τ : TwinWorlds) (a a' : ExceptT ε (Act host) α)
    (Q : TwinWorlds → α → α → Prop) : Prop :=
  Act.Follows τ a.run a'.run fun τ' => Outcome.Twin (Q τ')

namespace Act.Follows

variable {a a' : Act host α} {f f' : α → Act host β} {Q Q' : TwinWorlds → α → α → Prop}
variable {P : TwinWorlds → β → β → Prop}

theorem mono (h : Follows τ a a' Q) (hQ : ∀ τ' x x', τ.Grows τ' → Q τ' x x' → Q' τ' x x') :
    Follows τ a a' Q' := by
  intro x w hrun
  obtain ⟨τ', x', hfirst, hrun', hτ, hleaves, hx⟩ := h hrun
  exact ⟨τ', x', hfirst, hrun', hτ, hleaves, hQ τ' x x' hτ hx⟩

theorem pure {x x' : α} (hx : Q τ x x') : Follows τ (pure x) (pure x') Q := by
  intro y w hrun
  obtain ⟨rfl, rfl⟩ := run_pure_eq_ok.mp hrun
  exact ⟨τ, x', rfl, rfl, .refl _, .refl _, hx⟩

theorem bind (ha : Follows τ a a' Q)
    (hf : ∀ τ' x x', τ.Grows τ' → Q τ' x x' → Follows τ' (f x) (f' x') P) :
    Follows τ (a >>= f) (a' >>= f') P := by
  intro y w hrun
  obtain ⟨x, u, hx, hy⟩ := run_bind_eq_ok.mp hrun
  obtain ⟨τ', x', rfl, hx', hτ, hleaves, hQ⟩ := ha hx
  obtain ⟨τ'', y', hfirst, hy', hτ', hleaves', hP⟩ := hf τ' x x' hτ hQ hy
  exact ⟨τ'', y', hfirst, (run_bind_of_eq hx').trans hy', hτ.trans hτ',
    hleaves.trans hτ hleaves' hτ', hP⟩

theorem get_bind {f f' : World host → Act host β} (h : Follows τ (f τ.first) (f' τ.second) P) :
    Follows τ (get >>= f) (get >>= f') P :=
  h

theorem modify {f f' : World host → World host} {P : TwinWorlds → Unit → Unit → Prop}
    (h : (f τ.first).Twin τ.pairing (f' τ.second)) (hleaves : τ.first.Leaves τ.pairing (f τ.first))
    (hP : P ⟨_, _, _, h⟩ () ()) :
    Follows τ (modify f) (modify f') P := by
  intro y w hrun
  obtain rfl := run_modify_eq_ok.mp hrun
  exact ⟨⟨_, _, _, h⟩, (), rfl, rfl, .refl _, .of_pairing hleaves, hP⟩

theorem starve : Follows τ starve a Q :=
  fun _ _ hrun => (run_starve_eq_ok.mp hrun).elim

end Act.Follows

namespace Attempt.Follows

variable {a a' : ExceptT ε (Act host) α} {f f' : α → ExceptT ε (Act host) β}
variable {Q : TwinWorlds → α → α → Prop} {P : TwinWorlds → β → β → Prop}

theorem pure {x x' : α} (hx : Q τ x x') :
    Follows τ (pure x : ExceptT ε (Act host) α) (pure x') Q :=
  Act.Follows.pure (.ok hx)

theorem throw (e : ε) : Follows τ (throw e : ExceptT ε (Act host) α) (throw e) Q :=
  Act.Follows.pure (.error e)

theorem ofOutcome {r r' : Outcome α} (hr : Outcome.Twin (Q τ) r r') :
    Follows τ (Attempt.ofOutcome r) (Attempt.ofOutcome r') Q :=
  Act.Follows.pure hr

theorem lift {a a' : Act host α} (h : Act.Follows τ a a' Q) :
    Follows τ (ExceptT.lift a : ExceptT ε (Act host) α) (ExceptT.lift a') Q := by
  intro y w hrun
  obtain ⟨x, hx, rfl⟩ := run_lift_eq_ok.mp hrun
  obtain ⟨τ', x', hfirst, hx', hτ, hleaves, hQ⟩ := h hx
  exact ⟨τ', .ok x', hfirst, run_lift_eq_ok.mpr ⟨x', hx', rfl⟩, hτ, hleaves, .ok hQ⟩

theorem starve : Follows τ (ExceptT.lift Act.starve : ExceptT ε (Act host) α) a Q := by
  intro y w hrun
  obtain ⟨x, hx, -⟩ := run_lift_eq_ok.mp hrun
  exact (Act.run_starve_eq_ok.mp hx).elim

theorem bind (ha : Follows τ a a' Q)
    (hf : ∀ τ' x x', τ.Grows τ' → Q τ' x x' → Follows τ' (f x) (f' x') P) :
    Follows τ (a >>= f) (a' >>= f') P := by
  refine Act.Follows.bind ha fun τ' x x' hτ hx => ?_
  cases hx with
  | ok hx => exact hf τ' _ _ hτ hx
  | error e => exact Act.Follows.pure (.error e)

theorem map {f f' : α → β} (ha : Follows τ a a' Q)
    (hf : ∀ τ' x x', τ.Grows τ' → Q τ' x x' → P τ' (f x) (f' x')) :
    Follows τ (f <$> a) (f' <$> a') P := by
  rw [map_eq_pure_bind, map_eq_pure_bind]
  exact ha.bind fun τ' x x' hτ hx => .pure (hf τ' x x' hτ hx)

theorem get_bind {f f' : World host → ExceptT ε (Act host) β}
    (h : Follows τ (f τ.first) (f' τ.second) P) : Follows τ (get >>= f) (get >>= f') P :=
  h

theorem mapM {γ : Type} {R : TwinWorlds → α → α → Prop} {S : TwinWorlds → γ → γ → Prop}
    {f f' : α → ExceptT ε (Act host) γ}
    (hR : ∀ {τ τ' x x'}, τ.Grows τ' → R τ x x' → R τ' x x')
    (hS : ∀ {τ τ' y y'}, τ.Grows τ' → S τ y y' → S τ' y y')
    (hf : ∀ τ x x', R τ x x' → Follows τ (f x) (f' x') S) {xs xs' : List α}
    (hxs : List.Forall₂ (R τ) xs xs') :
    Follows τ (xs.mapM f) (xs'.mapM f') fun τ' => List.Forall₂ (S τ') := by
  induction xs generalizing τ xs' with
  | nil =>
    cases hxs
    exact .pure .nil
  | cons x xs ih =>
    cases hxs with
    | @cons _ x' _ xs' hx hxs =>
      rw [List.mapM_cons, List.mapM_cons]
      refine (hf τ x x' hx).bind fun τ₁ y y' hτ₁ hy => ?_
      refine (ih (hxs.imp fun _ _ => hR hτ₁)).bind fun τ₂ ys ys' hτ₂ hys => ?_
      exact .pure (.cons (hS hτ₂ hy) hys)

end Attempt.Follows

/-! ### Engines -/

/-- What the second engine drives follows what the first drives. -/
structure Engine.Follows (E E' : Engine host) : Prop where
  depth : ∃ depth, E = .ofBehavior behavior depth
  depth' : ∃ depth, E' = .ofBehavior behavior depth ∧ 2 ≤ depth
  fuel : E.fuel ≤ E'.fuel
  pull : ∀ {τ : TwinWorlds} {s s' : Script}, s.Twin s' →
    Act.Follows τ (E.pull s) (E'.pull s') fun _ x x' => x.2.Twin x'.2
  test : ∀ {τ : TwinWorlds} {c c' : host.Test} {v v' : Value}, Condition.Twin τ.pairing c c' →
    v.Twin τ.pairing v' → Attempt.Follows τ (E.test c v) (E'.test c' v') fun _ b b' => b' = b
  next : ∀ {τ : TwinWorlds} {p p' : Producer host}, p.Twin τ.pairing p' →
    Act.Follows τ (E.next p) (E'.next p') fun τ' x x' =>
      Option.Rel (Item.Twin τ'.pairing) x.1 x'.1 ∧ x.2.Twin τ'.pairing x'.2

section Reading

variable {E E' : Engine Session.host} {items : Nat → Option Value}
variable {stage : Nat → Producer Session.host → Prop} {r r' q : Reader} {x : Option Item}
variable {w v : World Session.host} {depth : Nat}

/-! ### Reading fixed items -/

/-- A reader has taken the item that is due, and nothing has changed but its tape. -/
structure Reader.Takes (items : Nat → Option Value) (stage : Nat → Producer host → Prop)
    (r : Reader) (w : World host) (x : Option Item) (q : Reader) (v : World host) : Prop where
  item : x = (items r.position).map .ok
  reader : q = r.past x
  cell : (v.tape r.tape).Fixed items stage
  logged : (v.tape r.tape).log[r.position]? = x
  ended : x = none → (v.tape r.tape).hasEnded = true
  spares : w.Spares (· ≠ r.tape.id) (fun _ => True) v
  names : v.host.SameNames w.host

theorem TapeState.Fixed.stocks {t : Tape} (h : (w.tape t).Fixed items stage)
    (hlt : t.id < w.tapes.size) : (Provision.streamed items stage).Stocks t w where
  tape_lt := hlt
  sound := h.sound
  relies := trivial
  logged := h.logged
  phase := by
    have hphase := h.phase
    cases hcell : (w.tape t).phase <;> rw [hcell] at hphase <;> exact hphase

theorem Provision.Stocks.fixed {t : Tape} (h : (Provision.streamed items stage).Stocks t w) :
    (w.tape t).Fixed items stage where
  sound := h.sound
  logged := h.logged
  phase := by
    have hphase := h.phase
    cases hcell : (w.tape t).phase <;> rw [hcell] at hphase <;> exact hphase

/-- Whatever comes of reading, it is the item that is due. -/
theorem Reader.Reads.takes (hS : Steady items stage) (hcell : (w.tape r.tape).Fixed items stage)
    (hlt : r.tape.id < w.tapes.size) (hposition : r.position ≤ (w.tape r.tape).log.size)
    (h : r.Reads (.ofBehavior behavior depth) w x q v) : r.Takes items stage w x q v := by
  have hstocks := hcell.stocks hlt
  cases h with
  | logged item hlog =>
    exact ⟨hcell.logged _ _ hlog, rfl, hcell, hlog, fun hnone => (Option.some_ne_none _ hnone).elim,
      .refl w, ⟨rfl, rfl, rfl⟩⟩
  | paused hlog hidle =>
    have hended : (w.tape r.tape).hasEnded = true := by
      have hphase := hcell.phase
      rw [TapeState.hasEnded]
      split at hphase
      case h_1 p hp => exact (hidle p hp).elim
      case h_2 => exact hphase.elim
      case h_3 hp => rw [hp]
    exact ⟨hstocks.item_eq hS.toStreams hlog fun _ => hended, rfl, hcell, hlog, fun _ => hended,
      .refl w, ⟨rfl, rfl, rfl⟩⟩
  | drove p p' x u hlog hphase hnext =>
    have hfits : stage (w.tape r.tape).log.size p := by
      have hp := hcell.phase
      rwa [hphase] at hp
    have hend : r.position = (w.tape r.tape).log.size :=
      Nat.le_antisymm hposition (by simpa using hlog)
    -- a steady producer changes nothing but the host
    obtain ⟨hitem, ⟨host, rfl⟩, hstage⟩ := hS.next_of_run hfits hnext
    obtain ⟨hstocks', hcell'⟩ := hstocks.drove hS.toStreams hphase hitem ⟨host, rfl⟩ hstage
    have hwork : (w.tape r.tape).phase ≠ .ended := by simp [hphase]
    have hrunning : (World.tape { w.running r.tape with host } r.tape).phase ≠ .ended := by
      rw [show World.tape { w.running r.tape with host } r.tape = _ from
        World.tape_running_self hlt]
      simp
    refine ⟨hend ▸ hitem, rfl, hstocks'.fixed, ?_, ?_, ?_, ?_⟩
    · rw [hcell', hend]
      exact TapeState.recorded_log_size
    · rintro rfl
      rw [hcell']
      rfl
    · exact ((World.Spares.running w r.tape (fun hne => hne rfl) hwork).trans
        (.host _ host)).trans (.recorded _ r.tape (fun hne => hne rfl) hrunning x p')
    · cases depth with
      | zero => exact (Act.run_starve_eq_ok.mp hnext).elim
      | succ depth =>
        have hnames := hS.names hfits hnext
        exact hnames

/-- Where the engine has the means, a reader does get the item that is due. -/
theorem TapeState.Fixed.reads (hS : Steady items stage) (hdepth : 2 ≤ depth)
    (hcell : (w.tape r.tape).Fixed items stage) :
    ∃ x q v, r.Reads (.ofBehavior behavior depth) w x q v := by
  cases hlog : (w.tape r.tape).log[r.position]? with
  | some item => exact ⟨_, _, _, .logged item hlog⟩
  | none =>
    cases hphase : (w.tape r.tape).phase with
    | running | ended => exact ⟨_, _, _, .paused hlog (by simp [hphase])⟩
    | idle p =>
      have hfits := hcell.phase
      rw [hphase] at hfits
      obtain ⟨p', host, hnext, -⟩ := hS.run_next hfits hdepth (w.running r.tape)
      exact ⟨_, _, _, .drove p p' _ _ hlog hphase hnext⟩

/-! ### Reading from tapes that correspond -/

theorem TapeState.Twin.recorded {π : Pairing} {cell cell' : TapeState host} {x' : Option Item}
    {p p' : Producer host} (hlogs : List.Forall₂ (Item.Twin π) cell.log.toList cell'.log.toList)
    (hx : Option.Rel (Item.Twin π) x x') (hp : p.Twin π p') :
    (cell.recorded x p).Twin π (cell'.recorded x' p') := by
  refine .exact ?_ ?_
  · rw [TapeState.log_recorded, TapeState.log_recorded, Array.toList_append, Array.toList_append]
    refine List.rel_append hlogs ?_
    cases hx with
    | none => exact .nil
    | some hx => exact .cons hx .nil
  · cases hx with
    | none => exact .ended
    | some hx =>
      cases hx with
      | ok => exact .idle hp
      | error => exact .ended

/-- The readers stand behind what they have read. -/
theorem World.Twin.past {π : Pairing} {w' : World Session.host} {x' : Option Item}
    (h : w.Twin π w')
    (hr : r.Twin π r') (hx : (w.tape r.tape).log[r.position]? = x)
    (hx' : (w'.tape r'.tape).log[r'.position]? = x') (hsame : Option.Rel (Item.Twin π) x x') :
    ∃ reach, (π.Grows { π with reach }) ∧ w.Twin { π with reach } w' ∧
      (r.past x).Twin { π with reach } (r'.past x') := by
  cases hsame with
  | none => exact ⟨π.reach, .refl π, h, hr⟩
  | some =>
    have hlt := (Array.getElem?_eq_some_iff.mp hx).1
    have hlt' := (Array.getElem?_eq_some_iff.mp hx').1
    rw [hr.position] at hlt'
    refine ⟨_, π.grows_reaching _ _, h.reaching hr.tape hlt hlt', hr.tape, ?_, ?_⟩
    · exact congrArg (· + 1) hr.position
    · simp [Reader.past, Reader.advance]

variable (hE : E.Follows E')
include hE

/-- Both producers are driven, and nothing happens to their tapes before they answer. -/
theorem Engine.Follows.drive {p p' p₁ : Producer Session.host} (hr : r.Twin τ.pairing r')
    (hlogs : List.Forall₂ (Item.Twin τ.pairing) (τ.first.tape r.tape).log.toList
      (τ.second.tape r'.tape).log.toList)
    (hphase : (τ.first.tape r.tape).phase = .idle p)
    (hphase' : (τ.second.tape r'.tape).phase = .idle p') (hp : p.Twin τ.pairing p')
    (hnext : (E.next p).run (τ.first.running r.tape) = .ok ((x, p₁), v)) :
    ∃ (τ' : TwinWorlds) (x' : Option Item) (p₁' : Producer Session.host) (v' : World Session.host),
      τ'.first = v.recorded r.tape x p₁ ∧ τ'.second = v'.recorded r'.tape x' p₁' ∧
      (E'.next p').run (τ.second.running r'.tape) = .ok ((x', p₁'), v') ∧ τ.Grows τ' ∧
      τ.Leaves τ' ∧ Option.Rel (Item.Twin τ'.pairing) x x' ∧
      τ'.first.tape r.tape = (τ.first.tape r.tape).started.recorded x p₁ ∧
      τ'.second.tape r'.tape = (τ.second.tape r'.tape).started.recorded x' p₁' := by
  obtain ⟨hlt, hlt'⟩ := τ.twin.tapes.lt hr.tape
  have hrunning : (τ.first.running r.tape).Twin τ.pairing (τ.second.running r'.tape) :=
    τ.twin.updateTape hr.tape (.started (by simp [hphase])) (.started (by simp [hphase']))
      (.exact hlogs .running)
  obtain ⟨τ', ⟨x', p₁'⟩, rfl, hnext', hτ, hleaves, hx, hp₁⟩ :=
    hE.next (τ := ⟨_, _, _, hrunning⟩) hp hnext
  have htape : τ'.first.tape r.tape = (τ.first.tape r.tape).started := by
    obtain ⟨depth, rfl⟩ := hE.depth
    have hleads := (Engine.ofBehavior_leads Session.behavior_lawful depth).next p hnext
    rw [hleads.tape_running (t := r.tape) (by simp [World.tape_running_self hlt]),
      World.tape_running_self hlt]
  have htape' : τ'.second.tape r'.tape = (τ.second.tape r'.tape).started := by
    obtain ⟨depth, rfl, -⟩ := hE.depth'
    have hleads := (Engine.ofBehavior_leads Session.behavior_lawful depth).next p' hnext'
    rw [hleads.tape_running (t := r'.tape) (by simp [World.tape_running_self hlt']),
      World.tape_running_self hlt']
  have ht := hτ.tapes hr.tape
  obtain ⟨hlt₁, hlt₁'⟩ := τ'.twin.tapes.lt ht
  have hlogs' : List.Forall₂ (Item.Twin τ'.pairing) (τ'.first.tape r.tape).log.toList
      (τ'.second.tape r'.tape).log.toList := by
    rw [htape, htape']
    exact hlogs.imp fun _ _ h => h.mono hτ
  have hrecorded : (τ'.first.recorded r.tape x p₁).Twin τ'.pairing
      (τ'.second.recorded r'.tape x' p₁') :=
    τ'.twin.updateTape ht (.recorded (by simp [htape]) x p₁) (.recorded (by simp [htape']) x' p₁')
      (.recorded hlogs' hx hp₁)
  -- the tape is one that corresponds, before the call and after it
  have hbefore : τ.Leaves ⟨_, _, _, hrunning⟩ := .of_pairing (.updateTape _ hr.tape _)
  have hafter : τ'.Leaves ⟨_, _, _, hrecorded⟩ := .of_pairing (.updateTape _ ht _)
  refine ⟨⟨_, _, _, hrecorded⟩, x', p₁', _, rfl, rfl, hnext', hτ,
    (hbefore.trans (.refl _) hleaves hτ).trans hτ hafter (.refl _), hx, ?_, ?_⟩
  · rw [World.tape_recorded_self x hlt₁, htape]
  · rw [World.tape_recorded_self x' hlt₁', htape']

/-- Where it comes to nothing, both tapes have ended or neither has. -/
theorem Reader.next_follows (hr : r.Twin τ.pairing r') :
    Act.Follows τ (r.next E) (r'.next E') fun τ' x x' =>
      Option.Rel (Item.Twin τ'.pairing) x.1 x'.1 ∧ x.2.Twin τ'.pairing x'.2 ∧
        (x.1 = none → x'.2.isExhausted τ'.second = x.2.isExhausted τ'.first) := by
  rintro ⟨x, q⟩ v hrun
  have hreads := Reader.run_next_iff.mp hrun
  obtain ⟨hlt, hlt'⟩ := τ.twin.tapes.lt hr.tape
  obtain ⟨hreach, hreach'⟩ := τ.twin.reach hr.tape
  obtain ⟨depth, hdepth⟩ := hE.depth
  obtain ⟨depth', hdepth', hmeans⟩ := hE.depth'
  -- it is enough to say what the second reader reads
  suffices ∃ x' v', r'.Reads E' τ.second x' (r'.past x') v' ∧ q = r.past x ∧
      (v.tape r.tape).log[r.position]? = x ∧ (v'.tape r'.tape).log[r'.position]? = x' ∧
      (x = none → (v'.tape r'.tape).hasEnded = (v.tape r.tape).hasEnded) ∧
      ∃ τ' : TwinWorlds, τ'.first = v ∧ τ'.second = v' ∧ τ.Grows τ' ∧ τ.Leaves τ' ∧
        Option.Rel (Item.Twin τ'.pairing) x x' by
    obtain ⟨x', v', hreads', rfl, hx, hx', hended, τ', rfl, rfl, hτ, hleaves, hitem⟩ := this
    obtain ⟨reach, hπ, htwin, hpast⟩ := τ'.twin.past (hr.mono hτ) hx hx' hitem
    have hreached : τ'.Leaves ⟨_, _, _, htwin⟩ :=
      ⟨.refl _ _, .inl, fun hs _ => hs, fun ht _ => ht, rfl, rfl⟩
    refine ⟨⟨_, _, _, htwin⟩, (x', r'.past x'), rfl, Reader.run_next_iff.mpr hreads',
      hτ.trans hπ, hleaves.trans hτ hreached hπ,
      hitem.imp fun _ _ h => h.mono hπ, hpast, fun hnone => ?_⟩
    simpa [Reader.isExhausted] using hended hnone
  cases τ.twin.tape hr.tape with
  | @fixed items stage hS hcell hcell' =>
    subst hdepth hdepth'
    have hposition' : r'.position ≤ (τ.second.tape r'.tape).log.size :=
      (hr.position.le.trans hr.reached).trans hreach'
    have htakes := hreads.takes hS hcell hlt (hr.reached.trans hreach)
    obtain ⟨x', q', v', hreads'⟩ := hcell'.reads (r := r') hS hmeans
    have htakes' := hreads'.takes hS hcell' hlt' hposition'
    obtain rfl := htakes'.reader
    have hsame : x' = x := by rw [htakes'.item, htakes.item, hr.position]
    subst hsame
    have htwin : v.Twin τ.pairing v' :=
      τ.twin.tapeChanged hr.tape htakes.spares htakes'.spares
        (.fixed hS htakes.cell htakes'.cell) htakes.names htakes'.names
    refine ⟨x', v', hreads', htakes.reader, htakes.logged, htakes'.logged, fun hnone => ?_,
      ⟨_, _, _, htwin⟩, rfl, rfl, .refl _,
      .of_pairing (.of_spares hr.tape htakes.spares htakes.names), ?_⟩
    · rw [htakes.ended hnone, htakes'.ended hnone]
    · rw [htakes.item]
      cases hdue : items r.position with
      | none => exact .none
      | some a => exact .some (.ok (.scalar (hS.scalar hdue)))
  | exact hlogs hphases =>
    have hlog : Option.Rel (Item.Twin τ.pairing) (τ.first.tape r.tape).log[r.position]?
        (τ.second.tape r'.tape).log[r'.position]? := by
      simpa [hr.position] using hlogs.getElem? r.position
    cases hreads with
    | logged item hitem =>
      rw [hitem] at hlog
      generalize hitem' : (τ.second.tape r'.tape).log[r'.position]? = x' at hlog
      cases hlog with
      | some hsame =>
        exact ⟨_, _, .logged _ hitem', rfl, hitem, hitem',
          fun hnone => (Option.some_ne_none _ hnone).elim, τ, rfl, rfl, .refl _, .refl _,
          .some hsame⟩
    | paused hnone hidle =>
      rw [hnone] at hlog
      generalize hnone' : (τ.second.tape r'.tape).log[r'.position]? = x' at hlog
      cases hlog
      generalize hphase : (τ.first.tape r.tape).phase = phase at hphases hidle
      generalize hphase' : (τ.second.tape r'.tape).phase = phase' at hphases
      cases hphases with
      | idle => exact (hidle _ rfl).elim
      | running | ended =>
        refine ⟨none, _, .paused hnone' (by simp [hphase']), rfl, hnone, hnone', fun _ => ?_, τ,
          rfl, rfl, .refl _, .refl _, .none⟩
        simp [TapeState.hasEnded, hphase, hphase']
    | drove p q₀ x u hnone hphase hnext =>
      rw [hnone] at hlog
      generalize hnone' : (τ.second.tape r'.tape).log[r'.position]? = x' at hlog
      cases hlog
      rw [hphase] at hphases
      generalize hphase' : (τ.second.tape r'.tape).phase = phase' at hphases
      cases hphases with
      | @idle _ p' hp =>
      obtain ⟨τ', x', q₀', v', hfirst, hsecond, hnext', hτ, hleaves, hx, hcell, hcell'⟩ :=
        hE.drive hr hlogs hphase hphase' hp hnext
      have hend : r.position = (τ.first.tape r.tape).log.size :=
        Nat.le_antisymm (hr.reached.trans hreach) (by simpa using hnone)
      have hend' : r'.position = (τ.second.tape r'.tape).log.size :=
        Nat.le_antisymm (hr.position.le.trans (hr.reached.trans hreach')) (by simpa using hnone')
      refine ⟨x', _, .drove p' q₀' x' _ hnone' hphase' hnext', rfl, ?_, ?_, ?_, τ', hfirst, hsecond,
        hτ, hleaves, hx⟩
      · rw [← hfirst, hcell, hend]
        exact TapeState.recorded_log_size
      · rw [← hsecond, hcell', hend']
        exact TapeState.recorded_log_size
      · rintro rfl
        cases hx
        rw [← hfirst, ← hsecond, hcell, hcell']
        rfl

end Reading

end MemoSeq
