/-
  MemoSeq/Proofs/Flattening/Returning.lean
  =========================================
  **Flattening under a limit comes to an end.**

  The limit bounds how often each list is asked for its next value, and says nothing of how
  deep lists lie within lists.  That is bounded as well if no list that the value reaches ever
  lies within itself (`Behavior.Untangled`): on the way down from list to list, each of those
  that were there at first is met at most once, and between two of them there are new ones
  only, which are nested less and less deep (`Value.flattenBelow_finishes`).

  Lists may be made, produced and put into each other in any order before that, and some only
  come to hold each other while others are flattened.  So it is the worlds that come up later,
  and not only the present one, in which no list may lie within itself, and in which every
  list must answer (`Behavior.Answers`).
-/
import MemoSeq.Proofs.Contents
import MemoSeq.Proofs.Session.Unhooked.Steps
import Mathlib.Data.Finset.Card

namespace MemoSeq

variable {H : Host} {α β ε : Type} {B : Behavior H} {K : Pledge H} {G : Grading}
variable {w w' w'' : World H} {s : Sequence} {bound : Nat}

open Relation (ReflTransGen TransGen)

/-! ### Acts that come to an end -/

/-- Driven from some depth on, the act has this result and leads to this world. -/
def Behavior.Runs (B : Behavior H) (a : Engine H → Act H α) (w : World H) (x : α)
    (w' : World H) : Prop :=
  ∃ enough, ∀ depth ≥ enough, (a (.ofBehavior B depth)).run w = .ok (x, w')

/-- What asking lists for their next values leads to, one after the other. -/
def Behavior.Later (B : Behavior H) : World H → World H → Prop :=
  ReflTransGen fun w w' => ∃ (s : Sequence) (y : Outcome (Option Value)),
    B.Runs (fun E => (s.advance E).run) w y w'

/-- The act comes to a result, and has asked lists for their next values finitely often
    then. -/
def Behavior.Finishes (B : Behavior H) (w : World H) (a : Engine H → Act H α) : Prop :=
  ∃ x w', B.Later w w' ∧ B.Runs a w x w'

/-- Now and later, every list that is asked for its next value answers, be it with a value,
    with its end or with a failure. -/
def Behavior.Answers (B : Behavior H) (w : World H) : Prop :=
  ∀ w', B.Later w w' → ∀ s : Sequence, ∃ y w'', B.Runs (fun E => (s.advance E).run) w' y w''

namespace Behavior

theorem Runs.unique {a : Engine H → Act H α} {x y : α} (h : B.Runs a w x w')
    (h' : B.Runs a w y w'') : y = x ∧ w'' = w' := by
  obtain ⟨enough, hrun⟩ := h
  obtain ⟨enough', hrun'⟩ := h'
  cases (hrun _ (Nat.le_max_left enough enough')).symm.trans
    (hrun' _ (Nat.le_max_right enough enough'))
  exact ⟨rfl, rfl⟩

theorem Answers.later (hw : B.Answers w) (hlater : B.Later w w') : B.Answers w' :=
  fun _ hlater' => hw _ (hlater.trans hlater')

namespace Finishes

variable {a b : Engine H → Act H α}

theorem pure (x : α) : B.Finishes w fun _ => pure x :=
  ⟨x, w, .refl, 0, fun _ _ => rfl⟩

/-- It is enough that the act runs as the other one where it is driven deep. -/
theorem congr (enough : Nat) (hsame : ∀ depth ≥ enough,
      (a (.ofBehavior B depth)).run w = (b (.ofBehavior B depth)).run w)
    (hb : B.Finishes w b) : B.Finishes w a := by
  obtain ⟨x, w', hlater, enough', hrun⟩ := hb
  refine ⟨x, w', hlater, max enough enough', fun depth hdepth => ?_⟩
  exact (hsame depth (le_of_max_le_left hdepth)).trans (hrun depth (le_of_max_le_right hdepth))

theorem bind {f : Engine H → α → Act H β} (ha : B.Finishes w a)
    (hf : ∀ x w', B.Later w w' → B.Runs a w x w' → B.Finishes w' fun E => f E x) :
    B.Finishes w fun E => a E >>= f E := by
  obtain ⟨x, w', hlater, hruns⟩ := ha
  obtain ⟨y, w'', hlater', enough', hrest⟩ := hf x w' hlater hruns
  obtain ⟨enough, hrun⟩ := hruns
  refine ⟨y, w'', hlater.trans hlater', max enough enough', fun depth hdepth => ?_⟩
  rw [Act.run_bind_of_eq (hrun depth (le_of_max_le_left hdepth))]
  exact hrest depth (le_of_max_le_right hdepth)

/-- If an attempt fails, what would come after it is not done. -/
theorem attempt {a : Engine H → ExceptT ε (Act H) α} {f : Engine H → α → ExceptT ε (Act H) β}
    (ha : B.Finishes w fun E => (a E).run)
    (hf : ∀ x w', B.Later w w' → B.Runs (fun E => (a E).run) w (.ok x) w' →
      B.Finishes w' fun E => (f E x).run) : B.Finishes w fun E => (a E >>= f E).run := by
  obtain ⟨y, w', hlater, hruns⟩ := ha
  cases y with
  | ok x =>
    obtain ⟨z, w'', hlater', enough', hrest⟩ := hf x w' hlater hruns
    obtain ⟨enough, hrun⟩ := hruns
    refine ⟨z, w'', hlater.trans hlater', max enough enough', fun depth hdepth => ?_⟩
    exact (Attempt.run_bind_of_ok (hrun depth (le_of_max_le_left hdepth))).trans
      (hrest depth (le_of_max_le_right hdepth))
  | error e =>
    obtain ⟨enough, hrun⟩ := hruns
    exact ⟨.error e, w', hlater, enough, fun depth hdepth =>
      Attempt.run_bind_eq_ok.mpr (.inr ⟨e, hrun depth hdepth, rfl⟩)⟩

end Finishes

end Behavior

/-! ### Gradings of later worlds -/

/-- A graded world leads to graded worlds only. -/
theorem Behavior.Later.graded (hB : B.Redeems K) (hw : K.Holds G w) (hlater : B.Later w w') :
    ∃ G', K.Leads w G w' G' := by
  induction hlater with
  | refl => exact ⟨G, .refl hw⟩
  | tail _ hstep ih =>
    obtain ⟨G', hleads⟩ := ih
    obtain ⟨s, y, enough, hrun⟩ := hstep
    obtain ⟨G'', hleads', -⟩ := Sequence.advance_graded (Engine.ofBehavior_graded hB enough)
      hleads.holds (hrun enough (Nat.le_refl _))
    exact ⟨G'', hleads.trans hleads'⟩

def World.Has (w : World H) (s t : Sequence) : Prop := .list t ∈ (w.sequence s).cache

/-- No list that the value reaches lies within itself, now or later. -/
def Behavior.Untangled (B : Behavior H) (w : World H) (v : Value) : Prop :=
  ∀ s, v = .list s → ∀ w', B.Later w w' →
    ∀ t, ReflTransGen w'.Has s t → ¬ TransGen w'.Has t t

theorem Behavior.Untangled.later {v : Value} (hv : B.Untangled w v) (hlater : B.Later w w') :
    B.Untangled w' v :=
  fun s hs _ hlater' => hv s hs _ (hlater.trans hlater')

theorem Pledge.Leads.has {G' : Grading} (hleads : K.Leads w G w' G') {t u : Sequence}
    (hhas : w.Has t u) : w'.Has t u := by
  obtain ⟨i, hi⟩ := Array.mem_iff_getElem?.mp hhas
  exact Array.mem_of_getElem? (hleads.cached t i _ hi)

/-- What a list has among its values, it still has later. -/
theorem Behavior.Untangled.item (hB : B.Redeems K) (hw : K.Holds G w)
    (hs : B.Untangled w (.list s)) {v : Value} (hv : v ∈ (w.sequence s).cache) :
    B.Untangled w v := by
  rintro t rfl w' hlater u hreaches
  obtain ⟨G', hleads⟩ := hlater.graded hB hw
  exact hs s rfl w' hlater u (.head (hleads.has hv) hreaches)

/-- If no list is left out of the grading, none can lie within itself. -/
theorem Behavior.Redeems.untangled (hB : B.Redeems K) (hw : K.Holds G w) (hall : G.since = 0)
    (v : Value) : B.Untangled w v := by
  intro s _ w' hlater t _ hwithin
  obtain ⟨G', hleads⟩ := hlater.graded hB hw
  have hless : ∀ {t u}, w'.Has t u → G'.list u < G'.list t := by
    intro t u hhas
    obtain ⟨i, hi⟩ := Array.mem_iff_getElem?.mp hhas
    rcases hleads.holds.cached t i _ hi u rfl with hold | ⟨-, hless⟩
    · rw [hleads.since, hall] at hold
      exact (Nat.not_lt_zero _ hold).elim
    · exact hless
  have hdescends : ∀ {u}, TransGen w'.Has t u → G'.list u < G'.list t := by
    intro u hreaches
    induction hreaches with
    | single hhas => exact hless hhas
    | tail _ hhas ih => exact (hless hhas).trans ih
  exact (hdescends hwithin).false

/-! ### Forcing under a limit -/

/-- Of the rounds that deep engines allow, so many are left after some. -/
theorem Engine.fuel_sub {k depth : Nat} (hdepth : k + 2 ≤ depth) :
    (Engine.ofBehavior B depth).fuel - k = (Engine.ofBehavior B depth).fuel - (k + 1) + 1 := by
  obtain ⟨depth, rfl⟩ := Nat.exists_eq_add_of_le' (Nat.le_of_add_left_le hdepth)
  change depth + 1 - k = depth + 1 - (k + 1) + 1
  omega

/-- A round either ends the draining or leaves less room below the limit. -/
theorem Sequence.drain_finishes (hB : B.Redeems K) (room k : Nat) (hw : K.Holds G w)
    (hanswers : B.Answers w) (hroom : bound + 1 - (w.sequence s).cache.size ≤ room) :
    B.Finishes w fun E => (s.drain E (some bound) (E.fuel - k)).run := by
  induction room using Nat.strong_induction_on generalizing k G w with
  | _ room ih =>
    refine .congr (k + 2) (b := fun E => (s.drain E (some bound) (E.fuel - (k + 1) + 1)).run)
      (fun depth hdepth => by rw [Engine.fuel_sub hdepth]) ?_
    obtain ⟨y, w₁, hruns⟩ := hanswers w .refl s
    refine .attempt ⟨y, w₁, .single ⟨s, y, hruns⟩, hruns⟩ fun x u hlater hruns' => ?_
    cases x with
    | none => exact .pure _
    | some v =>
      obtain ⟨enough, hrun⟩ := hruns'
      obtain ⟨G', hleads, hgrown⟩ := Sequence.advance_graded (Engine.ofBehavior_graded hB enough)
        hw (hrun enough (Nat.le_refl _))
      have hless := (hgrown _ rfl _ rfl).2
      by_cases hexceeded : bound < (u.sequence s).cache.size
      · refine .congr 0 (fun depth _ => ?_) (.pure (.error (.materializeLimit bound)))
        refine (Attempt.run_bind_of_ok (x := u) rfl).trans ?_
        rw [if_pos hexceeded]
        rfl
      · refine .congr 0 (fun depth _ => ?_)
          (ih (bound + 1 - (u.sequence s).cache.size) (by omega) (k + 1) hleads.holds
            (hanswers.later hlater) (Nat.le_refl _))
        refine (Attempt.run_bind_of_ok (x := u) rfl).trans ?_
        rw [if_neg hexceeded]

theorem Sequence.materialize_finishes (hB : B.Redeems K) (hw : K.Holds G w)
    (hlimit : w.limit = some bound) (hanswers : B.Answers w) :
    B.Finishes w fun E => (s.materialize E).run := by
  refine .congr 0 (b := fun E => (do
      s.drain E (some bound) (E.fuel - 0)
      return ((← get).sequence s).cache : Attempt H (Array Value)).run)
    (fun depth _ => by rw [← hlimit]; rfl) ?_
  refine .attempt (drain_finishes hB _ 0 hw hanswers (Nat.le_refl _)) fun _ u _ _ => ?_
  exact .congr 0 (fun _ _ => rfl) (.pure (.ok (u.sequence s).cache))

/-! ### Flattening -/

/-- So many levels down from where an engine starts. -/
def Value.flattenBelow (k : Nat) (v : Value) (E : Engine H) : Attempt H Flat :=
  v.flattenWithin E (E.fuel - k)

theorem Value.flattenBelow_finishes_of_scalar {v : Value} (hv : v.asList? = none) (k : Nat) :
    B.Finishes w fun E => (v.flattenBelow k E).run := by
  have hsame : ∃ f : Flat, ∀ (E : Engine H) (levels : Nat), v.flattenWithin E levels = pure f := by
    cases v with
    | list s => cases hv
    | int n => exact ⟨.int n, fun E levels => by cases levels <;> rfl⟩
    | rational r => exact ⟨.float (.ofRat r), fun E levels => by cases levels <;> rfl⟩
    | str text => exact ⟨.str text, fun E levels => by cases levels <;> rfl⟩
  obtain ⟨f, hf⟩ := hsame
  exact .congr 0 (fun depth _ => by rw [Value.flattenBelow, hf]; rfl) (.pure (.ok f))

theorem Value.mapM_flattenBelow_finishes (k : Nat) {values : List Value}
    (hvalues : ∀ v ∈ values, ∀ w', B.Later w w' →
      B.Finishes w' fun E => (v.flattenBelow k E).run) :
    B.Finishes w fun E => (values.mapM fun v : Value => v.flattenBelow k E).run := by
  induction values generalizing w with
  | nil => exact .pure _
  | cons v values ih =>
    simp only [List.mapM_cons]
    refine .attempt (hvalues v List.mem_cons_self w .refl) fun f w' hlater _ => ?_
    refine .attempt (ih fun u hu w'' hlater' =>
      hvalues u (List.mem_cons_of_mem _ hu) w'' (hlater.trans hlater')) fun _ _ _ _ => ?_
    exact .pure _

/-- A list can be flattened if its values can, in the worlds that come up while it is forced
    and while those before them are flattened. -/
theorem Sequence.flattenBelow_finishes (hB : B.Redeems K) (hw : K.Holds G w)
    (hlimit : w.limit = some bound) (hanswers : B.Answers w) (k : Nat)
    (hitems : ∀ u, B.Later w u → ∀ v ∈ (u.sequence s).cache, ∀ w', B.Later u w' →
      B.Finishes w' fun E => (v.flattenBelow (k + 1) E).run) :
    B.Finishes w fun E => ((Value.list s).flattenBelow k E).run := by
  refine .congr (k + 2) (b := fun E => (do
      let values ← s.materialize E
      let items ← values.toList.mapM fun v : Value => v.flattenBelow (k + 1) E
      return .list items : Attempt H Flat).run)
    (fun depth hdepth => by rw [Value.flattenBelow, Engine.fuel_sub hdepth]; rfl) ?_
  refine .attempt (s.materialize_finishes hB hw hlimit hanswers) fun values u hlater hruns => ?_
  obtain ⟨enough, hrun⟩ := hruns
  obtain ⟨z, -, hz⟩ := Sequence.run_materialize_eq_ok.mp (hrun enough (Nat.le_refl _))
  have hvalues : values = (u.sequence s).cache := by
    cases z with
    | ok => exact Except.ok.inj hz
    | error => cases hz
  refine .attempt (Value.mapM_flattenBelow_finishes (k + 1) fun v hv => ?_) fun _ _ _ _ => ?_
  · exact hitems u hlater v (by rwa [hvalues, Array.mem_toList_iff] at hv)
  · exact .pure _

/-- On the way down to the value, the lists that are left are the only ones of those that were
    there at first which have not been met. -/
def World.LeftOn (w : World H) (left : Finset Nat) (since : Nat) (v : Value) : Prop :=
  ∀ s, v = .list s → ∀ t : Sequence, t.id < since → t.id ∉ left → TransGen w.Has t s

/-- What a list has when it has been forced, it has while its values are flattened, and they
    are bounded by its number. -/
theorem Sequence.item_flattened (hB : B.Redeems K) (hw : K.Holds G w)
    (huntangled : B.Untangled w (.list s)) {u : World H} (hlater : B.Later w u) {v : Value}
    (hv : v ∈ (u.sequence s).cache) (hlater' : B.Later u w') :
    ∃ G', K.Leads w G w' G' ∧ G'.Bounds w' (G'.list s) v ∧ B.Untangled w' v ∧
      ∀ t, v = .list t → w'.Has s t := by
  obtain ⟨G₁, hleads⟩ := hlater.graded hB hw
  obtain ⟨G', hleads'⟩ := hlater'.graded hB hleads.holds
  obtain ⟨i, hi⟩ := Array.mem_iff_getElem?.mp hv
  refine ⟨G', hleads.trans hleads', hleads'.holds.cached s i v (hleads'.cached s i v hi),
    ((huntangled.later hlater).item hB hleads.holds hv).later hlater', ?_⟩
  rintro t rfl
  exact hleads'.has hv

/-- The way down meets one of the lists that are left, or a new one with a number below that
    of the list before it. -/
theorem Value.flattenBelow_finishes (hB : B.Redeems K) (left : Finset Nat) (h k : Nat)
    {v : Value} (hw : K.Holds G w) (hlimit : w.limit = some bound) (hanswers : B.Answers w)
    (hv : G.Bounds w h v) (huntangled : B.Untangled w v) (hleft : w.LeftOn left G.since v) :
    B.Finishes w fun E => (v.flattenBelow k E).run := by
  induction left using Finset.strongInduction generalizing h k G w v with
  | _ left ihleft =>
  induction h using Nat.strong_induction_on generalizing k G w v with
  | _ h ih =>
  cases v with
  | int | rational | str => exact flattenBelow_finishes_of_scalar rfl k
  | list s =>
  refine s.flattenBelow_finishes hB hw hlimit hanswers k fun u hlater v hitem w' hlater' => ?_
  obtain ⟨G', hleads, hbounds, huntangled', hhas⟩ :=
    Sequence.item_flattened hB hw huntangled hlater hitem hlater'
  have hlimit' := hleads.limit.trans hlimit
  have hanswers' := hanswers.later (hlater.trans hlater')
  have hmet : ∀ {t t' : Sequence}, TransGen w.Has t s → v = .list t' → TransGen w'.Has t t' :=
    fun hreaches ht' => (TransGen.mono (fun _ _ => hleads.has) _ _ hreaches).tail (hhas _ ht')
  rcases hv s rfl with hold | ⟨hnew, hless⟩
  · -- a list met before would lie within itself, so this one has been left
    have hmem : s.id ∈ left := by
      by_contra hnot
      exact huntangled s rfl w .refl s .refl (hleft s rfl s hold hnot)
    refine ihleft (left.erase s.id) (Finset.erase_ssubset hmem) (G'.list s) (k + 1) hleads.holds
      hlimit' hanswers' hbounds huntangled' fun t' ht' t ht hnot => ?_
    rcases eq_or_ne t s with rfl | hne
    · exact .single (hhas t' ht')
    · have hid : t.id ≠ s.id := fun heq => hne (congrArg Sequence.mk heq)
      refine hmet (hleft s rfl t (hleads.since ▸ ht) fun hmem' => ?_) ht'
      exact hnot (Finset.mem_erase.mpr ⟨hid, hmem'⟩)
  · rw [hleads.list s hnew] at hbounds
    refine ih (G.list s) hless (k + 1) hleads.holds hlimit' hanswers' hbounds huntangled' ?_
    exact fun t' ht' t ht hnot => hmet (hleft s rfl t (hleads.since ▸ ht) hnot) ht'

/-- With a limit set and every list answering, a value can be flattened unless it reaches a
    list within itself. -/
theorem Value.flatten_finishes (hB : B.Redeems K) (hw : K.Holds G w) (hlimit : w.limit = some bound)
    (hanswers : B.Answers w) {v : Value} {h : Nat} (hv : G.Bounds w h v)
    (huntangled : B.Untangled w v) : B.Finishes w fun E => (v.flatten E).run := by
  refine flattenBelow_finishes hB (Finset.range G.since) h 0 hw hlimit hanswers hv huntangled ?_
  exact fun s _ t ht hnot => (hnot (Finset.mem_range.mpr ht)).elim

/-! ### Lists over given values -/

/-- Each producer at rest has the values that it still gives. -/
def World.Prepared (w : World H) : Prop :=
  ∀ t p, (w.tape t).phase = .idle p → ∃ values, p = .values values

namespace World.Prepared

theorem updateTape (hw : w.Prepared) (t : Tape) {f : TapeState H → TapeState H}
    (hf : ∀ p, (f (w.tape t)).phase = .idle p → ∃ values, p = .values values) :
    (w.updateTape t f).Prepared := by
  intro q p hp
  rw [tape_updateTape] at hp
  split at hp
  case isTrue heq =>
    obtain ⟨rfl, -⟩ := heq
    exact hf p hp
  case isFalse => exact hw q p hp

theorem running (hw : w.Prepared) (t : Tape) : (w.running t).Prepared :=
  hw.updateTape t fun _ hp => by cases hp

theorem recorded (hw : w.Prepared) (t : Tape) (x : Option Item) (values : List Value) :
    (w.recorded t x (.values values)).Prepared := by
  refine hw.updateTape t fun p hp => ?_
  match x with
  | none | some (.error _) => cases hp
  | some (.ok _) =>
    cases hp
    exact ⟨values, rfl⟩

theorem updateSequence (hw : w.Prepared) (s : Sequence) {f : SequenceState → SequenceState} :
    (w.updateSequence s f).Prepared :=
  fun t p hp => hw t p hp

/-- Whatever is read is there or is one of the values that are given. -/
theorem reads (hw : w.Prepared) (r : Reader) : ∃ x r' w', w'.Prepared ∧
    ∀ depth, r.Reads (.ofBehavior B (depth + 1)) w x r' w' := by
  cases hlog : (w.tape r.tape).log[r.position]? with
  | some item => exact ⟨some item, r.advance, w, hw, fun _ => .logged item hlog⟩
  | none =>
    cases hphase : (w.tape r.tape).phase with
    | running | ended => exact ⟨none, r, w, hw, fun _ => .paused hlog (by simp [hphase])⟩
    | idle p =>
      obtain ⟨values, rfl⟩ := hw r.tape p hphase
      have hnext (depth : Nat) (u : World H) :
          ((Engine.ofBehavior B (depth + 1)).next (.values values)).run u =
            .ok ((values.head?.map .ok, .values values.tail), u) := by
        cases values <;> rfl
      have hrunning : (w.running r.tape).Prepared := hw.running r.tape
      exact ⟨_, _, _, hrunning.recorded r.tape _ values.tail,
        fun depth => .drove _ _ _ _ hlog hphase (hnext depth _)⟩

theorem advances (hw : w.Prepared) (s : Sequence) : ∃ y w', w'.Prepared ∧
    ∀ depth, s.Advances (.ofBehavior B (depth + 1)) w y w' := by
  cases hfailure : (w.sequence s).failure with
  | some e => exact ⟨.error e, w, hw, fun _ => .failed e hfailure⟩
  | none =>
    by_cases hstill : (w.sequence s).busy = true ∨ (w.sequence s).reader = none
    · exact ⟨.ok none, w, hw, fun _ => .still hfailure hstill⟩
    · obtain ⟨hbusy, hreader⟩ := not_or.mp hstill
      obtain ⟨r, hreader⟩ := Option.ne_none_iff_exists'.mp hreader
      have hwaiting : (w.waiting s).Prepared := hw.updateSequence s
      obtain ⟨x, r', u, hu, hreads⟩ := hwaiting.reads (B := B) r
      refine ⟨Sequence.outcomeOf x, u.settled s x r', hu.updateSequence s, fun depth => ?_⟩
      exact .pulled r r' x u hfailure (Bool.eq_false_iff.mpr hbusy) hreader (hreads depth)

theorem runs (hw : w.Prepared) (s : Sequence) : ∃ y w', w'.Prepared ∧
    B.Runs (fun E => (s.advance E).run) w y w' := by
  obtain ⟨y, w', hw', hadvances⟩ := hw.advances (B := B) s
  refine ⟨y, w', hw', 1, fun depth hdepth => ?_⟩
  obtain ⟨depth, rfl⟩ := Nat.exists_eq_add_of_le' hdepth
  exact Sequence.run_advance_iff.mpr (hadvances depth)

theorem later (hw : w.Prepared) (hlater : B.Later w w') : w'.Prepared := by
  induction hlater with
  | refl => exact hw
  | tail _ hstep ih =>
    obtain ⟨s, y, hruns⟩ := hstep
    obtain ⟨z, u, hu, hruns'⟩ := ih.runs (B := B) s
    obtain ⟨-, rfl⟩ := hruns'.unique hruns
    exact hu

theorem answers (hw : w.Prepared) : B.Answers w := by
  intro w' hlater s
  obtain ⟨y, u, -, hruns⟩ := (hw.later hlater).runs (B := B) s
  exact ⟨y, u, hruns⟩

end World.Prepared

/-! ### Sessions without hooks -/

namespace Session

/-- After a session without hooks, with a limit set and every list answering, whatever flattens
    values comes to an end, with a result or an error, after lists have been asked for their
    next values finitely often; unless a value reaches a list within itself.  So for
    flattening, both ways of comparing, reading a value as a type of the host, and writing it
    as JSON. -/
theorem flattening_finishes {session : List Step} (hsession : ∀ s ∈ session, s.Hookless)
    {depth : Nat} {reports : List Report} {w : World host} {bound : Nat}
    (hrun : (session.mapM (step (engine depth))).run start = .ok (reports, w))
    (hlimit : w.limit = some bound) (hanswers : behavior.Answers w) {u v : Value}
    (hu : u.Stands w) (hv : v.Stands w) (hu' : behavior.Untangled w u)
    (hv' : behavior.Untangled w v) :
    behavior.Finishes w (fun E => (u.flatten E).run) ∧
    (∀ s, u = .list s → behavior.Finishes w fun E => (s.equals E v).run) ∧
    behavior.Finishes w (fun E => u.same E v) ∧
    (∀ type, behavior.Finishes w fun E => (u.read E type).run) ∧
    behavior.Finishes w fun E =>
      (do return (← u.flatten E).toDocument.write : Attempt host String).run := by
  obtain ⟨_, hw⟩ := hookless_of_run hsession hrun
  have hflatten : ∀ {x : Value}, x.Stands w → behavior.Untangled w x → ∀ {w'},
      behavior.Later w w' → behavior.Finishes w' fun E => (x.flatten E).run := by
    intro x hx hx' w' hlater
    obtain ⟨G, hleads⟩ := hlater.graded behavior_redeems hw
    have hbounds : G.Bounds w' 0 x := fun s hs => .inl (hleads.since ▸ hx s hs)
    exact x.flatten_finishes behavior_redeems hleads.holds (hleads.limit.trans hlimit)
      (hanswers.later hlater) hbounds (hx'.later hlater)
  have hequals : ∀ s, u = .list s → behavior.Finishes w fun E => (s.equals E v).run := by
    rintro s rfl
    refine .attempt (hflatten hu hu' .refl) fun f w' hlater _ => ?_
    exact .attempt (hflatten hv hv' hlater) fun g _ _ _ => .pure _
  refine ⟨hflatten hu hu' .refl, hequals, ?_, fun type => ?_, ?_⟩
  · unfold Value.same
    split
    case h_2 => exact .pure _
    case h_1 s t =>
      unfold Sequence.same
      split
      case isTrue => exact .pure _
      case isFalse =>
        refine .bind (hequals s rfl) fun y _ _ _ => ?_
        cases y with
        | ok b => exact .pure b
        | error e => exact .pure false
  · exact .attempt (hflatten hu hu' .refl) fun f _ _ _ => .pure (type.read f)
  · exact .attempt (hflatten hu hu' .refl) fun f _ _ _ => .pure _

/-- A list that holds another one twice, by reference and because it was put there. -/
def nesting : List Step :=
  [.newValues "a" [.int 2, .int 3], .newValues "b" [.int 1, .named "a", .int 9],
    .set "b" 2 (.named "a"), .setLimit (some 5)]

/-- The world that this leads to.  Nothing of the inner list has been produced. -/
def nested : World host where
  tapes := #[⟨#[], .idle (.values [.int 2, .int 3])⟩,
    ⟨#[.ok (.int 1), .ok (.list ⟨0⟩), .ok (.int 9)], .idle (.values [])⟩]
  sequences := #[⟨some ⟨⟨0⟩, 0⟩, #[], false, false, none, []⟩,
    ⟨some ⟨⟨1⟩, 3⟩, #[.int 1, .list ⟨0⟩, .list ⟨0⟩], false, false, none, [(2, .list ⟨0⟩)]⟩]
  limit := some 5
  displayLength := 32
  host :=
    { (default : Desk) with
      sequences := ((default : Names Sequence).insert "a" ⟨0⟩).insert "b" ⟨1⟩ }

theorem nesting_hookless : ∀ s ∈ nesting, s.Hookless := by
  simp [nesting, Step.Hookless, Term.Hookless.int, Term.Hookless.named]

theorem nested_prepared : nested.Prepared := by
  intro t p hp
  match t with
  | ⟨0⟩ | ⟨1⟩ =>
    cases hp
    exact ⟨_, rfl⟩
  | ⟨_ + 2⟩ => cases hp

/-- Worlds in which no iterator is asked and no test is put, and no list is left out of the
    grading. -/
def barren : Pledge host where
  source _ _ _ _ := False
  test _ := False
  host _ _ _ := True
  source_mono _ h := h
  host_mono _ h := h

/-- The list that is made later has the higher number. -/
theorem nested_graded : barren.Holds ⟨Tape.id, Sequence.id, 0⟩ nested := by
  have hinner : Grading.Bounds ⟨Tape.id, Sequence.id, 0⟩ nested 1 (.list ⟨0⟩) := by
    rintro s ⟨⟩
    exact .inr ⟨by decide, Nat.zero_lt_one⟩
  refine ⟨Nat.zero_le _, fun t i v hv => ?_, fun t p hp => ?_, fun s i v hv => ?_,
    fun s r hr => ?_, trivial⟩
  · match t, i with
    | ⟨0⟩, _ => cases hv
    | ⟨1⟩, 1 =>
      cases hv
      exact hinner
    | ⟨1⟩, 0 | ⟨1⟩, 2 =>
      cases hv
      exact .of_scalar rfl
    | ⟨1⟩, _ + 3 => cases hv
    | ⟨_ + 2⟩, _ => cases hv
  · match t with
    | ⟨0⟩ =>
      cases hp
      exact fun v hv => .of_scalar (by revert v; decide)
    | ⟨1⟩ =>
      cases hp
      exact nofun
    | ⟨_ + 2⟩ => cases hp
  · match s, i with
    | ⟨0⟩, _ => cases hv
    | ⟨1⟩, 1 | ⟨1⟩, 2 =>
      cases hv
      exact hinner
    | ⟨1⟩, 0 =>
      cases hv
      exact .of_scalar rfl
    | ⟨1⟩, _ + 3 => cases hv
    | ⟨_ + 2⟩, _ => cases hv
  · match s with
    | ⟨0⟩ | ⟨1⟩ =>
      cases hr
      exact ⟨by decide, Nat.le_refl _⟩
    | ⟨_ + 2⟩ => cases hr

theorem nested_untangled (v : Value) : behavior.Untangled nested v :=
  Behavior.Redeems.untangled (K := barren) ⟨fun _ _ h => h.elim, fun _ _ h => h.elim⟩
    nested_graded rfl v

theorem flattening_finishes_nested :
    (∀ s ∈ nesting, s.Hookless) ∧
    (∃ reports, (nesting.mapM (step (engine 5))).run start = .ok (reports, nested)) ∧
    behavior.Finishes nested (fun E => (Value.flatten E (.list ⟨1⟩)).run) ∧
    behavior.Finishes nested (fun E => (Sequence.equals E ⟨1⟩ (.list ⟨0⟩)).run) ∧
    behavior.Finishes nested (fun E => Value.same E (.list ⟨1⟩) (.list ⟨0⟩)) ∧
    (∀ type, behavior.Finishes nested fun E => (Value.read E (.list ⟨1⟩) type).run) := by
  have hstands : ∀ i < 2, (Value.list ⟨i⟩).Stands nested := fun _ hi => .list hi
  have hrun : ∃ reports, (nesting.mapM (step (engine 5))).run start = .ok (reports, nested) :=
    ⟨_, rfl⟩
  obtain ⟨reports, hreports⟩ := hrun
  obtain ⟨hflatten, hequals, hsame, hread, -⟩ :=
    flattening_finishes nesting_hookless hreports rfl nested_prepared.answers
      (hstands 1 (by decide)) (hstands 0 (by decide)) (nested_untangled _) (nested_untangled _)
  exact ⟨nesting_hookless, ⟨reports, hreports⟩, hflatten, hequals _ rfl, hsame, hread⟩

/-! ### A list within itself -/

/-- The only value of a list is overwritten with the list. -/
def tangling : List Step :=
  [.newValues "L" [.int 1], .setLimit (some 5), .set "L" 0 (.named "L"), .length "L"]

/-- The world that this leads to.  The list is forced. -/
def tangled : World host where
  tapes := #[⟨#[.ok (.int 1)], .ended⟩]
  sequences := #[⟨none, #[.list ⟨0⟩], false, false, none, [(0, .list ⟨0⟩)]⟩]
  limit := some 5
  displayLength := 32
  host :=
    { (default : Desk) with sequences := (default : Names Sequence).insert "L" ⟨0⟩ }

theorem tangled_prepared : tangled.Prepared := by
  intro t p hp
  match t with
  | ⟨0⟩ => cases hp
  | ⟨_ + 1⟩ => cases hp

/-- Each level has the next one below it, and the world stays the same. -/
theorem tangled_flattenWithin (E : Engine host) (levels : Nat) :
    ∃ halt, (Value.flattenWithin E levels (.list ⟨0⟩)).run.run tangled = .error halt := by
  induction levels with
  | zero => exact ⟨.starved, rfl⟩
  | succ levels ih =>
    obtain ⟨halt, hhalt⟩ := ih
    cases hfuel : E.fuel with
    | zero =>
      have hstarved : (Sequence.materialize E ⟨0⟩).run.run tangled = .error .starved := by
        unfold Sequence.materialize
        rw [hfuel]
        rfl
      exact ⟨.starved, Attempt.run_bind_of_halt hstarved⟩
    | succ rounds =>
      have hended : (Sequence.advance E ⟨0⟩).run.run tangled = .ok (.ok none, tangled) :=
        Sequence.run_advance_iff.mpr (.still rfl (.inr rfl))
      have hforced : (Sequence.materialize E ⟨0⟩).run.run tangled =
          .ok (.ok #[.list ⟨0⟩], tangled) := by
        refine Sequence.run_materialize_eq_ok.mpr ⟨.ok (), ?_, rfl⟩
        rw [hfuel]
        exact Attempt.run_bind_of_ok hended
      refine ⟨halt, (Attempt.run_bind_of_ok hforced).trans (Attempt.run_bind_of_halt ?_)⟩
      rw [List.mapM_cons]
      exact Attempt.run_bind_of_halt hhalt

/-- Although there is no hook, a limit is set and every list answers, a list within itself cannot
    be flattened, however deep that may go. -/
theorem not_flattening_finishes_tangled :
    (∀ s ∈ tangling, s.Hookless) ∧
    (∃ reports, (tangling.mapM (step (engine 4))).run start = .ok (reports, tangled)) ∧
    tangled.limit = some 5 ∧ behavior.Answers tangled ∧
    (Value.list ⟨0⟩).Stands tangled ∧
    (∀ depth, ∃ halt,
      (Value.flatten (engine depth) (.list ⟨0⟩)).run.run tangled = .error halt) ∧
    ¬ behavior.Finishes tangled fun E => (Value.flatten E (.list ⟨0⟩)).run := by
  have hhalts (depth : Nat) := tangled_flattenWithin (engine depth) (engine depth).fuel
  refine ⟨?_, ⟨_, rfl⟩, rfl, tangled_prepared.answers, .list Nat.zero_lt_one, hhalts, ?_⟩
  · simp [tangling, Step.Hookless, Term.Hookless.int, Term.Hookless.named]
  · rintro ⟨y, w', -, enough, hrun⟩
    obtain ⟨halt, hhalt⟩ := hhalts enough
    cases hhalt.symm.trans (hrun enough (Nat.le_refl _))

end Session

end MemoSeq
