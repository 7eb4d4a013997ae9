/-
  MemoSeq/Proofs/Broadcast/Timeline.lean
  ======================================
  **What it means that nothing is lost between a source and its branches.**

  A timeline lists what happens to a source and to the branches that read it, the
  latest first: so each of its tails is a moment.  It is lawful when each event could
  follow on the ones before (`Timeline.Follows`): a branch is given the item that
  comes next for it, and nothing only when it has had all and the source is at work
  or has ended.  All that is said of whole runs follows from that
  (`Timeline.Lawful.lossless`).
-/
import MemoSeq.World
import Mathlib.Data.List.Infix

namespace MemoSeq.Broadcast

inductive Event where
  | pulled (branch : Nat)
  | asked
  | answered (x : Option Item)
  | yielded (branch : Nat) (x : Option Item)
  | split (branch new : Nat)
  | dropped (branch : Nat)

/-- What has happened, the latest first. -/
abbrev Timeline := List Event

namespace Timeline

def delivered : Timeline → List Item
  | [] => []
  | .answered x :: past => delivered past ++ x.toList
  | _ :: past => delivered past

/-- Holds while the source has been called and has not returned. -/
def isRunning : Timeline → Bool
  | [] => false
  | .asked :: _ => true
  | .answered _ :: _ => false
  | _ :: past => isRunning past

/-- Holds once the source has returned a failure or nothing. -/
def hasEnded : Timeline → Bool
  | [] => false
  | .answered none :: _ => true
  | .answered (some (.error _)) :: _ => true
  | _ :: past => hasEnded past

/-- How many branches there have been; the first two are there from the start. -/
def opened : Timeline → Nat
  | [] => 2
  | .split _ _ :: past => opened past + 1
  | _ :: past => opened past

def isLive (b : Nat) : Timeline → Bool
  | [] => b < 2
  | .split _ c :: past => b == c || isLive b past
  | .dropped c :: past => b != c && isLive b past
  | _ :: past => isLive b past

/-- Holds while the branch has been pulled and has not got anything yet. -/
def isDriven (b : Nat) : Timeline → Bool
  | [] => false
  | .pulled c :: past => b == c || isDriven b past
  | .yielded c _ :: past => b != c && isDriven b past
  | _ :: past => isDriven b past

/-- What a branch has yielded, counting what the branch that it was split from had. -/
def yields (b : Nat) : Timeline → List Item
  | [] => []
  | .yielded c x :: past => if c = b then yields b past ++ x.toList else yields b past
  | .split a c :: past => if c = b then yields a past else yields b past
  | _ :: past => yields b past

/-- The item that comes next for a branch, if the source has returned it. -/
def due (b : Nat) (past : Timeline) : Option Item := (delivered past)[(yields b past).length]?

/-- Whether a branch may be pulled, split or dropped. -/
def isFree (b : Nat) (past : Timeline) : Bool := isLive b past && !isDriven b past

def Follows (past : Timeline) : Event → Prop
  | .asked => isRunning past = false ∧ hasEnded past = false
  | .answered _ => isRunning past = true
  | .pulled b | .dropped b => isFree b past = true
  | .yielded b x => isLive b past = true ∧ isDriven b past = true ∧ due b past = x ∧
      (x = none → isRunning past = true ∨ hasEnded past = true)
  | .split b c => isFree b past = true ∧ c = opened past

def Lawful : Timeline → Prop
  | [] => True
  | e :: past => Lawful past ∧ Follows past e

/-- At every moment of a run, and from each to every later one, nothing is lost. -/
structure Lossless (timeline : Timeline) : Prop where
  /-- What a branch has yielded is a beginning of what the source has returned. -/
  inOrder : ∀ past, past <:+ timeline → ∀ b, yields b past <+: delivered past
  /-- What a branch has yielded it keeps, whatever becomes of the others. -/
  kept : ∀ before after, after ++ before <:+ timeline → ∀ b, isLive b before = true →
    yields b before <+: yields b (after ++ before)
  /-- A branch gets the item that comes next for it, whatever the other branches did. -/
  given : ∀ past b x, .yielded b (some x) :: past <:+ timeline → due b past = some x
  /-- A branch gets nothing only if it has had all, and either the source is at work or
      it has ended. -/
  nothing : ∀ past b, .yielded b none :: past <:+ timeline →
    yields b past = delivered past ∧ (isRunning past = true ∨ hasEnded past = true)
  /-- When a branch gets nothing while the source is not at work, it has yielded, since
      any earlier moment, the rest of what there was then and all that came after. -/
  drained : ∀ before after b, .yielded b none :: (after ++ before) <:+ timeline →
    isRunning (after ++ before) = false →
    ∃ rest further, delivered before = yields b before ++ rest ∧
      delivered (after ++ before) = delivered before ++ further ∧
      yields b (after ++ before) = yields b before ++ (rest ++ further) ∧
      hasEnded (after ++ before) = true
  /-- A failure is the last item. -/
  failed : ∀ (past : Timeline) (i : Nat) (e : Error), past <:+ timeline →
    (delivered past)[i]? = some (.error e) →
    i + 1 = (delivered past).length ∧ hasEnded past = true
  /-- A source that has ended is not called again. -/
  ended : ∀ before after, after ++ before <:+ timeline → hasEnded before = true →
    delivered (after ++ before) = delivered before ∧ isRunning (after ++ before) = false

namespace Lawful

variable {timeline past before after : Timeline} {b : Nat}

theorem of_suffix (h : Lawful timeline) (hsuffix : past <:+ timeline) : Lawful past := by
  obtain ⟨later, rfl⟩ := hsuffix
  induction later with
  | nil => exact h
  | cons e later ih => exact ih h.1

theorem lt_opened (h : Lawful timeline) (hlive : isLive b timeline = true) :
    b < opened timeline := by
  induction timeline with
  | nil => simpa [isLive, opened] using hlive
  | cons e past ih =>
    cases e with
    | pulled | asked | answered | yielded => exact ih h.1 hlive
    | dropped c =>
      simp only [isLive, Bool.and_eq_true] at hlive
      exact ih h.1 hlive.2
    | split a c =>
      simp only [isLive, Bool.or_eq_true, beq_iff_eq] at hlive
      rcases hlive with rfl | hlive
      · rw [h.2.2]
        exact Nat.lt_succ_self _
      · exact Nat.lt_succ_of_lt (ih h.1 hlive)

theorem not_ended_of_running (h : Lawful timeline) (hrunning : isRunning timeline = true) :
    hasEnded timeline = false := by
  induction timeline with
  | nil => rfl
  | cons e past ih =>
    cases e with
    | asked => exact h.2.2
    | answered => cases hrunning
    | pulled | yielded | split | dropped => exact ih h.1 hrunning

/-- A branch that is given its next item stays behind the source. -/
theorem append_isPrefix {items all : List Item} {x : Item} (h : items <+: all)
    (hx : all[items.length]? = some x) : items ++ [x] <+: all := by
  obtain ⟨rest, rfl⟩ := h
  rw [List.getElem?_append_right (Nat.le_refl _), Nat.sub_self] at hx
  cases rest with
  | nil => cases hx
  | cons y rest =>
    cases hx
    exact ⟨rest, by simp⟩

theorem yields_isPrefix (h : Lawful timeline) (b : Nat) :
    yields b timeline <+: delivered timeline := by
  induction timeline generalizing b with
  | nil => exact List.prefix_rfl
  | cons e past ih =>
    cases e with
    | pulled | asked | dropped => exact ih h.1 b
    | answered x => exact (ih h.1 b).trans (List.prefix_append _ _)
    | split a c =>
      rw [yields]
      split
      · exact ih h.1 a
      · exact ih h.1 b
    | yielded c x =>
      rw [yields]
      split
      case isFalse => exact ih h.1 b
      case isTrue heq =>
        subst heq
        cases x with
        | none => simpa [delivered] using ih h.1 c
        | some x => exact append_isPrefix (ih h.1 c) h.2.2.2.1

theorem failed (h : Lawful timeline) {i : Nat} {e : Error}
    (hi : (delivered timeline)[i]? = some (.error e)) :
    i + 1 = (delivered timeline).length ∧ hasEnded timeline = true := by
  induction timeline with
  | nil => cases hi
  | cons event past ih =>
    cases event with
    | pulled | asked | yielded | split | dropped => exact ih h.1 hi
    | answered x =>
      -- the source is at work, so no failure came before
      have hbefore : (delivered past)[i]? ≠ some (.error e) := by
        intro hpast
        have hended := (ih h.1 hpast).2
        rw [h.1.not_ended_of_running h.2] at hended
        cases hended
      cases x with
      | none => exact (hbefore (by simpa [delivered] using hi)).elim
      | some x =>
        simp only [delivered, Option.toList_some] at hi ⊢
        rcases Nat.lt_or_ge i (delivered past).length with hlt | hge
        · rw [List.getElem?_append_left hlt] at hi
          exact (hbefore hi).elim
        · rw [List.getElem?_append_right hge] at hi
          have hzero : i - (delivered past).length = 0 := by
            have hlt := (List.getElem?_eq_some_iff.mp hi).1
            simp only [List.length_singleton] at hlt
            omega
          rw [hzero] at hi
          cases hi
          constructor
          · simp only [List.length_append, List.length_singleton]
            omega
          · rfl

theorem delivered_isPrefix (before after : Timeline) :
    delivered before <+: delivered (after ++ before) := by
  induction after with
  | nil => exact List.prefix_rfl
  | cons e after ih =>
    cases e with
    | pulled | asked | yielded | split | dropped => exact ih
    | answered x => exact ih.trans (List.prefix_append _ _)

theorem opened_le (before after : Timeline) : opened before ≤ opened (after ++ before) := by
  induction after with
  | nil => exact Nat.le_refl _
  | cons e after ih =>
    cases e with
    | pulled | asked | answered | yielded | dropped => exact ih
    | split => exact Nat.le_succ_of_le ih

/-- A branch that has nothing due has had all. -/
theorem yields_eq_delivered (h : Lawful timeline) (hnone : due b timeline = none) :
    yields b timeline = delivered timeline :=
  (h.yields_isPrefix b).eq_of_length_le (List.getElem?_eq_none_iff.mp hnone)

/-- The name of a branch is not given to another one, so it only ever yields more. -/
theorem yields_isPrefix_later (h : Lawful (after ++ before)) (hb : b < opened before) :
    yields b before <+: yields b (after ++ before) := by
  induction after with
  | nil => exact List.prefix_rfl
  | cons e after ih =>
    have hbefore := ih h.1
    cases e with
    | pulled | asked | answered | dropped => exact hbefore
    | yielded c x =>
      rw [List.cons_append, yields]
      split
      · exact hbefore.trans (List.prefix_append _ _)
      · exact hbefore
    | split a c =>
      have hne : c ≠ b := by
        rintro rfl
        have hlt := Nat.lt_of_lt_of_le hb (opened_le before after)
        rw [h.2.2] at hlt
        exact Nat.lt_irrefl _ hlt
      rw [List.cons_append, yields, if_neg hne]
      exact hbefore

theorem ended (h : Lawful (after ++ before)) (hended : hasEnded before = true) :
    delivered (after ++ before) = delivered before ∧ isRunning (after ++ before) = false ∧
      hasEnded (after ++ before) = true := by
  induction after with
  | nil =>
    refine ⟨rfl, ?_, hended⟩
    cases hrunning : isRunning before with
    | false => exact hrunning
    | true =>
      rw [List.nil_append] at h
      rw [h.not_ended_of_running hrunning] at hended
      cases hended
  | cons e after ih =>
    obtain ⟨hsame, hstill, hlast⟩ := ih h.1
    cases e with
    | asked =>
      have hnot : hasEnded (after ++ before) = false := h.2.2
      rw [hlast] at hnot
      cases hnot
    | answered =>
      have hrunning : isRunning (after ++ before) = true := h.2
      rw [hstill] at hrunning
      cases hrunning
    | pulled | yielded | split | dropped => exact ⟨hsame, hstill, hlast⟩

theorem drained (h : Lawful (.yielded b none :: (after ++ before)))
    (hidle : isRunning (after ++ before) = false) :
    ∃ rest further, delivered before = yields b before ++ rest ∧
      delivered (after ++ before) = delivered before ++ further ∧
      yields b (after ++ before) = yields b before ++ (rest ++ further) ∧
      hasEnded (after ++ before) = true := by
  have hbefore : Lawful before := h.1.of_suffix (List.suffix_append _ _)
  obtain ⟨rest, hrest⟩ := hbefore.yields_isPrefix b
  obtain ⟨further, hfurther⟩ := delivered_isPrefix before after
  obtain ⟨-, -, hnone, hstop⟩ := h.2
  refine ⟨rest, further, hrest.symm, hfurther.symm, ?_, ?_⟩
  · rw [h.1.yields_eq_delivered hnone, ← hfurther, ← hrest, List.append_assoc]
  · rcases hstop rfl with hrunning | hended
    · rw [hidle] at hrunning
      cases hrunning
    · exact hended

theorem lossless (h : Lawful timeline) : Lossless timeline where
  inOrder past hpast b := (h.of_suffix hpast).yields_isPrefix b
  kept before after hafter b hlive := by
    have hbefore : Lawful before := (h.of_suffix hafter).of_suffix (List.suffix_append _ _)
    exact (h.of_suffix hafter).yields_isPrefix_later (hbefore.lt_opened hlive)
  given past b x hpast := (h.of_suffix hpast).2.2.2.1
  nothing past b hpast := by
    obtain ⟨hlawful, -, -, hnone, hstop⟩ := h.of_suffix hpast
    exact ⟨hlawful.yields_eq_delivered hnone, hstop rfl⟩
  drained before after b hpast := (h.of_suffix hpast).drained
  failed past i e hpast := (h.of_suffix hpast).failed
  ended before after hpast hended :=
    ⟨((h.of_suffix hpast).ended hended).1, ((h.of_suffix hpast).ended hended).2.1⟩

end Lawful

end Timeline

end MemoSeq.Broadcast
