/-
  MemoSeq/Proofs/Enclosures/Outside.lean
  =======================================
  **Sequences that lie outside of what they are produced from.**

  If a sequence is produced from within an enclosure and lies outside of it
  (`Sequence.Outside`), then what has been put into it does not show in what it produces:
  advanced with another value in its cache, it gives the same, and the other value is
  still all that differs (`Sequence.Outside.advance`).
-/
import MemoSeq.Proofs.Drawing
import MemoSeq.Proofs.Enclosures.Production

namespace MemoSeq

variable {H : Host} {N : Enclosure H} {E : Engine H} {s : Sequence} {w w' : World H}
variable {position : Nat} {v : Value}

/-! ### Overwriting as a mask -/

theorem SequenceState.settled_put {c : SequenceState} (hlt : position < c.cache.size)
    (x : Option Item) (ended : Bool) (r : Reader) :
    (c.put position v).settled x ended r = (c.settled x ended r).put position v := by
  match x with
  | none | some (.error _) => rfl
  | some (.ok u) =>
    have hcache : (c.cache.setIfInBounds position v).push u =
        (c.cache.push u).setIfInBounds position v := by
      simp only [← Array.append_singleton, Array.setIfInBounds_append_left hlt]
    simp [settled, put, hcache]

namespace World

theorem overwrite_eq_masked (hlt : position < (w.sequence s).cache.size) (v : Value) :
    w.overwrite s position v = w.masked s ((w.sequence s).put position v) := by
  rw [overwrite_eq, updateSequence_eq_masked, if_pos hlt]

theorem masked_waiting (c : SequenceState) : (w.masked s c).waiting s = w.masked s c.waiting :=
  updateSequence_updateSequence _ _

theorem masked_settled (c : SequenceState) (x : Option Item) (r : Reader) :
    (w.masked s c).settled s x r = w.masked s (c.settled x (r.isExhausted w) r) :=
  updateSequence_updateSequence _ _

theorem updateSequence_masked (f : SequenceState → SequenceState) (c : SequenceState) :
    (w.updateSequence s f).masked s c = w.masked s c := updateSequence_updateSequence _ _

end World

/-! ### Sequences outside -/

/-- What the sequence is still to be produced from belongs to the enclosure, and the
    sequence does not. -/
structure Sequence.Outside (s : Sequence) (N : Enclosure H) (w : World H) : Prop where
  holds : N.Holds w
  outside : ¬ N.list s
  reading : ∀ r, (w.sequence s).reader = some r → N.tape r.tape

/-- No part of what the sequence is still to be produced from looks at the sequence. -/
def Sequence.Overlooked (B : Behavior H) (s : Sequence) (w : World H) : Prop :=
  ∃ N : Enclosure H, B.Overlooks N s ∧ s.Outside N w

namespace Sequence.Outside

theorem sequence_lt (h : s.Outside N w) : s.id < w.sequences.size :=
  h.holds.lt_of_outside h.outside

theorem sequence_overwrite (h : s.Outside N w) (hlt : position < (w.sequence s).cache.size)
    (v : Value) : (w.overwrite s position v).sequence s = (w.sequence s).put position v := by
  rw [World.overwrite_eq_masked hlt, World.sequence_masked_self h.sequence_lt]

theorem advance (hE : N.Drives s E) (h : s.Outside N w) {y : Outcome (Option Value)}
    (hrun : (s.advance E).run.run w = .ok (y, w')) :
    s.Outside N w' ∧ (w.sequence s).cache.size ≤ (w'.sequence s).cache.size ∧
      ∀ (position : Nat) (v : Value), position < (w.sequence s).cache.size →
        (s.advance E).run.run (w.overwrite s position v) =
          .ok (y, w'.overwrite s position v) := by
  cases run_advance_iff.mp hrun with
  | failed e he =>
    refine ⟨h, Nat.le_refl _, fun position v hlt => run_advance_iff.mpr (.failed e ?_)⟩
    rwa [h.sequence_overwrite hlt]
  | still hfailure hstill =>
    refine ⟨h, Nat.le_refl _, fun position v hlt => run_advance_iff.mpr (.still ?_ ?_)⟩
    · rwa [h.sequence_overwrite hlt]
    · rwa [h.sequence_overwrite hlt]
  | pulled r r' x u hfailure hbusy hreader hreads =>
    have hwaiting := h.holds.waiting s
    have hr := h.reading r hreader
    obtain ⟨hu, ⟨-, hr'⟩, hmask⟩ := hreads.enclosed hE hwaiting hr
    have hcell : u.sequence s = (w.sequence s).waiting := by
      rw [(Reader.next_enclosed hE hwaiting hr).sequence_eq (Reader.run_next_iff.mpr hreads)
        h.outside, World.sequence_waiting_self h.sequence_lt]
    have hsettled : (u.settled s x r').sequence s =
        (w.sequence s).waiting.settled x (u.tape r'.tape).hasEnded r' := by
      rw [World.sequence_settled_self x r' (hu.lt_of_outside h.outside), hcell]
    have hgrown : (w.sequence s).cache.size ≤ ((u.settled s x r').sequence s).cache.size := by
      rw [hsettled]
      exact SequenceState.size_cache_le_settled (c := (w.sequence s).waiting) _ _
    refine ⟨⟨hu.settled s (absurd · h.outside) (absurd · h.outside), h.outside, fun q hq => ?_⟩,
      hgrown, fun position v hlt => ?_⟩
    · rw [hsettled] at hq
      match x with
      | none =>
        simp only [SequenceState.settled] at hq
        split at hq
        · cases hq
        · cases hq
          exact hr'
      | some (.error _) => cases hq
      | some (.ok _) =>
        cases hq
        exact hr'
    · -- before and after the producer is asked, the value that was put there is a mask
      have hbefore : (w.overwrite s position v).waiting s =
          (w.waiting s).masked s ((w.sequence s).put position v).waiting := by
        rw [World.overwrite_eq_masked hlt, World.masked_waiting]
        exact (World.updateSequence_masked _ _).symm
      have hafter : (u.settled s x r').overwrite s position v =
          (u.masked s ((w.sequence s).put position v).waiting).settled s x r' := by
        rw [World.overwrite_eq_masked (hlt.trans_le hgrown), hsettled, World.masked_settled]
        refine (World.updateSequence_masked _ _).trans (congrArg (u.masked s) ?_)
        exact (SequenceState.settled_put (c := (w.sequence s).waiting) hlt x _ r').symm
      rw [hafter]
      refine run_advance_iff.mpr (.pulled r r' x _ ?_ ?_ ?_ (hbefore ▸ hmask _))
      · rwa [h.sequence_overwrite hlt]
      · rwa [h.sequence_overwrite hlt]
      · rwa [h.sequence_overwrite hlt]

theorem of_produce (hE : N.Drives s E) (h : s.Outside N w) {count : Nat} {y : Outcome Bool}
    (hrun : (s.produce E count).run.run w = .ok (y, w')) : s.Outside N w' := by
  induction count generalizing w with
  | zero =>
    cases hrun
    exact h
  | succ count ih =>
    rcases Attempt.run_bind_eq_ok.mp hrun with ⟨x, u, hx, hrest⟩ | ⟨e, he, -⟩
    · have hu := (h.advance hE hx).1
      cases x with
      | none =>
        cases hrest
        exact hu
      | some a => exact ih hu hrest
    · exact (h.advance hE he).1

end Sequence.Outside

end MemoSeq
