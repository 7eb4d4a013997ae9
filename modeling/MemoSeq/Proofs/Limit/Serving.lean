/-
  MemoSeq/Proofs/Limit/Serving.lean
  ==================================
  **Readers that are served, and what comes of that.**

  A reader gets the value that the plan has at its position, or it gets the failure because
  of a limit, and then the plan allows for that (`Comes`).  As long as all earlier lists
  serve their readers in this way (`Reader.ServedBy`), iterations over them give what they
  have in prospect, and their sequences cache what they are to show: a sequence is forced as
  a whole unless a limit stops it or its tape was struck (`Sequence.brings_materialize`).
-/
import MemoSeq.Proofs.Limit.Plan

namespace MemoSeq

variable {H : Host} {B : Behavior H} {π : Plan} {frail frail' late : Prop} {M N : Set Nat}
variable {w w' : World H} {n depth : Nat} {values left : List Value} {x : Option Item}

def Healthy (x : Option Item) : Prop := ∀ e, x ≠ some (.error e)

theorem healthy_ok (v : Value) : Healthy (some (.ok v)) := fun e => by simp

namespace Comes

theorem mono (h : Comes π w frail values x left) (hfrail : frail → frail') :
    Comes π w frail' values x left := by
  cases h with
  | ended => exact .ended
  | due v a _ hv => exact .due v a left hv
  | struck _ e hf he => exact .struck values e (hfrail hf) he

/-- Only values that were due are left. -/
theorem length_le (h : Comes π w frail values x left) : left.length ≤ values.length := by
  cases h with
  | ended => exact Nat.le_refl _
  | due => exact Nat.le_succ _
  | struck => exact Nat.zero_le _

/-- A failure that comes is due to a limit. -/
theorem error {e : Error} (h : Comes π w frail values (some (.error e)) left) :
    frail ∧ e.OfLimit ∧ left = [] := by
  cases h with
  | struck _ _ hf he => exact ⟨hf, he, rfl⟩

end Comes

/-! ### Small changes of the world -/

namespace TapeState

variable {cell : TapeState H}

theorem values_recorded (x : Option Item) (p : Producer H) :
    (cell.recorded x p).values = cell.values ++ (x.bind Except.toOption).toList := by
  rw [values, log_recorded, Array.toList_append, List.filterMap_append]
  rcases x with _ | (e | v)
  · rfl
  · rfl
  · rfl

/-- The values on a tape without a failure. -/
theorem values_map_ok (items : List Value) (phase : Phase H) :
    (⟨(items.map .ok).toArray, phase⟩ : TapeState H).values = items := by
  rw [values]
  induction items with
  | nil => rfl
  | cons v items ih => exact congrArg (v :: ·) ih

theorem values_map_ok_error (items : List Value) (e : Error) (phase : Phase H) :
    (⟨(items.map .ok ++ [.error e] : List Item).toArray, phase⟩ : TapeState H).values = items := by
  have hitems := values_map_ok (H := H) items phase
  rw [values] at hitems ⊢
  rw [List.filterMap_append, hitems]
  exact List.append_nil items

end TapeState

namespace World

theorem log_running (w : World H) (t u : Tape) : ((w.running t).tape u).log = (w.tape u).log := by
  rw [World.running, tape_updateTape]
  split
  · rfl
  · rfl

theorem Later.running {t : Tape} (ht : (w.tape t).phase ≠ .ended) : w.Later (w.running t) where
  logs u i x hx := by
    rwa [log_running]
  ended u _ hu := by
    have hne : t ≠ u := by
      rintro rfl
      exact ht hu
    exact tape_running_of_ne hne
  size := Nat.le_of_eq (tapes_size_running w t).symm

theorem Later.recorded {t : Tape} (ht : (w.tape t).phase ≠ .ended) (x : Option Item)
    (p : Producer H) : w.Later (w.recorded t x p) where
  logs u i y hy := by
    rw [World.recorded, tape_updateTape]
    split
    · have hlt := (Array.getElem?_eq_some_iff.mp hy).1
      rw [TapeState.log_recorded, Array.getElem?_append_left hlt]
      exact hy
    · exact hy
  ended u _ hu := by
    have hne : t ≠ u := by
      rintro rfl
      exact ht hu
    exact tape_recorded_of_ne _ hne
  size := Nat.le_of_eq (tapes_size_recorded w t x p).symm

/-- Where tapes, sequences and the limit are the same, the plan is still followed. -/
theorem Holds.congr (hw : w.Holds B π M N) (htapes : w'.tapes = w.tapes)
    (hsequences : w'.sequences = w.sequences) (hlimit : w'.limit = w.limit) :
    w'.Holds B π M N := by
  have htape (t : Tape) : w'.tape t = w.tape t := by rw [World.tape, World.tape, htapes]
  have hsequence (s : Sequence) : w'.sequence s = w.sequence s := by
    rw [World.sequence, World.sequence, hsequences]
  have hplaces {k : Nat} {s : Sequence} (hs : w'.Places π k s) : w.Places π k s :=
    hs.congr fun t => by rw [htape]
  refine ⟨hlimit ▸ hw.limit, by rw [htapes, hsequences, hw.sizes], fun k s hs => ?_,
    fun k l s hk hl => hw.single k l s (hplaces hk) (hplaces hl), fun k s hs hk => ?_,
    fun k s hs hk => ?_⟩
  · rw [htapes]
    exact hw.located k s (hplaces hs)
  · rw [htape]
    exact (hw.tapes k s (hplaces hs) hk).later (.of_eq htapes)
  · rw [htape, hsequence]
    exact (hw.sequences k s (hplaces hs) hk).later (.of_eq htapes) (Nat.le_refl _)

theorem Proceeds.host (hw : w.Holds B π M N) (host : H.State) :
    w.Proceeds B π M N { w with host } where
  toLater := .of_eq rfl
  holds := hw.congr rfl rfl rfl
  tapes _ _ _ _ := rfl
  sequences _ _ _ _ := rfl
  limit := rfl

/-- Two lists are on different tapes. -/
theorem Holds.ne {k l : Nat} {s u : Sequence} (hw : w.Holds B π M N) (hs : w.Places π k s)
    (hu : w.Places π l u) (hne : l ≠ k) : s ≠ u := by
  rintro rfl
  exact hne (hw.single l k s hu hs)

theorem tape_ne {s u : Sequence} (h : s ≠ u) : (⟨s.id⟩ : Tape) ≠ ⟨u.id⟩ := fun heq =>
  h (congrArg Sequence.mk (Tape.mk.inj heq))

/-- A tape that is at work is exempt. -/
theorem Holds.running {k : Nat} {s : Sequence} (hw : w.Holds B π M N) (hs : w.Places π k s)
    (ht : (w.tape ⟨s.id⟩).phase ≠ .ended) : (w.running ⟨s.id⟩).Holds B π (insert k M) N := by
  have hplaces {l : Nat} {u : Sequence} (hu : (w.running ⟨s.id⟩).Places π l u) : w.Places π l u :=
    hu.congr fun t => log_running w _ t
  refine ⟨hw.limit, hw.sizes.trans (tapes_size_running w _).symm, fun l u hu => ?_,
    fun l m u hl hm => hw.single l m u (hplaces hl) (hplaces hm), fun l u hu hl => ?_,
    fun l u hu hl => ?_⟩
  · rw [tapes_size_running]
    exact hw.located l u (hplaces hu)
  · have hne := hw.ne hs (hplaces hu) fun heq => hl (heq ▸ Set.mem_insert k M)
    rw [tape_running_of_ne (tape_ne hne)]
    exact (hw.tapes l u (hplaces hu) fun hm => hl (Set.mem_insert_of_mem k hm)).later (.running ht)
  · exact (hw.sequences l u (hplaces hu) hl).later (.running ht) ((Later.running ht).grows _)

/-- A sequence that waits is exempt. -/
theorem Holds.waiting {k : Nat} {s : Sequence} (hw : w.Holds B π M N) (hs : w.Places π k s) :
    (w.waiting s).Holds B π M (insert k N) := by
  have hback : (w.waiting s).Later w := .of_eq rfl
  have hplaces {l : Nat} {u : Sequence} (hu : (w.waiting s).Places π l u) : w.Places π l u :=
    hu.later hback
  refine ⟨hw.limit, (sequences_size_waiting w s).trans hw.sizes,
    fun l u hu => hw.located l u (hplaces hu),
    fun l m u hl hm => hw.single l m u (hplaces hl) (hplaces hm),
    fun l u hu hl => (hw.tapes l u (hplaces hu) hl).later (.of_eq rfl), fun l u hu hl => ?_⟩
  have hne := hw.ne hs (hplaces hu) fun heq => hl (heq ▸ Set.mem_insert k N)
  rw [World.waiting, sequence_updateSequence_of_ne _ hne]
  exact (hw.sequences l u (hplaces hu) fun hm => hl (Set.mem_insert_of_mem k hm)).later
    (.of_eq rfl) (Nat.le_refl _)

/-- What was done while a sequence waited, and what it has taken in since. -/
theorem Proceeds.settled {k : Nat} {s : Sequence} {v : World H} {r : Reader}
    (hw : w.Holds B π M N) (hproper : π.Proper) (hs : w.Places π k s) (hk : k ∉ N)
    (h : (w.waiting s).Proceeds B π M (insert k N) v)
    (hcell : ((v.settled s x r).sequence s).Follows π v k s (v.tape ⟨s.id⟩).values.length) :
    w.Proceeds B π M N (v.settled s x r) := by
  have hback : (v.settled s x r).Later v := .of_eq rfl
  have hsettled : v.Later (v.settled s x r) := .of_eq rfl
  have hwaiting : w.Later (w.waiting s) := .of_eq rfl
  have hplaces {l : Nat} {u : Sequence} (hu : (v.settled s x r).Places π l u) : v.Places π l u :=
    hu.later hback
  have hwait {l : Nat} {u : Sequence} (hu : w.Places π l u) : (w.waiting s).Places π l u :=
    hu.later hwaiting
  have hv := h.places (hwait hs)
  refine ⟨⟨h.logs, h.ended, h.size⟩, ⟨h.holds.limit, ?_, fun l u hu => ?_,
    fun l m u hl hm => h.holds.single l m u (hplaces hl) (hplaces hm),
    fun l u hu hl => (h.holds.tapes l u (hplaces hu) hl).later hsettled, fun l u hu hl => ?_⟩,
    fun l u hu hl => h.tapes l u (hwait hu) hl, fun l u hu hl => ?_, h.limit⟩
  · rw [sequences_size_settled]
    exact h.holds.sizes
  · exact h.holds.located l u (hplaces hu)
  · by_cases heq : l = k
    · subst heq
      obtain rfl := (hplaces hu).unique hproper hv
      exact hcell.later hsettled (Nat.le_refl _)
    · have hne := h.holds.ne hv (hplaces hu) heq
      rw [World.settled, sequence_updateSequence_of_ne _ hne]
      refine (h.holds.sequences l u (hplaces hu) fun hm => ?_).later hsettled (Nat.le_refl _)
      exact (Set.mem_insert_iff.mp hm).elim heq hl
  · have hne := hw.ne hs hu fun heq => hk (heq ▸ hl)
    rw [World.settled, sequence_updateSequence_of_ne _ hne,
      h.sequences l u (hwait hu) (Set.mem_insert_of_mem k hl), World.waiting,
      sequence_updateSequence_of_ne _ hne]

end World

/-! ### Readers that are served -/

namespace Reader

/-- The reader gets what the plan has for it, or comes upon the failure of a tape that was
    struck; when there is nothing, the tape has ended. -/
def Gets (B : Behavior H) (π : Plan) (depth : Nat) (M N : Set Nat) (k : Nat) (w : World H)
    (r : Reader) : Prop :=
  ∃ x w' left, (r.next (.ofBehavior B depth)).run w = .ok ((x, r.past x), w') ∧
    w.Proceeds B π M N w' ∧
    Comes π w' (π.frail k) ((π.whole k).drop r.position) x left ∧
    (r.past x).Prospect π w' (k + 1) (π.late k ∧ Healthy x) left ∧
    (∀ v, x = some (.ok v) → r.position < (w'.tape r.tape).values.length) ∧
    (x = none → (w'.tape r.tape).hasEnded = true)

/-- Each reader of a tape gets what it is to get, while only later ones are at work. -/
def ServedBy (B : Behavior H) (π : Plan) (k : Nat) : Prop :=
  ∀ depth (M N : Set Nat) (w : World H) (r : Reader), w.Places π k ⟨r.tape.id⟩ →
    k + π.bound + 3 ≤ depth → (∀ l ∈ M, k < l) → (∀ l ∈ N, k ≤ l) → w.Holds B π M N →
    r.position ≤ (w.tape r.tape).values.length → r.Gets B π depth M N k w

section Gets

variable {r : Reader} {k : Nat} (hw : w.Holds B π M N) (hplace : w.Places π k ⟨r.tape.id⟩)
include hw hplace

/-- What is logged already is read without driving the producer. -/
theorem gets_of_logged {v a : Value} (hlog : (w.tape r.tape).log[r.position]? = some (.ok v))
    (ha : (π.whole k)[r.position]? = some a) (hv : v.StandsFor π w a)
    (hlt : r.position < (w.tape r.tape).values.length) : r.Gets B π depth M N k w := by
  obtain ⟨hlen, hget⟩ := List.getElem?_eq_some_iff.mp ha
  have hdue : (π.whole k).drop r.position = a :: (π.whole k).drop (r.position + 1) := by
    rw [List.drop_eq_getElem_cons hlen, hget]
  rw [Gets, hdue]
  exact ⟨some (.ok v), w, _, run_next_of_logged hlog, .refl hw, .due v a _ hv,
    .reading k (Nat.lt_succ_self k) hplace (⟨·, healthy_ok v⟩) hlt, fun _ _ => hlt, by simp⟩

/-- A reader at the end of an ended tape gets nothing, if that is all that was planned. -/
theorem gets_of_ended (hended : (w.tape r.tape).phase = .ended)
    (hend : (w.tape r.tape).log.size ≤ r.position) (hall : (π.whole k).length ≤ r.position) :
    r.Gets B π depth M N k w := by
  have hlog : (w.tape r.tape).log[r.position]? = none := Array.getElem?_eq_none hend
  rw [Gets, List.drop_eq_nil_of_le hall]
  exact ⟨none, w, [], run_next_of_paused hlog (by simp [hended]), .refl hw, .ended,
    .spent (hw.located k _ hplace) hended hend, by simp,
    fun _ => by simp [TapeState.hasEnded, hended]⟩

/-- A reader behind the values of a tape that was struck comes upon the failure. -/
theorem gets_of_struck {e : Error} (hfrail : π.frail k) (he : e.OfLimit)
    (hended : (w.tape r.tape).phase = .ended)
    (hlog : (w.tape r.tape).log[r.position]? = some (.error e))
    (hend : (w.tape r.tape).log.size = r.position + 1) : r.Gets B π depth M N k w :=
  ⟨some (.error e), w, [], run_next_of_logged hlog, .refl hw, .struck _ e hfrail he,
    .spent (hw.located k _ hplace) hended (Nat.le_of_eq hend), by simp, by simp⟩

end Gets

end Reader

/-! ### Acts that bring what is planned -/

variable {α β : Type} {cause stuck : Prop}

/-- The act comes to something that is as it should be, or, where that may happen, to the
    failure because of a limit, or it lacks the means to come to an end.  The plan is
    followed afterwards. -/
inductive World.Brings (B : Behavior H) (π : Plan) (M N : Set Nat) (w : World H)
    (cause stuck : Prop) (a : Attempt H α) (good : World H → α → Prop) : Prop
  | comes (x : α) (w' : World H) : a.run.run w = .ok (.ok x, w') → w.Proceeds B π M N w' →
      good w' x → Brings B π M N w cause stuck a good
  | fails (e : Error) (w' : World H) : a.run.run w = .ok (.error e, w') →
      w.Proceeds B π M N w' → cause → e.OfLimit → Brings B π M N w cause stuck a good
  | starves : a.run.run w = .error .starved → stuck → Brings B π M N w cause stuck a good

namespace World.Brings

variable {a : Attempt H α} {good good' : World H → α → Prop} {fine : World H → β → Prop}

theorem pure (hw : w.Holds B π M N) {x : α} (hx : good w x) :
    w.Brings B π M N cause stuck (Pure.pure x : Attempt H α) good :=
  .comes x w rfl (.refl hw) hx

theorem run_bind {f : α → Attempt H β} {x : α} (hrun : a.run.run w = .ok (.ok x, w'))
    (hproceeds : w.Proceeds B π M N w') (h : w'.Brings B π M N cause stuck (f x) fine) :
    w.Brings B π M N cause stuck (a >>= f) fine := by
  cases h with
  | comes y w'' hrest hproceeds' hy =>
    exact .comes y w'' ((Attempt.run_bind_of_ok hrun).trans hrest) (hproceeds.trans hproceeds') hy
  | fails e w'' hrest hproceeds' hcause he =>
    exact .fails e w'' ((Attempt.run_bind_of_ok hrun).trans hrest) (hproceeds.trans hproceeds')
      hcause he
  | starves hrest hstuck => exact .starves ((Attempt.run_bind_of_ok hrun).trans hrest) hstuck

theorem bind {f : α → Attempt H β} (ha : w.Brings B π M N cause stuck a good)
    (hf : ∀ x w', w.Proceeds B π M N w' → good w' x →
      w'.Brings B π M N cause stuck (f x) fine) :
    w.Brings B π M N cause stuck (a >>= f) fine := by
  cases ha with
  | comes x w' hrun hproceeds hx => exact .run_bind hrun hproceeds (hf x w' hproceeds hx)
  | fails e w' hrun hproceeds hcause he =>
    exact .fails e w' (Attempt.run_bind_eq_ok.mpr (.inr ⟨e, hrun, rfl⟩)) hproceeds hcause he
  | starves hrun hstuck => exact .starves (Attempt.run_bind_of_halt hrun) hstuck

/-- What comes of it is told. -/
theorem told (h : w.Brings B π M N cause stuck a good) {f : α → β}
    (hf : ∀ w' x, good w' x → fine w' (f x)) :
    w.Brings B π M N cause stuck (a >>= fun x => Pure.pure (f x)) fine :=
  h.bind fun x w' hproceeds hx => .pure hproceeds.holds (hf w' x hx)

theorem get_bind {f : World H → Attempt H β} (h : w.Brings B π M N cause stuck (f w) fine) :
    w.Brings B π M N cause stuck (get >>= f) fine := by
  have hrun : (get >>= f : Attempt H β).run.run w = (f w).run.run w :=
    Attempt.run_bind_of_ok (a := get) rfl
  cases h with
  | comes y w' hrest hproceeds hy => exact .comes y w' (hrun.trans hrest) hproceeds hy
  | fails e w' hrest hproceeds hcause he => exact .fails e w' (hrun.trans hrest) hproceeds hcause he
  | starves hrest hstuck => exact .starves (hrun.trans hrest) hstuck

theorem imp {cause' stuck' : Prop} (h : w.Brings B π M N cause stuck a good)
    (hcause : cause → cause') (hstuck : stuck → stuck') (hgood : ∀ w' x, good w' x → good' w' x) :
    w.Brings B π M N cause' stuck' a good' := by
  cases h with
  | comes x w' hrun hproceeds hx => exact .comes x w' hrun hproceeds (hgood w' x hx)
  | fails e w' hrun hproceeds hc he => exact .fails e w' hrun hproceeds (hcause hc) he
  | starves hrun hs => exact .starves hrun (hstuck hs)

theorem weaken {cause' : Prop} (h : w.Brings B π M N cause stuck a good)
    (hcause : cause → cause') : w.Brings B π M N cause' stuck a good :=
  h.imp hcause id fun _ _ => id

/-- An act that cannot be stopped comes to what it should. -/
theorem run_of_calm (h : w.Brings B π M N cause stuck a good) (hcause : ¬cause) (hstuck : ¬stuck) :
    ∃ x w', a.run.run w = .ok (.ok x, w') ∧ w.Proceeds B π M N w' ∧ good w' x := by
  cases h with
  | comes x w' hrun hproceeds hx => exact ⟨x, w', hrun, hproceeds, hx⟩
  | fails _ _ _ _ hc => exact (hcause hc).elim
  | starves _ hs => exact (hstuck hs).elim

end World.Brings

/-! ### Iterations -/

section Below

variable (hserved : ∀ j < n, Reader.ServedBy B π j) (hdepth : n + π.bound + 2 ≤ depth)
variable (hM : ∀ l ∈ M, n ≤ l) (hN : ∀ l ∈ N, n ≤ l) (hw : w.Holds B π M N)

include hserved hdepth hM hN hw in
theorem Reader.Prospect.next {r : Reader} (h : r.Prospect π w n late values) :
    ∃ x w' left, (r.next (.ofBehavior B depth)).run w = .ok ((x, r.past x), w') ∧
      w.Proceeds B π M N w' ∧ Comes π w' (late ∧ π.spoilt) values x left ∧
      (r.past x).Prospect π w' n (late ∧ Healthy x) left := by
  cases h with
  | reading j hj hplace hdraws hposition =>
    obtain ⟨x, w', left, hrun, hproceeds, hcomes, hprospect, -⟩ :=
      hserved j hj depth M N w r hplace (by omega)
        (fun l hl => Nat.lt_of_lt_of_le hj (hM l hl))
        (fun l hl => Nat.le_trans (Nat.le_of_lt hj) (hN l hl)) hw hposition
    exact ⟨x, w', left, hrun, hproceeds, hcomes.mono (And.imp_left hdraws),
      hprospect.mono hj (.refl _ _ _) (.refl _) (And.imp_left hdraws)⟩
  | spent hlt hended hend =>
    have hlog : (w.tape r.tape).log[r.position]? = none := Array.getElem?_eq_none hend
    exact ⟨none, w, [], run_next_of_paused hlog (by simp [hended]), .refl hw, .ended,
      .spent hlt hended hend⟩

/-- An iteration that has cached something has that first in prospect. -/
theorem Iteration.Prospect.cached_next {v : Value} {cached : List Value} {rest : Option Reader}
    {failure : Option Error}
    (h : (⟨v :: cached, rest, failure⟩ : Iteration).Prospect π w n late values) :
    ∃ a left, values = a :: left ∧ v.StandsFor π w a ∧
      (⟨cached, rest, failure⟩ : Iteration).Prospect π w n late left := by
  cases h with
  | reading _ shown values r hcached hr =>
    cases hcached with
    | @cons _ a _ shown hv hcached =>
      exact ⟨a, shown ++ values, rfl, hv, .reading cached shown values r hcached hr⟩
  | done _ _ hcached =>
    cases hcached with
    | @cons _ a _ shown hv hcached => exact ⟨a, shown, rfl, hv, .done cached shown hcached⟩
  | failed _ shown left e hcached hl hspoilt he =>
    cases hcached with
    | @cons _ a _ shown hv hcached =>
      exact ⟨a, shown ++ left, rfl, hv, .failed cached shown left e hcached hl hspoilt he⟩

include hserved hdepth hM hN hw in
/-- Behind a failure an iteration has nothing more, and no other failure, in prospect. -/
theorem Iteration.Prospect.next {i : Iteration} (h : i.Prospect π w n late values) :
    ∃ x i' w' left, (i.next (.ofBehavior B depth)).run w = .ok ((x, i'), w') ∧
      w.Proceeds B π M N w' ∧ Comes π w' (late ∧ π.spoilt) values x left ∧
      i'.Prospect π w' n (late ∧ Healthy x) left := by
  obtain ⟨cached, rest, failure⟩ := i
  cases cached with
  | cons v cached =>
    obtain ⟨a, left, rfl, hv, hleft⟩ := h.cached_next
    exact ⟨some (.ok v), ⟨cached, rest, failure⟩, w, left, rfl, .refl hw, .due v a left hv,
      hleft.mono (Nat.le_refl n) (.refl _ _ _) (.refl w) (⟨·, healthy_ok v⟩)⟩
  | nil =>
    cases h with
    | done _ _ hcached =>
      cases hcached
      exact ⟨none, ⟨[], none, none⟩, w, [], rfl, .refl hw, .ended, .done [] [] .nil⟩
    | failed _ shown left e hcached hl hspoilt he =>
      exact ⟨some (.error e), ⟨[], none, none⟩, w, [], rfl, .refl hw, .struck _ e ⟨hl, hspoilt⟩ he,
        .done [] [] .nil⟩
    | reading _ shown values r hcached hr =>
      cases hcached
      obtain ⟨x, w', left, hrun, hproceeds, hcomes, hr'⟩ := hr.next hserved hdepth hM hN hw
      refine ⟨x, ⟨[], if x.isSome then some (r.past x) else none, none⟩, w', left, ?_, hproceeds,
        hcomes, ?_⟩
      · unfold Iteration.next
        simp only [Act.run_bind_of_eq hrun]
        rfl
      · cases x with
        | none =>
          cases hcomes
          exact .done [] [] .nil
        | some item => exact .reading [] [] left _ .nil hr'

include hserved hdepth hM hN hw in
/-- A search along an iteration stops at the first value that passes, or where a limit has
    struck. -/
theorem Iteration.Prospect.search {test : H.Test} {holds : Value → Bool}
    (htest : B.Sees test holds) {i : Iteration} (h : i.Prospect π w n late values)
    (hfits : values.length ≤ π.bound) {rounds : Nat} (hrounds : values.length < rounds) :
    ∃ x state w' left, (Producer.search (.ofBehavior B depth) test rounds i).run w =
        .ok ((x, state), w') ∧
      w.Proceeds B π M N w' ∧ Comes π w' (late ∧ π.spoilt) (values.filter holds) x left ∧
      ∀ v, x = some (.ok v) → ∃ rest, state.Prospect π w' n late rest ∧
        rest.filter holds = left := by
  induction values generalizing w i rounds with
  | nil =>
    obtain ⟨rounds, rfl⟩ := Nat.exists_eq_add_one_of_ne_zero (Nat.ne_zero_of_lt hrounds)
    obtain ⟨x, i', w', left, hrun, hproceeds, hcomes, -⟩ := h.next hserved hdepth hM hN hw
    rw [Producer.search, Act.run_bind_of_eq hrun]
    cases hcomes with
    | ended => exact ⟨none, .finished, w', [], rfl, hproceeds, .ended, by simp⟩
    | struck _ e hf he =>
      exact ⟨some (.error e), .opened i', w', [], rfl, hproceeds, .struck _ e hf he, by simp⟩
  | cons a values ih =>
    obtain ⟨rounds, rfl⟩ := Nat.exists_eq_add_one_of_ne_zero (Nat.ne_zero_of_lt hrounds)
    obtain ⟨x, i', u, left, hrun, hproceeds, hcomes, hi'⟩ := h.next hserved hdepth hM hN hw
    rw [Producer.search, Act.run_bind_of_eq hrun]
    cases hcomes with
    | struck _ e hf he =>
      exact ⟨some (.error e), .opened i', u, [], rfl, hproceeds, .struck _ e hf he, by simp⟩
    | due v _ _ hv =>
      obtain ⟨depth, rfl⟩ : ∃ k, depth = k + 1 := ⟨depth - 1, by omega⟩
      -- the test may change the host, but nothing that iterations read
      obtain ⟨host, htested⟩ := htest.decides depth v u
      have hput : (((Engine.ofBehavior B (depth + 1)).test test v).outcome).run u =
          .ok (.ok (holds v), { u with host }) := htested
      have hhost := World.Proceeds.host hproceeds.holds host
      have hi'' := hi'.mono (Nat.le_refl _) (.refl _ _ _) hhost.toLater And.left
      have hrest : values.length ≤ π.bound := Nat.le_of_succ_le hfits
      have hsame : holds v = holds a := hv.holds_eq htest
      rw [Act.run_bind_of_eq hput]
      cases hpass : holds v with
      | true =>
        rw [List.filter_cons_of_pos (hsame ▸ hpass)]
        exact ⟨some (.ok v), .opened i', { u with host }, values.filter holds, rfl,
          hproceeds.trans hhost, .due v a _ (hv.later hhost.toLater),
          fun _ _ => ⟨values, .opened i' values hi'' hrest, rfl⟩⟩
      | false =>
        -- this value does not pass, and the search goes on behind it
        obtain ⟨x, state, w', left, hsearch, hproceeds', hcomes', hstate⟩ :=
          ih hhost.holds hi'' hrest (Nat.lt_of_succ_lt_succ hrounds)
        rw [List.filter_cons_of_neg (by simp [← hsame, hpass])]
        exact ⟨x, state, w', left, hsearch, (hproceeds.trans hhost).trans hproceeds', hcomes',
          hstate⟩

/-- A sequence that follows the plan opens an iteration over what it shows. -/
theorem World.Holds.iteration {j : Nat} {s : Sequence} (hw : w.Holds B π M N)
    (hs : w.Places π j s) (hj : j < n) (hfree : j ∉ N) (hdraws : π.late j → late) :
    (w.iteration s).Prospect π w n late (π.face j) := by
  have hfollows := hw.sequences j s hs hfree
  unfold World.iteration
  generalize w.sequence s = c at hfollows
  cases hfollows with
  | reading cache shown left overwritten hcache hshown hleft hbehind =>
    rw [hshown, ← hleft]
    exact .reading cache.toList shown _ ⟨⟨s.id⟩, cache.size⟩ hcache
      (.reading j hj hs hdraws hbehind)
  | done cache overwritten hcache => exact .done cache.toList _ hcache
  | failed cache shown left e overwritten hcache hshown hf he =>
    rw [hshown]
    exact .failed cache.toList shown left e hcache (hdraws hf.1) hf.2 he

include hserved hdepth hM hN hw in
theorem Deferred.Prospect.next (hproper : π.Proper) {state : Deferred Sequence Iteration}
    (h : state.Prospect π w n late values) :
    ∃ x state' w' left, (Producer.nextDeferred (.ofBehavior B depth) state).run w =
        .ok ((x, state'), w') ∧
      w.Proceeds B π M N w' ∧ Comes π w' (late ∧ π.spoilt) values x left ∧
      ∀ v, x = some (.ok v) → state'.Prospect π w' n late left := by
  have halong (i : Iteration) (hi : i.Prospect π w n late values)
      (hfits : values.length ≤ π.bound) :
      ∃ x state' w' left, (Producer.nextDeferred.along (.ofBehavior B depth) i).run w =
          .ok ((x, state'), w') ∧
        w.Proceeds B π M N w' ∧ Comes π w' (late ∧ π.spoilt) values x left ∧
        ∀ v, x = some (.ok v) → state'.Prospect π w' n late left := by
    obtain ⟨x, i', w', left, hrun, hproceeds, hcomes, hi'⟩ := hi.next hserved hdepth hM hN hw
    rw [Producer.nextDeferred.along, Act.run_bind_of_eq hrun]
    cases x with
    | none => exact ⟨none, .finished, w', left, rfl, hproceeds, hcomes, by simp⟩
    | some item =>
      refine ⟨some item, .opened i', w', left, rfl, hproceeds, hcomes, fun _ _ => ?_⟩
      exact .opened i' left (hi'.mono (Nat.le_refl n) (.refl _ _ _) (.refl _) And.left)
        (hcomes.length_le.trans hfits)
  cases h with
  | pending s j hj hs _ hdraws =>
    rw [Producer.nextDeferred, Act.run_bind_of_eq rfl]
    exact halong (w.iteration s)
      (hw.iteration hs hj (fun hm => Nat.not_lt.mpr (hN j hm) hj) hdraws) (hproper.face j)
  | opened i _ hi hfits => exact halong i hi hfits
  | finished => exact ⟨none, .finished, w, [], rfl, .refl hw, .ended, by simp⟩

/-! ### Sequences -/

/-- What comes of advancing: the next value that the sequence is to show. -/
inductive Sequence.Steps (π : Plan) (w : World H) (k : Nat) (s : Sequence) (w' : World H) :
    Option Value → Prop
  | ended : (w.sequence s).cache.size = (π.face k).length →
      (w'.sequence s).cache.size = (π.face k).length → Steps π w k s w' none
  | next (v a : Value) : (π.face k)[(w.sequence s).cache.size]? = some a → v.StandsFor π w' a →
      (w'.sequence s).cache.size = (w.sequence s).cache.size + 1 → Steps π w k s w' (some v)

/-- A sequence that has taken in what came follows the plan again. -/
theorem SequenceState.Follows.settled {k logged : Nat} {s : Sequence} {c : SequenceState}
    {shown : List Value} {ended : Bool} (hfailure : c.failure = none)
    (hinfinite : c.infinite = π.infinite k)
    (hcache : List.Forall₂ (Value.StandsFor π w) c.cache.toList shown)
    (hshown : π.face k = shown ++ values) (hleft : (π.whole k).drop c.cache.size = values)
    (hcomes : Comes π w (π.frail k) values x left)
    (hbehind : ∀ v, x = some (.ok v) → c.cache.size < logged) (hended : x = none → ended = true) :
    (c.waiting.settled x ended (Reader.past ⟨⟨s.id⟩, c.cache.size⟩ x)).Follows π w k s logged := by
  obtain ⟨reader, cache, infinite, busy, failure, overwritten⟩ := c
  cases hfailure
  cases hinfinite
  cases hcomes with
  | ended =>
    cases hended rfl
    rw [List.append_nil] at hshown
    rw [← hshown] at hcache
    exact .done cache overwritten hcache
  | struck _ e hf he => exact .failed cache shown values e overwritten hcache hshown hf he
  | due v a _ hv =>
    have hcells : (⟨some ⟨⟨s.id⟩, (cache.push v).size⟩, cache.push v, π.infinite k, false, none,
        overwritten⟩ : SequenceState).Follows π w k s logged := by
      refine .reading _ (shown ++ [a]) left overwritten ?_ ?_ ?_ ?_
      · rw [Array.toList_push]
        exact List.rel_append hcache (.cons hv .nil)
      · rw [hshown, List.append_assoc, List.singleton_append]
      · rw [Array.size_push, ← List.drop_drop, hleft]
        rfl
      · rw [Array.size_push]
        exact hbehind v rfl
    rw [Array.size_push] at hcells
    exact hcells

include hserved hdepth hM hN hw in
/-- Advancing gives the next value that the sequence is to show, unless its tape was
    struck. -/
theorem Sequence.brings_advance (hproper : π.Proper) {j : Nat} {s : Sequence}
    (hs : w.Places π j s) (hj : j < n) :
    w.Brings B π M N (π.frail j) False (s.advance (.ofBehavior B depth)) (s.Steps π w j) := by
  have hfree : j ∉ N := fun hm => Nat.not_lt.mpr (hN j hm) hj
  have hfollows := hw.sequences j s hs hfree
  generalize hcell : w.sequence s = c at hfollows
  cases hfollows with
  | done cache overwritten hcache =>
    have hsize : (w.sequence s).cache.size = (π.face j).length := by
      rw [hcell, ← hcache.length_eq, Array.length_toList]
    exact .comes none w (run_advance_of_still (by rw [hcell]) (.inr (by rw [hcell]))) (.refl hw)
      (.ended hsize hsize)
  | failed cache shown left e overwritten hcache hshown hf he =>
    exact .fails e w (run_advance_of_failed (by rw [hcell])) (.refl hw) hf he
  | reading cache shown left overwritten hcache hshown hleft hbehind =>
    have hsize : s.id < w.sequences.size :=
      World.lt_of_reader_eq_some ⟨⟨s.id⟩, cache.size⟩ (by rw [hcell])
    -- while it waits for its reader, the sequence itself need not follow the plan
    have hwaiting : w.Later (w.waiting s) := .of_eq rfl
    have hwait := hs.later hwaiting
    obtain ⟨x, v, rest, hrun, hproceeds, hcomes, -, hbehind', hended⟩ :=
      hserved j hj depth M (insert j N) (w.waiting s) ⟨⟨s.id⟩, cache.size⟩ hwait (by omega)
        (fun l hl => Nat.lt_of_lt_of_le hj (hM l hl)) (fun l hl => by
          rcases Set.mem_insert_iff.mp hl with rfl | hl
          · exact Nat.le_refl _
          · exact Nat.le_trans (Nat.le_of_lt hj) (hN l hl)) (hw.waiting hs) hbehind
    rw [hleft] at hcomes
    have hsize' : s.id < v.sequences.size := by
      rw [hproceeds.holds.sizes]
      exact hproceeds.holds.located j s (hproceeds.places hwait)
    have hsettled : (v.settled s x (Reader.past ⟨⟨s.id⟩, cache.size⟩ x)).sequence s =
        (w.sequence s).waiting.settled x (v.tape ⟨s.id⟩).hasEnded
          (Reader.past ⟨⟨s.id⟩, cache.size⟩ x) := by
      rw [World.sequence_settled_self _ _ hsize',
        hproceeds.sequences j s hwait (Set.mem_insert j N), World.sequence_waiting_self hsize,
        Reader.tape_past]
    rw [hcell] at hsettled
    have hstand : List.Forall₂ (Value.StandsFor π v) cache.toList shown :=
      hcache.imp fun _ _ hv => hv.later (hwaiting.trans hproceeds.toLater)
    -- once it has noted the answer it does so again
    have hnew : ((v.settled s x (Reader.past ⟨⟨s.id⟩, cache.size⟩ x)).sequence s).Follows π v j s
        (v.tape ⟨s.id⟩).values.length := by
      rw [hsettled]
      exact .settled rfl rfl hstand hshown hleft hcomes hbehind' hended
    have hsame : v.Later (v.settled s x (Reader.past ⟨⟨s.id⟩, cache.size⟩ x)) := .of_eq rfl
    have hon := World.Proceeds.settled hw hproper hs hfree hproceeds hnew
    have hadvance : (s.advance (.ofBehavior B depth)).run.run w =
        .ok (outcomeOf x, v.settled s x (Reader.past ⟨⟨s.id⟩, cache.size⟩ x)) := by
      rw [run_advance_of_reader (by rw [hcell]) (by rw [hcell]) (by rw [hcell]),
        Act.run_bind_of_eq hrun]
      rfl
    have hcount : shown.length = cache.size := by
      rw [← hcache.length_eq, Array.length_toList]
    cases hcomes with
    | struck _ e hf he => exact .fails e _ hadvance hon hf he
    | ended =>
      refine .comes none _ hadvance hon (.ended ?_ ?_)
      · rw [hcell, hshown, List.append_nil, hcount]
      · rw [hsettled, hshown, List.append_nil, hcount]
        rfl
    | due u a _ hu =>
      refine .comes (some u) _ hadvance hon (.next u a ?_ ?_ ?_)
      · rw [hcell, hshown, List.getElem?_append_right (Nat.le_of_eq hcount), hcount, Nat.sub_self]
        rfl
      · exact hu.later hsame
      · rw [hsettled, hcell]
        exact Array.size_push _

/-- What is cached is a beginning of what is shown. -/
theorem World.Holds.cached {j : Nat} {s : Sequence} (hw : w.Holds B π M N) (hs : w.Places π j s)
    (hfree : j ∉ N) : ∃ shown left, π.face j = shown ++ left ∧
      List.Forall₂ (Value.StandsFor π w) (w.sequence s).cache.toList shown := by
  have hfollows := hw.sequences j s hs hfree
  generalize w.sequence s = c at hfollows
  cases hfollows with
  | reading cache shown left _ hcache hshown => exact ⟨shown, left, hshown, hcache⟩
  | done cache _ hcache => exact ⟨π.face j, [], (List.append_nil _).symm, hcache⟩
  | failed cache shown left _ _ hcache hshown => exact ⟨shown, left, hshown, hcache⟩

theorem World.Holds.size_cache_le {j : Nat} {s : Sequence} (hw : w.Holds B π M N)
    (hs : w.Places π j s) (hfree : j ∉ N) :
    (w.sequence s).cache.size ≤ (π.face j).length := by
  obtain ⟨shown, left, hshown, hcache⟩ := hw.cached hs hfree
  rw [hshown, List.length_append, ← hcache.length_eq, Array.length_toList]
  exact Nat.le_add_right _ _

include hserved hdepth hM hN hw in
/-- Draining ends with all values, at a limit, or where the tape was struck. -/
theorem Sequence.brings_drain (hproper : π.Proper) {j : Nat} {s : Sequence} (hs : w.Places π j s)
    (hj : j < n) (limit : Option Nat) {rounds : Nat}
    (hrounds : (π.face j).length < (w.sequence s).cache.size + rounds) (hpos : 0 < rounds) :
    w.Brings B π M N (limit ≠ none ∨ π.frail j) False (s.drain (.ofBehavior B depth) limit rounds)
      fun w' _ => (w'.sequence s).cache.size = (π.face j).length := by
  induction rounds generalizing w with
  | zero => cases hpos
  | succ rounds ih =>
    rw [drain.eq_def]
    have hadvance := brings_advance hserved hdepth hM hN hw hproper hs hj
    refine (hadvance.weaken .inr).bind fun x u hproceeds hx => ?_
    cases hx with
    | ended _ hsize => exact .pure hproceeds.holds hsize
    | next v a ha _ hsize =>
      have hlt := (List.getElem?_eq_some_iff.mp ha).1
      have hon := ih hproceeds.holds (hproceeds.places hs) (by omega) (by omega)
      -- the limit is looked at after each value
      cases limit with
      | none => exact hon
      | some bound =>
        refine .get_bind ?_
        by_cases hover : bound < (u.sequence s).cache.size
        · rw [if_pos hover]
          exact .fails (.materializeLimit bound) u rfl (.refl hproceeds.holds)
            (.inl (Option.some_ne_none bound)) ⟨bound, rfl⟩
        · rw [if_neg hover]
          exact hon

/-- The fuel of an engine is enough to go along values that are not too many. -/
theorem lt_fuel {bound : Nat} (h : values.length ≤ bound) (hdepth : bound + 2 ≤ depth) :
    values.length < (Engine.ofBehavior B depth).fuel :=
  Nat.lt_of_le_of_lt h (Engine.lt_fuel hdepth)

include hserved hdepth hM hN hw in
/-- Forcing a sequence as a whole gives what it shows, unless there is a limit or its tape
    was struck. -/
theorem Sequence.brings_materialize (hproper : π.Proper) {j : Nat} {s : Sequence}
    (hs : w.Places π j s) (hj : j < n) :
    w.Brings B π M N (π.limited ∨ π.frail j) False (s.materialize (.ofBehavior B depth))
      fun w' all => all = (w'.sequence s).cache ∧
        List.Forall₂ (Value.StandsFor π w') all.toList (π.face j) := by
  have hfree : j ∉ N := fun hm => Nat.not_lt.mpr (hN j hm) hj
  have hfuel := lt_fuel (B := B) (hproper.face j) (show π.bound + 2 ≤ depth by omega)
  have hdrain := brings_drain hserved hdepth hM hN hw hproper hs hj w.limit
    (Nat.lt_add_left _ hfuel) (Nat.zero_lt_of_lt hfuel)
  have hlimit : w.limit ≠ none ∨ π.frail j → π.limited ∨ π.frail j :=
    Or.imp_left hw.limit.resolve_left
  refine .get_bind ((hdrain.weaken hlimit).bind fun _ u hproceeds hsize => .get_bind ?_)
  obtain ⟨shown, left, hshown, hcache⟩ := hproceeds.holds.cached (hproceeds.places hs) hfree
  have hleft : left = [] := by
    have hcount : (u.sequence s).cache.size = shown.length :=
      Array.length_toList.symm.trans hcache.length_eq
    have hlength := congrArg List.length hshown
    rw [List.length_append] at hlength
    exact List.eq_nil_of_length_eq_zero (by omega)
  rw [hleft, List.append_nil] at hshown
  exact .pure hproceeds.holds ⟨rfl, hshown ▸ hcache⟩

end Below

end MemoSeq
