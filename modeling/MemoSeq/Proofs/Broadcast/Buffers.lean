/-
  MemoSeq/Proofs/Broadcast/Buffers.lean
  =====================================
  **Branches with buffers, and that nothing is lost between a source and its branches.**

  On a hub a branch is a slot.  What is pending there is what was delivered and the
  branch has still to yield, no two branches have the same slot, and the slot of a
  branch is not due to be freed (`Buffered`).  All of that stands when slots are used
  again, when a buffer is copied that is half taken, and when branches come and go
  while an item is on its way.

  So a hub and a tape keep the same branches (`Mirrors`): they give the same replies to
  the same requests, and the same things happen, which are those that the timeline
  tells alone (`tee_lossless`).
-/
import MemoSeq.Hub
import MemoSeq.Proofs.Broadcast.Tape

namespace MemoSeq

/-! ### Slots -/

namespace Hub

variable {σ : Type} {hub : Hub σ} {slot i : Nat} {pending : Option (List Item)} {x : Item}

theorem slots_put : (hub.put slot pending).slots[i]? =
    if slot = i then (if i < hub.slots.size then some pending else none) else hub.slots[i]? := by
  simp only [put, Array.getElem?_setIfInBounds]
  split
  case isTrue heq => rw [heq]
  case isFalse => rfl

theorem slots_put_of_ne (hne : slot ≠ i) : (hub.put slot pending).slots[i]? = hub.slots[i]? := by
  rw [slots_put, if_neg hne]

/-- Reaping frees slots and does nothing else. -/
theorem reap_eq (hub : Hub σ) : ∃ slots, hub.reap = { hub with slots, released := [] } ∧
    ∀ i, i ∉ hub.released → slots[i]? = hub.slots[i]? := by
  suffices h : ∀ (released : List Nat) (hub : Hub σ),
      ∃ slots, released.foldl (·.put · none) hub = { hub with slots } ∧
        ∀ i, i ∉ released → slots[i]? = hub.slots[i]? from
    h hub.released { hub with released := [] }
  intro released
  induction released with
  | nil => exact fun hub => ⟨hub.slots, rfl, fun _ _ => rfl⟩
  | cons slot released ih =>
    intro hub
    obtain ⟨slots, heq, hslots⟩ := ih (hub.put slot none)
    refine ⟨slots, heq, fun i hi => ?_⟩
    simp only [List.mem_cons, not_or] at hi
    rw [hslots i hi.2, slots_put_of_ne (Ne.symm hi.1)]

/-- A split gives away a slot that nobody uses, and leaves the ones in use as they are. -/
theorem split_spec (hub : Hub σ) (slot : Nat) : ∃ slots : Array (Option (List Item)),
    (hub.split slot).2 = { hub.reap with slots, released := [] } ∧
    slots[(hub.split slot).1]? = some (some (hub.reap.pending slot)) ∧
    (∀ (i : Nat) (items : List Item),
      hub.reap.slots[i]? = some (some items) → slots[i]? = some (some items)) ∧
    ∀ items, hub.reap.slots[(hub.split slot).1]? ≠ some (some items) := by
  have hreleased : hub.reap.released = [] := by
    obtain ⟨slots, heq, -⟩ := hub.reap_eq
    rw [heq]
  unfold split
  dsimp only
  split
  case h_1 free hfound =>
    obtain ⟨hlt, hnone, -⟩ := Array.findIdx?_eq_some_iff_getElem.mp hfound
    have hfree : hub.reap.slots[free]? = some none := by
      rw [Array.getElem?_eq_getElem hlt]
      exact congrArg some (Option.isNone_iff_eq_none.mp hnone)
    refine ⟨(hub.reap.put free (some (hub.reap.pending slot))).slots, ?_, ?_, ?_, ?_⟩
    · rw [← hreleased]
      rfl
    · rw [slots_put, if_pos rfl, if_pos hlt]
    · intro i items hi
      rw [slots_put_of_ne ?_]
      · exact hi
      · rintro rfl
        cases hfree.symm.trans hi
    · intro items hi
      cases hfree.symm.trans hi
  case h_2 =>
    refine ⟨hub.reap.slots.push (some (hub.reap.pending slot)), ?_, by simp, ?_, by simp⟩
    · rw [← hreleased]
    · intro i items hi
      have hlt := (Array.getElem?_eq_some_iff.mp hi).1
      simp only [Array.getElem?_push, Nat.ne_of_lt hlt, if_false]
      exact hi

theorem slots_copy (hub : Hub σ) (slot : Nat) (x : Item) (i : Nat) :
    (hub.copy slot x).slots[i]? =
      if i = slot then hub.slots[i]? else (hub.slots[i]?).map (·.map (· ++ [x])) := by
  simp only [copy, Array.getElem?_mapIdx]
  split
  · simp
  · rfl

theorem take_of_cons {rest : List Item} (h : hub.reap.pending slot = x :: rest) :
    hub.take slot = (.answer (some x), hub.reap.put slot (some rest)) := by
  simp only [take, h]

theorem take_of_stopped (h : hub.reap.pending slot = [])
    (hstop : hub.reap.busy = true ∨ hub.reap.exhausted = true) :
    hub.take slot = (.answer none, hub.reap) := by
  simp only [take, h]
  rw [if_pos (by simpa using hstop.symm)]

theorem take_of_idle (h : hub.reap.pending slot = []) (hgoing : hub.reap.exhausted = false)
    (hidle : hub.reap.busy = false) :
    hub.take slot = (.source hub.reap.source, { hub.reap with source := none, busy := true }) := by
  simp only [take, h]
  rw [if_neg (by simp [hgoing, hidle])]

section Next

variable {β : Type} {rest rest' : β} {hub' hub'' : Hub σ} {y : Option Item} {s s' : σ}
variable {call : σ → StateT (Hub σ × β) (Except Halt) (Option Item × σ)}

theorem run_next_of_answer (h : hub.take slot = (.answer y, hub')) :
    (next call slot).run (hub, rest) = .ok (y, (hub', rest)) := by
  change ((hub.take slot).1.reply call slot).run ((hub.take slot).2, rest) = _
  rw [h]
  rfl

theorem run_next_of_source (h : hub.take slot = (.source (some s), hub'))
    (hcall : (call s).run (hub', rest) = .ok ((y, s'), (hub'', rest'))) :
    (next call slot).run (hub, rest) = .ok (y, (hub''.settle slot y (some s'), rest')) := by
  change ((hub.take slot).1.reply call slot).run ((hub.take slot).2, rest) = _
  rw [h]
  change ((call s >>= fun a => do
    modify fun st => (st.1.settle slot a.1 (some a.2), st.2)
    return a.1).run (hub', rest)) = _
  rw [StateT.run_bind, hcall]
  rfl

end Next

theorem pending_eq {items : List Item} (h : hub.slots[slot]? = some (some items)) :
    hub.pending slot = items := by
  simp [Hub.pending, Array.getD_eq_getD_getElem?, h]

end Hub

namespace Broadcast

open Timeline

variable {σ : Type}

/-- The branches of a hub; `drive` calls its source. -/
def onHub (drive : σ → StateT (Hub σ × Book Nat) (Except Halt) (Option Item × σ)) :
    Medium (Hub σ × Book Nat) Nat where
  next slot := do
    let x ← Hub.next drive slot
    return (x, slot)
  split slot := modifyGet fun (hub, book) => ((hub.split slot).1, ((hub.split slot).2, book))
  drop slot inUse := modify fun (hub, book) => (hub.drop slot inUse, book)
  book st := st.2
  write f st := (st.1, f st.2)

/-- Calls the source, which may make requests of its own. -/
def drive (ask : σ → Routine σ) :
    Nat → σ → StateT (Hub σ × Book Nat) (Except Halt) (Option Item × σ)
  | 0, _ => throw .starved
  | depth + 1, s => call (onHub (drive ask depth)) (ask s)

/-! ### What is pending -/

/-- A hub is as the book says; `s` is what there is of the source between two calls. -/
structure Buffered (s : σ) (hub : Hub σ) (book : Book Nat) : Prop where
  busy : hub.busy = isRunning book.timeline
  exhausted : hub.exhausted = hasEnded book.timeline
  source : isRunning book.timeline = false → hasEnded book.timeline = false →
    hub.source = some s
  /-- What was delivered and not yet yielded is pending. -/
  pending : ∀ b entry, book.branches b = some entry → hub.slots[entry.place]? =
    some (some ((delivered book.timeline).drop (yields b book.timeline).length))
  apart : ∀ b c entry entry', book.branches b = some entry → book.branches c = some entry' →
    entry.place = entry'.place → b = c
  unreleased : ∀ b entry, book.branches b = some entry → entry.place ∉ hub.released

namespace Buffered

variable {s : σ} {hub : Hub σ} {book : Book Nat} {b slot : Nat} {d : Bool}

/-- The slots of branches are not among those that are freed. -/
theorem reap (h : Buffered s hub book) : Buffered s hub.reap book := by
  obtain ⟨slots, heq, hslots⟩ := hub.reap_eq
  rw [heq]
  refine ⟨h.busy, h.exhausted, h.source, ?_, h.apart, by simp⟩
  intro b entry hb
  rw [← h.pending b entry hb]
  exact hslots _ (h.unreleased b entry hb)

/-- An event by which nothing is delivered, yielded or opened. -/
theorem note (h : Buffered s hub book) {e : Event}
    (hrunning : isRunning (e :: book.timeline) = isRunning book.timeline)
    (hended : hasEnded (e :: book.timeline) = hasEnded book.timeline)
    (hdelivered : delivered (e :: book.timeline) = delivered book.timeline)
    (hyields : ∀ b, yields b (e :: book.timeline) = yields b book.timeline) :
    Buffered s hub (book.note e) where
  busy := h.busy.trans hrunning.symm
  exhausted := h.exhausted.trans hended.symm
  source hidle hgoing := h.source (hrunning.symm.trans hidle) (hended.symm.trans hgoing)
  pending b entry hb := by
    rw [Book.timeline_note, hdelivered, hyields]
    exact h.pending b entry hb
  apart := h.apart
  unreleased := h.unreleased

/-- Whether a branch is being driven does not matter to its slot. -/
theorem place (h : Buffered s hub book) (hb : book.branches b = some ⟨slot, d⟩) (d' : Bool) :
    Buffered s hub (book.place b (some ⟨slot, d'⟩)) := by
  have hplace : ∀ c entry, (book.place b (some ⟨slot, d'⟩)).branches c = some entry →
      ∃ entry', book.branches c = some entry' ∧ entry.place = entry'.place := by
    intro c entry hc
    rw [Book.branches_place] at hc
    split at hc
    case isTrue heq =>
      cases hc
      rw [heq]
      exact ⟨_, hb, rfl⟩
    case isFalse => exact ⟨entry, hc, rfl⟩
  refine ⟨h.busy, h.exhausted, h.source, ?_, ?_, ?_⟩
  · intro c entry hc
    obtain ⟨entry', hc', heq⟩ := hplace c entry hc
    rw [heq]
    exact h.pending c entry' hc'
  · intro c c' entry entry' hc hc' heq
    obtain ⟨old, hold, hsame⟩ := hplace c entry hc
    obtain ⟨old', hold', hsame'⟩ := hplace c' entry' hc'
    exact h.apart c c' old old' hold hold' (by rw [← hsame, ← hsame', heq])
  · intro c entry hc
    obtain ⟨entry', hc', heq⟩ := hplace c entry hc
    rw [heq]
    exact h.unreleased c entry' hc'

theorem pulled (h : Buffered s hub book) (hb : book.branches b = some ⟨slot, d⟩) :
    Buffered s hub (book.pulled b slot) :=
  (h.place hb true).note rfl rfl rfl fun _ => rfl

/-- A branch is given what is first in its buffer. -/
theorem yielded (h : Buffered s hub book) (hb : book.branches b = some ⟨slot, d⟩) (x : Item) :
    Buffered s (hub.put slot (some ((delivered book.timeline).drop
      ((yields b book.timeline).length + 1)))) (book.yielded b (some x) slot) where
  busy := h.busy
  exhausted := h.exhausted
  source := h.source
  pending c entry hc := by
    rw [Book.yielded, Book.branches_note, Book.branches_place] at hc
    rw [Book.yielded, Book.timeline_note, Book.timeline_place, yields]
    change _ = some (some ((delivered book.timeline).drop _))
    split at hc
    case isTrue heq =>
      cases hc
      have hlt : slot < hub.slots.size := (Array.getElem?_eq_some_iff.mp (h.pending b _ hb)).1
      rw [Hub.slots_put, if_pos rfl, if_pos hlt, if_pos heq.symm, heq]
      simp
    case isFalse hne =>
      rw [if_neg (Ne.symm hne), Hub.slots_put_of_ne ?_]
      · exact h.pending c entry hc
      · exact fun heq => hne (h.apart c b _ _ hc hb heq.symm)
  apart := (h.place hb false).apart
  unreleased := (h.place hb false).unreleased

theorem yieldedNone (h : Buffered s hub book) (hb : book.branches b = some ⟨slot, d⟩) :
    Buffered s hub (book.yielded b none slot) :=
  (h.place hb false).note rfl rfl rfl fun c => by simp [yields]

/-- A slot for a new branch: none of the branches has it, and it holds a copy of what is
    pending for the branch that was split. -/
theorem splitOff (h : Buffered s hub book) (hb : book.branches b = some ⟨slot, d⟩) :
    Buffered s (hub.split slot).2 (book.splitOff b (hub.split slot).1) := by
  have hreap := h.reap
  obtain ⟨slots, hrest, hnew, hsame, hfree⟩ := hub.split_spec slot
  have hold : ∀ c entry, book.branches c = some entry → entry.place ≠ (hub.split slot).1 := by
    intro c entry hc heq
    have hslot := hreap.pending c entry hc
    rw [heq] at hslot
    exact hfree _ hslot
  rw [hrest]
  refine ⟨hreap.busy, hreap.exhausted, hreap.source, ?_, ?_, by simp⟩
  · intro c entry hc
    rw [Book.splitOff, Book.branches_note, Book.branches_place] at hc
    rw [Book.splitOff, Book.timeline_note, Book.timeline_place, yields]
    split at hc
    case isTrue heq =>
      cases hc
      rw [if_pos heq.symm]
      change slots[(hub.split slot).1]? = some (some ((delivered book.timeline).drop _))
      rw [← Hub.pending_eq (hreap.pending b _ hb)]
      exact hnew
    case isFalse hne =>
      rw [if_neg (Ne.symm hne)]
      exact hsame _ _ (hreap.pending c entry hc)
  · intro c c' entry entry' hc hc' heq
    rw [Book.splitOff, Book.branches_note, Book.branches_place] at hc hc'
    split at hc <;> split at hc'
    case isTrue.isTrue h₁ h₂ => rw [h₁, h₂]
    case isTrue.isFalse =>
      cases hc
      exact (hold c' entry' hc' heq.symm).elim
    case isFalse.isTrue =>
      cases hc'
      exact (hold c entry hc heq).elim
    case isFalse.isFalse => exact h.apart c c' entry entry' hc hc' heq

/-- The slot of a branch that is dropped is nobody's, whether it is freed at once or
    later. -/
theorem dropped (h : Buffered s hub book) (hb : book.branches b = some ⟨slot, d⟩) (inUse : Bool) :
    Buffered s (hub.drop slot inUse) (book.dropped b) := by
  have hother : ∀ c entry, (book.dropped b).branches c = some entry →
      book.branches c = some entry ∧ slot ≠ entry.place := by
    intro c entry hc
    rw [Book.dropped, Book.branches_note, Book.branches_place] at hc
    split at hc
    case isTrue => cases hc
    case isFalse hne => exact ⟨hc, fun heq => hne (h.apart c b _ _ hc hb heq.symm)⟩
  have hapart : ∀ c c' entry entry', (book.dropped b).branches c = some entry →
      (book.dropped b).branches c' = some entry' → entry.place = entry'.place → c = c' :=
    fun c c' entry entry' hc hc' => h.apart c c' entry entry' (hother c entry hc).1
      (hother c' entry' hc').1
  cases inUse with
  | true =>
    refine ⟨h.busy, h.exhausted, h.source, ?_, hapart, ?_⟩
    · exact fun c entry hc => h.pending c entry (hother c entry hc).1
    · intro c entry hc
      obtain ⟨hc, hne⟩ := hother c entry hc
      exact List.not_mem_cons_of_ne_of_not_mem (Ne.symm hne) (h.unreleased c entry hc)
  | false =>
    refine ⟨h.busy, h.exhausted, h.source, ?_, hapart, ?_⟩
    · intro c entry hc
      obtain ⟨hc, hne⟩ := hother c entry hc
      exact (Hub.slots_put_of_ne hne).trans (h.pending c entry hc)
    · exact fun c entry hc => h.unreleased c entry (hother c entry hc).1

/-- The source is taken out of the hub while it is at work. -/
theorem asked (h : Buffered s hub book) :
    Buffered s { hub with source := none, busy := true } (book.note .asked) where
  busy := rfl
  exhausted := h.exhausted
  source := nofun
  pending := h.pending
  apart := h.apart
  unreleased := h.unreleased

/-- What the source answers goes into the buffers of all branches but the one that has had
    it called, which had nothing pending. -/
theorem answered (h : Buffered s hub book) (hsound : book.Sound)
    (hb : book.branches b = some ⟨slot, d⟩) (hrunning : isRunning book.timeline = true)
    (hall : yields b book.timeline = delivered book.timeline) (x : Option Item) (s' : σ) :
    Buffered s' (hub.settle slot x (some s')) ((book.note (.answered x)).yielded b x slot) := by
  have hgoing : hub.exhausted = false :=
    h.exhausted.trans (hsound.lawful.not_ended_of_running hrunning)
  -- an item is put behind what is pending for the others
  have hitem : ∀ (hub' : Hub σ) (y : Item), hub'.slots = hub.slots → ∀ c entry,
      (book.place b (some ⟨slot, false⟩)).branches c = some entry →
      (hub'.copy slot y).slots[entry.place]? = some (some
        ((delivered book.timeline ++ [y]).drop
          (if b = c then yields c book.timeline ++ [y] else yields c book.timeline).length)) := by
    intro hub' y hslots c entry hc
    have hplace := (h.place hb false).pending c entry hc
    rw [Book.timeline_place] at hplace
    rw [Hub.slots_copy, hslots, hplace]
    rw [Book.branches_place] at hc
    split at hc
    case isTrue heq =>
      cases hc
      simp [heq, hall]
    case isFalse hne =>
      have hle := (hsound.lawful.yields_isPrefix c).length_le
      rw [if_neg (fun heq => hne (h.apart c b _ _ hc hb heq)), if_neg (Ne.symm hne),
        List.drop_append_of_le_length hle]
      rfl
  rcases x with _ | e | v
  · refine ⟨rfl, rfl, fun _ hended => ?_, ?_, (h.place hb false).apart,
      (h.place hb false).unreleased⟩
    · cases hended
    intro c entry hc
    have hplace := (h.place hb false).pending c entry hc
    simpa [Hub.settle, Book.yielded, Book.note, yields, delivered] using hplace
  · refine ⟨rfl, rfl, fun _ hended => ?_,
      hitem { hub with busy := false, exhausted := true } (.error e) rfl,
      (h.place hb false).apart, (h.place hb false).unreleased⟩
    cases hended
  · refine ⟨rfl, hgoing.trans ?_, fun _ _ => rfl,
      hitem { hub with busy := false, source := some s' } (.ok v) rfl,
      (h.place hb false).apart, (h.place hb false).unreleased⟩
    exact (hsound.lawful.not_ended_of_running hrunning).symm

end Buffered

/-! ### The hub keeps its branches -/

theorem onHub_keeps (drive : σ → StateT (Hub σ × Book Nat) (Except Halt) (Option Item × σ)) :
    (onHub drive).Keeps fun s st => Buffered s st.1 st.2 where
  book_write _ _ := rfl
  next {s st b slot} hfits hsound hb hcalls := by
    obtain ⟨hub, book⟩ := st
    change Buffered s hub book at hfits
    change book.Sound at hsound
    change book.branches b = _ at hb
    change calls book.timeline (.next b) = false at hcalls
    have hpulled := hfits.reap.pulled hb
    have hself := Book.branches_place_self book b (some ⟨slot, true⟩)
    have hpending := Hub.pending_eq (hfits.reap.pending b _ hb)
    obtain ⟨hub', htake, hfits'⟩ : ∃ hub', hub.take slot = (.answer (due b book.timeline), hub') ∧
        Buffered s hub' ((book.pulled b slot).yielded b (due b book.timeline) slot) := by
      cases hdue : due b book.timeline with
      | some x =>
        rw [List.drop_eq_getElem?_toList_append, ← due, hdue] at hpending
        exact ⟨_, Hub.take_of_cons hpending, hpulled.yielded hself x⟩
      | none =>
        have hfree := (hsound.isFree_iff b).mpr ⟨slot, hb⟩
        have hstop := stopped_of_calls hcalls hfree hdue
        rw [← hfits.reap.busy, ← hfits.reap.exhausted] at hstop
        rw [List.drop_eq_nil_of_le (List.getElem?_eq_none_iff.mp hdue)] at hpending
        exact ⟨_, Hub.take_of_stopped hpending hstop, hpulled.yieldedNone hself⟩
    refine ⟨slot, (hub', book.pulled b slot), ?_, rfl, hfits'⟩
    change ((Hub.next drive slot >>= fun x => pure (x, slot)).run (hub, book.pulled b slot)) = _
    rw [run_bind_of_ok (Hub.run_next_of_answer htake)]
    rfl
  split {s st b slot} hfits hsound hb :=
    ⟨_, ((st.1.split slot).2, st.2), rfl, rfl, hfits.splitOff hb⟩
  drop {s st b slot} inUse hfits hsound hb :=
    ⟨(st.1.drop slot inUse, st.2), rfl, rfl, hfits.dropped hb inUse⟩

/-- A branch that has had all calls the source. -/
theorem onHub_drives {ask : σ → Routine σ} {depth : Nat} {s : σ} {past : Timeline}
    {st : Hub σ × Book Nat} {b slot : Nat}
    (h : (onHub (drive ask (depth + 1))).Stands (fun s st => Buffered s st.1 st.2) s past st)
    (hcalm : Calm past) (hb : st.2.branches b = some ⟨slot, false⟩)
    (hcalls : calls past (.next b) = true) :
    ∃ st', (respond (onHub (drive ask (depth + 1))) (.next b)).run st =
        .ok ((replyOfSource ask s past b).1, st') ∧
      (onHub (drive ask (depth + 1))).Stands (fun s st => Buffered s st.1 st.2)
        (replyOfSource ask s past b).2.1 (replyOfSource ask s past b).2.2 st' := by
  obtain ⟨hub, book⟩ := st
  obtain ⟨hpast, hsound, hfits⟩ := h
  change book.timeline = past at hpast
  change book.Sound at hsound
  change Buffered s hub book at hfits
  change book.branches b = _ at hb
  subst hpast
  obtain ⟨-, hnone, hquiet, hgoing⟩ := calls_next_eq_true.mp hcalls
  -- nothing is pending, so the source is taken out of the hub and called
  let M := onHub (drive ask depth)
  let taken : Hub σ := { hub.reap with source := none, busy := true }
  have htake : hub.take slot = (.source (some s), taken) := by
    have hpending := Hub.pending_eq (hfits.reap.pending b _ hb)
    rw [List.drop_eq_nil_of_le (List.getElem?_eq_none_iff.mp hnone)] at hpending
    have hsource := hfits.reap.source hquiet hgoing
    rw [← hsource]
    exact Hub.take_of_idle hpending (hfits.reap.exhausted.trans hgoing)
      (hfits.reap.busy.trans hquiet)
  have hasked : M.Stands (fun s st => Buffered s st.1 st.2) s
      (.asked :: .pulled b :: book.timeline)
      (M.write (·.note .asked) (taken, book.pulled b slot)) :=
    ⟨rfl, (hsound.pulled hb).note (hcalm.asked hcalls) (fun _ => rfl) fun _ => rfl,
      (hfits.reap.pulled hb).asked⟩
  obtain ⟨⟨hub', book'⟩, hrun, ⟨hnow, hsound', hfits'⟩, hdriven⟩ :=
    (onHub_keeps _).call (ask s) hasked
  have hmid := Midst.follow (ask s) (hcalm.asked hcalls) rfl
  have hbranch : book'.branches b = some ⟨slot, true⟩ :=
    hdriven b slot (Book.branches_place_self _ _ _)
  unfold replyOfSource
  generalize follow (.asked :: .pulled b :: book.timeline) (ask s) = called at *
  obtain ⟨⟨x, s'⟩, now⟩ := called
  dsimp only at hrun hnow hmid ⊢
  change book'.timeline = now at hnow
  subst hnow
  -- the answer is left in the buffers of the others
  have hnext : (Hub.next (drive ask (depth + 1)) slot).run (hub, book.pulled b slot) =
      .ok (x, (hub'.settle slot x (some s'), book'.note (.answered x))) :=
    Hub.run_next_of_source htake hrun
  have hall : yields b book'.timeline = delivered book'.timeline := by
    rw [hmid.yields b (by simp [isDriven]), hmid.delivered]
    exact hsound.lawful.yields_eq_delivered hnone
  have hcalm' := hcalm.answered hcalls hmid x
  let v : Hub σ × Book Nat := (hub'.settle slot x (some s'), book'.note (.answered x))
  refine ⟨(onHub (drive ask (depth + 1))).write (·.yielded b x slot) v, ?_, rfl, ?_,
    hfits'.answered hsound' hbranch hmid.running hall x s'⟩
  · have hfound : ((onHub (drive ask (depth + 1))).book (hub, book)).branches
        (Request.next b).branch = some ⟨slot, false⟩ := hb
    rw [run_respond_of_branch hfound]
    refine run_attend_next ?_
    change ((Hub.next _ slot >>= fun x => pure (x, slot)).run (hub, book.pulled b slot)) = _
    rw [run_bind_of_ok hnext]
    rfl
  · exact (hsound'.note hcalm'.lawful.1 (fun _ => rfl) fun _ => rfl).yielded hcalm'.lawful.2 _

theorem Buffered.start (s : σ) : Buffered s (Hub.start s) (.start 0 1) := by
  have hbranches : ∀ b entry, (Book.start 0 1).branches b = some entry →
      entry.place = b ∧ b < 2 := by
    intro b entry hb
    rw [Book.start, Book.branches_place, Book.branches_place] at hb
    split at hb
    case isTrue heq =>
      cases hb
      exact ⟨heq.symm, by omega⟩
    case isFalse =>
      split at hb
      case isTrue heq =>
        cases hb
        exact ⟨heq.symm, by omega⟩
      case isFalse => cases hb
  refine ⟨rfl, rfl, fun _ _ => rfl, ?_, ?_, by simp [Hub.start]⟩
  · intro b entry hb
    obtain ⟨heq, hlt⟩ := hbranches b entry hb
    rw [heq]
    have hb : b = 0 ∨ b = 1 := by omega
    rcases hb with rfl | rfl <;> rfl
  · intro b c entry entry' hb hc heq
    rw [← (hbranches b entry hb).1, ← (hbranches c entry' hc).1, heq]

/-! ### Lossless -/

/-- A hub and a tape hold the same branches: what is pending for one is what is on the
    log from where its reader stands. -/
structure Mirrors (hub : Hub σ) (slots : Book Nat) (cell : TapeState (bench σ))
    (readers : Book Reader) : Prop where
  timeline : slots.timeline = readers.timeline
  branches : ∀ b, (slots.branches b).map (·.driven) = (readers.branches b).map (·.driven)
  pending : ∀ b slot r, slots.branches b = some slot → readers.branches b = some r →
    hub.slots[slot.place]? = some (some (cell.log.toList.drop r.place.position))
  busy : hub.busy = true ↔ cell.phase = .running
  exhausted : hub.exhausted = cell.hasEnded

theorem Mirrors.of_timeline {s : σ} {hub : Hub σ} {slots : Book Nat}
    {cell : TapeState (bench σ)} {readers : Book Reader} (hslots : slots.Sound)
    (hbuffered : Buffered s hub slots) (hreaders : readers.Sound)
    (hlogged : Logged s cell readers) (heq : slots.timeline = readers.timeline) :
    Mirrors hub slots cell readers where
  timeline := heq
  branches b := by
    have hlive := (hslots.live b).symm.trans ((congrArg (isLive b) heq).trans (hreaders.live b))
    cases hb : slots.branches b with
    | none =>
      rw [hb] at hlive
      rw [Option.not_isSome_iff_eq_none.mp (Bool.eq_false_iff.mp hlive.symm)]
      rfl
    | some slot =>
      rw [hb] at hlive
      obtain ⟨r, hr⟩ := Option.isSome_iff_exists.mp hlive.symm
      rw [hr, Option.map_some, Option.map_some, hslots.driven b slot hb, hreaders.driven b r hr,
        heq]
  pending b slot r hb hr := by
    rw [hbuffered.pending b slot hb, hlogged.log, hlogged.stands b r hr, heq]
  busy := by
    rw [hbuffered.busy, heq]
    refine ⟨hlogged.phase_of_running hreaders, fun hphase => ?_⟩
    have hrunning := hlogged.phase
    rw [hphase] at hrunning
    exact hrunning
  exhausted := by
    rw [hbuffered.exhausted, heq]
    have hphase := hlogged.phase
    cases hcell : cell.phase with
    | idle p =>
      rw [hcell] at hphase
      simp [TapeState.hasEnded, hcell, hphase.2.1]
    | running =>
      rw [hcell] at hphase
      simp [TapeState.hasEnded, hcell, hreaders.lawful.not_ended_of_running hphase]
    | ended =>
      rw [hcell] at hphase
      have hended : hasEnded readers.timeline = true := hphase
      simp [TapeState.hasEnded, hcell, hended]

/-- Whatever the source does when it is called and whatever is requested from outside, a
    hub and a tape reply to each request as the timeline tells, the same things happen on
    both, and nothing is lost.  After that each branch that is there may be pulled, split
    and dropped, and one that is split or dropped leaves to the others what is pending for
    them. -/
theorem tee_lossless (ask : σ → Routine σ) (s : σ) (requests : List Request) (depth : Nat) :
    let slots := onHub (drive ask (depth + 1))
    let readers := onTape (.ofBehavior (behavior ask) (depth + 2))
    let told := recount ask s [] requests
    ∃ hub book w,
      (serve slots requests).run (Hub.start s, .start 0 1) = .ok (told.1, (hub, book)) ∧
      (do tee s; serve readers requests : Act (bench σ) (List Reply)).run (bare σ) =
        .ok (told.1, w) ∧
      book.timeline = told.2.2 ∧ Mirrors hub book (w.tape shared) w.host ∧
      Lossless told.2.2 ∧ (∀ b, isLive b told.2.2 = true → isFree b told.2.2 = true) ∧
      ∀ q, (∀ b, q ≠ .next b) → ∃ hub' book',
        (respond slots q).run (hub, book) = .ok ((replyAtOnce told.2.2 q).1, (hub', book')) ∧
        ∀ b entry, b ≠ q.branch → book.branches b = some entry →
          book'.branches b = some entry ∧
          hub'.slots[entry.place]? = hub.slots[entry.place]? := by
  intro slots readers told
  have hkeeps : slots.Keeps fun s st => Buffered s st.1 st.2 := onHub_keeps _
  have hstart : slots.Stands (fun s st => Buffered s st.1 st.2) s [] (Hub.start s, .start 0 1) :=
    ⟨rfl, .start 0 1, .start s⟩
  obtain ⟨⟨hub, book⟩, hserve, hstands⟩ := hkeeps.serve onHub_drives requests hstart .nil
  obtain ⟨v, htee, hv⟩ := run_tee s (.ofBehavior (behavior ask) (depth + 2))
  obtain ⟨w, hserve', hstands'⟩ :=
    (onTape_keeps (.ofBehavior (behavior ask) (depth + 2))).serve onTape_drives requests hv .nil
  have hcalm : Calm told.2.2 := Calm.nil.recount ask s requests
  have heq : book.timeline = w.host.timeline := hstands.timeline.trans hstands'.timeline.symm
  refine ⟨hub, book, w, hserve, ?_, hstands.timeline, .of_timeline hstands.sound hstands.fits
    hstands'.sound hstands'.fits.logged heq, hcalm.lawful.lossless, ?_, ?_⟩
  · rw [Act.run_bind_of_eq htee]
    exact hserve'
  · intro b hlive
    rw [hcalm.isFree_eq]
    exact hlive
  · intro q hq
    -- splitting and dropping do not call the source
    have hcalls : calls told.2.2 q = false := by
      cases q with
      | next b => exact (hq b rfl).elim
      | split | drop => rfl
    obtain ⟨⟨hub', book'⟩, hrun, hafter, hothers⟩ := hkeeps.respond hstands hcalls
    refine ⟨hub', book', hrun, fun b entry hne hb => ?_⟩
    have hb' : book'.branches b = some entry := hothers b entry (.inl hne) hb
    have hlive : isLive b told.2.2 = true := hstands.timeline ▸ hstands.sound.live_of_branch hb
    obtain ⟨hdelivered, hyields⟩ := yields_replyAtOnce hcalm.lawful hq hlive
    refine ⟨hb', (hafter.fits.pending b entry hb').trans ?_⟩
    have htimeline : book'.timeline = _ := hafter.timeline
    rw [hstands.fits.pending b entry hb, htimeline, hdelivered, hyields]
    rw [show book.timeline = told.2.2 from hstands.timeline]

/-- A source of two integers that works on its own branches: first it pulls one of them,
    then it splits that one and drops it while the hub is in use. -/
def meddler : Nat → Routine Nat
  | 0 => .request (.next 1) fun _ => .answer (some (.ok (.int 0))) 1
  | 1 => .request (.split 1) fun _ => .request (.drop 1 true) fun _ =>
      .answer (some (.ok (.int 1))) 2
  | n + 2 => .answer none (n + 2)

/-- The branch that the source has split off has still to yield both items, the one that
    the source has dropped is refused, and the one that is split off last goes on. -/
theorem tee_lossless_meddler :
    ∃ hub book w,
      (serve (onHub (drive meddler 1)) [.next 0, .next 0, .next 2, .split 2, .drop 2 false,
          .next 3, .next 3, .next 1]).run (Hub.start 0, .start 0 1) =
        .ok ([.yielded (some (.ok (.int 0))), .yielded (some (.ok (.int 1))),
          .yielded (some (.ok (.int 0))), .opened 3, .dropped, .yielded (some (.ok (.int 1))),
          .yielded none, .refused], (hub, book)) ∧
      Mirrors hub book (World.tape w shared) w.host ∧ Lossless book.timeline := by
  obtain ⟨hub, book, w, hserve, -, htimeline, hmirrors, hlossless, -⟩ :=
    tee_lossless meddler 0 [.next 0, .next 0, .next 2, .split 2, .drop 2 false, .next 3, .next 3,
      .next 1] 0
  exact ⟨hub, book, w, hserve, hmirrors, htimeline ▸ hlossless⟩

end Broadcast

end MemoSeq
