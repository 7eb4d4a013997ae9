/-
  MemoSeq/Proofs/Broadcast/Tape.lean
  ==================================
  **Branches on a tape.**

  Here a branch is a reader, and what the branches share is the tape: its log is what
  was delivered, and a branch stands behind what it has yielded (`Logged`).  So a
  reader finds on the log what is due to its branch, and comes to the end of the log
  when nothing is.
-/
import MemoSeq.Production
import MemoSeq.Proofs.Broadcast.Bench
import MemoSeq.Proofs.Reading

namespace MemoSeq.Broadcast

open Timeline

variable {σ : Type}

/-- Embeds one source and keeps the book. -/
abbrev bench (σ : Type) : Host := ⟨σ, Empty, Book Reader⟩

def onTape (E : Engine (bench σ)) : Medium (World (bench σ)) Reader where
  next r := r.next E
  split r := pure r
  drop _ _ := pure ()
  book w := w.host
  write f w := { w with host := f w.host }

def behavior (ask : σ → Routine σ) : Behavior (bench σ) where
  pull E s := do
    let (x, s) ← call (onTape E) (ask s)
    return (x.map (·.map External.value), s)
  test _ p := nomatch p

/-- Puts the source on a tape with two readers. -/
def tee (s : σ) : Act (bench σ) Unit := do
  let r ← Reader.onto (.source s)
  modify fun w => { w with host := .start r r }

def bare (σ : Type) : World (bench σ) := .initial ⟨fun _ => none, []⟩

def shared : Tape := ⟨0⟩

def PhaseOf (s : σ) (timeline : Timeline) : Phase (bench σ) → Prop
  | .idle p => isRunning timeline = false ∧ hasEnded timeline = false ∧ p = .source s
  | .running => isRunning timeline = true
  | .ended => hasEnded timeline = true

/-- A tape is as the book says; `s` is what there is of the source between two calls. -/
structure Logged (s : σ) (cell : TapeState (bench σ)) (book : Book Reader) : Prop where
  log : cell.log.toList = delivered book.timeline
  phase : PhaseOf s book.timeline cell.phase
  stands : ∀ b entry, book.branches b = some entry →
    entry.place = ⟨shared, (yields b book.timeline).length⟩

namespace Logged

variable {s : σ} {cell : TapeState (bench σ)} {book : Book Reader} {b : Nat} {r : Reader} {d : Bool}

theorem reader_of_branch (h : Logged s cell book) (hb : book.branches b = some ⟨r, d⟩) :
    r = ⟨shared, (yields b book.timeline).length⟩ := h.stands b ⟨r, d⟩ hb

theorem tape_of_branch (h : Logged s cell book) (hb : book.branches b = some ⟨r, d⟩) :
    r.tape = shared := by
  rw [h.reader_of_branch hb]

/-- The log has as many items as the source has delivered, so a branch finds there the
    item that is due to it. -/
theorem log_eq_due (h : Logged s cell book) (hb : book.branches b = some ⟨r, d⟩) :
    cell.log[r.position]? = due b book.timeline := by
  rw [h.reader_of_branch hb, due, ← h.log]
  simp

theorem phase_of_running (h : Logged s cell book) (hsound : book.Sound)
    (hrunning : isRunning book.timeline = true) : cell.phase = .running := by
  have hphase := h.phase
  cases hcell : cell.phase with
  | running => rfl
  | idle p =>
    rw [hcell] at hphase
    rw [hphase.1] at hrunning
    cases hrunning
  | ended =>
    rw [hcell] at hphase
    have hended : hasEnded book.timeline = true := hphase
    rw [hsound.lawful.not_ended_of_running hrunning] at hended
    cases hended

theorem phase_ne_idle (h : Logged s cell book)
    (hstop : isRunning book.timeline = true ∨ hasEnded book.timeline = true)
    (p : Producer (bench σ)) : cell.phase ≠ .idle p := by
  intro hidle
  have hphase := h.phase
  rw [hidle] at hphase
  obtain ⟨hrunning, hended, -⟩ := hphase
  simp [hrunning, hended] at hstop

theorem phase_idle (h : Logged s cell book) (hrunning : isRunning book.timeline = false)
    (hended : hasEnded book.timeline = false) : cell.phase = .idle (.source s) := by
  have hphase := h.phase
  cases hcell : cell.phase with
  | idle p =>
    rw [hcell] at hphase
    rw [hphase.2.2]
  | running =>
    rw [hcell] at hphase
    cases hrunning.symm.trans hphase
  | ended =>
    rw [hcell] at hphase
    cases hended.symm.trans hphase

theorem pulled (h : Logged s cell book) (hb : book.branches b = some ⟨r, d⟩) :
    Logged s cell (book.pulled b r) where
  log := h.log
  phase := h.phase
  stands c entry hc := by
    rw [Book.pulled, Book.branches_note, Book.branches_place] at hc
    split at hc
    case isTrue heq =>
      cases hc
      rw [heq]
      exact h.reader_of_branch hb
    case isFalse => exact h.stands c entry hc

theorem yielded (h : Logged s cell book) (hr : r = ⟨shared, (yields b book.timeline).length⟩)
    (x : Option Item) : Logged s cell (book.yielded b x (r.past x)) where
  log := h.log
  phase := h.phase
  stands c entry hc := by
    rw [Book.yielded, Book.branches_note, Book.branches_place] at hc
    rw [Book.yielded, Book.timeline_note, Book.timeline_place, yields]
    split at hc
    case isTrue heq =>
      cases hc
      subst heq
      rw [if_pos rfl, hr]
      cases x <;> simp [Reader.past, Reader.advance]
    case isFalse hne =>
      rw [if_neg (Ne.symm hne)]
      exact h.stands c entry hc

theorem splitOff (h : Logged s cell book) (hb : book.branches b = some ⟨r, d⟩) :
    Logged s cell (book.splitOff b r) where
  log := h.log
  phase := h.phase
  stands c entry hc := by
    rw [Book.splitOff, Book.branches_note, Book.branches_place] at hc
    rw [Book.splitOff, Book.timeline_note, Book.timeline_place, yields]
    split at hc
    case isTrue heq =>
      cases hc
      rw [if_pos heq.symm]
      exact h.reader_of_branch hb
    case isFalse hne =>
      rw [if_neg (Ne.symm hne)]
      exact h.stands c entry hc

theorem dropped (h : Logged s cell book) (b : Nat) : Logged s cell (book.dropped b) where
  log := h.log
  phase := h.phase
  stands c entry hc := by
    rw [Book.dropped, Book.branches_note, Book.branches_place] at hc
    split at hc
    case isTrue => cases hc
    case isFalse => exact h.stands c entry hc

theorem asked (h : Logged s cell book) : Logged s cell.started (book.note .asked) where
  log := h.log
  phase := rfl
  stands := h.stands

theorem answered (h : Logged s cell book) (hsound : book.Sound)
    (hrunning : isRunning book.timeline = true) (x : Option Item) (s' : σ) :
    Logged s' (cell.recorded x (.source s')) (book.note (.answered x)) where
  log := by
    match x with
    | none => simpa [TapeState.recorded, delivered] using h.log
    | some (.error _) | some (.ok _) => simp [TapeState.recorded, delivered, h.log]
  phase := by
    match x with
    | none | some (.error _) => rfl
    | some (.ok _) => exact ⟨rfl, hsound.lawful.not_ended_of_running hrunning, rfl⟩
  stands := h.stands

end Logged

/-- The shared tape is there and is as the book says. -/
structure Taped (s : σ) (w : World (bench σ)) : Prop where
  tape_lt : shared.id < w.tapes.size
  logged : Logged s (w.tape shared) w.host

theorem onTape_keeps (E : Engine (bench σ)) : (onTape E).Keeps (Taped (σ := σ)) where
  book_write _ _ := rfl
  next {s w b r} hfits hsound hb hcalls := by
    have hlog := hfits.logged.log_eq_due hb
    have htape := hfits.logged.tape_of_branch hb
    have hreads : r.Reads E ((onTape E).write (·.pulled b r) w) (due b w.host.timeline)
        (r.past (due b w.host.timeline)) ((onTape E).write (·.pulled b r) w) := by
      cases hdue : due b w.host.timeline with
      | some x =>
        refine .logged x ?_
        rw [htape, ← hdue]
        exact hlog
      | none =>
        refine .paused ?_ ?_
        · rw [htape, ← hdue]
          exact hlog
        · rw [htape]
          have hfree := (hsound.isFree_iff b).mpr ⟨r, hb⟩
          exact hfits.logged.phase_ne_idle (stopped_of_calls hcalls hfree hdue)
    exact ⟨_, _, Reader.run_next_iff.mpr hreads, rfl, hfits.tape_lt,
      (hfits.logged.pulled hb).yielded (hfits.logged.reader_of_branch hb) _⟩
  split {s w b r} hfits hsound hb :=
    ⟨r, w, rfl, rfl, hfits.tape_lt, hfits.logged.splitOff hb⟩
  drop {s w b r} inUse hfits hsound hb :=
    ⟨w, rfl, rfl, hfits.tape_lt, hfits.logged.dropped b⟩

variable {ask : σ → Routine σ} {s : σ} {w : World (bench σ)} {past : Timeline} {b : Nat}
variable {r : Reader}

/-- A branch that has had all drives the tape's producer, which calls the source. -/
theorem onTape_drives {depth : Nat}
    (h : (onTape (.ofBehavior (behavior ask) (depth + 2))).Stands Taped s past w)
    (hcalm : Calm past) (hb : w.host.branches b = some ⟨r, false⟩)
    (hcalls : calls past (.next b) = true) :
    ∃ w', (respond (onTape (.ofBehavior (behavior ask) (depth + 2))) (.next b)).run w =
        .ok ((replyOfSource ask s past b).1, w') ∧
      (onTape (.ofBehavior (behavior ask) (depth + 2))).Stands Taped
        (replyOfSource ask s past b).2.1 (replyOfSource ask s past b).2.2 w' := by
  obtain ⟨hpast, hsound, hfits⟩ := h
  change w.host.timeline = past at hpast
  subst hpast
  obtain ⟨-, hnone, hquiet, hgoing⟩ := calls_next_eq_true.mp hcalls
  have htape := hfits.logged.tape_of_branch hb
  -- the branch is pulled, the tape is at work, and the source is called
  let M := onTape (.ofBehavior (behavior ask) depth)
  let v : World (bench σ) := M.write (·.pulled b r) w
  have hasked : M.Stands Taped s (.asked :: .pulled b :: w.host.timeline)
      (M.write (·.note .asked) (v.running shared)) := by
    refine ⟨rfl, (hsound.pulled hb).note (hcalm.asked hcalls) (fun _ => rfl) fun _ => rfl, ?_, ?_⟩
    · change shared.id < (v.running shared).tapes.size
      rw [World.tapes_size_running]
      exact hfits.tape_lt
    · change Logged s ((v.running shared).tape shared) _
      rw [World.tape_running_self (w := v) hfits.tape_lt]
      exact (hfits.logged.pulled hb).asked
  obtain ⟨u, hrun, ⟨hnow, hsoundu, hfitsu⟩, hdriven⟩ := (onTape_keeps _).call (ask s) hasked
  have hmid := Midst.follow (ask s) (hcalm.asked hcalls) rfl
  have hbranch : u.host.branches b = some ⟨r, true⟩ :=
    hdriven b r (Book.branches_place_self _ _ _)
  unfold replyOfSource
  generalize follow (.asked :: .pulled b :: w.host.timeline) (ask s) = called at *
  obtain ⟨⟨x, s'⟩, now⟩ := called
  dsimp only at hrun hnow hmid ⊢
  subst hnow
  -- the tape takes note of the answer, and the branch stands behind it
  let u' : World (bench σ) := M.write (·.note (.answered x)) u
  have hreads : r.Reads (.ofBehavior (behavior ask) (depth + 2)) v x (r.past x)
      (u'.recorded r.tape x (.source s')) := by
    refine .drove (.source s) (.source s') x u' ?_ ?_ ?_
    · rw [htape, ← hnone]
      exact hfits.logged.log_eq_due hb
    · rw [htape]
      exact hfits.logged.phase_idle hquiet hgoing
    · rw [htape]
      have hpull : ((Engine.ofBehavior (behavior ask) (depth + 1)).pull s).run
          (v.running shared) = .ok ((x.map (·.map External.value), s'), u') := by
        change StateT.run (do
          let (x, s) ← call M (ask s)
          return (x.map (·.map External.value), s)) _ = _
        rw [run_bind_of_ok hrun]
        rfl
      change (Producer.next (Engine.ofBehavior (behavior ask) (depth + 1)) (.source s)).run _ = _
      rw [Producer.next, Act.run_bind_of_eq hpull]
      match x with
      | none | some (.error _) | some (.ok _) => rfl
  have hlogged := hfitsu.logged.answered hsoundu hmid.running x s'
  have hr := (hfitsu.logged.stands b _ hbranch).trans rfl
  refine ⟨_, (run_respond_of_branch (M := onTape _) (q := .next b) hb).trans
    (run_attend_next (Reader.run_next_iff.mpr hreads)), rfl, ?_, ?_, ?_⟩
  · have hcalm' := hcalm.answered hcalls hmid x
    exact (hsoundu.note hcalm'.lawful.1 (fun _ => rfl) fun _ => rfl).yielded hcalm'.lawful.2 _
  · change shared.id < (World.recorded u' r.tape x (.source s')).tapes.size
    rw [World.tapes_size_recorded]
    exact hfitsu.tape_lt
  · change Logged s' ((World.recorded u' r.tape x (.source s')).tape shared) _
    rw [htape, World.tape_recorded_self (w := u') _ hfitsu.tape_lt]
    exact hlogged.yielded hr x

theorem run_tee (s : σ) (E : Engine (bench σ)) :
    ∃ w, (tee s).run (bare σ) = .ok ((), w) ∧ (onTape E).Stands Taped s [] w := by
  refine ⟨_, rfl, rfl, .start _ _, Nat.zero_lt_one, rfl, ⟨rfl, rfl, rfl⟩, ?_⟩
  intro b entry hb
  have hb : (Book.start (⟨⟨0⟩, 0⟩ : Reader) ⟨⟨0⟩, 0⟩).branches b = some entry := hb
  rw [Book.start, Book.branches_place, Book.branches_place] at hb
  split at hb
  · cases hb
    rfl
  · split at hb
    · cases hb
      rfl
    · cases hb

end MemoSeq.Broadcast
