/-
  MemoSeq/Proofs/Broadcast/Bench.lean
  ===================================
  **A source, the branches that read it, and everybody who pulls them.**

  On the bench the branches of a source are named and called in any order: from
  outside by a list of requests, and from inside by the source itself, which when it is
  called goes through a routine of requests and may make each of them depend on the
  replies before (`Routine`).  A branch that is being driven can be neither pulled nor
  split nor dropped, which is refused.  How the branches are kept is left open
  (`Medium`); what happens is noted on the timeline of `Broadcast.Timeline`.

  What is to come of all this can be told from the timeline alone, for a branch that is
  pulled gets what is due to it (`Timeline.recount`).  A medium that keeps its branches
  as the timeline says (`Medium.Keeps`) replies just so, in the midst of a call
  (`Medium.Keeps.perform`) and outside of calls (`Medium.Keeps.serve`).
-/
import MemoSeq.Engine
import MemoSeq.Proofs.Broadcast.Timeline
import Mathlib.Logic.Function.Basic

namespace MemoSeq.Broadcast

open Timeline

/-! ### Requests -/

inductive Request where
  | next (branch : Nat)
  | split (branch : Nat)
  /-- `inUse` tells whether what the branches share is in use at that moment, as it is
      while items are let go of that hold a branch themselves. -/
  | drop (branch : Nat) (inUse : Bool)

def Request.branch : Request → Nat
  | next b | split b | drop b _ => b

inductive Reply where
  | refused
  | yielded (x : Option Item)
  | opened (new : Nat)
  | dropped
deriving DecidableEq

/-- What a source does when it is called: requests, and in the end its answer and what
    has become of it. -/
inductive Routine (σ : Type) where
  | answer (x : Option Item) (s : σ)
  | request (q : Request) (go : Reply → Routine σ)

/-! ### Told by the timeline alone -/

namespace Timeline

variable {σ : Type}

/-- The reply to a request for which the source is not called. -/
def grant (past : Timeline) : Request → Reply × Timeline
  | .next b => (.yielded (due b past), .yielded b (due b past) :: .pulled b :: past)
  | .split b => (.opened (opened past), .split b (opened past) :: past)
  | .drop b _ => (.dropped, .dropped b :: past)

def replyAtOnce (past : Timeline) (q : Request) : Reply × Timeline :=
  if isFree q.branch past then grant past q else (.refused, past)

/-- Goes through the routine of a source that has been called. -/
def follow : Timeline → Routine σ → (Option Item × σ) × Timeline
  | past, .answer x s => ((x, s), past)
  | past, .request q go => follow (replyAtOnce past q).2 (go (replyAtOnce past q).1)

def calls (past : Timeline) : Request → Bool
  | .next b => isFree b past && (due b past).isNone && !isRunning past && !hasEnded past
  | _ => false

/-- The reply of a branch that has the source called, with what is left of the source. -/
def replyOfSource (ask : σ → Routine σ) (s : σ) (past : Timeline) (b : Nat) :
    Reply × σ × Timeline :=
  let called := follow (.asked :: .pulled b :: past) (ask s)
  let x := called.1.1
  (.yielded x, called.1.2, .yielded b x :: .answered x :: called.2)

def reply (ask : σ → Routine σ) (s : σ) (past : Timeline) (q : Request) : Reply × σ × Timeline :=
  if calls past q then replyOfSource ask s past q.branch
  else ((replyAtOnce past q).1, s, (replyAtOnce past q).2)

/-- The replies to all requests, and everything that happens. -/
def recount (ask : σ → Routine σ) : σ → Timeline → List Request → List Reply × σ × Timeline
  | s, past, [] => ([], s, past)
  | s, past, q :: rest =>
    let (first, s, now) := reply ask s past q
    let (others, s, now) := recount ask s now rest
    (first :: others, s, now)

variable {past now : Timeline} {b : Nat} {q : Request}

theorem isFree_eq_true : isFree b past = true ↔ isLive b past = true ∧ isDriven b past = false := by
  simp [isFree]

theorem Lawful.live_of_driven (h : Lawful past) (hdriven : isDriven b past = true) :
    isLive b past = true := by
  induction past with
  | nil => cases hdriven
  | cons e past ih =>
    cases e with
    | asked | answered => exact ih h.1 hdriven
    | pulled c =>
      simp only [isDriven, Bool.or_eq_true, beq_iff_eq] at hdriven
      rcases hdriven with rfl | hdriven
      · exact (isFree_eq_true.mp h.2).1
      · exact ih h.1 hdriven
    | yielded c x =>
      simp only [isDriven, Bool.and_eq_true] at hdriven
      exact ih h.1 hdriven.2
    | split a c =>
      rw [isLive, ih h.1 hdriven, Bool.or_true]
    | dropped c =>
      -- a branch that is being driven is not the one that was dropped
      have hne : b ≠ c := by
        rintro rfl
        exact Bool.false_ne_true ((isFree_eq_true.mp h.2).2.symm.trans hdriven)
      simp [isLive, ih h.1 hdriven, hne]

theorem calls_next_eq_true : calls past (.next b) = true ↔
    isFree b past = true ∧ due b past = none ∧ isRunning past = false ∧ hasEnded past = false := by
  simp [calls, and_assoc]

/-- When the source is not called for a branch to which nothing is due, it is at work or
    has ended. -/
theorem stopped_of_calls (hcalls : calls past (.next b) = false) (hfree : isFree b past = true)
    (hnone : due b past = none) : isRunning past = true ∨ hasEnded past = true := by
  cases hrunning : isRunning past with
  | true => exact .inl rfl
  | false =>
    cases hended : hasEnded past with
    | true => exact .inr rfl
    | false =>
      rw [calls_next_eq_true.mpr ⟨hfree, hnone, hrunning, hended⟩] at hcalls
      cases hcalls

theorem Lawful.granted (h : Lawful past) (hfree : isFree q.branch past = true)
    (hcalls : calls past q = false) : Lawful (grant past q).2 := by
  cases q with
  | next b =>
    have hpulled : Lawful (.pulled b :: past) := ⟨h, hfree⟩
    have hdriven : isDriven b (.pulled b :: past) = true := by simp [isDriven]
    exact ⟨hpulled, hpulled.live_of_driven hdriven, hdriven, rfl, stopped_of_calls hcalls hfree⟩
  | split b => exact ⟨h, hfree, rfl⟩
  | drop b inUse => exact ⟨h, hfree⟩

theorem calls_of_running (hrunning : isRunning past = true) : calls past q = false := by
  cases q with
  | next b => simp [calls, hrunning]
  | split | drop => rfl

/-- What stays the same in the midst of a call. -/
structure Midst (past now : Timeline) : Prop where
  lawful : Lawful now
  running : isRunning now = true
  delivered : delivered now = delivered past
  driven : ∀ b, isDriven b now = isDriven b past
  yields : ∀ b, isDriven b past = true → yields b now = yields b past
  later : past <:+ now

namespace Midst

theorem refl (h : Lawful past) (hrunning : isRunning past = true) : Midst past past :=
  ⟨h, hrunning, rfl, fun _ => rfl, fun _ _ => rfl, List.suffix_rfl⟩

theorem trans {further : Timeline} (h : Midst past now) (h' : Midst now further) :
    Midst past further where
  lawful := h'.lawful
  running := h'.running
  delivered := h'.delivered.trans h.delivered
  driven b := (h'.driven b).trans (h.driven b)
  yields b hb := (h'.yields b ((h.driven b).trans hb)).trans (h.yields b hb)
  later := h.later.trans h'.later

theorem replyAtOnce (h : Lawful past) (hrunning : isRunning past = true) (q : Request) :
    Midst past (replyAtOnce past q).2 := by
  unfold Timeline.replyAtOnce
  split
  case isFalse => exact .refl h hrunning
  case isTrue hfree =>
    have hlawful := h.granted hfree (calls_of_running hrunning)
    cases q with
    | next a =>
      have hnot : isDriven a past = false := (isFree_eq_true.mp hfree).2
      refine ⟨hlawful, hrunning, by simp [grant, Timeline.delivered], ?_, ?_, ?_⟩
      · intro b
        by_cases heq : b = a
        · simp [grant, isDriven, heq, hnot]
        · simp [grant, isDriven, beq_false_of_ne heq, bne]
      · intro b hb
        have hne : a ≠ b := by
          rintro rfl
          exact Bool.false_ne_true (hnot.symm.trans hb)
        simp [grant, Timeline.yields, hne]
      · exact (List.suffix_cons _ _).trans (List.suffix_cons _ _)
    | split a =>
      refine ⟨hlawful, hrunning, rfl, fun _ => rfl, ?_, List.suffix_cons _ _⟩
      intro b hb
      have hne : opened past ≠ b := (h.lt_opened (h.live_of_driven hb)).ne'
      simp [grant, Timeline.yields, hne]
    | drop a inUse => exact ⟨hlawful, hrunning, rfl, fun _ => rfl, fun _ _ => rfl,
        List.suffix_cons _ _⟩

theorem follow (routine : Routine σ) (h : Lawful past) (hrunning : isRunning past = true) :
    Midst past (follow past routine).2 := by
  induction routine generalizing past with
  | answer x s => exact .refl h hrunning
  | request q go ih =>
    have hmid := Midst.replyAtOnce h hrunning q
    exact hmid.trans (ih _ hmid.lawful hmid.running)

end Midst

/-- Splitting and dropping deliver nothing and yield nothing. -/
theorem yields_replyAtOnce (h : Lawful past) (hq : ∀ b, q ≠ .next b)
    (hlive : isLive b past = true) :
    delivered (replyAtOnce past q).2 = delivered past ∧
      yields b (replyAtOnce past q).2 = yields b past := by
  unfold replyAtOnce
  split
  case isFalse => exact ⟨rfl, rfl⟩
  case isTrue =>
    cases q with
    | next a => exact (hq a rfl).elim
    | split a => exact ⟨rfl, if_neg (h.lt_opened hlive).ne'⟩
    | drop a inUse => exact ⟨rfl, rfl⟩

/-- Nobody is being pulled, and the source is not at work. -/
structure Calm (past : Timeline) : Prop where
  lawful : Lawful past
  idle : isRunning past = false
  free : ∀ b, isDriven b past = false

namespace Calm

theorem nil : Calm [] := ⟨trivial, rfl, fun _ => rfl⟩

theorem isFree_eq (h : Calm past) (b : Nat) : isFree b past = isLive b past := by
  simp [isFree, h.free]

theorem replyAtOnce (h : Calm past) (hcalls : calls past q = false) :
    Calm (replyAtOnce past q).2 := by
  unfold Timeline.replyAtOnce
  split
  case isFalse => exact h
  case isTrue hfree =>
    have hlawful := h.lawful.granted hfree hcalls
    cases q with
    | next a =>
      refine ⟨hlawful, h.idle, ?_⟩
      intro b
      by_cases heq : b = a <;> simp [grant, isDriven, h.free, heq]
    | split a | drop a inUse => exact ⟨hlawful, h.idle, h.free⟩

/-- The source is called on a timeline that is lawful so far. -/
theorem asked (h : Calm past) (hcalls : calls past (.next b) = true) :
    Lawful (.asked :: .pulled b :: past) := by
  obtain ⟨hfree, -, hidle, hgoing⟩ := calls_next_eq_true.mp hcalls
  exact ⟨⟨h.lawful, hfree⟩, hidle, hgoing⟩

/-- The branch that has the source called gets what the source answers: it has had all
    before, and nothing has come in the meantime. -/
theorem answered (h : Calm past) (hcalls : calls past (.next b) = true)
    (hmid : Midst (.asked :: .pulled b :: past) now) (x : Option Item) :
    Calm (.yielded b x :: .answered x :: now) := by
  have hdriven : isDriven b now = true := by simp [hmid.driven, isDriven]
  have hall : yields b now = delivered now := by
    rw [hmid.yields b (by simp [isDriven]), hmid.delivered]
    exact h.lawful.yields_eq_delivered (calls_next_eq_true.mp hcalls).2.1
  have hanswered : Lawful (.answered x :: now) := ⟨hmid.lawful, hmid.running⟩
  refine ⟨⟨hanswered, hanswered.live_of_driven hdriven, hdriven, ?_, ?_⟩, rfl, ?_⟩
  · cases x with
    | none => simp [due, yields, delivered, hall]
    | some x => simp [due, yields, delivered, hall]
  · rintro rfl
    exact .inr rfl
  · intro c
    by_cases heq : c = b
    · simp [isDriven, heq]
    · have hbefore := hmid.driven c
      simp only [isDriven, h.free, Bool.or_false] at hbefore
      simp [isDriven, hbefore, heq]

theorem reply (h : Calm past) (ask : σ → Routine σ) (s : σ) (q : Request) :
    Calm (reply ask s past q).2.2 := by
  unfold Timeline.reply
  split
  case isFalse hcalls => exact h.replyAtOnce (by simpa using hcalls)
  case isTrue hcalls =>
    cases q with
    | next b => exact h.answered hcalls (.follow (ask s) (h.asked hcalls) rfl) _
    | split | drop => cases hcalls

theorem recount (h : Calm past) (ask : σ → Routine σ) (s : σ) (requests : List Request) :
    Calm (recount ask s past requests).2.2 := by
  induction requests generalizing s past with
  | nil => exact h
  | cons q rest ih => exact ih (h.reply ask s q) _

end Calm

end Timeline

/-! ### The book -/

structure Branch (ρ : Type) where
  /-- What the medium knows the branch by. -/
  place : ρ
  /-- Set while the branch is being pulled. -/
  driven : Bool

/-- The branches that are there, and what has happened to them and to the source. -/
structure Book (ρ : Type) where
  branches : Nat → Option (Branch ρ)
  timeline : Timeline

namespace Book

variable {ρ : Type}

def note (book : Book ρ) (e : Event) : Book ρ := { book with timeline := e :: book.timeline }

def place (book : Book ρ) (b : Nat) (entry : Option (Branch ρ)) : Book ρ :=
  { book with branches := Function.update book.branches b entry }

def start (first second : ρ) : Book ρ :=
  ((⟨fun _ => none, []⟩ : Book ρ).place 0 (some ⟨first, false⟩)).place 1 (some ⟨second, false⟩)

def pulled (b : Nat) (r : ρ) (book : Book ρ) : Book ρ :=
  (book.place b (some ⟨r, true⟩)).note (.pulled b)

def yielded (b : Nat) (x : Option Item) (r : ρ) (book : Book ρ) : Book ρ :=
  (book.place b (some ⟨r, false⟩)).note (.yielded b x)

def splitOff (b : Nat) (r : ρ) (book : Book ρ) : Book ρ :=
  (book.place (opened book.timeline) (some ⟨r, false⟩)).note (.split b (opened book.timeline))

def dropped (b : Nat) (book : Book ρ) : Book ρ := (book.place b none).note (.dropped b)

section Entries

variable (book : Book ρ) (b c : Nat) (e : Event) (entry : Option (Branch ρ))

@[simp] theorem timeline_note : (book.note e).timeline = e :: book.timeline := rfl

@[simp] theorem branches_note : (book.note e).branches = book.branches := rfl

@[simp] theorem timeline_place : (book.place b entry).timeline = book.timeline := rfl

theorem branches_place : (book.place b entry).branches c =
    if c = b then entry else book.branches c := Function.update_apply _ _ _ _

@[simp] theorem branches_place_self : (book.place b entry).branches b = entry :=
  Function.update_self _ _ _

variable {book b c}

theorem branches_pulled_of_ne (r : ρ) (hne : c ≠ b) :
    (book.pulled b r).branches c = book.branches c :=
  (branches_place _ _ _ _).trans (if_neg hne)

theorem branches_yielded_of_ne (x : Option Item) (r : ρ) (hne : c ≠ b) :
    (book.yielded b x r).branches c = book.branches c :=
  (branches_place _ _ _ _).trans (if_neg hne)

theorem branches_splitOff_of_ne (r : ρ) (hne : c ≠ opened book.timeline) :
    (book.splitOff b r).branches c = book.branches c :=
  (branches_place _ _ _ _).trans (if_neg hne)

theorem branches_dropped_of_ne (hne : c ≠ b) : (book.dropped b).branches c = book.branches c :=
  (branches_place _ _ _ _).trans (if_neg hne)

end Entries

/-- The branches are those that are live, and those that are driven are marked. -/
structure Sound (book : Book ρ) : Prop where
  lawful : Lawful book.timeline
  live : ∀ b, isLive b book.timeline = (book.branches b).isSome
  driven : ∀ b entry, book.branches b = some entry → entry.driven = isDriven b book.timeline

namespace Sound

variable {book : Book ρ} {b : Nat} {r : ρ}

theorem start (first second : ρ) : (start first second).Sound where
  lawful := trivial
  live b := by
    match b with
    | 0 | 1 => rfl
    | b + 2 => simp [isLive, Book.start, branches_place]
  driven b entry hb := by
    rw [Book.start, branches_place, branches_place] at hb
    split at hb
    · cases hb
      rfl
    · split at hb
      · cases hb
        rfl
      · cases hb

theorem live_of_branch (h : book.Sound) {entry : Branch ρ} (hb : book.branches b = some entry) :
    isLive b book.timeline = true := by
  rw [h.live, hb]
  rfl

theorem isFree_iff (h : book.Sound) (b : Nat) :
    isFree b book.timeline = true ↔ ∃ r, book.branches b = some ⟨r, false⟩ := by
  rw [isFree_eq_true]
  constructor
  · rintro ⟨hlive, hdriven⟩
    rw [h.live] at hlive
    obtain ⟨⟨r, d⟩, hb⟩ := Option.isSome_iff_exists.mp hlive
    have hd : d = isDriven b book.timeline := h.driven b ⟨r, d⟩ hb
    exact ⟨r, by rw [hb, hd, hdriven]⟩
  · rintro ⟨r, hb⟩
    exact ⟨h.live_of_branch hb, (h.driven b ⟨r, false⟩ hb).symm⟩

theorem fresh (h : book.Sound) : book.branches (opened book.timeline) = none := by
  cases hentry : book.branches (opened book.timeline) with
  | none => rfl
  | some entry =>
    exact (Nat.lt_irrefl _ (h.lawful.lt_opened (h.live_of_branch hentry))).elim

theorem note (h : book.Sound) {e : Event} (hlawful : Lawful (e :: book.timeline))
    (hlive : ∀ b, isLive b (e :: book.timeline) = isLive b book.timeline)
    (hdriven : ∀ b, isDriven b (e :: book.timeline) = isDriven b book.timeline) :
    (book.note e).Sound where
  lawful := hlawful
  live b := (hlive b).trans (h.live b)
  driven b entry hb := (h.driven b entry hb).trans (hdriven b).symm

theorem pulled (h : book.Sound) (hb : book.branches b = some ⟨r, false⟩) :
    (book.pulled b r).Sound where
  lawful := ⟨h.lawful, (h.isFree_iff b).mpr ⟨r, hb⟩⟩
  live c := by
    rw [Book.pulled, branches_note, branches_place]
    split
    case isTrue heq =>
      rw [heq]
      exact h.live_of_branch hb
    case isFalse => exact h.live c
  driven c entry hc := by
    rw [Book.pulled, branches_note, branches_place] at hc
    rw [Book.pulled, timeline_note, timeline_place, isDriven]
    split at hc
    case isTrue heq =>
      cases hc
      simp [heq]
    case isFalse hne =>
      rw [beq_false_of_ne hne]
      exact h.driven c entry hc

theorem yielded (h : book.Sound) {x : Option Item}
    (hx : Follows book.timeline (.yielded b x)) (r : ρ) : (book.yielded b x r).Sound where
  lawful := ⟨h.lawful, hx⟩
  live c := by
    rw [Book.yielded, branches_note, branches_place]
    split
    case isTrue heq =>
      rw [heq]
      exact hx.1
    case isFalse => exact h.live c
  driven c entry hc := by
    rw [Book.yielded, branches_note, branches_place] at hc
    rw [Book.yielded, timeline_note, timeline_place, isDriven]
    split at hc
    case isTrue heq =>
      cases hc
      simp [heq]
    case isFalse hne =>
      rw [bne, beq_false_of_ne hne]
      exact h.driven c entry hc

theorem splitOff (h : book.Sound) (hb : book.branches b = some ⟨r, false⟩) (r' : ρ) :
    (book.splitOff b r').Sound where
  lawful := ⟨h.lawful, (h.isFree_iff b).mpr ⟨r, hb⟩, rfl⟩
  live c := by
    rw [Book.splitOff, branches_note, branches_place, timeline_note, timeline_place, isLive]
    split
    case isTrue heq => simp [heq]
    case isFalse hne =>
      rw [beq_false_of_ne hne]
      exact h.live c
  driven c entry hc := by
    rw [Book.splitOff, branches_note, branches_place] at hc
    change entry.driven = isDriven c book.timeline
    split at hc
    case isTrue heq =>
      cases hc
      -- a name that was not given yet is not being driven
      cases hdriven : isDriven c book.timeline with
      | false => rfl
      | true =>
        have hlive := h.lawful.live_of_driven hdriven
        rw [heq, h.live, h.fresh] at hlive
        cases hlive
    case isFalse => exact h.driven c entry hc

theorem dropped (h : book.Sound) (hb : book.branches b = some ⟨r, false⟩) :
    (book.dropped b).Sound where
  lawful := ⟨h.lawful, (h.isFree_iff b).mpr ⟨r, hb⟩⟩
  live c := by
    rw [Book.dropped, branches_note, branches_place, timeline_note, timeline_place, isLive]
    split
    case isTrue heq => simp [heq]
    case isFalse hne =>
      rw [bne, beq_false_of_ne hne]
      exact h.live c
  driven c entry hc := by
    rw [Book.dropped, branches_note, branches_place] at hc
    split at hc
    case isTrue => cases hc
    case isFalse => exact h.driven c entry hc

end Sound

end Book

/-! ### Media -/

/-- How branches are kept: `S` is the state that they share with the book, and `ρ` what
    a branch is known by. -/
structure Medium (S ρ : Type) where
  next : ρ → StateT S (Except Halt) (Option Item × ρ)
  split : ρ → StateT S (Except Halt) ρ
  drop : ρ → Bool → StateT S (Except Halt) Unit
  book : S → Book ρ
  write : (Book ρ → Book ρ) → S → S

section Media

variable {S ρ σ α β : Type} (M : Medium S ρ)

def attend (r : ρ) : Request → StateT S (Except Halt) Reply
  | .next b => do
    modify (M.write (·.pulled b r))
    let (x, r) ← M.next r
    modify (M.write (·.yielded b x r))
    return .yielded x
  | .split b => do
    let r ← M.split r
    let new := opened (M.book (← get)).timeline
    modify (M.write (·.splitOff b r))
    return .opened new
  | .drop b inUse => do
    M.drop r inUse
    modify (M.write (·.dropped b))
    return .dropped

/-- Grants a request, unless its branch is gone or is being driven. -/
def respond (q : Request) : StateT S (Except Halt) Reply := do
  match (M.book (← get)).branches q.branch with
  | some ⟨r, false⟩ => attend M r q
  | _ => return .refused

def perform : Routine σ → StateT S (Except Halt) (Option Item × σ)
  | .answer x s => return (x, s)
  | .request q go => do
    let reply ← respond M q
    perform (go reply)

/-- Goes through a routine between the call of a source and its answer. -/
def call (routine : Routine σ) : StateT S (Except Halt) (Option Item × σ) := do
  modify (M.write (·.note .asked))
  let (x, s) ← perform M routine
  modify (M.write (·.note (.answered x)))
  return (x, s)

def serve : List Request → StateT S (Except Halt) (List Reply)
  | [] => return []
  | q :: rest => do
    let reply ← respond M q
    return reply :: (← serve rest)

/-- The medium keeps its branches as the timeline says, given what there is of the source
    (`Fits`): each of them gets what is due to it, as long as the source is not needed for
    that, and what becomes of one of them leaves the others as they are. -/
structure Medium.Keeps (Fits : σ → S → Prop) : Prop where
  book_write : ∀ (f : Book ρ → Book ρ) (st : S), M.book (M.write f st) = f (M.book st)
  next : ∀ {s : σ} {st : S} {b : Nat} {r : ρ}, Fits s st → (M.book st).Sound →
    (M.book st).branches b = some ⟨r, false⟩ → calls (M.book st).timeline (.next b) = false →
    ∃ r' st', (M.next r).run (M.write (·.pulled b r) st) =
        .ok ((due b (M.book st).timeline, r'), st') ∧
      M.book st' = (M.book st).pulled b r ∧
      Fits s (M.write (·.yielded b (due b (M.book st).timeline) r') st')
  split : ∀ {s : σ} {st : S} {b : Nat} {r : ρ}, Fits s st → (M.book st).Sound →
    (M.book st).branches b = some ⟨r, false⟩ →
    ∃ r' st', (M.split r).run st = .ok (r', st') ∧ M.book st' = M.book st ∧
      Fits s (M.write (·.splitOff b r') st')
  drop : ∀ {s : σ} {st : S} {b : Nat} {r : ρ} (inUse : Bool), Fits s st → (M.book st).Sound →
    (M.book st).branches b = some ⟨r, false⟩ →
    ∃ st', (M.drop r inUse).run st = .ok ((), st') ∧ M.book st' = M.book st ∧
      Fits s (M.write (·.dropped b) st')

/-- The medium is as it should be at the end of a timeline. -/
structure Medium.Stands (Fits : σ → S → Prop) (s : σ) (now : Timeline) (st : S) : Prop where
  timeline : (M.book st).timeline = now
  sound : (M.book st).Sound
  fits : Fits s st

theorem run_bind_of_ok {a : StateT S (Except Halt) α} {f : α → StateT S (Except Halt) β}
    {st st' : S} {x : α} (h : a.run st = .ok (x, st')) :
    (a >>= f).run st = (f x).run st' := by
  rw [StateT.run_bind, h]
  rfl

variable {M} {st : S} {s : σ} {q : Request} {r : ρ}

theorem run_respond_of_branch (hb : (M.book st).branches q.branch = some ⟨r, false⟩) :
    (respond M q).run st = (attend M r q).run st := by
  unfold respond
  rw [run_bind_of_ok rfl]
  simp only [hb]

theorem run_respond_of_refused (hb : ¬ ∃ r, (M.book st).branches q.branch = some ⟨r, false⟩) :
    (respond M q).run st = .ok (.refused, st) := by
  unfold respond
  rw [run_bind_of_ok rfl]
  split
  · exact (hb ⟨_, ‹_›⟩).elim
  · rfl

theorem run_attend_next {b : Nat} {r' : ρ} {x : Option Item} {st' : S}
    (h : (M.next r).run (M.write (·.pulled b r) st) = .ok ((x, r'), st')) :
    (attend M r (.next b)).run st = .ok (.yielded x, M.write (·.yielded b x r') st') := by
  unfold attend
  rw [run_bind_of_ok rfl, run_bind_of_ok h]
  rfl

namespace Medium.Keeps

variable {Fits : σ → S → Prop} {past : Timeline} {ask : σ → Routine σ} (hM : M.Keeps Fits)

include hM

/-- A request that is granted leaves the other branches where they are. -/
theorem attend (h : M.Stands Fits s past st)
    (hb : (M.book st).branches q.branch = some ⟨r, false⟩) (hcalls : calls past q = false) :
    ∃ st', (attend M r q).run st = .ok ((grant past q).1, st') ∧
      M.Stands Fits s (grant past q).2 st' ∧
      ∀ c entry, c ≠ q.branch → (M.book st).branches c = some entry →
        (M.book st').branches c = some entry := by
  obtain ⟨rfl, hsound, hfits⟩ := h
  have hfree : isFree q.branch (M.book st).timeline = true := (hsound.isFree_iff _).mpr ⟨r, hb⟩
  cases q with
  | next b =>
    change (M.book st).branches b = _ at hb
    obtain ⟨r', st', hrun, hbook, hfits'⟩ := hM.next hfits hsound hb hcalls
    have hfollows := (hsound.lawful.granted (q := .next b) hfree hcalls).2
    refine ⟨_, run_attend_next hrun, ⟨?_, ?_, hfits'⟩, fun c entry hne hc => ?_⟩
    · rw [hM.book_write, hbook]
      rfl
    · rw [hM.book_write, hbook]
      exact (hsound.pulled hb).yielded hfollows r'
    · have hne : c ≠ b := hne
      rw [hM.book_write, hbook, Book.branches_yielded_of_ne _ _ hne,
        Book.branches_pulled_of_ne _ hne]
      exact hc
  | split b =>
    obtain ⟨r', st', hrun, hbook, hfits'⟩ := hM.split hfits hsound hb
    refine ⟨M.write (·.splitOff b r') st', ?_, ⟨?_, ?_, hfits'⟩, fun c entry hne hc => ?_⟩
    · unfold Broadcast.attend
      rw [run_bind_of_ok hrun, run_bind_of_ok rfl, hbook]
      rfl
    · rw [hM.book_write, hbook]
      rfl
    · rw [hM.book_write, hbook]
      exact hsound.splitOff hb r'
    · have hne : c ≠ opened (M.book st).timeline := by
        rintro rfl
        cases hsound.fresh.symm.trans hc
      rw [hM.book_write, hbook, Book.branches_splitOff_of_ne _ hne]
      exact hc
  | drop b inUse =>
    obtain ⟨st', hrun, hbook, hfits'⟩ := hM.drop inUse hfits hsound hb
    refine ⟨M.write (·.dropped b) st', ?_, ⟨?_, ?_, hfits'⟩, fun c entry hne hc => ?_⟩
    · unfold Broadcast.attend
      rw [run_bind_of_ok hrun]
      rfl
    · rw [hM.book_write, hbook]
      rfl
    · rw [hM.book_write, hbook]
      exact hsound.dropped hb
    · have hne : c ≠ b := hne
      rw [hM.book_write, hbook, Book.branches_dropped_of_ne hne]
      exact hc

/-- A request for which the source is not called is replied to as the timeline says. -/
theorem respond (h : M.Stands Fits s past st) (hcalls : calls past q = false) :
    ∃ st', (respond M q).run st = .ok ((replyAtOnce past q).1, st') ∧
      M.Stands Fits s (replyAtOnce past q).2 st' ∧
      ∀ c entry, c ≠ q.branch ∨ entry.driven = true → (M.book st).branches c = some entry →
        (M.book st').branches c = some entry := by
  have hfree : isFree q.branch past = true ↔ _ := h.timeline ▸ h.sound.isFree_iff q.branch
  unfold replyAtOnce
  split
  case isTrue hyes =>
    obtain ⟨r, hb⟩ := hfree.mp hyes
    rw [run_respond_of_branch hb]
    obtain ⟨st', hrun, hst', hothers⟩ := hM.attend h hb hcalls
    refine ⟨st', hrun, hst', fun c entry hc hentry => hothers c entry ?_ hentry⟩
    rcases hc with hne | hdriven
    · exact hne
    · rintro rfl
      cases hb.symm.trans hentry
      cases hdriven
  case isFalse hnot =>
    exact ⟨st, run_respond_of_refused fun hb => hnot (hfree.mpr hb), h, fun _ _ _ hc => hc⟩

/-- A routine comes to its answer, whatever requests it makes. -/
theorem perform (routine : Routine σ) (h : M.Stands Fits s past st)
    (hrunning : isRunning past = true) :
    ∃ st', (perform M routine).run st = .ok ((follow past routine).1, st') ∧
      M.Stands Fits s (follow past routine).2 st' ∧
      ∀ c r, (M.book st).branches c = some ⟨r, true⟩ →
        (M.book st').branches c = some ⟨r, true⟩ := by
  induction routine generalizing st past with
  | answer x s => exact ⟨st, rfl, h, fun _ _ hc => hc⟩
  | request q go ih =>
    obtain ⟨v, hrun, hv, hdriven⟩ := hM.respond h (calls_of_running hrunning)
    have hlawful : past.Lawful := h.timeline ▸ h.sound.lawful
    have hmid := Midst.replyAtOnce hlawful hrunning q
    obtain ⟨st', hrest, hst', hdriven'⟩ := ih _ hv hmid.running
    refine ⟨st', ?_, hst', fun c r hc => hdriven' c r (hdriven c _ (.inr rfl) hc)⟩
    rw [Broadcast.perform, run_bind_of_ok hrun]
    exact hrest

/-- From the call of the source to its answer. -/
theorem call (routine : Routine σ)
    (h : M.Stands Fits s (.asked :: past) (M.write (·.note .asked) st)) :
    ∃ st', (call M routine).run st = .ok ((follow (.asked :: past) routine).1,
        M.write (·.note (.answered (follow (.asked :: past) routine).1.1)) st') ∧
      M.Stands Fits s (follow (.asked :: past) routine).2 st' ∧
      ∀ c r, (M.book st).branches c = some ⟨r, true⟩ →
        (M.book st').branches c = some ⟨r, true⟩ := by
  obtain ⟨st', hrun, hst', hdriven⟩ := hM.perform routine h rfl
  refine ⟨st', ?_, hst', fun c r hc => hdriven c r ?_⟩
  · unfold Broadcast.call
    rw [run_bind_of_ok rfl, run_bind_of_ok hrun]
    rfl
  · rw [hM.book_write]
    exact hc

/-- When the source is called for a branch as it should be, all requests are replied to as
    the timeline says. -/
theorem serve
    (hdrives : ∀ {s : σ} {past : Timeline} {st : S} {b : Nat} {r : ρ},
      M.Stands Fits s past st → Calm past → (M.book st).branches b = some ⟨r, false⟩ →
      calls past (.next b) = true →
      ∃ st', (Broadcast.respond M (.next b)).run st =
          .ok ((replyOfSource ask s past b).1, st') ∧
        M.Stands Fits (replyOfSource ask s past b).2.1 (replyOfSource ask s past b).2.2 st')
    (requests : List Request) (h : M.Stands Fits s past st) (hcalm : Calm past) :
    ∃ st', (serve M requests).run st = .ok ((recount ask s past requests).1, st') ∧
      M.Stands Fits (recount ask s past requests).2.1 (recount ask s past requests).2.2 st' := by
  induction requests generalizing s past st with
  | nil => exact ⟨st, rfl, h⟩
  | cons q rest ih =>
    obtain ⟨v, hrun, hv⟩ : ∃ v,
        (Broadcast.respond M q).run st = .ok ((reply ask s past q).1, v) ∧
        M.Stands Fits (reply ask s past q).2.1 (reply ask s past q).2.2 v := by
      unfold reply
      split
      case isFalse hcalls =>
        obtain ⟨v, hrun, hv, -⟩ := hM.respond h (by simpa using hcalls)
        exact ⟨v, hrun, hv⟩
      case isTrue hcalls =>
        cases q with
        | next b =>
          have hfree : isFree b (M.book st).timeline = true := by
            rw [h.timeline]
            exact (calls_next_eq_true.mp hcalls).1
          obtain ⟨r, hb⟩ := (h.sound.isFree_iff b).mp hfree
          exact hdrives h hcalm hb hcalls
        | split | drop => cases hcalls
    obtain ⟨st', hrest, hst'⟩ := ih hv (hcalm.reply ask s q)
    refine ⟨st', ?_, hst'⟩
    rw [Broadcast.serve, run_bind_of_ok hrun, run_bind_of_ok hrest]
    rfl

end Medium.Keeps

end Media

end MemoSeq.Broadcast
