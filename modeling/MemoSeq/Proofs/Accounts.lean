/-
  MemoSeq/Proofs/Accounts.lean
  ============================
  **What a course tells of one tape.**

  A course tells each call of the producer on a tape and each answer to one.  The answers
  are what engines give (`Scene.Does.returns`), and the tape has them in its log: values,
  and behind them at most one answer more, a failure or the end, which is the last there is
  (`Scene.Accounts`).
-/
import MemoSeq.Proofs.Drawing
import MemoSeq.Proofs.Provision.Calls
import MemoSeq.Proofs.Scenes

namespace MemoSeq

variable {H : Host} {B : Behavior H}

namespace Deed

def called? : Deed H → Option Tape
  | .drive r _ | .pull _ r _ => some r.tape
  | _ => none

/-- What a producer answers to a call, and the tape that it is on. -/
def answered? : Deed H → Option (Tape × Option Item)
  | .answer r x _ | .settle _ r x _ => some (r.tape, x)
  | _ => none

end Deed

namespace Call

variable (c : Call) (x : Option Item) (p : Producer H)

@[simp] theorem called?_begun : (c.begun p).called? = some c.tape := by cases c <;> rfl

@[simp] theorem answered?_begun : (c.begun p).answered? = none := by cases c <;> rfl

@[simp] theorem called?_returned : (c.returned x p).called? = none := by cases c <;> rfl

@[simp] theorem answered?_returned : (c.returned x p).answered? = some (c.tape, x) := by
  cases c <;> rfl

end Call

namespace Scene

/-! ### Calls and answers -/

section Told

variable (t : Tape) (past : List (Deed H))

def callsOf : Nat := (past.filterMap Deed.called?).count t

/-- What the producer has answered, the latest first. -/
def answersOf : List (Option Item) :=
  ((past.filterMap Deed.answered?).filter (·.1 = t)).map (·.2)

def hasReportedEnd : Bool := (answersOf t past).any (·.isNone)

end Told

variable {w w' : World H} {visits : List (Visit H)} {σ σ' : Scene H} {past past' : List (Deed H)}
variable {t : Tape} {d : Deed H} {x : Option Item} {p : Producer H} {c : Call}

theorem callsOf_cons (t : Tape) (d : Deed H) (past : List (Deed H)) :
    callsOf t (d :: past) = callsOf t past + if d.called? = some t then 1 else 0 := by
  unfold callsOf
  cases h : d.called? with
  | none => simp [h]
  | some q => simp [h, List.count_cons]

theorem answersOf_cons_of_none (hd : d.answered? = none) :
    answersOf t (d :: past) = answersOf t past := by
  simp [answersOf, hd]

theorem answersOf_cons {q : Tape} (hd : d.answered? = some (q, x)) :
    answersOf t (d :: past) = if q = t then x :: answersOf t past else answersOf t past := by
  by_cases h : q = t <;> simp [answersOf, hd, h]

theorem any_isNone_eq_false {answers : List (Option Item)}
    (h : ∀ x ∈ answers, ∃ v, x = some (.ok v)) : answers.any (·.isNone) = false := by
  refine List.any_eq_false.mpr fun x hx => ?_
  obtain ⟨v, rfl⟩ := h x hx
  simp

theorem hasReportedEnd_eq_false (h : ∀ x ∈ answersOf t past, ∃ v, x = some (.ok v)) :
    hasReportedEnd t past = false :=
  any_isNone_eq_false h

/-! ### The accounts of a tape -/

/-- What a course tells of a tape agrees with the tape. -/
structure Accounts (past : List (Deed H)) (σ : Scene H) (t : Tape) : Prop where
  calls : callsOf t past =
    (answersOf t past).length + (σ.moment.calls.map Call.tape).count t
  answers : (answersOf t past).reverse = (σ.world.tape t).log.toList.map some ++
    if hasReportedEnd t past then [none] else []
  /-- No answer but the latest is anything else than a value. -/
  earlier : ∀ x ∈ (answersOf t past).tail, ∃ v, x = some (.ok v)
  going : (σ.world.tape t).phase ≠ .ended → ∀ x ∈ answersOf t past, ∃ v, x = some (.ok v)
  ended : (σ.world.tape t).phase = .ended → t.id < σ.world.tapes.size →
    ∃ x, (answersOf t past).head? = some x ∧ ∀ v, x ≠ some (.ok v)
  absent : σ.world.tapes.size ≤ t.id → answersOf t past = []

namespace Accounts

/-- Nothing is told of calls and answers, and the tape stays as it is. -/
theorem quiet (h : Accounts past σ t) (hcalled : d.called? = none) (hanswered : d.answered? = none)
    (htape : σ'.world.tape t = σ.world.tape t)
    (hsize : σ'.world.tapes.size = σ.world.tapes.size) (hcalls : σ'.moment.calls = σ.moment.calls) :
    Accounts (d :: past) σ' t := by
  have hanswers : answersOf t (d :: past) = answersOf t past := answersOf_cons_of_none hanswered
  have hcount : callsOf t (d :: past) = callsOf t past := by simp [callsOf_cons, hcalled]
  constructor
  · rw [hcount, hanswers, hcalls, h.calls]
  · rw [hanswers, htape, h.answers, hasReportedEnd, hasReportedEnd, hanswers]
  · rw [hanswers]
    exact h.earlier
  · rw [hanswers, htape]
    exact h.going
  · rw [hanswers, htape, hsize]
    exact h.ended
  · rw [hanswers, hsize]
    exact h.absent

/-- A tape that is new has an empty log, and nothing has been told of it. -/
theorem withTape (h : Accounts past ⟨w, visits⟩ t) (hcalled : d.called? = none)
    (hanswered : d.answered? = none) (p : Producer H)
    (htape : w'.tape t = (w.withTape p).tape t) (hsize : w'.tapes.size = w.tapes.size + 1) :
    Accounts (d :: past) ⟨w', visits⟩ t := by
  have hanswers : answersOf t (d :: past) = answersOf t past := answersOf_cons_of_none hanswered
  have hcount : callsOf t (d :: past) = callsOf t past := by simp [callsOf_cons, hcalled]
  rcases Nat.lt_or_ge t.id w.tapes.size with hlt | hge
  · rw [World.tape_withTape_of_lt p hlt] at htape
    constructor
    · rw [hcount, hanswers]
      exact h.calls
    · rw [hanswers, htape, hasReportedEnd, hanswers]
      exact h.answers
    · rw [hanswers]
      exact h.earlier
    · rw [hanswers, htape]
      exact h.going
    · rw [hanswers, htape]
      exact fun hphase _ => h.ended hphase hlt
    · intro hle
      dsimp only at hle
      omega
  · have hempty : answersOf t past = [] := h.absent hge
    -- a tape that is not there reads as an empty one
    have hlog : (w'.tape t).log = #[] ∧ (t.id < w'.tapes.size → (w'.tape t).phase = .idle p) := by
      rw [htape]
      rcases Nat.lt_or_eq_of_le hge with hgt | heq
      · refine ⟨?_, fun hlt => by omega⟩
        simp [World.withTape, World.tape, Array.getD, Nat.not_lt.mpr hgt, default]
      · have hfresh : t = w.freshTape := by
          cases t
          exact congrArg Tape.mk heq.symm
        simp [hfresh]
    have hcalls := h.calls
    rw [hempty] at hcalls
    constructor
    · rw [hcount, hanswers, hempty]
      exact hcalls
    · rw [hasReportedEnd, hanswers, hempty, hlog.1]
      simp
    · simp [hanswers, hempty]
    · simp [hanswers, hempty]
    · intro hphase hlt
      dsimp only at hphase
      rw [hlog.2 hlt] at hphase
      cases hphase
    · exact fun _ => by rw [hanswers, hempty]

/-- An idle producer is called.  Its tape has not ended, so all its answers were values. -/
theorem called (h : Accounts past ⟨w, visits⟩ t) (hbegins : c.Begins w p) (depth : Nat) :
    Accounts (c.begun p :: past) ⟨c.opened w, .call c p (c.opened w) depth :: visits⟩ t := by
  have hanswers : answersOf t (c.begun p :: past) = answersOf t past :=
    answersOf_cons_of_none (by simp)
  constructor
  · have hcalls := h.calls
    rw [callsOf_cons, hanswers, hcalls]
    simp [moment, Visit.call?, List.count_cons, Nat.add_assoc]
  · rw [hanswers, Call.log_opened hbegins, hasReportedEnd, hanswers]
    exact h.answers
  · rw [hanswers]
    exact h.earlier
  · rw [hanswers]
    intro hphase
    apply h.going
    by_cases heq : c.tape = t
    · simp [← heq, hbegins.phase]
    · rwa [Call.tape_opened_of_ne heq] at hphase
  · intro hphase hlt
    rw [hanswers]
    by_cases heq : c.tape = t
    · subst heq
      rw [Call.tapes_size_opened] at hlt
      rw [Call.tape_opened_self hlt] at hphase
      cases hphase
    · rw [Call.tape_opened_of_ne heq] at hphase
      rw [Call.tapes_size_opened] at hlt
      exact h.ended hphase hlt
  · rw [hanswers, Call.tapes_size_opened]
    exact h.absent

/-- The latest call is answered, and what the answer brings is put behind the log. -/
theorem returned {u : World H} {depth : Nat} {p' : Producer H}
    (h : Accounts past ⟨w, .call c p u depth :: visits⟩ t)
    (hordered : (moment ⟨w, .call c p u depth :: visits⟩).Ordered) (x : Option Item) :
    Accounts (c.returned x p' :: past) ⟨c.answered w x p', visits⟩ t := by
  have hphase : (w.tape c.tape).phase = .running :=
    (hordered.running c.tape).mpr (by simp [moment, Visit.call?])
  have hcalls := h.calls
  simp only [moment, List.filterMap_cons, Visit.call?, List.map_cons, List.count_cons] at hcalls
  by_cases heq : c.tape = t
  · subst heq
    have hlt := World.lt_of_phase_ne_ended (w := w) (t := c.tape) (by simp [hphase])
    have hvalues := h.going (by simp [hphase])
    have hlogged := h.answers
    rw [hasReportedEnd_eq_false hvalues] at hlogged
    -- the answer is the latest one of its own tape, and of no other
    have hall : answersOf c.tape (c.returned x p' :: past) = x :: answersOf c.tape past := by
      rw [answersOf_cons (Call.answered?_returned c x p'), if_pos rfl]
    have htape : (c.answered w x p').tape c.tape = (w.tape c.tape).recorded x p' :=
      Call.tape_answered_self hlt
    constructor
    · rw [callsOf_cons, hall, hcalls]
      simp [moment]
      omega
    · rw [hall, List.reverse_cons, hlogged, htape, TapeState.log_recorded, hasReportedEnd, hall,
        List.any_cons]
      rw [any_isNone_eq_false hvalues]
      cases x <;> simp
    · rw [hall]
      exact hvalues
    · rw [hall, htape]
      rcases x with _ | (e | v)
      · exact fun hidle => (hidle rfl).elim
      · exact fun hidle => (hidle rfl).elim
      · exact fun _ => List.forall_mem_cons.mpr ⟨⟨v, rfl⟩, hvalues⟩
    · intro hended _
      refine ⟨x, by rw [hall]; rfl, ?_⟩
      rintro v rfl
      rw [htape] at hended
      cases hended
    · intro hle
      rw [Call.tapes_size_answered] at hle
      omega
  · have hall : answersOf t (c.returned x p' :: past) = answersOf t past := by
      rw [answersOf_cons (Call.answered?_returned c x p'), if_neg heq]
    have htape : (c.answered w x p').tape t = w.tape t := Call.tape_answered_of_ne heq
    constructor
    · rw [callsOf_cons, hall, hcalls]
      simp [moment, heq]
    · rw [hall, htape, hasReportedEnd, hall]
      exact h.answers
    · rw [hall]
      exact h.earlier
    · rw [hall, htape]
      exact h.going
    · rw [hall, htape, Call.tapes_size_answered]
      exact h.ended
    · rw [hall, Call.tapes_size_answered]
      exact h.absent

/-- Each deed keeps the accounts. -/
theorem does (h : Accounts past σ t) (hσ : σ.moment.Ordered) (hdoes : σ.Does B d σ') :
    Accounts (d :: past) σ' t := by
  cases hdoes with
  | @aside w w' visits d haside hdoes =>
    generalize hm : moment ⟨w, visits⟩ = m at hdoes
    generalize hm' : moment ⟨w', visits⟩ = m' at hdoes
    cases hdoes with
    | host | limit | displayLength | overwrite | read | take =>
      cases hm
      cases hm'
      exact h.quiet rfl rfl rfl rfl rfl
    | onto w calls p =>
      cases hm
      cases hm'
      exact h.withTape rfl rfl p rfl (by simp)
    | adopt w calls p infinite =>
      cases hm
      cases hm'
      exact h.withTape rfl rfl p rfl (by simp)
    | drive | answer | pull | settle | ahead | cameAhead => exact haside.elim
  | begins visits c depth hbegins => exact h.called hbegins depth
  | returns visits c depth hrun => exact h.returned hσ _
  | ahead w visits s depth => exact h.quiet rfl rfl rfl rfl rfl
  | cameAhead visits s depth hrun => exact h.quiet rfl rfl rfl rfl rfl

theorem course (h : Accounts past σ t) (hσ : σ.moment.Ordered) (hcourse : σ.Course B past' σ') :
    Accounts (past' ++ past) σ' t := by
  induction hcourse with
  | here => exact h
  | next hpast hdoes ih => exact ih.does (hσ.steps hpast.steps) hdoes

theorem initial (host : H.State) (t : Tape) : Accounts [] ⟨World.initial host, []⟩ t := by
  constructor <;>
    simp [callsOf, answersOf, hasReportedEnd, moment, World.initial, World.tape, default]

end Accounts

end Scene

end MemoSeq
