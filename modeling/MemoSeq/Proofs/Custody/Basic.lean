/-
  MemoSeq/Proofs/Custody/Basic.lean
  =================================
  **What may be held, and acts that keep to it.**

  A `Custody` says which values may be held and which of the host's iterators and tests
  may be driven; a list may be held only as a value.  A world is in custody
  (`Custody.Holds`) when all that is logged, cached or still to be produced may be held
  and every reader in it stands.  An act keeps to a custody (`Custody.Keeps`) when it
  leads from a world in custody to one by deeds that the custody permits, all the
  moments between being in custody too.

  What an act is given has to be in custody as well, and what it gives is.  So this is
  a statement about each act in one world, and the statement about two acts in a row
  (`Custody.Keeps.bind`) hands on what the first has given.
-/
import MemoSeq.Proofs.Scenes

namespace MemoSeq

variable {H : Host} {α β ε : Type}

/-- Which values may be held: all numbers and texts that are canonical, and at least the
    lists that have been made since a time at which there were so many. -/
structure Admission where
  admits : Value → Prop
  since : Nat
  int : ∀ n, admits (.int n)
  str : ∀ text, admits (.str text)
  ofRat : ∀ r, admits (.ofRat r)
  made : ∀ s : Sequence, since ≤ s.id → admits (.list s)

structure Admission.Iteration (A : Admission) (w : World H) (i : MemoSeq.Iteration) : Prop where
  cached : ∀ v ∈ i.cached, A.admits v
  rest : ∀ r, i.rest = some r → r.Stands w

theorem Admission.Iteration.mono {A : Admission} {w w' : World H} {i : MemoSeq.Iteration}
    (h : A.Iteration w i) (hw : w.Extends w') : A.Iteration w' i :=
  ⟨h.cached, fun r hr => (h.rest r hr).mono hw⟩

structure Custody (H : Host) extends Admission where
  behavior : Behavior H
  /-- Whether the settings may be changed. -/
  settings : Prop
  source : H.Source → Prop
  test : H.Test → Prop
  /-- What the host may keep in its own state. -/
  host : World H → H.State → Prop
  host_mono : ∀ {w w' : World H} {h : H.State}, w.Extends w' → host w h → host w' h
  /-- What the host has counted, each thing at a number of its own. -/
  tally : H.State → Nat → Nat := fun _ _ => 0
  /-- What a call of an iterator adds to the tally. -/
  worth : H.Source → Nat → Nat := fun _ _ => 0

def Deed.source? : Deed H → Option H.Source
  | .drive _ (.source s) | .pull _ _ (.source s) | .ahead s => some s
  | _ => none

namespace Custody

variable (C : Custody H)

inductive External : External H.Source → Prop
  | int (n : Int) : External (.int n)
  | rational (r : Rat) : External (.rational r)
  | float (x : Double) : External (.float x)
  | str (text : String) : External (.str text)
  | value (v : Value) : C.admits v → External (.value v)
  | symbolic (s : Symbolic) : External (.symbolic s)
  | items (items : List (MemoSeq.External H.Source)) :
      (∀ x ∈ items, External x) → External (.items items)
  | iterator (source : H.Source) : C.source source → External (.iterator source)

def Item (x : Option Item) : Prop := ∀ v, x = some (.ok v) → C.admits v

theorem item_none : C.Item none := by
  intro v hv
  cases hv

theorem item_error (e : Error) : C.Item (some (.error e)) := by
  intro v hv
  cases hv

theorem item_ok {v : Value} (hv : C.admits v) : C.Item (some (.ok v)) := by
  intro u hu
  cases hu
  exact hv

/-- An iteration may be opened on any list, whether or not the list may be held. -/
def Deferred (w : World H) : MemoSeq.Deferred Sequence MemoSeq.Iteration → Prop
  | .opened i => C.Iteration w i
  | _ => True

def Producer (w : World H) : MemoSeq.Producer H → Prop
  | .source s => C.source s
  | .container items => ∀ x ∈ items, C.External x
  | .values values => ∀ v ∈ values, C.admits v
  | .documents _ => True
  | .reader r => r.Stands w
  | .filtered test state => C.test test ∧ C.Deferred w state
  | .joined left right => (∀ i, left = some i → C.Iteration w i) ∧ C.Deferred w right
  | .strided _ _ (.pending s) => C.admits (.list s)
  | .strided _ _ (.opened rest) => ∀ v ∈ rest, C.admits v
  | .strided _ _ .finished => True

structure Holds (w : World H) : Prop where
  since : C.since ≤ w.sequences.size
  logged : ∀ (t : Tape) (i : Nat) (v : Value), (w.tape t).log[i]? = some (.ok v) → C.admits v
  idle : ∀ (t : Tape) (p : MemoSeq.Producer H), (w.tape t).phase = .idle p → C.Producer w p
  cached : ∀ (s : Sequence) (i : Nat) (v : Value),
    (w.sequence s).cache[i]? = some v → C.admits v
  reading : ∀ (s : Sequence) (r : Reader), (w.sequence s).reader = some r → r.Stands w
  host : C.host w w.host

/-- A list is driven, and something is put into it, only if it may be held. -/
def Permits : Deed H → Prop
  | .limit | .displayLength => C.settings
  | .overwrite s _ v => C.admits (.list s) ∧ C.admits v
  | .take s _ _ | .pull s _ _ => C.admits (.list s)
  | _ => True

/-- A course of deeds that are permitted, by readers that stand, through worlds in
    custody. -/
inductive Course (σ : Scene H) : List (Deed H) → Scene H → Prop
  | here : Course σ [] σ
  | next {past : List (Deed H)} {σ' σ'' : Scene H} {d : Deed H} :
      Course σ past σ' → σ'.Does C.behavior d σ'' → d.Stands σ'.world → C.Permits d →
      C.Holds σ''.world → Course σ (d :: past) σ''

/-- What the calls that a course tells of add to the tally. -/
def told : List (Deed H) → Nat → Nat
  | [], _ => 0
  | d :: past, i => d.source?.elim 0 (C.worth · i) + told past i

/-- What calling a producer adds to the tally. -/
def load : MemoSeq.Producer H → Nat → Nat
  | .source s => C.worth s
  | _ => fun _ => 0

/-- One world leads to another by a course through custody.  The tally grows by what the
    course tells of and by `n`, which is owed for a call that the course is a part of. -/
structure LeadsBy (n : Nat → Nat) (w w' : World H) : Prop where
  holds : C.Holds w'
  extends_ : w.Extends w'
  course : ∀ visits : List (Visit H), ∃ past, C.Course ⟨w, visits⟩ past ⟨w', visits⟩ ∧
    ∀ i, C.tally w'.host i = C.tally w.host i + C.told past i + n i

abbrev Leads : World H → World H → Prop := C.LeadsBy fun _ => 0

/-- What the act does from this world on keeps to the custody, with so much to be added to
    the tally, and its result has the property in the world after it. -/
def KeepsBy (n : Nat → Nat) (w : World H) (a : Act H α) (Q : World H → α → Prop) : Prop :=
  ∀ ⦃x w'⦄, a.run w = .ok (x, w') → C.LeadsBy n w w' ∧ Q w' x

abbrev Keeps (w : World H) (a : Act H α) (Q : World H → α → Prop) : Prop :=
  C.KeepsBy (fun _ => 0) w a Q

/-- The same of an attempt; when it fails, there is no result to speak of. -/
def Tries (w : World H) (a : ExceptT ε (Act H) α) (Q : World H → α → Prop) : Prop :=
  C.Keeps w a.run fun w' y => ∀ x, y = .ok x → Q w' x

/-- What the engine drives keeps to the custody, and the engine is one of the host's. -/
structure Drives (E : Engine H) : Prop where
  depth : ∃ depth, E = .ofBehavior C.behavior depth
  pull : ∀ {w : World H} {s : H.Source}, C.Holds w → C.source s →
    C.KeepsBy (C.worth s) w (E.pull s) fun _ x =>
      (∀ y, x.1 = some (.ok y) → C.External y) ∧ C.source x.2
  test : ∀ {w : World H} {t : H.Test} {v : Value}, C.Holds w → C.test t → C.admits v →
    C.Tries w (E.test t v) fun _ _ => True
  next : ∀ {w : World H} {p : MemoSeq.Producer H}, C.Holds w → C.Producer w p →
    C.KeepsBy (C.load p) w (E.next p) fun w' x => C.Item x.1 ∧ C.Producer w' x.2

variable {C} {w w' w'' : World H} {σ σ' σ'' : Scene H} {past past' : List (Deed H)}
variable {n k : Nat → Nat}

/-! ### Courses -/

theorem Course.trans (h : C.Course σ past σ') (h' : C.Course σ' past' σ'') :
    C.Course σ (past' ++ past) σ'' := by
  induction h' with
  | here => exact h
  | next _ hdoes hstands hpermits hholds ih => exact ih.next hdoes hstands hpermits hholds

theorem told_append (past past' : List (Deed H)) (i : Nat) :
    C.told (past' ++ past) i = C.told past' i + C.told past i := by
  induction past' with
  | nil => simp [told]
  | cons d past' ih => rw [List.cons_append, told, told, ih, Nat.add_assoc]

theorem told_cons_of_none {d : Deed H} (hd : d.source? = none) (i : Nat) :
    C.told (d :: past) i = C.told past i := by
  simp [told, hd]

theorem told_begun (c : Call) (p : MemoSeq.Producer H) (i : Nat) :
    C.told [c.begun p] i = C.load p i := by
  cases c with
  | read r | pull s r => cases p <;> rfl

namespace LeadsBy

theorem trans (h : C.LeadsBy n w w') (h' : C.LeadsBy k w' w'') :
    C.LeadsBy (fun i => n i + k i) w w'' where
  holds := h'.holds
  extends_ := h.extends_.trans h'.extends_
  course visits := by
    obtain ⟨past, hpast, htally⟩ := h.course visits
    obtain ⟨past', hpast', htally'⟩ := h'.course visits
    refine ⟨past' ++ past, hpast.trans hpast', fun i => ?_⟩
    rw [htally', htally, told_append]
    omega

/-- A call of a producer.  What was owed for it while it ran is told of now. -/
theorem call {c : Call} {p p' : MemoSeq.Producer H} {x : Option MemoSeq.Item} {v : World H}
    {depth : Nat} (hbegins : c.Begins w p)
    (hposition : c.reader.position = (w.tape c.tape).log.size) (hpermits : C.Permits (c.begun p))
    (hopened : C.Holds (c.opened w)) (hrun : (Engine.next (.ofBehavior C.behavior depth) p).run
      (c.opened w) = .ok ((x, p'), v))
    (hleads : C.LeadsBy (C.load p) (c.opened w) v) (hextends : w.Extends (c.answered v x p'))
    (hholds : C.Holds (c.answered v x p')) : C.Leads w (c.answered v x p') := by
  refine ⟨hholds, hextends, fun visits => ?_⟩
  obtain ⟨past, hpast, htally⟩ := hleads.course (.call c p (c.opened w) depth :: visits)
  have hstands : (c.begun p).Stands w := by cases c <;> exact hposition
  have hcall := Course.here.next (.begins visits c depth hbegins) hstands hpermits hopened
  have hreturned : (c.returned x p').Stands v ∧ C.Permits (c.returned x p') ∧
      (c.returned x p').source? = none := by
    cases c <;> exact ⟨trivial, trivial, rfl⟩
  refine ⟨_, (hcall.trans hpast).next (.returns visits c depth hrun) hreturned.1 hreturned.2.1
    hholds, fun i => ?_⟩
  rw [told_cons_of_none hreturned.2.2, told_append, told_begun]
  have hgrown := htally i
  rw [c.host_opened] at hgrown
  rw [c.host_answered, hgrown]
  omega

theorem refl (hw : C.Holds w) : C.Leads w w :=
  ⟨hw, .refl w, fun _ => ⟨[], .here, fun _ => rfl⟩⟩

/-- One deed that begins and ends nothing, and a change to the tally that is owed. -/
theorem deedBy {d : Deed H} (hdoes : ∀ calls : List Call, Moment.Does ⟨w, calls⟩ d ⟨w', calls⟩)
    (hd : d.IsAside) (hpermits : C.Permits d)
    (hextends : w.Extends w') (hw' : C.Holds w')
    (htally : ∀ i, C.tally w'.host i = C.tally w.host i + n i) : C.LeadsBy n w w' := by
  have hstands : d.Stands w ∧ d.source? = none := by
    cases d <;> first | exact ⟨trivial, rfl⟩ | exact hd.elim
  refine ⟨hw', hextends, fun visits => ⟨[d], ?_, fun i => ?_⟩⟩
  · exact Course.here.next (.aside hd (hdoes _)) hstands.1 hpermits hw'
  · rw [told_cons_of_none hstands.2, htally]
    rfl

theorem deed {d : Deed H} (hdoes : ∀ calls : List Call, Moment.Does ⟨w, calls⟩ d ⟨w', calls⟩)
    (hd : d.IsAside) (hpermits : C.Permits d)
    (hextends : w.Extends w') (hw' : C.Holds w') (htally : C.tally w'.host = C.tally w.host) :
    C.Leads w w' :=
  deedBy hdoes hd hpermits hextends hw' fun i => congrFun htally i

end LeadsBy

/-! ### Acts in a row -/

section Acts

variable {a : Act H α} {f : α → Act H β} {Q Q' : World H → α → Prop} {P : World H → β → Prop}

theorem KeepsBy.mono (h : C.KeepsBy n w a Q) (hQ : ∀ x w', C.LeadsBy n w w' → Q w' x → Q' w' x) :
    C.KeepsBy n w a Q' := by
  intro x w' hrun
  obtain ⟨hleads, hx⟩ := h hrun
  exact ⟨hleads, hQ x w' hleads hx⟩

theorem KeepsBy.bind (ha : C.KeepsBy n w a Q)
    (hf : ∀ x w', C.LeadsBy n w w' → Q w' x → C.KeepsBy k w' (f x) P) :
    C.KeepsBy (fun i => n i + k i) w (a >>= f) P := by
  intro y w'' hrun
  obtain ⟨x, w', hx, hy⟩ := Act.run_bind_eq_ok.mp hrun
  obtain ⟨hleads, hQ⟩ := ha hx
  obtain ⟨hleads', hP⟩ := hf x w' hleads hQ hy
  exact ⟨hleads.trans hleads', hP⟩

theorem KeepsBy.starve : C.KeepsBy n w (Act.starve : Act H α) Q :=
  fun _ _ h => (Act.run_starve_eq_ok.mp h).elim

namespace Keeps

theorem pure {x : α} (hw : C.Holds w) (hx : Q w x) : C.Keeps w (pure x) Q := by
  intro y w' hrun
  obtain ⟨rfl, rfl⟩ := Act.run_pure_eq_ok.mp hrun
  exact ⟨.refl hw, hx⟩

theorem abort : C.Keeps w (Act.abort : Act H α) Q :=
  fun _ _ h => (Act.run_abort_eq_ok.mp h).elim

theorem bind (ha : C.Keeps w a Q)
    (hf : ∀ x w', C.Leads w w' → Q w' x → C.Keeps w' (f x) P) : C.Keeps w (a >>= f) P :=
  KeepsBy.bind ha hf

theorem get_bind {f : World H → Act H β} (hf : C.Keeps w (f w) P) :
    C.Keeps w (get >>= f) P := by
  intro y w'' hrun
  obtain ⟨x, w', hx, hy⟩ := Act.run_bind_eq_ok.mp hrun
  obtain ⟨rfl, rfl⟩ := Act.run_get_eq_ok.mp hx
  exact hf hy

theorem modify {f : World H → World H} {P : World H → Unit → Prop} (h : C.Leads w (f w))
    (hP : P (f w) ()) : C.Keeps w (modify f : Act H Unit) P := by
  intro y w' hrun
  rw [Act.run_modify_eq_ok.mp hrun]
  exact ⟨h, hP⟩

end Keeps

/-- A call of an iterator of the host before any tape is made of it, which is told of. -/
theorem Drives.pull_ahead {E : Engine H} (hE : C.Drives E) {s : H.Source} (hw : C.Holds w)
    (hs : C.source s) : C.Keeps w (E.pull s) fun _ x =>
      (∀ y, x.1 = some (.ok y) → C.External y) ∧ C.source x.2 := by
  intro x w' hrun
  obtain ⟨hleads, hx⟩ := hE.pull hw hs hrun
  obtain ⟨depth, rfl⟩ := hE.depth
  refine ⟨⟨hleads.holds, hleads.extends_, fun visits => ?_⟩, hx⟩
  obtain ⟨past, hpast, htally⟩ := hleads.course (.ahead s w depth :: visits)
  have hcall := Course.here.next (.ahead w visits s depth) trivial trivial hw
  refine ⟨_, (hcall.trans hpast).next (.cameAhead visits s depth hrun) trivial trivial
    hleads.holds, fun i => ?_⟩
  have htold : C.told [.ahead s] i = C.worth s i := rfl
  rw [told_cons_of_none rfl, told_append, htold, htally]
  omega

end Acts

namespace Tries

variable {a : ExceptT ε (Act H) α} {f : α → ExceptT ε (Act H) β} {Q : World H → α → Prop}
variable {P : World H → β → Prop}

theorem pure {x : α} (hw : C.Holds w) (hx : Q w x) :
    C.Tries w (pure x : ExceptT ε (Act H) α) Q := by
  refine Keeps.pure hw ?_
  intro y hy
  cases hy
  exact hx

theorem throw {e : ε} (hw : C.Holds w) : C.Tries w (throw e : ExceptT ε (Act H) α) Q :=
  Keeps.pure hw nofun

theorem lift {a : Act H α} (h : C.Keeps w a Q) :
    C.Tries w (ExceptT.lift a : ExceptT ε (Act H) α) Q := by
  intro y w' hrun
  obtain ⟨x, hx, rfl⟩ := Attempt.run_lift_eq_ok.mp hrun
  obtain ⟨hleads, hQ⟩ := h hx
  refine ⟨hleads, ?_⟩
  intro z hz
  cases hz
  exact hQ

theorem ofOutcome {r : Outcome α} (hw : C.Holds w) (hr : ∀ x, r = .ok x → Q w x) :
    C.Tries w (Attempt.ofOutcome r : Attempt H α) Q :=
  Keeps.pure hw hr

theorem bind (ha : C.Tries w a Q)
    (hf : ∀ x w', C.Leads w w' → Q w' x → C.Tries w' (f x) P) : C.Tries w (a >>= f) P := by
  intro y w'' hrun
  rcases Attempt.run_bind_eq_ok.mp hrun with ⟨x, w', hx, hy⟩ | ⟨e, he, rfl⟩
  · obtain ⟨hleads, hQ⟩ := ha hx
    obtain ⟨hleads', hP⟩ := hf x w' hleads (hQ x rfl) hy
    exact ⟨hleads.trans hleads', hP⟩
  · exact ⟨(ha he).1, nofun⟩

theorem get_bind {f : World H → ExceptT ε (Act H) β} (hf : C.Tries w (f w) P) :
    C.Tries w (get >>= f) P := by
  intro y w'' hrun
  have hsame : (get >>= f : ExceptT ε (Act H) β).run.run w = (f w).run.run w :=
    Attempt.run_bind_of_ok rfl
  rw [hsame] at hrun
  exact hf hrun

theorem modify {f : World H → World H} {P : World H → Unit → Prop} (h : C.Leads w (f w))
    (hP : P (f w) ()) : C.Tries w (modify f : ExceptT ε (Act H) Unit) P :=
  lift (Keeps.modify h hP)

/-- One attempt for each member of a list.  What is asked of a member, and what is said
    of a result, has to stand while the others are tried. -/
theorem mapM {f : α → ExceptT ε (Act H) β} {A : α → Prop} {B : β → Prop} (hw : C.Holds w)
    (hf : ∀ x w', C.Holds w' → A x → C.Tries w' (f x) fun _ y => B y) {xs : List α}
    (hxs : ∀ x ∈ xs, A x) : C.Tries w (xs.mapM f) fun _ ys => ∀ y ∈ ys, B y := by
  induction xs generalizing w with
  | nil => exact .pure hw (by simp)
  | cons x xs ih =>
    rw [List.mapM_cons]
    refine (hf x w hw (hxs x List.mem_cons_self)).bind ?_
    intro y w' hleads hy
    refine (ih hleads.holds fun z hz => hxs z (List.mem_cons_of_mem _ hz)).bind ?_
    intro ys w'' hleads' hys
    exact .pure hleads'.holds (by simpa using ⟨hy, hys⟩)

end Tries

/-! ### What stands -/

theorem Deferred.mono {state : MemoSeq.Deferred Sequence MemoSeq.Iteration}
    (h : C.Deferred w state) (hw : w.Extends w') : C.Deferred w' state := by
  cases state with
  | opened i => exact Admission.Iteration.mono h hw
  | pending | finished => trivial

theorem Producer.mono {p : MemoSeq.Producer H} (h : C.Producer w p) (hw : w.Extends w') :
    C.Producer w' p := by
  cases p with
  | source | container | values | documents => exact h
  | reader r => exact Reader.Stands.mono h hw
  | filtered test state => exact ⟨h.1, Deferred.mono h.2 hw⟩
  | joined left right => exact ⟨fun i hi => (h.1 i hi).mono hw, Deferred.mono h.2 hw⟩
  | strided start step state =>
    cases state with
    | pending | opened | finished => exact h

namespace Holds

/-- The parts of a world that stay the same are in custody as before. -/
theorem updateTape (hw : C.Holds w) (t : Tape) {f : TapeState H → TapeState H}
    (hsize : (w.tape t).log.size ≤ (f (w.tape t)).log.size)
    (hlog : ∀ (i : Nat) (v : Value), (f (w.tape t)).log[i]? = some (.ok v) → C.admits v)
    (hidle : ∀ p, (f (w.tape t)).phase = .idle p → C.Producer w p) :
    C.Holds (w.updateTape t f) := by
  have hextends := w.extends_updateTape t hsize
  refine ⟨hw.since, ?_, ?_, hw.cached, ?_, C.host_mono hextends hw.host⟩
  · intro q i v hv
    rw [World.tape_updateTape] at hv
    split at hv
    case isTrue h =>
      obtain ⟨rfl, -⟩ := h
      exact hlog i v hv
    case isFalse => exact hw.logged q i v hv
  · intro q p hp
    rw [World.tape_updateTape] at hp
    split at hp
    case isTrue h =>
      obtain ⟨rfl, -⟩ := h
      exact (hidle p hp).mono hextends
    case isFalse => exact (hw.idle q p hp).mono hextends
  · intro s r hr
    exact (hw.reading s r hr).mono hextends

theorem updateSequence (hw : C.Holds w) (s : Sequence) {f : SequenceState → SequenceState}
    (hcache : ∀ (i : Nat) (v : Value), (f (w.sequence s)).cache[i]? = some v → C.admits v)
    (hreader : ∀ r, (f (w.sequence s)).reader = some r → r.Stands w) :
    C.Holds (w.updateSequence s f) := by
  have hextends := w.extends_updateSequence s f
  refine ⟨by simpa using hw.since, hw.logged, ?_, ?_, ?_, C.host_mono hextends hw.host⟩
  · intro t p hp
    exact (hw.idle t p hp).mono hextends
  · intro u i v hv
    rw [World.sequence_updateSequence] at hv
    split at hv
    case isTrue h =>
      obtain ⟨rfl, -⟩ := h
      exact hcache i v hv
    case isFalse => exact hw.cached u i v hv
  · intro u r hr
    rw [World.sequence_updateSequence] at hr
    split at hr
    case isTrue h =>
      obtain ⟨rfl, -⟩ := h
      exact (hreader r hr).mono hextends
    case isFalse => exact (hw.reading u r hr).mono hextends

/-- The tapes and the sequences are the same. -/
theorem congr (hw : C.Holds w) (htapes : w'.tapes = w.tapes)
    (hsequences : w'.sequences = w.sequences) (hhost : C.host w w'.host) : C.Holds w' := by
  have htape : ∀ t : Tape, w'.tape t = w.tape t := fun t => by rw [World.tape, htapes]; rfl
  have hsequence : ∀ s : Sequence, w'.sequence s = w.sequence s := fun s => by
    rw [World.sequence, hsequences]; rfl
  have hextends := World.Extends.of_eq htapes hsequences
  refine ⟨by rw [hsequences]; exact hw.since, ?_, ?_, ?_, ?_, C.host_mono hextends hhost⟩
  · intro t
    rw [htape]
    exact hw.logged t
  · intro t p hp
    rw [htape] at hp
    exact (hw.idle t p hp).mono hextends
  · intro s
    rw [hsequence]
    exact hw.cached s
  · intro s r hr
    rw [hsequence] at hr
    exact (hw.reading s r hr).mono hextends

theorem withTape (hw : C.Holds w) {p : MemoSeq.Producer H} (hp : C.Producer w p) :
    C.Holds (w.withTape p) := by
  have hextends := w.extends_withTape p
  have hnew : ∀ t : Tape, w.tapes.size ≤ t.id →
      (w.withTape p).tape t = ⟨#[], .idle p⟩ ∨ (w.withTape p).tape t = default := by
    intro t ht
    rcases Nat.lt_or_eq_of_le ht with hlt | heq
    · right
      simp [World.withTape, World.tape, Array.getD, Nat.not_lt.mpr hlt]
    · left
      have hfresh : t = w.freshTape := by
        cases t
        exact congrArg Tape.mk heq.symm
      simp [hfresh]
  refine ⟨hw.since, ?_, ?_, hw.cached, fun s r hr => (hw.reading s r hr).mono hextends,
    C.host_mono hextends hw.host⟩
  · intro t i v hv
    rcases Nat.lt_or_ge t.id w.tapes.size with hlt | hge
    · rw [World.tape_withTape_of_lt p hlt] at hv
      exact hw.logged t i v hv
    · rcases hnew t hge with h | h
      · simp [h] at hv
      · simp [h, default] at hv
  · intro t q hq
    rcases Nat.lt_or_ge t.id w.tapes.size with hlt | hge
    · rw [World.tape_withTape_of_lt p hlt] at hq
      exact (hw.idle t q hq).mono hextends
    · rcases hnew t hge with h | h
      · rw [h] at hq
        cases hq
        exact hp.mono hextends
      · rw [h] at hq
        cases hq

theorem withSequence (hw : C.Holds w) {p : MemoSeq.Producer H} (hp : C.Producer w p)
    (infinite : Bool) : C.Holds (w.withSequence p infinite) := by
  have hextends := w.extends_withSequence p infinite
  have hlater : (w.withTape p).Extends (w.withSequence p infinite) :=
    ⟨Nat.le_refl _, fun _ => Nat.le_refl _, by simp [World.withTape]⟩
  have htape := hw.withTape hp
  refine ⟨Nat.le_trans hw.since hextends.sequences, htape.logged, ?_, ?_, ?_,
    C.host_mono hextends hw.host⟩
  · intro t q hq
    exact (htape.idle t q hq).mono hlater
  · intro s i v hv
    rw [World.sequence_withSequence] at hv
    split at hv
    · simp at hv
    · exact hw.cached s i v hv
  · intro s r hr
    rw [World.sequence_withSequence] at hr
    split at hr
    · cases hr
      exact ⟨by simp [World.freshTape], Nat.zero_le _⟩
    · exact (hw.reading s r hr).mono hextends

theorem overwrite (hw : C.Holds w) (s : Sequence) (position : Nat) {v : Value}
    (hv : C.admits v) : C.Holds (w.overwrite s position v) := by
  refine hw.updateSequence s ?_ ?_
  · intro i u hu
    split at hu
    · simp only [Array.getElem?_setIfInBounds] at hu
      split at hu
      · cases hu
        exact hv
      · exact hw.cached s i u hu
    · exact hw.cached s i u hu
  · intro r hr
    split at hr <;> exact hw.reading s r hr

theorem running (hw : C.Holds w) (t : Tape) : C.Holds (w.running t) := by
  refine hw.updateTape t (Nat.le_refl _) (hw.logged t) ?_
  intro p hp
  cases hp

theorem recorded (hw : C.Holds w) (t : Tape) {x : Option MemoSeq.Item} {p : MemoSeq.Producer H}
    (hx : C.Item x) (hp : C.Producer w p) : C.Holds (w.recorded t x p) := by
  refine hw.updateTape t ?_ ?_ ?_
  · rw [World.size_log_recorded]
    exact Nat.le_add_right _ _
  · intro i v hv
    rw [TapeState.log_recorded, Array.getElem?_append] at hv
    split at hv
    · exact hw.logged t i v hv
    · exact hx v (by simpa using Array.mem_of_getElem? hv)
  · intro q hq
    match x with
    | none | some (.error _) => cases hq
    | some (.ok _) =>
      cases hq
      exact hp

theorem waiting (hw : C.Holds w) (s : Sequence) : C.Holds (w.waiting s) :=
  hw.updateSequence s (f := SequenceState.waiting) (hw.cached s) nofun

theorem settled (hw : C.Holds w) (s : Sequence) {x : Option MemoSeq.Item} {r : Reader}
    (hx : C.Item x) (hr : r.Stands w) : C.Holds (w.settled s x r) := by
  refine hw.updateSequence s ?_ ?_
  · intro i v hv
    match x with
    | none | some (.error _) => exact hw.cached s i v hv
    | some (.ok u) =>
      simp only [SequenceState.settled, Array.getElem?_push] at hv
      split at hv
      · cases hv
        exact hx _ rfl
      · exact hw.cached s i v hv
  · intro q hq
    match x with
    | none =>
      simp only [SequenceState.settled] at hq
      split at hq
      · cases hq
      · cases hq
        exact hr
    | some (.error _) => cases hq
    | some (.ok _) =>
      cases hq
      exact hr

/-- Whatever may be iterated over may be held. -/
theorem iteration (hw : C.Holds w) (s : Sequence) : C.Iteration w (w.iteration s) := by
  constructor
  · intro v hv
    obtain ⟨i, hi⟩ := List.mem_iff_getElem?.mp hv
    exact hw.cached s i v (by simpa [World.iteration] using hi)
  · intro r hr
    refine hw.reading s r ?_
    simp only [World.iteration] at hr
    split at hr
    · cases hr
    · exact hr

end Holds

end Custody

end MemoSeq
