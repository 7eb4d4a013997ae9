/-
  MemoSeq/Proofs/Session/Custody.lean
  ===================================
  **Every step of a session keeps to a custody.**

  What a session holds under its names is in custody: the sequences may be held, the
  iterations and branches stand.  Scripts hold no values, only terms for them, and each
  value that a term is read as may be held.  So every step keeps to the custody, at the
  top level and in hooks (`Session.answer_keeps`, `Session.custody_kept`), and a session
  as a whole is a course through worlds in custody (`Session.mapM_step_keeps`).

  What a step answers with is in custody as well: a snapshot shows what is held and what
  is cached, and nothing else (`Custody.Holds.snapshot`).
-/
import MemoSeq.Proofs.Custody.Operations
import MemoSeq.Proofs.Session.Lawful

namespace MemoSeq

theorem Admission.ratio (A : Admission) {num den : Int} {v : Value}
    (hv : Value.ratio? num den = some v) : A.admits v := by
  unfold Value.ratio? at hv
  split at hv
  · cases hv
  · cases hv
    exact A.ofRat _

/-! ### Answers -/

/-- Every number and text that a snapshot shows has the property. -/
inductive Snapshot.All (P : Value → Prop) : Snapshot → Prop
  | int (n : Int) : P (.int n) → All P (.int n)
  | rational (r : Rat) : P (.rational r) → All P (.rational r)
  | str (text : String) : P (.str text) → All P (.str text)
  | list (cached : List Snapshot) (exhausted infinite : Bool) :
      (∀ s ∈ cached, All P s) → All P (.list cached exhausted infinite)

/-- A snapshot shows what may be held, since all that is cached may be. -/
theorem Custody.Holds.snapshotWithin {H : Host} {C : Custody H} {w : World H} (hw : C.Holds w)
    (depth : Nat) {v : Value} (hv : C.admits v) : (w.snapshotWithin depth v).All C.admits := by
  induction depth generalizing v with
  | zero =>
    cases v with
    | int n => exact .int n hv
    | rational r => exact .rational r hv
    | str text => exact .str text hv
    | list s => exact .list [] _ _ nofun
  | succ depth ih =>
    cases v with
    | int n => exact .int n hv
    | rational r => exact .rational r hv
    | str text => exact .str text hv
    | list s =>
      refine .list _ _ _ ?_
      intro shown hshown
      obtain ⟨u, hu, rfl⟩ := List.mem_map.mp hshown
      obtain ⟨i, hi⟩ := List.mem_iff_getElem?.mp hu
      exact ih (hw.cached s i u (by simpa using hi))

theorem Custody.Holds.snapshot {H : Host} {C : Custody H} {w : World H} (hw : C.Holds w)
    {v : Value} (hv : C.admits v) : (w.snapshot v).All C.admits :=
  hw.snapshotWithin _ hv

namespace Session

/-- Every value that is shown in an answer has the property. -/
def Answer.All (P : Value → Prop) : Answer → Prop
  | .value s | .sliceSequence _ s => s.All P
  | .values shown | .sliceItems _ shown => ∀ s ∈ shown, s.All P
  | .items taken _ => ∀ s, .ok s ∈ taken → s.All P
  | _ => True

def Event.All (P : Value → Prop) : Event → Prop
  | .answered a => a.All P
  | .called => True

structure Report.All (P : Value → Prop) (r : Report) : Prop where
  answer : r.answer.All P
  events : ∀ e ∈ r.events, e.All P

/-! ### Names -/

namespace Names

variable {α : Type} {P : α → Prop} {names : Names α} {name : String} {a : α}

def All (P : α → Prop) (names : Names α) : Prop := ∀ b ∈ names.bindings, P b.2

theorem All.find? (h : names.All P) (hfind : names.find? name = some a) : P a := by
  obtain ⟨b, hb, rfl⟩ := Option.map_eq_some_iff.mp hfind
  exact h b (List.mem_of_find?_eq_some hb)

theorem All.erase (h : names.All P) (name : String) : (names.erase name).All P :=
  fun b hb => h b (List.mem_filter.mp hb).1

theorem All.insert (h : names.All P) (name : String) (ha : P a) : (names.insert name a).All P := by
  intro b hb
  simp only [Names.insert, List.mem_append, List.mem_cons] at hb
  rcases hb with hb | rfl | hb
  · exact h.erase name b ((List.takeWhile_sublist _).subset hb)
  · exact ha
  · exact h.erase name b ((List.dropWhile_sublist _).subset hb)

theorem All.mono {Q : α → Prop} (h : names.All P) (hPQ : ∀ a, P a → Q a) : names.All Q :=
  fun b hb => hPQ _ (h b hb)

end Names

/-! ### Desks and conditions -/

structure Desk.Holds (A : Admission) (w : World host) (d : Desk) : Prop where
  sequences : d.sequences.All fun s => A.admits (.list s)
  iterations : d.iterations.All fun i => A.Iteration w i
  branches : d.branches.All fun r => r.Stands w
  events : ∀ e ∈ d.events, e.All A.admits

theorem Desk.Holds.mono {A : Admission} {w w' : World host} {d : Desk} (h : d.Holds A w)
    (hw : w.Extends w') : d.Holds A w' where
  sequences := h.sequences
  iterations := h.iterations.mono fun _ hi => hi.mono hw
  branches := h.branches.mono fun _ hr => hr.mono hw
  events := h.events

theorem Desk.Holds.note {A : Admission} {w : World host} {d : Desk} (h : d.Holds A w) {e : Event}
    (he : e.All A.admits) : (d.note e).Holds A w :=
  { h with events := List.forall_mem_cons.mpr ⟨he, h.events⟩ }

def Condition.Holds (A : Admission) : Condition Value Step → Prop
  | .equalTo v | .unequalTo v | .below v | .atMost v | .above v | .atLeast v | .failsOn v _ =>
    A.admits v
  | _ => True

def custody (A : Admission) : Custody host where
  toAdmission := A
  behavior := behavior
  settings := True
  source _ := True
  test := Condition.Holds A
  host w d := d.Holds A w
  host_mono hw h := h.mono hw
  tally := Desk.count
  worth s i := if s.counter = some i then 1 else 0

section Steps

variable {A : Admission} {w : World host} {α : Type} {Q : World host → α → Prop}

theorem changeDesk_keeps (hw : (custody A).Holds w) {f : Desk → Desk}
    (hf : (f w.host).Holds A w) (hcount : (f w.host).counts = w.host.counts) :
    (custody A).Keeps w (changeDesk f) fun _ _ => True :=
  .modify (.deed (fun calls => .host w calls (f w.host)) trivial trivial (.of_eq rfl rfl)
    (hw.congr rfl rfl hf) (funext fun i => by simp [custody, Desk.count, hcount])) trivial

/-- A call that is counted, for whoever makes it. -/
theorem countCall_keeps (hw : (custody A).Holds w) (s : Script) :
    (custody A).KeepsBy ((custody A).worth s) w (changeDesk (·.countCall s.counter))
      fun _ _ => True := by
  have hcount : (w.host.countCall s.counter).Holds A w := by
    cases s.counter <;> exact { hw.host with }
  intro y w' hrun
  cases hrun
  exact ⟨.deedBy (fun calls => .host w calls _) trivial trivial (.of_eq rfl rfl)
    (hw.congr rfl rfl hcount) fun i => w.host.count_countCall s.counter i, trivial⟩

theorem withDesk_keeps (hw : (custody A).Holds w) {f : Desk → α × Desk}
    (hf : (f w.host).2.Holds A w) (hcount : ∀ i, (f w.host).2.count i = w.host.count i) :
    (custody A).Keeps w (withDesk f) fun _ x => x = (f w.host).1 := by
  intro x w' hrun
  cases hrun
  exact ⟨.deed (fun calls => .host w calls (f w.host).2) trivial trivial (.of_eq rfl rfl)
    (hw.congr rfl rfl hf) (funext hcount), rfl⟩

/-- What a turn does from this world on keeps to the custody.  Its result has the property,
    and an answer that ends it early shows what may be held. -/
def Turn.Keeps (A : Admission) (w : World host) (t : Turn α) (Q : World host → α → Prop) : Prop :=
  (custody A).Keeps w t.run fun w' y =>
    (∀ x, y = .ok x → Q w' x) ∧ ∀ a, y = .error a → a.All A.admits

namespace Turn

section Rules

variable {β : Type} {t : Turn α} {f : α → Turn β} {P : World host → β → Prop}

theorem Keeps.pure {x : α} (hw : (custody A).Holds w) (hx : Q w x) :
    Turn.Keeps A w (pure x : Turn α) Q := by
  refine Custody.Keeps.pure hw ⟨?_, nofun⟩
  rintro y ⟨⟩
  exact hx

theorem Keeps.throw {a : Answer} (hw : (custody A).Holds w) (ha : a.All A.admits) :
    Turn.Keeps A w (throw a : Turn α) Q := by
  refine Custody.Keeps.pure hw ⟨nofun, ?_⟩
  rintro b ⟨⟩
  exact ha

theorem Keeps.bind (ht : Turn.Keeps A w t Q)
    (hf : ∀ x w', (custody A).Leads w w' → Q w' x → Turn.Keeps A w' (f x) P) :
    Turn.Keeps A w (t >>= f) P := by
  intro y w'' hrun
  rcases Attempt.run_bind_eq_ok.mp hrun with ⟨x, w', hx, hy⟩ | ⟨a, ha, rfl⟩
  · obtain ⟨hleads, hQ, -⟩ := ht hx
    obtain ⟨hleads', hP⟩ := hf x w' hleads (hQ x rfl) hy
    exact ⟨hleads.trans hleads', hP⟩
  · obtain ⟨hleads, -, hall⟩ := ht ha
    refine ⟨hleads, nofun, ?_⟩
    rintro b ⟨⟩
    exact hall a rfl

theorem Keeps.map {f : α → β} (ht : Turn.Keeps A w t Q) (hf : ∀ x w', Q w' x → P w' (f x)) :
    Turn.Keeps A w (f <$> t) P := by
  rw [map_eq_pure_bind]
  exact ht.bind fun x w' hleads hx => .pure hleads.holds (hf x w' hx)

theorem Keeps.get_bind {f : World host → Turn β} (hf : Turn.Keeps A w (f w) P) :
    Turn.Keeps A w (get >>= f) P := by
  intro y w'' hrun
  have hsame : (get >>= f : Turn β).run.run w = (f w).run.run w := Attempt.run_bind_of_ok rfl
  rw [hsame] at hrun
  exact hf hrun

end Rules

theorem lift_keeps {a : Attempt host α} (ha : (custody A).Tries w a Q) :
    Turn.Keeps A w (liftM a : Turn α) Q := by
  change Turn.Keeps A w (MonadLift.monadLift a : Turn α) Q
  simp only [MonadLift.monadLift]
  refine Custody.Keeps.bind ha ?_
  intro r w' hleads hr
  cases r with
  | ok x => exact Turn.Keeps.pure hleads.holds (hr x rfl)
  | error e => exact Turn.Keeps.throw hleads.holds trivial

theorem lift_act_keeps {a : Act host α} (ha : (custody A).Keeps w a Q) :
    Turn.Keeps A w (liftM a : Turn α) Q :=
  lift_keeps (.lift ha)

end Turn

theorem sequence_keeps (hw : (custody A).Holds w) (name : String) :
    Turn.Keeps A w (sequence name) fun _ s => A.admits (.list s) := by
  refine .get_bind ?_
  split
  case h_1 s hs => exact .pure hw (hw.host.sequences.find? hs)
  case h_2 => exact .throw hw trivial

theorem branch_keeps (hw : (custody A).Holds w) (name : String) :
    Turn.Keeps A w (branch name) fun w' r => r.Stands w' := by
  refine .get_bind ?_
  split
  case h_1 r hr => exact .pure hw (hw.host.branches.find? hr)
  case h_2 => exact .throw hw trivial

theorem newScript_keeps (hw : (custody A).Holds w) (supply : Supply Entry)
    (counter : Option String) :
    (custody A).Keeps w (newScript supply counter) fun _ _ => True := by
  have hcount : (w.host.newCount counter).2.Holds A w := by
    cases counter <;> exact { hw.host with }
  exact (withDesk_keeps hw hcount (w.host.count_newCount counter)).bind
    fun _ _ hleads _ => .pure hleads.holds trivial

/-! ### Terms -/

mutual

theorem Term.read_keeps {w : World host} (hw : (custody A).Holds w) : ∀ t : Term,
    Turn.Keeps A w t.read fun _ x => (custody A).External x
  | .int n => .pure hw (.int n)
  | .rational r => .pure hw (.rational r)
  | .float x => .pure hw (.float x)
  | .str text => .pure hw (.str text)
  | .symbolic s => .pure hw (.symbolic s)
  | .items terms => (Term.readAll_keeps hw terms).bind fun items _ hleads hitems =>
      .pure hleads.holds (.items (C := custody A) items hitems)
  | .named name => (sequence_keeps hw name).bind fun s _ hleads hs =>
      .pure hleads.holds (.value (.list s) hs)
  | .canonical t => (Term.read_keeps hw t).bind fun _ _ hleads hx =>
      (Turn.lift_keeps (canonicalize_keeps hleads.holds hx)).bind fun v _ hleads' hv =>
        .pure hleads'.holds (.value v hv)
  | .iterator supply counter =>
      (Turn.lift_act_keeps (newScript_keeps hw supply counter)).bind fun script _ hleads _ =>
        .pure hleads.holds (.iterator (C := custody A) script trivial)

theorem Term.readAll_keeps {w : World host} (hw : (custody A).Holds w) : ∀ terms : List Term,
    Turn.Keeps A w (Term.readAll terms) fun _ items => ∀ x ∈ items, (custody A).External x
  | [] => .pure hw (by simp)
  | t :: terms => (Term.read_keeps hw t).bind fun _ _ hleads hx =>
      (Term.readAll_keeps hleads.holds terms).bind fun _ _ hleads' hitems =>
        .pure hleads'.holds (by simpa using ⟨hx, hitems⟩)

end

theorem Term.value_keeps (hw : (custody A).Holds w) (t : Term) :
    Turn.Keeps A w t.value fun _ v => A.admits v :=
  (Term.read_keeps hw t).bind fun _ _ hleads hx =>
    Turn.lift_keeps (canonicalize_keeps hleads.holds hx)

theorem Flat.toExternal_holds : ∀ f : Flat, (custody A).External f.toExternal
  | .int n => by simpa [Flat.toExternal] using .int n
  | .float x => by simpa [Flat.toExternal] using .float x
  | .str text => by simpa [Flat.toExternal] using .str text
  | .list items => by
    rw [Flat.toExternal]
    refine .items _ ?_
    intro x hx
    obtain ⟨f, hf, rfl⟩ := List.mem_map.mp hx
    exact Flat.toExternal_holds f

theorem HostValue.toExternal_holds : ∀ v : HostValue, (custody A).External v.toExternal
  | .integer _ n => by simpa [HostValue.toExternal] using .int n
  | .single x => by simpa [HostValue.toExternal] using .float x.widen
  | .double x => by simpa [HostValue.toExternal] using .float x
  | .text s => by simpa [HostValue.toExternal] using .str s
  | .flat f => by simpa [HostValue.toExternal] using Flat.toExternal_holds f
  | .vector items => by
    rw [HostValue.toExternal]
    refine .items _ ?_
    intro x hx
    obtain ⟨v, hv, rfl⟩ := List.mem_map.mp hx
    exact HostValue.toExternal_holds v

mutual

theorem Offer.read_keeps {w : World Session.host} (hw : (custody A).Holds w) : ∀ o : Offer Term,
    Turn.Keeps A w o.read fun _ x => (custody A).External x
  | .host v => .pure hw (HostValue.toExternal_holds v)
  | .canonical t => (t.value_keeps hw).bind fun v _ hleads hv => .pure hleads.holds (.value v hv)
  | .external t => t.read_keeps hw
  | .named name => (sequence_keeps hw name).bind fun s _ hleads hs =>
      .pure hleads.holds (.value (.list s) hs)
  | .vector offers => (Offer.readAll_keeps hw offers).bind fun items _ hleads hitems =>
      .pure hleads.holds (.items (C := custody A) items hitems)

theorem Offer.readAll_keeps {w : World Session.host} (hw : (custody A).Holds w) :
    ∀ offers : List (Offer Term), Turn.Keeps A w (Offer.readAll offers)
      fun _ items => ∀ x ∈ items, (custody A).External x
  | [] => .pure hw (by simp)
  | o :: offers => (Offer.read_keeps hw o).bind fun _ _ hleads hx =>
      (Offer.readAll_keeps hleads.holds offers).bind fun _ _ hleads' hitems =>
        .pure hleads'.holds (by simpa using ⟨hx, hitems⟩)

end

theorem Condition.read_keeps (hw : (custody A).Holds w) (c : Condition Term Step) :
    Turn.Keeps A w c.read fun _ c => c.Holds A := by
  cases c with
  | all | none | number | even | kind | after => exact .pure hw trivial
  | equalTo t | unequalTo t | below t | atMost t | above t | atLeast t | failsOn t =>
    exact (t.value_keeps hw).bind fun _ _ hleads hv => .pure hleads.holds hv

/-! ### Answers, iterations and branches -/

theorem written_keeps (hw : (custody A).Holds w) {v : Value} (hv : A.admits v) :
    (custody A).Keeps w (written v) fun _ a => a.All A.admits :=
  .get_bind (.pure hw (hw.snapshot hv))

theorem writtenAll_keeps (hw : (custody A).Holds w) {vs : List Value}
    (hvs : ∀ v ∈ vs, A.admits v) :
    (custody A).Keeps w (writtenAll vs) fun _ shown => ∀ s ∈ shown, s.All A.admits := by
  refine .get_bind (.pure hw ?_)
  intro s hs
  obtain ⟨v, hv, rfl⟩ := List.mem_map.mp hs
  exact hw.snapshot (hvs v hv)

theorem bindTarget_keeps (hw : (custody A).Holds w) (target : Option String) {v : Value}
    (hv : A.admits v) : (custody A).Keeps w (bindTarget target v) fun _ _ => True := by
  unfold bindTarget
  split
  case h_1 name s =>
    exact changeDesk_keeps hw { hw.host with sequences := hw.host.sequences.insert name hv } rfl
  case h_2 => exact .pure hw trivial

theorem give_keeps (hw : (custody A).Holds w) (target : Option String) {v : Value}
    (hv : A.admits v) : (custody A).Keeps w (give target v) fun _ a => a.All A.admits :=
  (written_keeps hw hv).bind fun _ _ hleads ha =>
    (bindTarget_keeps hleads.holds target hv).bind fun _ _ hleads' _ => .pure hleads'.holds ha

theorem giveItem_keeps (hw : (custody A).Holds w) {item : Option Item}
    (hitem : (custody A).Item item) :
    (custody A).Keeps w (giveItem item) fun _ a => a.All A.admits := by
  match item with
  | none => exact .pure hw trivial
  | some (.ok v) => exact written_keeps hw (hitem v rfl)
  | some (.error e) => exact .pure hw trivial

section Driving

/-! What is driven has a property, which it keeps while other things are done. -/

variable {β : Type} {next : β → Act host (Option Item × β)} {P : World host → β → Prop}
variable (hnext : ∀ {w : World host} {b : β}, (custody A).Holds w → P w b →
  (custody A).Keeps w (next b) fun w' x => (custody A).Item x.1 ∧ P w' x.2)
variable (hmono : ∀ {w w' : World host} {b : β}, w.Extends w' → P w b → P w' b)
include hnext

theorem takeItems_keeps (hw : (custody A).Holds w) (count : Nat) {b : β} (hb : P w b)
    {taken : List (Outcome Snapshot)} (htaken : ∀ s, .ok s ∈ taken → s.All A.admits) :
    (custody A).Keeps w (takeItems next count b taken)
      fun w' x => x.1.All A.admits ∧ P w' x.2 := by
  induction count generalizing w b taken with
  | zero => exact .pure hw ⟨by simpa [Answer.All] using htaken, hb⟩
  | succ count ih =>
    refine (hnext hw hb).bind ?_
    rintro x w' hleads ⟨hitem, hb'⟩
    match x with
    | (none, b) => exact .pure hleads.holds ⟨by simpa [Answer.All] using htaken, hb'⟩
    | (some (.error e), b) => exact ih hleads.holds hb' (by simpa using htaken)
    | (some (.ok v), b) =>
      refine .get_bind (ih hleads.holds hb' ?_)
      intro s hs
      rcases List.mem_cons.mp hs with heq | hs
      · cases heq
        exact hleads.holds.snapshot (hitem v rfl)
      · exact htaken s hs

include hmono

theorem takeItem_keeps (hw : (custody A).Holds w) {b : β} (hb : P w b) :
    (custody A).Keeps w (takeItem next b) fun w' x => x.1.All A.admits ∧ P w' x.2 := by
  refine (hnext hw hb).bind ?_
  rintro x w' hleads ⟨hitem, hb'⟩
  refine (giveItem_keeps hleads.holds hitem).bind ?_
  exact fun _ w'' hleads' ha => .pure hleads'.holds ⟨ha, hmono hleads'.extends_ hb'⟩

end Driving

theorem withIteration_keeps (hw : (custody A).Holds w) (name : String)
    {drive : Iteration → Act host (Answer × Iteration)}
    (hdrive : ∀ {w i}, (custody A).Holds w → A.Iteration w i →
      (custody A).Keeps w (drive i) fun w' x => x.1.All A.admits ∧ A.Iteration w' x.2) :
    Turn.Keeps A w (withIteration name drive) fun _ a => a.All A.admits := by
  refine .get_bind ?_
  split
  case h_1 => exact .throw hw trivial
  case h_2 i hi =>
    have hin := hw.host.iterations.find? hi
    refine (Turn.lift_act_keeps (changeDesk_keeps hw
      { hw.host with iterations := hw.host.iterations.erase name } rfl)).bind ?_
    intro _ w₁ hleads₁ _
    refine (Turn.lift_act_keeps (hdrive hleads₁.holds (hin.mono hleads₁.extends_))).bind ?_
    rintro ⟨a, i'⟩ w₂ hleads₂ ⟨ha, hi'⟩
    have hw₂ := hleads₂.holds
    refine (Turn.lift_act_keeps (changeDesk_keeps hw₂
      { hw₂.host with iterations := hw₂.host.iterations.insert name hi' } rfl)).bind ?_
    exact fun _ w₃ hleads₃ _ => .pure hleads₃.holds ha

theorem withBranch_keeps (hw : (custody A).Holds w) (name : String)
    {drive : Reader → Act host (Answer × Reader)}
    (hdrive : ∀ {w r}, (custody A).Holds w → Reader.Stands w r →
      (custody A).Keeps w (drive r) fun w' x => x.1.All A.admits ∧ x.2.Stands w') :
    Turn.Keeps A w (withBranch name drive) fun _ a => a.All A.admits := by
  refine (branch_keeps hw name).bind ?_
  intro r w₀ hleads₀ hr
  have hw₀ := hleads₀.holds
  refine (Turn.lift_act_keeps (changeDesk_keeps hw₀
    { hw₀.host with branches := hw₀.host.branches.erase name } rfl)).bind ?_
  intro _ w₁ hleads₁ _
  refine (Turn.lift_act_keeps (hdrive hleads₁.holds (hr.mono hleads₁.extends_))).bind ?_
  rintro ⟨a, r'⟩ w₂ hleads₂ ⟨ha, hr'⟩
  have hw₂ := hleads₂.holds
  refine (Turn.lift_act_keeps (changeDesk_keeps hw₂
    { hw₂.host with branches := hw₂.host.branches.insert name hr' } rfl)).bind ?_
  exact fun _ w₃ hleads₃ _ => .pure hleads₃.holds ha

theorem nest_keeps (hw : (custody A).Holds w) (depth : Nat) {v : Value} (hv : A.admits v) :
    (custody A).Keeps w (nest depth v) fun _ v => A.admits v := by
  induction depth generalizing w v with
  | zero => exact .pure hw hv
  | succ depth ih =>
    have hvalues : ∀ u ∈ [v], A.admits u := by simpa using hv
    refine (Sequence.adopt_keeps hw (p := .values [v]) hvalues _).bind ?_
    exact fun s w' hleads hs => ih hleads.holds hs

/-! ### Steps -/

variable {E : Engine Session.host} (hE : (custody A).Drives E)
include hE

theorem skipCalls_keeps (hw : (custody A).Holds w) (count : Nat) (s : Script) :
    (custody A).Keeps w (skipCalls E count s) fun _ _ => True := by
  induction count generalizing w s with
  | zero => exact .pure hw trivial
  | succ count ih =>
    exact (hE.pull_ahead (s := s) hw trivial).bind fun x _ hleads _ => ih hleads.holds x.2

omit hE in
theorem answered_keeps (hw : (custody A).Holds w) {a : Answer} (ha : a.All A.admits) :
    Turn.Keeps A w (return a : Turn Answer) fun _ a => a.All A.admits := .pure hw ha

omit hE in
theorem given_keeps (hw : (custody A).Holds w) (target : Option String) {v : Value}
    (hv : A.admits v) :
    Turn.Keeps A w (give target v : Turn Answer) fun _ a => a.All A.admits :=
  Turn.lift_act_keeps (give_keeps hw target hv)

omit hE in
theorem named_keeps (hw : (custody A).Holds w) {a : Answer} (target : Option String) {v : Value}
    (hv : A.admits v) (ha : a.All A.admits) :
    Turn.Keeps A w (do bindTarget target v; return a : Turn Answer) fun _ a => a.All A.admits :=
  (Turn.lift_act_keeps (bindTarget_keeps hw target hv)).bind fun _ _ hleads _ =>
    answered_keeps hleads.holds ha

theorem turn_keeps_of_making (hw : (custody A).Holds w) {step : Step}
    (hsubject : step.subject = .making) :
    Turn.Keeps A w (turn E step) fun _ a => a.All A.admits := by
  cases step with
  | newContainer name items infinite =>
    refine (Term.readAll_keeps hw items).bind fun items w₁ hleads₁ hitems => ?_
    refine (Turn.lift_act_keeps (Sequence.adopt_keeps hleads₁.holds (p := .container items)
      hitems _)).bind fun s w₂ hleads₂ hs => ?_
    exact named_keeps hleads₂.holds _ hs trivial
  | newValues name items =>
    refine (Term.readAll_keeps hw items).bind fun items w₁ hleads₁ hitems => ?_
    refine (Turn.lift_keeps (.mapM hleads₁.holds (fun x w' hw' hx => canonicalize_keeps hw' hx)
      hitems)).bind fun values w₂ hleads₂ hvalues => ?_
    refine (Turn.lift_act_keeps (Sequence.adopt_keeps hleads₂.holds (p := .values values)
      hvalues _)).bind fun s w₃ hleads₃ hs => ?_
    exact named_keeps hleads₃.holds _ hs trivial
  | newScripted name supply infinite skip announced =>
    refine (Turn.lift_act_keeps (newScript_keeps hw _ _)).bind fun script w₁ hleads₁ _ => ?_
    refine (Turn.lift_act_keeps (skipCalls_keeps hE hleads₁.holds _ _)).bind
      fun script w₂ hleads₂ _ => ?_
    -- the script goes in the same way whether it is announced or not
    have rest {w : World host} (hw : (custody A).Holds w) : Turn.Keeps A w (do
        let s ← Sequence.ofSource (H := host) script infinite
        bindTarget name (.list s)
        return .nothing : Turn Answer) fun _ a => a.All A.admits :=
      (Turn.lift_act_keeps (Sequence.adopt_keeps hw (p := .source script) trivial _)).bind
        fun s _ hleads hs => named_keeps hleads.holds _ hs trivial
    dsimp only
    split
    · have hnoted : (w₂.host.note .called).Holds A w₂ := hleads₂.holds.host.note trivial
      refine (Turn.lift_act_keeps (changeDesk_keeps hleads₂.holds hnoted rfl)).bind ?_
      exact fun _ w₃ hleads₃ _ => rest hleads₃.holds
    · exact rest hleads₂.holds
  | «alias» list name =>
    exact (sequence_keeps hw _).bind fun s w₁ hleads₁ hs => named_keeps hleads₁.holds _ hs trivial
  | drop name =>
    refine (Turn.lift_act_keeps (withDesk_keeps hw (f := (·.drop name)) ⟨?_, ?_, ?_, ?_⟩
      fun _ => rfl)).bind
      fun _ w₁ hleads₁ _ => answered_keeps hleads₁.holds trivial
    · exact hw.host.sequences.erase name
    · exact hw.host.iterations.erase name
    · exact hw.host.branches.erase name
    · exact hw.host.events
  | identical list other =>
    exact (sequence_keeps hw _).bind fun _ w₁ hleads₁ _ =>
      (sequence_keeps hleads₁.holds _).bind fun _ w₂ hleads₂ _ =>
        answered_keeps hleads₂.holds trivial
  | _ => cases hsubject

theorem turn_keeps_of_lists (hw : (custody A).Holds w) {step : Step}
    (hsubject : step.subject = .lists) :
    Turn.Keeps A w (turn E step) fun _ a => a.All A.admits := by
  cases step with
  | advance list target =>
    refine (sequence_keeps hw _).bind fun s w₁ hleads₁ hs => ?_
    refine (Turn.lift_keeps (Sequence.advance_keeps hE hleads₁.holds hs)).bind
      fun x w₂ hleads₂ hx => ?_
    cases x with
    | none => exact answered_keeps hleads₂.holds trivial
    | some v => exact given_keeps hleads₂.holds target (hx v rfl)
  | get list index target =>
    refine (sequence_keeps hw _).bind fun s w₁ hleads₁ hs => ?_
    refine (Turn.lift_keeps (Sequence.read_keeps hE hleads₁.holds hs index)).bind
      fun v w₂ hleads₂ hv => ?_
    exact given_keeps hleads₂.holds target hv
  | set list index t =>
    -- the external value may name lists at the desk, which custody must cover too
    refine (t.read_keeps hw).bind fun x w₁ hleads₁ hx => ?_
    refine (sequence_keeps hleads₁.holds _).bind fun s w₂ hleads₂ hs => ?_
    refine (Turn.lift_keeps (Sequence.overwrite_keeps hE hleads₂.holds hs index hx)).bind
      fun _ w₃ hleads₃ _ => answered_keeps hleads₃.holds trivial
  | contains list t =>
    refine (sequence_keeps hw _).bind fun s w₁ hleads₁ hs => ?_
    refine (t.value_keeps hleads₁.holds).bind fun v w₂ hleads₂ hv => ?_
    exact (Turn.lift_keeps (Sequence.contains_keeps hE hleads₂.holds hs hv)).bind
      fun _ w₃ hleads₃ _ => answered_keeps hleads₃.holds trivial
  | count list t =>
    refine (sequence_keeps hw _).bind fun s w₁ hleads₁ hs => ?_
    refine (t.value_keeps hleads₁.holds).bind fun v w₂ hleads₂ hv => ?_
    exact (Turn.lift_keeps (Sequence.count_keeps hE hleads₂.holds hs hv)).bind
      fun _ w₃ hleads₃ _ => answered_keeps hleads₃.holds trivial
  | length list =>
    refine (sequence_keeps hw _).bind fun s w₁ hleads₁ hs => ?_
    exact (Turn.lift_keeps (Sequence.length_keeps hE hleads₁.holds hs)).bind
      fun _ w₂ hleads₂ _ => answered_keeps hleads₂.holds trivial
  | equals list t =>
    refine (sequence_keeps hw _).bind fun s w₁ hleads₁ hs => ?_
    refine (t.value_keeps hleads₁.holds).bind fun v w₂ hleads₂ hv => ?_
    exact (Turn.lift_keeps (Sequence.equals_keeps hE hleads₂.holds hs hv)).bind
      fun _ w₃ hleads₃ _ => answered_keeps hleads₃.holds trivial
  | materialize list =>
    refine (sequence_keeps hw _).bind fun s w₁ hleads₁ hs => ?_
    refine (Turn.lift_keeps (Sequence.materialize_keeps hE hleads₁.holds hs)).bind
      fun values w₂ hleads₂ hvalues => ?_
    exact (Turn.lift_act_keeps (writtenAll_keeps hleads₂.holds
      fun v hv => hvalues v (by simpa using hv))).bind
      fun _ w₃ hleads₃ hshown => answered_keeps hleads₃.holds hshown
  | cached list =>
    refine (sequence_keeps hw _).bind fun s w₁ hleads₁ _ => .get_bind ?_
    -- the cache itself is written out, which needs what an iteration knows of it
    exact (Turn.lift_act_keeps (writtenAll_keeps hleads₁.holds
      (hleads₁.holds.iteration s).cached)).bind
      fun _ w₂ hleads₂ hshown => answered_keeps hleads₂.holds hshown
  | display list | structureText list =>
    exact (sequence_keeps hw _).bind fun s w₁ hleads₁ _ =>
      .get_bind (answered_keeps hleads₁.holds trivial)
  | _ => cases hsubject

theorem turn_keeps_of_derived (hw : (custody A).Holds w) {step : Step}
    (hsubject : step.subject = .derived) :
    Turn.Keeps A w (turn E step) fun _ a => a.All A.admits := by
  cases step with
  | slice list start stop step asSequence target =>
    refine (sequence_keeps hw _).bind fun s w₁ hleads₁ hs => ?_
    refine (Turn.lift_keeps (Sequence.slice_keeps hE hleads₁.holds hs start stop step)).bind
      fun slice w₂ hleads₂ hslice => ?_
    dsimp only
    split
    · refine (Turn.lift_act_keeps (Slice.toSequence_keeps hleads₂.holds hslice)).bind
        fun s' w₃ hleads₃ hs' => ?_
      exact .get_bind (named_keeps hleads₃.holds _ hs' (hleads₃.holds.snapshot hs'))
    · refine (Turn.lift_keeps (Slice.toList_keeps hE hleads₂.holds hslice)).bind
        fun values w₃ hleads₃ hvalues => ?_
      exact (Turn.lift_act_keeps (writtenAll_keeps hleads₃.holds hvalues)).bind
        fun _ w₄ hleads₄ hshown => answered_keeps hleads₄.holds hshown
  | filter list condition spare target =>
    refine (sequence_keeps hw _).bind fun s w₁ hleads₁ _ => ?_
    refine (condition.read_keeps hleads₁.holds).bind fun c w₂ hleads₂ hc => ?_
    have rest {w : World host} (hw : (custody A).Holds w) : Turn.Keeps A w (do
        give target (.list (← s.filter (H := host) c)) : Turn Answer) fun _ a => a.All A.admits :=
      (Turn.lift_act_keeps (Sequence.filter_keeps hw s hc)).bind fun s' _ hleads hs' =>
        given_keeps hleads.holds target hs'
    cases spare with
    | none => exact rest hleads₂.holds
    | some t =>
      refine ((t.value_keeps hleads₂.holds).map (P := fun _ _ => True) fun _ _ _ => trivial).bind ?_
      exact fun _ w₃ hleads₃ _ => rest hleads₃.holds
  | reverse list target =>
    refine (sequence_keeps hw _).bind fun s w₁ hleads₁ hs => ?_
    exact (Turn.lift_keeps (Sequence.reverse_keeps hE hleads₁.holds hs)).bind
      fun s' w₂ hleads₂ hs' => given_keeps hleads₂.holds target hs'
  | append list other target =>
    refine (sequence_keeps hw _).bind fun s w₁ hleads₁ _ => ?_
    refine (sequence_keeps hleads₁.holds _).bind fun t w₂ hleads₂ _ => ?_
    exact (Turn.lift_act_keeps (Sequence.append_keeps hleads₂.holds s t)).bind
      fun s' w₃ hleads₃ hs' => given_keeps hleads₃.holds target hs'
  | _ => cases hsubject

theorem turn_keeps_of_iterations (hw : (custody A).Holds w) {step : Step}
    (hsubject : step.subject = .iterations) :
    Turn.Keeps A w (turn E step) fun _ a => a.All A.admits := by
  cases step with
  | iterate list name =>
    refine (sequence_keeps hw _).bind fun s w₁ hleads₁ _ => .get_bind ?_
    have hdesk := hleads₁.holds.host
    refine (Turn.lift_act_keeps (changeDesk_keeps hleads₁.holds { hdesk with
      iterations := hdesk.iterations.insert name (hleads₁.holds.iteration s) } rfl)).bind ?_
    exact fun _ w₂ hleads₂ _ => answered_keeps hleads₂.holds trivial
  | next name =>
    exact withIteration_keeps hw _ fun hw hi =>
      takeItem_keeps (fun hw hi => Iteration.next_keeps hE hw hi) (fun hw hi => hi.mono hw) hw hi
  | take name count =>
    exact withIteration_keeps hw _ fun hw hi =>
      takeItems_keeps (fun hw hi => Iteration.next_keeps hE hw hi) hw count hi nofun
  | collect list count =>
    refine (sequence_keeps hw _).bind fun s w₁ hleads₁ _ => .get_bind ?_
    have hi := hleads₁.holds.iteration s
    refine (Turn.lift_act_keeps (takeItems_keeps (fun hw hi => Iteration.next_keeps hE hw hi)
      hleads₁.holds count hi fun _ hs => absurd hs List.not_mem_nil)).bind ?_
    exact fun ⟨_, _⟩ w₂ hleads₂ hx => answered_keeps hleads₂.holds hx.1
  | _ => cases hsubject

theorem turn_keeps_of_branches (hw : (custody A).Holds w) {step : Step}
    (hsubject : step.subject = .branches) :
    Turn.Keeps A w (turn E step) fun _ a => a.All A.admits := by
  cases step with
  | tee supply left right counter =>
    refine (Turn.lift_act_keeps (newScript_keeps hw _ _)).bind fun script w₁ hleads₁ _ => ?_
    refine (Turn.lift_act_keeps (Reader.onto_keeps hleads₁.holds (p := .source script)
      trivial)).bind fun r w₂ hleads₂ hr => ?_
    have hdesk := hleads₂.holds.host
    refine (Turn.lift_act_keeps (changeDesk_keeps hleads₂.holds { hdesk with
      branches := (hdesk.branches.insert left hr).insert right hr } rfl)).bind ?_
    exact fun _ w₃ hleads₃ _ => answered_keeps hleads₃.holds trivial
  | nextOfBranch name =>
    exact withBranch_keeps hw _ fun hw hr =>
      takeItem_keeps (fun hw hr => Reader.next_keeps hE hw hr) (fun hw hr => hr.mono hw) hw hr
  | takeOfBranch name count =>
    exact withBranch_keeps hw _ fun hw hr =>
      takeItems_keeps (fun hw hr => Reader.next_keeps hE hw hr) hw count hr nofun
  | split name other =>
    refine (branch_keeps hw _).bind fun r w₁ hleads₁ hr => ?_
    have hdesk := hleads₁.holds.host
    refine (Turn.lift_act_keeps (changeDesk_keeps hleads₁.holds { hdesk with
      branches := hdesk.branches.insert other hr } rfl)).bind ?_
    exact fun _ w₂ hleads₂ _ => answered_keeps hleads₂.holds trivial
  | branchEnded name =>
    exact (branch_keeps hw _).bind fun r w₁ hleads₁ _ =>
      .get_bind (answered_keeps hleads₁.holds trivial)
  | adoptBranch name list infinite =>
    refine (branch_keeps hw _).bind fun r w₁ hleads₁ hr => ?_
    have hdesk := hleads₁.holds.host
    refine (Turn.lift_act_keeps (changeDesk_keeps hleads₁.holds { hdesk with
      branches := hdesk.branches.erase name } rfl)).bind fun _ w₂ hleads₂ _ => ?_
    refine (Turn.lift_act_keeps (Sequence.adopt_keeps hleads₂.holds (p := .reader r)
      (hr.mono hleads₂.extends_) _)).bind fun s w₃ hleads₃ hs => ?_
    exact named_keeps hleads₃.holds _ hs trivial
  | _ => cases hsubject

theorem turn_keeps_of_values (hw : (custody A).Holds w) {step : Step}
    (hsubject : step.subject = .values) :
    Turn.Keeps A w (turn E step) fun _ a => a.All A.admits := by
  cases step with
  | canonicalize t target =>
    exact (t.value_keeps hw).bind fun v w₁ hleads₁ hv => given_keeps hleads₁.holds target hv
  | nest t depth name =>
    refine (t.value_keeps hw).bind fun v w₁ hleads₁ hv => ?_
    refine (Turn.lift_act_keeps (nest_keeps hleads₁.holds depth hv)).bind
      fun u w₂ hleads₂ hu => ?_
    exact named_keeps hleads₂.holds _ hu trivial
  | ratio num den =>
    simp only [turn]
    split
    case h_1 v hv => exact Turn.lift_act_keeps (written_keeps hw (A.ratio hv))
    case h_2 => exact Turn.lift_act_keeps .abort
  | describe t =>
    exact (t.value_keeps hw).bind fun v w₁ hleads₁ _ =>
      .get_bind (answered_keeps hleads₁.holds trivial)
  | compare s t =>
    refine (s.value_keeps hw).bind fun a w₁ hleads₁ ha => ?_
    refine (t.value_keeps hleads₁.holds).bind fun b w₂ hleads₂ hb => ?_
    exact (Turn.lift_act_keeps (Value.same_keeps hE hleads₂.holds ha hb)).bind
      fun _ w₃ hleads₃ _ => answered_keeps hleads₃.holds trivial
  | externalText t =>
    exact (t.read_keeps hw).bind fun x w₁ hleads₁ _ =>
      .get_bind (answered_keeps hleads₁.holds trivial)
  | parseDecimal text =>
    exact (Turn.lift_keeps (.ofOutcome (Q := fun _ _ => True) hw fun _ _ => trivial)).bind
      fun _ w₁ hleads₁ _ => answered_keeps hleads₁.holds trivial
  | flatten t | flatText t | toJson t =>
    refine (t.value_keeps hw).bind fun v w₁ hleads₁ hv => ?_
    exact (Turn.lift_keeps (Value.flatten_keeps hE hleads₁.holds hv)).bind
      fun _ w₂ hleads₂ _ => answered_keeps hleads₂.holds trivial
  | flatEqual s t =>
    refine (s.value_keeps hw).bind fun a w₁ hleads₁ ha => ?_
    refine (Turn.lift_keeps (Value.flatten_keeps hE hleads₁.holds ha)).bind
      fun _ w₂ hleads₂ _ => ?_
    refine (t.value_keeps hleads₂.holds).bind fun b w₃ hleads₃ hb => ?_
    exact (Turn.lift_keeps (Value.flatten_keeps hE hleads₃.holds hb)).bind
      fun _ w₄ hleads₄ _ => answered_keeps hleads₄.holds trivial
  | _ => cases hsubject

omit hE in
theorem turn_keeps_of_settings (hw : (custody A).Holds w) {step : Step}
    (hsubject : step.subject = .settings) :
    Turn.Keeps A w (turn E step) fun _ a => a.All A.admits := by
  cases step with
  | limit =>
    refine .get_bind ?_
    split <;> exact answered_keeps hw trivial
  | setLimit limit =>
    refine .get_bind ?_
    have hset : (custody A).Keeps w (modify fun w => { w with limit } : Act host Unit)
        fun _ _ => True :=
      .modify (.deed (fun calls => .limit w calls limit) trivial trivial (.of_eq rfl rfl)
        (hw.congr rfl rfl hw.host) rfl) trivial
    refine (Turn.lift_act_keeps hset).bind fun _ w₁ hleads₁ _ => ?_
    split <;> exact answered_keeps hleads₁.holds trivial
  | displayLength => exact .get_bind (answered_keeps hw trivial)
  | setDisplayLength length =>
    refine .get_bind ?_
    have hset : (custody A).Keeps w
        (modify fun w => { w with displayLength := length } : Act host Unit) fun _ _ => True :=
      .modify (.deed (fun calls => .displayLength w calls length) trivial trivial
        (.of_eq rfl rfl) (hw.congr rfl rfl hw.host) rfl) trivial
    exact (Turn.lift_act_keeps hset).bind fun _ w₁ hleads₁ _ => answered_keeps hleads₁.holds trivial
  | _ => cases hsubject

theorem turn_keeps_of_exchange (hw : (custody A).Holds w) {step : Step}
    (hsubject : step.subject = .exchange) :
    Turn.Keeps A w (turn E step) fun _ a => a.All A.admits := by
  cases step with
  | toValue offer target =>
    refine (offer.read_keeps hw).bind fun x w₁ hleads₁ hx => ?_
    exact (Turn.lift_keeps (canonicalize_keeps hleads₁.holds hx)).bind
      fun v w₂ hleads₂ hv => given_keeps hleads₂.holds target hv
  | toList offers target =>
    refine (Offer.readAll_keeps hw offers).bind fun items w₁ hleads₁ hitems => ?_
    exact (Turn.lift_act_keeps (Sequence.adopt_keeps hleads₁.holds (p := .container items)
      hitems _)).bind fun s w₂ hleads₂ hs => given_keeps hleads₂.holds target hs
  | fromValue type t =>
    refine (t.value_keeps hw).bind fun v w₁ hleads₁ hv => ?_
    exact (Turn.lift_keeps (Value.read_keeps hE hleads₁.holds hv type)).bind
      fun _ w₂ hleads₂ _ => answered_keeps hleads₂.holds trivial
  | fromList element t =>
    refine (t.value_keeps hw).bind fun v w₁ hleads₁ hv => ?_
    cases v with
    | list s =>
      exact (Turn.lift_keeps (Value.read_keeps hE hleads₁.holds hv _)).bind
        fun _ w₂ hleads₂ _ => answered_keeps hleads₂.holds trivial
    | int | rational | str => exact .throw hleads₁.holds trivial
  | fromJson text target =>
    simp only [turn]
    split
    · exact .throw hw trivial
    · exact (Turn.lift_keeps (Document.canonicalize_keeps hw _)).bind
        fun v w₁ hleads₁ hv => given_keeps hleads₁.holds target hv
  | listFromJson text target =>
    simp only [turn]
    split
    · exact .throw hw trivial
    · exact (Turn.lift_keeps (Document.toSequence_keeps hw _)).bind
        fun s w₁ hleads₁ hs => given_keeps hleads₁.holds target hs
  | _ => cases hsubject

theorem turn_keeps (hw : (custody A).Holds w) (step : Step) :
    Turn.Keeps A w (turn E step) fun _ a => a.All A.admits := by
  cases hsubject : step.subject with
  | making => exact turn_keeps_of_making hE hw hsubject
  | lists => exact turn_keeps_of_lists hE hw hsubject
  | derived => exact turn_keeps_of_derived hE hw hsubject
  | iterations => exact turn_keeps_of_iterations hE hw hsubject
  | branches => exact turn_keeps_of_branches hE hw hsubject
  | values => exact turn_keeps_of_values hE hw hsubject
  | settings => exact turn_keeps_of_settings hw hsubject
  | exchange => exact turn_keeps_of_exchange hE hw hsubject

theorem answer_keeps (hw : (custody A).Holds w) (step : Step) :
    (custody A).Keeps w (answer E step) fun _ a => a.All A.admits := by
  refine Custody.Keeps.bind (turn_keeps hE hw step) ?_
  rintro r w' hleads ⟨hanswered, hended⟩
  cases r with
  | ok a => exact .pure hleads.holds (hanswered a rfl)
  | error a => exact .pure hleads.holds (hended a rfl)

/-! ### Scripts and conditions -/

theorem runHook_keeps (hw : (custody A).Holds w) (steps : List Step) :
    (custody A).Keeps w (runHook E steps) fun _ _ => True := by
  induction steps generalizing w with
  | nil => exact .pure hw trivial
  | cons step steps ih =>
    have hone : (custody A).Keeps w (do
        let a ← answer E step
        changeDesk (·.note (.answered a)) : Act host Unit) fun _ _ => True :=
      (answer_keeps hE hw step).bind fun _ _ hleads ha =>
        changeDesk_keeps hleads.holds (hleads.holds.host.note ha) rfl
    exact hone.bind fun _ _ hleads _ => ih hleads.holds

theorem Entry.give_keeps {w : World host} (hw : (custody A).Holds w) : ∀ entry : Entry,
    (custody A).Keeps w (entry.give E)
      fun _ x => ∀ y, x = some (.ok y) → (custody A).External y
  | .term t => by
    refine Custody.Keeps.bind (t.read_keeps hw) ?_
    rintro r w' hleads ⟨hr, -⟩
    match r with
    | .ok x =>
      refine .pure hleads.holds ?_
      intro y hy
      cases hy
      exact hr x rfl
    | .error a => cases a <;> exact .pure hleads.holds nofun
  | .hook steps entry =>
    (runHook_keeps hE hw steps).bind fun _ _ hleads _ => Entry.give_keeps hleads.holds entry
  | .pause | .failure _ => .pure hw nofun

theorem Script.pull_keeps (hw : (custody A).Holds w) (s : Script) :
    (custody A).KeepsBy ((custody A).worth s) w (s.pull E)
      fun _ x => ∀ y, x.1 = some (.ok y) → (custody A).External y := by
  refine Custody.KeepsBy.bind (k := fun _ => 0) (countCall_keeps hw s) fun _ w₁ hleads₁ _ => ?_
  dsimp only
  split
  · exact (Entry.give_keeps hE hleads₁.holds _).bind fun x w₂ hleads₂ hx =>
      .pure hleads₂.holds hx
  · exact (Custody.Keeps.pure (Q := fun _ x => x = none) hleads₁.holds rfl).bind
      fun x w₂ hleads₂ hx => .pure hleads₂.holds (by simp [hx])

omit hE in
/-- A condition that takes no steps looks at its operand at most. -/
theorem Condition.test_keeps_of_stepless {C : Custody host} (hE : C.Drives E) (hw : C.Holds w)
    {c : Condition Value Step} (hc : c.Holds C.toAdmission) (hsteps : ∀ steps, c ≠ .after steps)
    {v : Value} (hv : C.admits v) : C.Tries w (c.test E v) fun _ _ => True := by
  cases c with
  | equalTo operand => exact .lift (Value.same_keeps hE hw hv hc)
  | unequalTo operand =>
    exact (Custody.Tries.lift (Value.same_keeps hE hw hv hc)).bind
      fun _ _ hleads _ => .pure hleads.holds trivial
  | all | none | below | atMost | above | atLeast | number | kind => exact .pure hw trivial
  | even => cases v <;> exact .pure hw trivial
  | failsOn operand message =>
    refine (Custody.Tries.lift (Value.same_keeps hE hw hv hc)).bind ?_
    intro found w' hleads _
    cases found with
    | true =>
      exact (Custody.Tries.throw (Q := fun _ _ => True) hleads.holds).bind
        fun _ _ hleads' _ => .pure hleads'.holds trivial
    | false => exact .pure hleads.holds trivial
  | after steps => exact (hsteps steps rfl).elim

theorem Condition.test_keeps (hw : (custody A).Holds w) {c : Condition Value Step}
    (hc : c.Holds A) {v : Value} (hv : A.admits v) :
    (custody A).Tries w (c.test E v) fun _ _ => True := by
  cases c with
  | after steps =>
    exact (Custody.Tries.lift (runHook_keeps hE hw steps)).bind
      fun _ _ hleads _ => .pure hleads.holds trivial
  | all | none | equalTo | unequalTo | below | atMost | above | atLeast | number | even | kind
  | failsOn => exact Condition.test_keeps_of_stepless hE hw hc nofun hv

end Steps

theorem custody_kept (A : Admission) : (custody A).Kept where
  pull hE hw _ := (Script.pull_keeps hE hw _).mono fun _ _ _ hx => ⟨hx, trivial⟩
  test hE hw hc hv := Condition.test_keeps hE hw hc hv

/-! ### Sessions -/

theorem start_holds {A : Admission} (hA : A.since = 0) : (custody A).Holds start where
  since := by rw [show (custody A).since = 0 from hA]; exact Nat.zero_le _
  logged t i v hv := by simp [start, World.initial, World.tape, default] at hv
  idle t p hp := by simp [start, World.initial, World.tape, default] at hp
  cached s i v hv := by simp [start, World.initial, World.sequence, default] at hv
  reading s r hr := by simp [start, World.initial, World.sequence, default] at hr
  host := ⟨by simp [Names.All, start, World.initial, default],
    by simp [Names.All, start, World.initial, default],
    by simp [Names.All, start, World.initial, default],
    by simp [start, World.initial, default]⟩

/-- A step starts with no events noted, and what it reports has happened in it. -/
theorem step_keeps {A : Admission} {w : World host} (hw : (custody A).Holds w) (depth : Nat)
    (s : Step) : (custody A).Keeps w (step (engine depth) s) fun _ r => r.All A.admits := by
  have hE := Engine.ofBehavior_drives (custody_kept A) depth
  have hcleared : ({ w.host with events := [] } : Desk).Holds A w :=
    { hw.host with events := nofun }
  refine (changeDesk_keeps hw hcleared rfl).bind fun _ _ hleads _ => ?_
  refine (answer_keeps hE hleads.holds s).bind fun a _ hleads' ha => ?_
  exact .get_bind (.pure hleads'.holds ⟨ha, by simpa [report] using hleads'.holds.host.events⟩)

theorem mapM_step_keeps {A : Admission} {w : World host} (hw : (custody A).Holds w) (depth : Nat)
    (steps : List Step) :
    (custody A).Keeps w (steps.mapM (step (engine depth)))
      fun _ reports => ∀ r ∈ reports, r.All A.admits := by
  induction steps generalizing w with
  | nil => exact .pure hw nofun
  | cons s steps ih =>
    rw [List.mapM_cons]
    refine (step_keeps hw depth s).bind fun r _ hleads hr => ?_
    exact (ih hleads.holds).bind fun _ _ hleads' hreports =>
      .pure hleads'.holds (List.forall_mem_cons.mpr ⟨hr, hreports⟩)

end MemoSeq.Session
