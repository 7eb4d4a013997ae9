/-
  MemoSeq/Proofs/Session/Unhooked/Steps.lean
  ===========================================
  **A session without hooks leaves none.**

  A step that has no hook leads from a world without hooks to another one
  (`Session.Unhooked.turn_tries`), and so does a session of such steps
  (`Session.hookless_of_run`).  What a step reads, names and puts into lists is there, since it
  was named before or comes from an operation.
-/
import MemoSeq.Proofs.Session.Unhooked.Basic

namespace MemoSeq.Session

namespace Unhooked

variable {w w' : World host} {α β ε : Type}

/-! ### The desk -/

section Acts

variable {Q : World host → α → Prop}

theorem Turn.tries_of_graded {a : Attempt host α} (hw : w.Hookless)
    (ha : ∀ {depth}, hookless.Holds (.flat w depth) w →
      hookless.Tries (.flat w depth) w a fun _ => Q) : Tries w (liftM a : Turn α) Q :=
  .of_graded hw fun hw => Turn.lift_graded (ha hw)

theorem Turn.lift_tries {a : Attempt host α} (ha : Tries w a Q) :
    Tries w (liftM a : Turn α) Q := by
  change Tries w (MonadLift.monadLift a : Turn α) Q
  simp only [MonadLift.monadLift]
  refine Keeps.bind ha ?_
  intro r w' hbecomes hr
  cases r with
  | ok x => exact Tries.pure hbecomes.hookless (hr x rfl)
  | error e => exact Tries.throw hbecomes.hookless

theorem Turn.lift_keeps {a : Act host α} (ha : Keeps w a Q) :
    Tries w (liftM a : Turn α) Q :=
  Turn.lift_tries (.lift ha)

theorem desk_stands (hw : w.Hookless) : w.host.Stands w.sequences.size w := by
  obtain ⟨depth, hw⟩ := hw
  exact hw.host

theorem changeDesk_keeps (hw : w.Hookless) {f : Desk → Desk}
    (hf : (f w.host).Stands w.sequences.size w) :
    Keeps w (changeDesk f) fun _ _ => True := by
  refine .of_graded hw fun hw _ w' hrun => ?_
  cases hrun
  exact ⟨_, hw.withHost hf, trivial⟩

theorem withDesk_keeps (hw : w.Hookless) {f : Desk → α × Desk}
    (hf : (f w.host).2.Stands w.sequences.size w) :
    Keeps w (withDesk f) fun _ _ => True := by
  refine .of_graded hw fun hw _ w' hrun => ?_
  cases hrun
  exact ⟨_, hw.withHost hf, trivial⟩

end Acts

theorem sequence_tries (hw : w.Hookless) (name : String) :
    Tries w (sequence name) fun w' s => s.id < w'.sequences.size := by
  refine .get_bind ?_
  split
  case h_1 s hs => exact .pure hw ((desk_stands hw).sequences.find? hs)
  case h_2 => exact .throw hw

theorem branch_tries (hw : w.Hookless) (name : String) :
    Tries w (branch name) fun w' r => r.tape.id < w'.tapes.size := by
  refine .get_bind ?_
  split
  case h_1 r hr => exact .pure hw ((desk_stands hw).branches.find? hr)
  case h_2 => exact .throw hw

theorem newScript_keeps (hw : w.Hookless) {supply : Supply Entry} (hsupply : supply.Hookless)
    (counter : Option String) :
    Keeps w (newScript supply counter) fun _ script => ∃ h, script.supply.Within h := by
  obtain ⟨h, hsupply⟩ := hsupply.exists_within
  refine .of_graded hw fun hw => (newScript_graded hw supply counter).mono ?_
  exact fun script _ _ _ hscript => ⟨h, hscript ▸ hsupply⟩

theorem adopt_keeps (hw : w.Hookless) {p : Producer host} (infinite : Bool)
    (hp : ∀ depth, ∃ h, hookless.Producer (.flat w depth) w h p) :
    Keeps w (Sequence.adopt p infinite) fun w' s => s.id < w'.sequences.size := by
  refine .of_graded hw fun {depth} hw => ?_
  obtain ⟨h, hp⟩ := hp depth
  exact (Sequence.adopt_graded hw hp infinite).mono fun _ _ _ _ hs => hs.1

theorem adopt_values_keeps (hw : w.Hookless) {values : List Value}
    (hvalues : ∀ v ∈ values, v.Stands w) :
    Keeps w (Sequence.ofValues values) fun w' s => s.id < w'.sequences.size :=
  adopt_keeps hw false fun _ => ⟨0, fun v hv => bounds_flat (hvalues v hv)⟩

theorem adopt_items_keeps (hw : w.Hookless) {items : List (External Script)}
    (hitems : ∀ x ∈ items, x.Stands w) (infinite : Bool) :
    Keeps w (Sequence.adopt (.container items) infinite)
      fun w' s => s.id < w'.sequences.size :=
  adopt_keeps hw infinite fun depth => External.exists_graded hitems depth

/-! ### Terms -/

theorem Term.read_tries (hw : w.Hookless) {t : Term} (ht : t.Hookless) :
    Tries w t.read fun w' x => x.Stands w' := by
  obtain ⟨h, ht⟩ := ht.exists_within
  refine .of_graded hw fun hw => (Term.read_graded hw t ht).mono ?_
  exact fun x _ _ hleads hx => ⟨h, external_flat hleads.holds (Nat.le_refl _) hx⟩

theorem Term.readAll_tries (hw : w.Hookless) {terms : List Term}
    (hterms : ∀ t ∈ terms, t.Hookless) :
    Tries w (Term.readAll terms) fun w' items => ∀ x ∈ items, x.Stands w' := by
  obtain ⟨h, hall⟩ :=
    exists_depth_of_forall (fun t ht => (hterms t ht).exists_within) Term.Within.mono
  refine .of_graded hw fun hw => (Term.readAll_graded hw terms hall).mono ?_
  exact fun items _ _ hleads hitems x hx =>
    ⟨h, external_flat hleads.holds (Nat.le_refl _) (hitems x hx)⟩

theorem canonicalize_tries (hw : w.Hookless) {x : External Script} (hx : x.Stands w) :
    Tries w (canonicalize (H := host) x) fun w' v => v.Stands w' := by
  refine .of_graded hw fun {depth} hw => ?_
  obtain ⟨h, hx⟩ := hx.graded depth
  exact (canonicalize_graded hw hx).mono fun _ _ _ hleads hv => hleads.holds.stands hv

theorem canonicalizeAll_tries (hw : w.Hookless) {items : List (External Script)}
    (hitems : ∀ x ∈ items, x.Stands w) :
    Tries w (items.mapM (canonicalize (H := host)) : Attempt host (List Value))
      fun w' values => ∀ v ∈ values, v.Stands w' := by
  induction items generalizing w with
  | nil => exact .pure hw nofun
  | cons x items ih =>
    rw [List.mapM_cons]
    refine (canonicalize_tries hw (hitems x List.mem_cons_self)).bind fun v w₁ h₁ hv => ?_
    refine (ih h₁.hookless fun y hy =>
      (hitems y (List.mem_cons_of_mem _ hy)).mono h₁.sequences).bind fun values w₂ h₂ hvalues => ?_
    exact .pure h₂.hookless (List.forall_mem_cons.mpr ⟨hv.mono h₂.sequences, hvalues⟩)

theorem Term.value_tries (hw : w.Hookless) {t : Term} (ht : t.Hookless) :
    Tries w t.value fun w' v => v.Stands w' :=
  (Term.read_tries hw ht).bind fun _ _ hbecomes hx =>
    Turn.lift_tries (canonicalize_tries hbecomes.hookless hx)

theorem Flat.toExternal_stands (f : Flat) : External.Stands w f.toExternal := by
  fun_induction Flat.toExternal f with
  | case1 n => exact ⟨0, .int n⟩
  | case2 x => exact ⟨0, .float x⟩
  | case3 text => exact ⟨0, .str text⟩
  | case4 items ih =>
    refine .items fun x hx => ?_
    obtain ⟨f, hf, rfl⟩ := List.mem_map.mp hx
    exact ih f hf

theorem HostValue.toExternal_stands (v : HostValue) : External.Stands w v.toExternal := by
  fun_induction HostValue.toExternal v with
  | case1 width n => exact ⟨0, .int n⟩
  | case2 x => exact ⟨0, .float x.widen⟩
  | case3 x => exact ⟨0, .float x⟩
  | case4 s => exact ⟨0, .str s⟩
  | case5 f => exact Flat.toExternal_stands f
  | case6 items ih =>
    refine .items fun x hx => ?_
    obtain ⟨v, hv, rfl⟩ := List.mem_map.mp hx
    exact ih v hv

mutual

theorem Offer.read_tries {w : World host} (hw : w.Hookless) : ∀ o : Offer Term, o.Hookless →
    Tries w o.read fun w' x => x.Stands w'
  | .host v, _ => .pure hw (HostValue.toExternal_stands v)
  | .canonical _, .canonical ht => (Term.value_tries hw ht).bind fun _ _ hbecomes hv =>
      .pure hbecomes.hookless ⟨0, .value (bounds_flat hv)⟩
  | .external _, .external ht => Term.read_tries hw ht
  | .named name, _ => (sequence_tries hw name).bind fun _ _ hbecomes hs =>
      .pure hbecomes.hookless ⟨0, .value (bounds_flat (.list hs))⟩
  | .vector offers, .vector hoffers => (Offer.readAll_tries hw offers hoffers).bind
      fun _ _ hbecomes hitems => .pure hbecomes.hookless (.items hitems)

theorem Offer.readAll_tries {w : World host} (hw : w.Hookless) : ∀ offers : List (Offer Term),
    (∀ o ∈ offers, o.Hookless) →
      Tries w (Offer.readAll offers) fun w' items => ∀ x ∈ items, x.Stands w'
  | [], _ => .pure hw nofun
  | o :: offers, hoffers =>
      (Offer.read_tries hw o (hoffers o List.mem_cons_self)).bind fun _ _ hbecomes hx =>
        (Offer.readAll_tries hbecomes.hookless offers fun p hp =>
          hoffers p (List.mem_cons_of_mem _ hp)).bind fun _ _ hbecomes' hitems =>
            .pure hbecomes'.hookless
              (List.forall_mem_cons.mpr ⟨hx.mono hbecomes'.sequences, hitems⟩)

end

theorem Condition.read_tries (hw : w.Hookless) {c : Condition Term Step} (hc : c.Hookless) :
    Tries w c.read fun _ c' => hookless.test c' := by
  cases c with
  | after steps => exact hc.elim
  | all | none | number | even | kind =>
    refine .pure hw fun steps heq => ?_
    cases heq
  | equalTo t | unequalTo t | below t | atMost t | above t | atLeast t | failsOn t =>
    refine (Term.value_tries hw hc).bind fun v _ hbecomes _ => ?_
    refine .pure hbecomes.hookless fun steps heq => ?_
    cases heq

/-! ### Answers, iterations and branches -/

theorem written_keeps (hw : w.Hookless) (v : Value) : Keeps w (written v) fun _ _ => True :=
  .get_bind (.pure hw trivial)

theorem writtenAll_keeps (hw : w.Hookless) (vs : List Value) :
    Keeps w (writtenAll vs) fun _ _ => True :=
  .get_bind (.pure hw trivial)

theorem bindTarget_keeps (hw : w.Hookless) (target : Option String) {v : Value}
    (hv : v.Stands w) : Keeps w (bindTarget target v) fun _ _ => True := by
  unfold bindTarget
  split
  case h_1 name s =>
    have hdesk := desk_stands hw
    exact changeDesk_keeps hw { hdesk with sequences := hdesk.sequences.insert name (hv s rfl) }
  case h_2 => exact .pure hw trivial

theorem give_keeps (hw : w.Hookless) (target : Option String) {v : Value} (hv : v.Stands w) :
    Keeps w (give target v) fun _ _ => True :=
  (written_keeps hw v).bind fun _ _ hbecomes _ =>
    (bindTarget_keeps hbecomes.hookless target (hv.mono hbecomes.sequences)).bind
      fun _ _ hbecomes' _ => .pure hbecomes'.hookless trivial

theorem giveItem_keeps (hw : w.Hookless) (item : Option Item) :
    Keeps w (giveItem item) fun _ _ => True := by
  match item with
  | none | some (.error _) => exact .pure hw trivial
  | some (.ok v) => exact written_keeps hw v

section Driving

/-! What is driven has a property, which it keeps while other things are done. -/

variable {next : β → Act host (Option Item × β)} {P : World host → β → Prop}
variable (hnext : ∀ {w : World host} {b : β}, w.Hookless → P w b →
  Keeps w (next b) fun w' x => P w' x.2)
variable (hmono : ∀ {w w' : World host} {b : β}, w.Becomes w' → P w b → P w' b)
include hnext

theorem takeItems_keeps (hw : w.Hookless) (count : Nat) {b : β} (hb : P w b)
    (taken : List (Outcome Snapshot)) :
    Keeps w (takeItems next count b taken) fun w' x => P w' x.2 := by
  induction count generalizing w b taken with
  | zero => exact .pure hw hb
  | succ count ih =>
    refine (hnext hw hb).bind fun x w' hbecomes hb' => ?_
    match x with
    | (none, b) => exact .pure hbecomes.hookless hb'
    | (some (.error e), b) => exact ih hbecomes.hookless hb' _
    | (some (.ok v), b) => exact .get_bind (ih hbecomes.hookless hb' _)

include hmono

theorem takeItem_keeps (hw : w.Hookless) {b : β} (hb : P w b) :
    Keeps w (takeItem next b) fun w' x => P w' x.2 :=
  (hnext hw hb).bind fun x _ hbecomes hb' =>
    (giveItem_keeps hbecomes.hookless x.1).bind fun _ _ hbecomes' _ =>
      .pure hbecomes'.hookless (hmono hbecomes' hb')

end Driving

theorem withIteration_tries (hw : w.Hookless) (name : String)
    {drive : Iteration → Act host (Answer × Iteration)}
    (hdrive : ∀ {w i}, w.Hookless → Iteration.Stands w i →
      Keeps w (drive i) fun w' x => x.2.Stands w') :
    Tries w (withIteration name drive) fun _ _ => True := by
  refine .get_bind ?_
  split
  case h_1 => exact .throw hw
  case h_2 i hi =>
    have hdesk := desk_stands hw
    have hin := hdesk.iterations.find? hi
    refine (Turn.lift_keeps (changeDesk_keeps hw
      { hdesk with iterations := hdesk.iterations.erase name })).bind fun _ w₁ h₁ _ => ?_
    refine (Turn.lift_keeps (hdrive h₁.hookless (hin.mono h₁.tapes h₁.sequences))).bind ?_
    rintro ⟨a, i'⟩ w₂ h₂ hi'
    have hdesk' := desk_stands h₂.hookless
    refine (Turn.lift_keeps (changeDesk_keeps h₂.hookless
      { hdesk' with iterations := hdesk'.iterations.insert name hi' })).bind ?_
    exact fun _ _ h₃ _ => .pure h₃.hookless trivial

theorem withBranch_tries (hw : w.Hookless) (name : String)
    {drive : Reader → Act host (Answer × Reader)}
    (hdrive : ∀ {w : World host} {r : Reader}, w.Hookless → r.tape.id < w.tapes.size →
      Keeps w (drive r) fun w' x => x.2.tape.id < w'.tapes.size) :
    Tries w (withBranch name drive) fun _ _ => True := by
  refine (branch_tries hw name).bind fun r w₀ h₀ hr => ?_
  have hdesk := desk_stands h₀.hookless
  refine (Turn.lift_keeps (changeDesk_keeps h₀.hookless
    { hdesk with branches := hdesk.branches.erase name })).bind fun _ w₁ h₁ _ => ?_
  refine (Turn.lift_keeps (hdrive h₁.hookless (hr.trans_le h₁.tapes))).bind ?_
  rintro ⟨a, r'⟩ w₂ h₂ hr'
  have hdesk' := desk_stands h₂.hookless
  refine (Turn.lift_keeps (changeDesk_keeps h₂.hookless
    { hdesk' with branches := hdesk'.branches.insert name hr' })).bind ?_
  exact fun _ _ h₃ _ => .pure h₃.hookless trivial

theorem opened_stands (hw : w.Hookless) {s : Sequence} (hs : s.id < w.sequences.size) :
    (w.iteration s).Stands w := by
  obtain ⟨depth, hw⟩ := hw
  exact iteration_stands hw (hw.iteration (covers_flat hs))

theorem nest_keeps (hw : w.Hookless) (depth : Nat) {v : Value} (hv : v.Stands w) :
    Keeps w (nest depth v) fun w' v => v.Stands w' := by
  induction depth generalizing w v with
  | zero => exact .pure hw hv
  | succ depth ih =>
    have hvalues : ∀ u ∈ [v], u.Stands w := by simpa using hv
    exact (adopt_values_keeps hw hvalues).bind fun s w' hbecomes hs =>
      ih hbecomes.hookless (.list hs)

/-! ### Overwriting, and the settings -/

theorem mem_cache_overwrite {s t : Sequence} {position : Nat} {v u : Value}
    (hu : u ∈ ((w.overwrite s position v).sequence t).cache) :
    u = v ∨ u ∈ (w.sequence t).cache := by
  rw [World.overwrite, World.sequence_updateSequence] at hu
  split at hu
  · split at hu
    · exact (Array.mem_or_eq_of_mem_setIfInBounds hu).symm
    · exact .inr hu
  · exact .inr hu

theorem reader_overwrite (s t : Sequence) (position : Nat) (v : Value) :
    ((w.overwrite s position v).sequence t).reader = (w.sequence t).reader := by
  rw [World.overwrite, World.sequence_updateSequence]
  split
  · split <;> rfl
  · rfl

/-- Whatever is put into a list will not be spoken of. -/
theorem overwrite_becomes (hw : w.Hookless) (s : Sequence) (position : Nat) {v : Value}
    (hv : v.Stands w) : w.Becomes (w.overwrite s position v) := by
  have hsize : (w.overwrite s position v).sequences.size = w.sequences.size := by
    simp [World.overwrite]
  obtain ⟨depth, hw⟩ := hw
  refine ⟨.of_tapes hw rfl hsize.ge (fun t u hu => ?_) (fun t r hr => ?_) ?_, Nat.le_refl _,
    hsize.ge⟩
  · refine Value.Stands.mono ?_ hsize.ge
    rcases mem_cache_overwrite hu with rfl | hu
    · exact hv
    · exact hw.cached_stands hu
  · rw [reader_overwrite] at hr
    exact (hw.reading t r hr).1
  · have hdesk : w.host.Stands w.sequences.size w := hw.host
    exact ⟨hsize ▸ hdesk.sequences, hdesk.iterations.mono fun _ hi =>
      hi.mono (Nat.le_refl _) hsize.ge, hdesk.branches⟩

theorem settings_becomes (hw : w.Hookless) (limit : Option Nat) (displayLength : Nat) :
    w.Becomes { w with limit, displayLength } := by
  have hdesk := desk_stands hw
  obtain ⟨depth, hw⟩ := hw
  refine ⟨.of_tapes hw rfl (Nat.le_refl _) (fun _ _ hv => hw.cached_stands hv)
    (fun s r hr => (hw.reading s r hr).1) ?_, Nat.le_refl _, Nat.le_refl _⟩
  exact ⟨hdesk.sequences, hdesk.iterations.mono fun _ hi =>
    hi.mono (Nat.le_refl _) (Nat.le_refl _), hdesk.branches⟩

theorem modify_keeps {f : World host → World host} (hf : w.Becomes (f w)) :
    Keeps w (modify f) fun _ _ => True := by
  intro _ w' hrun
  rw [Act.run_modify_eq_ok.mp hrun]
  exact ⟨hf, trivial⟩

variable {E : Engine host} (hE : hookless.Drives E)
include hE

theorem nextItem_keeps {w : World host} {i : Iteration} (hw : w.Hookless) (hi : i.Stands w) :
    Keeps w (i.next E) fun w' x => x.2.Stands w' :=
  .of_graded hw fun hw => (Iteration.next_graded hE hw (iteration_flat hi)).mono
    fun _ _ _ hleads hx => iteration_stands hleads.holds hx.2

theorem nextOfBranch_keeps {w : World host} {r : Reader} (hw : w.Hookless)
    (hr : r.tape.id < w.tapes.size) :
    Keeps w (r.next E) fun w' x => x.2.tape.id < w'.tapes.size :=
  .of_graded hw fun hw => (Reader.next_graded hE hw ⟨hr, Nat.le_refl _⟩).mono
    fun _ _ _ _ hx => hx.2.1

theorem overwrite_tries (hw : w.Hookless) (s : Sequence) (index : Int) {x : External Script}
    (hx : x.Stands w) : Tries w (s.overwrite E index x) fun _ _ => True := by
  have put {w : World host} (hw : w.Hookless) {v : Value} (hv : v.Stands w) (position : Nat) :
      Tries w (modify (·.overwrite s position v) : Attempt host Unit) fun _ _ => True :=
    .lift (modify_keeps (overwrite_becomes hw s position hv))
  refine (canonicalize_tries hw hx).bind fun v w₁ h₁ hv => ?_
  split
  · refine (Tries.of_graded h₁.hookless fun hw =>
      Sequence.length_graded hE hw).bind fun length w₂ h₂ _ => ?_
    have hv₂ := hv.mono h₂.sequences
    split
    · refine (Tries.throw (Q := fun _ _ => True) h₂.hookless).bind fun _ w₃ h₃ _ => ?_
      exact put h₃.hookless (hv₂.mono h₃.sequences) _
    · exact put h₂.hookless hv₂ _
  · refine (Tries.of_graded h₁.hookless fun hw =>
      Sequence.forceThrough_graded hE hw _).bind fun found w₂ h₂ _ => ?_
    cases found with
    | true => exact put h₂.hookless (hv.mono h₂.sequences) _
    | false => exact .get_bind (.throw h₂.hookless)

theorem skipCalls_keeps (hw : w.Hookless) (count : Nat) {script : Script}
    (hscript : ∃ h, script.supply.Within h) :
    Keeps w (skipCalls E count script) fun _ script' => ∃ h, script'.supply.Within h := by
  induction count generalizing w script with
  | zero => exact .pure hw hscript
  | succ count ih =>
    obtain ⟨h, hscript⟩ := hscript
    have hpull : Keeps w (E.pull script) fun _ x => ∃ h, x.2.supply.Within h :=
      .of_graded hw fun hw => (hE.pull hw hscript).mono fun _ _ _ _ hx => ⟨h, hx.2⟩
    exact hpull.bind fun x _ hbecomes hx => ih hbecomes.hookless hx

/-! ### Steps -/

omit hE in
theorem answered_tries (hw : w.Hookless) {a : Answer} :
    Tries w (return a : Turn Answer) fun _ _ => True := .pure hw trivial

omit hE in
theorem given_tries (hw : w.Hookless) (target : Option String) {v : Value} (hv : v.Stands w) :
    Tries w (give target v : Turn Answer) fun _ _ => True :=
  Turn.lift_keeps (give_keeps hw target hv)

omit hE in
theorem named_tries (hw : w.Hookless) {a : Answer} (target : Option String) {s : Sequence}
    (hs : s.id < w.sequences.size) :
    Tries w (do bindTarget target (.list s); return a : Turn Answer) fun _ _ => True :=
  (Turn.lift_keeps (bindTarget_keeps hw target (.list hs))).bind fun _ _ h _ =>
    answered_tries h.hookless

theorem turn_tries_of_making (hw : w.Hookless) {step : Step} (hstep : step.Hookless)
    (hsubject : step.subject = .making) :
    Tries w (turn E step) fun _ _ => True := by
  cases step with
  | newContainer name terms infinite =>
    refine (Term.readAll_tries hw hstep).bind fun items w₁ h₁ hitems => ?_
    refine (Turn.lift_keeps (adopt_items_keeps h₁.hookless hitems _)).bind fun s w₂ h₂ hs => ?_
    exact named_tries h₂.hookless _ hs
  | newValues name terms =>
    refine (Term.readAll_tries hw hstep).bind fun items w₁ h₁ hitems => ?_
    refine (Turn.lift_tries (canonicalizeAll_tries h₁.hookless hitems)).bind
      fun values w₂ h₂ hvalues => ?_
    refine (Turn.lift_keeps (adopt_values_keeps h₂.hookless hvalues)).bind fun s w₃ h₃ hs => ?_
    exact named_tries h₃.hookless _ hs
  | newScripted name supply infinite skip announced =>
    refine (Turn.lift_keeps (newScript_keeps hw hstep _)).bind fun script w₁ h₁ hscript => ?_
    refine (Turn.lift_keeps (skipCalls_keeps hE h₁.hookless _ hscript)).bind
      fun script' w₂ h₂ hscript' => ?_
    -- announced or not, the script is adopted by the same steps
    have rest {w : World host} (hw : w.Hookless) : Tries w (do
        let s ← Sequence.ofSource (H := host) script' infinite
        bindTarget name (.list s)
        return .nothing : Turn Answer) fun _ _ => True :=
      (Turn.lift_keeps (adopt_keeps hw (p := .source script') infinite fun _ => hscript')).bind
        fun s _ h hs => named_tries h.hookless _ hs
    dsimp only
    split
    · have hdesk := desk_stands h₂.hookless
      refine (Turn.lift_keeps (changeDesk_keeps h₂.hookless { hdesk with })).bind ?_
      exact fun _ w₃ h₃ _ => rest h₃.hookless
    · exact rest h₂.hookless
  | «alias» list name =>
    exact (sequence_tries hw _).bind fun s w₁ h₁ hs => named_tries h₁.hookless _ hs
  | drop name =>
    have hdesk := desk_stands hw
    have hdropped : (w.host.drop name).2.Stands w.sequences.size w :=
      ⟨hdesk.sequences.erase name, hdesk.iterations.erase name, hdesk.branches.erase name⟩
    exact (Turn.lift_keeps (withDesk_keeps hw (f := (·.drop name)) hdropped)).bind
      fun _ w₁ h₁ _ => answered_tries h₁.hookless
  | identical list other =>
    exact (sequence_tries hw _).bind fun _ w₁ h₁ _ =>
      (sequence_tries h₁.hookless _).bind fun _ w₂ h₂ _ => answered_tries h₂.hookless
  | _ => cases hsubject

theorem turn_tries_of_lists (hw : w.Hookless) {step : Step} (hstep : step.Hookless)
    (hsubject : step.subject = .lists) :
    Tries w (turn E step) fun _ _ => True := by
  cases step with
  | advance list target =>
    refine (sequence_tries hw _).bind fun s w₁ h₁ _ => ?_
    -- the rank of what `advance` returns is not needed here, only that it stands
    refine (Turn.tries_of_graded (Q := fun w' x => ∀ v, x = some v → v.Stands w') h₁.hookless
      fun hw => (Sequence.advance_graded hE hw).mono fun x _ _ hleads hx v hv =>
        hleads.holds.stands (hx v hv).1).bind fun x w₂ h₂ hx => ?_
    cases x with
    | none => exact answered_tries h₂.hookless
    | some v => exact given_tries h₂.hookless target (hx v rfl)
  | get list index target =>
    refine (sequence_tries hw _).bind fun s w₁ h₁ _ => ?_
    exact (Turn.tries_of_graded h₁.hookless fun hw => Sequence.read_graded hE hw index).bind
      fun v w₂ h₂ hv => given_tries h₂.hookless target hv
  | set list index t =>
    refine (Term.read_tries hw hstep).bind fun x w₁ h₁ hx => ?_
    refine (sequence_tries h₁.hookless _).bind fun s w₂ h₂ _ => ?_
    exact (Turn.lift_tries (overwrite_tries hE h₂.hookless s index (hx.mono h₂.sequences))).bind
      fun _ w₃ h₃ _ => answered_tries h₃.hookless
  | contains list t =>
    refine (sequence_tries hw _).bind fun s w₁ h₁ hs => ?_
    refine (Term.value_tries h₁.hookless hstep).bind fun v w₂ h₂ _ => ?_
    exact (Turn.tries_of_graded h₂.hookless fun hw =>
      Sequence.contains_graded hE hw (hs.trans_le h₂.sequences)).bind
      fun _ w₃ h₃ _ => answered_tries h₃.hookless
  | count list t =>
    refine (sequence_tries hw _).bind fun s w₁ h₁ _ => ?_
    refine (Term.value_tries h₁.hookless hstep).bind fun v w₂ h₂ _ => ?_
    exact (Turn.tries_of_graded h₂.hookless fun hw => Sequence.count_graded hE hw).bind
      fun _ w₃ h₃ _ => answered_tries h₃.hookless
  | length list =>
    refine (sequence_tries hw _).bind fun s w₁ h₁ _ => ?_
    exact (Turn.tries_of_graded h₁.hookless fun hw => Sequence.length_graded hE hw).bind
      fun _ w₂ h₂ _ => answered_tries h₂.hookless
  | equals list t =>
    refine (sequence_tries hw _).bind fun s w₁ h₁ _ => ?_
    refine (Term.value_tries h₁.hookless hstep).bind fun v w₂ h₂ _ => ?_
    exact (Turn.tries_of_graded h₂.hookless fun hw => Sequence.equals_graded hE hw s v).bind
      fun _ w₃ h₃ _ => answered_tries h₃.hookless
  | materialize list =>
    refine (sequence_tries hw _).bind fun s w₁ h₁ _ => ?_
    refine (Turn.tries_of_graded (Q := fun _ _ => True) h₁.hookless fun hw =>
      (Sequence.materialize_graded hE hw).mono fun _ _ _ _ _ => trivial).bind
      fun values w₂ h₂ _ => ?_
    exact (Turn.lift_keeps (writtenAll_keeps h₂.hookless _)).bind
      fun _ w₃ h₃ _ => answered_tries h₃.hookless
  | cached list =>
    refine (sequence_tries hw _).bind fun s w₁ h₁ _ => .get_bind ?_
    exact (Turn.lift_keeps (writtenAll_keeps h₁.hookless _)).bind
      fun _ w₂ h₂ _ => answered_tries h₂.hookless
  | display list | structureText list =>
    exact (sequence_tries hw _).bind fun s w₁ h₁ _ => .get_bind (answered_tries h₁.hookless)
  | _ => cases hsubject

theorem turn_tries_of_derived (hw : w.Hookless) {step : Step} (hstep : step.Hookless)
    (hsubject : step.subject = .derived) :
    Tries w (turn E step) fun _ _ => True := by
  cases step with
  | slice list start stop step asSequence target =>
    refine (sequence_tries hw _).bind fun s w₁ h₁ hs => ?_
    refine (Turn.tries_of_graded h₁.hookless fun hw =>
      Sequence.slice_graded hE hw hs start stop step).bind fun slice w₂ h₂ hslice => ?_
    dsimp only
    split
    · refine (Turn.lift_keeps (.of_graded h₂.hookless fun hw =>
        Slice.toSequence_graded hw hslice fun _ hv => bounds_flat (h := 0) hv)).bind
        fun s' w₃ h₃ hs' => ?_
      exact .get_bind (named_tries h₃.hookless _ hs')
    · refine (Turn.tries_of_graded h₂.hookless fun hw => Slice.toList_graded hE hw hslice).bind
        fun values w₃ h₃ _ => ?_
      exact (Turn.lift_keeps (writtenAll_keeps h₃.hookless _)).bind
        fun _ w₄ h₄ _ => answered_tries h₄.hookless
  | filter list condition spare target =>
    refine (sequence_tries hw _).bind fun s w₁ h₁ hs => ?_
    refine (Condition.read_tries h₁.hookless hstep.1).bind fun c w₂ h₂ hc => ?_
    have hs₂ := hs.trans_le h₂.sequences
    -- with and without the spare condition the same is done at the end
    have rest {w : World host} (hw : w.Hookless) (hs : s.id < w.sequences.size) : Tries w (do
        give target (.list (← s.filter (H := host) c)) : Turn Answer) fun _ _ => True :=
      (Turn.lift_keeps (.of_graded hw fun hw => Sequence.filter_graded hw hs hc)).bind
        fun s' _ h hs' => given_tries h.hookless target (.list hs')
    cases spare with
    | none => exact rest h₂.hookless hs₂
    | some t =>
      refine ((Term.value_tries h₂.hookless (hstep.2 t rfl)).map (P := fun _ _ => True)
        fun _ _ _ => trivial).bind ?_
      exact fun _ w₃ h₃ _ => rest h₃.hookless (hs₂.trans_le h₃.sequences)
  | reverse list target =>
    refine (sequence_tries hw _).bind fun s w₁ h₁ _ => ?_
    exact (Turn.tries_of_graded h₁.hookless fun hw => Sequence.reverse_graded hE hw).bind
      fun s' w₂ h₂ hs' => given_tries h₂.hookless target (.list hs')
  | append list other target =>
    refine (sequence_tries hw _).bind fun s w₁ h₁ hs => ?_
    refine (sequence_tries h₁.hookless _).bind fun t w₂ h₂ ht => ?_
    exact (Turn.lift_keeps (.of_graded h₂.hookless fun hw =>
      Sequence.append_graded hw (hs.trans_le h₂.sequences) ht)).bind
      fun s' w₃ h₃ hs' => given_tries h₃.hookless target (.list hs')
  | _ => cases hsubject

theorem turn_tries_of_iterations (hw : w.Hookless) {step : Step} (hstep : step.Hookless)
    (hsubject : step.subject = .iterations) :
    Tries w (turn E step) fun _ _ => True := by
  cases step with
  | iterate list name =>
    refine (sequence_tries hw _).bind fun s w₁ h₁ hs => .get_bind ?_
    have hdesk := desk_stands h₁.hookless
    refine (Turn.lift_keeps (changeDesk_keeps h₁.hookless { hdesk with
      iterations := hdesk.iterations.insert name (opened_stands h₁.hookless hs) })).bind ?_
    exact fun _ w₂ h₂ _ => answered_tries h₂.hookless
  | next name =>
    exact withIteration_tries hw _ fun hw hi => takeItem_keeps (nextItem_keeps hE)
      (fun h hi => hi.mono h.tapes h.sequences) hw hi
  | take name count =>
    exact withIteration_tries hw _ fun hw hi => takeItems_keeps (nextItem_keeps hE) hw count hi []
  | collect list count =>
    refine (sequence_tries hw _).bind fun s w₁ h₁ hs => .get_bind ?_
    exact (Turn.lift_keeps (takeItems_keeps (nextItem_keeps hE) h₁.hookless count
      (opened_stands h₁.hookless hs) [])).bind fun ⟨_, _⟩ w₂ h₂ _ => answered_tries h₂.hookless
  | _ => cases hsubject

theorem turn_tries_of_branches (hw : w.Hookless) {step : Step} (hstep : step.Hookless)
    (hsubject : step.subject = .branches) :
    Tries w (turn E step) fun _ _ => True := by
  cases step with
  | tee supply left right counter =>
    refine (Turn.lift_keeps (newScript_keeps hw hstep _)).bind fun script w₁ h₁ hscript => ?_
    obtain ⟨h, hscript⟩ := hscript
    refine (Turn.lift_keeps (.of_graded h₁.hookless fun hw =>
      Reader.onto_graded hw (p := .source script) hscript)).bind fun r w₂ h₂ hr => ?_
    have hdesk := desk_stands h₂.hookless
    refine (Turn.lift_keeps (changeDesk_keeps h₂.hookless { hdesk with
      branches := (hdesk.branches.insert left hr).insert right hr })).bind ?_
    exact fun _ w₃ h₃ _ => answered_tries h₃.hookless
  | nextOfBranch name =>
    exact withBranch_tries hw _ fun hw hr =>
      takeItem_keeps (P := fun w (r : Reader) => r.tape.id < w.tapes.size)
        (nextOfBranch_keeps hE) (fun h hr => hr.trans_le h.tapes) hw hr
  | takeOfBranch name count =>
    exact withBranch_tries hw _ fun hw hr =>
      takeItems_keeps (P := fun w (r : Reader) => r.tape.id < w.tapes.size)
        (nextOfBranch_keeps hE) hw count hr []
  | split name other =>
    refine (branch_tries hw _).bind fun r w₁ h₁ hr => ?_
    have hdesk := desk_stands h₁.hookless
    refine (Turn.lift_keeps (changeDesk_keeps h₁.hookless { hdesk with
      branches := hdesk.branches.insert other hr })).bind ?_
    exact fun _ w₂ h₂ _ => answered_tries h₂.hookless
  | branchEnded name =>
    exact (branch_tries hw _).bind fun r w₁ h₁ _ => .get_bind (answered_tries h₁.hookless)
  | adoptBranch name list infinite =>
    refine (branch_tries hw _).bind fun r w₁ h₁ hr => ?_
    have hdesk := desk_stands h₁.hookless
    refine (Turn.lift_keeps (changeDesk_keeps h₁.hookless { hdesk with
      branches := hdesk.branches.erase name })).bind fun _ w₂ h₂ _ => ?_
    refine (Turn.lift_keeps (adopt_keeps h₂.hookless (p := .reader r) infinite fun depth =>
      ⟨depth, hr.trans_le h₂.tapes, Nat.le_refl _⟩)).bind fun s w₃ h₃ hs => ?_
    exact named_tries h₃.hookless _ hs
  | _ => cases hsubject

theorem turn_tries_of_values (hw : w.Hookless) {step : Step} (hstep : step.Hookless)
    (hsubject : step.subject = .values) :
    Tries w (turn E step) fun _ _ => True := by
  cases step with
  | canonicalize t target =>
    exact (Term.value_tries hw hstep).bind fun v w₁ h₁ hv => given_tries h₁.hookless target hv
  | nest t depth name =>
    refine (Term.value_tries hw hstep).bind fun v w₁ h₁ hv => ?_
    refine (Turn.lift_keeps (nest_keeps h₁.hookless depth hv)).bind fun u w₂ h₂ hu => ?_
    exact (Turn.lift_keeps (bindTarget_keeps h₂.hookless name hu)).bind fun _ w₃ h₃ _ =>
      answered_tries h₃.hookless
  | ratio num den =>
    simp only [turn]
    split
    · exact Turn.lift_keeps (written_keeps hw _)
    · exact Turn.lift_keeps fun _ _ hrun => (Act.run_abort_eq_ok.mp hrun).elim
  | describe t =>
    exact (Term.value_tries hw hstep).bind fun v w₁ h₁ _ => .get_bind (answered_tries h₁.hookless)
  | compare s t =>
    refine (Term.value_tries hw hstep.1).bind fun a w₁ h₁ _ => ?_
    refine (Term.value_tries h₁.hookless hstep.2).bind fun b w₂ h₂ _ => ?_
    exact (Turn.lift_keeps (.of_graded h₂.hookless fun hw => Value.same_graded hE hw a b)).bind
      fun _ w₃ h₃ _ => answered_tries h₃.hookless
  | externalText t =>
    exact (Term.read_tries hw hstep).bind fun x w₁ h₁ _ => .get_bind (answered_tries h₁.hookless)
  | parseDecimal text =>
    exact (Turn.tries_of_graded (Q := fun _ _ => True) hw fun hw =>
      .ofOutcome hw fun _ _ => trivial).bind fun _ w₁ h₁ _ => answered_tries h₁.hookless
  | flatten t | flatText t | toJson t =>
    refine (Term.value_tries hw hstep).bind fun v w₁ h₁ _ => ?_
    exact (Turn.tries_of_graded h₁.hookless fun hw => v.flattenWithin_graded hE hw _).bind
      fun _ w₂ h₂ _ => answered_tries h₂.hookless
  | flatEqual s t =>
    refine (Term.value_tries hw hstep.1).bind fun a w₁ h₁ _ => ?_
    refine (Turn.tries_of_graded h₁.hookless fun hw => a.flattenWithin_graded hE hw _).bind
      fun _ w₂ h₂ _ => ?_
    refine (Term.value_tries h₂.hookless hstep.2).bind fun b w₃ h₃ _ => ?_
    exact (Turn.tries_of_graded h₃.hookless fun hw => b.flattenWithin_graded hE hw _).bind
      fun _ w₄ h₄ _ => answered_tries h₄.hookless
  | _ => cases hsubject

omit hE in
theorem turn_tries_of_settings (hw : w.Hookless) {step : Step} (hstep : step.Hookless)
    (hsubject : step.subject = .settings) :
    Tries w (turn E step) fun _ _ => True := by
  cases step with
  | limit =>
    refine .get_bind ?_
    split <;> exact answered_tries hw
  | setLimit limit =>
    refine .get_bind ?_
    refine (Turn.lift_keeps (modify_keeps (f := fun w => { w with limit })
      (settings_becomes hw limit w.displayLength))).bind fun _ w₁ h₁ _ => ?_
    split <;> exact answered_tries h₁.hookless
  | displayLength => exact .get_bind (answered_tries hw)
  | setDisplayLength length =>
    refine .get_bind ?_
    exact (Turn.lift_keeps (modify_keeps (f := fun w => { w with displayLength := length })
      (settings_becomes hw w.limit length))).bind fun _ w₁ h₁ _ => answered_tries h₁.hookless
  | _ => cases hsubject

theorem turn_tries_of_exchange (hw : w.Hookless) {step : Step} (hstep : step.Hookless)
    (hsubject : step.subject = .exchange) :
    Tries w (turn E step) fun _ _ => True := by
  cases step with
  | toValue offer target =>
    refine (Offer.read_tries hw offer hstep).bind fun x w₁ h₁ hx => ?_
    exact (Turn.lift_tries (canonicalize_tries h₁.hookless hx)).bind
      fun v w₂ h₂ hv => given_tries h₂.hookless target hv
  | toList offers target =>
    refine (Offer.readAll_tries hw offers hstep).bind fun items w₁ h₁ hitems => ?_
    exact (Turn.lift_keeps (adopt_items_keeps h₁.hookless hitems false)).bind
      fun s w₂ h₂ hs => given_tries h₂.hookless target (.list hs)
  | fromValue type t =>
    refine (Term.value_tries hw hstep).bind fun v w₁ h₁ _ => ?_
    exact (Turn.tries_of_graded h₁.hookless fun hw => Value.read_graded hE hw v type).bind
      fun _ w₂ h₂ _ => answered_tries h₂.hookless
  | fromList element t =>
    refine (Term.value_tries hw hstep).bind fun v w₁ h₁ _ => ?_
    cases v with
    | list s =>
      exact (Turn.tries_of_graded h₁.hookless fun hw => Value.read_graded hE hw _ _).bind
        fun _ w₂ h₂ _ => answered_tries h₂.hookless
    | int | rational | str => exact .throw h₁.hookless
  | fromJson text target =>
    simp only [turn]
    split
    · exact .throw hw
    case h_2 d _ =>
      obtain ⟨h, hd⟩ := d.exists_within
      refine (Turn.tries_of_graded hw fun hw => (d.canonicalize_graded hw hd).mono
        fun _ _ _ hleads hv => hleads.holds.stands hv).bind ?_
      exact fun v w₁ h₁ hv => given_tries h₁.hookless target hv
  | listFromJson text target =>
    simp only [turn]
    split
    · exact .throw hw
    case h_2 d _ =>
      obtain ⟨h, hd⟩ := d.exists_within
      exact (Turn.tries_of_graded hw fun hw => d.toSequence_graded hw hd).bind
        fun s w₁ h₁ hs => given_tries h₁.hookless target (.list hs)
  | _ => cases hsubject

theorem turn_tries (hw : w.Hookless) {step : Step} (hstep : step.Hookless) :
    Tries w (turn E step) fun _ _ => True := by
  cases hsubject : step.subject with
  | making => exact turn_tries_of_making hE hw hstep hsubject
  | lists => exact turn_tries_of_lists hE hw hstep hsubject
  | derived => exact turn_tries_of_derived hE hw hstep hsubject
  | iterations => exact turn_tries_of_iterations hE hw hstep hsubject
  | branches => exact turn_tries_of_branches hE hw hstep hsubject
  | values => exact turn_tries_of_values hE hw hstep hsubject
  | settings => exact turn_tries_of_settings hw hstep hsubject
  | exchange => exact turn_tries_of_exchange hE hw hstep hsubject

theorem answer_keeps (hw : w.Hookless) {step : Step} (hstep : step.Hookless) :
    Keeps w (answer E step) fun _ _ => True := by
  refine Keeps.bind (turn_tries hE hw hstep) fun r w' hbecomes _ => ?_
  cases r with
  | ok a => exact .pure hbecomes.hookless trivial
  | error a => exact .pure hbecomes.hookless trivial

end Unhooked

/-! ### Sessions -/

theorem start_hookless : start.Hookless := by
  refine ⟨0, Nat.le_refl _, fun t i v hv => ?_, fun t p hp => ?_, fun s i v hv => ?_,
    fun s r hr => ?_, nofun, nofun, nofun⟩
  · simp [start, World.initial, World.tape, default] at hv
  · simp [start, World.initial, World.tape, default] at hp
  · simp [start, World.initial, World.sequence, default] at hv
  · simp [start, World.initial, World.sequence, default] at hr

theorem step_unhooked {w : World host} (hw : w.Hookless) (depth : Nat) {s : Step}
    (hs : s.Hookless) : Unhooked.Keeps w (step (engine depth) s) fun _ _ => True := by
  have hE := Engine.ofBehavior_graded behavior_redeems depth
  have hdesk := Unhooked.desk_stands hw
  refine (Unhooked.changeDesk_keeps hw { hdesk with }).bind fun _ _ h _ => ?_
  refine (Unhooked.answer_keeps hE h.hookless hs).bind fun _ _ h' _ => ?_
  exact .get_bind (.pure h'.hookless trivial)

theorem mapM_step_unhooked {w : World host} (hw : w.Hookless) (depth : Nat) {session : List Step}
    (hsession : ∀ s ∈ session, s.Hookless) :
    Unhooked.Keeps w (session.mapM (step (engine depth))) fun _ _ => True := by
  induction session generalizing w with
  | nil => exact .pure hw trivial
  | cons s session ih =>
    rw [List.mapM_cons]
    refine (step_unhooked hw depth (hsession s List.mem_cons_self)).bind fun r _ h _ => ?_
    exact (ih h.hookless fun s' hs' => hsession s' (List.mem_cons_of_mem _ hs')).bind
      fun _ _ h' _ => .pure h'.hookless trivial

/-- A session none of whose steps has a hook leads to worlds without hooks. -/
theorem hookless_of_run {session : List Step} (hsession : ∀ s ∈ session, s.Hookless)
    {depth : Nat} {reports : List Report} {w : World host}
    (hrun : (session.mapM (step (engine depth))).run start = .ok (reports, w)) : w.Hookless :=
  (mapM_step_unhooked start_hookless depth hsession hrun).1.hookless

end MemoSeq.Session
