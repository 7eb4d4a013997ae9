/-
  MemoSeq/Proofs/Session/Lawful.lean
  ==================================
  **Sessions keep to the moves.**

  Every step of a session, at the top level or in a hook, is made of moves
  (`answer_moves`), and so is every call of a script and every test of a
  condition (`behavior_lawful`).  What is proved of all moves therefore holds
  throughout all sessions, and after each step of a session the world is at a moment
  that is reached (`steps_reached`).
-/
import MemoSeq.Proofs.Moments
import MemoSeq.Session.Run

namespace MemoSeq.Session

/-- What a step is about. -/
inductive Subject where
  | making
  | lists
  | derived
  | iterations
  | branches
  | values
  | settings
  | exchange

def Step.subject : Step → Subject
  | .newContainer .. | .newValues .. | .newScripted .. | .alias .. | .drop _ | .identical .. =>
    .making
  | .advance .. | .get .. | .set .. | .contains .. | .count .. | .length _ | .equals ..
  | .materialize _ | .cached _ | .display _ | .structureText _ => .lists
  | .slice .. | .filter .. | .reverse .. | .append .. => .derived
  | .iterate .. | .next _ | .take .. | .collect .. => .iterations
  | .tee .. | .nextOfBranch _ | .takeOfBranch .. | .split .. | .branchEnded _
  | .adoptBranch .. => .branches
  | .canonicalize .. | .nest .. | .ratio .. | .describe _ | .compare .. | .externalText _
  | .parseDecimal _ | .flatten _ | .flatText _ | .flatEqual .. | .toJson _ => .values
  | .limit | .setLimit _ | .displayLength | .setDisplayLength _ => .settings
  | .toValue .. | .toList .. | .fromValue .. | .fromList .. | .fromJson .. | .listFromJson .. =>
    .exchange

variable (E : Engine Session.host)

/-! ### The desk -/

theorem changeDesk_moves (f : Desk → Desk) : Act.Within E.Moves (changeDesk f) :=
  .modify fun w => .host w (f w.host)

theorem withDesk_moves {α : Type} (f : Desk → α × Desk) : Act.Within E.Moves (withDesk f) := by
  intro w x w' h
  cases h
  exact .host w _

namespace Turn

variable {α : Type} {R : World host → World host → Prop} [IsPreorder (World host) R]

theorem lift_within {a : Attempt host α} (ha : Attempt.Within R a) :
    Attempt.Within R (liftM a : Turn α) := by
  change Attempt.Within R (MonadLift.monadLift a : Turn α)
  simp only [MonadLift.monadLift]
  refine Act.Within.bind ha ?_
  intro r
  cases r with
  | ok x => exact .pure _
  | error e => exact .pure _

theorem lift_act_within {a : Act host α} (ha : a.Within R) :
    Attempt.Within R (liftM a : Turn α) :=
  lift_within (.lift ha)

end Turn

theorem sequence_moves (name : String) : Attempt.Within E.Moves (sequence name) := by
  refine Attempt.Within.get.bind ?_
  intro w
  split
  · exact .pure _
  · exact .throw _

theorem branch_moves (name : String) : Attempt.Within E.Moves (branch name) := by
  refine Attempt.Within.get.bind ?_
  intro w
  split
  · exact .pure _
  · exact .throw _

theorem newScript_moves (supply : Supply Entry) (counter : Option String) :
    Act.Within E.Moves (newScript supply counter) :=
  (withDesk_moves E _).bind fun _ => .pure _

/-! ### Terms -/

mutual

theorem Term.read_moves : ∀ t : Term, Attempt.Within E.Moves t.read
  | .int _ | .rational _ | .float _ | .str _ | .symbolic _ => .pure _
  | .items terms => (Term.readAll_moves terms).bind fun _ => .pure _
  | .named name => (sequence_moves E name).bind fun _ => .pure _
  | .canonical t => (Term.read_moves t).bind fun x =>
      (Turn.lift_within (canonicalize_moves E x)).bind fun _ => .pure _
  | .iterator supply counter =>
      (Turn.lift_act_within (newScript_moves E supply counter)).bind fun _ => .pure _

theorem Term.readAll_moves : ∀ terms : List Term, Attempt.Within E.Moves (Term.readAll terms)
  | [] => .pure _
  | t :: terms =>
      (Term.read_moves t).bind fun _ => (Term.readAll_moves terms).bind fun _ => .pure _

end

theorem Term.value_moves (t : Term) : Attempt.Within E.Moves t.value :=
  (t.read_moves E).bind fun x => Turn.lift_within (canonicalize_moves E x)

mutual

theorem Offer.read_moves : ∀ o : Offer Term, Attempt.Within E.Moves o.read
  | .host _ => .pure _
  | .canonical t => (t.value_moves E).bind fun _ => .pure _
  | .external t => t.read_moves E
  | .named name => (sequence_moves E name).bind fun _ => .pure _
  | .vector offers => (Offer.readAll_moves offers).bind fun _ => .pure _

theorem Offer.readAll_moves : ∀ offers : List (Offer Term),
    Attempt.Within E.Moves (Offer.readAll offers)
  | [] => .pure _
  | o :: offers =>
      (Offer.read_moves o).bind fun _ => (Offer.readAll_moves offers).bind fun _ => .pure _

end

theorem Condition.read_moves (c : Condition Term Step) : Attempt.Within E.Moves c.read := by
  cases c with
  | all | none | number | even | kind | after => exact .pure _
  | equalTo t | unequalTo t | below t | atMost t | above t | atLeast t | failsOn t =>
    exact (t.value_moves E).bind fun _ => .pure _

/-! ### Answers, iterations and branches -/

theorem written_moves (v : Value) : Act.Within E.Moves (written v) :=
  Act.Within.get.bind fun _ => .pure _

theorem writtenAll_moves (vs : List Value) : Act.Within E.Moves (writtenAll vs) :=
  Act.Within.get.bind fun _ => .pure _

theorem bindTarget_moves (target : Option String) (v : Value) :
    Act.Within E.Moves (bindTarget target v) := by
  unfold bindTarget
  split
  · exact changeDesk_moves E _
  · exact .pure _

theorem give_moves (target : Option String) (v : Value) :
    Act.Within E.Moves (give target v) :=
  (written_moves E v).bind fun _ => (bindTarget_moves E target v).bind fun _ => .pure _

theorem giveItem_moves (item : Option Item) : Act.Within E.Moves (giveItem item) := by
  match item with
  | none => exact .pure _
  | some (.ok v) => exact written_moves E v
  | some (.error e) => exact .pure _

section Driving

variable {β : Type} {next : β → Act host (Option Item × β)}

theorem takeItems_moves (h : ∀ b, Act.Within E.Moves (next b)) (count : Nat) (b : β)
    (taken : List (Outcome Snapshot)) : Act.Within E.Moves (takeItems next count b taken) := by
  induction count generalizing b taken with
  | zero => exact .pure _
  | succ count ih =>
    refine (h b).bind ?_
    intro x
    match x with
    | (none, b) => exact .pure _
    | (some (.error e), b) => exact ih b _
    | (some (.ok v), b) => exact Act.Within.get.bind fun _ => ih b _

theorem takeItem_moves (h : ∀ b, Act.Within E.Moves (next b)) (b : β) :
    Act.Within E.Moves (takeItem next b) :=
  (h b).bind fun _ => (giveItem_moves E _).bind fun _ => .pure _

end Driving

theorem withIteration_moves (name : String)
    {drive : Iteration → Act host (Answer × Iteration)}
    (h : ∀ i, Act.Within E.Moves (drive i)) :
    Attempt.Within E.Moves (withIteration name drive) := by
  refine Attempt.Within.get.bind ?_
  intro w
  split
  · exact .throw _
  · exact (Turn.lift_act_within (changeDesk_moves E _)).bind fun _ =>
      (Turn.lift_act_within (h _)).bind fun _ =>
        (Turn.lift_act_within (changeDesk_moves E _)).bind fun _ => .pure _

theorem withBranch_moves (name : String) {drive : Reader → Act host (Answer × Reader)}
    (h : ∀ r, Act.Within E.Moves (drive r)) :
    Attempt.Within E.Moves (withBranch name drive) :=
  (branch_moves E name).bind fun _ =>
    (Turn.lift_act_within (changeDesk_moves E _)).bind fun _ =>
      (Turn.lift_act_within (h _)).bind fun ⟨_, _⟩ =>
        (Turn.lift_act_within (changeDesk_moves E _)).bind fun _ => .pure _

theorem skipCalls_moves (count : Nat) (s : Script) :
    Act.Within E.Moves (skipCalls E count s) := by
  induction count generalizing s with
  | zero => exact .pure s
  | succ count ih =>
    exact Act.Within.bind (fun _ _ _ => Engine.Moves.pull (E := E) s) fun x => ih x.2

theorem nest_moves (depth : Nat) (v : Value) : Act.Within E.Moves (nest depth v) := by
  induction depth generalizing v with
  | zero => exact .pure v
  | succ depth ih => exact (Sequence.adopt_moves E _ _).bind fun _ => ih _

/-! ### Steps -/

theorem turn_moves_of_making {step : Step}
    (hsubject : step.subject = .making) :
    Attempt.Within E.Moves (turn E step) := by
  cases step with
  | newContainer name items infinite =>
    exact (Term.readAll_moves E items).bind fun _ =>
      (Turn.lift_act_within (Sequence.adopt_moves E _ _)).bind fun _ =>
        (Turn.lift_act_within (bindTarget_moves E _ _)).bind fun _ => .pure _
  | newValues name items =>
    exact (Term.readAll_moves E items).bind fun _ =>
      (Turn.lift_within (.mapM (canonicalize_moves E) _)).bind fun _ =>
        (Turn.lift_act_within (Sequence.adopt_moves E _ _)).bind fun _ =>
          (Turn.lift_act_within (bindTarget_moves E _ _)).bind fun _ => .pure _
  | newScripted name supply infinite skip announced =>
    refine (Turn.lift_act_within (newScript_moves E _ _)).bind fun script =>
      (Turn.lift_act_within (skipCalls_moves E _ _)).bind ?_
    intro script
    have rest : Attempt.Within E.Moves (do
        let s ← Sequence.ofSource (H := host) script infinite
        bindTarget name (.list s)
        return .nothing : Turn Answer) :=
      (Turn.lift_act_within (Sequence.adopt_moves E _ _)).bind fun _ =>
        (Turn.lift_act_within (bindTarget_moves E _ _)).bind fun _ => .pure _
    dsimp only
    split
    · exact (Turn.lift_act_within (changeDesk_moves E _)).bind fun _ => rest
    · exact rest
  | «alias» list name =>
    exact (sequence_moves E _).bind fun _ =>
      (Turn.lift_act_within (bindTarget_moves E _ _)).bind fun _ => .pure _
  | drop name => exact (Turn.lift_act_within (withDesk_moves E _)).bind fun _ => .pure _
  | identical list other =>
    exact (sequence_moves E _).bind fun _ => (sequence_moves E _).bind fun _ => .pure _
  | _ => cases hsubject

theorem turn_moves_of_lists {step : Step}
    (hsubject : step.subject = .lists) :
    Attempt.Within E.Moves (turn E step) := by
  cases step with
  | advance list target =>
    refine (sequence_moves E _).bind fun s =>
      (Turn.lift_within (s.advance_moves E)).bind ?_
    intro x
    cases x with
    | none => exact .pure _
    | some v => exact Turn.lift_act_within (give_moves E _ _)
  | get list index target =>
    exact (sequence_moves E _).bind fun s =>
      (Turn.lift_within (s.read_moves E index)).bind fun _ =>
        Turn.lift_act_within (give_moves E _ _)
  | set list index t =>
    exact (t.read_moves E).bind fun x => (sequence_moves E _).bind fun s =>
      (Turn.lift_within (s.overwrite_moves E index x)).bind fun _ => .pure _
  | contains list t =>
    exact (sequence_moves E _).bind fun s => (t.value_moves E).bind fun v =>
      (Turn.lift_within (s.contains_moves E v)).bind fun _ => .pure _
  | count list t =>
    exact (sequence_moves E _).bind fun s => (t.value_moves E).bind fun v =>
      (Turn.lift_within (s.count_moves E v)).bind fun _ => .pure _
  | length list =>
    exact (sequence_moves E _).bind fun s =>
      (Turn.lift_within (s.length_moves E)).bind fun _ => .pure _
  | equals list t =>
    exact (sequence_moves E _).bind fun s => (t.value_moves E).bind fun v =>
      (Turn.lift_within (s.equals_moves E v)).bind fun _ => .pure _
  | materialize list =>
    exact (sequence_moves E _).bind fun s =>
      (Turn.lift_within (s.materialize_moves E)).bind fun _ =>
        (Turn.lift_act_within (writtenAll_moves E _)).bind fun _ => .pure _
  | cached list =>
    exact (sequence_moves E _).bind fun s => Attempt.Within.get.bind fun _ =>
      (Turn.lift_act_within (writtenAll_moves E _)).bind fun _ => .pure _
  | display list | structureText list =>
    exact (sequence_moves E _).bind fun s => Attempt.Within.get.bind fun _ => .pure _
  | _ => cases hsubject

theorem turn_moves_of_derived {step : Step}
    (hsubject : step.subject = .derived) :
    Attempt.Within E.Moves (turn E step) := by
  cases step with
  | slice list start stop step asSequence target =>
    refine (sequence_moves E _).bind fun s =>
      (Turn.lift_within (s.slice_moves E start stop step)).bind ?_
    intro slice
    dsimp only
    split
    · exact (Turn.lift_act_within (slice.toSequence_moves E)).bind fun _ =>
        Attempt.Within.get.bind fun _ =>
          (Turn.lift_act_within (bindTarget_moves E _ _)).bind fun _ => .pure _
    · exact (Turn.lift_within (slice.toList_moves E)).bind fun _ =>
        (Turn.lift_act_within (writtenAll_moves E _)).bind fun _ => .pure _
  | filter list condition spare target =>
    refine (sequence_moves E _).bind ?_
    intro s
    refine (condition.read_moves E).bind ?_
    intro c
    have rest : Attempt.Within E.Moves (do
        give target (.list (← s.filter (H := host) c)) : Turn Answer) :=
      (Turn.lift_act_within (s.filter_moves E c)).bind fun _ =>
        Turn.lift_act_within (give_moves E _ _)
    cases spare with
    | none => exact rest
    | some t => exact ((t.value_moves E).map _).bind fun _ => rest
  | reverse list target =>
    exact (sequence_moves E _).bind fun s =>
      (Turn.lift_within (s.reverse_moves E)).bind fun _ =>
        Turn.lift_act_within (give_moves E _ _)
  | append list other target =>
    exact (sequence_moves E _).bind fun s => (sequence_moves E _).bind fun t =>
      (Turn.lift_act_within (s.append_moves E t)).bind fun _ =>
        Turn.lift_act_within (give_moves E _ _)
  | _ => cases hsubject

theorem turn_moves_of_iterations {step : Step}
    (hsubject : step.subject = .iterations) :
    Attempt.Within E.Moves (turn E step) := by
  cases step with
  | iterate list name =>
    exact (sequence_moves E _).bind fun s => Attempt.Within.get.bind fun _ =>
      (Turn.lift_act_within (changeDesk_moves E _)).bind fun _ => .pure _
  | next name =>
    exact withIteration_moves E _ (takeItem_moves E fun i => i.next_moves E)
  | take name count =>
    exact withIteration_moves E _ fun i => takeItems_moves E (fun i => i.next_moves E) _ i _
  | collect list count =>
    exact (sequence_moves E _).bind fun s => Attempt.Within.get.bind fun w =>
      (Turn.lift_act_within (takeItems_moves E (fun i => i.next_moves E) _ _ _)).bind
        fun ⟨_, _⟩ => .pure _
  | _ => cases hsubject

theorem turn_moves_of_branches {step : Step}
    (hsubject : step.subject = .branches) :
    Attempt.Within E.Moves (turn E step) := by
  cases step with
  | tee supply left right counter =>
    exact (Turn.lift_act_within (newScript_moves E _ _)).bind fun _ =>
      (Turn.lift_act_within (Reader.onto_moves E _)).bind fun _ =>
        (Turn.lift_act_within (changeDesk_moves E _)).bind fun _ => .pure _
  | nextOfBranch name =>
    exact withBranch_moves E _ (takeItem_moves E fun r => r.next_moves E)
  | takeOfBranch name count =>
    exact withBranch_moves E _ fun r => takeItems_moves E (fun r => r.next_moves E) _ r _
  | split name other =>
    exact (branch_moves E _).bind fun _ =>
      (Turn.lift_act_within (changeDesk_moves E _)).bind fun _ => .pure _
  | branchEnded name =>
    exact (branch_moves E _).bind fun _ => Attempt.Within.get.bind fun _ => .pure _
  | adoptBranch name list infinite =>
    exact (branch_moves E _).bind fun _ =>
      (Turn.lift_act_within (changeDesk_moves E _)).bind fun _ =>
        (Turn.lift_act_within (Sequence.adopt_moves E _ _)).bind fun _ =>
          (Turn.lift_act_within (bindTarget_moves E _ _)).bind fun _ => .pure _
  | _ => cases hsubject

theorem turn_moves_of_values {step : Step}
    (hsubject : step.subject = .values) :
    Attempt.Within E.Moves (turn E step) := by
  cases step with
  | canonicalize t target =>
    exact (t.value_moves E).bind fun _ => Turn.lift_act_within (give_moves E _ _)
  | nest t depth name =>
    exact (t.value_moves E).bind fun _ => (Turn.lift_act_within (nest_moves E _ _)).bind fun _ =>
      (Turn.lift_act_within (bindTarget_moves E _ _)).bind fun _ => .pure _
  | ratio num den =>
    simp only [turn]
    split
    · exact Turn.lift_act_within (written_moves E _)
    · exact Turn.lift_act_within .abort
  | describe t =>
    exact (t.value_moves E).bind fun _ => Attempt.Within.get.bind fun _ => .pure _
  | compare s t =>
    exact (s.value_moves E).bind fun a => (t.value_moves E).bind fun b =>
      (Turn.lift_act_within (a.same_moves E b)).bind fun _ => .pure _
  | externalText t =>
    exact (t.read_moves E).bind fun _ => Attempt.Within.get.bind fun _ => .pure _
  | parseDecimal text =>
    exact (Turn.lift_within (.ofOutcome _)).bind fun _ => .pure _
  | flatten t | flatText t | toJson t =>
    exact (t.value_moves E).bind fun v =>
      (Turn.lift_within (v.flatten_moves E)).bind fun _ => .pure _
  | flatEqual s t =>
    exact (s.value_moves E).bind fun v => (Turn.lift_within (v.flatten_moves E)).bind fun _ =>
      (t.value_moves E).bind fun v =>
        (Turn.lift_within (v.flatten_moves E)).bind fun _ => .pure _
  | _ => cases hsubject

theorem turn_moves_of_settings {step : Step}
    (hsubject : step.subject = .settings) :
    Attempt.Within E.Moves (turn E step) := by
  cases step with
  | limit =>
    refine Attempt.Within.get.bind ?_
    intro w
    split <;> exact .pure _
  | setLimit limit =>
    refine Attempt.Within.get.bind fun w =>
      (Turn.lift_act_within (.modify fun w => .limit w limit)).bind ?_
    intro _
    split <;> exact .pure _
  | displayLength => exact Attempt.Within.get.bind fun _ => .pure _
  | setDisplayLength length =>
    exact Attempt.Within.get.bind fun w =>
      (Turn.lift_act_within (.modify fun w => .displayLength w length)).bind fun _ => .pure _
  | _ => cases hsubject

theorem turn_moves_of_exchange {step : Step}
    (hsubject : step.subject = .exchange) :
    Attempt.Within E.Moves (turn E step) := by
  cases step with
  | toValue offer target =>
    exact (offer.read_moves E).bind fun x =>
      (Turn.lift_within (canonicalize_moves E x)).bind fun _ =>
        Turn.lift_act_within (give_moves E _ _)
  | toList offers target =>
    exact (Offer.readAll_moves E offers).bind fun _ =>
      (Turn.lift_act_within (Sequence.adopt_moves E _ _)).bind fun _ =>
        Turn.lift_act_within (give_moves E _ _)
  | fromValue type t =>
    exact (t.value_moves E).bind fun v =>
      (Turn.lift_within (v.read_moves E type)).bind fun _ => .pure _
  | fromList element t =>
    refine (t.value_moves E).bind ?_
    intro v
    cases v with
    | list s => exact (Turn.lift_within (Value.read_moves E _ _)).bind fun _ => .pure _
    | int | rational | str => exact .throw _
  | fromJson text target =>
    simp only [turn]
    split
    · exact .throw _
    · exact (Turn.lift_within (Document.canonicalize_moves E _)).bind fun _ =>
        Turn.lift_act_within (give_moves E _ _)
  | listFromJson text target =>
    simp only [turn]
    split
    · exact .throw _
    · exact (Turn.lift_within (Document.toSequence_moves E _)).bind fun _ =>
        Turn.lift_act_within (give_moves E _ _)
  | _ => cases hsubject

theorem turn_moves (step : Step) : Attempt.Within E.Moves (turn E step) := by
  cases hsubject : step.subject with
  | making => exact turn_moves_of_making E hsubject
  | lists => exact turn_moves_of_lists E hsubject
  | derived => exact turn_moves_of_derived E hsubject
  | iterations => exact turn_moves_of_iterations E hsubject
  | branches => exact turn_moves_of_branches E hsubject
  | values => exact turn_moves_of_values E hsubject
  | settings => exact turn_moves_of_settings E hsubject
  | exchange => exact turn_moves_of_exchange E hsubject

theorem answer_moves (step : Step) : Act.Within E.Moves (answer E step) := by
  refine Act.Within.bind (turn_moves E step) ?_
  intro r
  cases r with
  | ok a => exact .pure a
  | error a => exact .pure a

/-! ### Scripts and conditions -/

theorem runHook_moves (steps : List Step) : Act.Within E.Moves (runHook E steps) := by
  induction steps with
  | nil => exact .pure _
  | cons step steps ih =>
    exact ((answer_moves E step).bind fun _ => changeDesk_moves E _).bind fun _ => ih

theorem Entry.give_moves : ∀ entry : Entry, Act.Within E.Moves (entry.give E)
  | .term t => by
    refine Act.Within.bind (t.read_moves E) ?_
    intro r
    match r with
    | .ok x => exact .pure _
    | .error a => cases a <;> exact .pure _
  | .hook steps entry => (runHook_moves E steps).bind fun _ => Entry.give_moves entry
  | .pause | .failure _ => .pure _

theorem Script.pull_moves (s : Script) : Act.Within E.Moves (s.pull E) := by
  refine (changeDesk_moves E _).bind ?_
  intro _
  dsimp only
  split
  · exact (Entry.give_moves E _).bind fun _ => .pure _
  · exact (Act.Within.pure _).bind fun _ => .pure _

theorem Condition.test_moves (c : Condition Value Step) (v : Value) :
    Attempt.Within E.Moves (c.test E v) := by
  cases c with
  | equalTo operand => exact .lift (v.same_moves E operand)
  | unequalTo operand =>
    exact (Attempt.Within.lift (v.same_moves E operand)).bind fun _ => .pure _
  | all | none | below | atMost | above | atLeast | number | kind => exact .pure _
  | even => cases v <;> exact .pure _
  | failsOn operand message =>
    refine (Attempt.Within.lift (v.same_moves E operand)).bind ?_
    intro found
    cases found with
    | true => exact (Attempt.Within.throw _).bind fun _ => .pure _
    | false => exact .pure _
  | after steps => exact (Attempt.Within.lift (runHook_moves E steps)).bind fun _ => .pure _

theorem behavior_lawful : behavior.Lawful where
  pull := Script.pull_moves
  test := Condition.test_moves

/-! ### Moments of sessions -/

theorem step_moves (s : Step) : Act.Within E.Moves (step E s) :=
  (changeDesk_moves E _).bind fun _ => (answer_moves E s).bind fun _ =>
    Act.Within.get.bind fun _ => .pure _

theorem mapM_step_moves (steps : List Step) : Act.Within E.Moves (steps.mapM (step E)) := by
  induction steps with
  | nil => exact .pure _
  | cons s steps ih =>
    rw [List.mapM_cons]
    exact (step_moves E s).bind fun _ => ih.bind fun _ => .pure _

/-- The world after some steps of a session is at a moment outside all calls. -/
theorem steps_reached {depth : Nat} {steps : List Step} {reports : List Report} {w : World host}
    (h : (steps.mapM (step (engine depth))).run start = .ok (reports, w)) :
    Moment.Reached ⟨w, []⟩ := by
  have hmoves := mapM_step_moves (engine depth) steps h
  exact ⟨default, Engine.moves_steps behavior_lawful hmoves []⟩

end MemoSeq.Session
