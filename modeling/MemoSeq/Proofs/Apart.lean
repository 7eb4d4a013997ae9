/-
  MemoSeq/Proofs/Apart.lean
  =========================
  **Iterations and their list do not interfere.**

  Some steps of a session are taken aside: iterations over a list are opened, driven and
  dropped, it is filtered and concatenated, and what comes of this is forced.  If they change
  no list that the others have made, the others report what they would report without them
  (`Session.attend_follows`).  The lists and tapes have other numbers then, and the tapes have
  been read another way.

  That the steps aside do not change such a list is so by itself if they work only on what
  they have made, and look at lists of numbers and texts (`Session.Confined.separate`).
-/
import MemoSeq.Proofs.Twin.Scopes

namespace MemoSeq.Session

variable {E : Engine host} {V : String → Prop} {depth depth' : Nat}

/-! ### Steps aside -/

/-- A step of a session, for its own sake or aside. -/
inductive Doing where
  | keep (s : Step)
  | aside (s : Step)

namespace Doing

def step : Doing → Step
  | keep s | aside s => s

def kept? : Doing → Option Step
  | keep s => some s
  | aside _ => none

/-- What has been made aside, after it. -/
def made (m : Made) (w v : World host) : Doing → Made
  | keep _ => m
  | aside _ => m.since w v

end Doing

def kept (doings : List Doing) : List Step := doings.filterMap Doing.kept?

theorem kept_keep (s : Step) (doings : List Doing) :
    kept (.keep s :: doings) = s :: kept doings := rfl

/-- Takes all steps, and gives the reports on those that are not aside. -/
def attend (E : Engine host) : List Doing → Act host (List Report)
  | [] => return []
  | .keep s :: rest => do
    let r ← Session.step E s
    return r :: (← attend E rest)
  | .aside s :: rest => do
    let _ ← Session.step E s
    attend E rest

/-- Something holds of each step of a session, with what has been made aside before. -/
def Throughout (E : Engine host) (P : Made → World host → Doing → Report → World host → Prop) :
    Made → World host → List Doing → Prop
  | _, _, [] => True
  | m, w, d :: rest => ∀ r v, (Session.step E d.step).run w = .ok (r, v) →
    P m w d r v ∧ Throughout E P (d.made m w v) v rest

/-- A step that is not aside uses names of its own kind, and one moment only shows in its
    answer.  If this shows what is cached in lists, none of theirs lies within itself. -/
def Doing.Tells (V : String → Prop) (m : Made) (r : Report) (v : World host) : Doing → Prop
  | .keep s => s.Uses ⟨V, V, True⟩ ∧ s.Told ∧
    (r.answer.Shows → ∀ u, ¬ m.lists u → v.Acyclic u)
  | .aside _ => True

/-- A step aside changes only what was made aside.  Tapes of fixed numbers and texts may be
    read on. -/
def Doing.Spares (V : String → Prop) (m : Made) (w v : World host) : Doing → Prop
  | .keep _ => True
  | .aside _ => w.Spared V m v

/-- A step aside uses only names of `U`, and through those that are only for looking there is
    nothing to be found but lists of numbers and texts. -/
def Doing.StaysWithin (U : Usage) (S : Sequence → Prop) (v : World host) : Doing → Prop
  | .keep _ => Scope.Looks U S v
  | .aside s => s.Uses U

/-- In this session the steps aside stay apart from the others. -/
def Separate (E : Engine host) (V : String → Prop) : Made → World host → List Doing → Prop :=
  Throughout E fun m w d r v => d.Tells V m r v ∧ d.Spares V m w v

/-! ### Without the steps aside -/

/-- Nothing corresponds yet. -/
def fresh (V : String → Prop) : Pairing where
  toUsage := ⟨V, V, True⟩
  seen _ _ := False
  lists _ _ := False
  seen_of_lists := id
  tapes _ _ := False
  reach _ := 0
  otherLists _ := False
  otherTapes _ := False

theorem start_twin (V : String → Prop) : start.Twin (fresh V) start where
  lists := ⟨False.elim, False.elim, False.elim, False.elim⟩
  tapes := ⟨False.elim, False.elim, False.elim, False.elim⟩
  cell := False.elim
  tape := False.elim
  reach := False.elim
  reach_eq _ _ := rfl
  limit := rfl
  displayLength := rfl
  desk := ⟨fun _ _ => .none, fun _ _ => .none, fun _ _ => .none, fun _ _ => .none⟩

/-- Reports that are like the same others are alike. -/
theorem Report.alike_of_alone {reports reports' alone : List Report}
    (h : List.Forall₂ (Report.Alike V) reports alone)
    (h' : List.Forall₂ (Report.Alike V) reports' alone) :
    List.Forall₂ (Report.Alike V) reports reports' := by
  induction h generalizing reports' with
  | nil =>
    cases h'
    exact .nil
  | cons hr _ ih =>
    cases h' with
    | cons hr' hrest =>
      exact .cons ⟨hr'.answer.symm.trans hr.answer, fun name hname =>
        (hr'.shown name hname).symm.trans (hr.shown name hname)⟩ (ih hrest)

variable {τ : TwinWorlds} {doings : List Doing}

/-- The steps that are not aside report alike in a twin world where nothing is done aside. -/
theorem attend_follows (hE : (engine depth).Follows (engine depth'))
    (husage : τ.pairing.toUsage = ⟨V, V, True⟩)
    (hapart : Separate (engine depth) V τ.pairing.made τ.first doings) {reports : List Report}
    {w : World host} (hrun : (attend (engine depth) doings).run τ.first = .ok (reports, w)) :
    ∃ reports' w', ((kept doings).mapM (Session.step (engine depth'))).run τ.second =
      .ok (reports', w') ∧ List.Forall₂ (Report.Alike V) reports reports' := by
  have hV : τ.pairing.names = V := congrArg Usage.names husage
  induction doings generalizing τ reports with
  | nil =>
    cases hrun
    exact ⟨[], _, rfl, .nil⟩
  | cons doing doings ih =>
    cases doing with
    | keep s =>
      obtain ⟨r, v, hr, hrun⟩ := Act.run_bind_eq_ok.mp hrun
      obtain ⟨rs, u, hrs, hrun⟩ := Act.run_bind_eq_ok.mp hrun
      cases hrun
      obtain ⟨⟨⟨huses, htold, hacyclic⟩, -⟩, hrest⟩ := hapart r v hr
      obtain ⟨τ', r', rfl, hr', hτ, hleaves, halike⟩ := step_follows hE (husage ▸ huses) hr
      have hwhole (hshows : r.answer.Shows) : τ'.Whole :=
        fun u hu => hacyclic hshows u fun hmade => hu (hleaves.otherLists ▸ hmade)
      obtain ⟨rs', v', hrs', hall⟩ := ih (hτ.usage.trans husage) (hleaves.made ▸ hrest) hrs
        (hτ.names.trans hV)
      refine ⟨r' :: rs', v', ?_, .cons (hV ▸ halike htold hwhole) hall⟩
      rw [kept_keep, List.mapM_cons, Act.run_bind_of_eq hr', Act.run_bind_of_eq hrs']
      rfl
    | aside s =>
      obtain ⟨r, v, hr, hrun⟩ := Act.run_bind_eq_ok.mp hrun
      obtain ⟨⟨-, hspared⟩, hrest⟩ := hapart r v hr
      have htwin := τ.twin.besides (step_moves _ s hr) (hV ▸ hspared) (by simp [husage])
      exact ih (τ := ⟨_, _, _, htwin⟩) husage hrest hrun hV

/-! ### Steps that stay apart -/

/-- In this session the steps aside use only names of `U`, and the lists that they look at
    are of numbers and texts. -/
def Confined (E : Engine host) (V : String → Prop) (U : Usage) (S : Sequence → Prop) :
    Made → World host → List Doing → Prop :=
  Throughout E fun m _ d r v => d.Tells V m r v ∧ d.StaysWithin U S v

variable {U : Usage} {S : Sequence → Prop} {A : Scope}

/-- Steps aside that work only on what they have made stay apart. -/
theorem Confined.separate (hE : (engine depth).Follows (engine depth'))
    (husage : τ.pairing.toUsage = ⟨V, V, True⟩) (hU : A.toUsage = U)
    (hA : A.Aside V τ.pairing.made τ.first) (hseen : ∀ s, A.seen s → A.lists s ∨ S s)
    (h : Confined (engine depth) V U S τ.pairing.made τ.first doings) :
    Separate (engine depth) V τ.pairing.made τ.first doings := by
  have hV : τ.pairing.names = V := congrArg Usage.names husage
  induction doings generalizing τ A with
  | nil => trivial
  | cons doing doings ih =>
    intro r v hr
    obtain ⟨⟨htells, hstays⟩, hrest⟩ := h r v hr
    cases doing with
    | keep s =>
      obtain ⟨τ', r', rfl, -, hτ, hleaves, -⟩ := step_follows hE (husage ▸ htells.1) hr
      have hbypasses : τ.first.Bypasses τ.pairing.made.tapes τ.pairing.made.lists τ'.first :=
        (World.Bypasses.refl τ.first).trans hleaves.bypasses
          (fun t ht _ t' hpaired => τ.twin.tapes.own hpaired ht)
          fun s hs _ s' hpaired => τ.twin.lists.own (τ.pairing.seen_of_lists hpaired) hs
      have hA' := hA.goes_on (step_moves _ s hr) hbypasses (hV ▸ hleaves.desk) hseen
        (hU.symm ▸ hstays)
      refine ⟨⟨htells, trivial⟩, ?_⟩
      rw [Doing.made, ← hleaves.made] at hrest ⊢
      rw [← hleaves.made] at hA'
      exact ih (A := A.widened S τ'.first) (hτ.usage.trans husage) hU hA'
        (fun _ hseen => hseen.imp_right And.left) hrest (hτ.names.trans hV)
    | aside s =>
      obtain ⟨hspared, B, hB, haside, hlooked, hlists⟩ := hA.step (hU ▸ hstays) hr
      have htwin := τ.twin.besides (step_moves _ s hr) (hV ▸ hspared) (by simp [husage])
      refine ⟨⟨trivial, hspared⟩,
        ih (τ := ⟨_, _, _, htwin⟩) husage (hB.trans hU) haside ?_ hrest hV⟩
      intro u hu
      exact (hlooked u hu).elim (fun hu => (hseen u hu).imp_left (hlists u)) .inl

def Scope.fresh (U : Usage) : Scope where
  toUsage := U
  seen _ := False
  lists _ := False
  seen_of_lists := id
  tapes _ := False

theorem fresh_aside (hsettings : ¬ U.settings) (hnames : ∀ name, V name → ¬ U.names name) :
    (Scope.fresh U).Aside V .none start where
  confines := Scope.confines_of (fun _ => False.elim) (fun _ => False.elim) (fun _ => False.elim)
    (fun _ => False.elim) ⟨fun _ _ => .none, fun _ _ => .none, fun _ _ => .none, fun _ _ => .none⟩
  settings := hsettings
  names := hnames
  lists _ := False.elim
  tapes _ := False.elim

/-! ### Iterations and their list -/

/-- - An iteration that is opened over a list of fixed numbers and texts when no call is open
      gives what it found cached and behind that the fixed items, whatever is done between its
      items, and does so to the end.
    - If the steps aside change nothing that the others have made, the others report alike
      without them.
    - So they report alike also if other steps are taken aside.
    - The steps aside change nothing of the kind if they use names of their own, leave the
      settings, and look only at lists of numbers and texts besides what they have made. -/
theorem apart_from_iterations :
    (∀ {items stage}, behavior.Streams items stage → ∀ p, stage 0 p → ∀ w₀ w₁ s infinite,
      Moment.Reached ⟨w₀, []⟩ → (Sequence.adopt p infinite).run w₀ = .ok (s, w₁) →
      ∀ depth, 2 ≤ depth → ∀ w given i w', (engine depth).Moves w₁ w →
        (w.iteration s).Asked (engine depth) w given i w' →
        (∀ j x, given[j]? = some x → x = ((w.sequence s).cache[j]?.or (items j)).map .ok) ∧
        ∃ i' w'', (i.next (engine depth)).run w' =
          .ok ((((w.sequence s).cache[given.length]?.or (items given.length)).map .ok, i'),
            w'')) ∧
    (∀ V depth doings reports w, Separate (engine depth) V .none start doings →
      (attend (engine depth) doings).run start = .ok (reports, w) →
      ∀ depth', depth + 2 ≤ depth' →
        ∃ reports' w', ((kept doings).mapM (step (engine depth'))).run start =
          .ok (reports', w') ∧ List.Forall₂ (Report.Alike V) reports reports') ∧
    (∀ V depth depth' doings doings' reports reports' w w',
      Separate (engine depth) V .none start doings →
        Separate (engine depth') V .none start doings' →
      kept doings' = kept doings →
      (attend (engine depth) doings).run start = .ok (reports, w) →
      (attend (engine depth') doings').run start = .ok (reports', w') →
      List.Forall₂ (Report.Alike V) reports reports') ∧
    (∀ V U S depth doings, ¬ U.settings → (∀ name, V name → ¬ U.names name) →
      Confined (engine depth) V U S .none start doings →
      Separate (engine depth) V .none start doings) := by
  have follows {depth depth' : Nat} (hdepth : depth + 2 ≤ depth') :
      (engine depth).Follows (engine depth') := Engine.ofBehavior_follows hdepth
  -- what the others report is told by their own steps, with a few levels more to be safe
  have without {V : String → Prop} {depth depth' : Nat} {doings : List Doing}
      {reports : List Report} {w : World host} (hdepth : depth + 2 ≤ depth')
      (h : Separate (engine depth) V .none start doings)
      (hrun : (attend (engine depth) doings).run start = .ok (reports, w)) :
      ∃ reports' w', ((kept doings).mapM (step (engine depth'))).run start =
        .ok (reports', w') ∧ List.Forall₂ (Report.Alike V) reports reports' :=
    attend_follows (τ := ⟨_, _, _, start_twin V⟩) (follows hdepth) rfl h hrun
  refine ⟨?_, ?_, ?_, ?_⟩
  · intro items stage hS p hp w₀ w₁ s infinite hreached hmade depth hdepth w given i w' hmoves
      hasked
    exact hasked.gives behavior_lawful hS hdepth
      (Sequence.supplies_of_made behavior_lawful hS hp hreached hmade hmoves)
  · intro V depth doings reports w h hrun depth' hdepth
    exact without hdepth h hrun
  · intro V depth depth' doings doings' reports reports' w w' h h' hkept hrun hrun'
    have hdepth : depth + 2 ≤ max depth depth' + 2 :=
      Nat.add_le_add_right (Nat.le_max_left _ _) 2
    have hdepth' : depth' + 2 ≤ max depth depth' + 2 :=
      Nat.add_le_add_right (Nat.le_max_right _ _) 2
    -- both are compared with the session in which nothing is done aside
    obtain ⟨alone, v, halone, hall⟩ := without hdepth h hrun
    obtain ⟨alone', v', halone', hall'⟩ := without hdepth' h' hrun'
    rw [hkept] at halone'
    cases halone.symm.trans halone'
    exact Report.alike_of_alone hall hall'
  · intro V U S depth doings hsettings hnames h
    exact Confined.separate (τ := ⟨_, _, _, start_twin V⟩) (follows (Nat.le_refl _)) rfl rfl
      (fresh_aside hsettings hnames) (fun _ => False.elim) h

/-! ### Sessions that are run -/

/-- Takes all steps, and checks the report and the world after each. -/
def checked (E : Engine host) (check : Doing → Report → World host → Bool) :
    World host → List Doing → Bool
  | _, [] => true
  | w, d :: rest =>
    match (step E d.step).run w with
    | .ok (r, v) => check d r v && checked E check v rest
    | .error _ => true

theorem Throughout.of_checked {P : Made → World host → Doing → Report → World host → Prop}
    {I : World host → Prop} {check : Doing → Report → World host → Bool} {doings : List Doing}
    (h : ∀ d ∈ doings, ∀ {m w r v}, I w → (step E d.step).run w = .ok (r, v) → check d r v = true →
      P m w d r v ∧ I v) {m : Made} {w : World host} (hI : I w)
    (hchecked : checked E check w doings = true) : Throughout E P m w doings := by
  induction doings generalizing m w with
  | nil => trivial
  | cons d doings ih =>
    intro r v hr
    rw [checked, hr, Bool.and_eq_true] at hchecked
    obtain ⟨hcheck, hrest⟩ := hchecked
    obtain ⟨hP, hI⟩ := h d List.mem_cons_self hI hr hcheck
    exact ⟨hP, ih (fun d hd => h d (List.mem_cons_of_mem _ hd)) hI hrest⟩

/-- A list is made.  An iteration over it is driven, and a filter of it concatenated with it
    and forced, while a value is put into it. -/
def besideList : List Doing :=
  [.keep (.newContainer "L" [.int 1, .int 2, .int 3] false), .aside (.iterate "L" "i"),
    .aside (.next "i"), .aside (.filter "L" .even none (some "F")), .keep (.set "L" 0 (.int 9)),
    .aside (.append "L" "F" (some "A")), .aside (.materialize "A"), .aside (.next "i"),
    .keep (.cached "L"), .keep (.length "L")]

/-- The names of what is aside, with the list to look at. -/
def besideUsage : Usage where
  names name := name ∈ ["i", "F", "A"]
  looked name := name ∈ ["L", "i", "F", "A"]
  settings := False

/-- No list is shown unless aside, and the first list holds numbers and texts and reads the
    first tape. -/
def listsPlain (d : Doing) (r : Report) (v : World host) : Bool :=
  (d.kept?.isNone || !r.answer.Shows) && v.host.sequences.find? "L" == some ⟨0⟩ &&
  0 < v.sequences.size &&
    (v.sequence ⟨0⟩).cache.toList.all (·.asList?.isNone) &&
    (v.sequence ⟨0⟩).reader.all fun r => r.tape == ⟨0⟩ && r.position ≤ (v.tape ⟨0⟩).log.size

theorem looks_of_listsPlain {d : Doing} {r : Report} {v : World host} (hlt : 0 < v.tapes.size)
    (hplain : (v.tape ⟨0⟩).Plain) (h : listsPlain d r v = true) :
    (d.kept? = none ∨ ¬ r.answer.Shows) ∧ Scope.Looks besideUsage (· = ⟨0⟩) v := by
  simp only [listsPlain, Bool.and_eq_true, Bool.or_eq_true, Option.isNone_iff_eq_none, beq_iff_eq,
    decide_eq_true_eq, Bool.not_eq_true', decide_eq_false_iff_not] at h
  obtain ⟨⟨⟨⟨hshows, hfound⟩, hmade⟩, hcached⟩, hreader⟩ := h
  refine ⟨hshows, ?_, fun name s hname hs => ?_⟩
  · rintro s rfl -
    refine ⟨fun v hv => ?_, fun r hr => ?_⟩
    · simpa using List.all_eq_true.mp hcached v hv
    · rw [hr] at hreader
      obtain ⟨htape, hposition⟩ : r.tape = ⟨0⟩ ∧ r.position ≤ (v.tape ⟨0⟩).log.size := by
        simpa using hreader
      exact ⟨⟨htape ▸ hlt, htape ▸ hposition⟩, htape ▸ hplain⟩
  · rcases List.mem_cons.mp hname with rfl | hname
    · cases hfound.symm.trans hs
      exact .inr ⟨rfl, hmade⟩
    · exact .inl hname

/-- What the steps are about, whatever comes of them. -/
def Doing.Within (V : String → Prop) (U : Usage) : Doing → Prop
  | .keep s => s.Uses ⟨V, V, True⟩ ∧ s.Told
  | .aside s => s.Uses U

theorem beside_within : ∀ d ∈ besideList, d.Within (· = "L") besideUsage := by
  simp [besideList, Doing.Within, Step.Uses, Step.Told, besideUsage, Binds, Condition.Kept,
    Term.Kept.int]

theorem beside_confined :
    Confined (engine 6) (· = "L") besideUsage (· = ⟨0⟩) .none start besideList := by
  have hchecked : checked (engine 6) listsPlain start besideList = true := by decide +kernel
  have hwithin := List.forall_mem_cons.mp beside_within
  have holds {d : Doing} {m : Made} {r : Report} {v : World host}
      (hd : d.Within (· = "L") besideUsage) (hlt : 0 < v.tapes.size) (hplain : (v.tape ⟨0⟩).Plain)
      (hcheck : listsPlain d r v = true) :
      d.Tells (· = "L") m r v ∧ d.StaysWithin besideUsage (· = ⟨0⟩) v := by
    obtain ⟨hshows, hlooks⟩ := looks_of_listsPlain hlt hplain hcheck
    cases d with
    | keep s => exact ⟨⟨hd.1, hd.2, fun h => (hshows.resolve_left nofun h).elim⟩, hlooks⟩
    | aside s => exact ⟨trivial, hd⟩
  intro r v hr
  rw [besideList, checked, hr, Bool.and_eq_true] at hchecked
  obtain ⟨hcheck, hrest⟩ := hchecked
  -- the list is made over the first tape, which is of fixed numbers whatever is done
  obtain ⟨hlt, hplain⟩ : 0 < v.tapes.size ∧ (v.tape ⟨0⟩).Plain := by
    cases hr
    exact ⟨Nat.one_pos, nofun, .inr ⟨_, rfl, @Producer.Plain.container _
      [.int 1, .int 2, .int 3] rfl⟩⟩
  refine ⟨holds hwithin.1 hlt hplain hcheck, Throughout.of_checked
    (I := fun w => 0 < w.tapes.size ∧ (w.tape ⟨0⟩).Plain) ?_ ⟨hlt, hplain⟩ hrest⟩
  rintro d hd m w r v ⟨hlt, hplain⟩ hr hcheck
  have hmoves := step_moves _ d.step hr
  have hlt' := hlt.trans_le (Engine.moves_extends behavior_lawful hmoves).tapes
  have hplain' := hplain.later hlt hmoves
  exact ⟨holds (hwithin.2 d hd) hlt' hplain' hcheck, hlt', hplain'⟩

/-- The steps that are kept report alike without the others, and the first item of an
    iteration is the one that is due. -/
theorem list_apart_from_iterations :
    (∃ i w, ((overThree.iteration ⟨0⟩).next (engine 6)).run overThree =
      .ok ((some (.ok (.int 1)), i), w)) ∧
    ∃ reports w reports' w', (attend (engine 6) besideList).run start = .ok (reports, w) ∧
      ((kept besideList).mapM (step (engine 8))).run start = .ok (reports', w') ∧
      List.Forall₂ (Report.Alike (· = "L")) reports reports' := by
  have hscalar : ∀ v ∈ [Value.int 1, .int 2, .int 3], v.asList? = none := by decide
  have hmade : (Sequence.adopt (.values [.int 1, .int 2, .int 3]) false).run start =
      .ok (⟨0⟩, overThree) := rfl
  obtain ⟨hiteration, hwithout, -, hconfined⟩ := apart_from_iterations
  have hapart := hconfined (· = "L") besideUsage (· = ⟨0⟩) 6 besideList id
    (by rintro _ rfl; simp [besideUsage]) beside_confined
  refine ⟨(hiteration (.values hscalar) _ rfl start _ _ _ ⟨default, .refl _⟩ hmade 6 (by decide)
    overThree [] _ overThree (.refl _) .opened).2, ?_⟩
  cases hrun : (attend (engine 6) besideList).run start with
  | error halt =>
    have hok : ((attend (engine 6) besideList).run start).isOk = true := by decide +kernel
    rw [hrun] at hok
    cases hok
  | ok x =>
    obtain ⟨reports', w', halone, hall⟩ := hwithout _ _ _ _ _ hapart hrun 8 (by decide)
    exact ⟨x.1, x.2, reports', w', rfl, halone, hall⟩

def lastText? (steps : List Step) : Option String :=
  match (run? 8 steps).bind (·.reports.getLast?) with
  | some ⟨.text text, _, _, _⟩ => some text
  | _ => none

/-- What the list shows in the end with a step, and without it. -/
def shown (made : List Step) (driving : Step) : Option String × Option String :=
  (lastText? (made ++ [driving, .display "L"]), lastText? (made ++ [.display "L"]))

/-- What is done aside must not change the list.  In each of these sessions one step drives a
    concatenation or a filter of the list, and the list shows otherwise without that step:

    - the concatenation is with a slice of the list, which forces the list;
    - the concatenation is with a list that holds the list, which is forced when all is
      flattened;
    - the list holds another, which is forced when the concatenation is flattened;
    - the filter has been put into the list, which shows what the filter has found. -/
theorem shown_otherwise_unless_besides :
    shown [.newContainer "L" [.int 1, .int 2, .int 3] false,
        .slice "L" (some 0) none none true (some "S"), .append "L" "S" (some "A")]
      (.materialize "A") = (some "⟨1|2|3⟩", some "⟨...⟩") ∧
    shown [.newContainer "L" [.int 1, .int 2, .int 3] false,
        .newContainer "M" [.named "L"] false, .append "L" "M" (some "A")]
      (.flatten (.named "A")) = (some "⟨1|2|3⟩", some "⟨...⟩") ∧
    shown [.newContainer "L" [.int 1, .int 2, .int 3] false,
        .newContainer "N" [.int 5, .int 6] false, .set "L" 0 (.named "N"),
        .newContainer "R" [] false, .append "L" "R" (some "A")]
      (.flatten (.named "A")) = (some "⟨⟨5|6⟩|...⟩", some "⟨⟨...⟩|...⟩") ∧
    shown [.newContainer "L" [.int 1, .int 2, .int 3] false,
        .filter "L" .even none (some "F"), .set "L" 0 (.named "F")]
      (.advance "F" none) = (some "⟨⟨2|...⟩|...⟩", some "⟨⟨...⟩|...⟩") := by
  decide +kernel

end MemoSeq.Session
