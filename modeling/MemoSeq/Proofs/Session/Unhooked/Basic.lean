/-
  MemoSeq/Proofs/Session/Unhooked/Basic.lean
  ===========================================
  **Worlds without hooks, and acts that leave none.**

  In a world without hooks (`World.Hookless`) the scripts and conditions have none, and the
  lists and tapes that are stored, read or named are there.  That is a grading that does not
  speak of any list that is there (`Grading.flat`), so an act that keeps to this grading leaves
  no hooks.

  A list that gets a name, or is put into another one, has to be left out of the grading from
  then on.  It can be: a world that is graded in some way has a flat grading as well
  (`World.Hookless.of_holds`).
-/
import MemoSeq.Proofs.Flattening.Operations
import MemoSeq.Proofs.Session.Hookless

namespace MemoSeq

/-! ### Depths -/

theorem Document.Within.mono {d : Document} {h h' : Nat} (hd : d.Within h) (hle : h ≤ h') :
    d.Within h' := by
  cases hd with
  | array hlt hitems => exact .array (hlt.trans_le hle) hitems
  | other hd => exact .other hd

theorem Document.exists_within (d : Document) : ∃ h, d.Within h := by
  cases d with
  | array items =>
    obtain ⟨h, hall⟩ := Session.exists_depth_of_forall
      (fun d (_ : d ∈ items) => Document.exists_within d) Document.Within.mono
    exact ⟨h + 1, .array (Nat.lt_succ_self h) hall⟩
  | null | boolean | integer | float | string | object =>
    refine ⟨0, .other fun items heq => ?_⟩
    cases heq

namespace Session

/-! ### Steps without hooks -/

inductive Offer.Hookless : Offer Term → Prop
  | host (v : HostValue) : Hookless (.host v)
  | canonical {t : Term} : t.Hookless → Hookless (.canonical t)
  | external {t : Term} : t.Hookless → Hookless (.external t)
  | named (name : String) : Hookless (.named name)
  | vector {offers : List (Offer Term)} : (∀ o ∈ offers, Hookless o) → Hookless (.vector offers)

def Condition.Hookless : Condition Term Step → Prop
  | .equalTo t | .unequalTo t | .below t | .atMost t | .above t | .atLeast t | .failsOn t _ =>
    t.Hookless
  | .after _ => False
  | .all | .none | .number | .even | .kind _ => True

/-- No script and no condition that the step makes has a hook. -/
def Step.Hookless : Step → Prop
  | .newContainer _ terms _ | .newValues _ terms => ∀ t ∈ terms, t.Hookless
  | .newScripted _ supply _ _ _ | .tee supply _ _ _ => supply.Hookless
  | .set _ _ t | .contains _ t | .count _ t | .equals _ t | .canonicalize t _ | .nest t _ _
  | .describe t | .externalText t | .flatten t | .flatText t | .fromValue _ t | .fromList _ t
  | .toJson t => t.Hookless
  | .compare s t | .flatEqual s t => s.Hookless ∧ t.Hookless
  | .filter _ condition spare _ => condition.Hookless ∧ ∀ t ∈ spare, t.Hookless
  | .toValue offer _ => offer.Hookless
  | .toList offers _ => ∀ o ∈ offers, o.Hookless
  | _ => True

end Session

/-! ### Flat gradings -/

/-- Lists that are there are not spoken of, and new ones are nested only so deep. -/
def Grading.flat {H : Host} (w : World H) (depth : Nat) : Grading :=
  ⟨fun _ => depth, fun _ => depth, w.sequences.size⟩

/-- No hook is left in any script or condition, and the lists and tapes that are stored, read
    or named are there. -/
def World.Hookless (w : World Session.host) : Prop :=
  ∃ depth, Session.hookless.Holds (.flat w depth) w

namespace Session

variable {G : Grading} {w w' : World host} {depth h : Nat}

theorem bounds_flat {v : Value} (hv : v.Stands w) : (Grading.flat w depth).Bounds w h v :=
  fun s hs => .inl (hv s hs)

theorem stands_of_flat {v : Value} (hv : (Grading.flat w depth).Bounds w h v) : v.Stands w :=
  fun s hs => (hv s hs).elim id And.left

theorem covers_flat {s : Sequence} (hs : s.id < w.sequences.size) :
    (Grading.flat w depth).Covers w depth s :=
  ⟨hs, Nat.le_refl _⟩

theorem iteration_flat {i : Iteration} (hi : i.Stands w) :
    (Grading.flat w depth).Iteration w depth i :=
  ⟨fun v hv => bounds_flat (hi.cached v hv), fun r hr => ⟨hi.rest r hr, Nat.le_refl _⟩⟩

theorem iteration_stands (hw : hookless.Holds G w) {i : Iteration} (hi : G.Iteration w h i) :
    i.Stands w :=
  ⟨fun v hv => hw.stands (hi.cached v hv), fun r hr => (hi.rest r hr).1⟩

section Flattened

/-! What is graded in one world is flat in one that has at least its tapes and lists. -/

variable (hw : hookless.Holds G w) (htapes : w.tapes.size ≤ w'.tapes.size)
  (hsequences : w.sequences.size ≤ w'.sequences.size)
include hw hsequences

theorem external_flat {x : External Script} (hx : hookless.External G w h x) :
    hookless.External (.flat w' depth) w' h x :=
  hx.congr (fun hv => bounds_flat ((hw.stands hv).mono hsequences)) id

include htapes

theorem deferred_flat {state : Deferred Sequence Iteration} (hstate : G.Deferred w h state) :
    (Grading.flat w' depth).Deferred w' depth state := by
  cases state with
  | pending s => exact covers_flat (hstate.1.trans_le hsequences)
  | opened i => exact iteration_flat ((iteration_stands hw hstate).mono htapes hsequences)
  | finished => trivial

theorem producer_flat {p : Producer host} (hp : hookless.Producer G w h p) (hle : h ≤ depth) :
    hookless.Producer (.flat w' depth) w' depth p := by
  cases p with
  | source script => exact Supply.Within.mono hp hle
  | container items =>
    exact fun x hx => (external_flat hw hsequences (hp x hx)).of_le hle
  | values values => exact fun v hv => bounds_flat ((hw.stands (hp v hv)).mono hsequences)
  | documents items => exact fun d hd => (hp d hd).mono hle
  | reader r => exact ⟨hp.1.trans_le htapes, Nat.le_refl _⟩
  | filtered test state => exact ⟨hp.1, deferred_flat hw htapes hsequences hp.2⟩
  | joined left right =>
    refine ⟨fun i hi => ?_, deferred_flat hw htapes hsequences hp.2⟩
    exact iteration_flat ((iteration_stands hw (hp.1 i hi)).mono htapes hsequences)
  | strided start step state =>
    cases state with
    | pending s => exact covers_flat (hp.1.trans_le hsequences)
    | opened rest => exact fun v hv => bounds_flat ((hw.stands (hp v hv)).mono hsequences)
    | finished => trivial

end Flattened

end Session

open Session

variable {G : Grading} {w w' : World Session.host}

/-- A graded world whose tapes are kept has a flat grading, however it is graded and whatever
    is put into its lists. -/
theorem World.Hookless.of_tapes (hw : hookless.Holds G w) (htapes : w'.tapes = w.tapes)
    (hsequences : w.sequences.size ≤ w'.sequences.size)
    (hcached : ∀ s, ∀ v ∈ (w'.sequence s).cache, v.Stands w')
    (hreading : ∀ s r, (w'.sequence s).reader = some r → r.tape.id < w'.tapes.size)
    (hhost : w'.host.Stands w'.sequences.size w') : w'.Hookless := by
  have htape : ∀ t, w'.tape t = w.tape t := fun t => by rw [tape, htapes, tape]
  obtain ⟨depth, hdepth⟩ := exists_depth_of_forall (P := fun depth i => G.tape ⟨i⟩ ≤ depth)
    (fun i (_ : i ∈ List.range w.tapes.size) => ⟨_, Nat.le_refl _⟩) Nat.le_trans
  refine ⟨depth, Nat.le_refl _, fun t i v hv => ?_, fun t p hp => ?_, fun s i v hv => ?_,
    fun s r hr => ⟨hreading s r hr, Nat.le_refl _⟩, hhost⟩
  · rw [htape] at hv
    exact bounds_flat ((hw.stands (hw.logged t i v hv)).mono hsequences)
  · rw [htape] at hp
    have ht := World.lt_of_phase_idle hp
    exact producer_flat hw (by rw [htapes]) hsequences (hw.idle t p hp)
      (hdepth t.id (List.mem_range.mpr ht))
  · exact bounds_flat (hcached s v (Array.mem_of_getElem? hv))

theorem World.Hookless.of_holds (hw : hookless.Holds G w) : w.Hookless :=
  .of_tapes hw rfl (Nat.le_refl _) (fun _ _ hv => hw.cached_stands hv)
    (fun s r hr => (hw.reading s r hr).1)
    { hw.host with sequences := hw.host.sequences.mono fun _ hs => hs.trans_le hw.since }

/-! ### What holds from one world without hooks to the next -/

/-- The world has become one without hooks, and no tape and no list has gone. -/
structure World.Becomes (w w' : World Session.host) : Prop where
  hookless : w'.Hookless
  tapes : w.tapes.size ≤ w'.tapes.size
  sequences : w.sequences.size ≤ w'.sequences.size

theorem World.Becomes.refl (hw : w.Hookless) : w.Becomes w := ⟨hw, Nat.le_refl _, Nat.le_refl _⟩

theorem World.Becomes.trans {w'' : World Session.host} (hfirst : w.Becomes w')
    (hthen : w'.Becomes w'') : w.Becomes w'' :=
  ⟨hthen.hookless, hfirst.tapes.trans hthen.tapes, hfirst.sequences.trans hthen.sequences⟩

/-- No iterator in the external value has a hook, and its lists are there. -/
def External.Stands (w : World Session.host) (x : External Session.Script) : Prop :=
  ∃ h, hookless.External (.flat w 0) w h x

theorem External.Stands.graded {x : External Session.Script} (hx : x.Stands w) (depth : Nat) :
    ∃ h, hookless.External (.flat w depth) w h x := by
  obtain ⟨h, hx⟩ := hx
  exact ⟨h, hx.congr (fun hv => bounds_flat (stands_of_flat hv)) id⟩

theorem External.exists_graded {items : List (External Session.Script)}
    (hitems : ∀ x ∈ items, x.Stands w) (depth : Nat) :
    ∃ h, ∀ x ∈ items, hookless.External (.flat w depth) w h x :=
  exists_depth_of_forall (fun x hx => (hitems x hx).graded depth) Pledge.External.of_le

theorem External.Stands.items {items : List (External Session.Script)}
    (hitems : ∀ x ∈ items, x.Stands w) : (External.items items).Stands w := by
  obtain ⟨h, hall⟩ := External.exists_graded hitems 0
  exact ⟨h + 1, .items (Nat.lt_succ_self h) hall⟩

theorem External.Stands.mono {x : External Session.Script} (hx : x.Stands w)
    (hle : w.sequences.size ≤ w'.sequences.size) : x.Stands w' := by
  obtain ⟨h, hx⟩ := hx
  exact ⟨h, hx.congr (fun hv => bounds_flat ((stands_of_flat hv).mono hle)) id⟩

namespace Session

variable {α β ε : Type}

/-! ### Acts that leave no hooks -/

namespace Unhooked

/-- From this world on, the act leads to worlds without hooks, and its result has the property
    there. -/
def Keeps (w : World host) (a : Act host α) (Q : World host → α → Prop) : Prop :=
  ∀ ⦃x w'⦄, a.run w = .ok (x, w') → w.Becomes w' ∧ Q w' x

/-- The same of an attempt; when it fails, there is no result to speak of. -/
def Tries (w : World host) (a : ExceptT ε (Act host) α) (Q : World host → α → Prop) : Prop :=
  Keeps w a.run fun w' y => ∀ x, y = .ok x → Q w' x

namespace Keeps

variable {a : Act host α} {f : α → Act host β} {Q : World host → α → Prop}
variable {P : World host → β → Prop}

theorem pure {x : α} (hw : w.Hookless) (hx : Q w x) : Keeps w (pure x) Q := by
  intro y w' hrun
  obtain ⟨rfl, rfl⟩ := Act.run_pure_eq_ok.mp hrun
  exact ⟨.refl hw, hx⟩

theorem bind (ha : Keeps w a Q) (hf : ∀ x w', w.Becomes w' → Q w' x → Keeps w' (f x) P) :
    Keeps w (a >>= f) P := by
  intro y w'' hrun
  obtain ⟨x, w', hx, hy⟩ := Act.run_bind_eq_ok.mp hrun
  obtain ⟨hbecomes, hQ⟩ := ha hx
  obtain ⟨hbecomes', hP⟩ := hf x w' hbecomes hQ hy
  exact ⟨hbecomes.trans hbecomes', hP⟩

theorem get_bind {f : World host → Act host β} (hf : Keeps w (f w) P) :
    Keeps w (get >>= f) P := by
  intro y w'' hrun
  obtain ⟨x, w', hx, hy⟩ := Act.run_bind_eq_ok.mp hrun
  obtain ⟨rfl, rfl⟩ := Act.run_get_eq_ok.mp hx
  exact hf hy

theorem of_graded (hw : w.Hookless)
    (ha : ∀ {depth}, hookless.Holds (.flat w depth) w →
      hookless.Keeps (.flat w depth) w a fun _ => Q) : Keeps w a Q := by
  intro x w' hrun
  obtain ⟨depth, hw⟩ := hw
  obtain ⟨G', hleads, hx⟩ := ha hw hrun
  exact ⟨⟨.of_holds hleads.holds, hleads.tapes, hleads.sequences⟩, hx⟩

end Keeps

namespace Tries

variable {a : ExceptT ε (Act host) α} {f : α → ExceptT ε (Act host) β}
variable {Q : World host → α → Prop} {P : World host → β → Prop}

theorem pure {x : α} (hw : w.Hookless) (hx : Q w x) :
    Tries w (pure x : ExceptT ε (Act host) α) Q := by
  refine Keeps.pure hw ?_
  rintro y ⟨⟩
  exact hx

theorem throw {e : ε} (hw : w.Hookless) : Tries w (throw e : ExceptT ε (Act host) α) Q :=
  Keeps.pure hw nofun

theorem lift {a : Act host α} (ha : Keeps w a Q) :
    Tries w (ExceptT.lift a : ExceptT ε (Act host) α) Q := by
  intro y w' hrun
  obtain ⟨x, hx, rfl⟩ := Attempt.run_lift_eq_ok.mp hrun
  obtain ⟨hbecomes, hQ⟩ := ha hx
  refine ⟨hbecomes, ?_⟩
  rintro z ⟨⟩
  exact hQ

theorem bind (ha : Tries w a Q) (hf : ∀ x w', w.Becomes w' → Q w' x → Tries w' (f x) P) :
    Tries w (a >>= f) P := by
  intro y w'' hrun
  rcases Attempt.run_bind_eq_ok.mp hrun with ⟨x, w', hx, hy⟩ | ⟨e, he, rfl⟩
  · obtain ⟨hbecomes, hQ⟩ := ha hx
    obtain ⟨hbecomes', hP⟩ := hf x w' hbecomes (hQ x rfl) hy
    exact ⟨hbecomes.trans hbecomes', hP⟩
  · exact ⟨(ha he).1, nofun⟩

theorem map {f : α → β} (ha : Tries w a Q) (hf : ∀ x w', Q w' x → P w' (f x)) :
    Tries w (f <$> a) P := by
  rw [map_eq_pure_bind]
  exact ha.bind fun x w' hbecomes hx => .pure hbecomes.hookless (hf x w' hx)

theorem get_bind {f : World host → ExceptT ε (Act host) β} (hf : Tries w (f w) P) :
    Tries w (get >>= f) P := by
  intro y w'' hrun
  have hsame : (get >>= f : ExceptT ε (Act host) β).run.run w = (f w).run.run w :=
    Attempt.run_bind_of_ok rfl
  rw [hsame] at hrun
  exact hf hrun

theorem of_graded (hw : w.Hookless)
    (ha : ∀ {depth}, hookless.Holds (.flat w depth) w →
      hookless.Tries (.flat w depth) w a fun _ => Q) : Tries w a Q :=
  Keeps.of_graded hw ha

end Tries

end Unhooked

end Session

end MemoSeq
