/-
  MemoSeq/Proofs/Enclosures/Basic.lean
  =====================================
  **Parts of a world that do not lead out of themselves.**

  An `Enclosure` says which tapes and sequences belong to a part of the world, which values
  may be held in it, and which of the host's iterators and tests may be driven.  It holds
  (`Enclosure.Holds`) when what is logged, cached or still to be produced within it leads to
  nothing outside.  New tapes and sequences belong to it.

  A sequence outside is masked by any other state of its own (`World.masked`).  An act that
  keeps to the enclosure (`Enclosure.Keeps`) does the same then and leaves the mask as it
  is; so it neither looks at the sequence nor changes it.
-/
import MemoSeq.Proofs.Flattening.Grading

namespace MemoSeq

variable {H : Host} {α β ε : Type}

/-! ### Masks -/

namespace World

variable {w : World H} {s q : Sequence} {c : SequenceState}

/-- The world in which the sequence is in this state instead. -/
def masked (w : World H) (s : Sequence) (c : SequenceState) : World H :=
  w.updateSequence s fun _ => c

theorem sequence_masked_of_ne (hne : q ≠ s) (c : SequenceState) :
    (w.masked s c).sequence q = w.sequence q := sequence_updateSequence_of_ne _ hne.symm

theorem sequence_masked_self (hs : s.id < w.sequences.size) (c : SequenceState) :
    (w.masked s c).sequence s = c := sequence_updateSequence_self _ hs

/-- A change of the sequence is a mask. -/
theorem updateSequence_eq_masked (w : World H) (s : Sequence)
    (f : SequenceState → SequenceState) :
    w.updateSequence s f = w.masked s (f (w.sequence s)) := by
  have hmodify : w.sequences.modify s.id f =
      w.sequences.modify s.id fun _ => f (w.sequence s) := by
    refine Array.ext (by simp) fun i hi _ => ?_
    simp only [Array.getElem_modify]
    split
    case isTrue heq =>
      subst heq
      have hlt : s.id < w.sequences.size := by simpa using hi
      simp [sequence, Array.getD, hlt]
    case isFalse => rfl
  simp only [masked, updateSequence, hmodify]

/-- A sequence's own state is no mask. -/
theorem masked_self (w : World H) (s : Sequence) : w.masked s (w.sequence s) = w := by
  have hsame := (w.updateSequence_eq_masked s id).symm
  have hmodify : w.sequences.modify s.id id = w.sequences := by
    refine Array.ext (by simp) fun i hi _ => ?_
    simp [Array.getElem_modify]
  refine hsame.trans ?_
  simp only [updateSequence, hmodify]

theorem masked_updateSequence (hne : q ≠ s) (c : SequenceState)
    (f : SequenceState → SequenceState) :
    (w.masked s c).updateSequence q f = (w.updateSequence q f).masked s c := by
  have hid : q.id ≠ s.id := fun heq => hne (congrArg Sequence.mk heq)
  have hmodify : (w.sequences.modify s.id fun _ => c).modify q.id f =
      (w.sequences.modify q.id f).modify s.id fun _ => c := by
    refine Array.ext (by simp) fun i hi _ => ?_
    simp only [Array.getElem_modify]
    split
    case isTrue heq =>
      have hne' : s.id ≠ i := fun heq' => hid (heq.trans heq'.symm)
      rw [if_neg hne', if_neg hne']
    case isFalse => rfl
  simp only [masked, updateSequence, hmodify]

theorem masked_withSequence (hs : s.id < w.sequences.size) (c : SequenceState) (p : Producer H)
    (infinite : Bool) :
    (w.masked s c).withSequence p infinite = (w.withSequence p infinite).masked s c := by
  have hpush (new : SequenceState) : (w.sequences.modify s.id fun _ => c).push new =
      (w.sequences.push new).modify s.id fun _ => c := by
    refine Array.ext (by simp) fun i hi _ => ?_
    simp only [Array.getElem_push, Array.getElem_modify, Array.size_modify]
    split
    case isTrue => rfl
    case isFalse hge => rw [if_neg (by omega)]
  exact congrArg (World.mk _ · w.limit w.displayLength w.host) (hpush _)

end World

/-! ### Enclosures -/

structure Enclosure (H : Host) where
  tape : Tape → Prop
  list : Sequence → Prop
  /-- The values that may be held.  A list need not belong to the enclosure for that, but
      then nothing in it may look at the value. -/
  admits : Value → Prop
  source : H.Source → Prop
  test : H.Test → Prop
  host : H.State → Prop
  scalar : ∀ {v : Value}, v.asList? = none → admits v

namespace Enclosure

variable (N : Enclosure H)

inductive External : External H.Source → Prop
  | int (n : Int) : External (.int n)
  | rational (r : Rat) : External (.rational r)
  | float (x : Double) : External (.float x)
  | str (text : String) : External (.str text)
  | value {v : Value} : N.admits v → External (.value v)
  | symbolic (s : Symbolic) : External (.symbolic s)
  | items {items : List (MemoSeq.External H.Source)} :
      (∀ x ∈ items, External x) → External (.items items)
  | iterator {source : H.Source} : N.source source → External (.iterator source)

def Item (x : Option Item) : Prop := ∀ v, x = some (.ok v) → N.admits v

structure Iteration (i : MemoSeq.Iteration) : Prop where
  cached : ∀ v ∈ i.cached, N.admits v
  rest : ∀ r, i.rest = some r → N.tape r.tape

def Deferred : MemoSeq.Deferred Sequence MemoSeq.Iteration → Prop
  | .pending s => N.list s
  | .opened i => N.Iteration i
  | .finished => True

def Producer : MemoSeq.Producer H → Prop
  | .source s => N.source s
  | .container items => ∀ x ∈ items, N.External x
  | .values values => ∀ v ∈ values, N.admits v
  | .documents _ => True
  | .reader r => N.tape r.tape
  | .filtered test state => N.test test ∧ N.Deferred state
  | .joined left right => (∀ i, left = some i → N.Iteration i) ∧ N.Deferred right
  | .strided _ _ (.pending s) => N.list s
  | .strided _ _ (.opened rest) => ∀ v ∈ rest, N.admits v
  | .strided _ _ .finished => True

/-- What belongs to the enclosure leads to nothing outside of it, and what is made from now
    on belongs to it. -/
structure Holds (w : World H) : Prop where
  tapes : ∀ t : Tape, w.tapes.size ≤ t.id → N.tape t
  lists : ∀ s : Sequence, w.sequences.size ≤ s.id → N.list s ∧ N.admits (.list s)
  logged : ∀ t : Tape, N.tape t → ∀ (i : Nat) (v : Value),
    (w.tape t).log[i]? = some (.ok v) → N.admits v
  idle : ∀ t : Tape, N.tape t → ∀ p, (w.tape t).phase = .idle p → N.Producer p
  cached : ∀ s : Sequence, N.list s → ∀ (i : Nat) (v : Value),
    (w.sequence s).cache[i]? = some v → N.admits v
  reading : ∀ s : Sequence, N.list s → ∀ r, (w.sequence s).reader = some r → N.tape r.tape
  host : N.host w.host

/-- The act leads from this world to one in which the enclosure holds, and its result has the
    property.  Whatever state the sequence is in, the act comes to the same and leaves the
    sequence in that state. -/
def Keeps (s : Sequence) (w : World H) (a : Act H α) (Q : α → Prop) : Prop :=
  ∀ ⦃x w'⦄, a.run w = .ok (x, w') → N.Holds w' ∧ Q x ∧
    ∀ c, a.run (w.masked s c) = .ok (x, w'.masked s c)

/-- The same of an attempt; when it fails, there is no result to speak of. -/
def Tries (s : Sequence) (w : World H) (a : ExceptT ε (Act H) α) (Q : α → Prop) : Prop :=
  N.Keeps s w a.run fun y => ∀ x, y = .ok x → Q x

/-- What the engine drives keeps to the enclosure. -/
structure Drives (s : Sequence) (E : Engine H) : Prop where
  pull : ∀ {w : World H} {source : H.Source}, N.Holds w → N.source source →
    N.Keeps s w (E.pull source) fun x =>
      (∀ y, x.1 = some (.ok y) → N.External y) ∧ N.source x.2
  test : ∀ {w : World H} {t : H.Test} {v : Value}, N.Holds w → N.test t → N.admits v →
    N.Tries s w (E.test t v) fun _ => True
  next : ∀ {w : World H} {p : MemoSeq.Producer H}, N.Holds w → N.Producer p →
    N.Keeps s w (E.next p) fun x => N.Item x.1 ∧ N.Producer x.2

variable {N} {s q : Sequence} {w w' : World H}

/-- What may be offered where may be held and driven more besides. -/
theorem External.mono {N' : Enclosure H} {x : MemoSeq.External H.Source} (hx : N.External x)
    (hadmits : ∀ v, N.admits v → N'.admits v) (hsource : ∀ s, N.source s → N'.source s) :
    N'.External x := by
  induction hx with
  | int | rational | float | str | symbolic => constructor
  | value hv => exact .value (hadmits _ hv)
  | items _ ih => exact .items ih
  | iterator hs => exact .iterator (hsource _ hs)

/-- What is graded may be offered where any value may be held. -/
theorem External.of_graded {K : Pledge H} {G : Grading} {h : Nat} {x : MemoSeq.External H.Source}
    (hx : K.External G w h x) (hadmits : ∀ v, N.admits v)
    (hsource : ∀ h s, K.source G w h s → N.source s) : N.External x := by
  induction hx with
  | int | rational | float | str | symbolic => constructor
  | value => exact .value (hadmits _)
  | items _ _ ih => exact .items ih
  | iterator _ hs => exact .iterator (hsource _ _ hs)

theorem item_none : N.Item none := by
  intro v hv
  cases hv

theorem item_error (e : Error) : N.Item (some (.error e)) := by
  intro v hv
  cases hv

theorem item_ok {v : Value} (hv : N.admits v) : N.Item (some (.ok v)) := by
  intro u hu
  cases hu
  exact hv

/-- A sequence outside is there already. -/
theorem Holds.lt_of_outside (hw : N.Holds w) (hs : ¬ N.list s) : s.id < w.sequences.size :=
  Nat.lt_of_not_le fun hle => hs (hw.lists s hle).1

/-! ### Acts in a row -/

namespace Keeps

variable {a : Act H α} {f : α → Act H β} {Q : α → Prop} {P : β → Prop}

theorem pure {x : α} (hw : N.Holds w) (hx : Q x) : N.Keeps s w (pure x) Q := by
  intro y w' hrun
  obtain ⟨rfl, rfl⟩ := Act.run_pure_eq_ok.mp hrun
  exact ⟨hw, hx, fun _ => rfl⟩

theorem starve : N.Keeps s w (Act.starve : Act H α) Q :=
  fun _ _ hrun => (Act.run_starve_eq_ok.mp hrun).elim

theorem bind (ha : N.Keeps s w a Q) (hf : ∀ x w', N.Holds w' → Q x → N.Keeps s w' (f x) P) :
    N.Keeps s w (a >>= f) P := by
  intro y w'' hrun
  obtain ⟨x, w', hx, hy⟩ := Act.run_bind_eq_ok.mp hrun
  obtain ⟨hw', hQ, hmask⟩ := ha hx
  obtain ⟨hw'', hP, hmask'⟩ := hf x w' hw' hQ hy
  exact ⟨hw'', hP, fun c => Act.run_bind_eq_ok.mpr ⟨x, w'.masked s c, hmask c, hmask' c⟩⟩

/-- What is seen of the world is the same behind a mask. -/
theorem get_bind {f : World H → Act H β} (hsame : ∀ c, f (w.masked s c) = f w)
    (hf : N.Keeps s w (f w) P) : N.Keeps s w (get >>= f) P := by
  intro y w'' hrun
  obtain ⟨hw'', hP, hmask⟩ := hf hrun
  refine ⟨hw'', hP, fun c => ?_⟩
  have hget : (get >>= f).run (w.masked s c) = (f (w.masked s c)).run (w.masked s c) := rfl
  rw [hget, hsame, hmask]

theorem modify {f : World H → World H} {P : Unit → Prop} (hw : N.Holds (f w)) (hP : P ())
    (hmask : ∀ c, f (w.masked s c) = (f w).masked s c) : N.Keeps s w (modify f : Act H Unit) P := by
  intro y w' hrun
  obtain rfl := Act.run_modify_eq_ok.mp hrun
  exact ⟨hw, hP, fun c => Act.run_modify_eq_ok.mpr (hmask c).symm⟩

/-- The act leaves the sequence as it is. -/
theorem sequence_eq (h : N.Keeps s w a Q) {x : α} (hrun : a.run w = .ok (x, w'))
    (hs : ¬ N.list s) : w'.sequence s = w.sequence s := by
  obtain ⟨hw', -, hmask⟩ := h hrun
  have hsame := hmask (w.sequence s)
  rw [World.masked_self, hrun] at hsame
  have hworld : w' = w'.masked s (w.sequence s) := congrArg Prod.snd (Except.ok.inj hsame)
  rw [hworld, World.sequence_masked_self (hw'.lt_of_outside hs)]

end Keeps

namespace Tries

variable {a : ExceptT ε (Act H) α} {f : α → ExceptT ε (Act H) β} {Q : α → Prop} {P : β → Prop}

theorem pure {x : α} (hw : N.Holds w) (hx : Q x) :
    N.Tries s w (pure x : ExceptT ε (Act H) α) Q := by
  refine Keeps.pure hw ?_
  intro y hy
  cases hy
  exact hx

theorem throw {e : ε} (hw : N.Holds w) : N.Tries s w (throw e : ExceptT ε (Act H) α) Q :=
  Keeps.pure hw nofun

theorem lift {a : Act H α} (ha : N.Keeps s w a Q) :
    N.Tries s w (ExceptT.lift a : ExceptT ε (Act H) α) Q := by
  intro y w' hrun
  obtain ⟨x, hx, rfl⟩ := Attempt.run_lift_eq_ok.mp hrun
  obtain ⟨hw', hQ, hmask⟩ := ha hx
  refine ⟨hw', ?_, fun c => Attempt.run_lift_eq_ok.mpr ⟨x, hmask c, rfl⟩⟩
  intro z hz
  cases hz
  exact hQ

theorem ofOutcome {r : Outcome α} (hw : N.Holds w) (hr : ∀ x, r = .ok x → Q x) :
    N.Tries s w (Attempt.ofOutcome r : Attempt H α) Q :=
  Keeps.pure hw hr

theorem bind (ha : N.Tries s w a Q) (hf : ∀ x w', N.Holds w' → Q x → N.Tries s w' (f x) P) :
    N.Tries s w (a >>= f) P := by
  intro y w'' hrun
  rcases Attempt.run_bind_eq_ok.mp hrun with ⟨x, w', hx, hy⟩ | ⟨e, he, rfl⟩
  · obtain ⟨hw', hQ, hmask⟩ := ha hx
    obtain ⟨hw'', hP, hmask'⟩ := hf x w' hw' (hQ x rfl) hy
    exact ⟨hw'', hP, fun c => (Attempt.run_bind_of_ok (hmask c)).trans (hmask' c)⟩
  · obtain ⟨hw', -, hmask⟩ := ha he
    exact ⟨hw', nofun, fun c => Attempt.run_bind_eq_ok.mpr (.inr ⟨e, hmask c, rfl⟩)⟩

theorem get_bind {f : World H → ExceptT ε (Act H) β} (hsame : ∀ c, f (w.masked s c) = f w)
    (hf : N.Tries s w (f w) P) : N.Tries s w (get >>= f) P := by
  have hget (v : World H) :
      (get >>= f : ExceptT ε (Act H) β).run.run v = (f v).run.run v := Attempt.run_bind_of_ok rfl
  intro y w'' hrun
  obtain ⟨hw'', hP, hmask⟩ := hf ((hget w).symm.trans hrun)
  exact ⟨hw'', hP, fun c => (hget _).trans (hsame c ▸ hmask c)⟩

/-- One attempt after the other, until one fails. -/
theorem mapM {f : α → ExceptT ε (Act H) β} {A : α → Prop} (hw : N.Holds w)
    (hf : ∀ x w', N.Holds w' → A x → N.Tries s w' (f x) fun _ => True) {xs : List α}
    (hxs : ∀ x ∈ xs, A x) : N.Tries s w (xs.mapM f) fun _ => True := by
  induction xs generalizing w with
  | nil => exact .pure hw trivial
  | cons x xs ih =>
    rw [List.mapM_cons]
    refine (hf x w hw (hxs x List.mem_cons_self)).bind fun _ _ hw' _ => ?_
    refine (ih hw' fun y hy => hxs y (List.mem_cons_of_mem _ hy)).bind fun _ _ hw'' _ => ?_
    exact .pure hw'' trivial

end Tries

/-! ### Changes within an enclosure -/

namespace Holds

theorem withHost (hw : N.Holds w) {host : H.State} (hhost : N.host host) :
    N.Holds { w with host } :=
  { hw with host := hhost }

theorem updateTape (hw : N.Holds w) (t : Tape) {f : TapeState H → TapeState H}
    (hlog : N.tape t → ∀ (i : Nat) (v : Value),
      (f (w.tape t)).log[i]? = some (.ok v) → N.admits v)
    (hidle : N.tape t → ∀ p, (f (w.tape t)).phase = .idle p → N.Producer p) :
    N.Holds (w.updateTape t f) := by
  refine { hw with
    tapes := fun q hq => hw.tapes q (by simpa [World.updateTape] using hq)
    logged := fun q hq i v hv => ?_
    idle := fun q hq p hp => ?_ }
  · rw [World.tape_updateTape] at hv
    split at hv
    case isTrue heq =>
      obtain ⟨rfl, -⟩ := heq
      exact hlog hq i v hv
    case isFalse => exact hw.logged q hq i v hv
  · rw [World.tape_updateTape] at hp
    split at hp
    case isTrue heq =>
      obtain ⟨rfl, -⟩ := heq
      exact hidle hq p hp
    case isFalse => exact hw.idle q hq p hp

theorem updateSequence (hw : N.Holds w) (q : Sequence) {f : SequenceState → SequenceState}
    (hcache : N.list q → ∀ (i : Nat) (v : Value),
      (f (w.sequence q)).cache[i]? = some v → N.admits v)
    (hreader : N.list q → ∀ r, (f (w.sequence q)).reader = some r → N.tape r.tape) :
    N.Holds (w.updateSequence q f) := by
  refine { hw with
    lists := fun u hu => hw.lists u (by simpa using hu)
    cached := fun u hu i v hv => ?_
    reading := fun u hu r hr => ?_ }
  · rw [World.sequence_updateSequence] at hv
    split at hv
    case isTrue heq =>
      obtain ⟨rfl, -⟩ := heq
      exact hcache hu i v hv
    case isFalse => exact hw.cached u hu i v hv
  · rw [World.sequence_updateSequence] at hr
    split at hr
    case isTrue heq =>
      obtain ⟨rfl, -⟩ := heq
      exact hreader hu r hr
    case isFalse => exact hw.reading u hu r hr

theorem running (hw : N.Holds w) (t : Tape) : N.Holds (w.running t) :=
  hw.updateTape t (hw.logged t) fun _ _ hp => by cases hp

theorem recorded (hw : N.Holds w) (t : Tape) {x : Option MemoSeq.Item} {p : MemoSeq.Producer H}
    (hx : N.Item x) (hp : N.Producer p) : N.Holds (w.recorded t x p) := by
  refine hw.updateTape t (fun ht i v hv => ?_) fun _ q hq => ?_
  · rw [TapeState.log_recorded, Array.getElem?_append] at hv
    split at hv
    · exact hw.logged t ht i v hv
    · exact hx v (by simpa using Array.mem_of_getElem? hv)
  · rcases x with _ | _ | _
    · cases hq
    · cases hq
    · cases hq
      exact hp

theorem waiting (hw : N.Holds w) (q : Sequence) : N.Holds (w.waiting q) :=
  hw.updateSequence q (f := SequenceState.waiting) (hw.cached q) nofun

theorem settled (hw : N.Holds w) (q : Sequence) {x : Option MemoSeq.Item} {r : Reader}
    (hx : N.list q → N.Item x) (hr : N.list q → N.tape r.tape) : N.Holds (w.settled q x r) := by
  refine hw.updateSequence q (fun hq i v hv => ?_) fun hq r' hr' => ?_
  · rcases x with _ | _ | u
    · exact hw.cached q hq i v hv
    · exact hw.cached q hq i v hv
    · simp only [SequenceState.settled, Array.getElem?_push] at hv
      split at hv
      · cases hv
        exact hx hq _ rfl
      · exact hw.cached q hq i v hv
  · rcases x with _ | _ | _
    · simp only [SequenceState.settled] at hr'
      split at hr'
      · cases hr'
      · cases hr'
        exact hr hq
    · cases hr'
    · cases hr'
      exact hr hq

theorem withSequence (hw : N.Holds w) {p : MemoSeq.Producer H} (hp : N.Producer p)
    (infinite : Bool) : N.Holds (w.withSequence p infinite) where
  tapes t ht := hw.tapes t (by simp at ht; omega)
  lists q hq := hw.lists q (by simp at hq; omega)
  logged t ht i v hv := by
    rw [World.tape_withSequence, World.tape_withTape] at hv
    split at hv
    case isTrue => simp at hv
    case isFalse => exact hw.logged t ht i v hv
  idle t ht q hq := by
    rw [World.tape_withSequence, World.tape_withTape] at hq
    split at hq
    case isTrue =>
      cases hq
      exact hp
    case isFalse => exact hw.idle t ht q hq
  cached q hq i v hv := by
    rw [World.sequence_withSequence] at hv
    split at hv
    case isTrue => simp at hv
    case isFalse => exact hw.cached q hq i v hv
  reading q hq r hr := by
    rw [World.sequence_withSequence] at hr
    split at hr
    case isTrue =>
      cases hr
      exact hw.tapes _ (Nat.le_refl _)
    case isFalse => exact hw.reading q hq r hr
  host := hw.host

/-- An iteration over a sequence that belongs to the enclosure. -/
theorem iteration (hw : N.Holds w) (hq : N.list q) : N.Iteration (w.iteration q) where
  cached v hv := by
    obtain ⟨i, hi⟩ := List.mem_iff_getElem?.mp hv
    exact hw.cached q hq i v (by simpa [World.iteration] using hi)
  rest r hr := by
    refine hw.reading q hq r ?_
    simp only [World.iteration] at hr
    split at hr
    · cases hr
    · exact hr

end Holds

end Enclosure

end MemoSeq
