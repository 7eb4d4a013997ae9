/-
  MemoSeq/Proofs/Flattening/Grading.lean
  =======================================
  **How deep production nests new lists.**

  Lists that are there may lie within each other in any way, but there are only so many of
  them.  Those that are made from then on are graded: each list has a number above those of
  all new lists that it has cached or is still to be given (`Pledge.Holds`).  This goes by
  way of the tapes: a tape has a number too, and what is logged on it or still to come from
  its producer stays below.

  Production keeps to a grading.  What it makes canonical on the way becomes new tapes and
  new lists, which are graded as deep as what they are made of, and all that was there
  keeps its number and its cached values (`Pledge.Leads`).  What the host's iterators give
  cannot be seen here, so it has to be pledged (`Behavior.Redeems`).
-/
import MemoSeq.Production
import MemoSeq.Proofs.Moments
import MemoSeq.Proofs.Provision.Steady
import Mathlib.Order.Nat

namespace MemoSeq

variable {H : Host} {α β ε : Type}

theorem World.tape_withTape (w : World H) (p : Producer H) (t : Tape) :
    (w.withTape p).tape t = if t.id = w.tapes.size then ⟨#[], .idle p⟩ else w.tape t := by
  rcases Nat.lt_trichotomy t.id w.tapes.size with hlt | heq | hgt
  · rw [if_neg (Nat.ne_of_lt hlt), tape_withTape_of_lt p hlt]
  · obtain rfl : t = w.freshTape := congrArg Tape.mk heq
    rw [if_pos heq, tape_withTape_freshTape]
  · rw [if_neg (Nat.ne_of_gt hgt)]
    simp [withTape, tape, Array.getD, Nat.not_lt.mpr hgt.le, Nat.not_lt.mpr (Nat.succ_le_of_lt hgt)]

/-! ### What is there -/

/-- A number, a text, or a list that is there. -/
def Value.Stands (w : World H) (v : Value) : Prop :=
  ∀ s, v.asList? = some s → s.id < w.sequences.size

theorem Value.Stands.of_scalar {w : World H} {v : Value} (hv : v.asList? = none) :
    v.Stands w := by
  intro s hs
  rw [hv] at hs
  cases hs

theorem Value.Stands.list {w : World H} {s : Sequence} (hs : s.id < w.sequences.size) :
    (Value.list s).Stands w := by
  rintro t ⟨⟩
  exact hs

theorem Value.Stands.mono {w w' : World H} {v : Value} (hv : v.Stands w)
    (hle : w.sequences.size ≤ w'.sequences.size) : v.Stands w' :=
  fun s hs => (hv s hs).trans_le hle

/-- What is cached is there, and so is the tape of the rest. -/
structure Iteration.Stands (w : World H) (i : Iteration) : Prop where
  cached : ∀ v ∈ i.cached, v.Stands w
  rest : ∀ r, i.rest = some r → r.tape.id < w.tapes.size

theorem Iteration.Stands.mono {w w' : World H} {i : Iteration} (hi : i.Stands w)
    (htapes : w.tapes.size ≤ w'.tapes.size) (hsequences : w.sequences.size ≤ w'.sequences.size) :
    i.Stands w' :=
  ⟨fun v hv => (hi.cached v hv).mono hsequences, fun r hr => (hi.rest r hr).trans_le htapes⟩

/-! ### Gradings -/

structure Grading where
  tape : Tape → Nat
  list : Sequence → Nat
  /-- So many lists are not spoken of when they lie within others. -/
  since : Nat

namespace Grading

/-- All that was there in the first world keeps its number, what was cached stays, and nothing
    has been put into a list. -/
structure Extends (w : World H) (G : Grading) (w' : World H) (G' : Grading) : Prop where
  tapes : w.tapes.size ≤ w'.tapes.size
  sequences : w.sequences.size ≤ w'.sequences.size
  tape : ∀ t : Tape, t.id < w.tapes.size → G'.tape t = G.tape t
  list : ∀ s : Sequence, s.id < w.sequences.size → G'.list s = G.list s
  since : G'.since = G.since
  cached : ∀ (s : Sequence) (i : Nat) (v : Value),
    (w.sequence s).cache[i]? = some v → (w'.sequence s).cache[i]? = some v
  overwritten : ∀ s : Sequence, (w'.sequence s).overwritten = (w.sequence s).overwritten

variable {G G' G'' : Grading} {w w' w'' : World H} {h h' : Nat}

theorem Extends.of_size (htapes : w.tapes.size ≤ w'.tapes.size)
    (hsequences : w.sequences.size ≤ w'.sequences.size)
    (hcached : ∀ (s : Sequence) (i : Nat) (v : Value),
      (w.sequence s).cache[i]? = some v → (w'.sequence s).cache[i]? = some v)
    (hoverwritten : ∀ s : Sequence, (w'.sequence s).overwritten = (w.sequence s).overwritten) :
    Extends w G w' G :=
  ⟨htapes, hsequences, fun _ _ => rfl, fun _ _ => rfl, rfl, hcached, hoverwritten⟩

theorem Extends.refl (w : World H) (G : Grading) : Extends w G w G :=
  .of_size (Nat.le_refl _) (Nat.le_refl _) (fun _ _ _ => id) fun _ => rfl

theorem Extends.trans (hfirst : Extends w G w' G') (hthen : Extends w' G' w'' G'') :
    Extends w G w'' G'' where
  tapes := hfirst.tapes.trans hthen.tapes
  sequences := hfirst.sequences.trans hthen.sequences
  tape t ht := (hthen.tape t (ht.trans_le hfirst.tapes)).trans (hfirst.tape t ht)
  list s hs := (hthen.list s (hs.trans_le hfirst.sequences)).trans (hfirst.list s hs)
  since := hthen.since.trans hfirst.since
  cached s i v hv := hthen.cached s i v (hfirst.cached s i v hv)
  overwritten s := (hthen.overwritten s).trans (hfirst.overwritten s)

theorem Extends.size_cache_le (hextends : Extends w G w' G') (s : Sequence) :
    (w.sequence s).cache.size ≤ (w'.sequence s).cache.size := by
  apply Nat.le_of_not_lt
  intro hlt
  have hkept := hextends.cached s _ _ (Array.getElem?_eq_getElem hlt)
  exact (Array.getElem?_eq_some_iff.mp hkept).1.false

/-- The value is a number or a text, a list that is not spoken of, or one with a number
    below. -/
def Bounds (G : Grading) (w : World H) (h : Nat) (v : Value) : Prop :=
  ∀ s, v.asList? = some s → s.id < G.since ∨ s.id < w.sequences.size ∧ G.list s < h

theorem Bounds.of_scalar {v : Value} (hv : v.asList? = none) : G.Bounds w h v := by
  intro s hs
  rw [hv] at hs
  cases hs

theorem Bounds.mono {v : Value} (hv : G.Bounds w h v) (hextends : Extends w G w' G')
    (hle : h ≤ h') : G'.Bounds w' h' v := by
  intro s hs
  refine (hv s hs).imp (fun hlt => hextends.since ▸ hlt) ?_
  rintro ⟨hlt, hgrade⟩
  exact ⟨hlt.trans_le hextends.sequences, (hextends.list s hlt).trans_lt (hgrade.trans_le hle)⟩

/-- If the item is a value, it is a number, a text or a list below. -/
def Item (G : Grading) (w : World H) (h : Nat) (x : Option MemoSeq.Item) : Prop :=
  ∀ v, x = some (.ok v) → G.Bounds w h v

theorem item_none : G.Item w h none := by
  intro v hv
  cases hv

theorem item_error (e : Error) : G.Item w h (some (.error e)) := by
  intro v hv
  cases hv

theorem item_ok {v : Value} (hv : G.Bounds w h v) : G.Item w h (some (.ok v)) := by
  intro u hu
  cases hu
  exact hv

theorem Item.mono {x : Option MemoSeq.Item} (hx : G.Item w h x) (hextends : Extends w G w' G')
    (hle : h ≤ h') : G'.Item w' h' x :=
  fun v hv => (hx v hv).mono hextends hle

/-- What comes from the tape stays below. -/
def Reads (G : Grading) (w : World H) (h : Nat) (r : Reader) : Prop :=
  r.tape.id < w.tapes.size ∧ G.tape r.tape ≤ h

theorem Reads.mono {r : Reader} (hr : G.Reads w h r) (hextends : Extends w G w' G')
    (hle : h ≤ h') : G'.Reads w' h' r :=
  ⟨hr.1.trans_le hextends.tapes, (hextends.tape _ hr.1).trans_le (hr.2.trans hle)⟩

structure Iteration (G : Grading) (w : World H) (h : Nat) (i : MemoSeq.Iteration) : Prop where
  cached : ∀ v ∈ i.cached, G.Bounds w h v
  rest : ∀ r, i.rest = some r → G.Reads w h r

theorem Iteration.mono {i : MemoSeq.Iteration} (hi : G.Iteration w h i)
    (hextends : Extends w G w' G') (hle : h ≤ h') : G'.Iteration w' h' i :=
  ⟨fun v hv => (hi.cached v hv).mono hextends hle, fun r hr => (hi.rest r hr).mono hextends hle⟩

/-- A list whose values stay below. -/
def Covers (G : Grading) (w : World H) (h : Nat) (s : Sequence) : Prop :=
  s.id < w.sequences.size ∧ G.list s ≤ h

theorem Covers.mono {s : Sequence} (hs : G.Covers w h s) (hextends : Extends w G w' G') :
    G'.Covers w' h s :=
  ⟨hs.1.trans_le hextends.sequences, (hextends.list s hs.1).trans_le hs.2⟩

def Deferred (G : Grading) (w : World H) (h : Nat) :
    MemoSeq.Deferred Sequence MemoSeq.Iteration → Prop
  | .pending s => G.Covers w h s
  | .opened i => G.Iteration w h i
  | .finished => True

theorem Deferred.mono {state : MemoSeq.Deferred Sequence MemoSeq.Iteration}
    (hstate : G.Deferred w h state) (hextends : Extends w G w' G') : G'.Deferred w' h state := by
  cases state with
  | pending s => exact Covers.mono hstate hextends
  | opened i => exact Iteration.mono hstate hextends (Nat.le_refl h)
  | finished => trivial

end Grading

/-- A JSON document whose arrays are nested less deep. -/
inductive Document.Within : Nat → Document → Prop
  | array {h h' : Nat} {items : List Document} : h' < h → (∀ d ∈ items, Within h' d) →
      Within h (.array items)
  | other {h : Nat} {d : Document} : (∀ items, d ≠ .array items) → Within h d

/-! ### What the host pledges -/

/-- What is known of the host's iterators and tests, and of its own state.  An iterator with
    a number gives numbers and texts, and what becomes lists below that number. -/
structure Pledge (H : Host) where
  source : Grading → World H → Nat → H.Source → Prop
  test : H.Test → Prop
  host : Grading → World H → H.State → Prop
  source_mono : ∀ {G G' : Grading} {w w' : World H} {h : Nat} {s : H.Source},
    Grading.Extends w G w' G' → source G w h s → source G' w' h s
  host_mono : ∀ {G G' : Grading} {w w' : World H} {state : H.State},
    Grading.Extends w G w' G' → host G w state → host G' w' state

namespace Pledge

variable (K : Pledge H)

/-- An external value that becomes a number, a text or a list below. -/
inductive External (G : Grading) (w : World H) : Nat → External H.Source → Prop
  | int {h : Nat} (n : Int) : External G w h (.int n)
  | rational {h : Nat} (r : Rat) : External G w h (.rational r)
  | float {h : Nat} (x : Double) : External G w h (.float x)
  | str {h : Nat} (text : String) : External G w h (.str text)
  | symbolic {h : Nat} (s : Symbolic) : External G w h (.symbolic s)
  | value {h : Nat} {v : Value} : G.Bounds w h v → External G w h (.value v)
  | items {h h' : Nat} {items : List (MemoSeq.External H.Source)} : h' < h →
      (∀ x ∈ items, External G w h' x) → External G w h (.items items)
  | iterator {h h' : Nat} {source : H.Source} : h' < h → K.source G w h' source →
      External G w h (.iterator source)

/-- A producer whose values stay below. -/
def Producer (G : Grading) (w : World H) (h : Nat) : MemoSeq.Producer H → Prop
  | .source s => K.source G w h s
  | .container items => ∀ x ∈ items, K.External G w h x
  | .values values => ∀ v ∈ values, G.Bounds w h v
  | .documents items => ∀ d ∈ items, d.Within h
  | .reader r => G.Reads w h r
  | .filtered test state => K.test test ∧ G.Deferred w h state
  | .joined left right => (∀ i, left = some i → G.Iteration w h i) ∧ G.Deferred w h right
  | .strided _ _ (.pending s) => G.Covers w h s
  | .strided _ _ (.opened rest) => ∀ v ∈ rest, G.Bounds w h v
  | .strided _ _ .finished => True

/-- Each list is above all that it has cached and all that comes from its tape, and each tape
    above all that is logged on it and all that is still to come from its producer. -/
structure Holds (G : Grading) (w : World H) : Prop where
  since : G.since ≤ w.sequences.size
  logged : ∀ (t : Tape) (i : Nat) (v : Value),
    (w.tape t).log[i]? = some (.ok v) → G.Bounds w (G.tape t) v
  idle : ∀ (t : Tape) (p : MemoSeq.Producer H),
    (w.tape t).phase = .idle p → K.Producer G w (G.tape t) p
  cached : ∀ (s : Sequence) (i : Nat) (v : Value),
    (w.sequence s).cache[i]? = some v → G.Bounds w (G.list s) v
  reading : ∀ (s : Sequence) (r : Reader),
    (w.sequence s).reader = some r → G.Reads w (G.list s) r
  host : K.host G w w.host

/-- A graded world has become another one, and what was there has kept its number. -/
structure Leads (w : World H) (G : Grading) (w' : World H) (G' : Grading) : Prop
    extends Grading.Extends w G w' G' where
  holds : K.Holds G' w'
  limit : w'.limit = w.limit

variable {K} {G G' G'' : Grading} {w w' w'' : World H} {h h' : Nat}

/-- An external value is graded as the values and iterators are that it holds. -/
theorem External.congr {x : MemoSeq.External H.Source} (hx : K.External G w h x)
    (hvalue : ∀ {h v}, G.Bounds w h v → G'.Bounds w' h v)
    (hsource : ∀ {h s}, K.source G w h s → K.source G' w' h s) : K.External G' w' h x := by
  induction hx with
  | int | rational | float | str | symbolic => constructor
  | value hv => exact .value (hvalue hv)
  | items hlt _ ih => exact .items hlt ih
  | iterator hlt hs => exact .iterator hlt (hsource hs)

theorem External.mono {x : MemoSeq.External H.Source} (hx : K.External G w h x)
    (hextends : Grading.Extends w G w' G') : K.External G' w' h x :=
  hx.congr (fun hv => hv.mono hextends (Nat.le_refl _)) (K.source_mono hextends)

theorem External.of_le {x : MemoSeq.External H.Source} (hx : K.External G w h x) (hle : h ≤ h') :
    K.External G w h' x := by
  cases hx with
  | int | rational | float | str | symbolic => constructor
  | value hv => exact .value (hv.mono (.refl w G) hle)
  | items hlt hitems => exact .items (hlt.trans_le hle) hitems
  | iterator hlt hsource => exact .iterator (hlt.trans_le hle) hsource

theorem Producer.mono {p : MemoSeq.Producer H} (hp : K.Producer G w h p)
    (hextends : Grading.Extends w G w' G') : K.Producer G' w' h p := by
  cases p with
  | source s => exact K.source_mono hextends hp
  | container items => exact fun x hx => (hp x hx).mono hextends
  | values values => exact fun v hv => (hp v hv).mono hextends (Nat.le_refl h)
  | documents items => exact hp
  | reader r => exact Grading.Reads.mono hp hextends (Nat.le_refl h)
  | filtered test state => exact ⟨hp.1, hp.2.mono hextends⟩
  | joined left right =>
    exact ⟨fun i hi => (hp.1 i hi).mono hextends (Nat.le_refl h), hp.2.mono hextends⟩
  | strided start step state =>
    cases state with
    | pending s => exact Grading.Covers.mono hp hextends
    | opened rest => exact fun v hv => (hp v hv).mono hextends (Nat.le_refl h)
    | finished => trivial

theorem Leads.refl (hw : K.Holds G w) : K.Leads w G w G := ⟨.refl w G, hw, rfl⟩

theorem Leads.trans (hfirst : K.Leads w G w' G') (hthen : K.Leads w' G' w'' G'') :
    K.Leads w G w'' G'' :=
  ⟨hfirst.toExtends.trans hthen.toExtends, hthen.holds, hthen.limit.trans hfirst.limit⟩

/-! ### Changes of a graded world -/

namespace Holds

theorem stands (hw : K.Holds G w) {v : Value} (hv : G.Bounds w h v) : v.Stands w := by
  intro s hs
  rcases hv s hs with hold | ⟨hlt, -⟩
  · exact hold.trans_le hw.since
  · exact hlt

theorem withHost (hw : K.Holds G w) {state : H.State} (hstate : K.host G w state) :
    K.Leads w G { w with host := state } G := by
  have hextends : Grading.Extends w G { w with host := state } G :=
    .of_size (Nat.le_refl _) (Nat.le_refl _) (fun _ _ _ => id) fun _ => rfl
  exact ⟨hextends, ⟨hw.since, fun t i v hv => (hw.logged t i v hv).mono hextends (Nat.le_refl _),
    fun t p hp => (hw.idle t p hp).mono hextends,
    fun s i v hv => (hw.cached s i v hv).mono hextends (Nat.le_refl _),
    fun s r hr => (hw.reading s r hr).mono hextends (Nat.le_refl _),
    K.host_mono hextends hstate⟩, rfl⟩

theorem updateTape (hw : K.Holds G w) (t : Tape) {f : TapeState H → TapeState H}
    (hlog : ∀ (i : Nat) (v : Value), (f (w.tape t)).log[i]? = some (.ok v) →
      G.Bounds w (G.tape t) v)
    (hidle : ∀ p, (f (w.tape t)).phase = .idle p → K.Producer G w (G.tape t) p) :
    K.Leads w G (w.updateTape t f) G := by
  have hextends : Grading.Extends w G (w.updateTape t f) G :=
    .of_size (by simp [World.updateTape]) (Nat.le_refl _) (fun _ _ _ => id) fun _ => rfl
  refine ⟨hextends, ⟨hw.since, fun q i v hv => ?_, fun q p hp => ?_, hw.cached, fun s r hr => ?_,
    K.host_mono hextends hw.host⟩, rfl⟩
  · rw [World.tape_updateTape] at hv
    split at hv
    case isTrue heq =>
      obtain ⟨rfl, -⟩ := heq
      exact hlog i v hv
    case isFalse => exact hw.logged q i v hv
  · rw [World.tape_updateTape] at hp
    split at hp
    case isTrue heq =>
      obtain ⟨rfl, -⟩ := heq
      exact (hidle p hp).mono hextends
    case isFalse => exact (hw.idle q p hp).mono hextends
  · exact (hw.reading s r hr).mono hextends (Nat.le_refl _)

theorem updateSequence (hw : K.Holds G w) (s : Sequence) {f : SequenceState → SequenceState}
    (hkept : ∀ (i : Nat) (v : Value), (w.sequence s).cache[i]? = some v →
      (f (w.sequence s)).cache[i]? = some v)
    (hoverwritten : (f (w.sequence s)).overwritten = (w.sequence s).overwritten)
    (hcache : ∀ (i : Nat) (v : Value), (f (w.sequence s)).cache[i]? = some v →
      G.Bounds w (G.list s) v)
    (hreader : ∀ r, (f (w.sequence s)).reader = some r → G.Reads w (G.list s) r) :
    K.Leads w G (w.updateSequence s f) G := by
  have hextends : Grading.Extends w G (w.updateSequence s f) G := by
    refine .of_size (Nat.le_refl _) (by simp) (fun u i v hv => ?_) fun u => ?_
    · rw [World.sequence_updateSequence]
      split
      case isTrue heq =>
        obtain ⟨rfl, -⟩ := heq
        exact hkept i v hv
      case isFalse => exact hv
    · rw [World.sequence_updateSequence]
      split
      case isTrue heq =>
        obtain ⟨rfl, -⟩ := heq
        exact hoverwritten
      case isFalse => rfl
  refine ⟨hextends, ⟨hw.since.trans hextends.sequences, fun t i v hv => ?_, fun t p hp => ?_,
    fun u i v hv => ?_, fun u r hr => ?_, K.host_mono hextends hw.host⟩, rfl⟩
  · exact (hw.logged t i v hv).mono hextends (Nat.le_refl _)
  · exact (hw.idle t p hp).mono hextends
  · rw [World.sequence_updateSequence] at hv
    refine Grading.Bounds.mono ?_ hextends (Nat.le_refl _)
    split at hv
    case isTrue heq =>
      obtain ⟨rfl, -⟩ := heq
      exact hcache i v hv
    case isFalse => exact hw.cached u i v hv
  · rw [World.sequence_updateSequence] at hr
    refine Grading.Reads.mono ?_ hextends (Nat.le_refl _)
    split at hr
    case isTrue heq =>
      obtain ⟨rfl, -⟩ := heq
      exact hreader r hr
    case isFalse => exact hw.reading u r hr

theorem running (hw : K.Holds G w) (t : Tape) : K.Leads w G (w.running t) G :=
  hw.updateTape t (hw.logged t) fun _ hp => by cases hp

theorem recorded (hw : K.Holds G w) (t : Tape) {x : Option MemoSeq.Item} {p : MemoSeq.Producer H}
    (hx : G.Item w (G.tape t) x) (hp : K.Producer G w (G.tape t) p) :
    K.Leads w G (w.recorded t x p) G := by
  refine hw.updateTape t (fun i v hv => ?_) fun q hq => ?_
  · rw [TapeState.log_recorded, Array.getElem?_append] at hv
    split at hv
    · exact hw.logged t i v hv
    · exact hx v (by simpa using Array.mem_of_getElem? hv)
  · match x with
    | none | some (.error _) => cases hq
    | some (.ok _) =>
      cases hq
      exact hp

theorem waiting (hw : K.Holds G w) (s : Sequence) : K.Leads w G (w.waiting s) G :=
  hw.updateSequence s (f := SequenceState.waiting) (fun _ _ => id) rfl (hw.cached s) nofun

theorem settled (hw : K.Holds G w) (s : Sequence) {x : Option MemoSeq.Item} {r : Reader}
    (hx : G.Item w (G.list s) x) (hr : G.Reads w (G.list s) r) :
    K.Leads w G (w.settled s x r) G := by
  rcases x with _ | e | u
  · refine hw.updateSequence s (f := (·.settled none (r.isExhausted w) r)) (fun _ _ => id) rfl
      (hw.cached s) fun q hq => ?_
    simp only [SequenceState.settled] at hq
    split at hq
    · cases hq
    · cases hq
      exact hr
  · exact hw.updateSequence s (f := (·.settled (some (.error e)) (r.isExhausted w) r))
      (fun _ _ => id) rfl (hw.cached s) fun q hq => by cases hq
  · refine hw.updateSequence s (f := (·.settled (some (.ok u)) (r.isExhausted w) r))
      (fun i v hv => ?_) rfl (fun i v hv => ?_) fun q hq => ?_
    · have hi := (Array.getElem?_eq_some_iff.mp hv).1
      simpa [SequenceState.settled, Array.getElem?_push, Nat.ne_of_lt hi] using hv
    · simp only [SequenceState.settled, Array.getElem?_push] at hv
      split at hv
      · cases hv
        exact hx _ rfl
      · exact hw.cached s i v hv
    · cases hq
      exact hr

/-- An iteration stays below what its list is below. -/
theorem iteration (hw : K.Holds G w) {s : Sequence} (hs : G.Covers w h s) :
    G.Iteration w h (w.iteration s) := by
  refine ⟨fun v hv => ?_, fun r hr => ?_⟩
  · obtain ⟨i, hi⟩ := List.mem_iff_getElem?.mp hv
    exact (hw.cached s i v (by simpa [World.iteration] using hi)).mono (.refl w G) hs.2
  · refine (hw.reading s r ?_).mono (.refl w G) hs.2
    simp only [World.iteration] at hr
    split at hr
    · cases hr
    · exact hr

/-- A new tape gets the number below which the values are that come from its producer. -/
theorem withTape (hw : K.Holds G w) {p : MemoSeq.Producer H} (hp : K.Producer G w h p) :
    ∃ G', K.Leads w G (w.withTape p) G' ∧ G'.tape w.freshTape = h := by
  let G' : Grading := { G with tape := fun t => if t.id = w.tapes.size then h else G.tape t }
  have hextends : Grading.Extends w G (w.withTape p) G' :=
    ⟨by simp, Nat.le_refl _, fun t ht => if_neg (Nat.ne_of_lt ht), fun _ _ => rfl, rfl,
      fun _ _ _ => id, fun _ => rfl⟩
  refine ⟨G', ⟨hextends, ⟨hw.since, fun t i v hv => ?_, fun t q hq => ?_, hw.cached,
    fun s r hr => (hw.reading s r hr).mono hextends (Nat.le_refl _),
    K.host_mono hextends hw.host⟩, rfl⟩, if_pos rfl⟩
  · rw [World.tape_withTape] at hv
    split at hv
    case isTrue => simp at hv
    case isFalse hne =>
      have hsame : G'.tape t = G.tape t := if_neg hne
      exact hsame ▸ hw.logged t i v hv
  · rw [World.tape_withTape] at hq
    split at hq
    case isTrue heq =>
      have hnew : G'.tape t = h := if_pos heq
      cases hq
      exact hnew ▸ hp.mono hextends
    case isFalse hne =>
      have hsame : G'.tape t = G.tape t := if_neg hne
      exact hsame ▸ (hw.idle t q hq).mono hextends

/-- A new list gets the same number as its tape. -/
theorem withSequence (hw : K.Holds G w) {p : MemoSeq.Producer H} (hp : K.Producer G w h p)
    (infinite : Bool) :
    ∃ G', K.Leads w G (w.withSequence p infinite) G' ∧
      G'.Covers (w.withSequence p infinite) h w.freshSequence := by
  obtain ⟨G', htape, hnew⟩ := hw.withTape hp
  let G'' : Grading :=
    { G' with list := fun s => if s.id = w.sequences.size then h else G'.list s }
  have hextends : Grading.Extends (w.withTape p) G' (w.withSequence p infinite) G'' := by
    refine ⟨Nat.le_refl _, by simp [World.withTape], fun _ _ => rfl,
      fun s hs => if_neg (Nat.ne_of_lt hs), rfl, fun s i v hv => ?_, fun s => ?_⟩
    · rw [World.sequence_withSequence]
      split
      case isTrue heq => simp [World.withTape, World.sequence, Array.getD, heq, default] at hv
      case isFalse => exact hv
    · rw [World.sequence_withSequence]
      split
      case isTrue heq => simp [World.withTape, World.sequence, Array.getD, heq, default]
      case isFalse => rfl
  have hheld := htape.holds
  refine ⟨G'', htape.trans ⟨hextends, ⟨hheld.since.trans hextends.sequences,
    fun t i v hv => (hheld.logged t i v hv).mono hextends (Nat.le_refl _),
    fun t q hq => (hheld.idle t q hq).mono hextends, fun s i v hv => ?_, fun s r hr => ?_,
    K.host_mono hextends hheld.host⟩, rfl⟩, by simp [World.freshSequence], (if_pos rfl).le⟩
  · rw [World.sequence_withSequence] at hv
    split at hv
    case isTrue => simp at hv
    case isFalse hne =>
      have hsame : G''.list s = G'.list s := if_neg hne
      exact hsame ▸ (hheld.cached s i v hv).mono hextends (Nat.le_refl _)
  · rw [World.sequence_withSequence] at hr
    split at hr
    case isTrue heq =>
      have hlist : G''.list s = h := if_pos heq
      cases hr
      exact ⟨by simp [World.freshTape], (hnew.trans hlist.symm).le⟩
    case isFalse hne =>
      have hsame : G''.list s = G'.list s := if_neg hne
      exact hsame ▸ (hheld.reading s r hr).mono hextends (Nat.le_refl _)

end Holds

end Pledge

end MemoSeq
