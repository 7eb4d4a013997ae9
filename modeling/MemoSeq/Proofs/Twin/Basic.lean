/-
  MemoSeq/Proofs/Twin/Basic.lean
  ==============================
  **Twin worlds.**

  The same is done in two worlds, and in the first other things are done besides.  So lists
  and tapes of the first correspond to lists and tapes of the second, under other numbers,
  and there are others in the first that correspond to nothing (`Pairing`).  The worlds are
  twins when all that corresponds is alike, up to these numbers (`World.Twin`).

  One thing may differ.  A tape with a producer of fixed numbers and texts gives the same
  however far it has been read, so it may have been read further in one of the worlds, if it
  has been read in both as far as its readers stand (`TapeState.Twin.fixed`).
-/
import MemoSeq.Proofs.Session.Steady
import Mathlib.Data.List.Forall2

/-! ### Related lists and options -/

theorem List.Forall₂.getElem? {α β : Type} {R : α → β → Prop} {l : List α} {l' : List β}
    (h : List.Forall₂ R l l') (i : Nat) : Option.Rel R l[i]? l'[i]? := by
  induction h generalizing i with
  | nil => exact .none
  | cons hhead _ ih =>
    cases i with
    | zero => exact .some hhead
    | succ i => simpa using ih i

theorem List.Forall₂.set {α β : Type} {R : α → β → Prop} {l : List α} {l' : List β}
    (h : List.Forall₂ R l l') (i : Nat) {a : α} {b : β} (hab : R a b) :
    List.Forall₂ R (l.set i a) (l'.set i b) := by
  induction h generalizing i with
  | nil => exact .nil
  | cons hhead htail ih =>
    cases i with
    | zero => exact .cons hab htail
    | succ i => exact .cons hhead (ih i)

theorem Option.Rel.imp {α β : Type} {R S : α → β → Prop} (hRS : ∀ a b, R a b → S a b)
    {x : Option α} {y : Option β} (h : Option.Rel R x y) : Option.Rel S x y := by
  cases h with
  | none => exact .none
  | some h => exact .some (hRS _ _ h)

theorem Option.Rel.isSome_eq {α β : Type} {R : α → β → Prop} {x : Option α} {y : Option β}
    (h : Option.Rel R x y) : y.isSome = x.isSome := by
  cases h <;> rfl

namespace MemoSeq

open Session (host Script)

/-! ### What corresponds -/

/-- Which names are in use, which of them for lists that are looked at only, and whether the
    settings may be changed. -/
structure Usage where
  names : String → Prop
  looked : String → Prop
  settings : Prop

/-- What of two worlds corresponds.  Some lists may only be looked at, and all others that
    correspond may be changed too. -/
structure Pairing extends Usage where
  seen : Sequence → Sequence → Prop
  lists : Sequence → Sequence → Prop
  seen_of_lists : ∀ {s s' : Sequence}, lists s s' → seen s s'
  tapes : Tape → Tape → Prop
  /-- So far both tapes have been read at least. -/
  reach : Tape → Nat
  /-- What was made aside in the first world. -/
  otherLists : Sequence → Prop
  otherTapes : Tape → Prop

namespace Pairing

/-- More has been made and read in both worlds. -/
structure Grows (π π' : Pairing) : Prop where
  seen : ∀ {s s'}, π.seen s s' → π'.seen s s'
  lists : ∀ {s s'}, π.lists s s' → π'.lists s s'
  tapes : ∀ {t t'}, π.tapes t t' → π'.tapes t t'
  reach : ∀ t, π.reach t ≤ π'.reach t
  usage : π'.toUsage = π.toUsage

variable {π π' π'' : Pairing}

theorem Grows.refl (π : Pairing) : π.Grows π :=
  ⟨id, id, id, fun _ => Nat.le_refl _, rfl⟩

theorem Grows.trans (h : π.Grows π') (h' : π'.Grows π'') : π.Grows π'' where
  seen hs := h'.seen (h.seen hs)
  lists hs := h'.lists (h.lists hs)
  tapes ht := h'.tapes (h.tapes ht)
  reach t := Nat.le_trans (h.reach t) (h'.reach t)
  usage := h'.usage.trans h.usage

theorem Grows.names (h : π.Grows π') : π'.names = π.names := congrArg Usage.names h.usage

theorem Grows.looked (h : π.Grows π') : π'.looked = π.looked := congrArg Usage.looked h.usage

theorem Grows.settings (h : π.Grows π') : π'.settings = π.settings :=
  congrArg Usage.settings h.usage

def withTape (π : Pairing) (t t' : Tape) : Pairing :=
  { π with tapes := fun q q' => π.tapes q q' ∨ q = t ∧ q' = t' }

theorem grows_withTape (π : Pairing) (t t' : Tape) : π.Grows (π.withTape t t') :=
  ⟨id, id, .inl, fun _ => Nat.le_refl _, rfl⟩

def withList (π : Pairing) (s s' : Sequence) : Pairing :=
  { π with
    seen := fun u u' => π.seen u u' ∨ u = s ∧ u' = s'
    lists := fun u u' => π.lists u u' ∨ u = s ∧ u' = s'
    seen_of_lists := Or.imp_left π.seen_of_lists }

theorem grows_withList (π : Pairing) (s s' : Sequence) : π.Grows (π.withList s s') :=
  ⟨.inl, .inl, id, fun _ => Nat.le_refl _, rfl⟩

/-- A tape has been read so far in both worlds. -/
def reaching (π : Pairing) (t : Tape) (position : Nat) : Pairing :=
  { π with reach := fun q => if q = t then max (π.reach q) position else π.reach q }

theorem grows_reaching (π : Pairing) (t : Tape) (position : Nat) :
    π.Grows (π.reaching t position) where
  seen := id
  lists := id
  tapes := id
  reach q := by
    dsimp only [reaching]
    split
    · exact Nat.le_max_left _ _
    · exact Nat.le_refl _
  usage := rfl

end Pairing

/-! ### Values, readers and iterations -/

variable {π π' : Pairing}

inductive Value.Twin (π : Pairing) : Value → Value → Prop
  | scalar {v : Value} : v.asList? = none → Twin π v v
  | list {s s' : Sequence} : π.lists s s' → Twin π (.list s) (.list s')

namespace Value.Twin

variable {u u' v v' : Value}

theorem mono (h : v.Twin π v') (hπ : π.Grows π') : v.Twin π' v' := by
  cases h with
  | scalar hv => exact .scalar hv
  | list hs => exact .list (hπ.lists hs)

theorem kind (h : v.Twin π v') : v'.kind = v.kind := by
  cases h <;> rfl

theorem isNumber (h : v.Twin π v') : v'.isNumber = v.isNumber := by
  cases h <;> rfl

theorem asList? (h : v.Twin π v') : v'.asList?.isSome = v.asList?.isSome := by
  cases h <;> rfl

theorem sameScalar (h : v.Twin π v') (hu : u.Twin π u') :
    v'.sameScalar u' = v.sameScalar u := by
  cases h with
  | scalar =>
    cases hu with
    | scalar => rfl
    | list => cases v <;> rfl
  | list =>
    cases hu with
    | scalar => cases u <;> rfl
    | list => rfl

theorem compare? (h : v.Twin π v') (hu : u.Twin π u') : v'.compare? u' = v.compare? u := by
  cases h with
  | scalar =>
    cases hu with
    | scalar => rfl
    | list => cases v <;> rfl
  | list =>
    cases hu with
    | scalar => cases u <;> rfl
    | list => rfl

theorem less (h : v.Twin π v') (hu : u.Twin π u') : v'.less u' = v.less u := by
  rw [Value.less, Value.less, h.compare? hu]

theorem atMost (h : v.Twin π v') (hu : u.Twin π u') : v'.atMost u' = v.atMost u := by
  rw [Value.atMost, Value.atMost, h.less hu, h.compare? hu]

theorem greater (h : v.Twin π v') (hu : u.Twin π u') : v'.greater u' = v.greater u := by
  rw [Value.greater, Value.greater, h.compare? hu]

theorem atLeast (h : v.Twin π v') (hu : u.Twin π u') : v'.atLeast u' = v.atLeast u := by
  rw [Value.atLeast, Value.atLeast, h.greater hu, h.compare? hu]

end Value.Twin

/-- Both come to alike results, or fail alike. -/
inductive Outcome.Twin {ε α β : Type} (R : α → β → Prop) : Except ε α → Except ε β → Prop
  | ok {x : α} {y : β} : R x y → Twin R (.ok x) (.ok y)
  | error (e : ε) : Twin R (.error e) (.error e)

theorem Outcome.Twin.imp {ε α β : Type} {R S : α → β → Prop} (hRS : ∀ a b, R a b → S a b)
    {x : Except ε α} {y : Except ε β} (h : Outcome.Twin R x y) : Outcome.Twin S x y := by
  cases h with
  | ok h => exact .ok (hRS _ _ h)
  | error e => exact .error e

def Item.Twin (π : Pairing) : Item → Item → Prop := Outcome.Twin (Value.Twin π)

theorem Item.Twin.mono {x x' : Item} (h : Item.Twin π x x') (hπ : π.Grows π') :
    Item.Twin π' x x' :=
  Outcome.Twin.imp (fun _ _ hv => hv.mono hπ) h

/-- What is cached or listed. -/
abbrev Values.Twin (π : Pairing) : List Value → List Value → Prop := List.Forall₂ (Value.Twin π)

theorem Values.Twin.mono {vs vs' : List Value} (h : Values.Twin π vs vs') (hπ : π.Grows π') :
    Values.Twin π' vs vs' :=
  h.imp fun _ _ hv => hv.mono hπ

/-- The readers stand where both tapes have been read. -/
structure Reader.Twin (π : Pairing) (r r' : Reader) : Prop where
  tape : π.tapes r.tape r'.tape
  position : r'.position = r.position
  reached : r.position ≤ π.reach r.tape

theorem Reader.Twin.mono {r r' : Reader} (h : r.Twin π r') (hπ : π.Grows π') : r.Twin π' r' :=
  ⟨hπ.tapes h.tape, h.position, Nat.le_trans h.reached (hπ.reach _)⟩

structure Iteration.Twin (π : Pairing) (i i' : Iteration) : Prop where
  cached : Values.Twin π i.cached i'.cached
  rest : Option.Rel (Reader.Twin π) i.rest i'.rest
  failure : i'.failure = i.failure

theorem Iteration.Twin.mono {i i' : Iteration} (h : i.Twin π i') (hπ : π.Grows π') :
    i.Twin π' i' :=
  ⟨h.cached.mono hπ, h.rest.imp fun _ _ hr => hr.mono hπ, h.failure⟩

/-- What was put in place of which values does not matter, for nothing looks at it. -/
structure SequenceState.Twin (π : Pairing) (c c' : SequenceState) : Prop where
  reader : Option.Rel (Reader.Twin π) c.reader c'.reader
  cache : Values.Twin π c.cache.toList c'.cache.toList
  infinite : c'.infinite = c.infinite
  busy : c'.busy = c.busy
  failure : c'.failure = c.failure

namespace SequenceState.Twin

variable {c c' : SequenceState}

theorem mono (h : c.Twin π c') (hπ : π.Grows π') : c.Twin π' c' :=
  ⟨h.reader.imp fun _ _ hr => hr.mono hπ, h.cache.mono hπ, h.infinite, h.busy, h.failure⟩

theorem size (h : c.Twin π c') : c'.cache.size = c.cache.size := by
  simpa using h.cache.length_eq.symm

theorem isExhausted (h : c.Twin π c') : c'.isExhausted = c.isExhausted := by
  have hreader : c'.reader.isNone = c.reader.isNone := by
    obtain ⟨reader, -, -, -, -⟩ := h
    generalize c.reader = r, c'.reader = r' at reader
    cases reader <;> rfl
  rw [SequenceState.isExhausted, SequenceState.isExhausted, h.busy, hreader]

end SequenceState.Twin

/-! ### What producers work on -/

/-- The same names are in use for the same. -/
structure Session.Desk.SameNames (d d' : Session.Desk) : Prop where
  sequences : d.sequences = d'.sequences
  iterations : d.iterations = d'.iterations
  branches : d.branches = d'.branches

/-- Fixed numbers and texts, and the names in use are not changed for them. -/
structure Steady (items : Nat → Option Value) (stage : Nat → Producer host → Prop) : Prop
    extends Session.behavior.Streams items stage where
  names : ∀ {k : Nat} {p : Producer host}, stage k p → ∀ {depth : Nat} {w w' : World host}
    {y : Option Item × Producer host},
    (p.next (.ofBehavior Session.behavior depth)).run w = .ok (y, w') →
    w'.host.SameNames w.host

/-- Scripts of fixed items.  Where their calls are counted does not matter. -/
structure Session.Script.Twin (script script' : Script) : Prop where
  supply : script'.supply = script.supply
  calls : script'.calls = script.calls
  gives : ∃ items, script.supply.Gives script.calls items

inductive External.Twin (π : Pairing) : External Script → External Script → Prop
  | plain {x : External Script} {y : Outcome Value} : x.plain? = some y → Twin π x x
  | value {v v' : Value} : v.Twin π v' → Twin π (.value v) (.value v')
  | items {xs xs' : List (External Script)} : xs.length = xs'.length →
      (∀ {x x' : External Script}, (x, x') ∈ xs.zip xs' → Twin π x x') →
      Twin π (.items xs) (.items xs')
  | iterator {script script' : Script} : script.Twin script' →
      Twin π (.iterator script) (.iterator script')

theorem External.Twin.of_forall₂ {xs xs' : List (External Script)}
    (h : List.Forall₂ (External.Twin π) xs xs') : External.Twin π (.items xs) (.items xs') :=
  .items h.length_eq fun hmem => (List.forall₂_iff_zip.mp h).2 hmem

inductive Condition.Twin (π : Pairing) : host.Test → host.Test → Prop
  | all : Twin π .all .all
  | none : Twin π .none .none
  | equalTo {v v' : Value} : v.Twin π v' → Twin π (.equalTo v) (.equalTo v')
  | unequalTo {v v' : Value} : v.Twin π v' → Twin π (.unequalTo v) (.unequalTo v')
  | below {v v' : Value} : v.Twin π v' → Twin π (.below v) (.below v')
  | atMost {v v' : Value} : v.Twin π v' → Twin π (.atMost v) (.atMost v')
  | above {v v' : Value} : v.Twin π v' → Twin π (.above v) (.above v')
  | atLeast {v v' : Value} : v.Twin π v' → Twin π (.atLeast v) (.atLeast v')
  | number : Twin π .number .number
  | even : Twin π .even .even
  | kind (name : String) : Twin π (.kind name) (.kind name)
  | failsOn {v v' : Value} (message : String) : v.Twin π v' →
      Twin π (.failsOn v message) (.failsOn v' message)

inductive Deferred.Twin {α β : Type} (R : α → α → Prop) (S : β → β → Prop) :
    Deferred α β → Deferred α β → Prop
  | pending {a a' : α} : R a a' → Twin R S (.pending a) (.pending a')
  | opened {b b' : β} : S b b' → Twin R S (.opened b) (.opened b')
  | finished : Twin R S .finished .finished

/-- A source is not among them: it gives fixed items, or else nothing corresponds to it. -/
inductive Producer.Twin (π : Pairing) : Producer host → Producer host → Prop
  | container {xs xs' : List (External Script)} : List.Forall₂ (External.Twin π) xs xs' →
      Twin π (.container xs) (.container xs')
  | values {vs vs' : List Value} : Values.Twin π vs vs' → Twin π (.values vs) (.values vs')
  | documents (ds : List Document) : Twin π (.documents ds) (.documents ds)
  | reader {r r' : Reader} : r.Twin π r' → Twin π (.reader r) (.reader r')
  | filtered {c c' : host.Test} {d d' : Deferred Sequence Iteration} : Condition.Twin π c c' →
      Deferred.Twin π.seen (Iteration.Twin π) d d' → Twin π (.filtered c d) (.filtered c' d')
  | joined {i i' : Option Iteration} {d d' : Deferred Sequence Iteration} :
      Option.Rel (Iteration.Twin π) i i' → Deferred.Twin π.seen (Iteration.Twin π) d d' →
      Twin π (.joined i d) (.joined i' d')
  | strided (start step : Int) {d d' : Deferred Sequence (List Value)} :
      Deferred.Twin π.lists (Values.Twin π) d d' →
      Twin π (.strided start step d) (.strided start step d')

theorem Deferred.Twin.imp {α β : Type} {R R' : α → α → Prop} {S S' : β → β → Prop}
    (hR : ∀ a a', R a a' → R' a a') (hS : ∀ b b', S b b' → S' b b') {d d' : Deferred α β}
    (h : Deferred.Twin R S d d') : Deferred.Twin R' S' d d' := by
  cases h with
  | pending ha => exact .pending (hR _ _ ha)
  | opened hb => exact .opened (hS _ _ hb)
  | finished => exact .finished

section Mono

variable (hπ : π.Grows π')
include hπ

theorem External.Twin.mono {x x' : External Script} (h : x.Twin π x') : x.Twin π' x' := by
  induction h with
  | plain hx => exact .plain hx
  | value hv => exact .value (hv.mono hπ)
  | iterator h => exact .iterator h
  | items hlength _ ih => exact .items hlength ih

theorem Condition.Twin.mono {c c' : host.Test} (h : Condition.Twin π c c') :
    Condition.Twin π' c c' := by
  cases h <;> constructor <;> exact Value.Twin.mono ‹_› hπ

theorem Producer.Twin.mono {p p' : Producer host} (h : p.Twin π p') : p.Twin π' p' := by
  have iteration (i i' : Iteration) (hi : i.Twin π i') : i.Twin π' i' := hi.mono hπ
  cases h with
  | container hxs => exact .container (hxs.imp fun _ _ hx => hx.mono hπ)
  | values hvs => exact .values (hvs.mono hπ)
  | documents ds => exact .documents ds
  | reader hr => exact .reader (hr.mono hπ)
  | filtered hc hd => exact .filtered (hc.mono hπ) (hd.imp (fun _ _ => hπ.seen) iteration)
  | joined hi hd => exact .joined (hi.imp iteration) (hd.imp (fun _ _ => hπ.seen) iteration)
  | strided start step hd =>
    exact .strided start step (hd.imp (fun _ _ => hπ.lists) fun _ _ hvs => hvs.mono hπ)

end Mono

/-! ### Tapes -/

inductive Phase.Twin (π : Pairing) : Phase host → Phase host → Prop
  | idle {p p' : Producer host} : p.Twin π p' → Twin π (.idle p) (.idle p')
  | running : Twin π .running .running
  | ended : Twin π .ended .ended

/-- The tape holds fixed items, and its producer gives the rest of them. -/
structure TapeState.Fixed (items : Nat → Option Value) (stage : Nat → Producer host → Prop)
    (cell : TapeState host) : Prop where
  sound : cell.Sound
  logged : ∀ k x, cell.log[k]? = some x → some x = (items k).map .ok
  phase : match cell.phase with
    | .idle p => stage cell.log.size p
    | .running => False
    | .ended => none = (items cell.log.size).map (.ok : Value → Item)

inductive TapeState.Twin (π : Pairing) (cell cell' : TapeState host) : Prop
  | exact : List.Forall₂ (Item.Twin π) cell.log.toList cell'.log.toList →
      Phase.Twin π cell.phase cell'.phase → Twin π cell cell'
  | fixed {items : Nat → Option Value} {stage : Nat → Producer host → Prop} :
      Steady items stage → cell.Fixed items stage → cell'.Fixed items stage → Twin π cell cell'

theorem TapeState.Twin.mono {cell cell' : TapeState host} (h : cell.Twin π cell')
    (hπ : π.Grows π') : cell.Twin π' cell' := by
  cases h with
  | fixed hS hcell hcell' => exact .fixed hS hcell hcell'
  | exact hlog hphase =>
    refine .exact (hlog.imp fun _ _ hx => hx.mono hπ) ?_
    generalize cell.phase = phase, cell'.phase = phase' at hphase
    cases hphase with
    | idle hp => exact .idle (hp.mono hπ)
    | running => exact .running
    | ended => exact .ended

/-! ### Worlds -/

/-- The names in use in both worlds are bound alike. -/
structure Session.Desk.Twin (π : Pairing) (d d' : Session.Desk) : Prop where
  looked : ∀ name, π.looked name →
    Option.Rel π.seen (d.sequences.find? name) (d'.sequences.find? name)
  sequences : ∀ name, π.names name →
    Option.Rel π.lists (d.sequences.find? name) (d'.sequences.find? name)
  iterations : ∀ name, π.names name →
    Option.Rel (Iteration.Twin π) (d.iterations.find? name) (d'.iterations.find? name)
  branches : ∀ name, π.names name →
    Option.Rel (Reader.Twin π) (d.branches.find? name) (d'.branches.find? name)

namespace Session.Desk.Twin

variable {d d' e e' : Session.Desk}

theorem mono (h : d.Twin π d') (hπ : π.Grows π') : d.Twin π' d' where
  looked name hname := (h.looked name (hπ.looked ▸ hname)).imp fun _ _ => hπ.seen
  sequences name hname := (h.sequences name (hπ.names ▸ hname)).imp fun _ _ => hπ.lists
  iterations name hname := (h.iterations name (hπ.names ▸ hname)).imp fun _ _ hi => hi.mono hπ
  branches name hname := (h.branches name (hπ.names ▸ hname)).imp fun _ _ hr => hr.mono hπ

theorem of_sameNames (h : d.Twin π d') (he : e.SameNames d) (he' : e'.SameNames d') :
    e.Twin π e' where
  looked := by simpa only [he.sequences, he'.sequences] using h.looked
  sequences := by simpa only [he.sequences, he'.sequences] using h.sequences
  iterations := by simpa only [he.iterations, he'.iterations] using h.iterations
  branches := by simpa only [he.branches, he'.branches] using h.branches

end Session.Desk.Twin

/-- What corresponds has been made, and nothing aside corresponds to anything. -/
structure Pairing.Fits {α : Type} (id : α → Nat) (R : α → α → Prop) (other : α → Prop)
    (size size' : Nat) : Prop where
  lt : ∀ {a a'}, R a a' → id a < size ∧ id a' < size'
  unique : ∀ {a a' b b'}, R a a' → R b b' → (a = b ↔ a' = b')
  own : ∀ {a a'}, R a a' → ¬ other a
  other_lt : ∀ {a}, other a → id a < size

namespace Pairing.Fits

variable {α : Type} {id : α → Nat} {R : α → α → Prop} {other : α → Prop}
variable {size size' n n' : Nat}

theorem grown (h : Fits id R other size size') (hn : size ≤ n) (hn' : size' ≤ n') :
    Fits id R other n n' where
  lt ha := ⟨(h.lt ha).1.trans_le hn, (h.lt ha).2.trans_le hn'⟩
  unique := h.unique
  own := h.own
  other_lt ha := (h.other_lt ha).trans_le hn

theorem made (h : Fits id R other size size') {a a' : α} (ha : id a = size) (ha' : id a' = size') :
    Fits id (fun b b' => R b b' ∨ b = a ∧ b' = a') other (size + 1) (size' + 1) := by
  have hold {b b' : α} (hb : R b b') : b ≠ a ∧ b' ≠ a' := by
    obtain ⟨hlt, hlt'⟩ := h.lt hb
    exact ⟨by rintro rfl; exact hlt.ne ha, by rintro rfl; exact hlt'.ne ha'⟩
  refine ⟨?_, ?_, ?_, fun hb => Nat.lt_succ_of_lt (h.other_lt hb)⟩
  · rintro b b' (hb | ⟨rfl, rfl⟩)
    · exact ⟨Nat.lt_succ_of_lt (h.lt hb).1, Nat.lt_succ_of_lt (h.lt hb).2⟩
    · exact ⟨ha ▸ Nat.lt_succ_self _, ha' ▸ Nat.lt_succ_self _⟩
  · rintro b b' c c' (hb | ⟨rfl, rfl⟩) (hc | ⟨rfl, rfl⟩)
    · exact h.unique hb hc
    · simp [hold hb]
    · simp [(hold hc).1.symm, (hold hc).2.symm]
    · simp
  · rintro b b' (hb | ⟨rfl, rfl⟩)
    · exact h.own hb
    · exact fun hother => (h.other_lt hother).ne ha

end Pairing.Fits

/-- All that corresponds is alike, and so are the settings. -/
structure World.Twin (π : Pairing) (w w' : World Session.host) : Prop where
  lists : Pairing.Fits Sequence.id π.seen π.otherLists w.sequences.size w'.sequences.size
  tapes : Pairing.Fits Tape.id π.tapes π.otherTapes w.tapes.size w'.tapes.size
  cell : ∀ {s s'}, π.seen s s' → (w.sequence s).Twin π (w'.sequence s')
  tape : ∀ {t t'}, π.tapes t t' → (w.tape t).Twin π (w'.tape t')
  reach : ∀ {t t'}, π.tapes t t' →
    π.reach t ≤ (w.tape t).log.size ∧ π.reach t ≤ (w'.tape t').log.size
  reach_eq : ∀ t : Tape, w.tapes.size ≤ t.id → π.reach t = 0
  limit : w'.limit = w.limit
  displayLength : w'.displayLength = w.displayLength
  desk : w.host.Twin π w'.host

namespace World.Twin

variable {w w' v v' : World Session.host} {s s' : Sequence} {t t' : Tape}

theorem cell_of_lists (h : w.Twin π w') (hs : π.lists s s') :
    (w.sequence s).Twin π (w'.sequence s') :=
  h.cell (π.seen_of_lists hs)

/-- Both worlds go on, and what corresponds is still alike. -/
theorem continues (h : w.Twin π w') (hv : w.Continues v) (hv' : w'.Continues v')
    (hcell : ∀ {s s'}, π.seen s s' → (v.sequence s).Twin π (v'.sequence s'))
    (htape : ∀ {t t'}, π.tapes t t' → (v.tape t).Twin π (v'.tape t'))
    (hdesk : v.host.Twin π v'.host) : v.Twin π v' where
  lists := h.lists.grown hv.sequencesSize hv'.sequencesSize
  tapes := h.tapes.grown hv.tapesSize hv'.tapesSize
  cell := hcell
  tape := htape
  reach ht := by
    obtain ⟨hlt, hlt'⟩ := h.tapes.lt ht
    obtain ⟨hreach, hreach'⟩ := h.reach ht
    exact ⟨hreach.trans (hv.goes _ hlt).size_le, hreach'.trans (hv'.goes _ hlt').size_le⟩
  reach_eq q hq := h.reach_eq q (hv.tapesSize.trans hq)
  limit := by rw [hv.limit, hv'.limit, h.limit]
  displayLength := by rw [hv.displayLength, hv'.displayLength, h.displayLength]
  desk := hdesk

theorem updateSequence (h : w.Twin π w') (hs : π.seen s s') {f f' : SequenceState → SequenceState}
    (hcell : (f (w.sequence s)).Twin π (f' (w'.sequence s'))) :
    (w.updateSequence s f).Twin π (w'.updateSequence s' f') := by
  refine h.continues (Spares.updateSequence w s id f) (Spares.updateSequence w' s' id f') ?_ h.tape
    h.desk
  intro u u' hu
  by_cases heq : s = u
  · obtain rfl := heq
    obtain rfl := (h.lists.unique hs hu).mp rfl
    obtain ⟨hlt, hlt'⟩ := h.lists.lt hs
    rwa [sequence_updateSequence_self f hlt, sequence_updateSequence_self f' hlt']
  · have hne : s' ≠ u' := fun hsame => heq ((h.lists.unique hs hu).mpr hsame)
    rw [sequence_updateSequence_of_ne f heq, sequence_updateSequence_of_ne f' hne]
    exact h.cell hu

/-- Nothing but one tape changes in either world, and it is still alike. -/
theorem tapeChanged (h : w.Twin π w') (ht : π.tapes t t')
    (hv : w.Spares (· ≠ t.id) (fun _ => True) v) (hv' : w'.Spares (· ≠ t'.id) (fun _ => True) v')
    (hcell : (v.tape t).Twin π (v'.tape t')) (hnames : v.host.SameNames w.host)
    (hnames' : v'.host.SameNames w'.host) : v.Twin π v' := by
  refine h.continues hv.continues hv'.continues ?_ ?_ (h.desk.of_sameNames hnames hnames')
  · intro s s' hs
    rw [hv.sequences s trivial (h.lists.lt hs).1, hv'.sequences s' trivial (h.lists.lt hs).2]
    exact h.cell hs
  · intro q q' hq
    by_cases heq : q = t
    · obtain rfl := heq
      obtain rfl := (h.tapes.unique hq ht).mp rfl
      exact hcell
    · have hne : q' ≠ t' := fun hsame => heq ((h.tapes.unique hq ht).mpr hsame)
      have hid : q.id ≠ t.id := fun hsame => heq (by cases q; cases t; cases hsame; rfl)
      have hid' : q'.id ≠ t'.id := fun hsame => hne (by cases q'; cases t'; cases hsame; rfl)
      rw [hv.tapes q hid (h.tapes.lt hq).1, hv'.tapes q' hid' (h.tapes.lt hq).2]
      exact h.tape hq

theorem updateTape (h : w.Twin π w') (ht : π.tapes t t')
    {f f' : TapeState Session.host → TapeState Session.host}
    (hgoes : (w.tape t).Goes (f (w.tape t))) (hgoes' : (w'.tape t').Goes (f' (w'.tape t')))
    (hcell : (f (w.tape t)).Twin π (f' (w'.tape t'))) :
    (w.updateTape t f).Twin π (w'.updateTape t' f') := by
  obtain ⟨hlt, hlt'⟩ := h.tapes.lt ht
  refine h.tapeChanged ht (.updateTape w t (fun hne => hne rfl) hgoes)
    (.updateTape w' t' (fun hne => hne rfl) hgoes') ?_ ⟨rfl, rfl, rfl⟩ ⟨rfl, rfl, rfl⟩
  rwa [tape_updateTape_self f hlt, tape_updateTape_self f' hlt']

theorem host (h : w.Twin π w') {d d' : Session.Desk} (hd : d.Twin π d') :
    World.Twin π { w with host := d } { w' with host := d' } :=
  h.continues (.host w d) (.host w' d') h.cell h.tape hd

theorem setLimit (h : w.Twin π w') (limit : Option Nat) :
    World.Twin π { w with limit } { w' with limit } :=
  { h with
    cell := h.cell
    tape := h.tape
    limit := rfl }

theorem setDisplayLength (h : w.Twin π w') (displayLength : Nat) :
    World.Twin π { w with displayLength } { w' with displayLength } :=
  { h with
    cell := h.cell
    tape := h.tape
    displayLength := rfl }

/-- Both tapes have been read so far. -/
theorem reaching (h : w.Twin π w') (ht : π.tapes t t') {position : Nat}
    (hread : position ≤ (w.tape t).log.size) (hread' : position ≤ (w'.tape t').log.size) :
    w.Twin (π.reaching t position) w' := by
  have hπ := π.grows_reaching t position
  refine { h with
    cell := fun hs => (h.cell hs).mono hπ
    tape := fun hq => (h.tape hq).mono hπ
    reach := ?_
    reach_eq := ?_
    desk := h.desk.mono hπ }
  · intro q q' hq
    have hold := h.reach hq
    dsimp only [Pairing.reaching]
    split
    case isTrue heq =>
      obtain rfl := heq
      obtain rfl := (h.tapes.unique ht hq).mp rfl
      exact ⟨Nat.max_le.mpr ⟨hold.1, hread⟩, Nat.max_le.mpr ⟨hold.2, hread'⟩⟩
    case isFalse => exact hold
  · intro q hq
    have hne : q ≠ t := by
      rintro rfl
      exact Nat.not_le.mpr (h.tapes.lt ht).1 hq
    dsimp only [Pairing.reaching]
    rw [if_neg hne]
    exact h.reach_eq q hq

theorem withTape (h : w.Twin π w') {p p' : Producer Session.host}
    (hp : TapeState.Twin (π.withTape w.freshTape w'.freshTape) ⟨#[], .idle p⟩ ⟨#[], .idle p'⟩) :
    (w.withTape p).Twin (π.withTape w.freshTape w'.freshTape) (w'.withTape p') := by
  have hπ := π.grows_withTape w.freshTape w'.freshTape
  constructor
  case lists => exact h.lists
  case tapes =>
    rw [tapes_size_withTape, tapes_size_withTape]
    exact h.tapes.made rfl rfl
  case cell => exact fun hs => (h.cell hs).mono hπ
  case tape =>
    rintro t t' (ht | ⟨rfl, rfl⟩)
    · rw [tape_withTape_of_lt p (h.tapes.lt ht).1, tape_withTape_of_lt p' (h.tapes.lt ht).2]
      exact (h.tape ht).mono hπ
    · rwa [tape_withTape_freshTape, tape_withTape_freshTape]
  case reach =>
    rintro t t' (ht | ⟨rfl, rfl⟩)
    · rw [tape_withTape_of_lt p (h.tapes.lt ht).1, tape_withTape_of_lt p' (h.tapes.lt ht).2]
      exact h.reach ht
    · have hzero : π.reach w.freshTape = 0 := h.reach_eq _ (Nat.le_refl _)
      exact ⟨hzero ▸ Nat.zero_le _, hzero ▸ Nat.zero_le _⟩
  case reach_eq =>
    intro t ht
    rw [tapes_size_withTape] at ht
    exact h.reach_eq t (Nat.le_of_succ_le ht)
  case limit => exact h.limit
  case displayLength => exact h.displayLength
  case desk => exact h.desk.mono hπ

/-- A list is made in both worlds, over a tape that gives alike. -/
theorem withSequence (h : w.Twin π w') {p p' : Producer Session.host} (infinite : Bool)
    (hp : TapeState.Twin (π.withTape w.freshTape w'.freshTape) ⟨#[], .idle p⟩ ⟨#[], .idle p'⟩) :
    (w.withSequence p infinite).Twin
      ((π.withTape w.freshTape w'.freshTape).withList w.freshSequence w'.freshSequence)
      (w'.withSequence p' infinite) := by
  have htape := h.withTape hp
  have hπ := (π.withTape w.freshTape w'.freshTape).grows_withList w.freshSequence w'.freshSequence
  constructor
  case lists =>
    rw [sequences_size_withSequence, sequences_size_withSequence]
    exact htape.lists.made rfl rfl
  case tapes => exact htape.tapes
  case cell =>
    rintro s s' (hs | ⟨rfl, rfl⟩)
    · obtain ⟨hlt, hlt'⟩ := h.lists.lt hs
      rw [sequence_withSequence_of_lt p infinite hlt, sequence_withSequence_of_lt p' infinite hlt']
      exact (htape.cell hs).mono hπ
    · rw [sequence_withSequence_freshSequence, sequence_withSequence_freshSequence]
      exact ⟨.some ⟨.inr ⟨rfl, rfl⟩, rfl, Nat.zero_le _⟩, .nil, rfl, rfl, rfl⟩
  case tape => exact fun ht => (htape.tape ht).mono hπ
  case reach => exact htape.reach
  case reach_eq => exact htape.reach_eq
  case limit => exact h.limit
  case displayLength => exact h.displayLength
  case desk => exact htape.desk.mono hπ

end World.Twin

end MemoSeq
