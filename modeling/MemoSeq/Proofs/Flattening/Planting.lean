/-
  MemoSeq/Proofs/Flattening/Planting.lean
  =======================================
  **Nested sequences, filled while they are flattened.**

  Flattening forces a sequence, which makes sequences of its nested containers, and then
  flattens these.  A `Planting` says of some sequences which trees their items are to
  become, as a store typing says of the cells of a heap what they hold.  In a world that is
  planted (`World.PlantedUnder`) each of these sequences has cached what the first of its trees
  say, and its tape, which no other of them reads, is fit to give the rest.

  Advancing a planted sequence keeps the world planted and may add one planted sequence
  (`World.PlantedUnder.run_advance`).  What flattening a value comes to is therefore the eager
  value of its tree, and the world is planted again afterwards
  (`World.PlantedUnder.run_flatten`), provided that no node of the tree has more children
  than the limit on forcing.
-/
import MemoSeq.Proofs.Contents
import MemoSeq.Proofs.Flattening.Tree
import Mathlib.Data.List.Forall2

namespace MemoSeq

variable {H : Host} {B : Behavior H} {w w' : World H} {s : Sequence} {t : Tape}
variable {children : List Tree} {limit : Option Nat}

/-- Which sequences read which tapes, and what their items become. -/
abbrev Planting := Sequence → Option (Tape × List Tree)

namespace Planting

def Extends (G G' : Planting) : Prop := ∀ s bed, G s = some bed → G' s = some bed

variable {G G' G'' : Planting}

theorem Extends.refl (G : Planting) : G.Extends G := fun _ _ => id

theorem Extends.trans (h : G.Extends G') (h' : G'.Extends G'') : G.Extends G'' :=
  fun s bed hs => h' s bed (h s bed hs)

end Planting

/-- The value is the number or the text of a leaf, or a sequence that is to show the children. -/
def Tree.Shown (G : Planting) : Tree → Value → Prop
  | .leaf y, v => y = .ok v ∧ v.asList? = none
  | .node children, v => ∃ s t, v = .list s ∧ G s = some (t, children)

theorem Tree.Shown.mono {G G' : Planting} {c : Tree} {v : Value} (h : c.Shown G v)
    (hext : G.Extends G') : c.Shown G' v := by
  cases c with
  | leaf y => exact h
  | node children =>
    obtain ⟨s, t, hv, hs⟩ := h
    exact ⟨s, t, hv, hext s _ hs⟩

theorem Tree.Shown.refusal? {G : Planting} {c : Tree} {v : Value} (h : c.Shown G v) :
    c.refusal? = none := by
  cases c with
  | leaf y =>
    obtain ⟨rfl, -⟩ := h
    rfl
  | node children => rfl

/-- A sequence has cached what the first of its trees say.  Either its tape holds just that
    and has a producer for the rest, or the sequence has come to its end, or to the first
    leaf that is an error. -/
structure World.Roots (w : World H) (B : Behavior H) (G : Planting) (s : Sequence) (t : Tape)
    (children : List Tree) : Prop where
  sequence_lt : s.id < w.sequences.size
  tape_lt : t.id < w.tapes.size
  busy : (w.sequence s).busy = false
  cached : ∀ (k : Nat) (v : Value), (w.sequence s).cache[k]? = some v →
    ∃ c, children[k]? = some c ∧ c.Shown G v
  rest : match (w.sequence s).reader, (w.sequence s).failure with
    | some r, failure => failure = none ∧ r = ⟨t, (w.sequence s).cache.size⟩ ∧
        (w.tape t).log.size = (w.sequence s).cache.size ∧
        ∃ p, (w.tape t).phase = .idle p ∧
          Tree.BornBy B (children.drop (w.sequence s).cache.size) p
    | none, none => children.length = (w.sequence s).cache.size
    | none, some e => children[(w.sequence s).cache.size]? = some (.leaf (.error e))

/-- The planted sequences have taken root, each on a tape of its own, and forcing is limited
    as is said. -/
structure World.PlantedUnder (w : World H) (B : Behavior H) (G : Planting)
    (limit : Option Nat) : Prop where
  roots : ∀ s t children, G s = some (t, children) → w.Roots B G s t children
  apart : ∀ s s' t children children', G s = some (t, children) → G s' = some (t, children') →
    s = s'
  limit : w.limit = limit

/-- The planted sequences have taken root, and forcing is not limited. -/
abbrev World.Planted (w : World H) (B : Behavior H) (G : Planting) : Prop :=
  w.PlantedUnder B G none

/-! ### What leaves a planting as it is -/

namespace World

variable {G G' : Planting}

theorem Roots.mono (h : w.Roots B G s t children) (hext : G.Extends G') :
    w.Roots B G' s t children where
  sequence_lt := h.sequence_lt
  tape_lt := h.tape_lt
  busy := h.busy
  cached k v hv := by
    obtain ⟨c, hc, hshown⟩ := h.cached k v hv
    exact ⟨c, hc, hshown.mono hext⟩
  rest := h.rest

/-- Whether a sequence has taken root is a matter of its own cell and its tape. -/
theorem Roots.of_eq (h : w.Roots B G s t children) (htapes : w.tapes.size ≤ w'.tapes.size)
    (hsequences : w.sequences.size ≤ w'.sequences.size) (htape : w'.tape t = w.tape t)
    (hcell : w'.sequence s = w.sequence s) : w'.Roots B G s t children where
  sequence_lt := Nat.lt_of_lt_of_le h.sequence_lt hsequences
  tape_lt := Nat.lt_of_lt_of_le h.tape_lt htapes
  busy := hcell ▸ h.busy
  cached := hcell ▸ h.cached
  rest := by
    rw [hcell, htape]
    exact h.rest

theorem Roots.of_spares {T S : Nat → Prop} (h : w.Roots B G s t children)
    (hw : w.Spares T S w') (ht : T t.id) (hs : S s.id) : w'.Roots B G s t children :=
  h.of_eq hw.tapesSize hw.sequencesSize (hw.tapes t ht h.tape_lt)
    (hw.sequences s hs h.sequence_lt)

theorem Roots.cache_size_le (h : w.Roots B G s t children) :
    (w.sequence s).cache.size ≤ children.length := by
  apply Nat.le_of_not_lt
  intro hlt
  obtain ⟨c, hc, -⟩ := h.cached children.length _ (Array.getElem?_eq_getElem hlt)
  simp at hc

theorem planted_empty (hlimit : w.limit = limit) : w.PlantedUnder B (fun _ => none) limit where
  roots _ _ _ hs := nomatch hs
  apart _ _ _ _ _ hs := nomatch hs
  limit := hlimit

/-- Where one planted sequence has grown and the others have been spared, the world is
    planted still. -/
theorem PlantedUnder.grown (h : w.PlantedUnder B G limit) (hs : G s = some (t, children))
    (hw : w.Spares (· ≠ t.id) (· ≠ s.id) w') (hroots : w'.Roots B G s t children) :
    w'.PlantedUnder B G limit where
  roots u q grove hu := by
    by_cases hsame : u = s
    · subst hsame
      cases hs.symm.trans hu
      exact hroots
    · refine (h.roots u q grove hu).of_spares hw (fun hq => hsame ?_) fun hid => hsame ?_
      · obtain rfl : q = t := by
          cases q
          exact congrArg Tape.mk hq
        exact h.apart u s _ _ _ hu hs
      · cases u
        exact congrArg Sequence.mk hid
  apart := h.apart
  limit := hw.limit.trans h.limit

theorem PlantedUnder.host (h : w.PlantedUnder B G limit) (host : H.State) :
    PlantedUnder { w with host } B G limit where
  roots s t children hs :=
    (h.roots s t children hs).of_eq (Nat.le_refl _) (Nat.le_refl _) rfl rfl
  apart := h.apart
  limit := h.limit

/-- The planting with one more sequence, which is made next. -/
def planting (w : World H) (G : Planting) (children : List Tree) : Planting :=
  fun s => if s = w.freshSequence then some (w.freshTape, children) else G s

theorem planting_freshSequence : w.planting G children w.freshSequence =
    some (w.freshTape, children) := if_pos rfl

theorem PlantedUnder.extends_planting (h : w.PlantedUnder B G limit) :
    G.Extends (w.planting G children) := by
  intro s bed hs
  obtain ⟨t, grove⟩ := bed
  have hlt := (h.roots s t grove hs).sequence_lt
  refine (if_neg ?_).trans hs
  rintro rfl
  exact Nat.lt_irrefl _ hlt

/-- A sequence over a producer of some trees can be planted. -/
theorem PlantedUnder.withSequence (h : w.PlantedUnder B G limit) {p : Producer H}
    (hp : Tree.BornBy B children p) (infinite : Bool) :
    (w.withSequence p infinite).PlantedUnder B (w.planting G children) limit where
  roots s t grove hs := by
    by_cases hnew : s = w.freshSequence
    · subst hnew
      cases planting_freshSequence.symm.trans hs
      refine ⟨by simp [freshSequence], by simp [freshTape], by simp, by simp, ?_⟩
      simp only [sequence_withSequence_freshSequence, tape_withSequence, tape_withTape_freshTape]
      exact ⟨trivial, rfl, rfl, p, rfl, hp⟩
    · have hold : G s = some (t, grove) := (if_neg hnew).symm.trans hs
      exact ((h.roots s t grove hold).of_spares (T := fun _ => True) (S := fun _ => True)
        (.withSequence w p infinite) trivial trivial).mono h.extends_planting
  apart s s' t grove grove' hs hs' := by
    have hfresh {u : Sequence} {beds : List Tree} (hu : w.planting G children u = some (t, beds)) :
        u = w.freshSequence ∧ t = w.freshTape ∨ G u = some (t, beds) ∧ t.id < w.tapes.size := by
      by_cases hnew : u = w.freshSequence
      · subst hnew
        cases planting_freshSequence.symm.trans hu
        exact .inl ⟨rfl, rfl⟩
      · have hold : G u = some (t, beds) := (if_neg hnew).symm.trans hu
        exact .inr ⟨hold, (h.roots u t beds hold).tape_lt⟩
    rcases hfresh hs with ⟨rfl, rfl⟩ | ⟨hold, hlt⟩
    · rcases hfresh hs' with ⟨rfl, -⟩ | ⟨-, hlt'⟩
      · rfl
      · exact (Nat.lt_irrefl _ hlt').elim
    · rcases hfresh hs' with ⟨-, rfl⟩ | ⟨hold', -⟩
      · exact (Nat.lt_irrefl _ hlt).elim
      · exact h.apart s s' t _ _ hold hold'
  limit := h.limit

/-! ### One item -/

theorem modify_push {α : Type} (xs : Array α) (a : α) {i : Nat} (hi : i < xs.size) (f : α → α) :
    (xs.modify i f).push a = (xs.push a).modify i f := by
  ext k hk hk'
  · simp
  · simp only [Array.getElem_push, Array.getElem_modify, Array.size_modify]
    split <;> split <;> simp_all

/-- A sequence is made all the same while another one is waiting. -/
theorem withSequence_running (hs : s.id < w.sequences.size) (ht : t.id < w.tapes.size)
    (p : Producer H) (infinite : Bool) :
    ((w.waiting s).running t).withSequence p infinite =
      ((w.withSequence p infinite).waiting s).running t := by
  simp only [withSequence, withTape, running, waiting, updateTape, updateSequence, freshTape,
    modify_push _ _ hs, modify_push _ _ ht, Array.size_modify]

end World

namespace Tree.Sprouts

variable {G : Planting} {c : Tree} {item : Item}

/-- What sprouts while a sequence is waiting could have sprouted before. -/
theorem before (hs : s.id < w.sequences.size) (ht : t.id < w.tapes.size)
    (h : c.Sprouts B item ((w.waiting s).running t) w') :
    ∃ w₁, c.Sprouts B item w w₁ ∧ w' = (w₁.waiting s).running t := by
  cases c with
  | leaf y =>
    obtain ⟨hitem, rfl, hscalar⟩ := h
    exact ⟨w, ⟨hitem, rfl, hscalar⟩, rfl⟩
  | node children =>
    obtain ⟨p, hitem, rfl, hp⟩ := h
    have hfresh : ((w.waiting s).running t).freshSequence = w.freshSequence := by
      simp [World.freshSequence]
    exact ⟨w.withSequence p false, ⟨p, hfresh ▸ hitem, rfl, hp⟩,
      World.withSequence_running hs ht p false⟩

/-- An item that is a sequence can be planted. -/
theorem planted (h : c.Sprouts B item w w') (hw : w.PlantedUnder B G limit) :
    ∃ G', G.Extends G' ∧ w'.PlantedUnder B G' limit ∧
      w.Spares (fun _ => True) (fun _ => True) w' ∧
      match item with
      | .ok v => c.Shown G' v
      | .error e => c = .leaf (.error e) := by
  cases c with
  | leaf y =>
    obtain ⟨rfl, rfl, hscalar⟩ := h
    refine ⟨G, .refl G, hw, .refl w', ?_⟩
    cases item with
    | ok v => exact ⟨rfl, hscalar v rfl⟩
    | error e => rfl
  | node children =>
    obtain ⟨p, rfl, rfl, hp⟩ := h
    exact ⟨w.planting G children, hw.extends_planting, hw.withSequence hp false,
      .withSequence w p false, w.freshSequence, w.freshTape, rfl, World.planting_freshSequence⟩

end Tree.Sprouts

namespace World

variable {G G' : Planting} {depth : Nat}

/-- What may be put on the tape of a sequence that is to show the children, behind the
    first `n` items, and what the producer must be fit for then. -/
def Due (B : Behavior H) (G : Planting) (children : List Tree) (n : Nat) (p : Producer H) :
    Option Item → Prop
  | none => children.length = n
  | some (.error e) => children[n]? = some (.leaf (.error e))
  | some (.ok v) => (∃ c, children[n]? = some c ∧ c.Shown G v) ∧
      Tree.BornBy B (children.drop (n + 1)) p

/-- A planted sequence that has taken in what is due is planted still. -/
theorem PlantedUnder.settled (h : w.PlantedUnder B G limit) (hs : G s = some (t, children))
    {r : Reader} (hreader : (w.sequence s).reader = some r) {x : Option Item} {p : Producer H}
    (hx : Due B G children (w.sequence s).cache.size p x) :
    ((((w.waiting s).running t).recorded t x p).settled s x (r.past x)).PlantedUnder B G limit ∧
      ((((w.waiting s).running t).recorded t x p).settled s x (r.past x)).sequence s =
        (w.sequence s).settled x true (r.past x) := by
  obtain ⟨hslt, htlt, hbusy, hcached, hrest⟩ := h.roots s t children hs
  simp only [hreader] at hrest
  obtain ⟨hfailure, rfl, hsize, q, hphase, -⟩ := hrest
  have hidle : (w.tape t).phase ≠ .ended := by simp [hphase]
  -- nothing but the tape and the sequence itself is touched
  generalize hu : ((w.waiting s).running t).recorded t x p = u
  have htape : u.tape t = (w.tape t).started.recorded x p := by
    rw [← hu, tape_recorded_self _ (by simpa using htlt),
      tape_running_self (by simpa using htlt), tape_waiting]
  have hcell : u.sequence s = (w.sequence s).waiting := by
    rw [← hu, sequence_recorded, sequence_running, sequence_waiting_self hslt]
  have hspares : w.Spares (· ≠ t.id) (· ≠ s.id) u := by
    have hstart : w.Spares (· ≠ t.id) (· ≠ s.id) ((w.waiting s).running t) :=
      (Spares.updateSequence w s (by simp) _).trans (.running _ t (by simp) hidle)
    have hstarted : (((w.waiting s).running t).tape t).phase ≠ .ended := by
      rw [tape_running_self (by simpa using htlt)]
      simp
    exact hu ▸ hstart.trans (.recorded _ t (by simp) hstarted x p)
  have hsettled : (u.settled s x (Reader.past ⟨t, (w.sequence s).cache.size⟩ x)).sequence s =
      (w.sequence s).settled x true (Reader.past ⟨t, (w.sequence s).cache.size⟩ x) := by
    rw [sequence_settled_self x _ (by simpa [← hu] using hslt), hcell, Reader.tape_past, htape,
      SequenceState.settled_waiting]
    match x with
    | none | some (.ok _) | some (.error _) => rfl
  refine ⟨h.grown hs (hspares.trans (.updateSequence u s (by simp) _)) ⟨?_, ?_, ?_, ?_, ?_⟩,
    hsettled⟩
  · simpa [← hu] using hslt
  · simpa [← hu] using htlt
  · rw [hsettled]
    exact SequenceState.busy_settled _ _
  · rw [hsettled]
    match x with
    | none | some (.error _) => exact hcached
    | some (.ok v) =>
      intro k y hy
      rcases Nat.lt_trichotomy k (w.sequence s).cache.size with hlt | rfl | hgt
      · refine hcached k y ?_
        rwa [SequenceState.settled, Array.getElem?_push_lt hlt,
          ← Array.getElem?_eq_getElem hlt] at hy
      · rw [SequenceState.settled, Array.getElem?_push_size] at hy
        cases hy
        exact hx.1
      · rw [SequenceState.settled,
          Array.getElem?_eq_none (by simpa using Nat.succ_le_of_lt hgt)] at hy
        cases hy
  · rw [hsettled, tape_settled, htape]
    match x with
    | none =>
      simp only [SequenceState.settled, if_pos, hfailure]
      exact hx
    | some (.error e) => exact hx
    | some (.ok v) =>
      simp only [SequenceState.settled, TapeState.recorded, TapeState.log_started,
        Array.size_push, hsize]
      exact ⟨hfailure, rfl, trivial, p, rfl, hx.2⟩

/-- Advancing a planted sequence gives what the next of its trees says. -/
theorem PlantedUnder.run_advance (hdepth : 2 ≤ depth) (h : w.PlantedUnder B G limit)
    (hs : G s = some (t, children)) :
    ∃ y w' G', (s.advance (.ofBehavior B depth)).run.run w = .ok (y, w') ∧ G.Extends G' ∧
      w'.PlantedUnder B G' limit ∧
      match children[(w.sequence s).cache.size]? with
      | none => y = .ok none ∧ (w'.sequence s).cache.size = (w.sequence s).cache.size
      | some c => match c.refusal? with
        | some e => y = .error e
        | none => ∃ v, y = .ok (some v) ∧
            (w'.sequence s).cache.size = (w.sequence s).cache.size + 1 := by
  have hroots := h.roots s t children hs
  have hrest := hroots.rest
  cases hreader : (w.sequence s).reader with
  | none =>
    cases hfailure : (w.sequence s).failure with
    | none =>
      simp only [hreader, hfailure] at hrest
      refine ⟨_, w, G, Sequence.run_advance_of_still hfailure (.inr hreader), .refl G, h, ?_⟩
      rw [List.getElem?_eq_none (Nat.le_of_eq hrest)]
      exact ⟨rfl, rfl⟩
    | some e =>
      simp only [hreader, hfailure] at hrest
      refine ⟨_, w, G, Sequence.run_advance_of_failed hfailure, .refl G, h, ?_⟩
      rw [hrest]
      rfl
  | some r =>
    simp only [hreader] at hrest
    obtain ⟨hfailure, rfl, hsize, p, hphase, hp⟩ := hrest
    obtain ⟨depth, rfl⟩ := Nat.exists_eq_add_of_le' hdepth
    have hlog : ((w.waiting s).tape t).log[(w.sequence s).cache.size]? = none :=
      Array.getElem?_eq_none (Nat.le_of_eq hsize)
    have run {x : Option Item} {p' : Producer H} {u : World H}
        (hnext : (p.next (.ofBehavior B (depth + 1))).run ((w.waiting s).running t) =
          .ok ((x, p'), u)) :=
      Sequence.run_advance_iff.mpr (.pulled _ _ x _ hfailure hroots.busy hreader
        (.drove (E := .ofBehavior B (depth + 2)) p p' x u hlog hphase hnext))
    cases hc : children[(w.sequence s).cache.size]? with
    | none =>
      have hlength : children.length ≤ (w.sequence s).cache.size := by simpa using hc
      rw [List.drop_eq_nil_of_le hlength] at hp
      obtain ⟨p', host, hnext⟩ := hp depth ((w.waiting s).running t)
      obtain ⟨hplanted, hcell⟩ := (h.host host).settled hs hreader (x := none) (p := p')
        (Nat.le_antisymm hlength hroots.cache_size_le)
      refine ⟨_, _, G, run hnext, .refl G, hplanted, rfl, ?_⟩
      exact congrArg (fun cell => cell.cache.size) hcell
    | some c =>
      obtain ⟨hlt, hget⟩ := List.getElem?_eq_some_iff.mp hc
      rw [List.drop_eq_getElem_cons hlt, hget] at hp
      -- what the producer makes on the way is planted first, and then the item is taken in
      obtain ⟨item, p', host, v, hnext, hsprouts, hp'⟩ := hp depth ((w.waiting s).running t)
      obtain ⟨w₁, hbefore, rfl⟩ :=
        hsprouts.before (w := { w with host }) hroots.sequence_lt hroots.tape_lt
      obtain ⟨G', hext, hplanted, hspares, hitem⟩ := hbefore.planted (h.host host)
      have hsame : w₁.sequence s = w.sequence s :=
        hspares.sequences s trivial hroots.sequence_lt
      have hdue : Due B G' children (w₁.sequence s).cache.size p' (some item) := by
        rw [hsame]
        cases item with
        | error e => exact hc.trans (congrArg some hitem)
        | ok v => exact ⟨⟨c, hc, hitem⟩, hp' v rfl⟩
      have hreader₁ : (w₁.sequence s).reader = some ⟨t, (w.sequence s).cache.size⟩ := by
        rw [hsame]
        exact hreader
      obtain ⟨hplanted', hcell⟩ := hplanted.settled (hext s _ hs) hreader₁ hdue
      refine ⟨_, _, G', run hnext, hext, hplanted', ?_⟩
      cases item with
      | error e =>
        have hleaf : c = .leaf (.error e) := hitem
        simp only [hleaf, Tree.refusal?]
        rfl
      | ok v =>
        have hshown : c.Shown G' v := hitem
        simp only [hshown.refusal?]
        refine ⟨v, rfl, (congrArg (fun cell => cell.cache.size) hcell).trans ?_⟩
        simp [SequenceState.settled, hsame]

/-! ### Forcing and flattening -/

/-- The trees of what is cached are no errors. -/
theorem Roots.findSome?_take (h : w.Roots B G s t children) :
    (children.take (w.sequence s).cache.size).findSome? Tree.refusal? = none := by
  rw [List.findSome?_eq_none_iff]
  intro c hc
  obtain ⟨k, hk⟩ := List.getElem?_of_mem hc
  rw [List.getElem?_take] at hk
  split at hk
  case isTrue hlt =>
    obtain ⟨c', hc', hshown⟩ := h.cached k _ (Array.getElem?_eq_getElem hlt)
    cases hc'.symm.trans hk
    exact hshown.refusal?
  case isFalse => cases hk

/-- Draining goes on after a value as long as no more are held than the limit allows. -/
theorem run_drain_of_advance {E : Engine H} {rounds : Nat} {v : Value}
    (hrun : (s.advance E).run.run w = .ok (.ok (some v), w'))
    (hroom : ∀ bound, limit = some bound → (w'.sequence s).cache.size ≤ bound) :
    (s.drain E limit (rounds + 1)).run.run w = (s.drain E limit rounds).run.run w' := by
  refine (Attempt.run_bind_of_ok hrun).trans ?_
  cases limit with
  | none => rfl
  | some bound =>
    have hread : (get : Attempt H (World H)).run.run w' = .ok (.ok w', w') := rfl
    refine (Attempt.run_bind_of_ok hread).trans ?_
    rw [if_neg (Nat.not_lt.mpr (hroom bound rfl))]

/-- Draining a planted sequence comes to the first error among its trees or to the end. -/
theorem PlantedUnder.run_drain (hdepth : 2 ≤ depth) (rounds : Nat)
    (hroom : ∀ bound, limit = some bound → children.length ≤ bound)
    (h : w.PlantedUnder B G limit) (hs : G s = some (t, children))
    (hrounds : children.length < (w.sequence s).cache.size + rounds) :
    ∃ z w' G', (s.drain (.ofBehavior B depth) limit rounds).run.run w = .ok (z, w') ∧
      G.Extends G' ∧ w'.PlantedUnder B G' limit ∧
      match (children.drop (w.sequence s).cache.size).findSome? Tree.refusal? with
      | some e => z = .error e
      | none => z = .ok () ∧ (w'.sequence s).cache.size = children.length := by
  induction rounds generalizing w G with
  | zero =>
    have hle := (h.roots s t children hs).cache_size_le
    omega
  | succ rounds ih =>
    obtain ⟨y, u, G', hrun, hext, hu, hy⟩ := h.run_advance hdepth hs
    cases hc : children[(w.sequence s).cache.size]? with
    | none =>
      simp only [hc] at hy
      obtain ⟨rfl, hsize⟩ := hy
      have hle : children.length ≤ (w.sequence s).cache.size := by simpa using hc
      refine ⟨.ok (), u, G', Attempt.run_bind_of_ok hrun, hext, hu, ?_⟩
      rw [List.drop_eq_nil_of_le hle]
      exact ⟨rfl, hsize.trans (Nat.le_antisymm (h.roots s t children hs).cache_size_le hle)⟩
    | some c =>
      simp only [hc] at hy
      obtain ⟨hlt, hget⟩ := List.getElem?_eq_some_iff.mp hc
      rw [List.drop_eq_getElem_cons hlt, hget, List.findSome?_cons]
      cases hrefusal : c.refusal? with
      | some e =>
        simp only [hrefusal] at hy
        subst hy
        refine ⟨.error e, u, G', ?_, hext, hu, rfl⟩
        exact Attempt.run_bind_eq_ok.mpr (.inr ⟨e, hrun, rfl⟩)
      | none =>
        simp only [hrefusal] at hy
        obtain ⟨v, rfl, hsize⟩ := hy
        obtain ⟨z, w', G'', hrest, hext', hw', hz⟩ := ih hu (hext s _ hs) (by omega)
        rw [hsize] at hz
        -- there is room for all trees, so the limit is not met
        have hheld : ∀ bound, limit = some bound → (u.sequence s).cache.size ≤ bound := by
          intro bound hbound
          have hle := hroom bound hbound
          omega
        exact ⟨z, w', G'', (run_drain_of_advance hrun hheld).trans hrest, hext.trans hext', hw', hz⟩

/-- Forcing a planted sequence gives values for all of its trees, or the first error that a
    leaf among them is. -/
theorem PlantedUnder.run_materialize
    (hroom : ∀ bound, limit = some bound → children.length ≤ bound)
    (h : w.PlantedUnder B G limit) (hs : G s = some (t, children))
    (hdepth : children.length + 1 < depth) :
    ∃ y w' G', (s.materialize (.ofBehavior B depth)).run.run w = .ok (y, w') ∧
      G.Extends G' ∧ w'.PlantedUnder B G' limit ∧
      match children.findSome? Tree.refusal? with
      | some e => y = .error e
      | none => ∃ values, y = .ok values ∧
          List.Forall₂ (Tree.Shown G') children values.toList := by
  obtain ⟨depth, rfl⟩ := Nat.exists_eq_add_of_lt (Nat.zero_lt_of_lt hdepth)
  rw [Nat.zero_add] at hdepth ⊢
  obtain ⟨z, w', G', hrun, hext, hw', hz⟩ :=
    h.run_drain (by omega : 2 ≤ depth + 1) depth hroom hs (by omega)
  have hfirst : children.findSome? Tree.refusal? =
      (children.drop (w.sequence s).cache.size).findSome? Tree.refusal? := by
    conv => lhs; rw [← List.take_append_drop (w.sequence s).cache.size children]
    rw [List.findSome?_append, (h.roots s t children hs).findSome?_take, Option.none_or]
  refine ⟨_, w', G', Sequence.run_materialize_eq_ok.mpr ⟨z, h.limit ▸ hrun, rfl⟩, hext, hw', ?_⟩
  rw [hfirst]
  cases hrefusal : (children.drop (w.sequence s).cache.size).findSome? Tree.refusal? with
  | some e =>
    simp only [hrefusal] at hz
    subst hz
    rfl
  | none =>
    simp only [hrefusal] at hz
    obtain ⟨rfl, hsize⟩ := hz
    refine ⟨_, rfl, List.forall₂_iff_get.mpr ⟨hsize.symm, fun k hk hk' => ?_⟩⟩
    obtain ⟨c, hc, hshown⟩ := (hw'.roots s t children (hext s _ hs)).cached k _
      (Array.getElem?_eq_getElem hk')
    rw [List.getElem?_eq_getElem hk, Option.some_inj] at hc
    simpa [hc] using hshown

/-- The values of a planted sequence flatten to the eager values of their trees, up to the
    first that fails. -/
theorem PlantedUnder.run_mapM {E : Engine H} {n : Nat}
    (hflatten : ∀ c ∈ children, ∀ (v : Value) (w : World H) (G : Planting),
      w.PlantedUnder B G limit → c.Shown G v → ∃ w' G',
        (v.flattenWithin E n).run.run w = .ok (c.eager, w') ∧
        G.Extends G' ∧ w'.PlantedUnder B G' limit)
    (h : w.PlantedUnder B G limit) {values : List Value}
    (hshown : List.Forall₂ (Tree.Shown G) children values) :
    ∃ w' G', (values.mapM (Value.flattenWithin E n)).run.run w =
      .ok (Tree.eagerAll children, w') ∧ G.Extends G' ∧ w'.PlantedUnder B G' limit := by
  induction children generalizing values w G with
  | nil =>
    cases hshown
    exact ⟨w, G, rfl, .refl G, h⟩
  | cons c children ih =>
    obtain ⟨v, values, hv, hrest, rfl⟩ := List.forall₂_cons_left_iff.mp hshown
    obtain ⟨u, G', hrun, hext, hu⟩ := hflatten c List.mem_cons_self v w G h hv
    rw [List.mapM_cons, Tree.eagerAll]
    cases hc : c.eager with
    | error e =>
      rw [hc] at hrun
      exact ⟨u, G', Attempt.run_bind_eq_ok.mpr (.inr ⟨e, hrun, rfl⟩), hext, hu⟩
    | ok f =>
      rw [hc] at hrun
      obtain ⟨w', G'', hruns, hext', hw'⟩ :=
        ih (fun d hd => hflatten d (List.mem_cons_of_mem c hd)) hu
          (hrest.imp fun _ _ hd => hd.mono hext)
      refine ⟨w', G'', ?_, hext.trans hext', hw'⟩
      rw [Attempt.run_bind_of_ok hrun]
      exact Attempt.run_bind_pure_of_eq hruns _

/-- Flattening a value comes to the eager value of its tree, given the means to go as deep
    and as long as the tree is large. -/
theorem PlantedUnder.run_flattenWithin {n : Nat} (hdepth : n < depth) {c : Tree} {v : Value}
    (hn : c.size ≤ n) (hfits : c.Fits limit) (h : w.PlantedUnder B G limit)
    (hv : c.Shown G v) :
    ∃ w' G', (v.flattenWithin (.ofBehavior B depth) n).run.run w = .ok (c.eager, w') ∧
      G.Extends G' ∧ w'.PlantedUnder B G' limit := by
  induction n generalizing c v w G with
  | zero => exact absurd hn (Nat.not_le.mpr c.size_pos)
  | succ n ih =>
    cases c with
    | leaf y =>
      obtain ⟨rfl, hscalar⟩ := hv
      refine ⟨w, G, ?_, .refl G, h⟩
      cases v with
      | int | rational | str => rfl
      | list s => cases hscalar
    | node children =>
      obtain ⟨s, t, rfl, hs⟩ := hv
      have hsize : Tree.sizeAll children ≤ n := Nat.le_of_succ_le_succ hn
      have hlength : children.length + 1 < depth := by
        have hle := Tree.length_le_sizeAll children
        omega
      obtain ⟨y, u, G', hrun, hext, hu, hy⟩ := h.run_materialize hfits.1 hs hlength
      rw [Tree.eager, Value.flattenWithin]
      cases hrefusal : children.findSome? Tree.refusal? with
      | some e =>
        simp only [hrefusal] at hy
        subst hy
        exact ⟨u, G', Attempt.run_bind_eq_ok.mpr (.inr ⟨e, hrun, rfl⟩), hext, hu⟩
      | none =>
        simp only [hrefusal] at hy
        obtain ⟨values, rfl, hshown⟩ := hy
        -- the trees below are smaller, and each has its values planted
        obtain ⟨w', G'', hruns, hext', hw'⟩ := PlantedUnder.run_mapM
          (fun c hc v w G hw hv =>
            ih (Nat.lt_of_succ_lt hdepth) (Nat.le_trans (Tree.size_le_sizeAll hc) hsize)
              (hfits.2.of_mem hc) hw hv)
          hu hshown
        refine ⟨w', G'', ?_, hext.trans hext', hw'⟩
        rw [Attempt.run_bind_of_ok hrun]
        exact Attempt.run_bind_pure_of_eq hruns _

theorem PlantedUnder.run_flatten_of_fits {c : Tree} {v : Value} (hdepth : c.size < depth)
    (hfits : c.Fits limit) (h : w.PlantedUnder B G limit) (hv : c.Shown G v) :
    ∃ w' G', (v.flatten (.ofBehavior B depth)).run.run w = .ok (c.eager, w') ∧
      G.Extends G' ∧ w'.PlantedUnder B G' limit := by
  obtain ⟨depth, rfl⟩ := Nat.exists_eq_add_of_lt (Nat.zero_lt_of_lt hdepth)
  rw [Nat.zero_add] at hdepth ⊢
  exact h.run_flattenWithin (Nat.lt_succ_self _) (Nat.le_of_lt_succ hdepth) hfits hv

/-- Without a limit every tree fits. -/
theorem Planted.run_flatten {c : Tree} {v : Value} (hdepth : c.size < depth)
    (h : w.Planted B G) (hv : c.Shown G v) :
    ∃ w' G', (v.flatten (.ofBehavior B depth)).run.run w = .ok (c.eager, w') ∧
      G.Extends G' ∧ w'.Planted B G' :=
  h.run_flatten_of_fits hdepth c.fits_none hv

end World

end MemoSeq
