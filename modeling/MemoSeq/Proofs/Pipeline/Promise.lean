/-
  MemoSeq/Proofs/Pipeline/Promise.lean
  ====================================
  **What each tape, sequence, iteration and producer has promised.**

  Every list of a pipeline has a whole: the values that it holds once it is forced.
  List `k` is the sequence and the tape with the number `k`, and its producer reads
  earlier lists only.  A producer promises the values that it has not delivered yet, an
  iteration those that it has not given yet; the promise of a filter or of a
  concatenation is made of the promises of what it reads.

  `World.Keeps` says of the first tapes and sequences that nothing has gone wrong: what is
  logged or cached is the beginning of the whole, and the rest is promised.  What is
  done to these leaves the later ones alone (`World.Onward`), and that is enough for
  the promises of the later ones to stand (`World.Onward.lift`).
-/
import MemoSeq.Proofs.Plain
import MemoSeq.Proofs.Reading
import MemoSeq.Production

namespace MemoSeq

variable {H : Host} {B : Behavior H}

/-! ### What does not depend on the world -/

/-- Delivers these values and then ends, and changes nothing but the state of the host. -/
def Producer.Delivers (B : Behavior H) : List Value → Producer H → Prop
  | [], p => ∀ depth w, ∃ p' host,
      (p.next (.ofBehavior B (depth + 1))).run w = .ok ((none, p'), { w with host })
  | v :: rest, p => ∀ depth w, ∃ p' host,
      (p.next (.ofBehavior B (depth + 1))).run w = .ok ((some (.ok v), p'), { w with host }) ∧
      p'.Delivers B rest

namespace Producer

theorem delivers_values (values : List Value) : (Producer.values values).Delivers B values := by
  induction values with
  | nil => exact fun depth w => ⟨.values [], w.host, rfl⟩
  | cons v rest ih => exact fun depth w => ⟨.values rest, w.host, rfl, ih⟩

/-- A container of external numbers and texts delivers what they become. -/
theorem delivers_container {items : List (External H.Source)} {values : List Value}
    (h : List.Forall₂
      (fun x v => ∀ w : World H, (canonicalize x).run.run w = .ok (.ok v, w)) items values) :
    (Producer.container items).Delivers B values := by
  induction h with
  | nil => exact fun depth w => ⟨.container [], w.host, rfl⟩
  | cons hx hrest ih =>
    intro depth w
    refine ⟨_, w.host, ?_, ih⟩
    rw [Producer.next]
    exact Act.run_bind_of_eq (hx w)

theorem delivers_source_nil {s : H.Source}
    (hpull : ∀ depth w, ∃ s' host,
      (B.pull (.ofBehavior B depth) s).run w = .ok ((none, s'), { w with host })) :
    (Producer.source s).Delivers B [] := by
  intro depth w
  obtain ⟨s', host, hrun⟩ := hpull depth w
  exact ⟨.source s', host, Act.run_bind_of_eq hrun⟩

/-- A host iterator delivers what its items become, whatever it keeps count of. -/
theorem delivers_source_cons {s s' : H.Source} {x : External H.Source} {v : Value}
    {rest : List Value}
    (hpull : ∀ depth w, ∃ host,
      (B.pull (.ofBehavior B depth) s).run w = .ok ((some (.ok x), s'), { w with host }))
    (hx : ∀ w : World H, (canonicalize x).run.run w = .ok (.ok v, w))
    (hrest : (Producer.source s').Delivers B rest) :
    (Producer.source s).Delivers B (v :: rest) := by
  intro depth w
  obtain ⟨host, hrun⟩ := hpull depth w
  refine ⟨.source s', host, ?_, hrest⟩
  rw [Producer.next]
  exact (Act.run_bind_of_eq hrun).trans (Act.run_bind_of_eq (hx _))

end Producer

/-- A test that holds of the same values whenever it is put. -/
def Behavior.Decides (B : Behavior H) (test : H.Test) (holds : Value → Bool) : Prop :=
  ∀ depth v w, v.asList? = none → ∃ host,
    (B.test (.ofBehavior B depth) test v).run.run w = .ok (.ok (holds v), { w with host })

/-! ### Promises -/

variable (whole : Nat → List Value) (w : World H) (n : Nat)

/-- An iteration over a part of one of the first `n` lists. -/
structure Iteration.Promises (i : Iteration) (values : List Value) : Prop where
  healthy : i.failure = none
  part : ∃ k < n, values <:+ whole k
  rest : match i.rest with
    | none => values = i.cached
    | some r => r.tape.id < n ∧ r.position ≤ (w.tape r.tape).log.size ∧
        values = i.cached ++ (whole r.tape.id).drop r.position

inductive Deferred.Promises : Deferred Sequence Iteration → List Value → Prop
  | pending (s : Sequence) : s.id < n → Promises (.pending s) (whole s.id)
  | opened (i : Iteration) (values : List Value) : i.Promises whole w n values →
      Promises (.opened i) values
  | finished : Promises .finished []

/-- A producer that reads some of the first `n` lists, or none. -/
inductive Producer.Promises (B : Behavior H) : Producer H → List Value → Prop
  | fixed (p : Producer H) (values : List Value) : p.Delivers B values → Promises B p values
  | filtered (test : H.Test) (holds : Value → Bool) (state : Deferred Sequence Iteration)
      (values : List Value) : B.Decides test holds → state.Promises whole w n values →
      Promises B (.filtered test state) (values.filter holds)
  | joinedLeft (left : Iteration) (right : Deferred Sequence Iteration)
      (values values' : List Value) : left.Promises whole w n values →
      right.Promises whole w n values' →
      Promises B (.joined (some left) right) (values ++ values')
  | joinedRight (right : Deferred Sequence Iteration) (values : List Value) :
      right.Promises whole w n values → Promises B (.joined none right) values
  | striding (start step : Int) (s : Sequence) : s.id < n → step ≠ 0 →
      Promises B (.strided start step (.pending s)) (Plain.strided (whole s.id) start step)
  | strided (start step : Int) (rest : List Value) :
      Promises B (.strided start step (.opened rest)) rest
  | strode (start step : Int) : Promises B (.strided start step .finished) []

/-- A tape that is not at work has a beginning of the whole on its log, and its
    producer has promised the rest. -/
structure World.TapeKeeps (B : Behavior H) (t : Tape) : Prop where
  log : (w.tape t).log.toList <+: (whole t.id).map .ok
  phase : match (w.tape t).phase with
    | .running => False
    | .ended => (w.tape t).log.size = (whole t.id).length
    | .idle p => p.Promises whole w t.id B ((whole t.id).drop (w.tape t).log.size)

/-- A sequence that is not at work has cached a beginning of the whole, and its reader
    stands behind that. -/
structure SequenceState.Keeps (c : SequenceState) (t : Tape) (values : List Value)
    (logged : Nat) : Prop where
  rests : c.busy = false
  healthy : c.failure = none
  cache : c.cache.toList <+: values
  reader : match c.reader with
    | none => c.cache.size = values.length
    | some r => r = ⟨t, c.cache.size⟩ ∧ c.cache.size ≤ logged

/-- The first `m` tapes and the first `n` sequences are as they should be. -/
structure World.Keeps (B : Behavior H) (whole : Nat → List Value) (m n : Nat) (w : World H) :
    Prop where
  limit : w.limit = none
  tapes : ∀ t : Tape, t.id < m → w.TapeKeeps whole B t
  sequences : ∀ s : Sequence, s.id < n →
    (w.sequence s).Keeps ⟨s.id⟩ (whole s.id) (w.tape ⟨s.id⟩).log.size

/-- How the world changes when something is done to the first `m` tapes and the first
    `n` sequences. -/
structure World.Onward (B : Behavior H) (whole : Nat → List Value) (m n : Nat)
    (w w' : World H) : Prop where
  keeps : w'.Keeps B whole m n
  tapes : ∀ t : Tape, m ≤ t.id → w'.tape t = w.tape t
  sequences : ∀ s : Sequence, n ≤ s.id → w'.sequence s = w.sequence s
  grows : ∀ t : Tape, (w.tape t).log.size ≤ (w'.tape t).log.size
  tapesSize : w'.tapes.size = w.tapes.size
  sequencesSize : w'.sequences.size = w.sequences.size
  infinite : ∀ s : Sequence, (w'.sequence s).infinite = (w.sequence s).infinite

/-! ### Promises stand -/

variable {whole w n} {whole' : Nat → List Value} {w' w'' : World H} {m m' n' : Nat}

section Mono

variable (hn : n ≤ n') (hwhole : ∀ k < n, whole' k = whole k)
variable (hgrows : ∀ t : Tape, (w.tape t).log.size ≤ (w'.tape t).log.size)
include hn hwhole hgrows

theorem Iteration.Promises.mono {i : Iteration} {values : List Value}
    (h : i.Promises whole w n values) : i.Promises whole' w' n' values where
  healthy := h.healthy
  part := by
    obtain ⟨k, hk, hpart⟩ := h.part
    rw [← hwhole k hk] at hpart
    exact ⟨k, Nat.lt_of_lt_of_le hk hn, hpart⟩
  rest := by
    have hrest := h.rest
    cases hreader : i.rest with
    | none => simpa only [hreader] using hrest
    | some r =>
      simp only [hreader] at hrest ⊢
      obtain ⟨hr, hposition, hvalues⟩ := hrest
      rw [hwhole _ hr]
      exact ⟨Nat.lt_of_lt_of_le hr hn, Nat.le_trans hposition (hgrows r.tape), hvalues⟩

theorem Deferred.Promises.mono {state : Deferred Sequence Iteration} {values : List Value}
    (h : state.Promises whole w n values) : state.Promises whole' w' n' values := by
  cases h with
  | pending s hs =>
    rw [← hwhole _ hs]
    exact .pending s (Nat.lt_of_lt_of_le hs hn)
  | opened i _ hi => exact .opened i values (hi.mono hn hwhole hgrows)
  | finished => exact .finished

theorem Producer.Promises.mono {p : Producer H} {values : List Value}
    (h : p.Promises whole w n B values) : p.Promises whole' w' n' B values := by
  cases h with
  | fixed _ _ hp => exact .fixed p values hp
  | filtered test holds state values htest hstate =>
    exact .filtered test holds state values htest (hstate.mono hn hwhole hgrows)
  | joinedLeft left right values values' hleft hright =>
    exact .joinedLeft left right values values' (hleft.mono hn hwhole hgrows)
      (hright.mono hn hwhole hgrows)
  | joinedRight right _ hright =>
    exact .joinedRight right values (hright.mono hn hwhole hgrows)
  | striding start step s hs hstep =>
    rw [← hwhole _ hs]
    exact .striding start step s (Nat.lt_of_lt_of_le hs hn) hstep
  | strided start step _ => exact .strided start step values
  | strode start step => exact .strode start step

end Mono

theorem SequenceState.Keeps.mono {c : SequenceState} {t : Tape} {values : List Value}
    {logged logged' : Nat} (h : c.Keeps t values logged) (hlogged : logged ≤ logged') :
    c.Keeps t values logged' where
  rests := h.rests
  healthy := h.healthy
  cache := h.cache
  reader := by
    have hreader := h.reader
    cases hcell : c.reader with
    | none => simpa only [hcell] using hreader
    | some r =>
      simp only [hcell] at hreader ⊢
      exact ⟨hreader.1, Nat.le_trans hreader.2 hlogged⟩

namespace World

theorem TapeKeeps.congr {t : Tape} (h : w.TapeKeeps whole B t) (htape : w'.tape t = w.tape t)
    (hwhole : ∀ k ≤ t.id, whole' k = whole k)
    (hgrows : ∀ t : Tape, (w.tape t).log.size ≤ (w'.tape t).log.size) :
    w'.TapeKeeps whole' B t where
  log := by
    rw [htape, hwhole _ (Nat.le_refl _)]
    exact h.log
  phase := by
    have hphase := h.phase
    rw [htape, hwhole _ (Nat.le_refl _)]
    cases hcell : (w.tape t).phase with
    | running => simp only [hcell] at hphase
    | ended => simpa only [hcell] using hphase
    | idle p =>
      simp only [hcell] at hphase ⊢
      exact hphase.mono (Nat.le_refl _) (fun k hk => hwhole k (Nat.le_of_lt hk)) hgrows

theorem Keeps.mono (h : w.Keeps B whole m n) (hm : m' ≤ m) (hn : n' ≤ n) :
    w.Keeps B whole m' n' where
  limit := h.limit
  tapes t ht := h.tapes t (Nat.lt_of_lt_of_le ht hm)
  sequences s hs := h.sequences s (Nat.lt_of_lt_of_le hs hn)

namespace Onward

theorem refl (h : w.Keeps B whole m n) : Onward B whole m n w w where
  keeps := h
  tapes _ _ := rfl
  sequences _ _ := rfl
  grows _ := Nat.le_refl _
  tapesSize := rfl
  sequencesSize := rfl
  infinite _ := rfl

theorem trans (h : Onward B whole m n w w') (h' : Onward B whole m n w' w'') :
    Onward B whole m n w w'' where
  keeps := h'.keeps
  tapes t ht := (h'.tapes t ht).trans (h.tapes t ht)
  sequences s hs := (h'.sequences s hs).trans (h.sequences s hs)
  grows t := Nat.le_trans (h.grows t) (h'.grows t)
  tapesSize := h'.tapesSize.trans h.tapesSize
  sequencesSize := h'.sequencesSize.trans h.sequencesSize
  infinite s := (h'.infinite s).trans (h.infinite s)

/-- What was done to the first tapes and sequences leaves the later ones their
    promises. -/
theorem lift (hw : w.Keeps B whole m' n') (hm : m ≤ m') (hn : n ≤ n')
    (h : Onward B whole m n w w') : Onward B whole m' n' w w' where
  keeps := by
    refine ⟨h.keeps.limit, ?_, ?_⟩
    · intro t ht
      rcases Nat.lt_or_ge t.id m with hlt | hge
      · exact h.keeps.tapes t hlt
      · exact (hw.tapes t ht).congr (h.tapes t hge) (fun _ _ => rfl) h.grows
    · intro s hs
      rcases Nat.lt_or_ge s.id n with hlt | hge
      · exact h.keeps.sequences s hlt
      · rw [h.sequences s hge]
        exact (hw.sequences s hs).mono (h.grows _)
  tapes t ht := h.tapes t (Nat.le_trans hm ht)
  sequences s hs := h.sequences s (Nat.le_trans hn hs)
  grows := h.grows
  tapesSize := h.tapesSize
  sequencesSize := h.sequencesSize
  infinite := h.infinite

end Onward

end World

end MemoSeq
