/-
  MemoSeq/Proofs/Demand/Derived.lean
  ===================================
  **Sequences that are made of sequences that own their producers.**

  A `Derivation` is a production that reads nothing but sequences that own their producers:
  it fits when it has come as far as its tape, and when it ends they have been read as far
  as that takes.  Whatever is done, its tape keeps to that (`Derivation.guarded_of_moves`),
  unless one of the sequences has been overwritten.

  So a read of a sequence over such a tape comes to a value, and the producers are called
  as often as the production needs for it, and no more (`Derivation.run_read`).
-/
import MemoSeq.Proofs.Amounts.Indexing
import MemoSeq.Proofs.Demand.Owners

namespace MemoSeq

variable {H : Host} {B : Behavior H} {ι : Type} {depth k : Nat} {w w' : World H}
variable {s d : Sequence} {u : Tape}

/-! ### Derivations -/

/-- What a production does when it is driven for the item at position `k`: it gives a value
    and fits further on, or ends.  It reads the tapes of the owners and leaves everything
    else as it was. -/
structure Answers (owner : ι → Owner B) (fits : Nat → Producer H → World H → Prop)
    (ends : Nat → World H → Prop) (k : Nat) (w : World H) (y : Option Item × Producer H)
    (w' : World H) : Prop where
  supplied : ∀ i, (owner i).Supplied w'
  spares : w.Spares (fun t => ∀ i, t ≠ (owner i).tape.id) (fun _ => True) w'
  item : (∃ v, y.1 = some (.ok v) ∧ fits (k + 1) y.2 w') ∨ (y.1 = none ∧ ends k w')

/-- Nothing has been put into the sequences of the owners. -/
def Untouched (owner : ι → Owner B) (w : World H) : Prop :=
  ∀ i, (w.sequence (owner i).sequence).overwritten = []

/-- A production that is made of sequences that own their producers.  The one that fits at
    position `k` has read them as far as the values before that take. -/
structure Derivation (B : Behavior H) (ι : Type) where
  owner : ι → Owner B
  fits : Nat → Producer H → World H → Prop
  ends : Nat → World H → Prop
  fits_goes : ∀ {k : Nat} {p : Producer H} {w w' : World H}, fits k p w →
    (∀ i, (w.tape (owner i).tape).Goes (w'.tape (owner i).tape)) → fits k p w'
  ends_goes : ∀ {k : Nat} {w w' : World H}, ends k w →
    (∀ i, (w.tape (owner i).tape).Goes (w'.tape (owner i).tape)) → ends k w'
  next : ∀ {k : Nat} {p : Producer H} {w : World H}, (∀ i, (owner i).Supplied w) →
    Untouched owner w → fits k p w → ∀ depth,
    (p.next (.ofBehavior B depth)).Manages True w (Answers owner fits ends k w)

namespace Derivation

variable (D : Derivation B ι)

/-- The tape of the production holds values only, and has come as far as its producer. -/
structure Stands (u : Tape) (w : World H) : Prop where
  values : ∀ (k : Nat) (x : Item), (w.tape u).log[k]? = some x → ∃ v, x = .ok v
  phase : match (w.tape u).phase with
    | .idle p => D.fits (w.tape u).log.size p w
    | .running => False
    | .ended => D.ends (w.tape u).log.size w

/-- This holds of its tape unless one of the sequences has been overwritten. -/
structure Guarded (u : Tape) (w : World H) : Prop where
  supplied : ∀ i, (D.owner i).Supplied w
  tape_lt : u.id < w.tapes.size
  stands : Untouched D.owner w → D.Stands u w

variable {D}

theorem Stands.of_goes (h : D.Stands u w) (hcell : w'.tape u = w.tape u)
    (hgoes : ∀ i, (w.tape (D.owner i).tape).Goes (w'.tape (D.owner i).tape)) :
    D.Stands u w' where
  values := hcell ▸ h.values
  phase := by
    have hphase := h.phase
    rw [hcell]
    cases hcase : (w.tape u).phase with
    | idle p =>
      simp only [hcase] at hphase ⊢
      exact D.fits_goes hphase hgoes
    | running => simp only [hcase] at hphase
    | ended =>
      simp only [hcase] at hphase ⊢
      exact D.ends_goes hphase hgoes

/-- A tape notes what its producer has answered. -/
theorem Stands.recorded {v : World H} {y : Option Item × Producer H}
    (hapart : ∀ i, (D.owner i).tape ≠ u) (h : D.Stands u w) (hlt : u.id < v.tapes.size)
    (hcell : v.tape u = (w.tape u).started)
    (hy : Answers D.owner D.fits D.ends (w.tape u).log.size w' y v) :
    D.Stands u (v.recorded u y.1 y.2) := by
  have hself := World.tape_recorded_self y.1 hlt (p := y.2)
  have hgoes (i : ι) : (v.tape (D.owner i).tape).Goes
      ((v.recorded u y.1 y.2).tape (D.owner i).tape) := by
    rw [World.tape_recorded_of_ne y.1 (hapart i).symm]
    exact .refl _
  rw [hcell] at hself
  obtain ⟨x, p⟩ := y
  rcases hy.item with ⟨v, rfl, hfits⟩ | ⟨rfl, hends⟩
  · refine ⟨fun k x hx => ?_, ?_⟩
    · rw [hself] at hx
      simp only [TapeState.recorded, TapeState.log_started, Array.getElem?_push] at hx
      split at hx
      · exact ⟨v, (Option.some.inj hx).symm⟩
      · exact h.values k x hx
    · rw [hself]
      simpa [TapeState.recorded] using D.fits_goes hfits hgoes
  · refine ⟨fun k x hx => h.values k x ?_, ?_⟩
    · rwa [hself] at hx
    · rw [hself]
      exact D.ends_goes hends hgoes

theorem Guarded.of_goes (h : D.Guarded u w) (hsupplied : ∀ i, (D.owner i).Supplied w')
    (hsize : w.tapes.size ≤ w'.tapes.size) (hcell : w'.tape u = w.tape u)
    (hgoes : ∀ i, (w.tape (D.owner i).tape).Goes (w'.tape (D.owner i).tape))
    (horiginal : Untouched D.owner w' → Untouched D.owner w) : D.Guarded u w' where
  supplied := hsupplied
  tape_lt := Nat.lt_of_lt_of_le h.tape_lt hsize
  stands hclean := (h.stands (horiginal hclean)).of_goes hcell hgoes

/-! ### What is done besides -/

theorem Guarded.untouched_of_leads (h : D.Guarded u w) (hleads : w.Leads w')
    (hclean : Untouched D.owner w') : Untouched D.owner w :=
  fun i => (hleads []).overwritten_eq_nil (h.supplied i).sequence_lt (hclean i)

section Moves

variable (hB : B.Lawful) (hapart : ∀ i, (D.owner i).tape ≠ u)
include hB hapart

/-- What reads the tape of one owner, and changes no other tape, lets that tape go on. -/
theorem Guarded.of_spares (h : D.Guarded u w) (hmoves : (Engine.ofBehavior B depth).Moves w w')
    {i : ι} {v v' : World H}
    (hspares : v.Spares (· ≠ (D.owner i).tape.id) (fun _ => True) v') (hv : v.tapes = w.tapes)
    (hv' : w'.tapes = v'.tapes) : D.Guarded u w' := by
  have hbefore (t : Tape) : v.tape t = w.tape t := by simp [World.tape, hv]
  have hafter (t : Tape) : w'.tape t = v'.tape t := by simp [World.tape, hv']
  have hne : u.id ≠ (D.owner i).tape.id := fun heq => hapart i (congrArg Tape.mk heq.symm)
  refine h.of_goes (fun j => Owner.supplied_of_moves hB hmoves (h.supplied j)) ?_ ?_ (fun j => ?_)
    (h.untouched_of_leads (hmoves.leads (Engine.ofBehavior_leads hB depth)))
  · rw [hv', ← hv]
    exact hspares.tapesSize
  · rw [hafter, hspares.tapes u hne (hv ▸ h.tape_lt), hbefore]
  · rw [hafter, ← hbefore]
    exact hspares.goes _ (hv ▸ (h.supplied j).tape_lt)

/-- When the production is driven, its tape notes what it answers. -/
theorem Guarded.of_drove (h : D.Guarded u w) {p p' : Producer H} {x : Option Item} {v : World H}
    (hphase : (w.tape u).phase = .idle p)
    (hnext : (Engine.next (.ofBehavior B depth) p).run (w.running u) = .ok ((x, p'), v))
    (hsupplied : ∀ i, (D.owner i).Supplied (v.recorded u x p')) :
    D.Guarded u (v.recorded u x p') := by
  have hleads := (Engine.ofBehavior_leads hB depth).next p hnext
  have hbypasses : w.Bypasses (· ≠ u) (fun _ => True) (w.running u) :=
    .updateTape w (by simp) _
  have hlt : u.id < v.tapes.size :=
    Nat.lt_of_lt_of_le (by simpa using h.tape_lt) hleads.tapes_size_le
  refine ⟨hsupplied, by simpa using hlt, fun hclean => ?_⟩
  have hclean' : Untouched D.owner (w.running u) := fun i =>
    (hleads []).overwritten_eq_nil (h.supplied i).sequence_lt (hclean i)
  have hstands := h.stands hclean'
  have hfits : D.fits (w.tape u).log.size p (w.running u) := by
    have hphase' := hstands.phase
    simp only [hphase] at hphase'
    refine D.fits_goes hphase' fun i => ?_
    rw [World.tape_running_of_ne (hapart i).symm]
    exact .refl _
  cases depth with
  | zero => exact (Act.run_starve_eq_ok.mp hnext).elim
  | succ depth =>
    have hanswers := (D.next (fun i => Owner.Supplied.of_bypasses (h.supplied i) (hapart i) trivial
      hbypasses) hclean' hfits depth).result hnext
    have hcell : v.tape u = (w.tape u).started := by
      rw [hanswers.spares.tapes u (fun i heq => hapart i (congrArg Tape.mk heq.symm))
        (by simpa using h.tape_lt), World.tape_running_self h.tape_lt]
    exact hstands.recorded hapart hlt hcell hanswers

theorem guards (depth : Nat) :
    (Engine.ofBehavior B depth).Guards (fun t => t = u ∨ ∃ i, t = (D.owner i).tape)
      (fun s => ∃ i, s = (D.owner i).sequence) (D.Guarded u) where
  bypasses {w w'} h hw := by
    have htape (i : ι) := hw.tapes (D.owner i).tape (.inr ⟨i, rfl⟩) (h.supplied i).tape_lt
    refine h.of_goes (fun i => ?_) hw.tapesSize (hw.tapes u (.inl rfl) h.tape_lt) (fun i => ?_)
      fun hclean i => ?_
    · exact Owner.Supplied.of_bypasses (h.supplied i) (.inr ⟨i, rfl⟩) ⟨i, rfl⟩ hw
    · rw [htape i]
      exact .refl _
    · rw [← hw.sequences _ ⟨i, rfl⟩ (h.supplied i).sequence_lt]
      exact hclean i
  reads {r r' x w w'} ht h hreads := by
    have hmoves := Engine.Moves.next r (Reader.run_next_iff.mpr hreads)
    rcases ht with hu | ⟨i, hi⟩
    · obtain ⟨t, position⟩ := r
      obtain rfl : t = u := hu
      cases hreads with
      | logged | paused => exact h
      | drove p p' x v hlog hphase hnext =>
        exact h.of_drove hB hapart hphase hnext fun i =>
          Owner.supplied_of_moves hB hmoves (h.supplied i)
    · exact h.of_spares hB hapart hmoves (Owner.Stocked.of_reads (h.supplied i).toStocks hi
        hreads).2
        rfl rfl
  advances {s y w w'} hs h hadvances := by
    obtain ⟨i, rfl⟩ := hs
    have hmoves := Engine.Moves.advance _ (Sequence.run_advance_iff.mpr hadvances)
    cases hadvances with
    | failed | still => exact h
    | pulled r r' x v hfailure hbusy hreader hreads =>
      obtain ⟨rfl, -, -⟩ := (h.supplied i).mirrors.reading r hreader
      have hstocked : (D.owner i).Stocked (w.waiting (D.owner i).sequence) :=
        Owner.Stocked.of_eq (h.supplied i).toStocks (Nat.le_refl _) rfl
      exact h.of_spares hB hapart hmoves (hstocked.of_reads rfl hreads).2 rfl rfl
  overwrite {s w} hs h position v := by
    obtain ⟨i, rfl⟩ := hs
    have hmoves : (Engine.ofBehavior B depth).Moves w (w.overwrite _ position v) :=
      .overwrite w (D.owner i).sequence position v
    exact h.of_spares hB hapart hmoves (i := i) (.refl w) rfl rfl

/-- Whatever is done, the tape keeps to the production. -/
theorem guarded_of_moves (h : (Engine.ofBehavior B depth).Moves w w') (hw : D.Guarded u w) :
    D.Guarded u w' :=
  Engine.moves_guards hB (guards hB hapart) h hw

end Moves

/-! ### Reading -/

/-- The tapes of the owners have gone on, and each producer has been called no more often
    than it had been or than it may be. -/
def Demands (D : Derivation B ι) (cap : ι → Nat) (w w' : World H) : Prop :=
  ∀ i, (w.tape (D.owner i).tape).Goes (w'.tape (D.owner i).tape) ∧
    (w'.tape (D.owner i).tape).calls ≤ max (w.tape (D.owner i).tape).calls (cap i)

/-- With these means, every item up to position `k` can be had for so many calls. -/
def Serves (D : Derivation B ι) (depth k : Nat) (cap : ι → Nat) : Prop :=
  ∀ ⦃j : Nat⦄ ⦃p : Producer H⦄ ⦃w : World H⦄, j ≤ k → (∀ i, (D.owner i).Supplied w) →
    Untouched D.owner w → D.fits j p w →
    (Engine.next (.ofBehavior B depth) p).Manages False w fun y w' =>
      Answers D.owner D.fits D.ends j w y w' ∧ D.Demands cap w w'

variable {cap : ι → Nat}

theorem Demands.of_same (h : ∀ i, w'.tape (D.owner i).tape = w.tape (D.owner i).tape) :
    D.Demands cap w w' := by
  intro i
  rw [h i]
  exact ⟨.refl _, Nat.le_max_left ..⟩

theorem Demands.trans {w'' : World H} (h : D.Demands cap w w') (h' : D.Demands cap w' w'') :
    D.Demands cap w w'' := by
  intro i
  refine ⟨(h i).1.trans (h' i).1, ?_⟩
  have hfirst := (h i).2
  have hsecond := (h' i).2
  omega

/-- A reader of the tape gets a value or the end. -/
theorem Stands.run_read (hserves : D.Serves depth k cap) (hapart : ∀ i, (D.owner i).tape ≠ u)
    (h : D.Stands u w) (hsupplied : ∀ i, (D.owner i).Supplied w) (hclean : Untouched D.owner w)
    (hlt : u.id < w.tapes.size) {position : Nat} (hk : position ≤ k)
    (hposition : position ≤ (w.tape u).log.size) :
    ∃ x w', (Reader.next (.ofBehavior B depth) ⟨u, position⟩).run w =
        .ok ((x, Reader.past ⟨u, position⟩ x), w') ∧
      Untouched D.owner w' ∧ D.Demands cap w w' ∧ (∀ e, x ≠ some (.error e)) ∧
      (x = none → (w'.tape u).hasEnded = true) := by
  cases hlog : (w.tape u).log[position]? with
  | some x =>
    obtain ⟨v, rfl⟩ := h.values position x hlog
    exact ⟨_, w, Reader.run_next_of_logged hlog, hclean, .of_same fun _ => rfl, nofun, nofun⟩
  | none =>
    have hend : position = (w.tape u).log.size :=
      Nat.le_antisymm hposition (by simpa using hlog)
    have hphase := h.phase
    cases hcell : (w.tape u).phase with
    | running => simp only [hcell] at hphase
    | ended =>
      exact ⟨none, w, Reader.run_next_of_paused hlog (by simp [hcell]), hclean,
        .of_same fun _ => rfl, nofun, fun _ => by simp [TapeState.hasEnded, hcell]⟩
    | idle p =>
      simp only [hcell] at hphase
      have hsame (i : ι) := World.tape_running_of_ne (w := w) (hapart i).symm
      -- starting the tape of `u` touches none of the owners
      have hbypasses : w.Bypasses (· ≠ u) (fun _ => True) (w.running u) :=
        .updateTape w (by simp) _
      have hfits : D.fits (w.tape u).log.size p (w.running u) :=
        D.fits_goes hphase fun i => hsame i ▸ .refl _
      obtain ⟨⟨x, p'⟩, v, hrun, hanswers, hdemands⟩ := (hserves (hend ▸ hk)
        (fun i => Owner.Supplied.of_bypasses (hsupplied i) (hapart i) trivial hbypasses) hclean
        hfits).run id
      have hltv : u.id < v.tapes.size :=
        Nat.lt_of_lt_of_le (by simpa using hlt) hanswers.spares.tapesSize
      refine ⟨x, v.recorded u x p', ?_, fun i => ?_, ?_, ?_, ?_⟩
      · rw [Reader.run_next_of_idle hlog hcell, Act.run_bind_of_eq hrun]
        rfl
      · rw [World.sequence_recorded, hanswers.spares.sequences _ trivial (hsupplied i).sequence_lt]
        exact hclean i
      · exact ((Demands.of_same hsame).trans hdemands).trans
          (.of_same fun i => World.tape_recorded_of_ne x (hapart i).symm)
      · rintro e rfl
        rcases hanswers.item with ⟨v, hv, -⟩ | ⟨hnone, -⟩
        · cases hv
        · cases hnone
      · rintro rfl
        rw [World.tape_recorded_self none hltv]
        rfl

/-- No call is open, and a sequence draws from the tape of the production. -/
structure Ready (D : Derivation B ι) (d : Sequence) (u : Tape) (w : World H) : Prop where
  apart : ∀ i, (D.owner i).tape ≠ u ∧ (D.owner i).sequence ≠ d
  guarded : D.Guarded u w
  untouched : Untouched D.owner w
  ordered : Moment.Ordered ⟨w, []⟩
  draws : Moment.Draws ⟨w, []⟩ d u

namespace Ready

theorem of_moves (hB : B.Lawful) (h : D.Ready d u w)
    (hmoves : (Engine.ofBehavior B depth).Moves w w') (hclean : Untouched D.owner w') :
    D.Ready d u w' where
  apart := h.apart
  guarded := guarded_of_moves hB (fun i => (h.apart i).1) hmoves h.guarded
  untouched := hclean
  ordered := h.ordered.steps (Engine.moves_steps hB hmoves [])
  draws := h.draws.steps h.ordered (Engine.moves_steps hB hmoves [])

/-- A sequence that has been made over the production, whatever has been done since. -/
theorem of_adopt (hB : B.Lawful) (hsupplied : ∀ i, (D.owner i).Supplied w)
    (hordered : Moment.Ordered ⟨w, []⟩) {p : Producer H} (infinite : Bool)
    (hfits : Untouched D.owner w → D.fits 0 p w)
    (hmoves : (Engine.ofBehavior B depth).Moves (w.withSequence p infinite) w')
    (hclean : Untouched D.owner w') : D.Ready w.freshSequence w.freshTape w' := by
  have hbypasses : w.Bypasses (fun _ => True) (fun _ => True) (w.withSequence p infinite) :=
    .withSequence w p infinite
  have hguarded : D.Guarded w.freshTape (w.withSequence p infinite) := by
    refine ⟨fun i => Owner.Supplied.of_bypasses (hsupplied i) trivial trivial hbypasses,
      by simp [World.freshTape], fun huntouched => ⟨by simp, ?_⟩⟩
    have hp : D.fits 0 p (w.withSequence p infinite) := by
      refine D.fits_goes (hfits fun i => ?_) fun i => ?_
      · rw [← hbypasses.sequences _ trivial (hsupplied i).sequence_lt]
        exact huntouched i
      · rw [hbypasses.tapes _ trivial (hsupplied i).tape_lt]
        exact .refl _
    simpa using hp
  have hstep := Moment.Step.adopt w [] p infinite
  have hapart (i : ι) : (D.owner i).tape ≠ w.freshTape ∧ (D.owner i).sequence ≠ w.freshSequence :=
    ⟨fun heq => Nat.ne_of_lt (hsupplied i).tape_lt (congrArg Tape.id heq),
      fun heq => Nat.ne_of_lt (hsupplied i).sequence_lt (congrArg Sequence.id heq)⟩
  have hleads := hmoves.leads (Engine.ofBehavior_leads hB depth)
  exact of_moves hB ⟨hapart, hguarded, hguarded.untouched_of_leads hleads hclean,
    hordered.step hstep, hordered.draws_adopt p infinite⟩ hmoves hclean

variable (hB : B.Lawful) (hserves : D.Serves depth k cap)
include hB hserves

/-- Advancing the sequence gives a value, as long as what is asked for is within reach. -/
theorem run_advance (h : D.Ready d u w) (hk : (w.sequence d).cache.size ≤ k) :
    ∃ x w', (d.advance (.ofBehavior B depth)).run.run w = .ok (.ok x, w') ∧ D.Ready d u w' ∧
      D.Demands cap w w' ∧ (x = none → (w'.tape u).hasEnded = true) := by
  have hstands := h.guarded.stands h.untouched
  have hbusy := h.draws.busy_eq_false fun _ => List.not_mem_nil
  cases hreader : (w.sequence d).reader with
  | none =>
    obtain ⟨hended, hleft⟩ := h.draws.mirrors.done hbusy hreader
    have hfailure : (w.sequence d).failure = none := by
      cases hfailure : (w.sequence d).failure with
      | none => rfl
      | some e =>
        obtain ⟨v, hv⟩ := hstands.values _ (.error e) (by simpa [hfailure] using hleft)
        cases hv
    exact ⟨none, w, Sequence.run_advance_of_still hfailure (.inr hreader), h,
      .of_same fun _ => rfl, fun _ => hended⟩
  | some r =>
    obtain ⟨rfl, -, hfailure⟩ := h.draws.mirrors.reading r hreader
    have hother (i : ι) : (w.waiting d).sequence (D.owner i).sequence =
        w.sequence (D.owner i).sequence := World.sequence_updateSequence_of_ne _ (h.apart i).2.symm
    have hbypasses : w.Bypasses (fun _ => True) (· ≠ d) (w.waiting d) :=
      .updateSequence w (by simp) _
    have hwaiting : D.Stands u (w.waiting d) := hstands.of_goes rfl fun _ => .refl _
    obtain ⟨x, v, hrun, hclean, hdemands, hvalue, hended⟩ :=
      hwaiting.run_read hserves (fun i => (h.apart i).1)
        (fun i => Owner.Supplied.of_bypasses (h.guarded.supplied i) trivial (h.apart i).2 hbypasses)
        (fun i => hother i ▸ h.untouched i) h.guarded.tape_lt hk
        h.draws.mirrors.toCopies.cache_size_le
    have hadvance : (d.advance (.ofBehavior B depth)).run.run w = .ok (Sequence.outcomeOf x,
        v.settled d x (Reader.past ⟨u, (w.sequence d).cache.size⟩ x)) := by
      rw [Sequence.run_advance_of_reader hfailure hbusy hreader]
      exact Act.run_bind_of_eq hrun
    have hready := h.of_moves hB (.advance d hadvance) fun i => by
      rw [World.settled, World.sequence_updateSequence_of_ne _ (h.apart i).2.symm]
      exact hclean i
    rcases x with _ | e | a
    · exact ⟨none, _, hadvance, hready, hdemands, fun _ => hended rfl⟩
    · exact (hvalue e rfl).elim
    · refine ⟨some a, _, hadvance, hready, hdemands, fun hnone => ?_⟩
      cases hnone

theorem run_produce (h : D.Ready d u w) {count : Nat}
    (hcount : (w.sequence d).cache.size + count ≤ k + 1) :
    ∃ more w', (d.produce (.ofBehavior B depth) count).run.run w = .ok (.ok more, w') ∧
      D.Ready d u w' ∧ D.Demands cap w w' ∧
      ((w.sequence d).cache.size + count ≤ (w'.sequence d).cache.size ∨
        (w'.tape u).hasEnded = true) := by
  induction count generalizing w with
  | zero => exact ⟨true, w, rfl, h, .of_same fun _ => rfl, .inl (Nat.le_refl _)⟩
  | succ count ih =>
    obtain ⟨x, v, hrun, hv, hdemands, hended⟩ := h.run_advance hB hserves (by omega)
    cases x with
    | none => exact ⟨false, v, Attempt.run_bind_of_ok hrun, hv, hdemands, .inr (hended rfl)⟩
    | some a =>
      have hsize : (v.sequence d).cache.size = (w.sequence d).cache.size + 1 :=
        h.draws.size_cache_of_advance h.ordered (Engine.ofBehavior_leads hB depth) hrun
      obtain ⟨more, w', hrest, hw', hdemands', hfar⟩ := ih hv (by omega)
      refine ⟨more, w', (Attempt.run_bind_of_ok hrun).trans hrest, hw', hdemands.trans hdemands',
        hfar.imp_left fun hle => by omega⟩

/-- A position is read, and what the production needs for it has been asked for, or the
    production has ended. -/
theorem run_read (h : D.Ready d u w) :
    ∃ v w', (d.read (.ofBehavior B depth) k).run.run w = .ok (.ok v, w') ∧ D.Ready d u w' ∧
      D.Demands cap w w' ∧ (k < (w'.tape u).log.size ∨ (w'.tape u).hasEnded = true) := by
  have hforce : ∃ more w', (d.forceThrough (.ofBehavior B depth) k).run.run w =
        .ok (.ok more, w') ∧ D.Ready d u w' ∧ D.Demands cap w w' ∧
        (k < (w'.sequence d).cache.size ∨ (w'.tape u).hasEnded = true) := by
    change ∃ more w', (d.produce (.ofBehavior B depth)
      (k + 1 - (w.sequence d).cache.size)).run.run w = _ ∧ _
    rcases Nat.lt_or_ge k (w.sequence d).cache.size with hlt | hge
    · rw [Nat.sub_eq_zero_of_le hlt]
      exact ⟨true, w, rfl, h, .of_same fun _ => rfl, .inl hlt⟩
    · have hcount : (w.sequence d).cache.size + (k + 1 - (w.sequence d).cache.size) ≤ k + 1 := by
        omega
      obtain ⟨more, w', hrun, hw', hdemands, hfar⟩ := h.run_produce hB hserves hcount
      exact ⟨more, w', hrun, hw', hdemands, hfar.imp_left fun hle => by omega⟩
  obtain ⟨more, w', hrun, hw', hdemands, hfar⟩ := hforce
  exact ⟨_, w', Sequence.run_read_of_forced hrun, hw', hdemands,
    hfar.imp_left fun hlt => Nat.lt_of_lt_of_le hlt hw'.draws.mirrors.toCopies.cache_size_le⟩

end Ready

end Derivation

end MemoSeq
