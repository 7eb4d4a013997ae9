/-
  MemoSeq/Proofs/Demand/Sequences.lean
  =====================================
  **Derived sequences demand only what they need.**

  Making a sequence calls no producer, and reading a filter or a concatenation calls the
  producers of the sequences it is made of as often as it takes to come to the value that is
  read, and no more, whatever had been asked of all of them before
  (`Sequence.derived_demand`).
-/
import MemoSeq.Proofs.Demand.Concatenations
import MemoSeq.Proofs.Demand.Filters

namespace MemoSeq

variable {H : Host} {B : Behavior H}

/-- The act makes a new sequence.  No tape that is there is read, so no producer is called,
    and nothing else that is there is touched. -/
def Act.Makes (a : Act H Sequence) : Prop :=
  ∀ w, ∃ w', a.run w = .ok (w.freshSequence, w') ∧
    w.Spares (fun _ => True) (fun _ => True) w' ∧ w'.host = w.host

namespace Sequence

theorem adopt_makes (p : Producer H) (infinite : Bool) : (adopt p infinite).Makes :=
  fun w => ⟨w.withSequence p infinite, rfl, .withSequence w p infinite, rfl⟩

theorem filter_makes (s : Sequence) (test : H.Test) : (s.filter test).Makes :=
  fun w => adopt_makes (.filtered test (.pending s)) (w.sequence s).infinite w

theorem append_makes (s t : Sequence) : (s.append t : Act H Sequence).Makes :=
  fun w => adopt_makes (.joined (some (w.iteration s)) (.pending t))
    ((w.sequence s).infinite || (w.sequence t).infinite) w

theorem slice_makes (E : Engine H) (s : Sequence) (start step : Option Int) (w : World H) :
    ∃ w', (s.slice E start none step).run.run w = .ok (.ok (.lazy w.freshSequence), w') ∧
      w.Spares (fun _ => True) (fun _ => True) w' ∧ w'.host = w.host :=
  ⟨_, rfl, .withSequence w _ _, rfl⟩

/-- What derived sequences ask of the producers of the sequences they are made of.

    - Making a list of a container or of an iterator, a filter, a concatenation or a slice
      without a stop calls no producer.
    - Let a filter have been made of a sequence that owns its producer, by a test whose
      verdicts depend on the positions of the values only.  Afterwards anything may have been
      done but put a value into the sequence.  Reading the filter at `k` leaves the producer
      called as often as before, or as often as it takes to come to the value at `j` that is
      found there, whichever is more.  If no more than `k` values pass, the producer has been
      run to its end.
    - Let a concatenation have been made of two such sequences over different producers.
      Reading it at a position of the left one leaves the left producer called as often as
      before or as it takes, and the right one as often as before.  Behind that it is the
      right one that is called so.  So nothing is ever asked of the right one for a read when
      the left one has no end. -/
theorem derived_demand (hB : B.Lawful) :
    (∀ (items : List (External H.Source)) (source : H.Source) (infinite : Bool)
        (s t : Sequence) (test : H.Test) (start step : Option Int),
      (ofItems items).Makes ∧ (ofSource source infinite).Makes ∧ (s.filter test).Makes ∧
        (s.append t : Act H Sequence).Makes ∧
        ∀ (E : Engine H) (w : World H), ∃ w',
          (s.slice E start none step).run.run w = .ok (.ok (.lazy w.freshSequence), w') ∧
          w.Spares (fun _ => True) (fun _ => True) w' ∧ w'.host = w.host) ∧
    (∀ (A : Owner B) (test : H.Test) (passes : Nat → Bool) (d : Sequence) (w₁ w₂ w : World H)
        (before : Nat), A.Made w₁ →
      (∀ k v, A.known k v → B.Judges test v (.ok (passes k))) →
      (A.sequence.filter test).run w₁ = .ok (d, w₂) →
      (Engine.ofBehavior B before).Moves w₂ w → (w.sequence A.sequence).overwritten = [] →
      ∀ k : Nat,
        (∀ j : Nat, j < A.total → passes j = true → Nat.count (passes · = true) j = k →
          ∃ enough, ∀ depth ≥ enough, ∃ v w',
            (d.read (.ofBehavior B depth) k).run.run w = .ok (.ok v, w') ∧
            (w'.tape A.tape).calls = max (w.tape A.tape).calls (j + 1)) ∧
        (∀ n : Nat, A.total = n → Nat.count (passes · = true) n ≤ k →
          ∃ enough, ∀ depth ≥ enough, ∃ v w',
            (d.read (.ofBehavior B depth) k).run.run w = .ok (.ok v, w') ∧
            (w'.tape A.tape).hasEnded = true)) ∧
    (∀ (A A' : Owner B) (d : Sequence) (w₁ w₂ w : World H) (before : Nat), A.tape ≠ A'.tape →
      A.Made w₁ → A'.Made w₁ → (A.sequence.append A'.sequence).run w₁ = .ok (d, w₂) →
      (Engine.ofBehavior B before).Moves w₂ w → (w.sequence A.sequence).overwritten = [] →
      (w.sequence A'.sequence).overwritten = [] →
      ∀ k : Nat,
        (k < A.total → ∃ enough, ∀ depth ≥ enough, ∃ v w',
          (d.read (.ofBehavior B depth) k).run.run w = .ok (.ok v, w') ∧
          (w'.tape A.tape).calls = max (w.tape A.tape).calls (k + 1) ∧
          (w'.tape A'.tape).calls = (w.tape A'.tape).calls) ∧
        (∀ n : Nat, A.total = n → n ≤ k → k < A.total + A'.total →
          ∃ enough, ∀ depth ≥ enough, ∃ v w',
            (d.read (.ofBehavior B depth) k).run.run w = .ok (.ok v, w') ∧
            (w'.tape A'.tape).calls = max (w.tape A'.tape).calls (k - n + 1))) := by
  refine ⟨fun items source infinite s t test start step => ⟨adopt_makes _ _, adopt_makes _ _,
      filter_makes s test, append_makes s t, fun E w => slice_makes E s start step w⟩,
    fun A test passes d w₁ w₂ w before hmade htest hfilter hmoves hclean k => ?_,
    fun A A' d w₁ w₂ w before hne hmade hmade' happend hmoves hclean hclean' k => ?_⟩
  · exact A.demand_of_filter hB hmade htest hfilter hmoves hclean k
  · exact A.demand_of_append hB A' hne hmade hmade' happend hmoves hclean hclean' k

end Sequence

namespace Session

/-- The owner of a container, on the tape and the sequence of this number. -/
def containerOwner (number : Nat) (items : List (External Script))
    (hgood : ∀ x ∈ items, x.failure? = none) : Owner behavior where
  sequence := ⟨number⟩
  tape := ⟨number⟩
  total := items.length
  known k v := ∃ x, items[k]? = some x ∧ x.Becomes v
  stage k p := p = .container (items.drop k)
  delivers := Behavior.delivers_container hgood

def nestedItems : List (External Script) := [.int 2, .items [.int 7], .int 4]

/-- Two containers, the first one with another one in it. -/
def twoContainers : World host :=
  (start.withSequence (.container nestedItems) false).withSequence (.container [.int 5]) false

/-- An iteration over the first container takes two of its values. -/
def takesTwoAhead : Act host (Option Item × Iteration) := do
  let (_, i) ← ((← get).iteration ⟨0⟩).next (.ofBehavior behavior 6)
  i.next (.ofBehavior behavior 6)

def evenAhead : World host :=
  after takesTwoAhead (twoContainers.withSequence (.filtered .even (.pending ⟨0⟩)) false)

/-- The two in a row, and the first one read ahead. -/
def joinedAhead : World host :=
  after takesTwoAhead
    (twoContainers.withSequence (.joined (some (twoContainers.iteration ⟨0⟩)) (.pending ⟨1⟩)) false)

theorem takesTwoAhead_moves (w : World host) :
    (Engine.ofBehavior behavior 6).Moves w (after takesTwoAhead w) :=
  after_moves (Act.Within.get.bind fun _ => (Iteration.next_moves _ _).bind fun _ =>
    Iteration.next_moves _ _) w

/-- Two values of the first container have been asked for.  The second even one is behind a
    third, and no other one is there.  The second value of both in a row has been asked for
    already, and for the fourth one the second container is called once. -/
theorem derived_demand_ahead :
    ((evenAhead.tape ⟨0⟩).calls = 2 ∧
      (∃ enough, ∀ depth ≥ enough, ∃ v w',
        (Sequence.read (.ofBehavior behavior depth) ⟨2⟩ 1).run.run evenAhead = .ok (.ok v, w') ∧
        (w'.tape ⟨0⟩).calls = 3) ∧
      ∃ enough, ∀ depth ≥ enough, ∃ v w',
        (Sequence.read (.ofBehavior behavior depth) ⟨2⟩ 2).run.run evenAhead = .ok (.ok v, w') ∧
        (w'.tape ⟨0⟩).hasEnded = true) ∧
    (∃ enough, ∀ depth ≥ enough, ∃ v w',
      (Sequence.read (.ofBehavior behavior depth) ⟨2⟩ 1).run.run joinedAhead = .ok (.ok v, w') ∧
      (w'.tape ⟨0⟩).calls = 2 ∧ (w'.tape ⟨1⟩).calls = 0) ∧
    ∃ enough, ∀ depth ≥ enough, ∃ v w',
      (Sequence.read (.ofBehavior behavior depth) ⟨2⟩ 3).run.run joinedAhead = .ok (.ok v, w') ∧
      (w'.tape ⟨1⟩).calls = 1 := by
  obtain ⟨-, hfilter, happend⟩ := Sequence.derived_demand behavior_lawful
  have hgood : ∀ x ∈ nestedItems, x.failure? = none := by simp [nestedItems, External.failure?]
  have hgood' : ∀ x ∈ ([.int 5] : List (External Script)), x.failure? = none := by
    simp [External.failure?]
  have hmade : (containerOwner 0 nestedItems hgood).Made twoContainers :=
    ⟨.container nestedItems, false, start, _, 6, rfl, ⟨default, .refl _⟩, rfl, rfl,
      .adopt (.container [.int 5]) false rfl⟩
  have hmade' : (containerOwner 1 [.int 5] hgood').Made twoContainers :=
    ⟨.container [.int 5], false, start.withSequence (.container nestedItems) false, _, 6, rfl,
      ⟨default, (Moment.Step.adopt start [] _ false).steps⟩, rfl, rfl, .refl _⟩
  -- 2 and 4 pass and the list between them does not, in whatever world they are tested
  have htest : ∀ k v, (containerOwner 0 nestedItems hgood).known k v →
      behavior.Judges .even v (.ok (k != 1)) := by
    rintro k v ⟨x, hx, hv⟩ depth w
    rcases k with _ | _ | _ | k
    · cases hx
      cases hv
      exact ⟨w.host, rfl⟩
    · cases hx
      cases v with
      | list s => exact ⟨w.host, rfl⟩
      | int | rational | str => cases hv
    · cases hx
      cases hv
      exact ⟨w.host, rfl⟩
    · cases hx
  have hfiltered : (Sequence.filter (H := host) ⟨0⟩ .even).run twoContainers =
      .ok (⟨2⟩, twoContainers.withSequence (.filtered .even (.pending ⟨0⟩)) false) := rfl
  have hevens := hfilter (containerOwner 0 nestedItems hgood) .even (· != 1) ⟨2⟩ twoContainers _
    evenAhead 6 hmade htest hfiltered (takesTwoAhead_moves _) rfl
  have happended : (Sequence.append (H := host) ⟨0⟩ ⟨1⟩).run twoContainers = .ok (⟨2⟩,
      twoContainers.withSequence (.joined (some (twoContainers.iteration ⟨0⟩)) (.pending ⟨1⟩))
        false) := rfl
  have hne : (⟨0⟩ : Tape) ≠ ⟨1⟩ := by decide
  have hjoined := happend (containerOwner 0 nestedItems hgood) (containerOwner 1 [.int 5] hgood')
    ⟨2⟩ twoContainers _ joinedAhead 6 hne hmade hmade' happended (takesTwoAhead_moves _) rfl rfl
  have htotal : (containerOwner 0 nestedItems hgood).total = (3 : Nat) := rfl
  have htotal' : (containerOwner 1 [.int 5] hgood').total = (1 : Nat) := rfl
  have hbelow (j : Nat) (hj : j < 3) : j < (containerOwner 0 nestedItems hgood).total := by
    rw [htotal]
    exact_mod_cast hj
  have hcalls : (evenAhead.tape ⟨0⟩).calls = 2 := rfl
  have hcalls' : (joinedAhead.tape ⟨0⟩).calls = 2 ∧ (joinedAhead.tape ⟨1⟩).calls = 0 := ⟨rfl, rfl⟩
  refine ⟨⟨hcalls, ?_, ?_⟩, ?_, ?_⟩
  · obtain ⟨enough, hread⟩ := (hevens 1).1 2 (hbelow 2 (by decide)) rfl rfl
    refine ⟨enough, fun depth hdepth => ?_⟩
    obtain ⟨v, w', hrun, hafter⟩ := hread depth hdepth
    exact ⟨v, w', hrun, hafter.trans (congrArg (max · 3) hcalls)⟩
  · exact (hevens 2).2 3 htotal (by decide)
  · obtain ⟨enough, hread⟩ := (hjoined 1).1 (hbelow 1 (by decide))
    refine ⟨enough, fun depth hdepth => ?_⟩
    obtain ⟨v, w', hrun, hafter, hafter'⟩ := hread depth hdepth
    exact ⟨v, w', hrun, hafter.trans (congrArg (max · 2) hcalls'.1), hafter'.trans hcalls'.2⟩
  · obtain ⟨enough, hread⟩ := (hjoined 3).2 3 htotal (Nat.le_refl 3)
      (by rw [htotal, htotal']; exact_mod_cast Nat.lt_succ_self 3)
    refine ⟨enough, fun depth hdepth => ?_⟩
    obtain ⟨v, w', hrun, hafter⟩ := hread depth hdepth
    exact ⟨v, w', hrun, hafter.trans (congrArg (max · 1) hcalls'.2)⟩

end Session

end MemoSeq
