/-
  MemoSeq/Proofs/Views/Overwrites.lean
  ====================================
  **Which overwrites a derived sequence sees.**

  Overwriting a sequence changes its cache and not its tape.  What is made of the sequence
  copies the cache at one moment and reads the tape behind that, so it sees just the
  overwrites before that moment (`Sequence.shown_by_derived`).  The moment is the making
  for the left part of a concatenation, the call on which the left part ends for the right
  one, and the first call for a filter and a slice without a stop.
-/
import MemoSeq.Proofs.Provision.Derived
import MemoSeq.Proofs.Session.Steady
import MemoSeq.Proofs.Views.Sequences

namespace MemoSeq

variable {H : Host} {B : Behavior H} {produced found : List Value}
variable {stage : Nat → Producer H → Prop} {depth : Nat} {s d : Sequence} {t u : Tape}
variable {w w' : World H}

/-! ### Concatenations -/

/-- A concatenation whose left part is an iteration that has been asked `k` times, as long
    as that has given values only. -/
def Producer.JoinedLeft (t : Tape) (found : List Value) (right : Deferred Sequence Iteration)
    (length k : Nat) (p : Producer H) (w : World H) : Prop :=
  k ≤ length → ∃ i, p = .joined (some i) right ∧ i.Follows t w found k

theorem Behavior.Streams.views_joinedLeft (hS : B.Streams (produced[·]?) stage)
    (right : Deferred Sequence Iteration) :
    B.Views (produced[·]?) stage t (resumed found produced) False 2
      (Producer.JoinedLeft t found right (resumed found produced).length) where
  mono hp _ hgoes hk := by
    obtain ⟨i, rfl, hi⟩ := hp hk
    exact ⟨i, rfl, hi.of_goes hgoes⟩
  next {k p w} hp hbase hknown depth := by
    have hk := hknown.resolve_left id
    obtain ⟨i, rfl, hi⟩ := hp (Nat.le_of_lt hk)
    refine (hi.due_manages hS hbase).bind ?_
    rintro ⟨x, i'⟩ v ⟨hx, hi', -, hspares⟩
    obtain rfl : x = some (.ok (resumed found produced)[k]) := by
      rw [List.getElem?_eq_getElem hk] at hx
      exact hx
    exact .of_run rfl ⟨hx, fun _ _ => ⟨i', rfl, hi'⟩, hspares⟩
  beyond _ hlt hle := (Nat.not_le.mpr hlt hle).elim

/-- A concatenation whose left part has given so many values and has ended, and whose
    right part is an iteration that has been asked for the others. -/
def Producer.JoinedRight (t : Tape) (found : List Value) (before k : Nat) (p : Producer H)
    (w : World H) : Prop :=
  before ≤ k ∧ ∃ i, p = .joined none (.opened i) ∧ i.Follows t w found (k - before)

theorem Behavior.Streams.views_joinedRight (hS : B.Streams (produced[·]?) stage)
    (before : List Value) :
    B.Views (produced[·]?) stage t (before ++ resumed found produced) True 2
      (Producer.JoinedRight t found before.length) where
  mono hp _ hgoes := by
    obtain ⟨hle, i, rfl, hi⟩ := hp
    exact ⟨hle, i, rfl, hi.of_goes hgoes⟩
  next {k p w} hp hbase _ depth := by
    obtain ⟨hle, i, rfl, hi⟩ := hp
    have hmanages : (Producer.nextDeferred.along (.ofBehavior B depth) i).Manages (depth < 2) w
        fun y v => y.1 = (before ++ resumed found produced)[k]?.map .ok ∧
          (y.1 ≠ none → ∃ i', y.2 = .opened i' ∧ i'.Follows t v found (k + 1 - before.length)) ∧
          w.Spares (t.id + 1 ≤ ·) (fun _ => True) v := by
      refine (hi.due_manages hS hbase).bind ?_
      rintro ⟨x, i'⟩ v ⟨hx, hi', -, hspares⟩
      rw [← List.getElem?_append_right hle] at hx
      rw [← Nat.sub_add_comm hle] at hi'
      cases x with
      | none => exact .of_run rfl ⟨hx, fun hsome => (hsome rfl).elim, hspares⟩
      | some x => exact .of_run rfl ⟨hx, fun _ => ⟨i', rfl, hi'⟩, hspares⟩
    refine hmanages.bind ?_
    rintro ⟨x, right⟩ v ⟨hx, hright, hspares⟩
    refine .of_run rfl ⟨hx, fun hsome => ?_, hspares⟩
    obtain ⟨i', rfl, hi'⟩ := hright fun hnone =>
      hsome (Option.map_eq_none_iff.mp (hx.symm.trans hnone))
    exact ⟨Nat.le_succ_of_le hle, i', rfl, hi'⟩
  beyond hopen := (hopen trivial).elim

/-! ### Filters -/

/-- A filter whose iteration has been asked for some values, of which `k` have passed. -/
def Producer.Filtering (t : Tape) (found all : List Value) (test : H.Test) (holds : Value → Bool)
    (k : Nat) (p : Producer H) (w : World H) : Prop :=
  ∃ i asked, p = .filtered test (.opened i) ∧ i.Follows t w found asked ∧ asked ≤ all.length ∧
    (all.drop asked).filter holds = (all.filter holds).drop k

section Filters

variable (hS : B.Streams (produced[·]?) stage) {test : H.Test} {holds : Value → Bool}
variable (htest : ∀ v ∈ resumed found produced, B.Judges test v (.ok (holds v)))
include hS htest

/-- A search with enough rounds finds the next value that passes, or none. -/
theorem Producer.search_manages {wanting : Prop} (hwanting : depth < 2 → wanting) (rounds : Nat)
    (hbase : (Provision.streamed (produced[·]?) stage).Stocks t w) {i : Iteration} {asked : Nat}
    (hi : i.Follows t w found asked) (hasked : asked ≤ (resumed found produced).length)
    (hrounds : wanting ∨ (resumed found produced).length < asked + rounds) :
    (search (.ofBehavior B depth) test rounds i).Manages wanting w fun y v =>
      y.1 = (((resumed found produced).drop asked).filter holds).head?.map .ok ∧
        (∀ a rest, ((resumed found produced).drop asked).filter holds = a :: rest →
          ∃ i' asked', y.2 = .opened i' ∧ i'.Follows t v found asked' ∧
            asked' ≤ (resumed found produced).length ∧
            ((resumed found produced).drop asked').filter holds = rest) ∧
        w.Spares (t.id + 1 ≤ ·) (fun _ => True) v := by
  -- each round asks once, so there are always more rounds than values left
  induction rounds generalizing w i asked with
  | zero => exact .halted (hrounds.resolve_right (Nat.not_lt.mpr hasked)) rfl
  | succ rounds ih =>
    rw [search]
    refine ((hi.due_manages hS hbase).of_imp hwanting).bind ?_
    rintro ⟨x, i'⟩ v ⟨hx, hi', hbase', hspares⟩
    dsimp only at hx hi' hbase' hspares
    rcases Nat.lt_or_eq_of_le hasked with hlt | rfl
    · rw [List.getElem?_eq_getElem hlt, Option.map_some] at hx
      subst hx
      have htested : ((Engine.test (.ofBehavior B depth) test
          (resumed found produced)[asked]).outcome).Manages wanting v fun y v' =>
            y = .ok (holds (resumed found produced)[asked]) ∧ ∃ host, v' = { v with host } := by
        cases depth with
        | zero => exact .halted (hwanting Nat.zero_lt_two) rfl
        | succ depth =>
          obtain ⟨host, hrun⟩ := htest _ (List.getElem_mem hlt) depth v
          exact .of_run hrun ⟨rfl, host, rfl⟩
      refine htested.bind ?_
      rintro y v' ⟨rfl, host, rfl⟩
      have hboth := hspares.trans (.host v host)
      rw [List.drop_eq_getElem_cons hlt]
      cases hholds : holds (resumed found produced)[asked] with
      | true =>
        rw [List.filter_cons_of_pos hholds]
        refine .of_run rfl ⟨rfl, fun a rest heq => ?_, hboth⟩
        exact ⟨i', asked + 1, rfl, hi'.of_goes (.refl _), hlt, (List.cons.inj heq).2⟩
      | false =>
        rw [List.filter_cons_of_neg (by simp [hholds])]
        have hbase'' : (Provision.streamed (produced[·]?) stage).Stocks t { v with host } :=
          hbase'.of_tape hbase'.tape_lt rfl
        refine (ih hbase'' (hi'.of_goes (.refl _)) hlt
          (hrounds.imp_right fun hlong => by omega)).mono ?_
        rintro ⟨x, state⟩ v' ⟨hx, hrest, hspares'⟩
        exact ⟨hx, hrest, hboth.trans hspares'⟩
    · rw [List.getElem?_eq_none (Nat.le_refl _), Option.map_none] at hx
      subst hx
      rw [List.drop_length]
      exact .of_run rfl ⟨rfl, fun a rest heq => (List.cons_ne_nil a rest heq.symm).elim, hspares⟩

theorem Behavior.Streams.views_filtering :
    B.Views (produced[·]?) stage t ((resumed found produced).filter holds) True
      ((resumed found produced).length + 2)
      (Producer.Filtering t found (resumed found produced) test holds) where
  mono hp _ hgoes := by
    obtain ⟨i, asked, rfl, hi, hrest⟩ := hp
    exact ⟨i, asked, rfl, hi.of_goes hgoes, hrest⟩
  next {k p w} hp hbase _ depth := by
    obtain ⟨i, asked, rfl, hi, hasked, hleft⟩ := hp
    have hrounds : depth < (resumed found produced).length + 2 ∨
        (resumed found produced).length < asked + (Engine.ofBehavior B depth).fuel := by
      cases depth with
      | zero => exact .inl (Nat.zero_lt_succ _)
      | succ depth =>
        change _ ∨ _ < asked + depth
        omega
    refine (Producer.search_manages hS htest (by omega) _ hbase hi hasked hrounds).bind ?_
    rintro ⟨x, state⟩ v ⟨hx, hrest, hspares⟩
    rw [hleft, List.head?_drop] at hx
    rw [hleft] at hrest
    refine .of_run rfl ⟨hx, fun hsome => ?_, hspares⟩
    have hk : k < ((resumed found produced).filter holds).length :=
      Nat.lt_of_not_le fun hle => hsome (List.getElem?_eq_none hle)
    obtain ⟨i', asked', rfl, hi', hasked', hleft'⟩ := hrest _ _ (List.drop_eq_getElem_cons hk)
    exact ⟨i', asked', rfl, hi', hasked', hleft'⟩
  beyond hopen := (hopen trivial).elim

end Filters

/-! ### Slices without a stop -/

def Producer.Striding (start step : Int) (values : List Value) (k : Nat) (p : Producer H)
    (_ : World H) : Prop :=
  p = .strided start step (.opened (values.drop k))

/-- Values that are there already are given one after the other. -/
theorem Behavior.views_striding (items : Nat → Option Value) (start step : Int)
    (values : List Value) :
    B.Views items stage t values True 0 (Producer.Striding start step values) where
  mono hp _ _ := hp
  next {k p w} hp _ _ depth := by
    obtain rfl : p = _ := hp
    rcases Nat.lt_or_ge k values.length with hlt | hge
    · rw [List.drop_eq_getElem_cons hlt, List.getElem?_eq_getElem hlt]
      exact .of_run rfl ⟨rfl, fun _ => rfl, .refl w⟩
    · rw [List.drop_eq_nil_of_le hge, List.getElem?_eq_none hge]
      exact .of_run rfl ⟨rfl, fun hsome => (hsome rfl).elim, .refl w⟩
  beyond hopen := (hopen trivial).elim

/-- If nothing is put into it, a sequence over fixed values comes to hold what it has cached
    and the produced values from that depth on. -/
theorem Provision.Supplies.unfolds_resumed (hS : B.Streams (produced[·]?) stage)
    (hdepth : 2 ≤ depth) (values : List Value) (w : World H) :
    s.Unfolds (.ofBehavior B depth) values fun v =>
      (streamed (produced[·]?) stage).Supplies s t v ∧
        resumed (v.sequence s).cache.toList produced = values ∧
        w.Spares (t.id + 1 ≤ ·) (s.id + 1 ≤ ·) v where
  cache v hv := by
    rw [← hv.2.1, resumed]
    exact (List.take_left' (Array.length_toList ..)).symm
  advance v hv := by
    obtain ⟨hsupplies, rfl, hspares⟩ := hv
    obtain ⟨x, v', hrun, hx, -, hsupplies', hspares', hcell⟩ :=
      hsupplies.run_advance (hS.valid hdepth t.id s.id)
    have hdue : (resumed (v.sequence s).cache.toList produced)[(v.sequence s).cache.size]? =
        produced[(v.sequence s).cache.size]? := by
      rw [getElem?_resumed, Array.getElem?_toList, Array.getElem?_eq_none (Nat.le_refl _),
        Option.none_or]
    obtain rfl : x = produced[(v.sequence s).cache.size]?.map .ok := hx
    rw [hdue]
    cases hitem : produced[(v.sequence s).cache.size]? with
    | none =>
      rw [hitem] at hrun hcell
      have hcache : (v'.sequence s).cache = (v.sequence s).cache := congrArg (·.cache) hcell
      refine ⟨v', hrun, ⟨hsupplies', by rw [hcache], hspares.trans hspares'⟩, ?_⟩
      have hend := List.getElem?_eq_none_iff.mp hitem
      simp [hcache, resumed, List.drop_eq_nil_of_le hend]
    | some a =>
      rw [hitem] at hrun hcell
      have hcache : (v'.sequence s).cache = (v.sequence s).cache.push a := congrArg (·.cache) hcell
      obtain ⟨hlt, ha⟩ := List.getElem?_eq_some_iff.mp hitem
      refine ⟨v', hrun, ⟨hsupplies', ?_, hspares.trans hspares'⟩, ?_⟩
      · rw [hcache, resumed, resumed, Array.length_toList, Array.length_toList, Array.size_push,
          Array.toList_push, List.drop_eq_getElem_cons hlt, ha, List.append_assoc,
          List.singleton_append]
      · simp only [hcache, Array.size_push, resumed, List.length_append, Array.length_toList,
          List.length_drop]
        omega

/-! ### Sequences made of another one -/

/-- When no call is open, a sequence draws from a tape with fixed values, and another one,
    made later, draws from a tape of its own. -/
structure World.Layered (produced : List Value) (stage : Nat → Producer H → Prop) (s : Sequence)
    (t : Tape) (d : Sequence) (u : Tape) (w : World H) : Prop where
  ordered : Moment.Ordered ⟨w, []⟩
  base : Moment.Draws ⟨w, []⟩ s t
  stocks : (Provision.streamed (produced[·]?) stage).Stocks t w
  derived : Moment.Draws ⟨w, []⟩ d u
  sequences : s ≠ d
  tapes : t.id < u.id

namespace World.Layered

theorem moves (h : w.Layered produced stage s t d u) (hB : B.Lawful)
    (hS : B.Streams (produced[·]?) stage) (hmoves : (Engine.ofBehavior B depth).Moves w w') :
    w'.Layered produced stage s t d u := by
  have hsteps := Engine.moves_steps hB hmoves []
  exact { h with
    ordered := h.ordered.steps hsteps
    base := h.base.steps h.ordered hsteps
    stocks := (Engine.moves_restocks hB hS hmoves h.stocks).1
    derived := h.derived.steps h.ordered hsteps }

/-- A sequence that is made over any producer is layered upon the one that was there. -/
theorem made (h : (Provision.streamed (produced[·]?) stage).Stocks t w)
    (hm : Moment.Ordered ⟨w, []⟩) (hbase : Moment.Draws ⟨w, []⟩ s t) (p : Producer H)
    (infinite : Bool) :
    (w.withSequence p infinite).Layered produced stage s t w.freshSequence w.freshTape where
  ordered := hm.step (.adopt w [] p infinite)
  base := hbase.step hm (.adopt w [] p infinite)
  stocks := h.of_tape (by simpa using Nat.lt_succ_of_lt h.tape_lt) (tape_withTape_of_lt p h.tape_lt)
  derived := hm.draws_adopt p infinite
  sequences := by
    rintro rfl
    exact Nat.lt_irrefl _ hbase.sequence_lt
  tapes := h.tape_lt

/-- Nothing is cached of a tape on which there is nothing yet. -/
theorem cache_size_eq (h : w.Layered produced stage s t d u) (hempty : (w.tape u).log.size = 0) :
    (w.sequence d).cache.size = (w.tape u).log.size :=
  Nat.le_antisymm h.derived.mirrors.toCopies.cache_size_le (hempty ▸ Nat.zero_le _)

/-- A sequence over any producer is layered upon one that was made before. -/
theorem of_made (hB : B.Lawful) (hS : B.Streams (produced[·]?) stage) {p : Producer H}
    (hp : stage 0 p) {w₀ w₁ : World H} (hreached : Moment.Reached ⟨w₀, []⟩) {infinite : Bool}
    (hmade : (Sequence.adopt p infinite).run w₀ = .ok (s, w₁))
    (hmoves : (Engine.ofBehavior B depth).Moves w₁ w) (p' : Producer H) (infinite' : Bool) :
    (w.withSequence p' infinite').Layered produced stage s w₀.freshTape w.freshSequence
      w.freshTape := by
  have hsupplies := Sequence.supplies_of_made hB hS hp hreached hmade hmoves
  obtain ⟨hm, hdraws⟩ := hreached.draws_of_made hmade (Engine.moves_steps hB hmoves [])
  exact made hsupplies.toStocks hm hdraws p' infinite'

/-- Within a call of the producer of the other sequence, the first one is supplied, and the
    tape that has been called does not move. -/
theorem within_call (h : w.Layered produced stage s t d u) (hB : B.Lawful)
    (hS : B.Streams (produced[·]?) stage) {p : Producer H} (hphase : (w.tape u).phase = .idle p)
    {pull : Pull} (hbehind : pull = .sequence → (w.sequence d).cache.size = (w.tape u).log.size)
    {v : World H} (hmoves : (Engine.ofBehavior B depth).Moves (pull.calling w d u) v) :
    (Provision.streamed (produced[·]?) stage).Supplies s t v ∧
      v.tape u = (w.tape u).started := by
  have hne : u ≠ t := fun heq => Nat.ne_of_lt h.tapes (congrArg Tape.id heq).symm
  have hcalled : (pull.calling w d u).tape u = (w.tape u).started := by
    cases pull <;> exact tape_running_self h.derived.tape_lt
  obtain ⟨c, -, hothers, hstep⟩ := Pull.step_calling h.derived hphase hbehind
  have hc : ∀ r, Call.pull s r ∉ [c] := fun r hr =>
    hothers s r h.sequences (List.mem_singleton.mp hr).symm
  have hordered := h.ordered.step hstep
  have hsteps := Engine.moves_steps hB hmoves [c]
  refine ⟨((h.base.step h.ordered hstep).steps hordered hsteps).supplies_of_not_mem hc ?_, ?_⟩
  · exact (Engine.moves_restocks hB hS hmoves (Pull.stocks_calling h.stocks hne d pull)).1
  · rw [(hmoves.leads (Engine.ofBehavior_leads hB depth)).tape_running (by rw [hcalled]; rfl),
      hcalled]

end World.Layered

/-- What an iteration over a sequence over these values gives if it is opened in this world:
    what is cached, and then the produced values from that depth on. -/
def World.outlook (w : World H) (s : Sequence) (produced : List Value) : List Value :=
  resumed (w.sequence s).cache.toList produced

theorem Provision.Supplies.length_outlook
    (h : (streamed (produced[·]?) stage).Supplies s t w) :
    (w.outlook s produced).length = produced.length := by
  have hle : (w.sequence s).cache.size ≤ produced.length := by
    apply Nat.le_of_not_lt
    intro hlt
    obtain ⟨v, hv⟩ := h.allows_of_cached hlt
    have hitem : (some (.ok v) : Option Item) = produced[produced.length]?.map .ok := hv
    simp at hitem
  simp only [World.outlook, resumed, List.length_append, Array.length_toList, List.length_drop]
  omega

/-- If as many values as a view has are on its tape, it is they. -/
theorem Provision.Stocks.view_log {items : Nat → Option Value} {values : List Value} {all : Prop}
    {fits : Nat → Producer H → World H → Prop}
    (h : (view items stage t values all fits).Stocks u w)
    (hsize : (w.tape u).log.size = values.length) :
    (w.tape u).log.toList = values.map .ok := by
  apply List.ext_getElem?
  intro k
  rw [List.getElem?_map, Array.getElem?_toList]
  rcases Nat.lt_or_ge k values.length with hlt | hge
  · have hlog := Array.getElem?_eq_getElem (hsize ▸ hlt : k < (w.tape u).log.size)
    rw [hlog]
    exact h.logged k _ hlog (.inr hlt)
  · rw [List.getElem?_eq_none hge, Array.getElem?_eq_none (hsize ▸ hge), Option.map_none]

/-- A tape on which there are just these values. -/
theorem Provision.view_logged {items : Nat → Option Value} {values before : List Value}
    {all : Prop} {fits : Nat → Producer H → World H → Prop} {log : Array Item}
    (hlog : log.toList = before.map .ok) (hbefore : before <+: values) {k : Nat} {y : Item}
    (hy : log[k]? = some y) : (view items stage t values all fits).allows k (some y) := by
  intro _
  rw [← Array.getElem?_toList, hlog, List.getElem?_map, Option.map_eq_some_iff] at hy
  obtain ⟨a, ha, rfl⟩ := hy
  obtain ⟨hlt, rfl⟩ := List.getElem?_eq_some_iff.mp ha
  rw [List.prefix_iff_getElem?.mp hbefore k hlt, Option.map_some]

namespace World.Layered

variable (hB : B.Lawful) (hS : B.Streams (produced[·]?) stage)
variable (h : w.Layered produced stage s t d u) (hdepth : produced.length + 2 ≤ depth)
include hB hS h hdepth

/-- The first call of a filter settles what it shows. -/
theorem settles_filter {test : H.Test} {holds : Value → Bool}
    (htape : w.tape u = ⟨#[], .idle (.filtered test (.pending s))⟩)
    (htest : ∀ v ∈ w.outlook s produced, B.Judges test v (.ok (holds v))) (pull : Pull) :
    pull.Settles (.ofBehavior B (depth + 1)) d u ((w.outlook s produced).filter holds) 0 w := by
  have hphase : (w.tape u).phase = .idle (.filtered test (.pending s)) := by rw [htape]
  have hempty : (w.tape u).log.size = 0 := by rw [htape]; rfl
  have hbehind (_ : pull = .sequence) := h.cache_size_eq hempty
  obtain ⟨hsupplies, hcell⟩ := h.within_call hB hS hphase hbehind
    (.refl (E := .ofBehavior B depth) (pull.calling w d u))
  have hfollows := Iteration.Follows.opened hsupplies
  rw [Pull.sequence_calling h.sequences] at hfollows
  have hlong : (w.outlook s produced).length + 2 < depth + 1 := by
    rw [(h.base.supplies h.stocks).length_outlook]
    omega
  -- a filter that is yet to be opened is called like one whose iteration is opened now
  have hopens := (hS.views_filtering htest).shows_of_pull hB hS h.tapes hlong h.ordered h.derived
    hphase (fun k y hy => Provision.view_logged (by rw [htape]; rfl)
      List.nil_prefix hy) hbehind
    (q := .filtered test (.opened ((pull.calling w d u).iteration s))) rfl hcell
    hsupplies.toStocks (by rw [hempty]; exact ⟨_, 0, rfl, hfollows, Nat.zero_le _, rfl⟩)
    (.inl trivial)
  rwa [hempty] at hopens

/-- So does the first call of a slice without a stop, which forces the whole sequence. -/
theorem settles_slice {start step : Int}
    (htape : w.tape u = ⟨#[], .idle (.strided start step (.pending s))⟩) (hlimit : w.limit = none)
    (pull : Pull) :
    pull.Settles (.ofBehavior B (depth + 1)) d u
      (stride (w.outlook s produced).toArray start step) 0 w := by
  have hphase : (w.tape u).phase = .idle (.strided start step (.pending s)) := by rw [htape]
  have hempty : (w.tape u).log.size = 0 := by rw [htape]; rfl
  have hbehind (_ : pull = .sequence) := h.cache_size_eq hempty
  obtain ⟨hsupplies, -⟩ := h.within_call hB hS hphase hbehind
    (.refl (E := .ofBehavior B depth) (pull.calling w d u))
  have hfuel : (w.outlook s produced).length < (Engine.ofBehavior B depth).fuel := by
    rw [(h.base.supplies h.stocks).length_outlook]
    obtain ⟨depth, rfl⟩ := Nat.exists_eq_add_of_le' (by omega : 1 ≤ depth)
    change produced.length < depth
    omega
  -- the call forces all of the sequence, and takes its stride over that
  obtain ⟨v, hrun, -⟩ := (Provision.Supplies.unfolds_resumed hS (by omega : 2 ≤ depth)
    (w.outlook s produced) (pull.calling w d u)).run_materialize
    ((pull.limit_calling w d u).trans hlimit) hfuel
    ⟨hsupplies, by rw [Pull.sequence_calling h.sequences]; rfl, .refl _⟩
  obtain ⟨hsupplies', hcell⟩ := h.within_call hB hS hphase hbehind (s.materialize_moves _ hrun)
  have hopens := (Behavior.views_striding (produced[·]?) start step
      (stride (w.outlook s produced).toArray start step)).shows_of_pull hB hS h.tapes
    (Nat.succ_pos depth) h.ordered h.derived hphase
    (fun k y hy => Provision.view_logged (by rw [htape]; rfl)
      List.nil_prefix hy) hbehind
    (q := .strided start step (.opened (stride (w.outlook s produced).toArray start step)))
    (Act.run_bind_of_eq hrun) hcell hsupplies'.toStocks (by rw [hempty]; rfl) (.inl trivial)
  rwa [hempty] at hopens

/-- The right part of a concatenation is settled by the call on which the left part comes
    to its end. -/
theorem settles_joined {left i : Iteration} {v : World H} {before : List Value} {pull : Pull}
    (hphase : (w.tape u).phase = .idle (.joined (some left) (.pending s)))
    (hlog : (w.tape u).log.toList = before.map .ok)
    (hbehind : pull = .sequence → (w.sequence d).cache.size = before.length)
    (hended : (left.next (.ofBehavior B depth)).run (pull.calling w d u) = .ok ((none, i), v)) :
    pull.Settles (.ofBehavior B (depth + 1)) d u (before ++ v.outlook s produced) before.length
      w := by
  have hsize : (w.tape u).log.size = before.length := by
    rw [← Array.length_toList, hlog, List.length_map]
  rw [← hsize] at hbehind
  obtain ⟨hsupplies, hcell⟩ := h.within_call hB hS hphase hbehind (left.next_moves _ hended)
  have hfollows := Iteration.Follows.opened hsupplies
  have hopens := (hS.views_joinedRight before).shows_of_pull hB hS h.tapes
    (by omega : 2 < depth + 1) h.ordered h.derived hphase
    (fun k y hy => Provision.view_logged hlog (List.prefix_append _ _) hy) hbehind
    (q := .joined none (.opened (v.iteration s))) (Act.run_bind_of_eq hended) hcell
    hsupplies.toStocks
    (by rw [hsize]; exact ⟨Nat.le_refl _, _, rfl, by rwa [Nat.sub_self]⟩) (.inl trivial)
  rwa [hsize] at hopens

/-- Once all values of a left part have been given, it comes to its end on the next call. -/
theorem settles_behind {other : List Value} {stage' : Nat → Producer H → Prop}
    (hS' : B.Streams (other[·]?) stage') {q : Tape} (hne : u ≠ q)
    (hleft : (Provision.view (other[·]?) stage' q (resumed found other) False
      (Producer.JoinedLeft q found (.pending s) (resumed found other).length)).Stocks u w)
    (hgiven : (w.tape u).log.size = (resumed found other).length)
    (hgoing : (w.tape u).hasEnded = false) {pull : Pull}
    (hbehind : pull = .sequence → (w.sequence d).cache.size = (w.tape u).log.size) :
    pull.Settles (.ofBehavior B (depth + 1)) d u (resumed found other ++ w.outlook s produced)
      (resumed found other).length w := by
  have hfits := hleft.phase
  cases hphase : (w.tape u).phase with
  | running => simp only [hphase] at hfits
  | ended => simp [TapeState.hasEnded, hphase] at hgoing
  | idle p =>
    simp only [hphase] at hfits
    obtain ⟨left, rfl, hfollows⟩ := hfits (Nat.le_of_eq hgiven)
    have hsame : (pull.calling w d u).tape q = w.tape q := pull.tape_calling hne d
    obtain ⟨⟨x, i⟩, v, hrun, hx, -, -, hspares⟩ :=
      ((hfollows.of_goes (hsame ▸ .refl _)).due_manages hS'
        (Pull.stocks_calling hleft.relies hne d pull)).run (by omega : ¬ depth < 2)
    rw [hgiven, List.getElem?_eq_none (Nat.le_refl _)] at hx
    obtain rfl : x = none := hx
    -- asking the left part once more has left the sequence itself as it was
    have hlt : s.id < (pull.calling w d u).sequences.size := by
      rw [Pull.sequences_size_calling]
      exact h.base.sequence_lt
    have hcell : v.sequence s = w.sequence s :=
      (hspares.sequences s trivial hlt).trans (Pull.sequence_calling h.sequences u pull)
    have hopens := h.settles_joined hB hS hdepth hphase (hleft.view_log hgiven)
      (fun hpull => (hbehind hpull).trans hgiven) hrun
    rwa [World.outlook, hcell] at hopens

omit hB hS h hdepth in
/-- The tape of a concatenation that has just been made is a view of its left part. -/
theorem stocks_joined {right : Deferred Sequence Iteration} {infinite : Bool}
    (hmade : (w.withSequence (.joined (some (w.iteration s)) right) infinite).Layered
      produced stage s t w.freshSequence w.freshTape)
    (hsupplies : (Provision.streamed (produced[·]?) stage).Supplies s t w) :
    (Provision.view (produced[·]?) stage t (w.outlook s produced) False
        (Producer.JoinedLeft t (w.sequence s).cache.toList right
          (w.outlook s produced).length)).Stocks w.freshTape
      (w.withSequence (.joined (some (w.iteration s)) right) infinite) := by
  have hother := tape_withTape_of_lt (.joined (some (w.iteration s)) right) hsupplies.tape_lt
  refine ⟨hmade.derived.tape_lt, hmade.derived.sound, hmade.stocks, ?_, ?_⟩
  · intro k y hy
    simp at hy
  · simp only [tape_withSequence, tape_withTape_freshTape]
    refine fun _ => ⟨w.iteration s, rfl, (Iteration.Follows.opened hsupplies).of_goes ?_⟩
    rw [tape_withSequence, hother]
    exact .refl _

omit h in
/-- The left part of a concatenation is settled when the concatenation is made. -/
theorem shows_joined {right : Deferred Sequence Iteration} {infinite : Bool}
    (hmade : (w.withSequence (.joined (some (w.iteration s)) right) infinite).Layered
      produced stage s t w.freshSequence w.freshTape)
    (hsupplies : (Provision.streamed (produced[·]?) stage).Supplies s t w) :
    w.freshSequence.Shows (.ofBehavior B (depth + 1)) (w.outlook s produced) False
      (w.withSequence (.joined (some (w.iteration s)) right) infinite) :=
  (hS.views_joinedLeft right).shows hB hS hmade.tapes (by omega : 2 < depth + 1) hmade.ordered
    hmade.derived (stocks_joined hmade hsupplies)

end World.Layered

/-! ### Which overwrites a derived sequence sees -/

/-- A sequence is made over a producer of finitely many numbers and texts, and others are
    made of it, with anything being done before and in between.

    - A filter shows what passes of what the sequence looks like at the first call.
    - A concatenation begins with what its left part looks like when it is made.
    - It goes on with what its right part looks like at the call on which the left part
      comes to its end.  If the left part is such a sequence too, that is the call after its
      values have been given.
    - A slice without a stop shows what it takes of what the sequence looks like at the
      first call, if no limit is in force then.

    In each case what the sequence looks like is what it has cached then, overwritten or not,
    and the produced values from that depth on; whatever is put into it later is not seen. -/
theorem Sequence.shown_by_derived (hB : B.Lawful) (hS : B.Streams (produced[·]?) stage)
    {p : Producer H} (hp : stage 0 p) {w₀ w₁ w₂ : World H} (hreached : Moment.Reached ⟨w₀, []⟩)
    {infinite : Bool} (hmade : (adopt p infinite).run w₀ = .ok (s, w₁))
    (hdepth : produced.length + 2 ≤ depth)
    (hbefore : (Engine.ofBehavior B (depth + 1)).Moves w₁ w₂) :
    (∀ (test : H.Test) (holds : Value → Bool) (d : Sequence) (w₃ w : World H) (pull : Pull),
      (s.filter test).run w₂ = .ok (d, w₃) → (Engine.ofBehavior B (depth + 1)).Moves w₃ w →
      w.tape w₂.freshTape = w₃.tape w₂.freshTape →
      (∀ v ∈ w.outlook s produced, B.Judges test v (.ok (holds v))) →
      pull.Settles (.ofBehavior B (depth + 1)) d w₂.freshTape
        ((w.outlook s produced).filter holds) 0 w) ∧
    (∀ (r d : Sequence) (w₃ : World H), (s.append r).run w₂ = .ok (d, w₃) →
      d.Shows (.ofBehavior B (depth + 1)) (w₂.outlook s produced) False w₃) ∧
    (∀ (r d : Sequence) (w₃ w v : World H) (left i : Iteration) (before : List Value) (pull : Pull),
      (r.append s).run w₂ = .ok (d, w₃) → (Engine.ofBehavior B (depth + 1)).Moves w₃ w →
      (w.tape w₂.freshTape).phase = .idle (.joined (some left) (.pending s)) →
      (w.tape w₂.freshTape).log.toList = before.map .ok →
      (pull = .sequence → (w.sequence d).cache.size = before.length) →
      (left.next (.ofBehavior B depth)).run (pull.calling w d w₂.freshTape) =
        .ok ((none, i), v) →
      pull.Settles (.ofBehavior B (depth + 1)) d w₂.freshTape (before ++ v.outlook s produced)
        before.length w) ∧
    (∀ (other : List Value) (stage' : Nat → Producer H → Prop) (p' : Producer H)
      (v₀ v₁ w₃ w : World H) (infinite' : Bool) (r d : Sequence) (pull : Pull),
      B.Streams (other[·]?) stage' → stage' 0 p' → Moment.Reached ⟨v₀, []⟩ →
      (adopt p' infinite').run v₀ = .ok (r, v₁) →
      (Engine.ofBehavior B (depth + 1)).Moves v₁ w₂ →
      (r.append s).run w₂ = .ok (d, w₃) → (Engine.ofBehavior B (depth + 1)).Moves w₃ w →
      (w.tape w₂.freshTape).log.size = (w₂.outlook r other).length →
      (w.tape w₂.freshTape).hasEnded = false →
      (pull = .sequence → (w.sequence d).cache.size = (w.tape w₂.freshTape).log.size) →
      pull.Settles (.ofBehavior B (depth + 1)) d w₂.freshTape
        (w₂.outlook r other ++ w.outlook s produced) (w₂.outlook r other).length w) ∧
    (∀ (start step : Option Int) (d : Sequence) (w₃ w : World H) (pull : Pull),
      (s.slice (.ofBehavior B (depth + 1)) start none step).run.run w₂ = .ok (.ok (.lazy d), w₃) →
      (Engine.ofBehavior B (depth + 1)).Moves w₃ w →
      w.tape w₂.freshTape = w₃.tape w₂.freshTape → w.limit = none →
      pull.Settles (.ofBehavior B (depth + 1)) d w₂.freshTape
        (stride (w.outlook s produced).toArray (start.getD 0) (Plain.stepOf step)) 0 w) := by
  have hsupplies := supplies_of_made hB hS hp hreached hmade hbefore
  have layered (q : Producer H) (infinite' : Bool) :=
    World.Layered.of_made hB hS hp hreached hmade hbefore q infinite'
  refine ⟨fun test holds d w₃ w pull hfilter hlater hsame htest => ?_, fun r d w₃ happend => ?_,
    fun r d w₃ w v left i before pull happend hlater hphase hlog hbehind hended => ?_,
    fun other stage' p' v₀ v₁ w₃ w infinite' r d pull hS' hp' hreached' hmade' hbefore' happend
      hlater hgiven hgoing hbehind => ?_,
    fun start step d w₃ w pull hslice hlater hsame hlimit => ?_⟩
  · cases hfilter
    exact ((layered _ _).moves hB hS hlater).settles_filter hB hS hdepth
      (hsame.trans (World.tape_withTape_freshTape _)) htest pull
  · cases happend
    exact World.Layered.shows_joined hB hS hdepth (layered _ _) hsupplies
  · cases happend
    exact ((layered _ _).moves hB hS hlater).settles_joined hB hS hdepth hphase hlog hbehind hended
  · cases happend
    have hlayered := World.Layered.of_made hB hS' hp' hreached' hmade' hbefore'
      (.joined (some (w₂.iteration r)) (.pending s))
      ((w₂.sequence r).infinite || (w₂.sequence s).infinite)
    -- the left part has come to its end, so the right one is opened at this call
    have hleft := World.Layered.stocks_joined hlayered
      (supplies_of_made hB hS' hp' hreached' hmade' hbefore')
    have hne : v₀.freshTape ≠ w₂.freshTape := fun heq =>
      Nat.ne_of_lt hlayered.tapes (congrArg Tape.id heq)
    exact ((layered _ _).moves hB hS hlater).settles_behind hB hS hdepth hS' hne.symm
      (Engine.moves_views (hS'.views_joinedLeft _) hB hS' hne hlater hleft).1 hgiven hgoing hbehind
  · rw [slice_eq] at hslice
    cases hslice
    exact ((layered _ _).moves hB hS hlater).settles_slice hB hS hdepth
      (hsame.trans (World.tape_withTape_freshTape _)) hlimit pull

namespace Session

def putting (position n : Int) (w : World host) : World host :=
  after (Sequence.overwrite (.ofBehavior behavior 6) ⟨0⟩ position (.int n)).run w

/-- The first of three numbers has been overwritten before anything is made of them; there
    are another sequence with a text, and a filter of it that lets nothing pass. -/
def eightTwoThree : World host :=
  putting 0 8 ((overThree.withSequence (.values [.str "a"]) false).withSequence
    (.filtered .even (.pending ⟨1⟩)) false)

def passesEven : Value → Bool
  | .int n => n % 2 == 0
  | _ => false

/-- The second number is overwritten when the derived sequence has been made, and in the
    fourth case when it has shown what its left part holds. -/
theorem shown_by_derived_eightTwoThree :
    (∀ pull : Pull, pull.Settles (.ofBehavior behavior 6) ⟨3⟩ ⟨3⟩ [.int 8, .int 6] 0
      (putting 1 6 (eightTwoThree.withSequence (.filtered .even (.pending ⟨0⟩)) false))) ∧
    Sequence.Shows (.ofBehavior behavior 6) ⟨3⟩ [.int 8, .int 2, .int 3] False
      (eightTwoThree.withSequence
        (.joined (some (eightTwoThree.iteration ⟨0⟩)) (.pending ⟨1⟩)) false) ∧
    Pull.sequence.Settles (.ofBehavior behavior 6) ⟨3⟩ ⟨3⟩ [.int 8, .int 6, .int 3] 0
      (putting 1 6 (eightTwoThree.withSequence
        (.joined (some (eightTwoThree.iteration ⟨2⟩)) (.pending ⟨0⟩)) false)) ∧
    (∀ pull : Pull, pull.Settles (.ofBehavior behavior 6) ⟨3⟩ ⟨3⟩
      [.str "a", .int 8, .int 6, .int 3] 1
      (putting 1 6 (after (Sequence.advance (.ofBehavior behavior 6) ⟨3⟩).run
        (eightTwoThree.withSequence
          (.joined (some (eightTwoThree.iteration ⟨1⟩)) (.pending ⟨0⟩)) false)))) ∧
    (∀ pull : Pull, pull.Settles (.ofBehavior behavior 6) ⟨3⟩ ⟨3⟩ [.int 6, .int 3] 0
      (putting 1 6 (eightTwoThree.withSequence (.strided 1 1 (.pending ⟨0⟩)) false))) := by
  have hscalar : ∀ v ∈ [Value.int 1, .int 2, .int 3], v.asList? = none := by decide
  have htext : ∀ v ∈ [Value.str "a"], v.asList? = none := by decide
  have hput (position n : Int) (w : World host) :
      (Engine.ofBehavior behavior 6).Moves w (putting position n w) :=
    after_moves (Sequence.overwrite_moves _ ⟨0⟩ position (.int n)) w
  have hadopt (p : Producer host) (w : World host) :
      (Engine.ofBehavior behavior 6).Moves w (w.withSequence p false) := .adopt p false rfl
  have hbefore : (Engine.ofBehavior behavior 6).Moves
      (overThree.withSequence (.values [.str "a"]) false) eightTwoThree :=
    .trans (hadopt _ _) (hput 0 8 _)
  have hreached : Moment.Reached ⟨overThree, []⟩ := ⟨default, .tail .refl (.adopt start [] _ false)⟩
  have hmade : (Sequence.adopt (.values [.int 1, .int 2, .int 3]) false).run start =
      .ok (⟨0⟩, overThree) := rfl
  obtain ⟨hfilter, hleft, hright, hbehind, hslice⟩ := Sequence.shown_by_derived behavior_lawful
    (.values hscalar) rfl ⟨default, .refl _⟩ hmade (by decide : 3 + 2 ≤ 5)
    (.trans (hadopt _ _) hbefore)
  refine ⟨fun pull => ?_, hleft ⟨1⟩ ⟨3⟩ _ rfl, ?_, fun pull => ?_, fun pull => ?_⟩
  · exact hfilter .even passesEven ⟨3⟩ _ _ pull rfl (hput 1 6 _) rfl
      fun v _ _ w => ⟨w.host, by cases v <;> rfl⟩
  · exact hright ⟨2⟩ ⟨3⟩ _ _ _ _ _ [] .sequence rfl (hput 1 6 _) rfl rfl (fun _ => rfl) rfl
  · exact hbehind [.str "a"] _ _ overThree _ _ _ false ⟨1⟩ ⟨3⟩ pull (.values htext) rfl hreached
      rfl hbefore rfl (.trans (after_moves (Sequence.advance_moves _ ⟨3⟩) _) (hput 1 6 _)) rfl rfl
      fun _ => rfl
  · exact hslice (some 1) none ⟨3⟩ _ _ pull rfl (hput 1 6 _) rfl rfl

end Session

end MemoSeq
