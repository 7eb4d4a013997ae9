/-
  MemoSeq/Proofs/Limit/Replies.lean
  ==================================
  **What the orders of a session are replied.**

  To a question there is the answer that the ledger has, unless a limit interferes or the
  question is one that the ledger cannot answer (`Question.answers`).  With that every order
  but those that overwrite goes on following the plan (`Order.keeps`).
-/
import MemoSeq.Proofs.Limit.Session

namespace MemoSeq

variable {H : Host} {B : Behavior H} {π : Plan} {w w' : World H} {depth : Nat}

theorem Value.StandsFor.shown_eq {v b : Value} (h : v.StandsFor π w b) : v.shown = b.shown := by
  cases h with
  | scalar => rfl
  | list => rfl

theorem Value.StandsFor.map_shown {values shown : List Value}
    (h : List.Forall₂ (Value.StandsFor π w) values shown) :
    values.map Value.shown = shown.map Value.shown := by
  induction h with
  | nil => rfl
  | cons hv _ ih => rw [List.map_cons, List.map_cons, hv.shown_eq, ih]

/-- A number or a text flattens to itself. -/
theorem Plan.shaky_of_scalar {b : Value} (hb : b.asList? = none) (h : π.Shaky b) : π.limited := by
  refine h.resolve_right fun ⟨k, hk, _⟩ => ?_
  cases hk with
  | here | item => cases hb

namespace Limited

open Pipeline (exhaust)

variable {P : Ledger} {z : Extent} {T : Register}

/-! ### Questions -/

section Questions

variable (h : Tallies B π P z w T) {doubt deep : Prop}
include h

/-- An operand stands for what the ledger has in its place. -/
theorem Operand.answers_within (x : Operand H)
    (hthere : ∀ a ∈ x.names, doubt ∨ ∃ s, T.lists.things a = some s)
    {f : Value → Attempt H Response} {g : Value → Option Response}
    (hf : ∀ v b, v.StandsFor π w b → x.plain P.names = some b →
      w.Answers B π doubt deep (f v) (g b)) :
    w.Answers B π doubt deep (x.within T.lists f) (x.answer P.names g) := by
  cases x with
  | datum x => exact hf x.value x.value (.scalar _ x.scalar) rfl
  | named a =>
    rw [Operand.within, Operand.answer, Operand.value, Operand.plain]
    have ha := h.named a
    have hthere := hthere a (List.mem_singleton_self a)
    simp only [Operand.plain] at hf
    generalize T.lists.things a = s?, P.names.things a = k? at ha hthere hf
    cases ha with
    | listed s k hs => exact hf _ _ (.list s k hs) rfl
    | missing k? _ =>
      -- without the operand the question is refused, whatever the answer would be
      have hdoubt : doubt := hthere.resolve_right (by rintro ⟨s, ⟨⟩⟩)
      exact .comes .refused w rfl (.refl h.sound.holds) (.inl hdoubt)

variable (hdepth : z.enough ≤ depth) {a k : Nat} {s : Sequence}
variable (hs : w.Places π k s)
include hdepth hs

theorem Question.answers_walk (hdoubt : π.limited ∨ π.frail k → doubt) :
    w.Answers B π doubt deep (Question.walk.perform (.ofBehavior B depth) T.lists s)
      ((Question.walk (H := H)).answer (Engine.ofBehavior B depth).fuel P k) := by
  have hproper := h.sound.proper
  have hwide := h.enough hdepth
  have hiteration : (w.iteration s).Prospect π w π.next (π.late k) (π.face k) :=
    h.sound.holds.iteration hs (hs.lt_next hproper) (Set.notMem_empty k) (·)
  obtain ⟨items, i, w', hrun, hproceeds, -, hitems⟩ :=
    hiteration.exhaust hproper hwide h.sound.holds (Plan.lt_fuel hwide (hproper.face k))
  have hwalked : (walked (.ofBehavior B depth) s).run.run w = .ok (.ok items, w') := by
    refine (Attempt.run_bind_of_ok (a := get) rfl).trans ?_
    exact Attempt.run_bind_of_ok (Attempt.run_lift_eq_ok.mpr ⟨(items, i), hrun, rfl⟩)
  rw [perform]
  refine .run_bind hwalked hproceeds (.pure hproceeds.holds ?_)
  -- an iteration that comes upon the failure leaves the answer in doubt
  cases hitems with
  | struck _ hf => exact .inl (hdoubt (.inr hf))
  | all items hitems =>
    refine .inr ?_
    rw [Question.answer, h.face_eq, List.map_map]
    have hshown : items.map (fun v => (.ok v.shown : Item)) =
        (π.face k).map fun v => .ok v.shown := by
      simpa only [List.map_map, Function.comp_def] using
        congrArg (List.map Except.ok) (Value.StandsFor.map_shown hitems)
    exact congrArg (some ∘ Response.items) hshown.symm

/-- What leaves the answer to a question in doubt. -/
structure Question.Doubted (π : Plan) (P : Ledger) (T : Register) (k : Nat) (q : Question H)
    (doubt : Prop) : Prop where
  force : π.limited ∨ π.frail k → doubt
  deep : q.deep = true → π.Shaky (.list ⟨k⟩) → doubt
  there : ∀ x, q.operand? = some x → ∀ a ∈ x.names, doubt ∨ ∃ s, T.lists.things a = some s
  target : ∀ x b, q.operand? = some x → x.plain P.names = some b → q.deep = true →
    π.Shaky b → doubt
  fair : ∀ x b, q = .contains x → x.plain P.names = some b → π.infinite k = true →
    doubt ∨ π.Climbs k b

omit h hdepth hs in
theorem Question.doubted (h : Tallies B π P z w T) (hk : P.names.things a = some k)
    (q : Question H) :
    q.Doubted π P T k
      (¬((Order.ask a q : Order B).Safe π P T ∧ (Order.ask a q : Order B).Fair P)) := by
  have hself : a ∈ (Order.ask a q : Order B).names := List.mem_cons_self
  refine ⟨fun hcause hsure => hsure.1.no_cause hself hk hcause,
    fun hdeep hshaky hsure => hsure.1.deep hdeep a hself k hk hshaky, fun x hx b hb => ?_,
    fun x b hx hb hdeep hshaky hsure => ?_, fun x b hx hb hinfinite => ?_⟩
  · -- the order is about its operand as well
    rw [or_iff_not_imp_left, not_not]
    exact fun hsure => hsure.1.there b (List.mem_cons_of_mem a (by simpa [hx] using hb))
  · cases x with
    | datum x =>
      cases hb
      exact hsure.1.calm (Plan.shaky_of_scalar x.scalar hshaky)
    | named c =>
      obtain ⟨l, hl, rfl⟩ := Option.map_eq_some_iff.mp hb
      exact hsure.1.deep hdeep c (List.mem_cons_of_mem a (by simp [hx, Operand.names])) l hl hshaky
  · rw [or_iff_not_imp_left, not_not]
    subst hx
    intro hsure
    have hclimbs := hsure.2 k b hk hb
    rw [← h.outline] at hclimbs
    exact hclimbs hinfinite

omit h hdepth hs in
/-- Only an operand that is named is a list. -/
theorem Operand.names_of_asList? {x : Operand H} {b : Value} (hb : x.plain P.names = some b)
    (hlist : b.asList? ≠ none) : (x.names != []) = true := by
  cases x with
  | named c => rfl
  | datum x =>
    cases hb
    exact (hlist x.scalar).elim

omit h hdepth hs in
theorem Question.Doubted.doubtful {q : Question H} (hq : q.Doubted π P T k doubt) {x : Operand H}
    (hx : q.operand? = some x) (hdeep : q.deep = (x.names != [])) {b : Value}
    (hb : x.plain P.names = some b) : π.Doubtful k b → doubt := by
  rintro (hcause | ⟨hlist, hshaky⟩)
  · exact hq.force hcause
  · have hdeep' := hdeep.trans (Operand.names_of_asList? hb hlist)
    exact hshaky.elim (hq.deep hdeep') (hq.target x b hx hb hdeep')

/-- A question gets the answer that the ledger has, if no limit interferes and the ledger has
    one. -/
theorem Question.answers {q : Question H} (hq : q.Doubted π P T k doubt) :
    w.Answers B π doubt (q.deep = true) (q.perform (.ofBehavior B depth) T.lists s)
      (q.answer (Engine.ofBehavior B depth).fuel P k) := by
  have hproper := h.sound.proper
  have hwide := h.enough hdepth
  have hw := h.sound.holds
  have hflat := Value.answers_flatten hproper hwide hw (.list s k hs)
  rw [h.outline] at hflat
  -- most questions force what they are about; the others flatten it, or compare values in it
  cases q with
  | advance =>
    exact .of_brings (Sequence.brings_advance_of_proper hproper hwide hw hs)
      (hq.force ∘ Or.inr) fun _ _ hproceeds _ => .pure hproceeds.holds _
  | read index =>
    refine .of_brings (Sequence.brings_read hproper hwide hw hs index) hq.force
      fun v w' hproceeds hv => ?_
    rw [answer, h.face_eq, ← hv.shown_eq]
    exact .pure hproceeds.holds _
  | slice start stop step =>
    refine .of_brings (Sequence.brings_slice hproper hwide hw hs start stop step) hq.force
      fun slice w' hproceeds hslice => ?_
    obtain ⟨items, rfl, hitems⟩ := hslice
    rw [answer, h.face_eq, ← Value.StandsFor.map_shown hitems]
    exact .pure hproceeds.holds _
  | length =>
    refine .of_brings (Sequence.brings_length hproper hwide hw hs) hq.force
      fun count w' hproceeds hcount => ?_
    rw [answer, h.face_eq, ← hcount.1]
    exact .pure hproceeds.holds _
  | materialize =>
    refine .of_brings (Sequence.brings_materialize_of_proper hproper hwide hw hs) hq.force
      fun all w' hproceeds hall => ?_
    rw [answer, h.face_eq, ← Value.StandsFor.map_shown hall.2]
    exact .pure hproceeds.holds _
  | walk => exact answers_walk h hdepth hs hq.force
  | count x =>
    refine x.answers_within h (hq.there x rfl) fun v b hv hb => ?_
    have hcount := Sequence.answers_count hproper hwide hw hs hv
    rw [← h.face_eq, h.outline] at hcount
    exact (hcount.imp (hq.doubtful rfl rfl hb) (Operand.names_of_asList? hb)).map
  | contains x =>
    refine x.answers_within h (hq.there x rfl) fun v b hv hb => ?_
    by_cases hfair : π.infinite k = true → π.Climbs k b
    · have hcontains := Sequence.answers_contains hproper hwide hw hs hv hfair
      rw [← h.face_eq, h.outline] at hcontains
      exact (hcontains.imp (hq.doubtful rfl rfl hb) (Operand.names_of_asList? hb)).map
    · -- a list that does not keep its word is searched all the same
      obtain ⟨hinfinite, hclimbs⟩ := Classical.not_imp.mp hfair
      have hdoubt := (hq.fair x b rfl hb hinfinite).resolve_right hclimbs
      have hcontains := Sequence.brings_contains hproper hwide hw hs hv hinfinite
      exact (hcontains.imp (fun _ => hdoubt)
        (fun hlist => ⟨Operand.names_of_asList? hb hlist, .inl hdoubt⟩)
        fun _ _ _ => hdoubt).told fun _ _ => Or.inl
  | equals x =>
    refine x.answers_within h (hq.there x rfl) fun v b hv hb => ?_
    have hequals := Sequence.answers_equals hproper hwide hw hs hv
    rw [h.outline] at hequals
    exact (hequals.imp (Or.rec (hq.deep rfl) (hq.target x b rfl hb rfl)) fun _ => rfl).map
  | same x =>
    refine x.answers_within h (hq.there x rfl) fun v b hv hb => ?_
    have hsame := Value.answers_same hproper hwide hw (.list s k hs) hv
    rw [h.outline] at hsame
    refine (hsame.imp ?_ (Operand.names_of_asList? hb)).map
    exact fun hdoubt => hq.doubtful rfl rfl hb (.inr hdoubt)
  | flatten =>
    exact (hflat.imp (hq.deep rfl) fun _ => rfl).map
  | json =>
    exact (hflat.imp (hq.deep rfl) fun _ => rfl).map
  | host type =>
    exact (hflat.imp (hq.deep rfl) fun _ => rfl).map

end Questions

/-! ### Orders -/

/-- Nothing is made or let go of by the order. -/
theorem Order.keeps_ask (h : Tallies B π P z w T) (hdepth : z.enough ≤ depth) (a : Nat)
    (q : Question H) : (Order.ask a q).Keeps B depth π P z w T := by
  cases ha : T.lists.things a with
  | none =>
    refine .goes (.ok .refused) T w π ?_ h (.refl π) fun _ hsafe _ => ?_
    · rw [Order.perform, ha]
      rfl
    · obtain ⟨s, hs⟩ := hsafe.there a List.mem_cons_self
      cases ha.symm.trans hs
  | some s =>
    obtain ⟨k, hk, hs⟩ := h.placed ha
    have hperform : (Order.ask a q : Order B).perform (.ofBehavior B depth) T =
        (do return (← (q.perform (.ofBehavior B depth) T.lists s).outcome, T)) := by
      rw [Order.perform, ha]
    have hreply : (Order.ask a q : Order B).reply? (Engine.ofBehavior B depth).fuel P =
        (q.answer (Engine.ofBehavior B depth).fuel P k).map .ok := by
      rw [Order.reply?, hk, Option.map_eq_bind]
      rfl
    -- what is in doubt need not be answered as the ledger has it
    cases Question.answers h hdepth hs (q.doubted h hk) with
    | comes y w' hrun hproceeds hy =>
      refine .goes (.ok y) T w' π ?_ (h.proceeds hproceeds) (.refl π) fun _ hsafe hfair => ?_
      · rw [hperform]
        exact Act.run_bind_of_eq hrun
      · rw [hreply, hy.resolve_left (not_not_intro ⟨hsafe, hfair⟩)]
        rfl
    | fails e w' hrun hproceeds hdoubt he =>
      refine .goes (.error e) T w' π ?_ (h.proceeds hproceeds) (.refl π)
        fun _ hsafe hfair => (hdoubt ⟨hsafe, hfair⟩).elim
      rw [hperform]
      exact Act.run_bind_of_eq hrun
    | starves hrun hstuck =>
      refine .starves ?_ hstuck.1 fun hsafe hfair => ?_
      · rw [hperform]
        exact Act.run_bind_of_halt hrun
      · rw [hreply, hstuck.2.resolve_left (not_not_intro ⟨hsafe, hfair⟩)]
        rfl

theorem Order.keeps_drop (h : Tallies B π P z w T) (a : Nat) :
    (Order.drop a : Order B).Keeps B depth π P z w T :=
  .goes (.ok .done) _ w π rfl (h.put a) (.refl π) fun _ _ _ => rfl

theorem Order.keeps_iterate (h : Tallies B π P z w T) (a : Nat) :
    (Order.iterate a : Order B).Keeps B depth π P z w T := by
  refine .goes (.ok (.made T.iterations.fresh)) _ w π rfl (h.setIterations fun k i hi => ?_)
    (.refl π) fun hlisted => nomatch hlisted
  rw [things_enter] at hi
  split at hi
  · obtain ⟨s, hs, rfl⟩ := Option.map_eq_some_iff.mp hi
    obtain ⟨k, -, hplace⟩ := h.placed hs
    exact .inr ⟨π.face k, h.sound.holds.iteration hplace (hplace.lt_next h.sound.proper)
      (Set.notMem_empty k) fun _ => trivial, h.sound.proper.face k⟩
  · exact .inl hi

/-- An iteration that is driven goes on with what is left. -/
theorem Drive.goes_on (hproper : π.Proper) (hdepth : π.enough ≤ depth) (hw : w.Holds B π ∅ ∅)
    {i : Iteration} {values : List Value} (hi : i.Prospect π w π.next True values)
    (hfits : values.length ≤ π.bound) (d : Drive) :
    ∃ reply i' w' left, (d.perform (.ofBehavior B depth) i).run w = .ok ((reply, i'), w') ∧
      w.Proceeds B π ∅ ∅ w' ∧ i'.Prospect π w' π.next True left ∧ left.length ≤ π.bound := by
  cases d with
  | next =>
    obtain ⟨x, i', w', left, hrun, hproceeds, hcomes, hi'⟩ := hi.next_of_proper hproper hdepth hw
    refine ⟨_, i', w', left, Act.run_bind_of_eq hrun, hproceeds,
      hi'.mono (Nat.le_refl _) (.refl _ _ _) (.refl w') fun _ => trivial, ?_⟩
    cases hcomes with
    | ended | struck => exact Nat.zero_le _
    | due => exact Nat.le_of_succ_le hfits
  | collect =>
    obtain ⟨items, i', w', hrun, hproceeds, hi', -⟩ :=
      hi.exhaust hproper hdepth hw (Plan.lt_fuel hdepth hfits)
    exact ⟨_, i', w', [], Act.run_bind_of_eq hrun, hproceeds, hi', Nat.zero_le _⟩

theorem Order.keeps_drive (h : Tallies B π P z w T) (hdepth : z.enough ≤ depth) (k : Nat)
    (d : Drive) : (Order.drive k d : Order B).Keeps B depth π P z w T := by
  cases hk : T.iterations.things k with
  | none =>
    refine .goes (.ok .refused) T w π ?_ h (.refl π) fun hlisted => nomatch hlisted
    rw [Order.perform, hk]
    rfl
  | some i =>
    obtain ⟨values, hi, hfits⟩ := h.iterations k i hk
    obtain ⟨reply, i', w', left, hrun, hproceeds, hi', hleft⟩ :=
      d.goes_on h.sound.proper (h.enough hdepth) h.sound.holds hi hfits
    refine .goes (.ok reply) { T with iterations := T.iterations.put k (some i') } w' π ?_
      ((h.proceeds hproceeds).setIterations fun j i'' hj => ?_) (.refl π)
      fun hlisted => nomatch hlisted
    · rw [Order.perform, hk]
      exact Act.run_bind_of_eq hrun
    · rw [things_put] at hj
      split at hj
      · cases hj
        exact .inr ⟨left, hi', hleft⟩
      · exact .inl hj

theorem Order.keeps_close (h : Tallies B π P z w T) (k : Nat) :
    (Order.close k : Order B).Keeps B depth π P z w T := by
  refine .goes (.ok .done) _ w π rfl (h.setIterations fun j i hi => ?_) (.refl π)
    fun hlisted => nomatch hlisted
  rw [things_put] at hi
  split at hi
  · cases hi
  · exact .inl hi

theorem Order.keeps_limit (h : Tallies B π P z w T) (hlimited : π.limited) (bound : Option Nat) :
    (Order.limit bound : Order B).Keeps B depth π P z w T :=
  .goes (.ok .done) T _ π rfl (h.setLimit hlimited bound) (.refl π) fun hlisted => nomatch hlisted

/-- Every order but those that overwrite goes on following the plan.  A limit can be set only if
    the plan allows for one. -/
theorem Order.keeps (h : Tallies B π P z w T) (hdepth : z.enough ≤ depth) (o : Order B)
    (hsets : o.sets = false) (hlimits : o.limits = true → π.limited) :
    o.Keeps B depth π P z w T := by
  cases o with
  | make r => exact keeps_make h hdepth r
  | ask a q => exact keeps_ask h hdepth a q
  | set => cases hsets
  | drop a => exact keeps_drop h a
  | iterate a => exact keeps_iterate h a
  | drive k d => exact keeps_drive h hdepth k d
  | close k => exact keeps_close h k
  | limit bound => exact keeps_limit h (hlimits rfl) bound

end Limited

end MemoSeq
