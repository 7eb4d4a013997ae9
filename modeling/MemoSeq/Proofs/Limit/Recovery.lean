/-
  MemoSeq/Proofs/Limit/Recovery.lean
  ===================================
  **A session recovers from a limit that is lifted.**

  A session in which limits are set after a while is compared with the same session without
  the limits (`Parted`).  The same ledger is kept for both, and so whatever is asked in the
  end, when the limit is lifted, is answered alike, provided that it is asked of lists that
  no limit has struck (`recovers_when_lifted`).
-/
import MemoSeq.Proofs.Limit.Striking
import MemoSeq.Session.Run

namespace MemoSeq

variable {H : Host} {B : Behavior H} {π π' : Plan} {w w' : World H} {depth : Nat}

/-! ### Lists that are found in others -/

/-- When the first list is flattened in this world, the second one is forced. -/
inductive World.Finds (E : Engine H) : World H → Sequence → Sequence → Prop
  | here (w : World H) (s : Sequence) : Finds E w s s
  | item (w w' : World H) (s t u : Sequence) (all : Array Value) :
      (s.materialize E).run.run w = .ok (.ok all, w') → .list t ∈ all.toList → Finds E w' t u →
      Finds E w s u

theorem Value.StandsFor.exists_mem {items shown : List Value}
    (h : List.Forall₂ (Value.StandsFor π w) items shown) {a : Value} (ha : a ∈ shown) :
    ∃ v ∈ items, v.StandsFor π w a := by
  induction h with
  | nil => cases ha
  | cons hv _ ih =>
    rcases List.mem_cons.mp ha with rfl | ha
    · exact ⟨_, List.mem_cons_self, hv⟩
    · obtain ⟨v, hmem, hv⟩ := ih ha
      exact ⟨v, List.mem_cons_of_mem _ hmem, hv⟩

/-- On the way to a list that could be struck, one is found. -/
theorem Outline.Reaches.finds (hproper : π.Proper) (hdepth : π.enough ≤ depth)
    (hcalm : ¬π.limited) {a : Value} {j : Nat} (h : π.toOutline.Reaches a j) (hf : π.frail j)
    (hw : w.Holds B π ∅ ∅) {k : Nat} {s : Sequence} (ha : a = .list ⟨k⟩) (hs : w.Places π k s) :
    ∃ l t u, w.Finds (.ofBehavior B depth) s t ∧ w.Later u ∧ u.Places π l t ∧ π.frail l := by
  induction h generalizing w k s with
  | here j =>
    cases ha
    exact ⟨j, s, w, .here w s, .refl w, hs, hf⟩
  | item k j b hb hreaches ih =>
    cases ha
    by_cases hstruck : π.frail k
    · exact ⟨k, s, w, .here w s, .refl w, hs, hstruck⟩
    · obtain ⟨all, u, hrun, hproceeds, -, hall⟩ := (Sequence.brings_materialize_of_proper hproper
        hdepth hw hs).run_of_calm (Or.rec hcalm hstruck) (·)
      obtain ⟨v, hmem, hv⟩ := Value.StandsFor.exists_mem hall hb
      obtain ⟨l, rfl⟩ : ∃ l, b = .list ⟨l⟩ := by
        cases hreaches with
        | here | item => exact ⟨_, rfl⟩
      cases hv with
      | scalar _ hscalar => cases hscalar
      | list t _ ht =>
        obtain ⟨m, t', u', hfinds, hlater, hplace, hm⟩ := ih hf hproceeds.holds rfl ht
        exact ⟨m, t', u', .item w u s t t' all hrun hmem hfinds,
          hproceeds.toLater.trans hlater, hplace, hm⟩

namespace Limited

variable {P : Ledger} {z : Extent} {T T' : Register}

/-! ### What orders are about -/

/-- Only slices without a stop and what is produced from them can have been struck. -/
def Register.Spares (T : Register) (w : World H) (s : Sequence) : Prop :=
  s ∈ T.strides → ¬w.Struck s.id

/-- What the order is about is there and has not been struck, nor has what is found in it, if
    lists within lists are looked into. -/
structure Order.Clear (E : Engine H) (T : Register) (w : World H) (o : Order B) : Prop where
  there : ∀ a ∈ o.names, ∃ s, T.lists.things a = some s
  spared : ∀ a ∈ o.names, ∀ s, T.lists.things a = some s → T.Spares w s
  deep : o.deep = true → ∀ a ∈ o.names, ∀ s, T.lists.things a = some s →
    ∀ t, w.Finds E s t → T.Spares w t

/-- No slice without a stop has been made. -/
theorem Order.Clear.of_unstrided {E : Engine H} {o : Order B} (hstrides : T.strides = [])
    (hthere : (o.names.all fun a => (T.lists.things a).isSome) = true) : o.Clear E T w where
  there a ha := Option.isSome_iff_exists.mp (List.all_eq_true.mp hthere a ha)
  spared _ _ s _ hs := by
    rw [hstrides] at hs
    cases hs
  deep _ _ _ _ _ t _ ht := by
    rw [hstrides] at ht
    cases ht

/-- No other list is to be opened over one in which a value is overwritten. -/
def Order.Sparing (T : Register) (_ : World H) : Order B → Prop
  | .set a _ _ => ∀ s, T.lists.things a = some s → s ∉ T.bases
  | _ => True

/-- A list that is said to be infinite is searched only for a number that is not negative, and if
    it consists of numbers that do not decrease. -/
def Order.Climbs (E : Engine H) (T : Register) (w : World H) : Order B → Prop
  | .ask a (.contains x) => ∀ s v, T.lists.things a = some s → x.value T.lists = some v →
    (w.sequence s).infinite = true → v.isNumber = true ∧ Value.zero.atMost v = true ∧
      ∀ all u, (s.materialize E).run.run w = .ok (.ok all, u) →
        (∀ v ∈ all.toList, v.isNumber = true) ∧ all.toList.Pairwise fun v u => v.atMost u = true
  | _ => True

/-- If the limit has been lifted, no limit can interfere with such an order. -/
theorem Order.Clear.safe {o : Order B} (hclear : o.Clear (.ofBehavior B depth) T w)
    (h : Tallies B π P z w T) (hlimit : w.limit = none) (hdepth : z.enough ≤ depth) :
    o.Safe (π.lifted w) P T := by
  have hlifted := h.lifted hlimit
  have hcalm : ¬(π.lifted w).limited := And.left
  -- whoever is struck has been noted down
  have hspared {u : World H} {k : Nat} {s : Sequence} (hlater : w.Later u)
      (hs : u.Places (π.lifted w) k s) (hsafe : T.Spares w s) : ¬(π.lifted w).frail k := by
    rintro ⟨⟨hlate, t, ht, hstruck⟩, -⟩
    obtain rfl := hs.unique hlifted.sound.proper (ht.lifted.later hlater)
    obtain ⟨t, hmem, ht'⟩ := h.strides k hlate
    obtain rfl := ht.unique h.sound.proper ht'
    exact hsafe hmem hstruck
  refine ⟨hcalm, hclear.there, fun a ha k hk => ?_, fun hdeep a ha k hk hshaky => ?_⟩
  · obtain ⟨s, hs⟩ := hclear.there a ha
    obtain ⟨l, hl, hplace⟩ := hlifted.placed hs
    cases hk.symm.trans hl
    exact hspared (.refl w) hplace (hclear.spared a ha s hs)
  · obtain ⟨s, hs⟩ := hclear.there a ha
    obtain ⟨l, hl, hplace⟩ := hlifted.placed hs
    cases hk.symm.trans hl
    obtain ⟨j, hreaches, hf⟩ := hshaky.resolve_left hcalm
    obtain ⟨m, t, u, hfinds, hlater, ht, hm⟩ := hreaches.finds hlifted.sound.proper
      (hlifted.enough hdepth) hcalm hf hlifted.sound.holds rfl hplace
    exact hspared hlater ht (hclear.deep hdeep a ha s hs t hfinds) hm

/-! ### Single orders -/

section Step

variable (h : Tallies B π P z w T) (hdepth : z.enough ≤ depth) {o : Order B}
include h hdepth

/-- An order comes to an end, unless it looks into lists within lists.  If it does not, the
    ledger has no reply either. -/
theorem Tallies.ends (hlimits : o.limits = true → π.limited) :
    (∃ y T' w', (o.perform (.ofBehavior B depth) T).run w = .ok ((y, T'), w')) ∨
      o.deep = true ∧ (o.Safe π P T → o.Fair P →
        o.reply? (Engine.ofBehavior B depth).fuel P = none) := by
  cases hsets : o.sets with
  | true =>
    cases o with
    | make | ask | drop | iterate | drive | close | limit => cases hsets
    | set a index x =>
      obtain ⟨y, w', hrun, -⟩ := h.sets hdepth a index x
      exact .inl ⟨y, T, w', hrun⟩
  | false =>
    cases o.keeps h hdepth hsets hlimits with
    | goes y T' w' π' hrun => exact .inl ⟨y, T', w', hrun⟩
    | starves _ hdeep hreply => exact .inr ⟨hdeep, hreply⟩

variable {y : Outcome Response}
variable (hrun : (o.perform (.ofBehavior B depth) T).run w = .ok ((y, T'), w'))
include hrun

/-- Where no limit can interfere the reply is that of the ledger. -/
theorem Tallies.reply?_eq (hlisted : o.listed = true) (hsafe : o.Safe π P T) (hfair : o.Fair P) :
    o.reply? (Engine.ofBehavior B depth).fuel P = some y := by
  cases hsets : o.sets with
  | true =>
    cases o with
    | make | ask | drop | iterate | drive | close | limit => cases hsets
    | set a index x =>
      obtain ⟨y', u, hrun', hy⟩ := h.sets hdepth a index x
      cases hrun.symm.trans hrun'
      exact hy.reply?_of_safe hsafe _
  | false =>
    cases o.keeps h hdepth hsets (by simp [o.limits_of_listed hlisted]) with
    | starves hrun' => cases hrun.symm.trans hrun'
    | goes y' T'' u π' hrun' h' halike hreply =>
      cases hrun.symm.trans hrun'
      exact hreply hlisted hsafe hfair

/-- The session goes on following a plan, and the ledger is kept unless a value could not be
    overwritten because of a limit. -/
theorem Tallies.step (hlimits : o.limits = true → π.limited) (hfree : ∀ a index x,
      o = .set a index x → ∀ k, P.names.things a = some k → ¬P.opened k) (levels : Nat) :
    ∃ π' Q, Tallies B π' Q (o.after z) w' T' ∧ π.Alike π' ∧
      (Q = o.plain P ∧ (o.sets = true → o.reply? levels P = some y) ∨
        o.sets = true ∧ π.spoilt ∧ o.reply? levels P ≠ some y) := by
  cases hsets : o.sets with
  | true =>
    cases o with
    | make | ask | drop | iterate | drive | close | limit => cases hsets
    | set a index x =>
      obtain ⟨y', u, π', Q, hrun', h', halike, hQ⟩ :=
        h.run_set hdepth index x (hfree a index x rfl) levels
      cases hrun.symm.trans hrun'
      exact ⟨π', Q, h'.mono (Order.le_after _ z).1 (Order.le_after _ z).2, halike,
        hQ.imp (And.imp_right fun hreply _ => hreply) fun ⟨_, hspoilt, hreply⟩ =>
          ⟨rfl, hspoilt, hreply⟩⟩
  | false =>
    cases o.keeps h hdepth hsets hlimits with
    | starves hrun' => cases hrun.symm.trans hrun'
    | goes y' T'' u π' hrun' h' halike =>
      cases hrun.symm.trans hrun'
      exact ⟨π', _, h', halike, .inl ⟨rfl, nofun⟩⟩

end Step

/-- In a session in which no limit has struck, a list that is not noted down is not opened. -/
theorem Order.Sparing.free {o : Order B} (hsparing : o.Sparing T w) (h : Tallies B π P z w T)
    (hcalm : ¬π.spoilt) (a : Nat) (index : Int) (x : Operand H) (ho : o = .set a index x) (k : Nat)
    (hk : P.names.things a = some k) : ¬P.opened k := by
  subst ho
  intro hopened
  obtain ⟨s, hs, hplace⟩ := h.there hcalm hk
  obtain ⟨t, hmem, ht⟩ := (h.bases k hopened).resolve_left hcalm
  obtain rfl := hplace.unique h.sound.proper ht
  exact hsparing s hs hmem

theorem Order.Climbs.fair {o : Order B} (hclimbs : o.Climbs (.ofBehavior B depth) T w)
    (h : Tallies B π P z w T) (hcalm : ¬π.spoilt) (hdepth : z.enough ≤ depth) : o.Fair P := by
  cases o with
  | make | set | drop | iterate | drive | close | limit => trivial
  | ask a q =>
    cases q with
    | advance | read | slice | length | materialize | walk | count | equals | same | flatten | json
    | host => trivial
    | contains x =>
      intro k b hk hb hinfinite
      obtain ⟨s, hs, hplace⟩ := h.there hcalm hk
      obtain ⟨v, hv, hstands⟩ : ∃ v, x.value T.lists = some v ∧ v.StandsFor π w b := by
        cases x with
        | datum x =>
          cases hb
          exact ⟨x.value, rfl, .scalar _ x.scalar⟩
        | named c =>
          obtain ⟨l, hl, rfl⟩ := Option.map_eq_some_iff.mp hb
          obtain ⟨t, ht, hplace'⟩ := h.there hcalm hl
          exact ⟨.list t, by simp [Operand.value, ht], .list t l hplace'⟩
      have hword := h.sound.holds.infinite_eq hplace (Set.notMem_empty k)
      rw [h.infinite_eq] at hinfinite
      obtain ⟨hnumber, hzero, hforced⟩ := hclimbs s v hs hv (hword.trans hinfinite)
      obtain ⟨all, u, hrun, -, -, hall⟩ := (Sequence.brings_materialize_of_proper h.sound.proper
        (h.enough hdepth) h.sound.holds hplace).run_of_calm
          (fun hcause => hcalm (spoilt_of_cause hcause)) (·)
      obtain ⟨hnumbers, hsorted⟩ := hforced all u hrun
      obtain rfl := hstands.eq_of_isNumber (.inl hnumber)
      have hface : all.toList = P.outline.face k := by
        rw [Value.StandsFor.eq_of_numbers hall (.inl hnumbers), h.face_eq]
      rw [hface] at hnumbers hsorted
      exact ⟨hnumber, hzero, hnumbers, hsorted⟩

/-! ### Sessions with a limit and without -/

/-- What was replied to the orders to overwrite a value. -/
def setReplies (orders : List (Order B)) (replies : List (Outcome Response)) :
    List (Outcome Response) :=
  ((orders.zip replies).filter (·.1.sets)).map Prod.snd

theorem setReplies_cons (o : Order B) (orders : List (Order B)) (y : Outcome Response)
    (replies : List (Outcome Response)) : setReplies (o :: orders) (y :: replies) =
      if o.sets then y :: setReplies orders replies else setReplies orders replies := by
  simp only [setReplies, List.zip_cons_cons, List.filter_cons]
  split
  · rfl
  · rfl

/-- Two sessions begin alike, and then one goes on with limits and the other without.  In the
    latter values are overwritten only where that is nobody else's business, and in the former
    the same comes of that. -/
def Parted (E : Engine H) (before during : List (Order B)) (host : H.State)
    (replies : List (Outcome Response)) (T T' : Register) (w w' : World H) : Prop :=
  ∃ replies₀ T₀ w₀ replies',
    (conduct E before .empty).run (.initial host) = .ok ((replies₀, T₀), w₀) ∧
    (conduct E during T₀).run w₀ = .ok ((replies, T), w) ∧
    (conduct E (during.filter (!·.limits)) T₀).run w₀ = .ok ((replies', T'), w') ∧
    Along E Order.Sparing (during.filter (!·.limits)) T₀ w₀ ∧
    setReplies during replies = setReplies (during.filter (!·.limits)) replies'

/-- The same ledger is kept for both. -/
theorem Tallies.part (during : List (Order B)) {P : Ledger} {z : Extent} {w₀ w₀' : World H}
    {T₀ T₀' : Register} (h : Tallies B π P z w₀ T₀) (hlimited : π.limited)
    (h' : Tallies B π' P z w₀' T₀') (hcalm : ¬π'.spoilt)
    (hdepth : (extent during z).enough ≤ depth) {replies replies' : List (Outcome Response)}
    (hrun : (conduct (.ofBehavior B depth) during T₀).run w₀ = .ok ((replies, T), w))
    (hrun' : (conduct (.ofBehavior B depth) (during.filter (!·.limits)) T₀').run w₀' =
      .ok ((replies', T'), w'))
    (hsparing : Along (.ofBehavior B depth) Order.Sparing (during.filter (!·.limits)) T₀' w₀')
    (hsets : setReplies during replies = setReplies (during.filter (!·.limits)) replies') :
    ∃ π₁ π₁' Q, Tallies B π₁ Q (extent during z) w T ∧ π₁.limited ∧
      Tallies B π₁' Q (extent during z) w' T' ∧ ¬π₁'.spoilt := by
  induction during generalizing π π' P z w₀ w₀' T₀ T₀' replies replies' with
  | nil =>
    cases hrun
    cases hrun'
    exact ⟨π, π', P, h, hlimited, h', hcalm⟩
  | cons o during ih =>
    have hreach : z.enough ≤ depth := (enough_le_extent (o :: during) z).trans hdepth
    obtain ⟨y, T₁, w₁, replies₁, rfl, hfirst, hrest⟩ := conduct_cons_eq_ok hrun
    cases hlimits : o.limits with
    | true =>
      -- only one session sets the limit
      cases o with
      | make | ask | set | drop | iterate | drive | close => cases hlimits
      | limit bound =>
        obtain ⟨π₁, Q, h₁, halike, hQ⟩ :=
          h.step hreach hfirst (fun _ => hlimited) nofun (Engine.ofBehavior B depth).fuel
        obtain rfl : Q = P := (hQ.resolve_right nofun).1
        exact ih h₁ (halike.limited hlimited) h' hcalm hdepth hrest hrun' hsparing hsets
    | false =>
      rw [List.filter_cons_of_pos (by simp [hlimits])] at hrun' hsparing hsets
      obtain ⟨y', T₁', w₁', replies₁', rfl, hfirst', hrest'⟩ := conduct_cons_eq_ok hrun'
      have hfree := hsparing.head.free h' hcalm
      obtain ⟨π₁, Q, h₁, halike, hQ⟩ := h.step hreach hfirst (by simp [hlimits]) hfree
        (Engine.ofBehavior B depth).fuel
      obtain ⟨π₁', Q', h₁', halike', hQ'⟩ := h'.step hreach hfirst' (by simp [hlimits]) hfree
        (Engine.ofBehavior B depth).fuel
      obtain ⟨rfl, hreply'⟩ := hQ'.resolve_right fun hrefused => hcalm hrefused.2.1
      have hsame : (o.sets = true → y = y') ∧
          setReplies during replies₁ = setReplies (during.filter (!·.limits)) replies₁' := by
        rw [setReplies_cons, setReplies_cons] at hsets
        cases ho : o.sets with
        | true =>
          rw [ho] at hsets
          exact ⟨fun _ => List.head_eq_of_cons_eq hsets, List.tail_eq_of_cons_eq hsets⟩
        | false =>
          rw [ho] at hsets
          exact ⟨nofun, hsets⟩
      obtain ⟨rfl, -⟩ := hQ.resolve_right fun ⟨ho, _, hrefused⟩ =>
        hrefused (hsame.1 ho ▸ hreply' ho)
      exact ih h₁ (halike.limited hlimited) h₁' (fun hspoilt => hcalm (halike'.spoilt.mp hspoilt))
        hdepth hrest hrest' (hsparing.tail hfirst') hsame.2

/-- Where no limit has struck none can interfere with what is asked of lists that are there. -/
theorem Order.safe_of_calm {o : Order B} (h' : Tallies B π' P z w' T') (hcalm : ¬π'.spoilt)
    (hthere : ∀ a ∈ o.names, ∃ k, P.names.things a = some k) : o.Safe π' P T' where
  calm hlimited := hcalm hlimited.2
  there a ha := by
    obtain ⟨k, hk⟩ := hthere a ha
    exact (h'.there hcalm hk).imp fun _ => And.left
  sound a _ k _ hf := hcalm hf.2
  deep _ a _ k _ hshaky := by
    rcases hshaky with hlimited | ⟨j, -, hf⟩
    · exact hcalm hlimited.2
    · exact hcalm hf.2

/-- Whatever is answered in the session without limits is answered in the other one, when the
    limit has been lifted. -/
theorem Tallies.answered (after : List (Order B)) (h : Tallies B π P z w T)
    (hlimit : w.limit = none) (h' : Tallies B π' P z w' T') (hcalm : ¬π'.spoilt)
    (hdepth : (extent after z).enough ≤ depth) (hlisted : ∀ o ∈ after, o.listed = true)
    (hsparing : Along (.ofBehavior B depth) Order.Sparing after.dropLast T' w')
    (hclimbs : Along (.ofBehavior B depth) (Order.Climbs (.ofBehavior B depth)) after T' w')
    (hclear : Along (.ofBehavior B depth) (Order.Clear (.ofBehavior B depth)) after T w)
    {answers : List (Outcome Response)} {U' : Register} {v' : World H}
    (hrun' : (conduct (.ofBehavior B depth) after T').run w' = .ok ((answers, U'), v')) :
    ∃ U v, (conduct (.ofBehavior B depth) after T).run w = .ok ((answers, U), v) := by
  induction after generalizing π π' P z w w' T T' answers with
  | nil =>
    cases hrun'
    exact ⟨T, w, rfl⟩
  | cons o after ih =>
    have hreach : z.enough ≤ depth := (enough_le_extent (o :: after) z).trans hdepth
    have ho : o.listed = true := hlisted o List.mem_cons_self
    have hlimits : o.limits = false := o.limits_of_listed ho
    obtain ⟨y', T₁', w₁', answers₁, rfl, hfirst', hrest'⟩ := conduct_cons_eq_ok hrun'
    have hfair := hclimbs.head.fair h' hcalm hreach
    have hsafe' : o.Safe π' P T' := Order.safe_of_calm h' hcalm fun a ha => by
      obtain ⟨s, hs⟩ := hclear.head.there a ha
      exact (h.placed hs).imp fun _ => And.left
    have hreply' := h'.reply?_eq hreach hfirst' ho hsafe' hfair
    -- from now on only what is struck at this point may fail
    have hlifted := h.lifted hlimit
    have hsafe := hclear.head.safe h hlimit hreach
    obtain ⟨y, T₁, w₁, hfirst⟩ :=
      (hlifted.ends (o := o) hreach (by simp [hlimits])).resolve_right fun ⟨_, hnone⟩ => by
        cases hreply'.symm.trans (hnone hsafe hfair)
    have hreply := hlifted.reply?_eq hreach hfirst ho hsafe hfair
    cases hreply.symm.trans hreply'
    obtain ⟨U, v, hrest⟩ : ∃ U v,
        (conduct (.ofBehavior B depth) after T₁).run w₁ = .ok ((answers₁, U), v) := by
      cases after with
      | nil =>
        cases hrest'
        exact ⟨T₁, w₁, rfl⟩
      | cons o' after =>
        have hfree := hsparing.head.free h' hcalm
        obtain ⟨π₁, Q, h₁, halike, hQ⟩ := hlifted.step hreach hfirst (by simp [hlimits]) hfree
          (Engine.ofBehavior B depth).fuel
        obtain ⟨π₁', Q', h₁', halike', hQ'⟩ := h'.step hreach hfirst' (by simp [hlimits]) hfree
          (Engine.ofBehavior B depth).fuel
        obtain ⟨rfl, -⟩ := hQ.resolve_right fun hrefused => hrefused.2.2 hreply
        obtain ⟨rfl, -⟩ := hQ'.resolve_right fun hrefused => hcalm hrefused.2.1
        have hlimit₁ := h₁.sound.holds.limit.resolve_right fun hlimited =>
          halike.wary.mp hlimited.1
        exact ih h₁ hlimit₁ h₁' (fun hspoilt => hcalm (halike'.spoilt.mp hspoilt)) hdepth
          (fun o'' ho'' => hlisted o'' (List.mem_cons_of_mem o ho'')) (hsparing.tail hfirst')
          (hclimbs.tail hfirst') (hclear.tail hfirst) hrest'
    refine ⟨U, v, ?_⟩
    rw [conduct, Act.run_bind_of_eq hfirst]
    exact Act.run_bind_of_eq hrest

/-- What does not look into lists within lists is answered in any case. -/
theorem Tallies.answers_of_shallow (after : List (Order B)) (h' : Tallies B π' P z w' T')
    (hcalm : ¬π'.spoilt) (hdepth : (extent after z).enough ≤ depth)
    (hlisted : ∀ o ∈ after, o.listed = true) (hshallow : ∀ o ∈ after, o.deep = false)
    (hsparing : Along (.ofBehavior B depth) Order.Sparing after.dropLast T' w') :
    ∃ answers U' v', (conduct (.ofBehavior B depth) after T').run w' = .ok ((answers, U'), v') := by
  induction after generalizing π' P z w' T' with
  | nil => exact ⟨[], T', w', rfl⟩
  | cons o after ih =>
    have hreach : z.enough ≤ depth := (enough_le_extent (o :: after) z).trans hdepth
    have hlimits : o.limits = false := o.limits_of_listed (hlisted o List.mem_cons_self)
    obtain ⟨y, T₁, w₁, hfirst⟩ := (h'.ends hreach (by simp [hlimits])).resolve_right fun ⟨ho, _⟩ =>
      Bool.false_ne_true ((hshallow o List.mem_cons_self).symm.trans ho)
    obtain ⟨answers, U', v', hrest⟩ : ∃ answers U' v',
        (conduct (.ofBehavior B depth) after T₁).run w₁ = .ok ((answers, U'), v') := by
      cases after with
      | nil => exact ⟨[], T₁, w₁, rfl⟩
      | cons o' after =>
        obtain ⟨π₁, Q, h₁, halike, -⟩ := h'.step hreach hfirst (by simp [hlimits])
          (hsparing.head.free h' hcalm) (Engine.ofBehavior B depth).fuel
        exact ih h₁ (fun hspoilt => hcalm (halike.spoilt.mp hspoilt)) hdepth
          (fun o'' ho'' => hlisted o'' (List.mem_cons_of_mem o ho''))
          (fun o'' ho'' => hshallow o'' (List.mem_cons_of_mem o ho'')) (hsparing.tail hfirst)
    refine ⟨y :: answers, U', v', ?_⟩
    rw [conduct, Act.run_bind_of_eq hfirst]
    exact Act.run_bind_of_eq hrest

/-- When the limit has been lifted, whatever is asked is answered as in the session without
    limits, if it is asked of lists that have not been struck, and however much is asked, new
    lists made and values overwritten on the way.  What does not look into lists within lists
    is answered in any case; to flatten a list may come to no end without a limit either.

    Values are overwritten only in lists over which no other one is to be opened, but for the
    last order. -/
theorem recovers_when_lifted (B : Behavior H) (before during after : List (Order B))
    (hbefore : ∀ o ∈ before, o.limits = false) (hafter : ∀ o ∈ after, o.listed = true)
    (host : H.State) :
    ∃ enough, ∀ depth ≥ enough, ∀ replies (T T' : Register) (w w' : World H),
      Parted (.ofBehavior B depth) before during host replies T T' w w' →
      Along (.ofBehavior B depth) Order.Sparing after.dropLast T' w' →
      Along (.ofBehavior B depth) (Order.Climbs (.ofBehavior B depth)) after T' w' →
      Along (.ofBehavior B depth) (Order.Clear (.ofBehavior B depth)) after T
        { w with limit := none } →
      (∀ answers U' v', (conduct (.ofBehavior B depth) after T').run w' =
          .ok ((answers, U'), v') → ∃ U v, (conduct (.ofBehavior B depth) after T).run
            { w with limit := none } = .ok ((answers, U), v)) ∧
        ((∀ o ∈ after, o.deep = false) → ∃ answers U' v',
          (conduct (.ofBehavior B depth) after T').run w' = .ok ((answers, U'), v')) := by
  let z := extent during (extent before ⟨0, 0⟩)
  refine ⟨(extent after z).enough,
    fun depth hdepth replies T T' w w' hparted hsparing hclimbs hclear => ?_⟩
  obtain ⟨replies₀, T₀, w₀, replies', hrun₀, hrun, hrun', hsparing₀, hsets⟩ := hparted
  have hreach : z.enough ≤ depth := (enough_le_extent after z).trans hdepth
  obtain ⟨π, P, hcalm, hwary, h₀⟩ := (ready_initial B host).run_conduct before
    ((enough_le_extent during _).trans hreach) hbefore hrun₀
  obtain ⟨π₁, π₁', Q, h, hlimited, h', hcalm'⟩ := Tallies.part during (h₀.spoiled hwary)
    ⟨hwary, trivial⟩ h₀ hcalm hreach hrun hrun' hsparing₀ hsets
  refine ⟨fun answers U' v' hanswers => ?_, fun hshallow => ?_⟩
  · exact Tallies.answered after (h.setLimit hlimited none) rfl h' hcalm' hdepth hafter hsparing
      hclimbs hclear hanswers
  · exact Tallies.answers_of_shallow after h' hcalm' hdepth hafter hshallow hsparing

end Limited

namespace Session

open Limited

/-- Whatever a condition of a session says of a list it says of all lists, unless it compares with
    one. -/
theorem Condition.sees {c : Condition Value Step} {holds : Value → Bool}
    (hc : c.holds? = some holds)
    (hoperand : ∀ x, c = .equalTo x ∨ c = .unequalTo x → x.asList? = Option.none) :
    behavior.Sees c holds := by
  refine ⟨fun depth v w => ⟨w.host, ?_⟩, fun s t => ?_⟩
  · change (Condition.test (engine depth) c v).run.run w = _
    cases c with
    | failsOn | after => cases hc
    | equalTo x =>
      cases hc
      rw [Condition.test, Value.same_eq (.inr (hoperand x (.inl rfl)))]
      rfl
    | unequalTo x =>
      cases hc
      rw [Condition.test, Value.same_eq (.inr (hoperand x (.inr rfl)))]
      rfl
    | even =>
      cases hc
      cases v <;> rfl
    | all | none | below | atMost | above | atLeast | number | kind =>
      cases hc
      rfl
  · cases c with
    | failsOn | after => cases hc
    | equalTo x =>
      cases hc
      have hx := hoperand x (.inl rfl)
      cases x with
      | list => cases hx
      | int | rational | str => rfl
    | unequalTo x =>
      cases hc
      have hx := hoperand x (.inr rfl)
      cases x with
      | list => cases hx
      | int | rational | str => rfl
    | below x | atMost x | above x | atLeast x =>
      cases hc
      cases x <;> rfl
    | all | none | number | even | kind =>
      cases hc
      rfl

/-- A list with two numbers in a list, and another number behind it. -/
def pairAndSeven : Origin behavior where
  producer _ := .container [.items [.int 1, .int 2], .int 7]
  crop := .nested false (.value (.int 1) (.value (.int 2) .done)) (.value (.int 7) .done)
  infinite := false
  yields _ := Producer.yields_container (.container _ _ _ _
    (.value _ _ _ _ (fun _ => rfl) (.value _ _ _ _ (fun _ => rfl) .done))
    (.value _ _ _ _ (fun _ => rfl) .done))

def eight : Datum host := ⟨.int 8, .int 8, fun _ => rfl, rfl⟩

/-- The list is flattened while one value is allowed, and its last value is overwritten. -/
def flattenedWithinOne : List (Order behavior) × List (Order behavior) :=
  ([.make (.source pairAndSeven)], [.limit (some 1), .ask 0 .flatten, .set 0 1 (.datum eight)])

/-- It is flattened again, and in the end it becomes an item of the list within it. -/
def askedAfterwards : List (Order behavior) :=
  [.ask 0 .flatten, .make (.pick 0 0), .set 1 (-1) (.named 0)]

def answersAfterwards : List (Outcome Response) :=
  [.ok (.flat (.list [.list [.int 1, .int 2], .int 8])), .ok (.made 1), .ok .done]

theorem recovers_flattenedWithinOne :
    ∃ (depth : Nat) (replies : List (Outcome Response)) (T T' : Register) (w w' : World host)
        (U U' : Register) (v v' : World host),
      Parted (.ofBehavior behavior depth) flattenedWithinOne.1 flattenedWithinOne.2 default replies
        T T' w w' ∧
      .error (.materializeLimit 1) ∈ replies ∧
      (conduct (.ofBehavior behavior depth) askedAfterwards T).run { w with limit := none } =
        .ok ((answersAfterwards, U), v) ∧
      (conduct (.ofBehavior behavior depth) askedAfterwards T').run w' =
        .ok ((answersAfterwards, U'), v') := by
  obtain ⟨enough, h⟩ := recovers_when_lifted behavior flattenedWithinOne.1 flattenedWithinOne.2
    askedAfterwards (by simp [flattenedWithinOne, Order.limits])
    (by simp [askedAfterwards, Order.listed]) default
  obtain ⟨T, T', w, w', U', v', hparted, hsparing, hclimbs, hclear, hfree⟩ :
      ∃ T T' w w' U' v', Parted (.ofBehavior behavior (enough + 12)) flattenedWithinOne.1
          flattenedWithinOne.2 default [.ok .done, .error (.materializeLimit 1), .ok .done]
          T T' w w' ∧
        Along (.ofBehavior behavior (enough + 12)) Order.Sparing askedAfterwards.dropLast T' w' ∧
        Along (.ofBehavior behavior (enough + 12))
          (Order.Climbs (.ofBehavior behavior (enough + 12))) askedAfterwards T' w' ∧
        Along (.ofBehavior behavior (enough + 12))
          (Order.Clear (.ofBehavior behavior (enough + 12))) askedAfterwards T
          { w with limit := none } ∧
        (conduct (.ofBehavior behavior (enough + 12)) askedAfterwards T').run w' =
          .ok ((answersAfterwards, U'), v') := by
    refine ⟨_, _, _, _, _, _, ⟨_, _, _, _, rfl, rfl, rfl, ?_, rfl⟩, ?_, ?_, ?_, rfl⟩
    · exact .cons trivial rfl (.cons (fun _ _ => List.not_mem_nil) rfl .nil)
    · exact .of_forall (by simp [askedAfterwards, Order.Sparing])
    · exact .of_forall (by simp [askedAfterwards, Order.Climbs])
    · exact .cons (.of_unstrided rfl rfl) rfl (.cons (.of_unstrided rfl rfl) rfl
        (.cons (.of_unstrided rfl rfl) rfl .nil))
  obtain ⟨U, v, hlimited⟩ := (h (enough + 12) (Nat.le_add_right _ _) _ T T' w w' hparted hsparing
    hclimbs hclear).1 _ U' v' hfree
  exact ⟨enough + 12, _, T, T', w, w', U, U', v, v', hparted,
    List.mem_cons_of_mem _ List.mem_cons_self, hlimited, hfree⟩

/-- What a session answers in the end, if that is a number or a failure; yes counts as one. -/
def lastNumber? (steps : List Step) : Option (Outcome Int) :=
  match (run? 12 steps).bind (·.reports.getLast?) with
  | some ⟨.number n, _, _, _⟩ => some (.ok n)
  | some ⟨.flag b, _, _, _⟩ => some (.ok b.toInt)
  | some ⟨.failure e, _, _, _⟩ => some (.error e)
  | _ => none

/-- What comes of a step under a limit, what comes of another one after the limit was lifted,
    and what comes of it when there was no limit at all. -/
def underLimit (made : List Step) (limit : Nat) (asked : Step) (between : List Step)
    (asked' : Step) : List (Option (Outcome Int)) :=
  [lastNumber? (made ++ [.setLimit (some limit), asked]),
    lastNumber? (made ++ [.setLimit (some limit), asked] ++ between ++ [.setLimit none, asked']),
    lastNumber? (made ++ [asked] ++ between ++ [asked'])]

/-- What a limit leaves behind.  In each of these sessions something fails because of a limit,
    and after that was lifted an answer is not what it would have been:

    - a slice without a stop was opened under the limit, and goes on failing;
    - a value was not put into a list, for the list was to be forced before;
    - a value was put into a list that a concatenation would have read before;
    - a list is searched that is said to be infinite but decreases, or for a negative number:
      what the search finds then depends on what is cached;
    - a filter has compared a list with another while neither could be forced. -/
theorem limit_remembered :
    underLimit [.newContainer "L" [.int 1, .int 2, .int 3] false,
        .slice "L" (some 0) none none true (some "S")]
      1 (.length "S") [] (.length "S") =
        [some (.error (.materializeLimit 1)), some (.error (.materializeLimit 1)), some (.ok 3)] ∧
    underLimit [.newContainer "L" [.int 1, .int 2, .int 3] false]
      1 (.set "L" (-1) (.int 9)) [] (.count "L" (.int 9)) =
        [some (.error (.materializeLimit 1)), some (.ok 0), some (.ok 1)] ∧
    underLimit [.newContainer "L" [.int 1, .int 2] false, .newContainer "M" [.int 5] false,
        .append "L" "M" (some "A")]
      1 (.length "A") [.set "M" 0 (.int 7)] (.count "A" (.int 7)) =
        [some (.error (.materializeLimit 1)), some (.ok 1), some (.ok 0)] ∧
    underLimit [.newContainer "L" [.int 3, .int 1, .int 0] true]
      0 (.length "L") [] (.contains "L" (.int 0)) =
        [some (.error (.materializeLimit 0)), some (.ok 0), some (.ok 1)] ∧
    underLimit [.newContainer "L" [.int 1] false, .newContainer "M" [.int (-5)] true,
        .slice "M" (some 0) none none true (some "S"), .append "L" "S" (some "A")]
      0 (.length "A") [] (.contains "M" (.int (-5))) =
        [some (.error (.materializeLimit 0)), some (.ok 0), some (.ok 1)] ∧
    underLimit [.newContainer "L" [.items [.int 1, .int 2, .int 3], .int 7, .int 8] false,
        .filter "L" (.unequalTo (.items [.int 1, .int 2, .int 3])) none (some "F")]
      1 (.length "F") [] (.length "F") =
        [some (.error (.materializeLimit 1)), some (.ok 3), some (.ok 2)] := by
  decide +kernel

end Session

end MemoSeq
