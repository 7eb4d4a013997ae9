/-
  MemoSeq/Proofs/Twin/Scopes.lean
  ===============================
  **How far steps reach.**

  A `Scope` is a set of names, with the lists that may be changed through them, the lists
  that may only be looked at, and the tapes that are read.  It confines a world when nothing
  leads out of it: what a list in it holds, reads or is made of is in it too
  (`Scope.Confines`).  This is to say that the world is a twin of itself up to the scope; so
  a step that uses only these names changes nothing outside (`Scope.Confines.step`).

  If what may be changed was made aside, such a step spares everything else
  (`Scope.Aside.step`).  A list of numbers and texts may come to be looked at whenever it is
  found under a name (`Scope.Aside.goes_on`).
-/
import MemoSeq.Proofs.Twin.Besides

theorem List.Forall₂.left {α β : Type} {R : α → β → Prop} {S : α → α → Prop} {xs : List α}
    {ys : List β} (h : List.Forall₂ R xs ys) (hRS : ∀ a b, R a b → S a a) :
    List.Forall₂ S xs xs := by
  induction h with
  | nil => exact .nil
  | cons hab _ ih => exact .cons (hRS _ _ hab) ih

theorem Option.Rel.left {α β : Type} {R : α → β → Prop} {S : α → α → Prop} {x : Option α}
    {y : Option β} (h : Option.Rel R x y) (hRS : ∀ a b, R a b → S a a) : Option.Rel S x x := by
  cases h with
  | none => exact .none
  | some h => exact .some (hRS _ _ h)

namespace MemoSeq

open Session (behavior host Script)

/-- What can be come by under some names. -/
structure Scope extends Usage where
  seen : Sequence → Prop
  lists : Sequence → Prop
  seen_of_lists : ∀ {s : Sequence}, lists s → seen s
  tapes : Tape → Prop

/-- Each thing in the scope corresponds to itself, and nothing else to anything. -/
def Scope.pairing (A : Scope) (w : World host) : Pairing where
  toUsage := A.toUsage
  seen s s' := s = s' ∧ A.seen s
  lists s s' := s = s' ∧ A.lists s
  seen_of_lists hs := ⟨hs.1, A.seen_of_lists hs.2⟩
  tapes t t' := t = t' ∧ A.tapes t
  reach t := (w.tape t).log.size
  otherLists _ := False
  otherTapes _ := False

/-- Nothing leads out of the scope. -/
def Scope.Confines (A : Scope) (w : World host) : Prop := w.Twin (A.pairing w) w

/-- It is enough that the things in it have been made, and are alike to themselves. -/
theorem Scope.confines_of {A : Scope} {w : World Session.host}
    (hseen : ∀ s, A.seen s → s.id < w.sequences.size)
    (htapes : ∀ t, A.tapes t → t.id < w.tapes.size)
    (hcell : ∀ s, A.seen s → (w.sequence s).Twin (A.pairing w) (w.sequence s))
    (htape : ∀ t, A.tapes t → (w.tape t).Twin (A.pairing w) (w.tape t))
    (hdesk : w.host.Twin (A.pairing w) w.host) : A.Confines w where
  lists := by
    refine ⟨?_, ?_, fun _ => id, fun hother => hother.elim⟩
    · rintro s _ ⟨rfl, hs⟩
      exact ⟨hseen s hs, hseen s hs⟩
    · rintro s _ t _ ⟨rfl, -⟩ ⟨rfl, -⟩
      rfl
  tapes := by
    refine ⟨?_, ?_, fun _ => id, fun hother => hother.elim⟩
    · rintro t _ ⟨rfl, ht⟩
      exact ⟨htapes t ht, htapes t ht⟩
    · rintro t _ q _ ⟨rfl, -⟩ ⟨rfl, -⟩
      rfl
  cell := by
    rintro s _ ⟨rfl, hs⟩
    exact hcell s hs
  tape := by
    rintro t _ ⟨rfl, ht⟩
    exact htape t ht
  reach := by
    rintro t _ ⟨rfl, -⟩
    exact ⟨Nat.le_refl _, Nat.le_refl _⟩
  reach_eq t ht := World.size_log_of_le ht
  limit := rfl
  displayLength := rfl
  desk := hdesk

/-- What corresponds to something. -/
def Pairing.scope (π : Pairing) : Scope where
  toUsage := π.toUsage
  seen s := ∃ s', π.seen s s'
  lists s := ∃ s', π.lists s s'
  seen_of_lists hs := ⟨hs.choose, π.seen_of_lists hs.choose_spec⟩
  tapes t := ∃ t', π.tapes t t'

/-! ### What corresponds confines the first world -/

section Left

variable {π : Pairing} {w w' : World Session.host}

theorem Value.Twin.left {v v' : Value} (h : v.Twin π v') (w : World host) :
    v.Twin (π.scope.pairing w) v := by
  cases h with
  | scalar hv => exact .scalar hv
  | list hs => exact .list ⟨rfl, _, hs⟩

theorem Item.Twin.left {x x' : Item} (h : Item.Twin π x x') (w : World host) :
    Item.Twin (π.scope.pairing w) x x := by
  cases h with
  | ok hv => exact .ok (hv.left w)
  | error e => exact .error e

theorem External.Twin.left {x x' : External Script} (h : x.Twin π x') (w : World host) :
    x.Twin (π.scope.pairing w) x := by
  induction h with
  | plain hx => exact .plain hx
  | value hv => exact .value (hv.left w)
  | iterator h => exact .iterator ⟨rfl, rfl, h.gives⟩
  | items hlength _ ih =>
    exact .of_forall₂ ((List.forall₂_iff_zip.mpr ⟨hlength, fun {_ _} hmem => ih hmem⟩).left
      fun _ _ hx => hx)

theorem Condition.Twin.left {c c' : host.Test} (h : Condition.Twin π c c') (w : World host) :
    Condition.Twin (π.scope.pairing w) c c := by
  cases h <;> constructor <;> exact Value.Twin.left ‹_› w

theorem Deferred.Twin.left {α β : Type} {R R' : α → α → Prop} {S S' : β → β → Prop}
    {d d' : Deferred α β} (h : Deferred.Twin R S d d') (hR : ∀ a a', R a a' → R' a a)
    (hS : ∀ b b', S b b' → S' b b) : Deferred.Twin R' S' d d := by
  cases h with
  | pending ha => exact .pending (hR _ _ ha)
  | opened hb => exact .opened (hS _ _ hb)
  | finished => exact .finished

variable (hw : w.Twin π w')
include hw

theorem Reader.Twin.left {r r' : Reader} (h : r.Twin π r') : r.Twin (π.scope.pairing w) r :=
  ⟨⟨rfl, _, h.tape⟩, rfl, h.reached.trans (hw.reach h.tape).1⟩

theorem Iteration.Twin.left {i i' : Iteration} (h : i.Twin π i') :
    i.Twin (π.scope.pairing w) i :=
  ⟨h.cached.left fun _ _ hv => hv.left w, h.rest.left fun _ _ hr => hr.left hw, rfl⟩

theorem SequenceState.Twin.left {c c' : SequenceState} (h : c.Twin π c') :
    c.Twin (π.scope.pairing w) c :=
  ⟨h.reader.left fun _ _ hr => hr.left hw, h.cache.left fun _ _ hv => hv.left w, rfl, rfl, rfl⟩

theorem Producer.Twin.left {p p' : Producer host} (h : p.Twin π p') :
    p.Twin (π.scope.pairing w) p := by
  cases h with
  | container hxs => exact .container (hxs.left fun _ _ hx => hx.left w)
  | values hvs => exact .values (hvs.left fun _ _ hv => hv.left w)
  | documents ds => exact .documents ds
  | reader hr => exact .reader (hr.left hw)
  | filtered hc hd =>
    exact .filtered (hc.left w) (hd.left (fun _ _ hs => ⟨rfl, _, hs⟩) fun _ _ hi => hi.left hw)
  | joined hi hd =>
    exact .joined (hi.left fun _ _ hi => hi.left hw)
      (hd.left (fun _ _ hs => ⟨rfl, _, hs⟩) fun _ _ hi => hi.left hw)
  | strided start step hd =>
    exact .strided start step (hd.left (fun _ _ hs => ⟨rfl, _, hs⟩)
      fun _ _ hvs => hvs.left fun _ _ hv => hv.left w)

theorem TapeState.Twin.left {cell cell' : TapeState host} (h : cell.Twin π cell') :
    cell.Twin (π.scope.pairing w) cell := by
  cases h with
  | fixed hS hcell hcell' => exact .fixed hS hcell hcell
  | exact hlogs hphase =>
    refine .exact (hlogs.left fun _ _ hx => hx.left w) ?_
    generalize cell.phase = phase, cell'.phase = phase' at hphase
    cases hphase with
    | idle hp => exact .idle (hp.left hw)
    | running => exact .running
    | ended => exact .ended

theorem World.Twin.confines : π.scope.Confines w := by
  refine Scope.confines_of ?_ ?_ ?_ ?_ ?_
  · rintro s ⟨s', hs⟩
    exact (hw.lists.lt hs).1
  · rintro t ⟨t', ht⟩
    exact (hw.tapes.lt ht).1
  · rintro s ⟨s', hs⟩
    exact (hw.cell hs).left hw
  · rintro t ⟨t', ht⟩
    exact (hw.tape ht).left hw
  · exact ⟨fun name hname => (hw.desk.looked name hname).left fun _ _ hs => ⟨rfl, _, hs⟩,
      fun name hname => (hw.desk.sequences name hname).left fun _ _ hs => ⟨rfl, _, hs⟩,
      fun name hname => (hw.desk.iterations name hname).left fun _ _ hi => hi.left hw,
      fun name hname => (hw.desk.branches name hname).left fun _ _ hr => hr.left hw⟩

end Left

/-! ### Lists of numbers and texts -/

/-- The list holds numbers and texts only, and reads a tape of fixed ones. -/
structure World.Bare (w : World Session.host) (s : Sequence) : Prop where
  cached : ∀ v ∈ (w.sequence s).cache.toList, v.asList? = none
  reader : ∀ r, (w.sequence s).reader = some r → r.Stands w ∧ (w.tape r.tape).Plain

theorem World.Bare.twin {A : Scope} {w : World Session.host} {s : Sequence} (h : w.Bare s)
    (htapes : ∀ t, t.id < w.tapes.size → (w.tape t).Plain → A.tapes t) :
    (w.sequence s).Twin (A.pairing w) (w.sequence s) where
  reader := by
    cases hreader : (w.sequence s).reader with
    | none => exact .none
    | some r =>
      obtain ⟨hstands, hplain⟩ := h.reader r hreader
      exact .some ⟨⟨rfl, htapes _ hstands.tape hplain⟩, rfl, hstands.position⟩
  cache := List.forall₂_same.mpr fun v hv => .scalar (h.cached v hv)
  infinite := rfl
  busy := rfl
  failure := rfl

/-! ### Steps within a scope -/

namespace Scope

variable {A : Scope} {w v : World Session.host} {depth : Nat} {next : Session.Step}
variable {r : Session.Report}

/-- A step that uses only names of the scope changes nothing outside of it, and nothing that
    was there comes into it. -/
theorem Confines.step (h : A.Confines w) (huses : next.Uses A.toUsage)
    (hrun : (Session.step (Session.engine depth) next).run w = .ok (r, v)) :
    w.Leaves (A.pairing w) v ∧ ∃ B : Scope, B.toUsage = A.toUsage ∧ B.Confines v ∧
      (∀ s, B.seen s → A.seen s ∨ B.lists s) ∧ (∀ s, A.lists s → B.lists s) ∧
      (∀ s, B.lists s → s.id < w.sequences.size → A.lists s) ∧
      ∀ t, B.tapes t → t.id < w.tapes.size → A.tapes t := by
  have hE : Engine.Follows (Session.engine depth) (Session.engine (depth + 2)) :=
    Engine.ofBehavior_follows (Nat.le_refl _)
  obtain ⟨τ, _, rfl, -, hτ, hleaves, -⟩ :=
    Session.step_follows (τ := ⟨w, w, A.pairing w, h⟩) hE huses hrun
  refine ⟨hleaves.toLeaves, τ.pairing.scope, hτ.usage, τ.twin.confines, ?_,
    fun s hs => ⟨s, hτ.lists ⟨rfl, hs⟩⟩, ?_, ?_⟩
  · rintro s ⟨s', hs⟩
    exact (hleaves.seen hs).imp And.right fun hs => ⟨s', hs⟩
  · rintro s ⟨s', hs⟩ hlt
    exact (hleaves.lists hs hlt).2
  · rintro t ⟨t', ht⟩ hlt
    exact (hleaves.tapes ht hlt).2

/-- What may be changed was made aside, and so were the tapes that are read, unless they are
    of fixed numbers and texts.  The names are others than these. -/
structure Aside (A : Scope) (names : String → Prop) (m : Made) (w : World host) : Prop where
  confines : A.Confines w
  settings : ¬ A.settings
  names : ∀ name, names name → ¬ A.names name
  lists : ∀ s, A.lists s → m.lists s
  tapes : ∀ t, A.tapes t → m.tapes t ∨ (w.tape t).Plain

variable {names : String → Prop} {m : Made}

/-- A step within such a scope spares everything else. -/
theorem Aside.step (h : A.Aside names m w) (huses : next.Uses A.toUsage)
    (hrun : (Session.step (Session.engine depth) next).run w = .ok (r, v)) :
    w.Spared names m v ∧ ∃ B : Scope, B.toUsage = A.toUsage ∧ B.Aside names (m.since w v) v ∧
      (∀ s, B.seen s → A.seen s ∨ B.lists s) ∧ ∀ s, A.lists s → B.lists s := by
  obtain ⟨hleaves, B, husage, hconfines, hseen, hstill, hlists, htapes⟩ :=
    h.confines.step huses hrun
  have hmoves := Session.step_moves _ next hrun
  refine ⟨⟨fun s hlt hother => ?_, fun t hlt hother => ?_, hleaves.limit h.settings,
    hleaves.displayLength h.settings, ?_⟩, B, husage, ⟨hconfines, husage ▸ h.settings,
    husage ▸ h.names, fun s hs => ?_, fun t ht => ?_⟩, hseen, hstill⟩
  · exact hleaves.bypasses.sequences s (fun _ hs => hother (h.lists s hs.2)) hlt
  · by_cases ht : A.tapes t
    · exact .inr ((h.tapes t ht).resolve_left hother)
    · exact .inl (hleaves.bypasses.tapes t (fun _ hpaired => ht hpaired.2) hlt)
  · have left {name : String} (hname : ¬ ¬ names name) : ¬ A.names name :=
      h.names name (not_not.mp hname)
    exact ⟨fun name hname => hleaves.desk.sequences name (left hname),
      fun name hname => hleaves.desk.iterations name (left hname),
      fun name hname => hleaves.desk.branches name (left hname)⟩
  · rcases Nat.lt_or_ge s.id w.sequences.size with hlt | hge
    · exact .inl (h.lists s (hlists s hs hlt))
    · have hmade := (hconfines.lists.lt ⟨rfl, B.seen_of_lists hs⟩).1
      exact .inr ⟨hge, hmade⟩
  · rcases Nat.lt_or_ge t.id w.tapes.size with hlt | hge
    · rcases h.tapes t (htapes t ht hlt) with hmade | hplain
      · exact .inl (.inl hmade)
      · exact .inr (hplain.later hlt hmoves)
    · have hmade := (hconfines.tapes.lt ⟨rfl, ht⟩).1
      exact .inl (.inr ⟨hge, hmade⟩)

/-! ### While other things are done -/

/-- All tapes of fixed items may be read, and the lists of `S` that have been made may be
    looked at. -/
def widened (A : Scope) (S : Sequence → Prop) (v : World host) : Scope where
  toUsage := A.toUsage
  seen s := A.lists s ∨ S s ∧ s.id < v.sequences.size
  lists := A.lists
  seen_of_lists := .inl
  tapes t := A.tapes t ∨ t.id < v.tapes.size ∧ (v.tape t).Plain

/-- Lists of `S` are all that may be looked at but not changed.  They hold numbers and texts
    and are the only ones to be found under the names for it. -/
structure Looks (U : Usage) (S : Sequence → Prop) (v : World host) : Prop where
  bare : ∀ s, S s → s.id < v.sequences.size → v.Bare s
  found : ∀ name s, U.looked name → v.host.sequences.find? name = some s →
    U.names name ∨ S s ∧ s.id < v.sequences.size

variable {S : Sequence → Prop}

/-- Other things are done, that change nothing that was made aside.  Then all is as before,
    and lists of `S` may be looked at. -/
theorem Aside.goes_on (h : A.Aside names m w)
    (hmoves : (Engine.ofBehavior behavior depth).Moves w v)
    (hbypasses : w.Bypasses m.tapes m.lists v) (hdesk : w.host.Leaves names v.host)
    (hseen : ∀ s, A.seen s → A.lists s ∨ S s) (hlooks : Looks A.toUsage S v) :
    (A.widened S v).Aside names m v := by
  have hextends := Engine.moves_extends Session.behavior_lawful hmoves
  have hπ : (A.pairing w).Grows ((A.widened S v).pairing v) := by
    refine ⟨fun hs => ⟨hs.1, (hseen _ hs.2).imp_right fun hS => ?_⟩, id,
      fun ht => ⟨ht.1, .inl ht.2⟩, fun t => hextends.logs t, rfl⟩
    exact ⟨hS, (h.confines.lists.lt hs).1.trans_le hextends.sequences⟩
  have hmade {s : Sequence} (hs : A.lists s) : s.id < w.sequences.size :=
    (h.confines.lists.lt ⟨rfl, A.seen_of_lists hs⟩).1
  have htape {t : Tape} (ht : A.tapes t) : t.id < w.tapes.size := (h.confines.tapes.lt ⟨rfl, ht⟩).1
  have own {name : String} (hname : A.names name) : ¬ names name :=
    fun hother => h.names name hother hname
  have hkept := h.confines.desk.mono hπ
  refine ⟨Scope.confines_of ?_ ?_ ?_ ?_ ⟨fun name hname => ?_, fun name hname => ?_,
    fun name hname => ?_, fun name hname => ?_⟩, h.settings, h.names, h.lists, ?_⟩
  · rintro s (hs | ⟨-, hlt⟩)
    · exact (hmade hs).trans_le hextends.sequences
    · exact hlt
  · rintro t (ht | ⟨hlt, -⟩)
    · exact (htape ht).trans_le hextends.tapes
    · exact hlt
  · rintro s (hs | ⟨hS, hlt⟩)
    · rw [hbypasses.sequences s (h.lists s hs) (hmade hs)]
      exact (h.confines.cell ⟨rfl, A.seen_of_lists hs⟩).mono hπ
    · exact (hlooks.bare s hS hlt).twin fun _ hlt hplain => .inr ⟨hlt, hplain⟩
  · rintro t (ht | ⟨-, hplain⟩)
    · -- a tape of the scope is untouched, or plain and then the same whoever reads it
      rcases h.tapes t ht with hother | hplain
      · rw [hbypasses.tapes t hother (htape ht)]
        exact (h.confines.tape ⟨rfl, ht⟩).mono hπ
      · exact (hplain.later (htape ht) hmoves).twin
    · exact hplain.twin
  · -- names outside the scope may have been bound anew, and to lists that only `S` covers
    cases hfound : v.host.sequences.find? name with
    | none => exact .none
    | some s =>
      refine .some ⟨rfl, (hlooks.found name s hname hfound).imp_left fun hown => ?_⟩
      have hsame := hkept.sequences name hown
      rw [← hdesk.sequences name (own hown), hfound] at hsame
      cases hsame with
      | some hs => exact hs.2
  · rw [hdesk.sequences name (own hname)]
    exact hkept.sequences name hname
  · rw [hdesk.iterations name (own hname)]
    exact hkept.iterations name hname
  · rw [hdesk.branches name (own hname)]
    exact hkept.branches name hname
  · rintro t (ht | ⟨-, hplain⟩)
    · exact (h.tapes t ht).imp_right fun hplain => hplain.later (htape ht) hmoves
    · exact .inr hplain

end Scope

end MemoSeq
