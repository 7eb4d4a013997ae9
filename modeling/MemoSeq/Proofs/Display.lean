/-
  MemoSeq/Proofs/Display.lean
  ============================
  **What the text of a list shows.**

  Between its brackets stand the texts of the first values that the list has cached, as many
  as are to be shown, and an ellipsis exactly when there is, or may be, more to see
  (`World.entries`).  Bars stand between these entries, and nowhere else but in one case: if
  no value is to be shown although some are cached, then the ellipsis is the only entry and a
  bar stands before it all the same, for whether to write that bar is read off the cache and
  not off what has been written (`World.display_list`).

  The text of a nested list is cut off at the number of lists there are.  A list that does not
  reach one within itself is never cut off: on the way down a list with something cached is met
  at most once, so that nested texts are the texts of the nested lists
  (`World.displayWithin_congr`).
-/
import MemoSeq.Proofs.Flattening.Returning
import MemoSeq.Session.Run

namespace MemoSeq

variable {H : Host} {w : World H} {s t : Sequence} {v : Value}

open Relation (ReflTransGen TransGen)

/-! ### Texts between bars -/

/-- The text is not empty, and there is no bar at either end of it. -/
def Unbarred (text : String) : Prop :=
  text.toList ≠ [] ∧ text.toList.head? ≠ some '|' ∧ text.toList.getLast? ≠ some '|'

theorem Unbarred.of_forall {text : String} (hne : text.toList ≠ [])
    (h : ∀ c ∈ text.toList, c ≠ '|') : Unbarred text :=
  ⟨hne, fun hhead => h _ (List.mem_of_mem_head? hhead) rfl,
    fun hlast => h _ (List.mem_of_mem_getLast? hlast) rfl⟩

/-- What stands between two texts with no bars does not matter. -/
theorem Unbarred.enclose {first last inner : String} (hfirst : Unbarred first)
    (hlast : Unbarred last) : Unbarred (first ++ inner ++ last) := by
  refine ⟨?_, ?_, ?_⟩
  · rw [String.toList_append, String.toList_append, List.append_assoc]
    exact List.append_ne_nil_of_left_ne_nil hfirst.1 _
  · rw [String.toList_append, String.toList_append, List.append_assoc,
      List.head?_append_of_ne_nil _ hfirst.1]
    exact hfirst.2.1
  · rw [String.toList_append, List.getLast?_append_of_ne_nil _ hlast.1]
    exact hlast.2.2

theorem ne_bar_of_mem_repr {n : Nat} {c : Char} (hc : c ∈ n.repr.toList) : c ≠ '|' := by
  rintro rfl
  rw [Nat.toList_repr] at hc
  exact absurd (Nat.isDigit_of_mem_toDigits (by decide) (by decide) hc) (by decide)

theorem ne_bar_of_mem_toString {n : Int} {c : Char} (hc : c ∈ (toString n).toList) :
    c ≠ '|' := by
  cases n with
  | ofNat n => exact ne_bar_of_mem_repr hc
  | negSucc n =>
    change c ∈ ("-" ++ (n + 1).repr).toList at hc
    rw [String.toList_append, List.mem_append] at hc
    rcases hc with hc | hc
    · rw [List.mem_singleton.mp hc]
      decide
    · exact ne_bar_of_mem_repr hc

theorem toList_toString_ne_nil (n : Int) : (toString n).toList ≠ [] := by
  cases n with
  | ofNat n =>
    change n.repr.toList ≠ []
    rw [Nat.toList_repr]
    exact Nat.toDigits_ne_nil
  | negSucc n =>
    change ("-" ++ (n + 1).repr).toList ≠ []
    simp

theorem unbarred_toString (n : Int) : Unbarred (toString n) :=
  .of_forall (toList_toString_ne_nil n) fun _ => ne_bar_of_mem_toString

theorem unbarred_rationalText (r : Rat) : Unbarred (rationalText r) := by
  unfold rationalText
  split
  case isTrue => exact unbarred_toString r.num
  case isFalse =>
    have htext : (toString r.num ++ "/" ++ toString r.den).toList =
        (toString r.num).toList ++ '/' :: r.den.repr.toList := by
      rw [String.toList_append, String.toList_append, List.append_assoc]
      rfl
    change Unbarred (toString r.num ++ "/" ++ toString r.den)
    refine .of_forall (htext ▸ List.append_ne_nil_of_left_ne_nil (toList_toString_ne_nil _) _)
      fun c hc => ?_
    rw [htext, List.mem_append, List.mem_cons] at hc
    rcases hc with hnum | rfl | hden
    · exact ne_bar_of_mem_toString hnum
    · decide
    · exact ne_bar_of_mem_repr hden

theorem unbarred_quote (text : String) : Unbarred (Text.quote text) := by
  have hquote : Text.quote text =
      "\"" ++ String.ofList (text.toList.flatMap Text.escape) ++ "\"" := by
    rw [← String.toList_inj, Text.quote]
    simp
  rw [hquote]
  exact .enclose (by simp [Unbarred]) (by simp [Unbarred])

theorem unbarred_ellipsis : Unbarred ellipsis := by
  simp [Unbarred, ellipsis]

/-! ### Nesting -/

/-- No list that can be reached from this one, by what is cached, lies within itself. -/
def World.Acyclic (w : World H) (s : Sequence) : Prop :=
  ∀ t, ReflTransGen w.Has s t → ¬ TransGen w.Has t t

/-- Whatever is cached in lists that the value reaches, these lists are among the given ones. -/
def World.Below (w : World H) (ids : Finset Nat) (v : Value) : Prop :=
  ∀ s, v = .list s → w.Acyclic s ∧
    ∀ t, ReflTransGen w.Has s t → (w.sequence t).cache ≠ #[] → t.id ∈ ids

namespace World

theorem Acyclic.of_reaches (hs : w.Acyclic s) (h : ReflTransGen w.Has s t) : w.Acyclic t :=
  fun u hu => hs u (h.trans hu)

/-- Lists are numbered so that each has a higher number than those within it. -/
theorem acyclic_of_descends (number : Sequence → Nat)
    (h : ∀ s t, w.Has s t → number t < number s) (s : Sequence) : w.Acyclic s := by
  have hless : ∀ {t u}, TransGen w.Has t u → number u < number t := by
    intro t u hreaches
    induction hreaches with
    | single hstep => exact h _ _ hstep
    | tail _ hstep ih => exact (h _ _ hstep).trans ih
  exact fun t _ hcycle => Nat.lt_irrefl _ (hless hcycle)

theorem lt_size_of_cache_ne (h : (w.sequence s).cache ≠ #[]) : s.id < w.sequences.size := by
  by_contra hge
  refine h ?_
  rw [World.sequence, Array.getD_eq_getD_getElem?,
    Array.getElem?_eq_none (Nat.le_of_not_lt hge)]
  rfl

theorem Acyclic.below (hs : w.Acyclic s) : w.Below (.range w.sequences.size) (.list s) := by
  rintro _ ⟨⟩
  exact ⟨hs, fun t _ ht => Finset.mem_range.mpr (lt_size_of_cache_ne ht)⟩

/-- On the way down from a list, that list is not met again. -/
theorem Below.erase {ids : Finset Nat} (h : w.Below ids (.list s))
    (hv : v ∈ (w.sequence s).cache) : w.Below (ids.erase s.id) v := by
  rintro t rfl
  obtain ⟨hacyclic, hids⟩ := h s rfl
  have hfirst : ReflTransGen w.Has s t := .single hv
  refine ⟨hacyclic.of_reaches hfirst, fun u hu hcache => Finset.mem_erase.mpr ⟨?_, ?_⟩⟩
  · rintro hid
    obtain rfl : u = s := by
      cases u
      cases s
      cases hid
      rfl
    exact hacyclic u .refl (.head' hv hu)
  · exact hids u (hfirst.trans hu) hcache

/-- Where the nesting is not cut off, it does not matter how deep it may go. -/
theorem displayWithin_congr {ids : Finset Nat} {depth depth' : Nat} (h : w.Below ids v)
    (hdepth : ids.card < depth) (hdepth' : ids.card < depth') :
    w.displayWithin depth v = w.displayWithin depth' v := by
  induction depth generalizing ids v depth' with
  | zero => exact absurd hdepth (Nat.not_lt_zero _)
  | succ depth ih =>
    obtain ⟨depth', rfl⟩ := Nat.exists_eq_succ_of_ne_zero (Nat.ne_zero_of_lt hdepth')
    cases v with
    | int | rational | str => rfl
    | list s =>
      have hnested : ∀ u ∈ (w.sequence s).cache.toList.take w.displayLength,
          w.displayWithin depth u = w.displayWithin depth' u := by
        intro u hu
        have hmem : u ∈ (w.sequence s).cache := Array.mem_toList_iff.mp (List.mem_of_mem_take hu)
        have hfewer : (ids.erase s.id).card < ids.card :=
          Finset.card_erase_lt_of_mem ((h s rfl).2 s .refl (Array.ne_empty_of_mem hmem))
        exact ih (h.erase hmem) (by omega) (by omega)
      simp only [displayWithin, List.map_congr_left hnested]

end World

/-! ### Texts of lists -/

namespace World

/-- What stands between the brackets of a list: the texts of the values that are shown, and an
    ellipsis when there is, or may be, more to see. -/
def entries (w : World H) (s : Sequence) : List String :=
  ((w.sequence s).cache.toList.take w.displayLength).map w.display ++
    if (w.sequence s).isExhausted = false ∨ w.displayLength < (w.sequence s).cache.size then
      [ellipsis]
    else []

/-- A bar that separates nothing: values are cached but none of them is shown. -/
def strayBar (w : World H) (s : Sequence) : String :=
  if w.displayLength = 0 ∧ (w.sequence s).cache ≠ #[] then "|" else ""

/-- The text of a list that is not cut off anywhere. -/
theorem display_list (hs : w.Acyclic s) :
    w.display (.list s) = "⟨" ++ w.strayBar s ++ joinTexts "|" (w.entries s) ++ "⟩" := by
  have hnested : (((w.sequence s).cache.toList.take w.displayLength).map
      (w.displayWithin w.sequences.size)) =
      ((w.sequence s).cache.toList.take w.displayLength).map w.display := by
    refine List.map_congr_left fun v hv => ?_
    have hmem : v ∈ (w.sequence s).cache := Array.mem_toList_iff.mp (List.mem_of_mem_take hv)
    have hfewer := Finset.card_erase_lt_of_mem (hs.below s rfl |>.2 s .refl
      (Array.ne_empty_of_mem hmem))
    rw [Finset.card_range] at hfewer
    exact displayWithin_congr (hs.below.erase hmem) hfewer (Nat.lt_succ_of_lt hfewer)
  have hempty : ((w.sequence s).cache.toList.take w.displayLength).map w.display = [] ↔
      w.displayLength = 0 ∨ (w.sequence s).cache = #[] := by
    rw [List.map_eq_nil_iff, List.take_eq_nil_iff, Array.toList_eq_nil_iff]
  simp only [display, displayWithin, hnested, entries, strayBar]
  generalize ((w.sequence s).cache.toList.take w.displayLength).map w.display = shown at hempty
  by_cases hmore : (w.sequence s).isExhausted = false ∨
      w.displayLength < (w.sequence s).cache.size
  case neg =>
    -- All that is cached is shown, so that a length of zero means that nothing is cached.
    obtain ⟨hended, hall⟩ := not_or.mp hmore
    have hstray : ¬ (w.displayLength = 0 ∧ (w.sequence s).cache ≠ #[]) := by
      rintro ⟨hzero, hcache⟩
      exact hall (hzero ▸ Array.size_pos_iff.mpr hcache)
    simp [hended, hall, hstray]
  case pos =>
    have hbool : (!(w.sequence s).isExhausted ||
        decide (w.displayLength < (w.sequence s).cache.size)) = true := by
      simpa using hmore
    rw [hbool, if_pos hmore]
    by_cases hcache : (w.sequence s).cache = #[]
    · simp [hempty.mpr (.inr hcache), hcache, joinTexts]
    · by_cases hzero : w.displayLength = 0
      · simp [hempty.mpr (.inl hzero), hcache, hzero, joinTexts]
      · have hshown : shown ≠ [] := fun h => (hempty.mp h).elim hzero hcache
        simp [joinTexts, String.intercalate_append_of_ne_nil hshown, hcache, hzero,
          String.append_assoc]

theorem unbarred_display (w : World H) (v : Value) : Unbarred (w.display v) := by
  cases v with
  | int n => exact unbarred_toString n
  | rational r => exact unbarred_rationalText r
  | str text => exact unbarred_quote text
  | list s =>
    have hends : Unbarred "⟨" ∧ Unbarred "⟩" := by
      simp [Unbarred]
    simp only [display, displayWithin]
    rw [@String.append_assoc "⟨", @String.append_assoc "⟨"]
    exact hends.1.enclose hends.2

/-- No entry could be taken for two, nor for none. -/
theorem unbarred_of_mem_entries {text : String} (h : text ∈ w.entries s) : Unbarred text := by
  rw [entries, List.mem_append, List.mem_map] at h
  rcases h with ⟨v, -, rfl⟩ | h
  · exact w.unbarred_display v
  · split at h
    · exact List.mem_singleton.mp h ▸ unbarred_ellipsis
    · exact absurd h List.not_mem_nil

end World

namespace Session

/-- In every state, the step that writes the text of a list changes nothing, and asks nothing of
    the engine, which may be any.  The text shows the entries of the list with bars between
    them, and the bar that stands before the ellipsis if values are cached and none is to be
    shown; and so do the texts of all lists that lie within it. -/
theorem display_shows_entries (E : Engine host) {w : World host} {name : String} {s : Sequence}
    (hname : w.host.sequences.find? name = some s) (hs : w.Acyclic s) :
    (answer E (.display name)).run w = .ok (.text (w.display (.list s)), w) ∧
    ∀ t, ReflTransGen w.Has s t →
      w.display (.list t) = "⟨" ++ (if w.displayLength = 0 ∧ (w.sequence t).cache ≠ #[] then "|"
        else "") ++ joinTexts "|" (w.entries t) ++ "⟩" ∧
      ∀ text ∈ w.entries t, Unbarred text := by
  refine ⟨?_, fun t ht => ⟨World.display_list (hs.of_reaches ht),
    fun _ => World.unbarred_of_mem_entries⟩⟩
  have hget : (get : Turn (World host)).run.run w = .ok (.ok w, w) := rfl
  have hfound : (sequence name).run.run w = .ok (.ok s, w) := by
    refine (Attempt.run_bind_of_ok hget).trans ?_
    rw [hname]
    rfl
  have hturn : (turn E (.display name)).run.run w =
      .ok (.ok (.text (w.display (.list s))), w) := Attempt.run_bind_of_ok hfound
  exact Act.run_bind_of_eq hturn

theorem nested_acyclic (s : Sequence) : nested.Acyclic s := by
  refine World.acyclic_of_descends Sequence.id (fun s t hhas => ?_) s
  match s with
  | ⟨0⟩ => exact absurd hhas (by simp [World.Has, nested, World.sequence])
  | ⟨1⟩ =>
    have ht : t = ⟨0⟩ := by simpa [World.Has, nested, World.sequence] using hhas
    exact ht ▸ Nat.zero_lt_one
  | ⟨_ + 2⟩ => exact absurd hhas (Array.not_mem_empty _)

theorem display_nested :
    (answer (engine 0) (.display "b")).run nested =
      .ok (.text ("⟨" ++ joinTexts "|" ["1", "⟨...⟩", "⟨...⟩", "..."] ++ "⟩"), nested) := by
  have hname : nested.host.sequences.find? "b" = some ⟨1⟩ := rfl
  obtain ⟨hrun, htexts⟩ := display_shows_entries (engine 0) hname (nested_acyclic ⟨1⟩)
  rw [hrun, (htexts _ .refl).1]
  rfl

/-- A value is cached, and then none is to be shown. -/
def concealing : List Step :=
  [.newContainer "L" [.int 1] false, .advance "L" none, .setDisplayLength 0]

/-- The world that this leads to. -/
def hidden : World host where
  tapes := #[⟨#[.ok (.int 1)], .idle (.container [])⟩]
  sequences := #[⟨some ⟨⟨0⟩, 1⟩, #[.int 1], false, false, none, []⟩]
  limit := none
  displayLength := 0
  host := { (default : Desk) with sequences := (default : Names Sequence).insert "L" ⟨0⟩ }

/-- The ellipsis is the only entry, and yet there is a bar before it. -/
theorem stray_bar_hidden :
    (∃ reports, (concealing.mapM (step (engine 3))).run start = .ok (reports, hidden)) ∧
    hidden.Acyclic ⟨0⟩ ∧ hidden.entries ⟨0⟩ = [ellipsis] ∧
    hidden.display (.list ⟨0⟩) = "⟨|...⟩" ∧
    hidden.display (.list ⟨0⟩) ≠ "⟨" ++ joinTexts "|" (hidden.entries ⟨0⟩) ++ "⟩" := by
  refine ⟨⟨_, rfl⟩, ?_, rfl, rfl, by decide⟩
  refine World.acyclic_of_descends Sequence.id (fun s t hhas => ?_) _
  match s with
  | ⟨0⟩ => exact absurd hhas (by simp [World.Has, hidden, World.sequence])
  | ⟨_ + 1⟩ => exact absurd hhas (Array.not_mem_empty _)

end Session

end MemoSeq
