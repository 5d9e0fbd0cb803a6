import GameExport.Shell.Pattern

/-! # What patterns stand for

A pattern stands for the texts that can be cut into pieces of which each is one that its item stands
for. The matcher, which tries the ends of a text for every star, accepts these texts and no others.
-/

namespace GameExport.Shell

/-- One item stands for a piece of a text. -/
inductive PatternItem.Spells : PatternItem → List Char → Prop where
  | text (piece : List Char) : Spells .anyText piece
  | char {item : PatternItem} {c : Char} (hitem : item ≠ .anyText)
      (hc : Pattern.PatternItem.accepts c item = true) : Spells item [c]

namespace Pattern

inductive Matches : Pattern → List Char → Prop where
  | nil : Matches [] []
  | cons {item : PatternItem} {p : Pattern} {piece s : List Char} (hitem : item.Spells piece)
      (hrest : Matches p s) : Matches (item :: p) (piece ++ s)

variable {p q : Pattern} {s t : List Char} {item : PatternItem} {c : Char}

@[simp] theorem matches_nil_iff : Matches [] s ↔ s = [] := by
  constructor
  · intro h
    cases h
    rfl
  · rintro rfl
    exact .nil

/-- A pattern takes a piece of the text with its first item and the rest with the others. -/
theorem matches_cons_iff :
    Matches (item :: p) s ↔ ∃ piece rest, s = piece ++ rest ∧ item.Spells piece ∧ Matches p rest := by
  constructor
  · intro h
    cases h with
    | cons hitem hrest => exact ⟨_, _, rfl, hitem, hrest⟩
  · rintro ⟨piece, rest, rfl, hitem, hrest⟩
    exact .cons hitem hrest

/-- A star stands for any start of the text. -/
theorem matches_anyText_iff : Matches (.anyText :: p) s ↔ ∃ rest, rest <:+ s ∧ Matches p rest := by
  rw [matches_cons_iff]
  constructor
  · rintro ⟨piece, rest, rfl, -, hrest⟩
    exact ⟨rest, List.suffix_append _ _, hrest⟩
  · rintro ⟨rest, ⟨piece, rfl⟩, hrest⟩
    exact ⟨piece, rest, rfl, .text piece, hrest⟩

/-- Any item but the star takes one character. -/
theorem matches_cons_cons_iff (hitem : item ≠ .anyText) :
    Matches (item :: p) (c :: s) ↔ PatternItem.accepts c item = true ∧ Matches p s := by
  rw [matches_cons_iff]
  constructor
  · rintro ⟨piece, rest, heq, hspells, hrest⟩
    cases hspells with
    | text => exact absurd rfl hitem
    | char _ hc =>
        obtain ⟨rfl, rfl⟩ := List.cons.inj heq
        exact ⟨hc, hrest⟩
  · rintro ⟨hc, hrest⟩
    exact ⟨[c], s, rfl, .char hitem hc, hrest⟩

theorem not_matches_cons_nil (hitem : item ≠ .anyText) : ¬ Matches (item :: p) [] := by
  rw [matches_cons_iff]
  rintro ⟨piece, rest, heq, hspells, -⟩
  cases hspells with
  | text => exact hitem rfl
  | char => cases heq

/-- The matcher accepts the texts that a pattern stands for. -/
theorem isMatch_iff (p : Pattern) (s : List Char) : isMatch p s = true ↔ Matches p s := by
  -- for a star the matcher looks for an end of the text that suits the rest of the pattern
  apply isMatch.induct (fun p s => isMatch p s = true ↔ Matches p s)
    (fun p s => matchFrom p s = true ↔ ∃ rest, rest <:+ s ∧ Matches p rest)
  case case1 =>
    intro s
    rw [isMatch, List.isEmpty_iff, matches_nil_iff]
  case case2 =>
    intro p s ih
    rw [isMatch, ih, matches_anyText_iff]
  case case3 =>
    intro item p c s hitem ih
    rw [isMatch, Bool.and_eq_true, ih, matches_cons_cons_iff hitem]
    exact hitem
  case case4 =>
    intro item p hitem
    rw [isMatch]
    · simp [not_matches_cons_nil hitem]
    · exact hitem
  case case5 =>
    intro p ih
    simp [matchFrom, ih]
  case case6 =>
    intro p c s ihhere ihfrom
    simp only [matchFrom, Bool.or_eq_true, ihhere, ihfrom, List.suffix_cons_iff, or_and_right,
      exists_or, exists_eq_left]

/-! ## Texts that patterns are put together from -/

/-- A pattern behind another one stands for what is left behind a text of that one. -/
theorem matches_append_iff :
    Matches (p ++ q) s ↔ ∃ a b, s = a ++ b ∧ Matches p a ∧ Matches q b := by
  induction p generalizing s with
  | nil =>
      simp only [List.nil_append, matches_nil_iff]
      constructor
      · exact fun h => ⟨[], s, rfl, rfl, h⟩
      · rintro ⟨a, b, rfl, rfl, h⟩
        exact h
  | cons item p ih =>
      simp only [List.cons_append, matches_cons_iff, ih]
      constructor
      · rintro ⟨piece, rest, rfl, hitem, a, b, rfl, ha, hb⟩
        exact ⟨piece ++ a, b, (List.append_assoc _ _ _).symm, ⟨piece, a, rfl, hitem, ha⟩, hb⟩
      · rintro ⟨_, b, rfl, ⟨piece, a, rfl, hitem, ha⟩, hb⟩
        exact ⟨piece, a ++ b, List.append_assoc _ _ _, hitem, a, b, rfl, ha, hb⟩

/-- Quoted characters stand for themselves and for nothing else. -/
theorem matches_quoted_iff :
    Matches (ofChars 0 (t.map fun c => (c, true))) s ↔ s = t := by
  induction t generalizing s with
  | nil => exact matches_nil_iff
  | cons d t ih =>
      cases s with
      | nil =>
          simp only [List.map_cons, ofChars, if_true]
          exact iff_of_false (not_matches_cons_nil (by simp)) (by simp)
      | cons c s =>
          have hitem : PatternItem.char d ≠ .anyText := by simp
          simp only [List.map_cons, ofChars, if_true]
          rw [matches_cons_cons_iff hitem, ih, PatternItem.accepts, decide_eq_true_iff,
            List.cons.injEq]

/-! ## Cutting off a start or an end -/

/-- The cuts of a text are all the ways to cut it in two. -/
theorem mem_cuts_iff {cut : List Char × List Char} : cut ∈ cuts s ↔ cut.1 ++ cut.2 = s := by
  rw [cuts, List.mem_map]
  constructor
  · rintro ⟨n, -, rfl⟩
    exact List.take_append_drop n s
  · rintro rfl
    have hlength : cut.1.length < (cut.1 ++ cut.2).length + 1 := by
      rw [List.length_append]
      omega
    exact ⟨cut.1.length, List.mem_range.mpr hlength, by simp⟩

/-- From cut to cut the front grows and the rest shrinks. -/
theorem pairwise_cuts (s : List Char) :
    (cuts s).Pairwise fun a b => a.1.length < b.1.length ∧ b.2.length < a.2.length := by
  rw [cuts, List.pairwise_map]
  refine List.pairwise_lt_range.imp_of_mem fun {m n} hm hn hlt => ?_
  rw [List.mem_range] at hm hn
  simp only [List.length_take, List.length_drop]
  omega

/-- Of the texts in question it is the longest or the shortest one. -/
structure IsChosen (longest : Bool) (inQuestion : List Char → Prop) (s : List Char) : Prop where
  self : inQuestion s
  best : ∀ a, inQuestion a → if longest then a.length ≤ s.length else s.length ≤ a.length

theorem isChosen_congr {longest : Bool} {P Q : List Char → Prop} (h : ∀ a, P a ↔ Q a) :
    IsChosen longest P s ↔ IsChosen longest Q s := by
  rw [show P = Q from funext fun a => propext (h a)]

/-- In an ordered list, the first or the last one is on one side of all the other ones. -/
theorem exists_extreme {α : Type} {R : α → α → Prop} {l : List α} (h : l.Pairwise R)
    (hne : l ≠ []) (last : Bool) :
    ∃ x ∈ l, (if last then l.getLast? else l.head?) = some x ∧
      ∀ y ∈ l, y = x ∨ if last then R y x else R x y := by
  cases last with
  | true =>
      refine ⟨l.getLast hne, List.getLast_mem hne, List.getLast?_eq_some_getLast hne, ?_⟩
      intro y hy
      rw [← List.dropLast_concat_getLast hne] at h hy
      rcases List.mem_append.mp hy with hmem | hmem
      · exact Or.inr ((List.pairwise_append.mp h).2.2 y hmem _ (List.mem_singleton_self _))
      · exact Or.inl (List.mem_singleton.mp hmem)
  | false =>
      obtain ⟨x, rest, rfl⟩ := List.exists_cons_of_ne_nil hne
      refine ⟨x, List.mem_cons_self, rfl, fun y hy => ?_⟩
      rcases List.mem_cons.mp hy with heq | hmem
      · exact Or.inl heq
      · exact Or.inr (List.rel_of_pairwise_cons h hmem)

/-- A cut with a part for which the pattern stands, if there is one, is found where that part is the
longest or the shortest one. -/
theorem exists_isChosen_cut (part : List Char × List Char → List Char) (last longest : Bool)
    (horder : (cuts s).Pairwise fun a b =>
      if last = longest then (part a).length < (part b).length
      else (part b).length < (part a).length)
    (hne : ((cuts s).filter fun cut => isMatch p (part cut)) ≠ []) :
    ∃ cut, (if last then ((cuts s).filter fun cut => isMatch p (part cut)).getLast?
        else ((cuts s).filter fun cut => isMatch p (part cut)).head?) = some cut ∧
      cut.1 ++ cut.2 = s ∧
      IsChosen longest (fun a => (∃ cut, cut.1 ++ cut.2 = s ∧ part cut = a) ∧ Matches p a)
        (part cut) := by
  obtain ⟨cut, hcut, hfound, hbest⟩ := exists_extreme (horder.filter _) hne last
  obtain ⟨hwhole, hmatch⟩ := List.mem_filter.mp hcut
  rw [mem_cuts_iff] at hwhole
  refine ⟨cut, hfound, hwhole, ⟨⟨cut, hwhole, rfl⟩, (isMatch_iff _ _).mp hmatch⟩, ?_⟩
  rintro a ⟨⟨other, hother, rfl⟩, ha⟩
  rcases hbest other (List.mem_filter.mpr ⟨mem_cuts_iff.mpr hother, (isMatch_iff _ _).mpr ha⟩)
    with rfl | hless
  · simp
  · cases last <;> cases longest <;> exact Nat.le_of_lt (by simpa using hless)

theorem not_matches_of_filter_eq_nil (part : List Char × List Char → List Char)
    (h : ((cuts s).filter fun cut => isMatch p (part cut)) = []) (cut : List Char × List Char)
    (hcut : cut.1 ++ cut.2 = s) : ¬ Matches p (part cut) := by
  intro hmatch
  rw [List.filter_eq_nil_iff] at h
  exact h cut (mem_cuts_iff.mpr hcut) ((isMatch_iff _ _).mpr hmatch)

/-- A start is cut off for which the pattern stands, the longest or the shortest one; without such
a start nothing is cut off. -/
theorem cutStart_spec (longest : Bool) (p : Pattern) (s : List Char) :
    (∃ start, s = start ++ cutStart longest p s ∧
      IsChosen longest (fun a => a <+: s ∧ Matches p a) start) ∨
    (∀ a, a <+: s → ¬ Matches p a) ∧ cutStart longest p s = s := by
  by_cases hne : ((cuts s).filter fun cut => isMatch p cut.1) = []
  · refine Or.inr ⟨?_, by cases longest <;> simp only [cutStart, hne] <;> rfl⟩
    rintro a ⟨b, hab⟩
    exact not_matches_of_filter_eq_nil Prod.fst hne (a, b) hab
  · obtain ⟨cut, hfound, hwhole, hchosen⟩ := exists_isChosen_cut Prod.fst longest longest
      ((pairwise_cuts s).imp fun h => by simpa using h.1) hne
    have hrest : cutStart longest p s = cut.2 := by simp only [cutStart, hfound]; rfl
    refine Or.inl ⟨cut.1, by rw [hrest, hwhole], (isChosen_congr fun a => ?_).mp hchosen⟩
    refine and_congr_left fun _ => ⟨?_, fun ⟨b, hb⟩ => ⟨(a, b), hb, rfl⟩⟩
    rintro ⟨other, hother, rfl⟩
    exact ⟨other.2, hother⟩

/-- An end is cut off for which the pattern stands, the longest or the shortest one; without such
an end nothing is cut off. -/
theorem cutEnd_spec (longest : Bool) (p : Pattern) (s : List Char) :
    (∃ rest, s = cutEnd longest p s ++ rest ∧
      IsChosen longest (fun b => b <:+ s ∧ Matches p b) rest) ∨
    (∀ b, b <:+ s → ¬ Matches p b) ∧ cutEnd longest p s = s := by
  by_cases hne : ((cuts s).filter fun cut => isMatch p cut.2) = []
  · refine Or.inr ⟨?_, by cases longest <;> simp only [cutEnd, hne] <;> rfl⟩
    rintro b ⟨a, hab⟩
    exact not_matches_of_filter_eq_nil Prod.snd hne (a, b) hab
  · obtain ⟨cut, hfound, hwhole, hchosen⟩ := exists_isChosen_cut Prod.snd (!longest) longest
      ((pairwise_cuts s).imp fun h => by simpa using h.2) hne
    have hrest : cutEnd longest p s = cut.1 := by
      cases longest <;> simp_all [cutEnd]
    refine Or.inl ⟨cut.2, by rw [hrest, hwhole], (isChosen_congr fun b => ?_).mp hchosen⟩
    refine and_congr_left fun _ => ⟨?_, fun ⟨a, ha⟩ => ⟨(a, b), ha, rfl⟩⟩
    rintro ⟨other, hother, rfl⟩
    exact ⟨other.1, hother⟩

end Pattern

end GameExport.Shell
