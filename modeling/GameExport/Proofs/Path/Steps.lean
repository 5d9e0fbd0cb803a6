import GameExport.Disk.Walk
import Mathlib.Data.List.Basic

/-! # The steps of composed paths

Joining paths joins their steps, whatever slashes and dots the left one has. A name that is one
step on its own stays one step at the end of any path.
-/

namespace GameExport

namespace Text

variable {α : Type} [DecidableEq α]

/-- A separator ends one part and starts the next one. -/
theorem split_append_cons (separator : α) (a b : List α) :
    split separator (a ++ separator :: b) = split separator a ++ split separator b := by
  induction a with
  | nil => simp [split]
  | cons c cs ih =>
      rw [List.cons_append, split, split]
      by_cases hc : c = separator
      · rw [if_pos hc, if_pos hc, ih, List.cons_append]
      · rw [if_neg hc, if_neg hc, ih]
        cases hs : split separator cs with
        | nil => exact absurd hs (split_ne_nil separator cs)
        | cons part parts => rfl

end Text

namespace Path

/-! ## Parts -/

section Parts

variable {α : Type} [DecidableEq α]

/-- A slash cuts a text in two. -/
theorem parts_append_cons (slash : α) (a b : List α) :
    parts slash (a ++ slash :: b) = parts slash a ++ parts slash b := by
  simp only [parts, Text.split_append_cons, List.filter_append]

theorem parts_concat_slash (slash : α) (a : List α) :
    parts slash (a ++ [slash]) = parts slash a := by
  rw [parts_append_cons]
  simp [parts, Text.split]

/-- A text without slashes is one part. -/
theorem parts_of_not_mem {slash : α} {a : List α} (hslash : slash ∉ a) (hne : a ≠ []) :
    parts slash a = [a] := by
  simp [parts, Text.split_of_not_mem hslash, hne]

/-- A part is not empty, and no slash is in it. -/
theorem mem_parts {slash : α} {a part : List α} (h : part ∈ parts slash a) :
    part ≠ [] ∧ slash ∉ part := by
  obtain ⟨hpart, hne⟩ := List.mem_filter.mp h
  exact ⟨by simpa using hne, Text.separator_not_mem_split slash hpart⟩

end Parts

/-! ## The step to the root -/

/-- No part between slashes spells the root. -/
theorem componentOf_ne_root (part : List Char) : componentOf part ≠ .root := by
  unfold componentOf
  split
  · simp
  · split <;> simp

/-- Only an absolute path has a step to the root. -/
theorem root_mem_steps (p : Path) : .root ∈ p.steps ↔ p.isAbsolute := by
  have hspelled : .root ∉ (parts '/' p.text.toList).map componentOf := by
    intro h
    obtain ⟨part, -, hpart⟩ := List.mem_map.mp h
    exact componentOf_ne_root part hpart
  rw [steps, List.mem_append, or_iff_left hspelled]
  by_cases habsolute : p.isAbsolute
  · simp [habsolute]
  · simp [habsolute]

/-! ## Names -/

/-- A text that is one step of a path and means a name: it is neither empty nor made of dots only
that mean a directory, and no slash cuts it. -/
structure IsName (s : String) : Prop where
  no_slash : '/' ∉ s.toList
  ne_empty : s ≠ ""
  ne_here : s ≠ "."
  ne_parent : s ≠ ".."

namespace IsName

variable {s : String}

theorem toList_ne_nil (h : IsName s) : s.toList ≠ [] :=
  fun hnil => h.ne_empty (String.toList_eq_nil_iff.mp hnil)

theorem not_isAbsolute (h : IsName s) : (Path.mk s).isAbsolute = false := by
  cases hs : s.toList with
  | nil => simp [isAbsolute, hs]
  | cons c cs =>
      have hc : c ≠ '/' := fun heq => h.no_slash (by simp [hs, heq])
      simp [isAbsolute, hs, hc]

theorem componentOf_eq (h : IsName s) : componentOf s.toList = .name s := by
  have hhere : s.toList ≠ ['.'] := fun heq => h.ne_here (String.toList_injective heq)
  have hparent : s.toList ≠ ['.', '.'] := fun heq => h.ne_parent (String.toList_injective heq)
  rw [componentOf, if_neg hhere, if_neg hparent, String.ofList_toList]

/-- A name is one step. -/
theorem steps_eq (h : IsName s) : (Path.mk s).steps = [.name s] := by
  simp [steps, h.not_isAbsolute, parts_of_not_mem h.no_slash h.toList_ne_nil, h.componentOf_eq]

/-- What is put behind a name keeps it one, unless it holds a slash or only dots. -/
theorem append (h : IsName s) {suffix : String} (hslash : '/' ∉ suffix.toList)
    (hlong : 2 < suffix.toList.length) : IsName (s ++ suffix) := by
  have hlength : 2 < (s ++ suffix).toList.length := by
    rw [String.toList_append, List.length_append]
    omega
  refine ⟨?_, ?_, ?_, ?_⟩
  · rw [String.toList_append, List.mem_append, not_or]
    exact ⟨h.no_slash, hslash⟩
  all_goals
    intro heq
    rw [heq] at hlength
    simp at hlength

end IsName

/-! ## Joining -/

theorem steps_of_text_eq_empty {p : Path} (h : p.text = "") : p.steps = [] := by
  simp [steps, isAbsolute, h, parts, Text.split]

/-- What is put behind a text does not make it absolute. -/
theorem isAbsolute_append {a : String} (ha : a ≠ "") (b : String) :
    (Path.mk (a ++ b)).isAbsolute = (Path.mk a).isAbsolute := by
  cases hs : a.toList with
  | nil => exact absurd (String.toList_eq_nil_iff.mp hs) ha
  | cons c cs => simp [isAbsolute, String.toList_append, hs]

theorem isAbsolute_join (p : Path) {q : Path} (hq : q.isAbsolute = false) :
    (p.join q).isAbsolute = p.isAbsolute := by
  rw [join, if_neg (by simp [hq])]
  by_cases hp : p.text = ""
  · rw [if_pos (Or.inl hp), hp, String.empty_append]
    exact hq.trans (by simp [isAbsolute, hp])
  · split
    · exact isAbsolute_append hp q.text
    · rw [String.append_assoc]
      exact isAbsolute_append hp _

theorem parts_join (p : Path) {q : Path} (hq : q.isAbsolute = false) :
    parts '/' (p.join q).text.toList = parts '/' p.text.toList ++ parts '/' q.text.toList := by
  rw [join, if_neg (by simp [hq])]
  split
  · next h =>
      rcases h with hempty | hslash
      · simp [hempty, parts, Text.split]
      · obtain ⟨front, hfront⟩ := List.getLast?_eq_some_iff.mp hslash
        rw [String.toList_append, hfront, List.append_assoc, List.singleton_append,
          parts_append_cons, parts_concat_slash]
  · rw [String.toList_append, String.toList_append, List.append_assoc]
    exact parts_append_cons '/' _ _

/-- The steps of a path behind another one follow the steps of that one. -/
theorem steps_join (p : Path) {q : Path} (hq : q.isAbsolute = false) :
    (p.join q).steps = p.steps ++ q.steps := by
  rw [steps, steps, steps, parts_join p hq, isAbsolute_join p hq, List.map_append,
    List.append_assoc, hq]
  rfl

theorem text_join_ne_empty {p q : Path} (hq : q.text ≠ "") : (p.join q).text ≠ "" := by
  rw [join]
  split
  · exact hq
  · split <;> simp [hq]

/-- What joining puts between a path and the relative one behind it. -/
def gap (p : Path) : String :=
  if p.text = "" ∨ p.text.toList.getLast? = some '/' then "" else "/"

/-- A relative path is joined behind what may be a slash. -/
theorem join_eq (p : Path) {q : Path} (hq : q.isAbsolute = false) :
    p.join q = ⟨p.text ++ p.gap ++ q.text⟩ := by
  rw [join, if_neg (by simp [hq]), gap]
  split
  · rw [String.append_empty]
  · rfl

theorem gap_join (p : Path) {q : Path} (hq : q.isAbsolute = false) (hne : q.text ≠ "") :
    (p.join q).gap = q.gap := by
  have hlast : (p.text ++ p.gap ++ q.text).toList.getLast? = q.text.toList.getLast? := by
    rw [String.toList_append]
    exact List.getLast?_append_of_ne_nil _ fun h => hne (String.toList_eq_nil_iff.mp h)
  rw [join_eq p hq]
  unfold gap at hlast ⊢
  rw [hlast]
  simp [hne]

/-- A joined path ends as the right one does, or else as the left one with its gap. -/
theorem endsInSlash_join (p : Path) {q : Path} (hq : q.isAbsolute = false) :
    (p.join q).endsInSlash = if q.text = "" then !decide (p.text = "") else q.endsInSlash := by
  rw [join_eq p hq]
  unfold endsInSlash
  split
  · next hempty =>
      rw [hempty, String.append_empty, String.toList_append, List.getLast?_append, gap]
      by_cases hp : p.text = ""
      · simp [hp]
      · by_cases hslash : p.text.toList.getLast? = some '/'
        · simp [hp, hslash]
        · simp [hp, hslash]
  · next hne =>
      rw [String.toList_append,
        List.getLast?_append_of_ne_nil _ fun h => hne (String.toList_eq_nil_iff.mp h)]

/-- A name does not end in a slash. -/
theorem endsInSlash_join_name (p : Path) {n : String} (hn : IsName n) :
    (p.join ⟨n⟩).endsInSlash = false := by
  rw [endsInSlash_join p hn.not_isAbsolute, if_neg hn.ne_empty, endsInSlash,
    decide_eq_false_iff_not]
  exact fun hlast => hn.no_slash (List.mem_of_getLast? hlast)

/-- A relative path may be joined before or after it gets something behind it. -/
theorem join_assoc (p : Path) {q r : Path} (hq : q.isAbsolute = false) (hne : q.text ≠ "")
    (hr : r.isAbsolute = false) : p.join (q.join r) = (p.join q).join r := by
  have hjoined : (q.join r).isAbsolute = false := by rw [isAbsolute_join q hr, hq]
  rw [join_eq p hjoined, join_eq (p.join q) hr, gap_join p hq hne, join_eq q hr, join_eq p hq]
  simp only [String.append_assoc]

/-! ## Going down by names -/

def descend (p : Path) (names : List String) : Path := names.foldl (fun q n => q.join ⟨n⟩) p

@[simp] theorem descend_nil (p : Path) : p.descend [] = p := rfl

@[simp] theorem descend_cons (p : Path) (n : String) (names : List String) :
    p.descend (n :: names) = (p.join ⟨n⟩).descend names := rfl

theorem descend_append (p : Path) (names more : List String) :
    p.descend (names ++ more) = (p.descend names).descend more := List.foldl_append

theorem steps_descend (p : Path) {names : List String} (h : ∀ n ∈ names, IsName n) :
    (p.descend names).steps = p.steps ++ names.map .name := by
  induction names generalizing p with
  | nil => simp
  | cons n names ih =>
      have hn := h n List.mem_cons_self
      rw [descend_cons, ih _ fun m hm => h m (List.mem_cons_of_mem n hm),
        steps_join p hn.not_isAbsolute, hn.steps_eq, List.append_assoc, List.map_cons,
        List.singleton_append]

theorem isAbsolute_descend (p : Path) {names : List String} (h : ∀ n ∈ names, IsName n) :
    (p.descend names).isAbsolute = p.isAbsolute := by
  rw [Bool.eq_iff_iff, ← root_mem_steps, ← root_mem_steps, steps_descend p h]
  simp

/-- Names below a relative path lead to the same path after that path is joined. -/
theorem join_descend (p : Path) {q : Path} (hq : q.isAbsolute = false) (hne : q.text ≠ "")
    {names : List String} (h : ∀ n ∈ names, IsName n) :
    p.join (q.descend names) = (p.join q).descend names := by
  induction names generalizing q with
  | nil => rfl
  | cons n names ih =>
      have hn := h n List.mem_cons_self
      rw [descend_cons, descend_cons, ← join_assoc p hq hne hn.not_isAbsolute]
      apply ih
      · rw [isAbsolute_join q hn.not_isAbsolute, hq]
      · exact text_join_ne_empty hn.ne_empty
      · exact fun m hm => h m (List.mem_cons_of_mem n hm)

/-- A suffix belongs to the name at the end of a path. -/
theorem withSuffix_join_name (p : Path) {n suffix : String} (h : IsName n)
    (hs : IsName (n ++ suffix)) :
    (p.join ⟨n⟩).withSuffix suffix = p.join ⟨n ++ suffix⟩ := by
  rw [join_eq p h.not_isAbsolute, join_eq p hs.not_isAbsolute, withSuffix]
  simp only [String.append_assoc]

end Path

end GameExport
