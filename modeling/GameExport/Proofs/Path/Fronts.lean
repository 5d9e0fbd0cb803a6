import GameExport.Proofs.Path.Descent
import Mathlib.Data.List.Flatten

/-! # Fronts of a path

The first components of a path spell a path of their own. It is never longer than the path that they
are taken from, and its steps visit no other locations.
-/

namespace GameExport

open scoped List

/-! ## The text of a front -/

namespace Text

/-- A text with a separator in front is its parts, each with a separator in front. -/
theorem cons_eq_flatMap_split {α : Type} [DecidableEq α] (separator : α) (s : List α) :
    separator :: s = (split separator s).flatMap (separator :: ·) := by
  induction s with
  | nil => rfl
  | cons c cs ih =>
      unfold split
      split
      · next h =>
          rw [h, ih]
          rfl
      · cases hs : split separator cs with
        | nil => exact absurd hs (split_ne_nil separator cs)
        | cons first rest =>
            rw [hs, List.flatMap_cons] at ih
            rw [List.flatMap_cons]
            simpa using ih

end Text

namespace Path

theorem text_componentOf (part : List Char) : (componentOf part).text.toList = part := by
  unfold componentOf
  split
  · next h => rw [h]; rfl
  · split
    · next h => rw [h]; rfl
    · exact String.toList_ofList

/-- A path puts at most one slash before what is joined to it. -/
theorem sublist_join (p q : Path) :
    (p.join q).text.toList <+ p.text.toList ++ '/' :: q.text.toList := by
  unfold join
  split
  · exact (List.sublist_cons_self _ _).trans (List.sublist_append_right _ _)
  · split
    · rw [String.toList_append]
      exact (List.sublist_cons_self _ _).append_left _
    · simp [String.toList_append]

def slashed (cs : List Component) : List Char := cs.flatMap fun c => '/' :: c.text.toList

/-- Joined components keep the characters in order. -/
theorem sublist_foldl_join (p : Path) (cs : List Component) :
    (cs.foldl (fun q c => q.join ⟨c.text⟩) p).text.toList <+ p.text.toList ++ slashed cs := by
  induction cs generalizing p with
  | nil => simp [slashed]
  | cons c cs ih =>
      have hjoin := (sublist_join p ⟨c.text⟩).append_right (slashed cs)
      rw [List.append_assoc] at hjoin
      exact (ih (p.join ⟨c.text⟩)).trans hjoin

/-- A path that is made of components has no characters that these have not. -/
theorem sublist_ofComponents {cs : List Component} {s : List Char} (h : slashed cs <+ '/' :: s) :
    (ofComponents cs).text.toList <+ s := by
  cases cs with
  | nil => exact List.nil_sublist s
  | cons c cs => exact (sublist_foldl_join ⟨c.text⟩ cs).trans (List.cons_sublist_cons.mp h)

/-- The root has its slash already. -/
theorem sublist_ofComponents_root {cs : List Component} {s : List Char}
    (h : slashed cs <+ '/' :: s) : (ofComponents (.root :: cs)).text.toList <+ '/' :: s := by
  cases cs with
  | nil => exact (List.nil_sublist s).cons_cons '/'
  | cons c cs =>
      have hfirst : ((Path.mk "/").join ⟨c.text⟩).text.toList <+ '/' :: c.text.toList := by
        unfold join
        split
        · exact List.sublist_cons_self _ _
        · rw [if_pos (Or.inr (by decide)), String.toList_append]
          exact List.Sublist.refl _
      have hrest := sublist_foldl_join ((Path.mk "/").join ⟨c.text⟩) cs
      exact (hrest.trans (hfirst.append_right (slashed cs))).trans h

/-- Components are parts between slashes, behind the root if there is one. -/
theorem exists_components_eq (p : Path) : ∃ ps, ps <+ parts '/' p.text.toList ∧
    p.components = (if p.isAbsolute then [.root] else []) ++ ps.map componentOf := by
  unfold components
  generalize parts '/' p.text.toList = ps
  by_cases habsolute : p.isAbsolute
  · refine ⟨ps.filter (· ≠ ['.']), List.filter_sublist, ?_⟩
    simp only [habsolute, if_true, List.singleton_append]
  · simp only [habsolute, Bool.false_eq_true, if_false, List.nil_append]
    cases ps with
    | nil => exact ⟨[], List.Sublist.refl _, rfl⟩
    | cons first rest =>
        by_cases hfirst : first = ['.']
        · refine ⟨first :: rest.filter (· ≠ ['.']), List.filter_sublist.cons_cons _, ?_⟩
          simp only [List.map_cons, hfirst]
          rfl
        · refine ⟨(first :: rest).filter (· ≠ ['.']), List.filter_sublist, ?_⟩
          simp only [if_neg hfirst]

/-- An absolute path starts with the root, and no other component is the root. -/
theorem components_of_isAbsolute {p : Path} (h : p.isAbsolute) :
    ∃ cs, p.components = .root :: cs := by
  obtain ⟨ps, -, hcomponents⟩ := exists_components_eq p
  rw [if_pos h, List.singleton_append] at hcomponents
  exact ⟨_, hcomponents⟩

/-- Only the first component of an absolute path is the root. -/
theorem getElem_components_ne_root {p : Path} {k : Nat} (hk : k < p.components.length)
    (h : ¬ (p.isAbsolute ∧ k = 0)) : p.components[k] ≠ .root := by
  intro heq
  obtain ⟨ps, -, hcomponents⟩ := exists_components_eq p
  have hspelled (i : Nat) : (ps.map componentOf)[i]? ≠ some .root := by
    intro hroot
    obtain ⟨part, -, hpart⟩ := List.mem_map.mp (List.mem_of_getElem? hroot)
    exact componentOf_ne_root part hpart
  have hget : p.components[k]? = some .root := by rw [List.getElem?_eq_getElem hk, heq]
  rw [hcomponents] at hget
  split at hget
  · next habsolute =>
      cases k with
      | zero => exact h ⟨habsolute, rfl⟩
      | succ k => exact hspelled k hget
  · exact hspelled k hget

/-- Some of the parts of a text, with a slash before each of them, are not longer than the text. -/
theorem slashed_sublist {ps : List (List Char)} {s : List Char} (h : ps <+ Text.split '/' s) :
    slashed (ps.map componentOf) <+ '/' :: s := by
  simp only [slashed, List.flatMap_map, text_componentOf]
  rw [Text.cons_eq_flatMap_split]
  exact h.flatMap _

/-- Components that are taken from the front of a path spell a path that is not longer. -/
theorem sublist_ofComponents_take (p : Path) (k : Nat) :
    (ofComponents (p.components.take k)).text.toList <+ p.text.toList := by
  obtain ⟨ps, hps, hcomponents⟩ := exists_components_eq p
  have htake (n : Nat) : ps.take n <+ parts '/' p.text.toList := (List.take_sublist n ps).trans hps
  rw [hcomponents]
  by_cases habsolute : p.isAbsolute
  · obtain ⟨s, hs⟩ : ∃ s, p.text.toList = '/' :: s := by
      rw [isAbsolute, decide_eq_true_iff, List.head?_eq_some_iff] at habsolute
      exact habsolute
    rw [if_pos habsolute, List.singleton_append, hs]
    cases k with
    | zero => exact List.nil_sublist _
    | succ k =>
        -- the part before the first slash is empty and no part of the path
        have hparts := htake k
        rw [hs, parts, Text.split, if_pos rfl, List.filter_cons_of_neg (by simp)] at hparts
        rw [List.take_succ_cons, ← List.map_take]
        exact sublist_ofComponents_root (slashed_sublist (hparts.trans List.filter_sublist))
  · rw [if_neg habsolute, List.nil_append, ← List.map_take]
    exact sublist_ofComponents (slashed_sublist ((htake k).trans List.filter_sublist))

/-- A text with some characters left out is not longer. -/
theorem utf8ByteSize_le_of_sublist {a b : List Char} (h : a <+ b) :
    (String.ofList a).utf8ByteSize ≤ (String.ofList b).utf8ByteSize := by
  induction h with
  | slnil => exact Nat.le_refl _
  | cons c h ih =>
      rw [String.ofList_cons, String.utf8ByteSize_append]
      omega
  | cons_cons c h ih =>
      rw [String.ofList_cons, String.ofList_cons, String.utf8ByteSize_append,
        String.utf8ByteSize_append]
      omega

/-- A path that is a part of one that is accepted is accepted itself, unless it is empty. -/
theorem refusal_of_sublist {p q : Path} (h : q.text.toList <+ p.text.toList) (hne : q.text ≠ "")
    (hp : p.refusal = none) : q.refusal = none := by
  have hsize := utf8ByteSize_le_of_sublist h
  rw [String.ofList_toList, String.ofList_toList] at hsize
  unfold refusal at hp ⊢
  split at hp
  · cases hp
  next hzero =>
    split at hp
    · cases hp
    split at hp
    · cases hp
    next hlong =>
      rw [if_neg fun hmem => hzero (h.subset hmem), if_neg hne, if_neg (by omega)]

theorem head?_steps (p : Path) : p.steps.head? = some .root ↔ p.isAbsolute := by
  constructor
  · intro h
    exact (root_mem_steps p).mp (List.mem_of_head? h)
  · intro h
    rw [steps, if_pos h]
    rfl

end Path

/-! ## Steps that stay where they are -/

namespace Path.Component

/-- Steps that stay where they are visit at most the start once more. -/
theorem way_subset_filter (l : Location) (cs : List Component) :
    way l cs ⊆ l :: way l (cs.filter (· ≠ .here)) := by
  induction cs generalizing l with
  | nil => exact List.nil_subset _
  | cons c cs ih =>
      intro m hm
      rw [way, List.mem_cons] at hm
      by_cases hc : c = .here
      · subst hc
        rw [List.filter_cons_of_neg (by simp)]
        exact hm.elim (fun heq => by rw [heq]; exact List.mem_cons_self) fun hm => ih l hm
      · rw [List.filter_cons_of_pos (by simpa using hc), way]
        apply List.mem_cons_of_mem
        rcases hm with heq | hm
        · rw [heq]
          exact List.mem_cons_self
        · exact ih _ hm

/-- Behind the first step, steps that stay where they are visit nothing new. -/
theorem forall_mem_way_of_filter {P : Location → Prop} {l : Location} {c : Component}
    {cs : List Component} (h : ∀ m ∈ way l (c :: cs.filter (· ≠ .here)), P m) :
    ∀ m ∈ way l (c :: cs), P m := by
  rw [way, List.forall_mem_cons] at h ⊢
  obtain ⟨hfirst, hrest⟩ := h
  refine ⟨hfirst, fun m hm => ?_⟩
  rcases List.mem_cons.mp (way_subset_filter _ cs hm) with rfl | hm
  · exact hfirst
  · exact hrest m hm

end Path.Component

end GameExport
