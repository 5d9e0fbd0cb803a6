import GameExport.Proofs.Path.Descent
import Mathlib.Data.List.Forall2
import Mathlib.Logic.Equiv.Defs

/-! # Folders under other names

Some folders of one directory trade their names. Whatever is not in such a folder keeps its
location, and a path that leads through one is turned into another path by putting the new name in
the place of the old one. As long as the new names are as long as the old ones, no system takes the
one path and refuses the other.
-/

namespace GameExport

namespace Path

/-! ## Paths that are taken alike -/

/-- What matters of two texts before they are followed as paths is the same. -/
structure Alike (p q : Path) : Prop where
  size : p.text.utf8ByteSize = q.text.utf8ByteSize
  zero : '\x00' ∈ p.text.toList ↔ '\x00' ∈ q.text.toList
  isAbsolute : p.isAbsolute = q.isAbsolute
  endsInSlash : p.endsInSlash = q.endsInSlash

namespace Alike

variable {p q r s : Path}

theorem refl (p : Path) : Alike p p := ⟨rfl, Iff.rfl, rfl, rfl⟩

theorem empty_iff (h : Alike p q) : p.text = "" ↔ q.text = "" := by
  rw [← String.utf8ByteSize_eq_zero_iff, ← String.utf8ByteSize_eq_zero_iff, h.size]

theorem refusal_eq (h : Alike p q) : p.refusal = q.refusal := by
  unfold refusal
  simp only [h.zero, h.empty_iff, h.size]

/-- Paths that are taken alike get the same slash before what is joined to them. -/
theorem gap_eq (h : Alike p q) : p.gap = q.gap := by
  have hslash : p.text.toList.getLast? = some '/' ↔ q.text.toList.getLast? = some '/' :=
    decide_eq_decide.mp h.endsInSlash
  unfold gap
  simp only [h.empty_iff, hslash]

end Alike

theorem Alike.join {p q r s : Path} (h : Alike p q) (k : Alike r s) :
    Alike (p.join r) (q.join s) := by
  by_cases habsolute : r.isAbsolute
  · rw [Path.join, if_pos habsolute, Path.join, if_pos (k.isAbsolute ▸ habsolute)]
    exact k
  · have hr : r.isAbsolute = false := by simpa using habsolute
    have hs : s.isAbsolute = false := by rw [← k.isAbsolute, hr]
    refine ⟨?_, ?_, ?_, ?_⟩
    · rw [join_eq p hr, join_eq q hs]
      simp only [String.utf8ByteSize_append, h.size, k.size, h.gap_eq]
    · rw [join_eq p hr, join_eq q hs]
      simp only [String.toList_append, List.mem_append, h.zero, k.zero, h.gap_eq]
    · rw [isAbsolute_join p hr, isAbsolute_join q hs, h.isAbsolute]
    · rw [endsInSlash_join p hr, endsInSlash_join q hs, k.endsInSlash]
      simp only [h.empty_iff, k.empty_iff]

theorem Alike.ofComponents {cs ds : List Component}
    (h : List.Forall₂ (fun c d => Alike ⟨c.text⟩ ⟨d.text⟩) cs ds) :
    Alike (ofComponents cs) (ofComponents ds) := by
  cases h with
  | nil => exact .refl _
  | @cons c d cs ds hfirst hrest =>
      have hfold (p q : Path) (hpq : Alike p q) :
          Alike (cs.foldl (fun p c => p.join ⟨c.text⟩) p)
            (ds.foldl (fun p c => p.join ⟨c.text⟩) q) := by
        induction hrest generalizing p q with
        | nil => exact hpq
        | cons hc _ ih => exact ih _ _ (hpq.join hc)
      exact hfold _ _ hfirst

end Path

open GameExport.Path

/-! ## Renamings -/

/-- Names that folders of one directory get in the place of their own. Relative paths start at home,
which is in no folder that gets another name. -/
structure Renaming where
  base : Location
  home : Location
  names : Equiv.Perm String
  alike : ∀ n, Alike ⟨n⟩ ⟨names n⟩
  stays : ∀ n, n :: base <:+ home → names n = n

namespace Renaming

variable (ρ : Renaming)

def name (l : Location) (n : String) : String := if l = ρ.base then ρ.names n else n

def location : Location → Location
  | [] => []
  | n :: l => ρ.name l n :: location l

def component (l : Location) : Component → Component
  | .root => .root
  | .here => .here
  | .up => .up
  | .name n => .name (ρ.name l n)

/-- Steps from a location, with the new names wherever they are taken from the directory. -/
def components (l : Location) : List Component → List Component
  | [] => []
  | c :: cs => ρ.component l c :: components (c.follow l) cs

variable {l m : Location} {c : Component} {cs : List Component} {n : String}

theorem name_base (n : String) : ρ.name ρ.base n = ρ.names n := if_pos rfl

theorem name_of_ne (h : l ≠ ρ.base) (n : String) : ρ.name l n = n := if_neg h

theorem alike_name (l : Location) (n : String) : Alike ⟨n⟩ ⟨ρ.name l n⟩ := by
  unfold name
  split
  · exact ρ.alike n
  · exact .refl _

/-! ### Locations -/

theorem location_tail (l : Location) : ρ.location l.tail = (ρ.location l).tail := by
  cases l <;> rfl

/-- A renamed location is as deep as before. -/
theorem length_location (l : Location) : (ρ.location l).length = l.length := by
  induction l with
  | nil => rfl
  | cons n l ih => rw [location, List.length_cons, List.length_cons, ih]

/-- Different locations stay different. -/
theorem location_injective : Function.Injective ρ.location := by
  intro l m h
  induction l generalizing m with
  | nil =>
      have hlength := congrArg List.length h
      rw [length_location, length_location] at hlength
      exact (List.length_eq_zero_iff.mp hlength.symm).symm
  | cons n l ih =>
      cases m with
      | nil => cases h
      | cons k m =>
          obtain ⟨hname, hrest⟩ := List.cons.inj h
          obtain rfl := ih hrest
          unfold name at hname
          split at hname
          · rw [ρ.names.injective hname]
          · rw [hname]

theorem location_eq_iff : ρ.location l = ρ.location m ↔ l = m := ρ.location_injective.eq_iff

/-- What is in no folder that gets another name stays where it is. -/
theorem location_eq_self (h : ∀ n, n :: ρ.base <:+ l → ρ.names n = n) : ρ.location l = l := by
  induction l with
  | nil => rfl
  | cons n l ih =>
      rw [location, ih fun k hk => h k (hk.trans (List.suffix_cons n l))]
      unfold name
      split
      · next hbase => rw [h n (hbase ▸ List.suffix_rfl)]
      · rfl

/-- What is not below the directory stays where it is. -/
theorem location_of_not_below (h : ¬ ρ.base <:+ l) : ρ.location l = l :=
  ρ.location_eq_self fun _ hn => absurd ((List.suffix_cons _ _).trans hn) h

theorem location_base : ρ.location ρ.base = ρ.base := by
  apply ρ.location_eq_self
  intro n hn
  have hlength := hn.length_le
  rw [List.length_cons] at hlength
  omega

/-- Relative paths start where they started. -/
theorem location_home : ρ.location ρ.home = ρ.home := ρ.location_eq_self ρ.stays

/-- What is in a directory is in it after both have been moved. -/
theorem location_suffix (h : m <:+ l) : ρ.location m <:+ ρ.location l := by
  obtain ⟨front, rfl⟩ := h
  induction front with
  | nil => exact List.suffix_rfl
  | cons n front ih => exact ih.trans (List.suffix_cons _ _)

theorem base_suffix_location (h : ρ.base <:+ l) : ρ.base <:+ ρ.location l := by
  have hmoved := ρ.location_suffix h
  rwa [location_base] at hmoved

/-- What is in a folder of the directory is in the folder with the new name. -/
theorem folder_suffix_location (h : n :: ρ.base <:+ l) :
    ρ.names n :: ρ.base <:+ ρ.location l := by
  have hmoved := ρ.location_suffix h
  rwa [location, name_base, location_base] at hmoved

/-! ### Steps -/

theorem components_append (l : Location) (cs ds : List Component) :
    ρ.components l (cs ++ ds) =
      ρ.components l cs ++ ρ.components (Component.place l cs) ds := by
  induction cs generalizing l with
  | nil => rfl
  | cons c cs ih =>
      rw [List.cons_append, components, components, ih, Component.place_cons, List.cons_append]

theorem length_components (l : Location) (cs : List Component) :
    (ρ.components l cs).length = cs.length := by
  induction cs generalizing l with
  | nil => rfl
  | cons c cs ih => rw [components, List.length_cons, List.length_cons, ih]

theorem components_take (l : Location) (cs : List Component) (k : Nat) :
    ρ.components l (cs.take k) = (ρ.components l cs).take k := by
  induction cs generalizing l k with
  | nil => simp [components]
  | cons c cs ih =>
      cases k with
      | zero => rfl
      | succ k => rw [List.take_succ_cons, components, components, List.take_succ_cons, ih]

theorem dropLast_components (l : Location) (cs : List Component) :
    (ρ.components l cs).dropLast = ρ.components l cs.dropLast := by
  rw [List.dropLast_eq_take, List.dropLast_eq_take, components_take, length_components]

/-- The last step is renamed by where it is taken from. -/
theorem getLast?_components (l : Location) (cs : List Component) :
    (ρ.components l cs).getLast? =
      cs.getLast?.map (ρ.component (Component.place l cs.dropLast)) := by
  rcases List.eq_nil_or_concat cs with rfl | ⟨front, last, rfl⟩
  · rfl
  · rw [List.concat_eq_append, components_append, List.dropLast_concat, List.getLast?_concat]
    exact List.getLast?_concat

theorem component_eq_here_iff : ρ.component l c = .here ↔ c = .here := by
  cases c <;> simp [component]

theorem component_eq_root_iff : ρ.component l c = .root ↔ c = .root := by
  cases c <;> simp [component]

/-- Dots that say nothing may be left out before or after renaming. -/
theorem components_filter_here (l : Location) (cs : List Component) :
    ρ.components l (cs.filter (· ≠ .here)) = (ρ.components l cs).filter (· ≠ .here) := by
  induction cs generalizing l with
  | nil => rfl
  | cons c cs ih =>
      by_cases hc : c = .here
      · subst hc
        rw [List.filter_cons_of_neg (by simp), components, component,
          List.filter_cons_of_neg (by simp)]
        exact ih l
      · rw [List.filter_cons_of_pos (by simpa using hc), components, components,
          List.filter_cons_of_pos (by simpa [component_eq_here_iff] using hc), ih]

/-- Steps that take no name from the directory, or only names that stay, remain as they are. -/
theorem components_eq_self
    (h : ∀ before n after, cs = before ++ .name n :: after →
      ρ.name (Component.place l before) n = n) : ρ.components l cs = cs := by
  induction cs generalizing l with
  | nil => rfl
  | cons c cs ih =>
      have hrest : ρ.components (c.follow l) cs = cs := by
        apply ih
        intro before n after hcs
        exact h (c :: before) n after (by rw [hcs]; rfl)
      rw [components, hrest]
      cases c with
      | name n => rw [component, show ρ.name l n = n from h [] n cs rfl]
      | _ => rfl

theorem alike_component (l : Location) (c : Component) :
    Alike ⟨c.text⟩ ⟨(ρ.component l c).text⟩ := by
  cases c with
  | name n => exact ρ.alike_name l n
  | _ => exact .refl _

theorem alike_components (l : Location) (cs : List Component) :
    List.Forall₂ (fun c d => Alike ⟨c.text⟩ ⟨Component.text d⟩) cs (ρ.components l cs) := by
  induction cs generalizing l with
  | nil => exact .nil
  | cons c cs ih => exact .cons (ρ.alike_component l c) (ih _)

/-! ### Paths -/

/-- The second path is the first one with the new names. -/
structure RenamesPath (p q : Path) : Prop where
  alike : Alike p q
  steps : q.steps = ρ.components ρ.home p.steps

variable {ρ}

namespace RenamesPath

variable {p q r s : Path}

/-- A path that visits only what stays where it is stays as it is. -/
theorem of_way (h : ∀ m ∈ p.way ρ.home, ρ.location m = m) : ρ.RenamesPath p p where
  alike := .refl p
  steps := by
    symm
    apply ρ.components_eq_self
    intro before n after hsteps
    have hnext : n :: Component.place ρ.home before ∈ p.way ρ.home := by
      refine Component.mem_way_iff.mpr ⟨before ++ [.name n], after, by simp [hsteps], by simp, ?_⟩
      rw [Component.place_append]
      rfl
    exact (List.cons.inj (h _ hnext)).1

/-- A path that leads neither into the directory nor back out of it stays as it is. -/
theorem of_not_below (hclimb : .up ∉ p.steps) (h : ¬ ρ.base <:+ p.place ρ.home) :
    ρ.RenamesPath p p := by
  refine of_way fun m hm => ρ.location_of_not_below fun hbelow => ?_
  exact h (hbelow.trans (suffix_place_of_mem_way hclimb hm))

/-- Paths that correspond stay so when corresponding paths are joined to them. -/
theorem join (h : ρ.RenamesPath p q) (hr : r.isAbsolute = false) (halike : Alike r s)
    (hsteps : s.steps = ρ.components (p.place ρ.home) r.steps) :
    ρ.RenamesPath (p.join r) (q.join s) where
  alike := h.alike.join halike
  steps := by
    rw [steps_join p hr, steps_join q (halike.isAbsolute ▸ hr), h.steps, hsteps,
      components_append, Path.place]

theorem components_eq (h : ρ.RenamesPath p q) :
    q.components = ρ.components ρ.home p.components := by
  rw [Path.components_eq, Path.components_eq, h.steps]
  cases p.steps with
  | nil => rfl
  | cons c cs => rw [components, components, components_filter_here]

/-- The first components of both paths make such paths as well. -/
theorem ofComponents_take (h : ρ.RenamesPath p q) (k : Nat) :
    ρ.RenamesPath (ofComponents (p.components.take k)) (ofComponents (q.components.take k)) := by
  refine ⟨?_, ?_⟩
  · rw [h.components_eq, ← components_take]
    exact .ofComponents (ρ.alike_components _ _)
  · rw [steps_ofComponents_take, steps_ofComponents_take, components_take, h.components_eq]

/-- The directories around corresponding paths correspond. -/
theorem around (h : ρ.RenamesPath p q) :
    List.Forall₂ ρ.RenamesPath p.around q.around := by
  unfold Path.around
  dsimp only
  rw [h.components_eq, length_components, ← h.components_eq, List.forall₂_map_left_iff,
    List.forall₂_map_right_iff, List.forall₂_same]
  intro i _
  exact h.ofComponents_take _

/-- Without their last components both paths are such paths, unless neither has one. -/
theorem parent (h : ρ.RenamesPath p q) :
    (p.parent = none ∧ q.parent = none) ∨
      ∃ p' q', p.parent = some p' ∧ q.parent = some q' ∧ ρ.RenamesPath p' q' := by
  have hq := h.components_eq
  have hnone : (q.components = [] ∨ q.components = [.root]) ↔
      (p.components = [] ∨ p.components = [.root]) := by
    have hnil (k : Location) (cs : List Component) : ρ.components k cs = [] ↔ cs = [] := by
      rw [← List.length_eq_zero_iff, length_components, List.length_eq_zero_iff]
    rw [hq, hnil]
    cases p.components with
    | nil => simp
    | cons c cs =>
        rw [components, List.cons.injEq, List.cons.injEq, component_eq_root_iff, hnil]
  by_cases hp : p.components = [] ∨ p.components = [.root]
  · exact Or.inl ⟨by rw [parent_eq, if_pos hp], by rw [parent_eq, if_pos (hnone.mpr hp)]⟩
  · refine Or.inr ⟨_, _, by rw [parent_eq, if_neg hp], ?_, h.ofComponents_take _⟩
    rw [parent_eq, if_neg (hnone.not.mpr hp), hq, length_components]

end RenamesPath

end Renaming

end GameExport
