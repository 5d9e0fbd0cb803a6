import GameExport.Proofs.Disk.Walk

/-! # Paths that only go down

The components of a path leave out dots, which lead nowhere, so a path and its components lead to
the same place. A path that never climbs leads down to its place, and the paths around it end
before they get there.
-/

namespace GameExport.Path

namespace Component

/-- Steps that stay where they are may be left out. -/
theorem place_filter_here (l : Location) (cs : List Component) :
    place l (cs.filter (· ≠ .here)) = place l cs := by
  induction cs generalizing l with
  | nil => rfl
  | cons c cs ih =>
      by_cases hc : c = .here
      · subst hc
        rw [List.filter_cons_of_neg (by simp), place_cons]
        exact ih l
      · rw [List.filter_cons_of_pos (by simpa using hc), place_cons, place_cons, ih]

/-- Steps that neither climb nor start anew end where they started or below it. -/
theorem suffix_place {l : Location} {cs : List Component} (hup : .up ∉ cs) (hroot : .root ∉ cs) :
    l <:+ place l cs := by
  by_contra hend
  have hspelled : ∀ c ∈ cs, c ≠ .root := by
    intro c hc heq
    subst heq
    exact hroot hc
  obtain ⟨before, after, rfl, -⟩ := exists_up hspelled List.suffix_rfl hend
  simp at hup

/-- With a name among them they end below it. -/
theorem place_ne_of_name {l : Location} {cs : List Component} {n : String} (hup : .up ∉ cs)
    (hroot : .root ∉ cs) (hn : .name n ∈ cs) : place l cs ≠ l := by
  obtain ⟨before, after, rfl⟩ := List.append_of_mem hn
  simp only [List.mem_append, List.mem_cons, not_or] at hup hroot
  have hbefore : l <:+ place l before := suffix_place hup.1 hroot.1
  have hafter : n :: place l before <:+ place (n :: place l before) after :=
    suffix_place hup.2.2 hroot.2.2
  intro heq
  rw [place_append, place_cons] at heq
  have hlength := hbefore.length_le
  have hlength' := hafter.length_le
  rw [show follow (place l before) (.name n) = n :: place l before from rfl] at heq
  rw [heq, List.length_cons] at hlength'
  omega

end Component

variable {p q : Path} {l m : Location}

/-! ## Components and steps -/

/-- The components of a path are its steps without the dots behind the first one. -/
theorem components_eq (p : Path) :
    p.components =
      match p.steps with
      | [] => []
      | c :: cs => c :: cs.filter (· ≠ .here) := by
  unfold components steps
  generalize parts '/' p.text.toList = ps
  by_cases habs : p.isAbsolute
  · simp only [habs, if_true, map_componentOf_filter, List.singleton_append]
  · simp only [habs, Bool.false_eq_true, if_false, List.nil_append]
    cases ps with
    | nil => rfl
    | cons first rest =>
        by_cases hfirst : first = ['.']
        · have hhere : componentOf first = .here := by rw [hfirst]; rfl
          simp only [if_pos hfirst, map_componentOf_filter, List.map_cons, hhere]
        · have hhere : componentOf first ≠ .here := by
            unfold componentOf
            rw [if_neg hfirst]
            split <;> simp
          simp only [if_neg hfirst, map_componentOf_filter, List.map_cons]
          rw [List.filter_cons_of_pos (by simpa using hhere)]

/-- Components and steps differ in dots only. -/
theorem filter_components (p : Path) :
    p.components.filter (· ≠ .here) = p.steps.filter (· ≠ .here) := by
  rw [components_eq]
  cases p.steps with
  | nil => rfl
  | cons c cs => simp [List.filter_cons, List.filter_filter]

/-- The components are the steps without the dots that say nothing. -/
theorem mem_components {c : Component} (hc : c ≠ .here) : c ∈ p.components ↔ c ∈ p.steps := by
  have hfilter : c ∈ p.components.filter (· ≠ .here) ↔ c ∈ p.steps.filter (· ≠ .here) := by
    rw [filter_components]
  simpa [List.mem_filter, hc] using hfilter

/-- Dots that say nothing lead nowhere else. -/
theorem place_components (p : Path) (l : Location) :
    Component.place l p.components = p.place l := by
  rw [← Component.place_filter_here, filter_components, Component.place_filter_here, place]

/-- Only the first component of a path can be a dot. -/
theorem here_not_mem_tail {c : Component} {cs : List Component} (h : p.components = c :: cs) :
    .here ∉ cs := by
  rw [components_eq] at h
  split at h
  · cases h
  · rw [← (List.cons.inj h).2]
    simp

/-- Below a path every name is one more component. -/
theorem components_descend (p : Path) {names : List String} (hnames : ∀ n ∈ names, IsName n) :
    (p.descend names).components = p.components ++ names.map .name := by
  have hkept (ns : List String) :
      (ns.map Component.name).filter (· ≠ .here) = ns.map Component.name := by
    rw [List.filter_eq_self]
    simp
  rw [components_eq, components_eq, steps_descend p hnames]
  cases p.steps with
  | nil =>
      cases names with
      | nil => rfl
      | cons n names => simp only [List.nil_append, List.map_cons, hkept]
  | cons c cs => simp only [List.cons_append, List.filter_append, hkept]

/-- A name behind a path is one more component. -/
theorem components_join_name (p : Path) {n : String} (hn : IsName n) :
    (p.join ⟨n⟩).components = p.components ++ [.name n] := by
  have hnames : ∀ m ∈ [n], IsName m := List.forall_mem_singleton.mpr hn
  have hone := components_descend p hnames
  rwa [descend_cons, descend_nil, List.map_singleton] at hone

theorem IsName.components_eq {n : String} (hn : IsName n) : (Path.mk n).components = [.name n] := by
  rw [Path.components_eq, hn.steps_eq]
  rfl

/-- The first components of a path are the steps of the path that is made of them. -/
theorem steps_ofComponents_take (p : Path) (k : Nat) :
    (ofComponents (p.components.take k)).steps = p.components.take k := by
  obtain ⟨-, hspelled⟩ := components_spec p
  cases hcs : p.components with
  | nil => simp [ofComponents, steps_of_text_eq_empty]
  | cons c cs =>
      obtain ⟨hc, hall⟩ := hspelled c cs hcs
      cases k with
      | zero => simp [ofComponents, steps_of_text_eq_empty]
      | succ k =>
          rw [List.take_succ_cons]
          exact steps_ofComponents hc fun d hd => hall d (List.mem_of_mem_take hd)

/-- The parent of a path is made of all components but the last one, if there is one above it. -/
theorem parent_eq (p : Path) :
    p.parent =
      if p.components = [] ∨ p.components = [.root] then none
      else some (ofComponents (p.components.take (p.components.length - 1))) := by
  rw [← List.dropLast_eq_take]
  unfold parent
  split <;> simp_all

/-- A path without its last component visits no more than the path. -/
theorem way_subset_of_parent (h : p.parent = some q) (l : Location) : q.way l ⊆ p.way l := by
  rw [parent_eq] at h
  split at h
  · cases h
  · obtain rfl := Option.some.inj h
    intro m hm
    rw [way, steps_ofComponents_take] at hm
    apply (components_spec p).1 l
    rw [← List.take_append_drop (p.components.length - 1) p.components, Component.way_append]
    exact List.mem_append_left _ hm

/-! ## Never climbing -/

/-- All that a path visits without climbing stands above its place. -/
theorem suffix_place_of_mem_way {p : Path} (hclimb : .up ∉ p.steps) {l m : Location}
    (hm : m ∈ p.way l) : m <:+ p.place l := by
  obtain ⟨before, after, hsteps, hne, rfl⟩ := Component.mem_way_iff.mp hm
  have hroot : .root ∉ after := by
    intro hroot
    obtain ⟨front, back, rfl⟩ := List.append_of_mem hroot
    rw [← List.append_assoc] at hsteps
    exact FileTree.ne_root_of_steps hsteps (by simp [hne]) rfl
  rw [hsteps, List.mem_append, not_or] at hclimb
  rw [place, hsteps, Component.place_append]
  exact Component.suffix_place hclimb.2 hroot

/-- The last step of a path that has a name in it and never climbs is a name or a dot. -/
theorem getLast?_steps_cases (hclimb : .up ∉ p.steps) {n : String} (hname : .name n ∈ p.steps) :
    p.steps.getLast? = some .here ∨ ∃ k, p.steps.getLast? = some (.name k) := by
  obtain ⟨front, last, hsteps⟩ : ∃ front last, p.steps = front ++ [last] :=
    ⟨_, _, (List.dropLast_concat_getLast (List.ne_nil_of_mem hname)).symm⟩
  rw [hsteps, List.getLast?_concat]
  cases last with
  | here => exact Or.inl rfl
  | name k => exact Or.inr ⟨k, rfl⟩
  | up => exact absurd (by rw [hsteps]; simp) hclimb
  | root =>
      -- nothing stands before the step to the root, and it is no name
      have hfront : front = [] := by
        by_contra hfront
        exact FileTree.ne_root_of_steps hsteps hfront rfl
      rw [hsteps, hfront] at hname
      simp at hname

/-- The paths around a path that never climbs end above its place. -/
theorem place_ne_of_mem_around (hclimb : .up ∉ p.steps) (hq : q ∈ p.around) (l : Location) :
    q.place l ≠ p.place l := by
  obtain ⟨-, hspelled⟩ := components_spec p
  obtain ⟨c, cs, k, hcs, hk, hsteps⟩ := steps_of_mem_around hq
  have hup : .up ∉ cs.drop k := by
    intro hmem
    apply hclimb
    rw [← mem_components (by simp), hcs]
    exact List.mem_cons_of_mem c (List.mem_of_mem_drop hmem)
  have hroot : .root ∉ cs.drop k := by
    intro hmem
    have hspells := ((hspelled c cs hcs).2 .root (List.mem_of_mem_drop hmem)).1
    revert hspells
    decide
  have hhere : .here ∉ cs.drop k := by
    intro hmem
    exact here_not_mem_tail hcs (List.mem_of_mem_drop hmem)
  -- what the path has more than the one around it is not empty, so it holds a name
  have hname : ∃ n, .name n ∈ cs.drop k := by
    have hne : cs.drop k ≠ [] := by
      rw [ne_eq, List.drop_eq_nil_iff]
      omega
    obtain ⟨d, rest, hd⟩ := List.exists_cons_of_ne_nil hne
    rw [hd] at hup hroot hhere ⊢
    cases d with
    | root => simp at hroot
    | here => simp at hhere
    | up => simp at hup
    | name n => exact ⟨n, List.mem_cons_self⟩
  obtain ⟨n, hn⟩ := hname
  have hplace : p.place l =
      Component.place (Component.place l (c :: cs.take k)) (cs.drop k) := by
    rw [← place_components, hcs, ← Component.place_append, List.cons_append,
      List.take_append_drop]
  rw [hplace, place, hsteps]
  exact (Component.place_ne_of_name hup hroot hn).symm

end GameExport.Path
