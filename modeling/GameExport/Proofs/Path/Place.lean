import GameExport.Proofs.Path.Steps

/-! # The place that a path names

In a tree without links the steps of a path alone say where it leads: it either leads to its place
or nowhere. On the way there it visits one location a step.
-/

namespace GameExport.Path

namespace Component

def place (l : Location) (cs : List Component) : Location := cs.foldl follow l

/-- The locations that steps lead to, one after the other, the start left out. -/
def way (l : Location) : List Component → List Location
  | [] => []
  | c :: cs => c.follow l :: way (c.follow l) cs

@[simp] theorem place_nil (l : Location) : place l [] = l := rfl

@[simp] theorem place_cons (l : Location) (c : Component) (cs : List Component) :
    place l (c :: cs) = place (c.follow l) cs := rfl

/-- Steps lead on from where the steps before them led. -/
theorem place_append (l : Location) (cs ds : List Component) :
    place l (cs ++ ds) = place (place l cs) ds := List.foldl_append

theorem way_append (l : Location) (cs ds : List Component) :
    way l (cs ++ ds) = way l cs ++ way (place l cs) ds := by
  induction cs generalizing l with
  | nil => rfl
  | cons c cs ih => rw [List.cons_append, way, way, ih, place_cons, List.cons_append]

/-- On the way are the places of all beginnings but the empty one. -/
theorem mem_way_iff {l m : Location} {cs : List Component} :
    m ∈ way l cs ↔ ∃ before after, cs = before ++ after ∧ before ≠ [] ∧ m = place l before := by
  induction cs generalizing l with
  | nil => simp [way]
  | cons c cs ih =>
      rw [way, List.mem_cons, ih]
      constructor
      · rintro (rfl | ⟨before, after, rfl, -, rfl⟩)
        · exact ⟨[c], cs, rfl, by simp, rfl⟩
        · exact ⟨c :: before, after, rfl, by simp, rfl⟩
      · rintro ⟨before, after, heq, hne, rfl⟩
        obtain ⟨b, bs, rfl⟩ := List.exists_cons_of_ne_nil hne
        obtain ⟨rfl, rfl⟩ := List.cons.inj heq
        by_cases hbs : bs = []
        · exact Or.inl (by rw [hbs]; rfl)
        · exact Or.inr ⟨bs, after, rfl, hbs, rfl⟩

theorem place_mem_way (l : Location) {cs : List Component} (h : cs ≠ []) :
    place l cs ∈ way l cs :=
  mem_way_iff.mpr ⟨cs, [], by simp, h, rfl⟩

/-- Names lead straight down. -/
theorem place_map_name (l : Location) (names : List String) :
    place l (names.map .name) = names.reverse ++ l := by
  induction names generalizing l with
  | nil => rfl
  | cons n names ih => rw [List.map_cons, place_cons, ih]; simp [follow]

/-- Names lead down one by one. -/
theorem mem_way_map_name {l m : Location} {names : List String} :
    m ∈ way l (names.map .name) ↔
      ∃ before, before <+: names ∧ before ≠ [] ∧ m = before.reverse ++ l := by
  rw [mem_way_iff]
  constructor
  · rintro ⟨before, after, heq, hne, rfl⟩
    obtain ⟨as, bs, rfl, rfl, rfl⟩ := List.map_eq_append_iff.mp heq
    exact ⟨as, List.prefix_append as bs, by simpa using hne, place_map_name l as⟩
  · rintro ⟨before, ⟨after, rfl⟩, hne, rfl⟩
    refine ⟨before.map .name, after.map .name, List.map_append, by simpa using hne, ?_⟩
    exact (place_map_name l before).symm

/-- Steps that start at a location or below it and end neither there nor below it climb out of it:
at some moment they leave the location itself upwards. -/
theorem exists_up {l k : Location} {cs : List Component} (hroot : ∀ c ∈ cs, c ≠ .root)
    (hstart : l <:+ k) (hend : ¬ l <:+ place k cs) :
    ∃ before after, cs = before ++ .up :: after ∧ place k before = l := by
  induction cs generalizing k with
  | nil => exact absurd hstart hend
  | cons c cs ih =>
      have hrest : ∀ d ∈ cs, d ≠ .root := fun d hd => hroot d (List.mem_cons_of_mem c hd)
      -- either this step is the one that climbs out, or it ends at the location or below it again
      by_cases hleave : c = .up ∧ k = l
      · obtain ⟨rfl, rfl⟩ := hleave
        exact ⟨[], cs, rfl, rfl⟩
      have hnext : l <:+ c.follow k := by
        cases c with
        | root => exact absurd rfl (hroot .root List.mem_cons_self)
        | here => exact hstart
        | name n => exact hstart.trans (List.suffix_cons n k)
        | up =>
            cases k with
            | nil => exact hstart
            | cons n k =>
                rcases List.suffix_cons_iff.mp hstart with heq | hsuffix
                · exact absurd ⟨rfl, heq.symm⟩ hleave
                · exact hsuffix
      obtain ⟨before, after, rfl, hplace⟩ := ih hrest hnext hend
      exact ⟨c :: before, after, rfl, hplace⟩

/-- Steps that stay where they are visit nothing new. -/
theorem way_filter_subset (l : Location) (cs : List Component) :
    way l (cs.filter (· ≠ .here)) ⊆ way l cs := by
  induction cs generalizing l with
  | nil => exact List.Subset.refl _
  | cons c cs ih =>
      by_cases hc : c = .here
      · subst hc
        rw [List.filter_cons_of_neg (by simp)]
        exact List.Subset.trans (ih l) (List.subset_cons_self l _)
      · rw [List.filter_cons_of_pos (by simpa using hc)]
        exact List.cons_subset_cons _ (ih _)

end Component

def place (p : Path) (l : Location) : Location := Component.place l p.steps

def way (p : Path) (l : Location) : List Location := Component.way l p.steps

/-- A joined path leads on from the place of the first one. -/
theorem place_join (p : Path) {q : Path} (hq : q.isAbsolute = false) (l : Location) :
    (p.join q).place l = q.place (p.place l) := by
  rw [place, steps_join p hq, Component.place_append, place, place]

/-- A joined name is the last step. -/
theorem place_join_name (p : Path) {n : String} (hn : IsName n) (l : Location) :
    (p.join ⟨n⟩).place l = n :: p.place l := by
  rw [place_join p hn.not_isAbsolute, place, hn.steps_eq]
  rfl

/-- The way along a joined path goes along both. -/
theorem way_join (p : Path) {q : Path} (hq : q.isAbsolute = false) (l : Location) :
    (p.join q).way l = p.way l ++ q.way (p.place l) := by
  rw [way, steps_join p hq, Component.way_append, way, way, place]

section Descend

variable (p : Path) (l : Location) {names : List String}

/-- Names below a path lead below its place. -/
theorem place_descend (h : ∀ n ∈ names, IsName n) :
    (p.descend names).place l = names.reverse ++ p.place l := by
  rw [place, steps_descend p h, Component.place_append, Component.place_map_name, place]

/-- On the way to names below a path are the way to the path and the folders from there. -/
theorem mem_way_descend (h : ∀ n ∈ names, IsName n) {m : Location} :
    m ∈ (p.descend names).way l ↔
      m ∈ p.way l ∨ ∃ before, before <+: names ∧ before ≠ [] ∧
        m = before.reverse ++ p.place l := by
  rw [way, steps_descend p h, Component.way_append, List.mem_append, Component.mem_way_map_name]
  rfl

end Descend

/-! ## The paths around a path -/

/-- A component that a part between slashes spells. -/
def Component.IsSpelled (c : Component) : Prop :=
  (Path.mk c.text).isAbsolute = false ∧ (Path.mk c.text).steps = [c]

/-- A part between slashes spells its component. -/
theorem isSpelled_componentOf {part : List Char} (hne : part ≠ []) (hslash : '/' ∉ part) :
    (componentOf part).IsSpelled := by
  by_cases hhere : part = ['.']
  · subst hhere
    exact ⟨by decide, by decide⟩
  · by_cases hparent : part = ['.', '.']
    · subst hparent
      exact ⟨by decide, by decide⟩
    · have hname : IsName (String.ofList part) := by
        refine ⟨by simpa using hslash, fun h => hne ?_, fun h => hhere ?_, fun h => hparent ?_⟩
        all_goals simpa using congrArg String.toList h
      rw [componentOf, if_neg hhere, if_neg hparent]
      exact ⟨hname.not_isAbsolute, hname.steps_eq⟩

/-- A path that is put together from components has them as its steps. -/
theorem steps_ofComponents {c : Component} {cs : List Component}
    (hc : (Path.mk c.text).steps = [c]) (hcs : ∀ d ∈ cs, d.IsSpelled) :
    (ofComponents (c :: cs)).steps = c :: cs := by
  have hfold (p : Path) (ds : List Component) (hds : ∀ d ∈ ds, d.IsSpelled) :
      (ds.foldl (fun q d => q.join ⟨d.text⟩) p).steps = p.steps ++ ds := by
    induction ds generalizing p with
    | nil => simp
    | cons d ds ih =>
        obtain ⟨hrelative, hsteps⟩ := hds d List.mem_cons_self
        rw [List.foldl_cons, ih _ fun e he => hds e (List.mem_cons_of_mem d he),
          steps_join p hrelative, hsteps, List.append_assoc, List.singleton_append]
  rw [ofComponents, hfold _ cs hcs, hc, List.singleton_append]

/-- A dot between slashes spells the component that says nothing. -/
theorem map_componentOf_filter (parts : List (List Char)) :
    (parts.filter (· ≠ ['.'])).map componentOf = (parts.map componentOf).filter (· ≠ .here) := by
  induction parts with
  | nil => rfl
  | cons part parts ih =>
      have hiff : componentOf part = .here ↔ part = ['.'] := by
        unfold componentOf
        split
        · simp_all
        · split <;> simp_all
      by_cases hpart : part = ['.']
      · rw [List.filter_cons_of_neg (by simpa using hpart), List.map_cons,
          List.filter_cons_of_neg (by simpa using hiff.mpr hpart), ih]
      · rw [List.filter_cons_of_pos (by simpa using hpart), List.map_cons, List.map_cons,
          List.filter_cons_of_pos (by simpa using fun h => hpart (hiff.mp h)), ih]

/-- The components of a path visit no more than its steps. They start with one that spells itself,
and all others stand between slashes. -/
theorem components_spec (p : Path) :
    (∀ l, Component.way l p.components ⊆ p.way l) ∧
      ∀ c cs, p.components = c :: cs →
        (Path.mk c.text).steps = [c] ∧ ∀ d ∈ cs, d.IsSpelled := by
  have hspelled (part : List Char) (h : part ∈ parts '/' p.text.toList) :
      (componentOf part).IsSpelled :=
    isSpelled_componentOf (mem_parts h).1 (mem_parts h).2
  have hfiltered (keep : List (List Char)) (hkeep : keep ⊆ parts '/' p.text.toList) :
      ∀ d ∈ (keep.filter (· ≠ ['.'])).map componentOf, d.IsSpelled := by
    intro d hd
    obtain ⟨part, hpart, rfl⟩ := List.mem_map.mp hd
    exact hspelled part (hkeep (List.mem_of_mem_filter hpart))
  unfold components way steps
  -- an absolute path keeps its root in front, and a path that starts with a dot keeps that dot
  generalize parts '/' p.text.toList = ps at hspelled hfiltered
  by_cases habs : p.isAbsolute
  · simp only [habs, if_true]
    refine ⟨fun l => ?_, fun c cs h => ?_⟩
    · rw [map_componentOf_filter]
      exact List.cons_subset_cons _ (Component.way_filter_subset _ _)
    · obtain ⟨rfl, rfl⟩ := List.cons.inj h
      exact ⟨by decide, hfiltered ps (List.Subset.refl _)⟩
  · simp only [habs, Bool.false_eq_true, if_false, List.nil_append]
    cases ps with
    | nil => exact ⟨fun l => List.nil_subset _, fun c cs h => by cases h⟩
    | cons first rest =>
        by_cases hfirst : first = ['.']
        · simp only [if_pos hfirst]
          refine ⟨fun l => ?_, fun c cs h => ?_⟩
          · rw [map_componentOf_filter, hfirst]
            exact List.cons_subset_cons _ (Component.way_filter_subset _ _)
          · obtain ⟨rfl, rfl⟩ := List.cons.inj h
            exact ⟨by decide, hfiltered rest (List.subset_cons_self _ _)⟩
        · simp only [if_neg hfirst]
          refine ⟨fun l => ?_, fun c cs h => ?_⟩
          · rw [map_componentOf_filter]
            exact Component.way_filter_subset _ _
          · have hall := hfiltered (first :: rest) (List.Subset.refl _)
            rw [h] at hall
            exact ⟨(hall c List.mem_cons_self).2, fun d hd => hall d (List.mem_cons_of_mem c hd)⟩

/-- A path around another one takes some of its components, the first one at least and the last one
never. -/
theorem steps_of_mem_around {p q : Path} (h : q ∈ p.around) :
    ∃ c cs k, p.components = c :: cs ∧ k < cs.length ∧ q.steps = c :: cs.take k := by
  obtain ⟨-, hspelled⟩ := components_spec p
  obtain ⟨i, hi, rfl⟩ := List.mem_map.mp h
  have hi := List.mem_range.mp hi
  cases hcs : p.components with
  | nil => simp [hcs] at hi
  | cons c cs =>
      obtain ⟨hc, hall⟩ := hspelled c cs hcs
      rw [hcs, List.length_cons, Nat.add_sub_cancel] at hi
      have htake : cs.length - i = cs.length - i - 1 + 1 := by omega
      refine ⟨c, cs, cs.length - i - 1, rfl, by omega, ?_⟩
      rw [List.length_cons, Nat.add_sub_cancel, htake, List.take_succ_cons]
      exact steps_ofComponents hc fun d hd => hall d (List.mem_of_mem_take hd)

/-- The paths around a path stay on its way. -/
theorem place_mem_way_of_mem_around {p q : Path} (h : q ∈ p.around) (l : Location) :
    q.place l ∈ p.way l := by
  obtain ⟨hway, -⟩ := components_spec p
  obtain ⟨c, cs, k, hcs, -, hsteps⟩ := steps_of_mem_around h
  apply hway l
  rw [hcs, place, hsteps, Component.mem_way_iff]
  exact ⟨c :: cs.take k, cs.drop k, by simp, by simp, rfl⟩

end GameExport.Path
