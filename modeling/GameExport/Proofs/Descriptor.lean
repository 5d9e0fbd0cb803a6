import Mathlib.Data.List.Dedup
import GameExport.Descriptor

/-! # Laws of the assemblies taken down

Each name stands once among the assemblies taken down, in ascending order. What an assembly is taken
down with first stays, and all that can be found under a name is either an entry from before or the
one that was added.
-/

namespace GameExport.DescriptorMap

/-- Names are all different, so a name tells its descriptor. -/
theorem eq_of_name_eq {ds : List Descriptor} (hsorted : ds.Pairwise fun a b => a.name < b.name)
    {d e : Descriptor} (hd : d ∈ ds) (he : e ∈ ds) (h : d.name = e.name) : d = e := by
  induction ds with
  | nil => cases hd
  | cons a ds ih =>
      obtain ⟨hfirst, hrest⟩ := List.pairwise_cons.mp hsorted
      rcases List.mem_cons.mp hd with rfl | hd'
      · rcases List.mem_cons.mp he with rfl | he'
        · rfl
        · exact absurd (h ▸ hfirst e he') (String.lt_irrefl _)
      · rcases List.mem_cons.mp he with rfl | he'
        · exact absurd (h ▸ hfirst d hd') (String.lt_irrefl _)
        · exact ih hrest hd' he'

theorem name_of_get?_eq_some {m : DescriptorMap} {name : String} {d : Descriptor}
    (h : m.get? name = some d) : d.name = name := by
  simpa using List.find?_some h

theorem mem_entries_iff {m : DescriptorMap} {d : Descriptor} :
    d ∈ m.entries ↔ m.get? d.name = some d := by
  constructor
  · intro hd
    obtain ⟨e, he⟩ : ∃ e, m.get? d.name = some e := by
      rw [← Option.isSome_iff_exists, get?, List.find?_isSome]
      exact ⟨d, hd, by simp⟩
    rw [he, eq_of_name_eq m.sorted (List.mem_of_find?_eq_some he) hd (name_of_get?_eq_some he)]
  · exact List.mem_of_find?_eq_some

/-! ## Names -/

/-- Lists with the same members are equal if they stand in ascending order of a text. -/
theorem eq_of_perm {α : Type} (key : α → String) {as bs : List α} (h : as.Perm bs)
    (has : as.Pairwise fun a b => key a < key b) (hbs : bs.Pairwise fun a b => key a < key b) :
    as = bs :=
  h.eq_of_pairwise (fun _ _ _ _ hab hba =>
    absurd (String.lt_trans hab hba) (String.lt_irrefl _)) has hbs

def names (m : DescriptorMap) : List String := m.entries.map (·.name)

theorem sorted_names (m : DescriptorMap) : m.names.Pairwise (· < ·) :=
  List.pairwise_map.mpr m.sorted

theorem nodup_names (m : DescriptorMap) : m.names.Nodup := by
  refine m.sorted_names.imp fun {a b} hlt heq => ?_
  rw [heq] at hlt
  exact String.lt_irrefl _ hlt

theorem mem_names_iff {m : DescriptorMap} {name : String} :
    name ∈ m.names ↔ (m.get? name).isSome := by
  rw [names, List.mem_map, Option.isSome_iff_exists]
  constructor
  · rintro ⟨d, hd, rfl⟩
    exact ⟨d, mem_entries_iff.mp hd⟩
  · rintro ⟨d, hd⟩
    obtain rfl := name_of_get?_eq_some hd
    exact ⟨d, mem_entries_iff.mpr hd, rfl⟩

/-- The names under which something is found are those of a list, each of them once. -/
theorem perm_dedup {m : DescriptorMap} {listed : List String}
    (h : ∀ name, (m.get? name).isSome ↔ name ∈ listed) : m.names.Perm listed.dedup := by
  rw [List.perm_ext_iff_of_nodup m.nodup_names (List.nodup_dedup listed)]
  intro name
  rw [mem_names_iff, h, List.mem_dedup]

/-- The map counts as many assemblies as there are different names in it. -/
theorem size_eq {m : DescriptorMap} {listed : List String}
    (h : ∀ name, (m.get? name).isSome ↔ name ∈ listed) : m.size = listed.dedup.length := by
  rw [← (perm_dedup h).length_eq, names, List.length_map, size]

/-- Maps in which something is found under the same names list the same names. -/
theorem names_eq {m n : DescriptorMap}
    (h : ∀ name, (m.get? name).isSome ↔ (n.get? name).isSome) : m.names = n.names := by
  refine eq_of_perm id ?_ m.sorted_names n.sorted_names
  rw [List.perm_ext_iff_of_nodup m.nodup_names n.nodup_names]
  intro name
  rw [mem_names_iff, mem_names_iff, h]

/-- What is found under each name tells the whole map. -/
theorem eq_of_get?_eq {m n : DescriptorMap} (h : ∀ name, m.get? name = n.get? name) : m = n := by
  have hentries : m.entries = n.entries := by
    refine eq_of_perm Descriptor.name ?_ m.sorted n.sorted
    rw [List.perm_ext_iff_of_nodup (.of_map _ m.nodup_names) (.of_map _ n.nodup_names)]
    intro d
    rw [mem_entries_iff, mem_entries_iff, h]
  cases m
  cases n
  simp only at hentries
  subst hentries
  rfl

/-! ## Adding assemblies -/

theorem contains_eq_isSome (m : DescriptorMap) (name : String) :
    m.contains name = (m.get? name).isSome := by
  rw [Bool.eq_iff_iff, contains, get?, List.any_eq_true, List.find?_isSome]

/-- What is put in is found under its name, and all else as before. -/
theorem find?_insertSorted {d : Descriptor} {es : List Descriptor} {name : String}
    (hnew : ∀ e ∈ es, e.name ≠ d.name) :
    (insertSorted d es).find? (·.name = name) =
      if d.name = name then some d else es.find? (·.name = name) := by
  -- the inserted descriptor may come before or after the one that is looked for
  induction es with
  | nil => by_cases hname : d.name = name <;> simp [insertSorted, hname]
  | cons a as ih =>
      have hrest := ih fun e he => hnew e (List.mem_cons_of_mem a he)
      unfold insertSorted
      split
      · by_cases hname : d.name = name <;> simp [List.find?_cons, hname]
      · rw [List.find?_cons, List.find?_cons, hrest]
        by_cases ha : a.name = name
        · have hd : d.name ≠ name := fun h => hnew a List.mem_cons_self (ha.trans h.symm)
          simp [ha, hd]
        · simp [ha]

/-- An assembly that is added is found from then on, unless another one was found before. -/
theorem get?_tryAdd (m : DescriptorMap) (added : String) (directory : Path) (name : String) :
    (m.tryAdd added directory).2.get? name =
      (m.get? name).or (if added = name then some ⟨added, directory⟩ else none) := by
  unfold tryAdd
  split
  · next h =>
      rw [contains_eq_isSome] at h
      by_cases hname : added = name
      · subst hname
        obtain ⟨d, hd⟩ := Option.isSome_iff_exists.mp h
        simp [hd]
      · simp [hname]
  · next h =>
      have hnew : ∀ e ∈ m.entries, e.name ≠ added := by simpa [contains] using h
      rw [contains_eq_isSome, Option.not_isSome_iff_eq_none] at h
      rw [get?, find?_insertSorted hnew]
      by_cases hname : added = name
      · subst hname
        simp [h]
      · simp [hname, get?]

/-- The first directory that is given for an assembly stays. -/
theorem get?_tryAdd_of_some {m : DescriptorMap} {name : String} {d : Descriptor}
    (h : m.get? name = some d) (added : String) (directory : Path) :
    (m.tryAdd added directory).2.get? name = some d := by
  rw [get?_tryAdd, h, Option.some_or]

/-- Taking down adds at most the assembly in question. -/
theorem mem_entries_tryAdd {m : DescriptorMap} {added : String} {directory : Path}
    {d : Descriptor} (h : d ∈ (m.tryAdd added directory).2.entries) :
    d ∈ m.entries ∨ d = ⟨added, directory⟩ := by
  unfold tryAdd at h
  split at h
  · exact Or.inl h
  · exact (mem_insertSorted.mp h).symm

end GameExport.DescriptorMap
