import GameExport.Proofs.Disk.Walk

/-! # What is looked at along a path

Following a path looks at the locations on its way, and a relative path at the one where it starts.
Where the same stands at these the path leads to the same, whatever stands elsewhere.
-/

namespace GameExport

namespace Path

/-- The locations that are looked at when a path is followed. -/
def visits (p : Path) (l : Location) : List Location :=
  if p.isAbsolute then p.way l else l :: p.way l

variable {p : Path} {l : Location}

theorem mem_visits_of_mem_way {m : Location} (h : m ∈ p.way l) : m ∈ p.visits l := by
  unfold visits
  split
  · exact h
  · exact List.mem_cons_of_mem l h

/-- Every step but the one to the root starts from a location that is looked at. -/
theorem place_mem_visits_of_steps {before after : List Component} {c : Component}
    (h : p.steps = before ++ c :: after) (hc : c ≠ .root) :
    Component.place l before ∈ p.visits l := by
  by_cases hbefore : before = []
  · subst hbefore
    have hrelative : ¬ p.isAbsolute := by
      intro habsolute
      rw [steps, if_pos habsolute] at h
      exact hc (List.cons.inj h).1.symm
    rw [visits, if_neg hrelative]
    exact List.mem_cons_self
  · exact mem_visits_of_mem_way (Component.mem_way_iff.mpr ⟨before, c :: after, h, hbefore, rfl⟩)

theorem place_mem_visits (p : Path) (l : Location) : p.place l ∈ p.visits l := by
  by_cases hsteps : p.steps = []
  · have hrelative : ¬ p.isAbsolute := by
      intro habsolute
      rw [steps, if_pos habsolute] at hsteps
      cases hsteps
    rw [visits, if_neg hrelative, place, hsteps]
    exact List.mem_cons_self
  · exact mem_visits_of_mem_way (Component.place_mem_way l hsteps)

/-- A path that goes on by names looks at what the shorter one looks at, and then at what is below
the place of that one. -/
theorem mem_visits_descend {root : Path} {names : List String} (hnames : ∀ n ∈ names, IsName n)
    {m : Location} (h : m ∈ (root.descend names).visits l) :
    m ∈ root.visits l ∨ root.place l <:+ m := by
  have habsolute : (root.descend names).isAbsolute = root.isAbsolute := by
    rw [Bool.eq_iff_iff, ← root_mem_steps, ← root_mem_steps, steps_descend root hnames]
    simp
  have hway (hm : m ∈ (root.descend names).way l) : m ∈ root.way l ∨ root.place l <:+ m := by
    rcases (mem_way_descend root l hnames).mp hm with hroot | ⟨before, -, -, rfl⟩
    · exact Or.inl hroot
    · exact Or.inr (List.suffix_append _ _)
  rw [visits, habsolute] at h
  rw [visits]
  split at h
  · next hroot =>
      rw [if_pos hroot]
      exact hway h
  · next hrelative =>
      rw [if_neg hrelative]
      rcases List.mem_cons.mp h with rfl | hm
      · exact Or.inl List.mem_cons_self
      · exact (hway hm).imp_left (List.mem_cons_of_mem _)

end Path

namespace FileTree

open GameExport.Path

variable {t u : FileTree} {p : Path}

def visits (t : FileTree) (p : Path) : List Location := p.visits t.workingDirectory

theorem place_mem_visits (t : FileTree) (p : Path) : t.place p ∈ t.visits p :=
  Path.place_mem_visits p t.workingDirectory

/-- Where the same stands at all that is looked at, a path can be followed as well. -/
theorem Reaches.of_agree_visits (h : t.Reaches p)
    (hworking : u.workingDirectory = t.workingDirectory)
    (hagree : ∀ m ∈ t.visits p, u.get? m = t.get? m) : u.Reaches p where
  accepted := h.accepted
  walk := by
    rw [hworking]
    intro before c after hsteps
    have hstep := h.walk before c after hsteps
    have hstart (hc : c ≠ .root) := hagree _ (place_mem_visits_of_steps hsteps hc)
    cases c with
    | root => trivial
    | here => exact (hstart (by simp)).trans hstep
    | up => exact (hstart (by simp)).trans hstep
    | name n =>
        have hnext : n :: Component.place t.workingDirectory before ∈ t.visits p := by
          refine mem_visits_of_mem_way (Component.mem_way_iff.mpr
            ⟨before ++ [.name n], after, by simp [hsteps], by simp, ?_⟩)
          rw [Component.place_append]
          rfl
        exact ⟨(hstart (by simp)).trans hstep.1, hstep.2.1, by rw [hagree _ hnext]; exact hstep.2.2⟩
  closing := fun hslash => by
    rw [place_congr hworking, hagree _ (t.place_mem_visits p)]
    exact h.closing hslash

/-- A path leads to the same in a tree that agrees on what it visits. -/
theorem find?_of_agree_visits {e : Entry} (h : t.find? p = some e)
    (hworking : u.workingDirectory = t.workingDirectory)
    (hagree : ∀ m ∈ t.visits p, u.get? m = t.get? m) : u.find? p = some e := by
  obtain ⟨hreaches, hget⟩ := find?_eq_some.mp h
  refine find?_eq_some.mpr ⟨hreaches.of_agree_visits hworking hagree, ?_⟩
  rw [place_congr hworking, hagree _ (t.place_mem_visits p), hget]

/-- All that is looked at along a path that leads to something is there. -/
theorem isSome_of_mem_visits (h : t.contains p) {m : Location} (hm : m ∈ t.visits p) :
    (t.get? m).isSome := by
  obtain ⟨hreaches, hsome⟩ := contains_iff.mp h
  have hway (hm : m ∈ t.way p) : (t.get? m).isSome := by
    obtain ⟨before, after, hsteps, hne, rfl⟩ := Component.mem_way_iff.mp hm
    cases after with
    | nil =>
        rw [List.append_nil] at hsteps
        rw [← hsteps]
        exact hsome
    | cons c after =>
        rw [hreaches.directory hsteps hne]
        rfl
  unfold visits Path.visits at hm
  split at hm
  · exact hway hm
  · next hrelative =>
      rcases List.mem_cons.mp hm with rfl | hm
      · cases hsteps : p.steps with
        | nil =>
            rw [place, Path.place, hsteps] at hsome
            exact hsome
        | cons c cs =>
            have hc : c ≠ .root := by
              rintro rfl
              exact hrelative ((root_mem_steps p).mp (by rw [hsteps]; exact List.mem_cons_self))
            have hstep := (hreaches.walk [] c cs hsteps).directory hc
            rw [Component.place_nil] at hstep
            rw [hstep]
            rfl
      · exact hway hm

end FileTree

end GameExport
