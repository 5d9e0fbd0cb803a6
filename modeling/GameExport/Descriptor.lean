import GameExport.Path

/-! # Assemblies of an export

An export remembers each assembly that it touches and the directory of its sources. The first
directory that is given for an assembly stays.
-/

namespace GameExport

/-- An assembly and the directory of its sources. -/
structure Descriptor where
  name : String
  directory : Path
  deriving DecidableEq

/-- Descriptors in ascending order of their names, which are all different. -/
structure DescriptorMap where
  entries : List Descriptor := []
  sorted : entries.Pairwise fun a b => a.name < b.name := by exact .nil

namespace DescriptorMap

instance : Inhabited DescriptorMap := ⟨{}⟩

def get? (m : DescriptorMap) (name : String) : Option Descriptor :=
  m.entries.find? (·.name = name)

def contains (m : DescriptorMap) (name : String) : Bool := m.entries.any (·.name = name)

def size (m : DescriptorMap) : Nat := m.entries.length

def isEmpty (m : DescriptorMap) : Bool := m.entries.isEmpty

/-- The list with a descriptor before the first one of a greater name. -/
def insertSorted (d : Descriptor) : List Descriptor → List Descriptor
  | [] => [d]
  | e :: es => if d.name < e.name then d :: e :: es else e :: insertSorted d es

theorem mem_insertSorted {d e : Descriptor} {es : List Descriptor} :
    e ∈ insertSorted d es ↔ e = d ∨ e ∈ es := by
  induction es with
  | nil => simp [insertSorted]
  | cons a as ih =>
      unfold insertSorted
      split
      · simp
      · simp [ih, or_left_comm]

theorem sorted_insertSorted {d : Descriptor} {es : List Descriptor}
    (h : es.Pairwise fun a b => a.name < b.name) (hnew : ∀ e ∈ es, e.name ≠ d.name) :
    (insertSorted d es).Pairwise fun a b => a.name < b.name := by
  induction es with
  | nil => simp [insertSorted]
  | cons a as ih =>
      obtain ⟨ha, has⟩ := List.pairwise_cons.mp h
      unfold insertSorted
      split
      · next hlt =>
          refine List.pairwise_cons.mpr ⟨?_, h⟩
          intro b hb
          rcases List.mem_cons.mp hb with rfl | hb
          · exact hlt
          · exact String.lt_trans hlt (ha b hb)
      · next hnlt =>
          refine List.pairwise_cons.mpr ⟨?_, ih has fun e he => hnew e (by simp [he])⟩
          intro b hb
          rcases mem_insertSorted.mp hb with rfl | hb
          · refine String.not_le.mp fun hle => ?_
            exact hnew a (by simp) (String.le_antisymm (String.not_lt.mp hnlt) hle)
          · exact ha b hb

/-- Adds an assembly unless it is there already, and says whether it was added. -/
def tryAdd (m : DescriptorMap) (name : String) (directory : Path) : Bool × DescriptorMap :=
  if h : m.contains name then (false, m)
  else
    (true, ⟨insertSorted ⟨name, directory⟩ m.entries, sorted_insertSorted m.sorted (by
      simpa [contains] using h)⟩)

end DescriptorMap

end GameExport
