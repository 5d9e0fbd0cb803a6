import GameExport.Proofs.Disk.Walk

/-! # How trees differ

Two trees are compared by what stands at each location. An operation puts one entry, makes missing
directories, or changes what it likes within a region; all else is as it was.
-/

namespace GameExport.FileTree

/-- The locations at which a change is allowed, seen from a working directory. -/
abbrev Region := Location → Location → Prop

def Region.none : Region := fun _ _ => False

def Region.along (p : Path) : Region := fun l m => m ∈ p.way l

/-- At the place of a path and below it. -/
def Region.under (p : Path) : Region := fun l m => p.place l <:+ m

/-- Nothing differs but an entry at one location. -/
structure Puts (t : FileTree) (l : Location) (e : Entry) (u : FileTree) : Prop where
  workingDirectory : u.workingDirectory = t.workingDirectory
  get? : ∀ m, u.get? m = if m = l then some e else t.get? m

/-- Outside a region nothing differs, except that some directories may have been made. -/
structure ChangesWithin (free made : Region) (t u : FileTree) : Prop where
  workingDirectory : u.workingDirectory = t.workingDirectory
  outside : ∀ m, ¬ free t.workingDirectory m →
    u.get? m = t.get? m ∨
      made t.workingDirectory m ∧ t.get? m = Option.none ∧ u.get? m = some .directory

namespace ChangesWithin

variable {free made : Region} {t u v : FileTree}

theorem refl (t : FileTree) : ChangesWithin free made t t := ⟨rfl, fun _ _ => Or.inl rfl⟩

theorem trans (h : ChangesWithin free made t u) (k : ChangesWithin free made u v) :
    ChangesWithin free made t v where
  workingDirectory := k.workingDirectory.trans h.workingDirectory
  outside := by
    intro m hm
    have hsecond := k.outside m (by rw [h.workingDirectory]; exact hm)
    rw [h.workingDirectory] at hsecond
    rcases h.outside m hm with hfirst | ⟨hmade, hnone, hdir⟩
    · rw [← hfirst]
      exact hsecond
    · rcases hsecond with heq | ⟨-, hnone', -⟩
      · exact Or.inr ⟨hmade, hnone, heq.trans hdir⟩
      · rw [hdir] at hnone'
        cases hnone'

theorem mono {free' made' : Region} (h : ChangesWithin free made t u)
    (hfree : ∀ l m, free l m → free' l m) (hmade : ∀ l m, made l m → free' l m ∨ made' l m) :
    ChangesWithin free' made' t u where
  workingDirectory := h.workingDirectory
  outside := by
    intro m hm
    rcases h.outside m fun hin => hm (hfree _ _ hin) with heq | ⟨hin, hnone, hdir⟩
    · exact Or.inl heq
    · exact Or.inr ⟨(hmade _ _ hin).resolve_left hm, hnone, hdir⟩

/-- Making directories takes nothing away. -/
theorem grows (h : ChangesWithin .none made t u) : Grows t u where
  workingDirectory := h.workingDirectory
  directory := fun {m} hm => by
    rcases h.outside m id with heq | ⟨-, -, hdir⟩
    · rw [heq, hm]
    · exact hdir
  file := fun {m c x} hm => by
    rcases h.outside m id with heq | ⟨-, hnone, -⟩
    · exact ⟨c, by rw [heq, hm]⟩
    · rw [hm] at hnone
      cases hnone

end ChangesWithin

namespace Puts

variable {t u : FileTree} {l : Location} {e : Entry}

theorem self (h : Puts t l e u) : u.get? l = some e := by rw [h.get?, if_pos rfl]

theorem of_ne (h : Puts t l e u) {m : Location} (hm : m ≠ l) : u.get? m = t.get? m := by
  rw [h.get?, if_neg hm]

/-- A directory is made where nothing was. -/
theorem changesWithin_made (h : Puts t l .directory u) (hnone : t.get? l = Option.none)
    {free made : Region} (hmade : made t.workingDirectory l) : ChangesWithin free made t u where
  workingDirectory := h.workingDirectory
  outside := by
    intro m _
    by_cases hm : m = l
    · subst hm
      exact Or.inr ⟨hmade, hnone, h.self⟩
    · exact Or.inl (h.of_ne hm)

/-- A change at a free location stays within the region. -/
theorem changesWithin_free (h : Puts t l e u) {free made : Region}
    (hfree : free t.workingDirectory l) : ChangesWithin free made t u where
  workingDirectory := h.workingDirectory
  outside := fun _ hm => Or.inl (h.of_ne fun heq => hm (heq ▸ hfree))

/-- A file that is put where no directory was takes nothing away if it keeps its mode. -/
theorem grows {content : ByteArray} {executable : Bool}
    (h : Puts t l (.file content executable) u) (hnew : t.get? l ≠ some .directory)
    (hmode : ∀ c x, t.get? l = some (.file c x) → x = executable) : Grows t u where
  workingDirectory := h.workingDirectory
  directory := fun {m} hm => by rw [h.of_ne fun heq => hnew (heq ▸ hm), hm]
  file := fun {m c x} hm => by
    by_cases heq : m = l
    · subst heq
      exact ⟨content, by rw [h.self, hmode c x hm]⟩
    · exact ⟨c, by rw [h.of_ne heq, hm]⟩

end Puts

def SamePlace (t u : FileTree) : Prop := u.workingDirectory = t.workingDirectory

theorem SamePlace.refl (t : FileTree) : SamePlace t t := rfl

theorem SamePlace.trans (t u v : FileTree) (h : SamePlace t u) (k : SamePlace u v) :
    SamePlace t v :=
  Eq.trans k h

/-- A file may be run as a program. What is not there may not. -/
def isExecutableAt (t : FileTree) (l : Location) : Bool :=
  match t.get? l with
  | some (.file _ executable) => executable
  | _ => false

theorem isExecutableAt_of_file {t : FileTree} {l : Location} {c : ByteArray} {x : Bool}
    (h : t.get? l = some (.file c x)) : t.isExecutableAt l = x := by
  rw [isExecutableAt, h]

theorem isExecutableAt_of_none {t : FileTree} {l : Location} (h : t.get? l = Option.none) :
    t.isExecutableAt l = false := by
  rw [isExecutableAt, h]

end GameExport.FileTree

namespace GameExport.Disk

open FileTree

theorem samePlace_of_moves {ε α : Type} {a : Action FileTree ε α} {free made : Region}
    (h : a.Moves (ChangesWithin free made)) : a.Moves SamePlace :=
  h.mono fun _ _ hchange => hchange.workingDirectory

end GameExport.Disk
