import GameExport.Proofs.Disk.Operations

/-! # Growing within a region

What unpacks archives only adds to a tree: it makes directories and writes files within a region,
and takes nothing away, however it ends.
-/

namespace GameExport

open GameExport.Path FileTree

namespace FileTree

/-- Outside a region at most some directories are new, and nothing has been taken away anywhere. -/
structure GrowsWithin (free made : Region) (t u : FileTree) : Prop where
  changes : ChangesWithin free made t u
  grows : Grows t u

namespace GrowsWithin

variable {free made : Region} {t u v : FileTree}

theorem refl (t : FileTree) : GrowsWithin free made t t := ⟨.refl t, .refl t⟩

theorem trans (t u v : FileTree) (h : GrowsWithin free made t u) (k : GrowsWithin free made u v) :
    GrowsWithin free made t v :=
  ⟨h.changes.trans k.changes, h.grows.trans k.grows⟩

theorem mono {free' made' : Region} (h : GrowsWithin free made t u)
    (hfree : ∀ l m, free l m → free' l m) (hmade : ∀ l m, made l m → free' l m ∨ made' l m) :
    GrowsWithin free' made' t u :=
  ⟨h.changes.mono hfree hmade, h.grows⟩

end GrowsWithin

end FileTree

namespace Disk

variable {p : Path} {free made : Region}

theorem makeDirectories_growsWithin (hmade : ∀ l m, m ∈ p.way l → free l m ∨ made l m) :
    (makeDirectories p).Moves (GrowsWithin free made) := by
  intro t
  have hmoves := makeDirectories_moves_along p t
  exact ⟨hmoves.mono (fun _ _ hnone => hnone.elim) hmade, hmoves.grows⟩

theorem write_growsWithin {content : ByteArray} (hfree : ∀ l, free l (p.place l)) :
    (write p content).Moves (GrowsWithin free made) := by
  intro t
  rcases write_outcome p content t with ⟨e, he⟩ | ⟨u, hu, -, hnew, hputs⟩
  · rw [he]
    exact .refl t
  · rw [hu]
    have hgrows : Grows t u := hputs.grows hnew fun c x hx => (isExecutableAt_of_file hx).symm
    exact ⟨hputs.changesWithin_free (hfree t.workingDirectory), hgrows⟩

end Disk

end GameExport
