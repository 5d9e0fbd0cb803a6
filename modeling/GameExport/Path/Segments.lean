import GameExport.Text.Split

/-! # File name and extension within a path

The rules about the last part of a path only know the slash and the dot, so they hold for paths
of characters and for paths of bytes.
-/

namespace GameExport.Path

variable {α : Type} [DecidableEq α] (slash dot : α)

/-- The parts of a path that are not empty. -/
def parts (p : List α) : List (List α) := (Text.split slash p).filter (· ≠ [])

/-- The name at the end of a path. Slashes and single dots behind it do not count; a path that
ends in two dots has none. -/
def nameAtEnd (p : List α) : Option (List α) :=
  match ((parts slash p).reverse.dropWhile (· = [dot])).head? with
  | some name => if name = [dot, dot] then none else some name
  | none => none

/-- What follows the last dot of a name. A dot at the start of the name is part of the stem. -/
def extensionOf (name : List α) : Option (List α) :=
  let behind := name.reverse.takeWhile (· ≠ dot)
  if behind.length + 1 < name.length then some behind.reverse else none

end GameExport.Path
