/-! # File names

Names of assemblies, namespaces and classes may hold any characters. Sanitising makes one file
name of such a name that every platform accepts.
-/

namespace GameExport.FileName

/-- Control characters, the C1 range included. -/
def isControl (c : Char) : Bool :=
  c.toNat < 0x20 || (0x7F ≤ c.toNat && c.toNat ≤ 0x9F)

/-- A character that cannot stand in a file name somewhere. -/
def isReserved (c : Char) : Bool :=
  c ∈ ['<', '>', ':', '\"', '|', '?', '*', '/', '\\'] || isControl c

/-- One file name on every platform: it has no reserved character, and it is neither empty nor
one of the names that mean a directory. -/
structure IsPortable (s : String) : Prop where
  not_reserved : ∀ c ∈ s.toList, isReserved c = false
  ne_empty : s ≠ ""
  ne_here : s ≠ "."
  ne_parent : s ≠ ".."

/-- Reserved characters become underscores. -/
def replaceReserved (s : String) : String :=
  String.ofList (s.toList.map fun c => if isReserved c then '_' else c)

/-- A portable file name. What would be empty or mean a directory becomes an underscore. -/
def sanitize (name : String) : String :=
  let s := replaceReserved name
  if s = "" ∨ s = "." ∨ s = ".." then "_" else s

end GameExport.FileName
