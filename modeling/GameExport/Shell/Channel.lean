import GameExport.Disk.Files

/-! # Channels

A stream of a program leads to a channel, which gives bytes or takes them. Streams that lead to one
channel share its place: what one of them writes stands behind what the other has written.
-/

namespace GameExport.Shell

/-- What a stream leads to. A file is written at a place or always at its end. -/
inductive Channel where
  | source (rest : List UInt8)
  | collector (written : ByteArray)
  | file (l : Location) (place : Option Nat)
  | nowhere

namespace Channel

/-- A content after bytes were written at a place. Zeros fill the gap before the place. -/
def overwrite (content : ByteArray) (place : Nat) (bytes : ByteArray) : ByteArray :=
  content.extract 0 place ++ ⟨Array.replicate (place - content.size) 0⟩ ++ bytes ++
    content.extract (place + bytes.size) content.size

/-- Writes to a channel. A file that has been removed takes nothing. -/
def write (bytes : ByteArray) (t : FileTree) : Channel → Channel × FileTree
  | .collector written => (.collector (written ++ bytes), t)
  | .file (name :: parent) place =>
      match t.get? (name :: parent) with
      | some (.file content _) =>
          let content := overwrite content (place.getD content.size) bytes
          (.file (name :: parent) (place.map (· + bytes.size)),
            ((Disk.writeAt content parent name).outcome t).2)
      | _ => (.file (name :: parent) place, t)
  | c => (c, t)

end Channel

end GameExport.Shell
