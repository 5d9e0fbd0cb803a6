import GameExport.Path
import GameExport.Text.Utf8

/-! # Paths whose bytes need not be text

File systems allow any bytes in a path. Such a path is shown as text with replacement characters,
and its last part is found among the bytes themselves.
-/

namespace GameExport

structure RawPath where
  bytes : List UInt8
  deriving DecidableEq

namespace RawPath

def slash : UInt8 := 0x2F

def dot : UInt8 := 0x2E

def ofText (s : String) : RawPath := ⟨Text.Utf8.encode s⟩

def shown (p : RawPath) : String := String.ofList (Text.Utf8.decode p.bytes)

def withSuffix (p : RawPath) (suffix : String) : RawPath := ⟨p.bytes ++ Text.Utf8.encode suffix⟩

def fileName (p : RawPath) : Option String :=
  (Path.nameAtEnd slash dot p.bytes).map fun name => String.ofList (Text.Utf8.decode name)

def extension (p : RawPath) : Option String :=
  ((Path.nameAtEnd slash dot p.bytes).bind (Path.extensionOf dot)).bind fun bytes =>
    String.fromUTF8? ⟨bytes.toArray⟩

end RawPath

end GameExport
