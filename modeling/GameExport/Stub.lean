import GameExport.Assembly
import GameExport.FileName
import GameExport.Path

/-! # Placeholder sources

A script that no decompiler has produced gets a source file that declares its class and nothing
else, so that the project compiles and the references to the script stay alive.
-/

namespace GameExport.Stub

/-- The comment in the body of every placeholder class. -/
def comment : String :=
  "//Dummy class. Use different settings or provide .NET dll files for better decompilation output"

/-- The declaration of a class, with the text that stands before each of its lines. -/
def declaration (indent className : String) : String :=
  indent ++ "public class " ++ className ++ " : MonoBehaviour\n" ++
    indent ++ "\x7b\n" ++
    indent ++ "\t" ++ comment ++ "\n" ++
    indent ++ "\x7d\n"

def source (ns className : String) : String :=
  "using UnityEngine;\n\n" ++
    if ns = "" then declaration "" className
    else "namespace " ++ ns ++ "\n\x7b\n" ++ declaration "\t" className ++ "\x7d\n"

/-- The directory that is remembered for an assembly of which only placeholders exist. -/
def directory (root : Path) (assembly : String) : Path :=
  (root.join Assembly.scriptsFolder).join (FileName.sanitize assembly)

end GameExport.Stub
