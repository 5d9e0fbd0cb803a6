import GameExport.Shell.FileTool
import GameExport.Shell.Filter
import GameExport.Shell.Format
import GameExport.Shell.Question

/-! # The toolbox

All tools by their names. Some of them belong to the shell itself, so that they complain in its
name; the other ones are programs.
-/

namespace GameExport.Shell.Tool

/-- Tools that belong to the shell. -/
def ofShell : List (String × Tool) :=
  [(":", succeed), ("true", succeed), ("false", failing), ("echo", echo), ("printf", printf),
   ("test", test), ("[", bracketed "]" test), ("pwd", pwd)]

/-- Tools that are programs only. -/
def programs : List (String × Tool) :=
  [("basename", basename), ("cat", cat), ("chmod", chmod), ("cp", cp), ("dirname", dirname),
   ("head", head), ("ls", ls), ("mkdir", mkdir), ("mv", mv), ("rm", rm), ("rmdir", rmdir),
   ("seq", seq), ("sleep", sleep), ("tee", tee), ("touch", touch), ("tr", tr), ("wc", wc),
   ("test", testProgram), ("[", bracketed (quotedFinely "]") testProgram)]

/-- The tool that a program of the given name is. Almost all tools of the shell are programs too,
and some of these use other words. -/
def program? (name : String) : Option Tool :=
  if name = ":" then none else (programs ++ ofShell).lookup name

end GameExport.Shell.Tool
