import GameExport.Decompile.Run

/-! # Decompilers on the command line

A decompiler may be a program that is told where to write, which version of C# to write and what
to read. Such a program cannot leave out the bodies of methods.
-/

namespace GameExport.Decompiler

/-- The level that such a program keeps where another one is asked for. -/
def effectiveLevel : ContentLevel → ContentLevel
  | .declarations => .bodies
  | level => level

def arguments (a : ManagedAssembly) (directory : Path) (settings : DecompileSettings) :
    List String :=
  ["--project", "--outputdir", directory.text, "--languageversion", settings.language.optionName,
   a.path.text]

/-- The decompiler that runs a program. Where only placeholders are wanted it does nothing. -/
def ofProgram {σ : Type} (run : ProgramRunner) (program : String) : Decompiler σ :=
  fun a directory settings =>
    if effectiveLevel settings.level = .stubs then pure ()
    else do
      let result ← Action.during (.running program)
        (Work.files (run program (arguments a directory settings)))
      if result.status.isSuccess then pure ()
      else throw (.exited program result.status result.complaint)

end GameExport.Decompiler
