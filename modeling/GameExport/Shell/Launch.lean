import GameExport.Shell.Run

/-! # Starting programs

The decompiler of an export is whatever program the configuration names, and that may be a script.
So what an export does to the files depends on what such programs do. A program is looked up and run
to its end with nothing to read.
-/

namespace GameExport.Shell

open Text.Utf8 (encode)

def Target.run (target : Target) (t : FileTree) : ProgramResult × FileTree :=
  match target with
  | .shell called args =>
      match Task.ofArguments called t args with
      | .ok task => runScript task t
      | .error complaint => (⟨.code 2, [], encode complaint⟩, t)
  | .tool called program args =>
      let r := program called args [] t
      (⟨.code r.status, r.output, r.complaints⟩, r.tree)
  | .refusal status complaint => (⟨.code status, [], encode complaint⟩, t)

/-- Starts a program with arguments and runs it to its end. -/
def launch : ProgramRunner := fun program args =>
  if (program :: args).any fun a => a.toList.contains '\x00' then throw .zeroInArgument
  else .of fun t =>
    match Target.find t program args with
    | .error e => (.error e, t)
    | .ok target =>
        let (r, t) := target.run t
        (.ok r, t)

end GameExport.Shell
