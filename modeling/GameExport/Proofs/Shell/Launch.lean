import GameExport.Decompile.Command
import GameExport.Proofs.Export.Containment
import GameExport.Proofs.Shell.Tool
import GameExport.Shell.Launch

/-! # Programs that are started

A program that cannot be started changes nothing. One that is run to its end may change files, but
not the directory from which relative paths start. As a decompiler only a script can do something:
the programs of the system do not know the options of a decompiler, and refuse to work.
-/

namespace GameExport.Shell

open FileTree

variable {t u : FileTree} {program : String} {args : List String}

namespace Target

/-- What is started is a shell, one of the tools that have names, or nothing. -/
def IsKnown : Target → Prop
  | .tool _ known _ => ∃ n, Tool.program? n = some known
  | _ => True

theorem isKnown_of_direct {called name : String} {target : Target}
    (h : (if shellNames.contains name then some (Target.shell called args)
      else (Tool.program? name).map fun tool => .tool called tool args) = some target) :
    target.IsKnown := by
  split at h
  · rw [← Option.some.inj h]
    trivial
  · obtain ⟨tool, htool, rfl⟩ := Option.map_eq_some_iff.mp h
    exact ⟨name, htool⟩

theorem isKnown_ofSystem (called name : String) (args : List String) :
    (ofSystem called name args).IsKnown := by
  unfold ofSystem
  dsimp only
  split
  · next target heq => exact isKnown_of_direct heq
  · next inner rest hnone =>
      split
      · trivial
      · cases hd : (if shellNames.contains inner then some (Target.shell inner rest)
          else (Tool.program? inner).map fun tool => .tool inner tool rest) with
        | none => trivial
        | some target => exact isKnown_of_direct hd
  · trivial

/-- Whatever a program is found to be is known. -/
theorem isKnown_of_find {target : Target} (h : find t program args = .ok target) :
    target.IsKnown := by
  unfold find at h
  split at h
  · rw [← Except.ok.inj h]
    exact isKnown_ofSystem _ _ _
  · split at h
    · obtain ⟨l, -, h⟩ := bind_eq_ok.mp h
      split at h
      · split at h
        · cases h
        · split at h
          · rw [← Except.ok.inj h]
            exact isKnown_ofSystem _ _ _
          · cases h
      · cases h
      · cases h
    · split at h <;> cases h

/-- What has been started ends where it started. -/
theorem IsKnown.run_samePlace {target : Target} (h : target.IsKnown) (t : FileTree) :
    SamePlace t (target.run t).2 := by
  cases target with
  | shell called args =>
      unfold run
      dsimp only
      split
      · rfl
      · exact SamePlace.refl t
  | tool called tool args =>
      obtain ⟨n, htool⟩ := h
      exact Tool.samePlace_of_program? htool called args [] t
  | refusal status complaint => exact SamePlace.refl t

end Target

/-- A program cannot be started, or it is run to its end. -/
theorem outcome_launch (program : String) (args : List String) (t : FileTree) :
    (∃ e, (launch program args).outcome t = (.error e, t)) ∨
      ∃ target, Target.find t program args = .ok target ∧
        (launch program args).outcome t = (.ok (target.run t).1, (target.run t).2) := by
  unfold launch
  split
  · exact Or.inl ⟨.zeroInArgument, rfl⟩
  · rw [Action.outcome_of]
    split
    · next e _ => exact Or.inl ⟨e, rfl⟩
    · next target heq => exact Or.inr ⟨target, heq, rfl⟩

/-- A program that cannot be started changes nothing. -/
theorem tree_of_launch_eq_error {e : FileError}
    (h : (launch program args).outcome t = (.error e, u)) : u = t := by
  rcases outcome_launch program args t with ⟨e', he⟩ | ⟨target, -, hok⟩
  · rw [he] at h
    exact (Prod.mk.inj h).2.symm
  · rw [hok] at h
    cases h

/-- Whatever a program does, it ends where it started. -/
theorem launch_samePlace (program : String) (args : List String) :
    (launch program args).Moves SamePlace := by
  intro t
  rcases outcome_launch program args t with ⟨e, he⟩ | ⟨target, hfind, hok⟩
  · rw [he]
    exact SamePlace.refl t
  · rw [hok]
    exact (Target.isKnown_of_find hfind).run_samePlace t

/-! ## Programs of the system as decompilers -/

/-- A shell takes no options with two dashes. -/
theorem ofArguments_project (called : String) (t : FileTree) (args : List String) :
    ∃ complaint, Task.ofArguments called t ("--project" :: args) = .error complaint := by
  have hletters (choice : Settings.Choice) :
      Settings.readLetters true true ('-' :: "project".toList) args choice =
        .error "Illegal option --" := by
    have hunknown : (Settings.names.map Prod.snd).contains '-' = false := by decide
    simp only [Settings.readLetters, hunknown]
    rfl
  have hchars : "--project".toList = '-' :: '-' :: "project".toList := rfl
  have hread : Settings.read true [] ("--project" :: args) = .error "Illegal option --" := by
    rw [Settings.read, List.length_cons, Settings.readSome, if_neg (by decide)]
    simp only [hchars, hletters]
    rfl
  unfold Task.ofArguments
  rw [hread]
  exact ⟨_, rfl⟩

/-- A program of the system that is called like a decompiler changes nothing. -/
theorem tree_of_launch_project {name : String} (h : systemProgram? program = some name)
    (args : List String) (t : FileTree) :
    ((launch program ("--project" :: args)).outcome t).2 = t := by
  rcases outcome_launch program ("--project" :: args) t with ⟨e, he⟩ | ⟨target, hfind, hok⟩
  · rw [he]
  · rw [hok]
    rw [Target.find, h] at hfind
    obtain rfl := Except.ok.inj hfind
    unfold Target.ofSystem
    dsimp only
    split
    · next target heq =>
        split at heq
        · obtain rfl := Option.some.inj heq
          obtain ⟨complaint, hcomplaint⟩ := ofArguments_project program t args
          rw [Target.run]
          simp only [hcomplaint]
        · obtain ⟨tool, htool, rfl⟩ := Option.map_eq_some_iff.mp heq
          exact Tool.tree_of_project htool program args [] t
    · next inner rest hnone hargs =>
        obtain ⟨rfl, rfl⟩ := List.cons.inj hargs
        have hoption : "--project".startsWith "--" = true :=
          String.startsWith_string_iff.mpr (by decide)
        rw [if_pos hoption]
        rfl
    · rfl

end GameExport.Shell

namespace GameExport.Decompiler

/-- As decompilers the programs of the system change nothing. -/
theorem isConfined_ofProgram_launch {δ : Type} {program name : String}
    (h : Shell.systemProgram? program = some name) (settings : DecompileSettings) :
    (ofProgram Shell.launch program : Decompiler δ).IsConfined settings := by
  intro a directory
  have hrefl (s : FileTree × δ) : FileTree.ChangesWithin (.under directory) .none s.1 s.1 := .refl s.1
  have htrans (s u v : FileTree × δ) (hs : FileTree.ChangesWithin (.under directory) .none s.1 u.1)
      (hu : FileTree.ChangesWithin (.under directory) .none u.1 v.1) :
      FileTree.ChangesWithin (.under directory) .none s.1 v.1 := hs.trans hu
  have hlaunch : (Shell.launch program (arguments a directory settings)).Moves
      (FileTree.ChangesWithin (.under directory) .none) := by
    intro t
    rw [arguments, Shell.tree_of_launch_project h]
    exact .refl t
  unfold ofProgram
  split
  · exact .pure hrefl ()
  · refine .bind htrans ((Work.files_moves hlaunch).during _) fun result => ?_
    split
    · exact .pure hrefl ()
    · exact .throw hrefl _

end GameExport.Decompiler
