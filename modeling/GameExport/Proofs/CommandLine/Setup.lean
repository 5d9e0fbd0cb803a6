import GameExport.CommandLine.Run
import GameExport.Proofs.Workspace.Preparing

/-! # Commands that are set up badly

A command reads its configuration first, and an export reads its manifest next. The workspace is not
touched before the length of its names has been looked at. The first fault that is met ends the
command, and until then nothing has been written.
-/

namespace GameExport

/-! ## What is read before anything is written -/

/-- A configuration is read if its file is there, and is the default one otherwise. -/
theorem Config.load_eq_ok {t : FileTree} {p : Path} {c : Config} :
    load t p = .ok c ↔
      (t.contains p = false ∧ c = {}) ∨
        t.contains p ∧ ∃ text, Disk.readText t p = .ok text ∧ parse text = .ok c := by
  unfold load
  cases hfound : t.contains p with
  | false => simp [eq_comm]
  | true =>
      cases hread : Disk.readText t p with
      | error e => simp
      | ok text => simp [mapError_eq_ok]

theorem Manifest.load_eq_ok {t : FileTree} {p : Path} {m : Manifest} :
    load t p = .ok m ↔ ∃ text, Disk.readText t p = .ok text ∧ parse text = .ok m := by
  unfold load
  cases hread : Disk.readText t p with
  | error e => simp
  | ok text => cases hparse : parse text <;> simp [hparse]

namespace CommandLine

def Invocation.configPath (i : Invocation) : Path := i.config.getD ⟨Config.fileName⟩

def Invocation.OpensWorkspace (i : Invocation) : Prop := ∀ directory, i.command ≠ .init directory

/-- Something is wrong with what a command is told in files: a configuration that is there is of no
use, or the manifest of an export is, or random names would be too short. -/
inductive BadSetup (i : Invocation) (t : FileTree) : Prop where
  | config : t.contains i.configPath →
      (∀ text c, Disk.readText t i.configPath = .ok text → Config.parse text ≠ .ok c) → BadSetup i t
  | manifest {manifest output : Path} {withMetadata : Bool} :
      i.command = .exportScripts manifest output withMetadata →
      (∀ text m, Disk.readText t manifest = .ok text → Manifest.parse text ≠ .ok m) → BadSetup i t
  | names {text : String} {c : Config} : t.contains i.configPath →
      Disk.readText t i.configPath = .ok text → Config.parse text = .ok c →
      c.workspace.nameLength.toNat < Workspace.minNameLength → BadSetup i t

/-- Why no workspace is opened for names that are too short. Without a directory that is given, the
one of the program is looked for first. -/
def refusalOfNames (e : Environment) (directory : Option Path) (length : Nat) : WorkspaceError :=
  match directory, e.executableDirectory with
  | none, .error cause => .executable cause
  | _, _ => .nameLength length

/-- The report of the fault that is met first. -/
inductive FirstFault (e : Environment) (i : Invocation) (t : FileTree) : Report → Prop where
  | config {cause : ConfigError} : Config.load t i.configPath = .error cause →
      FirstFault e i t (.ofConfigError cause)
  | manifest {c : Config} {manifest output : Path} {withMetadata : Bool} {cause : Failure} :
      Config.load t i.configPath = .ok c →
      i.command = .exportScripts manifest output withMetadata →
      Manifest.load t manifest = .error cause → FirstFault e i t (.ofFailure cause)
  | names {c : Config} : Config.load t i.configPath = .ok c →
      (∀ manifest output withMetadata, i.command = .exportScripts manifest output withMetadata →
        ∃ m, Manifest.load t manifest = .ok m) →
      c.workspace.nameLength.toNat < Workspace.minNameLength →
      FirstFault e i t
        (.ofWorkspaceError (refusalOfNames e i.workspace c.workspace.nameLength.toNat))

section Faults

variable {e : Environment} {i : Invocation} {t : FileTree}

/-- Names that are too short are the first fault, unless the manifest is one. -/
theorem exists_firstFault_of_names {c : Config} (hload : Config.load t i.configPath = .ok c)
    (hshort : c.workspace.nameLength.toNat < Workspace.minNameLength) :
    ∃ r, FirstFault e i t r := by
  cases hcommand : i.command with
  | init directory => exact ⟨_, .names hload (by simp [hcommand]) hshort⟩
  | stage inputs => exact ⟨_, .names hload (by simp [hcommand]) hshort⟩
  | exportScripts manifest output withMetadata =>
      cases hread : Manifest.load t manifest with
      | error cause => exact ⟨_, .manifest hload hcommand hread⟩
      | ok m =>
          refine ⟨_, .names hload (fun manifest' _ _ hcommand' => ⟨m, ?_⟩) hshort⟩
          rw [hcommand] at hcommand'
          cases hcommand'
          exact hread

/-- Of all that is wrong with a setup something is met first. -/
theorem exists_firstFault (h : BadSetup i t) : ∃ r, FirstFault e i t r := by
  cases hload : Config.load t i.configPath with
  | error cause => exact ⟨_, .config hload⟩
  | ok c =>
      cases h with
      | config hfound hbad =>
          rcases Config.load_eq_ok.mp hload with ⟨hmissing, -⟩ | ⟨-, text, hread, hparse⟩
          · simp [hfound] at hmissing
          · exact absurd hparse (hbad text c hread)
      | @manifest manifest _ _ hcommand hbad =>
          cases hread : Manifest.load t manifest with
          | error cause => exact ⟨_, .manifest hload hcommand hread⟩
          | ok m =>
              obtain ⟨text, htext, hparse⟩ := Manifest.load_eq_ok.mp hread
              exact absurd hparse (hbad text m htext)
      | @names text c' hfound hread hparse hshort =>
          have hload' : Config.load t i.configPath = .ok c' :=
            Config.load_eq_ok.mpr (Or.inr ⟨hfound, text, hread, hparse⟩)
          exact exists_firstFault_of_names hload' hshort

end Faults

/-! ## Commands that end there -/

section Commands

variable {e : Environment} {i : Invocation} {s : Stage} {r : Report}

theorem outcome_loadConfig (i : Invocation) (s : Stage) :
    (loadConfig i.config).outcome s =
      ((Config.load s.tree i.configPath).mapError Report.ofConfigError, s) := rfl

/-- No workspace is opened for names that are too short, wherever it would be. -/
theorem outcome_prepareWorkspace_of_short {c : Config}
    (h : c.workspace.nameLength.toNat < Workspace.minNameLength) (directory : Option Path) :
    (prepareWorkspace e c directory).outcome s =
      (.error (.ofWorkspaceError (refusalOfNames e directory c.workspace.nameLength.toNat)),
        s) := by
  have hprepare (root : Path) := Workspace.outcome_prepare_of_short h root s.tree
  unfold prepareWorkspace Task.files refusalOfNames
  rw [Action.outcome_zoom, Action.outcome_mapError]
  cases directory with
  | some d =>
      dsimp only
      rw [hprepare]
      rfl
  | none =>
      cases e.executableDirectory with
      | error cause => rfl
      | ok d =>
          dsimp only [Workspace.prepareBeside]
          rw [hprepare]
          rfl

/-- What is written before the first fault is nothing. -/
theorem outcome_perform_of_firstFault (hopens : i.OpensWorkspace)
    (h : FirstFault e i s.tree r) : (perform e i).outcome s = (.error r, s) := by
  unfold perform
  cases hcommand : i.command with
  | init directory => exact absurd hcommand (hopens directory)
  | stage inputs =>
      dsimp only
      rw [stage, Action.outcome_bind, outcome_loadConfig]
      cases h with
      | config hload =>
          rw [hload]
          rfl
      | manifest _ hexport _ =>
          rw [hcommand] at hexport
          cases hexport
      | names hload _ hshort =>
          rw [hload]
          dsimp only [Except.mapError]
          rw [Action.outcome_bind, outcome_prepareWorkspace_of_short hshort]
  | exportScripts manifest output withMetadata =>
      dsimp only
      rw [exportScripts, Action.outcome_bind, outcome_loadConfig]
      cases h with
      | config hload =>
          rw [hload]
          rfl
      | manifest hload hexport hread =>
          rw [hcommand] at hexport
          cases hexport
          rw [hload]
          dsimp only [Except.mapError]
          rw [Action.outcome_bind, Task.find, Action.outcome_of, hread]
          rfl
      | names hload hmanifest hshort =>
          obtain ⟨m, hread⟩ := hmanifest _ _ _ hcommand
          rw [hload]
          dsimp only [Except.mapError]
          rw [Action.outcome_bind, Task.find, Action.outcome_of, hread]
          dsimp only [Except.mapError]
          rw [Action.outcome_bind, outcome_prepareWorkspace_of_short hshort]

end Commands

/-- A command that is set up badly fails with the report of the first fault, and everything is left
as it is: the files, whatever is in the workspace directory and at the output, and the source of
names. -/
theorem run_refusesBadSetup {args : List String} {i : Invocation}
    (hargs : Request.ofArguments args = .run i) (hopens : i.OpensWorkspace) (e : Environment)
    (s : Stage) (hbad : BadSetup i s.tree) :
    ∃ r, FirstFault e i s.tree r ∧ run e args s = ({ code := 1, complaint := r.text }, s) := by
  obtain ⟨r, hfirst⟩ := exists_firstFault (e := e) hbad
  refine ⟨r, hfirst, ?_⟩
  rw [run, hargs]
  dsimp only
  rw [outcome_perform_of_firstFault hopens hfirst]

/-- The configuration asks for names of five characters, and the workspace would be beside the
program. -/
theorem run_refusesBadSetup_of_shortNames :
    let e : Environment :=
      ⟨.ok ⟨"/opt"⟩, fun _ _ => pure ⟨.code 0, [], []⟩, fun _ => .ofRandom 0⟩
    let s : Stage :=
      { tree := ((Disk.writeText ⟨"assetstage.json"⟩
          "\x7b\"workspace\":[\"temp\",5]\x7d").outcome {}).2
        names := { letter := fun _ _ => 0 } }
    ∃ r, FirstFault e ⟨none, none, false, .stage [⟨"game.zip"⟩]⟩ s.tree r ∧
      run e ["stage", "game.zip"] s = ({ code := 1, complaint := r.text }, s) := by
  intro e s
  have hparse : Config.parse "\x7b\"workspace\":[\"temp\",5]\x7d" =
      .ok { workspace := ⟨"temp", 5⟩ } := by decide +kernel
  have hread : Disk.readText s.tree ⟨"assetstage.json"⟩ =
      .ok "\x7b\"workspace\":[\"temp\",5]\x7d" := by decide +kernel
  refine run_refusesBadSetup (by decide +kernel) (by simp [Invocation.OpensWorkspace]) e s ?_
  exact .names (by decide +kernel) hread hparse (by decide)

end CommandLine

end GameExport
