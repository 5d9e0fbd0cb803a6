import GameExport.Decompile.Command
import GameExport.Proofs.Disk.Operations
import GameExport.Proofs.Job
import GameExport.Proofs.Script.Paths

/-! # Decompiling assemblies

A run takes down the assemblies of the list that are more than references, whatever the decompiler
does. A decompiler that does nothing leaves their directories, and a second run finds them.
-/

namespace GameExport

open GameExport.Path FileTree

variable {σ : Type} {root : Path} {settings : DecompileSettings}

def ManagedAssembly.listed (as : List ManagedAssembly) : List String :=
  (as.map fun a => Assembly.baseName a.name).filter fun name => !Assembly.isReference name

namespace ManagedAssembly

theorem listed_cons (a : ManagedAssembly) (as : List ManagedAssembly) :
    listed (a :: as) =
      if Assembly.isReference (Assembly.baseName a.name) then listed as
      else Assembly.baseName a.name :: listed as := by
  rw [listed, List.map_cons, List.filter_cons]
  cases Assembly.isReference (Assembly.baseName a.name) <;> rfl

end ManagedAssembly

namespace Decompiler

def IsIdle (d : Decompiler σ) (settings : DecompileSettings) : Prop :=
  ∀ a directory s, (d a directory settings).outcome s = (.ok (), s)

/-- Where only placeholders are wanted, a program is not even started. -/
theorem isIdle_ofProgram (run : ProgramRunner) (program : String)
    (hlevel : settings.level = .stubs) :
    (ofProgram run program : Decompiler σ).IsIdle settings := by
  intro a directory s
  have hskip : effectiveLevel settings.level = .stubs := by rw [hlevel]; rfl
  unfold ofProgram
  rw [if_pos hskip, Action.outcome_pure]

variable {d : Decompiler σ} {a : ManagedAssembly} {as : List ManagedAssembly} {j k : Job σ}
  {n : Nat}

/-- A reference is passed over: nothing is made for it, and no call counts. -/
theorem runOne_of_isReference (h : Assembly.isReference (Assembly.baseName a.name)) :
    d.runOne root settings a = pure 0 := by
  rw [runOne]
  exact if_pos h

/-- For any other assembly the directory is made, the decompiler works in it, and the assembly is
taken down. -/
theorem runOne_eq_ok (hname : Assembly.isReference (Assembly.baseName a.name) = false) :
    (d.runOne root settings a).outcome j = (.ok n, k) ↔
      ∃ v s, (Disk.makeDirectories
            (ManagedAssembly.directory root (Assembly.baseName a.name))).outcome j.tree =
          (.ok (), v) ∧
        (d a (ManagedAssembly.directory root (Assembly.baseName a.name)) settings).outcome
          (v, j.own) = (.ok (), s) ∧
        n = 1 ∧
        k = ⟨s.1, (j.descriptors.tryAdd (Assembly.baseName a.name)
          (ManagedAssembly.directory root (Assembly.baseName a.name))).2, s.2⟩ := by
  unfold runOne
  dsimp only
  rw [if_neg (by simp [hname])]
  constructor
  · intro h
    obtain ⟨_, j₁, hmake, h⟩ := Action.outcome_bind_eq_ok.mp h
    obtain ⟨_, j₂, hdecompile, h⟩ := Action.outcome_bind_eq_ok.mp h
    obtain ⟨_, j₃, htake, h⟩ := Action.outcome_bind_eq_ok.mp h
    rw [Action.outcome_during_eq_ok, Job.outcome_files_eq_ok] at hmake
    obtain ⟨v, hmake, rfl⟩ := hmake
    rw [Action.outcome_during_eq_ok, Job.outcome_help_eq_ok] at hdecompile
    obtain ⟨s, hdecompile, rfl⟩ := hdecompile
    obtain ⟨-, rfl⟩ := Prod.mk.inj htake
    obtain ⟨hn, rfl⟩ := Prod.mk.inj h
    exact ⟨v, s, hmake, hdecompile, (Except.ok.inj hn).symm, rfl⟩
  · rintro ⟨v, s, hmake, hdecompile, rfl, rfl⟩
    refine Action.outcome_bind_eq_ok.mpr ⟨(), { j with tree := v }, ?_, ?_⟩
    · rw [Action.outcome_during_eq_ok, Job.outcome_files_eq_ok]
      exact ⟨v, hmake, rfl⟩
    refine Action.outcome_bind_eq_ok.mpr ⟨(), { j with tree := s.1, own := s.2 }, ?_, ?_⟩
    · rw [Action.outcome_during_eq_ok, Job.outcome_help_eq_ok]
      exact ⟨s, hdecompile, rfl⟩
    exact Action.outcome_bind_eq_ok.mpr ⟨(), _, rfl, rfl⟩

theorem run_cons_eq_ok :
    (d.run root settings (a :: as)).outcome j = (.ok n, k) ↔
      ∃ first i rest, (d.runOne root settings a).outcome j = (.ok first, i) ∧
        (d.run root settings as).outcome i = (.ok rest, k) ∧ n = first + rest := by
  rw [run, Action.outcome_bind_eq_ok]
  constructor
  · rintro ⟨first, i, hfirst, h⟩
    obtain ⟨rest, k', hrest, h⟩ := Action.outcome_bind_eq_ok.mp h
    obtain ⟨hn, rfl⟩ := Prod.mk.inj h
    exact ⟨first, i, rest, hfirst, hrest, (Except.ok.inj hn).symm⟩
  · rintro ⟨first, i, rest, hfirst, hrest, rfl⟩
    exact ⟨first, i, hfirst, Action.outcome_bind_eq_ok.mpr ⟨rest, k, hrest, rfl⟩⟩

/-- A run takes down exactly the listed assemblies, unless they are taken down already. -/
theorem run_descriptors (h : (d.run root settings as).outcome j = (.ok n, k)) (name : String) :
    k.descriptors.get? name = (j.descriptors.get? name).or
      (if name ∈ ManagedAssembly.listed as then
        some ⟨name, ManagedAssembly.directory root name⟩ else none) := by
  induction as generalizing j n with
  | nil =>
      obtain ⟨-, rfl⟩ := Prod.mk.inj h
      rw [if_neg (by simp [ManagedAssembly.listed]), Option.or_none]
  | cons a as ih =>
      obtain ⟨first, i, rest, hfirst, hrest, rfl⟩ := run_cons_eq_ok.mp h
      rw [ih hrest, ManagedAssembly.listed_cons]
      cases hname : Assembly.isReference (Assembly.baseName a.name) with
      | true =>
          rw [runOne_of_isReference hname] at hfirst
          obtain ⟨-, rfl⟩ := Prod.mk.inj hfirst
          rw [if_pos rfl]
      | false =>
          obtain ⟨v, s, -, -, -, rfl⟩ := (runOne_eq_ok hname).mp hfirst
          -- the first directory for a name stays, so later entries of the list do not count
          rw [if_neg Bool.false_ne_true, DescriptorMap.get?_tryAdd, Option.or_assoc]
          by_cases heq : Assembly.baseName a.name = name
          · subst heq
            simp
          · simp [heq, Ne.symm heq]

/-- After a run of an idle decompiler the directories of all listed assemblies are there. -/
theorem run_grows (hd : d.IsIdle settings) (h : (d.run root settings as).outcome j = (.ok n, k)) :
    Grows j.tree k.tree ∧ ∀ name ∈ ManagedAssembly.listed as,
      k.tree.isDirectory (ManagedAssembly.directory root name) := by
  induction as generalizing j n with
  | nil =>
      obtain ⟨-, rfl⟩ := Prod.mk.inj h
      exact ⟨.refl _, by simp [ManagedAssembly.listed]⟩
  | cons a as ih =>
      obtain ⟨first, i, rest, hfirst, hrest, rfl⟩ := run_cons_eq_ok.mp h
      obtain ⟨hgrows, hthere⟩ := ih hrest
      rw [ManagedAssembly.listed_cons]
      cases hname : Assembly.isReference (Assembly.baseName a.name) with
      | true =>
          rw [runOne_of_isReference hname] at hfirst
          obtain ⟨-, rfl⟩ := Prod.mk.inj hfirst
          rw [if_pos rfl]
          exact ⟨hgrows, hthere⟩
      | false =>
          obtain ⟨v, s, hmake, hdecompile, -, rfl⟩ := (runOne_eq_ok hname).mp hfirst
          rw [hd] at hdecompile
          obtain ⟨-, rfl⟩ := Prod.mk.inj hdecompile
          have hne :=
            (ManagedAssembly.isPlaced_directory root (Assembly.baseName a.name)).text_ne_empty
          obtain ⟨-, hdirectory, -⟩ := Disk.makeDirectories_eq_ok hmake
          refine ⟨(Disk.makeDirectories_grows hmake).trans hgrows, fun name hmem => ?_⟩
          rw [if_neg Bool.false_ne_true] at hmem
          rcases List.mem_cons.mp hmem with rfl | hmem
          · exact hgrows.isDirectory (hdirectory hne)
          · exact hthere name hmem

/-- Where the directories of all listed assemblies are there, an idle decompiler changes nothing. -/
theorem run_of_isDirectory (hd : d.IsIdle settings)
    (hthere : ∀ name ∈ ManagedAssembly.listed as,
      j.tree.isDirectory (ManagedAssembly.directory root name)) :
    ∃ n m, (d.run root settings as).outcome j = (.ok n, { j with descriptors := m }) := by
  induction as generalizing j with
  | nil => exact ⟨0, j.descriptors, rfl⟩
  | cons a as ih =>
      rw [ManagedAssembly.listed_cons] at hthere
      cases hname : Assembly.isReference (Assembly.baseName a.name) with
      | true =>
          rw [if_pos hname] at hthere
          obtain ⟨n, m, hrest⟩ := ih hthere
          refine ⟨0 + n, m, run_cons_eq_ok.mpr ⟨0, j, n, ?_, hrest, rfl⟩⟩
          rw [runOne_of_isReference hname, Action.outcome_pure]
      | false =>
          rw [if_neg (by simp [hname])] at hthere
          have hdirectory := hthere _ List.mem_cons_self
          obtain ⟨last, hlast⟩ :=
            (ManagedAssembly.isPlaced_directory root (Assembly.baseName a.name)).getLast?_directory
          dsimp only at hlast
          have hmake := Disk.makeDirectories_of_isDirectory hdirectory hlast
          have hone := (runOne_eq_ok hname).mpr
            ⟨j.tree, _, hmake, hd a _ (j.tree, j.own), rfl, rfl⟩
          have hothers : ∀ name ∈ ManagedAssembly.listed as,
              j.tree.isDirectory (ManagedAssembly.directory root name) :=
            fun name hmem => hthere name (List.mem_cons_of_mem _ hmem)
          obtain ⟨n, m, hrest⟩ := ih (j := ⟨j.tree, (j.descriptors.tryAdd _ _).2, j.own⟩) hothers
          exact ⟨1 + n, m, run_cons_eq_ok.mpr ⟨1, _, n, hone, hrest, rfl⟩⟩

end Decompiler

end GameExport
