import GameExport.Proofs.Decompile
import GameExport.Proofs.Export.Containment
import GameExport.Proofs.Export.Families
import GameExport.Proofs.Staging.Renaming

/-! # Exporting under other names

Two exports write below one output root, which stays where it is, while the assemblies that they
read stand at paths that correspond. Every stage does the same to both trees, provided that the
decompiler goes by the name and the bytes of an assembly and not by its path.
-/

namespace GameExport

open GameExport.Path FileTree

/-! ## Decompilers that do not see names -/

def Location.Apart (l m : Location) : Prop := ¬ l <:+ m ∧ ¬ m <:+ l

/-- What is below the one location is not below the other one. -/
theorem Location.Apart.not_below {l m k : Location} (h : l.Apart m) (hl : l <:+ k) : ¬ m <:+ k := by
  intro hm
  rcases List.suffix_or_suffix_of_suffix hl hm with hle | hle
  · exact h.1 hle
  · exact h.2 hle

structure FileTree.HoldsSame (directory : Path) (t u : FileTree) : Prop where
  workingDirectory : t.workingDirectory = u.workingDirectory
  isDirectory : t.isDirectory directory ∧ u.isDirectory directory
  prior : ∀ m, t.place directory <:+ m → t.get? m = u.get? m

namespace Disk

variable {p : Path} {n : String}

/-- What is written is the same in two trees that agree below the directory. -/
theorem writeAt_parallel (content : ByteArray) (l : Location) (n : String) :
    (writeAt content l n).Parallel
      (fun t u => t.get? l = some .directory ∧ ∀ m, l <:+ m → t.get? m = u.get? m)
      (fun t u => ∀ m, l <:+ m → t.get? m = u.get? m) Eq Eq (writeAt content l n) := by
  rintro t u ⟨hl, hsame⟩
  have hl' : u.get? l = some .directory := by rw [← hsame l List.suffix_rfl, hl]
  have hfile := hsame (n :: l) (List.suffix_cons n l)
  by_cases hnew : t.get? (n :: l) = some .directory
  · simp only [writeAt, Action.outcome_of, dif_pos hl, dif_pos hnew, dif_pos hl',
      dif_pos (hfile.symm.trans hnew)]
    exact ⟨hsame, .error rfl⟩
  · obtain ⟨t', ht', hputs⟩ := writeAt_outcome content hl hnew
    obtain ⟨u', hu', hputs'⟩ := writeAt_outcome content hl' (hfile ▸ hnew)
    rw [ht', hu']
    refine ⟨fun m hm => ?_, .ok rfl⟩
    have hmode : t.isExecutableAt (n :: l) = u.isExecutableAt (n :: l) := by
      rw [isExecutableAt, isExecutableAt, hfile]
    rw [hputs.get?, hputs'.get?, hmode, hsame m hm]

/-- Writing a file into a directory is decided by what the directory holds. -/
theorem write_join_parallel (hn : IsName n) (content : ByteArray) (l : Location) :
    (write (p.join ⟨n⟩) content).Parallel (fun t u => HoldsSame p t u ∧ t.place p = l)
      (fun t u => ∀ m, l <:+ m → t.get? m = u.get? m) Eq Eq (write (p.join ⟨n⟩) content) := by
  have hlook : (look (·.locateParent (p.join ⟨n⟩))).Parallel
      (fun t u => HoldsSame p t u ∧ t.place p = l)
      (fun t u => t.get? l = some .directory ∧ ∀ m, l <:+ m → t.get? m = u.get? m) Eq
      (fun x y => x = (l, .name n) ∧ y = (l, .name n)) (look (·.locateParent (p.join ⟨n⟩))) := by
    rintro t u ⟨h, rfl⟩
    rw [outcome_look, outcome_look]
    refine ⟨⟨(isDirectory_iff.mp h.isDirectory.1).2, h.prior⟩, ?_⟩
    cases hrefusal : (p.join ⟨n⟩).refusal with
    | some e =>
        simp only [locateParent, hrefusal]
        exact .error rfl
    | none =>
        rw [(endsIn_join h.isDirectory.1 hn hrefusal).locateParent_eq,
          (endsIn_join h.isDirectory.2 hn hrefusal).locateParent_eq,
          place_congr h.workingDirectory.symm]
        exact .ok ⟨rfl, rfl⟩
  refine .bind hlook (fun _ _ h => h.2) ?_
  rintro _ _ ⟨rfl, rfl⟩
  have hcheck : (look fun _ => checkName n).Parallel
      (fun t u => t.get? l = some .directory ∧ ∀ m, l <:+ m → t.get? m = u.get? m)
      (fun t u => t.get? l = some .directory ∧ ∀ m, l <:+ m → t.get? m = u.get? m) Eq
      (fun _ _ => True) (look fun _ => checkName n) := by
    intro t u h
    rw [outcome_look, outcome_look]
    cases checkName n with
    | ok x => exact ⟨h, .ok trivial⟩
    | error e => exact ⟨h, .error rfl⟩
  have hrest := Action.Parallel.bind hcheck (fun _ _ h => h.2) fun _ _ _ =>
    writeAt_parallel content l n
  dsimp only
  cases (p.join ⟨n⟩).endsInSlash with
  | true => exact .bind (V := Eq) (.throw rfl) (fun _ _ h => h.2) fun _ _ _ => hrest
  | false => exact hrest

end Disk

namespace Decompiler

variable {δ : Type} {d : Decompiler δ} {settings : DecompileSettings} {workspace : Location}

/-- The name and the bytes of two assemblies are the same, and so is what a directory holds. -/
structure SeesSame (directory : Path) (a b : ManagedAssembly) (t u : FileTree) : Prop
    extends HoldsSame directory t u where
  name : a.name = b.name
  bytes : Disk.read t a.path = Disk.read u b.path

/-- What a decompiler does is decided by the name and the bytes of the assembly, by what the
directory held before, and by the settings: at every location it leaves what was there or puts what
is so decided. It leaves a workspace alone that is apart from the directory. -/
structure IsOblivious (d : Decompiler δ) (settings : DecompileSettings) (workspace : Location) :
    Prop where
  spares : ∀ a directory (s : FileTree × δ), (s.1.place directory).Apart workspace →
    ((d a directory settings).outcome s).2.1.workingDirectory = s.1.workingDirectory ∧
    ∀ m, workspace <:+ m → ((d a directory settings).outcome s).2.1.get? m = s.1.get? m
  decided : ∀ a b directory (s u : FileTree × δ), SeesSame directory a b s.1 u.1 →
    ((d a directory settings).outcome s).1.isOk = ((d b directory settings).outcome u).1.isOk ∧
    ∀ m, ((d a directory settings).outcome s).2.1.get? m =
        ((d b directory settings).outcome u).2.1.get? m ∨
      ((d a directory settings).outcome s).2.1.get? m = s.1.get? m ∧
        ((d b directory settings).outcome u).2.1.get? m = u.1.get? m

/-- A decompiler that changes nothing but its directory need only be decided there. -/
theorem IsConfined.isOblivious (hd : d.IsConfined settings)
    (hdecided : ∀ a b directory l, (d a directory settings).Parallel
      (fun s u => SeesSame directory a b s.1 u.1 ∧ s.1.place directory = l)
      (fun s u => ∀ m, l <:+ m → s.1.get? m = u.1.get? m) (fun _ _ => True) Eq
      (d b directory settings)) (workspace : Location) : d.IsOblivious settings workspace where
  spares := by
    intro a directory s hapart
    refine ⟨(hd a directory s).workingDirectory, fun m hm => ?_⟩
    refine ((hd a directory s).outside m fun hin => ?_).resolve_right fun hmade => hmade.1
    exact hapart.not_below hin hm
  decided := by
    intro a b directory s u hsame
    obtain ⟨hinside, hends⟩ := hdecided a b directory _ s u ⟨hsame, rfl⟩
    refine ⟨hends.isOk_eq, fun m => ?_⟩
    by_cases hm : s.1.place directory <:+ m
    · exact Or.inl (hinside m hm)
    · have hm' : ¬ u.1.place directory <:+ m := by rwa [← place_congr hsame.workingDirectory]
      exact Or.inr ⟨((hd a directory s).outside m hm).resolve_right fun hmade => hmade.1,
        ((hd b directory u).outside m hm').resolve_right fun hmade => hmade.1⟩

/-- A program that is never started sees nothing. -/
theorem isOblivious_ofProgram (run : ProgramRunner) (program : String)
    (hlevel : settings.level = .stubs) (workspace : Location) :
    (ofProgram run program : Decompiler δ).IsOblivious settings workspace := by
  apply (isConfined_ofProgram run program hlevel).isOblivious
  rintro a b directory _ s u ⟨hsame, rfl⟩
  rw [isIdle_ofProgram run program hlevel, isIdle_ofProgram run program hlevel]
  exact ⟨hsame.prior, .ok rfl⟩

/-- A decompiler that puts what it makes of the name and the bytes of an assembly in one file. -/
def intoFile (n : String) (translate : String → Except FileError ByteArray → DecompileSettings →
    Except Failure ByteArray) : Decompiler δ :=
  fun a directory settings => do
    let source ← .of fun s => (translate a.name (Disk.read s.1 a.path) settings, s)
    Work.files (Disk.write (directory.join ⟨n⟩) source)

/-- Such a decompiler sees nothing but the name and the bytes. -/
theorem isOblivious_intoFile {n : String} (hn : IsName n)
    (translate : String → Except FileError ByteArray → DecompileSettings →
      Except Failure ByteArray) (workspace : Location) :
    (intoFile n translate : Decompiler δ).IsOblivious settings workspace := by
  have hconfined : (intoFile n translate : Decompiler δ).IsConfined settings := by
    intro a directory
    refine .bind (fun _ _ _ h k => h.trans k) (fun s => .refl s.1) fun source => ?_
    refine .zoom (fun _ _ h => h) (Disk.write_moves fun l => ?_).mapError
    rw [Region.under, place_join_name directory hn]
    exact List.suffix_cons _ _
  refine hconfined.isOblivious (fun a b directory l => ?_) workspace
  refine .bind (V := Eq) (Q := fun s u => HoldsSame directory s.1 u.1 ∧ s.1.place directory = l)
    ?_ (fun _ _ h => h.2 ▸ h.1.prior) ?_
  · rintro s u ⟨hsame, hplace⟩
    rw [Action.outcome_of, Action.outcome_of, hsame.name, hsame.bytes]
    refine ⟨⟨hsame.toHoldsSame, hplace⟩, ?_⟩
    cases translate b.name (Disk.read u.1 b.path) settings with
    | ok _ => exact .ok rfl
    | error _ => exact .error trivial
  · rintro source _ rfl
    refine ((Disk.write_join_parallel hn source l).mapError fun _ _ _ => trivial).zoom ?_ ?_
    · exact fun _ _ h => h
    · exact fun _ _ _ _ _ h => h

end Decompiler

/-! ## Paths below the output root -/

/-- A path stays as it is, and so do all paths that go on by names from there. -/
structure Renaming.Spares (ρ : Renaming) (p : Path) : Prop where
  path : ρ.RenamesPath p p
  apart : (p.place ρ.home).Apart ρ.base

namespace Renaming

variable {ρ : Renaming} {p root : Path} {n : String} {names : List String}

theorem Spares.join_name (h : ρ.Spares p) (hn : IsName n) : ρ.Spares (p.join ⟨n⟩) := by
  have hne : p.place ρ.home ≠ ρ.base := fun heq => h.apart.1 (heq ▸ List.suffix_rfl)
  have hplace := place_join_name p hn ρ.home
  refine ⟨h.path.join hn.not_isAbsolute (.refl _) ?_, ?_, ?_⟩
  · rw [hn.steps_eq, components, component, ρ.name_of_ne hne]
    rfl
  · rw [hplace]
    exact fun hle => h.apart.1 ((List.suffix_cons _ _).trans hle)
  · rw [hplace, List.suffix_cons_iff]
    rintro (heq | hle)
    · exact h.apart.1 (by rw [heq]; exact List.suffix_cons _ _)
    · exact h.apart.2 hle

theorem Spares.descend (h : ρ.Spares root) (hnames : ∀ n ∈ names, IsName n) :
    ρ.Spares (root.descend names) := by
  induction names generalizing root with
  | nil => exact h
  | cons n names ih =>
      exact ih (h.join_name (hnames n List.mem_cons_self)) fun m hm =>
        hnames m (List.mem_cons_of_mem n hm)

/-! ## Jobs -/

/-- The trees correspond, the assemblies taken down are the same, and all of them are placed below
the output root. -/
structure RenamesJob (ρ : Renaming) (root : Path) {σ σ' : Type} (j : Job σ) (k : Job σ') :
    Prop where
  tree : ρ.RenamesTree j.tree k.tree
  descriptors : j.descriptors = k.descriptors
  placed : ∀ d ∈ j.descriptors.entries, d.IsPlaced root

abbrev StepsAgree (ρ : Renaming) (root : Path) {σ α : Type} (V : α → α → Prop)
    (a b : Action (Job σ) Failure α) : Prop :=
  a.Parallel (ρ.RenamesJob root) (ρ.RenamesJob root) (fun _ _ => True) V b

end Renaming

namespace Job

open Renaming

variable {ρ : Renaming} {root : Path} {σ α : Type} {V : α → α → Prop}

theorem files_agree {a b : Disk.Operation α} (h : ρ.Agree V a b) (activity : Activity) :
    ρ.StepsAgree root V ((files a : Action (Job σ) Failure α).during activity)
      ((files b).during activity) := by
  have hfiles : ρ.StepsAgree root V (files a : Action (Job σ) Failure α) (files b) :=
    (h.mapError _ _).zoom (fun _ _ h => h.tree) fun _ _ _ _ h ht => ⟨ht, h.descriptors, h.placed⟩
  exact hfiles.mapError fun _ _ _ => trivial

theorem isDirectory_of_makeDirectories {p : Path} (hne : p.text ≠ "") {activity : Activity}
    {j k : Job σ} {x : Unit}
    (h : ((files (Disk.makeDirectories p)).during activity).outcome j = (.ok x, k)) :
    k.tree.isDirectory p := by
  rw [Action.outcome_during_eq_ok, outcome_files_eq_ok] at h
  obtain ⟨t, hmake, rfl⟩ := h
  exact (Disk.makeDirectories_eq_ok hmake).2.1 hne

theorem takeDown_agree {name : String} {directory : Path}
    (hplaced : Descriptor.IsPlaced root ⟨name, directory⟩) :
    ρ.StepsAgree root Eq (takeDown name directory : Action (Job σ) Failure Unit)
      (takeDown name directory) := by
  intro j k h
  refine ⟨⟨h.tree, ?_, fun d hd => ?_⟩, .ok rfl⟩
  · show (j.descriptors.tryAdd name directory).2 = (k.descriptors.tryAdd name directory).2
    rw [h.descriptors]
  · rcases DescriptorMap.mem_entries_tryAdd hd with hold | rfl
    · exact h.placed d hold
    · exact hplaced

end Job

/-! ## The stages -/

namespace Decompiler

open Renaming

variable {ρ : Renaming} {root directory : Path} {δ : Type} {d : Decompiler δ}
  {settings : DecompileSettings} {a b : ManagedAssembly} {as bs : List ManagedAssembly}

/-- The decompiler finds the same assembly in both trees and does the same to the directory. -/
theorem outcome_renames (hd : d.IsOblivious settings ρ.base) (hab : ρ.RenamesAssembly a b)
    (hapart : (directory.place ρ.home).Apart ρ.base) :
    (d a directory settings).Parallel
      (fun s u => ρ.RenamesTree s.1 u.1 ∧ s.1.isDirectory directory ∧ u.1.isDirectory directory)
      (fun s u => ρ.RenamesTree s.1 u.1) (fun _ _ => True) Eq (d b directory settings) := by
  rintro s u ⟨h, hisDirectory⟩
  have hplace (t : FileTree) (ht : t.workingDirectory = ρ.home) :
      (t.place directory).Apart ρ.base := by
    rw [FileTree.place, ht]
    exact hapart
  have hsame : SeesSame directory a b s.1 u.1 := by
    refine ⟨⟨h.home.trans h.home'.symm, hisDirectory, fun m hm => ?_⟩, hab.name,
      (h.read_eq hab.path).symm⟩
    have hstays : ρ.location m = m :=
      ρ.location_of_not_below ((hplace s.1 h.home).not_below hm)
    rw [← h.get?, hstays]
  obtain ⟨hends, hfiles⟩ := hd.decided a b directory s u hsame
  obtain ⟨hworking, hspared⟩ := hd.spares a directory s (hplace s.1 h.home)
  obtain ⟨hworking', hspared'⟩ := hd.spares b directory u (hplace u.1 h.home')
  refine ⟨⟨hworking.trans h.home, hworking'.trans h.home', fun m => ?_⟩, ?_⟩
  · by_cases hbelow : ρ.base <:+ m
    · rw [hspared m hbelow, hspared' _ (ρ.base_suffix_location hbelow), h.get?]
    · have hm := h.get? m
      rw [ρ.location_of_not_below hbelow] at hm ⊢
      rcases hfiles m with heq | ⟨heq, heq'⟩
      · exact heq.symm
      · rw [heq, heq', hm]
  · generalize ((d a directory settings).outcome s).1 = x at hends
    generalize ((d b directory settings).outcome u).1 = y at hends
    cases x <;> cases y
    · exact .error trivial
    · cases hends
    · cases hends
    · exact .ok rfl

/-- Two runs treat one assembly alike. -/
theorem runOne_agree (hroot : ρ.Spares root) (hd : d.IsOblivious settings ρ.base)
    (hab : ρ.RenamesAssembly a b) :
    ρ.StepsAgree root Eq (d.runOne root settings a) (d.runOne root settings b) := by
  unfold runOne
  rw [← hab.name]
  generalize Assembly.baseName a.name = name
  dsimp only
  split
  · exact .pure rfl
  have hplaced := ManagedAssembly.isPlaced_directory root name
  have hdirectory : ρ.Spares (ManagedAssembly.directory root name) := by
    rw [ManagedAssembly.directory_eq]
    apply hroot.descend
    exact AssemblyDefinition.isName_of_mem_directory (Assembly.folder_mem_folders name)
  have hne : (ManagedAssembly.directory root name).text ≠ "" := hplaced.text_ne_empty
  generalize ManagedAssembly.directory root name = directory at hplaced hdirectory hne
  refine .bind_of_ok (Job.files_agree (Disk.makeDirectories_agree hdirectory.path) _)
    (fun _ _ => id) fun _ _ _ => ?_
  refine .andThen (V := Eq) (Q := ρ.RenamesJob root) ?_ fun _ _ _ =>
    .andThen (Job.takeDown_agree hplaced) fun _ _ _ => .pure rfl
  refine .mapError (.zoom (outcome_renames hd hab hdirectory.apart) ?_ ?_) fun _ _ _ => trivial
  · rintro j k ⟨h, ⟨_, hj⟩, _, hk⟩
    exact ⟨h.tree, Job.isDirectory_of_makeDirectories hne hj,
      Job.isDirectory_of_makeDirectories hne hk⟩
  · rintro j k s u ⟨h, -⟩ hsu
    exact ⟨hsu, h.descriptors, h.placed⟩

theorem run_agree (hroot : ρ.Spares root) (hd : d.IsOblivious settings ρ.base)
    (h : List.Forall₂ ρ.RenamesAssembly as bs) :
    ρ.StepsAgree root Eq (d.run root settings as) (d.run root settings bs) := by
  induction h with
  | nil => exact .pure rfl
  | cons hab _ ih =>
      refine .andThen_eq (runOne_agree hroot hd hab) fun n => ?_
      refine .andThen_eq ih fun k => ?_
      exact .pure rfl

end Decompiler

namespace ScriptAsset

open Renaming

variable {ρ : Renaming} {root : Path} {σ : Type}

theorem spares_file (s : ScriptAsset) (hroot : ρ.Spares root) : ρ.Spares (s.file root) := by
  have hfile : s.file root = root.descend (ExportedFile.source s).names :=
    ExportedFile.path_eq root (.source s)
  rw [hfile]
  exact hroot.descend ExportedFile.isName_of_mem_names

/-- A placeholder is written alike, or not at all, in both exports. -/
theorem ensureSource_agree (s : ScriptAsset) (hroot : ρ.Spares root) :
    ρ.StepsAgree root Eq (s.ensureSource root : Action (Job σ) Failure ScriptReport)
      (s.ensureSource root) := by
  have hfile := (s.spares_file hroot).path
  have hfolder : ρ.Spares (root.join s.target.folder) := by
    rw [s.join_folder]
    exact hroot.descend fun n hn => isName_of_mem_folderNames hn
  unfold ensureSource
  refine .ask_bind (V := Eq) (fun j k h => (h.tree.contains_eq hfile).symm) ?_
  rintro found _ rfl
  split
  · exact .pure rfl
  · refine .andThen (Job.files_agree (Disk.makeDirectories_agree hfolder.path) _) fun _ _ _ => ?_
    refine .andThen (Job.files_agree (Disk.writeText_agree hfile _) _) fun _ _ _ => ?_
    refine .andThen (Job.takeDown_agree (Stub.isPlaced_directory root s.assembly)) fun _ _ _ => ?_
    exact .pure rfl

end ScriptAsset

theorem materialize_agree {ρ : Renaming} {root : Path} {σ : Type} (hroot : ρ.Spares root)
    (ss : List ScriptAsset) :
    ρ.StepsAgree root Eq (materialize root (none : Option (MetadataWriter σ)) ss)
      (materialize root none ss) := by
  induction ss with
  | nil => exact .pure rfl
  | cons s ss ih =>
      have hone : ρ.StepsAgree root Eq (s.materialize root (none : Option (MetadataWriter σ)))
          (s.materialize root none) := by
        unfold ScriptAsset.materialize
        split
        · exact .pure rfl
        · refine .andThen_eq (s.ensureSource_agree hroot) fun source => ?_
          exact .pure rfl
      refine .andThen_eq hone fun r => ?_
      refine .andThen_eq ih fun rs => ?_
      exact .pure rfl

abbrev Renaming.WorkAgrees (ρ : Renaming) {σ α : Type} (V : α → α → Prop) (a b : Work σ α) : Prop :=
  a.Parallel (fun s u => ρ.RenamesTree s.1 u.1) (fun s u => ρ.RenamesTree s.1 u.1)
    (fun _ _ => True) V b

theorem Work.files_agree {ρ : Renaming} {σ α : Type} {V : α → α → Prop} {a b : Disk.Operation α}
    (h : ρ.Agree V a b) (activity : Activity) :
    ρ.WorkAgrees V ((files a : Work σ α).during activity) ((files b).during activity) := by
  have hfiles : ρ.WorkAgrees V (files a : Work σ α) (files b) :=
    (h.mapError _ _).zoom (fun _ _ h => h) fun _ _ _ _ _ ht => ht
  exact hfiles.mapError fun _ _ _ => trivial

namespace DefinitionWriter

variable {ρ : Renaming} {root : Path}

theorem writer_agree (hroot : ρ.Spares root) {d : Descriptor} (hd : d.IsPlaced root) :
    ρ.WorkAgrees Eq (AssemblyDefinition.writer d) (AssemblyDefinition.writer d) := by
  obtain ⟨folder, hfolder, hdirectory⟩ := hd
  have hfolderPath : ρ.Spares d.directory := by
    rw [hdirectory]
    exact hroot.descend (AssemblyDefinition.isName_of_mem_directory hfolder)
  have hfile : ρ.Spares (AssemblyDefinition.path d) := by
    rw [AssemblyDefinition.path_eq hdirectory]
    exact hroot.descend (AssemblyDefinition.isName_of_mem_path hfolder)
  unfold AssemblyDefinition.writer
  refine .andThen (Work.files_agree (Disk.makeDirectories_agree hfolderPath.path) _) fun _ _ _ => ?_
  refine .andThen (Work.files_agree (Disk.writeText_agree hfile.path _) _) fun _ _ _ => ?_
  exact fun s u h => ⟨h, .ok rfl⟩

theorem writeAll_agree (hroot : ρ.Spares root) {ds : List Descriptor}
    (hds : ∀ d ∈ ds, d.IsPlaced root) :
    ρ.WorkAgrees Eq (AssemblyDefinition.writer.writeAll ds)
      (AssemblyDefinition.writer.writeAll ds) := by
  induction ds with
  | nil => exact .pure rfl
  | cons d ds ih =>
      refine .andThen (writer_agree hroot (hds d List.mem_cons_self)) fun _ _ _ => ?_
      refine .andThen_eq (ih fun e he => hds e (List.mem_cons_of_mem d he)) fun n => ?_
      exact .pure rfl

theorem emit_agree (hroot : ρ.Spares root) (supported : Bool) {m : DescriptorMap}
    (hm : ∀ d ∈ m.entries, d.IsPlaced root) :
    ρ.WorkAgrees Eq (AssemblyDefinition.writer.emit supported m)
      (AssemblyDefinition.writer.emit supported m) := by
  unfold emit
  split
  · exact writeAll_agree hroot fun d hd => hm d (List.mem_of_mem_filter hd)
  · exact .pure rfl

end DefinitionWriter

/-! ## The whole export -/

namespace Exporter

variable {ρ : Renaming} {root : Path} {δ μ : Type} {d : Decompiler δ} {r r' : ExportRequest}

abbrev StatesAgree (ρ : Renaming) (root : Path) (s u : ExportState δ μ (List Path)) : Prop :=
  ρ.RenamesJob root ⟨s.tree, s.descriptors, s.decompiler⟩ ⟨u.tree, u.descriptors, u.decompiler⟩

structure RequestsAgree (ρ : Renaming) (r r' : ExportRequest) : Prop where
  assets : r.assets = r'.assets
  assemblies : List.Forall₂ ρ.RenamesAssembly r.assemblies r'.assemblies
  settings : r.settings = r'.settings
  version : r.version = r'.version

/-- The stages of two exports go side by side. -/
theorem stages_agree (hroot : ρ.Spares root) (hd : d.IsOblivious r.settings ρ.base)
    (hr : RequestsAgree ρ r r') :
    ((⟨d, none, AssemblyDefinition.writer⟩ : Exporter δ μ (List Path)).stages r root).Parallel
      (StatesAgree ρ root) (StatesAgree ρ root) (fun _ _ => True) Eq
      ((⟨d, none, AssemblyDefinition.writer⟩ : Exporter δ μ (List Path)).stages r' root) := by
  unfold stages
  refine .andThen_eq (Q := StatesAgree ρ root) ?_ fun decompiled => ?_
  · unfold decompile
    rw [← hr.settings]
    exact (Decompiler.run_agree hroot hd hr.assemblies).zoom (fun _ _ h => h)
      fun _ _ _ _ _ h => ⟨h.tree, h.descriptors, h.placed⟩
  refine .andThen_eq (Q := StatesAgree ρ root) ?_ fun scripts => ?_
  · unfold giveFiles
    rw [← hr.assets]
    exact (materialize_agree hroot _).zoom (fun _ _ h => ⟨h.tree, h.descriptors, h.placed⟩)
      fun _ _ _ _ _ h => ⟨h.tree, h.descriptors, h.placed⟩
  refine .ask_bind (V := fun m k => m = k ∧ ∀ d ∈ m.entries, d.IsPlaced root)
    (fun _ _ h => ⟨h.descriptors, h.placed⟩) ?_
  rintro m _ ⟨rfl, hm⟩
  refine .andThen_eq (Q := StatesAgree ρ root) ?_ fun definitions => ?_
  · unfold define
    rw [← hr.version]
    exact (DefinitionWriter.emit_agree hroot _ hm).zoom (fun _ _ h => h.tree)
      fun _ _ _ _ h ht => ⟨ht, h.descriptors, h.placed⟩
  · exact .pure rfl

/-- Two exports end alike, and their files correspond. -/
theorem exportAll_agree (hroot : ρ.Spares root) (hd : d.IsOblivious r.settings ρ.base)
    (hr : RequestsAgree ρ r r') :
    ((⟨d, none, AssemblyDefinition.writer⟩ : Exporter δ μ (List Path)).exportAll r root).Parallel
      (StatesAgree ρ root) (StatesAgree ρ root) (fun _ _ => True) Eq
      ((⟨d, none, AssemblyDefinition.writer⟩ : Exporter δ μ (List Path)).exportAll r' root) := by
  unfold exportAll
  split
  · exact .throw trivial
  · exact (stages_agree hroot hd hr).mapError fun _ _ _ => trivial

end Exporter

end GameExport
