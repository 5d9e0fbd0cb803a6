import GameExport.Decompile.Command
import GameExport.Export
import GameExport.Proofs.Disk.Operations
import GameExport.Proofs.Export.Stages
import GameExport.Proofs.Script.Paths

/-! # Where an export may write

An export changes files only inside the two folders for sources, whatever names the assets and
assemblies bring along. Outside of them it makes at most the directories that lead there. Each
operation obeys this limit however it ends, so a failed export obeys it as well.
-/

namespace GameExport

open GameExport.Path FileTree

/-! ## Inside the output root -/

namespace FileTree.Region

variable {root : Path} {l m : Location} {folder : String} {names : List String}

/-- Below one of the folders for sources. -/
def exported (root : Path) : Region := fun l m =>
  ∃ folder ∈ Assembly.folders, ∃ name, name :: folder :: root.place l <:+ m

/-- On the way along the output root, or one of the folders for sources. -/
def prepared (root : Path) : Region := fun l m =>
  m ∈ root.way l ∨ ∃ folder ∈ Assembly.folders, m = folder :: root.place l

/-- What is in a folder for sources counts as exported. -/
theorem exported_of_names (hfolder : folder ∈ Assembly.folders) (hne : names ≠ []) :
    exported root l (names.reverse ++ folder :: root.place l) := by
  obtain ⟨n, rest, rfl⟩ := List.exists_cons_of_ne_nil hne
  refine ⟨folder, hfolder, n, rest.reverse, ?_⟩
  rw [List.reverse_cons, List.append_assoc, List.singleton_append]

/-- The directories on the way down from the output root are inside or lead there. -/
theorem mem_way_descend_folder (hfolder : folder ∈ Assembly.folders)
    (hnames : ∀ n ∈ folder :: names, IsName n) (h : m ∈ (root.descend (folder :: names)).way l) :
    exported root l m ∨ prepared root l m := by
  rcases (mem_way_descend root l hnames).mp h with hroot | ⟨before, hbefore, hne, rfl⟩
  · exact Or.inr (Or.inl hroot)
  · obtain ⟨first, rest, rfl⟩ := List.exists_cons_of_ne_nil hne
    obtain ⟨rfl, -⟩ := List.cons_prefix_cons.mp hbefore
    rw [List.reverse_cons, List.append_assoc, List.singleton_append]
    by_cases hrest : rest = []
    · exact Or.inr (Or.inr ⟨first, hfolder, by rw [hrest]; rfl⟩)
    · exact Or.inl (exported_of_names hfolder hrest)

end FileTree.Region

/-- Nothing differs outside the folders for sources, except that directories that lead there may
have been made. -/
abbrev FileTree.StaysInside (root : Path) : FileTree → FileTree → Prop :=
  ChangesWithin (.exported root) (.prepared root)

abbrev Job.StaysInside {σ : Type} (root : Path) : Job σ → Job σ → Prop :=
  Job.GoesOn (FileTree.StaysInside root) (·.IsPlaced root)

/-- A decompiler that changes nothing but what is in the directory that it is given. -/
def Decompiler.IsConfined {δ : Type} (d : Decompiler δ) (settings : DecompileSettings) : Prop :=
  ∀ a directory, (d a directory settings).Moves fun s u =>
    ChangesWithin (.under directory) .none s.1 u.1

/-- A metadata writer that changes only what is inside when it is given the file of a script. -/
def MetadataWriter.IsConfined {σ : Type} (w : MetadataWriter σ) (root : Path) : Prop :=
  ∀ s : ScriptAsset, (w s (s.file root)).Moves fun t u => FileTree.StaysInside root t.1 u.1

variable {root : Path} {σ δ μ ω : Type}

namespace FileTree.StaysInside

theorem refl (t : FileTree) : StaysInside root t t := ChangesWithin.refl t

theorem trans (t u v : FileTree) (h : StaysInside root t u) (k : StaysInside root u v) :
    StaysInside root t v :=
  ChangesWithin.trans h k

theorem makeDirectories {folder : String} {names : List String}
    (hfolder : folder ∈ Assembly.folders) (hnames : ∀ n ∈ folder :: names, IsName n) :
    (Disk.makeDirectories (root.descend (folder :: names))).Moves (StaysInside root) := by
  refine (Disk.makeDirectories_moves_along _).mono fun t u h => ?_
  refine h.mono (fun _ _ hnone => hnone.elim) fun l m hm => ?_
  exact Region.mem_way_descend_folder hfolder hnames hm

theorem writeText {p : Path} {text : String} (hp : ∀ l, Region.exported root l (p.place l)) :
    (Disk.writeText p text).Moves (StaysInside root) :=
  Disk.write_moves hp

end FileTree.StaysInside

/-! ## Decompiling -/

/-- A program that is not run changes nothing. -/
theorem Decompiler.isConfined_ofProgram (run : ProgramRunner) (program : String)
    {settings : DecompileSettings} (hlevel : settings.level = .stubs) :
    (ofProgram run program : Decompiler δ).IsConfined settings := by
  intro a directory
  have hskip : effectiveLevel settings.level = .stubs := by rw [hlevel]; rfl
  unfold ofProgram
  rw [if_pos hskip]
  exact .pure (fun s => ChangesWithin.refl s.1) ()

namespace ManagedAssembly

theorem under_directory_subset {name : String} {l m : Location}
    (h : Region.under (directory root name) l m) : Region.exported root l m := by
  have hfolder := Assembly.folder_mem_folders name
  rw [Region.under, directory_eq,
    place_descend root l (AssemblyDefinition.isName_of_mem_directory hfolder)] at h
  exact ⟨_, hfolder, _, h⟩

end ManagedAssembly

namespace Decompiler

variable {d : Decompiler δ} {settings : DecompileSettings}

/-- Assemblies are decompiled inside if the decompiler is confined. -/
theorem run_staysInside (hd : d.IsConfined settings) (as : List ManagedAssembly) :
    (d.run root settings as).Moves (Job.StaysInside root) := by
  refine run_goesOn StaysInside.refl StaysInside.trans (fun name => ?_) (fun a name => ?_)
    (ManagedAssembly.isPlaced_directory root) as
  · -- the directory may be missing together with those on the way to it
    have hfolder := Assembly.folder_mem_folders name
    rw [ManagedAssembly.directory_eq]
    exact StaysInside.makeDirectories hfolder (AssemblyDefinition.isName_of_mem_directory hfolder)
  · refine (hd a _).mono fun s u h => ?_
    exact h.mono (fun _ _ => ManagedAssembly.under_directory_subset) fun _ _ hnone => hnone.elim

end Decompiler

/-! ## Giving files to scripts -/

/-- The folder of a script is inside. -/
theorem ScriptAsset.exported_below (s : ScriptAsset) (root : Path) (l : Location) (n : String) :
    Region.exported root l (n :: (s.folderNames.reverse ++ root.place l)) := by
  have h : Region.exported root l
      ((s.folderNames.tail ++ [n]).reverse ++ Assembly.folder s.assembly :: root.place l) :=
    Region.exported_of_names (Assembly.folder_mem_folders s.assembly) (by simp)
  rw [List.reverse_append, List.reverse_singleton, List.singleton_append] at h
  rw [folderNames_eq, List.reverse_cons, List.append_assoc, List.singleton_append]
  exact h

/-- The metadata of a script stand beside its source, so they are inside. -/
theorem MetadataWriter.isConfined_ofGuids (draw : Nat → Guid) (root : Path) :
    (ofGuids draw).IsConfined root := by
  intro s
  refine ofGuids_moves StaysInside.refl StaysInside.trans (fun text => ?_) draw s
  refine StaysInside.writeText fun l => ?_
  rw [s.place_metadata]
  exact s.exported_below root l _

theorem materialize_staysInside {w : Option (MetadataWriter σ)} (hw : ∀ v ∈ w, v.IsConfined root)
    (ss : List ScriptAsset) : (materialize root w ss).Moves (Job.StaysInside root) := by
  refine materialize_goesOn StaysInside.refl StaysInside.trans (fun s => ?_) (fun s => ?_) hw
    (Stub.isPlaced_directory root) ss
  · rw [s.join_folder]
    refine StaysInside.makeDirectories (Assembly.folder_mem_folders s.assembly) fun n hn => ?_
    exact ScriptAsset.isName_of_mem_folderNames hn
  · refine StaysInside.writeText fun l => ?_
    rw [s.place_file]
    exact s.exported_below root l _

/-! ## Writing definitions -/

/-- The definition of an assembly is written inside if the assembly is placed there. -/
theorem AssemblyDefinition.writer_staysInside {d : Descriptor} (hd : d.IsPlaced root) :
    (AssemblyDefinition.writer d).Moves fun s u => FileTree.StaysInside root s.1 u.1 := by
  obtain ⟨folder, hfolder, hdirectory⟩ := hd
  refine writer_moves StaysInside.refl StaysInside.trans ?_ fun text => ?_
  · rw [hdirectory]
    exact StaysInside.makeDirectories hfolder (isName_of_mem_directory hfolder)
  · refine StaysInside.writeText fun l => ?_
    rw [place_path hfolder hdirectory]
    exact ⟨folder, hfolder, _, List.suffix_cons _ _⟩

theorem DefinitionWriter.emit_staysInside (supported : Bool) {m : DescriptorMap}
    (hm : ∀ d ∈ m.entries, d.IsPlaced root) :
    (AssemblyDefinition.writer.emit supported m).Moves fun s u =>
      FileTree.StaysInside root s.1 u.1 :=
  emit_moves StaysInside.refl StaysInside.trans
    (fun d hd => AssemblyDefinition.writer_staysInside (hm d hd)) supported

/-! ## The whole export -/

namespace Exporter

/-- As long as all assemblies taken down have directories inside, they keep doing so and the files
change inside. -/
def KeepsInside (root : Path) (s u : ExportState δ μ ω) : Prop :=
  (∀ d ∈ s.descriptors.entries, d.IsPlaced root) →
    (∀ d ∈ u.descriptors.entries, d.IsPlaced root) ∧ StaysInside root s.tree u.tree

theorem KeepsInside.refl (s : ExportState δ μ ω) : KeepsInside root s s :=
  fun hs => ⟨hs, StaysInside.refl s.tree⟩

theorem KeepsInside.trans (s t u : ExportState δ μ ω) (h : KeepsInside root s t)
    (k : KeepsInside root t u) : KeepsInside root s u := by
  intro hs
  obtain ⟨ht, hfirst⟩ := h hs
  obtain ⟨hu, hsecond⟩ := k ht
  exact ⟨hu, StaysInside.trans _ _ _ hfirst hsecond⟩

variable {e : Exporter δ μ (List Path)} {r : ExportRequest}

theorem decompile_keepsInside (hd : e.decompiler.IsConfined r.settings) :
    (e.decompile r root).Moves (KeepsInside root) := by
  refine .zoom (fun s j h hs => ⟨fun d hd => ?_, h.tree⟩)
    (Decompiler.run_staysInside hd r.assemblies)
  exact (h.descriptors d hd).elim (hs d) id

theorem giveFiles_keepsInside (hw : ∀ w ∈ e.metadata, w.IsConfined root) :
    (e.giveFiles r root).Moves (KeepsInside root) := by
  refine .zoom (fun s j h hs => ⟨fun d hd => ?_, h.tree⟩) (materialize_staysInside hw _)
  exact (h.descriptors d hd).elim (hs d) id

theorem define_keepsInside (he : e.definitions = AssemblyDefinition.writer) {m : DescriptorMap}
    (hm : ∀ d ∈ m.entries, d.IsPlaced root) : (e.define r m).Moves (KeepsInside root) := by
  unfold define
  rw [he]
  exact .zoom (fun s w h hs => ⟨hs, h⟩) (DefinitionWriter.emit_staysInside _ hm)

/-- The stages stay inside, one after the other. -/
theorem stages_keepsInside (hd : e.decompiler.IsConfined r.settings)
    (hw : ∀ w ∈ e.metadata, w.IsConfined root) (he : e.definitions = AssemblyDefinition.writer) :
    (e.stages r root).Moves (KeepsInside root) := by
  unfold stages
  refine .bind KeepsInside.trans (decompile_keepsInside hd) fun decompiled => ?_
  refine .bind KeepsInside.trans (giveFiles_keepsInside hw) fun scripts => ?_
  -- the definitions that are written are those of the assemblies taken down so far
  refine .ask_bind fun s hs => ?_
  refine Action.Moves.bind KeepsInside.trans (define_keepsInside he hs) (fun n => ?_) s hs
  exact .pure KeepsInside.refl _

/-- An export stays inside, however it ends. -/
theorem exportAll_keepsInside (hd : e.decompiler.IsConfined r.settings)
    (hw : ∀ w ∈ e.metadata, w.IsConfined root) (he : e.definitions = AssemblyDefinition.writer) :
    (e.exportAll r root).Moves (KeepsInside root) := by
  unfold exportAll
  split
  · exact .throw KeepsInside.refl _
  · exact (stages_keepsInside hd hw he).mapError

/-- Whatever is exported, and whether the export succeeds or fails, it changes nothing outside the
two folders for sources; it may only make the directories that lead to them. -/
theorem exportAll_staysInside (d : Decompiler δ) (draw : Option (Nat → Guid)) (r : ExportRequest)
    (root : Path) (t : FileTree) (decompiler : δ) (metadata : GuidRecord) (definitions : List Path)
    (hd : d.IsConfined r.settings ∨
      (∃ run program, d = .ofProgram run program) ∧ r.settings.level = .stubs) :
    ChangesWithin (.exported root) (.prepared root) t
      ((Exporter.mk d (draw.map .ofGuids) AssemblyDefinition.writer).exportAll r root |>.outcome
        { tree := t, decompiler, metadata, definitions }).2.tree := by
  have hconfined : d.IsConfined r.settings := by
    rcases hd with hd | ⟨⟨run, program, rfl⟩, hlevel⟩
    · exact hd
    · exact Decompiler.isConfined_ofProgram run program hlevel
  have hmetadata : ∀ w ∈ draw.map MetadataWriter.ofGuids, w.IsConfined root := by
    intro w hw
    obtain ⟨f, -, rfl⟩ := Option.map_eq_some_iff.mp hw
    exact MetadataWriter.isConfined_ofGuids f root
  have hmoves := exportAll_keepsInside
    (e := ⟨d, draw.map .ofGuids, AssemblyDefinition.writer⟩) hconfined hmetadata rfl
  exact (hmoves { tree := t, decompiler, metadata, definitions } nofun).2

/-- Names that climb or start at the root lead nowhere else, and a decompiler that writes a file
into its directory keeps to the limit. -/
theorem exportAll_staysInside_of_climbing_names :
    let decompiler : Decompiler Unit := fun a directory _ =>
      Work.files (Disk.writeText (directory.join ⟨"Main.cs"⟩) a.name)
    let draw : Nat → Guid := fun _ => .ofRandom 0
    let request : ExportRequest :=
      { assets := [.script ⟨"../../usr", "a..b", "/etc/passwd"⟩, .script ⟨"", "", ".."⟩]
        assemblies := [⟨"/bin/Game.dll", ⟨"Game.dll"⟩⟩]
        settings := {}
        version := ⟨2022, 3, 1, none⟩ }
    ChangesWithin (.exported ⟨"Assets"⟩) (.prepared ⟨"Assets"⟩) {}
      ((Exporter.mk decompiler ((some draw).map .ofGuids) AssemblyDefinition.writer).exportAll
          request ⟨"Assets"⟩ |>.outcome
        { tree := {}, decompiler := (), metadata := {}, definitions := [] }).2.tree := by
  intro decompiler draw request
  have hname : IsName "Main.cs" := ⟨by decide, by decide, by decide, by decide⟩
  have hconfined : decompiler.IsConfined request.settings := by
    intro a directory
    refine Work.files_moves (Disk.write_moves fun l => ?_)
    have hplace : (directory.descend ["Main.cs"]).place l =
        ["Main.cs"].reverse ++ directory.place l :=
      place_descend directory l (by simpa using hname)
    exact ⟨["Main.cs"], hplace.symm⟩
  exact exportAll_staysInside decompiler (some draw) request ⟨"Assets"⟩ {} () {} []
    (Or.inl hconfined)

end Exporter

end GameExport
