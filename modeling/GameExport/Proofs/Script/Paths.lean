import GameExport.Definitions
import GameExport.Decompile.ManagedAssembly
import GameExport.Materialize
import GameExport.Proofs.FileName
import GameExport.Proofs.Path.Place

/-! # Where the files of an export go

Every file of an export goes down from the output root by names: the category, the assembly, and
then parts of a namespace, which hold no dots, or a file name, which holds one. So two scripts share
a file only if all their names agree, and no directory takes the place of a file.
-/

namespace GameExport

open GameExport.Path

/-! ## Names below the output root -/

namespace Assembly

def folders : List String := [scriptsFolder, pluginsFolder]

theorem folder_mem_folders (name : String) : folder name ∈ folders := by
  unfold folder folders
  split <;> simp

theorem isName_of_mem_folders {folder : String} (h : folder ∈ folders) : IsName folder := by
  rcases List.mem_cons.mp h with rfl | h
  · exact ⟨by decide, by decide, by decide, by decide⟩
  · rw [List.mem_singleton.mp h]
    exact ⟨by decide, by decide, by decide, by decide⟩

theorem isName_folder (name : String) : IsName (folder name) :=
  isName_of_mem_folders (folder_mem_folders name)

end Assembly

/-- The directory of an assembly is reached by two names. -/
theorem ManagedAssembly.directory_eq (root : Path) (name : String) :
    directory root name = root.descend [Assembly.folder name, FileName.sanitize name] := by
  rw [directory, descend_cons, descend_cons, descend_nil]

/-- The placeholders of an assembly are in the folder for scripts. -/
theorem Stub.directory_eq (root : Path) (assembly : String) :
    directory root assembly =
      root.descend [Assembly.scriptsFolder, FileName.sanitize assembly] := by
  rw [directory, descend_cons, descend_cons, descend_nil]

/-! ## Assemblies -/

/-- The directory of an assembly is named after it and stands in one of the folders for sources. -/
def Descriptor.IsPlaced (root : Path) (d : Descriptor) : Prop :=
  ∃ folder ∈ Assembly.folders, d.directory = root.descend [folder, FileName.sanitize d.name]

/-- The directory of an assembly that is decompiled is placed. -/
theorem ManagedAssembly.isPlaced_directory (root : Path) (name : String) :
    Descriptor.IsPlaced root ⟨name, directory root name⟩ := by
  refine ⟨Assembly.folder name, Assembly.folder_mem_folders name, ?_⟩
  dsimp only
  rw [directory_eq]

/-- So is the directory of its placeholders. -/
theorem Stub.isPlaced_directory (root : Path) (assembly : String) :
    Descriptor.IsPlaced root ⟨assembly, directory root assembly⟩ := by
  refine ⟨Assembly.scriptsFolder, List.mem_cons_self, ?_⟩
  dsimp only
  rw [directory_eq]

namespace AssemblyDefinition

variable {root : Path} {d : Descriptor} {folder name : String}

def fileName (name : String) : String := FileName.sanitize name ++ ".asmdef"

theorem isName_fileName (name : String) : IsName (fileName name) :=
  FileName.isName_sanitize_append name (by decide) (by decide)

theorem isName_of_mem_directory (hfolder : folder ∈ Assembly.folders) :
    ∀ n ∈ [folder, FileName.sanitize name], IsName n := by
  rw [List.forall_mem_cons, List.forall_mem_singleton]
  exact ⟨Assembly.isName_of_mem_folders hfolder, FileName.isName_sanitize name⟩

theorem isName_of_mem_path (hfolder : folder ∈ Assembly.folders) :
    ∀ n ∈ [folder, FileName.sanitize name, fileName name], IsName n := by
  rw [List.forall_mem_cons, List.forall_mem_cons, List.forall_mem_singleton]
  exact ⟨Assembly.isName_of_mem_folders hfolder, FileName.isName_sanitize name,
    isName_fileName name⟩

/-- The definition of an assembly is in its directory. -/
theorem path_eq (hd : d.directory = root.descend [folder, FileName.sanitize d.name]) :
    path d = root.descend [folder, FileName.sanitize d.name, fileName d.name] := by
  rw [path, hd]
  rw [descend_cons, descend_cons, descend_nil]
  rw [descend_cons, descend_cons, descend_cons, descend_nil, fileName]

/-- The definition file of an assembly stands in its directory. -/
theorem place_path (hfolder : folder ∈ Assembly.folders)
    (hd : d.directory = root.descend [folder, FileName.sanitize d.name]) (l : Location) :
    (path d).place l =
      [fileName d.name, FileName.sanitize d.name, folder] ++ root.place l := by
  rw [path_eq hd, place_descend root l (isName_of_mem_path hfolder)]
  rfl

end AssemblyDefinition

namespace Descriptor.IsPlaced

variable {root : Path} {d : Descriptor}

theorem text_ne_empty (h : d.IsPlaced root) : d.directory.text ≠ "" := by
  obtain ⟨folder, -, hdirectory⟩ := h
  rw [hdirectory, descend_cons, descend_cons, descend_nil]
  exact text_join_ne_empty (FileName.isName_sanitize d.name).ne_empty

theorem getLast?_directory (h : d.IsPlaced root) :
    ∃ n, d.directory.steps.getLast? = some (.name n) := by
  obtain ⟨folder, hfolder, hdirectory⟩ := h
  refine ⟨FileName.sanitize d.name, ?_⟩
  rw [hdirectory, steps_descend root (AssemblyDefinition.isName_of_mem_directory hfolder)]
  simp

theorem getLast?_path (h : d.IsPlaced root) :
    ∃ n, (AssemblyDefinition.path d).steps.getLast? = some (.name n) := by
  obtain ⟨folder, hfolder, hdirectory⟩ := h
  refine ⟨AssemblyDefinition.fileName d.name, ?_⟩
  rw [AssemblyDefinition.path_eq hdirectory,
    steps_descend root (AssemblyDefinition.isName_of_mem_path hfolder)]
  simp

/-- Assemblies whose definition files stand at one place share the path of the file. -/
theorem path_eq_of_place_eq {e : Descriptor} (hd : d.IsPlaced root) (he : e.IsPlaced root)
    {l : Location}
    (h : (AssemblyDefinition.path d).place l = (AssemblyDefinition.path e).place l) :
    AssemblyDefinition.path d = AssemblyDefinition.path e := by
  obtain ⟨folder, hfolder, hdirectory⟩ := hd
  obtain ⟨folder', hfolder', hdirectory'⟩ := he
  rw [AssemblyDefinition.place_path hfolder hdirectory,
    AssemblyDefinition.place_path hfolder' hdirectory', List.append_cancel_right_eq] at h
  simp only [List.cons.injEq, and_true] at h
  obtain ⟨hname, hfolders, rfl⟩ := h
  rw [AssemblyDefinition.path_eq hdirectory, AssemblyDefinition.path_eq hdirectory']
  rw [hname, hfolders]

end Descriptor.IsPlaced

namespace ScriptAsset

def folderNames (s : ScriptAsset) : List String :=
  Assembly.folder s.assembly :: FileName.sanitize s.assembly ::
    (ScriptTarget.namespaceParts s.ns).map FileName.sanitize

/-- A namespace is cut at its dots, so none is left in the folders for its parts. -/
theorem dot_not_mem_of_mem_parts (s : ScriptAsset) {n : String}
    (h : n ∈ (ScriptTarget.namespaceParts s.ns).map FileName.sanitize) : '.' ∉ n.toList := by
  obtain ⟨part, hpart, rfl⟩ := List.mem_map.mp h
  obtain ⟨chars, hchars, rfl⟩ := List.mem_map.mp hpart
  have hclean := Text.separator_not_mem_split '.' (List.mem_of_mem_filter hchars)
  exact FileName.dot_not_mem_sanitize (by simpa using hclean)

theorem folderNames_eq (s : ScriptAsset) :
    s.folderNames = Assembly.folder s.assembly :: s.folderNames.tail := rfl

/-- Every folder of a script is a name. -/
theorem isName_of_mem_folderNames {s : ScriptAsset} {n : String} (h : n ∈ s.folderNames) :
    IsName n := by
  rw [folderNames, List.mem_cons, List.mem_cons, List.mem_map] at h
  rcases h with h | h | ⟨part, -, h⟩
  · exact h ▸ Assembly.isName_folder s.assembly
  · exact h ▸ FileName.isName_sanitize s.assembly
  · exact h ▸ FileName.isName_sanitize part

theorem fileName_eq (s : ScriptAsset) :
    s.target.fileName = FileName.sanitize s.className ++ ".cs" := by
  show FileName.sanitize s.className ++ "." ++ "cs" = _
  rw [String.append_assoc]
  rfl

theorem isName_fileName (s : ScriptAsset) : IsName s.target.fileName := by
  rw [fileName_eq]
  exact FileName.isName_sanitize_append _ (by decide) (by decide)

theorem isName_metadataName (s : ScriptAsset) : IsName (s.target.fileName ++ ".meta") :=
  s.isName_fileName.append (by decide) (by decide)

theorem folder_eq (s : ScriptAsset) :
    s.target.folder = (Path.mk (Assembly.folder s.assembly)).descend s.folderNames.tail := by
  show (ScriptTarget.namespaceParts s.ns).foldl _ _ = _
  rw [folderNames, List.tail_cons, descend_cons, descend, List.foldl_map]
  rfl

/-- The folder of a script is reached by names. -/
theorem join_folder (s : ScriptAsset) (root : Path) :
    root.join s.target.folder = root.descend s.folderNames := by
  have hname := Assembly.isName_folder s.assembly
  rw [folder_eq, join_descend root hname.not_isAbsolute hname.ne_empty]
  · rw [← descend_cons, ← folderNames_eq]
  · exact fun n hn => isName_of_mem_folderNames (List.mem_of_mem_tail hn)

theorem file_eq_join (s : ScriptAsset) (root : Path) :
    s.file root = (root.descend s.folderNames).join ⟨s.target.fileName⟩ := by
  have hname := Assembly.isName_folder s.assembly
  have htail : ∀ n ∈ s.folderNames.tail, IsName n :=
    fun n hn => isName_of_mem_folderNames (List.mem_of_mem_tail hn)
  have hfolder : s.target.relativePath =
      (Path.mk (Assembly.folder s.assembly)).descend
        (s.folderNames.tail ++ [s.target.fileName]) := by
    rw [descend_append, ← folder_eq, descend_cons, descend_nil]
    rfl
  rw [file, hfolder, join_descend root hname.not_isAbsolute hname.ne_empty]
  · rw [descend_append, ← descend_cons, ← folderNames_eq, descend_cons, descend_nil]
  · intro n hn
    rcases List.mem_append.mp hn with hn | hn
    · exact htail n hn
    · rw [List.mem_singleton.mp hn]
      exact s.isName_fileName

/-- The metadata stand beside the source. -/
theorem metadata_eq_join (s : ScriptAsset) (root : Path) :
    Metadata.path (s.file root) =
      (root.descend s.folderNames).join ⟨s.target.fileName ++ ".meta"⟩ := by
  rw [Metadata.path, file_eq_join]
  exact withSuffix_join_name _ s.isName_fileName s.isName_metadataName

/-! ## Places -/

section Places

variable (s t : ScriptAsset) (root : Path) (l : Location)

theorem place_join_folder :
    (root.join s.target.folder).place l = s.folderNames.reverse ++ root.place l := by
  rw [join_folder]
  exact place_descend root l fun n hn => isName_of_mem_folderNames hn

theorem place_join_name {n : String} (hn : IsName n) :
    ((root.descend s.folderNames).join ⟨n⟩).place l =
      n :: (s.folderNames.reverse ++ root.place l) := by
  rw [Path.place_join_name _ hn, ← s.place_join_folder root l, join_folder]

theorem place_file :
    (s.file root).place l = s.target.fileName :: (s.folderNames.reverse ++ root.place l) := by
  rw [file_eq_join]
  exact s.place_join_name root l s.isName_fileName

theorem place_metadata :
    (Metadata.path (s.file root)).place l =
      (s.target.fileName ++ ".meta") :: (s.folderNames.reverse ++ root.place l) := by
  rw [metadata_eq_join]
  exact s.place_join_name root l s.isName_metadataName

variable {s t root l}

/-- Scripts at one place have the same folders and the same file name. -/
theorem names_eq_of_place_eq (h : (s.file root).place l = (t.file root).place l) :
    s.folderNames = t.folderNames ∧ s.target.fileName = t.target.fileName := by
  rw [place_file, place_file] at h
  obtain ⟨hname, hfolders⟩ := List.cons.inj h
  exact ⟨List.reverse_injective (List.append_cancel_right hfolders), hname⟩

/-- Scripts that go to one place have one path. -/
theorem file_eq_of_place_eq (h : (s.file root).place l = (t.file root).place l) :
    s.file root = t.file root := by
  obtain ⟨hnames, hname⟩ := names_eq_of_place_eq h
  rw [file_eq_join, file_eq_join, hname, hnames]

/-- Scripts whose metadata go to one place have one path. -/
theorem file_eq_of_place_metadata_eq
    (h : (Metadata.path (s.file root)).place l = (Metadata.path (t.file root)).place l) :
    s.file root = t.file root := by
  rw [place_metadata, place_metadata] at h
  obtain ⟨hname, hfolders⟩ := List.cons.inj h
  have hnames := List.reverse_injective (List.append_cancel_right hfolders)
  have hname : s.target.fileName = t.target.fileName := by
    have := congrArg String.toList hname
    rw [String.toList_append, String.toList_append] at this
    exact String.toList_injective (List.append_cancel_right this)
  rw [file_eq_join, file_eq_join, hname, hnames]

/-- Sources and metadata never share a place: their names end differently. -/
theorem place_file_ne_place_metadata :
    (s.file root).place l ≠ (Metadata.path (t.file root)).place l := by
  rw [place_file, place_metadata]
  intro h
  -- one name ends in `s`, the other one in `a`
  have hname := congrArg (fun n : String => n.toList.getLast?) (List.cons.inj h).1
  simp [fileName_eq, String.toList_append] at hname

theorem dot_mem_fileName : '.' ∈ s.target.fileName.toList := by
  simp [fileName_eq, String.toList_append]

/-- Folders below the assembly have names without dots, so no folder of a script takes the place
of a file whose name has one. -/
theorem mem_way_of_mem_way_folder {n : String} (hdot : '.' ∈ n.toList)
    (h : n :: (s.folderNames.reverse ++ root.place l) ∈ (root.join t.target.folder).way l) :
    n :: (s.folderNames.reverse ++ root.place l) ∈ root.way l := by
  rw [join_folder, mem_way_descend root l fun m hm => isName_of_mem_folderNames hm] at h
  rcases h with h | ⟨before, ⟨after, hafter⟩, -, heq⟩
  · exact h
  · have hbefore : before = s.folderNames ++ [n] := by
      rw [← List.cons_append, List.append_cancel_right_eq] at heq
      rw [← List.reverse_reverse before, ← heq, List.reverse_cons, List.reverse_reverse]
    subst hbefore
    -- the first two names are the category and the assembly, so `n` is a part of a namespace
    have hpart : n ∈ (ScriptTarget.namespaceParts t.ns).map FileName.sanitize := by
      have htail := congrArg (List.drop 2) hafter
      simp only [folderNames, List.cons_append, List.drop_succ_cons, List.drop_zero] at htail
      rw [← htail]
      simp
    exact absurd hdot (t.dot_not_mem_of_mem_parts hpart)

/-- A source that is on the way to another script's folder is on the way to the root. -/
theorem mem_way_of_place_file_mem
    (h : (s.file root).place l ∈ (root.join t.target.folder).way l) :
    (s.file root).place l ∈ root.way l := by
  rw [place_file] at h ⊢
  exact mem_way_of_mem_way_folder dot_mem_fileName h

/-- Metadata on the way to another script's folder are on the way to the root. -/
theorem mem_way_of_place_metadata_mem
    (h : (Metadata.path (s.file root)).place l ∈ (root.join t.target.folder).way l) :
    (Metadata.path (s.file root)).place l ∈ root.way l := by
  rw [place_metadata] at h ⊢
  exact mem_way_of_mem_way_folder (by simp [String.toList_append]) h

end Places

end ScriptAsset

end GameExport
