import GameExport.Proofs.Path.Descent
import GameExport.Proofs.Script.Paths

/-! # The kinds of files of an export

An export writes sources, metadata and definition files. The name of each file has a dot and tells
its kind by its end. The folders below the assembly have no dots in their names, so no file is in
the way of another one.
-/

namespace GameExport

open GameExport.Path

namespace Path

/-- The paths have different components, and wherever they start they name different places. -/
def Differs (p q : Path) : Prop := p.components ≠ q.components ∧ ∀ l, p.place l ≠ q.place l

/-- The other path goes on where this one ends, or it names a place below the place of this one. -/
def IsAncestor (p q : Path) : Prop :=
  (p.components <+: q.components ∧ p.components ≠ q.components) ∨
    ∃ l, p.place l <:+ q.place l ∧ p.place l ≠ q.place l

variable {root : Path} {names more : List String}

/-- Different names below one root lead to different places. -/
theorem differs_descend (hnames : ∀ n ∈ names, IsName n) (hmore : ∀ n ∈ more, IsName n)
    (h : names ≠ more) : (root.descend names).Differs (root.descend more) := by
  have hplace (l : Location) : (root.descend names).place l ≠ (root.descend more).place l := by
    rw [place_descend root l hnames, place_descend root l hmore]
    exact fun heq => h (List.reverse_injective (List.append_cancel_right heq))
  refine ⟨fun heq => hplace [] ?_, hplace⟩
  rw [← place_components, heq, place_components]

/-- What goes on by names goes on in its components too. -/
theorem prefix_components_descend_iff (hnames : ∀ n ∈ names, IsName n)
    (hmore : ∀ n ∈ more, IsName n) :
    (root.descend names).components <+: (root.descend more).components ↔ names <+: more := by
  rw [components_descend root hnames, components_descend root hmore, List.prefix_append_right_inj]
  exact List.prefix_map_iff_of_injective fun _ _ heq => Component.name.inj heq

/-- A path below a root leads into another one only if its names are a beginning of the other's. -/
theorem not_isAncestor_descend (hnames : ∀ n ∈ names, IsName n) (hmore : ∀ n ∈ more, IsName n)
    (h : names <+: more → names = more) :
    ¬ (root.descend names).IsAncestor (root.descend more) := by
  rintro (⟨hstart, hne⟩ | ⟨l, hsuffix, hne⟩)
  · rw [h ((prefix_components_descend_iff hnames hmore).mp hstart)] at hne
    exact hne rfl
  · have hbelow : names <+: more := by
      rw [place_descend root l hnames, place_descend root l hmore] at hsuffix
      exact List.reverse_suffix.mp ((List.suffix_append_self_iff).mp hsuffix)
    rw [h hbelow] at hne
    exact hne rfl

end Path

/-- A file that an export may write: the source of a script or its metadata, or the definition of
an assembly that was decompiled or of which only placeholders exist. -/
inductive ExportedFile where
  | source (s : ScriptAsset)
  | metadata (s : ScriptAsset)
  | decompiled (assembly : String)
  | placeheld (assembly : String)

namespace ExportedFile

def path (root : Path) : ExportedFile → Path
  | source s => s.file root
  | metadata s => Metadata.path (s.file root)
  | decompiled a => AssemblyDefinition.path ⟨a, ManagedAssembly.directory root a⟩
  | placeheld a => AssemblyDefinition.path ⟨a, Stub.directory root a⟩

def folderNames : ExportedFile → List String
  | source s => s.folderNames
  | metadata s => s.folderNames
  | decompiled a => [Assembly.folder a, FileName.sanitize a]
  | placeheld a => [Assembly.scriptsFolder, FileName.sanitize a]

def fileName : ExportedFile → String
  | source s => s.target.fileName
  | metadata s => s.target.fileName ++ ".meta"
  | decompiled a => AssemblyDefinition.fileName a
  | placeheld a => AssemblyDefinition.fileName a

def names (x : ExportedFile) : List String := x.folderNames ++ [x.fileName]

/-- The character at the end of a file's name, another one for each kind. -/
def lastChar : ExportedFile → Char
  | source _ => 's'
  | metadata _ => 'a'
  | decompiled _ => 'f'
  | placeheld _ => 'f'

/-- Every part of a file's path is one step. -/
theorem isName_of_mem_names {x : ExportedFile} : ∀ n ∈ x.names, IsName n := by
  intro n hn
  rw [names, List.mem_append, List.mem_singleton] at hn
  cases x with
  | source s => exact hn.elim ScriptAsset.isName_of_mem_folderNames (· ▸ s.isName_fileName)
  | metadata s => exact hn.elim ScriptAsset.isName_of_mem_folderNames (· ▸ s.isName_metadataName)
  | decompiled a =>
      refine hn.elim ?_ (· ▸ AssemblyDefinition.isName_fileName a)
      exact AssemblyDefinition.isName_of_mem_directory (Assembly.folder_mem_folders a) n
  | placeheld a =>
      refine hn.elim ?_ (· ▸ AssemblyDefinition.isName_fileName a)
      exact AssemblyDefinition.isName_of_mem_directory List.mem_cons_self n

theorem path_eq (root : Path) (x : ExportedFile) : x.path root = root.descend x.names := by
  rw [names, descend_append, descend_cons, descend_nil]
  cases x with
  | source s => exact s.file_eq_join root
  | metadata s => exact s.metadata_eq_join root
  | decompiled a =>
      rw [path, AssemblyDefinition.path, ManagedAssembly.directory_eq, folderNames, fileName,
        AssemblyDefinition.fileName]
  | placeheld a =>
      rw [path, AssemblyDefinition.path, Stub.directory_eq, folderNames, fileName,
        AssemblyDefinition.fileName]

/-- The kinds of files differ in the last character of their names. -/
theorem getLast?_fileName (x : ExportedFile) : x.fileName.toList.getLast? = some x.lastChar := by
  cases x <;>
    simp [fileName, lastChar, ScriptAsset.fileName_eq, AssemblyDefinition.fileName,
      String.toList_append]

theorem dot_mem_fileName (x : ExportedFile) : '.' ∈ x.fileName.toList := by
  cases x <;>
    simp [fileName, ScriptAsset.fileName_eq, AssemblyDefinition.fileName, String.toList_append]

/-- The folders of a file are the category, the assembly, and parts of a namespace without dots. -/
theorem folderNames_spec (x : ExportedFile) :
    ∃ category assembly parts, x.folderNames = category :: assembly :: parts ∧
      ∀ n ∈ parts, '.' ∉ n.toList := by
  cases x with
  | source s => exact ⟨_, _, _, rfl, fun n hn => s.dot_not_mem_of_mem_parts hn⟩
  | metadata s => exact ⟨_, _, _, rfl, fun n hn => s.dot_not_mem_of_mem_parts hn⟩
  | decompiled a => exact ⟨_, _, [], rfl, by simp⟩
  | placeheld a => exact ⟨_, _, [], rfl, by simp⟩

variable {x y : ExportedFile}

theorem names_ne (h : x.lastChar ≠ y.lastChar) : x.names ≠ y.names := by
  intro heq
  have hname : x.fileName = y.fileName := by
    have hlast := congrArg List.getLast? heq
    simpa [names] using hlast
  have hchar : some x.lastChar = some y.lastChar := by
    rw [← getLast?_fileName, ← getLast?_fileName, hname]
  exact h (Option.some.inj hchar)

/-- No file stands where another one has a folder. -/
theorem names_eq_of_prefix (h : x.names <+: y.names) : x.names = y.names := by
  rcases List.prefix_concat_iff.mp h with heq | hfolder
  · exact heq
  · obtain ⟨category, assembly, parts, hx, -⟩ := x.folderNames_spec
    obtain ⟨category', assembly', parts', hy, hclean⟩ := y.folderNames_spec
    rw [names, hx, hy, List.cons_append, List.cons_append, List.cons_prefix_cons,
      List.cons_prefix_cons] at hfolder
    have hmem : x.fileName ∈ parts' := hfolder.2.2.subset (by simp)
    exact absurd x.dot_mem_fileName (hclean _ hmem)

/-- Sources, metadata and definition files have different paths, whatever the names of scripts and
assemblies are, and none of them has the path of a directory that another one stands in. -/
theorem apart (root : Path) (s t : ScriptAsset) (a : String) :
    ((source s).path root).Differs ((metadata t).path root) ∧
      (∀ d ∈ [decompiled a, placeheld a],
        ((source s).path root).Differs (d.path root) ∧
          ((metadata t).path root).Differs (d.path root)) ∧
      ∀ x y : ExportedFile, ¬ (x.path root).IsAncestor (y.path root) := by
  have hdiffers {x y : ExportedFile} (h : x.lastChar ≠ y.lastChar) :
      (x.path root).Differs (y.path root) := by
    rw [path_eq, path_eq]
    exact differs_descend isName_of_mem_names isName_of_mem_names (names_ne h)
  refine ⟨hdiffers (by simp [lastChar]), fun d hd => ?_, fun x y => ?_⟩
  · rcases List.mem_pair.mp hd with rfl | rfl <;>
      exact ⟨hdiffers (by simp [lastChar]), hdiffers (by simp [lastChar])⟩
  · rw [path_eq, path_eq]
    exact not_isAncestor_descend isName_of_mem_names isName_of_mem_names names_eq_of_prefix

end ExportedFile

end GameExport
