import GameExport.Proofs.Decompile.Calls
import GameExport.Proofs.Export.Families

/-! # Scripts that share a file

The path of a script holds the names of its folders and of its file, one component each, so two
scripts share a file exactly if those names agree. The sources of an assembly go to a directory that
is spelled by such names as well, and whether the scripts of the assembly stand below it can be read
from them.
-/

namespace GameExport

open GameExport.Path

theorem Path.empty_join (p : Path) : (Path.mk "").join p = p := by
  unfold join
  split
  · rfl
  · rw [if_pos (Or.inl rfl), String.empty_append]

/-! ## Names of assemblies -/

namespace Assembly

/-- Most assemblies belong to the folder for scripts. -/
theorem folder_eq_scriptsFolder_iff (name : String) :
    folder name = scriptsFolder ↔ name ∉ firstPassNames := by
  unfold folder
  split <;> simp_all [scriptsFolder, pluginsFolder]

/-- The extension of a library is left out of its name. -/
theorem baseName_append (stem : String) : baseName (stem ++ ".dll") = stem := by
  have hstem : List.isSuffixOf? ".dll".toList (stem ++ ".dll").toList = some stem.toList := by
    rw [List.isSuffixOf?_eq_some_iff_append_eq, String.toList_append]
  rw [baseName, hstem]
  exact String.ofList_toList

/-- An assembly is given by its file name or by what is left of it without the extension. -/
theorem eq_append_or_baseName_eq (name : String) :
    name = baseName name ++ ".dll" ∨ ¬ ".dll".toList <:+ name.toList ∧ baseName name = name := by
  by_cases hsuffix : ".dll".toList <:+ name.toList
  · obtain ⟨stem, hstem⟩ := hsuffix
    have hname : name = String.ofList stem ++ ".dll" :=
      String.toList_injective (by rw [String.toList_append, String.toList_ofList, hstem])
    left
    rw [hname, baseName_append]
  · right
    refine ⟨hsuffix, ?_⟩
    unfold baseName
    split
    · next stem hstem =>
        exact absurd ⟨stem, List.isSuffixOf?_eq_some_iff_append_eq.mp hstem⟩ hsuffix
    · rfl

/-- The extension can be taken away twice only from a name that ends in it twice. -/
theorem baseName_baseName_eq_iff (name : String) :
    baseName (baseName name) = baseName name ↔ ¬ ".dll.dll".toList <:+ name.toList := by
  have htwice : ".dll.dll".toList = ".dll".toList ++ ".dll".toList := by decide
  rcases eq_append_or_baseName_eq name with hname | ⟨hname, hsame⟩
  · have hiff : ".dll.dll".toList <:+ name.toList ↔ ".dll".toList <:+ (baseName name).toList := by
      conv_lhs => rw [hname, htwice, String.toList_append]
      exact List.suffix_append_self_iff
    rw [hiff]
    rcases eq_append_or_baseName_eq (baseName name) with hagain | ⟨hagain, hsame⟩
    · refine iff_of_false (fun heq => ?_) (fun hnone => hnone ?_)
      · rw [heq] at hagain
        simpa using congrArg String.length hagain
      · rw [hagain, String.toList_append]
        exact List.suffix_append _ _
    · exact iff_of_true hsame hagain
  · refine iff_of_true (by rw [hsame, hsame]) fun hsuffix => hname ?_
    exact (htwice ▸ List.suffix_append _ _).trans hsuffix

end Assembly

namespace FileName

theorem length_replaceReserved (name : String) :
    (replaceReserved name).toList.length = name.toList.length := by
  rw [replaceReserved, String.toList_ofList, List.length_map]

/-- Only names that would be empty or mean a directory change their length. -/
theorem length_sanitize (name : String) :
    (sanitize name).toList.length = name.toList.length ∨
      (sanitize name).toList.length = 1 ∧ name.toList.length ≤ 2 := by
  rw [← length_replaceReserved name, sanitize]
  split
  · next h =>
      right
      refine ⟨rfl, ?_⟩
      rcases h with h | h | h <;> rw [h] <;> decide
  · exact Or.inl rfl

/-- No name is sanitised to what becomes of it with an extension behind it. -/
theorem sanitize_append_ne (name : String) {extension : String}
    (hlong : 2 < extension.toList.length) : sanitize (name ++ extension) ≠ sanitize name := by
  intro heq
  have hlength : (name ++ extension).toList.length =
      name.toList.length + extension.toList.length := by
    rw [String.toList_append, List.length_append]
  have hsame := congrArg (fun s : String => s.toList.length) heq
  rcases length_sanitize (name ++ extension) with h | ⟨h, hshort⟩ <;>
    rcases length_sanitize name with h' | ⟨h', -⟩ <;> omega

end FileName

/-! ## Which scripts share a file -/

namespace ScriptTarget

/-- The parts of a namespace without empty ones tell the namespace. -/
theorem intercalate_namespaceParts {ns : String}
    (h : ns = "" ∨ ∀ part ∈ Text.split '.' ns.toList, part ≠ []) :
    ['.'].intercalate ((namespaceParts ns).map String.toList) = ns.toList := by
  have hparts : (namespaceParts ns).map String.toList =
      (Text.split '.' ns.toList).filter (· ≠ []) := by
    simp [namespaceParts, List.map_map, Function.comp_def]
  rw [hparts]
  rcases h with rfl | h
  · decide
  · rw [List.filter_eq_self.mpr fun part hpart => by simpa using h part hpart]
    exact Text.intercalate_split '.' ns.toList

end ScriptTarget

namespace ScriptAsset

/-- The names of a script stand as they are: sanitising changes none of them, and the namespace is
empty or has a name on either side of every dot. -/
structure IsPlain (s : ScriptAsset) : Prop where
  assembly : FileName.sanitize s.assembly = s.assembly
  separated : s.ns = "" ∨ ∀ part ∈ Text.split '.' s.ns.toList, part ≠ []
  parts : ∀ part ∈ ScriptTarget.namespaceParts s.ns, FileName.sanitize part = part
  className : FileName.sanitize s.className = s.className

variable {s t : ScriptAsset}

theorem isName_of_mem_names : ∀ n ∈ s.folderNames ++ [s.target.fileName], IsName n := by
  intro n hn
  rcases List.mem_append.mp hn with hn | hn
  · exact isName_of_mem_folderNames hn
  · rw [List.mem_singleton.mp hn]
    exact s.isName_fileName

theorem relativePath_eq (s : ScriptAsset) :
    s.target.relativePath = (Path.mk "").descend (s.folderNames ++ [s.target.fileName]) := by
  rw [descend_append, ← join_folder, empty_join]
  rfl

theorem components_relativePath (s : ScriptAsset) :
    s.target.relativePath.components =
      (s.folderNames ++ [s.target.fileName]).map Component.name := by
  rw [relativePath_eq, components_descend _ isName_of_mem_names]
  rfl

/-- The names on the way to a script's file tell its folders and its class, both sanitised. -/
theorem names_eq_iff :
    s.folderNames ++ [s.target.fileName] = t.folderNames ++ [t.target.fileName] ↔
      Assembly.folder s.assembly = Assembly.folder t.assembly ∧
        FileName.sanitize s.assembly = FileName.sanitize t.assembly ∧
        (ScriptTarget.namespaceParts s.ns).map FileName.sanitize =
          (ScriptTarget.namespaceParts t.ns).map FileName.sanitize ∧
        FileName.sanitize s.className = FileName.sanitize t.className := by
  have hfile : s.target.fileName = t.target.fileName ↔
      FileName.sanitize s.className = FileName.sanitize t.className := by
    rw [fileName_eq, fileName_eq]
    exact String.append_left_inj _
  rw [← hfile]
  constructor
  · intro h
    obtain ⟨hfolders, hlast⟩ := List.append_inj' h rfl
    obtain ⟨hcategory, hrest⟩ := List.cons.inj hfolders
    obtain ⟨hassembly, hparts⟩ := List.cons.inj hrest
    exact ⟨hcategory, hassembly, hparts, List.singleton_inj.mp hlast⟩
  · rintro ⟨hcategory, hassembly, hparts, hlast⟩
    rw [folderNames, folderNames, hcategory, hassembly, hparts, hlast]

/-- The names of a script that stand as they are can be read from its path. -/
theorem IsPlain.eq_of_names_eq (hs : s.IsPlain) (ht : t.IsPlain)
    (h : s.folderNames ++ [s.target.fileName] = t.folderNames ++ [t.target.fileName]) :
    s.assembly = t.assembly ∧ s.ns = t.ns ∧ s.className = t.className := by
  obtain ⟨-, hassembly, hparts, hclass⟩ := names_eq_iff.mp h
  rw [hs.assembly, ht.assembly] at hassembly
  rw [hs.className, ht.className] at hclass
  have hns : s.ns.toList = t.ns.toList := by
    rw [List.map_congr_left hs.parts, List.map_congr_left ht.parts] at hparts
    rw [← ScriptTarget.intercalate_namespaceParts hs.separated,
      ← ScriptTarget.intercalate_namespaceParts ht.separated]
    rw [List.map_id', List.map_id'] at hparts
    rw [hparts]
  exact ⟨hassembly, String.toList_injective hns, hclass⟩

/-- Two scripts share a file exactly if they agree in their folder for sources and, once sanitised,
in the names of their assemblies, of the parts of their namespaces and of their classes. Scripts
whose names stand as they are share it only if the names agree. -/
theorem relativePath_eq_iff (s t : ScriptAsset) :
    (s.target.relativePath = t.target.relativePath ↔
      Assembly.folder (Assembly.baseName s.assemblyName) =
          Assembly.folder (Assembly.baseName t.assemblyName) ∧
        FileName.sanitize (Assembly.baseName s.assemblyName) =
          FileName.sanitize (Assembly.baseName t.assemblyName) ∧
        (ScriptTarget.namespaceParts s.ns).map FileName.sanitize =
          (ScriptTarget.namespaceParts t.ns).map FileName.sanitize ∧
        FileName.sanitize s.className = FileName.sanitize t.className) ∧
      (s.target.relativePath.components = t.target.relativePath.components ↔
        s.target.relativePath = t.target.relativePath) ∧
      (s.IsPlain → t.IsPlain → s.target.relativePath = t.target.relativePath →
        Assembly.baseName s.assemblyName = Assembly.baseName t.assemblyName ∧ s.ns = t.ns ∧
          s.className = t.className) := by
  have hnames : s.target.relativePath.components = t.target.relativePath.components ↔
      s.folderNames ++ [s.target.fileName] = t.folderNames ++ [t.target.fileName] := by
    rw [components_relativePath, components_relativePath]
    exact List.map_inj_right fun _ _ heq => Component.name.inj heq
  have hpath : s.target.relativePath = t.target.relativePath ↔
      s.folderNames ++ [s.target.fileName] = t.folderNames ++ [t.target.fileName] := by
    constructor
    · intro h
      exact hnames.mp (congrArg components h)
    · intro h
      rw [relativePath_eq, relativePath_eq, h]
  refine ⟨hpath.trans names_eq_iff, hnames.trans hpath.symm, fun hs ht h => ?_⟩
  exact hs.eq_of_names_eq ht (hpath.mp h)

/-- An assembly may come with its extension or without it. -/
theorem relativePath_eq_iff_of_extension :
    let s : ScriptAsset := ⟨"Game.dll", "Name.Space", "Boot"⟩
    let t : ScriptAsset := ⟨"Game", "Name.Space", "Boot"⟩
    s.IsPlain ∧ t.IsPlain ∧ s.target.relativePath = t.target.relativePath ∧
      Assembly.baseName s.assemblyName = Assembly.baseName t.assemblyName ∧ s.ns = t.ns ∧
        s.className = t.className := by
  intro s t
  have hs : s.IsPlain := ⟨by decide, by decide, by decide, by decide⟩
  have ht : t.IsPlain := ⟨by decide, by decide, by decide, by decide⟩
  have hpath : s.target.relativePath = t.target.relativePath := by decide
  exact ⟨hs, ht, hpath, (relativePath_eq_iff s t).2.2 hs ht hpath⟩

/-! ## Where the sources of an assembly go -/

/-- A directory for an assembly is above a script if it is spelled like the script's folders. -/
theorem prefix_folder_iff (s : ScriptAsset) (root : Path) {folder name : String}
    (hfolder : folder ∈ Assembly.folders) :
    (root.descend [folder, FileName.sanitize name]).components <+:
        (root.join s.target.folder).components ↔
      folder = Assembly.folder s.assembly ∧
        FileName.sanitize name = FileName.sanitize s.assembly := by
  rw [join_folder, prefix_components_descend_iff
    (AssemblyDefinition.isName_of_mem_directory hfolder) fun n hn => isName_of_mem_folderNames hn]
  rw [folderNames, List.cons_prefix_cons, List.cons_prefix_cons]
  simp

end ScriptAsset

/-- The directory of placeholders is in the folder for scripts, whatever the assembly is called. -/
theorem Stub.directory_prefix_iff (root : Path) (s : ScriptAsset) :
    (directory root s.assembly).components <+: (root.join s.target.folder).components ↔
      Assembly.folder s.assembly = Assembly.scriptsFolder := by
  rw [directory_eq, s.prefix_folder_iff root List.mem_cons_self]
  simp [eq_comm]

namespace ManagedAssembly

/-- An assembly of a file is taken down without the extensions. -/
theorem plainName_ofPath {p : Path} {file : String} (h : p.fileName = some file) :
    (ofPath p).plainName = Assembly.baseName (Assembly.baseName file) := by
  rw [plainName, ofPath, h]
  rfl

/-- A script is below the directory of an assembly if both have the same folders. -/
theorem directory_prefix_iff (root : Path) (name : String) (s : ScriptAsset) :
    (directory root name).components <+: (root.join s.target.folder).components ↔
      Assembly.folder name = Assembly.folder s.assembly ∧
        FileName.sanitize name = FileName.sanitize s.assembly := by
  rw [directory_eq]
  exact s.prefix_folder_iff root (Assembly.folder_mem_folders name)

/-- If the extension can be taken away once more, what is left is another directory. -/
theorem directory_baseName_prefix_iff (root : Path) (s : ScriptAsset) :
    (directory root (Assembly.baseName s.assembly)).components <+:
        (root.join s.target.folder).components ↔
      ¬ ".dll.dll".toList <:+ s.assemblyName.toList := by
  rw [directory_prefix_iff, ← Assembly.baseName_baseName_eq_iff]
  show _ ↔ Assembly.baseName s.assembly = s.assembly
  constructor
  · rintro ⟨-, hsanitized⟩
    rcases Assembly.eq_append_or_baseName_eq s.assembly with hname | ⟨-, hname⟩
    · rw [hname, Assembly.baseName_append] at hsanitized
      exact absurd hsanitized.symm (FileName.sanitize_append_ne _ (by decide))
    · exact hname
  · intro hname
    rw [hname]
    exact ⟨rfl, rfl⟩

/-- A run puts the sources of an assembly above its scripts, unless the name of its file has the
extension twice. The directory of its placeholders is above them, unless it is compiled first. -/
theorem output_prefix_iff {p : Path} {file : String} (hp : p.fileName = some file)
    (root : Path) (ns className : String) :
    let folder := root.join (ScriptTarget.of file ns className).folder
    (∀ {σ : Type} (d : Decompiler σ) settings as (j : Job σ), ∀ c ∈ d.calls root settings as j,
      c.assembly = ofPath p → c.directory = (ofPath p).output root) ∧
      (((ofPath p).output root).components <+: folder.components ↔
        ¬ ".dll.dll".toList <:+ file.toList) ∧
      ((Stub.directory root (Assembly.baseName file)).components <+: folder.components ↔
        Assembly.baseName file ∉ Assembly.firstPassNames) := by
  have hsources := directory_baseName_prefix_iff root ⟨file, ns, className⟩
  have hplaceholders := Stub.directory_prefix_iff root ⟨file, ns, className⟩
  refine ⟨fun d settings as j c hc hassembly => ?_, ?_, ?_⟩
  · rw [(Decompiler.isPrepared_of_mem_calls hc).directory, hassembly]
  · rw [output, plainName_ofPath hp]
    exact hsources
  · exact hplaceholders.trans (Assembly.folder_eq_scriptsFolder_iff _)

/-- Of two extensions a run takes both away, the target of a script only one. -/
theorem output_prefix_iff_of_doubled_extension :
    let p : Path := ⟨"Managed/Game.dll.dll"⟩
    let folder := (Path.mk "Assets").join (ScriptTarget.of "Game.dll.dll" "" "Boot").folder
    p.fileName = some "Game.dll.dll" ∧
      ¬ ((ofPath p).output "Assets").components <+: folder.components ∧
      (Stub.directory "Assets" (Assembly.baseName "Game.dll.dll")).components <+:
        folder.components := by
  intro p folder
  have hp : p.fileName = some "Game.dll.dll" := by decide
  obtain ⟨-, hsources, hplaceholders⟩ := output_prefix_iff hp "Assets" "" "Boot"
  exact ⟨hp, fun hprefix => hsources.mp hprefix (by decide), hplaceholders.mpr (by decide)⟩

end ManagedAssembly

end GameExport
