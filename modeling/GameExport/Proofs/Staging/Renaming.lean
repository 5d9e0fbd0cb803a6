import GameExport.Manifest
import GameExport.Proofs.Disk.Renaming
import GameExport.Proofs.Staging.Inputs
import Mathlib.Data.List.TakeWhile

/-! # Staging under other names

Two runs stage the same inputs with different random names. Every archive is unpacked into folders
that correspond, so the two trees hold the same under corresponding names, and an assembly that is
found in the one is found in the other, under the same file name and with the same content.
-/

namespace GameExport

open GameExport.Path FileTree

/-! ## Workspaces -/

theorem Workspace.place_folder (w : Workspace) {n : String} (hn : IsName n) (l : Location) :
    (w.folder n).place l = n :: w.root.place l :=
  place_join_name w.root hn l

/-- The renaming is about the folders of a workspace, and the way there stays as it is. -/
structure Renaming.Fits (ρ : Renaming) (w : Workspace) : Prop where
  root : ρ.RenamesPath w.root w.root
  base : ρ.base = w.root.place ρ.home

namespace Renaming

variable {ρ : Renaming} {w : Workspace} {n : String} {p q : Path}

/-- Folders of the workspace correspond if their names do. -/
theorem Fits.folder (h : ρ.Fits w) (hn : IsName n) (hn' : IsName (ρ.names n)) :
    ρ.RenamesPath (w.folder n) (w.folder (ρ.names n)) := by
  apply h.root.join hn.not_isAbsolute (ρ.alike n)
  rw [hn.steps_eq, hn'.steps_eq, ← h.base, components, component, name_base]
  rfl

theorem Fits.place_folder (h : ρ.Fits w) (hn : IsName n) :
    (w.folder n).place ρ.home = n :: ρ.base := by
  rw [w.place_folder hn, h.base]

/-- Steps that stay in a folder of the directory remain as they are. -/
theorem components_of_inside {cs : List Component}
    (h : ∀ before c after, cs = before ++ c :: after →
      n :: ρ.base <:+ Component.place (n :: ρ.base) before) :
    ρ.components (n :: ρ.base) cs = cs := by
  apply ρ.components_eq_self
  intro before m after hcs
  apply ρ.name_of_ne
  intro hbase
  have hlength := (h before _ after hcs).length_le
  rw [hbase, List.length_cons] at hlength
  omega

/-- What is told by a path in a folder is told by the same path in the folder that corresponds. -/
theorem RenamesPath.inside (h : ρ.RenamesPath p q) (hplace : p.place ρ.home = n :: ρ.base)
    {r : Path} (hr : r.isAbsolute = false)
    (hinside : ∀ l before c after, r.steps = before ++ c :: after →
      l <:+ Component.place l before) :
    ρ.RenamesPath (p.join r) (q.join r) := by
  apply h.join hr (.refl r)
  rw [hplace, components_of_inside (hinside _)]

end Renaming

/-! ## Archives -/

namespace Archive

open Renaming

variable {ρ : Renaming} {destination destination' target target' archive : Path} {n : String}

/-- Paths in two folders that correspond do so if their names in the archive are safe. -/
theorem renamesPath_join_of_isSafeName (h : ρ.RenamesPath destination destination')
    (hplace : destination.place ρ.home = n :: ρ.base) {name : String} (hsafe : isSafeName name) :
    ρ.RenamesPath (destination.join name) (destination'.join name) := by
  apply h.inside hplace (not_isAbsolute_of_isSafeName hsafe)
  intro l before c after hsteps
  by_cases hbefore : before = []
  · subst hbefore
    exact List.suffix_rfl
  · exact suffix_of_isSafeName hsafe
      (Component.mem_way_iff.mpr ⟨before, c :: after, hsteps, hbefore, rfl⟩)

theorem folderOf_renames (h : ρ.RenamesPath target target') :
    ρ.RenamesPath (folderOf target) (folderOf target') := by
  unfold folderOf
  rcases h.parent with ⟨hp, hq⟩ | ⟨folder, folder', hp, hq, hfolder⟩
  · rw [hp, hq]
    refine .of_way fun m hm => ?_
    cases hm
  · rw [hp, hq]
    exact hfolder

theorem writeContent_agree (h : ρ.RenamesPath target target') (p : Packed) :
    ρ.Agree Eq (writeContent target p) (writeContent target' p) := by
  rw [writeContent_eq, writeContent_eq]
  refine .andThen (Disk.makeDirectories_agree (folderOf_renames h)) fun _ _ _ => ?_
  refine .andThen (Disk.write_agree h _) fun _ _ _ => ?_
  split
  · exact .throw rfl
  · exact .pure rfl

theorem unpackEntry_agree (archive : Path) (h : ρ.RenamesPath destination destination')
    (hplace : destination.place ρ.home = n :: ρ.base) (file : ByteArray) (e : ArchiveEntry) :
    ρ.AgreeUpToErrors Eq (unpackEntry archive destination file e)
      (unpackEntry archive destination' file e) := by
  unfold unpackEntry
  cases findData file e with
  | error flaw => exact .throw trivial
  | ok data =>
      cases hsafe : isSafeName e.name with
      | false => exact .throw trivial
      | true =>
          have htarget := renamesPath_join_of_isSafeName h hplace hsafe
          apply Agree.mapError
          split
          · exact Disk.makeDirectories_agree htarget
          · exact writeContent_agree htarget data

theorem unpackEntries_agree (archive : Path) (h : ρ.RenamesPath destination destination')
    (hplace : destination.place ρ.home = n :: ρ.base) (file : ByteArray) (es : List ArchiveEntry) :
    ρ.AgreeUpToErrors Eq (unpackEntries archive destination file es)
      (unpackEntries archive destination' file es) := by
  induction es with
  | nil => exact .pure rfl
  | cons e es ih =>
      exact .andThen (unpackEntry_agree archive h hplace file e) fun _ _ _ => ih

/-- The archive is the same for both. -/
theorem load_eq {t u : FileTree} (h : ρ.RenamesTree t u)
    (harchive : ρ.RenamesPath archive archive) : load u archive = load t archive := by
  unfold load
  rw [h.read_eq harchive]

/-- An archive is unpacked alike in both folders. -/
theorem unpack_agree (harchive : ρ.RenamesPath archive archive)
    (h : ρ.RenamesPath destination destination') (hplace : destination.place ρ.home = n :: ρ.base) :
    ρ.AgreeUpToErrors Eq (unpack archive destination) (unpack archive destination') := by
  have hload : ρ.AgreeUpToErrors Eq
      (.of fun t => (load t archive, t) : Action FileTree StageError _)
      (.of fun t => (load t archive, t) : Action FileTree StageError _) := by
    intro t u htree
    rw [Action.outcome_of, Action.outcome_of, load_eq htree harchive]
    refine ⟨htree, ?_⟩
    cases load t archive with
    | ok loaded => exact .ok rfl
    | error e => exact .error trivial
  refine .andThen hload ?_
  rintro ⟨file, es⟩ _ rfl
  refine .andThen ((Disk.makeDirectories_agree h).mapError _ _) fun _ _ _ => ?_
  exact unpackEntries_agree archive h hplace file es

end Archive

/-! ## Staging -/

namespace Renaming

structure RenamesStage (ρ : Renaming) (w : Workspace) (count : Nat) (s u : Stage) : Prop where
  tree : ρ.RenamesTree s.tree u.tree
  names : ∀ k < count, u.names.name w.nameLength (u.names.drawn + k) =
    ρ.names (s.names.name w.nameLength (s.names.drawn + k))

theorem RenamesStage.mono {ρ : Renaming} {w : Workspace} {count fewer : Nat} {s u : Stage}
    (h : ρ.RenamesStage w count s u) (hle : fewer ≤ count) : ρ.RenamesStage w fewer s u :=
  ⟨h.tree, fun k hk => h.names k (Nat.lt_of_lt_of_le hk hle)⟩

/-- What two runs stage for an input: the input itself, or folders that correspond. -/
inductive RenamesStaged (ρ : Renaming) (w : Workspace) (kept : Path → Prop) : Path → Path → Prop
  | input {p : Path} (h : kept p) : RenamesStaged ρ w kept p p
  | folder {n : String} (hn : IsName n) (hn' : IsName (ρ.names n)) :
      RenamesStaged ρ w kept (w.folder n) (w.folder (ρ.names n))

end Renaming

namespace Workspace

open Renaming

variable {ρ : Renaming} {w : Workspace} {count : Nat} {input archive : Path} {inputs : List Path}

/-- Two extractions go side by side, and use up one name each. -/
theorem extract_parallel (hfits : ρ.Fits w) (hlength : 0 < w.nameLength)
    (harchive : ρ.RenamesPath archive archive) (kept : Path → Prop) :
    (w.extract archive).Parallel (ρ.RenamesStage w (count + 1)) (ρ.RenamesStage w count)
      (fun _ _ => True) (ρ.RenamesStaged w kept) (w.extract archive) := by
  intro s u h
  have hfirst := h.names 0 count.succ_pos
  rw [Nat.add_zero, Nat.add_zero] at hfirst
  have hn := s.names.isName_name hlength s.names.drawn
  have hn' := u.names.isName_name hlength u.names.drawn
  rw [hfirst] at hn'
  have hnext (k : Nat) (hk : k < count) :
      u.names.name w.nameLength (u.names.drawn + 1 + k) =
        ρ.names (s.names.name w.nameLength (s.names.drawn + 1 + k)) := by
    have hk' := h.names (k + 1) (Nat.succ_lt_succ hk)
    rwa [Nat.add_comm k, ← Nat.add_assoc, ← Nat.add_assoc] at hk'
  obtain ⟨htree, hends⟩ := Archive.unpack_agree harchive (hfits.folder hn hn')
    (hfits.place_folder hn) s.tree u.tree h.tree
  rw [outcome_extract, outcome_extract, nextFolder, nextFolder, folderAt, folderAt, hfirst]
  refine ⟨⟨htree, hnext⟩, ?_⟩
  dsimp only
  generalize ((Archive.unpack archive (w.folder _)).outcome s.tree).1 = r at hends
  generalize ((Archive.unpack archive (w.folder _)).outcome u.tree).1 = r' at hends
  cases hends with
  | ok _ => exact .ok (.folder hn hn')
  | error _ => exact .error trivial

/-- An input that is taken as it is was no archive at the start either. -/
theorem stageOne_parallel (hfits : ρ.Fits w) (hlength : 0 < w.nameLength)
    (hinput : ρ.RenamesPath input input) (t : FileTree) {kept : Path → Prop}
    (hkept : isUnpacked t input = false → kept input) :
    (w.stageOne input).Parallel
      (fun s u => ρ.RenamesStage w (count + 1) s u ∧ Grows t s.tree)
      (fun s u => ρ.RenamesStage w count s u ∧ Grows t s.tree)
      (fun _ _ => True) (ρ.RenamesStaged w kept) (w.stageOne input) := by
  have hgrows : (w.extract input).Moves fun s u => Grows t s.tree → Grows t u.tree :=
    (w.extract_fills input).mono fun s u h hs => hs.trans h.grows.grows
  refine .ask_bind (V := fun b c => c = b ∧ (b = false → kept input)) ?_ ?_
  · rintro s u ⟨h, hs⟩
    refine ⟨?_, fun hnot => hkept ?_⟩
    · rw [isUnpacked, isUnpacked, h.tree.isFile_eq hinput]
    · by_contra hthere
      have harchive := isUnpacked_iff.mp (by simpa using hthere)
      have hstill : IsArchive s.tree input := ⟨hs.isFile harchive.isFile, harchive.extension⟩
      rw [isUnpacked_iff.mpr hstill] at hnot
      cases hnot
  · rintro _ unpacked ⟨rfl, hb⟩
    cases unpacked with
    | true => exact (extract_parallel hfits hlength hinput kept).keeping hgrows
    | false => exact .weaken (.pure (.input (hb rfl))) fun s u h => ⟨h.1.mono count.le_succ, h.2⟩

/-- Both runs stage folders that correspond for the same inputs, or both fail. -/
theorem stage_parallel (hfits : ρ.Fits w) (hlength : 0 < w.nameLength)
    (hinputs : ∀ p ∈ inputs, ρ.RenamesPath p p) (t : FileTree) {kept : Path → Prop}
    (hkept : ∀ p ∈ inputs, isUnpacked t p = false → kept p) :
    (w.stage inputs).Parallel
      (fun s u => ρ.RenamesStage w inputs.length s u ∧ Grows t s.tree)
      (fun s u => ρ.RenamesTree s.tree u.tree)
      (fun _ _ => True) (List.Forall₂ (ρ.RenamesStaged w kept)) (w.stage inputs) := by
  induction inputs with
  | nil => exact .weaken (.pure .nil) fun _ _ h => h.1.tree
  | cons input inputs ih =>
      refine .bind (stageOne_parallel hfits hlength (hinputs input List.mem_cons_self) t
        (hkept input List.mem_cons_self)) (fun _ _ h => h.1.tree) fun path path' hpath => ?_
      have hrest := ih (fun p hp => hinputs p (List.mem_cons_of_mem input hp))
        fun p hp => hkept p (List.mem_cons_of_mem input hp)
      refine .andThen hrest fun paths paths' hpaths => ?_
      exact .pure (.cons hpath hpaths)

end Workspace

/-! ## Finding assemblies -/

/-- The name at the end of a joined path is that of the right one, unless that has none but dots. -/
theorem Path.fileName_join (p : Path) {q : Path} (hq : q.isAbsolute = false)
    (hname : ∃ part ∈ parts '/' q.text.toList, part ≠ ['.']) :
    (p.join q).fileName = q.fileName := by
  obtain ⟨part, hpart, hne⟩ := hname
  have hrest : (parts '/' q.text.toList).reverse.dropWhile (· = ['.']) ≠ [] := by
    rw [ne_eq, List.dropWhile_eq_nil_iff]
    exact fun hall => hne (by simpa using hall part (List.mem_reverse.mpr hpart))
  unfold fileName nameAtEnd
  rw [parts_join p hq, List.reverse_append, List.dropWhile_append, if_neg (by simpa using hrest),
    List.head?_append_of_ne_nil _ hrest]

/-- A file in a directory is named by the path that leads there from the directory. -/
theorem FileTree.fileName_join_of_isFile {t : FileTree} {p q : Path} (hq : q.isAbsolute = false)
    (hdirectory : t.isDirectory p) (hfile : t.isFile (p.join q)) :
    (p.join q).fileName = q.fileName := by
  apply fileName_join p hq
  by_contra hdots
  push Not at hdots
  have hsteps : q.steps.filter (· ≠ .here) = [] := by
    rw [steps, if_neg (by simp [hq]), List.nil_append, List.filter_eq_nil_iff]
    intro c hc
    obtain ⟨part, hpart, rfl⟩ := List.mem_map.mp hc
    simp [hdots part hpart, componentOf]
  have hplace : t.place (p.join q) = t.place p := by
    rw [place, place_join p hq, Path.place, ← Component.place_filter_here, hsteps]
    rfl
  obtain ⟨-, content, executable, hcontent⟩ := isFile_iff.mp hfile
  rw [hplace, (isDirectory_iff.mp hdirectory).2] at hcontent
  cases hcontent

namespace Renaming

structure RenamesFile (ρ : Renaming) (p q : Path) : Prop where
  path : ρ.RenamesPath p q
  fileName : p.fileName = q.fileName

structure RenamesAssembly (ρ : Renaming) (a b : ManagedAssembly) : Prop where
  name : a.name = b.name
  path : ρ.RenamesPath a.path b.path

theorem RenamesFile.assembly {ρ : Renaming} {p q : Path} (h : ρ.RenamesFile p q) :
    ρ.RenamesAssembly (.ofPath p) (.ofPath q) := by
  refine ⟨?_, h.path⟩
  unfold ManagedAssembly.ofPath
  rw [h.fileName]

end Renaming

namespace Manifest

open Renaming

variable {ρ : Renaming} {w : Workspace} {t u : FileTree} {kept : Path → Prop} {ps qs : List Path}
  {a : Path}

/-- An assembly is looked for in the first directory, and then in the others. -/
theorem resolve_cons (hrelative : a.isAbsolute = false) (t : FileTree) (p : Path)
    (ps : List Path) :
    resolve t (p :: ps) a =
      if t.isDirectory p ∧ t.isFile (p.join a) then p.join a else resolve t ps a := by
  unfold resolve
  simp only [hrelative, Bool.false_eq_true, if_false]
  by_cases hdirectory : t.isDirectory p
  · by_cases hfile : t.isFile (p.join a)
    · simp [hdirectory, hfile]
    · simp [hdirectory, hfile]
  · simp [hdirectory]

/-- An assembly is looked for at places that correspond. -/
theorem join_renames (hfits : ρ.Fits w) {p q : Path} (hpq : ρ.RenamesStaged w kept p q)
    (hkept : ∀ p, kept p → ρ.RenamesPath p p ∧ ρ.RenamesPath (p.join a) (p.join a))
    (hrelative : a.isAbsolute = false) (hclimb : .up ∉ a.steps) :
    ρ.RenamesPath p q ∧ ρ.RenamesPath (p.join a) (q.join a) := by
  cases hpq with
  | input h => exact hkept p h
  | folder hn hn' =>
      have hfolder := hfits.folder hn hn'
      refine ⟨hfolder, hfolder.inside (hfits.place_folder hn) hrelative ?_⟩
      intro l before c after hsteps
      have hroot : .root ∉ a.steps := by
        rw [root_mem_steps, hrelative]
        exact Bool.false_ne_true
      rw [hsteps, List.mem_append, not_or] at hclimb hroot
      exact Component.suffix_place hclimb.1 hroot.1

/-- An assembly is found at places that correspond. -/
theorem resolve_renames (hfits : ρ.Fits w) (htree : ρ.RenamesTree t u)
    (hstaged : List.Forall₂ (ρ.RenamesStaged w kept) ps qs)
    (hkept : ∀ p, kept p → ρ.RenamesPath p p ∧ ρ.RenamesPath (p.join a) (p.join a))
    (ha : ρ.RenamesPath a a) (hclimb : .up ∉ a.steps) :
    ρ.RenamesFile (resolve t ps a) (resolve u qs a) := by
  cases hrelative : a.isAbsolute with
  | true =>
      rw [resolve, resolve, if_pos hrelative, if_pos hrelative]
      exact ⟨ha, rfl⟩
  | false =>
      induction hstaged with
      | nil =>
          rw [resolve, resolve, if_neg (by simp [hrelative]), if_neg (by simp [hrelative])]
          exact ⟨ha, rfl⟩
      | @cons p q ps qs hpq _ ih =>
          obtain ⟨hpath, hjoined⟩ := join_renames hfits hpq hkept hrelative hclimb
          have hdirectory := htree.isDirectory_eq hpath
          have hfile := htree.isFile_eq hjoined
          rw [resolve_cons hrelative, resolve_cons hrelative, hdirectory, hfile]
          by_cases hfound : t.isDirectory p ∧ t.isFile (p.join a)
          · rw [if_pos hfound, if_pos hfound]
            refine ⟨hjoined, ?_⟩
            rw [fileName_join_of_isFile hrelative hfound.1 hfound.2]
            rw [← hdirectory, ← hfile] at hfound
            rw [fileName_join_of_isFile hrelative hfound.1 hfound.2]
          · rw [if_neg hfound, if_neg hfound]
            exact ih

/-- Assemblies are found at paths that correspond. -/
theorem resolveAssemblies_renames (m : Manifest) (hfits : ρ.Fits w) (htree : ρ.RenamesTree t u)
    (hstaged : List.Forall₂ (ρ.RenamesStaged w kept) ps qs)
    (hkept : ∀ p, kept p → ρ.RenamesPath p p ∧
      ∀ a ∈ m.assemblies, ρ.RenamesPath (p.join a) (p.join a))
    (hassemblies : ∀ a ∈ m.assemblies, ρ.RenamesPath a a ∧ .up ∉ a.steps) :
    List.Forall₂ ρ.RenamesAssembly (m.resolveAssemblies t ps) (m.resolveAssemblies u qs) := by
  unfold resolveAssemblies
  rw [List.forall₂_map_left_iff, List.forall₂_map_right_iff, List.forall₂_same]
  intro a ha
  obtain ⟨hpath, hclimb⟩ := hassemblies a ha
  refine (resolve_renames hfits htree hstaged (fun p hp => ?_) hpath hclimb).assembly
  exact ⟨(hkept p hp).1, (hkept p hp).2 a ha⟩

end Manifest

end GameExport
