import GameExport.Proofs.Archive.EntryName
import GameExport.Proofs.Disk.Growth
import GameExport.Staging

/-! # Where staging may write

Unpacking an archive adds files and directories at its folder and below it, whatever its entries
are called and wherever it stops. Outside it makes at most the directories that lead to the folder.
The folders for archives are inside the workspace, so staging stays inside the workspace.
-/

namespace GameExport

open GameExport.Path FileTree

/-- The files grow at a path and below it; on the way to it directories may be made. -/
abbrev FileTree.GrowsBelow (p : Path) : FileTree → FileTree → Prop :=
  GrowsWithin (.under p) (.along p)

/-! ## Archives -/

namespace Archive

variable {destination target : Path}

/-- A path that an entry may have in a folder. -/
structure IsInside (destination target : Path) : Prop where
  way : ∀ l m, m ∈ target.way l → Region.under destination l m ∨ Region.along destination l m
  place : ∀ l, Region.under destination l (target.place l)

/-- An entry with a safe name is inside. -/
theorem isInside_join {name : String} (h : isSafeName name) (destination : Path) :
    IsInside destination (destination.join name) where
  way := fun _ _ hm => (mem_way_join_of_isSafeName h destination hm).symm
  place := suffix_place_join_of_isSafeName h destination

/-- The folder in which a file is written. A path without one needs no directory. -/
def folderOf (target : Path) : Path := target.parent.getD ⟨""⟩

/-- The way to the folder of a file is part of the way to the file. -/
theorem way_folderOf_subset (target : Path) (l : Location) :
    (folderOf target).way l ⊆ target.way l := by
  unfold folderOf
  cases hparent : target.parent with
  | none =>
      have hsteps : (Path.mk "").steps = [] := steps_of_text_eq_empty rfl
      rw [Option.getD_none, Path.way, hsteps]
      exact List.nil_subset _
  | some folder => exact way_subset_of_parent hparent l

/-- A file is written behind the directories on its way, and a failure of its content is met last.
-/
theorem writeContent_eq (target : Path) (p : Packed) :
    writeContent target p = (do
      Disk.makeDirectories (folderOf target)
      Disk.write target p.content.1
      match p.content.2 with
      | some e => throw e
      | none => pure ()) := by
  unfold writeContent folderOf
  cases target.parent with
  | none => rfl
  | some folder => rfl

theorem writeContent_growsBelow (h : IsInside destination target) (p : Packed) :
    (writeContent target p).Moves (GrowsBelow destination) := by
  rw [writeContent_eq]
  refine .bind GrowsWithin.trans ?_ fun _ => .bind GrowsWithin.trans ?_ fun _ => ?_
  · apply Disk.makeDirectories_growsWithin
    intro l m hm
    exact h.way l m (way_folderOf_subset target l hm)
  · exact Disk.write_growsWithin h.place
  · split
    · exact .throw GrowsWithin.refl _
    · exact .pure GrowsWithin.refl ()

theorem unpackEntry_growsBelow (archive destination : Path) (file : ByteArray) (e : ArchiveEntry) :
    (unpackEntry archive destination file e).Moves (GrowsBelow destination) := by
  unfold unpackEntry
  split
  · exact .throw GrowsWithin.refl _
  · split
    · exact .throw GrowsWithin.refl _
    · next hsafe =>
        have hinside : IsInside destination (destination.join e.name) :=
          isInside_join (by simpa using hsafe) destination
        apply Action.Moves.mapError
        split
        · exact Disk.makeDirectories_growsWithin hinside.way
        · exact writeContent_growsBelow hinside _

theorem unpackEntries_growsBelow (archive destination : Path) (file : ByteArray)
    (es : List ArchiveEntry) :
    (unpackEntries archive destination file es).Moves (GrowsBelow destination) := by
  induction es with
  | nil => exact .pure GrowsWithin.refl ()
  | cons e es ih =>
      exact .bind GrowsWithin.trans (unpackEntry_growsBelow archive destination file e) fun _ => ih

/-- An archive is unpacked inside, however that ends. -/
theorem unpack_growsBelow (archive destination : Path) :
    (unpack archive destination).Moves (GrowsBelow destination) := by
  unfold unpack
  refine .bind GrowsWithin.trans (fun t => GrowsWithin.refl t) fun loaded => ?_
  refine .bind GrowsWithin.trans ?_ fun _ => ?_
  · exact (Disk.makeDirectories_growsWithin fun _ _ hm => Or.inr hm).mapError
  · exact unpackEntries_growsBelow archive destination loaded.1 loaded.2

end Archive

/-! ## Random names -/

/-- Random names have no other characters than those of the alphabet. -/
theorem Names.mem_nameAlphabet {names : Names} {length k : Nat} {c : Char}
    (h : c ∈ (names.name length k).toList) : c ∈ nameAlphabet.toList := by
  rw [name, String.toList_ofList] at h
  obtain ⟨i, -, rfl⟩ := List.mem_map.mp h
  exact Vector.mem_toList_iff.mpr (Vector.getElem_mem _)

/-- A random name is a name, unless it has no characters at all. -/
theorem Names.isName_name (names : Names) {length : Nat} (hlength : 0 < length) (k : Nat) :
    IsName (names.name length k) := by
  have hslash : '/' ∉ (names.name length k).toList := fun h =>
    absurd (mem_nameAlphabet h) (by decide)
  have hdot : '.' ∉ (names.name length k).toList := fun h =>
    absurd (mem_nameAlphabet h) (by decide)
  refine ⟨hslash, fun h => ?_, fun h => ?_, fun h => ?_⟩
  · have hcount : (names.name length k).toList.length = length := by simp [name]
    rw [h, String.toList_empty, List.length_nil] at hcount
    omega
  · rw [h] at hdot
    exact hdot (by decide)
  · rw [h] at hdot
    exact hdot (by decide)

/-- A random name takes at most one step, which goes down. -/
theorem Names.steps_name (names : Names) (length k : Nat) :
    (Path.mk (names.name length k)).steps = [] ∨
      (Path.mk (names.name length k)).steps = [.name (names.name length k)] := by
  cases length with
  | zero => exact Or.inl (steps_of_text_eq_empty rfl)
  | succ n => exact Or.inr (names.isName_name n.succ_pos k).steps_eq

theorem Names.not_isAbsolute_name (names : Names) (length k : Nat) :
    (Path.mk (names.name length k)).isAbsolute = false := by
  have hroot : .root ∉ (Path.mk (names.name length k)).steps := by
    rcases names.steps_name length k with h | h
    · simp [h]
    · simp [h]
  simpa [root_mem_steps] using hroot

/-! ## Workspaces -/

namespace Workspace

variable (w : Workspace) (names : Names) (k : Nat) (l : Location)

abbrev folderAt : Path := w.folder (names.name w.nameLength k)

/-- The folder of a random name is in the workspace. -/
theorem suffix_place_folderAt : w.root.place l <:+ (w.folderAt names k).place l := by
  rw [folderAt, folder, place_join _ (names.not_isAbsolute_name _ _)]
  show _ <:+ Component.place (w.root.place l) (Path.mk _).steps
  rcases names.steps_name w.nameLength k with h | h
  · rw [h]
    exact List.suffix_rfl
  · rw [h]
    exact List.suffix_cons _ _

/-- A folder of a workspace is reached from the root in one step, if any is needed. -/
theorem way_folderAt {m : Location} (hm : m ∈ (w.folderAt names k).way l) :
    Region.under (w.folderAt names k) l m ∨ Region.along w.root l m := by
  have hjoin := names.not_isAbsolute_name w.nameLength k
  rw [folderAt, folder, way_join _ hjoin, List.mem_append] at hm
  rcases hm with hroot | hname
  · exact Or.inr hroot
  · left
    rw [Region.under, folderAt, folder, place_join _ hjoin, Path.place]
    rw [Path.way] at hname
    rcases names.steps_name w.nameLength k with h | h
    · rw [h] at hname
      cases hname
    · rw [h] at hname ⊢
      rw [List.mem_singleton.mp hname]
      exact List.suffix_rfl

/-- Where an archive is unpacked, only its folder grows. -/
theorem unpack_folderAt_growsWithin (archive : Path) :
    (Archive.unpack archive (w.folderAt names k)).Moves
      (GrowsWithin (.under (w.folderAt names k)) (.along w.root)) := by
  refine (Archive.unpack_growsBelow archive (w.folderAt names k)).mono fun t u h => ?_
  exact h.mono (fun _ _ hm => hm) fun l m hm => w.way_folderAt names k l hm

variable (archive : Path) (s : Stage)

/-- However unpacking ends, the files are as it left them. -/
theorem tree_extract :
    ((w.extract archive).outcome s).2.tree =
      ((Archive.unpack archive (w.folderAt s.names s.names.drawn)).outcome s.tree).2 := by
  unfold extract
  simp only [Action.outcome_bind, Action.outcome_zoom, allocate, Action.outcome_of]
  split
  · next heq => exact congrArg Stage.tree (Prod.mk.inj heq).2.symm
  · next heq => exact congrArg Stage.tree (Prod.mk.inj heq).2.symm

theorem extract_growsBelow :
    (w.extract archive).Moves fun s u => GrowsBelow w.root s.tree u.tree := by
  intro s
  rw [tree_extract]
  have hunpack := w.unpack_folderAt_growsWithin s.names s.names.drawn archive s.tree
  refine hunpack.mono (fun l m hm => ?_) fun _ _ hm => Or.inr hm
  exact (w.suffix_place_folderAt s.names s.names.drawn l).trans hm

theorem stageOne_growsBelow (input : Path) :
    (w.stageOne input).Moves fun s u => GrowsBelow w.root s.tree u.tree := by
  unfold stageOne
  refine .bind (fun s t u => GrowsWithin.trans s.tree t.tree u.tree)
    (.ask (fun s => GrowsWithin.refl s.tree) _) fun unpacked => ?_
  split
  · exact w.extract_growsBelow input
  · exact .pure (fun s => GrowsWithin.refl s.tree) input

/-- Whatever is staged, and wherever that fails, the files grow inside the workspace. -/
theorem stage_growsBelow (inputs : List Path) :
    (w.stage inputs).Moves fun s u => GrowsBelow w.root s.tree u.tree := by
  have htrans : ∀ s t u : Stage, GrowsBelow w.root s.tree t.tree →
      GrowsBelow w.root t.tree u.tree → GrowsBelow w.root s.tree u.tree :=
    fun _ _ _ h k => h.trans _ _ _ k
  induction inputs with
  | nil => exact .pure (fun s => GrowsWithin.refl s.tree) []
  | cons input inputs ih =>
      refine .bind htrans (w.stageOne_growsBelow input) fun path => ?_
      refine .bind htrans ih fun paths => ?_
      exact .pure (fun s => GrowsWithin.refl s.tree) (path :: paths)

/-- Whatever an archive holds, unpacking it changes nothing outside the folder with the random name,
except that missing directories on the way to the workspace may have been made. It does not matter
whether it succeeds or where it fails. -/
theorem extract_staysInside :
    ChangesWithin (.under (w.folder (s.names.name w.nameLength s.names.drawn))) (.along w.root)
      s.tree ((w.extract archive).outcome s).2.tree := by
  rw [tree_extract]
  exact (w.unpack_folderAt_growsWithin s.names s.names.drawn archive s.tree).changes

end Workspace

end GameExport
