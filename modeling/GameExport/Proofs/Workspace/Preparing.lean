import GameExport.Proofs.Disk.Making
import GameExport.Proofs.Workspace

/-! # What preparing a workspace can lose

A directory that was removed can be made again, so preparing a workspace either leaves an empty root
or takes nothing away. The exception is a root that ends in a dot: the directory is emptied before
the system refuses to remove it under that name.
-/

namespace GameExport

open GameExport.Path FileTree

/-! ## A directory that was removed can be made again -/

namespace FileTree

variable {t u : FileTree} {p : Path} {m : Location}

/-- Nothing on the way of a path that never climbs is below its place. -/
theorem eq_place_of_mem_way (hclimb : .up ∉ p.steps) (hm : m ∈ t.way p) (hbelow : t.place p <:+ m) :
    m = t.place p :=
  (suffix_place_of_mem_way hclimb hm).eq_of_length_le hbelow.length_le

/-- A path with a name in it leads away from the directory where it starts. -/
theorem not_suffix_workingDirectory (hclimb : .up ∉ p.steps) (hrelative : p.isAbsolute = false)
    {n : String} (hname : .name n ∈ p.steps) : ¬ t.place p <:+ t.workingDirectory := by
  have hroot : .root ∉ p.steps := by
    rw [root_mem_steps, hrelative]
    exact Bool.false_ne_true
  intro hbelow
  have habove : t.workingDirectory <:+ t.place p := Component.suffix_place hclimb hroot
  exact Component.place_ne_of_name hclimb hroot hname
    (hbelow.eq_of_length_le habove.length_le)

/-- Where a directory and all that it held are gone, it can be made again. -/
theorem canMake_of_removed (h : t.isDirectory p) (hclimb : .up ∉ p.steps) {n : String}
    (hname : .name n ∈ p.steps) (hgone : ∀ m, t.place p <:+ m → u.get? m = none)
    (hchanges : ChangesWithin (.under p) .none t u) : u.CanMake p := by
  obtain ⟨hreaches, -⟩ := isDirectory_iff.mp h
  have hkept {m : Location} (hm : ¬ t.place p <:+ m) : u.get? m = t.get? m :=
    (hchanges.outside m hm).resolve_right fun hmade => hmade.1
  refine ⟨hreaches.accepted, fun _ => hreaches.short, ?_, fun m hm => ?_⟩
  · cases hrelative : p.isAbsolute with
    | true => exact Or.inl rfl
    | false =>
        have hstart := hreaches.start (List.ne_nil_of_mem hname)
        rw [hchanges.workingDirectory, hkept (not_suffix_workingDirectory hclimb hrelative hname)]
        exact Or.inr (hstart.resolve_left (by simp [hrelative]))
  · rw [way_congr hchanges.workingDirectory] at hm
    by_cases hbelow : t.place p <:+ m
    · exact Or.inl (hgone m hbelow)
    · rw [hkept hbelow]
      exact Or.inr (directory_of_mem_way h hm)

end FileTree

namespace Disk

variable {t u : FileTree} {p : Path}

/-- Directories that are made along a path that never climbs leave what is below its place. -/
theorem get?_below_of_makeDirectories {result : Except FileError Unit} (hclimb : .up ∉ p.steps)
    (h : (makeDirectories p).outcome t = (result, u)) {m : Location} (hbelow : t.place p <:+ m)
    (hne : m ≠ t.place p) : u.get? m = t.get? m := by
  have hmoves := makeDirectories_moves_along p t
  rw [h] at hmoves
  rcases hmoves.outside m id with heq | ⟨hmade, -⟩
  · exact heq
  · exact absurd (eq_place_of_mem_way hclimb hmade hbelow) hne

/-- A directory that is found once it was made could be found before if it was there. -/
theorem contains_of_makeDirectories (hclimb : .up ∉ p.steps) (hne : p.text ≠ "") {x : Unit}
    (h : (makeDirectories p).outcome t = (.ok x, u))
    (hold : t.get? (t.place p) = some .directory) : t.contains p := by
  obtain ⟨hworking, hisDirectory, -⟩ := makeDirectories_eq_ok h
  obtain ⟨hreaches, hdir⟩ := isDirectory_iff.mp (hisDirectory hne)
  rw [place_congr hworking] at hdir
  exact contains_of_isDirectory (hreaches.isDirectory_of_get? hclimb hworking hdir hold)

end Disk

namespace Workspace

variable {root : Path} {config : WorkspaceConfig} {t u : FileTree}

/-! ## What is spared -/

def HoldsSomething (t : FileTree) (l : Location) : Prop :=
  ∃ m, l <:+ m ∧ m ≠ l ∧ (t.get? m).isSome

/-- Preparing a workspace wiped its root and nothing else, or it destroyed nothing. It tells which
step has failed. -/
def WipesOrSpares (root : Path) (length : Nat) (t : FileTree) :
    Except WorkspaceError Workspace × FileTree → Prop
  | (.ok w, u) => w = ⟨root, length⟩ ∧ u.isDirectory root ∧ ¬ HoldsSomething u (t.place root) ∧
      ChangesWithin (.under root) (.along root) t u
  | (.error (.create p _), u) => p = root ∧ ChangesWithin .none (.along root) t u
  | (.error (.remove p _), u) => p = root ∧ ChangesWithin .none .none t u
  | (.error (.nameLength n), u) => n = length ∧ u = t
  | (.error (.executable _), _) => False

/-- A directory that holds something stands at a root that ends in a dot. It can be emptied, but it
cannot be removed under that name. -/
structure StuckAtDot (root : Path) (t : FileTree) : Prop where
  last : root.steps.getLast? = some .here
  directory : t.isDirectory root
  holds : HoldsSomething t (t.place root)

/-- To empty a directory takes nothing away if there is nothing in it. -/
theorem emptyAt_spares_iff {l : Location} :
    ChangesWithin .none .none t (t.emptyAt l) ↔ ¬ HoldsSomething t l := by
  constructor
  · rintro hsame ⟨m, hbelow, hm, hsome⟩
    have hne : m ≠ [] := by
      rintro rfl
      exact hm (List.suffix_nil.mp hbelow).symm
    have heq := (hsame.outside m id).resolve_right fun hmade => hmade.1
    rw [get?_emptyAt t m hne, if_pos ⟨hbelow, hm⟩] at heq
    rw [← heq] at hsome
    cases hsome
  · refine fun hempty => ⟨rfl, fun m _ => Or.inl ?_⟩
    by_cases hm : l <:+ m ∧ m ≠ l
    · have hnone : t.get? m = none := by
        by_contra hsome
        exact hempty ⟨m, hm.1, hm.2, Option.isSome_iff_ne_none.mpr hsome⟩
      have hne : m ≠ [] := by
        rintro rfl
        exact hm.2 (List.suffix_nil.mp hm.1).symm
      rw [get?_emptyAt t m hne, if_pos hm, hnone]
    · exact get?_emptyAt_of_not_below t fun hbelow => by_contra fun hne => hm ⟨hbelow, hne⟩

/-! ## How preparing ends -/

theorem outcome_prepare_of_short (h : config.nameLength.toNat < minNameLength) (root : Path)
    (t : FileTree) :
    (prepare root config).outcome t = (.error (.nameLength config.nameLength.toNat), t) := by
  rw [prepare, if_pos h]
  rfl

section LongEnough

variable (hlength : minNameLength ≤ config.nameLength.toNat)

include hlength

/-- Preparing clears the root and makes it anew, and stops where that fails. -/
theorem outcome_prepare (root : Path) (t : FileTree) :
    (prepare root config).outcome t =
      match (clear root).outcome t with
      | (.error e, u) => (.error (.remove root e), u)
      | (.ok (), u) =>
          match (Disk.makeDirectories root).outcome u with
          | (.error e, v) => (.error (.create root e), v)
          | (.ok (), v) => (.ok ⟨root, config.nameLength.toNat⟩, v) := by
  rw [prepare, if_neg (Nat.not_lt.mpr hlength), Action.outcome_bind, Action.outcome_mapError]
  rcases (clear root).outcome t with ⟨_ | ⟨⟩, u⟩
  · rfl
  · dsimp only [Except.mapError]
    rw [Action.outcome_bind, Action.outcome_mapError]
    rcases (Disk.makeDirectories root).outcome u with ⟨_ | _, v⟩ <;> rfl

/-- A root that is not there is made, or only directories around it are. -/
theorem wipesOrSpares_of_missing (hclimb : .up ∉ root.steps) (hne : root.text ≠ "")
    (hmissing : ¬ t.contains root) :
    WipesOrSpares root config.nameLength.toNat t ((prepare root config).outcome t) := by
  have hmoves := Disk.makeDirectories_moves_along root t
  rw [outcome_prepare hlength, outcome_clear, if_neg hmissing]
  dsimp only
  rcases hmake : (Disk.makeDirectories root).outcome t with ⟨e | ⟨⟩, u⟩
  · rw [hmake] at hmoves
    exact ⟨rfl, hmoves⟩
  · rw [hmake] at hmoves
    obtain ⟨-, hisDirectory, -⟩ := Disk.makeDirectories_eq_ok hmake
    refine ⟨rfl, hisDirectory hne, ?_, hmoves.mono (fun _ _ hnone => hnone.elim) fun _ _ => Or.inr⟩
    rintro ⟨m, hbelow, hm, hsome⟩
    rw [Disk.get?_below_of_makeDirectories hclimb hmake hbelow hm] at hsome
    obtain ⟨e, he⟩ := Option.isSome_iff_exists.mp hsome
    exact hmissing (Disk.contains_of_makeDirectories hclimb hne hmake
      (get?_of_suffix he hbelow hm.symm))

/-- A root that is there but is no directory stays. -/
theorem wipesOrSpares_of_file (hfound : t.contains root) (hfile : ¬ t.isDirectory root) :
    WipesOrSpares root config.nameLength.toNat t ((prepare root config).outcome t) := by
  obtain ⟨e, he⟩ := Disk.removeDirectory_of_not_isDirectory hfile
  rw [outcome_prepare hlength, outcome_clear, if_pos hfound, he]
  exact ⟨rfl, .refl t⟩

/-- A directory is removed and made again. -/
theorem exists_prepare_of_directory (hclimb : .up ∉ root.steps) {n : String}
    (hlast : root.steps.getLast? = some (.name n)) (hdir : t.isDirectory root) :
    ∃ u, (prepare root config).outcome t = (.ok ⟨root, config.nameLength.toNat⟩, u) ∧
      u.isDirectory root ∧ ¬ HoldsSomething u (t.place root) := by
  have hname : .name n ∈ root.steps := List.mem_of_getLast? hlast
  have hne : root.text ≠ "" := fun hempty => by simp [steps_of_text_eq_empty hempty] at hname
  obtain ⟨v, hremove, hgone⟩ := Disk.removeDirectory_of_isDirectory hdir hclimb hlast
  have hchanges := Disk.removeDirectory_moves root t
  rw [hremove] at hchanges
  obtain ⟨u, hmake⟩ := Disk.makeDirectories_of_canMake
    (canMake_of_removed hdir hclimb hname hgone hchanges) hlast
  obtain ⟨-, hisDirectory, -⟩ := Disk.makeDirectories_eq_ok hmake
  refine ⟨u, ?_, hisDirectory hne, ?_⟩
  · rw [outcome_prepare hlength, outcome_clear, if_pos (contains_of_isDirectory hdir), hremove]
    dsimp only
    rw [hmake]
  · rintro ⟨m, hbelow, hm, hsome⟩
    have hnone := hgone m hbelow
    rw [← place_congr hchanges.workingDirectory] at hbelow hm
    rw [Disk.get?_below_of_makeDirectories hclimb hmake hbelow hm, hnone] at hsome
    cases hsome

/-- A directory at a root that ends in a dot is emptied, and then it is an error. -/
theorem outcome_prepare_of_here (hclimb : .up ∉ root.steps)
    (hlast : root.steps.getLast? = some .here) (hdir : t.isDirectory root) :
    (prepare root config).outcome t =
      (.error (.remove root .invalidArgument), t.emptyAt (t.place root)) := by
  rw [outcome_prepare hlength, outcome_clear, if_pos (contains_of_isDirectory hdir),
    Disk.removeDirectory_of_here hdir hclimb hlast]

/-- Something is destroyed in vain only if the root ends in a dot. -/
theorem wipesOrSpares_iff (hclimb : .up ∉ root.steps) {n : String} (hname : .name n ∈ root.steps)
    (t : FileTree) :
    WipesOrSpares root config.nameLength.toNat t ((prepare root config).outcome t) ↔
      ¬ StuckAtDot root t := by
  have hne : root.text ≠ "" := fun hempty => by simp [steps_of_text_eq_empty hempty] at hname
  by_cases hdir : t.isDirectory root
  · rcases getLast?_steps_cases hclimb hname with hlast | ⟨k, hlast⟩
    · rw [outcome_prepare_of_here hlength hclimb hlast hdir]
      constructor
      · exact fun hspares hdot => emptyAt_spares_iff.mp hspares.2 hdot.holds
      · exact fun hdot => ⟨rfl, emptyAt_spares_iff.mpr fun hholds => hdot ⟨hlast, hdir, hholds⟩⟩
    · obtain ⟨u, hprepare, hnew, hempty⟩ :=
        exists_prepare_of_directory hlength hclimb hlast hdir
      rw [hprepare]
      refine iff_of_true ⟨rfl, hnew, hempty, prepare_changesWithin hprepare⟩ fun hdot => ?_
      have hhere := hdot.last
      rw [hlast] at hhere
      cases hhere
  · refine iff_of_true ?_ fun hdot => hdir hdot.directory
    by_cases hfound : t.contains root
    · exact wipesOrSpares_of_file hlength hfound hdir
    · exact wipesOrSpares_of_missing hlength hclimb hne hfound

end LongEnough

/-- The length of the names decides whether it is refused. -/
theorem outcome_prepare_eq_nameLength_iff :
    (∃ n u, (prepare root config).outcome t = (.error (.nameLength n), u)) ↔
      config.nameLength.toNat < minNameLength := by
  constructor
  · rintro ⟨n, u, h⟩
    by_contra hlength
    rw [outcome_prepare (Nat.le_of_not_lt hlength)] at h
    split at h
    · cases h
    · split at h <;> cases h
  · exact fun hshort => ⟨_, _, outcome_prepare_of_short hshort root t⟩

/-- Preparing a workspace refuses names that are too short, whatever is at the root. Beyond that it
wipes the root or destroys nothing, unless the root ends in a dot and is a directory that holds
something: all of that is lost, and it is an error. A directory whose path ends in a name is always
wiped. -/
theorem prepare_wipesOrSpares (hname : ∃ n, .name n ∈ root.components)
    (hclimb : .up ∉ root.components) (config : WorkspaceConfig) (t : FileTree) :
    ((∃ n u, (prepare root config).outcome t = (.error (.nameLength n), u)) ↔
      config.nameLength.toNat < minNameLength) ∧
    (WipesOrSpares root config.nameLength.toNat t ((prepare root config).outcome t) ↔
      ¬ (minNameLength ≤ config.nameLength.toNat ∧ StuckAtDot root t)) ∧
    (minNameLength ≤ config.nameLength.toNat → StuckAtDot root t →
      (prepare root config).outcome t =
        (.error (.remove root .invalidArgument), t.emptyAt (t.place root))) ∧
    (minNameLength ≤ config.nameLength.toNat → t.isDirectory root →
      ∀ n, root.steps.getLast? = some (.name n) →
        ∃ u, (prepare root config).outcome t = (.ok ⟨root, config.nameLength.toNat⟩, u)) := by
  obtain ⟨n, hname⟩ := hname
  rw [mem_components (by simp)] at hname hclimb
  refine ⟨outcome_prepare_eq_nameLength_iff, ?_, fun hlength hdot =>
    outcome_prepare_of_here hlength hclimb hdot.last hdot.directory,
    fun hlength hdir n hlast => ?_⟩
  · rcases Nat.lt_or_ge config.nameLength.toNat minNameLength with hshort | hlength
    · rw [outcome_prepare_of_short hshort]
      exact iff_of_true ⟨rfl, rfl⟩ fun hboth => absurd hshort (Nat.not_lt.mpr hboth.1)
    · rw [wipesOrSpares_iff hlength hclimb hname]
      simp only [hlength, true_and]
  · obtain ⟨u, hprepare, -⟩ := exists_prepare_of_directory hlength hclimb hlast hdir
    exact ⟨u, hprepare⟩

/-- A workspace where an older one was left behind is wiped. -/
theorem prepare_wipesOrSpares_of_stale_root :
    let tree := ((do
      Disk.makeDirectories ⟨"tmp/work"⟩
      Disk.writeText ⟨"tmp/work/old.txt"⟩ "old") : Disk.Operation Unit).outcome {} |>.2
    WipesOrSpares ⟨"tmp/work"⟩ 10 tree ((prepare ⟨"tmp/work"⟩ {}).outcome tree) ∧
      ((prepare ⟨"tmp/work"⟩ {}).outcome tree).1 = .ok ⟨⟨"tmp/work"⟩, 10⟩ := by
  intro tree
  refine ⟨(prepare_wipesOrSpares ⟨"work", by decide⟩ (by decide) {} tree).2.1.mpr ?_,
    by decide +kernel⟩
  rintro ⟨-, hlast, -, -⟩
  exact absurd hlast (by decide)

/-- A dot behind the name of the root: the file is lost, and it is an error to remove the root. -/
theorem prepare_losesFile_of_dot :
    let tree := ((do
      Disk.makeDirectories ⟨"temp"⟩
      Disk.writeText ⟨"temp/keep.txt"⟩ "kept") : Disk.Operation Unit).outcome {} |>.2
    (Path.mk "temp/.").components = [.name "temp"] ∧
      tree.isFile ⟨"temp/keep.txt"⟩ ∧
      ∃ u, (prepare ⟨"temp/."⟩ {}).outcome tree =
          (.error (.remove ⟨"temp/."⟩ .invalidArgument), u) ∧
        u.contains ⟨"temp/keep.txt"⟩ = false ∧
        ¬ WipesOrSpares ⟨"temp/."⟩ 10 tree ((prepare ⟨"temp/."⟩ {}).outcome tree) := by
  intro tree
  have hrun : ((prepare ⟨"temp/."⟩ {}).outcome tree).1 =
      .error (.remove ⟨"temp/."⟩ .invalidArgument) := by decide +kernel
  have hfile : tree.isFile ⟨"temp/keep.txt"⟩ := by decide +kernel
  have hlost : ((prepare ⟨"temp/."⟩ {}).outcome tree).2.contains ⟨"temp/keep.txt"⟩ = false := by
    decide +kernel
  have hdot : StuckAtDot ⟨"temp/."⟩ tree :=
    ⟨by decide, by decide +kernel, ["keep.txt", "temp"], by decide +kernel⟩
  have hname : .name "temp" ∈ (Path.mk "temp/.").steps := by decide
  have hlength : minNameLength ≤ ({} : WorkspaceConfig).nameLength.toNat := by decide
  refine ⟨by decide, hfile, _, Prod.ext hrun rfl, hlost, fun hspares => ?_⟩
  exact (wipesOrSpares_iff hlength (by decide) hname tree).mp hspares hdot

end Workspace

end GameExport
