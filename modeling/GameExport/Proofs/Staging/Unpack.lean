import GameExport.Proofs.Staging.Containment

/-! # What is in the folder of an unpacked archive

Entries whose paths lead to the same place share a file, and the last one that is written stays in
it. Besides the files and folders that the archive lists there are only the directories that lead to
them.
-/

namespace GameExport

open GameExport.Path FileTree

namespace Archive

/-! ## One entry -/

variable {archive destination target : Path} {file : ByteArray} {t u v : FileTree}

theorem writeContent_eq_ok {p : Packed} {x : Unit}
    (h : (writeContent target p).outcome t = (.ok x, u)) :
    p.content.2 = none ∧ t.Places (folderOf target) target p.content.1 u := by
  rw [writeContent_eq] at h
  obtain ⟨_, v, hfolder, h⟩ := Action.outcome_bind_eq_ok.mp h
  obtain ⟨_, w, hfile, h⟩ := Action.outcome_bind_eq_ok.mp h
  cases hflaw : p.content.2 with
  | some e =>
      rw [hflaw, Action.outcome_throw] at h
      cases h
  | none =>
      rw [hflaw] at h
      obtain ⟨-, rfl⟩ := Prod.mk.inj h
      exact ⟨rfl, Disk.places_of_eq_ok hfolder hfile⟩

def isFileEntry (e : ArchiveEntry) : Bool := !isFolderName e.name

theorem name_ne_empty_of_folder {e : ArchiveEntry} (h : isFileEntry e = false) : e.name ≠ "" := by
  intro hempty
  rw [isFileEntry, hempty] at h
  cases h

/-- The content of an entry, if it can be had in full. -/
def contentOf (file : ByteArray) (e : ArchiveEntry) : Option ByteArray :=
  match findData file e with
  | .error _ => none
  | .ok data => if data.content.2 = none then some data.content.1 else none

/-- An entry has been unpacked: its folder has been made, or its content written. -/
theorem unpackEntry_eq_ok {e : ArchiveEntry} {x : Unit}
    (h : (unpackEntry archive destination file e).outcome t = (.ok x, u)) :
    isFileEntry e = false ∧
        (Disk.makeDirectories (destination.join e.name)).outcome t = (.ok (), u) ∨
      isFileEntry e = true ∧ ∃ bytes, contentOf file e = some bytes ∧
        t.Places (folderOf (destination.join e.name)) (destination.join e.name) bytes u := by
  unfold unpackEntry at h
  split at h
  · cases h
  · next data hdata =>
      split at h
      · cases h
      · rw [Action.outcome_mapError_eq_ok] at h
        split at h
        · next hfolder => exact Or.inl ⟨by simp [isFileEntry, hfolder], h⟩
        · next hfolder =>
            obtain ⟨hflaw, hplaces⟩ := writeContent_eq_ok h
            refine Or.inr ⟨by simp [isFileEntry, hfolder], data.content.1, ?_, hplaces⟩
            simp [contentOf, hdata, hflaw]

/-! ## The last entry in a file -/

def lastFileAt (start : Location) (destination : Path) (es : List ArchiveEntry) (m : Location) :
    Option ArchiveEntry :=
  (es.filter fun e => isFileEntry e && decide ((destination.join e.name).place start = m)).getLast?

section LastFileAt

variable {start m : Location} {e : ArchiveEntry} {es fs : List ArchiveEntry}

theorem lastFileAt_append (start : Location) (destination : Path) (es fs : List ArchiveEntry)
    (m : Location) : lastFileAt start destination (es ++ fs) m =
      (lastFileAt start destination fs m).or (lastFileAt start destination es m) := by
  rw [lastFileAt, List.filter_append, List.getLast?_append, lastFileAt, lastFileAt]

theorem mem_of_lastFileAt_eq_some (h : lastFileAt start destination es m = some e) :
    e ∈ es ∧ isFileEntry e ∧ (destination.join e.name).place start = m := by
  simpa using List.mem_filter.mp (List.mem_of_getLast? h)

/-- A file has a last one at its location, be it itself or another one. -/
theorem lastFileAt_ne_none (start : Location) (destination : Path) (he : e ∈ es)
    (hfile : isFileEntry e) :
    lastFileAt start destination es ((destination.join e.name).place start) ≠ none := by
  rw [lastFileAt, ne_eq, List.getLast?_eq_none_iff]
  apply List.ne_nil_of_mem (List.mem_filter.mpr ⟨he, _⟩)
  simp [hfile]

end LastFileAt

/-! ## All entries -/

/-- Entries have been unpacked: their folders and files are there, each file with the content of the
last entry that it belongs to, and nothing else is new but directories on the way. -/
structure Unpacks (file : ByteArray) (destination : Path) (es : List ArchiveEntry)
    (t u : FileTree) : Prop where
  grows : Grows t u
  isDirectory : ∀ e ∈ es, isFileEntry e = false → u.isDirectory (destination.join e.name)
  isFile : ∀ e ∈ es, isFileEntry e → u.isFile (destination.join e.name)
  last : ∀ m e, lastFileAt t.workingDirectory destination es m = some e →
    ∃ bytes executable, contentOf file e = some bytes ∧ u.get? m = some (.file bytes executable)
  other : ∀ m, lastFileAt t.workingDirectory destination es m = none →
    u.get? m = t.get? m ∨
      u.get? m = some .directory ∧ ∃ e ∈ es, m ∈ t.way (destination.join e.name)

namespace Unpacks

variable {es fs : List ArchiveEntry}

theorem nil (t : FileTree) : Unpacks file destination [] t t :=
  ⟨.refl t, nofun, nofun, nofun, fun _ _ => Or.inl rfl⟩

/-- What is unpacked later takes nothing away, but it may write to the same files. -/
theorem append (h : Unpacks file destination es t v) (k : Unpacks file destination fs v u) :
    Unpacks file destination (es ++ fs) t u where
  grows := h.grows.trans k.grows
  isDirectory := by
    intro e he hfolder
    rcases List.mem_append.mp he with he | he
    · exact k.grows.isDirectory (h.isDirectory e he hfolder)
    · exact k.isDirectory e he hfolder
  isFile := by
    intro e he hfile
    rcases List.mem_append.mp he with he | he
    · exact k.grows.isFile (h.isFile e he hfile)
    · exact k.isFile e he hfile
  last := by
    intro m e he
    have hlater := k.last m e
    have hother := k.other m
    rw [h.grows.workingDirectory] at hlater hother
    rw [lastFileAt_append, Option.or_eq_some_iff] at he
    rcases he with he | ⟨hnone, he⟩
    · exact hlater he
    · obtain ⟨bytes, x, hbytes, hv⟩ := h.last m e he
      refine ⟨bytes, x, hbytes, ?_⟩
      rcases hother hnone with heq | ⟨hdir, -⟩
      · rw [heq, hv]
      · -- a file does not become a directory
        obtain ⟨c, hc⟩ := k.grows.file hv
        rw [hdir] at hc
        cases hc
  other := by
    intro m hm
    have hother := k.other m
    rw [h.grows.workingDirectory] at hother
    rw [lastFileAt_append, Option.or_eq_none_iff] at hm
    rcases hother hm.1 with heq | ⟨hdir, e, he, hway⟩
    · rw [heq]
      rcases h.other m hm.2 with hsame | ⟨hdir, e, he, hway⟩
      · exact Or.inl hsame
      · exact Or.inr ⟨hdir, e, List.mem_append_left fs he, hway⟩
    · rw [h.grows.way] at hway
      exact Or.inr ⟨hdir, e, List.mem_append_right es he, hway⟩

end Unpacks

theorem unpackEntry_unpacks {e : ArchiveEntry} {x : Unit}
    (h : (unpackEntry archive destination file e).outcome t = (.ok x, u)) :
    Unpacks file destination [e] t u := by
  rcases unpackEntry_eq_ok h with ⟨hfolder, hmake⟩ | ⟨hfile, bytes, hbytes, hplaces⟩
  · have hgrows := Disk.makeDirectories_grows hmake
    obtain ⟨-, hdir, hget⟩ := Disk.makeDirectories_eq_ok hmake
    refine ⟨hgrows, ?_, ?_, ?_, fun m _ => ?_⟩
    · intro d hd _
      obtain rfl := List.mem_singleton.mp hd
      exact hdir (text_join_ne_empty (name_ne_empty_of_folder hfolder))
    · intro d hd hfile
      obtain rfl := List.mem_singleton.mp hd
      rw [hfolder] at hfile
      cases hfile
    · intro m d hd
      obtain ⟨hd, hfile, -⟩ := mem_of_lastFileAt_eq_some hd
      obtain rfl := List.mem_singleton.mp hd
      rw [hfolder] at hfile
      cases hfile
    · rw [hget]
      split
      · next hm => exact Or.inr ⟨rfl, e, List.mem_singleton_self e, hm⟩
      · exact Or.inl rfl
  · refine ⟨hplaces.grows, ?_, ?_, ?_, fun m hm => ?_⟩
    · intro d hd hfolder
      obtain rfl := List.mem_singleton.mp hd
      rw [hfile] at hfolder
      cases hfolder
    · intro d hd _
      obtain rfl := List.mem_singleton.mp hd
      exact hplaces.isFile
    · intro m d hd
      obtain ⟨hmem, -, hplace⟩ := mem_of_lastFileAt_eq_some hd
      obtain rfl := List.mem_singleton.mp hmem
      subst hplace
      exact ⟨bytes, _, hbytes, hplaces.self⟩
    · have hne : m ≠ t.place (destination.join e.name) := by
        intro heq
        subst heq
        exact lastFileAt_ne_none _ _ (List.mem_singleton_self e) hfile hm
      rw [hplaces.get?, if_neg hne]
      split
      · next hway =>
          exact Or.inr ⟨rfl, e, List.mem_singleton_self e, way_folderOf_subset _ _ hway⟩
      · exact Or.inl rfl

/-- Entries are unpacked one after the other, and the last one counts. -/
theorem unpackEntries_unpacks {es : List ArchiveEntry} {x : Unit}
    (h : (unpackEntries archive destination file es).outcome t = (.ok x, u)) :
    Unpacks file destination es t u := by
  induction es generalizing t with
  | nil =>
      obtain ⟨-, rfl⟩ := Prod.mk.inj h
      exact .nil t
  | cons e es ih =>
      obtain ⟨_, v, hfirst, hrest⟩ := Action.outcome_bind_eq_ok.mp h
      have hentry := unpackEntry_unpacks hfirst
      exact hentry.append (ih hrest)

/-! ## A whole archive -/

/-- Every entry of an archive has its folder or its file in a directory. -/
structure HasEntries (destination : Path) (es : List ArchiveEntry) (u : FileTree) : Prop where
  isDirectory : u.isDirectory destination
  folder : ∀ e ∈ es, isFolderName e.name → u.isDirectory (destination.join e.name)
  isFile : ∀ e ∈ es, isFolderName e.name = false → u.isFile (destination.join e.name)

/-- What has been unpacked stays. -/
theorem HasEntries.grows {es : List ArchiveEntry} (h : HasEntries destination es u)
    (hgrows : Grows u v) : HasEntries destination es v where
  isDirectory := hgrows.isDirectory h.isDirectory
  folder := fun e he hfolder => hgrows.isDirectory (h.folder e he hfolder)
  isFile := fun e he hfile => hgrows.isFile (h.isFile e he hfile)

/-- A directory holds an archive: every entry is there, and every file has the content of the last
entry that it belongs to. -/
structure Holds (file : ByteArray) (destination : Path) (es : List ArchiveEntry)
    (u : FileTree) : Prop extends HasEntries destination es u where
  content : ∀ e ∈ es, isFolderName e.name = false → ∃ last bytes executable,
    lastFileAt u.workingDirectory destination es (u.place (destination.join e.name)) = some last ∧
      contentOf file last = some bytes ∧
      u.get? (u.place (destination.join e.name)) = some (.file bytes executable)

/-- Where entries have been unpacked into a directory, it holds them. -/
theorem Unpacks.holds {es : List ArchiveEntry} (h : Unpacks file destination es t u)
    (hdirectory : t.isDirectory destination) : Holds file destination es u where
  isDirectory := h.grows.isDirectory hdirectory
  folder := fun e he hfolder => h.isDirectory e he (by simp [isFileEntry, hfolder])
  isFile := fun e he hfolder => h.isFile e he (by simp [isFileEntry, hfolder])
  content := by
    intro e he hfolder
    obtain ⟨last, hlast⟩ := Option.ne_none_iff_exists'.mp
      (lastFileAt_ne_none u.workingDirectory destination he (by simp [isFileEntry, hfolder]))
    have hcontent := h.last (u.place (destination.join e.name)) last
    rw [← h.grows.workingDirectory] at hcontent
    obtain ⟨bytes, x, hbytes, hx⟩ := hcontent hlast
    exact ⟨last, bytes, x, hlast, hbytes, hx⟩

/-- A folder holds what the entries of an archive say and nothing else: every file has the content
of the last entry that it belongs to, and whatever else there is are directories that lead to the
folder, or from there to an entry. -/
structure HoldsExactly (file : ByteArray) (destination : Path) (es : List ArchiveEntry)
    (u : FileTree) : Prop where
  isDirectory : u.isDirectory destination
  folder : ∀ e ∈ es, isFolderName e.name → u.isDirectory (destination.join e.name)
  file : ∀ e ∈ es, isFolderName e.name = false →
    u.isFile (destination.join e.name) ∧ ∃ last bytes executable,
      lastFileAt u.workingDirectory destination es (u.place (destination.join e.name)) = some last ∧
        contentOf file last = some bytes ∧
        u.get? (u.place (destination.join e.name)) = some (.file bytes executable)
  nothingElse : ∀ m entry, u.place destination <:+ m → u.get? m = some entry →
    (∃ e ∈ es, isFolderName e.name = false ∧ u.place (destination.join e.name) = m) ∨
      entry = .directory ∧
        (m ∈ u.way destination ∨ ∃ e ∈ es, m ∈ u.way (destination.join e.name))

/-- What is there and nothing else is there. -/
theorem HoldsExactly.holds {es : List ArchiveEntry} (h : HoldsExactly file destination es u) :
    Holds file destination es u where
  isDirectory := h.isDirectory
  folder := h.folder
  isFile := fun e he hfolder => (h.file e he hfolder).1
  content := fun e he hfolder => (h.file e he hfolder).2

/-- An archive is loaded, its directory is made, and its entries are unpacked. -/
theorem unpack_eq_ok {x : Unit} (h : (unpack archive destination).outcome t = (.ok x, u)) :
    ∃ file es v, load t archive = .ok (file, es) ∧
      (Disk.makeDirectories destination).outcome t = (.ok (), v) ∧
      Unpacks file destination es v u := by
  obtain ⟨⟨file, es⟩, s, hopen, h⟩ := Action.outcome_bind_eq_ok.mp h
  obtain ⟨hload, rfl⟩ := Prod.mk.inj hopen
  obtain ⟨_, v, hmake, h⟩ := Action.outcome_bind_eq_ok.mp h
  rw [Action.outcome_mapError_eq_ok] at hmake
  exact ⟨file, es, v, hload, hmake, unpackEntries_unpacks h⟩

/-- An archive has been unpacked where nothing was but directories on the way: the folder holds what
the archive lists and nothing else. -/
theorem holdsExactly_of_unpack (hne : destination.text ≠ "")
    (hunused : ∀ m entry, t.place destination <:+ m → t.get? m = some entry →
      entry = .directory ∧ m ∈ t.way destination) {x : Unit}
    (h : (unpack archive destination).outcome t = (.ok x, u)) :
    ∃ file es, load t archive = .ok (file, es) ∧ HoldsExactly file destination es u := by
  obtain ⟨file, es, v, hload, hmake, hunpacks⟩ := unpack_eq_ok h
  obtain ⟨hworking, hdirectory, hget⟩ := Disk.makeDirectories_eq_ok hmake
  have hgrows := hunpacks.grows
  have hholds := hunpacks.holds (hdirectory hne)
  refine ⟨file, es, hload, hholds.isDirectory, hholds.folder, ?_, ?_⟩
  · exact fun e he hfolder => ⟨hholds.isFile e he hfolder, hholds.content e he hfolder⟩
  · intro m entry hbelow hentry
    have hother := hunpacks.other m
    rw [← hgrows.workingDirectory] at hother
    cases hlast : lastFileAt u.workingDirectory destination es m with
    | some last =>
        obtain ⟨hmem, hfile, hplace⟩ := mem_of_lastFileAt_eq_some hlast
        exact Or.inl ⟨last, hmem, by simpa [isFileEntry] using hfile, hplace⟩
    | none =>
        right
        rcases hother hlast with hsame | ⟨hdir, e, he, hway⟩
        · -- what was there before the entries leads to the folder
          have hlead : entry = .directory ∧ m ∈ t.way destination := by
            rw [hsame, hget] at hentry
            split at hentry
            · next hway => exact ⟨(Option.some.inj hentry).symm, hway⟩
            · rw [hgrows.place, place_congr hworking] at hbelow
              exact hunused m entry hbelow hentry
          exact ⟨hlead.1, Or.inl (by rw [hgrows.way, way_congr hworking]; exact hlead.2)⟩
        · rw [hdir] at hentry
          obtain rfl := Option.some.inj hentry
          exact ⟨rfl, Or.inr ⟨e, he, by rwa [hgrows.way]⟩⟩

/-- When an archive has been unpacked where nothing was, the folder holds what the archive lists and
nothing else. -/
theorem unpack_holdsExactly (hne : destination.text ≠ "")
    (hnew : t.get? (t.place destination) = none) {x : Unit}
    (h : (unpack archive destination).outcome t = (.ok x, u)) :
    ∃ file es, load t archive = .ok (file, es) ∧ HoldsExactly file destination es u := by
  refine holdsExactly_of_unpack hne (fun m entry hbelow hentry => ?_) h
  rw [get?_eq_none_of_suffix hnew hbelow] at hentry
  cases hentry

/-- An archive of the entries `a/../b` and `b`, which lead to one file. -/
def aliases : ByteArray :=
  ⟨#[
    80, 75, 3, 4, 20, 0, 0, 0, 0, 0, 0, 0, 0, 0, 131, 22, 220, 140, 1, 0, 0, 0, 1, 0, 0, 0,
    6, 0, 0, 0, 97, 47, 46, 46, 47, 98, 120, 80, 75, 3, 4, 20, 0, 0, 0, 0, 0, 0, 0, 0, 0,
    21, 38, 219, 251, 1, 0, 0, 0, 1, 0, 0, 0, 1, 0, 0, 0, 98, 121, 80, 75, 1, 2, 20, 0, 20,
    0, 0, 0, 0, 0, 0, 0, 0, 0, 131, 22, 220, 140, 1, 0, 0, 0, 1, 0, 0, 0, 6, 0, 0, 0, 0, 0,
    0, 0, 0, 0, 0, 0, 0, 0, 0, 0, 0, 0, 97, 47, 46, 46, 47, 98, 80, 75, 1, 2, 20, 0, 20, 0,
    0, 0, 0, 0, 0, 0, 0, 0, 21, 38, 219, 251, 1, 0, 0, 0, 1, 0, 0, 0, 1, 0, 0, 0, 0, 0, 0,
    0, 0, 0, 0, 0, 0, 0, 37, 0, 0, 0, 98, 80, 75, 5, 6, 0, 0, 0, 0, 2, 0, 2, 0, 99, 0, 0, 0,
    69, 0, 0, 0, 0, 0]⟩

theorem lookup_nil_closed {name : String} {parent : Location} {e : Entry}
    (h : Entry.lookup [] (name :: parent) = some e) :
    Entry.lookup [] parent = some .directory := by
  simp [Entry.lookup] at h

def aliasesTree : FileTree :=
  ((Disk.write ⟨"in.zip"⟩ aliases).outcome ⟨[], [], @lookup_nil_closed⟩).2

/-- The file has the content of the second entry. The directory that the first one climbs out of is
there as well, and nothing else is. -/
theorem unpack_holdsExactly_of_aliases :
    ∃ u, (unpack ⟨"in.zip"⟩ ⟨"ws/abcdef"⟩).outcome aliasesTree = (.ok (), u) ∧
      u.below ["abcdef", "ws"] = [(["b"], .file "y".toUTF8 false), (["a"], .directory)] ∧
      ∃ file es, load aliasesTree ⟨"in.zip"⟩ = .ok (file, es) ∧
        es.map (·.name) = ["a/../b", "b"] ∧ HoldsExactly file ⟨"ws/abcdef"⟩ es u := by
  have hrun : ((unpack ⟨"in.zip"⟩ ⟨"ws/abcdef"⟩).outcome aliasesTree).1 = .ok () ∧
      ((unpack ⟨"in.zip"⟩ ⟨"ws/abcdef"⟩).outcome aliasesTree).2.below ["abcdef", "ws"] =
        [(["b"], .file "y".toUTF8 false), (["a"], .directory)] ∧
      (load aliasesTree ⟨"in.zip"⟩).map (·.2.map (·.name)) = .ok ["a/../b", "b"] := by
    decide +kernel
  have hnew : aliasesTree.get? (aliasesTree.place ⟨"ws/abcdef"⟩) = none := by decide +kernel
  generalize hunpack : (unpack ⟨"in.zip"⟩ ⟨"ws/abcdef"⟩).outcome aliasesTree = unpacked at hrun
  obtain ⟨report, u⟩ := unpacked
  obtain ⟨rfl, hbelow, hnames⟩ := hrun
  obtain ⟨file, es, hload, hholds⟩ := unpack_holdsExactly (by decide) hnew hunpack
  rw [hload] at hnames
  exact ⟨u, rfl, hbelow, file, es, hload, Except.ok.inj hnames, hholds⟩

end Archive

end GameExport
