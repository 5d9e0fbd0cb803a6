import GameExport.Proofs.Path.Extension
import GameExport.Proofs.Staging.Unpack

/-! # Inputs in order

Staging goes through its inputs one by one. An input that is no archive when it is reached stays the
path that it is. Every archive takes the next random name and is unpacked into the folder of that
name, which no other archive touches. The first archive that cannot be unpacked ends the run, and
nothing behind it matters.
-/

namespace GameExport

open GameExport.Path FileTree

/-! ## Archives among the inputs -/

structure IsArchive (t : FileTree) (input : Path) : Prop where
  isFile : t.isFile input
  extension : input.extension = some "zip" ∨ input.extension = some "apk"

/-- An input is unpacked exactly if it is an archive. -/
theorem Workspace.isUnpacked_iff {t : FileTree} {input : Path} :
    isUnpacked t input ↔ IsArchive t input := by
  have hkind (extension : String) :
      ((ArchiveKind.ofExtension extension).map (·.isUnpacked)).getD false ↔
        extension = "zip" ∨ extension = "apk" := by
    unfold ArchiveKind.ofExtension
    split
    · next h => simp [h, ArchiveKind.isUnpacked]
    · next hzip =>
        split
        · next h => simp [h, ArchiveKind.isUnpacked]
        · next hapk => split <;> simp [hzip, hapk, ArchiveKind.isUnpacked]
  unfold isUnpacked
  rw [Bool.and_eq_true]
  cases hextension : input.extension with
  | none => simpa using fun h : IsArchive t input => by simpa [hextension] using h.extension
  | some extension =>
      rw [Option.bind_some, hkind]
      constructor
      · rintro ⟨hfile, hname⟩
        exact ⟨hfile, by simpa [hextension] using hname⟩
      · intro h
        exact ⟨h.isFile, by simpa [hextension] using h.extension⟩

/-- The name of an archive ends in its extension and has something before that. -/
theorem IsArchive.exists_fileName {t : FileTree} {input : Path} (h : IsArchive t input) :
    ∃ stem, stem ≠ "" ∧
      (input.fileName = some (stem ++ ".zip") ∨ input.fileName = some (stem ++ ".apk")) := by
  rcases h.extension with hzip | hapk
  · obtain ⟨-, stem, hstem, hname⟩ := extension_eq_some_iff.mp hzip
    exact ⟨stem, hstem, Or.inl (by rw [hname, String.append_assoc]; rfl)⟩
  · obtain ⟨-, stem, hstem, hname⟩ := extension_eq_some_iff.mp hapk
    exact ⟨stem, hstem, Or.inr (by rw [hname, String.append_assoc]; rfl)⟩

/-! ## Archives that stay apart -/

namespace Archive

variable {archive destination : Path} {file : ByteArray} {es : List ArchiveEntry}
  {t u v : FileTree}

/-- Only entries with safe names are unpacked. -/
theorem isSafeName_of_unpackEntries {x : Unit}
    (h : (unpackEntries archive destination file es).outcome t = (.ok x, u)) :
    ∀ e ∈ es, isSafeName e.name := by
  induction es generalizing t with
  | nil => nofun
  | cons e es ih =>
      obtain ⟨_, s, hfirst, hrest⟩ := Action.outcome_bind_eq_ok.mp h
      have hsafe : isSafeName e.name := by
        unfold unpackEntry at hfirst
        split at hfirst
        · cases hfirst
        · split at hfirst
          · cases hfirst
          · next hsafe => simpa using hsafe
      exact List.forall_mem_cons.mpr ⟨hsafe, ih hrest⟩

/-- All names of an archive that was unpacked are safe. -/
theorem isSafeName_of_unpack {x : Unit} (hload : load t archive = .ok (file, es))
    (h : (unpack archive destination).outcome t = (.ok x, u)) : ∀ e ∈ es, isSafeName e.name := by
  obtain ⟨loaded, s, hopen, h⟩ := Action.outcome_bind_eq_ok.mp h
  obtain ⟨_, v, -, h⟩ := Action.outcome_bind_eq_ok.mp h
  have heq : loaded = (file, es) := Except.ok.inj ((Prod.mk.inj hopen).1.symm.trans hload)
  rw [heq] at h
  exact isSafeName_of_unpackEntries h

/-- A directory still holds an archive when the files have grown elsewhere. -/
theorem Holds.of_growsWithin {free made : Region} (h : Holds file destination es u)
    (hsafe : ∀ e ∈ es, isSafeName e.name) (hgrows : GrowsWithin free made u v)
    (hapart : ∀ m, u.place destination <:+ m → ¬ free u.workingDirectory m) :
    Holds file destination es v where
  toHasEntries := h.toHasEntries.grows hgrows.grows
  content := by
    intro e he hfolder
    obtain ⟨last, bytes, x, hlast, hbytes, hget⟩ := h.content e he hfolder
    have hbelow := suffix_place_join_of_isSafeName (hsafe e he) destination u.workingDirectory
    refine ⟨last, bytes, x, ?_, hbytes, ?_⟩
    · rwa [hgrows.grows.workingDirectory, hgrows.grows.place]
    · rw [hgrows.grows.place]
      rcases hgrows.changes.outside _ (hapart _ hbelow) with hsame | ⟨-, hnone, -⟩
      · exact hsame.trans hget
      · exact absurd (hget.symm.trans hnone) (by simp)

/-- The folder still holds what the archive lists when the files have grown elsewhere. -/
theorem HoldsExactly.of_growsWithin {free made : Region} (h : HoldsExactly file destination es u)
    (hsafe : ∀ e ∈ es, isSafeName e.name) (hgrows : GrowsWithin free made u v)
    (hapart : ∀ m, u.place destination <:+ m → ¬ free u.workingDirectory m)
    (hmade : ∀ l m, made l m → m ∈ destination.way l) : HoldsExactly file destination es v := by
  have hholds := h.holds.of_growsWithin hsafe hgrows hapart
  refine ⟨hholds.isDirectory, hholds.folder, ?_, ?_⟩
  · exact fun e he hfolder => ⟨hholds.isFile e he hfolder, hholds.content e he hfolder⟩
  · intro m entry hbelow hentry
    rw [hgrows.grows.place] at hbelow
    simp only [hgrows.grows.place, hgrows.grows.way]
    rcases hgrows.changes.outside m (hapart m hbelow) with hsame | ⟨hin, -, hdir⟩
    · exact h.nothingElse m entry hbelow (hsame ▸ hentry)
    · rw [hdir] at hentry
      exact Or.inr ⟨(Option.some.inj hentry).symm, Or.inl (hmade _ _ hin)⟩

end Archive

def StageError.archive : StageError → Path
  | .cannotOpen archive _ => archive
  | .corrupt archive _ => archive
  | .unsafeEntry archive _ => archive
  | .cannotWrite archive _ _ => archive

namespace Archive

variable {archive destination : Path} {file : ByteArray} {t u : FileTree} {e : StageError}

theorem archive_of_load (h : load t archive = .error e) : e.archive = archive := by
  unfold load at h
  split at h
  · rw [← Except.error.inj h]; rfl
  · rw [← Except.error.inj h]; rfl
  · split at h
    · rw [← Except.error.inj h]; rfl
    · cases h

theorem archive_of_unpackEntries {es : List ArchiveEntry}
    (h : (unpackEntries archive destination file es).outcome t = (.error e, u)) :
    e.archive = archive := by
  induction es generalizing t with
  | nil => cases h
  | cons entry es ih =>
      rcases Action.outcome_bind_eq_error.mp h with hfirst | ⟨_, s, -, hrest⟩
      · unfold unpackEntry at hfirst
        split at hfirst
        · rw [← Except.error.inj (Prod.mk.inj hfirst).1]; rfl
        · split at hfirst
          · rw [← Except.error.inj (Prod.mk.inj hfirst).1]; rfl
          · obtain ⟨d, -, rfl⟩ := Action.outcome_mapError_eq_error.mp hfirst
            rfl
      · exact ih hrest

/-- Whatever goes wrong with an archive, the error names that archive. -/
theorem archive_of_unpack
    (h : (unpack archive destination).outcome t = (.error e, u)) : e.archive = archive := by
  rcases Action.outcome_bind_eq_error.mp h with hload | ⟨⟨file, es⟩, s, -, h⟩
  · exact archive_of_load (Prod.mk.inj hload).1
  · rcases Action.outcome_bind_eq_error.mp h with hmake | ⟨_, v, -, hentries⟩
    · obtain ⟨d, -, rfl⟩ := Action.outcome_mapError_eq_error.mp hmake
      rfl
    · exact archive_of_unpackEntries hentries

end Archive

/-! ## Folders of random names -/

namespace Workspace

variable {w : Workspace} {names names' : Names} {j k : Nat}

theorem folderAt_congr (h : names'.letter = names.letter) (k : Nat) :
    w.folderAt names' k = w.folderAt names k := by
  simp only [folderAt, Names.name, h]

variable (hlength : 0 < w.nameLength)

include hlength

/-- The folder of a random name is one step from the root. -/
theorem place_folderAt (names : Names) (k : Nat) (l : Location) :
    (w.folderAt names k).place l = names.name w.nameLength k :: w.root.place l := by
  rw [folderAt, folder, place_join _ (names.not_isAbsolute_name _ _)]
  show Component.place (w.root.place l) (Path.mk _).steps = _
  rw [(names.isName_name hlength k).steps_eq]
  rfl

theorem way_folderAt_eq (names : Names) (k : Nat) (l : Location) :
    (w.folderAt names k).way l = w.root.way l ++ [(w.folderAt names k).place l] := by
  rw [place_folderAt hlength, folderAt, folder, way_join _ (names.not_isAbsolute_name _ _)]
  congr 1
  rw [Path.way, (names.isName_name hlength k).steps_eq]
  rfl

theorem text_folderAt_ne_empty (names : Names) (k : Nat) : (w.folderAt names k).text ≠ "" :=
  text_join_ne_empty (names.isName_name hlength k).ne_empty

/-- Different names mean folders with nothing in common. -/
theorem not_under_of_name_ne (hne : names.name w.nameLength j ≠ names.name w.nameLength k)
    {l m : Location} (hm : Region.under (w.folderAt names k) l m) :
    ¬ Region.under (w.folderAt names j) l m := by
  intro hj
  rw [Region.under, place_folderAt hlength] at hj hm
  have hcount : (names.name w.nameLength j :: w.root.place l).length =
      (names.name w.nameLength k :: w.root.place l).length := by simp
  have heq := (List.suffix_of_suffix_length_le hj hm (Nat.le_of_eq hcount)).eq_of_length hcount
  exact hne (List.cons.inj heq).1

/-- Different names have different folders. -/
theorem folderAt_ne (hne : names.name w.nameLength j ≠ names.name w.nameLength k) :
    w.folderAt names j ≠ w.folderAt names k := by
  intro heq
  refine not_under_of_name_ne hlength hne (l := []) List.suffix_rfl ?_
  rw [heq]
  exact List.suffix_rfl

end Workspace

/-! ## Staging fills folders -/

namespace Workspace

/-- The folders of the names from one number on and before another one. -/
def folders (w : Workspace) (names : Names) (first last : Nat) : Region :=
  fun l m => ∃ k, first ≤ k ∧ k < last ∧ Region.under (w.folderAt names k) l m

/-- The names that have been drawn are used up, and only in their folders there is anything new but
directories that lead to the workspace. -/
structure Fills (w : Workspace) (s u : Stage) : Prop where
  letter : u.names.letter = s.names.letter
  drawn : s.names.drawn ≤ u.names.drawn
  grows : GrowsWithin (w.folders s.names s.names.drawn u.names.drawn) (.along w.root) s.tree u.tree

variable {w : Workspace} {s u v : Stage}

namespace Fills

theorem refl (s : Stage) : w.Fills s s := ⟨rfl, Nat.le_refl _, .refl s.tree⟩

/-- Folders that were filled one after the other have been filled. -/
theorem trans (s v u : Stage) (h : w.Fills s v) (k : w.Fills v u) : w.Fills s u where
  letter := k.letter.trans h.letter
  drawn := Nat.le_trans h.drawn k.drawn
  grows := by
    apply GrowsWithin.trans s.tree v.tree u.tree
    · refine h.grows.mono ?_ fun _ _ hm => Or.inr hm
      rintro l m ⟨n, hfirst, hlast, hm⟩
      exact ⟨n, hfirst, Nat.lt_of_lt_of_le hlast k.drawn, hm⟩
    · refine k.grows.mono ?_ fun _ _ hm => Or.inr hm
      rintro l m ⟨n, hfirst, hlast, hm⟩
      exact ⟨n, Nat.le_trans h.drawn hfirst, hlast, by rwa [← folderAt_congr h.letter]⟩

end Fills

abbrev nextFolder (w : Workspace) (s : Stage) : Path := w.folderAt s.names s.names.drawn

/-- Unpacking uses the next name up, however it ends. -/
theorem outcome_extract (w : Workspace) (archive : Path) (s : Stage) :
    (w.extract archive).outcome s =
      let unpacked := (Archive.unpack archive (w.nextFolder s)).outcome s.tree
      (unpacked.1.map fun _ => w.nextFolder s,
        ⟨unpacked.2, { s.names with drawn := s.names.drawn + 1 }⟩) := by
  unfold extract
  simp only [Action.outcome_bind, Action.outcome_zoom, allocate, Action.outcome_of]
  rcases (Archive.unpack archive (w.nextFolder s)).outcome s.tree with ⟨r, t⟩
  cases r <;> rfl

/-- An archive is unpacked to the next folder, and one name is used up. -/
theorem extract_eq_ok {archive path : Path} (h : (w.extract archive).outcome s = (.ok path, u)) :
    path = w.nextFolder s ∧ u.names = { s.names with drawn := s.names.drawn + 1 } ∧
      (Archive.unpack archive (w.nextFolder s)).outcome s.tree = (.ok (), u.tree) := by
  rw [outcome_extract] at h
  rcases hunpack : (Archive.unpack archive (w.nextFolder s)).outcome s.tree with ⟨_ | _, t⟩
  · simp only [hunpack] at h
    cases h
  · simp only [hunpack] at h
    obtain ⟨hpath, rfl⟩ := Prod.mk.inj h
    exact ⟨(Except.ok.inj hpath).symm, rfl, rfl⟩

theorem extract_eq_error {archive : Path} {e : StageError}
    (h : (w.extract archive).outcome s = (.error e, u)) : e.archive = archive := by
  rw [outcome_extract] at h
  rcases hunpack : (Archive.unpack archive (w.nextFolder s)).outcome s.tree with ⟨e' | _, t⟩
  · simp only [hunpack] at h
    rw [← Except.error.inj (Prod.mk.inj h).1]
    exact Archive.archive_of_unpack hunpack
  · simp only [hunpack] at h
    cases h

theorem extract_fills (w : Workspace) (archive : Path) : (w.extract archive).Moves w.Fills := by
  intro s
  rw [outcome_extract]
  refine ⟨rfl, Nat.le_succ _, ?_⟩
  have hunpack := w.unpack_folderAt_growsWithin s.names s.names.drawn archive s.tree
  refine hunpack.mono (fun l m hm => ?_) fun _ _ hm => Or.inr hm
  exact ⟨s.names.drawn, Nat.le_refl _, Nat.lt_succ_self _, hm⟩

theorem outcome_stageOne (w : Workspace) (input : Path) (s : Stage) :
    (w.stageOne input).outcome s =
      if isUnpacked s.tree input then (w.extract input).outcome s else (.ok input, s) := by
  unfold stageOne
  rw [Action.outcome_ask_bind]
  split <;> rfl

theorem stageOne_of_isArchive {input : Path} (h : IsArchive s.tree input) :
    (w.stageOne input).outcome s = (w.extract input).outcome s := by
  rw [outcome_stageOne, if_pos (isUnpacked_iff.mpr h)]

theorem stageOne_of_not_isArchive {input : Path} (h : ¬ IsArchive s.tree input) :
    (w.stageOne input).outcome s = (.ok input, s) := by
  rw [outcome_stageOne, if_neg (mt isUnpacked_iff.mp h)]

theorem stageOne_fills (w : Workspace) (input : Path) : (w.stageOne input).Moves w.Fills := by
  intro s
  rw [outcome_stageOne]
  split
  · exact w.extract_fills input s
  · exact .refl s

theorem stage_fills (w : Workspace) (inputs : List Path) : (w.stage inputs).Moves w.Fills := by
  induction inputs with
  | nil => exact .pure Fills.refl []
  | cons input inputs ih =>
      exact .bind Fills.trans (w.stageOne_fills input) fun path =>
        .bind Fills.trans ih fun paths => .pure Fills.refl (path :: paths)

/-! ## Staging one input after the other -/

theorem outcome_stage_nil (w : Workspace) (s : Stage) : (w.stage []).outcome s = (.ok [], s) := rfl

theorem stage_cons_eq_ok {input : Path} {inputs paths : List Path} :
    (w.stage (input :: inputs)).outcome s = (.ok paths, u) ↔
      ∃ path v rest, (w.stageOne input).outcome s = (.ok path, v) ∧
        (w.stage inputs).outcome v = (.ok rest, u) ∧ paths = path :: rest := by
  rw [stage, Action.outcome_bind_eq_ok]
  constructor
  · rintro ⟨path, v, hpath, h⟩
    obtain ⟨rest, u', hrest, h⟩ := Action.outcome_bind_eq_ok.mp h
    obtain ⟨hpaths, rfl⟩ := Prod.mk.inj h
    exact ⟨path, v, rest, hpath, hrest, (Except.ok.inj hpaths).symm⟩
  · rintro ⟨path, v, rest, hpath, hrest, rfl⟩
    exact ⟨path, v, hpath, Action.outcome_bind_eq_ok.mpr ⟨rest, u, hrest, rfl⟩⟩

/-- Staging fails at the first input, or behind it. -/
theorem stage_cons_eq_error {input : Path} {inputs : List Path} {e : StageError} :
    (w.stage (input :: inputs)).outcome s = (.error e, u) ↔
      (w.stageOne input).outcome s = (.error e, u) ∨
        ∃ path v, (w.stageOne input).outcome s = (.ok path, v) ∧
          (w.stage inputs).outcome v = (.error e, u) := by
  have hrest (path : Path) (v : Stage) :
      (w.stage inputs >>= fun paths => pure (path :: paths)).outcome v = (.error e, u) ↔
        (w.stage inputs).outcome v = (.error e, u) := by
    rw [Action.outcome_bind_eq_error, or_iff_left]
    rintro ⟨paths, t, -, h⟩
    cases h
  simp only [stage, Action.outcome_bind_eq_error, hrest]

/-- Inputs behind others are staged where those before them have been staged. -/
theorem stage_append_eq_ok {before after paths : List Path} :
    (w.stage (before ++ after)).outcome s = (.ok paths, u) ↔
      ∃ firsts v rest, (w.stage before).outcome s = (.ok firsts, v) ∧
        (w.stage after).outcome v = (.ok rest, u) ∧ paths = firsts ++ rest := by
  induction before generalizing s paths with
  | nil => simp [outcome_stage_nil, eq_comm]
  | cons input before ih =>
      rw [List.cons_append, stage_cons_eq_ok]
      constructor
      · rintro ⟨path, v, rest, hpath, hrest, rfl⟩
        obtain ⟨firsts, v', rest', hfirsts, hrest', rfl⟩ := ih.mp hrest
        exact ⟨path :: firsts, v', rest',
          stage_cons_eq_ok.mpr ⟨path, v, firsts, hpath, hfirsts, rfl⟩, hrest', rfl⟩
      · rintro ⟨firsts, v, rest, hfirsts, hrest, rfl⟩
        obtain ⟨path, v', firsts', hpath, hfirsts', rfl⟩ := stage_cons_eq_ok.mp hfirsts
        exact ⟨path, v', firsts' ++ rest, hpath, ih.mpr ⟨firsts', v, rest, hfirsts', hrest, rfl⟩,
          rfl⟩

/-- Staging fails at the first input that cannot be staged. What is behind it does not matter. -/
theorem stage_eq_error_iff {inputs : List Path} {e : StageError} :
    (w.stage inputs).outcome s = (.error e, u) ↔
      ∃ before input after paths v, inputs = before ++ input :: after ∧
        (w.stage before).outcome s = (.ok paths, v) ∧
        (w.stageOne input).outcome v = (.error e, u) := by
  induction inputs generalizing s with
  | nil => simp [outcome_stage_nil]
  | cons input inputs ih =>
      rw [stage_cons_eq_error]
      constructor
      · rintro (hfails | ⟨path, v, hpath, hrest⟩)
        · exact ⟨[], input, inputs, [], s, rfl, outcome_stage_nil w s, hfails⟩
        · obtain ⟨before, failing, after, paths, v', rfl, hbefore, hfails⟩ := ih.mp hrest
          exact ⟨input :: before, failing, after, path :: paths, v', rfl,
            stage_cons_eq_ok.mpr ⟨path, v, paths, hpath, hbefore, rfl⟩, hfails⟩
      · rintro ⟨before, failing, after, paths, v, hinputs, hbefore, hfails⟩
        cases before with
        | nil =>
            obtain ⟨rfl, rfl⟩ := List.cons.inj hinputs
            obtain ⟨-, rfl⟩ := Prod.mk.inj hbefore
            exact Or.inl hfails
        | cons first before =>
            obtain ⟨rfl, rfl⟩ := List.cons.inj hinputs
            obtain ⟨path, v', rest, hpath, hrest, -⟩ := stage_cons_eq_ok.mp hbefore
            exact Or.inr ⟨path, v', hpath, ih.mpr
              ⟨before, failing, after, rest, v, rfl, hrest, hfails⟩⟩

/-- There is one path for each input. -/
theorem length_of_stage {inputs paths : List Path}
    (h : (w.stage inputs).outcome s = (.ok paths, u)) : paths.length = inputs.length := by
  induction inputs generalizing s paths with
  | nil =>
      obtain ⟨hpaths, -⟩ := Prod.mk.inj h
      rw [← Except.ok.inj hpaths]
  | cons input inputs ih =>
      obtain ⟨path, v, rest, -, hrest, rfl⟩ := stage_cons_eq_ok.mp h
      rw [List.length_cons, List.length_cons, ih hrest]

/-! ## The states in which inputs are reached -/

/-- The state in which the input at a position is reached. -/
def reached (w : Workspace) (s : Stage) (inputs : List Path) (i : Nat) : Stage :=
  ((w.stage (inputs.take i)).outcome s).2

section Reached

variable {inputs paths : List Path} (h : (w.stage inputs).outcome s = (.ok paths, u))

include h

/-- The run is cut where an input is reached. -/
theorem stage_take (i : Nat) :
    ∃ firsts rest, (w.stage (inputs.take i)).outcome s = (.ok firsts, w.reached s inputs i) ∧
      (w.stage (inputs.drop i)).outcome (w.reached s inputs i) = (.ok rest, u) ∧
      paths = firsts ++ rest := by
  rw [← List.take_append_drop i inputs] at h
  obtain ⟨firsts, v, rest, hfirsts, hrest, rfl⟩ := stage_append_eq_ok.mp h
  have hreached : w.reached s inputs i = v := by rw [reached, hfirsts]
  rw [hreached]
  exact ⟨firsts, rest, hfirsts, hrest, rfl⟩

theorem reached_fills (i : Nat) : w.Fills (w.reached s inputs i) u := by
  obtain ⟨-, rest, -, hrest, -⟩ := stage_take h i
  have hfills := w.stage_fills (inputs.drop i) (w.reached s inputs i)
  rwa [hrest] at hfills

/-- From one input to a later one only folders have been filled. -/
theorem reached_fills_reached {i j : Nat} (hle : i ≤ j) :
    w.Fills (w.reached s inputs i) (w.reached s inputs j) := by
  obtain ⟨firsts, -, hfirsts, -⟩ := stage_take h j
  have hfills := reached_fills hfirsts i
  rwa [reached, List.take_take, Nat.min_eq_left hle] at hfills

/-- Each input of a row that was staged was staged where it was reached. -/
theorem stageOne_of_stage {i : Nat} {input : Path} (hi : inputs[i]? = some input) :
    ∃ path, paths[i]? = some path ∧
      (w.stageOne input).outcome (w.reached s inputs i) =
        (.ok path, w.reached s inputs (i + 1)) := by
  obtain ⟨hlt, hinput⟩ := List.getElem?_eq_some_iff.mp hi
  obtain ⟨firsts, rest, hfirsts, hrest, rfl⟩ := stage_take h i
  obtain ⟨firsts', -, hfirsts', -⟩ := stage_take h (i + 1)
  rw [List.drop_eq_getElem_cons hlt, hinput] at hrest
  obtain ⟨path, v, rest', hpath, -, rfl⟩ := stage_cons_eq_ok.mp hrest
  refine ⟨path, ?_, ?_⟩
  · have hcount := length_of_stage hfirsts
    rw [List.length_take, Nat.min_eq_left (Nat.le_of_lt hlt)] at hcount
    rw [← hcount, List.getElem?_append_right (Nat.le_refl _), Nat.sub_self]
    rfl
  · have htake : inputs.take (i + 1) = inputs.take i ++ [input] := by
      rw [List.take_add_one, hi, Option.toList_some]
    have hnext : (w.stage (inputs.take (i + 1))).outcome s = (.ok (firsts ++ [path]), v) := by
      rw [htake]
      exact stage_append_eq_ok.mpr ⟨firsts, _, [path], hfirsts,
        stage_cons_eq_ok.mpr ⟨path, v, [], hpath, rfl, rfl⟩, rfl⟩
    rw [hpath, reached, hnext]

end Reached

/-! ## Inputs staged in order -/

/-- The names that are drawn before a number are distinct, and nothing stands where their folders
would be. -/
structure DrawsFresh (w : Workspace) (s : Stage) (last : Nat) : Prop where
  distinct : ∀ j k, s.names.drawn ≤ j → j < k → k < last →
    s.names.name w.nameLength j ≠ s.names.name w.nameLength k
  unused : ∀ k, s.names.drawn ≤ k → k < last →
    s.tree.get? (s.tree.place (w.folderAt s.names k)) = none

/-- The name that is drawn next in a state is not drawn once more before another state. -/
def NamedOnce (w : Workspace) (v u : Stage) : Prop :=
  ∀ k, v.names.drawn < k → k < u.names.drawn →
    v.names.name w.nameLength v.names.drawn ≠ v.names.name w.nameLength k

/-- In a tree a folder holds what an archive of another tree lists, and nothing else. -/
def HoldsArchive (t : FileTree) (archive folder : Path) (u : FileTree) : Prop :=
  ∃ file es, Archive.load t archive = .ok (file, es) ∧
    (∀ e ∈ es, Archive.isSafeName e.name) ∧ Archive.HoldsExactly file folder es u

/-- Every input has its path, in order: an archive the folder of the next name, which holds the
archive, and any other input itself. -/
structure StagedInOrder (w : Workspace) (s : Stage) (inputs paths : List Path) (u : FileTree) :
    Prop where
  length_eq : paths.length = inputs.length
  kept : ∀ i input, inputs[i]? = some input → ¬ IsArchive (w.reached s inputs i).tree input →
    paths[i]? = some input ∧ w.reached s inputs (i + 1) = w.reached s inputs i
  keptByName : ∀ (i : Nat) (input : Path), inputs[i]? = some input →
    (∀ stem, stem ≠ "" →
      input.fileName ≠ some (stem ++ ".zip") ∧ input.fileName ≠ some (stem ++ ".apk")) →
    paths[i]? = some input
  unpacked : ∀ i input, inputs[i]? = some input → IsArchive (w.reached s inputs i).tree input →
    let v := w.reached s inputs i
    paths[i]? = some (w.nextFolder v) ∧
      (w.reached s inputs (i + 1)).names = { v.names with drawn := v.names.drawn + 1 } ∧
      HoldsArchive v.tree input (w.nextFolder v) u
  distinct : ∀ i j input input', i < j → inputs[i]? = some input → inputs[j]? = some input' →
    IsArchive (w.reached s inputs i).tree input → IsArchive (w.reached s inputs j).tree input' →
    paths[i]? ≠ paths[j]?
  /-- In a workspace that was there before, the way to a folder does not lead through it. -/
  apart : s.tree.isDirectory w.root → ∀ i input, inputs[i]? = some input →
    IsArchive (w.reached s inputs i).tree input →
    ∀ m ∈ u.way (w.nextFolder (w.reached s inputs i)),
      u.place (w.nextFolder (w.reached s inputs i)) <:+ m →
      m = u.place (w.nextFolder (w.reached s inputs i))

/-- Staging ends at an input: those before it are staged, it is an archive that cannot be unpacked,
and whatever stands behind it makes no difference. -/
structure StopsAt (w : Workspace) (s : Stage) (before : List Path) (input : Path) (e : StageError)
    (u : Stage) : Prop where
  staged : ∃ paths, ((w.stage before).outcome s).1 = .ok paths ∧
    w.StagedInOrder s before paths u.tree
  isArchive : IsArchive ((w.stage before).outcome s).2.tree input
  fails : (w.extract input).outcome ((w.stage before).outcome s).2 = (.error e, u)
  named : e.archive = input
  behind : ∀ after, (w.stage (before ++ input :: after)).outcome s = (.error e, u)

section InOrder

variable (hlength : 0 < w.nameLength) {inputs paths : List Path}

include hlength

/-- Only the folders of later names are filled after an archive, and its own folder is none of them
if its name is not drawn again. -/
theorem not_folders_of_namedOnce {v' : Stage}
    (hnames : v'.names = { v.names with drawn := v.names.drawn + 1 }) (honce : w.NamedOnce v u)
    {l m : Location} (hm : Region.under (w.nextFolder v) l m) :
    ¬ w.folders v'.names v'.names.drawn u.names.drawn l m := by
  rintro ⟨k, hk, hku, hunder⟩
  rw [hnames] at hk hunder
  exact not_under_of_name_ne hlength (honce k hk hku) hunder hm

/-- The entries of an archive that was unpacked are still there when more folders have been filled,
and so are their contents if the name of the folder is not drawn again. -/
theorem holds_of_extract {v' : Stage} {input path : Path}
    (h : (w.extract input).outcome v = (.ok path, v')) (hafter : w.Fills v' u) :
    ∃ file es, Archive.load v.tree input = .ok (file, es) ∧
      Archive.HasEntries (w.nextFolder v) es u.tree ∧
      (w.NamedOnce v u → Archive.Holds file (w.nextFolder v) es u.tree) := by
  obtain ⟨-, hnames, hunpack⟩ := extract_eq_ok h
  obtain ⟨file, es, t, hload, hmake, hunpacks⟩ := Archive.unpack_eq_ok hunpack
  obtain ⟨-, hdirectory, -⟩ := Disk.makeDirectories_eq_ok hmake
  have hholds := hunpacks.holds (hdirectory (text_folderAt_ne_empty hlength _ _))
  have hsafe := Archive.isSafeName_of_unpack hload hunpack
  refine ⟨file, es, hload, hholds.toHasEntries.grows hafter.grows.grows, fun honce => ?_⟩
  exact hholds.of_growsWithin hsafe hafter.grows fun m hm =>
    not_folders_of_namedOnce hlength hnames honce hm

/-- An archive that was unpacked in a new folder is still there when more folders have been
filled. -/
theorem holdsArchive_of_extract {v' : Stage} {input path : Path} (hbefore : w.Fills s v)
    (h : (w.extract input).outcome v = (.ok path, v')) (hafter : w.Fills v' u)
    (hfresh : w.DrawsFresh s u.names.drawn) :
    HoldsArchive v.tree input (w.nextFolder v) u.tree := by
  obtain ⟨-, hnames, hunpack⟩ := extract_eq_ok h
  have hfirst := hbefore.drawn
  have hlast : v.names.drawn < u.names.drawn := by
    have hdrawn := hafter.drawn
    rw [hnames] at hdrawn
    exact hdrawn
  have hfolder : w.nextFolder v = w.folderAt s.names v.names.drawn :=
    folderAt_congr hbefore.letter _
  have hroot (l : Location) : w.root.way l ⊆ (w.nextFolder v).way l := by
    rw [way_folderAt_eq hlength]
    exact List.subset_append_left _ _
  -- before it was unpacked, there was nothing in its folder but what leads to the workspace
  have hunused : ∀ m entry, v.tree.place (w.nextFolder v) <:+ m → v.tree.get? m = some entry →
      entry = .directory ∧ m ∈ v.tree.way (w.nextFolder v) := by
    intro m entry hm hentry
    rw [hbefore.grows.grows.place] at hm
    have hapart : ¬ w.folders s.names s.names.drawn v.names.drawn s.tree.workingDirectory m := by
      rintro ⟨j, hj, hjv, hunder⟩
      rw [hfolder] at hm
      exact not_under_of_name_ne hlength (hfresh.distinct j _ hj hjv hlast) hm hunder
    rcases hbefore.grows.changes.outside m hapart with hsame | ⟨hway, -, hdir⟩
    · rw [hfolder] at hm
      rw [hsame, get?_eq_none_of_suffix (hfresh.unused _ hfirst hlast) hm] at hentry
      cases hentry
    · rw [hdir] at hentry
      rw [hbefore.grows.grows.way]
      exact ⟨(Option.some.inj hentry).symm, hroot _ hway⟩
  have hne : (w.nextFolder v).text ≠ "" := text_folderAt_ne_empty hlength _ _
  obtain ⟨file, es, hload, hholds⟩ := Archive.holdsExactly_of_unpack hne hunused hunpack
  have hsafe := Archive.isSafeName_of_unpack hload hunpack
  have honce : w.NamedOnce v u := fun k hk hku => by
    simpa only [Names.name, hbefore.letter] using hfresh.distinct _ k hfirst hk hku
  refine ⟨file, es, hload, hsafe, hholds.of_growsWithin hsafe hafter.grows (fun m hm => ?_) ?_⟩
  · exact not_folders_of_namedOnce hlength hnames honce hm
  · exact fun l m hm => hroot l hm

/-- Staged inputs stay in order as long as only new folders are filled. -/
theorem stagedInOrder_of_stage (h : (w.stage inputs).outcome s = (.ok paths, v))
    (hfills : w.Fills v u) (hfresh : w.DrawsFresh s u.names.drawn) :
    w.StagedInOrder s inputs paths u.tree := by
  have hextract {i : Nat} {input : Path} (hi : inputs[i]? = some input)
      (harchive : IsArchive (w.reached s inputs i).tree input) :
      paths[i]? = some (w.nextFolder (w.reached s inputs i)) ∧
        (w.extract input).outcome (w.reached s inputs i) =
          (.ok (w.nextFolder (w.reached s inputs i)), w.reached s inputs (i + 1)) := by
    obtain ⟨path, hpath, hone⟩ := stageOne_of_stage h hi
    rw [stageOne_of_isArchive harchive] at hone
    obtain ⟨rfl, -⟩ := extract_eq_ok hone
    exact ⟨hpath, hone⟩
  have hreached (i : Nat) : w.Fills s (w.reached s inputs i) := w.stage_fills (inputs.take i) s
  have hrest (i : Nat) : w.Fills (w.reached s inputs i) u := .trans _ _ _ (reached_fills h i) hfills
  have hkept : ∀ i input, inputs[i]? = some input → ¬ IsArchive (w.reached s inputs i).tree input →
      paths[i]? = some input ∧ w.reached s inputs (i + 1) = w.reached s inputs i := by
    intro i input hi harchive
    obtain ⟨path, hpath, hone⟩ := stageOne_of_stage h hi
    rw [stageOne_of_not_isArchive harchive] at hone
    obtain ⟨hinput, hsame⟩ := Prod.mk.inj hone
    exact ⟨hpath.trans (congrArg some (Except.ok.inj hinput).symm), hsame.symm⟩
  refine ⟨length_of_stage h, hkept, ?_, ?_, ?_, ?_⟩
  · intro i input hi hname
    refine (hkept i input hi fun harchive => ?_).1
    obtain ⟨stem, hstem, hzip | hapk⟩ := harchive.exists_fileName
    · exact (hname stem hstem).1 hzip
    · exact (hname stem hstem).2 hapk
  · intro i input hi harchive
    obtain ⟨hpath, hone⟩ := hextract hi harchive
    obtain ⟨-, hnames, -⟩ := extract_eq_ok hone
    exact ⟨hpath, hnames,
      holdsArchive_of_extract hlength (hreached i) hone (hrest (i + 1)) hfresh⟩
  · intro i j input input' hij hi hj harchive harchive'
    obtain ⟨hpath, hone⟩ := hextract hi harchive
    obtain ⟨hpath', hone'⟩ := hextract hj harchive'
    obtain ⟨-, hnames, -⟩ := extract_eq_ok hone
    obtain ⟨-, hnames', -⟩ := extract_eq_ok hone'
    have hdrawn := (reached_fills_reached h (Nat.succ_le_of_lt hij)).drawn
    have hlast := (hrest (j + 1)).drawn
    rw [hnames] at hdrawn
    rw [hnames'] at hlast
    rw [hpath, hpath', ne_eq, Option.some.injEq, nextFolder, nextFolder,
      folderAt_congr (hreached i).letter, folderAt_congr (hreached j).letter]
    exact folderAt_ne hlength (hfresh.distinct _ _ (hreached i).drawn hdrawn hlast)
  · intro hroot i input hi harchive m hm hunder
    obtain ⟨-, hone⟩ := hextract hi harchive
    obtain ⟨-, hnames, -⟩ := extract_eq_ok hone
    have hlast := (hrest (i + 1)).drawn
    rw [hnames] at hlast
    have hgrows := (Fills.trans _ _ _ (hreached i) (hrest i)).grows.grows
    rw [hgrows.way, FileTree.way, way_folderAt_eq hlength, List.mem_append,
      List.mem_singleton] at hm
    rw [hgrows.place] at hunder ⊢
    refine hm.resolve_left fun hway => ?_
    -- the way to the workspace was there, but nothing in the folder
    have hthere := directory_of_mem_way hroot hway
    rw [nextFolder, folderAt_congr (hreached i).letter] at hunder
    rw [get?_eq_none_of_suffix (hfresh.unused _ (hreached i).drawn hlast) hunder] at hthere
    cases hthere

/-- Staging gives a path for every input, in order, or it ends at the first archive that cannot be
unpacked, provided that the random names it draws are distinct and not in use. In a workspace that
was prepared names have six characters or more. -/
theorem stage_inOrder {result : Except StageError (List Path)}
    (hrun : (w.stage inputs).outcome s = (result, u)) (hfresh : w.DrawsFresh s u.names.drawn) :
    (∀ paths, result = .ok paths → w.StagedInOrder s inputs paths u.tree) ∧
      ∀ e, result = .error e →
        ∃ before input after, inputs = before ++ input :: after ∧ w.StopsAt s before input e u := by
  constructor
  · rintro paths rfl
    exact stagedInOrder_of_stage hlength hrun (.refl u) hfresh
  · rintro e rfl
    obtain ⟨before, input, after, paths, v, rfl, hbefore, hfails⟩ := stage_eq_error_iff.mp hrun
    have harchive : IsArchive v.tree input := by
      by_contra hnot
      rw [stageOne_of_not_isArchive hnot] at hfails
      cases hfails
    have hextract := (stageOne_of_isArchive harchive).symm.trans hfails
    have hfills := w.extract_fills input v
    rw [hextract] at hfills
    refine ⟨before, input, after, rfl, ⟨paths, ?_, ?_⟩, ?_, ?_, ?_, fun more => ?_⟩
    · rw [hbefore]
    · exact stagedInOrder_of_stage hlength hbefore hfills hfresh
    · rw [hbefore]
      exact harchive
    · rw [hbefore]
      exact hextract
    · exact extract_eq_error hextract
    · exact stage_eq_error_iff.mpr ⟨before, input, more, paths, v, rfl, hbefore, hfails⟩

end InOrder

/-- A tree with the archive `in.zip` and the file `bad.apk`, which is none, and names of which the
first ones are `aaaaaa`, `bbbbbb` and `cccccc`. -/
def mixedStage : Stage where
  tree := ((Disk.write ⟨"bad.apk"⟩ "text".toUTF8).outcome Archive.aliasesTree).2
  names := { letter := fun k _ => ⟨k % 57, Nat.mod_lt k (by decide)⟩ }

def mixedInputs : List Path := ["level0", "in.zip", "no.zip", "in.zip", "bad.apk", "in.zip"]

/-- Up to the file that is no archive the two archives get the first two names and nothing else gets
one, and at that file the run ends. -/
theorem stage_inOrder_of_mixedInputs :
    (∃ u, ((⟨"ws", 6⟩ : Workspace).stage (mixedInputs.take 4)).outcome mixedStage =
        (.ok ["level0", "ws/aaaaaa", "no.zip", "ws/bbbbbb"], u) ∧
      (⟨"ws", 6⟩ : Workspace).StagedInOrder mixedStage (mixedInputs.take 4)
        ["level0", "ws/aaaaaa", "no.zip", "ws/bbbbbb"] u.tree) ∧
    ∃ u, ((⟨"ws", 6⟩ : Workspace).stage mixedInputs).outcome mixedStage =
        (.error (.corrupt "bad.apk" .noEnd), u) ∧
      ∃ before input after, mixedInputs = before ++ input :: after ∧
        (⟨"ws", 6⟩ : Workspace).StopsAt mixedStage before input (.corrupt "bad.apk" .noEnd) u := by
  have hfresh (last : Nat) (hlast : last ≤ 3) :
      (⟨"ws", 6⟩ : Workspace).DrawsFresh mixedStage last := by
    refine ⟨fun j k _ hjk hk => ?_, fun k _ hk => ?_⟩
    · have hcases : (j = 0 ∧ k = 1) ∨ (j = 0 ∧ k = 2) ∨ (j = 1 ∧ k = 2) := by omega
      rcases hcases with ⟨rfl, rfl⟩ | ⟨rfl, rfl⟩ | ⟨rfl, rfl⟩ <;> decide +kernel
    · have hcases : k = 0 ∨ k = 1 ∨ k = 2 := by omega
      rcases hcases with rfl | rfl | rfl <;> decide +kernel
  constructor
  · generalize hrun :
      ((⟨"ws", 6⟩ : Workspace).stage (mixedInputs.take 4)).outcome mixedStage = run
    have hends : run.1 = .ok ["level0", "ws/aaaaaa", "no.zip", "ws/bbbbbb"] ∧
        run.2.names.drawn ≤ 3 := by
      rw [← hrun]
      decide +kernel
    obtain ⟨result, u⟩ := run
    obtain ⟨rfl, hdrawn⟩ := hends
    exact ⟨u, rfl, (stage_inOrder (by decide) hrun (hfresh _ hdrawn)).1 _ rfl⟩
  · generalize hrun : ((⟨"ws", 6⟩ : Workspace).stage mixedInputs).outcome mixedStage = run
    have hends : run.1 = .error (.corrupt "bad.apk" .noEnd) ∧ run.2.names.drawn ≤ 3 := by
      rw [← hrun]
      decide +kernel
    obtain ⟨result, u⟩ := run
    obtain ⟨rfl, hdrawn⟩ := hends
    exact ⟨u, rfl, (stage_inOrder (by decide) hrun (hfresh _ hdrawn)).2 _ rfl⟩

end Workspace

end GameExport
