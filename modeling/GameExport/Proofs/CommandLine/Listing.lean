import GameExport.Proofs.CommandLine.Export
import GameExport.Proofs.Path.Slashes
import GameExport.Proofs.Staging.Inputs

/-! # The lines that staging prints

Staging prints one line for each of its inputs, in order. A line is the path that the input is
staged as, with slashes for its backslashes. Without a backslash it is that path itself, so it leads
to what the path leads to, and the line of an archive to the directory that holds the archive. With
one it is the text of another path.
-/

namespace GameExport

open GameExport.Path FileTree

namespace Workspace

variable {w : Workspace} {s u v : Stage} {inputs paths : List Path} {input : Path}

/-! ## The path that an input is staged as -/

/-- An archive is staged as the folder of the next name, anything else as it is. -/
def stagedPath (w : Workspace) (v : Stage) (input : Path) : Path :=
  if isUnpacked v.tree input then w.nextFolder v else input

/-- An archive is staged as the next folder. -/
theorem stagedPath_of_isArchive (h : IsArchive v.tree input) :
    w.stagedPath v input = w.nextFolder v := if_pos (isUnpacked_iff.mpr h)

/-- Anything else is staged as itself. -/
theorem stagedPath_of_not_isArchive (h : ¬ IsArchive v.tree input) :
    w.stagedPath v input = input := if_neg (mt isUnpacked_iff.mp h)

/-- The folder of a random name has no other special characters than the root. -/
theorem mem_text_folderAt_iff {c : Char} (hslash : c ≠ '/') (hc : c ∉ nameAlphabet.toList)
    (names : Names) (k : Nat) :
    c ∈ (w.folderAt names k).text.toList ↔ c ∈ w.root.text.toList := by
  have hgap : c ∉ w.root.gap.toList := by
    unfold gap
    split <;> simp [hslash]
  have hname : c ∉ (names.name w.nameLength k).toList := mt Names.mem_nameAlphabet hc
  rw [folderAt, folder, join_eq _ (names.not_isAbsolute_name _ _)]
  simp only [String.toList_append, List.mem_append, hgap, hname, or_false]

/-- A character that no random name has is in a staged path exactly if it is in the path of the
workspace or in that of the input. -/
theorem not_mem_text_stagedPath_iff {c : Char} (hslash : c ≠ '/') (hc : c ∉ nameAlphabet.toList) :
    c ∉ (w.stagedPath v input).text.toList ↔
      (IsArchive v.tree input → c ∉ w.root.text.toList) ∧
        (¬ IsArchive v.tree input → c ∉ input.text.toList) := by
  by_cases harchive : IsArchive v.tree input
  · simp [stagedPath_of_isArchive harchive, mem_text_folderAt_iff hslash hc, harchive]
  · simp [stagedPath_of_not_isArchive harchive, harchive]

/-- What was staged is found in a row at the position of its input. -/
theorem stagedPath_of_stage (h : (w.stage inputs).outcome s = (.ok paths, u)) {i : Nat}
    (hi : inputs[i]? = some input) :
    paths[i]? = some (w.stagedPath (w.reached s inputs i) input) := by
  obtain ⟨path, hpath, hone⟩ := stageOne_of_stage h hi
  rw [outcome_stageOne] at hone
  rw [hpath, stagedPath]
  split at hone
  · next hunpacked => rw [if_pos hunpacked, (extract_eq_ok hone).1]
  · next hkept => rw [if_neg hkept, Except.ok.inj (Prod.mk.inj hone).1]

/-! ## What a line is good for -/

/-- A line can be used for an input, read back as a path: it leads to something if the path that the
input is staged as does. For an archive it leads to the directory that has all entries, and that
holds the archive unless the name of the folder was drawn again. -/
structure IsUsable (w : Workspace) (v : Stage) (input : Path) (u : Stage) (line : String) :
    Prop where
  found : u.tree.contains (w.stagedPath v input) → u.tree.contains ⟨line⟩
  unpacked : IsArchive v.tree input → ∃ file es, Archive.load v.tree input = .ok (file, es) ∧
    Archive.HasEntries ⟨line⟩ es u.tree ∧
    (w.NamedOnce v u → Archive.Holds file ⟨line⟩ es u.tree)

/-- The path that an input was staged as can be used for it. -/
theorem isUsable_stagedPath (hlength : 0 < w.nameLength)
    (h : (w.stage inputs).outcome s = (.ok paths, u)) {i : Nat} (hi : inputs[i]? = some input) :
    w.IsUsable (w.reached s inputs i) input u (w.stagedPath (w.reached s inputs i) input).text where
  found := id
  unpacked := by
    intro harchive
    obtain ⟨path, -, hone⟩ := stageOne_of_stage h hi
    rw [stageOne_of_isArchive harchive] at hone
    rw [stagedPath_of_isArchive harchive]
    exact holds_of_extract hlength hone (reached_fills h (i + 1))

/-- The line of an input is the path that it is staged as, with slashes for backslashes. It is that
path itself exactly if there is no backslash, and then it can be used. With a backslash it leads to
another place, unless the paths climb. -/
structure IsLineOf (w : Workspace) (v : Stage) (input : Path) (u : Stage) (line : String) :
    Prop where
  text_eq : line = normalized (w.stagedPath v input).text
  path_eq_iff : Path.mk line = w.stagedPath v input ↔
    '\\' ∉ (w.stagedPath v input).text.toList
  place_eq_iff : .up ∉ (w.stagedPath v input).steps → .up ∉ (Path.mk line).steps →
    (u.tree.place ⟨line⟩ = u.tree.place (w.stagedPath v input) ↔
      '\\' ∉ (w.stagedPath v input).text.toList)
  plain_iff : '\\' ∉ (w.stagedPath v input).text.toList ↔
    (IsArchive v.tree input → '\\' ∉ w.root.text.toList) ∧
      (¬ IsArchive v.tree input → '\\' ∉ input.text.toList)
  isUsable : '\\' ∉ (w.stagedPath v input).text.toList → w.IsUsable v input u line

/-- Whatever has been staged, its line tells its path. -/
theorem isLineOf_of_stage (hlength : 0 < w.nameLength)
    (h : (w.stage inputs).outcome s = (.ok paths, u)) {i : Nat} (hi : inputs[i]? = some input) :
    w.IsLineOf (w.reached s inputs i) input u
      (normalized (w.stagedPath (w.reached s inputs i) input).text) where
  text_eq := rfl
  path_eq_iff := by rw [← normalized_eq_self_iff, Path.mk.injEq]
  place_eq_iff := fun hup hup' => place_normalized_eq_iff hup hup' u.tree.workingDirectory
  plain_iff := not_mem_text_stagedPath_iff (by decide) (by decide)
  isUsable := by
    intro hplain
    rw [normalized_eq_self_iff.mpr hplain]
    exact isUsable_stagedPath hlength h hi

end Workspace

namespace CommandLine

variable {e : Environment} {config : Config} {directory : Option Path} {inputs : List Path}
  {s u opened : Stage} {w : Workspace} {lines : List String}

/-! ## Lines of a text -/

def printed (lines : List String) : List Char := lines.flatMap fun line => line.toList ++ ['\n']

/-- Lines without line breaks can be read from their text, which ends with the last of them. -/
theorem split_printed (h : ∀ line ∈ lines, '\n' ∉ line.toList) :
    Text.split '\n' (printed lines) = lines.map String.toList ++ [[]] := by
  induction lines with
  | nil => rfl
  | cons line lines ih =>
      obtain ⟨hline, hlines⟩ := List.forall_mem_cons.mp h
      have hprinted : printed (line :: lines) = line.toList ++ '\n' :: printed lines := by
        rw [printed, List.flatMap_cons, List.append_assoc, List.singleton_append, printed]
      rw [hprinted, Text.split_append_cons, Text.split_of_not_mem hline, ih hlines]
      rfl

/-! ## Staging from the command line -/

def stageWith (e : Environment) (config : Config) (directory : Option Path) (inputs : List Path) :
    Task := do
  let workspace ← prepareWorkspace e config directory
  let staged ← (workspace.stage inputs).mapError Report.ofStageError
  pure (staged.map fun p => normalized p.text)

/-- The configuration is read before anything else. -/
theorem stage_eq (e : Environment) (i : Invocation) (inputs : List Path) :
    stage e i inputs = loadConfig i.config >>= fun config =>
      stageWith e config i.workspace inputs := rfl

/-- The lines are the staged paths, one for each, with slashes. -/
theorem stageWith_eq_ok :
    (stageWith e config directory inputs).outcome s = (.ok lines, u) ↔
      ∃ w opened staged, (prepareWorkspace e config directory).outcome s = (.ok w, opened) ∧
        (w.stage inputs).outcome opened = (.ok staged, u) ∧
        lines = staged.map fun p => normalized p.text := by
  simp only [stageWith, Action.outcome_bind_eq_ok, Action.outcome_mapError_eq_ok,
    Action.outcome_pure, Prod.mk.injEq, Except.ok.injEq]
  constructor
  · rintro ⟨w, opened, hopen, staged, v, hstage, hlines, rfl⟩
    exact ⟨w, opened, staged, hopen, hstage, hlines.symm⟩
  · rintro ⟨w, opened, staged, hopen, hstage, hlines⟩
    exact ⟨w, opened, hopen, staged, u, hstage, hlines.symm, rfl⟩

/-- The program prints the lines that staging gives with the configuration that is found. -/
theorem run_stage_iff {args : List String} {i : Invocation}
    (hargs : Request.ofArguments args = .run i) (hcommand : i.command = .stage inputs) :
    run e args s = ({ code := 0, lines }, u) ↔
      ∃ config, Config.load s.tree (i.config.getD ⟨Config.fileName⟩) = .ok config ∧
        (stageWith e config i.workspace inputs).outcome s = (.ok lines, u) := by
  have hstage : (stage e i inputs).outcome s = (.ok lines, u) ↔
      ∃ config, Config.load s.tree (i.config.getD ⟨Config.fileName⟩) = .ok config ∧
        (stageWith e config i.workspace inputs).outcome s = (.ok lines, u) := by
    rw [stage_eq, Action.outcome_bind_eq_ok]
    constructor
    · rintro ⟨config, s', hload, h⟩
      obtain ⟨hload, rfl⟩ := Task.outcome_find_eq_ok.mp hload
      exact ⟨config, hload, h⟩
    · rintro ⟨config, hload, h⟩
      exact ⟨config, s, Task.outcome_find_eq_ok.mpr ⟨hload, rfl⟩, h⟩
  rw [← hstage, run, hargs]
  dsimp only
  rw [perform, hcommand]
  rcases (stage e i inputs).outcome s with ⟨r, t⟩
  cases r <;> simp

/-- A workspace is opened in the directory that is given, for names that are long enough. -/
theorem prepareWorkspace_eq_ok
    (h : (prepareWorkspace e config directory).outcome s = (.ok w, opened)) :
    Workspace.minNameLength ≤ w.nameLength ∧ ∀ d, directory = some d → w.root = d := by
  obtain ⟨t, hprepare, -⟩ := Task.outcome_files_eq_ok.mp h
  cases directory with
  | some d =>
      refine ⟨Workspace.minNameLength_le_of_prepare hprepare, ?_⟩
      rintro d' ⟨⟩
      exact (Workspace.prepare_eq_ok hprepare).1
  | none =>
      refine ⟨?_, nofun⟩
      dsimp only [Workspace.prepareBeside] at hprepare
      split at hprepare
      · exact Workspace.minNameLength_le_of_prepare hprepare
      · cases hprepare

/-- When staging has ended well it prints one line for each input, in order, and the lines can be
told apart in what is printed. Read back as a path the line of an input can be used if there is no
backslash in the path that the input is staged as, that is in the root of the workspace if it is an
archive and in the input itself if it is none. Only then it is that path. -/
theorem stageWith_printsPaths
    (h : (stageWith e config directory inputs).outcome s = (.ok lines, u)) :
    ∃ w opened, (prepareWorkspace e config directory).outcome s = (.ok w, opened) ∧
      (∀ d, directory = some d → w.root = d) ∧
      lines.length = inputs.length ∧
      ((∀ input ∈ inputs, '\n' ∉ input.text.toList) → '\n' ∉ w.root.text.toList →
        Text.split '\n' (printed lines) = lines.map String.toList ++ [[]]) ∧
      ∀ (i : Nat) (input : Path) (line : String), inputs[i]? = some input → lines[i]? = some line →
        w.IsLineOf (w.reached opened inputs i) input u line := by
  obtain ⟨w, opened, staged, hopen, hstage, rfl⟩ := stageWith_eq_ok.mp h
  obtain ⟨hlength, hroot⟩ := prepareWorkspace_eq_ok hopen
  have hpositive : 0 < w.nameLength := Nat.lt_of_lt_of_le (by decide) hlength
  have hcount := Workspace.length_of_stage hstage
  have hline : ∀ (i : Nat) (input : Path) (line : String), inputs[i]? = some input →
      (staged.map fun p => normalized p.text)[i]? = some line →
      w.IsLineOf (w.reached opened inputs i) input u line := by
    intro i input line hi hl
    rw [List.getElem?_map, Workspace.stagedPath_of_stage hstage hi, Option.map_some,
      Option.some.injEq] at hl
    rw [← hl]
    exact Workspace.isLineOf_of_stage hpositive hstage hi
  refine ⟨w, opened, hopen, hroot, by rw [List.length_map, hcount], fun hinputs hbreak => ?_, hline⟩
  refine split_printed fun line hmem => ?_
  obtain ⟨i, hl⟩ := List.mem_iff_getElem?.mp hmem
  have hi : i < inputs.length := by
    have hlt := (List.getElem?_eq_some_iff.mp hl).1
    rwa [List.length_map, hcount] at hlt
  have htext := (hline i inputs[i] line (List.getElem?_eq_getElem hi) hl).text_eq
  rw [htext, mem_normalized_iff (by decide) (by decide)]
  exact (Workspace.not_mem_text_stagedPath_iff (by decide) (by decide)).mpr
    ⟨fun _ => hbreak, fun _ => hinputs _ (List.getElem_mem hi)⟩

/-- Paths without backslashes in a workspace without one: all lines can be used, those of the two
archives and those of the inputs that are not there. -/
theorem stageWith_printsPaths_of_mixedInputs :
    let inputs := Workspace.mixedInputs.take 4
    let lines := ["level0", "ws/aaaaaaaaaa", "no.zip", "ws/bbbbbbbbbb"]
    ∃ u w opened,
      (stageWith quietEnvironment {} (some ⟨"ws"⟩) inputs).outcome Workspace.mixedStage =
        (.ok lines, u) ∧
      (prepareWorkspace quietEnvironment {} (some ⟨"ws"⟩)).outcome Workspace.mixedStage =
        (.ok w, opened) ∧
      Text.split '\n' (printed lines) = lines.map String.toList ++ [[]] ∧
      ∀ (i : Nat) (input : Path) (line : String), inputs[i]? = some input → lines[i]? = some line →
        w.IsUsable (w.reached opened inputs i) input u line := by
  intro inputs lines
  have hplain : ∀ input ∈ inputs, '\\' ∉ input.text.toList ∧ '\n' ∉ input.text.toList := by decide
  generalize hrun : (stageWith quietEnvironment {} (some ⟨"ws"⟩) inputs).outcome
    Workspace.mixedStage = ended
  have hends : ended.1.toOption = some lines := by
    rw [← hrun]
    decide +kernel
  obtain ⟨_ | shown, u⟩ := ended
  · cases hends
  · obtain rfl := Option.some.inj hends
    obtain ⟨w, opened, hopen, hroot, -, hsplit, hline⟩ := stageWith_printsPaths hrun
    have hw := hroot _ rfl
    refine ⟨u, w, opened, rfl, hopen, ?_, fun i input line hi hl => ?_⟩
    · exact hsplit (fun input hinput => (hplain input hinput).2) (by rw [hw]; decide)
    · have hlineOf := hline i input line hi hl
      refine hlineOf.isUsable (hlineOf.plain_iff.mpr ⟨fun _ => by rw [hw]; decide, fun _ => ?_⟩)
      exact (hplain input (List.mem_of_getElem? hi)).1

/-- A file with a backslash in its name is staged as it is, but the line that is printed for it has
a slash there and leads to nothing. -/
theorem run_printsOtherPath_of_backslash :
    let s : Stage :=
      { tree := ((Disk.writeText ⟨"a\\b.bin"⟩ "data").outcome {}).2
        names := { letter := fun _ _ => 0 } }
    ∃ u, run quietEnvironment ["stage", "-w", "work", "a\\b.bin"] s =
        ({ code := 0, lines := ["a/b.bin"] }, u) ∧
      u.tree.isFile ⟨"a\\b.bin"⟩ ∧ u.tree.contains ⟨"a/b.bin"⟩ = false ∧
      ∀ (w : Workspace) (v : Stage), w.stagedPath v ⟨"a\\b.bin"⟩ = ⟨"a\\b.bin"⟩ ∧
        ¬ w.IsUsable v ⟨"a\\b.bin"⟩ u "a/b.bin" := by
  intro s
  generalize hrun : run quietEnvironment ["stage", "-w", "work", "a\\b.bin"] s = answered
  have hends : answered.1 = { code := 0, lines := ["a/b.bin"] } ∧
      answered.2.tree.isFile ⟨"a\\b.bin"⟩ ∧ answered.2.tree.contains ⟨"a/b.bin"⟩ = false := by
    rw [← hrun]
    decide +kernel
  obtain ⟨answer, u⟩ := answered
  obtain ⟨rfl, hfile, hnone⟩ := hends
  refine ⟨u, rfl, hfile, hnone, fun w v => ?_⟩
  have hkept : w.stagedPath v ⟨"a\\b.bin"⟩ = ⟨"a\\b.bin"⟩ :=
    Workspace.stagedPath_of_not_isArchive fun harchive => absurd harchive.extension (by decide)
  refine ⟨hkept, fun husable => ?_⟩
  have hfound := husable.found (by rw [hkept]; exact contains_of_isFile hfile)
  rw [hnone] at hfound
  cases hfound

end CommandLine

end GameExport
