import GameExport.Proofs.Export.Repeat
import GameExport.Proofs.Materialize.Effect

/-! # Which assemblies get a definition

An export writes definitions for the assemblies that it takes down: those that it decompiles, and
those of which it writes a placeholder. An assembly that is not decompiled and whose placeholders
are all there from an earlier export is not taken down, so it gets no definition. Among the
assemblies that share a file only the one of the greatest name keeps its definition.
-/

namespace GameExport

open GameExport.Path FileTree

variable {σ δ μ : Type} {root : Path}

/-! ## The assemblies that are taken down -/

namespace ScriptAsset

theorem takenDown_cons (root : Path) (s : ScriptAsset) (ss : List ScriptAsset) (name : String) :
    takenDown root (s :: ss) name =
      (if s.assembly = name then some ⟨s.assembly, Stub.directory root s.assembly⟩ else none).or
        (takenDown root ss name) := by
  unfold takenDown
  by_cases hname : s.assembly = name
  · subst hname
    simp
  · simp [hname]

variable {s : ScriptAsset} {w : Option (MetadataWriter σ)} {j k : Job σ} {r : ScriptReport}

/-- Whatever a metadata writer does, it takes down no assembly. -/
theorem ensureMetadata_descriptors {w : MetadataWriter σ}
    (h : (s.ensureMetadata root w).outcome j = (.ok r, k)) :
    r.stubsWritten = [] ∧ k.descriptors = j.descriptors := by
  unfold ensureMetadata at h
  rw [Action.outcome_ask_bind] at h
  split at h
  · obtain ⟨hr, rfl⟩ := Prod.mk.inj h
    cases hr
    exact ⟨rfl, rfl⟩
  · obtain ⟨_, i, hwrite, h⟩ := Action.outcome_bind_eq_ok.mp h
    rw [Action.outcome_during_eq_ok, Job.outcome_help_eq_ok] at hwrite
    obtain ⟨v, -, rfl⟩ := hwrite
    obtain ⟨hr, rfl⟩ := Prod.mk.inj h
    cases hr
    exact ⟨rfl, rfl⟩

/-- An assembly is taken down when a placeholder of it is written. -/
theorem materialize_descriptors (hengine : s.isEngine = false)
    (h : (s.materialize root w).outcome j = (.ok r, k)) :
    (j.tree.contains (s.file root) ∧ r.stubsWritten = [] ∧ k.descriptors = j.descriptors) ∨
      (j.tree.contains (s.file root) = false ∧ r.stubsWritten = [s.file root] ∧
        k.descriptors = (j.descriptors.tryAdd s.assembly (Stub.directory root s.assembly)).2) := by
  obtain ⟨source, i, hsource, h⟩ := materialize_eq_ok hengine h
  have hrest : r.stubsWritten = source.stubsWritten ∧ k.descriptors = i.descriptors := by
    rcases h with ⟨-, rfl, rfl⟩ | ⟨v, metadata, -, hmetadata, rfl⟩
    · exact ⟨rfl, rfl⟩
    · obtain ⟨hnone, hsame⟩ := ensureMetadata_descriptors hmetadata
      rw [ScriptReport.stubsWritten_append, hnone, List.append_nil]
      exact ⟨rfl, hsame⟩
  rw [hrest.1, hrest.2]
  rcases ensureSource_eq_ok hsource with ⟨hfound, rfl, rfl⟩ | ⟨hmissing, rfl, -, hdescriptors⟩
  · exact Or.inl ⟨hfound, rfl, rfl⟩
  · exact Or.inr ⟨hmissing, rfl, hdescriptors⟩

/-- The scripts of which a pass writes placeholders: those of the game whose files are not found
when it is their turn. -/
def stubbed (root : Path) (w : Option (MetadataWriter σ)) :
    List ScriptAsset → Job σ → List ScriptAsset
  | [], _ => []
  | s :: ss, j =>
      let rest := stubbed root w ss ((s.materialize root w).outcome j).2
      if s.isEngine ∨ j.tree.contains (s.file root) then rest else s :: rest

/-- Placeholders are written for some scripts of the game, in their order. -/
theorem stubbed_sublist (ss : List ScriptAsset) (j : Job σ) :
    (stubbed root w ss j).Sublist (ofGame ss) := by
  induction ss generalizing j with
  | nil => exact List.nil_sublist _
  | cons s ss ih =>
      rw [stubbed, ofGame]
      cases hengine : s.isEngine with
      | true =>
          rw [if_pos (Or.inl rfl), List.filter_cons_of_neg (by simp [hengine])]
          exact ih _
      | false =>
          rw [List.filter_cons_of_pos (by simp [hengine])]
          split
          · exact (ih _).cons s
          · exact (ih _).cons_cons s

end ScriptAsset

open ScriptAsset

section Pass

variable {w : Option (MetadataWriter σ)} {ss : List ScriptAsset} {j k : Job σ} {r : ScriptReport}

/-- A pass takes down the assemblies of the scripts of which it writes placeholders. -/
theorem materialize_stubbed (h : (materialize root w ss).outcome j = (.ok r, k)) :
    r.stubsWritten = (stubbed root w ss j).map (·.file root) ∧
      ∀ name, k.descriptors.get? name =
        (j.descriptors.get? name).or (takenDown root (stubbed root w ss j) name) := by
  induction ss generalizing j r with
  | nil =>
      obtain ⟨hr, rfl⟩ := Prod.mk.inj h
      cases hr
      refine ⟨rfl, fun name => ?_⟩
      simp [stubbed, takenDown]
  | cons s ss ih =>
      obtain ⟨first, i, rest, hfirst, hrest, rfl⟩ := materialize_cons_eq_ok.mp h
      obtain ⟨hfiles, hdescriptors⟩ := ih hrest
      have hnext : ((s.materialize root w).outcome j).2 = i := by rw [hfirst]
      rw [stubbed, hnext, ScriptReport.stubsWritten_append, hfiles]
      cases hengine : s.isEngine with
      | true =>
          rw [s.materialize_of_isEngine hengine] at hfirst
          obtain ⟨hr, rfl⟩ := Prod.mk.inj hfirst
          cases hr
          rw [if_pos (Or.inl rfl)]
          exact ⟨rfl, hdescriptors⟩
      | false =>
          rcases ScriptAsset.materialize_descriptors hengine hfirst with
            ⟨hfound, hnone, hsame⟩ | ⟨hmissing, hstub, hadded⟩
          · rw [if_pos (Or.inr hfound), hnone]
            rw [hsame] at hdescriptors
            exact ⟨rfl, hdescriptors⟩
          · rw [if_neg (by simp [hmissing]), hstub]
            refine ⟨rfl, fun name => ?_⟩
            rw [hdescriptors, hadded, DescriptorMap.get?_tryAdd, Option.or_assoc, takenDown_cons]

/-- What a pass takes down is told by the placeholders that it reports. -/
theorem materialize_descriptors (h : (materialize root w ss).outcome j = (.ok r, k)) :
    ∃ written, written.Sublist (ofGame ss) ∧
      written.map (·.file root) = r.stubsWritten ∧
      ∀ name, k.descriptors.get? name =
        (j.descriptors.get? name).or (takenDown root written name) := by
  obtain ⟨hfiles, hdescriptors⟩ := materialize_stubbed h
  exact ⟨stubbed root w ss j, stubbed_sublist ss j, hfiles.symm, hdescriptors⟩

end Pass

/-! ## Definition files -/

def AssemblyDefinition.IsFileName (n : String) : Prop := ".asmdef".toList <:+ n.toList

/-- Whatever definition files there are were there before. -/
structure FileTree.BringsNoDefinition (t u : FileTree) : Prop where
  workingDirectory : u.workingDirectory = t.workingDirectory
  old : ∀ {n l c x}, AssemblyDefinition.IsFileName n → u.get? (n :: l) = some (.file c x) →
    t.get? (n :: l) = some (.file c x)

namespace FileTree.BringsNoDefinition

variable {t u v : FileTree}

theorem refl (t : FileTree) : BringsNoDefinition t t := ⟨rfl, fun _ h => h⟩

theorem trans (h : BringsNoDefinition t u) (k : BringsNoDefinition u v) :
    BringsNoDefinition t v :=
  ⟨k.workingDirectory.trans h.workingDirectory, fun hn hm => h.old hn (k.old hn hm)⟩

theorem of_makeDirectories {p : Path} {x : Unit}
    (h : (Disk.makeDirectories p).outcome t = (.ok x, u)) : BringsNoDefinition t u := by
  obtain ⟨hworking, -, hget⟩ := Disk.makeDirectories_eq_ok h
  refine ⟨hworking, fun {n l c x} _ hm => ?_⟩
  rw [hget] at hm
  split at hm
  · cases hm
  · exact hm

end FileTree.BringsNoDefinition

def Decompiler.LeavesDefinitions (d : Decompiler δ) (settings : DecompileSettings) : Prop :=
  ∀ a directory s u, (d a directory settings).outcome s = (.ok (), u) →
    BringsNoDefinition s.1 u.1

theorem Decompiler.run_bringsNoDefinition {d : Decompiler σ} {settings : DecompileSettings}
    (hd : d.LeavesDefinitions settings) {as : List ManagedAssembly} {j k : Job σ} {n : Nat}
    (h : (d.run root settings as).outcome j = (.ok n, k)) : BringsNoDefinition j.tree k.tree := by
  induction as generalizing j n with
  | nil =>
      obtain ⟨-, rfl⟩ := Prod.mk.inj h
      exact .refl j.tree
  | cons a as ih =>
      obtain ⟨first, i, rest, hfirst, hrest, rfl⟩ := run_cons_eq_ok.mp h
      refine BringsNoDefinition.trans ?_ (ih hrest)
      cases hname : Assembly.isReference (Assembly.baseName a.name) with
      | true =>
          rw [runOne_of_isReference hname] at hfirst
          obtain ⟨-, rfl⟩ := Prod.mk.inj hfirst
          exact .refl j.tree
      | false =>
          obtain ⟨v, s, hmake, hdecompile, -, rfl⟩ := (runOne_eq_ok hname).mp hfirst
          have hmade : BringsNoDefinition j.tree v := .of_makeDirectories hmake
          exact hmade.trans (hd a _ _ s hdecompile)

namespace ScriptAsset

/-- Sources and metadata end differently from definition files. -/
theorem not_isFileName (s : ScriptAsset) :
    ¬ AssemblyDefinition.IsFileName s.target.fileName ∧
      ¬ AssemblyDefinition.IsFileName (s.target.fileName ++ ".meta") := by
  have hlast {n : String} (h : AssemblyDefinition.IsFileName n) : n.toList.getLast? = some 'f' := by
    obtain ⟨front, hfront⟩ := h
    rw [← hfront]
    simp
  constructor
  · intro h
    simpa [fileName_eq, String.toList_append] using hlast h
  · intro h
    simpa [String.toList_append] using hlast h

/-- The files of a script are no definitions. -/
theorem materialize_bringsNoDefinition {s : ScriptAsset} {w : Option (MetadataWriter σ)}
    (hw : ∀ v ∈ w, v.CreatesOnly) {j k : Job σ} {r : ScriptReport} (hengine : s.isEngine = false)
    (h : (s.materialize root w).outcome j = (.ok r, k)) : BringsNoDefinition j.tree k.tree := by
  obtain ⟨source, i, hsource, h⟩ := materialize_eq_ok hengine h
  have hfirst : BringsNoDefinition j.tree i.tree := by
    rcases ensureSource_eq_ok hsource with ⟨-, -, rfl⟩ | ⟨-, -, hwrites, -⟩
    · exact .refl _
    · refine ⟨hwrites.workingDirectory, fun {n l c x} hn hm => hwrites.file_of_file hm ?_⟩
      rw [FileTree.place, s.place_file]
      intro heq
      exact s.not_isFileName.1 ((List.cons.inj heq).1 ▸ hn)
  refine hfirst.trans ?_
  rcases h with ⟨-, -, rfl⟩ | ⟨v, metadata, rfl, hmetadata, -⟩
  · exact .refl _
  · rcases ensureMetadata_eq_ok (hw v rfl) hmetadata with
      ⟨-, -, rfl⟩ | ⟨-, -, -, -, -, c, x, hputs⟩
    · exact .refl _
    · refine ⟨hputs.workingDirectory, fun {n l c x} hn hm => ?_⟩
      rwa [hputs.of_ne] at hm
      rw [FileTree.place, s.place_metadata]
      intro heq
      exact s.not_isFileName.2 ((List.cons.inj heq).1 ▸ hn)

end ScriptAsset

/-- A pass over scripts brings no definition. -/
theorem materialize_bringsNoDefinition {w : Option (MetadataWriter σ)}
    (hw : ∀ v ∈ w, v.CreatesOnly) {ss : List ScriptAsset} {j k : Job σ} {r : ScriptReport}
    (h : (materialize root w ss).outcome j = (.ok r, k)) : BringsNoDefinition j.tree k.tree := by
  induction ss generalizing j r with
  | nil =>
      obtain ⟨-, rfl⟩ := Prod.mk.inj h
      exact .refl j.tree
  | cons s ss ih =>
      obtain ⟨first, i, rest, hfirst, hrest, rfl⟩ := materialize_cons_eq_ok.mp h
      refine BringsNoDefinition.trans ?_ (ih hrest)
      cases hengine : s.isEngine with
      | true =>
          rw [s.materialize_of_isEngine hengine] at hfirst
          obtain ⟨-, rfl⟩ := Prod.mk.inj hfirst
          exact .refl j.tree
      | false => exact ScriptAsset.materialize_bringsNoDefinition hw hengine hfirst

/-! ## The export -/

/-- The definition of an assembly is written, and none of a greater name to the same file. -/
def DescriptorMap.Keeps (m : DescriptorMap) (d : Descriptor) : Prop :=
  d ∈ m.defined ∧
    ∀ e ∈ m.defined, AssemblyDefinition.path e = AssemblyDefinition.path d → e.name ≤ d.name

/-- A definition is written for each assembly that was taken down, unless the editor has it of
itself. -/
theorem DescriptorMap.exists_mem_defined_iff {m : DescriptorMap} {name : String}
    (h : Assembly.isPredefined name = false) :
    (∃ d ∈ m.defined, d.name = name) ↔ (m.get? name).isSome := by
  rw [Option.isSome_iff_exists]
  constructor
  · rintro ⟨d, hd, rfl⟩
    exact ⟨d, (mem_defined_iff.mp hd).1⟩
  · rintro ⟨d, hd⟩
    obtain rfl := name_of_get?_eq_some hd
    exact ⟨d, mem_defined_iff.mpr ⟨hd, h⟩, rfl⟩

/-- An assembly keeps its file if it is the last one that is written there. -/
theorem DescriptorMap.keeps_iff_lastAt {m : DescriptorMap} {d : Descriptor}
    (hm : ∀ e ∈ m.defined, e.IsPlaced root) (start : Location) :
    m.Keeps d ↔ AssemblyDefinition.lastAt start m.defined
      ((AssemblyDefinition.path d).place start) = some d := by
  rw [AssemblyDefinition.lastAt_eq_some_iff m.sorted_defined, Keeps]
  constructor
  · rintro ⟨hd, hgreatest⟩
    refine ⟨hd, rfl, fun e he hplace => hgreatest e he ?_⟩
    exact (hm e he).path_eq_of_place_eq (hm d hd) hplace
  · rintro ⟨hd, -, hgreatest⟩
    exact ⟨hd, fun e he hpath => hgreatest e he (by rw [hpath])⟩

theorem FileTree.get?_eq_none_of_forall_ne {t : FileTree} {n : String} {l : Location}
    (h : ∀ e ∈ t.entries, e.1 ≠ n :: l) : t.get? (n :: l) = none := by
  rw [get?, Entry.lookup, Option.map_eq_none_iff, List.find?_eq_none]
  intro e he
  simpa using h e he

namespace Exporter

variable {r : ExportRequest} {e : Exporter δ μ (List Path)} {s u : ExportState δ μ (List Path)}
  {summary : ExportSummary}

/-- Every assembly has a definition that was decompiled or has got a placeholder, unless another one
of a greater name shares its file. All other definition files are as they were before, so an
assembly that was not decompiled and whose placeholders were all there gets none. -/
theorem exportAll_defines (hdefinitions : e.definitions = AssemblyDefinition.writer)
    (hs : s.descriptors = {}) (hsupported : AssemblyDefinition.supportedBy r.version)
    (h : (e.exportAll r root).outcome s = (.ok summary, u)) :
    ∃ written : List ScriptAsset, written.Sublist (ofGame (Asset.scripts r.assets)) ∧
      written.map (·.file root) = summary.scripts.stubsWritten ∧
      (∀ name, Assembly.isPredefined name = false →
        ((∃ d ∈ u.descriptors.defined, d.name = name) ↔
          name ∈ ManagedAssembly.listed r.assemblies ∨ ∃ v ∈ written, v.assembly = name)) ∧
      (∀ d, u.descriptors.Keeps d → u.tree.isFile (AssemblyDefinition.path d) ∧
        ∃ x, u.tree.get? (u.tree.place (AssemblyDefinition.path d)) =
          some (.file (AssemblyDefinition.content d.name) x)) ∧
      (e.decompiler.LeavesDefinitions r.settings → (∀ w ∈ e.metadata, w.CreatesOnly) →
        ∀ n l c x, AssemblyDefinition.IsFileName n → u.tree.get? (n :: l) = some (.file c x) →
          (∃ d, u.descriptors.Keeps d ∧ u.tree.place (AssemblyDefinition.path d) = n :: l ∧
            c = AssemblyDefinition.content d.name) ∨
          s.tree.get? (n :: l) = some (.file c x)) := by
  obtain ⟨-, decompiled, j, scripts, k, definitions, v, hrun, hpass, hemit, rfl, rfl⟩ :=
    exportAll_eq_ok.mp h
  rw [hdefinitions, DefinitionWriter.emit_of_supported _ _ hsupported] at hemit
  obtain ⟨written, hsub, hfiles, htaken⟩ := materialize_descriptors hpass
  have hget (name : String) : k.descriptors.get? name =
      (if name ∈ ManagedAssembly.listed r.assemblies then
        some ⟨name, ManagedAssembly.directory root name⟩ else none).or
          (takenDown root written name) := by
    have hdecompiled := Decompiler.run_descriptors hrun name
    rw [hs] at hdecompiled
    rw [htaken, hdecompiled]
    rfl
  have hplaced : ∀ d ∈ k.descriptors.defined, d.IsPlaced root := by
    intro d hd
    have hfound := DescriptorMap.mem_entries_iff.mp (List.mem_of_mem_filter hd)
    rw [hget, Option.or_eq_some_iff] at hfound
    rcases hfound with hlisted | ⟨-, hstub⟩
    · split at hlisted
      · rw [← Option.some.inj hlisted]
        exact ManagedAssembly.isPlaced_directory root _
      · cases hlisted
    · unfold takenDown at hstub
      split at hstub
      · rw [← Option.some.inj hstub]
        exact Stub.isPlaced_directory root _
      · cases hstub
  obtain ⟨-, -, hwrites⟩ := AssemblyDefinition.writeAll_eq_ok hemit
  have hgrows := hwrites.grows
  refine ⟨written, hsub, hfiles, fun name hname => ?_, fun d hd => ?_,
    fun hd hw n l c x hn hm => ?_⟩
  · rw [DescriptorMap.exists_mem_defined_iff hname, hget, takenDown]
    by_cases hlisted : name ∈ ManagedAssembly.listed r.assemblies
    · simp [hlisted]
    · simp [hlisted]
  · have hlast := (DescriptorMap.keeps_iff_lastAt hplaced k.tree.workingDirectory).mp hd
    obtain ⟨x, hx⟩ : ∃ x, v.1.get? (k.tree.place (AssemblyDefinition.path d)) =
        some (.file (AssemblyDefinition.content d.name) x) := ⟨_, hwrites.last _ d hlast⟩
    refine ⟨hwrites.isFile d hd.1, x, ?_⟩
    rw [place_congr hgrows.workingDirectory]
    exact hx
  · cases hfound : AssemblyDefinition.lastAt k.tree.workingDirectory k.descriptors.defined
      (n :: l) with
    | some d =>
        obtain ⟨-, hplace⟩ := AssemblyDefinition.mem_of_lastAt_eq_some hfound
        rw [hwrites.last _ d hfound, Option.some.injEq, Entry.file.injEq] at hm
        rw [← hplace] at hfound
        refine Or.inl ⟨d, (DescriptorMap.keeps_iff_lastAt hplaced _).mpr hfound, ?_, hm.1.symm⟩
        rw [place_congr hgrows.workingDirectory]
        exact hplace
    | none =>
        right
        have hdecompiled := Decompiler.run_bringsNoDefinition hd hrun
        have hgiven := materialize_bringsNoDefinition hw hpass
        have hbefore := hwrites.file_of_file hfound hm
        exact hdecompiled.old hn (hgiven.old hn hbefore)

def oneScript (version : Version) (t : FileTree) :
    Except ExportError ExportSummary × ExportState Unit Unit (List Path) :=
  ((Exporter.mk (.ofProgram (fun _ _ => pure ⟨.code 0, [], []⟩) "ilspycmd") none
      AssemblyDefinition.writer).exportAll
    { assets := [.script ⟨"Game", "", "Boot"⟩], assemblies := [], settings := { level := .stubs },
      version } ⟨"Assets"⟩).outcome
    { tree := t, decompiler := (), metadata := (), definitions := [] }

/-- In a new project the assembly of the script gets its definition. -/
theorem exportAll_defines_of_new_project :
    ∃ u, oneScript ⟨2021, 3, 0, none⟩ {} =
        (.ok ⟨0, { stubsWritten := [⟨"Assets/Scripts/Game/Boot.cs"⟩] }, 1, 1⟩, u) ∧
      u.tree.isFile ⟨"Assets/Scripts/Game/Game.asmdef"⟩ ∧
      ∃ x, u.tree.get? (u.tree.place ⟨"Assets/Scripts/Game/Game.asmdef"⟩) =
        some (.file (AssemblyDefinition.content "Game") x) := by
  have hrun : (oneScript ⟨2021, 3, 0, none⟩ {}).1 =
        .ok ⟨0, { stubsWritten := [⟨"Assets/Scripts/Game/Boot.cs"⟩] }, 1, 1⟩ ∧
      (oneScript ⟨2021, 3, 0, none⟩ {}).2.descriptors.defined =
        [⟨"Game", ⟨"Assets/Scripts/Game"⟩⟩] := by decide +kernel
  generalize hexport : oneScript ⟨2021, 3, 0, none⟩ {} = exported at hrun
  obtain ⟨report, u⟩ := exported
  obtain ⟨rfl, hdefined⟩ := hrun
  dsimp only at hdefined
  have hkeeps : u.descriptors.Keeps ⟨"Game", ⟨"Assets/Scripts/Game"⟩⟩ := by
    rw [DescriptorMap.Keeps, hdefined]
    decide
  have hpath : AssemblyDefinition.path ⟨"Game", ⟨"Assets/Scripts/Game"⟩⟩ =
      ⟨"Assets/Scripts/Game/Game.asmdef"⟩ := by decide +kernel
  obtain ⟨-, -, -, -, hfile, -⟩ := exportAll_defines rfl rfl (by decide) hexport
  have hgame := hfile _ hkeeps
  rw [hpath] at hgame
  exact ⟨u, rfl, hgame⟩

/-- The same script is exported for an editor that knows no definitions and then for one that does.
At the second time its placeholder is there already, and nothing is defined. -/
theorem exportAll_leavesOut_older_placeholder :
    let older := oneScript ⟨2017, 2, 0, none⟩ {}
    let newer := oneScript ⟨2021, 3, 0, none⟩ older.2.tree
    older.1 = .ok ⟨0, { stubsWritten := [⟨"Assets/Scripts/Game/Boot.cs"⟩] }, 1, 0⟩ ∧
      AssemblyDefinition.supportedBy ⟨2021, 3, 0, none⟩ ∧ Assembly.isPredefined "Game" = false ∧
      newer.1 = .ok ⟨0, { existing := [⟨"Assets/Scripts/Game/Boot.cs"⟩] }, 0, 0⟩ ∧
      ∀ n l, AssemblyDefinition.IsFileName n → newer.2.tree.get? (n :: l) = none := by
  have hrun : (oneScript ⟨2017, 2, 0, none⟩ {}).1 =
        .ok ⟨0, { stubsWritten := [⟨"Assets/Scripts/Game/Boot.cs"⟩] }, 1, 0⟩ ∧
      (oneScript ⟨2021, 3, 0, none⟩ (oneScript ⟨2017, 2, 0, none⟩ {}).2.tree).1 =
        .ok ⟨0, { existing := [⟨"Assets/Scripts/Game/Boot.cs"⟩] }, 0, 0⟩ ∧
      ∀ e ∈ (oneScript ⟨2021, 3, 0, none⟩ (oneScript ⟨2017, 2, 0, none⟩ {}).2.tree).2.tree.entries,
        ∀ n ∈ e.1.head?, ¬ ".asmdef".toList <:+ n.toList := by decide +kernel
  obtain ⟨holder, hnewer, hnames⟩ := hrun
  refine ⟨holder, by decide, by decide, hnewer, fun n l hn => ?_⟩
  exact get?_eq_none_of_forall_ne fun e he heq => hnames e he n (by rw [heq]; rfl) hn

end Exporter

end GameExport
