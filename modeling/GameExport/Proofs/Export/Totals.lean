import GameExport.Proofs.Export.Definitions
import GameExport.Proofs.Export.Stages

/-! # The totals of an export

The stages of an export come one after the other, and a stage that fails leaves nothing to those
behind it. The totals count what the stages have done: assemblies of a name are counted once where
they are taken down, and as often as they are listed where they are decompiled.
-/

namespace GameExport

open GameExport.Path FileTree ScriptAsset

variable {σ δ μ ω : Type} {root : Path}

/-! ## Counting assemblies -/

namespace DescriptorMap

variable {m : DescriptorMap} {names : List String}

/-- As many definitions are written as there are names that the editor has not of itself. -/
theorem length_defined (h : ∀ name, (m.get? name).isSome ↔ name ∈ names) :
    m.defined.length = (names.dedup.filter fun name => !Assembly.isPredefined name).length := by
  rw [← ((perm_dedup h).filter _).length_eq, DescriptorMap.names, List.filter_map, List.length_map]
  rfl

end DescriptorMap

/-! ## Counting what a stage does -/

/-- Every assembly of the list that is more than a reference is decompiled once for each time that
it is listed. -/
theorem Decompiler.run_count {d : Decompiler σ} {settings : DecompileSettings}
    {as : List ManagedAssembly} {j k : Job σ} {n : Nat}
    (h : (d.run root settings as).outcome j = (.ok n, k)) :
    n = (ManagedAssembly.listed as).length := by
  induction as generalizing j n with
  | nil => exact (Except.ok.inj (Prod.mk.inj h).1).symm
  | cons a as ih =>
      obtain ⟨first, i, rest, hfirst, hrest, rfl⟩ := run_cons_eq_ok.mp h
      rw [ih hrest, ManagedAssembly.listed_cons]
      cases hname : Assembly.isReference (Assembly.baseName a.name) with
      | true =>
          rw [runOne_of_isReference hname] at hfirst
          cases (Prod.mk.inj hfirst).1
          rw [if_pos rfl, Nat.zero_add]
      | false =>
          obtain ⟨-, -, -, -, rfl, -⟩ := (runOne_eq_ok hname).mp hfirst
          rw [if_neg Bool.false_ne_true, List.length_cons, Nat.add_comm]

namespace MetadataWriter

variable {draw : Nat → Guid}

theorem written_ofGuids {s : ScriptAsset} {file : Path} {t u : FileTree × GuidRecord}
    (h : (ofGuids draw s file).outcome t = (.ok (), u)) : u.2.written = t.2.written + 1 := by
  unfold ofGuids at h
  rw [Action.outcome_ask_bind] at h
  obtain ⟨_, t₁, hdraw, h⟩ := Action.outcome_bind_eq_ok.mp h
  obtain ⟨_, t₂, hwrite, hcount⟩ := Action.outcome_bind_eq_ok.mp h
  obtain ⟨-, rfl⟩ := Prod.mk.inj hdraw
  obtain ⟨-, rfl⟩ := Prod.mk.inj hcount
  rw [Action.outcome_during_eq_ok, Work.outcome_files_eq_ok] at hwrite
  obtain ⟨v, -, rfl⟩ := hwrite
  rfl

end MetadataWriter

namespace ScriptAsset

variable {s : ScriptAsset} {j k : Job σ} {r : ScriptReport}

/-- The metadata writer has no part in the source of a script. -/
theorem ensureSource_own (h : (s.ensureSource root).outcome j = (.ok r, k)) :
    k.own = j.own ∧ r.handedOff = [] := by
  have hthen (i j k : Job σ) (h : j.own = i.own) (g : k.own = j.own) : k.own = i.own := g.trans h
  have hfiles {α : Type} (a : Disk.Operation α) :
      (Job.files a : Action (Job σ) Failure α).Moves fun j k => k.own = j.own :=
    .zoom (R := fun _ _ => True) (fun _ _ _ => rfl) fun _ => trivial
  have hmoves : (s.ensureSource root : Action (Job σ) Failure ScriptReport).Moves
      fun j k => k.own = j.own := by
    unfold ensureSource
    refine .ask_bind fun i => ?_
    split
    · rfl
    · refine Action.Moves.bind hthen ((hfiles _).during _) (fun _ => ?_) i
      refine .bind hthen ((hfiles _).during _) fun _ => ?_
      exact .bind hthen (fun _ => rfl) fun _ _ => rfl
  have hown := hmoves j
  rw [h] at hown
  refine ⟨hown, ?_⟩
  rcases ensureSource_eq_ok h with ⟨-, rfl, -⟩ | ⟨-, rfl, -⟩ <;> rfl

variable {draw : Nat → Guid} {j k : Job GuidRecord}

/-- Metadata are counted for each script that is handed off. -/
theorem ensureMetadata_written
    (h : (s.ensureMetadata root (.ofGuids draw)).outcome j = (.ok r, k)) :
    k.own.written = j.own.written + r.handedOff.length := by
  unfold ensureMetadata at h
  rw [Action.outcome_ask_bind] at h
  split at h
  · obtain ⟨hr, rfl⟩ := Prod.mk.inj h
    cases hr
    rfl
  · obtain ⟨_, i, hwrite, h⟩ := Action.outcome_bind_eq_ok.mp h
    rw [Action.outcome_during_eq_ok, Job.outcome_help_eq_ok] at hwrite
    obtain ⟨v, hwrite, rfl⟩ := hwrite
    obtain ⟨hr, rfl⟩ := Prod.mk.inj h
    cases hr
    exact MetadataWriter.written_ofGuids hwrite

/-- A script adds to the count what it reports. -/
theorem materialize_written
    (h : (s.materialize root (some (.ofGuids draw))).outcome j = (.ok r, k)) :
    k.own.written = j.own.written + r.handedOff.length := by
  cases hengine : s.isEngine with
  | true =>
      rw [s.materialize_of_isEngine hengine] at h
      obtain ⟨hr, rfl⟩ := Prod.mk.inj h
      cases hr
      rfl
  | false =>
      obtain ⟨source, i, hsource, h⟩ := materialize_eq_ok hengine h
      obtain ⟨hown, hnone⟩ := ensureSource_own hsource
      rcases h with ⟨hw, -⟩ | ⟨v, metadata, hw, hmetadata, rfl⟩
      · cases hw
      · obtain rfl := Option.some.inj hw
        rw [ensureMetadata_written hmetadata, hown, ScriptReport.handedOff_append, hnone]
        rfl

end ScriptAsset

/-- A metadata file is written for every script that is handed over. -/
theorem materialize_written {draw : Nat → Guid} {ss : List ScriptAsset} {j k : Job GuidRecord}
    {r : ScriptReport} (h : (materialize root (some (.ofGuids draw)) ss).outcome j = (.ok r, k)) :
    k.own.written = j.own.written + r.handedOff.length := by
  induction ss generalizing j r with
  | nil =>
      obtain ⟨hr, rfl⟩ := Prod.mk.inj h
      cases hr
      rfl
  | cons s ss ih =>
      obtain ⟨first, i, rest, hfirst, hrest, rfl⟩ := materialize_cons_eq_ok.mp h
      rw [ih hrest, s.materialize_written hfirst, ScriptReport.handedOff_append, List.length_append,
        Nat.add_assoc]

/-- Definitions are written for the assemblies that not every project compiles anyway, and only for
editors that know them. -/
theorem emit_count {names : List String} {version : Version} {m : DescriptorMap}
    (h : ∀ name, (m.get? name).isSome ↔ name ∈ names) {s u : FileTree × List Path} {n : Nat}
    (hemit : (AssemblyDefinition.writer.emit (AssemblyDefinition.supportedBy version) m).outcome s =
      (.ok n, u)) :
    n = (if version.isAtLeast 2017 3 then
        (names.dedup.filter fun name => !Assembly.isPredefined name).length else 0) ∧
      u.2.length = s.2.length + n := by
  rw [← DescriptorMap.length_defined h, ← AssemblyDefinition.supportedBy]
  by_cases hsupported : AssemblyDefinition.supportedBy version
  · rw [DefinitionWriter.emit_of_supported _ _ hsupported] at hemit
    obtain ⟨rfl, hrecord, -⟩ := AssemblyDefinition.writeAll_eq_ok hemit
    rw [if_pos hsupported, hrecord, List.length_append, List.length_map]
    exact ⟨rfl, rfl⟩
  · rw [DefinitionWriter.emit_of_not_supported _ _ hsupported] at hemit
    obtain ⟨hn, rfl⟩ := Prod.mk.inj hemit
    rw [if_neg hsupported]
    exact ⟨(Except.ok.inj hn).symm, by rw [← Except.ok.inj hn]; rfl⟩

/-! ## Stages that fail -/

/-- Changes that are free nowhere but at other names bring no definition. -/
theorem FileTree.BringsNoDefinition.of_changesWithin {free made : Region} {t u : FileTree}
    (h : ChangesWithin free made t u)
    (hfree : ∀ n l, AssemblyDefinition.IsFileName n → ¬ free t.workingDirectory (n :: l)) :
    BringsNoDefinition t u := by
  refine ⟨h.workingDirectory, fun {n l c x} hn hm => ?_⟩
  rcases h.outside _ (hfree n l hn) with heq | ⟨-, -, hdirectory⟩
  · rwa [← heq]
  · rw [hdirectory] at hm
    cases hm

def MetadataWriter.LeavesDefinitions (w : MetadataWriter σ) (root : Path) : Prop :=
  ∀ s : ScriptAsset, (w s (s.file root)).Moves fun t u => BringsNoDefinition t.1 u.1

namespace FileTree.BringsNoDefinition

theorem makeDirectories (p : Path) : (Disk.makeDirectories p).Moves BringsNoDefinition := by
  refine (Disk.makeDirectories_moves_along p).mono fun t u h => ?_
  exact .of_changesWithin h fun _ _ _ hnone => hnone

theorem writeText {p : Path} {text : String}
    (hp : ∀ l, ∃ n m, p.place l = n :: m ∧ ¬ AssemblyDefinition.IsFileName n) :
    (Disk.writeText p text).Moves BringsNoDefinition := by
  have hmoves : (Disk.writeText p text).Moves (ChangesWithin (fun l m => m = p.place l) .none) :=
    Disk.write_moves fun _ => rfl
  refine hmoves.mono fun t u h => .of_changesWithin h fun n l hn heq => ?_
  obtain ⟨k, m, hplace, hk⟩ := hp t.workingDirectory
  rw [hplace] at heq
  exact hk ((List.cons.inj heq).1 ▸ hn)

end FileTree.BringsNoDefinition

theorem MetadataWriter.leavesDefinitions_ofGuids (draw : Nat → Guid) (root : Path) :
    (ofGuids draw).LeavesDefinitions root := by
  intro s
  refine ofGuids_moves BringsNoDefinition.refl (fun _ _ _ h k => h.trans k) (fun text => ?_) draw s
  exact .writeText fun l => ⟨_, _, s.place_metadata root l, s.not_isFileName.2⟩

/-- However a pass ends, it has brought no definition file. -/
theorem materialize_leavesDefinitions {w : Option (MetadataWriter σ)}
    (hw : ∀ v ∈ w, v.LeavesDefinitions root) (ss : List ScriptAsset) :
    (materialize root w ss).Moves fun j k => BringsNoDefinition j.tree k.tree := by
  have hmoves : (materialize root w ss).Moves (Job.GoesOn BringsNoDefinition fun _ => True) := by
    refine materialize_goesOn BringsNoDefinition.refl (fun _ _ _ h k => h.trans k) (fun s => ?_)
      (fun s => ?_) hw (fun _ => trivial) ss
    · exact .makeDirectories _
    · exact .writeText fun l => ⟨_, _, s.place_file root l, s.not_isFileName.1⟩
  exact hmoves.mono fun j k h => h.tree

namespace Exporter

variable {e : Exporter δ μ ω} {s : ExportState δ μ ω} {r : ExportRequest} {f : Failure}

/-- If decompiling fails, the export ends where it failed. -/
theorem exportAll_of_decompile_error (hroot : root.text ≠ "") {j : Job δ}
    (h : (e.decompiler.run root r.settings r.assemblies).outcome
      ⟨s.tree, s.descriptors, s.decompiler⟩ = (.error f, j)) :
    (e.exportAll r root).outcome s = (.error (.failed f),
      { s with tree := j.tree, descriptors := j.descriptors, decompiler := j.own }) := by
  unfold exportAll
  rw [if_neg hroot]
  refine Action.outcome_mapError_eq_error.mpr ⟨f, ?_, rfl⟩
  exact Action.outcome_bind_eq_error.mpr (Or.inl (Action.outcome_zoom_eq_error.mpr ⟨j, h, rfl⟩))

/-- If the pass over the scripts fails, the export ends where it failed. -/
theorem exportAll_of_materialize_error (hroot : root.text ≠ "") {j : Job δ} {k : Job μ} {n : Nat}
    (hrun : (e.decompiler.run root r.settings r.assemblies).outcome
      ⟨s.tree, s.descriptors, s.decompiler⟩ = (.ok n, j))
    (hpass : (materialize root e.metadata (Asset.scripts r.assets)).outcome
      ⟨j.tree, j.descriptors, s.metadata⟩ = (.error f, k)) :
    (e.exportAll r root).outcome s = (.error (.failed f),
      ⟨k.tree, k.descriptors, j.own, k.own, s.definitions⟩) := by
  unfold exportAll
  rw [if_neg hroot]
  refine Action.outcome_mapError_eq_error.mpr ⟨f, ?_, rfl⟩
  refine Action.outcome_bind_eq_error.mpr (Or.inr
    ⟨n, _, Action.outcome_zoom_eq_ok.mpr ⟨j, hrun, rfl⟩, ?_⟩)
  exact Action.outcome_bind_eq_error.mpr (Or.inl (Action.outcome_zoom_eq_error.mpr ⟨k, hpass, rfl⟩))

end Exporter

/-! ## The totals -/

/-- The names of the assemblies that an export takes down, each of them once: those that it
decompiles and those of the scripts of which it writes placeholders. -/
def ExportRequest.touched (r : ExportRequest) (stubbed : List ScriptAsset) : List String :=
  (ManagedAssembly.listed r.assemblies ++ stubbed.map (·.assembly)).dedup

/-- The totals are those of an export that wrote the placeholders of some scripts and recorded the
paths of some definition files. -/
structure ExportSummary.AddsUp (summary : ExportSummary) (r : ExportRequest) (root : Path)
    (stubbed : List ScriptAsset) (recorded : List Path) : Prop where
  stubsWritten : summary.scripts.stubsWritten = stubbed.map (·.file root)
  decompiled : summary.decompiled = (ManagedAssembly.listed r.assemblies).length
  descriptors : summary.descriptors = (r.touched stubbed).length
  definitions : summary.definitions =
    if r.version.isAtLeast 2017 3 then
      ((r.touched stubbed).filter fun name => !Assembly.isPredefined name).length
    else 0
  recorded : recorded.length = summary.definitions

/-- What is found under a name at the end of an export that started with no assembly taken down. -/
theorem isSome_get?_iff {m n : DescriptorMap} {listed : List String} {written : List ScriptAsset}
    (hlisted : ∀ name, m.get? name = (DescriptorMap.get? {} name).or
      (if name ∈ listed then some ⟨name, ManagedAssembly.directory root name⟩ else none))
    (hwritten : ∀ name, n.get? name = (m.get? name).or (takenDown root written name))
    (name : String) :
    (n.get? name).isSome ↔ name ∈ listed ++ written.map (·.assembly) := by
  rw [hwritten, hlisted, takenDown, List.mem_append, List.mem_map]
  by_cases hmem : name ∈ listed
  · simp [hmem, DescriptorMap.get?]
  · by_cases hstub : ∃ s ∈ written, s.assembly = name
    · simp [hmem, hstub, DescriptorMap.get?]
    · simp [hmem, hstub, DescriptorMap.get?]

namespace Exporter

/-- The stages of an export come strictly in order, and its totals add up. -/
theorem exportAll_inOrder (d : Decompiler δ) (w : Option (MetadataWriter μ)) (draw : Nat → Guid)
    (r : ExportRequest) (root : Path) (hroot : root.text ≠ "") (t : FileTree) (decompiler : δ)
    (metadata : μ) :
    let e : Exporter δ μ (List Path) := ⟨d, w, AssemblyDefinition.writer⟩
    let s : ExportState δ μ (List Path) := { tree := t, decompiler, metadata, definitions := [] }
    let decompiled := (d.run root r.settings r.assemblies).outcome ⟨t, {}, decompiler⟩
    let given (j : Job δ) := (materialize root w (Asset.scripts r.assets)).outcome
      ⟨j.tree, j.descriptors, metadata⟩
    (∀ f j, decompiled = (.error f, j) →
      (e.exportAll r root).outcome s = (.error (.failed f),
        { s with tree := j.tree, descriptors := j.descriptors, decompiler := j.own }) ∧
      -- nothing but directories and what the decompiler does has changed the files
      ∀ R : FileTree → FileTree → Prop, (∀ t, R t t) → (∀ t u v, R t u → R u v → R t v) →
        (∀ p, (Disk.makeDirectories p).Moves R) →
        (∀ a directory, (d a directory r.settings).Moves fun s u => R s.1 u.1) → R t j.tree) ∧
    (∀ n j f k, decompiled = (.ok n, j) → given j = (.error f, k) →
      (e.exportAll r root).outcome s =
        (.error (.failed f), ⟨k.tree, k.descriptors, j.own, k.own, []⟩) ∧
      ((∀ v ∈ w, v.LeavesDefinitions root) → BringsNoDefinition j.tree k.tree)) ∧
    (∀ summary u, (e.exportAll r root).outcome s = (.ok summary, u) →
      ∃ n j, decompiled = (.ok n, j) ∧
        summary.AddsUp r root
          (stubbed root w (Asset.scripts r.assets) ⟨j.tree, j.descriptors, metadata⟩)
          u.definitions) ∧
    (MetadataWriter.ofGuids draw).LeavesDefinitions root ∧
    ∀ summary u, ((Exporter.mk d (some (.ofGuids draw)) AssemblyDefinition.writer).exportAll r
        root).outcome { tree := t, decompiler, metadata := {}, definitions := [] } =
          (.ok summary, u) →
      u.metadata.written = summary.scripts.handedOff.length := by
  intro e s decompiled given
  refine ⟨fun f j hrun => ⟨exportAll_of_decompile_error hroot hrun, ?_⟩,
    fun n j f k hrun hpass => ⟨exportAll_of_materialize_error hroot hrun hpass, fun hw => ?_⟩,
    fun summary u h => ?_, MetadataWriter.leavesDefinitions_ofGuids draw root,
    fun summary u h => ?_⟩
  · intro R hrefl htrans hmake hdecompile
    have hmoves : (d.run root r.settings r.assemblies).Moves (Job.GoesOn R fun _ => True) :=
      Decompiler.run_goesOn hrefl htrans (fun name => hmake _) (fun a name => hdecompile a _)
        (fun _ => trivial) r.assemblies
    have hend := (hmoves ⟨t, {}, decompiler⟩).tree
    rwa [show (d.run root r.settings r.assemblies).outcome _ = _ from hrun] at hend
  · have hmoves := materialize_leavesDefinitions hw (Asset.scripts r.assets)
      ⟨j.tree, j.descriptors, metadata⟩
    rwa [show (materialize root w _).outcome _ = _ from hpass] at hmoves
  · obtain ⟨-, count, j, scripts, k, definitions, v, hrun, hpass, hemit, rfl, rfl⟩ :=
      exportAll_eq_ok.mp h
    refine ⟨count, j, hrun, ?_⟩
    obtain ⟨hfiles, hdescriptors⟩ := materialize_stubbed hpass
    have htouched := isSome_get?_iff (fun name => Decompiler.run_descriptors hrun name) hdescriptors
    obtain ⟨hdefinitions, hrecorded⟩ := emit_count htouched hemit
    refine ⟨hfiles, Decompiler.run_count hrun, DescriptorMap.size_eq htouched, hdefinitions, ?_⟩
    exact hrecorded.trans (Nat.zero_add _)
  · obtain ⟨-, count, j, scripts, k, definitions, v, -, hpass, -, rfl, rfl⟩ :=
      exportAll_eq_ok.mp h
    exact (materialize_written hpass).trans (Nat.zero_add _)

/-- Two of the four assemblies are the same and one is a reference. Of the five scripts one is of
the engine, one is given twice, and one has its source already. -/
theorem exportAll_inOrder_of_repeated_names :
    let source (className : String) : Path := ⟨"Assets/Scripts/" ++ className ++ ".cs"⟩
    let request : ExportRequest :=
      { assets := [.script ⟨"Game.dll", "", "Boot"⟩, .script ⟨"UnityEngine.UI", "", "Text"⟩,
          .script ⟨"Game", "", "Boot"⟩, .script ⟨"Other", "", "Menu"⟩, .script ⟨"Old", "", "Done"⟩]
        assemblies := [⟨"Game.dll", ⟨"Game.dll"⟩⟩, ⟨"mscorlib", ⟨"mscorlib.dll"⟩⟩,
          ⟨"Game", ⟨"copy/Game.dll"⟩⟩, ⟨"Assembly-CSharp", ⟨"Assembly-CSharp.dll"⟩⟩]
        settings := { level := .stubs }
        version := ⟨2021, 3, 0, none⟩ }
    let tree := ((do
      Disk.makeDirectories ⟨"Assets/Scripts/Old"⟩
      Disk.writeText (source "Old/Done") "real") : Disk.Operation Unit).outcome {} |>.2
    ∃ u, ((Exporter.mk (.ofProgram (fun _ _ => pure ⟨.code 0, [], []⟩) "ilspycmd")
          (some (.ofGuids fun _ => .ofRandom 0)) AssemblyDefinition.writer).exportAll request
        ⟨"Assets"⟩).outcome
          { tree, decompiler := (), metadata := {}, definitions := [] } =
        (.ok ⟨3,
          { stubsWritten := [source "Game/Boot", source "Other/Menu"]
            existing := [source "Game/Boot", source "Old/Done"]
            handedOff := [source "Game/Boot", source "Other/Menu", source "Old/Done"]
            conflicts := [source "Game/Boot"]
            skippedEngine := 1 }, 3, 2⟩, u) ∧
      u.definitions.length = 2 ∧ u.metadata.written = 3 := by
  intro source request tree
  obtain ⟨-, -, hsummary, -, hwritten⟩ := exportAll_inOrder
    (Decompiler.ofProgram (fun _ _ => pure ⟨.code 0, [], []⟩) "ilspycmd")
    (some (.ofGuids fun _ => .ofRandom 0)) (fun _ => .ofRandom 0) request
    ⟨"Assets"⟩ (by decide) tree () {}
  generalize hexport : ((Exporter.mk (.ofProgram (fun _ _ => pure ⟨.code 0, [], []⟩) "ilspycmd")
      (some (.ofGuids fun _ => .ofRandom 0)) AssemblyDefinition.writer).exportAll request
    ⟨"Assets"⟩).outcome { tree, decompiler := (), metadata := {}, definitions := [] } = exported
  have hreport : exported.1 = .ok ⟨3,
      { stubsWritten := [source "Game/Boot", source "Other/Menu"]
        existing := [source "Game/Boot", source "Old/Done"]
        handedOff := [source "Game/Boot", source "Other/Menu", source "Old/Done"]
        conflicts := [source "Game/Boot"]
        skippedEngine := 1 }, 3, 2⟩ := by
    rw [← hexport]
    decide +kernel
  obtain ⟨report, u⟩ := exported
  obtain rfl := hreport
  obtain ⟨n, j, -, hadds⟩ := hsummary _ u hexport
  exact ⟨u, rfl, hadds.recorded, hwritten _ u hexport⟩

end Exporter

end GameExport
