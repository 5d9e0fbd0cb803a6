import GameExport.Proofs.AssemblyDefinition
import GameExport.Proofs.Decompile
import GameExport.Proofs.Export.Containment
import GameExport.Proofs.Materialize.Repeat

/-! # Exporting again

An export that decompiles nothing finds at the second time all that it has written before. It takes
down only the listed assemblies then, so it writes fewer definitions. Where an assembly of which
only placeholders exist shares a definition file with a listed one, and comes last at the first
time, the file changes.
-/

namespace GameExport

open GameExport.Path FileTree

variable {δ μ ω : Type} {root : Path} {r : ExportRequest}

/-- Among the assemblies that share a definition file with a listed one, the last one is listed. -/
def DescriptorMap.Settled (m : DescriptorMap) (listed : List String) : Prop :=
  ∀ a ∈ m.defined, a.name ∈ listed → ∃ b ∈ m.defined, b.name ∈ listed ∧
    AssemblyDefinition.path b = AssemblyDefinition.path a ∧
    ∀ d ∈ m.defined, AssemblyDefinition.path d = AssemblyDefinition.path a → d.name ≤ b.name

/-- It is so where every assembly has a definition file of its own. -/
theorem DescriptorMap.settled_of_injective {m : DescriptorMap} (listed : List String)
    (h : ∀ a ∈ m.defined, ∀ b ∈ m.defined,
      AssemblyDefinition.path a = AssemblyDefinition.path b → a = b) : m.Settled listed := by
  intro a ha hlisted
  refine ⟨a, ha, hlisted, rfl, fun d hd hpath => ?_⟩
  obtain rfl := h d hd a ha hpath
  exact String.le_refl _

namespace Exporter

/-! ## The stages of an export that succeeds -/

section Stages

variable {e : Exporter δ μ ω} {s u : ExportState δ μ ω}

/-- An export succeeds if its root is a path and its three stages succeed one after the other. -/
theorem exportAll_eq_ok {summary : ExportSummary} :
    (e.exportAll r root).outcome s = (.ok summary, u) ↔
      root.text ≠ "" ∧ ∃ decompiled j scripts k definitions v,
        (e.decompiler.run root r.settings r.assemblies).outcome
          ⟨s.tree, s.descriptors, s.decompiler⟩ = (.ok decompiled, j) ∧
        (materialize root e.metadata (Asset.scripts r.assets)).outcome
          ⟨j.tree, j.descriptors, s.metadata⟩ = (.ok scripts, k) ∧
        (e.definitions.emit (AssemblyDefinition.supportedBy r.version) k.descriptors).outcome
          (k.tree, s.definitions) = (.ok definitions, v) ∧
        summary = ⟨decompiled, scripts, k.descriptors.size, definitions⟩ ∧
        u = ⟨v.1, k.descriptors, j.own, k.own, v.2⟩ := by
  unfold exportAll
  by_cases hroot : root.text = ""
  · simp [hroot]
  rw [if_neg hroot, Action.outcome_mapError_eq_ok, stages]
  simp only [hroot, ne_eq, not_false_iff, true_and]
  constructor
  · intro h
    obtain ⟨decompiled, s₁, hdecompile, h⟩ := Action.outcome_bind_eq_ok.mp h
    obtain ⟨scripts, s₂, hfiles, h⟩ := Action.outcome_bind_eq_ok.mp h
    rw [Action.outcome_ask_bind] at h
    obtain ⟨definitions, s₃, hdefine, h⟩ := Action.outcome_bind_eq_ok.mp h
    obtain ⟨hsummary, rfl⟩ := Prod.mk.inj h
    obtain ⟨j, hrun, rfl⟩ := Action.outcome_zoom_eq_ok.mp hdecompile
    obtain ⟨k, hpass, rfl⟩ := Action.outcome_zoom_eq_ok.mp hfiles
    obtain ⟨v, hemit, rfl⟩ := Action.outcome_zoom_eq_ok.mp hdefine
    exact ⟨decompiled, j, scripts, k, definitions, v, hrun, hpass, hemit,
      (Except.ok.inj hsummary).symm, rfl⟩
  · rintro ⟨decompiled, j, scripts, k, definitions, v, hrun, hpass, hemit, rfl, rfl⟩
    refine Action.outcome_bind_eq_ok.mpr
      ⟨decompiled, _, Action.outcome_zoom_eq_ok.mpr ⟨j, hrun, rfl⟩, ?_⟩
    refine Action.outcome_bind_eq_ok.mpr
      ⟨scripts, _, Action.outcome_zoom_eq_ok.mpr ⟨k, hpass, rfl⟩, ?_⟩
    rw [Action.outcome_ask_bind]
    exact Action.outcome_bind_eq_ok.mpr
      ⟨definitions, _, Action.outcome_zoom_eq_ok.mpr ⟨v, hemit, rfl⟩, rfl⟩

end Stages

/-! ## What the first export leaves behind -/

/-- All that a second export looks for is there. -/
structure Finished (r : ExportRequest) (root : Path) (m : DescriptorMap) (t : FileTree) : Prop where
  directories : ∀ name ∈ ManagedAssembly.listed r.assemblies,
    t.isDirectory (ManagedAssembly.directory root name)
  files : ∀ s ∈ Asset.scripts r.assets, s.isEngine = false → s.HasFiles root true t
  listed : ∀ name ∈ ManagedAssembly.listed r.assemblies,
    m.get? name = some ⟨name, ManagedAssembly.directory root name⟩
  placed : ∀ d ∈ m.entries, d.IsPlaced root
  definitions : AssemblyDefinition.supportedBy r.version → ∀ d ∈ m.defined,
    t.isDirectory d.directory ∧ t.isFile (AssemblyDefinition.path d)
  contents : AssemblyDefinition.supportedBy r.version → ∀ l d,
    AssemblyDefinition.lastAt t.workingDirectory m.defined l = some d →
      ∃ executable, t.get? l = some (.file (AssemblyDefinition.content d.name) executable)

/-- A successful export leaves all that a second one looks for. -/
theorem finished_of_exportAll {e : Exporter δ μ (List Path)} {w : MetadataWriter μ}
    (hidle : e.decompiler.IsIdle r.settings) (hconfined : e.decompiler.IsConfined r.settings)
    (hmetadata : e.metadata = some w) (hcreates : w.CreatesOnly) (hw : w.IsConfined root)
    (hdefinitions : e.definitions = AssemblyDefinition.writer)
    {s u : ExportState δ μ (List Path)} (hs : s.descriptors = {}) {summary : ExportSummary}
    (h : (e.exportAll r root).outcome s = (.ok summary, u)) :
    Finished r root u.descriptors u.tree := by
  have hplaced : ∀ d ∈ u.descriptors.entries, d.IsPlaced root := by
    have hmoves := exportAll_keepsInside hconfined
      (by rw [hmetadata]; rintro v ⟨⟩; exact hw) hdefinitions s (by simp [hs])
    rw [h] at hmoves
    exact hmoves.1
  obtain ⟨-, decompiled, j, scripts, k, definitions, v, hrun, hpass, hemit, -, rfl⟩ :=
    exportAll_eq_ok.mp h
  rw [hmetadata] at hpass
  rw [hdefinitions] at hemit
  dsimp only at hplaced ⊢
  obtain ⟨-, hdirectories⟩ := Decompiler.run_grows hidle hrun
  obtain ⟨hgrows, hfiles, -⟩ := materialize_grows (by rintro v ⟨⟩; exact hcreates) hpass
  have hlisted : ∀ name ∈ ManagedAssembly.listed r.assemblies,
      k.descriptors.get? name = some ⟨name, ManagedAssembly.directory root name⟩ := by
    intro name hname
    apply hgrows.descriptors
    dsimp only
    rw [Decompiler.run_descriptors hrun, hs, if_pos hname]
    rfl
  have hdefined : Grows k.tree v.1 ∧ (AssemblyDefinition.supportedBy r.version →
      (∀ d ∈ k.descriptors.defined,
        v.1.isDirectory d.directory ∧ v.1.isFile (AssemblyDefinition.path d)) ∧
      ∀ l d, AssemblyDefinition.lastAt v.1.workingDirectory k.descriptors.defined l = some d →
        ∃ executable,
          v.1.get? l = some (.file (AssemblyDefinition.content d.name) executable)) := by
    by_cases hsupported : AssemblyDefinition.supportedBy r.version
    · rw [DefinitionWriter.emit_of_supported _ _ hsupported] at hemit
      obtain ⟨-, -, hwrites⟩ := AssemblyDefinition.writeAll_eq_ok hemit
      refine ⟨hwrites.grows, fun _ => ⟨fun d hd => ⟨?_, hwrites.isFile d hd⟩, fun l d hd => ?_⟩⟩
      · exact hwrites.isDirectory d hd (hplaced d (List.mem_of_mem_filter hd)).text_ne_empty
      · rw [hwrites.grows.workingDirectory] at hd
        exact ⟨_, hwrites.last l d hd⟩
    · rw [DefinitionWriter.emit_of_not_supported _ _ hsupported] at hemit
      obtain ⟨-, rfl⟩ := Prod.mk.inj hemit
      exact ⟨.refl _, fun h => absurd h hsupported⟩
  obtain ⟨hwritten, hdefined⟩ := hdefined
  refine ⟨fun name hname => ?_, fun s hs hengine => ?_, hlisted, hplaced,
    fun h => (hdefined h).1, fun h => (hdefined h).2⟩
  · exact hwritten.isDirectory (hgrows.tree.isDirectory (hdirectories name hname))
  · exact (hfiles s hs hengine).of_grows hwritten

/-! ## The second export -/

/-- The assemblies that a second export takes down are the listed ones of the first. -/
theorem Finished.mem_defined_iff {m n : DescriptorMap} {t : FileTree} (h : Finished r root m t)
    (hn : ∀ name, n.get? name = if name ∈ ManagedAssembly.listed r.assemblies then
      some ⟨name, ManagedAssembly.directory root name⟩ else none) {d : Descriptor} :
    d ∈ n.defined ↔ d ∈ m.defined ∧ d.name ∈ ManagedAssembly.listed r.assemblies := by
  have hentries : d ∈ n.entries ↔
      d ∈ m.entries ∧ d.name ∈ ManagedAssembly.listed r.assemblies := by
    rw [DescriptorMap.mem_entries_iff, DescriptorMap.mem_entries_iff, hn]
    by_cases hname : d.name ∈ ManagedAssembly.listed r.assemblies
    · rw [if_pos hname, h.listed _ hname]
      simp [hname]
    · rw [if_neg hname]
      simp [hname]
  rw [DescriptorMap.defined, DescriptorMap.defined, List.mem_filter, List.mem_filter, hentries,
    and_right_comm]

/-- The second export succeeds, and it only writes the definitions of listed assemblies again. -/
theorem exportAll_of_finished {e : Exporter δ μ (List Path)} {w : MetadataWriter μ}
    (hidle : e.decompiler.IsIdle r.settings) (hmetadata : e.metadata = some w)
    (hdefinitions : e.definitions = AssemblyDefinition.writer) (hroot : root.text ≠ "")
    {m : DescriptorMap} {s : ExportState δ μ (List Path)} (hs : s.descriptors = {})
    (h : Finished r root m s.tree) :
    ∃ summary u n, (e.exportAll r root).outcome s = (.ok summary, u) ∧
      (∀ d, d ∈ DescriptorMap.defined n ↔
        d ∈ m.defined ∧ d.name ∈ ManagedAssembly.listed r.assemblies) ∧
      AssemblyDefinition.Rewrites
        (if AssemblyDefinition.supportedBy r.version then n.defined else []) s.tree u.tree := by
  obtain ⟨decompiled, n, hrun⟩ := Decompiler.run_of_isDirectory (σ := δ)
    (j := ⟨s.tree, s.descriptors, s.decompiler⟩) hidle h.directories
  have hn : ∀ name, n.get? name = if name ∈ ManagedAssembly.listed r.assemblies then
      some ⟨name, ManagedAssembly.directory root name⟩ else none := by
    intro name
    have hname := Decompiler.run_descriptors hrun name
    rw [hs] at hname
    exact hname
  have hmem := fun d => h.mem_defined_iff hn (d := d)
  have hpass := materialize_of_hasFiles (j := ⟨s.tree, n, s.metadata⟩) h.files w
  have hemit : ∃ definitions v,
      (AssemblyDefinition.writer.emit (AssemblyDefinition.supportedBy r.version) n).outcome
        (s.tree, s.definitions) = (.ok definitions, v) ∧
      AssemblyDefinition.Rewrites
        (if AssemblyDefinition.supportedBy r.version then n.defined else []) s.tree v.1 := by
    by_cases hsupported : AssemblyDefinition.supportedBy r.version
    · rw [DefinitionWriter.emit_of_supported _ _ hsupported, if_pos hsupported]
      have hplaced : ∀ d ∈ n.defined, d.IsPlaced root :=
        fun d hd => h.placed d (List.mem_of_mem_filter ((hmem d).mp hd).1)
      refine AssemblyDefinition.writeAll_of_isFile hplaced fun d hd => ?_
      exact h.definitions hsupported d ((hmem d).mp hd).1
    · rw [DefinitionWriter.emit_of_not_supported _ _ hsupported, if_neg hsupported]
      exact ⟨0, (s.tree, s.definitions), rfl, nofun, fun m _ => rfl⟩
  obtain ⟨definitions, v, hemit, hrewrites⟩ := hemit
  rw [← hmetadata] at hpass
  rw [← hdefinitions] at hemit
  let scripts := ScriptReport.allFound root (Asset.scripts r.assets)
  refine ⟨⟨decompiled, scripts, n.size, definitions⟩, ⟨v.1, n, s.decompiler, s.metadata, v.2⟩, n,
    exportAll_eq_ok.mpr ?_, hmem, hrewrites⟩
  exact ⟨hroot, decompiled, ⟨s.tree, n, s.decompiler⟩, scripts, ⟨s.tree, n, s.metadata⟩,
    definitions, v, hrun, hpass, hemit, rfl, rfl⟩

/-- Writing the definitions of listed assemblies again changes nothing exactly if the last assembly
in each of their files is listed. -/
theorem same_iff_settled {m n : DescriptorMap} {t u : FileTree} (h : Finished r root m t)
    (hsupported : AssemblyDefinition.supportedBy r.version)
    (hmem : ∀ d, d ∈ n.defined ↔ d ∈ m.defined ∧ d.name ∈ ManagedAssembly.listed r.assemblies)
    (hrewrites : AssemblyDefinition.Rewrites n.defined t u) :
    (∀ l, u.get? l = t.get? l) ↔ m.Settled (ManagedAssembly.listed r.assemblies) := by
  have hplaced : ∀ d ∈ m.defined, d.IsPlaced root :=
    fun d hd => h.placed d (List.mem_of_mem_filter hd)
  constructor
  · intro hsame a ha hlisted
    -- the first export has left `b` in the file, the second one `c`, and definitions tell names
    have ha' := (hmem a).mpr ⟨ha, hlisted⟩
    obtain ⟨b, hb⟩ := Option.ne_none_iff_exists'.mp
      (AssemblyDefinition.lastAt_ne_none t.workingDirectory ha)
    obtain ⟨c, hc⟩ := Option.ne_none_iff_exists'.mp
      (AssemblyDefinition.lastAt_ne_none t.workingDirectory ha')
    obtain ⟨x, hfile⟩ := h.contents hsupported _ b hb
    have hagain := hrewrites.last _ c hc
    rw [hsame, hfile] at hagain
    have hname : b.name = c.name := by
      simp only [Option.some.injEq, Entry.file.injEq] at hagain
      exact AssemblyDefinition.content_injective hagain.1
    obtain ⟨hb, hplace, hmax⟩ :=
      (AssemblyDefinition.lastAt_eq_some_iff m.sorted_defined).mp hb
    obtain ⟨hc, -⟩ := AssemblyDefinition.mem_of_lastAt_eq_some hc
    refine ⟨b, hb, ?_, ?_, fun d hd hpath => hmax d hd (by rw [hpath])⟩
    · rw [hname]
      exact ((hmem c).mp hc).2
    · exact (hplaced b hb).path_eq_of_place_eq (hplaced a ha) hplace
  · intro hsettled l
    -- the assembly of the greatest name is the same among all and among the listed ones
    cases hlast : AssemblyDefinition.lastAt t.workingDirectory n.defined l with
    | none => exact hrewrites.other l hlast
    | some d =>
        obtain ⟨hd, rfl, hmax⟩ :=
          (AssemblyDefinition.lastAt_eq_some_iff n.sorted_defined).mp hlast
        obtain ⟨hd, hlisted⟩ := (hmem d).mp hd
        obtain ⟨b, hb, hlisted', hpath, hgreatest⟩ := hsettled d hd hlisted
        have hfirst : AssemblyDefinition.lastAt t.workingDirectory m.defined
            ((AssemblyDefinition.path d).place t.workingDirectory) = some b := by
          refine (AssemblyDefinition.lastAt_eq_some_iff m.sorted_defined).mpr ?_
          refine ⟨hb, by rw [hpath], ?_⟩
          intro e he hplace
          exact hgreatest e he ((hplaced e he).path_eq_of_place_eq (hplaced d hd) hplace)
        have hname : b.name = d.name := by
          apply String.le_antisymm
          · exact hmax b ((hmem b).mpr ⟨hb, hlisted'⟩) (by rw [hpath])
          · exact hgreatest d hd rfl
        obtain ⟨x, hfile⟩ := h.contents hsupported _ b hfirst
        rw [hrewrites.last _ d hlast, hfile, isExecutableAt_of_file hfile, hname]

/-- After an export that decompiles nothing a second one succeeds. Only definition files of listed
assemblies may differ then, and nothing does exactly if the last assembly in each of them is listed
or the editor knows no definitions. -/
theorem exportAll_again (run : ProgramRunner) (program : String) (draw redraw : Nat → Guid)
    (r : ExportRequest) (root : Path) (t : FileTree) (decompiler redecompiler : δ)
    (metadata remetadata : GuidRecord) (written rewritten : List Path)
    (hlevel : r.settings.level = .stubs) {summary : ExportSummary}
    {s : ExportState δ GuidRecord (List Path)}
    (h : (Exporter.mk (.ofProgram run program) (some (.ofGuids draw))
        AssemblyDefinition.writer |>.exportAll r root).outcome
      { tree := t, decompiler, metadata, definitions := written } = (.ok summary, s)) :
    ∃ again u, (Exporter.mk (.ofProgram run program) (some (.ofGuids redraw))
          AssemblyDefinition.writer |>.exportAll r root).outcome
        { tree := s.tree, decompiler := redecompiler, metadata := remetadata,
          definitions := rewritten } = (.ok again, u) ∧
      ((∀ m, u.tree.get? m = s.tree.get? m) ↔
        (AssemblyDefinition.supportedBy r.version →
          s.descriptors.Settled (ManagedAssembly.listed r.assemblies))) ∧
      ∀ m, u.tree.get? m ≠ s.tree.get? m →
        ∃ d ∈ s.descriptors.defined, d.name ∈ ManagedAssembly.listed r.assemblies ∧
          m = s.tree.place (AssemblyDefinition.path d) := by
  have hidle : (Decompiler.ofProgram run program : Decompiler δ).IsIdle r.settings :=
    Decompiler.isIdle_ofProgram run program hlevel
  have hfinished := finished_of_exportAll hidle (Decompiler.isConfined_ofProgram run program hlevel)
    rfl (MetadataWriter.createsOnly_ofGuids draw) (MetadataWriter.isConfined_ofGuids draw root) rfl
    rfl h
  have hroot := (exportAll_eq_ok.mp h).1
  obtain ⟨again, u, n, hagain, hmem, hrewrites⟩ := exportAll_of_finished
    (e := ⟨.ofProgram run program, some (.ofGuids redraw), AssemblyDefinition.writer⟩)
    (s := { tree := s.tree, decompiler := redecompiler, metadata := remetadata,
            definitions := rewritten }) hidle rfl rfl hroot rfl hfinished
  refine ⟨again, u, hagain, ?_, fun m hm => ?_⟩
  · by_cases hsupported : AssemblyDefinition.supportedBy r.version
    · rw [if_pos hsupported] at hrewrites
      rw [same_iff_settled hfinished hsupported hmem hrewrites]
      exact ⟨fun hsettled _ => hsettled, fun hsettled => hsettled hsupported⟩
    · rw [if_neg hsupported] at hrewrites
      exact ⟨fun _ h => absurd h hsupported, fun _ m => hrewrites.other m rfl⟩
  · by_cases hsupported : AssemblyDefinition.supportedBy r.version
    · rw [if_pos hsupported] at hrewrites
      -- a location without a definition keeps its entry
      obtain ⟨d, hd⟩ := Option.ne_none_iff_exists'.mp fun hnone => hm (hrewrites.other m hnone)
      obtain ⟨hd, hplace⟩ := AssemblyDefinition.mem_of_lastAt_eq_some hd
      obtain ⟨hd, hlisted⟩ := (hmem d).mp hd
      exact ⟨d, hd, hlisted, hplace.symm⟩
    · rw [if_neg hsupported] at hrewrites
      exact absurd (hrewrites.other m rfl) hm

/-- Two assemblies share a definition file. The listed one has the greater name, so the second
export writes the same file again. -/
theorem exportAll_again_of_last_listed :
    let request : ExportRequest :=
      { assets := [.script ⟨"Weird:Game", "", "Boot"⟩]
        assemblies := [⟨"Weird?Game", ⟨"m/Weird?Game.dll"⟩⟩]
        settings := { level := .stubs }
        version := ⟨2021, 3, 0, none⟩ }
    let exported (draw : Nat → Guid) (t : FileTree) :=
      (Exporter.mk (.ofProgram (fun _ _ => pure ⟨.code 0, [], []⟩) "ilspycmd")
          (some (.ofGuids draw)) AssemblyDefinition.writer
        |>.exportAll request ⟨"Assets"⟩).outcome
        { tree := t, decompiler := (), metadata := {}, definitions := [] }
    ∃ summary s again u, exported (fun _ => .ofRandom 0) {} = (.ok summary, s) ∧
      s.descriptors.defined.map (·.name) = ["Weird:Game", "Weird?Game"] ∧
      exported (fun _ => .ofRandom 1) s.tree = (.ok again, u) ∧
      ∀ m, u.tree.get? m = s.tree.get? m := by
  intro request exported
  have hrun : (exported (fun _ => .ofRandom 0) {}).1 = .ok
        ⟨1, { stubsWritten := [⟨"Assets/Scripts/Weird_Game/Boot.cs"⟩]
              handedOff := [⟨"Assets/Scripts/Weird_Game/Boot.cs"⟩] }, 2, 2⟩ ∧
      (exported (fun _ => .ofRandom 0) {}).2.descriptors.defined =
        [⟨"Weird:Game", ⟨"Assets/Scripts/Weird_Game"⟩⟩,
         ⟨"Weird?Game", ⟨"Assets/Scripts/Weird_Game"⟩⟩] := by decide +kernel
  generalize hfirst : exported (fun _ => .ofRandom 0) {} = first at hrun
  obtain ⟨report, s⟩ := first
  obtain ⟨hreport, hdefined⟩ := hrun
  obtain rfl := hreport
  dsimp only at hdefined
  have hsettled : s.descriptors.Settled ["Weird?Game"] := by
    rw [DescriptorMap.Settled, hdefined]
    decide +kernel
  obtain ⟨again, u, hagain, hsame, -⟩ := exportAll_again _ _ _ (fun _ => .ofRandom 1) request
    ⟨"Assets"⟩ {} () () {} {} [] [] rfl hfirst
  exact ⟨_, s, again, u, rfl, by rw [hdefined]; rfl, hagain, hsame.mpr fun _ => hsettled⟩

/-- Here the one of which only a placeholder exists has the greater name. The second export does not
take it down any more, so the shared file changes. -/
theorem exportAll_again_changes_shared_definition :
    let request : ExportRequest :=
      { assets := [.script ⟨"Weird?Game", "", "Boot"⟩]
        assemblies := [⟨"Weird:Game", ⟨"m/Weird:Game.dll"⟩⟩]
        settings := { level := .stubs }
        version := ⟨2021, 3, 0, none⟩ }
    let exported (t : FileTree) :=
      (Exporter.mk (.ofProgram (fun _ _ => pure ⟨.code 0, [], []⟩) "ilspycmd")
          (some (.ofGuids fun _ => .ofRandom 0)) AssemblyDefinition.writer
        |>.exportAll request ⟨"Assets"⟩).outcome
        { tree := t, decompiler := (), metadata := {}, definitions := [] }
    let first := exported {}
    let second := exported first.2.tree
    let script : Path := ⟨"Assets/Scripts/Weird_Game/Boot.cs"⟩
    let file := ["Weird_Game.asmdef", "Weird_Game", "Scripts", "Assets"]
    first.1 = .ok ⟨1, { stubsWritten := [script], handedOff := [script] }, 2, 2⟩ ∧
      second.1 = .ok ⟨1, { existing := [script], conflicts := [script] }, 1, 1⟩ ∧
      first.2.tree.get? file = some (.file (AssemblyDefinition.content "Weird?Game") false) ∧
      second.2.tree.get? file = some (.file (AssemblyDefinition.content "Weird:Game") false) ∧
      second.2.tree.get? file ≠ first.2.tree.get? file := by
  decide +kernel

end Exporter

end GameExport
