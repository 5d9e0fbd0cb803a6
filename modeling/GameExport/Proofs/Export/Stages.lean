import GameExport.Export
import GameExport.Proofs.Job

/-! # How far the stages of an export go

A stage makes directories, writes texts and calls a helper, one after the other. What each of these
obeys the whole stage obeys, however it ends, and the assemblies that it takes down are told as
well.
-/

namespace GameExport

variable {σ : Type} {root : Path} {R : FileTree → FileTree → Prop} {good : Descriptor → Prop}

namespace Decompiler

variable {d : Decompiler σ} {settings : DecompileSettings}

/-- One assembly moves the files as far as its directory and the decompiler do. -/
theorem runOne_goesOn (hrefl : ∀ t, R t t) (htrans : ∀ s t u, R s t → R t u → R s u)
    {a : ManagedAssembly}
    (hmake : (Disk.makeDirectories
      (ManagedAssembly.directory root (Assembly.baseName a.name))).Moves R)
    (hdecompile : (d a (ManagedAssembly.directory root (Assembly.baseName a.name)) settings).Moves
      fun s u => R s.1 u.1)
    (hgood : good ⟨Assembly.baseName a.name,
      ManagedAssembly.directory root (Assembly.baseName a.name)⟩) :
    (d.runOne root settings a).Moves (Job.GoesOn R good) := by
  have hstay : ∀ j : Job σ, j.GoesOn R good j := .refl hrefl
  have hthen : ∀ i j k : Job σ, i.GoesOn R good j → j.GoesOn R good k → i.GoesOn R good k :=
    fun _ _ _ => .trans htrans
  unfold runOne
  dsimp only
  split
  · exact .pure hstay 0
  · refine .bind hthen ((Job.files_goesOn hmake).during _) fun _ => ?_
    refine .bind hthen ((Job.help_goesOn hdecompile).during _) fun _ => ?_
    exact .bind hthen (Job.takeDown_goesOn hrefl hgood) fun _ => .pure hstay 1

theorem run_goesOn (hrefl : ∀ t, R t t) (htrans : ∀ s t u, R s t → R t u → R s u)
    (hmake : ∀ name, (Disk.makeDirectories (ManagedAssembly.directory root name)).Moves R)
    (hdecompile : ∀ a name, (d a (ManagedAssembly.directory root name) settings).Moves
      fun s u => R s.1 u.1)
    (hgood : ∀ name, good ⟨name, ManagedAssembly.directory root name⟩)
    (as : List ManagedAssembly) : (d.run root settings as).Moves (Job.GoesOn R good) := by
  have hstay : ∀ j : Job σ, j.GoesOn R good j := .refl hrefl
  have hthen : ∀ i j k : Job σ, i.GoesOn R good j → j.GoesOn R good k → i.GoesOn R good k :=
    fun _ _ _ => .trans htrans
  induction as with
  | nil => exact .pure hstay 0
  | cons a as ih =>
      have hone := runOne_goesOn hrefl htrans (hmake _) (hdecompile a _) (hgood _)
      refine .bind hthen hone fun n => ?_
      exact .bind hthen ih fun m => .pure hstay (n + m)

end Decompiler

namespace ScriptAsset

variable {s : ScriptAsset}

theorem ensureSource_goesOn (hrefl : ∀ t, R t t) (htrans : ∀ s t u, R s t → R t u → R s u)
    (hmake : (Disk.makeDirectories (root.join s.target.folder)).Moves R)
    (hwrite : (Disk.writeText (s.file root) (Stub.source s.ns s.className)).Moves R)
    (hgood : good ⟨s.assembly, Stub.directory root s.assembly⟩) :
    (s.ensureSource root : Action (Job σ) Failure ScriptReport).Moves (Job.GoesOn R good) := by
  have hstay : ∀ j : Job σ, j.GoesOn R good j := .refl hrefl
  have hthen : ∀ i j k : Job σ, i.GoesOn R good j → j.GoesOn R good k → i.GoesOn R good k :=
    fun _ _ _ => .trans htrans
  unfold ensureSource
  refine .bind hthen (.ask hstay _) fun found => ?_
  split
  · exact .pure hstay _
  · refine .bind hthen ((Job.files_goesOn hmake).during _) fun _ => ?_
    refine .bind hthen ((Job.files_goesOn hwrite).during _) fun _ => ?_
    exact .bind hthen (Job.takeDown_goesOn hrefl hgood) fun _ => .pure hstay _

theorem ensureMetadata_goesOn (hrefl : ∀ t, R t t) (htrans : ∀ s t u, R s t → R t u → R s u)
    {w : MetadataWriter σ} (hw : (w s (s.file root)).Moves fun t u => R t.1 u.1) :
    (s.ensureMetadata root w).Moves (Job.GoesOn R good) := by
  have hstay : ∀ j : Job σ, j.GoesOn R good j := .refl hrefl
  have hthen : ∀ i j k : Job σ, i.GoesOn R good j → j.GoesOn R good k → i.GoesOn R good k :=
    fun _ _ _ => .trans htrans
  unfold ensureMetadata
  refine .bind hthen (.ask hstay _) fun found => ?_
  split
  · exact .pure hstay _
  · exact .bind hthen ((Job.help_goesOn hw).during _) fun _ => .pure hstay _

end ScriptAsset

/-- A pass moves the files as far as folders, placeholders and metadata do. -/
theorem materialize_goesOn (hrefl : ∀ t, R t t) (htrans : ∀ s t u, R s t → R t u → R s u)
    {w : Option (MetadataWriter σ)}
    (hmake : ∀ s : ScriptAsset, (Disk.makeDirectories (root.join s.target.folder)).Moves R)
    (hwrite : ∀ s : ScriptAsset,
      (Disk.writeText (s.file root) (Stub.source s.ns s.className)).Moves R)
    (hw : ∀ v ∈ w, ∀ s : ScriptAsset, (v s (s.file root)).Moves fun t u => R t.1 u.1)
    (hgood : ∀ assembly, good ⟨assembly, Stub.directory root assembly⟩) (ss : List ScriptAsset) :
    (materialize root w ss).Moves (Job.GoesOn R good) := by
  have hstay : ∀ j : Job σ, j.GoesOn R good j := .refl hrefl
  have hthen : ∀ i j k : Job σ, i.GoesOn R good j → j.GoesOn R good k → i.GoesOn R good k :=
    fun _ _ _ => .trans htrans
  have hone (s : ScriptAsset) : (s.materialize root w).Moves (Job.GoesOn R good) := by
    unfold ScriptAsset.materialize
    split
    · exact .pure hstay _
    refine .bind hthen ?_ fun source => ?_
    · exact s.ensureSource_goesOn hrefl htrans (hmake s) (hwrite s) (hgood s.assembly)
    cases w with
    | none => exact .pure hstay source
    | some v =>
        refine .bind hthen ?_ fun metadata => .pure hstay _
        exact s.ensureMetadata_goesOn hrefl htrans (hw v rfl s)
  induction ss with
  | nil => exact .pure hstay _
  | cons s ss ih =>
      refine .bind hthen (hone s) fun r => ?_
      exact .bind hthen ih fun rs => .pure hstay _

/-! ## Helpers -/

section Helpers

variable (hrefl : ∀ t, R t t) (htrans : ∀ s t u, R s t → R t u → R s u)

include hrefl htrans

theorem MetadataWriter.ofGuids_moves {file : Path}
    (hwrite : ∀ text, (Disk.writeText (Metadata.path file) text).Moves R) (draw : Nat → Guid)
    (s : ScriptAsset) : (ofGuids draw s file).Moves fun t u => R t.1 u.1 := by
  have hthen (t u v : FileTree × GuidRecord) (h : R t.1 u.1) (k : R u.1 v.1) : R t.1 v.1 :=
    htrans _ _ _ h k
  unfold ofGuids
  refine .bind hthen (.ask (fun t => hrefl t.1) _) fun record => ?_
  refine .bind hthen (Work.note_moves hrefl _) fun _ => ?_
  refine .bind hthen ((Work.files_moves (hwrite _)).during _) fun _ => ?_
  exact Work.note_moves hrefl _

theorem AssemblyDefinition.writer_moves {d : Descriptor}
    (hmake : (Disk.makeDirectories d.directory).Moves R)
    (hwrite : ∀ text, (Disk.writeText (path d) text).Moves R) :
    (writer d).Moves fun s u => R s.1 u.1 := by
  have hthen (s t u : FileTree × List Path) (h : R s.1 t.1) (k : R t.1 u.1) : R s.1 u.1 :=
    htrans _ _ _ h k
  unfold writer
  refine .bind hthen ((Work.files_moves hmake).during _) fun _ => ?_
  refine .bind hthen ((Work.files_moves (hwrite _)).during _) fun _ => ?_
  exact Work.note_moves hrefl _

/-- Writing definitions goes as far as writing each of them. -/
theorem DefinitionWriter.emit_moves {w : DefinitionWriter σ} {m : DescriptorMap}
    (h : ∀ d ∈ m.entries, (w d).Moves fun s u => R s.1 u.1) (supported : Bool) :
    (w.emit supported m).Moves fun s u => R s.1 u.1 := by
  have hthen (s t u : FileTree × σ) (h : R s.1 t.1) (k : R t.1 u.1) : R s.1 u.1 :=
    htrans _ _ _ h k
  have hall (ds : List Descriptor) (hds : ∀ d ∈ ds, (w d).Moves fun s u => R s.1 u.1) :
      (w.writeAll ds).Moves fun s u => R s.1 u.1 := by
    induction ds with
    | nil => exact .pure (fun s => hrefl s.1) 0
    | cons d ds ih =>
        refine .bind hthen (hds d List.mem_cons_self) fun _ => ?_
        have hrest := ih fun e he => hds e (List.mem_cons_of_mem d he)
        exact .bind hthen hrest fun n => .pure (fun s => hrefl s.1) _
  unfold emit
  split
  · exact hall _ fun d hd => h d (List.mem_of_mem_filter hd)
  · exact .pure (fun s => hrefl s.1) 0

end Helpers

end GameExport
