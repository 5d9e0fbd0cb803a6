import GameExport.Proofs.Materialize.Newcomers
import GameExport.Proofs.Materialize.Repeat

/-! # The exact effect of giving files to scripts

A pass writes the placeholders of the scripts that come first with a file that was not there, and
hands over those that come first with metadata that were not there. This holds exactly if the output
root hides nothing: a root that climbs out of a directory that is still missing hides the files that
are there until the first placeholder is written.
-/

namespace GameExport

open GameExport.Path FileTree ScriptAsset

variable {σ : Type}

def FileTree.occupied (t : FileTree) (p : Path) : Bool := (t.get? (t.place p)).isSome

def ScriptAsset.newSources (root : Path) (t : FileTree) (ss : List ScriptAsset) :
    List ScriptAsset :=
  newcomers root t.occupied ss

def ScriptAsset.newMetadata (root : Path) (t : FileTree) (ms : List ScriptAsset) :
    List ScriptAsset :=
  newcomers root (fun file => t.occupied (Metadata.path file)) ms

/-- What is found under a name after the assemblies of some scripts have been taken down. -/
def ScriptAsset.takenDown (root : Path) (ss : List ScriptAsset) (name : String) :
    Option Descriptor :=
  if ∃ s ∈ ss, s.assembly = name then some ⟨name, Stub.directory root name⟩ else none

theorem ScriptAsset.takenDown_concat (root : Path) (ss : List ScriptAsset) (s : ScriptAsset)
    (name : String) : takenDown root (ss ++ [s]) name = (takenDown root ss name).or
      (if s.assembly = name then some ⟨s.assembly, Stub.directory root s.assembly⟩ else none) := by
  have hmem : (∃ v ∈ ss ++ [s], v.assembly = name) ↔
      (∃ v ∈ ss, v.assembly = name) ∨ s.assembly = name := by
    simp [or_and_right, exists_or]
  unfold takenDown
  by_cases hold : ∃ v ∈ ss, v.assembly = name
  · rw [if_pos (hmem.mpr (Or.inl hold)), if_pos hold, Option.some_or]
  · by_cases hname : s.assembly = name
    · rw [if_pos (hmem.mpr (Or.inr hname)), if_neg hold, if_pos hname, hname, Option.none_or]
    · rw [if_neg (fun h => (hmem.mp h).elim hold hname), if_neg hold, if_neg hname, Option.none_or]

/-- A pass has dealt with the sources of some scripts and with the metadata of some scripts, and
with nothing else. -/
structure Materialized (root : Path) (ss ms : List ScriptAsset) (j : Job σ) (r : ScriptReport)
    (k : Job σ) : Prop where
  stubsWritten : r.stubsWritten = (newSources root j.tree ss).map (·.file root)
  existing : r.existing = (latecomers root j.tree.occupied ss).map (·.file root)
  handedOff : r.handedOff = (newMetadata root j.tree ms).map (·.file root)
  conflicts : r.conflicts =
    (latecomers root (fun file => j.tree.occupied (Metadata.path file)) ms).map (·.file root)
  workingDirectory : k.tree.workingDirectory = j.tree.workingDirectory
  source : ∀ s ∈ newSources root j.tree ss, k.tree.get? (j.tree.place (s.file root)) =
    some (.file (Stub.source s.ns s.className).toUTF8 false)
  directory : ∀ s ∈ newSources root j.tree ss, ∀ m ∈ j.tree.way (root.join s.target.folder),
    k.tree.get? m = some .directory
  metadata : ∀ s ∈ newMetadata root j.tree ms, ∃ content executable,
    k.tree.get? (j.tree.place (Metadata.path (s.file root))) = some (.file content executable)
  kept : ∀ {m e}, j.tree.get? m = some e → k.tree.get? m = some e
  nothingElse : ∀ {m}, j.tree.get? m = none → (k.tree.get? m).isSome →
    (∃ s ∈ newSources root j.tree ss,
      m = j.tree.place (s.file root) ∨ m ∈ j.tree.way (root.join s.target.folder)) ∨
    ∃ s ∈ newMetadata root j.tree ms, m = j.tree.place (Metadata.path (s.file root))
  descriptors : ∀ name, k.descriptors.get? name = (j.descriptors.get? name).or
    (takenDown root (newSources root j.tree ss) name)

/-- The output root hides nothing that the scripts need. The first script finds its file if it has
one, and where the root itself leads through the place of a file, something stands there. -/
structure FileTree.HidesNothing (t : FileTree) (root : Path) (ss ms : List ScriptAsset) : Prop where
  first : ∀ s ∈ ss.head?, t.occupied (s.file root) → t.contains (s.file root)
  source : ∀ s ∈ ss, t.place (s.file root) ∈ t.way root → t.occupied (s.file root)
  metadata : ∀ s ∈ ms, t.place (Metadata.path (s.file root)) ∈ t.way root →
    t.occupied (Metadata.path (s.file root))

variable {root : Path} {s : ScriptAsset} {ss ms : List ScriptAsset} {j k i : Job σ}
  {acc r : ScriptReport}

theorem FileTree.occupied_eq_false {t : FileTree} {p : Path} :
    t.occupied p = false ↔ t.get? (t.place p) = none := by
  rw [occupied, Option.isSome_eq_false_iff, Option.isNone_iff_eq_none]

namespace Materialized

theorem place (h : Materialized root ss ms j acc k) (p : Path) :
    k.tree.place p = j.tree.place p :=
  place_congr h.workingDirectory p

theorem way (h : Materialized root ss ms j acc k) (p : Path) : k.tree.way p = j.tree.way p :=
  way_congr h.workingDirectory p

theorem occupied (h : Materialized root ss ms j acc k) {p : Path} (hp : j.tree.occupied p) :
    (k.tree.get? (j.tree.place p)).isSome := by
  obtain ⟨e, he⟩ := Option.isSome_iff_exists.mp hp
  rw [h.kept he]
  rfl

theorem not_occupied (h : Materialized root ss ms j acc k) {p : Path}
    (hnone : k.tree.get? (j.tree.place p) = none) : j.tree.occupied p = false := by
  rw [Bool.eq_false_iff]
  intro hold
  have hsome := h.occupied hold
  rw [hnone] at hsome
  cases hsome

/-- No metadata file and no directory takes the place of a source file. -/
theorem occupied_source (h : Materialized root ss ms j acc k)
    (hroot : j.tree.place (s.file root) ∈ j.tree.way root → j.tree.occupied (s.file root))
    (hsome : (k.tree.get? (j.tree.place (s.file root))).isSome) :
    j.tree.occupied (s.file root) ∨ ∃ v ∈ ss, v.file root = s.file root := by
  by_cases hold : j.tree.occupied (s.file root)
  · exact Or.inl hold
  have hnone := occupied_eq_false.mp (by simpa using hold)
  rcases h.nothingElse hnone hsome with ⟨v, hv, hplace | hway⟩ | ⟨v, hv, hplace⟩
  · exact Or.inr ⟨v, (mem_of_mem_newcomers hv).1, (file_eq_of_place_eq hplace).symm⟩
  · exact Or.inl (hroot (mem_way_of_place_file_mem hway))
  · exact absurd hplace place_file_ne_place_metadata

/-- No source file and no directory takes the place of a metadata file. -/
theorem occupied_metadata (h : Materialized root ss ms j acc k)
    (hroot : j.tree.place (Metadata.path (s.file root)) ∈ j.tree.way root →
      j.tree.occupied (Metadata.path (s.file root)))
    (hsome : (k.tree.get? (j.tree.place (Metadata.path (s.file root)))).isSome) :
    j.tree.occupied (Metadata.path (s.file root)) ∨ ∃ v ∈ ms, v.file root = s.file root := by
  by_cases hold : j.tree.occupied (Metadata.path (s.file root))
  · exact Or.inl hold
  have hnone := occupied_eq_false.mp (by simpa using hold)
  rcases h.nothingElse hnone hsome with ⟨v, hv, hplace | hway⟩ | ⟨v, hv, hplace⟩
  · exact absurd hplace.symm place_file_ne_place_metadata
  · exact Or.inl (hroot (mem_way_of_place_metadata_mem hway))
  · exact Or.inr ⟨v, (mem_of_mem_newcomers hv).1, (file_eq_of_place_metadata_eq hplace).symm⟩

/-! ## One step more -/

/-- A script whose file was there, or was brought by an earlier script, is only reported. -/
theorem concat_existing (h : Materialized root ss ms j acc k)
    (hold : j.tree.occupied (s.file root) ∨ ∃ v ∈ ss, v.file root = s.file root) :
    Materialized root (ss ++ [s]) ms j (acc ++ { existing := [s.file root] }) k := by
  obtain ⟨hnew, hlate⟩ := comers_concat_old j.tree.occupied hold
  have hsources : newSources root j.tree (ss ++ [s]) = newSources root j.tree ss := hnew
  refine { h with
    stubsWritten := ?_, existing := ?_, handedOff := ?_, conflicts := ?_, source := ?_,
    directory := ?_, nothingElse := ?_, descriptors := ?_ }
  · rw [ScriptReport.stubsWritten_append, h.stubsWritten, hsources, List.append_nil]
  · rw [ScriptReport.existing_append, h.existing, hlate, List.map_append]
    rfl
  · rw [ScriptReport.handedOff_append, h.handedOff, List.append_nil]
  · rw [ScriptReport.conflicts_append, h.conflicts, List.append_nil]
  · rw [hsources]
    exact h.source
  · rw [hsources]
    exact h.directory
  · rw [hsources]
    exact h.nothingElse
  · rw [hsources]
    exact h.descriptors

/-- A script with a new file brings it, with the directories on its way and its assembly. -/
theorem concat_stub (h : Materialized root ss ms j acc k)
    (hnone : k.tree.get? (j.tree.place (s.file root)) = none)
    (hnew : ∀ v ∈ ss, v.file root ≠ s.file root) (hwrites : s.WritesStub root k.tree i.tree)
    (hdescriptors : i.descriptors =
      (k.descriptors.tryAdd s.assembly (Stub.directory root s.assembly)).2) :
    Materialized root (ss ++ [s]) ms j (acc ++ { stubsWritten := [s.file root] }) i := by
  obtain ⟨hfirst, hlate⟩ := comers_concat_new j.tree.occupied (h.not_occupied hnone) hnew
  have hsources : newSources root j.tree (ss ++ [s]) = newSources root j.tree ss ++ [s] := hfirst
  have hplace := h.place (s.file root)
  have hway := h.way (root.join s.target.folder)
  -- the placeholder stands where nothing was, so all that the pass has left is still there
  have hkept : ∀ {m e}, k.tree.get? m = some e → i.tree.get? m = some e := by
    intro m e hm
    apply hwrites.kept hm
    intro heq
    rw [heq, hplace, hnone] at hm
    cases hm
  constructor
  · rw [ScriptReport.stubsWritten_append, h.stubsWritten, hsources, List.map_append]
    rfl
  · rw [ScriptReport.existing_append, h.existing, hlate, List.append_nil]
  · rw [ScriptReport.handedOff_append, h.handedOff, List.append_nil]
  · rw [ScriptReport.conflicts_append, h.conflicts, List.append_nil]
  · exact hwrites.workingDirectory.trans h.workingDirectory
  · intro v hv
    rw [hsources] at hv
    rcases List.mem_append.mp hv with hv | hv
    · exact hkept (h.source v hv)
    · obtain rfl := List.mem_singleton.mp hv
      rw [← hplace] at hnone ⊢
      rw [hwrites.self, isExecutableAt_of_none hnone]
  · intro v hv m hm
    rw [hsources] at hv
    rcases List.mem_append.mp hv with hv | hv
    · exact hkept (h.directory v hv m hm)
    · obtain rfl := List.mem_singleton.mp hv
      rw [← hway] at hm
      exact hwrites.directory hm
  · intro v hv
    obtain ⟨c, x, hfile⟩ := h.metadata v hv
    exact ⟨c, x, hkept hfile⟩
  · exact fun hm => hkept (h.kept hm)
  -- whatever is new belongs to this script or to one before it
  · intro m hm hsome
    rw [hwrites.get?, hplace, hway] at hsome
    rw [hsources]
    split at hsome
    · next heq => exact Or.inl ⟨s, List.mem_append_right _ List.mem_cons_self, Or.inl heq⟩
    · split at hsome
      · next hmem => exact Or.inl ⟨s, List.mem_append_right _ List.mem_cons_self, Or.inr hmem⟩
      · rcases h.nothingElse hm hsome with ⟨v, hv, hm⟩ | hmeta
        · exact Or.inl ⟨v, List.mem_append_left _ hv, hm⟩
        · exact Or.inr hmeta
  · intro name
    rw [hdescriptors, DescriptorMap.get?_tryAdd, h.descriptors, Option.or_assoc, hsources,
      takenDown_concat]

/-- A script whose metadata were there, or were brought by an earlier script, is only reported. -/
theorem concat_conflict (h : Materialized root ss ms j acc k)
    (hold : j.tree.occupied (Metadata.path (s.file root)) ∨ ∃ v ∈ ms, v.file root = s.file root) :
    Materialized root ss (ms ++ [s]) j (acc ++ { conflicts := [s.file root] }) k := by
  obtain ⟨hnew, hlate⟩ :=
    comers_concat_old (fun file => j.tree.occupied (Metadata.path file)) hold
  have hmetadata : newMetadata root j.tree (ms ++ [s]) = newMetadata root j.tree ms := hnew
  refine { h with
    stubsWritten := ?_, existing := ?_, handedOff := ?_, conflicts := ?_, metadata := ?_,
    nothingElse := ?_ }
  · rw [ScriptReport.stubsWritten_append, h.stubsWritten, List.append_nil]
  · rw [ScriptReport.existing_append, h.existing, List.append_nil]
  · rw [ScriptReport.handedOff_append, h.handedOff, hmetadata, List.append_nil]
  · rw [ScriptReport.conflicts_append, h.conflicts, hlate, List.map_append]
    rfl
  · rw [hmetadata]
    exact h.metadata
  · rw [hmetadata]
    exact h.nothingElse

/-- A script without metadata gets them and nothing else. -/
theorem concat_handedOff (h : Materialized root ss ms j acc k)
    (hnone : k.tree.get? (j.tree.place (Metadata.path (s.file root))) = none)
    (hnew : ∀ v ∈ ms, v.file root ≠ s.file root) {content : ByteArray} {executable : Bool}
    (hputs : Puts k.tree (j.tree.place (Metadata.path (s.file root))) (.file content executable)
      i.tree) (hdescriptors : i.descriptors = k.descriptors) :
    Materialized root ss (ms ++ [s]) j (acc ++ { handedOff := [s.file root] }) i := by
  obtain ⟨hfirst, hlate⟩ := comers_concat_new
    (fun file => j.tree.occupied (Metadata.path file)) (h.not_occupied hnone) hnew
  have hmetadata : newMetadata root j.tree (ms ++ [s]) = newMetadata root j.tree ms ++ [s] := hfirst
  have hkept : ∀ {m e}, k.tree.get? m = some e → i.tree.get? m = some e := by
    intro m e hm
    rw [hputs.of_ne, hm]
    intro heq
    rw [heq, hnone] at hm
    cases hm
  constructor
  · rw [ScriptReport.stubsWritten_append, h.stubsWritten, List.append_nil]
  · rw [ScriptReport.existing_append, h.existing, List.append_nil]
  · rw [ScriptReport.handedOff_append, h.handedOff, hmetadata, List.map_append]
    rfl
  · rw [ScriptReport.conflicts_append, h.conflicts, hlate, List.append_nil]
  · exact hputs.workingDirectory.trans h.workingDirectory
  · exact fun v hv => hkept (h.source v hv)
  · exact fun v hv m hm => hkept (h.directory v hv m hm)
  · intro v hv
    rw [hmetadata] at hv
    rcases List.mem_append.mp hv with hv | hv
    · obtain ⟨c, x, hfile⟩ := h.metadata v hv
      exact ⟨c, x, hkept hfile⟩
    · obtain rfl := List.mem_singleton.mp hv
      exact ⟨content, executable, hputs.self⟩
  · exact fun hm => hkept (h.kept hm)
  · intro m hm hsome
    rw [hputs.get?] at hsome
    rw [hmetadata]
    split at hsome
    · next heq => exact Or.inr ⟨s, List.mem_append_right _ List.mem_cons_self, heq⟩
    · rcases h.nothingElse hm hsome with hsource | ⟨v, hv, hm⟩
      · exact Or.inl hsource
      · exact Or.inr ⟨v, List.mem_append_left _ hv, hm⟩
  · rw [hdescriptors]
    exact h.descriptors

end Materialized

end GameExport
