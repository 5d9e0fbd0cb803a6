import GameExport.Config
import GameExport.Manifest
import GameExport.AssemblyDefinition
import GameExport.Proofs.Asset
import GameExport.Proofs.Json.RoundTrip

/-! # Reading back written records

Configurations, manifests, assemblies, definitions and assets are read back as they were, whatever
is in their texts and lists. An asset is told by its type, which is written before its other parts.
-/

namespace GameExport

open Json Json.Decoder

/-! ## Configurations -/

namespace WorkspaceConfig

theorem nodup_names : (record.fields.map Field.name).Nodup := by decide

theorem gives (c : WorkspaceConfig) : decode.Gives c.toJson c := by
  have hrecord := ((RecordDecoder.Gives.pure mk).optional "rootName" "temp"
    (gives_string c.rootName)).optional "randomNameLength" 10 (gives_size c.nameLength)
  exact hrecord.decode nodup_names _

end WorkspaceConfig

theorem LanguageVersion.lookup_name (l : LanguageVersion) : table.lookup l.name = some l := by
  cases l <;> rfl

theorem ContentLevel.lookup_name (l : ContentLevel) : table.lookup l.name = some l := by
  cases l <;> rfl

namespace DecompileSettings

theorem nodup_names : (record.fields.map Field.name).Nodup := by decide

theorem gives (s : DecompileSettings) : decode.Gives s.toJson s := by
  have hrecord := ((RecordDecoder.Gives.pure mk).optional "languageVersion" .auto
    (gives_choice s.language.lookup_name)).optional "contentLevel" .bodies
      (gives_choice s.level.lookup_name)
  exact hrecord.decode nodup_names _

end DecompileSettings

namespace Config

theorem nodup_names : (record.fields.map Field.name).Nodup := by decide

theorem gives (c : Config) : decode.Gives c.toJson c := by
  have hrecord := ((((RecordDecoder.Gives.pure mk).optional "workspace" {}
    c.workspace.gives).optional "scripts" {} c.scripts.gives).optional "exportVersion"
      defaultExportVersion (gives_version c.exportVersion)).optional "decompilerCommand"
        defaultDecompilerCommand (gives_string c.decompilerCommand)
  exact hrecord.decode nodup_names _

end Config

/-! ## Assemblies -/

namespace AssemblyDefinition

theorem nodup_names : (record.fields.map Field.name).Nodup := by decide

theorem gives (d : AssemblyDefinition) : decode.Gives d.toJson d := by
  have hrecord := ((((((RecordDecoder.Gives.pure mk).required "name" (gives_string d.name)).optional
    "references" [] (gives_strings d.references)).optional "includePlatforms" []
      (gives_strings d.includePlatforms)).optional "excludePlatforms" []
        (gives_strings d.excludePlatforms)).optional "allowUnsafeCode" false
          (gives_bool d.allowUnsafeCode)).optional "autoReferenced" true
            (gives_bool d.autoReferenced)
  exact hrecord.decode nodup_names _

end AssemblyDefinition

namespace ManagedAssembly

theorem nodup_names : (record.fields.map Field.name).Nodup := by decide

theorem gives (a : ManagedAssembly) : decode.Gives a.toJson a := by
  have hrecord := ((RecordDecoder.Gives.pure fun name path => (⟨name, ⟨path⟩⟩ :
    ManagedAssembly)).required "name" (gives_string a.name)).required "path"
      (gives_path a.path.text)
  exact hrecord.decode nodup_names _

end ManagedAssembly

/-! ## Assets -/

namespace ScriptAsset

theorem nodup_names : (record.fields.map Field.name).Nodup := by decide

theorem gives (s : ScriptAsset) : decode.Gives s.toJson s := by
  have hrecord := (((RecordDecoder.Gives.pure mk).required "assemblyName"
    (gives_string s.assemblyName)).optional "namespace" "" (gives_string s.ns)).required
      "className" (gives_string s.className)
  exact hrecord.decode nodup_names _

end ScriptAsset

namespace Asset

theorem nodup_names : (otherRecord.fields.map Field.name).Nodup := by decide

theorem gives_other (classId : Int32) (name : String) :
    (otherRecord.decode "struct variant Asset::Other").Gives
      (.obj [("classId", .int classId.toInt), ("name", .str name)]) (.other classId name) := by
  have hrecord := ((RecordDecoder.Gives.pure Asset.other).required "classId"
    (gives_int32 classId)).required "name" (gives_string name)
  exact hrecord.decode nodup_names _

/-- A written value that may stand beside the type. -/
def IsKept (v : Json) : Prop := ∀ depth, v.node.strictFault depth = none

theorem isKept_str (s : String) : IsKept (.str s) := by
  intro depth
  have htext : (Spelling.ofString s).text = .ok s := Spelling.text_ofString s
  rw [node, Node.ofString, Node.strictFault, Node.strictLeafFault, htext]

theorem isKept_int32 (n : Int32) : IsKept (.int n.toInt) := by
  intro depth
  rw [node, Node.strictFault, Node.strictLeafFault, value_numeral_int32]
  rfl

/-- The members beside the type keep their names. -/
theorem names_written {members : List (String × Json)} (h : ∀ m ∈ members, m.1 ≠ "type") :
    ∀ m ∈ members.map fun m => (Node.ofString m.1, m.2.node),
      ∃ name, m.1.keyText = .ok name ∧ name ≠ "type" := by
  rw [List.forall_mem_map]
  exact fun m hm => ⟨m.1, Node.keyText_ofString m.1, h m hm⟩

/-- An asset is read as its type says, from the members behind the type. -/
theorem gives_tagged {tag : String} {kind : Kind} {members : List (String × Json)} {a : Asset}
    (htag : kinds.lookup tag = some kind) (hnames : ∀ m ∈ members, m.1 ≠ "type")
    (hkept : ∀ m ∈ members, IsKept m.2) (hkind : (decodeKind kind).Gives (.obj members) a) :
    decode.Gives (.obj (("type", .str tag) :: members)) a := by
  intro p
  have htype : decodeType (.ofString tag) = .ok kind :=
    bind_eq_ok.mpr ⟨tag, mapError_eq_ok.mpr (Spelling.text_ofString tag), by rw [variant, htag]⟩
  have hdrop : dropType ((.ofString "type", .ofString tag) ::
      members.map fun m => (.ofString m.1, m.2.node)) =
        members.map fun m => (.ofString m.1, m.2.node) := by
    rw [dropType_cons_of_type (Node.keyText_ofString _), dropType_eq_self (names_written hnames)]
  have hread := hkind ⟨.kept, p.depth⟩
  rw [node, memberNodes_eq] at hread ⊢
  rw [List.map_cons, decode_object_eq_ok]
  refine ⟨rfl, List.forall_mem_cons.mpr ⟨⟨"type", Node.keyText_ofString _, Or.inl rfl⟩, ?_⟩,
    .ofString tag, kind, ?_, htype, ?_⟩
  · rw [List.forall_mem_map]
    exact fun m hm => ⟨m.1, Node.keyText_ofString m.1, Or.inr (hkept m hm _)⟩
  · rw [typesOf_cons_of_type (Node.keyText_ofString _), typesOf_eq_nil (names_written hnames)]
    rfl
  · rw [← hread]
    exact congrArg (fun ms => decodeKind kind _ (.object ms none)) hdrop

/-- Every asset is read back from what is written for it. -/
theorem gives (a : Asset) : decode.Gives a.toJson a := by
  cases a with
  | script s =>
      have htag : kinds.lookup "script" = some .script := rfl
      have hnames : ∀ m ∈ s.members, m.1 ≠ "type" := by simp [ScriptAsset.members]
      have hkept : ∀ m ∈ s.members, IsKept m.2 := by simp [ScriptAsset.members, isKept_str]
      exact gives_tagged htag hnames hkept (s.gives.map Asset.script)
  | other classId name =>
      have htag : kinds.lookup "other" = some .other := rfl
      exact gives_tagged htag (by simp) (by simp [isKept_int32, isKept_str])
        (gives_other classId name)

end Asset

/-! ## Manifests -/

namespace Manifest

theorem nodup_names : (record.fields.map Field.name).Nodup := by decide

theorem gives_paths (ps : List Path) : paths.Gives (.strings (ps.map Path.text)) ps := by
  have hlist : (list path).Gives (.strings (ps.map Path.text)) (ps.map Path.text) :=
    .list fun s _ => gives_path s
  have hpaths := hlist.map (List.map Path.mk)
  rwa [List.map_map, show Path.mk ∘ Path.text = id from rfl, List.map_id] at hpaths

theorem gives (m : Manifest) : decode.Gives m.toJson m := by
  have hassets : (list Asset.decode).Gives (.arr (m.assets.map Asset.toJson)) m.assets :=
    .list fun a _ => a.gives
  have hrecord := (((RecordDecoder.Gives.pure mk).optional "inputs" []
    (gives_paths m.inputs)).optional "assemblies" [] (gives_paths m.assemblies)).optional "assets"
      [] hassets
  exact hrecord.decode nodup_names _

end Manifest

/-! ## All records -/

/-- Every record is read back from what is written for it. -/
theorem records_roundTrip :
    RoundTrips Config.decode Config.toJson ∧
    RoundTrips WorkspaceConfig.decode WorkspaceConfig.toJson ∧
    RoundTrips DecompileSettings.decode DecompileSettings.toJson ∧
    RoundTrips AssemblyDefinition.decode AssemblyDefinition.toJson ∧
    RoundTrips ManagedAssembly.decode ManagedAssembly.toJson ∧
    RoundTrips ScriptAsset.decode ScriptAsset.toJson ∧
    RoundTrips Asset.decode Asset.toJson ∧
    RoundTrips Manifest.decode Manifest.toJson :=
  ⟨roundTrips_of_gives Config.gives, roundTrips_of_gives WorkspaceConfig.gives,
    roundTrips_of_gives DecompileSettings.gives, roundTrips_of_gives AssemblyDefinition.gives,
    roundTrips_of_gives ManagedAssembly.gives, roundTrips_of_gives ScriptAsset.gives,
    roundTrips_of_gives Asset.gives, roundTrips_of_gives Manifest.gives⟩

end GameExport
