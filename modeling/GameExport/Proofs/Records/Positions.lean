import GameExport.Proofs.Json.Positions
import GameExport.Proofs.Records.Members
import GameExport.Proofs.Records.RoundTrip

/-! # Records by the positions of their values

Every record may be written as an array of its values. An asset in that form starts with its type,
and the parts behind it are those of a script asset or of another asset.
-/

namespace GameExport

open Json Json.Decoder Json.Grammar

/-! ## Records -/

theorem WorkspaceConfig.declares : record.Declares
    [("rootName", some (.str "temp")), ("randomNameLength", some (.int 10))] :=
  ((RecordDecoder.Declares.pure mk).optional "rootName" isStrict_string
    (gives_string "temp")).optional "randomNameLength" isStrict_size (gives_size 10)

theorem DecompileSettings.declares : record.Declares
    [("languageVersion", some (.str "Auto")), ("contentLevel", some (.str "level2"))] :=
  ((RecordDecoder.Declares.pure mk).optional "languageVersion" (isStrict_choice _)
    (gives_choice (LanguageVersion.lookup_name .auto))).optional "contentLevel" (isStrict_choice _)
      (gives_choice (ContentLevel.lookup_name .bodies))

theorem Config.declares : record.Declares
    [("workspace", some (WorkspaceConfig.toJson {})),
      ("scripts", some (DecompileSettings.toJson {})),
      ("exportVersion", some (.str "2021.3.0f1")),
      ("decompilerCommand", some (.str "ilspycmd"))] :=
  ((((RecordDecoder.Declares.pure mk).optional "workspace"
    (RecordDecoder.isStrict_decode WorkspaceConfig.isLawful _) (WorkspaceConfig.gives {})).optional
      "scripts" (RecordDecoder.isStrict_decode DecompileSettings.isLawful _)
        (DecompileSettings.gives {})).optional "exportVersion" isStrict_version
          (gives_version defaultExportVersion)).optional "decompilerCommand" isStrict_string
            (gives_string defaultDecompilerCommand)

theorem AssemblyDefinition.declares : record.Declares
    [("name", none), ("references", some (.arr [])), ("includePlatforms", some (.arr [])),
      ("excludePlatforms", some (.arr [])), ("allowUnsafeCode", some (.bool false)),
      ("autoReferenced", some (.bool true))] :=
  ((((((RecordDecoder.Declares.pure mk).required "name" isStrict_string).optional "references"
    isStrict_string.list (gives_strings [])).optional "includePlatforms" isStrict_string.list
      (gives_strings [])).optional "excludePlatforms" isStrict_string.list
        (gives_strings [])).optional "allowUnsafeCode" isStrict_bool (gives_bool false)).optional
          "autoReferenced" isStrict_bool (gives_bool true)

theorem ManagedAssembly.declares : record.Declares [("name", none), ("path", none)] :=
  ((RecordDecoder.Declares.pure _).required "name" isStrict_string).required "path" isStrict_path

theorem ScriptAsset.declares : record.Declares
    [("assemblyName", none), ("namespace", some (.str "")), ("className", none)] :=
  (((RecordDecoder.Declares.pure mk).required "assemblyName" isStrict_string).optional "namespace"
    isStrict_string (gives_string "")).required "className" isStrict_string

theorem Manifest.declares : record.Declares
    [("inputs", some (.arr [])), ("assemblies", some (.arr [])), ("assets", some (.arr []))] := by
  have hpaths : IsStrict paths := isStrict_path.list.map _
  have hassets : (list Asset.decode).Gives (.arr ([].map Asset.toJson)) [] := .list nofun
  exact (((RecordDecoder.Declares.pure mk).optional "inputs" hpaths (gives_paths [])).optional
    "assemblies" hpaths (gives_paths [])).optional "assets" Asset.isStrict_decode.list hassets

/-! ## Assets -/

namespace Asset

theorem declares_other : otherRecord.Declares [("classId", none), ("name", none)] :=
  ((RecordDecoder.Declares.pure Asset.other).required "classId" isStrict_int32).required "name"
    isStrict_string

def fieldsOf : Kind → List Field
  | .script => ScriptAsset.record.fields
  | .other => otherRecord.fields

/-- The fields beside the type are read alike from an array and from an object. -/
theorem decodeKind_array_iff_object {k : Kind} {p : Place} {ms : List (Node × Node)}
    (hms : RecordDecoder.InOrder (fieldsOf k) ms) {a : Asset} :
    decodeKind k p (.array (ms.map Prod.snd) none) = .ok a ↔
      decodeKind k p (.object ms none) = .ok a := by
  cases k with
  | script =>
      simp only [decodeKind, map_eq_ok]
      exact exists_congr fun s => and_congr_left' (RecordDecoder.decode_array_iff_object
        ScriptAsset.declares ScriptAsset.nodup_names hms)
  | other => exact RecordDecoder.decode_array_iff_object declares_other nodup_names hms

theorem ne_type_of_mem_fieldsOf {k : Kind} : ∀ field ∈ fieldsOf k, field.name ≠ "type" := by
  cases k <;> decide

/-- An asset is read alike from its type and the parts in their order, and from members that are
called so. -/
theorem decode_array_iff_object {p : Place} {m : Node × Node} {ms : List (Node × Node)} {k : Kind}
    (htype : m.1.keyText = .ok "type") (hk : decodeType m.2 = .ok k)
    (hms : RecordDecoder.InOrder (fieldsOf k) ms) {a : Asset} :
    decode p (.array ((m :: ms).map Prod.snd) none) = .ok a ↔
      decode p (.object (m :: ms) none) = .ok a := by
  have hnames : ∀ m ∈ ms, ∃ name, m.1.keyText = .ok name ∧ name ≠ "type" := by
    intro m hm
    obtain ⟨field, hfield, hname⟩ := hms.exists_field m hm
    exact ⟨field.name, hname, ne_type_of_mem_fieldsOf field hfield⟩
  have htypes : typesOf (m :: ms) = [m.2] := by
    rw [typesOf_cons_of_type htype, typesOf_eq_nil hnames]
  have hdrop : dropType (m :: ms) = ms := by
    rw [dropType_cons_of_type htype, dropType_eq_self hnames]
  have hpart : IsPart p.inner.depth m := ⟨"type", htype, Or.inl rfl⟩
  rw [List.map_cons, decode_array_eq_ok, decode_object_eq_ok, hdrop, List.forall_mem_cons,
    isPart_iff hnames]
  constructor
  · rintro ⟨-, k', hk', hkept, hread⟩
    obtain rfl : k = k' := Except.ok.inj (hk.symm.trans hk')
    exact ⟨rfl, ⟨hpart, hkept⟩, m.2, k, htypes, hk, (decodeKind_array_iff_object hms).mp hread⟩
  · rintro ⟨-, ⟨-, hkept⟩, v, k', hv, hk', hread⟩
    obtain rfl : m.2 = v := List.singleton_inj.mp (htypes.symm.trans hv)
    obtain rfl : k = k' := Except.ok.inj (hk.symm.trans hk')
    exact ⟨rfl, k, hk, hkept, (decodeKind_array_iff_object hms).mpr hread⟩

/-- Assets of the type are read alike from arrays that start with the type, and from objects whose
first member it is. -/
def ReadsTypeFirst (tag : String) (names : List String) : Prop :=
  ∀ (type : List Char) (items : List (List Char)), parse string (String.ofList type) = .ok tag →
    ReadsAlike decode ("type" :: names) (type :: items)

theorem decodeType_of_parse {type : List Char} {tag : String} {k : Kind} (hvalue : IsValue type)
    (h : parse string (String.ofList type) = .ok tag) (hk : kinds.lookup tag = some k) :
    decodeType (nodeOf type) = .ok k := by
  have hreads : Reads (String.ofList type).toList (nodeOf type) := by
    rw [String.toList_ofList]
    exact reads_value hvalue
  rw [parse_eq_of_read hreads.read] at h
  have hname : variantName (nodeOf type) = .ok tag := by
    unfold string at h
    split at h
    · next s hs =>
        rw [hs]
        exact h
    · cases h
  exact bind_eq_ok.mpr ⟨tag, hname, by rw [variant, hk]⟩

/-- An asset is read from an array that starts with its type. -/
theorem readsTypeFirst {tag : String} {k : Kind} (hk : kinds.lookup tag = some k) :
    ReadsTypeFirst tag ((fieldsOf k).map Field.name) := by
  intro type items htag ms text text' harray hobject hvalues hnamed a
  obtain _ | @⟨_, _, m, ms, htype, hms⟩ := hnamed
  · cases hvalues
  obtain ⟨hkey, hkeys⟩ := List.forall_mem_cons.mp fun m hm => (hobject.1 m hm).1
  have htypeText : m.value = type := (List.cons.inj hvalues).1
  rw [parse_array harray, parse_object hobject, ← hvalues, ← map_snd_node, List.map_cons]
  refine decode_array_iff_object (keyText_of_hasName hkey htype) ?_ (inOrder_of_named hms hkeys)
  rw [Member.node, htypeText]
  exact decodeType_of_parse (harray.1 type List.mem_cons_self) htag hk

end Asset

/-! ## All records -/

/-- Every record means the same as an array of its first values and as an object with the same
values by name, and so does an asset whose type comes first. -/
theorem records_readByPosition :
    ReadsByPosition Config.decode
      [("workspace", some (WorkspaceConfig.toJson {})),
        ("scripts", some (DecompileSettings.toJson {})),
        ("exportVersion", some (.str "2021.3.0f1")),
        ("decompilerCommand", some (.str "ilspycmd"))] ∧
    ReadsByPosition WorkspaceConfig.decode
      [("rootName", some (.str "temp")), ("randomNameLength", some (.int 10))] ∧
    ReadsByPosition DecompileSettings.decode
      [("languageVersion", some (.str "Auto")), ("contentLevel", some (.str "level2"))] ∧
    ReadsByPosition AssemblyDefinition.decode
      [("name", none), ("references", some (.arr [])), ("includePlatforms", some (.arr [])),
        ("excludePlatforms", some (.arr [])), ("allowUnsafeCode", some (.bool false)),
        ("autoReferenced", some (.bool true))] ∧
    ReadsByPosition ManagedAssembly.decode [("name", none), ("path", none)] ∧
    ReadsByPosition ScriptAsset.decode
      [("assemblyName", none), ("namespace", some (.str "")), ("className", none)] ∧
    ReadsByPosition Manifest.decode
      [("inputs", some (.arr [])), ("assemblies", some (.arr [])), ("assets", some (.arr []))] ∧
    Asset.ReadsTypeFirst "script" ["assemblyName", "namespace", "className"] ∧
    Asset.ReadsTypeFirst "other" ["classId", "name"] :=
  ⟨Config.declares.readsByPosition Config.nodup_names _,
    WorkspaceConfig.declares.readsByPosition WorkspaceConfig.nodup_names _,
    DecompileSettings.declares.readsByPosition DecompileSettings.nodup_names _,
    AssemblyDefinition.declares.readsByPosition AssemblyDefinition.nodup_names _,
    ManagedAssembly.declares.readsByPosition ManagedAssembly.nodup_names _,
    ScriptAsset.declares.readsByPosition ScriptAsset.nodup_names _,
    Manifest.declares.readsByPosition Manifest.nodup_names _,
    Asset.readsTypeFirst (k := .script) rfl, Asset.readsTypeFirst (k := .other) rfl⟩

/-- A configuration that ends behind its second part, and parts that are arrays themselves. -/
example : Config.parse "[[\"temp\",8],[\"CSharp9\"]]" =
    .ok { workspace := ⟨"temp", 8⟩, scripts := ⟨.cSharp9, .bodies⟩ } := by decide +kernel

end GameExport
