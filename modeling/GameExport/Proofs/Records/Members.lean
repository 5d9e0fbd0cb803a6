import GameExport.Config
import GameExport.Manifest
import GameExport.AssemblyDefinition
import GameExport.Proofs.Asset
import GameExport.Proofs.Json.Members

/-! # Records by the names of their members

Every record is read by the names of its members. An asset is read in two steps, first its type and
then the parts beside it, and the order of its members does not matter either.
-/

namespace GameExport

open Json Json.Decoder

/-! ## Records -/

theorem WorkspaceConfig.isLawful : record.IsLawful :=
  ((RecordDecoder.IsLawful.pure mk).optional isStrict_string "temp").optional isStrict_size 10

theorem DecompileSettings.isLawful : record.IsLawful :=
  ((RecordDecoder.IsLawful.pure mk).optional (isStrict_choice _) .auto).optional
    (isStrict_choice _) .bodies

theorem Config.isLawful : record.IsLawful :=
  ((((RecordDecoder.IsLawful.pure mk).optional
    (RecordDecoder.isStrict_decode WorkspaceConfig.isLawful _) {}).optional
      (RecordDecoder.isStrict_decode DecompileSettings.isLawful _) {}).optional isStrict_version
        defaultExportVersion).optional isStrict_string defaultDecompilerCommand

theorem AssemblyDefinition.isLawful : record.IsLawful :=
  ((((((RecordDecoder.IsLawful.pure mk).required isStrict_string).optional isStrict_string.list
    []).optional isStrict_string.list []).optional isStrict_string.list []).optional isStrict_bool
      false).optional isStrict_bool true

theorem ManagedAssembly.isLawful : record.IsLawful :=
  ((RecordDecoder.IsLawful.pure _).required isStrict_string).required isStrict_path

theorem ScriptAsset.isLawful : record.IsLawful :=
  (((RecordDecoder.IsLawful.pure mk).required isStrict_string).optional isStrict_string "").required
    isStrict_string

/-! ## Assets -/

namespace Asset

theorem isLawful_other : otherRecord.IsLawful :=
  ((RecordDecoder.IsLawful.pure Asset.other).required isStrict_int32).required isStrict_string

/-- The members beside the type may come in any order. -/
theorem decodeKind_perm {k : Kind} {p : Place} {ms ms' : List (Node × Node)} {a : Asset}
    (h : decodeKind k p (.object ms none) = .ok a) (hperm : ms'.Perm ms) :
    decodeKind k p (.object ms' none) = .ok a := by
  cases k with
  | script =>
      obtain ⟨s, hs, rfl⟩ := map_eq_ok.mp h
      exact map_eq_ok.mpr ⟨s, RecordDecoder.decode_perm ScriptAsset.isLawful hs hperm, rfl⟩
  | other =>
      have hother : otherRecord.decode "struct variant Asset::Other" p (.object ms none) = .ok a := h
      exact RecordDecoder.decode_perm isLawful_other hother hperm

/-- The type and the other members of an asset may stand in any order. -/
theorem decode_perm {p : Place} {ms ms' : List (Node × Node)} {a : Asset}
    (h : decode p (.object ms none) = .ok a) (hperm : ms'.Perm ms) :
    decode p (.object ms' none) = .ok a := by
  obtain ⟨-, hparts, v, k, htypes, hk, hread⟩ := decode_object_eq_ok.mp h
  have htypes' : typesOf ms' = [v] := List.perm_singleton.mp (htypes ▸ hperm.filterMap _)
  exact decode_object_eq_ok.mpr ⟨rfl, fun m hm => hparts m (hperm.subset hm), v, k, htypes', hk,
    decodeKind_perm hread (hperm.filter _)⟩

end Asset

theorem Manifest.isLawful : record.IsLawful := by
  have hpaths : IsStrict paths := isStrict_path.list.map _
  exact (((RecordDecoder.IsLawful.pure mk).optional hpaths []).optional hpaths []).optional
    Asset.isStrict_decode.list []

/-! ## All records -/

end GameExport
