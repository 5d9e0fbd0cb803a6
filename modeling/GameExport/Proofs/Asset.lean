import GameExport.Asset
import GameExport.Proofs.Json.Record

/-! # Reading assets

The members of an asset are scanned for its type while the other values are kept. Then the members
without the type are read as the type says. A value that may be kept is whole.
-/

namespace GameExport

open Json Json.Decoder

/-! ## What is kept is whole -/

theorem isBroken_of_strictLeafFault {l : Leaf} (h : Node.strictLeafFault l = none) :
    l.isBroken = false := by
  cases l with
  | string s =>
      cases htext : s.text with
      | error f => simp [Node.strictLeafFault, htext] at h
      | ok t => simp [Leaf.isBroken, s.fault_eq_none htext]
  | cutNumber atEnd => cases h
  | cutWord f => cases h
  | null => rfl
  | bool b => rfl
  | number n => rfl

theorem strictItems_eq_none {depth : Nat} {ns : List Node} :
    Node.strictItems depth ns = none ↔ ∀ n ∈ ns, n.strictFault depth = none := by
  induction ns with
  | nil => simp [Node.strictItems]
  | cons n ns ih =>
      rw [Node.strictItems, Option.or_eq_none_iff, ih, List.forall_mem_cons]

/-- An object may be kept if its keys are names and its values may be kept. -/
theorem strictMembers_eq_none {depth : Nat} {ms : List (Node × Node)} :
    Node.strictMembers depth ms = none ↔
      ∀ m ∈ ms, (∃ name, m.1.keyText = .ok name) ∧ m.2.strictFault depth = none := by
  induction ms with
  | nil => simp [Node.strictMembers]
  | cons m ms ih =>
      rw [Node.strictMembers, Option.or_eq_none_iff, Option.or_eq_none_iff, ih,
        List.forall_mem_cons]
      cases m.1.keyText <;> simp

/-- A value that may be kept is whole. -/
theorem isWhole_of_strictFault {n : Node} {depth : Nat} (h : n.strictFault depth = none) :
    n.IsWhole := by
  induction n using Node.induction generalizing depth with
  | leaf l => exact Node.isWhole_leaf.mpr (isBroken_of_strictLeafFault h)
  | array ns fault ih =>
      rw [Node.strictFault] at h
      split at h
      · obtain ⟨hns, hfault⟩ := Option.or_eq_none_iff.mp h
        exact Node.isWhole_array.mpr
          ⟨fun n hn => ih n hn (strictItems_eq_none.mp hns n hn), hfault⟩
      · cases h
  | object ms fault ih =>
      rw [Node.strictFault] at h
      split at h
      · obtain ⟨hms, hfault⟩ := Option.or_eq_none_iff.mp h
        refine Node.isWhole_object.mpr ⟨fun m hm => ?_, hfault⟩
        obtain ⟨⟨name, hname⟩, hvalue⟩ := strictMembers_eq_none.mp hms m hm
        exact ⟨Node.isKey_of_keyText hname, (ih m hm).2 hvalue⟩
      · cases h
  | broken f => cases h

namespace Asset

/-! ## The type among the members -/

/-- The values of the members that are called `type`. -/
def typesOf (ms : List (Node × Node)) : List Node :=
  ms.filterMap fun m => if m.1.keyText = .ok "type" then some m.2 else none

/-- A member that holds the type, or a value that may be kept. -/
def IsPart (depth : Nat) (m : Node × Node) : Prop :=
  ∃ name, m.1.keyText = .ok name ∧ (name = "type" ∨ m.2.strictFault depth = none)

section Scan

variable {p : Place} {kind : Option Kind} {m : Node × Node} {name : String}

theorem typesOf_cons_of_type (hm : m.1.keyText = .ok "type") (ms : List (Node × Node)) :
    typesOf (m :: ms) = m.2 :: typesOf ms := by
  rw [typesOf, List.filterMap_cons, if_pos hm]
  rfl

theorem typesOf_cons_of_other (hm : m.1.keyText = .ok name) (hname : name ≠ "type")
    (ms : List (Node × Node)) : typesOf (m :: ms) = typesOf ms := by
  have hkey : m.1.keyText ≠ .ok "type" := by
    rw [hm]
    exact fun heq => hname (Except.ok.inj heq)
  rw [typesOf, List.filterMap_cons, if_neg hkey]
  rfl

theorem dropType_cons_of_type (hm : m.1.keyText = .ok "type") (ms : List (Node × Node)) :
    dropType (m :: ms) = dropType ms :=
  List.filter_cons_of_neg (by simp [hm])

/-- A type that is met once more is refused, and the first one is remembered. -/
theorem scanMembers_cons_of_type (hm : m.1.keyText = .ok "type") (ms : List (Node × Node)) :
    scanMembers p kind (m :: ms) =
      if kind.isSome then .error (.duplicateField "type")
      else decodeType m.2 >>= fun found => scanMembers p (some found) ms := by
  obtain ⟨k, v⟩ := m
  dsimp only at hm
  rw [scanMembers, hm]
  cases kind <;> rfl

/-- A member beside the type only has to be a value that may be kept. -/
theorem scanMembers_cons_of_other (hm : m.1.keyText = .ok name) (hname : name ≠ "type")
    (ms : List (Node × Node)) :
    scanMembers p kind (m :: ms) =
      require (m.2.strictFault p.depth) >>= fun _ => scanMembers p kind ms := by
  obtain ⟨k, v⟩ := m
  dsimp only at hm
  rw [scanMembers, hm]
  exact if_neg hname

/-- Members are scanned if each is a part and one of them, at most, is the type. -/
theorem scanMembers_eq_ok {found : Option Kind} {ms : List (Node × Node)} :
    scanMembers p kind ms = .ok found ↔ (∀ m ∈ ms, IsPart p.depth m) ∧
      (typesOf ms = [] ∧ found = kind ∨
        kind = none ∧ ∃ v k, typesOf ms = [v] ∧ decodeType v = .ok k ∧ found = some k) := by
  induction ms generalizing kind with
  | nil => simp [scanMembers, typesOf, eq_comm]
  | cons m ms ih =>
      rw [List.forall_mem_cons]
      cases hkey : m.1.keyText with
      | error e =>
          have hleft : scanMembers p kind (m :: ms) ≠ .ok found := by
            obtain ⟨k, v⟩ := m
            dsimp only at hkey
            rw [scanMembers, hkey]
            exact nofun
          have hright : ¬ IsPart p.depth m := by
            rintro ⟨name, hname, -⟩
            rw [hkey] at hname
            cases hname
          simp [hleft, hright]
      | ok name =>
          by_cases htype : name = "type"
          · rw [htype] at hkey
            have hpart : IsPart p.depth m := ⟨"type", hkey, Or.inl rfl⟩
            rw [scanMembers_cons_of_type hkey, typesOf_cons_of_type hkey]
            cases kind with
            | some k => simp
            | none =>
                rw [if_neg (by simp), bind_eq_ok]
                simp only [ih, hpart, true_and, reduceCtorEq, false_and, false_or, or_false,
                  List.cons.injEq]
                constructor
                · rintro ⟨k, hk, hms, htypes, hfound⟩
                  exact ⟨hms, m.2, k, ⟨rfl, htypes⟩, hk, hfound⟩
                · rintro ⟨hms, v, k, ⟨rfl, htypes⟩, hk, hfound⟩
                  exact ⟨k, hk, hms, htypes, hfound⟩
          · have hpart : IsPart p.depth m ↔ m.2.strictFault p.depth = none := by
              constructor
              · rintro ⟨name', hname', hvalue⟩
                rw [hkey] at hname'
                obtain rfl := Except.ok.inj hname'
                exact hvalue.resolve_left htype
              · exact fun hvalue => ⟨name, hkey, Or.inr hvalue⟩
            rw [scanMembers_cons_of_other hkey htype, typesOf_cons_of_other hkey htype,
              bind_eq_ok, hpart]
            simp only [require_eq_ok, ih]
            constructor
            · rintro ⟨_, hvalue, hms, hrest⟩
              exact ⟨⟨hvalue, hms⟩, hrest⟩
            · rintro ⟨⟨hvalue, hms⟩, hrest⟩
              exact ⟨(), hvalue, hms, hrest⟩

end Scan

section OtherNames

variable {ms : List (Node × Node)}
  (h : ∀ m ∈ ms, ∃ name, m.1.keyText = .ok name ∧ name ≠ "type")

include h

theorem typesOf_eq_nil : typesOf ms = [] := by
  rw [typesOf, List.filterMap_eq_nil_iff]
  intro m hm
  obtain ⟨name, hname, hne⟩ := h m hm
  rw [hname]
  exact if_neg fun heq => hne (Except.ok.inj heq)

theorem dropType_eq_self : dropType ms = ms := by
  rw [dropType, List.filter_eq_self]
  intro m hm
  obtain ⟨name, hname, hne⟩ := h m hm
  rw [hname]
  exact decide_eq_true hne

theorem isPart_iff {depth : Nat} :
    (∀ m ∈ ms, IsPart depth m) ↔ ∀ n ∈ ms.map Prod.snd, n.strictFault depth = none := by
  rw [List.forall_mem_map]
  refine forall₂_congr fun m hm => ?_
  obtain ⟨name, hname, hne⟩ := h m hm
  constructor
  · rintro ⟨name', hname', hvalue⟩
    rw [hname] at hname'
    obtain rfl := Except.ok.inj hname'
    exact hvalue.resolve_left hne
  · exact fun hvalue => ⟨name, hname, Or.inr hvalue⟩

end OtherNames

/-- An object is an asset if one member is the type, and the others are what it wants. -/
theorem decode_object_eq_ok {p : Place} {ms : List (Node × Node)} {fault : Option Fault}
    {a : Asset} : decode p (.object ms fault) = .ok a ↔
      fault = none ∧ (∀ m ∈ ms, IsPart p.inner.depth m) ∧
        ∃ v k, typesOf ms = [v] ∧ decodeType v = .ok k ∧
          decodeKind k ⟨.kept, p.depth⟩ (.object (dropType ms) none) = .ok a := by
  rw [decode, bind_eq_ok]
  constructor
  · rintro ⟨kind, hscan, h⟩
    obtain ⟨_, hfault, h⟩ := bind_eq_ok.mp h
    obtain ⟨hparts, hkind⟩ := scanMembers_eq_ok.mp hscan
    rcases hkind with ⟨-, rfl⟩ | ⟨-, v, k, htypes, hk, rfl⟩
    · cases h
    · exact ⟨require_eq_ok.mp hfault, hparts, v, k, htypes, hk, h⟩
  · rintro ⟨rfl, hparts, v, k, htypes, hk, h⟩
    have hscan : scanMembers p.inner none ms = .ok (some k) :=
      scanMembers_eq_ok.mpr ⟨hparts, Or.inr ⟨rfl, v, k, htypes, hk, rfl⟩⟩
    exact ⟨some k, hscan, bind_eq_ok.mpr ⟨(), rfl, h⟩⟩

/-- An array is an asset if its first item is the type, and the others are what it wants. -/
theorem decode_array_eq_ok {p : Place} {first : Node} {rest : List Node} {fault : Option Fault}
    {a : Asset} : decode p (.array (first :: rest) fault) = .ok a ↔
      fault = none ∧ ∃ k, decodeType first = .ok k ∧
        (∀ n ∈ rest, n.strictFault p.inner.depth = none) ∧
          decodeKind k ⟨.kept, p.depth⟩ (.array rest none) = .ok a := by
  rw [decode, bind_eq_ok]
  constructor
  · rintro ⟨k, hk, h⟩
    obtain ⟨_, hkept, hread⟩ := bind_eq_ok.mp h
    obtain ⟨hrest, hfault⟩ := Option.or_eq_none_iff.mp (require_eq_ok.mp hkept)
    exact ⟨hfault, k, hk, strictItems_eq_none.mp hrest, hread⟩
  · rintro ⟨rfl, k, hk, hrest, hread⟩
    have hkept : (Node.strictItems p.inner.depth rest).or none = none := by
      rw [strictItems_eq_none.mpr hrest, Option.or_none]
    exact ⟨k, hk, bind_eq_ok.mpr ⟨(), require_eq_ok.mpr hkept, hread⟩⟩

/-! ## Assets are read strictly -/

theorem isWhole_of_decodeType {n : Node} {k : Kind} (h : decodeType n = .ok k) : n.IsWhole := by
  obtain ⟨name, hname, -⟩ := bind_eq_ok.mp h
  unfold variantName at hname
  split at hname
  · exact isWhole_of_ofSpelling hname
  · cases hname

theorem isStrict_decode : IsStrict decode := by
  intro p n a h
  cases n with
  | leaf l => cases h
  | broken f => cases h
  | object ms fault =>
      obtain ⟨hfault, hparts, v, k, htypes, hk, -⟩ := decode_object_eq_ok.mp h
      refine Node.isWhole_object.mpr ⟨fun m hm => ?_, hfault⟩
      obtain ⟨name, hname, hvalue⟩ := hparts m hm
      refine ⟨Node.isKey_of_keyText hname, ?_⟩
      rcases hvalue with rfl | hvalue
      · have hmem : m.2 ∈ typesOf ms :=
          List.mem_filterMap.mpr ⟨m, hm, if_pos hname⟩
        rw [htypes, List.mem_singleton] at hmem
        rw [hmem]
        exact isWhole_of_decodeType hk
      · exact isWhole_of_strictFault hvalue
  | array ns fault =>
      cases ns with
      | nil =>
          rw [decode] at h
          obtain ⟨_, -, h⟩ := bind_eq_ok.mp h
          cases h
      | cons first rest =>
          obtain ⟨hfault, k, hk, hrest, -⟩ := decode_array_eq_ok.mp h
          exact Node.isWhole_array.mpr ⟨List.forall_mem_cons.mpr
            ⟨isWhole_of_decodeType hk, fun n hn => isWhole_of_strictFault (hrest n hn)⟩, hfault⟩

end Asset

end GameExport
