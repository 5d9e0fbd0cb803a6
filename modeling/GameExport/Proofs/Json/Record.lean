import Mathlib.Data.List.Nodup
import GameExport.Json.Decoder
import GameExport.Proofs.Json.Reader

/-! # Records as objects

What a record is read as depends on the members whose keys are names of fields, and not on their
order. All other members only have to be well formed, and no field may come twice. All of that holds
for any record that is put together from fields whose values are read strictly.
-/

namespace GameExport.Json

/-! ## Strict decoders -/

/-- A text is told only by a spelling without a fault. -/
theorem fault_eq_none_of_charsOfUnits {us : List TextUnit} {f : Option Fault} {cs : List Char}
    (h : charsOfUnits us f = .ok cs) : f = none := by
  fun_induction charsOfUnits us f generalizing cs with
  | case1 => rfl
  | case2 => cases h
  | case3 c us f ih =>
      obtain ⟨rest, hrest, -⟩ := map_eq_ok.mp h
      exact ih hrest
  | case4 => cases h
  | case5 high f hhigh low rest hlow ih =>
      obtain ⟨tail, htail, -⟩ := map_eq_ok.mp h
      exact ih htail
  | case6 => cases h
  | case7 => cases h
  | case8 => cases h

/-- A string whose characters can be told is whole. -/
theorem Spelling.fault_eq_none {s : Spelling} {t : String} (h : s.text = .ok t) :
    s.fault = none := by
  obtain ⟨cs, hcs, -⟩ := map_eq_ok.mp h
  exact fault_eq_none_of_charsOfUnits hcs

theorem Node.isKey_of_keyText {k : Node} {name : String} (h : k.keyText = .ok name) : k.IsKey := by
  unfold keyText at h
  split at h
  · next s => exact ⟨s, rfl, s.fault_eq_none h⟩
  · cases h
  · cases h

namespace Decoder

variable {α β : Type}

/-- Only values that are whole are read. -/
def IsStrict (d : Decoder α) : Prop := ∀ p n a, d p n = .ok a → n.IsWhole

theorem isWhole_of_ofSpelling {s : Spelling} {t : String} (h : ofSpelling s = .ok t) :
    (Node.leaf (.string s)).IsWhole :=
  Node.isWhole_leaf.mpr (by simp [Leaf.isBroken, s.fault_eq_none (mapError_eq_ok.mp h)])

theorem isStrict_string : IsStrict string := by
  intro p n a h
  unfold string at h
  split at h
  · exact isWhole_of_ofSpelling h
  · cases h

theorem isStrict_path : IsStrict path := by
  intro p n a h
  unfold path at h
  split at h
  · exact isWhole_of_ofSpelling h
  · cases h

theorem isStrict_bool : IsStrict bool := by
  intro p n a h
  unfold bool at h
  split at h
  · exact Node.isWhole_leaf.mpr rfl
  · cases h

theorem isStrict_intWithin (low high : Int) (kind : String) :
    IsStrict (intWithin low high kind) := by
  intro p n a h
  unfold intWithin at h
  split at h
  · exact Node.isWhole_leaf.mpr rfl
  · cases h

theorem IsStrict.map {d : Decoder α} (h : IsStrict d) (f : α → β) :
    IsStrict fun p n => f <$> d p n := by
  intro p n b hb
  obtain ⟨a, ha, -⟩ := map_eq_ok.mp hb
  exact h p n a ha

theorem isStrict_size : IsStrict size := (isStrict_intWithin _ _ _).map _

theorem isStrict_int32 : IsStrict int32 := (isStrict_intWithin _ _ _).map _

theorem isStrict_version : IsStrict version := by
  intro p n v h
  obtain ⟨s, hs, -⟩ := bind_eq_ok.mp h
  exact isStrict_string p n s hs

theorem require_eq_ok {f : Option Fault} {x : Unit} : require f = .ok x ↔ f = none := by
  cases f <;> simp [require]

/-- All items of a list that is read are whole. -/
theorem isWhole_of_items {d : Decoder α} (h : IsStrict d) {p : Place} {ns : List Node}
    {as : List α} (has : items d p ns = .ok as) : ∀ n ∈ ns, n.IsWhole := by
  induction ns generalizing as with
  | nil => nofun
  | cons n ns ih =>
      obtain ⟨a, ha, hrest⟩ := bind_eq_ok.mp has
      obtain ⟨bs, hbs, -⟩ := bind_eq_ok.mp hrest
      exact List.forall_mem_cons.mpr ⟨h p n a ha, ih hbs⟩

/-- A list is read strictly if its items are. -/
theorem IsStrict.list {d : Decoder α} (h : IsStrict d) : IsStrict (list d) := by
  intro p n as has
  unfold Decoder.list at has
  split at has
  · obtain ⟨bs, hbs, hrest⟩ := bind_eq_ok.mp has
    obtain ⟨_, hfault, -⟩ := bind_eq_ok.mp hrest
    exact Node.isWhole_array.mpr ⟨isWhole_of_items h hbs, require_eq_ok.mp hfault⟩
  · cases has

theorem isWhole_of_unit {p : Place} {n : Node} {x : Unit} (h : unit p n = .ok x) : n.IsWhole := by
  unfold unit at h
  split at h
  · exact Node.isWhole_leaf.mpr rfl
  · cases h

theorem isStrict_choice (table : List (String × α)) : IsStrict (choice table) := by
  intro p n a h
  unfold choice at h
  split at h
  · obtain ⟨name, hname, -⟩ := bind_eq_ok.mp h
    exact isWhole_of_ofSpelling hname
  · next ms fault =>
      split at h
      · cases h
      · unfold choiceMember at h
        split at h
        · cases h
        · next k v rest hcount =>
            obtain ⟨name, hname, h⟩ := bind_eq_ok.mp h
            obtain ⟨b, -, h⟩ := bind_eq_ok.mp h
            obtain ⟨_, hvalue, h⟩ := bind_eq_ok.mp h
            obtain ⟨_, hend, -⟩ := bind_eq_ok.mp h
            have hfault := require_eq_ok.mp hend
            -- nothing may follow the first member
            cases rest with
            | cons m rest => cases hfault
            | nil =>
                refine Node.isWhole_object.mpr ⟨?_, hfault⟩
                intro m hm
                obtain rfl := List.mem_singleton.mp hm
                exact ⟨Node.isKey_of_keyText (mapError_eq_ok.mp hname), isWhole_of_unit hvalue⟩
  · split at h
    · split at h <;> cases h
    · cases h

end Decoder

/-! ## Members and fields -/

namespace RecordDecoder

variable {α β : Type} {fields : List Field} {p : Place}

def known (fields : List Field) (ms : List (Node × Node)) : List (String × Node) :=
  ms.filterMap fun m =>
    match m.1.keyText with
    | .ok name => if name ∈ fields.map Field.name then some (name, m.2) else none
    | .error _ => none

/-- A member that can be read: a field with a value that passes its check, or a member with another
name and any value. -/
def Passes (fields : List Field) (p : Place) (m : Node × Node) : Prop :=
  ∃ name, m.1.keyText = .ok name ∧
    match fields.find? (·.name = name) with
    | some field => field.check p m.2 = .ok ()
    | none => m.2.IsWhole

/-- A name is that of a field exactly if a field is found by it. -/
theorem find?_isSome_iff {name : String} :
    (fields.find? (·.name = name)).isSome ↔ name ∈ fields.map Field.name := by
  rw [List.find?_isSome, List.mem_map]
  simp

/-- Where no name comes twice, a field is found by its name. -/
theorem find?_of_nodup (hnodup : (fields.map Field.name).Nodup) {field : Field}
    (hfield : field ∈ fields) : fields.find? (·.name = field.name) = some field := by
  obtain ⟨found, hfound⟩ := Option.isSome_iff_exists.mp
    (find?_isSome_iff.mpr (List.mem_map_of_mem hfield))
  have hname : found.name = field.name := by simpa using List.find?_some hfound
  rw [hfound, List.inj_on_of_nodup_map hnodup (List.mem_of_find?_eq_some hfound) hfield hname]

theorem known_append (fields : List Field) (ms ms' : List (Node × Node)) :
    known fields (ms ++ ms') = known fields ms ++ known fields ms' := List.filterMap_append

theorem known_cons_of_mem {m : Node × Node} {name : String} (hm : m.1.keyText = .ok name)
    (hname : name ∈ fields.map Field.name) (ms : List (Node × Node)) :
    known fields (m :: ms) = (name, m.2) :: known fields ms := by
  rw [known, List.filterMap_cons]
  simp only [hm, if_pos hname]
  rfl

theorem known_cons_of_not_mem {m : Node × Node} {name : String} (hm : m.1.keyText = .ok name)
    (hname : name ∉ fields.map Field.name) (ms : List (Node × Node)) :
    known fields (m :: ms) = known fields ms := by
  rw [known, List.filterMap_cons]
  simp only [hm, if_neg hname]
  rfl

theorem mem_names_of_find?_eq_some {name : String} {field : Field}
    (h : fields.find? (·.name = name) = some field) : name ∈ fields.map Field.name := by
  rw [← find?_isSome_iff, h]
  rfl

theorem not_mem_names_of_find?_eq_none {name : String}
    (h : fields.find? (·.name = name) = none) : name ∉ fields.map Field.name := by
  rw [← find?_isSome_iff, h]
  exact Bool.false_ne_true

section CheckMembers

variable {m : Node × Node} {name : String} {field : Field} {seen : List String}

/-- A field is checked when it is met for the first time and refused after that. -/
theorem checkMembers_cons_of_field (hm : m.1.keyText = .ok name)
    (hfind : fields.find? (·.name = name) = some field) (ms : List (Node × Node)) :
    checkMembers fields p seen (m :: ms) =
      if name ∈ seen then .error (.duplicateField name)
      else field.check p m.2 >>= fun _ => checkMembers fields p (name :: seen) ms := by
  obtain ⟨k, v⟩ := m
  dsimp only at hm
  rw [checkMembers, hm]
  show (match fields.find? (·.name = name) with
    | some field => _
    | none => _) = _
  rw [hfind]
  dsimp only
  split <;> rfl

/-- A member that no field is called by only has to be whole. -/
theorem checkMembers_cons_of_other (hm : m.1.keyText = .ok name)
    (hfind : fields.find? (·.name = name) = none) (ms : List (Node × Node)) :
    checkMembers fields p seen (m :: ms) =
      Decoder.require m.2.skipFault >>= fun _ => checkMembers fields p seen ms := by
  obtain ⟨k, v⟩ := m
  dsimp only at hm
  rw [checkMembers, hm]
  show (match fields.find? (·.name = name) with
    | some field => _
    | none => _) = _
  rw [hfind]

/-- Members are read if each of them can be, and no field comes twice. -/
theorem checkMembers_eq_ok {ms : List (Node × Node)} {x : Unit} :
    checkMembers fields p seen ms = .ok x ↔
      (∀ m ∈ ms, Passes fields p m) ∧ ((known fields ms).map Prod.fst).Nodup ∧
        ∀ name ∈ (known fields ms).map Prod.fst, name ∉ seen := by
  induction ms generalizing seen with
  | nil => simp [checkMembers, known]
  | cons m ms ih =>
      rw [List.forall_mem_cons]
      cases hkey : m.1.keyText with
      | error e =>
          have hleft : checkMembers fields p seen (m :: ms) ≠ .ok x := by
            obtain ⟨k, v⟩ := m
            dsimp only at hkey
            rw [checkMembers, hkey]
            exact nofun
          have hright : ¬ Passes fields p m := by
            rintro ⟨name, hname, -⟩
            rw [hkey] at hname
            cases hname
          simp [hleft, hright]
      | ok name =>
          have hpasses : Passes fields p m ↔
              match fields.find? (·.name = name) with
              | some field => field.check p m.2 = .ok ()
              | none => m.2.IsWhole := by
            constructor
            · rintro ⟨name', hname, h⟩
              rw [hkey] at hname
              obtain rfl := Except.ok.inj hname
              exact h
            · exact fun h => ⟨name, hkey, h⟩
          rw [hpasses]
          cases hfind : fields.find? (·.name = name) with
          | none =>
              rw [checkMembers_cons_of_other hkey hfind, bind_eq_ok,
                known_cons_of_not_mem hkey (not_mem_names_of_find?_eq_none hfind)]
              simp only [Decoder.require_eq_ok, ih]
              constructor
              · rintro ⟨_, hwhole, hms, hrest⟩
                exact ⟨⟨hwhole, hms⟩, hrest⟩
              · rintro ⟨⟨hwhole, hms⟩, hrest⟩
                exact ⟨(), hwhole, hms, hrest⟩
          | some field =>
              rw [checkMembers_cons_of_field hkey hfind,
                known_cons_of_mem hkey (mem_names_of_find?_eq_some hfind), List.map_cons,
                List.nodup_cons, List.forall_mem_cons]
              split
              · next hseen => simp [hseen]
              · next hseen =>
                  rw [bind_eq_ok]
                  simp only [ih, List.mem_cons, not_or]
                  constructor
                  · rintro ⟨_, hcheck, hms, hnodup, hfresh⟩
                    exact ⟨⟨hcheck, hms⟩, ⟨fun hmem => (hfresh name hmem).1 rfl, hnodup⟩, hseen,
                      fun other hother => (hfresh other hother).2⟩
                  · rintro ⟨⟨hcheck, hms⟩, ⟨hname, hnodup⟩, -, hfresh⟩
                    exact ⟨(), hcheck, hms, hnodup, fun other hother =>
                      ⟨fun heq => hname (heq ▸ hother), hfresh other hother⟩⟩

/-- One more member for a field that has been read is refused. -/
theorem checkMembers_concat_of_seen {ms : List (Node × Node)} {x : Unit}
    (h : checkMembers fields p seen ms = .ok x) (hm : m.1.keyText = .ok name)
    (hname : name ∈ fields.map Field.name)
    (hread : name ∈ seen ∨ name ∈ (known fields ms).map Prod.fst) :
    checkMembers fields p seen (ms ++ [m]) = .error (.duplicateField name) := by
  induction ms generalizing seen with
  | nil =>
      obtain ⟨field, hfind⟩ := Option.isSome_iff_exists.mp (find?_isSome_iff.mpr hname)
      have hseen := hread.resolve_right (by simp [known])
      rw [List.nil_append, checkMembers_cons_of_field hm hfind, if_pos hseen]
  | cons m' ms ih =>
      obtain ⟨⟨other, hother, -⟩, -⟩ := List.forall_mem_cons.mp (checkMembers_eq_ok.mp h).1
      rw [List.cons_append]
      cases hfind : fields.find? (·.name = other) with
      | none =>
          rw [known_cons_of_not_mem hother (not_mem_names_of_find?_eq_none hfind)] at hread
          rw [checkMembers_cons_of_other hother hfind] at h ⊢
          obtain ⟨_, hwhole, hms⟩ := bind_eq_ok.mp h
          rw [hwhole]
          exact ih hms hread
      | some field =>
          rw [known_cons_of_mem hother (mem_names_of_find?_eq_some hfind), List.map_cons,
            List.mem_cons] at hread
          rw [checkMembers_cons_of_field hother hfind] at h ⊢
          split at h
          · cases h
          · next hseen =>
              obtain ⟨_, hcheck, hms⟩ := bind_eq_ok.mp h
              rw [if_neg hseen, hcheck]
              refine ih hms ?_
              rcases hread with hread | rfl | hread
              · exact Or.inl (List.mem_cons_of_mem _ hread)
              · exact Or.inl List.mem_cons_self
              · exact Or.inr hread

end CheckMembers

/-! ## Looking members up -/

/-- A field finds its value among the members that are known. -/
theorem findMember_eq_lookup {name : String} (hname : name ∈ fields.map Field.name)
    (ms : List (Node × Node)) : findMember ms name = (known fields ms).lookup name := by
  induction ms with
  | nil => rfl
  | cons m ms ih =>
      obtain ⟨k, v⟩ := m
      rw [findMember]
      split
      · next t ht =>
          split
          · next heq =>
              rw [known_cons_of_mem ht (heq ▸ hname), heq, List.lookup_cons_self]
          · next hne =>
              by_cases hfield : t ∈ fields.map Field.name
              · have hkey : (name == t) = false := beq_false_of_ne (Ne.symm hne)
                rw [known_cons_of_mem ht hfield, List.lookup_cons, hkey, ih]
              · rw [known_cons_of_not_mem ht hfield, ih]
      · next e he =>
          rw [ih, known, known, List.filterMap_cons]
          simp only [he]

/-- Where no name comes twice, looking a name up gives the row with that name. -/
theorem lookup_eq_some_iff {rows : List (String × Node)} (hnodup : (rows.map Prod.fst).Nodup)
    {name : String} {n : Node} : rows.lookup name = some n ↔ (name, n) ∈ rows := by
  rw [List.lookup_eq_some_iff]
  constructor
  · rintro ⟨before, after, rfl, -⟩
    simp
  · intro hmem
    obtain ⟨before, after, rfl⟩ := List.append_of_mem hmem
    refine ⟨before, after, rfl, fun row hrow => ?_⟩
    rw [List.map_append, List.map_cons, List.nodup_append] at hnodup
    exact bne_iff_ne.mpr (Ne.symm
      (hnodup.2.2 row.1 (List.mem_map_of_mem hrow) name List.mem_cons_self))

/-- Rows with different names are looked up alike in any order. -/
theorem lookup_eq_of_perm {rows rows' : List (String × Node)} (h : rows'.Perm rows)
    (hnodup : (rows.map Prod.fst).Nodup) (name : String) :
    rows'.lookup name = rows.lookup name := by
  have hnodup' : (rows'.map Prod.fst).Nodup := (h.map Prod.fst).nodup_iff.mpr hnodup
  ext n
  rw [lookup_eq_some_iff hnodup', lookup_eq_some_iff hnodup, h.mem_iff]

/-! ## Reading an object -/

variable {r : RecordDecoder α} {wanted : String} {a : α}

/-- A record is read from members that pass, and put together from what is found among them. -/
theorem decode_object_eq_ok {ms : List (Node × Node)} {fault : Option Fault} :
    r.decode wanted p (.object ms fault) = .ok a ↔
      checkMembers r.fields p.inner [] ms = .ok () ∧ fault = none ∧
        r.build p.inner (findMember ms) = .ok a := by
  rw [decode, bind_eq_ok]
  constructor
  · rintro ⟨_, hcheck, h⟩
    obtain ⟨_, hfault, hbuild⟩ := bind_eq_ok.mp h
    exact ⟨hcheck, Decoder.require_eq_ok.mp hfault, hbuild⟩
  · rintro ⟨hcheck, rfl, hbuild⟩
    exact ⟨(), hcheck, bind_eq_ok.mpr ⟨(), rfl, hbuild⟩⟩

/-- A record that reads its fields strictly and is put together from them alone. -/
structure IsLawful (r : RecordDecoder α) : Prop where
  strict : ∀ field ∈ r.fields, ∀ p n x, field.check p n = .ok x → n.IsWhole
  build_congr : ∀ p find find', (∀ name ∈ r.fields.map Field.name, find name = find' name) →
    r.build p find = r.build p find'

section Fields

variable (r : RecordDecoder (α → β)) (name : String) (d : Decoder α) (absent : α) (p : Place)
  (find : String → Option Node)

theorem names_required :
    (r.required name d).fields.map Field.name = r.fields.map Field.name ++ [name] :=
  List.map_append

theorem names_optional :
    (r.optional name d absent).fields.map Field.name = r.fields.map Field.name ++ [name] :=
  List.map_append

/-- A field that has to be there is read, or its absence is an error. -/
theorem build_required :
    (r.required name d).build p find = r.build p find >>= fun f =>
      match find name with
      | some n => f <$> d p n
      | none => .error (.missingField name) := rfl

/-- A field that may be absent is read, or its default stands for it. -/
theorem build_optional :
    (r.optional name d absent).build p find = r.build p find >>= fun f =>
      match find name with
      | some n => f <$> d p n
      | none => .ok (f absent) := rfl

end Fields

namespace IsLawful

theorem pure (a : α) : (RecordDecoder.pure a).IsLawful := ⟨nofun, fun _ _ _ _ => rfl⟩

variable {r : RecordDecoder (α → β)} {name : String} {d : Decoder α}

theorem strict_concat (h : r.IsLawful) (hd : d.IsStrict) (optional : Bool) :
    ∀ field ∈ r.fields ++ [⟨name, optional, fun p n => (fun _ => ()) <$> d p n⟩],
      ∀ p n x, field.check p n = .ok x → n.IsWhole := by
  intro field hfield p n x hx
  rcases List.mem_append.mp hfield with hfield | hfield
  · exact h.strict field hfield p n x hx
  · rw [List.mem_singleton.mp hfield] at hx
    obtain ⟨a, ha, -⟩ := map_eq_ok.mp hx
    exact hd p n a ha

theorem required (h : r.IsLawful) (hd : d.IsStrict) : (r.required name d).IsLawful where
  strict := h.strict_concat hd false
  build_congr := by
    intro p find find' hfind
    rw [names_required] at hfind
    rw [build_required, build_required, hfind name (by simp),
      h.build_congr p find find' fun other hother => hfind other (List.mem_append_left _ hother)]

theorem optional (h : r.IsLawful) (hd : d.IsStrict) (absent : α) :
    (r.optional name d absent).IsLawful where
  strict := h.strict_concat hd true
  build_congr := by
    intro p find find' hfind
    rw [names_optional] at hfind
    rw [build_optional, build_optional, hfind name (by simp),
      h.build_congr p find find' fun other hother => hfind other (List.mem_append_left _ hother)]

end IsLawful

/-- Members that pass are whole. -/
theorem IsLawful.isWhole_of_passes (h : r.IsLawful) {p : Place} {m : Node × Node}
    (hm : Passes r.fields p m) : m.1.IsKey ∧ m.2.IsWhole := by
  obtain ⟨name, hname, hvalue⟩ := hm
  refine ⟨Node.isKey_of_keyText hname, ?_⟩
  split at hvalue
  · next field hfind => exact h.strict field (List.mem_of_find?_eq_some hfind) p m.2 () hvalue
  · exact hvalue

/-- Members that can be read and agree on the fields give the same record. -/
theorem decode_congr (h : r.IsLawful) {ms ms' : List (Node × Node)}
    (hread : r.decode wanted p (.object ms none) = .ok a)
    (hpasses : ∀ m ∈ ms', Passes r.fields p.inner m)
    (hknown : (known r.fields ms').Perm (known r.fields ms)) :
    r.decode wanted p (.object ms' none) = .ok a := by
  obtain ⟨hcheck, -, hbuild⟩ := decode_object_eq_ok.mp hread
  obtain ⟨-, hnodup, -⟩ := checkMembers_eq_ok.mp hcheck
  refine decode_object_eq_ok.mpr ⟨checkMembers_eq_ok.mpr ⟨hpasses, ?_, fun _ _ => List.not_mem_nil⟩,
    rfl, ?_⟩
  · exact (hknown.map Prod.fst).nodup_iff.mpr hnodup
  · rw [← hbuild]
    apply h.build_congr
    intro name hname
    rw [findMember_eq_lookup hname, findMember_eq_lookup hname, lookup_eq_of_perm hknown hnodup]

/-- The members of a record that is read pass. -/
theorem passes_of_decode {ms : List (Node × Node)} {fault : Option Fault}
    (hread : r.decode wanted p (.object ms fault) = .ok a) :
    ∀ m ∈ ms, Passes r.fields p.inner m :=
  (checkMembers_eq_ok.mp (decode_object_eq_ok.mp hread).1).1

/-- The order of members does not matter. -/
theorem decode_perm (h : r.IsLawful) {ms ms' : List (Node × Node)}
    (hread : r.decode wanted p (.object ms none) = .ok a) (hperm : ms'.Perm ms) :
    r.decode wanted p (.object ms' none) = .ok a :=
  decode_congr h hread (fun m hm => passes_of_decode hread m (hperm.subset hm))
    (hperm.filterMap _)

/-- A second member for a field is refused. -/
theorem decode_concat_of_known {ms : List (Node × Node)}
    (hread : r.decode wanted p (.object ms none) = .ok a) {m : Node × Node} {name : String}
    (hm : m.1.keyText = .ok name) (hname : name ∈ r.fields.map Field.name)
    (hknown : name ∈ (known r.fields ms).map Prod.fst) :
    r.decode wanted p (.object (ms ++ [m]) none) = .error (.duplicateField name) := by
  obtain ⟨hcheck, -, -⟩ := decode_object_eq_ok.mp hread
  rw [decode, checkMembers_concat_of_seen hcheck hm hname (Or.inr hknown)]
  rfl

/-! ## Records are read strictly -/

theorem isWhole_of_checkItems (h : r.IsLawful) {fault : Option Fault} {x : Unit} {index : Nat}
    {ns : List Node} (hfields : ∀ field ∈ fields, field ∈ r.fields)
    (hcheck : checkItems wanted fault p index fields ns = .ok x)
    (hlength : ns.length ≤ fields.length) : ∀ n ∈ ns, n.IsWhole := by
  induction fields generalizing index ns with
  | nil =>
      rw [List.length_eq_zero_iff.mp (Nat.le_zero.mp hlength)]
      exact nofun
  | cons field fields ih =>
      obtain ⟨hfield, hrest⟩ := List.forall_mem_cons.mp hfields
      cases ns with
      | nil => exact nofun
      | cons n ns =>
          rw [checkItems] at hcheck
          obtain ⟨_, hn, hns⟩ := bind_eq_ok.mp hcheck
          exact List.forall_mem_cons.mpr ⟨h.strict field hfield p n _ hn,
            ih hrest hns (Nat.le_of_succ_le_succ hlength)⟩

/-- An array ends well if it has no more items than there are fields, and is closed. -/
theorem checkEnd_eq_ok {source : Source} {count total : Nat} {fault : Option Fault} {x : Unit}
    (h : checkEnd source count total fault = .ok x) : total ≤ count ∧ fault = none := by
  unfold checkEnd at h
  split at h
  · next hle => exact ⟨hle, Decoder.require_eq_ok.mp h⟩
  · split at h <;> cases h

/-- A lawful record is read strictly. -/
theorem isStrict_decode (h : r.IsLawful) (wanted : String) : (r.decode wanted).IsStrict := by
  intro p n a ha
  cases n with
  | object ms fault =>
      refine Node.isWhole_object.mpr ⟨fun m hm => ?_, (decode_object_eq_ok.mp ha).2.1⟩
      exact h.isWhole_of_passes (passes_of_decode ha m hm)
  | array ns fault =>
      rw [decode] at ha
      obtain ⟨_, hitems, ha⟩ := bind_eq_ok.mp ha
      obtain ⟨_, hend, -⟩ := bind_eq_ok.mp ha
      obtain ⟨hle, hfault⟩ := checkEnd_eq_ok hend
      exact Node.isWhole_array.mpr
        ⟨isWhole_of_checkItems h (fun _ hfield => hfield) hitems hle, hfault⟩
  | leaf l => cases ha
  | broken f => cases ha

end RecordDecoder

end GameExport.Json
