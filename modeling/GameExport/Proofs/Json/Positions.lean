import GameExport.Proofs.Json.Members

/-! # Records by position

The array form of a record lists the values of its first fields in the order in which they are
declared. It is read like the object that gives the same values to the same fields by name. A field
behind the end of the array is read as its default, and has to have one.
-/

namespace GameExport.Json

open Grammar

namespace RecordDecoder

variable {α β : Type} {fields : List Field} {p : Place}

/-! ## Members in the order of the fields -/

inductive InOrder : List Field → List (Node × Node) → Prop where
  | nil {fields : List Field} : InOrder fields []
  | cons {field : Field} {fields : List Field} {m : Node × Node} {ms : List (Node × Node)} :
      m.1.keyText = .ok field.name → InOrder fields ms → InOrder (field :: fields) (m :: ms)

def ItemsPass (p : Place) (fields : List Field) (ns : List Node) : Prop :=
  ∀ row ∈ fields.zip ns, row.1.check p row.2 = .ok ()

theorem itemsPass_nil : ItemsPass p fields [] := by simp [ItemsPass]

theorem itemsPass_cons {field : Field} {n : Node} {ns : List Node} :
    ItemsPass p (field :: fields) (n :: ns) ↔ field.check p n = .ok () ∧ ItemsPass p fields ns := by
  rw [ItemsPass, List.zip_cons_cons, List.forall_mem_cons]
  rfl

/-- There are no more members than fields. -/
theorem InOrder.length_le {ms : List (Node × Node)} (h : InOrder fields ms) :
    ms.length ≤ fields.length := by
  induction h with
  | nil => exact Nat.zero_le _
  | cons _ _ ih => exact Nat.succ_le_succ ih

/-- Every member is called as some field. -/
theorem InOrder.exists_field {ms : List (Node × Node)} (h : InOrder fields ms) :
    ∀ m ∈ ms, ∃ field ∈ fields, m.1.keyText = .ok field.name := by
  induction h with
  | nil => nofun
  | cons hm _ ih =>
      refine List.forall_mem_cons.mpr ⟨⟨_, List.mem_cons_self, hm⟩, fun m hmem => ?_⟩
      obtain ⟨field, hfield, hname⟩ := ih m hmem
      exact ⟨field, List.mem_cons_of_mem _ hfield, hname⟩

/-- A name finds the same value in both forms. -/
theorem findMember_eq_findItem {ms : List (Node × Node)} (h : InOrder fields ms) (name : String) :
    findMember ms name = findItem fields (ms.map Prod.snd) name := by
  induction h with
  | @nil fields => cases fields <;> rfl
  | @cons field fields m ms hm _ ih =>
      obtain ⟨k, v⟩ := m
      dsimp only at hm
      rw [List.map_cons, findMember, findItem, hm]
      simp only [ih]

/-- Members in the order of the fields pass if their values do. -/
theorem checkMembers_of_inOrder {rest : List Field} {ms : List (Node × Node)}
    (h : InOrder rest ms) (hnodup : (rest.map Field.name).Nodup)
    (hfind : ∀ field ∈ rest, fields.find? (·.name = field.name) = some field)
    {seen : List String} (hseen : ∀ name ∈ rest.map Field.name, name ∉ seen) :
    checkMembers fields p seen ms = .ok () ↔ ItemsPass p rest (ms.map Prod.snd) := by
  induction h generalizing seen with
  | nil => simp [checkMembers, itemsPass_nil]
  | @cons field rest m ms hm _ ih =>
      obtain ⟨hfield, hrest⟩ := List.forall_mem_cons.mp hfind
      rw [List.map_cons, List.nodup_cons] at hnodup
      rw [List.map_cons, List.forall_mem_cons] at hseen
      have hseen' : ∀ name ∈ rest.map Field.name, name ∉ field.name :: seen := by
        intro name hname hmem
        rcases List.mem_cons.mp hmem with rfl | hmem
        · exact hnodup.1 hname
        · exact hseen.2 name hname hmem
      rw [checkMembers_cons_of_field hm hfield, if_neg hseen.1, List.map_cons, itemsPass_cons,
        bind_eq_ok, ← ih hnodup.2 hrest hseen']
      constructor
      · rintro ⟨_, hcheck, hms⟩
        exact ⟨hcheck, hms⟩
      · rintro ⟨hcheck, hms⟩
        exact ⟨(), hcheck, hms⟩

/-! ## Items -/

/-- Items pass if those at the position of a field do, and the fields behind them may be absent. -/
theorem checkItems_eq_ok {wanted : String} {index : Nat} {ns : List Node} :
    checkItems wanted none p index fields ns = .ok () ↔
      ItemsPass p fields ns ∧ ∀ field ∈ fields.drop ns.length, field.optional := by
  induction fields generalizing index ns with
  | nil => simp [checkItems, ItemsPass]
  | cons field fields ih =>
      cases ns with
      | nil =>
          rw [checkItems, bind_eq_ok]
          cases hoptional : field.optional with
          | false => simp [hoptional]
          | true =>
              simp only [Decoder.require_eq_ok, if_true, ih]
              simp [hoptional, itemsPass_nil]
      | cons n ns =>
          rw [checkItems, bind_eq_ok, itemsPass_cons, List.length_cons, List.drop_succ_cons,
            and_assoc]
          constructor
          · rintro ⟨_, hn, hns⟩
            exact ⟨hn, ih.mp hns⟩
          · rintro ⟨hn, hns⟩
            exact ⟨(), hn, ih.mpr hns⟩

theorem checkEnd_of_le {source : Source} {count total : Nat} (h : total ≤ count) :
    checkEnd source count total none = .ok () := if_pos h

/-- A name that is not among the fields of the items finds none of them. -/
theorem findItem_eq_none {ns : List Node} {name : String}
    (h : name ∉ (fields.take ns.length).map Field.name) : findItem fields ns name = none := by
  fun_induction findItem fields ns name with
  | case1 field fields n ns => simp at h
  | case2 field fields n ns name hne ih =>
      apply ih
      simp only [List.length_cons, List.take_succ_cons, List.map_cons, List.mem_cons] at h
      exact fun hmem => h (Or.inr hmem)
  | case3 => rfl

variable {r : RecordDecoder α} {wanted : String} {a : α}

/-- An array is read if its items pass, there are not too many and the others may be absent. -/
theorem decode_array_eq_ok {ns : List Node} :
    r.decode wanted p (.array ns none) = .ok a ↔
      ItemsPass p.inner r.fields ns ∧ (∀ field ∈ r.fields.drop ns.length, field.optional) ∧
        ns.length ≤ r.fields.length ∧ r.build p.inner (findItem r.fields ns) = .ok a := by
  rw [decode, bind_eq_ok]
  constructor
  · rintro ⟨_, hitems, h⟩
    obtain ⟨_, hend, hbuild⟩ := bind_eq_ok.mp h
    obtain ⟨hpass, hrest⟩ := checkItems_eq_ok.mp hitems
    exact ⟨hpass, hrest, (checkEnd_eq_ok hend).1, hbuild⟩
  · rintro ⟨hpass, hrest, hlength, hbuild⟩
    exact ⟨(), checkItems_eq_ok.mpr ⟨hpass, hrest⟩,
      bind_eq_ok.mpr ⟨(), checkEnd_of_le hlength, hbuild⟩⟩

/-! ## What absent fields are read as -/

/-- A field beside its name and the value it is read as when it is absent, if it may be absent. -/
inductive Declared : Field → String × Option Json → Prop where
  | required {name : String} {check : Place → Node → Except ReadError Unit} :
      Declared ⟨name, false, check⟩ (name, none)
  | optional {name : String} {check : Place → Node → Except ReadError Unit} {v : Json} :
      (∀ p, check p v.node = .ok ()) → Declared ⟨name, true, check⟩ (name, some v)

/-- The rows tell the fields of a record in order, with the values that absent ones are read as. -/
structure Declares (r : RecordDecoder α) (rows : List (String × Option Json)) : Prop extends
    IsLawful r where
  declared : List.Forall₂ Declared r.fields rows
  /-- A record is not put together without the fields that have to be there. -/
  found : ∀ p find a, r.build p find = .ok a →
    ∀ field ∈ r.fields, field.optional = false → (find field.name).isSome
  /-- To leave a field out is to give it its default. -/
  absent : (r.fields.map Field.name).Nodup → ∀ p find find' name v, (name, some v) ∈ rows →
    find name = none → find' name = some v.node →
      (∀ other, other ≠ name → find' other = find other) → r.build p find' = r.build p find

namespace Declares

theorem pure (a : α) : (RecordDecoder.pure a).Declares [] where
  toIsLawful := IsLawful.pure a
  declared := .nil
  found := nofun
  absent := nofun

variable {r : RecordDecoder (α → β)} {rows : List (String × Option Json)} {d : Decoder α}

theorem fst_of_declared {field : Field} {row : String × Option Json} (h : Declared field row) :
    row.1 = field.name := by
  cases h <;> rfl

theorem names {r : RecordDecoder α} (h : r.Declares rows) :
    r.fields.map Field.name = rows.map Prod.fst := by
  have hrows := h.declared
  clear h
  generalize r.fields = fields at hrows
  induction hrows with
  | nil => rfl
  | cons hrow _ ih => rw [List.map_cons, List.map_cons, ih, fst_of_declared hrow]

/-- A new name is none of those declared before. -/
theorem ne_of_mem (h : r.Declares rows) {name : String} {row : String × Option Json}
    (hfresh : ∀ other ∈ r.fields.map Field.name, ∀ new ∈ [name], other ≠ new)
    (hrow : row ∈ rows) : name ≠ row.1 := by
  have hdeclared : row.1 ∈ r.fields.map Field.name := h.names ▸ List.mem_map_of_mem hrow
  exact (hfresh row.1 hdeclared name List.mem_cons_self).symm

/-- One more field that has to be there adds a row without a value. -/
theorem required (h : r.Declares rows) (name : String) (hd : d.IsStrict) :
    (r.required name d).Declares (rows ++ [(name, none)]) where
  toIsLawful := h.toIsLawful.required hd
  declared := List.rel_append h.declared (.cons .required .nil)
  found := by
    intro p find b hbuild field hfield hrequired
    rw [build_required] at hbuild
    obtain ⟨f, hf, hbuild⟩ := bind_eq_ok.mp hbuild
    rcases List.mem_append.mp hfield with hfield | hfield
    · exact h.found p find f hf field hfield hrequired
    · rw [List.mem_singleton.mp hfield]
      cases hfind : find name with
      | none => simp [hfind] at hbuild
      | some n => rfl
  absent := by
    intro hnodup p find find' other v hrow hnone hsome hrest
    rw [names_required, List.nodup_append] at hnodup
    obtain ⟨hnodup, -, hfresh⟩ := hnodup
    have hrow : (other, some v) ∈ rows := by simpa using hrow
    rw [build_required, build_required, hrest name (h.ne_of_mem hfresh hrow),
      h.absent hnodup p find find' other v hrow hnone hsome hrest]

/-- One more field that may be absent adds a row with what it is read as then. -/
theorem optional (h : r.Declares rows) (name : String) (hd : d.IsStrict) {v : Json} {absent : α}
    (hgives : d.Gives v absent) :
    (r.optional name d absent).Declares (rows ++ [(name, some v)]) where
  toIsLawful := h.toIsLawful.optional hd absent
  declared := by
    have hcheck : ∀ p, (fun _ => ()) <$> d p v.node = .ok () :=
      fun p => map_eq_ok.mpr ⟨absent, hgives p, rfl⟩
    exact List.rel_append h.declared (.cons (.optional hcheck) .nil)
  found := by
    intro p find b hbuild field hfield hrequired
    obtain ⟨f, hf, -⟩ := bind_eq_ok.mp hbuild
    rcases List.mem_append.mp hfield with hfield | hfield
    · exact h.found p find f hf field hfield hrequired
    · rw [List.mem_singleton.mp hfield] at hrequired
      cases hrequired
  absent := by
    intro hnodup p find find' other w hrow hnone hsome hrest
    rw [names_optional, List.nodup_append] at hnodup
    obtain ⟨hnodup, -, hfresh⟩ := hnodup
    rw [build_optional, build_optional]
    rcases List.mem_append.mp hrow with hrow | hrow
    · rw [hrest name (h.ne_of_mem hfresh hrow),
        h.absent hnodup p find find' other w hrow hnone hsome hrest]
    · obtain ⟨rfl, rfl⟩ : other = name ∧ w = v := by simpa using hrow
      -- the fields before do not look the new name up
      have hbuild : r.build p find' = r.build p find :=
        h.build_congr p find' find fun earlier hearlier =>
          hrest earlier (hfresh earlier hearlier other List.mem_cons_self)
      rw [hbuild, hnone, hsome]
      dsimp only
      rw [hgives p]
      rfl

end Declares

/-! ## The two forms -/

section Split

variable {front rest : List Field} {ns ns' : List Node} (h : front.length = ns.length)

include h

/-- An item is found by its name in the front part or behind it. -/
theorem findItem_append (name : String) :
    findItem (front ++ rest) (ns ++ ns') name =
      (findItem front ns name).or (findItem rest ns' name) := by
  induction front generalizing ns with
  | nil =>
      rw [List.length_eq_zero_iff.mp h.symm]
      rfl
  | cons field front ih =>
      cases ns with
      | nil => cases h
      | cons n ns =>
          rw [List.cons_append, List.cons_append, findItem, findItem]
          split
          · rfl
          · exact ih (Nat.succ.inj h)

/-- Fields behind the items find nothing. -/
theorem findItem_front (name : String) :
    findItem (front ++ rest) ns name = findItem front ns name := by
  have happend : findItem (front ++ rest) (ns ++ []) name = _ := findItem_append h name
  have hnil : findItem rest [] name = none := by cases rest <;> rfl
  rw [List.append_nil] at happend
  rw [happend, hnil, Option.or_none]

/-- The last item is found under the name of its field. -/
theorem findItem_concat (field : Field) (n : Node) (name : String) :
    findItem (front ++ field :: rest) (ns ++ [n]) name =
      (findItem front ns name).or (if field.name = name then some n else none) := by
  rw [findItem_append h, findItem]
  cases rest <;> rfl

theorem itemsPass_append :
    ItemsPass p (front ++ rest) (ns ++ ns') ↔ ItemsPass p front ns ∧ ItemsPass p rest ns' := by
  rw [ItemsPass, List.zip_append h, List.forall_mem_append]
  rfl

theorem itemsPass_front : ItemsPass p (front ++ rest) ns ↔ ItemsPass p front ns := by
  have happend : ItemsPass p (front ++ rest) (ns ++ []) ↔ _ := itemsPass_append h
  rw [List.append_nil] at happend
  simp [happend, itemsPass_nil]

theorem itemsPass_concat (field : Field) (n : Node) :
    ItemsPass p (front ++ field :: rest) (ns ++ [n]) ↔
      ItemsPass p front ns ∧ field.check p n = .ok () := by
  rw [itemsPass_append h, itemsPass_cons]
  simp [itemsPass_nil]

end Split

variable {rows : List (String × Option Json)}

/-- An array is read like the object that gives the same values to the same fields. -/
theorem decode_array_iff_object (h : r.Declares rows) (hnodup : (r.fields.map Field.name).Nodup)
    {ms : List (Node × Node)} (hms : InOrder r.fields ms) :
    r.decode wanted p (.array (ms.map Prod.snd) none) = .ok a ↔
      r.decode wanted p (.object ms none) = .ok a := by
  have hfind : findMember ms = findItem r.fields (ms.map Prod.snd) :=
    funext (findMember_eq_findItem hms)
  rw [decode_array_eq_ok, decode_object_eq_ok, hfind,
    checkMembers_of_inOrder hms hnodup (fun _ => find?_of_nodup hnodup)
      fun _ _ => List.not_mem_nil]
  constructor
  · rintro ⟨hpass, -, -, hbuild⟩
    exact ⟨hpass, rfl, hbuild⟩
  · rintro ⟨hpass, -, hbuild⟩
    refine ⟨hpass, fun field hfield => ?_, by rw [List.length_map]; exact hms.length_le, hbuild⟩
    -- a field that had to be there would have been found among the items
    by_contra hrequired
    have hsome := h.found _ _ a hbuild field (List.mem_of_mem_drop hfield)
      (Bool.eq_false_of_not_eq_true hrequired)
    rw [findItem_eq_none] at hsome
    · cases hsome
    · rw [← List.take_append_drop (ms.map Prod.snd).length r.fields, List.map_append,
        List.nodup_append] at hnodup
      intro hmem
      exact hnodup.2.2 _ hmem _ (List.mem_map_of_mem hfield) rfl

/-- The field at a position, between those before it and those behind it. -/
theorem Declares.exists_split (h : r.Declares rows) {k : Nat} {row : String × Option Json}
    (hrow : rows[k]? = some row) :
    ∃ front field rest, r.fields = front ++ field :: rest ∧ front.length = k ∧
      Declared field row := by
  obtain ⟨hlt, rfl⟩ := List.getElem?_eq_some_iff.mp hrow
  have hlength := h.declared.length_eq
  have hlt' : k < r.fields.length := by omega
  refine ⟨r.fields.take k, r.fields[k], r.fields.drop (k + 1), ?_, ?_, ?_⟩
  · rw [← List.drop_eq_getElem_cons hlt', List.take_append_drop]
  · rw [List.length_take]
    omega
  · exact (List.forall₂_iff_get.mp h.declared).2 k hlt' hlt

/-- An array that ends before an optional field is read like the array that goes on with the default
of that field. -/
theorem decode_array_concat (h : r.Declares rows) (hnodup : (r.fields.map Field.name).Nodup)
    {ns : List Node} {name : String} {v : Json} (hrow : rows[ns.length]? = some (name, some v)) :
    r.decode wanted p (.array (ns ++ [v.node]) none) = .ok a ↔
      r.decode wanted p (.array ns none) = .ok a := by
  obtain ⟨front, field, rest, hfields, hlength, hdeclared⟩ := h.exists_split hrow
  obtain ⟨_⟩ | @⟨_, check, _, hcheck⟩ := hdeclared
  have hnew : findItem front ns name = none := by
    refine findItem_eq_none fun hmem => ?_
    rw [hfields, List.map_append, List.nodup_append] at hnodup
    exact hnodup.2.2 name (List.map_subset Field.name (List.take_subset _ _) hmem) name
      List.mem_cons_self rfl
  have hbuild : r.build p.inner (findItem r.fields (ns ++ [v.node])) =
      r.build p.inner (findItem r.fields ns) := by
    refine h.absent hnodup _ _ _ name v (List.mem_of_getElem? hrow) ?_ ?_ fun other hother => ?_
    · rw [hfields, findItem_front hlength, hnew]
    · rw [hfields, findItem_concat hlength, hnew, if_pos rfl, Option.none_or]
    · rw [hfields, findItem_concat hlength, findItem_front hlength, if_neg (Ne.symm hother),
        Option.or_none]
  have hpass : ItemsPass p.inner r.fields (ns ++ [v.node]) ↔ ItemsPass p.inner r.fields ns := by
    rw [hfields, itemsPass_concat hlength, itemsPass_front hlength]
    exact and_iff_left (hcheck _)
  have hrest : (∀ field ∈ r.fields.drop (ns ++ [v.node]).length, field.optional) ↔
      ∀ field ∈ r.fields.drop ns.length, field.optional := by
    have hdrop : r.fields.drop ns.length = ⟨name, true, check⟩ :: rest := by
      rw [hfields, List.drop_left' hlength]
    rw [List.length_append, ← List.drop_drop, hdrop, List.forall_mem_cons]
    simp
  have hcount : ns.length + 1 ≤ r.fields.length := by
    rw [hfields, List.length_append, List.length_cons]
    omega
  rw [decode_array_eq_ok, decode_array_eq_ok, hbuild, hpass, hrest, List.length_append,
    List.length_singleton]
  simp only [hcount, Nat.le_of_succ_le hcount]

/-- An array that ends before a field that has to be there is refused. -/
theorem decode_array_ne_ok (h : r.Declares rows) {ns : List Node} {name : String}
    (hrow : rows[ns.length]? = some (name, none)) :
    r.decode wanted p (.array ns none) ≠ .ok a := by
  intro hread
  obtain ⟨front, field, rest, hfields, hlength, hdeclared⟩ := h.exists_split hrow
  obtain ⟨-, hrest, -⟩ := decode_array_eq_ok.mp hread
  rw [hfields, List.drop_left' hlength] at hrest
  have hoptional := hrest field List.mem_cons_self
  cases hdeclared
  cases hoptional

end RecordDecoder

/-! ## Texts -/

def Grammar.IsArray (items : List (List Char)) (cs : List Char) : Prop :=
  (∀ item ∈ items, IsValue item) ∧
    ∃ inside, Separated Pads items inside ∧ Pads ('[' :: (inside ++ [']'])) cs

theorem Grammar.IsArray.reads {items : List (List Char)} {cs : List Char} (h : IsArray items cs) :
    Reads cs (.array (items.map nodeOf) none) := by
  obtain ⟨hitems, inside, hinside, hpads⟩ := h
  exact reads_pads (reads_array (fun item hitem => reads_value (hitems item hitem)) hinside) hpads

inductive Named : List String → List Member → Prop where
  | nil {names : List String} : Named names []
  | cons {name : String} {names : List String} {m : Member} {ms : List Member} :
      m.HasName name → Named names ms → Named (name :: names) (m :: ms)

/-- Values in an array are read like the same values in an object, where the members are called by
the first names in order. -/
def ReadsAlike {α : Type} (d : Decoder α) (names : List String) (items : List (List Char)) : Prop :=
  ∀ (ms : List Member) (text text' : String), IsArray items text.toList →
    IsObject ms text'.toList → ms.map Member.value = items → Named names ms →
      ∀ a, parse d text = .ok a ↔ parse d text' = .ok a

/-- A record is read from an array by the positions of its values. The rows are its fields in order,
with the values that absent ones are read as. -/
structure ReadsByPosition {α : Type} (d : Decoder α) (rows : List (String × Option Json)) :
    Prop where
  alike : ∀ items, ReadsAlike d (rows.map Prod.fst) items
  /-- Where the items end before a field with a default, that default may stand there. -/
  absent : ∀ (items : List (List Char)) (name : String) (v : Json) (text text' : String),
    rows[items.length]? = some (name, some v) → IsArray items text.toList →
      IsArray (items ++ [v.compact.toList]) text'.toList →
        ∀ a, parse d text = .ok a ↔ parse d text' = .ok a
  /-- Where they end before a field without one, nothing is read. -/
  required : ∀ (items : List (List Char)) (name : String) (text : String) (a : α),
    rows[items.length]? = some (name, none) → IsArray items text.toList → parse d text ≠ .ok a

variable {α : Type}

theorem parse_array {items : List (List Char)} {text : String} (h : IsArray items text.toList)
    (d : Decoder α) : parse d text = d ⟨.text, 0⟩ (.array (items.map nodeOf) none) :=
  parse_eq_of_read h.reads.read d

/-- What is written is spelled as the value. -/
theorem nodeOf_compact (v : Json) : nodeOf v.compact.toList = v.node := by
  rw [nodeOf, String.ofList_toList, read_compact]

/-- Named members are called as the fields are. -/
theorem inOrder_of_named {fields : List Field} {ms : List Member}
    (h : Named (fields.map Field.name) ms) (hkeys : ∀ m ∈ ms, IsString m.key) :
    RecordDecoder.InOrder fields (ms.map Member.node) := by
  induction ms generalizing fields with
  | nil => exact .nil
  | cons m ms ih =>
      obtain ⟨hkey, hkeys⟩ := List.forall_mem_cons.mp hkeys
      cases fields with
      | nil => cases h
      | cons field fields =>
          obtain _ | ⟨hname, hms⟩ := h
          exact .cons (keyText_of_hasName hkey hname) (ih hms hkeys)

/-- The values of named members are the items. -/
theorem map_snd_node (ms : List Member) :
    (ms.map Member.node).map Prod.snd = (ms.map Member.value).map nodeOf := by
  rw [List.map_map, List.map_map]
  rfl

/-- A record that tells its fields in rows is read by their positions. -/
theorem RecordDecoder.Declares.readsByPosition {r : RecordDecoder α}
    {rows : List (String × Option Json)} (h : r.Declares rows)
    (hnodup : (r.fields.map Field.name).Nodup) (wanted : String) :
    ReadsByPosition (r.decode wanted) rows where
  alike := by
    intro items ms text text' harray hobject hvalues hnamed a
    rw [← h.names] at hnamed
    have horder := inOrder_of_named hnamed fun m hm => (hobject.1 m hm).1
    rw [parse_array harray, parse_object hobject, ← hvalues, ← map_snd_node]
    exact decode_array_iff_object h hnodup horder
  absent := by
    intro items name v text text' hrow harray harray' a
    rw [parse_array harray, parse_array harray', List.map_append, List.map_singleton,
      nodeOf_compact]
    rw [← List.length_map (f := nodeOf)] at hrow
    exact (decode_array_concat h hnodup hrow).symm
  required := by
    intro items name text a hrow harray
    rw [parse_array harray]
    rw [← List.length_map (f := nodeOf)] at hrow
    exact decode_array_ne_ok h hrow

end GameExport.Json
