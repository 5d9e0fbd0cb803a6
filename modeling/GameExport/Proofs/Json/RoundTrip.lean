import GameExport.Proofs.Json.Record
import GameExport.Proofs.Json.Writer
import GameExport.Proofs.Version

/-! # Reading back what was written

A decoder undoes the writing of a value if it reads the written value as the data it was written
for. Lists inherit that from their items, and records from their fields.
-/

namespace GameExport.Json

theorem Node.keyText_ofString (s : String) : (ofString s).keyText = .ok s :=
  Spelling.text_ofString s

namespace Decoder

variable {α β : Type}

/-- The value, once it is written, is read as the data, wherever it stands. -/
def Gives (d : Decoder α) (v : Json) (a : α) : Prop := ∀ p, d p v.node = .ok a

theorem gives_string (s : String) : Gives string (.str s) s := by
  intro p
  exact mapError_eq_ok.mpr (Spelling.text_ofString s)

theorem gives_path (s : String) : Gives path (.str s) s := by
  intro p
  exact mapError_eq_ok.mpr (Spelling.text_ofString s)

theorem gives_bool (b : Bool) : Gives bool (.bool b) b := fun _ => rfl

theorem gives_version (v : Version) : Gives version (.str v.text) v := by
  intro p
  rw [version, bind_eq_ok]
  exact ⟨v.text, gives_string v.text p, mapError_eq_ok.mpr v.parse_text⟩

theorem gives_intWithin {low high : Int} (kind : String) {n : Int}
    (hvalue : (numeral n).value = some (.int n)) (hlow : low ≤ n) (hhigh : n ≤ high) :
    Gives (intWithin low high kind) (.int n) n := by
  intro p
  rw [node, intWithin, hvalue]
  exact if_pos ⟨hlow, hhigh⟩

theorem Gives.map {d : Decoder α} {v : Json} {a : α} (h : d.Gives v a) (f : α → β) :
    Gives (fun p n => f <$> d p n) v (f a) :=
  fun p => map_eq_ok.mpr ⟨a, h p, rfl⟩

theorem gives_size (n : UInt64) : Gives size (.int n.toNat) n := by
  have hsize : n.toNat < 0x10000000000000000 := n.toNat_lt
  have hvalue : (numeral n.toNat).value = some (.int n.toNat) :=
    value_numeral (by omega) (by rw [UInt64.size]; omega)
  have hint : Gives (intWithin 0 0xFFFFFFFFFFFFFFFF "usize") (.int n.toNat) n.toNat :=
    gives_intWithin "usize" hvalue (by omega) (by omega)
  have hback := hint.map fun i => i.toNat.toUInt64
  rwa [Int.toNat_natCast, show n.toNat.toUInt64 = n from UInt64.ofNat_toNat] at hback

theorem value_numeral_int32 (n : Int32) : (numeral n.toInt).value = some (.int n.toInt) := by
  have hmin := n.le_toInt
  have hmax := n.toInt_lt
  exact value_numeral (by omega) (by rw [UInt64.size]; omega)

theorem gives_int32 (n : Int32) : Gives int32 (.int n.toInt) n := by
  have hmin := n.le_toInt
  have hmax := n.toInt_lt
  have hint : Gives (intWithin (-0x80000000) 0x7FFFFFFF "i32") (.int n.toInt) n.toInt :=
    gives_intWithin "i32" (value_numeral_int32 n) (by omega) (by omega)
  have hback := hint.map Int32.ofInt
  rwa [Int32.ofInt_toInt] at hback

/-- A choice is written as its name. -/
theorem gives_choice {table : List (String × α)} {name : String} {a : α}
    (h : table.lookup name = some a) : Gives (choice table) (.str name) a := by
  intro p
  have htext : ofSpelling (.ofString name) = .ok name :=
    mapError_eq_ok.mpr (Spelling.text_ofString name)
  exact bind_eq_ok.mpr ⟨name, htext, by rw [variant, h]⟩

/-- Items that are read back one by one are read back as a list. -/
theorem items_eq_ok {d : Decoder α} {p : Place} {write : α → Json} {as : List α}
    (h : ∀ a ∈ as, d.Gives (write a) a) :
    items d p (as.map fun a => (write a).node) = .ok as := by
  induction as with
  | nil => rfl
  | cons a as ih =>
      obtain ⟨ha, has⟩ := List.forall_mem_cons.mp h
      rw [List.map_cons, items, bind_eq_ok]
      exact ⟨a, ha p, bind_eq_ok.mpr ⟨as, ih has, rfl⟩⟩

/-- A list is read back if its items are. -/
theorem Gives.list {d : Decoder α} {write : α → Json} {as : List α}
    (h : ∀ a ∈ as, d.Gives (write a) a) : (list d).Gives (.arr (as.map write)) as := by
  intro p
  rw [node, itemNodes_eq, List.map_map, Decoder.list, bind_eq_ok]
  exact ⟨as, items_eq_ok h, bind_eq_ok.mpr ⟨(), rfl, rfl⟩⟩

theorem gives_strings (ss : List String) : (list string).Gives (.strings ss) ss :=
  .list fun s _ => gives_string s

end Decoder

namespace RecordDecoder

open Decoder

variable {α β : Type}

/-- The members are those of the fields in their order. Their values pass the checks of the fields,
and the record is put together from them. -/
structure Gives (r : RecordDecoder α) (members : List (String × Json)) (a : α) : Prop where
  names : r.fields.map Field.name = members.map Prod.fst
  checks : ∀ m ∈ members, ∃ field ∈ r.fields,
    field.name = m.1 ∧ ∀ p, field.check p m.2.node = .ok ()
  build : ∀ p find, (∀ m ∈ members, find m.1 = some m.2.node) → r.build p find = .ok a

namespace Gives

theorem pure (a : α) : (RecordDecoder.pure a).Gives [] a := ⟨rfl, nofun, fun _ _ _ => rfl⟩

variable {r : RecordDecoder (α → β)} {members : List (String × Json)} {f : α → β} {d : Decoder α}
  {v : Json} {a : α}

theorem checks_concat (h : r.Gives members f) (hd : d.Gives v a) (name : String)
    (optional : Bool) :
    ∀ m ∈ members ++ [(name, v)],
      ∃ field ∈ r.fields ++ [⟨name, optional, fun p n => (fun _ => ()) <$> d p n⟩],
        field.name = m.1 ∧ ∀ p, field.check p m.2.node = .ok () := by
  intro m hm
  rcases List.mem_append.mp hm with hm | hm
  · obtain ⟨field, hfield, hcheck⟩ := h.checks m hm
    exact ⟨field, List.mem_append_left _ hfield, hcheck⟩
  · rw [List.mem_singleton.mp hm]
    exact ⟨_, List.mem_concat_self, rfl, fun p => map_eq_ok.mpr ⟨a, hd p, rfl⟩⟩

theorem required (h : r.Gives members f) (name : String) (hd : d.Gives v a) :
    (r.required name d).Gives (members ++ [(name, v)]) (f a) where
  names := by rw [names_required, h.names, List.map_append, List.map_singleton]
  checks := h.checks_concat hd name false
  build := by
    intro p find hfind
    have hname : find name = some v.node := hfind (name, v) List.mem_concat_self
    rw [build_required, h.build p find fun m hm => hfind m (List.mem_append_left _ hm), hname]
    exact map_eq_ok.mpr ⟨a, hd p, rfl⟩

/-- A field is written even if it has the value that it has when it is absent. -/
theorem optional (h : r.Gives members f) (name : String) (absent : α) (hd : d.Gives v a) :
    (r.optional name d absent).Gives (members ++ [(name, v)]) (f a) where
  names := by rw [names_optional, h.names, List.map_append, List.map_singleton]
  checks := h.checks_concat hd name true
  build := by
    intro p find hfind
    have hname : find name = some v.node := hfind (name, v) List.mem_concat_self
    rw [build_optional, h.build p find fun m hm => hfind m (List.mem_append_left _ hm), hname]
    exact map_eq_ok.mpr ⟨a, hd p, rfl⟩

end Gives

theorem known_written {fields : List Field} {members : List (String × Json)}
    (h : ∀ m ∈ members, m.1 ∈ fields.map Field.name) :
    known fields (members.map fun m => (.ofString m.1, m.2.node)) =
      members.map fun m => (m.1, m.2.node) := by
  induction members with
  | nil => rfl
  | cons m members ih =>
      obtain ⟨hm, hmembers⟩ := List.forall_mem_cons.mp h
      rw [List.map_cons, known_cons_of_mem (Node.keyText_ofString m.1) hm, ih hmembers,
        List.map_cons]

/-- A written record is read back. -/
theorem Gives.decode {r : RecordDecoder α} {members : List (String × Json)} {a : α}
    (h : r.Gives members a) (hnodup : (r.fields.map Field.name).Nodup) (wanted : String) :
    (r.decode wanted).Gives (.obj members) a := by
  intro p
  have hnames : ∀ m ∈ members, m.1 ∈ r.fields.map Field.name := by
    rw [h.names]
    exact fun m hm => List.mem_map_of_mem hm
  have hrows : known r.fields (members.map fun m => (.ofString m.1, m.2.node)) =
      members.map fun m => (m.1, m.2.node) := known_written hnames
  have hdistinct : ((members.map fun m => (m.1, m.2.node)).map Prod.fst).Nodup := by
    rw [h.names] at hnodup
    rwa [List.map_map]
  rw [node, memberNodes_eq, decode_object_eq_ok]
  refine ⟨checkMembers_eq_ok.mpr ⟨?_, ?_, fun _ _ => List.not_mem_nil⟩, rfl,
    h.build _ _ fun m hm => ?_⟩
  · rw [List.forall_mem_map]
    intro m hm
    refine ⟨m.1, Node.keyText_ofString m.1, ?_⟩
    obtain ⟨field, hfield, hname, hcheck⟩ := h.checks m hm
    -- names are distinct, so the field found is the one whose check is passed
    rw [← hname, find?_of_nodup hnodup hfield]
    exact hcheck p.inner
  · rw [hrows]
    exact hdistinct
  · rw [findMember_eq_lookup (hnames m hm), hrows, lookup_eq_some_iff hdistinct]
    exact List.mem_map_of_mem hm

end RecordDecoder

/-! ## Whole texts -/

variable {α : Type} {d : Decoder α}

/-- What a text is read as decides what is parsed. -/
theorem parse_eq_of_read {text : String} {n : Node} (h : Document.read text = ⟨n, true⟩)
    (d : Decoder α) : parse d text = d ⟨.text, 0⟩ n := by
  rw [parse, h, Document.decode]
  cases d ⟨.text, 0⟩ n <;> rfl

/-- What is written is read back in either layout. So is what is written for data that were read
from a text of any layout. -/
structure RoundTrips (d : Decoder α) (write : α → Json) : Prop where
  read_written : ∀ a, parse d (write a).compact = .ok a ∧ parse d (write a).pretty = .ok a
  read_again : ∀ text a, parse d text = .ok a →
    parse d (write a).compact = .ok a ∧ parse d (write a).pretty = .ok a

/-- What is read back from the written value is read back from its text. -/
theorem roundTrips_of_gives {write : α → Json} (h : ∀ a, d.Gives (write a) a) :
    RoundTrips d write := by
  have hwritten (a : α) : parse d (write a).compact = .ok a ∧ parse d (write a).pretty = .ok a := by
    rw [parse_eq_of_read (read_compact _), parse_eq_of_read (read_pretty _)]
    exact ⟨h a _, h a _⟩
  exact ⟨hwritten, fun _ a _ => hwritten a⟩

end GameExport.Json
