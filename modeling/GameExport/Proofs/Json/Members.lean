import GameExport.Proofs.Json.Soundness
import GameExport.Proofs.Json.RoundTrip

/-! # Texts of records

A record that is read from the text of an object is read by the names of the members. Other texts
with the same members in another order, or with more members of other names, are read alike; a
second member for a field is refused.
-/

namespace GameExport.Json

open Grammar

/-! ## Members by name -/

/-- The key of the member, read as a text of its own, is the name. A key with half of a surrogate
pair spells no text, so it has no name. -/
def Grammar.Member.HasName (m : Member) (name : String) : Prop :=
  parse Decoder.string (String.ofList m.key) = .ok name

/-- Members put in anywhere among other members. -/
inductive Inserts (extra : Member → Prop) : List Member → List Member → Prop where
  | nil : Inserts extra [] []
  | keep {m : Member} {ms ms' : List Member} :
      Inserts extra ms ms' → Inserts extra (m :: ms) (m :: ms')
  | insert {m : Member} {ms ms' : List Member} : extra m →
      Inserts extra ms ms' → Inserts extra ms (m :: ms')

/-- The order of the members of an object does not matter. -/
structure IgnoresOrder {α : Type} (d : Decoder α) : Prop where
  /-- An accepted text that starts like an object is the text of some members. -/
  members : ∀ (text : String) (a : α) (blank rest : List Char),
    parse d text = .ok a → IsBlank blank → text.toList = blank ++ '\x7b' :: rest →
      ∃ ms, IsObject ms text.toList
  perm : ∀ (ms ms' : List Member) (text text' : String) (a : α),
    IsObject ms text.toList → IsObject ms' text'.toList → ms'.Perm ms →
      parse d text = .ok a → parse d text' = .ok a

/-- A record is read by the names of the members, wherever they stand. -/
structure ReadsByName {α : Type} (d : Decoder α) (names : List String) : Prop extends
    IgnoresOrder d where
  /-- Members with other names do not matter. -/
  unknown : ∀ (ms ms' : List Member) (text text' : String) (a : α),
    IsObject ms text.toList → IsObject ms' text'.toList →
      Inserts (fun m => ∃ name, m.HasName name ∧ name ∉ names) ms ms' →
        parse d text = .ok a → parse d text' = .ok a
  /-- One more member for a field that is there is refused. -/
  duplicate : ∀ (ms : List Member) (m m' : Member) (text text' : String) (a : α) (name : String),
    IsObject ms text.toList → IsObject (ms ++ [m]) text'.toList →
      m' ∈ ms → m'.HasName name → m.HasName name → name ∈ names →
        parse d text = .ok a → parse d text' = .error (.duplicateField name)

/-! ## From texts to members -/

theorem keyText_of_hasName {m : Member} {name : String} (hkey : IsString m.key)
    (h : m.HasName name) : m.node.1.keyText = .ok name := by
  obtain ⟨hreads, s, hs, -⟩ := reads_key hkey
  have htext : Reads (String.ofList m.key).toList (nodeOf m.key) := by
    rwa [String.toList_ofList]
  rw [Member.HasName, parse_eq_of_read htext.read, hs] at h
  rw [Member.node, hs]
  exact mapError_eq_ok.mp h

section Texts

variable {α : Type} {d : Decoder α} {text : String} {a : α}

/-- A record is read from its members as they are spelled. -/
theorem parse_object {ms : List Member} (h : IsObject ms text.toList) (d : Decoder α) :
    parse d text = d ⟨.text, 0⟩ (.object (ms.map Member.node) none) :=
  parse_eq_of_read h.reads.read d

/-- Whatever is accepted is JSON. -/
theorem isText_of_parse (hd : d.IsStrict) (h : parse d text = .ok a) : IsText text.toList := by
  obtain ⟨b, hb, hend⟩ := bind_eq_ok.mp h
  split at hend
  · next hclosed => exact isWhole_read_iff.mp ⟨hclosed, hd _ _ b hb⟩
  · cases hend

/-- A text that starts like an object and is accepted is one. -/
theorem exists_isObject_of_parse (hd : d.IsStrict) (h : parse d text = .ok a)
    {blank rest : List Char} (hblank : IsBlank blank)
    (hstart : text.toList = blank ++ '\x7b' :: rest) : ∃ ms, IsObject ms text.toList :=
  exists_isObject_of_isText (isText_of_parse hd h) hblank hstart

/-- Whoever reads the members in any order reads the text of them in any order. -/
theorem ignoresOrder_of_perm (hd : d.IsStrict)
    (h : ∀ p ms ms' a, d p (.object ms none) = .ok a → ms'.Perm ms →
      d p (.object ms' none) = .ok a) : IgnoresOrder d where
  members := by
    intro text a blank rest hread hblank hstart
    exact exists_isObject_of_parse hd hread hblank hstart
  perm := by
    intro ms ms' text text' a hobject hobject' hperm hread
    rw [parse_object hobject] at hread
    rw [parse_object hobject']
    exact h _ _ _ a hread (hperm.map Member.node)

end Texts

namespace RecordDecoder

variable {α : Type} {r : RecordDecoder α}

/-- Members that no field is called by change nothing in what is known. -/
theorem known_of_inserts {fields : List Field} {ms ms' : List Member}
    (hkeys : ∀ m ∈ ms', IsString m.key)
    (h : Inserts (fun m => ∃ name, m.HasName name ∧ name ∉ fields.map Field.name) ms ms') :
    known fields (ms'.map Member.node) = known fields (ms.map Member.node) := by
  induction h with
  | nil => rfl
  | @keep m ms ms' _ ih =>
      have hrest := ih (List.forall_mem_cons.mp hkeys).2
      rw [List.map_cons, List.map_cons, ← List.singleton_append, known_append, hrest,
        ← known_append, List.singleton_append]
  | @insert m ms ms' hextra _ ih =>
      obtain ⟨name, hname, hunknown⟩ := hextra
      obtain ⟨hkey, hrest⟩ := List.forall_mem_cons.mp hkeys
      rw [List.map_cons, known_cons_of_not_mem (keyText_of_hasName hkey hname) hunknown, ih hrest]

theorem mem_of_inserts {extra : Member → Prop} {ms ms' : List Member} (h : Inserts extra ms ms') :
    ∀ m ∈ ms', m ∈ ms ∨ extra m := by
  induction h with
  | nil => nofun
  | keep _ ih =>
      refine List.forall_mem_cons.mpr ⟨Or.inl List.mem_cons_self, fun m hm => ?_⟩
      exact (ih m hm).imp_left (List.mem_cons_of_mem _)
  | insert hextra _ ih => exact List.forall_mem_cons.mpr ⟨Or.inr hextra, ih⟩

/-- A lawful record is read by the names of its fields. -/
theorem readsByName (h : r.IsLawful) (wanted : String) :
    ReadsByName (r.decode wanted) (r.fields.map Field.name) where
  toIgnoresOrder :=
    ignoresOrder_of_perm (isStrict_decode h wanted) fun _ _ _ _ => decode_perm h
  unknown := by
    intro ms ms' text text' a hobject hobject' hinserts hread
    rw [parse_object hobject] at hread
    rw [parse_object hobject']
    have hkeys : ∀ m ∈ ms', IsString m.key := fun m hm => (hobject'.1 m hm).1
    refine decode_congr h hread (List.forall_mem_map.mpr fun m hm => ?_)
      (by rw [known_of_inserts hkeys hinserts])
    rcases mem_of_inserts hinserts m hm with hold | ⟨name, hname, hunknown⟩
    · exact passes_of_decode hread m.node (List.mem_map_of_mem hold)
    · refine ⟨name, keyText_of_hasName (hkeys m hm) hname, ?_⟩
      rw [Option.not_isSome_iff_eq_none.mp (mt find?_isSome_iff.mp hunknown)]
      exact (reads_value (hobject'.1 m hm).2).2
  duplicate := by
    intro ms m m' text text' a name hobject hobject' hm' hname' hname hfield hread
    rw [parse_object hobject] at hread
    rw [parse_object hobject', List.map_append, List.map_singleton]
    have hkey : IsString m.key := (hobject'.1 m List.mem_concat_self).1
    refine decode_concat_of_known hread (keyText_of_hasName hkey hname) hfield ?_
    have hkeyText' := keyText_of_hasName (hobject.1 m' hm').1 hname'
    rw [known, List.mem_map]
    refine ⟨(name, m'.node.2), List.mem_filterMap.mpr ⟨m'.node, List.mem_map_of_mem hm', ?_⟩, rfl⟩
    rw [hkeyText']
    exact if_pos hfield

end RecordDecoder

end GameExport.Json
