import GameExport.Proofs.Json.Writer

/-! # The grammar of JSON

The grammar is stated over lists of characters and apart from the reader: numbers and strings first,
then values with blanks between their parts. Every text of the grammar is read to its end, as a
value without a fault.
-/

namespace GameExport.Json.Grammar

open Token

/-! ## Numbers -/

def IsDigits (ds : List Char) : Prop := ds ≠ [] ∧ ∀ c ∈ ds, c.isDigit

/-- Digits of which a leading zero stands alone. -/
def IsInteger (ds : List Char) : Prop := IsDigits ds ∧ (ds.head? = some '0' → ds = ['0'])

inductive IsFraction : List Char → Prop where
  | absent : IsFraction []
  | point {ds : List Char} : IsDigits ds → IsFraction ('.' :: ds)

inductive IsExponent : List Char → Prop where
  | absent : IsExponent []
  | power {letter : Char} {sign ds : List Char} : letter = 'e' ∨ letter = 'E' →
      sign = [] ∨ sign = ['+'] ∨ sign = ['-'] → IsDigits ds → IsExponent (letter :: (sign ++ ds))

inductive IsUnsigned : List Char → Prop where
  | mk {whole fraction exponent : List Char} : IsInteger whole → IsFraction fraction →
      IsExponent exponent → IsUnsigned (whole ++ (fraction ++ exponent))

inductive IsNumber : List Char → Prop where
  | positive {cs : List Char} : IsUnsigned cs → IsNumber cs
  | negative {cs : List Char} : IsUnsigned cs → IsNumber ('-' :: cs)

/-! ## Strings -/

def IsHexDigit (c : Char) : Prop :=
  c.isDigit ∨ ('a' ≤ c ∧ c ≤ 'f') ∨ ('A' ≤ c ∧ c ≤ 'F')

/-- One character of a string, as itself or behind a backslash. -/
inductive IsStringUnit : List Char → Prop where
  | plain {c : Char} : c ≠ '\"' → c ≠ '\\' → 0x20 ≤ c.toNat → IsStringUnit [c]
  | escape {c : Char} : c ∈ ['\"', '\\', '/', 'b', 'f', 'n', 'r', 't'] → IsStringUnit ['\\', c]
  | code {a b c d : Char} : IsHexDigit a → IsHexDigit b → IsHexDigit c → IsHexDigit d →
      IsStringUnit ['\\', 'u', a, b, c, d]

inductive IsStringTail : List Char → Prop where
  | quote : IsStringTail ['\"']
  | unit {u cs : List Char} : IsStringUnit u → IsStringTail cs → IsStringTail (u ++ cs)

inductive IsString : List Char → Prop where
  | mk {cs : List Char} : IsStringTail cs → IsString ('\"' :: cs)

/-! ## Values -/

inductive IsScalar : List Char → Prop where
  | null : IsScalar ['n', 'u', 'l', 'l']
  | true : IsScalar ['t', 'r', 'u', 'e']
  | false : IsScalar ['f', 'a', 'l', 's', 'e']
  | number {cs : List Char} : IsNumber cs → IsScalar cs
  | string {cs : List Char} : IsString cs → IsScalar cs

/-- A text with blanks around it. -/
inductive Pads (text : List Char) : List Char → Prop where
  | mk {before after : List Char} : IsBlank before → IsBlank after →
      Pads text (before ++ (text ++ after))

/-- Rows with commas between them, or nothing but blanks if there are no rows. -/
inductive Separated {α : Type} (row : α → List Char → Prop) : List α → List Char → Prop where
  | none {cs : List Char} : IsBlank cs → Separated row [] cs
  | one {a : α} {cs : List Char} : row a cs → Separated row [a] cs
  | cons {a b : α} {as : List α} {cs more : List Char} : row a cs →
      Separated row (b :: as) more → Separated row (a :: b :: as) (cs ++ ',' :: more)

structure Member where
  key : List Char
  value : List Char

inductive Member.Row (m : Member) : List Char → Prop where
  | mk {key value : List Char} : Pads m.key key → Pads m.value value → m.Row (key ++ ':' :: value)

inductive IsValue : List Char → Prop where
  | scalar {cs : List Char} : IsScalar cs → IsValue cs
  | array {items : List (List Char)} {inside : List Char} : (∀ item ∈ items, IsValue item) →
      Separated Pads items inside → IsValue ('[' :: (inside ++ [']']))
  | object {members : List Member} {inside : List Char} : (∀ m ∈ members, IsString m.key) →
      (∀ m ∈ members, IsValue m.value) → Separated Member.Row members inside →
      IsValue ('\x7b' :: (inside ++ ['\x7d']))

/-- A whole text: a value with blanks around it. -/
def IsText (cs : List Char) : Prop := ∃ text, IsValue text ∧ Pads text cs

def IsObject (members : List Member) (cs : List Char) : Prop :=
  (∀ m ∈ members, IsString m.key ∧ IsValue m.value) ∧
    ∃ inside, Separated Member.Row members inside ∧ Pads ('\x7b' :: (inside ++ ['\x7d'])) cs

/-! ## Numbers are read -/

theorem IsExponent.head {exponent : List Char} (h : IsExponent exponent) :
    ∀ c, exponent.head? = some c → c = 'e' ∨ c = 'E' := by
  cases h with
  | absent => nofun
  | power hletter =>
      intro c hc
      rwa [← Option.some.inj hc]

theorem head_fraction {fraction exponent : List Char} (hfraction : IsFraction fraction)
    (hexponent : IsExponent exponent) :
    ∀ c, (fraction ++ exponent).head? = some c → c.isDigit = false := by
  cases hfraction with
  | absent =>
      intro c hc
      rcases hexponent.head c hc with rfl | rfl <;> decide
  | point =>
      intro c hc
      rw [← Option.some.inj hc]
      decide

theorem readFraction_append {fraction exponent : List Char} (hfraction : IsFraction fraction)
    (hexponent : IsExponent exponent) :
    ∃ ds, readFraction (fraction ++ exponent) = .ok (ds, exponent) := by
  cases hfraction with
  | absent =>
      refine ⟨[], ?_⟩
      rw [List.nil_append, readFraction]
      rintro rest rfl
      exact absurd (hexponent.head '.' rfl) (by decide)
  | point hds =>
      have hmore := head_fraction .absent hexponent
      exact ⟨_, readSomeDigits_append hds.1 hds.2 hmore⟩

theorem readExponent_append {exponent : List Char} (h : IsExponent exponent) :
    ∃ e, readExponent exponent = .ok (e, []) := by
  cases h with
  | absent => exact ⟨none, rfl⟩
  | @power letter sign ds hletter hsign hds =>
      have hread : readSomeDigits (ds ++ []) = .ok (ds, []) :=
        readSomeDigits_append hds.1 hds.2 nofun
      rw [List.append_nil] at hread
      have hdigits : readSomeDigits (readSign (sign ++ ds)).2 = .ok (ds, []) := by
        rcases hsign with rfl | rfl | rfl
        · obtain ⟨d, ds, rfl⟩ := List.exists_cons_of_ne_nil hds.1
          rwa [List.nil_append, readSign_of_isDigit (hds.2 d List.mem_cons_self)]
        · exact hread
        · exact hread
      rw [readExponent, if_pos hletter, hdigits]
      exact ⟨_, rfl⟩

theorem readUnsigned_of_isUnsigned {cs : List Char} (h : IsUnsigned cs) (negative : Bool) :
    ∃ n, readUnsigned negative cs = .ok (.number n, []) := by
  obtain ⟨⟨⟨hne, hdigits⟩, hzero⟩, hfraction, hexponent⟩ := h
  obtain ⟨ds, hds⟩ := readFraction_append hfraction hexponent
  obtain ⟨e, he⟩ := readExponent_append hexponent
  rw [readUnsigned_eq]
  simp only [readWhole_append hne hdigits hzero (head_fraction hfraction hexponent), bind,
    Except.bind, hds, he]
  exact ⟨_, rfl⟩

theorem IsUnsigned.head {cs : List Char} (h : IsUnsigned cs) :
    ∃ d ds, cs = d :: ds ∧ d.isDigit := by
  obtain ⟨⟨⟨hne, hdigits⟩, -⟩, -, -⟩ := h
  obtain ⟨d, ds, rfl⟩ := List.exists_cons_of_ne_nil hne
  exact ⟨d, _, rfl, hdigits d List.mem_cons_self⟩

/-- A number is one token. -/
theorem ofChars_of_isNumber {cs : List Char} (h : IsNumber cs) :
    ∃ n, ofChars cs = [.leaf (.number n)] := by
  cases h with
  | positive hcs =>
      obtain ⟨d, ds, rfl, hd⟩ := hcs.head
      obtain ⟨n, hn⟩ := readUnsigned_of_isUnsigned hcs false
      have hsign : d ≠ '-' := by
        rintro rfl
        exact absurd hd (by decide)
      refine ⟨n, ?_⟩
      rw [ofChars_of_readNumber (Or.inr hd) ((if_neg hsign).trans hn), ofChars_nil]
  | negative hcs =>
      obtain ⟨n, hn⟩ := readUnsigned_of_isUnsigned hcs true
      exact ⟨n, by rw [ofChars_of_readNumber (Or.inl rfl) ((if_pos rfl).trans hn), ofChars_nil]⟩

/-! ## Strings are read -/

/-- The digits that have a value are the hexadecimal ones. -/
theorem hexValue_isSome_iff {c : Char} : (hexValue c).isSome ↔ IsHexDigit c := by
  have hdigit : c.isDigit ↔ 48 ≤ c.toNat ∧ c.toNat ≤ 57 := by
    simp [Char.isDigit, UInt32.le_iff_toNat_le]
  have hle (a b : Char) : a ≤ b ↔ a.toNat ≤ b.toNat := by
    simp [Char.le_def, UInt32.le_iff_toNat_le]
  rw [IsHexDigit, hdigit, hle, hle, hle, hle, hexValue]
  split
  · next h => simp [h]
  · next h =>
      split
      · next h' => simp [h']
      · next h' =>
          split
          · next h'' => simp [h'']
          · next h'' => simpa [h, h'] using h''

theorem readCode_of_isHexDigit {a b c d : Char} (ha : IsHexDigit a) (hb : IsHexDigit b)
    (hc : IsHexDigit c) (hd : IsHexDigit d) (rest : List Char) :
    ∃ u, readCode (a :: b :: c :: d :: rest) = .ok (u, rest) := by
  obtain ⟨w, hw⟩ := Option.isSome_iff_exists.mp (hexValue_isSome_iff.mpr ha)
  obtain ⟨x, hx⟩ := Option.isSome_iff_exists.mp (hexValue_isSome_iff.mpr hb)
  obtain ⟨y, hy⟩ := Option.isSome_iff_exists.mp (hexValue_isSome_iff.mpr hc)
  obtain ⟨z, hz⟩ := Option.isSome_iff_exists.mp (hexValue_isSome_iff.mpr hd)
  simp only [readCode, hw, hx, hy, hz]
  exact ⟨_, rfl⟩

/-- A unit of a string is read as one unit. -/
theorem readString_unit {u : List Char} (h : IsStringUnit u) (rest : List Char) :
    ∃ t, readString (u ++ rest) =
      (⟨t :: (readString rest).1.units, (readString rest).1.fault⟩, (readString rest).2) := by
  cases h with
  | plain hquote hescape hlow =>
      exact ⟨_, readString_plain hquote hescape (Nat.not_lt.mpr hlow) rest⟩
  | @escape c hc =>
      have hread : ∃ t, readEscape (c :: rest) = .ok (t, rest) := by
        simp only [List.mem_cons, List.not_mem_nil, or_false] at hc
        rcases hc with rfl | rfl | rfl | rfl | rfl | rfl | rfl | rfl
        all_goals exact ⟨_, rfl⟩
      obtain ⟨t, ht⟩ := hread
      exact ⟨t, readString_escape ht⟩
  | code ha hb hc hd =>
      obtain ⟨t, ht⟩ := readCode_of_isHexDigit ha hb hc hd rest
      exact ⟨t, readString_escape ht⟩

/-- A string is read to its closing quotation mark. -/
theorem readString_of_isStringTail {cs : List Char} (h : IsStringTail cs) :
    (readString cs).1.fault = none ∧ (readString cs).2 = [] := by
  induction h with
  | quote => exact ⟨by rw [readString_quote], by rw [readString_quote]⟩
  | @unit u cs hu _ ih =>
      obtain ⟨t, ht⟩ := readString_unit hu cs
      rwa [ht]

/-- A string is one token without a fault. -/
theorem ofChars_of_isString {cs : List Char} (h : IsString cs) :
    ∃ s, ofChars cs = [.leaf (.string s)] ∧ s.fault = none := by
  obtain @⟨tail, htail⟩ := h
  obtain ⟨hfault, hrest⟩ := readString_of_isStringTail htail
  have hread : readLeaf '\"' tail = .ok (.string (readString tail).1, []) := by
    rw [readLeaf, if_pos rfl, hfault, hrest]
    rfl
  exact ⟨_, by rw [ofChars_leaf (by decide) rfl hread, ofChars_nil], hfault⟩

/-! ## Values are read -/

theorem ofChars_of_isScalar {cs : List Char} (h : IsScalar cs) :
    ∃ l, ofChars cs = [.leaf l] ∧ l.isBroken = false := by
  cases h with
  | null =>
      have hread : readLeaf 'n' ['u', 'l', 'l'] = .ok (.null, []) := rfl
      exact ⟨.null, by rw [ofChars_leaf (by decide) rfl hread, ofChars_nil], rfl⟩
  | true =>
      have hread : readLeaf 't' ['r', 'u', 'e'] = .ok (.bool true, []) := rfl
      exact ⟨.bool true, by rw [ofChars_leaf (by decide) rfl hread, ofChars_nil], rfl⟩
  | false =>
      have hread : readLeaf 'f' ['a', 'l', 's', 'e'] = .ok (.bool false, []) := rfl
      exact ⟨.bool false, by rw [ofChars_leaf (by decide) rfl hread, ofChars_nil], rfl⟩
  | number h =>
      obtain ⟨n, hn⟩ := ofChars_of_isNumber h
      exact ⟨.number n, hn, rfl⟩
  | string h =>
      obtain ⟨s, hs, hfault⟩ := ofChars_of_isString h
      exact ⟨.string s, hs, by rw [Leaf.isBroken, hfault]; rfl⟩

def nodeOf (cs : List Char) : Node := (Document.read (String.ofList cs)).root

theorem nodeOf_eq {cs : List Char} {n : Node} (h : Reads cs n) : nodeOf cs = n := by
  have hread : Reads (String.ofList cs).toList n := by rwa [String.toList_ofList]
  rw [nodeOf, hread.read]

def Member.node (m : Member) : Node × Node := (nodeOf m.key, nodeOf m.value)

theorem areWhole_of_reads {cs : List Char} {n : Node} (h : Reads cs n) : AreWhole (ofChars cs) := by
  rw [h.1]
  exact Node.areWhole_tokens h.2

/-- Blanks around a text change nothing in what is read. -/
theorem reads_pads {text cs : List Char} {n : Node} (h : Reads text n) (hpads : Pads text cs) :
    Reads cs n := by
  obtain ⟨hbefore, hafter⟩ := hpads
  have hstops := hafter.stops stops_nil
  rw [List.append_nil] at hstops
  refine ⟨?_, h.2⟩
  rw [ofChars_append_of_isBlank hbefore, ofChars_append (areWhole_of_reads h) hstops,
    ofChars_of_isBlank hafter, List.append_nil, h.1]

section Rows

variable {α : Type} {row : α → List Char → Prop} {tokens : α → List Token} {as : List α}
  {inside : List Char} (hwhole : ∀ a ∈ as, AreWhole (tokens a))
  (hrow : ∀ a ∈ as, ∀ cs, row a cs → ofChars cs = tokens a) (h : Separated row as inside)

include hwhole hrow h

/-- Separated rows are read as their tokens with commas between them. -/
theorem ofChars_of_separated : ofChars inside = [.comma].intercalate (as.map tokens) := by
  induction h with
  | none hcs =>
      rw [ofChars_of_isBlank hcs]
      rfl
  | one hcs =>
      rw [List.map_singleton, List.intercalate_singleton]
      exact hrow _ List.mem_cons_self _ hcs
  | cons hcs _ ih =>
      obtain ⟨ha, has⟩ := List.forall_mem_cons.mp hrow
      obtain ⟨hwholeRow, hwholeRows⟩ := List.forall_mem_cons.mp hwhole
      have hread := ha _ hcs
      have hcomma : ofPunctuation ',' = some .comma := rfl
      rw [List.map_cons, List.map_cons, List.intercalate_cons_cons, ← List.map_cons,
        ← ih hwholeRows has, ofChars_append (hread ▸ hwholeRow) (stops_cons (by decide) _),
        ofChars_punctuation hcomma, hread, List.append_assoc, List.singleton_append]

/-- Rows inside brackets are read as their tokens inside the brackets. -/
theorem ofChars_enclosed {first last : Char} {t u : Token} (hfirst : ofPunctuation first = some t)
    (hlast : ofPunctuation last = some u) :
    ofChars (first :: (inside ++ [last])) =
      t :: ([.comma].intercalate (as.map tokens) ++ [u]) := by
  have hinside := ofChars_of_separated hwhole hrow h
  have hwholeInside : AreWhole (ofChars inside) := by
    rw [hinside]
    exact Node.areWhole_intercalate (List.forall_mem_map.mpr hwhole)
  obtain ⟨-, hstops, -⟩ := not_isSpace_of_punctuation hlast
  rw [ofChars_punctuation hfirst, ofChars_append hwholeInside (stops_cons hstops []),
    ofChars_punctuation hlast, ofChars_nil, hinside]

end Rows

/-- An array is read item by item. -/
theorem reads_array {items : List (List Char)} {inside : List Char}
    (hitems : ∀ item ∈ items, Reads item (nodeOf item)) (h : Separated Pads items inside) :
    Reads ('[' :: (inside ++ [']'])) (.array (items.map nodeOf) none) := by
  have hwhole : ∀ item ∈ items, AreWhole (nodeOf item).tokens :=
    fun item hitem => Node.areWhole_tokens (hitems item hitem).2
  have hrow : ∀ item ∈ items, ∀ cs, Pads item cs → ofChars cs = (nodeOf item).tokens :=
    fun item hitem _ hcs => (reads_pads (hitems item hitem) hcs).1
  refine ⟨?_, Node.isWhole_array.mpr
    ⟨List.forall_mem_map.mpr fun item hitem => (hitems item hitem).2, rfl⟩⟩
  rw [ofChars_enclosed hwhole hrow h rfl rfl, Node.tokens, Node.itemTokens_eq, List.map_map]
  rfl

theorem reads_key {key : List Char} (h : IsString key) :
    Reads key (nodeOf key) ∧ (nodeOf key).IsKey := by
  obtain ⟨s, hs, hfault⟩ := ofChars_of_isString h
  have hreads : Reads key (.leaf (.string s)) :=
    ⟨hs, Node.isWhole_leaf.mpr (by rw [Leaf.isBroken, hfault]; rfl)⟩
  rw [nodeOf_eq hreads]
  exact ⟨hreads, s, rfl, hfault⟩

theorem ofChars_row {m : Member} {cs : List Char} (hkey : Reads m.key (nodeOf m.key))
    (hvalue : Reads m.value (nodeOf m.value)) (h : m.Row cs) :
    ofChars cs = Node.tokensOfMember m.node := by
  obtain ⟨hkeyPads, hvaluePads⟩ := h
  have hkeyReads := reads_pads hkey hkeyPads
  have hcolon : ofPunctuation ':' = some .colon := rfl
  rw [ofChars_append (areWhole_of_reads hkeyReads) (stops_cons (by decide) _),
    ofChars_punctuation hcolon, hkeyReads.1, (reads_pads hvalue hvaluePads).1]
  rfl

/-- An object is read member by member. -/
theorem reads_object {members : List Member} {inside : List Char}
    (hkeys : ∀ m ∈ members, IsString m.key)
    (hvalues : ∀ m ∈ members, Reads m.value (nodeOf m.value))
    (h : Separated Member.Row members inside) :
    Reads ('\x7b' :: (inside ++ ['\x7d'])) (.object (members.map Member.node) none) := by
  have hwhole : ∀ m ∈ members, AreWhole (Node.tokensOfMember m.node) :=
    fun m hm => areWhole_append.mpr ⟨Node.areWhole_tokens (reads_key (hkeys m hm)).1.2,
      areWhole_cons.mpr ⟨rfl, Node.areWhole_tokens (hvalues m hm).2⟩⟩
  have hrow : ∀ m ∈ members, ∀ cs, m.Row cs → ofChars cs = Node.tokensOfMember m.node :=
    fun m hm _ hcs => ofChars_row (reads_key (hkeys m hm)).1 (hvalues m hm) hcs
  refine ⟨?_, Node.isWhole_object.mpr
    ⟨List.forall_mem_map.mpr fun m hm => ⟨(reads_key (hkeys m hm)).2, (hvalues m hm).2⟩, rfl⟩⟩
  rw [ofChars_enclosed hwhole hrow h rfl rfl, Node.tokens, Node.memberTokens_eq, List.map_map]
  rfl

/-- Every text of the grammar is read as one value. -/
theorem reads_value {cs : List Char} (h : IsValue cs) : Reads cs (nodeOf cs) := by
  induction h with
  | scalar hcs =>
      obtain ⟨l, hl, hwhole⟩ := ofChars_of_isScalar hcs
      have hreads : Reads _ (.leaf l) := ⟨hl, Node.isWhole_leaf.mpr hwhole⟩
      rwa [nodeOf_eq hreads]
  | array _ hinside ih =>
      have hreads := reads_array ih hinside
      rwa [nodeOf_eq hreads]
  | object hkeys _ hinside ih =>
      have hreads := reads_object hkeys ih hinside
      rwa [nodeOf_eq hreads]

/-- A text of an object is read as its members, wherever blanks stand. -/
theorem IsObject.reads {members : List Member} {cs : List Char} (h : IsObject members cs) :
    Reads cs (.object (members.map Member.node) none) := by
  obtain ⟨hmembers, inside, hinside, hpads⟩ := h
  exact reads_pads (reads_object (fun m hm => (hmembers m hm).1)
    (fun m hm => reads_value (hmembers m hm).2) hinside) hpads

end GameExport.Json.Grammar
