import GameExport.Json.Value
import GameExport.Proofs.Json.Reader
import GameExport.Proofs.Json.Text
import Mathlib.Tactic.IntervalCases

/-! # Reading what was written

The text of a value is read as that value, in either layout. Strings come back with all their
characters and integers with all their digits.
-/

namespace GameExport.Json

open Token

/-! ## Blanks -/

def IsBlank (cs : List Char) : Prop := ∀ c ∈ cs, isSpace c

theorem isBlank_nil : IsBlank [] := nofun

theorem not_continuesNumber_of_isSpace {c : Char} (h : isSpace c) : continuesNumber c = false := by
  simp only [isSpace, Bool.or_eq_true, decide_eq_true_eq] at h
  rcases h with ((rfl | rfl) | rfl) | rfl <;> decide

theorem ofChars_append_of_isBlank {blank : List Char} (h : IsBlank blank) (cs : List Char) :
    ofChars (blank ++ cs) = ofChars cs := by
  induction blank with
  | nil => rfl
  | cons c blank ih =>
      obtain ⟨hc, hblank⟩ := List.forall_mem_cons.mp h
      rw [List.cons_append, ofChars_space hc, ih hblank]

theorem ofChars_of_isBlank {blank : List Char} (h : IsBlank blank) : ofChars blank = [] := by
  rw [← List.append_nil blank, ofChars_append_of_isBlank h, ofChars_nil]

/-- Blanks may stand behind a number. -/
theorem IsBlank.stops {blank : List Char} (h : IsBlank blank) {cs : List Char} (hcs : Stops cs) :
    Stops (blank ++ cs) := by
  cases blank with
  | nil => exact hcs
  | cons c blank =>
      exact stops_cons (not_continuesNumber_of_isSpace (h c List.mem_cons_self)) _

/-! ## Strings -/

/-- An escaped character is read as the character that it stands for. -/
theorem exists_escapedChar_eq {c : Char} (h : c ∈ escaped) :
    ∃ code, escapedChar c = '\\' :: code ∧ ∀ rest, readEscape (code ++ rest) = .ok (.char c, rest) := by
  rcases List.mem_append.mp h with h | h
  · rcases List.mem_pair.mp h with rfl | rfl
    · exact ⟨['\"'], rfl, fun rest => rfl⟩
    · exact ⟨['\\'], rfl, fun rest => rfl⟩
  · obtain ⟨n, hn, rfl⟩ := List.mem_map.mp h
    have hn := List.mem_range.mp hn
    interval_cases n
    all_goals exact ⟨_, rfl, fun rest => rfl⟩

theorem readString_escapedChar (c : Char) (rest : List Char) :
    readString (escapedChar c ++ rest) =
      (⟨.char c :: (readString rest).1.units, (readString rest).1.fault⟩, (readString rest).2) := by
  by_cases hc : c ∈ escaped
  · obtain ⟨code, hcode, hread⟩ := exists_escapedChar_eq hc
    rw [hcode, List.cons_append, readString_escape (hread rest)]
  · have hquote : c ≠ '\"' := fun heq => hc (by rw [heq]; decide)
    have hescape : c ≠ '\\' := fun heq => hc (by rw [heq]; decide)
    rw [escapedChar_of_not_mem hc, List.singleton_append,
      readString_plain hquote hescape fun hlow => hc (mem_escaped_of_lt hlow)]

/-- An escaped text is read as that text. -/
theorem readString_flatMap_escapedChar (s more : List Char) :
    readString (s.flatMap escapedChar ++ '\"' :: more) = (⟨s.map .char, none⟩, more) := by
  induction s with
  | nil => exact readString_quote more
  | cons c s ih =>
      rw [List.flatMap_cons, List.append_assoc, readString_escapedChar, ih, List.map_cons]

/-- A written string is one token. -/
theorem ofChars_writeString (s : String) (more : List Char) :
    ofChars (writeString s ++ more) = .leaf (.string (.ofString s)) :: ofChars more := by
  have hread : readString ((s.toList.flatMap escapedChar ++ ['\"']) ++ more) =
      (.ofString s, more) := by
    rw [List.append_assoc, List.singleton_append, readString_flatMap_escapedChar]
    rfl
  rw [writeString, List.cons_append, List.cons_append]
  apply ofChars_leaf (by decide) rfl
  rw [readLeaf, if_pos rfl, hread]
  rfl

/-! ## Integers -/

/-- Decimal digits start with a zero only if they are the number zero. -/
theorem head?_toDigits_ne_zero {n : Nat} (hn : 0 < n) : (Nat.toDigits 10 n).head? ≠ some '0' := by
  induction n using Nat.strong_induction_on with
  | _ n ih =>
      by_cases hsmall : n < 10
      · rw [Nat.toDigits_of_lt_base hsmall]
        interval_cases n
        all_goals decide
      · have htens : 0 < n / 10 := by omega
        rw [Nat.toDigits_of_base_le (by decide) (Nat.le_of_not_lt hsmall),
          List.head?_append_of_ne_nil _ Nat.toDigits_ne_nil]
        exact ih (n / 10) (by omega) htens

theorem not_isDigit_of_stops {more : List Char} (h : Stops more) :
    ∀ c, more.head? = some c → c.isDigit = false := by
  intro c hc
  have hnumber := h c hc
  simp only [continuesNumber, Bool.or_eq_false_iff] at hnumber
  exact hnumber.1.1.1

theorem readWhole_toDigits (n : Nat) {more : List Char} (h : Stops more) :
    readWhole (Nat.toDigits 10 n ++ more) = .ok (Nat.toDigits 10 n, more) := by
  apply readWhole_append Nat.toDigits_ne_nil
    (fun c hc => Nat.isDigit_of_mem_toDigits (by decide) (by decide) hc) _ (not_isDigit_of_stops h)
  rcases Nat.eq_zero_or_pos n with rfl | hn
  · exact fun _ => Nat.toDigits_zero 10
  · exact fun hhead => absurd hhead (head?_toDigits_ne_zero hn)

theorem readFraction_of_stops {more : List Char} (h : Stops more) :
    readFraction more = .ok ([], more) := by
  rw [readFraction]
  rintro rest rfl
  exact absurd (h '.' rfl) (by decide)

theorem readExponent_of_stops {more : List Char} (h : Stops more) :
    readExponent more = .ok (none, more) := by
  cases more with
  | nil => rfl
  | cons c cs =>
      have hc : ¬ (c = 'e' ∨ c = 'E') := by
        rintro (rfl | rfl)
        · exact absurd (h _ rfl) (by decide)
        · exact absurd (h _ rfl) (by decide)
      rw [readExponent, if_neg hc]

/-- A number is read from its digits as one without a fraction or an exponent. -/
theorem readUnsigned_toDigits (negative : Bool) (n : Nat) {more : List Char} (h : Stops more) :
    readUnsigned negative (Nat.toDigits 10 n ++ more) =
      .ok (.number ⟨negative, Nat.toDigits 10 n, [], none⟩, more) := by
  rw [readUnsigned_eq]
  simp only [readWhole_toDigits n h, bind, Except.bind, readFraction_of_stops h,
    readExponent_of_stops h]

def numeral : Int → Numeral
  | .ofNat n => ⟨false, Nat.toDigits 10 n, [], none⟩
  | .negSucc n => ⟨true, Nat.toDigits 10 (n + 1), [], none⟩

theorem ofChars_of_readNumber {c : Char} {cs rest : List Char} {l : Leaf}
    (hc : c = '-' ∨ c.isDigit) (h : readNumber c cs = .ok (l, rest)) :
    ofChars (c :: cs) = .leaf l :: ofChars rest := by
  have hspace : ¬ isSpace c := by
    intro hspace
    simp only [isSpace, Bool.or_eq_true, decide_eq_true_eq] at hspace
    rcases hspace with ((rfl | rfl) | rfl) | rfl
    all_goals exact absurd hc (by decide)
  have hpunctuation : ofPunctuation c = none := by
    unfold ofPunctuation
    split
    case h_7 => rfl
    all_goals exact absurd hc (by decide)
  have hquote : c ≠ '\"' := by
    rintro rfl
    exact absurd hc (by decide)
  apply ofChars_leaf hspace hpunctuation
  rw [readLeaf, if_neg hquote, if_pos hc, h]
  rfl

theorem ofChars_writeInt (n : Int) {more : List Char} (h : Stops more) :
    ofChars (writeInt n ++ more) = .leaf (.number (numeral n)) :: ofChars more := by
  cases n with
  | ofNat n =>
      obtain ⟨d, ds, hds⟩ := List.exists_cons_of_ne_nil (Nat.toDigits_ne_nil (n := n) (b := 10))
      have hdigit : d.isDigit := Nat.isDigit_of_mem_toDigits (b := 10) (n := n) (by decide)
        (by decide) (by rw [hds]; exact List.mem_cons_self)
      have hsign : d ≠ '-' := by
        rintro rfl
        exact absurd hdigit (by decide)
      have hread := readUnsigned_toDigits false n h
      rw [writeInt, numeral]
      rw [hds, List.cons_append] at hread ⊢
      apply ofChars_of_readNumber (Or.inr hdigit)
      rw [readNumber, if_neg hsign, hread]
  | negSucc n =>
      rw [writeInt, numeral, List.cons_append]
      apply ofChars_of_readNumber (Or.inl rfl)
      rw [readNumber, if_pos rfl, readUnsigned_toDigits true (n + 1) h]

/-- Integers of sixty-four bits keep their value. -/
theorem value_numeral {n : Int} (hlow : -0x8000000000000000 ≤ n) (hhigh : n < UInt64.size) :
    (numeral n).value = some (.int n) := by
  cases n with
  | ofNat n =>
      have hsize : n < UInt64.size := Int.ofNat_lt.mp hhigh
      simp [numeral, Numeral.value, Nat.ofDigitChars_ten_toDigits, hsize]
  | negSucc n =>
      have hsize : n + 1 ≤ 0x8000000000000000 := by omega
      simp [numeral, Numeral.value, Nat.ofDigitChars_ten_toDigits, hsize, Int.negSucc_eq]

/-! ## Values -/

mutual

def node : Json → Node
  | .null => .leaf .null
  | .bool b => .leaf (.bool b)
  | .int n => .leaf (.number (numeral n))
  | .str s => .ofString s
  | .arr items => .array (itemNodes items) none
  | .obj members => .object (memberNodes members) none

def itemNodes : List Json → List Node
  | [] => []
  | item :: items => item.node :: itemNodes items

def memberNodes : List (String × Json) → List (Node × Node)
  | [] => []
  | (key, value) :: members => (.ofString key, value.node) :: memberNodes members

end

theorem itemNodes_eq (items : List Json) : itemNodes items = items.map node := by
  induction items with
  | nil => rfl
  | cons item items ih => rw [itemNodes, ih, List.map_cons]

theorem memberNodes_eq (members : List (String × Json)) :
    memberNodes members = members.map fun m => (.ofString m.1, m.2.node) := by
  induction members with
  | nil => rfl
  | cons m members ih => rw [memberNodes, ih, List.map_cons]

/-- Values one inside the other: what holds of a container if it holds of all its parts. -/
theorem induction {P : Json → Prop} (null : P .null) (bool : ∀ b, P (.bool b))
    (int : ∀ n, P (.int n)) (str : ∀ s, P (.str s))
    (arr : ∀ items, (∀ item ∈ items, P item) → P (.arr items))
    (obj : ∀ members, (∀ m ∈ members, P m.2) → P (.obj members)) (v : Json) : P v :=
  @Json.rec P (fun items => ∀ item ∈ items, P item) (fun members => ∀ m ∈ members, P m.2)
    (fun m => P m.2) null bool int str arr obj nofun
    (fun _ _ hitem hitems => List.forall_mem_cons.mpr ⟨hitem, hitems⟩) nofun
    (fun _ _ hm hmembers => List.forall_mem_cons.mpr ⟨hm, hmembers⟩) (fun _ _ hvalue => hvalue) v

/-- Whatever is written is whole. -/
theorem isWhole_node (v : Json) : v.node.IsWhole := by
  induction v using Json.induction with
  | null => exact Node.isWhole_leaf.mpr rfl
  | bool b => exact Node.isWhole_leaf.mpr rfl
  | int n => exact Node.isWhole_leaf.mpr rfl
  | str s => exact Node.isWhole_leaf.mpr rfl
  | arr items ih =>
      rw [node, itemNodes_eq]
      exact Node.isWhole_array.mpr ⟨List.forall_mem_map.mpr ih, rfl⟩
  | obj members ih =>
      rw [node, memberNodes_eq]
      refine Node.isWhole_object.mpr ⟨List.forall_mem_map.mpr fun m hm => ⟨?_, ih m hm⟩, rfl⟩
      exact ⟨.ofString m.1, rfl, rfl⟩

/-! ## Layouts -/

/-- A layout puts nothing but blanks between tokens. -/
structure Layout.IsPlain (layout : Layout) : Prop where
  itemStart : ∀ level, IsBlank (layout.itemStart level)
  closing : ∀ level, IsBlank (layout.closing level)
  afterKey : ∃ blank, IsBlank blank ∧ layout.afterKey = ':' :: blank

/-- The compact layout puts nothing between tokens, so it is plain. -/
theorem Layout.isPlain_compact : compact.IsPlain :=
  ⟨fun _ => isBlank_nil, fun _ => isBlank_nil, [], isBlank_nil, rfl⟩

/-- The pretty layout puts line breaks and blanks between tokens, so it is plain. -/
theorem Layout.isPlain_pretty : pretty.IsPlain := by
  have hline (level : Nat) : IsBlank ('\n' :: List.replicate (2 * level) ' ') := by
    intro c hc
    rcases List.mem_cons.mp hc with rfl | hc
    · decide
    · rw [List.eq_of_mem_replicate hc]
      decide
  refine ⟨fun level => hline (level + 1), hline, [' '], ?_, rfl⟩
  intro c hc
  rw [List.mem_singleton.mp hc]
  decide

section Layout

variable {layout : Layout} (hlayout : layout.IsPlain)

def SpelledIn (layout : Layout) (v : Json) : Prop :=
  ∀ level more, Stops more → ofChars (v.write layout level ++ more) = v.node.tokens ++ ofChars more

theorem stops_writeItems (level : Nat) (items : List Json) {more : List Char} (h : Stops more) :
    Stops (writeItems layout level items ++ more) := by
  cases items with
  | nil => exact h
  | cons item items => exact stops_cons (by decide) _

theorem stops_writeMembers (level : Nat) (members : List (String × Json)) {more : List Char}
    (h : Stops more) : Stops (writeMembers layout level members ++ more) := by
  cases members with
  | nil => exact h
  | cons m members => exact stops_cons (by decide) _

/-- Rows with commas between them are the first row and the others with commas before them. -/
theorem intercalate_cons_flatMap (row : List Token) (rows : List (List Token)) :
    [.comma].intercalate (row :: rows) = row ++ rows.flatMap (.comma :: ·) := by
  induction rows generalizing row with
  | nil => rw [List.intercalate_singleton, List.flatMap_nil, List.append_nil]
  | cons next rows ih =>
      rw [List.intercalate_cons_cons, ih, List.flatMap_cons, List.append_assoc]
      rfl

include hlayout

theorem ofChars_closing (level : Nat) {c : Char} {t : Token} (h : ofPunctuation c = some t)
    (more : List Char) :
    ofChars (layout.closing level ++ ([c] ++ more)) = t :: ofChars more := by
  rw [ofChars_append_of_isBlank (hlayout.closing level), List.singleton_append,
    ofChars_punctuation h]

theorem stops_closing (level : Nat) {c : Char} (h : continuesNumber c = false) (more : List Char) :
    Stops (layout.closing level ++ ([c] ++ more)) :=
  (hlayout.closing level).stops (stops_cons h _)

/-- An item that stands on its own line. -/
theorem ofChars_item {item : Json} (h : SpelledIn layout item) (level : Nat) {more : List Char}
    (hmore : Stops more) :
    ofChars (layout.itemStart level ++ (write layout (level + 1) item ++ more)) =
      item.node.tokens ++ ofChars more := by
  rw [ofChars_append_of_isBlank (hlayout.itemStart level), h _ _ hmore]

/-- A member that stands on its own line. -/
theorem ofChars_member {m : String × Json} (h : SpelledIn layout m.2) (level : Nat)
    {more : List Char} (hmore : Stops more) :
    ofChars (layout.itemStart level ++ (writeString m.1 ++ (layout.afterKey ++
        (write layout (level + 1) m.2 ++ more)))) =
      Node.tokensOfMember (.ofString m.1, m.2.node) ++ ofChars more := by
  obtain ⟨blank, hblank, hafter⟩ := hlayout.afterKey
  have hcolon : ofPunctuation ':' = some .colon := rfl
  rw [ofChars_append_of_isBlank (hlayout.itemStart level), ofChars_writeString, hafter,
    List.cons_append, ofChars_punctuation hcolon, ofChars_append_of_isBlank hblank, h _ _ hmore]
  rfl

theorem ofChars_writeItems {items : List Json} (h : ∀ item ∈ items, SpelledIn layout item)
    (level : Nat) {more : List Char} (hmore : Stops more) :
    ofChars (writeItems layout level items ++ more) =
      (items.map fun item => item.node.tokens).flatMap (.comma :: ·) ++ ofChars more := by
  induction items with
  | nil => rfl
  | cons item items ih =>
      obtain ⟨hitem, hitems⟩ := List.forall_mem_cons.mp h
      have hcomma : ofPunctuation ',' = some .comma := rfl
      rw [writeItems, List.cons_append, List.cons_append, List.cons_append,
        ofChars_punctuation hcomma, List.append_assoc, List.append_assoc,
        ofChars_item hlayout hitem level (stops_writeItems level items hmore), ih hitems,
        List.map_cons, List.flatMap_cons]
      simp

theorem ofChars_writeMembers {members : List (String × Json)}
    (h : ∀ m ∈ members, SpelledIn layout m.2) (level : Nat) {more : List Char}
    (hmore : Stops more) :
    ofChars (writeMembers layout level members ++ more) =
      (members.map fun m => Node.tokensOfMember (.ofString m.1, m.2.node)).flatMap (.comma :: ·) ++
        ofChars more := by
  induction members with
  | nil => rfl
  | cons m members ih =>
      obtain ⟨hm, hmembers⟩ := List.forall_mem_cons.mp h
      have hcomma : ofPunctuation ',' = some .comma := rfl
      rw [writeMembers, List.cons_append, List.cons_append, List.cons_append, List.cons_append,
        List.cons_append, ofChars_punctuation hcomma, List.append_assoc, List.append_assoc,
        List.append_assoc, List.append_assoc,
        ofChars_member hlayout hm level (stops_writeMembers level members hmore), ih hmembers,
        List.map_cons, List.flatMap_cons]
      simp

/-- In a plain layout every value is spelled by its tokens. -/
theorem spelledIn_of_isPlain (v : Json) : SpelledIn layout v := by
  induction v using Json.induction with
  | null =>
      intro level more _
      have hread : readLeaf 'n' (['u', 'l', 'l'] ++ more) = .ok (.null, more) := rfl
      exact ofChars_leaf (by decide) rfl hread
  | bool b =>
      intro level more _
      cases b with
      | true =>
          have hread : readLeaf 't' (['r', 'u', 'e'] ++ more) = .ok (.bool true, more) := rfl
          exact ofChars_leaf (by decide) rfl hread
      | false =>
          have hread : readLeaf 'f' (['a', 'l', 's', 'e'] ++ more) = .ok (.bool false, more) := rfl
          exact ofChars_leaf (by decide) rfl hread
  | int n => exact fun level more hmore => ofChars_writeInt n hmore
  | str s => exact fun level more _ => ofChars_writeString s more
  | arr items ih =>
      intro level more hmore
      cases items with
      | nil =>
          have hopen : ofPunctuation '[' = some .openArray := rfl
          have hclose : ofPunctuation ']' = some .closeArray := rfl
          rw [write, List.cons_append, List.singleton_append, ofChars_punctuation hopen,
            ofChars_punctuation hclose]
          rfl
      | cons item items =>
          obtain ⟨hitem, hitems⟩ := List.forall_mem_cons.mp ih
          have hopen : ofPunctuation '[' = some .openArray := rfl
          rw [write, List.cons_append, List.cons_append, List.cons_append, List.cons_append,
            List.cons_append, ofChars_punctuation hopen]
          simp only [List.append_assoc]
          rw [ofChars_item hlayout hitem level
            (stops_writeItems level items (stops_closing hlayout level (by decide) more)),
            ofChars_writeItems hlayout hitems level (stops_closing hlayout level (by decide) more),
            ofChars_closing hlayout level rfl, node, itemNodes_eq, Node.tokens,
            Node.itemTokens_eq, List.map_cons, List.map_cons, intercalate_cons_flatMap]
          simp [Function.comp_def]
  | obj members ih =>
      intro level more hmore
      cases members with
      | nil =>
          have hopen : ofPunctuation '\x7b' = some .openObject := rfl
          have hclose : ofPunctuation '\x7d' = some .closeObject := rfl
          rw [write, List.cons_append, List.singleton_append, ofChars_punctuation hopen,
            ofChars_punctuation hclose]
          rfl
      | cons m members =>
          obtain ⟨hm, hmembers⟩ := List.forall_mem_cons.mp ih
          have hopen : ofPunctuation '\x7b' = some .openObject := rfl
          rw [write, List.cons_append, List.cons_append, List.cons_append, List.cons_append,
            List.cons_append, List.cons_append, List.cons_append, ofChars_punctuation hopen]
          simp only [List.append_assoc]
          rw [ofChars_member hlayout hm level
            (stops_writeMembers level members (stops_closing hlayout level (by decide) more)),
            ofChars_writeMembers hlayout hmembers level
              (stops_closing hlayout level (by decide) more),
            ofChars_closing hlayout level rfl, node, memberNodes_eq, Node.tokens,
            Node.memberTokens_eq, List.map_cons, List.map_cons, intercalate_cons_flatMap]
          simp [Function.comp_def]

/-- What is written is read as the value that it was. -/
theorem reads_write (v : Json) : Reads (v.write layout 0) v.node := by
  have hspelled := spelledIn_of_isPlain hlayout v 0 [] stops_nil
  rw [List.append_nil, ofChars_nil, List.append_nil] at hspelled
  exact ⟨hspelled, isWhole_node v⟩

end Layout

/-- The compact text is read as the value. -/
theorem read_compact (v : Json) : Document.read v.compact = ⟨v.node, true⟩ := by
  apply Reads.read
  rw [compact, String.toList_ofList]
  exact reads_write Layout.isPlain_compact v

/-- The pretty text is read as the value. -/
theorem read_pretty (v : Json) : Document.read v.pretty = ⟨v.node, true⟩ := by
  apply Reads.read
  rw [pretty, String.toList_ofList]
  exact reads_write Layout.isPlain_pretty v

end GameExport.Json
