import GameExport.Proofs.Json.Grammar

/-! # Only JSON is read to its end

Whatever the reader reads to its end without a fault belongs to the grammar. The text of a leaf is
found first, then a text is cut at the tokens that are brackets and separators.
-/

namespace GameExport.Json.Grammar

open Token

/-! ## Only scalars are read as leaves -/

/-- What is read as a fraction is one. -/
theorem isFraction_of_readFraction {s ds rest : List Char} (h : readFraction s = .ok (ds, rest)) :
    ∃ used, IsFraction used ∧ s = used ++ rest := by
  unfold readFraction at h
  split at h
  · obtain ⟨hne, hdigits, rfl, -⟩ := readSomeDigits_eq_ok h
    exact ⟨'.' :: ds, .point ⟨hne, hdigits⟩, rfl⟩
  · obtain ⟨rfl, rfl⟩ := Prod.mk.inj (Except.ok.inj h)
    exact ⟨[], .absent, rfl⟩

theorem isExponent_of_readExponent {s rest : List Char} {e : Option (Bool × List Char)}
    (h : readExponent s = .ok (e, rest)) : ∃ used, IsExponent used ∧ s = used ++ rest := by
  unfold readExponent at h
  split at h
  · obtain ⟨rfl, rfl⟩ := Prod.mk.inj (Except.ok.inj h)
    exact ⟨[], .absent, rfl⟩
  · next c after =>
      split at h
      · next hletter =>
          split at h
          · cases h
          · next ds after' hds =>
              obtain ⟨-, rfl⟩ := Prod.mk.inj (Except.ok.inj h)
              obtain ⟨hne, hdigits, hcut, -⟩ := readSomeDigits_eq_ok hds
              have hsign : ∃ sign, (sign = [] ∨ sign = ['+'] ∨ sign = ['-']) ∧
                  after = sign ++ (readSign after).2 := by
                unfold readSign
                split
                · exact ⟨['+'], by simp, rfl⟩
                · exact ⟨['-'], by simp, rfl⟩
                · exact ⟨[], by simp, rfl⟩
              obtain ⟨sign, hsign, hafter⟩ := hsign
              refine ⟨c :: (sign ++ ds), .power hletter hsign ⟨hne, hdigits⟩, ?_⟩
              rw [hafter, hcut, List.cons_append, List.append_assoc]
      · obtain ⟨rfl, rfl⟩ := Prod.mk.inj (Except.ok.inj h)
        exact ⟨[], .absent, rfl⟩

theorem isUnsigned_of_readUnsigned {negative : Bool} {s rest : List Char} {l : Leaf}
    (h : readUnsigned negative s = .ok (l, rest)) :
    ∃ used, IsUnsigned used ∧ s = used ++ rest ∧ ∃ n, l = .number n := by
  rw [readUnsigned_eq] at h
  obtain ⟨⟨whole, afterWhole⟩, hwhole, h⟩ := bind_eq_ok.mp h
  obtain ⟨⟨fraction, afterFraction⟩, hfraction, h⟩ := bind_eq_ok.mp h
  obtain ⟨⟨exponent, afterExponent⟩, hexponent, h⟩ := bind_eq_ok.mp h
  obtain ⟨rfl, rfl⟩ := Prod.mk.inj (Except.ok.inj h)
  obtain ⟨hne, hdigits, hzero, rfl, -⟩ := readWhole_eq_ok hwhole
  obtain ⟨used, hused, hcut⟩ := isFraction_of_readFraction hfraction
  obtain ⟨used', hused', hcut'⟩ := isExponent_of_readExponent hexponent
  dsimp only at hcut hcut'
  refine ⟨whole ++ (used ++ used'), .mk ⟨⟨hne, hdigits⟩, hzero⟩ hused hused', ?_, _, rfl⟩
  rw [hcut, hcut', List.append_assoc, List.append_assoc]

/-- What is read as a number is one. -/
theorem isNumber_of_readNumber {c : Char} {cs rest : List Char} {l : Leaf}
    (h : readNumber c cs = .ok (l, rest)) :
    ∃ used, IsNumber used ∧ c :: cs = used ++ rest ∧ ∃ n, l = .number n := by
  unfold readNumber at h
  split at h
  · next hsign =>
      obtain ⟨used, hused, rfl, hl⟩ := isUnsigned_of_readUnsigned h
      exact ⟨'-' :: used, .negative hused, by rw [hsign]; rfl, hl⟩
  · obtain ⟨used, hused, hcut, hl⟩ := isUnsigned_of_readUnsigned h
    exact ⟨used, .positive hused, hcut, hl⟩

theorem isStringUnit_of_readEscape {s rest : List Char} {u : TextUnit}
    (h : readEscape s = .ok (u, rest)) : ∃ used, IsStringUnit ('\\' :: used) ∧ s = used ++ rest := by
  unfold readEscape at h
  split at h
  case h_2 after =>
    unfold readCode at h
    split at h
    · next a b c d after' =>
        split at h
        · next ha hb hc hd =>
            obtain ⟨-, rfl⟩ := Prod.mk.inj (Except.ok.inj h)
            have hhex {c : Char} {n : Nat} (h : hexValue c = some n) : IsHexDigit c :=
              hexValue_isSome_iff.mp (Option.isSome_of_eq_some h)
            exact ⟨['u', a, b, c, d], .code (hhex ha) (hhex hb) (hhex hc) (hhex hd), rfl⟩
        · cases h
    · cases h
  all_goals cases h
  all_goals exact ⟨[_], .escape (by decide), rfl⟩

/-- What is read as a string without a fault is one. -/
theorem isStringTail_of_readString (s : List Char) (h : (readString s).1.fault = none) :
    ∃ used, IsStringTail used ∧ s = used ++ (readString s).2 := by
  fun_induction readString s with
  | case1 => cases h
  | case2 cs => exact ⟨['\"'], .quote, rfl⟩
  | case3 => cases h
  | case4 cs u rest hescape hlength t after hrest _ ih =>
      rw [hrest] at ih
      obtain ⟨used, hused, rfl⟩ := isStringUnit_of_readEscape hescape
      obtain ⟨used', hused', rfl⟩ := ih h
      exact ⟨'\\' :: used ++ used', .unit hused hused', by simp⟩
  | case5 => cases h
  | case6 c cs hquote hescape hlow t after hrest ih =>
      rw [hrest] at ih
      obtain ⟨used, hused, rfl⟩ := ih h
      exact ⟨[c] ++ used, .unit (.plain hquote hescape (Nat.not_lt.mp hlow)) hused, rfl⟩

theorem isScalar_of_readLeaf {c : Char} {cs rest : List Char} {l : Leaf}
    (h : readLeaf c cs = .ok (l, rest)) :
    ∃ used, IsScalar used ∧ c :: cs = used ++ rest ∧ ∀ s, l = .string s → IsString used := by
  unfold readLeaf at h
  split at h
  · next hquote =>
      split at h
      · cases h
      · next hfault =>
          obtain ⟨rfl, rfl⟩ := Prod.mk.inj (Except.ok.inj h)
          obtain ⟨used, hused, hcut⟩ := isStringTail_of_readString cs (by simpa using hfault)
          refine ⟨c :: used, ?_, congrArg (c :: ·) hcut, fun _ _ => ?_⟩
          all_goals rw [hquote]
          · exact .string ⟨hused⟩
          · exact ⟨hused⟩
  · split at h
    · obtain ⟨used, hused, hcut, n, rfl⟩ := isNumber_of_readNumber (mapError_eq_ok.mp h)
      exact ⟨used, .number hused, hcut, nofun⟩
    · split at h
      · next hc =>
          obtain ⟨rfl, rfl⟩ := readWord_eq_ok.mp (mapError_eq_ok.mp h)
          exact ⟨['n', 'u', 'l', 'l'], .null, by rw [hc]; rfl, nofun⟩
      · split at h
        · next hc =>
            obtain ⟨rfl, rfl⟩ := readWord_eq_ok.mp (mapError_eq_ok.mp h)
            exact ⟨['t', 'r', 'u', 'e'], .true, by rw [hc]; rfl, nofun⟩
        · split at h
          · next hc =>
              obtain ⟨rfl, rfl⟩ := readWord_eq_ok.mp (mapError_eq_ok.mp h)
              exact ⟨['f', 'a', 'l', 's', 'e'], .false, by rw [hc]; rfl, nofun⟩
          · cases h

/-! ## Only values are read to their end -/

/-- A text without tokens is blank. -/
theorem isBlank_of_ofChars {cs : List Char} (h : ofChars cs = []) : IsBlank cs := by
  fun_induction ofChars cs with
  | case1 => exact isBlank_nil
  | case2 c cs hspace ih => exact List.forall_mem_cons.mpr ⟨hspace, ih h⟩
  | case3 => cases h
  | case4 => cases h
  | case5 => cases h

/-- The text of a leaf with the blanks before it and what stands behind it. -/
theorem exists_of_ofChars_leaf {cs : List Char} {l : Leaf} {ts : List Token}
    (h : ofChars cs = .leaf l :: ts) (hwhole : l.isBroken = false) :
    ∃ before text after, IsBlank before ∧ IsScalar text ∧ (∀ s, l = .string s → IsString text) ∧
      cs = before ++ (text ++ after) ∧ ofChars after = ts := by
  fun_induction ofChars cs with
  | case1 => cases h
  | case2 c cs hspace ih =>
      obtain ⟨before, text, after, hbefore, htext, hstring, rfl, hafter⟩ := ih h
      exact ⟨c :: before, text, after, List.forall_mem_cons.mpr ⟨hspace, hbefore⟩, htext, hstring,
        rfl, hafter⟩
  | case3 c cs hspace t hpunctuation ih =>
      obtain ⟨rfl, -⟩ := List.cons.inj h
      unfold ofPunctuation at hpunctuation
      split at hpunctuation <;> cases hpunctuation
  | case4 c cs hspace hpunctuation t hbroken =>
      obtain ⟨rfl, -⟩ := List.cons.inj h
      have hleaf : l.isBroken = true := isBroken_of_readLeaf hbroken
      rw [hwhole] at hleaf
      cases hleaf
  | case5 c cs hspace hpunctuation l' rest hread hlength ih =>
      obtain ⟨heq, rfl⟩ := List.cons.inj h
      obtain rfl := Token.leaf.inj heq
      obtain ⟨used, hused, hcut, hstring⟩ := isScalar_of_readLeaf hread
      exact ⟨[], used, rest, isBlank_nil, hused, hstring, hcut, rfl⟩

theorem ofPunctuation_inj {c d : Char} {t : Token} (hc : ofPunctuation c = some t)
    (hd : ofPunctuation d = some t) : c = d := by
  unfold ofPunctuation at hc
  split at hc
  case h_7 => cases hc
  all_goals
    obtain rfl := Option.some.inj hc
    unfold ofPunctuation at hd
    split at hd <;> first | rfl | cases hd

/-- A text is cut at the character of one of its tokens. -/
theorem exists_of_ofChars_punctuation {d : Char} {t : Token} (hd : ofPunctuation d = some t)
    {cs : List Char} {ts us : List Token} (h : ofChars cs = ts ++ t :: us) :
    ∃ before after, cs = before ++ d :: after ∧ ofChars before = ts ∧ ofChars after = us := by
  have hleaf : ∀ l, t ≠ .leaf l := by
    rintro l rfl
    unfold ofPunctuation at hd
    split at hd <;> cases hd
  obtain ⟨before, c, after, hcut, hc, hbefore, hafter⟩ :=
    exists_of_ofChars_eq hleaf (not_isSpace_of_punctuation hd).2.2 h
  exact ⟨before, after, by rw [hcut, ofPunctuation_inj hc hd], hbefore, hafter⟩

section Rows

variable {α β : Type} {row : β → List Char → Prop} {good : β → Prop} {tokens : α → List Token}

/-- A text is divided into rows if each row can be told from its tokens. -/
theorem exists_separated {as : List α} {cs : List Char}
    (hrow : ∀ a ∈ as, ∀ cs, ofChars cs = tokens a → ∃ b, good b ∧ row b cs)
    (h : ofChars cs = [.comma].intercalate (as.map tokens)) :
    ∃ bs, bs.length = as.length ∧ (∀ b ∈ bs, good b) ∧ Separated row bs cs := by
  induction as generalizing cs with
  | nil => exact ⟨[], rfl, nofun, .none (isBlank_of_ofChars h)⟩
  | cons a as ih =>
      obtain ⟨ha, has⟩ := List.forall_mem_cons.mp hrow
      cases as with
      | nil =>
          rw [List.map_singleton, List.intercalate_singleton] at h
          obtain ⟨b, hb, hcs⟩ := ha cs h
          exact ⟨[b], rfl, List.forall_mem_singleton.mpr hb, .one hcs⟩
      | cons next as =>
          rw [List.map_cons, List.map_cons, List.intercalate_cons_cons, ← List.map_cons,
            List.append_assoc, List.singleton_append] at h
          have hcomma : ofPunctuation ',' = some .comma := rfl
          obtain ⟨before, after, rfl, hbefore, hafter⟩ := exists_of_ofChars_punctuation hcomma h
          obtain ⟨b, hb, hrowBefore⟩ := ha before hbefore
          obtain ⟨bs, hlength, hbs, hseparated⟩ := ih has hafter
          cases bs with
          | nil => cases hlength
          | cons b' bs =>
              exact ⟨b :: b' :: bs, congrArg (· + 1) hlength, List.forall_mem_cons.mpr ⟨hb, hbs⟩,
                .cons hrowBefore hseparated⟩

end Rows

/-- What stands inside brackets, when nothing but blanks stands outside. -/
theorem exists_enclosed {first last : Char} {t u : Token} (hfirst : ofPunctuation first = some t)
    (hlast : ofPunctuation last = some u) {cs : List Char} {ts : List Token}
    (h : ofChars cs = t :: (ts ++ [u])) :
    ∃ inside, ofChars inside = ts ∧ Pads (first :: (inside ++ [last])) cs := by
  have hstart : ofChars cs = [] ++ t :: (ts ++ [u]) := h
  obtain ⟨before, rest, rfl, hbefore, hrest⟩ := exists_of_ofChars_punctuation hfirst hstart
  obtain ⟨inside, after, rfl, hinside, hafter⟩ := exists_of_ofChars_punctuation hlast hrest
  refine ⟨inside, hinside, ?_⟩
  have hpads : Pads (first :: (inside ++ [last]))
      (before ++ (first :: (inside ++ [last]) ++ after)) :=
    .mk (isBlank_of_ofChars hbefore) (isBlank_of_ofChars hafter)
  rwa [List.cons_append, List.append_assoc] at hpads

/-- An object is a whole text. -/
theorem IsObject.isText {members : List Member} {cs : List Char} (h : IsObject members cs) :
    IsText cs := by
  obtain ⟨hmembers, inside, hinside, hpads⟩ := h
  exact ⟨_, .object (fun m hm => (hmembers m hm).1) (fun m hm => (hmembers m hm).2) hinside, hpads⟩

theorem exists_key {k : Node} (hk : k.IsKey) {cs : List Char} (h : ofChars cs = k.tokens) :
    ∃ key, IsString key ∧ Pads key cs := by
  obtain ⟨s, hs, rfl, htokens⟩ := hk.tokens
  rw [htokens] at h
  obtain ⟨before, key, after, hbefore, -, hstring, rfl, hafter⟩ :=
    exists_of_ofChars_leaf h (by rw [Leaf.isBroken, hs]; rfl)
  exact ⟨key, hstring s rfl, .mk hbefore (isBlank_of_ofChars hafter)⟩

/-- The tokens of an object are spelled by one. -/
theorem exists_isObject {ms : List (Node × Node)}
    (hms : ∀ m ∈ ms, m.1.IsKey ∧ ∀ cs, ofChars cs = m.2.tokens → IsText cs) {cs : List Char}
    (h : ofChars cs = (Node.object ms none).tokens) : ∃ members, IsObject members cs := by
  rw [Node.tokens, Node.memberTokens_eq, List.cons_append] at h
  have hopen : ofPunctuation '\x7b' = some .openObject := rfl
  have hclose : ofPunctuation '\x7d' = some .closeObject := rfl
  obtain ⟨inside, hinside, hpads⟩ := exists_enclosed hopen hclose h
  have hrow : ∀ m ∈ ms, ∀ cs, ofChars cs = Node.tokensOfMember m →
      ∃ member : Member, (IsString member.key ∧ IsValue member.value) ∧ member.Row cs := by
    intro m hm cs hcs
    have hcolon : ofPunctuation ':' = some .colon := rfl
    obtain ⟨before, after, rfl, hbefore, hafter⟩ := exists_of_ofChars_punctuation hcolon hcs
    obtain ⟨key, hkey, hkeyPads⟩ := exists_key (hms m hm).1 hbefore
    obtain ⟨value, hvalue, hvaluePads⟩ := (hms m hm).2 after hafter
    exact ⟨⟨key, value⟩, ⟨hkey, hvalue⟩, .mk hkeyPads hvaluePads⟩
  obtain ⟨members, -, hmembers, hseparated⟩ := exists_separated hrow hinside
  exact ⟨members, hmembers, inside, hseparated, hpads⟩

/-- The tokens of a value that is whole are spelled by a whole text. -/
theorem isText_of_tokens {n : Node} (hn : n.IsWhole) {cs : List Char} (h : ofChars cs = n.tokens) :
    IsText cs := by
  induction n using Node.induction generalizing cs with
  | leaf l =>
      obtain ⟨before, text, after, hbefore, htext, -, rfl, hafter⟩ :=
        exists_of_ofChars_leaf h (Node.isWhole_leaf.mp hn)
      exact ⟨text, .scalar htext, .mk hbefore (isBlank_of_ofChars hafter)⟩
  | array ns fault ih =>
      obtain ⟨hns, rfl⟩ := Node.isWhole_array.mp hn
      rw [Node.tokens, Node.itemTokens_eq, List.cons_append] at h
      have hopen : ofPunctuation '[' = some .openArray := rfl
      have hclose : ofPunctuation ']' = some .closeArray := rfl
      obtain ⟨inside, hinside, hpads⟩ := exists_enclosed hopen hclose h
      have hrow : ∀ n ∈ ns, ∀ cs, ofChars cs = n.tokens → ∃ item, IsValue item ∧ Pads item cs :=
        fun n hn _ hcs => ih n hn (hns n hn) hcs
      obtain ⟨items, -, hitems, hseparated⟩ := exists_separated hrow hinside
      exact ⟨_, .array hitems hseparated, hpads⟩
  | object ms fault ih =>
      obtain ⟨hms, rfl⟩ := Node.isWhole_object.mp hn
      obtain ⟨members, hmembers⟩ := exists_isObject
        (fun m hm => ⟨(hms m hm).1, fun _ hcs => (ih m hm).2 (hms m hm).2 hcs⟩) h
      exact hmembers.isText
  | broken f => exact absurd hn (Node.not_isWhole_broken f)

/-- The reader comes to the end of a text without a fault exactly if the text is JSON. -/
theorem isWhole_read_iff {s : String} : (Document.read s).IsWhole ↔ IsText s.toList := by
  constructor
  · intro h
    exact isText_of_tokens h.2 (reads_of_isWhole h).1
  · rintro ⟨text, htext, hpads⟩
    rw [(reads_pads (reads_value htext) hpads).read]
    exact ⟨rfl, (reads_value htext).2⟩

/-- Only objects start with the bracket of an object. -/
theorem IsValue.head {cs : List Char} (h : IsValue cs) :
    ∃ c rest, cs = c :: rest ∧ isSpace c = false ∧ (c = '\x7b' → ∃ members inside,
      (∀ m ∈ members, IsString m.key ∧ IsValue m.value) ∧ Separated Member.Row members inside ∧
        cs = '\x7b' :: (inside ++ ['\x7d'])) := by
  cases h with
  | scalar hcs =>
      have hhead : ∃ c rest, cs = c :: rest ∧ isSpace c = false ∧ c ≠ '\x7b' := by
        cases hcs with
        | null => exact ⟨_, _, rfl, by decide, by decide⟩
        | true => exact ⟨_, _, rfl, by decide, by decide⟩
        | false => exact ⟨_, _, rfl, by decide, by decide⟩
        | string hcs =>
            cases hcs
            exact ⟨_, _, rfl, by decide, by decide⟩
        | number hcs =>
            cases hcs with
            | negative _ => exact ⟨_, _, rfl, by decide, by decide⟩
            | positive hcs =>
                obtain ⟨d, ds, rfl, hd⟩ := hcs.head
                refine ⟨d, ds, rfl, ?_, ?_⟩
                · cases hspace : isSpace d with
                  | false => rfl
                  | true =>
                      have hnumber := not_continuesNumber_of_isSpace hspace
                      rw [continuesNumber_of_isDigit hd] at hnumber
                      cases hnumber
                · rintro rfl
                  exact absurd hd (by decide)
      obtain ⟨c, rest, hcs, hspace, hbracket⟩ := hhead
      exact ⟨c, rest, hcs, hspace, fun heq => absurd heq hbracket⟩
  | array _ _ => exact ⟨_, _, rfl, by decide, fun heq => absurd heq (by decide)⟩
  | object hkeys hvalues hinside =>
      exact ⟨_, _, rfl, by decide, fun _ =>
        ⟨_, _, fun m hm => ⟨hkeys m hm, hvalues m hm⟩, hinside, rfl⟩⟩

theorem dropWhile_append_of_isBlank {blank : List Char} (hblank : IsBlank blank) {c : Char}
    (hc : isSpace c = false) (rest : List Char) :
    (blank ++ c :: rest).dropWhile isSpace = c :: rest := by
  rw [List.dropWhile_append_of_pos hblank, List.dropWhile_cons_of_neg (by simp [hc])]

/-- A text that starts like an object is the text of some members. -/
theorem exists_isObject_of_isText {cs : List Char} (h : IsText cs) {blank rest : List Char}
    (hblank : IsBlank blank) (hstart : cs = blank ++ '\x7b' :: rest) :
    ∃ members, IsObject members cs := by
  obtain ⟨text, htext, @⟨before, after, hbefore, hafter⟩⟩ := h
  obtain ⟨c, tail, rfl, hspace, hobject⟩ := htext.head
  have hdrop := congrArg (List.dropWhile isSpace) hstart
  rw [List.cons_append, dropWhile_append_of_isBlank hbefore hspace,
    dropWhile_append_of_isBlank hblank (by decide)] at hdrop
  obtain ⟨members, inside, hmembers, hinside, heq⟩ := hobject (List.cons.inj hdrop).1
  rw [heq]
  exact ⟨members, hmembers, inside, hinside, .mk hbefore hafter⟩

end GameExport.Json.Grammar
