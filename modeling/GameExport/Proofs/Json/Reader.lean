import GameExport.Json.Reader
import GameExport.Proofs.Json.Token
import Mathlib.Data.List.Basic

/-! # What a document is read from

A value that is whole is read from its own tokens, whatever surrounds it, and a document that is
whole was read from these tokens and no others.
-/

namespace GameExport.Json

namespace Node

/-! ## Values without a fault -/

/-- Nothing in the value breaks off. -/
def IsWhole (n : Node) : Prop := n.skipFault = none

def IsKey (n : Node) : Prop := ∃ s, n = .leaf (.string s) ∧ s.fault = none

/-- Values one inside the other: what holds of a container if it holds of all its parts. -/
theorem induction {P : Node → Prop} (leaf : ∀ l, P (.leaf l))
    (array : ∀ ns fault, (∀ n ∈ ns, P n) → P (.array ns fault))
    (object : ∀ ms fault, (∀ m ∈ ms, P m.1 ∧ P m.2) → P (.object ms fault))
    (broken : ∀ f, P (.broken f)) (n : Node) : P n :=
  @Node.rec P (fun ns => ∀ n ∈ ns, P n) (fun ms => ∀ m ∈ ms, P m.1 ∧ P m.2)
    (fun m => P m.1 ∧ P m.2) leaf (fun ns fault => array ns fault) (fun ms fault => object ms fault) broken nofun
    (fun _ _ hn hns => List.forall_mem_cons.mpr ⟨hn, hns⟩) nofun
    (fun _ _ hm hms => List.forall_mem_cons.mpr ⟨hm, hms⟩) (fun _ _ hk hv => ⟨hk, hv⟩) n

theorem isWhole_leaf {l : Leaf} : (Node.leaf l).IsWhole ↔ l.isBroken = false := by
  cases l <;> simp [IsWhole, skipFault, leafFault, Leaf.isBroken]

/-- An array is whole if its items are and it is closed. -/
theorem isWhole_array {ns : List Node} {fault : Option Fault} :
    (Node.array ns fault).IsWhole ↔ (∀ n ∈ ns, n.IsWhole) ∧ fault = none := by
  have hitems : skipItems ns = none ↔ ∀ n ∈ ns, n.IsWhole := by
    induction ns with
    | nil => simp [skipItems]
    | cons n ns ih => rw [skipItems, Option.or_eq_none_iff, ih, List.forall_mem_cons, IsWhole]
  rw [IsWhole, skipFault, Option.or_eq_none_iff, hitems]

theorem keyFault_eq_none_iff {k : Node} : keyFault k = none ↔ k.IsKey := by
  unfold keyFault IsKey
  split
  · next s => simp
  · simp
  · next hstring hbroken =>
      simp only [reduceCtorEq, false_iff]
      rintro ⟨s, rfl, -⟩
      exact hstring s rfl

/-- An object is whole if its keys and values are and it is closed. -/
theorem isWhole_object {ms : List (Node × Node)} {fault : Option Fault} :
    (Node.object ms fault).IsWhole ↔ (∀ m ∈ ms, m.1.IsKey ∧ m.2.IsWhole) ∧ fault = none := by
  have hmembers : skipMembers ms = none ↔ ∀ m ∈ ms, m.1.IsKey ∧ m.2.IsWhole := by
    induction ms with
    | nil => simp [skipMembers]
    | cons m ms ih =>
        rw [skipMembers, Option.or_eq_none_iff, Option.or_eq_none_iff, ih, List.forall_mem_cons,
          keyFault_eq_none_iff, IsWhole]
  rw [IsWhole, skipFault, Option.or_eq_none_iff, hmembers]

theorem not_isWhole_broken (f : Fault) : ¬ (Node.broken f).IsWhole := by
  simp [IsWhole, skipFault]

/-! ## The tokens of a value -/

mutual

def tokens : Node → List Token
  | .leaf l => [.leaf l]
  | .array ns _ => .openArray :: [.comma].intercalate (itemTokens ns) ++ [.closeArray]
  | .object ms _ => .openObject :: [.comma].intercalate (memberTokens ms) ++ [.closeObject]
  | .broken _ => []

def itemTokens : List Node → List (List Token)
  | [] => []
  | n :: ns => n.tokens :: itemTokens ns

def memberTokens : List (Node × Node) → List (List Token)
  | [] => []
  | (k, v) :: ms => (k.tokens ++ .colon :: v.tokens) :: memberTokens ms

end

theorem itemTokens_eq (ns : List Node) : itemTokens ns = ns.map tokens := by
  induction ns with
  | nil => rfl
  | cons n ns ih => rw [itemTokens, ih, List.map_cons]

def tokensOfMember (m : Node × Node) : List Token := m.1.tokens ++ .colon :: m.2.tokens

theorem memberTokens_eq (ms : List (Node × Node)) : memberTokens ms = ms.map tokensOfMember := by
  induction ms with
  | nil => rfl
  | cons m ms ih => rw [memberTokens, ih, List.map_cons, tokensOfMember]

theorem IsKey.tokens {k : Node} (h : k.IsKey) :
    ∃ s, s.fault = none ∧ k = .leaf (.string s) ∧ k.tokens = [.leaf (.string s)] := by
  obtain ⟨s, rfl, hs⟩ := h
  exact ⟨s, hs, rfl, rfl⟩

/-- No value starts like the end of an array. -/
theorem exists_tokens_eq_cons {n : Node} (h : n.IsWhole) :
    ∃ t ts, n.tokens = t :: ts ∧ t ≠ .closeArray := by
  cases n with
  | leaf l => exact ⟨_, _, rfl, by simp⟩
  | array ns fault => exact ⟨_, _, rfl, by simp⟩
  | object ms fault => exact ⟨_, _, rfl, by simp⟩
  | broken f => exact absurd h (not_isWhole_broken f)

theorem exists_intercalate_eq_cons (t : Token) (row : List Token) (rows : List (List Token)) :
    ∃ ts, [.comma].intercalate ((t :: row) :: rows) = t :: ts := by
  cases rows with
  | nil => exact ⟨row, List.intercalate_singleton⟩
  | cons next rows =>
      exact ⟨row ++ .comma :: [.comma].intercalate (next :: rows), by
        rw [List.intercalate_cons_cons, List.append_assoc, List.cons_append,
          List.singleton_append]⟩

theorem areWhole_intercalate {rows : List (List Token)} (h : ∀ row ∈ rows, Token.AreWhole row) :
    Token.AreWhole ([.comma].intercalate rows) := by
  induction rows with
  | nil => exact Token.areWhole_nil
  | cons row rows ih =>
      obtain ⟨hrow, hrows⟩ := List.forall_mem_cons.mp h
      cases rows with
      | nil => rwa [List.intercalate_singleton]
      | cons next rows =>
          rw [List.intercalate_cons_cons, List.append_assoc, List.singleton_append]
          exact Token.areWhole_append.mpr ⟨hrow, Token.areWhole_cons.mpr ⟨rfl, ih hrows⟩⟩

/-- A value that is whole is spelled by tokens that are. -/
theorem areWhole_tokens {n : Node} (h : n.IsWhole) : Token.AreWhole n.tokens := by
  induction n using Node.induction with
  | leaf l => exact Token.areWhole_cons.mpr ⟨isWhole_leaf.mp h, Token.areWhole_nil⟩
  | array ns fault ih =>
      obtain ⟨hns, -⟩ := isWhole_array.mp h
      rw [tokens, itemTokens_eq, List.cons_append]
      refine Token.areWhole_cons.mpr ⟨rfl, Token.areWhole_append.mpr
        ⟨areWhole_intercalate ?_, Token.areWhole_cons.mpr ⟨rfl, Token.areWhole_nil⟩⟩⟩
      exact List.forall_mem_map.mpr fun n hn => ih n hn (hns n hn)
  | object ms fault ih =>
      obtain ⟨hms, -⟩ := isWhole_object.mp h
      rw [tokens, memberTokens_eq, List.cons_append]
      refine Token.areWhole_cons.mpr ⟨rfl, Token.areWhole_append.mpr
        ⟨areWhole_intercalate ?_, Token.areWhole_cons.mpr ⟨rfl, Token.areWhole_nil⟩⟩⟩
      refine List.forall_mem_map.mpr fun m hm => ?_
      obtain ⟨hkey, hvalue⟩ := hms m hm
      obtain ⟨s, hs, -, htokens⟩ := hkey.tokens
      rw [tokensOfMember, htokens, List.singleton_append]
      refine Token.areWhole_cons.mpr ⟨?_, Token.areWhole_cons.mpr ⟨rfl, (ih m hm).2 hvalue⟩⟩
      simp [Token.isBroken, Leaf.isBroken, hs]
  | broken f => exact absurd h (not_isWhole_broken f)

end Node

/-! ## Reading the tokens of a value -/

namespace Reader

open Node

/-- After a leaf the value that holds it goes on. -/
theorem value_leaf {l : Leaf} (h : l.isBroken = false) (ts : List Token) (frames : List Frame) :
    value (.leaf l :: ts) frames = after (.leaf l) ts frames := by
  rw [value, if_neg (by simp [h])]

theorem value_openArray {ts : List Token} (h : ∀ us, ts ≠ .closeArray :: us)
    (frames : List Frame) : value (.openArray :: ts) frames = value ts (.array [] :: frames) := by
  rw [value]
  exact h

theorem value_openObject {ts : List Token} (h : ∀ us, ts ≠ .closeObject :: us)
    (frames : List Frame) : value (.openObject :: ts) frames = key [] ts frames := by
  rw [value]
  exact h

theorem key_string {s : Spelling} (h : s.fault = none) (members : List (Node × Node))
    (ts : List Token) (frames : List Frame) :
    key members (.leaf (.string s) :: .colon :: ts) frames =
      value ts (.object members (.leaf (.string s)) :: frames) := by
  rw [key]
  simp [h]

/-- A value is read from its tokens, wherever it stands. -/
def ReadsBack (n : Node) : Prop :=
  ∀ ts frames, value (n.tokens ++ ts) frames = after n ts frames

/-- A member is read as its key and its value. -/
theorem key_member {m : Node × Node} (hkey : m.1.IsKey) (hvalue : ReadsBack m.2)
    (members : List (Node × Node)) (ts : List Token) (frames : List Frame) :
    key members (tokensOfMember m ++ ts) frames =
      after m.2 ts (.object members m.1 :: frames) := by
  obtain ⟨s, hs, hk, htokens⟩ := hkey.tokens
  rw [tokensOfMember, htokens, List.append_assoc, List.singleton_append, List.cons_append,
    key_string hs, hvalue, hk]

/-- The items of an array, behind those that have been read. -/
theorem value_items {n : Node} {ns : List Node} (h : ∀ m ∈ n :: ns, ReadsBack m)
    (items : List Node) (ts : List Token) (frames : List Frame) :
    value ([.comma].intercalate ((n :: ns).map tokens) ++ .closeArray :: ts)
        (.array items :: frames) =
      after (.array (items.reverse ++ n :: ns) none) ts frames := by
  obtain ⟨hn, hns⟩ := List.forall_mem_cons.mp h
  induction ns generalizing n items with
  | nil =>
      rw [List.map_singleton, List.intercalate_singleton, hn, after, List.reverse_cons]
  | cons next ns ih =>
      obtain ⟨hnext, hrest⟩ := List.forall_mem_cons.mp hns
      rw [List.map_cons, List.map_cons, List.intercalate_cons_cons, List.append_assoc,
        List.append_assoc, hn, List.singleton_append, after, ← List.map_cons,
        ih hns _ hnext hrest, List.reverse_cons, List.append_assoc, List.singleton_append]

/-- The members of an object, behind those that have been read. -/
theorem key_members {m : Node × Node} {ms : List (Node × Node)}
    (h : ∀ m' ∈ m :: ms, m'.1.IsKey ∧ ReadsBack m'.2)
    (members : List (Node × Node)) (ts : List Token) (frames : List Frame) :
    key members ([.comma].intercalate ((m :: ms).map tokensOfMember) ++ .closeObject :: ts) frames =
      after (.object (members.reverse ++ m :: ms) none) ts frames := by
  obtain ⟨⟨hkey, hvalue⟩, hms⟩ := List.forall_mem_cons.mp h
  induction ms generalizing m members with
  | nil =>
      rw [List.map_singleton, List.intercalate_singleton, key_member hkey hvalue, after,
        List.reverse_cons]
  | cons next ms ih =>
      obtain ⟨⟨hkey', hvalue'⟩, hrest⟩ := List.forall_mem_cons.mp hms
      rw [List.map_cons, List.map_cons, List.intercalate_cons_cons, List.append_assoc,
        List.append_assoc, key_member hkey hvalue, List.singleton_append, after, ← List.map_cons,
        ih hms _ hrest hkey' hvalue', List.reverse_cons, List.append_assoc, List.singleton_append]

/-- Every value that is whole is read back from its tokens. -/
theorem readsBack_of_isWhole {n : Node} (h : n.IsWhole) : ReadsBack n := by
  induction n using Node.induction with
  | leaf l => exact value_leaf (isWhole_leaf.mp h)
  | array ns fault ih =>
      obtain ⟨hns, rfl⟩ := isWhole_array.mp h
      intro ts frames
      cases ns with
      | nil => rfl
      | cons n ns =>
          have hitems := value_items (fun m hm => ih m hm (hns m hm)) [] ts frames
          obtain ⟨t, row, hn, ht⟩ := exists_tokens_eq_cons (hns n List.mem_cons_self)
          obtain ⟨us, hus⟩ := exists_intercalate_eq_cons t row (ns.map tokens)
          rw [List.map_cons, hn, hus] at hitems
          rw [Node.tokens, itemTokens_eq, List.map_cons, hn, hus, List.append_assoc]
          exact (value_openArray (fun _ heq => ht (List.cons.inj heq).1) frames).trans hitems
  | object ms fault ih =>
      obtain ⟨hms, rfl⟩ := isWhole_object.mp h
      intro ts frames
      cases ms with
      | nil => rfl
      | cons m ms =>
          have hall : ∀ m' ∈ m :: ms, m'.1.IsKey ∧ ReadsBack m'.2 := fun m' hm =>
            ⟨(hms m' hm).1, (ih m' hm).2 (hms m' hm).2⟩
          have hmembers := key_members hall [] ts frames
          obtain ⟨s, -, -, hs⟩ := (hms m List.mem_cons_self).1.tokens
          have hm : tokensOfMember m = .leaf (.string s) :: .colon :: m.2.tokens := by
            rw [tokensOfMember, hs, List.singleton_append]
          obtain ⟨us, hus⟩ := exists_intercalate_eq_cons (.leaf (.string s)) (.colon :: m.2.tokens)
            (ms.map tokensOfMember)
          rw [List.map_cons, hm, hus] at hmembers
          rw [Node.tokens, memberTokens_eq, List.map_cons, hm, hus, List.append_assoc]
          exact (value_openObject (fun _ heq => by cases heq) frames).trans hmembers
  | broken f => exact absurd h (not_isWhole_broken f)

/-! ## The tokens that have been read -/

def beforeCommas (rows : List (List Token)) : List Token := rows.flatMap (· ++ [.comma])

/-- The last row has no comma behind it. -/
theorem intercalate_concat (rows : List (List Token)) (row : List Token) :
    [.comma].intercalate (rows ++ [row]) = beforeCommas rows ++ row := by
  induction rows with
  | nil => exact List.intercalate_singleton
  | cons first rows ih =>
      obtain ⟨next, rest, hrest⟩ := List.exists_cons_of_ne_nil (l := rows ++ [row]) (by simp)
      rw [List.cons_append, hrest, List.intercalate_cons_cons, ← hrest, ih, beforeCommas,
        beforeCommas, List.flatMap_cons, List.append_assoc, List.append_assoc, List.append_assoc]

/-- The tokens of an open container, up to the value that is being read. -/
def tokensOfFrame : Frame → List Token
  | .array items => .openArray :: beforeCommas (items.reverse.map tokens)
  | .object members k =>
      .openObject :: beforeCommas (members.reverse.map tokensOfMember) ++ k.tokens ++ [.colon]

def opened : List Frame → List Token
  | [] => []
  | frame :: frames => opened frames ++ tokensOfFrame frame

theorem tokens_array_reverse (n : Node) (items : List Node) :
    (Node.array (n :: items).reverse none).tokens =
      tokensOfFrame (.array items) ++ n.tokens ++ [.closeArray] := by
  rw [Node.tokens, itemTokens_eq, List.reverse_cons, List.map_append, List.map_singleton,
    intercalate_concat, tokensOfFrame]
  rfl

theorem tokens_object_reverse (k n : Node) (members : List (Node × Node)) :
    (Node.object ((k, n) :: members).reverse none).tokens =
      tokensOfFrame (.object members k) ++ n.tokens ++ [.closeObject] := by
  rw [Node.tokens, memberTokens_eq, List.reverse_cons, List.map_append, List.map_singleton,
    intercalate_concat, tokensOfFrame, tokensOfMember]
  simp

end Reader

def Document.IsWhole (doc : Document) : Prop := doc.closed ∧ doc.root.IsWhole

namespace Reader

open Node

/-- What is read behind a value with a fault does not mend it. -/
theorem isWhole_of_stop {n : Node} {frames : List Frame} (h : (stop n frames).IsWhole) :
    n.IsWhole := by
  induction frames generalizing n with
  | nil => exact h.2
  | cons frame frames ih =>
      have hclosed := ih h
      cases frame with
      | array items => exact (isWhole_array.mp hclosed).1 n (by simp)
      | object members k => exact ((isWhole_object.mp hclosed).1 (k, n) (by simp)).2

theorem not_isWhole_close (n : Node) (f : Fault) (frame : Frame) :
    ¬ (frame.close n (some f)).IsWhole := by
  cases frame with
  | array items => exact fun h => absurd (isWhole_array.mp h).2 (by simp)
  | object members k => exact fun h => absurd (isWhole_object.mp h).2 (by simp)

theorem not_isWhole_stop_broken (f : Fault) (frames : List Frame) :
    ¬ (stop (.broken f) frames).IsWhole :=
  fun h => not_isWhole_broken f (isWhole_of_stop h)

theorem not_isWhole_stop_close (n : Node) (f : Fault) (frame : Frame) (frames : List Frame) :
    ¬ (stop (frame.close n (some f)) frames).IsWhole :=
  fun h => not_isWhole_close n f frame (isWhole_of_stop h)

/-- A document that is whole was read from the tokens of its value, and from nothing else. -/
theorem tokens_of_value (ts : List Token) (frames : List Frame) :
    (value ts frames).IsWhole → opened frames ++ ts = (value ts frames).root.tokens := by
  -- what has been read and what is still to be read is the whole text at every moment
  induction ts, frames using value.induct _
    (fun members ts frames =>
      (key members ts frames).IsWhole →
        opened frames ++ .openObject :: beforeCommas (members.reverse.map tokensOfMember) ++ ts =
          (key members ts frames).root.tokens)
    (fun n ts frames =>
      (after n ts frames).IsWhole →
        opened frames ++ n.tokens ++ ts = (after n ts frames).root.tokens) with
  | case1 frames => exact fun h => absurd h (not_isWhole_stop_broken _ _)
  | case2 l ts frames hl =>
      intro h
      rw [value, if_pos hl] at h
      have hwhole := isWhole_leaf.mp (isWhole_of_stop h)
      rw [hl] at hwhole
      cases hwhole
  | case3 l ts frames hl ih =>
      intro h
      rw [value, if_neg hl] at h ⊢
      rw [← ih h, Node.tokens, List.append_assoc, List.singleton_append]
  | case4 ts frames ih =>
      intro h
      have hread := ih h
      rw [Node.tokens, itemTokens, List.append_assoc] at hread
      exact hread
  | case5 ts frames hclose ih =>
      intro h
      rw [value_openArray hclose] at h ⊢
      rw [← ih h, opened, tokensOfFrame, List.append_assoc]
      rfl
  | case6 ts frames ih =>
      intro h
      have hread := ih h
      rw [Node.tokens, memberTokens, List.append_assoc] at hread
      exact hread
  | case7 ts frames hclose ih =>
      intro h
      rw [value_openObject hclose] at h ⊢
      rw [← ih h, List.append_assoc]
      rfl
  | case8 t ts frames hleaf harray hopenArray hobject hopenObject =>
      intro h
      rw [value.eq_7 _ _ _ hleaf harray hopenArray hobject hopenObject] at h
      exact absurd h (not_isWhole_stop_broken _ _)
  | case9 members frames h =>
      rw [key] at h
      have hmembers := (isWhole_object.mp (isWhole_of_stop h)).1
      obtain ⟨hkey, -⟩ := hmembers (.broken .ended, .broken .ended) (by simp)
      obtain ⟨s, hs, -⟩ := hkey
      cases hs
  | case10 members s ts frames hs h =>
      have hstop : key members (.leaf (.string s) :: ts) frames =
          stop (.broken .malformed) (.object members (.leaf (.string s)) :: frames) := by
        rw [key.eq_def]
        simp [hs]
      rw [hstop] at h
      exact absurd h (not_isWhole_stop_broken _ _)
  | case11 members s frames k hs rest ih h =>
      rw [key, if_neg hs] at h ⊢
      rw [← ih h, opened, tokensOfFrame, Node.tokens]
      simp
  | case12 members s frames hs h =>
      rw [key, if_neg hs] at h
      exact absurd h (not_isWhole_stop_broken _ _)
  | case13 members s frames hs t ts ht h =>
      rw [key.eq_4 _ _ _ _ _ ht, if_neg hs] at h
      exact absurd h (not_isWhole_stop_broken _ _)
  | case14 members t ts frames ht h =>
      rw [key.eq_5 _ _ _ _ ht] at h
      exact absurd h (not_isWhole_stop_broken _ _)
  | case15 n ts h =>
      rw [after] at h ⊢
      rw [List.isEmpty_iff.mp h.1, opened, List.nil_append, List.append_nil]
  | case16 n frame frames h =>
      rw [after] at h
      exact absurd h (not_isWhole_stop_close _ _ _ _)
  | case17 n ts items frames ih h =>
      rw [after] at h ⊢
      rw [← ih h, opened, opened, tokensOfFrame, tokensOfFrame, beforeCommas, beforeCommas]
      simp
  | case18 n ts members k frames ih h =>
      rw [after] at h ⊢
      rw [← ih h, opened, tokensOfFrame, beforeCommas, beforeCommas]
      simp [tokensOfMember]
  | case19 n ts items frames ih h =>
      rw [after] at h ⊢
      rw [← ih h, tokens_array_reverse, opened]
      simp
  | case20 n ts members k frames ih h =>
      rw [after] at h ⊢
      rw [← ih h, tokens_object_reverse, opened]
      simp
  | case21 n t ts frame frames hcomma hcomma' hcloseArray hcloseObject h =>
      rw [after.eq_7 _ _ _ _ _ hcomma hcomma' hcloseArray hcloseObject] at h
      exact absurd h (not_isWhole_stop_close _ _ _ _)

end Reader

/-! ## Texts -/

/-- A text that is this one value, and no more. -/
def Reads (cs : List Char) (n : Node) : Prop := Token.ofChars cs = n.tokens ∧ n.IsWhole

/-- A text that spells one value is read as that value. -/
theorem Reads.read {s : String} {n : Node} (h : Reads s.toList n) : Document.read s = ⟨n, true⟩ := by
  rw [Document.read, h.1, ← List.append_nil n.tokens, Reader.readsBack_of_isWhole h.2]
  rfl

/-- A text that is read without a fault spells what is read. -/
theorem reads_of_isWhole {s : String} (h : (Document.read s).IsWhole) :
    Reads s.toList (Document.read s).root :=
  ⟨Reader.tokens_of_value _ [] h, h.2⟩

end GameExport.Json
