import GameExport.Json.Token
import GameExport.Proofs.Action

/-! # Tokens of composed texts

Each token is read from its own characters. One character behind it is looked at, and only to see
whether a number goes on. So texts may be put together or taken apart wherever no number is cut, and
their tokens are put together or taken apart with them.
-/

namespace GameExport.Json.Token

/-! ## Looking no further -/

/-- A character that goes on with a number when it stands behind one. -/
def continuesNumber (c : Char) : Bool := c.isDigit || c = '.' || c = 'e' || c = 'E'

/-- A text that goes on with no number. -/
def Stops (s : List Char) : Prop := ∀ c, s.head? = some c → continuesNumber c = false

/-- A text may stand where another one did if it goes on with a number no more than that one. -/
def MayReplace (rest more : List Char) : Prop :=
  ∀ c, more.head? = some c → continuesNumber c → rest.head? = some c

theorem stops_nil : Stops [] := nofun

theorem stops_cons {c : Char} (hc : continuesNumber c = false) (s : List Char) : Stops (c :: s) := by
  intro d hd
  rw [← Option.some.inj hd]
  exact hc

/-- A text that goes on with no number may stand anywhere. -/
theorem Stops.mayReplace {more : List Char} (h : Stops more) (rest : List Char) :
    MayReplace rest more := by
  intro c hc hnumber
  rw [h c hc] at hnumber
  cases hnumber

theorem MayReplace.append {rest more : List Char} (h : MayReplace rest more) (used : List Char) :
    MayReplace (used ++ rest) (used ++ more) := by
  cases used with
  | nil => exact h
  | cons d used => exact fun c hc _ => hc

/-- What starts a text that may replace another one starts that one, if a number goes on with it. -/
theorem MayReplace.head {rest : List Char} {c : Char} {cs : List Char}
    (h : MayReplace rest (c :: cs)) (hc : continuesNumber c) : rest.head? = some c :=
  h c rfl hc

/-- A reader that looks no further than the text that it reads, but for whether a number goes on
behind it. -/
def Local {α ε : Type} (f : List Char → Except ε (α × List Char)) : Prop :=
  ∀ s x rest, f s = .ok (x, rest) →
    ∃ used, s = used ++ rest ∧ ∀ more, MayReplace rest more → f (used ++ more) = .ok (x, more)

namespace Local

variable {α β ε δ : Type}

theorem pure (x : α) : Local (fun s => (.ok (x, s) : Except ε (α × List Char))) := by
  intro s y rest h
  obtain ⟨rfl, rfl⟩ := Prod.mk.inj (Except.ok.inj h)
  exact ⟨[], rfl, fun more _ => rfl⟩

theorem bind {f : List Char → Except ε (α × List Char)}
    {g : α → List Char → Except ε (β × List Char)} (hf : Local f) (hg : ∀ x, Local (g x)) :
    Local fun s => f s >>= fun x => g x.1 x.2 := by
  intro s y rest h
  obtain ⟨⟨x, between⟩, hfirst, hsecond⟩ := bind_eq_ok.mp h
  obtain ⟨used, rfl, hused⟩ := hf s x between hfirst
  obtain ⟨used', rfl, hused'⟩ := hg x between y rest hsecond
  refine ⟨used ++ used', (List.append_assoc _ _ _).symm, fun more hmore => ?_⟩
  refine bind_eq_ok.mpr ⟨(x, used' ++ more), ?_, hused' more hmore⟩
  rw [List.append_assoc]
  exact hused _ (hmore.append used')

theorem mapError {f : List Char → Except ε (α × List Char)} (hf : Local f) (g : ε → δ) :
    Local fun s => (f s).mapError g := by
  intro s x rest h
  cases hs : f s with
  | error e =>
      simp only [hs] at h
      cases h
  | ok found =>
      simp only [hs] at h
      obtain rfl := Except.ok.inj h
      obtain ⟨used, rfl, hused⟩ := hf s x rest hs
      refine ⟨used, rfl, fun more hmore => ?_⟩
      simp only [hused more hmore]
      rfl

end Local

/-! ## Numbers -/

theorem readDigits_append {ds more : List Char} (hds : ∀ c ∈ ds, c.isDigit)
    (hmore : ∀ c, more.head? = some c → c.isDigit = false) :
    readDigits (ds ++ more) = (ds, more) := by
  have hstop : more.takeWhile Char.isDigit = [] ∧ more.dropWhile Char.isDigit = more := by
    cases more with
    | nil => exact ⟨rfl, rfl⟩
    | cons c cs =>
        have hc : ¬ c.isDigit := by simp [hmore c rfl]
        exact ⟨List.takeWhile_cons_of_neg hc, List.dropWhile_cons_of_neg hc⟩
  rw [readDigits, List.takeWhile_append_of_pos hds, List.dropWhile_append_of_pos hds, hstop.1,
    hstop.2, List.append_nil]

/-- What is read are digits, and no digit follows. -/
theorem readDigits_spec (s : List Char) :
    (∀ c ∈ (readDigits s).1, c.isDigit) ∧ s = (readDigits s).1 ++ (readDigits s).2 ∧
      ∀ c, (readDigits s).2.head? = some c → c.isDigit = false := by
  refine ⟨fun c hc => ?_, List.takeWhile_append_dropWhile.symm, fun c hc => ?_⟩
  · exact List.all_eq_true.mp List.all_takeWhile c hc
  · have hnot := List.head?_dropWhile_not Char.isDigit s
    rw [readDigits] at hc
    rw [hc] at hnot
    simpa using hnot

theorem continuesNumber_of_isDigit {c : Char} (h : c.isDigit) : continuesNumber c := by
  simp [continuesNumber, h]

theorem readSomeDigits_append {ds more : List Char} (hne : ds ≠ []) (hds : ∀ c ∈ ds, c.isDigit)
    (hmore : ∀ c, more.head? = some c → c.isDigit = false) :
    readSomeDigits (ds ++ more) = .ok (ds, more) := by
  rw [readSomeDigits, readDigits_append hds hmore]
  cases ds with
  | nil => exact absurd rfl hne
  | cons d ds => rfl

/-- Of some digits there is at least one. -/
theorem readSomeDigits_eq_ok {s ds rest : List Char} (h : readSomeDigits s = .ok (ds, rest)) :
    ds ≠ [] ∧ (∀ c ∈ ds, c.isDigit) ∧ s = ds ++ rest ∧
      ∀ c, rest.head? = some c → c.isDigit = false := by
  obtain ⟨hdigits, hcut, hstop⟩ := readDigits_spec s
  unfold readSomeDigits at h
  split at h
  · cases h
  · next d ds' r heq =>
      obtain ⟨rfl, rfl⟩ := Prod.mk.inj (Except.ok.inj h)
      rw [heq] at hdigits hcut hstop
      exact ⟨List.cons_ne_nil _ _, hdigits, hcut, hstop⟩

/-- Behind digits no digit may follow, and in place of what follows none may. -/
theorem not_isDigit_of_mayReplace {rest more : List Char}
    (hrest : ∀ c, rest.head? = some c → c.isDigit = false) (h : MayReplace rest more) :
    ∀ c, more.head? = some c → c.isDigit = false := by
  intro c hc
  cases hdigit : c.isDigit with
  | false => rfl
  | true => exact absurd hdigit (by simp [hrest c (h c hc (continuesNumber_of_isDigit hdigit))])

theorem local_readSomeDigits : Local readSomeDigits := by
  intro s ds rest h
  obtain ⟨hne, hdigits, rfl, hstop⟩ := readSomeDigits_eq_ok h
  exact ⟨ds, rfl, fun more hmore =>
    readSomeDigits_append hne hdigits (not_isDigit_of_mayReplace hstop hmore)⟩

theorem readWhole_append {ds more : List Char} (hne : ds ≠ []) (hdigits : ∀ c ∈ ds, c.isDigit)
    (hzero : ds.head? = some '0' → ds = ['0'])
    (hmore : ∀ c, more.head? = some c → c.isDigit = false) :
    readWhole (ds ++ more) = .ok (ds, more) := by
  by_cases hhead : ds.head? = some '0'
  · rw [hzero hhead]
    cases more with
    | nil => rfl
    | cons c cs => simp [readWhole, hmore c rfl]
  · rw [← readSomeDigits_append hne hdigits hmore, readWhole]
    intro rest heq
    obtain ⟨d, ds, rfl⟩ := List.exists_cons_of_ne_nil hne
    exact hhead (congrArg some (List.cons.inj heq).1)

/-- A whole part is some digits, as many as there are, of which a leading zero stands alone. -/
theorem readWhole_eq_ok {s ds rest : List Char} (h : readWhole s = .ok (ds, rest)) :
    ds ≠ [] ∧ (∀ c ∈ ds, c.isDigit) ∧ (ds.head? = some '0' → ds = ['0']) ∧ s = ds ++ rest ∧
      ∀ c, rest.head? = some c → c.isDigit = false := by
  have hsingle : ∀ c ∈ ['0'], c.isDigit := List.forall_mem_singleton.mpr rfl
  unfold readWhole at h
  split at h
  · split at h
    · obtain ⟨rfl, rfl⟩ := Prod.mk.inj (Except.ok.inj h)
      exact ⟨by simp, hsingle, fun _ => rfl, rfl, by simp⟩
    · next c cs =>
        split at h
        · cases h
        · next hc =>
            obtain ⟨rfl, rfl⟩ := Prod.mk.inj (Except.ok.inj h)
            refine ⟨by simp, hsingle, fun _ => rfl, rfl, fun d hd => ?_⟩
            rw [← Option.some.inj hd]
            simpa using hc
  · next hzero =>
      obtain ⟨hne, hdigits, rfl, hstop⟩ := readSomeDigits_eq_ok h
      refine ⟨hne, hdigits, fun hhead => ?_, rfl, hstop⟩
      obtain ⟨ds, rfl⟩ := List.head?_eq_some_iff.mp hhead
      exact absurd rfl (hzero (ds ++ rest))

theorem local_readWhole : Local readWhole := by
  intro s ds rest h
  obtain ⟨hne, hdigits, hzero, rfl, hstop⟩ := readWhole_eq_ok h
  exact ⟨ds, rfl, fun more hmore =>
    readWhole_append hne hdigits hzero (not_isDigit_of_mayReplace hstop hmore)⟩

theorem local_readFraction : Local readFraction := by
  intro s ds rest h
  unfold readFraction at h
  split at h
  · next after =>
      obtain ⟨used, rfl, hused⟩ := local_readSomeDigits after ds rest h
      exact ⟨'.' :: used, rfl, hused⟩
  · next hpoint =>
      obtain ⟨rfl, rfl⟩ := Prod.mk.inj (Except.ok.inj h)
      refine ⟨[], rfl, fun more hmore => ?_⟩
      rw [List.nil_append, readFraction]
      rintro cs rfl
      obtain ⟨rest', hrest'⟩ := List.head?_eq_some_iff.mp (hmore.head (by decide))
      exact hpoint rest' hrest'

theorem readSign_of_isDigit {d : Char} (hd : d.isDigit) (s : List Char) :
    readSign (d :: s) = (false, d :: s) := by
  unfold readSign
  split
  · next heq =>
      obtain ⟨rfl, -⟩ := List.cons.inj heq
      exact absurd hd (by decide)
  · next heq =>
      obtain ⟨rfl, -⟩ := List.cons.inj heq
      exact absurd hd (by decide)
  · rfl

/-- The digits of an exponent are read with their sign. -/
theorem readSign_eq {s ds rest : List Char}
    (h : readSomeDigits (readSign s).2 = .ok (ds, rest)) :
    ∃ used, s = used ++ rest ∧ ∀ more, MayReplace rest more →
      (readSign (used ++ more)).1 = (readSign s).1 ∧
        readSomeDigits (readSign (used ++ more)).2 = .ok (ds, more) := by
  obtain ⟨hne, hdigits, hcut, hstop⟩ := readSomeDigits_eq_ok h
  have hread {more : List Char} (hmore : MayReplace rest more) :
      readSomeDigits (ds ++ more) = .ok (ds, more) :=
    readSomeDigits_append hne hdigits (not_isDigit_of_mayReplace hstop hmore)
  unfold readSign at hcut
  split at hcut <;> dsimp only at hcut
  · exact ⟨'+' :: ds, by rw [hcut]; rfl, fun more hmore => ⟨rfl, hread hmore⟩⟩
  · exact ⟨'-' :: ds, by rw [hcut]; rfl, fun more hmore => ⟨rfl, hread hmore⟩⟩
  · obtain ⟨d, ds, rfl⟩ := List.exists_cons_of_ne_nil hne
    have hsign (more : List Char) : readSign (d :: ds ++ more) = (false, d :: ds ++ more) :=
      readSign_of_isDigit (hdigits d List.mem_cons_self) _
    refine ⟨d :: ds, hcut, fun more hmore => ?_⟩
    rw [hcut, hsign, hsign]
    exact ⟨rfl, hread hmore⟩

theorem local_readExponent : Local readExponent := by
  intro s e rest h
  unfold readExponent at h
  split at h
  · obtain ⟨rfl, rfl⟩ := Prod.mk.inj (Except.ok.inj h)
    refine ⟨[], rfl, fun more hmore => ?_⟩
    cases more with
    | nil => rfl
    | cons c cs =>
        have hc : ¬ (c = 'e' ∨ c = 'E') := by
          rintro (rfl | rfl)
          · cases hmore.head (by decide)
          · cases hmore.head (by decide)
        rw [List.nil_append, readExponent, if_neg hc]
  · next c after =>
      split at h
      · next hc =>
          split at h
          · cases h
          · next ds after' hds =>
              obtain ⟨rfl, rfl⟩ := Prod.mk.inj (Except.ok.inj h)
              obtain ⟨used, hcut, hused⟩ := readSign_eq hds
              refine ⟨c :: used, by rw [hcut]; rfl, fun more hmore => ?_⟩
              obtain ⟨hsign, hread⟩ := hused more hmore
              rw [List.cons_append, readExponent, if_pos hc, hread, hsign]
      · next hc =>
          obtain ⟨rfl, rfl⟩ := Prod.mk.inj (Except.ok.inj h)
          refine ⟨[], rfl, fun more hmore => ?_⟩
          cases more with
          | nil => rfl
          | cons d ds =>
              have hd : ¬ (d = 'e' ∨ d = 'E') := by
                intro hd
                have hhead := hmore.head (by rcases hd with rfl | rfl <;> decide)
                obtain rfl := Option.some.inj hhead
                exact hc hd
              rw [List.nil_append, readExponent, if_neg hd]

theorem readUnsigned_eq (negative : Bool) :
    readUnsigned negative = fun s => readWhole s >>= fun whole => readFraction whole.2 >>=
      fun fraction => readExponent fraction.2 >>= fun exponent =>
        .ok (.number ⟨negative, whole.1, fraction.1, exponent.1⟩, exponent.2) := rfl

theorem local_readUnsigned (negative : Bool) : Local (readUnsigned negative) := by
  rw [readUnsigned_eq]
  exact local_readWhole.bind fun whole => local_readFraction.bind fun fraction =>
    local_readExponent.bind fun exponent =>
      .pure (Leaf.number ⟨negative, whole, fraction, exponent⟩)

/-- A reader that reads at least its first character may be given that character apart. -/
theorem Local.behind {α ε : Type} {f : List Char → Except ε (α × List Char)} (hf : Local f)
    (hread : ∀ {s x rest}, f s = .ok (x, rest) → rest.length < s.length) (c : Char) :
    Local fun cs => f (c :: cs) := by
  intro cs x rest h
  obtain ⟨used, hcut, hused⟩ := hf _ x rest h
  have hlength := hread h
  cases used with
  | nil =>
      rw [hcut, List.nil_append] at hlength
      omega
  | cons d used =>
      obtain ⟨rfl, rfl⟩ := List.cons.inj hcut
      exact ⟨used, rfl, hused⟩

theorem local_readNumber (c : Char) : Local (readNumber c) := by
  by_cases hc : c = '-'
  · have heq : readNumber c = readUnsigned true := funext fun cs => if_pos hc
    rw [heq]
    exact local_readUnsigned true
  · have heq : readNumber c = fun cs => readUnsigned false (c :: cs) := funext fun cs => if_neg hc
    rw [heq]
    exact (local_readUnsigned false).behind length_readUnsigned c

/-! ## Words and strings -/

/-- A word is read if it stands there. -/
theorem readWord_eq_ok {l m : Leaf} {ws s rest : List Char} :
    readWord l ws s = .ok (m, rest) ↔ m = l ∧ s = ws ++ rest := by
  induction ws generalizing s with
  | nil => simp [readWord, eq_comm]
  | cons w ws ih =>
      cases s with
      | nil => simp [readWord]
      | cons c cs =>
          rw [readWord]
          split
          · next h => simp [h, ih]
          · next h => simp [Ne.symm h]

theorem local_readWord (l : Leaf) (ws : List Char) : Local (readWord l ws) := by
  intro s m rest h
  obtain ⟨rfl, rfl⟩ := readWord_eq_ok.mp h
  exact ⟨ws, rfl, fun more _ => readWord_eq_ok.mpr ⟨rfl, rfl⟩⟩

/-- What a code is read from does not depend on what follows. -/
theorem readCode_eq {s rest : List Char} {u : TextUnit} (h : readCode s = .ok (u, rest)) :
    ∃ used, s = used ++ rest ∧ ∀ more, readCode (used ++ more) = .ok (u, more) := by
  unfold readCode at h
  split at h
  · next a b c d after =>
      split at h
      · next w x y z ha hb hc hd =>
          obtain ⟨rfl, rfl⟩ := Prod.mk.inj (Except.ok.inj h)
          exact ⟨[a, b, c, d], rfl, fun more => by simp [readCode, ha, hb, hc, hd]⟩
      · cases h
  · cases h

theorem readEscape_eq {s rest : List Char} {u : TextUnit} (h : readEscape s = .ok (u, rest)) :
    ∃ used, s = used ++ rest ∧ ∀ more, readEscape (used ++ more) = .ok (u, more) := by
  unfold readEscape at h
  split at h
  case h_2 after =>
    obtain ⟨used, rfl, hused⟩ := readCode_eq h
    exact ⟨'u' :: used, rfl, hused⟩
  all_goals cases h
  all_goals exact ⟨[_], rfl, fun more => rfl⟩

theorem readString_quote (s : List Char) : readString ('\"' :: s) = (⟨[], none⟩, s) := by
  rw [readString, if_pos rfl]

theorem readString_escape {s rest : List Char} {u : TextUnit}
    (h : readEscape s = .ok (u, rest)) :
    readString ('\\' :: s) =
      (⟨u :: (readString rest).1.units, (readString rest).1.fault⟩, (readString rest).2) := by
  rw [readString, if_neg (by decide), if_pos rfl]
  split
  · next f hf =>
      rw [h] at hf
      cases hf
  · next v after hv =>
      rw [h] at hv
      obtain ⟨rfl, rfl⟩ := Prod.mk.inj (Except.ok.inj hv)
      rfl

theorem readString_plain {c : Char} (hquote : c ≠ '\"') (hescape : c ≠ '\\')
    (hlow : ¬ c.toNat < 0x20) (s : List Char) :
    readString (c :: s) =
      (⟨.char c :: (readString s).1.units, (readString s).1.fault⟩, (readString s).2) := by
  rw [readString, if_neg hquote, if_neg hescape, if_neg hlow]

/-- A string that is whole is read from its own characters. -/
theorem readString_eq (s : List Char) (h : (readString s).1.fault = none) :
    ∃ used, s = used ++ (readString s).2 ∧
      ∀ more, readString (used ++ more) = ((readString s).1, more) := by
  fun_induction readString s with
  | case1 => cases h
  | case2 cs => exact ⟨['\"'], rfl, fun more => readString_quote more⟩
  | case3 => cases h
  | case4 cs u rest hescape hlength t after hrest _ ih =>
      rw [hrest] at ih
      obtain ⟨used, rfl, hused⟩ := readEscape_eq hescape
      obtain ⟨used', rfl, hused'⟩ := ih h
      refine ⟨'\\' :: (used ++ used'), by simp, fun more => ?_⟩
      rw [List.cons_append, List.append_assoc, readString_escape (hused _), hused']
  | case5 => cases h
  | case6 c cs hquote hescape hlow t after hrest ih =>
      rw [hrest] at ih
      obtain ⟨used, rfl, hused⟩ := ih h
      refine ⟨c :: used, rfl, fun more => ?_⟩
      rw [List.cons_append, readString_plain hquote hescape hlow, hused]

/-! ## Leaves -/

theorem local_readLeaf (c : Char) : Local (readLeaf c) := by
  intro s l rest h
  have hsame : ∀ f : List Char → Except Token (Leaf × List Char), Local f →
      (∀ cs, readLeaf c cs = f cs) → ∃ used, s = used ++ rest ∧
        ∀ more, MayReplace rest more → readLeaf c (used ++ more) = .ok (l, more) := by
    intro f hf heq
    simp only [heq] at h ⊢
    exact hf s l rest h
  by_cases hquote : c = '\"'
  · have heq (cs : List Char) : readLeaf c cs =
        if (readString cs).1.fault.isSome then .error (.leaf (.string (readString cs).1))
        else .ok (.string (readString cs).1, (readString cs).2) := by
      rw [readLeaf, if_pos hquote]
    rw [heq] at h
    split at h
    · cases h
    · next hwhole =>
        obtain ⟨rfl, rfl⟩ := Prod.mk.inj (Except.ok.inj h)
        obtain ⟨used, hcut, hused⟩ := readString_eq s (by simpa using hwhole)
        refine ⟨used, hcut, fun more _ => ?_⟩
        rw [heq, hused, if_neg hwhole]
  by_cases hnumber : c = '-' ∨ c.isDigit
  · exact hsame _ ((local_readNumber c).mapError .leaf) fun cs => by
      rw [readLeaf, if_neg hquote, if_pos hnumber]
  by_cases hn : c = 'n'
  · exact hsame _ ((local_readWord .null ['u', 'l', 'l']).mapError .leaf) fun cs => by
      rw [readLeaf, if_neg hquote, if_neg hnumber, if_pos hn]
  by_cases ht : c = 't'
  · exact hsame _ ((local_readWord (.bool true) ['r', 'u', 'e']).mapError .leaf) fun cs => by
      rw [readLeaf, if_neg hquote, if_neg hnumber, if_neg hn, if_pos ht]
  by_cases hf : c = 'f'
  · exact hsame _ ((local_readWord (.bool false) ['a', 'l', 's', 'e']).mapError .leaf)
      fun cs => by
        rw [readLeaf, if_neg hquote, if_neg hnumber, if_neg hn, if_neg ht, if_pos hf]
  · rw [readLeaf, if_neg hquote, if_neg hnumber, if_neg hn, if_neg ht, if_neg hf] at h
    cases h

/-! ## What breaks off -/

def isBroken : Token → Bool
  | .leaf l => l.isBroken
  | .stray => true
  | _ => false

def AreWhole (ts : List Token) : Prop := ∀ t ∈ ts, t.isBroken = false

theorem areWhole_nil : AreWhole [] := nofun

theorem areWhole_cons {t : Token} {ts : List Token} :
    AreWhole (t :: ts) ↔ t.isBroken = false ∧ AreWhole ts := List.forall_mem_cons

theorem areWhole_append {ts us : List Token} :
    AreWhole (ts ++ us) ↔ AreWhole ts ∧ AreWhole us := List.forall_mem_append

/-- A reader that fails only because the text breaks off. -/
def Breaks {α : Type} (f : List Char → Except Leaf (α × List Char)) : Prop :=
  ∀ s l, f s = .error l → l.isBroken

theorem Breaks.pure {α : Type} (x : α) : Breaks fun s => .ok (x, s) := nofun

theorem Breaks.bind {α β : Type} {f : List Char → Except Leaf (α × List Char)}
    {g : α → List Char → Except Leaf (β × List Char)} (hf : Breaks f) (hg : ∀ x, Breaks (g x)) :
    Breaks fun s => f s >>= fun x => g x.1 x.2 := by
  intro s l h
  cases hs : f s with
  | error l' =>
      simp only [hs] at h
      obtain rfl := Except.error.inj h
      exact hf s _ hs
  | ok found =>
      simp only [hs] at h
      exact hg _ _ l h

theorem breaks_readSomeDigits : Breaks readSomeDigits := by
  intro s l h
  unfold readSomeDigits at h
  split at h
  · rw [← Except.error.inj h]
    rfl
  · cases h

theorem breaks_readWhole : Breaks readWhole := by
  intro s l h
  unfold readWhole at h
  split at h
  · split at h
    · cases h
    · split at h
      · rw [← Except.error.inj h]
        rfl
      · cases h
  · exact breaks_readSomeDigits s l h

theorem breaks_readFraction : Breaks readFraction := by
  intro s l h
  unfold readFraction at h
  split at h
  · exact breaks_readSomeDigits _ l h
  · cases h

theorem breaks_readExponent : Breaks readExponent := by
  intro s l h
  unfold readExponent at h
  split at h
  · cases h
  · split at h
    · split at h
      · next heq =>
          rw [← Except.error.inj h]
          exact breaks_readSomeDigits _ _ heq
      · cases h
    · cases h

theorem breaks_readUnsigned (negative : Bool) : Breaks (readUnsigned negative) := by
  rw [readUnsigned_eq]
  exact breaks_readWhole.bind fun whole => breaks_readFraction.bind fun fraction =>
    breaks_readExponent.bind fun exponent =>
      .pure (Leaf.number ⟨negative, whole, fraction, exponent⟩)

theorem breaks_readWord (l : Leaf) (ws : List Char) : Breaks (readWord l ws) := by
  intro s m h
  induction ws generalizing s with
  | nil => cases h
  | cons w ws ih =>
      cases s with
      | nil =>
          rw [← Except.error.inj h]
          rfl
      | cons c cs =>
          rw [readWord] at h
          split at h
          · exact ih cs h
          · rw [← Except.error.inj h]
            rfl

theorem isBroken_of_mapError {x : Except Leaf (Leaf × List Char)} {t : Token}
    (hx : ∀ l, x = .error l → l.isBroken) (h : x.mapError Token.leaf = .error t) : t.isBroken := by
  cases x with
  | error l =>
      rw [← Except.error.inj h]
      exact hx l rfl
  | ok found => cases h

/-- A leaf that cannot be read breaks off. -/
theorem isBroken_of_readLeaf {c : Char} {cs : List Char} {t : Token}
    (h : readLeaf c cs = .error t) : t.isBroken := by
  unfold readLeaf at h
  split at h
  · split at h
    · next hbroken =>
        rw [← Except.error.inj h]
        exact hbroken
    · cases h
  · split at h
    · refine isBroken_of_mapError (fun l hl => ?_) h
      unfold readNumber at hl
      split at hl
      · exact breaks_readUnsigned true _ l hl
      · exact breaks_readUnsigned false _ l hl
    · split at h
      · exact isBroken_of_mapError (breaks_readWord _ _ cs) h
      · split at h
        · exact isBroken_of_mapError (breaks_readWord _ _ cs) h
        · split at h
          · exact isBroken_of_mapError (breaks_readWord _ _ cs) h
          · rw [← Except.error.inj h]
            rfl

/-! ## Texts -/

theorem ofChars_nil : ofChars [] = [] := by rw [ofChars]

theorem ofChars_space {c : Char} (h : isSpace c) (cs : List Char) :
    ofChars (c :: cs) = ofChars cs := by
  rw [ofChars, if_pos h]

/-- Punctuation is neither blank nor part of a number. -/
theorem not_isSpace_of_punctuation {c : Char} {t : Token} (h : ofPunctuation c = some t) :
    isSpace c = false ∧ continuesNumber c = false ∧ t.isBroken = false := by
  unfold ofPunctuation at h
  split at h
  case h_7 => cases h
  all_goals
    obtain rfl := Option.some.inj h
    exact ⟨by decide, by decide, rfl⟩

/-- Punctuation is a token by itself. -/
theorem ofChars_punctuation {c : Char} {t : Token} (h : ofPunctuation c = some t)
    (cs : List Char) : ofChars (c :: cs) = t :: ofChars cs := by
  have hspace := (not_isSpace_of_punctuation h).1
  rw [ofChars, if_neg (by simp [hspace])]
  split
  · next t' heq =>
      rw [h] at heq
      obtain rfl := Option.some.inj heq
      rfl
  · next heq =>
      rw [h] at heq
      cases heq

/-- What is neither blank nor punctuation starts a leaf. -/
theorem ofChars_leaf {c : Char} {cs rest : List Char} {l : Leaf} (hspace : ¬ isSpace c)
    (hpunctuation : ofPunctuation c = none) (h : readLeaf c cs = .ok (l, rest)) :
    ofChars (c :: cs) = .leaf l :: ofChars rest := by
  rw [ofChars, if_neg hspace]
  split
  · next heq =>
      rw [hpunctuation] at heq
      cases heq
  · split
    · next heq =>
        rw [h] at heq
        cases heq
    · next heq =>
        rw [h] at heq
        obtain ⟨rfl, rfl⟩ := Prod.mk.inj (Except.ok.inj heq)
        rfl

/-- Anything may be followed by a text that goes on with no number. -/
theorem Stops.mayReplace_append {b : List Char} (h : Stops b) (rest : List Char) :
    MayReplace rest (rest ++ b) := by
  cases rest with
  | nil => exact h.mayReplace []
  | cons c rest => exact fun d hd _ => hd

/-- Texts one after the other have their tokens one after the other. -/
theorem ofChars_append {a b : List Char} (ha : AreWhole (ofChars a)) (hb : Stops b) :
    ofChars (a ++ b) = ofChars a ++ ofChars b := by
  fun_induction ofChars a with
  | case1 => rfl
  | case2 c cs hspace ih => rw [List.cons_append, ofChars_space hspace, ih ha]
  | case3 c cs hspace t hpunctuation ih =>
      rw [List.cons_append, ofChars_punctuation hpunctuation, ih (areWhole_cons.mp ha).2,
        List.cons_append]
  | case4 c cs hspace hpunctuation t hbroken =>
      have hwhole := (areWhole_cons.mp ha).1
      rw [isBroken_of_readLeaf hbroken] at hwhole
      cases hwhole
  | case5 c cs hspace hpunctuation l rest hleaf hlength ih =>
      obtain ⟨used, rfl, hused⟩ := local_readLeaf c cs l rest hleaf
      have hread := hused (rest ++ b) (hb.mayReplace_append rest)
      rw [List.cons_append, List.append_assoc, ofChars_leaf hspace hpunctuation hread,
        ih (areWhole_cons.mp ha).2, List.cons_append]

/-- A text is cut at any of its tokens that is a bracket or a separator. -/
theorem exists_of_ofChars_eq {cs : List Char} {ts us : List Token} {t : Token}
    (hleaf : ∀ l, t ≠ .leaf l) (hwhole : t.isBroken = false) (h : ofChars cs = ts ++ t :: us) :
    ∃ before c after, cs = before ++ c :: after ∧ ofPunctuation c = some t ∧
      ofChars before = ts ∧ ofChars after = us := by
  fun_induction ofChars cs generalizing ts with
  | case1 => simp at h
  | case2 c cs hspace ih =>
      obtain ⟨before, d, after, rfl, hd, hbefore, hafter⟩ := ih h
      exact ⟨c :: before, d, after, rfl, hd, (ofChars_space hspace before).trans hbefore, hafter⟩
  | case3 c cs hspace t' hpunctuation ih =>
      cases ts with
      | nil =>
          obtain ⟨rfl, rfl⟩ := List.cons.inj h
          exact ⟨[], c, cs, rfl, hpunctuation, ofChars_nil, rfl⟩
      | cons u ts =>
          obtain ⟨rfl, htail⟩ := List.cons.inj h
          obtain ⟨before, d, after, rfl, hd, hbefore, hafter⟩ := ih htail
          refine ⟨c :: before, d, after, rfl, hd, ?_, hafter⟩
          rw [ofChars_punctuation hpunctuation, hbefore]
  | case4 c cs hspace hpunctuation t' hbroken =>
      have hbroken := isBroken_of_readLeaf hbroken
      cases ts with
      | nil =>
          obtain ⟨rfl, -⟩ := List.cons.inj h
          rw [hbroken] at hwhole
          cases hwhole
      | cons u ts => simp at h
  | case5 c cs hspace hpunctuation l rest hread hlength ih =>
      cases ts with
      | nil => exact absurd (List.cons.inj h).1.symm (hleaf l)
      | cons u ts =>
          obtain ⟨rfl, htail⟩ := List.cons.inj h
          obtain ⟨before, d, after, rfl, hd, hbefore, hafter⟩ := ih htail
          obtain ⟨used, rfl, hused⟩ := local_readLeaf c cs l _ hread
          have hcut : MayReplace (before ++ d :: after) before := by
            cases before with
            | nil => exact stops_nil.mayReplace _
            | cons e before => exact fun e' he _ => he
          refine ⟨c :: (used ++ before), d, after, by simp, hd, ?_, hafter⟩
          rw [ofChars_leaf hspace hpunctuation (hused before hcut), hbefore]

end GameExport.Json.Token
