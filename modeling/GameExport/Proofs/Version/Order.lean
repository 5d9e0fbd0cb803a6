import GameExport.AssemblyDefinition
import GameExport.Decompile.Settings
import GameExport.Proofs.Version.Grammar

/-! # The order of versions and what versions allow

Versions are compared by their three numbers, the rank of the letter and the number behind it. A
gate asks for a major and a minor number only. It opens at the first alpha of these numbers, and so
it is open for every version behind one for which it is open.
-/

namespace GameExport

namespace LanguageVersion

/-- Language versions from the oldest to the newest. What is not decided yet is none of them. -/
def rank? : LanguageVersion → Option Nat
  | .auto => none
  | .cSharp4 => some 0
  | .cSharp7_3 => some 1
  | .cSharp8 => some 2
  | .cSharp9 => some 3
  | .cSharp10 => some 4
  | .latest => some 5

end LanguageVersion

namespace Version

def firstAlpha (major minor : UInt16) : Version :=
  ⟨major, minor, 0, some ⟨'a', 0, by decide⟩⟩

namespace Parts

/-! ## Comparing any values -/

/-- The letters that have a rank of their own. -/
def ranked : List (Option Char) := [some 'a', some 'b', some 'c', some 'p', some 'x']

/-- No letter ranks with the letters that have no rank of their own. -/
def rank : Option Char → Nat
  | some 'a' => 0
  | some 'b' => 1
  | some 'c' => 2
  | some 'p' => 4
  | some 'x' => 5
  | _ => 3

def SameRank (x y : Option Char) : Prop := x = y ∨ x ∉ ranked ∧ y ∉ ranked

/-- Values that no text spells are compared as well, such as a number without a letter. -/
def order (p q : Parts) : Ordering :=
  ((((compare p.major q.major).then (compare p.minor q.minor)).then
    (compare p.build q.build)).then (compare (rank p.letter) (rank q.letter))).then
      (compare p.number q.number)

def isAtLeast (p : Parts) (major minor : UInt16) : Bool :=
  decide (major < p.major ∨ (major = p.major ∧ minor ≤ p.minor))

/-- The version has the major and the minor number of the values. A gate looks at nothing else. -/
def SameLine (p : Parts) (v : Version) : Prop := v.major = p.major ∧ v.minor = p.minor

/-- Values that neither come before nor after one another are equal in the order, and of any two
values one does not come after the other. -/
structure IsComparison (order : Parts → Parts → Ordering) : Prop where
  refl : ∀ p, order p p = .eq
  trans : ∀ p q r, (order p q).isLE → (order q r).isLE → (order p r).isLE
  total : ∀ p q, (order p q).isLE ∨ (order q p).isLE
  antisymm : ∀ p q, (order p q).isLE → (order q p).isLE → order p q = .eq
  swap : ∀ p q, order q p = (order p q).swap

instance : Std.TransCmp order :=
  inferInstanceAs (Std.TransCmp (compareLex (compareLex (compareLex (compareLex (compareOn major)
    (compareOn minor)) (compareOn build)) (compareOn fun p => rank p.letter)) (compareOn number)))

/-- The order of values is a comparison. -/
theorem isComparison_order : IsComparison order where
  refl _ := Std.ReflCmp.compare_self
  trans _ _ _ := Std.TransCmp.isLE_trans
  total p q := by
    have hswap : q.order p = (p.order q).swap := Std.OrientedCmp.eq_swap
    rw [hswap]
    cases p.order q <;> simp
  antisymm _ _ := Std.OrientedCmp.isLE_antisymm
  swap _ _ := Std.OrientedCmp.eq_swap

theorem rank_eq_three_iff {x : Option Char} : rank x = 3 ↔ x ∉ ranked := by
  unfold rank
  split <;> simp_all [ranked]

theorem rank_injective_of_mem {x y : Option Char} (hx : x ∈ ranked) (hy : y ∈ ranked)
    (h : rank x = rank y) : x = y := by
  have hall : (ranked.all fun x => ranked.all fun y => rank x != rank y || x == y) = true := by
    decide
  have hpair := List.all_eq_true.mp (List.all_eq_true.mp hall x hx) y hy
  simpa [h] using hpair

/-- Letters rank together if both are the same or neither has a rank of its own. -/
theorem rank_eq_iff {x y : Option Char} : rank x = rank y ↔ SameRank x y := by
  constructor
  · intro h
    by_cases hx : x ∈ ranked
    · by_cases hy : y ∈ ranked
      · exact .inl (rank_injective_of_mem hx hy h)
      · exact absurd hx (rank_eq_three_iff.mp (h.trans (rank_eq_three_iff.mpr hy)))
    · exact .inr ⟨hx, rank_eq_three_iff.mp (h.symm.trans (rank_eq_three_iff.mpr hx))⟩
  · rintro (rfl | ⟨hx, hy⟩)
    · rfl
    · rw [rank_eq_three_iff.mpr hx, rank_eq_three_iff.mpr hy]

/-- Values are equal in the order if they differ at most in letters of one rank. -/
theorem order_eq_eq_iff {p q : Parts} :
    p.order q = .eq ↔ p.major = q.major ∧ p.minor = q.minor ∧ p.build = q.build ∧
      p.number = q.number ∧ SameRank p.letter q.letter := by
  simp only [order, Ordering.then_eq_eq, Std.compare_eq_iff_eq, rank_eq_iff]
  tauto

/-! ## Gates -/

theorem isLE_then_iff {x y : Ordering} (hy : y.isLE) : (x.then y).isLE ↔ x.isLE := by
  cases x <;> simp [hy]

/-- A gate opens at the first alpha of its numbers: nothing else with these numbers is older. -/
theorem isAtLeast_iff {p : Parts} {major minor : UInt16} :
    p.isAtLeast major minor ↔ ((firstAlpha major minor).parts.order p).isLE := by
  have hbuild : (compare 0 p.build).isLE := Std.isLE_compare.mpr UInt16.zero_le
  have hrank : (compare 0 (rank p.letter)).isLE := Std.isLE_compare.mpr (Nat.zero_le _)
  have hnumber : (compare 0 p.number).isLE := Std.isLE_compare.mpr UInt16.zero_le
  have horder : (firstAlpha major minor).parts.order p =
      ((((compare major p.major).then (compare minor p.minor)).then (compare 0 p.build)).then
        (compare 0 (rank p.letter))).then (compare 0 p.number) := rfl
  rw [horder, isLE_then_iff hnumber, isLE_then_iff hrank, isLE_then_iff hbuild,
    Ordering.isLE_then_iff_or, Std.compare_eq_lt, Std.compare_eq_iff_eq, Std.isLE_compare,
    isAtLeast, decide_eq_true_eq]

/-- What is at least a version stays so for later ones. -/
theorem isAtLeast_of_order {p q : Parts} (h : (p.order q).isLE) {major minor : UInt16}
    (hp : p.isAtLeast major minor) : q.isAtLeast major minor :=
  isAtLeast_iff.mpr (isComparison_order.trans _ p q (isAtLeast_iff.mp hp) h)

theorem SameLine.isAtLeast_eq {p : Parts} {v : Version} (h : p.SameLine v) (major minor : UInt16) :
    v.isAtLeast major minor = p.isAtLeast major minor := by
  rw [Version.isAtLeast, Parts.isAtLeast, h.1, h.2]

end Parts

theorem sameLine_parts (v : Version) : v.parts.SameLine v := ⟨rfl, rfl⟩

/-- The order of versions is that of their parts. -/
theorem order_parts (v w : Version) : v.parts.order w.parts = v.order w := by
  have hrank (r : Option Release) : Parts.rank (r.map Release.letter) = releaseRank r := by
    cases r with
    | none => rfl
    | some r =>
        rw [Option.map_some, releaseRank]
        split <;> simp_all [Parts.rank]
  rw [Parts.order, order, ← hrank, ← hrank]
  rfl

structure AllowsNoLess (v w : Version) : Prop where
  definitions : AssemblyDefinition.supportedBy v → AssemblyDefinition.supportedBy w
  language : ∃ m n, (LanguageVersion.auto.resolve v).rank? = some m ∧
    (LanguageVersion.auto.resolve w).rank? = some n ∧ m ≤ n

/-- A version that is at least as much as another one has a language that is not older. -/
theorem exists_rank_newestFor {v w : Version}
    (h : ∀ major minor, v.isAtLeast major minor → w.isAtLeast major minor) :
    ∃ m n, (LanguageVersion.newestFor v).rank? = some m ∧
      (LanguageVersion.newestFor w).rank? = some n ∧ m ≤ n := by
  have h9 := h 2022 2
  have h8 := h 2020 2
  have h7 := h 2018 3
  unfold LanguageVersion.newestFor
  split_ifs <;> simp_all [LanguageVersion.rank?]

/-- Versions are compared alike whatever their values are, and a gate asks whether the first alpha
of its numbers comes no later than the version. So nothing that a version allows is forbidden by a
later one. -/
theorem order_opensGates :
    (∀ v w : Version, v.parts.order w.parts = v.order w) ∧
    (∀ (v : Version) major minor, v.parts.isAtLeast major minor = v.isAtLeast major minor) ∧
    Parts.IsComparison Parts.order ∧
    (∀ p q : Parts, p.order q = .eq ↔ p.major = q.major ∧ p.minor = q.minor ∧
      p.build = q.build ∧ p.number = q.number ∧ Parts.SameRank p.letter q.letter) ∧
    (∀ (p : Parts) major minor,
      p.isAtLeast major minor ↔ ((firstAlpha major minor).parts.order p).isLE) ∧
    ∀ p q : Parts, (p.order q).isLE →
      (∀ major minor, p.isAtLeast major minor → q.isAtLeast major minor) ∧
      ∀ v w : Version, p.SameLine v → q.SameLine w → AllowsNoLess v w := by
  refine ⟨order_parts, fun v _ _ => ((sameLine_parts v).isAtLeast_eq _ _).symm,
    Parts.isComparison_order, fun _ _ => Parts.order_eq_eq_iff, fun _ _ _ => Parts.isAtLeast_iff,
    fun p q h => ⟨fun _ _ => Parts.isAtLeast_of_order h, fun v w hv hw => ?_⟩⟩
  have hgates (major minor : UInt16) (hopen : v.isAtLeast major minor) :
      w.isAtLeast major minor := by
    rw [hv.isAtLeast_eq] at hopen
    rw [hw.isAtLeast_eq]
    exact Parts.isAtLeast_of_order h hopen
  exact ⟨hgates 2017 3, exists_rank_newestFor hgates⟩

end Version

end GameExport
