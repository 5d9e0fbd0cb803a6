import GameExport.Proofs.Descriptor
import GameExport.Proofs.Text.ByteOrder

/-! # The history of the assemblies taken down

Assemblies are taken down by one call after the other, and of the calls with one name only the first
one counts. What is found in the end and what each call answered follow from the calls alone, and
their order matters only where a name comes with different directories.
-/

namespace GameExport.DescriptorMap

open GameExport.Text

variable {m : DescriptorMap} {calls others : List (String × Path)} {name : String}

/-- What each call of a row answers, and the map behind the last one. -/
def tryAddAll (m : DescriptorMap) : List (String × Path) → List Bool × DescriptorMap
  | [] => ([], m)
  | (name, directory) :: calls =>
      let (added, next) := m.tryAdd name directory
      let (answers, last) := next.tryAddAll calls
      (added :: answers, last)

/-! ## One row of calls -/

theorem tryAdd_fst (m : DescriptorMap) (name : String) (directory : Path) :
    (m.tryAdd name directory).1 = !m.contains name := by
  unfold tryAdd
  split
  · next h => rw [h]; rfl
  · next h => rw [Bool.eq_false_iff.mpr h]; rfl

/-- The first call with a name decides what is found under it, unless something was found before. -/
theorem get?_tryAddAll (m : DescriptorMap) (calls : List (String × Path)) (name : String) :
    (m.tryAddAll calls).2.get? name =
      (m.get? name).or ((calls.find? (·.1 = name)).map fun call => ⟨name, call.2⟩) := by
  induction calls generalizing m with
  | nil => exact (Option.or_none).symm
  | cons call calls ih =>
      rw [tryAddAll]
      dsimp only
      rw [ih, get?_tryAdd, Option.or_assoc]
      congr 1
      by_cases hname : call.1 = name
      · simp [hname]
      · simp [hname]

/-- A call adds its assembly unless that was there before the row or has come in it before. -/
theorem answer_tryAddAll (m : DescriptorMap) (calls : List (String × Path)) (i : Nat) :
    (m.tryAddAll calls).1[i]? = calls[i]?.map fun call =>
      !m.contains call.1 && decide (call.1 ∉ (calls.take i).map Prod.fst) := by
  induction calls generalizing m i with
  | nil => rfl
  | cons call calls ih =>
      rw [tryAddAll]
      dsimp only
      cases i with
      | zero => simp [tryAdd_fst]
      | succ i =>
          rw [List.getElem?_cons_succ, ih, List.getElem?_cons_succ]
          congr 1
          funext later
          -- what was there before a later call is what was there first, and the first call's name
          have hcontains : (m.tryAdd call.1 call.2).2.contains later.1 =
              (m.contains later.1 || decide (call.1 = later.1)) := by
            rw [contains_eq_isSome, contains_eq_isSome, get?_tryAdd, Option.isSome_or]
            by_cases hname : call.1 = later.1 <;> simp [hname]
          rw [hcontains]
          simp [Bool.and_assoc, eq_comm]

/-- The first directory that is told for a name stays. -/
theorem get?_tryAddAll_empty (calls : List (String × Path)) (name : String) :
    (tryAddAll {} calls).2.get? name =
      (calls.find? (·.1 = name)).map fun call => ⟨name, call.2⟩ := by
  rw [get?_tryAddAll]
  rfl

theorem isSome_tryAddAll_empty :
    ((tryAddAll {} calls).2.get? name).isSome ↔ name ∈ calls.map Prod.fst := by
  rw [get?_tryAddAll_empty]
  simp

/-! ## A map and its history -/

/-- What a row of calls leaves where nothing was taken down before. -/
structure KeepsFirst (calls : List (String × Path)) (answers : List Bool) (m : DescriptorMap) :
    Prop where
  /-- A call adds something exactly when no call before it has its name. -/
  answer : ∀ i, answers[i]? =
    calls[i]?.map fun call => decide (call.1 ∉ (calls.take i).map Prod.fst)
  found : ∀ name, m.get? name =
    (calls.find? (·.1 = name)).map fun call => ⟨name, call.2⟩
  contained : ∀ name, m.contains name = (m.get? name).isSome
  empty : m.isEmpty = true ↔ ∀ name, m.get? name = none
  size : m.size = (calls.map Prod.fst).dedup.length
  listed : ∀ d, d ∈ m.entries ↔ m.get? d.name = some d
  once : ∀ name, m.names.count name = if name ∈ calls.map Prod.fst then 1 else 0
  ascending : (m.names.map Utf8.encode).Pairwise (· < ·)

theorem isEmpty_iff : m.isEmpty = true ↔ ∀ name, m.get? name = none := by
  rw [isEmpty, List.isEmpty_iff]
  constructor
  · intro h name
    rw [get?, h]
    rfl
  · intro h
    refine List.eq_nil_iff_forall_not_mem.mpr fun d hd => ?_
    rw [mem_entries_iff, h] at hd
    cases hd

/-- Names are listed by their bytes. -/
theorem ascending_names (m : DescriptorMap) :
    (m.names.map Utf8.encode).Pairwise (· < ·) :=
  List.pairwise_map.mpr (m.sorted_names.imp Utf8.encode_lt_encode)

/-- In either order a call of the same name is found, so what holds of the directories of any two such
calls holds of the ones that are found. -/
theorem same_of_perm {same : Path → Path → Prop} (h : calls.Perm others)
    (hsame : ∀ a ∈ calls, ∀ b ∈ calls, a.1 = b.1 → same a.2 b.2) {d e : Descriptor}
    (hd : (tryAddAll {} calls).2.get? name = some d)
    (he : (tryAddAll {} others).2.get? name = some e) : same d.directory e.directory := by
  rw [get?_tryAddAll_empty] at hd he
  obtain ⟨a, ha, rfl⟩ := Option.map_eq_some_iff.mp hd
  obtain ⟨b, hb, rfl⟩ := Option.map_eq_some_iff.mp he
  have haname : a.1 = name := by simpa using List.find?_some ha
  have hbname : b.1 = name := by simpa using List.find?_some hb
  exact hsame a (List.mem_of_find?_eq_some ha) b (h.mem_iff.mpr (List.mem_of_find?_eq_some hb))
    (haname.trans hbname.symm)

/-- Calls in another order leave the same names. -/
theorem names_eq_of_perm (h : calls.Perm others) :
    (tryAddAll {} calls).2.names = (tryAddAll {} others).2.names := by
  refine names_eq fun name => ?_
  rw [isSome_tryAddAll_empty, isSome_tryAddAll_empty, (h.map Prod.fst).mem_iff]

/-- Calls in another order leave the same map where no name has two directories. -/
theorem tryAddAll_eq_of_perm (h : calls.Perm others)
    (hsame : ∀ a ∈ calls, ∀ b ∈ calls, a.1 = b.1 → a.2 = b.2) :
    (tryAddAll {} calls).2 = (tryAddAll {} others).2 := by
  refine eq_of_get?_eq fun name => ?_
  have hsome : ((tryAddAll {} calls).2.get? name).isSome ↔
      ((tryAddAll {} others).2.get? name).isSome := by
    rw [← mem_names_iff, ← mem_names_iff, names_eq_of_perm h]
  cases hd : (tryAddAll {} calls).2.get? name with
  | none =>
      rw [hd] at hsome
      exact (Option.not_isSome_iff_eq_none.mp fun he => nomatch hsome.mpr he).symm
  | some d =>
      obtain ⟨e, he⟩ := Option.isSome_iff_exists.mp (hsome.mp (by rw [hd]; rfl))
      have hname : d.name = e.name :=
        (name_of_get?_eq_some hd).trans (name_of_get?_eq_some he).symm
      have hdirectory : d.directory = e.directory := same_of_perm h hsame hd he
      rw [he, Option.some.injEq]
      exact Descriptor.mk.injEq _ _ _ _ |>.mpr ⟨hname, hdirectory⟩

/-- Of the calls with one name the first one counts. The order of the calls does not change the
names. Nor does it change the directories where those of one name are the same, be it that their
texts are equal or that they are the same in another sense. -/
theorem tryAddAll_keepsFirst (calls : List (String × Path)) :
    KeepsFirst calls (tryAddAll {} calls).1 (tryAddAll {} calls).2 ∧
      ∀ others, calls.Perm others →
        (tryAddAll {} calls).2.names = (tryAddAll {} others).2.names ∧
          ((∀ a ∈ calls, ∀ b ∈ calls, a.1 = b.1 → a.2 = b.2) →
            (tryAddAll {} calls).2 = (tryAddAll {} others).2) ∧
          ∀ same : Path → Path → Prop,
            (∀ a ∈ calls, ∀ b ∈ calls, a.1 = b.1 → same a.2 b.2) →
              ∀ name d e, (tryAddAll {} calls).2.get? name = some d →
                (tryAddAll {} others).2.get? name = some e → same d.directory e.directory := by
  refine ⟨⟨fun i => ?answer, get?_tryAddAll_empty calls, contains_eq_isSome _, isEmpty_iff,
    size_eq fun name => isSome_tryAddAll_empty, fun d => mem_entries_iff, fun name => ?once,
    ascending_names _⟩, fun others hperm => ⟨names_eq_of_perm hperm, tryAddAll_eq_of_perm hperm,
    fun same hsame name d e => same_of_perm hperm hsame⟩⟩
  case answer =>
    rw [answer_tryAddAll]
    rfl
  case once =>
    rw [(nodup_names _).count]
    simp only [mem_names_iff, isSome_tryAddAll_empty]

theorem tryAddAll_rotated :
    (tryAddAll {} [("Game", ⟨"out/Game"⟩), ("Game", ⟨"out/Game"⟩), ("Base", ⟨"out/Base"⟩)]).2 =
      (tryAddAll {} [("Base", ⟨"out/Base"⟩), ("Game", ⟨"out/Game"⟩), ("Game", ⟨"out/Game"⟩)]).2 :=
  ((tryAddAll_keepsFirst _).2 _ (by decide)).2.1 (by decide)

end GameExport.DescriptorMap
