/-! # Trees of files

A tree says what stands at each location. Whatever exists stands in a directory. There are no
links, so a location is the only name of what stands there.
-/

namespace GameExport

/-- The names on the way to a place, the innermost first. The root of the tree has none. -/
abbrev Location := List String

inductive Entry where
  | directory
  | file (content : ByteArray) (executable : Bool)

instance : DecidableEq Entry
  | .directory, .directory => isTrue rfl
  | .directory, .file _ _ => isFalse nofun
  | .file _ _, .directory => isFalse nofun
  | .file a x, .file b y =>
      decidable_of_iff (a.data = b.data ∧ x = y) (by rw [Entry.file.injEq, ByteArray.ext_iff])

/-- The entry at a location in a list. The root is always a directory. -/
def Entry.lookup (entries : List (Location × Entry)) : Location → Option Entry
  | [] => some .directory
  | name :: parent => (entries.find? fun e => e.1 = name :: parent).map Prod.snd

/-- A tree, and the directory from which relative paths start. -/
structure FileTree where
  entries : List (Location × Entry) := []
  workingDirectory : Location := []
  closed : ∀ {name parent e}, Entry.lookup entries (name :: parent) = some e →
    Entry.lookup entries parent = some .directory := by simp [Entry.lookup]

namespace FileTree

/-- What stands at a location, if anything does. -/
def get? (t : FileTree) (l : Location) : Option Entry := Entry.lookup t.entries l

def isDirectoryAt (t : FileTree) (l : Location) : Bool := t.get? l = some .directory

@[simp] theorem get?_nil (t : FileTree) : t.get? [] = some .directory := rfl

/-- Whatever exists stands in a directory. -/
theorem get?_parent {t : FileTree} {name : String} {parent : Location} {e : Entry}
    (h : t.get? (name :: parent) = some e) : t.get? parent = some .directory := t.closed h

/-- Above everything that exists there are directories. -/
theorem get?_of_suffix {t : FileTree} {l m : Location} {e : Entry} (h : t.get? m = some e)
    (hsuffix : l <:+ m) (hne : l ≠ m) : t.get? l = some .directory := by
  induction m generalizing e with
  | nil => exact absurd (List.suffix_nil.mp hsuffix) hne
  | cons name parent ih =>
      have hparent := get?_parent h
      rcases List.suffix_cons_iff.mp hsuffix with heq | hsuffix
      · exact absurd heq hne
      · by_cases heq : l = parent
        · rwa [heq]
        · exact ih hparent hsuffix heq

/-! ## Putting an entry -/

theorem find?_filter_location (entries : List (Location × Entry)) (keep : Location → Bool)
    (m : Location) :
    (entries.filter fun e => keep e.1).find? (fun e => e.1 = m) =
      if keep m then entries.find? (fun e => e.1 = m) else none := by
  induction entries with
  | nil => simp
  | cons e rest ih =>
      by_cases he : e.1 = m
      · subst he
        by_cases hk : keep e.1
        · simp [hk]
        · simpa [hk] using ih
      · by_cases hk : keep e.1
        · simpa [hk, he] using ih
        · simpa [hk, he] using ih

theorem lookup_filter (entries : List (Location × Entry)) (keep : Location → Bool) {m : Location}
    (hm : m ≠ []) :
    Entry.lookup (entries.filter fun e => keep e.1) m =
      if keep m then Entry.lookup entries m else none := by
  cases m with
  | nil => exact absurd rfl hm
  | cons name parent =>
      simp only [Entry.lookup, find?_filter_location]
      split <;> rfl

theorem lookup_put (entries : List (Location × Entry)) {l : Location} (m : Location) (e : Entry)
    (hl : l ≠ []) :
    Entry.lookup ((l, e) :: entries.filter (fun x => decide (x.1 ≠ l))) m =
      if m = l then some e else Entry.lookup entries m := by
  cases m with
  | nil => simp [Entry.lookup, Ne.symm hl]
  | cons name parent =>
      by_cases h : name :: parent = l
      · simp [Entry.lookup, h]
      · have hfilter :=
          lookup_filter entries (fun x => decide (x ≠ l)) (List.cons_ne_nil name parent)
        simp only [Entry.lookup] at hfilter
        simp only [Entry.lookup, List.find?_cons, decide_eq_false (fun heq => h (Eq.symm heq)),
          if_neg h]
        rw [hfilter, if_pos (by simpa using h)]

/-- The tree with an entry put into a directory, where no directory stood before. -/
def put (t : FileTree) (name : String) (parent : Location) (e : Entry)
    (hparent : t.get? parent = some .directory)
    (hnew : t.get? (name :: parent) ≠ some .directory) : FileTree where
  entries := (name :: parent, e) :: t.entries.filter fun x => decide (x.1 ≠ name :: parent)
  workingDirectory := t.workingDirectory
  closed := by
    intro name' parent' e' h
    rw [lookup_put _ _ _ (by simp)] at h ⊢
    have hself : parent ≠ name :: parent := fun heq => by
      have := congrArg List.length heq
      simp at this
    split at h
    · next heq =>
        obtain ⟨-, rfl⟩ := List.cons.inj heq
        rw [if_neg hself]
        exact hparent
    · have hdir := t.closed h
      split
      · next heq => exact absurd (heq ▸ hdir) hnew
      · exact hdir

@[simp] theorem get?_put {t : FileTree} {name : String} {parent : Location} {e : Entry}
    {hparent : t.get? parent = some .directory}
    {hnew : t.get? (name :: parent) ≠ some .directory} (m : Location) :
    (t.put name parent e hparent hnew).get? m =
      if m = name :: parent then some e else t.get? m :=
  lookup_put _ _ _ (by simp)

/-! ## Removing -/

/-- The tree of the locations that are kept, given that a location is kept only with the one
around it. -/
def restrict (t : FileTree) (keep : Location → Bool)
    (hkeep : ∀ name parent, parent ≠ [] → t.get? parent = some .directory →
      keep (name :: parent) → keep parent) : FileTree where
  entries := t.entries.filter fun e => keep e.1
  workingDirectory := t.workingDirectory
  closed := by
    intro name parent e h
    rw [lookup_filter _ _ (by simp)] at h
    split at h
    · next hk =>
        by_cases hparent : parent = []
        · rw [hparent]; rfl
        · have hdir := t.closed h
          rw [lookup_filter _ _ hparent, if_pos (hkeep name parent hparent hdir hk)]
          exact hdir
    · cases h

theorem get?_restrict {t : FileTree} {keep : Location → Bool}
    {hkeep : ∀ name parent, parent ≠ [] → t.get? parent = some .directory →
      keep (name :: parent) → keep parent} {m : Location} (hm : m ≠ []) :
    (t.restrict keep hkeep).get? m = if keep m then t.get? m else none :=
  lookup_filter _ _ hm

/-- The tree without what stands at a location and below it. -/
def removeAt (t : FileTree) (l : Location) : FileTree :=
  t.restrict (fun m => !decide (l <:+ m)) fun name parent _ _ h => by
    simp only [Bool.not_eq_true', decide_eq_false_iff_not] at h ⊢
    exact fun hsuffix => h (hsuffix.trans (List.suffix_cons name parent))

@[simp] theorem get?_removeAt (t : FileTree) {l : Location} (m : Location) (hm : m ≠ []) :
    (t.removeAt l).get? m = if l <:+ m then none else t.get? m := by
  rw [removeAt, get?_restrict hm]
  by_cases h : l <:+ m <;> simp [h]

/-- The tree without what stands below a location. -/
def emptyAt (t : FileTree) (l : Location) : FileTree :=
  t.restrict (fun m => !decide (l <:+ m ∧ m ≠ l)) fun name parent _ _ h => by
    simp only [Bool.not_eq_true', decide_eq_false_iff_not] at h ⊢
    rintro ⟨hsuffix, -⟩
    refine h ⟨hsuffix.trans (List.suffix_cons name parent), fun heq => ?_⟩
    have := hsuffix.length_le
    rw [← heq, List.length_cons] at this
    omega

@[simp] theorem get?_emptyAt (t : FileTree) {l : Location} (m : Location) (hm : m ≠ []) :
    (t.emptyAt l).get? m = if l <:+ m ∧ m ≠ l then none else t.get? m := by
  rw [emptyAt, get?_restrict hm]
  by_cases h : l <:+ m ∧ m ≠ l <;> simp [h]

/-! ## Looking around -/

/-- Everything below a location, with the names from there. -/
def below (t : FileTree) (l : Location) : List (Location × Entry) :=
  t.entries.filterMap fun e =>
    match List.isSuffixOf? l e.1 with
    | some inner => if inner = [] then none else some (inner, e.2)
    | none => none

end FileTree

end GameExport
