import GameExport.Proofs.Action
import GameExport.Proofs.Path.Place

/-! # Where a path leads

A path leads to its place if every step on the way can be taken, and nowhere otherwise. What can be
reached stays within reach as long as nothing on the way is taken away.
-/

namespace GameExport.FileTree

open GameExport.Path

def place (t : FileTree) (p : Path) : Location := p.place t.workingDirectory

def way (t : FileTree) (p : Path) : List Location := p.way t.workingDirectory

/-- The place of a path depends on the working directory alone. -/
theorem place_congr {t u : FileTree} (h : u.workingDirectory = t.workingDirectory) (p : Path) :
    u.place p = t.place p := by
  rw [place, place, h]

theorem way_congr {t u : FileTree} (h : u.workingDirectory = t.workingDirectory) (p : Path) :
    u.way p = t.way p := by
  rw [way, way, h]

/-- Where nothing stands, nothing stands below. -/
theorem get?_eq_none_of_suffix {t : FileTree} {l m : Location} (h : t.get? l = none)
    (hsuffix : l <:+ m) : t.get? m = none := by
  cases hm : t.get? m with
  | none => rfl
  | some e =>
      by_cases heq : l = m
      · rw [heq, hm] at h
        cases h
      · rw [get?_of_suffix hm hsuffix heq] at h
        cases h

/-! ## Steps -/

/-- A step can be taken: it starts from a directory, and a name has to be there. -/
def CanStep (t : FileTree) (l : Location) : Component → Prop
  | .root => True
  | .here => t.get? l = some .directory
  | .up => t.get? l = some .directory
  | .name n =>
      t.get? l = some .directory ∧ n.utf8ByteSize ≤ maxNameSize ∧ (t.get? (n :: l)).isSome

/-- A step is taken from a directory, unless it starts from the root. -/
theorem CanStep.directory {t : FileTree} {l : Location} {c : Component} (h : t.CanStep l c)
    (hc : c ≠ .root) : t.get? l = some .directory := by
  cases c with
  | root => exact absurd rfl hc
  | here => exact h
  | up => exact h
  | name n => exact h.1

theorem checkDirectory_eq_ok {t : FileTree} {l : Location} :
    t.checkDirectory l = .ok () ↔ t.get? l = some .directory := by
  unfold checkDirectory
  split <;> simp_all

theorem checkName_eq_ok {name : String} :
    checkName name = .ok () ↔ name.utf8ByteSize ≤ maxNameSize := by
  unfold checkName
  split <;> simp_all

/-- The steps that need nothing but a directory to start from. -/
theorem checkDirectory_bind_eq_ok {t : FileTree} {l k m : Location} :
    t.checkDirectory l >>= (fun _ => .ok k) = .ok m ↔ m = k ∧ t.get? l = some .directory := by
  rw [bind_eq_ok]
  constructor
  · rintro ⟨_, hdir, h⟩
    exact ⟨(Except.ok.inj h).symm, checkDirectory_eq_ok.mp hdir⟩
  · rintro ⟨rfl, hdir⟩
    exact ⟨(), checkDirectory_eq_ok.mpr hdir, rfl⟩

/-- A step leads where its name says, if it can be taken. -/
theorem step_eq_ok {t : FileTree} {l m : Location} {c : Component} :
    t.step l c = .ok m ↔ m = c.follow l ∧ t.CanStep l c := by
  cases c with
  | root =>
      simp only [step, Except.ok.injEq, Component.follow, CanStep, and_true]
      exact eq_comm
  | here => exact checkDirectory_bind_eq_ok
  | up => exact checkDirectory_bind_eq_ok
  | name n =>
      rw [step, bind_eq_ok]
      constructor
      · rintro ⟨_, hdir, h⟩
        obtain ⟨_, hsize, h⟩ := bind_eq_ok.mp h
        split at h
        · next hsome =>
            exact ⟨(Except.ok.inj h).symm, checkDirectory_eq_ok.mp hdir, checkName_eq_ok.mp hsize,
              hsome⟩
        · cases h
      · rintro ⟨rfl, hdir, hsize, hsome⟩
        refine ⟨(), checkDirectory_eq_ok.mpr hdir, ?_⟩
        refine bind_eq_ok.mpr ⟨(), checkName_eq_ok.mpr hsize, ?_⟩
        rw [if_pos hsome]
        rfl

def CanWalk (t : FileTree) (l : Location) (cs : List Component) : Prop :=
  ∀ before c after, cs = before ++ c :: after → t.CanStep (Component.place l before) c

theorem canWalk_nil (t : FileTree) (l : Location) : t.CanWalk l [] := by
  intro before c after h
  simp at h

/-- Steps can be taken if the first one can and the others from there. -/
theorem canWalk_cons {t : FileTree} {l : Location} {c : Component} {cs : List Component} :
    t.CanWalk l (c :: cs) ↔ t.CanStep l c ∧ t.CanWalk (c.follow l) cs := by
  constructor
  · intro h
    exact ⟨h [] c cs rfl, fun before d after heq => h (c :: before) d after (by rw [heq]; rfl)⟩
  · rintro ⟨hc, hcs⟩ before d after heq
    cases before with
    | nil =>
        obtain ⟨rfl, -⟩ := List.cons.inj heq
        exact hc
    | cons b before =>
        obtain ⟨rfl, rfl⟩ := List.cons.inj heq
        exact hcs before d after rfl

theorem canWalk_append {t : FileTree} {l : Location} {cs ds : List Component} :
    t.CanWalk l (cs ++ ds) ↔ t.CanWalk l cs ∧ t.CanWalk (Component.place l cs) ds := by
  induction cs generalizing l with
  | nil => simp [canWalk_nil]
  | cons c cs ih =>
      rw [List.cons_append, canWalk_cons, canWalk_cons, ih, Component.place_cons, and_assoc]

/-- A walk leads where the names say, if all its steps can be taken. -/
theorem walk_eq_ok {t : FileTree} {l m : Location} {cs : List Component} :
    t.walk l cs = .ok m ↔ m = Component.place l cs ∧ t.CanWalk l cs := by
  induction cs generalizing l with
  | nil =>
      simp only [walk, Except.ok.injEq, Component.place_nil, canWalk_nil, and_true]
      exact eq_comm
  | cons c cs ih =>
      rw [canWalk_cons, walk, Component.place_cons]
      cases hstep : t.step l c with
      | error e =>
          -- the error is of no use here, only that the step cannot be taken
          have hstuck : ¬ t.CanStep l c := fun h => by
            rw [step_eq_ok.mpr ⟨rfl, h⟩] at hstep
            cases hstep
          simp [bind, Except.bind, hstuck]
      | ok k =>
          obtain ⟨rfl, hcan⟩ := step_eq_ok.mp hstep
          simp only [bind, Except.bind, hcan, true_and]
          exact ih

/-! ## Paths -/

structure Reaches (t : FileTree) (p : Path) : Prop where
  accepted : p.refusal = none
  walk : t.CanWalk t.workingDirectory p.steps
  closing : p.endsInSlash → t.get? (t.place p) = some .directory

/-- A path that can be followed to its end is the path of its place. -/
theorem locate_eq_ok {t : FileTree} {p : Path} {l : Location} :
    t.locate p = .ok l ↔ l = t.place p ∧ t.Reaches p := by
  unfold locate
  constructor
  · intro h
    split at h
    · cases h
    · next hrefusal =>
        obtain ⟨k, hwalk, h⟩ := bind_eq_ok.mp h
        obtain ⟨rfl, hcan⟩ := walk_eq_ok.mp hwalk
        split at h
        · next hslash =>
            obtain ⟨_, hdir, h⟩ := bind_eq_ok.mp h
            exact ⟨(Except.ok.inj h).symm, hrefusal, hcan, fun _ => checkDirectory_eq_ok.mp hdir⟩
        · next hslash =>
            exact ⟨(Except.ok.inj h).symm, hrefusal, hcan, fun h => absurd h hslash⟩
  · rintro ⟨rfl, h⟩
    simp only [h.accepted]
    refine bind_eq_ok.mpr ⟨_, walk_eq_ok.mpr ⟨rfl, h.walk⟩, ?_⟩
    split
    · next hslash => exact bind_eq_ok.mpr ⟨(), checkDirectory_eq_ok.mpr (h.closing hslash), rfl⟩
    · rfl

/-- What a path finds is what stands at its place. -/
theorem find?_eq_some {t : FileTree} {p : Path} {e : Entry} :
    t.find? p = some e ↔ t.Reaches p ∧ t.get? (t.place p) = some e := by
  unfold find?
  cases hlocate : t.locate p with
  | error =>
      have hnot : ¬ t.Reaches p := fun h => by
        rw [locate_eq_ok.mpr ⟨rfl, h⟩] at hlocate
        cases hlocate
      simp [hnot]
  | ok l =>
      obtain ⟨rfl, h⟩ := locate_eq_ok.mp hlocate
      simp [h]

/-- A tree contains a path if the path can be followed to something. -/
theorem contains_iff {t : FileTree} {p : Path} :
    t.contains p ↔ t.Reaches p ∧ (t.get? (t.place p)).isSome := by
  rw [contains, Option.isSome_iff_exists, Option.isSome_iff_exists]
  constructor
  · rintro ⟨e, h⟩
    obtain ⟨hreach, hget⟩ := find?_eq_some.mp h
    exact ⟨hreach, e, hget⟩
  · rintro ⟨hreach, e, hget⟩
    exact ⟨e, find?_eq_some.mpr ⟨hreach, hget⟩⟩

/-- A path names a directory if it can be followed to one. -/
theorem isDirectory_iff {t : FileTree} {p : Path} :
    t.isDirectory p ↔ t.Reaches p ∧ t.get? (t.place p) = some .directory := by
  rw [isDirectory, decide_eq_true_iff, find?_eq_some]

/-- A path names a file if it can be followed to one. -/
theorem isFile_iff {t : FileTree} {p : Path} :
    t.isFile p ↔ t.Reaches p ∧ ∃ content executable,
      t.get? (t.place p) = some (.file content executable) := by
  unfold isFile
  split
  · next c x h =>
      obtain ⟨hreach, hget⟩ := find?_eq_some.mp h
      simp [hreach, hget]
  · next hnot =>
      simp only [Bool.false_eq_true, false_iff, not_and]
      rintro hreach ⟨c, x, hget⟩
      exact hnot c x (find?_eq_some.mpr ⟨hreach, hget⟩)

theorem contains_of_isFile {t : FileTree} {p : Path} (h : t.isFile p) : t.contains p := by
  obtain ⟨hreach, c, x, hget⟩ := isFile_iff.mp h
  exact contains_iff.mpr ⟨hreach, by rw [hget]; rfl⟩

theorem contains_of_isDirectory {t : FileTree} {p : Path} (h : t.isDirectory p) :
    t.contains p := by
  obtain ⟨hreach, hdir⟩ := isDirectory_iff.mp h
  exact contains_iff.mpr ⟨hreach, by rw [hdir]; rfl⟩

/-- Only a path that starts at the root has a step to the root, and it is the first one. -/
theorem ne_root_of_steps {p : Path} {before after : List Component} {c : Component}
    (h : p.steps = before ++ c :: after) (hne : before ≠ []) : c ≠ .root := by
  have hspelled : ∀ d ∈ (parts '/' p.text.toList).map componentOf, d ≠ .root := by
    intro d hd
    obtain ⟨part, -, rfl⟩ := List.mem_map.mp hd
    exact componentOf_ne_root part
  unfold steps at h
  split at h
  · obtain ⟨b, bs, rfl⟩ := List.exists_cons_of_ne_nil hne
    rw [List.singleton_append, List.cons_append] at h
    exact hspelled c (by rw [(List.cons.inj h).2]; simp)
  · rw [List.nil_append] at h
    exact hspelled c (by rw [h]; simp)

/-- Before the end of a path that can be followed there are only directories. -/
theorem Reaches.directory {t : FileTree} {p : Path} (h : t.Reaches p)
    {before after : List Component} {c : Component} (hsteps : p.steps = before ++ c :: after)
    (hne : before ≠ []) : t.get? (Component.place t.workingDirectory before) = some .directory :=
  (h.walk before c after hsteps).directory (ne_root_of_steps hsteps hne)

/-- On the way to a directory there are only directories. -/
theorem directory_of_mem_way {t : FileTree} {p : Path} (h : t.isDirectory p) {m : Location}
    (hm : m ∈ t.way p) : t.get? m = some .directory := by
  obtain ⟨hreach, hdir⟩ := isDirectory_iff.mp h
  obtain ⟨before, after, hsteps, hne, rfl⟩ := Component.mem_way_iff.mp hm
  cases after with
  | nil =>
      rw [List.append_nil] at hsteps
      rw [← hsteps]
      exact hdir
  | cons c after => exact hreach.directory hsteps hne

/-! ## Climbing -/

/-- Wherever the path climbs, it climbs out of a directory that is there. -/
def CanClimb (t : FileTree) (p : Path) : Prop :=
  ∀ before after, p.steps = before ++ .up :: after →
    t.get? (Component.place t.workingDirectory before) = some .directory

/-- A path that can climb has directories on its way wherever that leaves the way to its place. -/
theorem CanClimb.directory {t : FileTree} {p : Path} (h : t.CanClimb p) {m : Location}
    (hm : m ∈ t.way p) (hout : ¬ m <:+ t.place p) : t.get? m = some .directory := by
  obtain ⟨before, after, hsteps, hne, rfl⟩ := Component.mem_way_iff.mp hm
  have hroot : ∀ c ∈ after, c ≠ .root := by
    intro c hc
    obtain ⟨front, back, rfl⟩ := List.append_of_mem hc
    have hback : p.steps = (before ++ front) ++ c :: back := by rw [hsteps, List.append_assoc]
    exact ne_root_of_steps hback (by simp [hne])
  rw [place, Path.place, hsteps, Component.place_append] at hout
  obtain ⟨front, back, rfl, hplace⟩ := Component.exists_up hroot List.suffix_rfl hout
  rw [← hplace, ← Component.place_append]
  exact h (before ++ front) back (by rw [hsteps, List.append_assoc])

/-! ## Growing -/

/-- Nothing has been taken away: directories have stayed, and files have at most new content. -/
structure Grows (t u : FileTree) : Prop where
  workingDirectory : u.workingDirectory = t.workingDirectory
  directory : ∀ {m}, t.get? m = some .directory → u.get? m = some .directory
  file : ∀ {m content executable}, t.get? m = some (.file content executable) →
    ∃ content', u.get? m = some (.file content' executable)

namespace Grows

variable {t u v : FileTree}

theorem refl (t : FileTree) : Grows t t := ⟨rfl, id, fun h => ⟨_, h⟩⟩

theorem trans (h : Grows t u) (k : Grows u v) : Grows t v where
  workingDirectory := k.workingDirectory.trans h.workingDirectory
  directory := fun hm => k.directory (h.directory hm)
  file := fun hm => by
    obtain ⟨c, hc⟩ := h.file hm
    exact k.file hc

theorem isSome (h : Grows t u) {m : Location} (hm : (t.get? m).isSome) : (u.get? m).isSome := by
  obtain ⟨e, he⟩ := Option.isSome_iff_exists.mp hm
  cases e with
  | directory => rw [h.directory he]; rfl
  | file c x =>
      obtain ⟨d, hd⟩ := h.file he
      rw [hd]
      rfl

theorem place (h : Grows t u) (p : Path) : u.place p = t.place p :=
  place_congr h.workingDirectory p

theorem way (h : Grows t u) (p : Path) : u.way p = t.way p := way_congr h.workingDirectory p

theorem canStep (h : Grows t u) {l : Location} {c : Component} (hc : t.CanStep l c) :
    u.CanStep l c := by
  cases c with
  | root => trivial
  | here => exact h.directory hc
  | up => exact h.directory hc
  | name n => exact ⟨h.directory hc.1, hc.2.1, h.isSome hc.2.2⟩

theorem canWalk (h : Grows t u) {l : Location} {cs : List Component} (hcs : t.CanWalk l cs) :
    u.CanWalk l cs :=
  fun before c after heq => h.canStep (hcs before c after heq)

theorem reaches (h : Grows t u) {p : Path} (hp : t.Reaches p) : u.Reaches p where
  accepted := hp.accepted
  walk := by
    rw [h.workingDirectory]
    exact h.canWalk hp.walk
  closing := fun hslash => by
    rw [h.place]
    exact h.directory (hp.closing hslash)

theorem contains (h : Grows t u) {p : Path} (hp : t.contains p) : u.contains p := by
  obtain ⟨hreach, hsome⟩ := contains_iff.mp hp
  exact contains_iff.mpr ⟨h.reaches hreach, by rw [h.place]; exact h.isSome hsome⟩

theorem isDirectory (h : Grows t u) {p : Path} (hp : t.isDirectory p) : u.isDirectory p := by
  obtain ⟨hreach, hdir⟩ := isDirectory_iff.mp hp
  exact isDirectory_iff.mpr ⟨h.reaches hreach, by rw [h.place]; exact h.directory hdir⟩

theorem isFile (h : Grows t u) {p : Path} (hp : t.isFile p) : u.isFile p := by
  obtain ⟨hreach, c, x, hfile⟩ := isFile_iff.mp hp
  obtain ⟨d, hd⟩ := h.file hfile
  exact isFile_iff.mpr ⟨h.reaches hreach, d, x, by rw [h.place]; exact hd⟩

end Grows

end GameExport.FileTree
