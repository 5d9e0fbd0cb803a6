import GameExport.Disk.Files
import GameExport.Proofs.Disk.Change

/-! # What the operations on files do

Each operation either fails and leaves the tree alone or does one thing that is told here in full.
Only making several directories can fail after it has made some of them.
-/

namespace GameExport

open GameExport.Path FileTree

namespace FileTree

/-- The last step of a path is a name, which is looked up in a directory that is there. -/
structure EndsIn (t : FileTree) (p : Path) (parent : Location) (name : String) : Prop where
  accepted : p.refusal = Option.none
  steps : ∃ front, p.steps = front ++ [.name name] ∧
    parent = Component.place t.workingDirectory front ∧ t.CanWalk t.workingDirectory front
  directory : t.get? parent = some .directory

theorem EndsIn.place_eq {t : FileTree} {p : Path} {parent : Location} {name : String}
    (h : t.EndsIn p parent name) : t.place p = name :: parent := by
  obtain ⟨front, hsteps, rfl, -⟩ := h.steps
  rw [place, Path.place, hsteps, Component.place_append]
  rfl

/-- Once something stands at the end of a path, the path can be followed. -/
theorem EndsIn.reaches {t u : FileTree} {p : Path} {parent : Location} {name : String}
    (h : t.EndsIn p parent name) (hsize : name.utf8ByteSize ≤ maxNameSize) (hgrows : Grows t u)
    (hsome : (u.get? (name :: parent)).isSome)
    (hclosing : p.endsInSlash → u.get? (name :: parent) = some .directory) : u.Reaches p where
  accepted := h.accepted
  walk := by
    obtain ⟨front, hsteps, rfl, hwalk⟩ := h.steps
    rw [hsteps, hgrows.workingDirectory, canWalk_append]
    refine ⟨hgrows.canWalk hwalk, canWalk_cons.mpr ⟨?_, canWalk_nil _ _⟩⟩
    exact ⟨hgrows.directory h.directory, hsize, hsome⟩
  closing := by
    rw [hgrows.place, h.place_eq]
    exact hclosing

/-- A lookup that ends with a name tells where the path ends. -/
theorem endsIn_of_locateParent {t : FileTree} {p : Path} {l : Location} {name : String}
    (h : t.locateParent p = .ok (l, .name name)) : t.EndsIn p l name := by
  unfold locateParent at h
  split at h
  · cases h
  · next hrefusal =>
      obtain ⟨k, hwalk, h⟩ := bind_eq_ok.mp h
      obtain ⟨_, hdir, h⟩ := bind_eq_ok.mp h
      obtain ⟨rfl, hcan⟩ := walk_eq_ok.mp hwalk
      obtain ⟨rfl, hlast⟩ := Prod.mk.inj (Except.ok.inj h)
      cases hsteps : p.steps.getLast? with
      | none => simp [hsteps] at hlast
      | some c =>
          obtain ⟨front, hfront⟩ := List.getLast?_eq_some_iff.mp hsteps
          rw [hsteps, Option.getD_some] at hlast
          subst hlast
          rw [hfront, List.dropLast_concat] at hcan hdir ⊢
          exact ⟨hrefusal, ⟨front, hfront, rfl, hcan⟩, checkDirectory_eq_ok.mp hdir⟩

/-- Where a path ends is found by looking its parent up. -/
theorem EndsIn.locateParent_eq {t : FileTree} {p : Path} {parent : Location} {name : String}
    (h : t.EndsIn p parent name) : t.locateParent p = .ok (parent, .name name) := by
  obtain ⟨front, hsteps, rfl, hwalk⟩ := h.steps
  unfold locateParent
  simp only [h.accepted, hsteps, List.dropLast_concat, List.getLast?_concat, Option.getD_some]
  refine bind_eq_ok.mpr ⟨_, walk_eq_ok.mpr ⟨rfl, hwalk⟩, bind_eq_ok.mpr ⟨(), ?_, rfl⟩⟩
  exact checkDirectory_eq_ok.mpr h.directory

/-- The directory of the last step cannot be found, or that step is no name, or it is looked up. -/
theorem locateParent_cases (t : FileTree) (p : Path) :
    (∃ e, t.locateParent p = .error e) ∨
      (∃ l c, t.locateParent p = .ok (l, c) ∧ ∀ name, c ≠ .name name) ∨
      ∃ l name, t.locateParent p = .ok (l, .name name) ∧ t.EndsIn p l name := by
  cases hlocate : t.locateParent p with
  | error e => exact Or.inl ⟨e, rfl⟩
  | ok found =>
      obtain ⟨l, c⟩ := found
      by_cases hname : ∃ name, c = .name name
      · obtain ⟨name, rfl⟩ := hname
        exact Or.inr (Or.inr ⟨l, name, rfl, endsIn_of_locateParent hlocate⟩)
      · exact Or.inr (Or.inl ⟨l, c, rfl, fun name heq => hname ⟨name, heq⟩⟩)

/-- A path that can be followed and ends in a name ends in a directory that is there. -/
theorem Reaches.endsIn {t : FileTree} {p : Path} {name : String} (h : t.Reaches p)
    (hlast : p.steps.getLast? = some (.name name)) :
    ∃ parent, t.EndsIn p parent name ∧ name.utf8ByteSize ≤ maxNameSize := by
  obtain ⟨front, hfront⟩ := List.getLast?_eq_some_iff.mp hlast
  have hwalk := h.walk
  rw [hfront, canWalk_append, canWalk_cons] at hwalk
  obtain ⟨hdir, hsize, -⟩ := hwalk.2.1
  exact ⟨_, ⟨h.accepted, ⟨front, hfront, rfl, hwalk.1⟩, hdir⟩, hsize⟩

/-- A name that is looked up in a directory that is there. -/
theorem endsIn_join {t : FileTree} {p : Path} {name : String} (h : t.isDirectory p)
    (hname : IsName name) (haccepted : (p.join ⟨name⟩).refusal = Option.none) :
    t.EndsIn (p.join ⟨name⟩) (t.place p) name := by
  obtain ⟨hreaches, hdirectory⟩ := isDirectory_iff.mp h
  refine ⟨haccepted, ⟨p.steps, ?_, rfl, hreaches.walk⟩, hdirectory⟩
  rw [steps_join p hname.not_isAbsolute, hname.steps_eq]

end FileTree

namespace Disk

@[simp] theorem outcome_look {α : Type} (f : FileTree → Except FileError α) (t : FileTree) :
    (look f).outcome t = (f t, t) := rfl

/-! ## Writing -/

/-- A file is written into a directory that is there, in the place of a file or of nothing. A file
that was there keeps its mode. -/
theorem writeAt_outcome (content : ByteArray) {t : FileTree} {l : Location} {name : String}
    (hparent : t.get? l = some .directory) (hnew : t.get? (name :: l) ≠ some .directory) :
    ∃ u, (writeAt content l name).outcome t = (.ok (), u) ∧
      Puts t (name :: l) (.file content (t.isExecutableAt (name :: l))) u := by
  unfold writeAt
  rw [Action.outcome_of, dif_pos hparent, dif_neg hnew]
  refine ⟨_, rfl, rfl, fun m => ?_⟩
  rw [get?_put]
  rfl

/-- Writing to a path is writing where the path ends. -/
theorem outcome_write_of_endsIn {t : FileTree} {p : Path} {l : Location} {name : String}
    (content : ByteArray) (h : t.EndsIn p l name) (hslash : p.endsInSlash = false)
    (hsize : name.utf8ByteSize ≤ maxNameSize) :
    (write p content).outcome t = (writeAt content l name).outcome t := by
  unfold write
  simp only [Action.outcome_bind, outcome_look, h.locateParent_eq, hslash, Bool.false_eq_true,
    if_false, checkName_eq_ok.mpr hsize]

/-- Writing leaves a file with the content at the place of the path, or nothing happens. -/
theorem write_outcome (p : Path) (content : ByteArray) (t : FileTree) :
    (∃ e, (write p content).outcome t = (.error e, t)) ∨
      ∃ u, (write p content).outcome t = (.ok (), u) ∧ u.isFile p ∧
        t.get? (t.place p) ≠ some .directory ∧
        Puts t (t.place p) (.file content (t.isExecutableAt (t.place p))) u := by
  rcases locateParent_cases t p with
    ⟨e, hlocate⟩ | ⟨l, c, hlocate, hname⟩ | ⟨l, name, hlocate, hends⟩
  · refine Or.inl ⟨e, ?_⟩
    simp only [write, Action.outcome_bind, outcome_look, hlocate]
  · refine Or.inl ⟨.isDirectory, ?_⟩
    unfold write
    cases c with
    | name n => exact absurd rfl (hname n)
    | _ => simp only [Action.outcome_bind, outcome_look, hlocate, Action.outcome_throw]
  rw [hends.place_eq]
  by_cases hslash : p.endsInSlash
  · refine Or.inl ⟨.isDirectory, ?_⟩
    simp only [write, Action.outcome_bind, outcome_look, hlocate, hslash, if_true,
      Action.outcome_throw]
  by_cases hsize : name.utf8ByteSize ≤ maxNameSize
  · rw [outcome_write_of_endsIn content hends (by simpa using hslash) hsize]
    by_cases hnew : t.get? (name :: l) = some .directory
    · refine Or.inl ⟨.isDirectory, ?_⟩
      rw [writeAt, Action.outcome_of, dif_pos hends.directory, dif_pos hnew]
    · obtain ⟨u, hu, hputs⟩ := writeAt_outcome content hends.directory hnew
      refine Or.inr ⟨u, hu, ?_, hnew, hputs⟩
      have hgrows : Grows t u :=
        hputs.grows hnew fun c x h => (isExecutableAt_of_file h).symm
      have hreaches : u.Reaches p :=
        hends.reaches hsize hgrows (by rw [hputs.self]; rfl) fun h => absurd h hslash
      refine isFile_iff.mpr ⟨hreaches, content, t.isExecutableAt (name :: l), ?_⟩
      rw [hgrows.place, hends.place_eq, hputs.self]
  · refine Or.inl ⟨.nameTooLong, ?_⟩
    simp only [write, Action.outcome_bind, outcome_look, hlocate, hslash, Bool.false_eq_true,
      if_false, checkName, if_pos (Nat.lt_of_not_le hsize)]

/-- A file that was written is there, and nothing else has changed. -/
theorem write_eq_ok {p : Path} {content : ByteArray} {t u : FileTree} {x : Unit}
    (h : (write p content).outcome t = (.ok x, u)) :
    u.isFile p ∧ t.get? (t.place p) ≠ some .directory ∧
      Puts t (t.place p) (.file content (t.isExecutableAt (t.place p))) u := by
  rcases write_outcome p content t with ⟨e, he⟩ | ⟨v, hv, hfacts⟩
  · rw [he] at h
    cases h
  · rw [hv] at h
    obtain ⟨-, rfl⟩ := Prod.mk.inj h
    exact hfacts

/-- A file that cannot be written changes nothing. -/
theorem write_eq_error {p : Path} {content : ByteArray} {t u : FileTree} {e : FileError}
    (h : (write p content).outcome t = (.error e, u)) : u = t := by
  rcases write_outcome p content t with ⟨e', he⟩ | ⟨v, hv, -⟩
  · rw [he] at h
    exact (Prod.mk.inj h).2.symm
  · rw [hv] at h
    cases h

/-- A file that is reached by its name can be written again. -/
theorem write_of_isFile {p : Path} {name : String} (content : ByteArray) {t : FileTree}
    (h : t.isFile p) (hlast : p.steps.getLast? = some (.name name)) :
    ∃ u, (write p content).outcome t = (.ok (), u) := by
  obtain ⟨hreaches, c, x, hfile⟩ := isFile_iff.mp h
  obtain ⟨l, hends, hsize⟩ := hreaches.endsIn hlast
  rw [hends.place_eq] at hfile
  have hslash : p.endsInSlash = false := by
    by_contra hslash
    have hdir := hreaches.closing (by simpa using hslash)
    rw [hends.place_eq, hfile] at hdir
    cases hdir
  rw [outcome_write_of_endsIn content hends hslash hsize]
  obtain ⟨u, hu, -⟩ := writeAt_outcome content hends.directory (by rw [hfile]; simp)
  exact ⟨u, hu⟩

/-- However writing ends, the tree has changed at most at the place of the path. -/
theorem write_moves {p : Path} {content : ByteArray} {free made : Region}
    (hfree : ∀ l, free l (p.place l)) : (write p content).Moves (ChangesWithin free made) := by
  intro t
  rcases write_outcome p content t with ⟨e, he⟩ | ⟨u, hu, -, -, hputs⟩
  · rw [he]
    exact .refl t
  · rw [hu]
    exact hputs.changesWithin_free (hfree t.workingDirectory)

/-- A write starts and ends in one place. -/
theorem write_samePlace (p : Path) (content : ByteArray) :
    (write p content).Moves SamePlace := by
  have hwrite : (write p content).Moves (ChangesWithin (.under p) .none) :=
    write_moves fun _ => List.suffix_refl _
  exact samePlace_of_moves hwrite

/-! ## Modes -/

/-- Letting a file be run, or not any more, changes at most that file. -/
theorem setExecutable_moves (executable : Bool) (p : Path) :
    (setExecutable executable p).Moves (ChangesWithin (.under p) .none) := by
  intro t
  unfold setExecutable
  rw [Action.outcome_bind, outcome_look]
  split
  · next l s heq =>
      obtain ⟨hlocate, rfl⟩ := Prod.mk.inj heq
      obtain ⟨hplace, -⟩ := locate_eq_ok.mp hlocate
      rw [Action.outcome_of]
      split
      · next name parent content x hfile =>
          split
          · next hparent =>
              split
              · exact .refl t
              · next hnew =>
                  have hputs : Puts t (name :: parent) (.file content executable)
                      (t.put name parent (.file content executable) hparent hnew) :=
                    ⟨rfl, fun m => get?_put m⟩
                  refine hputs.changesWithin_free ?_
                  rw [hplace]
                  exact List.suffix_refl _
          · exact .refl t
      · exact .refl t
  · next e s heq =>
      obtain ⟨-, rfl⟩ := Prod.mk.inj heq
      exact .refl t

/-! ## Making directories -/

/-- A directory is made at the place of the path, or nothing happens. -/
theorem makeDirectory_outcome (p : Path) (t : FileTree) :
    (∃ e, (makeDirectory p).outcome t = (.error e, t)) ∨
      ∃ u, (makeDirectory p).outcome t = (.ok (), u) ∧ u.isDirectory p ∧ p.steps ≠ [] ∧
        t.get? (t.place p) = none ∧ Puts t (t.place p) .directory u := by
  rcases locateParent_cases t p with
    ⟨e, hlocate⟩ | ⟨l, c, hlocate, hname⟩ | ⟨l, name, hlocate, hends⟩
  · refine Or.inl ⟨e, ?_⟩
    simp only [makeDirectory, Action.outcome_bind, outcome_look, hlocate]
  · refine Or.inl ⟨.alreadyExists, ?_⟩
    unfold makeDirectory
    cases c with
    | name n => exact absurd rfl (hname n)
    | _ => simp only [Action.outcome_bind, outcome_look, hlocate, Action.outcome_throw]
  rw [hends.place_eq]
  by_cases hsize : name.utf8ByteSize ≤ maxNameSize
  · have hmake : (makeDirectory p).outcome t = (makeAt l name).outcome t := by
      simp only [makeDirectory, Action.outcome_bind, outcome_look, hlocate,
        checkName_eq_ok.mpr hsize]
    rw [hmake]
    unfold makeAt
    rw [Action.outcome_of, dif_pos hends.directory]
    split
    · next hnew =>
        have hputs : Puts t (name :: l) .directory
            (t.put name l .directory hends.directory (by simp [hnew])) :=
          ⟨rfl, fun m => get?_put m⟩
        refine Or.inr ⟨_, rfl, ?_, ?_, hnew, hputs⟩
        · have hmade : ChangesWithin .none (fun _ _ => True) t _ :=
            hputs.changesWithin_made hnew trivial
          have hgrows := hmade.grows
          have hreaches := hends.reaches hsize hgrows (by rw [hputs.self]; rfl) fun _ => hputs.self
          refine isDirectory_iff.mpr ⟨hreaches, ?_⟩
          rw [hgrows.place, hends.place_eq, hputs.self]
        · obtain ⟨front, hsteps, -⟩ := hends.steps
          simp [hsteps]
    · exact Or.inl ⟨_, rfl⟩
  · refine Or.inl ⟨.nameTooLong, ?_⟩
    simp only [makeDirectory, Action.outcome_bind, outcome_look, hlocate, checkName,
      if_pos (Nat.lt_of_not_le hsize)]

theorem makeDirectory_moves (p : Path) :
    (makeDirectory p).Moves (ChangesWithin .none (.along p)) := by
  intro t
  rcases makeDirectory_outcome p t with ⟨e, he⟩ | ⟨u, hu, -, hne, hnone, hputs⟩
  · rw [he]
    exact .refl t
  · rw [hu]
    exact hputs.changesWithin_made hnone (Component.place_mem_way _ hne)

/-- A directory is not made twice. -/
theorem makeDirectory_of_isDirectory {p : Path} {name : String} {t : FileTree}
    (h : t.isDirectory p) (hlast : p.steps.getLast? = some (.name name)) :
    (makeDirectory p).outcome t = (.error .alreadyExists, t) := by
  obtain ⟨hreaches, hdir⟩ := isDirectory_iff.mp h
  obtain ⟨l, hends, hsize⟩ := hreaches.endsIn hlast
  rw [hends.place_eq] at hdir
  simp only [makeDirectory, Action.outcome_bind, outcome_look, hends.locateParent_eq,
    checkName_eq_ok.mpr hsize, makeAt, Action.outcome_of, dif_pos hends.directory, hdir,
    reduceCtorEq, dite_false]

/-- A directory is there afterwards, made or found, or nothing happens. -/
theorem ensureDirectory_outcome (p : Path) (t : FileTree) :
    (∃ e, (ensureDirectory p).outcome t = (.error e, t)) ∨
      ((ensureDirectory p).outcome t = (.ok (), t) ∧ t.isDirectory p) ∨
      ∃ u, (ensureDirectory p).outcome t = (.ok (), u) ∧ u.isDirectory p ∧ p.steps ≠ [] ∧
        t.get? (t.place p) = none ∧ Puts t (t.place p) .directory u := by
  unfold ensureDirectory
  rw [Action.outcome_tryCatch]
  rcases makeDirectory_outcome p t with ⟨e, he⟩ | ⟨u, hu, hfacts⟩
  · simp only [he, Action.outcome_bind, Action.outcome_ask]
    split
    · next hfound => exact Or.inr (Or.inl ⟨rfl, hfound.2⟩)
    · exact Or.inl ⟨e, rfl⟩
  · simp only [hu]
    exact Or.inr (Or.inr ⟨u, rfl, hfacts⟩)

/-- For a directory that is there nothing has to be done. -/
theorem ensureDirectory_of_isDirectory {p : Path} {name : String} {t : FileTree}
    (h : t.isDirectory p) (hlast : p.steps.getLast? = some (.name name)) :
    (ensureDirectory p).outcome t = (.ok (), t) := by
  unfold ensureDirectory
  simp only [Action.outcome_tryCatch, makeDirectory_of_isDirectory h hlast, Action.outcome_bind,
    Action.outcome_ask, h, and_self, if_true, Action.outcome_pure]

theorem ensureDirectory_moves {p : Path} {free made : Region}
    (hmade : p.steps ≠ [] → ∀ l, made l (p.place l)) :
    (ensureDirectory p).Moves (ChangesWithin free made) := by
  intro t
  rcases ensureDirectory_outcome p t with ⟨e, he⟩ | ⟨hsame, -⟩ | ⟨u, hu, -, hne, hnone, hputs⟩
  · rw [he]
    exact .refl t
  · rw [hsame]
    exact .refl t
  · rw [hu]
    exact hputs.changesWithin_made hnone (hmade hne t.workingDirectory)

/-- Making nested directories goes as far as making each of them. -/
theorem ensureNested_moves_of_each {R : FileTree → FileTree → Prop} (hrefl : ∀ t, R t t)
    (htrans : ∀ s t u, R s t → R t u → R s u) {ps : List Path}
    (hps : ∀ p ∈ ps, (ensureDirectory p).Moves R) : (ensureNested ps).Moves R := by
  induction ps with
  | nil => exact .pure hrefl ()
  | cons p ps ih =>
      have hp : (ensureDirectory p).Moves R := hps p List.mem_cons_self
      refine .tryCatch htrans hp fun e => ?_
      split
      · exact .bind htrans (ih fun q hq => hps q (List.mem_cons_of_mem p hq)) fun _ => hp
      · exact .throw hrefl e

theorem ensureNested_moves {ps : List Path} {free made : Region}
    (hmade : ∀ p ∈ ps, p.steps ≠ [] → ∀ l, made l (p.place l)) :
    (ensureNested ps).Moves (ChangesWithin free made) :=
  ensureNested_moves_of_each ChangesWithin.refl (fun _ _ _ h k => h.trans k) fun p hp =>
    ensureDirectory_moves (hmade p hp)

/-- The innermost of nested directories is there in the end. -/
theorem ensureNested_eq_ok {p : Path} {ps : List Path} {t u : FileTree} {x : Unit}
    (h : (ensureNested (p :: ps)).outcome t = (.ok x, u)) : u.isDirectory p := by
  have hensure {s : FileTree} {y : Unit} (hs : (ensureDirectory p).outcome s = (.ok y, u)) :
      u.isDirectory p := by
    rcases ensureDirectory_outcome p s with ⟨e, he⟩ | ⟨hsame, hdir⟩ | ⟨v, hv, hdir, -⟩
    · rw [he] at hs
      cases hs
    · rw [hsame] at hs
      obtain ⟨-, rfl⟩ := Prod.mk.inj hs
      exact hdir
    · rw [hv] at hs
      obtain ⟨-, rfl⟩ := Prod.mk.inj hs
      exact hdir
  rw [ensureNested, Action.outcome_tryCatch] at h
  -- either the directory could be made at once, or it was made after those around it
  split at h
  · next hfirst => exact hensure (hfirst.trans h)
  · next e s hfirst =>
      split at h
      · obtain ⟨_, s', -, hs⟩ := Action.outcome_bind_eq_ok.mp h
        exact hensure hs
      · rw [Action.outcome_throw] at h
        cases h

/-- However making directories ends, it has made at most directories on the way. -/
theorem makeDirectories_moves (p : Path) {free made : Region}
    (hmade : ∀ l m, m ∈ p.way l → made l m) :
    (makeDirectories p).Moves (ChangesWithin free made) := by
  unfold makeDirectories
  split
  · exact .pure ChangesWithin.refl ()
  · refine ensureNested_moves fun q hq hne l => hmade l _ ?_
    rcases List.mem_cons.mp hq with rfl | hq
    · exact Component.place_mem_way l hne
    · exact place_mem_way_of_mem_around hq l

/-- Making directories changes at most the way to the last one. -/
theorem makeDirectories_moves_along (p : Path) :
    (makeDirectories p).Moves (ChangesWithin .none (.along p)) :=
  makeDirectories_moves p fun _ _ hm => hm

theorem makeDirectories_samePlace (p : Path) : (makeDirectories p).Moves SamePlace :=
  samePlace_of_moves (makeDirectories_moves_along p)

/-- When directories have been made, those on the way are there and nothing else is new. -/
theorem makeDirectories_eq_ok {p : Path} {t u : FileTree} {x : Unit}
    (h : (makeDirectories p).outcome t = (.ok x, u)) :
    u.workingDirectory = t.workingDirectory ∧ (p.text ≠ "" → u.isDirectory p) ∧
      ∀ m, u.get? m = if m ∈ t.way p then some .directory else t.get? m := by
  have hmoves := makeDirectories_moves_along p t
  rw [h] at hmoves
  have hisDirectory : p.text ≠ "" → u.isDirectory p := by
    intro hne
    rw [makeDirectories, if_neg hne] at h
    exact ensureNested_eq_ok h
  refine ⟨hmoves.workingDirectory, hisDirectory, fun m => ?_⟩
  split
  · next hm =>
      by_cases hempty : p.text = ""
      -- a path without a text has no steps
      · rw [FileTree.way, Path.way, steps_of_text_eq_empty hempty] at hm
        cases hm
      · apply directory_of_mem_way (hisDirectory hempty)
        rw [hmoves.grows.way]
        exact hm
  · next hm => exact (hmoves.outside m id).resolve_right fun hin => hm hin.1

/-- Making directories takes nothing away. -/
theorem makeDirectories_grows {p : Path} {t u : FileTree} {x : Unit}
    (h : (makeDirectories p).outcome t = (.ok x, u)) : Grows t u := by
  have hmoves := makeDirectories_moves_along p t
  rw [h] at hmoves
  exact hmoves.grows

/-- Nothing is made where the directory is already. -/
theorem makeDirectories_of_isDirectory {p : Path} {name : String} {t : FileTree}
    (h : t.isDirectory p) (hlast : p.steps.getLast? = some (.name name)) :
    (makeDirectories p).outcome t = (.ok (), t) := by
  unfold makeDirectories
  split
  · rfl
  · rw [ensureNested, Action.outcome_tryCatch, ensureDirectory_of_isDirectory h hlast]

/-! ## Writing a file in a directory that may be missing -/

end Disk

namespace FileTree

/-- A file has been written after the directories on the way to its folder were made. -/
structure Places (t : FileTree) (folder file : Path) (content : ByteArray) (u : FileTree) :
    Prop where
  workingDirectory : u.workingDirectory = t.workingDirectory
  isDirectory : folder.text ≠ "" → u.isDirectory folder
  isFile : u.isFile file
  place_not_mem : t.place file ∉ t.way folder
  get? : ∀ m, u.get? m =
    if m = t.place file then some (.file content (t.isExecutableAt (t.place file)))
    else if m ∈ t.way folder then some .directory
    else t.get? m
  grows : Grows t u
  visible : (∀ m ∈ t.way folder, t.get? m = some .directory) →
    (t.get? (t.place file)).isSome → t.contains file

namespace Places

variable {t u : FileTree} {folder file : Path} {content : ByteArray}

theorem self (h : t.Places folder file content u) :
    u.get? (t.place file) = some (.file content (t.isExecutableAt (t.place file))) := by
  rw [h.get?, if_pos rfl]

theorem directory (h : t.Places folder file content u) {m : Location} (hm : m ∈ t.way folder) :
    u.get? m = some .directory := by
  have hne : m ≠ t.place file := fun heq => h.place_not_mem (heq ▸ hm)
  rw [h.get?, if_neg hne, if_pos hm]

/-- What is not at the place of the file stays as it is. -/
theorem kept (h : t.Places folder file content u) {m : Location} {e : Entry}
    (hm : t.get? m = some e) (hne : m ≠ t.place file) : u.get? m = some e := by
  by_cases hway : m ∈ t.way folder
  · have hdir := h.directory hway
    cases e with
    | directory => exact hdir
    | file c x =>
        obtain ⟨d, hd⟩ := h.grows.file hm
        rw [hdir] at hd
        cases hd
  · rw [h.get?, if_neg hne, if_neg hway, hm]

/-- Nothing has changed but the file and the way to its folder. -/
theorem changesWithin (h : t.Places folder file content u) :
    ChangesWithin (fun l m => m = file.place l) (.along folder) t u where
  workingDirectory := h.workingDirectory
  outside m hm := by
    by_cases hway : m ∈ t.way folder
    · cases hold : t.get? m with
      | none => exact Or.inr ⟨hway, rfl, h.directory hway⟩
      | some e => exact Or.inl (h.kept hold hm)
    · have hne : m ≠ t.place file := hm
      exact Or.inl (by rw [h.get?, if_neg hne, if_neg hway])

/-- Files keep their modes, and a new one may not be run as a program. -/
theorem isExecutableAt_eq (h : t.Places folder file content u) (m : Location) :
    u.isExecutableAt m = t.isExecutableAt m := by
  by_cases hm : m = t.place file
  · rw [hm, isExecutableAt_of_file h.self]
  · rcases h.changesWithin.outside m hm with heq | ⟨-, hnone, hdir⟩
    · rw [isExecutableAt, isExecutableAt, heq]
    · rw [isExecutableAt, isExecutableAt, hnone, hdir]

/-- All other files were there before. -/
theorem file_of_file (h : t.Places folder file content u) {m : Location} {c : ByteArray} {x : Bool}
    (hm : u.get? m = some (.file c x)) (hne : m ≠ t.place file) :
    t.get? m = some (.file c x) := by
  rw [h.get?, if_neg hne] at hm
  split at hm
  · cases hm
  · exact hm

end Places

/-- What can be found after a file was put there was there before, unless nothing was. -/
theorem contains_of_puts {t u : FileTree} {p : Path} {content : ByteArray}
    {executable : Bool} (hputs : Puts t (t.place p) (.file content executable) u)
    (hfile : u.isFile p) (hsome : (t.get? (t.place p)).isSome) : t.contains p := by
  obtain ⟨hreaches, -⟩ := isFile_iff.mp hfile
  have hplace : u.place p = t.place p := place_congr hputs.workingDirectory p
  have hdirectory {m : Location} (hm : u.get? m = some .directory) :
      t.get? m = some .directory := by
    have hne : m ≠ t.place p := fun heq => by
      rw [heq, hputs.self] at hm
      cases hm
    rw [← hputs.of_ne hne, hm]
  -- a path to the file leads through directories, and none of them is new
  have hold : t.Reaches p := by
    refine ⟨hreaches.accepted, fun before c after hsteps => ?_, fun hslash => ?_⟩
    · have hcan := hreaches.walk before c after hsteps
      rw [hputs.workingDirectory] at hcan
      cases c with
      | root => trivial
      | here => exact hdirectory hcan
      | up => exact hdirectory hcan
      | name n =>
          refine ⟨hdirectory hcan.1, hcan.2.1, ?_⟩
          have hthere := hcan.2.2
          rw [hputs.get?] at hthere
          split at hthere
          · next heq => rwa [heq]
          · exact hthere
    · have hclosing := hreaches.closing hslash
      rw [hplace, hputs.self] at hclosing
      cases hclosing
  exact contains_iff.mpr ⟨hold, hsome⟩

end FileTree

namespace Disk

/-- A file that is written after its folder was made is placed. -/
theorem places_of_eq_ok {folder file : Path} {content : ByteArray} {t v u : FileTree} {x y : Unit}
    (hfolder : (makeDirectories folder).outcome t = (.ok x, v))
    (hfile : (write file content).outcome v = (.ok y, u)) : t.Places folder file content u := by
  have hgrows := makeDirectories_grows hfolder
  obtain ⟨-, hisDirectory, hget⟩ := makeDirectories_eq_ok hfolder
  obtain ⟨hisFile, hnew, hputs⟩ := write_eq_ok hfile
  have hwrites := hputs.grows hnew fun c x hx => (isExecutableAt_of_file hx).symm
  have hvisible : (∀ m ∈ t.way folder, t.get? m = some .directory) →
      (t.get? (t.place file)).isSome → t.contains file := by
    intro hway hsome
    -- nothing had to be made, so the file could be found all along
    have hsame : ∀ m, v.get? m = t.get? m := by
      intro m
      rw [hget]
      split
      · next hm => rw [hway m hm]
      · rfl
    have hback : Grows v t :=
      ⟨hgrows.workingDirectory.symm, fun hm => by rw [← hsame, hm],
        fun hm => ⟨_, by rw [← hsame, hm]⟩⟩
    apply hback.contains
    apply contains_of_puts hputs hisFile
    rw [hgrows.place, hsame]
    exact hsome
  rw [hgrows.place] at hnew hputs
  have hnot : t.place file ∉ t.way folder := by
    intro hmem
    rw [hget, if_pos hmem] at hnew
    exact hnew rfl
  have hsame : v.isExecutableAt (t.place file) = t.isExecutableAt (t.place file) := by
    rw [isExecutableAt, isExecutableAt, hget, if_neg hnot]
  refine ⟨hputs.workingDirectory.trans hgrows.workingDirectory,
    fun hne => hwrites.isDirectory (hisDirectory hne), hisFile, hnot, fun m => ?_,
    hgrows.trans hwrites, hvisible⟩
  rw [hputs.get?, hget, hsame]

end Disk

end GameExport
