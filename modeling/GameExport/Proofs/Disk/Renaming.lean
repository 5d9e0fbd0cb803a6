import GameExport.Proofs.Disk.Operations
import GameExport.Proofs.Parallel
import GameExport.Proofs.Path.Renaming

/-! # Files under other names

Two trees hold the same, except that folders of one directory have other names in the second one.
What is found in the first tree is found in the second one under the new name, with the same
content, and what is not found is not found for the same reason. An operation changes both trees
alike, or fails in both with the same error.
-/

namespace GameExport

open GameExport.Path FileTree

structure Renaming.RenamesTree (ρ : Renaming) (t u : FileTree) : Prop where
  home : t.workingDirectory = ρ.home
  home' : u.workingDirectory = ρ.home
  get? : ∀ m, u.get? (ρ.location m) = t.get? m

namespace Renaming.RenamesTree

variable {ρ : Renaming} {t u t' u' : FileTree} {p q : Path} {l : Location}

/-! ## Finding -/

theorem checkDirectory_eq (h : ρ.RenamesTree t u) (l : Location) :
    u.checkDirectory (ρ.location l) = t.checkDirectory l := by
  unfold checkDirectory
  rw [h.get?]

/-- New names are as long as the old ones, so they are taken alike. -/
theorem checkName_eq (ρ : Renaming) (l : Location) (n : String) :
    checkName (ρ.name l n) = checkName n := by
  have hsize : n.utf8ByteSize = (ρ.name l n).utf8ByteSize := (ρ.alike_name l n).size
  rw [checkName, checkName, hsize]

/-- A step leads to the renamed location. -/
theorem step_eq (h : ρ.RenamesTree t u) (l : Location) (c : Component) :
    u.step (ρ.location l) (ρ.component l c) = (t.step l c).map ρ.location := by
  cases c with
  | root => rfl
  | here =>
      simp only [component, step, h.checkDirectory_eq]
      cases t.checkDirectory l <;> rfl
  | up =>
      simp only [component, step, h.checkDirectory_eq, ← ρ.location_tail]
      cases t.checkDirectory l <;> rfl
  | name n =>
      have hnext : u.get? (ρ.name l n :: ρ.location l) = t.get? (n :: l) := h.get? (n :: l)
      simp only [component, step, h.checkDirectory_eq, checkName_eq, hnext]
      cases t.checkDirectory l with
      | error e => rfl
      | ok _ =>
          cases checkName n with
          | error e => rfl
          | ok _ =>
              cases (t.get? (n :: l)).isSome <;> rfl

/-- Steps lead to the renamed location, one after the other. -/
theorem walk_eq (h : ρ.RenamesTree t u) (l : Location) (cs : List Component) :
    u.walk (ρ.location l) (ρ.components l cs) = (t.walk l cs).map ρ.location := by
  induction cs generalizing l with
  | nil => rfl
  | cons c cs ih =>
      rw [components, walk, walk, h.step_eq]
      cases hstep : t.step l c with
      | error e => rfl
      | ok m =>
          obtain ⟨rfl, -⟩ := step_eq_ok.mp hstep
          exact ih (c.follow l)

theorem walk_home_eq (h : ρ.RenamesTree t u) (cs : List Component) :
    u.walk u.workingDirectory (ρ.components ρ.home cs) =
      (t.walk t.workingDirectory cs).map ρ.location := by
  rw [h.home, h.home', ← h.walk_eq, location_home]

/-- A renamed path is the path of the renamed location. -/
theorem locate_eq (h : ρ.RenamesTree t u) (hp : ρ.RenamesPath p q) :
    u.locate q = (t.locate p).map ρ.location := by
  unfold locate
  rw [← hp.alike.refusal_eq]
  cases p.refusal with
  | some e => rfl
  | none =>
      simp only
      rw [hp.steps, h.walk_home_eq, ← hp.alike.endsInSlash]
      cases t.walk t.workingDirectory p.steps with
      | error e => rfl
      | ok l =>
          cases p.endsInSlash with
          | false => rfl
          | true =>
              show (u.checkDirectory (ρ.location l) >>= fun _ => pure (ρ.location l)) = _
              rw [h.checkDirectory_eq]
              cases hdirectory : t.checkDirectory l <;>
                simp [bind, Except.bind, Except.map, hdirectory, pure, Except.pure]

/-- The same is found under the renamed path. -/
theorem find?_eq (h : ρ.RenamesTree t u) (hp : ρ.RenamesPath p q) : u.find? q = t.find? p := by
  unfold find?
  rw [h.locate_eq hp]
  cases t.locate p with
  | error e => rfl
  | ok l => exact h.get? l

theorem contains_eq (h : ρ.RenamesTree t u) (hp : ρ.RenamesPath p q) :
    u.contains q = t.contains p := by
  rw [contains, contains, h.find?_eq hp]

theorem isDirectory_eq (h : ρ.RenamesTree t u) (hp : ρ.RenamesPath p q) :
    u.isDirectory q = t.isDirectory p := by
  rw [isDirectory, isDirectory, h.find?_eq hp]

theorem isFile_eq (h : ρ.RenamesTree t u) (hp : ρ.RenamesPath p q) : u.isFile q = t.isFile p := by
  rw [isFile, isFile, h.find?_eq hp]

theorem read_eq (h : ρ.RenamesTree t u) (hp : ρ.RenamesPath p q) :
    Disk.read u q = Disk.read t p := by
  unfold Disk.read
  rw [h.locate_eq hp]
  cases t.locate p with
  | error e => rfl
  | ok l =>
      simp only [Except.map, bind, Except.bind, h.get?]

/-! ## The last step -/

theorem locateParent_eq (h : ρ.RenamesTree t u) (hp : ρ.RenamesPath p q) :
    u.locateParent q =
      (t.locateParent p).map fun x => (ρ.location x.1, ρ.component x.1 x.2) := by
  unfold locateParent
  rw [← hp.alike.refusal_eq]
  cases p.refusal with
  | some e => rfl
  | none =>
      simp only
      rw [hp.steps, ρ.dropLast_components, h.walk_home_eq]
      cases hwalk : t.walk t.workingDirectory p.steps.dropLast with
      | error e => rfl
      | ok l =>
          obtain ⟨rfl, -⟩ := walk_eq_ok.mp hwalk
          rw [h.home, ρ.getLast?_components]
          show (u.checkDirectory (ρ.location _) >>= fun _ => pure (ρ.location _, _)) = _
          rw [h.checkDirectory_eq]
          generalize Component.place ρ.home p.steps.dropLast = l
          cases hdirectory : t.checkDirectory l <;> cases p.steps.getLast? <;>
            simp [bind, Except.bind, Except.map, hdirectory, pure, Except.pure, component]

/-! ## Changing -/

/-- To put the same entry at the renamed location keeps the trees in step. -/
theorem puts (h : ρ.RenamesTree t u) {e : Entry} (ht : Puts t l e t')
    (hu : Puts u (ρ.location l) e u') : ρ.RenamesTree t' u' where
  home := ht.workingDirectory.trans h.home
  home' := hu.workingDirectory.trans h.home'
  get? := by
    intro m
    rw [ht.get?, hu.get?, h.get?]
    simp only [location_eq_iff]

end Renaming.RenamesTree

/-! ## Operations -/

/-- Two operations change a tree and the one with the new names alike, or fail with one error. -/
abbrev Renaming.Agree (ρ : Renaming) {α β : Type} (V : α → β → Prop) (a : Disk.Operation α)
    (b : Disk.Operation β) : Prop :=
  a.Parallel ρ.RenamesTree ρ.RenamesTree Eq V b

/-- The same of two actions on files, each of which fails in its own words. -/
abbrev Renaming.AgreeUpToErrors (ρ : Renaming) {ε ε' α β : Type} (V : α → β → Prop)
    (a : Action FileTree ε α) (b : Action FileTree ε' β) : Prop :=
  a.Parallel ρ.RenamesTree ρ.RenamesTree (fun _ _ => True) V b

theorem Renaming.Agree.mapError {ρ : Renaming} {ε ε' α β : Type} {V : α → β → Prop}
    {a : Disk.Operation α} {b : Disk.Operation β} (h : ρ.Agree V a b) (f : FileError → ε)
    (g : FileError → ε') : ρ.AgreeUpToErrors V (a.mapError f) (b.mapError g) :=
  Action.Parallel.mapError h fun _ _ _ => trivial

namespace Disk

open Renaming

variable {ρ : Renaming} {p q : Path}

theorem look_agree {α β : Type} {f : FileTree → Except FileError α}
    {g : FileTree → Except FileError β} {k : α → β}
    (h : ∀ t u, ρ.RenamesTree t u → g u = (f t).map k) :
    ρ.Agree (fun x y => y = k x) (look f) (look g) := by
  intro t u htree
  rw [outcome_look, outcome_look, h t u htree]
  refine ⟨htree, ?_⟩
  cases f t with
  | ok x => exact .ok rfl
  | error e => exact .error rfl

theorem locateParent_agree (hp : ρ.RenamesPath p q) :
    ρ.Agree (fun x y => y = (ρ.location x.1, ρ.component x.1 x.2)) (look (·.locateParent p))
      (look (·.locateParent q)) :=
  look_agree fun _ _ h => h.locateParent_eq hp

theorem checkName_agree (l : Location) (n : String) :
    ρ.Agree (fun _ _ => True) (look fun _ => checkName n)
      (look fun _ => checkName (ρ.name l n)) := by
  refine (look_agree (k := id) fun _ _ _ => ?_).mono (fun _ _ => id) (fun _ _ => id)
    (fun _ _ => id) fun _ _ _ => trivial
  rw [RenamesTree.checkName_eq]
  cases checkName n <;> rfl

/-- A file is written alike under its new name. -/
theorem writeAt_agree (content : ByteArray) (l : Location) (n : String) :
    ρ.Agree Eq (writeAt content l n) (writeAt content (ρ.location l) (ρ.name l n)) := by
  intro t u h
  have hparent := h.get? l
  have hname : u.get? (ρ.name l n :: ρ.location l) = t.get? (n :: l) := h.get? (n :: l)
  by_cases hdirectory : t.get? l = some .directory
  · by_cases hnew : t.get? (n :: l) = some .directory
    · simp only [writeAt, Action.outcome_of, dif_pos hdirectory, dif_pos hnew,
        dif_pos (hparent.trans hdirectory), dif_pos (hname.trans hnew)]
      exact ⟨h, .error rfl⟩
    · obtain ⟨t', ht', hputs⟩ := writeAt_outcome content hdirectory hnew
      obtain ⟨u', hu', hputs'⟩ := writeAt_outcome content (hparent.trans hdirectory)
        (by rwa [hname])
      rw [ht', hu']
      have hmode : u.isExecutableAt (ρ.name l n :: ρ.location l) = t.isExecutableAt (n :: l) := by
        rw [isExecutableAt, isExecutableAt, hname]
      rw [hmode] at hputs'
      exact ⟨h.puts hputs hputs', .ok rfl⟩
  · simp only [writeAt, Action.outcome_of, dif_neg hdirectory]
    rw [dif_neg (by rwa [hparent])]
    exact ⟨h, .error rfl⟩

/-- The same content is written alike to the renamed path. -/
theorem write_agree (hp : ρ.RenamesPath p q) (content : ByteArray) :
    ρ.Agree Eq (write p content) (write q content) := by
  refine .andThen (locateParent_agree hp) ?_
  rintro ⟨l, c⟩ _ rfl
  cases c with
  | name n =>
      have hrest : ρ.Agree Eq
          (do
            look fun _ => checkName n
            writeAt content l n)
          (do
            look fun _ => checkName (ρ.name l n)
            writeAt content (ρ.location l) (ρ.name l n)) :=
        .andThen (checkName_agree l n) fun _ _ _ => writeAt_agree content l n
      simp only [component, ← hp.alike.endsInSlash]
      cases p.endsInSlash with
      | true =>
          refine .andThen (V := Eq) (.throw rfl) fun _ _ _ => ?_
          exact hrest
      | false => exact hrest
  | _ => exact .throw rfl

theorem writeText_agree (hp : ρ.RenamesPath p q) (text : String) :
    ρ.Agree Eq (writeText p text) (writeText q text) :=
  write_agree hp text.toUTF8

theorem makeAt_agree (l : Location) (n : String) :
    ρ.Agree Eq (makeAt l n) (makeAt (ρ.location l) (ρ.name l n)) := by
  intro t u h
  have hname : u.get? (ρ.name l n :: ρ.location l) = t.get? (n :: l) := h.get? (n :: l)
  by_cases hdirectory : t.get? l = some .directory
  · by_cases hnew : t.get? (n :: l) = none
    · simp only [makeAt, Action.outcome_of, dif_pos hdirectory, dif_pos hnew,
        dif_pos ((h.get? l).trans hdirectory), dif_pos (hname.trans hnew)]
      exact ⟨h.puts ⟨rfl, fun m => get?_put m⟩ ⟨rfl, fun m => get?_put m⟩, .ok rfl⟩
    · simp only [makeAt, Action.outcome_of, dif_pos hdirectory, dif_neg hnew,
        dif_pos ((h.get? l).trans hdirectory)]
      rw [dif_neg (by rwa [hname])]
      exact ⟨h, .error rfl⟩
  · simp only [makeAt, Action.outcome_of, dif_neg hdirectory]
    rw [dif_neg (by rwa [h.get? l])]
    exact ⟨h, .error rfl⟩

theorem makeDirectory_agree (hp : ρ.RenamesPath p q) :
    ρ.Agree Eq (makeDirectory p) (makeDirectory q) := by
  refine .andThen (locateParent_agree hp) ?_
  rintro ⟨l, c⟩ _ rfl
  cases c with
  | name n => exact .andThen (checkName_agree l n) fun _ _ _ => makeAt_agree l n
  | _ => exact .throw rfl

theorem ensureDirectory_agree (hp : ρ.RenamesPath p q) :
    ρ.Agree Eq (ensureDirectory p) (ensureDirectory q) := by
  refine .tryCatch (makeDirectory_agree hp) ?_
  rintro e _ rfl
  refine .ask_bind (V := Eq) (fun t u h => (h.isDirectory_eq hp).symm) ?_
  rintro found _ rfl
  split
  · exact .pure rfl
  · exact .throw rfl

theorem ensureNested_agree {ps qs : List Path} (h : List.Forall₂ ρ.RenamesPath ps qs) :
    ρ.Agree Eq (ensureNested ps) (ensureNested qs) := by
  induction h with
  | nil => exact .pure rfl
  | cons hp _ ih =>
      refine .tryCatch (ensureDirectory_agree hp) ?_
      rintro e _ rfl
      split
      · exact .andThen ih fun _ _ _ => ensureDirectory_agree hp
      · exact .throw rfl

theorem makeDirectories_agree (hp : ρ.RenamesPath p q) :
    ρ.Agree Eq (makeDirectories p) (makeDirectories q) := by
  unfold makeDirectories
  by_cases hempty : p.text = ""
  · rw [if_pos hempty, if_pos (hp.alike.empty_iff.mp hempty)]
    exact .pure rfl
  · rw [if_neg hempty, if_neg fun h => hempty (hp.alike.empty_iff.mpr h)]
    exact ensureNested_agree (.cons hp hp.around)

end Disk

end GameExport
