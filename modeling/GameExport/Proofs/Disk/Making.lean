import GameExport.Proofs.Disk.Visits
import GameExport.Proofs.Disk.Operations
import GameExport.Proofs.Path.Fronts

/-! # When directories can be made

Directories can be made wherever nothing but directories is in the way, as long as there is a place
to start from and no name is too long. Whatever is missing is made from the outermost directory to
the innermost one.
-/

namespace GameExport

open GameExport.Path FileTree

/-! ## Walking where nothing is in the way -/

namespace FileTree

variable {t u : FileTree} {p : Path}

/-- A walk past nothing but directories gets to its end, or it stops where something is missing. -/
theorem walk_of_clear {l : Location} {cs : List Component}
    (hstart : cs.head? = some .root ∨ t.get? l = some .directory)
    (hclear : ∀ m ∈ Component.way l cs, t.get? m = none ∨ t.get? m = some .directory)
    (hshort : ∀ n, .name n ∈ cs → n.utf8ByteSize ≤ maxNameSize) :
    (t.walk l cs = .ok (Component.place l cs) ∧
        ∀ m ∈ Component.way l cs, t.get? m = some .directory) ∨
      t.walk l cs = .error .notFound ∧
        ¬ ∀ m ∈ Component.way l cs, t.get? m = some .directory := by
  induction cs generalizing l with
  | nil => exact Or.inl ⟨rfl, nofun⟩
  | cons c cs ih =>
      rw [Component.way, List.forall_mem_cons] at hclear ⊢
      rw [walk, Component.place_cons]
      by_cases hnext : t.get? (c.follow l) = some .directory
      · have hcan : t.CanStep l c := by
          cases c with
          | root => trivial
          | here => exact hstart.resolve_left (by simp)
          | up => exact hstart.resolve_left (by simp)
          | name n =>
              refine ⟨hstart.resolve_left (by simp), hshort n List.mem_cons_self, ?_⟩
              rw [show n :: l = Component.follow l (.name n) from rfl, hnext]
              rfl
        rw [step_eq_ok.mpr ⟨rfl, hcan⟩]
        have hrest := ih (Or.inr hnext) hclear.2 fun n hn => hshort n (List.mem_cons_of_mem c hn)
        exact hrest.imp (fun h => ⟨h.1, hnext, h.2⟩) fun h => ⟨h.1, fun hall => h.2 hall.2⟩
      -- only a name can lead to nothing
      · right
        refine ⟨?_, fun hall => hnext hall.1⟩
        have hnone := hclear.1.resolve_right hnext
        cases c with
        | root => exact absurd (get?_nil t) hnext
        | here => exact absurd (hstart.resolve_left (by simp)) hnext
        | up =>
            have hdirectory := hstart.resolve_left (by simp)
            cases l with
            | nil => exact absurd hdirectory hnext
            | cons n l => exact absurd (get?_parent hdirectory) hnext
        | name n =>
            have hdirectory := hstart.resolve_left (by simp)
            have hstep : t.step l (.name n) = .error .notFound := by
              rw [step, checkDirectory_eq_ok.mpr hdirectory,
                checkName_eq_ok.mpr (hshort n List.mem_cons_self)]
              rw [show Component.follow l (.name n) = n :: l from rfl] at hnone
              simp only [hnone]
              rfl
            rw [hstep]
            rfl

/-! ## Making directories where nothing is in the way -/

/-- Nothing keeps the directories on the way of a path from being made. -/
structure CanMake (t : FileTree) (p : Path) : Prop where
  accepted : p.refusal = none
  short : ∀ n, .name n ∈ p.steps → n.utf8ByteSize ≤ maxNameSize
  start : p.isAbsolute ∨ t.get? t.workingDirectory = some .directory
  clear : ∀ m ∈ t.way p, t.get? m = none ∨ t.get? m = some .directory

namespace CanMake

theorem of_changesWithin {made : Region} (h : t.CanMake p)
    (hchanges : ChangesWithin .none made t u) : u.CanMake p where
  accepted := h.accepted
  short := h.short
  start := h.start.imp_right fun hdirectory => by
    rw [hchanges.workingDirectory]
    exact hchanges.grows.directory hdirectory
  clear := fun m hm => by
    rw [way_congr hchanges.workingDirectory] at hm
    rcases hchanges.outside m id with heq | ⟨-, -, hdirectory⟩
    · rw [heq]
      exact h.clear m hm
    · exact Or.inr hdirectory

/-- What can be made along a path can be made along the first components of it. -/
theorem front (h : t.CanMake p) {k : Nat} (hk : k < p.components.length) :
    t.CanMake (ofComponents (p.components.take (k + 1))) := by
  have hsteps := steps_ofComponents_take p (k + 1)
  have hne : p.components.take (k + 1) ≠ [] := by
    cases hcs : p.components with
    | nil => simp [hcs] at hk
    | cons c cs => simp
  refine ⟨?_, fun n hn => ?_, ?_, fun m hm => ?_⟩
  · refine refusal_of_sublist (sublist_ofComponents_take p (k + 1)) (fun hempty => hne ?_)
      h.accepted
    rw [← hsteps, steps_of_text_eq_empty hempty]
  · rw [hsteps] at hn
    exact h.short n ((mem_components (by simp)).mp (List.mem_of_mem_take hn))
  · refine h.start.imp_left fun habsolute => ?_
    rw [← head?_steps, hsteps, List.head?_take, if_neg (by simp), components_eq]
    have hhead := (head?_steps p).mpr habsolute
    cases hcs : p.steps with
    | nil => simp [hcs] at hhead
    | cons c cs =>
        rw [hcs] at hhead
        exact hhead
  · rw [way, Path.way, hsteps] at hm
    apply h.clear
    apply (components_spec p).1
    rw [← List.take_append_drop (k + 1) p.components, Component.way_append]
    exact List.mem_append_left _ hm

/-- The way to the last step of a path can be walked, or something on it is missing. -/
theorem locateParent (h : t.CanMake p) {front : List Component} {c : Component}
    (hsteps : p.steps = front ++ [c]) (hc : c ≠ .root) :
    ((∀ m ∈ Component.way t.workingDirectory front, t.get? m = some .directory) ∧
        t.CanWalk t.workingDirectory front ∧
        t.get? (Component.place t.workingDirectory front) = some .directory ∧
        t.locateParent p = .ok (Component.place t.workingDirectory front, c)) ∨
      (¬ ∀ m ∈ Component.way t.workingDirectory front, t.get? m = some .directory) ∧
        t.locateParent p = .error .notFound := by
  have hstart : front.head? = some .root ∨ t.get? t.workingDirectory = some .directory := by
    refine h.start.imp_left fun habsolute => ?_
    have hhead := (head?_steps p).mpr habsolute
    rw [hsteps] at hhead
    cases front with
    | nil => exact absurd (Option.some.inj hhead) hc
    | cons d ds => exact hhead
  have hway : ∀ m ∈ Component.way t.workingDirectory front, m ∈ t.way p := by
    intro m hm
    rw [way, Path.way, hsteps, Component.way_append]
    exact List.mem_append_left _ hm
  have hshort : ∀ n, .name n ∈ front → n.utf8ByteSize ≤ maxNameSize := by
    intro n hn
    apply h.short
    rw [hsteps]
    exact List.mem_append_left _ hn
  unfold FileTree.locateParent
  simp only [h.accepted, hsteps, List.dropLast_concat, List.getLast?_concat, Option.getD_some]
  rcases walk_of_clear hstart (fun m hm => h.clear m (hway m hm)) hshort with
    ⟨hwalk, hall⟩ | ⟨hwalk, hmissing⟩
  · left
    have hdirectory : t.get? (Component.place t.workingDirectory front) = some .directory := by
      cases front with
      | nil => exact hstart.resolve_left (by simp)
      | cons d ds => exact hall _ (Component.place_mem_way _ (by simp))
    refine ⟨hall, (walk_eq_ok.mp hwalk).2, hdirectory, ?_⟩
    rw [hwalk]
    exact bind_eq_ok.mpr ⟨_, rfl, bind_eq_ok.mpr ⟨(), checkDirectory_eq_ok.mpr hdirectory, rfl⟩⟩
  · right
    refine ⟨hmissing, ?_⟩
    rw [hwalk]
    rfl

end CanMake

end FileTree

namespace Disk

variable {t u v : FileTree} {p : Path} {front : List Component} {c : Component}

/-- A directory whose path does not end in its name is found, not made. -/
theorem ensureDirectory_of_locateParent {l : Location} (hlocate : t.locateParent p = .ok (l, c))
    (hc : ∀ n, c ≠ .name n) (h : t.isDirectory p) :
    (ensureDirectory p).outcome t = (.ok (), t) := by
  have hmake : (makeDirectory p).outcome t = (.error .alreadyExists, t) := by
    cases c with
    | name n => exact absurd rfl (hc n)
    | _ => simp only [makeDirectory, Action.outcome_bind, outcome_look, hlocate,
        Action.outcome_throw]
  simp only [ensureDirectory, Action.outcome_tryCatch, hmake, Action.outcome_bind,
    Action.outcome_ask, h, and_self, if_true, Action.outcome_pure]

/-- Where the directories around it are there, a directory can be made or is there as well. -/
theorem ensureDirectory_of_ready (h : t.CanMake p) (hsteps : p.steps = front ++ [c])
    (hc : c ≠ .root)
    (hready : ∀ m ∈ Component.way t.workingDirectory front, t.get? m = some .directory) :
    ∃ v, (ensureDirectory p).outcome t = (.ok (), v) := by
  obtain ⟨-, hwalk, hparent, hlocate⟩ | ⟨hmissing, -⟩ := h.locateParent hsteps hc
  rotate_left
  · exact absurd hready hmissing
  have hplace : t.place p = c.follow (Component.place t.workingDirectory front) := by
    rw [FileTree.place, Path.place, hsteps, Component.place_append]
    rfl
  have hisDirectory (hcan : t.CanStep (Component.place t.workingDirectory front) c)
      (hdirectory : t.get? (t.place p) = some .directory) : t.isDirectory p := by
    refine isDirectory_iff.mpr ⟨⟨h.accepted, ?_, fun _ => hdirectory⟩, hdirectory⟩
    rw [hsteps, canWalk_append]
    exact ⟨hwalk, canWalk_cons.mpr ⟨hcan, canWalk_nil _ _⟩⟩
  cases c with
  | root => exact absurd rfl hc
  | here =>
      have hdirectory : t.get? (t.place p) = some .directory := by
        rw [hplace]
        exact hparent
      exact ⟨t, ensureDirectory_of_locateParent hlocate (by simp) (hisDirectory hparent hdirectory)⟩
  | up =>
      have hdirectory : t.get? (t.place p) = some .directory := by
        rw [hplace]
        cases hlocation : Component.place t.workingDirectory front with
        | nil => rfl
        | cons n l =>
            rw [hlocation] at hparent
            exact get?_parent hparent
      exact ⟨t, ensureDirectory_of_locateParent hlocate (by simp) (hisDirectory hparent hdirectory)⟩
  | name n =>
      have hsize := h.short n (by rw [hsteps]; simp)
      have hmem : t.place p ∈ t.way p := Component.place_mem_way _ (by rw [hsteps]; simp)
      rcases h.clear _ hmem with hnone | hdirectory
      · rw [hplace, Component.follow] at hnone
        have hmake : ∃ v, (makeDirectory p).outcome t = (.ok (), v) := by
          simp only [makeDirectory, Action.outcome_bind, outcome_look, hlocate,
            checkName_eq_ok.mpr hsize, makeAt, Action.outcome_of, dif_pos hparent, dif_pos hnone]
          exact ⟨_, rfl⟩
        obtain ⟨v, hmake⟩ := hmake
        refine ⟨v, ?_⟩
        rw [ensureDirectory, Action.outcome_tryCatch, hmake]
      · have hcan : t.CanStep (Component.place t.workingDirectory front) (.name n) := by
          rw [hplace, Component.follow] at hdirectory
          exact ⟨hparent, hsize, by rw [hdirectory]; rfl⟩
        exact ⟨t, ensureDirectory_of_isDirectory (hisDirectory hcan hdirectory)
          (by rw [hsteps, List.getLast?_concat])⟩

/-- Where something around it is missing, a directory cannot be made yet. -/
theorem ensureDirectory_of_missing (h : t.CanMake p) (hsteps : p.steps = front ++ [c])
    (hc : c ≠ .root)
    (hmissing : ¬ ∀ m ∈ Component.way t.workingDirectory front, t.get? m = some .directory) :
    (ensureDirectory p).outcome t = (.error .notFound, t) := by
  obtain ⟨hready, -⟩ | ⟨-, hlocate⟩ := h.locateParent hsteps hc
  · exact absurd hready hmissing
  simp only [ensureDirectory, makeDirectory, Action.outcome_tryCatch, Action.outcome_bind,
    outcome_look, hlocate, Action.outcome_ask]
  simp

/-- If the directories around a path can be made, so can the one that it names. -/
theorem ensureNested_cons_of_canMake {around : List Path} (h : t.CanMake p)
    (hsteps : p.steps = front ++ [c]) (hc : c ≠ .root)
    (haround : (¬ ∀ m ∈ Component.way t.workingDirectory front, t.get? m = some .directory) →
      ∃ u, (ensureNested around).outcome t = (.ok (), u) ∧ u.CanMake p ∧
        ∀ m ∈ Component.way u.workingDirectory front, u.get? m = some .directory) :
    ∃ v, (ensureNested (p :: around)).outcome t = (.ok (), v) := by
  rw [ensureNested, Action.outcome_tryCatch]
  by_cases hready : ∀ m ∈ Component.way t.workingDirectory front, t.get? m = some .directory
  · obtain ⟨v, hv⟩ := ensureDirectory_of_ready h hsteps hc hready
    rw [hv]
    exact ⟨v, rfl⟩
  · have hmissing := hready
    obtain ⟨u, hu, hcan, hready⟩ := haround hmissing
    obtain ⟨v, hv⟩ := ensureDirectory_of_ready hcan hsteps hc hready
    rw [ensureDirectory_of_missing h hsteps hc hmissing]
    refine ⟨v, ?_⟩
    dsimp only
    rw [if_pos rfl, Action.outcome_bind, hu]
    exact hv

/-- Behind the directories that have been made, the next one can be made. -/
theorem ready_of_ensureNested {q : Path} {qs : List Path} {x : Unit} (h : t.CanMake p)
    (hmade : (ensureNested (q :: qs)).outcome t = (.ok x, u)) :
    u.CanMake p ∧ ∀ m ∈ Component.way u.workingDirectory q.steps, u.get? m = some .directory := by
  have hmoves : (ensureNested (q :: qs)).Moves (ChangesWithin .none fun _ _ => True) :=
    ensureNested_moves fun _ _ _ _ => trivial
  have hchanges := hmoves t
  rw [hmade] at hchanges
  refine ⟨h.of_changesWithin hchanges, fun m hm => ?_⟩
  exact directory_of_mem_way (ensureNested_eq_ok hmade) hm

/-- The paths that are made of the first components of a path, the longest one first. -/
def fronts (p : Path) (k : Nat) : List Path :=
  (List.range k).map fun i => ofComponents (p.components.take (k - i))

theorem fronts_succ (p : Path) (k : Nat) :
    fronts p (k + 1) = ofComponents (p.components.take (k + 1)) :: fronts p k := by
  rw [fronts, List.range_succ_eq_map, List.map_cons, List.map_map]
  simp [fronts, Function.comp_def]

/-- The directories around a path are its fronts, the longest one first. -/
theorem fronts_eq_around (p : Path) : fronts p (p.components.length - 1) = p.around := rfl

/-- From the outermost directory on, all directories around a path can be made. -/
theorem ensureNested_fronts (h : t.CanMake p) {k : Nat} (hk : k ≤ p.components.length)
    (hroot : ¬ (p.isAbsolute ∧ k = 1)) :
    ∃ v, (ensureNested (fronts p k)).outcome t = (.ok (), v) := by
  induction k with
  | zero => exact ⟨t, rfl⟩
  | succ k ih =>
      have hsteps : (ofComponents (p.components.take (k + 1))).steps =
          p.components.take k ++ [p.components[k]] := by
        rw [steps_ofComponents_take, List.take_succ_eq_append_getElem]
      have hc : p.components[k] ≠ .root :=
        getElem_components_ne_root hk fun hboth => hroot ⟨hboth.1, by rw [hboth.2]⟩
      rw [fronts_succ]
      refine ensureNested_cons_of_canMake (h.front hk) hsteps hc fun hmissing => ?_
      cases k with
      | zero => exact absurd (by simp [Component.way]) hmissing
      | succ k =>
          -- the root itself is always there
          have hbelow : ¬ (p.isAbsolute ∧ k + 1 = 1) := by
            rintro ⟨habsolute, hone⟩
            obtain ⟨cs, hcs⟩ := components_of_isAbsolute habsolute
            obtain rfl : k = 0 := by omega
            rw [hcs] at hmissing
            exact hmissing (by simp [Component.way, Component.follow])
          obtain ⟨u, hu⟩ := ih (by omega) hbelow
          have hmade := hu
          rw [fronts_succ] at hmade
          obtain ⟨hcan, hready⟩ := ready_of_ensureNested h hmade
          rw [steps_ofComponents_take] at hready
          exact ⟨u, hu, hcan.front hk, hready⟩

/-- Where nothing is in the way of a path that ends in a name, its directories can be made. -/
theorem makeDirectories_of_canMake (h : t.CanMake p) {n : String}
    (hlast : p.steps.getLast? = some (.name n)) :
    ∃ v, (makeDirectories p).outcome t = (.ok (), v) := by
  obtain ⟨front, hsteps⟩ := List.getLast?_eq_some_iff.mp hlast
  have hne : p.text ≠ "" := fun hempty => by simp [steps_of_text_eq_empty hempty] at hlast
  rw [makeDirectories, if_neg hne, ← fronts_eq_around]
  refine ensureNested_cons_of_canMake h hsteps (by simp) fun hmissing => ?_
  cases front with
  | nil => exact absurd (by simp [Component.way]) hmissing
  | cons c cs =>
      -- the components around the last one are the steps around it without the dots
      have hcomponents : p.components = c :: cs.filter (· ≠ .here) ++ [.name n] := by
        rw [components_eq, hsteps]
        simp
      have hlength : p.components.length - 1 = (cs.filter (· ≠ .here)).length + 1 := by
        simp [hcomponents]
      have htake : p.components.take (p.components.length - 1) = c :: cs.filter (· ≠ .here) := by
        rw [hlength, hcomponents]
        simp
      have hroot : ¬ (p.isAbsolute ∧ p.components.length - 1 = 1) := by
        rintro ⟨habsolute, hone⟩
        obtain ⟨ds, hds⟩ := components_of_isAbsolute habsolute
        obtain rfl : c = .root := by
          rw [hcomponents] at hds
          exact (List.cons.inj hds).1
        have hnil : cs.filter (· ≠ .here) = [] := List.eq_nil_of_length_eq_zero (by omega)
        apply hmissing
        apply Component.forall_mem_way_of_filter
        rw [hnil]
        simp [Component.way, Component.follow]
      obtain ⟨u, hu⟩ := ensureNested_fronts h (Nat.sub_le _ 1) hroot
      have hmade := hu
      rw [hlength, fronts_succ] at hmade
      obtain ⟨hcan, hready⟩ := ready_of_ensureNested h hmade
      rw [steps_ofComponents_take, ← hlength, htake] at hready
      exact ⟨u, hu, hcan, Component.forall_mem_way_of_filter hready⟩

end Disk

/-! ## Where a path starts -/

namespace FileTree

variable {t u : FileTree} {p : Path}

theorem CanWalk.start {cs : List Component} (h : t.CanWalk t.workingDirectory cs)
    (hsteps : cs <+: p.steps) (hne : cs ≠ []) :
    p.isAbsolute ∨ t.get? t.workingDirectory = some .directory := by
  obtain ⟨c, cs, rfl⟩ := List.exists_cons_of_ne_nil hne
  by_cases hc : c = .root
  · left
    subst hc
    exact (root_mem_steps p).mp (hsteps.subset List.mem_cons_self)
  · exact Or.inr ((canWalk_cons.mp h).1.directory hc)

theorem Reaches.start (h : t.Reaches p) (hne : p.steps ≠ []) :
    p.isAbsolute ∨ t.get? t.workingDirectory = some .directory :=
  h.walk.start List.prefix_rfl hne

theorem Reaches.short (h : t.Reaches p) {n : String} (hn : .name n ∈ p.steps) :
    n.utf8ByteSize ≤ maxNameSize := by
  obtain ⟨before, after, hsteps⟩ := List.append_of_mem hn
  exact (h.walk before (.name n) after hsteps).2.1

theorem EndsIn.start {l : Location} {n : String} (h : t.EndsIn p l n) :
    p.isAbsolute ∨ t.get? t.workingDirectory = some .directory := by
  obtain ⟨front, hsteps, hparent, hwalk⟩ := h.steps
  by_cases hfront : front = []
  · right
    rw [hfront] at hparent
    rw [← h.directory, hparent]
    rfl
  · exact hwalk.start (by rw [hsteps]; exact List.prefix_append _ _) hfront

end FileTree

namespace Disk

variable {t u : FileTree} {p : Path}

theorem endsIn_of_makeDirectory {x : Unit} (h : (makeDirectory p).outcome t = (.ok x, u)) :
    ∃ l n, t.EndsIn p l n := by
  rcases locateParent_cases t p with
    ⟨e, hlocate⟩ | ⟨l, c, hlocate, hname⟩ | ⟨l, n, -, hends⟩
  · simp [makeDirectory, Action.outcome_bind, hlocate] at h
  · cases c with
    | name n => exact absurd rfl (hname n)
    | _ => simp [makeDirectory, Action.outcome_bind, hlocate] at h
  · exact ⟨l, n, hends⟩

/-- A relative path that starts nowhere gets no directory. -/
theorem ensureDirectory_moves_of_relative (h : p.isAbsolute = false) :
    (ensureDirectory p).Moves fun t u =>
      t.get? t.workingDirectory ≠ some .directory → u = t := by
  intro t hnowhere
  rw [ensureDirectory, Action.outcome_tryCatch]
  rcases hmake : (makeDirectory p).outcome t with ⟨made, u⟩
  cases made with
  | ok x =>
      obtain ⟨l, n, hends⟩ := endsIn_of_makeDirectory hmake
      exact absurd (hends.start.resolve_left (by simp [h])) hnowhere
  | error e =>
      rcases makeDirectory_outcome p t with ⟨e', he⟩ | ⟨v, hv, -⟩
      · rw [hmake] at he
        obtain ⟨-, rfl⟩ := Prod.mk.inj he
        simp only [Action.outcome_bind, Action.outcome_ask]
        split <;> rfl
      · rw [hmake] at hv
        cases hv

/-- Directories can only be made from a place to start from. -/
theorem start_of_makeDirectories {x : Unit} (h : (makeDirectories p).outcome t = (.ok x, u))
    (hne : p.steps ≠ []) :
    p.isAbsolute ∨ t.get? t.workingDirectory = some .directory := by
  by_contra hstart
  rw [not_or, Bool.not_eq_true] at hstart
  obtain ⟨hrelative, hnowhere⟩ := hstart
  have htext : p.text ≠ "" := fun hempty => hne (steps_of_text_eq_empty hempty)
  have hall : ∀ q ∈ p :: p.around, q.isAbsolute = false := by
    intro q hq
    rcases List.mem_cons.mp hq with rfl | hq
    · exact hrelative
    · obtain ⟨c, cs, k, hcomponents, -, hsteps⟩ := steps_of_mem_around hq
      rw [Bool.eq_false_iff, Ne, ← root_mem_steps, hsteps]
      intro hroot
      have hmem : .root ∈ p.components := by
        rw [hcomponents]
        exact List.cons_subset_cons c (List.take_subset k cs) hroot
      rw [mem_components (by simp), root_mem_steps, hrelative] at hmem
      cases hmem
  have hmoves := ensureNested_moves_of_each
    (R := fun t u => t.get? t.workingDirectory ≠ some .directory → u = t) (fun _ _ => rfl)
    (fun s t u hst htu hs => by
      obtain rfl := hst hs
      exact htu hs)
    fun q hq => ensureDirectory_moves_of_relative (hall q hq)
  have hsame := hmoves t hnowhere
  rw [makeDirectories, if_neg htext] at h
  rw [h] at hsame
  obtain rfl : u = t := hsame
  obtain ⟨hreaches, -⟩ := isDirectory_iff.mp (ensureNested_eq_ok h)
  exact hnowhere ((hreaches.start hne).resolve_left (by simp [hrelative]))

/-! ## A file in a folder that can be made -/

theorem exists_write_of_canMake {folder : Path} {m n : String} (content : ByteArray)
    (h : t.CanMake folder) (hlast : folder.steps.getLast? = some (.name m)) (hname : IsName n)
    (hsize : n.utf8ByteSize ≤ maxNameSize) (haccepted : (folder.join ⟨n⟩).refusal = none)
    (hfree : t.get? (t.place (folder.join ⟨n⟩)) = none)
    (hway : t.place (folder.join ⟨n⟩) ∉ t.way folder) :
    ∃ v u, (makeDirectories folder).outcome t = (.ok (), v) ∧
      (write (folder.join ⟨n⟩) content).outcome v = (.ok (), u) := by
  obtain ⟨v, hmake⟩ := makeDirectories_of_canMake h hlast
  obtain ⟨hworking, hisDirectory, hget⟩ := makeDirectories_eq_ok hmake
  have htext : folder.text ≠ "" := fun hempty => by simp [steps_of_text_eq_empty hempty] at hlast
  have hends := endsIn_join (hisDirectory htext) hname haccepted
  have hnew : v.get? (n :: v.place folder) ≠ some .directory := by
    rw [← hends.place_eq, place_congr hworking, hget, if_neg hway, hfree]
    exact nofun
  obtain ⟨u, hwrite, -⟩ := writeAt_outcome content hends.directory hnew
  refine ⟨v, u, hmake, ?_⟩
  rw [outcome_write_of_endsIn content hends (endsInSlash_join_name folder hname) hsize, hwrite]

end Disk

end GameExport
