import GameExport.Proofs.Disk.Making
import GameExport.Proofs.Materialize.Pass

/-! # Giving files to scripts in any order

Scripts that share no file may get their files in any order: all orders succeed if one does, and
leave the same files and assemblies. A root that hides files is the exception, because it hides them
only from the script that comes first.
-/

namespace GameExport

open GameExport.Path FileTree ScriptAsset

variable {σ : Type} {root : Path} {s : ScriptAsset} {ss done rest : List ScriptAsset}
  {i j k : Job σ} {acc q r : ScriptReport}

/-! ## Trees that hold the same -/

namespace FileTree

variable {t u : FileTree} {p : Path}

/-- All that stands in one tree stands in the other one as well. -/
structure IsPartOf (t u : FileTree) : Prop where
  workingDirectory : u.workingDirectory = t.workingDirectory
  get? : ∀ {m e}, t.get? m = some e → u.get? m = some e

structure IsSame (t u : FileTree) : Prop where
  workingDirectory : u.workingDirectory = t.workingDirectory
  get? : ∀ m, u.get? m = t.get? m

/-- Two trees of which each is part of the other are the same. -/
theorem IsPartOf.antisymm (h : t.IsPartOf u) (g : u.IsPartOf t) : t.IsSame u where
  workingDirectory := h.workingDirectory
  get? := fun _ => Option.ext fun _ => ⟨g.get?, h.get?⟩

namespace IsPartOf

theorem grows (h : t.IsPartOf u) : Grows t u :=
  ⟨h.workingDirectory, h.get?, fun hm => ⟨_, h.get? hm⟩⟩

/-- What is found in the larger tree is found in the smaller one if all that is looked at is
there. -/
theorem contains (h : t.IsPartOf u) (hfound : u.contains p)
    (hvisits : ∀ m ∈ t.visits p, (t.get? m).isSome) : t.contains p := by
  obtain ⟨e, he⟩ := Option.isSome_iff_exists.mp hfound
  have hagree : ∀ m ∈ u.visits p, t.get? m = u.get? m := by
    intro m hm
    rw [FileTree.visits, h.workingDirectory] at hm
    obtain ⟨e, he⟩ := Option.isSome_iff_exists.mp (hvisits m hm)
    rw [he, h.get? he]
  have hfind := find?_of_agree_visits he h.workingDirectory.symm hagree
  rw [FileTree.contains, hfind]
  rfl

end IsPartOf

end FileTree

/-! ## One script -/

namespace ScriptAsset

theorem file_eq_join_folder (s : ScriptAsset) (root : Path) :
    s.file root = (root.join s.target.folder).join ⟨s.target.fileName⟩ := by
  rw [file_eq_join, join_folder]

theorem steps_file_eq_concat (s : ScriptAsset) (root : Path) :
    (s.file root).steps = (root.join s.target.folder).steps ++ [.name s.target.fileName] := by
  rw [file_eq_join_folder, steps_join _ s.isName_fileName.not_isAbsolute,
    s.isName_fileName.steps_eq]

theorem isAbsolute_folder (s : ScriptAsset) (root : Path) :
    (root.join s.target.folder).isAbsolute = root.isAbsolute := by
  rw [join_folder, root.isAbsolute_descend fun n hn => isName_of_mem_folderNames hn]

theorem isAbsolute_file (s : ScriptAsset) (root : Path) :
    (s.file root).isAbsolute = root.isAbsolute := by
  rw [file_eq_join_folder, isAbsolute_join _ s.isName_fileName.not_isAbsolute, isAbsolute_folder]

/-- The folder of a script ends in a name. -/
theorem exists_getLast?_folder (s : ScriptAsset) (root : Path) :
    ∃ n, (root.join s.target.folder).steps.getLast? = some (.name n) := by
  rw [join_folder, steps_descend root fun n hn => isName_of_mem_folderNames hn]
  obtain ⟨n, hn⟩ : ∃ n, s.folderNames.getLast? = some n :=
    Option.isSome_iff_exists.mp (by simp [folderNames])
  refine ⟨n, ?_⟩
  rw [List.getLast?_append, List.getLast?_map, hn]
  rfl

/-- A script gets its source only where the output root has a place to start from. -/
theorem start_of_ensureSource (h : (s.ensureSource root).outcome j = (.ok r, k)) :
    root.isAbsolute ∨ j.tree.get? j.tree.workingDirectory = some .directory := by
  unfold ensureSource at h
  rw [Action.outcome_ask_bind] at h
  split at h
  · next hfound =>
      obtain ⟨hreaches, -⟩ := contains_iff.mp hfound
      rw [← s.isAbsolute_file root]
      exact hreaches.start (by simp [steps_file])
  · obtain ⟨_, i, hmake, -⟩ := Action.outcome_bind_eq_ok.mp h
    rw [Action.outcome_during_eq_ok, Job.outcome_files_eq_ok] at hmake
    obtain ⟨v, hmake, -⟩ := hmake
    obtain ⟨n, hlast⟩ := s.exists_getLast?_folder root
    rw [← s.isAbsolute_folder root]
    exact Disk.start_of_makeDirectories hmake fun hnil => by simp [hnil] at hlast

/-- What could be found in the end can be made at any time before, as long as nothing else has
appeared on its way. -/
theorem canMake_folder {t u : FileTree} (hpart : t.IsPartOf u) (hfound : u.contains (s.file root))
    (hstart : root.isAbsolute ∨ t.get? t.workingDirectory = some .directory) :
    t.CanMake (root.join s.target.folder) := by
  obtain ⟨hreaches, -⟩ := contains_iff.mp hfound
  refine ⟨?_, fun n hn => ?_, ?_, fun m hm => ?_⟩
  · have htext : (root.join s.target.folder).text ≠ "" := by
      obtain ⟨n, hlast⟩ := s.exists_getLast?_folder root
      exact fun hempty => by simp [steps_of_text_eq_empty hempty] at hlast
    refine refusal_of_sublist ?_ htext hreaches.accepted
    rw [file_eq_join_folder, join_eq _ s.isName_fileName.not_isAbsolute, String.append_assoc,
      String.toList_append]
    exact List.sublist_append_left _ _
  · apply hreaches.short
    rw [steps_file_eq_concat]
    exact List.mem_append_left _ hn
  · rwa [isAbsolute_folder]
  · have hdirectory : u.get? m = some .directory := by
      rw [← hpart.grows.way] at hm
      obtain ⟨before, after, hsteps, hne, rfl⟩ := Component.mem_way_iff.mp hm
      obtain ⟨c, rest, hrest⟩ :=
        List.exists_cons_of_ne_nil (show after ++ [.name s.target.fileName] ≠ [] by simp)
      have hfile : (s.file root).steps = before ++ c :: rest := by
        rw [steps_file_eq_concat, hsteps, List.append_assoc, hrest]
      exact hreaches.directory hfile hne
    cases hget : t.get? m with
    | none => exact Or.inl rfl
    | some e =>
        rw [hpart.get? hget] at hdirectory
        exact Or.inr hdirectory

/-- A source that is there is found, and nothing has to be made. -/
theorem exists_ensureSource_of_contains (h : j.tree.contains (s.file root)) :
    ∃ r k, (s.ensureSource root).outcome j = (.ok r, k) := by
  refine ⟨{ existing := [s.file root] }, j, ?_⟩
  unfold ensureSource
  rw [Action.outcome_ask_bind, if_pos h, Action.outcome_pure]

/-- A script whose file can be found in the end gets its source where nothing stands at its
place. -/
theorem exists_ensureSource_of_free {u : FileTree} (hpart : j.tree.IsPartOf u)
    (hfound : u.contains (s.file root))
    (hstart : root.isAbsolute ∨ j.tree.get? j.tree.workingDirectory = some .directory)
    (hfree : j.tree.get? (j.tree.place (s.file root)) = none)
    (hway : j.tree.place (s.file root) ∉ j.tree.way (root.join s.target.folder)) :
    ∃ r k, (s.ensureSource root).outcome j = (.ok r, k) := by
  by_cases hthere : j.tree.contains (s.file root)
  · exact exists_ensureSource_of_contains hthere
  obtain ⟨hreaches, -⟩ := contains_iff.mp hfound
  have hcan := canMake_folder hpart hfound hstart
  have hsize : s.target.fileName.utf8ByteSize ≤ maxNameSize :=
    hreaches.short (by simp [steps_file_eq_concat])
  obtain ⟨n, hlast⟩ := s.exists_getLast?_folder root
  have haccepted := hreaches.accepted
  rw [file_eq_join_folder] at hfree hway haccepted
  obtain ⟨v, u, hmake, hwrite⟩ := Disk.exists_write_of_canMake
    (Stub.source s.ns s.className).toUTF8 hcan hlast s.isName_fileName hsize haccepted hfree hway
  rw [← file_eq_join_folder] at hwrite
  refine ⟨{ stubsWritten := [s.file root] }, ⟨u, (j.descriptors.tryAdd s.assembly
    (Stub.directory root s.assembly)).2, j.own⟩, ?_⟩
  unfold ensureSource
  rw [Action.outcome_ask_bind, if_neg hthere]
  refine Action.outcome_bind_eq_ok.mpr ⟨(), { j with tree := v }, ?_, ?_⟩
  · rw [Action.outcome_during_eq_ok, Job.outcome_files_eq_ok]
    exact ⟨v, hmake, rfl⟩
  refine Action.outcome_bind_eq_ok.mpr ⟨(), { j with tree := u }, ?_, ?_⟩
  · rw [Action.outcome_during_eq_ok, Job.outcome_files_eq_ok]
    exact ⟨u, hwrite, rfl⟩
  exact Action.outcome_bind_eq_ok.mpr ⟨(), _, rfl, rfl⟩

/-- Without metadata a script of the game only gets its source. -/
theorem outcome_materialize_of_game (hengine : s.isEngine = false) (j : Job σ) :
    (s.materialize root none).outcome j = (s.ensureSource root).outcome j := by
  rw [materialize, if_neg (by simp [hengine]), Action.outcome_bind]
  rcases (s.ensureSource root).outcome j with ⟨result, i⟩
  cases result <;> rfl

end ScriptAsset

/-! ## What two passes have in common -/

namespace Materialized

/-- A pass over some of the scripts leaves a part of what a pass over all of them leaves. -/
theorem isPartOf (h : Materialized root done [] j acc i) (g : Materialized root ss [] j r k)
    (hsources : newSources root j.tree done ⊆ newSources root j.tree ss) :
    i.tree.IsPartOf k.tree where
  workingDirectory := g.workingDirectory.trans h.workingDirectory.symm
  get? := fun {m e} hm => by
    cases hold : j.tree.get? m with
    | some e' =>
        rw [h.kept hold] at hm
        rw [← hm]
        exact g.kept hold
    | none =>
        rcases h.nothingElse hold (by rw [hm]; rfl) with ⟨v, hv, hplace | hway⟩ | ⟨v, hv, -⟩
        · rw [hplace, h.source v hv] at hm
          rw [hplace, g.source v (hsources hv), hm]
        · rw [h.directory v hv m hway] at hm
          rw [g.directory v (hsources hv) m hway, hm]
        · cases hv

theorem grows (h : Materialized root ss [] j r k) : Grows j.tree k.tree :=
  ⟨h.workingDirectory, h.kept, fun hm => ⟨_, h.kept hm⟩⟩

end Materialized

/-! ## Another order -/

/-- Each script finds its file if it has one, wherever it stands in the list. -/
def FileTree.HidesNothingFromEach (t : FileTree) (root : Path) (ss : List ScriptAsset) : Prop :=
  ∀ s ∈ ss, t.HidesNothing root [s] []

/-- A root that hides nothing from each script hides nothing from all of them. -/
theorem FileTree.HidesNothingFromEach.hidesNothing {t : FileTree}
    (h : t.HidesNothingFromEach root ss) : t.HidesNothing root ss [] where
  first := fun s hs => (h s (List.mem_of_head? hs)).first s rfl
  source := fun s hs => (h s hs).source s List.mem_cons_self
  metadata := nofun

theorem newSources_subset (t : FileTree) (hdone : (done.map (·.file root)).Nodup)
    (hss : (ss.map (·.file root)).Nodup) (hmem : done ⊆ ss) :
    newSources root t done ⊆ newSources root t ss := by
  rw [newSources, newSources, (comers_of_nodup _ hdone).1, (comers_of_nodup _ hss).1]
  exact List.filter_subset _ hmem

/-- What one pass has found and made does not keep another script from getting its source. -/
theorem UnderWay.exists_ensureSource (hend : UnderWay root ss [] j r k)
    (hstart : root.isAbsolute ∨ j.tree.get? j.tree.workingDirectory = some .directory)
    (hs : s ∈ ss) (hclear : j.tree.HidesNothing root [s] []) (h : UnderWay root done [] j acc i)
    (hpart : i.tree.IsPartOf k.tree) (hnew : ∀ v ∈ done, v.file root ≠ s.file root) :
    ∃ q i', (s.ensureSource root).outcome i = (.ok q, i') := by
  by_cases hfound : i.tree.contains (s.file root)
  · exact exists_ensureSource_of_contains hfound
  have hfree : ¬ j.tree.occupied (s.file root) := fun hold =>
    hfound (h.grows.contains (hclear.first s rfl hold))
  have hroot := hclear.source s List.mem_cons_self
  apply exists_ensureSource_of_free hpart (hend.hasSource s hs)
  · refine hstart.imp_right fun hdirectory => ?_
    rw [h.workingDirectory]
    exact h.kept hdirectory
  · rw [h.place, ← Option.not_isSome_iff_eq_none]
    intro hsome
    rcases h.occupied_source hroot hsome with hold | ⟨v, hv, heq⟩
    · exact hfree hold
    · exact hnew v hv heq
  · rw [h.place, h.way]
    exact fun hmem => hfree (hroot (mem_way_of_place_file_mem hmem))

/-- Scripts of a pass that ended can get their sources in any order. -/
theorem UnderWay.exists_run (hend : UnderWay root ss [] j r k)
    (hgame : ∀ s ∈ ss, s.isEngine = false) (hss : (ss.map (·.file root)).Nodup)
    (hstart : root.isAbsolute ∨ j.tree.get? j.tree.workingDirectory = some .directory)
    (hclear : j.tree.HidesNothingFromEach root ss) (hmem : done ++ rest ⊆ ss)
    (hnodup : ((done ++ rest).map (·.file root)).Nodup) (h : UnderWay root done [] j acc i) :
    ∃ q i', (materialize root none rest).outcome i = (.ok q, i') ∧
      UnderWay root (done ++ rest) [] j (acc ++ q) i' := by
  induction rest generalizing done acc i with
  | nil =>
      refine ⟨{}, i, rfl, ?_⟩
      rw [List.append_nil, ScriptReport.append_empty]
      exact h
  | cons s rest ih =>
      have hs : s ∈ ss := hmem (by simp)
      have hsplit := hnodup
      rw [List.map_append, List.nodup_append] at hsplit
      obtain ⟨hdone, -, hdisjoint⟩ := hsplit
      have hsources : newSources root j.tree done ⊆ newSources root j.tree ss :=
        newSources_subset j.tree hdone hss fun v hv => hmem (List.mem_append_left _ hv)
      have hnew : ∀ v ∈ done, v.file root ≠ s.file root := fun v hv =>
        hdisjoint _ (List.mem_map_of_mem hv) _ List.mem_cons_self
      obtain ⟨first, i', hfirst⟩ := hend.exists_ensureSource hstart hs (hclear s hs) h
        (h.isPartOf hend.toMaterialized hsources) hnew
      have hnext : UnderWay root (done ++ [s]) [] j (acc ++ first) i' :=
        h.ensureSource (fun _ => (hclear s hs).first s rfl)
          ((hclear s hs).source s List.mem_cons_self) hfirst
      rw [List.append_cons] at hmem hnodup ⊢
      obtain ⟨q, k', hrest, hall⟩ := ih hmem hnodup hnext
      refine ⟨first ++ q, k', materialize_cons_eq_ok.mpr ⟨first, i', q, ?_, hrest, rfl⟩, ?_⟩
      · rw [outcome_materialize_of_game (hgame s hs), hfirst]
      · rw [← ScriptReport.append_assoc]
        exact hall

/-- Two passes left the same files and assemblies and reported the same, perhaps in another
order. -/
structure EndsAlike (r : ScriptReport) (k : Job σ) (q : ScriptReport) (i : Job σ) : Prop where
  tree : k.tree.IsSame i.tree
  descriptors : i.descriptors = k.descriptors
  stubsWritten : q.stubsWritten.Perm r.stubsWritten
  existing : q.existing.Perm r.existing
  handedOff : q.handedOff = r.handedOff
  conflicts : q.conflicts = r.conflicts
  skippedEngine : q.skippedEngine = r.skippedEngine

theorem EndsAlike.refl (r : ScriptReport) (k : Job σ) : EndsAlike r k r k :=
  ⟨⟨rfl, fun _ => rfl⟩, rfl, .refl _, .refl _, rfl, rfl, rfl⟩

/-- What a pass does is told by which scripts there are if they share no files. -/
theorem Materialized.endsAlike (h : Materialized root ss [] j r k)
    (g : Materialized root done [] j q i) (hperm : done.Perm ss)
    (hnodup : (ss.map (·.file root)).Nodup) (hskipped : q.skippedEngine = r.skippedEngine) :
    EndsAlike r k q i := by
  have hdone : (done.map (·.file root)).Nodup := (hperm.map _).nodup_iff.mpr hnodup
  have hnew : (newSources root j.tree done).Perm (newSources root j.tree ss) := by
    rw [newSources, newSources, (comers_of_nodup _ hdone).1, (comers_of_nodup _ hnodup).1]
    exact hperm.filter _
  have hlate : (latecomers root j.tree.occupied done).Perm
      (latecomers root j.tree.occupied ss) := by
    rw [(comers_of_nodup _ hdone).2, (comers_of_nodup _ hnodup).2]
    exact hperm.filter _
  constructor
  · exact (h.isPartOf g hnew.symm.subset).antisymm (g.isPartOf h hnew.subset)
  · apply DescriptorMap.eq_of_get?_eq
    intro name
    have hsame : takenDown root (newSources root j.tree done) name =
        takenDown root (newSources root j.tree ss) name := by
      unfold takenDown
      simp only [hnew.mem_iff]
    rw [g.descriptors, h.descriptors, hsame]
  · rw [g.stubsWritten, h.stubsWritten]
    exact hnew.map _
  · rw [g.existing, h.existing]
    exact hlate.map _
  · rw [g.handedOff, h.handedOff]
  · rw [g.conflicts, h.conflicts]
  · exact hskipped

/-! ## The scripts of the game alone -/

def ScriptReport.uncounted (r : ScriptReport) : ScriptReport := { r with skippedEngine := 0 }

theorem ScriptReport.uncounted_append (r q : ScriptReport) :
    (r ++ q).uncounted = r.uncounted ++ q.uncounted := rfl

def Asset.isOfGame : Asset → Bool
  | .script s => !s.isEngine
  | .other _ _ => false

theorem Asset.scripts_filter_isOfGame (assets : List Asset) :
    Asset.scripts (assets.filter Asset.isOfGame) = ofGame (Asset.scripts assets) := by
  induction assets with
  | nil => rfl
  | cons a assets ih =>
      cases a with
      | other => exact ih
      | script s =>
          cases hengine : s.isEngine with
          | true =>
              rw [List.filter_cons_of_neg (by simp [isOfGame, hengine]), ih]
              exact (List.filter_cons_of_neg (by simp [hengine])).symm
          | false =>
              rw [List.filter_cons_of_pos (by simp [isOfGame, hengine])]
              refine Eq.trans ?_ (List.filter_cons_of_pos (by simp [hengine])).symm
              exact congrArg (s :: ·) ih

/-- A pass gives the first script its files and goes on from there. -/
theorem outcome_materialize_cons (w : Option (MetadataWriter σ)) :
    (materialize root w (s :: ss)).outcome j =
      match (s.materialize root w).outcome j with
      | (.error e, i) => (.error e, i)
      | (.ok first, i) =>
          (((materialize root w ss).outcome i).1.map (first ++ ·),
            ((materialize root w ss).outcome i).2) := by
  rw [materialize, Action.outcome_bind]
  rcases (s.materialize root w).outcome j with ⟨first, i⟩
  cases first with
  | error e => rfl
  | ok first =>
      dsimp only
      rw [Action.outcome_bind]
      rcases (materialize root w ss).outcome i with ⟨rest, k⟩
      cases rest <;> rfl

/-- Without the other scripts a pass does the same, also if it fails, and counts none of them. -/
theorem outcome_materialize_ofGame (root : Path) (ss : List ScriptAsset) (j : Job σ) :
    (materialize root none (ofGame ss)).outcome j =
      (((materialize root none ss).outcome j).1.map ScriptReport.uncounted,
        ((materialize root none ss).outcome j).2) := by
  induction ss generalizing j with
  | nil => rfl
  | cons s ss ih =>
      rw [outcome_materialize_cons]
      cases hengine : s.isEngine with
      | true =>
          rw [ofGame, List.filter_cons_of_neg (by simp [hengine])]
          rw [s.materialize_of_isEngine hengine, Action.outcome_pure]
          refine (ih j).trans ?_
          dsimp only
          rcases (materialize root none ss).outcome j with ⟨result, k⟩
          cases result with
          | error e => rfl
          | ok r =>
              simp only [Except.map]
              rw [ScriptReport.uncounted_append]
              exact congrArg (fun q => (Except.ok q, k)) (ScriptReport.empty_append _).symm
      | false =>
          rw [ofGame, List.filter_cons_of_pos (by simp [hengine]), outcome_materialize_cons]
          rw [outcome_materialize_of_game hengine]
          rcases hsource : (s.ensureSource root).outcome j with ⟨first, i⟩
          cases first with
          | error e => rfl
          | ok first =>
              obtain ⟨-, -, hskipped⟩ := ensureSource_grows hsource
              have hfirst : first.uncounted = first := by
                rw [ScriptReport.uncounted, ← hskipped]
              dsimp only
              rw [← ofGame, ih i]
              rcases (materialize root none ss).outcome i with ⟨result, k⟩
              cases result with
              | error e => rfl
              | ok r =>
                  simp only [Except.map]
                  rw [ScriptReport.uncounted_append, hfirst]

/-! ## All orders -/

theorem underWay_of_hidesNothing (hgame : ∀ s ∈ ss, s.isEngine = false)
    (hclear : j.tree.HidesNothing root ss [])
    (h : (materialize root none ss).outcome j = (.ok r, k)) : UnderWay root ss [] j r k := by
  have hend := UnderWay.run (w := none) nofun hgame hclear (UnderWay.start root j) h
  rw [ScriptReport.empty_append] at hend
  exact hend

/-- All scripts of the engine are passed over, and no others. -/
theorem skippedEngine_of_materialize (h : (materialize root none ss).outcome j = (.ok r, k)) :
    r.skippedEngine = ss.countP (·.isEngine) := by
  obtain ⟨-, -, hskipped⟩ := GameExport.materialize_grows (w := none) nofun h
  exact hskipped

/-- Where a script of the game got its file, relative paths start from a directory that is there. -/
theorem start_of_materialize (hgame : ∀ s ∈ ss, s.isEngine = false) (hne : ss ≠ [])
    (h : (materialize root none ss).outcome j = (.ok r, k)) :
    root.isAbsolute ∨ j.tree.get? j.tree.workingDirectory = some .directory := by
  obtain ⟨s, ss, rfl⟩ := List.exists_cons_of_ne_nil hne
  obtain ⟨first, i, rest, hfirst, -, -⟩ := materialize_cons_eq_ok.mp h
  rw [outcome_materialize_of_game (hgame s List.mem_cons_self)] at hfirst
  exact start_of_ensureSource hfirst

/-- Where nothing is hidden, every order of the scripts of the game succeeds and ends alike. -/
theorem exists_materialize_of_perm (hgame : ∀ s ∈ ss, s.isEngine = false)
    (hnodup : (ss.map (·.file root)).Nodup) (hclear : j.tree.HidesNothingFromEach root ss)
    (h : (materialize root none ss).outcome j = (.ok r, k)) (hperm : done.Perm ss) :
    ∃ q i, (materialize root none done).outcome j = (.ok q, i) ∧ EndsAlike r k q i := by
  have hend := underWay_of_hidesNothing hgame hclear.hidesNothing h
  obtain ⟨q, i, hrun, hall⟩ :
      ∃ q i, (materialize root none done).outcome j = (.ok q, i) ∧ UnderWay root done [] j q i := by
    by_cases hne : ss = []
    · subst hne
      rw [List.perm_nil.mp hperm]
      exact ⟨{}, j, rfl, .start root j⟩
    · have hstart := start_of_materialize hgame hne h
      have hdone : (done.map (·.file root)).Nodup :=
        (hperm.map (·.file root)).nodup_iff.mpr hnodup
      rw [← List.nil_append done] at hperm hdone
      obtain ⟨q, i, hrun, hall⟩ :=
        hend.exists_run hgame hnodup hstart hclear hperm.subset hdone (.start root j)
      rw [ScriptReport.empty_append] at hall
      exact ⟨q, i, hrun, hall⟩
  have hskipped : q.skippedEngine = r.skippedEngine := by
    rw [skippedEngine_of_materialize hrun, skippedEngine_of_materialize h]
    exact hperm.countP_eq _
  exact ⟨q, i, hrun, hend.endsAlike hall.toMaterialized hperm hnodup hskipped⟩

/-- Every order of the assets succeeds and ends alike. -/
def SucceedsInAnyOrder (root : Path) (assets : List Asset) (j : Job σ) (r : ScriptReport)
    (k : Job σ) : Prop :=
  ∀ others : List Asset, others.Perm assets → ∃ q i,
    (materialize root none (Asset.scripts others)).outcome j = (.ok q, i) ∧ EndsAlike r k q i

variable {assets others : List Asset}

/-- Assets in another order have the same scripts of the game. -/
theorem ofGame_perm (h : others.Perm assets) :
    (ofGame (Asset.scripts others)).Perm (ofGame (Asset.scripts assets)) :=
  (h.filterMap _).filter _

/-- The scripts of the engine only count. -/
theorem exists_materialize_of_ofGame
    (h : (materialize root none (ofGame ss)).outcome j = (.ok q, k)) :
    ∃ r, (materialize root none ss).outcome j = (.ok r, k) ∧ q = r.uncounted := by
  rw [outcome_materialize_ofGame] at h
  rcases hall : (materialize root none ss).outcome j with ⟨result, i⟩
  rw [hall] at h
  cases result with
  | error e => cases h
  | ok r =>
      obtain ⟨hq, rfl⟩ := Prod.mk.inj h
      exact ⟨r, rfl, (Except.ok.inj hq).symm⟩

/-- Scripts that are passed over can stand anywhere. -/
theorem SucceedsInAnyOrder.of_game
    (h : (materialize root none (Asset.scripts assets)).outcome j = (.ok r, k))
    (hgame : ∀ ss, ss.Perm (ofGame (Asset.scripts assets)) → ∃ q i,
      (materialize root none ss).outcome j = (.ok q, i) ∧ EndsAlike r.uncounted k q i) :
    SucceedsInAnyOrder root assets j r k := by
  intro others hperm
  obtain ⟨q, i, hrun, halike⟩ := hgame _ (ofGame_perm hperm)
  obtain ⟨q', hall, rfl⟩ := exists_materialize_of_ofGame hrun
  refine ⟨q', i, hall, { halike with skippedEngine := ?_ }⟩
  rw [skippedEngine_of_materialize hall, skippedEngine_of_materialize h]
  exact (hperm.filterMap _).countP_eq _

/-! ## Where the order matters -/

/-- Each script of the game may come first. -/
theorem SucceedsInAnyOrder.exists_first (h : SucceedsInAnyOrder root assets j r k)
    (hs : s ∈ ofGame (Asset.scripts assets)) :
    ∃ rest q i, (s :: rest).Perm (ofGame (Asset.scripts assets)) ∧
      (materialize root none (s :: rest)).outcome j = (.ok q, i) ∧
      q.stubsWritten.Perm r.stubsWritten := by
  obtain ⟨hmem, hgame⟩ := List.mem_filter.mp hs
  obtain ⟨a, ha, hscript⟩ := List.mem_filterMap.mp hmem
  obtain rfl : a = .script s := by
    cases a with
    | other => cases hscript
    | script v => rw [Option.some.inj hscript]
  have hperm := (List.perm_cons_erase ha).symm
  obtain ⟨q, i, hrun, halike⟩ := h _ hperm
  have hfirst : ofGame (Asset.scripts (.script s :: assets.erase (.script s))) =
      s :: ofGame (Asset.scripts (assets.erase (.script s))) := List.filter_cons_of_pos hgame
  have hsame := ofGame_perm hperm
  have hgamerun := outcome_materialize_ofGame root
    (Asset.scripts (.script s :: assets.erase (.script s))) j
  rw [hrun, hfirst] at hgamerun
  rw [hfirst] at hsame
  exact ⟨_, q.uncounted, i, hsame, hgamerun, halike.stubsWritten⟩

/-- If a script finds its file, the root climbs only out of directories. -/
theorem canClimb_of_contains_file {t : FileTree} (h : t.contains (s.file root)) :
    t.CanClimb root := by
  obtain ⟨hreaches, -⟩ := contains_iff.mp h
  intro before after hsteps
  apply hreaches.walk before .up (after ++ (s.folderNames.map .name ++ [.name s.target.fileName]))
  rw [steps_file, hsteps, List.append_assoc, List.cons_append]

/-- Behind another script a script that has a file finds it. -/
theorem not_mem_stubsWritten_of_behind {v : ScriptAsset}
    (hgame : ∀ s ∈ v :: rest, s.isEngine = false)
    (h : (materialize root none (v :: rest)).outcome j = (.ok r, k))
    (hne : s.file root ≠ v.file root) (hold : j.tree.occupied (s.file root)) :
    s.file root ∉ r.stubsWritten := by
  obtain ⟨first, i, q, hfirst, hrest, rfl⟩ := materialize_cons_eq_ok.mp h
  rw [outcome_materialize_of_game (hgame v List.mem_cons_self)] at hfirst
  obtain ⟨hgrows, hfound, -⟩ := ensureSource_grows hfirst
  have hgame : ∀ s ∈ rest, s.isEngine = false := fun s hs => hgame s (List.mem_cons_of_mem v hs)
  have hclear := hidesNothing_of_canClimb hgame hrest (canClimb_of_contains_file hfound)
  have heffect := underWay_of_hidesNothing hgame hclear hrest
  rw [ScriptReport.stubsWritten_append, List.mem_append, not_or]
  constructor
  · rcases ensureSource_eq_ok hfirst with ⟨-, rfl, -⟩ | ⟨-, rfl, -, -⟩
    · exact List.not_mem_nil
    · exact fun hmem => hne (List.mem_singleton.mp hmem)
  · rw [heffect.stubsWritten]
    intro hmem
    obtain ⟨u, hu, hfile⟩ := List.mem_map.mp hmem
    obtain ⟨-, hfree⟩ := mem_of_mem_newcomers hu
    have hstill : i.tree.occupied (s.file root) := by
      rw [occupied, hgrows.tree.place]
      exact hgrows.tree.isSome hold
    rw [hfile, hstill] at hfree
    cases hfree

/-- If two scripts may come in any order, neither relies on the other one to find its file. -/
theorem SucceedsInAnyOrder.hidesNothing (h : SucceedsInAnyOrder root assets j r k)
    (hnodup : ((ofGame (Asset.scripts assets)).map (·.file root)).Nodup)
    (hlong : 2 ≤ (ofGame (Asset.scripts assets)).length)
    (hs : s ∈ ofGame (Asset.scripts assets)) : j.tree.HidesNothing root [s] [] := by
  obtain ⟨rest, q, i, hperm, hrun, hstubs⟩ := h.exists_first hs
  have hengine : s.isEngine = false := isEngine_of_mem_ofGame s hs
  refine ⟨fun v hv hold => ?_, fun v hv hmem => ?_, nofun⟩
  · obtain rfl := Option.some.inj hv
    by_contra hmissing
    obtain ⟨hwritten, -⟩ := first_mem_stubsWritten hengine hrun hmissing
    -- in front of it another script would have shown it its file
    obtain ⟨v, hv⟩ : ∃ v, v ∈ rest := by
      apply List.exists_mem_of_length_pos
      have := hperm.length_eq
      rw [List.length_cons] at this
      omega
    have hne : s.file root ≠ v.file root := by
      have hfiles := ((hperm.map (·.file root)).nodup_iff.mpr hnodup)
      rw [List.map_cons, List.nodup_cons] at hfiles
      intro heq
      exact hfiles.1 (List.mem_map.mpr ⟨v, hv, heq.symm⟩)
    obtain ⟨rest', q', i', hperm', hrun', hstubs'⟩ :=
      h.exists_first (hperm.subset (List.mem_cons_of_mem s hv))
    have hgame : ∀ s ∈ v :: rest', s.isEngine = false := fun s hs =>
      isEngine_of_mem_ofGame s (hperm'.subset hs)
    have hnot := not_mem_stubsWritten_of_behind hgame hrun' hne hold
    exact hnot (hstubs'.symm.subset (hstubs.subset hwritten))
  · obtain rfl := List.mem_singleton.mp hv
    by_contra hfree
    have hmissing : ¬ j.tree.contains (v.file root) := fun hfound =>
      hfree (contains_iff.mp hfound).2
    obtain ⟨-, u, hwrites⟩ := first_mem_stubsWritten hengine hrun hmissing
    apply hwrites.place_not_mem
    rw [FileTree.way, join_folder,
      mem_way_descend root _ fun n hn => isName_of_mem_folderNames hn]
    exact Or.inl hmem

/-- All that is looked at to find a file below a root that can climb is there if the file is. -/
theorem isSome_of_mem_visits_file {t : FileTree}
    (hstart : root.isAbsolute ∨ t.get? t.workingDirectory = some .directory)
    (hclimb : t.CanClimb root) (hold : t.occupied (s.file root)) {m : Location}
    (hm : m ∈ t.visits (s.file root)) : (t.get? m).isSome := by
  have hway (hm : m ∈ t.way (s.file root)) : (t.get? m).isSome := by
    rw [FileTree.way, Path.way, steps_file_eq_concat, Component.way_append, List.mem_append] at hm
    rcases hm with hm | hm
    · have hleads : ∀ m ∈ t.way root, t.get? m = some .directory :=
        fun _ => directory_of_canClimb hclimb hold
      rw [occupied, FileTree.place, place_file] at hold
      rw [directory_of_mem_way_folder hleads hold hm]
      rfl
    · have hplace : m = t.place (s.file root) := by
        rw [List.mem_singleton.mp hm, FileTree.place, Path.place, steps_file_eq_concat,
          Component.place_append]
        rfl
      rw [hplace]
      exact hold
  rw [FileTree.visits, Path.visits, isAbsolute_file] at hm
  split at hm
  · exact hway hm
  · next hrelative =>
      rcases List.mem_cons.mp hm with rfl | hm
      · rw [hstart.resolve_left hrelative]
        rfl
      · exact hway hm

/-- A root that can climb hides nothing from any script. -/
theorem hidesNothingFromEach_of_canClimb (hgame : ∀ s ∈ ss, s.isEngine = false)
    (h : (materialize root none ss).outcome j = (.ok r, k)) (hclimb : j.tree.CanClimb root) :
    j.tree.HidesNothingFromEach root ss := by
  intro s hs
  have hclear := hidesNothing_of_canClimb hgame h hclimb
  have hend := underWay_of_hidesNothing hgame hclear h
  have hstart := start_of_materialize hgame (List.ne_nil_of_mem hs) h
  refine ⟨fun v hv hold => ?_, fun v hv => ?_, nofun⟩
  · obtain rfl := Option.some.inj hv
    have hpart : j.tree.IsPartOf k.tree := ⟨hend.workingDirectory, hend.kept⟩
    exact hpart.contains (hend.hasSource s hs) fun m hm =>
      isSome_of_mem_visits_file hstart hclimb hold hm
  · obtain rfl := List.mem_singleton.mp hv
    exact hclear.source v hs

/-- Two scripts with one file have one relative path. -/
theorem ScriptAsset.relativePath_eq_of_file_eq {v : ScriptAsset} (h : s.file root = v.file root) :
    s.target.relativePath = v.target.relativePath := by
  have hplace : (s.file root).place [] = (v.file root).place [] := by rw [h]
  obtain ⟨hnames, hname⟩ := names_eq_of_place_eq hplace
  have hcategory : Assembly.folder s.assembly = Assembly.folder v.assembly :=
    (List.cons.inj hnames).1
  rw [ScriptTarget.relativePath, ScriptTarget.relativePath, folder_eq, folder_eq, hcategory, hnames,
    hname]

/-- Scripts with different relative paths have different files. -/
theorem nodup_file_of_nodup_relativePath (h : (ss.map (·.target.relativePath)).Nodup) :
    (ss.map (·.file root)).Nodup := by
  rw [List.Nodup, List.pairwise_map] at h ⊢
  exact h.imp fun hne heq => hne (relativePath_eq_of_file_eq heq)

/-- Scripts that are passed over only count. The others, if no two of them share a file, may come in
any order exactly if there is only one or the output root hides nothing from any of them, and in
particular if the root climbs only out of directories that are there. -/
theorem materialize_anyOrder (root : Path) (assets : List Asset) (j : Job σ) :
    let ss := ofGame (Asset.scripts assets)
    let pass (as : List Asset) := (materialize root none (Asset.scripts as)).outcome j
    pass (assets.filter Asset.isOfGame) =
        ((pass assets).1.map ScriptReport.uncounted, (pass assets).2) ∧
      ∀ r k, (ss.map (·.target.relativePath)).Nodup → pass assets = (.ok r, k) →
        (SucceedsInAnyOrder root assets j r k ↔
          ss.length ≤ 1 ∨ j.tree.HidesNothingFromEach root ss) ∧
        (j.tree.CanClimb root → SucceedsInAnyOrder root assets j r k) := by
  intro ss pass
  have hgame : ∀ s ∈ ss, s.isEngine = false := isEngine_of_mem_ofGame
  refine ⟨?_, fun r k hpaths h => ?_⟩
  · show (materialize root none (Asset.scripts (assets.filter Asset.isOfGame))).outcome j = _
    rw [Asset.scripts_filter_isOfGame]
    exact outcome_materialize_ofGame root (Asset.scripts assets) j
  have hnodup : (ss.map (·.file root)).Nodup := nodup_file_of_nodup_relativePath hpaths
  have hgamerun : (materialize root none ss).outcome j = (.ok r.uncounted, k) := by
    have hall := outcome_materialize_ofGame root (Asset.scripts assets) j
    rw [show (materialize root none (Asset.scripts assets)).outcome j = (.ok r, k) from h] at hall
    exact hall
  have hclearRun (hclear : j.tree.HidesNothingFromEach root ss) :
      SucceedsInAnyOrder root assets j r k :=
    .of_game h fun _ hperm => exists_materialize_of_perm hgame hnodup hclear hgamerun hperm
  refine ⟨⟨fun hany => ?_, ?_⟩, fun hclimb => ?_⟩
  · by_cases hlong : 2 ≤ ss.length
    · exact Or.inr fun s hs => hany.hidesNothing hnodup hlong hs
    · exact Or.inl (by omega)
  · rintro (hshort | hclear)
    · refine .of_game h fun vs hperm => ⟨r.uncounted, k, ?_, .refl _ _⟩
      have hsame : vs = ss := by
        rcases Nat.le_one_iff_eq_zero_or_eq_one.mp hshort with hnone | hone
        · have hnil := List.eq_nil_of_length_eq_zero hnone
          exact (List.perm_nil.mp (hnil ▸ hperm)).trans hnil.symm
        · obtain ⟨s, hs⟩ := List.length_eq_one_iff.mp hone
          exact (List.perm_singleton.mp (hs ▸ hperm)).trans hs.symm
      rw [hsame]
      exact hgamerun
    · exact hclearRun hclear
  · exact hclearRun (hidesNothingFromEach_of_canClimb hgame hgamerun hclimb)

/-- A pass below a plain root: one script has its source already, one needs a folder of its own, and
one belongs to the engine. -/
theorem materialize_anyOrder_of_plain_root :
    let tree := ((do
      Disk.makeDirectories ⟨"out/Scripts/Game"⟩
      Disk.writeText ⟨"out/Scripts/Game/Boot.cs"⟩ "real") : Disk.Operation Unit).outcome {} |>.2
    let assets : List Asset := [.script ⟨"Game.dll", "", "Boot"⟩, .other 1 "Player",
      .script ⟨"Game", "Ui", "Menu"⟩, .script ⟨"UnityEngine.UI", "", "Image"⟩]
    let j : Job Unit := ⟨tree, {}, ()⟩
    let report : ScriptReport :=
      { stubsWritten := [⟨"out/Scripts/Game/Ui/Menu.cs"⟩]
        existing := [⟨"out/Scripts/Game/Boot.cs"⟩]
        skippedEngine := 1 }
    ∃ k, (materialize ⟨"out"⟩ none (Asset.scripts assets)).outcome j = (.ok report, k) ∧
      SucceedsInAnyOrder ⟨"out"⟩ assets j report k := by
  intro tree assets j report
  have hreport : ((materialize ⟨"out"⟩ none (Asset.scripts assets)).outcome j).1 = .ok report := by
    decide +kernel
  generalize hpass : (materialize ⟨"out"⟩ none (Asset.scripts assets)).outcome j = pass at hreport
  obtain ⟨result, k⟩ := pass
  obtain rfl := hreport
  have hclimb : tree.CanClimb ⟨"out"⟩ := by
    intro before after hsteps
    have hup : Component.up ∈ (Path.mk "out").steps := by rw [hsteps]; simp
    exact absurd hup (by decide)
  have hpaths : ((ofGame (Asset.scripts assets)).map (·.target.relativePath)).Nodup := by decide
  obtain ⟨-, hany⟩ := materialize_anyOrder ⟨"out"⟩ assets j
  exact ⟨k, rfl, (hany report k hpaths hpass).2 hclimb⟩

/-- Below a root that climbs out of a directory that is missing, the script that comes first loses
its source, so another order leaves another tree. -/
theorem materialize_orderMatters_below_missing_directory :
    let tree := ((do
      Disk.makeDirectories ⟨"out/Scripts/Game"⟩
      Disk.writeText ⟨"out/Scripts/Game/Boot.cs"⟩ "real"
      Disk.writeText ⟨"out/Scripts/Game/Menu.cs"⟩ "real") : Disk.Operation Unit).outcome {} |>.2
    let boot : Asset := .script ⟨"Game", "", "Boot"⟩
    let menu : Asset := .script ⟨"Game", "", "Menu"⟩
    let pass (assets : List Asset) :=
      (materialize ⟨"new/../out"⟩ (none : Option (MetadataWriter Unit))
        (Asset.scripts assets)).outcome ⟨tree, {}, ()⟩
    let report : ScriptReport :=
      { stubsWritten := [⟨"new/../out/Scripts/Game/Boot.cs"⟩]
        existing := [⟨"new/../out/Scripts/Game/Menu.cs"⟩] }
    ((ofGame (Asset.scripts [boot, menu])).map (·.target.relativePath)).Nodup ∧
      (pass [boot, menu]).1 = .ok report ∧
      (pass [menu, boot]).1 = .ok
        { stubsWritten := [⟨"new/../out/Scripts/Game/Menu.cs"⟩]
          existing := [⟨"new/../out/Scripts/Game/Boot.cs"⟩] } ∧
      (pass [boot, menu]).2.tree.get? ["Boot.cs", "Game", "Scripts", "out"] =
        some (.file (Stub.source "" "Boot").toUTF8 false) ∧
      (pass [menu, boot]).2.tree.get? ["Boot.cs", "Game", "Scripts", "out"] =
        some (.file "real".toUTF8 false) ∧
      ¬ SucceedsInAnyOrder ⟨"new/../out"⟩ [boot, menu] ⟨tree, {}, ()⟩ report
        (pass [boot, menu]).2 := by
  intro tree boot menu pass report
  have hother : (pass [menu, boot]).1 = .ok
      { stubsWritten := [⟨"new/../out/Scripts/Game/Menu.cs"⟩]
        existing := [⟨"new/../out/Scripts/Game/Boot.cs"⟩] } := by decide +kernel
  refine ⟨by decide, by decide +kernel, hother, by decide +kernel, by decide +kernel, ?_⟩
  intro hany
  obtain ⟨q, i, hrun, halike⟩ := hany [menu, boot] (.swap boot menu [])
  have hq : (pass [menu, boot]).1 = .ok q := congrArg Prod.fst hrun
  rw [hother] at hq
  obtain rfl := Except.ok.inj hq
  exact absurd halike.stubsWritten (by decide)

end GameExport
