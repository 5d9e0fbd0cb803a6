import GameExport.Proofs.Materialize.Effect

/-! # What a pass over scripts leaves alone, however it ends

A pass may stop at any script. Wherever that is, it has only added to what was there: all that is
new are placeholders, metadata files and directories. There is one exception. If the root hides the
file of the first script, the placeholder is written over that file.
-/

namespace GameExport

open GameExport.Path FileTree ScriptAsset

variable {σ : Type} {root : Path} {s : ScriptAsset} {ss lost : List ScriptAsset} {i j k : Job σ}

/-! ## Failures -/

def MetadataWriter.FailsCleanly (w : MetadataWriter σ) : Prop :=
  ∀ s file t e u, (w s file).outcome t = (.error e, u) → u.1 = t.1

/-- A metadata file that cannot be written is not begun. -/
theorem MetadataWriter.failsCleanly_ofGuids (draw : Nat → Guid) :
    (ofGuids draw).FailsCleanly := by
  intro s file t e u h
  unfold ofGuids at h
  rw [Action.outcome_ask_bind] at h
  rcases Action.outcome_bind_eq_error.mp h with h | ⟨_, t', hdraw, h⟩
  · cases h
  obtain ⟨-, rfl⟩ := Prod.mk.inj hdraw
  rcases Action.outcome_bind_eq_error.mp h with h | ⟨_, t'', -, h⟩
  · obtain ⟨cause, h, -⟩ := Action.outcome_during_eq_error.mp h
    obtain ⟨v, _, hwrite, rfl, -⟩ := Work.outcome_files_eq_error.mp h
    exact Disk.write_eq_error hwrite
  · cases h

namespace ScriptAsset

/-- A placeholder that cannot be written leaves at most directories that lead to it. -/
theorem ensureSource_eq_error {e : Failure} (h : (s.ensureSource root).outcome j = (.error e, k)) :
    ChangesWithin .none (.along (root.join s.target.folder)) j.tree k.tree ∧
      k.descriptors = j.descriptors := by
  have hfolder := Disk.makeDirectories_moves_along (root.join s.target.folder) j.tree
  unfold ensureSource at h
  rw [Action.outcome_ask_bind] at h
  split at h
  · cases h
  rcases Action.outcome_bind_eq_error.mp h with h | ⟨_, i, hmake, h⟩
  · obtain ⟨cause, h, -⟩ := Action.outcome_during_eq_error.mp h
    obtain ⟨t, _, hmake, rfl, -⟩ := Job.outcome_files_eq_error.mp h
    rw [hmake] at hfolder
    exact ⟨hfolder, rfl⟩
  rw [Action.outcome_during_eq_ok, Job.outcome_files_eq_ok] at hmake
  obtain ⟨t, hmake, rfl⟩ := hmake
  rw [hmake] at hfolder
  rcases Action.outcome_bind_eq_error.mp h with h | ⟨_, i, -, h⟩
  · obtain ⟨cause, h, -⟩ := Action.outcome_during_eq_error.mp h
    obtain ⟨u, _, hwrite, rfl, -⟩ := Job.outcome_files_eq_error.mp h
    obtain rfl : u = t := Disk.write_eq_error hwrite
    exact ⟨hfolder, rfl⟩
  -- what comes after the writing does not fail
  · rcases Action.outcome_bind_eq_error.mp h with h | ⟨_, i', -, h⟩
    · cases h
    · cases h

/-- Metadata that fail leave files and assemblies alone. -/
theorem ensureMetadata_eq_error {w : MetadataWriter σ} (hw : w.FailsCleanly) {e : Failure}
    (h : (s.ensureMetadata root w).outcome j = (.error e, k)) :
    k.tree = j.tree ∧ k.descriptors = j.descriptors := by
  unfold ensureMetadata at h
  rw [Action.outcome_ask_bind] at h
  split at h
  · cases h
  rcases Action.outcome_bind_eq_error.mp h with h | ⟨_, i, -, h⟩
  · obtain ⟨cause, h, -⟩ := Action.outcome_during_eq_error.mp h
    obtain ⟨v, hwriter, rfl⟩ := Job.outcome_help_eq_error.mp h
    exact ⟨hw _ _ _ _ _ hwriter, rfl⟩
  · cases h

end ScriptAsset

/-! ## Additions -/

/-- A file that was there has become the placeholder of one of the scripts. -/
def FileTree.LostTo (t u : FileTree) (root : Path) (lost : List ScriptAsset) (m : Location) :
    Prop :=
  ∃ s ∈ lost, m = t.place (s.file root) ∧ ∃ executable,
    u.get? m = some (.file (Stub.source s.ns s.className).toUTF8 executable)

/-- All that is new are placeholders and metadata files of scripts, and directories. All that was
there has stayed, except that some scripts may have lost a file to their placeholders. -/
structure Adds (root : Path) (ss lost : List ScriptAsset) (j k : Job σ) : Prop where
  workingDirectory : k.tree.workingDirectory = j.tree.workingDirectory
  directory : ∀ {m}, j.tree.get? m = some .directory → k.tree.get? m = some .directory
  file : ∀ {m content executable}, j.tree.get? m = some (.file content executable) →
    k.tree.get? m = some (.file content executable) ∨ j.tree.LostTo k.tree root lost m
  newFile : ∀ {m content executable}, j.tree.get? m = none →
    k.tree.get? m = some (.file content executable) → ∃ s ∈ ss,
      m = j.tree.place (s.file root) ∧ content = (Stub.source s.ns s.className).toUTF8 ∨
        m = j.tree.place (Metadata.path (s.file root))
  descriptors : ∀ {name d}, j.descriptors.get? name = some d → k.descriptors.get? name = some d

namespace Adds

theorem refl (j : Job σ) : Adds root ss lost j j where
  workingDirectory := rfl
  directory := id
  file := Or.inl
  newFile := fun hnone hsome => by
    rw [hnone] at hsome
    cases hsome
  descriptors := id

/-- Where no file was lost everything stayed as it was. -/
theorem kept (h : Adds root ss [] j k) {m : Location} {e : Entry} (hm : j.tree.get? m = some e) :
    k.tree.get? m = some e := by
  cases e with
  | directory => exact h.directory hm
  | file c x =>
      rcases h.file hm with hkept | ⟨s, hs, -⟩
      · exact hkept
      · cases hs

theorem mono {ss' : List ScriptAsset} (h : Adds root ss lost j k) (hss : ss ⊆ ss') :
    Adds root ss' lost j k := by
  refine { h with newFile := fun hnone hsome => ?_ }
  obtain ⟨s, hs, hnew⟩ := h.newFile hnone hsome
  exact ⟨s, hss hs, hnew⟩

/-- What has been lost stays lost, and nothing more is lost later on. -/
theorem trans (h : Adds root ss lost i j) (g : Adds root ss [] j k) : Adds root ss lost i k where
  workingDirectory := g.workingDirectory.trans h.workingDirectory
  directory := fun hm => g.directory (h.directory hm)
  file := fun hm => by
    rcases h.file hm with hkept | ⟨s, hs, hplace, x, hstub⟩
    · exact Or.inl (g.kept hkept)
    · exact Or.inr ⟨s, hs, hplace, x, g.kept hstub⟩
  newFile := fun {m c x} hnone hsome => by
    have hplace (p : Path) : j.tree.place p = i.tree.place p := place_congr h.workingDirectory p
    cases hm : j.tree.get? m with
    | none =>
        obtain ⟨s, hs, hnew⟩ := g.newFile hm hsome
        rw [hplace, hplace] at hnew
        exact ⟨s, hs, hnew⟩
    | some e =>
        -- it was new before already
        rw [g.kept hm] at hsome
        obtain rfl := Option.some.inj hsome
        exact h.newFile hnone hm
  descriptors := fun hd => g.descriptors (h.descriptors hd)

theorem of_changesWithin {made : Region} (h : ChangesWithin .none made j.tree k.tree)
    (hdescriptors : k.descriptors = j.descriptors) : Adds root ss lost j k where
  workingDirectory := h.workingDirectory
  directory := h.grows.directory
  file := fun {m c x} hm => by
    rcases h.outside m id with heq | ⟨-, hnone, -⟩
    · exact Or.inl (heq.trans hm)
    · rw [hm] at hnone
      cases hnone
  newFile := fun {m c x} hnone hsome => by
    rcases h.outside m id with heq | ⟨-, -, hdir⟩
    · rw [heq, hnone] at hsome
      cases hsome
    · rw [hdir] at hsome
      cases hsome
  descriptors := fun hd => by rw [hdescriptors, hd]

end Adds

/-! ## One script -/

/-- The script cannot find the file that it has, and its placeholder gets written there. -/
structure ScriptAsset.Overwrites (s : ScriptAsset) (root : Path) (j : Job σ) : Prop where
  hidden : j.tree.contains (s.file root) = false
  there : ∃ content executable,
    j.tree.get? (j.tree.place (s.file root)) = some (.file content executable) ∧
      content ≠ (Stub.source s.ns s.className).toUTF8
  written : ∃ r k, (s.ensureSource root).outcome j = (.ok r, k)

/-- The root leads through directories, so it hides nothing. -/
def FileTree.Leads (t : FileTree) (root : Path) : Prop :=
  ∀ m ∈ t.way root, t.get? m = some .directory

namespace ScriptAsset

/-- A source adds a placeholder, or takes the place of the file that the script did not find. -/
theorem ensureSource_adds {result : Except Failure ScriptReport}
    (hlost : s.Overwrites root j → s ∈ lost)
    (h : (s.ensureSource root).outcome j = (result, k)) : Adds root [s] lost j k := by
  cases result with
  | error e =>
      obtain ⟨hchanges, hdescriptors⟩ := ensureSource_eq_error h
      exact .of_changesWithin hchanges hdescriptors
  | ok r =>
      rcases ensureSource_eq_ok h with ⟨-, -, rfl⟩ | ⟨hmissing, -, hwrites, hdescriptors⟩
      · exact .refl _
      refine ⟨hwrites.workingDirectory, hwrites.grows.directory, ?_, ?_, fun hd => ?_⟩
      · intro m c x hm
        by_cases hplace : m = j.tree.place (s.file root)
        · rw [hplace] at hm ⊢
          by_cases hstub : c = (Stub.source s.ns s.className).toUTF8
          · left
            rw [hwrites.self, isExecutableAt_of_file hm, hstub]
          · exact Or.inr ⟨s, hlost ⟨hmissing, ⟨c, x, hm, hstub⟩, r, k, h⟩, rfl, _, hwrites.self⟩
        · exact Or.inl (hwrites.kept hm hplace)
      · intro m c x hnone hsome
        refine ⟨s, List.mem_cons_self, Or.inl ?_⟩
        by_cases hplace : m = j.tree.place (s.file root)
        · rw [hplace, hwrites.self] at hsome
          exact ⟨hplace, (Entry.file.inj (Option.some.inj hsome)).1.symm⟩
        · rw [hwrites.file_of_file hsome hplace] at hnone
          cases hnone
      · rw [hdescriptors]
        exact DescriptorMap.get?_tryAdd_of_some hd _ _

/-- Metadata are added beside the source. -/
theorem ensureMetadata_adds {w : MetadataWriter σ} (hw : w.CreatesOnly) (hclean : w.FailsCleanly)
    {result : Except Failure ScriptReport}
    (h : (s.ensureMetadata root w).outcome j = (result, k)) : Adds root [s] [] j k := by
  cases result with
  | error e =>
      obtain ⟨htree, hdescriptors⟩ := ensureMetadata_eq_error hclean h
      have hsame : ChangesWithin .none .none j.tree k.tree := by
        rw [htree]
        exact .refl _
      exact .of_changesWithin hsame hdescriptors
  | ok r =>
      rcases ensureMetadata_eq_ok hw h with
        ⟨-, -, rfl⟩ | ⟨-, -, hdescriptors, -, hfree, c, x, hputs⟩
      · exact .refl _
      have hkept {m : Location} {e : Entry} (hm : j.tree.get? m = some e) :
          k.tree.get? m = some e := by
        rw [hputs.of_ne, hm]
        intro heq
        rw [heq, hfree] at hm
        cases hm
      refine ⟨hputs.workingDirectory, hkept, fun hm => Or.inl (hkept hm), ?_, fun hd => ?_⟩
      · intro m d y hnone hsome
        refine ⟨s, List.mem_cons_self, Or.inr ?_⟩
        by_contra hplace
        rw [hputs.of_ne hplace, hnone] at hsome
        cases hsome
      · rw [hdescriptors, hd]

/-- What can be found afterwards shows that the root leads through directories. -/
theorem leads_of_ensureSource {r : ScriptReport}
    (h : (s.ensureSource root).outcome j = (.ok r, k)) : k.tree.Leads root := by
  obtain ⟨-, hfound, -⟩ := ensureSource_grows h
  exact fun m hm => directory_of_contains_file hfound hm

/-- A root that leads through directories to the file of a script does not hide it. -/
theorem not_overwrites_of_directories
    (h : (j.tree.get? (j.tree.place (s.file root))).isSome → j.tree.Leads root) :
    ¬ s.Overwrites root j := by
  rintro ⟨hhidden, ⟨c, x, hthere, -⟩, r, k, hsource⟩
  rcases ensureSource_eq_ok hsource with ⟨hfound, -⟩ | ⟨-, -, hwrites, -⟩
  · rw [hhidden] at hfound
    cases hfound
  · have hsome : (j.tree.get? (j.tree.place (s.file root))).isSome := by rw [hthere]; rfl
    have hfound := contains_of_writesStub hwrites (h hsome) hsome
    rw [hhidden] at hfound
    cases hfound

variable {w : Option (MetadataWriter σ)} {result : Except Failure ScriptReport}

/-- Once a script has its source, the rest of what is done for it only adds to the files. -/
theorem materialize_adds_after_source (hw : ∀ v ∈ w, v.CreatesOnly ∧ v.FailsCleanly)
    (hengine : s.isEngine = false) {r : ScriptReport}
    (hsource : (s.ensureSource root).outcome j = (.ok r, i))
    (h : (s.materialize root w).outcome j = (result, k)) : Adds root [s] [] i k := by
  rw [materialize, if_neg (by simp [hengine])] at h
  rcases Action.outcome_bind_cases h with ⟨e, herror, -⟩ | ⟨source, i', hok, h⟩
  · rw [hsource] at herror
    cases herror
  rw [hsource] at hok
  obtain ⟨-, rfl⟩ := Prod.mk.inj hok
  cases w with
  | none =>
      obtain ⟨-, rfl⟩ := Prod.mk.inj h
      exact .refl _
  | some v =>
      obtain ⟨hcreates, hclean⟩ := hw v rfl
      rcases Action.outcome_bind_cases h with ⟨e, hmetadata, -⟩ | ⟨metadata, k', hmetadata, h⟩
      · exact ensureMetadata_adds hcreates hclean hmetadata
      · obtain ⟨-, rfl⟩ := Prod.mk.inj h
        exact ensureMetadata_adds hcreates hclean hmetadata

/-- What is done for a script adds to the files, except that the script may lose its own file. -/
theorem materialize_adds (hw : ∀ v ∈ w, v.CreatesOnly ∧ v.FailsCleanly)
    (hengine : s.isEngine = false) (hlost : s.Overwrites root j → s ∈ lost)
    (h : (s.materialize root w).outcome j = (result, k)) : Adds root [s] lost j k := by
  cases hsource : (s.ensureSource root).outcome j with
  | mk source i =>
      have hfirst : Adds root [s] lost j i := ensureSource_adds hlost hsource
      cases source with
      | ok r => exact hfirst.trans (materialize_adds_after_source hw hengine hsource h)
      | error e =>
          rw [materialize, if_neg (by simp [hengine]), Action.outcome_bind, hsource] at h
          obtain ⟨-, rfl⟩ := Prod.mk.inj h
          exact hfirst

/-- If it ends well, the root leads through directories. -/
theorem leads_of_materialize (hw : ∀ v ∈ w, v.CreatesOnly ∧ v.FailsCleanly)
    (hengine : s.isEngine = false) {r : ScriptReport}
    (h : (s.materialize root w).outcome j = (.ok r, k)) : k.tree.Leads root := by
  obtain ⟨source, i, hsource, -⟩ := materialize_eq_ok hengine h
  have hrest := materialize_adds_after_source hw hengine hsource h
  have hleads := leads_of_ensureSource hsource
  intro m hm
  rw [way_congr hrest.workingDirectory] at hm
  exact hrest.directory (hleads m hm)

end ScriptAsset

/-! ## All scripts -/

section Pass

variable {w : Option (MetadataWriter σ)} {result : Except Failure ScriptReport}

/-- A pass fails at its first script, or it goes on behind it. -/
theorem materialize_cons_cases (h : (materialize root w (s :: ss)).outcome j = (result, k)) :
    (∃ e, (s.materialize root w).outcome j = (.error e, k)) ∨
      ∃ r i rest, (s.materialize root w).outcome j = (.ok r, i) ∧
        (materialize root w ss).outcome i = (rest, k) := by
  rw [materialize] at h
  rcases Action.outcome_bind_cases h with ⟨e, hfirst, -⟩ | ⟨r, i, hfirst, h⟩
  · exact Or.inl ⟨e, hfirst⟩
  rcases Action.outcome_bind_cases h with ⟨e, hrest, -⟩ | ⟨rest, k', hrest, h⟩
  · exact Or.inr ⟨r, i, _, hfirst, hrest⟩
  · obtain ⟨-, rfl⟩ := Prod.mk.inj h
    exact Or.inr ⟨r, i, _, hfirst, hrest⟩

/-- A script of the engine at the front of a pass changes nothing. -/
theorem materialize_cons_of_isEngine (hengine : s.isEngine)
    (h : (materialize root w (s :: ss)).outcome j = (result, k)) :
    ofGame (s :: ss) = ofGame ss ∧ ∃ rest, (materialize root w ss).outcome j = (rest, k) := by
  refine ⟨List.filter_cons_of_neg (by simp [hengine]), ?_⟩
  rcases materialize_cons_cases h with ⟨e, hskip⟩ | ⟨r, i, rest, hskip, hrest⟩
  · rw [s.materialize_of_isEngine hengine] at hskip
    cases hskip
  · rw [s.materialize_of_isEngine hengine] at hskip
    obtain ⟨-, rfl⟩ := Prod.mk.inj hskip
    exact ⟨rest, hrest⟩

theorem ofGame_cons_of_game (hengine : s.isEngine = false) :
    ofGame (s :: ss) = s :: ofGame ss :=
  List.filter_cons_of_pos (by simp [hengine])

/-- A pass below a root that leads through directories adds to the files and loses nothing. -/
theorem materialize_adds_of_leads (hw : ∀ v ∈ w, v.CreatesOnly ∧ v.FailsCleanly)
    (hleads : j.tree.Leads root) (h : (materialize root w ss).outcome j = (result, k)) :
    Adds root (ofGame ss) [] j k := by
  induction ss generalizing j result with
  | nil =>
      obtain ⟨-, rfl⟩ := Prod.mk.inj h
      exact .refl _
  | cons s ss ih =>
      cases hengine : s.isEngine with
      | true =>
          obtain ⟨hgame, rest, hrest⟩ := materialize_cons_of_isEngine hengine h
          rw [hgame]
          exact ih hleads hrest
      | false =>
          have hstep {first : Except Failure ScriptReport} {i : Job σ}
              (hfirst : (s.materialize root w).outcome j = (first, i)) : Adds root [s] [] j i :=
            s.materialize_adds hw hengine (fun hover => absurd hover (not_overwrites_of_directories fun _ => hleads))
              hfirst
          rw [ofGame_cons_of_game hengine]
          rcases materialize_cons_cases h with ⟨e, hfirst⟩ | ⟨r, i, rest, hfirst, hrest⟩
          · exact (hstep hfirst).mono (by simp)
          · have hnext := ih (s.leads_of_materialize hw hengine hfirst) hrest
            exact ((hstep hfirst).mono (by simp)).trans (hnext.mono (List.subset_cons_self s _))

/-- What comes after the first script of the game loses nothing. -/
theorem materialize_adds_after_first (hw : ∀ v ∈ w, v.CreatesOnly ∧ v.FailsCleanly)
    {others : List ScriptAsset} (hgame : ofGame ss = s :: others)
    (h : (materialize root w ss).outcome j = (result, k)) :
    ∃ first i, (s.materialize root w).outcome j = (first, i) ∧ Adds root others [] i k := by
  induction ss generalizing result with
  | nil => cases hgame
  | cons v ss ih =>
      cases hengine : v.isEngine with
      | true =>
          obtain ⟨hskip, rest, hrest⟩ := materialize_cons_of_isEngine hengine h
          exact ih (hskip ▸ hgame) hrest
      | false =>
          rw [ofGame_cons_of_game hengine] at hgame
          obtain ⟨rfl, rfl⟩ := List.cons.inj hgame
          rcases materialize_cons_cases h with ⟨e, hfirst⟩ | ⟨r, i, rest, hfirst, hrest⟩
          · exact ⟨_, k, hfirst, .refl k⟩
          · have hleads := v.leads_of_materialize hw hengine hfirst
            exact ⟨_, i, hfirst, materialize_adds_of_leads hw hleads hrest⟩

/-- Without scripts of the game nothing happens. -/
theorem materialize_of_ofGame_eq_nil (hgame : ofGame ss = [])
    (h : (materialize root w ss).outcome j = (result, k)) : k = j := by
  induction ss generalizing result with
  | nil => exact (Prod.mk.inj h).2.symm
  | cons s ss ih =>
      cases hengine : s.isEngine with
      | true =>
          obtain ⟨hskip, rest, hrest⟩ := materialize_cons_of_isEngine hengine h
          exact ih (hskip ▸ hgame) hrest
      | false =>
          rw [ofGame_cons_of_game hengine] at hgame
          cases hgame

/-- A placeholder that is written over a file is still there at the end. -/
theorem lost_of_overwrites (hw : ∀ v ∈ w, v.CreatesOnly ∧ v.FailsCleanly)
    (hfirst : (ofGame ss).head? = some s) (hover : s.Overwrites root j)
    (h : (materialize root w ss).outcome j = (result, k)) :
    ∃ m content executable, j.tree.get? m = some (.file content executable) ∧
      k.tree.get? m ≠ some (.file content executable) := by
  obtain ⟨others, hgame⟩ := List.head?_eq_some_iff.mp hfirst
  have hengine : s.isEngine = false := isEngine_of_mem_ofGame s (by rw [hgame]; simp)
  obtain ⟨hhidden, ⟨c, x, hthere, hstub⟩, r, source, hsource⟩ := hover
  obtain ⟨first, i, hscript, hrest⟩ := materialize_adds_after_first hw hgame h
  have hafter := s.materialize_adds_after_source hw hengine hsource hscript
  refine ⟨_, c, x, hthere, ?_⟩
  rcases ensureSource_eq_ok hsource with ⟨hfound, -⟩ | ⟨-, -, hwrites, -⟩
  · rw [hhidden] at hfound
    cases hfound
  · rw [hrest.kept (hafter.kept hwrites.self)]
    intro heq
    exact hstub (Entry.file.inj (Option.some.inj heq)).1.symm

/-- Only the first script of the game may lose a file, and all the others only add. -/
theorem materialize_adds (hw : ∀ v ∈ w, v.CreatesOnly ∧ v.FailsCleanly)
    (hlost : ∀ s ∈ (ofGame ss).head?, s.Overwrites root j → s ∈ lost)
    (h : (materialize root w ss).outcome j = (result, k)) : Adds root (ofGame ss) lost j k := by
  cases hgame : ofGame ss with
  | nil =>
      rw [materialize_of_ofGame_eq_nil hgame h]
      exact .refl j
  | cons s others =>
      have hengine : s.isEngine = false := isEngine_of_mem_ofGame s (by rw [hgame]; simp)
      obtain ⟨first, i, hscript, hrest⟩ := materialize_adds_after_first hw hgame h
      have hfirst := s.materialize_adds hw hengine (hlost s (by rw [hgame]; rfl)) hscript
      exact (hfirst.mono (by simp)).trans (hrest.mono (List.subset_cons_self s others))

end Pass

/-- However a pass ends, all that was there is kept and all that is new belongs to a script, except
that the first script may lose a file of its own that the root hides. That happens exactly if its
placeholder is written there, and never below a root that climbs only out of directories that are
there. -/
theorem materialize_onlyAdds (draws : Option (Nat → Guid)) (root : Path) (assets : List Asset)
    (j : Job GuidRecord) :
    let ss := ofGame (Asset.scripts assets)
    let k := ((materialize root (draws.map .ofGuids) (Asset.scripts assets)).outcome j).2
    Adds root ss ss.head?.toList j k ∧
      (Adds root ss [] j k ↔ ∀ s ∈ ss.head?, ¬ s.Overwrites root j) ∧
      (j.tree.CanClimb root → Adds root ss [] j k) := by
  intro ss k
  have hw : ∀ v ∈ draws.map MetadataWriter.ofGuids, v.CreatesOnly ∧ v.FailsCleanly := by
    intro v hv
    obtain ⟨draw, -, rfl⟩ := Option.map_eq_some_iff.mp hv
    exact ⟨MetadataWriter.createsOnly_ofGuids draw, MetadataWriter.failsCleanly_ofGuids draw⟩
  have hpass : (materialize root (draws.map .ofGuids) (Asset.scripts assets)).outcome j =
    (((materialize root (draws.map .ofGuids) (Asset.scripts assets)).outcome j).1, k) := rfl
  have hstrict (hnone : ∀ s ∈ ss.head?, ¬ s.Overwrites root j) : Adds root ss [] j k :=
    materialize_adds hw (fun s hs hover => absurd hover (hnone s hs)) hpass
  refine ⟨materialize_adds hw (fun s hs _ => Option.mem_toList.mpr hs) hpass, ⟨?_, hstrict⟩, ?_⟩
  · intro hadds s hs hover
    obtain ⟨m, c, x, hthere, hlost⟩ := lost_of_overwrites hw hs hover hpass
    exact hlost (hadds.kept hthere)
  · intro hclimb
    refine hstrict fun s _ => not_overwrites_of_directories fun hsome m hm => ?_
    exact directory_of_canClimb hclimb hsome hm

/-- A root that climbs out of a directory that is missing hides the file of the first script, so the
placeholder is written over it. The pass fails at the second script, whose folder is a file. -/
theorem materialize_losesFile_below_missing_directory :
    let tree := ((do
      Disk.makeDirectories ⟨"out/Scripts/Game"⟩
      Disk.writeText ⟨"out/Scripts/Game/Boot.cs"⟩ "real"
      Disk.writeText ⟨"out/Scripts/Blocked"⟩ "file") : Disk.Operation Unit).outcome {} |>.2
    let assets : List Asset := [.script ⟨"Game", "", "Boot"⟩, .script ⟨"Blocked", "", "Menu"⟩]
    let pass := (materialize ⟨"new/../out"⟩ (none : Option (MetadataWriter GuidRecord))
      (Asset.scripts assets)).outcome ⟨tree, {}, {}⟩
    pass.1 = .error (.during (.creating ⟨"new/../out/Scripts/Blocked"⟩) (.file .alreadyExists)) ∧
      tree.get? ["Boot.cs", "Game", "Scripts", "out"] = some (.file "real".toUTF8 false) ∧
      pass.2.tree.get? ["Boot.cs", "Game", "Scripts", "out"] =
        some (.file (Stub.source "" "Boot").toUTF8 false) ∧
      ¬ ∀ m content executable, tree.get? m = some (.file content executable) →
        pass.2.tree.get? m = some (.file content executable) := by
  intro tree assets pass
  have hbefore : tree.get? ["Boot.cs", "Game", "Scripts", "out"] =
      some (.file "real".toUTF8 false) := by decide +kernel
  have hafter : pass.2.tree.get? ["Boot.cs", "Game", "Scripts", "out"] =
      some (.file (Stub.source "" "Boot").toUTF8 false) := by decide +kernel
  refine ⟨by decide +kernel, hbefore, hafter, fun hkept => ?_⟩
  rw [hkept _ _ _ hbefore] at hafter
  exact absurd hafter (by decide +kernel)

end GameExport
