import GameExport.Proofs.Materialize.Effect

/-! # When a pass does what it should

While a pass is under way every script that was dealt with has its files, so the next one finds
exactly what was there or was brought before. Only the first script can be misled, and only by a
root that climbs out of a directory that is still missing.
-/

namespace GameExport

open GameExport.Path FileTree ScriptAsset

variable {σ : Type} {root : Path} {s : ScriptAsset} {ss ms : List ScriptAsset} {j k i : Job σ}
  {acc r : ScriptReport}

/-! ## The whole pass -/

/-- A pass under way: all scripts so far have their files, and before the first one nothing has
happened. -/
structure UnderWay (root : Path) (ss ms : List ScriptAsset) (j : Job σ) (acc : ScriptReport)
    (k : Job σ) : Prop extends Materialized root ss ms j acc k where
  hasSource : ∀ s ∈ ss, k.tree.contains (s.file root)
  hasMetadata : ∀ s ∈ ms, k.tree.contains (Metadata.path (s.file root))
  untouched : ss = [] → k.tree = j.tree

namespace UnderWay

theorem start (root : Path) (j : Job σ) : UnderWay root [] [] j {} j where
  stubsWritten := rfl
  existing := rfl
  handedOff := rfl
  conflicts := rfl
  workingDirectory := rfl
  source := nofun
  directory := nofun
  metadata := nofun
  kept := fun hm => hm
  nothingElse := fun hnone hsome => by
    rw [hnone] at hsome
    cases hsome
  descriptors := fun name => by
    rw [takenDown, if_neg (by simp [newSources, newcomers]), Option.or_none]
  hasSource := nofun
  hasMetadata := nofun
  untouched := fun _ => rfl

/-- One more source is made, or found where it was. -/
theorem ensureSource (h : UnderWay root ss ms j acc k)
    (hfirst : ss = [] → j.tree.occupied (s.file root) → j.tree.contains (s.file root))
    (hroot : j.tree.place (s.file root) ∈ j.tree.way root → j.tree.occupied (s.file root))
    (hstep : (s.ensureSource root).outcome k = (.ok r, i)) :
    UnderWay root (ss ++ [s]) ms j (acc ++ r) i := by
  have hplace := h.place (s.file root)
  have hmaterialized : Materialized root (ss ++ [s]) ms j (acc ++ r) i := by
    rcases ensureSource_eq_ok hstep with ⟨hfound, rfl, rfl⟩ | ⟨hmissing, rfl, hwrites, hdescriptors⟩
    · obtain ⟨-, hsome⟩ := contains_iff.mp hfound
      rw [hplace] at hsome
      exact h.concat_existing (h.occupied_source hroot hsome)
    · have hnone : ¬ (k.tree.get? (j.tree.place (s.file root))).isSome := by
        intro hsome
        suffices k.tree.contains (s.file root) by
          rw [hmissing] at this
          cases this
        -- the first script has only the root to rely on; for a later one the file of the script
        -- before it shows that the root leads through directories
        cases ss with
        | nil =>
            rw [h.untouched rfl] at hsome ⊢
            exact hfirst rfl hsome
        | cons v vs =>
            rw [← hplace] at hsome
            refine contains_of_writesStub hwrites (fun l hl => ?_) hsome
            exact directory_of_contains_file (h.hasSource v List.mem_cons_self) hl
      refine h.concat_stub (by simpa using hnone) (fun v hv heq => ?_) hwrites hdescriptors
      have hfound := h.hasSource v hv
      rw [heq, hmissing] at hfound
      cases hfound
  obtain ⟨hgrows, hfile, -⟩ := ensureSource_grows hstep
  refine { hmaterialized with hasSource := ?_, hasMetadata := ?_, untouched := ?_ }
  · intro v hv
    rcases List.mem_append.mp hv with hv | hv
    · exact hgrows.tree.contains (h.hasSource v hv)
    · obtain rfl := List.mem_singleton.mp hv
      exact hfile
  · exact fun v hv => hgrows.tree.contains (h.hasMetadata v hv)
  · exact fun hnil => absurd hnil (by simp)

theorem ensureMetadata {w : MetadataWriter σ} (hw : w.CreatesOnly) (h : UnderWay root ss ms j acc k)
    (hne : ss ≠ [])
    (hroot : j.tree.place (Metadata.path (s.file root)) ∈ j.tree.way root →
      j.tree.occupied (Metadata.path (s.file root)))
    (hstep : (s.ensureMetadata root w).outcome k = (.ok r, i)) :
    UnderWay root ss (ms ++ [s]) j (acc ++ r) i := by
  have hplace := h.place (Metadata.path (s.file root))
  have hmaterialized : Materialized root ss (ms ++ [s]) j (acc ++ r) i := by
    rcases ensureMetadata_eq_ok hw hstep with
      ⟨hfound, rfl, rfl⟩ | ⟨hmissing, rfl, hdescriptors, -, hnone, c, x, hputs⟩
    · obtain ⟨-, hsome⟩ := contains_iff.mp hfound
      rw [hplace] at hsome
      exact h.concat_conflict (h.occupied_metadata hroot hsome)
    · rw [hplace] at hnone hputs
      refine h.concat_handedOff hnone (fun v hv heq => ?_) hputs hdescriptors
      have hfound := h.hasMetadata v hv
      rw [heq, hmissing] at hfound
      cases hfound
  obtain ⟨hgrows, hfile, -⟩ := ensureMetadata_grows hw hstep
  refine { hmaterialized with hasSource := ?_, hasMetadata := ?_, untouched := ?_ }
  · exact fun v hv => hgrows.tree.contains (h.hasSource v hv)
  · intro v hv
    rcases List.mem_append.mp hv with hv | hv
    · exact hgrows.tree.contains (h.hasMetadata v hv)
    · obtain rfl := List.mem_singleton.mp hv
      exact hfile
  · exact fun hnil => absurd hnil hne

end UnderWay

/-- The scripts that are looked at for metadata: all, if there is a writer. -/
def ScriptAsset.asked (w : Option (MetadataWriter σ)) (ss : List ScriptAsset) : List ScriptAsset :=
  if w.isSome then ss else []

/-- The scripts that are left get their files one after the other. -/
theorem UnderWay.run {w : Option (MetadataWriter σ)} (hw : ∀ v ∈ w, v.CreatesOnly)
    {done ss : List ScriptAsset} (hgame : ∀ s ∈ ss, s.isEngine = false)
    (hclear : j.tree.HidesNothing root (done ++ ss) (asked w (done ++ ss)))
    (h : UnderWay root done (asked w done) j acc k)
    (hrun : (GameExport.materialize root w ss).outcome k = (.ok r, i)) :
    UnderWay root (done ++ ss) (asked w (done ++ ss)) j (acc ++ r) i := by
  induction ss generalizing done acc k r with
  | nil =>
      obtain ⟨hr, rfl⟩ := Prod.mk.inj hrun
      cases hr
      rw [List.append_nil, ScriptReport.append_empty]
      exact h
  | cons s ss ih =>
      obtain ⟨first, k', rest, hfirst, hrest, rfl⟩ := materialize_cons_eq_ok.mp hrun
      obtain ⟨source, k'', hsource, hmetadata⟩ :=
        materialize_eq_ok (hgame s List.mem_cons_self) hfirst
      have hmem : s ∈ done ++ s :: ss := by simp
      have hvisible : done = [] → j.tree.occupied (s.file root) →
          j.tree.contains (s.file root) := by
        rintro rfl
        exact hclear.first s rfl
      -- the source comes first, so there is a script behind the metadata step in any case
      have hstep := h.ensureSource hvisible (hclear.source s hmem) hsource
      have hnext : UnderWay root (done ++ [s]) (asked w (done ++ [s])) j (acc ++ first) k' := by
        rcases hmetadata with ⟨rfl, rfl, rfl⟩ | ⟨v, metadata, rfl, hmetadata, rfl⟩
        · exact hstep
        · rw [← ScriptReport.append_assoc]
          exact hstep.ensureMetadata (hw v rfl) (by simp) (hclear.metadata s hmem) hmetadata
      rw [← ScriptReport.append_assoc, List.append_cons]
      rw [List.append_cons] at hclear
      exact ih (fun v hv => hgame v (List.mem_cons_of_mem s hv)) hclear hnext hrest

/-! ## When a root hides nothing -/

section Success

variable {w : Option (MetadataWriter σ)}

/-- Where the first script does not find its file, it writes one. -/
theorem first_mem_stubsWritten {s : ScriptAsset} {ss : List ScriptAsset}
    (hengine : s.isEngine = false)
    (h : (materialize root w (s :: ss)).outcome j = (.ok r, k))
    (hmissing : ¬ j.tree.contains (s.file root)) :
    s.file root ∈ r.stubsWritten ∧ ∃ u, s.WritesStub root j.tree u := by
  obtain ⟨first, k', rest, hfirst, -, rfl⟩ := materialize_cons_eq_ok.mp h
  obtain ⟨source, k'', hsource, hmetadata⟩ := materialize_eq_ok hengine hfirst
  rcases ensureSource_eq_ok hsource with ⟨hfound, -⟩ | ⟨-, rfl, hwrites, -⟩
  · exact absurd hfound hmissing
  refine ⟨?_, k''.tree, hwrites⟩
  rw [ScriptReport.stubsWritten_append]
  apply List.mem_append_left
  rcases hmetadata with ⟨-, rfl, -⟩ | ⟨v, metadata, -, -, rfl⟩
  · exact List.mem_cons_self
  · exact List.mem_append_left _ List.mem_cons_self

theorem mem_of_mem_asked {ss : List ScriptAsset} (h : s ∈ asked w ss) : w.isSome ∧ s ∈ ss := by
  unfold asked at h
  split at h
  · next hw => exact ⟨hw, h⟩
  · cases h

/-- A pass with the effect that it should have was kept from nothing by the root. -/
theorem hidesNothing_of_materialized (hw : ∀ v ∈ w, v.CreatesOnly) {ss : List ScriptAsset}
    (hgame : ∀ s ∈ ss, s.isEngine = false)
    (h : (materialize root w ss).outcome j = (.ok r, k))
    (heffect : Materialized root ss (asked w ss) j r k) :
    j.tree.HidesNothing root ss (asked w ss) := by
  obtain ⟨hgrows, hfiles, -⟩ := materialize_grows hw h
  -- a newcomer on the way of the root would be a file and a directory at once
  have hway : ∀ s ∈ ss, ∀ m ∈ j.tree.way root, k.tree.get? m = some .directory := by
    intro s hs m hm
    rw [← hgrows.tree.way] at hm
    exact directory_of_contains_file (hfiles s hs (hgame s hs)).source hm
  refine ⟨fun s hs hold => ?_, fun s hs hmem => ?_, fun s hs hmem => ?_⟩
  · by_contra hmissing
    obtain ⟨rest, rfl⟩ := List.head?_eq_some_iff.mp hs
    obtain ⟨hwritten, -⟩ := first_mem_stubsWritten (hgame s List.mem_cons_self) h hmissing
    -- it wrote a placeholder for a file that was there, so it is no newcomer after all
    rw [heffect.stubsWritten] at hwritten
    obtain ⟨v, hv, hfile⟩ := List.mem_map.mp hwritten
    obtain ⟨-, hfree⟩ := mem_of_mem_newcomers hv
    rw [hfile, hold] at hfree
    cases hfree
  · by_contra hfree
    obtain ⟨v, hv, hfile⟩ := exists_newcomer _ hs (by simpa using hfree)
    have hsource := heffect.source v hv
    rw [hfile, hway s hs _ hmem] at hsource
    cases hsource
  · by_contra hfree
    obtain ⟨v, hv, hfile⟩ := exists_newcomer
      (fun file => j.tree.occupied (Metadata.path file)) hs (by simpa using hfree)
    obtain ⟨c, x, hmeta⟩ := heffect.metadata v hv
    rw [hfile, hway s (mem_of_mem_asked hs).2 _ hmem] at hmeta
    cases hmeta

/-- A root that can climb hides nothing. -/
theorem hidesNothing_of_canClimb {ss : List ScriptAsset} (hgame : ∀ s ∈ ss, s.isEngine = false)
    (h : (materialize root w ss).outcome j = (.ok r, k)) (hclimb : j.tree.CanClimb root) :
    j.tree.HidesNothing root ss (asked w ss) := by
  -- what is below the place of the root is never on the way up to it
  have hbelow (n : String) (names : List String) :
      ¬ n :: (names ++ j.tree.place root) <:+ j.tree.place root := by
    intro hsuffix
    have hlength := hsuffix.length_le
    rw [List.length_cons, List.length_append] at hlength
    omega
  refine ⟨fun s hs hold => ?_, fun s hs hmem => ?_, fun s hs hmem => ?_⟩
  · by_contra hmissing
    obtain ⟨rest, rfl⟩ := List.head?_eq_some_iff.mp hs
    obtain ⟨-, u, hwrites⟩ := first_mem_stubsWritten (hgame s List.mem_cons_self) h hmissing
    exact hmissing (contains_of_writesStub hwrites (fun _ => directory_of_canClimb hclimb hold) hold)
  · have hdirectory := hclimb.directory hmem
    rw [FileTree.place, place_file] at hdirectory
    rw [occupied, FileTree.place, place_file, hdirectory (hbelow _ _)]
    rfl
  · have hdirectory := hclimb.directory hmem
    rw [FileTree.place, place_metadata] at hdirectory
    rw [occupied, FileTree.place, place_metadata, hdirectory (hbelow _ _)]
    rfl

end Success

/-! ## Passing over the engine -/

/-- A pass deals with the scripts of the game as if there were no others. -/
theorem materialize_ofGame {w : Option (MetadataWriter σ)} {ss : List ScriptAsset}
    (h : (materialize root w ss).outcome j = (.ok r, k)) :
    ∃ q, (materialize root w (ofGame ss)).outcome j = (.ok q, k) ∧
      r = { q with skippedEngine := r.skippedEngine } := by
  induction ss generalizing j r with
  | nil => exact ⟨r, h, rfl⟩
  | cons s ss ih =>
      obtain ⟨first, i, rest, hfirst, hrest, rfl⟩ := materialize_cons_eq_ok.mp h
      obtain ⟨q, hq, heq⟩ := ih hrest
      cases hengine : s.isEngine with
      | true =>
          rw [s.materialize_of_isEngine hengine] at hfirst
          obtain ⟨hr, rfl⟩ := Prod.mk.inj hfirst
          cases hr
          refine ⟨q, ?_, ?_⟩
          · rw [ofGame, List.filter_cons_of_neg (by simp [hengine])]
            exact hq
          · rw [heq]
            rfl
      | false =>
          refine ⟨first ++ q, ?_, ?_⟩
          · rw [ofGame, List.filter_cons_of_pos (by simp [hengine])]
            exact materialize_cons_eq_ok.mpr ⟨first, i, q, hfirst, hq, rfl⟩
          · rw [heq]
            rfl

/-- A pass does what it should exactly if the output root hides nothing, and in particular if the
root climbs only out of directories that are there. -/
theorem materialize_effect {w : Option (MetadataWriter σ)} (hw : ∀ v ∈ w, v.CreatesOnly)
    (root : Path) (assets : List Asset) {j k : Job σ} {r : ScriptReport}
    (h : (materialize root w (Asset.scripts assets)).outcome j = (.ok r, k)) :
    let ss := ofGame (Asset.scripts assets)
    r.skippedEngine = (Asset.scripts assets).countP (·.isEngine) ∧
      (Materialized root ss (asked w ss) j r k ↔ j.tree.HidesNothing root ss (asked w ss)) ∧
      (j.tree.CanClimb root → Materialized root ss (asked w ss) j r k) := by
  intro ss
  obtain ⟨-, -, hskipped⟩ := materialize_grows hw h
  obtain ⟨q, hq, heq⟩ := materialize_ofGame h
  have hgame : ∀ s ∈ ss, s.isEngine = false := isEngine_of_mem_ofGame
  have hsame :
      Materialized root ss (asked w ss) j r k ↔ Materialized root ss (asked w ss) j q k := by
    rw [heq]
    exact ⟨fun hr => { hr with }, fun hq => { hq with }⟩
  have hpass : j.tree.HidesNothing root ss (asked w ss) →
      Materialized root ss (asked w ss) j q k := by
    intro hclear
    have hstart : UnderWay root [] (asked w []) j {} j := by
      rw [asked, ite_self]
      exact .start root j
    have hend := UnderWay.run hw hgame hclear hstart hq
    rw [ScriptReport.empty_append] at hend
    exact hend.toMaterialized
  refine ⟨hskipped, ?_, fun hclimb => ?_⟩
  · rw [hsame]
    exact ⟨hidesNothing_of_materialized hw hgame hq, hpass⟩
  · rw [hsame]
    exact hpass (hidesNothing_of_canClimb hgame hq hclimb)

/-- A pass below a plain root: one script has its source already, another one comes twice. -/
theorem materialize_effect_of_plain_root :
    let tree := ((do
      Disk.makeDirectories ⟨"out/Scripts/Game"⟩
      Disk.writeText ⟨"out/Scripts/Game/Boot.cs"⟩ "real") : Disk.Operation Unit).outcome {} |>.2
    let draw : Nat → Guid := fun _ => .ofRandom 0
    let assets : List Asset := [.script ⟨"Game", "", "Menu"⟩, .script ⟨"Game.dll", "", "Boot"⟩,
      .script ⟨"Game", "", "Menu"⟩]
    ∃ k, (materialize ⟨"out"⟩ (some (.ofGuids draw)) (Asset.scripts assets)).outcome
          ⟨tree, {}, {}⟩ =
        (.ok
          { stubsWritten := [⟨"out/Scripts/Game/Menu.cs"⟩]
            existing := [⟨"out/Scripts/Game/Boot.cs"⟩, ⟨"out/Scripts/Game/Menu.cs"⟩]
            handedOff := [⟨"out/Scripts/Game/Menu.cs"⟩, ⟨"out/Scripts/Game/Boot.cs"⟩]
            conflicts := [⟨"out/Scripts/Game/Menu.cs"⟩] }, k) ∧
      Materialized ⟨"out"⟩ (Asset.scripts assets) (Asset.scripts assets) ⟨tree, {}, {}⟩
          { stubsWritten := [⟨"out/Scripts/Game/Menu.cs"⟩]
            existing := [⟨"out/Scripts/Game/Boot.cs"⟩, ⟨"out/Scripts/Game/Menu.cs"⟩]
            handedOff := [⟨"out/Scripts/Game/Menu.cs"⟩, ⟨"out/Scripts/Game/Boot.cs"⟩]
            conflicts := [⟨"out/Scripts/Game/Menu.cs"⟩] } k := by
  intro tree draw assets
  have hreport : ((materialize ⟨"out"⟩ (some (.ofGuids draw)) (Asset.scripts assets)).outcome
      ⟨tree, {}, {}⟩).1 = .ok
        { stubsWritten := [⟨"out/Scripts/Game/Menu.cs"⟩]
          existing := [⟨"out/Scripts/Game/Boot.cs"⟩, ⟨"out/Scripts/Game/Menu.cs"⟩]
          handedOff := [⟨"out/Scripts/Game/Menu.cs"⟩, ⟨"out/Scripts/Game/Boot.cs"⟩]
          conflicts := [⟨"out/Scripts/Game/Menu.cs"⟩] } := by decide +kernel
  generalize hpass : (materialize ⟨"out"⟩ (some (.ofGuids draw)) (Asset.scripts assets)).outcome
    ⟨tree, {}, {}⟩ = pass at hreport
  obtain ⟨report, k⟩ := pass
  obtain rfl := hreport
  have hw : ∀ v ∈ some (MetadataWriter.ofGuids draw), v.CreatesOnly := by
    rintro v ⟨⟩
    exact MetadataWriter.createsOnly_ofGuids draw
  have hclimb : tree.CanClimb ⟨"out"⟩ := by
    intro before after hsteps
    have hup : Component.up ∈ (Path.mk "out").steps := by rw [hsteps]; simp
    exact absurd hup (by decide)
  obtain ⟨-, -, heffect⟩ := materialize_effect hw ⟨"out"⟩ assets hpass
  have hgame : ofGame (Asset.scripts assets) = Asset.scripts assets := by decide
  rw [hgame] at heffect
  exact ⟨k, rfl, heffect hclimb⟩

/-- A root that climbs out of a directory that is missing: neither source can be found at first, so
the first one is overwritten, and then the second one is found. -/
theorem materialize_overwrites_below_missing_directory :
    let tree := ((do
      Disk.makeDirectories ⟨"out/Scripts/Game"⟩
      Disk.writeText ⟨"out/Scripts/Game/Boot.cs"⟩ "real"
      Disk.writeText ⟨"out/Scripts/Game/Menu.cs"⟩ "real") : Disk.Operation Unit).outcome {} |>.2
    let scripts : List ScriptAsset := [⟨"Game", "", "Boot"⟩, ⟨"Game", "", "Menu"⟩]
    let pass := (materialize ⟨"new/../out"⟩ (none : Option (MetadataWriter Unit)) scripts).outcome
      ⟨tree, {}, ()⟩
    let report : ScriptReport :=
      { stubsWritten := [⟨"new/../out/Scripts/Game/Boot.cs"⟩]
        existing := [⟨"new/../out/Scripts/Game/Menu.cs"⟩] }
    pass.1 = .ok report ∧
      tree.get? ["Boot.cs", "Game", "Scripts", "out"] = some (.file "real".toUTF8 false) ∧
      pass.2.tree.get? ["Boot.cs", "Game", "Scripts", "out"] =
        some (.file (Stub.source "" "Boot").toUTF8 false) ∧
      ¬ Materialized ⟨"new/../out"⟩ scripts [] ⟨tree, {}, ()⟩ report pass.2 := by
  intro tree scripts pass report
  refine ⟨by decide +kernel, by decide +kernel, by decide +kernel, fun h => ?_⟩
  have hlate : (latecomers ⟨"new/../out"⟩ tree.occupied scripts).map (·.file ⟨"new/../out"⟩) =
      [⟨"new/../out/Scripts/Game/Boot.cs"⟩, ⟨"new/../out/Scripts/Game/Menu.cs"⟩] := by
    decide +kernel
  have hexisting := h.existing.trans hlate
  simp [report] at hexisting

end GameExport
