import GameExport.Proofs.Materialize.Step

/-! # Giving files to scripts again

After a pass every script has its files. A second pass finds them all, so it reports them and
changes nothing, and the metadata writer is not even asked.
-/

namespace GameExport

open FileTree

variable {σ : Type} {root : Path}

def ScriptAsset.ofGame (ss : List ScriptAsset) : List ScriptAsset :=
  ss.filter fun s => !s.isEngine

theorem ScriptAsset.isEngine_of_mem_ofGame {ss : List ScriptAsset} :
    ∀ s ∈ ofGame ss, s.isEngine = false := by
  intro s hs
  simpa using (List.mem_filter.mp hs).2

def ScriptAsset.files (root : Path) (ss : List ScriptAsset) : List Path :=
  (ofGame ss).map (·.file root)

def ScriptReport.allFound (root : Path) (ss : List ScriptAsset) : ScriptReport where
  existing := ScriptAsset.files root ss
  conflicts := ScriptAsset.files root ss
  skippedEngine := ss.countP (·.isEngine)

theorem ScriptReport.allFound_cons (root : Path) (s : ScriptAsset) (ss : List ScriptAsset) :
    allFound root (s :: ss) =
      (if s.isEngine then { skippedEngine := 1 }
        else { existing := [s.file root], conflicts := [s.file root] }) ++ allFound root ss := by
  show _ = ScriptReport.append _ _
  cases hengine : s.isEngine <;>
    simp [allFound, ScriptAsset.files, ScriptAsset.ofGame, append, hengine, Nat.add_comm]

/-- A pass over some scripts is a pass over the first one and then over the others. -/
theorem materialize_cons_eq_ok {w : Option (MetadataWriter σ)} {s : ScriptAsset}
    {ss : List ScriptAsset} {j k : Job σ} {r : ScriptReport} :
    (materialize root w (s :: ss)).outcome j = (.ok r, k) ↔
      ∃ first i rest, (s.materialize root w).outcome j = (.ok first, i) ∧
        (materialize root w ss).outcome i = (.ok rest, k) ∧ r = first ++ rest := by
  rw [materialize, Action.outcome_bind_eq_ok]
  constructor
  · rintro ⟨first, i, hfirst, h⟩
    obtain ⟨rest, k', hrest, h⟩ := Action.outcome_bind_eq_ok.mp h
    obtain ⟨hr, rfl⟩ := Prod.mk.inj h
    exact ⟨first, i, rest, hfirst, hrest, (Except.ok.inj hr).symm⟩
  · rintro ⟨first, i, rest, hfirst, hrest, rfl⟩
    exact ⟨first, i, hfirst, Action.outcome_bind_eq_ok.mpr ⟨rest, k, hrest, rfl⟩⟩

/-- After a pass all scripts have their files, and nothing has been taken away. -/
theorem materialize_grows {w : Option (MetadataWriter σ)} (hw : ∀ v ∈ w, v.CreatesOnly)
    {ss : List ScriptAsset} {j k : Job σ} {r : ScriptReport}
    (h : (materialize root w ss).outcome j = (.ok r, k)) :
    j.Grows k ∧ (∀ s ∈ ss, s.isEngine = false → s.HasFiles root w.isSome k.tree) ∧
      r.skippedEngine = ss.countP (·.isEngine) := by
  induction ss generalizing j r with
  | nil =>
      obtain ⟨hr, rfl⟩ := Prod.mk.inj h
      cases hr
      exact ⟨.refl _, by simp, rfl⟩
  | cons s ss ih =>
      obtain ⟨first, i, rest, hfirst, hrest, rfl⟩ := materialize_cons_eq_ok.mp h
      obtain ⟨hgrows, hfiles, hskipped⟩ := ih hrest
      rw [List.countP_cons, ScriptReport.skippedEngine_append, hskipped]
      cases hengine : s.isEngine with
      | true =>
          rw [s.materialize_of_isEngine hengine] at hfirst
          obtain ⟨hr, rfl⟩ := Prod.mk.inj hfirst
          cases hr
          refine ⟨hgrows, fun v hv hv' => ?_, by simp [Nat.add_comm]⟩
          rcases List.mem_cons.mp hv with rfl | hv
          · rw [hengine] at hv'
            cases hv'
          · exact hfiles v hv hv'
      | false =>
          obtain ⟨hgrows₁, hfiles₁, hskipped₁⟩ := s.materialize_grows hw hengine hfirst
          refine ⟨hgrows₁.trans hgrows, fun v hv hv' => ?_, by simp [hskipped₁]⟩
          rcases List.mem_cons.mp hv with rfl | hv
          · exact hfiles₁.of_grows hgrows.tree
          · exact hfiles v hv hv'

/-- A pass over scripts that all have their files changes nothing. -/
theorem materialize_of_hasFiles {ss : List ScriptAsset} {j : Job σ}
    (h : ∀ s ∈ ss, s.isEngine = false → s.HasFiles root true j.tree) (w : MetadataWriter σ) :
    (materialize root (some w) ss).outcome j = (.ok (.allFound root ss), j) := by
  induction ss with
  | nil => rfl
  | cons s ss ih =>
      have hrest := ih fun v hv => h v (List.mem_cons_of_mem s hv)
      rw [materialize_cons_eq_ok]
      rw [ScriptReport.allFound_cons]
      refine ⟨_, j, _, ?_, hrest, rfl⟩
      cases hengine : s.isEngine with
      | true => rw [s.materialize_of_isEngine hengine, Action.outcome_pure, if_pos rfl]
      | false =>
          rw [if_neg Bool.false_ne_true]
          exact s.materialize_of_hasFiles hengine (h s List.mem_cons_self hengine) w

/-- A second pass over the same scripts, with the files and assemblies of the first one, changes
nothing and reports every script as it was found, with any metadata writer. -/
theorem materialize_again {τ : Type} (draw : Nat → Guid) (assets : List Asset)
    {j k : Job GuidRecord} {r : ScriptReport}
    (h : (materialize root (some (.ofGuids draw)) (Asset.scripts assets)).outcome j = (.ok r, k))
    (w : MetadataWriter τ) (own : τ) :
    (materialize root (some w) (Asset.scripts assets)).outcome ⟨k.tree, k.descriptors, own⟩ =
      (.ok { stubsWritten := [], existing := ScriptAsset.files root (Asset.scripts assets),
             handedOff := [], conflicts := ScriptAsset.files root (Asset.scripts assets),
             skippedEngine := r.skippedEngine },
        ⟨k.tree, k.descriptors, own⟩) := by
  have hw : ∀ v ∈ some (MetadataWriter.ofGuids draw), v.CreatesOnly := by
    rintro v ⟨⟩
    exact MetadataWriter.createsOnly_ofGuids draw
  obtain ⟨-, hfiles, hskipped⟩ := materialize_grows hw h
  rw [materialize_of_hasFiles (j := ⟨k.tree, k.descriptors, own⟩) hfiles w, hskipped]
  rfl

/-- The second pass over a new project: one script comes twice and one belongs to the engine. -/
theorem materialize_again_of_new_project :
    let assets : List Asset := [.script ⟨"Game.dll", "Ui", "Menu"⟩, .other 1 "Player",
      .script ⟨"UnityEngine.UI", "", "Image"⟩, .script ⟨"Game", "Ui", "Menu"⟩]
    let pass (draw : Nat → Guid) := materialize ⟨"out"⟩ (some (.ofGuids draw)) (Asset.scripts assets)
    let files := ScriptAsset.files ⟨"out"⟩ (Asset.scripts assets)
    ∃ tree descriptors own,
      (pass fun _ => .ofRandom 0).outcome ⟨{}, {}, {}⟩ =
        (.ok
          { stubsWritten := [⟨"out/Scripts/Game/Ui/Menu.cs"⟩]
            existing := [⟨"out/Scripts/Game/Ui/Menu.cs"⟩]
            handedOff := [⟨"out/Scripts/Game/Ui/Menu.cs"⟩]
            conflicts := [⟨"out/Scripts/Game/Ui/Menu.cs"⟩]
            skippedEngine := 1 }, ⟨tree, descriptors, own⟩) ∧
      (pass fun _ => .ofRandom 1).outcome ⟨tree, descriptors, {}⟩ =
        (.ok { existing := files, conflicts := files, skippedEngine := 1 },
          ⟨tree, descriptors, {}⟩) := by
  intro assets pass files
  have hreport : ((pass fun _ => .ofRandom 0).outcome ⟨{}, {}, {}⟩).1 = .ok
      { stubsWritten := [⟨"out/Scripts/Game/Ui/Menu.cs"⟩]
        existing := [⟨"out/Scripts/Game/Ui/Menu.cs"⟩]
        handedOff := [⟨"out/Scripts/Game/Ui/Menu.cs"⟩]
        conflicts := [⟨"out/Scripts/Game/Ui/Menu.cs"⟩]
        skippedEngine := 1 } := by decide +kernel
  generalize hfirst : (pass fun _ => .ofRandom 0).outcome ⟨{}, {}, {}⟩ = first at hreport
  obtain ⟨report, job⟩ := first
  obtain rfl := hreport
  have hagain := materialize_again (fun _ => .ofRandom 0) assets hfirst
    (.ofGuids fun _ => .ofRandom 1) {}
  exact ⟨job.tree, job.descriptors, job.own, rfl, hagain⟩

end GameExport
