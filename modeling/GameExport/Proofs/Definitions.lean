import GameExport.Proofs.AssemblyDefinition

/-! # The definitions of an export

The assemblies taken down get their definitions in the order of their names. Some of them may share a
file, in one spelling of its path or in several, and then the file tells the one with the greatest
name. A definition that cannot be written ends the stage, and what was written before it stays.
-/

namespace GameExport

open GameExport.Path FileTree

/-- A file that holds the bytes of a text is read as that text. -/
theorem Disk.readText_of_file {t : FileTree} {p : Path} {l : Location} {text : String} {x : Bool}
    (hlocate : t.locate p = .ok l) (hfile : t.get? l = some (.file text.toUTF8 x)) :
    readText t p = .ok text := by
  have hread : read t p = .ok text.toUTF8 := bind_eq_ok.mpr ⟨l, hlocate, by rw [hfile]; rfl⟩
  have htext : String.fromUTF8? text.toUTF8 = some text := by
    rw [String.toUTF8_eq_toByteArray, String.fromUTF8?, dif_pos text.isValidUTF8]
    rfl
  exact bind_eq_ok.mpr ⟨text.toUTF8, hread, by rw [htext]; rfl⟩

namespace AssemblyDefinition

/-- Each definition file tells, of the assemblies whose paths lead to it, the one with the greatest
name. Elsewhere nothing differs but for missing directories on the way to the files. -/
structure Leaves (ds : List Descriptor) (t u : FileTree) : Prop where
  told : ∀ d ∈ ds, ∃ l, u.locate (path d) = .ok l ∧ ∃ e ∈ ds, u.locate (path e) = .ok l ∧
    (∀ f ∈ ds, u.locate (path f) = .ok l → f.name ≤ e.name) ∧
    Disk.readText u (path d) = .ok (ofName e.name).toJson.pretty
  elsewhere : ∀ l, (∀ d ∈ ds, u.locate (path d) ≠ .ok l) → u.get? l = t.get? l ∨
    t.get? l = none ∧ u.get? l = some .directory ∧ ∃ d ∈ ds, l ∈ t.way d.directory
  workingDirectory : u.workingDirectory = t.workingDirectory

section Leaves

variable {ds : List Descriptor} {t u : FileTree}

/-- After the writing each path leads to its place, since the folders are there. -/
theorem Writes.locate_eq_ok_iff (h : Writes ds t u) {d : Descriptor} (hd : d ∈ ds) {l : Location} :
    u.locate (path d) = .ok l ↔ (path d).place t.workingDirectory = l := by
  obtain ⟨hreaches, -⟩ := isFile_iff.mp (h.isFile d hd)
  rw [locate_eq_ok, place_congr h.grows.workingDirectory]
  exact ⟨fun hl => hl.1.symm, fun hl => ⟨hl.symm, hreaches⟩⟩

/-- In the order of the names the last one that is written to a file has the greatest name. -/
theorem Writes.leaves (h : Writes ds t u) (hsorted : ds.Pairwise fun a b => a.name < b.name) :
    Leaves ds t u where
  told d hd := by
    obtain ⟨e, hlast⟩ := Option.ne_none_iff_exists'.mp (lastAt_ne_none t.workingDirectory hd)
    obtain ⟨he, hplace, hgreatest⟩ := (lastAt_eq_some_iff hsorted).mp hlast
    have hlocate := (h.locate_eq_ok_iff hd).mpr rfl
    refine ⟨_, hlocate, e, he, (h.locate_eq_ok_iff he).mpr hplace, fun f hf hsame => ?_, ?_⟩
    · exact hgreatest f hf ((h.locate_eq_ok_iff hf).mp hsame)
    · exact Disk.readText_of_file hlocate (h.last _ e hlast)
  elsewhere l hl := by
    have hnone : lastAt t.workingDirectory ds l = none := by
      refine Option.eq_none_iff_forall_ne_some.mpr fun d hlast => ?_
      obtain ⟨hd, hplace⟩ := mem_of_lastAt_eq_some hlast
      exact hl d hd ((h.locate_eq_ok_iff hd).mpr hplace)
    rcases h.changes.outside l (fun hsome => hsome hnone) with heq | ⟨hway, hmissing, hdir⟩
    · exact Or.inl heq
    · exact Or.inr ⟨hmissing, hdir, hway⟩
  workingDirectory := h.grows.workingDirectory

end Leaves

/-- Definitions are written for all assemblies taken down that not every project compiles anyway, in
the order of their names and up to the first one that fails, and their paths are recorded. An editor
that knows no definitions gets none. -/
theorem emit_inOrder (m : DescriptorMap) (t : FileTree) (recorded : List Path) :
    (writer.emit false m).outcome (t, recorded) = (.ok 0, (t, recorded)) ∧
    (m.defined.Pairwise fun a b => a.name < b.name) ∧
    (∀ d, d ∈ m.defined ↔ m.get? d.name = some d ∧ Assembly.isPredefined d.name = false) ∧
    ((∃ u, Leaves m.defined t u ∧ (writer.emit true m).outcome (t, recorded) =
        (.ok m.defined.length, (u, recorded ++ m.defined.map path))) ∨
      ∃ before d after v e u, m.defined = before ++ d :: after ∧ Leaves before t v ∧
        Fails d v e u ∧ ChangesWithin .none (.along d.directory) v u ∧
        (writer.emit true m).outcome (t, recorded) =
          (.error e, (u, recorded ++ before.map path))) := by
  refine ⟨by rw [writer.emit_of_not_supported m Bool.false_ne_true]; rfl, m.sorted_defined,
    fun d => DescriptorMap.mem_defined_iff, ?_⟩
  rw [writer.emit_of_supported m rfl]
  rcases writeAll_cases m.defined (t, recorded) with
    ⟨u, hall, hwrites⟩ | ⟨before, d, after, v, e, u, hsplit, hwrites, hfails, hrun⟩
  · exact Or.inl ⟨u, hwrites.leaves m.sorted_defined, hall⟩
  · have hsorted := m.sorted_defined
    rw [hsplit] at hsorted
    exact Or.inr ⟨before, d, after, v, e, u, hsplit,
      hwrites.leaves (List.pairwise_append.mp hsorted).1, hfails, hfails.changesWithin, hrun⟩

/-- Two paths to one file, which tells the assembly whose name comes last. -/
example :
    let m : DescriptorMap := {
      entries := [⟨"Assembly-CSharp.dll", ⟨"out"⟩⟩, ⟨"Game:", ⟨"out/../out"⟩⟩, ⟨"Game?", ⟨"out"⟩⟩]
      sorted := by decide }
    let ended := (writer.emit true m).outcome ({}, [])
    ended.1 = .ok 2 ∧ ended.2.2 = [⟨"out/../out/Game_.asmdef"⟩, ⟨"out/Game_.asmdef"⟩] ∧
      Disk.readText ended.2.1 ⟨"out/../out/Game_.asmdef"⟩ = .ok (ofName "Game?").toJson.pretty := by
  decide +kernel

end AssemblyDefinition

end GameExport
