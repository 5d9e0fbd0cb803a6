import GameExport.Proofs.Disk.Operations
import GameExport.Proofs.Job
import GameExport.Proofs.Json.Text
import GameExport.Proofs.Script.Paths

/-! # Writing definition files

Assemblies whose names are sanitised alike share a definition file, and the last one that is written
stays in it. A definition tells its assembly, so what is in the file tells which one that was.
-/

namespace GameExport

open GameExport.Path FileTree

namespace AssemblyDefinition

def content (name : String) : ByteArray := (ofName name).toJson.pretty.toUTF8

/-- Definitions of different assemblies have different contents. -/
theorem content_injective {name other : String} (h : content name = content other) :
    name = other := by
  -- the name is the first member, and nothing else of the text depends on it
  have hframe : ∃ front back, ∀ n, (ofName n).toJson.write .pretty 0 =
      front ++ (Json.writeString n ++ back) := by
    refine ⟨'\x7b' :: Json.Layout.pretty.itemStart 0 ++ Json.writeString "name" ++
      Json.Layout.pretty.afterKey, Json.writeMembers .pretty 0
        [("references", .strings []), ("includePlatforms", .strings []),
          ("excludePlatforms", .strings []), ("allowUnsafeCode", .bool true),
          ("autoReferenced", .bool true)] ++ Json.Layout.pretty.closing 0 ++ ['\x7d'], fun n => ?_⟩
    rw [toJson, Json.write, Json.write]
    simp only [List.append_assoc, List.cons_append]
    rfl
  obtain ⟨front, back, hframe⟩ := hframe
  unfold content Json.pretty at h
  rw [String.toUTF8_eq_toByteArray, String.toUTF8_eq_toByteArray, String.toByteArray_inj,
    String.ofList_inj, hframe, hframe] at h
  exact Json.writeString_injective (List.append_cancel_right (List.append_cancel_left h))

/-! ## One definition -/

/-- A definition is not written, since its folder cannot be made or since the file cannot be. -/
inductive Fails (d : Descriptor) (t : FileTree) : Failure → FileTree → Prop where
  | creating {cause : FileError} {u : FileTree}
      (hfolder : (Disk.makeDirectories d.directory).outcome t = (.error cause, u)) :
      Fails d t (.during (.creating d.directory) (.file cause)) u
  | writing {cause : FileError} {u v : FileTree}
      (hfolder : (Disk.makeDirectories d.directory).outcome t = (.ok (), v))
      (hfile : (Disk.write (path d) (content d.name)).outcome v = (.error cause, u)) :
      Fails d t (.during (.writing (path d)) (.file cause)) u

/-- A failure leaves at most directories that have been made on the way to the folder. -/
theorem Fails.changesWithin {d : Descriptor} {t u : FileTree} {e : Failure} (h : Fails d t e u) :
    ChangesWithin .none (.along d.directory) t u := by
  have hmoves := Disk.makeDirectories_moves_along d.directory t
  cases h with
  | creating hfolder =>
      rw [hfolder] at hmoves
      exact hmoves
  | writing hfolder hfile =>
      rw [hfolder, ← Disk.write_eq_error hfile] at hmoves
      exact hmoves

/-- A definition is written and its path recorded, or nothing is recorded. -/
theorem writer_cases (d : Descriptor) (s : FileTree × List Path) :
    (∃ u, (writer d).outcome s = (.ok (), (u, s.2 ++ [path d])) ∧
      s.1.Places d.directory (path d) (content d.name) u) ∨
    ∃ e u, (writer d).outcome s = (.error e, (u, s.2)) ∧ Fails d s.1 e u := by
  unfold writer
  rcases hfolder : (Disk.makeDirectories d.directory).outcome s.1 with ⟨⟨cause⟩ | ⟨⟨⟩⟩, v⟩
  · refine Or.inr ⟨_, v, ?_, .creating hfolder⟩
    refine Action.outcome_bind_eq_error.mpr (.inl (Action.outcome_during_eq_error.mpr ?_))
    exact ⟨_, Work.outcome_files_eq_error.mpr ⟨v, cause, hfolder, rfl, rfl⟩, rfl⟩
  rw [Action.outcome_bind, Action.outcome_during_eq_ok.mpr (Work.outcome_files_eq_ok.mpr
    ⟨v, hfolder, rfl⟩)]
  dsimp only
  rcases hfile : (Disk.write (path d) (content d.name)).outcome v with ⟨⟨cause⟩ | ⟨⟨⟩⟩, u⟩
  · refine Or.inr ⟨_, u, ?_, .writing hfolder hfile⟩
    refine Action.outcome_bind_eq_error.mpr (.inl (Action.outcome_during_eq_error.mpr ?_))
    exact ⟨_, Work.outcome_files_eq_error.mpr ⟨u, cause, hfile, rfl, rfl⟩, rfl⟩
  · refine Or.inl ⟨u, ?_, Disk.places_of_eq_ok hfolder hfile⟩
    refine Action.outcome_bind_eq_ok.mpr ⟨(), (u, s.2), ?_, rfl⟩
    exact Action.outcome_during_eq_ok.mpr (Work.outcome_files_eq_ok.mpr ⟨u, hfile, rfl⟩)

/-- A definition file that is there can be written again. -/
theorem not_fails {root : Path} {d : Descriptor} {t u : FileTree} {e : Failure}
    (hd : d.IsPlaced root) (hdirectory : t.isDirectory d.directory) (hfile : t.isFile (path d)) :
    ¬ Fails d t e u := by
  obtain ⟨n, hn⟩ := hd.getLast?_directory
  obtain ⟨k, hk⟩ := hd.getLast?_path
  have hmake := Disk.makeDirectories_of_isDirectory hdirectory hn
  obtain ⟨v, hwrite⟩ := Disk.write_of_isFile (content d.name) hfile hk
  intro h
  cases h with
  | creating hfolder =>
      rw [hmake] at hfolder
      cases hfolder
  | writing hfolder hfails =>
      rw [hmake] at hfolder
      obtain ⟨-, rfl⟩ := Prod.mk.inj hfolder
      rw [hwrite] at hfails
      cases hfails

/-! ## The last definition in a file -/

/-- The last one of some assemblies whose definition file stands at a location. -/
def lastAt (start : Location) : List Descriptor → Location → Option Descriptor
  | [], _ => none
  | d :: ds, m => (lastAt start ds m).or (if (path d).place start = m then some d else none)

section LastAt

variable {start m : Location} {d : Descriptor} {ds : List Descriptor}

/-- The last assembly of a location is one of the list, and its path leads there. -/
theorem mem_of_lastAt_eq_some (h : lastAt start ds m = some d) :
    d ∈ ds ∧ (path d).place start = m := by
  induction ds with
  | nil => cases h
  | cons e ds ih =>
      rw [lastAt, Option.or_eq_some_iff] at h
      rcases h with h | ⟨-, h⟩
      · exact ⟨List.mem_cons_of_mem e (ih h).1, (ih h).2⟩
      · split at h
        · next hplace =>
            obtain rfl := Option.some.inj h
            exact ⟨List.mem_cons_self, hplace⟩
        · cases h

/-- A listed assembly has a last one at its location, be it itself or another one. -/
theorem lastAt_ne_none (start : Location) (h : d ∈ ds) :
    lastAt start ds ((path d).place start) ≠ none := by
  induction ds with
  | nil => cases h
  | cons e ds ih =>
      rw [lastAt, ne_eq, Option.or_eq_none_iff, not_and]
      intro hrest
      rcases List.mem_cons.mp h with rfl | h
      · simp
      · exact absurd hrest (ih h)

/-- In the order of names, the last one has the greatest name. -/
theorem lastAt_eq_some_iff (hsorted : ds.Pairwise fun a b => a.name < b.name) :
    lastAt start ds m = some d ↔
      d ∈ ds ∧ (path d).place start = m ∧
        ∀ e ∈ ds, (path e).place start = m → e.name ≤ d.name := by
  have hgreatest {d : Descriptor} (h : lastAt start ds m = some d) :
      ∀ e ∈ ds, (path e).place start = m → e.name ≤ d.name := by
    induction ds with
    | nil => cases h
    | cons a ds ih =>
        obtain ⟨hfirst, hrest⟩ := List.pairwise_cons.mp hsorted
        intro e he hplace
        rw [lastAt, Option.or_eq_some_iff] at h
        rcases h with h | ⟨hnone, h⟩
        · rcases List.mem_cons.mp he with rfl | he
          · exact String.not_lt.mp (String.lt_asymm (hfirst d (mem_of_lastAt_eq_some h).1))
          · exact ih hrest h e he hplace
        · split at h
          · obtain rfl := Option.some.inj h
            rcases List.mem_cons.mp he with rfl | he
            · exact String.le_refl _
            · exact absurd hnone (hplace ▸ lastAt_ne_none start he)
          · cases h
  constructor
  · intro h
    obtain ⟨hd, hplace⟩ := mem_of_lastAt_eq_some h
    exact ⟨hd, hplace, hgreatest h⟩
  -- some assembly is the last one there, and no other has the greatest name
  · rintro ⟨hd, rfl, hmax⟩
    obtain ⟨e, he⟩ := Option.ne_none_iff_exists'.mp (lastAt_ne_none start hd)
    obtain ⟨hmem, hplace⟩ := mem_of_lastAt_eq_some he
    have hname := String.le_antisymm (hmax e hmem hplace) (hgreatest he d hd rfl)
    rw [he, DescriptorMap.eq_of_name_eq hsorted hmem hd hname]

end LastAt

/-! ## All definitions -/

/-- Definitions have been written for some assemblies, one after the other. Each file tells the last
assembly that it was written for, and elsewhere at most missing directories have been made. -/
structure Writes (ds : List Descriptor) (t u : FileTree) : Prop where
  grows : Grows t u
  isDirectory : ∀ d ∈ ds, d.directory.text ≠ "" → u.isDirectory d.directory
  isFile : ∀ d ∈ ds, u.isFile (path d)
  last : ∀ m d, lastAt t.workingDirectory ds m = some d →
    u.get? m = some (.file (content d.name) (t.isExecutableAt m))
  changes : ChangesWithin (fun l m => lastAt l ds m ≠ none)
    (fun l m => ∃ d ∈ ds, m ∈ d.directory.way l) t u

namespace Writes

variable {d : Descriptor} {ds : List Descriptor} {t u v : FileTree}

theorem nil (t : FileTree) : Writes [] t t := ⟨.refl t, nofun, nofun, nofun, .refl t⟩

/-- What stands where no definition was written stays. -/
theorem kept (h : Writes ds t u) {m : Location} {e : Entry}
    (hnone : lastAt t.workingDirectory ds m = none) (hm : t.get? m = some e) :
    u.get? m = some e := by
  rcases h.changes.outside m (fun hsome => hsome hnone) with heq | ⟨-, hmissing, -⟩
  · rw [heq, hm]
  · rw [hm] at hmissing
    cases hmissing

/-- The first definition is written, and then the others over what it left. -/
theorem cons (hfirst : t.Places d.directory (path d) (content d.name) v)
    (hrest : Writes ds v u) : Writes (d :: ds) t u where
  grows := hfirst.grows.trans hrest.grows
  isDirectory e he hne := by
    rcases List.mem_cons.mp he with rfl | he
    · exact hrest.grows.isDirectory (hfirst.isDirectory hne)
    · exact hrest.isDirectory e he hne
  isFile e he := by
    rcases List.mem_cons.mp he with rfl | he
    · exact hrest.grows.isFile hfirst.isFile
    · exact hrest.isFile e he
  last m e hm := by
    have hlast := hrest.last m
    rw [hfirst.workingDirectory] at hlast
    rw [lastAt, Option.or_eq_some_iff] at hm
    rcases hm with hm | ⟨hnone, hm⟩
    · rw [hlast e hm, hfirst.isExecutableAt_eq]
    · split at hm
      · next hplace =>
          obtain rfl := Option.some.inj hm
          subst hplace
          exact hrest.kept (by rwa [hfirst.workingDirectory]) hfirst.self
      · cases hm
  changes := by
    refine .trans (hfirst.changesWithin.mono ?_ ?_) (hrest.changes.mono ?_ ?_)
    · intro l m hm
      have hplace : m = (path d).place l := hm
      rw [hplace]
      exact lastAt_ne_none l List.mem_cons_self
    · exact fun l m hm => Or.inr ⟨d, List.mem_cons_self, hm⟩
    · intro l m hlater
      rw [lastAt, ne_eq, Option.or_eq_none_iff]
      exact fun h => hlater h.1
    · exact fun l m ⟨e, he, hm⟩ => Or.inr ⟨e, List.mem_cons_of_mem d he, hm⟩

/-- Files where no definition was written were there before. -/
theorem file_of_file (h : Writes ds t u) {m : Location}
    (hnone : lastAt t.workingDirectory ds m = none) {c : ByteArray} {x : Bool}
    (hm : u.get? m = some (.file c x)) : t.get? m = some (.file c x) := by
  rcases h.changes.outside m (fun hsome => hsome hnone) with heq | ⟨-, -, hdir⟩
  · rw [← heq, hm]
  · rw [hdir] at hm
    cases hm

end Writes

/-- All definitions are written, or those before the first one that fails are. The record tells
which ones. -/
theorem writeAll_cases (ds : List Descriptor) (s : FileTree × List Path) :
    (∃ u, (writer.writeAll ds).outcome s = (.ok ds.length, (u, s.2 ++ ds.map path)) ∧
      Writes ds s.1 u) ∨
    ∃ before d after v e u, ds = before ++ d :: after ∧ Writes before s.1 v ∧ Fails d v e u ∧
      (writer.writeAll ds).outcome s = (.error e, (u, s.2 ++ before.map path)) := by
  induction ds generalizing s with
  | nil => exact Or.inl ⟨s.1, by rw [List.map_nil, List.append_nil]; rfl, .nil s.1⟩
  | cons d ds ih =>
      rw [DefinitionWriter.writeAll]
      have hrecord (ps : List Path) : s.2 ++ path d :: ps = s.2 ++ [path d] ++ ps :=
        List.append_cons s.2 (path d) ps
      rcases writer_cases d s with ⟨v, hfirst, hplaces⟩ | ⟨e, u, hfirst, hfails⟩
      · rcases ih (v, s.2 ++ [path d]) with
          ⟨u, hrest, hwrites⟩ | ⟨before, a, after, w, e, u, rfl, hwrites, hfails, hrest⟩
        · refine Or.inl ⟨u, ?_, .cons hplaces hwrites⟩
          refine Action.outcome_bind_eq_ok.mpr ⟨(), _, hfirst, ?_⟩
          refine Action.outcome_bind_eq_ok.mpr ⟨ds.length, _, hrest, ?_⟩
          rw [List.map_cons, hrecord (ds.map path)]
          rfl
        · refine Or.inr ⟨d :: before, a, after, w, e, u, rfl, .cons hplaces hwrites, hfails, ?_⟩
          refine Action.outcome_bind_eq_error.mpr (.inr ⟨(), _, hfirst, ?_⟩)
          rw [List.map_cons, hrecord (before.map path)]
          exact Action.outcome_bind_eq_error.mpr (.inl hrest)
      · refine Or.inr ⟨[], d, ds, s.1, e, u, rfl, .nil s.1, hfails, ?_⟩
        rw [List.map_nil, List.append_nil]
        exact Action.outcome_bind_eq_error.mpr (.inl hfirst)

/-- What has been written is counted and recorded in the order of the list. -/
theorem writeAll_eq_ok {ds : List Descriptor} {s u : FileTree × List Path} {n : Nat}
    (h : (writer.writeAll ds).outcome s = (.ok n, u)) :
    n = ds.length ∧ u.2 = s.2 ++ ds.map path ∧ Writes ds s.1 u.1 := by
  rcases writeAll_cases ds s with ⟨v, hv, hwrites⟩ | ⟨_, _, _, _, e, v, -, -, -, hv⟩
  · rw [hv] at h
    obtain ⟨hn, rfl⟩ := Prod.mk.inj h
    exact ⟨(Except.ok.inj hn).symm, rfl, hwrites⟩
  · rw [hv] at h
    cases h

/-- Definition files that were there have been written again. Their modes have stayed. -/
structure Rewrites (ds : List Descriptor) (t u : FileTree) : Prop where
  last : ∀ m d, lastAt t.workingDirectory ds m = some d →
    u.get? m = some (.file (content d.name) (t.isExecutableAt m))
  other : ∀ m, lastAt t.workingDirectory ds m = none → u.get? m = t.get? m

theorem Writes.rewrites {ds : List Descriptor} {t u : FileTree} (h : Writes ds t u)
    (hthere : ∀ d ∈ ds, t.isDirectory d.directory) : Rewrites ds t u where
  last := h.last
  other m hm := by
    rcases h.changes.outside m (fun hsome => hsome hm) with heq | ⟨⟨d, hd, hway⟩, hmissing, -⟩
    · exact heq
    -- no directory on the way to one that is there is missing
    · rw [directory_of_mem_way (hthere d hd) hway] at hmissing
      cases hmissing

/-- Where all directories and files are there, definitions can be written again, and only the
content of the files changes. -/
theorem writeAll_of_isFile {root : Path} {ds : List Descriptor} (hds : ∀ d ∈ ds, d.IsPlaced root)
    {s : FileTree × List Path}
    (hthere : ∀ d ∈ ds, s.1.isDirectory d.directory ∧ s.1.isFile (path d)) :
    ∃ n u, (writer.writeAll ds).outcome s = (.ok n, u) ∧ Rewrites ds s.1 u.1 := by
  rcases writeAll_cases ds s with
    ⟨u, hall, hwrites⟩ | ⟨before, d, after, v, e, u, rfl, hwrites, hfails, -⟩
  · exact ⟨_, _, hall, hwrites.rewrites fun d hd => (hthere d hd).1⟩
  · have hd : d ∈ before ++ d :: after := List.mem_append_right _ List.mem_cons_self
    exact absurd hfails (not_fails (hds d hd) (hwrites.grows.isDirectory (hthere d hd).1)
      (hwrites.grows.isFile (hthere d hd).2))

end AssemblyDefinition

/-- Definitions are written in the order of the names, each name once. -/
theorem DescriptorMap.sorted_defined (m : DescriptorMap) :
    m.defined.Pairwise fun a b => a.name < b.name :=
  m.sorted.filter _

/-- A definition is written for what is taken down, unless the editor has the assembly of itself. -/
theorem DescriptorMap.mem_defined_iff {m : DescriptorMap} {d : Descriptor} :
    d ∈ m.defined ↔ m.get? d.name = some d ∧ Assembly.isPredefined d.name = false := by
  rw [defined, List.mem_filter, mem_entries_iff, Bool.not_eq_true']

theorem DefinitionWriter.emit_of_supported {σ : Type} (w : DefinitionWriter σ) (m : DescriptorMap)
    {supported : Bool} (h : supported) : w.emit supported m = w.writeAll m.defined := by
  rw [emit, if_pos h]

theorem DefinitionWriter.emit_of_not_supported {σ : Type} (w : DefinitionWriter σ)
    (m : DescriptorMap) {supported : Bool} (h : ¬ supported) : w.emit supported m = pure 0 := by
  rw [emit, if_neg h]

end GameExport
