import GameExport.Proofs.CommandLine.Export
import GameExport.Proofs.Export.Renaming
import Mathlib.Logic.Equiv.Basic

/-! # Random names stay inside

The folders of a workspace have random names. Two exports that draw different ones go side by side:
what they unpack differs in the names of these folders only, and none of these names reaches the
output, the summary, or the decision whether the export succeeds.
-/

namespace GameExport

open GameExport.Path FileTree

/-! ## Names that are drawn -/

/-- Two rows of different members are turned into each other by a permutation that moves nothing
else. -/
theorem exists_perm_map_eq {α : Type} [DecidableEq α] {as bs : List α}
    (hlength : as.length = bs.length) (has : as.Nodup) (hbs : bs.Nodup) :
    ∃ f : Equiv.Perm α, as.map f = bs ∧ ∀ x, x ∉ as → x ∉ bs → f x = x := by
  induction as generalizing bs with
  | nil =>
      obtain rfl := List.length_eq_zero_iff.mp hlength.symm
      exact ⟨Equiv.refl α, rfl, fun _ _ _ => rfl⟩
  | cons a as ih =>
      obtain ⟨b, bs, rfl⟩ := List.exists_cons_of_length_eq_add_one hlength.symm
      obtain ⟨ha, has⟩ := List.nodup_cons.mp has
      obtain ⟨hb, hbs⟩ := List.nodup_cons.mp hbs
      obtain ⟨f, hmap, hfix⟩ := ih (Nat.succ.inj hlength) has hbs
      -- the first members are exchanged last, so that the others stay where they have been put
      refine ⟨f.trans (Equiv.swap (f a) b), ?_, fun x hx hx' => ?_⟩
      · rw [List.map_cons, Equiv.trans_apply, Equiv.swap_apply_left, ← hmap, List.cons.injEq]
        refine ⟨rfl, List.map_congr_left fun x hx => ?_⟩
        rw [Equiv.trans_apply]
        apply Equiv.swap_apply_of_ne_of_ne
        · intro heq
          exact ha (f.injective heq ▸ hx)
        · rintro rfl
          exact hb (hmap ▸ List.mem_map_of_mem hx)
      · rw [List.mem_cons, not_or] at hx hx'
        have hstays := hfix x hx.2 hx'.2
        rw [Equiv.trans_apply, hstays]
        refine Equiv.swap_apply_of_ne_of_ne (fun heq => hx.1 ?_) hx'.1
        exact f.injective (hstays.trans heq)

namespace Names

variable (names names' : Names) (length : Nat)

def upcoming (count : Nat) : List String :=
  (List.range count).map fun k => names.name length (names.drawn + k)

theorem length_upcoming (count : Nat) : (names.upcoming length count).length = count := by
  rw [upcoming, List.length_map, List.length_range]

/-- Names drawn by one source are turned into those drawn by another one, and only such names are
turned into others. -/
theorem exists_perm_upcoming {count : Nat} (h : (names.upcoming length count).Nodup)
    (h' : (names'.upcoming length count).Nodup) :
    ∃ f : Equiv.Perm String,
      (∀ k < count, f (names.name length (names.drawn + k)) =
        names'.name length (names'.drawn + k)) ∧
      ∀ n, f n ≠ n →
        n ∈ names.upcoming length count ++ names'.upcoming length count ∧
        f n ∈ names.upcoming length count ++ names'.upcoming length count := by
  obtain ⟨f, hmap, hfix⟩ := exists_perm_map_eq
    (by rw [length_upcoming, length_upcoming]) h h'
  have hdrawn (n : String) (hn : f n ≠ n) :
      n ∈ names.upcoming length count ++ names'.upcoming length count := by
    by_contra hnot
    rw [List.mem_append, not_or] at hnot
    exact hn (hfix n hnot.1 hnot.2)
  refine ⟨f, fun k hk => ?_, fun n hn => ⟨hdrawn n hn, hdrawn _ fun hself => hn ?_⟩⟩
  · rw [upcoming, upcoming, List.map_map, List.map_inj_left] at hmap
    exact hmap k (List.mem_range.mpr hk)
  · exact f.injective hself

theorem utf8ByteSize_name (k : Nat) : (names.name length k).utf8ByteSize = length := by
  have hall : nameAlphabet.toList.all (·.utf8Size = 1) = true := by decide
  have hone : ∀ c ∈ nameAlphabet.toList, c.utf8Size = 1 := fun c hc =>
    of_decide_eq_true (List.all_eq_true.mp hall c hc)
  have hsize (cs : List Char) (hcs : ∀ c ∈ cs, c.utf8Size = 1) :
      (String.ofList cs).utf8ByteSize = cs.length := by
    induction cs with
    | nil => rfl
    | cons c cs ih =>
        rw [String.ofList_cons, String.utf8ByteSize_append, String.utf8ByteSize_singleton,
          hcs c List.mem_cons_self, ih fun d hd => hcs d (List.mem_cons_of_mem c hd),
          List.length_cons, Nat.add_comm]
  rw [name, hsize, List.length_map, List.length_range]
  intro c hc
  exact hone c (mem_nameAlphabet (by rw [name, String.toList_ofList]; exact hc))

/-- Random names of one length are taken alike as paths. -/
theorem alike_name (j k : Nat) : Alike ⟨names.name length j⟩ ⟨names'.name length k⟩ := by
  have hzero (names : Names) (k : Nat) : '\x00' ∉ (names.name length k).toList := fun h =>
    absurd (mem_nameAlphabet h) (by decide)
  have hslash (names : Names) (k : Nat) : (Path.mk (names.name length k)).endsInSlash = false := by
    refine decide_eq_false fun h => ?_
    exact absurd (mem_nameAlphabet (List.mem_of_getLast? h)) (by decide)
  refine ⟨?_, ?_, ?_, ?_⟩
  · rw [utf8ByteSize_name, utf8ByteSize_name]
  · exact iff_of_false (hzero names j) (hzero names' k)
  · rw [not_isAbsolute_name, not_isAbsolute_name]
  · rw [hslash, hslash]

/-- A random name is one step of a path. -/
theorem isName_of_mem_upcoming (hlength : 0 < length) {count : Nat} {n : String}
    (h : n ∈ names.upcoming length count) : IsName n := by
  obtain ⟨k, -, rfl⟩ := List.mem_map.mp h
  exact names.isName_name hlength _

/-- No system takes one random name and refuses another one of the same length. -/
theorem alike_of_mem_upcoming {count : Nat} {n n' : String}
    (h : n ∈ names.upcoming length count ++ names'.upcoming length count)
    (h' : n' ∈ names.upcoming length count ++ names'.upcoming length count) :
    Alike ⟨n⟩ ⟨n'⟩ := by
  have hrandom (m : String)
      (hm : m ∈ names.upcoming length count ++ names'.upcoming length count) :
      ∃ (source : Names) (k : Nat), m = source.name length k := by
    rcases List.mem_append.mp hm with hm | hm <;> obtain ⟨k, -, rfl⟩ := List.mem_map.mp hm <;>
      exact ⟨_, _, rfl⟩
  obtain ⟨source, k, rfl⟩ := hrandom n h
  obtain ⟨source', k', rfl⟩ := hrandom n' h'
  exact source.alike_name source' length k k'

end Names

/-! ## A workspace that has been opened -/

namespace Workspace

variable {root : Path} {config : WorkspaceConfig} {t₀ t : FileTree} {w : Workspace}

/-- Nothing is in a workspace that has been opened at a path that never climbs. -/
theorem get?_of_prepare (h : (prepare root config).outcome t₀ = (.ok w, t))
    (hclimb : .up ∉ root.steps) (hne : root.text ≠ "") {n : String} :
    t.get? (n :: t.place root) = none := by
  obtain ⟨-, v, hclear, hmake⟩ := prepare_eq_ok h
  obtain ⟨hworking, hisDirectory, hmade⟩ := Disk.makeDirectories_eq_ok hmake
  obtain ⟨hreaches, hdirectory⟩ := isDirectory_iff.mp (hisDirectory hne)
  have hbelow : ¬ n :: t.place root <:+ t.place root := by
    intro hle
    have hlength := hle.length_le
    rw [List.length_cons] at hlength
    omega
  have hplace : t.place root = v.place root := place_congr hworking root
  rw [hplace] at hbelow ⊢
  have hway : n :: v.place root ∉ v.way root := fun hm => hbelow (suffix_place_of_mem_way hclimb hm)
  rw [hmade, if_neg hway]
  rw [outcome_clear] at hclear
  split at hclear
  · -- what was found at the root has been removed with all that it held
    have hloses := (Disk.removeDirectory_loses hclear).2
    rcases hloses.get? (n :: v.place root) with hsame | hnone
    · rw [hsame, place_congr hloses.workingDirectory, get?_emptyAt _ _ (by simp), if_pos]
      refine ⟨List.suffix_cons _ _, fun heq => ?_⟩
      exact Nat.succ_ne_self _ (congrArg List.length heq)
    · exact hnone
  · -- had there been something in the workspace, its root would have been found
    next hmissing =>
      obtain ⟨-, rfl⟩ := Prod.mk.inj hclear
      by_contra hthere
      obtain ⟨e, he⟩ := Option.ne_none_iff_exists'.mp hthere
      have habove {m : Location} (hm : m <:+ t₀.place root) : t₀.get? m = some .directory := by
        apply get?_of_suffix he (hm.trans (List.suffix_cons _ _))
        rintro rfl
        exact hbelow hm
      have hfound : t₀.Reaches root := by
        refine hreaches.of_agree hclimb hworking.symm fun m hm => ?_
        rw [habove (hplace ▸ hm)]
        by_cases heq : m = t.place root
        · rw [heq, hdirectory]
        · rw [get?_of_suffix hdirectory hm heq]
      refine hmissing (contains_iff.mpr ⟨hfound, ?_⟩)
      rw [habove List.suffix_rfl]
      rfl

end Workspace

/-! ## Two exports side by side -/

/-- A path that never climbs and leads neither to a directory nor below it. -/
structure Path.StaysOut (p : Path) (t : FileTree) (root : Path) : Prop where
  never_climbs : .up ∉ p.components
  apart : ¬ t.place root <:+ t.place p

/-- No path of a manifest leads into a workspace, nor does any assembly that is looked for in an
input that is taken as it is. -/
structure Manifest.StaysOut (m : Manifest) (t : FileTree) (root : Path) : Prop where
  inputs : ∀ p ∈ m.inputs, p.StaysOut t root
  assemblies : ∀ a ∈ m.assemblies, a.StaysOut t root
  joined : ∀ p ∈ m.inputs, Workspace.isUnpacked t p = false →
    ∀ a ∈ m.assemblies, (p.join a).StaysOut t root

namespace CommandLine

open Renaming

variable {ρ : Renaming} {w : Workspace} {m : Manifest} {t : FileTree} {output : Path}
  {δ μ : Type} {d : Decompiler δ} {settings : DecompileSettings}

/-- A path that stays out of the workspace is not renamed. -/
theorem renamesPath_of_staysOut (hfits : ρ.Fits w) (hhome : t.workingDirectory = ρ.home) {p : Path}
    (hp : p.StaysOut t w.root) : ρ.RenamesPath p p := by
  refine .of_not_below (fun h => hp.never_climbs ((mem_components (by simp)).mpr h)) ?_
  rw [hfits.base, ← hhome]
  exact hp.apart

/-- Exports whose names correspond end alike, and their files correspond. -/
theorem exportStaged_agree (hfits : ρ.Fits w) (hlength : 0 < w.nameLength)
    (hhome : t.workingDirectory = ρ.home) (hm : m.StaysOut t w.root) (houtput : ρ.Spares output)
    (hd : d.IsOblivious settings ρ.base) (version : Version) (decompiler : δ) (metadata : μ)
    (definitions : List Path) :
    (exportStaged ⟨d, none, AssemblyDefinition.writer⟩ w m settings version output decompiler
        metadata definitions).Parallel
      (fun s u => ρ.RenamesStage w m.inputs.length s u ∧ Grows t s.tree)
      (fun s u => ρ.RenamesTree s.tree u.tree) (fun _ _ => True) (fun x y => x.1 = y.1)
      (exportStaged ⟨d, none, AssemblyDefinition.writer⟩ w m settings version output decompiler
        metadata definitions) := by
  have hinputs : ∀ p ∈ m.inputs, ρ.RenamesPath p p :=
    fun p hp => renamesPath_of_staysOut hfits hhome (hm.inputs p hp)
  unfold exportStaged
  have hstage : (w.stage m.inputs).Parallel
      (fun s u => ρ.RenamesStage w m.inputs.length s u ∧ Grows t s.tree)
      (fun s u => ρ.RenamesTree s.tree u.tree) (fun _ _ => True)
      (List.Forall₂ (ρ.RenamesStaged w fun p => p ∈ m.inputs ∧ Workspace.isUnpacked t p = false))
      (w.stage m.inputs) :=
    Workspace.stage_parallel hfits hlength hinputs t fun p hp h => ⟨hp, h⟩
  refine .andThen (hstage.mapError fun _ _ _ => trivial) fun ps qs hstaged => ?_
  refine .ask_bind (V := List.Forall₂ ρ.RenamesAssembly) (fun s u htree => ?_) ?_
  · refine m.resolveAssemblies_renames hfits htree hstaged ?_ fun a ha => ?_
    · rintro p ⟨hp, hunpacked⟩
      refine ⟨hinputs p hp, fun a ha => ?_⟩
      exact renamesPath_of_staysOut hfits hhome (hm.joined p hp hunpacked a ha)
    · refine ⟨renamesPath_of_staysOut hfits hhome (hm.assemblies a ha), fun hclimb => ?_⟩
      exact (hm.assemblies a ha).never_climbs ((mem_components (by simp)).mpr hclimb)
  · intro as bs hassemblies s u htree
    have hrequests : Exporter.RequestsAgree ρ ⟨m.assets, as, settings, version⟩
        ⟨m.assets, bs, settings, version⟩ := ⟨rfl, hassemblies, rfl, rfl⟩
    obtain ⟨hstates, hends⟩ := Exporter.exportAll_agree houtput hd hrequests
      { tree := s.tree, decompiler, metadata, definitions }
      { tree := u.tree, decompiler, metadata, definitions } ⟨htree, rfl, List.forall_mem_nil _⟩
    simp only [Action.outcome_of]
    refine ⟨hstates.tree, ?_⟩
    generalize (Action.outcome _ (ExportState.mk s.tree _ _ _ _)).1 = x at hends
    generalize (Action.outcome _ (ExportState.mk u.tree _ _ _ _)).1 = y at hends
    cases hends with
    | ok h => exact .ok h
    | error h => exact .error trivial

/-- None of the names is known in the workspace. This is asked only where it does not go without
saying: when the process works in a directory that is gone, when the output climbs out of folders
that it names, and when the path of the workspace climbs or is empty, so that the workspace need not
be empty although it has just been opened. -/
structure AreNew (w : Workspace) (t : FileTree) (output : Path) (drawn : List String) : Prop where
  working : t.get? t.workingDirectory = none →
    ∀ n ∈ drawn, ¬ t.place (w.folder n) <:+ t.workingDirectory
  output : .up ∈ output.steps → ∀ n ∈ drawn, ∀ l ∈ t.way output, ¬ t.place (w.folder n) <:+ l
  unused : .up ∈ w.root.steps ∨ w.root.text = "" →
    ∀ n ∈ drawn, t.get? (t.place (w.folder n)) = none

namespace AreNew

variable {drawn drawn' : List String} {n : String} {l : Location}

theorem append (h : AreNew w t output drawn) (h' : AreNew w t output drawn') :
    AreNew w t output (drawn ++ drawn') where
  working hgone n hn := (List.mem_append.mp hn).elim (h.working hgone n) (h'.working hgone n)
  output hclimb n hn := (List.mem_append.mp hn).elim (h.output hclimb n) (h'.output hclimb n)
  unused hspecial n hn :=
    (List.mem_append.mp hn).elim (h.unused hspecial n) (h'.unused hspecial n)

section Opened

variable {config : WorkspaceConfig} {t₀ : FileTree}
  (hopen : (Workspace.prepare w.root config).outcome t₀ = (.ok w, t))

include hopen

/-- Nothing stands in a folder with a new name. -/
theorem get?_eq_none (h : AreNew w t output drawn) (hn : n ∈ drawn) (hname : IsName n) :
    t.get? (n :: t.place w.root) = none := by
  by_cases hspecial : .up ∈ w.root.steps ∨ w.root.text = ""
  · have hunused := h.unused hspecial n hn
    rwa [FileTree.place, w.place_folder hname] at hunused
  · rw [not_or] at hspecial
    exact Workspace.get?_of_prepare hopen hspecial.1 hspecial.2

/-- The process does not work in a folder with a new name. -/
theorem not_suffix_workingDirectory (h : AreNew w t output drawn) (hn : n ∈ drawn)
    (hname : IsName n) : ¬ n :: t.place w.root <:+ t.workingDirectory := by
  intro hbelow
  refine h.working (get?_eq_none_of_suffix (h.get?_eq_none hopen hn hname) hbelow) n hn ?_
  rwa [FileTree.place, w.place_folder hname]

/-- The way to the workspace is there, so it leads through no folder with a new name. -/
theorem not_suffix_of_mem_way_root (h : AreNew w t output drawn) (hn : n ∈ drawn) (hname : IsName n)
    (hl : l ∈ t.way w.root) : ¬ n :: t.place w.root <:+ l := by
  intro hbelow
  obtain ⟨-, v, -, hmake⟩ := Workspace.prepare_eq_ok hopen
  obtain ⟨-, hisDirectory, -⟩ := Disk.makeDirectories_eq_ok hmake
  have hne : w.root.text ≠ "" := by
    intro hempty
    rw [FileTree.way, Path.way, steps_of_text_eq_empty hempty] at hl
    cases hl
  have hthere := directory_of_mem_way (hisDirectory hne) hl
  rw [get?_eq_none_of_suffix (h.get?_eq_none hopen hn hname) hbelow] at hthere
  cases hthere

end Opened

/-- The way to the output leads through no folder with a new name. -/
theorem not_suffix_of_mem_way_output (h : AreNew w t output drawn)
    (hapart : (t.place output).Apart (t.place w.root)) (hn : n ∈ drawn) (hname : IsName n)
    (hl : l ∈ t.way output) : ¬ n :: t.place w.root <:+ l := by
  intro hbelow
  by_cases hclimb : .up ∈ output.steps
  · refine h.output hclimb n hn l hl ?_
    rwa [FileTree.place, w.place_folder hname]
  · have habove : l <:+ t.place output := suffix_place_of_mem_way hclimb hl
    exact hapart.2 (((List.suffix_cons _ _).trans hbelow).trans habove)

end AreNew

structure DrawsNew (w : Workspace) (t : FileTree) (output : Path) (names : Names) (count : Nat) :
    Prop extends AreNew w t output (names.upcoming w.nameLength count) where
  distinct : (names.upcoming w.nameLength count).Nodup

/-! ### Trading names -/

/-- Only some names are turned into others, and into one another. They are names of folders, and no
system takes the one and refuses the other. -/
structure Trades (f : Equiv.Perm String) (drawn : List String) : Prop where
  isName : ∀ n ∈ drawn, IsName n
  alike : ∀ n ∈ drawn, ∀ n' ∈ drawn, Alike ⟨n⟩ ⟨n'⟩
  moved : ∀ n, f n ≠ n → n ∈ drawn ∧ f n ∈ drawn

namespace Trades

variable {f : Equiv.Perm String} {drawn : List String} {n : String}

theorem alike_apply (h : Trades f drawn) (n : String) : Alike ⟨n⟩ ⟨f n⟩ := by
  by_cases hn : f n = n
  · rw [hn]
    exact .refl _
  · exact h.alike n (h.moved n hn).1 (f n) (h.moved n hn).2

theorem apply_eq_self (h : Trades f drawn) (hn : n ∉ drawn) : f n = n := by
  by_contra hmoved
  exact hn (h.moved n hmoved).1

theorem apply_mem (h : Trades f drawn) (hn : n ∈ drawn) : f n ∈ drawn := by
  by_cases hself : f n = n
  · rwa [hself]
  · exact (h.moved n hself).2

end Trades

section Trading

variable {config : WorkspaceConfig} {t₀ : FileTree} {drawn : List String} {f : Equiv.Perm String}
  (hopen : (Workspace.prepare w.root config).outcome t₀ = (.ok w, t))
  (hnew : AreNew w t output drawn) (hf : Trades f drawn)

/-- The folders of an open workspace trade their names. -/
def trading : Renaming where
  base := t.place w.root
  home := t.workingDirectory
  names := f
  alike := hf.alike_apply
  stays n hbelow := hf.apply_eq_self fun hn =>
    hnew.not_suffix_workingDirectory hopen hn (hf.isName n hn) hbelow

/-- A location that is in none of the folders stays where it is. -/
theorem location_trading {l : Location} (h : ∀ n ∈ drawn, ¬ n :: t.place w.root <:+ l) :
    (trading hopen hnew hf).location l = l :=
  (trading hopen hnew hf).location_eq_self fun n hbelow => hf.apply_eq_self fun hn => h n hn hbelow

/-- The way to the workspace stays as it is. -/
theorem trading_fits : (trading hopen hnew hf).Fits w := by
  refine ⟨.of_way fun l hl => location_trading hopen hnew hf fun n hn => ?_, rfl⟩
  exact hnew.not_suffix_of_mem_way_root hopen hn (hf.isName n hn) hl

/-- The way to the output stays as it is. -/
theorem trading_spares (hapart : (t.place output).Apart (t.place w.root)) :
    (trading hopen hnew hf).Spares output := by
  refine ⟨.of_way fun l hl => location_trading hopen hnew hf fun n hn => ?_, hapart⟩
  exact hnew.not_suffix_of_mem_way_output hapart hn (hf.isName n hn) hl

/-- Nothing is in folders with new names, so the files are the same after the trade. -/
theorem trading_renamesTree : (trading hopen hnew hf).RenamesTree t t := by
  refine ⟨rfl, rfl, fun l => ?_⟩
  by_cases hfree : ∀ n ∈ drawn, ¬ n :: t.place w.root <:+ l
  · rw [location_trading hopen hnew hf hfree]
  · push Not at hfree
    obtain ⟨n, hn, hbelow⟩ := hfree
    have hn' : f n ∈ drawn := hf.apply_mem hn
    have hunused := hnew.get?_eq_none hopen hn (hf.isName n hn)
    have hunused' := hnew.get?_eq_none hopen hn' (hf.isName _ hn')
    rw [get?_eq_none_of_suffix hunused hbelow]
    exact get?_eq_none_of_suffix hunused' ((trading hopen hnew hf).folder_suffix_location hbelow)

end Trading

/-- Names that are drawn in the one run are turned into those that are drawn in the other one. -/
theorem exists_renaming {config : WorkspaceConfig} {t₀ : FileTree}
    (hopen : (Workspace.prepare w.root config).outcome t₀ = (.ok w, t))
    (hapart : (t.place output).Apart (t.place w.root)) {names₁ names₂ : Names} {count : Nat}
    (h₁ : DrawsNew w t output names₁ count) (h₂ : DrawsNew w t output names₂ count) :
    ∃ ρ : Renaming, ρ.Fits w ∧ ρ.base = t.place w.root ∧ t.workingDirectory = ρ.home ∧
      ρ.Spares output ∧ ρ.RenamesStage w count ⟨t, names₁⟩ ⟨t, names₂⟩ := by
  have hlength : 0 < w.nameLength :=
    Nat.lt_of_lt_of_le (by decide) (Workspace.minNameLength_le_of_prepare hopen)
  obtain ⟨f, hnames, hmoved⟩ :=
    Names.exists_perm_upcoming names₁ names₂ w.nameLength h₁.distinct h₂.distinct
  have hf : Trades f (names₁.upcoming w.nameLength count ++ names₂.upcoming w.nameLength count) := by
    refine ⟨fun n hn => ?_, fun n hn n' hn' => Names.alike_of_mem_upcoming _ _ _ hn hn', hmoved⟩
    rcases List.mem_append.mp hn with hn | hn
    · exact names₁.isName_of_mem_upcoming _ hlength hn
    · exact names₂.isName_of_mem_upcoming _ hlength hn
  have hnew := h₁.toAreNew.append h₂.toAreNew
  exact ⟨trading hopen hnew hf, trading_fits hopen hnew hf, rfl, rfl,
    trading_spares hopen hnew hf hapart, trading_renamesTree hopen hnew hf,
    fun k hk => (hnames k hk).symm⟩

end CommandLine

end GameExport
