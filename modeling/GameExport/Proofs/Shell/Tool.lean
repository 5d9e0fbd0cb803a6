import GameExport.Proofs.Disk.Removal
import GameExport.Shell.Toolbox

/-! # What tools do to files

Most tools only read. Those that make or remove something do so at the places that their arguments
name and below them, and make directories on the way there. Whatever a tool does, it starts and ends
in the same working directory.
-/

namespace GameExport.FileTree

def Region.underAny (paths : List String) : Region := fun l m => ∃ p ∈ paths, Region.under ⟨p⟩ l m

def Region.alongAny (paths : List String) : Region := fun l m => ∃ p ∈ paths, Region.along ⟨p⟩ l m

/-- Nothing differs but what some paths name. -/
abbrev ChangesNamed (paths : List String) : FileTree → FileTree → Prop :=
  ChangesWithin (.underAny paths) (.alongAny paths)

theorem changesNamed_of_mem {paths : List String} {p : String} (hp : p ∈ paths) (t u : FileTree)
    (h : ChangesWithin (.under p) (.along p) t u) : ChangesNamed paths t u :=
  h.mono (fun _ _ hm => ⟨p, hp, hm⟩) fun _ _ hm => Or.inr ⟨p, hp, hm⟩

end GameExport.FileTree

namespace GameExport.Shell

open FileTree

/-- The operands of a tool are some of its arguments, in their order. -/
theorem OptionTable.operands_sublist {table : OptionTable} {args : List String} {a : Arguments}
    (h : table.read args = .ok a) : a.operands.Sublist args := by
  have hadd {options : List (Char × String)} {x : Except String Arguments} {l : List String}
      (hx : ∀ b, x = .ok b → b.operands.Sublist l) {y : Arguments}
      (hy : x.map (fun b => { b with options := options ++ b.options }) = .ok y) :
      y.operands.Sublist l := by
    obtain ⟨b, hb, rfl⟩ := map_eq_ok.mp hy
    exact hx b hb
  induction args using OptionTable.read.induct table generalizing a with
  | case1 =>
      rw [OptionTable.read] at h
      rw [← Except.ok.inj h]
  | case2 arg rest harg =>
      simp only [OptionTable.read, harg] at h
      rw [← Except.ok.inj h]
      exact List.sublist_cons_self arg rest
  | case3 arg rest tail htail harg c hc ih =>
      simp only [OptionTable.read, harg, hc] at h
      exact (hadd (fun _ => ih) h).cons arg
  | case4 arg rest tail htail harg hnone =>
      simp only [OptionTable.read, harg, hnone] at h
      cases h
  | case5 arg rest c s _ _ harg ih ihnext =>
      simp only [OptionTable.read, harg] at h
      obtain ⟨⟨options, waiting⟩, -, h⟩ := bind_eq_ok.mp h
      cases waiting with
      | none => exact (hadd (fun _ => ih) h).cons arg
      | some letter =>
          cases rest with
          | nil => cases h
          | cons value others => exact ((hadd (fun _ => ihnext) h).cons value).cons arg
  | case6 arg rest _ _ _ ih =>
      simp only [OptionTable.read] at h
      obtain ⟨b, hb, h⟩ := bind_eq_ok.mp h
      rw [← Except.ok.inj h]
      exact (ih hb).cons_cons arg

namespace Tool

variable {R : List String → FileTree → FileTree → Prop}

def Moves (R : List String → FileTree → FileTree → Prop) (tool : Tool) : Prop :=
  ∀ name args input t, R args t (tool name args input t).tree

def IsQuiet (tool : Tool) : Prop := tool.Moves fun _ t u => u = t

/-- A tool that leaves the files alone keeps every relation that is reflexive. -/
theorem IsQuiet.moves {tool : Tool} (h : tool.IsQuiet) (hrefl : ∀ args t, R args t t) :
    tool.Moves R := by
  intro name args input t
  rw [h name args input t]
  exact hrefl args t

/-- A tool with options does something only if it can read them. -/
theorem withOptions_moves {table : OptionTable} {refusal : UInt8}
    {f : String → Arguments → List UInt8 → FileTree → ToolResult} (hrefl : ∀ args t, R args t t)
    (hf : ∀ name args a input t, table.read args = .ok a → R args t (f name a input t).tree) :
    (withOptions table refusal f).Moves R := by
  intro name args input t
  unfold withOptions
  split
  · next a heq => exact hf name args a input t heq
  · exact hrefl args t

theorem withOptions_isQuiet {table : OptionTable} {refusal : UInt8}
    {f : String → Arguments → List UInt8 → FileTree → ToolResult}
    (hf : ∀ name a input t, (f name a input t).tree = t) :
    (withOptions table refusal f).IsQuiet :=
  withOptions_moves (fun _ _ => rfl) fun name _ a input t _ => hf name a input t

/-- Work on operands one after the other goes as far as the work on each of them. -/
theorem foldl_moves {Q : FileTree → FileTree → Prop} (hrefl : ∀ t, Q t t)
    (htrans : ∀ s t u, Q s t → Q t u → Q s u) {f : ToolResult → String → ToolResult}
    {operands : List String} (h : ∀ r, ∀ p ∈ operands, Q r.tree (f r p).tree) (r : ToolResult) :
    Q r.tree (operands.foldl f r).tree := by
  induction operands generalizing r with
  | nil => exact hrefl r.tree
  | cons p operands ih =>
      have hrest := ih (fun r q hq => h r q (List.mem_cons_of_mem p hq)) (f r p)
      exact htrans _ _ _ (h r p List.mem_cons_self) hrest

/-- An operation on one operand after the other keeps a relation that it keeps each time. -/
theorem forEach_moves {Q : FileTree → FileTree → Prop} (hrefl : ∀ t, Q t t)
    (htrans : ∀ s t u, Q s t → Q t u → Q s u) {operation : Path → Disk.Operation Unit}
    {complain : String → FileError → String} {operands : List String}
    (h : ∀ p ∈ operands, (operation ⟨p⟩).Moves Q) (t : FileTree) :
    Q t (forEach operation complain operands t).tree := by
  refine foldl_moves hrefl htrans (fun r p hp => ?_) { tree := t }
  have hone := h p hp r.tree
  split
  · next heq => rwa [heq] at hone
  · next heq => rwa [heq] at hone

/-! ## Tools that only read -/

theorem cat_isQuiet : IsQuiet cat := by
  refine withOptions_isQuiet fun name a input t => ?_
  refine foldl_moves (Q := fun t u => u = t) (fun _ => rfl) (fun _ _ _ h k => k.trans h)
    (fun r file _ => ?_) { tree := t }
  split
  · rfl
  · split
    · rfl
    · split <;> rfl

theorem ls_isQuiet : IsQuiet ls := by
  refine withOptions_isQuiet fun name a input t => ?_
  dsimp only
  split
  · rfl
  · split <;> rfl

theorem basename_isQuiet : IsQuiet basename := by
  refine withOptions_isQuiet fun name a input t => ?_
  split <;> rfl

theorem dirname_isQuiet : IsQuiet dirname := by
  refine withOptions_isQuiet fun name a input t => ?_
  split <;> rfl

theorem head_isQuiet : IsQuiet head := by
  intro name args input t
  refine withOptions_isQuiet (fun name a input t => ?_) name (countFirst args) input t
  split
  · rfl
  · split <;> rfl

theorem tr_isQuiet : IsQuiet tr := by
  refine withOptions_isQuiet fun name a input t => ?_
  split <;> rfl

theorem seq_isQuiet : IsQuiet seq := by
  refine withOptions_isQuiet fun name a input t => ?_
  split <;> rfl

theorem wc_isQuiet : IsQuiet wc := by
  refine withOptions_isQuiet fun name a input t => ?_
  split <;> rfl

theorem sleep_isQuiet : IsQuiet sleep := by
  refine withOptions_isQuiet fun name a input t => ?_
  split <;> rfl

theorem printf_isQuiet : IsQuiet printf := by
  intro name args input t
  unfold printf
  dsimp only
  split
  · rfl
  · rfl

theorem ask_isQuiet (tooMany : String → String → String) : IsQuiet (ask tooMany) := by
  intro name args input t
  unfold ask
  split <;> rfl

/-- A question in brackets leaves files alone if the question does. -/
theorem bracketed_isQuiet {question : Tool} (h : question.IsQuiet) (closing : String) :
    IsQuiet (bracketed closing question) := by
  intro name args input t
  unfold bracketed
  split
  · exact h name _ input t
  · rfl

/-! ## Tools that make and remove -/

/-- A tool that works on each of its operands changes only what these name, if the work on one of
them does. -/
theorem forEach_changesNamed {table : OptionTable} {args : List String} {a : Arguments}
    (hread : table.read args = .ok a) {operation : Path → Disk.Operation Unit}
    {complain : String → FileError → String} {operands : List String}
    (hoperands : operands ⊆ a.operands)
    (h : ∀ p, (operation p).Moves (ChangesWithin (.under p) (.along p))) (t : FileTree) :
    ChangesNamed args t (forEach operation complain operands t).tree := by
  refine forEach_moves ChangesWithin.refl (fun _ _ _ h k => h.trans k) (fun p hp => ?_) t
  have hp' := (OptionTable.operands_sublist hread).subset (hoperands hp)
  exact (h ⟨p⟩).mono (changesNamed_of_mem hp')

variable {p : Path}

theorem moves_of_none {α : Type} {a : Disk.Operation α}
    (h : a.Moves (ChangesWithin (.under p) .none)) :
    a.Moves (ChangesWithin (.under p) (.along p)) :=
  h.mono fun _ _ hchange => hchange.mono (fun _ _ hm => hm) fun _ _ hm => hm.elim

theorem moves_of_along {α : Type} {a : Disk.Operation α}
    (h : a.Moves (ChangesWithin .none (.along p))) :
    a.Moves (ChangesWithin (.under p) (.along p)) :=
  h.mono fun _ _ hchange => hchange.mono (fun _ _ hm => hm.elim) fun _ _ hm => Or.inr hm

theorem write_moves_under (content : ByteArray) :
    (Disk.write p content).Moves (ChangesWithin (.under p) (.along p)) :=
  Disk.write_moves fun _ => List.suffix_refl _

theorem mkdir_moves : Moves ChangesNamed mkdir := by
  refine withOptions_moves (fun _ => ChangesWithin.refl) fun name args a input t hread => ?_
  split
  · exact ChangesWithin.refl t
  · refine forEach_changesNamed hread (fun _ hp => hp) (fun p => moves_of_along ?_) t
    split
    · exact Disk.makeDirectories_moves_along p
    · exact Disk.makeDirectory_moves p

theorem touchOne_moves (p : Path) :
    (touchOne p).Moves (ChangesWithin (.under p) (.along p)) := by
  refine .ask_bind fun t => ?_
  split
  · exact .refl t
  · exact write_moves_under _ t

theorem touch_moves : Moves ChangesNamed touch := by
  refine withOptions_moves (fun _ => ChangesWithin.refl) fun name args a input t hread => ?_
  split
  · exact ChangesWithin.refl t
  · refine forEach_changesNamed hread (fun _ hp => hp) (fun p => ?_) t
    split
    · exact .pure ChangesWithin.refl ()
    · exact touchOne_moves p

theorem tee_moves : Moves ChangesNamed tee := by
  refine withOptions_moves (fun _ => ChangesWithin.refl) fun name args a input t hread => ?_
  refine forEach_changesNamed hread (fun _ hp => hp) (fun p => ?_) t
  exact .ask_bind fun t => write_moves_under _ t

/-- Modes are changed where the operands behind the first one say. -/
theorem chmod_moves : Moves ChangesNamed chmod := by
  refine withOptions_moves (fun _ => ChangesWithin.refl) fun name args a input t hread => ?_
  split
  · exact ChangesWithin.refl t
  · exact ChangesWithin.refl t
  · next mode paths _ hoperands =>
      have hsubset : paths ⊆ a.operands := hoperands ▸ List.subset_cons_self mode paths
      refine forEach_changesNamed hread hsubset (fun p => .ask_bind fun t => ?_) t
      split
      · split
        · exact moves_of_none (Disk.setExecutable_moves _ p) t
        · exact .refl t
      · exact .refl t

/-- A path is removed with what is below it, if that is asked for. -/
theorem remove_moves (deep force : Bool) (p : Path) :
    (remove deep force p).Moves (ChangesWithin (.under p) (.along p)) := by
  refine .ask_bind fun t => ?_
  split
  · split <;> exact .refl t
  · rw [Action.outcome_ask_bind]
    split
    · split
      · exact moves_of_none (Disk.removeDirectory_moves p) t
      · exact .refl t
    · exact moves_of_none (Disk.removeFile_moves p) t

theorem rm_moves : Moves ChangesNamed rm := by
  refine withOptions_moves (fun _ => ChangesWithin.refl) fun name args a input t hread => ?_
  dsimp only
  split
  · exact ChangesWithin.refl t
  · refine forEach_changesNamed hread (fun _ hp => hp) (fun p => ?_) t
    split
    · exact .throw ChangesWithin.refl _
    · exact remove_moves _ _ p

theorem removeIfEmpty_moves (p : Path) :
    (removeIfEmpty p).Moves (ChangesWithin (.under p) (.along p)) := by
  have htrans : ∀ s t u, ChangesWithin (.under p) (.along p) s t →
      ChangesWithin (.under p) (.along p) t u → ChangesWithin (.under p) (.along p) s u :=
    fun _ _ _ h k => h.trans k
  refine .bind htrans (fun t => ChangesWithin.refl t) fun l => ?_
  refine .bind htrans (fun t => ChangesWithin.refl t) fun _ => ?_
  refine .ask_bind fun t => ?_
  split
  · exact moves_of_none (Disk.removeDirectory_moves p) t
  · exact .refl t

theorem rmdir_moves : Moves ChangesNamed rmdir := by
  refine withOptions_moves (fun _ => ChangesWithin.refl) fun name args a input t hread => ?_
  split
  · exact ChangesWithin.refl t
  · exact forEach_changesNamed hread (fun _ hp => hp) removeIfEmpty_moves t

/-! ## All tools -/

theorem copyFile_samePlace (content : ByteArray) (executable : Bool) (target : Path) :
    (copyFile content executable target).Moves SamePlace := by
  refine .bind SamePlace.trans (.ask SamePlace.refl _) fun isNew => ?_
  refine .bind SamePlace.trans (Disk.write_samePlace target content) fun _ => ?_
  split
  · exact Disk.samePlace_of_moves (Disk.setExecutable_moves true target)
  · exact .pure SamePlace.refl ()

theorem forM_moves {α : Type} {Q : FileTree → FileTree → Prop} (hrefl : ∀ t, Q t t)
    (htrans : ∀ s t u, Q s t → Q t u → Q s u) {f : α → Disk.Operation Unit}
    (h : ∀ x, (f x).Moves Q) (xs : List α) : Action.Moves Q (xs.forM f) := by
  induction xs with
  | nil => exact .pure hrefl ()
  | cons x xs ih => exact .bind htrans (h x) fun _ => ih

theorem copyBelow_samePlace (l : Location) (target : Path) :
    (copyBelow l target).Moves SamePlace := by
  refine .bind SamePlace.trans (.ask SamePlace.refl _) fun inner => ?_
  refine .bind SamePlace.trans (Disk.makeDirectories_samePlace target) fun _ => ?_
  refine forM_moves SamePlace.refl SamePlace.trans (fun e => ?_) _
  split
  · exact Disk.makeDirectories_samePlace _
  · exact copyFile_samePlace _ _ _

/-- A copy and a move start and end in one place. -/
theorem transfer_samePlace (name : String) (moving deep : Bool) (source target : String)
    (t : FileTree) : SamePlace t (transfer name moving deep source target t).tree := by
  have hcreate {operation : Disk.Operation Unit} (h : operation.Moves SamePlace) (p : Path)
      (complain : String → FileError → String) : SamePlace t (forEach (fun _ => do
        operation
        if moving then remove true true source) complain [p.text] t).tree := by
    refine forEach_moves SamePlace.refl SamePlace.trans (fun _ _ => ?_) t
    refine .bind SamePlace.trans h fun _ => ?_
    split
    · exact Disk.samePlace_of_moves (remove_moves true true source)
    · exact .pure SamePlace.refl ()
  unfold transfer
  dsimp only
  split
  · exact SamePlace.refl t
  · split
    · exact hcreate (copyFile_samePlace _ _ _) _ _
    · split
      · exact hcreate (copyBelow_samePlace _ _) _ _
      · exact SamePlace.refl t
    · exact SamePlace.refl t

theorem transferAll_samePlace (moving : Bool) (name : String) (a : Arguments) (t : FileTree) :
    SamePlace t (transferAll moving name a t).tree := by
  unfold transferAll
  dsimp only
  split
  · exact SamePlace.refl t
  · exact SamePlace.refl t
  · exact transfer_samePlace _ _ _ _ _ t
  · split
    · exact SamePlace.refl t
    · refine foldl_moves SamePlace.refl SamePlace.trans (fun r source _ => ?_) { tree := t }
      exact transfer_samePlace name moving _ source _ r.tree

theorem transferAll_moves {table : OptionTable} (moving : Bool) :
    Moves (fun _ => SamePlace)
      (withOptions table 1 fun name a _ tree => transferAll moving name a tree) :=
  withOptions_moves (fun _ => SamePlace.refl) fun name _ a _ t _ =>
    transferAll_samePlace moving name a t

def transferring : List String := ["cp", "mv"]

/-- A tool that changes files has options. It changes at most what its arguments name, unless it
copies or moves. -/
structure ChangesFiles (n : String) (tool : Tool) (table : OptionTable) : Prop where
  withOptions : ∃ refusal f, tool = withOptions table refusal f
  moves : tool.Moves ChangesNamed ∨ n ∈ transferring ∧ tool.Moves fun _ => SamePlace

/-- A program that is a tool only reads, or it has options none of which is a decompiler's. -/
theorem program_cases {n : String} {tool : Tool} (h : program? n = some tool) :
    tool.IsQuiet ∨ ∃ table, ChangesFiles n tool table ∧ table.names.lookup "--project" = none := by
  have hmem : (n, tool) ∈ programs ++ ofShell := by
    unfold program? at h
    split at h
    · cases h
    · obtain ⟨before, after, hall, -⟩ := List.lookup_eq_some_iff.mp h
      rw [hall]
      simp
  simp only [programs, ofShell, List.cons_append, List.nil_append, List.mem_cons, Prod.mk.injEq,
    List.not_mem_nil, or_false] at hmem
  rcases hmem with ⟨rfl, rfl⟩ | ⟨rfl, rfl⟩ | ⟨rfl, rfl⟩ | ⟨rfl, rfl⟩ | ⟨rfl, rfl⟩ | ⟨rfl, rfl⟩ |
    ⟨rfl, rfl⟩ | ⟨rfl, rfl⟩ | ⟨rfl, rfl⟩ | ⟨rfl, rfl⟩ | ⟨rfl, rfl⟩ | ⟨rfl, rfl⟩ | ⟨rfl, rfl⟩ |
    ⟨rfl, rfl⟩ | ⟨rfl, rfl⟩ | ⟨rfl, rfl⟩ | ⟨rfl, rfl⟩ | ⟨rfl, rfl⟩ | ⟨rfl, rfl⟩ | ⟨rfl, rfl⟩ |
    ⟨rfl, rfl⟩ | ⟨rfl, rfl⟩ | ⟨rfl, rfl⟩ | ⟨rfl, rfl⟩ | ⟨rfl, rfl⟩ | ⟨rfl, rfl⟩ | ⟨rfl, rfl⟩
  · exact Or.inl basename_isQuiet
  · exact Or.inl cat_isQuiet
  · exact Or.inr ⟨_, ⟨⟨_, _, rfl⟩, Or.inl chmod_moves⟩, rfl⟩
  · exact Or.inr ⟨_, ⟨⟨_, _, rfl⟩, Or.inr ⟨by decide, transferAll_moves false⟩⟩, rfl⟩
  · exact Or.inl dirname_isQuiet
  · exact Or.inl head_isQuiet
  · exact Or.inl ls_isQuiet
  · exact Or.inr ⟨_, ⟨⟨_, _, rfl⟩, Or.inl mkdir_moves⟩, rfl⟩
  · exact Or.inr ⟨_, ⟨⟨_, _, rfl⟩, Or.inr ⟨by decide, transferAll_moves true⟩⟩, rfl⟩
  · exact Or.inr ⟨_, ⟨⟨_, _, rfl⟩, Or.inl rm_moves⟩, rfl⟩
  · exact Or.inr ⟨_, ⟨⟨_, _, rfl⟩, Or.inl rmdir_moves⟩, rfl⟩
  · exact Or.inl seq_isQuiet
  · exact Or.inl sleep_isQuiet
  · exact Or.inr ⟨_, ⟨⟨_, _, rfl⟩, Or.inl tee_moves⟩, rfl⟩
  · exact Or.inr ⟨_, ⟨⟨_, _, rfl⟩, Or.inl touch_moves⟩, rfl⟩
  · exact Or.inl tr_isQuiet
  · exact Or.inl wc_isQuiet
  · exact Or.inl (ask_isQuiet _)
  · exact Or.inl (bracketed_isQuiet (ask_isQuiet _) _)
  · exact Or.inl fun _ _ _ _ => rfl
  · exact Or.inl fun _ _ _ _ => rfl
  · exact Or.inl fun _ _ _ _ => rfl
  · exact Or.inl fun _ _ _ _ => rfl
  · exact Or.inl printf_isQuiet
  · exact Or.inl (ask_isQuiet _)
  · exact Or.inl (bracketed_isQuiet (ask_isQuiet _) _)
  · exact Or.inl (withOptions_isQuiet fun _ _ _ _ => rfl)

/-- Every tool ends in the place where it started. -/
theorem samePlace_of_program? {n : String} {tool : Tool} (h : program? n = some tool) :
    tool.Moves fun _ => SamePlace := by
  rcases program_cases h with hquiet | ⟨table, hchanges, -⟩
  · exact hquiet.moves fun _ => SamePlace.refl
  · rcases hchanges.moves with hnamed | ⟨-, hplace⟩
    · exact fun name args input t => (hnamed name args input t).workingDirectory
    · exact hplace

/-- A tool changes at most what its arguments name, unless it copies or moves. -/
theorem changesNamed_of_program? {n : String} {tool : Tool} (h : program? n = some tool)
    (hn : n ∉ transferring) : tool.Moves ChangesNamed := by
  rcases program_cases h with hquiet | ⟨table, hchanges, -⟩
  · exact hquiet.moves fun _ => ChangesWithin.refl
  · exact hchanges.moves.resolve_right fun hmoves => hn hmoves.1

/-- A tool that does not know the first option of a decompiler says so. -/
theorem read_of_unknown {table : OptionTable} (h : table.names.lookup "--project" = none)
    (args : List String) :
    table.read ("--project" :: args) = .error "unrecognized option '--project'" := by
  have hchars : "--project".toList = '-' :: '-' :: "project".toList := rfl
  simp [OptionTable.read, hchars, h]
  rfl

/-- A tool that is called like a decompiler changes nothing. -/
theorem tree_of_project {n : String} {tool : Tool} (h : program? n = some tool) (called : String)
    (args : List String) (input : List UInt8) (t : FileTree) :
    (tool called ("--project" :: args) input t).tree = t := by
  rcases program_cases h with hquiet | ⟨table, hchanges, hnone⟩
  · exact hquiet called _ input t
  · obtain ⟨refusal, f, rfl⟩ := hchanges.withOptions
    rw [withOptions, read_of_unknown hnone]
    rfl

end Tool

end GameExport.Shell
