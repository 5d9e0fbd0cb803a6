import GameExport.Proofs.Shell.Channel
import GameExport.Shell.Builtin

/-! # Steps of a script

Putting in values, redirecting streams and the commands of the shell itself are the steps of which
a run of a script consists. Under each of them the channels go on, given that they do so while the
outputs of scripts within the script are taken.
-/

namespace GameExport.Shell

open State.Follows

variable {s r u : State} {substitute : Substitute}

/-! ## Putting in values -/

mutual

/-- Fragment by fragment values are put in. -/
theorem expand_follows (h : substitute.GoesOn) : ∀ (n : Nat) (w : Word) (s : State),
    s.Follows (expand substitute n w s).2
  | n, [], s => by
      rw [expand]
      exact refl s
  | n, f :: w, s => by
      rw [expand]
      exact (expandFragment_follows h n f s).trans (expand_follows h n w _)
termination_by n w => (n, w.length + 1)

theorem expandFragment_follows (h : substitute.GoesOn) : ∀ (n : Nat) (f : Fragment) (s : State),
    s.Follows (expandFragment substitute n f s).2
  | n, .text t quoted, s => by
      rw [expandFragment]
      exact refl s
  | n, .output script line quoted, s => by
      rw [expandFragment]
      exact h _ _ s
  | 0, .arithmetic expression quoted, s => by
      rw [expandFragment]
      exact of_channels_eq rfl
  | n + 1, .arithmetic expression quoted, s => by
      have hinner := expand_follows h n (wordOf true expression) s
      simp only [expandFragment]
      split
      · exact hinner.trans (foldr (fun (a : String × Int) s => assign s a.1 (toString a.2)) _ _)
      · exact hinner.trans (refuse _ _)
  | n, .parameter name edit quoted, s => by
      cases edit with
      | none =>
          simp only [expandFragment]
          split
          · exact refl s
          · split
            · exact refuse _ _
            · exact refl s
      | length =>
          simp only [expandFragment]
          exact refl s
      | unknown =>
          simp only [expandFragment]
          exact refuse _ _
      | replace kind emptyToo word =>
          cases n with
          | zero =>
              simp only [expandFragment]
              exact refl s
          | succ n =>
              have hinner := expand_follows h n (wordOf quoted word) s
              rw [expandFragment.eq_def]
              dsimp only
              split
              · exact refl s
              · exact hinner
              · exact refl s
              · exact hinner
              · exact hinner
              · exact hinner.trans (refuse _ _)
      | cutStart longest word =>
          cases n with
          | zero =>
              simp only [expandFragment]
              exact refl s
          | succ n =>
              simp only [expandFragment]
              exact expand_follows h n (wordOf false word) s
      | cutEnd longest word =>
          cases n with
          | zero =>
              simp only [expandFragment]
              exact refl s
          | succ n =>
              simp only [expandFragment]
              exact expand_follows h n (wordOf false word) s
termination_by n => (n, 0)

end

theorem expandText_follows (h : substitute.GoesOn) (w : Word) (s : State) :
    s.Follows (expandText substitute w s).2 :=
  expand_follows h maxDepth w s

theorem expandWords_follows (h : substitute.GoesOn) (words : List Word) (s : State) :
    s.Follows (expandWords substitute words s).2 := by
  induction words generalizing s with
  | nil => exact refl s
  | cons w words ih => exact (expand_follows h maxDepth w s).trans (ih _)

theorem matchesAny_follows (h : substitute.GoesOn) (text : List Char) (patterns : List Word)
    (s : State) : s.Follows (matchesAny substitute text patterns s).2 := by
  induction patterns generalizing s with
  | nil => exact refl s
  | cons w patterns ih =>
      have hw := expand_follows h maxDepth w s
      simp only [matchesAny]
      split
      · exact hw
      · exact hw.trans (ih _)

theorem assignAll_follows (h : substitute.GoesOn) (assignments : List (String × Word)) (s : State) :
    s.Follows (assignAll substitute assignments s) := by
  induction assignments generalizing s with
  | nil => exact refl s
  | cons a assignments ih =>
      obtain ⟨name, w⟩ := a
      exact ((expandText_follows h w s).trans (assign _ _ _)).trans (ih _)

/-! ## Redirecting streams -/

theorem State.Follows.duplicate (s : State) (stream : Nat) (target : String) :
    s.Follows (s.duplicate stream target).2 := by
  unfold State.duplicate
  split
  · exact of_channels_eq rfl
  · split
    · split <;> exact of_channels_eq rfl
    · exact refl s

theorem State.Follows.readFrom (s : State) (stream : Nat) (path : String) :
    s.Follows (s.readFrom stream path).2 := by
  unfold State.readFrom
  split
  · exact attach _ _ _
  · split
    · exact duplicate _ _ _
    · split
      · exact attach _ _ _
      · exact attach _ _ _
      · exact refl s

theorem State.Follows.writeTo (s : State) (stream : Nat) (appending : Bool) (path : String) :
    s.Follows (s.writeTo stream appending path).2 := by
  unfold State.writeTo
  split
  · exact attach _ _ _
  · split
    · exact duplicate _ _ _
    · split
      · next c tree _ => exact attach { s with tree } stream c
      · exact of_channels_eq rfl

theorem State.Follows.redirectTo (s : State) (stream : Nat) (kind : RedirectKind) (target : String) :
    s.Follows (s.redirectTo stream kind target).2 := by
  cases kind with
  | document => exact attach _ _ _
  | duplicate => exact duplicate _ _ _
  | read => exact readFrom _ _ _
  | write => exact writeTo _ _ _ _
  | append => exact writeTo _ _ _ _

theorem redirect_follows (h : substitute.GoesOn) (redirects : List Redirect) (s : State) :
    s.Follows (redirect substitute redirects s).2 := by
  induction redirects generalizing s with
  | nil => exact refl s
  | cons r redirects ih =>
      have hone := (expandText_follows h r.target s).trans (redirectTo _ r.stream r.kind
        (expandText substitute r.target s).1)
      simp only [redirect]
      split
      · next heq => exact (heq ▸ hone).trans (ih _)
      · next heq => exact heq ▸ hone

/-! ## Commands of the shell -/

namespace Builtin

def GoesOn (b : Builtin) : Prop := ∀ (args : List String) (s : State), s.Follows (b args s)

theorem withNumber_goesOn {f : Option Nat → State → State} (name : String)
    (hf : ∀ n (s : State), s.Follows (f n s)) : GoesOn (withNumber name f) := by
  intro args s
  cases args with
  | nil => exact hf none s
  | cons a rest =>
      simp only [withNumber]
      split
      · exact hf _ s
      · exact refuse _ _

/-- A command that assigns goes on if its preparations do. -/
theorem assignEach_goesOn {prepare : String → State → State}
    (h : ∀ name (s : State), s.Follows (prepare name s)) : GoesOn (assignEach prepare) := by
  intro args s
  refine (foldl (fun s arg => ?_) _ s).congr rfl
  dsimp only
  split
  · exact (h _ s).trans (assign _ _ _)
  · exact h _ s

theorem leaveLoop_goesOn (name : String) (again : Bool) : GoesOn (leaveLoop name again) := by
  refine withNumber_goesOn name fun n s => ?_
  split <;> exact of_channels_eq rfl

theorem cd_goesOn : GoesOn cd := by
  intro args s
  simp only [cd]
  split
  · split
    · exact of_channels_eq rfl
    · exact fail _ _
  · exact fail _ _

theorem shift_goesOn : GoesOn shift := by
  refine withNumber_goesOn "shift" fun n s => ?_
  split
  · exact refuse _ _
  · exact of_channels_eq rfl

theorem set_goesOn : GoesOn set := by
  intro args s
  rw [Builtin.set]
  split
  · exact refuse _ _
  · exact of_channels_eq rfl

theorem hide_goesOn : GoesOn hide := by
  intro args s
  rw [hide]
  split
  · exact refuse _ _
  · refine assignEach_goesOn (fun name s => ?_) args s
    exact of_channels_eq rfl

theorem unset_goesOn : GoesOn unset := by
  intro args s
  simp only [unset]
  split
  · exact of_channels_eq rfl
  · exact (foldl State.Follows.unset _ s).congr rfl

/-- What is left behind a line is an end of what was to be read. -/
theorem readLine_suffix (raw : Bool) (s : List UInt8) : (readLine raw s).2.1 <:+ s := by
  fun_induction readLine raw s with
  | case1 => exact List.suffix_refl _
  | case2 s => exact List.suffix_cons _ _
  | case3 => exact List.nil_suffix
  | case4 b _ _ s ih => exact ih.trans ⟨[b, 10], rfl⟩
  | case5 b _ _ c s _ line rest heq ih =>
      rw [heq] at ih
      exact ih.trans ⟨[b, c], rfl⟩
  | case6 b s _ _ line rest heq ih =>
      rw [heq] at ih
      exact ih.trans ⟨[b], rfl⟩

theorem read_goesOn : GoesOn Builtin.read := by
  intro args s
  simp only [Builtin.read]
  split
  · exact fail _ _
  · refine ((leaveInput (readLine_suffix _ _)).trans (foldl (fun s b => ?_) _ _)).congr rfl
    exact assign _ _ _

theorem deliver_follows (signal : Nat) (s : State) : s.Follows (deliver signal s) := by
  rw [deliver]
  split
  · exact refl s
  · split
    · exact refl s
    · exact of_channels_eq rfl
    · split
      · exact refl s
      · exact of_channels_eq rfl

theorem kill_goesOn : GoesOn kill := by
  intro args s
  rw [kill]
  split
  · split
    · exact emit { s with status := 0 } 1 _
    · exact fail _ _
  · split
    · exact fail _ _
    · refine foldl (fun s target => ?_) _ { s with status := 0 }
      split
      · exact refl s
      · split
        · exact deliver_follows _ _
        · split
          · exact (complain _ _).congr rfl
          · split
            · exact fail _ _
            · exact fail _ _

theorem trap_goesOn : GoesOn trap := by
  intro args s
  simp only [trap]
  refine foldl (fun s name => ?_) _ { s with status := 0 }
  split
  · exact of_channels_eq rfl
  · exact (emit _ _ _).congr rfl

/-- All commands of the shell itself go on. -/
theorem goesOn_of_mem_all : ∀ b ∈ Builtin.all, GoesOn b.2 := by
  have hidle : GoesOn idle := fun _ _ => of_channels_eq rfl
  intro b hb
  simp only [Builtin.all, List.mem_cons, List.not_mem_nil, or_false] at hb
  rcases hb with rfl | rfl | rfl | rfl | rfl | rfl | rfl | rfl | rfl | rfl | rfl | rfl | rfl | rfl |
    rfl | rfl | rfl | rfl | rfl | rfl
  · exact withNumber_goesOn _ fun _ _ => of_channels_eq rfl
  · exact withNumber_goesOn _ fun _ _ => of_channels_eq rfl
  · exact leaveLoop_goesOn _ _
  · exact leaveLoop_goesOn _ _
  · exact cd_goesOn
  · exact shift_goesOn
  · exact set_goesOn
  · exact assignEach_goesOn fun _ _ => of_channels_eq rfl
  · exact assignEach_goesOn fun _ s => refl s
  · exact hide_goesOn
  · exact unset_goesOn
  · exact read_goesOn
  · exact kill_goesOn
  · exact trap_goesOn
  all_goals exact hidle

theorem goesOn_of_lookup {name : String} {b : Builtin} (h : Builtin.all.lookup name = some b) :
    GoesOn b := by
  obtain ⟨before, after, hall, -⟩ := List.lookup_eq_some_iff.mp h
  exact goesOn_of_mem_all (name, b) (by rw [hall]; simp)

end Builtin

end GameExport.Shell
