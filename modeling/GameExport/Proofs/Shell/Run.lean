import GameExport.Proofs.Shell.Steps
import GameExport.Shell.Run

/-! # What a script has written stays written

A run of a script takes one step after the other, and under each of them the channels go on. The
theorems about the functions that run a script follow their recursion: the steps that are left
count first, and then which function calls which.
-/

namespace GameExport.Shell

namespace State.Follows

variable {s r : State}

/-- What is done apart with a stream of its own goes on. -/
theorem apartWith {f : State → State} (hf : ∀ s : State, s.Follows (f s)) (s : State)
    (stream : Nat) (c : Channel) : s.Follows (s.apartWith stream c f) :=
  (attach s stream c).trans (ofApart hf _)

theorem restoreStreams (s earlier : State) (redirects : List Redirect) :
    s.Follows (s.restoreStreams earlier redirects) := by
  refine foldl (fun s r => ?_) redirects s
  split <;> exact of_channels_eq rfl

/-- Variables may be set back after a call. -/
theorem restoreAll (h : s.Follows r) (kept : Prop) [Decidable kept]
    (earlier : List (String × Option String)) (exported : List String) :
    s.Follows (if kept then r else { earlier.foldl State.restore r with exported }) := by
  split
  · exact h
  · exact (h.trans (foldl restore earlier r)).congr rfl

/-- Whether a failure ends the script does not touch the channels. -/
theorem settle (h : s.Follows r) (tested : Bool) : s.Follows (r.settle tested) := by
  unfold State.settle
  split
  · exact h.congr rfl
  · exact h

theorem afterRound (h : s.Follows r) : s.Follows r.afterRound.1 := by
  unfold State.afterRound
  split
  · exact h
  · exact h.congr rfl
  · exact h.congr rfl
  · exact h

theorem useTool (s : State) (called : String) (tool : Tool) (args : List String) :
    s.Follows (s.useTool called tool args) := by
  let after : State :=
    { s with
      tree := (tool called args s.input s.tree).tree
      status := (tool called args s.input s.tree).status }
  exact (emit after 1 _).trans (emit _ 2 _)

theorem describe (s : State) (name : String) : s.Follows (s.describe name) := by
  unfold State.describe
  split
  · exact emit { s with status := 0 } 1 _
  · split
    · exact emit { s with status := 0 } 1 _
    · exact of_channels_eq rfl

end State.Follows

open State.Follows

/-- A script that is to be left does nothing more on the way out. -/
theorem run_of_departure {s : State} (h : s.departure.isSome) (n : Nat) (tested : Bool)
    (c : Command) : run (n + 1) tested c s = s := by
  cases c <;> rw [run, if_pos h]

mutual

/-- However a command ends, the channels go on. -/
theorem run_follows (n : Nat) (tested : Bool) (c : Command) (s : State) :
    s.Follows (run n tested c s) := by
  cases n with
  | zero =>
      rw [run]
      exact of_channels_eq rfl
  | succ n =>
      by_cases hgone : s.departure.isSome
      · rw [run_of_departure hgone]
        exact refl s
      · cases c with
        | call line c =>
            have hcall := runCall_follows n tested c { s with line }
            rw [run, if_neg hgone]
            exact settle (hcall.trans (runTraps_follows n _)) tested
        | pipe first second =>
            have hfirst := apartWith (run_follows n tested first) s 1 (.collector ByteArray.empty)
            rw [run, if_neg hgone]
            dsimp only
            split
            · exact hfirst
            · exact settle (hfirst.trans (apartWith (run_follows n tested second) _ 0 _)) tested
        | negate c =>
            have hc := run_follows n true c s
            rw [run, if_neg hgone]
            dsimp only
            split
            · exact hc
            · exact hc.congr rfl
        | both first second =>
            have hfirst := run_follows n true first s
            rw [run, if_neg hgone]
            dsimp only
            split
            · exact hfirst.trans (run_follows n tested second _)
            · exact hfirst
        | either first second =>
            have hfirst := run_follows n true first s
            rw [run, if_neg hgone]
            dsimp only
            split
            · exact hfirst
            · exact hfirst.trans (run_follows n tested second _)
        | sequence first second =>
            rw [run, if_neg hgone]
            exact (run_follows n tested first s).trans (run_follows n tested second _)
        | choose test yes no =>
            have htest := run_follows n true test s
            rw [run, if_neg hgone]
            dsimp only
            split
            · exact htest
            · split
              · exact (run_follows n tested yes _).after (htest.congr rfl)
              · exact (run_follows n tested no _).after (htest.congr rfl)
        | loop untilTrue test body =>
            rw [run, if_neg hgone]
            exact runRounds_follows n tested untilTrue test body 0 { s with loops := s.loops + 1 }
        | each line name words body =>
            have hwords := expandWords_follows (runInside_goesOn n) words { s with line }
            rw [run, if_neg hgone]
            rcases hvalues : expandWords (runInside n) words { s with line } with ⟨values, r⟩
            rw [hvalues] at hwords
            exact hwords.trans (runEach_follows n tested name values body
              { r with loops := r.loops + 1, status := 0 })
        | select line subject arms =>
            have hsubject := expandText_follows (runInside_goesOn n) subject { s with line }
            rw [run, if_neg hgone]
            exact hsubject.trans (runArms_follows n tested _ arms
              { (expandText (runInside n) subject { s with line }).2 with status := 0 })
        | apart c =>
            rw [run, if_neg hgone]
            exact settle (ofApart (run_follows n tested c) s) tested
        | define name body =>
            rw [run, if_neg hgone]
            exact of_channels_eq rfl
        | redirected line c redirects =>
            have hredirect := redirect_follows (runInside_goesOn n) redirects { s with line }
            rw [run, if_neg hgone]
            split
            · next text r heq =>
                rw [heq] at hredirect
                have hfail := hredirect.trans (fail r text)
                exact settle (hfail.trans (restoreStreams _ s redirects)) tested
            · next r heq =>
                rw [heq] at hredirect
                have hc := hredirect.trans (run_follows n tested c r)
                exact hc.trans (restoreStreams _ s redirects)
        | flawed line text =>
            rw [run, if_neg hgone]
            exact refuse { s with line } _
termination_by (n, 0)

/-- The rounds of a loop go on one after the other. -/
theorem runRounds_follows (n : Nat) (tested untilTrue : Bool) (test body : Command) (last : UInt8)
    (s : State) : s.Follows (runRounds n tested untilTrue test body last s) := by
  cases n with
  | zero =>
      rw [runRounds]
      exact of_channels_eq rfl
  | succ n =>
      have htest := (run_follows n true test s).afterRound
      have hbody := (htest.trans (run_follows n tested body _)).afterRound
      rw [runRounds]
      dsimp only
      split
      · exact htest
      · split
        · exact htest.congr rfl
        · split
          · exact hbody.trans (runRounds_follows n tested untilTrue test body _ _)
          · exact hbody
termination_by (n, 0)

theorem runEach_follows (n : Nat) (tested : Bool) (name : String) (values : List String)
    (body : Command) (s : State) : s.Follows (runEach n tested name values body s) := by
  cases values with
  | nil =>
      rw [runEach]
      exact refl s
  | cons value values =>
      have hround := ((assign s name value).trans (run_follows n tested body _)).afterRound
      rw [runEach]
      dsimp only
      split
      · exact refl s
      · split
        · exact hround.trans (runEach_follows n tested name values body _)
        · exact hround
termination_by (n, values.length + 1)

/-- The patterns are put in one after the other, until one of them takes the text. -/
theorem runArms_follows (n : Nat) (tested : Bool) (text : List Char)
    (arms : List (List Word × Command)) (s : State) : s.Follows (runArms n tested text arms s) := by
  cases arms with
  | nil =>
      rw [runArms]
      exact refl s
  | cons arm arms =>
      obtain ⟨patterns, body⟩ := arm
      have hpatterns := matchesAny_follows (runInside_goesOn n) text patterns s
      rw [runArms]
      dsimp only
      split
      · exact hpatterns.trans (run_follows n tested body _)
      · exact hpatterns.trans (runArms_follows n tested text arms _)
termination_by (n, arms.length + 2)

theorem runText_follows (n : Nat) (tested : Bool) (line : Nat) (script : List Char) (s : State) :
    s.Follows (runText n tested line script s) := by
  rw [runText]
  exact run_follows n tested _ s
termination_by (n, 1)

/-- A script within the script writes to a collector of its own. -/
theorem runInside_goesOn (n : Nat) : Substitute.GoesOn (runInside n) := by
  intro line script s
  rw [runInside]
  exact apartWith (runText_follows n false line script) s 1 _
termination_by (n, 2)

theorem runTraps_follows (n : Nat) (s : State) : s.Follows (runTraps n s) := by
  rw [runTraps]
  refine foldl (fun s signal => ?_) _ { s with received := [] }
  split
  · exact refl s
  · next action _ =>
      have haction := runText_follows n false 1 action.toList s
      dsimp only
      split
      · exact haction
      · exact haction.congr rfl
termination_by (n, 2)

/-- A script goes on to its end, and so does what it does on leaving. -/
theorem runWhole_follows (n : Nat) (c : Command) (s : State) : s.Follows (runWhole n c s) := by
  have hc := run_follows n false c s
  rw [runWhole]
  dsimp only
  split
  · exact hc
  · exact hc.congr rfl
  · next action _ _ =>
      have haction := hc.trans (runText_follows n false 1 action.toList
        { run n false c s with
          status := (run n false c s).code
          departure := none
          traps := (run n false c s).traps.filter (·.1 ≠ 0) })
      split
      · exact haction
      · exact haction.congr rfl
termination_by (n, 2)

/-- A program that is a script of its own goes on with the streams of the script that starts it. -/
theorem runTask_follows (n : Nat) (task : Task) (s : State) : s.Follows (runTask n task s) := by
  have htask : s.Follows (s.apart fun s =>
      runWhole n (Command.ofScript 1 task.script) (s.ofTask task)) :=
    ofApart (fun s => runWhole_follows n (Command.ofScript 1 task.script) (s.ofTask task)) s
  rw [runTask]
  dsimp only
  split
  · split
    · exact (emit _ 2 _).after (htask.congr rfl)
    · exact htask.congr rfl
  · exact htask
termination_by (n, 3)

theorem runProgram_follows (n : Nat) (name : String) (args : List String) (s : State) :
    s.Follows (runProgram n name args s) := by
  rw [runProgram]
  dsimp only
  split
  · exact useTool s _ _ _
  · exact (emit _ 2 _).after (of_channels_eq rfl)
  · split
    · exact runTask_follows n _ s
    · exact (emit _ 2 _).after (of_channels_eq rfl)
  · exact runTask_follows n _ s
  · split
    · exact (complain s _).congr rfl
    · exact (complain s _).congr rfl
termination_by (n, 4)

theorem perform_follows (n : Nat) (tested : Bool) (name : String) (args : List String)
    (s : State) : s.Follows (perform n tested name args s) := by
  rw [perform.eq_def]
  split
  · exact of_channels_eq rfl
  · exact runProgram_follows n _ _ { s with speaker := "exec: " }
  · exact runText_follows n tested 1 _ { s with status := 0, speaker := "eval: " }
  · next file _ =>
      split
      · exact refuse { s with speaker := "" } _
      · exact runText_follows n tested 1 _ { s with status := 0, speaker := file ++ ": " }
  · split
    · next command _ hcommand =>
        exact Builtin.goesOn_of_lookup hcommand _ { s with speaker := "" }
    · exact useTool s _ _ _
    · exact runProgram_follows n _ _ s
termination_by (n, 5)

theorem invoke_follows (n : Nat) (tested : Bool) (args : List String) (s : State) :
    s.Follows (invoke n tested args s) := by
  rw [invoke.eq_def]
  split
  · exact refl s
  · exact foldl describe _ s
  · exact of_channels_eq rfl
  · exact perform_follows n tested _ _ s
  · split
    · exact perform_follows n tested _ _ s
    · next _ args _ _ _ _ body _ =>
        have hbody := run_follows n tested body
          { s with arguments := args, hidden := some [], loops := 0 }
        exact (hbody.trans (foldl restore _ _)).congr rfl
termination_by (n, 6)

/-- A call puts in its words, redirects its streams and runs what it names. -/
theorem runCall_follows (n : Nat) (tested : Bool) (c : Call) (s : State) :
    s.Follows (runCall n tested c s) := by
  have hinside := runInside_goesOn n
  have hwords := expandWords_follows hinside c.words s
  rw [runCall]
  rcases hargs : expandWords (runInside n) c.words s with ⟨args, r⟩
  rw [hargs] at hwords
  dsimp only
  split
  · exact hwords
  · have hredirect := hwords.trans (redirect_follows hinside c.redirects r)
    split
    · next text u heq =>
        rw [heq] at hredirect
        have hfail := (hredirect.trans (fail u text)).trans (restoreStreams _ r c.redirects)
        split
        · exact hfail.congr rfl
        · exact hfail
    · next u heq =>
        rw [heq] at hredirect
        have hassign := hredirect.trans (assignAll_follows hinside c.assignments u)
        generalize assignAll (runInside n) c.assignments u = v at hassign ⊢
        have htraced (words : List String) := hassign.trans (trace v r words)
        have hinvoked (words exported : List String) :
            s.Follows (invoke n tested args { v.trace r words with exported }) :=
          (invoke_follows n tested args _).after ((htraced words).congr rfl)
        split
        · exact hassign
        · split
          · exact (restoreStreams _ r _).after ((htraced _).congr rfl)
          · split
            · exact restoreAll (hinvoked _ _) _ _ _
            · exact (restoreAll (hinvoked _ _) _ _ _).trans (restoreStreams _ r _)
termination_by (n, 7)

end

/-- However a command ends, what has been written before stays in front of what it writes. -/
theorem collected_run (n : Nat) (tested : Bool) (c : Command) (s : State) (i : Nat) :
    s.collected i <+: (run n tested c s).collected i :=
  (run_follows n tested c s).collected_grows i

/-- Of two commands in sequence, the second one takes back nothing that the first one wrote. -/
theorem collected_sequence (n : Nat) (tested : Bool) (first second : Command) (s : State)
    (i : Nat) :
    (run n tested first s).collected i <+:
      (run (n + 1) tested (.sequence first second) s).collected i := by
  by_cases hgone : s.departure.isSome
  · have hfirst : (run n tested first s).collected i = s.collected i := by
      cases n with
      | zero =>
          rw [run]
          rfl
      | succ n => rw [run_of_departure hgone]
    rw [hfirst]
    exact collected_run (n + 1) tested _ s i
  · rw [run, if_neg hgone]
    exact collected_run n tested second _ i

end GameExport.Shell
