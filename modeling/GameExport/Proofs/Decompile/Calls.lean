import GameExport.Proofs.Decompile

/-! # The calls of a decompiler

A run hands the assemblies that are more than references to the decompiler, one after the other, and
ends with the first one that fails. A decompiler that records its calls shows what was asked of it,
which files it found and how each call ended. The record changes nothing else.
-/

namespace GameExport

open GameExport.Path FileTree

variable {σ : Type} {root : Path} {settings : DecompileSettings}

namespace ManagedAssembly

def plainName (a : ManagedAssembly) : String := Assembly.baseName a.name

def output (root : Path) (a : ManagedAssembly) : Path := directory root a.plainName

def decompilable (as : List ManagedAssembly) : List ManagedAssembly :=
  as.filter fun a => !Assembly.isReference a.plainName

/-- A reference is never decompiled. -/
theorem decompilable_cons_of_isReference {a : ManagedAssembly}
    (hname : Assembly.isReference a.plainName) (as : List ManagedAssembly) :
    decompilable (a :: as) = decompilable as :=
  List.filter_cons_of_neg (by simp [hname])

theorem decompilable_cons {a : ManagedAssembly} (hname : Assembly.isReference a.plainName = false)
    (as : List ManagedAssembly) : decompilable (a :: as) = a :: decompilable as :=
  List.filter_cons_of_pos (by simp [hname])

end ManagedAssembly

/-- One call of a decompiler, with the files that it found and left and how it ended. -/
structure DecompilerCall where
  assembly : ManagedAssembly
  directory : Path
  settings : DecompileSettings
  tree : FileTree
  result : Except Failure Unit
  left : FileTree

/-- The call tells the directory of its assembly, which is there, and the settings of the run. -/
structure DecompilerCall.IsPrepared (c : DecompilerCall) (root : Path)
    (settings : DecompileSettings) : Prop where
  directory : c.directory = c.assembly.output root
  settings : c.settings = settings
  isDirectory : c.tree.isDirectory c.directory

/-- Between two calls nothing happens to the files but that the directory for the second one is
made. -/
def DecompilerCall.Chained : FileTree → List DecompilerCall → Prop
  | _, [] => True
  | t, c :: calls =>
      (Disk.makeDirectories c.directory).outcome t = (.ok (), c.tree) ∧ Chained c.left calls

/-- What the last call left, or what was there before if there was no call. -/
def DecompilerCall.leftBy : FileTree → List DecompilerCall → FileTree
  | t, [] => t
  | _, c :: calls => leftBy c.left calls

def Job.withCalls (j : Job σ) (calls : List DecompilerCall) : Job (σ × List DecompilerCall) :=
  ⟨j.tree, j.descriptors, (j.own, calls)⟩

/-- How a run ends that has made some calls with success: there is nothing left to do, or the
directory for the next assembly cannot be made, or the call for it fails. -/
inductive RunEnds (root : Path) (before : FileTree) (count : Nat) :
    FileTree → List ManagedAssembly → List DecompilerCall → Except Failure Nat → Prop
  | finished : RunEnds root before count before [] [] (.ok count)
  | creating {a : ManagedAssembly} {rest : List ManagedAssembly} {tree : FileTree}
      {cause : FileError}
      (h : (Disk.makeDirectories (a.output root)).outcome before = (.error cause, tree)) :
      RunEnds root before count tree (a :: rest) []
        (.error (.during (.creating (a.output root)) (.file cause)))
  | decompiling {call : DecompilerCall} {rest : List ManagedAssembly} {cause : Failure}
      (h : call.result = .error cause) :
      RunEnds root before count call.left (call.assembly :: rest) [call]
        (.error (.during (.decompiling call.assembly.plainName) cause))

/-- A run made its calls in the order of the list. Those of `made` succeeded, and `last` holds the
one that failed, if there was one. The assemblies of `rest` are left over. -/
structure RunsInOrder (root : Path) (settings : DecompileSettings) (as : List ManagedAssembly)
    (j k : Job σ) (result : Except Failure Nat) (made last : List DecompilerCall)
    (rest : List ManagedAssembly) : Prop where
  inOrder : ManagedAssembly.decompilable as = made.map (·.assembly) ++ rest
  succeeded : ∀ c ∈ made, c.result = .ok ()
  chained : DecompilerCall.Chained j.tree (made ++ last)
  ends : RunEnds root (DecompilerCall.leftBy j.tree made) made.length k.tree rest last result
  prepared : ∀ c ∈ made ++ last, c.IsPrepared root settings
  descriptors : ∀ name, k.descriptors.get? name = (j.descriptors.get? name).or
    (if name ∈ made.map (·.assembly.plainName) then
      some ⟨name, ManagedAssembly.directory root name⟩ else none)

/-- One more call before only adds to the count. -/
theorem RunEnds.succ {before tree : FileTree} {count : Nat} {rest : List ManagedAssembly}
    {last : List DecompilerCall} {result : Except Failure Nat}
    (h : RunEnds root before count tree rest last result) :
    RunEnds root before (count + 1) tree rest last (result.map (1 + ·)) := by
  cases h with
  | finished =>
      rw [Nat.add_comm]
      exact .finished
  | creating h => exact .creating h
  | decompiling h => exact .decompiling h

namespace RunsInOrder

variable {a : ManagedAssembly} {as rest : List ManagedAssembly} {i j k : Job σ}
  {result : Except Failure Nat} {made last : List DecompilerCall}

theorem cons_of_isReference (hname : Assembly.isReference a.plainName)
    (h : RunsInOrder root settings as j k result made last rest) :
    RunsInOrder root settings (a :: as) j k result made last rest :=
  { h with inOrder := (ManagedAssembly.decompilable_cons_of_isReference hname as).trans h.inOrder }

/-- A run that stops at its first assembly has taken nothing down. -/
theorem of_stop (hname : Assembly.isReference a.plainName = false)
    (hdescriptors : k.descriptors = j.descriptors)
    (hchained : DecompilerCall.Chained j.tree last)
    (hends : RunEnds root j.tree 0 k.tree (a :: ManagedAssembly.decompilable as) last result)
    (hlast : ∀ c ∈ last, c.IsPrepared root settings) :
    RunsInOrder root settings (a :: as) j k result [] last
      (a :: ManagedAssembly.decompilable as) where
  inOrder := ManagedAssembly.decompilable_cons hname as
  succeeded := by simp
  chained := hchained
  ends := hends
  prepared := hlast
  descriptors := fun name => by simp [hdescriptors]

/-- A call that succeeds comes before those of the rest of the run. -/
theorem cons {c : DecompilerCall} (hname : Assembly.isReference c.assembly.plainName = false)
    (hc : c.IsPrepared root settings) (hok : c.result = .ok ())
    (hmake : (Disk.makeDirectories c.directory).outcome j.tree = (.ok (), c.tree))
    (hleft : i.tree = c.left)
    (hdescriptors : i.descriptors =
      (j.descriptors.tryAdd c.assembly.plainName (c.assembly.output root)).2)
    (h : RunsInOrder root settings as i k result made last rest) :
    RunsInOrder root settings (c.assembly :: as) j k (result.map (1 + ·)) (c :: made) last
      rest where
  inOrder := by
    rw [ManagedAssembly.decompilable_cons hname, h.inOrder]
    rfl
  succeeded := List.forall_mem_cons.mpr ⟨hok, h.succeeded⟩
  chained := ⟨hmake, hleft ▸ h.chained⟩
  ends := by
    rw [DecompilerCall.leftBy, ← hleft]
    exact h.ends.succ
  prepared := List.forall_mem_cons.mpr ⟨hc, h.prepared⟩
  descriptors := fun name => by
    -- the first directory for a name stays, so a later call for the same name does not count
    rw [h.descriptors, hdescriptors, DescriptorMap.get?_tryAdd, Option.or_assoc, List.map_cons]
    by_cases heq : c.assembly.plainName = name
    · subst heq
      simp [ManagedAssembly.output]
    · simp [heq, Ne.symm heq]

end RunsInOrder

namespace Decompiler

def recording (d : Decompiler σ) : Decompiler (σ × List DecompilerCall) :=
  fun a directory settings => .of fun s =>
    let (result, t) := (d a directory settings).outcome (s.1, s.2.1)
    (result, (t.1, (t.2, s.2.2 ++ [⟨a, directory, settings, s.1, result, t.1⟩])))

def calls (d : Decompiler σ) (root : Path) (settings : DecompileSettings)
    (as : List ManagedAssembly) (j : Job σ) : List DecompilerCall :=
  ((d.recording.run root settings as).outcome (j.withCalls [])).2.own.2

variable {d : Decompiler σ} {a : ManagedAssembly} {as : List ManagedAssembly} {j k : Job σ}

/-! ## One assembly -/

/-- An assembly gets its directory, then the call is made, then it is taken down. -/
theorem outcome_runOne (hname : Assembly.isReference a.plainName = false) (j : Job σ) :
    (d.runOne root settings a).outcome j =
      match (Disk.makeDirectories (a.output root)).outcome j.tree with
      | (.error cause, t) =>
          (.error (.during (.creating (a.output root)) (.file cause)), { j with tree := t })
      | (.ok _, t) =>
          match (d a (a.output root) settings).outcome (t, j.own) with
          | (.error cause, s) =>
              (.error (.during (.decompiling a.plainName) cause), ⟨s.1, j.descriptors, s.2⟩)
          | (.ok _, s) =>
              (.ok 1, ⟨s.1, (j.descriptors.tryAdd a.plainName (a.output root)).2, s.2⟩) := by
  unfold runOne
  dsimp only
  rw [if_neg (by simpa [ManagedAssembly.plainName] using hname)]
  change (((Job.files (Disk.makeDirectories (a.output root))).during (.creating (a.output root)) >>=
    fun _ => (Job.help (d a (a.output root) settings)).during (.decompiling a.plainName) >>=
      fun _ => Job.takeDown a.plainName (a.output root) >>= fun _ => pure 1).outcome j) = _
  simp only [Action.outcome_bind, Action.during, Action.outcome_mapError, Job.files, Job.help,
    Action.outcome_zoom]
  rcases (Disk.makeDirectories (a.output root)).outcome j.tree with ⟨made, t⟩
  cases made with
  | error cause => rfl
  | ok _ =>
      simp only [Except.mapError]
      rcases (d a (a.output root) settings).outcome (t, j.own) with ⟨called, s⟩
      cases called <;> rfl

/-- The record of a call holds what was told and found and how the call ended. -/
theorem outcome_recording (d : Decompiler σ) (a : ManagedAssembly) (directory : Path)
    (settings : DecompileSettings) (t : FileTree) (own : σ) (calls : List DecompilerCall) :
    (d.recording a directory settings).outcome (t, (own, calls)) =
      let called := (d a directory settings).outcome (t, own)
      (called.1, (called.2.1, (called.2.2,
        calls ++ [⟨a, directory, settings, t, called.1, called.2.1⟩]))) := rfl

/-- The directory of an assembly is there when the call for it is made. -/
theorem isDirectory_output (a : ManagedAssembly) {t u : FileTree} {x : Unit}
    (h : (Disk.makeDirectories (a.output root)).outcome t = (.ok x, u)) :
    u.isDirectory (a.output root) :=
  (Disk.makeDirectories_eq_ok h).2.1
    (ManagedAssembly.isPlaced_directory root a.plainName).text_ne_empty

/-- What is done for an assembly: its directory cannot be made, or the call for it is made. -/
theorem runOne_calls (d : Decompiler σ) (root : Path) (settings : DecompileSettings)
    (hname : Assembly.isReference a.plainName = false) (j : Job σ) (calls : List DecompilerCall) :
    (∃ cause t, (Disk.makeDirectories (a.output root)).outcome j.tree = (.error cause, t) ∧
      (d.runOne root settings a).outcome j =
        (.error (.during (.creating (a.output root)) (.file cause)), { j with tree := t }) ∧
      (d.recording.runOne root settings a).outcome (j.withCalls calls) =
        (.error (.during (.creating (a.output root)) (.file cause)),
          Job.withCalls { j with tree := t } calls)) ∨
    ∃ call k, call.assembly = a ∧ call.IsPrepared root settings ∧
      (Disk.makeDirectories call.directory).outcome j.tree = (.ok (), call.tree) ∧
      k.tree = call.left ∧ ((∃ cause, call.result = .error cause ∧ k.descriptors = j.descriptors ∧
        (d.runOne root settings a).outcome j =
          (.error (.during (.decompiling a.plainName) cause), k) ∧
        (d.recording.runOne root settings a).outcome (j.withCalls calls) =
          (.error (.during (.decompiling a.plainName) cause), k.withCalls (calls ++ [call]))) ∨
      (call.result = .ok () ∧
        k.descriptors = (j.descriptors.tryAdd a.plainName (a.output root)).2 ∧
        (d.runOne root settings a).outcome j = (.ok 1, k) ∧
        (d.recording.runOne root settings a).outcome (j.withCalls calls) =
          (.ok 1, k.withCalls (calls ++ [call])))) := by
  rw [outcome_runOne hname, outcome_runOne hname, Job.withCalls]
  dsimp only
  rcases hmake : (Disk.makeDirectories (a.output root)).outcome j.tree with ⟨made, t⟩
  cases made with
  | error cause => exact Or.inl ⟨cause, t, rfl, rfl, rfl⟩
  | ok _ =>
      right
      have hdirectory := isDirectory_output a hmake
      generalize houtput : a.output root = directory at hmake hdirectory ⊢
      dsimp only
      rw [outcome_recording]
      dsimp only
      rcases (d a directory settings).outcome (t, j.own) with ⟨called, s⟩
      have hprepared : DecompilerCall.IsPrepared ⟨a, directory, settings, t, called, s.1⟩ root
          settings := ⟨houtput.symm, rfl, hdirectory⟩
      refine ⟨⟨a, directory, settings, t, called, s.1⟩, ?_⟩
      cases called with
      | error cause =>
          refine ⟨⟨s.1, j.descriptors, s.2⟩, rfl, hprepared, hmake, rfl, Or.inl ⟨cause, ?_⟩⟩
          exact ⟨rfl, rfl, rfl, rfl⟩
      | ok _ =>
          refine ⟨⟨s.1, (j.descriptors.tryAdd a.plainName directory).2, s.2⟩, rfl, hprepared,
            hmake, rfl, ?_⟩
          exact Or.inr ⟨rfl, rfl, rfl, rfl⟩

/-! ## One assembly after the other -/

/-- A reference in front of the list makes no difference to a run. -/
theorem run_cons_of_isReference (hname : Assembly.isReference a.plainName) :
    (d.run root settings (a :: as)).outcome j = (d.run root settings as).outcome j := by
  rw [run, runOne_of_isReference hname, Action.outcome_bind, Action.outcome_pure]
  simp only [Action.outcome_bind, Nat.zero_add]
  rcases (d.run root settings as).outcome j with ⟨result, k⟩
  cases result <;> rfl

theorem run_cons_of_error {e : Failure}
    (h : (d.runOne root settings a).outcome j = (.error e, k)) :
    (d.run root settings (a :: as)).outcome j = (.error e, k) := by
  rw [run, Action.outcome_bind, h]

/-- A run goes on behind its first assembly and counts it. -/
theorem run_cons_of_ok {n : Nat} (h : (d.runOne root settings a).outcome j = (.ok n, k)) :
    (d.run root settings (a :: as)).outcome j =
      (((d.run root settings as).outcome k).1.map (n + ·),
        ((d.run root settings as).outcome k).2) := by
  rw [run, Action.outcome_bind, h]
  dsimp only
  rw [Action.outcome_bind]
  rcases (d.run root settings as).outcome k with ⟨result, i⟩
  cases result <;> rfl

/-- Calls that are recorded already stay in front of the new ones. -/
theorem run_inOrder_after {result : Except Failure Nat}
    (h : (d.run root settings as).outcome j = (result, k)) (calls : List DecompilerCall) :
    ∃ made last rest,
      (d.recording.run root settings as).outcome (j.withCalls calls) =
        (result, k.withCalls (calls ++ (made ++ last))) ∧
      RunsInOrder root settings as j k result made last rest := by
  induction as generalizing j calls result with
  | nil =>
      obtain ⟨rfl, rfl⟩ := Prod.mk.inj h
      refine ⟨[], [], [], ?_, rfl, by simp, trivial, .finished, by simp, fun name => by simp⟩
      rw [List.append_nil, List.append_nil]
      rfl
  | cons a as ih =>
      cases hname : Assembly.isReference a.plainName with
      | true =>
          rw [run_cons_of_isReference hname] at h ⊢
          obtain ⟨made, last, rest, hcalls, hran⟩ := ih h calls
          exact ⟨made, last, rest, hcalls, hran.cons_of_isReference hname⟩
      | false =>
          rcases runOne_calls d root settings hname j calls with
            ⟨cause, t, hmake, hone, hrecorded⟩ | ⟨call, i, rfl, hcall, hmake, hleft, hended⟩
          · rw [run_cons_of_error hone] at h
            obtain ⟨rfl, rfl⟩ := Prod.mk.inj h
            refine ⟨[], [], _, ?_, .of_stop hname rfl trivial (.creating hmake) (by simp)⟩
            rw [run_cons_of_error hrecorded, List.append_nil, List.append_nil]
          · rcases hended with
              ⟨cause, hresult, hdescriptors, hone, hrecorded⟩ |
              ⟨hresult, hdescriptors, hone, hrecorded⟩
            · rw [run_cons_of_error hone] at h
              obtain ⟨rfl, rfl⟩ := Prod.mk.inj h
              refine ⟨[], [call], _, run_cons_of_error hrecorded,
                .of_stop hname hdescriptors ⟨hmake, trivial⟩ ?_ (by simpa using hcall)⟩
              rw [hleft]
              exact .decompiling hresult
            · rw [run_cons_of_ok hone] at h
              obtain ⟨rfl, rfl⟩ := Prod.mk.inj h
              obtain ⟨made, last, rest, hcalls, hran⟩ := ih rfl (calls ++ [call])
              refine ⟨call :: made, last, rest, ?_,
                .cons hname hcall hresult hmake hleft hdescriptors hran⟩
              rw [run_cons_of_ok hrecorded, hcalls, List.append_assoc]
              rfl

/-- Every call of a run is prepared. -/
theorem isPrepared_of_mem_calls {c : DecompilerCall} (hc : c ∈ d.calls root settings as j) :
    c.IsPrepared root settings := by
  obtain ⟨made, last, rest, hcalls, hran⟩ :=
    run_inOrder_after (show (d.run root settings as).outcome j = (_, _) from rfl) []
  rw [calls, hcalls] at hc
  exact hran.prepared c hc

/-- A run calls the decompiler for the assemblies that are more than references, in the order of the
list, up to the first that fails, and for no other one. Each call finds the directory of its
assembly, otherwise the files are as the call before left them, and what is taken down are the
assemblies whose calls succeeded. -/
theorem run_inOrder (d : Decompiler σ) (root : Path) (settings : DecompileSettings)
    (as : List ManagedAssembly) (j : Job σ) :
    let ran := (d.run root settings as).outcome j
    ∃ made last rest,
      (d.recording.run root settings as).outcome (j.withCalls []) =
        (ran.1, ran.2.withCalls (made ++ last)) ∧
      RunsInOrder root settings as j ran.2 ran.1 made last rest :=
  run_inOrder_after rfl []

end Decompiler

end GameExport
