import GameExport.Proofs.Text.ByteOrder
import GameExport.Shell.Redirection

/-! # Channels only go on

What a script does to a channel is to read from its front or to write behind what has been written.
So every channel that a state has is there in all later states, and goes on from where it was:
nothing that has been written is lost, and nothing that has been read comes back.
-/

namespace GameExport.Shell

/-- The second channel is the first one after some more was read or written. -/
inductive Channel.Follows : Channel → Channel → Prop where
  | source {before rest : List UInt8} (h : rest <:+ before) : Follows (.source before) (.source rest)
  | collector (written more : ByteArray) : Follows (.collector written) (.collector (written ++ more))
  | file (l : Location) (place : Option Nat) (n : Nat) :
      Follows (.file l place) (.file l (place.map (· + n)))
  | nowhere : Follows .nowhere .nowhere

namespace Channel.Follows

theorem refl : ∀ c : Channel, c.Follows c
  | .source _ => .source (List.suffix_refl _)
  | .collector written => by simpa using Follows.collector written ByteArray.empty
  | .file l place => by simpa using Follows.file l place 0
  | .nowhere => .nowhere

theorem trans {c d e : Channel} (h : c.Follows d) (k : d.Follows e) : c.Follows e := by
  cases h with
  | source h =>
      cases k with
      | source k => exact .source (k.trans h)
  | collector written more =>
      cases k with
      | collector _ more' =>
          rw [ByteArray.append_assoc]
          exact .collector written (more ++ more')
  | file l place n =>
      cases k with
      | file _ _ n' =>
          rw [Option.map_map]
          simpa [Function.comp_def, Nat.add_assoc] using Follows.file l place (n + n')
  | nowhere => exact k

/-- Whatever is written to a channel, it goes on. -/
theorem write (bytes : ByteArray) (t : FileTree) (c : Channel) :
    Follows c (c.write bytes t).1 := by
  cases c with
  | source rest => exact refl _
  | collector written => exact .collector written bytes
  | nowhere => exact refl _
  | file l place =>
      cases l with
      | nil => exact refl _
      | cons name parent =>
          simp only [Channel.write]
          split
          · exact .file _ place bytes.size
          · exact refl _

end Channel.Follows

/-- Every channel of the first state is there in the second one, and goes on. -/
def State.Follows (s r : State) : Prop :=
  ∀ (i : Nat) (c : Channel), s.channels[i]? = some c → ∃ d, r.channels[i]? = some d ∧ c.Follows d

def Substitute.GoesOn (substitute : Substitute) : Prop :=
  ∀ (line : Nat) (script : List Char) (s : State), s.Follows (substitute line script s).2

namespace State

variable {s r u : State}

namespace Follows

theorem of_channels_eq (h : r.channels = s.channels) : s.Follows r :=
  fun i c hc => ⟨c, by rw [h, hc], .refl c⟩

theorem refl (s : State) : s.Follows s := of_channels_eq rfl

theorem trans (h : s.Follows r) (k : r.Follows u) : s.Follows u := by
  intro i c hc
  obtain ⟨d, hd, hcd⟩ := h i c hc
  obtain ⟨e, he, hde⟩ := k i d hd
  exact ⟨e, he, hcd.trans hde⟩

/-- The step is known before the state in which it is taken. -/
theorem after (k : r.Follows u) (h : s.Follows r) : s.Follows u := h.trans k

/-- Only the channels of the later state count. -/
theorem congr (h : s.Follows r) (hu : u.channels = r.channels) : s.Follows u :=
  h.trans (of_channels_eq hu)

theorem set {i : Nat} {c d : Channel} (hc : s.channels[i]? = some c) (hd : c.Follows d)
    (hr : r.channels = s.channels.setIfInBounds i d) : s.Follows r := by
  intro j e he
  rw [hr, Array.getElem?_setIfInBounds]
  by_cases hij : i = j
  · subst hij
    obtain ⟨hlt, -⟩ := Array.getElem?_eq_some_iff.mp hc
    obtain rfl := Option.some.inj (hc.symm.trans he)
    exact ⟨d, by rw [if_pos rfl, if_pos hlt], hd⟩
  · exact ⟨e, by rw [if_neg hij, he], .refl e⟩

/-- Steps one after the other go on if each of them does. -/
theorem foldl {α : Type} {f : State → α → State} (hf : ∀ (s : State) a, s.Follows (f s a))
    (as : List α) (s : State) : s.Follows (as.foldl f s) := by
  induction as generalizing s with
  | nil => exact refl s
  | cons a as ih => exact (hf s a).trans (ih _)

theorem foldr {α : Type} {f : α → State → State} (hf : ∀ a (s : State), s.Follows (f a s))
    (as : List α) (s : State) : s.Follows (as.foldr f s) := by
  induction as with
  | nil => exact refl s
  | cons a as ih => exact ih.trans (hf a _)

theorem assign (s : State) (name value : String) : s.Follows (s.assign name value) :=
  of_channels_eq rfl

theorem unset (s : State) (name : String) : s.Follows (s.unset name) := of_channels_eq rfl

theorem restore (s : State) (binding : String × Option String) : s.Follows (s.restore binding) := by
  unfold State.restore
  split <;> exact of_channels_eq rfl

/-! ## Streams -/

/-- A stream that gets a new channel leaves the others where they are. -/
theorem attach (s : State) (stream : Nat) (c : Channel) : s.Follows (s.attach stream c) := by
  intro i d hd
  obtain ⟨hlt, -⟩ := Array.getElem?_eq_some_iff.mp hd
  refine ⟨d, ?_, .refl d⟩
  show (s.channels.push c)[i]? = some d
  rw [Array.getElem?_push, if_neg (Nat.ne_of_lt hlt), hd]

/-- What is written goes behind what has been written. -/
theorem emit (s : State) (stream : Nat) (bytes : List UInt8) : s.Follows (s.emit stream bytes) := by
  unfold State.emit
  split
  · exact refl s
  · next i _ =>
      split
      · exact refl s
      · next c hc => exact set hc (.write _ s.tree c) rfl

/-- What is left to be read is an end of what could be read. -/
theorem leaveInput {rest : List UInt8} (h : rest <:+ s.input) : s.Follows (s.leaveInput rest) := by
  unfold State.leaveInput
  split
  · exact refl s
  · next i hi =>
      split
      · next before hbefore =>
          have hinput : s.input = before := by simp [State.input, hi, hbefore]
          exact set hbefore (.source (hinput ▸ h)) rfl
      · exact refl s

/-! ## Saying what is wrong -/

theorem complain (s : State) (text : String) : s.Follows (s.complain text) := emit _ _ _

theorem fail (s : State) (text : String) : s.Follows (s.fail text) :=
  (complain s text).congr rfl

theorem refuse (s : State) (text : String) : s.Follows (s.refuse text) :=
  (complain s text).congr rfl

theorem trace (s earlier : State) (words : List String) : s.Follows (s.trace earlier words) := by
  unfold State.trace
  split
  · exact emit { s with streams := earlier.streams } 2 _
  · exact refl s

/-- A copy of the script shares its channels. -/
theorem ofApart {f : State → State} (hf : ∀ s : State, s.Follows (f s)) (s : State) :
    s.Follows (s.apart f) :=
  hf { s with traps := s.traps.filter (·.2 = "") }

end Follows

/-- What has been written to a channel stays, in front of what is written later. -/
theorem Follows.collected_grows (h : s.Follows r) (i : Nat) : s.collected i <+: r.collected i := by
  unfold collected
  cases hc : s.channels[i]? with
  | none => exact List.nil_prefix
  | some c =>
      obtain ⟨d, hd, hcd⟩ := h i c hc
      rw [hd]
      cases hcd with
      | collector written more =>
          simp only [Text.Utf8.toList_eq, ByteArray.data_append, Array.toList_append]
          exact List.prefix_append _ _
      | _ => exact List.nil_prefix

end State

end GameExport.Shell
