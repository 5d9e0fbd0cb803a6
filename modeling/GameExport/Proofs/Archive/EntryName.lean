import GameExport.Archive.EntryName
import GameExport.Proofs.Path.Descent

/-! # Where safe names lead

The depth that is counted along a name says how many names the walk is below the folder that it
started from. A safe name has a depth all the way, so whatever is visited on the way stands at that
folder or below it.
-/

namespace GameExport.Archive

open GameExport.Path

/-! ## Depth -/

section Depth

variable {cs : List Component} {c : Component} {d e : Nat}

/-- A safe step ends as deep as the count of the depth says. -/
theorem depthAfter_eq_some {inner : Location} (h : depthAfter inner.length c = some d) :
    ∃ below : Location, below.length = d ∧ ∀ l, c.follow (inner ++ l) = below ++ l := by
  cases c with
  | root => cases h
  | here =>
      obtain rfl := Option.some.inj h
      exact ⟨inner, rfl, fun l => rfl⟩
  | name n =>
      obtain rfl := Option.some.inj h
      exact ⟨n :: inner, rfl, fun l => rfl⟩
  | up =>
      cases inner with
      | nil => cases h
      | cons n inner =>
          obtain rfl := Option.some.inj h
          exact ⟨inner, rfl, fun l => rfl⟩

/-- A walk with a depth ends so many names below the folder that it started from. -/
theorem place_of_depth {inner : Location} (h : cs.foldlM depthAfter inner.length = some d) :
    ∃ below : Location, below.length = d ∧ ∀ l, Component.place (inner ++ l) cs = below ++ l := by
  induction cs generalizing inner with
  | nil =>
      obtain rfl := Option.some.inj h
      exact ⟨inner, rfl, fun l => rfl⟩
  | cons c cs ih =>
      rw [List.foldlM_cons] at h
      obtain ⟨e, hstep, hrest⟩ := Option.bind_eq_some_iff.mp h
      obtain ⟨next, rfl, hnext⟩ := depthAfter_eq_some hstep
      obtain ⟨below, hlength, hbelow⟩ := ih hrest
      refine ⟨below, hlength, fun l => ?_⟩
      rw [Component.place_cons, hnext, hbelow]

/-- Steps that stay where they are do not change the depth. -/
theorem foldlM_depthAfter_filter (cs : List Component) (d : Nat) :
    (cs.filter (· ≠ .here)).foldlM depthAfter d = cs.foldlM depthAfter d := by
  induction cs generalizing d with
  | nil => rfl
  | cons c cs ih =>
      by_cases hc : c = .here
      · subst hc
        rw [List.filter_cons_of_neg (by simp), List.foldlM_cons, ih]
        rfl
      · rw [List.filter_cons_of_pos (by simpa using hc), List.foldlM_cons, List.foldlM_cons]
        exact bind_congr fun e => ih e

def isNameComponent : Component → Bool
  | .name _ => true
  | _ => false

/-- A walk has a depth if it never starts anew, and it has never climbed more often than it has gone
down before. -/
theorem isSome_depth_iff :
    (cs.foldlM depthAfter d).isSome ↔
      .root ∉ cs ∧ ∀ before, before <+: cs →
        before.count .up ≤ d + before.countP isNameComponent := by
  induction cs generalizing d with
  | nil => simp
  | cons c cs ih =>
      have hprefix (P : List Component → Prop) :
          (∀ before, before <+: c :: cs → P before) ↔
            P [] ∧ ∀ before, before <+: cs → P (c :: before) := by
        constructor
        · intro h
          exact ⟨h [] (List.nil_prefix), fun before hb => h _ (List.cons_prefix_cons.mpr ⟨rfl, hb⟩)⟩
        · rintro ⟨hnil, hcons⟩ before hb
          rcases List.prefix_cons_iff.mp hb with rfl | ⟨rest, rfl, hrest⟩
          · exact hnil
          · exact hcons rest hrest
      rw [List.foldlM_cons, hprefix]
      cases c with
      | root => simp [depthAfter]
      | here => simp [depthAfter, ih, isNameComponent]
      | name n =>
          simp [depthAfter, ih, isNameComponent, List.countP_cons, Nat.add_assoc, Nat.add_comm 1]
      | up =>
          -- at the start there is nowhere to climb to, and below it one level less is left
          cases d with
          | zero =>
              have hfirst : ∃ before, before <+: cs ∧
                  before.countP isNameComponent < before.count .up + 1 :=
                ⟨[], List.nil_prefix, by simp⟩
              simpa [depthAfter, isNameComponent] using fun _ => hfirst
          | succ d => simp [depthAfter, ih, isNameComponent, Nat.add_right_comm]

end Depth

/-! ## Safe names -/

/-- A name is refused if it holds a zero, if it is absolute, or if it climbs out of the folder. -/
theorem isSafeName_iff {name : String} :
    isSafeName name ↔ '\x00' ∉ name.toList ∧ (Path.mk name).isAbsolute = false ∧
      ∀ before, before <+: (Path.mk name).components →
        before.count .up ≤ before.countP isNameComponent := by
  rw [isSafeName, Bool.and_eq_true, staysInside, isSome_depth_iff, mem_components (by simp),
    root_mem_steps]
  simp

/-- A safe name may be walked along its steps, dots included. -/
theorem depth_of_isSafeName {name : String} (h : isSafeName name) :
    ((Path.mk name).steps.foldlM depthAfter 0).isSome := by
  rw [isSafeName, Bool.and_eq_true, staysInside] at h
  rw [← foldlM_depthAfter_filter, ← filter_components, foldlM_depthAfter_filter]
  exact h.2

theorem not_isAbsolute_of_isSafeName {name : String} (h : isSafeName name) :
    (Path.mk name).isAbsolute = false :=
  (isSafeName_iff.mp h).2.1

/-- On the way along a safe name nothing is visited but the folder and what is below it. -/
theorem suffix_of_isSafeName {name : String} (h : isSafeName name) {l m : Location}
    (hm : m ∈ (Path.mk name).way l) : l <:+ m := by
  obtain ⟨before, after, hsteps, -, rfl⟩ := Component.mem_way_iff.mp hm
  obtain ⟨d, hdepth⟩ := Option.isSome_iff_exists.mp (depth_of_isSafeName h)
  rw [hsteps, List.foldlM_append] at hdepth
  obtain ⟨e, hbefore, -⟩ := Option.bind_eq_some_iff.mp hdepth
  have hinner : before.foldlM depthAfter (List.length ([] : Location)) = some e := hbefore
  obtain ⟨below, -, hbelow⟩ := place_of_depth hinner
  exact ⟨below, (hbelow l).symm⟩

/-- The path of an entry stays below the folder that it is joined to. -/
theorem mem_way_join_of_isSafeName {name : String} (h : isSafeName name) (p : Path)
    {l m : Location} (hm : m ∈ (p.join name).way l) : m ∈ p.way l ∨ p.place l <:+ m := by
  rw [way_join p (not_isAbsolute_of_isSafeName h), List.mem_append] at hm
  exact hm.imp_right (suffix_of_isSafeName h)

/-- A safe name leads nowhere but below the path that it is joined to. -/
theorem suffix_place_join_of_isSafeName {name : String} (h : isSafeName name) (p : Path)
    (l : Location) : p.place l <:+ (p.join name).place l := by
  rw [place_join p (not_isAbsolute_of_isSafeName h)]
  by_cases hsteps : (Path.mk name).steps = []
  · have hsame : (Path.mk name).place (p.place l) = p.place l := by
      rw [place, hsteps, Component.place_nil]
    exact ⟨[], hsame.symm⟩
  · exact suffix_of_isSafeName h (Component.place_mem_way _ hsteps)

end GameExport.Archive
