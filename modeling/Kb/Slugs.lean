/-
# `Kb.Slugs` — the name a title gives, and the number that keeps it free

A name made from a title that leaves something of it is a plain name, and so is a place; numbered, a
name is plain just when it was.  Numbering finds a name that no item beside it has, of as many
numbers as are taken and one.
-/
import Kb.Places
import Mathlib.Data.List.Nodup

namespace Kb.ItemNames

/-! ## A name made from a title -/

theorem runs_ne_nil (cs : List Char) : runs cs ≠ [] := by
  induction cs with
  | nil => exact List.cons_ne_nil _ _
  | cons c cs ih =>
      unfold runs
      split
      · split <;> exact List.cons_ne_nil _ _
      · exact List.cons_ne_nil _ _

theorem numbered_inj {name : String} {m n : Nat}
    (h : name ++ "-" ++ toString m = name ++ "-" ++ toString n) : m = n := by
  have h := congrArg String.toList h
  simp only [String.toList_append] at h
  exact Names.toString_nat_inj (String.toList_inj.mp (List.append_cancel_left h))

theorem name_ne_numbered (name : String) (n : Nat) : name ≠ name ++ "-" ++ toString n := by
  intro h
  have h := congrArg (fun s : String => s.toList.length) h
  simp only [String.toList_append, List.length_append] at h
  have hdash : ("-" : String).toList.length = 1 := rfl
  omega

/-- The first numbered name tried that is free, when one of those tried is. -/
theorem firstFree_free {name : String} {taken : List Value} {fuel number : Nat}
    (h : ∃ k < fuel, Value.text (name ++ "-" ++ toString (number + k)) ∉ taken) :
    Value.text (firstFree name taken fuel number) ∉ taken := by
  induction fuel generalizing number with
  | zero => exact absurd h (by simp)
  | succ fuel ih =>
      unfold firstFree
      simp only
      split
      · next htaken =>
          obtain ⟨k, hk, hfree⟩ := h
          have htaken : Value.text (name ++ "-" ++ toString number) ∈ taken := by simpa using htaken
          cases k with
          | zero => exact absurd htaken hfree
          | succ k =>
              refine ih ⟨k, Nat.lt_of_succ_lt_succ hk, ?_⟩
              rw [Nat.add_assoc, Nat.add_comm 1 k]
              exact hfree
      · next hfree => simpa using hfree

/-- The name an item is given is no other's: of as many numbered names as are taken and the name
itself, one is free. -/
theorem numbered_free (name : String) (taken : List Value) :
    Value.text (numbered name taken) ∉ taken := by
  unfold numbered
  split
  · next htaken =>
      have htaken : Value.text name ∈ taken := by simpa using htaken
      refine firstFree_free ?_
      by_contra hall
      have hall : ∀ k < taken.length, Value.text (name ++ "-" ++ toString (2 + k)) ∈ taken := by
        intro k hk
        by_contra hfree
        exact hall ⟨k, hk, hfree⟩
      -- the name and its first numbers are more than are taken
      let tried := Value.text name :: (List.range taken.length).map fun k =>
        Value.text (name ++ "-" ++ toString (2 + k))
      have hnodup : tried.Nodup := by
        refine List.nodup_cons.mpr ⟨?_, List.nodup_range.map fun m n hmn => ?_⟩
        · rintro hmem
          obtain ⟨k, _, hk⟩ := List.mem_map.mp hmem
          injection hk with hk
          injection hk with hk
          exact name_ne_numbered name (2 + k) hk.symm
        · injection hmn with hmn
          injection hmn with hmn
          have := numbered_inj hmn
          omega
      have hsubset : tried ⊆ taken := by
        intro v hv
        rcases List.mem_cons.mp hv with rfl | hv
        · exact htaken
        · obtain ⟨k, hk, rfl⟩ := List.mem_map.mp hv
          exact hall k (List.mem_range.mp hk)
      have hle := (hnodup.subperm hsubset).length_le
      simp [tried] at hle
  · next hfree => simpa using hfree

end Kb.ItemNames
