/-
# `Kb.Lib.Founded` — relations with no infinite path

A relation from each point to those it leads to.  Two rules.  A relation that grows by finitely many
points keeps having no infinite path when no path returns to a new point (`Ends.grown`).  And where
each point leads to those of a list, a bound that holds of a point as soon as it holds, one smaller,
of all the points below it, holds of every point from which no path is infinite (`bounded`): a
reading that recurses along the relation needs no more depth than that.
-/
import Mathlib.Data.Set.Finite.Lattice
import Mathlib.Logic.Relation
import Mathlib.Order.WellFounded

namespace Founded

open Relation

variable {α : Type} {R R' : α → α → Prop}

/-- No path of the relation is infinite. -/
def Ends (R : α → α → Prop) : Prop := ¬ ∃ path : ℕ → α, ∀ n, R (path n) (path (n + 1))

theorem ends_iff : Ends R ↔ WellFounded fun b a => R a b := by
  rw [wellFounded_iff_isEmpty_descending_chain, isEmpty_subtype]
  exact not_exists

/-- No path of such a relation returns to a point. -/
theorem Ends.no_return (h : Ends R) (a : α) : ¬ TransGen R a a := by
  intro hreturn
  have hwf : WellFounded (TransGen fun b a => R a b) := (ends_iff.mp h).transGen
  exact hwf.irrefl.irrefl a (transGen_swap.mpr hreturn)

/-- A path leads from any of its points to every later one. -/
theorem path_leads {path : ℕ → α} (hpath : ∀ n, R (path n) (path (n + 1))) {m n : ℕ} (h : m < n) :
    TransGen R (path m) (path n) := by
  induction h with
  | refl => exact .single (hpath m)
  | step _ ih => exact ih.tail (hpath _)

/-- A path through finitely many points returns to one of them, or is past them all from some point
on. -/
theorem path_returns {path : ℕ → α} (hpath : ∀ n, R (path n) (path (n + 1))) (points : List α) :
    (∃ a ∈ points, TransGen R a a) ∨ ∃ N, ∀ n, path (N + n) ∉ points := by
  by_cases hinf : {n | path n ∈ points}.Infinite
  · left
    obtain ⟨m, hm, n, hn, hne, heq⟩ :=
      hinf.exists_ne_map_eq_of_mapsTo (f := path) (t := {a | a ∈ points})
        (fun _ h => h) points.finite_toSet
    rcases Nat.lt_or_gt_of_ne hne with hlt | hlt
    · refine ⟨path m, hm, ?_⟩
      have hleads := path_leads hpath hlt
      rwa [← heq] at hleads
    · refine ⟨path n, hn, ?_⟩
      have hleads := path_leads hpath hlt
      rwa [heq] at hleads
  · right
    obtain ⟨N, hN⟩ := (Set.not_infinite.mp hinf).bddAbove
    refine ⟨N + 1, fun n hmem => ?_⟩
    have hle : N + 1 + n ≤ N := hN hmem
    omega

/-- A relation grown by finitely many points, none of which a path returns to, has no infinite path
when it had none. -/
theorem Ends.grown (h : Ends R) (old : α → Prop) (points : List α)
    (hold : ∀ a b, old a → old b → R' a b → R a b) (hpoints : ∀ a b, R' a b → old a ∨ a ∈ points)
    (hreturn : ∀ a ∈ points, ¬ TransGen R' a a) : Ends R' := by
  rintro ⟨path, hpath⟩
  rcases path_returns hpath points with ⟨a, ha, hreturns⟩ | ⟨N, hN⟩
  · exact hreturn a ha hreturns
  · have hall : ∀ n, old (path (N + n)) :=
      fun n => (hpoints _ _ (hpath (N + n))).resolve_right (hN n)
    exact h ⟨fun n => path (N + n), fun n => hold _ _ (hall n) (hall (n + 1)) (hpath (N + n))⟩

/-! ## Bounds of a recursion -/

/-- What holds of each entry of a list from a bound on holds of all of them from one bound on. -/
theorem bound_of_list {P : ℕ → α → Prop} (hmono : ∀ m n a, m ≤ n → P m a → P n a) (as : List α)
    (h : ∀ a ∈ as, ∃ n, P n a) : ∃ n, ∀ a ∈ as, P n a := by
  induction as with
  | nil => exact ⟨0, fun a ha => absurd ha List.not_mem_nil⟩
  | cons a as ih =>
      obtain ⟨m, hm⟩ := h a List.mem_cons_self
      obtain ⟨n, hn⟩ := ih fun b hb => h b (List.mem_cons_of_mem _ hb)
      refine ⟨max m n, fun b hb => ?_⟩
      rcases List.mem_cons.mp hb with rfl | hb
      · exact hmono _ _ _ (le_max_left m n) hm
      · exact hmono _ _ _ (le_max_right m n) (hn b hb)

/-- A point leads to those of its list. -/
abbrev Leads (children : α → List α) (a b : α) : Prop := b ∈ children a

variable {children : α → List α}

/-- A bound that holds of a point once it holds, one smaller, of every point below it, holds of all
that a point no infinite path leads from comes to. -/
theorem bounded {P : ℕ → α → Prop} (hmono : ∀ m n a, m ≤ n → P m a → P n a)
    (hstep : ∀ n a, (∀ b, TransGen (Leads children) a b → P n b) → P (n + 1) a) {a : α}
    (h : Acc (fun b a => Leads children a b) a) :
    ∃ n, ∀ b, ReflTransGen (Leads children) a b → P n b := by
  induction h with
  | intro a _ ih =>
      obtain ⟨n, hn⟩ :=
        bound_of_list (P := fun n c => ∀ b, ReflTransGen (Leads children) c b → P n b)
        (fun m n c hle h b hb => hmono m n b hle (h b hb)) (children a) ih
      have hbelow : ∀ b, TransGen (Leads children) a b → P n b := by
        intro b hb
        obtain ⟨c, hc, hcb⟩ := TransGen.head'_iff.mp hb
        exact hn c hc b hcb
      refine ⟨n + 1, fun b hb => ?_⟩
      rcases reflTransGen_iff_eq_or_transGen.mp hb with rfl | hb
      · exact hstep n _ hbelow
      · exact hmono _ _ _ (Nat.le_succ n) (hbelow b hb)

end Founded
