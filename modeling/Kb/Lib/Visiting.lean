/-
# `Kb.Lib.Visiting` — a graph visited depth first, where only the path is told apart

Each node is written after what is next of it.  A node is passed over when it is written already, or
when it is on the path that led to it; nothing else is remembered, so a node may be come to many
times before it is written.  `visit` is bounded by a depth; `Visits` is the visit with no bound, one
rule a branch, so that a derivation of it is a visit that ends.

On any finite graph the visit ends, in any bound past the number of its nodes.  What it writes, it
writes once; and a node stands after each node next of it but those that lead back to it.  The last
holds because a node passed over for being on the path leads, along the path, to the node it was
next of.
-/
import Mathlib.Data.List.Nodup
import Mathlib.Data.List.Perm.Subperm
import Mathlib.Logic.Relation

namespace Visiting

open Relation

variable {α : Type}

/-- A node written after what is next of it, unless it is written or on the path. -/
def visit [DecidableEq α] (next : α → List α) : Nat → List α → List α → α → List α
  | 0, written, _, _ => written
  | depth + 1, written, path, a =>
      if a ∈ written ∨ a ∈ path then written else
      (next a).foldl (fun written b => visit next depth written (a :: path) b) written ++ [a]

/-- The nodes of a list visited in turn, from what is written to what is then. -/
inductive Visits (next : α → List α) : List α → List α → List α → List α → Prop
  | done {path written : List α} : Visits next path [] written written
  | passed {path written left : List α} {a : α} {rest : List α} : a ∈ written ∨ a ∈ path →
      Visits next path rest written left → Visits next path (a :: rest) written left
  | wrote {path written under left : List α} {a : α} {rest : List α} : ¬ (a ∈ written ∨ a ∈ path) →
      Visits next (a :: path) (next a) written under → Visits next path rest (under ++ [a]) left →
      Visits next path (a :: rest) written left

/-- `a` is led from to `b`, in one step or more. -/
def Leads (next : α → List α) : α → α → Prop :=
  TransGen fun a b => b ∈ next a

variable {next : α → List α}

theorem Leads.step {a b : α} (h : b ∈ next a) : Leads next a b := TransGen.single h

namespace Visits

/-- A visit has one outcome. -/
theorem unique {path nodes written left left' : List α} (h : Visits next path nodes written left)
    (h' : Visits next path nodes written left') : left = left' := by
  induction h generalizing left' with
  | done =>
      cases h'
      rfl
  | passed ha _ ih =>
      cases h' with
      | passed _ h' => exact ih h'
      | wrote hna _ _ => exact absurd ha hna
  | wrote hna _ _ ihunder ih =>
      cases h' with
      | passed ha _ => exact absurd ha hna
      | wrote _ hunder h' =>
          cases ihunder hunder
          exact ih h'

/-! ## What is written -/

/-- What is written stays, where it stands. -/
theorem kept {path nodes written left : List α} (h : Visits next path nodes written left) :
    written <+: left := by
  induction h with
  | done => exact List.prefix_rfl
  | passed _ _ ih => exact ih
  | wrote _ _ _ ihunder ih => exact (ihunder.trans (List.prefix_append _ _)).trans ih

/-- Nothing on the path is written. -/
theorem off_path {path nodes written left : List α} (h : Visits next path nodes written left) :
    ∀ b ∈ path, b ∈ left → b ∈ written := by
  induction h with
  | done => exact fun _ _ hb => hb
  | passed _ _ ih => exact ih
  | wrote hna _ _ ihunder ih =>
      intro b hpath hb
      have hb := ih b hpath hb
      rcases List.mem_append.mp hb with hb | hb
      · exact ihunder b (List.mem_cons_of_mem _ hpath) hb
      · cases List.mem_singleton.mp hb
        exact absurd (Or.inr hpath) hna

/-- Each node is written once. -/
theorem nodup {path nodes written left : List α} (h : Visits next path nodes written left)
    (hw : written.Nodup) :
    left.Nodup := by
  induction h with
  | done => exact hw
  | passed _ _ ih => exact ih hw
  | wrote hna hunder _ ihunder ih =>
      have hnew := fun ha => hna (Or.inl (hunder.off_path _ List.mem_cons_self ha))
      exact ih (List.nodup_append.mpr ⟨ihunder hw, List.nodup_singleton _, fun _ hb _ ha hba =>
        hnew (List.mem_singleton.mp ha ▸ hba ▸ hb)⟩)

/-- Each node visited is written, or on the path. -/
theorem all {path nodes written left : List α} (h : Visits next path nodes written left) :
    ∀ a ∈ nodes, a ∈ left ∨ a ∈ path := by
  induction h with
  | done => simp
  | passed ha hrest ih =>
      intro b hb
      rcases List.mem_cons.mp hb with rfl | hb
      · exact ha.imp (fun h => hrest.kept.subset h) id
      · exact ih b hb
  | wrote _ _ hrest _ ih =>
      intro b hb
      rcases List.mem_cons.mp hb with rfl | hb
      · exact Or.inl (hrest.kept.subset (List.mem_append_right _ List.mem_cons_self))
      · exact ih b hb

/-- What the nodes visited have, and whatever is next of a node that has it, each node written
has. -/
theorem closed {P : α → Prop} (hnext : ∀ a, P a → ∀ b ∈ next a, P b)
    {path nodes written left : List α} (h : Visits next path nodes written left)
    (hnodes : ∀ a ∈ nodes, P a) (hw : ∀ a ∈ written, P a) :
    ∀ a ∈ left, P a := by
  induction h with
  | done => exact hw
  | passed _ _ ih => exact ih (fun b hb => hnodes b (List.mem_cons_of_mem _ hb)) hw
  | wrote _ _ _ ihunder ih =>
      have ha := hnodes _ List.mem_cons_self
      refine ih (fun b hb => hnodes b (List.mem_cons_of_mem _ hb)) fun b hb => ?_
      rcases List.mem_append.mp hb with hb | hb
      · exact ihunder (hnext _ ha) hw b hb
      · exact List.mem_singleton.mp hb ▸ ha

/-! ## The order of what is written -/

/-- Each node written stands after each node next of it, but those that lead back to it. -/
def After (next : α → List α) (written : List α) : Prop :=
  ∀ a ∈ written, ∀ b ∈ next a, [b, a].Sublist written ∨ Leads next b a

/-- The order is kept by a visit along a path each of whose nodes leads to what is visited. -/
theorem after {path nodes written left : List α} (h : Visits next path nodes written left)
    (hpath : ∀ s ∈ path, ∀ a ∈ nodes, Leads next s a) (hw : After next written) :
    After next left := by
  induction h with
  | done => exact hw
  | passed _ _ ih => exact ih (fun s hs b hb => hpath s hs b (List.mem_cons_of_mem _ hb)) hw
  | @wrote path written under left a rest hna hunder _ ihunder ih =>
      have hled : ∀ s ∈ a :: path, ∀ b ∈ next a, Leads next s b := by
        intro s hs b hb
        rcases List.mem_cons.mp hs with rfl | hs
        · exact Leads.step hb
        · exact (hpath s hs a List.mem_cons_self).tail hb
      have hafter := ihunder hled hw
      refine ih (fun s hs b hb => hpath s hs b (List.mem_cons_of_mem _ hb)) ?_
      intro c hc b hb
      rcases List.mem_append.mp hc with hc | hc
      · exact (hafter c hc b hb).imp (fun h => h.trans (List.sublist_append_left _ _)) id
      · cases List.mem_singleton.mp hc
        -- what is next of the node just written is written before it, or is on the path to it
        rcases hunder.all b hb with hb' | hb'
        · exact Or.inl ((List.singleton_sublist.mpr hb').append (List.Sublist.refl [a]))
        · refine Or.inr ?_
          rcases List.mem_cons.mp hb' with rfl | hs
          · exact Leads.step hb
          · exact hpath b hs a List.mem_cons_self

end Visits

/-- In a list with nothing twice, what stands before what stands before a node stands before the
node. -/
theorem sublist_pair_trans {l : List α} (hnodup : l.Nodup) {a b c : α} (hbc : [b, c].Sublist l)
    (hca : [c, a].Sublist l) :
    [b, a].Sublist l := by
  induction l with
  | nil => cases hbc
  | cons x l ih =>
      obtain ⟨hx, hl⟩ := List.nodup_cons.mp hnodup
      -- `c` is past the head either way, since something stands before it
      have hc : c ∈ l := by
        rcases List.sublist_cons_iff.mp hbc with h | ⟨r, hr, h⟩
        · exact h.subset (List.mem_cons_of_mem _ List.mem_cons_self)
        · cases hr
          exact List.singleton_sublist.mp h
      have hca' : [c, a].Sublist l := by
        rcases List.sublist_cons_iff.mp hca with h | ⟨r, hr, _⟩
        · exact h
        · cases hr
          exact absurd hc hx
      rcases List.sublist_cons_iff.mp hbc with h | ⟨r, hr, _⟩
      · exact (ih hl h hca').cons x
      · cases hr
        have ha : a ∈ l := hca'.subset (by simp)
        exact (List.singleton_sublist.mpr ha).cons_cons _

/-- Where no node leads back to itself, each node written stands after each that it leads to. -/
theorem Visits.After.lead {written : List α} (h : Visits.After next written)
    (hnodup : written.Nodup) (hacyclic : ∀ a, ¬ Leads next a a) {a b : α} (ha : a ∈ written)
    (hab : Leads next a b) : [b, a].Sublist written := by
  have hone : ∀ c ∈ written, ∀ d ∈ next c, [d, c].Sublist written := by
    intro c hc d hd
    rcases h c hc d hd with hsub | hback
    · exact hsub
    · exact absurd (TransGen.head hd hback) (hacyclic c)
  induction hab with
  | single hb => exact hone a ha _ hb
  | tail _ hb ih =>
      have hc := ih.subset List.mem_cons_self
      exact sublist_pair_trans hnodup (hone _ hc _ hb) ih

/-! ## The visit ends -/

/-- The bounded visit of the nodes of a list in turn is the visit, where the bound is past the nodes
not on the path. -/
theorem visits_visit [DecidableEq α] {nodes : List α} (hnext : ∀ a ∈ nodes, ∀ b ∈ next a, b ∈ nodes)
    {depth : Nat} :
    ∀ {path : List α}, path.Nodup → path ⊆ nodes → nodes.length < depth + path.length →
      ∀ {asked : List α},
      asked ⊆ nodes → ∀ written : List α,
      Visits next path asked written
        (asked.foldl (fun written a => visit next depth written path a) written) := by
  induction depth with
  | zero =>
      intro path hnodup hpath hlt
      exact absurd (List.subperm_of_subset hnodup hpath).length_le (by omega)
  | succ depth ih =>
      intro path hnodup hpath hlt asked hasked
      induction asked with
      | nil => exact fun _ => .done
      | cons a rest ihrest =>
          intro written
          obtain ⟨ha, hrest⟩ := List.cons_subset.mp hasked
          rw [List.foldl_cons]
          by_cases hin : a ∈ written ∨ a ∈ path
          · rw [visit, if_pos hin]
            exact .passed hin (ihrest hrest written)
          · rw [visit, if_neg hin]
            have hnew : a ∉ path := fun h => hin (Or.inr h)
            refine .wrote hin (ih (List.nodup_cons.mpr ⟨hnew, hnodup⟩) ?_ ?_ (hnext a ha) written)
              (ihrest hrest _)
            · exact List.cons_subset.mpr ⟨ha, hpath⟩
            · rw [List.length_cons]
              omega

end Visiting
