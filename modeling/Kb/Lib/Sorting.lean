/-
# `Kb.Lib.Sorting` — what a list sorted by a key says of the key

Two facts of lists that are ordered by a key and then read.  A stable sort by a key keeps, among
those of one key, the order they stood in (`sorted_within`).  And the runs of a sorted list, those
of one key that stand together, are all of that key: one run for each key, in the order of the keys
(`runs_apart`, `run_eq_filter`).
-/
import Mathlib.Data.List.Sort
import Mathlib.Data.List.SplitBy

namespace Sorting

variable {α κ : Type*}

/-! ## A stable sort -/

section

variable [LinearOrder κ] (key : α → κ)

/-- Sorted by a key, those of one key in the order they stood in. -/
def sorted (l : List α) : List α := l.insertionSort fun a b => key a ≤ key b

instance total_key : Std.Total fun a b : α => key a ≤ key b := ⟨fun a b => le_total (key a) (key b)⟩
instance trans_key : IsTrans α fun a b => key a ≤ key b := ⟨fun _ _ _ => le_trans⟩

theorem perm_sorted (l : List α) : (sorted key l).Perm l := List.perm_insertionSort _ l

/-- Those of one key stand in a sorted list as they stood. -/
theorem filter_sorted (l : List α) (k : κ) :
    (sorted key l).filter (fun a => key a = k) = l.filter fun a => key a = k := by
  have hwithin : (l.filter fun a => key a = k).Pairwise fun a b => key a ≤ key b := by
    refine List.pairwise_of_forall_mem_list fun a ha b hb => ?_
    rw [of_decide_eq_true (List.mem_filter.mp ha).2, of_decide_eq_true (List.mem_filter.mp hb).2]
  have hsublist : (l.filter fun a => key a = k).Sublist (sorted key l) :=
    List.sublist_insertionSort hwithin List.filter_sublist
  have hfilter := hsublist.filter fun a => decide (key a = k)
  rw [List.filter_filter] at hfilter
  simp only [Bool.and_self] at hfilter
  exact (hfilter.eq_of_length ((perm_sorted key l).filter _).length_eq.symm).symm

/-- What holds within each key, of those of it as they stand, holds of any two of one key. -/
theorem pairwise_within {R : α → α → Prop} {l : List α}
    (h : ∀ k, (l.filter fun a => key a = k).Pairwise R) :
    l.Pairwise fun a b => key a = key b → R a b := by
  induction l with
  | nil => exact .nil
  | cons a l ih =>
      refine List.pairwise_cons.mpr ⟨fun b hb heq => ?_,
        ih fun k => (h k).sublist ((List.sublist_cons_self a l).filter _)⟩
      have hpair := h (key a)
      rw [List.filter_cons, if_pos (decide_eq_true rfl), List.pairwise_cons] at hpair
      exact hpair.1 b (List.mem_filter.mpr ⟨hb, decide_eq_true heq.symm⟩)

/-- Sorted by a key, a list is ordered by the key, and within a key as it was. -/
theorem sorted_within {R : α → α → Prop} {l : List α}
    (h : l.Pairwise fun a b => key a = key b → R a b) :
    (sorted key l).Pairwise fun a b => key a < key b ∨ key a = key b ∧ R a b := by
  have hordered : (sorted key l).Pairwise fun a b => key a ≤ key b :=
    List.pairwise_insertionSort _ l
  have hwithin : ∀ k, ((sorted key l).filter fun a => key a = k).Pairwise R := by
    intro k
    rw [filter_sorted]
    refine (h.filter _).imp_of_mem fun ha hb hR => hR ?_
    rw [of_decide_eq_true (List.mem_filter.mp ha).2, of_decide_eq_true (List.mem_filter.mp hb).2]
  refine hordered.imp₂ (fun a b hle hR => ?_) (pairwise_within key hwithin)
  rcases hle.lt_or_eq with hlt | heq
  · exact Or.inl hlt
  · exact Or.inr ⟨heq, hR heq⟩

variable {key} {R : α → α → Prop}

/-- Of two lists ordered so, one whose members are among the other's stands in the other. -/
theorem sublist_of_within (hR : ∀ a b, R a b → ¬ R b a) {l l' : List α}
    (h : l.Pairwise fun a b => key a < key b ∨ key a = key b ∧ R a b)
    (h' : l'.Pairwise fun a b => key a < key b ∨ key a = key b ∧ R a b) (hsub : l.Subperm l') :
    l.Sublist l' := by
  have hantisymm : Std.Antisymm fun a b : α => key a < key b ∨ key a = key b ∧ R a b := by
    refine ⟨fun a b hab hba => ?_⟩
    rcases hab with hab | ⟨hab, hR'⟩
    · rcases hba with hba | ⟨hba, _⟩
      · exact absurd hba hab.asymm
      · exact absurd hba hab.ne'
    · rcases hba with hba | ⟨_, hba⟩
      · exact absurd hab hba.ne'
      · exact absurd hba (hR a b hR')
  exact List.sublist_of_subperm_of_pairwise hsub h h'

/-- Those of a list that pass a test stand, sorted, as they stand in the list sorted. -/
theorem sorted_filter (hR : ∀ a b, R a b → ¬ R b a) {l : List α}
    (h : l.Pairwise fun a b => key a = key b → R a b) (p : α → Bool) :
    sorted key (l.filter p) = (sorted key l).filter p := by
  have hperm : (sorted key (l.filter p)).Perm ((sorted key l).filter p) :=
    (perm_sorted key _).trans ((perm_sorted key l).filter p).symm
  refine (sublist_of_within hR (sorted_within key (h.filter p))
    ((sorted_within key h).filter p) hperm.subperm).eq_of_length ?_
  exact hperm.length_eq

/-- A list that grew stands, sorted, in what it grew to, sorted. -/
theorem sorted_sublist (hR : ∀ a b, R a b → ¬ R b a) {l l' : List α}
    (h : l'.Pairwise fun a b => key a = key b → R a b) (hsub : l.Sublist l') :
    (sorted key l).Sublist (sorted key l') := by
  refine sublist_of_within hR (sorted_within key (h.sublist hsub)) (sorted_within key h) ?_
  exact ((perm_sorted key l).subperm_right.mpr (hsub.subperm)).trans
    (perm_sorted key l').symm.subperm

/-- Of a list in the order of a key, those from a key on are what is left of it. -/
theorem filter_from {l : List α} (h : l.Pairwise fun a b => key a ≤ key b) (k : κ) :
    (l.filter fun a => k ≤ key a) = l.dropWhile fun a => key a < k := by
  induction l with
  | nil => rfl
  | cons a l ih =>
      obtain ⟨hfirst, hrest⟩ := List.pairwise_cons.mp h
      rcases lt_or_ge (key a) k with hlt | hge
      · rw [List.filter_cons_of_neg (by simpa using hlt),
          List.dropWhile_cons_of_pos (by simpa using hlt)]
        exact ih hrest
      · rw [List.dropWhile_cons_of_neg (by simpa using hge), List.filter_eq_self]
        intro b hb
        rcases List.mem_cons.mp hb with rfl | hb
        · exact decide_eq_true hge
        · exact decide_eq_true (hge.trans (hfirst b hb))

end

/-! ## The runs of a list -/

section

variable [DecidableEq κ] (key : α → κ)

/-- Those of one key that stand together. -/
def runs (l : List α) : List (List α) := l.splitBy fun a b => key a = key b

/-- Each run with its key. -/
def grouped (l : List α) : List (κ × List α) :=
  (runs key l).filterMap fun g => g.head?.map fun a => (key a, g)

@[simp] theorem flatten_runs (l : List α) : (runs key l).flatten = l := List.flatten_splitBy _ l

variable {key} {l : List α} {g : List α}

theorem runs_ne_nil (h : g ∈ runs key l) : g ≠ [] := List.ne_nil_of_mem_splitBy h

theorem run_alike (h : g ∈ runs key l) : ∀ a ∈ g, ∀ b ∈ g, key a = key b := by
  have hchain : g.IsChain fun a b => key a = key b := (List.isChain_of_mem_splitBy h).imp fun _ _ =>
    of_decide_eq_true
  have htrans : IsTrans α fun a b => key a = key b := ⟨fun _ _ _ => Eq.trans⟩
  have hpair : g.Pairwise fun a b => key a = key b := hchain.pairwise
  intro a ha b hb
  have hsymm : Std.Symm fun a b => key a = key b := ⟨fun _ _ => Eq.symm⟩
  exact List.Pairwise.forall_of_forall (R := fun a b => key a = key b) (fun _ _ => rfl) hpair ha hb

/-- The runs of a list sorted by an order of its keys are in that order, each of a key of its
own. -/
theorem runs_apart {le : κ → κ → Prop} (hantisymm : ∀ k k', le k k' → le k' k → k = k')
    (h : l.Pairwise fun a b => le (key a) (key b)) :
    (runs key l).Pairwise fun g g' => ∀ a ∈ g, ∀ b ∈ g', le (key a) (key b) ∧ key a ≠ key b := by
  have hchain : (runs key l).IsChain fun g g' => ∃ (hg : g ≠ []) (hg' : g' ≠ []),
      decide (key (g.getLast hg) = key (g'.head hg')) = false :=
    List.isChain_getLast_head_splitBy (fun a b => decide (key a = key b)) l
  have hne : ∀ g ∈ runs key l, g ≠ [] := fun g => runs_ne_nil
  have halike : ∀ g ∈ runs key l, ∀ a ∈ g, ∀ b ∈ g, key a = key b := fun g => run_alike
  have hordered : (runs key l).Pairwise fun g g' => ∀ a ∈ g, ∀ b ∈ g', le (key a) (key b) := by
    rw [← flatten_runs key l] at h
    exact (List.pairwise_flatten.mp h).2
  generalize runs key l = gs at hchain hne halike hordered
  induction gs with
  | nil => exact .nil
  | cons g gs ih =>
      obtain ⟨hfirst, hrest⟩ := List.pairwise_cons.mp hordered
      refine List.pairwise_cons.mpr ⟨fun g' hg' a ha b hb =>
        ⟨hfirst g' hg' a ha b hb, fun hsame => ?_⟩,
        ih hchain.tail (fun g hg => hne g (List.mem_cons_of_mem _ hg))
          (fun g hg => halike g (List.mem_cons_of_mem _ hg)) hrest⟩
      -- the run after the first is between it and any later one
      cases gs with
      | nil => nomatch hg'
      | cons g₁ gs =>
          obtain ⟨hg, hg₁, hdiffers⟩ := (List.isChain_cons_cons.mp hchain).1
          have hlast : key (g.getLast hg) = key a :=
            halike g List.mem_cons_self _ (List.getLast_mem hg) a ha
          have hdiffers : key a ≠ key (g₁.head hg₁) := by
            rw [← hlast]
            exact of_decide_eq_false hdiffers
          rcases List.mem_cons.mp hg' with rfl | hg'
          · exact hdiffers (hsame.trans (halike g' (by simp) b hb _ (List.head_mem hg₁)))
          · have hback := (List.pairwise_cons.mp hrest).1 g' hg' _ (List.head_mem hg₁) b hb
            rw [← hsame] at hback
            exact hdiffers
              (hantisymm _ _ (hfirst g₁ List.mem_cons_self a ha _ (List.head_mem hg₁)) hback)

/-- A run of a sorted list is all of its key. -/
theorem run_eq_filter {le : κ → κ → Prop} (hantisymm : ∀ k k', le k k' → le k' k → k = k')
    (h : l.Pairwise fun a b => le (key a) (key b)) (hg : g ∈ runs key l) {a : α} (ha : a ∈ g) :
    g = l.filter fun b => key b = key a := by
  obtain ⟨before, after, hruns⟩ := List.append_of_mem hg
  have hapart := runs_apart hantisymm h
  rw [hruns, List.pairwise_append, List.pairwise_cons] at hapart
  obtain ⟨_, ⟨hafter, _⟩, hbefore⟩ := hapart
  have hown : g.filter (fun b => key b = key a) = g :=
    List.filter_eq_self.mpr fun b hb => decide_eq_true (run_alike hg b hb a ha)
  have hother : ∀ gs : List (List α), (∀ g' ∈ gs, ∀ b ∈ g', key b ≠ key a) →
      gs.flatten.filter (fun b => key b = key a) = [] := by
    intro gs hgs
    refine List.filter_eq_nil_iff.mpr fun b hb heq => ?_
    obtain ⟨g', hg', hb⟩ := List.mem_flatten.mp hb
    exact hgs g' hg' b hb (of_decide_eq_true heq)
  rw [← flatten_runs key l, hruns, List.flatten_append, List.flatten_cons, List.filter_append,
    List.filter_append, hown, hother before fun g' hg' b hb =>
    (hbefore g' hg' g List.mem_cons_self b hb a ha).2, hother after fun g' hg' b hb heq =>
    (hafter g' hg' a ha b hb).2 heq.symm, List.nil_append, List.append_nil]

theorem map_snd_grouped (l : List α) : (grouped key l).map Prod.snd = runs key l := by
  have hne : ∀ g ∈ runs key l, g ≠ [] := fun g => runs_ne_nil
  unfold grouped
  generalize runs key l = gs at hne
  induction gs with
  | nil => rfl
  | cons g gs ih =>
      obtain ⟨a, rest, rfl⟩ := List.exists_cons_of_ne_nil (hne _ List.mem_cons_self)
      exact congrArg (List.cons (a :: rest)) (ih fun g hg => hne g (List.mem_cons_of_mem _ hg))

theorem grouped_key {k : κ} (h : (k, g) ∈ grouped key l) :
    g ∈ runs key l ∧ g ≠ [] ∧ ∀ a ∈ g, key a = k := by
  obtain ⟨g', hg, hmap⟩ := List.mem_filterMap.mp h
  obtain ⟨a, hhead, heq⟩ := Option.map_eq_some_iff.mp hmap
  obtain ⟨rfl, rfl⟩ := Prod.mk.inj heq
  exact ⟨hg, runs_ne_nil hg, fun b hb => run_alike hg b hb a (List.mem_of_mem_head? hhead)⟩

theorem exists_grouped {a : α} (h : a ∈ l) : ∃ e ∈ grouped key l, e.1 = key a := by
  rw [← flatten_runs key l, ← map_snd_grouped] at h
  obtain ⟨g, hg, ha⟩ := List.mem_flatten.mp h
  obtain ⟨e, he, rfl⟩ := List.mem_map.mp hg
  obtain ⟨_, _, hkey⟩ := grouped_key he
  exact ⟨e, he, (hkey a ha).symm⟩

/-- A list sorted by an order of its keys grouped by the key: each key there once, in the order,
with all of it. -/
theorem grouped_apart {le : κ → κ → Prop} (hantisymm : ∀ k k', le k k' → le k' k → k = k')
    (h : l.Pairwise fun a b => le (key a) (key b)) :
    (grouped key l).Pairwise (fun e f => le e.1 f.1 ∧ e.1 ≠ f.1) ∧
      ∀ e ∈ grouped key l, e.2 ≠ [] ∧ e.2 = l.filter fun a => key a = e.1 := by
  constructor
  · have hapart := runs_apart hantisymm h
    rw [← map_snd_grouped, List.pairwise_map] at hapart
    refine hapart.imp_of_mem fun {e f} he hf hlt => ?_
    obtain ⟨_, hne, hkey⟩ := grouped_key he
    obtain ⟨_, hne', hkey'⟩ := grouped_key hf
    obtain ⟨a, rest, hg⟩ := List.exists_cons_of_ne_nil hne
    obtain ⟨b, rest', hg'⟩ := List.exists_cons_of_ne_nil hne'
    have ha : a ∈ e.2 := hg ▸ List.mem_cons_self
    have hb : b ∈ f.2 := hg' ▸ List.mem_cons_self
    rw [← hkey a ha, ← hkey' b hb]
    exact hlt a ha b hb
  · intro e he
    obtain ⟨hrun, hne, hkey⟩ := grouped_key he
    obtain ⟨a, rest, hg⟩ := List.exists_cons_of_ne_nil hne
    have ha : a ∈ e.2 := hg ▸ List.mem_cons_self
    refine ⟨hne, ?_⟩
    rw [← hkey a ha]
    exact run_eq_filter hantisymm h hrun ha

end

end Sorting
