/-
# `Kb.Lib.Chains` — whether a node leads to a goal, and by which shortest chain

Two searches of a graph given by what is next of each node.

  * `search` grows chains from a start, the first that waits first, and tells the first it grows
    onto a goal.  A node is come to once.  What it tells is a chain of least length to a goal, with
    no goal before its end, and it tells one just where the start leads to a goal (`search_some`,
    `search_none`).
  * `seeks` goes down from a node and passes over what is on the path it went by, nothing else.  A
    node may be come to by many paths; it is told of just where the node leads to another that is
    hit (`seeks_iff`).

Both are bounded, by fuel and by a depth; neither bound is come to where it is as large as the nodes
are many.  A recursion that goes down every chain, no deeper than a bound, is `goes_iff`'s.
-/
import Mathlib.Data.List.Chain
import Mathlib.Data.List.Nodup
import Mathlib.Data.List.Perm.Subperm
import Mathlib.Logic.Relation

namespace Chains

open Relation

variable {α : Type}

/-- A recursion that goes from each node to all it leads to, one less deep: it can go where every
node come to can be gone through, and no chain from the start is as long as it may go. -/
theorem goes_iff {leads : α → α → Prop} {through : α → Prop} {goes : ℕ → α → Prop}
    (hzero : ∀ a, ¬ goes 0 a) (hstep : ∀ depth a, goes (depth + 1) a ↔ through a ∧ ∀ b, leads a b →
      goes depth b) {depth : ℕ} {a : α} :
    goes depth a ↔ (∀ b, ReflTransGen leads a b → through b) ∧ ∀ c, (a :: c).IsChain leads →
      c.length < depth := by
  induction depth generalizing a with
  | zero =>
      refine ⟨fun h => absurd h (hzero a), fun h => ?_⟩
      exact absurd (h.2 [] (List.isChain_singleton a)) (Nat.not_lt_zero _)
  | succ depth ih =>
      rw [hstep]
      constructor
      · rintro ⟨hthrough, hgoes⟩
        refine ⟨fun b hb => ?_, fun c hc => ?_⟩
        · rcases hb.cases_head with rfl | ⟨next, hlead, hrest⟩
          · exact hthrough
          · exact (ih.mp (hgoes next hlead)).1 b hrest
        · cases c with
          | nil => exact Nat.succ_pos _
          | cons next c =>
              obtain ⟨hlead, hrest⟩ := List.isChain_cons_cons.mp hc
              exact Nat.succ_lt_succ ((ih.mp (hgoes next hlead)).2 c hrest)
      · rintro ⟨hthrough, hbound⟩
        refine ⟨hthrough a .refl, fun b hlead =>
          ih.mpr ⟨fun x hx => hthrough x (.head hlead hx), fun c hc => ?_⟩⟩
        exact Nat.lt_of_succ_lt_succ (hbound (b :: c) (List.isChain_cons_cons.mpr ⟨hlead, hc⟩))

/-- A chain of nodes from a start to a last, each leading to the one after it. -/
structure Chain (leads : α → α → Prop) (start last : α) (c : List α) : Prop where
  follows : c.IsChain leads
  first : c.head? = some start
  ends : c.getLast? = some last

namespace Chain

variable {leads : α → α → Prop} {start x y : α} {c : List α}

theorem single : Chain leads start start [start] := ⟨List.isChain_singleton _, rfl, rfl⟩

theorem snoc (h : Chain leads start x c) (hlead : leads x y) : Chain leads start y (c ++ [y]) := by
  refine ⟨?_, ?_, List.getLast?_concat⟩
  · refine List.isChain_append.mpr ⟨h.follows, List.isChain_singleton _, ?_⟩
    intro x' hx' y' hy'
    rw [h.ends] at hx'
    cases hx'
    cases hy'
    exact hlead
  · rw [List.head?_append, h.first]
    rfl

theorem cons (h : Chain leads x y c) (hlead : leads start x) :
    Chain leads start y (start :: c) := by
  obtain ⟨hfollows, hfirst, hends⟩ := h
  cases c with
  | nil => cases hfirst
  | cons x' c =>
      cases hfirst
      exact ⟨List.isChain_cons_cons.mpr ⟨hlead, hfollows⟩, rfl, hends⟩

/-- A chain is its start, or one node more than a chain. -/
theorem cases_snoc (h : Chain leads start y c) :
    c = [start] ∧ y = start ∨ ∃ c' x, c = c' ++ [y] ∧ Chain leads start x c' ∧ leads x y := by
  obtain ⟨hfollows, hfirst, hends⟩ := h
  obtain ⟨c, rfl⟩ := List.getLast?_eq_some_iff.mp hends
  cases hc : c.getLast? with
  | none =>
      rw [List.getLast?_eq_none_iff] at hc
      subst hc
      cases hfirst
      exact Or.inl ⟨rfl, rfl⟩
  | some x =>
      obtain ⟨hinit, _, hlead⟩ := List.isChain_append.mp hfollows
      refine Or.inr ⟨c, x, rfl, ⟨hinit, ?_, hc⟩, hlead x hc y rfl⟩
      cases c with
      | nil => cases hc
      | cons _ _ => exact hfirst

theorem reaches (h : Chain leads start y c) : ReflTransGen leads start y := by
  induction hn : c.length generalizing c y with
  | zero =>
      rw [List.length_eq_zero_iff.mp hn] at h
      cases h.first
  | succ n ih =>
      rcases h.cases_snoc with ⟨_, rfl⟩ | ⟨c', x, rfl, h', hlead⟩
      · exact .refl
      · rw [List.length_append] at hn
        exact (ih h' (Nat.succ.inj hn)).tail hlead

/-- Where one node leads to another, a chain with no node twice does. -/
theorem of_reaches (h : ReflTransGen leads start y) : ∃ c, Chain leads start y c ∧ c.Nodup := by
  induction h using ReflTransGen.head_induction_on with
  | refl => exact ⟨[y], single, List.nodup_singleton _⟩
  | @head a x hlead _ ih =>
      obtain ⟨c, hc, hnodup⟩ := ih
      by_cases ha : a ∈ c
      · -- the chain comes back to where it set out from: what follows there is enough
        obtain ⟨before, after, rfl⟩ := List.append_of_mem ha
        refine ⟨a :: after, ⟨(List.isChain_append.mp hc.follows).2.1, rfl, ?_⟩,
          (List.nodup_append.mp hnodup).2.1⟩
        have hends := hc.ends
        rwa [List.getLast?_append_of_ne_nil _ (List.cons_ne_nil _ _)] at hends
      · exact ⟨a :: c, hc.cons hlead, List.nodup_cons.mpr ⟨ha, hnodup⟩⟩

theorem subset {P : α → Prop} (hclosed : ∀ a, P a → ∀ b, leads a b → P b) (hstart : P start)
    (h : Chain leads start y c) :
    ∀ a ∈ c, P a := by
  induction hn : c.length generalizing c y with
  | zero =>
      rw [List.length_eq_zero_iff.mp hn]
      intro a ha
      cases ha
  | succ n ih =>
      intro a ha
      rcases h.cases_snoc with ⟨rfl, rfl⟩ | ⟨c', x, rfl, h', hlead⟩
      · cases List.mem_singleton.mp ha
        exact hstart
      · rw [List.length_append] at hn
        have hall := ih h' (Nat.succ.inj hn)
        rcases List.mem_append.mp ha with ha | ha
        · exact hall a ha
        · cases List.mem_singleton.mp ha
          exact hclosed x (hall x (List.mem_of_getLast? h'.ends)) _ hlead

end Chain

/-! ## The shortest chain to a goal -/

section Search

variable [DecidableEq α]

/-- A node next of a chain's end taken: the chain grown onto it told when it is a goal, one that
waits when it was not reached before. -/
def take (goal chain : List α) (out : Option (List α) × List (List α) × List α) (y : α) :
    Option (List α) × List (List α) × List α :=
  match out with
  | (some found, _, _) => (some found, [], [])
  | (none, added, reached) =>
      if y ∈ reached then (none, added, reached)
      else if y ∈ goal then (some (chain ++ [y]), added, reached)
      else (none, added ++ [chain ++ [y]], reached ++ [y])

/-- The chains that wait grown in turn, the first told that comes to a goal. What is next of a chain
is what is next of its end, or of a node that stands for none. -/
def search (next : α → List α) (goal : List α) (none_ : α) :
    Nat → List (List α) → List α → Option (List α)
  | 0, _, _ => none
  | _, [], _ => none
  | fuel + 1, chain :: waiting, reached =>
      match (next (chain.getLastD none_)).foldl (take goal chain) (none, [], reached) with
      | (some found, _, _) => some found
      | (none, added, reached) => search next goal none_ fuel (waiting ++ added) reached

/-- What is next of a chain's end taken: a goal among them, or each that was not reached. -/
theorem foldl_take {goal : List α} (chain nodes : List α) (added : List (List α)) {reached : List α}
    (hclean : ∀ x ∈ reached, x ∉ goal) :
    (∃ y ∈ nodes, y ∈ goal ∧ (nodes.foldl (take goal chain) (none, added, reached)).1 =
      some (chain ++ [y])) ∨
    ∃ new : List α, nodes.foldl (take goal chain) (none, added, reached) =
        (none, added ++ new.map (fun y => chain ++ [y]), reached ++ new) ∧ new.Nodup ∧
      (∀ y ∈ new, y ∈ nodes ∧ y ∉ reached ∧ y ∉ goal) ∧ ∀ y ∈ nodes, y ∈ reached ++ new := by
  induction nodes generalizing added reached with
  | nil => exact Or.inr ⟨[], by
      simp, List.nodup_nil, (fun _ h => nomatch h), (fun _ h => nomatch h)⟩
  | cons y nodes ih =>
      rw [List.foldl_cons]
      by_cases hreached : y ∈ reached
      · have htake : take goal chain (none, added, reached) y = (none, added, reached) :=
          if_pos hreached
        rw [htake]
        rcases ih added hclean with ⟨z, hz, hgoal, hfound⟩ | ⟨new, hnew, hnodup, hfresh, hall⟩
        · exact Or.inl ⟨z, List.mem_cons_of_mem _ hz, hgoal, hfound⟩
        · refine Or.inr ⟨new, hnew, hnodup, fun z hz => ?_, fun z hz => ?_⟩
          · exact ⟨List.mem_cons_of_mem _ (hfresh z hz).1, (hfresh z hz).2⟩
          · rcases List.mem_cons.mp hz with rfl | hz
            · exact List.mem_append_left _ hreached
            · exact hall z hz
      by_cases hgoal : y ∈ goal
      · have htake : take goal chain (none, added, reached) y =
            (some (chain ++ [y]), added, reached) :=
          (if_neg hreached).trans (if_pos hgoal)
        refine Or.inl ⟨y, List.mem_cons_self, hgoal, ?_⟩
        rw [htake]
        -- what is told is passed on
        have htold : ∀ (nodes : List α) (out : Option (List α) × List (List α) × List α),
            out.1 = some (chain ++ [y]) →
            (nodes.foldl (take goal chain) out).1 = some (chain ++ [y]) := by
          intro nodes
          induction nodes with
          | nil => exact fun _ h => h
          | cons z nodes ih =>
              rintro ⟨_, added, reached⟩ rfl
              exact ih _ rfl
        exact htold nodes _ rfl
      · have htake : take goal chain (none, added, reached) y =
            (none, added ++ [chain ++ [y]], reached ++ [y]) :=
          (if_neg hreached).trans (if_neg hgoal)
        rw [htake]
        have hclean' : ∀ x ∈ reached ++ [y], x ∉ goal := by
          intro x hx
          rcases List.mem_append.mp hx with hx | hx
          · exact hclean x hx
          · cases List.mem_singleton.mp hx
            exact hgoal
        rcases ih (added ++ [chain ++ [y]]) hclean' with ⟨z, hz, hgoal', hfound⟩ | ⟨new, hnew,
          hnodup, hfresh, hall⟩
        · exact Or.inl ⟨z, List.mem_cons_of_mem _ hz, hgoal', hfound⟩
        · have hy : y ∉ new :=
            fun hmem => (hfresh y hmem).2.1 (List.mem_append_right _ List.mem_cons_self)
          refine Or.inr ⟨y :: new, ?_, List.nodup_cons.mpr ⟨hy, hnodup⟩, fun z hz => ?_,
            fun z hz => ?_⟩
          · rw [hnew, List.map_cons, List.append_assoc, List.append_assoc]
            rfl
          · rcases List.mem_cons.mp hz with rfl | hz
            · exact ⟨List.mem_cons_self, hreached, hgoal⟩
            · obtain ⟨hnodes, hnot, hnotgoal⟩ := hfresh z hz
              exact ⟨List.mem_cons_of_mem _ hnodes,
                fun h => hnot (List.mem_append_left _ h), hnotgoal⟩
          · rcases List.mem_cons.mp hz with rfl | hz
            · exact List.mem_append_right _ List.mem_cons_self
            · have hmem := hall z hz
              rwa [List.append_assoc] at hmem

/-- What a search has come to: each node reached is no goal, and is the end of a chain that waits or
has what is next of it reached; the chains that wait are of least length, shorter ones first; and
what is not reached is further than the first of them goes. -/
structure Grown (next : α → List α) (goal : List α) (start : α) (waiting : List (List α))
    (reached : List α) : Prop where
  chains : ∀ c ∈ waiting, ∃ x ∈ reached, Chain (fun a b => b ∈ next a) start x c ∧
    ∀ c', Chain (fun a b => b ∈ next a) start x c' → c.length ≤ c'.length
  clear : ∀ c ∈ waiting, ∀ x ∈ c, x ∉ goal
  ordered : waiting.Pairwise fun c c' => c.length ≤ c'.length ∧ c'.length ≤ c.length + 1
  begun : start ∈ reached
  once : reached.Nodup
  clean : ∀ x ∈ reached, x ∉ goal
  done : ∀ x ∈ reached, (∃ c ∈ waiting, c.getLast? = some x) ∨ ∀ y ∈ next x, y ∈ reached
  beyond : ∀ c ∈ waiting.head?, ∀ y, y ∉ reached → ∀ c', Chain (fun a b => b ∈ next a) start y c' →
    c.length < c'.length

variable {next : α → List α} {goal : List α} {start : α} {waiting : List (List α)}
  {reached : List α}

omit [DecidableEq α] in
theorem Grown.begin (hstart : start ∉ goal) : Grown next goal start [[start]] [start] := by
  refine ⟨?_, ?_, List.pairwise_singleton _ _, List.mem_singleton_self _,
    List.nodup_singleton _, ?_, ?_, ?_⟩
  · intro c hc
    cases List.mem_singleton.mp hc
    refine ⟨start, List.mem_singleton_self _, .single, fun c' hc' => ?_⟩
    have hfirst := hc'.first
    cases c' with
    | nil => cases hfirst
    | cons _ c' => exact Nat.succ_le_succ (Nat.zero_le _)
  · intro c hc x hx
    cases List.mem_singleton.mp hc
    cases List.mem_singleton.mp hx
    exact hstart
  · intro x hx
    cases List.mem_singleton.mp hx
    exact hstart
  · intro x hx
    cases List.mem_singleton.mp hx
    exact Or.inl ⟨[start], List.mem_singleton_self _, rfl⟩
  · rintro c ⟨⟩ y hy c' hc'
    rcases hc'.cases_snoc with ⟨_, rfl⟩ | ⟨c'', x, rfl, hc'', _⟩
    · exact absurd (List.mem_singleton_self _) hy
    · have hfirst := hc''.first
      cases c'' with
      | nil => cases hfirst
      | cons _ c'' =>
          rw [List.length_append]
          show 1 < c''.length + 1 + 1
          omega

/-- What is next of the first chain's end reached, when none is a goal. -/
theorem Grown.step {c : List α} {x : α} (h : Grown next goal start (c :: waiting) reached)
    (hx : c.getLast? = some x) {new : List α} (hnodup : new.Nodup)
    (hfresh : ∀ y ∈ new, y ∈ next x ∧ y ∉ reached ∧ y ∉ goal)
    (hall : ∀ y ∈ next x, y ∈ reached ++ new) :
    Grown next goal start (waiting ++ new.map fun y => c ++ [y]) (reached ++ new) := by
  obtain ⟨x', hx', hc, hleast⟩ := h.chains c List.mem_cons_self
  rw [hc.ends] at hx
  cases hx
  have hbeyond := h.beyond c rfl
  obtain ⟨hfirst, hordered⟩ := List.pairwise_cons.mp h.ordered
  have hlength : ∀ c' ∈ new.map (fun y => c ++ [y]), c'.length = c.length + 1 := by
    intro c' hc'
    obtain ⟨y, _, rfl⟩ := List.mem_map.mp hc'
    rw [List.length_append, List.length_singleton]
  have hchains : ∀ c' ∈ waiting ++ new.map (fun y => c ++ [y]), ∃ x ∈ reached ++ new,
      Chain (fun a b => b ∈ next a) start x c' ∧ ∀ c'', Chain (fun a b => b ∈ next a) start x c'' →
          c'.length ≤ c''.length := by
    intro c' hc'
    rcases List.mem_append.mp hc' with hc' | hc'
    · obtain ⟨z, hz, hrest⟩ := h.chains c' (List.mem_cons_of_mem _ hc')
      exact ⟨z, List.mem_append_left _ hz, hrest⟩
    · have hlen := hlength c' hc'
      obtain ⟨y, hy, rfl⟩ := List.mem_map.mp hc'
      refine ⟨y, List.mem_append_right _ hy, hc.snoc (hfresh y hy).1, fun c'' hc'' => ?_⟩
      rw [hlen]
      exact hbeyond y (hfresh y hy).2.1 c'' hc''
  have hpairs : (waiting ++ new.map fun y => c ++ [y]).Pairwise fun c c' => c.length ≤ c'.length ∧
      c'.length ≤ c.length + 1 := by
    refine List.pairwise_append.mpr ⟨hordered, ?_, ?_⟩
    · refine List.pairwise_of_forall_mem_list fun c₁ hc₁ c₂ hc₂ => ?_
      rw [hlength c₁ hc₁, hlength c₂ hc₂]
      omega
    · intro c₁ hc₁ c₂ hc₂
      obtain ⟨hle, hle'⟩ := hfirst c₁ hc₁
      rw [hlength c₂ hc₂]
      omega
  have hdone : ∀ z ∈ reached ++ new,
      (∃ c' ∈ waiting ++ new.map (fun y => c ++ [y]), c'.getLast? = some z) ∨ ∀ y ∈ next z,
          y ∈ reached ++ new := by
    intro z hz
    rcases List.mem_append.mp hz with hz | hz
    · rcases h.done z hz with ⟨c', hc', hlast⟩ | hnext
      · rcases List.mem_cons.mp hc' with rfl | hc'
        · rw [hc.ends] at hlast
          cases hlast
          exact Or.inr hall
        · exact Or.inl ⟨c', List.mem_append_left _ hc', hlast⟩
      · exact Or.inr fun y hy => List.mem_append_left _ (hnext y hy)
    · exact Or.inl ⟨c ++ [z], List.mem_append_right _ (List.mem_map_of_mem hz),
        List.getLast?_concat⟩
  refine ⟨hchains, ?_, hpairs, List.mem_append_left _ h.begun, ?_, ?_, hdone, ?_⟩
  · intro c' hc' z hz
    rcases List.mem_append.mp hc' with hc' | hc'
    · exact h.clear c' (List.mem_cons_of_mem _ hc') z hz
    · obtain ⟨y, hy, rfl⟩ := List.mem_map.mp hc'
      rcases List.mem_append.mp hz with hz | hz
      · exact h.clear c List.mem_cons_self z hz
      · cases List.mem_singleton.mp hz
        exact (hfresh _ hy).2.2
  · refine List.nodup_append.mpr ⟨h.once, hnodup, ?_⟩
    rintro z hz _ hz' rfl
    exact (hfresh z hz').2.1 hz
  · intro z hz
    rcases List.mem_append.mp hz with hz | hz
    · exact h.clean z hz
    · exact (hfresh z hz).2.2
  · intro c₁ hc₁ y hy c' hc'
    have hmem := List.mem_of_head? hc₁
    have hnot : y ∉ reached := fun hy' => hy (List.mem_append_left _ hy')
    have hlt := hbeyond y hnot c' hc'
    have hlen : c₁.length ≤ c.length + 1 := by
      rcases List.mem_append.mp hmem with hmem | hmem
      · exact (hfirst c₁ hmem).2
      · exact Nat.le_of_eq (hlength c₁ hmem)
    rcases hc'.cases_snoc with ⟨_, rfl⟩ | ⟨c'', z, rfl, hc'', hnext⟩
    · exact absurd h.begun hnot
    rw [List.length_append, List.length_singleton] at hlt ⊢
    by_contra hge
    -- a chain no longer than the first that waits comes by a node reached, whose next are reached
    -- or wait as far off
    have hz : z ∈ reached := by
      by_contra hz
      have := hbeyond z hz c'' hc''
      omega
    rcases hdone z (List.mem_append_left _ hz) with ⟨c₂, hc₂, hlast⟩ | hreached
    · obtain ⟨z', _, hends, hleast'⟩ := hchains c₂ hc₂
      rw [hends.ends] at hlast
      cases hlast
      have hle := hleast' c'' hc''
      have hfirst₁ : c₁.length ≤ c₂.length := by
        obtain ⟨rest, hrest⟩ := List.head?_eq_some_iff.mp hc₁
        rw [hrest] at hc₂ hpairs
        rcases List.mem_cons.mp hc₂ with rfl | hc₂
        · exact Nat.le_refl _
        · exact (List.rel_of_pairwise_cons hpairs hc₂).1
      omega
    · exact hy (hreached y hnext)

/-- What a search tells comes to a goal, by a chain of least length with no goal before its end. -/
theorem Grown.search_some {none_ : α} {fuel : Nat} {c : List α}
    (h : Grown next goal start waiting reached)
    (hsearch : search next goal none_ fuel waiting reached = some c) :
    ∃ y ∈ goal, Chain (fun a b => b ∈ next a) start y c ∧ (∀ x ∈ c.dropLast, x ∉ goal) ∧
      ∀ y' ∈ goal, ∀ c', Chain (fun a b => b ∈ next a) start y' c' → c.length ≤ c'.length := by
  induction fuel generalizing waiting reached with
  | zero => cases hsearch
  | succ fuel ih =>
      cases waiting with
      | nil => cases hsearch
      | cons c₁ waiting =>
          obtain ⟨x, _, hc₁, _⟩ := h.chains c₁ List.mem_cons_self
          rw [search, List.getLastD_eq_getLast?, hc₁.ends, Option.getD_some] at hsearch
          rcases foldl_take c₁ (next x) [] h.clean with ⟨y, hy, hgoal, hfound⟩ | ⟨new, hnew,
            hnodup, hfresh, hall⟩
          · generalize List.foldl (take goal c₁) (none, [], reached) (next x) =
              out at hfound hsearch
            obtain ⟨_, _, _⟩ := out
            cases hfound
            cases hsearch
            refine ⟨y, hgoal, hc₁.snoc hy, fun z hz => ?_, fun y' hy' c' hc' => ?_⟩
            · rw [List.dropLast_concat] at hz
              exact h.clear c₁ List.mem_cons_self z hz
            · rw [List.length_append, List.length_singleton]
              exact h.beyond c₁ rfl y' (fun hmem => h.clean y' hmem hy') c' hc'
          · have hstep := h.step hc₁.ends hnodup hfresh hall
            rw [hnew] at hsearch
            exact ih hstep hsearch

omit [DecidableEq α] in
/-- Where no chain waits, nothing else is led to. -/
theorem Grown.over (h : Grown next goal start [] reached) {y : α} (hy : y ∈ goal) :
    ¬ ReflTransGen (fun a b => b ∈ next a) start y := by
  intro hreaches
  have hmem : y ∈ reached := by
    clear hy
    induction hreaches with
    | refl => exact h.begun
    | tail _ hnext ih =>
        rcases h.done _ ih with ⟨c, hc, _⟩ | hreached
        · cases hc
        · exact hreached _ hnext
  exact h.clean y hmem hy

/-- A search that tells nothing had nowhere left to go. -/
theorem Grown.search_none {none_ : α} {fuel : Nat} {nodes : List α}
    (hclosed : ∀ a ∈ nodes, ∀ b ∈ next a, b ∈ nodes) (h : Grown next goal start waiting reached)
    (hnodes : reached ⊆ nodes) (hfuel : waiting.length + nodes.length ≤ fuel + reached.length)
    (hsearch : search next goal none_ fuel waiting reached = none) :
    ∀ y ∈ goal, ¬ ReflTransGen (fun a b => b ∈ next a) start y := by
  induction fuel generalizing waiting reached with
  | zero =>
      -- as many are reached as there are, so no chain waits
      have hle : reached.length ≤ nodes.length := (List.subperm_of_subset h.once hnodes).length_le
      have hwaiting : waiting = [] := List.length_eq_zero_iff.mp (by omega)
      rw [hwaiting] at h
      exact fun y hy => h.over hy
  | succ fuel ih =>
      cases waiting with
      | nil => exact fun y hy => h.over hy
      | cons c waiting =>
          obtain ⟨x, hx, hc, _⟩ := h.chains c List.mem_cons_self
          rw [search, List.getLastD_eq_getLast?, hc.ends, Option.getD_some] at hsearch
          rcases foldl_take c (next x) [] h.clean with ⟨y, hy, hgoal, hfound⟩ | ⟨new, hnew,
            hnodup, hfresh, hall⟩
          · generalize List.foldl (take goal c) (none, [], reached) (next x) = out at hfound hsearch
            obtain ⟨_, _, _⟩ := out
            cases hfound
            cases hsearch
          · rw [hnew] at hsearch
            refine ih (h.step hc.ends hnodup hfresh hall) ?_ ?_ hsearch
            · intro z hz
              rcases List.mem_append.mp hz with hz | hz
              · exact hnodes hz
              · exact hclosed x (hnodes hx) z (hfresh z hz).1
            · rw [List.length_cons] at hfuel
              rw [List.length_append, List.length_map, List.length_append]
              omega

end Search

/-! ## Whether a node leads to another that is hit -/

/-- Whether a node leads to one that is hit, past none on the path. -/
def seeks [DecidableEq α] (next : α → List α) (hit : α → Bool) : Nat → List α → α → Bool
  | 0, _, _ => false
  | depth + 1, path, a =>
      (next a).any fun b => decide (b ∉ a :: path) && (hit b || seeks next hit depth (a :: path) b)

section Seeks

variable [DecidableEq α] {next : α → List α} {hit : α → Bool}

theorem of_seeks {depth : Nat} {path : List α} {a : α} (h : seeks next hit depth path a = true) :
    ∃ b, b ∉ a :: path ∧ TransGen (fun a b => b ∈ next a) a b ∧ hit b = true := by
  induction depth generalizing path a with
  | zero => cases h
  | succ depth ih =>
      obtain ⟨b, hb, hsought⟩ := List.any_eq_true.mp h
      obtain ⟨hpath, hsought⟩ := Bool.and_eq_true_iff.mp hsought
      rcases Bool.or_eq_true_iff.mp hsought with hhit | hbelow
      · exact ⟨b, of_decide_eq_true hpath, .single hb, hhit⟩
      · obtain ⟨b', hpath', hleads, hhit⟩ := ih hbelow
        exact ⟨b', fun hmem => hpath' (List.mem_cons_of_mem _ hmem), .head hb hleads, hhit⟩

/-- What a chain with no node twice leads to, off the path, is sought. -/
theorem seeks_of_chain {depth : Nat} {path c : List α} {a b : α}
    (hc : Chain (fun a b => b ∈ next a) a b (a :: c)) (hnodup : (a :: c).Nodup)
    (hpath : ∀ x ∈ c, x ∉ path) (hne : a ≠ b) (hhit : hit b = true) (hdepth : c.length ≤ depth) :
    seeks next hit depth path a = true := by
  induction c generalizing depth path a with
  | nil =>
      cases hc.ends
      exact absurd rfl hne
  | cons x c ih =>
      obtain ⟨depth, rfl⟩ : ∃ d, depth = d + 1 :=
        ⟨depth - 1, by rw [List.length_cons] at hdepth; omega⟩
      obtain ⟨hnext, hfollows⟩ := List.isChain_cons_cons.mp hc.follows
      obtain ⟨ha, hnodup⟩ := List.nodup_cons.mp hnodup
      have hx : x ∉ a :: path := by
        intro hmem
        rcases List.mem_cons.mp hmem with rfl | hmem
        · exact ha List.mem_cons_self
        · exact hpath x List.mem_cons_self hmem
      refine List.any_eq_true.mpr ⟨x, hnext, ?_⟩
      rw [decide_eq_true hx, Bool.true_and, Bool.or_eq_true]
      by_cases hxb : x = b
      · rw [hxb]
        exact Or.inl hhit
      · refine Or.inr (ih ⟨hfollows, rfl, ?_⟩ hnodup ?_ hxb ?_)
        · rw [← hc.ends, List.getLast?_cons_cons]
        · intro y hy hmem
          rcases List.mem_cons.mp hmem with rfl | hmem
          · exact ha (List.mem_cons_of_mem _ hy)
          · exact hpath y (List.mem_cons_of_mem _ hy) hmem
        · rw [List.length_cons] at hdepth
          omega

/-- By any bound as large as the nodes are many, a node is told to lead to another that is hit just
where it does. -/
theorem seeks_iff {nodes : List α} (hclosed : ∀ a ∈ nodes, ∀ b ∈ next a, b ∈ nodes) {depth : Nat}
    (hdepth : nodes.length ≤ depth) {a : α} (ha : a ∈ nodes) :
    seeks next hit depth [] a = true ↔ ∃ b, b ≠ a ∧ TransGen (fun a b => b ∈ next a) a b ∧
      hit b = true := by
  constructor
  · intro h
    obtain ⟨b, hb, hleads, hhit⟩ := of_seeks h
    exact ⟨b, fun he => hb (he ▸ List.mem_cons_self), hleads, hhit⟩
  · rintro ⟨b, hne, hleads, hhit⟩
    obtain ⟨c, hc, hnodup⟩ := Chain.of_reaches hleads.to_reflTransGen
    have hsub : ∀ x ∈ c, x ∈ nodes := hc.subset hclosed ha
    have hlength : c.length ≤ nodes.length := (List.subperm_of_subset hnodup hsub).length_le
    obtain ⟨c', rfl⟩ := List.head?_eq_some_iff.mp hc.first
    refine seeks_of_chain hc hnodup (fun _ _ h => nomatch h) hne.symm hhit ?_
    rw [List.length_cons] at hlength
    omega

end Seeks

end Chains
