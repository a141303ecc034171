/-
# `Kb.Lib.Repeats` — repeats in a list told apart

Each entry of a list with the number of entries before it that are the same (`numbered`): no two of
these are the same. What the number of an entry is depends on the entries like it alone, in their
order (`take_count`), so leaving out others or moving an entry past them leaves its number as it was
(`numbered_alike`).
-/
import Mathlib.Data.List.Basic
import Mathlib.Data.List.Nodup

namespace Repeats

variable {K α : Type} [BEq K]

def numberedFrom (seen : List K) : List K → List (K × Nat)
  | [] => []
  | k :: rest => (k, seen.count k) :: numberedFrom (seen ++ [k]) rest

/-- Each entry of a list and how many before it are the same. -/
def numbered (ks : List K) : List (K × Nat) := numberedFrom [] ks

theorem getElem?_numberedFrom (seen ks : List K) (i : Nat) :
    (numberedFrom seen ks)[i]? = ks[i]?.map fun k => (k, (seen ++ ks.take i).count k) := by
  induction ks generalizing seen i with
  | nil => rfl
  | cons k ks ih =>
      cases i with
      | zero => rw [numberedFrom, List.getElem?_cons_zero, List.getElem?_cons_zero, List.take_zero,
          List.append_nil]; rfl
      | succ i =>
          rw [numberedFrom, List.getElem?_cons_succ, List.getElem?_cons_succ, ih,
            List.take_succ_cons, List.append_assoc]
          rfl

theorem getElem?_numbered (ks : List K) (i : Nat) :
    (numbered ks)[i]? = ks[i]?.map fun k => (k, (ks.take i).count k) :=
  getElem?_numberedFrom [] ks i

theorem length_numbered (ks : List K) : (numbered ks).length = ks.length := by
  have h : ∀ (ks seen : List K), (numberedFrom seen ks).length = ks.length := by
    intro ks
    induction ks with
    | nil => exact fun _ => rfl
    | cons k ks ih =>
        intro seen
        rw [numberedFrom, List.length_cons, List.length_cons, ih]
  exact h ks []

/-- Entries numbered so are each another. -/
theorem numbered_nodup [LawfulBEq K] (ks : List K) : (numbered ks).Nodup := by
  rw [List.nodup_iff_getElem?_ne_getElem?]
  intro i j hij hj heq
  rw [length_numbered] at hj
  rw [getElem?_numbered, getElem?_numbered, List.getElem?_eq_getElem hj,
    List.getElem?_eq_getElem (Nat.lt_trans hij hj)] at heq
  obtain ⟨hsame, hcount⟩ := Prod.mk.inj (Option.some.inj heq)
  -- what is before the second holds what is before the first, and the first itself
  have htake :
      (ks.take j).count ks[j] = (ks.take i).count ks[j] + ((ks.take j).drop i).count ks[j] := by
    conv_lhs => rw [← List.take_append_drop i (ks.take j), List.count_append, List.take_take,
      Nat.min_eq_left (Nat.le_of_lt hij)]
  have hmem : ks[j] ∈ (ks.take j).drop i := by
    rw [← hsame]
    refine List.mem_iff_getElem?.mpr ⟨0, ?_⟩
    rw [List.getElem?_drop, List.getElem?_take_of_lt (by omega),
      List.getElem?_eq_getElem (by omega)]
    rfl
  have hpos := List.count_pos_iff.mpr hmem
  rw [hsame] at hcount
  omega

/-- How many before an entry are like it is where it stands among those like it. -/
theorem take_count [LawfulBEq K] [DecidableEq α] {xs : List α} (key : α → K) (hxs : xs.Nodup)
    {i : Nat} {x : α} (hi : xs[i]? = some x) :
    ((xs.map key).take i).count (key x) = (xs.filter fun y => key y == key x).idxOf x := by
  have hsplit : xs = xs.take i ++ x :: xs.drop (i + 1) := by
    obtain ⟨hlt, hx⟩ := List.getElem?_eq_some_iff.mp hi
    rw [← hx, ← List.drop_eq_getElem_cons hlt, List.take_append_drop]
  have hfresh : x ∉ xs.take i := by
    intro hmem
    rw [hsplit] at hxs
    exact (List.nodup_append.mp hxs).2.2 _ hmem _ List.mem_cons_self rfl
  have halike : (xs.filter fun y => key y == key x)
      = ((xs.take i).filter fun y => key y == key x) ++ x :: (xs.drop (i + 1)).filter fun y =>
          key y == key x := by
    conv_lhs => rw [hsplit]
    rw [List.filter_append, List.filter_cons, if_pos BEq.rfl]
  rw [halike, List.idxOf_append_of_notMem fun h => hfresh (List.mem_of_mem_filter h),
    List.idxOf_cons_self, Nat.add_zero, ← List.map_take, List.count, List.countP_map,
    List.countP_eq_length_filter]
  congr 1

/-- An entry has one number in two lists that hold the same entries like it in the same order. -/
theorem numbered_alike [LawfulBEq K] [DecidableEq α] {key : α → K} {xs ys : List α} (hxs : xs.Nodup)
    (hys : ys.Nodup) {i j : Nat} {x : α} (hi : xs[i]? = some x) (hj : ys[j]? = some x)
    (halike : (xs.filter fun y => key y == key x) = ys.filter fun y => key y == key x) :
    (numbered (xs.map key))[i]? = (numbered (ys.map key))[j]? := by
  rw [getElem?_numbered, getElem?_numbered, List.getElem?_map, List.getElem?_map, hi, hj,
    Option.map_some, Option.map_some, Option.map_some, take_count key hxs hi,
    take_count key hys hj, halike]

end Repeats
