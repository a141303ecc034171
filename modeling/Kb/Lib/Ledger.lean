/-
# `Kb.Lib.Ledger` — a log of what was put under keys and taken out

A log lists entries, oldest first; each is of one key, and either puts something under it or takes
out what stands there.  `life` is what was put under a key since it was last taken out, `standing`
the last of that.

    life (log ++ [e]) k   =  []              e takes k out
                             life log k ++ [e]   e puts something under k
                             life log k      e is of another key

A log whose entries are stamped with turns that never go back is read as it was at any turn
(`upTo`): what was appended since is left out, and nothing else.
-/
import Mathlib.Data.List.Induction

namespace Ledger

variable {E K V : Type} [DecidableEq K] (key : E → K) (value : E → Option V)

/-- What was put under a key since it was last taken out, after one more entry. -/
def living (k : K) (kept : List E) (e : E) : List E :=
  if key e = k then (if (value e).isNone then [] else kept ++ [e]) else kept

/-- What was put under a key since it was last taken out. -/
def life (log : List E) (k : K) : List E := log.foldl (living key value k) []

/-- The entry that put what stands under a key, nothing where nothing does. -/
def standing (log : List E) (k : K) : Option E := (life key value log k).getLast?

variable {key value}

theorem life_concat (log : List E) (e : E) (k : K) :
    life key value (log ++ [e]) k = living key value k (life key value log k) e := by
  simp [life, List.foldl_append]

theorem life_other {log : List E} {e : E} {k : K} (h : key e ≠ k) :
    life key value (log ++ [e]) k = life key value log k := by
  rw [life_concat, living, if_neg h]

theorem life_out {log : List E} {e : E} (h : value e = none) :
    life key value (log ++ [e]) (key e) = [] := by
  rw [life_concat, living, if_pos rfl, h]
  rfl

theorem life_put {log : List E} {e : E} {v : V} (h : value e = some v) :
    life key value (log ++ [e]) (key e) = life key value log (key e) ++ [e] := by
  rw [life_concat, living, if_pos rfl, h]
  rfl

/-- What stands under a key was put there by an entry of the log. -/
theorem mem_life {log : List E} {k : K} {e : E} (h : e ∈ life key value log k) :
    e ∈ log ∧ key e = k ∧ (value e).isSome = true := by
  induction log using List.reverseRecOn with
  | nil => nomatch h
  | append_singleton log e' ih =>
      by_cases hkey : key e' = k
      · subst hkey
        cases hvalue : value e' with
        | none =>
            rw [life_out hvalue] at h
            nomatch h
        | some v =>
            rw [life_put hvalue] at h
            rcases List.mem_append.mp h with h | h
            · obtain ⟨hmem, hrest⟩ := ih h
              exact ⟨List.mem_append_left _ hmem, hrest⟩
            · rw [List.mem_singleton.mp h]
              exact ⟨List.mem_append_right _ List.mem_cons_self, rfl, by rw [hvalue]; rfl⟩
      · rw [life_other hkey] at h
        obtain ⟨hmem, hrest⟩ := ih h
        exact ⟨List.mem_append_left _ hmem, hrest⟩

/-- Where no later entry takes a key out, what was put under it stays, what the later entries put
there after it. -/
theorem life_append {log later : List E} {k : K}
    (h : ∀ e ∈ later, key e = k → (value e).isSome = true) :
    life key value (log ++ later) k = life key value log k ++ later.filter fun e => key e = k := by
  induction later using List.reverseRecOn with
  | nil => simp
  | append_singleton later e ih =>
      have hkept := ih fun e' he' => h e' (List.mem_append_left _ he')
      rw [← List.append_assoc]
      by_cases hkey : key e = k
      · obtain ⟨v, hv⟩ :=
          Option.isSome_iff_exists.mp (h e (List.mem_append_right _ List.mem_cons_self) hkey)
        subst hkey
        rw [life_put hv, hkept, List.filter_append, List.append_assoc]
        simp
      · rw [life_other hkey, hkept, List.filter_append]
        simp [hkey]

/-- A log goes on from another by entries of later turns. -/
def Grown (stamp : E → Nat) (turn : Nat) (log log' : List E) : Prop :=
  ∃ later, log' = log ++ later ∧ ∀ e ∈ later, turn < stamp e

theorem Grown.refl (stamp : E → Nat) (turn : Nat) (log : List E) : Grown stamp turn log log :=
  ⟨[], (List.append_nil log).symm, nofun⟩

theorem Grown.trans {stamp : E → Nat} {turn turn' : Nat} {a b c : List E} (h : Grown stamp turn a b)
    (h' : Grown stamp turn' b c) (hturn : turn ≤ turn') : Grown stamp turn a c := by
  obtain ⟨later, rfl, hlater⟩ := h
  obtain ⟨later', rfl, hlater'⟩ := h'
  refine ⟨later ++ later', List.append_assoc .., fun e he => ?_⟩
  rcases List.mem_append.mp he with he | he
  · exact hlater e he
  · exact Nat.lt_of_le_of_lt hturn (hlater' e he)

/-- The entries up to a turn. -/
def upTo (stamp : E → Nat) (turn : Nat) (log : List E) : List E :=
  log.filter fun e => stamp e ≤ turn

/-- A log read up to a turn it stood at is the log as it stood. -/
theorem Grown.upTo {stamp : E → Nat} {turn : Nat} {log log' : List E}
    (h : Grown stamp turn log log') (hlog : ∀ e ∈ log, stamp e ≤ turn) :
    upTo stamp turn log' = log := by
  obtain ⟨later, rfl, hlater⟩ := h
  have hold : log.filter (fun e => decide (stamp e ≤ turn)) = log :=
    List.filter_eq_self.mpr fun e he => decide_eq_true (hlog e he)
  have hnew : later.filter (fun e => decide (stamp e ≤ turn)) = [] :=
    List.filter_eq_nil_iff.mpr fun e he => by simpa using hlater e he
  rw [Ledger.upTo, List.filter_append, hold, hnew, List.append_nil]

end Ledger
