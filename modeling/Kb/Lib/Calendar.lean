/-
# `Kb.Lib.Calendar` — days and microseconds written as a date and a time

The Gregorian calendar carried back to the first day of year 1: a count of days as a year, a month
and a day, and a count of microseconds as a time of day; numbers written in a fixed count of digits;
and that a moment so written is the writing of no other (`written_inj`), in the years of four
digits.
-/
import Mathlib

namespace Calendar

/-! ## Numbers in a fixed count of digits -/

/-- A number in a fixed count of digits, led by zeros. -/
def fixed : Nat → Nat → List Char
  | 0, _ => []
  | width + 1, n => fixed width (n / 10) ++ [(n % 10).digitChar]

@[simp] theorem length_fixed (width n : Nat) : (fixed width n).length = width := by
  induction width generalizing n with
  | zero => rfl
  | succ width ih => rw [fixed, List.length_append, ih]; rfl

theorem isDigit_of_mem_fixed {width n : Nat} {c : Char} (h : c ∈ fixed width n) :
    c.isDigit = true := by
  induction width generalizing n with
  | zero => nomatch h
  | succ width ih =>
      rcases List.mem_append.mp h with h | h
      · exact ih h
      · rw [List.mem_singleton.mp h]
        have hlt : n % 10 < 10 := Nat.mod_lt _ (by decide)
        generalize n % 10 = d at hlt
        revert d
        decide

theorem digitChar_inj {m n : Nat} (hm : m < 10) (hn : n < 10) (h : m.digitChar = n.digitChar) :
    m = n := by
  have hall : ∀ m < 10, ∀ n < 10, Nat.digitChar m = Nat.digitChar n → m = n := by decide
  exact hall m hm n hn h

theorem fixed_inj {width m n : Nat} (hm : m < 10 ^ width) (hn : n < 10 ^ width)
    (h : fixed width m = fixed width n) : m = n := by
  induction width generalizing m n with
  | zero => omega
  | succ width ih =>
      obtain ⟨hfirst, hlast⟩ := List.append_inj h (by simp)
      rw [Nat.pow_succ] at hm hn
      have hdiv : m / 10 = n / 10 := ih (by omega) (by omega) hfirst
      have hmod : m % 10 = n % 10 :=
        digitChar_inj (Nat.mod_lt _ (by decide)) (Nat.mod_lt _ (by decide))
          (List.singleton_inj.mp hlast)
      omega

/-! ## The calendar -/

def leap (year : Nat) : Bool := year % 4 = 0 && (year % 100 ≠ 0 || year % 400 = 0)

/-- The days before a year's first. -/
def daysBefore (year : Nat) : Nat :=
  (year - 1) * 365 + (year - 1) / 4 - (year - 1) / 100 + (year - 1) / 400

/-- The days of each month. -/
def months (leap : Bool) : List Nat :=
  [31, if leap then 29 else 28, 31, 30, 31, 30, 31, 31, 30, 31, 30, 31]

/-- A day of a year, counted from 0, as a month and a day of it, the months from one on being as
long as listed. -/
def monthDay : List Nat → Nat → Nat → Nat × Nat
  | [], month, n => (month, n + 1)
  | days :: rest, month, n =>
      if n < days then (month, n + 1) else monthDay rest (month + 1) (n - days)

/-- The year of a day counted from the first of year 1, and its day of that year, both read by the
cycles of 400, 100, 4 years and 1. -/
def yearDay (n : Nat) : Nat × Nat :=
  let a := n / 146097
  let r := n % 146097
  let b := min 3 (r / 36524)
  let r := r - b * 36524
  let c := r / 1461
  let r := r % 1461
  let e := min 3 (r / 365)
  (a * 400 + b * 100 + c * 4 + e + 1, r - e * 365)

theorem yearDay_spec (n : Nat) : daysBefore (yearDay n).1 + (yearDay n).2 = n := by
  obtain ⟨a, ha⟩ : ∃ a, a = n / 146097 := ⟨_, rfl⟩
  obtain ⟨b, hb⟩ : ∃ b, b = min 3 (n % 146097 / 36524) := ⟨_, rfl⟩
  obtain ⟨c, hc⟩ : ∃ c, c = (n % 146097 - b * 36524) / 1461 := ⟨_, rfl⟩
  obtain ⟨e, he⟩ : ∃ e, e = min 3 ((n % 146097 - b * 36524) % 1461 / 365) := ⟨_, rfl⟩
  have hyear :
      yearDay n =
      (a * 400 + b * 100 + c * 4 + e + 1, (n % 146097 - b * 36524) % 1461 - e * 365) := by
    subst he hc hb ha
    rfl
  have hb3 : b ≤ 3 := hb ▸ Nat.min_le_left _ _
  have he3 : e ≤ 3 := he ▸ Nat.min_le_left _ _
  have hc24 : c ≤ 24 := by omega
  -- The years counted in cycles of 4, 100 and 400.
  have h4 : (a * 400 + b * 100 + c * 4 + e) / 4 = a * 100 + b * 25 + c := by omega
  have h100 : (a * 400 + b * 100 + c * 4 + e) / 100 = a * 4 + b := by omega
  have h400 : (a * 400 + b * 100 + c * 4 + e) / 400 = a := by omega
  rw [hyear]
  simp only [daysBefore, Nat.add_sub_cancel, h4, h100, h400]
  omega

theorem yearDay_inj {m n : Nat} (h : yearDay m = yearDay n) : m = n := by
  rw [← yearDay_spec m, ← yearDay_spec n, h]

theorem day_le (n : Nat) : (yearDay n).2 ≤ 365 := by
  simp only [yearDay]
  omega

theorem le_month (days : List Nat) (month n : Nat) : month ≤ (monthDay days month n).1 := by
  induction days generalizing month n with
  | nil => exact Nat.le_refl _
  | cons first rest ih =>
      unfold monthDay
      split
      · exact Nat.le_refl _
      · exact Nat.le_of_succ_le (ih (month + 1) (n - first))

theorem month_le (days : List Nat) (month n : Nat) :
    (monthDay days month n).1 ≤ month + days.length := by
  induction days generalizing month n with
  | nil => exact Nat.le_refl _
  | cons first rest ih =>
      unfold monthDay
      split
      · exact Nat.le_add_right _ _
      · have := ih (month + 1) (n - first)
        rw [List.length_cons]
        omega

theorem monthDay_inj {days : List Nat} {month m n : Nat}
    (h : monthDay days month m = monthDay days month n) : m = n := by
  induction days generalizing month m n with
  | nil => exact Nat.succ.inj (Prod.mk.inj h).2
  | cons first rest ih =>
      unfold monthDay at h
      by_cases hm : m < first <;> by_cases hn : n < first
      · rw [if_pos hm, if_pos hn] at h
        exact Nat.succ.inj (Prod.mk.inj h).2
      · rw [if_pos hm, if_neg hn] at h
        have := le_month rest (month + 1) (n - first)
        rw [← h] at this
        exact absurd this (by simp)
      · rw [if_neg hm, if_pos hn] at h
        have := le_month rest (month + 1) (m - first)
        rw [h] at this
        exact absurd this (by simp)
      · rw [if_neg hm, if_neg hn] at h
        have := ih h
        omega

theorem monthDay_day_le {days : List Nat} {month n : Nat} (hdays : ∀ d ∈ days, d ≤ 31)
    (hn : n ≤ days.sum + 30) :
    (monthDay days month n).2 ≤ 31 := by
  induction days generalizing month n with
  | nil =>
      simp only [List.sum_nil] at hn
      exact Nat.succ_le_succ (by omega : n ≤ 30)
  | cons first rest ih =>
      unfold monthDay
      split
      · next h =>
          have := hdays first List.mem_cons_self
          simp only
          omega
      · refine ih (fun d hd => hdays d (List.mem_cons_of_mem _ hd)) ?_
        rw [List.sum_cons] at hn
        omega

/-! ## A moment written -/

/-- A day and a microsecond of it as a date and a time, in digits and the marks between them. -/
def written (day micros : Nat) : List Char :=
  let (year, ofYear) := yearDay day
  let (month, ofMonth) := monthDay (months (leap year)) 1 ofYear
  fixed 4 year ++ fixed 2 month ++ fixed 2 ofMonth ++ ['T'] ++ fixed 2 (micros / 3600000000) ++
    fixed 2 (micros / 60000000 % 60) ++ fixed 2 (micros / 1000000 % 60) ++
      fixed 6 (micros % 1000000) ++ ['Z']

theorem mem_written {day micros : Nat} {c : Char} (h : c ∈ written day micros) :
    c.isDigit = true ∨ c = 'T' ∨ c = 'Z' := by
  simp only [written, List.mem_append, List.mem_singleton] at h
  rcases h with (((((((h | h) | h) | h) | h) | h) | h) | h) | h <;>
    first
    | exact Or.inl (isDigit_of_mem_fixed h)
    | exact Or.inr (Or.inl h)
    | exact Or.inr (Or.inr h)

/-- The days of the years of four digits. -/
def YEARS : Nat := daysBefore 10000

/-- A moment so written is the writing of no other. -/
theorem written_inj {day day' micros micros' : Nat} (hday : day < YEARS) (hday' : day' < YEARS)
    (hmicros : micros < 86400000000) (hmicros' : micros' < 86400000000)
    (h : written day micros = written day' micros') :
    day = day' ∧ micros = micros' := by
  have hyear : ∀ n < YEARS, (yearDay n).1 < 10 ^ 4 := by
    intro n hn
    have hspec := yearDay_spec n
    have hYEARS : YEARS = 3652059 := by decide
    simp only [daysBefore] at hspec
    omega
  have hmonth : ∀ n, (monthDay (months (leap (yearDay n).1)) 1 (yearDay n).2).1 < 10 ^ 2 := fun n =>
    Nat.lt_of_le_of_lt (month_le _ _ _) (by simp [months])
  have hmonthDay : ∀ n, (monthDay (months (leap (yearDay n).1)) 1 (yearDay n).2).2 < 10 ^ 2 := by
    intro n
    refine Nat.lt_of_le_of_lt (monthDay_day_le ?_ ?_) (by decide : 31 < 10 ^ 2)
    · intro d hd
      cases hleap : leap (yearDay n).1 <;> rw [hleap] at hd <;> simp [months] at hd <;> omega
    · refine Nat.le_trans (day_le n) ?_
      cases leap (yearDay n).1 <;> decide
  simp only [written] at h
  obtain ⟨h, hmicro⟩ := List.append_inj' (List.append_inj' h rfl).1 (by simp)
  obtain ⟨h, hsecond⟩ := List.append_inj' h (by simp)
  obtain ⟨h, hminute⟩ := List.append_inj' h (by simp)
  obtain ⟨h, hhour⟩ := List.append_inj' h (by simp)
  obtain ⟨h, hofMonth⟩ := List.append_inj' (List.append_inj' h rfl).1 (by simp)
  obtain ⟨hy, hm⟩ := List.append_inj' h (by simp)
  have hy := fixed_inj (hyear day hday) (hyear day' hday') hy
  have hm := fixed_inj (hmonth day) (hmonth day') hm
  have hd := fixed_inj (hmonthDay day) (hmonthDay day') hofMonth
  have hhour := fixed_inj (by omega) (by omega) hhour
  have hminute := fixed_inj (by omega) (by omega) hminute
  have hsecond := fixed_inj (by omega) (by omega) hsecond
  have hmicro := fixed_inj (by omega) (by omega) hmicro
  refine ⟨yearDay_inj (Prod.ext hy ?_), by omega⟩
  rw [← hy] at hm hd
  exact monthDay_inj (Prod.ext hm hd)

end Calendar
