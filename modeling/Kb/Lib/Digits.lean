/-
# `Kb.Lib.Digits` — text that is digits, and the number it is

`str.isdigit` and `int` over Unicode: a decimal digit is one of ten letters that follow a zero, in
any script; a digit is one of those, or a digit written above or below a line, in a circle or
otherwise apart, which no number is read of.  How many digits an interpreter reads at most is left
out.
-/
import Mathlib.Data.List.Basic

namespace Digits

/-- The zeros of the scripts, each followed by its nine other digits. -/
def ZEROS : List Nat :=
  [0x30, 0x660, 0x6f0, 0x7c0, 0x966, 0x9e6, 0xa66, 0xae6, 0xb66, 0xbe6, 0xc66, 0xce6, 0xd66, 0xde6,
    0xe50, 0xed0, 0xf20,
    0x1040, 0x1090, 0x17e0, 0x1810, 0x1946, 0x19d0, 0x1a80, 0x1a90, 0x1b50, 0x1bb0, 0x1c40, 0x1c50,
      0xa620, 0xa8d0, 0xa900,
    0xa9d0, 0xa9f0, 0xaa50, 0xabf0, 0xff10, 0x104a0, 0x10d30, 0x11066, 0x110f0, 0x11136, 0x111d0,
      0x112f0, 0x11450, 0x114d0,
    0x11650, 0x116c0, 0x11730, 0x118e0, 0x11950, 0x11c50, 0x11d50, 0x11da0, 0x11f50, 0x16a60,
      0x16ac0, 0x16b50, 0x1d7ce,
    0x1d7d8, 0x1d7e2, 0x1d7ec, 0x1d7f6, 0x1e140, 0x1e2f0, 0x1e4f0, 0x1e950, 0x1fbf0]

/-- The digits that are no decimal digits, from the first of a run to its last. -/
def APART : List (Nat × Nat) :=
  [(0xb2, 0xb3), (0xb9, 0xb9), (0x1369, 0x1371), (0x19da, 0x19da), (0x2070, 0x2070),
    (0x2074, 0x2079), (0x2080, 0x2089),
    (0x2460, 0x2468), (0x2474, 0x247c), (0x2488, 0x2490), (0x24ea, 0x24ea), (0x24f5, 0x24fd),
      (0x24ff, 0x24ff),
    (0x2776, 0x277e), (0x2780, 0x2788), (0x278a, 0x2792), (0x10a40, 0x10a43), (0x10e60, 0x10e68),
      (0x11052, 0x1105a),
    (0x1f100, 0x1f10a)]

def decimal? (c : Char) : Option Nat :=
  (ZEROS.find? fun first => decide (first ≤ c.toNat ∧ c.toNat < first + 10)).map (c.toNat - ·)

def digit (c : Char) : Bool :=
  (decimal? c).isSome || APART.any fun run => decide (run.1 ≤ c.toNat ∧ c.toNat ≤ run.2)

/-- `text.isdigit()`. -/
def isDigit (text : String) : Bool := !text.toList.isEmpty && text.toList.all digit

/-- `int(text)` of text that is digits, nothing where a digit of it is no decimal one. -/
def int? (text : String) : Option Nat :=
  (text.toList.mapM decimal?).map (List.foldl (fun n d => 10 * n + d) 0)

/-! ## A number as it is written -/

theorem decimal?_of_isDigit {c : Char} (h : c.isDigit = true) :
    decimal? c = some (c.toNat - '0'.toNat) := by
  have hbounds : 48 ≤ c.toNat ∧ c.toNat ≤ 57 := by
    rw [Char.isDigit, Bool.and_eq_true, decide_eq_true_eq, decide_eq_true_eq] at h
    exact h
  rw [decimal?, ZEROS, List.find?_cons_of_pos (by rw [decide_eq_true_eq]; omega)]
  rfl

theorem isDigit_toString (n : Nat) : isDigit (toString n) = true := by
  rw [isDigit, Nat.toString_eq_repr, Nat.toList_repr, Bool.and_eq_true, List.all_eq_true]
  constructor
  · rw [Bool.not_eq_true', List.isEmpty_eq_false_iff]
    exact Nat.toDigits_ne_nil
  · intro c hc
    rw [digit, decimal?_of_isDigit (Nat.isDigit_of_mem_toDigits (by decide) (by decide) hc)]
    rfl

/-- A number is read of how it is written. -/
theorem int?_toString (n : Nat) : int? (toString n) = some n := by
  have hread : ∀ cs : List Char, (∀ c ∈ cs, c.isDigit = true) →
      cs.mapM decimal? = some (cs.map fun c => c.toNat - '0'.toNat) := by
    intro cs hcs
    induction cs with
    | nil => rfl
    | cons c cs ih =>
        rw [List.mapM_cons, decimal?_of_isDigit (hcs c List.mem_cons_self), ih fun c hc =>
          hcs c (List.mem_cons_of_mem _ hc)]
        rfl
  rw [int?, Nat.toString_eq_repr, Nat.toList_repr,
    hread _ fun c hc => Nat.isDigit_of_mem_toDigits (by decide) (by decide) hc, Option.map_some,
      List.foldl_map,
    ← Nat.ofDigitChars_eq_foldl, Nat.ofDigitChars_toDigits (by decide) (by decide)]

end Digits
