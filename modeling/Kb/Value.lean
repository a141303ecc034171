/-
# `Kb.Value` — content as kb holds it

What a request or a file carries, once read as YAML 1.2: nothing, a truth value, a number, text, a
list or a mapping from scalars.  A mapping is the list of its entries in the order they were
written, as a Python mapping keeps them.  A float is kept as the text Python writes it as, which
tells one float from every other.

Two keys Python takes for one (`1` and `true`) are two keys here; a Python mapping holds one of them
only, which `Scalar.equals` tells where a mapping is made.
-/
import Kb.Lib.Assoc

namespace Kb

/-- A value that holds no other: what a mapping's key may be. -/
inductive Scalar where
  | null
  | bool (b : Bool)
  | int (n : Int)
  | float (written : String)
  | text (t : String)
deriving DecidableEq

instance Scalar.ofText : Coe String Scalar := ⟨.text⟩

inductive Value where
  | scalar (s : Scalar)
  | list (vs : List Value)
  | map (es : List (Scalar × Value))

/-- A mapping's entries, in order. -/
abbrev Dict := List (Scalar × Value)

namespace Value

abbrev null : Value := .scalar .null
abbrev bool (b : Bool) : Value := .scalar (.bool b)
abbrev int (n : Int) : Value := .scalar (.int n)
abbrev text (t : String) : Value := .scalar (.text t)

instance : Inhabited Value := ⟨null⟩

/-! ## Equality, decided -/

mutual
def decEq : (v w : Value) → Decidable (v = w)
  | .scalar a, .scalar b =>
      if h : a = b then isTrue (h ▸ rfl) else isFalse fun e => h (by injection e)
  | .list a, .list b => match decEqs a b with
      | isTrue h => isTrue (h ▸ rfl)
      | isFalse h => isFalse fun e => h (by injection e)
  | .map a, .map b => match decEqEntries a b with
      | isTrue h => isTrue (h ▸ rfl)
      | isFalse h => isFalse fun e => h (by injection e)
  | .scalar _, .list _ | .scalar _, .map _ | .list _, .scalar _ | .list _, .map _
  | .map _, .scalar _ | .map _, .list _ => isFalse fun e => by injection e
def decEqs : (vs ws : List Value) → Decidable (vs = ws)
  | [], [] => isTrue rfl
  | [], _ :: _ | _ :: _, [] => isFalse fun e => by injection e
  | v :: vs, w :: ws => match decEq v w, decEqs vs ws with
      | isTrue h, isTrue k => isTrue (h ▸ k ▸ rfl)
      | isFalse h, _ => isFalse fun e => h (by injection e)
      | _, isFalse k => isFalse fun e => k (by injection e)
def decEqEntries : (es fs : List (Scalar × Value)) → Decidable (es = fs)
  | [], [] => isTrue rfl
  | [], _ :: _ | _ :: _, [] => isFalse fun e => by injection e
  | (j, v) :: es, (k, w) :: fs =>
      if hk : j = k then
        match decEq v w, decEqEntries es fs with
        | isTrue h, isTrue r => isTrue (by rw [hk, h, r])
        | isFalse h, _ => isFalse fun e => h (by injection e with e _; injection e)
        | _, isFalse r => isFalse fun e => r (by injection e)
      else isFalse fun e => hk (by injection e with e _; injection e)
end

instance : DecidableEq Value := decEq

end Value

/-! ## Mappings -/

namespace Dict

/-- `d.get(name)` for a name that is text. -/
def get? (d : Dict) (name : String) : Option Value :=
  Assoc.get d (.text name)

/-- `name in d`. -/
def has (d : Dict) (name : String) : Bool :=
  (get? d name).isSome

/-- `d[name] = value`, in place when the name is there, last when it is not. -/
def set (d : Dict) (name : String) (value : Value) : Dict :=
  Assoc.set d (.text name) value

/-- `d.update(other)`. -/
def update (d : Dict) (other : Dict) : Dict :=
  other.foldl (fun d e => Assoc.set d e.1 e.2) d

end Dict

/-! ## Values as Python takes them -/

/-- The whole number of 53 bits nearest a whole number, the even one of two as near: what a float
keeps of it. -/
def nearest (n : Nat) : Nat :=
  let unit := Nat.pow 2 (n.log2 - 52)
  let kept := n / unit
  let rest := n % unit
  (if 2 * rest < unit ∨ (2 * rest = unit ∧ kept % 2 = 0) then kept else kept + 1) * unit

/-- The number digits write, when there is one. -/
def digits? (cs : List Char) : Option Nat :=
  if !cs.isEmpty && cs.all Char.isDigit then some (Nat.ofDigitChars 10 cs 0) else none

/-- What Python writes of a float, parted at its exponent, which it writes from 10^16 on and below
10^-4. -/
def exponent? (written : List Char) : Option (List Char × Int) :=
  match written.splitOn 'e' with
  | [digits] => some (digits, 0)
  | [digits, '+' :: power] => (digits? power).map fun n => (digits, (n : Int))
  | [digits, '-' :: power] => (digits? power).map fun n => (digits, -(n : Int))
  | _ => none

/-- A float written without a sign: its digits before the point and after it, and its exponent. -/
def floatParts? (written : List Char) : Option (List Char × List Char × Int) := do
  let (mantissa, power) ← exponent? written
  match mantissa.splitOn '.' with
  | [whole] => some (whole, [], power)
  | [whole, fraction] => some (whole, fraction, power)
  | _ => none

/-- The whole number a float written without a sign is, when it is one. -/
def floatSize? (written : List Char) : Option Nat := do
  let (whole, fraction, power) ← floatParts? written
  let digits ← digits? (whole ++ fraction)
  let shift := power - fraction.length
  if 0 ≤ shift then some (nearest (digits * Nat.pow 10 shift.toNat))
  else if digits % Nat.pow 10 (-shift).toNat = 0
    then some (nearest (digits / Nat.pow 10 (-shift).toNat))
  else none

/-- The whole number a float is, when it is one. -/
def floatWhole? (written : String) : Option Int :=
  match written.toList with
  | '-' :: size => (floatSize? size).map fun n => -(n : Int)
  | size => (floatSize? size).map fun n => (n : Int)

-- The float nearest 10^23 lies below it; 10^16 is a float.
example : floatWhole? "1e+23" = some 99999999999999991611392 := by decide +kernel
example : floatWhole? "1e+16" = some (10 ^ 16) ∧ floatWhole? "-2.0" = some (-2) := by decide +kernel
example : floatWhole? "1.5" = none ∧ floatWhole? "5e-324" = none ∧ floatWhole? "inf" = none := by
  decide +kernel

/-- The whole number a scalar counts as where Python compares numbers: a float that is whole, and
`True` as 1. -/
def Scalar.whole? : Scalar → Option Int
  | .int n => some n
  | .bool b => some (if b then 1 else 0)
  | .float w => floatWhole? w
  | _ => none

/-- `==` of two scalars: what is not a number (`nan`) is equal to nothing. -/
def Scalar.equals (s t : Scalar) : Bool :=
  match s.whole?, t.whole? with
  | some m, some n => m == n
  | none, none => s == t && s != .float "nan"
  | _, _ => false

/-- `==` of a value and a scalar. -/
def Value.equals : Value → Scalar → Bool
  | .scalar s, t => s.equals t
  | _, _ => false

/-- The truth Python gives a value. -/
def Value.truthy : Value → Bool
  | .scalar .null => false
  | .scalar (.bool b) => b
  | .scalar (.int n) => n ≠ 0
  | .scalar (.float w) => floatWhole? w ≠ some 0
  | .scalar (.text t) => t ≠ ""
  | .list vs => !vs.isEmpty
  | .map es => !es.isEmpty

/-- Text as Python quotes it: in single quotes, or in double ones when it holds a single quote and
no double one; a mark that would end it, a backslash and the ends of lines escaped. -/
def quoted (t : String) : String :=
  let cs := t.toList
  let q := if cs.contains '\'' && !cs.contains '"' then '"' else '\''
  let escape : Char → List Char := fun c =>
    if c = q then ['\\', q]
    else if c = '\\' then ['\\', '\\']
    else if c = '\n' then ['\\', 'n']
    else if c = '\r' then ['\\', 'r']
    else if c = '\t' then ['\\', 't']
    else [c]
  String.ofList ([q] ++ cs.flatMap escape ++ [q])

def Scalar.str : Scalar → String
  | .null => "None"
  | .bool b => if b then "True" else "False"
  | .int n => toString n
  | .float w => w
  | .text t => t

/-- `repr` of a scalar. -/
def Scalar.repr : Scalar → String
  | .text t => quoted t
  | s => s.str

mutual
/-- `repr` of a value. -/
def Value.repr : Value → String
  | .scalar s => s.repr
  | .list vs => "[" ++ ", ".intercalate (Value.reprs vs) ++ "]"
  | .map es => "\x7b" ++ ", ".intercalate (Value.reprEntries es) ++ "\x7d"
def Value.reprs : List Value → List String
  | [] => []
  | v :: vs => Value.repr v :: Value.reprs vs
def Value.reprEntries : List (Scalar × Value) → List String
  | [] => []
  | (k, v) :: es => (k.repr ++ ": " ++ Value.repr v) :: Value.reprEntries es
end

/-- `str` of a value. -/
def Value.str : Value → String
  | .scalar s => s.str
  | v => v.repr

end Kb
