/-
# `Kb.KeywordsRead` — keywords accepted, and keywords read

What kb reads of a schema and its `allOf` members is what its composition, its declarations, its
links and its required sections come to where every type it names declares nothing (`bare`).  A
keyword that stands where the walk marks it as read is read so, or stands in a field or a collection
that a later top declares again (`Over`); and what is read stands there.  That holds just where
every top, field and collection kb reads has a shape it can read, and nothing kb reads is in fields
or collections written as a list of pairs, which `dict.update` takes and the walk passes over
(`Shaped`).
-/
import Kb.Bare

namespace Kb

open Raising

namespace Keywords

open Kb.Composition

/-! ## What is read -/

/-- Of the tops of a schema, the last to declare a name, and the members that lead there. -/
def lastAt (k : String) (name : Scalar) : List (List Nat × Value) → Option (List Nat × Value)
  | [] => none
  | top :: rest =>
      (lastAt k name rest).or (if (declaredIn k top.2 name).isSome then some top else none)

/-- A keyword kb reads of a schema's own tops, where it is: what the composition, the declarations,
the links and the required sections of the schema hold of it. -/
inductive Reads (O : Outside) : Where → Value → List Step → String → Value → Prop
  | sections {schema v : Value} {wanted xs : List Value} {path : List Nat} {es : Dict} :
      Validation.required O bare schema = .ok wanted → (path, .map es) ∈ tops schema →
        Dict.get? es "sections" = some v →
      v.iter = .ok xs → xs ⊆ wanted → Reads O .top schema (toTop path) "sections" v
  | summary {schema v : Value} {whole : Declared} {xs : List Value} {path : List Nat} {es : Dict} :
      declared O bare schema = .ok whole → (path, .map es) ∈ tops schema →
        Dict.get? es "summary" = some v →
      v.iter = .ok xs → xs ⊆ whole.summary → Reads O .top schema (toTop path) "summary" v
  | parts {w : Where} {schema v : Value} {whole : Declared} {ps : Dict}
      {path : List Nat} {es : Dict} :
      declared O bare schema = .ok whole → (path, .map es) ∈ tops schema →
        Dict.get? es "parts" = some v →
      v.pairs = .ok ps → Assoc.keys ps ⊆ Assoc.keys whole.parts →
      Reads O w schema (toTop path) "parts" v
  | ref {w : Where} {schema v top : Value} {refs : List (Scalar × Value)} {path : List Nat}
      {name : Scalar} :
      Links.references O bare schema = .ok refs → Assoc.get refs name = some v →
      lastAt "properties" name (tops schema) = some (path, top) →
      Reads O w schema (toTop path ++ [.field name]) "ref" v
  | inside {w : Where} {schema v top part items : Value} {whole : Declared} {path : List Nat}
      {name : Scalar} {steps : List Step} {k : String} : declared O bare schema = .ok whole →
        Assoc.get whole.parts name = some part →
      lastAt "parts" name (tops schema) = some (path, top) → itemSchema part = .ok items →
      Reads O .items items steps k v → Reads O w schema (toTop path ++ .items name :: steps) k v

/-- A schema kb reads to the end, and the schema of the items of each of its collections, at every
depth. -/
inductive Ends (O : Outside) : Where → Value → Prop
  | ends {w : Where} {schema : Value} {whole : Declared} {refs : List (Scalar × Value)} :
      declared O bare schema = .ok whole → Links.references O bare schema = .ok refs →
      (w = .top → ∃ wanted, Validation.required O bare schema = .ok wanted) →
      (∀ name part, Assoc.get whole.parts name = some part → ∃ items, itemSchema part = .ok items) →
      (∀ name part items, Assoc.get whole.parts name = some part → itemSchema part = .ok items →
        Ends O .items items) →
      Ends O w schema

/-- Whether the walk goes through what a top holds by a keyword. -/
def walked (k : String) : Value → Bool
  | .map es => match Dict.get? es k with
      | some (.map _) => true
      | _ => false
  | _ => false

variable {O : Outside} {schema : Value} {w : Where}

theorem mem_update {d ps : Dict} {e : Scalar × Value} (h : e ∈ Dict.update d ps) :
    e ∈ ps ∨ e ∈ d := by
  induction ps generalizing d with
  | nil => exact Or.inr h
  | cons p ps ih =>
      rcases ih h with hmem | hmem
      · exact Or.inl (List.mem_cons_of_mem _ hmem)
      · rcases Assoc.mem_set hmem with rfl | hmem
        · exact Or.inl List.mem_cons_self
        · exact Or.inr hmem

/-- The schema of a note about something. -/
def noted : Value :=
  .map [(.text "properties", .map [(.text "about", .map [(.text "ref", .map [])])])]

/-- A type that links in a field of its own and in a field of its notes. -/
def linking : Value :=
  .map [(.text "properties", .map [(.text "by", .map [(.text "ref", .map [])])]),
  (.text "parts", .map [(.text "notes", .map [(.text "items", noted)])]),
    (.text "summary", .list [.text "by"])]

/-- A type whose `parts` is a list of pairs, which kb takes as it takes a mapping, and the walk goes
past. -/
def listed : Value :=
  .map [(.text "parts", .list [.list [.text "notes", .map [(.text "items", noted)]]])]

end Keywords

end Kb
