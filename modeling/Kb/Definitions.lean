/-
# `Kb.Definitions` — a type checked as it is written

`keywords.py` and `definitions.py`: every shape a type refers to belongs to a version of a type that
is held, it is not built on itself, kb's own keywords stand only where kb reads them, and every link
field kb reads states its whole shape.
-/
import Kb.Composition

namespace Kb

/-! ## Where kb reads its own keywords -/

namespace Keywords

def OWN : List String := ["ref", "parts", "sections", "summary"]

/-- Where a schema stands, by which of kb's keywords kb reads there. -/
inductive Where where
  | top | items | field | elsewhere
deriving DecidableEq

def Where.reads : Where → List String
  | .top => ["parts", "summary", "sections"]
  | .items => ["parts"]
  | .field => ["ref"]
  | .elsewhere => []

def ONE : List String :=
  ["items", "additionalProperties", "contains", "not", "if", "then", "else", "propertyNames",
    "unevaluatedItems",
    "unevaluatedProperties", "contentSchema"]
def EACH : List String := ["prefixItems", "anyOf", "oneOf"]
def NAMED : List String := ["$defs", "definitions", "patternProperties", "dependentSchemas"]

/-- One of kb's keywords where it stands in a type: its place, the place of the schema holding it,
whether kb reads it there, and its value. -/
structure Standing where
  keyword : String
  place : String
  holder : String
  read : Bool
  value : Value
deriving DecidableEq

/-- What a schema inside one at the top, or at the top of a collection's items, stands at. -/
def Where.kept : Where → Where
  | .top => .top
  | .items => .items
  | _ => .elsewhere

def Where.properties : Where → Where
  | .top | .items => .field
  | _ => .elsewhere

mutual
def walk (place : String) (where_ : Where) : Value → List Standing
  | .map es => walkEntries place where_ es
  | _ => []
def walkEntries (place : String) (where_ : Where) : List (Scalar × Value) → List Standing
  | [] => []
  | (.text key, value) :: es =>
      (if key ∈ OWN then
        let read := key ∈ where_.reads
        ⟨key, place ++ "/" ++ key, place, read, value⟩
          :: if key = "parts" ∧ read then collections (place ++ "/" ++ key) value else []
      else if key = "allOf" then members (place ++ "/" ++ key) where_.kept value
      else if key = "properties" then named (place ++ "/" ++ key) where_.properties value
      else if key ∈ ONE then walk (place ++ "/" ++ key) .elsewhere value
      else if key ∈ EACH then members (place ++ "/" ++ key) .elsewhere value
      else if key ∈ NAMED then named (place ++ "/" ++ key) .elsewhere value
      else []) ++ walkEntries place where_ es
  | _ :: es => walkEntries place where_ es
/-- The schemas of a list. -/
def members (place : String) (where_ : Where) : Value → List Standing
  | .list vs => membersFrom place where_ 0 vs
  | _ => []
def membersFrom (place : String) (where_ : Where) (index : Nat) : List Value → List Standing
  | [] => []
  | v :: vs =>
      walk (place ++ "/" ++ toString index) where_ v ++ membersFrom place where_ (index + 1) vs
/-- The schemas of a mapping. -/
def named (place : String) (where_ : Where) : Value → List Standing
  | .map es => namedEntries place where_ es
  | _ => []
def namedEntries (place : String) (where_ : Where) : List (Scalar × Value) → List Standing
  | [] => []
  | (name, v) :: es => walk (place ++ "/" ++ name.str) where_ v ++ namedEntries place where_ es
/-- The keywords at the top of each collection's items, and inside them. -/
def collections (place : String) : Value → List Standing
  | .map es => collectionEntries place es
  | _ => []
def collectionEntries (place : String) : List (Scalar × Value) → List Standing
  | [] => []
  | (name, v) :: es =>
      itemsOf (place ++ "/" ++ name.str ++ "/items") v ++ collectionEntries place es
def itemsOf (place : String) : Value → List Standing
  | .map es => itemsEntry place es
  | _ => []
def itemsEntry (place : String) : List (Scalar × Value) → List Standing
  | [] => []
  | (.text "items", v) :: _ => walk place .items v
  | _ :: es => itemsEntry place es
end

/-- Every one of kb's keywords in a type's schema, in the order it is written. -/
def standing (schema : Value) : List Standing := walk "schema" .top schema

end Keywords

/-! ## A type as a type -/

namespace Definitions

open Kb.Composition

def noSuchShape (type : ArtifactId) (place ref : String) : Fault :=
  { artifact := type.iri, place, rule := Rules.SHAPE,
    message := "a shape a type refers to must belong to a type version the store holds; " ++
      quoted ref ++ " does not" }

def builtOnItself (type : ArtifactId) (place ref : String) : Fault :=
  { artifact := type.iri, place, rule := Rules.BUILT_ON,
    message := "a type cannot be built on itself; " ++ quoted type.iri ++ " names " ++ quoted ref }

def noTargets (type : ArtifactId) (place field : String) : Fault :=
  { artifact := type.iri, place, rule := Rules.TARGETS,
    message := "a link field says which kinds it may point at; " ++ quoted field ++ " does not" }

def misplacedLink (type : ArtifactId) (place : String) : Fault :=
  { artifact := type.iri, place, rule := Rules.REF,
    message := "kb does not read a link field there; " ++ quoted place
      ++ " is not on a field of a type's schema, of a base it is built on or of a collection's items" }

def whereRead (keyword : String) : String :=
  if keyword = "sections" then "at the top of a type's schema"
  else "at the top of a type's schema or of a collection's items"

def misplaced (type : ArtifactId) (keyword place : String) : Fault :=
  { artifact := type.iri, place, rule := Rules.PLACEMENT,
    message := "kb does not read " ++ quoted keyword ++ " there; it reads " ++
      quoted keyword ++ " only "
      ++ whereRead keyword ++ ", and " ++ quoted place ++ " is not" }

def incompleteLink (type : ArtifactId) (place field : String) (leftOut : List String) : Fault :=
  { artifact := type.iri, place, rule := Rules.REF,
    message :=
      "a link field says which kinds it may point at, whether it points at one artifact or several, "
      ++ "whether it may point into a part and what a removal does; " ++ quoted field ++
        " does not say "
      ++ ", ".intercalate (leftOut.map quoted) }

def unknownRemoval (type : ArtifactId) (place field : String) (rule : Value) : Fault :=
  { artifact := type.iri, place, rule := Rules.REF,
    message := "refuse is the one removal rule kb knows; " ++ quoted field ++
      " says " ++ rule.repr }

def unknownReach (type : ArtifactId) (place field : String) (cardinality : Value) : Fault :=
  { artifact := type.iri, place, rule := Rules.REF,
    message := "a link field points at one artifact or several, `one` or `many`; " ++
      quoted field ++ " says "
      ++ cardinality.repr }

mutual
/-- Every `$ref` in a schema, with its place, at every depth. -/
def refs (place : String) : Value → List (String × String)
  | .map es => refEntries place es
  | .list vs => refList place 0 vs
  | .scalar _ => []
def refEntries (place : String) : List (Scalar × Value) → List (String × String)
  | [] => []
  | (k, v) :: es =>
      (match k, v with
        | .text "$ref", .scalar (.text ref) => [(place ++ "/$ref", ref)]
        | _, _ => refs (place ++ "/" ++ k.str) v) ++ refEntries place es
def refList (place : String) (index : Nat) : List Value → List (String × String)
  | [] => []
  | v :: vs => refs (place ++ "/" ++ toString index) v ++ refList place (index + 1) vs
end

/-- Every `kb:` reference that names no type version the corpus holds, or names the type itself as
its base. -/
def shapes (type : ArtifactId) (schema : Value) (corpus : Corpus) : List Fault :=
  (refs "schema" schema).filterMap fun (place, ref) =>
    match reference ref with
    | none => none
    | some named =>
        if (named.version.map Version.kind) = some type ∧ named.whole
          then some (builtOnItself type place ref)
        else if held corpus named then none
        else some (noSuchShape type place ref)

/-- The last step of a place. -/
def lastStep (place : String) : String :=
  String.ofList ((place.toList.splitOn '/').getLastD [])

/-- Which of what a link field must say, beside its kinds, it does not say. -/
def leftOut (ref : Dict) : List String :=
  ["cardinality", "parts", "on_delete"].filter fun key =>
    match Dict.get? ref key with
    | none => true
    | some (.scalar (.bool _)) => false
    | some _ => key = "parts"

/-- What a link field kb reads leaves out of its shape or says that kb does not know, at the field's
place. -/
def linkField (type : ArtifactId) (at_ : Keywords.Standing) : List Fault :=
  let field := lastStep at_.holder
  let ref := match at_.value with
    | .map es => es
    | _ => []
  let out := leftOut ref
  (if out.isEmpty then [] else [incompleteLink type at_.holder field out])
    ++ (match Dict.get? ref "cardinality" with
        | some v =>
            if v = .text "one" ∨ v = .text "many" then []
              else [unknownReach type at_.holder field v]
        | none => [])
    ++ (match Dict.get? ref "on_delete" with
        | some v => if v = .text "refuse" then [] else [unknownRemoval type at_.holder field v]
        | none => [])
    ++ (if Dict.has ref "targets" then [] else [noTargets type at_.holder field])

/-- A keyword of kb's where kb does not read it; a link field kb reads, checked. -/
def keyword (type : ArtifactId) (at_ : Keywords.Standing) : List Fault :=
  if !at_.read ∧ at_.keyword = "ref" then [misplacedLink type at_.place]
  else if !at_.read then [misplaced type at_.keyword at_.place]
  else if at_.keyword = "ref" then linkField type at_
  else []

/-- Every way the type's schema could never be checked against, each at its place in the type. -/
def faults (type : ArtifactId) (content : Dict) (corpus : Corpus) : List Fault :=
  let schema := (Dict.get? content "schema").getD .null
  shapes type schema corpus ++ (Keywords.standing schema).flatMap (keyword type)

end Definitions

end Kb
