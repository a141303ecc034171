/-
# `Kb.Composition` — a type read through what it is built on

`composition.py`: the schemas of a type's composition, base first, the version of a type a `kb:`
reference names, the type a kind names, the nearest held type an IRI sits under, and the
declarations read through all of it.  Everything is read from a corpus: the store, or a draft over
it.

Python bounds how deep a call recurses; here each reading that follows references or nesting carries
a bound of its own, and a reading past it raises as the source's does.
-/
import Kb.Tables

namespace Kb

/-- An error JSON Schema found: the steps of its place, the keyword that found it, its message. -/
structure SchemaError where
  path : List String
  validator : String
  message : String
deriving DecidableEq

/-- What the development takes from outside the repository's code: the JSON Schema validator, the
YAML emitter and reader with the checks of `canonical.py` around them, what Unicode says of words,
sha256, how deep Python recurses, the number SQLite keeps of what is handed to an INTEGER column as
text and the order it reads such numbers in, and the float after a float. -/
structure Outside where
  errors : Value → (String → Raises Value) → Dict → Raises (List SchemaError)
  dump : Dict → Except (String × String) String
  load : String → Except String Value
  words : String → String
  digest : String → String
  depth : Nat
  keptAs : String → Scalar
  ordered : List Scalar → List Scalar
  next : String → String

/-- What a reading is made from: the artifact at an IRI, and the version of a type at a number. -/
structure Corpus where
  artifact : ArtifactId → Option Artifact
  typeVersion : ArtifactId → Scalar → Option TypeVersion

namespace Corpus

def holds (c : Corpus) (id : ArtifactId) : Bool := (c.artifact id).isSome

/-- Whether the corpus holds a type at an IRI. -/
def typedAt (c : Corpus) (id : ArtifactId) : Bool :=
  match c.artifact id with
  | some a => a.typed
  | none => false

end Corpus

/-- A store's tables as a corpus. -/
def Tables.corpus (t : Tables) : Corpus where
  artifact := t.artifact
  typeVersion type number := t.typeVersionAt (Names.labelled type.iri number.str)

namespace Composition

/-! ## References -/

/-- What a `kb:` reference names: the type version, if it names one at all, and whether it is to the
whole type rather than to a shape inside it. -/
structure Reference where
  version : Option Version
  whole : Bool
deriving DecidableEq

/-- What a `kb:` reference names; nothing for a reference that is not kb's. -/
def reference (ref : String) : Option Reference :=
  (Names.referred ref).map fun (name, fragment) => ⟨Version.read? name, fragment = ""⟩

mutual
/-- Every type version a `kb:` reference anywhere in a schema names. -/
def references : Value → List Version
  | .map es => referencesIn es
  | .list vs => referencesOf vs
  | .scalar _ => []
def referencesIn : List (Scalar × Value) → List Version
  | [] => []
  | (k, v) :: es =>
      (match k, v with
        | .text "$ref", .scalar (.text ref) => ((reference ref).bind Reference.version).toList
        | _, _ => []) ++ references v ++ referencesIn es
def referencesOf : List Value → List Version
  | [] => []
  | v :: vs => references v ++ referencesOf vs
end

/-! ## The versions a corpus keeps -/

variable (O : Outside) (corpus : Corpus)

/-- The version of a type the corpus keeps; nothing when it keeps none, or when no type is held at
the IRI. -/
def kept (type : ArtifactId) (number : Nat) : Option TypeVersion :=
  if corpus.typedAt type then corpus.typeVersion type (.int number) else none

/-- Whether the corpus holds the type version a `kb:` reference names. -/
def held (referred : Reference) : Bool :=
  match referred.version with
  | none => false
  | some v => (kept corpus v.kind v.number).isSome

/-- The JSON Schema of the type version a `kb:` URI names, as that version was made. -/
def typeSchema (uri : String) : Raises Value :=
  match (reference uri).bind Reference.version with
  | none => .error (.noSuchResource uri)
  | some v => match kept corpus v.kind v.number with
      | none => .error (.noSuchResource uri)
      | some found => found.content.schema

/-- `refusals.no_version`. -/
def noVersion (version : String) : Fault :=
  { rule := Rules.VERSION,
    message := "a create names a version of a type the store holds; the store holds no version " ++
      quoted version }

/-- The version of a type a create or a replacement names, as the corpus keeps it. -/
def versionSchema (version : Version) : Raises Artifact :=
  match kept corpus (typeOf version.kind) version.number with
  | none => .error (.refused [noVersion version.str])
  | some found => .ok found.content

/-- The version of its type an artifact conforms to, as the corpus keeps it. -/
def conformed (a : Artifact) : Raises Artifact := versionSchema corpus a.type

/-- Whether an artifact may move to a version: one kept of its own type, not earlier than its
own. -/
def movesTo (a : Artifact) (version : Version) : Bool :=
  version.kind = a.type.kind && a.type.number ≤ version.number
    && (kept corpus (typeOf version.kind) version.number).isSome

/-! ## What a type is built on -/

/-- The schema and every schema it is built on, base first. -/
def composition : Nat → Value → Raises (List Value)
  | 0, _ => .error .tooDeep
  | depth + 1, schema => do
      let members ← (← schema.get "allOf" (.list [])).iter
      let builtOn ← members.mapM (composition depth)
      let ref ← schema.get "$ref" .null
      let base ← match ref with
        | .scalar (.text r) => match reference r with
            | some ⟨_, true⟩ => do composition depth (← typeSchema corpus r)
            | _ => .ok []
        | _ => .ok []
      .ok (builtOn.flatten ++ base ++ [schema])

/-- One schema's keywords over those of the schemas before it. -/
def declaredOver (whole : Declared) (part : Value) : Raises Declared := do
  let properties ← (← part.get "properties" (.map [])).pairs
  let parts ← (← part.get "parts" (.map [])).pairs
  let summary ← (← part.get "summary" (.list [])).iter
  .ok { properties := Dict.update whole.properties properties,
        parts := Dict.update whole.parts parts,
        summary := whole.summary ++ summary.filter (· ∉ whole.summary) }

/-- kb's own keywords as a type declares them together with everything it is built on, base
first. -/
def declared (schema : Value) : Raises Declared := do
  (← composition corpus O.depth schema).foldlM declaredOver {}

/-- The item schema of a collection's declaration. -/
def itemSchema (part : Value) : Raises Value := part.get "items" (.map [])

/-- The collections an item's type declares, from the declaration of the collection the item is
in. -/
def inner (part : Value) : Raises Dict := do
  .ok (← declared O corpus (← itemSchema part)).parts

/-- What the item type at the end of a place declares, walking from what a node declares. -/
def declaredAt (held : Declared) : List String → Raises Declared
  | [] => .ok held
  | collection :: rest => do
      let part := (Dict.get? held.parts collection).getD (.map [])
      declaredAt (← declared O corpus (← itemSchema part)) rest

/-! ## The type an IRI belongs to -/

/-- The nearest IRI an IRI sits under that the corpus holds a type at. -/
def nearestType (id : ArtifactId) : Option ArtifactId :=
  (aboveOf id).find? corpus.typedAt

/-- Whether an IRI belonged to a type the corpus no longer holds: it sits under that type's IRI, and
under no nearer IRI the corpus holds a type at. -/
def nearestWas (id type : ArtifactId) : Bool :=
  match (aboveOf id).find? fun each => each = type || corpus.typedAt each with
  | some each => each = type
  | none => false

/-! ## What a reading is made through -/

/-- What a reading has come through: the types found, in order, and the versions followed. -/
abbrev Visited := List ArtifactId × List (ArtifactId × Nat)

/-- One version named, followed once; `inside` follows what its own schema names. -/
def visitOne (inside : List Version → Visited → Raises Visited) (at_ : Visited) (named : Version) :
    Raises Visited :=
  let key := (named.kind, named.number)
  if key ∈ at_.2 then .ok at_ else
  match kept corpus named.kind named.number with
  | none => .ok (at_.1, key :: at_.2)
  | some version =>
      let found := if named.kind ∈ at_.1 then at_.1 else at_.1 ++ [named.kind]
      inside (references ((version.content.get? "schema").getD .null)) (found, key :: at_.2)

/-- The versions named followed, one inside another no deeper than `depth`. -/
def visit : Nat → List Version → Visited → Raises Visited
  | 0, [], at_ => .ok at_
  | 0, _ :: _, _ => .error .tooDeep
  | depth + 1, named, at_ => named.foldlM (visitOne corpus (visit depth)) at_

/-- The types an artifact of a kind is checked and its links read through, given the schema it is
read through: its kind's type, and every type a `kb:` reference names, in that schema or in the
version of a type one names. -/
def readThrough (kind : Kind) (schema : Value) : Raises (List ArtifactId) := do
  .ok (← visit corpus O.depth (references schema) ([typeOf kind], [])).1

end Composition

end Kb
