/-
# `Kb.Settled` — an artifact, and the order its entries are written in

`settled.py`: the keys that say which artifact one is, its content without them, what of it its type
checks, and the order a type declares its entries in.

The source keeps an artifact as one mapping that opens with `id`, `type`, `revision` and `title`.
Here the four are fields of their types, so an artifact whose `type` is no version's IRI cannot be
built; `whole` gives the mapping back.
-/
import Kb.Ids

namespace Kb

/-- An artifact: what names it, and its other entries. -/
structure Artifact where
  id : ArtifactId
  type : Version
  revision : Int
  title : String
  content : Dict
deriving DecidableEq

namespace Settled

def IDENTITY : List Scalar := [.text "id", .text "type", .text "revision", .text "title"]
def SECTIONS : Scalar := .text "sections"

/-- A mapping without the keys the store settles. -/
def unsettled (d : Dict) : Dict :=
  d.filter fun e => e.1 ∉ IDENTITY

/-- The content as an artifact: with its IRI, the version of its type, its revision and its title
over whatever it held there. -/
def given (content : Dict) (id : ArtifactId) (type : Version) (revision : Int) (title : String) :
    Artifact :=
  { id, type, revision, title, content := unsettled content }

end Settled

namespace Artifact

/-- The artifact as the one mapping the source keeps it as. -/
def whole (a : Artifact) : Dict :=
  (.text "id", .text a.id.iri) :: (.text "type", .text a.type.str) ::
    (.text "revision", .int a.revision)
    :: (.text "title", .text a.title) :: a.content

/-- What of an artifact its type checks: its content and its title. -/
def checked (a : Artifact) : Dict :=
  (.text "title", .text a.title) :: a.content

/-- The IRI of the type an artifact is of. -/
def kind (a : Artifact) : Kind := a.type.kind

/-- Whether an artifact is a type. -/
def typed (a : Artifact) : Bool := a.kind = TYPE_KIND

/-- `artifact.get(name)` for a name that is none of the settled ones. -/
def get? (a : Artifact) (name : String) : Option Value :=
  Dict.get? a.content name

/-- `artifact[name]` for such a name. -/
def at_ (a : Artifact) (name : String) : Raises Value :=
  match a.get? name with
  | some v => .ok v
  | none => .error (.missing name)

/-- `artifact["schema"]`. -/
def schema (a : Artifact) : Raises Value := a.at_ "schema"

end Artifact

/-- kb's keywords as a type and everything it is built on declare them: its fields, its collections
and the fields shown at a glance. -/
structure Declared where
  properties : Dict := []
  parts : Dict := []
  summary : List Value := []
deriving DecidableEq

namespace Settled

/-- Each entry once, where it first stands (`dict.fromkeys`). -/
def once {α : Type} [DecidableEq α] : List α → List α
  | [] => []
  | x :: xs => x :: (once xs).filter (· ≠ x)

/-- The entries of a mapping in the order of the names given. -/
def arranged (names : List Scalar) (d : Dict) : Dict :=
  names.filterMap fun name => (Assoc.get d name).map fun value => (name, value)

/-- The names at an artifact's top beside the settled ones: the fields in the order declared, what
else it holds, the sections, the collections in the order declared. -/
def topSequence (held : List Scalar) (declared : Declared) : List Scalar :=
  let fields := (Assoc.keys declared.properties).filter (· ∉ IDENTITY)
  let parts := Assoc.keys declared.parts
  let others := held.filter fun name => name ∉ IDENTITY ∧ name ∉ fields ∧
    name ≠ SECTIONS ∧ name ∉ parts
  once ((fields ++ others ++ [SECTIONS] ++ parts).filter (· ∉ IDENTITY))

def sectionLeading : List Scalar := [.text "title", .text "body", SECTIONS]

mutual
/-- A section in order, and each of its sections; anything else as it was. -/
def section_ : Value → Value
  | .map es => .map (arranged (once (sectionLeading ++ Assoc.keys es)) (sectionEntries es))
  | v => v
def sectionEntries : List (Scalar × Value) → List (Scalar × Value)
  | [] => []
  | (k, .list vs) :: es =>
      (k, if k = SECTIONS then .list (sections vs) else .list vs) :: sectionEntries es
  | (k, v) :: es => (k, v) :: sectionEntries es
def sections : List Value → List Value
  | [] => []
  | v :: vs => section_ v :: sections vs
end

/-- Each entry of a list put in order, a value that is not a list as it was. -/
def listed (each : Value → Raises Value) : Value → Raises Value
  | .list vs => (vs.mapM each).map .list
  | v => .ok v

/-- The text or other scalars a value iterates over, as a mapping's keys are. -/
def scalars (vs : List Value) : Raises (List Scalar) :=
  vs.mapM fun
    | .scalar s => .ok s
    | _ => .error .misshapen

/-- A mapping in order as an item: its id, its fields as declared, then what else it holds. -/
def itemEntries (schema : Value) (es : Dict) : Raises Value := do
  let fields ← scalars (← (← schema.get "properties" (.map [])).iter)
  .ok (.map (arranged (once (.text "id" :: fields ++ Assoc.keys es)) es))

/-- An item in order; one that is no mapping as it was written, its schema looked up all the
same. -/
def item (itemSchema : Raises Value) (each : Value) : Raises Value := do
  let schema ← itemSchema
  match each with
  | .map es => itemEntries schema es
  | v => .ok v

/-- An artifact's entries in the order its type declares. -/
def order (a : Artifact) (declared : Declared) : Raises Artifact := do
  let ordered := arranged (topSequence (Assoc.keys a.content) declared) a.content
  let withSections ← match Assoc.get a.content SECTIONS with
    | none => .ok ordered
    | some v => (listed (fun s => .ok (section_ s)) v).map (Assoc.set ordered SECTIONS)
  let content ← declared.parts.foldlM (fun ordered part =>
    match Assoc.get a.content part.1 with
    | none => .ok ordered
    | some v => (listed (item (part.2.at_ "items")) v).map (Assoc.set ordered part.1)) withSections
  .ok { a with content }

end Settled

end Kb
