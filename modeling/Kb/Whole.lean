/-
# `Kb.Whole` — an artifact read whole, its links followed

`read.py`'s whole read of an artifact: its content, each link in its own fields followed as far as
asked with the artifact it names, itself so resolved, in place of the name; and the placeholders,
each IRI a link shown lands on nothing at.  The content is given as the entries it is, before it is
written as text.

The set of names on the path and the artifacts shown are lists here, an artifact shown listed once
for each time it is filled in; the artifacts shown are told apart by name before their links are
read.
-/
import Kb.Search

namespace Kb.Read

open Kb.Composition

variable (O : Outside) (t : Tables)

/-- The links an artifact carries, read through the version of its type it conforms to. -/
def carried (a : Artifact) : Raises (List Links.Carried) := do
  Links.carried O t.corpus a.whole (← (← conformed t.corpus a).schema)

/-- The fields of an artifact's own that hold links. -/
def ownFields (a : Artifact) : Raises (List Scalar) := do
  let _ ← carried O t a
  let refs ← Links.refsOf (← shown O t a).properties
  .ok (Settled.once ((refs.filter fun ref => Links.fields a.whole [ref] "" "" ≠ []).map Prod.fst))

/-! ## Links filled in -/

/-- A link followed: with what `resolve` gives of the artifact it names in its place, or left as it
is written. -/
def fill (resolve : ArtifactId → List String → Raises (Value × List Artifact))
    (onPath : List String) (link : Value) :
    Raises (Value × List Artifact) :=
  match link with
  | .scalar (.text text) => match target text with
      | .error faults => .error (.refused faults)
      | .ok linked =>
          if linked.place ≠ [] ∨ text ∈ onPath ∨ t.holds linked.id = false then .ok (link, [])
          else resolve linked.id (text :: onPath)
  | _ => .error .misshapen

/-- A field's links followed, each of them when it holds a list. -/
def fillField (resolve : ArtifactId → List String → Raises (Value × List Artifact))
    (onPath : List String) (value : Value) :
    Raises (Value × List Artifact) :=
  match value with
  | .list links => do
      let each ← links.mapM (fill t resolve onPath)
      .ok (.list (each.map Prod.fst), each.flatMap Prod.snd)
  | link => fill t resolve onPath link

/-- A field of a node with its links followed. -/
def fillOne (resolve : ArtifactId → List String → Raises (Value × List Artifact))
    (onPath : List String) (node : Dict) (field : Scalar) : Raises (Value × List Artifact) :=
  match Assoc.get node field with
  | none => .error (.missing field.str)
  | some value => fillField t resolve onPath value

/-- The next field of a node put in place with its links followed. -/
def fillNext (resolve : ArtifactId → List String → Raises (Value × List Artifact))
    (onPath : List String) (node : Dict) (filled : Dict × List Artifact) (field : Scalar) :
    Raises (Dict × List Artifact) := do
  let found ← fillOne t resolve onPath node field
  .ok (Assoc.set filled.1 field found.1, filled.2 ++ found.2)

/-- A node with the links in those fields of it followed. -/
def fillAll (resolve : ArtifactId → List String → Raises (Value × List Artifact))
    (onPath : List String) (node : Dict) (fields : List Scalar) : Raises (Dict × List Artifact) :=
  fields.foldlM (fillNext t resolve onPath node) (node, [])

/-- An artifact as stored, each link in its own fields followed so many steps, and the artifacts
given. -/
def resolved : Nat → ArtifactId → List String → Raises (Value × List Artifact)
  | 0, id, _ => do
      let a ← Query.artifact t id
      .ok (.map a.whole, [a])
  | depth + 1, id, onPath => do
      let a ← Query.artifact t id
      let filled ← fillAll t (resolved depth) onPath a.whole (← ownFields O t a)
      .ok (.map filled.1, a :: filled.2)

/-- A node with each link in those fields of it followed so many steps. -/
def filled (node : Dict) (fields : List Scalar) (onPath : List String) :
    Nat → Raises (Dict × List Artifact)
  | 0 => .ok (node, [])
  | depth + 1 => fillAll t (resolved O t depth) onPath node fields

/-! ## Placeholders -/

/-- A link that lands on nothing held: what holds it, its field, its place there, the part it
names. -/
structure Waits where
  artifact : ArtifactId
  field : String
  place : String
  part : String
deriving DecidableEq

/-- An IRI that links land on nothing at, with those links. -/
structure Placeholder where
  id : ArtifactId
  links : List Waits
deriving DecidableEq

/-- `values.target` of what a link holds. -/
def linked (link : Links.Carried) : Raises Locator :=
  match link.target with
  | .scalar (.text text) => match target text with
      | .error faults => .error (.refused faults)
      | .ok found => .ok found
  | _ => .error .misshapen

/-- Whether a link lands on something held: the artifact it names, and the part of it when it names
one. -/
def lands (target : Locator) : Bool :=
  match t.artifact target.id with
  | none => false
  | some a => target.place = [] || Places.holdsPart a.whole target.place

/-- A link an artifact shows with the IRI it names, if it lands on nothing held. -/
def waitingOne (id : ArtifactId) (link : Links.Carried) : Raises (List (ArtifactId × Waits)) := do
  let target ← linked link
  if lands t target then .ok [] else
    do .ok [(target.id, ⟨id, ← link.field.asField, link.place, Names.placed target.place⟩)]

/-- The links among those an artifact shows that land on nothing held. -/
def waiting (id : ArtifactId) (links : List Links.Carried) :
    Raises (List (ArtifactId × Waits)) := do
  .ok (← links.mapM (waitingOne t id)).flatten

/-- Each IRI a link shown lands on nothing at, in the order of their names, the artifacts holding
the links in the order of theirs. -/
def placeholders (shown : List (ArtifactId × List Links.Carried)) : Raises (List Placeholder) := do
  let waited ← (shown.insertionSort fun a b => inOrder a.1 b.1).mapM fun (id, links) =>
    waiting t id links
  let waited := waited.flatten
  .ok (((Settled.once (waited.map Prod.fst)).insertionSort inOrder).map fun id =>
    ⟨id, (waited.filter fun each => each.1 = id).map Prod.snd⟩)

/-! ## A whole read -/

/-- What a whole read gives beside what the artifact's row says of it. -/
structure Whole where
  content : Dict
  placeholders : List Placeholder
deriving DecidableEq

/-- An artifact read whole, its links followed so many steps. -/
def whole (id : ArtifactId) (depth : Nat) : Raises Whole := do
  if !t.holds id then .error (.refused [Refusals.notFound id]) else
  let a ← Query.artifact t id
  let links ← carried O t a
  let given ← filled O t a.whole (← ownFields O t a) [a.id.iri] depth
  let others := (Settled.once given.2).filter fun each => each.id ≠ a.id
  let shown ← others.mapM fun each => do .ok (each.id, ← carried O t each)
  .ok ⟨Settled.unsettled given.1, ← placeholders t ((a.id, links) :: shown)⟩

end Kb.Read
