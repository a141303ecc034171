/-
# `Kb.Walk` — what an artifact's links reach

`query.walk`: out of an artifact, or out of a place inside it, or into it, a step at a time out to
the depth asked; with `links.inside`, the links in one node of an artifact and in the items inside
it, and `names.selects`, whether a path below a type selects an IRI.

A node is told by the items that lead to it, each by its collection and where it stands there, as
the source tells it by being the very mapping found at the place.  The loop is `Kb.Lib.Breadth`'s;
what it reaches is put in messages once it has ended, where the source makes each message as it
comes to it.
-/
import Kb.Search
import Kb.Lib.Breadth

namespace Kb

namespace Names

/-- An IRI's path below a type's IRI: the segments it holds after the type's. -/
def below (iriText typeIri : String) : Option (List String) :=
  let under := typeIri.toList ++ ['/']
  if under.isPrefixOf iriText.toList then
    some (((iriText.toList.drop under.length).splitOn '/').map String.ofList)
  else none

/-- Whether a path below the type selects an IRI of a type. -/
def selects (segments : List String) (iriText typeIri : String) : Bool :=
  (below iriText typeIri).any fun found => found.take segments.length = segments

end Names

/-! ## The links in one node -/

namespace Links

open Kb.Composition

/-- The items from a node's item to the node asked for, if it is inside that item. -/
def into (within : Option (List (String × Nat))) (collection : Scalar) (index : Nat) :
    Option (List (String × Nat)) :=
  match within with
  | some ((name, place) :: rest) =>
      if collection = .text name ∧ index = place then some rest else none
  | _ => none

variable (O : Outside) (corpus : Corpus)

/-- The links in one node, an artifact or an item, and in the items inside it; a node's own fields
are read only once the node asked for, or one it is inside, has been entered. -/
def linksWithin : Nat → Dict → List (Scalar × Value) → Dict → String → Option
    (List (String × Nat)) → Bool → String →
    Raises (List Carried)
  | 0, _, _, _, _, _, _, _ => .error .tooDeep
  | depth + 1, node, refs, parts, at_, within, entered, holder => do
      let entered := entered || within = some []
      let inside ← parts.mapM fun (collection, part) =>
        match Assoc.get node collection with
        | some (.list items) => do
            let schema ← itemSchema part
            let itemRefs ← references O corpus schema
            let found ← items.zipIdx.mapM fun (item, index) =>
              match item with
              | .map es => do
                  linksWithin depth es itemRefs (← declared O corpus schema).parts
                    (at_ ++ collection.str ++ "/" ++ toString index ++ "/")
                      (into within collection index) entered
                    (heldBy holder collection.str es index)
              | _ => .ok []
            .ok found.flatten
        | _ => .ok []
      .ok ((if entered then fields node refs at_ holder else []) ++ inside.flatten)

/-- The links an artifact carries in one node of it, and in the items inside that node. -/
def inside (content : Dict) (schema : Value) (within : Option (List (String × Nat))) :
    Raises (List Carried) := do
  let whole ← declared O corpus schema
  linksWithin O corpus O.depth content (← refsOf whole.properties) whole.parts "" within false ""

end Links

namespace Places

/-- The items that lead to what stands at the locator's place, when it is an item; the artifact
itself for no place. -/
def node (content : Dict) (locator : Locator) : Raises (Option (List (String × Nat))) :=
  if locator.place = [] then .ok (some []) else do
    match ← Edits.resolve content locator with
    | .item path collection index => .ok (some (path ++ [(collection, index)]))
    | .entry _ _ => .ok none

end Places

/-! ## The walk -/

namespace Query

open Kb.Composition

/-- A walk asked: from where, the kind and the path below its type it is narrowed to, how far, along
which field, and whether into the artifact rather than out of it. -/
structure Walk where
  locator : Locator
  kind : Option Kind := none
  depth : Nat
  via : String := ""
  inward : Bool := false
  path : Option (List String) := none

/-- What a walk reaches: a stub of it, and the links of the route there, each its field and the IRI
it leads to. -/
structure Reached where
  stub : Read.Stub
  route : List (String × ArtifactId)
deriving DecidableEq

variable (O : Outside) (t : Tables)

/-- A link as its field and the name it points at. -/
def pointed (link : Links.Carried) : Raises (Scalar × ArtifactId) :=
  match link.target with
  | .scalar (.text text) => match target text with
      | .error faults => .error (.refused faults)
      | .ok found => .ok (link.field, found.id)
  | _ => .error .misshapen

/-- Each link out of an artifact, or out of the place inside it the locator names. -/
def outward (locator : Locator) : Raises (List (Scalar × ArtifactId)) := do
  let a ← artifact t locator.id
  let schema ← (← conformed t.corpus a).schema
  let found ← Links.inside O t.corpus a.whole schema (← Places.node a.whole locator)
  found.mapM pointed

/-- Each link into an artifact or a part inside it, in the order of the names of what holds them. -/
def inward (locator : Locator) : Raises (List (Scalar × ArtifactId)) :=
  .ok ((t.linksIn locator.id).map fun each => (each.field, each.source))

/-- A step of a walk. -/
def step (asked : Walk) (locator : Locator) : Raises (List (Scalar × ArtifactId)) :=
  if asked.inward then inward t locator else outward O t locator

/-- Whether what a step reaches is what the walk is narrowed to. -/
def narrowedTo (asked : Walk) (other : ArtifactId) : Bool :=
  let held := t.artifact other
  let ofKind := match asked.kind with
    | none => true
    | some kind => held.any fun a => a.kind = kind
  let type := match held with
    | some a => some (typeOf a.kind)
    | none => nearestType t.corpus other
  ofKind && match asked.path with
    | none => true
    | some segments => type.any fun type => Names.selects segments other.iri type.iri

/-- What a walk goes through: the links of its direction, those of the field asked for to what it is
narrowed to, the artifacts held among what they lead to, and a stub of each. -/
def graph (asked : Walk) : Breadth.Graph Error Locator ArtifactId Scalar Read.Stub where
  out := step O t asked
  admits field other := (asked.via = "" || field = .text asked.via) && narrowedTo t asked other
  onward other := if t.holds other then some ⟨other, []⟩ else none
  give _ := Read.brief O t

/-- The field of a link of a route, as a message names it. -/
def hopOf (link : Scalar × ArtifactId) : Raises (String × ArtifactId) :=
  do .ok (← link.1.asField, link.2)

/-- What a walk reaches, under the field of its route's last link. -/
def handed (each : Breadth.Reached ArtifactId Scalar Read.Stub) : Raises Reached := do
  let route ← each.route.mapM hopOf
  .ok ⟨{ each.given with field := (route.getLast?.map Prod.fst).getD "" }, route⟩

/-- What an artifact's links reach, out of it, or out of the place inside it the locator names, or
into it, a step at a time out to the depth asked. -/
def walk (asked : Walk) : Raises (List Reached) := do
  let _ ← asked.kind.toList.mapM (kindType t)
  let start := asked.locator.id
  if !t.holds start then .error (.refused [Refusals.notFound start]) else
  let walked ← (graph O t asked).walk asked.depth
    { reached := [], seen := [start], following := [(asked.locator, [])] }
  walked.reached.mapM handed

end Query

end Kb
