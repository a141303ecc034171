/-
# `Kb.Links` — every link an artifact carries

`links.py`: the one reading of links, through the composition of the type version an artifact
conforms to, in its own fields and in the fields of each item of each of its collections, at every
depth; and those links as the port takes them.

A field is named by its key as the type holds it, text or not; the port's rows keep the text of it.
-/
import Kb.Composition
import Kb.Places

namespace Kb.Links

open Kb.Composition

/-- One link an artifact carries: the field that holds it, its place in the artifact, the value the
field holds, the field's `ref`, and what holds the field, by name. -/
structure Carried where
  field : Scalar
  place : String
  target : Value
  ref : Value
  holder : String := ""
deriving DecidableEq

variable (O : Outside) (corpus : Corpus)

/-- `field["ref"]` for a field that has one. -/
def refOf : Value → Raises (Option Value)
  | .map es => .ok (Dict.get? es "ref")
  | v => do if ← v.holds "ref" then .error .misshapen else .ok none

/-- The fields among those declared that link to other artifacts, each with its `ref`. -/
def refsOf (properties : Dict) : Raises (List (Scalar × Value)) := do
  let refs ← properties.mapM fun (name, field) => do
    .ok ((← refOf field).map fun ref => (name, ref))
  .ok refs.reduceOption

/-- Every field that links to other artifacts, from every schema in the composition, base first. -/
def references (schema : Value) : Raises (List (Scalar × Value)) := do
  refsOf (← declared O corpus schema).properties

/-- The links in a node's own fields, each alone or in a list. -/
def fields (node : Dict) (refs : List (Scalar × Value)) (at_ holder : String) : List Carried :=
  refs.flatMap fun (name, ref) =>
    match Assoc.get node name with
    | none => []
    | some (.list targets) =>
        targets.zipIdx.map fun (target, index) =>
          ⟨name, at_ ++ name.str ++ "/" ++ toString index, target, ref, holder⟩
    | some (.scalar .null) => []
    | some value => [⟨name, at_ ++ name.str, value, ref, holder⟩]

/-- An item as a link it holds is told by: its collection and its name after what holds it, or, when
it has no name that is text, where it stands. -/
def heldBy (holder collection : String) (item : Dict) (index : Nat) : String :=
  let step := match Dict.get? item "id" with
    | some (.scalar (.text name)) => name
    | _ => toString index
  Names.placed (if holder = "" then [collection, step] else [holder, collection, step])

/-- The links in one node, an artifact or an item, and in the items inside it. -/
def linksIn : Nat → Dict → List (Scalar × Value) → Dict → String → String → Raises (List Carried)
  | 0, _, _, _, _, _ => .error .tooDeep
  | depth + 1, node, refs, parts, at_, holder => do
      let inside ← parts.mapM fun (collection, part) =>
        match Assoc.get node collection with
        | some (.list items) => do
            let schema ← itemSchema part
            let itemRefs ← references O corpus schema
            let found ← items.zipIdx.mapM fun (item, index) =>
              match item with
              | .map es => do
                  linksIn depth es itemRefs (← declared O corpus schema).parts
                    (at_ ++ collection.str ++ "/" ++ toString index ++ "/")
                      (heldBy holder collection.str es index)
              | _ => .ok []
            .ok found.flatten
        | _ => .ok []
      .ok (fields node refs at_ holder ++ inside.flatten)

/-- Every link an artifact carries, wherever it sits. -/
def carried (content : Dict) (schema : Value) : Raises (List Carried) := do
  let whole ← declared O corpus schema
  linksIn O corpus O.depth content (← refsOf whole.properties) whole.parts "" ""

/-- A link an artifact carries with the artifact and the part it names read apart; nothing for a
value that could name nothing. -/
def read (link : Carried) : Raises (Option Link) :=
  match link.target with
  | .scalar (.text text) => match target text with
      | .error _ => .ok none
      | .ok ⟨id, place⟩ => do
          let kinds ← (← link.ref.at_ "targets").iter
          .ok (some { field := link.field, place := link.place, target := id,
                      part := Names.placed place, kinds,
                      holder := some link.holder })
  | _ => .ok none

/-- What tells each link an artifact carries from every other it holds, as the link handed is told;
nothing for a value that could name nothing. -/
def toldOf (read : List (Option Link)) : List (Option Told) :=
  go read (Kb.told read.reduceOption)
where
  go : List (Option Link) → List (Option Told) → List (Option Told)
    | [], _ => []
    | none :: rest, found => none :: go rest found
    | some _ :: rest, told :: found => told :: go rest found
    | some _ :: rest, [] => none :: go rest []

/-- kb's own link, which every artifact carries to the artifact of its type. -/
def implicitTo (kind : Kind) : Link :=
  { field := .text "", place := "", target := typeOf kind, part := "",
    kinds := [.text TYPE_KIND.iri], implicit := true }

/-- Every link an artifact carries as the port takes it, read through the schema given; `waited` are
the links the store held for the artifact that landed on nothing held. -/
def handed (a : Artifact) (schema : Value) (waited : List Told) : Raises (List Link) := do
  let own := (← (← carried O corpus a.whole schema).mapM read).reduceOption
  .ok (implicitTo a.kind :: (own.zip (Kb.told own)).map fun (link, asTold) =>
    { link with under := nearestType corpus link.target
                waits := match asTold with
                  | none => false
                  | some told => waited.contains told })

end Kb.Links
