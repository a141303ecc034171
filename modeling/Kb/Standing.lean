/-
# `Kb.Standing` — what a type's place is settled by, and what a create is named

`standing.py` and `naming.py`: an IRI belongs to the nearest held type it sits under, and what is
held or waited on there fixes that.  The faults of the IRI a create gives, the items of a new or a
revised artifact named, and what stands in the way of a type's removal.
-/
import Kb.Draft

namespace Kb

/-! ## The refusals -/

namespace Refusals

def notFound (id : ArtifactId) : Fault :=
  { artifact := id.iri, rule := Rules.NOT_FOUND,
    message := "the store holds nothing by the name " ++ quoted id.iri }

def notLater (id : ArtifactId) (version conforms : String) : Fault :=
  { artifact := id.iri, rule := Rules.VERSION,
    message := "an artifact moves only to a later version of its own type that the store holds; " ++
      quoted version
      ++ " is not one for an artifact conforming to " ++ quoted conforms }

def notUnder (id type : ArtifactId) : Fault :=
  { artifact := id.iri, rule := Rules.IDENTITY,
    message := "an artifact's IRI sits under its type's IRI; " ++ quoted id.iri ++
      " is not an IRI of " ++ quoted type.iri }

def belongs (type sitting other : ArtifactId) : Fault :=
  { artifact := type.iri, rule := Rules.IDENTITY,
    message := "an IRI keeps the type it was written or linked under; " ++ quoted sitting.iri ++
      " belongs to "
      ++ quoted other.iri }

def alreadyHeld (id : ArtifactId) : Fault :=
  { artifact := id.iri, rule := Rules.IDENTITY,
    message := "an IRI names one artifact; the store already holds one at " ++ quoted id.iri }

def carriedTwice (id : ArtifactId) : Fault :=
  { artifact := id.iri, rule := Rules.IDENTITY,
    message := "an IRI names one artifact; the set carries " ++ quoted id.iri ++
      " on more than one create" }

def notACollection (l : Locator) : Fault :=
  let place := Names.placed l.place
  { artifact := l.id.iri, place, rule := Rules.COLLECTION,
    message := "an item is added to a collection, and " ++ quoted place ++ " in " ++
      quoted l.id.iri ++ " is not one" }

def nothingAt (l : Locator) : Fault :=
  let place := Names.placed l.place
  { artifact := l.id.iri, place, rule := Rules.NOT_FOUND,
    message := quoted l.id.iri ++ " holds nothing at " ++ quoted place }

def settledPlace (l : Locator) : Fault :=
  let place := Names.placed l.place
  { artifact := l.id.iri, place, rule := Rules.IDENTITY,
    message := "a place inside an artifact never names what only the store settles; " ++
      quoted place ++ " begins at "
      ++ quoted (l.place.headD "") }

def moved (id : ArtifactId) (revision : Int) : Fault :=
  { artifact := id.iri, rule := Rules.REVISION,
    message := "the artifact moved since it was read; " ++ quoted id.iri ++
      " stands at revision " ++ toString revision }

def wholeOnly (l : Locator) : Fault :=
  let place := Names.placed l.place
  { artifact := l.id.iri, place, rule := Rules.LOCATOR,
    message := "a removal takes out a whole artifact; " ++ quoted place ++ " is a place inside " ++
      quoted l.id.iri }

def stillLinked (removed : String) (other : ArtifactId) (place : String) : Fault :=
  { artifact := other.iri, place, rule := Rules.ON_DELETE,
    message := quoted removed ++ " cannot be removed while " ++ quoted other.iri ++ " points at it"
      ++ if place = "" then "" else " at " ++ quoted place }

def unwritable (id : ArtifactId) (problem place : String) : Fault :=
  { artifact := id.iri, place, rule := Rules.CONTENT, message := problem }

/-- What is said of a name given that is not a plain name. -/
def unfit : Value → String
  | .scalar (.text t) => quoted t ++ " is not"
  | _ => "a name is text, and what was given is not"

def misnamedMessage (m : ItemNames.Misnamed) : String :=
  match m.why with
  | .notPlain =>
      "a name is a plain name of lower-case letters, digits and single hyphens; " ++ unfit m.name
  | .repeated =>
      "the items of a collection each have a name of their own; " ++ m.name.repr ++
        " is on more than one"
  | .unknown =>
      "a name on an item names an item already in that collection; " ++ quoted m.collection
      ++ " held no item named " ++ m.name.repr

def partMisnamedMessage (m : ItemNames.Misnamed) : String :=
  match m.why with
  | .repeated =>
      "a part's name is unique in its collection; " ++ m.name.repr ++ " is on more than one"
  | _ => "a part's name is a plain name of lower-case letters, digits and single hyphens; " ++ unfit m.name

def itemFault (id : ArtifactId) (m : ItemNames.Misnamed) (message : String) : Fault :=
  { artifact := id.iri, place := m.collection ++ "/" ++ toString m.index ++ "/id",
    rule := Rules.ITEM_NAME, message }

def misnamed (id : ArtifactId) (m : ItemNames.Misnamed) : Fault :=
  itemFault id m (misnamedMessage m)

def misnamedPart (id : ArtifactId) (m : ItemNames.Misnamed) : Fault :=
  itemFault id m (partMisnamedMessage m)

end Refusals

/-! ## The type an IRI belongs to -/

namespace Standing

open Kb.Composition

variable (O : Outside) (d : Draft)

/-- The nearest held type an IRI a type would be defined at sits under, and every IRI under the new
type's that belongs to that other type: held, or not held and waited on; once each, in the order of
their names. -/
def under (type : ArtifactId) : Raises (Option ArtifactId × List ArtifactId) :=
  match nearestType d.corpus type with
  | none => .ok (none, [])
  | some other => do
      let kept := if other = typeOf TYPE_KIND then [] else d.ids other
      let held := kept.filter fun each => type ∈ aboveOf each
      let own := if other = typeOf TYPE_KIND then [] else [type]
      let waited := ((← d.waiting O).filter fun each =>
        each.target ∈ own || nearestWas d.corpus each.target type).map Linking.target
      .ok (some other, (Settled.once (held ++ waited)).insertionSort inOrder)

/-- Whether any of a type's versions, by their numbers, names a version of another in a `kb:`
reference. -/
def readsAt (reader type : ArtifactId) : List Scalar → Raises Bool
  | [] => .ok false
  | number :: rest =>
      match d.typeVersion reader number with
      | none => .error (.missing (Names.labelled reader.iri number.str))
      | some v =>
          if (references ((v.content.get? "schema").getD .null)).any fun named =>
            named.kind = type then .ok true
          else readsAt reader type rest

/-- The other types the draft holds any held version of which reads a version of a type. -/
def readers (type : ArtifactId) : Raises (List ArtifactId) := do
  let others := (d.ids TYPE_KIND).filter (· ≠ type)
  let found ← others.mapM fun each => do
    .ok (if ← readsAt d each type (d.versions O each) then some each else none)
  .ok found.reduceOption

end Standing

/-! ## Naming -/

namespace Naming

open Kb.Composition

variable (O : Outside) (d : Draft)

/-- The fault of an artifact's IRI that is not under the nearest held type it sits under, a type's
being free. -/
def under (name type : ArtifactId) : List Fault :=
  if type = typeOf TYPE_KIND ∨ nearestType d.corpus name = some type then []
    else [Refusals.notUnder name type]

/-- The faults of a type's IRI under which an artifact belongs to another type; none for an
artifact. -/
def standing (name type : ArtifactId) : Raises (List Fault) :=
  if type ≠ typeOf TYPE_KIND then .ok []
  else do
    match ← Standing.under O d name with
    | (some other, sitting) => .ok (sitting.map fun each => Refusals.belongs name each other)
    | (none, _) => .ok []

/-- The faults of the IRI a create gives; `carried` is the fault of one a create before it in its
set carries. -/
def identity (name : ArtifactId) (carried : List Fault) (type : ArtifactId) :
    Raises (List Fault) := do
  let faults := under d name type
  if !carried.isEmpty then .ok (faults ++ carried)
  else if d.holds name then .ok (faults ++ [Refusals.alreadyHeld name])
  else .ok (faults ++ (← standing O d name type))

/-- The faults of the place an artifact a file brings stands at. -/
def placed (name type : ArtifactId) : Raises (List Fault) := do
  .ok (under d name type ++ (← standing O d name type))

/-- The items of a new artifact's content named, with the faults of the names it gives them; with
any, no item is named. -/
def items (id : ArtifactId) (declared : Declared) (content : Dict) :
    Raises (List Fault × Dict) := do
  let misnamed ← ItemNames.given (inner O d.corpus) O.depth declared.parts content []
  if misnamed.isEmpty
    then .ok ([], ← ItemNames.items (inner O d.corpus) O.depth declared.parts content)
  else .ok (misnamed.map (Refusals.misnamedPart id), content)

/-- The items of a revised artifact's content named, with the faults of the names they hand back. -/
def revised (id : ArtifactId) (declared : Declared) (content current : Dict) :
    Raises (List Fault × Dict) := do
  let misnamed ← ItemNames.handedBack (inner O d.corpus) O.depth declared.parts content current []
  if misnamed.isEmpty
    then .ok ([], ← ItemNames.items (inner O d.corpus) O.depth declared.parts content)
  else .ok (misnamed.map (Refusals.misnamed id), content)

/-- An artifact an import brings, as it would land: its items named and its entries in the order its
type's version declares. -/
def imported (id : ArtifactId) (a : Artifact) : Raises (Artifact × List Fault) := do
  let declared ← declared O d.corpus (← (← conformed d.corpus a).schema)
  let (misnamed, content) ← items O d id declared a.content
  .ok (← Settled.order { a with content } declared, misnamed)

/-- A type's content given, as its `version`, the number kb makes this version of it at; what a
client sent there that is no number stays. -/
def numbered (type : ArtifactId) (content : Dict) : Raises (Dict × Draft) := do
  let (number, d) ← d.numbered O type
  let isNumber := match (Dict.get? content "version").getD (.int 0) with
    | .scalar (.int _) | .scalar (.float _) => true
    | _ => false
  .ok (if isNumber then Dict.set content "version" (.scalar number) else content, d)

end Naming

end Kb
