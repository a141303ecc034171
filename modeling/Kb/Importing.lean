/-
# `Kb.Importing` — a directory examined and imported

`judging.py`, `examining.py` and `importing.py`: a directory read as a set for import, each file's
errors, the files that would be skipped, and the import itself, which lands what checks clean and
what the store does not already hold, as one set, under the store's write lock.

The source keeps each file's errors on the file and adds to them as it goes; here the files are a
list passed from one pass to the next, each pass adding the errors it finds.
-/
import Kb.Offers

namespace Kb.Importing

open Kb.Composition Skipping

variable (O : Outside) (t : Tables)

/-- Errors added to the file at a place. -/
def adding (offered : List Offered) (file : String) (errors : List Fault) : List Offered :=
  offered.map fun o => if o.file = file then { o with errors := o.errors ++ errors } else o

/-! ## The order files are read in -/

/-- What two names are ordered by: their IRIs, then their numbers. -/
def notAfter (a b : Name) : Prop :=
  Names.order a.id.iri < Names.order b.id.iri
    ∨ Names.order a.id.iri = Names.order b.id.iri ∧ a.number.getD 0 ≤ b.number.getD 0

instance : DecidableRel notAfter := fun a b => by unfold notAfter; infer_instance

/-- A name after the names of the files it is read through. -/
def visit (offered : List Offered) : Nat → List Name → List Name → Name → List Name
  | 0, ordered, _, _ => ordered
  | depth + 1, ordered, seen, name =>
      if name ∈ ordered ∨ name ∈ seen then ordered else
      match byName offered name with
      | none => ordered
      | some each =>
          ((beneath offered each).insertionSort notAfter).foldl
            (fun ordered under => visit offered depth ordered (name :: seen) under) ordered ++
              [name]

/-- The names of the files offered, the types first, each after the types it is read through. -/
def inOrder (offered : List Offered) : List Name :=
  let names := offered.filterMap Offered.name
  let types := (names.filter fun n => n.number.isSome).insertionSort notAfter
  let rest := (names.filter fun n => n.number.isNone).insertionSort notAfter
  types.foldl (fun ordered name => visit offered (offered.length + 1) ordered [] name) [] ++ rest

/-- The files with a name, in the order they are read in. -/
def filesInOrder (offered : List Offered) : List Offered :=
  (inOrder offered).filterMap (byName offered)

/-- Whether a file is checked against its type. -/
def isChecked (offered : List Offered) (each : Offered) : Bool :=
  each.artifact.isSome && each.id ≠ some METASCHEMA_ID && !heldBack offered each

/-! ## The passes -/

/-- The draft of every file that reads as an artifact, the versions of one type in the order of
their numbers. -/
def draftOf (offered : List Offered) : Draft :=
  (offered.insertionSort fun a b => a.number.getD 0 ≤ b.number.getD 0).foldl (fun d each =>
    match each.id, each.artifact with
    | some id, some a => if id = METASCHEMA_ID then d else d.put id a
    | _, _ => d) { store := t }

/-- Each file's artifact as it would land, put in the draft in its place, with the faults of the
names it gives. -/
def drafted (offered : List Offered) (d : Draft) :
    Raises (Draft × List (Name × Artifact × List Fault)) :=
  (filesInOrder offered).foldlM (fun (d, found) each =>
    match each.name, each.artifact with
    | some name, some a =>
        if !isChecked offered each then .ok (d, found) else
        match Naming.imported O d name.id a with
        | .error (.refused _) => .ok (d, found)
        | .error e => .error e
        | .ok (a, misnamed) => .ok (d.put name.id a, found ++ [(name, a, misnamed)])
    | _, _ => .ok (d, found)) (d, [])

/-- The faults of the place each type a file brings stands at, by the type's IRI. -/
def places (offered : List Offered) : Raises (List (ArtifactId × List Fault)) := do
  let (_, found) ← (filesInOrder offered).foldlM (fun (ahead, found) each =>
    match each.name, each.artifact with
    | some name, some a =>
        if !each.typed || name.id = METASCHEMA_ID || (Assoc.get found name.id).isSome
            then .ok (ahead, found) else do
          let faults ← if t.holds name.id then .ok []
            else Naming.placed O ahead name.id METASCHEMA_ID
          .ok (if faults.isEmpty then ahead.put name.id a else ahead, found ++ [(name.id, faults)])
    | _, _ => .ok (ahead, found)) (({ store := t } : Draft), ([] : List (ArtifactId × List Fault)))
  .ok found

/-- Whether the file's text is the text kb writes for its artifact. -/
def form (d : Draft) (each : Offered) (a : Artifact) (schema : Value) : Raises (List Fault) := do
  let ordered ← Settled.order a (← declared O d.corpus schema)
  .ok (match O.dump ordered.whole with
    | .error (problem, _) => [FileRefusals.notCanonical each.file problem]
    | .ok written =>
        if written = each.text then []
          else [FileRefusals.notCanonical each.file "its text is not the text kb writes"])

/-- Every fault of the content against its type but those of its links. -/
def fit (d : Draft) (each : Offered) (content : Dict) (schema : Value) : Raises (List Fault) :=
  match Validation.validate O d.corpus each.file content schema [] true with
  | .error (.refused fs) => .ok fs
  | .error e => .error e
  | .ok found => .ok (found.filter fun f => f.rule ≠ Rules.REF)

/-- What is wrong with a file that reads as an artifact. -/
def faults (d : Draft) (offered : List Offered) (found : List (Name × Artifact × List Fault))
    (placed : List (ArtifactId × List Fault)) (each : Offered) : Raises (List Fault) :=
  match each.name, each.artifact with
  | some name, some a =>
      if name.id = METASCHEMA_ID then
        match t.artifact METASCHEMA_ID with
        | none => .error (.missing METASCHEMA_ID.iri)
        | some held => match O.dump held.whole with
            | .error (problem, place) => .error (.notCanonical problem place)
            | .ok text =>
                .ok (if each.text = text then [] else [FileRefusals.notCanonical each.file
                  "the type that describes types is the store's own, and this copy differs from it"])
      else if heldBack offered each then .ok []
      else if !d.holds (typeOf a.kind) then .ok [FileRefusals.noTypeOffered each.file a.kind.iri]
      else match kept d.corpus (typeOf a.kind) a.type.number with
        | none => .ok [FileRefusals.noVersionOffered each.file a.type.str]
        | some version => do
            let (landing, misnamed) := (Assoc.get found name).getD (a, [])
            let schema ← version.content.schema
            let placed ← if each.typed then .ok ((Assoc.get placed name.id).getD [])
              else Naming.placed O d name.id (typeOf a.kind)
            let all := (← form O d each a schema) ++ misnamed ++ placed ++
              (← fit O d each landing.checked schema)
            .ok (if all.isEmpty ∧ each.typed
              then Definitions.faults name.id landing.checked d.corpus else all)
  | _, _ => .ok []

/-- Every file's faults added to it, in the order files are read in. -/
def judged (d : Draft) (found : List (Name × Artifact × List Fault))
    (placed : List (ArtifactId × List Fault)) :
    List Name → List Offered → Raises (List Offered)
  | [], offered => .ok offered
  | name :: rest, offered => match byName offered name with
      | none => judged d found placed rest offered
      | some each => do
          let found' ← faults O t d offered found placed each
          judged d found placed rest
            (adding offered each.file (found'.map fun f => { f with artifact := each.file }))

/-! ## The links, judged last -/

/-- The links of a checked file that neither land nor wait in what would land. -/
def links (landing : Draft) (each : Offered) (a : Artifact) : Raises (List Links.Carried) :=
  let read : Raises (Value × List SchemaError) := do
    let schema ← (← conformed landing.corpus a).schema
    let errors ← if each.errors.isEmpty then .ok []
      else Validation.misshapen O landing.corpus a.checked schema
    .ok (schema, errors)
  match read with
  | .error (.refused _) => .ok []
  | .error e => .error e
  | .ok (schema, errors) => Validation.unlanded O landing.corpus a.checked schema [] true errors

/-- The type a link leads its file to; nothing for a value that names nothing. -/
def leadsTo (value : Value) (lost : List (ArtifactId × List String)) (landing : Draft) :
    Raises (Option ArtifactId) :=
  match value with
  | .scalar (.text text) => match target text with
      | .error _ => .ok none
      | .ok locator => .ok (under locator.id lost landing)
  | _ => .error .misshapen

/-- Whether a link's value names an artifact that what would land holds. -/
def heldThere (value : Value) (landing : Draft) : Raises Bool :=
  match value with
  | .scalar (.text text) => match target text with
      | .error _ => .ok false
      | .ok locator => .ok (landing.holds locator.id)
  | _ => .error .misshapen

/-- The types no version of which lands that a file with no error links under, at an IRI what would
land does not hold. -/
def lostUnder (a : Artifact) (lost : List (ArtifactId × List String)) (landing : Draft) :
    Raises (List ArtifactId) := do
  let carried ← Links.carried O landing.corpus a.checked (← (← conformed landing.corpus a).schema)
  let found ← carried.mapM fun link => do
    if ← heldThere link.target landing then .ok none else leadsTo link.target lost landing
  .ok found.reduceOption

/-- The links of each file checked judged as the landing judges them; what they lead each file to,
and the errors they are. -/
def linksJudged (lost : List (ArtifactId × List String)) (landing : Draft) :
    List (Name × Artifact) → List Offered → List (String × List String) →
      Raises (List Offered × List (String × List String))
  | [], offered, waiting => .ok (offered, waiting)
  | (name, a) :: rest, offered, waiting => match byName offered name with
      | none => linksJudged lost landing rest offered waiting
      | some each => do
          let led ← (← links O landing each a).mapM fun link => do
            .ok (link, ← leadsTo link.target lost landing)
          let waiting ← if each.errors.isEmpty then do
              let under := (led.map Prod.snd).reduceOption ++ (← lostUnder O a lost landing)
              .ok (Assoc.set waiting each.file
                ((Settled.once under).flatMap fun type => (Assoc.get lost type).getD []))
            else .ok waiting
          let errors := (led.filter fun l => l.2.isNone).map fun l =>
            Validation.unlandedFault each.file l.1.place l.1.target.repr
          linksJudged lost landing rest (adding offered each.file errors) waiting

/-- The store with only the files that would land. -/
def landingOf (read : List (Name × Artifact)) (offered : List Offered) : Draft :=
  read.foldl (fun d (name, a) => match byName offered name with
    | some each => if each.errors.isEmpty then d.put name.id a else d
    | none => d) { store := t }

/-! ## The examination and the import -/

/-- What the check, or an import, answers. -/
structure Checked where
  faults : List Fault := []
  errors : List Fault := []
  skipped : List (String × List String) := []

/-- The files offered, the artifacts among them drafted as one set, then each checked: the files
with their errors, and the report. -/
def examined (offered : List Offered) : Raises (List Offered × Checked) := do
  let (d, found) ← drafted O offered (draftOf t offered)
  let placed ← places O t offered
  let judged ← judged O t d found placed (inOrder offered) offered
  let read := (filesInOrder judged).filterMap fun each => match each.name, each.artifact with
    | some name, some a =>
        if isChecked judged each then some (name, ((Assoc.get found name).map Prod.fst).getD a)
          else none
    | _, _ => none
  let (linked, waiting) ← linksJudged O (lost t judged) (landingOf t read judged) read judged []
  let (_, differing) ← Comparing.compared O t (linked.filter fun o => o.id ≠ some METASCHEMA_ID)
  let all := differing.foldl (fun offered each =>
    adding offered each.file
      [FileRefusals.differs each.file ((each.id.map ArtifactId.iri).getD "")]) linked
  .ok (all, { errors := all.flatMap Offered.errors, skipped := skipped all waiting })

/-- The IRIs at which the files examined differ from what the store holds. -/
def differing (offered : List Offered) : List ArtifactId :=
  (Settled.once ((offered.filter fun o => o.errors.any fun f => f.rule = Rules.DIFFERS).filterMap
    Offered.id)).insertionSort
    Kb.inOrder

/-- The files an import takes: every artifact but the type that describes types, a file with an
error and a file that would be skipped. -/
def taken (offered : List Offered) (report : Checked) : List Offered :=
  offered.filter fun o => o.name.isSome && o.id ≠ some METASCHEMA_ID && o.errors.isEmpty
    && !(report.skipped.map Prod.fst).contains o.file

/-- Whether any file is sound. -/
def sound (offered : List Offered) (report : Checked) : Bool :=
  offered.any fun o => o.name.isSome && o.errors.isEmpty &&
    !(report.skipped.map Prod.fst).contains o.file

/-- The imports a directory's files land as: those the store does not already hold. -/
def landing (taken : List Offered) (held : List Name) : List Operation :=
  let new := taken.filter fun o => !o.name.any held.contains
  (filesInOrder new).filterMap fun o => match o.name, o.artifact with
    | some name, some a => some (.import_ name.id a)
    | _, _ => none

/-- The import, made while the store's write lock is held: the report, and the store it leaves. -/
def imported (directory : List File) (signed : Signed) (skipErrors : Bool)
    (clock again : Nat → Int) :
    Raises (Checked × Tables) := do
  let (offered, report) ← examined O t (Offers.offered O directory)
  let differing := differing offered
  if !differing.isEmpty then
    return ({ report with faults := differing.map fun id => FileRefusals.differing id.iri }, t)
  if !report.errors.isEmpty && !skipErrors then
    return ({ report with faults := [FileRefusals.checkFailed report.errors.length] }, t)
  let taken := taken offered report
  if taken.isEmpty && !sound offered report then
    return ({ report with faults := [FileRefusals.nothingLands] }, t)
  let (held, _) ← Comparing.compared O t taken
  let operations := landing taken held
  if operations.isEmpty then return (report, t)
  let (t, _) ← Write.land O t operations signed clock again
  return (report, t)

end Kb.Importing
