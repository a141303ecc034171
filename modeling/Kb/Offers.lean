/-
# `Kb.Offers` — a directory's files as they are offered for import

`offers.py`, `skipping.py` and `comparing.py`: each file read as an artifact at its place in the
export layout; the files that would be skipped because they lead to a broken one, and the types no
version of which would land; and a file compared with what the store holds at its IRI.

A file's bytes are read outside the repository's code: what a directory gives is each file's place
and its text, or why it has none.
-/
import Kb.Write

namespace Kb

/-- A file of a directory: the steps of its place, and its text or why it cannot be read as text. -/
structure File where
  steps : List String
  text : Except String String

/-- The name the export layout gives a file: an artifact's IRI, or a type version's. -/
inductive Name where
  | whole (id : ArtifactId)
  | version (v : Version)
deriving DecidableEq

/-- The IRI of the artifact a name is for. -/
def Name.id : Name → ArtifactId
  | .whole id => id
  | .version v => v.kind

/-- The number of the version a type's place gives. -/
def Name.number : Name → Option Nat
  | .whole _ => none
  | .version v => some v.number

/-- One file as read: its place, its name, its text, the artifact it reads as at its place, its
errors. -/
structure Offered where
  file : String
  name : Option Name
  text : String := ""
  artifact : Option Artifact := none
  errors : List Fault := []

namespace Offered

def id (o : Offered) : Option ArtifactId := o.name.map Name.id
def number (o : Offered) : Option Nat := o.name.bind Name.number
/-- Whether the file's place is a type version's. -/
def typed (o : Offered) : Bool := o.number.isSome

end Offered

/-! ## The faults of files -/

namespace FileRefusals

def unreadableFile (file problem : String) : Fault :=
  { artifact := file, rule := Rules.UNREADABLE,
    message := "it cannot be read as YAML 1.2: " ++ problem }

def notCanonical (file problem : String) : Fault :=
  { artifact := file, rule := Rules.CONTENT, message := "it is not in canonical form: " ++ problem }

def noTypeOffered (file kind : String) : Fault :=
  { artifact := file, rule := Rules.KIND,
    message :=
      "a kind must name a type the directory or the store holds; neither holds a type called " ++
      quoted kind }

def noVersionOffered (file version : String) : Fault :=
  { artifact := file, rule := Rules.VERSION,
    message :=
      "an artifact conforms to a version of its type the directory or the store holds; neither holds "
      ++ quoted version }

def differs (file iri : String) : Fault :=
  { artifact := file, rule := Rules.DIFFERS,
    message := "it differs from what the store holds at " ++ quoted iri
      ++ ", or is a version the store does not keep there, and an import replaces nothing the store holds" }

def checkFailed (errors : Nat) : Fault :=
  { rule := Rules.CONTENT,
    message := "the check found " ++ toString errors ++
      " error(s) in the directory, and nothing was written" }

def differing (iri : String) : Fault :=
  { rule := Rules.DIFFERS,
    message := "the directory differs from what the store holds at " ++ quoted iri ++
      ", and nothing was written" }

def nothingLands : Fault :=
  { rule := Rules.OPERATIONS,
    message := "nothing in the directory would land, and nothing was written" }

end FileRefusals

/-! ## Files read -/

namespace Offers

variable (O : Outside)

def HISTORY : List String := [".git", "journal", ".kb-starting"]
def KEPT : List String :=
  ["store.yaml", "store.sqlite3", "store.sqlite3-wal", "store.sqlite3-shm", "served.yaml"]

/-- Whether a file is one that marks or keeps a store, at the directory's top, or is of a store's
history. -/
def passedOver (steps : List String) : Bool :=
  match steps with
  | [only] => KEPT.contains only
  | first :: _ :: _ => HISTORY.contains first
  | [] => false

/-- The name of the artifact the export layout puts at a file's place. -/
def filed (steps : List String) : Option Name :=
  match steps.getLast? with
  | none => none
  | some last =>
      if steps.length < 2 ∨ !last.endsWith (String.ofList Names.FILE) then none else
      let stem := String.ofList (last.toList.take (last.length - Names.FILE.length))
      let written := Names.address ((steps.dropLast ++ [stem]).map String.toList)
      match Version.read? written with
      | some v => some (.version v)
      | none => (ArtifactId.read? written).map .whole

/-- What a file holds read as an artifact: the keys naming it first, in their order, each what it
must be. -/
def identified (loaded : Value) : Option Artifact :=
  match loaded with
  | .map ((.text "id", .scalar (.text id)) :: (.text "type", .scalar (.text type))
      :: (.text "revision", .scalar (.int revision)) ::
          (.text "title", .scalar (.text title)) :: content) =>
      match ArtifactId.read? id, Version.read? type with
      | some id, some type => some { id, type, revision, title, content }
      | _, _ => none
  | _ => none

/-- What a file holds as the artifact at its place, or why it is none. -/
def placed (name : Option Name) (loaded : Value) : Except String Artifact :=
  match name with
  | none =>
      .error ("an artifact is filed as <host>/<segment>/.../<segment>.yaml, a type's version as "
      ++ "<host>/.../<segment>@<n>.yaml, and nothing else is offered for import")
  | some name => match identified loaded with
      | none =>
          .error "an artifact opens with id, type, revision, title, in that order, and this file does not"
      | some a =>
          if a.id ≠ name.id
            then .error ("its place names " ++ quoted name.id.iri ++ ", and it holds " ++
            quoted a.id.iri)
          else
            let filedRight : Bool := match name.number with
              | none => !a.typed
              | some n => a.typed && ((a.get? "version").map (·.equals (.int n))).getD false
            if filedRight then .ok a
            else .error
              "a type is filed at its version's place, <segment>@<n>.yaml, and nothing else is"

/-- A file read as YAML 1.2, and as an artifact at the place the layout gives its IRI. -/
def read (f : File) : Offered :=
  let file := Names.placed f.steps
  let name := filed f.steps
  match f.text with
  | .error problem => { file, name, errors := [FileRefusals.unreadableFile file problem] }
  | .ok text => match O.load text with
      | .error problem => { file, name, text, errors := [FileRefusals.unreadableFile file problem] }
      | .ok loaded => match placed name loaded with
          | .error problem =>
              { file, name, text, errors := [FileRefusals.notCanonical file problem] }
          | .ok a => { file, name, text, artifact := some a }

/-- Every file below the directory, read, in the order of the places the layout gives them. -/
def offered (directory : List File) : List Offered :=
  ((directory.filter fun f => !passedOver f.steps).insertionSort fun a b =>
    a.steps ≤ b.steps).map (read O)

end Offers

/-! ## What a file is read through, and the files that would be skipped -/

namespace Skipping

open Kb.Composition

def METASCHEMA_ID : ArtifactId := typeOf TYPE_KIND

/-- The file of a name. -/
def byName (offered : List Offered) (name : Name) : Option Offered :=
  offered.find? fun o => o.name = some name

/-- The names of the type version files offered that a file is read through. -/
def beneath (offered : List Offered) (each : Offered) : List Name :=
  match each.artifact with
  | none => []
  | some a =>
      let referred := if each.typed then references ((a.get? "schema").getD .null) else []
      (Settled.once ((a.type :: referred).map Name.version)).filter fun name =>
        (byName offered name).isSome && name.id ≠ METASCHEMA_ID

/-- Whether a type file a file is read through has an error, or is itself read through one that
leads to one. -/
def heldBackIn (offered : List Offered) : Nat → List Name → Offered → Bool
  | 0, _, _ => false
  | depth + 1, seen, each =>
      let seen := each.name.toList ++ seen
      (beneath offered each).any fun under => under ∉ seen && match byName offered under with
        | none => false
        | some o => !o.errors.isEmpty || heldBackIn offered depth seen o

def heldBack (offered : List Offered) (each : Offered) : Bool :=
  heldBackIn offered (offered.length + 1) [] each

/-- The files with an error. -/
def broken (offered : List Offered) : List String :=
  (offered.filter fun o => !o.errors.isEmpty).map Offered.file

/-- Each file without an error that has a name, with the type version files it is read through. -/
def through (offered : List Offered) : List (String × List String) :=
  (offered.filter fun o => o.errors.isEmpty && o.name.isSome &&
      o.id ≠ some METASCHEMA_ID).map fun o =>
    (o.file, (beneath offered o).filterMap fun name => (byName offered name).map Offered.file)

/-- The chains that grow by one file from those given, the first that ends at a broken file told. -/
def grow (leads : String → List String) (broken : List String) :
    Nat → List (List String) → List String → Option (List String)
  | 0, _, _ => none
  | _, [], _ => none
  | fuel + 1, chain :: waiting, reached =>
      let next :=
          (leads (chain.getLastD "")).foldl
          (fun (out : Option (List String) × List (List String) × List String) file =>
        match out with
        | (some found, _, _) => (some found, [], [])
        | (none, added, reached) =>
            if file ∈ reached then (none, added, reached)
            else if file ∈ broken then (some (chain ++ [file]), added, reached)
            else (none, added ++ [chain ++ [file]], reached ++ [file])) (none, [], reached)
      match next with
      | (some found, _, _) => some found
      | (none, added, reached) => grow leads broken fuel (waiting ++ added) reached

/-- The shortest chain of files from one to a broken file. -/
def chain (leads : List (String × List String)) (broken : List String) (start : String) :
    Option (List String) :=
  grow (fun file => (Assoc.get leads file).getD []) broken (leads.length + broken.length + 1)
    [[start]] [start]

/-- The types no version of which would land, each with its versions' files in the order of their
numbers. -/
def lost (t : Tables) (offered : List Offered) : List (ArtifactId × List String) :=
  let broken := broken offered
  let through := through offered
  let leftOut := broken ++ (through.map Prod.fst).filter fun file =>
    (chain through broken file).isSome
  let typed :=
      (offered.filter fun o => o.typed && o.id ≠ some METASCHEMA_ID).insertionSort fun a b =>
    a.number.getD 0 ≤ b.number.getD 0
  let versions := typed.foldl (fun (found : List (ArtifactId × List String)) o => match o.id with
    | none => found
    | some id => Assoc.set found id ((Assoc.get found id).getD [] ++ [o.file])) []
  versions.filter fun (type, files) => !t.holds type && files.all leftOut.contains

/-- The type no version of which would land that a link's target sits under, where no placeholder
can wait. -/
def under (target : ArtifactId) (lost : List (ArtifactId × List String)) (landing : Draft) :
    Option ArtifactId :=
  let nearest := nearestType landing.corpus target
  ((aboveOf target).takeWhile fun above => some above ≠ nearest).find? fun above =>
    (Assoc.get lost above).isSome

/-- Each file without an error that leads to a broken one, with the shortest chain that leads
there. -/
def skipped (offered : List Offered) (waiting : List (String × List String)) :
    List (String × List String) :=
  let leads := (through offered).map fun (file, under) =>
    (file, under ++ (Assoc.get waiting file).getD [])
  leads.filterMap fun (file, _) =>
    (chain leads (broken offered) file).map fun found => (file, found)

end Skipping

/-! ## A file compared with what the store holds -/

namespace Comparing

open Kb.Composition

variable (O : Outside) (t : Tables)

/-- The canonical text of an artifact without its revision. -/
def written (a : Artifact) : Raises String :=
  match O.dump (a.whole.filter fun e => e.1 ≠ .text "revision") with
  | .ok text => .ok text
  | .error (problem, place) => .error (.notCanonical problem place)

/-- An artifact the store holds, its entries in the order the version of its type it conforms to
declares. -/
def ordered (a : Artifact) : Raises Artifact := do
  Settled.order a (← declared O t.corpus (← (← conformed t.corpus a).schema))

/-- What the store holds where a file's artifact would land, as an export writes it. -/
def held (name : Name) : Raises (Option Artifact) :=
  match name with
  | .whole id => match t.artifact id with
      | none => .error (.missing id.iri)
      | some a => do .ok (some (← ordered O t a))
  | .version v => match kept t.corpus v.kind v.number with
      | none => .ok none
      | some version =>
          do .ok (some (← ordered O t { version.content with title := version.title }))

/-- The text of a file's artifact as it would land in the store as it stands. -/
def asLanding (id : ArtifactId) (a : Artifact) : Raises (Option String) :=
  match (do written O (← Naming.imported O { store := t } id a).1 : Raises String) with
  | .ok text => .ok (some text)
  | .error (.refused _) | .error (.notCanonical _ _) => .ok none
  | .error e => .error e

/-- Whether a type's version the store does not keep is one the store could not gain. -/
def outOfStep (name : Name) (a : Artifact) : Raises Bool :=
  match t.artifact name.id with
  | none => .error (.missing name.id.iri)
  | some standing =>
      if !standing.typed then .ok true else do
        if ← Drafting.less O (.int (name.number.getD 0)) (← standing.at_ "version") then return true
        return a.revision ≤ standing.revision

/-- Whether a file whose IRI the store holds something at differs from it. -/
def differs (name : Name) (a : Artifact) : Raises Bool := do
  match ← held O t name with
  | none => outOfStep O t name a
  | some held => do return (← asLanding O t name.id a) ≠ some (← written O held)

/-- The names of the files the store holds identically, and the files that differ from what it
holds. -/
def compared (offered : List Offered) : Raises (List Name × List Offered) :=
  offered.foldlM (fun (identical, differing) each =>
    match each.name, each.artifact with
    | some name, some a =>
        if !t.holds name.id then .ok (identical, differing) else do
          if ← differs O t name a then return (identical, differing ++ [each])
          return if (← held O t name).isSome then (identical ++ [name], differing)
            else (identical, differing)
    | _, _ => .ok (identical, differing)) ([], [])

end Comparing

end Kb
