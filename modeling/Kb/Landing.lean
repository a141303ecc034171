/-
# `Kb.Landing` — a set landed, statement by statement

`SqliteStore.land` with the checks of `sqlite_checks.py`: inside its transaction a set is checked
against the store as it finds it, written change by change, and checked against the store as it
leaves it.  Each statement here is one the source makes, or one check over the rows it reads;
`script` is the order they are made in.

A number SQLite cannot hold in 64 bits is refused as it is handed to a statement.  The keys a
statement just before has freed (`DELETE` then `INSERT`) or has just been given (the set's own
number) are not checked again; those an earlier set may hold are.
-/
import Kb.Tables

namespace Kb.Landing

open Tables

/-- What a landing holds beside the tables: the set's number, what each artifact it changes was
before (its revision and the places of its parts), and the links each held waiting. -/
structure Held where
  landed : Nat := 0
  before : List (ArtifactId × Int × List String) := []
  waited : List (ArtifactId × List Told) := []

abbrev Step := Transaction.Statement Tables Held Error

/-- What a statement that only writes makes of the tables. -/
abbrev Write := Tables → Raises Tables

def write (f : Write) : Step := fun (t, h) => (f t).map fun t => (t, h)

/-- A check: what refuses, or nothing. -/
def check (f : Tables → Held → Option Error) : Step := fun (t, h) =>
  match f t h with
  | some e => .error e
  | none => .ok (t, h)

/-- A whole number SQLite holds. -/
def integer (n : Int) : Bool := -(2 ^ 63) ≤ n && n < 2 ^ 63

/-- A number handed to a statement. -/
def bound (n : Int) (t : Tables) : Raises Tables := if integer n then .ok t else .error .database

/-! ## The checks -/

/-- `_unheld`: an entry's id is held once. -/
def unheld (entries : List Entry) : Step := check fun t _ =>
  let ids := entries.map Entry.id
  if ids.any (fun id => (t.entries.map Entry.id).contains id) || !decide ids.Nodup
    then some .conflict else none

/-- `_compared`: a change's artifact stands at the revision it was read at. -/
def compared (t : Tables) (artifact : ArtifactId) (read : Int) : Bool :=
  t.revisionAt artifact = read

/-- `_unmoved`: every type a change was read through, and every IRI read as holding nothing. -/
def unmoved (changes : List Change) : Step := check fun t _ =>
  if (changes.flatMap Change.through).all fun each => compared t each.1 each.2 then none
    else some .conflict

/-- `_waited`: the links each artifact a set changes holds that land on nothing held. -/
def waitedNow (t : Tables) (changes : List Change) : List (ArtifactId × List Told) :=
  (changes.map Change.artifact).map fun id => (id, heldWaiting (t.waitingOf id))

def waited (changes : List Change) : Step := fun (t, h) =>
  .ok (t, { h with waited := waitedNow t changes })

/-- A change's revision compared, and what its artifact was noted the first time the set changes
it. -/
def comparing (change : Change) : Step := fun (t, h) =>
  if compared t change.artifact change.read then
    .ok (t, if (Assoc.get h.before change.artifact).isSome then h
      else { h with
        before :=
        h.before ++ [(change.artifact, t.revisionAt change.artifact, t.partsOf change.artifact)] })
  else .error .conflict

/-- `_vouched`: whether a link to an IRI not held carries a type that is held and is one it may land
on. -/
def vouched (t : Tables) (link : Link) : Bool :=
  match link.under with
  | none => false
  | some under => !link.implicit && link.kinds.contains (.text under.iri) && t.holds under

/-- `_lands`: whether a link handed lands. -/
def lands (t : Tables) (link : Link) (asTold : Option Told) (waited : List Told) : Bool :=
  match t.row? link.target with
  | none => vouched t link
  | some row =>
      link.kinds.contains (.text row.kind.iri) &&
        (link.part = "" || (t.partsOf link.target).contains link.part || link.imported
          || (link.waits && match asTold with
            | none => false
            | some told => waited.contains told))

/-- The last change a set makes to each artifact, in the order the set first changes them. -/
def last (changes : List Change) : List (ArtifactId × Change) :=
  changes.foldl (fun found change => Assoc.set found change.artifact change) []

/-- The links a set hands that do not land. -/
def unlanded (t : Tables) (changes : List Change) (waited : List (ArtifactId × List Told)) :
    List Linking :=
  (last changes).flatMap fun (artifact, change) =>
    if change.content.isNone then [] else
      ((change.links.zip (told change.links)).filter fun (link, asTold) =>
        !lands t link asTold ((Assoc.get waited artifact).getD [])).map fun (link, _) =>
          ⟨artifact, link.field, link.place, link.target, link.part, some ""⟩

/-- The links from outside a set into what it removes or a part it drops. -/
def left (t : Tables) (changes : List Change) (before : List (ArtifactId × Int × List String)) :
    List Linking :=
  before.flatMap fun (artifact, held, parts) =>
    if held = 0 then [] else
      (t.linksInto artifact).filter fun each =>
        !(last changes).any (fun change => change.1 = each.source)
          && (!t.holds artifact ||
            (parts.contains each.part && !(t.partsOf artifact).contains each.part))

/-- `_integral`. -/
def integral (changes : List Change) : Step := check fun t h =>
  match unlanded t changes h.waited with
  | [] => match left t changes h.before with
      | [] => none
      | links => some (.linked links)
  | links => some (.unlanded links)

/-! ## The writes -/

/-- The set's row, under a number no set was given before. -/
def numbered (entries : List Entry) : Step := fun (t, h) =>
  let batch := entries.head?.map Entry.batch
  if batch.isSome && (t.sets.map Prod.snd).contains batch then .error .database
  else
    let landed := t.lastSet + 1
    .ok ({ t with sets := t.sets ++ [(landed, batch)], lastSet := landed }, { h with landed })

/-- An artifact's search rows taken out. -/
def unsearched (name : ArtifactId) : List Write :=
  [ fun t =>
      let rows := (t.searched.filter fun r => r.2 = name).map Prod.fst
      .ok { t with search := t.search.filter fun r => r.row ∉ rows },
    fun t => .ok { t with searched := t.searched.filter fun r => r.2 ≠ name } ]

/-- The last row id given a search row. -/
def lastRow (t : Tables) : Nat := (t.searched.map Prod.fst).foldl max 0

/-- An artifact's search rows, each under a row id after every one held. -/
def searchable (name : ArtifactId) (kind : Kind) (found : List Found) : List Write :=
  [ fun t =>
      let rows := found.zipIdx.map fun (each, ordinal) =>
        ({ row := lastRow t + ordinal + 1, artifact := name, kind, found := each, ordinal } :
          SearchRow)
      .ok { t with
        searched := t.searched ++ rows.map (fun r => (r.row, name)), search := t.search ++ rows } ]

/-- Whether a text column keeps the name of each link's field. -/
def columns (links : List Link) : Bool := links.all fun l => l.field.column.isSome

/-- The links an artifact holds, in place of those it held. -/
def linked (artifact : ArtifactId) (links : List Link) : List Write :=
  [ fun t => .ok { t with links := t.links.filter fun r => r.source ≠ artifact },
    fun t =>
      if columns links then
        .ok { t with links := t.links ++ links.zipIdx.map fun (l, ordinal) =>
          ⟨artifact, ordinal, l.field.column.getD "", l.place, l.target, l.part,
            l.implicit, l.holder⟩ }
      else .error .database ]

/-- The version a change to a type makes, beside those kept of it, at an IRI no version is kept
at. -/
def made (type : ArtifactId) (version : Versioned) (revision : Int) (content : Artifact)
    (t : Tables) : Raises Tables :=
  if (t.typeVersionRow? version.label).isSome then .error .database
  else
    let row : TypeVersionRow :=
      ⟨version.label, type, version.number, revision, version.title, content⟩
    .ok { t with typeVersions := t.typeVersions ++ [row] }

/-- `_written`. -/
def written (change : Change) (step : Nat) : List Step :=
  let name := change.artifact
  let emptied : List Write :=
    [ fun t => .ok { t with parts := t.parts.filter fun p => p.1 ≠ name },
      fun t => .ok { t with artifacts := t.artifacts.filter fun r => r.id ≠ name } ]
  let before : List Write :=
    unsearched name ++ emptied ++ linked name (if change.content.isNone then [] else change.links)
  let version : Step := fun (t, h) => do
    let t ← bound change.revision t
    let row : VersionRow := ⟨name, h.landed, step, change.revision, change.content⟩
    .ok ({ t with versions := t.versions ++ [row] }, h)
  let after : List Write :=
    match change.content with
    | none =>
        [ fun t => .ok { t with typeVersions := t.typeVersions.filter fun r => r.type ≠ name } ]
    | some content =>
        match change.kind with
        | none => [ fun _ => .error .misshapen ]
        | some kind =>
            let kept : List Write :=
              [ fun t =>
                .ok { t with artifacts := t.artifacts ++ [⟨name, kind, change.revision, content⟩] },
                fun t => .ok { t with
                  parts := t.parts ++ (Settled.once change.parts).map fun place => (name, place) } ]
            let version : List Write := match change.version with
              | none => []
              | some version => [ made name version change.revision content ]
            kept ++ searchable name kind change.searched ++ version
  before.map write ++ [version] ++ after.map write

/-- `_recorded`. -/
def recorded (entries : List Entry) : Step :=
  write fun t => .ok { t with entries := t.entries ++ entries }

/-- The statements of a landing, in order. -/
def script (set : List Change × List Entry) : List Step :=
  [ unheld set.2, numbered set.2, unmoved set.1, waited set.1 ] ++
  (set.1.zipIdx.flatMap fun (change, step) => comparing change :: written change step) ++
  [ integral set.1, recorded set.2 ]

/-- The store a set lands on leads to, no statement failing but by its own check. -/
def landed (t : Tables) (changes : List Change) (entries : List Entry) : Raises Tables :=
  Transaction.given (script (changes, entries)) {} t

end Kb.Landing
