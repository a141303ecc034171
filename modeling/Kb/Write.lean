/-
# `Kb.Write` — the write path, the check of a whole store, and a store's start

`write.py`, `journal.py` and `check.py`: a set drafted and checked, stamped and handed to the port;
refused by the port as moved, drafted again and landed while the write lock is held; a set checked
only; and every artifact of a store checked against the version of its type it conforms to.
-/
import Kb.Drafting
import Kb.Landing

namespace Kb

/-- Who makes a set and why. -/
structure Signed where
  role : String
  execution : String
  message : String

namespace Journal

/-- The highest seq an entry the history holds at a moment takes, 0 when none does. -/
def lastSeq (t : Tables) (moment : Int) : Nat :=
  ((t.entryIds moment).map EntryId.seq).foldl max 0

/-- Each moment given the next id free at it, after every id the history holds there and every one
minted before it in the set. -/
def minted (t : Tables) : List Int → List (Int × Nat) → List EntryId
  | [], _ => []
  | moment :: rest, last =>
      let seq := ((Assoc.get last moment).getD (lastSeq t moment)) + 1
      ⟨moment, seq⟩ :: minted t rest (Assoc.set last moment seq)

/-- The entry of one change, under its settled stamp. -/
def change (O : Outside) (signed : Signed) (c : Done) (text : Option String)
    (stamp batch : EntryId) : Entry where
  id := stamp
  artifact := c.artifact.iri
  role := signed.role
  execution := signed.execution
  batch := batch
  op := c.op.str
  path := c.path
  revision := c.revision
  type := c.type.str
  digest := match text with
    | some text => O.digest text
    | none => ""
  message := signed.message

/-- The fingerprint of an artifact as the store holds it. -/
def digest (O : Outside) (a : Artifact) : Raises String :=
  match O.dump a.whole with
  | .ok text => .ok (O.digest text)
  | .error (problem, place) => .error (.notCanonical problem place)

/-- The entry recording what a piece of work read, under its settled stamp: it names no artifact of
its own and is a set of its own. -/
def snapshot (signed : Signed) (read : List Snapshotted) (stamp : EntryId) : Entry where
  id := stamp
  role := signed.role
  execution := signed.execution
  batch := stamp
  op := "snapshot"
  message := signed.message
  read := read

end Journal

namespace Query

/-- Each artifact named as it stands: refused, with a fault for each, for the names that did not
convert and those the store lacks. -/
def snapshotted (O : Outside) (t : Tables) (named : List (Except (List Fault) ArtifactId)) :
    Raises (List Snapshotted) := do
  let faults := named.flatMap fun
    | .error fs => fs
    | .ok id => if t.holds id then [] else [Refusals.notFound id]
  if !faults.isEmpty then Edits.refuse faults
  named.mapM fun
    | .error _ => .error .misshapen
    | .ok id => match t.artifact id with
        | none => .error (.missing id.iri)
        | some a => do .ok ⟨id, a.revision, ← Journal.digest O a⟩

end Query

namespace Write

variable (O : Outside)

/-- What a set did to one artifact: its revision now, and, for an item added, the item's name. -/
structure Result where
  artifact : ArtifactId
  revision : Int
  item : String
deriving DecidableEq

def results (drafted : Drafted) : List Result :=
  drafted.changes.map fun c => ⟨c.artifact, c.revision, c.item⟩

/-- The entries of a drafted set, one for each change, under ids minted at its moments now. -/
def entries (drafted : Drafted) (moments : List Int) (signed : Signed) (t : Tables) :
    Raises (List Entry) :=
  match Journal.minted t moments [] with
  | [] => .error .misshapen
  | batch :: rest =>
      if drafted.changes.length ≠ rest.length + 1 then .error .misshapen else
      .ok ((drafted.changes.zip (drafted.texts.zip (batch :: rest))).map fun (c, text, stamp) =>
        Journal.change O signed c text stamp batch)

/-- Where a link lands, as it is written. -/
def landingOn (link : Linking) : String := Names.pointing link.target.iri link.part

/-- What a link into what a set takes out lands on: the item, for a part of an artifact the set
keeps, or the artifact. -/
def named (d : Draft) (link : Linking) : String :=
  if d.holds link.target then landingOn link else link.target.iri

/-- A refusal of the port's as kb gives it: a conflict as it is, a link as a fault for each. -/
def translated (d : Draft) : Error → Error
  | .linked links =>
      .refused (links.map fun each => Refusals.stillLinked (named d each) each.source each.place)
  | .unlanded links => .refused (links.map fun each =>
      Validation.unlandedFault each.source.iri each.place (quoted (landingOn each)))
  | e => e

/-- `_snapshot`: what was read landed as a set of its own, under an id minted on the store given. -/
def snapshot (read : List Snapshotted) (signed : Signed) (moment : Int) (minted t : Tables) :
    Raises Tables :=
  Landing.landed t [] ((Journal.minted minted [moment] []).map (Journal.snapshot signed read))

/-- A drafted set landed, one entry per change: the store it leads to, and what it did to each
artifact. -/
def landing (drafted : Drafted) (moments : List Int) (signed : Signed) (t : Tables) :
    Raises (Tables × List Result) := do
  let entries ← entries O drafted moments signed t
  match Landing.landed t drafted.handed entries with
  | .ok t => .ok (t, results drafted)
  | .error e => .error (translated drafted.draft e)

/-- The moments of a set's entries, each read from the clock once. -/
def moments (drafted : Drafted) (clock : Nat → Int) : List Int :=
  (List.range drafted.changes.length).map clock

/-- The set landed on the store it is drafted against, nothing landing in between: first as drafted,
unless it lands only under the lock, then, when the port says something moved, drafted and landed
under it. -/
def land (t : Tables) (operations : List Operation) (signed : Signed) (clock again : Nat → Int) :
    Raises (Tables × List Result) := do
  let first ← Drafting.drafted O t operations
  let under : Unit → Raises (Tables × List Result) := fun _ => do
    let drafted ← Drafting.drafted O t operations
    landing O drafted (moments drafted again) signed t
  if first.locked then under () else
  match landing O first (moments first clock) signed t with
  | .error .conflict => under ()
  | out => out

/-- The set as landing it would answer, and nothing landed. -/
def checked (t : Tables) (operations : List Operation) : Raises (List Result) := do
  .ok (results (← Drafting.drafted O t operations))

end Write

/-! ## The check of a whole store -/

namespace Check

open Kb.Composition

variable (O : Outside) (t : Tables)

/-- `refusals.no_type`. -/
def noType (kind : String) : Fault :=
  { rule := Rules.KIND,
    message :=
      "a kind must name a type the store holds; the store holds no type called " ++ quoted kind }

/-- `kind_schema`: the type a kind names, at the version it stands at. -/
def kindSchema (kind : Kind) : Raises Artifact :=
  match t.artifact (typeOf kind) with
  | none => .error (.refused [noType kind.iri])
  | some type =>
      if !type.typed then .error (.refused [noType kind.iri]) else do
        let label := Names.labelled kind.iri (← type.at_ "version").str
        match t.typeVersionAt label with
        | none => .error (.missing label)
        | some version => .ok version.content

/-- A version's number as the contract carries it, in 32 bits. -/
def carried : Value → Raises Int
  | .scalar (.int n) => if -(2 ^ 31) ≤ n ∧ n < 2 ^ 31 then .ok n else .error .misshapen
  | _ => .error .misshapen

/-- A stale artifact: the version it conforms to, and the one its type stands at. -/
structure Stale where
  artifact : ArtifactId
  version : Int
  current : Int
deriving DecidableEq

/-- One artifact's violations, and whether it is stale. -/
def artifact (a : Artifact) (id : ArtifactId) : Raises (List Fault × List Stale) := do
  let type ← conformed t.corpus a
  let standing ← (← kindSchema t a.kind).at_ "version"
  let stale ← if ← Drafting.less O (.int a.type.number) standing then do
      .ok [⟨id, ← carried (.int a.type.number), ← carried standing⟩]
    else .ok []
  let schema ← type.schema
  let waited := heldWaiting (t.waiting.filter fun each => each.source = id)
  let found ← Validation.validate O t.corpus id.iri a.checked schema waited false
  .ok (← FaultOrder.ordered found a (← declared O t.corpus schema), stale)

/-- Every artifact checked against the version of its type it conforms to: the violations and the
stale. -/
def everything : Raises (List Fault × List Stale) := do
  let found ← t.allIds.mapM fun id => match t.artifact id with
    | none => .error (.missing id.iri)
    | some a => artifact O t a id
  .ok ((found.map Prod.fst).flatten, (found.map Prod.snd).flatten)

end Check

/-! ## A store's start -/

namespace Start

def METASCHEMA_ID : ArtifactId := typeOf TYPE_KIND

private def object' (es : List (String × Value)) : Value := .map (es.map fun (k, v) => (.text k, v))

/-- The schema of the type that describes what a type is. -/
def METASCHEMA_SCHEMA : Value :=
  object' [("type", .text "object"),
    ("properties", object' [("title", object' [("type", .text "string")]),
      ("version", object' [("type", .text "integer")]),
      ("schema", object' [("$ref", .text "https://json-schema.org/draft/2020-12/schema")])]),
    ("required", .list [.text "title", .text "version", .text "schema"])]

def METASCHEMA_VERSION : Version := ⟨TYPE_KIND, 1, Nat.one_pos, by decide⟩

/-- The type that describes what a type is, as a new store holds it. -/
def METASCHEMA : Artifact where
  id := METASCHEMA_ID
  type := METASCHEMA_VERSION
  revision := 1
  title := "Schema"
  content := [(.text "version", .int 1), (.text "schema", METASCHEMA_SCHEMA)]

def created (O : Outside) : Change where
  artifact := METASCHEMA_ID
  content := some METASCHEMA
  revision := 1
  searched := [⟨"field", "title", O.words "Schema"⟩]
  kind := some TYPE_KIND
  version := some ⟨METASCHEMA_VERSION.str, "1", "Schema"⟩

/-- The entry of a new store's start, the fingerprint of what was written given. -/
def entry (role execution digest : String) (moment : Int) : Entry where
  id := ⟨moment, 1⟩
  artifact := METASCHEMA_ID.iri
  role := role
  execution := execution
  batch := ⟨moment, 1⟩
  op := "create"
  revision := 1
  type := METASCHEMA_VERSION.str
  digest := digest
  message := "initialise store"

/-- `write.start`: a new store, holding the type of types and its start in the history. -/
def started (O : Outside) (role execution : String) (moment : Int) : Raises Tables := do
  let digest ← Journal.digest O METASCHEMA
  Landing.landed {} [created O] [entry role execution digest moment]

theorem started_ok {O : Outside} {role execution : String} {moment : Int} {t : Tables}
    (h : started O role execution moment = .ok t) :
    ∃ digest, Journal.digest O METASCHEMA = .ok digest ∧
      Landing.landed {} [created O] [entry role execution digest moment] = .ok t := by
  unfold started at h
  cases hdigest : Journal.digest O METASCHEMA with
  | error e =>
      rw [hdigest] at h
      nomatch h
  | ok digest =>
      rw [hdigest] at h
      exact ⟨digest, rfl, h⟩

end Start

end Kb
