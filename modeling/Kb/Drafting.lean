/-
# `Kb.Drafting` — a set drafted against the store

`handing.py`, `drafting.py` and the rest of `standing.py`: a set's operations applied in order to a
draft, then every change checked against the store as the whole set leaves it; each change then as
the port takes it, with the revisions of the types it was read through and the IRIs where a type
could be defined nearer; and whether the set lands only as drafted while the write lock is held.
-/
import Kb.Definitions
import Kb.Edits

namespace Kb

/-- `search.searchable`: the rows an artifact is found by. -/
def searchable (O : Outside) (a : Artifact) : Raises (List Found) := do
  let sections ← go O.depth (← ((a.get? "sections").getD (.list [])).iter)
  let fields := (.text "title", .text a.title) :: a.content.filter (fun e => e.1 ≠ Settled.SECTIONS)
  .ok (sections ++ fields.filterMap fun (name, value) => match value with
    | .scalar (.text t) => some ⟨"field", name.str, O.words t⟩
    | _ => none)
where
  go : Nat → List Value → Raises (List Found)
    | 0, _ => .error .tooDeep
    | depth + 1, sections => do
        let rows ← sections.mapM fun s => do
          let title ← s.at_ "title"
          match ← s.at_ "body" with
          | .scalar (.text body) => do
              let inside ← go depth (← (← s.get "sections" (.list [])).iter)
              .ok (⟨"section", title.str, O.words body⟩ :: inside)
          | _ => .error .misshapen
        .ok rows.flatten

namespace Standing

open Kb.Composition

/-- The IRIs an IRI sits under that sit under a type's; none for an IRI that does not sit under the
type's. -/
def between (id type : ArtifactId) : List ArtifactId :=
  if type ∈ aboveOf id then (aboveOf id).takeWhile (· ≠ type) else []

/-- Each IRI, once, at which a type defined before a change lands would take what the change makes
or links to from the type it was drafted under. -/
def openOf (change : Change) : List ArtifactId :=
  if change.content.isNone then [] else
  let own := match change.kind with
    | some kind =>
        if change.read = 0 ∧ kind ≠ TYPE_KIND then between change.artifact (typeOf kind) else []
    | none => []
  let linked := change.links.flatMap fun link => match link.under with
    | some under => if link.implicit then [] else between link.target under
    | none => []
  Settled.once (own ++ linked)

/-- A set's changes, each saying that nothing is held at each IRI where a type could be defined
nearer, but for what the set changes and what the draft holds; and whether the draft holds something
at one of them. -/
def guarded (handed : List Change) (d : Draft) : List Change × Bool :=
  let gap (change : Change) := (openOf change).filter fun each => !d.changed each
  (handed.map fun change =>
    { change with through := change.through ++
      ((gap change).filter fun each => !d.holds each).map fun each => (each, 0) },
    handed.any fun change => (gap change).any d.holds)

/-- Whether a change removes a type. -/
def removesAType (c : Done) : Bool := c.left.isNone && c.type.kind = TYPE_KIND

/-- Whether a change is the create of a type. -/
def definesAType (c : Done) : Bool := c.op = .create && c.type.kind = TYPE_KIND

/-- What still stands in the way of a type's removal as the set leaves the store. -/
def inTheWay (O : Outside) (d : Draft) (removal : Done) : Raises (List Fault) := do
  if !removesAType removal then return []
  let removed := removal.artifact
  let waiting :=
    ((← d.waiting O).filter fun each => nearestWas d.corpus each.target removed).map Linking.source
  let blocking := (← readers O d removed) ++ waiting
  if blocking.isEmpty then return []
  let all := (Settled.once (blocking ++ d.ids removed)).insertionSort inOrder
  return all.map fun each => Refusals.stillLinked removed.iri each ""

end Standing

namespace Handing

open Kb.Composition

variable (O : Outside) (d : Draft)

/-- The type a change is checked against: the version of its type its artifact conforms to; or, for
an artifact the set later removes when it leaves no such type, as the change acted on it. -/
def typed (c : Done) (left : Artifact) : Raises Artifact :=
  if !d.holds c.artifact && !d.holds (typeOf left.kind) then
    match c.acted with
    | some acted => .ok acted
    | none => .error .misshapen
  else conformed d.corpus left

/-- A change recording the version of the type it was checked against, its entries in the order that
type declares; the last the set makes to an artifact put in the draft so. -/
def versioned (c : Done) (last : Bool) : Raises (Draft × Done) :=
  match c.left, c.op with
  | none, _ | some _, .import_ => .ok (d, c)
  | some left, _ => do
      let schema ← typed d c left
      match Version.read? (Names.labelled left.kind.iri (← schema.at_ "version").str) with
      | none => .error .misshapen
      | some version =>
          let left ← Settled.order { left with type := version }
            (← declared O d.corpus (← schema.schema))
          .ok (if last then d.put c.artifact left
            else d, { c with type := version, left := some left })

/-- Each change's canonical text, nothing for a removal; refused if any cannot be written. -/
def serialised (changes : List Done) : Raises (List (Option String)) :=
  let found := changes.filterMap fun c => match c.left with
    | none => none
    | some left => match O.dump left.whole with
        | .ok _ => none
        | .error (problem, place) => some (Refusals.unwritable c.artifact problem place)
  if !found.isEmpty then .error (.refused found) else
  .ok (changes.map fun c => c.left.bind fun left => (O.dump left.whole).toOption)

/-- The version a type's change makes as the port takes it. -/
def standsAt (a : Artifact) : Raises Versioned := do
  let number := (← a.at_ "version").str
  .ok ⟨Names.labelled a.id.iri number, number, a.title⟩

/-- The other types the version of a type a change makes refers to a shape of or is built on. -/
def readByTheVersionMade (a : Artifact) : Raises (List ArtifactId) :=
  if a.kind ≠ TYPE_KIND then .ok [] else do
    .ok (← readThrough O d.corpus TYPE_KIND ((a.get? "schema").getD .null)).tail

/-- The links an import brings, each but kb's own carrying the import's mark. -/
def marked (links : List Link) : List Link :=
  links.map fun l => if l.implicit then l else { l with imported := true }

/-- A change as the port takes it, read at the revision given. -/
def handed (c : Done) (read : Int) (last : Bool) : Raises Change :=
  match c.left with
  | none => .ok { artifact := c.artifact, content := none, read, revision := c.revision }
  | some left => do
      let searched ← searchable O left
      let version ← if left.kind = TYPE_KIND then do .ok (some (← standsAt left)) else .ok none
      let made ← readByTheVersionMade O d left
      let change : Change :=
        { artifact := c.artifact, content := some left, read, revision := c.revision, searched,
          kind := some left.kind,
          version }
      if !last then .ok { change with through := d.asRead made } else
      let schema ← (← typed d c left).schema
      let carried ← Links.handed O d.corpus left schema (d.waited c.artifact)
      .ok { change with
        links := if c.op = .import_ then marked carried else carried
        parts := Places.parts left.whole
        through := d.asRead ((← readThrough O d.corpus left.kind schema) ++ made) }

end Handing

/-- A set drafted: the draft, its changes, their texts, the changes as the port takes them, and
whether it lands only as drafted while the write lock is held. -/
structure Drafted where
  draft : Draft
  changes : List Done
  texts : List (Option String)
  handed : List Change
  locked : Bool

namespace Drafting

open Kb.Composition

variable (O : Outside)

/-- What an import is ordered by among those of one artifact: its `version`, when that is a whole
number. -/
def numberOf : Operation → Option (ArtifactId × Int)
  | .import_ id a => match a.get? "version" with
      | some (.scalar (.int n)) => some (id, n)
      | _ => none
  | _ => none

/-- The imports a set makes of one artifact, in the order of their numbers. -/
def ofOne (operations : List Operation) (id : ArtifactId) : List Operation :=
  (operations.filter fun op => (numberOf op).map Prod.fst = some id).insertionSort fun a b =>
    (((numberOf a).map Prod.snd).getD 0) ≤ (((numberOf b).map Prod.snd).getD 0)

def byNumberFrom (all : List Operation) : List Operation → List ArtifactId → List Operation
  | [], _ => []
  | op :: rest, seen => match numberOf op with
      | none => op :: byNumberFrom all rest seen
      | some (id, _) =>
          (ofOne all id)[seen.count id]?.getD op :: byNumberFrom all rest (seen ++ [id])

/-- The set's operations, the imports it makes of one type's versions put in the order of their
numbers, in the places the set gave those imports. -/
def byNumber (operations : List Operation) : List Operation := byNumberFrom operations operations []

/-- Whether one number is less than another. -/
def less (v w : Value) : Raises Bool :=
  match v, w with
  | .scalar a, .scalar b =>
      match a.whole?, b.whole? with
      | some m, some n => .ok (m < n)
      | _, _ => match a, b with
          | .text _, _ | _, .text _ | .null, _ | _, .null => .error .misshapen
          | _, _ => .ok (a ≠ b && O.ordered [b, a] = [a, b])
  | _, _ => .error .misshapen

/-- The revision a type the store holds stands at, for an import of a version of it above the one it
stands at; 0 for any other import. -/
def gainedAt (t : Tables) (id : ArtifactId) (left : Artifact) : Raises Int :=
  match t.artifact id with
  | none => .ok 0
  | some stands =>
      if !left.typed || !stands.typed then .ok 0 else do
        .ok (if ← less O (← stands.at_ "version") (← left.at_ "version")
          then stands.revision else 0)

/-- The revision each change read its artifact at; `left` is what the changes before left each
at. -/
def readAt (t : Tables) : List Done → List (ArtifactId × Int) → Raises (List Int)
  | [], _ => .ok []
  | c :: rest, left => do
      let read ← match c.op, c.left with
        | .import_, some a => match Assoc.get left c.artifact with
            | some before => .ok before
            | none => gainedAt O t c.artifact a
        | _, _ => .ok (c.revision - 1)
      .ok (read :: (← readAt t rest (Assoc.set left c.artifact c.revision)))

/-- Every operation applied in order to a draft. -/
def actedAll : Draft → List Operation → Raises (Draft × List Outcome)
  | d, [] => .ok (d, [])
  | d, op :: rest => do
      let (d, outcome) ← Edits.acted O d op
      let (d, outcomes) ← actedAll d rest
      .ok (d, outcome :: outcomes)

variable (d : Draft)

/-- Every fault of what a change left against its type, its links landing, both as the set leaves
them. -/
def fits (c : Done) (left : Artifact) : Raises (List Fault) :=
  match Handing.typed d c left with
  | .error (.refused fs) => .ok fs
  | .error e => .error e
  | .ok schema => do
      Validation.validate O d.corpus c.artifact.iri left.checked (← schema.schema)
        (d.waited c.artifact)
        (c.op = .import_)

/-- A change's faults in the order its artifact reads back. -/
def inOrder (c : Done) (left : Artifact) (faults : List Fault) : Raises (List Fault) :=
  if faults.length < 2 then .ok faults else
  match (do declared O d.corpus (← (← Handing.typed d c left).schema) : Raises Declared) with
  | .error (.refused _) => .ok faults
  | .error e => .error e
  | .ok declared => FaultOrder.ordered faults left declared

/-- An operation's faults. -/
def faults : Outcome → Raises (List Fault)
  | .faults fs => .ok fs
  | .change c => match c.left with
      | none => do
          let linked :=
              ((← d.linksIn O c.artifact).filter fun each => each.source ≠
              c.artifact).map fun each =>
            Refusals.stillLinked c.artifact.iri each.source each.place
          .ok (linked ++ (← Standing.inTheWay O d c))
      | some left => do
          let found := c.faults ++ (← fits O d c left)
          let found := if found.isEmpty ∧ left.kind = TYPE_KIND
            then Definitions.faults c.artifact left.checked d.corpus else found
          inOrder O d c left found

/-- The changes among what the operations came to. -/
def changesOf (outcomes : List Outcome) : List Done :=
  outcomes.filterMap fun
    | .change c => some c
    | .faults _ => none

/-- Whether each change is the last the set makes to its artifact. -/
def lasts : List Done → List (Done × Bool)
  | [] => []
  | c :: rest => (c, !rest.any fun later => later.artifact = c.artifact) :: lasts rest

/-- Each change versioned, in order, the draft taking the last of each artifact. -/
def versionedAll : Draft → List (Done × Bool) → Raises (Draft × List Done)
  | d, [] => .ok (d, [])
  | d, (c, last) :: rest => do
      let (d, c) ← Handing.versioned O d c last
      let (d, cs) ← versionedAll d rest
      .ok (d, c :: cs)

/-- Refused, when the set has no other fault, with every link into a part the store held in an
artifact and the set leaves it without, from an artifact the set leaves as it is. -/
def keptWhole (changes : List Done) : Raises Unit := do
  let linked ← (Settled.once (changes.map Done.artifact)).mapM fun id => do
    let gone := d.dropped id
    if gone.isEmpty then .ok [] else
    .ok (((← d.linksIn O id).filter fun each => gone.contains each.part &&
        !d.changed each.source).map fun each =>
      Refusals.stillLinked (Names.pointing id.iri each.part) each.source each.place)
  if linked.flatten.isEmpty then .ok () else .error (.refused linked.flatten)

/-- The set drafted and serialised against the store as it stands, each change as the port takes
it. -/
def drafted (t : Tables) (operations : List Operation) : Raises Drafted := do
  let (d, outcomes) ← actedAll O { store := t } (byNumber operations)
  let found ← outcomes.mapM (faults O d)
  if !found.flatten.isEmpty then Edits.refuse found.flatten
  let (d, changes) ← versionedAll O d (lasts (changesOf outcomes))
  let texts ← Handing.serialised O changes
  keptWhole O d changes
  let read ← readAt O t changes []
  let handed ← ((lasts changes).zip read).mapM fun ((c, last), read) =>
    Handing.handed O d c read last
  let (handed, below) := Standing.guarded handed d
  .ok { draft := d, changes, texts, handed,
        locked := below || changes.any fun c => Standing.removesAType c || Standing.definesAType c }

end Drafting

end Kb
