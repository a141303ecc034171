/-
# `Kb.Tables` — what the port takes, and the tables the adapter keeps

`port_values.py` and the schema of `sqlite_store.py`: a link and a change as they are handed, what
tells one link of an artifact from another, and the eight tables with the reads the port answers
from them.

A row is keyed as the schema keys it.  Where a read has no order of its own the rows come in the
order they were written; where it has one (`names.order`, the order links were handed in) the read
sorts as the source does.
-/
import Kb.Settled
import Kb.Lib.Transaction

namespace Kb

/-! ## What a change hands -/

/-- A link a change hands with an artifact's content. -/
structure Link where
  field : Scalar
  place : String
  target : ArtifactId
  part : String
  kinds : List Value
  implicit : Bool := false
  under : Option ArtifactId := none
  waits : Bool := false
  holder : Option String := some ""
  imported : Bool := false
deriving DecidableEq

/-- What tells a link of one artifact from every other it holds: its field, what holds that field,
the IRI it names and the part, and how many links before it are the same in all four. -/
structure Told where
  field : Scalar
  holder : String
  target : ArtifactId
  part : String
  before : Nat
deriving DecidableEq

/-- The four by which links are told, the holder as it was handed. -/
abbrev Key := Scalar × Option String × ArtifactId × String

/-- What tells each of an artifact's links, given by their keys in the order it carries them;
nothing for a link handed with no holder. -/
def toldFrom : List Key → List Key → List (Option Told)
  | _, [] => []
  | seen, key :: rest =>
      (key.2.1.map fun holder => ⟨key.1, holder, key.2.2.1, key.2.2.2, seen.count key⟩) ::
        toldFrom (seen ++ [key]) rest

def Link.key (l : Link) : Key := (l.field, l.holder, l.target, l.part)
def Linking.key (l : Linking) : Key := (l.field, l.holder, l.target, l.part)

/-- `told` of the links handed. -/
def told (links : List Link) : List (Option Told) := toldFrom [] (links.map Link.key)

/-- The waiting links the store holds for one artifact, each as it is told, but one told from
nothing. -/
def heldWaiting (links : List Linking) : List Told :=
  (toldFrom [] (links.map Linking.key)).reduceOption

/-- What a change to a type says of the version it leaves the type standing at: the version's IRI
and its number, both as they are written, and its title. -/
structure Versioned where
  label : String
  number : String
  title : String
deriving DecidableEq

/-- A version of a type as the store holds it: the content, the revision and the title it was made
with. -/
structure TypeVersion where
  content : Artifact
  revision : Int
  title : String
deriving DecidableEq

/-- A row an artifact is found by: what it is, its label and its words. -/
structure Found where
  what : String
  label : String
  words : String
deriving DecidableEq

/-- One change of a set as the port takes it. -/
structure Change where
  artifact : ArtifactId
  content : Option Artifact
  links : List Link := []
  parts : List String := []
  read : Int := 0
  revision : Int := 0
  through : List (ArtifactId × Int) := []
  searched : List Found := []
  kind : Option Kind := none
  version : Option Versioned := none
deriving DecidableEq

/-- An entry's id: its moment, in microseconds, and its seq among the entries stamped at that
moment. -/
structure EntryId where
  moment : Int
  seq : Nat
deriving DecidableEq

/-- One artifact as a snapshot lists it: its name, its revision and the fingerprint of its canonical
text. -/
structure Snapshotted where
  artifact : ArtifactId
  revision : Int
  digest : String
deriving DecidableEq

/-- One entry of the history: its id, what it is filtered by, and the record of the change it is
for, or of what a snapshot read. -/
structure Entry where
  id : EntryId
  artifact : String := ""
  role : String := ""
  execution : String := ""
  batch : EntryId
  op : String
  path : String := ""
  revision : Int := 0
  type : String := ""
  digest : String := ""
  message : String := ""
  read : List Snapshotted := []
deriving DecidableEq

/-! ## The tables -/

structure ArtifactRow where
  id : ArtifactId
  kind : Kind
  revision : Int
  content : Artifact
deriving DecidableEq

/-- Digits with no zeros after them. -/
def unpadded (digits : List Char) : List Char := (digits.reverse.dropWhile (· = '0')).reverse

/-- A number of a power of ten, its digits given and the place of the first, as SQLite writes a
float: a point always, and an exponent from 10^15 on and below 10^-4. -/
def pointed (digits : List Char) (first : Int) : List Char :=
  let orZero (rest : List Char) := if rest.isEmpty then ['0'] else rest
  let zeros (n : Nat) := List.replicate n '0'
  if first < -4 ∨ 14 < first then
    let power := (toString first.natAbs).toList
    digits.take 1 ++ '.' :: orZero (digits.drop 1) ++ ['e', if first < 0 then '-' else '+']
      ++ zeros (2 - power.length) ++ power
  else if first < 0 then ['0', '.'] ++ zeros (first.natAbs - 1) ++ digits
  else
    let whole := digits.take (first.toNat + 1)
    whole ++ zeros (first.toNat + 1 - whole.length) ++ '.' :: orZero (digits.drop (first.toNat + 1))

/-- A float as a text column keeps it: 15 digits of it; what is no number is kept as nothing. -/
def floatText (written : String) : Option String :=
  let (sign, size) := match written.toList with
    | '-' :: size => (['-'], size)
    | size => ([], size)
  if size = ['i', 'n', 'f'] then some (String.ofList (sign ++ ['I', 'n', 'f'])) else do
    let (whole, fraction, power) ← floatParts? size
    let n ← digits? (whole ++ fraction)
    if n = 0 then some "0.0" else
    let places := (toString n).length
    let cut := 10 ^ (places - 15)
    let kept := n / cut + if cut ≤ 2 * (n % cut) ∧ 1 < cut then 1 else 0
    let carried := if min places 15 < (toString kept).length then 1 else 0
    let first := power - fraction.length + places - 1 + carried
    some (String.ofList (sign ++ pointed (unpadded (toString kept).toList) first))

/-- What a text column keeps of a scalar, which is text there; a column that takes no null refuses
nothing, and no whole number past 64 bits is handed to a statement. -/
def Scalar.column : Scalar → Option String
  | .null => none
  | .bool b => some (if b then "1" else "0")
  | .int n => if -(2 ^ 63) ≤ n ∧ n < 2 ^ 63 then some (toString n) else none
  | .float w => floatText w
  | .text t => some t

example : floatText "1e+16" = some "1.0e+16" ∧ floatText "0.30000000000000004" = some "0.3" ∧
    floatText "-0.001" = some "-0.001" ∧ floatText "120.0" = some "120.0" := by decide +kernel

structure LinkRow where
  source : ArtifactId
  ordinal : Nat
  field : String
  place : String
  target : ArtifactId
  part : String
  implicit : Bool
  holder : Option String
deriving DecidableEq

structure VersionRow where
  artifact : ArtifactId
  landed : Nat
  step : Nat
  revision : Int
  content : Option Artifact
deriving DecidableEq

structure TypeVersionRow where
  id : String
  type : ArtifactId
  number : String
  revision : Int
  title : String
  content : Artifact
deriving DecidableEq

structure SearchRow where
  row : Nat
  artifact : ArtifactId
  kind : Kind
  found : Found
  ordinal : Nat
deriving DecidableEq

/-- The tables of a store's database. -/
structure Tables where
  artifacts : List ArtifactRow := []
  parts : List (ArtifactId × String) := []
  links : List LinkRow := []
  /-- Each set's number and its batch; `lastSet` is the number given last, which is never given
  again. -/
  sets : List (Nat × Option EntryId) := []
  lastSet : Nat := 0
  versions : List VersionRow := []
  typeVersions : List TypeVersionRow := []
  entries : List Entry := []
  search : List SearchRow := []
  searched : List (Nat × ArtifactId) := []
deriving DecidableEq

namespace Tables

variable (t : Tables)

/-! ## The port's reads -/

def row? (id : ArtifactId) : Option ArtifactRow := t.artifacts.find? fun r => r.id = id

/-- `holds`. -/
def holds (id : ArtifactId) : Bool := (t.row? id).isSome

/-- `artifact`, nothing where it is not held. -/
def artifact (id : ArtifactId) : Option Artifact := (t.row? id).map ArtifactRow.content

/-- `SELECT revision FROM artifacts WHERE id = ?`, 0 where nothing is held. -/
def revisionAt (id : ArtifactId) : Int := ((t.row? id).map ArtifactRow.revision).getD 0

def partsOf (id : ArtifactId) : List String := (t.parts.filter fun p => p.1 = id).map Prod.snd

/-- The row of the version of a type kept under a label, `<type IRI>@<n>` as it is written. -/
def typeVersionRow? (label : String) : Option TypeVersionRow :=
  t.typeVersions.find? fun r => r.id = label

/-- `type_version`, by the version's IRI as it is written. -/
def typeVersionAt (label : String) : Option TypeVersion :=
  (t.typeVersionRow? label).map fun r => ⟨r.content, r.revision, r.title⟩

/-- The numbers kept under a type's IRI, as they were handed. -/
def numbersOf (type : ArtifactId) : List String :=
  (t.typeVersions.filter fun r => r.type = type).map TypeVersionRow.number

/-- `ids` of a kind, in the order of names. -/
def ids (kind : Kind) : List ArtifactId :=
  ((t.artifacts.filter fun r => r.kind = kind).map ArtifactRow.id).insertionSort inOrder

/-- `ids` of everything held. -/
def allIds : List ArtifactId :=
  (t.artifacts.map ArtifactRow.id).insertionSort inOrder

def linking (r : LinkRow) : Linking :=
  ⟨r.source, .text r.field, r.place, r.target, r.part, r.holder⟩

/-- Rows in the order of the names of their sources, then as handed. -/
def bySource (a b : LinkRow) : Prop :=
  Names.order a.source.iri < Names.order b.source.iri
    ∨ Names.order a.source.iri = Names.order b.source.iri ∧ a.ordinal ≤ b.ordinal

instance : DecidableRel bySource := fun a b => by unfold bySource; infer_instance

/-- The links landing on an artifact or a part inside it, kb's own among them. -/
def linksInto (id : ArtifactId) : List Linking :=
  ((t.links.filter fun r => r.target = id).insertionSort bySource).map linking

/-- `links_in`: those of them that are not kb's own. -/
def linksIn (id : ArtifactId) : List Linking :=
  ((t.links.filter fun r => r.target = id ∧ r.implicit = false).insertionSort bySource).map linking

/-- Whether a link lands on nothing held: its target not held, or into a part its held target
lacks. -/
def waits (r : LinkRow) : Bool :=
  r.implicit = false ∧ (t.holds r.target = false ∨ r.part ≠ "" ∧ r.part ∉ t.partsOf r.target)

/-- Rows by the name they point at, then the artifact holding them, then as handed. -/
def byTarget (a b : LinkRow) : Prop :=
  Names.order a.target.iri < Names.order b.target.iri
    ∨ Names.order a.target.iri = Names.order b.target.iri ∧ bySource a b

instance : DecidableRel byTarget := fun a b => by unfold byTarget; infer_instance

/-- `waiting`: every link that lands on nothing held. -/
def waiting : List Linking :=
  ((t.links.filter t.waits).insertionSort byTarget).map linking

/-- `waiting` of one artifact. -/
def waitingOf (source : ArtifactId) : List Linking :=
  ((t.links.filter fun r => t.waits r ∧ r.source = source).insertionSort byTarget).map linking

/-- `entry_ids`: the ids of the entries stamped at a moment. -/
def entryIds (moment : Int) : List EntryId :=
  (t.entries.map Entry.id).filter fun e => e.moment = moment

end Tables

end Kb
