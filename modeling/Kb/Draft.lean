/-
# `Kb.Draft` — the store as a set's changes would leave it

`draft.py`: artifacts put stand over the ones the store holds, artifacts removed are no longer held,
and nothing is written.  A type a draft puts is kept too as the version it makes, whatever is put
there after.

The store a draft reads here stands still, so what the source keeps of a type as it first read it is
what it would read again, with one exception the development does not follow: a removal of a type
that asks which types read it (`readers`) has the source keep, for each type it had not read before,
the first version it reads of it, and answer `artifact` with that from then on.
-/
import Kb.Validation

namespace Kb

structure Draft where
  store : Tables
  pending : List (ArtifactId × Artifact) := []
  removed : List ArtifactId := []
  numbers : List (ArtifactId × Scalar) := []
  made : List (ArtifactId × List (Int × Artifact)) := []
  gone : List ArtifactId := []

namespace Draft

variable (O : Outside) (d : Draft)

/-- An artifact as the draft leaves it; a type is kept too as the version of it this makes, under
its number when that is a whole number. -/
def put (id : ArtifactId) (a : Artifact) : Draft :=
  let d := { d with removed := d.removed.filter (· ≠ id), pending := Assoc.set d.pending id a }
  match a.typed, a.get? "version" with
  | true, some (.scalar (.int n)) =>
      { d with made := Assoc.set d.made id (Assoc.set ((Assoc.get d.made id).getD []) n a) }
  | _, _ => d

/-- An artifact taken out, and with a type every version of it, the store's and those the draft
made. -/
def remove (id : ArtifactId) : Draft :=
  { d with removed := id :: d.removed, gone := id :: d.gone, made := Assoc.erase d.made id }

def holds (id : ArtifactId) : Bool :=
  id ∉ d.removed && ((Assoc.get d.pending id).isSome || d.store.holds id)

/-- Whether the draft put or removed what stands at an IRI. -/
def changed (id : ArtifactId) : Bool :=
  (Assoc.get d.pending id).isSome || id ∈ d.removed

/-- `artifact`, which does not ask whether the draft removed what stood there. -/
def artifact (id : ArtifactId) : Option Artifact :=
  match Assoc.get d.pending id with
  | some a => some a
  | none => d.store.artifact id

/-- The versions the draft made of what it put at an IRI, since it last removed it. -/
def madeOf (type : ArtifactId) : List (Int × Artifact) := (Assoc.get d.made type).getD []

/-- The version made at a number. -/
def madeAt (type : ArtifactId) (number : Scalar) : Option Artifact :=
  (d.madeOf type).findSome? fun (n, a) => if number.equals (.int n) then some a else none

/-- A version of a type as the draft leaves it. -/
def typeVersion (type : ArtifactId) (number : Scalar) : Option TypeVersion :=
  if type ∈ d.removed then none else
  match Assoc.get d.pending type with
  | none => d.store.corpus.typeVersion type number
  | some put =>
      let asMade (a : Artifact) : TypeVersion := ⟨a, a.revision, a.title⟩
      if ((put.get? "version").map (·.equals number)).getD false then some (asMade put)
      else match d.madeAt type number with
        | some a => some (asMade a)
        | none => if type ∈ d.gone then none else d.store.corpus.typeVersion type number

/-- The draft as what a reading is made from: every reading asks `holds` before it asks for an
artifact. -/
def corpus : Corpus where
  artifact id := if d.holds id then d.artifact id else none
  typeVersion := d.typeVersion

/-- Numbers as Python and SQLite sort them: whole numbers by their size, any others as both are
documented to read them. -/
def sortedNumbers (ns : List Scalar) : List Scalar :=
  match ns.mapM (fun | .int n => some n | _ => none) with
  | some whole => (whole.insertionSort (· ≤ ·)).map .int
  | none => O.ordered ns

end Draft

/-- `versions` of the store: the number of every version kept under a type's IRI, lowest first. -/
def Tables.versionsOf (O : Outside) (t : Tables) (type : ArtifactId) : List Scalar :=
  Draft.sortedNumbers O ((t.numbersOf type).map O.keptAs)

namespace Draft

variable (O : Outside) (d : Draft)

/-- A number among others, `1` and `1.0` being one. -/
def among (ns : List Scalar) (n : Scalar) : Bool := ns.any (·.equals n)

/-- `versions`: those the store keeps, unless the draft removed the type, and those the draft made
since. -/
def versions (type : ArtifactId) : List Scalar :=
  if type ∈ d.removed then [] else
  let kept := if type ∈ d.gone then [] else d.store.versionsOf O type
  let made := (d.madeOf type).map fun (n, _) => Scalar.int n
  sortedNumbers O (kept ++ made.filter fun n => !among kept n)

/-- Every artifact of a kind the draft holds, in the order of their names. -/
def ids (kind : Kind) : List ArtifactId :=
  let put := (d.pending.filter fun (_, a) => a.kind = kind).map Prod.fst
  ((Settled.once (put ++ d.store.ids kind)).filter (· ∉ d.removed)).insertionSort inOrder

/-- A number and one, as Python adds them. -/
def plusOne : Value → Raises Scalar
  | .scalar (.int n) => .ok (.int (n + 1))
  | .scalar (.bool b) => .ok (.int ((if b then 1 else 0) + 1))
  | .scalar (.float w) => .ok (.float (O.next w))
  | _ => .error .misshapen

/-- The number the next version of a type is made at, and the draft that counts it as made. -/
def numbered (type : ArtifactId) : Raises (Scalar × Draft) := do
  let last ←
    if d.holds type then
      match (Assoc.get d.numbers type).filter fun n => (Value.scalar n).truthy with
      | some n => .ok (Value.scalar n)
      | none => match d.artifact type with
          | some a => a.at_ "version"
          | none => .error (.missing type.iri)
    else .ok (.int 0)
  let next ← plusOne O last
  .ok (next, { d with numbers := Assoc.set d.numbers type next })

/-- Each type given, once, that the draft read from the store and leaves as it is, with the revision
it was read at. -/
def asRead (types : List ArtifactId) : List (ArtifactId × Int) :=
  (Settled.once types).filterMap fun each =>
    if d.changed each then none
    else match d.store.artifact each with
      | some a => if a.typed then some (each, a.revision) else none
      | none => none

/-- The version of its type an artifact the draft put conforms to, as the draft keeps it. -/
def own (a : Artifact) : Option Artifact :=
  (Composition.kept d.corpus (typeOf a.type.kind) a.type.number).map TypeVersion.content

/-- A link handed, as a read of the store would give it. -/
def asHeld (source : ArtifactId) (link : Link) : Linking :=
  ⟨source, link.field, link.place, link.target, link.part, link.holder⟩

/-- The links of one artifact the draft put, read through its own version of its type, never the
link to its type. -/
def putLinks (source : ArtifactId) (a : Artifact) : Raises (List Linking) :=
  match d.own a with
  | none => .ok []
  | some own => do
      let links ← Links.handed O d.corpus a (← own.schema) []
      .ok ((links.filter fun l => !l.implicit).map (asHeld source))

/-- Every link of the artifacts the draft put. -/
def puts : Raises (List Linking) := do
  let sources := d.pending.filter fun (source, _) => source ∉ d.removed
  .ok (← sources.mapM fun (source, a) => d.putLinks O source a).flatten

/-- Links in the order of the names of the artifacts holding them, each artifact's as they were
found. -/
def bySource (found : List Linking) : List Linking :=
  found.insertionSort fun a b => inOrder a.source b.source

/-- Every link into an artifact or a part inside it from an artifact the draft holds. -/
def linksIn (target : ArtifactId) : Raises (List Linking) := do
  let held := (d.store.linksIn target).filter fun each => !d.changed each.source
  .ok (bySource (held ++ (← d.puts O).filter fun each => each.target = target))

/-- Every link from an artifact the draft holds to an IRI the draft does not hold. -/
def waiting : Raises (List Linking) := do
  let held := d.store.waiting.filter fun each => !d.changed each.source
  .ok (bySource ((held ++ (← d.puts O)).filter fun each => !d.holds each.target))

/-- The links the store holds for an artifact that land on nothing held, as it stood before the
draft. -/
def waited (id : ArtifactId) : List Told := heldWaiting (d.store.waitingOf id)

/-- The places of the parts the store holds in an artifact that the draft leaves it without. -/
def dropped (id : ArtifactId) : List String :=
  match Assoc.get d.pending id, d.store.artifact id with
  | some put, some held =>
      if id ∈ d.removed then [] else
      let after := Places.parts put.whole
      (Places.parts held.whole).filter (· ∉ after)
  | _, _ => []

end Draft

end Kb
