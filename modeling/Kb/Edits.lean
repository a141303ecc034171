/-
# `Kb.Edits` — what each operation of a set does to the draft

`edits.py`, with the operations of `changes.py` and `edits.Import`: a new artifact, a whole or
placed replacement, an item added to a collection, an artifact removed, an artifact brought from a
file.  Each acts on the draft as the operations before it left it, and is refused there with every
fault it finds in what it names.  A refusal found before the operation puts anything leaves the
draft as it was; the one found after (the type version an artifact just put conforms to is gone)
leaves what was put.
-/
import Kb.Standing

namespace Kb

/-- Content as a request carries it: the tree read from it, and what is wrong with it, each as a
place, a rule and a message. -/
structure Content where
  tree : Value
  problems : List (String × String × String) := []

def Content.refusal (c : Content) (artifact : String) : List Fault :=
  c.problems.map fun (place, rule, message) => { artifact, place, rule, message }

/-- An operation of a set, or the refusal standing in its place. -/
inductive Operation where
  | refusal (faults : List Fault)
  | create (name : ArtifactId) (version : Version) (title : String) (titleFaults : List Fault)
      (content : Content) (carried : List Fault)
  | replace (locator : Locator) (content : Content) (expected : Option Int)
      (version : Option Version)
  | add (locator : Locator) (item : Content) (expected : Option Int)
  | remove (locator : Locator) (expected : Option Int)
  | import_ (id : ArtifactId) (artifact : Artifact)

inductive Op where
  | create | write | append | delete | import_
deriving DecidableEq

def Op.str : Op → String
  | .create => "create"
  | .write => "write"
  | .append => "append"
  | .delete => "delete"
  | .import_ => "import"

/-- What one operation did: to which artifact, at which place in it, the name of the item added; the
revision its entry records and the version its artifact conforms to; the artifact as this operation
left it, nothing for a removal; the type of its kind as it acted; and the faults of the names it
gave or handed back. -/
structure Done where
  op : Op
  artifact : ArtifactId
  path : String := ""
  item : String := ""
  revision : Int := 0
  type : Version
  left : Option Artifact := none
  acted : Option Artifact := none
  faults : List Fault := []

/-- What an operation came to: a change, or the faults it was refused with as it acted. -/
inductive Outcome where
  | change (c : Done)
  | faults (fs : List Fault)

namespace Edits

open Kb.Composition

variable (O : Outside) (d : Draft)

/-- What an operation that puts something did, before what it left is read back. -/
structure Put where
  op : Op
  path : String := ""
  item : String := ""
  faults : List Fault := []
  draft : Draft

def refuse {α : Type} (faults : List Fault) : Raises α := .error (.refused faults)

/-- The mapping content is, as a whole artifact's always is. -/
def entries : Value → Raises Dict
  | .map es => .ok es
  | _ => .error .misshapen

/-- An artifact the draft is asked for after it said it holds it. -/
def current (id : ArtifactId) : Raises Artifact :=
  match d.artifact id with
  | some a => .ok a
  | none => .error (.missing id.iri)

/-- Refuse a change to an artifact the draft does not hold, or to one that stands at another
revision than the one the change says it was read at. -/
def asRead (id : ArtifactId) (expected : Option Int) : Raises Unit := do
  if !d.holds id then refuse [Refusals.notFound id]
  let a ← current d id
  match expected with
  | none => .ok ()
  | some r => if a.revision = r then .ok () else refuse [Refusals.moved id a.revision]

/-- The type version a create names; one the draft does not hold refused beside the IRI its set
carries twice. -/
def named (version : Version) (carried : List Fault) : Raises Artifact :=
  match versionSchema d.corpus version with
  | .error (.refused fs) => refuse (carried ++ fs)
  | out => out

/-- A new artifact at the IRI its create gives, conforming to the type version it names. -/
def create (name : ArtifactId) (version : Version) (title : String) (titleFaults : List Fault)
    (content : Content) (carried : List Fault) : Raises Put := do
  let schema ← named d version carried
  let type := typeOf version.kind
  let faults := (← Naming.identity O d name carried type) ++ titleFaults ++ content.refusal name.iri
  if !faults.isEmpty then refuse faults
  let tree ← entries content.tree
  let (tree, d) ← if type = typeOf TYPE_KIND then Naming.numbered O d name tree else .ok (tree, d)
  let declared ← declared O d.corpus (← schema.schema)
  let (misnamed, tree) ← Naming.items O d name declared tree
  let a ← Settled.order (Settled.given tree name version 1 title) declared
  .ok { op := .create, faults := misnamed, draft := d.put name a }

/-- The artifact's next revision put in the draft, conforming to the version of its type given, and
its content with its items named. -/
def revise (id : ArtifactId) (now : Artifact) (content : Dict) (version : Version) :
    Raises (Draft × List Fault × Dict) := do
  let schema ← versionSchema d.corpus version
  let declared ← declared O d.corpus (← schema.schema)
  let (misnamed, content) ← Naming.revised O d id declared content now.whole
  let (content, d) ← if now.kind = TYPE_KIND then Naming.numbered O d id content
    else .ok (content, d)
  let a ← Settled.order (Settled.given content now.id version (now.revision + 1) now.title) declared
  .ok (d.put id a, misnamed, content)

/-- The version of its type a replaced artifact ends at. -/
def endsAt (id : ArtifactId) (now : Artifact) (named : Option Version) : Raises Version :=
  match named with
  | none => .ok now.type
  | some v =>
      if movesTo d.corpus now v then .ok v else refuse [Refusals.notLater id v.str now.type.str]

/-- Where a locator's place, which is not empty, stands in an artifact's content. -/
def resolve (content : Dict) (locator : Locator) : Raises Places.Spot :=
  if Scalar.text (locator.place.headD "") ∈ Settled.IDENTITY
    then refuse [Refusals.settledPlace locator]
  else match Places.walk content locator.place with
    | none => refuse [Refusals.nothingAt locator]
    | some spot => .ok spot

/-- The artifact's content with the node at the locator's place replaced by the one given; an item
keeps its name. -/
def placed (now : Artifact) (locator : Locator) (node : Value) : Raises Dict := do
  match ← resolve now.content locator with
  | .entry path key =>
      .ok (Places.changeAt (fun holder => Dict.set holder key node) path now.content)
  | .item path collection index => do
      let node ← if collection = "sections" then .ok node else do
        .ok (.map (Dict.update [(.text "id", .text (locator.place.getLastD ""))] (← entries node)))
      .ok (Places.changeAt (fun holder => match Dict.get? holder collection with
        | some (.list vs) => Dict.set holder collection (.list (vs.set index node))
        | _ => holder) path now.content)

def replace (locator : Locator) (content : Content) (expected : Option Int)
    (version : Option Version) :
    Raises Put := do
  asRead d locator.id expected
  if !content.problems.isEmpty then refuse (content.refusal locator.id.iri)
  let now ← current d locator.id
  let tree ← if locator.place.isEmpty then entries content.tree else placed now locator content.tree
  let (d, faults, _) ← revise O d locator.id now tree (← endsAt d locator.id now version)
  .ok { op := .write, path := Names.placed locator.place, faults, draft := d }

/-- The collections declared where the locator's last step stands. -/
def collectionsAt (now : Artifact) (locator : Locator) : Raises Dict := do
  let whole ← declared O d.corpus (← (← conformed d.corpus now).schema)
  .ok (← declaredAt O d.corpus whole (Places.collections locator.place.dropLast)).parts

/-- The name of the item added, as it was named. -/
def itemName (item : Value) : Raises (Option String) := do
  if !(← item.holds "id") then .ok none else
  match ← item.at_ "id" with
  | .scalar (.text name) => .ok (some name)
  | _ => .error .misshapen

/-- One item put at the end of a collection the artifact's type declares, and named there. -/
def append (locator : Locator) (item : Content) (expected : Option Int) : Raises Put := do
  asRead d locator.id expected
  if !item.problems.isEmpty then refuse (item.refusal locator.id.iri)
  if locator.place.isEmpty then refuse [Refusals.notACollection locator]
  let now ← current d locator.id
  match ← resolve now.content locator with
  | .item _ _ _ => do
      let _ ← collectionsAt O d now locator
      refuse [Refusals.notACollection locator]
  | .entry path key => do
      if !Dict.has (← collectionsAt O d now locator) key
        then refuse [Refusals.notACollection locator]
      let holder := Places.holderAt path now.content
      let items ← match Dict.get? holder key with
        | none => .ok []
        | some (.list vs) => .ok vs
        | some _ => refuse [Refusals.notACollection locator]
      let content :=
        Places.changeAt (fun holder => Dict.set holder key (.list (items ++ [item.tree])))
        path now.content
      let (d, faults, content) ← revise O d locator.id now content now.type
      let added := match Dict.get? (Places.holderAt path content) key with
        | some (.list vs) => vs.getLastD .null
        | _ => .null
      let name ← itemName added
      .ok { op := .append, path := Names.placed (locator.place ++ name.toList),
            item := name.getD "", faults, draft := d }

def import_ (id : ArtifactId) (a : Artifact) : Raises Put := do
  let (a, misnamed) ← Naming.imported O d id a
  .ok { op := .import_, faults := misnamed, draft := d.put id a }

/-- A whole artifact taken out of the draft; what still points at it is judged once the whole set
has acted. -/
def delete (locator : Locator) (expected : Option Int) : Raises (Draft × Done) := do
  asRead d locator.id expected
  if !locator.place.isEmpty then refuse [Refusals.wholeOnly locator]
  let removed ← current d locator.id
  .ok (d.remove locator.id,
    { op := .delete, artifact := locator.id, revision := removed.revision + 1,
      type := removed.type })

/-- The artifact an operation acts on, and what it does to the draft. -/
def changed : Operation → Raises (ArtifactId × Put)
  | .refusal fs => refuse fs
  | .create name version title titleFaults content carried => do
      .ok (name, ← create O d name version title titleFaults content carried)
  | .replace locator content expected version =>
      do .ok (locator.id, ← replace O d locator content expected version)
  | .add locator item expected => do .ok (locator.id, ← append O d locator item expected)
  | .import_ id a => do .ok (id, ← import_ O d id a)
  | .remove locator _ => refuse [Refusals.wholeOnly locator]

/-- A refusal taken as what an operation came to, the draft being left as given. -/
def settle (d : Draft) : Raises (Draft × Outcome) → Raises (Draft × Outcome)
  | .error (.refused fs) => .ok (d, .faults fs)
  | out => out

/-- What one operation did to the draft, or the faults it was refused with as it acted. -/
def acted (operation : Operation) : Raises (Draft × Outcome) :=
  match operation with
  | .refusal fs => .ok (d, .faults fs)
  | .remove locator expected => settle d do
      let (d, c) ← delete d locator expected
      .ok (d, .change c)
  | operation => settle d do
      let (id, put) ← changed O d operation
      let left ← current put.draft id
      settle put.draft do
        let acted ← conformed put.draft.corpus left
        .ok (put.draft, .change
          ⟨put.op, id, put.path, put.item, left.revision, left.type, some left,
            some acted, put.faults⟩)

end Edits

end Kb
