/-
# `Kb.Validation` — an artifact checked against its type

`validation.py` and `fault_order.py`: JSON Schema over the schema composed with kb's structural
rules, and beside it what the schema language cannot say: required sections in their declared order,
and links that land on an artifact the corpus holds, or a part inside it, of a kind the field
allows, or wait on an IRI it does not hold, under a held type the field allows, or already wait on a
part their held target lacks.

The validator itself is outside the repository; what it is given (the composed schema, what resolves
a reference, the content) is built here as the source builds it.
-/
import Kb.Links
import Kb.Lib.Digits

namespace Kb.Validation

open Kb.Composition

private def object (es : List (String × Value)) : Value :=
  .map (es.map fun (k, v) => (.text k, v))

def sectionRef : Value := object [("$ref", .text "#/$defs/kb-section")]

/-- kb's shape of a section. -/
def SECTION : Value :=
  object [("type", .text "object"),
    ("properties", object [("title", object [("type", .text "string")]),
      ("body", object [("type", .text "string")]),
      ("sections", object [("type", .text "array"), ("items", sectionRef)])]),
    ("required", .list [.text "title", .text "body"]),
    ("additionalProperties", .bool false)]

def STRUCTURE : Value :=
  object [("properties",
    object [("sections", object [("type", .text "array"), ("items", sectionRef)])])]

variable (O : Outside) (corpus : Corpus)

/-! ## The composed schema -/

/-- `{**schema, "allOf": [*schema.get("allOf", []), *more]}`. -/
def withAllOf (schema : Value) (more : List Value) : Raises Value := do
  let members ← (← schema.get "allOf" (.list [])).iter
  match schema with
  | .map es => .ok (.map (Dict.set es "allOf" (.list (members ++ more))))
  | _ => .error .misshapen

/-- The collections a schema and its bases declare, each a list whose items fit the item's type, and
the collections that type declares in turn. -/
def collections : Nat → Value → Raises (List Value)
  | 0, _ => .error .tooDeep
  | depth + 1, schema => do
      let parts := (← declared O corpus schema).parts
      if parts.isEmpty then .ok [] else
      let shapes ← parts.mapM fun (name, part) => do
        let items ← itemSchema part
        let beside ← collections depth items
        let items ← if beside.isEmpty then .ok items else withAllOf items beside
        .ok (name, object [("type", .text "array"), ("items", items)])
      .ok [object [("properties", .map shapes)]]

/-- One effective schema: the type's, with kb's structural rules and the shape of each collection
beside it. -/
def compose (schema : Value) : Raises Value := do
  let composed ← withAllOf schema (STRUCTURE :: (← collections O corpus O.depth schema))
  match composed, ← schema.get "$defs" (.map []) with
  | .map es, .map defs =>
      .ok (.map (Dict.set es "$defs" (.map (Dict.set defs "kb-section" SECTION))))
  | _, _ => .error .misshapen

/-- JSON Schema's every error of content against a type's schema composed with kb's structural
rules. -/
def misshapen (content : Dict) (schema : Value) : Raises (List SchemaError) := do
  O.errors (← compose O corpus schema) (typeSchema corpus) content

/-! ## What kb's own rules read -/

def placeOf (error : SchemaError) : String := Names.placed error.path

/-- Whether JSON Schema found fault with the node at a place, or with anything inside it, or found a
node holding it of the wrong type. -/
def misread (place : String) (errors : List SchemaError) : Bool :=
  let steps := place.toList.splitOn '/'
  errors.any fun error =>
    let at_ := if error.path.isEmpty then [] else (placeOf error).toList.splitOn '/'
    at_.take steps.length = steps || (error.validator = "type" && steps.take at_.length = at_)

/-- A value's entry, or what a value that is no mapping raises. -/
def entry (v : Value) (name : String) : Raises Value := v.at_ name

/-- The fault of a required section that is missing or out of its place. -/
def sectionFault (artifact place : String) (wanted : Value) (present : Bool) : Fault :=
  { artifact, place, rule := Rules.SECTIONS,
    message := "the sections the type requires must all be present, in order; " ++
      wanted.repr ++ " "
      ++ if present then "is out of its place" else "is missing" }

/-- The required sections first, in their declared order, at every level of the tree; each is looked
for where the one before it left off. -/
def sectionFaults (artifact : String) : Nat → List Value → List Value → String → Raises (List Fault)
  | 0, _, _, _ => .error .tooDeep
  | depth + 1, sections, required, place => do
      let titles ← sections.mapM fun s => entry s "title"
      let (faults, _) ← required.foldlM (fun (faults, at_) wanted => do
        let title ← entry wanted "title"
        if titles[at_]? = some title then
          let here ← (sections[at_]?.getD .null).get "sections" (.list [])
          let inside ← wanted.get "sections" (.list [])
          let below ← sectionFaults artifact depth (← here.iter) (← inside.iter)
            (place ++ "/" ++ toString at_ ++ "/sections")
          .ok (faults ++ below, at_ + 1)
        else .ok (faults ++ [sectionFault artifact place title (titles.contains title)], at_))
        (([] : List Fault), (0 : Nat))
      .ok faults

/-- Whether an IRI the corpus does not hold may be linked to: the nearest held type it sits under is
one the field allows. -/
def waits (target : ArtifactId) (ref : Value) : Raises Bool :=
  match nearestType corpus target with
  | none => .ok false
  | some under => do (← ref.at_ "targets").holds under.iri

/-- Whether a link lands, or waits on an IRI the corpus does not hold. -/
def lands (value ref : Value) : Raises Bool :=
  match value with
  | .scalar (.text text) => match target text with
      | .error _ => .ok false
      | .ok ⟨id, place⟩ => do
          if !place.isEmpty && !(← ref.get "parts" .null).truthy then return false
          match corpus.artifact id with
          | none => waits corpus id ref
          | some a =>
              if !(← (← ref.at_ "targets").holds a.kind.iri) then return false
              return place.isEmpty || Places.holdsPart a.whole place
  | _ => .error .misshapen

/-- Whether a link that does not land, and that the store held waiting or an import brings, waits:
the corpus refuses it only for the part it names, its target held and of a kind the field allows. -/
def keepsWaiting (ref : Value) (target : ArtifactId) : Raises Bool := do
  if !(← ref.get "parts" .null).truthy then return false
  match corpus.artifact target with
  | none => .ok false
  | some a => (← ref.at_ "targets").holds a.kind.iri

/-- Whether a link neither lands nor waits. -/
def isUnlanded (waited : List Told) (imported : Bool) (errors : List SchemaError)
    (link : Links.Carried) (asTold : Option Told) : Raises Bool := do
  if misread link.place errors then return false
  if ← lands corpus link.target link.ref then return false
  match asTold with
  | none => return true
  | some told =>
      if imported || waited.contains told then return !(← keepsWaiting corpus link.ref told.target)
      return true

/-- The links content carries that neither land in the corpus nor wait, but those JSON Schema's
errors leave unread. -/
def unlanded (content : Dict) (schema : Value) (waited : List Told) (imported : Bool)
    (errors : List SchemaError) :
    Raises (List Links.Carried) := do
  let carried ← Links.carried O corpus content schema
  let asTold := Links.toldOf (← carried.mapM Links.read)
  (carried.zip asTold).foldlM (fun found (link, told) => do
    if ← isUnlanded corpus waited imported errors link told then .ok (found ++ [link])
      else .ok found) []

/-- `refusals.unlanded`. -/
def unlandedFault (artifact place target : String) : Fault :=
  { artifact, place, rule := Rules.REF,
    message := "a link must land on a node of a kind the type allows; " ++ target ++ " does not" }

/-- The sections a type and what it is built on require. -/
def required (schema : Value) : Raises (List Value) := do
  let parts ← (← composition corpus O.depth schema).mapM fun part => do
    (← part.get "sections" (.list [])).iter
  .ok parts.flatten

/-- Every violation, JSON Schema's and kb's own rules' together.  `waited` are the links the store
held for the artifact that landed on nothing held; `imported` says an import brings what is
checked. -/
def validate (artifact : String) (content : Dict) (schema : Value) (waited : List Told)
    (imported : Bool) :
    Raises (List Fault) := do
  let errors ← misshapen O corpus content schema
  let faults := errors.map fun e => { artifact, place := placeOf e, rule := e.validator,
                                      message := e.message : Fault }
  let sections ← if misread "sections" errors then .ok [] else do
    let required ← required O corpus schema
    sectionFaults artifact O.depth (← ((Dict.get? content "sections").getD (.list [])).iter)
      required "sections"
  let found ← unlanded O corpus content schema waited imported errors
  .ok (faults ++ sections ++ found.map fun link =>
    unlandedFault artifact link.place link.target.repr)

end Kb.Validation

/-! ## The order faults are given in -/

namespace Kb.FaultOrder

/-- What a step of a place stands in. -/
inductive Level where
  | top | item | section_ | sectionList | itemList | plain
deriving DecidableEq

def Level.isList : Level → Bool
  | .sectionList | .itemList => true
  | _ => false

/-- What `get` gives of a schema, nothing where it is none. -/
def look (schema : Value) (name : String) : Option Value :=
  match schema with
  | .map es => Dict.get? es name
  | _ => none

def keysOf : Option Value → List Scalar
  | some (.map es) => Assoc.keys es
  | _ => []

/-- The names of a level's entries in the order they stand. -/
def sequence (node : Option Value) (level : Level) (schema : Value) : Raises (List Scalar) :=
  let held := keysOf node
  match level with
  | .top =>
      let d : Declared :=
        { properties := match look schema "properties" with | some (.map es) => es | _ => []
          parts := match look schema "parts" with | some (.map es) => es | _ => [] }
      .ok (Settled.IDENTITY ++ Settled.topSequence held d)
  | .item => do
      let fields ← Settled.scalars (← (← schema.get "properties" (.map [])).iter)
      .ok (Settled.once (.text "id" :: fields ++ held))
  | .section_ => .ok (Settled.once (Settled.sectionLeading ++ held))
  | _ => .ok held

/-- `int(step)` of a step that is digits. -/
def number (step : String) : Raises Nat :=
  match Digits.int? step with
  | some n => .ok n
  | none => .error .misshapen

/-- The entry of a list at an index. -/
def entry (step : String) : Option Value → Raises (Option Value)
  | some (.list vs) => if Digits.isDigit step then (number step).map (vs[·]?) else .ok none
  | _ => .ok none

/-- `len(node or [])`. -/
def lengthOf : Option Value → Raises Nat
  | none => .ok 0
  | some (.list vs) => .ok vs.length
  | some (.map es) => .ok es.length
  | some (.scalar (.text t)) => .ok t.length
  | some (.scalar s) => if (Value.scalar s).truthy then .error .misshapen else .ok 0

def isList : Option Value → Bool
  | some (.list _) => true
  | _ => false

/-- A step's rank among the entries beside it. -/
def rank (step : String) (node : Option Value) (level : Level) (schema : Value) :
    Raises (Nat × String) :=
  if level.isList || isList node then
    if Digits.isDigit step then (number step).map (·, "") else (lengthOf node).map (·, "")
  else (sequence node level schema).map fun names => (names.idxOf (.text step), step)

/-- A collection a schema declares at a step: what `parts` is looked up for, where it can be. -/
def declaredPart (step : String) : Value → Raises (Option Value)
  | .map parts => .ok (Dict.get? parts step)
  | .list names => if names.contains (.text step) then .error .misshapen else .ok none
  | .scalar (.text t) => if step.toList <:+: t.toList then .error .misshapen else .ok none
  | .scalar _ => .error .misshapen

/-- The collection declared at a step of a level, where the level's schema declares any. -/
def partAt (step : String) (level : Level) (schema : Value) : Raises (Option Value) :=
  match level with
  | .top | .item => do declaredPart step (← schema.get "parts" (.map []))
  | _ => .ok none

/-- The entry a step leads to in a level that is no list of sections or items. -/
def child (step : String) : Option Value → Raises (Option Value)
  | some (.map es) => .ok (Dict.get? es step)
  | node => entry step node

/-- The node a step leads to, the level it stands at and the schema that level is read by. -/
def inside (step : String) (node : Option Value) (level : Level) (schema : Value) :
    Raises (Option Value × Level × Value) :=
  match level with
  | .sectionList => do .ok (← entry step node, .section_, .map [])
  | .itemList => do .ok (← entry step node, .item, schema)
  | _ => do
      let found ← child step node
      match ← partAt step level schema with
      | some part => .ok (found, .itemList, ← part.get "items" (.map []))
      | none =>
          if (level = .top ∨ level = .section_) ∧ step = "sections"
            then .ok (found, .sectionList, .map [])
          else .ok (found, .plain, .map [])

def positionFrom : List String → Option Value → Level → Value → Raises (List (Nat × String))
  | [], _, _, _ => .ok []
  | step :: rest, node, level, schema => do
      let first ← rank step node level schema
      let led ← inside step node level schema
      .ok (first :: (← positionFrom rest led.1 led.2.1 led.2.2))

/-- The steps of a place: none for the whole artifact. -/
def stepsOf (place : String) : List String :=
  if place = "" then [] else (place.toList.splitOn '/').map String.ofList

/-- What an artifact's type declares, as the schema its top is read by. -/
def topSchema (declared : Declared) : Value :=
  .map [(.text "properties", .map declared.properties), (.text "parts", .map declared.parts)]

/-- Where a place stands: the rank of each step of it among its siblings. -/
def position (place : String) (view : Dict) (declared : Declared) : Raises (List (Nat × String)) :=
  positionFrom (stepsOf place) (some (.map view)) .top (topSchema declared)

/-- What a fault is ordered by: its place, the name of its rule without regard to case, the name,
the message. -/
def key (view : Dict) (declared : Declared) (f : Fault) :
    Raises (List (Nat × String) × String × String × String) :=
  (position f.place view declared).map (·, f.rule.toLower, f.rule, f.message)

def stepBefore (a b : Nat × String) : Bool := a.1 < b.1 || (a.1 = b.1 && a.2 < b.2)

def placeBefore : List (Nat × String) → List (Nat × String) → Bool
  | _, [] => false
  | [], _ :: _ => true
  | a :: as, b :: bs => stepBefore a b || (a = b && placeBefore as bs)

/-- Whether what a fault is ordered by comes no later than another's. -/
def notAfter (k k' : List (Nat × String) × String × String × String) : Prop :=
  placeBefore k.1 k'.1 = true ∨ k.1 = k'.1 ∧ (k.2.1 < k'.2.1 ∨ k.2.1 = k'.2.1 ∧
    (k.2.2.1 < k'.2.2.1 ∨ k.2.2.1 = k'.2.2.1 ∧ k.2.2.2 ≤ k'.2.2.2))

instance : DecidableRel notAfter := fun _ _ => inferInstanceAs (Decidable (_ ∨ _))

/-- An artifact's faults in the order its places stand in it as it reads back, then by their
rules. -/
def ordered (faults : List Fault) (a : Artifact) (declared : Declared) : Raises (List Fault) := do
  let view := (← Settled.order a declared).checked
  let keyed ← faults.mapM fun f => (key view declared f).map (·, f)
  .ok ((keyed.insertionSort fun k k' => notAfter k.1 k'.1).map Prod.snd)

end Kb.FaultOrder
