/-
# `Kb.Ids` — checked names, faults, and what a call raises

`values.py`: an artifact named by its IRI, a kind named by its type's, a version of a type, a place
inside an artifact.  None of them can be built from text that is not one: the source checks the text
before it builds the value, and here the check is a field.

A call of the source returns or raises.  What it raises is an `Error`: a refusal with its faults,
one of the port's own refusals, or an exception of Python's or of the database's that nothing turns
into a fault.
-/
import Kb.Names
import Kb.Value

namespace Kb

/-! ## Names of things -/

/-- An artifact, named by its IRI. -/
structure ArtifactId where
  iri : String
  grammar : Names.iri iri = true
deriving DecidableEq

/-- A kind is named by its type's IRI. -/
abbrev Kind := ArtifactId

/-- The type the artifacts of a kind are of, held at the kind's IRI. -/
def typeOf (kind : Kind) : ArtifactId := kind

theorem ArtifactId.ext' {a b : ArtifactId} (h : a.iri = b.iri) : a = b := by
  cases a; cases b; cases h; rfl

/-- Text as an artifact's IRI, when it is one. -/
def ArtifactId.read? (text : String) : Option ArtifactId :=
  if h : Names.iri text = true then some ⟨text, h⟩ else none

@[simp] theorem ArtifactId.read?_iri (a : ArtifactId) : ArtifactId.read? a.iri = some a := by
  simp [read?, a.grammar]

theorem ArtifactId.iri_of_read? {text : String} {a : ArtifactId} (h : read? text = some a) :
    a.iri = text := by
  unfold read? at h
  split at h
  · cases h; rfl
  · cases h

/-- The kind of the types: that of the type which describes what a type is. -/
def TYPE_KIND : Kind := ⟨Names.TYPES, by decide⟩

/-- A version of a type: the kind it is of and its number, short enough together to be an IRI. -/
structure Version where
  kind : Kind
  number : Nat
  positive : 0 < number
  short : (Names.versioned kind.iri number).length ≤ Names.LONGEST
deriving DecidableEq

namespace Version

def str (v : Version) : String :=
  Names.versioned v.kind.iri v.number

/-- Text as a type version's IRI, when it is one. -/
def read? (text : String) : Option Version :=
  match Names.version text with
  | none => none
  | some (iri, number) =>
      if h : Names.iri iri = true ∧ 0 < number ∧ (Names.versioned iri number).length ≤ Names.LONGEST
          then
        some ⟨⟨iri, h.1⟩, number, h.2.1, h.2.2⟩
      else none

theorem read?_str (v : Version) : read? v.str = some v := by
  have h := Names.version_versioned v.kind.grammar v.positive v.short
  have hstr : Names.version v.str = some (v.kind.iri, v.number) := h
  simp [read?, hstr, v.kind.grammar, v.positive, v.short]

/-- A version read of a type's IRI labelled is a version of that type. -/
theorem kind_of_read? {kind : Kind} {label : String} {v : Version}
    (h : read? (Names.labelled kind.iri label) = some v) :
    v.kind = kind := by
  unfold read? at h
  split at h
  · cases h
  · next iri number hversion =>
      split at h
      · next hiri =>
          cases h
          obtain ⟨l, hl⟩ := Names.labelled_of_version hversion
          exact ArtifactId.ext' (Names.labelled_inj hiri.1 kind.grammar hl.symm).1
      · cases h

theorem ext' {v w : Version} (hk : v.kind = w.kind) (hn : v.number = w.number) : v = w := by
  cases v; cases w; cases hk; cases hn; rfl

end Version

/-- An artifact and a place in it, none for the artifact itself. -/
structure Locator where
  id : ArtifactId
  place : List String
deriving DecidableEq

/-- The IRIs of the grammar an IRI sits under, nearest first. -/
def aboveOf (id : ArtifactId) : List ArtifactId :=
  (Names.above id.iri).filterMap ArtifactId.read?

/-- Names in the one order artifacts' IRIs are given in. -/
def inOrder (a b : ArtifactId) : Prop :=
  Names.order a.iri ≤ Names.order b.iri

instance : DecidableRel inOrder := fun a b =>
  inferInstanceAs (Decidable (Names.order a.iri ≤ Names.order b.iri))

/-! ## Faults -/

namespace Rules
def NOT_FOUND := "not-found"
def KIND := "kind"
def LOCATOR := "locator"
def COLLECTION := "collection"
def IDENTITY := "identity"
def ON_DELETE := "on_delete"
def UNREADABLE := "unreadable"
def ITEM_NAME := "item-name"
def SHAPE := "shape"
def BUILT_ON := "built-on"
def TARGETS := "targets"
def VERSION := "version"
def CONTENT := "content"
def SECTIONS := "sections"
def REF := "ref"
def OPERATIONS := "operations"
def TITLE := "title"
def REVISION := "revision"
def PLACEMENT := "placement"
def DIFFERS := "differs"
end Rules

/-- A fault: the artifact or the file it is said of, the place in it, the rule broken and what is
said. -/
structure Fault where
  artifact : String := ""
  place : String := ""
  rule : String
  message : String
deriving DecidableEq

/-- `values.target`'s faults for text that is no link. -/
def notAName (text : String) : Fault :=
  { artifact := text, rule := Rules.LOCATOR,
    message :=
      "a name is an IRI, never a path: a name is an IRI of kb's grammar, https://, a host and plain segments; "
      ++ quoted text ++ " is not" }

def notAPlace (name path : String) : Fault :=
  { artifact := name, place := path, rule := Rules.LOCATOR,
    message :=
      "a place inside an artifact is named by parts of the same plain alphabet, or a collection and an item in it; "
      ++ quoted path ++ " is not" }

/-- A name and a written place, each checked. -/
def located (name path : String) : Except (List Fault) Locator :=
  let place := Names.steps path
  let placeFaults := if place.all Names.plain then [] else [notAPlace name path]
  match ArtifactId.read? name with
  | none => .error (notAName name :: placeFaults)
  | some id => if placeFaults.isEmpty then .ok ⟨id, place⟩ else .error placeFaults

/-- A link as a field holds it, which is text: a name, or a name and, after `#`, a place inside
it. -/
def target (text : String) : Except (List Fault) Locator :=
  located (Names.linked text).1 (Names.linked text).2

/-! ## Links as the store holds them -/

/-- A link as the store holds it: the artifact holding it, the field, its place there, where it
lands, and what in the artifact holds it. -/
structure Linking where
  source : ArtifactId
  field : Scalar
  place : String
  target : ArtifactId
  part : String
  holder : Option String := some ""
deriving DecidableEq

/-! ## What a call raises -/

inductive Error where
  /-- `Refused`, with every fault. -/
  | refused (faults : List Fault)
  /-- The port's `Conflict`. -/
  | conflict
  /-- The port's `Linked`. -/
  | linked (links : List Linking)
  /-- The port's `Unlanded`. -/
  | unlanded (links : List Linking)
  /-- `KeyError`. -/
  | missing (key : String)
  /-- `TypeError`, `AttributeError` or `ValueError`: a value of another shape than the code
  reads. -/
  | misshapen
  /-- `NoSuchResource`, from a reference to a type version that is not held. -/
  | noSuchResource (uri : String)
  /-- `RecursionError`. -/
  | tooDeep
  /-- `NotCanonical`: what kb could not write, and where. -/
  | notCanonical (problem place : String)
  /-- A statement the database refuses or fails: a key held twice, a number it cannot keep, a lock
  or a file. -/
  | database
  /-- The write lock asked for inside reads at one moment. -/
  | lockInsideReads
deriving DecidableEq

abbrev Raises (α : Type) := Except Error α

/-! ## Values read as Python reads them -/

/-- A scalar given for a text field of a message: none of it leaves the field empty, and only text
fits it. -/
def Scalar.asField : Scalar → Raises String
  | .null => .ok ""
  | .text t => .ok t
  | _ => .error .misshapen

namespace Value

/-- A value given for a text field of a message. -/
def asField : Value → Raises String
  | .scalar s => s.asField
  | _ => .error .misshapen

/-- `value.get(name, default)`. -/
def get (v : Value) (name : String) (default : Value) : Raises Value :=
  match v with
  | .map d => .ok ((Dict.get? d name).getD default)
  | _ => .error .misshapen

/-- `value[name]`. -/
def at_ (v : Value) (name : String) : Raises Value :=
  match v with
  | .map d => match Dict.get? d name with
      | some w => .ok w
      | none => .error (.missing name)
  | _ => .error .misshapen

/-- What iterating over a value gives: a list's entries, a mapping's keys, a text's characters. -/
def iter : Value → Raises (List Value)
  | .list vs => .ok vs
  | .map es => .ok (es.map fun e => .scalar e.1)
  | .scalar (.text t) => .ok (t.toList.map fun c => .text (String.ofList [c]))
  | _ => .error .misshapen

/-- Whether text is part of another. -/
def within (part whole : List Char) : Bool :=
  whole.tails.any part.isPrefixOf

/-- `text in value`: an entry of a list, a key of a mapping, a part of a text. -/
def holds (v : Value) (text : String) : Raises Bool :=
  match v with
  | .list vs => .ok (vs.contains (.text text))
  | .map es => .ok (Dict.has es text)
  | .scalar (.text t) => .ok (within text.toList t.toList)
  | _ => .error .misshapen

/-- What `dict.update` takes a value as: a mapping's entries, or a sequence of pairs. -/
def pairs (v : Value) : Raises Dict :=
  match v with
  | .map es => .ok es
  | _ => do
      (← v.iter).mapM fun entry => do
        match ← entry.iter with
        | [.scalar key, value] => .ok (key, value)
        | _ => .error .misshapen

end Value

end Kb
