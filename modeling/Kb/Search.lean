/-
# `Kb.Search` — words searched for, by a scan and by the rows kept of them

`search.py`, the reads of `sqlite_reads.py` that find artifacts by words, `read.py`'s stub and
`query.py`'s `found`.  A word is matched letter by letter, ignoring case, between two edges of
words; a row keeps the whole words of a text, folded, and is found by a folded word it keeps.
`found` asks the rows which artifacts to scan, and scans those.
-/
import Kb.Write
import Kb.Lib.Words

namespace Kb

/-- What `re` takes of a character: whether a word holds it, whether it is space, whether a
pattern's character matches a text's ignoring case; the lower and the upper case of a text; and
whether FTS5 finds a row of some words by a quoted term. -/
structure Unicode where
  word : Char → Bool
  space : Char → Bool
  alike : Char → Char → Bool
  lower : String → String
  upper : String → String
  matched : String → String → Bool

/-- What a search asks for. -/
structure Searching where
  kind : Option Kind
  text : String
  sections : Bool
  fields : Bool

namespace Search

variable (O : Outside) (U : Unicode)

def WIDTH : Nat := 60

structure Hit where
  artifact : ArtifactId
  section_ : Value
  field : Scalar
  snippet : String
  count : Nat
deriving DecidableEq

/-! ## Words -/

/-- `re.findall(r"\w+", text)`. -/
def findall (text : String) : List String :=
  (Words.wholes U.word text.toList).map String.ofList

/-- The words searched for. -/
def words (text : String) : List String :=
  findall U (U.lower text)

/-- A word with its case folded. -/
def folded (w : String) : String :=
  U.lower (U.upper
    (U.lower (String.ofList (w.toList.map fun c => if c = '\u0130' then 'i' else c))))

/-- The words a text holds, folded. -/
def tokens (text : String) : List String :=
  (findall U text).map (folded U)

/-- The words searched for, each folded. -/
def terms (text : String) : List String :=
  (words U text).map (folded U)

/-- The words a row keeps of a text. -/
def row (text : String) : String :=
  " ".intercalate (tokens U text)

/-- Where the words searched for are matched in a text. -/
def finditer (words : List String) (text : String) : List (Nat × Nat) :=
  Words.scan U.word U.alike (words.map String.toList) 0 none 0 text.toList

/-- The words around the first match, on one line, marked where they were cut. -/
def snippet (body : String) (found : Nat × Nat) : String :=
  let start := found.1 - WIDTH
  let «end» := min (found.2 + WIDTH) body.toList.length
  let text := ((((body.toList.take «end»).drop start).splitOnP U.space).filter fun piece =>
    !piece.isEmpty).map String.ofList
  (if start = 0 then "" else "…") ++ " ".intercalate text
    ++ if (body.toList.drop «end»).all U.space then "" else "…"

/-! ## What an artifact is read for -/

/-- One text of an artifact that is read for words: a section's body, by the section's title, or a
field's value, by the field's name. -/
structure Passage where
  section_ : Value
  field : Scalar
  text : String
deriving DecidableEq

/-- Every section's body, at every depth. -/
def bodies : Nat → List Value → Raises (List Passage)
  | 0, _ => .error .tooDeep
  | depth + 1, sections => do
      let found ← sections.mapM fun s => do
        let title ← s.at_ "title"
        match ← s.at_ "body" with
        | .scalar (.text body) => do
            let inside ← bodies depth (← (← s.get "sections" (.list [])).iter)
            .ok (⟨title, .text "", body⟩ :: inside)
        | _ => .error .misshapen
      .ok found.flatten

/-- The title, then every other field that holds text. -/
def fields (a : Artifact) : List Passage :=
  ((.text "title", .text a.title) :: a.content.filter (fun e => e.1 ≠ Settled.SECTIONS)).filterMap
      fun (name, value) =>
    match value with
    | .scalar (.text t) => some ⟨.text "", name, t⟩
    | _ => none

/-- What is read of an artifact, as asked: its sections, then its fields. -/
def passages (asked : Searching) (a : Artifact) : Raises (List Passage) := do
  let bodies ← if asked.sections then bodies O.depth (← ((a.get? "sections").getD (.list [])).iter)
    else .ok []
  .ok (bodies ++ if asked.fields then fields a else [])

/-- What one text of an artifact is found for. -/
def hit (words : List String) (a : Artifact) (p : Passage) : Option Hit :=
  match finditer U words p.text with
  | [] => none
  | first :: rest => some ⟨a.id, p.section_, p.field, snippet U p.text first, rest.length + 1⟩

/-- Every text of the artifacts that holds a word searched for, most occurrences first. -/
def rank (artifacts : List Artifact) (asked : Searching) : Raises (List Hit) :=
  if words U asked.text = [] then .ok [] else do
    let hits ← artifacts.mapM fun a => do
      .ok ((← passages O asked a).filterMap (hit U (words U asked.text) a))
    .ok (hits.flatten.insertionSort fun x y => y.count ≤ x.count)

end Search

/-! ## The rows found by words -/

/-- What a search of the rows gives: an artifact, and the section or the field of it found. -/
structure Candidate where
  artifact : ArtifactId
  section_ : String
  field : String
deriving DecidableEq

namespace Tables

variable (U : Unicode) (t : Tables)

/-- Search rows by the names of their artifacts, then as they stand in each. -/
def byName (r s : SearchRow) : Prop :=
  Names.order r.artifact.iri < Names.order s.artifact.iri
    ∨ Names.order r.artifact.iri = Names.order s.artifact.iri ∧ r.ordinal ≤ s.ordinal

instance : DecidableRel byName := fun r s => by unfold byName; infer_instance

/-- Whether a row is of what is asked for. -/
def wanted (asked : Searching) (r : SearchRow) : Bool :=
  (r.found.what = "section" && asked.sections || r.found.what = "field" && asked.fields)
    && asked.kind.all (r.kind = ·)

/-- `Reads.search`: what the rows that keep one of the words find, as asked. -/
def candidates (words : List String) (asked : Searching) : List Candidate :=
  if words = [] then [] else
  (((t.search.filter fun r => words.any (U.matched r.found.words)).insertionSort byName).filter
      (wanted asked)).map fun r =>
    ⟨r.artifact, if r.found.what = "section" then r.found.label else "", if r.found.what = "field"
      then r.found.label else ""⟩

end Tables

/-! ## A stub, and what a search gives -/

namespace Read

variable (O : Outside) (t : Tables)

/-- An artifact in brief. -/
structure Stub where
  field : String := ""
  id : ArtifactId
  type : String := ""
  title : String := ""
  fields : String := ""
  notHeld : Bool := false
deriving DecidableEq

/-- What the version of its type an artifact conforms to declares. -/
def shown (a : Artifact) : Raises Declared := do
  Composition.declared O t.corpus (← (← Composition.conformed t.corpus a).schema)

/-- The fields shown at a glance that an artifact holds. -/
def summaryFields (a : Artifact) (declared : Declared) : Raises Dict := do
  .ok ((← Settled.scalars declared.summary).foldl
      (fun fields name => match Assoc.get a.whole name with
    | some value => Assoc.set fields name value
    | none => fields) [])

/-- `stub` of an artifact under no field. -/
def brief (id : ArtifactId) : Raises Stub :=
  match t.artifact id with
  | none => .ok { id, notHeld := true }
  | some a => do
      let shown ← summaryFields a (← shown O t a)
      match O.dump shown with
      | .error (problem, place) => .error (.notCanonical problem place)
      | .ok fields => .ok { id, type := a.type.str, title := a.title, fields }

/-- An artifact in brief, under the field that reached it. -/
def stub (field : Scalar) (id : ArtifactId) : Raises Stub := do
  let made ← brief O t id
  .ok { made with field := ← field.asField }

end Read

namespace Query

variable (O : Outside) (U : Unicode) (t : Tables)

/-- The type a kind names. -/
def kindType (kind : Kind) : Raises ArtifactId :=
  if t.corpus.typedAt (typeOf kind) then .ok (typeOf kind)
    else .error (.refused [Check.noType kind.iri])

/-- `store.artifact`. -/
def artifact (id : ArtifactId) : Raises Artifact :=
  match t.artifact id with
  | some a => .ok a
  | none => .error (.missing id.iri)

theorem artifact_ok {t : Tables} {id : ArtifactId} {a : Artifact} :
    artifact t id = .ok a ↔ t.artifact id = some a := by
  unfold artifact
  cases t.artifact id with
  | none => exact ⟨nofun, nofun⟩
  | some b =>
      exact ⟨fun h => congrArg some (Except.ok.inj h), fun h => congrArg _ (Option.some.inj h)⟩

/-- What a search gives for a text found: a stub of its artifact, the section or the field, a
snippet. -/
structure Match where
  stub : Read.Stub
  section_ : String
  field : String
  snippet : String
deriving DecidableEq

/-- The artifacts the rows find, in the order of their names. -/
def named (asked : Searching) : List ArtifactId :=
  (Settled.once
    ((t.candidates U (Search.terms U asked.text) asked).map Candidate.artifact)).insertionSort
    inOrder

/-- Every section or field that holds a word searched for, with a stub of its artifact, most often
first. -/
def found (asked : Searching) : Raises (List Match) := do
  let _ ← asked.kind.toList.mapM (kindType t)
  let artifacts ← (named U t asked).mapM (artifact t)
  let hits ← Search.rank O U artifacts asked
  hits.mapM fun hit => do .ok ⟨← Read.brief O t hit.artifact, ← hit.section_.asField,
    ← hit.field.asField, hit.snippet⟩

end Query

end Kb
