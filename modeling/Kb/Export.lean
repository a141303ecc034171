/-
# `Kb.Export` — the store written out as files

`export.py`: each artifact at the place its IRI gives, its entries in the order the version of its
type it conforms to declares; and a type as its versions, every one the store keeps and no other,
each with what that version was made with.
-/
import Kb.Offers

namespace Kb.Export

open Kb.Composition

variable (O : Outside) (t : Tables)

/-- The artifact, its entries in the order the version of its type it conforms to declares. -/
def ordered (a : Artifact) : Raises Artifact := do
  Settled.order a (← declared O t.corpus (← (← conformed t.corpus a).schema))

/-- An artifact's canonical text, in a file at a place. -/
def filed (place : List String) (a : Artifact) : Raises File := do
  match O.dump (← ordered O t a).whole with
  | .error (problem, place) => .error (.notCanonical problem place)
  | .ok text => .ok ⟨place, .ok text⟩

/-- A version of a type as its file gives it: its content, its revision and its title, under the
type's IRI. -/
def version (made : TypeVersion) (name : ArtifactId) : Artifact :=
  Settled.given made.content.content name made.content.type made.revision made.title

/-- The file of one version kept of a type. -/
def versionFile (name : ArtifactId) (number : Scalar) : Raises File :=
  match t.corpus.typeVersion name number with
  | none => .error (.missing (Names.labelled name.iri number.str))
  | some made => filed O t (Names.place name.iri (some number.str)) (version made name)

/-- Every version the store keeps of a type. -/
def versions (name : ArtifactId) : Raises (List File) :=
  (t.versionsOf O name).mapM (versionFile O t name)

/-- Every artifact the store holds and every version it keeps of every type, each at its place. -/
def files : Raises (List File) := do
  let found ← t.allIds.mapM fun name => match t.artifact name with
    | none => .error (.missing name.iri)
    | some a =>
        if a.typed then versions O t name else do .ok [← filed O t (Names.place name.iri none) a]
  .ok found.flatten

end Kb.Export
