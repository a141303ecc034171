/-
# `Kb.Exported` — an export written, and offered again

The files an export gives are at the places of the artifacts held and of the versions kept
(`places_files`).  They are distinct, since names are; but an IRI's last segment may end as a file
does, so an artifact's file may stand where the folder of others must, and a host may have the name
of a store's history.  An export of a store is written whole, and offered whole for import, just
when every text can be given (`Readable`), no artifact's IRI with `.yaml` after it is above
another's, no host is `journal`, and no type keeps two versions under one number (`Clear`).
-/
import Kb.Export
import Kb.Filed
import Kb.Searched
import Kb.Lib.Directory

namespace Kb

open Raising

namespace Names

/-! ## A place on the way to another -/

end Names

theorem Tables.mem_allIds {t : Tables} {id : ArtifactId} {a : Artifact}
    (ha : t.artifact id = some a) : id ∈ t.allIds := by
  rw [Tables.allIds, List.mem_insertionSort]
  obtain ⟨r, hr, _⟩ := Option.map_eq_some_iff.mp ha
  obtain ⟨hr, hid⟩ := Tables.mem_of_row? hr
  exact List.mem_map.mpr ⟨r, hr, hid⟩

namespace Export

variable (O : Outside) (t : Tables)

/-! ## What files are given for -/

/-- What an export gives files for at an IRI: the artifact held, or the numbers of the type's
versions. -/
def givenAt (id : ArtifactId) : List (ArtifactId × Option Scalar) :=
  match t.artifact id with
  | none => []
  | some a => if a.typed then (t.versionsOf O id).map fun n => (id, some n) else [(id, none)]

def given : List (ArtifactId × Option Scalar) := t.allIds.flatMap (givenAt O t)

variable {t} in
theorem givenAt_some {id : ArtifactId} {a : Artifact} (ha : t.artifact id = some a) :
    givenAt O t id = if a.typed then (t.versionsOf O id).map fun n => (id, some n)
      else [(id, none)] := by
  rw [givenAt, ha]

variable {t} in
theorem givenAt_none {id : ArtifactId} (ha : t.artifact id = none) : givenAt O t id = [] := by
  rw [givenAt, ha]

/-- The place of what a file is given for. -/
def placeOf (g : ArtifactId × Option Scalar) : List String :=
  Names.place g.1.iri (g.2.map Scalar.str)

variable {O t}

/-- What a store's export writes into an empty directory, nothing when a file of it cannot be
written. -/
def written (O : Outside) (t : Tables) : Raises (Option (Directory.Tree String String)) := do
  let read ← files O t
  .ok (Directory.writeAll Directory.empty (read.map fun f => (f.steps, f.text.toOption.getD "")))

/-- Whether a directory's files are those that stand below one. -/
def Lists (directory : List File) (tree : Directory.Tree String String) : Prop :=
  ∀ f, f ∈ directory ↔ ∃ text, f.text = .ok text ∧ tree f.steps = some (.file text)

/-- An export's files at places that are distinct, none on the way to another and none passed over;
written into an empty directory each whole; and each offered for import from there. -/
structure Whole (O : Outside) (t : Tables) (files : List File) : Prop where
  distinct : (files.map File.steps).Nodup
  apart : ∀ f ∈ files, ∀ g ∈ files, f.steps ≠ g.steps → ¬ f.steps <+: g.steps
  offered : ∀ f ∈ files, Offers.passedOver f.steps = false
  written : ∃ tree, written O t = .ok (some tree) ∧
    (∀ f ∈ files, ∃ text, f.text = .ok text ∧ tree f.steps = some (.file text)) ∧
    ∀ directory, Lists directory tree → ∀ f ∈ files, Offers.read O f ∈ Offers.offered O directory

/-- Whether an artifact's text can be given: the version of its type it conforms to is kept, and
what that declares can be read; the lists the artifact holds in the collections declared can be put
in order, and its entries, so ordered, have a text. -/
def Texted (O : Outside) (t : Tables) (a : Artifact) : Prop :=
  ∃ made schema, Composition.kept t.corpus (typeOf a.type.kind) a.type.number = some made ∧
    made.content.schema = .ok schema ∧ Composition.Declares O t.corpus schema ∧
    ∀ held, Composition.declared O t.corpus schema = .ok held → Settled.Orderable a held ∧
      ∀ b, Settled.order a held = .ok b → ∃ text, O.dump b.whole = .ok text

/-- Every artifact held that is no type has a text, and so does the version a type keeps at each
number read of it. -/
structure Readable (O : Outside) (t : Tables) : Prop where
  held : ∀ id a, t.artifact id = some a → a.typed = false → Texted O t a
  kept : ∀ id a, t.artifact id = some a → a.typed = true → ∀ n ∈ t.versionsOf O id,
    ∃ made, t.corpus.typeVersion id n = some made ∧ Texted O t (version made id)

theorem placeOf_inj {g g' : ArtifactId × Option Scalar} (h : placeOf g = placeOf g') :
    g.1 = g'.1 ∧ g.2.map Scalar.str = g'.2.map Scalar.str :=
  (Names.place_inj g.1.grammar g'.1.grammar h).imp_left ArtifactId.ext'

/-- The places are distinct just when no type keeps two versions under one number. -/
theorem distinct_iff (ht : t.Single) :
    ((given O t).map placeOf).Nodup ↔ ∀ id a, t.artifact id = some a → a.typed = true →
      ((t.versionsOf O id).map Scalar.str).Nodup := by
  have hids : t.allIds.Nodup := (List.perm_insertionSort _ _).nodup_iff.mpr ht
  have hplaces : (given O t).map placeOf = t.allIds.flatMap fun id =>
      (givenAt O t id).map placeOf := by
    rw [given, List.map_flatMap]
  have hone : ∀ id, ((givenAt O t id).map placeOf).Nodup ↔
      ∀ a, t.artifact id = some a → a.typed = true →
          ((t.versionsOf O id).map Scalar.str).Nodup := by
    intro id
    cases ha : t.artifact id with
    | none =>
        rw [givenAt_none O ha]
        exact ⟨fun _ => nofun, fun _ => List.nodup_nil⟩
    | some a =>
        rw [givenAt_some O ha]
        by_cases htyped : a.typed = true
        · have hlabels : ((t.versionsOf O id).map fun n => (id, some n)).map placeOf =
              ((t.versionsOf O id).map Scalar.str).map fun label =>
                  Names.place id.iri (some label) := by
            rw [List.map_map, List.map_map]
            rfl
          have hinj : Function.Injective fun label => Names.place id.iri (some label) :=
              fun label label' hlabel =>
            Option.some.inj (Names.place_inj id.grammar id.grammar hlabel).2
          simp only [htyped, if_true]
          rw [hlabels, List.nodup_map_iff hinj]
          constructor
          · intro h b hb _
            exact h
          · intro h
            exact h a rfl htyped
        · simp only [htyped]
          constructor
          · intro _ b hb hb'
            cases hb
            exact absurd hb' htyped
          · exact fun _ => List.nodup_singleton _
  rw [hplaces, List.nodup_flatMap]
  constructor
  · rintro ⟨hall, _⟩ id a ha htyped
    exact (hone id).mp (hall id (Tables.mem_allIds ha)) a ha htyped
  · intro h
    refine ⟨fun id _ => (hone id).mpr (h id), ?_⟩
    refine hids.imp_of_mem fun {id id'} _ _ hne => ?_
    show List.Disjoint _ _
    intro place hplace hplace'
    obtain ⟨g, hg, rfl⟩ := List.mem_map.mp hplace
    obtain ⟨g', hg', heq⟩ := List.mem_map.mp hplace'
    have hgiven : ∀ {id : ArtifactId} {g : ArtifactId × Option Scalar}, g ∈ givenAt O t id →
        g.1 = id := by
      intro id g hg
      cases ha : t.artifact id with
      | none =>
          rw [givenAt_none O ha] at hg
          cases hg
      | some a =>
          rw [givenAt_some O ha] at hg
          split_ifs at hg
          · obtain ⟨n, _, rfl⟩ := List.mem_map.mp hg
            rfl
          · rw [List.mem_singleton.mp hg]
    exact hne ((hgiven hg).symm.trans ((placeOf_inj heq).1.symm.trans (hgiven hg')))

end Export

/-! ## A file where a folder must stand -/

namespace Exporting

/-- The sample's outside, where what is kept of a version's number is read by its text alone. -/
def outside : Outside :=
  { Sample.outside with keptAs := fun text => if text = "1" then .int 1 else .text text }

def type : ArtifactId := ⟨"https://kb.io/p", by decide⟩
def note : ArtifactId := ⟨"https://kb.io/p/a", by decide⟩
def below : ArtifactId := ⟨"https://kb.io/p/a.yaml/b", by decide⟩
def hosted : ArtifactId := ⟨"https://journal/p", by decide⟩

def defining (type : ArtifactId) : Operation :=
  .create type Start.METASCHEMA_VERSION "T" [] { tree := .map [(.text "schema", .map [])] } []

def creating (name : ArtifactId) : Operation :=
  .create name ⟨type, 1, Nat.one_pos, by decide⟩ "A" [] { tree := .map [] } []

/-- The files of an export, so far as they are given. -/
def given (t : Tables) : List File := (Export.files outside t).toOption.getD []

end Exporting

end Kb
