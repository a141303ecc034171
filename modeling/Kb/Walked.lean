/-
# `Kb.Walked` — a walk gives what its routes reach

A walk gives each IRI a route of at most its depth reaches, once, by a route of least length, nearer
ones first.  What it set out from is seen from the start, so a route that comes back to it is not
gone on from: out of a place inside an artifact that tells, since the artifact's other links are not
the place's.  Into an artifact, or out of it whole, coming back gains nothing
(`Query.Route.avoids`).
-/
import Kb.Walk
import Kb.Run

namespace Kb

open Raising Kb.Composition

/-! ## The links in one node -/

namespace Links

variable (O : Outside) (corpus : Corpus)

/-- The links read in a node beside all of it holds: some of them, in their order, and all once the
node is entered. -/
def Within (entered : Bool) (found all : List Carried) : Prop :=
  found.Sublist all ∧ (entered = true → found = all)

theorem Within.append {entered : Bool} {found all found' all' : List Carried}
    (h : Within entered found all) (h' : Within entered found' all') :
    Within entered (found ++ found') (all ++ all') := by
  refine ⟨h.1.append h'.1, fun hentered => ?_⟩
  rw [h.2 hentered, h'.2 hentered]

theorem Within.flatten {entered : Bool} {found all : List (List Carried)}
    (h : List.Forall₂ (Within entered) found all) :
    Within entered found.flatten all.flatten := by
  induction h with
  | nil => exact ⟨.slnil, fun _ => rfl⟩
  | cons hhead _ ih => exact hhead.append ih

theorem Within.own (entered : Bool) (all : List Carried) :
    Within entered (if entered then all else []) all := by
  cases entered with
  | false => exact ⟨List.nil_sublist _, nofun⟩
  | true => exact ⟨List.Sublist.refl _, fun _ => rfl⟩

theorem Within.of_true {entered entered' : Bool} {found all : List Carried}
    (h : Within entered' found all) (hle : entered = true → entered' = true) :
    Within entered found all :=
  ⟨h.1, fun hentered => h.2 (hle hentered)⟩

/-- The links read in a node are some of those it holds, and all of them once it is entered. -/
theorem linksWithin_within {depth : Nat} :
    ∀ {node : Dict} {refs : List (Scalar × Value)} {parts : Dict} {at_ holder : String}
    {within : Option (List (String × Nat))} {entered : Bool},
    Related (Within (entered || decide (within = some [])))
      (linksWithin O corpus depth node refs parts at_ within entered holder)
      (linksIn O corpus depth node refs parts at_ holder) := by
  induction depth with
  | zero => intro _ _ _ _ _ _ _ _ h; cases h
  | succ depth ih =>
      intro node refs parts at_ holder within entered
      unfold linksWithin linksIn
      refine Related.bind (R := List.Forall₂ (Within (entered || decide (within = some []))))
        (Related.mapM ?_) fun inside inside' _ h => ?_
      · rintro ⟨collection, part⟩ _
        have hnone : Related (Within (entered || decide (within = some [])))
            (.ok [] : Raises (List Carried)) (.ok []) :=
          Related.ok ⟨.slnil, fun _ => rfl⟩
        simp only
        cases hget : Assoc.get node collection with
        | none => exact hnone
        | some value =>
            cases value with
            | scalar _ => exact hnone
            | map _ => exact hnone
            | list items =>
                refine Related.after fun schema _ => Related.after fun itemRefs _ => ?_
                refine Related.bind
                  (R := List.Forall₂ (Within (entered || decide (within = some []))))
                  (Related.mapM ?_)
                  fun found found' _ h => Related.ok (Within.flatten h)
                rintro ⟨item, index⟩ _
                cases item with
                | scalar _ => exact hnone
                | list _ => exact hnone
                | map es =>
                    refine Related.after fun whole _ => ?_
                    intro found hfound
                    obtain ⟨all, hall, hwithin⟩ := ih found hfound
                    refine ⟨all, hall, hwithin.of_true fun hentered => ?_⟩
                    rw [hentered, Bool.true_or]
      · exact Related.ok ((Within.own _ _).append (Within.flatten h))

/-- The links in a node of an artifact are some of those the artifact carries, and all of them for
the artifact itself. -/
theorem inside_carried {content : Dict} {schema : Value} {within : Option (List (String × Nat))}
    {found : List Carried} (h : inside O corpus content schema within = .ok found) :
    ∃ all, carried O corpus content schema = .ok all ∧ found.Sublist all ∧
      (within = some [] → found = all) := by
  obtain ⟨whole, hwhole, h⟩ := bind_ok.mp h
  obtain ⟨refs, hrefs, h⟩ := bind_ok.mp h
  obtain ⟨all, hall, hsub, hwithin⟩ := linksWithin_within O corpus found h
  refine ⟨all, ?_, hsub, fun hw => hwithin ?_⟩
  · exact bind_ok.mpr ⟨whole, hwhole, bind_ok.mpr ⟨refs, hrefs, hall⟩⟩
  · rw [hw, decide_eq_true rfl, Bool.or_true]

end Links

namespace Read

end Read

/-! ## Routes -/

namespace Query

variable (O : Outside) (t : Tables) (asked : Walk)

/-- A hop of a walk: a link of the direction asked, of the field asked for, to what the walk is
narrowed to. -/
def Hop (at_ : Locator) (hop : Scalar × ArtifactId) : Prop :=
  ∃ links, step O t asked at_ = .ok links ∧ hop ∈ links ∧
    (asked.via = "" ∨ hop.1 = .text asked.via) ∧ narrowedTo t asked hop.2 = true

/-- The routes of a walk, each with the IRI it leads to; only what is held is walked on from. -/
inductive Route : List (Scalar × ArtifactId) → ArtifactId → Prop
  | first {hop : Scalar × ArtifactId} : Hop O t asked asked.locator hop → Route [hop] hop.2
  | next {route : List (Scalar × ArtifactId)} {other : ArtifactId} {hop : Scalar × ArtifactId} :
      Route route other →
      t.holds other = true → Hop O t asked ⟨other, []⟩ hop → Route (route ++ [hop]) hop.2

/-- A route that never comes back to what the walk set out from. -/
def Avoids (route : List (Scalar × ArtifactId)) : Prop := ∀ hop ∈ route, hop.2 ≠ asked.locator.id

/-- A link as it is held: carried by what the locator names, read through the version of its type it
conforms to, or, going in, kept in a row of what holds it. -/
def Linked (at_ : Locator) (hop : Scalar × ArtifactId) : Prop :=
  if asked.inward then ∃ row ∈ t.links, row.target = at_.id ∧ row.implicit = false ∧
    .text row.field = hop.1 ∧ row.source = hop.2
  else ∃ a version schema all, t.artifact at_.id = some a ∧ conformed t.corpus a = .ok version ∧
    version.schema = .ok schema ∧
    Links.carried O t.corpus a.whole schema = .ok all ∧ ∃ link ∈ all, ∃ text found,
      link.field = hop.1 ∧
      link.target = .text text ∧ target text = .ok found ∧ found.id = hop.2

variable {O t asked}

theorem pointed_ok {link : Links.Carried} {hop : Scalar × ArtifactId} (h : pointed link = .ok hop) :
    ∃ text found, link.target = .text text ∧ target text = .ok found ∧
      hop = (link.field, found.id) := by
  unfold pointed at h
  split at h
  · next text htext =>
      split at h
      · cases h
      · next found hfound =>
          cases h
          exact ⟨text, found, htext, hfound, rfl⟩
  · cases h

theorem Hop.linked {at_ : Locator} {hop : Scalar × ArtifactId} (h : Hop O t asked at_ hop) :
    Linked O t asked at_ hop := by
  obtain ⟨links, hstep, hmem, _, _⟩ := h
  unfold step at hstep
  unfold Linked
  by_cases hin : asked.inward = true
  · rw [if_pos hin] at hstep ⊢
    cases hstep
    obtain ⟨each, heach, rfl⟩ := List.mem_map.mp hmem
    obtain ⟨row, hrow, rfl⟩ := List.mem_map.mp heach
    obtain ⟨hrow, hof⟩ := List.mem_filter.mp ((List.mem_insertionSort _).mp hrow)
    obtain ⟨htarget, himplicit⟩ := of_decide_eq_true hof
    exact ⟨row, hrow, htarget, himplicit, rfl, rfl⟩
  · rw [if_neg hin] at hstep ⊢
    obtain ⟨a, ha, hstep⟩ := bind_ok.mp hstep
    obtain ⟨version, hversion, hstep⟩ := bind_ok.mp hstep
    obtain ⟨schema, hschema, hstep⟩ := bind_ok.mp hstep
    obtain ⟨within, _, hstep⟩ := bind_ok.mp hstep
    obtain ⟨found, hfound, hstep⟩ := bind_ok.mp hstep
    obtain ⟨all, hall, hsub, _⟩ := Links.inside_carried O t.corpus hfound
    obtain ⟨link, hlink, hpointed⟩ := forall₂_of_mem_right (mapM_ok.mp hstep) hmem
    obtain ⟨text, named, htext, hnamed, rfl⟩ := pointed_ok hpointed
    exact ⟨a, version, schema, all, artifact_ok.mp ha, hversion, hschema, hall, link,
      hsub.subset hlink, text, named, rfl, htext, hnamed, rfl⟩

theorem Avoids.append {route : List (Scalar × ArtifactId)} {hop : Scalar × ArtifactId}
    (h : Avoids asked route) (hhop : hop.2 ≠ asked.locator.id) : Avoids asked (route ++ [hop]) := by
  intro each heach
  rcases List.mem_append.mp heach with heach | heach
  · exact h each heach
  · cases List.mem_singleton.mp heach
    exact hhop

theorem Avoids.single {hop : Scalar × ArtifactId} (h : hop.2 ≠ asked.locator.id) :
    Avoids asked [hop] := by
  intro each heach
  cases List.mem_singleton.mp heach
  exact h

/-- What is handed of an IRI reached is its stub, under the last field of the route there as a
message names it. -/
theorem handed_ok {each : Breadth.Reached ArtifactId Scalar Read.Stub} {made : Reached}
    (h : handed each = .ok made) :
    each.route.mapM hopOf = .ok made.route ∧
      made.stub = { each.given with field := (made.route.getLast?.map Prod.fst).getD "" } := by
  obtain ⟨route, hroute, h⟩ := bind_ok.mp h
  cases h
  exact ⟨hroute, rfl⟩

/-- A route whose fields messages can name. -/
def Named (route : List (Scalar × ArtifactId)) : Prop :=
  ∀ hop ∈ route, ∃ name, hop.1.asField = .ok name

end Query

/-! ## Out of a place whose artifact is come back to -/

namespace Aside

open Sample Query

def type : ArtifactId := ⟨"https://kb.io/m", by decide⟩
def version : Version := ⟨type, 1, Nat.one_pos, by decide⟩
def start : ArtifactId := ⟨"https://kb.io/m/a", by decide⟩
def between : ArtifactId := ⟨"https://kb.io/m/b", by decide⟩
def beyond : ArtifactId := ⟨"https://kb.io/m/c", by decide⟩

/-- A field that links to artifacts of the type. -/
def field : Value :=
  .map [(.text "ref",
    .map [(.text "targets", .list [.text "https://kb.io/m"]), (.text "cardinality", .text "one"),
    (.text "parts", .scalar (.bool false)), (.text "on_delete", .text "refuse")])]

/-- A link of an artifact's own, and a link of each of its steps. -/
def schema : Value :=
  .map [(.text "properties", .map [(.text "next", field)]),
    (.text "parts",
      .map [(.text "steps",
      .map [(.text "items", .map [(.text "properties", .map [(.text "to", field)])])])])]

def content : Content :=
  { tree := .map [(.text "next", .text "https://kb.io/m/c"),
    (.text "steps", .list [.map [(.text "to", .text "https://kb.io/m/b")]])] }

/-- An artifact whose step leads to another, which leads back to it, and which leads on beside the
step. -/
def operations : List Operation :=
  [.create type Start.METASCHEMA_VERSION "M" [] { tree := .map [(.text "schema", schema)] } [],
   .create start version "A" [] content [],
   .create between version "B" [] { tree := .map [(.text "next", .text "https://kb.io/m/a")] } [],
   .create beyond version "C" [] { tree := .map [] } []]

def store : Tables := storeWith outside operations

/-- Three steps out of the step. -/
def walked : Walk := { locator := ⟨start, ["steps", "1"]⟩, depth := 3 }

def route : List (Scalar × ArtifactId) := [("to", between), ("next", start), ("next", beyond)]

/-- Whether a hop is among the links read out of what a locator names. -/
def stepped (at_ : Locator) (hop : Scalar × ArtifactId) : Bool :=
  ((step outside store walked at_).toOption.any fun links => decide (hop ∈ links)) &&
    narrowedTo store walked hop.2

theorem ran : (ranWith outside operations).isSome = true ∧
    (walk outside store walked).toOption.map (fun reached => reached.map fun each => each.stub.id) =
    some [between] ∧
    stepped ⟨start, ["steps", "1"]⟩ ("to", between) = true ∧ stepped ⟨between, []⟩
      ("next", start) = true ∧
    stepped ⟨start, []⟩ ("next", beyond) = true ∧ store.holds between = true ∧
    store.holds start = true := by
  decide +kernel

end Aside

end Kb
