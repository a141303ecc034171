/-
# `Kb.Kept` — the versions kept of a type, and a version read as the artifact it was made as

A version of a type is kept as it was made for as long as the type stands: later ones are kept after
it, and the type stands at the last.  So a read of a version (`versions.py`) gives what a read of
the type gave while it stood at that version, under the version's IRI, whatever became of the type
since, until it is taken out.

`versions.as_read` puts what it makes over the store as an artifact under the version's IRI, which
is no artifact's; what is modelled is the artifact it makes.
-/
import Kb.Replayed

namespace Kb

open Raising Landing Ledger

namespace Versions

/-- What a version of a type is read as: its content, under the version's IRI, with the revision and
the title it was made with. -/
def made (version : Version) (held : TypeVersion) : Dict :=
  [(Scalar.text "id", Value.text version.str), (.text "revision", .int held.revision),
    (.text "title", .text held.title)].foldl
    (fun d e => Assoc.set d e.1 e.2) held.content.whole

/-- `refusals.not_found` of a version's IRI. -/
def notFound (version : Version) : Fault :=
  { artifact := version.str, rule := Rules.NOT_FOUND,
    message := "the store holds nothing by the name " ++ quoted version.str }

/-- `versions.as_read`: the version the store keeps, as the artifact it was made as. -/
def asRead (t : Tables) (version : Version) : Raises Dict :=
  match Composition.kept t.corpus (typeOf version.kind) version.number with
  | none => .error (.refused [notFound version])
  | some held => .ok (made version held)

end Versions

/-! ## What a store keeps of a type -/

/-- What every change that leaves a type says: the version it leaves the type standing at. -/
def Tables.Standing (t : Tables) : Prop :=
  ∀ r ∈ t.versions, ∀ a, r.content = some a → a.kind = TYPE_KIND → ∃ v, Handing.standsAt a = .ok v

namespace Landing

variable {t t' : Tables} {changes : List Change} {entries : List Entry}

theorem Lands.standing (h : Lands t changes entries t') (ht : t.Standing)
    (hcs : ∀ c ∈ changes, c.Told) : t'.Standing := by
  intro r hr a ha hkind
  rcases h.mem_versions.mp hr with hr | ⟨p, hp, rfl⟩
  · exact ht r hr a ha hkind
  · have hversion := (hcs _ (List.fst_mem_of_mem_zipIdx hp)).version a ha
    unfold Handing.MakesVersion at hversion
    rw [if_pos hkind] at hversion
    obtain ⟨v, hv, _⟩ := hversion
    exact ⟨v, hv⟩

theorem Written.labelled {landed : Nat} {cs : List (Change × Nat)} (h : Written landed t cs t')
    (ht : (t.typeVersions.map TypeVersionRow.id).Nodup) :
    (t'.typeVersions.map TypeVersionRow.id).Nodup := by
  induction h with
  | nil => exact ht
  | @cons t t' c step rest _ hable _ ih =>
      refine ih ?_
      show (((if c.content.isNone then t.typeVersions.filter fun r => r.type ≠ c.artifact
        else t.typeVersions)
        ++ Tables.typeVersionRows c).map TypeVersionRow.id).Nodup
      cases hc : c.content with
      | none =>
          have hrows : Tables.typeVersionRows c = [] := by simp [Tables.typeVersionRows, hc]
          rw [hrows, List.append_nil, Option.isNone_none, if_pos rfl]
          exact ht.sublist (List.filter_sublist.map _)
      | some a =>
          rw [Option.isNone_some, if_neg Bool.false_ne_true, List.map_append, List.nodup_append]
          cases hv : c.version with
          | none => simp [Tables.typeVersionRows, hc, hv, ht]
          | some v =>
              have hnew := hable.newVersion (by rw [hc]; rfl) v hv
              refine ⟨ht, by simp [Tables.typeVersionRows, hc, hv], ?_⟩
              rintro id hid id' hid' rfl
              obtain ⟨r, hr, rfl⟩ := List.mem_map.mp hid
              have hlabel : r.id = v.label := by simpa [Tables.typeVersionRows, hc, hv] using hid'
              have hfound := List.find?_eq_none.mp hnew r hr
              exact hfound (decide_eq_true hlabel)

end Landing

namespace Run

variable {O : Outside} {states : List Tables}

theorem standing (h : Run O states) : ∀ t ∈ states, t.Standing :=
  h.landing nofun fun _ _ _ _ ht hland _ htold => hland.standing ht htold

/-- No two versions a store keeps are of one IRI. -/
theorem labelled (h : Run O states) :
    ∀ t ∈ states, (t.typeVersions.map TypeVersionRow.id).Nodup := by
  refine h.landing (I := fun t => (t.typeVersions.map TypeVersionRow.id).Nodup) List.nodup_nil ?_
  intro t changes entries t' ht hland _ _
  obtain ⟨left, hwritten, _, _, rfl⟩ := hland.written
  exact hwritten.labelled ht

/-- A version a store keeps is read back at its IRI. -/
theorem typeVersionAt (h : Run O states) {t : Tables} (ht : t ∈ states) {r : TypeVersionRow}
    (hr : r ∈ t.typeVersions) :
    t.typeVersionAt r.id = some ⟨r.content, r.revision, r.title⟩ := by
  have hrow : t.typeVersionRow? r.id = some r := by
    cases hfound : t.typeVersionRow? r.id with
    | none => exact absurd (decide_eq_true rfl) (List.find?_eq_none.mp hfound r hr)
    | some r' =>
        have hr' := List.mem_of_find?_eq_some hfound
        have hid : r'.id = r.id := by simpa using List.find?_some hfound
        exact congrArg some (List.inj_on_of_nodup_map (h.labelled t ht) hr' hr hid)
  rw [Tables.typeVersionAt, hrow]
  rfl

end Run

/-- The log of a store and what it keeps: the last row of a type that stands makes the version it
stands at. -/
theorem Tables.Replays.last_kept {t : Tables} (h : t.Replays) (hstanding : t.Standing)
    {id : ArtifactId} {r : ArtifactRow} (hr : t.row? id = some r)
    (hkind : r.content.kind = TYPE_KIND) :
    ∃ v, Handing.standsAt r.content = .ok v ∧
      (t.keptOf id).getLast? = some ⟨v.label, id, v.number, r.revision, v.title, r.content⟩ := by
  rw [h.row id] at hr
  obtain ⟨row, hlast, hrow⟩ := Option.bind_eq_some_iff.mp hr
  obtain ⟨a, ha, rfl⟩ := Option.map_eq_some_iff.mp hrow
  have hlife := List.mem_of_getLast? hlast
  obtain ⟨hmem, hkey, _⟩ := mem_life hlife
  obtain ⟨v, hv⟩ := hstanding row hmem a ha hkind
  refine ⟨v, hv, ?_⟩
  have hkept : row.kept = some ⟨v.label, id, v.number, row.revision, v.title, a⟩ := by
    have hkind' : a.kind = TYPE_KIND := hkind
    simp [VersionRow.kept, ha, hkind', hv, Except.toOption, hkey]
  have hsplit : lifeIn t.versions id = (lifeIn t.versions id).dropLast ++ [row] :=
    (List.dropLast_append_getLast? row hlast).symm
  rw [h.kept id, keptIn, hsplit, List.filterMap_append]
  simp [hkept]

/-- What was put under an IRI by an earlier store stays, where nothing was taken out of it since. -/
theorem Run.life_stays {O : Outside} {t s : Tables} {past : List Tables} (h : Run O (t :: past))
    (hs : s ∈ t :: past) {id : ArtifactId} (hid : ¬ Tables.removedSince s t id) :
    Tables.lifeIn s.versions id <+: Tables.lifeIn t.versions id := by
  have hgrown : Grown VersionRow.landed s.lastSet s.versions t.versions := by
    rcases List.mem_cons.mp hs with rfl | hpast
    · exact .refl ..
    · exact ((List.pairwise_cons.mp h.grown).1 s hpast).2
  obtain ⟨later, hlater, hnew⟩ := hgrown
  have hkept : ∀ e ∈ later, e.artifact = id → e.content.isSome = true := by
    intro e he hkey
    rw [Option.isSome_iff_ne_none]
    intro hnone
    exact hid ⟨e, hlater ▸ List.mem_append_right _ he, hkey, hnew e he, hnone⟩
  have hlife : Tables.lifeIn (s.versions ++ later) id = Tables.lifeIn s.versions id ++
      later.filter (fun e => e.artifact = id) :=
    life_append hkept
  rw [hlater, hlife]
  exact List.prefix_append ..

/-- The versions kept of a type are never changed: those an earlier store kept come first among
those kept now, as they were made, until the type is taken out; each is read back at its own IRI,
which no other has; and a type stands at the version kept of it last, at the revision, the title and
the content that version was made with. -/
theorem kept_versions_stay {O : Outside} {t : Tables} {past : List Tables} (h : Run O (t :: past)) :
    (∀ s ∈ t :: past, ∀ id, ¬ Tables.removedSince s t id → s.keptOf id <+: t.keptOf id) ∧
    ((t.typeVersions.map TypeVersionRow.id).Nodup ∧
      ∀ r ∈ t.typeVersions, t.typeVersionAt r.id = some ⟨r.content, r.revision, r.title⟩) ∧
    ∀ id r, t.row? id = some r → r.content.kind = TYPE_KIND →
      ∃ v, Handing.standsAt r.content = .ok v ∧
      (t.keptOf id).getLast? = some ⟨v.label, id, v.number, r.revision, v.title, r.content⟩ := by
  have ht : t ∈ t :: past := List.mem_cons_self
  refine ⟨fun s hs id hid => ?_, ⟨h.labelled t ht, fun r hr => h.typeVersionAt ht hr⟩,
    fun id r hr hkind => ?_⟩
  · rw [(h.replays s hs).kept id, (h.replays t ht).kept id]
    exact (h.life_stays hs hid).filterMap _
  · exact (h.replays t ht).last_kept (h.standing t ht) hr hkind

/-- A read of a version gives what the type was while it stood at it, under the version's IRI:
whichever store of the run it stood in, and whatever its type became since, as long as a type stands
there and was not taken out. -/
theorem version_reads_back {O : Outside} {t : Tables} {past : List Tables}
    (h : Run O (t :: past)) {s : Tables} (hs : s ∈ t :: past) {version : Version} {a : Artifact}
    (ha : s.artifact (typeOf version.kind) = some a) (hkind : a.kind = TYPE_KIND)
    (hversion : a.get? "version" = some (.int version.number))
    (hstays : ¬ Tables.removedSince s t (typeOf version.kind))
    (htyped : t.corpus.typedAt (typeOf version.kind) = true) :
    Versions.asRead t version = .ok (Assoc.set a.whole (.text "id") (.text version.str)) := by
  obtain ⟨hid, hrevision, _, r, hr, rfl, _⟩ := (h.sound s hs).artifact ha
  obtain ⟨v, hv, hlast⟩ := (h.replays s hs).last_kept (h.standing s hs) hr hkind
  have hmem : (⟨v.label, typeOf version.kind, v.number, r.revision, v.title, r.content⟩ :
      TypeVersionRow) ∈ t.keptOf (typeOf version.kind) :=
    ((kept_versions_stay h).1 s hs _ hstays).subset (List.mem_of_getLast? hlast)
  have hread := h.typeVersionAt List.mem_cons_self (List.mem_filter.mp hmem).1
  have hstands : v = ⟨version.str, (Scalar.int version.number).str, r.content.title⟩ := by
    unfold Handing.standsAt at hv
    rw [Artifact.at_ok.mpr hversion] at hv
    have hv' := Except.ok.inj hv
    rw [← hv', hid]
    rfl
  have hrev : r.revision = r.content.revision := by
    rw [← hrevision, Tables.revisionAt, hr]
    rfl
  have hkept : Composition.kept t.corpus (typeOf version.kind) version.number =
      some ⟨r.content, r.revision, r.content.title⟩ := by
    rw [Composition.kept, if_pos htyped]
    rw [hstands] at hread
    exact hread
  rw [Versions.asRead, hkept, hrev]
  rfl

namespace Keeping

open Sample

def type : ArtifactId := ⟨"https://kb.io/c", by decide⟩

/-- The first version of the type. -/
def first : Version := ⟨type, 1, Nat.one_pos, by decide⟩

def defining : Operation :=
  .create type Start.METASCHEMA_VERSION "T" [] { tree := .map [(.text "schema", .map [])] } []

/-- The type replaced by another version of it. -/
def replacing : Operation :=
  .replace ⟨type, []⟩
    { tree := .map [(.text "schema", .map [(.text "type", .text "object")])] } none none

def defined : List (List Operation) := [[defining]]
def replaced : List (List Operation) := [replacing] :: defined

theorem replaced_asked : ∀ operations ∈ replaced, ∀ op ∈ operations, op.asked = true := by decide

/-- The type as it was defined. -/
def asDefined : Artifact :=
  ⟨type, Start.METASCHEMA_VERSION, 1, "T", [(.text "version", .int 1), (.text "schema", .map [])]⟩

theorem replaced_run (hran : (ran replaced).isSome = true) :
    Run outside (store replaced :: stores defined) := by
  have hstores : stores replaced = store replaced :: stores defined := stores_cons hran
  rw [← hstores]
  exact stores_run replaced_asked hran

end Keeping

open Sample Keeping in
/-- A type that was replaced: the version it first stood at is kept first, and the one it stands at
last. -/
theorem kept_versions_stay_replaced :
    (store defined).keptOf type <+: (store replaced).keptOf type ∧
      ((store defined).keptOf type).length = 1 ∧ ((store replaced).keptOf type).length = 2 := by
  obtain ⟨hran, hone, htwo, hstays, hseen⟩ : (ran replaced).isSome = true ∧
      ((store defined).keptOf type).length = 1 ∧
      ((store replaced).keptOf type).length = 2 ∧
      ¬ Tables.removedSince (store defined) (store replaced) type ∧
      (stores defined).isEmpty = false := by
    decide +kernel
  have hmem : store defined ∈ store replaced :: stores defined :=
    List.mem_cons_of_mem _ (store_mem hseen)
  exact ⟨(kept_versions_stay (replaced_run hran)).1 _ hmem type hstays, hone, htwo⟩

open Sample Keeping in
/-- Its first version reads as it was defined. -/
theorem version_reads_back_replaced :
    Versions.asRead (store replaced) first =
      .ok (Assoc.set asDefined.whole (.text "id") (.text "https://kb.io/c@1")) := by
  obtain ⟨hran, hmade, hstays, htyped, hseen⟩ : (ran replaced).isSome = true ∧
      (store defined).artifact (typeOf first.kind) = some asDefined ∧
      ¬ Tables.removedSince (store defined) (store replaced) (typeOf first.kind) ∧
      (store replaced).corpus.typedAt (typeOf first.kind) = true ∧
      (stores defined).isEmpty = false := by
    decide +kernel
  have hmem : store defined ∈ store replaced :: stores defined :=
    List.mem_cons_of_mem _ (store_mem hseen)
  exact version_reads_back (replaced_run hran) hmem hmade rfl rfl hstays htyped

end Kb
