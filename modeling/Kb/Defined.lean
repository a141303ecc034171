/-
# `Kb.Defined` — a type defined wherever the type of types is held

A store that holds the type of types, its first version kept, takes a new type: a set that creates
one of nothing but an empty schema, at an IRI that is free and under which nothing belongs to
another type, is drafted without a fault, and lands (`defining_lands`).  So the type of types stays
in every run no set of which removes it, and what it is for can be done in every store of that run
(`type_of_types_stays`).
-/
import Kb.Recorded
import Kb.Replayed
import Kb.Retried
import Kb.Shipped

namespace Kb

open Landing Raising

/-! ## The versions and the sets of a store -/

/-- The versions a store keeps are of types it holds, each at the IRI its number gives. -/
def Tables.Numbered (t : Tables) : Prop :=
  ∀ r ∈ t.typeVersions, r.id = Names.labelled r.type.iri r.number ∧ t.holds r.type = true

theorem Tables.holds_wrote {t : Tables} {c : Change} (hsound : c.Sound) (landed step : Nat)
    (id : ArtifactId) :
    (t.wrote landed step c).holds id =
      if id = c.artifact then c.content.isSome else t.holds id := by
  rw [Tables.holds, Tables.row?_wrote]
  split
  · cases hc : c.content with
    | none => simp [Tables.rowOf, hc]
    | some a => simp [Tables.rowOf, hc, (hsound a hc).2.2]
  · rfl

theorem Tables.Numbered.wrote {t : Tables} (h : t.Numbered) {c : Change} (hsound : c.Sound)
    (htold : c.Told) (landed step : Nat) :
    (t.wrote landed step c).Numbered := by
  intro r hr
  have hr : r ∈ (if c.content.isNone then t.typeVersions.filter fun r => r.type ≠ c.artifact
      else t.typeVersions) ++ Tables.typeVersionRows c := hr
  rw [Tables.holds_wrote hsound]
  rcases List.mem_append.mp hr with hr | hr
  · cases hc : c.content with
    | none =>
        rw [hc, Option.isNone_none, if_pos rfl] at hr
        obtain ⟨hmem, hne⟩ := List.mem_filter.mp hr
        rw [if_neg (by simpa using hne)]
        exact h r hmem
    | some a =>
        rw [hc, Option.isNone_some, if_neg Bool.false_ne_true] at hr
        obtain ⟨hid, hheld⟩ := h r hr
        refine ⟨hid, ?_⟩
        split
        · rfl
        · exact hheld
  · cases hc : c.content with
    | none =>
        have hrows : Tables.typeVersionRows c = [] := by simp [Tables.typeVersionRows, hc]
        rw [hrows] at hr
        cases hr
    | some a =>
        cases hv : c.version with
        | none =>
            have hrows : Tables.typeVersionRows c = [] := by simp [Tables.typeVersionRows, hc, hv]
            rw [hrows] at hr
            cases hr
        | some v =>
            have hrow : r = ⟨v.label, c.artifact, v.number, c.revision, v.title, a⟩ := by
              simpa [Tables.typeVersionRows, hc, hv] using hr
            have hmakes := htold.version a hc
            unfold Handing.MakesVersion at hmakes
            rw [hv] at hmakes
            split at hmakes
            · obtain ⟨v', hv', heq⟩ := hmakes
              cases heq
              obtain ⟨number, _, hlabel⟩ := bind_ok.mp hv'
              cases hlabel
              subst hrow
              refine ⟨?_, if_pos rfl⟩
              rw [(hsound a hc).1]
            · cases hmakes

theorem Landing.Lands.numbered {t t' : Tables} {changes : List Change} {entries : List Entry}
    (h : Lands t changes entries t') (ht : t.Numbered) (hsound : ∀ c ∈ changes, c.Sound)
    (htold : ∀ c ∈ changes, c.Told) : t'.Numbered := by
  obtain ⟨left, hwritten, _, _, rfl⟩ := h.written
  have hall : ∀ {landed : Nat} {s s' : Tables} {cs : List (Change × Nat)}, Written landed s cs s' →
      (∀ p ∈ cs, p.1.Sound ∧ p.1.Told) → s.Numbered → s'.Numbered := by
    intro landed s s' cs hw
    induction hw with
    | nil => exact fun _ hs => hs
    | cons _ _ _ ih =>
        intro hcs hs
        obtain ⟨hsound, htold⟩ := hcs _ List.mem_cons_self
        exact ih (fun p hp => hcs p (List.mem_cons_of_mem _ hp)) (hs.wrote hsound htold _ _)
  have hleft : left.Numbered :=
    hall hwritten (fun p hp =>
      ⟨hsound _ (List.fst_mem_of_mem_zipIdx hp), htold _ (List.fst_mem_of_mem_zipIdx hp)⟩) ht
  exact hleft

theorem Run.numbered {O : Outside} {states : List Tables} (h : Run O states) :
    ∀ t ∈ states, t.Numbered :=
  h.landing nofun fun _ _ _ _ ht hland hsound htold => hland.numbered ht hsound htold

/-- No version is kept of what is not held. -/
theorem Tables.Numbered.free {t : Tables} (h : t.Numbered) {name : ArtifactId}
    (hfree : t.holds name = false) (number : String) :
    t.typeVersionRow? (Names.labelled name.iri number) = none := by
  cases hrow : t.typeVersionRow? (Names.labelled name.iri number) with
  | none => rfl
  | some r =>
      obtain ⟨hid, hheld⟩ := h r (List.mem_of_find?_eq_some hrow)
      have hlabel : r.id = Names.labelled name.iri number := by simpa using List.find?_some hrow
      have hsame := (Names.labelled_inj name.grammar r.type.grammar (hlabel.symm.trans hid)).1
      rw [← ArtifactId.ext' hsame, hfree] at hheld
      cases hheld

/-- Every set's batch is that of an entry. -/
def Tables.Batches (t : Tables) : Prop :=
  ∀ r ∈ t.sets, ∀ batch, r.2 = some batch → ∃ e ∈ t.entries, e.batch = batch

theorem Landing.Lands.batches {t t' : Tables} {changes : List Change} {entries : List Entry}
    (h : Lands t changes entries t') (ht : t.Batches) : t'.Batches := by
  obtain ⟨left, hwritten, _, _, rfl⟩ := h.written
  have hleft : left.sets = (opened t entries).sets ∧ left.entries = t.entries :=
    hwritten.kept (I := fun s => s.sets = (opened t entries).sets ∧ s.entries = t.entries)
      (fun _ _ _ hs => hs) ⟨rfl, rfl⟩
  intro r hr batch hbatch
  have hr : r ∈ left.sets := hr
  show ∃ e ∈ left.entries ++ entries, e.batch = batch
  rw [hleft.1] at hr
  rw [hleft.2]
  rcases List.mem_append.mp hr with hr | hr
  · obtain ⟨e, he, hsame⟩ := ht r hr batch hbatch
    exact ⟨e, List.mem_append_left _ he, hsame⟩
  · rw [List.mem_singleton.mp hr] at hbatch
    obtain ⟨e, he, hsame⟩ := Option.map_eq_some_iff.mp hbatch
    exact ⟨e, List.mem_append_right _ (List.mem_of_mem_head? he), hsame⟩

theorem Run.batches {O : Outside} {states : List Tables} (h : Run O states) :
    ∀ t ∈ states, t.Batches :=
  h.landing nofun fun _ _ _ _ ht hland _ _ => hland.batches ht

namespace Shipped

open Start Kb.Composition

variable {O : Outside} {t : Tables}

/-! ## A type of nothing but an empty schema, drafted -/

def blankContent : Dict := [(.text "version", .int 1), (.text "schema", .map [])]
def blank (name : ArtifactId) (title : String) : Artifact :=
  ⟨name, METASCHEMA_VERSION, 1, title, blankContent⟩
def defining (name : ArtifactId) (title : String) : Operation :=
  .create name METASCHEMA_VERSION title [] { tree := .map [(.text "schema", .map [])] } []

def blankDraft (t : Tables) (name : ArtifactId) (title : String) : Draft :=
  { store := t, pending := [(name, blank name title)], numbers := [(name, .int 1)],
    made := [(name, [(1, blank name title)])] }

def blankDone (name : ArtifactId) (title : String) : Done :=
  { op := .create, artifact := name, revision := 1, type := METASCHEMA_VERSION,
    left := some (blank name title),
    acted := some METASCHEMA }

section
variable {name : ArtifactId} {title : String}

theorem put_blankDraft :
    (blankDraft t name title).put name (blank name title) = blankDraft t name title := by
  show ({ blankDraft t name title with
      removed := []
      pending := Assoc.set [(name, blank name title)] name (blank name title)
      made := Assoc.set [(name, [(1, blank name title)])] name
        (Assoc.set ((Assoc.get [(name, [(1, blank name title)])] name).getD []) 1
          (blank name title)) } : Draft) = _
  simp [Assoc.set, Assoc.get, blankDraft]

theorem order_blank {content : Dict}
    (h : content = [(.text "schema", .map []), (.text "version", .int 1)] ∨
      content = blankContent) :
    Settled.order ⟨name, METASCHEMA_VERSION, 1, title, content⟩ declares =
      .ok (blank name title) := by
  rcases h with rfl | rfl
  · rfl
  · rfl

theorem holds_blankDraft : (blankDraft t name title).holds name = true := by
  simp [blankDraft, Draft.holds, Assoc.get]

theorem versionSchema_blankDraft (ht : t.Shipped) (hfree : t.holds name = false) :
    versionSchema (blankDraft t name title).corpus METASCHEMA_VERSION = .ok METASCHEMA := by
  have hne : name ≠ METASCHEMA_ID := by
    rintro rfl
    obtain ⟨a, ha, _⟩ := ht.held
    rw [← Tables.artifact_isSome, ha] at hfree
    cases hfree
  obtain ⟨a, ha, hkind⟩ := ht.held
  have hpending : Assoc.get (blankDraft t name title).pending METASCHEMA_ID = none := by
    simp [blankDraft, Assoc.get, hne]
  have hheld : t.holds METASCHEMA_ID = true := by rw [← Tables.artifact_isSome, ha]; rfl
  refine versionSchema_metaschema ⟨a, ?_, hkind⟩ ?_
  · have hholds : (blankDraft t name title).holds METASCHEMA_ID = true := by
      simp only [Draft.holds, hpending]
      simp [blankDraft, hheld]
    show (if (blankDraft t name title).holds METASCHEMA_ID
      then (blankDraft t name title).artifact METASCHEMA_ID else none) = some a
    rw [if_pos hholds]
    simp only [Draft.artifact, hpending]
    exact ha
  · show (blankDraft t name title).typeVersion METASCHEMA_ID (.int 1) = _
    simp only [Draft.typeVersion, hpending]
    rw [if_neg (by simp [blankDraft])]
    exact kept_version ht

theorem conformed_blank (ht : t.Shipped) (hfree : t.holds name = false) :
    conformed (blankDraft t name title).corpus (blank name title) = .ok METASCHEMA :=
  versionSchema_blankDraft ht hfree

theorem typed_blank (ht : t.Shipped) (hfree : t.holds name = false) :
    Handing.typed (blankDraft t name title) (blankDone name title)
      (blank name title) = .ok METASCHEMA := by
  unfold Handing.typed
  have h : (blankDraft t name title).holds (blankDone name title).artifact = true :=
    holds_blankDraft
  rw [h]
  exact conformed_blank ht hfree

/-- The type of types as a validator is given it. -/
def composed : Value :=
  match METASCHEMA_SCHEMA with
  | .map es =>
      .map (Dict.set (Dict.set es "allOf" (.list [Validation.STRUCTURE])) "$defs"
        (.map [(.text "kb-section", Validation.SECTION)]))
  | v => v

theorem compose_metaschema {corpus : Corpus} (hdepth : 0 < O.depth) :
    Validation.compose O corpus METASCHEMA_SCHEMA = .ok composed := by
  have hcollections : Validation.collections O corpus O.depth METASCHEMA_SCHEMA = .ok [] := by
    obtain ⟨depth, hd⟩ := Nat.exists_eq_succ_of_ne_zero hdepth.ne'
    rw [hd]
    unfold Validation.collections
    refine bind_ok.mpr ⟨_, declared_metaschema hdepth, rfl⟩
  unfold Validation.compose
  rw [hcollections]
  rfl

theorem required_metaschema {corpus : Corpus} (hdepth : 0 < O.depth) :
    Validation.required O corpus METASCHEMA_SCHEMA = .ok [] := by
  obtain ⟨depth, hd⟩ := Nat.exists_eq_succ_of_ne_zero hdepth.ne'
  unfold Validation.required
  rw [hd]
  rfl

theorem carried_metaschema {corpus : Corpus} (hdepth : 0 < O.depth) (content : Dict) :
    Links.carried O corpus content METASCHEMA_SCHEMA = .ok [] := by
  obtain ⟨depth, hd⟩ := Nat.exists_eq_succ_of_ne_zero hdepth.ne'
  unfold Links.carried
  refine bind_ok.mpr ⟨_, declared_metaschema hdepth, bind_ok.mpr ⟨[], rfl, ?_⟩⟩
  rw [hd]
  rfl

/-- Content that JSON Schema finds no fault with is valid as a type of nothing else. -/
theorem validate_blank {corpus : Corpus} {waited : List Told} (hdepth : 0 < O.depth)
    (haccepted : O.errors composed (typeSchema corpus) (blank name title).checked = .ok []) :
    Validation.validate O corpus name.iri
      (blank name title).checked METASCHEMA_SCHEMA waited false = .ok [] := by
  have hmisshapen :
      Validation.misshapen O corpus (blank name title).checked METASCHEMA_SCHEMA = .ok [] :=
    bind_ok.mpr ⟨_, compose_metaschema hdepth, haccepted⟩
  have hsections : Validation.sectionFaults name.iri O.depth [] [] "sections" = .ok [] := by
    obtain ⟨depth, hd⟩ := Nat.exists_eq_succ_of_ne_zero hdepth.ne'
    rw [hd]
    rfl
  have hunlanded :
      Validation.unlanded O corpus (blank name title).checked METASCHEMA_SCHEMA waited false
      [] = .ok [] :=
    bind_ok.mpr ⟨_, carried_metaschema hdepth _, rfl⟩
  refine bind_ok.mpr ⟨_, hmisshapen, ?_⟩
  exact bind_ok.mpr ⟨[], required_metaschema hdepth,
    bind_ok.mpr ⟨[], rfl, bind_ok.mpr ⟨[], hsections,
    bind_ok.mpr ⟨_, hunlanded, rfl⟩⟩⟩⟩

theorem create_blank (ht : t.Shipped) (hdepth : 0 < O.depth) (hfree : t.holds name = false)
    (hstanding : Naming.standing O { store := t } name METASCHEMA_ID = .ok []) :
    Edits.create O { store := t } name METASCHEMA_VERSION title []
      { tree := .map [(.text "schema", .map [])] } [] =
      .ok { op := .create, draft := blankDraft t name title } := by
  have hnamed : Edits.named { store := t } METASCHEMA_VERSION [] = .ok METASCHEMA := by
    unfold Edits.named
    rw [versionSchema_draft ht]
  have hholds : ({ store := t } : Draft).holds name = false := hfree
  have hidentity : Naming.identity O { store := t } name [] METASCHEMA_ID = .ok [] := by
    have hunder : Naming.under { store := t } name METASCHEMA_ID = [] := if_pos (Or.inl rfl)
    unfold Naming.identity
    rw [hunder, hholds, hstanding]
    rfl
  have hcounted : Naming.numbered O { store := t } name [(.text "schema", .map [])] =
      .ok ([(.text "schema", .map []), (.text "version", .int 1)],
          { store := t, numbers := [(name, .int 1)] }) := by
    unfold Naming.numbered Draft.numbered
    rw [hholds]
    rfl
  have hitems : ∀ d content, Naming.items O d name declares content = .ok ([], content) := by
    intro d content
    obtain ⟨depth, hdepth⟩ := Nat.exists_eq_succ_of_ne_zero hdepth.ne'
    unfold Naming.items
    rw [hdepth]
    rfl
  refine bind_ok.mpr ⟨_, hnamed, bind_ok.mpr ⟨_, hidentity, ?_⟩⟩
  refine bind_ok.mpr ⟨[(.text "schema", .map [])], rfl, bind_ok.mpr ⟨_, hcounted, ?_⟩⟩
  refine bind_ok.mpr ⟨METASCHEMA_SCHEMA, rfl, bind_ok.mpr ⟨_, declared_metaschema hdepth, ?_⟩⟩
  refine bind_ok.mpr ⟨_, hitems _ _, bind_ok.mpr ⟨blank name title, order_blank (Or.inl rfl), rfl⟩⟩

theorem acted_blank (ht : t.Shipped) (hfree : t.holds name = false) (hdepth : 0 < O.depth)
    (hstanding : Naming.standing O { store := t } name METASCHEMA_ID = .ok []) :
    Edits.acted O { store := t } (defining name title) =
        .ok (blankDraft t name title, .change (blankDone name title)) := by
  have hchanged : Edits.changed O { store := t } (defining name title) =
      .ok (name, { op := .create, draft := blankDraft t name title }) :=
    bind_ok.mpr ⟨_, create_blank ht hdepth hfree hstanding, rfl⟩
  have hcurrent : Edits.current (blankDraft t name title) name = .ok (blank name title) := by
    simp [Edits.current, Draft.artifact, blankDraft, Assoc.get]
  show Edits.settle _ (Edits.changed O { store := t } (defining name title) >>= _) = _
  rw [hchanged]
  show Edits.settle _ (Edits.current (blankDraft t name title) name >>= _) = _
  rw [hcurrent]
  show Edits.settle _
    (Edits.settle _ (conformed (blankDraft t name title).corpus (blank name title) >>= _)) = _
  rw [conformed_blank ht hfree]
  rfl

theorem faults_done (ht : t.Shipped) (hfree : t.holds name = false) (hdepth : 0 < O.depth)
    (haccepted : O.errors composed (typeSchema (blankDraft t name title).corpus)
      (blank name title).checked = .ok []) :
    Drafting.faults O (blankDraft t name title) (.change (blankDone name title)) = .ok [] := by
  have hfits : Drafting.fits O (blankDraft t name title) (blankDone name title)
      (blank name title) = .ok [] := by
    unfold Drafting.fits
    rw [typed_blank ht hfree]
    refine bind_ok.mpr ⟨METASCHEMA_SCHEMA, rfl, ?_⟩
    exact validate_blank hdepth haccepted
  refine bind_ok.mpr ⟨[], hfits, ?_⟩
  rfl

theorem versioned_done (ht : t.Shipped) (hfree : t.holds name = false) (hdepth : 0 < O.depth) :
    Handing.versioned O (blankDraft t name title) (blankDone name title) true =
      .ok (blankDraft t name title, blankDone name title) := by
  refine bind_ok.mpr ⟨METASCHEMA, typed_blank ht hfree, bind_ok.mpr ⟨.int 1, rfl, ?_⟩⟩
  have hread : Version.read? (Names.labelled (blank name title).kind.iri (Value.str (.int 1))) =
      some METASCHEMA_VERSION := by
    show Version.read? (Names.labelled TYPE_KIND.iri (Value.str (.int 1))) = _
    decide +kernel
  rw [hread]
  refine bind_ok.mpr ⟨METASCHEMA_SCHEMA, rfl, bind_ok.mpr ⟨_, declared_metaschema hdepth, ?_⟩⟩
  refine bind_ok.mpr ⟨blank name title, order_blank (Or.inr rfl), ?_⟩
  show (.ok ((blankDraft t name title).put name (blank name title), _) : Raises (Draft × Done)) = _
  rw [put_blankDraft]
  rfl

/-- The change as the port takes it. -/
def blankChange (O : Outside) (t : Tables) (name : ArtifactId) (title : String) : Change :=
  { artifact := name, content := some (blank name title), revision := 1,
    searched := [⟨"field", "title", O.words title⟩],
    kind := some TYPE_KIND, version := some ⟨Names.labelled name.iri "1", "1", title⟩,
    links := [Links.implicitTo TYPE_KIND], parts := Places.parts (blank name title).whole,
    through := (blankDraft t name title).asRead [METASCHEMA_ID] }

theorem searchable_blank (hdepth : 0 < O.depth) :
    searchable O (blank name title) = .ok [⟨"field", "title", O.words title⟩] := by
  obtain ⟨depth, hd⟩ := Nat.exists_eq_succ_of_ne_zero hdepth.ne'
  unfold searchable
  rw [hd]
  rfl

theorem handed_blank (ht : t.Shipped) (hfree : t.holds name = false) (hdepth : 0 < O.depth) :
    Handing.handed O (blankDraft t name title) (blankDone name title) 0 true =
      .ok (blankChange O t name title) := by
  have hlinks : Links.handed O (blankDraft t name title).corpus (blank name title) METASCHEMA_SCHEMA
      ((blankDraft t name title).waited name) = .ok [Links.implicitTo TYPE_KIND] :=
    bind_ok.mpr ⟨_, carried_metaschema hdepth _, rfl⟩
  have hread : readThrough O (blankDraft t name title).corpus TYPE_KIND METASCHEMA_SCHEMA =
      .ok [METASCHEMA_ID] := by
    obtain ⟨depth, hd⟩ := Nat.exists_eq_succ_of_ne_zero hdepth.ne'
    unfold readThrough
    rw [hd]
    rfl
  have hmade :
      Handing.readByTheVersionMade O (blankDraft t name title) (blank name title) = .ok [] := by
    obtain ⟨depth, hd⟩ := Nat.exists_eq_succ_of_ne_zero hdepth.ne'
    unfold Handing.readByTheVersionMade readThrough
    rw [hd]
    rfl
  have hversion :
      Handing.standsAt (blank name title) = .ok ⟨Names.labelled name.iri "1", "1", title⟩ := rfl
  refine bind_ok.mpr ⟨_, searchable_blank hdepth,
    bind_ok.mpr ⟨_, hversion, bind_ok.mpr ⟨_, rfl, ?_⟩⟩⟩
  refine bind_ok.mpr ⟨_, hmade,
    bind_ok.mpr ⟨METASCHEMA, typed_blank ht hfree, bind_ok.mpr ⟨METASCHEMA_SCHEMA, rfl, ?_⟩⟩⟩
  refine bind_ok.mpr ⟨_, hlinks, bind_ok.mpr ⟨_, hread, ?_⟩⟩
  rfl

/-- Nothing is asked to stand still but the type of types. -/
theorem guarded_blank : Standing.guarded [blankChange O t name title]
    (blankDraft t name title) = ([blankChange O t name title], false) := by
  have hopen : Standing.openOf (blankChange O t name title) = [] := rfl
  unfold Standing.guarded
  simp only [List.map_cons, List.map_nil, List.any_cons, List.any_nil, hopen, List.filter_nil,
    List.append_nil]
  rfl

/-- A set of one create of a type, drafted. -/
def blankDrafted (O : Outside) (t : Tables) (name : ArtifactId) (title text : String) : Drafted :=
  { draft := blankDraft t name title, changes := [blankDone name title], texts := [some text],
    handed := [blankChange O t name title], locked := true }

theorem drafted_blank (ht : t.Shipped) (hfree : t.holds name = false) (hdepth : 0 < O.depth)
    (hstanding : Naming.standing O { store := t } name METASCHEMA_ID = .ok [])
    (haccepted : O.errors composed (typeSchema (blankDraft t name title).corpus)
      (blank name title).checked = .ok [])
    {text : String} (hdump : O.dump (blank name title).whole = .ok text) :
    Drafting.drafted O t [defining name title] = .ok (blankDrafted O t name title text) := by
  have hacted : Drafting.actedAll O { store := t } [defining name title] =
      .ok (blankDraft t name title, [.change (blankDone name title)]) :=
    bind_ok.mpr ⟨_, acted_blank ht hfree hdepth hstanding, rfl⟩
  have hfound : [Outcome.change (blankDone name title)].mapM
      (Drafting.faults O (blankDraft t name title)) = .ok [[]] :=
    mapM_ok.mpr (.cons (faults_done ht hfree hdepth haccepted) .nil)
  have hversioned :
      Drafting.versionedAll O (blankDraft t name title) [(blankDone name title, true)] =
      .ok (blankDraft t name title, [blankDone name title]) :=
    bind_ok.mpr ⟨_, versioned_done ht hfree hdepth, rfl⟩
  have hserialised : Handing.serialised O [blankDone name title] = .ok [some text] := by
    unfold Handing.serialised blankDone
    simp only [List.filterMap_cons, List.filterMap_nil, hdump, List.map_cons, List.map_nil,
      Option.bind_some]
    rfl
  have hkept : Drafting.keptWhole O (blankDraft t name title) [blankDone name title] = .ok () := by
    have hdropped : (blankDraft t name title).dropped name = [] := by
      have hnone : t.artifact name = none := by
        rw [← Option.not_isSome_iff_eq_none, Tables.artifact_isSome, hfree]
        exact Bool.false_ne_true
      simp [Draft.dropped, blankDraft, hnone]
    have hone : (Settled.once ([blankDone name title].map Done.artifact)) = [name] := rfl
    unfold Drafting.keptWhole
    rw [hone]
    simp only [List.mapM_cons, List.mapM_nil, hdropped]
    rfl
  refine bind_ok.mpr ⟨_, hacted, bind_ok.mpr ⟨_, hfound, ?_⟩⟩
  refine bind_ok.mpr ⟨_, hversioned,
    bind_ok.mpr ⟨_, hserialised, bind_ok.mpr ⟨(), hkept, bind_ok.mpr ⟨[0], rfl, ?_⟩⟩⟩⟩
  refine bind_ok.mpr ⟨[blankChange O t name title],
    mapM_ok.mpr (.cons (handed_blank ht hfree hdepth) .nil), ?_⟩
  rw [guarded_blank]
  rfl

theorem landed_blank (ht : t.Shipped) (hs : t.Sound) (hn : t.Numbered)
    (hfree : t.holds name = false) (hthrough : ∀ each ∈ (blankChange O t name title).through,
      t.revisionAt each.1 = each.2) (entries : List Entry)
    (hids : (∀ e ∈ entries, e.id ∉ t.entries.map Entry.id) ∧ (entries.map Entry.id).Nodup)
    (hbatch : ∀ batch, entries.head?.map Entry.batch = some batch →
      some batch ∉ t.sets.map Prod.snd) :
    ∃ t', landed t [blankChange O t name title] entries = .ok t' ∧
      t'.artifact name = some (blank name title) := by
  have hnone : t.row? name = none := by
    rw [← Option.not_isSome_iff_eq_none]
    intro h
    rw [Tables.holds, h] at hfree
    cases hfree
  have hrevision : t.revisionAt name = 0 := by simp [Tables.revisionAt, hnone]
  obtain ⟨a, ha, hkind⟩ := ht.held
  obtain ⟨_, _, hheld, row, hrow, hcontent, hrowkind⟩ := hs.artifact ha
  have hne : METASCHEMA_ID ≠ name := by
    rintro rfl
    rw [hheld] at hfree
    cases hfree
  obtain ⟨left, hleft⟩ : ∃ left,
    left = (opened t entries).wrote (t.lastSet + 1) 0 (blankChange O t name title) := ⟨_, rfl⟩
  have hrow' : ∀ id, left.row? id = if id = name
      then (Tables.rowOf (blankChange O t name title)).head? else t.row? id := by
    intro id
    rw [hleft, Tables.row?_wrote]
    rfl
  refine ⟨{ left with entries := left.entries ++ entries },
    (landed_iff ..).mpr ⟨hids, hbatch, ?_, left, ?_, ?_, ?_, rfl⟩, ?_⟩
  · intro c hc
    rw [List.mem_singleton.mp hc]
    exact hthrough
  · refine .cons hrevision ⟨rfl, rfl, fun _ => rfl, fun _ v hv => ?_⟩ (hleft ▸ .nil _)
    cases hv
    exact hn.free hfree "1"
  · have hlands : ∀ asTold waited,
        lands left (Links.implicitTo TYPE_KIND) asTold waited = true := by
      intro asTold waited
      have hat : left.row? (Links.implicitTo TYPE_KIND).target = some row := by
        show left.row? METASCHEMA_ID = some row
        rw [hrow' METASCHEMA_ID, if_neg hne]
        exact hrow
      have hrowkind : row.kind = TYPE_KIND := hrowkind.trans hkind
      unfold Landing.lands
      rw [hat]
      simp only [hrowkind]
      rfl
    have hzip : ∀ asTold waited, (([Links.implicitTo TYPE_KIND].zip asTold).filter fun p =>
        !lands left p.1 p.2 waited) = [] := by
      intro asTold waited
      rw [List.filter_eq_nil_iff]
      rintro ⟨link, told⟩ hmem
      rw [List.mem_singleton.mp (List.of_mem_zip hmem).1, hlands]
      exact Bool.false_ne_true
    show ((([Links.implicitTo TYPE_KIND].zip (told [Links.implicitTo TYPE_KIND])).filter fun p =>
      !lands left p.1 p.2 _).map _) ++ [] = []
    rw [hzip]
    rfl
  · have hbefore :
        (notedAll (t.lastSet + 1) (opened t entries) {}
        [blankChange O t name title].zipIdx).before =
        [(name, 0, t.partsOf name)] := by
      show (noted (opened t entries) {} (blankChange O t name title)).before = _
      have hrevision' : (opened t entries).revisionAt name = 0 := hrevision
      have hparts : (opened t entries).partsOf name = t.partsOf name := rfl
      simp [noted, Assoc.get, blankChange, hrevision', hparts]
    rw [hbefore]
    rfl
  · show (left.row? name).map _ = _
    rw [hrow' name, if_pos rfl]
    rfl

/-- A set drafted lands where its entries are minted and the port takes its changes. -/
theorem landing_ok {drafted : Drafted} {moments : List Int} {signed : Signed} {t t' : Tables}
    {entries : List Entry} (hentries : Write.entries O drafted moments signed t = .ok entries)
    (hlanded : landed t drafted.handed entries = .ok t') :
    Write.landing O drafted moments signed t = .ok (t', Write.results drafted) := by
  simp only [Write.landing, hentries, hlanded, bind, Except.bind]

/-- A set of one create of a type of nothing but an empty schema lands, in any store of a run that
holds the type of types: at any IRI that is free and under which nothing belongs to another type,
where JSON Schema accepts it and it has a text. -/
theorem defining_lands {states : List Tables} (hrun : Run O states) (hmem : t ∈ states)
    (ht : t.Shipped) (hdepth : 0 < O.depth) (hfree : t.holds name = false)
    (hstanding : Naming.standing O { store := t } name METASCHEMA_ID = .ok [])
    (haccepted : ∀ resolve, O.errors composed resolve (blank name title).checked = .ok [])
    {text : String} (hdump : O.dump (blank name title).whole = .ok text) (signed : Signed)
    (clock again : Nat → Int) :
    ∃ t', Write.land O t [defining name title] signed clock again = .ok (t', [⟨name, 1, ""⟩]) ∧
      t'.artifact name = some (blank name title) := by
  have hdrafted := drafted_blank ht hfree hdepth hstanding (haccepted _) hdump
  obtain ⟨hids, hnodup⟩ := Journal.minted_free t [again 0]
  obtain ⟨batch, hminted⟩ : ∃ batch, Journal.minted t [again 0] [] = [batch] := ⟨_, rfl⟩
  have hentries : Write.entries O (blankDrafted O t name title text) [again 0] signed t =
      .ok [Journal.change O signed (blankDone name title) (some text) batch batch] := by
    unfold Write.entries
    rw [hminted]
    rfl
  rw [hminted] at hids hnodup
  have hfresh : batch ∉ t.entries.map Entry.id := hids batch List.mem_cons_self
  have hthrough :=
    Drafting.through_stands hdrafted (hrun.sound t hmem)
    (blankChange O t name title) List.mem_cons_self
  have hbatch : some batch ∉ t.sets.map Prod.snd := by
    intro hin
    obtain ⟨r, hr, hsame⟩ := List.mem_map.mp hin
    obtain ⟨e, he, hbatch⟩ := hrun.batches t hmem r hr batch hsame
    exact hfresh (hbatch ▸ Journal.batched hrun t hmem e he)
  obtain ⟨t', hlanded, hheld⟩ :=
    landed_blank ht (hrun.sound t hmem) (hrun.numbered t hmem) hfree hthrough
    [Journal.change O signed (blankDone name title) (some text) batch batch]
      ⟨fun e he => List.mem_singleton.mp he ▸ hfresh, List.nodup_singleton _⟩ fun b hb =>
      Option.some.inj hb ▸ hbatch
  refine ⟨t', bind_ok.mpr ⟨_, hdrafted, ?_⟩, hheld⟩
  -- a define of a type lands only under the lock
  exact bind_ok.mpr ⟨_, hdrafted, landing_ok hentries hlanded⟩

end

/-! ## The type of types stays -/

/-- The type of types stays: in every store of a run no set of which removes it, it is held, a type;
its first version is kept with what the store was started with; a set that creates a type of nothing
but an empty schema lands wherever its IRI is free, nothing below it belongs to another type, JSON
Schema accepts it and it has a text; and the copy an export writes of that version is read as the
type of types and is at no fault in the check of a directory, in any store whose type of types
stands as it was started, where what is written of it loads as it. -/
theorem type_of_types_stays {states : List Tables} (h : RunWhere O Move.Sparing states)
    (hload : ∀ text, O.dump METASCHEMA.whole = .ok text →
      O.load text = .ok (.map METASCHEMA.whole)) : ∀ t ∈ states,
    (∃ a, t.artifact METASCHEMA_ID = some a ∧ a.typed = true) ∧
    t.typeVersionRow? METASCHEMA_VERSION.str = some METASCHEMA_ROW ∧
    (∀ name title text, 0 < O.depth → t.holds name = false →
      Naming.standing O { store := t } name METASCHEMA_ID = .ok [] →
      (∀ resolve, O.errors composed resolve (blank name title).checked = .ok []) →
      O.dump (blank name title).whole = .ok text → ∀ signed clock again, ∃ t',
        Write.land O t [defining name title] signed clock again = .ok (t', [⟨name, 1, ""⟩]) ∧
          t'.artifact name = some (blank name title)) ∧
    ∀ file, Export.versionFile O t METASCHEMA_ID (.int 1) = .ok file →
      (Offers.read O file).artifact = some METASCHEMA ∧ (Offers.read O file).errors = [] ∧
        ∀ other, other.artifact METASCHEMA_ID = some METASCHEMA → ∀ d offered found placed,
          Importing.faults O other d offered found placed (Offers.read O file) = .ok [] := by
  intro t ht
  have hshipped := shipped h t ht
  obtain ⟨a, ha, hkind⟩ := hshipped.held
  refine ⟨⟨a, ha, decide_eq_true hkind⟩, hshipped.kept, ?_, fun file hfile => ?_⟩
  · intro name title text hdepth hfree hstanding haccepted hdump signed clock again
    exact defining_lands h.run ht hshipped hdepth hfree hstanding haccepted hdump signed clock again
  · obtain ⟨hsteps, text, hdump, htext⟩ := exported hshipped hfile
    have hread := read_metaschema hsteps htext (hload text hdump)
    refine ⟨by rw [hread], by rw [hread], fun other hother d offered found placed => ?_⟩
    exact faults_metaschema hother hsteps hdump htext (hload text hdump) d offered found placed

/-! ## The type of types replaced, and removed -/

open Sample

/-- A replacement of the type of types, by one that says nothing of a type. -/
def replacing : Operation :=
  .replace ⟨METASCHEMA_ID, []⟩ { tree := .map [(.text "schema", .map [])] } none none

def removing : Operation := .remove ⟨METASCHEMA_ID, []⟩ none

/-- The type of types as a replacement leaves it. -/
def looser : Artifact :=
  { METASCHEMA with
    revision := 2, content := [(.text "version", .int 2), (.text "schema", .map [])] }

theorem replacing_asked :
    ∀ operations ∈ [[replacing]], ∀ op ∈ operations, op.asked = true := by decide

theorem removing_asked :
    ∀ operations ∈ [[removing]], ∀ op ∈ operations, op.asked = true := by decide

/-- The sample's outside, where what is written of the type of types loads as it. -/
def loading : Outside where
  __ := outside
  load text := if outside.dump METASCHEMA.whole = .ok text then .ok (.map METASCHEMA.whole)
    else .error "not read"

/-- The store the replacement leads to. -/
def replaced : Tables := storeWith loading [replacing]

def note : ArtifactId := ⟨"https://kb.io/f", by decide⟩

/-- Replaced, the type of types is a type still; its first version is kept, and recognised by a new
store; and a type is created. -/
theorem type_of_types_stays_replaced :
    replaced.artifact METASCHEMA_ID = some looser ∧
      replaced.typeVersionRow? METASCHEMA_VERSION.str = some METASCHEMA_ROW ∧
      (∃ t', Write.land loading replaced [defining note "F"] signed (fun _ => 2) (fun _ => 3) =
        .ok (t', [⟨note, 1, ""⟩]) ∧
        t'.artifact note = some (blank note "F")) ∧
      ∃ file, Export.versionFile loading replaced METASCHEMA_ID (.int 1) = .ok file ∧
        (Offers.read loading file).errors = [] ∧
        Importing.faults loading (store []) { store := store [] } [] [] []
          (Offers.read loading file) = .ok [] := by
  obtain ⟨hran, hlooser, hfile, hother, hfree, hstanding⟩ :
      (ranWith loading [replacing]).isSome = true ∧ replaced.artifact METASCHEMA_ID = some looser ∧
        (Export.versionFile loading replaced METASCHEMA_ID (.int 1)).toOption.isSome = true ∧
        (store []).artifact METASCHEMA_ID = some METASCHEMA ∧ replaced.holds note = false ∧
        (Naming.standing loading { store := replaced } note METASCHEMA_ID).toOption = some [] := by
    decide +kernel
  obtain ⟨states, hrun, hmem⟩ :=
      @storeWith_where loading Move.Sparing [replacing] (by decide) (fun t past moments => by
    rintro op hop ⟨locator, expected, rfl, _⟩
    cases List.mem_singleton.mp hop) hran
  have hload : ∀ text, loading.dump METASCHEMA.whole = .ok text →
      loading.load text = .ok (.map METASCHEMA.whole) :=
    fun text htext => if_pos htext
  obtain ⟨_, hkept, hcreated, hexported⟩ := type_of_types_stays hrun hload _ hmem
  obtain ⟨file, hfile⟩ := Option.isSome_iff_exists.mp hfile
  have hfile := toOption_some hfile
  obtain ⟨_, herrors, hfaults⟩ := hexported file hfile
  exact ⟨hlooser, hkept, hcreated note "F" _ (by decide) hfree (toOption_some hstanding)
    (fun _ => rfl) rfl _ _ _, file, hfile,
    herrors, hfaults _ hother _ _ _ _⟩

/-- In a new store the type of types is removed, since nothing is in its way, and its first version
with it; and once it is replaced, the check of a directory finds the copy an export writes of its
second version at fault, in a new store. -/
theorem type_of_types_removed :
    (Run outside (stores [[removing]]) ∧ store [[removing]] ∈ stores [[removing]] ∧
      (store [[removing]]).holds METASCHEMA_ID = false ∧
      (store [[removing]]).typeVersionRow? METASCHEMA_VERSION.str = none) ∧
    Run outside (stores [[replacing]]) ∧ store [[replacing]] ∈ stores [[replacing]] ∧
      ((Export.versionFile outside (store [[replacing]]) METASCHEMA_ID
        (.int 2)).toOption.map fun file =>
        (Importing.faults outside (store []) { store := store [] } [] [] []
          { Offers.read outside file with artifact := some looser }).toOption.map List.length) =
              some (some 1) := by
  obtain ⟨hran, hstores, hholds, hkept, hran', hstores', hfaults⟩ :
      (ran [[removing]]).isSome = true ∧ (stores [[removing]]).isEmpty = false ∧
        (store [[removing]]).holds METASCHEMA_ID = false ∧
        (store [[removing]]).typeVersionRow? METASCHEMA_VERSION.str = none ∧
        (ran [[replacing]]).isSome = true ∧ (stores [[replacing]]).isEmpty = false ∧
        ((Export.versionFile outside (store [[replacing]]) METASCHEMA_ID
            (.int 2)).toOption.map fun file =>
          (Importing.faults outside (store []) { store := store [] } [] [] []
            { Offers.read outside file with artifact := some looser }).toOption.map List.length) =
                some (some 1) := by
    decide +kernel
  exact ⟨⟨stores_run removing_asked hran, store_mem hstores, hholds, hkept⟩,
    stores_run replacing_asked hran', store_mem hstores', hfaults⟩

end Shipped

end Kb
