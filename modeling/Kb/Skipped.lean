/-
# `Kb.Skipped` — the files an examination says would be skipped

`examining.examined` adds errors to the files as it goes: the faults found of each, then those of
its links, then those of the comparison with the store.  What it says would be skipped is worked out
at the end; the types no version of which would land, and what each file's links lead it to, are
worked out before the links are judged.  So a file leads (`Leads`) to the version files it is read
through and to those of each type lost by then that it links under, and it is skipped just where it
leads to a file with an error at the end.

A file that differs from what the store holds has its error only then.  It leaves out the files read
through it, yet what links under a type of theirs is not skipped (`differing_unheeded`).  What is
skipped is what leads to a file with an error, by the errors files end with, just where no type lost
by those alone has a file skipped or spared for it (`examined_heeds`).
-/
import Kb.Leads
import Kb.Brought
import Kb.Filed

namespace Kb.Importing

open Relation Raising Kb.Composition Skipping

variable {O : Outside} {t : Tables} {offered offered' : List Offered}

/-! ## The files of one pass and the next -/

theorem Keeps.same {o o' : Offered} (h : Keeps o o') :
    o'.file = o.file ∧ o'.name = o.name ∧ o'.artifact = o.artifact ∧
      (o'.errors = [] → o.errors = []) := by
  obtain ⟨errors, rfl⟩ := h
  exact ⟨rfl, rfl, rfl, fun h => (List.append_eq_nil_iff.mp h).1⟩

theorem Since.files (h : Since offered offered') :
    offered'.map Offered.file = offered.map Offered.file := by
  unfold Since at h
  induction h with
  | nil => rfl
  | cons hk _ ih => rw [List.map_cons, List.map_cons, ih, hk.same.1]

theorem Since.names (h : Since offered offered') :
    offered'.filterMap Offered.name = offered.filterMap Offered.name := by
  unfold Since at h
  induction h with
  | nil => rfl
  | cons hk _ ih => rw [List.filterMap_cons, List.filterMap_cons, ih, hk.same.2.1]

theorem Since.byName (h : Since offered offered') {name : Name} {o' : Offered}
    (ho : byName offered' name = some o') :
    ∃ o, byName offered name = some o ∧ Keeps o o' := by
  unfold Since at h
  unfold Skipping.byName at *
  induction h with
  | nil => cases ho
  | @cons o o₁ offered offered' hk _ ih =>
      rw [List.find?_cons] at ho ⊢
      rw [hk.same.2.1] at ho
      by_cases hname : o.name = some name
      · rw [decide_eq_true hname] at ho ⊢
        cases ho
        exact ⟨o, rfl, hk⟩
      · rw [decide_eq_false hname] at ho ⊢
        exact ih ho

theorem Since.beneath (h : Since offered offered') {o o' : Offered} (hk : Keeps o o') :
    Skipping.beneath offered' o' = Skipping.beneath offered o := by
  have hsome : ∀ name, (Skipping.byName offered' name).isSome =
      (Skipping.byName offered name).isSome := by
    intro name
    rw [Bool.eq_iff_iff, byName_isSome, byName_isSome, h.names]
  obtain ⟨_, hname, hartifact, _⟩ := hk.same
  unfold Skipping.beneath Offered.typed Offered.number
  simp only [hartifact, hname, hsome]

/-- A file left out is left out when more files have errors. -/
theorem Since.leftOut (h : Since offered offered') {file : String} (hfile : LeftOut offered file) :
    LeftOut offered' file := by
  obtain ⟨last, hlast, hreaches⟩ := hfile
  induction hreaches using ReflTransGen.head_induction_on with
  | refl =>
      obtain ⟨o, ho, rfl, herrors⟩ := mem_broken.mp hlast
      obtain ⟨o', ho', hk⟩ := forall₂_of_mem h ho
      obtain ⟨hsame, _, _, hnil⟩ := hk.same
      exact ⟨_, mem_broken.mpr ⟨o', ho', hsame, fun he => herrors (hnil he)⟩, .refl⟩
  | head hreads _ ih =>
      obtain ⟨o, ho, rfl, hleading, name, hname, o₁, ho₁, rfl⟩ := hreads
      obtain ⟨o', ho', hk⟩ := forall₂_of_mem h ho
      obtain ⟨hsame, hnamed, _, _⟩ := hk.same
      by_cases hnil : o'.errors = []
      · -- it still leads on
        obtain ⟨o₁', ho₁'⟩ : ∃ o₁', Skipping.byName offered' name = some o₁' := by
          rw [← Option.isSome_iff_exists, byName_isSome, h.names, ← byName_isSome, ho₁]
          rfl
        obtain ⟨o₂, ho₂, hk₁⟩ := h.byName ho₁'
        cases ho₁.symm.trans ho₂
        obtain ⟨last, hlast, hreaches⟩ := ih
        refine ⟨last, hlast,
          .head ⟨o', ho', hsame, ⟨hnil, ?_, ?_⟩, name, ?_, o₁', ho₁', hk₁.same.1⟩ hreaches⟩
        · rw [hnamed]
          exact hleading.2.1
        · rw [Offered.id, hnamed]
          exact hleading.2.2
        · rw [h.beneath hk]
          exact hname
      · exact ⟨_, mem_broken.mpr ⟨o', ho', hsame, hnil⟩, .refl⟩

/-! ## What a file's links lead it to -/

/-- A link an artifact carries sits under a type lost, and its target is not held there or the link
does not land. -/
def LinksUnder (O : Outside) (t : Tables) (judged : List Offered) (landing : Draft) (a : Artifact)
    (type : ArtifactId) : Prop :=
  ∃ whole schema carried, conformed landing.corpus a = .ok whole ∧ whole.schema = .ok schema ∧
    Links.carried O landing.corpus a.checked schema = .ok carried ∧
    ∃ link ∈ carried, ∃ text locator, link.target = .scalar (.text text) ∧
    target text = .ok locator ∧
      SitsUnder t judged landing locator.id type ∧ (landing.holds locator.id = true →
        ∃ unlanded, Validation.unlanded O landing.corpus a.checked schema [] true [] =
          .ok unlanded ∧ link ∈ unlanded)

theorem LinksUnder.lost {judged : List Offered} {landing : Draft} {a : Artifact} {type : ArtifactId}
    (h : LinksUnder O t judged landing a type) : Lost t judged type := by
  obtain ⟨_, _, _, _, _, _, _, _, _, _, _, _, ⟨_, _, _, hlost, _⟩, _⟩ := h
  exact hlost

/-- A link with the type it leads its file to. -/
def ledBy (lost : List (ArtifactId × List String)) (landing : Draft) (link : Links.Carried) :
    Raises (Links.Carried × Option ArtifactId) :=
  do .ok (link, ← leadsTo link.target lost landing)

/-- The files that an artifact with no error waits for. -/
def WaitsFor (O : Outside) (lost : List (ArtifactId × List String)) (landing : Draft) (a : Artifact)
    (files : List String) : Prop :=
  ∃ each : Offered, each.errors = [] ∧ ∃ unlanded led others,
    links O landing each a = .ok unlanded ∧
    unlanded.mapM (ledBy lost landing) = .ok led ∧ lostUnder O a lost landing = .ok others ∧
    files = (Settled.once ((led.map Prod.snd).reduceOption ++ others)).flatMap fun type =>
      (Assoc.get lost type).getD []

theorem leadsTo_iff {value : Value} {lost : List (ArtifactId × List String)} {landing : Draft}
    {type : ArtifactId} :
    leadsTo value lost landing = .ok (some type) ↔
      ∃ text locator, value = .scalar (.text text) ∧ target text = .ok locator ∧
        Skipping.under locator.id lost landing = some type := by
  constructor
  · intro h
    unfold leadsTo at h
    split at h
    · next text =>
        split at h
        · cases h
        · next locator hlocator => exact ⟨text, locator, rfl, hlocator, Except.ok.inj h⟩
    · cases h
  · rintro ⟨text, locator, rfl, hlocator, hunder⟩
    unfold leadsTo
    simp only [hlocator, hunder]

theorem heldThere_eq {text : String} {locator : Locator} (h : target text = .ok locator)
    (landing : Draft) :
    heldThere (.scalar (.text text)) landing = .ok (landing.holds locator.id) := by
  unfold heldThere
  simp only [h]

/-- The links of a file with no error, whose artifact's type version is held. -/
theorem links_sound {landing : Draft} {each : Offered} {a whole : Artifact} {schema : Value}
    (hnil : each.errors = []) (hwhole : conformed landing.corpus a = .ok whole)
    (hschema : whole.schema = .ok schema) :
    links O landing each a = Validation.unlanded O landing.corpus a.checked schema [] true [] := by
  unfold links
  simp only [hwhole, hschema, hnil, List.isEmpty_nil, if_true, bind, Except.bind]

theorem unlanded_subset {corpus : Corpus} {content : Dict} {schema : Value} {waited : List Told}
    {imported : Bool} {errors : List SchemaError} {carried unlanded : List Links.Carried}
    (hcarried : Links.carried O corpus content schema = .ok carried)
    (h : Validation.unlanded O corpus content schema waited imported errors = .ok unlanded) :
    ∀ link ∈ unlanded, link ∈ carried := by
  obtain ⟨carried', hcarried', h⟩ := bind_ok.mp h
  cases hcarried.symm.trans hcarried'
  obtain ⟨read, _, h⟩ := bind_ok.mp h
  refine foldlM_keeps (I := fun found => ∀ link ∈ found, link ∈ carried) ?_
    (fun _ h => absurd h List.not_mem_nil) h
  rintro found ⟨link, told⟩ hmem found' hfound hstep
  obtain ⟨b, _, hstep⟩ := bind_ok.mp hstep
  cases b with
  | false =>
      cases hstep
      exact hfound
  | true =>
      cases hstep
      intro link' hlink'
      rcases List.mem_append.mp hlink' with hlink' | hlink'
      · exact hfound link' hlink'
      · rw [List.mem_singleton.mp hlink']
        exact (List.of_mem_zip hmem).1

/-- What an artifact with no error waits for: the version files of each type lost that it links
under. -/
theorem WaitsFor.mem {judged : List Offered} (hfiles : (judged.map Offered.file).Nodup)
    {landing : Draft} {a : Artifact} {files : List String}
    (h : WaitsFor O (lost t judged) landing a files) {file : String} :
    file ∈ files ↔ ∃ type, LinksUnder O t judged landing a type ∧
      file ∈ versionFiles judged type := by
  obtain ⟨each, hnil, unlanded, led, others, hunlanded, hled, hothers, rfl⟩ := h
  obtain ⟨whole, hwhole, hrest⟩ := bind_ok.mp hothers
  obtain ⟨schema, hschema, hrest⟩ := bind_ok.mp hrest
  obtain ⟨carried, hcarried, hrest⟩ := bind_ok.mp hrest
  obtain ⟨found, hfound, hrest⟩ := bind_ok.mp hrest
  cases hrest
  rw [links_sound hnil hwhole hschema] at hunlanded
  have hunder : ∀ type, type ∈ (led.map Prod.snd).reduceOption ++ found.reduceOption ↔
      LinksUnder O t judged landing a type := by
    intro type
    rw [List.mem_append, List.reduceOption_mem_iff, List.reduceOption_mem_iff, List.mem_map,
      mem_mapM hfound]
    constructor
    · rintro (⟨⟨link, _⟩, hmem, rfl⟩ | ⟨link, hlink, hstep⟩)
      · obtain ⟨link', hlink, hstep⟩ := (mem_mapM hled).mp hmem
        obtain ⟨type', hleads, heq⟩ := bind_ok.mp hstep
        cases heq
        obtain ⟨text, locator, htext, hlocator, hunder⟩ := leadsTo_iff.mp hleads
        exact ⟨whole, schema, carried, hwhole, hschema, hcarried, link,
          unlanded_subset hcarried hunlanded link hlink, text, locator,
          htext, hlocator, (under_iff hfiles).mp hunder, fun _ => ⟨unlanded, hunlanded, hlink⟩⟩
      · obtain ⟨held, hheld, hstep⟩ := bind_ok.mp hstep
        cases held with
        | true => cases hstep
        | false =>
            obtain ⟨text, locator, htext, hlocator, hunder⟩ := leadsTo_iff.mp hstep
            rw [htext, heldThere_eq hlocator] at hheld
            refine ⟨whole, schema, carried, hwhole, hschema, hcarried, link, hlink, text, locator,
              htext, hlocator,
              (under_iff hfiles).mp hunder, fun hholds => ?_⟩
            rw [hholds] at hheld
            cases hheld
    · rintro ⟨whole', schema', carried', hwhole', hschema', hcarried', link, hlink, text, locator,
        htext, hlocator, hsits, hheld⟩
      cases hwhole.symm.trans hwhole'
      cases hschema.symm.trans hschema'
      cases hcarried.symm.trans hcarried'
      have hleads : leadsTo link.target (lost t judged) landing = .ok (some type) :=
        leadsTo_iff.mpr ⟨text, locator, htext, hlocator, (under_iff hfiles).mpr hsits⟩
      cases hholds : landing.holds locator.id with
      | true =>
          obtain ⟨unlanded', hunlanded', hmem⟩ := hheld hholds
          cases hunlanded.symm.trans hunlanded'
          exact Or.inl ⟨(link, some type),
            (mem_mapM hled).mpr ⟨link, hmem, bind_ok.mpr ⟨_, hleads, rfl⟩⟩, rfl⟩
      | false =>
          refine Or.inr ⟨link, hlink, bind_ok.mpr ⟨false, ?_, hleads⟩⟩
          rw [htext, heldThere_eq hlocator, hholds]
  rw [List.mem_flatMap]
  constructor
  · rintro ⟨type, htype, hfile⟩
    refine ⟨type, (hunder type).mp (Settled.mem_once.mp htype), ?_⟩
    cases hget : Assoc.get (lost t judged) type with
    | none =>
        rw [hget] at hfile
        cases hfile
    | some files =>
        rw [hget] at hfile
        exact ((get_lost hfiles).mp hget).2 ▸ hfile
  · rintro ⟨type, hlinks, hfile⟩
    refine ⟨type, Settled.mem_once.mpr ((hunder type).mpr hlinks), ?_⟩
    rw [(get_lost hfiles).mpr ⟨hlinks.lost, rfl⟩]
    exact hfile

/-- The links of one file judged: what it waits for, when it has no error, is written for it. -/
theorem linksJudged_step {lost : List (ArtifactId × List String)} {landing : Draft} {name : Name}
    {a : Artifact} {rest : List (Name × Artifact)} {waiting : List (String × List String)}
    {out : List Offered × List (String × List String)} {each : Offered}
    (heach : byName offered name = some each)
    (h : linksJudged O lost landing ((name, a) :: rest) offered waiting = .ok out) :
    ∃ errors waiting', linksJudged O lost landing rest
      (adding offered each.file errors) waiting' = .ok out ∧
      (each.errors = [] → WaitsFor O lost landing a (ledTo waiting' each.file)) ∧
      ∀ file, file ≠ each.file → ledTo waiting' file = ledTo waiting file := by
  simp only [linksJudged] at h
  rw [heach] at h
  obtain ⟨unlanded, hunlanded, h⟩ := bind_ok.mp h
  obtain ⟨led, hled, h⟩ := bind_ok.mp h
  by_cases hnil : each.errors.isEmpty = true
  · rw [if_pos hnil] at h
    obtain ⟨others, hothers, h⟩ := bind_ok.mp h
    obtain ⟨waiting', hwaiting, h⟩ := bind_ok.mp h
    cases hwaiting
    refine ⟨_, _, h, fun hnil => ⟨each, hnil, unlanded, led, others, hunlanded, hled, hothers, ?_⟩,
      fun file hne => ?_⟩
    · rw [ledTo, Assoc.get_set_self]
      rfl
    · rw [ledTo, Assoc.get_set_ne _ _ hne]
      rfl
  · rw [if_neg hnil] at h
    exact ⟨_, waiting, h, fun he => absurd (List.isEmpty_iff.mpr he) hnil, fun _ _ => rfl⟩

/-- Once the links of the files read are judged, each left with no error waits for what its links
lead it to. -/
theorem linksJudged_waits {lost : List (ArtifactId × List String)} {landing : Draft}
    {read : List (Name × Artifact)} (hread : (read.map Prod.fst).Nodup)
    {offered linked : List Offered} {waiting waited : List (String × List String)}
    (hfiles : (offered.map Offered.file).Nodup)
    (h : linksJudged O lost landing read offered waiting = .ok (linked, waited)) {name : Name}
    {o : Offered} (ho : byName linked name = some o) (hnil : o.errors = []) :
    (∀ a, (name, a) ∈ read → WaitsFor O lost landing a (ledTo waited o.file)) ∧
      (name ∉ read.map Prod.fst → ledTo waited o.file = ledTo waiting o.file) := by
  induction read generalizing offered waiting with
  | nil =>
      cases h
      exact ⟨fun _ h => (by cases h), fun _ => rfl⟩
  | cons entry rest ih =>
      obtain ⟨name₁, a₁⟩ := entry
      obtain ⟨hnot, hrest⟩ := List.nodup_cons.mp hread
      obtain ⟨o₀, ho₀, hkeeps⟩ := (since_linksJudged h).byName ho
      obtain ⟨hfile, _, _, herrors⟩ := hkeeps.same
      cases heach : byName offered name₁ with
      | none =>
          simp only [linksJudged] at h
          rw [heach] at h
          obtain ⟨hin, hout⟩ := ih hrest hfiles h
          refine ⟨fun a ha => ?_, fun hnot => hout fun hmem => hnot (List.mem_cons_of_mem _ hmem)⟩
          rcases List.mem_cons.mp ha with heq | ha
          · cases heq
            rw [heach] at ho₀
            cases ho₀
          · exact hin a ha
      | some each =>
          obtain ⟨errors, waiting', h, hwaits, hother⟩ := linksJudged_step heach h
          obtain ⟨hin, hout⟩ := ih hrest ((since_adding offered each.file errors).files ▸ hfiles) h
          constructor
          · intro a ha
            rcases List.mem_cons.mp ha with heq | ha
            · cases heq
              cases heach.symm.trans ho₀
              rw [hout hnot, hfile]
              exact hwaits (herrors hnil)
            · exact hin a ha
          · intro hnot
            have hne : name ≠ name₁ := fun he => hnot (he ▸ List.mem_cons_self)
            rw [hout fun hmem => hnot (List.mem_cons_of_mem _ hmem)]
            refine hother _ fun he => hne ?_
            have hsame :=
              eq_of_file hfiles (mem_of_byName ho₀).1 (mem_of_byName heach).1 (hfile ▸ he)
            rw [hsame] at ho₀
            exact Option.some.inj ((mem_of_byName ho₀).2.symm.trans (mem_of_byName heach).2)

/-! ## The examination -/

/-- A file checked against its type, with its artifact as it would land. -/
def readFile (judged : List Offered) (found : List (Name × Artifact × List Fault))
    (each : Offered) : Option (Name × Artifact) :=
  match each.name, each.artifact with
  | some name, some a =>
      if isChecked judged each then some (name, ((Assoc.get found name).map Prod.fst).getD a)
        else none
  | _, _ => none

/-- The files checked against their type, in the order files are read in. -/
def readOf (judged : List Offered) (found : List (Name × Artifact × List Fault)) :
    List (Name × Artifact) :=
  (filesInOrder judged).filterMap (readFile judged found)

/-- An examination as far as the links: what each file's artifact would land as, and the files with
the faults found of each. -/
def Judged (O : Outside) (t : Tables) (offered : List Offered)
    (found : List (Name × Artifact × List Fault)) (files : List Offered) : Prop :=
  ∃ d placed, drafted O offered (draftOf t offered) = .ok (d, found) ∧
    places O t offered = .ok placed ∧
    judged O t d found placed (inOrder offered) offered = .ok files

theorem since_differing (differing linked : List Offered) :
    Since linked (differing.foldl (fun offered each =>
      adding offered each.file
        [FileRefusals.differs each.file ((each.id.map ArtifactId.iri).getD "")]) linked) := by
  induction differing generalizing linked with
  | nil => exact .refl _
  | cons each rest ih => exact (since_adding _ _ _).trans (ih _)

/-- The rest of an examination: the links judged, and the files that differ marked. -/
theorem examined_passes {all : List Offered} {report : Checked}
    (h : examined O t offered = .ok (all, report)) :
    ∃ found files linked waited, Judged O t offered found files ∧
      linksJudged O (lost t files) (landingOf t (readOf files found) files)
        (readOf files found) files [] = .ok (linked, waited) ∧
      Since offered files ∧ Since linked all ∧ report.skipped = skipped all waited := by
  unfold examined at h
  obtain ⟨⟨d, found⟩, hdrafted, h⟩ := bind_ok.mp h
  obtain ⟨placed, hplaced, h⟩ := bind_ok.mp h
  obtain ⟨files, hjudged, h⟩ := bind_ok.mp h
  obtain ⟨⟨linked, waited⟩, hlinked, h⟩ := bind_ok.mp h
  obtain ⟨⟨identical, differing⟩, _, h⟩ := bind_ok.mp h
  cases h
  exact ⟨found, files, linked, waited, ⟨d, placed, hdrafted, hplaced, hjudged⟩, hlinked,
    since_judged hjudged, since_differing _ _, rfl⟩

theorem readOf_nodup {files : List Offered} (hnames : (files.filterMap Offered.name).Nodup)
    (found : List (Name × Artifact × List Fault)) :
    ((readOf files found).map Prod.fst).Nodup := by
  unfold readOf filesInOrder
  rw [List.map_filterMap, List.filterMap_filterMap]
  have hnamed :
      ∀ {name n}, (byName files name).bind (fun each => (readFile files found each).map Prod.fst) =
      some n → n = name := by
    intro name n h
    obtain ⟨each, heach, h⟩ := Option.bind_eq_some_iff.mp h
    obtain ⟨⟨_, a⟩, hread, rfl⟩ := Option.map_eq_some_iff.mp h
    unfold readFile at hread
    rw [(mem_of_byName heach).2] at hread
    split at hread
    · next name' _ hname _ =>
        cases hname
        split at hread
        · cases hread
          rfl
        · cases hread
    · cases hread
  exact (inOrder_reads hnames).2.1.filterMap fun name name' n h h' =>
    (hnamed h).symm.trans (hnamed h')

/-- A file leads to the version files it is read through, and, when it was read, to those of each
type it links under, in what would land, that is lost by the errors of the files given. -/
inductive LeadsBy (O : Outside) (t : Tables) (read : List (Name × Artifact)) (landing : Draft)
    (judged all : List Offered) : String → String → Prop
  | reads {file under : String} : Reads all file under →
      LeadsBy O t read landing judged all file under
  | links {o o' : Offered} {name : Name} {a : Artifact} {type : ArtifactId} : o ∈ all → Leading o →
      o.name = some name → (name, a) ∈ read → LinksUnder O t judged landing a type →
      o' ∈ judged → o'.typed = true → o'.id = some type →
      LeadsBy O t read landing judged all o.file o'.file

/-- What files lead to by the errors of before their links were judged. -/
abbrev Leads (O : Outside) (t : Tables) (found : List (Name × Artifact × List Fault))
    (files all : List Offered) :
    String → String → Prop :=
  LeadsBy O t (readOf files found) (landingOf t (readOf files found) files) files all

/-- What files lead to by the errors they end with. -/
abbrev LeadsInTheEnd (O : Outside) (t : Tables) (found : List (Name × Artifact × List Fault))
    (files all : List Offered) : String → String → Prop :=
  LeadsBy O t (readOf files found) (landingOf t (readOf all found) all) all all

/-- A file that leads on may. -/
theorem LeadsBy.key {read : List (Name × Artifact)} {landing : Draft} {judged all : List Offered}
    {file under : String} (h : LeadsBy O t read landing judged all file under) :
    file ∈ Assoc.keys (through all) := by
  cases h with
  | reads hreads =>
      obtain ⟨o, ho, hfile, hleading, _⟩ := hreads
      exact mem_keys_through.mpr ⟨o, ho, hfile, hleading⟩
  | links ho hleading => exact mem_keys_through.mpr ⟨_, ho, rfl, hleading⟩

section

variable {found : List (Name × Artifact × List Fault)} {files linked all : List Offered}
  {waited : List (String × List String)}
  (hfiles : (files.map Offered.file).Nodup) (hnames : (files.filterMap Offered.name).Nodup)
  (hlinked : linksJudged O (lost t files) (landingOf t (readOf files found) files)
    (readOf files found) files [] = .ok (linked, waited))
  (hall : Since linked all)
include hfiles hnames hlinked hall

/-- What a file leads to with what it waits for. -/
theorem ledTo_iff {file under : String} : under ∈ ledTo (leadsWith all waited) file ↔
    Leads O t found files all file under := by
  have hsince : Since files all := (since_linksJudged hlinked).trans hall
  have hfilesAll : (all.map Offered.file).Nodup := hsince.files ▸ hfiles
  have hnamesAll : (all.filterMap Offered.name).Nodup := hsince.names ▸ hnames
  -- of a file that may lead on
  have hof : ∀ {o : Offered} {name : Name}, o ∈ all → Leading o → o.name = some name →
      (∀ a, (name, a) ∈ readOf files found →
        WaitsFor O (lost t files) (landingOf t (readOf files found) files) a
          (ledTo waited o.file)) ∧
      (name ∉ (readOf files found).map Prod.fst → ledTo waited o.file = []) := by
    intro o name ho hleading hname
    obtain ⟨o₁, ho₁, hkeeps⟩ := hall.byName (byName_of_mem hnamesAll ho hname)
    obtain ⟨hfile, _, _, herrors⟩ := hkeeps.same
    obtain ⟨hin, hout⟩ :=
      linksJudged_waits (readOf_nodup hnames found) hfiles hlinked ho₁ (herrors hleading.1)
    rw [hfile]
    exact ⟨hin, hout⟩
  rw [ledTo_leadsWith hfilesAll]
  constructor
  · rintro (hreads | ⟨hkey, hwaits⟩)
    · exact .reads hreads
    · obtain ⟨o, ho, rfl, hleading⟩ := mem_keys_through.mp hkey
      obtain ⟨name, hname⟩ := Option.isSome_iff_exists.mp hleading.2.1
      obtain ⟨hin, hout⟩ := hof ho hleading hname
      by_cases hread : name ∈ (readOf files found).map Prod.fst
      · obtain ⟨⟨_, a⟩, hmem, rfl⟩ := List.mem_map.mp hread
        obtain ⟨type, hlinks, hversion⟩ := ((hin a hmem).mem hfiles).mp hwaits
        obtain ⟨o', ho', htyped, hid, _, rfl⟩ := mem_versionFiles.mp hversion
        exact .links ho hleading hname hmem hlinks ho' htyped hid
      · rw [hout hread] at hwaits
        cases hwaits
  · rintro (hreads | ⟨ho, hleading, hname, hread, hlinks, ho', htyped, hid⟩)
    · exact Or.inl hreads
    · refine Or.inr ⟨mem_keys_through.mpr ⟨_, ho, rfl, hleading⟩, ?_⟩
      obtain ⟨_, hne, _⟩ := hlinks.lost
      exact (((hof ho hleading hname).1 _ hread).mem hfiles).mpr ⟨_, hlinks,
        mem_versionFiles.mpr ⟨_, ho', htyped, hid, hne, rfl⟩⟩

/-- What is led to may lead on, or is broken. -/
theorem closed_leadsWith {file under : String} (h : under ∈ ledTo (leadsWith all waited) file) :
    under ∈ Assoc.keys (leadsWith all waited) ++ broken all := by
  have hsince : Since files all := (since_linksJudged hlinked).trans hall
  rw [keys_leadsWith]
  cases (ledTo_iff hfiles hnames hlinked hall).mp h with
  | reads hreads =>
      have hfilesAll : (all.map Offered.file).Nodup := hsince.files ▸ hfiles
      exact closed_through hfilesAll ((ledTo_through hfilesAll).mpr hreads)
  | @links o o' name a type _ _ _ _ hlinks ho' htyped hid =>
      obtain ⟨o'', ho'', hkeeps⟩ := forall₂_of_mem hsince ho'
      obtain ⟨hfile, hname, _⟩ := hkeeps.same
      obtain ⟨_, hne, _⟩ := hlinks.lost
      obtain ⟨name', hname', htype⟩ := Option.map_eq_some_iff.mp hid
      rw [← hfile]
      refine leading_or_broken ho'' (by rw [hname, hname']; rfl) ?_
      rw [Offered.id, hname, hname']
      exact fun he => hne (htype.symm.trans (Option.some.inj he))

end

/-- How a file stands once a directory is examined. -/
inductive Standing where
  | broken | skipped | sound

/-- A file has an error, is among those that would be skipped, or neither. -/
def Stands (report : Checked) (o : Offered) : Standing → Prop
  | .broken => o.errors ≠ []
  | .skipped => o.file ∈ report.skipped.map Prod.fst
  | .sound => o.errors = [] ∧ o.file ∉ report.skipped.map Prod.fst

/-- What an examination says would be skipped. Each file stands one way alone. A file without an
error is skipped just where it leads to one with an error, and the chain told of it is a shortest,
with no error before its end. And whatever errors any files offered have, one of them is held back
just where the version files it is read through lead to another with an error, which no bound past
the number of files changes. -/
theorem examined_skips {all : List Offered} {report : Checked}
    (hfiles : (offered.map Offered.file).Nodup) (hnames : (offered.filterMap Offered.name).Nodup)
    (h : examined O t offered = .ok (all, report)) :
    (∃ found files, Judged O t offered found files ∧ Since files all ∧
      (∀ o ∈ all, ∃! s, Stands report o s) ∧
      (∀ o ∈ all, o.errors = [] → (Stands report o .skipped ↔
        ∃ last ∈ broken all, ReflTransGen (Leads O t found files all) o.file last)) ∧
      ∀ file c, (file, c) ∈ report.skipped → (∃ o ∈ all, o.file = file ∧ o.errors = []) ∧
        ∃ last ∈ broken all, Chains.Chain (Leads O t found files all) file last c ∧
        (∀ file' ∈ c.dropLast, file' ∉ broken all) ∧
          ∀ last' ∈ broken all, ∀ c', Chains.Chain (Leads O t found files all) file last' c' →
            c.length ≤ c'.length) ∧
    ∀ given : List Offered, (given.filterMap Offered.name).Nodup → ∀ each ∈ given,
      (heldBack given each = true ↔ ∃ under ∈ beneath given each, ∃ name,
        ReflTransGen (ReadThrough given) under name ∧
        each.name ≠ some name ∧ ∃ o, byName given name = some o ∧ o.errors ≠ []) ∧
      ∀ depth, given.length < depth → heldBackIn given depth [] each = heldBack given each := by
  constructor
  · obtain ⟨found, files, linked, waited, hjudged, hlinked, hsince, hall, hskipped⟩ :=
      examined_passes h
    have hfilesJ : (files.map Offered.file).Nodup := hsince.files ▸ hfiles
    have hnamesJ : (files.filterMap Offered.name).Nodup := hsince.names ▸ hnames
    have hsinceAll : Since files all := (since_linksJudged hlinked).trans hall
    have hfilesAll : (all.map Offered.file).Nodup := hsinceAll.files ▸ hfilesJ
    have hleads : (fun file under => under ∈ ledTo (leadsWith all waited) file) =
        Leads O t found files all := by
      funext file under
      exact propext (ledTo_iff hfilesJ hnamesJ hlinked hall)
    have hclosed : ∀ file under, under ∈ ledTo (leadsWith all waited) file →
        under ∈ Assoc.keys (leadsWith all waited) ++ broken all :=
      fun _ _ => closed_leadsWith hfilesJ hnamesJ hlinked hall
    have hunbroken : ∀ file, file ∈ Assoc.keys (through all) → file ∉ broken all := by
      intro file hkey hbroken
      obtain ⟨o, ho, rfl, hnil, _⟩ := mem_keys_through.mp hkey
      obtain ⟨o', ho', hfile, herrors⟩ := mem_broken.mp hbroken
      cases eq_of_file hfilesAll ho' ho hfile
      exact herrors hnil
    have hmem : ∀ file, file ∈ report.skipped.map Prod.fst ↔ file ∈ Assoc.keys (through all) ∧
        ∃ last ∈ broken all, ReflTransGen (Leads O t found files all) file last := by
      intro file
      rw [hskipped, ← hleads]
      constructor
      · intro hmem
        obtain ⟨⟨_, c⟩, htold, rfl⟩ := List.mem_map.mp hmem
        obtain ⟨hkey, hchain⟩ := mem_skipped.mp htold
        obtain ⟨last, hlast, hc, _⟩ := chain_shortest (hunbroken _ hkey) hchain
        exact ⟨hkey, last, hlast, hc.reaches⟩
      · rintro ⟨hkey, hreaches⟩
        have hsome :=
          (chain_isSome (hunbroken _ hkey) (by rw [keys_leadsWith]; exact hkey) hclosed).mpr
          hreaches
        obtain ⟨c, hc⟩ := Option.isSome_iff_exists.mp hsome
        exact List.mem_map.mpr ⟨(file, c), mem_skipped.mpr ⟨hkey, hc⟩, rfl⟩
    refine ⟨found, files, hjudged, hsinceAll, fun o ho => ?_, fun o ho hnil => ?_,
      fun file c hskip => ?_⟩
    · by_cases hnil : o.errors = []
      · by_cases hskip : o.file ∈ report.skipped.map Prod.fst
        · refine ⟨.skipped, hskip, ?_⟩
          rintro (_ | _ | _) hs
          · exact absurd hnil hs
          · rfl
          · exact absurd hskip hs.2
        · refine ⟨.sound, ⟨hnil, hskip⟩, ?_⟩
          rintro (_ | _ | _) hs
          · exact absurd hnil hs
          · exact absurd hs hskip
          · rfl
      · refine ⟨.broken, hnil, ?_⟩
        rintro (_ | _ | _) hs
        · rfl
        · exact absurd (mem_broken.mpr ⟨o, ho, rfl, hnil⟩) (hunbroken _ ((hmem _).mp hs).1)
        · exact absurd hs.1 hnil
    · show o.file ∈ report.skipped.map Prod.fst ↔ _
      rw [hmem]
      refine and_iff_right_of_imp ?_
      rintro ⟨last, hlast, hreaches⟩
      rcases ReflTransGen.cases_head hreaches with rfl | ⟨under, hunder, _⟩
      · -- a file with no error is not a broken one
        obtain ⟨o', ho', hfile, herrors⟩ := mem_broken.mp hlast
        cases eq_of_file hfilesAll ho' ho hfile
        exact absurd hnil herrors
      · exact hunder.key
    · rw [hskipped] at hskip
      obtain ⟨hkey, hchain⟩ := mem_skipped.mp hskip
      obtain ⟨o, ho, hfile, hnil, _⟩ := mem_keys_through.mp hkey
      rw [← hleads]
      exact ⟨⟨o, ho, hfile, hnil⟩, chain_shortest (hunbroken _ hkey) hchain⟩
  · intro given hgiven each heach
    refine ⟨heldBackIn_iff hgiven heach (Nat.lt_succ_self _), fun depth hdepth => ?_⟩
    rw [Bool.eq_iff_iff, heldBack, heldBackIn_iff hgiven heach hdepth,
      heldBackIn_iff hgiven heach (Nat.lt_succ_self _)]

/-! ## The types lost in the end -/

/-- A file with no error that links under a type lost leads to one with an error. -/
theorem LeadsBy.leftOut {read : List (Name × Artifact)} {landing : Draft}
    {judged all : List Offered} (h : Since judged all) {file under : String}
    (hlead : LeadsBy O t read landing judged all file under) :
    Reads all file under ∨ ∃ last ∈ broken all, ReflTransGen
      (LeadsBy O t read landing judged all) file last := by
  cases hlead with
  | reads hreads => exact Or.inl hreads
  | links ho hleading hname hread hlinks ho' htyped hid =>
      obtain ⟨_, _, _, hleft⟩ := hlinks.lost
      obtain ⟨last, hlast, hreaches⟩ := h.leftOut (hleft _ ho' htyped hid)
      exact Or.inr ⟨last, hlast, .head (.links ho hleading hname hread hlinks ho' htyped hid)
        (hreaches.lift id fun _ _ hreads => .reads hreads)⟩

/-- Where two relations lead what they do not both lead alike to a file with an error each, they
lead the same files to one. -/
theorem reaches_of_heeded {early late : String → String → Prop} {goal : List String}
    (h : ∀ file under, late file under → ¬ early file under → ∃ last ∈ goal,
      ReflTransGen early file last)
    {file last : String} (hlast : last ∈ goal) (hreaches : ReflTransGen late file last) :
    ∃ last ∈ goal, ReflTransGen early file last := by
  induction hreaches using ReflTransGen.head_induction_on with
  | refl => exact ⟨_, hlast, .refl⟩
  | @head file under hlead _ ih =>
      by_cases hearly : early file under
      · obtain ⟨last, hlast, hreaches⟩ := ih
        exact ⟨last, hlast, .head hearly hreaches⟩
      · exact h file under hlead hearly

/-- What a file's links lead it to by the errors files end with, and by those of before its links
were judged, but not by both, it need not be led to: by the others it leads to a file with an error
all the same. -/
structure Heeded (early late : String → String → Prop) (goal : List String) : Prop where
  skipped : ∀ file under, late file under → ¬ early file under → ∃ last ∈ goal,
    ReflTransGen early file last
  spared : ∀ file under, early file under → ¬ late file under → ∃ last ∈ goal,
    ReflTransGen late file last

/-- Skipping told by the types lost in the end. Each file stands one way alone. A file without an
error is skipped just where it leads, by the errors files end with, to one with an error, if and
only if no file is skipped, or spared, for a type lost in the end alone; where files lead alike in
the end and before, the chain told is a shortest, with no error before its end. And whatever errors
any files offered have, one of them is held back just where the version files it is read through
lead to another with an error, which no bound past the number of files changes. -/
theorem examined_heeds {all : List Offered} {report : Checked}
    (hfiles : (offered.map Offered.file).Nodup) (hnames : (offered.filterMap Offered.name).Nodup)
    (h : examined O t offered = .ok (all, report)) :
    (∃ found files, Judged O t offered found files ∧ Since files all ∧
      (∀ o ∈ all, ∃! s, Stands report o s) ∧
      ((∀ o ∈ all, o.errors = [] → (Stands report o .skipped ↔
          ∃ last ∈ broken all, ReflTransGen (LeadsInTheEnd O t found files all) o.file last)) ↔
        Heeded (Leads O t found files all) (LeadsInTheEnd O t found files all) (broken all)) ∧
      (Leads O t found files all = LeadsInTheEnd O t found files all →
        ∀ file c, (file, c) ∈ report.skipped →
        (∃ o ∈ all, o.file = file ∧ o.errors = []) ∧ ∃ last ∈ broken all,
          Chains.Chain (LeadsInTheEnd O t found files all) file last c ∧
          (∀ file' ∈ c.dropLast, file' ∉ broken all) ∧
          ∀ last' ∈ broken all, ∀ c',
            Chains.Chain (LeadsInTheEnd O t found files all) file last' c' →
              c.length ≤ c'.length)) ∧
    ∀ given : List Offered, (given.filterMap Offered.name).Nodup → ∀ each ∈ given,
      (heldBack given each = true ↔ ∃ under ∈ beneath given each, ∃ name,
        ReflTransGen (ReadThrough given) under name ∧
        each.name ≠ some name ∧ ∃ o, byName given name = some o ∧ o.errors ≠ []) ∧
      ∀ depth, given.length < depth → heldBackIn given depth [] each = heldBack given each := by
  obtain ⟨⟨found, files, hjudged, hsince, hstands, hskips, hchains⟩, hheld⟩ :=
    examined_skips hfiles hnames h
  refine ⟨⟨found, files, hjudged, hsince, hstands,
    ⟨fun hall => ⟨?_, ?_⟩, fun hheeded o ho hnil => ?_⟩, ?_⟩, hheld⟩
  · intro file under hlead hnot
    obtain ⟨o, ho, rfl, hleading⟩ := mem_keys_through.mp hlead.key
    refine (hskips o ho hleading.1).mp ((hall o ho hleading.1).mpr ?_)
    exact (hlead.leftOut (.refl _)).resolve_left fun hreads => hnot (.reads hreads)
  · intro file under hlead hnot
    obtain ⟨o, ho, rfl, hleading⟩ := mem_keys_through.mp hlead.key
    refine (hall o ho hleading.1).mp ((hskips o ho hleading.1).mpr ?_)
    exact (hlead.leftOut hsince).resolve_left fun hreads => hnot (.reads hreads)
  · rw [hskips o ho hnil]
    constructor
    · rintro ⟨last, hlast, hreaches⟩
      exact reaches_of_heeded hheeded.spared hlast hreaches
    · rintro ⟨last, hlast, hreaches⟩
      exact reaches_of_heeded hheeded.skipped hlast hreaches
  · intro hsame file c hskip
    rw [← hsame]
    exact hchains file c hskip

/-- The files of a directory, whose places are told apart, are told apart by the text of their
places and by their names. -/
theorem offered_distinct {directory : List File} (hplaces : (directory.map File.steps).Nodup)
    (hne : ∀ f ∈ directory, f.steps ≠ [])
    (hsteps : ∀ f ∈ directory, ∀ s ∈ f.steps, '/' ∉ s.toList) :
    ((Offers.offered O directory).map Offered.file).Nodup ∧
      ((Offers.offered O directory).filterMap Offered.name).Nodup := by
  have hread : ∀ f, (Offers.read O f).file = Names.placed f.steps ∧
      (Offers.read O f).name = Offers.filed f.steps := by
    intro f
    simp only [Offers.read]
    split
    · exact ⟨rfl, rfl⟩
    · split
      · exact ⟨rfl, rfl⟩
      · split
        · exact ⟨rfl, rfl⟩
        · exact ⟨rfl, rfl⟩
  -- a place is read back of its text
  have hback : ∀ f ∈ directory,
      ((Names.placed f.steps).toList.splitOn '/').map String.ofList = f.steps := by
    intro f hf
    have hself : String.ofList ∘ String.toList = id := funext fun _ => String.ofList_toList
    rw [Names.placed, String.toList_ofList,
      List.splitOn_intercalate '/' ?_ (List.map_eq_nil_iff.not.mpr (hne f hf)), List.map_map,
      hself, List.map_id]
    intro cs hcs
    obtain ⟨s, hs, rfl⟩ := List.mem_map.mp hcs
    exact hsteps f hf s hs
  unfold Offers.offered
  generalize hgiven : (directory.filter fun f => !Offers.passedOver f.steps).insertionSort
    (fun a b => a.steps ≤ b.steps) = given
  have hmem : ∀ f ∈ given, f ∈ directory := by
    intro f hf
    rw [← hgiven, List.mem_insertionSort] at hf
    exact List.mem_of_mem_filter hf
  have hnodup : (given.map File.steps).Nodup := by
    rw [← hgiven, ((List.perm_insertionSort _ _).map _).nodup_iff]
    exact hplaces.sublist (List.filter_sublist.map _)
  have hpairs : given.Pairwise fun f g => f ∈ directory ∧ g ∈ directory ∧ f.steps ≠ g.steps :=
    (List.pairwise_map.mp hnodup).imp_of_mem fun hf hg hne => ⟨hmem _ hf, hmem _ hg, hne⟩
  constructor
  · rw [List.map_map]
    refine List.pairwise_map.mpr (hpairs.imp ?_)
    rintro f g ⟨hf, hg, hsame⟩ heq
    have heq : Names.placed f.steps = Names.placed g.steps :=
      (hread f).1.symm.trans (heq.trans (hread g).1)
    rw [← hback f hf, ← hback g hg, heq] at hsame
    exact hsame rfl
  · rw [List.filterMap_map]
    refine List.pairwise_filterMap.mpr (hpairs.imp ?_)
    rintro f g ⟨hf, hg, hsame⟩ name hname _ hname' rfl
    have hfiled := Offers.place_filed ((hread f).2.symm.trans hname) (hsteps f hf)
    exact hsame
      (hfiled.symm.trans (Offers.place_filed ((hread g).2.symm.trans hname') (hsteps g hg)))

/-! ## A file that differs -/

namespace Differing

def base : ArtifactId := ⟨"https://kb.io/g", by decide⟩
def linking : ArtifactId := ⟨"https://kb.io/h", by decide⟩
def built : ArtifactId := ⟨"https://kb.io/i", by decide⟩
def note : ArtifactId := ⟨"https://kb.io/h/a", by decide⟩

/-- A field that links to artifacts of a type built on another. -/
def field : Value :=
  .map [(.text "ref",
    .map [(.text "targets", .list [.text "https://kb.io/i"]), (.text "cardinality", .text "one"),
    (.text "parts", .scalar (.bool false)), (.text "on_delete", .text "refuse")])]

def operations : List Operation :=
  [.create base Start.METASCHEMA_VERSION "G" [] { tree := .map [(.text "schema", .map [])] } [],
   .create linking Start.METASCHEMA_VERSION "H" []
     { tree := .map [(.text "schema", .map [(.text "properties", .map [(.text "next", field)])])] }
     []]

/-- An artifact that links under the type. -/
def noted : Artifact :=
  ⟨note, ⟨linking, 1, Nat.one_pos, by decide⟩, 1, "A", [(.text "next", .text "https://kb.io/i/x")]⟩

/-- The base under another title, the type built on it, and the artifact. -/
def filed : List (String × Artifact) :=
  [("g", ⟨base, Start.METASCHEMA_VERSION, 1, "Another",
    [(.text "version", .scalar (.int 1)), (.text "schema", .map [])]⟩),
   ("i", ⟨built, Start.METASCHEMA_VERSION, 1, "I",
      [(.text "version", .scalar (.int 1)),
        (.text "schema", .map [(.text "$ref", .text "kb:https://kb.io/g@1")])]⟩),
   ("a", noted)]

/-- The sample's outside, where the texts of three files are those of the artifacts. -/
def outside : Outside :=
  { Sample.outside with
    load := fun text => ((Assoc.get filed text).map fun a => Value.map a.whole).elim
      (.error "not read") .ok
    dump := fun entries => ((filed.find? fun e => e.2.whole = entries).map Prod.fst).elim
      (Sample.outside.dump entries) .ok }

def store : Tables := Sample.storeWith outside operations

def directory : List File :=
  [⟨["kb.io", "g@1.yaml"], .ok "g"⟩, ⟨["kb.io", "h", "a.yaml"], .ok "a"⟩,
    ⟨["kb.io", "i@1.yaml"], .ok "i"⟩]

def given : List Offered := Offers.offered outside directory

/-- The files examined, and the report. -/
def examination : List Offered × Checked := (examined outside store given).toOption.getD ([], {})

/-- What each file's artifact would land as, and the files before their links are judged. -/
def passes : Raises (List (Name × Artifact × List Fault) × List Offered) := do
  let (d, found) ← drafted outside given (draftOf store given)
  let placed ← places outside store given
  .ok (found, ← judged outside store d found placed (inOrder given) given)

def landings : List (Name × Artifact × List Fault) := (passes.toOption.map Prod.fst).getD []

def before : List Offered := (passes.toOption.map Prod.snd).getD []

/-- The store with the files that would land by the errors at the end. -/
def standing : Draft := landingOf store (readOf examination.1 landings) examination.1

theorem ran : (Sample.ranWith outside operations).isSome = true ∧
    (examined outside store given).toOption.isSome = true ∧
    passes.toOption.isSome = true ∧
    examination.2.skipped = [("kb.io/i@1.yaml", ["kb.io/i@1.yaml", "kb.io/g@1.yaml"])] ∧
    (∃ o ∈ examination.1, o.file = "kb.io/h/a.yaml" ∧ o.name = some (.whole note) ∧
      o.errors.isEmpty = true) ∧
    broken examination.1 = ["kb.io/g@1.yaml"] ∧ "kb.io/g@1.yaml" ∈ ledTo
      (through examination.1) "kb.io/i@1.yaml" := by
  decide +kernel

/-- What the artifact's link leads it to, by the errors at the end. -/
theorem waits : (Name.whole note, noted) ∈ readOf before landings ∧
    (links outside standing { file := "", name := none } noted >>= fun found =>
      found.mapM (ledBy (lost store examination.1) standing)).toOption.map (List.map Prod.snd) =
        some [some built] ∧
    (lostUnder outside noted (lost store examination.1) standing).toOption = some [built] ∧
    (Assoc.get (lost store examination.1) built) = some ["kb.io/i@1.yaml"] := by
  decide +kernel

theorem examined_eq : examined outside store given = .ok (examination.1, examination.2) := by
  obtain ⟨out, hout⟩ := Option.isSome_iff_exists.mp ran.2.1
  rw [examination, hout]
  exact Sample.toOption_some hout

theorem judged_eq : Judged outside store given landings before := by
  obtain ⟨⟨found, files⟩, hout⟩ := Option.isSome_iff_exists.mp ran.2.2.1
  obtain ⟨⟨d, found'⟩, hdrafted, hrest⟩ := bind_ok.mp (Sample.toOption_some hout)
  obtain ⟨placed, hplaced, hrest⟩ := bind_ok.mp hrest
  obtain ⟨files', hjudged, heq⟩ := bind_ok.mp hrest
  cases heq
  rw [landings, before, hout]
  exact ⟨d, placed, hdrafted, hplaced, hjudged⟩

theorem distinct : (given.map Offered.file).Nodup ∧ (given.filterMap Offered.name).Nodup :=
  offered_distinct (by decide) (by decide) (by decide)

end Differing

open Differing in
/-- By the errors at the end, the artifact leads to the file that differs, and it is not skipped. -/
theorem differing_unheeded : (∃ states, Run outside states ∧ store ∈ states) ∧
    ∃ all report found files, examined outside store (Offers.offered outside directory) =
      .ok (all, report) ∧
      Judged outside store (Offers.offered outside directory) found files ∧
      ∃ o ∈ all, o.errors = [] ∧ ¬ Stands report o .skipped ∧
        ∃ last ∈ broken all, ReflTransGen
          (LeadsInTheEnd outside store found files all) o.file last := by
  obtain ⟨hran, _, _, hskipped, ⟨o, ho, hfile, hname, hnil⟩, hbroken, hunder⟩ := ran
  obtain ⟨hread, hled, hothers, hlost⟩ := waits
  have hsince : Since given examination.1 := by
    obtain ⟨_, _, _, _, _, hlinked, hsince, hall, _⟩ := examined_passes examined_eq
    exact (hsince.trans (since_linksJudged hlinked)).trans hall
  have hfiles : (examination.1.map Offered.file).Nodup := hsince.files ▸ distinct.1
  have hwaits : WaitsFor outside (lost store examination.1) standing noted ["kb.io/i@1.yaml"] := by
    obtain ⟨led, hled, htypes⟩ := Option.map_eq_some_iff.mp hled
    obtain ⟨unlanded, hunlanded, hled⟩ := bind_ok.mp (Sample.toOption_some hled)
    have honce : Settled.once (([some built] : List (Option ArtifactId)).reduceOption ++ [built]) =
      [built] := by decide
    refine ⟨_, rfl, unlanded, led, _, hunlanded, hled, Sample.toOption_some hothers, ?_⟩
    rw [htypes, honce, List.flatMap_singleton, hlost]
    rfl
  obtain ⟨type, hlinks, hversion⟩ := (hwaits.mem hfiles).mp List.mem_cons_self
  obtain ⟨o', ho', htyped, hid, _, hfile'⟩ := mem_versionFiles.mp hversion
  have hnil : o.errors = [] := List.isEmpty_iff.mp hnil
  have hleading : Leading o := by
    refine ⟨hnil, by rw [hname]; rfl, ?_⟩
    rw [Offered.id, hname]
    decide
  refine ⟨Sample.storeWith_run (by decide) hran, examination.1, examination.2, landings, before,
    examined_eq, judged_eq, o, ho, hnil, ?_, "kb.io/g@1.yaml", ?_, ?_⟩
  · show o.file ∉ examination.2.skipped.map Prod.fst
    rw [hskipped, hfile]
    decide
  · rw [hbroken]
    exact List.mem_cons_self
  · refine .head (.links ho hleading hname hread hlinks ho' htyped hid) ?_
    rw [hfile']
    exact .single (.reads ((ledTo_through hfiles).mp hunder))

open Differing in
/-- Where a file differs, and an artifact links under a type built on it, what is skipped is not
what leads in the end to a file with an error: the artifact is spared. -/
theorem examined_heeds_differing : ∃ all report, examined outside store given = .ok (all, report) ∧
    (∀ o ∈ all, ∃! s, Stands report o s) ∧ ∃ found files, Judged outside store given found files ∧
      ((∀ o ∈ all, o.errors = [] → (Stands report o .skipped ↔
          ∃ last ∈ broken all, ReflTransGen
            (LeadsInTheEnd outside store found files all) o.file last)) ↔
        Heeded (Leads outside store found files all) (LeadsInTheEnd outside store found files all)
          (broken all)) := by
  obtain ⟨⟨found, files, hjudged, _, hstands, hheeds, _⟩, _⟩ :=
    examined_heeds distinct.1 distinct.2 examined_eq
  exact ⟨_, _, examined_eq, hstands, found, files, hjudged, hheeds⟩

end Kb.Importing
