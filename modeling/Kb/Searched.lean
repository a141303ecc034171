/-
# `Kb.Searched` — what the rows find is what a scan finds, and where it is not

A search asks the rows which artifacts to scan, and scans those; so it gives what a scan of
everything held gives just when no artifact a scan finds is left out by the rows.  The rows of an
artifact are the folded words of its texts in every store of every run (`Run.derived`), and a match
across letters that words are made of is a whole word, which the rows keep folded.  A match across a
letter that no word is made of is none: ignoring case `re` takes the combining iota below a letter
for the letter iota, and no word holds it.  Such an artifact is found only for another word of it.
-/
import Kb.Composed
import Kb.Derived
import Kb.Ordered
import Kb.Search
import Mathlib.Data.List.Sort
import Mathlib.Data.String.Basic

namespace Kb

open Landing Raising

/-! ## Names in order -/

namespace Names

/-- An IRI is told by what it is compared by. -/
theorem order_inj {s t : String} (hs : iri s = true) (ht : iri t = true) (h : order s = order t) :
    s = t := by
  have hpieces : ∀ {text : String}, iri text = true → ∃ host front last,
      pieces text = host :: (front ++ [last]) ∧
      order text = (host :: front).map String.ofList ++
          [String.ofList last ++ String.ofList FILE] := by
    intro text htext
    obtain ⟨_, _, hlength, _⟩ := iri_iff.mp htext
    cases hp : pieces text with
    | nil =>
        rw [hp] at hlength
        simp at hlength
    | cons host segments =>
        have hne : segments ≠ [] := by
          rintro rfl
          rw [hp] at hlength
          simp at hlength
        refine ⟨host, segments.dropLast, segments.getLast hne, by
          rw [List.dropLast_append_getLast], ?_⟩
        unfold order place split
        simp [hp, List.getLast?_eq_some_getLast hne, List.getLastD_eq_getLast?]
  obtain ⟨host, front, last, hps, hos⟩ := hpieces hs
  obtain ⟨host', front', last', hpt, hot⟩ := hpieces ht
  rw [hos, hot] at h
  obtain ⟨hfront, hlast⟩ := List.append_inj' h rfl
  have hfront := List.map_injective_iff.mpr (fun _ _ => String.ofList_inj.mp) hfront
  have hlast : last = last' := by
    have hlast := congrArg String.toList (List.singleton_inj.mp hlast)
    simpa using hlast
  rw [← address_pieces hs, ← address_pieces ht, hps, hpt, hlast]
  obtain ⟨rfl, rfl⟩ := List.cons_eq_cons.mp hfront
  rfl

end Names

instance : Std.Total inOrder := ⟨fun a b => le_total (Names.order a.iri) (Names.order b.iri)⟩
instance : IsTrans ArtifactId inOrder := ⟨fun a _ _ => le_trans (a := Names.order a.iri)⟩
instance : Std.Antisymm inOrder :=
  ⟨fun a b hab hba => ArtifactId.ext' (Names.order_inj a.grammar b.grammar (le_antisymm hab hba))⟩

/-! ## One row for an artifact -/

/-- A store holds one row of an artifact. -/
def Tables.Single (t : Tables) : Prop := (t.artifacts.map ArtifactRow.id).Nodup

theorem Tables.Single.wrote {t : Tables} (h : t.Single) (landed step : Nat) (c : Change) :
    (t.wrote landed step c).Single := by
  show (((t.artifacts.filter fun r => r.id ≠ c.artifact) ++ rowOf c).map ArtifactRow.id).Nodup
  have hrow : (rowOf c).map ArtifactRow.id = [] ∨ (rowOf c).map ArtifactRow.id = [c.artifact] := by
    unfold rowOf
    rcases c.content with _ | a
    · exact Or.inl rfl
    rcases c.kind with _ | kind
    · exact Or.inl rfl
    · exact Or.inr rfl
  have hkept : ((t.artifacts.filter fun r => r.id ≠ c.artifact).map ArtifactRow.id).Nodup :=
    h.sublist (List.filter_sublist.map _)
  rw [List.map_append]
  rcases hrow with hrow | hrow
  · rw [hrow, List.append_nil]
    exact hkept
  · rw [hrow, List.nodup_append]
    refine ⟨hkept, List.nodup_singleton _, ?_⟩
    intro id hid other hother
    obtain ⟨r, hr, rfl⟩ := List.mem_map.mp hid
    rw [List.mem_singleton.mp hother]
    simpa using (List.mem_filter.mp hr).2

theorem Run.single {O : Outside} {states : List Tables} (h : Run O states) :
    ∀ t ∈ states, t.Single :=
  h.kept List.nodup_nil (fun _ _ _ _ ht => ht) fun _ landed step c ht => ht.wrote landed step c

/-! ## What an artifact is read for, and the rows of it -/

namespace Search

variable {O : Outside} {U : Unicode}

/-- The row of one text of an artifact. -/
def Passage.row (O : Outside) (what : String) (label : Passage → String) (p : Passage) : Found :=
  ⟨what, label p, O.words p.text⟩

theorem go_eq (depth : Nat) (sections : List Value) :
    searchable.go O depth sections = (bodies depth sections).map
      (List.map (Passage.row O "section" fun p => p.section_.str)) := by
  induction depth generalizing sections with
  | zero => rfl
  | succ depth ih =>
      rw [searchable.go, bodies]
      refine mapM_flatten (fun s => ?_) sections
      cases s.at_ "title" with
      | error _ => rfl
      | ok title =>
          cases s.at_ "body" with
          | error _ => rfl
          | ok body =>
              rcases body with sc | _ | _
              · cases sc with
                | text body =>
                    cases s.get "sections" (.list []) with
                    | error _ => rfl
                    | ok inner =>
                        show (inner.iter >>= fun vs => searchable.go O depth vs >>= fun inside =>
                          .ok (_ :: inside)) =
                          (inner.iter >>= fun vs => bodies depth vs >>= fun inside =>
                            .ok (_ :: inside)).map _
                        cases inner.iter with
                        | error _ => rfl
                        | ok vs =>
                            show (searchable.go O depth vs >>= fun inside => .ok (_ :: inside)) =
                              (bodies depth vs >>= fun inside => .ok (_ :: inside)).map _
                            rw [ih vs]
                            cases bodies depth vs <;> rfl
                | _ => rfl
              · rfl
              · rfl

theorem fields_eq (a : Artifact) :
    ((.text "title", .text a.title) :: a.content.filter (fun e => e.1 ≠ Settled.SECTIONS)).filterMap
      (fun (name, value) =>
      match value with
      | .scalar (.text t) => some (⟨"field", name.str, O.words t⟩ : Found)
      | _ => none) = (fields a).map (Passage.row O "field" fun p => p.field.str) := by
  rw [fields, List.map_filterMap]
  refine List.filterMap_congr fun e _ => ?_
  obtain ⟨name, value⟩ := e
  rcases value with sc | _ | _
  · cases sc <;> rfl
  · rfl
  · rfl

/-- The rows of an artifact that has any: one for each text of it. -/
theorem searchable_ok {a : Artifact} {found : List Found} (h : searchable O a = .ok found) :
    ∃ vs sections, ((a.get? "sections").getD (.list [])).iter = .ok vs ∧
      bodies O.depth vs = .ok sections ∧
      found = sections.map (Passage.row O "section" fun p => p.section_.str)
        ++ (fields a).map (Passage.row O "field" fun p => p.field.str) := by
  obtain ⟨vs, hvs, h⟩ := bind_ok.mp h
  obtain ⟨rows, hrows, h⟩ := bind_ok.mp h
  rw [go_eq, map_ok] at hrows
  obtain ⟨sections, hsections, rfl⟩ := hrows
  refine ⟨vs, sections, hvs, hsections, ?_⟩
  rw [← fields_eq]
  exact (Except.ok.inj h).symm

/-- Whether a row is asked for, by what it is of. -/
def scope (asked : Searching) (what : String) : Bool :=
  what = "section" && asked.sections || what = "field" && asked.fields

/-- The texts an artifact is read for, as asked, are those its rows asked for are of. -/
theorem passages_ok {a : Artifact} {found : List Found} (h : searchable O a = .ok found)
    (asked : Searching) :
    ∃ ps, passages O asked a = .ok ps ∧
      ∀ words, (∃ f ∈ found, scope asked f.what = true ∧ f.words = words) ↔
        ∃ p ∈ ps, O.words p.text = words := by
  obtain ⟨vs, sections, hvs, hsections, rfl⟩ := searchable_ok h
  refine ⟨(if asked.sections then sections else []) ++ if asked.fields then fields a
    else [], ?_, fun words => ?_⟩
  · unfold passages
    cases asked.sections with
    | true => exact bind_ok.mpr ⟨vs, hvs, bind_ok.mpr ⟨sections, hsections, rfl⟩⟩
    | false => rfl
  · simp only [List.mem_append, List.mem_map]
    constructor
    · rintro ⟨f, ⟨p, hp, rfl⟩ | ⟨p, hp, rfl⟩, hscope, hwords⟩
      · have hscope : asked.sections = true := by simpa [scope, Passage.row] using hscope
        exact ⟨p, Or.inl (by rw [if_pos hscope]; exact hp), hwords⟩
      · have hscope : asked.fields = true := by simpa [scope, Passage.row] using hscope
        exact ⟨p, Or.inr (by rw [if_pos hscope]; exact hp), hwords⟩
    · rintro ⟨p, hp | hp, hwords⟩
      · split at hp
        · next hscope =>
            exact ⟨_, Or.inl ⟨p, hp, rfl⟩, by simp [scope, Passage.row, hscope], hwords⟩
        · nomatch hp
      · split at hp
        · next hscope =>
            exact ⟨_, Or.inr ⟨p, hp, rfl⟩, by simp [scope, Passage.row, hscope], hwords⟩
        · nomatch hp

theorem finditer_nil (U : Unicode) (text : String) : finditer U [] text = [] := by
  have hscan : ∀ (text : List Char) before at_,
      Words.scan U.word U.alike [] 0 before at_ text = [] := by
    intro text
    induction text with
    | nil => exact fun _ _ => rfl
    | cons c text ih => exact fun _ _ => ih _ _
  exact hscan _ _ _

end Search

/-! ## What a search is answered from -/

/-- What is taken of Unicode and FTS5: a row keeps a text's folded words; two words alike letter by
letter fold alike; and a row is found by a folded word just when it keeps it. -/
structure Unicode.Agrees (O : Outside) (U : Unicode) : Prop where
  row : ∀ text, O.words text = Search.row U text
  alike : ∀ v w : List Char, (∀ c ∈ v, U.word c = true) → (∀ c ∈ w, U.word c = true) →
    List.Forall₂ (fun a b => U.alike a b = true) v w →
    Search.folded U (String.ofList v) = Search.folded U (String.ofList w)
  matched : ∀ text query, ∀ term ∈ Search.terms U query,
    (U.matched (Search.row U text) term = true ↔ term ∈ Search.tokens U text)

namespace Query

open Search

variable (O : Outside) (U : Unicode) (t : Tables) (asked : Searching)

/-- Whether an artifact is of the kind asked for. -/
def ofKind (a : Artifact) : Bool := asked.kind.all (a.kind = ·)

/-- What is held of the kind asked for, in the order of names. -/
def held : List ArtifactId :=
  match asked.kind with
  | some kind => t.ids kind
  | none => t.allIds

/-- A scan of every artifact held, of the kind asked for, in the order of names. -/
def scanned : Raises (List Hit) :=
  rank O U ((held t asked).filterMap t.artifact) asked

/-- A word searched for is matched in a text. -/
def Matches (text : String) : Prop := finditer U (words U asked.text) text ≠ []

/-- A word searched for is matched in a text across a letter that no word is made of. -/
def Strays (text : String) : Prop :=
  ∃ stretch,
    Words.Across U.word U.alike ((words U asked.text).map String.toList) none text.toList stretch ∧
    ∃ c ∈ stretch, U.word c = false

/-- A text holds a whole word that folds like a word searched for. -/
def Holds (text : String) : Prop := ∃ term ∈ terms U asked.text, term ∈ tokens U text

/-- What is given for a text a scan finds: the text as it was found, with a stub of its artifact. -/
def GivenFor (h : Hit) (m : Match) : Prop :=
  Read.brief O t h.artifact = .ok m.stub ∧ h.section_.asField = .ok m.section_ ∧
    h.field.asField = .ok m.field
    ∧ m.snippet = h.snippet

/-- A search gives what a scan of everything held gives, in its order. -/
def Gives : Prop :=
  ∃ given hits, found O U t asked = .ok given ∧ scanned O U t asked = .ok hits ∧
    List.Forall₂ (GivenFor O t) hits given

/-- An artifact can be shown in brief: the version of its type it conforms to is kept, and what that
declares can be read; the fields it declares shown at a glance are named by scalars; and what the
artifact holds of them can be written. -/
structure Brief (a : Artifact) : Prop where
  version : ∃ made schema,
    Composition.kept t.corpus (typeOf a.type.kind) a.type.number = some made ∧
    made.content.schema = .ok schema ∧ Composition.Declares O t.corpus schema ∧
    (∀ part, Relation.ReflTransGen (Composition.RestsOn t.corpus) schema part →
      ∀ names, Composition.enlisted "summary" part = .ok names → ∀ name ∈ names, ∃ s,
        name = .scalar s) ∧
    ∀ whole shown, Composition.declared O t.corpus schema = .ok whole →
      Read.summaryFields a whole = .ok shown →
      ∃ text, O.dump shown = .ok text

/-- A search can be answered: the kind asked for is a held type's; what a word is matched in can be
shown in brief, by a section's title or a field's name that is text or none; and what a word is
matched in only across a letter no word is made of holds, in what is asked of it, a whole word that
folds like one searched for. -/
structure Answerable : Prop where
  kind : ∀ kind, asked.kind = some kind → t.corpus.typedAt (typeOf kind) = true
  shown : ∀ id a ps, t.artifact id = some a → ofKind asked a = true → passages O asked a = .ok ps →
    (∃ p ∈ ps, Matches U asked p.text) → Brief O t a
  named : ∀ id a ps, t.artifact id = some a → ofKind asked a = true → passages O asked a = .ok ps →
    ∀ p ∈ ps, Matches U asked p.text →
      (∃ section_, p.section_.asField = .ok section_) ∧ ∃ field, p.field.asField = .ok field
  kept : ∀ id a ps, t.artifact id = some a → ofKind asked a = true → passages O asked a = .ok ps →
    (∃ p ∈ ps, Strays U asked p.text) → ∃ p ∈ ps, Holds U asked p.text

variable {O U t asked}

/-- A held artifact is shown in brief just where the version of its type, and what it holds, let
it. -/
theorem brief_returns {id : ArtifactId} {a : Artifact} (ha : t.artifact id = some a) :
    (∃ stub, Read.brief O t id = .ok stub) ↔ Brief O t a := by
  unfold Read.brief
  rw [ha]
  constructor
  · rintro ⟨stub, h⟩
    obtain ⟨whole, hof, h⟩ := bind_ok.mp h
    obtain ⟨shown, hshown, h⟩ := bind_ok.mp h
    obtain ⟨made, hmade, hread⟩ := bind_ok.mp hof
    obtain ⟨schema, hschema, hwhole⟩ := bind_ok.mp hread
    obtain ⟨names, hnames, _⟩ := bind_ok.mp hshown
    obtain ⟨v, hv, rfl⟩ := Composition.conformed_ok.mp hmade
    refine ⟨v, schema, hv, hschema, Composition.declared_returns.mp ⟨whole, hwhole⟩,
      fun part hpart ns hns name hname => ?_,
      fun whole' shown' hwhole' hshown' => ?_⟩
    · exact Settled.scalars_returns.mp ⟨names, hnames⟩ name
        ((Composition.mem_summary hwhole name).mpr ⟨part, hpart, ns, hns, hname⟩)
    · cases hwhole.symm.trans hwhole'
      cases hshown.symm.trans hshown'
      cases hdump : O.dump shown with
      | error e =>
          rw [hdump] at h
          cases h
      | ok text => exact ⟨text, rfl⟩
  · rintro ⟨v, schema, hv, hschema, hdeclares, hnames, hdump⟩
    obtain ⟨whole, hwhole⟩ := Composition.declared_returns.mpr hdeclares
    obtain ⟨names, hscalars⟩ := Settled.scalars_returns.mpr fun name hname =>
      let ⟨part, hpart, ns, hns, hname⟩ := (Composition.mem_summary hwhole name).mp hname
      hnames part hpart ns hns name hname
    obtain ⟨shown, hshown⟩ : ∃ shown, Read.summaryFields a whole = .ok shown :=
      ⟨_, bind_ok.mpr ⟨names, hscalars, rfl⟩⟩
    obtain ⟨text, htext⟩ := hdump whole shown hwhole hshown
    have hconformed : Composition.conformed t.corpus a = .ok v.content :=
      Composition.conformed_ok.mpr ⟨v, hv, rfl⟩
    refine ⟨{ id := id, type := a.type.str, title := a.title, fields := text }, bind_ok.mpr ⟨whole,
      bind_ok.mpr ⟨v.content, hconformed, bind_ok.mpr ⟨schema, hschema, hwhole⟩⟩,
        bind_ok.mpr ⟨shown, hshown, ?_⟩⟩⟩
    rw [htext]

theorem words_ne_nil {w : List Char} (h : w ∈ (words U asked.text).map String.toList) :
    w ≠ [] ∧ ∀ c ∈ w, U.word c = true := by
  obtain ⟨word, hword, rfl⟩ := List.mem_map.mp h
  obtain ⟨w, hw, rfl⟩ := List.mem_map.mp hword
  rw [String.toList_ofList]
  exact ⟨Words.of_mem_wholes hw, Words.word_of_mem_wholes hw⟩

theorem matches_iff {text : String} :
    Matches U asked text ↔ ∃ stretch, Words.Across U.word U.alike
      ((words U asked.text).map String.toList) none text.toList stretch :=
  Words.scan_ne_nil (fun _ hw => (words_ne_nil hw).1) none 0 text.toList

/-- A text in which a word is matched holds the word folded, or the match strays. -/
theorem holds_or_strays (hU : U.Agrees O) {text : String} (h : Matches U asked text) :
    Holds U asked text ∨ Strays U asked text := by
  obtain ⟨stretch, hacross⟩ := matches_iff.mp h
  by_cases hstretch : ∀ c ∈ stretch, U.word c = true
  · left
    have hwhole := hacross.whole (fun _ hw => (words_ne_nil hw).1) hstretch
    obtain ⟨w, hw, _, _, _, halike, _⟩ := hacross
    refine ⟨folded U (String.ofList w), ?_, ?_⟩
    · obtain ⟨word, hword, rfl⟩ := List.mem_map.mp hw
      rw [String.ofList_toList]
      exact List.mem_map_of_mem hword
    · rw [hU.alike w stretch (words_ne_nil hw).2 hstretch halike]
      exact List.mem_map_of_mem (List.mem_map_of_mem hwhole)
  · right
    obtain ⟨c, hc, hword⟩ : ∃ c ∈ stretch, U.word c ≠ true := by simpa using hstretch
    exact ⟨stretch, hacross, c, hc, by simpa using hword⟩

theorem Strays.matches {text : String} (h : Strays U asked text) : Matches U asked text := by
  obtain ⟨stretch, hacross, _⟩ := h
  exact matches_iff.mpr ⟨stretch, hacross⟩

/-! ## What is held and read -/

theorem mem_held (hsound : t.Sound) (hsingle : t.Single) {id : ArtifactId} :
    id ∈ held t asked ↔ ∃ a, t.artifact id = some a ∧ ofKind asked a = true := by
  have hrow : ∀ r ∈ t.artifacts, t.artifact r.id = some r.content ∧ r.content.kind = r.kind := by
    intro r hr
    refine ⟨?_, (hsound.rows r hr).2.2⟩
    have hfirst : t.row? r.id = some r := by
      cases hfind : t.row? r.id with
      | none => simpa using List.find?_eq_none.mp hfind r hr
      | some r' =>
          obtain ⟨hmem, hid⟩ := Tables.mem_of_row? hfind
          rw [List.inj_on_of_nodup_map hsingle hmem hr hid]
    show (t.row? r.id).map ArtifactRow.content = _
    rw [hfirst]
    rfl
  constructor
  · intro h
    obtain ⟨r, hr, rfl, hkind⟩ : ∃ r ∈ t.artifacts, r.id = id ∧
        asked.kind.all (r.kind = ·) = true := by
      unfold held at h
      cases hkind : asked.kind with
      | none =>
          rw [hkind, Tables.allIds, List.mem_insertionSort] at h
          obtain ⟨r, hr, rfl⟩ := List.mem_map.mp h
          exact ⟨r, hr, rfl, rfl⟩
      | some kind =>
          have h : id ∈ t.ids kind := by rwa [hkind] at h
          rw [Tables.ids, List.mem_insertionSort] at h
          obtain ⟨r, hr, rfl⟩ := List.mem_map.mp h
          exact ⟨r, (List.mem_filter.mp hr).1, rfl, (List.mem_filter.mp hr).2⟩
    refine ⟨r.content, (hrow r hr).1, ?_⟩
    rw [ofKind, (hrow r hr).2]
    exact hkind
  · rintro ⟨a, ha, hkind⟩
    obtain ⟨r, hr, rfl⟩ := Option.map_eq_some_iff.mp ha
    obtain ⟨hmem, rfl⟩ := Tables.mem_of_row? hr
    rw [ofKind, (hrow r hmem).2] at hkind
    unfold held
    cases hasked : asked.kind with
    | none =>
        rw [Tables.allIds, List.mem_insertionSort]
        exact List.mem_map_of_mem hmem
    | some kind =>
        rw [hasked] at hkind
        show r.id ∈ t.ids kind
        rw [Tables.ids, List.mem_insertionSort]
        exact List.mem_map_of_mem (List.mem_filter.mpr ⟨hmem, hkind⟩)

theorem held_sorted : (held t asked).Pairwise inOrder := by
  unfold held
  split
  · exact List.pairwise_insertionSort _ _
  · exact List.pairwise_insertionSort _ _

theorem held_nodup (hsingle : t.Single) : (held t asked).Nodup := by
  unfold held
  split
  · exact (List.perm_insertionSort _ _).nodup_iff.mpr (hsingle.sublist (List.filter_sublist.map _))
  · exact (List.perm_insertionSort _ _).nodup_iff.mpr hsingle

variable (O U t asked) in
/-- What a scan finds at an IRI. -/
def hitsAt (id : ArtifactId) : List Hit :=
  (t.artifact id).elim [] fun a => ((passages O asked a).toOption.getD []).filterMap
    (hit U (words U asked.text) a)

theorem mem_hitsAt {id : ArtifactId} {h : Hit} : h ∈ hitsAt O U t asked id ↔
    ∃ a ps, t.artifact id = some a ∧ passages O asked a = .ok ps ∧ ∃ p ∈ ps, hit U
      (words U asked.text) a p = some h := by
  unfold hitsAt
  constructor
  · intro hmem
    cases ha : t.artifact id with
    | none =>
        rw [ha] at hmem
        nomatch hmem
    | some a =>
        rw [ha] at hmem
        cases hps : passages O asked a with
        | error _ =>
            rw [Option.elim, hps] at hmem
            nomatch hmem
        | ok ps =>
            rw [Option.elim, hps] at hmem
            obtain ⟨p, hp, hhit⟩ := List.mem_filterMap.mp hmem
            exact ⟨a, ps, rfl, hps, p, hp, hhit⟩
  · rintro ⟨a, ps, ha, hps, p, hp, hhit⟩
    rw [ha, Option.elim, hps]
    exact List.mem_filterMap.mpr ⟨p, hp, hhit⟩

theorem hit_isSome {a : Artifact} {p : Passage} : (hit U (words U asked.text) a p).isSome = true ↔
    Matches U asked p.text := by
  unfold hit Matches
  cases finditer U (words U asked.text) p.text with
  | nil => simp
  | cons first rest => simp

theorem hit_of {ws : List String} {a : Artifact} {p : Passage} {h : Hit}
    (hhit : hit U ws a p = some h) :
    h.artifact = a.id ∧ h.section_ = p.section_ ∧ h.field = p.field := by
  unfold hit at hhit
  split at hhit
  · nomatch hhit
  · cases hhit
    exact ⟨rfl, rfl, rfl⟩

/-- A scan of artifacts held finds what it finds at each of their IRIs. -/
theorem rank_eq {ids : List ArtifactId}
    (hids : ∀ id ∈ ids, ∀ a, t.artifact id = some a → ∃ ps, passages O asked a = .ok ps) :
    rank O U (ids.filterMap t.artifact) asked =
      .ok ((ids.flatMap (hitsAt O U t asked)).insertionSort fun x y => y.count ≤ x.count) := by
  have hflat : ∀ (g : Artifact → List Hit) (ids : List ArtifactId),
      ((ids.filterMap t.artifact).map g).flatten = ids.flatMap fun id =>
          (t.artifact id).elim [] g := by
    intro g ids
    induction ids with
    | nil => rfl
    | cons id ids ih =>
        rw [List.flatMap_cons, ← ih, List.filterMap_cons]
        cases t.artifact id <;> rfl
  unfold rank
  split
  · next hwords =>
      have hnone : ∀ id, hitsAt O U t asked id = [] := by
        intro id
        refine List.eq_nil_iff_forall_not_mem.mpr fun h hmem => ?_
        obtain ⟨a, ps, _, _, p, _, hhit⟩ := mem_hitsAt.mp hmem
        rw [hit, hwords, finditer_nil] at hhit
        nomatch hhit
      have hall : ids.flatMap (hitsAt O U t asked) = [] :=
        List.flatMap_eq_nil_iff.mpr fun id _ => hnone id
      rw [hall]
      rfl
  · refine bind_ok.mpr ⟨(ids.filterMap t.artifact).map fun a =>
      ((passages O asked a).toOption.getD []).filterMap (hit U (words U asked.text) a),
        mapM_ok.mpr ?_, ?_⟩
    · rw [List.forall₂_map_right_iff, List.forall₂_same]
      intro a ha
      obtain ⟨id, hid, ha⟩ := List.mem_filterMap.mp ha
      obtain ⟨ps, hps⟩ := hids id hid a ha
      rw [hps]
      rfl
    · rw [hflat]
      rfl

/-! ## What the rows find -/

/-- What is found of an artifact's kind and rows, by the rows of it that are found. -/
theorem mem_candidates {id : ArtifactId} :
    id ∈ (t.candidates U (terms U asked.text) asked).map Candidate.artifact ↔
      ∃ x ∈ t.foundOf id, (∃ term ∈ terms U asked.text, U.matched x.2.1.words term = true) ∧
        scope asked x.2.1.what = true ∧ asked.kind.all (x.1 = ·) = true := by
  have hcandidates : id ∈ (t.candidates U (terms U asked.text) asked).map Candidate.artifact ↔
      ∃ r ∈ t.search, r.artifact = id ∧
        (∃ term ∈ terms U asked.text, U.matched r.found.words term = true) ∧
        scope asked r.found.what = true ∧ asked.kind.all (r.kind = ·) = true := by
    unfold Tables.candidates
    by_cases hterms : terms U asked.text = []
    · rw [if_pos hterms, hterms]
      simp
    · rw [if_neg hterms, List.map_map]
      simp only [List.mem_map, List.mem_filter, List.mem_insertionSort, List.any_eq_true,
        Tables.wanted, Bool.and_eq_true, Function.comp_apply, scope]
      constructor
      · rintro ⟨r, ⟨⟨hr, hterm⟩, hscope, hkind⟩, rfl⟩
        exact ⟨r, hr, rfl, hterm, hscope, hkind⟩
      · rintro ⟨r, hr, rfl, hterm, hscope, hkind⟩
        exact ⟨r, ⟨⟨hr, hterm⟩, hscope, hkind⟩, rfl⟩
  rw [hcandidates]
  unfold Tables.foundOf
  constructor
  · rintro ⟨r, hr, rfl, hterm, hscope, hkind⟩
    exact ⟨_, List.mem_map_of_mem (List.mem_filter.mpr ⟨hr, by simp⟩), hterm, hscope, hkind⟩
  · rintro ⟨x, hx, hterm, hscope, hkind⟩
    obtain ⟨r, hr, rfl⟩ := List.mem_map.mp hx
    exact ⟨r, (List.mem_filter.mp hr).1, by
      simpa using (List.mem_filter.mp hr).2, hterm, hscope, hkind⟩

/-- The rows find an artifact of the kind asked for just when a text read of it holds a whole word
that folds like one searched for. -/
theorem mem_named (hU : U.Agrees O) (hderived : t.Derived O) {id : ArtifactId} :
    id ∈ named U t asked ↔ ∃ a ps, t.artifact id = some a ∧ ofKind asked a = true ∧
      passages O asked a = .ok ps ∧
      ∃ p ∈ ps, Holds U asked p.text := by
  have hmatched : ∀ text, (∃ term ∈ terms U asked.text, U.matched (O.words text) term = true) ↔
      Holds U asked text := by
    intro text
    rw [hU.row]
    constructor
    · rintro ⟨term, hterm, h⟩
      exact ⟨term, hterm, (hU.matched _ _ _ hterm).mp h⟩
    · rintro ⟨term, hterm, h⟩
      exact ⟨term, hterm, (hU.matched _ _ _ hterm).mpr h⟩
  rw [named, List.mem_insertionSort, Settled.mem_once, mem_candidates]
  cases ha : t.artifact id with
  | none =>
      have hunheld : t.holds id = false := by rw [← Tables.artifact_isSome, ha]; rfl
      rw [(hderived.unheld id hunheld).2.1]
      simp
  | some a =>
      obtain ⟨found, hfound, hrows⟩ := hderived.found id a ha
      obtain ⟨ps, hps, hpassages⟩ := passages_ok hfound asked
      rw [hrows]
      constructor
      · rintro ⟨x, hx, ⟨term, hterm, hmatch⟩, hscope, hkind⟩
        obtain ⟨q, hq, rfl⟩ := List.mem_map.mp hx
        obtain ⟨p, hp, hwords⟩ :=
          (hpassages q.1.words).mp ⟨q.1, List.fst_mem_of_mem_zipIdx hq, hscope, rfl⟩
        refine ⟨a, ps, rfl, hkind, hps, p, hp, (hmatched p.text).mp ⟨term, hterm, ?_⟩⟩
        rw [hwords]
        exact hmatch
      · rintro ⟨_, _, ⟨⟩, hkind, hps', p, hp, hholds⟩
        cases hps.symm.trans hps'
        obtain ⟨f, hf, hscope, hwords⟩ := (hpassages (O.words p.text)).mpr ⟨p, hp, rfl⟩
        obtain ⟨i, hi, hget⟩ := List.mem_iff_getElem.mp hf
        refine ⟨(a.kind, f, i), List.mem_map.mpr ⟨(f, i), ?_, rfl⟩, ?_, hscope, hkind⟩
        · exact List.mem_zipIdx_iff_getElem?.mpr (by rw [← hget]; exact List.getElem?_eq_getElem hi)
        · show ∃ term ∈ terms U asked.text, U.matched f.words term = true
          rw [hwords]
          exact (hmatched p.text).mpr hholds

theorem flatMap_filter {α β : Type} {p : α → Bool} {g : α → List β} {as : List α}
    (h : ∀ a ∈ as, p a = false → g a = []) :
    (as.filter p).flatMap g = as.flatMap g := by
  induction as with
  | nil => rfl
  | cons a as ih =>
      rw [List.flatMap_cons, ← ih fun a ha => h a (List.mem_cons_of_mem _ ha)]
      cases hp : p a with
      | true => rw [List.filter_cons_of_pos hp, List.flatMap_cons]
      | false =>
          rw [List.filter_cons_of_neg (by simp [hp]), h a List.mem_cons_self hp, List.nil_append]

/-- What the rows find is what is held of it, in the order of names. -/
theorem named_eq (hU : U.Agrees O) (hderived : t.Derived O) (hsound : t.Sound)
    (hsingle : t.Single) :
    named U t asked = (held t asked).filter fun id => id ∈ named U t asked := by
  refine List.Perm.eq_of_pairwise' (r := inOrder) (List.pairwise_insertionSort _ _)
    (held_sorted.filter _) ?_
  refine (List.perm_ext_iff_of_nodup
    ((List.perm_insertionSort _ _).nodup_iff.mpr (Settled.nodup_once _))
    ((held_nodup hsingle).filter _)).mpr fun id => ?_
  rw [List.mem_filter, decide_eq_true_eq]
  refine ⟨fun h => ⟨?_, h⟩, fun h => h.2⟩
  obtain ⟨a, _, ha, hkind, _⟩ := (mem_named hU hderived).mp h
  exact (mem_held hsound hsingle).mpr ⟨a, ha, hkind⟩

/-! ## What a search gives -/

/-- The texts found, most occurrences first. -/
def inRank (hits : List Hit) : List Hit := hits.insertionSort fun x y => y.count ≤ x.count

theorem held_passages (hderived : t.Derived O) {id : ArtifactId} {a : Artifact}
    (ha : t.artifact id = some a) :
    ∃ ps, passages O asked a = .ok ps := by
  obtain ⟨found, hfound, _⟩ := hderived.found id a ha
  obtain ⟨ps, hps, _⟩ := passages_ok hfound asked
  exact ⟨ps, hps⟩

theorem scanned_eq (hderived : t.Derived O) :
    scanned O U t asked = .ok (inRank ((held t asked).flatMap (hitsAt O U t asked))) :=
  rank_eq fun _ _ _ ha => held_passages hderived ha

/-- What a search gives: what a scan of what the rows find gives, when the kind asked for is a held
type's. -/
theorem found_iff (hU : U.Agrees O) (hderived : t.Derived O) {given : List Match} :
    found O U t asked = .ok given ↔
      (∀ kind, asked.kind = some kind → t.corpus.typedAt (typeOf kind) = true) ∧
      List.Forall₂ (GivenFor O t)
        (inRank ((named U t asked).flatMap (hitsAt O U t asked))) given := by
  have hkind : (∃ types, asked.kind.toList.mapM (kindType t) = .ok types) ↔
      ∀ kind, asked.kind = some kind → t.corpus.typedAt (typeOf kind) = true := by
    cases asked.kind with
    | none => exact ⟨fun _ _ h => (nomatch h), fun _ => ⟨[], rfl⟩⟩
    | some kind =>
        constructor
        · rintro ⟨types, htypes⟩ _ ⟨⟩
          obtain ⟨type, htype, _⟩ := bind_ok.mp htypes
          unfold kindType at htype
          split at htype
          · next htyped => exact htyped
          · nomatch htype
        · intro htyped
          refine ⟨[typeOf kind], bind_ok.mpr ⟨typeOf kind, ?_, rfl⟩⟩
          rw [kindType, if_pos (htyped kind rfl)]
  have hartifacts :
      (named U t asked).mapM (artifact t) = .ok ((named U t asked).filterMap t.artifact) := by
    have hall : ∀ id ∈ named U t asked, ∃ a, t.artifact id = some a := by
      intro id hid
      obtain ⟨a, _, ha, _⟩ := (mem_named hU hderived).mp hid
      exact ⟨a, ha⟩
    generalize named U t asked = ids at hall
    induction ids with
    | nil => rfl
    | cons id ids ih =>
        obtain ⟨a, ha⟩ := hall id List.mem_cons_self
        rw [List.mapM_cons, ih fun id hid => hall id (List.mem_cons_of_mem _ hid), artifact, ha,
          List.filterMap_cons_some ha]
        rfl
  have hpassages : ∀ id ∈ named U t asked, ∀ a, t.artifact id = some a →
      ∃ ps, passages O asked a = .ok ps :=
    fun _ _ _ ha => held_passages hderived ha
  have hrank := @rank_eq O U t asked (named U t asked) hpassages
  have hmatches : ∀ hits : List Hit, (hits.mapM fun hit => do
      .ok ⟨← Read.brief O t hit.artifact, ← hit.section_.asField, ← hit.field.asField,
        hit.snippet⟩ :
        Raises (List Match)) = .ok given ↔
        List.Forall₂ (GivenFor O t) hits given := by
    intro hits
    rw [mapM_ok]
    have hone : ∀ hit (m : Match), (do
        .ok ⟨← Read.brief O t hit.artifact, ← hit.section_.asField, ← hit.field.asField,
          hit.snippet⟩ : Raises Match) =
          .ok m ↔ GivenFor O t hit m := by
      intro hit m
      constructor
      · intro h
        obtain ⟨stub, hstub, h⟩ := bind_ok.mp h
        obtain ⟨section_, hsection, h⟩ := bind_ok.mp h
        obtain ⟨field, hfield, h⟩ := bind_ok.mp h
        cases h
        exact ⟨hstub, hsection, hfield, rfl⟩
      · rintro ⟨hstub, hsection, hfield, hsnippet⟩
        refine bind_ok.mpr ⟨m.stub, hstub,
          bind_ok.mpr ⟨m.section_, hsection, bind_ok.mpr ⟨m.field, hfield, ?_⟩⟩⟩
        rw [← hsnippet]
    constructor
    · exact List.Forall₂.imp fun _ _ h => (hone _ _).mp h
    · exact List.Forall₂.imp fun _ _ h => (hone _ _).mpr h
  rw [← hkind, ← hmatches]
  constructor
  · intro h
    obtain ⟨types, htypes, h⟩ := bind_ok.mp h
    obtain ⟨artifacts, hartifacts', h⟩ := bind_ok.mp h
    cases hartifacts.symm.trans hartifacts'
    obtain ⟨hits, hhits, h⟩ := bind_ok.mp h
    cases hrank.symm.trans hhits
    exact ⟨⟨types, htypes⟩, h⟩
  · rintro ⟨⟨types, htypes⟩, h⟩
    exact bind_ok.mpr ⟨types, htypes, bind_ok.mpr ⟨_, hartifacts, bind_ok.mpr ⟨_, hrank, h⟩⟩⟩

theorem brief_names {id : ArtifactId} {stub : Read.Stub} (h : Read.brief O t id = .ok stub) :
    stub.id = id := by
  unfold Read.brief at h
  split at h
  · cases h
    rfl
  · obtain ⟨declared, _, h⟩ := bind_ok.mp h
    obtain ⟨fields, _, h⟩ := bind_ok.mp h
    split at h
    · nomatch h
    · cases h
      rfl

theorem mem_inRank {hits : List Hit} {h : Hit} : h ∈ inRank hits ↔ h ∈ hits :=
  List.mem_insertionSort _

/-- In every store of a run, whatever is searched for, a search gives what a scan of everything held
of the kind asked for gives, in its order, just when the search can be answered. -/
theorem found_scans {O : Outside} {U : Unicode} (hdepth : 0 < O.depth) (hU : U.Agrees O)
    {states : List Tables} (h : Run O states) {t : Tables} (ht : t ∈ states) (asked : Searching) :
    Gives O U t asked ↔ Answerable O U t asked := by
  have hderived := h.derived hdepth t ht
  have hsound := h.sound t ht
  have hsingle := h.single t ht
  -- where a word is matched in what is asked of an artifact, a scan finds it there
  have hfinds : ∀ id a ps, t.artifact id = some a → ofKind asked a = true →
      passages O asked a = .ok ps →
      ∀ p ∈ ps, Matches U asked p.text →
        ∃ hit ∈ inRank ((held t asked).flatMap (hitsAt O U t asked)),
          hit.artifact = id ∧ hit.section_ = p.section_ ∧ hit.field = p.field := by
    intro id a ps ha hkind hps p hp hmatches
    obtain ⟨hit, hhit⟩ := Option.isSome_iff_exists.mp (hit_isSome (a := a).mpr hmatches)
    refine ⟨hit,
      mem_inRank.mpr (List.mem_flatMap.mpr ⟨id, (mem_held hsound hsingle).mpr ⟨a, ha, hkind⟩,
      mem_hitsAt.mpr ⟨a, ps, ha, hps, p, hp, hhit⟩⟩), ?_⟩
    obtain ⟨hartifact, hof⟩ := hit_of hhit
    exact ⟨hartifact.trans (hsound.artifact ha).1, hof⟩
  constructor
  · rintro ⟨given, hits, hfound, hscanned, hgives⟩
    obtain ⟨hkind, hgiven⟩ := (found_iff hU hderived).mp hfound
    cases (scanned_eq hderived).symm.trans hscanned
    refine ⟨hkind, fun id a ps ha hofKind hps ⟨p, hp, hmatches⟩ => ?_,
      fun id a ps ha hofKind hps p hp hmatches => ?_,
      fun id a ps ha hofKind hps ⟨p, hp, hstray⟩ => ?_⟩
    · obtain ⟨hit, hhit, rfl, _⟩ := hfinds id a ps ha hofKind hps p hp hmatches
      obtain ⟨m, _, hm⟩ := forall₂_of_mem hgives hhit
      exact (brief_returns ha).mp ⟨m.stub, hm.1⟩
    · obtain ⟨hit, hhit, _, hsection, hfield⟩ := hfinds id a ps ha hofKind hps p hp hmatches
      obtain ⟨m, _, hm⟩ := forall₂_of_mem hgives hhit
      exact ⟨⟨m.section_, hsection ▸ hm.2.1⟩, m.field, hfield ▸ hm.2.2.1⟩
    · obtain ⟨hit, hhit, rfl, _⟩ := hfinds id a ps ha hofKind hps p hp hstray.matches
      obtain ⟨m, hm, hgives⟩ := forall₂_of_mem hgives hhit
      obtain ⟨hit', hhit', hgiven'⟩ := forall₂_of_mem_right hgiven hm
      have hsame : hit.artifact = hit'.artifact :=
        (brief_names hgives.1).symm.trans (brief_names hgiven'.1)
      obtain ⟨id', hid', hhit'⟩ := List.mem_flatMap.mp (mem_inRank.mp hhit')
      obtain ⟨a', _, ha', _, _, _, hhit'⟩ := mem_hitsAt.mp hhit'
      have hid : hit.artifact = id' := hsame.trans ((hit_of hhit').1.trans (hsound.artifact ha').1)
      obtain ⟨b, qs, hb, _, hqs, hholds⟩ := (mem_named hU hderived).mp hid'
      rw [hid] at ha
      cases ha.symm.trans hb
      cases hps.symm.trans hqs
      exact hholds
  · intro hanswers
    -- what the rows leave out is nothing a scan finds
    have hleft : ∀ id ∈ held t asked, decide (id ∈ named U t asked) = false →
        hitsAt O U t asked id = [] := by
      intro id hid hnamed
      obtain ⟨a, ha, hkind⟩ := (mem_held hsound hsingle).mp hid
      refine List.eq_nil_iff_forall_not_mem.mpr fun hit hmem => ?_
      obtain ⟨b, ps, hb, hps, p, hp, hhit⟩ := mem_hitsAt.mp hmem
      cases ha.symm.trans hb
      have hmatches := hit_isSome.mp (Option.isSome_iff_exists.mpr ⟨hit, hhit⟩)
      have hholds : ∃ p ∈ ps, Holds U asked p.text := by
        rcases holds_or_strays hU hmatches with hholds | hstrays
        · exact ⟨p, hp, hholds⟩
        · exact hanswers.kept id a ps ha hkind hps ⟨p, hp, hstrays⟩
      exact of_decide_eq_false hnamed ((mem_named hU hderived).mpr ⟨a, ps, ha, hkind, hps, hholds⟩)
    have hsame : (named U t asked).flatMap (hitsAt O U t asked) =
        (held t asked).flatMap (hitsAt O U t asked) := by
      conv_lhs => rw [named_eq hU hderived hsound hsingle]
      exact flatMap_filter hleft
    obtain ⟨given, hgiven⟩ :
        ∃ given, List.Forall₂ (GivenFor O t)
        (inRank ((held t asked).flatMap (hitsAt O U t asked))) given := by
      refine exists_forall₂ fun hit hhit => ?_
      obtain ⟨id, hid, hhit⟩ := List.mem_flatMap.mp (mem_inRank.mp hhit)
      obtain ⟨a, ps, ha, hps, p, hp, hhit⟩ := mem_hitsAt.mp hhit
      obtain ⟨b, hb, hkind⟩ := (mem_held hsound hsingle).mp hid
      cases ha.symm.trans hb
      obtain ⟨hartifact, hsection, hfield⟩ := hit_of hhit
      have hid : hit.artifact = id := hartifact.trans (hsound.artifact ha).1
      have hmatches : Matches U asked p.text :=
        hit_isSome.mp (Option.isSome_iff_exists.mpr ⟨hit, hhit⟩)
      obtain ⟨stub, hstub⟩ :=
        (brief_returns ha).mpr (hanswers.shown id a ps ha hkind hps ⟨p, hp, hmatches⟩)
      obtain ⟨⟨section_, hs⟩, field, hf⟩ := hanswers.named id a ps ha hkind hps p hp hmatches
      exact ⟨⟨stub, section_, field, hit.snippet⟩, by
        rw [hid]; exact hstub, hsection ▸ hs, hfield ▸ hf, rfl⟩
    exact ⟨given, _, (found_iff hU hderived).mpr ⟨hanswers.kind, by rw [hsame]; exact hgiven⟩,
      scanned_eq hderived, hgiven⟩

/-! ## A letter iota below another -/

namespace Spoken

/-- Whether words hold a character: the letters of ASCII and of Greek, digits and the underscore. -/
def word (c : Char) : Bool :=
  c.isAlphanum || c = '_' || ('α' ≤ c && c ≤ 'ω') || ('Α' ≤ c && c ≤ 'Ω')

def lower (c : Char) : Char := if c = 'Ι' then 'ι' else c.toLower
def upper (c : Char) : Char := if c = 'ι' ∨ c = '\u0345' then 'Ι' else c.toUpper
def folded (c : Char) : Char := lower (upper (lower (if c = '\u0130' then 'i' else c)))

/-- Unicode, so far as the texts below ask. -/
def unicode : Unicode where
  word := word
  space := Char.isWhitespace
  alike a b := folded a = folded b
  lower text := String.ofList (text.toList.map lower)
  upper text := String.ofList (text.toList.map upper)
  matched words term := (words.toList.splitOn ' ').contains term.toList

def outside : Outside := { Sample.outside with words := row unicode }

theorem folded_eq (w : String) : Search.folded unicode w = String.ofList (w.toList.map folded) := by
  simp only [Search.folded, unicode, String.toList_ofList, List.map_map]
  rfl

theorem toLower_space {c : Char} (h : c.toLower = ' ') : c = ' ' := by
  unfold Char.toLower at h
  split at h
  · next hupper =>
      have hbounds : 65 ≤ c.val.toNat ∧ c.val.toNat ≤ 90 := hupper
      have hval : (c.val + 32).toNat = 32 := congrArg (fun c : Char => c.val.toNat) h
      rw [UInt32.toNat_add] at hval
      have h32 : (32 : UInt32).toNat = 32 := rfl
      omega
  · exact h

theorem toUpper_space {c : Char} (h : c.toUpper = ' ') : c = ' ' := by
  unfold Char.toUpper at h
  split at h
  · next hlower =>
      have hbounds : 97 ≤ c.val.toNat ∧ c.val.toNat ≤ 122 := hlower
      have hval := congrArg UInt32.toNat (congrArg Char.val h)
      rw [UInt32.toNat_add] at hval
      have hback : ('A'.val - 'a'.val).toNat = 4294967264 := by decide
      have hspace : ' '.val.toNat = 32 := rfl
      rw [hback, hspace] at hval
      omega
  · exact h

theorem folded_space {c : Char} (h : folded c = ' ') : c = ' ' := by
  have hlower : ∀ {c : Char}, lower c = ' ' → c = ' ' := by
    intro c h
    unfold lower at h
    split at h
    · nomatch h
    · exact toLower_space h
  have hupper : ∀ {c : Char}, upper c = ' ' → c = ' ' := by
    intro c h
    unfold upper at h
    split at h
    · nomatch h
    · exact toUpper_space h
  have h := hlower (hupper (hlower h))
  split at h
  · nomatch h
  · exact h

theorem agrees : unicode.Agrees outside where
  row _ := rfl
  alike v w _ _ h := by
    have hsame : v.map folded = w.map folded := by
      clear * - h
      induction h with
      | nil => rfl
      | @cons a b _ _ hab _ ih =>
          have hab : folded a = folded b := of_decide_eq_true hab
          rw [List.map_cons, List.map_cons, hab, ih]
    rw [folded_eq, folded_eq, String.toList_ofList, String.toList_ofList, hsame]
  matched text query term hterm := by
    have hfold : ∀ {text w}, w ∈ (findall unicode text).map (Search.folded unicode) →
        w.toList ≠ [] ∧ ' ' ∉ w.toList := by
      intro text w hw
      obtain ⟨_, hfound, rfl⟩ := List.mem_map.mp hw
      obtain ⟨v, hv, rfl⟩ := List.mem_map.mp hfound
      rw [folded_eq, String.toList_ofList, String.toList_ofList]
      refine ⟨by simpa using Words.of_mem_wholes hv, fun hspace => ?_⟩
      obtain ⟨c, hc, hspace⟩ := List.mem_map.mp hspace
      have hc := Words.word_of_mem_wholes hv c hc
      rw [folded_space hspace] at hc
      exact absurd hc (by decide)
    have hrow :
        (row unicode text).toList = [' '].intercalate ((tokens unicode text).map String.toList) :=
      String.toList_intercalate
    have hmatched : unicode.matched (row unicode text) term = true ↔
        term.toList ∈ (row unicode text).toList.splitOn ' ' :=
      List.contains_iff_mem
    rw [hmatched, hrow]
    by_cases htokens : tokens unicode text = []
    · rw [htokens, List.map_nil, List.intercalate_nil, List.splitOn_nil, List.mem_singleton]
      exact ⟨fun h => absurd h (hfold hterm).1, nofun⟩
    · rw [List.splitOn_intercalate ' ' _ (by simpa using htokens)]
      · constructor
        · intro h
          obtain ⟨w, hw, hsame⟩ := List.mem_map.mp h
          exact String.toList_inj.mp hsame ▸ hw
        · exact fun h => List.mem_map_of_mem h
      · intro cs hcs
        obtain ⟨w, hw, rfl⟩ := List.mem_map.mp hcs
        exact (hfold hw).2

def type : ArtifactId := ⟨"https://kb.io/y1", by decide⟩

/-- A type whose title ends its first letter with an iota below. -/
def defining : Operation :=
  .create type Start.METASCHEMA_VERSION "α\u0345δω" []
    { tree := .map [(.text "schema", .map [])] } []

/-- A new store, then the store with the type. -/
def stores : Option (Tables × Tables) := (do
  let t ← Start.started outside "role" "execution" 0
  let d ← Drafting.drafted outside t [defining]
  let entries ← Write.entries outside d [1] Sample.signed t
  .ok (t, ← Landing.landed t d.handed entries) : Raises _).toOption

def store : Tables := (stores.getD ({}, {})).2

theorem ran (h : stores.isSome = true) : ∃ states, Run outside states ∧ store ∈ states := by
  obtain ⟨⟨t, t'⟩, hstores⟩ := Option.isSome_iff_exists.mp h
  obtain ⟨t₀, ht, hrest⟩ := bind_ok.mp (Sample.toOption_some hstores)
  obtain ⟨d, hd, hrest⟩ := bind_ok.mp hrest
  obtain ⟨entries, hentries, hrest⟩ := bind_ok.mp hrest
  obtain ⟨t₁, hlanded, hrest⟩ := bind_ok.mp hrest
  cases hrest
  refine ⟨[t', t], .step (.start ⟨_, _, _, ht⟩) ⟨.underLock [defining] [1] Sample.signed, trivial,
    .underLock ?_ hd ⟨entries, hentries, hlanded⟩⟩, ?_⟩
  · intro op hop
    rw [List.mem_singleton.mp hop]
    rfl
  · rw [store, hstores]
    exact List.mem_cons_self

def asking (text : String) : Searching := ⟨none, text, true, true⟩

end Spoken

open Spoken in
/-- The type searched for by a whole word of its title. -/
theorem found_scans_word : Gives outside unicode store (asking "δω") ↔
    Answerable outside unicode store (asking "δω") := by
  obtain ⟨states, hrun, hstore⟩ := ran (by decide +kernel)
  exact found_scans (by decide) agrees hrun hstore (asking "δω")

open Spoken in
/-- Searched for by the iota below its first letter, the type is found by a scan, and a search gives
nothing. -/
theorem found_misses :
    ∃ O U, 0 < O.depth ∧ U.Agrees O ∧ ∃ states, Run O states ∧ ∃ t ∈ states,
      found O U t (asking "ι") = .ok [] ∧
        (scanned O U t (asking "ι")).toOption.map (List.map fun h => (h.artifact, h.field)) =
          some [(type, .text "title")] ∧
        ¬ Gives O U t (asking "ι") := by
  obtain ⟨states, hrun, hstore⟩ := ran (by decide +kernel)
  have hfound : found outside unicode store (asking "ι") = .ok [] :=
    Sample.toOption_some (by decide +kernel)
  have hscanned : (scanned outside unicode store (asking "ι")).toOption.map
      (List.map fun h => (h.artifact, h.field)) =
      some [(type, .text "title")] := by decide +kernel
  refine ⟨outside, unicode, by decide, agrees, states, hrun, store, hstore, hfound, hscanned, ?_⟩
  rintro ⟨given, hits, hgiven, hhits, hgives⟩
  cases hfound.symm.trans hgiven
  cases hgives
  rw [hhits] at hscanned
  nomatch hscanned

end Query

end Kb
