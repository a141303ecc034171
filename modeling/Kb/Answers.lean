/-
# `Kb.Answers` — what is asked of the history, and of what links wait for

`query.py`'s entries and placeholders, over the port's `history` and `waiting`.

The history is answered oldest first, by the moment an entry was stamped at, whatever order the
writers' clocks let the entries land in; asked of one artifact, in the order they landed.  Both
orders are ones a reader can hold on to: within a moment the ids count, so the order is strict, and
an answer given before stands, in its order, in every answer given after (`history_answered`).

A placeholder is an IRI that links land on nothing at.  The port gives those links sorted, and the
answer groups what stands together; sorted so, what stands together is all there is
(`placeholders_once`).
-/
import Kb.Lib.Sorting
import Kb.Recorded
import Kb.Told
import Kb.Searched
import Kb.Whole

namespace Kb

open Landing Raising

/-! ## The history -/

/-- What is asked of the history; what is empty or not given narrows nothing. -/
structure JournalFilter where
  artifact : Option ArtifactId := none
  role : String := ""
  execution : String := ""
  since : Option Int := none
  batch : String := ""

/-- Whether an entry is one of those asked for. -/
def JournalFilter.admits (asked : JournalFilter) (e : Entry) : Bool :=
  (match asked.artifact with
    | none => true
    | some id => decide (e.artifact = id.iri))
  && (asked.role = "" || e.role = asked.role) &&
    (asked.execution = "" || e.execution = asked.execution)
  && (match asked.since with
    | none => true
    | some since => decide (since ≤ e.id.moment))
  && (asked.batch = "" || Journal.idText e.batch = asked.batch)

/-- `history`: the entries asked for, oldest first; of one artifact, in the order they landed. -/
def Tables.history (t : Tables) (asked : JournalFilter) : List Entry :=
  let found := t.entries.filter asked.admits
  if asked.artifact.isSome then found else Sorting.sorted (fun e => e.id.moment) found

namespace Journal

/-- Whether an entry comes before another by its id: stamped earlier, or at one moment with the
lower seq. -/
def Before (a b : Entry) : Prop :=
  a.id.moment < b.id.moment ∨ a.id.moment = b.id.moment ∧ a.id.seq < b.id.seq

/-- Of a gapless history, the entries of one moment landed in the order of their seqs. -/
theorem Gapless.ascending {es : List Entry} (h : Gapless (es.map Entry.id)) :
    es.Pairwise fun a b => a.id.moment = b.id.moment → a.id.seq < b.id.seq := by
  refine Sorting.pairwise_within (fun e : Entry => e.id.moment) fun moment => ?_
  obtain ⟨k, hk⟩ := h moment
  have hseqs : (es.filter fun e => e.id.moment = moment).map (fun e => e.id.seq) =
      List.range' 1 k := by
    rw [← hk, seqsAt, List.filter_map, List.map_map]
    rfl
  have hrange : (List.range' 1 k).Pairwise (· < ·) := List.pairwise_lt_range'
  rw [← hseqs, List.pairwise_map] at hrange
  exact hrange

theorem seq_asymm (a b : Entry) (h : a.id.seq < b.id.seq) : ¬ b.id.seq < a.id.seq := Nat.lt_asymm h

variable {t t' : Tables} {asked : JournalFilter}

theorem history_of_artifact (h : asked.artifact.isSome = true) :
    t.history asked = t.entries.filter asked.admits := if_pos h

theorem history_of_all (h : asked.artifact = none) :
    t.history asked = Sorting.sorted (fun e => e.id.moment) (t.entries.filter asked.admits) := by
  have hnone : ¬ asked.artifact.isSome = true := by simp [h]
  exact if_neg hnone

theorem history_perm : (t.history asked).Perm (t.entries.filter asked.admits) := by
  cases h : asked.artifact with
  | none =>
      rw [history_of_all h]
      exact Sorting.perm_sorted _ _
  | some id =>
      rw [history_of_artifact (by rw [h]; rfl)]

theorem history_before (ht : t.Stamped) (h : asked.artifact = none) :
    (t.history asked).Pairwise Before := by
  rw [history_of_all h]
  exact Sorting.sorted_within _ (ht.gapless.ascending.filter _)

/-- An answer stands, in its order, in what a store that goes on from there answers. -/
theorem history_grows (ht' : t'.Stamped) (h : t.entries <+: t'.entries) :
    (t.history asked).Sublist (t'.history asked) := by
  have hfound : (t.entries.filter asked.admits).Sublist (t'.entries.filter asked.admits) :=
    h.sublist.filter _
  cases hartifact : asked.artifact with
  | none =>
      rw [history_of_all hartifact, history_of_all hartifact]
      exact Sorting.sorted_sublist seq_asymm (ht'.gapless.ascending.filter _) hfound
  | some id =>
      rw [history_of_artifact (by rw [hartifact]; rfl),
        history_of_artifact (by rw [hartifact]; rfl)]
      exact hfound

/-- What is asked since a moment is what is asked of all time, from the first entry stamped then or
later. -/
theorem history_since (ht : t.Stamped) (h : asked.artifact = none) (since : Int) :
    t.history { asked with since := some since } =
      (t.history { asked with since := none }).dropWhile fun e => e.id.moment < since := by
  have hadmits : ∀ e, ({ asked with since := some since } : JournalFilter).admits e =
      (decide (since ≤ e.id.moment) &&
          ({ asked with since := none } : JournalFilter).admits e) := by
    intro e
    simp only [JournalFilter.admits, Bool.and_true]
    cases decide (since ≤ e.id.moment) <;> simp
  have hfilter : t.entries.filter ({ asked with since := some since } : JournalFilter).admits =
      (t.entries.filter ({ asked with since := none } : JournalFilter).admits).filter fun e =>
          since ≤ e.id.moment := by
    rw [List.filter_filter]
    exact List.filter_congr fun e _ => hadmits e
  have hordered :
      (Sorting.sorted (fun e : Entry => e.id.moment)
      (t.entries.filter ({ asked with since := none } : JournalFilter).admits)).Pairwise
      fun a b => a.id.moment ≤ b.id.moment := List.pairwise_insertionSort _ _
  have hsince : t.history { asked with since := some since } = _ := history_of_all h
  have hall : t.history { asked with since := none } = _ := history_of_all h
  rw [hsince, hall, hfilter, Sorting.sorted_filter seq_asymm (ht.gapless.ascending.filter _)]
  exact Sorting.filter_from hordered since

end Journal

/-! ## A set, asked for by its name -/

namespace Stamps

open Journal

variable {states : List Tables}

theorem batched (h : Histories states) : ∀ t ∈ states, Batched t := by
  refine History.Run.invariant ?_ ?_ h
  · rintro t ⟨O, role, execution, reading, moment, _, hstart⟩ e he
    obtain ⟨fingerprint, _, hlanded⟩ := Start.started_ok hstart
    have hentries := ((landed_iff ..).mp hlanded).entries_eq
    rw [hentries] at he ⊢
    rw [List.mem_singleton.mp he]
    exact List.mem_cons_self
  · rintro t past t' _ hpast ⟨s, changes, entries, moments, readings, _, _, hminted, hlanded⟩
    exact (hpast t List.mem_cons_self).landed hminted ((landed_iff ..).mp hlanded)

theorem follows (h : Histories states) :
    states.Pairwise fun later earlier => Follows earlier later :=
  History.Run.between (R := Follows) (fun _ _ _ => Follows.trans)
    (fun _ _ _ _ ⟨_, _, _, _, _, _, _, hminted, hlanded⟩ =>
      hminted.follows ((landed_iff ..).mp hlanded)) h

theorem moments_minted (s : Tables) (moments : List Int) (last : List (Int × Nat)) :
    (minted s moments last).map EntryId.moment = moments := by
  induction moments generalizing last with
  | nil => rfl
  | cons first rest ih => rw [minted, List.map_cons, ih]

theorem idText_ne_nil (id : EntryId) : idText id ≠ "" := by
  intro h
  have hparts : parts "" = some (momentText id.moment, id.seq) := h ▸ parts_idText id
  have hnone : parts "" = none := by decide
  rw [hnone] at hparts
  nomatch hparts

/-- Asked for one set by the text of its name, the history admits what names it. -/
theorem admits_batch {t : Tables} {first e : Entry}
    (hmoments : ∀ id ∈ t.entries.map Entry.id, FIRST ≤ id.moment ∧ id.moment ≤ LAST)
    (hbatched : Batched t) (he : e ∈ t.entries) (hfirst : first ∈ t.entries) :
    ({ batch := idText first.id } : JournalFilter).admits e = decide (e.batch = first.id) := by
  have hiff : idText e.batch = idText first.id ↔ e.batch = first.id :=
    ⟨idText_inj (hmoments _ (hbatched e he)) (hmoments _ (List.mem_map_of_mem hfirst)), congrArg _⟩
  simp [JournalFilter.admits, idText_ne_nil, hiff]

/-- The entries of a set, asked for by its name: those of the set, and no others, in every store
from there on. -/
theorem history_batch (h : Histories states) {later past : List Tables} {s t t' u : Tables}
    (he : states = later ++ t' :: t :: past) {moments : List Int} {changes : List Change}
    {first : Entry} {rest : List Entry} (hminted : Minted s moments (first :: rest))
    (hlanded : landed t changes (first :: rest) = .ok t') (hu : u ∈ t' :: later) :
    (u.entries.filter ({ batch := idText first.id } : JournalFilter).admits) = first :: rest := by
  have hlands := (landed_iff ..).mp hlanded
  have hstates : u ∈ states := by
    rw [he, List.mem_append, List.mem_cons]
    rcases List.mem_cons.mp hu with rfl | hu
    · exact Or.inr (Or.inl rfl)
    · exact Or.inl hu
  have hfollows : Follows t' u := by
    rcases List.mem_cons.mp hu with rfl | hu
    · exact .refl u
    · have hpairs := follows h
      rw [he] at hpairs
      exact (List.pairwise_append.mp hpairs).2.2 u hu t' List.mem_cons_self
  have hfirst : first ∈ u.entries := by
    obtain ⟨more, hmore, _⟩ := hfollows
    rw [hmore, hlands.entries_eq]
    simp
  rw [← filter_batch (batched h t (by simp [he])) hminted hlands hfollows]
  exact List.filter_congr fun e hin =>
    admits_batch (moments_read h u hstates) (batched h u hstates) hin hfirst

/-- What the history answers, in every store any writers with any clocks lead one through.  It is
the entries asked for; of all artifacts, strictly by moment and then by seq, and of one, as they
landed.  An answer stands, in its order, in what every later store answers; since a moment, it is
what is left of the whole from there; and the name of a set that landed gets the set's entries and
no others, in its own order where its moments do not go back. -/
theorem history_answered (h : Histories states) :
    (∀ t ∈ states, ∀ asked,
      (t.history asked).Perm (t.entries.filter asked.admits) ∧
      (asked.artifact = none → (t.history asked).Pairwise Before) ∧
      (asked.artifact.isSome = true → (t.history asked).Sublist t.entries) ∧
      ∀ since, asked.artifact = none →
        t.history { asked with since := some since } =
          (t.history { asked with since := none }).dropWhile fun e => e.id.moment < since) ∧
    (states.Pairwise fun later earlier => ∀ asked,
      (earlier.history asked).Sublist (later.history asked)) ∧
    ∀ later t t' past, states = later ++ t' :: t :: past →
      ∀ s moments changes first rest, Minted s moments (first :: rest) →
      landed t changes (first :: rest) = .ok t' →
        ∀ u ∈ t' :: later, (u.history { batch := idText first.id }).Perm (first :: rest) ∧
          (moments.Pairwise (· ≤ ·) → u.history { batch := idText first.id } = first :: rest) := by
  have hstamped := stamped h
  refine ⟨fun t ht asked => ⟨history_perm, history_before (hstamped t ht), fun hsome => ?_,
      fun since hnone =>
    history_since (hstamped t ht) hnone since⟩, ?_, ?_⟩
  · rw [history_of_artifact hsome]
    exact List.filter_sublist
  · refine (entries_grow h).imp_of_mem fun {later earlier} hlater _ hgrown asked => ?_
    exact history_grows (hstamped later hlater) hgrown
  · intro later t t' past he s moments changes first rest hminted hlanded u hu
    have hfilter := history_batch h he hminted hlanded hu
    have hperm : (u.history { batch := idText first.id }).Perm (first :: rest) := by
      rw [← hfilter]
      exact history_perm
    refine ⟨hperm, fun hmoments => ?_⟩
    rw [history_of_all rfl, hfilter]
    have hascending : (first :: rest).Pairwise fun a b => a.id.moment ≤ b.id.moment := by
      have hread : (first :: rest).map (fun e => e.id.moment) = moments := by
        rw [← moments_minted s moments [], ← hminted.ids, List.map_map]
        rfl
      rw [← hread, List.pairwise_map] at hmoments
      exact hmoments
    exact hascending.insertionSort_eq

/-! ## A clock that goes back -/

namespace Back

/-- A store started a microsecond after 1970 did. -/
def first : Tables := (Start.started Sample.outside "role" "execution" 1).toOption.getD {}

/-- The store once a snapshot stamped at the start of 1970 has landed. -/
def second : Tables := (Write.snapshot [] Sample.signed 0 first first).toOption.getD {}

end Back

open Back in
/-- The snapshot landed after the start and is answered before it; asked for by its name, alone. -/
theorem history_answered_back :
    (second.history {}).map Entry.id = [⟨0, 1⟩, ⟨1, 1⟩] ∧ (second.history {}).Pairwise Before ∧
      (first.history {}).Sublist (second.history {}) ∧
      ((second.history { batch := idText ⟨0, 1⟩ }).map Entry.op) = ["snapshot"] := by
  have hfirst : Start.started Sample.outside "role" "execution" 1 = .ok first := by decide +kernel
  have hsecond : landed first [] ((minted first [0] []).map (snapshot Sample.signed [])) =
    .ok second := by decide +kernel
  have hids : (second.history {}).map Entry.id = [⟨0, 1⟩, ⟨1, 1⟩] := by decide +kernel
  have hentry : (minted first [0] []).map (snapshot Sample.signed []) =
    [snapshot Sample.signed [] ⟨0, 1⟩] := by decide +kernel
  have hminted : Minted first [0] [snapshot Sample.signed [] ⟨0, 1⟩] := by
    rw [← hentry]
    refine ⟨rfl, fun e he => ?_⟩
    obtain rfl := List.mem_singleton.mp he
    rfl
  rw [hentry] at hsecond
  have hrun : Histories [second, first] :=
    .step (.start ⟨_, _, _, ⟨1, none⟩, 1, by decide, hfirst⟩)
      ⟨first, [], _, [0], [⟨0, none⟩], List.mem_cons_self, by decide, hminted, hsecond⟩
  obtain ⟨hanswers, hgrows, hsets⟩ := history_answered hrun
  obtain ⟨_, hbefore, _, _⟩ := hanswers second List.mem_cons_self {}
  obtain ⟨_, hset⟩ :=
    hsets [] first second [] rfl first [0] [] _ [] hminted hsecond second List.mem_cons_self
  refine ⟨hids, hbefore rfl, (List.pairwise_cons.mp hgrows).1 first List.mem_cons_self {}, ?_⟩
  have hone : second.history { batch := idText ⟨0, 1⟩ } = [snapshot Sample.signed [] ⟨0, 1⟩] :=
    hset (List.pairwise_singleton _ _)
  rw [hone]
  rfl

end Stamps

/-! ## What links wait for -/

namespace Query

/-- A link as it is listed under what it waits for; the field of one the port gives is text. -/
def linked (each : Linking) : Read.Waits := ⟨each.source, each.field.str, each.place, each.part⟩

/-- `placeholders_of`. -/
def placeholdersOf (waiting : List Linking) : List Read.Placeholder :=
  (Sorting.grouped Linking.target waiting).map fun e => ⟨e.1, e.2.map linked⟩

/-- `placeholders`. -/
def placeholders (t : Tables) : List Read.Placeholder := placeholdersOf t.waiting

variable {O : Outside} {t : Tables}

/-- The waiting links stand in the order of the names they point at, and of one name, of the
artifacts holding them. -/
theorem waiting_ordered : t.waiting.Pairwise fun a b =>
    inOrder a.target b.target ∧ (a.target = b.target → inOrder a.source b.source) := by
  have hsorted :
    ((t.links.filter t.waits).insertionSort Tables.byTarget).Pairwise Tables.byTarget :=
    List.pairwise_insertionSort _ _
  unfold Tables.waiting
  rw [List.pairwise_map]
  refine hsorted.imp fun {r s} hle => ?_
  show inOrder r.target s.target ∧ (r.target = s.target → inOrder r.source s.source)
  rcases hle with hlt | ⟨heq, hsource⟩
  · exact ⟨hlt.le, fun h => absurd (h ▸ hlt) (lt_irrefl _)⟩
  · refine ⟨heq.le, fun _ => ?_⟩
    rcases hsource with hlt | ⟨heq, _⟩
    · exact hlt.le
    · exact heq.le

theorem mem_waiting {each : Linking} :
    each ∈ t.waiting ↔ ∃ r ∈ t.links, t.waits r = true ∧ Tables.linking r = each := by
  simp only [Tables.waiting, List.mem_map, List.mem_insertionSort, List.mem_filter, and_assoc]

/-- Whether a link lands on nothing that what is held says of itself: its IRI not held, or held
without the part. -/
def Nowhere (t : Tables) (r : LinkRow) : Prop :=
  match t.artifact r.target with
  | none => True
  | some a => r.part ≠ "" ∧ r.part ∉ Places.parts a.whole

theorem waits_iff (h : t.Derived O) (r : LinkRow) :
    t.waits r = true ↔ r.implicit = false ∧ Nowhere t r := by
  have hholds : t.holds r.target = (t.artifact r.target).isSome := by
    simp [Tables.holds, Tables.artifact]
  unfold Nowhere
  cases ha : t.artifact r.target with
  | none => simp [Tables.waits, hholds, ha]
  | some a =>
      have hparts := h.parts r.target a ha
      simp [Tables.waits, hholds, ha, hparts, Settled.mem_once]

/-- Whatever writers led a store where it is, its placeholders are each an IRI once, strictly in the
order of names, with its links in the order of the artifacts holding them, all of them held; and
they list just the links that the content of what is held leaves landing on nothing. -/
theorem placeholders_once (hdepth : 0 < O.depth) {states : List Tables} (h : Run O states) :
    ∀ t ∈ states,
    ((placeholders t).Pairwise fun p q => Names.order p.id.iri < Names.order q.id.iri) ∧
    ((placeholders t).flatMap Read.Placeholder.links = t.waiting.map linked) ∧
    (∀ p ∈ placeholders t, p.links ≠ [] ∧
      (p.links.Pairwise fun a b => inOrder a.artifact b.artifact) ∧
      ∀ link, link ∈ p.links ↔ ∃ r ∈ t.links, t.holds r.source = true ∧ r.target = p.id ∧ linked
        (Tables.linking r) = link ∧
        r.implicit = false ∧ Nowhere t r) ∧
    ∀ r ∈ t.links, r.implicit = false → Nowhere t r → ∃ p ∈ placeholders t, p.id = r.target := by
  intro t ht
  have hderived := Run.derived hdepth h t ht
  have hantisymm : ∀ k k' : ArtifactId, inOrder k k' → inOrder k' k → k = k' :=
    fun _ _ => Std.Antisymm.antisymm _ _
  have hordered := waiting_ordered (t := t)
  have htargets : t.waiting.Pairwise fun a b => inOrder (Linking.target a) (Linking.target b) :=
    hordered.imp And.left
  obtain ⟨hapart, hall⟩ := Sorting.grouped_apart hantisymm htargets
  refine ⟨?_, ?_, ?_, ?_⟩
  · unfold placeholders placeholdersOf
    rw [List.pairwise_map]
    refine hapart.imp fun {e f} hlt => lt_of_le_of_ne hlt.1 fun heq => hlt.2 ?_
    exact ArtifactId.ext' (Names.order_inj e.1.grammar f.1.grammar heq)
  · have hflat : ((Sorting.grouped Linking.target t.waiting).map Prod.snd).flatten = t.waiting := by
      rw [Sorting.map_snd_grouped, Sorting.flatten_runs]
    unfold placeholders placeholdersOf
    rw [List.flatMap_map]
    conv_rhs => rw [← hflat, List.map_flatten, List.map_map]
    rfl
  · intro p hp
    obtain ⟨e, he, rfl⟩ := List.mem_map.mp hp
    obtain ⟨hne, heq⟩ := hall e he
    refine ⟨by simpa using hne, ?_, ?_⟩
    · rw [heq, List.pairwise_map]
      refine (hordered.filter _).imp_of_mem fun {a b} ha hb hle => hle.2 ?_
      exact (of_decide_eq_true (List.mem_filter.mp ha).2).trans
        (of_decide_eq_true (List.mem_filter.mp hb).2).symm
    · intro link
      show link ∈ e.2.map linked ↔ _
      rw [heq, List.mem_map]
      constructor
      · rintro ⟨each, heach, rfl⟩
        obtain ⟨hmem, htarget⟩ := List.mem_filter.mp heach
        obtain ⟨r, hr, hwaits, rfl⟩ := mem_waiting.mp hmem
        obtain ⟨himplicit, hnowhere⟩ := (waits_iff hderived r).mp hwaits
        refine ⟨r, hr, ?_, of_decide_eq_true htarget, rfl, himplicit, hnowhere⟩
        by_contra hheld
        have hnone := (hderived.unheld r.source (by simpa using hheld)).2.2
        have hin := Tables.mem_links_iff.mp hr
        rw [hnone] at hin
        nomatch hin
      · rintro ⟨r, hr, _, htarget, rfl, himplicit, hnowhere⟩
        refine ⟨Tables.linking r, List.mem_filter.mpr ⟨?_, decide_eq_true htarget⟩, rfl⟩
        exact mem_waiting.mpr ⟨r, hr, (waits_iff hderived r).mpr ⟨himplicit, hnowhere⟩, rfl⟩
  · intro r hr himplicit hnowhere
    have hmem : Tables.linking r ∈ t.waiting :=
      mem_waiting.mpr ⟨r, hr, (waits_iff hderived r).mpr ⟨himplicit, hnowhere⟩, rfl⟩
    obtain ⟨e, he, hkey⟩ : ∃ e ∈ Sorting.grouped Linking.target t.waiting,
        e.1 = Linking.target (Tables.linking r) :=
      Sorting.exists_grouped hmem
    exact ⟨_, List.mem_map_of_mem he, hkey⟩

open Waiting in
/-- Two links of a note that wait for one IRI: one placeholder, of the two, each at its own
place. -/
theorem placeholders_once_twice :
    (placeholders (Sample.store sets)).map (fun p => (p.id.iri, p.links.map Read.Waits.place)) =
        [("https://kb.io/r/b", ["see/0", "see/1"])] ∧
      ((placeholders (Sample.store sets)).Pairwise fun p q => Names.order p.id.iri <
        Names.order q.id.iri) ∧
      ∃ p ∈ placeholders (Sample.store sets), p.id = row.target := by
  obtain ⟨hran, hsome, hplaces, hrow, hnone⟩ : (Sample.ran sets).isSome = true ∧
      (Sample.stores sets).isEmpty = false ∧
      (placeholders (Sample.store sets)).map (fun p => (p.id.iri, p.links.map Read.Waits.place)) =
        [("https://kb.io/r/b", ["see/0", "see/1"])] ∧
      row ∈ (Sample.store sets).links ∧ (Sample.store sets).artifact row.target = none := by
    decide +kernel
  have hdepth : 0 < Sample.outside.depth := by decide
  obtain ⟨happart, _, _, hlisted⟩ :=
    placeholders_once hdepth (Sample.stores_run asked hran) _ (Sample.store_mem hsome)
  refine ⟨hplaces, happart, hlisted row hrow rfl ?_⟩
  unfold Nowhere
  rw [hnone]
  trivial

end Query

end Kb
