/-
# `Kb.Derived` — the rows derived of an artifact say what its content says

A landing writes, beside each artifact, the rows it is found by, the places of its parts and the
links it holds.  Only the last change a set makes to an artifact hands its parts and links, and
every change takes the rows of the ones before it out; so in every store of every run an artifact's
parts are those of its content, its search rows are its content's rows, each under a row id of its
own, kb's own link goes to the type it is of, and what is not held has none.  Which version of its
type an artifact's other links were read through is another matter, and none of this needs it.
-/
import Kb.Holding
import Kb.Sound

namespace Kb

open Landing Raising

namespace Tables

/-! ## Search rows -/

/-- What an artifact is found by, row by row: its kind, what is found, and where that stands among
its rows. -/
def foundOf (t : Tables) (id : ArtifactId) : List (Kind × Found × Nat) :=
  (t.search.filter fun r => r.artifact = id).map fun r => (r.kind, r.found, r.ordinal)

/-- Every search row is noted under its artifact, at a row id of its own. -/
structure Indexed (t : Tables) : Prop where
  noted : t.searched = t.search.map fun r => (r.row, r.artifact)
  once : (t.search.map SearchRow.row).Nodup

/-- What a change leaves its artifact found by. -/
def foundRows (c : Change) : List (Kind × Found × Nat) :=
  match c.content, c.kind with
  | some _, some kind => c.searched.zipIdx.map fun p => (kind, p.1, p.2)
  | _, _ => []

theorem le_foldl_max (ns : List Nat) {m n : Nat} (h : n ≤ m ∨ n ∈ ns) : n ≤ ns.foldl max m := by
  induction ns generalizing m with
  | nil => simpa using h
  | cons k ns ih =>
      refine ih ?_
      rcases h with h | h
      · exact Or.inl (le_max_of_le_left h)
      · rcases List.mem_cons.mp h with rfl | h
        · exact Or.inl (le_max_right _ _)
        · exact Or.inr h

theorem artifact_of_mem_searchRows {t : Tables} {c : Change} {r : SearchRow}
    (h : r ∈ t.searchRows c) : r.artifact = c.artifact := by
  unfold searchRows at h
  split at h
  · obtain ⟨p, _, rfl⟩ := List.mem_map.mp h
    rfl
  · cases h

/-- The rows a change writes are each under a row id of its own, after every one held. -/
theorem rows_searchRows (t : Tables) (c : Change) :
    ∃ n, (t.searchRows c).map SearchRow.row = (List.range' 0 n).map fun i => lastRow t + i + 1 := by
  unfold searchRows
  split
  · refine ⟨c.searched.length, ?_⟩
    rw [← List.zipIdx_map_snd, List.map_map, List.map_map]
    rfl
  · exact ⟨0, rfl⟩

namespace Indexed

variable {t : Tables}

/-- The rows taken out are the artifact's. -/
theorem search_unsearched (h : t.Indexed) (name : ArtifactId) :
    (t.unsearched name).search = t.search.filter fun r => r.artifact ≠ name := by
  refine List.filter_congr fun r hr => ?_
  have hiff : r.row ∈ ((t.searched.filter fun r => r.2 = name).map Prod.fst) ↔
      r.artifact = name := by
    rw [h.noted]
    simp only [List.mem_map, List.mem_filter, decide_eq_true_eq]
    constructor
    · rintro ⟨_, ⟨⟨r', hr', rfl⟩, hname⟩, hrow⟩
      rw [← List.inj_on_of_nodup_map h.once hr' hr hrow]
      exact hname
    · intro hname
      exact ⟨(r.row, r.artifact), ⟨⟨r, hr, rfl⟩, hname⟩, rfl⟩
  rw [decide_eq_decide]
  exact not_congr hiff

theorem unsearched (h : t.Indexed) (name : ArtifactId) : (t.unsearched name).Indexed where
  noted := by
    rw [h.search_unsearched name]
    show t.searched.filter (fun r => r.2 ≠ name) = _
    rw [h.noted, List.filter_map]
    rfl
  once := by
    rw [h.search_unsearched name]
    exact h.once.sublist (List.filter_sublist.map _)

theorem wrote (h : t.Indexed) (landed step : Nat) (c : Change) :
    (t.wrote landed step c).Indexed where
  noted := by
    show (t.unsearched c.artifact).searched ++ _ = ((t.unsearched c.artifact).search ++ _).map _
    rw [List.map_append, (h.unsearched c.artifact).noted]
    refine congrArg _ (List.map_congr_left fun r hr => ?_)
    rw [artifact_of_mem_searchRows hr]
  once := by
    show (((t.unsearched c.artifact).search ++ (t.unsearched c.artifact).searchRows c).map
      SearchRow.row).Nodup
    rw [List.map_append, List.nodup_append]
    obtain ⟨n, hn⟩ := rows_searchRows (t.unsearched c.artifact) c
    refine ⟨(h.unsearched c.artifact).once, ?_, ?_⟩
    · rw [hn]
      exact (List.nodup_range' 1).map fun i j hij => by simpa using hij
    · intro row hrow row' hrow' heq
      have hle : row ≤ lastRow (t.unsearched c.artifact) := by
        refine le_foldl_max _ (Or.inr ?_)
        rw [(h.unsearched c.artifact).noted, List.map_map]
        exact hrow
      rw [hn] at hrow'
      obtain ⟨i, _, rfl⟩ := List.mem_map.mp hrow'
      omega

theorem foundOf_wrote (h : t.Indexed) (landed step : Nat) (c : Change) (id : ArtifactId) :
    (t.wrote landed step c).foundOf id = if c.artifact = id then foundRows c else t.foundOf id := by
  have hsearch : (t.wrote landed step c).search =
      (t.search.filter fun r => r.artifact ≠ c.artifact) ++
          (t.unsearched c.artifact).searchRows c := by
    rw [← h.search_unsearched c.artifact]
    rfl
  unfold foundOf
  rw [hsearch, List.filter_append, List.filter_filter]
  by_cases hid : c.artifact = id
  · subst hid
    rw [if_pos rfl, List.filter_eq_nil_iff.mpr (by simp), List.nil_append,
      List.filter_eq_self.mpr fun r hr => by simpa using artifact_of_mem_searchRows hr]
    unfold searchRows foundRows
    rcases c.content with _ | a
    · rfl
    rcases c.kind with _ | kind
    · rfl
    · exact List.map_map
  · rw [if_neg hid, (List.filter_eq_nil_iff (l := (t.unsearched c.artifact).searchRows c)).mpr
      fun r hr => by simpa [artifact_of_mem_searchRows hr] using hid, List.append_nil]
    refine congrArg _ (List.filter_congr fun r _ => ?_)
    by_cases hr : r.artifact = id <;> simp [hr, Ne.symm hid]

end Indexed

end Tables

namespace Landing

theorem Written.indexed {landed : Nat} {t t' : Tables} {cs : List (Change × Nat)}
    (h : Written landed t cs t') (ht : t.Indexed) :
    t'.Indexed :=
  h.kept (fun _ step c ht => ht.wrote _ step c) ht

/-- After a set an artifact is found by what its last change leaves it found by. -/
theorem Written.foundOf_last {landed : Nat} {t t' : Tables} {cs : List (Change × Nat)}
    (h : Written landed t cs t') (ht : t.Indexed) (id : ArtifactId) :
    t'.foundOf id = ((lastTo id (cs.map Prod.fst)).map Tables.foundRows).getD (t.foundOf id) :=
  Written.observed_where (I := Tables.Indexed) (f := fun t => t.foundOf id)
    (fun _ ht _ _ => ht.wrote _ _ _)
    (fun _ ht _ _ => ht.foundOf_wrote _ _ _ id) ht h

end Landing

/-! ## What a store derives, and from what -/

/-- A change hands what its content says. -/
structure Change.Derives (O : Outside) (c : Change) (a : Artifact) : Prop where
  parts : c.parts = Places.parts a.whole
  searched : searchable O a = .ok c.searched
  links : ∃ links, (c.links = Links.implicitTo a.kind :: links ∨ c.artifact = Start.METASCHEMA_ID ∧
    c.links = links)
    ∧ ∀ l ∈ links, l.implicit = false

/-- kb's own link, as a store holds it. -/
def LinkRow.typing (id : ArtifactId) (kind : Kind) : LinkRow :=
  ⟨id, 0, "", "", typeOf kind, "", true, some ""⟩

/-- What a store derives of an artifact is what its content says, and it derives nothing of what it
does not hold.  The type of types alone may hold no link to its type, as a new store holds it. -/
structure Tables.Derived (O : Outside) (t : Tables) : Prop where
  indexed : t.Indexed
  parts : ∀ id a, t.artifact id = some a → t.partsOf id = Settled.once (Places.parts a.whole)
  found : ∀ id a, t.artifact id = some a →
    ∃ found, searchable O a = .ok found ∧ t.foundOf id = found.zipIdx.map fun p =>
      (a.kind, p.1, p.2)
  links : ∀ id a, t.artifact id = some a →
    ∃ own, (t.linksOf id = LinkRow.typing id a.kind :: own ∨ id = Start.METASCHEMA_ID ∧
      t.linksOf id = own)
      ∧ ∀ r ∈ own, r.implicit = false
  unheld : ∀ id, t.holds id = false → t.partsOf id = [] ∧ t.foundOf id = [] ∧ t.linksOf id = []

namespace Landing

/-- A set whose last change to each artifact hands what its content says leaves a store that derives
it. -/
theorem Lands.derived {O : Outside} {t t' : Tables} {changes : List Change} {entries : List Entry}
    (h : Lands t changes entries t') (ht : t.Derived O) (hsound : ∀ c ∈ changes, c.Sound)
    (hcs : ∀ id c a, lastTo id changes = some c → c.content = some a → c.Derives O a) :
    t'.Derived O := by
  obtain ⟨left, hwritten, _, _, rfl⟩ := h.written
  have hindexed : (opened t entries).Indexed := ⟨ht.indexed.noted, ht.indexed.once⟩
  have hleft := hwritten.indexed hindexed
  have hrow : ∀ id, left.row? id = ((lastTo id changes).map fun c => (Tables.rowOf c).head?).getD
      (t.row? id) := by
    intro id
    have h := hwritten.row?_last id
    rwa [List.zipIdx_map_fst] at h
  have hparts : ∀ id, left.partsOf id = ((lastTo id changes).map Tables.placesOf).getD
      (t.partsOf id) := by
    intro id
    have h := hwritten.partsOf_last id
    rwa [List.zipIdx_map_fst] at h
  have hlinks : ∀ id, left.linksOf id = ((lastTo id changes).map Tables.linkRows).getD
      (t.linksOf id) := by
    intro id
    have h := hwritten.linksOf_last id
    rwa [List.zipIdx_map_fst] at h
  have hfound : ∀ id, left.foundOf id = ((lastTo id changes).map Tables.foundRows).getD
      (t.foundOf id) := by
    intro id
    have h := hwritten.foundOf_last hindexed id
    rwa [List.zipIdx_map_fst] at h
  -- what stands at an IRI: what stood there, or what its last change leaves
  have hheld : ∀ id a, left.artifact id = some a →
      lastTo id changes = none ∧ t.artifact id = some a ∨
        ∃ c, lastTo id changes = some c ∧ c.content = some a ∧ c.kind = some a.kind ∧
            c.artifact = id := by
    intro id a ha
    obtain ⟨r, hr, rfl⟩ := Option.map_eq_some_iff.mp ha
    rw [hrow id] at hr
    cases hlast : lastTo id changes with
    | none =>
        rw [hlast] at hr
        exact Or.inl ⟨rfl, Option.map_eq_some_iff.mpr ⟨r, hr, rfl⟩⟩
    | some c =>
        rw [hlast] at hr
        obtain ⟨hmem, hid⟩ := lastTo_mem hlast
        have hr : r ∈ Tables.rowOf c := List.mem_of_mem_head? hr
        obtain ⟨a, kind, hcontent, _, rfl⟩ := (Tables.mem_rowOf c).mp hr
        exact Or.inr ⟨c, rfl, hcontent, (hsound c hmem a hcontent).2.2, hid⟩
  refine ⟨⟨hleft.noted, hleft.once⟩, fun id a ha => ?_, fun id a ha => ?_, fun id a ha => ?_,
    fun id hid => ?_⟩
  · show left.partsOf id = _
    rcases hheld id a ha with ⟨hlast, hold⟩ | ⟨c, hlast, hcontent, _, _⟩
    · rw [hparts, hlast]
      exact ht.parts id a hold
    · rw [hparts, hlast]
      show Tables.placesOf c = _
      rw [Tables.placesOf, hcontent, (hcs id c a hlast hcontent).parts]
      rfl
  · show ∃ found, Kb.searchable O a = .ok found ∧ left.foundOf id = _
    rcases hheld id a ha with ⟨hlast, hold⟩ | ⟨c, hlast, hcontent, hkind, _⟩
    · rw [hfound, hlast]
      exact ht.found id a hold
    · refine ⟨c.searched, (hcs id c a hlast hcontent).searched, ?_⟩
      rw [hfound, hlast]
      show Tables.foundRows c = _
      rw [Tables.foundRows, hcontent, hkind]
  · show ∃ own, (left.linksOf id = _ ∨ _ ∧ left.linksOf id = own) ∧ _
    rcases hheld id a ha with ⟨hlast, hold⟩ | ⟨c, hlast, hcontent, hkind, hid⟩
    · rw [hlinks, hlast]
      exact ht.links id a hold
    · obtain ⟨links, hown, himplicit⟩ := (hcs id c a hlast hcontent).links
      rw [hlinks, hlast]
      subst hid
      have hown' : ∀ k, ∀ r ∈ (links.zipIdx k).map (fun p =>
          (⟨c.artifact, p.2, (p.1.field.column.getD ""), p.1.place, p.1.target, p.1.part,
              p.1.implicit, p.1.holder⟩ : LinkRow)), r.implicit = false := by
        intro k r hr
        obtain ⟨p, hp, rfl⟩ := List.mem_map.mp hr
        exact himplicit p.1 (List.fst_mem_of_mem_zipIdx hp)
      rcases hown with hown | ⟨hmeta, hown⟩
      · refine ⟨_, Or.inl ?_, hown' 1⟩
        show Tables.linkRows c = _
        rw [Tables.linkRows, hcontent, hown]
        rfl
      · refine ⟨_, Or.inr ⟨hmeta, ?_⟩, hown' 0⟩
        show Tables.linkRows c = _
        rw [Tables.linkRows, hcontent, hown]
        rfl
  · show left.partsOf id = [] ∧ left.foundOf id = [] ∧ left.linksOf id = []
    rw [hparts, hfound, hlinks]
    cases hlast : lastTo id changes with
    | none =>
        have hold : left.holds id = t.holds id :=
          hwritten.holds_unchanged (by rwa [List.zipIdx_map_fst])
        exact ht.unheld id (hold.symm.trans hid)
    | some c =>
        have hnone : left.holds id = c.content.isSome :=
          hwritten.holds_last (by rwa [List.zipIdx_map_fst])
        have hnone : c.content = none := by
          have hleft : left.holds id = false := hid
          rw [hleft] at hnone
          simpa using hnone.symm
        refine ⟨?_, ?_, ?_⟩
        · show Tables.placesOf c = []
          simp [Tables.placesOf, hnone]
        · show Tables.foundRows c = []
          simp [Tables.foundRows, hnone]
        · show Tables.linkRows c = []
          simp [Tables.linkRows, hnone]

end Landing

/-! ## The changes of a drafted set -/

namespace Links

/-- The links handed of an artifact: kb's own, then those it carries. -/
theorem handed_ok {O : Outside} {corpus : Corpus} {a : Artifact} {schema : Value}
    {waited : List Told} {links : List Link} (h : handed O corpus a schema waited = .ok links) :
    ∃ own, links = implicitTo a.kind :: own ∧ ∀ l ∈ own, l.implicit = false := by
  obtain ⟨carried, _, h⟩ := bind_ok.mp h
  obtain ⟨found, hfound, h⟩ := bind_ok.mp h
  refine ⟨_, (Except.ok.inj h).symm, fun l hl => ?_⟩
  obtain ⟨p, hp, rfl⟩ := List.mem_map.mp hl
  obtain ⟨link, hlink, hsome⟩ := List.mem_filterMap.mp (List.of_mem_zip hp).1
  obtain ⟨c, _, hread⟩ := forall₂_of_mem_right (mapM_ok.mp hfound) hlink
  show p.1.implicit = false
  unfold read at hread
  split at hread
  · split at hread
    · cases hread
      cases hsome
    · obtain ⟨targets, _, hread⟩ := bind_ok.mp hread
      obtain ⟨kinds, _, hread⟩ := bind_ok.mp hread
      cases hread
      rw [← Option.some.inj hsome]
  · cases hread
    cases hsome

end Links

namespace Drafting

/-- The last change handed to an IRI is for the last change the set made there. -/
theorem lastTo_handed {R : Done → Bool → Change → Prop}
    (hR : ∀ c last h, R c last h → h.artifact = c.artifact) {changes : List Done} {read : List Int}
    {handed : List Change}
    (h : List.Forall₂ (fun (each : (Done × Bool) × Int) g => R each.1.1 each.1.2 g)
      ((lasts changes).zip read) handed)
    (hlength : changes.length ≤ read.length) {id : ArtifactId} {g : Change}
    (hg : lastTo id handed = some g) :
    ∃ c, c.artifact = id ∧ R c true g := by
  induction changes generalizing read handed with
  | nil =>
      cases h
      cases hg
  | cons c changes ih =>
      cases read with
      | nil => simp at hlength
      | cons r read =>
          rw [lasts, List.zip_cons_cons] at h
          cases h with
          | @cons _ first _ rest hfirst hrest =>
              rw [lastTo] at hg
              rcases Option.or_eq_some_iff.mp hg with hg | ⟨hnone, hg⟩
              · exact ih hrest (by simpa using hlength) hg
              · split at hg
                · next hid =>
                    cases hg
                    refine ⟨c, (hR _ _ _ hfirst).symm.trans hid, ?_⟩
                    have hlast :
                        (changes.any fun later => later.artifact = c.artifact) = false := by
                      rw [List.any_eq_false]
                      intro later hlater hsame
                      have hsame : later.artifact = c.artifact := by simpa using hsame
                      have hmem : ∃ flag r, ((later, flag), r) ∈ (lasts changes).zip read := by
                        obtain ⟨p, hp, hfst⟩ :=
                          List.mem_map.mp
                          (by rw [lasts_map_fst]; exact hlater : later ∈ (lasts
                          changes).map Prod.fst)
                        obtain ⟨i, hi, rfl⟩ := List.mem_iff_getElem.mp hp
                        have hi' : i < read.length := by
                          have hlen := congrArg List.length (lasts_map_fst changes)
                          simp only [List.length_map, List.length_cons] at hlen hlength
                          omega
                        refine ⟨(lasts changes)[i].2, read[i], ?_⟩
                        rw [← hfst]
                        exact List.mem_iff_getElem.mpr ⟨i, by simp [hi, hi'], by simp⟩
                      obtain ⟨flag, r, hmem⟩ := hmem
                      obtain ⟨g', hg', hR'⟩ := forall₂_of_mem hrest hmem
                      have hne := lastTo_eq_none.mp hnone g' hg'
                      exact hne
                        ((hR _ _ _ hR').trans (hsame.trans ((hR _ _ _ hfirst).symm.trans hid)))
                    rw [hlast] at hfirst
                    exact hfirst
                · cases hg

theorem lastTo_map {f : Change → Change} (hf : ∀ c, (f c).artifact = c.artifact) (id : ArtifactId)
    (cs : List Change) :
    lastTo id (cs.map f) = (lastTo id cs).map f := by
  induction cs with
  | nil => rfl
  | cons c cs ih =>
      rw [List.map_cons, lastTo, lastTo, ih, hf]
      rcases lastTo id cs with _ | later
      · by_cases h : c.artifact = id <;> simp [h]
      · simp

/-- The last change a drafted set hands to an artifact hands what its content says. -/
theorem drafted_derives {O : Outside} {t : Tables} {operations : List Operation} {d : Drafted}
    (h : drafted O t operations = .ok d) {id : ArtifactId} {c : Change} {a : Artifact}
    (hc : lastTo id d.handed = some c) (ha : c.content = some a) : c.Derives O a := by
  obtain ⟨left, outcomes, read, plain, hpasses⟩ := drafted_ok h
  rw [hpasses.handed] at hc
  unfold Standing.guarded at hc
  simp only at hc
  rw [lastTo_map fun change => by rfl] at hc
  obtain ⟨c', hc', rfl⟩ := Option.map_eq_some_iff.mp hc
  have hbyOne : List.Forall₂ (fun (each : (Done × Bool) × Int) g => ∃ r,
      Handing.handed O d.draft each.1.1 r each.1.2 = .ok g)
      ((lasts d.changes).zip read) plain := hpasses.byOne.imp fun _ _ hg => ⟨_, hg⟩
  have hartifact : ∀ c last g, (∃ r, Handing.handed O d.draft c r last = .ok g) →
      g.artifact = c.artifact := by
    rintro c last g ⟨r, hg⟩
    exact (Handing.handed_ok hg).alike.1
  obtain ⟨done, _, r, hg⟩ :=
    lastTo_handed (R := fun c last g => ∃ r, Handing.handed O d.draft c r last = .ok g) hartifact
    hbyOne (readAt_ok hpasses.asRead).length_eq.le hc'
  cases Handing.handed_ok hg with
  | gone hleft => cases ha
  | last hleft hsearched hversion hmade htype hschema hcarried hthrough =>
      cases ha
      obtain ⟨own, rfl, himplicit⟩ := Links.handed_ok hcarried
      refine ⟨rfl, hsearched, ?_⟩
      by_cases hop : done.op = .import_
      · refine ⟨Handing.marked own, Or.inl ?_, fun l hl => ?_⟩
        · show (if done.op = .import_ then _ else _) = _
          rw [if_pos hop]
          rfl
        · obtain ⟨l', hl', rfl⟩ := List.mem_map.mp hl
          rw [if_neg (by simp [himplicit l' hl'])]
          exact himplicit l' hl'
      · refine ⟨own, Or.inl ?_, himplicit⟩
        show (if done.op = .import_ then _ else _) = _
        rw [if_neg hop]

end Drafting

/-! ## Over a run -/

/-- What the type of types is found by: its title. -/
theorem searchable_metaschema {O : Outside} (hdepth : 0 < O.depth) :
    searchable O Start.METASCHEMA = .ok [⟨"field", "title", O.words "Schema"⟩] := by
  obtain ⟨depth, hdepth⟩ := Nat.exists_eq_succ_of_ne_zero hdepth.ne'
  unfold searchable
  rw [hdepth]
  rfl

theorem parts_metaschema : [] = Places.parts Start.METASCHEMA.whole := by decide +kernel

theorem Fresh.derived {O : Outside} (hdepth : 0 < O.depth) {t : Tables} (h : Fresh O t) :
    t.Derived O := by
  obtain ⟨_, _, _, _, _, hlands⟩ := h.landed
  refine hlands.derived (O := O) ⟨⟨rfl, List.nodup_nil⟩, nofun, nofun, nofun,
    fun _ _ => ⟨rfl, rfl, rfl⟩⟩ ?_ ?_
  · exact Start.created_sound O
  · intro id c a hc ha
    rw [List.mem_singleton.mp (lastTo_mem hc).1] at ha ⊢
    cases ha
    exact ⟨parts_metaschema, searchable_metaschema hdepth, [], Or.inr ⟨rfl, rfl⟩, nofun⟩

theorem Move.Comes.derived {O : Outside} {t t' : Tables} {past : List Tables}
    (h : Move.Comes O t past t') (ht : t.Derived O) (hpast : ∀ s ∈ t :: past, s.Sound) :
    t'.Derived O := by
  cases h with
  | idle => exact ht
  | recorded _ h => exact h.derived ht nofun nofun
  | asked hasked hon _ hd _ hlands =>
      exact hlands.derived ht
        (Drafting.drafted_sound hd (hpast _ hon) fun op hop =>
          Operation.named_of_asked (hasked op hop))
        fun _ _ _ => Drafting.drafted_derives hd
  | brought hops hd _ hlands =>
      refine hlands.derived ht
        (Drafting.drafted_sound hd (hpast _ List.mem_cons_self) fun op hop => ?_)
        fun _ _ _ => Drafting.drafted_derives hd
      obtain ⟨name, a, rfl, hbrought⟩ := hops op hop
      exact hbrought.named

/-- Every store of a run derives of each artifact what its content says. -/
theorem Run.derived {O : Outside} (hdepth : 0 < O.depth) {states : List Tables} (h : Run O states) :
    ∀ t ∈ states, t.Derived O :=
  History.Run.invariant (fun _ hs => hs.derived hdepth)
    (fun _ _ _ hrun hpast ⟨_, _, hmove⟩ =>
      hmove.comes.derived (hpast _ List.mem_cons_self) (Run.sound hrun)) h

end Kb
