/-
# `Kb.Integrity` — landings keep links landing

`_integral` over whole sequences of landings.  A link from outside a set that landed before it lands
after it; a link the set hands lands, or waits where it may; and a set refused for the links into
what it takes out is refused for exactly those.  All three are read of the two checks at the end of
a landing, by what a set leaves at each IRI; the first and the last need what was noted of an
artifact before its first change to be what it was when the set came, and a revision of 0 to mean
that nothing was held.
-/
import Kb.Holding
import Kb.Lib.History

namespace Kb

open Landing Raising

/-! ## Stores whose revisions count from 1 -/

/-- Every artifact held is at a revision of 1 or more. -/
def Tables.Counted (t : Tables) : Prop := ∀ r ∈ t.artifacts, 1 ≤ r.revision

/-- Every change that leaves an artifact leaves it at a revision of 1 or more. -/
def Landing.Counting (changes : List Change) : Prop :=
  ∀ c ∈ changes, c.content.isSome = true → 1 ≤ c.revision

namespace Tables

theorem Counted.wrote {t : Tables} (h : t.Counted) {c : Change}
    (hc : c.content.isSome = true → 1 ≤ c.revision) (landed step : Nat) :
    (t.wrote landed step c).Counted := by
  intro r hr
  rcases List.mem_append.mp hr with hr | hr
  · exact h r (List.mem_filter.mp hr).1
  · obtain ⟨a, kind, ha, _, rfl⟩ := (mem_rowOf c).mp hr
    exact hc (by simp [ha])

/-- In a store whose revisions count from 1, 0 is the mark of an IRI that holds nothing, and of no
other. -/
theorem Counted.revisionAt_eq_zero {t : Tables} (h : t.Counted) (id : ArtifactId) :
    t.revisionAt id = 0 ↔ t.holds id = false := by
  unfold revisionAt holds
  rcases hrow : t.row? id with _ | r
  · simp
  · have hr := h r (List.mem_of_find?_eq_some hrow)
    simp only [Option.map_some, Option.getD_some, Option.isSome_some, Bool.true_eq_false, iff_false]
    omega

end Tables

namespace Landing

theorem Written.counted {landed : Nat} {t t' : Tables} {cs : List (Change × Nat)}
    (h : Written landed t cs t') (ht : t.Counted)
    (hcs : ∀ p ∈ cs, p.1.content.isSome = true → 1 ≤ p.1.revision) : t'.Counted := by
  induction h with
  | nil => exact ht
  | cons _ _ _ ih =>
      exact ih (ht.wrote (hcs _ List.mem_cons_self) _ _) fun p hp =>
        hcs p (List.mem_cons_of_mem _ hp)

theorem Lands.counted {t t' : Tables} {changes : List Change} {entries : List Entry}
    (h : Lands t changes entries t') (ht : t.Counted) (hcs : Counting changes) : t'.Counted := by
  obtain ⟨left, hwritten, _, _, rfl⟩ := h.written
  have hfst : ∀ p ∈ changes.zipIdx, p.1 ∈ changes := fun p hp => by
    rw [← List.zipIdx_map_fst 0 changes]
    exact List.mem_map_of_mem hp
  exact hwritten.counted (t := opened t entries) ht fun p hp => hcs p.1 (hfst p hp)

/-! ## What was noted of an artifact -/

/-- Each artifact a set changes is noted once, as it was when the set came. -/
theorem mem_notedAll {landed : Nat} {t : Tables} {h : Held} {cs : List (Change × Nat)}
    {id : ArtifactId} {revision : Int} {parts : List String} :
    (id, revision, parts) ∈ (notedAll landed t h cs).before ↔ (id, revision, parts) ∈ h.before ∨
      Assoc.get h.before id = none ∧ (∃ p ∈ cs, p.1.artifact = id) ∧ revision = t.revisionAt id ∧
        parts = t.partsOf id := by
  induction cs generalizing t h with
  | nil => simp [notedAll]
  | cons p rest ih =>
      obtain ⟨c, step⟩ := p
      rw [notedAll, ih]
      by_cases hc : c.artifact = id
      · subst hc
        unfold noted
        rcases hget : Assoc.get h.before c.artifact with _ | v
        · simp only [Option.isSome_none, Bool.false_eq_true, if_false, List.mem_append,
            Prod.mk.injEq, true_and, Assoc.get_append, hget, Option.none_or, if_true, reduceCtorEq,
            false_and, or_false, List.mem_cons, exists_eq_or_imp, true_or, List.not_mem_nil]
        · simp [hget]
      · have hget : Assoc.get (noted t h c).before id = Assoc.get h.before id := by
          unfold noted
          split
          · rfl
          · rw [Assoc.get_append, if_neg hc, Option.or_none]
        have hmem : (id, revision, parts) ∈ (noted t h c).before ↔
            (id, revision, parts) ∈ h.before := by
          unfold noted
          split
          · rfl
          · simp [Ne.symm hc]
        rw [hget, hmem, Tables.revisionAt_wrote_ne _ _ _ _ (Ne.symm hc),
          Tables.partsOf_wrote, if_neg hc]
        simp [hc]

/-! ## A set refused for the links into what it takes out -/

/-- A call that refuses no set for the links into what it takes out. -/
abbrev Unlinking {α : Type} (links : List Linking) (x : Raises α) : Prop :=
  Only (· ≠ Error.linked links) x

theorem check_unlinking {links : List Linking} {f : Tables → Held → Option Error}
    (hf : ∀ t h, f t h ≠ some (.linked links)) (out : Tables × Held) :
    Unlinking links (check f out) := by
  obtain ⟨t, h⟩ := out
  simp only [check]
  cases he : f t h with
  | none => exact .ok _
  | some e => exact Only.error fun e' => hf t h (he.trans (congrArg _ e'))

theorem changing_unlinking (links : List Linking) (cs : List (Change × Nat)) (out : Tables × Held) :
    Unlinking links (runAll (changing cs) out) := by
  induction cs generalizing out with
  | nil => exact .ok _
  | cons p rest ih =>
      obtain ⟨t, h⟩ := out
      obtain ⟨c, step⟩ := p
      have hsplit :
        changing ((c, step) :: rest) = comparing c :: (written c step ++ changing rest) := rfl
      have hwritten : ∀ out, Unlinking links (runAll (written c step) out) := by
        intro out e he
        rcases written_only c step out e he with rfl | rfl
        · exact fun h => by cases h
        · exact fun h => by cases h
      rw [hsplit, runAll_cons]
      refine Only.bind ?_ fun out _ => ?_
      · simp only [comparing]
        by_cases hr : compared t c.artifact c.read = true
        · rw [if_pos hr]
          exact .ok _
        · rw [if_neg hr]
          exact .error (by simp)
      · rw [runAll_append]
        exact (hwritten out).bind fun out _ => ih out

/-- Only the check of integrity refuses a set for links into what it takes out. -/
theorem landed_linked {t : Tables} {changes : List Change} {entries : List Entry}
    {links : List Linking} (h : landed t changes entries = .error (.linked links)) :
    ∃ left', Written (t.lastSet + 1) (opened t entries) changes.zipIdx left' ∧
      left left' changes
        (notedAll (t.lastSet + 1) (opened t entries) {} changes.zipIdx).before = links := by
  have hscript : script (changes, entries) =
      unheld entries :: numbered entries :: unmoved changes :: waited changes ::
        (changing changes.zipIdx ++ [integral changes, recorded entries]) := rfl
  have hrun : runAll (script (changes, entries)) (t, {}) = .error (.linked links) := by
    rw [landed_eq] at h
    cases hrun : runAll (script (changes, entries)) (t, {}) with
    | error e =>
        rw [hrun] at h
        exact congrArg _ (Except.error.inj h)
    | ok out =>
        rw [hrun] at h
        cases h
  have hnumbered : ∀ out, Unlinking links (numbered entries out) := by
    rintro ⟨t, h⟩
    simp only [numbered]
    split
    · exact .error (by simp)
    · exact .ok _
  rw [hscript, runAll_cons] at hrun
  obtain ⟨_, h1, hrun⟩ :=
    Only.past (check_unlinking (fun t h => by simp only; split <;> simp) _) hrun
  obtain ⟨_, rfl⟩ := (unheld_iff ..).mp h1
  rw [runAll_cons] at hrun
  obtain ⟨_, h2, hrun⟩ := Only.past (hnumbered _) hrun
  obtain ⟨_, rfl⟩ := (numbered_iff ..).mp h2
  rw [runAll_cons] at hrun
  obtain ⟨_, h3, hrun⟩ := Only.past (check_unlinking (fun t h => by split <;> simp) _) hrun
  obtain ⟨_, rfl⟩ := (unmoved_iff ..).mp h3
  rw [runAll_cons] at hrun
  obtain ⟨_, h4, hrun⟩ := Only.past (Only.ok _) hrun
  cases h4
  rw [runAll_append] at hrun
  obtain ⟨_, h5, hrun⟩ := Only.past (changing_unlinking links _ _) hrun
  obtain ⟨left', hwritten, rfl⟩ := (changing_iff ..).mp h5
  refine ⟨left', hwritten, ?_⟩
  rw [notedAll_before (t.lastSet + 1) (opened t entries) {}
    { landed := t.lastSet + 1, waited := waitedNow (opened t entries) changes } _ rfl]
  rw [runAll_cons] at hrun
  generalize notedAll (t.lastSet + 1) (opened t entries) _ changes.zipIdx = noted at hrun ⊢
  simp only [integral, check] at hrun
  cases hun : unlanded left' changes noted.waited with
  | cons u us =>
      rw [hun] at hrun
      cases hrun
  | nil =>
      rw [hun] at hrun
      cases hleft : left left' changes noted.before with
      | nil =>
          rw [hleft] at hrun
          cases hrun
      | cons l ls =>
          rw [hleft] at hrun
          exact Error.linked.inj (Except.error.inj hrun)

end Landing

/-! ## Links, before a set and after it -/

namespace Tables

/-- Whether a link the store holds lands: its target is held, and so is the part it names, if
any. -/
def Lands (t : Tables) (r : LinkRow) : Prop :=
  t.holds r.target = true ∧ (r.part = "" ∨ r.part ∈ t.partsOf r.target)

instance (t : Tables) (r : LinkRow) : Decidable (t.Lands r) := by unfold Lands; infer_instance

theorem mem_linksInto {t : Tables} {id : ArtifactId} {each : Linking} :
    each ∈ t.linksInto id ↔ ∃ r ∈ t.links, r.target = id ∧ linking r = each := by
  simp only [linksInto, List.mem_map, List.mem_insertionSort, List.mem_filter,
    decide_eq_true_eq, and_assoc]

end Tables

namespace Landing

/-- Where a link a set hands for an artifact may be left, the store being `t` before the set and
`t'` after it: landing on an artifact of one of its kinds and on a part that holds; waiting on a
part, when an import brings it or it says so and its artifact held it waiting; or waiting on an
artifact under a type held that it carries and may land on. -/
inductive Left (t t' : Tables) (id : ArtifactId) (link : Link) (asTold : Option Told) : Prop where
  | lands {r : ArtifactRow} : t'.row? link.target = some r → .text r.kind.iri ∈ link.kinds →
      (link.part = "" ∨ link.part ∈ t'.partsOf link.target) → Left t t' id link asTold
  | partWaits {r : ArtifactRow} : t'.row? link.target = some r → .text r.kind.iri ∈ link.kinds →
      link.part ∉ t'.partsOf link.target →
      (link.imported = true ∨ link.waits = true ∧ ∃ told, asTold = some told ∧
        told ∈ heldWaiting (t.waitingOf id)) →
      Left t t' id link asTold
  | waits {under : ArtifactId} : t'.holds link.target = false → link.implicit = false →
      link.under = some under →
      .text under.iri ∈ link.kinds → t'.holds under = true → Left t t' id link asTold

/-- Whether a set takes out what a link of the store lands on: it removes the artifact, or leaves it
without a part it held that the link names. -/
def TakesOut (t : Tables) (changes : List Change) (r : LinkRow) : Prop :=
  t.holds r.target = true ∧ ∃ c, (r.target, c) ∈ last changes ∧
    (c.content = none ∨ c.content.isSome = true ∧ r.part ∈ t.partsOf r.target ∧ r.part ∉ c.parts)

/-- What `_lands` allows is where a link may be left. -/
theorem left_of_lands {t t' : Tables} {id : ArtifactId} {link : Link} {asTold : Option Told}
    (h : lands t' link asTold (heldWaiting (t.waitingOf id)) = true) :
    Left t t' id link asTold := by
  unfold lands at h
  rcases hrow : t'.row? link.target with _ | r
  · simp only [hrow, vouched] at h
    rcases hunder : link.under with _ | under
    · simp [hunder] at h
    · simp only [hunder, Bool.and_eq_true, Bool.not_eq_true', List.contains_iff_mem] at h
      obtain ⟨⟨himplicit, hkind⟩, hheld⟩ := h
      exact .waits (by simp [Tables.holds, hrow]) himplicit hunder hkind hheld
  · simp only [hrow, Bool.and_eq_true, List.contains_iff_mem] at h
    obtain ⟨hkind, hpart⟩ := h
    by_cases hheld : link.part = "" ∨ link.part ∈ t'.partsOf link.target
    · exact .lands hrow hkind hheld
    · obtain ⟨hnamed, hlacks⟩ := not_or.mp hheld
      refine .partWaits hrow hkind hlacks ?_
      rcases asTold with _ | told <;> simp_all

/-- Links handed with nothing refused are each left where they may be. -/
theorem left_of_unlanded {t t' : Tables} {changes : List Change}
    (h : unlanded t' changes (waitedNow t changes) = []) {id : ArtifactId} {c : Change}
    (hc : (id, c) ∈ last changes) (hcontent : c.content.isSome = true) :
    ∀ p ∈ c.links.zip (told c.links), Left t t' id p.1 p.2 := by
  intro p hp
  have hwaited : Assoc.get (waitedNow t changes) id = some (heldWaiting (t.waitingOf id)) := by
    obtain ⟨hmem, rfl⟩ := lastTo_mem (mem_last.mp hc)
    have hfrom : ∀ (cs : List Change), c ∈ cs →
        Assoc.get (waitedNow t cs) c.artifact = some (heldWaiting (t.waitingOf c.artifact)) := by
      intro cs
      induction cs with
      | nil => exact nofun
      | cons first rest ih =>
          intro hin
          have hcons : waitedNow t (first :: rest) =
              (first.artifact, heldWaiting (t.waitingOf first.artifact)) :: waitedNow t rest := rfl
          rw [hcons, Assoc.get_cons]
          split
          · next he => rw [he]
          · next hne => exact ih ((List.mem_cons.mp hin).resolve_left fun e => hne (e ▸ rfl))
    exact hfrom changes hmem
  have heach := List.flatMap_eq_nil_iff.mp h (id, c) hc
  have hsome : c.content.isNone = false := by simpa using hcontent
  simp only [hsome, Bool.false_eq_true, if_false, List.map_eq_nil_iff,
    List.filter_eq_nil_iff, hwaited, Option.getD_some] at heach
  exact left_of_lands (by simpa using heach p hp)

theorem toldFrom_length (seen keys : List Key) : (toldFrom seen keys).length = keys.length := by
  induction keys generalizing seen with
  | nil => rfl
  | cons key rest ih => rw [toldFrom, List.length_cons, ih, List.length_cons]

theorem Lands.left {t t' : Tables} {changes : List Change} {entries : List Entry}
    (h : Lands t changes entries t') {id : ArtifactId} {c : Change} (hc : (id, c) ∈ last changes)
    (hcontent : c.content.isSome = true) {i : Nat} {link : Link} (hlink : c.links[i]? = some link) :
    ∃ asTold, (told c.links)[i]? = some asTold ∧ Left t t' id link asTold := by
  obtain ⟨left', hwritten, hun, _, rfl⟩ := h.written
  have hlength : (told c.links).length = c.links.length := by
    rw [told, toldFrom_length, List.length_map]
  obtain ⟨hi, hat⟩ := List.getElem?_eq_some_iff.mp hlink
  have hi' : i < (told c.links).length := hlength.symm ▸ hi
  have hmem : (link, (told c.links)[i]) ∈ c.links.zip (told c.links) := by
    refine List.mem_iff_getElem?.mpr ⟨i, ?_⟩
    exact List.getElem?_zip_eq_some.mpr ⟨hlink, List.getElem?_eq_getElem hi'⟩
  have hun' : unlanded { left' with entries := left'.entries ++ entries } changes
    (waitedNow t changes) = [] := hun
  exact ⟨_, List.getElem?_eq_getElem hi', left_of_unlanded hun' hc hcontent _ hmem⟩

/-- What the check of a landing finds linking into what a set takes out. -/
theorem mem_left {landed : Nat} {t t' : Tables} {changes : List Change}
    (h : Written landed t changes.zipIdx t') (ht : t.Counted) {each : Linking} :
    each ∈ left t' changes (notedAll landed t {} changes.zipIdx).before ↔
      ∃ r ∈ t.links, Tables.linking r = each ∧ (∀ c ∈ changes, c.artifact ≠ r.source) ∧
        TakesOut t changes r := by
  have hfst : changes.zipIdx.map Prod.fst = changes := List.zipIdx_map_fst 0 changes
  have hchanged : ∀ id, (∃ p ∈ changes.zipIdx, p.1.artifact = id) ↔
      ∃ c ∈ changes, c.artifact = id := by
    intro id
    constructor
    · rintro ⟨p, hp, he⟩
      exact ⟨p.1, hfst ▸ List.mem_map_of_mem hp, he⟩
    · rintro ⟨c, hc, he⟩
      obtain ⟨p, hp, rfl⟩ := List.mem_map.mp (hfst.symm ▸ hc)
      exact ⟨p, hp, he⟩
  have houtside : ∀ id, (!(last changes).any fun change => change.1 = id) = true ↔
      ∀ c ∈ changes, c.artifact ≠ id := by
    intro id
    rw [← lastTo_eq_none, Bool.not_eq_true', Bool.eq_false_iff, Ne, any_last,
      Option.eq_none_iff_forall_not_mem]
    simp
  have hkeeps : ∀ r : LinkRow, (∀ c ∈ changes, c.artifact ≠ r.source) →
      (r ∈ t'.links ↔ r ∈ t.links) := by
    intro r hr
    rw [Tables.mem_links_iff, Tables.mem_links_iff, h.linksOf_last r.source, hfst,
      lastTo_eq_none.mpr hr]
    rfl
  have hgone : ∀ (id : ArtifactId) (part : String) (c : Change), lastTo id changes = some c →
      ((!t'.holds id || (t.partsOf id).contains part && !(t'.partsOf id).contains part) = true ↔
        c.content = none ∨ c.content.isSome = true ∧ part ∈ t.partsOf id ∧ part ∉ c.parts) := by
    intro id part c hc
    have hc' : lastTo id (changes.zipIdx.map Prod.fst) = some c := hfst.symm ▸ hc
    rw [h.holds_last hc', h.partsOf_last id, hc']
    rcases hcontent : c.content with _ | a
    · simp
    · simp [Tables.placesOf, hcontent, Settled.mem_once]
  unfold left
  rw [List.mem_flatMap]
  constructor
  · rintro ⟨⟨id, revision, parts⟩, hnoted, heach⟩
    obtain ⟨_, hin, rfl, rfl⟩ := (mem_notedAll.mp hnoted).resolve_left nofun
    simp only at heach
    split at heach
    · nomatch heach
    next hheld =>
    obtain ⟨hinto, hcond⟩ := List.mem_filter.mp heach
    rw [Bool.and_eq_true] at hcond
    obtain ⟨r, hr, rfl, rfl⟩ := Tables.mem_linksInto.mp hinto
    have hout : ∀ c ∈ changes, c.artifact ≠ r.source := (houtside r.source).mp hcond.1
    obtain ⟨c₀, hc₀, he₀⟩ := (hchanged _).mp hin
    obtain ⟨c, hc⟩ := Option.ne_none_iff_exists'.mp fun hnone => lastTo_eq_none.mp hnone c₀ hc₀ he₀
    have hholds : t.holds r.target = true := by
      rw [ht.revisionAt_eq_zero, Bool.not_eq_false] at hheld
      exact hheld
    exact ⟨r, (hkeeps r hout).mp hr, rfl, hout, hholds, c, mem_last.mpr hc,
      (hgone _ _ c hc).mp hcond.2⟩
  · rintro ⟨r, hr, rfl, hout, hholds, c, hc, hgone'⟩
    have hc' := mem_last.mp hc
    obtain ⟨hin, he⟩ := lastTo_mem hc'
    refine ⟨(r.target, t.revisionAt r.target, t.partsOf r.target),
      mem_notedAll.mpr (Or.inr ⟨rfl, (hchanged _).mpr ⟨c, hin, he⟩, rfl, rfl⟩), ?_⟩
    have hheld : ¬ t.revisionAt r.target = 0 := by
      rw [ht.revisionAt_eq_zero, hholds]
      exact nofun
    simp only [if_neg hheld]
    refine List.mem_filter.mpr ⟨Tables.mem_linksInto.mpr ⟨r, (hkeeps r hout).mpr hr, rfl, rfl⟩, ?_⟩
    rw [Bool.and_eq_true]
    exact ⟨(houtside r.source).mpr hout, (hgone _ _ c hc').mpr hgone'⟩

theorem Lands.keeps {t t' : Tables} {changes : List Change} {entries : List Entry}
    (h : Lands t changes entries t') (ht : t.Counted) {r : LinkRow} (hr : r ∈ t.links)
    (hout : ∀ c ∈ changes, c.artifact ≠ r.source) (hlands : t.Lands r) :
    r ∈ t'.links ∧ t'.Lands r := by
  obtain ⟨left', hwritten, _, hleft, rfl⟩ := h.written
  have hfst : changes.zipIdx.map Prod.fst = changes := List.zipIdx_map_fst 0 changes
  have hopened : (opened t entries).Counted := ht
  constructor
  · show r ∈ left'.links
    rw [Tables.mem_links_iff, hwritten.linksOf_last r.source, hfst, lastTo_eq_none.mpr hout]
    exact Tables.mem_links_iff.mp hr
  · show left'.Lands r
    rcases hc : lastTo r.target changes with _ | c
    · have hc' : lastTo r.target (changes.zipIdx.map Prod.fst) = none := hfst.symm ▸ hc
      refine ⟨(hwritten.holds_unchanged hc').trans hlands.1, hlands.2.imp id fun hpart => ?_⟩
      rw [hwritten.partsOf_last r.target, hc']
      exact hpart
    · have hc' : lastTo r.target (changes.zipIdx.map Prod.fst) = some c := hfst.symm ▸ hc
      have hnot : ¬ TakesOut t changes r := fun htakes => by
        have hmem : Tables.linking r ∈ Landing.left left' changes _ :=
          (mem_left hwritten hopened).mpr ⟨r, hr, rfl, hout, htakes⟩
        rw [hleft] at hmem
        nomatch hmem
      have hcontent : c.content.isSome = true := by
        rw [Option.isSome_iff_ne_none]
        exact fun hnone => hnot ⟨hlands.1, c, mem_last.mpr hc, Or.inl hnone⟩
      refine ⟨(hwritten.holds_last hc').trans hcontent, hlands.2.imp id fun hpart => ?_⟩
      rw [hwritten.partsOf_last r.target, hc']
      have hnone : c.content.isNone = false := by simpa using hcontent
      simp only [Option.map_some, Option.getD_some, Tables.placesOf, hnone, Bool.false_eq_true,
        if_false, Settled.mem_once]
      exact Classical.byContradiction fun hlacks =>
        hnot ⟨hlands.1, c, mem_last.mpr hc, Or.inr ⟨hcontent, hpart, hlacks⟩⟩

end Landing

/-! ## Every sequence of landings -/

namespace Integrity

/-- The stores a new database passes through, newest first, as sets land on it whose changes leave
revisions of 1 or more. -/
abbrev Landings : List Tables → Prop :=
  History.Run (fun t => t = {}) fun t _ t' => ∃ changes entries, Counting changes ∧
    landed t changes entries = .ok t'

theorem landings_counted {states : List Tables} (h : Landings states) : ∀ t ∈ states, t.Counted :=
  History.Run.invariant (by rintro _ rfl; exact nofun)
    (fun t _ _ _ hpast ⟨_, _, hcounting, hlanded⟩ =>
      ((landed_iff ..).mp hlanded).counted (hpast t List.mem_cons_self) hcounting) h

/-- The port keeps links landing: over any sequence of landings, a set that lands leaves every link
from outside it that landed landing, and every link it hands where it may be left; and one refused
for the links into what it takes out is refused for exactly those from outside it. -/
theorem landings_keep_links {states : List Tables} (h : Landings states) {t : Tables}
    (ht : t ∈ states) (changes : List Change) (entries : List Entry) :
    (∀ t', landed t changes entries = .ok t' →
      (∀ r ∈ t.links, (∀ c ∈ changes, c.artifact ≠ r.source) → t.Lands r →
        r ∈ t'.links ∧ t'.Lands r) ∧
      ∀ id c, (id, c) ∈ last changes → c.content.isSome = true → ∀ (i : Nat) link,
        c.links[i]? = some link →
        ∃ asTold, (told c.links)[i]? = some asTold ∧ Left t t' id link asTold) ∧
    ∀ links, landed t changes entries = .error (.linked links) → ∀ each, each ∈ links ↔
      ∃ r ∈ t.links, Tables.linking r = each ∧ (∀ c ∈ changes, c.artifact ≠ r.source) ∧
        TakesOut t changes r := by
  have hcounted := landings_counted h t ht
  constructor
  · intro t' hlanded
    have hlands := (landed_iff ..).mp hlanded
    exact ⟨fun r hr hout hlands' => hlands.keeps hcounted hr hout hlands',
      fun id c hc hcontent i link hlink => hlands.left hc hcontent hlink⟩
  · intro links hrefused each
    obtain ⟨left', hwritten, rfl⟩ := landed_linked hrefused
    exact mem_left (t := opened t entries) hwritten hcounted

/-! ## A target removed, and one that drops a part -/

namespace Refused

def type : ArtifactId := ⟨"https://kb.io/u", by decide⟩
def version : Version := ⟨type, 1, Nat.one_pos, by decide⟩
def target : ArtifactId := ⟨"https://kb.io/u/a", by decide⟩
def source : ArtifactId := ⟨"https://kb.io/u/b", by decide⟩

/-- An artifact with a part, and one with a link into it. -/
def creating : List Change :=
  [{ artifact := target, content := some ⟨target, version, 1, "A", []⟩, parts := ["p"],
     revision := 1, kind := some type },
   { artifact := source, content := some ⟨source, version, 1, "B", []⟩, revision := 1,
     kind := some type,
     links := [{ field := "f", place := "f", target, part := "p", kinds := [.text type.iri] }] }]

/-- The target changed, its part kept or not. -/
def replacing (parts : List String) : List Change :=
  [{ artifact := target, content := some ⟨target, version, 2, "A", []⟩, parts, read := 1,
     revision := 2, kind := some type }]

def removing : List Change := [{ artifact := target, content := none, read := 1, revision := 2 }]

def link : Linking := ⟨source, "f", "f", target, "p", some ""⟩
def row : LinkRow := ⟨source, 0, "f", "f", target, "p", false, some ""⟩

/-- The store the two are created in. -/
def store : Tables := (landed {} creating []).toOption.getD {}

/-- The store once its target has changed and kept its part. -/
def later : Tables := (landed store (replacing ["p"]) []).toOption.getD {}

end Refused

open Refused in
/-- A link whose target changes and keeps its part lands still; the removal of the target, and a
change that drops the part, are refused for that link and no other. -/
theorem landings_keep_links_refused :
    (row ∈ later.links ∧ later.Lands row) ∧
      (∀ each, each ∈ [link] ↔ ∃ r ∈ store.links, Tables.linking r = each ∧
        (∀ c ∈ removing, c.artifact ≠ r.source) ∧
        TakesOut store removing r) ∧
      ∀ each, each ∈ [link] ↔ ∃ r ∈ store.links, Tables.linking r = each ∧
      (∀ c ∈ replacing [], c.artifact ≠ r.source) ∧
        TakesOut store (replacing []) r := by
  have hstore : landed {} creating [] = .ok store := by decide +kernel
  have hcounting : Counting creating := by
    intro c hc _
    rcases List.mem_cons.mp hc with rfl | hc
    · exact le_refl 1
    · exact (List.mem_singleton.mp hc) ▸ le_refl 1
  have hrun : Landings [store, {}] := .step (.start rfl) ⟨creating, [], hcounting, hstore⟩
  have hlater : landed store (replacing ["p"]) [] = .ok later := by decide +kernel
  have hremoving : landed store removing [] = .error (.linked [link]) := by decide +kernel
  have hdropping : landed store (replacing []) [] = .error (.linked [link]) := by decide +kernel
  have hrow : row ∈ store.links ∧ store.Lands row := by decide +kernel
  refine ⟨?_, (landings_keep_links hrun List.mem_cons_self removing []).2 _ hremoving,
    (landings_keep_links hrun List.mem_cons_self (replacing []) []).2 _ hdropping⟩
  refine ((landings_keep_links hrun List.mem_cons_self (replacing ["p"]) []).1 later hlater).1 row
    hrow.1 ?_ hrow.2
  intro c hc
  rw [List.mem_singleton.mp hc]
  decide

end Integrity

end Kb
