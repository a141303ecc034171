/-
# `Kb.Retried` — a set drafted again under the lock is never refused as moved

`write.land` lands a set on whatever the store has become since it was drafted; the port refuses it
where something it was read at moved, and it is then drafted again while the write lock is held.
What is drafted on the very store it lands on has not moved: the draft stands, at every IRI, at the
revision the tables stand at when the set's changes so far are written (`Draft.Stands`), what it was
read through stands as it was read, and the ids minted are free.  So one retry is enough, and
`Conflict` never leaves `write.land` or `write.record`.
-/
import Kb.Recorded
import Kb.Derived

namespace Kb

open Raising

/-! ## Ids minted on the store they land on -/

namespace Journal

/-- Ids are each once where the seqs at each moment are. -/
theorem nodup_of_seqsAt {ids : List EntryId} (h : ∀ moment, (seqsAt ids moment).Nodup) :
    ids.Nodup := by
  induction ids with
  | nil => exact List.nodup_nil
  | cons id ids ih =>
      refine List.nodup_cons.mpr ⟨fun hid => ?_, ih fun moment => ?_⟩
      · have hown : seqsAt (id :: ids) id.moment = id.seq :: seqsAt ids id.moment := by
          simp [seqsAt]
        have hnodup := h id.moment
        rw [hown] at hnodup
        exact (List.nodup_cons.mp hnodup).1 (mem_seqsAt.mp hid)
      · have hsub : (seqsAt ids moment).Sublist (seqsAt (id :: ids) moment) :=
          ((List.sublist_cons_self id ids).filter _).map _
        exact (h moment).sublist hsub

/-- Ids minted on a store are free in it, and each once. -/
theorem minted_free (t : Tables) (moments : List Int) :
    (∀ id ∈ minted t moments [], id ∉ t.entries.map Entry.id) ∧ (minted t moments []).Nodup := by
  refine ⟨fun id hid hheld => ?_, nodup_of_seqsAt fun moment => ?_⟩
  · have hseq := mem_seqsAt.mp hid
    rw [seqsAt_minted, Assoc.get_nil, Option.getD_none, List.mem_range'_1] at hseq
    have hle : id.seq ≤ lastSeq t id.moment := Tables.le_foldl_max _ (Or.inr (mem_seqsAt.mp hheld))
    omega
  · rw [seqsAt_minted]
    exact List.nodup_range'

end Journal

/-! ## The draft and the tables, change by change -/

namespace Draft

/-- A draft stands at every IRI at the revision the tables stand at: 0 where it holds nothing. -/
def Stands (d : Draft) (m : Tables) : Prop :=
  ∀ id, m.revisionAt id = if d.holds id then ((d.artifact id).map Artifact.revision).getD 0 else 0

theorem stands_store {t : Tables} (ht : t.Sound) : ({ store := t } : Draft).Stands t := by
  intro id
  have hholds : ({ store := t } : Draft).holds id = t.holds id := by simp [holds]
  have hartifact : ({ store := t } : Draft).artifact id = t.artifact id := rfl
  rw [hholds, hartifact]
  cases ha : t.artifact id with
  | none =>
      have hrow : t.row? id = none := by simpa [Tables.artifact] using ha
      simp [Tables.revisionAt, hrow]
  | some a =>
      obtain ⟨_, hrevision, hheld, _⟩ := ht.artifact ha
      rw [hheld, hrevision]
      rfl

variable {d : Draft} {m : Tables} {landed step : Nat} {h : Change}

/-- A change written where the draft put an artifact at its revision. -/
theorem Stands.put (hs : d.Stands m) {a a' : Artifact} (hcontent : h.content = some a')
    (hkind : h.kind = some a'.kind) (hrevision : h.revision = a.revision) :
    (d.put h.artifact a).Stands (m.wrote landed step h) := by
  intro id
  rw [put_holds, put_artifact]
  by_cases hid : id = h.artifact
  · subst hid
    rw [(Tables.revisionAt_wrote_self m landed step h a' a'.kind hcontent hkind).1, if_pos rfl,
      if_pos rfl, if_pos rfl, hrevision]
    rfl
  · rw [Tables.revisionAt_wrote_ne m landed step h hid, if_neg hid, if_neg hid]
    exact hs id

/-- A change that takes out what the draft takes out. -/
theorem Stands.remove (hs : d.Stands m) (hcontent : h.content = none) :
    (d.remove h.artifact).Stands (m.wrote landed step h) := by
  intro id
  rw [remove_holds, remove_artifact]
  by_cases hid : id = h.artifact
  · subst hid
    have hrow : (m.wrote landed step h).row? h.artifact = none := by
      rw [Tables.row?_wrote, if_pos rfl]
      simp [Tables.rowOf, hcontent]
    rw [if_pos rfl, if_neg Bool.false_ne_true, Tables.revisionAt, hrow]
    rfl
  · rw [Tables.revisionAt_wrote_ne m landed step h hid, if_neg hid]
    exact hs id

theorem Stands.counting (hs : d.Stands m) (numbers : List (ArtifactId × Scalar)) :
    (d.counting numbers).Stands m := hs

/-- What the draft holds stands at its revision. -/
theorem Stands.held (hs : d.Stands m) {id : ArtifactId} {a : Artifact} (hholds : d.holds id = true)
    (ha : d.artifact id = some a) :
    m.revisionAt id = a.revision := by
  rw [hs id, if_pos hholds, ha]
  rfl

end Draft

namespace Edits

open Drafting

variable {O : Outside}

/-- An operation a client asks for reads its artifact where the tables stand, and leaves the draft
standing where they then do. -/
theorem Acts.stands {d d' : Draft} {op : Operation} {c : Done} (hacts : Acts O d op d' c)
    (hop : op.asked = true) {m : Tables} (hs : d.Stands m) {h : Change} (hc : Carries c h)
    (landed step : Nat) :
    m.revisionAt h.artifact = h.read ∧ d'.Stands (m.wrote landed step h) := by
  have hread : c.op ≠ .import_ ∨ c.left = none → h.read = h.revision - 1 := fun e => by
    rw [hc.read e, hc.revision]
  cases hacts with
  | @removed locator expected a hasRead ha =>
      obtain ⟨hholds, _⟩ := asRead_ok.mp hasRead
      have hartifact : h.artifact = locator.id := hc.artifact
      have hrevision : h.revision = a.revision + 1 := hc.revision
      have hstands := hs.held hholds ha
      refine ⟨?_, ?_⟩
      · rw [hartifact, hstands, hread (Or.inr rfl)]
        omega
      · rw [← hartifact]
        exact hs.remove (hc.gone.mpr rfl)
  | @created name version title _ content _ put type a _ _ _ _ hcreates _ =>
      obtain ⟨d₁, hnumbers, hdraft⟩ := hcreates.numbered
      obtain ⟨numbers, rfl⟩ := hnumbers.counting
      obtain ⟨schema, whole, _, _, _, horder⟩ := hcreates.items
      obtain ⟨ordered, rfl⟩ := Settled.order_ok horder
      have hartifact : h.artifact = name := hc.artifact
      have hrevision : h.revision = 1 := hc.revision
      obtain ⟨type', content', hcontent, hkind⟩ := hc.left _ rfl
      have hne : put.op ≠ .import_ := by
        rw [hcreates.op]
        nofun
      refine ⟨?_, ?_⟩
      · rw [hread (Or.inl hne), hrevision, hartifact, hs name, hcreates.free]
        rfl
      · rw [hdraft, ← hartifact]
        refine (hs.counting numbers).put hcontent ?_ hrevision
        rw [hc.kind, hcontent]
        rfl
  | @replaced locator _ _ _ _ put now _ _ _ _ _ _ _ hr _
  | @added locator _ _ _ put now _ _ _ _ _ _ _ hr _ =>
      obtain ⟨d₁, hnumbers, hdraft⟩ := hr.numbered
      obtain ⟨numbers, rfl⟩ := hnumbers.counting
      obtain ⟨schema, whole, _, _, _, horder⟩ := hr.items
      obtain ⟨ordered, rfl⟩ := Settled.order_ok horder
      have hartifact : h.artifact = locator.id := hc.artifact
      have hrevision : h.revision = now.revision + 1 := hc.revision
      obtain ⟨type', content', hcontent, hkind⟩ := hc.left _ rfl
      have hne : put.op ≠ .import_ := by
        rcases hr.op with hop' | hop'
        · rw [hop']
          nofun
        · rw [hop']
          nofun
      refine ⟨?_, ?_⟩
      · rw [hread (Or.inl hne), hrevision, hartifact, hs.held hr.held hr.stands]
        omega
      · rw [hdraft, ← hartifact]
        refine (hs.counting numbers).put hcontent ?_ hrevision
        rw [hc.kind, hcontent]
        rfl
  | imported => nomatch hop

end Edits

/-! ## What a landing raises -/

namespace Landing

/-- A call that refuses nothing as moved. -/
abbrev Unmoved {α : Type} (x : Raises α) : Prop := Only (· ≠ Error.conflict) x

theorem written_unmoved (c : Change) (step : Nat) (out : Tables × Held) :
    Unmoved (runAll (written c step) out) := by
  intro e he
  rcases written_only c step out e he with rfl | rfl
  · exact fun h => by cases h
  · exact fun h => by cases h

end Landing

namespace Drafting

open Landing

variable {O : Outside} {t : Tables} {operations : List Operation} {d : Drafted}

/-- The changes of a set, each read where the tables stand once those before it are written, are
refused by no comparison. -/
theorem Ran.unmoved {draft left : Draft} {operations : List Operation} {changes : List Done}
    {handed : List Change} (h : Ran O draft operations left changes)
    (hops : ∀ op ∈ operations, op.asked = true) (hcarries : List.Forall₂ Carries changes handed)
    {m : Tables} (hs : draft.Stands m) (k : Nat) (noted : Landing.Held) :
    Unmoved (runAll (changing (handed.zipIdx k)) (m, noted)) := by
  induction h generalizing handed m k noted with
  | nil =>
      cases hcarries
      exact .ok _
  | idle _ _ ih => exact ih (fun op hop => hops op (List.mem_cons_of_mem _ hop)) hcarries hs k noted
  | @cons _ _ _ op c _ _ hacts _ ih =>
      cases hcarries with
      | @cons _ g _ rest hc hrest =>
          obtain ⟨hread, hs'⟩ := hacts.stands (hops op List.mem_cons_self) hs hc noted.landed k
          have hsplit : changing ((g :: rest).zipIdx k) = comparing g ::
            (written g k ++ changing (rest.zipIdx (k + 1))) := rfl
          have hcompared : comparing g (m, noted) = .ok (m, Landing.noted m noted g) :=
            (comparing_iff ..).mpr ⟨hread, rfl⟩
          rw [hsplit, runAll_cons, hcompared]
          show Unmoved (runAll _ _)
          rw [runAll_append]
          refine (written_unmoved g k _).bind fun out hout => ?_
          obtain ⟨_, rfl⟩ := (written_iff ..).mp hout
          rw [noted_landed]
          exact ih (fun op hop => hops op (List.mem_cons_of_mem _ hop)) hrest hs' (k + 1) _

/-- What a set's changes were read through stands, on the store the set was drafted on, as it was
read. -/
theorem through_stands (h : drafted O t operations = .ok d) (hs : t.Sound) :
    ∀ c ∈ d.handed, ∀ each ∈ c.through, t.revisionAt each.1 = each.2 := by
  obtain ⟨left, outcomes, read, plain, hpasses⟩ := drafted_ok h
  have hstore := hpasses.store.2
  intro c hc each heach
  rw [hpasses.handed] at hc
  obtain ⟨c', hc', rfl⟩ := List.mem_map.mp hc
  rcases List.mem_append.mp heach with heach | heach
  · obtain ⟨p, _, hp⟩ := forall₂_of_mem_right hpasses.byOne hc'
    obtain ⟨types, hthrough⟩ := (Handing.handed_ok hp).through.resolve_left fun hnil => by
      rw [hnil] at heach
      nomatch heach
    rw [hthrough] at heach
    obtain ⟨id, _, heach⟩ := List.mem_filterMap.mp heach
    split at heach
    · nomatch heach
    split at heach
    · next a ha =>
        rw [hstore] at ha
        split at heach
        · cases heach
          exact (hs.artifact ha).2.1
        · nomatch heach
    · nomatch heach
  · obtain ⟨id, hid, rfl⟩ := List.mem_map.mp heach
    obtain ⟨hopen, hnone⟩ := List.mem_filter.mp hid
    have hsame := (List.mem_filter.mp hopen).2
    simp only [Draft.changed, Draft.holds, hstore, Bool.not_eq_true', Bool.or_eq_false_iff,
      decide_eq_false_iff_not] at hsame hnone
    have hunheld : t.holds id = false := by simpa [hsame.1, hsame.2] using hnone
    have hrow : t.row? id = none := by simpa [Tables.holds] using hunheld
    rw [Tables.revisionAt, hrow]
    rfl

end Drafting

namespace Landing

/-- A landing whose ids are free, whose types stand as they were read and whose changes are refused
by no comparison is not refused as moved. -/
theorem landed_unmoved {t : Tables} {changes : List Change} {entries : List Entry}
    (hids : (∀ e ∈ entries, e.id ∉ t.entries.map Entry.id) ∧ (entries.map Entry.id).Nodup)
    (hthrough : ∀ c ∈ changes, ∀ each ∈ c.through, t.revisionAt each.1 = each.2)
    (hchanging : ∀ noted, Unmoved (runAll (changing changes.zipIdx) (opened t entries, noted))) :
    landed t changes entries ≠ .error .conflict := by
  intro h
  have hscript : script (changes, entries) =
      unheld entries :: numbered entries :: unmoved changes :: waited changes ::
        (changing changes.zipIdx ++ [integral changes, recorded entries]) := rfl
  have hrun : runAll (script (changes, entries)) (t, {}) = .error .conflict := by
    rw [landed_eq] at h
    cases hrun : runAll (script (changes, entries)) (t, {}) with
    | error e =>
        rw [hrun] at h
        exact congrArg _ (Except.error.inj h)
    | ok out =>
        rw [hrun] at h
        cases h
  have hnumbered : ∀ out, Unmoved (numbered entries out) := by
    rintro ⟨t, h⟩
    simp only [numbered]
    split
    · exact .error (by simp)
    · exact .ok _
  rw [hscript, runAll_cons, (unheld_iff ..).mpr ⟨hids, rfl⟩] at hrun
  replace hrun : runAll _ _ = _ := hrun
  rw [runAll_cons] at hrun
  obtain ⟨_, hopened, hrun⟩ := Only.past (hnumbered _) hrun
  obtain ⟨_, rfl⟩ := (numbered_iff ..).mp hopened
  have hstands : ∀ c ∈ changes, ∀ each ∈ c.through, (opened t entries).revisionAt each.1 = each.2 :=
    hthrough
  rw [runAll_cons, (unmoved_iff changes (opened t entries) _ _).mpr ⟨hstands, rfl⟩] at hrun
  replace hrun : runAll _ _ = _ := hrun
  rw [runAll_cons] at hrun
  obtain ⟨_, hwaited, hrun⟩ := Only.past (Only.ok _) hrun
  cases hwaited
  rw [runAll_append] at hrun
  obtain ⟨⟨left, noted⟩, _, hrun⟩ := Only.past (hchanging _) hrun
  rw [runAll_cons] at hrun
  obtain ⟨_, _, hrun⟩ := Only.past (x := integral changes (left, noted)) (by
    simp only [integral, check]
    split
    · next e he =>
        refine Only.error fun hconflict => ?_
        subst hconflict
        split at he
        · split at he
          · cases he
          · cases he
        · cases he
    · exact .ok _) hrun
  cases hrun

end Landing

namespace Write

variable {O : Outside} {t : Tables} {d : Drafted} {moments : List Int} {signed : Signed}

theorem translated_conflict {draft : Draft} {e : Error} (h : translated draft e = .conflict) :
    e = .conflict := by
  cases e with
  | linked links => nomatch h
  | unlanded links => nomatch h
  | _ => exact h

/-- A set is refused as moved by the port alone. -/
theorem landing_conflict (h : landing O d moments signed t = .error .conflict) :
    ∃ entries, Write.entries O d moments signed t = .ok entries ∧
      Landing.landed t d.handed entries = .error .conflict := by
  cases hentries : Write.entries O d moments signed t with
  | error e =>
      have he : e = .misshapen := by
        unfold Write.entries at hentries
        split at hentries
        · exact (Except.error.inj hentries).symm
        · split at hentries
          · exact (Except.error.inj hentries).symm
          · nomatch hentries
      rw [landing, hentries, he] at h
      nomatch h
  | ok entries =>
      refine ⟨entries, rfl, ?_⟩
      cases hlanded : Landing.landed t d.handed entries with
      | error e =>
          simp only [landing, hentries, hlanded, bind, Except.bind] at h
          rw [translated_conflict (Except.error.inj h)]
      | ok t' =>
          simp only [landing, hentries, hlanded, bind, Except.bind] at h
          nomatch h

end Write

/-- One retry under the lock is enough: whatever store of a run the lock is taken on, a client's set
that removes no type, drafted there, lands there or is refused for what it is, and a snapshot
stamped there lands, but neither is refused as moved.  A set that removes a type is left out: what
asks which types read one has a draft keep the first version of each it had not read, and hand that
version's revision. -/
theorem retried_never_moved {O : Outside} {states : List Tables} (h : Run O states) {t : Tables}
    (ht : t ∈ states) :
    (∀ operations : List Operation, (∀ op ∈ operations, op.asked = true) →
      ∀ d, Drafting.drafted O t operations = .ok d →
      (∀ c ∈ d.changes, Standing.removesAType c = false) → ∀ moments signed,
        Write.landing O d moments signed t ≠ .error .conflict) ∧
    ∀ read signed moment, Write.snapshot read signed moment t t ≠ .error .conflict := by
  have hs := h.sound t ht
  refine ⟨fun operations hops d hd _ moments signed hlanding => ?_, fun read signed moment => ?_⟩
  · obtain ⟨left, outcomes, at_, plain, hpasses⟩ := Drafting.drafted_ok hd
    have hran := hpasses.ran
    rw [Drafting.byNumber_asked hops] at hran
    obtain ⟨entries, hentries, hlanded⟩ := Write.landing_conflict hlanding
    obtain ⟨_, hminted, _⟩ := Write.entries_ok hentries hpasses.texts
    obtain ⟨hfree, hnodup⟩ := Journal.minted_free t moments
    have hids : (∀ e ∈ entries, e.id ∉ t.entries.map Entry.id) ∧ (entries.map Entry.id).Nodup :=
      ⟨fun e he => hfree _ (hminted.ids ▸ List.mem_map_of_mem he), hminted.ids ▸ hnodup⟩
    have hstands : ({ store := t } : Draft).Stands (Landing.opened t entries) :=
      fun id => Draft.stands_store hs id
    exact Landing.landed_unmoved hids (Drafting.through_stands hd hs)
      (fun noted => hran.unmoved hops hpasses.carries hstands 0 noted) hlanded
  · obtain ⟨hfree, hnodup⟩ := Journal.minted_free t [moment]
    have hids : ((Journal.minted t [moment] []).map (Journal.snapshot signed read)).map Entry.id =
        Journal.minted t [moment] [] := by
      rw [List.map_map]
      exact List.map_id _
    refine Landing.landed_unmoved ⟨fun e he => ?_, hids ▸ hnodup⟩ nofun fun noted => .ok _
    exact hfree _ (hids ▸ List.mem_map_of_mem he)

namespace Retrying

open Sample

def type : ArtifactId := ⟨"https://kb.io/d", by decide⟩

def holding (name : String) : Content :=
  { tree := .map [(.text "schema", .map [(.text "type", .text name)])] }

def defining : Operation := .create type Start.METASCHEMA_VERSION "T" [] (holding "null") []

/-- The type replaced twice, the second time by a client that drafted before the first landed. -/
def first : List Operation := [.replace ⟨type, []⟩ (holding "object") none none]
def second : List Operation := [.replace ⟨type, []⟩ (holding "array") none none]

def defined : List (List Operation) := [[defining]]
def replaced : List (List Operation) := first :: defined

/-- Whether the second set, drafted on a store, is refused as moved on another. -/
def moved (on met : Tables) : Bool :=
  match Drafting.drafted outside on second with
  | .error _ => false
  | .ok d => match Write.landing outside d [0] Sample.signed met with
    | .error .conflict => true
    | _ => false

end Retrying

open Sample Retrying in
/-- A set drafted before another landed is refused as moved; drafted again on the store it meets, it
is not. -/
theorem retried_never_moved_replaced : moved (store defined) (store replaced) = true ∧
    (Drafting.drafted outside (store replaced) second).toOption.isSome = true ∧
    ∀ d, Drafting.drafted outside (store replaced) second = .ok d →
      Write.landing outside d [0] Sample.signed (store replaced) ≠ .error .conflict := by
  obtain ⟨hran, hmoved, hdrafts, hkeeps, hseen⟩ : (ran replaced).isSome = true ∧
      moved (store defined) (store replaced) = true ∧
      (Drafting.drafted outside (store replaced) second).toOption.isSome = true ∧
      (Drafting.drafted outside (store replaced) second).toOption.all
          (fun d => d.changes.all fun c =>
        !Standing.removesAType c) = true ∧
      (stores replaced).isEmpty = false := by
    decide +kernel
  have hrun : Run outside (stores replaced) := stores_run (by decide) hran
  refine ⟨hmoved, hdrafts, fun d hd => ?_⟩
  have hkeeps : ∀ c ∈ d.changes, Standing.removesAType c = false := by
    rw [hd] at hkeeps
    simpa [Except.toOption] using hkeeps
  exact (retried_never_moved hrun (store_mem hseen)).1 second (by decide) d hd hkeeps
    [0] Sample.signed

end Kb
