/-
# `Kb.Recorded` — the history agrees with the store

What a landed set writes and what it records are read of one list of changes, in one order: each
change handed to the port and each entry say the artifact, the revision and the version the change
left.  So the last entry that names an IRI says what the IRI holds, or that it was taken out,
whoever landed what in between; and a set's entries are one for each of its changes, under a name no
other set's entries have.
-/
import Kb.Stamps
import Kb.Sound
import Kb.Holding

namespace Kb

open Landing Raising

namespace Journal

variable (O : Outside)

/-- Whether an entry records a change: what it was done to, where, what it left, and the fingerprint
of its text. -/
structure Records (c : Done) (e : Entry) : Prop where
  artifact : e.artifact = c.artifact.iri
  op : e.op = c.op.str
  path : e.path = c.path
  revision : e.revision = c.revision
  type : e.type = c.type.str
  digest : match c.left with
    | some a => digest O a = .ok e.digest
    | none => e.digest = ""

/-- The entry naming an IRI that landed last. -/
def lastEntry (t : Tables) (id : ArtifactId) : Option Entry :=
  (t.entries.filter fun e => e.artifact = id.iri).getLast?

/-- Whether the last entry naming an IRI says what the store holds there: the revision, the version
of its type and the fingerprint of what is held, or that what was held was removed; none names an
IRI where nothing ever was. -/
def Agrees (t : Tables) (id : ArtifactId) : Prop :=
  match lastEntry t id, t.row? id with
  | some e, some r =>
      e.revision = r.revision ∧ e.type = r.content.type.str ∧ digest O r.content = .ok e.digest
  | some e, none => e.op = Op.delete.str ∧ e.digest = ""
  | none, row => row = none

end Journal

/-! ## The changes of a set, as they are written and as they are recorded -/

namespace Handing

/-- A change left with the version of its type it says it left. -/
structure Consistent (c : Done) : Prop where
  type : ∀ a, c.left = some a → a.type = c.type
  gone : c.left = none → c.op = .delete

theorem Settles.consistent {c c' : Done} (h : Settles c c') (hc : Consistent c) :
    Consistent c' := by
  cases h with
  | gone _ => exact hc
  | brought _ => exact hc
  | left a type content hop hleft _ =>
      refine ⟨?_, nofun⟩
      rintro _ ⟨⟩
      rfl

end Handing

namespace Edits

theorem Acts.consistent {O : Outside} {d d' : Draft} {op : Operation} {c : Done}
    (h : Acts O d op d' c) : Handing.Consistent c := by
  cases h with
  | removed _ _ => exact ⟨nofun, fun _ => rfl⟩
  | created _ _ | replaced _ _ _ | added _ _ _ | imported _ _ _ _ =>
      refine ⟨?_, nofun⟩
      rintro _ ⟨⟩
      rfl

end Edits

namespace Drafting

/-- A change handed says of its artifact what the change it is handed for left, and was read one
revision before it, unless a file gave its revision. -/
structure Same (c : Done) (h : Change) : Prop where
  artifact : h.artifact = c.artifact
  content : h.content = c.left
  revision : h.revision = c.revision
  read : c.op ≠ .import_ ∨ c.left = none → h.read = c.revision - 1

theorem Passes.same {O : Outside} {t : Tables} {operations : List Operation} {d : Drafted}
    {left : Draft} {outcomes : List Outcome} {read : List Int} {plain : List Change}
    (h : Passes O t operations d left outcomes read plain) :
    List.Forall₂ Same d.changes d.handed := by
  have hread := readAt_ok h.asRead
  have hplain := h.byOne
  rw [h.handed]
  unfold Standing.guarded
  simp only [List.forall₂_map_right_iff]
  generalize d.changes = changes at hread hplain
  clear h
  induction hread generalizing plain with
  | nil =>
      cases hplain
      exact .nil
  | @cons c r changes read hr _ ih =>
      rw [lasts, List.zip_cons_cons] at hplain
      cases hplain with
      | @cons _ g _ plain hg hplain =>
          obtain ⟨ha, hc, hread, hrev, _⟩ := (Handing.handed_ok hg).alike
          exact .cons ⟨ha, hc, hrev, fun h => hread.trans (hr h)⟩ (ih hplain)

theorem Passes.consistent {O : Outside} {t : Tables} {operations : List Operation} {d : Drafted}
    {left : Draft} {outcomes : List Outcome} {read : List Int} {plain : List Change}
    (h : Passes O t operations d left outcomes read plain) :
    ∀ c ∈ d.changes, Handing.Consistent c := by
  have hran := (h.ran.invariant (I := fun _ => True) (P := Handing.Consistent) trivial
    fun _ _ _ _ _ _ hacts => ⟨trivial, hacts.consistent⟩).2
  have hsettles := versionedAll_ok h.versioned
  rw [← List.forall₂_map_left_iff, lasts_map_fst] at hsettles
  intro c hc
  obtain ⟨c₀, hc₀, hsettle⟩ := forall₂_of_mem_right hsettles hc
  exact hsettle.consistent (hran c₀ hc₀)

/-- A change's text is the canonical text of what it left, if it left anything. -/
def TextOf (O : Outside) (c : Done) (text : Option String) : Prop :=
  match c.left with
  | some a => ∃ written, text = some written ∧ O.dump a.whole = .ok written
  | none => text = none

theorem serialised_ok {O : Outside} {changes : List Done} {texts : List (Option String)}
    (h : Handing.serialised O changes = .ok texts) : List.Forall₂ (TextOf O) changes texts := by
  simp only [Handing.serialised] at h
  split at h
  · nomatch h
  · next hfound =>
      rw [Bool.not_eq_true, Bool.not_eq_false', List.isEmpty_iff,
        List.filterMap_eq_nil_iff] at hfound
      rw [← Except.ok.inj h, List.forall₂_map_right_iff, List.forall₂_same]
      intro c hc
      have hfound := hfound c hc
      unfold TextOf
      rcases hleft : c.left with _ | a
      · rfl
      · simp only [hleft] at hfound ⊢
        cases hdump : O.dump a.whole with
        | ok written => exact ⟨written, by simp [hdump, Except.toOption], rfl⟩
        | error e => simp [hdump] at hfound

end Drafting

namespace Write

open Journal

/-- Entries made of changes and their texts, stamp by stamp: each records its change, under its
stamp. -/
theorem stamped {O : Outside} {signed : Signed} {batch : EntryId} {changes : List Done}
    {texts : List (Option String)} (htexts : List.Forall₂ (Drafting.TextOf O) changes texts) :
    ∀ {stamps : List EntryId}, changes.length = stamps.length →
      List.Forall₂ (Records O) changes
        ((changes.zip (texts.zip stamps)).map fun p =>
          Journal.change O signed p.1 p.2.1 p.2.2 batch) ∧
      ((changes.zip (texts.zip stamps)).map fun p =>
        Journal.change O signed p.1 p.2.1 p.2.2 batch).map Entry.id = stamps := by
  induction htexts with
  | nil =>
      intro stamps hlength
      exact ⟨.nil, (List.length_eq_zero_iff.mp hlength.symm).symm⟩
  | @cons c text changes texts htext _ ih =>
      intro stamps hlength
      cases stamps with
      | nil => cases hlength
      | cons stamp stamps =>
          obtain ⟨hrecords, hids⟩ := ih (Nat.succ.inj hlength)
          refine ⟨.cons ⟨rfl, rfl, rfl, rfl, rfl, ?_⟩ hrecords, congrArg (List.cons stamp) hids⟩
          unfold Drafting.TextOf at htext
          cases hleft : c.left with
          | none =>
              rw [hleft] at htext
              simp [Journal.change, htext]
          | some a =>
              rw [hleft] at htext
              obtain ⟨written, rfl, hdump⟩ := htext
              simp [Journal.change, Journal.digest, hdump]

/-- The entries of a drafted set: one for each change, in order, under the ids minted, all naming
the first's. -/
theorem entries_ok {O : Outside} {d : Drafted} {moments : List Int} {signed : Signed} {s : Tables}
    {entries : List Entry} (h : Write.entries O d moments signed s = .ok entries)
    (htexts : Handing.serialised O d.changes = .ok d.texts) :
    List.Forall₂ (Records O) d.changes entries ∧ Minted s moments entries ∧ entries ≠ [] := by
  unfold Write.entries at h
  split at h
  · cases h
  next batch rest hminted =>
  split at h
  · cases h
  next hlength =>
  have hlength : d.changes.length = (batch :: rest).length := by simpa using hlength
  obtain ⟨hrecords, hids⟩ := stamped (Drafting.serialised_ok htexts) hlength
  cases h
  refine ⟨hrecords, ⟨hids.trans hminted.symm, fun e he => ?_⟩, fun hnil => ?_⟩
  · have hbatch : e.batch = batch := by
      obtain ⟨_, _, rfl⟩ := List.mem_map.mp he
      rfl
    have hhead := congrArg List.head? hids
    rw [List.head?_map] at hhead
    rw [hbatch]
    exact hhead
  · have hempty := congrArg (List.map Entry.id) hnil
    rw [List.map_nil] at hempty
    cases hids.symm.trans hempty

end Write

/-! ## The last entry of an IRI -/

namespace Journal

open Drafting

theorem iri_ne_nil (id : ArtifactId) : "" ≠ id.iri := by
  intro h
  have hgrammar := id.grammar
  rw [← h] at hgrammar
  revert hgrammar
  decide

/-- The last change of a set handed for an IRI and the last entry of the set that names it are of
one change. -/
theorem last_recorded {O : Outside} {changes : List Done} {handed : List Change}
    {entries : List Entry} (hsame : List.Forall₂ Same changes handed)
    (hrecords : List.Forall₂ (Records O) changes entries) (id : ArtifactId) :
    lastTo id handed = none ∧ (entries.filter fun e => e.artifact = id.iri).getLast? = none ∨
      ∃ c ∈ changes, ∃ h e, lastTo id handed = some h ∧
        (entries.filter fun e => e.artifact = id.iri).getLast? = some e ∧
        Same c h ∧ Records O c e := by
  induction hsame generalizing entries with
  | nil =>
      cases hrecords
      exact Or.inl ⟨rfl, rfl⟩
  | @cons c h changes handed hs _ ih =>
      cases hrecords with
      | @cons _ e _ entries hr hrest =>
          have hnames : e.artifact = id.iri ↔ h.artifact = id := by
            rw [hr.artifact, hs.artifact]
            exact ⟨ArtifactId.ext', congrArg _⟩
          rw [lastTo, List.filter_cons]
          rcases ih hrest with ⟨hnone, hnone'⟩ | ⟨c', hc', h', e', hlast, hlast', hs', hr'⟩
          · by_cases hid : h.artifact = id
            · refine Or.inr ⟨c, List.mem_cons_self, h, e, by simp [hnone, hid], ?_, hs, hr⟩
              rw [if_pos (decide_eq_true (hnames.mpr hid)), List.getLast?_cons, hnone']
              rfl
            · refine Or.inl ⟨by simp [hnone, hid], ?_⟩
              rw [if_neg fun e => hid (hnames.mp (of_decide_eq_true e)), hnone']
          · refine Or.inr ⟨c', List.mem_cons_of_mem _ hc', h', e', by simp [hlast], ?_, hs', hr'⟩
            split
            · rw [List.getLast?_cons, hlast']
              rfl
            · exact hlast'

theorem lastEntry_landed {t t' : Tables} {changes : List Change} {entries : List Entry}
    (h : Lands t changes entries t') (id : ArtifactId) :
    lastEntry t' id = ((entries.filter fun e => e.artifact = id.iri).getLast?).or
    (lastEntry t id) := by
  rw [lastEntry, h.entries_eq, List.filter_append, List.getLast?_append]
  rfl

theorem row?_landed {t t' : Tables} {changes : List Change} {entries : List Entry}
    (h : Lands t changes entries t') (id : ArtifactId) :
    t'.row? id = ((lastTo id changes).map fun c => (Tables.rowOf c).head?).getD (t.row? id) := by
  obtain ⟨left, hwritten, _, _, rfl⟩ := h.written
  have hrow := hwritten.row?_last id
  rw [List.zipIdx_map_fst] at hrow
  exact hrow

/-- A set that records what it writes keeps the history agreeing with the store, at every IRI. -/
theorem Agrees.landed {O : Outside} {t t' : Tables} {changes : List Done} {handed : List Change}
    {entries : List Entry} {id : ArtifactId} (ht : Agrees O t id) (h : Lands t handed entries t')
    (hsame : List.Forall₂ Same changes handed) (hrecords : List.Forall₂ (Records O) changes entries)
    (hconsistent : ∀ c ∈ changes, Handing.Consistent c) :
    Agrees O t' id := by
  unfold Agrees
  rw [lastEntry_landed h, row?_landed h]
  rcases last_recorded hsame hrecords id with ⟨hnone, hnone'⟩ | ⟨c, hc, g, e, hlast, hlast', hs, hr⟩
  · rw [hnone, hnone']
    exact ht
  · rw [hlast, hlast', Option.some_or, Option.map_some, Option.getD_some]
    have hdigest := hr.digest
    have hcontent := hs.content
    rcases hleft : c.left with _ | a
    · rw [hleft] at hcontent hdigest
      have hrow : Tables.rowOf g = [] := by simp [Tables.rowOf, hcontent]
      rw [hrow]
      exact ⟨by rw [hr.op, (hconsistent c hc).gone hleft], hdigest⟩
    · rw [hleft] at hcontent hdigest
      obtain ⟨left, hwritten, _⟩ := h.written
      obtain ⟨p, hp, rfl⟩ : ∃ p ∈ handed.zipIdx, p.1 = g := by
        have hmem := (lastTo_mem hlast).1
        rw [← List.zipIdx_map_fst 0 handed] at hmem
        exact List.mem_map.mp hmem
      obtain ⟨kind, hkind⟩ :=
        Option.isSome_iff_exists.mp (hwritten.kinded p hp (by rw [hcontent]; rfl))
      have hrow : (Tables.rowOf p.1).head? = some ⟨p.1.artifact, kind, p.1.revision, a⟩ := by
        simp [Tables.rowOf, hcontent, hkind]
      rw [hrow]
      exact ⟨hr.revision.trans hs.revision.symm, by
        rw [hr.type, (hconsistent c hc).type a hleft], hdigest⟩

/-- A snapshot's entry names no IRI. -/
theorem Agrees.snapshot {O : Outside} {t t' s : Tables} {moment : Int} {signed : Signed}
    {read : List Snapshotted} {id : ArtifactId} (ht : Agrees O t id)
    (h : Lands t [] ((minted s [moment] []).map (Journal.snapshot signed read)) t') :
    Agrees O t' id := by
  unfold Agrees
  rw [lastEntry_landed h, row?_landed h]
  have hnone : ((minted s [moment] []).map (Journal.snapshot signed read)).filter
      (fun e => e.artifact = id.iri) = [] := by
    refine List.filter_eq_nil_iff.mpr fun e he => ?_
    obtain rfl := List.mem_singleton.mp he
    simpa [Journal.snapshot] using iri_ne_nil id
  rw [hnone]
  exact ht

theorem Agrees.started {O : Outside} {t : Tables} (h : Fresh O t) (id : ArtifactId) :
    Agrees O t id := by
  obtain ⟨role, execution, fingerprint, moment, hdigest, hlands⟩ := h.landed
  unfold Agrees
  rw [lastEntry_landed hlands, row?_landed hlands, lastTo]
  by_cases hid : Start.METASCHEMA_ID = id
  · subst hid
    exact ⟨rfl, rfl, hdigest⟩
  · have hiri : Start.METASCHEMA_ID.iri ≠ id.iri := fun e => hid (ArtifactId.ext' e)
    have hentry : [Start.entry role execution fingerprint moment].filter
        (fun e => e.artifact = id.iri) = [] := by
      simp [Start.entry, hiri]
    have hlast : (if (Start.created O).artifact = id then some (Start.created O) else none) =
      none := if_neg hid
    rw [hentry, hlast]
    rfl

/-! ## A set's entries, among the history's -/

/-- What a later history adds to an earlier one: entries whose batches are no ids of it. -/
def Follows (s t : Tables) : Prop :=
  ∃ more, t.entries = s.entries ++ more ∧ ∀ e ∈ more, e.batch ∉ s.entries.map Entry.id

theorem Follows.refl (s : Tables) : Follows s s := ⟨[], by simp, nofun⟩

theorem Follows.trans {a b c : Tables} (h : Follows a b) (h' : Follows b c) : Follows a c := by
  obtain ⟨more, hmore, hbatch⟩ := h
  obtain ⟨more', hmore', hbatch'⟩ := h'
  refine ⟨more ++ more', by rw [hmore', hmore, List.append_assoc], fun e he => ?_⟩
  rcases List.mem_append.mp he with he | he
  · exact hbatch e he
  · intro hin
    refine hbatch' e he ?_
    rw [hmore, List.map_append]
    exact List.mem_append_left _ hin

theorem Minted.follows {s t t' : Tables} {moments : List Int} {changes : List Change}
    {entries : List Entry} (hminted : Minted s moments entries) (h : Lands t changes entries t') :
    Follows t t' := by
  refine ⟨entries, h.entries_eq, fun e he hin => ?_⟩
  rcases entries with _ | ⟨first, rest⟩
  · nomatch he
  · have hfirst := Option.some.inj (hminted.batch e he)
    exact h.newIds.1 first List.mem_cons_self (hfirst ▸ hin)

end Journal

/-! ## Over a run -/

namespace Move

open Journal

/-- A move changes nothing, or lands entries minted on a store seen by then. -/
theorem Comes.minted {O : Outside} {t t' : Tables} {past : List Tables} (h : Comes O t past t') :
    t' = t ∨ ∃ s ∈ t :: past, ∃ moments changes entries, Minted s moments entries ∧
      Landing.Lands t changes entries t' := by
  cases h with
  | idle => exact Or.inl rfl
  | @recorded read signed moment s _ hs hlands =>
      refine Or.inr ⟨s, hs, [moment], [], _, ⟨?_, fun e he => ?_⟩, hlands⟩
      · rw [List.map_map]
        exact List.map_id _
      · obtain rfl := List.mem_singleton.mp he
        rfl
  | asked _ _ hs hd hentries hlands =>
      obtain ⟨left, outcomes, read, plain, hpasses⟩ := Drafting.drafted_ok hd
      exact Or.inr ⟨_, hs, _, _, _, (Write.entries_ok hentries hpasses.texts).2.1, hlands⟩
  | brought _ hd hentries hlands =>
      obtain ⟨left, outcomes, read, plain, hpasses⟩ := Drafting.drafted_ok hd
      exact Or.inr ⟨_, List.mem_cons_self, _, _, _,
        (Write.entries_ok hentries hpasses.texts).2.1, hlands⟩

theorem Comes.agrees {O : Outside} {t t' : Tables} {past : List Tables} (h : Comes O t past t')
    {id : ArtifactId} (ht : Agrees O t id) : Agrees O t' id := by
  cases h with
  | idle => exact ht
  | recorded _ hlands => exact ht.snapshot hlands
  | asked _ _ _ hd hentries hlands | brought _ hd hentries hlands =>
      obtain ⟨left, outcomes, read, plain, hpasses⟩ := Drafting.drafted_ok hd
      exact ht.landed hlands hpasses.same (Write.entries_ok hentries hpasses.texts).1
        hpasses.consistent

end Move

namespace Journal

variable {O : Outside} {states : List Tables}

/-- Every later history is an earlier one and then sets of its own. -/
theorem follows (h : Run O states) : states.Pairwise fun later earlier => Follows earlier later :=
  History.Run.between (R := Follows) (fun _ _ _ => Follows.trans)
    (fun t _ t' _ ⟨_, _, hmove⟩ => by
      rcases hmove.comes.minted with rfl | ⟨s, _, _, _, _, hminted, hlands⟩
      · exact .refl t'
      · exact hminted.follows hlands) h

/-- Every entry's batch is the id of an entry. -/
def Batched (t : Tables) : Prop := ∀ e ∈ t.entries, e.batch ∈ t.entries.map Entry.id

theorem Batched.landed {s t t' : Tables} {moments : List Int} {changes : List Change}
    {entries : List Entry} (ht : Batched t) (hminted : Minted s moments entries)
    (h : Landing.Lands t changes entries t') : Batched t' := by
  intro e he
  rw [h.entries_eq] at he ⊢
  rw [List.map_append, List.mem_append]
  rcases List.mem_append.mp he with he | he
  · exact Or.inl (ht e he)
  · rcases entries with _ | ⟨first, rest⟩
    · nomatch he
    · have hfirst := Option.some.inj (hminted.batch e he)
      exact Or.inr (hfirst ▸ List.mem_cons_self)

theorem batched (h : Run O states) : ∀ t ∈ states, Batched t := by
  refine History.Run.invariant ?_ ?_ h
  · intro t ht e he
    obtain ⟨_, _, _, _, _, hlands⟩ := ht.landed
    have hentries := hlands.entries_eq
    rw [hentries] at he ⊢
    rw [List.mem_singleton.mp he]
    exact List.mem_cons_self
  · rintro t past t' _ hpast ⟨_, _, hmove⟩
    have ht := hpast t List.mem_cons_self
    rcases hmove.comes.minted with rfl | ⟨s, _, _, _, _, hminted, hlands⟩
    · exact ht
    · exact ht.landed hminted hlands

/-- The entries of a set are all, and only those, that name its first as their batch, in every
history that follows. -/
theorem filter_batch {s t t' u : Tables} {moments : List Int} {changes : List Change}
    {first : Entry} {rest : List Entry} (ht : Batched t)
    (hminted : Minted s moments (first :: rest)) (h : Landing.Lands t changes (first :: rest) t')
    (hu : Follows t' u) : (u.entries.filter fun e => e.batch = first.id) = first :: rest := by
  obtain ⟨more, hmore, hbatch⟩ := hu
  rw [hmore, h.entries_eq, List.filter_append, List.filter_append]
  have hbefore : (t.entries.filter fun e => e.batch = first.id) = [] := by
    refine List.filter_eq_nil_iff.mpr fun e he hname => ?_
    exact h.newIds.1 first List.mem_cons_self (of_decide_eq_true hname ▸ ht e he)
  have hafter : (more.filter fun e => e.batch = first.id) = [] := by
    refine List.filter_eq_nil_iff.mpr fun e he hname => hbatch e he ?_
    rw [of_decide_eq_true hname, h.entries_eq, List.map_append]
    exact List.mem_append_right _ List.mem_cons_self
  have hown : ((first :: rest).filter fun e => e.batch = first.id) = first :: rest := by
    refine List.filter_eq_self.mpr fun e he => decide_eq_true ?_
    exact (Option.some.inj (hminted.batch e he)).symm
  rw [hbefore, hafter, hown, List.nil_append, List.append_nil]

/-- The history agrees with the store: at every IRI of every store of a run, the last entry naming
it says what is held there, or that it was removed; and a set landed by a writer, drafted and its
entries minted on stores seen by then, has one entry for each change, in order, all of one batch
that is the first's id and no other entry's. -/
theorem history_agrees (h : Run O states) :
    (∀ t ∈ states, ∀ id, Agrees O t id) ∧
    ∀ later t t' past, states = later ++ t' :: t :: past →
      ∀ on minted operations d moments signed entries, Drafting.drafted O on operations = .ok d →
        Write.entries O d moments signed minted = .ok entries →
        Landing.landed t d.handed entries = .ok t' →
        List.Forall₂ (Records O) d.changes entries ∧
        ∃ first, entries.head? = some first ∧ (∀ e ∈ entries, e.batch = first.id) ∧
          ∀ u ∈ t' :: later, (u.entries.filter fun e => e.batch = first.id) = entries := by
  refine ⟨fun t ht id => ?_, ?_⟩
  · exact History.Run.invariant (I := fun t => Agrees O t id) (fun _ hs => Agrees.started hs id)
      (fun t _ _ _ hpast ⟨_, _, hmove⟩ => hmove.comes.agrees (hpast t List.mem_cons_self)) h t ht
  · intro later t t' past he on minted operations d moments signed entries hd hentries hlanded
    obtain ⟨left, outcomes, read, plain, hpasses⟩ := Drafting.drafted_ok hd
    obtain ⟨hrecords, hminted, hne⟩ := Write.entries_ok hentries hpasses.texts
    have hlands := (Landing.landed_iff ..).mp hlanded
    obtain ⟨first, rest, rfl⟩ := List.exists_cons_of_ne_nil hne
    refine ⟨hrecords, first, rfl, fun e hin => (Option.some.inj (hminted.batch e hin)).symm,
      fun u hu => ?_⟩
    have hbatched : Batched t := batched h t (by simp [he])
    have hfollows : Follows t' u := by
      rcases List.mem_cons.mp hu with rfl | hu
      · exact .refl u
      · have hpairs := follows h
        rw [he] at hpairs
        exact (List.pairwise_append.mp hpairs).2.2 u hu t' List.mem_cons_self
    exact filter_batch hbatched hminted hlands hfollows

/-! ## A note taken out -/

namespace Noted

open Sample

def type : ArtifactId := ⟨"https://kb.io/v", by decide⟩
def note : ArtifactId := ⟨"https://kb.io/v/a", by decide⟩
def noteVersion : Version := ⟨type, 1, Nat.one_pos, by decide⟩

def defining : Operation :=
  .create type Start.METASCHEMA_VERSION "T" [] { tree := .map [(.text "schema", .map [])] } []
def creating : Operation :=
  .create note noteVersion "A" [] { tree := .map [(.text "note", .text "first")] } []
def removing : Operation := .remove ⟨note, []⟩ none

/-- The type defined. -/
def defined : List (List Operation) := [[defining]]
/-- The note created since. -/
def created : List (List Operation) := [creating] :: defined

theorem created_asked : ∀ operations ∈ created, ∀ op ∈ operations, op.asked = true := by decide

end Noted

open Sample Noted in
/-- A set that takes a note out: the history agrees with the store it leaves, and holds the set's
entries as its own. -/
theorem history_agrees_removed :
    ∃ d entries t', Drafting.drafted outside (store created) [removing] = .ok d ∧
      Landing.landed (store created) d.handed entries = .ok t' ∧ Agrees outside t' note ∧
      List.Forall₂ (Records outside) d.changes entries ∧
      ∃ first, entries.head? = some first ∧
      (t'.entries.filter fun e => e.batch = first.id) = entries := by
  obtain ⟨hran, hlands⟩ : (ran created).isSome = true ∧
      (landedFrom (store created) [removing] 9 (store created)).toOption.isSome = true := by
    decide +kernel
  have hstores : stores created = store created :: stores defined := stores_cons hran
  have hrun : Run outside (store created :: stores defined) := by
    rw [← hstores]
    exact stores_run created_asked hran
  obtain ⟨t', ht'⟩ := Option.isSome_iff_exists.mp hlands
  obtain ⟨d, entries, hd, hentries, hlanded⟩ := landedFrom_ok (toOption_some ht')
  have hrun' : Run outside (t' :: store created :: stores defined) :=
    .step hrun ⟨_, trivial, .underLock (by decide) hd ⟨entries, hentries, hlanded⟩⟩
  obtain ⟨hagrees, hsets⟩ := history_agrees hrun'
  obtain ⟨hrecords, first, hfirst, _, hall⟩ :=
    hsets [] (store created) t' (stores defined) rfl _ _ _ d _ _ entries hd hentries hlanded
  exact ⟨d, entries, t', hd, hlanded, hagrees t' List.mem_cons_self note, hrecords, first, hfirst,
    hall t' List.mem_cons_self⟩

end Journal

end Kb
