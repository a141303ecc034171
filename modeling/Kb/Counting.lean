/-
# `Kb.Counting` — revisions count from 1

An IRI read as holding nothing is read at revision 0: by the comparison of the port, in what a
change says it was read through, in what the check of links notes of an artifact, and where a change
is told for a create.  Every set a client drafts leaves what it changes at a revision of 1 or more,
since it creates at 1 and raises what it revises.  A directory's files keep the revision they were
written with, whatever it is; so 0 marks what is not held in every store of a run whose imports
bring no artifact at a revision below 1, and in no other.
-/
import Kb.Recorded
import Kb.Integrity

namespace Kb

open Landing Raising

/-- Every artifact held, and every version of a type kept, is at a revision of 1 or more. -/
structure Tables.FromFirst (t : Tables) : Prop where
  held : t.Counted
  kept : ∀ r ∈ t.typeVersions, 1 ≤ r.revision

/-- What a change to an artifact is told for: its removal, its create, or its replacement. -/
def Change.op (c : Change) : String :=
  if c.content.isNone then "remove" else if c.read = 0 then "create" else "replace"

/-- Whether an operation brings nothing at a revision below 1. -/
def Operation.FromFirst : Operation → Prop
  | .import_ _ a => 1 ≤ a.revision
  | _ => True

instance : DecidablePred Operation.FromFirst
  | .import_ _ a => inferInstanceAs (Decidable (1 ≤ a.revision))
  | .remove .. | .create .. | .replace .. | .add .. | .refusal .. => isTrue trivial

/-- Whether a move imports no file that it lands at a revision below 1. -/
def Move.FromFirst (O : Outside) (t : Tables) (_past : List Tables) : Move → Prop
  | .imported directory _ _ _ _ =>
      ∀ operations, Importing.brings O t directory = .ok operations →
        ∀ op ∈ operations, op.FromFirst
  | _ => True

theorem Tables.FromFirst.artifact {t : Tables} (ht : t.FromFirst) (hs : t.Sound) {id : ArtifactId}
    {a : Artifact} (ha : t.artifact id = some a) : 1 ≤ a.revision := by
  obtain ⟨_, hrev, _, r, hr, _, _⟩ := hs.artifact ha
  have hrow := ht.held r (Tables.mem_of_row? hr).1
  have hat : t.revisionAt id = r.revision := by simp [Tables.revisionAt, hr]
  omega

namespace Landing

/-! ## Landings of changes that count from 1 -/

theorem Written.fromFirst {landed : Nat} {t t' : Tables} {cs : List (Change × Nat)}
    (h : Written landed t cs t') (ht : t.FromFirst)
    (hcs : ∀ p ∈ cs, p.1.content.isSome = true → 1 ≤ p.1.revision) : t'.FromFirst := by
  induction h with
  | nil => exact ht
  | @cons t _ c step rest _ _ _ ih =>
      have hc := hcs _ List.mem_cons_self
      refine ih ⟨ht.held.wrote hc _ _, fun r hr => ?_⟩ fun p hp => hcs p (List.mem_cons_of_mem _ hp)
      rcases List.mem_append.mp hr with hr | hr
      · refine ht.kept r ?_
        split at hr
        · exact (List.mem_filter.mp hr).1
        · exact hr
      · unfold Tables.typeVersionRows at hr
        split at hr
        · next a v hcontent _ =>
            rw [List.mem_singleton.mp hr]
            exact hc (by rw [hcontent]; rfl)
        · nomatch hr

theorem Lands.fromFirst {t t' : Tables} {changes : List Change} {entries : List Entry}
    (h : Lands t changes entries t') (ht : t.FromFirst) (hcs : Counting changes) :
    t'.FromFirst := by
  obtain ⟨left, hwritten, _, _, rfl⟩ := h.written
  have hleft := hwritten.fromFirst (t := opened t entries) ⟨ht.held, ht.kept⟩ fun p hp =>
    hcs p.1 (List.fst_mem_of_mem_zipIdx hp)
  exact ⟨hleft.held, hleft.kept⟩

/-- A change of a set that lands is written on a store that stands where the change was read. -/
theorem Written.at_change {landed : Nat} {t t' : Tables} {before after : List Change}
    {c : Change} {k : Nat} (h : Written landed t ((before ++ c :: after).zipIdx k) t') :
    ∃ mid, Written landed t (before.zipIdx k) mid ∧ mid.revisionAt c.artifact = c.read := by
  rw [List.zipIdx_append] at h
  obtain ⟨mid, hbefore, h⟩ := h.append
  rw [List.zipIdx_cons] at h
  cases h with
  | cons hread _ _ => exact ⟨mid, hbefore, hread⟩

end Landing

/-! ## The changes of a drafted set -/

namespace Edits

variable {O : Outside}

/-- What an operation leaves, in a draft whose artifacts count from 1. -/
theorem Acts.fromFirst {d d' : Draft} {op : Operation} {c : Done} (h : Acts O d op d' c)
    (hd : ∀ id a, d.artifact id = some a → 1 ≤ a.revision) (hop : op.FromFirst) :
    (∀ id a, d'.artifact id = some a → 1 ≤ a.revision) ∧
      (c.left.isSome = true → 1 ≤ c.revision) := by
  have hput : ∀ (d : Draft) (id : ArtifactId) (a : Artifact),
      (∀ x b, d.artifact x = some b → 1 ≤ b.revision) →
      1 ≤ a.revision → ∀ x b, (d.put id a).artifact x = some b → 1 ≤ b.revision := by
    intro d id a hd ha x b hb
    rw [Draft.put_artifact] at hb
    split at hb
    · cases hb
      exact ha
    · exact hd x b hb
  cases h with
  | removed _ _ => exact ⟨hd, nofun⟩
  | created hc _ =>
      obtain ⟨d₁, hnumbers, hdraft⟩ := hc.numbered
      obtain ⟨numbers, rfl⟩ := hnumbers.counting
      obtain ⟨schema, whole, _, _, _, ha⟩ := hc.items
      obtain ⟨content, rfl⟩ := Settled.order_ok ha
      rw [hdraft]
      exact ⟨hput _ _ _ hd (le_refl 1), fun _ => le_refl 1⟩
  | @replaced locator _ _ _ _ _ now _ _ _ _ _ _ _ hr _
  | @added locator _ _ _ _ now _ _ _ _ _ _ _ hr _ =>
      obtain ⟨d₁, hnumbers, hdraft⟩ := hr.numbered
      obtain ⟨numbers, rfl⟩ := hnumbers.counting
      obtain ⟨schema, whole, _, _, _, ha⟩ := hr.items
      obtain ⟨content, rfl⟩ := Settled.order_ok ha
      have hnow : 1 ≤ now.revision + 1 := by
        have := hd _ _ hr.stands
        omega
      rw [hdraft]
      exact ⟨hput _ _ _ hd hnow, fun _ => hnow⟩
  | imported hb _ hdraft _ =>
      obtain ⟨content, rfl⟩ := imported_ok hb
      rw [hdraft]
      exact ⟨hput _ _ _ hd hop, fun _ => hop⟩

/-- A replacement or an addition leaves its artifact one revision above the one it read it at. -/
theorem Acts.next {d d' : Draft} {op : Operation} {c : Done} (h : Acts O d op d' c)
    (hop : c.op = .write ∨ c.op = .append) :
    ∃ now a, d.artifact c.artifact = some now ∧ d'.artifact c.artifact = some a ∧ c.left = some a ∧
      a.revision = now.revision + 1 ∧ c.revision = a.revision := by
  cases h with
  | removed _ _ => rcases hop with hop | hop <;> exact nomatch hop
  | created hc _ => rcases hop with hop | hop <;> exact nomatch hc.op.symm.trans hop
  | replaced _ hr _ | added _ hr _ =>
      obtain ⟨d₁, hnumbers, hdraft⟩ := hr.numbered
      obtain ⟨schema, whole, _, _, _, ha⟩ := hr.items
      obtain ⟨content, rfl⟩ := Settled.order_ok ha
      exact ⟨_, _, hr.stands, by rw [hdraft, Draft.put_artifact_self], rfl, rfl, rfl⟩
  | imported _ hop' _ _ => rcases hop with hop | hop <;> exact nomatch hop'.symm.trans hop

end Edits

namespace Drafting

variable {O : Outside} {t : Tables} {operations : List Operation} {d : Drafted}

/-- A set drafted on a store whose revisions count from 1, bringing none below it, hands changes
that count from 1. -/
theorem drafted_counting (h : drafted O t operations = .ok d) (ht : t.FromFirst) (hs : t.Sound)
    (hops : ∀ op ∈ operations, op.FromFirst) : Counting d.handed := by
  obtain ⟨left, outcomes, read, plain, hpasses⟩ := drafted_ok h
  have hran := hpasses.ran.invariant (I := fun d => ∀ id a, d.artifact id = some a → 1 ≤ a.revision)
    (P := fun c => c.left.isSome = true → 1 ≤ c.revision) (fun id a ha => ht.artifact hs ha)
    fun op hop _ _ _ hd hacts => hacts.fromFirst hd (hops op (mem_byNumber hop))
  intro c hc hsome
  obtain ⟨done, hdone, hcarries⟩ := forall₂_of_mem_right hpasses.carries hc
  rw [hcarries.revision]
  refine hran.2 done hdone ?_
  rw [Option.isSome_iff_ne_none]
  exact fun hnone => by simp [hcarries.gone.mpr hnone] at hsome

/-- What a draft hands of the types it was read through: none of them is at 0 in a store that counts
from 1. -/
theorem asRead_held {draft : Draft} (hstore : draft.store = t) (ht : t.FromFirst) (hs : t.Sound)
    {types : List ArtifactId} {each : ArtifactId × Int} (h : each ∈ draft.asRead types) :
    each.2 ≠ 0 ∧ t.holds each.1 = true := by
  obtain ⟨id, _, h⟩ := List.mem_filterMap.mp h
  split at h
  · nomatch h
  split at h
  · next a ha =>
      rw [hstore] at ha
      split at h
      · cases h
        have hone := ht.artifact hs ha
        exact ⟨by omega, (hs.artifact ha).2.2.1⟩
      · nomatch h
  · nomatch h

/-- In what a change handed was read through, 0 marks the IRIs that hold nothing, and no others. -/
theorem through_zero (h : drafted O t operations = .ok d) (ht : t.FromFirst) (hs : t.Sound) :
    ∀ c ∈ d.handed, ∀ each ∈ c.through, each.2 = 0 ↔ t.holds each.1 = false := by
  obtain ⟨left, outcomes, read, plain, hpasses⟩ := drafted_ok h
  have hstore := hpasses.store.2
  intro c hc each heach
  rw [hpasses.handed] at hc
  obtain ⟨c', hc', rfl⟩ := List.mem_map.mp hc
  rcases List.mem_append.mp heach with heach | heach
  · obtain ⟨p, _, hp⟩ := forall₂_of_mem_right hpasses.byOne hc'
    obtain ⟨types, hthrough⟩ := (Handing.handed_ok hp).through.resolve_left fun hnil => by
      rw [hnil] at heach
      nomatch heach
    rw [hthrough] at heach
    have hheld := asRead_held hstore ht hs heach
    simp [hheld.1, hheld.2]
  · obtain ⟨id, hid, rfl⟩ := List.mem_map.mp heach
    obtain ⟨hopen, hnone⟩ := List.mem_filter.mp hid
    have hsame := (List.mem_filter.mp hopen).2
    simp only [Draft.changed, Draft.holds, hstore, Bool.not_eq_true', Bool.or_eq_false_iff,
      decide_eq_false_iff_not] at hsame hnone
    simpa [hsame.1, hsame.2] using hnone

end Drafting

/-! ## Over a run -/

theorem Fresh.fromFirst {O : Outside} {t : Tables} (h : Fresh O t) : t.FromFirst := by
  obtain ⟨_, _, _, _, _, hlands⟩ := h.landed
  refine hlands.fromFirst ⟨nofun, nofun⟩ fun c hc _ => ?_
  rw [List.mem_singleton.mp hc]
  exact le_refl 1

theorem Operation.fromFirst_of_asked {op : Operation} (h : op.asked) : op.FromFirst := by
  cases op with
  | import_ id a => nomatch h
  | _ => trivial

theorem Move.Makes.fromFirst {O : Outside} {t t' : Tables} {past : List Tables} {move : Move}
    (h : Move.Makes O t past move t') (hmove : move.FromFirst O t past)
    (hpast : ∀ s ∈ t :: past, s.FromFirst) (hsound : ∀ s ∈ t :: past, s.Sound) : t'.FromFirst := by
  have ht := hpast t List.mem_cons_self
  have hs := hsound t List.mem_cons_self
  cases h with
  | asDrafted hasked hon _ hd _ hlands =>
      obtain ⟨entries, _, hlanded⟩ := hlands
      exact ((landed_iff ..).mp hlanded).fromFirst ht
        (Drafting.drafted_counting hd (hpast _ hon) (hsound _ hon)
        fun op hop => Operation.fromFirst_of_asked (hasked op hop))
  | torn hasked hon _ _ hd _ hlands =>
      obtain ⟨entries, _, hlanded⟩ := hlands
      exact ((landed_iff ..).mp hlanded).fromFirst ht
        (Drafting.drafted_counting hd (hpast _ hon) (hsound _ hon)
        fun op hop => Operation.fromFirst_of_asked (Move.unsaid_asked hasked op hop))
  | underLock hasked hd hlands =>
      obtain ⟨entries, _, hlanded⟩ := hlands
      exact ((landed_iff ..).mp hlanded).fromFirst ht (Drafting.drafted_counting hd ht hs
        fun op hop => Operation.fromFirst_of_asked (hasked op hop))
  | imported h =>
      rcases Importing.imported_ok h with h | ⟨operations, d, _, entries, hbrings, _,
        hd, _, hlanded⟩
      · cases h
        exact ht
      · exact ((landed_iff ..).mp hlanded).fromFirst ht
          (Drafting.drafted_counting hd ht hs (hmove operations hbrings))
  | recorded _ _ _ h => exact ((landed_iff ..).mp h).fromFirst ht nofun

namespace Counting

variable {O : Outside}

theorem fromFirst {states : List Tables} (h : RunWhere O (Move.FromFirst O) states) :
    ∀ t ∈ states, t.FromFirst :=
  History.Run.invariant (fun _ hs => hs.fromFirst)
    (fun _ _ _ hrun hpast ⟨_, hallowed, hmove⟩ =>
      hmove.fromFirst hallowed hpast (RunWhere.run hrun).sound) h

/-- Revision 0 marks what a store does not hold, and nothing else, wherever it is so read: where the
port compares a revision, in the guards a set drafted on the store hands, in what the check of links
notes of each artifact a set changes, and where a change of a set that lands is told for a
create. -/
structure ZeroMarks (O : Outside) (t : Tables) : Prop where
  compared : ∀ id, compared t id 0 = true ↔ t.holds id = false
  guards : ∀ operations d, Drafting.drafted O t operations = .ok d → ∀ c ∈ d.handed,
    ∀ each ∈ c.through,
    each.2 = 0 ↔ t.holds each.1 = false
  noted : ∀ landed cs, ∀ each ∈ (notedAll landed t {} cs).before, each.2.1 = 0 ↔
    t.holds each.1 = false
  created : ∀ changes entries t', landed t changes entries = .ok t' → Counting changes →
    ∀ before c after, changes = before ++ c :: after →
    ∃ mid, Written (t.lastSet + 1) (opened t entries) before.zipIdx mid ∧
      mid.revisionAt c.artifact = c.read ∧
      (c.op = "create" ↔ c.content.isSome = true ∧ mid.holds c.artifact = false)

theorem zeroMarks {t : Tables} (ht : t.FromFirst) (hs : t.Sound) : ZeroMarks O t where
  compared id := by
    unfold compared
    rw [decide_eq_true_iff]
    exact ht.held.revisionAt_eq_zero id
  guards operations d hd := Drafting.through_zero hd ht hs
  noted landed cs each heach := by
    rcases mem_notedAll.mp heach with hnil | ⟨_, _, hrev, _⟩
    · nomatch hnil
    · rw [hrev]
      exact ht.held.revisionAt_eq_zero each.1
  created := by
    rintro changes entries t' hlanded hcounting before c after rfl
    obtain ⟨left, hwritten, _⟩ := ((landed_iff ..).mp hlanded).written
    obtain ⟨mid, hbefore, hread⟩ := hwritten.at_change
    have hmid : mid.FromFirst :=
        hbefore.fromFirst (t := opened t entries) ⟨ht.held, ht.kept⟩ fun p hp =>
      hcounting p.1 (List.mem_append_left _ (List.fst_mem_of_mem_zipIdx hp))
    refine ⟨mid, hbefore, hread, ?_⟩
    rw [← hmid.held.revisionAt_eq_zero, hread]
    unfold Change.op
    rcases c.content with _ | a
    · simp
    · by_cases hzero : c.read = 0 <;> simp [hzero]

/-- Every revision is at least 1 in every store of a run whose imports land no file at a revision
below 1, of what is held and of what is kept of a type; a replacement or an addition leaves its
artifact one above the revision it read it at, and is handed so; and 0 marks what is not held. -/
theorem revisions_from_first {states : List Tables} (h : RunWhere O (Move.FromFirst O) states) :
    (∀ t ∈ states, (∀ r ∈ t.artifacts, 1 ≤ r.revision) ∧ (∀ r ∈ t.typeVersions, 1 ≤ r.revision) ∧
      ZeroMarks O t) ∧
    (∀ on ∈ states, ∀ operations d, (∀ op ∈ operations, op.FromFirst) →
      Drafting.drafted O on operations = .ok d →
      Counting d.handed ∧
      List.Forall₂ (fun (c : Done) g => c.op = .write ∨ c.op = .append → g.revision = c.revision ∧
        g.revision = g.read + 1)
        d.changes d.handed) ∧
    ∀ d op d' c, Edits.acted O d op = .ok (d', .change c) → c.op = .write ∨ c.op = .append →
      ∃ now a, d.artifact c.artifact = some now ∧ d'.artifact c.artifact = some a ∧
        c.left = some a ∧
        a.revision = now.revision + 1 ∧ c.revision = a.revision := by
  refine ⟨fun t ht => ?_, fun on hon operations d hops hd => ⟨?_, ?_⟩,
    fun d op d' c hacted hop => ?_⟩
  · have hfirst := fromFirst h t ht
    exact ⟨hfirst.held, hfirst.kept, zeroMarks hfirst (h.run.sound t ht)⟩
  · exact Drafting.drafted_counting hd (fromFirst h on hon) (h.run.sound on hon) hops
  · obtain ⟨left, outcomes, read, plain, hpasses⟩ := Drafting.drafted_ok hd
    refine hpasses.same.imp fun c g hsame hop => ⟨hsame.revision, ?_⟩
    have hread := hsame.read (Or.inl (by rcases hop with hop | hop <;> simp [hop]))
    have hrevision := hsame.revision
    omega
  · exact (Edits.acted_ok hacted).next hop

/-! ## A type brought by a file, at the revision the file gives -/

namespace Brings

open Sample

def type : ArtifactId := ⟨"https://kb.io/w", by decide⟩

/-- The type as a file at a revision holds it. -/
def filed (revision : Int) : Artifact :=
  ⟨type, Start.METASCHEMA_VERSION, revision, "T",
    [(.text "version", .scalar (.int 1)), (.text "schema", .map [])]⟩

/-- The sample's outside, where one text is that of the file. -/
def outside (revision : Int) : Outside :=
  { Sample.outside with
    load := fun text => if text = "filed" then .ok (.map (filed revision).whole)
      else .error "not read"
    dump := fun entries => if entries = (filed revision).whole then .ok "filed"
      else Sample.outside.dump entries }

def directory : List File := [⟨["kb.io", "w@1.yaml"], .ok "filed"⟩]

def started (revision : Int) : Tables :=
  (Start.started (outside revision) "role" "execution" 0).toOption.getD {}

def clock : Nat → Int := fun _ => 1

/-- The store the import of the file leads to. -/
def imported (revision : Int) : Tables :=
  ((Importing.imported (outside revision) (started revision) directory signed false clock
    clock).toOption.map Prod.snd).getD {}

theorem imported_run {revision : Int} {allowed : Tables → List Tables → Move → Prop}
    (hstarted : (Start.started (outside revision) "role" "execution" 0).toOption.isSome = true)
    (himported :
      (Importing.imported (outside revision) (started revision) directory signed false clock
        clock).toOption.isSome = true)
    (hallowed : allowed (started revision) [] (.imported directory signed false clock clock)) :
    RunWhere (outside revision) allowed [imported revision, started revision] := by
  obtain ⟨t, ht⟩ := Option.isSome_iff_exists.mp hstarted
  obtain ⟨⟨report, t'⟩, ht'⟩ := Option.isSome_iff_exists.mp himported
  have hstart : started revision = t := by rw [started, ht, Option.getD_some]
  have hleft : imported revision = t' := by rw [imported, ht', Option.map_some, Option.getD_some]
  rw [hstart] at hallowed ht' ⊢
  rw [hleft]
  exact .step (.start ⟨"role", "execution", 0, toOption_some ht⟩) ⟨_, hallowed,
    .imported (toOption_some ht')⟩

/-- A replacement of the type. -/
def replacing : Operation :=
  .replace ⟨type, []⟩ { tree := .map [(.text "schema", .map [])] } none none

end Brings

open Brings in
/-- A type a file brings at its first revision: every revision counts from 1, and a replacement of
the type is handed at its second. -/
theorem revisions_from_first_brought :
    (∀ r ∈ (imported 1).artifacts, 1 ≤ r.revision) ∧
      (∀ r ∈ (imported 1).typeVersions, 1 ≤ r.revision) ∧
      ZeroMarks (outside 1) (imported 1) ∧ (imported 1).holds type = true ∧
      ∃ d, Drafting.drafted (outside 1) (imported 1) [replacing] = .ok d ∧ Counting d.handed ∧
      d.handed.map Change.revision = [2] := by
  obtain ⟨hstarted, himported, hbrings, hholds, hdrafted⟩ :
      (Start.started (outside 1) "role" "execution" 0).toOption.isSome = true ∧
        (Importing.imported (outside 1) (started 1) directory Sample.signed false clock
          clock).toOption.isSome = true ∧
        ((Importing.brings (outside 1) (started 1) directory).toOption.any fun operations =>
          operations.all fun op => op.FromFirst) = true ∧
        (imported 1).holds type = true ∧
        ((Drafting.drafted (outside 1) (imported 1) [replacing]).toOption.map fun d =>
            d.handed.map Change.revision) = some [2] := by
    decide +kernel
  have hrun : RunWhere (outside 1) (Move.FromFirst (outside 1)) [imported 1, started 1] := by
    refine imported_run hstarted himported fun operations hoperations op hop => ?_
    rw [hoperations] at hbrings
    exact of_decide_eq_true (List.all_eq_true.mp hbrings op hop)
  obtain ⟨hstores, hsets, _⟩ := revisions_from_first hrun
  obtain ⟨hheld, hkept, hmarks⟩ := hstores (imported 1) List.mem_cons_self
  obtain ⟨d, hd, hrevisions⟩ := Option.map_eq_some_iff.mp hdrafted
  have hd := Sample.toOption_some hd
  have hcounting := (hsets (imported 1) List.mem_cons_self [replacing] d (fun op hop => by
    rw [List.mem_singleton.mp hop]
    trivial) hd).1
  exact ⟨hheld, hkept, hmarks, hholds, d, hd, hcounting, hrevisions⟩

open Brings in
/-- The same type in a file at revision 0: the import lands it, held and its version kept at 0, and
where 0 marks what is not held it is taken for that. -/
theorem revisions_from_first_below :
    Run (outside 0) [imported 0, started 0] ∧ (∃ r ∈ (imported 0).artifacts, r.revision < 1) ∧
      (∃ r ∈ (imported 0).typeVersions, r.revision < 1) ∧
      compared (imported 0) type 0 = true ∧ (imported 0).holds type = true := by
  obtain ⟨hstarted, himported, hheld, hkept, hcompared, hholds⟩ :
      (Start.started (outside 0) "role" "execution" 0).toOption.isSome = true ∧
        (Importing.imported (outside 0) (started 0) directory Sample.signed false clock
          clock).toOption.isSome = true ∧
        (∃ r ∈ (imported 0).artifacts, r.revision < 1) ∧
        (∃ r ∈ (imported 0).typeVersions, r.revision < 1) ∧
        compared (imported 0) type 0 = true ∧ (imported 0).holds type = true := by
    decide +kernel
  exact ⟨imported_run hstarted himported trivial, hheld, hkept, hcompared, hholds⟩

end Counting

end Kb
