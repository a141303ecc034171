/-
# `Kb.Revisions` — a revision says what was read

An artifact's revision rises with every set that changes it, until a set takes it out: `Risen`
relates any store of a run to any later one.  A client's change that says the revision it read lands
only on an artifact standing at that revision or lower, so, where nothing took the artifact out
since it was read, only on the artifact that was read.

An IRI taken out may be held again, and is then at its first revision: what a client read before is
told from what stands there now by its revision no longer.  And a set drafted outside a transaction
may be compared on one revision and made of the next (`Kb.Torn`): it lands over what its client
never read.
-/
import Kb.Sound

namespace Kb

open Raising Landing

namespace Tables

/-- Whether a set landed since a store changed what stands at an IRI. -/
def changedSince (s t : Tables) (id : ArtifactId) : Prop :=
  ∃ r ∈ t.versions, r.artifact = id ∧ s.lastSet < r.landed

/-- Whether a set landed since a store took out what stood at an IRI. -/
def removedSince (s t : Tables) (id : ArtifactId) : Prop :=
  ∃ r ∈ t.versions, r.artifact = id ∧ s.lastSet < r.landed ∧ r.content = none

instance (s t : Tables) (id : ArtifactId) :
    Decidable (changedSince s t id) := by unfold changedSince; infer_instance
instance (s t : Tables) (id : ArtifactId) :
    Decidable (removedSince s t id) := by unfold removedSince; infer_instance

/-- What a later store says of an earlier one: the changes landed before are landed still, and what
stood at an IRI that nothing was taken out of stands as it stood, unchanged, or at a higher
revision. -/
structure Risen (s t : Tables) : Prop where
  sets : s.lastSet ≤ t.lastSet
  kept : ∀ r ∈ s.versions, r ∈ t.versions
  old : ∀ r ∈ t.versions, r.landed ≤ s.lastSet → r ∈ s.versions
  rises : ∀ id, s.holds id = true → ¬ removedSince s t id → t.holds id = true ∧
    (s.revisionAt id < t.revisionAt id ∨ t.row? id = s.row? id ∧ ¬ changedSince s t id)

theorem Risen.trans {a b c : Tables} (h : Risen a b) (h' : Risen b c) : Risen a c where
  sets := h.sets.trans h'.sets
  kept r hr := h'.kept r (h.kept r hr)
  old r hr hle := h.old r (h'.old r hr (hle.trans h.sets)) hle
  rises := by
    intro id hid hremoved
    have hab : ¬ removedSince a b id :=
      fun ⟨r, hr, he, hlt, hnone⟩ => hremoved ⟨r, h'.kept r hr, he, hlt, hnone⟩
    have hbc : ¬ removedSince b c id := fun ⟨r, hr, he, hlt, hnone⟩ =>
      hremoved ⟨r, hr, he, lt_of_le_of_lt h.sets hlt, hnone⟩
    obtain ⟨hb, hab⟩ := h.rises id hid hab
    obtain ⟨hc, hbc⟩ := h'.rises id hb hbc
    refine ⟨hc, ?_⟩
    rcases hbc with hbc | ⟨hrow, hsame⟩
    · refine Or.inl ?_
      rcases hab with hab | ⟨hrow, _⟩
      · omega
      · have : b.revisionAt id = a.revisionAt id := by unfold revisionAt; rw [hrow]
        omega
    · rcases hab with hab | ⟨hrow', hsame'⟩
      · have : c.revisionAt id = b.revisionAt id := by unfold revisionAt; rw [hrow]
        exact Or.inl (by omega)
      · refine Or.inr ⟨hrow.trans hrow', ?_⟩
        rintro ⟨r, hr, he, hlt⟩
        by_cases hle : r.landed ≤ b.lastSet
        · exact hsame' ⟨r, h'.old r hr hle, he, hlt⟩
        · exact hsame ⟨r, hr, he, by omega⟩

theorem Risen.refl {t : Tables} (ht : t.Sound) : Risen t t where
  sets := Nat.le_refl _
  kept _ hr := hr
  old _ hr _ := hr
  rises id hid _ := by
    refine ⟨hid, Or.inr ⟨rfl, ?_⟩⟩
    rintro ⟨r, hr, _, hlt⟩
    exact absurd (ht.sets r hr) (by omega)

end Tables

namespace Landing

/-- The rows of its changes a landing leaves after those it found. -/
theorem Lands.versions {t t' : Tables} {changes : List Change} {entries : List Entry}
    (h : Lands t changes entries t') :
    t'.lastSet = t.lastSet + 1 ∧ t'.versions = t.versions ++
      changes.zipIdx.map fun (c, step) =>
        ⟨c.artifact, t.lastSet + 1, step, c.revision, c.content⟩ := by
  obtain ⟨left, hwritten, _, _, rfl⟩ := h.written
  exact ⟨hwritten.lastSet_eq, hwritten.versions_eq⟩

theorem Lands.mem_versions {t t' : Tables} {changes : List Change} {entries : List Entry}
    (h : Lands t changes entries t') {r : VersionRow} : r ∈ t'.versions ↔ r ∈ t.versions ∨
      ∃ p ∈ changes.zipIdx, r = ⟨p.1.artifact, t.lastSet + 1, p.2, p.1.revision, p.1.content⟩ := by
  rw [h.versions.2, List.mem_append, List.mem_map]
  simp only [eq_comm]

/-- A landing raises what it changes and does not take out, when each change is at a revision above
the one its artifact stands at, or one above the one it was read at. -/
theorem Lands.risen {t t' : Tables} {changes : List Change} {entries : List Entry}
    (h : Lands t changes entries t') (ht : t.Sound)
    (hup : ∀ c ∈ changes, c.content.isSome = true → t.holds c.artifact = true →
      t.revisionAt c.artifact < c.revision ∨ c.revision = c.read + 1) : Tables.Risen t t' where
  sets := by
    rw [h.versions.1]
    exact Nat.le_succ _
  kept r hr := h.mem_versions.mpr (Or.inl hr)
  old := by
    intro r hr hle
    rcases h.mem_versions.mp hr with hr | ⟨p, _, rfl⟩
    · exact hr
    · exact absurd hle (by simp)
  rises := by
    intro id hid hremoved
    have hsome : ∀ p ∈ changes.zipIdx, p.1.artifact = id → p.1.content.isSome = true := by
      intro p hp he
      rw [Option.isSome_iff_ne_none]
      intro hnone
      exact hremoved ⟨_, h.mem_versions.mpr (Or.inr ⟨p, hp, rfl⟩), he, Nat.lt_succ_self _, hnone⟩
    obtain ⟨left, hwritten, _, _, rfl⟩ := h.written
    by_cases hchanged : ∃ p ∈ changes.zipIdx, p.1.artifact = id
    · obtain ⟨hholds, hlt⟩ := hwritten.rises (le_refl (t.revisionAt id)) (fun p hp he =>
        ⟨hsome p hp he, he ▸ hup p.1 (List.fst_mem_of_mem_zipIdx hp) (hsome p hp he)
          (he ▸ hid)⟩) hchanged
      exact ⟨hholds, Or.inl hlt⟩
    · have hrow : left.row? id = t.row? id := hwritten.row?_eq fun p hp he => hchanged ⟨p, hp, he⟩
      refine ⟨?_, Or.inr ⟨hrow, ?_⟩⟩
      · rw [← hid]
        unfold Tables.holds
        exact congrArg _ hrow
      · rintro ⟨r, hr, he, hlt⟩
        rcases h.mem_versions.mp hr with hr | ⟨p, hp, rfl⟩
        · exact absurd (ht.sets r hr) (by omega)
        · exact hchanged ⟨p, hp, he⟩

end Landing

namespace Drafting

open Edits

variable {O : Outside}

/-- Every change a client's set hands is at the revision after the one it was read at. -/
theorem asked_read {t : Tables} {operations : List Operation} {d : Drafted}
    (h : drafted O t operations = .ok d) (hasked : ∀ op ∈ operations, op.asked) :
    ∀ c ∈ d.handed, c.revision = c.read + 1 := by
  obtain ⟨left, outcomes, read, plain, hpasses⟩ := drafted_ok h
  have hran :=
      hpasses.ran.invariant (I := fun _ => True) (P := fun c => c.op ≠ .import_) trivial (by
    intro op hop _ _ c _ hacts
    refine ⟨trivial, ?_⟩
    cases hacts with
    | removed => nofun
    | created hc => exact fun e => nomatch hc.op.symm.trans e
    | replaced _ hr | added _ hr =>
        intro e
        rcases hr.op with h | h <;> exact nomatch h.symm.trans e
    | imported => exact nomatch hasked _ (mem_byNumber hop))
  intro c hc
  obtain ⟨done, hdone, hcarries⟩ := forall₂_of_mem_right hpasses.carries hc
  have hread := hcarries.read (Or.inl (hran.2 done hdone))
  have hrev := hcarries.revision
  omega

/-- Every change a directory's set hands to an artifact the store holds is at a revision above the
one that stands there. -/
theorem brought_above {t : Tables} {operations : List Operation} {d : Drafted}
    (h : drafted O t operations = .ok d) (ht : t.Sound)
    (hbrought : ∀ op ∈ operations, ∃ name a, op = .import_ name.id a ∧ Brought O t name a) :
    ∀ c ∈ d.handed, t.holds c.artifact = true → t.revisionAt c.artifact < c.revision := by
  obtain ⟨left, outcomes, read, plain, hpasses⟩ := drafted_ok h
  have hran := hpasses.ran.invariant (I := fun _ => True)
    (P := fun c => t.holds c.artifact = true → t.revisionAt c.artifact < c.revision) trivial (by
    intro op hop _ _ c _ hacts
    refine ⟨trivial, fun hheld => ?_⟩
    obtain ⟨name, a, rfl, hb⟩ := hbrought op (mem_byNumber hop)
    cases hacts with
    | imported hb' _ _ _ =>
        obtain ⟨content, rfl⟩ := imported_ok hb'
        obtain ⟨standing, hstanding, hlt⟩ := hb.above hheld
        rw [(ht.artifact hstanding).2.1]
        exact hlt)
  intro c hc
  obtain ⟨done, hdone, hcarries⟩ := forall₂_of_mem_right hpasses.carries hc
  rw [hcarries.artifact, hcarries.revision]
  exact hran.2 done hdone

end Drafting

theorem Move.Comes.risen {O : Outside} {t t' : Tables} {past : List Tables}
    (h : Move.Comes O t past t') (hpast : ∀ s ∈ t :: past, s.Sound) : Tables.Risen t t' := by
  have ht := hpast t List.mem_cons_self
  cases h with
  | idle => exact .refl ht
  | recorded _ h => exact h.risen ht nofun
  | asked hasked _ _ hd _ hlands =>
      exact hlands.risen ht fun c hc _ _ => Or.inr (Drafting.asked_read hd hasked c hc)
  | brought hops hd _ hlands =>
      exact hlands.risen ht fun c hc _ hheld =>
        Or.inl (Drafting.brought_above hd ht hops c hc hheld)

/-- Any store of a run and any later one. -/
theorem Run.risen {O : Outside} {states : List Tables} (h : Run O states) :
    states.Pairwise fun later earlier => Tables.Risen earlier later :=
  History.Run.between (R := Tables.Risen) (fun _ _ _ => Tables.Risen.trans)
    (fun _ _ _ hrun ⟨_, _, hmove⟩ => hmove.comes.risen (Run.sound hrun)) h

namespace Drafting

open Edits

variable {O : Outside}

/-- Whether an operation takes an artifact out. -/
def takesOut (op : Operation) (id : ArtifactId) : Prop :=
  ∃ locator expected, op = .remove locator expected ∧ locator.id = id

end Drafting

namespace Drafting

open Edits

variable {O : Outside}

end Drafting

namespace Revisions

open Sample

def type : ArtifactId := ⟨"https://kb.io/t", by decide⟩
def note : ArtifactId := ⟨"https://kb.io/t/a", by decide⟩
def other : ArtifactId := ⟨"https://kb.io/t/b", by decide⟩
def noteVersion : Version := ⟨type, 1, Nat.one_pos, by decide⟩

def defining : Operation :=
  .create type Start.METASCHEMA_VERSION "T" [] { tree := .map [(.text "schema", .map [])] } []
def creating (name : ArtifactId) (text : String) : Operation :=
  .create name noteVersion "A" [] { tree := .map [(.text "note", .text text)] } []
def removing : Operation := .remove ⟨note, []⟩ none
/-- A replacement that says it read the note at its first revision. -/
def replacing : Operation :=
  .replace ⟨note, []⟩ { tree := .map [(.text "note", .text "third")] } (some 1) none

/-- The note as it was first created. -/
def first : Artifact := ⟨note, noteVersion, 1, "A", [(.text "note", .text "first")]⟩

/-- The type defined, the note created and read. -/
def read : List (List Operation) := [[creating note "first"], [defining]]
/-- Another note created since. -/
def besides : List (List Operation) := [creating other "second"] :: read
/-- The note taken out since, and made again. -/
def madeAgain : List (List Operation) := [creating note "second"] :: [removing] :: read

theorem all_asked : ∀ sets ∈ [besides, madeAgain], ∀ operations ∈ sets, ∀ op ∈ operations,
    op.asked = true := by decide

/-- The note as it was made again. -/
def second : Artifact := { first with content := [(.text "note", .text "second")] }

/-- A note taken out and made again stands at the revision it was read at, its content another; and
a replacement that says that revision lands on it. -/
theorem revision_says_what_was_made_again :
    Run outside (store madeAgain :: stores ([removing] :: read)) ∧ store read ∈ stores
      ([removing] :: read) ∧ (store read).artifact note = some first ∧
      (store madeAgain).artifact note = some second ∧
      second.revision = first.revision ∧ second ≠ first ∧ Tables.changedSince (store read)
        (store madeAgain) note ∧
      ∃ d entries t', Drafting.drafted outside (store madeAgain) [replacing] = .ok d ∧
        Landing.landed (store madeAgain) d.handed entries = .ok t' := by
  obtain ⟨hran, hlands, hread, hfirst, hsecond, hother, hchanged⟩ :
      (ran madeAgain).isSome = true ∧
        (landedFrom (store madeAgain) [replacing] 9 (store madeAgain)).toOption.isSome = true ∧
        store read ∈ stores ([removing] :: read) ∧ (store read).artifact note = some first ∧
        (store madeAgain).artifact note = some second ∧ second ≠ first ∧
        Tables.changedSince (store read) (store madeAgain) note := by
    decide +kernel
  obtain ⟨t', ht'⟩ := Option.isSome_iff_exists.mp hlands
  obtain ⟨d, entries, hd, _, hlanded⟩ := landedFrom_ok (toOption_some ht')
  exact ⟨stores_cons hran ▸ stores_run (all_asked madeAgain (by simp)) hran, hread, hfirst, hsecond,
    rfl, hother, hchanged,
    d, entries, t', hd, hlanded⟩

end Revisions

end Kb
