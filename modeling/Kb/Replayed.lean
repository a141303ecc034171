/-
# `Kb.Replayed` — a store is what its log of changes says

Every change a set lands leaves a row in `versions`, and no row of it is ever changed or taken out;
the rows of `artifacts` and `type_versions` are written beside it and taken out again.  So the log
says what the store holds (`Replays`), and, read up to the number of an earlier set, what the store
held then.

The kind of an artifact and the version a type stands at are in no column of the log: both are what
the content says, as every drafted set's changes hand them (`Handing.MakesVersion`).
-/
import Kb.Sound
import Kb.Revisions
import Kb.Lib.Ledger

namespace Kb

open Raising Landing Ledger

namespace VersionRow

/-- The order the rows of the log come in: by the set that landed them, then by the change of it. -/
def Before (r r' : VersionRow) : Prop :=
  r.landed < r'.landed ∨ r.landed = r'.landed ∧ r.step < r'.step

/-- The row of an artifact a row of the log says was written. -/
def row (r : VersionRow) : Option ArtifactRow :=
  r.content.map fun a => ⟨r.artifact, a.kind, r.revision, a⟩

/-- The version of a type a row of the log says was kept. -/
def kept (r : VersionRow) : Option TypeVersionRow :=
  r.content.bind fun a => if a.kind = TYPE_KIND then
    (Handing.standsAt a).toOption.map fun v =>
      ⟨v.label, r.artifact, v.number, r.revision, v.title, a⟩
  else none

end VersionRow

namespace Tables

/-- The log up to a set. -/
def logUpTo (t : Tables) (set : Nat) : List VersionRow := upTo VersionRow.landed set t.versions

/-- The rows of an artifact since it was last taken out. -/
def lifeIn (log : List VersionRow) (id : ArtifactId) : List VersionRow :=
  life VersionRow.artifact VersionRow.content log id

/-- The row of an artifact as a log says it. -/
def rowIn (log : List VersionRow) (id : ArtifactId) : Option ArtifactRow :=
  (standing VersionRow.artifact VersionRow.content log id).bind VersionRow.row

/-- The versions kept of a type as a log says them. -/
def keptIn (log : List VersionRow) (id : ArtifactId) : List TypeVersionRow :=
  (lifeIn log id).filterMap VersionRow.kept

/-- The versions kept of a type. -/
def keptOf (t : Tables) (id : ArtifactId) : List TypeVersionRow :=
  t.typeVersions.filter fun r => r.type = id

/-- A store holds what its log says. -/
structure Replays (t : Tables) : Prop where
  row : ∀ id, t.row? id = rowIn t.versions id
  kept : ∀ id, t.keptOf id = keptIn t.versions id
  once : (t.artifacts.map ArtifactRow.id).Nodup

end Tables

/-- The row of the log a change leaves. -/
def Change.logged (c : Change) (landed step : Nat) : VersionRow :=
  ⟨c.artifact, landed, step, c.revision, c.content⟩

/-- A change says what its content says, the version it makes of a type with it. -/
structure Change.Told (c : Change) : Prop where
  kind : ∀ a, c.content = some a → c.kind = some a.kind
  version : ∀ a, c.content = some a → Handing.MakesVersion a c.version

namespace Tables

variable {t : Tables} {c : Change} {landed step : Nat}

theorem row_told (hc : c.Told) : (rowOf c).head? = (c.logged landed step).row := by
  cases ha : c.content with
  | none => simp [rowOf, VersionRow.row, Change.logged, ha]
  | some a =>
      have hkind := hc.kind a ha
      simp [rowOf, VersionRow.row, Change.logged, ha, hkind]

theorem kept_told (hc : c.Told) : typeVersionRows c = (c.logged landed step).kept.toList := by
  cases ha : c.content with
  | none => simp [typeVersionRows, VersionRow.kept, Change.logged, ha]
  | some a =>
      have hversion := hc.version a ha
      unfold Handing.MakesVersion at hversion
      by_cases hkind : a.kind = TYPE_KIND
      · rw [if_pos hkind] at hversion
        obtain ⟨v, hv, hversion⟩ := hversion
        simp [typeVersionRows, VersionRow.kept, Change.logged, ha, hkind, hv, hversion,
          Except.toOption]
      · rw [if_neg hkind] at hversion
        simp [typeVersionRows, VersionRow.kept, Change.logged, ha, hkind, hversion]

theorem type_of_mem_typeVersionRows {r : TypeVersionRow} (h : r ∈ typeVersionRows c) :
    r.type = c.artifact := by
  unfold typeVersionRows at h
  split at h
  · rw [List.mem_singleton.mp h]
  · nomatch h

theorem keptOf_wrote (id : ArtifactId) : (t.wrote landed step c).keptOf id =
    (if c.artifact = id then (if c.content.isNone then [] else t.keptOf id) ++ typeVersionRows c
      else t.keptOf id) := by
  have hrows : (t.wrote landed step c).keptOf id =
      ((if c.content.isNone then t.typeVersions.filter fun r => r.type ≠ c.artifact
        else t.typeVersions)
        ++ typeVersionRows c).filter fun r => r.type = id := rfl
  rw [hrows, List.filter_append]
  by_cases hid : c.artifact = id
  · have hmade : (typeVersionRows c).filter (fun r => decide (r.type = id)) = typeVersionRows c :=
      List.filter_eq_self.mpr fun r hr =>
        decide_eq_true ((type_of_mem_typeVersionRows hr).trans hid)
    rw [if_pos hid, hmade]
    cases hgone : c.content.isNone with
    | false => rfl
    | true =>
        subst hid
        simp [List.filter_filter]
  · have hmade : (typeVersionRows c).filter (fun r => decide (r.type = id)) = [] :=
      List.filter_eq_nil_iff.mpr fun r hr => by simpa [type_of_mem_typeVersionRows hr] using hid
    rw [if_neg hid, hmade, List.append_nil]
    cases hgone : c.content.isNone with
    | false => rfl
    | true =>
        show (t.typeVersions.filter fun r => r.type ≠ c.artifact).filter (fun r => r.type = id) = _
        rw [List.filter_filter]
        refine List.filter_congr fun r _ => ?_
        by_cases hr : r.type = id
        · simp [hr, Ne.symm hid]
        · simp [hr]

theorem lifeIn_wrote (id : ArtifactId) : lifeIn (t.wrote landed step c).versions id =
    if c.artifact = id
      then (if c.content.isNone then [] else lifeIn t.versions id ++ [c.logged landed step])
    else lifeIn t.versions id := by
  rw [versions_wrote, lifeIn, life_concat]
  rfl

/-- A change written leaves a store that holds what its log says. -/
theorem Replays.wrote (h : t.Replays) (hc : c.Told) : (t.wrote landed step c).Replays where
  row := by
    intro id
    show _ = (lifeIn _ id).getLast?.bind VersionRow.row
    rw [row?_wrote, lifeIn_wrote]
    by_cases hid : c.artifact = id
    · rw [if_pos hid.symm, if_pos hid, @row_told c landed step hc]
      cases ha : c.content with
      | none => simp [VersionRow.row, Change.logged, ha]
      | some a => simp
    · rw [if_neg (Ne.symm hid), if_neg hid]
      exact h.row id
  kept := by
    intro id
    rw [keptOf_wrote, keptIn, lifeIn_wrote]
    by_cases hid : c.artifact = id
    · rw [if_pos hid, if_pos hid, @kept_told c landed step hc]
      cases ha : c.content with
      | none => simp [VersionRow.kept, Change.logged, ha]
      | some a =>
          rw [Option.isNone_some, if_neg Bool.false_ne_true, if_neg Bool.false_ne_true,
            List.filterMap_append, h.kept id]
          rfl
    · rw [if_neg hid, if_neg hid]
      exact h.kept id
  once := by
    have hrows : (t.wrote landed step c).artifacts.map ArtifactRow.id =
        (t.artifacts.filter fun r => r.id ≠ c.artifact).map ArtifactRow.id ++
          (rowOf c).map ArtifactRow.id := List.map_append
    rw [hrows, List.nodup_append]
    refine ⟨h.once.sublist (List.filter_sublist.map _), ?_, ?_⟩
    · unfold rowOf
      split
      · exact List.nodup_singleton _
      · exact List.nodup_nil
    · rintro id hid id' hid' rfl
      obtain ⟨r, hr, rfl⟩ := List.mem_map.mp hid
      obtain ⟨r', hr', hsame⟩ := List.mem_map.mp hid'
      have hne : r.id ≠ c.artifact := by simpa using (List.mem_filter.mp hr).2
      exact hne (hsame.symm.trans (id_of_mem_rowOf c hr'))

end Tables

/-! ## The changes a drafted set hands -/

namespace Handing

theorem Hands.told {O : Outside} {d : Draft} {c : Done} {read : Int} {last : Bool} {h : Change}
    (hh : Hands O d c read last h) :
    h.Told := by
  cases hh with
  | gone _ => exact ⟨nofun, nofun⟩
  | earlier _ _ hversion _ | last _ _ hversion _ _ _ _ _ =>
      refine ⟨?_, ?_⟩
      · rintro a ⟨⟩
        rfl
      · rintro a ⟨⟩
        exact hversion

end Handing

theorem Drafting.drafted_told {O : Outside} {t : Tables} {operations : List Operation} {d : Drafted}
    (h : Drafting.drafted O t operations = .ok d) : ∀ c ∈ d.handed, c.Told := by
  obtain ⟨left, outcomes, read, plain, hpasses⟩ := Drafting.drafted_ok h
  intro c hc
  rw [hpasses.handed] at hc
  obtain ⟨g, hg, rfl⟩ := List.mem_map.mp hc
  obtain ⟨each, _, heach⟩ := forall₂_of_mem_right hpasses.byOne hg
  have htold := (Handing.handed_ok heach).told
  exact ⟨htold.kind, htold.version⟩

/-! ## Landings -/

namespace Landing

variable {t t' : Tables} {changes : List Change} {entries : List Entry}

theorem Written.replays {landed : Nat} {cs : List (Change × Nat)} (h : Written landed t cs t')
    (ht : t.Replays) (hcs : ∀ p ∈ cs, p.1.Told) : t'.Replays := by
  induction h with
  | nil => exact ht
  | cons _ _ _ ih =>
      exact ih (ht.wrote (hcs _ List.mem_cons_self)) fun p hp => hcs p (List.mem_cons_of_mem _ hp)

theorem Lands.replays (h : Lands t changes entries t') (ht : t.Replays)
    (hcs : ∀ c ∈ changes, c.Told) : t'.Replays := by
  obtain ⟨left, hwritten, _, _, rfl⟩ := h.written
  have hopened : (opened t entries).Replays := ⟨ht.row, ht.kept, ht.once⟩
  have hleft := hwritten.replays hopened fun p hp => hcs _ (List.fst_mem_of_mem_zipIdx hp)
  exact ⟨hleft.row, hleft.kept, hleft.once⟩

/-- A landing goes on with the log, under a number no row of it has. -/
theorem Lands.grown (h : Lands t changes entries t') :
    t.lastSet ≤ t'.lastSet ∧ Grown VersionRow.landed t.lastSet t.versions t'.versions := by
  obtain ⟨hset, hversions⟩ := h.versions
  refine ⟨by omega, _, hversions, fun r hr => ?_⟩
  obtain ⟨p, _, rfl⟩ := List.mem_map.mp hr
  exact Nat.lt_succ_self _

theorem pairwise_zipIdx {α : Type} (as : List α) : as.zipIdx.Pairwise fun p q => p.2 < q.2 := by
  have hsteps : (as.zipIdx.map Prod.snd).Pairwise (· < ·) := by
    rw [List.zipIdx_map_snd]
    exact List.pairwise_lt_range'
  exact List.pairwise_map.mp hsteps

theorem Lands.ordered (h : Lands t changes entries t')
    (hsets : ∀ r ∈ t.versions, r.landed ≤ t.lastSet) (ht : t.versions.Pairwise VersionRow.Before) :
    t'.versions.Pairwise VersionRow.Before := by
  rw [h.versions.2, List.pairwise_append]
  refine ⟨ht, ?_, ?_⟩
  · refine List.pairwise_map.mpr ((pairwise_zipIdx changes).imp ?_)
    intro p q hlt
    exact Or.inr ⟨rfl, hlt⟩
  · intro r hr r' hr'
    obtain ⟨p, _, rfl⟩ := List.mem_map.mp hr'
    exact Or.inl (Nat.lt_succ_of_le (hsets r hr))

end Landing

/-! ## Over a run -/

theorem Move.Comes.lands {O : Outside} {t t' : Tables} {past : List Tables}
    (h : Move.Comes O t past t') (hpast : ∀ s ∈ t :: past, s.Sound) :
    t' = t ∨ ∃ changes entries, Landing.Lands t changes entries t' ∧ (∀ c ∈ changes, c.Sound) ∧
      ∀ c ∈ changes, c.Told := by
  rcases h.handed hpast with rfl | ⟨_, _, hlands, hsound, rfl | ⟨_, _, _, hd, rfl⟩⟩
  · exact Or.inl rfl
  · exact Or.inr ⟨_, _, hlands, hsound, nofun⟩
  · exact Or.inr ⟨_, _, hlands, hsound, Drafting.drafted_told hd⟩

theorem Start.created_told (O : Outside) : ∀ c ∈ [Start.created O], c.Told := by
  intro c hc
  rw [List.mem_singleton.mp hc]
  refine ⟨?_, ?_⟩
  · rintro a ⟨⟩
    rfl
  · rintro a ⟨⟩
    exact ⟨_, rfl, rfl⟩

/-- What a landing of changes that say what their content says keeps, every store of a run has. -/
theorem Run.landing {O : Outside} {I : Tables → Prop} (hempty : I {})
    (hlands : ∀ t changes entries t', I t → Lands t changes entries t' →
      (∀ c ∈ changes, c.Sound) → (∀ c ∈ changes, c.Told) → I t')
    {states : List Tables} (h : Run O states) : ∀ t ∈ states, I t := by
  have hall : ∀ t ∈ states, t.Sound ∧ I t := by
    refine History.Run.invariant ?_ ?_ h
    · intro t ht
      obtain ⟨_, _, _, _, _, hland⟩ := ht.landed
      exact ⟨ht.sound, hlands _ _ _ _ hempty hland (Start.created_sound O) (Start.created_told O)⟩
    · rintro t past t' _ hpast ⟨_, _, hmove⟩
      have hsound : ∀ s ∈ t :: past, s.Sound := fun s hs => (hpast s hs).1
      have ht : I t := (hpast t List.mem_cons_self).2
      refine ⟨hmove.comes.sound hsound, ?_⟩
      rcases hmove.comes.lands hsound with rfl | ⟨changes, entries, hland, hsays, htold⟩
      · exact ht
      · exact hlands _ _ _ _ ht hland hsays htold
  exact fun t ht => (hall t ht).2

theorem Run.replays {O : Outside} {states : List Tables} (h : Run O states) :
    ∀ t ∈ states, t.Replays :=
  h.landing ⟨fun _ => rfl, fun _ => rfl, List.nodup_nil⟩ fun _ _ _ _ ht hland _ htold =>
    hland.replays ht htold

theorem Run.ordered {O : Outside} {states : List Tables} (h : Run O states) :
    ∀ t ∈ states, t.versions.Pairwise VersionRow.Before := by
  have hall := h.landing (I := fun t => (∀ r ∈ t.versions, r.landed ≤ t.lastSet) ∧
    t.versions.Pairwise VersionRow.Before)
    ⟨nofun, .nil⟩ ?_
  · exact fun t ht => (hall t ht).2
  · intro t changes entries t' ht hland _ _
    refine ⟨fun r hr => ?_, hland.ordered ht.1 ht.2⟩
    have hset := hland.versions.1
    rcases hland.mem_versions.mp hr with hr | ⟨p, _, rfl⟩
    · have := ht.1 r hr
      omega
    · exact hset.ge

/-- The log of any later store goes on from that of an earlier one. -/
theorem Run.grown {O : Outside} {states : List Tables} (h : Run O states) :
    states.Pairwise fun later earlier =>
    earlier.lastSet ≤ later.lastSet ∧
      Grown VersionRow.landed earlier.lastSet earlier.versions later.versions := by
  refine History.Run.between (R := fun earlier later =>
    earlier.lastSet ≤ later.lastSet ∧
      Grown VersionRow.landed earlier.lastSet earlier.versions later.versions) ?_ ?_ h
  · intro a b c hab hbc
    exact ⟨hab.1.trans hbc.1, hab.2.trans hbc.2 hab.1⟩
  · rintro t past t' hrun ⟨_, _, hmove⟩
    rcases hmove.comes.lands (Run.sound hrun) with rfl | ⟨changes, entries, hland, _⟩
    · exact ⟨Nat.le_refl _, .refl ..⟩
    · exact hland.grown

/-- A store is what its log says, and so was every store before it: the rows of the log come in the
order their changes landed in, none is ever changed or taken out, and, read up to the last set an
earlier store held, they say what it held, row by row: each artifact, and the versions kept of each
type. -/
theorem log_replays {O : Outside} {t : Tables} {past : List Tables} (h : Run O (t :: past)) :
    t.versions.Pairwise VersionRow.Before ∧
    ∀ s ∈ t :: past, s.versions = t.logUpTo s.lastSet ∧ (s.artifacts.map ArtifactRow.id).Nodup ∧
      ∀ id, s.row? id = Tables.rowIn (t.logUpTo s.lastSet) id ∧ s.keptOf id =
        Tables.keptIn (t.logUpTo s.lastSet) id := by
  refine ⟨h.ordered t List.mem_cons_self, fun s hs => ?_⟩
  have hgrown : Grown VersionRow.landed s.lastSet s.versions t.versions := by
    rcases List.mem_cons.mp hs with rfl | hpast
    · exact .refl ..
    · exact ((List.pairwise_cons.mp h.grown).1 s hpast).2
  have hlog : t.logUpTo s.lastSet = s.versions := hgrown.upTo (h.sound s hs).sets
  have hreplays := h.replays s hs
  rw [hlog]
  exact ⟨rfl, hreplays.once, fun id => ⟨hreplays.row id, hreplays.kept id⟩⟩

namespace Replaying

open Sample

def type : ArtifactId := ⟨"https://kb.io/b", by decide⟩
def note : ArtifactId := ⟨"https://kb.io/b/a", by decide⟩
def noteVersion : Version := ⟨type, 1, Nat.one_pos, by decide⟩

def defining : Operation :=
  .create type Start.METASCHEMA_VERSION "T" [] { tree := .map [(.text "schema", .map [])] } []
def creating : Operation :=
  .create note noteVersion "A" [] { tree := .map [(.text "note", .text "first")] } []
def removing : Operation := .remove ⟨note, []⟩ none

/-- A type defined and a note of it created. -/
def created : List (List Operation) := [[creating], [defining]]

/-- The note taken out since. -/
def removed : List (List Operation) := [removing] :: created

theorem removed_asked : ∀ operations ∈ removed, ∀ op ∈ operations, op.asked = true := by decide

end Replaying

open Sample Replaying in
/-- A note that was taken out stands in the log as the store before held it. -/
theorem log_replays_removed :
    (store removed).row? note = none ∧ ((store created).row? note).isSome = true ∧
      Tables.rowIn ((store removed).logUpTo (store created).lastSet) note =
        (store created).row? note := by
  obtain ⟨hran, hgone, hheld, hseen⟩ : (ran removed).isSome = true ∧
      (store removed).row? note = none ∧
      ((store created).row? note).isSome = true ∧ (stores created).isEmpty = false := by
    decide +kernel
  have hstores : stores removed = store removed :: stores created := stores_cons hran
  have hrun : Run outside (store removed :: stores created) := by
    rw [← hstores]
    exact stores_run removed_asked hran
  obtain ⟨_, hall⟩ := log_replays hrun
  obtain ⟨_, _, hrows⟩ := hall _ (List.mem_cons_of_mem _ (store_mem hseen))
  exact ⟨hgone, hheld, ((hrows note).1).symm⟩

end Kb
