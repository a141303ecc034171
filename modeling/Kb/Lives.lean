/-
# `Kb.Lives` — the history of an IRI, told as the lives of what stood there

Read in the order they landed, the entries naming an IRI say of it, each after the one before:

    a create                 nothing stood; it stands at revision 1
    a write or an append     it stood at a revision; it stands at the next
    a delete                 it stood at a revision, and the entry is of the next; nothing stands
    an import                it stands at the revision its file gives

No entry of the history of a store whose imports count from 1 comes where it could not, and what
stands after the last is what the store holds.
-/
import Kb.Counting

namespace Kb

open Landing Raising

namespace Journal

/-- What stands at an IRI, by its revision, after an entry naming it; none where the entry could not
come after what stood. -/
def next (standing : Option Int) (e : Entry) : Option (Option Int) :=
  match standing with
  | none =>
      if e.op = Op.create.str ∧ e.revision = 1 ∨ e.op = Op.import_.str ∧ 1 ≤ e.revision
        then some (some e.revision) else none
  | some n =>
      if (e.op = Op.write.str ∨ e.op = Op.append.str) ∧ e.revision = n + 1 ∨ e.op = Op.import_.str ∧
          1 ≤ e.revision then
        some (some e.revision)
      else if e.op = Op.delete.str ∧ e.revision = n + 1 then some none
      else none

/-- Entries naming an IRI read one after another. -/
def lived : Option Int → List Entry → Option (Option Int)
  | standing, [] => some standing
  | standing, e :: rest => (next standing e).bind fun standing => lived standing rest

theorem lived_append (standing : Option Int) (es es' : List Entry) :
    lived standing (es ++ es') = (lived standing es).bind fun standing => lived standing es' := by
  induction es generalizing standing with
  | nil => rfl
  | cons e es ih =>
      show (next standing e).bind _ = ((next standing e).bind _).bind _
      cases next standing e with
      | none => rfl
      | some left => exact ih left

/-- The entries naming an IRI, in the order they landed. -/
def naming (es : List Entry) (id : ArtifactId) : List Entry :=
  es.filter fun e => e.artifact = id.iri

end Journal

/-- The revision of what stands at an IRI. -/
def Tables.standing (t : Tables) (id : ArtifactId) : Option Int :=
  (t.row? id).map ArtifactRow.revision

/-! ## What a change says of its revision -/

/-- The revision an operation leaves, and whether it leaves anything. -/
def Op.Dates (revision : Int) (left : Bool) : Op → Prop
  | .create => revision = 1 ∧ left = true
  | .write | .append => 2 ≤ revision ∧ left = true
  | .delete => 2 ≤ revision ∧ left = false
  | .import_ => 1 ≤ revision ∧ left = true

def Done.Dated (c : Done) : Prop := c.op.Dates c.revision c.left.isSome

theorem Done.Dated.counts {c : Done} (h : c.Dated) : 1 ≤ c.revision := by
  unfold Done.Dated at h
  cases hop : c.op with
  | create | write | append | delete | import_ =>
      rw [hop] at h
      have hrevision := h.1
      omega

namespace Edits

variable {O : Outside}

/-- What an operation says of its revision, in a draft whose artifacts count from 1. -/
theorem Acts.dated {d d' : Draft} {op : Operation} {c : Done} (h : Acts O d op d' c)
    (hd : ∀ id a, d.artifact id = some a → 1 ≤ a.revision) (hop : op.FromFirst) : c.Dated := by
  have hnext : ∀ {n : Int}, 1 ≤ n → 2 ≤ n + 1 := by
    intro n hn
    omega
  cases h with
  | removed _ ha => exact ⟨hnext (hd _ _ ha), rfl⟩
  | created hc _ =>
      obtain ⟨schema, whole, _, _, _, ha⟩ := hc.items
      obtain ⟨content, rfl⟩ := Settled.order_ok ha
      show Op.Dates _ _ _
      rw [hc.op]
      exact ⟨rfl, rfl⟩
  | replaced _ hr _ | added _ hr _ =>
      obtain ⟨schema, whole, _, _, _, ha⟩ := hr.items
      obtain ⟨content, rfl⟩ := Settled.order_ok ha
      show Op.Dates _ _ _
      rcases hr.op with hop | hop
      · rw [hop]
        exact ⟨hnext (hd _ _ hr.stands), rfl⟩
      · rw [hop]
        exact ⟨hnext (hd _ _ hr.stands), rfl⟩
  | imported hb hop' _ _ =>
      obtain ⟨content, rfl⟩ := imported_ok hb
      show Op.Dates _ _ _
      rw [hop']
      exact ⟨hop, rfl⟩

end Edits

namespace Handing

theorem Settles.dated {c c' : Done} (h : Settles c c') (hc : c.Dated) : c'.Dated := by
  cases h with
  | gone _ => exact hc
  | brought _ => exact hc
  | left a type content hop hleft _ =>
      unfold Done.Dated at hc
      rw [hleft] at hc
      exact hc

end Handing

namespace Drafting

variable {O : Outside} {t : Tables} {operations : List Operation} {d : Drafted}

theorem drafted_dated (h : drafted O t operations = .ok d) (ht : t.FromFirst) (hs : t.Sound)
    (hops : ∀ op ∈ operations, op.FromFirst) : ∀ c ∈ d.changes, c.Dated := by
  obtain ⟨left, outcomes, read, plain, hpasses⟩ := drafted_ok h
  have hran :=
    (hpasses.ran.invariant (I := fun d => ∀ id a, d.artifact id = some a → 1 ≤ a.revision)
    (P := Done.Dated)
    (fun id a ha => ht.artifact hs ha) fun op hop _ _ _ hd hacts =>
      ⟨(hacts.fromFirst hd (hops op (mem_byNumber hop))).1,
        hacts.dated hd (hops op (mem_byNumber hop))⟩).2
  have hsettles := versionedAll_ok hpasses.versioned
  rw [← List.forall₂_map_left_iff, lasts_map_fst] at hsettles
  intro c hc
  obtain ⟨c₀, hc₀, hsettle⟩ := forall₂_of_mem_right hsettles hc
  exact hsettle.dated (hran c₀ hc₀)

end Drafting

/-! ## What a set's entries say of what it writes -/

namespace Journal

open Drafting

variable {O : Outside} {t t' : Tables} {k : Nat}

theorem standing_iff (ht : t.Counted) (id : ArtifactId) :
    t.standing id = none ↔ t.revisionAt id = 0 := by
  rw [ht.revisionAt_eq_zero]
  unfold Tables.standing Tables.holds
  cases t.row? id with
  | none => simp
  | some r => simp

theorem standing_of_revisionAt {id : ArtifactId} (ht : t.Counted) (h : t.revisionAt id ≠ 0) :
    t.standing id = some (t.revisionAt id) := by
  unfold Tables.standing
  cases hrow : t.row? id with
  | none => exact absurd ((standing_iff ht id).mp (by unfold Tables.standing; rw [hrow]; rfl)) h
  | some r => simp [Tables.revisionAt, hrow]

/-- The entry of a change comes where the change is written, and says what then stands. -/
theorem next_wrote {c : Done} {g : Change} {e : Entry} {step : Nat} (ht : t.Counted)
    (hread : t.revisionAt g.artifact = g.read)
    (hkind : g.content.isSome = true → g.kind.isSome = true) (hs : Same c g) (hr : Records O c e)
    (hc : c.Dated) :
    next (t.standing g.artifact) e = some ((t.wrote k step g).standing g.artifact) := by
  have hleft : (t.wrote k step g).standing g.artifact = if c.left.isSome then some c.revision
      else none := by
    unfold Tables.standing
    rw [Tables.row?_wrote, if_pos rfl]
    have hcontent := hs.content
    cases hl : c.left with
    | none =>
        rw [hl] at hcontent
        simp [Tables.rowOf, hcontent]
    | some a =>
        rw [hl] at hcontent
        obtain ⟨kind, hkind⟩ := Option.isSome_iff_exists.mp (hkind (by rw [hcontent]; rfl))
        simp [Tables.rowOf, hcontent, hkind, hs.revision]
  rw [hleft]
  have hstood : c.revision = 1 → c.op ≠ .import_ → t.standing g.artifact = none := by
    intro hone hop
    rw [standing_iff ht, hread, hs.read (Or.inl hop), hone]
    rfl
  have hstands : 2 ≤ c.revision → (c.op ≠ .import_ ∨ c.left = none) →
      t.standing g.artifact = some (c.revision - 1) := by
    intro htwo hop
    have hat : t.revisionAt g.artifact = c.revision - 1 := hread.trans (hs.read hop)
    rw [standing_of_revisionAt ht (by omega), hat]
  unfold Done.Dated at hc
  have hrevision := hr.revision
  have hop := hr.op
  cases hcop : c.op with
  | create =>
      rw [hcop] at hc hop
      obtain ⟨hone, hl⟩ := hc
      rw [hstood hone (by rw [hcop]; nofun), hl, if_pos rfl]
      simp [next, hop, hrevision, hone]
  | write | append =>
      rw [hcop] at hc hop
      obtain ⟨htwo, hl⟩ := hc
      rw [hstands htwo (Or.inl (by rw [hcop]; nofun)), hl, if_pos rfl]
      simp [next, hop, hrevision]
  | delete =>
      rw [hcop] at hc hop
      obtain ⟨htwo, hl⟩ := hc
      rw [hstands htwo (Or.inl (by rw [hcop]; nofun)), hl, if_neg Bool.false_ne_true]
      simp [next, hop, hrevision, Op.str]
  | import_ =>
      rw [hcop] at hc hop
      obtain ⟨hone, hl⟩ := hc
      rw [hl, if_pos rfl]
      cases t.standing g.artifact with
      | none => simp [next, hop, hrevision, hone]
      | some n => simp [next, hop, hrevision, hone]

/-- The entries of a set that name an IRI are the lives of what stands there as the set is
written. -/
theorem lived_written {changes : List Done} {cs : List (Change × Nat)} {entries : List Entry}
    {id : ArtifactId} (h : Written k t cs t') (hsame : List.Forall₂ Same changes (cs.map Prod.fst))
    (hrecords : List.Forall₂ (Records O) changes entries) (hdated : ∀ c ∈ changes, c.Dated)
    (ht : t.Counted) :
    lived (t.standing id) (naming entries id) = some (t'.standing id) := by
  induction h generalizing changes entries with
  | nil =>
      cases hsame
      cases hrecords
      rfl
  | @cons t _ g step rest hread hable _ ih =>
      cases hsame with
      | @cons c _ changes _ hs hsame =>
          cases hrecords with
          | @cons _ e _ entries hr hrecords =>
              have hc := hdated c List.mem_cons_self
              have hcounted : (t.wrote k step g).Counted := by
                refine ht.wrote (fun _ => ?_) _ _
                rw [hs.revision]
                exact hc.counts
              have hrest :=
                ih hsame hrecords (fun c' hc' => hdated c' (List.mem_cons_of_mem _ hc')) hcounted
              have hnames : e.artifact = id.iri ↔ g.artifact = id := by
                rw [hr.artifact, hs.artifact]
                exact ⟨ArtifactId.ext', congrArg _⟩
              unfold naming
              rw [List.filter_cons]
              by_cases hid : g.artifact = id
              · rw [if_pos (decide_eq_true (hnames.mpr hid))]
                rw [← hid] at hrest ⊢
                show (next (t.standing g.artifact) e).bind _ = _
                rw [next_wrote ht hread hable.kinded hs hr hc]
                exact hrest
              · rw [if_neg fun h => hid (hnames.mp (of_decide_eq_true h))]
                have hsame : (t.wrote k step g).standing id = t.standing id := by
                  unfold Tables.standing
                  rw [Tables.row?_wrote, if_neg (Ne.symm hid)]
                rw [hsame] at hrest
                exact hrest

/-- Whether the history of an IRI is the lives of what stood there, to what the store holds. -/
def Lived (t : Tables) (id : ArtifactId) : Prop :=
  lived none (naming t.entries id) = some (t.standing id)

theorem Lived.append {id : ArtifactId} {entries : List Entry} (h : Lived t id)
    (hentries : t'.entries = t.entries ++ entries)
    (hnaming : lived (t.standing id) (naming entries id) = some (t'.standing id)) :
    Lived t' id := by
  unfold Lived
  rw [hentries, naming, List.filter_append, lived_append]
  rw [Lived, naming] at h
  rw [h]
  exact hnaming

theorem Lived.landed {operations : List Operation} {on minted : Tables} {moments : List Int}
    {signed : Signed} {d : Drafted} {entries : List Entry} {id : ArtifactId} (h : Lived t id)
    (ht : t.FromFirst) (hon : on.FromFirst) (hsound : on.Sound)
    (hops : ∀ op ∈ operations, op.FromFirst) (hd : Drafting.drafted O on operations = .ok d)
    (hentries : Write.entries O d moments signed minted = .ok entries)
    (hlands : Lands t d.handed entries t') : Lived t' id := by
  obtain ⟨left, outcomes, read, plain, hpasses⟩ := Drafting.drafted_ok hd
  obtain ⟨hrecords, _⟩ := Write.entries_ok hentries hpasses.texts
  refine h.append hlands.entries_eq ?_
  obtain ⟨left, hwritten, _, _, rfl⟩ := hlands.written
  have hsame : List.Forall₂ Same d.changes (d.handed.zipIdx.map Prod.fst) := by
    rw [List.zipIdx_map_fst]
    exact hpasses.same
  have hcounted : (opened t entries).Counted := ht.held
  have hnaming : lived ((opened t entries).standing id) (naming entries id) =
      some (left.standing id) :=
    lived_written hwritten hsame hrecords (Drafting.drafted_dated hd hon hsound hops) hcounted
  exact hnaming

/-- An entry that names no IRI is of no life. -/
theorem Lived.recorded {read : List Snapshotted} {signed : Signed} {moment : Int} {minted : Tables}
    {id : ArtifactId} (h : Lived t id)
    (hlands : Lands t [] ((Journal.minted minted [moment] []).map (Journal.snapshot signed read))
      t') : Lived t' id := by
  refine h.append hlands.entries_eq ?_
  have hnone :
      naming ((Journal.minted minted [moment] []).map (Journal.snapshot signed read)) id = [] := by
    refine List.filter_eq_nil_iff.mpr fun e he => ?_
    obtain rfl := List.mem_singleton.mp he
    simpa [Journal.snapshot] using iri_ne_nil id
  obtain ⟨left, hwritten, _, _, rfl⟩ := hlands.written
  rw [hnone]
  cases hwritten
  rfl

theorem Lived.started (h : Fresh O t) (id : ArtifactId) : Lived t id := by
  obtain ⟨role, execution, fingerprint, moment, _, hlands⟩ := h.landed
  have hempty : Lived {} id := rfl
  refine hempty.append hlands.entries_eq ?_
  have hstanding :
      t.standing id =
      (((lastTo id [Start.created O]).map fun c => (Tables.rowOf c).head?).getD none).map
      ArtifactRow.revision :=
    congrArg _ (row?_landed hlands id)
  rw [hstanding, lastTo]
  by_cases hid : Start.METASCHEMA_ID = id
  · subst hid
    rfl
  · have hiri : Start.METASCHEMA_ID.iri ≠ id.iri := fun e => hid (ArtifactId.ext' e)
    have hentry : naming [Start.entry role execution fingerprint moment] id = [] := by
      simp [naming, Start.entry, hiri]
    have hlast : (if (Start.created O).artifact = id then some (Start.created O) else none) =
      none := if_neg hid
    rw [hentry, hlast]
    rfl

end Journal

theorem Move.Makes.lived {O : Outside} {t t' : Tables} {past : List Tables} {move : Move}
    {id : ArtifactId} (h : Move.Makes O t past move t') (hmove : move.FromFirst O t past)
    (hpast : ∀ s ∈ t :: past, s.FromFirst) (hsound : ∀ s ∈ t :: past, s.Sound)
    (hlived : Journal.Lived t id) : Journal.Lived t' id := by
  have ht := hpast t List.mem_cons_self
  have hs := hsound t List.mem_cons_self
  cases h with
  | asDrafted hasked hon _ hd _ hlands =>
      obtain ⟨entries, hentries, hlanded⟩ := hlands
      exact hlived.landed ht (hpast _ hon) (hsound _ hon)
        (fun op hop => Operation.fromFirst_of_asked (hasked op hop)) hd hentries
        ((landed_iff ..).mp hlanded)
  | torn hasked hon _ _ hd _ hlands =>
      obtain ⟨entries, hentries, hlanded⟩ := hlands
      exact hlived.landed ht (hpast _ hon) (hsound _ hon)
        (fun op hop => Operation.fromFirst_of_asked (Move.unsaid_asked hasked op hop)) hd hentries
          ((landed_iff ..).mp hlanded)
  | underLock hasked hd hlands =>
      obtain ⟨entries, hentries, hlanded⟩ := hlands
      exact hlived.landed ht ht hs (fun op hop => Operation.fromFirst_of_asked (hasked op hop)) hd
        hentries ((landed_iff ..).mp hlanded)
  | imported h =>
      rcases Importing.imported_ok h with h | ⟨operations, d, _, entries, hbrings, _, hd,
        hentries, hlanded⟩
      · cases h
        exact hlived
      · exact hlived.landed ht ht hs (hmove operations hbrings) hd hentries
          ((landed_iff ..).mp hlanded)
  | recorded _ _ _ h => exact hlived.recorded ((landed_iff ..).mp h)

/-- In every store of a run whose imports land no file at a revision below 1, the entries naming an
IRI, in the order they landed, are the lives of what stood there: each comes where it could, a
create only where nothing stood, a replacement, an addition or a removal only where something stood
and one revision above it; and what stands after the last is what the store holds, at the revision
it holds it at. -/
theorem lives_gapless {O : Outside} {states : List Tables}
    (h : RunWhere O (Move.FromFirst O) states) :
    ∀ t ∈ states, ∀ id, Journal.lived none
      (Journal.naming t.entries id) = some (t.standing id) := by
  have hfirst := Counting.fromFirst h
  intro t ht id
  refine History.Run.invariant (I := fun t => t.FromFirst ∧ Journal.Lived t id)
    (fun s hs => ⟨hs.fromFirst, Journal.Lived.started hs id⟩) ?_ h t ht |>.2
  intro t past t' hrun hpast ⟨move, hallowed, hmove⟩
  have hheld : ∀ s ∈ t :: past, s.FromFirst := fun s hs => (hpast s hs).1
  have hsound : ∀ s ∈ t :: past, s.Sound := (RunWhere.run hrun).sound
  exact ⟨hmove.fromFirst hallowed hheld hsound,
    hmove.lived hallowed hheld hsound (hpast t List.mem_cons_self).2⟩

namespace Lives

open Sample Journal.Noted

/-- A note created, taken out, and created again. -/
def again : List (List Operation) := [creating] :: [removing] :: created

end Lives

open Sample Journal.Noted Lives in
/-- A note that lives twice: its entries, and the life that lasts. -/
theorem lives_gapless_again :
    (Journal.naming (store again).entries note).map Entry.op = ["create", "delete", "create"] ∧
    Journal.lived none (Journal.naming (store again).entries note) = some (some 1) := by
  obtain ⟨hran, hseen, hops, hstands⟩ : (ran again).isSome = true ∧ (stores again).isEmpty = false ∧
      (Journal.naming (store again).entries note).map Entry.op = ["create", "delete", "create"] ∧
      (store again).standing note = some 1 := by
    decide +kernel
  have hrun : RunWhere outside (Move.FromFirst outside) (stores again) :=
    stores_where (by decide) (fun _ _ _ _ _ => trivial) hran
  refine ⟨hops, ?_⟩
  rw [lives_gapless hrun _ (store_mem hseen) note, hstands]

end Kb
