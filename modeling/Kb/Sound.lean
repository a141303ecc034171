/-
# `Kb.Sound` — what every store of a run has, whoever moved it

A row of an artifact says what its content says: the same IRI, revision and kind; and no row of a
change is of a set numbered past the last.  Both hold of a new store and are kept by every landing
whose changes say what their content says, as the changes of every drafted set do.
-/
import Kb.Run

namespace Kb

open Raising

/-- A row says what its content says, and every set's number was given. -/
structure Tables.Sound (t : Tables) : Prop where
  rows : ∀ r ∈ t.artifacts, r.content.id = r.id ∧ r.content.revision = r.revision ∧
    r.content.kind = r.kind
  sets : ∀ r ∈ t.versions, r.landed ≤ t.lastSet

/-- A change says what its content says. -/
def Change.Sound (c : Change) : Prop :=
  ∀ a, c.content = some a → a.id = c.artifact ∧ a.revision = c.revision ∧ c.kind = some a.kind

namespace Tables

theorem mem_of_row? {t : Tables} {id : ArtifactId} {r : ArtifactRow} (h : t.row? id = some r) :
    r ∈ t.artifacts ∧ r.id = id :=
  ⟨List.mem_of_find?_eq_some h, by simpa using List.find?_some h⟩

/-- What a sound store answers for an IRI: the artifact of the IRI, at the revision its row stands
at. -/
theorem Sound.artifact {t : Tables} (h : t.Sound) {id : ArtifactId} {a : Artifact}
    (ha : t.artifact id = some a) :
    a.id = id ∧ t.revisionAt id = a.revision ∧ t.holds id = true ∧ ∃ r, t.row? id = some r ∧
      r.content = a ∧ r.kind = a.kind := by
  unfold Tables.artifact at ha
  obtain ⟨r, hr, rfl⟩ := Option.map_eq_some_iff.mp ha
  obtain ⟨hmem, hid⟩ := mem_of_row? hr
  obtain ⟨hid', hrev, hkind⟩ := h.rows r hmem
  refine ⟨hid'.trans hid, ?_, ?_, r, hr, rfl, hkind.symm⟩
  · simp [revisionAt, hr, hrev]
  · simp [holds, hr]

theorem artifact_isSome (t : Tables) (id : ArtifactId) : (t.artifact id).isSome = t.holds id := by
  simp [artifact, holds]

theorem Sound.wrote {t : Tables} (h : t.Sound) {c : Change} (hc : c.Sound) {landed : Nat}
    (hn : landed ≤ t.lastSet) (step : Nat) :
    (t.wrote landed step c).Sound where
  rows := by
    intro r hr
    rcases List.mem_append.mp hr with hr | hr
    · exact h.rows r (List.mem_filter.mp hr).1
    · obtain ⟨a, kind, ha, hk, rfl⟩ := (mem_rowOf c).mp hr
      obtain ⟨hid, hrev, hkind⟩ := hc a ha
      exact ⟨hid, hrev, Option.some.inj (hkind.symm.trans hk)⟩
  sets := by
    intro r hr
    rcases List.mem_append.mp hr with hr | hr
    · exact h.sets r hr
    · rw [List.mem_singleton.mp hr]
      exact hn

end Tables

namespace Landing

theorem Written.sound {landed : Nat} {t t' : Tables} {cs : List (Change × Nat)}
    (h : Written landed t cs t') (ht : t.Sound) (hn : landed ≤ t.lastSet)
    (hcs : ∀ p ∈ cs, p.1.Sound) : t'.Sound := by
  induction h with
  | nil => exact ht
  | cons _ _ _ ih =>
      exact ih (ht.wrote (hcs _ List.mem_cons_self) hn _) hn fun p hp =>
        hcs p (List.mem_cons_of_mem _ hp)

theorem Lands.sound {t t' : Tables} {changes : List Change} {entries : List Entry}
    (h : Lands t changes entries t') (ht : t.Sound) (hcs : ∀ c ∈ changes, c.Sound) : t'.Sound := by
  obtain ⟨left, hwritten, _, _, rfl⟩ := h.written
  have hopened : (opened t entries).Sound := ⟨ht.rows, fun r hr => Nat.le_succ_of_le (ht.sets r hr)⟩
  have hleft := hwritten.sound hopened (Nat.le_refl _) fun p hp =>
    hcs _ (List.fst_mem_of_mem_zipIdx hp)
  exact ⟨hleft.rows, hleft.sets⟩

end Landing

/-! ## The changes of a drafted set -/

/-- What a draft answers for an IRI is that IRI's. -/
def Draft.Named (d : Draft) : Prop := ∀ id a, d.artifact id = some a → a.id = id

theorem Draft.Named.counting {d : Draft} (h : d.Named) (numbers : List (ArtifactId × Scalar)) :
    (d.counting numbers).Named := h

theorem Draft.Named.put {d : Draft} (h : d.Named) {id : ArtifactId} {a : Artifact}
    (ha : a.id = id) : (d.put id a).Named := by
  intro x b hb
  rw [Draft.put_artifact] at hb
  split at hb
  · next hx =>
      cases hb
      rw [ha, hx]
  · exact h x b hb

/-- Whether what an operation brings is the artifact of the IRI it is for. -/
def Operation.named : Operation → Prop
  | .import_ id a => a.id = id
  | _ => True

namespace Edits

theorem Acts.named {O : Outside} {d d' : Draft} {op : Operation} {c : Done} (h : Acts O d op d' c)
    (hd : d.Named) (hop : op.named) :
    d'.Named ∧ ∀ a, c.left = some a → a.id = c.artifact ∧ a.revision = c.revision := by
  cases h with
  | removed _ _ => exact ⟨hd, nofun⟩
  | created hc _ =>
      obtain ⟨d₁, hnumbers, hput⟩ := hc.numbered
      obtain ⟨numbers, rfl⟩ := hnumbers.counting
      obtain ⟨schema, whole, _, _, _, ha⟩ := hc.items
      obtain ⟨content, rfl⟩ := Settled.order_ok ha
      rw [hput]
      refine ⟨(hd.counting numbers).put rfl, ?_⟩
      rintro _ ⟨⟩
      exact ⟨rfl, rfl⟩
  | replaced _ hr _ | added _ hr _ =>
      obtain ⟨d₁, hnumbers, hput⟩ := hr.numbered
      obtain ⟨numbers, rfl⟩ := hnumbers.counting
      obtain ⟨schema, whole, _, _, _, ha⟩ := hr.items
      obtain ⟨content, rfl⟩ := Settled.order_ok ha
      have hid := hd _ _ hr.stands
      rw [hput]
      refine ⟨(hd.counting numbers).put hid, ?_⟩
      rintro _ ⟨⟩
      exact ⟨hid, rfl⟩
  | imported hb _ hput _ =>
      obtain ⟨content, rfl⟩ := imported_ok hb
      have hid : _ = _ := hop
      rw [hput]
      refine ⟨hd.put hid, ?_⟩
      rintro _ ⟨⟩
      exact ⟨hid, rfl⟩

end Edits

namespace Drafting

theorem mem_byNumber {operations : List Operation} {op : Operation} (h : op ∈ byNumber operations) :
    op ∈ operations := by
  have hfrom : ∀ (rest : List Operation) (seen : List ArtifactId), (∀ op ∈ rest, op ∈ operations) →
      op ∈ byNumberFrom operations rest seen → op ∈ operations := by
    intro rest
    induction rest with
    | nil => exact fun _ _ h => nomatch h
    | cons o rest ih =>
        intro seen hrest h
        have hrest' : ∀ op ∈ rest, op ∈ operations :=
          fun op hop => hrest op (List.mem_cons_of_mem _ hop)
        unfold byNumberFrom at h
        split at h
        · rcases List.mem_cons.mp h with rfl | h
          · exact hrest _ List.mem_cons_self
          · exact ih _ hrest' h
        · next id _ _ =>
            rcases List.mem_cons.mp h with h | h
            · cases hat : (ofOne operations id)[seen.count id]? with
              | none =>
                  rw [hat] at h
                  exact h ▸ hrest _ List.mem_cons_self
              | some o' =>
                  rw [hat] at h
                  have hmem := List.mem_of_getElem? hat
                  rw [ofOne, List.mem_insertionSort] at hmem
                  exact h ▸ (List.mem_filter.mp hmem).1
            · exact ih _ hrest' h
  exact hfrom operations [] (fun _ h => h) h

/-- A client's operations are taken in the order it gave them. -/
theorem byNumber_asked {operations : List Operation} (h : ∀ op ∈ operations, op.asked) :
    byNumber operations = operations := by
  have hfrom : ∀ (rest : List Operation) (seen : List ArtifactId), (∀ op ∈ rest, op.asked) →
      byNumberFrom operations rest seen = rest := by
    intro rest
    induction rest with
    | nil => exact fun _ _ => rfl
    | cons o rest ih =>
        intro seen hrest
        have hnone : numberOf o = none := by
          have := hrest o List.mem_cons_self
          cases o with
          | import_ id a => nomatch this
          | _ => rfl
        rw [byNumberFrom, hnone]
        exact congrArg _ (ih _ fun op hop => hrest op (List.mem_cons_of_mem _ hop))
  exact hfrom operations [] h

/-- The changes of a set drafted on a sound store say what their content says. -/
theorem drafted_sound {O : Outside} {t : Tables} {operations : List Operation} {d : Drafted}
    (h : drafted O t operations = .ok d) (ht : t.Sound) (hops : ∀ op ∈ operations, op.named) :
    ∀ c ∈ d.handed, c.Sound := by
  obtain ⟨left, outcomes, read, plain, hpasses⟩ := drafted_ok h
  have hstart : ({ store := t } : Draft).Named := fun id a ha => (ht.artifact ha).1
  have hran := hpasses.ran.invariant (P := fun c => ∀ a, c.left = some a → a.id = c.artifact ∧
    a.revision = c.revision)
    hstart fun op hop d d₁ c hd hacts => hacts.named hd (hops op (mem_byNumber hop))
  intro c hc a ha
  obtain ⟨done, hdone, hcarries⟩ := forall₂_of_mem_right hpasses.carries hc
  rcases hleft : done.left with _ | b
  · rw [hcarries.gone.mpr hleft] at ha
    nomatch ha
  · obtain ⟨type, content, hcontent, _⟩ := hcarries.left b hleft
    rw [hcontent] at ha
    cases ha
    obtain ⟨hid, hrev⟩ := hran.2 done hdone b hleft
    exact ⟨hid.trans hcarries.artifact.symm, hrev.trans hcarries.revision.symm, by
      rw [hcarries.kind, hcontent]; rfl⟩

end Drafting

/-! ## Over a run -/

theorem Operation.named_of_asked {op : Operation} (h : op.asked) : op.named := by
  cases op with
  | import_ id a => nomatch h
  | _ => trivial

theorem Brought.named {O : Outside} {t : Tables} {name : Name} {a : Artifact}
    (h : Brought O t name a) :
    (Operation.import_ name.id a).named := h.id

theorem Start.created_sound (O : Outside) : ∀ c ∈ [Start.created O], c.Sound := by
  intro c hc a ha
  rw [List.mem_singleton.mp hc] at ha ⊢
  cases ha
  exact ⟨rfl, rfl, rfl⟩

theorem Fresh.sound {O : Outside} {t : Tables} (h : Fresh O t) : t.Sound := by
  obtain ⟨_, _, _, _, _, hlands⟩ := h.landed
  exact hlands.sound ⟨nofun, nofun⟩ (Start.created_sound O)

/-- A move that lands anything lands what a set is handed as, each change saying what its content
says; a snapshot lands no change. -/
theorem Move.Comes.handed {O : Outside} {t t' : Tables} {past : List Tables}
    (h : Move.Comes O t past t') (hpast : ∀ s ∈ t :: past, s.Sound) :
    t' = t ∨ ∃ changes entries, Landing.Lands t changes entries t' ∧ (∀ c ∈ changes, c.Sound) ∧
      (changes = [] ∨ ∃ on operations d, Drafting.drafted O on operations = .ok d ∧
        changes = d.handed) := by
  cases h with
  | idle => exact Or.inl rfl
  | recorded _ h => exact Or.inr ⟨[], _, h, nofun, Or.inl rfl⟩
  | asked hasked hon _ hd _ hlands =>
      exact Or.inr ⟨_, _, hlands, Drafting.drafted_sound hd (hpast _ hon) fun op hop =>
        Operation.named_of_asked (hasked op hop), Or.inr ⟨_, _, _, hd, rfl⟩⟩
  | brought hops hd _ hlands =>
      refine Or.inr ⟨_, _, hlands, Drafting.drafted_sound hd (hpast t List.mem_cons_self)
        fun op hop => ?_, Or.inr ⟨_, _, _, hd, rfl⟩⟩
      obtain ⟨name, a, rfl, hbrought⟩ := hops op hop
      exact hbrought.named

theorem Move.Comes.sound {O : Outside} {t t' : Tables} {past : List Tables}
    (h : Move.Comes O t past t') (hpast : ∀ s ∈ t :: past, s.Sound) : t'.Sound := by
  have ht := hpast t List.mem_cons_self
  rcases h.handed hpast with rfl | ⟨_, _, hlands, hsound, _⟩
  · exact ht
  · exact hlands.sound ht hsound

/-- Every store of a run says of its rows what their content says. -/
theorem Run.sound {O : Outside} {states : List Tables} (h : Run O states) : ∀ t ∈ states, t.Sound :=
  History.Run.invariant (fun _ hs => hs.sound) (fun _ _ _ _ hpast ⟨_, _, hmove⟩ =>
    hmove.comes.sound hpast) h

end Kb
