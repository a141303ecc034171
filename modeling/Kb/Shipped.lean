/-
# `Kb.Shipped` — the type of types, as a new store holds it

Nothing on the change path treats `names.TYPES` apart: it is removed, as any other artifact is, by a
set that leaves nothing in its way, and in a new store nothing is.  Everything else keeps it.  A
replacement leaves a type, since an artifact moves only to versions of its own type, and makes a
version beside those kept; no create takes an IRI held; and an import passes the type of types
over.  So in every run no set of which removes it, the type of types is held and its first version
is kept as the store was started with it.
-/
import Kb.Revisions
import Kb.Holding
import Kb.Export

namespace Kb

open Landing Raising

namespace Start

/-- The row of the version a store is started with. -/
def METASCHEMA_ROW : TypeVersionRow :=
  ⟨METASCHEMA_VERSION.str, METASCHEMA_ID, "1", 1, "Schema", METASCHEMA⟩

end Start

open Start

/-- A store holds the type of types, and keeps its first version as it was started with it. -/
structure Tables.Shipped (t : Tables) : Prop where
  held : ∃ a, t.artifact METASCHEMA_ID = some a ∧ a.kind = TYPE_KIND
  kept : t.typeVersionRow? METASCHEMA_VERSION.str = some METASCHEMA_ROW

/-- A draft holds the type of types. -/
structure Draft.Shipped (d : Draft) : Prop where
  holds : d.holds METASCHEMA_ID = true
  kind : ∀ a, d.artifact METASCHEMA_ID = some a → a.kind = TYPE_KIND

/-- Whether an operation leaves the type of types to stand. -/
def Operation.Sparing : Operation → Prop
  | .remove locator _ => locator.id ≠ METASCHEMA_ID
  | .import_ id _ => id ≠ METASCHEMA_ID
  | _ => True

/-- Whether a move removes no type of types. -/
def Move.Sparing (_t : Tables) (_past : List Tables) : Move → Prop
  | .asDrafted operations _ _ _ _ => ∀ op ∈ operations, ¬ Drafting.takesOut op METASCHEMA_ID
  | .torn operations _ _ _ _ => ∀ p ∈ operations, ¬ Drafting.takesOut p.1 METASCHEMA_ID
  | .underLock operations _ _ => ∀ op ∈ operations, ¬ Drafting.takesOut op METASCHEMA_ID
  | _ => True

/-! ## The draft of a set -/

theorem Draft.Shipped.put {d : Draft} (h : d.Shipped) {id : ArtifactId} {a : Artifact}
    (ha : id = METASCHEMA_ID → a.kind = TYPE_KIND) : (d.put id a).Shipped where
  holds := by
    rw [Draft.put_holds]
    split
    · rfl
    · exact h.holds
  kind := by
    intro b hb
    rw [Draft.put_artifact] at hb
    split at hb
    · next hid =>
        cases hb
        exact ha hid.symm
    · exact h.kind b hb

theorem Draft.Shipped.counting {d : Draft} (h : d.Shipped) (numbers : List (ArtifactId × Scalar)) :
    (d.counting numbers).Shipped :=
  ⟨h.holds, h.kind⟩

namespace Edits

variable {O : Outside}

/-- No operation that spares the type of types leaves it anything but a type. -/
theorem Acts.shipped {d d' : Draft} {op : Operation} {c : Done} (h : Acts O d op d' c)
    (hd : d.Shipped) (hop : op.Sparing) :
    d'.Shipped ∧ (c.artifact = METASCHEMA_ID → ∃ a, c.left = some a ∧ a.kind = TYPE_KIND) := by
  cases h with
  | @removed locator _ _ _ _ =>
      have hne : locator.id ≠ METASCHEMA_ID := hop
      refine ⟨⟨?_, hd.kind⟩, fun e => absurd e hne⟩
      rw [Draft.remove_holds, if_neg hne.symm]
      exact hd.holds
  | @created name _ _ _ _ _ _ _ _ _ _ _ _ hc _ =>
      obtain ⟨d₁, hnumbers, hdraft⟩ := hc.numbered
      obtain ⟨numbers, rfl⟩ := hnumbers.counting
      have hne : name ≠ METASCHEMA_ID := by
        intro e
        have hfree := hc.free
        rw [e, hd.holds] at hfree
        cases hfree
      rw [hdraft]
      exact ⟨(hd.counting numbers).put fun e => absurd e hne, fun e => absurd e hne⟩
  | @replaced locator _ _ _ _ _ now _ a _ _ _ _ _ hr _
  | @added locator _ _ _ _ now _ a _ _ _ _ _ hr _ =>
      obtain ⟨d₁, hnumbers, hdraft⟩ := hr.numbered
      obtain ⟨numbers, rfl⟩ := hnumbers.counting
      obtain ⟨schema, whole, _, _, _, ha⟩ := hr.items
      obtain ⟨content, rfl⟩ := Settled.order_ok ha
      have hkind : locator.id = METASCHEMA_ID → now.kind = TYPE_KIND :=
        fun e => hd.kind now (e ▸ hr.stands)
      have hmoves := hr.moves_kind
      rw [hdraft]
      refine ⟨(hd.counting numbers).put fun e => hmoves.trans (hkind e),
        fun e => ⟨_, rfl, hmoves.trans (hkind e)⟩⟩
  | imported hb _ hdraft _ =>
      have hne : _ ≠ METASCHEMA_ID := hop
      rw [hdraft]
      exact ⟨hd.put fun e => absurd e hne, fun e => absurd e hne⟩

end Edits

namespace Drafting

variable {O : Outside} {t : Tables} {operations : List Operation} {d : Drafted}

/-- A set that spares the type of types, drafted where it is held, hands no change to it but one
that leaves it a type. -/
theorem drafted_shipped (h : drafted O t operations = .ok d) (ht : t.Shipped)
    (hops : ∀ op ∈ operations, op.Sparing) :
    ∀ c ∈ d.handed, c.artifact = METASCHEMA_ID → ∃ a, c.content = some a ∧ a.kind = TYPE_KIND := by
  obtain ⟨left, outcomes, read, plain, hpasses⟩ := drafted_ok h
  have hstart : ({ store := t } : Draft).Shipped := by
    obtain ⟨a, ha, hkind⟩ := ht.held
    have hholds : t.holds METASCHEMA_ID = true := by
      rw [← Tables.artifact_isSome, ha]
      rfl
    refine ⟨hholds, fun b hb => ?_⟩
    cases ha.symm.trans hb
    exact hkind
  have hran := hpasses.ran.invariant (I := Draft.Shipped)
    (P := fun c => c.artifact = METASCHEMA_ID → ∃ a, c.left = some a ∧ a.kind = TYPE_KIND) hstart
    fun op hop _ _ _ hd hacts => hacts.shipped hd (hops op (mem_byNumber hop))
  intro c hc hid
  obtain ⟨done, hdone, hcarries⟩ := forall₂_of_mem_right hpasses.carries hc
  obtain ⟨a, hleft, hkind⟩ := hran.2 done hdone (hcarries.artifact.symm.trans hid)
  obtain ⟨type, content, hcontent, htype⟩ := hcarries.left a hleft
  exact ⟨_, hcontent, htype.trans hkind⟩

end Drafting

/-! ## Landings that spare it -/

namespace Landing

theorem Written.shipped {landed : Nat} {t t' : Tables} {cs : List (Change × Nat)}
    (h : Written landed t cs t') (ht : t.Shipped) (hcs : ∀ p ∈ cs, p.1.artifact = METASCHEMA_ID →
      ∃ a, p.1.content = some a ∧ a.kind = TYPE_KIND) : t'.Shipped := by
  induction h with
  | nil => exact ht
  | @cons t _ c step rest _ hable _ ih =>
      have hc : c.artifact = METASCHEMA_ID → ∃ a, c.content = some a ∧ a.kind = TYPE_KIND :=
        hcs _ List.mem_cons_self
      refine ih ⟨?_, ?_⟩ fun p hp => hcs p (List.mem_cons_of_mem _ hp)
      · unfold Tables.artifact
        rw [Tables.row?_wrote]
        split
        · next hid =>
            obtain ⟨a, hcontent, hkind⟩ := hc hid.symm
            obtain ⟨kind, hk⟩ := Option.isSome_iff_exists.mp (hable.kinded (by rw [hcontent]; rfl))
            exact ⟨a, by simp [Tables.rowOf, hcontent, hk], hkind⟩
        · exact ht.held
      · refine Tables.typeVersionRow?_wrote ht.kept _ _ fun hnone hid => ?_
        obtain ⟨a, hcontent, _⟩ := hc hid.symm
        rw [hnone] at hcontent
        cases hcontent

theorem Lands.shipped {t t' : Tables} {changes : List Change} {entries : List Entry}
    (h : Lands t changes entries t') (ht : t.Shipped)
    (hcs : ∀ c ∈ changes, c.artifact = METASCHEMA_ID → ∃ a, c.content = some a ∧
      a.kind = TYPE_KIND) :
    t'.Shipped := by
  obtain ⟨left, hwritten, _, _, rfl⟩ := h.written
  have hleft := hwritten.shipped (t := opened t entries) ⟨ht.held, ht.kept⟩ fun p hp =>
    hcs p.1 (List.fst_mem_of_mem_zipIdx hp)
  exact ⟨hleft.held, hleft.kept⟩

end Landing

theorem Fresh.shipped {O : Outside} {t : Tables} (h : Fresh O t) :
    t.Shipped ∧ t.artifact METASCHEMA_ID = some METASCHEMA := by
  obtain ⟨_, _, _, _, _, hlands⟩ := h.landed
  obtain ⟨left, hwritten, _, _, rfl⟩ := hlands.written
  cases hwritten with
  | cons _ _ hwritten =>
      cases hwritten
      exact ⟨⟨⟨METASCHEMA, rfl, rfl⟩, rfl⟩, rfl⟩

theorem Operation.sparing_of_asked {op : Operation} (h : op.asked)
    (hout : ¬ Drafting.takesOut op METASCHEMA_ID) : op.Sparing := by
  cases op with
  | remove locator expected => exact fun e => hout ⟨_, _, rfl, e⟩
  | import_ id a => cases h
  | _ => trivial

theorem Operation.sparing_unsaid {op : Operation} (h : op.Sparing) : op.unsaid.Sparing := by
  cases op with
  | remove locator expected => exact h
  | import_ id a => exact h
  | _ => trivial

theorem Move.Makes.shipped {O : Outside} {t t' : Tables} {past : List Tables} {move : Move}
    (h : Move.Makes O t past move t') (hmove : move.Sparing t past)
    (hpast : ∀ s ∈ t :: past, s.Shipped) : t'.Shipped := by
  have ht := hpast t List.mem_cons_self
  cases h with
  | asDrafted hasked hon _ hd _ hlands =>
      obtain ⟨entries, _, hlanded⟩ := hlands
      exact ((landed_iff ..).mp hlanded).shipped ht (Drafting.drafted_shipped hd (hpast _ hon)
        fun op hop => Operation.sparing_of_asked (hasked op hop) (hmove op hop))
  | torn hasked hon _ _ hd _ hlands =>
      obtain ⟨entries, _, hlanded⟩ := hlands
      refine ((landed_iff ..).mp hlanded).shipped ht
        (Drafting.drafted_shipped hd (hpast _ hon) fun op hop => ?_)
      obtain ⟨p, hp, rfl⟩ := List.mem_map.mp hop
      exact Operation.sparing_unsaid (Operation.sparing_of_asked (hasked p hp).1 (hmove p hp))
  | underLock hasked hd hlands =>
      obtain ⟨entries, _, hlanded⟩ := hlands
      exact ((landed_iff ..).mp hlanded).shipped ht (Drafting.drafted_shipped hd ht
        fun op hop => Operation.sparing_of_asked (hasked op hop) (hmove op hop))
  | imported h =>
      rcases Importing.imported_ok h with h | ⟨operations, d, _, entries, _, hops, hd, _, hlanded⟩
      · cases h
        exact ht
      · refine ((landed_iff ..).mp hlanded).shipped ht
          (Drafting.drafted_shipped hd ht fun op hop => ?_)
        obtain ⟨name, a, rfl, hbrought⟩ := hops op hop
        exact hbrought.other
  | recorded _ _ _ h => exact ((landed_iff ..).mp h).shipped ht nofun

namespace Shipped

variable {O : Outside}

theorem shipped {states : List Tables} (h : RunWhere O Move.Sparing states) :
    ∀ t ∈ states, t.Shipped :=
  History.Run.invariant (fun _ hs => hs.shipped.1) (fun _ _ _ _ hpast ⟨_, hallowed, hmove⟩ =>
    hmove.shipped hallowed hpast) h

/-! ## What is made of the version kept -/

open Kb.Composition

/-- What the type of types declares, built on nothing. -/
def declares : Declared :=
  { properties :=
    ((METASCHEMA_SCHEMA.get "properties" (.map [])).bind Value.pairs).toOption.getD [] }

theorem declared_metaschema {corpus : Corpus} (hdepth : 0 < O.depth) :
    declared O corpus METASCHEMA_SCHEMA = .ok declares := by
  obtain ⟨depth, hdepth⟩ := Nat.exists_eq_succ_of_ne_zero hdepth.ne'
  unfold declared
  rw [hdepth]
  rfl

theorem order_metaschema : Settled.order METASCHEMA declares = .ok METASCHEMA := by decide +kernel

variable {t : Tables}

theorem kept_version (ht : t.Shipped) :
    t.corpus.typeVersion METASCHEMA_ID (.int 1) = some ⟨METASCHEMA, 1, "Schema"⟩ := by
  show (t.typeVersionRow? METASCHEMA_VERSION.str).map _ = _
  rw [ht.kept]
  rfl

/-- What reads the version kept and finds a type held, checks by the version. -/
theorem versionSchema_metaschema {corpus : Corpus}
    (hheld : ∃ a, corpus.artifact METASCHEMA_ID = some a ∧ a.kind = TYPE_KIND)
    (hversion : corpus.typeVersion METASCHEMA_ID (.int 1) = some ⟨METASCHEMA, 1, "Schema"⟩) :
    versionSchema corpus METASCHEMA_VERSION = .ok METASCHEMA := by
  obtain ⟨a, ha, hkind⟩ := hheld
  have htyped : corpus.typedAt METASCHEMA_ID = true := by
    unfold Corpus.typedAt
    rw [ha]
    exact decide_eq_true hkind
  have hkept : kept corpus (typeOf METASCHEMA_VERSION.kind) METASCHEMA_VERSION.number =
      some ⟨METASCHEMA, 1, "Schema"⟩ := by
    show (if corpus.typedAt METASCHEMA_ID then corpus.typeVersion METASCHEMA_ID (.int 1)
      else none) = _
    rw [if_pos htyped, hversion]
  unfold versionSchema
  rw [hkept]

/-- A draft of nothing yet reads the type of types as its store does. -/
theorem versionSchema_draft (ht : t.Shipped) :
    versionSchema ({ store := t } : Draft).corpus METASCHEMA_VERSION = .ok METASCHEMA := by
  obtain ⟨a, ha, hkind⟩ := ht.held
  refine versionSchema_metaschema ⟨a, ?_, hkind⟩ (kept_version ht)
  have hholds : ({ store := t } : Draft).holds METASCHEMA_ID = true := by
    show t.holds METASCHEMA_ID = true
    rw [← Tables.artifact_isSome, ha]
    rfl
  show (if ({ store := t } : Draft).holds METASCHEMA_ID then t.artifact METASCHEMA_ID
    else none) = some a
  rw [if_pos hholds, ha]

/-- The copy an export writes of the version kept: at its place, the text of the type of types as a
store is started with it. -/
theorem exported (ht : t.Shipped) {file : File}
    (h : Export.versionFile O t METASCHEMA_ID (.int 1) = .ok file) :
    file.steps = Names.place METASCHEMA_ID.iri (some "1") ∧ ∃ text,
      O.dump METASCHEMA.whole = .ok text ∧ file.text = .ok text := by
  have hfiled : Export.filed O t (Names.place METASCHEMA_ID.iri (some "1")) METASCHEMA =
      .ok file := by
    unfold Export.versionFile at h
    rw [kept_version ht] at h
    exact h
  obtain ⟨a, ha, hfile⟩ := bind_ok.mp hfiled
  obtain ⟨found, hversion, ha⟩ := bind_ok.mp ha
  obtain ⟨schema, hschema, ha⟩ := bind_ok.mp ha
  obtain ⟨whole, hwhole, ha⟩ := bind_ok.mp ha
  have hheld : ∃ a, t.corpus.artifact METASCHEMA_ID = some a ∧ a.kind = TYPE_KIND := ht.held
  cases (versionSchema_metaschema hheld (kept_version ht)).symm.trans hversion
  cases hschema
  have hdepth : 0 < O.depth := by
    rw [Nat.pos_iff_ne_zero]
    intro hzero
    unfold declared at hwhole
    rw [hzero] at hwhole
    cases hwhole
  cases (declared_metaschema hdepth).symm.trans hwhole
  cases order_metaschema.symm.trans ha
  cases hdump : O.dump METASCHEMA.whole with
  | error e =>
      rw [hdump] at hfile
      cases hfile
  | ok text =>
      rw [hdump] at hfile
      cases hfile
      exact ⟨rfl, text, rfl, rfl⟩

/-- A file of the text of the type of types, at its place, is read as it. -/
theorem read_metaschema {file : File} {text : String}
    (hsteps : file.steps = Names.place METASCHEMA_ID.iri (some "1")) (htext : file.text = .ok text)
    (hload : O.load text = .ok (.map METASCHEMA.whole)) :
    Offers.read O file =
      { file := Names.placed file.steps, name := some (.version METASCHEMA_VERSION), text,
        artifact := some METASCHEMA } := by
  have hfiled : Offers.filed file.steps = some (.version METASCHEMA_VERSION) := by
    rw [hsteps]
    decide +kernel
  have hidentified : Offers.identified (.map METASCHEMA.whole) = some METASCHEMA := by
    decide +kernel
  have hplaced : Offers.placed (some (.version METASCHEMA_VERSION)) (.map METASCHEMA.whole) =
      .ok METASCHEMA := by
    unfold Offers.placed
    rw [hidentified]
    rfl
  unfold Offers.read
  rw [htext, hfiled]
  simp only [hload, hplaced]

/-- The check of a directory finds nothing wrong with that copy, in any store that stands as it was
started. -/
theorem faults_metaschema {other : Tables} (hother : other.artifact METASCHEMA_ID = some METASCHEMA)
    {file : File} {text : String} (hsteps : file.steps = Names.place METASCHEMA_ID.iri (some "1"))
    (hdump : O.dump METASCHEMA.whole = .ok text) (htext : file.text = .ok text)
    (hload : O.load text = .ok (.map METASCHEMA.whole)) (d : Draft) (offered : List Offered)
    (found : List (Name × Artifact × List Fault)) (placed : List (ArtifactId × List Fault)) :
    Importing.faults O other d offered found placed (Offers.read O file) = .ok [] := by
  rw [read_metaschema hsteps htext hload]
  unfold Importing.faults
  simp only
  rw [if_pos (show (Name.version METASCHEMA_VERSION).id = Skipping.METASCHEMA_ID from rfl)]
  have hother' : other.artifact Skipping.METASCHEMA_ID = some METASCHEMA := hother
  simp only [hother', hdump, if_true]

end Shipped

end Kb
