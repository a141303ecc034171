/-
# `Kb.Landed` — what a landing leaves, table by table

The statements of `Kb.Landing` read as one change of the tables: what a change written leaves
(`wrote`), the changes written one after another (`Written`), and what a landing that ends says of
the store it found, of each store on the way and of the store it leaves (`Lands`).  Everything
proved of a landing is proved from `landed_iff`.
-/
import Kb.Landing
import Kb.Lib.Raising

namespace Kb

open Landing Raising

namespace Tables

/-- The row of an artifact a change leaves. -/
def rowOf (c : Change) : List ArtifactRow :=
  match c.content, c.kind with
  | some a, some kind => [⟨c.artifact, kind, c.revision, a⟩]
  | _, _ => []

def partRows (c : Change) : List (ArtifactId × String) :=
  if c.content.isNone then [] else (Settled.once c.parts).map fun place => (c.artifact, place)

def linkRows (c : Change) : List LinkRow :=
  if c.content.isNone then [] else c.links.zipIdx.map fun (l, ordinal) =>
    ⟨c.artifact, ordinal, l.field.column.getD "", l.place, l.target, l.part, l.implicit, l.holder⟩

/-- The row of the version a change to a type makes. -/
def typeVersionRows (c : Change) : List TypeVersionRow :=
  match c.content, c.version with
  | some a, some v => [⟨v.label, c.artifact, v.number, c.revision, v.title, a⟩]
  | _, _ => []

/-- The rows an artifact is found by, after those of any artifact before it. -/
def searchRows (t : Tables) (c : Change) : List SearchRow :=
  match c.content, c.kind with
  | some _, some kind => c.searched.zipIdx.map fun (each, ordinal) =>
      { row := lastRow t + ordinal + 1, artifact := c.artifact, kind, found := each, ordinal }
  | _, _ => []

/-- The tables without an artifact's search rows. -/
def unsearched (t : Tables) (name : ArtifactId) : Tables :=
  let rows := (t.searched.filter fun r => r.2 = name).map Prod.fst
  { t with search := t.search.filter fun r => r.row ∉ rows
           searched := t.searched.filter fun r => r.2 ≠ name }

/-- The tables a change written leaves. -/
def wrote (t : Tables) (landed step : Nat) (c : Change) : Tables :=
  let cleared := t.unsearched c.artifact
  { t with
    artifacts := (t.artifacts.filter fun r => r.id ≠ c.artifact) ++ rowOf c
    parts := (t.parts.filter fun p => p.1 ≠ c.artifact) ++ partRows c
    links := (t.links.filter fun r => r.source ≠ c.artifact) ++ linkRows c
    versions := t.versions ++ [⟨c.artifact, landed, step, c.revision, c.content⟩]
    typeVersions := (if c.content.isNone then t.typeVersions.filter fun r => r.type ≠ c.artifact
      else t.typeVersions)
      ++ typeVersionRows c
    search := cleared.search ++ cleared.searchRows c
    searched := cleared.searched ++ (cleared.searchRows c).map fun r => (r.row, c.artifact) }

end Tables

namespace Landing

/-! ## Statements one after another -/

def runAll (steps : List Step) (at_ : Tables × Held) : Raises (Tables × Held) :=
  steps.foldlM (fun (at_ : Tables × Held) (step : Step) => step at_) at_

@[simp] theorem runAll_nil (at_ : Tables × Held) : runAll [] at_ = .ok at_ := rfl

theorem runAll_cons (step : Step) (rest : List Step) (at_ : Tables × Held) :
    runAll (step :: rest) at_ = (step at_ >>= runAll rest) := rfl

theorem runAll_append (first rest : List Step) (at_ : Tables × Held) :
    runAll (first ++ rest) at_ = (runAll first at_ >>= runAll rest) := by
  simp only [runAll, List.foldlM_append]
  rfl

theorem landed_eq (t : Tables) (changes : List Change) (entries : List Entry) :
    landed t changes entries = (runAll (script (changes, entries)) (t, {})).map Prod.fst := rfl

/-- Whether a text column keeps the name of each field whose links a change writes. -/
def fieldsKept (c : Change) : Bool := columns (if c.content.isNone then [] else c.links)

/-- What a change asks of the tables it is written on. -/
structure Writable (t : Tables) (c : Change) : Prop where
  integer : integer c.revision = true
  named : fieldsKept c = true
  kinded : c.content.isSome = true → c.kind.isSome = true
  newVersion : c.content.isSome = true → ∀ v, c.version = some v → t.typeVersionRow? v.label = none

section
attribute [local simp] written runAll unsearched linked searchable write lastRow Except.map bind
  Except.bind pure
  Except.pure Tables.wrote Tables.unsearched Tables.rowOf Tables.partRows Tables.linkRows
    Tables.typeVersionRows
  Tables.searchRows

/-- A change written, its revision one the database holds and the names of its fields too: refused
when it leaves an artifact of no kind, or makes a version of a type that is kept already, and
otherwise the tables it leaves. -/
theorem written_eq (c : Change) (step : Nat) (t : Tables) (h : Held)
    (hi : integer c.revision = true) (hf : fieldsKept c = true) :
    runAll (written c step) (t, h) =
      match c.content, c.kind, c.version with
      | some _, none, _ => .error .misshapen
      | some _, some _, some v =>
          if (t.typeVersionRow? v.label).isSome then .error .database else .ok
            (t.wrote h.landed step c, h)
      | _, _, _ => .ok (t.wrote h.landed step c, h) := by
  rcases c with ⟨x, content, links, parts, read, revision, through, searched, kind, version⟩
  have hb : ∀ t, bound revision t = .ok t := fun t => if_pos hi
  rcases content with _ | a
  · have hc : columns [] = true := rfl
    simp [hb, hc]
  have hc : columns links = true := hf
  rcases kind with _ | k
  · simp [hb, hc]
  rcases version with _ | v
  · simp [hb, hc]
  cases hv : t.typeVersionRow? v.label with
  | none =>
      have hfind : t.typeVersions.find? (fun r => decide (r.id = v.label)) = none := hv
      simp [hb, hc, made, Tables.typeVersionRow?, hfind]
  | some row =>
      have hfind : t.typeVersions.find? (fun r => decide (r.id = v.label)) = some row := hv
      simp [hb, hc, made, Tables.typeVersionRow?, hfind]

/-- A change with a field whose name no text column keeps, or whose revision the database cannot
hold, is refused. -/
theorem written_unbound (c : Change) (step : Nat) (t : Tables) (h : Held)
    (hi : fieldsKept c = false ∨ integer c.revision = false) :
    runAll (written c step) (t, h) = .error .database := by
  rcases c with ⟨x, content, links, parts, read, revision, through, searched, kind, version⟩
  by_cases hf : fieldsKept ⟨x, content, links, parts, read, revision, through, searched, kind,
    version⟩ = true
  · have hi : integer revision = false := hi.resolve_left (by rw [hf]; exact Bool.noConfusion)
    have hb : ∀ t, bound revision t = .error .database := fun t => if_neg (by rw [hi]; simp)
    rcases content with _ | a
    · have hc : columns [] = true := rfl
      simp [hb, hc]
    have hc : columns links = true := hf
    rcases kind with _ | k
    · simp [hb, hc]
    rcases version with _ | v <;> simp [hb, hc]
  · rcases content with _ | a
    · exact absurd rfl hf
    have hc : columns links = false := Bool.eq_false_iff.mpr hf
    simp [hc]

end

/-- A change is refused, as it is written, as misshapen or by the database alone. -/
theorem written_only (c : Change) (step : Nat) (out : Tables × Held) :
    Only (fun e : Error => e = .misshapen ∨ e = .database) (runAll (written c step) out) := by
  obtain ⟨t, h⟩ := out
  by_cases hi : fieldsKept c = false ∨ integer c.revision = false
  · rw [written_unbound c step _ _ hi]
    exact .error (Or.inr rfl)
  · rw [not_or, Bool.not_eq_false, Bool.not_eq_false] at hi
    rw [written_eq c step _ _ hi.2 hi.1]
    split
    · exact .error (Or.inl rfl)
    · split
      · exact .error (Or.inr rfl)
      · exact .ok _
    · exact .ok _

theorem written_iff (c : Change) (step : Nat) (t : Tables) (h : Held) (out : Tables × Held) :
    runAll (written c step) (t, h) = .ok out ↔
      Writable t c ∧ out = (t.wrote h.landed step c, h) := by
  by_cases hable : fieldsKept c = true ∧ integer c.revision = true
  · obtain ⟨hf, hi⟩ := hable
    rw [written_eq c step t h hi hf]
    have hout : (Except.ok (t.wrote h.landed step c, h) : Raises _) = .ok out ↔
        out = (t.wrote h.landed step c, h) :=
      ⟨fun e => (Except.ok.inj e).symm, fun e => by rw [e]⟩
    rcases hc : c.content with _ | a
    · rw [hout]
      exact ⟨fun e => ⟨⟨hi, hf, by simp [hc], by simp [hc]⟩, e⟩, fun e => e.2⟩
    rcases hk : c.kind with _ | k
    · exact ⟨nofun, fun hw => absurd (hw.1.kinded (by simp [hc])) (by simp [hk])⟩
    rcases hv : c.version with _ | v
    · rw [hout]
      exact ⟨fun e => ⟨⟨hi, hf, by simp [hk], by simp [hv]⟩, e⟩, fun e => e.2⟩
    by_cases hrow : (t.typeVersionRow? v.label).isSome = true
    · simp only [hrow, if_true]
      exact ⟨nofun, fun hw => absurd (hw.1.newVersion (by simp [hc]) v hv)
        (Option.isSome_iff_ne_none.mp hrow)⟩
    · simp only [hrow]
      refine ⟨fun e => ⟨⟨hi, hf, by simp [hk], fun _ w hw => ?_⟩, hout.mp e⟩, fun e => hout.mpr e.2⟩
      rw [hv] at hw
      cases hw
      simpa using hrow
  · have hnot : fieldsKept c = false ∨ integer c.revision = false := by
      rw [not_and_or, Bool.not_eq_true, Bool.not_eq_true] at hable
      exact hable
    rw [written_unbound c step t h hnot]
    exact ⟨nofun, fun hw => absurd ⟨hw.1.named, hw.1.integer⟩ hable⟩

/-! ## The changes of a set, one after another -/

/-- What comparing a change notes: its artifact as it stood the first time the set changes it. -/
def noted (t : Tables) (h : Held) (c : Change) : Held :=
  if (Assoc.get h.before c.artifact).isSome then h
  else { h with
    before := h.before ++ [(c.artifact, t.revisionAt c.artifact, t.partsOf c.artifact)] }

/-- Changes written one after another from a store, each read at the revision its artifact then
stands at. -/
inductive Written (landed : Nat) : Tables → List (Change × Nat) → Tables → Prop where
  | nil (t : Tables) : Written landed t [] t
  | cons {t t' : Tables} {c : Change} {step : Nat} {rest : List (Change × Nat)} :
      t.revisionAt c.artifact = c.read → Writable t c →
        Written landed (t.wrote landed step c) rest t' →
      Written landed t ((c, step) :: rest) t'

/-- What each change of a set notes, in order. -/
def notedAll (landed : Nat) : Tables → Held → List (Change × Nat) → Held
  | _, h, [] => h
  | t, h, (c, step) :: rest => notedAll landed (t.wrote landed step c) (noted t h c) rest

theorem noted_landed (t : Tables) (h : Held) (c : Change) : (noted t h c).landed = h.landed := by
  unfold noted; split <;> rfl

theorem noted_waited (t : Tables) (h : Held) (c : Change) : (noted t h c).waited = h.waited := by
  unfold noted; split <;> rfl

theorem notedAll_waited (landed : Nat) (t : Tables) (h : Held) (cs : List (Change × Nat)) :
    (notedAll landed t h cs).waited = h.waited := by
  induction cs generalizing t h with
  | nil => rfl
  | cons c rest ih => rw [notedAll, ih, noted_waited]

theorem comparing_iff (c : Change) (t : Tables) (h : Held) (out : Tables × Held) :
    comparing c (t, h) = .ok out ↔ t.revisionAt c.artifact = c.read ∧ out = (t, noted t h c) := by
  unfold comparing noted compared
  by_cases hr : t.revisionAt c.artifact = c.read
  · simp only [hr, decide_true, if_true, true_and]
    split <;> exact ⟨fun e => (Except.ok.inj e).symm, fun e => by rw [e]⟩
  · simp [hr]

/-- The statements that write a set's changes. -/
def changing (cs : List (Change × Nat)) : List Step :=
  cs.flatMap fun (change, step) => comparing change :: written change step

theorem changing_iff (cs : List (Change × Nat)) (t : Tables) (h : Held) (out : Tables × Held) :
    runAll (changing cs) (t, h) = .ok out ↔
      ∃ t', Written h.landed t cs t' ∧ out = (t', notedAll h.landed t h cs) := by
  induction cs generalizing t h with
  | nil =>
      refine ⟨fun e => ⟨t, .nil t, (Except.ok.inj e).symm⟩, ?_⟩
      rintro ⟨t', hw, rfl⟩
      cases hw
      rfl
  | cons c rest ih =>
      obtain ⟨c, step⟩ := c
      have hsplit :
        changing ((c, step) :: rest) = comparing c :: (written c step ++ changing rest) := rfl
      rw [hsplit, runAll_cons, bind_ok]
      constructor
      · rintro ⟨at_, hcmp, hrest⟩
        obtain ⟨hr, rfl⟩ := (comparing_iff c t h at_).mp hcmp
        rw [runAll_append, bind_ok] at hrest
        obtain ⟨at_, hw, hrest⟩ := hrest
        obtain ⟨hable, rfl⟩ := (written_iff c step t _ at_).mp hw
        rw [noted_landed] at hrest
        obtain ⟨t', hrun, rfl⟩ := (ih _ _).mp hrest
        rw [noted_landed] at hrun
        exact ⟨t', .cons hr hable hrun, by rw [noted_landed]; rfl⟩
      · rintro ⟨t', hrun, rfl⟩
        cases hrun with
        | cons hr hable hrun =>
            refine ⟨(t, noted t h c), (comparing_iff c t h _).mpr ⟨hr, rfl⟩, ?_⟩
            rw [runAll_append, bind_ok]
            refine ⟨_, (written_iff c step t _ _).mpr ⟨hable, rfl⟩, ?_⟩
            refine (ih _ _).mpr ⟨t', ?_, ?_⟩ <;> rw [noted_landed]
            · exact hrun
            · rfl

/-! ## A landing -/

/-- The set's own row, before anything of it is written. -/
def opened (t : Tables) (entries : List Entry) : Tables :=
  { t with
    sets := t.sets ++ [(t.lastSet + 1, entries.head?.map Entry.batch)], lastSet := t.lastSet + 1 }

/-- What a landing that ends says: its entries' ids are new, what its changes were read through has
not moved, each change is read as its artifact stands, and the store it leaves passes the checks of
integrity. -/
structure Lands (t : Tables) (changes : List Change) (entries : List Entry) (t' : Tables) :
    Prop where
  newIds : (∀ e ∈ entries, e.id ∉ t.entries.map Entry.id) ∧ (entries.map Entry.id).Nodup
  newBatch : ∀ batch, entries.head?.map Entry.batch = some batch → some batch ∉ t.sets.map Prod.snd
  unmoved : ∀ c ∈ changes, ∀ each ∈ c.through, t.revisionAt each.1 = each.2
  written : ∃ left, Written (t.lastSet + 1) (opened t entries) changes.zipIdx left ∧
    Landing.unlanded left changes (waitedNow t changes) = [] ∧
    Landing.left left changes
      (notedAll (t.lastSet + 1) (opened t entries) {} changes.zipIdx).before = [] ∧
    t' = { left with entries := left.entries ++ entries }

theorem check_iff (f : Tables → Held → Option Error) (t : Tables) (h : Held) (out : Tables × Held) :
    check f (t, h) = .ok out ↔ f t h = none ∧ out = (t, h) := by
  simp only [check]
  rcases f t h with _ | e
  · exact ⟨fun e => ⟨rfl, (Except.ok.inj e).symm⟩, fun e => by rw [e.2]⟩
  · exact ⟨nofun, nofun⟩

/-- What a set's changes note beside the tables turns on what was noted before them alone. -/
theorem notedAll_before (landed : Nat) (t : Tables) (h h' : Held) (cs : List (Change × Nat))
    (hb : h.before = h'.before) :
    (notedAll landed t h cs).before = (notedAll landed t h' cs).before := by
  induction cs generalizing t h h' with
  | nil => exact hb
  | cons c rest ih =>
      refine ih _ _ _ ?_
      unfold noted
      rw [hb]
      split
      · exact hb
      · rfl

theorem unheld_iff (entries : List Entry) (t : Tables) (h : Held) (out : Tables × Held) :
    unheld entries (t, h) = .ok out ↔
      ((∀ e ∈ entries, e.id ∉ t.entries.map Entry.id) ∧ (entries.map Entry.id).Nodup) ∧
        out = (t, h) := by
  rw [unheld, check_iff]
  refine and_congr_left' ?_
  have hany : (entries.map Entry.id).any (fun id => (t.entries.map Entry.id).contains id) = false ↔
      ∀ e ∈ entries, e.id ∉ t.entries.map Entry.id := by
    simp [List.any_eq_false]
  rw [← hany]
  by_cases hn : (entries.map Entry.id).Nodup <;> simp [hn]

theorem unmoved_iff (changes : List Change) (t : Tables) (h : Held) (out : Tables × Held) :
    unmoved changes (t, h) = .ok out ↔
      (∀ c ∈ changes, ∀ each ∈ c.through, t.revisionAt each.1 = each.2) ∧ out = (t, h) := by
  rw [unmoved, check_iff]
  refine and_congr_left' ?_
  have hall : ((changes.flatMap Change.through).all fun each => compared t each.1 each.2) = true ↔
      ∀ c ∈ changes, ∀ each ∈ c.through, t.revisionAt each.1 = each.2 := by
    simp only [List.all_eq_true, List.mem_flatMap, compared, decide_eq_true_eq,
      forall_exists_index, and_imp]
    exact ⟨fun h c hc each he => h each c hc he, fun h each c hc he => h c hc each he⟩
  rw [← hall]
  by_cases h : ((changes.flatMap Change.through).all fun each => compared t each.1 each.2) =
    true <;> simp [h]

theorem integral_iff (changes : List Change) (t : Tables) (h : Held) (out : Tables × Held) :
    integral changes (t, h) = .ok out ↔
      (unlanded t changes h.waited = [] ∧ left t changes h.before = []) ∧ out = (t, h) := by
  rw [integral, check_iff]
  refine and_congr_left' ?_
  rcases hu : unlanded t changes h.waited with _ | ⟨u, us⟩
  · rcases hl : left t changes h.before with _ | ⟨l, ls⟩ <;> simp
  · simp

theorem numbered_iff (entries : List Entry) (t : Tables) (h : Held) (out : Tables × Held) :
    numbered entries (t, h) = .ok out ↔
      (∀ batch, entries.head?.map Entry.batch = some batch → some batch ∉ t.sets.map Prod.snd) ∧
        out = (opened t entries, { h with landed := t.lastSet + 1 }) := by
  unfold numbered opened
  rcases hb : entries.head?.map Entry.batch with _ | batch
  · simp [eq_comm]
  · by_cases hc : some batch ∈ t.sets.map Prod.snd
    · have hc' : (t.sets.map Prod.snd).contains (some batch) = true := List.contains_iff_mem.mpr hc
      simp only [Option.isSome_some, hc', Bool.and_self, if_true, Option.some.injEq, forall_eq']
      exact ⟨nofun, fun h => absurd hc h.1⟩
    · have hc' : (t.sets.map Prod.snd).contains (some batch) = false := by
        rw [Bool.eq_false_iff]
        exact fun e => hc (List.contains_iff_mem.mp e)
      simp only [Option.isSome_some, hc', Bool.and_false, Bool.false_eq_true, if_false,
        Option.some.injEq, forall_eq']
      exact ⟨fun e => ⟨hc, (Except.ok.inj e).symm⟩, fun e => by rw [e.2]⟩

/-- A landing that ends, read statement by statement. -/
theorem landed_iff (t : Tables) (changes : List Change) (entries : List Entry) (t' : Tables) :
    landed t changes entries = .ok t' ↔ Lands t changes entries t' := by
  have hscript : script (changes, entries) =
      unheld entries :: numbered entries :: unmoved changes :: waited changes ::
        (changing changes.zipIdx ++ [integral changes, recorded entries]) := rfl
  have hout : landed t changes entries = .ok t' ↔
      ∃ h, runAll (script (changes, entries)) (t, {}) = .ok (t', h) := by
    rw [landed_eq]
    rcases runAll (script (changes, entries)) (t, {}) with e | ⟨t'', h⟩
    · exact ⟨nofun, fun ⟨_, h⟩ => nomatch h⟩
    · exact ⟨fun e => ⟨h, by rw [← Except.ok.inj e]⟩, fun ⟨_, e⟩ => by cases e; rfl⟩
  rw [hout, hscript]
  have hwaited : ∀ (t : Tables) (h : Held),
      waited changes (t, h) = .ok (t, { h with waited := waitedNow t changes }) :=
    fun _ _ => rfl
  have hbefore := notedAll_before (t.lastSet + 1) (opened t entries)
    { landed := t.lastSet + 1, waited := waitedNow t changes } {} changes.zipIdx rfl
  constructor
  · rintro ⟨h, hrun⟩
    rw [runAll_cons, bind_ok] at hrun
    obtain ⟨_, h1, hrun⟩ := hrun
    obtain ⟨hids, rfl⟩ := (unheld_iff ..).mp h1
    rw [runAll_cons, bind_ok] at hrun
    obtain ⟨_, h2, hrun⟩ := hrun
    obtain ⟨hbatch, rfl⟩ := (numbered_iff ..).mp h2
    rw [runAll_cons, bind_ok] at hrun
    obtain ⟨_, h3, hrun⟩ := hrun
    obtain ⟨hthrough, rfl⟩ := (unmoved_iff ..).mp h3
    rw [runAll_cons, bind_ok] at hrun
    obtain ⟨_, h4, hrun⟩ := hrun
    rw [hwaited] at h4
    cases h4
    rw [runAll_append, bind_ok] at hrun
    obtain ⟨_, h5, hrun⟩ := hrun
    obtain ⟨left, hwritten, rfl⟩ := (changing_iff ..).mp h5
    rw [runAll_cons, bind_ok] at hrun
    obtain ⟨_, h6, hrun⟩ := hrun
    obtain ⟨⟨hun, hleft⟩, rfl⟩ := (integral_iff ..).mp h6
    rw [notedAll_waited] at hun
    refine ⟨hids, hbatch, hthrough, left, hwritten, hun, hbefore ▸ hleft, ?_⟩
    exact (congrArg Prod.fst (Except.ok.inj hrun)).symm
  · rintro ⟨hids, hbatch, hthrough, left, hwritten, hun, hleft, rfl⟩
    let h : Held := { landed := t.lastSet + 1, waited := waitedNow t changes }
    refine ⟨notedAll h.landed (opened t entries) h changes.zipIdx, ?_⟩
    rw [runAll_cons, bind_ok]
    refine ⟨_, (unheld_iff ..).mpr ⟨hids, rfl⟩, ?_⟩
    rw [runAll_cons, bind_ok]
    refine ⟨_, (numbered_iff ..).mpr ⟨hbatch, rfl⟩, ?_⟩
    rw [runAll_cons, bind_ok]
    refine ⟨_, (unmoved_iff ..).mpr ⟨hthrough, rfl⟩, ?_⟩
    rw [runAll_cons, bind_ok]
    refine ⟨_, hwaited _ _, ?_⟩
    rw [runAll_append, bind_ok]
    refine ⟨_, (changing_iff ..).mpr ⟨left, hwritten, rfl⟩, ?_⟩
    rw [runAll_cons, bind_ok]
    refine ⟨_, (integral_iff ..).mpr ⟨⟨?_, ?_⟩, rfl⟩, rfl⟩
    · rw [notedAll_waited]
      exact hun
    · exact hbefore ▸ hleft

/-! ## What a change written leaves, table by table -/

end Landing

namespace Tables

variable (t : Tables) (landed step : Nat) (c : Change)

theorem mem_rowOf {r : ArtifactRow} : r ∈ rowOf c ↔
    ∃ a kind, c.content = some a ∧ c.kind = some kind ∧ r = ⟨c.artifact, kind, c.revision, a⟩ := by
  unfold rowOf
  split
  · next a kind ha hk => simp [ha, hk]
  · next h =>
      refine ⟨nofun, ?_⟩
      rintro ⟨a, kind, ha, hk, _⟩
      exact absurd hk (h a kind ha)

theorem id_of_mem_rowOf {r : ArtifactRow} (h : r ∈ rowOf c) : r.id = c.artifact := by
  obtain ⟨a, kind, _, _, rfl⟩ := (mem_rowOf c).mp h
  rfl

/-- Only the row of the change's artifact is another. -/
theorem row?_wrote (id : ArtifactId) :
    (t.wrote landed step c).row? id = if id = c.artifact then (rowOf c).head? else t.row? id := by
  have hfind : (t.wrote landed step c).row? id =
      ((t.artifacts.filter fun r => r.id ≠ c.artifact) ++ rowOf c).find? fun r => r.id = id := rfl
  rw [hfind, List.find?_append]
  by_cases h : id = c.artifact
  · subst h
    have hnone : ((t.artifacts.filter fun r => r.id ≠ c.artifact).find? fun r =>
        r.id = c.artifact) = none := by
      simp [List.find?_eq_none]
    rw [hnone, Option.none_or, if_pos rfl]
    rcases hr : rowOf c with _ | ⟨r, rest⟩
    · rfl
    · have hid := id_of_mem_rowOf c (r := r) (by rw [hr]; exact List.mem_cons_self)
      simp [hid]
  · rw [if_neg h]
    have hnone : (rowOf c).find? (fun r => decide (r.id = id)) = none := by
      refine List.find?_eq_none.mpr fun r hr => ?_
      rw [id_of_mem_rowOf c hr]
      simpa using Ne.symm h
    rw [hnone, Option.or_none, List.find?_filter]
    refine congrArg (fun p => t.artifacts.find? p) (funext fun r => ?_)
    by_cases hr : r.id = id <;> simp [hr, h]

@[simp] theorem versions_wrote :
    (t.wrote landed step c).versions = t.versions ++
      [⟨c.artifact, landed, step, c.revision, c.content⟩] := rfl
@[simp] theorem lastSet_wrote : (t.wrote landed step c).lastSet = t.lastSet := rfl
@[simp] theorem sets_wrote : (t.wrote landed step c).sets = t.sets := rfl
@[simp] theorem entries_wrote : (t.wrote landed step c).entries = t.entries := rfl

theorem revisionAt_wrote_self (a : Artifact) (kind : Kind) (hc : c.content = some a)
    (hk : c.kind = some kind) :
    (t.wrote landed step c).revisionAt c.artifact = c.revision ∧
      (t.wrote landed step c).holds c.artifact = true := by
  unfold revisionAt holds
  rw [row?_wrote, if_pos rfl]
  simp [rowOf, hc, hk]

theorem revisionAt_wrote_ne {id : ArtifactId} (h : id ≠ c.artifact) :
    (t.wrote landed step c).revisionAt id = t.revisionAt id := by
  unfold revisionAt
  rw [row?_wrote, if_neg h]

end Tables

namespace Landing

/-! ## What changes written one after another leave -/

variable {landed : Nat} {t t' : Tables} {cs : List (Change × Nat)}

theorem Written.append {first rest : List (Change × Nat)}
    (h : Written landed t (first ++ rest) t') :
    ∃ mid, Written landed t first mid ∧ Written landed mid rest t' := by
  induction first generalizing t with
  | nil => exact ⟨t, .nil t, h⟩
  | cons p first ih =>
      cases h with
      | cons hread hable h =>
          obtain ⟨mid, hfirst, hrest⟩ := ih h
          exact ⟨mid, .cons hread hable hfirst, hrest⟩

/-- What every change keeps, changes written one after another keep. -/
theorem Written.kept {I : Tables → Prop} (hwrote : ∀ t step c, I t → I (t.wrote landed step c))
    (h : Written landed t cs t') (ht : I t) : I t' := by
  induction h with
  | nil => exact ht
  | cons _ _ _ ih => exact ih (hwrote _ _ _ ht)

/-- What every change keeps, the sets and the entries aside, a set that lands keeps. -/
theorem Lands.kept {I : Tables → Prop}
    (hrest : ∀ t sets lastSet entries, I t → I { t with sets, lastSet, entries })
    (hwrote : ∀ t landed step c, I t → I (t.wrote landed step c)) {changes : List Change}
    {entries : List Entry} (h : Lands t changes entries t') (ht : I t) : I t' := by
  obtain ⟨left, hwritten, _, _, rfl⟩ := h.written
  have hleft : I left := hwritten.kept (fun t => hwrote t _) (hrest _ _ _ _ ht)
  exact hrest _ _ _ _ hleft

/-- What no change names stands as it stood. -/
theorem Written.row?_eq (h : Written landed t cs t') {id : ArtifactId}
    (hid : ∀ p ∈ cs, p.1.artifact ≠ id) :
    t'.row? id = t.row? id := by
  induction h with
  | nil => rfl
  | @cons t t' c step rest _ _ _ ih =>
      rw [ih fun p hp => hid p (List.mem_cons_of_mem _ hp), Tables.row?_wrote,
        if_neg (Ne.symm (hid (c, step) List.mem_cons_self))]

theorem Written.versions_eq (h : Written landed t cs t') :
    t'.versions = t.versions ++ cs.map fun (c, step) =>
      ⟨c.artifact, landed, step, c.revision, c.content⟩ := by
  induction h with
  | nil => simp
  | cons _ _ _ ih => rw [ih, Tables.versions_wrote, List.append_assoc, List.map_cons]; rfl

theorem Written.lastSet_eq (h : Written landed t cs t') : t'.lastSet = t.lastSet := by
  induction h with
  | nil => rfl
  | cons _ _ _ ih => exact ih

/-- An artifact whose every change keeps it, at a revision above a bound or one above the revision
it was read at, ends above a bound it started from. -/
theorem Written.rises (h : Written landed t cs t') {id : ArtifactId} {bound : Int}
    (hle : bound ≤ t.revisionAt id) (hup : ∀ p ∈ cs, p.1.artifact = id →
      p.1.content.isSome = true ∧ (bound < p.1.revision ∨ p.1.revision = p.1.read + 1)) :
    (∃ p ∈ cs, p.1.artifact = id) → t'.holds id = true ∧ bound < t'.revisionAt id := by
  induction h with
  | nil => simp
  | @cons t t' c step rest hread hable hrest ih =>
      intro _
      by_cases hc : c.artifact = id
      · obtain ⟨hsome, hrev⟩ := hup (c, step) List.mem_cons_self hc
        have hgt : bound < c.revision := by
          rw [hc] at hread
          rcases hrev with h | h <;> simp only at h hread <;> omega
        obtain ⟨a, ha⟩ := Option.isSome_iff_exists.mp hsome
        obtain ⟨kind, hk⟩ := Option.isSome_iff_exists.mp (hable.kinded hsome)
        obtain ⟨hat, hholds⟩ := Tables.revisionAt_wrote_self t landed step c a kind ha hk
        rw [hc] at hat hholds
        by_cases hlater : ∃ p ∈ rest, p.1.artifact = id
        · exact ih (by omega) (fun p hp => hup p (List.mem_cons_of_mem _ hp)) hlater
        · have hsame := hrest.row?_eq fun p hp (e : p.1.artifact = id) => hlater ⟨p, hp, e⟩
          have hat' : t'.revisionAt id = c.revision := by
            rw [← hat]; unfold Tables.revisionAt; rw [hsame]
          have hholds' : t'.holds id = true := by rw [← hholds]; unfold Tables.holds; rw [hsame]
          exact ⟨hholds', by omega⟩
      · have hstay := Tables.revisionAt_wrote_ne t landed step c (Ne.symm hc)
        refine ih (by omega) (fun p hp => hup p (List.mem_cons_of_mem _ hp)) ?_
        rename_i hex
        obtain ⟨p, hp, he⟩ := hex
        rcases List.mem_cons.mp hp with rfl | hp
        · exact absurd he hc
        · exact ⟨p, hp, he⟩

end Landing

end Kb
