/-
# `Kb.Sets` — a set that drafts, read step by step

What `drafted` returns, said once: the draft the operations lead to, that nothing in it is at fault,
the changes versioned, and each change as it is handed.  What a set's changes are, and what the
draft is, is proved from `drafted_iff` and from what one operation can come to.
-/
import Kb.Importing
import Kb.Landed

namespace Kb

open Raising

namespace Settled

/-- Ordering an artifact's entries changes its content alone. -/
theorem order_ok {a b : Artifact} {declared : Declared} (h : order a declared = .ok b) :
    ∃ content, b = { a with content } := by
  simp only [order] at h
  split at h <;>
    · obtain ⟨withSections, _, h⟩ := bind_ok.mp h
      obtain ⟨content, _, h⟩ := bind_ok.mp h
      exact ⟨content, (Except.ok.inj h).symm⟩

end Settled

namespace Handing

/-- A change before and after it is versioned: the same, but for the version of its type it records
and the order of its entries. -/
inductive Settles : Done → Done → Prop where
  | gone {c : Done} : c.left = none → Settles c c
  | brought {c : Done} : c.op = .import_ → Settles c c
  | left {c : Done} (a : Artifact) (type : Version) (content : Dict) : c.op ≠ .import_ →
      c.left = some a → type.kind = a.kind →
      Settles c { c with type, left := some { a with type, content } }

variable {O : Outside}

theorem versioned_ok {d d' : Draft} {c c' : Done} {last : Bool}
    (h : versioned O d c last = .ok (d', c')) :
    Settles c c' ∧ (d' = d ∨ last = true ∧ ∃ a, c'.left = some a ∧ d' = d.put c.artifact a) := by
  unfold versioned at h
  split at h
  · next hnone =>
      cases h
      exact ⟨.gone hnone, Or.inl rfl⟩
  · next hop =>
      cases h
      exact ⟨.brought hop, Or.inl rfl⟩
  · next a hleft hop =>
      obtain ⟨schema, _, h⟩ := bind_ok.mp h
      obtain ⟨number, _, h⟩ := bind_ok.mp h
      split at h
      · nomatch h
      · next version hversion =>
          obtain ⟨written, _, h⟩ := bind_ok.mp h
          obtain ⟨declared, _, h⟩ := bind_ok.mp h
          obtain ⟨b, hb, h⟩ := bind_ok.mp h
          obtain ⟨content, rfl⟩ := Settled.order_ok hb
          obtain ⟨rfl, rfl⟩ := Prod.mk.inj (Except.ok.inj h)
          refine ⟨.left a version content ?_ hleft (Version.kind_of_read? hversion), ?_⟩
          · exact fun e => by simp_all
          · cases last with
            | false => exact Or.inl rfl
            | true => exact Or.inr ⟨rfl, _, rfl, rfl⟩

/-- The version a change to an artifact is handed as making: one for a type, none for anything
else. -/
def MakesVersion (a : Artifact) (version : Option Versioned) : Prop :=
  if a.kind = TYPE_KIND then ∃ v, standsAt a = .ok v ∧ version = some v else version = none

/-- How a change is handed: a removal; a change the set makes another to its artifact after; the
last one. -/
inductive Hands (O : Outside) (d : Draft) (c : Done) (read : Int) : Bool → Change → Prop where
  | gone {last : Bool} : c.left = none →
      Hands O d c read last { artifact := c.artifact, content := none, read,
                              revision := c.revision }
  | earlier {a : Artifact} {searched : List Found} {version : Option Versioned}
      {made : List ArtifactId} :
      c.left = some a → searchable O a = .ok searched → MakesVersion a version →
      readByTheVersionMade O d a = .ok made →
      Hands O d c read false
        { artifact := c.artifact, content := some a, read, revision := c.revision, searched,
          kind := some a.kind, version,
          through := d.asRead made }
  | last {a type : Artifact} {searched : List Found} {version : Option Versioned}
      {made through : List ArtifactId} {schema : Value} {carried : List Link} :
      c.left = some a → searchable O a = .ok searched → MakesVersion a version →
      readByTheVersionMade O d a = .ok made → typed d c a = .ok type → type.schema = .ok schema →
      Links.handed O d.corpus a schema (d.waited c.artifact) = .ok carried →
      Composition.readThrough O d.corpus a.kind schema = .ok through →
      Hands O d c read true
        { artifact := c.artifact, content := some a, read, revision := c.revision, searched,
          kind := some a.kind, version,
          links := if c.op = .import_ then marked carried else carried
          parts := Places.parts a.whole
          through := d.asRead (through ++ made) }

theorem handed_ok {d : Draft} {c : Done} {read : Int} {last : Bool} {h : Change}
    (hh : handed O d c read last = .ok h) :
    Hands O d c read last h := by
  simp only [handed] at hh
  split at hh
  · next hnone =>
      cases hh
      exact .gone hnone
  · next a hleft =>
      obtain ⟨searched, hsearched, hh⟩ := bind_ok.mp hh
      obtain ⟨version, hversion, hh⟩ : ∃ version, MakesVersion a version ∧ (do
          let made ← readByTheVersionMade O d a
          let change : Change :=
            { artifact := c.artifact, content := some a, read, revision := c.revision, searched,
              kind := some a.kind,
              version }
          if !last then .ok { change with through := d.asRead made } else
          let schema ← (← typed d c a).schema
          let carried ← Links.handed O d.corpus a schema (d.waited c.artifact)
          .ok { change with
            links := if c.op = .import_ then marked carried else carried
            parts := Places.parts a.whole
            through := d.asRead ((← Composition.readThrough O d.corpus a.kind schema) ++ made) } :
                Raises Change) = .ok h := by
        unfold MakesVersion
        split at hh
        · next hk =>
            obtain ⟨v, hv, hh⟩ := bind_ok.mp hh
            exact ⟨some v, by rw [if_pos hk]; exact ⟨v, hv, rfl⟩, hh⟩
        · next hk => exact ⟨none, by rw [if_neg hk], hh⟩
      obtain ⟨made, hmade, hh⟩ := bind_ok.mp hh
      cases last with
      | false =>
          simp only [Bool.not_false, if_true] at hh
          cases hh
          exact .earlier hleft hsearched hversion hmade
      | true =>
          simp only [Bool.not_true, Bool.false_eq_true, if_false] at hh
          obtain ⟨type, htype, hh⟩ := bind_ok.mp hh
          obtain ⟨schema, hschema, hh⟩ := bind_ok.mp hh
          obtain ⟨carried, hcarried, hh⟩ := bind_ok.mp hh
          obtain ⟨through, hthrough, hh⟩ := bind_ok.mp hh
          cases hh
          exact .last hleft hsearched hversion hmade htype hschema hcarried hthrough

/-- What every change handed says of its artifact, whichever of its artifact's changes it is. -/
theorem Hands.alike {d : Draft} {c : Done} {read : Int} {last : Bool} {h : Change}
    (hh : Hands O d c read last h) :
    h.artifact = c.artifact ∧ h.content = c.left ∧ h.read = read ∧ h.revision = c.revision
      ∧ h.kind = c.left.map Artifact.kind := by
  cases hh with
  | gone hleft => simp [hleft]
  | earlier hleft => simp [hleft]
  | last hleft => simp [hleft]

/-- What a change handed was read through: nothing, or types as the draft read them. -/
theorem Hands.through {d : Draft} {c : Done} {read : Int} {last : Bool} {h : Change}
    (hh : Hands O d c read last h) :
    h.through = [] ∨ ∃ types, h.through = d.asRead types := by
  cases hh with
  | gone _ => exact Or.inl rfl
  | earlier _ _ _ _ => exact Or.inr ⟨_, rfl⟩
  | last _ _ _ _ _ _ _ _ => exact Or.inr ⟨_, rfl⟩

end Handing

namespace Drafting

/-- A set drafted: `left` is the draft as its operations leave it, `outcomes` what each came to,
`read` the revisions its changes were read at, `plain` its changes before they are guarded. -/
structure Passes (O : Outside) (t : Tables) (operations : List Operation) (d : Drafted)
    (left : Draft) (outcomes : List Outcome) (read : List Int) (plain : List Change) : Prop where
  acted : actedAll O { store := t } (byNumber operations) = .ok (left, outcomes)
  faultless : ∀ o ∈ outcomes, faults O left o = .ok []
  versioned : versionedAll O left (lasts (changesOf outcomes)) = .ok (d.draft, d.changes)
  texts : Handing.serialised O d.changes = .ok d.texts
  whole : keptWhole O d.draft d.changes = .ok ()
  asRead : readAt O t d.changes [] = .ok read
  byOne : List.Forall₂ (fun (each : (Done × Bool) × Int) c =>
    Handing.handed O d.draft each.1.1 each.2 each.1.2 = .ok c)
    ((lasts d.changes).zip read) plain
  handed : d.handed = (Standing.guarded plain d.draft).1
  locked : d.locked = ((Standing.guarded plain d.draft).2
    || d.changes.any fun c => Standing.removesAType c || Standing.definesAType c)

theorem drafted_ok {O : Outside} {t : Tables} {operations : List Operation} {d : Drafted}
    (h : drafted O t operations = .ok d) :
    ∃ left outcomes read plain, Passes O t operations d left outcomes read plain := by
  unfold drafted at h
  obtain ⟨⟨left, outcomes⟩, hacted, h⟩ := bind_ok.mp h
  obtain ⟨found, hfound, h⟩ := bind_ok.mp h
  by_cases hempty : found.flatten.isEmpty = true
  swap
  · simp [hempty, Edits.refuse] at h
    nomatch h
  simp only [hempty, Bool.not_true, Bool.false_eq_true, if_false] at h
  obtain ⟨⟨draft, changes⟩, hversioned, h⟩ := bind_ok.mp h
  obtain ⟨texts, htexts, h⟩ := bind_ok.mp h
  obtain ⟨_, hwhole, h⟩ := bind_ok.mp h
  obtain ⟨read, hread, h⟩ := bind_ok.mp h
  obtain ⟨plain, hplain, h⟩ := bind_ok.mp h
  have hd := Except.ok.inj h
  subst hd
  refine ⟨left, outcomes, read, plain, hacted, ?_, hversioned, htexts, hwhole, hread,
    mapM_ok.mp hplain, rfl, rfl⟩
  intro o ho
  obtain ⟨fs, hfs, hfs'⟩ := forall₂_of_mem (mapM_ok.mp hfound) ho
  have hnil : fs = [] := List.flatten_eq_nil_iff.mp (List.isEmpty_iff.mp hempty) fs hfs
  rw [hfs', hnil]

/-- A change an operation made, and the change handed for it. -/
structure Carries (c : Done) (h : Change) : Prop where
  artifact : h.artifact = c.artifact
  revision : h.revision = c.revision
  gone : h.content = none ↔ c.left = none
  left : ∀ a, c.left = some a → ∃ type content, h.content = some { a with type, content } ∧
    type.kind = a.kind
  kind : h.kind = h.content.map Artifact.kind
  read : c.op ≠ .import_ ∨ c.left = none → h.read = c.revision - 1

theorem readAt_ok {O : Outside} {t : Tables} {cs : List Done} {left : List (ArtifactId × Int)}
    {read : List Int} (h : readAt O t cs left = .ok read) :
    List.Forall₂
      (fun (c : Done) r => c.op ≠ .import_ ∨ c.left = none → r = c.revision - 1) cs read := by
  induction cs generalizing left read with
  | nil =>
      cases h
      exact .nil
  | cons c rest ih =>
      simp only [readAt] at h
      split at h
      · next a hop hleft =>
          have hc : ¬(c.op ≠ .import_ ∨ c.left = none) := by simp [hop, hleft]
          split at h <;>
            · obtain ⟨r, _, h⟩ := bind_ok.mp h
              obtain ⟨rs, hrs, h⟩ := bind_ok.mp h
              cases h
              exact .cons (fun e => absurd e hc) (ih hrs)
      · obtain ⟨r, hr, h⟩ := bind_ok.mp h
        obtain ⟨rs, hrs, h⟩ := bind_ok.mp h
        cases h
        exact .cons (fun _ => (Except.ok.inj hr).symm) (ih hrs)

theorem versionedAll_ok {O : Outside} {d d' : Draft} {cs : List (Done × Bool)} {cs' : List Done}
    (h : versionedAll O d cs = .ok (d', cs')) :
    List.Forall₂ (fun p c => Handing.Settles p.1 c) cs cs' := by
  induction cs generalizing d cs' with
  | nil =>
      cases h
      exact .nil
  | cons p rest ih =>
      obtain ⟨⟨d₁, c⟩, hc, h⟩ := bind_ok.mp h
      obtain ⟨⟨d₂, cs⟩, hcs, h⟩ := bind_ok.mp h
      cases h
      exact .cons (Handing.versioned_ok hc).1 (ih hcs)

theorem lasts_map_fst (cs : List Done) : (lasts cs).map Prod.fst = cs := by
  induction cs with
  | nil => rfl
  | cons c rest ih => rw [lasts, List.map_cons, ih]

theorem Settles.carries {c c' : Done} {h : Change} (hs : Handing.Settles c c')
    (ha : h.artifact = c'.artifact) (hc : h.content = c'.left) (hr : h.revision = c'.revision)
    (hk : h.kind = c'.left.map Artifact.kind)
    (hread : c'.op ≠ .import_ ∨ c'.left = none → h.read = c'.revision - 1) : Carries c h := by
  cases hs with
  | gone hnone => exact ⟨ha, hr, by rw [hc], by simp [hnone], by rw [hk, hc], hread⟩
  | brought hop =>
      refine ⟨ha, hr, by
        rw [hc], fun a hleft => ⟨a.type, a.content, ?_, rfl⟩, by rw [hk, hc], hread⟩
      rw [hc, hleft]
  | left a type content hop hleft hkind =>
      refine ⟨ha, hr, ?_, fun b hb => ⟨type, content, ?_⟩, by
        rw [hk, hc], fun _ => hread (Or.inl hop)⟩
      · simp [hc, hleft]
      · rw [hleft] at hb
        cases hb
        exact ⟨hc, hkind⟩

/-- Each change handed is for the change an operation made, in the order of the operations. -/
theorem Passes.carries {O : Outside} {t : Tables} {operations : List Operation} {d : Drafted}
    {left : Draft} {outcomes : List Outcome} {read : List Int} {plain : List Change}
    (h : Passes O t operations d left outcomes read plain) :
    List.Forall₂ Carries (changesOf outcomes) d.handed := by
  have hsettles := versionedAll_ok h.versioned
  have hread := readAt_ok h.asRead
  have hplain := h.byOne
  rw [h.handed]
  unfold Standing.guarded
  simp only [List.forall₂_map_right_iff]
  rw [← List.forall₂_map_left_iff, lasts_map_fst] at hsettles
  generalize d.changes = changes at hsettles hread hplain
  generalize changesOf outcomes = made at hsettles
  clear h
  induction hsettles generalizing read plain with
  | nil =>
      cases hplain
      exact .nil
  | @cons c c' made changes hs hrest ih =>
      cases hread with
      | @cons _ r _ read hr hrest' =>
          rw [lasts, List.zip_cons_cons] at hplain
          cases hplain with
          | @cons _ g _ plain hg hplain =>
              obtain ⟨ha, hc, hrd, hrev, hk⟩ := (Handing.handed_ok hg).alike
              refine .cons ?_ (ih hrest' hplain)
              exact Settles.carries hs ha hc hrev hk fun e => (hrd.trans (hr e))

end Drafting

end Kb
