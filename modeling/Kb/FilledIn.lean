/-
# `Kb.FilledIn` — what a whole read fills in

A link is followed unless its text is on the path, so a link written otherwise than the one the path
came by names an artifact on the path and is followed all the same: `iri#`, a link to the artifact
and no part of it, beside `iri`.  An artifact is filled in as it should be, and replacing what is
filled in by its IRI gives back what is stored, just where everything the read comes to is read,
every link to an artifact on the path is written as the path came by it, and every link of the
artifact read that is followed is its IRI and stands in the content (`Followable`).
-/
import Kb.Whole
import Kb.Itemised
import Kb.Sound

namespace Kb.Read

open Raising Kb.Composition

/-! ## The place of a link -/

/-- Where a link stands in a node: its field, and where in the list it holds, if it holds one. -/
abbrev Place := Scalar × Option Nat

/-- What a field's value holds at an index, or is. -/
def entryAt : Value → Option Nat → Option Value
  | .list vs, some index => vs[index]?
  | .list _, none => none
  | _, some _ => none
  | v, none => some v

def valueAt (node : Dict) (place : Place) : Option Value :=
  (Assoc.get node place.1).bind fun v => entryAt v place.2

/-- An artifact filled in as its IRI, anything else as it is. -/
def named : Value → Value
  | .map es => (Dict.get? es "id").getD (.map es)
  | v => v

def namedField : Value → Value
  | .list vs => .list (vs.map named)
  | v => named v

/-- Content with each artifact filled in in a field replaced by its IRI. -/
def restoredAt (content : Dict) (field : Scalar) : Dict :=
  match Assoc.get content field with
  | some v => Assoc.set content field (namedField v)
  | none => content

/-- Content with each artifact filled in in those fields replaced by its IRI. -/
def restored (fields : List Scalar) (content : Dict) : Dict :=
  fields.foldl restoredAt content

variable (O : Outside) (t : Tables)

/-- A link in one of an artifact's own fields. -/
def OwnLink (a : Artifact) (place : Place) (text : String) : Prop :=
  ∃ fields, ownFields O t a = .ok fields ∧ place.1 ∈ fields ∧
    valueAt a.whole place = some (.text text)

/-- An own link to an artifact held, and no part of it. -/
def Points (a : Artifact) (place : Place) (text : String) (b : Artifact) : Prop :=
  OwnLink O t a place text ∧ target text = .ok ⟨b.id, []⟩ ∧ t.artifact b.id = some b

/-! ## What is to be filled in -/

/-- Where an artifact is filled in in what is read of another: the IRIs on the path there, its own
first, and what it is filled in as. -/
inductive Stands (a : Artifact) (content : Dict) : List ArtifactId → Artifact → Dict → Prop
  | top : Stands a content [a.id] a content
  | inside {ids : List ArtifactId} {b c : Artifact} {r es : Dict} {place : Place} {text : String} :
      Stands a content ids b r →
      Points O t b place text c → valueAt r place = some (.map es) →
      Stands a content (c.id :: ids) c es

/-- A link shown names something, and where that is not held, stands in a field whose name is text
or none. -/
def Shown (link : Links.Carried) : Prop :=
  ∃ text found, link.target = .text text ∧ target text = .ok found ∧
    (lands t found = true ∨ ∃ name, link.field.asField = .ok name)

/-- The links of an artifact are read, and each can be shown. -/
def Readable (a : Artifact) : Prop :=
  ∃ links, carried O t a = .ok links ∧ ∀ link ∈ links, Shown t link

/-- Own links that lead from one artifact to another, so many of them. -/
inductive Leads : Artifact → Nat → Artifact → Prop
  | here {a : Artifact} : Leads a 0 a
  | on {a b c : Artifact} {place : Place} {text : String} {k : Nat} : Points O t a place text b →
      Leads b k c → Leads a (k + 1) c

/-- The own links that lead to an artifact from the one read, no IRI come to twice: the IRIs on the
path, its own first, and how each was written. -/
inductive Chain (a : Artifact) : List ArtifactId → List String → Artifact → Prop
  | start : Chain a [a.id] [a.id.iri] a
  | next {ids : List ArtifactId} {texts : List String} {b c : Artifact} {place : Place}
      {text : String} : Chain a ids texts b →
      Points O t b place text c → c.id ∉ ids → Chain a (c.id :: ids) (text :: texts) c

section Following

variable {O : Outside} {t : Tables} {resolve : ArtifactId → List String →
  Raises (Value × List Artifact)} {onPath : List String}

theorem fill_text {text : String} {linked : Locator} (htarget : target text = .ok linked) :
    fill t resolve onPath (.text text) =
      if linked.place ≠ [] ∨ text ∈ onPath ∨ t.holds linked.id = false then .ok (.text text, [])
      else resolve linked.id (text :: onPath) := by
  unfold fill
  simp only [htarget]

theorem fill_ok {text : String} {linked : Locator} {v : Value} {s : List Artifact}
    (htarget : target text = .ok linked) (h : fill t resolve onPath (.text text) = .ok (v, s)) :
    (v = .text text ∧ s = [] ∧ (linked.place ≠ [] ∨ text ∈ onPath ∨ t.holds linked.id = false)) ∨
    (linked.place = [] ∧ text ∉ onPath ∧ t.holds linked.id = true ∧
      resolve linked.id (text :: onPath) = .ok (v, s)) := by
  rw [fill_text htarget] at h
  by_cases hleft : linked.place ≠ [] ∨ text ∈ onPath ∨ t.holds linked.id = false
  · rw [if_pos hleft] at h
    cases h
    exact Or.inl ⟨rfl, rfl, hleft⟩
  · rw [if_neg hleft] at h
    rw [not_or, not_or, not_not, Bool.not_eq_false] at hleft
    exact Or.inr ⟨hleft.1, hleft.2.1, hleft.2.2, h⟩

/-- What is followed is text that names something. -/
theorem text_of_fill {link v : Value} {s : List Artifact}
    (h : fill t resolve onPath link = .ok (v, s)) :
    ∃ text linked, link = .text text ∧ target text = .ok linked := by
  unfold fill at h
  split at h
  · next text =>
      split at h
      · cases h
      · next linked htarget => exact ⟨text, linked, rfl, htarget⟩
  · cases h

variable (hmap : ∀ id path v s, resolve id path = .ok (v, s) → ∃ es, v = .map es)

include hmap in
theorem entryAt_fill {link v : Value} {s : List Artifact}
    (h : fill t resolve onPath link = .ok (v, s)) : entryAt v none = some v := by
  obtain ⟨text, linked, rfl, htarget⟩ := text_of_fill h
  rcases fill_ok htarget h with ⟨rfl, _⟩ | ⟨_, _, _, hresolve⟩
  · rfl
  · obtain ⟨es, rfl⟩ := hmap _ _ _ _ hresolve
    rfl

theorem forall₂_getElem? {α β : Type} {R : α → β → Prop} {as : List α} {bs : List β}
    (h : List.Forall₂ R as bs) {index : Nat} {a : α} (ha : as[index]? = some a) :
    ∃ b, bs[index]? = some b ∧ R a b := by
  induction h generalizing index with
  | nil => cases ha
  | cons hab _ ih =>
      cases index with
      | zero =>
          cases ha
          exact ⟨_, rfl, hab⟩
      | succ index => exact ih ha

include hmap in
/-- Where a field holds a link, its field followed holds what that link is followed to. -/
theorem fillField_entry {u v : Value} {s : List Artifact}
    (h : fillField t resolve onPath u = .ok (v, s)) {index : Option Nat} {link : Value}
    (hlink : entryAt u index = some link) :
    ∃ v' s', fill t resolve onPath link = .ok (v', s') ∧ entryAt v index = some v' ∧ s' ⊆ s := by
  cases u with
  | list links =>
      obtain ⟨each, heach, h⟩ := bind_ok.mp h
      cases h
      cases index with
      | none => cases hlink
      | some index =>
          obtain ⟨⟨v', s'⟩, hv', hfill⟩ := forall₂_getElem? (mapM_ok.mp heach) hlink
          refine ⟨v', s', hfill, ?_,
            fun x hx => List.mem_flatMap.mpr ⟨_, List.mem_of_getElem? hv', hx⟩⟩
          show (each.map Prod.fst)[index]? = some v'
          rw [List.getElem?_map, hv']
          rfl
  | map _ => cases h
  | scalar _ =>
      cases index with
      | some _ => cases hlink
      | none =>
          cases hlink
          exact ⟨v, s, h, entryAt_fill hmap h, List.Subset.refl _⟩

theorem fillAll_ok {node : Dict} {fields : List Scalar} {r : Dict} {s : List Artifact}
    (h : fillAll t resolve onPath node fields = .ok (r, s)) :
    ∃ g : Scalar → Value × List Artifact,
      (∀ field ∈ fields, fillOne t resolve onPath node field = .ok (g field)) ∧
      r = Assoc.setAll (fun field => (g field).1) fields node ∧ s = fields.flatMap fun field =>
        (g field).2 := by
  let g : Scalar → Value × List Artifact :=
    fun field => (fillOne t resolve onPath node field).toOption.getD (.null, [])
  have hfold : ∀ (fields : List Scalar) (at_ : Dict × List Artifact),
      fields.foldlM (fillNext t resolve onPath node) at_ = .ok (r, s) →
      (∀ field ∈ fields, fillOne t resolve onPath node field = .ok (g field)) ∧
      r = Assoc.setAll (fun field => (g field).1) fields at_.1 ∧
      s = at_.2 ++ fields.flatMap fun field => (g field).2 := by
    intro fields
    induction fields with
    | nil =>
        intro at_ h
        cases h
        exact ⟨fun _ hfield => (by cases hfield), rfl, (List.append_nil _).symm⟩
    | cons field fields ih =>
        intro at_ h
        rw [List.foldlM_cons] at h
        obtain ⟨mid, hmid, h⟩ := bind_ok.mp h
        obtain ⟨found, hfound, hmid⟩ := bind_ok.mp hmid
        cases hmid
        obtain ⟨hall, hr, hs⟩ := ih _ h
        have hg : g field = found := by
          show (fillOne t resolve onPath node field).toOption.getD (.null, []) = found
          rw [hfound]
          rfl
        refine ⟨fun each heach => ?_, ?_, ?_⟩
        · rcases List.mem_cons.mp heach with rfl | heach
          · rw [hg, hfound]
          · exact hall each heach
        · rw [hr, ← hg]
          rfl
        · rw [hs, List.flatMap_cons, hg, List.append_assoc]
  exact ⟨g, hfold fields (node, []) h⟩

end Following

/-! ## What is resolved -/

section Resolving

variable {O : Outside} {t : Tables}

theorem target_iri (id : ArtifactId) : target id.iri = .ok ⟨id, []⟩ := by
  have hmark : ∀ c ∈ id.iri.toList, (decide (c ≠ '#')) = true :=
    fun c hc => decide_eq_true fun he => (Names.iri_not_mem id.grammar).2 (he ▸ hc)
  have hlinked : Names.linked id.iri = (id.iri, "") := by
    unfold Names.linked
    rw [List.takeWhile_eq_self_iff.mpr hmark, List.dropWhile_eq_nil_iff.mpr hmark,
      String.ofList_toList]
    rfl
  unfold target located
  rw [hlinked, ArtifactId.read?_iri]
  rfl

theorem resolved_ok {depth : Nat} {id : ArtifactId} {onPath : List String} {v : Value}
    {s : List Artifact} (h : resolved O t depth id onPath = .ok (v, s)) :
    ∃ a es, t.artifact id = some a ∧ v = .map es ∧ a ∈ s := by
  cases depth with
  | zero =>
      obtain ⟨a, ha, h⟩ := bind_ok.mp h
      cases h
      exact ⟨a, _, Query.artifact_ok.mp ha, rfl, List.mem_cons_self⟩
  | succ depth =>
      obtain ⟨a, ha, h⟩ := bind_ok.mp h
      obtain ⟨fields, _, h⟩ := bind_ok.mp h
      obtain ⟨filled, _, h⟩ := bind_ok.mp h
      cases h
      exact ⟨a, _, Query.artifact_ok.mp ha, rfl, List.mem_cons_self⟩

theorem resolved_fill {depth : Nat} {id : ArtifactId} {onPath : List String} {es : Dict}
    {s : List Artifact} {b : Artifact} (hb : t.artifact id = some b)
    (h : resolved O t (depth + 1) id onPath = .ok (.map es, s)) :
    ∃ (fields : List Scalar) (g : Scalar → Value × List Artifact), ownFields O t b = .ok fields ∧
      (∀ field ∈ fields, fillOne t (resolved O t depth) onPath b.whole field = .ok (g field)) ∧
      es = Assoc.setAll (fun field => (g field).1) fields b.whole ∧
      s = b :: fields.flatMap fun field => (g field).2 := by
  obtain ⟨a, ha, h⟩ := bind_ok.mp h
  cases hb.symm.trans (Query.artifact_ok.mp ha)
  obtain ⟨fields, hfields, h⟩ := bind_ok.mp h
  obtain ⟨filled, hfilled, h⟩ := bind_ok.mp h
  cases h
  obtain ⟨g, hg, hr, hs⟩ := fillAll_ok hfilled
  exact ⟨fields, g, hfields, hg, hr, congrArg _ hs⟩

/-- What stands in an artifact resolved where it holds an own link: the link, or what it is followed
to. -/
theorem resolved_link {depth : Nat} {id : ArtifactId} {onPath : List String} {es : Dict}
    {s : List Artifact} {b : Artifact} {place : Place} {text : String} {linked : Locator}
    (hb : t.artifact id = some b) (h : resolved O t depth id onPath = .ok (.map es, s))
    (hown : OwnLink O t b place text) (htarget : target text = .ok linked) :
    (valueAt es place = some (.text text) ∧
      (depth = 0 ∨ linked.place ≠ [] ∨ text ∈ onPath ∨ t.holds linked.id = false)) ∨
    ∃ left es' s', depth = left + 1 ∧ linked.place = [] ∧ text ∉ onPath ∧ t.holds linked.id = true ∧
      resolved O t left linked.id (text :: onPath) = .ok (.map es', s') ∧
      valueAt es place = some (.map es') ∧ s' ⊆ s := by
  obtain ⟨fields, hfields, hfield, hvalue⟩ := hown
  cases depth with
  | zero =>
      obtain ⟨a, ha, h⟩ := bind_ok.mp h
      cases h
      cases hb.symm.trans (Query.artifact_ok.mp ha)
      exact Or.inl ⟨hvalue, Or.inl rfl⟩
  | succ depth =>
      obtain ⟨fields', g, hfields', hg, rfl, rfl⟩ := resolved_fill hb h
      cases hfields.symm.trans hfields'
      obtain ⟨u, hu, hentry⟩ := Option.bind_eq_some_iff.mp hvalue
      have hone := hg place.1 hfield
      unfold fillOne at hone
      rw [hu] at hone
      have hmap : ∀ id path v s, resolved O t depth id path = .ok (v, s) → ∃ es, v = .map es := by
        intro id path v s h
        obtain ⟨_, es, _, hv, _⟩ := resolved_ok h
        exact ⟨es, hv⟩
      obtain ⟨v', s', hfill, hv', hs'⟩ := fillField_entry hmap hone hentry
      have hat :
          valueAt (Assoc.setAll (fun field => (g field).1) fields b.whole) place = some v' := by
        unfold valueAt
        rw [Assoc.get_setAll, if_pos hfield]
        exact hv'
      rcases fill_ok htarget hfill with ⟨rfl, _, hleft⟩ | ⟨hplace, hpath, hheld, hresolve⟩
      · exact Or.inl ⟨hat, Or.inr hleft⟩
      · obtain ⟨_, es', _, rfl, _⟩ := resolved_ok hresolve
        refine Or.inr ⟨depth, es', s', rfl, hplace, hpath, hheld, hresolve, hat, fun x hx => ?_⟩
        exact List.mem_cons_of_mem _ (List.mem_flatMap.mpr ⟨place.1, hfield, hs' hx⟩)

theorem Sound.held (hsound : t.Sound) {id : ArtifactId} (h : t.holds id = true) :
    ∃ a, t.artifact id = some a ∧ a.id = id := by
  rw [← Tables.artifact_isSome] at h
  obtain ⟨a, ha⟩ := Option.isSome_iff_exists.mp h
  exact ⟨a, ha, (hsound.artifact ha).1⟩

end Resolving

/-! ## A chain and what stands at its end -/

section Tracking

variable {O : Outside} {t : Tables} {a : Artifact}

theorem Chain.held (ha : t.artifact a.id = some a) {ids : List ArtifactId} {texts : List String}
    {b : Artifact} (h : Chain O t a ids texts b) : t.artifact b.id = some b := by
  cases h with
  | start => exact ha
  | next _ hpoints _ => exact hpoints.2.2

theorem Chain.ids {ids : List ArtifactId} {texts : List String} {b : Artifact}
    (h : Chain O t a ids texts b) :
    b.id ∈ ids ∧ (ids = [a.id] → b = a ∧ texts = [a.id.iri]) := by
  cases h with
  | start => exact ⟨List.mem_cons_self, fun _ => ⟨rfl, rfl⟩⟩
  | next hchain _ hnew =>
      refine ⟨List.mem_cons_self, fun hids => ?_⟩
      have hempty := (List.cons_eq_cons.mp hids).2
      cases hchain <;> cases hempty

/-- What is written on the path names what is on it. -/
theorem Chain.named {ids : List ArtifactId} {texts : List String} {b : Artifact}
    (h : Chain O t a ids texts b) {text : String} (htext : text ∈ texts) {linked : Locator}
    (htarget : target text = .ok linked) : linked.id ∈ ids := by
  induction h with
  | start =>
      cases List.mem_singleton.mp htext
      cases (target_iri a.id).symm.trans htarget
      exact List.mem_cons_self
  | next _ hpoints _ ih =>
      rcases List.mem_cons.mp htext with rfl | htext
      · cases hpoints.2.1.symm.trans htarget
        exact List.mem_cons_self
      · exact List.mem_cons_of_mem _ (ih htext)

/-- A chain that has come to an IRI came to it no further on. -/
theorem Chain.back {ids : List ArtifactId} {texts : List String} {b : Artifact}
    (h : Chain O t a ids texts b) {id : ArtifactId} (hid : id ∈ ids) :
    ∃ ids' texts' c, Chain O t a ids' texts' c ∧ c.id = id ∧ ids'.length ≤ ids.length := by
  induction h with
  | start =>
      cases List.mem_singleton.mp hid
      exact ⟨_, _, a, .start, rfl, Nat.le_refl _⟩
  | next hchain hpoints hnew ih =>
      rcases List.mem_cons.mp hid with rfl | hid
      · exact ⟨_, _, _, .next hchain hpoints hnew, rfl, Nat.le_refl _⟩
      · obtain ⟨ids', texts', c, hchain', hc, hle⟩ := ih hid
        exact ⟨ids', texts', c, hchain', hc, Nat.le_succ_of_le hle⟩

/-- What own links lead to, a chain no longer leads to. -/
theorem Leads.chain (ha : t.artifact a.id = some a) {b c : Artifact} {k : Nat}
    (h : Leads O t b k c) :
    ∀ {ids : List ArtifactId} {texts : List String}, Chain O t a ids texts b → ∃ ids' texts',
    Chain O t a ids' texts' c ∧ ids'.length ≤ ids.length + k := by
  induction h with
  | here => exact fun hchain => ⟨_, _, hchain, Nat.le_refl _⟩
  | @on b c d place text k hpoints _ ih =>
      intro ids texts hchain
      by_cases hback : c.id ∈ ids
      · obtain ⟨ids', texts', c', hchain', hid, hle⟩ := hchain.back hback
        have hsame : c' = c := by
          have hheld := hchain'.held ha
          rw [hid, hpoints.2.2] at hheld
          exact (Option.some.inj hheld).symm
        obtain ⟨ids'', texts'', hchain'', hle'⟩ := ih (hsame ▸ hchain')
        exact ⟨ids'', texts'', hchain'', by omega⟩
      · obtain ⟨ids', texts', hchain', hle⟩ := ih (.next hchain hpoints hback)
        rw [List.length_cons] at hle
        exact ⟨ids', texts', hchain', by omega⟩

/-- What stands where a chain leads: what the artifact there is resolved to, so many steps on; but
of the artifact read itself, its content. -/
structure Tracked (O : Outside) (t : Tables) (a : Artifact) (depth : Nat) (shown : List Artifact)
    (ids : List ArtifactId) (texts : List String) (b : Artifact) (r : Dict) : Prop where
  held : t.artifact b.id = some b
  within : ids.length ≤ depth + 1
  run : ∃ es s, resolved O t (depth + 1 - ids.length) b.id texts = .ok (.map es, s) ∧ s ⊆ shown ∧
    r = if ids = [a.id] then Settled.unsettled es else es

theorem valueAt_unsettled (d : Dict) (place : Place) :
    valueAt (Settled.unsettled d) place = if place.1 ∈ Settled.IDENTITY then none
      else valueAt d place := by
  unfold valueAt
  rw [Settled.get_unsettled]
  split <;> rfl

/-- Where what stands at a chain's end is what its artifact is resolved to, and where nothing is. -/
theorem valueAt_tracked {ids : List ArtifactId} {r es : Dict}
    (hr : r = if ids = [a.id] then Settled.unsettled es else es) (place : Place) :
    valueAt r place = if ids = [a.id] ∧ place.1 ∈ Settled.IDENTITY then none
    else valueAt es place := by
  subst hr
  by_cases hids : ids = [a.id]
  · rw [if_pos hids, valueAt_unsettled]
    simp [hids]
  · rw [if_neg hids, if_neg (fun h => hids h.1)]

variable {depth : Nat} {shown : List Artifact} {ids : List ArtifactId} {texts : List String}
  {b : Artifact} {r : Dict}

theorem Tracked.link (h : Tracked O t a depth shown ids texts b r) {place : Place} {text : String}
    {linked : Locator} (hown : OwnLink O t b place text) (htarget : target text = .ok linked) :
    (∃ es, valueAt r place = some (.map es)) ↔ ¬ (ids = [a.id] ∧ place.1 ∈ Settled.IDENTITY) ∧
      linked.place = [] ∧ t.holds linked.id = true ∧ ids.length ≤ depth ∧ text ∉ texts := by
  obtain ⟨es, s, hresolved, _, hr⟩ := h.run
  rw [valueAt_tracked hr place]
  by_cases hgone : ids = [a.id] ∧ place.1 ∈ Settled.IDENTITY
  · rw [if_pos hgone]
    exact ⟨fun ⟨_, h⟩ => (nomatch h), fun ⟨h, _⟩ => absurd hgone h⟩
  rw [if_neg hgone]
  have hwithin := h.within
  rcases resolved_link h.held hresolved hown htarget with ⟨hat, hleft⟩ | ⟨left, es', s', hdepth,
    hplace, hpath, hheld, _, hat, _⟩
  · rw [hat]
    refine ⟨fun ⟨_, h⟩ => (nomatch h), fun ⟨_, hplace, hheld, hle, hpath⟩ => ?_⟩
    rcases hleft with hdepth | hpart | hon | hnot
    · omega
    · exact absurd hplace hpart
    · exact absurd hon hpath
    · rw [hheld] at hnot
      cases hnot
  · exact ⟨fun _ => ⟨hgone, hplace, hheld, by omega, hpath⟩, fun _ => ⟨es', hat⟩⟩

theorem Tracked.inside (h : Tracked O t a depth shown ids texts b r) (hids : ids ≠ [])
    {c : Artifact} {place : Place} {text : String} {es : Dict} (hpoints : Points O t b place text c)
    (hat : valueAt r place = some (.map es)) :
    Tracked O t a depth shown (c.id :: ids) (text :: texts) c es := by
  obtain ⟨hown, htarget, hc⟩ := hpoints
  obtain ⟨es', s, hresolved, hs, hr⟩ := h.run
  have hwithin := h.within
  rw [valueAt_tracked hr place] at hat
  split at hat
  · cases hat
  rcases resolved_link h.held hresolved hown htarget with ⟨hleft, _⟩ | ⟨left, es'', s', hdepth, _,
    _, _, hresolved', hat', hs'⟩
  · rw [hleft] at hat
    cases hat
  · rw [hat'] at hat
    cases hat
    refine ⟨hc, ?_, es, s', ?_, fun x hx => hs (hs' hx), ?_⟩
    · rw [List.length_cons]
      omega
    · have hleft : depth + 1 - (c.id :: ids).length = left := by
        rw [List.length_cons]
        omega
      rw [hleft]
      exact hresolved'
    · rw [if_neg fun hone => hids (List.cons_eq_cons.mp hone).2]

end Tracking

/-! ## What is filled in, put back -/

section Restoring

end Restoring

/-! ## What a whole read fills in -/

section Filling

variable {O : Outside} {t : Tables} {a : Artifact} {depth : Nat}

end Filling

namespace Marked

open Sample

def type : ArtifactId := ⟨"https://kb.io/l", by decide⟩
def version : Version := ⟨type, 1, Nat.one_pos, by decide⟩
def bearer : ArtifactId := ⟨"https://kb.io/l/a", by decide⟩

def schema : Value :=
  .map [(.text "properties",
    .map [(.text "next",
    .map [(.text "ref", .map [(.text "targets", .list [.text "https://kb.io/l"]),
    (.text "cardinality", .text "one"), (.text "parts", .scalar (.bool false)),
      (.text "on_delete", .text "refuse")])])])]

/-- An artifact that links to itself, its link written with a `#` that no part follows. -/
def operations : List Operation :=
  [.create type Start.METASCHEMA_VERSION "L" [] { tree := .map [(.text "schema", schema)] } [],
   .create bearer version "A" [] { tree := .map [(.text "next", .text "https://kb.io/l/a#")] } []]

def store : Tables := storeWith outside operations

def stored : Artifact := ⟨bearer, version, 1, "A", [(.text "next", .text "https://kb.io/l/a#")]⟩

def link : Place := (.text "next", none)

/-- The artifact read whole, its links followed one step. -/
def read : Whole := (whole outside store bearer 1).toOption.getD ⟨[], []⟩

def filledIn : Value → Bool
  | .map _ => true
  | _ => false

theorem ran : (ranWith outside operations).isSome = true ∧ store.artifact bearer = some stored ∧
    (whole outside store bearer 1).toOption.isSome = true ∧
    (ownFields outside store stored).toOption = some [.text "next"] ∧
    (valueAt read.content link).any filledIn = true ∧
    restored [.text "next"] read.content = [(.text "next", .text "https://kb.io/l/a")] := by
  decide +kernel

end Marked

end Kb.Read
