/-
# `Kb.Itemised` — items and their names, after every operation

An operation that puts an artifact in the draft names its items and puts its entries in the order
its type declares, and versioning puts them in order once more.  What the names of the items are is
read off what the operation brought (`Brings`): every one plain, just when no item it names has a
title that leaves nothing to make a name from.
-/
import Kb.ReadingOrder
import Kb.Declaring
import Kb.Run

namespace Kb

open Raising

/-! ## What naming and order leave -/

namespace ItemNames

variable {inner : Value → Raises Dict}

/-- What becomes of the items of what is brought, in every declared collection: they carry names
that are fit to, and what is left there has the names they take, each another. -/
structure Brings (inner : Value → Raises Dict) (parts content left : Dict) : Prop where
  nothing : ∀ path collection, Declares inner parts path collection →
    listAt path collection content = none →
    Settled.namesAt path collection left = none
  named : ∀ path collection vs, Declares inner parts path collection →
    listAt path collection content = some vs →
    Fit vs [] ∧ ∃ vs', Settled.namesAt path collection left = some (vs'.map idOf) ∧
      List.Forall₂ Takes vs vs' ∧
      (carried vs').Nodup

theorem Brings.moved {parts content left landed : Dict} (h : Brings inner parts content left)
    (hmoved : ∀ path collection, Declares inner parts path collection →
      Settled.namesAt path collection landed = Settled.namesAt path collection left) :
        Brings inner parts content landed where
  nothing path collection hdeclares hnone :=
    (hmoved path collection hdeclares).trans (h.nothing path collection hdeclares hnone)
  named path collection vs hdeclares hvs := by
    rw [hmoved path collection hdeclares]
    exact h.named path collection vs hdeclares hvs

/-- The items named of a node whose names are fit in every declared collection are what becomes of
them. -/
theorem brings_items (hinner : ∀ part ps, inner part = .ok ps → (Assoc.keys ps).Nodup) {depth : Nat}
    {parts node node' : Dict} (hparts : (Assoc.keys parts).Nodup)
    (h : items inner depth parts node = .ok node')
    (hfit : ∀ path collection vs, Declares inner parts path collection →
      listAt path collection node = some vs → Fit vs []) :
    Brings inner parts node node' where
  nothing path collection hdeclares hnone := by
    rw [Settled.namesAt, (items_listAt hinner hparts h hdeclares).1 hnone]
    rfl
  named path collection vs hdeclares hvs := by
    obtain ⟨hplain, hnodup⟩ := hfit path collection vs hdeclares hvs
    obtain ⟨vs', hvs', htakes, hother⟩ := (items_listAt hinner hparts h hdeclares).2 vs hvs
    refine ⟨⟨hplain, hnodup⟩, vs', by
      rw [Settled.namesAt, hvs']; rfl, htakes, hother (fun v hv => ?_) hnodup⟩
    obtain ⟨t, ht, _⟩ := hplain v hv
    exact ⟨t, ht⟩

theorem Brings.of_listAt {parts content content' left left' : Dict}
    (h : Brings inner parts content left)
    (hcontent : ∀ path collection, Declares inner parts path collection →
      listAt path collection content' = listAt path collection content)
    (hleft : ∀ path collection, Declares inner parts path collection →
      listAt path collection left' = listAt path collection left) :
    Brings inner parts content' left' where
  nothing path collection hdeclares hnone := by
    rw [Settled.namesAt, hleft path collection hdeclares]
    exact h.nothing path collection hdeclares
      ((hcontent path collection hdeclares).symm.trans hnone)
  named path collection vs hdeclares hvs := by
    rw [Settled.namesAt, hleft path collection hdeclares]
    exact h.named path collection vs hdeclares ((hcontent path collection hdeclares).symm.trans hvs)

end ItemNames

namespace Settled

open ItemNames

theorem get_unsettled (d : Dict) (k : Scalar) :
    Assoc.get (unsettled d) k = if k ∈ IDENTITY then none else Assoc.get d k := by
  unfold unsettled
  induction d with
  | nil => simp
  | cons e d ih =>
      obtain ⟨j, v⟩ := e
      by_cases hj : j ∈ IDENTITY
      · rw [List.filter_cons_of_neg (by simpa using hj), ih, Assoc.get_cons]
        by_cases hk : k ∈ IDENTITY
        · rw [if_pos hk, if_pos hk]
        · rw [if_neg hk, if_neg hk, if_neg fun h : j = k => hk (h ▸ hj)]
      · rw [List.filter_cons_of_pos (by simpa using hj), Assoc.get_cons, Assoc.get_cons, ih]
        by_cases hk : j = k
        · rw [if_pos hk, if_pos hk, if_neg (hk ▸ hj)]
        · rw [if_neg hk, if_neg hk]

theorem listAt_unsettled (d : Dict) (path : List (Scalar × Nat)) (collection : Scalar) :
    listAt path collection (unsettled d) = if top path collection ∈ IDENTITY then none
      else listAt path collection d := by
  split
  · next hown =>
      refine listAt_none fun vs hvs => ?_
      rw [get_unsettled, if_pos hown] at hvs
      nomatch hvs
  · next hown => exact listAt_congr (by rw [get_unsettled, if_neg hown])

/-- What becomes of a node's items becomes of them without the entries that name the artifact. -/
theorem brings_unsettled {inner : Value → Raises Dict} {parts content left : Dict}
    (h : Brings inner parts content left) :
    Brings inner parts (unsettled content) (unsettled left) where
  nothing path collection hdeclares hnone := by
    rw [listAt_unsettled] at hnone
    rw [namesAt, listAt_unsettled]
    split
    · rfl
    · next hown => exact h.nothing path collection hdeclares (by rwa [if_neg hown] at hnone)
  named path collection vs hdeclares hvs := by
    rw [listAt_unsettled] at hvs
    rw [namesAt, listAt_unsettled]
    split at hvs
    · nomatch hvs
    · next hown =>
        rw [if_neg hown]
        exact h.named path collection vs hdeclares hvs

end Settled

namespace Naming

open ItemNames

/-- The number a type's content is given moves no item in it. -/
theorem numbered_listAt {O : Outside} {d d' : Draft} {type : ArtifactId} {content content' : Dict}
    (h : numbered O d type content = .ok (content', d')) (path : List (Scalar × Nat))
    (collection : Scalar) :
    listAt path collection content' = listAt path collection content := by
  unfold numbered at h
  obtain ⟨⟨number, d₁⟩, _, h⟩ := bind_ok.mp h
  simp only at h
  cases h
  by_cases hlist : ∃ vs, Dict.get? content "version" = some (.list vs)
  · obtain ⟨vs, hvs⟩ := hlist
    rw [hvs]
    rfl
  · split_ifs
    · exact listAt_set (v := .scalar number) nofun (fun vs hvs => hlist ⟨vs, hvs⟩) path collection
    · rfl

end Naming

/-! ## What an operation brings -/

namespace Edits

open Kb.Composition

variable (O : Outside) (d : Draft)

/-- What an operation makes its artifact's content, before its items are named and its entries put
in order. -/
def brought : Operation → Raises Dict
  | .create _ _ _ _ content _ => do .ok (Settled.unsettled (← entries content.tree))
  | .replace locator content _ _ => do
      let now ← current d locator.id
      .ok (Settled.unsettled (← if locator.place.isEmpty then entries content.tree
        else placed now locator content.tree))
  | .add locator item _ => do
      let now ← current d locator.id
      match ← resolve now.content locator with
      | .item _ _ _ => refuse [Refusals.notACollection locator]
      | .entry path key =>
          let items := match Dict.get? (Places.holderAt path now.content) key with
            | some (.list vs) => vs
            | _ => []
          .ok (Settled.unsettled
            (Places.changeAt (fun holder => Dict.set holder key (.list (items ++ [item.tree])))
            path now.content))
  | .import_ _ a => .ok a.content
  | .remove locator _ => refuse [Refusals.wholeOnly locator]
  | .refusal fs => refuse fs

/-- What the version of its type an operation's artifact conforms to declares, as the operation
reads it. -/
def readsAs : Operation → Raises Declared
  | .create _ version _ _ _ _ => under version
  | .replace locator _ _ version => do
      let now ← current d locator.id
      under (version.getD now.type)
  | .add locator _ _ => do
      let now ← current d locator.id
      under now.type
  | .import_ _ a => under a.type
  | .remove _ _ => .ok {}
  | .refusal fs => refuse fs
where
  under (version : Version) : Raises Declared := do
    declared O d.corpus (← (← versionSchema d.corpus version).schema)

variable {O d}

theorem endsAt_eq {id : ArtifactId} {now : Artifact} {named : Option Version} {version : Version}
    (h : endsAt d id now named = .ok version) : version = named.getD now.type := by
  unfold endsAt at h
  split at h
  · exact (Except.ok.inj h).symm
  · split at h
    · exact (Except.ok.inj h).symm
    · nomatch h

theorem replace_brought {locator : Locator} {content : Content} {expected : Option Int}
    {version : Option Version} {put : Put}
    (h : replace O d locator content expected version = .ok put) :
    ∃ now type a tree named counted, Revises O d locator.id
      (version.getD now.type) put now type a tree named counted ∧
      brought d (.replace locator content expected version) = .ok (Settled.unsettled tree) := by
  unfold replace at h
  obtain ⟨⟨⟩, hread, h⟩ := bind_ok.mp h
  simp only at h
  split at h
  · nomatch h
  obtain ⟨now, hnow, h⟩ := bind_ok.mp h
  have hrest : ∀ tree, (do
      let out ← revise O d locator.id now tree (← endsAt d locator.id now version)
      .ok { op := .write, path := Names.placed locator.place, faults := out.2.1, draft := out.1 } :
        Raises Put) = .ok put →
      ∃ type a named counted,
          Revises O d locator.id (version.getD now.type) put now type a tree named counted := by
    intro tree h
    obtain ⟨v, hv, h⟩ := bind_ok.mp h
    obtain ⟨out, hout, h⟩ := bind_ok.mp h
    have hput := Except.ok.inj h
    subst hput
    obtain ⟨type, a, named, counted, hrev⟩ :=
      revise_ok hout .write (Names.placed locator.place) "" (Or.inl rfl)
      (asRead_ok.mp hread).1 (current_ok.mp hnow) (endsAt_ok hv)
    rw [endsAt_eq hv] at hrev
    exact ⟨type, a, named, counted, hrev⟩
  split at h
  · next hplace =>
      obtain ⟨tree, htree, h⟩ := bind_ok.mp h
      obtain ⟨type, a, named, counted, hrev⟩ := hrest tree h
      refine ⟨now, type, a, tree, named, counted, hrev, bind_ok.mpr ⟨now, hnow, ?_⟩⟩
      simp only [hplace, if_true]
      exact bind_ok.mpr ⟨tree, htree, rfl⟩
  · next hplace =>
      obtain ⟨tree, htree, h⟩ := bind_ok.mp h
      obtain ⟨type, a, named, counted, hrev⟩ := hrest tree h
      refine ⟨now, type, a, tree, named, counted, hrev, bind_ok.mpr ⟨now, hnow, ?_⟩⟩
      simp only [hplace]
      exact bind_ok.mpr ⟨tree, htree, rfl⟩

theorem append_brought {locator : Locator} {item : Content} {expected : Option Int} {put : Put}
    (h : append O d locator item expected = .ok put) :
    ∃ now type a tree named counted,
      Revises O d locator.id now.type put now type a tree named counted ∧
      brought d (.add locator item expected) = .ok (Settled.unsettled tree) := by
  unfold append at h
  obtain ⟨⟨⟩, hread, h⟩ := bind_ok.mp h
  simp only at h
  split at h
  · nomatch h
  split at h
  · nomatch h
  obtain ⟨now, hnow, h⟩ := bind_ok.mp h
  obtain ⟨spot, hspot, h⟩ := bind_ok.mp h
  have hrest : ∀ (tree : Dict) (added : Draft × List Fault × Dict → Value), (do
      let out ← revise O d locator.id now tree now.type
      let name ← itemName (added out)
      .ok { op := .append, path := Names.placed (locator.place ++ name.toList),
            item := name.getD "", faults := out.2.1,
            draft := out.1 } : Raises Put) = .ok put →
      ∃ type a named counted,
          Revises O d locator.id now.type put now type a tree named counted := by
    intro tree added h
    obtain ⟨out, hout, h⟩ := bind_ok.mp h
    obtain ⟨name, _, h⟩ := bind_ok.mp h
    have hput := Except.ok.inj h
    subst hput
    obtain ⟨type, a, named, counted, hrev⟩ :=
      revise_ok hout .append (Names.placed (locator.place ++ name.toList))
      (name.getD "") (Or.inr rfl) (asRead_ok.mp hread).1 (current_ok.mp hnow) (Or.inl rfl)
    exact ⟨type, a, named, counted, hrev⟩
  split at h
  · obtain ⟨_, _, h⟩ := bind_ok.mp h
    nomatch h
  next path key =>
  obtain ⟨collections, _, h⟩ := bind_ok.mp h
  split at h
  · nomatch h
  have hbrings : ∀ items, (match Dict.get? (Places.holderAt path now.content) key with
      | some (.list vs) => vs
      | _ => []) = items → brought d (.add locator item expected) =
        .ok (Settled.unsettled
            (Places.changeAt (fun holder => Dict.set holder key (.list (items ++ [item.tree]))) path
            now.content)) := by
    rintro _ rfl
    exact bind_ok.mpr ⟨now, hnow, bind_ok.mpr ⟨_, hspot, rfl⟩⟩
  split at h
  · next hnone =>
      obtain ⟨_, hitems, h⟩ := bind_ok.mp h
      cases hitems
      obtain ⟨type, a, named, counted, hrev⟩ := hrest _ _ h
      exact ⟨now, type, a, _, named, counted, hrev, hbrings [] (by rw [hnone])⟩
  · next vs hvs =>
      obtain ⟨_, hitems, h⟩ := bind_ok.mp h
      cases hitems
      obtain ⟨type, a, named, counted, hrev⟩ := hrest _ _ h
      exact ⟨now, type, a, _, named, counted, hrev, hbrings vs (by rw [hvs])⟩
  · nomatch h

/-! ## What each operation leaves -/

open ItemNames

theorem inner_parts {corpus : Corpus} (part : Value) (ps : Dict)
    (h : inner O corpus part = .ok ps) : (Assoc.keys ps).Nodup := by
  obtain ⟨schema, _, h⟩ := bind_ok.mp h
  obtain ⟨whole, hwhole, h⟩ := bind_ok.mp h
  cases h
  exact (declared_keys hwhole).2

/-- The faultless naming of a new artifact's items. -/
theorem items_brings {id : ArtifactId} {whole : Declared} {schema : Value} {content named : Dict}
    (hwhole : declared O d.corpus schema = .ok whole)
    (h : Naming.items O d id whole content = .ok ([], named)) :
    Brings (inner O d.corpus) whole.parts content named := by
  obtain ⟨misnamed, hgiven, h⟩ := bind_ok.mp h
  split at h
  · next hnil =>
      obtain ⟨_, hitems, h⟩ := bind_ok.mp h
      cases h
      rw [List.isEmpty_iff.mp hnil] at hgiven
      exact brings_items inner_parts (declared_keys hwhole).2 hitems fun _ _ _ hdeclares =>
        given_fit hgiven hdeclares
  · next hne =>
      refine absurd ?_ hne
      have hmap := congrArg Prod.fst (Except.ok.inj h)
      rw [List.map_eq_nil_iff.mp hmap]
      rfl

/-- The faultless naming of a revised artifact's items: and each name they hand back was held. -/
theorem revised_brings {id : ArtifactId} {whole : Declared} {schema : Value}
    {content current named : Dict} (hwhole : declared O d.corpus schema = .ok whole)
    (h : Naming.revised O d id whole content current = .ok ([], named)) :
    Brings (inner O d.corpus) whole.parts content named ∧
      ∀ held name, Carries (inner O d.corpus) whole.parts content current held name →
        ∃ t es, name = .text t ∧ .map es ∈ held ∧ Dict.get? es "id" = some (.text t) := by
  obtain ⟨misnamed, hback, h⟩ := bind_ok.mp h
  split at h
  · next hnil =>
      obtain ⟨_, hitems, h⟩ := bind_ok.mp h
      cases h
      rw [List.isEmpty_iff.mp hnil] at hback
      refine ⟨?_, fun held name hcarries => handedBack_held hback hcarries⟩
      exact brings_items inner_parts (declared_keys hwhole).2 hitems fun _ _ _ hdeclares =>
        handedBack_fit hback hdeclares
  · next hne =>
      refine absurd ?_ hne
      have hmap := congrArg Prod.fst (Except.ok.inj h)
      rw [List.map_eq_nil_iff.mp hmap]
      rfl

theorem Numbers.listAt {d' : Draft} {id : ArtifactId} {kind : Kind} {content content' : Dict}
    (h : Numbers O d id kind content content' d') (path : List (Scalar × Nat))
    (collection : Scalar) :
    listAt path collection content' = listAt path collection content := by
  unfold Numbers at h
  split at h
  · exact Naming.numbered_listAt h path collection
  · rw [h.1]

/-- Entries named and numbered, put in order: what becomes of the items is what became of them as
they were named. -/
theorem brings_ordered {corpus : Corpus} {whole : Declared} {content named counted : Dict}
    {id : ArtifactId} {version : Version} {revision : Int} {title : String} {a : Artifact}
    (h : Brings (inner O corpus) whole.parts content named)
    (hcounted : ∀ path collection, listAt path collection counted = listAt path collection named)
    (ha : Settled.order (Settled.given counted id version revision title) whole = .ok a) :
    Brings (inner O corpus) whole.parts (Settled.unsettled content) a.content ∧
      ∀ k ∈ Settled.IDENTITY, Assoc.get a.content k = none := by
  have hnone : ∀ k ∈ Settled.IDENTITY, Assoc.get (Settled.unsettled counted) k = none := by
    intro k hk
    rw [Settled.get_unsettled, if_pos hk]
  constructor
  · have hleft : Brings (inner O corpus) whole.parts content counted :=
      h.of_listAt (fun _ _ _ => rfl) fun path collection _ => hcounted path collection
    refine (Settled.brings_unsettled hleft).moved fun path collection hdeclares => ?_
    exact Settled.order_namesAt ha (Or.inr (Or.inr hdeclares.top_mem))
  · intro k hk
    have hsorted := Settled.order_sorted ha (Or.inr (Or.inl (hnone k hk)))
    rw [show Assoc.get (Settled.given counted id version revision title).content k = none
      from hnone k hk] at hsorted
    generalize Assoc.get a.content k = o at hsorted ⊢
    cases hsorted
    rfl

/-- The place of the artifact a replacement changes. -/
def replaced : Operation → Option Locator
  | .replace locator _ _ _ => some locator
  | _ => none

theorem changed_brings {op : Operation} {id : ArtifactId} {put : Put} {a : Artifact}
    (h : changed O d op = .ok (id, put)) (ha : put.draft.artifact id = some a)
    (hf : put.faults = []) :
    ∃ content whole, brought d op = .ok content ∧ readsAs O d op = .ok whole ∧
      Brings (inner O d.corpus) whole.parts content a.content ∧
      (put.op ≠ .import_ → ∀ k ∈ Settled.IDENTITY, Assoc.get a.content k = none) ∧
      ∀ locator now held name, replaced op = some locator → d.artifact locator.id = some now →
        Carries (inner O d.corpus) whole.parts content now.whole held name →
        ∃ es, .map es ∈ held ∧ Dict.get? es "id" = some name := by
  have hcarries : ∀ {parts content before : Dict} {held : List Value} {name : Value},
      Carries (inner O d.corpus) parts (Settled.unsettled content) before held name →
      Carries (inner O d.corpus) parts content before held name := by
    intro parts content before held name h
    have hlisted : ∀ collection v, v ∈ listed (Settled.unsettled content) collection →
        v ∈ listed content collection := by
      intro collection v hv
      unfold listed at hv ⊢
      rw [Settled.get_unsettled] at hv
      split_ifs at hv with hown
      · cases hv
      · exact hv
    cases h with
    | here hpart hes hid => exact .here hpart (hlisted _ _ hes) hid
    | inside hpart hes hps h => exact .inside hpart (hlisted _ _ hes) hps h
  have hrevises : ∀ {id version now type b tree named counted},
      Revises O d id version put now type b tree named counted →
      put.draft.artifact id = some a → ∃ whole, readsAs.under O d version = .ok whole ∧
        Brings (inner O d.corpus) whole.parts (Settled.unsettled tree) a.content ∧
        (∀ k ∈ Settled.IDENTITY, Assoc.get a.content k = none) ∧
        ∀ held name,
          Carries (inner O d.corpus) whole.parts (Settled.unsettled tree) now.whole held name →
          ∃ es, .map es ∈ held ∧ Dict.get? es "id" = some name := by
    intro id version now type b tree named counted hr ha
    obtain ⟨d₁, hnumbers, hdraft⟩ := hr.numbered
    rw [hdraft, Draft.put_artifact_self] at ha
    cases ha
    obtain ⟨schema, whole, hschema, hwhole, hnamed, hb⟩ := hr.items
    rw [hf] at hnamed
    obtain ⟨hbrings, hheld⟩ := revised_brings hwhole hnamed
    obtain ⟨hleft, hown⟩ := brings_ordered hbrings hnumbers.listAt hb
    refine ⟨whole, bind_ok.mpr ⟨type, hr.conforms, bind_ok.mpr ⟨schema, hschema, hwhole⟩⟩, hleft,
      hown, fun held name h => ?_⟩
    obtain ⟨t, es, rfl, hes, hid⟩ := hheld held name (hcarries h)
    exact ⟨es, hes, hid⟩
  cases op with
  | refusal fs => cases h
  | remove locator expected => cases h
  | create name version title titleFaults content carried =>
      obtain ⟨put', hcreate, h⟩ := bind_ok.mp h
      cases h
      obtain ⟨type, b, tree, counted, named, hc⟩ := create_ok hcreate
      obtain ⟨d₁, hnumbers, hdraft⟩ := hc.numbered
      rw [hdraft, Draft.put_artifact_self] at ha
      cases ha
      obtain ⟨schema, whole, hschema, hwhole, hnamed, hb⟩ := hc.items
      rw [hf] at hnamed
      have hbrings :=
        (items_brings hwhole hnamed).of_listAt (fun path collection _ =>
        (hnumbers.listAt path collection).symm)
        fun _ _ _ => rfl
      obtain ⟨hleft, hown⟩ := brings_ordered hbrings (fun _ _ => rfl) hb
      refine ⟨Settled.unsettled tree, whole, ?_, ?_, hleft, fun _ => hown,
        fun _ _ _ _ h => by cases h⟩
      · show (do .ok (Settled.unsettled (← entries content.tree)) : Raises Dict) = _
        rw [hc.wellFormed.2]
        rfl
      · exact bind_ok.mpr ⟨type, hc.conforms, bind_ok.mpr ⟨schema, hschema, hwhole⟩⟩
  | replace locator content expected version =>
      obtain ⟨put', hreplace, h⟩ := bind_ok.mp h
      cases h
      obtain ⟨now, type, b, tree, named, counted, hr, hbrought⟩ := replace_brought hreplace
      obtain ⟨whole, hwhole, hleft, hown, hheld⟩ := hrevises hr ha
      refine ⟨_, whole, hbrought, bind_ok.mpr ⟨now, current_ok.mpr hr.stands, hwhole⟩, hleft,
        fun _ => hown, ?_⟩
      rintro _ now' held name ⟨⟩ hnow'
      cases hr.stands.symm.trans hnow'
      exact hheld held name
  | add locator item expected =>
      obtain ⟨put', happend, h⟩ := bind_ok.mp h
      cases h
      obtain ⟨now, type, b, tree, named, counted, hr, hbrought⟩ := append_brought happend
      obtain ⟨whole, hwhole, hleft, hown, hheld⟩ := hrevises hr ha
      exact ⟨_, whole, hbrought, bind_ok.mpr ⟨now, current_ok.mpr hr.stands, hwhole⟩, hleft,
        fun _ => hown, fun _ _ _ _ h => by cases h⟩
  | import_ id' brought =>
      obtain ⟨put', himport, h⟩ := bind_ok.mp h
      cases h
      obtain ⟨b, hb, hop, hdraft⟩ := import_ok himport
      rw [hdraft, Draft.put_artifact_self] at ha
      cases ha
      obtain ⟨type, htype, hb⟩ := bind_ok.mp hb
      obtain ⟨schema, hschema, hb⟩ := bind_ok.mp hb
      obtain ⟨whole, hwhole, hb⟩ := bind_ok.mp hb
      obtain ⟨⟨misnamed, named⟩, hnamed, hb⟩ := bind_ok.mp hb
      obtain ⟨c, hc, hb⟩ := bind_ok.mp hb
      have hfaults := congrArg Prod.snd (Except.ok.inj hb)
      have hleft := congrArg Prod.fst (Except.ok.inj hb)
      simp only [hf] at hfaults hleft
      subst hfaults hleft
      refine ⟨_, whole, rfl, bind_ok.mpr ⟨type, htype, bind_ok.mpr ⟨schema, hschema, hwhole⟩⟩, ?_,
        fun h => absurd hop h, fun _ _ _ _ h => by cases h⟩
      refine (items_brings hwhole hnamed).moved fun path collection hdeclares => ?_
      exact Settled.order_namesAt hc (Or.inr (Or.inr hdeclares.top_mem))

/-- What an operation that acted did to the draft, when it put something. -/
theorem acted_changed {op : Operation} {d' : Draft} {c : Done} {a : Artifact}
    (h : acted O d op = .ok (d', .change c)) (hleft : c.left = some a) :
    ∃ id put, changed O d op = .ok (id, put) ∧ put.draft.artifact id = some a ∧
      c.faults = put.faults ∧ c.op = put.op := by
  have hput : ∀ {x : Raises (ArtifactId × Put)}, acted O d op = settle d (do
      let p ← x
      let left ← current p.2.draft p.1
      settle p.2.draft do
        let acted ← conformed p.2.draft.corpus left
        .ok (p.2.draft, .change
          ⟨p.2.op, p.1, p.2.path, p.2.item, left.revision, left.type, some left, some acted,
            p.2.faults⟩)) →
      ∃ id put, x = .ok (id, put) ∧ put.draft.artifact id = some a ∧ c.faults = put.faults ∧
          c.op = put.op := by
    intro x he
    rw [he] at h
    obtain ⟨⟨id, put⟩, hchanged, h⟩ := bind_ok.mp (settle_change h)
    obtain ⟨left, hcurrent, h⟩ := bind_ok.mp h
    obtain ⟨_, _, h⟩ := bind_ok.mp (settle_change h)
    cases h
    cases hleft
    exact ⟨id, put, hchanged, current_ok.mp hcurrent, rfl, rfl⟩
  cases op with
  | refusal fs => nomatch h
  | remove locator expected =>
      obtain ⟨out, hout, h⟩ := bind_ok.mp (settle_change h)
      obtain ⟨_, _, _, rfl⟩ := delete_ok hout
      cases h
      nomatch hleft
  | create => exact hput rfl
  | replace => exact hput rfl
  | add => exact hput rfl
  | import_ => exact hput rfl

end Edits

namespace Drafting

open ItemNames Edits Kb.Composition

variable {O : Outside}

theorem actedAll_append {d left : Draft} {first : List Operation} {op : Operation}
    {rest : List Operation} {outcomes : List Outcome}
    (h : actedAll O d (first ++ op :: rest) = .ok (left, outcomes)) {before after : Draft}
    {made : List Outcome} {outcome : Outcome} (hfirst : actedAll O d first = .ok (before, made))
    (hop : acted O before op = .ok (after, outcome)) :
    ∃ others, outcomes = made ++ outcome :: others := by
  induction first generalizing d outcomes made with
  | nil =>
      cases hfirst
      obtain ⟨⟨d₁, o⟩, ho, h⟩ := bind_ok.mp h
      cases hop.symm.trans ho
      obtain ⟨⟨d₂, others⟩, _, h⟩ := bind_ok.mp h
      cases h
      exact ⟨others, rfl⟩
  | cons each first ih =>
      obtain ⟨⟨d₁, o⟩, ho, h⟩ := bind_ok.mp h
      obtain ⟨⟨d₂, all⟩, hall, h⟩ := bind_ok.mp h
      cases h
      obtain ⟨⟨d₁', o'⟩, ho', hfirst⟩ := bind_ok.mp hfirst
      cases ho.symm.trans ho'
      obtain ⟨⟨d₃, made'⟩, hmade, hfirst⟩ := bind_ok.mp hfirst
      cases hfirst
      obtain ⟨others, rfl⟩ := ih hall hmade
      exact ⟨others, rfl⟩

/-- Each change is handed with the artifact it left as it was versioned. -/
theorem Passes.versions {t : Tables} {operations : List Operation} {d : Drafted} {left : Draft}
    {outcomes : List Outcome} {read : List Int} {plain : List Change}
    (h : Passes O t operations d left outcomes read plain) :
    List.Forall₂ (fun c g => ∃ d₁ last d₂ c', Handing.versioned O d₁ c last = .ok (d₂, c') ∧
      g.content = c'.left)
      (changesOf outcomes) d.handed := by
  have hversioned : ∀ {cs : List (Done × Bool)} {d d' : Draft} {cs' : List Done},
      versionedAll O d cs = .ok (d', cs') →
      List.Forall₂ (fun c c' => ∃ d₁ last d₂, Handing.versioned O d₁ c last = .ok (d₂, c'))
          (cs.map Prod.fst) cs' := by
    intro cs
    induction cs with
    | nil =>
        intro d d' cs' h
        cases h
        exact .nil
    | cons p rest ih =>
        intro d d' cs' h
        obtain ⟨⟨d₁, c⟩, hc, h⟩ := bind_ok.mp h
        obtain ⟨⟨d₂, cs⟩, hcs, h⟩ := bind_ok.mp h
        cases h
        exact .cons ⟨_, _, _, hc⟩ (ih hcs)
  have hmade := hversioned h.versioned
  have hread := readAt_ok h.asRead
  have hplain := h.byOne
  rw [h.handed]
  unfold Standing.guarded
  simp only [List.forall₂_map_right_iff]
  rw [lasts_map_fst] at hmade
  generalize d.changes = changes at hmade hread hplain
  generalize changesOf outcomes = made at hmade
  clear h
  induction hmade generalizing read plain with
  | nil =>
      cases hplain
      exact .nil
  | @cons c c' made changes hc hrest ih =>
      cases hread with
      | @cons _ r _ read hr hrest' =>
          rw [lasts, List.zip_cons_cons] at hplain
          cases hplain with
          | @cons _ g _ plain hg hplain =>
              obtain ⟨d₁, last, d₂, hc⟩ := hc
              exact .cons ⟨d₁, last, d₂, c', hc, (Handing.handed_ok hg).alike.2.1⟩
                (ih hrest' hplain)

/-- Faults put in order are none only when there were none. -/
theorem inOrder_nil {d : Draft} {c : Done} {left : Artifact} {fs : List Fault}
    (h : inOrder O d c left fs = .ok []) : fs = [] := by
  unfold inOrder at h
  split at h
  · exact Except.ok.inj h
  split at h
  · exact Except.ok.inj h
  · nomatch h
  · exact (FaultOrder.ordered_inside h).1.symm.eq_nil

/-- A change without a fault gave or handed back no name at fault. -/
theorem faults_nil {d : Draft} {c : Done} {a : Artifact} (h : faults O d (.change c) = .ok [])
    (hleft : c.left = some a) :
    c.faults = [] := by
  simp only [faults, hleft] at h
  obtain ⟨fits, _, h⟩ := bind_ok.mp h
  have hnil := inOrder_nil h
  split at hnil
  · next hempty => exact (List.append_eq_nil_iff.mp (List.isEmpty_iff.mp hempty.1)).1
  · exact (List.append_eq_nil_iff.mp hnil).1

/-- An operation of a set the store accepts as drafted: the draft it acted on, and what of its
artifact the set lands. -/
def Accepted (O : Outside) (t : Tables) (operations : List Operation) (before : Draft)
    (op : Operation) (landed : Artifact) : Prop :=
  ∃ d first rest outcomes after c g, drafted O t operations = .ok d ∧
    byNumber operations = first ++ op :: rest ∧
    actedAll O { store := t } first = .ok (before, outcomes) ∧
    acted O before op = .ok (after, .change c) ∧
    d.handed[(changesOf outcomes).length]? = some g ∧ g.content = some landed

/-- An operation accepted puts names on the items it brings in the collections of its type: what
lands of them is what became of them. -/
theorem Accepted.brings {t : Tables} {operations : List Operation} {d : Draft} {op : Operation}
    {landed : Artifact} (h : Accepted O t operations d op landed) :
    ∃ content whole, brought d op = .ok content ∧ readsAs O d op = .ok whole ∧
      Brings (inner O d.corpus) whole.parts content landed.content ∧
      ∀ locator now held name, replaced op = some locator → d.artifact locator.id = some now →
        ItemNames.Carries (inner O d.corpus) whole.parts content now.whole held name →
        ∃ es, .map es ∈ held ∧ Dict.get? es "id" = some name := by
  obtain ⟨drafted, first, rest, outcomes, after, c, g, hdrafted, hall, hfirst, hacted,
    hg, hlanded⟩ := h
  obtain ⟨left, all, read, plain, hp⟩ := drafted_ok hdrafted
  have hactedAll := hp.acted
  rw [hall] at hactedAll
  obtain ⟨others, rfl⟩ := actedAll_append hactedAll hfirst hacted
  have hchanges :
      (changesOf (outcomes ++ .change c :: others))[(changesOf outcomes).length]? = some c := by
    simp [changesOf]
  obtain ⟨d₁, last, d₂, c', hversioned, hcontent⟩ : ∃ d₁ last d₂ c', Handing.versioned O d₁ c last =
      .ok (d₂, c') ∧
      g.content = c'.left := by
    obtain ⟨hi, hc⟩ := List.getElem?_eq_some_iff.mp hchanges
    obtain ⟨hj, hg⟩ := List.getElem?_eq_some_iff.mp hg
    have := hp.versions.get hi hj
    rwa [List.get_eq_getElem, List.get_eq_getElem, hc, hg] at this
  have hfaultless := hp.faultless _ (List.mem_append_right outcomes List.mem_cons_self)
  unfold Handing.versioned at hversioned
  split at hversioned
  · next hnone =>
      cases hversioned
      nomatch hnone.symm.trans (hcontent.symm.trans hlanded)
  · next a hleft hop =>
      cases hversioned
      obtain ⟨id, put, hchanged, ha, hf, hput⟩ := acted_changed hacted hleft
      obtain ⟨content, whole, hbrought, hwhole, hbrings, _, hheld⟩ := changed_brings hchanged ha
        (hf.symm.trans (faults_nil hfaultless hleft))
      cases hleft.symm.trans (hcontent.symm.trans hlanded)
      exact ⟨content, whole, hbrought, hwhole, hbrings, hheld⟩
  · next a hleft hop =>
      obtain ⟨id, put, hchanged, ha, hf, hput⟩ := acted_changed hacted hleft
      obtain ⟨content, whole, hbrought, hwhole, hbrings, hown, hheld⟩ := changed_brings hchanged ha
        (hf.symm.trans (faults_nil hfaultless hleft))
      obtain ⟨_, _, hversioned⟩ := bind_ok.mp hversioned
      obtain ⟨_, _, hversioned⟩ := bind_ok.mp hversioned
      split at hversioned
      · nomatch hversioned
      obtain ⟨_, _, hversioned⟩ := bind_ok.mp hversioned
      obtain ⟨declared, _, hversioned⟩ := bind_ok.mp hversioned
      obtain ⟨b, hb, hversioned⟩ := bind_ok.mp hversioned
      cases hversioned
      cases hcontent.symm.trans hlanded
      refine ⟨content, whole, hbrought, hwhole, hbrings.moved fun path collection _ => ?_, hheld⟩
      refine Settled.order_namesAt hb ?_
      by_cases htop : top path collection ∈ Settled.IDENTITY
      · exact Or.inr (Or.inl (hown (fun e => hop (hput.trans e)) _ htop))
      · exact Or.inl htop

namespace Titled

open Sample

def type : ArtifactId := ⟨"https://kb.io/z", by decide⟩
def note : ArtifactId := ⟨"https://kb.io/z/a", by decide⟩
def noteVersion : Version := ⟨type, 1, Nat.one_pos, by decide⟩

/-- A type that declares one collection. -/
def schema : Value :=
  .map [(.text "parts", .map [(.text "notes", .map [(.text "items", .map [])])])]

def defining : Operation :=
  .create type Start.METASCHEMA_VERSION "T" [] { tree := .map [(.text "schema", schema)] } []

/-- A note with one item in it, of a title and no name. -/
def creating (title : String) : Operation :=
  .create note noteVersion "A" []
    { tree := .map [(.text "notes", .list [.map [(.text "title", .text title)]])] } []

def defined : Tables := store [[defining]]

/-- The draft a set on it begins with. -/
def before : Draft := { store := defined }

def landed (title name : String) : Artifact :=
  ⟨note, noteVersion, 1, "A",
    [(.text "notes", .list [.map [(.text "id", .text name), (.text "title", .text title)]])]⟩

/-- What a set of one create that is drafted hands of it. -/
def handed (op : Operation) : Option Artifact :=
  (drafted outside defined [op]).toOption.bind fun d => d.handed[0]?.bind Change.content

/-- What a create that acts on that draft left. -/
def left (op : Operation) : Option Artifact :=
  (acted outside before op).toOption.bind fun
    | (_, .change c) => c.left
    | _ => none

theorem accepted {title : String} {a b : Artifact} (hleft : left (creating title) = some b)
    (hhanded : handed (creating title) = some a) :
    Accepted outside defined [creating title] before (creating title) a := by
  obtain ⟨d, hd, hg⟩ := Option.bind_eq_some_iff.mp hhanded
  obtain ⟨g, hg, ha⟩ := Option.bind_eq_some_iff.mp hg
  obtain ⟨⟨after, outcome⟩, hacted, hc⟩ := Option.bind_eq_some_iff.mp hleft
  cases outcome with
  | faults fs => nomatch hc
  | change c =>
      exact ⟨d, [], [], [], after, c, g, toOption_some hd, rfl, rfl, toOption_some hacted, hg, ha⟩

end Titled

end Drafting

end Kb
