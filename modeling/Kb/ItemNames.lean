/-
# `Kb.ItemNames` — the items of declared collections, and the names they are given

Where an item stands is a path of collections and places in them, and a collection is declared where
a path leads by the types of the items on the way (`Declares`).  What naming leaves of each declared
collection is said once, for any depth: its entries named one for one, and its names each another
where those it carried were (`items_listAt`).  The names carried in are fit to be carried where no
fault is found of them, and a revision's were held before (`given_fit`, `handedBack_fit`,
`handedBack_held`).
-/
import Kb.Slugs
import Kb.Lib.Raising

namespace Kb.ItemNames

open Raising

/-! ## Where items stand -/

/-- The item a path of collections and places leads to. -/
def itemAt : List (Scalar × Nat) → Dict → Option Dict
  | [], es => some es
  | (collection, i) :: path, es => match Assoc.get es collection with
      | some (.list vs) => match vs[i]? with
          | some (.map fs) => itemAt path fs
          | _ => none
      | _ => none

/-- The items of a collection where a path leads, if there is a list there. -/
def listAt (path : List (Scalar × Nat)) (collection : Scalar) (es : Dict) : Option (List Value) :=
  (itemAt path es).bind fun fs => match Assoc.get fs collection with
    | some (.list vs) => some vs
    | _ => none

/-- The entry of a mapping that a collection where a path leads is read through. -/
def top (path : List (Scalar × Nat)) (collection : Scalar) : Scalar :=
  (path.head?.map Prod.fst).getD collection

/-- A collection is declared where a path leads: `parts` are the collections declared at the top. -/
inductive Declares (inner : Value → Raises Dict) : Dict → List (Scalar × Nat) → Scalar → Prop
  | here {parts : Dict} {collection : Scalar} {part : Value} : (collection, part) ∈ parts →
      Declares inner parts [] collection
  | inside {parts ps : Dict} {outer collection : Scalar} {part : Value} {i : Nat}
      {path : List (Scalar × Nat)} :
      (outer, part) ∈ parts → inner part = .ok ps → Declares inner ps path collection →
      Declares inner parts ((outer, i) :: path) collection

/-- The name an entry of a collection carries, if it is an item. -/
def idOf : Value → Option (Option Value)
  | .map es => some (Dict.get? es "id")
  | _ => none

theorem carried_cons (v : Value) (vs : List Value) :
    carried (v :: vs) = ((idOf v).bind id).toList ++ carried vs := by
  rcases v with _ | _ | es
  · rfl
  · rfl
  · show List.filterMap _ _ = (Dict.get? es "id").toList ++ _
    cases hid : Dict.get? es "id" with
    | none => exact List.filterMap_cons_none hid
    | some name => exact List.filterMap_cons_some hid

/-- The entries of what stands under a name, if it is a list. -/
def listIn : Option Value → Option (List Value)
  | some (.list vs) => some vs
  | _ => none

theorem listIn_some {o : Option Value} {vs : List Value} :
    listIn o = some vs ↔ o = some (.list vs) := by
  constructor
  · intro h
    rcases o with _ | _ | _ | _
    · cases h
    · cases h
    · cases h
      rfl
    · cases h
  · rintro rfl
    rfl

theorem listIn_none {o : Option Value} : listIn o = none ↔ ∀ vs, o ≠ some (.list vs) := by
  constructor
  · rintro h vs rfl
    cases h
  · intro h
    rcases o with _ | _ | vs | _
    · rfl
    · rfl
    · exact absurd rfl (h vs)
    · rfl

theorem listAt_nil (collection : Scalar) (es : Dict) :
    listAt [] collection es = listIn (Assoc.get es collection) := rfl

theorem listAt_cons {outer collection : Scalar} {i : Nat} {path : List (Scalar × Nat)} {es : Dict}
    {vs : List Value} (h : listAt [] outer es = some vs) :
    listAt ((outer, i) :: path) collection es = match vs[i]? with
      | some (.map fs) => listAt path collection fs
      | _ => none := by
  rw [listAt, itemAt, listIn_some.mp ((listAt_nil outer es).symm.trans h)]
  simp only
  split <;> rfl

theorem listAt_cons_none {outer collection : Scalar} {i : Nat}
    {path : List (Scalar × Nat)} {es : Dict} (h : listAt [] outer es = none) :
    listAt ((outer, i) :: path) collection es = none := by
  have hnone := listIn_none.mp ((listAt_nil outer es).symm.trans h)
  rw [listAt, itemAt]
  split
  · next vs hvs => exact absurd hvs (hnone vs)
  · rfl

theorem listAt_congr {d e : Dict} {path : List (Scalar × Nat)} {collection : Scalar}
    (h : Assoc.get d (top path collection) = Assoc.get e (top path collection)) :
    listAt path collection d = listAt path collection e := by
  cases path with
  | nil =>
      rw [listAt_nil, listAt_nil, show Assoc.get d collection = Assoc.get e collection from h]
  | cons step path =>
      obtain ⟨outer, i⟩ := step
      have houter : listAt [] outer d = listAt [] outer e := by
        rw [listAt_nil, listAt_nil, show Assoc.get d outer = Assoc.get e outer from h]
      cases hlist : listAt [] outer e with
      | none => rw [listAt_cons_none hlist, listAt_cons_none (houter.trans hlist)]
      | some vs => rw [listAt_cons hlist, listAt_cons (houter.trans hlist)]

theorem listAt_none {d : Dict} {path : List (Scalar × Nat)} {collection : Scalar}
    (h : ∀ vs, Assoc.get d (top path collection) ≠ some (.list vs)) :
    listAt path collection d = none := by
  have htop : ∀ c, (∀ vs, Assoc.get d c ≠ some (.list vs)) → listAt [] c d = none := by
    intro c hc
    rw [listAt_nil]
    exact listIn_none.mpr hc
  cases path with
  | nil => exact htop collection h
  | cons step path => exact listAt_cons_none (htop step.1 h)

theorem Declares.top_mem {inner : Value → Raises Dict} {parts : Dict} {path : List (Scalar × Nat)}
    {collection : Scalar} (h : Declares inner parts path collection) :
    top path collection ∈ Assoc.keys parts := by
  cases h with
  | here hpart => exact List.mem_map.mpr ⟨_, hpart, rfl⟩
  | inside hpart _ _ => exact List.mem_map.mpr ⟨_, hpart, rfl⟩

/-! ## What naming leaves -/

/-- The text an unnamed item's name is made from, at a place. -/
def base (es : Dict) (place : Nat) : String :=
  match title (Dict.get? es "title") with
  | some text => slug text
  | none => toString place

/-- What becomes of one entry of a collection. -/
inductive Becomes (each : Dict → Raises Dict) : Value → Value → Prop
  | kept {es inside : Dict} {name : Value} : Dict.get? es "id" = some name → each es = .ok inside →
      Becomes each (.map es) (.map inside)
  | given {es inside : Dict} (place : Nat) (taken : List Value) : Dict.get? es "id" = none →
      each (Dict.set es "id" (.text (numbered (base es place) taken))) = .ok inside →
      Becomes each (.map es) (.map inside)
  | passed {v : Value} : idOf v = none → Becomes each v v

variable {inner : Value → Raises Dict} {each : Dict → Raises Dict}

theorem named_eq (es : Dict) (place : Nat) (taken : List Value) :
    named es place taken = match Dict.get? es "id" with
      | some _ => (es, taken)
      | none => (Dict.set es "id" (.text (numbered (base es place) taken)),
          taken ++ [.text (numbered (base es place) taken)]) := rfl

theorem itemsIn_becomes {vs vs' : List Value} {place : Nat} {taken : List Value}
    (h : itemsIn each vs place taken = .ok vs') :
    List.Forall₂ (Becomes each) vs vs' := by
  induction vs generalizing place taken vs' with
  | nil =>
      cases h
      exact .nil
  | cons v vs ih =>
      have hpassed : idOf v = none →
          (do .ok (v :: (← itemsIn each vs (place + 1) taken)) : Raises (List Value)) = .ok vs' →
          List.Forall₂ (Becomes each) (v :: vs) vs' := by
        intro hv h
        obtain ⟨rest, hrest, h⟩ := bind_ok.mp h
        cases h
        exact .cons (.passed hv) (ih hrest)
      cases v with
      | scalar s => exact hpassed rfl h
      | list ws => exact hpassed rfl h
      | map es =>
          rw [itemsIn, named_eq] at h
          cases hid : Dict.get? es "id" with
          | some name =>
              rw [hid] at h
              obtain ⟨inside, hinside, h⟩ := bind_ok.mp h
              obtain ⟨rest, hrest, h⟩ := bind_ok.mp h
              cases h
              exact .cons (.kept hid hinside) (ih hrest)
          | none =>
              rw [hid] at h
              obtain ⟨inside, hinside, h⟩ := bind_ok.mp h
              obtain ⟨rest, hrest, h⟩ := bind_ok.mp h
              cases h
              exact .cons (.given place taken hid hinside) (ih hrest)

/-- The names of a collection whose carried names are texts, each another, are each another once all
its items are named: a name an item is given is none of those taken. -/
theorem itemsIn_nodup
    (heach : ∀ es inside t, each es = .ok inside → Dict.get? es "id" = some (.text t) →
      Dict.get? inside "id" = some (.text t))
    {vs vs' : List Value} {place : Nat} {taken : List Value}
    (h : itemsIn each vs place taken = .ok vs') (htext : ∀ v ∈ carried vs, ∃ t, v = .text t)
    (hnodup : (carried vs).Nodup) (htaken : carried vs ⊆ taken) :
    (carried vs').Nodup ∧ ∀ v ∈ carried vs', v ∈ carried vs ∨ v ∉ taken := by
  induction vs generalizing place taken vs' with
  | nil =>
      cases h
      exact ⟨List.nodup_nil, nofun⟩
  | cons v vs ih =>
      have hpassed : idOf v = none →
          (do .ok (v :: (← itemsIn each vs (place + 1) taken)) : Raises (List Value)) = .ok vs' →
          (carried vs').Nodup ∧ ∀ w ∈ carried vs', w ∈ carried (v :: vs) ∨ w ∉ taken := by
        intro hv h
        obtain ⟨rest, hrest, h⟩ := bind_ok.mp h
        cases h
        have hsame : ∀ ws, carried (v :: ws) = carried ws := by
          intro ws
          rw [carried_cons, hv]
          rfl
        rw [hsame] at htext hnodup htaken ⊢
        rw [hsame]
        exact ih hrest htext hnodup htaken
      cases v with
      | scalar s => exact hpassed rfl h
      | list ws => exact hpassed rfl h
      | map es =>
          have hitem : ∀ (es : Dict) ws o, Dict.get? es "id" = o →
              carried (.map es :: ws) = o.toList ++ carried ws := by
            intro es ws o ho
            rw [carried_cons, ← ho]
            rfl
          rw [itemsIn, named_eq] at h
          cases hid : Dict.get? es "id" with
          | some name =>
              rw [hid] at h
              obtain ⟨inside, hinside, h⟩ := bind_ok.mp h
              obtain ⟨rest, hrest, h⟩ := bind_ok.mp h
              cases h
              rw [hitem es vs _ hid] at htext hnodup htaken ⊢
              obtain ⟨t, rfl⟩ := htext name (by simp)
              rw [hitem inside rest _ (heach es inside t hinside hid)]
              obtain ⟨hrestNodup, hnew⟩ :=
                ih hrest (fun v hv => htext v (List.mem_append_right _ hv))
                (List.nodup_append.mp hnodup).2.1 (fun v hv => htaken (List.mem_append_right _ hv))
              refine ⟨List.nodup_cons.mpr ⟨fun hmem => ?_, hrestNodup⟩, fun v hv => ?_⟩
              · rcases hnew _ hmem with hcarried | hfree
                · exact (List.nodup_cons.mp hnodup).1 hcarried
                · exact hfree (htaken List.mem_cons_self)
              · rcases List.mem_cons.mp hv with rfl | hv
                · exact Or.inl List.mem_cons_self
                · exact (hnew v hv).imp (List.mem_cons_of_mem _) id
          | none =>
              rw [hid] at h
              obtain ⟨inside, hinside, h⟩ := bind_ok.mp h
              obtain ⟨rest, hrest, h⟩ := bind_ok.mp h
              cases h
              have hsame : carried (.map es :: vs) = carried vs := hitem es vs _ hid
              rw [hsame] at htext hnodup htaken ⊢
              have hname :=
                Assoc.get_set_self es (.text "id") (Value.text (numbered (base es place) taken))
              rw [hitem inside rest _ (heach _ inside _ hinside hname)]
              have hfree := numbered_free (base es place) taken
              obtain ⟨hrestNodup, hnew⟩ :=
                ih hrest htext hnodup (fun v hv => List.mem_append_left _ (htaken hv))
              refine ⟨List.nodup_cons.mpr ⟨fun hmem => ?_, hrestNodup⟩, fun v hv => ?_⟩
              · rcases hnew _ hmem with hcarried | hfree'
                · exact hfree (htaken hcarried)
                · exact hfree' (List.mem_append_right _ (List.mem_singleton_self _))
              · rcases List.mem_cons.mp hv with rfl | hv
                · exact Or.inr hfree
                · exact (hnew v hv).imp id fun h hv => h (List.mem_append_left _ hv)

/-- What naming the items of a node leaves of each collection: those declared with their items
named, the rest as they were. -/
theorem items_each {depth : Nat} {parts node node' : Dict} (hparts : (Assoc.keys parts).Nodup)
    (h : items inner (depth + 1) parts node = .ok node') (collection : Scalar) :
    (collection ∉ Assoc.keys parts → Assoc.get node' collection = Assoc.get node collection) ∧
      ∀ part, (collection, part) ∈ parts →
        (∀ vs, Assoc.get node collection = some (.list vs) →
          ∃ vs', Assoc.get node' collection = some (.list vs') ∧
          itemsIn (fun es => do items inner depth (← inner part) es) vs 1 (carried vs) = .ok vs') ∧
        ((∀ vs, Assoc.get node collection ≠ some (.list vs)) →
          Assoc.get node' collection = Assoc.get node collection) := by
  rw [items] at h
  induction parts generalizing node with
  | nil =>
      cases h
      exact ⟨fun _ => rfl, nofun⟩
  | cons p parts ih =>
      obtain ⟨hp, hparts⟩ := List.nodup_cons.mp hparts
      rw [List.foldlM_cons] at h
      obtain ⟨mid, hmid, h⟩ := bind_ok.mp h
      obtain ⟨hout, hin⟩ := ih hparts h
      -- what naming the first collection leaves of the node
      have hfirst : (∀ c, c ≠ p.1 → Assoc.get mid c = Assoc.get node c) ∧
          (∀ vs, Assoc.get node p.1 = some (.list vs) →
            ∃ vs', Assoc.get mid p.1 = some (.list vs') ∧
            itemsIn (fun es => do items inner depth (← inner p.2) es) vs 1 (carried vs) = .ok vs') ∧
          ((∀ vs, Assoc.get node p.1 ≠ some (.list vs)) →
              Assoc.get mid p.1 = Assoc.get node p.1) := by
        split at hmid
        · next vs hvs =>
            obtain ⟨vs', hvs', hmid⟩ := bind_ok.mp hmid
            cases hmid
            refine ⟨fun c hc => Assoc.get_set_ne _ _ hc, fun ws hws => ?_,
              fun hnone => absurd hvs (hnone vs)⟩
            cases hvs.symm.trans hws
            exact ⟨vs', Assoc.get_set_self _ _ _, hvs'⟩
        · next hnone =>
            cases hmid
            exact ⟨fun _ _ => rfl, fun vs hvs => absurd hvs (hnone vs), fun _ => rfl⟩
      refine ⟨fun hc => ?_, fun part hpart => ?_⟩
      · obtain ⟨hc, hcs⟩ : collection ≠ p.1 ∧ collection ∉ Assoc.keys parts := by
          simpa [Assoc.keys] using hc
        rw [hout hcs, hfirst.1 collection hc]
      · rcases List.mem_cons.mp hpart with rfl | hpart
        · rw [hout hp]
          exact hfirst.2
        · have hc : collection ≠ p.1 := by
            rintro rfl
            exact hp (List.mem_map.mpr ⟨_, hpart, rfl⟩)
          rw [← hfirst.1 collection hc]
          exact hin part hpart

/-- Naming the items of a node keeps a name it has. -/
theorem items_id {depth : Nat} {parts node node' : Dict} (hparts : (Assoc.keys parts).Nodup)
    (h : items inner depth parts node = .ok node') {t : String}
    (hid : Dict.get? node "id" = some (.text t)) :
    Dict.get? node' "id" = some (.text t) := by
  cases depth with
  | zero => nomatch h
  | succ depth =>
      obtain ⟨hout, hin⟩ := items_each hparts h (.text "id")
      by_cases hkey : Scalar.text "id" ∈ Assoc.keys parts
      · obtain ⟨⟨_, part⟩, hpart, rfl⟩ := List.mem_map.mp hkey
        refine ((hin part hpart).2 fun vs hvs => ?_).trans hid
        nomatch hid.symm.trans hvs
      · exact (hout hkey).trans hid

/-- What an entry of a collection is once its items are named. -/
inductive Takes : Value → Value → Prop
  | kept {es fs : Dict} {t : String} : Dict.get? es "id" = some (.text t) →
      Dict.get? fs "id" = some (.text t) →
      Takes (.map es) (.map fs)
  | given {es fs : Dict} (place : Nat) (taken : List Value) : Dict.get? es "id" = none →
      Dict.get? fs "id" = some (.text (numbered (base es place) taken)) → Takes (.map es) (.map fs)
  | misnamed {es fs : Dict} {name : Value} : Dict.get? es "id" = some name → (∀ t, name ≠ .text t) →
      Takes (.map es) (.map fs)
  | passed {v : Value} : idOf v = none → Takes v v

theorem Becomes.takes
    (heach : ∀ es inside t, each es = .ok inside → Dict.get? es "id" = some (.text t) →
      Dict.get? inside "id" = some (.text t)) {v w : Value} (h : Becomes each v w) : Takes v w := by
  cases h with
  | @kept es inside name hid hinside =>
      by_cases htext : ∃ t, name = .text t
      · obtain ⟨t, rfl⟩ := htext
        exact .kept hid (heach es inside t hinside hid)
      · exact .misnamed hid fun t ht => htext ⟨t, ht⟩
  | given place taken hid hinside =>
      exact .given place taken hid (heach _ _ _ hinside (Assoc.get_set_self _ _ _))
  | passed hv => exact .passed hv

/-- A value that is no list, set where no list stood, moves no item. -/
theorem listAt_set {es : Dict} {k : Scalar} {v : Value} (hv : ∀ vs, v ≠ .list vs)
    (hes : ∀ vs, Assoc.get es k ≠ some (.list vs)) (path : List (Scalar × Nat))
    (collection : Scalar) :
    listAt path collection (Assoc.set es k v) = listAt path collection es := by
  by_cases htop : top path collection = k
  · rw [listAt_none (d := es) (by rw [htop]; exact hes), listAt_none]
    rw [htop, Assoc.get_set_self]
    intro vs hvs
    exact hv vs (Option.some.inj hvs)
  · exact listAt_congr (Assoc.get_set_ne _ _ htop)

/-- What naming the items of a node leaves of a collection its type declares, at any depth: its
entries named one for one, and, where the names it carried were texts, each another, its names each
another. -/
theorem items_listAt (hinner : ∀ part ps, inner part = .ok ps → (Assoc.keys ps).Nodup) {depth : Nat}
    {parts node node' : Dict} (hparts : (Assoc.keys parts).Nodup)
    (h : items inner depth parts node = .ok node') {path : List (Scalar × Nat)}
    {collection : Scalar} (hdeclares : Declares inner parts path collection) :
    (listAt path collection node = none → listAt path collection node' = none) ∧
      ∀ vs, listAt path collection node = some vs → ∃ vs', listAt path collection node' = some vs' ∧
        List.Forall₂ Takes vs vs' ∧
        ((∀ v ∈ carried vs, ∃ t, v = .text t) → (carried vs).Nodup → (carried vs').Nodup) := by
  induction hdeclares generalizing depth node node' with
  | @here parts collection part hpart =>
      cases depth with
      | zero => cases h
      | succ depth =>
          obtain ⟨_, hin⟩ := items_each hparts h collection
          obtain ⟨hlist, hother⟩ := hin part hpart
          have heach : ∀ es inside t,
              (do items inner depth (← inner part) es : Raises Dict) = .ok inside →
              Dict.get? es "id" = some (.text t) → Dict.get? inside "id" = some (.text t) := by
            intro es inside t hinside hid
            obtain ⟨ps, hps, hinside⟩ := bind_ok.mp hinside
            exact items_id (hinner part ps hps) hinside hid
          rw [listAt_nil, listAt_nil]
          constructor
          · intro hnone
            rw [hother (listIn_none.mp hnone)]
            exact hnone
          · intro vs hvs
            obtain ⟨vs', hvs', hitems⟩ := hlist vs (listIn_some.mp hvs)
            exact ⟨vs', listIn_some.mpr hvs', (itemsIn_becomes hitems).imp fun _ _ h =>
                h.takes heach, fun htext hnodup =>
              (itemsIn_nodup heach hitems htext hnodup fun _ h => h).1⟩
  | @inside parts ps outer collection part i path hpart hps _ ih =>
      cases depth with
      | zero => cases h
      | succ depth =>
          obtain ⟨_, hin⟩ := items_each hparts h outer
          obtain ⟨hlist, hother⟩ := hin part hpart
          cases houter : listAt [] outer node with
          | none =>
              have houter' : listAt [] outer node' = none := by
                rw [listAt_nil] at houter ⊢
                rw [hother (listIn_none.mp houter)]
                exact houter
              rw [listAt_cons_none houter, listAt_cons_none houter']
              exact ⟨fun _ => rfl, fun _ h => absurd h.symm (Option.some_ne_none _)⟩
          | some vs =>
              have hvs : Assoc.get node outer = some (.list vs) := listIn_some.mp houter
              obtain ⟨vs', hvs', hitems⟩ := hlist vs hvs
              have houter' : listAt [] outer node' = some vs' := listIn_some.mpr hvs'
              rw [listAt_cons houter, listAt_cons houter']
              have hbecomes := itemsIn_becomes hitems
              cases hv : vs[i]? with
              | none =>
                  rw [show vs'[i]? = none from
                    List.getElem?_eq_none (hbecomes.length_eq ▸ List.getElem?_eq_none_iff.mp hv)]
                  exact ⟨fun _ => rfl, fun _ h => absurd h.symm (Option.some_ne_none _)⟩
              | some v =>
                  obtain ⟨w, hw, hbecome⟩ : ∃ w, vs'[i]? = some w ∧ Becomes _ v w := by
                    obtain ⟨hi, rfl⟩ := List.getElem?_eq_some_iff.mp hv
                    exact ⟨_, List.getElem?_eq_getElem (hbecomes.length_eq ▸ hi), hbecomes.get hi _⟩
                  rw [hw]
                  cases hbecome with
                  | kept _ hinside =>
                      obtain ⟨ps', hps', hinside⟩ := bind_ok.mp hinside
                      cases hps.symm.trans hps'
                      exact ih (hinner part ps hps) hinside
                  | @given es _ place taken hid hinside =>
                      obtain ⟨ps', hps', hinside⟩ := bind_ok.mp hinside
                      cases hps.symm.trans hps'
                      have hmoved := ih (hinner part ps hps) hinside
                      have hnone : ∀ vs, Assoc.get es (.text "id") ≠ some (.list vs) := by
                        intro vs hvs
                        cases hvs.symm.trans hid
                      rwa [Dict.set, listAt_set (v := .text (numbered (base es place) taken))
                        (fun vs h => by cases h) hnone] at hmoved
                  | passed hidOf =>
                      rcases v with _ | _ | es
                      · exact ⟨fun _ => rfl, fun _ h => absurd h.symm (Option.some_ne_none _)⟩
                      · exact ⟨fun _ => rfl, fun _ h => absurd h.symm (Option.some_ne_none _)⟩
                      · cases hidOf

/-! ## Names carried in that an item may carry -/

/-- The names the items of a collection carry are plain, each another and none of those seen. -/
def Fit (vs : List Value) (seen : List String) : Prop :=
  (∀ v ∈ carried vs, ∃ t, v = .text t ∧ Names.plain t = true ∧ t ∉ seen) ∧ (carried vs).Nodup

theorem unfit_nil {collection : String} {index : Nat} {name : Value} {seen seen' : List String}
    (h : unfit collection index name seen = ([], seen')) :
    ∃ t, name = .text t ∧ Names.plain t = true ∧ t ∉ seen ∧ seen' = seen ++ [t] := by
  unfold unfit at h
  split at h
  · next t =>
      split at h
      · nomatch h
      · next hplain =>
          split at h
          · nomatch h
          · next hseen =>
              cases h
              exact ⟨t, rfl, by simpa using hplain, by simpa using hseen, rfl⟩
  · nomatch h

/-- An item before others, its name plain and not seen: the names are fit when the others' are, that
name seen. -/
theorem Fit.cons {es : Dict} {vs : List Value} {seen : List String} {t : String}
    (hid : Dict.get? es "id" = some (.text t)) (hplain : Names.plain t = true) (hseen : t ∉ seen)
    (h : Fit vs (seen ++ [t])) : Fit (.map es :: vs) seen := by
  have hcarried : carried (.map es :: vs) = .text t :: carried vs := by
    rw [carried_cons, idOf, hid]
    rfl
  refine ⟨fun v hv => ?_, ?_⟩
  · rw [hcarried] at hv
    rcases List.mem_cons.mp hv with rfl | hv
    · exact ⟨t, rfl, hplain, hseen⟩
    · obtain ⟨t', rfl, hplain', hseen'⟩ := h.1 v hv
      exact ⟨t', rfl, hplain', fun hmem => hseen' (List.mem_append_left _ hmem)⟩
  · rw [hcarried]
    refine List.nodup_cons.mpr ⟨fun hmem => ?_, h.2⟩
    obtain ⟨t', ht', _, hseen'⟩ := h.1 _ hmem
    cases ht'
    exact hseen' (List.mem_append_right _ (List.mem_singleton_self _))

theorem Fit.passed {v : Value} {vs : List Value} {seen : List String} (hv : (idOf v).bind id = none)
    (h : Fit vs seen) :
    Fit (v :: vs) seen := by
  unfold Fit
  rw [carried_cons, hv]
  exact h

theorem givenIn_nil {here : String} {each : Nat → Dict → Raises (List Misnamed)}
    {vs : List Value} {index : Nat} {seen : List String}
    (h : givenIn here each vs index seen = .ok []) :
    Fit vs seen ∧ ∀ es, .map es ∈ vs → ∃ i, each i es = .ok [] := by
  induction vs generalizing index seen with
  | nil => exact ⟨⟨nofun, List.nodup_nil⟩, nofun⟩
  | cons v vs ih =>
      have hother : idOf v = none → givenIn here each vs (index + 1) seen = .ok [] →
          Fit (v :: vs) seen ∧ ∀ es, .map es ∈ v :: vs → ∃ i, each i es = .ok [] := by
        intro hv h
        obtain ⟨hfit, hinside⟩ := ih h
        refine ⟨hfit.passed (by rw [hv]; rfl), fun es hes => ?_⟩
        rcases List.mem_cons.mp hes with rfl | hes
        · nomatch hv
        · exact hinside es hes
      rcases v with s | ws | es
      · exact hother rfl h
      · exact hother rfl h
      · rw [givenIn] at h
        have hrest : ∀ own seen', (do
            let inside ← each index es
            .ok (own ++ inside ++ (← givenIn here each vs (index + 1) seen')) :
              Raises (List Misnamed)) = .ok [] →
            own = [] ∧ (∃ i, each i es = .ok []) ∧
                givenIn here each vs (index + 1) seen' = .ok [] := by
          intro own seen' h
          obtain ⟨inside, hinside, h⟩ := bind_ok.mp h
          obtain ⟨rest, hrest, h⟩ := bind_ok.mp h
          obtain ⟨hown, rfl⟩ := List.append_eq_nil_iff.mp (Except.ok.inj h)
          obtain ⟨rfl, rfl⟩ := List.append_eq_nil_iff.mp hown
          exact ⟨rfl, ⟨index, hinside⟩, hrest⟩
        have hmem : (∃ i, each i es = .ok []) → (∀ fs, .map fs ∈ vs → ∃ i, each i fs = .ok []) →
            ∀ fs, .map fs ∈ Value.map es :: vs → ∃ i, each i fs = .ok [] := by
          intro hes hvs fs hfs
          rcases List.mem_cons.mp hfs with hfs | hfs
          · injection hfs with hfs
            exact hfs ▸ hes
          · exact hvs fs hfs
        cases hid : Dict.get? es "id" with
        | none =>
            rw [hid] at h
            obtain ⟨_, hes, h⟩ := hrest [] seen h
            obtain ⟨hfit, hinside⟩ := ih h
            exact ⟨hfit.passed (by rw [idOf, hid]; rfl), hmem hes hinside⟩
        | some name =>
            rw [hid] at h
            cases hunfit : unfit here index name seen with
            | mk own seen' =>
                obtain ⟨hown, hes, h⟩ := hrest own seen' (by simpa only [hunfit] using h)
                subst hown
                obtain ⟨t, rfl, hplain, hseen, rfl⟩ := unfit_nil hunfit
                obtain ⟨hfit, hinside⟩ := ih h
                exact ⟨hfit.cons hid hplain hseen, hmem hes hinside⟩

/-- What an item was, given what held its name before. -/
def wasOf (had : String → Option Dict) (es : Dict) : Dict :=
  match Dict.get? es "id" with
  | some (.scalar (.text t)) => (had t).getD []
  | _ => []

theorem handedBackIn_nil {here : String} {had : String → Option Dict}
    {each : Nat → Dict → Dict → Raises (List Misnamed)} {vs : List Value} {index : Nat}
    {seen : List String} (h : handedBackIn here had each vs index seen = .ok []) :
    Fit vs seen ∧ ∀ es, .map es ∈ vs →
      (∀ t, Dict.get? es "id" = some (.text t) → (had t).isSome = true) ∧ ∃ i, each i es
        (wasOf had es) = .ok [] := by
  induction vs generalizing index seen with
  | nil => exact ⟨⟨nofun, List.nodup_nil⟩, nofun⟩
  | cons v vs ih =>
      have hother : idOf v = none → handedBackIn here had each vs (index + 1) seen = .ok [] →
          Fit (v :: vs) seen ∧ ∀ es, .map es ∈ v :: vs →
            (∀ t, Dict.get? es "id" = some (.text t) → (had t).isSome = true) ∧ ∃ i,
                each i es (wasOf had es) = .ok [] := by
        intro hv h
        obtain ⟨hfit, hinside⟩ := ih h
        refine ⟨hfit.passed (by rw [hv]; rfl), fun es hes => ?_⟩
        rcases List.mem_cons.mp hes with rfl | hes
        · nomatch hv
        · exact hinside es hes
      rcases v with s | ws | es
      · exact hother rfl h
      · exact hother rfl h
      · rw [handedBackIn] at h
        have hrest : ∀ own seen', (do
            let inside ← each index es (wasOf had es)
            .ok (own ++ inside ++ (← handedBackIn here had each vs (index + 1) seen')) :
              Raises (List Misnamed)) = .ok [] →
            own = [] ∧ (∃ i, each i es (wasOf had es) = .ok []) ∧
                handedBackIn here had each vs (index + 1) seen' = .ok [] := by
          intro own seen' h
          obtain ⟨inside, hinside, h⟩ := bind_ok.mp h
          obtain ⟨rest, hrest, h⟩ := bind_ok.mp h
          obtain ⟨hown, rfl⟩ := List.append_eq_nil_iff.mp (Except.ok.inj h)
          obtain ⟨rfl, rfl⟩ := List.append_eq_nil_iff.mp hown
          exact ⟨rfl, ⟨index, hinside⟩, hrest⟩
        have hmem : ∀ {P : Dict → Prop}, P es → (∀ fs, .map fs ∈ vs → P fs) →
            ∀ fs, .map fs ∈ Value.map es :: vs → P fs := by
          intro P hes hvs fs hfs
          rcases List.mem_cons.mp hfs with hfs | hfs
          · injection hfs with hfs
            exact hfs ▸ hes
          · exact hvs fs hfs
        cases hid : Dict.get? es "id" with
        | none =>
            obtain ⟨_, hes, h⟩ := hrest [] seen (by simpa only [hid, wasOf] using h)
            obtain ⟨hfit, hinside⟩ := ih h
            exact ⟨hfit.passed (by rw [idOf, hid]; rfl),
              hmem ⟨fun t ht => (nomatch hid.symm.trans ht), hes⟩ hinside⟩
        | some name =>
            cases hunfit : unfit here index name seen with
            | mk own seen' =>
                rcases own with _ | ⟨first, rest⟩
                · obtain ⟨t, rfl, hplain, hseen, rfl⟩ := unfit_nil hunfit
                  obtain ⟨hknown, hes, h⟩ :=
                    hrest (if (had t).isSome then []
                    else [Misnamed.mk here index (.text t) .unknown])
                    (seen ++ [t]) (by simpa only [hid, hunfit, wasOf] using h)
                  obtain ⟨hfit, hinside⟩ := ih h
                  refine ⟨hfit.cons hid hplain hseen, hmem ⟨fun t' ht' => ?_, hes⟩ hinside⟩
                  cases hid.symm.trans ht'
                  by_contra hnone
                  rw [if_neg hnone] at hknown
                  nomatch hknown
                · simp only [hid, hunfit] at h
                  have hwas : wasOf had es = match some name with
                      | some (.scalar (.text t)) => (had t).getD []
                      | _ => [] := by rw [wasOf, hid]
                  obtain ⟨hown, _⟩ := hrest (first :: rest) seen' (by rw [hwas]; exact h)
                  nomatch hown

theorem listed_of_listAt {node : Dict} {collection : Scalar} {vs : List Value}
    (h : listAt [] collection node = some vs) :
    listed node collection = vs := by
  rw [listed, listIn_some.mp h]

/-- What holds of the items of every declared collection, at every depth, of a node, when it holds
of each collection of a node and of each item in it in turn. -/
theorem of_listAt {P : List Value → Prop} {Q : Nat → Dict → Dict → Prop}
    (hstep : ∀ depth parts node, Q depth parts node → ∀ collection part,
      (collection, part) ∈ parts →
      P (listed node collection) ∧ ∀ es, .map es ∈ listed node collection →
      ∀ ps, inner part = .ok ps → ∃ depth, Q depth ps es)
    {depth : Nat} {parts node : Dict} (h : Q depth parts node) {path : List (Scalar × Nat)}
    {collection : Scalar} (hdeclares : Declares inner parts path collection) {vs : List Value}
    (hvs : listAt path collection node = some vs) : P vs := by
  induction hdeclares generalizing depth node with
  | @here parts collection part hpart =>
      have hP := (hstep depth parts node h collection part hpart).1
      rwa [listed_of_listAt hvs] at hP
  | @inside parts ps outer collection part i path hpart hps _ ih =>
      cases houter : listAt [] outer node with
      | none =>
          rw [listAt_cons_none houter] at hvs
          nomatch hvs
      | some ws =>
          rw [listAt_cons houter] at hvs
          split at hvs
          · next es hes =>
              obtain ⟨depth', h'⟩ := (hstep depth parts node h outer part hpart).2 es
                (by rw [listed_of_listAt houter]; exact List.mem_of_getElem? hes) ps hps
              exact ih h' hvs
          · nomatch hvs

theorem flatten_nil {α β ε : Type} {f : α → Except ε (List β)} {as : List α}
    (h : (do .ok (← as.mapM f).flatten : Except ε (List β)) = .ok []) : ∀ a ∈ as, f a = .ok [] := by
  intro a ha
  obtain ⟨found, hfound, h⟩ := bind_ok.mp h
  obtain ⟨bs, hbs, hf⟩ := forall₂_of_mem (mapM_ok.mp hfound) ha
  rwa [List.flatten_eq_nil_iff.mp (Except.ok.inj h) bs hbs] at hf

/-- Names a new artifact's items carry with no fault found are fit in every declared collection. -/
theorem given_fit {depth : Nat} {parts node : Dict} {under : List String}
    (h : given inner depth parts node under = .ok []) {path : List (Scalar × Nat)}
    {collection : Scalar} (hdeclares : Declares inner parts path collection) {vs : List Value}
    (hvs : listAt path collection node = some vs) : Fit vs [] := by
  refine of_listAt (P := fun vs => Fit vs []) (Q := fun depth parts node => ∃ under,
    given inner depth parts node under = .ok [])
    (fun depth parts node ⟨under, h⟩ collection part hpart => ?_) ⟨under, h⟩ hdeclares hvs
  cases depth with
  | zero => nomatch h
  | succ depth =>
      rw [given] at h
      obtain ⟨hfit, hinside⟩ := givenIn_nil (flatten_nil h _ hpart)
      refine ⟨hfit, fun es hes ps hps => ?_⟩
      obtain ⟨i, hi⟩ := hinside es hes
      obtain ⟨ps', hps', hi⟩ := bind_ok.mp hi
      cases hps.symm.trans hps'
      exact ⟨depth, _, hi⟩

/-- Names a revision's items hand back with no fault found are fit in every declared collection. -/
theorem handedBack_fit {depth : Nat} {parts node before : Dict} {under : List String}
    (h : handedBack inner depth parts node before under = .ok [])
    {path : List (Scalar × Nat)} {collection : Scalar}
    (hdeclares : Declares inner parts path collection) {vs : List Value}
    (hvs : listAt path collection node = some vs) : Fit vs [] := by
  refine of_listAt (P := fun vs => Fit vs [])
    (Q := fun depth parts node => ∃ before under,
      handedBack inner depth parts node before under = .ok [])
    (fun depth parts node ⟨before, under, h⟩ collection part hpart => ?_) ⟨before, under,
      h⟩ hdeclares hvs
  cases depth with
  | zero => nomatch h
  | succ depth =>
      rw [handedBack] at h
      obtain ⟨hfit, hinside⟩ := handedBackIn_nil (flatten_nil h _ hpart)
      refine ⟨hfit, fun es hes ps hps => ?_⟩
      obtain ⟨_, i, hi⟩ := hinside es hes
      obtain ⟨ps', hps', hi⟩ := bind_ok.mp hi
      cases hps.symm.trans hps'
      exact ⟨depth, _, _, hi⟩

/-- A name an item carries in a declared collection, and the items that collection held before:
those of the collection of the item that had the name of the item it is in. -/
inductive Carries (inner : Value → Raises Dict) : Dict → Dict → Dict → List Value → Value → Prop
  | here {parts node before es : Dict} {collection : Scalar} {part name : Value} :
      (collection, part) ∈ parts →
      .map es ∈ listed node collection → Dict.get? es "id" = some name →
      Carries inner parts node before (listed before collection) name
  | inside {parts ps node before es : Dict} {collection : Scalar} {part name : Value}
      {held : List Value} :
      (collection, part) ∈ parts → .map es ∈ listed node collection → inner part = .ok ps →
      Carries inner ps es (wasOf (had before collection) es) held name →
      Carries inner parts node before held name

theorem had_isSome {before : Dict} {collection : Scalar} {t : String}
    (h : (had before collection t).isSome = true) :
    ∃ es, .map es ∈ listed before collection ∧ Dict.get? es "id" = some (.text t) := by
  have hfold : ∀ (vs : List Value) (found : Option Dict),
      (∀ es, found = some es → Dict.get? es "id" = some (.text t)) →
      ∀ es, vs.foldl (fun found v => match v with
        | .map es => if Dict.get? es "id" = some (.text t) then some es else found
        | _ => found) found = some es → Dict.get? es "id" = some (.text t) ∧ (found = some es ∨
              .map es ∈ vs) := by
    intro vs
    induction vs with
    | nil => exact fun found hfound es hes => ⟨hfound es hes, Or.inl hes⟩
    | cons v vs ih =>
        intro found hfound es hes
        rw [List.foldl_cons] at hes
        rcases v with _ | _ | fs
        · obtain ⟨hid, hmem⟩ := ih found hfound es hes
          exact ⟨hid, hmem.imp_right (List.mem_cons_of_mem _)⟩
        · obtain ⟨hid, hmem⟩ := ih found hfound es hes
          exact ⟨hid, hmem.imp_right (List.mem_cons_of_mem _)⟩
        · by_cases hfs : Dict.get? fs "id" = some (.text t)
          · simp only [if_pos hfs] at hes
            obtain ⟨hid, hmem⟩ :=
              ih (some fs) (fun es hes => by rw [← Option.some.inj hes]; exact hfs) es hes
            refine ⟨hid, Or.inr ?_⟩
            rcases hmem with hmem | hmem
            · rw [Option.some.inj hmem]
              exact List.mem_cons_self
            · exact List.mem_cons_of_mem _ hmem
          · simp only [if_neg hfs] at hes
            obtain ⟨hid, hmem⟩ := ih found hfound es hes
            exact ⟨hid, hmem.imp_right (List.mem_cons_of_mem _)⟩
  obtain ⟨es, hes⟩ := Option.isSome_iff_exists.mp h
  obtain ⟨hid, hmem⟩ := hfold (listed before collection) none nofun es hes
  exact ⟨es, hmem.resolve_left nofun, hid⟩

/-- Each name a revision's items hand back with no fault found was held by an item of that
collection. -/
theorem handedBack_held {depth : Nat} {parts node before : Dict} {under : List String}
    {held : List Value} {name : Value} (h : handedBack inner depth parts node before under = .ok [])
    (hcarries : Carries inner parts node before held name) :
    ∃ t es, name = .text t ∧ .map es ∈ held ∧ Dict.get? es "id" = some (.text t) := by
  induction hcarries generalizing depth under with
  | @here parts node before es collection part name hpart hes hid =>
      cases depth with
      | zero => nomatch h
      | succ depth =>
          rw [handedBack] at h
          obtain ⟨hfit, hinside⟩ := handedBackIn_nil (flatten_nil h _ hpart)
          have hmem : name ∈ carried (listed node collection) :=
            List.mem_filterMap.mpr ⟨_, hes, hid⟩
          obtain ⟨t, rfl, _⟩ := hfit.1 name hmem
          obtain ⟨fs, hfs, hfid⟩ := had_isSome ((hinside es hes).1 t hid)
          exact ⟨t, fs, rfl, hfs, hfid⟩
  | @inside parts ps node before es collection part name held hpart hes hps _ ih =>
      cases depth with
      | zero => nomatch h
      | succ depth =>
          rw [handedBack] at h
          obtain ⟨_, hinside⟩ := handedBackIn_nil (flatten_nil h _ hpart)
          obtain ⟨_, i, hi⟩ := hinside es hes
          obtain ⟨ps', hps', hi⟩ := bind_ok.mp hi
          cases hps.symm.trans hps'
          exact ih hi

end Kb.ItemNames
