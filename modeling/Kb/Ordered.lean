/-
# `Kb.Ordered` — entries put in order, and the names of the items in them

The order a type declares moves entries and never an item of a list: what an artifact's own entries
are once in order is what they were (`get_arranged`), each list with its entries moved one for one
(`order_sorted`), so the names the items of its collections have, where they stand, are those they
were given (`order_namesAt`).
-/
import Kb.ItemNames
import Kb.Holding

namespace Kb

open Raising

namespace Settled

open ItemNames

theorem get_arranged (names : List Scalar) (d : Dict) (k : Scalar) :
    Assoc.get (arranged names d) k = if k ∈ names then Assoc.get d k else none := by
  induction names with
  | nil => rfl
  | cons name names ih =>
      unfold arranged at ih ⊢
      by_cases hk : k = name
      · subst hk
        cases hv : Assoc.get d k with
        | none =>
            rw [List.filterMap_cons_none (by rw [hv]; rfl), ih, hv]
            simp
        | some v =>
            rw [List.filterMap_cons_some (b := (k, v)) (by rw [hv]; rfl), Assoc.get_cons]
            simp
      · have hmem : k ∈ name :: names ↔ k ∈ names := by simp [hk]
        rw [if_congr hmem rfl rfl, ← ih]
        cases hv : Assoc.get d name with
        | none => rw [List.filterMap_cons_none (by rw [hv]; rfl)]
        | some v =>
            rw [List.filterMap_cons_some (b := (name, v)) (by rw [hv]; rfl), Assoc.get_cons,
              if_neg (Ne.symm hk)]

/-- Entries put in the order of names that are all of them and some others are the entries. -/
theorem get_arranged_all {names : List Scalar} {d : Dict} (h : Assoc.keys d ⊆ names) (k : Scalar) :
    Assoc.get (arranged names d) k = Assoc.get d k := by
  rw [get_arranged]
  split
  · rfl
  · next hk =>
      cases hv : Assoc.get d k with
      | none => rfl
      | some v =>
          exact absurd (h (Assoc.has_iff_mem_keys.mp (Assoc.has_of_mem (Assoc.get_eq_some_mem hv))))
            hk

/-- An artifact's own entries are all among those its type puts in order. -/
theorem mem_topSequence {held : List Scalar} {name : Scalar} (hname : name ∈ held)
    (hown : name ∉ IDENTITY) (declared : Declared) :
    name ∈ topSequence held declared := by
  refine mem_once.mpr (List.mem_filter.mpr ⟨?_, decide_eq_true hown⟩)
  by_cases hfield : name ∈ (Assoc.keys declared.properties).filter (· ∉ IDENTITY)
  · simp only [List.mem_append]
    exact Or.inl (Or.inl (Or.inl hfield))
  by_cases hsections : name = SECTIONS
  · simp [hsections]
  by_cases hpart : name ∈ Assoc.keys declared.parts
  · exact List.mem_append_right _ hpart
  · have hother : name ∈ held.filter fun name => name ∉ IDENTITY ∧
        name ∉ (Assoc.keys declared.properties).filter (· ∉ IDENTITY)
        ∧ name ≠ SECTIONS ∧ name ∉ Assoc.keys declared.parts :=
      List.mem_filter.mpr ⟨hname, decide_eq_true ⟨hown, hfield, hsections, hpart⟩⟩
    simp only [List.mem_append]
    exact Or.inl (Or.inl (Or.inr hother))

/-! ## Order, and the names of items -/

/-- The names of the items of a collection where a path leads. -/
def namesAt (path : List (Scalar × Nat)) (collection : Scalar) (es : Dict) :
    Option (List (Option (Option Value))) :=
  (listAt path collection es).map (List.map idOf)

/-- An entry of a list moved: an item of the same name, with items of the same names inside it. -/
structure Moved (v w : Value) : Prop where
  name : idOf w = idOf v
  inside : ∀ es fs, v = .map es → w = .map fs → ∀ path collection, namesAt path collection fs =
    namesAt path collection es

theorem Moved.refl (v : Value) : Moved v v := ⟨rfl, fun es fs hes hfs path collection => by
  injection hes.symm.trans hfs with h
  rw [h]⟩

/-- What an entry of a mapping may be once in order: gone with it, itself, or a list of the same
entries moved. -/
inductive Sorted : Option Value → Option Value → Prop
  | same (v : Option Value) : Sorted v v
  | list {vs ws : List Value} : List.Forall₂ Moved vs ws →
      Sorted (some (.list vs)) (some (.list ws))

/-- Mappings whose entries at a name are sorted have items of the same names there. -/
theorem Sorted.namesAt {d e : Dict} {collection : Scalar} {path : List (Scalar × Nat)}
    (h : Sorted (Assoc.get d (top path collection)) (Assoc.get e (top path collection))) :
    namesAt path collection e = namesAt path collection d := by
  unfold Settled.namesAt
  cases path with
  | nil =>
      rw [listAt_nil, listAt_nil]
      have h : Sorted (Assoc.get d collection) (Assoc.get e collection) := h
      revert h
      generalize Assoc.get d collection = x
      generalize Assoc.get e collection = y
      intro h
      cases h with
      | same => rfl
      | @list vs ws h =>
          show some (ws.map idOf) = some (vs.map idOf)
          refine congrArg some ?_
          induction h with
          | nil => rfl
          | cons hmoved _ ih => rw [List.map_cons, List.map_cons, hmoved.name, ih]
  | cons step path =>
      obtain ⟨outer, i⟩ := step
      have h : Sorted (Assoc.get d outer) (Assoc.get e outer) := h
      have htop : ∀ {x : Dict} {o}, Assoc.get x outer = o → listAt [] outer x = listIn o := by
        rintro x _ rfl
        exact listAt_nil outer x
      revert h
      generalize hx : Assoc.get d outer = x
      generalize hy : Assoc.get e outer = y
      intro h
      cases h with
      | same =>
          cases hlist : listAt [] outer d with
          | none =>
              rw [listAt_cons_none hlist,
                listAt_cons_none ((htop hy).trans ((htop hx).symm.trans hlist))]
          | some vs =>
              rw [listAt_cons hlist, listAt_cons ((htop hy).trans ((htop hx).symm.trans hlist))]
      | @list vs ws h =>
          rw [listAt_cons (htop hx), listAt_cons (htop hy)]
          cases hv : vs[i]? with
          | none =>
              rw [show ws[i]? = none
                from List.getElem?_eq_none (h.length_eq ▸ List.getElem?_eq_none_iff.mp hv)]
          | some v =>
              obtain ⟨w, hw, hmoved⟩ : ∃ w, ws[i]? = some w ∧ Moved v w := by
                obtain ⟨hi, rfl⟩ := List.getElem?_eq_some_iff.mp hv
                exact ⟨_, List.getElem?_eq_getElem (h.length_eq ▸ hi), h.get hi _⟩
              rw [hw]
              rcases v with _ | _ | es
              · rcases w with _ | _ | fs
                · rfl
                · rfl
                · cases hmoved.name
              · rcases w with _ | _ | fs
                · rfl
                · rfl
                · cases hmoved.name
              · rcases w with _ | _ | fs
                · cases hmoved.name
                · cases hmoved.name
                · exact hmoved.inside es fs rfl rfl path collection

theorem sorted_of_get {d e : Dict} (h : ∀ k, Assoc.get e k = Assoc.get d k)
    (path : List (Scalar × Nat)) (collection : Scalar) :
    namesAt path collection e = namesAt path collection d :=
  Sorted.namesAt (by rw [h]; exact .same _)

/-- An item put in order has moved. -/
theorem item_moved {schema : Raises Value} {v w : Value} (h : item schema v = .ok w) :
    Moved v w := by
  obtain ⟨schema, _, h⟩ := bind_ok.mp h
  rcases v with s | vs | es
  · cases h
    exact .refl _
  · cases h
    exact .refl _
  · obtain ⟨_, _, h⟩ := bind_ok.mp h
    obtain ⟨_, _, h⟩ := bind_ok.mp h
    obtain ⟨fields, _, h⟩ := bind_ok.mp h
    cases h
    have hget : ∀ k, Assoc.get (arranged (once (.text "id" :: fields ++ Assoc.keys es)) es) k =
        Assoc.get es k :=
      get_arranged_all fun k hk => mem_once.mpr (List.mem_append_right _ hk)
    refine ⟨congrArg some (hget (.text "id")), fun es' fs hes hfs => ?_⟩
    injection hes with hes
    injection hfs with hfs
    subst hes hfs
    exact sorted_of_get hget

theorem sections_eq (vs : List Value) : sections vs = vs.map section_ := by
  induction vs with
  | nil => rfl
  | cons v vs ih => rw [sections, List.map_cons, ih]

theorem get_sectionEntries (es : Dict) (k : Scalar) :
    Assoc.get (sectionEntries es) k = (Assoc.get es k).map fun v => match v with
      | .list vs => if k = SECTIONS then .list (vs.map section_) else .list vs
      | v => v := by
  induction es with
  | nil => rfl
  | cons e es ih =>
      obtain ⟨j, v⟩ := e
      have hrest : ∀ w, Assoc.get ((j, w) :: sectionEntries es) k = if j = k then some w
          else Assoc.get (sectionEntries es) k :=
        fun w => Assoc.get_cons j w _ k
      rw [Assoc.get_cons]
      rcases v with s | vs | fs
      · show Assoc.get ((j, .scalar s) :: sectionEntries es) k = _
        rw [hrest, ih]
        split <;> rfl
      · rw [sectionEntries, hrest, ih, sections_eq]
        split
        · next hj =>
            subst hj
            rfl
        · rfl
      · show Assoc.get ((j, .map fs) :: sectionEntries es) k = _
        rw [hrest, ih]
        split <;> rfl

theorem keys_sectionEntries (es : Dict) : Assoc.keys (sectionEntries es) = Assoc.keys es := by
  induction es with
  | nil => rfl
  | cons e es ih =>
      obtain ⟨j, v⟩ := e
      rcases v with _ | _ | _ <;> exact congrArg (j :: ·) ih

/-- A section put in order, its sections in order inside it, has moved. -/
theorem section_moved (v : Value) : Moved v (section_ v) := by
  have hentries : ∀ (es : Dict) k,
      Assoc.get (arranged (once (sectionLeading ++ Assoc.keys es)) (sectionEntries es)) k =
      Assoc.get (sectionEntries es) k := by
    intro es
    refine get_arranged_all fun k hk => mem_once.mpr (List.mem_append_right _ ?_)
    rwa [keys_sectionEntries] at hk
  have hname : ∀ v, idOf (section_ v) = idOf v := by
    intro v
    rcases v with _ | _ | es
    · rfl
    · rfl
    · refine congrArg some ?_
      show Assoc.get (arranged _ (sectionEntries es)) (.text "id") = Assoc.get es (.text "id")
      rw [hentries, get_sectionEntries]
      rcases Assoc.get es (.text "id") with _ | v
      · rfl
      · rcases v with _ | _ | _ <;> rfl
  -- inside a section the items stand where they stood, by how far in
  have hinside : ∀ (path : List (Scalar × Nat)) (es : Dict) (collection : Scalar),
      namesAt path collection (arranged (once (sectionLeading ++ Assoc.keys es))
          (sectionEntries es)) = namesAt path collection es := by
    intro path
    induction path with
    | nil =>
        intro es collection
        rw [sorted_of_get (hentries es)]
        unfold namesAt
        rw [listAt_nil, listAt_nil, get_sectionEntries]
        rcases Assoc.get es collection with _ | v
        · rfl
        · rcases v with _ | vs | _
          · rfl
          · show Option.map
              _ (listIn (some (if collection = SECTIONS then Value.list (vs.map section_)
              else .list vs))) = some (vs.map idOf)
            split_ifs
            · refine congrArg some ?_
              rw [List.map_map]
              exact List.map_congr_left fun v _ => hname v
            · rfl
          · rfl
    | cons step path ih =>
        intro es collection
        obtain ⟨outer, i⟩ := step
        rw [sorted_of_get (hentries es)]
        unfold namesAt
        cases houter : listAt [] outer es with
        | none =>
            have houter' : listAt [] outer (sectionEntries es) = none := by
              rw [listAt_nil] at houter ⊢
              rw [get_sectionEntries]
              cases hget : Assoc.get es outer with
              | none => rfl
              | some v =>
                  rw [hget] at houter
                  rcases v with _ | _ | _
                  · rfl
                  · cases houter
                  · rfl
            rw [listAt_cons_none houter, listAt_cons_none houter']
        | some vs =>
            have hget : Assoc.get es outer = some (.list vs) := listIn_some.mp houter
            by_cases hsections : outer = SECTIONS
            · have houter' : listAt [] outer (sectionEntries es) = some (vs.map section_) := by
                rw [listAt_nil, get_sectionEntries, hget]
                exact listIn_some.mpr (by simp [hsections])
              rw [listAt_cons houter, listAt_cons houter', List.getElem?_map]
              rcases vs[i]? with _ | v
              · rfl
              · rcases v with _ | _ | fs
                · rfl
                · rfl
                · exact ih fs collection
            · have houter' : listAt [] outer (sectionEntries es) = some vs := by
                rw [listAt_nil, get_sectionEntries, hget]
                exact listIn_some.mpr (by simp [hsections])
              rw [listAt_cons houter, listAt_cons houter']
  refine ⟨hname v, fun es fs hes hfs path collection => ?_⟩
  subst hes
  injection hfs with hfs
  rw [← hfs]
  exact hinside path es collection

theorem listed_sorted {each : Value → Raises Value}
    (heach : ∀ v w, each v = .ok w → Moved v w) {v w : Value} (h : listed each v = .ok w) :
    Sorted (some v) (some w) := by
  rcases v with s | vs | es
  · cases h
    exact .same _
  · obtain ⟨ws, hws, rfl⟩ := map_ok.mp h
    exact .list ((mapM_ok.mp hws).imp fun v w hvw => heach v w hvw)
  · cases h
    exact .same _

/-- A collection put in order over what is in order already, if the artifact has it. -/
def sortedInto (a : Artifact) (ordered : Dict) (part : Scalar × Value) : Raises Dict :=
  match Assoc.get a.content part.1 with
  | none => .ok ordered
  | some v => (listed (item (part.2.at_ "items")) v).map (Assoc.set ordered part.1)

theorem sortedInto_ok {a : Artifact} {d e : Dict} {part : Scalar × Value}
    (h : sortedInto a d part = .ok e) :
    Assoc.get a.content part.1 = none ∧ e = d ∨
      ∃ v w, Assoc.get a.content part.1 = some v ∧ listed (item (part.2.at_ "items")) v = .ok w ∧
        e = Assoc.set d part.1 w := by
  unfold sortedInto at h
  split at h
  · next hnone => exact Or.inl ⟨hnone, (Except.ok.inj h).symm⟩
  · next v hv =>
      obtain ⟨w, hw, he⟩ := map_ok.mp h
      exact Or.inr ⟨v, w, hv, hw, he.symm⟩

/-- Collections put in order, whatever stood there; nothing is set where nothing was. -/
theorem parts_sorted {a : Artifact} {k : Scalar} {parts d e : Dict}
    (h : parts.foldlM (sortedInto a) d = .ok e)
    (hd : Sorted (Assoc.get a.content k) (Assoc.get d k) ∨ k ∈ Assoc.keys parts ∧
      (Assoc.get a.content k).isSome = true) :
    Sorted (Assoc.get a.content k) (Assoc.get e k) := by
  induction parts generalizing d with
  | nil =>
      cases h
      exact hd.resolve_right fun h => List.not_mem_nil h.1
  | cons part parts ih =>
      rw [List.foldlM_cons] at h
      obtain ⟨mid, hmid, h⟩ := bind_ok.mp h
      refine ih h ?_
      by_cases hpart : k = part.1
      · left
        subst hpart
        rcases sortedInto_ok hmid with ⟨hnone, rfl⟩ | ⟨v, w, hv, hw, rfl⟩
        · rcases hd with hd | ⟨_, hsome⟩
          · exact hd
          · rw [hnone] at hsome
            cases hsome
        · rw [hv, Assoc.get_set_self]
          exact listed_sorted (fun _ _ => item_moved) hw
      · have hsame : Assoc.get mid k = Assoc.get d k := by
          rcases sortedInto_ok hmid with ⟨_, rfl⟩ | ⟨v, w, _, _, rfl⟩
          · rfl
          · exact Assoc.get_set_ne _ _ hpart
        rw [hsame]
        exact hd.imp_right fun h => ⟨(List.mem_cons.mp h.1).resolve_left hpart, h.2⟩

/-- An artifact's own entries in order, its sections each in order. -/
def withSections (content ordered : Dict) : Dict :=
  match Assoc.get content SECTIONS with
  | some (.list vs) => Assoc.set ordered SECTIONS (.list (vs.map section_))
  | some v => Assoc.set ordered SECTIONS v
  | none => ordered

theorem withSections_of_some {content : Dict} {u w : Value}
    (hu : Assoc.get content SECTIONS = some u) (hw : listed (fun s => .ok (section_ s)) u = .ok w)
    (ordered : Dict) : withSections content ordered = Assoc.set ordered SECTIONS w := by
  rw [withSections, hu]
  rcases u with s | vs | es
  · cases hw
    rfl
  · obtain ⟨ws, hws, rfl⟩ := map_ok.mp hw
    have hmap : ws = vs.map section_ := by
      have hall := mapM_ok.mp hws
      clear hws hw hu
      induction hall with
      | nil => rfl
      | cons hfirst _ ih => rw [ih, ← Except.ok.inj hfirst, List.map_cons]
    rw [hmap]
  · cases hw
    rfl

theorem sectioned_returns (u : Value) : ∃ w, listed (fun s => .ok (section_ s)) u = .ok w := by
  rcases u with s | vs | es
  · exact ⟨_, rfl⟩
  · have hws : ∃ ws, (vs.mapM fun s => (.ok (section_ s) : Raises Value)) = .ok ws :=
      mapM_returns fun v _ => ⟨_, rfl⟩
    obtain ⟨ws, hws⟩ := hws
    exact ⟨.list ws, map_ok.mpr ⟨ws, hws, rfl⟩⟩
  · exact ⟨_, rfl⟩

/-- An artifact put in order: its entries as its type arranges them, its sections in order, then
each collection. -/
theorem order_arranges {a b : Artifact} {declared : Declared} (h : order a declared = .ok b) :
    ∃ content, b = { a with content } ∧
      declared.parts.foldlM (sortedInto a)
        (withSections a.content (arranged (topSequence (Assoc.keys a.content) declared) a.content))
        = .ok content := by
  unfold order at h
  simp only at h
  split at h
  · next hnone =>
      obtain ⟨d, hd, h⟩ := bind_ok.mp h
      cases hd
      obtain ⟨content, hcontent, h⟩ := bind_ok.mp h
      cases h
      refine ⟨content, rfl, ?_⟩
      rw [withSections, hnone]
      exact hcontent
  · next u hu =>
      obtain ⟨d, hd, h⟩ := bind_ok.mp h
      obtain ⟨w, hw, rfl⟩ := map_ok.mp hd
      obtain ⟨content, hcontent, h⟩ := bind_ok.mp h
      cases h
      refine ⟨content, rfl, ?_⟩
      rw [withSections_of_some hu hw]
      exact hcontent

/-- What an artifact's entries are once in order: each list as it was, its entries moved; nothing
new, and gone only what names the artifact and no declared collection. -/
theorem order_sorted {a b : Artifact} {declared : Declared}
    (h : order a declared = .ok b) {k : Scalar}
    (hk : k ∉ IDENTITY ∨ Assoc.get a.content k = none ∨ k ∈ Assoc.keys declared.parts) :
    Sorted (Assoc.get a.content k) (Assoc.get b.content k) := by
  have hordered :
      Sorted (Assoc.get a.content k)
      (Assoc.get (arranged (topSequence (Assoc.keys a.content) declared) a.content) k) ∨
      k ∈ Assoc.keys declared.parts ∧ (Assoc.get a.content k).isSome = true := by
    rw [get_arranged]
    cases hv : Assoc.get a.content k with
    | none =>
        left
        rw [ite_self]
        exact .same _
    | some v =>
        by_cases hpart : k ∈ Assoc.keys declared.parts
        · exact Or.inr ⟨hpart, rfl⟩
        · left
          have hown : k ∉ IDENTITY :=
            hk.resolve_right fun h => h.elim (fun h => by rw [h] at hv; cases hv) hpart
          have hmem : k ∈ Assoc.keys a.content :=
            Assoc.has_iff_mem_keys.mp (Assoc.has_of_mem (Assoc.get_eq_some_mem hv))
          rw [if_pos (mem_topSequence hmem hown declared)]
          exact .same _
  obtain ⟨content, rfl, hcontent⟩ := order_arranges h
  refine parts_sorted hcontent ?_
  cases hu : Assoc.get a.content SECTIONS with
  | none =>
      rw [withSections, hu]
      exact hordered
  | some u =>
      obtain ⟨w, hw⟩ := sectioned_returns u
      rw [withSections_of_some hu hw]
      by_cases hsections : k = SECTIONS
      · left
        subst hsections
        rw [hu, Assoc.get_set_self]
        exact listed_sorted (fun v w hvw => by cases hvw; exact section_moved v) hw
      · rwa [Assoc.get_set_ne _ _ hsections]

/-- An artifact's entries in order: the items of its collections have the names they had, where they
stood. -/
theorem order_namesAt {a b : Artifact} {declared : Declared} (h : order a declared = .ok b)
    {path : List (Scalar × Nat)} {collection : Scalar} (hk : top path collection ∉ IDENTITY ∨
      Assoc.get a.content (top path collection) = none ∨
      top path collection ∈ Assoc.keys declared.parts) :
    namesAt path collection b.content = namesAt path collection a.content :=
  (order_sorted h hk).namesAt

/-! ## When an artifact can be put in order -/

/-- The fields an item's schema declares can be named. -/
def Fielded (schema : Value) : Prop :=
  ∃ fields vs, schema.get "properties" (.map []) = .ok fields ∧ fields.iter = .ok vs ∧ ∀ v ∈ vs,
    ∃ s, v = .scalar s

/-- Each list an artifact holds in a collection its type declares is empty, or the collection has a
schema of its items, one whose fields can be named where an item is a mapping. -/
def Orderable (a : Artifact) (declared : Declared) : Prop :=
  ∀ part ∈ declared.parts, ∀ vs, Assoc.get a.content part.1 = some (.list vs) → vs ≠ [] →
    ∃ schema, part.2.at_ "items" = .ok schema ∧ ∀ es, .map es ∈ vs → Fielded schema

theorem scalars_returns {vs : List Value} :
    (∃ ss, scalars vs = .ok ss) ↔ ∀ v ∈ vs, ∃ s, v = .scalar s := by
  constructor
  · rintro ⟨ss, h⟩ v hv
    obtain ⟨s, _, hs⟩ := forall₂_of_mem (mapM_ok.mp h) hv
    cases v with
    | scalar sc => exact ⟨sc, rfl⟩
    | list _ => cases hs
    | map _ => cases hs
  · intro h
    refine mapM_returns fun v hv => ?_
    obtain ⟨s, rfl⟩ := h v hv
    exact ⟨s, rfl⟩

/-- The sections of an artifact in order are each in order, where its type has them be sections. -/
theorem order_sections {a b : Artifact} {declared : Declared} (h : order a declared = .ok b)
    (hparts : SECTIONS ∉ Assoc.keys declared.parts) {vs : List Value}
    (hvs : Assoc.get b.content SECTIONS = some (.list vs)) : ∃ us :
    List Value, vs = us.map section_ := by
  obtain ⟨content, rfl, hcontent⟩ := order_arranges h
  have hkept : Assoc.get content SECTIONS =
      Assoc.get
          (withSections a.content
          (arranged (topSequence (Assoc.keys a.content) declared) a.content)) SECTIONS := by
    refine foldlM_keeps (I := fun d => Assoc.get d SECTIONS =
      Assoc.get
        (withSections a.content (arranged (topSequence (Assoc.keys a.content) declared) a.content))
        SECTIONS) ?_ rfl hcontent
    intro d part hpart e hd he
    rcases sortedInto_ok he with ⟨_, rfl⟩ | ⟨v, w, _, _, rfl⟩
    · exact hd
    · have hne : SECTIONS ≠ part.1 := fun heq => hparts (heq ▸ List.mem_map_of_mem hpart)
      rw [Assoc.get_set_ne _ _ hne, hd]
  rw [hkept] at hvs
  unfold withSections at hvs
  split at hvs
  · next us hus =>
      rw [Assoc.get_set_self] at hvs
      cases hvs
      exact ⟨us, rfl⟩
  · next v hlist hv =>
      rw [Assoc.get_set_self] at hvs
      cases hvs
      exact absurd rfl (hlist vs)
  · next hnone =>
      rw [get_arranged, hnone, ite_self] at hvs
      cases hvs

end Settled

end Kb
