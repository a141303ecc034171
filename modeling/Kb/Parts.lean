/-
# `Kb.Parts` — the two readings of the parts of an artifact

kb's own check of a link into a part walks down the place it names, at each step to the first item
of that name (`holds_part`).  The rows the port checks are every place `parts` lists: each item of
each list, whichever it is of its name, its place written by joining keys and names with slashes.
What the walk finds is always listed (`leads_of_first`), and what is listed is found unless an item
stands behind another of its name, or a key or a name has slashes in it that read as steps.  kb
names the items of the collections a type declares so that neither happens; a list no type declares
may hold either.
-/
import Kb.Derived

namespace Kb

open Raising

namespace Places

/-! ## Where the items of a node lead -/

/-- Items of a node lead to a part of it by these steps, keys and names in turn, whichever of their
names they are. -/
inductive Leads : Dict → List String → Prop where
  | item {d es : Dict} {vs : List Value} {collection name : String} :
      (.text collection, .list vs) ∈ d →
      collection ≠ "sections" → .map es ∈ vs → Dict.get? es "id" = some (.text name) →
      Leads d [collection, name]
  | inside {d es : Dict} {vs : List Value} {collection name : String} {rest : List String} :
      (.text collection, .list vs) ∈ d →
      collection ≠ "sections" → .map es ∈ vs → Dict.get? es "id" = some (.text name) →
      Leads es rest →
      Leads d (collection :: name :: rest)

/-- The first item of a name in a list. -/
def First (name : String) (vs : List Value) (es : Dict) : Prop :=
  ∃ before after, vs = before ++ .map es :: after ∧ Dict.get? es "id" = some (.text name) ∧
    ∀ fs, .map fs ∈ before → Dict.get? fs "id" ≠ some (.text name)

/-- The first items of their names lead to a part of a node by these steps. -/
inductive LeadsFirst : Dict → List String → Prop where
  | item {d es : Dict} {vs : List Value} {collection name : String} :
      Dict.get? d collection = some (.list vs) →
      collection ≠ "sections" → First name vs es → LeadsFirst d [collection, name]
  | inside {d es : Dict} {vs : List Value} {collection name : String} {rest : List String} :
      Dict.get? d collection = some (.list vs) → collection ≠ "sections" → First name vs es →
        LeadsFirst es rest →
      LeadsFirst d (collection :: name :: rest)

/-- A place all of whose steps are plain names, as a link names one. -/
def Plain (place : List String) : Prop := ∀ step ∈ place, Names.plain step = true

/-- Content whose parts have each one address. -/
structure Addressed (content : Dict) : Prop where
  /-- What items of plain names lead to, the first items of those names lead to. -/
  first : ∀ place, Plain place → Leads content place → LeadsFirst content place
  /-- Keys and names with slashes in them that read as plain steps lead where the first items of
  those names do. -/
  whole : ∀ place steps, Leads content steps → steps ≠ place →
    Names.placed steps = Names.placed place → Plain place →
    LeadsFirst content place

/-- Content whose lists, at every depth, hold one item of each name, no slash in their keys or
names. -/
inductive Tidy : Dict → Prop where
  | lists {d : Dict} : (Assoc.keys d).Nodup →
      (∀ collection vs, (.text collection, .list vs) ∈ d → collection ≠ "sections" →
        '/' ∉ collection.toList ∧
        (ItemNames.carried vs).Nodup) →
      (∀ collection vs es name, (.text collection, .list vs) ∈ d → collection ≠ "sections" →
        .map es ∈ vs →
        Dict.get? es "id" = some (.text name) → '/' ∉ name.toList) →
      (∀ collection vs es name, (.text collection, .list vs) ∈ d → collection ≠ "sections" →
        .map es ∈ vs →
        Dict.get? es "id" = some (.text name) → Tidy es) → Tidy d

theorem Leads.ne_nil {d : Dict} {place : List String} (h : Leads d place) : place ≠ [] := by
  cases h <;> exact nofun

/-! ## The places listed -/

theorem placed_inside {collection name : String} {rest : List String} (h : rest ≠ []) :
    Names.placed [Names.placed [collection, name], Names.placed rest] =
      Names.placed (collection :: name :: rest) := by
  have hmap : rest.map String.toList ≠ [] := by simpa using h
  unfold Names.placed
  simp only [List.map_cons, List.map_nil, String.toList_ofList, List.intercalate_cons_cons,
    List.intercalate_singleton, List.intercalate_cons_of_ne_nil hmap, List.append_assoc]

theorem mem_parts {d : Dict} {s : String} :
    s ∈ parts d ↔ ∃ collection vs, (.text collection, .list vs) ∈ d ∧ collection ≠ "sections" ∧
      s ∈ partsIn collection vs := by
  induction d with
  | nil => simp [parts]
  | cons e d ih =>
      have hskip : parts (e :: d) = parts d → (∀ collection vs, e ≠ (.text collection, .list vs)) →
          (s ∈ parts (e :: d) ↔ ∃ collection vs, (.text collection, .list vs) ∈ e :: d ∧
            collection ≠ "sections" ∧
            s ∈ partsIn collection vs) := by
        intro heq he
        rw [heq, ih]
        constructor
        · rintro ⟨collection, vs, hmem, h⟩
          exact ⟨collection, vs, List.mem_cons_of_mem _ hmem, h⟩
        · rintro ⟨collection, vs, hmem, h⟩
          exact ⟨collection, vs, (List.mem_cons.mp hmem).resolve_left fun h => he _ _ h.symm, h⟩
      obtain ⟨k, v⟩ := e
      cases k with
      | text collection =>
          cases v with
          | list vs =>
              rw [parts, List.mem_append, ih]
              constructor
              · rintro (h | ⟨c, ws, hmem, h⟩)
                · split at h
                  · cases h
                  · next hc => exact ⟨collection, vs, List.mem_cons_self, hc, h⟩
                · exact ⟨c, ws, List.mem_cons_of_mem _ hmem, h⟩
              · rintro ⟨c, ws, hmem, hc, h⟩
                rcases List.mem_cons.mp hmem with he | hmem
                · cases he
                  exact Or.inl (by rwa [if_neg hc])
                · exact Or.inr ⟨c, ws, hmem, hc, h⟩
          | scalar _ => exact hskip (by simp [parts]) fun _ _ he => by cases he
          | map _ => exact hskip (by simp [parts]) fun _ _ he => by cases he
      | _ => exact hskip (by simp [parts]) fun _ _ he => by cases he

theorem mem_partsIn {collection s : String} {vs : List Value} :
    s ∈ partsIn collection vs ↔ ∃ es name, .map es ∈ vs ∧ Dict.get? es "id" = some (.text name) ∧
      (s = Names.placed [collection, name] ∨ ∃ inner ∈ parts es,
        s = Names.placed [Names.placed [collection, name], inner]) := by
  induction vs with
  | nil => simp [partsIn]
  | cons v vs ih =>
      have hskip : partsIn collection (v :: vs) = partsIn collection vs →
          (∀ es name, v = .map es → Dict.get? es "id" ≠ some (.text name)) →
          (s ∈ partsIn collection (v :: vs) ↔ ∃ es name, .map es ∈ v :: vs ∧
            Dict.get? es "id" = some (.text name) ∧
            (s = Names.placed [collection, name] ∨ ∃ inner ∈ parts es,
                s = Names.placed [Names.placed [collection, name], inner])) := by
        intro heq hv
        rw [heq, ih]
        constructor
        · rintro ⟨es, name, hmem, h⟩
          exact ⟨es, name, List.mem_cons_of_mem _ hmem, h⟩
        · rintro ⟨es, name, hmem, hid, h⟩
          exact ⟨es, name, (List.mem_cons.mp hmem).resolve_left fun he =>
            hv es name he.symm hid, hid, h⟩
      cases v with
      | scalar _ => exact hskip (by simp [partsIn]) fun _ _ h => by cases h
      | list _ => exact hskip (by simp [partsIn]) fun _ _ h => by cases h
      | map es =>
          by_cases hname : ∃ name, Dict.get? es "id" = some (.text name)
          swap
          · refine hskip ?_ fun fs name he hn => ?_
            · rw [partsIn]
              split
              · next name hid => exact absurd ⟨name, hid⟩ hname
              · exact List.nil_append _
            · cases he
              exact hname ⟨name, hn⟩
          obtain ⟨name, hid⟩ := hname
          rw [partsIn, hid, List.mem_append, ih]
          constructor
          · rintro (h | ⟨fs, n, hmem, h⟩)
            · refine ⟨es, name, List.mem_cons_self, hid, ?_⟩
              rcases List.mem_cons.mp h with h | h
              · exact Or.inl h
              · obtain ⟨inner, hinner, rfl⟩ := List.mem_map.mp h
                exact Or.inr ⟨inner, hinner, rfl⟩
            · exact ⟨fs, n, List.mem_cons_of_mem _ hmem, h⟩
          · rintro ⟨fs, n, hmem, hn, h⟩
            rcases List.mem_cons.mp hmem with he | hmem
            · cases he
              rw [hid] at hn
              cases hn
              refine Or.inl (List.mem_cons.mpr ?_)
              rcases h with h | ⟨inner, hinner, rfl⟩
              · exact Or.inl h
              · exact Or.inr (List.mem_map.mpr ⟨inner, hinner, rfl⟩)
            · exact Or.inr ⟨fs, n, hmem, hn, h⟩

/-- Where items lead is listed. -/
theorem parts_of_leads {d : Dict} {place : List String} (h : Leads d place) :
    Names.placed place ∈ parts d := by
  induction h with
  | item hmem hc hes hid =>
      exact mem_parts.mpr ⟨_, _, hmem, hc, mem_partsIn.mpr ⟨_, _, hes, hid, Or.inl rfl⟩⟩
  | inside hmem hc hes hid hrest ih =>
      refine mem_parts.mpr ⟨_, _, hmem, hc, mem_partsIn.mpr ⟨_, _, hes, hid, Or.inr ⟨_, ih, ?_⟩⟩⟩
      exact (placed_inside hrest.ne_nil).symm

/-- What is listed is where items lead. -/
theorem leads_of_parts {d : Dict} {s : String} (h : s ∈ parts d) :
    ∃ place, Leads d place ∧ Names.placed place = s := by
  induction hsize : sizeOf (Value.map d) using Nat.strong_induction_on generalizing d s with
  | _ size ih =>
      subst hsize
      obtain ⟨collection, vs, hmem, hc, h⟩ := mem_parts.mp h
      obtain ⟨es, name, hes, hid, h⟩ := mem_partsIn.mp h
      rcases h with rfl | ⟨inner, hinner, rfl⟩
      · exact ⟨_, .item hmem hc hes hid, rfl⟩
      · have hwithin : Value.Within (.map d) (.map es) := .trans (.value hmem) (.entry hes)
        obtain ⟨rest, hrest, rfl⟩ := ih _ hwithin.sizeOf_lt hinner rfl
        exact ⟨_, .inside hmem hc hes hid hrest, (placed_inside hrest.ne_nil).symm⟩

/-! ## The part a walk finds -/

theorem first_cons {name : String} {v : Value} {vs : List Value} {es : Dict} :
    First name (v :: vs) es ↔ v = .map es ∧ Dict.get? es "id" = some (.text name) ∨
      (∀ fs, v = .map fs → Dict.get? fs "id" ≠ some (.text name)) ∧ First name vs es := by
  constructor
  · rintro ⟨before, after, heq, hid, hbefore⟩
    cases before with
    | nil =>
        cases heq
        exact Or.inl ⟨rfl, hid⟩
    | cons w before =>
        cases heq
        refine Or.inr ⟨fun fs hv => hbefore fs ?_, before, after, rfl, hid, fun fs hfs =>
          hbefore fs (List.mem_cons_of_mem _ hfs)⟩
        rw [hv]
        exact List.mem_cons_self
  · rintro (⟨rfl, hid⟩ | ⟨hv, before, after, rfl, hid, hbefore⟩)
    · exact ⟨[], vs, rfl, hid, nofun⟩
    · refine ⟨v :: before, after, rfl, hid, fun fs hfs => ?_⟩
      rcases List.mem_cons.mp hfs with he | hfs
      · exact hv fs he.symm
      · exact hbefore fs hfs

/-- What a step of a place finds in a list is the first item of its name. -/
theorem find_iff {collection name : String} (hc : collection ≠ "sections") {vs : List Value}
    {es : Dict} (k : Nat) :
    (∃ i, find collection name vs k = some (i, es)) ↔ First name vs es := by
  have hnamed : ∀ fs, isNamed collection name fs = true ↔
      Dict.get? fs "id" = some (.text name) := by
    intro fs
    rw [isNamed, if_neg hc, decide_eq_true_eq]
  induction vs generalizing k with
  | nil =>
      constructor
      · rintro ⟨i, h⟩
        cases h
      · rintro ⟨before, after, heq, _⟩
        cases before <;> cases heq
  | cons v vs ih =>
      rw [first_cons]
      cases v with
      | scalar s =>
          rw [find]
          · exact (ih _).trans ⟨fun h => Or.inr ⟨nofun, h⟩,
              fun h => (h.resolve_left fun h => nomatch h.1).2⟩
          · exact nofun
      | list ws =>
          rw [find]
          · exact (ih _).trans ⟨fun h => Or.inr ⟨nofun, h⟩,
              fun h => (h.resolve_left fun h => nomatch h.1).2⟩
          · exact nofun
      | map fs =>
          rw [find]
          by_cases hfs : isNamed collection name fs = true
          · rw [if_pos hfs]
            constructor
            · rintro ⟨i, h⟩
              cases h
              exact Or.inl ⟨rfl, (hnamed _).mp hfs⟩
            · rintro (⟨h, _⟩ | ⟨h, _⟩)
              · cases h
                exact ⟨k, rfl⟩
              · exact absurd ((hnamed fs).mp hfs) (h fs rfl)
          · rw [if_neg hfs]
            refine (ih _).trans ?_
            constructor
            · refine fun h => Or.inr ⟨fun gs hgs hid => ?_, h⟩
              cases hgs
              exact hfs ((hnamed _).mpr hid)
            · rintro (⟨h, hid⟩ | ⟨_, h⟩)
              · cases h
                exact absurd ((hnamed _).mpr hid) hfs
              · exact h

/-- kb finds a part at a place just when the first items of its names lead there. -/
theorem holdsPart_iff {d : Dict} {place : List String} :
    holdsPart d place = true ↔ LeadsFirst d place := by
  constructor
  · intro h
    unfold holdsPart at h
    simp only [Bool.and_eq_true, decide_eq_true_eq, Bool.not_eq_true', List.contains_eq_mem,
      decide_eq_false_iff_not] at h
    obtain ⟨⟨heven, hsections⟩, hwalk⟩ := h
    induction place using collections.induct generalizing d with
    | case1 => cases hwalk
    | case2 collection => simp at heven
    | case3 collection name rest ih =>
        obtain ⟨hc, hrest⟩ : collection ≠ "sections" ∧ "sections" ∉ collections rest := by
          rw [collections, List.mem_cons, not_or] at hsections
          exact ⟨Ne.symm hsections.1, hsections.2⟩
        rw [walk] at hwalk
        split at hwalk
        · next vs hvs =>
            split at hwalk
            · cases hwalk
            · next index es hfind =>
                have hfirst := (find_iff hc 0).mp ⟨index, hfind⟩
                split at hwalk
                · next hnil =>
                    rw [List.isEmpty_iff.mp hnil]
                    exact .item hvs hc hfirst
                · rw [Option.isSome_map] at hwalk
                  refine .inside hvs hc hfirst (ih hwalk ?_ hrest)
                  simp only [List.length_cons] at heven
                  omega
        · cases hwalk
  · intro h
    suffices hall : place.length % 2 = 0 ∧ "sections" ∉ collections place ∧
        (walk d place).isSome = true by
      simp [holdsPart, hall]
    induction h with
    | @item d es vs collection name hvs hc hfirst =>
        obtain ⟨i, hfind⟩ := (find_iff hc 0).mpr hfirst
        refine ⟨by simp, by simp [collections, Ne.symm hc], ?_⟩
        simp [walk, hvs, hfind]
    | @inside d es vs collection name rest hvs hc hfirst hrest ih =>
        obtain ⟨i, hfind⟩ := (find_iff hc 0).mpr hfirst
        obtain ⟨heven, hsections, hwalk⟩ := ih
        refine ⟨?_, ?_, ?_⟩
        · simp only [List.length_cons]
          omega
        · simp [collections, Ne.symm hc, hsections]
        · have hne : rest ≠ [] := by
            rintro rfl
            cases hwalk
          simp [walk, hvs, hfind, hne, hwalk]

/-- What the first items lead to, items lead to. -/
theorem leads_of_first {d : Dict} {place : List String} (h : LeadsFirst d place) :
    Leads d place := by
  induction h with
  | item hvs hc hfirst =>
      obtain ⟨before, after, rfl, hid, _⟩ := hfirst
      exact .item (Assoc.get_eq_some_mem hvs) hc (List.mem_append_right _ List.mem_cons_self) hid
  | inside hvs hc hfirst _ ih =>
      obtain ⟨before, after, rfl, hid, _⟩ := hfirst
      exact .inside (Assoc.get_eq_some_mem hvs) hc
        (List.mem_append_right _ List.mem_cons_self) hid ih

/-- An item of a list that holds one of each name is the first of its name. -/
theorem first_of_mem {vs : List Value} {es : Dict} {name : String}
    (honce : (ItemNames.carried vs).Nodup) (hes : .map es ∈ vs)
    (hid : Dict.get? es "id" = some (.text name)) : First name vs es := by
  obtain ⟨before, after, rfl⟩ := List.append_of_mem hes
  refine ⟨before, after, rfl, hid, fun fs hfs hsame => ?_⟩
  rw [ItemNames.carried, List.filterMap_append] at honce
  have hbefore : (.text name : Value) ∈ ItemNames.carried before :=
    List.mem_filterMap.mpr ⟨_, hfs, hsame⟩
  have hafter : (.text name : Value) ∈ ItemNames.carried (.map es :: after) :=
    List.mem_filterMap.mpr ⟨_, List.mem_cons_self, hid⟩
  exact (List.nodup_append.mp honce).2.2 _ hbefore _ hafter rfl

/-- In tidy content items lead where the first of their names do, by steps with no slash in them. -/
theorem Leads.tidy {d : Dict} {place : List String} (h : Leads d place) (htidy : Tidy d) :
    LeadsFirst d place ∧ ∀ step ∈ place, '/' ∉ step.toList := by
  induction h with
  | item hmem hc hes hid =>
      cases htidy with
      | lists hkeys hlists hnames _ =>
          obtain ⟨hcollection, honce⟩ := hlists _ _ hmem hc
          refine ⟨.item (Assoc.get_of_mem hkeys hmem) hc (first_of_mem honce hes hid),
            fun step hstep => ?_⟩
          rcases List.mem_pair.mp hstep with rfl | rfl
          · exact hcollection
          · exact hnames _ _ _ _ hmem hc hes hid
  | inside hmem hc hes hid _ ih =>
      cases htidy with
      | lists hkeys hlists hnames hinner =>
          obtain ⟨hcollection, honce⟩ := hlists _ _ hmem hc
          obtain ⟨hfirst, hrest⟩ := ih (hinner _ _ _ _ hmem hc hes hid)
          refine ⟨.inside (Assoc.get_of_mem hkeys hmem) hc (first_of_mem honce hes hid) hfirst,
            fun step hstep => ?_⟩
          rcases List.mem_cons.mp hstep with rfl | hstep
          · exact hcollection
          rcases List.mem_cons.mp hstep with rfl | hstep
          · exact hnames _ _ _ _ hmem hc hes hid
          · exact hrest step hstep

/-- Steps with no slash in them are read back of how they are written. -/
theorem splitOn_placed {place : List String} (hne : place ≠ [])
    (h : ∀ step ∈ place, '/' ∉ step.toList) :
    (Names.placed place).toList.splitOn '/' = place.map String.toList := by
  rw [Names.placed, String.toList_ofList]
  exact List.splitOn_intercalate '/' (by simpa using h) (by simpa using hne)

theorem not_slash_of_plain {step : String} (h : Names.plain step = true) : '/' ∉ step.toList := by
  intro hc
  rcases Names.mem_piece (m := '-') hc with hdash | ⟨run, hrun, hc⟩
  · exact absurd hdash (by decide)
  · have hplain := List.all_eq_true.mp h run hrun
    simp only [Bool.and_eq_true, List.all_eq_true] at hplain
    exact (Names.plainChar_ne (hplain.2 _ hc)).1 rfl

/-- Tidy content is addressed. -/
theorem Tidy.addressed {content : Dict} (h : Tidy content) : Addressed content where
  first _ _ hleads := (hleads.tidy h).1
  whole place steps hleads hne hsame hplain := by
    have hsteps := splitOn_placed hleads.ne_nil (hleads.tidy h).2
    rw [hsame] at hsteps
    by_cases hplace : place = []
    · -- steps are a key and a name at least, and nothing is written as no place
      have hnone : (Names.placed []).toList.splitOn '/' = [[]] := rfl
      rw [hplace, hnone] at hsteps
      cases hleads <;> simp at hsteps
    · rw [splitOn_placed hplace fun step hstep => not_slash_of_plain (hplain step hstep)] at hsteps
      exact absurd (List.map_injective_iff.mpr (fun _ _ => String.toList_inj.mp) hsteps).symm hne

/-- The two readings agree on every place of plain steps just when the content's parts have each one
address. -/
theorem agree_iff (content : Dict) :
    (∀ place, Plain place → (Names.placed place ∈ parts content ↔ holdsPart content place = true)) ↔
      Addressed content := by
  constructor
  · intro h
    refine ⟨fun place hplain hleads => ?_, fun place steps hleads _ hsame hplain => ?_⟩
    · exact holdsPart_iff.mp ((h place hplain).mp (parts_of_leads hleads))
    · exact holdsPart_iff.mp ((h place hplain).mp (hsame ▸ parts_of_leads hleads))
  · intro h place hplain
    rw [holdsPart_iff]
    refine ⟨fun hlisted => ?_, fun hfirst => parts_of_leads (leads_of_first hfirst)⟩
    obtain ⟨steps, hleads, hsame⟩ := leads_of_parts hlisted
    by_cases heq : steps = place
    · exact h.first place hplain (heq ▸ hleads)
    · exact h.whole place steps hleads heq hsame hplain

end Places

namespace Parts

/-- For every artifact a store of a run holds, what its parts are listed as, what its part rows are
and what a place finds agree on every place of plain steps just when its parts have each one
address: as they have where its lists hold one item of each name, with no slash in their keys and
names. -/
theorem parts_read_alike {O : Outside} (hdepth : 0 < O.depth) {states : List Tables}
    (h : Run O states) {t : Tables} (ht : t ∈ states) {id : ArtifactId} {a : Artifact}
    (ha : t.artifact id = some a) :
    ((∀ place, Places.Plain place →
      (Names.placed place ∈ Places.parts a.whole ↔ Places.holdsPart a.whole place = true) ∧
        (Names.placed place ∈ t.partsOf id ↔ Places.holdsPart a.whole place = true)) ↔
          Places.Addressed a.whole) ∧
      (Places.Tidy a.whole → Places.Addressed a.whole) := by
  have hrows : ∀ place, place ∈ t.partsOf id ↔ place ∈ Places.parts a.whole := by
    intro place
    rw [(h.derived hdepth t ht).parts id a ha, Settled.mem_once]
  refine ⟨?_, Places.Tidy.addressed⟩
  rw [← Places.agree_iff]
  constructor
  · intro hall place hplain
    exact (hall place hplain).1
  · intro hall place hplain
    exact ⟨hall place hplain, (hrows _).trans (hall place hplain)⟩

/-! ## An item behind another of its name, and a name with slashes in it -/

namespace Listed

open Sample

def type : ArtifactId := ⟨"https://kb.io/s", by decide⟩
def note : ArtifactId := ⟨"https://kb.io/s/a", by decide⟩
def noteVersion : Version := ⟨type, 1, Nat.one_pos, by decide⟩

def named (name : String) (entries : Dict) : Value := .map ((.text "id", .text name) :: entries)

/-- Items of a list no type declares: one behind another of its name, which holds a part, and one
named with slashes. -/
def steps : Value :=
  .list [named "a" [], named "a" [(.text "notes", .list [named "b" []])], named "c/d/e" []]

def defining : Operation :=
  .create type Start.METASCHEMA_VERSION "T" [] { tree := .map [(.text "schema", .map [])] } []
def creating (tree : Dict) : Operation := .create note noteVersion "A" [] { tree := .map tree } []

def created (tree : Dict) : List (List Operation) := [[creating tree], [defining]]

theorem created_asked (tree : Dict) :
    ∀ operations ∈ created tree, ∀ op ∈ operations, op.asked = true := by
  intro operations hoperations op hop
  rcases List.mem_cons.mp hoperations with rfl | hoperations
  · rw [List.mem_singleton.mp hop]
    rfl
  · rw [List.mem_singleton.mp hoperations] at hop
    rw [List.mem_singleton.mp hop]
    rfl

/-- The note, with a list of its own. -/
def noted (tree : Dict) : Artifact := ⟨note, noteVersion, 1, "A", tree⟩

end Listed

open Listed in
/-- A note whose list holds one item of a plain name. -/
theorem parts_read_alike_named :
    ((∀ place, Places.Plain place →
      (Names.placed place ∈ Places.parts (noted [(.text "steps", .list [named "a" []])]).whole ↔
          Places.holdsPart (noted [(.text "steps", .list [named "a" []])]).whole place = true) ∧
        (Names.placed place ∈
          (Sample.store (created [(.text "steps", .list [named "a" []])])).partsOf note ↔
          Places.holdsPart (noted [(.text "steps", .list [named "a" []])]).whole place = true)) ↔
      Places.Addressed (noted [(.text "steps", .list [named "a" []])]).whole) ∧
      (Places.Tidy (noted [(.text "steps", .list [named "a" []])]).whole →
        Places.Addressed (noted [(.text "steps", .list [named "a" []])]).whole) := by
  obtain ⟨hran, hsome, hartifact⟩ :
      (Sample.ran (created [(.text "steps", .list [named "a" []])])).isSome = true ∧
      (Sample.stores (created [(.text "steps", .list [named "a" []])])).isEmpty = false ∧
      (Sample.store (created [(.text "steps", .list [named "a" []])])).artifact note =
        some (noted [(.text "steps", .list [named "a" []])]) := by
    decide +kernel
  exact parts_read_alike (O := Sample.outside) (by decide)
    (Sample.stores_run (created_asked _) hran) (Sample.store_mem hsome) hartifact

open Listed in
/-- A note with such a list: the places of the part behind, and of the name with slashes, are listed
and are rows of the store, and lead to nothing. -/
theorem parts_read_apart :
    ∃ states, Run Sample.outside states ∧ ∃ t ∈ states,
      t.artifact note = some (noted [(.text "steps", steps)]) ∧
      ∀ place ∈ [["steps", "a", "notes", "b"], ["steps", "c", "d", "e"]], Places.Plain place ∧
        Names.placed place ∈ Places.parts (noted [(.text "steps", steps)]).whole ∧
        Names.placed place ∈ t.partsOf note ∧
        Places.holdsPart (noted [(.text "steps", steps)]).whole place = false := by
  obtain ⟨hran, hsome, hartifact, hplaces⟩ :
      (Sample.ran (created [(.text "steps", steps)])).isSome = true ∧
      (Sample.stores (created [(.text "steps", steps)])).isEmpty = false ∧
      (Sample.store (created [(.text "steps", steps)])).artifact note =
        some (noted [(.text "steps", steps)]) ∧
      ∀ place ∈ [["steps", "a", "notes", "b"], ["steps", "c", "d", "e"]],
        (∀ step ∈ place, Names.plain step = true) ∧
        Names.placed place ∈ Places.parts (noted [(.text "steps", steps)]).whole ∧
        Names.placed place ∈ (Sample.store (created [(.text "steps", steps)])).partsOf note ∧
        Places.holdsPart (noted [(.text "steps", steps)]).whole place = false := by
    decide +kernel
  exact ⟨_, Sample.stores_run (created_asked _) hran, _, Sample.store_mem hsome, hartifact, hplaces⟩

end Parts

end Kb
