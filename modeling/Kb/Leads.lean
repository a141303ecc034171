/-
# `Kb.Leads` — what a file offered leads to

`skipping.py`, of any files offered: whether a file is held back (`heldBack`), the shortest chain of
files to a broken one (`chain`), and the types no version of which would land (`lost`).  The two
searches are `Kb.Lib.Chains`'s: a file is held back just where the version files it is read through
lead to another with an error (`heldBack_iff`), and a chain is told just where there is one, of
least length (`chain_shortest`, `chain_isSome`).

Names lead to names where files are held back (`ReadThrough`), and a broken file leads on there;
places lead to places where chains are grown (`Reads`), and a broken file leads nowhere.
-/
import Kb.TypesFirst
import Kb.Lib.Chains

namespace Kb.Skipping

open Relation Importing

variable {offered : List Offered}

/-! ## Files held back -/

/-- The names of the type version files a name's file is read through. -/
def beneathOf (offered : List Offered) (name : Name) : List Name :=
  ((byName offered name).map (beneath offered)).getD []

/-- Whether a name's file has an error. -/
def brokenAt (offered : List Offered) (name : Name) : Bool :=
  (byName offered name).any fun o => !o.errors.isEmpty

theorem mem_beneathOf {name under : Name} :
    under ∈ beneathOf offered name ↔ ReadThrough offered name under := by
  unfold beneathOf ReadThrough
  cases byName offered name with
  | none => simp
  | some each => simp

theorem brokenAt_iff {name : Name} :
    brokenAt offered name = true ↔ ∃ o, byName offered name = some o ∧ o.errors ≠ [] := by
  unfold brokenAt
  cases byName offered name with
  | none => simp
  | some o => simp

theorem leads_beneathOf :
    (fun name under => under ∈ beneathOf offered name) = ReadThrough offered := by
  funext name under
  exact propext mem_beneathOf

/-- A file offered under its own name. -/
theorem byName_of_mem (hnames : (offered.filterMap Offered.name).Nodup) {o : Offered}
    (ho : o ∈ offered) {name : Name} (hname : o.name = some name) :
    byName offered name = some o := by
  unfold byName
  induction offered with
  | nil => cases ho
  | cons o' offered ih =>
      rw [List.find?_cons]
      rcases List.mem_cons.mp ho with rfl | hmem
      · rw [hname, decide_eq_true rfl]
      · have hrest : (offered.filterMap Offered.name).Nodup :=
          hnames.sublist ((List.sublist_cons_self o' offered).filterMap _)
        by_cases hname' : o'.name = some name
        · rw [List.filterMap_cons_some hname'] at hnames
          exact absurd (List.mem_filterMap.mpr ⟨o, hmem, hname⟩) (List.nodup_cons.mp hnames).1
        · rw [decide_eq_false hname']
          exact ih hrest hmem

theorem mem_of_byName {o : Offered} {name : Name} (h : byName offered name = some o) :
    o ∈ offered ∧ o.name = some name :=
  ⟨List.mem_of_find?_eq_some h, by simpa using List.find?_some h⟩

/-- A file held back by a bound is a name that leads to a broken one by it. -/
theorem heldBackIn_eq {depth : Nat} {seen : List Name} {name : Name} {each : Offered}
    (h : byName offered name = some each) :
    heldBackIn offered depth seen each = Chains.seeks (beneathOf offered)
      (brokenAt offered) depth seen name := by
  induction depth generalizing seen name each with
  | zero => rfl
  | succ depth ih =>
      have hbeneath : beneathOf offered name = beneath offered each := by
        rw [beneathOf, h]
        rfl
      rw [heldBackIn, Chains.seeks, hbeneath, (mem_of_byName h).2]
      refine List.any_congr rfl fun under => ?_
      show (decide (under ∉ name :: seen) && _) = _
      cases hunder : byName offered under with
      | none =>
          -- a name nothing is offered under leads nowhere
          have hnone : beneathOf offered under = [] := by
            rw [beneathOf, hunder]
            rfl
          have hseeks : Chains.seeks (beneathOf offered) (brokenAt offered) depth
              (name :: seen) under = false := by
            cases depth with
            | zero => rfl
            | succ depth =>
                rw [Chains.seeks, hnone]
                rfl
          rw [hseeks, brokenAt, hunder]
          rfl
      | some o =>
          rw [brokenAt, hunder, ← ih hunder]
          rfl

/-- A file is held back, by any bound past the number of files, just where the version files it is
read through lead to another with an error. -/
theorem heldBackIn_iff (hnames : (offered.filterMap Offered.name).Nodup) {each : Offered}
    (heach : each ∈ offered) {depth : Nat} (hdepth : offered.length < depth) :
    heldBackIn offered depth [] each = true ↔ ∃ under ∈ beneath offered each, ∃ name, ReflTransGen
      (ReadThrough offered) under name ∧
      each.name ≠ some name ∧ ∃ o, byName offered name = some o ∧ o.errors ≠ [] := by
  have hclosed : ∀ name ∈ offered.filterMap Offered.name, ∀ under ∈ beneathOf offered name,
      under ∈ offered.filterMap Offered.name :=
    fun _ _ _ hunder => (mem_beneathOf.mp hunder).given.2.1
  have hlength : (offered.filterMap Offered.name).length ≤ offered.length :=
    List.length_filterMap_le _ _
  -- of a file under a name
  have hnamed : ∀ {depth : Nat}, offered.length ≤ depth → ∀ {name : Name} {o : Offered},
      byName offered name = some o →
      (heldBackIn offered depth [] o = true ↔
        ∃ name', name' ≠ name ∧ TransGen (ReadThrough offered) name name' ∧
        brokenAt offered name' = true) := by
    intro depth hdepth name o ho
    rw [heldBackIn_eq ho, Chains.seeks_iff hclosed (hlength.trans hdepth)
      (byName_isSome.mp (by rw [ho]; rfl)), leads_beneathOf]
  cases hname : each.name with
  | some name =>
      have hby := byName_of_mem hnames heach hname
      rw [hnamed hdepth.le hby]
      constructor
      · rintro ⟨name', hne, hleads, hbroken⟩
        obtain ⟨under, ⟨each', heach', hunder⟩, hrest⟩ := TransGen.head'_iff.mp hleads
        cases hby.symm.trans heach'
        exact ⟨under, hunder, name', hrest, fun he => hne (Option.some.inj he).symm,
          brokenAt_iff.mp hbroken⟩
      · rintro ⟨under, hunder, name', hrest, hne, hbroken⟩
        exact ⟨name', fun he => hne (congrArg some he.symm), .head' ⟨each, hby, hunder⟩ hrest,
          brokenAt_iff.mpr hbroken⟩
  | none =>
      obtain ⟨depth, rfl⟩ : ∃ d, depth = d + 1 := ⟨depth - 1, by omega⟩
      rw [heldBackIn, hname, List.any_eq_true]
      refine exists_congr fun under => and_congr_right fun hunder => ?_
      obtain ⟨⟨o, ho⟩, _⟩ := mem_beneath hunder
      have hbroken : brokenAt offered under = !o.errors.isEmpty := by
        rw [brokenAt, ho]
        rfl
      rw [ho]
      show (decide (under ∉ []) && (!o.errors.isEmpty || heldBackIn offered depth [] o)) = true ↔ _
      rw [decide_eq_true List.not_mem_nil, Bool.true_and, Bool.or_eq_true, ← hbroken,
        hnamed (by omega) ho]
      constructor
      · rintro (hhit | ⟨name', _, hleads, hhit⟩)
        · exact ⟨under, .refl, nofun, brokenAt_iff.mp hhit⟩
        · exact ⟨name', hleads.to_reflTransGen, nofun, brokenAt_iff.mp hhit⟩
      · rintro ⟨name', hreaches, _, hhit⟩
        by_cases hne : name' = under
        · subst hne
          exact Or.inl (brokenAt_iff.mpr hhit)
        · rcases reflTransGen_iff_eq_or_transGen.mp hreaches with heq | hleads
          · exact absurd heq hne
          · exact Or.inr ⟨name', hne, hleads, brokenAt_iff.mpr hhit⟩

/-! ## The shortest chain -/

/-- The files a file leads to. -/
def ledTo (leads : List (String × List String)) (file : String) : List String :=
  (Assoc.get leads file).getD []

section

variable {leads : List (String × List String)} {goal : List String}

theorem grow_eq (fuel : Nat) (waiting : List (List String)) (reached : List String) :
    grow (ledTo leads) goal fuel waiting reached =
      Chains.search (ledTo leads) goal "" fuel waiting reached := by
  induction fuel generalizing waiting reached with
  | zero => rfl
  | succ fuel ih =>
      cases waiting with
      | nil => rfl
      | cons chain waiting =>
          rw [grow, Chains.search, List.foldl_ext _ (Chains.take goal chain) (none, [], reached)]
          · generalize (ledTo leads (chain.getLastD "")).foldl (Chains.take goal chain) (none, [],
              reached) = out
            obtain ⟨found, added, reached⟩ := out
            cases found with
            | none => exact ih _ _
            | some found => rfl
          · rintro ⟨found, added, reached⟩ file _
            cases found with
            | none =>
                by_cases hreached : file ∈ reached
                · simp only [Chains.take, if_pos hreached]
                · by_cases hgoal : file ∈ goal
                  · simp only [Chains.take, if_neg hreached, if_pos hgoal]
                  · simp only [Chains.take, if_neg hreached, if_neg hgoal]
            | some found => rfl

theorem chain_eq (start : String) :
    chain leads goal start = Chains.search (ledTo leads) goal "" (leads.length + goal.length + 1)
      [[start]] [start] :=
  grow_eq _ _ _

/-- A chain of files, each led to by the one before it. -/
abbrev Chained (leads : List (String × List String)) (file last : String) (c : List String) :
    Prop :=
  Chains.Chain (fun file under => under ∈ ledTo leads file) file last c

/-- The chain told leads to a broken file, past none, and none that leads to one is shorter. -/
theorem chain_shortest {start : String} (hstart : start ∉ goal) {c : List String}
    (h : chain leads goal start = some c) :
    ∃ last ∈ goal, Chained leads start last c ∧ (∀ file ∈ c.dropLast, file ∉ goal) ∧
      ∀ last' ∈ goal, ∀ c', Chained leads start last' c' → c.length ≤ c'.length :=
  (Chains.Grown.begin hstart).search_some (chain_eq start ▸ h)

/-- A chain is told just where the file leads to a broken one. -/
theorem chain_isSome {start : String} (hstart : start ∉ goal) (hkey : start ∈ Assoc.keys leads)
    (hclosed : ∀ file under, under ∈ ledTo leads file → under ∈ Assoc.keys leads ++ goal) :
    (chain leads goal start).isSome = true ↔
      ∃ last ∈ goal, ReflTransGen (fun file under => under ∈ ledTo leads file) start last := by
  constructor
  · intro h
    obtain ⟨c, hc⟩ := Option.isSome_iff_exists.mp h
    obtain ⟨last, hlast, hchain, _⟩ := chain_shortest hstart hc
    exact ⟨last, hlast, hchain.reaches⟩
  · rintro ⟨last, hlast, hreaches⟩
    by_contra hnone
    rw [Option.not_isSome_iff_eq_none, chain_eq] at hnone
    refine (Chains.Grown.begin hstart).search_none (fun file _ under hunder =>
      hclosed file under hunder) ?_ ?_ hnone last hlast hreaches
    · intro file hfile
      rw [List.mem_singleton.mp hfile]
      exact List.mem_append_left _ hkey
    · simp only [List.length_append, List.length_singleton, Assoc.keys, List.length_map]
      omega

end

/-! ## What files are read through -/

/-- A file that may lead on: one without an error, under a name that is not the type of types'. -/
def Leading (o : Offered) : Prop := o.errors = [] ∧ o.name.isSome = true ∧ o.id ≠ some METASCHEMA_ID

/-- A file that may lead on is read through the version file at a place. -/
def Reads (offered : List Offered) (file under : String) : Prop :=
  ∃ o ∈ offered, o.file = file ∧ Leading o ∧ ∃ name ∈ beneath offered o, ∃ o',
    byName offered name = some o' ∧ o'.file = under

theorem mem_broken {file : String} :
    file ∈ broken offered ↔ ∃ o ∈ offered, o.file = file ∧ o.errors ≠ [] := by
  unfold broken
  simp only [List.mem_map, List.mem_filter, Bool.not_eq_true', List.isEmpty_eq_false_iff]
  exact exists_congr fun o => by tauto

theorem mem_keys_through {file : String} :
    file ∈ Assoc.keys (through offered) ↔ ∃ o ∈ offered, o.file = file ∧ Leading o := by
  unfold Assoc.keys through Leading
  simp only [List.map_map, List.mem_map, List.mem_filter, Function.comp_apply, Bool.and_eq_true,
    List.isEmpty_iff, decide_eq_true_eq]
  exact exists_congr fun o => by tauto

theorem eq_of_file (hfiles : (offered.map Offered.file).Nodup) {o o' : Offered} (ho : o ∈ offered)
    (ho' : o' ∈ offered) (h : o.file = o'.file) : o = o' :=
  List.inj_on_of_nodup_map hfiles ho ho' h

theorem keys_through_nodup (hfiles : (offered.map Offered.file).Nodup) :
    (Assoc.keys (through offered)).Nodup := by
  unfold Assoc.keys through
  rw [List.map_map]
  exact hfiles.sublist (List.filter_sublist.map _)

/-- The files a file leads to are those of the versions it is read through. -/
theorem ledTo_through (hfiles : (offered.map Offered.file).Nodup) {file under : String} :
    under ∈ ledTo (through offered) file ↔ Reads offered file under := by
  unfold ledTo
  constructor
  · intro h
    cases hget : Assoc.get (through offered) file with
    | none =>
        rw [hget] at h
        cases h
    | some files =>
        rw [hget] at h
        obtain ⟨o, ho, he⟩ := List.mem_map.mp (Assoc.get_eq_some_mem hget)
        cases he
        obtain ⟨hmem, hleading⟩ := List.mem_filter.mp ho
        obtain ⟨name, hname, hfile⟩ := List.mem_filterMap.mp h
        obtain ⟨o', ho', rfl⟩ := Option.map_eq_some_iff.mp hfile
        exact ⟨o, hmem, rfl, by
          simpa [Leading, and_assoc] using hleading, name, hname, o', ho', rfl⟩
  · rintro ⟨o, ho, rfl, hleading, name, hname, o', ho', rfl⟩
    have hmem :
        (o.file, (beneath offered o).filterMap fun name => (byName offered name).map Offered.file) ∈
        through offered :=
      List.mem_map.mpr ⟨o, List.mem_filter.mpr ⟨ho, by simpa [Leading, and_assoc] using hleading⟩,
        rfl⟩
    rw [Assoc.get_of_mem (keys_through_nodup hfiles) hmem]
    exact List.mem_filterMap.mpr ⟨name, hname, by rw [ho']; rfl⟩

/-- A file under a name but the type of types' may lead on, or is broken. -/
theorem leading_or_broken {o : Offered} (ho : o ∈ offered) (hname : o.name.isSome = true)
    (hid : o.id ≠ some METASCHEMA_ID) :
    o.file ∈ Assoc.keys (through offered) ++ broken offered := by
  by_cases herrors : o.errors = []
  · exact List.mem_append_left _ (mem_keys_through.mpr ⟨o, ho, rfl, herrors, hname, hid⟩)
  · exact List.mem_append_right _ (mem_broken.mpr ⟨o, ho, rfl, herrors⟩)

/-- What is read through is a type version's file. -/
theorem Reads.typed {file under : String} (h : Reads offered file under) :
    ∃ o ∈ offered, o.file = under ∧ o.typed = true ∧ o.id ≠ some METASCHEMA_ID := by
  obtain ⟨o, ho, _, _, name, hname, o', ho', rfl⟩ := h
  obtain ⟨hmem, hname'⟩ := mem_of_byName ho'
  obtain ⟨_, hnumber, hid⟩ := mem_beneath hname
  refine ⟨o', hmem, rfl, ?_, ?_⟩
  · rw [Offered.typed, Offered.number, hname']
    exact hnumber
  · rw [Offered.id, hname']
    exact fun he => hid (Option.some.inj he)

/-! ## The types no version of which would land -/

/-- A file with an error, or one that leads to one. -/
def LeftOut (offered : List Offered) (file : String) : Prop :=
  ∃ last ∈ broken offered, ReflTransGen (Reads offered) file last

/-- A type the store does not hold, of which versions are offered, each of them left out. -/
def Lost (t : Tables) (offered : List Offered) (type : ArtifactId) : Prop :=
  t.holds type = false ∧ type ≠ METASCHEMA_ID ∧ (∃ o ∈ offered, o.typed = true ∧ o.id = some type) ∧
    ∀ o ∈ offered, o.typed = true → o.id = some type → LeftOut offered o.file

/-- The files left out. -/
def leftOut (offered : List Offered) : List String :=
  broken offered ++ ((through offered).map Prod.fst).filter fun file =>
    (chain (through offered) (broken offered) file).isSome

/-- The type version files, in the order of their numbers. -/
def versionsInOrder (offered : List Offered) : List Offered :=
  (offered.filter fun o => o.typed && o.id ≠ some METASCHEMA_ID).insertionSort fun a b =>
    a.number.getD 0 ≤ b.number.getD 0

/-- The files of a type's versions, in the order of their numbers. -/
def versionFiles (offered : List Offered) (type : ArtifactId) : List String :=
  ((versionsInOrder offered).filter fun o => o.id = some type).map Offered.file

/-- A file put last among those of its type. -/
def grouped (found : List (ArtifactId × List String)) (o : Offered) :
    List (ArtifactId × List String) :=
  match o.id with
  | none => found
  | some id => Assoc.set found id ((Assoc.get found id).getD [] ++ [o.file])

theorem lost_eq (t : Tables) (offered : List Offered) :
    lost t offered = ((versionsInOrder offered).foldl grouped []).filter fun e => !t.holds e.1 &&
      e.2.all (leftOut offered).contains := rfl

theorem reads_eq (hfiles : (offered.map Offered.file).Nodup) :
    (fun file under => under ∈ ledTo (through offered) file) = Reads offered := by
  funext file under
  exact propext (ledTo_through hfiles)

theorem closed_through (hfiles : (offered.map Offered.file).Nodup) {file under : String}
    (h : under ∈ ledTo (through offered) file) :
    under ∈ Assoc.keys (through offered) ++ broken offered := by
  obtain ⟨o, ho, rfl, htyped, hid⟩ := ((ledTo_through hfiles).mp h).typed
  refine leading_or_broken ho ?_ hid
  unfold Offered.typed Offered.number at htyped
  cases hname : o.name with
  | none =>
      rw [hname] at htyped
      cases htyped
  | some name => rfl

theorem mem_leftOut (hfiles : (offered.map Offered.file).Nodup) {file : String} :
    file ∈ leftOut offered ↔ LeftOut offered file := by
  unfold leftOut LeftOut
  rw [List.mem_append, List.mem_filter, ← reads_eq hfiles]
  by_cases hbroken : file ∈ broken offered
  · exact iff_of_true (Or.inl hbroken) ⟨file, hbroken, .refl⟩
  constructor
  · rintro (hmem | ⟨hkey, hchain⟩)
    · exact absurd hmem hbroken
    · exact (chain_isSome hbroken hkey fun _ _ => closed_through hfiles).mp hchain
  · rintro ⟨last, hlast, hreaches⟩
    have hkey : file ∈ Assoc.keys (through offered) := by
      rcases ReflTransGen.cases_head hreaches with rfl | ⟨under, hunder, _⟩
      · exact absurd hlast hbroken
      · obtain ⟨o, ho, rfl, hleading, _⟩ := (ledTo_through hfiles).mp hunder
        exact mem_keys_through.mpr ⟨o, ho, rfl, hleading⟩
    exact Or.inr ⟨hkey, (chain_isSome hbroken hkey fun _ _ => closed_through hfiles).mpr
      ⟨last, hlast, hreaches⟩⟩

theorem mem_versionFiles {type : ArtifactId} {file : String} :
    file ∈ versionFiles offered type ↔ ∃ o ∈ offered, o.typed = true ∧ o.id = some type ∧
      type ≠ METASCHEMA_ID ∧ o.file = file := by
  unfold versionFiles versionsInOrder
  simp only [List.mem_map, List.mem_filter, List.mem_insertionSort, Bool.and_eq_true,
    decide_eq_true_eq]
  constructor
  · rintro ⟨o, ⟨⟨ho, htyped, hid⟩, htype⟩, rfl⟩
    exact ⟨o, ho, htyped, htype, fun he => hid (htype.trans (congrArg some he)), rfl⟩
  · rintro ⟨o, ho, htyped, htype, hne, rfl⟩
    exact ⟨o, ⟨⟨ho, htyped, fun he => hne (Option.some.inj (htype.symm.trans he))⟩, htype⟩, rfl⟩

theorem grouped_none {found : List (ArtifactId × List String)} {o : Offered} (h : o.id = none) :
    grouped found o = found := by
  unfold grouped
  rw [h]

theorem grouped_some {found : List (ArtifactId × List String)} {o : Offered} {id : ArtifactId}
    (h : o.id = some id) :
    grouped found o = Assoc.set found id ((Assoc.get found id).getD [] ++ [o.file]) := by
  unfold grouped
  rw [h]

/-- The files of each type after more are grouped. -/
theorem getD_grouped (os : List Offered) (found : List (ArtifactId × List String))
    (type : ArtifactId) :
    (Assoc.get (os.foldl grouped found) type).getD [] =
      (Assoc.get found type).getD [] ++ (os.filter fun o => o.id = some type).map Offered.file := by
  induction os generalizing found with
  | nil => simp
  | cons o os ih =>
      rw [List.foldl_cons, ih]
      cases hid : o.id with
      | none => simp [grouped_none hid, hid]
      | some id =>
          rw [grouped_some hid]
          by_cases htype : id = type
          · subst htype
            simp [hid]
          · simp [hid, htype, Assoc.get_set_ne _ _ (Ne.symm htype)]

theorem keys_grouped (os : List Offered) {found : List (ArtifactId × List String)}
    (hfound : (Assoc.keys found).Nodup) :
    (Assoc.keys (os.foldl grouped found)).Nodup ∧
      ∀ type, type ∈ Assoc.keys (os.foldl grouped found) ↔ type ∈ Assoc.keys found ∨ ∃ o ∈ os,
        o.id = some type := by
  induction os generalizing found with
  | nil => exact ⟨hfound, by simp⟩
  | cons o os ih =>
      rw [List.foldl_cons]
      cases hid : o.id with
      | none =>
          rw [grouped_none hid]
          obtain ⟨hnodup, hkeys⟩ := ih hfound
          exact ⟨hnodup, by simp [hkeys, hid]⟩
      | some id =>
          rw [grouped_some hid]
          obtain ⟨hnodup, hkeys⟩ :=
            ih (Assoc.keys_nodup_set id ((Assoc.get found id).getD [] ++ [o.file]) hfound)
          refine ⟨hnodup, fun type => ?_⟩
          rw [hkeys, Assoc.mem_keys_set]
          simp only [List.mem_cons, exists_eq_or_imp, hid, Option.some.injEq]
          tauto

/-- The types no version of which would land are those lost, each with its versions' files. -/
theorem get_lost (hfiles : (offered.map Offered.file).Nodup) {t : Tables} {type : ArtifactId}
    {files : List String} :
    Assoc.get (lost t offered) type = some files ↔
      Lost t offered type ∧ files = versionFiles offered type := by
  have hnil : (Assoc.keys ([] : List (ArtifactId × List String))).Nodup := List.nodup_nil
  obtain ⟨hnodup, hkeys⟩ := keys_grouped (versionsInOrder offered) hnil
  have hall : ∀ files, files = versionFiles offered type →
      (files.all (leftOut offered).contains = true ↔
        ∀ o ∈ offered, o.typed = true → o.id = some type → type ≠ METASCHEMA_ID →
            LeftOut offered o.file) := by
    rintro _ rfl
    simp only [List.all_eq_true, List.contains_iff_mem, mem_leftOut hfiles, mem_versionFiles]
    constructor
    · exact fun h o ho htyped hid hne => h _ ⟨o, ho, htyped, hid, hne, rfl⟩
    · rintro h _ ⟨o, ho, htyped, hid, hne, rfl⟩
      exact h o ho htyped hid hne
  have hof : ∀ files, Assoc.get ((versionsInOrder offered).foldl grouped []) type = some files →
      files = versionFiles offered type := by
    intro files hget
    have hgetD := getD_grouped (versionsInOrder offered) [] type
    rw [hget] at hgetD
    exact hgetD
  have hfilter : (Assoc.keys (lost t offered)).Nodup := hnodup.sublist (List.filter_sublist.map _)
  rw [lost_eq] at hfilter ⊢
  constructor
  · intro hget
    obtain ⟨hmem, hkept⟩ := List.mem_filter.mp (Assoc.get_eq_some_mem hget)
    obtain ⟨hheld, hleft⟩ := Bool.and_eq_true_iff.mp hkept
    have hfilesof := hof files (Assoc.get_of_mem hnodup hmem)
    rcases (hkeys type).mp (List.mem_map.mpr ⟨_, hmem, rfl⟩) with hnone | ⟨o, ho, hid⟩
    · cases hnone
    · obtain ⟨hmem', htyped⟩ := List.mem_filter.mp ((List.mem_insertionSort _).mp ho)
      obtain ⟨htyped, hne⟩ := Bool.and_eq_true_iff.mp htyped
      have hne : type ≠ METASCHEMA_ID :=
        fun he => of_decide_eq_true hne (hid.trans (congrArg some he))
      refine ⟨⟨by simpa using hheld, hne, ⟨o, hmem', htyped, hid⟩, ?_⟩, hfilesof⟩
      exact fun o ho htyped hid => (hall files hfilesof).mp hleft o ho htyped hid hne
  · rintro ⟨⟨hheld, hne, ⟨o, ho, htyped, hid⟩, hleft⟩, rfl⟩
    have hmem : o ∈ versionsInOrder offered := by
      refine (List.mem_insertionSort _).mpr (List.mem_filter.mpr ⟨ho, ?_⟩)
      rw [htyped, Bool.true_and, decide_eq_true]
      exact fun he => hne (Option.some.inj (hid.symm.trans he))
    obtain ⟨e, he, rfl⟩ := List.mem_map.mp ((hkeys type).mpr (Or.inr ⟨o, hmem, hid⟩))
    have hfilesof := hof e.2 (Assoc.get_of_mem hnodup he)
    refine Assoc.get_of_mem hfilter (List.mem_filter.mpr ⟨hfilesof ▸ he, ?_⟩)
    rw [Bool.and_eq_true]
    exact ⟨by simpa using hheld, (hall _ rfl).mpr fun o ho htyped hid _ => hleft o ho htyped hid⟩

/-- The nearest type lost that an IRI sits under, where what would land holds no type as near. -/
def SitsUnder (t : Tables) (offered : List Offered) (landing : Draft) (target type : ArtifactId) :
    Prop :=
  ∃ nearer farther, aboveOf target = nearer ++ type :: farther ∧ Lost t offered type ∧
    (∀ above ∈ nearer, ¬ Lost t offered above) ∧ ∀ above ∈ nearer ++ [type],
      landing.corpus.typedAt above = false

/-- The nearest type held is none of the first IRIs above one just where none of them is a
type's. -/
theorem nearestType_ne {corpus : Corpus} {target : ArtifactId} {first rest : List ArtifactId}
    (h : aboveOf target = first ++ rest) :
    (∀ above ∈ first, some above ≠ Composition.nearestType corpus target) ↔
      ∀ above ∈ first, corpus.typedAt above = false := by
  unfold Composition.nearestType
  rw [h, List.find?_append]
  constructor
  · intro hne above habove
    by_contra htyped
    obtain ⟨found, hfound⟩ :=
      Option.isSome_iff_exists.mp
      (List.find?_isSome.mpr ⟨above, habove, (Bool.not_eq_false _).mp htyped⟩)
    refine hne found (List.mem_of_find?_eq_some hfound) ?_
    rw [hfound]
    rfl
  · intro hall above habove he
    cases hfound : first.find? corpus.typedAt with
    | some found =>
        have := hall found (List.mem_of_find?_eq_some hfound)
        rw [List.find?_some hfound] at this
        cases this
    | none =>
        rw [hfound, Option.none_or] at he
        have := hall above habove
        rw [List.find?_some he.symm] at this
        cases this

theorem under_iff (hfiles : (offered.map Offered.file).Nodup) {t : Tables} {landing : Draft}
    {target type : ArtifactId} :
    under target (lost t offered) landing = some type ↔
      SitsUnder t offered landing target type := by
  have hlost : ∀ above, (Assoc.get (lost t offered) above).isSome = true ↔
      Lost t offered above := by
    intro above
    rw [Option.isSome_iff_exists]
    constructor
    · rintro ⟨files, hget⟩
      exact ((get_lost hfiles).mp hget).1
    · exact fun h => ⟨_, (get_lost hfiles).mpr ⟨h, rfl⟩⟩
  have hnone : ∀ above, (!(Assoc.get (lost t offered) above).isSome) = true ↔
      ¬ Lost t offered above := by
    intro above
    rw [Bool.not_eq_true', Bool.eq_false_iff, ne_eq, hlost]
  obtain ⟨p, hp⟩ : ∃ p : ArtifactId → Bool, p = fun above =>
    decide (some above ≠ Composition.nearestType landing.corpus target) := ⟨_, rfl⟩
  have hunder : under target (lost t offered) landing =
      ((aboveOf target).takeWhile p).find? fun above =>
          (Assoc.get (lost t offered) above).isSome := by
    rw [hp]
    rfl
  have hpos : ∀ above, p above = true ↔
      some above ≠ Composition.nearestType landing.corpus target := by
    intro above
    rw [hp, decide_eq_true_eq]
  rw [hunder, List.find?_eq_some_iff_append, hlost]
  constructor
  · rintro ⟨h, nearer, rest, htake, hnearer⟩
    have heq : aboveOf target = (nearer ++ [type]) ++ (rest ++ (aboveOf target).dropWhile p) := by
      rw [List.append_assoc, List.singleton_append, ← List.cons_append, ← List.append_assoc,
        ← htake, List.takeWhile_append_dropWhile]
    refine ⟨nearer, _, heq.trans (List.append_assoc ..), h, fun above habove =>
      (hnone above).mp (hnearer above habove), ?_⟩
    refine (nearestType_ne heq).mp fun above habove =>
      (hpos above).mp (List.mem_takeWhile_imp (l := aboveOf target) ?_)
    rw [htake]
    rw [List.mem_append, List.mem_singleton] at habove
    rw [List.mem_append, List.mem_cons]
    exact habove.imp_right Or.inl
  · rintro ⟨nearer, farther, heq, h, hnearer, hall⟩
    have hsplit : aboveOf target = (nearer ++ [type]) ++ farther := by
      rw [heq, List.append_assoc, List.singleton_append]
    have hfirst := (nearestType_ne hsplit).mpr hall
    refine ⟨h, nearer, farther.takeWhile p, ?_, fun above habove =>
      (hnone above).mpr (hnearer above habove)⟩
    rw [hsplit, List.takeWhile_append_of_pos fun above habove =>
      (hpos above).mpr (hfirst above habove), List.append_assoc]
    rfl

/-! ## The files skipped -/

/-- What each file that may lead on leads to, those it is read through and those it waits for. -/
def leadsWith (offered : List Offered) (waiting : List (String × List String)) :
    List (String × List String) :=
  (through offered).map fun e => (e.1, e.2 ++ ledTo waiting e.1)

theorem skipped_eq (offered : List Offered) (waiting : List (String × List String)) :
    skipped offered waiting = (leadsWith offered waiting).filterMap fun e =>
      (chain (leadsWith offered waiting) (broken offered) e.1).map fun found => (e.1, found) := rfl

theorem keys_leadsWith (waiting : List (String × List String)) :
    Assoc.keys (leadsWith offered waiting) = Assoc.keys (through offered) := by
  unfold Assoc.keys leadsWith
  rw [List.map_map]
  rfl

theorem ledTo_leadsWith (hfiles : (offered.map Offered.file).Nodup)
    {waiting : List (String × List String)} {file under : String} :
    under ∈ ledTo (leadsWith offered waiting) file ↔
      Reads offered file under ∨ file ∈ Assoc.keys (through offered) ∧
        under ∈ ledTo waiting file := by
  have hnodup := keys_through_nodup hfiles
  have hkeys : Assoc.keys (leadsWith offered waiting) = Assoc.keys (through offered) :=
    keys_leadsWith waiting
  rw [← ledTo_through hfiles]
  by_cases hkey : file ∈ Assoc.keys (through offered)
  · obtain ⟨⟨file, files⟩, hmem, rfl⟩ := List.mem_map.mp hkey
    have hthrough : ledTo (through offered) file = files := by
      rw [ledTo, Assoc.get_of_mem hnodup hmem]
      rfl
    have hwith : ledTo (leadsWith offered waiting) file = files ++ ledTo waiting file := by
      have hmem' : (file, files ++ ledTo waiting file) ∈ leadsWith offered waiting :=
        List.mem_map.mpr ⟨_, hmem, rfl⟩
      rw [ledTo, Assoc.get_of_mem (hkeys ▸ hnodup) hmem']
      rfl
    rw [hthrough, hwith, List.mem_append]
    exact or_congr_right (iff_and_self.mpr fun _ => hkey)
  · have hnone : ∀ leads : List (String × List String), file ∉ Assoc.keys leads →
        ledTo leads file = [] := by
      intro leads hnot
      cases hget : Assoc.get leads file with
      | none => rw [ledTo, hget, Option.getD_none]
      | some files => exact absurd (List.mem_map_of_mem (Assoc.get_eq_some_mem hget)) hnot
    rw [hnone _ hkey, hnone _ (hkeys ▸ hkey)]
    simp [hkey]

/-- A file is skipped with the chain told of it, where it may lead on. -/
theorem mem_skipped {waiting : List (String × List String)} {file : String} {c : List String} :
    (file, c) ∈ skipped offered waiting ↔ file ∈ Assoc.keys (through offered) ∧
      chain (leadsWith offered waiting) (broken offered) file = some c := by
  rw [skipped_eq, ← keys_leadsWith waiting, List.mem_filterMap]
  constructor
  · rintro ⟨e, he, hc⟩
    obtain ⟨found, hfound, heq⟩ := Option.map_eq_some_iff.mp hc
    cases heq
    exact ⟨List.mem_map_of_mem he, hfound⟩
  · rintro ⟨hkey, hc⟩
    obtain ⟨e, he, rfl⟩ := List.mem_map.mp hkey
    exact ⟨e, he, by rw [hc]; rfl⟩

end Kb.Skipping
