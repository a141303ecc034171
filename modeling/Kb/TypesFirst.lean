/-
# `Kb.TypesFirst` — the order a directory's files are read in

`examining.in_order`: the type versions first, each after the type version files it is read through,
then the rest.  The visit that orders the type versions is `Kb.Lib.Visiting`'s, over what each file
is read through in the order of names (`under`), from each type version in turn.

What is proved is of any files offered under distinct names, as the files of a dictionary are,
whatever their artifacts refer to.  The visit ends, by a bound that is never reached; each name is
given once; and a type version stands after each it is read through that does not lead back to it,
so after all it leads to where none leads back to itself.
-/
import Kb.Importing
import Kb.Holding
import Kb.Lib.Visiting

namespace Kb.Importing

open Relation Skipping

variable {offered : List Offered}

/-- A file offered under a name is read through the version file of another. -/
def ReadThrough (offered : List Offered) (name under : Name) : Prop :=
  ∃ each, byName offered name = some each ∧ under ∈ beneath offered each

/-- The names of the type version files a name's file is read through, in the order of names. -/
def under (offered : List Offered) (name : Name) : List Name :=
  match byName offered name with
  | none => []
  | some each => (beneath offered each).insertionSort notAfter

/-- The names of the type versions offered, in the order of names. -/
def typeNames (offered : List Offered) : List Name :=
  ((offered.filterMap Offered.name).filter fun n => n.number.isSome).insertionSort notAfter

/-- The names of the other files offered, in the order of names. -/
def otherNames (offered : List Offered) : List Name :=
  ((offered.filterMap Offered.name).filter fun n => n.number.isNone).insertionSort notAfter

theorem mem_under {name name' : Name} :
    name' ∈ under offered name ↔ ReadThrough offered name name' := by
  unfold under ReadThrough
  cases hname : byName offered name with
  | none => simp
  | some each => simp [List.mem_insertionSort]

theorem leads_under : Visiting.Leads (under offered) = TransGen (ReadThrough offered) := by
  have hstep : (fun name name' => name' ∈ under offered name) = ReadThrough offered := by
    funext name name'
    exact propext mem_under
  rw [← hstep]
  rfl

theorem byName_isSome {name : Name} :
    (byName offered name).isSome = true ↔ name ∈ offered.filterMap Offered.name := by
  simp [byName, List.find?_isSome, List.mem_filterMap]

/-- What a file is read through is the file of a type version offered, other than the type of
types'. -/
theorem mem_beneath {each : Offered} {name : Name} (h : name ∈ beneath offered each) :
    (∃ o, byName offered name = some o) ∧ name.number.isSome = true ∧ name.id ≠ METASCHEMA_ID := by
  unfold beneath at h
  cases ha : each.artifact with
  | none =>
      rw [ha] at h
      cases h
  | some a =>
      rw [ha] at h
      obtain ⟨hmem, hoffered⟩ := List.mem_filter.mp h
      obtain ⟨v, _, rfl⟩ := List.mem_map.mp (Settled.mem_once.mp hmem)
      obtain ⟨hsome, hid⟩ := Bool.and_eq_true_iff.mp hoffered
      exact ⟨Option.isSome_iff_exists.mp hsome, rfl, of_decide_eq_true hid⟩

/-- A file is read through the files of type versions offered. -/
theorem ReadThrough.given {name name' : Name} (h : ReadThrough offered name name') :
    name ∈ offered.filterMap Offered.name ∧ name' ∈ offered.filterMap Offered.name ∧
      name'.number.isSome = true := by
  obtain ⟨each, heach, hbeneath⟩ := h
  obtain ⟨⟨o, ho⟩, hnumber, _⟩ := mem_beneath hbeneath
  exact ⟨byName_isSome.mp (by rw [heach]; rfl), byName_isSome.mp (by rw [ho]; rfl), hnumber⟩

theorem mem_typeNames {name : Name} :
    name ∈ typeNames offered ↔ name ∈ offered.filterMap Offered.name ∧
      name.number.isSome = true := by
  unfold typeNames
  rw [List.mem_insertionSort, List.mem_filter]

theorem mem_otherNames {name : Name} :
    name ∈ otherNames offered ↔ name ∈ offered.filterMap Offered.name ∧
      name.number.isNone = true := by
  unfold otherNames
  rw [List.mem_insertionSort, List.mem_filter]

/-! ## The visit -/

/-- The visit of a name offered is that of what each name is read through. -/
theorem visit_eq {depth : Nat} {ordered seen : List Name} {name : Name}
    (h : name ∈ offered.filterMap Offered.name) :
    visit offered depth ordered seen name =
      Visiting.visit (under offered) depth ordered seen name := by
  induction depth generalizing ordered seen name with
  | zero => rfl
  | succ depth ih =>
      obtain ⟨each, heach⟩ := Option.isSome_iff_exists.mp (byName_isSome.mpr h)
      have hunder : under offered name = (beneath offered each).insertionSort notAfter := by
        unfold under
        rw [heach]
      have hall : ∀ ordered, ∀ name' ∈ under offered name,
          visit offered depth ordered (name :: seen) name' =
          Visiting.visit (under offered) depth ordered (name :: seen) name' := by
        intro ordered name' hname'
        exact ih (mem_under.mp hname').given.2.1
      rw [visit, Visiting.visit]
      by_cases hpassed : name ∈ ordered ∨ name ∈ seen
      · rw [if_pos hpassed, if_pos hpassed]
      · rw [if_neg hpassed, if_neg hpassed, heach]
        show (List.foldl _ ordered ((beneath offered each).insertionSort notAfter)) ++ [name] = _
        rw [← hunder, List.foldl_ext _ _ _ hall]

/-- The visit of the type versions, by any bound past the number of files, is one that ends. -/
theorem visits_types {depth : Nat} (hdepth : offered.length < depth) :
    Visiting.Visits (under offered) [] (typeNames offered) []
      ((typeNames offered).foldl (fun ordered name => visit offered depth ordered [] name) []) := by
  have hall : ∀ ordered, ∀ name ∈ typeNames offered, visit offered depth ordered [] name =
      Visiting.visit (under offered) depth ordered [] name :=
    fun _ _ hname => visit_eq (mem_typeNames.mp hname).1
  have hclosed : ∀ name ∈ offered.filterMap Offered.name, ∀ name' ∈ under offered name,
      name' ∈ offered.filterMap Offered.name :=
    fun _ _ _ hname' => (mem_under.mp hname').given.2.1
  have hlength : (offered.filterMap Offered.name).length ≤ offered.length :=
    List.length_filterMap_le _ _
  rw [List.foldl_ext _ _ _ hall]
  refine Visiting.visits_visit hclosed List.nodup_nil (List.nil_subset _) ?_
    (fun _ h => (mem_typeNames.mp h).1) []
  rw [List.length_nil]
  omega

/-! ## The order -/

/-- What files are read in: the type versions as they are visited, by any bound past the number of
files, then the rest. -/
theorem inOrder_eq {depth : Nat} (hdepth : offered.length < depth) :
    inOrder offered = (typeNames offered).foldl
      (fun ordered name => visit offered depth ordered [] name) [] ++ otherNames offered := by
  have hone : Visiting.Visits (under offered) [] (typeNames offered) [] _ :=
    visits_types (Nat.lt_succ_self _)
  rw [← hone.unique (visits_types hdepth)]
  rfl

variable {types : List Name}

theorem mem_types (h : Visiting.Visits (under offered) [] (typeNames offered) [] types)
    {name : Name} :
    name ∈ types ↔ name ∈ offered.filterMap Offered.name ∧ name.number.isSome = true := by
  constructor
  · have hclosed : ∀ name, (name ∈ offered.filterMap Offered.name ∧ name.number.isSome = true) →
        ∀ name' ∈ under offered name, name' ∈ offered.filterMap Offered.name ∧
            name'.number.isSome = true :=
      fun _ _ _ hname' => (mem_under.mp hname').given.2
    exact h.closed hclosed (fun _ hname => mem_typeNames.mp hname) (fun _ hname => by
      cases hname) name
  · intro hname
    rcases h.all name (mem_typeNames.mpr hname) with hname | hname
    · exact hname
    · cases hname

/-- A name that is no type version's stands after every type version's. -/
theorem sublist_of_other (h : Visiting.Visits (under offered) [] (typeNames offered) [] types)
    {name name' : Name} (hname : name ∈ offered.filterMap Offered.name)
    (hother : name.number.isSome = false)
    (hname' : name' ∈ offered.filterMap Offered.name ∧ name'.number.isSome = true) :
    [name', name].Sublist (types ++ otherNames offered) := by
  have hleft := List.singleton_sublist.mpr ((mem_types h).mpr hname')
  have hright :=
    List.singleton_sublist.mpr (mem_otherNames.mpr ⟨hname, by
      rw [← Option.not_isSome, hother]; rfl⟩)
  exact hleft.append hright

/-- The order files are read in. The visit of the type versions ends, and in it no bound past the
number of files is come to; each name is given once, every type version before whatever is none.
Each file stands after every type version's file it is read through that does not lead back to it,
and, where no type version leads back to itself, after every one it leads to. -/
theorem inOrder_reads {offered : List Offered} (hnames : (offered.filterMap Offered.name).Nodup) :
    (∃ types, Visiting.Visits (under offered) [] (typeNames offered) [] types ∧
      (∀ depth, offered.length < depth →
        (typeNames offered).foldl (fun ordered name => visit offered depth ordered [] name)
          [] = types) ∧
      inOrder offered = types ++ otherNames offered ∧
      (∀ name ∈ types, name.number.isSome = true) ∧ ∀ name ∈ otherNames offered,
        name.number.isNone = true) ∧
    (inOrder offered).Nodup ∧
    (∀ name, name ∈ inOrder offered ↔ ∃ each ∈ offered, each.name = some name) ∧
    ((∀ name, ¬ TransGen (ReadThrough offered) name name) →
      ∀ name name', TransGen (ReadThrough offered) name name' → [name', name].Sublist
        (inOrder offered)) ∧
    ∀ name name', ReadThrough offered name name' → ¬ TransGen (ReadThrough offered) name' name →
      [name', name].Sublist (inOrder offered) := by
  have hvisits : Visiting.Visits (under offered) [] (typeNames offered) [] _ :=
    visits_types (Nat.lt_succ_self _)
  have horder : inOrder offered = _ := inOrder_eq (Nat.lt_succ_self _)
  have hbounds := fun depth (hdepth : offered.length < depth) =>
    (visits_types hdepth).unique hvisits
  generalize (typeNames offered).foldl
    (fun ordered name => visit offered (offered.length + 1) ordered [] name) [] = types
    at hvisits horder hbounds
  have hafter : Visiting.Visits.After (under offered) types :=
    hvisits.after (fun _ h => by cases h) (fun _ h => by cases h)
  have htyped : ∀ name ∈ types, name.number.isSome = true := fun _ h => ((mem_types hvisits).mp h).2
  have hother : ∀ name ∈ otherNames offered, name.number.isNone = true :=
    fun _ h => (mem_otherNames.mp h).2
  rw [horder]
  refine ⟨⟨types, hvisits, hbounds, rfl, htyped, hother⟩, ?_, ?_, ?_, ?_⟩
  · refine List.nodup_append.mpr ⟨hvisits.nodup List.nodup_nil, ?_, ?_⟩
    · exact (List.perm_insertionSort _ _).nodup_iff.mpr (hnames.filter _)
    · rintro name hname _ hname' rfl
      have hsome := htyped name hname
      rw [Option.isNone_iff_eq_none.mp (hother name hname')] at hsome
      cases hsome
  · intro name
    rw [← List.mem_filterMap, List.mem_append, mem_types hvisits, mem_otherNames, ← and_or_left]
    cases name.number <;> simp
  · intro hacyclic name name' hleads
    obtain ⟨_, _, hlast⟩ := TransGen.tail'_iff.mp hleads
    obtain ⟨_, hfirst, _⟩ := TransGen.head'_iff.mp hleads
    cases hname : name.number.isSome with
    | false => exact sublist_of_other hvisits hfirst.given.1 hname hlast.given.2
    | true =>
        have hmem := (mem_types hvisits).mpr ⟨hfirst.given.1, hname⟩
        have hsub := hafter.lead (hvisits.nodup List.nodup_nil) (leads_under ▸ hacyclic) hmem
          (leads_under ▸ hleads)
        exact hsub.trans (List.sublist_append_left _ _)
  · intro name name' hread hback
    cases hname : name.number.isSome with
    | false => exact sublist_of_other hvisits hread.given.1 hname hread.given.2
    | true =>
        have hmem := (mem_types hvisits).mpr ⟨hread.given.1, hname⟩
        rcases hafter name hmem name' (mem_under.mpr hread) with hsub | hleads
        · exact hsub.trans (List.sublist_append_left _ _)
        · rw [leads_under] at hleads
          exact absurd hleads hback

namespace NoteFirst

def base : Version := ⟨⟨"https://kb.io/k", by decide⟩, 1, Nat.one_pos, by decide⟩
def type : Version := ⟨⟨"https://kb.io/o", by decide⟩, 1, Nat.one_pos, by decide⟩
def note : ArtifactId := ⟨"https://kb.io/o/a", by decide⟩

/-- What a type's version built on the base holds. -/
def builtOn : Dict := [(.text "schema", .map [(.text "$ref", .text "kb:https://kb.io/k@1")])]

/-- A file of an artifact of a type, offered ahead of the file of the type's version, and that ahead
of the file of the version it is built on. -/
def files : List Offered :=
  [{ file := "kb.io/o/a.yaml", name := some (.whole note),
     artifact := some ⟨note, type, 1, "T", []⟩ },
    { file := "kb.io/o@1.yaml", name := some (.version type),
      artifact := some ⟨type.kind, Start.METASCHEMA_VERSION, 1, "T", builtOn⟩ },
    { file := "kb.io/k@1.yaml", name := some (.version base) }]

/-- How many files are read through, one after another, from a name's. -/
def level : Name → Nat
  | .whole _ => 2
  | .version v => if v = type then 1 else 0

theorem level_lt {name under : Name} (h : ReadThrough files name under) :
    level under < level name := by
  obtain ⟨each, heach, hunder⟩ := h
  have hlevels : ∀ each ∈ files, ∀ under ∈ beneath files each, ∀ name ∈ each.name,
      level under < level name := by
    decide
  have hname : each.name = some name := by simpa using List.find?_some heach
  exact hlevels each (List.mem_of_find?_eq_some heach) under hunder name hname

theorem level_lt_of_leads {name under : Name} (h : TransGen (ReadThrough files) name under) :
    level under < level name := by
  induction h with
  | single h => exact level_lt h
  | tail _ h ih => exact (level_lt h).trans ih

/-- The artifact's file is read after its type version's, and both after that of the version the
type is built on. -/
theorem inOrder_reads_note :
    [Name.version type, .whole note].Sublist (inOrder files) ∧
      [Name.version base, .version type].Sublist (inOrder files) ∧
      [Name.version base, .whole note].Sublist (inOrder files) := by
  have hnames : (files.filterMap Offered.name).Nodup := by decide
  have htyped : ReadThrough files (.whole note) (.version type) := ⟨_, rfl, by decide⟩
  have hbuilt : ReadThrough files (.version type) (.version base) := ⟨_, rfl, by decide⟩
  obtain ⟨_, _, _, hacyclic, _⟩ := inOrder_reads hnames
  have hreads := hacyclic fun name h => lt_irrefl _ (level_lt_of_leads h)
  exact ⟨hreads _ _ (.single htyped), hreads _ _ (.single hbuilt),
    hreads _ _ (.tail (.single htyped) hbuilt)⟩

end NoteFirst

end Kb.Importing
