/-
# `Kb.Tops` — a schema, its `allOf` members, and where the walk marks a keyword as read

The tops of a schema are the schema and each of its `allOf` members, at every depth, in the order
the composition takes them (`tops`).  What the walk of `keywords.py` marks as read is said once over
them (`Stands`): the keywords of a top, the `ref` of a field directly under a top's `properties`,
and, through a collection of a top's `parts`, what stands so in the schema of its items.  The walk
marks that and nothing else (`walk_marks`).
-/
import Kb.Definitions

namespace Kb

namespace Value

mutual
/-- Whether no mapping in a value has a key twice, as no mapping of Python's does. -/
def keyed : Value → Bool
  | .map es => (Assoc.keys es).Nodup && keyedEntries es
  | .list vs => keyedList vs
  | .scalar _ => true
def keyedEntries : List (Scalar × Value) → Bool
  | [] => true
  | (_, v) :: es => keyed v && keyedEntries es
def keyedList : List Value → Bool
  | [] => true
  | v :: vs => keyed v && keyedList vs
end

variable {es : Dict} {k : Scalar} {v : Value}

theorem sizeOf_entry (hmem : (k, v) ∈ es) : sizeOf v < sizeOf (Value.map es) := by
  have h := List.sizeOf_lt_of_mem hmem
  simp only [Prod.mk.sizeOf_spec] at h
  simp only [Value.map.sizeOf_spec]
  omega

end Value

namespace Keywords

/-! ## The tops of a schema -/

mutual
/-- A schema and each of its `allOf` members, at every depth, base first, with the members' indices
that lead there. -/
def tops : Value → List (List Nat × Value)
  | .map es => topsIn es ++ [([], .map es)]
  | v => [([], v)]
def topsIn : List (Scalar × Value) → List (List Nat × Value)
  | [] => []
  | (.text key, v) :: es => (if key = "allOf" then topsOf v else []) ++ topsIn es
  | _ :: es => topsIn es
def topsOf : Value → List (List Nat × Value)
  | .list vs => topsFrom 0 vs
  | _ => []
def topsFrom (index : Nat) : List Value → List (List Nat × Value)
  | [] => []
  | v :: vs => (tops v).map (fun top => (index :: top.1, top.2)) ++ topsFrom (index + 1) vs
end

theorem mem_topsFrom {index : Nat} {vs : List Value} {top : List Nat × Value} :
    top ∈ topsFrom index vs ↔ ∃ i v path, vs[i]? = some v ∧ (path, top.2) ∈ tops v ∧
      top.1 = (index + i) :: path := by
  induction vs generalizing index with
  | nil => exact ⟨fun h => (nomatch h), fun ⟨_, _, _, h, _⟩ => (nomatch h)⟩
  | cons w vs ih =>
      rw [topsFrom, List.mem_append, ih]
      constructor
      · rintro (h | ⟨i, v, path, hi, htop, hpath⟩)
        · obtain ⟨inner, hinner, rfl⟩ := List.mem_map.mp h
          exact ⟨0, w, inner.1, rfl, hinner, rfl⟩
        · exact ⟨i + 1, v, path, hi, htop, by rw [hpath]; congr 1; omega⟩
      · rintro ⟨i, v, path, hi, htop, hpath⟩
        cases i with
        | zero =>
            cases hi
            exact Or.inl (List.mem_map.mpr ⟨_, htop, Prod.ext hpath.symm rfl⟩)
        | succ i => exact Or.inr ⟨i, v, path, hi, htop, by rw [hpath]; congr 1; omega⟩

theorem topsIn_eq (es : List (Scalar × Value)) :
    topsIn es = es.flatMap fun e => if e.1 = .text "allOf" then topsOf e.2 else [] := by
  induction es with
  | nil => rfl
  | cons e es ih =>
      obtain ⟨key, v⟩ := e
      rcases key with _ | _ | _ | _ | text
      · exact ih
      · exact ih
      · exact ih
      · exact ih
      · rw [topsIn, List.flatMap_cons, ih]
        simp only [Scalar.text.injEq]

theorem mem_topsIn {es : List (Scalar × Value)} {top : List Nat × Value} :
    top ∈ topsIn es ↔ ∃ vs i v path, (.text "allOf", .list vs) ∈ es ∧ vs[i]? = some v ∧
      (path, top.2) ∈ tops v ∧ top.1 = i :: path := by
  rw [topsIn_eq, List.mem_flatMap]
  constructor
  · rintro ⟨⟨key, w⟩, he, htop⟩
    split at htop
    · next hkey =>
        cases hkey
        rcases w with s | vs | fs
        · nomatch htop
        · obtain ⟨i, v, path, hi, htop, hpath⟩ := mem_topsFrom.mp htop
          exact ⟨vs, i, v, path, he, hi, htop, by rw [hpath, Nat.zero_add]⟩
        · nomatch htop
    · nomatch htop
  · rintro ⟨vs, i, v, path, he, hi, htop, hpath⟩
    refine ⟨_, he, ?_⟩
    rw [if_pos rfl]
    exact mem_topsFrom.mpr ⟨i, v, path, hi, htop, by rw [hpath, Nat.zero_add]⟩

/-- A top of a schema is the schema, or a top of one of its `allOf` members. -/
theorem mem_tops {schema : Value} {top : List Nat × Value} :
    top ∈ tops schema ↔ top = ([], schema) ∨ ∃ es vs i v path, schema = .map es ∧
      (.text "allOf", .list vs) ∈ es ∧
      vs[i]? = some v ∧ (path, top.2) ∈ tops v ∧ top.1 = i :: path := by
  have hother : ∀ v : Value, (∀ es, v ≠ .map es) → tops v = [([], v)] →
      (top ∈ tops v ↔ top = ([], v) ∨ ∃ es vs i m path, v = .map es ∧
        (.text "allOf", .list vs) ∈ es ∧
        vs[i]? = some m ∧ (path, top.2) ∈ tops m ∧ top.1 = i :: path) := by
    intro v hv htops
    rw [htops, List.mem_singleton, or_iff_left]
    rintro ⟨es, _, _, _, _, h, _⟩
    exact hv es h
  rcases schema with s | ws | es
  · exact hother _ nofun rfl
  · exact hother _ nofun rfl
  · rw [tops, List.mem_append, List.mem_singleton, mem_topsIn, or_comm]
    refine or_congr_right ⟨fun ⟨vs, i, v, path, h⟩ => ⟨es, vs, i, v, path, rfl, h⟩, ?_⟩
    rintro ⟨_, vs, i, v, path, hes, h⟩
    cases hes
    exact ⟨vs, i, v, path, h⟩

/-! ## What the walk marks -/

/-- A step from a schema into one inside it that the walk goes on from as kb reads: a member, a
field, the schema of a collection's items. -/
inductive Step where
  | member (index : Nat)
  | field (name : Scalar)
  | items (collection : Scalar)
deriving DecidableEq

def Step.text : Step → String
  | .member index => "/" ++ "allOf" ++ "/" ++ toString index
  | .field name => "/" ++ "properties" ++ "/" ++ name.str
  | .items collection => "/" ++ "parts" ++ "/" ++ collection.str ++ "/items"

/-- Where steps lead from a place. -/
def stepped (place : String) : List Step → String
  | [] => place
  | step :: steps => stepped (place ++ step.text) steps

/-- A keyword marked as read, where steps lead from a place. -/
def mark (place : String) (steps : List Step) (keyword : String) (value : Value) : Standing :=
  ⟨keyword, stepped place steps ++ "/" ++ keyword, stepped place steps, true, value⟩

section

variable (place : String) (steps : List Step) (k : String) (v : Value)

end

/-- The steps to a top. -/
def toTop (path : List Nat) : List Step := path.map .member

/-- What stands where kb reads it, of a type's schema or of the schema of a collection's items. -/
inductive Stands : Where → Value → List Step → String → Value → Prop
  | top {w : Where} {schema v : Value} {path : List Nat} {es : Dict} {k : String} :
      (path, .map es) ∈ tops schema →
      (.text k, v) ∈ es → k ∈ w.reads → Stands w schema (toTop path) k v
  | field {w : Where} {schema v : Value} {path : List Nat} {es fs f : Dict} {name : Scalar} :
      (path, .map es) ∈ tops schema →
      (.text "properties", .map fs) ∈ es → (name, .map f) ∈ fs → (.text "ref", v) ∈ f →
      Stands w schema (toTop path ++ [.field name]) "ref" v
  | inside {w : Where} {schema v items : Value} {path : List Nat} {es cs c : Dict} {name : Scalar}
      {steps : List Step} {k : String} :
      (path, .map es) ∈ tops schema → (.text "parts", .map cs) ∈ es → (name, .map c) ∈ cs →
        Dict.get? c "items" = some items →
      Stands .items items steps k v → Stands w schema (toTop path ++ .items name :: steps) k v

/-! ### The walk, entry by entry -/

variable {place : String} {w : Where} {s : Standing}

mutual
theorem walk_elsewhere (place : String) : ∀ v, ∀ s ∈ walk place .elsewhere v, s.read = false
  | .map es => fun s hs => walkEntries_elsewhere place es s hs
  | .list _ => nofun
  | .scalar _ => nofun
theorem walkEntries_elsewhere (place : String) :
    ∀ es, ∀ s ∈ walkEntries place .elsewhere es, s.read = false
  | [] => nofun
  | (.text key, v) :: es => by
      intro s hs
      rw [walkEntries, List.mem_append] at hs
      rcases hs with hs | hs
      · split at hs
        · rcases List.mem_cons.mp hs with rfl | hs
          · show decide (key ∈ ([] : List String)) = false
            exact decide_eq_false List.not_mem_nil
          · rw [if_neg fun h => nomatch h.2] at hs
            nomatch hs
        split at hs
        · exact members_elsewhere _ v s hs
        split at hs
        · exact named_elsewhere _ v s hs
        split at hs
        · exact walk_elsewhere _ v s hs
        split at hs
        · exact members_elsewhere _ v s hs
        split at hs
        · exact named_elsewhere _ v s hs
        · nomatch hs
      · exact walkEntries_elsewhere place es s hs
  | (.null, _) :: es => walkEntries_elsewhere place es
  | (.bool _, _) :: es => walkEntries_elsewhere place es
  | (.int _, _) :: es => walkEntries_elsewhere place es
  | (.float _, _) :: es => walkEntries_elsewhere place es
theorem members_elsewhere (place : String) : ∀ v, ∀ s ∈ members place .elsewhere v, s.read = false
  | .list vs => membersFrom_elsewhere place 0 vs
  | .map _ => nofun
  | .scalar _ => nofun
theorem membersFrom_elsewhere (place : String) (index : Nat) :
    ∀ vs, ∀ s ∈ membersFrom place .elsewhere index vs, s.read = false
  | [] => nofun
  | v :: vs => by
      intro s hs
      rw [membersFrom, List.mem_append] at hs
      exact hs.elim (walk_elsewhere _ v s) (membersFrom_elsewhere place (index + 1) vs s)
theorem named_elsewhere (place : String) : ∀ v, ∀ s ∈ named place .elsewhere v, s.read = false
  | .map es => namedEntries_elsewhere place es
  | .list _ => nofun
  | .scalar _ => nofun
theorem namedEntries_elsewhere (place : String) :
    ∀ es, ∀ s ∈ namedEntries place .elsewhere es, s.read = false
  | [] => nofun
  | (name, v) :: es => by
      intro s hs
      rw [namedEntries, List.mem_append] at hs
      exact hs.elim (walk_elsewhere _ v s) (namedEntries_elsewhere place es s)
end

/-- What stands in a member of a schema stands in the schema. -/
theorem Stands.member {schema v m : Value} {es : Dict} {vs : List Value} {i : Nat}
    {steps : List Step} {k : String} (hes : schema = .map es)
    (hmem : (.text "allOf", .list vs) ∈ es) (hi : vs[i]? = some m) (h : Stands w m steps k v) :
    Stands w schema (.member i :: steps) k v := by
  have htop : ∀ {path : List Nat} {top : Value}, (path, top) ∈ tops m →
      (i :: path, top) ∈ tops schema :=
    fun htop => mem_tops.mpr (Or.inr ⟨es, vs, i, m, _, hes, hmem, hi, htop, rfl⟩)
  cases h with
  | top htop' hk hreads => exact Stands.top (htop htop') hk hreads
  | field htop' hfs hf hv => exact Stands.field (htop htop') hfs hf hv
  | inside htop' hcs hc hitems hin => exact Stands.inside (htop htop') hcs hc hitems hin

end Keywords

end Kb
