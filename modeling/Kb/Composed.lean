/-
# `Kb.Composed` — when what a schema declares can be read

A schema rests on the members of its `allOf`, and on the schema of the version of a type its `$ref`
names whole. What it declares can be read just when each schema it comes to by those can be taken,
and no chain of them is as long as Python may recurse (`declared_returns`).
-/
import Kb.Declaring
import Kb.Lib.Chains

namespace Kb.Composition

open Raising Relation

variable (O : Outside) (corpus : Corpus)

/-- What a schema rests on: a member of its `allOf`, or the schema of the version its `$ref` names
whole. -/
inductive RestsOn (schema : Value) : Value → Prop
  | member {members : List Value} {part : Value} (hmembers : enlisted "allOf" schema = .ok members)
      (hpart : part ∈ members) : RestsOn schema part
  | base {ref : String} {version : Option Version} {part : Value}
      (href : schema.get "$ref" .null = .ok (.scalar (.text ref)))
        (hwhole : reference ref = some ⟨version, true⟩)
      (hpart : typeSchema corpus ref = .ok part) : RestsOn schema part

/-- What a schema must be for what it rests on to be told: a mapping whose `allOf` can be gone
through, and where its `$ref` names a version of a type whole, one that is kept and has a schema. -/
structure Rooted (schema : Value) : Prop where
  members : ∃ members, enlisted "allOf" schema = .ok members
  base : ∀ ref version, schema.get "$ref" .null = .ok (.scalar (.text ref)) →
    reference ref = some ⟨version, true⟩ →
    ∃ part, typeSchema corpus ref = .ok part

/-- What a schema must be for what is declared through it to be read. -/
structure Legible (schema : Value) : Prop where
  rooted : Rooted corpus schema
  takes : Takes schema

/-- A schema whose declarations can be read: all it comes to can be, and no chain of what rests on
what is as long as Python may recurse. -/
structure Declares (schema : Value) : Prop where
  legible : ∀ part, ReflTransGen (RestsOn corpus) schema part → Legible corpus part
  shallow : ∀ chain, (schema :: chain).IsChain (RestsOn corpus) → chain.length < O.depth

variable {O corpus}

/-- What the `$ref` of a schema adds to its composition. -/
def baseOf (corpus : Corpus) (depth : Nat) (ref : Value) : Raises (List Value) :=
  match ref with
  | .scalar (.text r) => match reference r with
      | some ⟨_, true⟩ => do composition corpus depth (← typeSchema corpus r)
      | _ => .ok []
  | _ => .ok []

theorem composition_eq (depth : Nat) (schema : Value) :
    composition corpus (depth + 1) schema = (do
      let members ← enlisted "allOf" schema
      let builtOn ← members.mapM (composition corpus depth)
      let ref ← schema.get "$ref" .null
      let base ← baseOf corpus depth ref
      .ok (builtOn.flatten ++ base ++ [schema])) := by
  unfold composition enlisted
  cases schema.get "allOf" (.list []) with
  | error _ => rfl
  | ok allOf =>
      show (allOf.iter >>= _) = (allOf.iter >>= _)
      cases allOf.iter with
      | error _ => rfl
      | ok members =>
          show (members.mapM (composition corpus depth) >>= _) =
            (members.mapM (composition corpus depth) >>= _)
          cases members.mapM (composition corpus depth) with
          | error _ => rfl
          | ok builtOn =>
              show (schema.get "$ref" .null >>= _) = (schema.get "$ref" .null >>= _)
              cases schema.get "$ref" .null with
              | error _ => rfl
              | ok ref =>
                  simp only [bind, Except.bind, baseOf]
                  rcases ref with sc | _ | _
                  · cases sc with
                    | text r =>
                        dsimp only
                        rcases reference r with _ | ⟨version, _ | _⟩
                        · rfl
                        · rfl
                        · cases typeSchema corpus r with
                          | error _ => rfl
                          | ok part =>
                              cases composition corpus depth part <;> rfl
                    | _ => rfl
                  · rfl
                  · rfl

theorem composition_ok {depth : Nat} {schema : Value} {parts : List Value} :
    composition corpus (depth + 1) schema = .ok parts ↔ ∃ members builtOn ref base,
      enlisted "allOf" schema = .ok members ∧ members.mapM
        (composition corpus depth) = .ok builtOn ∧
        schema.get "$ref" .null = .ok ref ∧ baseOf corpus depth ref = .ok base ∧
        parts = builtOn.flatten ++ base ++ [schema] := by
  rw [composition_eq]
  constructor
  · intro h
    obtain ⟨members, hmembers, h⟩ := bind_ok.mp h
    obtain ⟨builtOn, hbuiltOn, h⟩ := bind_ok.mp h
    obtain ⟨ref, href, h⟩ := bind_ok.mp h
    obtain ⟨base, hbase, h⟩ := bind_ok.mp h
    exact ⟨members, builtOn, ref, base, hmembers, hbuiltOn, href, hbase, (Except.ok.inj h).symm⟩
  · rintro ⟨members, builtOn, ref, base, hmembers, hbuiltOn, href, hbase, rfl⟩
    exact bind_ok.mpr ⟨members, hmembers, bind_ok.mpr ⟨builtOn, hbuiltOn, bind_ok.mpr ⟨ref, href,
      bind_ok.mpr ⟨base, hbase, rfl⟩⟩⟩⟩

theorem baseOf_of_ref {depth : Nat} {ref : String} {version : Option Version}
    (h : reference ref = some ⟨version, true⟩) :
    baseOf corpus depth (.scalar (.text ref)) = typeSchema corpus ref >>=
      composition corpus depth := by
  simp only [baseOf, h]

/-- Nothing rests on a `$ref` that names no version whole. -/
theorem baseOf_cases (corpus : Corpus) (depth : Nat) (ref : Value) :
    (∃ r version, ref = .scalar (.text r) ∧ reference r = some ⟨version, true⟩) ∨
      baseOf corpus depth ref = .ok [] := by
  unfold baseOf
  split
  · next r =>
      split
      · next version h => exact .inl ⟨r, version, rfl, h⟩
      · exact .inr rfl
  · exact .inr rfl

/-- A schema is a mapping where its `allOf` is gone through. -/
theorem get_of_enlisted {k : String} {schema : Value} {vs : List Value}
    (h : enlisted k schema = .ok vs) (name : String) (default : Value) :
    ∃ v, schema.get name default = .ok v := by
  obtain ⟨_, hget, _⟩ := bind_ok.mp h
  cases schema with
  | map es => exact ⟨_, rfl⟩
  | scalar _ => cases hget
  | list _ => cases hget

/-- A composition can be read one deeper than those of all its schema rests on. -/
theorem composition_step (depth : Nat) (schema : Value) :
    (∃ parts, composition corpus (depth + 1) schema = .ok parts) ↔ Rooted corpus schema ∧
      ∀ part, RestsOn corpus schema part → ∃ parts, composition corpus depth part = .ok parts := by
  constructor
  · rintro ⟨parts, h⟩
    obtain ⟨members, builtOn, ref, base, hmembers, hbuiltOn, href, hbase, -⟩ := composition_ok.mp h
    refine ⟨⟨⟨members, hmembers⟩, fun r version hget hwhole => ?_⟩, fun part hpart => ?_⟩
    · cases href.symm.trans hget
      rw [baseOf_of_ref hwhole] at hbase
      exact (bind_ok.mp hbase).imp fun _ h => h.1
    · cases hpart with
      | member hmembers' hpart =>
          cases hmembers.symm.trans hmembers'
          obtain ⟨inside, _, hinside⟩ := forall₂_of_mem (mapM_ok.mp hbuiltOn) hpart
          exact ⟨inside, hinside⟩
      | base hget hwhole hpart =>
          cases href.symm.trans hget
          rw [baseOf_of_ref hwhole] at hbase
          obtain ⟨part', hpart', hbase⟩ := bind_ok.mp hbase
          cases hpart.symm.trans hpart'
          exact ⟨base, hbase⟩
  · rintro ⟨⟨⟨members, hmembers⟩, hrooted⟩, hparts⟩
    obtain ⟨builtOn, hbuiltOn⟩ := mapM_returns (f := composition corpus depth) fun member hmember =>
      hparts member (.member hmembers hmember)
    obtain ⟨ref, href⟩ := get_of_enlisted hmembers "$ref" .null
    obtain ⟨base, hbase⟩ : ∃ base, baseOf corpus depth ref = .ok base := by
      rcases baseOf_cases corpus depth ref with ⟨r, version, rfl, hwhole⟩ | hnone
      · obtain ⟨part, hpart⟩ := hrooted r version href hwhole
        obtain ⟨base, hbase⟩ := hparts part (.base href hwhole hpart)
        exact ⟨base, by rw [baseOf_of_ref hwhole]; exact bind_ok.mpr ⟨part, hpart, hbase⟩⟩
      · exact ⟨[], hnone⟩
    exact ⟨_, composition_ok.mpr ⟨members, builtOn, ref, base, hmembers, hbuiltOn,
      href, hbase, rfl⟩⟩

theorem composition_returns {depth : Nat} {schema : Value} :
    (∃ parts, composition corpus depth schema = .ok parts) ↔
      (∀ part, ReflTransGen (RestsOn corpus) schema part → Rooted corpus part) ∧
        ∀ chain, (schema :: chain).IsChain (RestsOn corpus) → chain.length < depth := by
  have hzero : ∀ schema, ¬ ∃ parts, composition corpus 0 schema = .ok parts := by
    rintro schema ⟨_, h⟩
    cases h
  exact @Chains.goes_iff _ _ _ (fun depth schema => ∃ parts, composition corpus depth schema =
    .ok parts) hzero
    composition_step _ _

/-- A composition is of the schemas its schema comes to. -/
theorem mem_composition {depth : Nat} {schema : Value} {parts : List Value}
    (h : composition corpus depth schema = .ok parts) (part : Value) :
    part ∈ parts ↔ ReflTransGen (RestsOn corpus) schema part := by
  induction depth generalizing schema parts with
  | zero => cases h
  | succ depth ih =>
      obtain ⟨members, builtOn, ref, base, hmembers, hbuiltOn, href, hbase, rfl⟩ :=
        composition_ok.mp h
      rw [List.mem_append, List.mem_append, List.mem_singleton, List.mem_flatten]
      constructor
      · rintro ((⟨inside, hinside, hpart⟩ | hpart) | rfl)
        · obtain ⟨member, hmember, hinside⟩ := forall₂_of_mem_right (mapM_ok.mp hbuiltOn) hinside
          exact .head (.member hmembers hmember) ((ih hinside).mp hpart)
        · rcases baseOf_cases corpus depth ref with ⟨r, version, rfl, hwhole⟩ | hnone
          · rw [baseOf_of_ref hwhole] at hbase
            obtain ⟨s, hs, hbase⟩ := bind_ok.mp hbase
            exact .head (.base href hwhole hs) ((ih hbase).mp hpart)
          · cases hnone.symm.trans hbase
            cases hpart
        · exact .refl
      · intro hreaches
        rcases hreaches.cases_head with rfl | ⟨next, hrests, hreaches⟩
        · exact .inr rfl
        · cases hrests with
          | member hmembers' hnext =>
              cases hmembers.symm.trans hmembers'
              obtain ⟨inside, hinside, hread⟩ := forall₂_of_mem (mapM_ok.mp hbuiltOn) hnext
              exact .inl (.inl ⟨inside, hinside, (ih hread).mpr hreaches⟩)
          | base hget hwhole hnext =>
              cases href.symm.trans hget
              rw [baseOf_of_ref hwhole] at hbase
              obtain ⟨s, hs, hbase⟩ := bind_ok.mp hbase
              cases hnext.symm.trans hs
              exact .inl (.inr ((ih hbase).mpr hreaches))

/-- What is declared through a schema can be read just when every schema it comes to can be taken,
and they rest on one another less deep than Python recurses. -/
theorem declared_returns {schema : Value} : (∃ whole, declared O corpus schema = .ok whole) ↔
    Declares O corpus schema := by
  constructor
  · rintro ⟨whole, h⟩
    obtain ⟨parts, hparts, h⟩ := bind_ok.mp h
    obtain ⟨hrooted, hshallow⟩ := composition_returns.mp ⟨parts, hparts⟩
    refine ⟨fun part hpart => ⟨hrooted part hpart, ?_⟩, hshallow⟩
    exact (folded h).1 part ((mem_composition hparts part).mpr hpart)
  · rintro ⟨hlegible, hshallow⟩
    obtain ⟨parts, hparts⟩ :=
      composition_returns.mpr ⟨fun part hpart => (hlegible part hpart).rooted, hshallow⟩
    obtain ⟨whole, hwhole⟩ :=
      folds (fun part hpart => (hlegible part ((mem_composition hparts part).mp hpart)).takes) {}
    exact ⟨whole, bind_ok.mpr ⟨parts, hparts, hwhole⟩⟩

/-- The fields shown at a glance are those any schema come to declares so. -/
theorem mem_summary {schema : Value} {whole : Declared} (h : declared O corpus schema = .ok whole)
    (name : Value) :
    name ∈ whole.summary ↔ ∃ part, ReflTransGen (RestsOn corpus) schema part ∧
      ∃ names, enlisted "summary" part = .ok names ∧ name ∈ names := by
  obtain ⟨parts, hparts, h⟩ := bind_ok.mp h
  rw [(folded h).2.2.2 name]
  simp only [List.not_mem_nil, false_or, mem_composition hparts]

/-- The type an artifact conforms to is the content of the version its type names, where that is
kept. -/
theorem conformed_ok {a made : Artifact} :
    conformed corpus a = .ok made ↔ ∃ v, kept corpus (typeOf a.type.kind) a.type.number = some v ∧
      v.content = made := by
  unfold conformed versionSchema
  cases kept corpus (typeOf a.type.kind) a.type.number with
  | none => simp
  | some v => simp

end Kb.Composition
