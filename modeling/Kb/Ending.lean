/-
# `Kb.Ending` — when reading a type through what it is built on ends

A schema leads to the schemas it holds where the composition goes on (the members of its `allOf`,
the items of its collections) and, by a `$ref` to a whole type, to the schema of the version named.
Where no path of these is infinite, every reading that follows them comes to an end: the
composition, what is declared through it, the shapes of the collections, and the links of any
content (`readings_end`).  Depth is what a reading can run out of, so what ends is read without
running out at every bound from some bound on.

The schemas held in one another are finitely many, so an infinite path passes through versions:
where none leads through the versions a corpus keeps, none leads from any schema (`acc_leads`).
-/
import Kb.Validation
import Kb.Lib.Founded
import Kb.Lib.Raising

namespace Kb

open Raising Relation Founded

/-- A reading that does not run out of depth. -/
abbrev Ended {α : Type} (x : Raises α) : Prop := Only (· ≠ .tooDeep) x

/-! ## What the readings of a value raise -/

namespace Value

variable {P : Error → Prop}

theorem get_only (h : P .misshapen) (v : Value) (name : String) (default : Value) :
    Only P (v.get name default) := by
  cases v with
  | map d => exact .ok _
  | scalar s => exact .error h
  | list vs => exact .error h

theorem iter_only (h : P .misshapen) (v : Value) : Only P v.iter := by
  unfold iter
  split
  · exact .ok _
  · exact .ok _
  · exact .ok _
  · exact .error h

theorem pairs_only (h : P .misshapen) (v : Value) : Only P v.pairs := by
  unfold pairs
  split
  · exact .ok _
  · refine (iter_only h _).bind fun entries _ => .mapM fun entry _ =>
      (iter_only h entry).bind fun pair _ => ?_
    split
    · exact .ok _
    · exact .error h

/-- A value inside another: an entry of a list, or what a mapping has under a key, at any depth. -/
inductive Within : Value → Value → Prop where
  | entry {v : Value} {vs : List Value} : v ∈ vs → Within (.list vs) v
  | value {k : Scalar} {v : Value} {es : Dict} : (k, v) ∈ es → Within (.map es) v
  | trans {u v w : Value} : Within u v → Within v w → Within u w

theorem Within.sizeOf_lt {v w : Value} (h : Within v w) : sizeOf w < sizeOf v := by
  induction h with
  | entry h =>
      have hlt := List.sizeOf_lt_of_mem h
      rw [Value.list.sizeOf_spec]
      omega
  | value h =>
      have hlt := List.sizeOf_lt_of_mem h
      rw [Prod.mk.sizeOf_spec] at hlt
      rw [Value.map.sizeOf_spec]
      omega
  | trans _ _ ih ih' => exact Nat.lt_trans ih' ih

theorem within_of_get? {d : Dict} {name : String} {v : Value} (h : Dict.get? d name = some v) :
    Within (.map d) v :=
  .value (Assoc.get_eq_some_mem h)

/-- What a value is read over is an entry of a list, or holds nothing. -/
theorem mem_iter {v w : Value} {vs : List Value} (h : v.iter = .ok vs) (hw : w ∈ vs) :
    (∃ entries, v = .list entries ∧ w ∈ entries) ∨ ∃ s, w = .scalar s := by
  unfold iter at h
  split at h
  · next =>
      cases h
      exact Or.inl ⟨_, rfl, hw⟩
  · cases h
    obtain ⟨e, _, rfl⟩ := List.mem_map.mp hw
    exact Or.inr ⟨_, rfl⟩
  · cases h
    obtain ⟨c, _, rfl⟩ := List.mem_map.mp hw
    exact Or.inr ⟨_, rfl⟩
  · cases h

/-- What a value is read as pairing a key with is inside it, or holds nothing. -/
theorem mem_pairs {v : Value} {es : Dict} {e : Scalar × Value} (h : v.pairs = .ok es)
    (he : e ∈ es) :
    Within v e.2 ∨ ∃ s, e.2 = .scalar s := by
  unfold pairs at h
  split at h
  · cases h
    exact Or.inl (.value he)
  · obtain ⟨entries, hentries, h⟩ := bind_ok.mp h
    obtain ⟨entry, hentry, hread⟩ := forall₂_of_mem_right (mapM_ok.mp h) he
    obtain ⟨pair, hpair, hread⟩ := bind_ok.mp hread
    split at hread
    · next key value =>
        cases hread
        rcases mem_iter hpair (List.mem_cons_of_mem _ List.mem_cons_self) with ⟨inside, rfl,
          hvalue⟩ | hscalar
        · rcases mem_iter hentries hentry with ⟨outside, rfl, hentry⟩ | ⟨s, hs⟩
          · exact Or.inl (.trans (.entry hentry) (.entry hvalue))
          · cases hs
        · exact Or.inr hscalar
    · cases hread

end Value

theorem Dict.mem_update {d other : Dict} {e : Scalar × Value} (h : e ∈ Dict.update d other) :
    e ∈ d ∨ e ∈ other := by
  induction other generalizing d with
  | nil => exact Or.inl h
  | cons e' other ih =>
      rcases ih (d := Assoc.set d e'.1 e'.2) h with h | h
      · rcases Assoc.mem_set h with rfl | h
        · exact Or.inr List.mem_cons_self
        · exact Or.inl h
      · exact Or.inr (List.mem_cons_of_mem _ h)

namespace Composition

/-! ## Where a reading of a schema leads -/

/-- The schemas a schema holds where a reading of it goes on: the members of its `allOf`, the items
of its collections. -/
def own (schema : Value) : List Value :=
  ((schema.get "allOf" (.list [])).bind Value.iter).toOption.getD []
    ++ (((schema.get "parts" (.map [])).bind Value.pairs).toOption.getD []).filterMap fun part =>
      (itemSchema part.2).toOption

/-- The version a schema's `$ref` names, when it is to a whole type. -/
def named : Value → Option Version
  | .map es => match Dict.get? es "$ref" with
      | some (.scalar (.text ref)) => match reference ref with
          | some ⟨version, true⟩ => version
          | _ => none
      | _ => none
  | _ => none

/-- The schema of the version a schema is built on. -/
def base (corpus : Corpus) (schema : Value) : Option Value :=
  (named schema).bind fun v => (kept corpus v.kind v.number).bind fun found =>
    found.content.schema.toOption

def children (corpus : Corpus) (schema : Value) : List Value :=
  own schema ++ (base corpus schema).toList

/-- A schema names a version where a reading of it goes on, at any depth. -/
def Reads (schema : Value) (v : Version) : Prop :=
  ∃ inside, ReflTransGen (Leads own) schema inside ∧ named inside = some v

theorem Reads.of_own {schema inside : Value} {v : Version} (h : inside ∈ own schema)
    (hreads : Reads inside v) :
    Reads schema v := by
  obtain ⟨s, hs, hnamed⟩ := hreads
  exact ⟨s, .head h hs, hnamed⟩

/-- A schema that holds no other names what its `$ref` does. -/
theorem Reads.of_bare {schema : Value} {v : Version} (h : own schema = [])
    (hreads : Reads schema v) : named schema = some v := by
  obtain ⟨inside, hinside, hnamed⟩ := hreads
  rcases ReflTransGen.cases_head hinside with rfl | ⟨s, hs, _⟩
  · exact hnamed
  · rw [Leads, h] at hs
    exact absurd hs List.not_mem_nil

/-- A member of the `allOf` of a schema is one of its own. -/
theorem own_of_member {schema v : Value} {members : List Value}
    (hget : schema.get "allOf" (.list []) = .ok v) (hiter : v.iter = .ok members) {member : Value}
    (h : member ∈ members) : member ∈ own schema := by
  refine List.mem_append_left _ ?_
  rw [hget]
  show member ∈ v.iter.toOption.getD []
  rw [hiter]
  exact h

/-- The items of a collection of a schema are one of its own. -/
theorem own_of_items {schema v : Value} {parts : Dict} (hget : schema.get "parts" (.map []) = .ok v)
    (hpairs : v.pairs = .ok parts) {part : Scalar × Value} (h : part ∈ parts) {items : Value}
    (hitems : itemSchema part.2 = .ok items) : items ∈ own schema := by
  refine List.mem_append_right _ (List.mem_filterMap.mpr ⟨part, ?_, by rw [hitems]; rfl⟩)
  rw [hget]
  show part ∈ v.pairs.toOption.getD []
  rw [hpairs]
  exact h

/-- What a `$ref` to a whole type names is the base of its schema. -/
theorem base_of_ref {corpus : Corpus} {schema s : Value} {text : String} {version : Option Version}
    (hget : schema.get "$ref" .null = .ok (.scalar (.text text)))
    (href : reference text = some ⟨version, true⟩) (hs : typeSchema corpus text = .ok s) :
    base corpus schema = some s := by
  have hnamed : named schema = version := by
    rcases schema with sc | vs | es
    · cases hget
    · cases hget
    · cases hv : Dict.get? es "$ref" with
      | none => simp [Value.get, hv] at hget
      | some v =>
          have hv' : v = .scalar (.text text) := by simpa [Value.get, hv] using hget
          simp [named, hv, hv', href]
  unfold typeSchema at hs
  rw [href] at hs
  cases hversion : version with
  | none =>
      rw [hversion] at hs
      cases hs
  | some v =>
      rw [hversion] at hs
      unfold base
      rw [hnamed, hversion]
      cases hkept : kept corpus v.kind v.number with
      | none => simp [hkept] at hs
      | some found =>
          have hschema : found.content.schema = .ok s := by simpa [hkept] using hs
          simp [hkept, hschema, Except.toOption]

/-- A value that holds nothing leads nowhere. -/
def Bare (v : Value) : Prop := v = .map [] ∨ ∃ s, v = .scalar s

theorem own_bare {v : Value} (h : Bare v) : own v = [] ∧ named v = none := by
  rcases h with rfl | ⟨s, rfl⟩
  · exact ⟨rfl, rfl⟩
  · exact ⟨rfl, rfl⟩

theorem leads_bare {corpus : Corpus} {v : Value} (h : Bare v) :
    Acc (fun b a => Leads (children corpus) a b) v := by
  refine ⟨_, fun b hb => ?_⟩
  have hchildren : children corpus v = [] := by
    unfold children base
    rw [(own_bare h).1, (own_bare h).2]
    rfl
  rw [Leads, hchildren] at hb
  exact absurd hb List.not_mem_nil

/-- A schema's own are inside it, or hold nothing. -/
theorem own_within {schema inside : Value} (h : inside ∈ own schema) :
    Value.Within schema inside ∨ Bare inside := by
  rcases schema with s | vs | d
  · cases h
  · cases h
  rcases List.mem_append.mp h with h | h
  · cases hv : Dict.get? d "allOf" with
    | none => simp [Value.get, hv, Value.iter, Except.bind, Except.toOption] at h
    | some v =>
        cases hiter : v.iter with
        | error e => simp [Value.get, hv, hiter, Except.bind, Except.toOption] at h
        | ok members =>
            have hmember : inside ∈ members := by
              simpa [Value.get, hv, hiter, Except.bind, Except.toOption] using h
            rcases Value.mem_iter hiter hmember with ⟨entries, rfl, hentry⟩ | hscalar
            · exact Or.inl (.trans (Value.within_of_get? hv) (.entry hentry))
            · exact Or.inr (Or.inr hscalar)
  · obtain ⟨part, hpart, hitems⟩ := List.mem_filterMap.mp h
    cases hv : Dict.get? d "parts" with
    | none => simp [Value.get, hv, Value.pairs, Except.bind, Except.toOption] at hpart
    | some v =>
        cases hpairs : v.pairs with
        | error e => simp [Value.get, hv, hpairs, Except.bind, Except.toOption] at hpart
        | ok parts =>
            have hmem : part ∈ parts := by
              simpa [Value.get, hv, hpairs, Except.bind, Except.toOption] using hpart
            obtain ⟨name, value⟩ := part
            rcases value with s | vs | es
            · cases hitems
            · cases hitems
            cases hin : Dict.get? es "items" with
            | none =>
                have hempty : Value.map [] = inside := by
                  simpa [itemSchema, Value.get, hin, Except.toOption] using hitems
                exact Or.inr (Or.inl hempty.symm)
            | some w =>
                have hw : w = inside := by
                  simpa [itemSchema, Value.get, hin, Except.toOption] using hitems
                cases hw
                rcases Value.mem_pairs hpairs hmem with hwithin | ⟨s, hs⟩
                · exact Or.inl
                    (.trans (Value.within_of_get? hv) (.trans hwithin (Value.within_of_get? hin)))
                · cases hs

/-- Where no path from the versions a schema names is infinite, none is from the schema. -/
theorem acc_of_reads {corpus : Corpus} {schema : Value}
    (h : ∀ v, Reads schema v → ∀ found, kept corpus v.kind v.number = some found →
      ∀ s, found.content.schema = .ok s →
      Acc (fun b a => Leads (children corpus) a b) s) :
        Acc (fun b a => Leads (children corpus) a b) schema := by
  induction hsize : sizeOf schema using Nat.strong_induction_on generalizing schema with
  | _ size ih =>
      subst hsize
      refine ⟨_, fun b hb => ?_⟩
      rcases List.mem_append.mp hb with hown | hbase
      · rcases own_within hown with hwithin | hbare
        · exact ih _ hwithin.sizeOf_lt (fun v hv => h v (hv.of_own hown)) rfl
        · exact leads_bare hbare
      · obtain ⟨v, hv, hbase⟩ := Option.bind_eq_some_iff.mp (Option.mem_toList.mp hbase)
        obtain ⟨found, hfound, hs⟩ := Option.bind_eq_some_iff.mp hbase
        refine h v ⟨schema, .refl, hv⟩ found hfound b ?_
        cases hschema : found.content.schema with
        | error e =>
            rw [hschema] at hs
            cases hs
        | ok s =>
            rw [hschema] at hs
            cases hs
            rfl

/-! ## The composition, and what is declared through it -/

section
variable {P : Error → Prop}

theorem typeSchema_only (hmissing : ∀ key, P (.missing key))
    (hresource : ∀ uri, P (.noSuchResource uri)) (corpus : Corpus) (uri : String) :
    Only P (typeSchema corpus uri) := by
  unfold typeSchema
  split
  · exact .error (hresource uri)
  split
  · exact .error (hresource uri)
  next found _ =>
    unfold Artifact.schema Artifact.at_
    split
    · exact .ok _
    · exact .error (hmissing _)

/-- A composition raises what reading a value or a version raises, or what the composition of a
schema it leads to does. -/
theorem composition_only (hmisshapen : P .misshapen) (hmissing : ∀ key, P (.missing key))
    (hresource : ∀ uri, P (.noSuchResource uri)) {corpus : Corpus} {depth : Nat} {schema : Value}
    (h : ∀ s ∈ children corpus schema, Only P (composition corpus depth s)) :
    Only P (composition corpus (depth + 1) schema) := by
  unfold composition
  refine (Value.get_only hmisshapen _ _ _).bind fun allOf hallOf =>
    (Value.iter_only hmisshapen _).bind fun members hmembers => ?_
  have hown : ∀ member ∈ members, Only P (composition corpus depth member) := fun member hmember =>
    h member (List.mem_append_left _ (own_of_member hallOf hmembers hmember))
  refine (Only.mapM hown).bind fun builtOn _ =>
    (Value.get_only hmisshapen _ _ _).bind fun ref href => ?_
  have hrest : ∀ base,
    Only P (Except.ok (builtOn.flatten ++ base ++ [schema]) : Raises (List Value)) := fun _ => .ok _
  split
  · next text =>
      split
      · next version hreference =>
          refine (typeSchema_only hmissing hresource corpus text).bind fun s hs => ?_
          refine (h s (List.mem_append_right _ (Option.mem_toList.mpr ?_))).bind fun base _ =>
            hrest base
          exact base_of_ref href hreference hs
      · exact (Only.ok _).bind fun base _ => hrest base
  · exact (Only.ok _).bind fun base _ => hrest base

theorem declared_only (hmisshapen : P .misshapen) {O : Outside} {corpus : Corpus} {schema : Value}
    (h : Only P (composition corpus O.depth schema)) : Only P (declared O corpus schema) := by
  refine h.bind fun parts _ => .foldlM (fun whole part _ => ?_) _
  refine (Value.get_only hmisshapen _ _ _).bind fun v _ =>
    (Value.pairs_only hmisshapen v).bind fun properties _ => ?_
  refine (Value.get_only hmisshapen _ _ _).bind fun v _ =>
    (Value.pairs_only hmisshapen v).bind fun parts _ => ?_
  exact (Value.get_only hmisshapen _ _ _).bind fun v _ =>
    (Value.iter_only hmisshapen v).bind fun summary _ => .ok _

end

/-- What a schema comes to by the schemas it leads to. -/
abbrev Reaches (corpus : Corpus) : Value → Value → Prop := ReflTransGen (Leads (children corpus))

/-- A composition holds what its schema comes to. -/
theorem reaches_of_composition {corpus : Corpus} {depth : Nat} {schema : Value} {parts : List Value}
    (h : composition corpus depth schema = .ok parts) :
    ∀ part ∈ parts, Reaches corpus schema part := by
  induction depth generalizing schema parts with
  | zero => cases h
  | succ depth ih =>
      unfold composition at h
      obtain ⟨allOf, hallOf, h⟩ := bind_ok.mp h
      obtain ⟨members, hmembers, h⟩ := bind_ok.mp h
      obtain ⟨builtOn, hbuiltOn, h⟩ := bind_ok.mp h
      obtain ⟨ref, href, h⟩ := bind_ok.mp h
      have hown : ∀ part ∈ builtOn.flatten, Reaches corpus schema part := by
        intro part hpart
        obtain ⟨inside, hinside, hpart⟩ := List.mem_flatten.mp hpart
        obtain ⟨member, hmember, hread⟩ := forall₂_of_mem_right (mapM_ok.mp hbuiltOn) hinside
        exact .head (List.mem_append_left _ (own_of_member hallOf hmembers hmember))
          (ih hread part hpart)
      have hrest : ∀ {base}, (∀ part ∈ base, Reaches corpus schema part) →
          (Except.ok (builtOn.flatten ++ base ++ [schema]) : Raises (List Value)) = .ok parts →
          ∀ part ∈ parts, Reaches corpus schema part := by
        intro base hbase h part hpart
        cases h
        rcases List.mem_append.mp hpart with hpart | hpart
        · rcases List.mem_append.mp hpart with hpart | hpart
          · exact hown part hpart
          · exact hbase part hpart
        · rw [List.mem_singleton.mp hpart]
      split at h
      · split at h
        · next version hreference =>
            obtain ⟨s, hs, h⟩ := bind_ok.mp h
            obtain ⟨base, hbase, h⟩ := bind_ok.mp h
            have hchild : s ∈ children corpus schema :=
              List.mem_append_right _ (Option.mem_toList.mpr (base_of_ref href hreference hs))
            exact hrest (fun part hpart => .head hchild (ih hbase part hpart)) h
        · exact hrest (fun part hpart => absurd hpart List.not_mem_nil) h
      · exact hrest (fun part hpart => absurd hpart List.not_mem_nil) h

/-- The collections declared are each declared by a schema of the composition. -/
theorem parts_of_fold {parts : List Value} {whole out : Declared}
    (h : parts.foldlM declaredOver whole = .ok out) {part : Scalar × Value}
    (hpart : part ∈ out.parts) :
    part ∈ whole.parts ∨ ∃ s ∈ parts, ∃ v es, s.get "parts" (.map []) = .ok v ∧ v.pairs = .ok es ∧
      part ∈ es := by
  induction parts generalizing whole with
  | nil =>
      cases h
      exact Or.inl hpart
  | cons s parts ih =>
      rw [List.foldlM_cons] at h
      obtain ⟨mid, hmid, h⟩ := bind_ok.mp h
      rcases ih h with hin | ⟨s', hs', hrest⟩
      · unfold declaredOver at hmid
        obtain ⟨v₁, _, hmid⟩ := bind_ok.mp hmid
        obtain ⟨properties, _, hmid⟩ := bind_ok.mp hmid
        obtain ⟨v, hv, hmid⟩ := bind_ok.mp hmid
        obtain ⟨es, hes, hmid⟩ := bind_ok.mp hmid
        obtain ⟨v₂, _, hmid⟩ := bind_ok.mp hmid
        obtain ⟨summary, _, hmid⟩ := bind_ok.mp hmid
        cases hmid
        rcases Dict.mem_update hin with hin | hin
        · exact Or.inl hin
        · exact Or.inr ⟨s, List.mem_cons_self, v, es, hv, hes, hin⟩
      · exact Or.inr ⟨s', List.mem_cons_of_mem _ hs', hrest⟩

/-- What the items of a collection declared are, the schema declaring it leads to. -/
theorem items_of_declared {O : Outside} {corpus : Corpus} {schema : Value} {whole : Declared}
    (h : declared O corpus schema = .ok whole) {part : Scalar × Value} (hpart : part ∈ whole.parts)
    {items : Value} (hitems : itemSchema part.2 = .ok items) :
    TransGen (Leads (children corpus)) schema items := by
  obtain ⟨parts, hparts, h⟩ := bind_ok.mp h
  rcases parts_of_fold h hpart with hin | ⟨s, hs, v, es, hv, hes, hin⟩
  · cases hin
  · have hlead : Leads (children corpus) s items :=
      List.mem_append_left _ (own_of_items hv hes hin hitems)
    exact TransGen.tail' (reaches_of_composition hparts s hs) hlead

/-! ## The readings that follow the composition -/

/-- A recursion at any depth of readings, from a bound on. -/
def EndsFrom (O : Outside) (corpus : Corpus) (n : Nat) (schema : Value) : Prop :=
  ∀ k, n ≤ k → Ended (composition corpus k schema) ∧
    ∀ j, n ≤ j → Ended (Validation.collections { O with depth := k } corpus j schema)

theorem declared_ended {O : Outside} {corpus : Corpus} {schema : Value}
    (h : Ended (composition corpus O.depth schema)) :
    Ended (declared O corpus schema) :=
  declared_only (by simp) h

theorem withAllOf_ended (schema : Value) (more : List Value) :
    Ended (Validation.withAllOf schema more) := by
  refine (Value.get_only (by simp) _ _ _).bind fun allOf _ =>
    (Value.iter_only (by simp) allOf).bind fun members _ => ?_
  split
  · exact .ok _
  · exact .error (by simp)

theorem endsFrom_step {O : Outside} {corpus : Corpus} (n : Nat) (schema : Value)
    (h : ∀ s, TransGen (Leads (children corpus)) schema s → EndsFrom O corpus n s) :
    EndsFrom O corpus (n + 1) schema := by
  intro k hk
  have hcomposition : Ended (composition corpus k schema) := by
    obtain ⟨k, rfl⟩ := Nat.exists_eq_add_of_le' (Nat.le_trans (Nat.le_add_left 1 n) hk)
    refine composition_only (by simp) (fun _ => by simp) (fun _ => by simp) fun s hs => ?_
    exact (h s (.single hs) k (by omega)).1
  refine ⟨hcomposition, fun j hj => ?_⟩
  obtain ⟨j, rfl⟩ := Nat.exists_eq_add_of_le' (Nat.le_trans (Nat.le_add_left 1 n) hj)
  refine (declared_ended hcomposition).bind fun whole hwhole => ?_
  simp only
  split
  · exact .ok _
  refine (Only.mapM fun part hpart => ?_).bind fun shapes _ => .ok _
  refine (Value.get_only (by simp) _ _ _).bind fun items hitems => ?_
  have hbelow := h items (items_of_declared hwhole hpart hitems) k (by omega)
  refine (hbelow.2 j (by omega)).bind fun beside _ => ?_
  split
  · exact (Only.ok _).bind fun items _ => .ok _
  · exact (withAllOf_ended _ _).bind fun items _ => .ok _

end Composition

namespace Links

open Kb.Composition

theorem refsOf_ended (properties : Dict) : Ended (refsOf properties) := by
  refine (Only.mapM fun field _ => Only.bind ?_ fun ref _ => .ok _).bind fun refs _ => .ok _
  unfold refOf
  split
  · exact .ok _
  · refine Only.bind ?_ fun holds _ => ?_
    · unfold Value.holds
      split
      · exact .ok _
      · exact .ok _
      · exact .ok _
      · exact .error (by simp)
    · split
      · exact .error (by simp)
      · exact .ok _

/-- The links of an item and of the items inside it are read, at a bound above how deep the content
goes, where the composition of the items of every collection it may hold is. -/
theorem linksIn_ended {O : Outside} {corpus : Corpus} (depth : Nat) (node : Dict)
    (refs : List (Scalar × Value)) (parts : Dict) (at_ holder : String)
    (hdepth : sizeOf node < depth)
    (hparts : ∀ part ∈ parts, ∀ items, itemSchema part.2 = .ok items →
      ∀ s, Reaches corpus items s → Ended (composition corpus O.depth s)) :
    Ended (linksIn O corpus depth node refs parts at_ holder) := by
  induction depth generalizing node refs parts at_ holder with
  | zero => omega
  | succ depth ih =>
      unfold linksIn
      refine (Only.mapM fun part hpart => ?_).bind fun inside _ => .ok _
      obtain ⟨collection, part⟩ := part
      simp only
      split
      · next entries hentries =>
          refine (Value.get_only (by simp) _ _ _).bind fun schema hschema => ?_
          have hitems := hparts (collection, part) hpart schema hschema
          have hdeclared := declared_ended (O := O) (hitems schema .refl)
          refine (hdeclared.bind fun whole _ => refsOf_ended _).bind fun itemRefs _ => ?_
          refine (Only.mapM fun entry hentry => ?_).bind fun found _ => .ok _
          obtain ⟨item, index⟩ := entry
          simp only
          split
          · next es =>
              refine hdeclared.bind fun whole hwhole =>
                ih es _ _ _ _ ?_ fun inner hinner items' hitems' s hs => ?_
              · have hin := List.sizeOf_lt_of_mem (List.fst_mem_of_mem_zipIdx hentry)
                have hout := List.sizeOf_lt_of_mem (Assoc.get_eq_some_mem hentries)
                simp only [Prod.mk.sizeOf_spec, Value.map.sizeOf_spec,
                  Value.list.sizeOf_spec] at hin hout
                omega
              · exact hitems s ((items_of_declared hwhole hinner hitems').to_reflTransGen.trans hs)
          · exact .ok _
      · exact .ok _

theorem carried_ended {O : Outside} {corpus : Corpus} {schema : Value} {content : Dict}
    (hdepth : sizeOf content < O.depth)
    (h : ∀ s, Reaches corpus schema s → Ended (composition corpus O.depth s)) :
    Ended (carried O corpus content schema) := by
  have hdeclared := declared_ended (O := O) (h schema .refl)
  refine hdeclared.bind fun whole hwhole => (refsOf_ended _).bind fun refs _ => ?_
  refine linksIn_ended _ _ _ _ _ _ hdepth fun part hpart items hitems s hs => ?_
  exact h s ((items_of_declared hwhole hpart hitems).to_reflTransGen.trans hs)

end Links

open Kb.Composition in
/-- Where no path from a schema is infinite, there is a bound from which on none of the readings
made through what it is built on runs out: its composition, what it declares, the shapes of its
collections, and the links of any content, given a bound above how deep the content goes. -/
theorem readings_end {corpus : Corpus} {schema : Value}
    (h : Acc (fun b a => Leads (children corpus) a b) schema) (O : Outside) :
    ∃ n, ∀ k, n ≤ k → Ended (composition corpus k schema) ∧
      Ended (declared { O with depth := k } corpus schema) ∧
      Ended (Validation.collections { O with depth := k } corpus k schema) ∧
      ∀ content, sizeOf content < k →
          Ended (Links.carried { O with depth := k } corpus content schema) := by
  have hmono : ∀ m n s, m ≤ n → EndsFrom O corpus m s → EndsFrom O corpus n s :=
      fun m n s hle hm k hk =>
    ⟨(hm k (by omega)).1, fun j hj => (hm k (by omega)).2 j (by omega)⟩
  obtain ⟨n, hn⟩ := bounded hmono endsFrom_step h
  refine ⟨n, fun k hk => ?_⟩
  have hschema := hn schema .refl k hk
  refine ⟨hschema.1, declared_ended (O := { O with depth := k }) hschema.1, hschema.2 k hk,
    fun content hcontent => ?_⟩
  exact Links.carried_ended (O := { O with depth := k }) hcontent fun s hs => (hn s hs k hk).1

end Kb
