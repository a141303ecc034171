/-
# `Kb.Declaring` — what the schemas a type is built on declare together

One schema's keywords are put over those of the schemas before it: of each field and each collection
the last declaration stands (`folded`), and the fields shown at a glance are those of any of them.
Each is declared once (`declared_keys`).
-/
import Kb.Composition
import Kb.Lib.Raising

namespace Kb.Composition

open Raising

/-- The declarations a schema makes by a keyword that holds a mapping of them. -/
def taken (k : String) (schema : Value) : Raises Dict := do (← schema.get k (.map [])).pairs

/-- The entries of a keyword of a schema that holds a list of them. -/
def enlisted (k : String) (schema : Value) : Raises (List Value) :=
  do (← schema.get k (.list [])).iter

/-- What a schema declares by a name; of a name declared twice in one list of pairs, the last. -/
def declaredIn (k : String) (schema : Value) (name : Scalar) : Option Value :=
  match taken k schema with
  | .ok ps => Assoc.get (Dict.update [] ps) name
  | .error _ => none

/-- What the last of several schemas to declare a name declares by it. -/
def lastIn (k : String) (name : Scalar) : List Value → Option Value
  | [] => none
  | schema :: rest => (lastIn k name rest).or (declaredIn k schema name)

/-- What a schema must be for its keywords to be put over others'. -/
structure Takes (schema : Value) : Prop where
  properties : ∃ ps, taken "properties" schema = .ok ps
  parts : ∃ ps, taken "parts" schema = .ok ps
  summary : ∃ xs, enlisted "summary" schema = .ok xs

theorem declaredOver_ok {whole next : Declared} {schema : Value} :
    declaredOver whole schema = .ok next ↔ ∃ ps qs xs, taken "properties" schema = .ok ps ∧
      taken "parts" schema = .ok qs ∧
      enlisted "summary" schema = .ok xs ∧
      next = ⟨Dict.update whole.properties ps, Dict.update whole.parts qs,
        whole.summary ++ xs.filter (· ∉ whole.summary)⟩ := by
  constructor
  · intro h
    obtain ⟨p, hp, h⟩ := bind_ok.mp h
    obtain ⟨ps, hps, h⟩ := bind_ok.mp h
    obtain ⟨q, hq, h⟩ := bind_ok.mp h
    obtain ⟨qs, hqs, h⟩ := bind_ok.mp h
    obtain ⟨x, hx, h⟩ := bind_ok.mp h
    obtain ⟨xs, hxs, h⟩ := bind_ok.mp h
    exact ⟨ps, qs, xs, bind_ok.mpr ⟨p, hp, hps⟩, bind_ok.mpr ⟨q, hq, hqs⟩, bind_ok.mpr ⟨x, hx, hxs⟩,
      (Except.ok.inj h).symm⟩
  · rintro ⟨ps, qs, xs, hps, hqs, hxs, rfl⟩
    obtain ⟨p, hp, hps⟩ := bind_ok.mp hps
    obtain ⟨q, hq, hqs⟩ := bind_ok.mp hqs
    obtain ⟨x, hx, hxs⟩ := bind_ok.mp hxs
    exact bind_ok.mpr ⟨p, hp, bind_ok.mpr ⟨ps, hps, bind_ok.mpr ⟨q, hq, bind_ok.mpr ⟨qs, hqs,
      bind_ok.mpr ⟨x, hx, bind_ok.mpr ⟨xs, hxs, rfl⟩⟩⟩⟩⟩⟩

theorem get_update (d ps : Dict) (name : Scalar) :
    Assoc.get (Dict.update d ps) name = (Assoc.get (Dict.update [] ps) name).or
      (Assoc.get d name) := by
  induction ps generalizing d with
  | nil => rfl
  | cons p ps ih =>
      show Assoc.get (Dict.update (Assoc.set d p.1 p.2) ps) name =
        (Assoc.get (Dict.update (Assoc.set [] p.1 p.2) ps) name).or (Assoc.get d name)
      rw [ih, ih (Assoc.set [] p.1 p.2), Option.or_assoc, Assoc.get_set, Assoc.get_set]
      split
      · rfl
      · rfl

theorem keys_update {d : Dict} (h : (Assoc.keys d).Nodup) (ps : Dict) :
    (Assoc.keys (Dict.update d ps)).Nodup := by
  induction ps generalizing d with
  | nil => exact h
  | cons p ps ih => exact ih (Assoc.keys_nodup_set _ _ h)

/-- What schemas one over another declare: of each name the last declaration, and every field shown
at a glance. -/
theorem folded {schemas : List Value} {before whole : Declared}
    (h : schemas.foldlM declaredOver before = .ok whole) :
    (∀ schema ∈ schemas, Takes schema) ∧
      (∀ name, Assoc.get whole.properties name = (lastIn "properties" name schemas).or
        (Assoc.get before.properties name)) ∧
      (∀ name, Assoc.get whole.parts name = (lastIn "parts" name schemas).or
        (Assoc.get before.parts name)) ∧
      ∀ x, x ∈ whole.summary ↔ x ∈ before.summary ∨ ∃ schema ∈ schemas, ∃ xs,
        enlisted "summary" schema = .ok xs ∧ x ∈ xs := by
  induction schemas generalizing before with
  | nil =>
      cases h
      exact ⟨nofun, fun _ => rfl, fun _ => rfl,
        fun x => ⟨Or.inl, fun h => h.resolve_right fun ⟨_, h, _⟩ => nomatch h⟩⟩
  | cons schema rest ih =>
      rw [List.foldlM_cons] at h
      obtain ⟨mid, hmid, h⟩ := bind_ok.mp h
      obtain ⟨ps, qs, xs, hps, hqs, hxs, rfl⟩ := declaredOver_ok.mp hmid
      obtain ⟨htakes, hproperties, hparts, hsummary⟩ := ih h
      refine ⟨List.forall_mem_cons.mpr ⟨⟨⟨ps, hps⟩, ⟨qs, hqs⟩, ⟨xs, hxs⟩⟩, htakes⟩, fun name => ?_,
        fun name => ?_, fun x => ?_⟩
      · rw [hproperties, get_update, lastIn, declaredIn, hps, Option.or_assoc]
      · rw [hparts, get_update, lastIn, declaredIn, hqs, Option.or_assoc]
      · rw [hsummary, List.mem_append, or_assoc]
        refine or_congr_right' fun hx => ?_
        constructor
        · rintro (hmem | ⟨each, heach, h⟩)
          · exact ⟨schema, List.mem_cons_self, xs, hxs, (List.mem_filter.mp hmem).1⟩
          · exact ⟨each, List.mem_cons_of_mem _ heach, h⟩
        · rintro ⟨each, heach, ys, hys, hmem⟩
          rcases List.mem_cons.mp heach with rfl | heach
          · cases hxs.symm.trans hys
            exact Or.inl (List.mem_filter.mpr ⟨hmem, decide_eq_true hx⟩)
          · exact Or.inr ⟨each, heach, ys, hys, hmem⟩

/-- Schemas whose keywords can be put over others' declare something together. -/
theorem folds {schemas : List Value} (h : ∀ schema ∈ schemas, Takes schema) (before : Declared) :
    ∃ whole, schemas.foldlM declaredOver before = .ok whole := by
  induction schemas generalizing before with
  | nil => exact ⟨before, rfl⟩
  | cons schema rest ih =>
      obtain ⟨⟨ps, hps⟩, ⟨qs, hqs⟩, ⟨xs, hxs⟩⟩ := h schema List.mem_cons_self
      obtain ⟨whole, hwhole⟩ := ih (fun each heach => h each (List.mem_cons_of_mem _ heach)) _
      refine ⟨whole, ?_⟩
      rw [List.foldlM_cons]
      exact bind_ok.mpr ⟨_, declaredOver_ok.mpr ⟨ps, qs, xs, hps, hqs, hxs, rfl⟩, hwhole⟩

/-- A type declares each of its fields and each of its collections once. -/
theorem declared_keys {O : Outside} {corpus : Corpus} {schema : Value} {whole : Declared}
    (h : declared O corpus schema = .ok whole) :
    (Assoc.keys whole.properties).Nodup ∧ (Assoc.keys whole.parts).Nodup := by
  obtain ⟨schemas, _, h⟩ := bind_ok.mp h
  refine foldlM_keeps (I := fun whole : Declared => (Assoc.keys whole.properties).Nodup ∧
    (Assoc.keys whole.parts).Nodup)
    (fun before schema _ next hbefore hnext => ?_) (b := {}) ⟨List.nodup_nil, List.nodup_nil⟩ h
  obtain ⟨ps, qs, xs, _, _, _, rfl⟩ := declaredOver_ok.mp hnext
  exact ⟨keys_update hbefore.1 ps, keys_update hbefore.2 qs⟩

end Kb.Composition
