/-
# `Kb.Bare` — a composition where every type named declares nothing

What a schema and its `allOf` members say apart from the types they name is what their composition,
their declarations and their required sections come to in a corpus whose types all declare nothing
(`bare`): the tops of the schema one over another, base first, with only empty schemas among them.
-/
import Kb.Tops
import Kb.Declaring
import Kb.Write

namespace Kb

open Raising

namespace Composition

/-! ## A composition where every type named declares nothing -/

/-- The corpus that holds every type, each version of which has the empty schema. -/
def bare : Corpus where
  artifact id := some ⟨id, Start.METASCHEMA_VERSION, 1, "", []⟩
  typeVersion id _ :=
    some ⟨⟨id, Start.METASCHEMA_VERSION, 1, "", [(.text "schema", .map [])]⟩, 1, ""⟩

/-- Schemas with empty ones put among them. -/
inductive Padded : List Value → List Value → Prop
  | nil : Padded [] []
  | kept {v : Value} {vs ws : List Value} : Padded vs ws → Padded (v :: vs) (v :: ws)
  | padded {vs ws : List Value} : Padded vs ws → Padded vs (.map [] :: ws)

theorem Padded.refl (vs : List Value) : Padded vs vs := by
  induction vs with
  | nil => exact .nil
  | cons v vs ih => exact .kept ih

theorem Padded.append {vs vs' ws ws' : List Value} (h : Padded vs ws) (h' : Padded vs' ws') :
    Padded (vs ++ vs') (ws ++ ws') := by
  induction h with
  | nil => exact h'
  | kept _ ih => exact .kept ih
  | padded _ ih => exact .padded ih

variable {O : Outside}

end Composition

end Kb
