/-
# `Kb.Atomicity` — a set lands whole or not at all

`SqliteStore.exclusive`, `_saved` and `land` over the connection of `Kb.Lib.Transaction`: the
landing's statements under a savepoint of their own, the savepoint under the write lock.  A caller's
program is any nesting of blocks, of landings in them, and of parts whose error the caller catches
and goes on from.

While no statement loses the transaction of the block it is made in, what the blocks leave does not
depend on which statement refused or failed, or on what the set had written by then: that is the
savepoint's to undo, and nothing else is touched.  A statement SQLite answers by rolling the whole
transaction back is not noticed: the savepoint is gone, the lock is still taken for held, and a set
landed after it in the block is kept by the release of its own savepoint, whatever the block comes
to.
-/
import Kb.Landing

namespace Kb.Atomicity

open Transaction Landing

/-- A set as it is handed to be landed: its changes and its entries. -/
abbrev Handed := List Change × List Entry

/-- A caller's program over the store's connection. -/
abbrev Program := List (Act Handed Error)

variable (db : Database Error)

def run (act : Act Handed Error) (c : Connection Tables) : Ran Handed Tables Error :=
  Act.run db script {} act c

def runAll (program : Program) (c : Connection Tables) : Ran Handed Tables Error :=
  Act.runAll db script {} program c

/-- `SqliteStore.land`. -/
def land (set : Handed) (c : Connection Tables) : Except Error Unit × Connection Tables :=
  landing db (script set) {} c

/-- What landing sets alone, one after another, gives. -/
def landedAll (t : Tables) (sets : List Handed) : Raises Tables :=
  sets.foldlM (fun t set => landed t set.1 set.2) t

/-- While no statement made loses its transaction: the outermost block, whatever it holds, leaves
every table as the sets it accepted give alone, in order, when it ends, and as it was before, when
it raises.  A set refused, or failing at any statement, inside a block leaves the connection as it
found it, the lock held and the block's transaction and savepoints with it; and what a block has
left at any point is what the sets accepted in it so far give alone.  A set landed outside any block
is whole or not at all however its statements fail. -/
theorem landings_atomic :
    (∀ (body : Program) (c : Connection Tables), Idle c →
      Keeps db c (run db (.block body) c).connection →
      Idle (run db (.block body) c).connection ∧
      ((run db (.block body) c).result = .ok () →
        landedAll c.state (run db (.block body) c).accepted =
          .ok (run db (.block body) c).connection.state) ∧
      (∀ e, (run db (.block body) c).result = .error e →
        (run db (.block body) c).connection.state = c.state)) ∧
    (∀ (set : Handed) (c : Connection Tables) (e : Error), c.locked = true →
      Keeps db c (land db set c).2 →
      (land db set c).1 = .error e → ∃ n, (land db set c).2 = { c with made := n }) ∧
    (∀ (body : Program) (c : Connection Tables), c.locked = true →
      Keeps db c (runAll db body c).connection →
      ∃ t n, (runAll db body c).connection = { c with state := t, made := n } ∧
        landedAll c.state (runAll db body c).accepted = .ok t) ∧
    (∀ (program : Program) (c : Connection Tables), Idle c →
      Keeps db c (runAll db program c).connection →
      landedAll c.state (runAll db program c).accepted =
        .ok (runAll db program c).connection.state) ∧
    (∀ (set : Handed) (c : Connection Tables), Idle c →
      landedAll c.state (run db (.land set) c).accepted =
          .ok (run db (.land set) c).connection.state) := by
  refine ⟨fun body c hc hk => ?_, fun set c e hl hk he => ?_, fun body c hl hk => ?_,
    fun program c hc hk => ?_,
    fun set c hc => ?_⟩
  · obtain ⟨hidle, hok, herr⟩ := block_idle db script {} body hc hk
    exact ⟨hidle, hok, fun e he => (herr e he).1⟩
  · obtain ⟨s, n, hconn, hs⟩ := (landing_locked db script {} set hl hk).2 e he
    have : s = c.state := (Except.ok.inj hs).symm
    exact ⟨n, by rw [this] at hconn; exact hconn⟩
  · exact Act.runAll_locked db script {} body c hl hk
  · exact (Act.runAll_idle db script {} program c hc hk).2
  · exact (land_idle db script {} set hc).2

/-! ## A block with a set refused in it -/

namespace Refused

def type : ArtifactId := ⟨"https://x.io/t", by decide⟩
def first : Artifact :=
  ⟨⟨"https://x.io/t/a", by decide⟩, ⟨type, 1, Nat.one_pos, by decide⟩, 1, "A", []⟩
def second : Artifact := { first with id := ⟨"https://x.io/t/b", by decide⟩ }

def creating (a : Artifact) : Handed :=
  ([{ artifact := a.id, content := some a, revision := 1, kind := some a.kind }], [])

/-- A set read at a revision its artifact does not stand at. -/
def moved : Handed :=
  ([{ artifact := first.id, content := some first, read := 7, revision := 8,
      kind := some first.kind }], [])

/-- A database that fails one statement, midway through the second set written, with its transaction
or without. -/
def database (failure : Failure) : Database Error where
  fails n := if n = 30 then some failure else none
  down := .database
  absent := .database
  nested := .lockInsideReads

/-- A connection to a store nothing has landed in. -/
def fresh : Connection Tables := { state := {} }

def body : Program :=
  [.land (creating first), .caught [.land moved], .caught [.land (creating second)],
    .land (creating second)]

theorem keeps (c c' : Connection Tables) : Keeps (database .statement) c c' := by
  intro n _ _ h
  change (if n = 30 then some Failure.statement else none) = some Failure.transaction at h
  split at h <;> cases h

end Refused

open Refused in
/-- One set refused by its check and one failing midway, both caught: the block keeps the two
accepted. -/
theorem landings_atomic_refused :
    (run (database .statement) (.block body) fresh).result = .ok () ∧
      (run (database .statement) (.block body) fresh).accepted = [creating first, creating second] ∧
      landedAll fresh.state [creating first, creating second] =
        .ok (run (database .statement) (.block body) fresh).connection.state := by
  have hok : (run (database .statement) (.block body) fresh).result = .ok () := by decide +kernel
  have hacc : (run (database .statement) (.block body) fresh).accepted =
      [creating first, creating second] := by
    decide +kernel
  have hall :=
    ((landings_atomic (database .statement)).1 body fresh ⟨rfl, rfl, rfl⟩ (keeps _ _)).2.1 hok
  rw [hacc] at hall
  exact ⟨hok, hacc, hall⟩

open Refused in
/-- The same block, where the failing statement takes the transaction with it: the block raises, the
set accepted before is gone, and the one accepted after is kept. -/
theorem landings_not_atomic :
    (run (database .transaction) (.block body) fresh).result = .error .database ∧
      fresh.state.artifacts.map ArtifactRow.id = [] ∧
      (run (database .transaction) (.block body) fresh).connection.state.artifacts.map
        ArtifactRow.id = [second.id] := by
  decide +kernel

end Kb.Atomicity
