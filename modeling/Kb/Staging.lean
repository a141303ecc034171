/-
# `Kb.Staging` — a store started out of sight, and put in place whole by one rename

`staging.py`, and the operator's import and restore as they fill a store that is being started: the
store is made in a place beneath the root it is for, cleared of what an earlier run left there, and
moved to where a store goes once it is whole.
-/
import Kb.Importing
import Kb.Starting

namespace Kb

open Stopping Stopping.Program

/-- A file offered as a backup: the mark and the form its header names, when it can be read whole,
and the tables it holds. -/
structure Backup where
  named : String
  header : Option (Int × Int)
  tables : Tables

namespace Backups

/-- kb's application id, the bytes `kbst`. -/
def MARK : Int := 0x6b627374

def refuse (message : String) : Except Failure Unit :=
  .error (.refused (Failure.fault Rules.UNREADABLE message))

/-- `backups.read`. -/
def read (backup : Backup) : Except Failure Unit :=
  match backup.header with
  | none => refuse (quoted backup.named ++ " is not a backup kb made")
  | some (mark, form) =>
      if mark ≠ MARK then refuse (quoted backup.named ++ " is not a backup kb made")
      else if form < Store.STORE_FORM then
        refuse (quoted backup.named ++ " was made by an earlier kb, which this kb cannot read")
      else if Store.STORE_FORM < form then
        refuse (quoted backup.named ++
          " was made by a later version of kb, which is needed to read it")
      else .ok ()

/-- `sqlite_backup.copied_out`: a database made where nothing is, the backup copied into it whole,
then WAL mode set. -/
def copiedOut (backup : Backup) (p : Path) : Doing Unit := do
  Files.doing (notDone p) fun d => d.create p (.database none)
  Files.doing (notDone p) fun d => d.change p (Held.withTables backup.tables)
  passing

/-- `backups.restored`. -/
def restored (M : Machine) (root : Path) (backup : Backup) : Doing Unit :=
  Store.start M root (copiedOut backup) fun t => .ok ((), t)

end Backups

/-- An import as a start asks for it: the directory as named, its files, and the moments a landing's
entries are given. -/
structure Seed where
  named : String
  files : List File
  clock : Nat → Int
  again : Nat → Int

namespace Signatures

/-- What `str.strip` strips. -/
def isSpace (c : Char) : Bool :=
  let n := c.toNat
  9 ≤ n && n ≤ 13 || 28 ≤ n && n ≤ 32 || n = 0x85 || n = 0xA0 || n = 0x1680 || 0x2000 ≤ n &&
    n ≤ 0x200A || n = 0x2028
    || n = 0x2029 || n = 0x202F || n = 0x205F || n = 0x3000

/-- The faults a role and a message are refused for. -/
def unsigned (role message : String) : List Fault :=
  (if role.toList.all isSpace
    then Failure.fault Rules.ACTOR "every entry in the history names the role that made it" else [])
    ++ if message.toList.all isSpace
      then Failure.fault Rules.MESSAGE "every entry in the history says why it was made" else []

/-- `signatures.signed`. -/
def signed (role execution message : String) : Raises Signed :=
  if (unsigned role message).isEmpty then .ok ⟨role, execution, message⟩
    else .error (.refused (unsigned role message))

end Signatures

namespace Operating

/-- What a command of the operator's answers: what it gave, or the faults of whatever exception it
raised. -/
def answered {α : Type} (x : Doing α) (refused : List Fault → α) : Doing α :=
  catching x fun e => if e.caught then give (refused e.faults) else throw e

/-- The import of a directory into the store at a root, as it stands. -/
def importing (M : Machine) (seed : Seed) (role : String) (t : Tables) :
    Raises (Importing.Checked × Tables) := do
  let signed ← Signatures.signed role "" ("import " ++ seed.named)
  Importing.imported M.outside t seed.files signed false seed.clock seed.again

def import_ (M : Machine) (root : Root) (seed : Seed) (role : String) : Doing Importing.Checked :=
  answered (do
    step fun _ d => (Store.toldApart M d root).map fun told => (told, d)
    SqliteStore.opened M (root.path ++ Store.DATABASE) (importing M seed role))
    fun faults => { faults }

/-- The faults a backup is refused for. -/
def restore (M : Machine) (root : Path) (backup : Backup) : Doing (List Fault) :=
  answered (do
    Backups.restored M root backup
    return []) id

end Operating

namespace Staging

open Store (KB STAGING)
open Starting

def place (root : Root) : Root := ⟨root.path ++ [STAGING], root.named ++ "/" ++ STAGING⟩

def cleared (p : Path) : Doing Unit := do
  let stands ← step fun _ d => .ok ((d.look p).isSome, d)
  if stands then Files.rmtree (notDone p) p else give ()

def emptied (p : Path) : Doing Unit := do
  cleared p
  Files.doing (notDone p) fun d => d.mkdir p

/-- `_staged`: the staging place made empty for a part of a start, and removed however that part
ends. -/
def staged {α : Type} (root : Root) (x : Doing α) : Doing α := do
  prepared (emptied (place root).path)
  ensuring x (cleared (place root).path)

/-- `_placed`: the store in the staging place put where a store goes. -/
def placed (root : Root) : Doing Unit :=
  Files.doing (notDone (root.path ++ [KB])) fun d =>
    d.rename ((place root).path ++ [KB]) (root.path ++ [KB])

def started (M : Machine) (root : Root) (role : String) (moment : Int) : Doing Unit := do
  vacant M root "started"
  staged root do
    init M (place root) role "" moment
    placed root

def seeded (M : Machine) (root : Root) (role : String) (seed : Seed) (moment : Int) :
    Doing Importing.Checked := do
  vacant M root "started"
  staged root do
    init M (place root) role "" moment
    let imported ← Operating.import_ M (place root) seed role
    if imported.faults.isEmpty then placed root
    return imported

def restored (M : Machine) (root : Root) (backup : Backup) : Doing (List Fault) := do
  vacant M root "restored"
  prepared (of (Backups.read backup))
  staged root do
    let refused ← Operating.restore M (place root).path backup
    if refused.isEmpty then placed root
    return refused

/-- `_taken_back`: the store placed moved out to the staging place, and removed with it. -/
def takenBack (root : Root) : Doing Unit :=
  staged root (Files.doing (notDone ((place root).path ++ [KB])) fun d =>
    d.rename (root.path ++ [KB]) ((place root).path ++ [KB]))

/-- How the block a store is served in ends: what it raised, if anything, and whether it had kept
the store by then. -/
structure Block where
  raised : Option Failure
  kept : Bool

def isRefused : Failure → Bool
  | .refused _ => true
  | _ => false

namespace Block

/-- Whether the store is left where it is: kept, or another server's. -/
def left (block : Block) : Bool := block.kept || (block.raised.map isRefused).getD false

/-- How `serving` ends, its block ended. -/
def ending (block : Block) : Stopping.Ended Failure Unit :=
  match block.raised with
  | some e => .raised e
  | none => .returned ()

def raise (block : Block) : Doing Unit :=
  match block.raised with
  | some e => throw e
  | none => give ()

end Block

/-- A block run to its end, whatever it raises. -/
def ran (block : Doing Block) : Doing Block := catching block fun e => give ⟨some e, false⟩

/-- The `finally` of `serving`. -/
def unkept (root : Root) (role : Option String) (block : Block) : Doing Unit :=
  if role.isSome && !block.left then takenBack root else give ()

/-- `serving`: with a role, a store started for a block to serve, and taken back where the block did
not keep it, unless it was refused. -/
def serving (M : Machine) (root : Root) (role : Option String) (moment : Int)
    (block : Doing Block) : Doing Unit := do
  match role with
  | some role => started M root role moment
  | none => give ()
  let ended ← ran block
  unkept root role ended
  ended.raise

end Staging

end Kb
