/-
# `Kb.Starting` — a store started, the place it is started in, and the marker that makes it one

`store.py`, `starting.py`, and what of `sqlite_store.py`, `sqlite_backup.py`, `backups.py`,
`signatures.py` and `escapes.py` they start one with, as programs over a disk: every call to the
file system and every transaction of the database a step, which may fail or be the last before the
process is killed.  A file is written one character after another, so a kill leaves any first part
of it.

A disk's paths are absolute.  A database's side files are SQLite's own and left out: a database is
one file, and holds the tables a connection opened on it would read.
-/
import Kb.Write
import Kb.Lib.Files

namespace Kb

open Stopping Stopping.Program

namespace Rules
def ACTOR := "actor"
def MESSAGE := "message"
def ROOT := "root"
def STORE := "store"
def CLOCK := "clock"
def BUSY := "busy"
end Rules

/-- What a file holds: text, or a database, made but without a schema or with the tables it
holds. -/
inductive Held where
  | text (s : String)
  | database (tables : Option Tables)

abbrev Path := List String

abbrev Disk := Files.Disk String Held

/-- What is raised, each kind with what its text says. -/
inductive Failure where
  /-- `Refused`. -/
  | refused (faults : List Fault)
  /-- `Unreadable`, or an error of the database's. -/
  | unreadable (problem : String)
  /-- `OSError`. -/
  | system (problem : String)
  | busy
  | earlierKb (root : String)
  | laterKb (root : String)
  | clockFailed (problem : String)
  | notStarted (faults : List Fault)
  /-- Any other `Exception`. -/
  | other (problem : String)
  /-- What is no `Exception`, as `KeyboardInterrupt` is not. -/
  | interrupted

abbrev Doing (α : Type) := Program Disk Failure α

/-- Where a store is started, restored or looked for, and the name it was given. -/
structure Root where
  path : Path
  named : String

/-- What a start is made on: what lies outside the code, what the SQLite of the process lacks, the
directories the process can write, and the text an error raised is described by. -/
structure Machine where
  outside : Outside
  lacking : Option String
  writable : Path → Bool
  described : Error → String

/-! ## What escapes -/

namespace Failure

/-- Whether it is an `Exception`. -/
def caught : Failure → Bool
  | .interrupted => false
  | _ => true

/-- Whether it is what `store.start` takes its place away for: `sqlite3.Error`, `OSError`,
`Unreadable`. -/
def storage : Failure → Bool
  | .unreadable _ | .system _ => true
  | _ => false

def fault (rule message : String) : List Fault := [{ rule, message }]

def escaped (problem : String) : List Fault :=
  fault Rules.STORE ("the store could not answer, and nothing was written: " ++ problem)

/-- `escapes.fault`, and a refusal's own faults. -/
def faults : Failure → List Fault
  | .refused faults => faults
  | .clockFailed problem =>
      fault Rules.CLOCK ("the clock failed when it was asked the time: " ++ problem)
  | .busy =>
      fault Rules.BUSY
        ("the store was busy with another change for longer than it waits, and nothing was written; "
      ++ "the same change may be made again")
  | .earlierKb root => fault Rules.UNREADABLE
      ("the store at " ++ root ++
        " was made by an earlier version of kb, which this kb cannot read or move")
  | .laterKb root => fault Rules.UNREADABLE
      ("the store at " ++ root ++ " was made by a later version of kb, which is needed to read it; "
        ++ "this kb does not know the form of store its marker names")
  | .unreadable problem =>
      fault Rules.UNREADABLE ("the store's database cannot be read: " ++ problem)
  | .system problem | .other problem => escaped problem
  | .notStarted faults =>
      escaped ("NotStarted: " ++ "; ".intercalate (faults.map fun f => f.rule ++ ": " ++ f.message))
  | .interrupted => []

end Failure

namespace Machine

variable (M : Machine)

/-- An error of the domain's as it is raised. -/
def failure : Error → Failure
  | .refused faults => .refused faults
  | .database => .unreadable (M.described .database)
  | e => .other (M.described e)

def raising {α : Type} (x : Raises α) : Except Failure α := x.mapError M.failure

end Machine

/-! ## Where a store is -/

namespace Store

def KB := "kb"
def MARKER : Path := [KB, "store.yaml"]
def DATABASE : Path := [KB, "store.sqlite3"]
def CONNECTION : Path := [KB, "server.yaml"]
def STORE_FORM : Int := 2
def EARLIER_FORM : Int := 1
def STAGING := ".kb-starting"

/-- A path as `str` writes it. -/
def shown (p : Path) : String := "/" ++ "/".intercalate p

/-- The nearest directory at or above one with a store inside it. -/
def findAbove (d : Disk) (start : Path) : Option Path :=
  start.inits.reverse.find? fun directory => d.isFile (directory ++ MARKER)

def refuseRoot (message : String) : Option (List Fault) := some (Failure.fault Rules.ROOT message)

/-- Why no store can be started in a root. -/
def refusal (M : Machine) (d : Disk) (root : Root) (verb : String) : Option (List Fault) :=
  if (d.look root.path).isNone then
    refuseRoot ("a store is started in a directory that exists; " ++
      quoted root.named ++ " does not")
  else if !d.isFolder root.path then
    refuseRoot ("a store is started in a directory, and " ++ quoted root.named ++ " is not one")
  else if d.isFile (root.path ++ MARKER) then
    refuseRoot ("a store is never " ++ verb ++ " over another; " ++ quoted root.named ++
      " already has a store inside it")
  else if (d.look (root.path ++ [KB])).isSome then
    refuseRoot ("a store goes in a place of its own, and " ++ quoted root.named ++
      " already holds something in that place")
  else match findAbove d root.path.dropLast with
    | some above =>
        refuseRoot ("stores do not nest; " ++ quoted root.named ++ " is inside the store at " ++
          quoted (shown above))
    | none =>
        if M.writable root.path then none
        else refuseRoot ("a store is " ++ verb ++ " in a directory kb can write, and " ++
          quoted root.named ++ " is not one")

/-- `store.vacant`. -/
def vacant (M : Machine) (root : Root) (verb : String) : Doing Unit :=
  step fun _ d => match refusal M d root verb with
    | some faults => .error (.refused faults)
    | none => .ok ((), d)

/-- A marker naming a form, as kb writes it. -/
def marking (form : Int) : Dict := [(.text "store", .int form)]

def isMarker (M : Machine) (marker : Dict) (form : Int) : Except Failure Bool :=
  match M.outside.dump marker, M.outside.dump (marking form) with
  | .ok text, .ok text' => .ok (text = text')
  | .error (problem, place), _
  | _, .error (problem, place) => .error (M.failure (.notCanonical problem place))

/-- `_told_apart`: the store refused whose marker is not exactly this kb's. -/
def toldApart (M : Machine) (d : Disk) (root : Root) : Except Failure Unit :=
  match d.look (root.path ++ MARKER) with
  | some (.file (.text text)) => match M.outside.load text with
      | .ok (.map marker) => do
          if ← isMarker M marker STORE_FORM then return ()
          if (Dict.get? marker "contract").isSome || (← isMarker M marker EARLIER_FORM)
            then throw (.earlierKb root.named)
          throw (.laterKb root.named)
      | _ => .error (.laterKb root.named)
  | _ => .error (.laterKb root.named)

end Store

/-! ## Files written, databases made -/

/-- A step that reads nothing of the disk and changes nothing on it, and may fail. -/
def passing : Doing Unit := step fun _ d => .ok ((), d)

namespace Held

def push (c : Char) : Held → Held
  | .text s => .text (s.push c)
  | held => held

def withTables (t : Tables) : Held → Held := fun _ => .database (some t)

end Held

/-- What a step raises that the disk does not allow. -/
def notDone (p : Path) : Failure := .system ("OSError: " ++ Store.shown p)

def appending (p : Path) : List Char → Doing Unit
  | [] => give ()
  | c :: rest =>
      Files.doing (notDone p) (fun d => d.change p (Held.push c)) >>= fun _ => appending p rest

/-- `write_text`: the file made, or emptied, its text put in it, and the file closed. -/
def writeText (p : Path) (text : String) : Doing Unit := do
  Files.doing (notDone p) fun d => d.put p (.file (.text ""))
  appending p text.toList
  passing

namespace SqliteStore

def supported (M : Machine) : Doing Unit :=
  step fun _ d => match M.lacking with
    | some lacking => .error (.unreadable lacking)
    | none => .ok ((), d)

/-- `sqlite_store.make`: a database made where nothing is, its schema in one transaction, then WAL
mode set. -/
def make (M : Machine) (p : Path) : Doing Unit := do
  supported M
  Files.doing (notDone p) fun d => d.create p (.database none)
  Files.doing (notDone p) fun d => d.change p (Held.withTables {})
  passing

/-- The database at a path opened, and one transaction made on it. -/
def opened {α : Type} (M : Machine) (p : Path) (act : Tables → Raises (α × Tables)) : Doing α := do
  supported M
  step fun _ d => match d.look p with
    | some (.file (.database (some t))) => match M.raising (act t) with
        | .error e => .error e
        | .ok (a, t') => match d.change p (Held.withTables t') with
            | some d => .ok (a, d)
            | none => .error (notDone p)
    | _ => .error (.unreadable (Store.shown p))

end SqliteStore

namespace Store

/-- `store.start`: the store's place made, its database made and filled, then its marker, last; the
place taken away where that fails. -/
def start (M : Machine) (root : Path) (made : Path → Doing Unit)
    (fill : Tables → Raises (Unit × Tables)) : Doing Unit := do
  SqliteStore.supported M
  Files.doing (notDone (root ++ [KB])) fun d => d.mkdir (root ++ [KB])
  catching (do
      made (root ++ DATABASE)
      SqliteStore.opened M (root ++ DATABASE) fill
      let text ← of
        (M.raising ((M.outside.dump (marking STORE_FORM)).mapError fun (problem, place) =>
        .notCanonical problem place))
      writeText (root ++ MARKER) text)
    fun e => if e.storage then do
        Files.rmtree (notDone (root ++ [KB])) (root ++ [KB])
        throw e
      else throw e

end Store

/-! ## A store started -/

namespace Start

/-- `signatures.starter`, the role and the piece of work text. -/
def starter (role : String) : Except Failure Unit :=
  if role = ""
    then .error (.refused (Failure.fault Rules.ACTOR "a store can only be started under a role"))
    else .ok ()

/-- What a new store is filled with. -/
def filling (O : Outside) (role execution : String) (moment : Int) (digest : String) (t : Tables) :
    Raises (Unit × Tables) :=
  (Landing.landed t [created O] [entry role execution digest moment]).map fun t => ((), t)

/-- `write.start`, the moment of the store's start read from the clock first. -/
def start (M : Machine) (root : Root) (role execution : String) (moment : Int) : Doing Unit := do
  passing
  Store.vacant M root "started"
  let digest ← of (M.raising (Journal.digest M.outside METASCHEMA))
  Store.start M root.path (SqliteStore.make M) (filling M.outside role execution moment digest)

end Start

namespace Starting

/-- A part of a start run inside the one boundary: whatever exception it raises refuses the
start. -/
def prepared {α : Type} (x : Doing α) : Doing α :=
  catching x fun e => if e.caught then throw (.notStarted e.faults) else throw e

/-- `starting.init`. -/
def init (M : Machine) (root : Root) (role execution : String) (moment : Int) : Doing Unit :=
  prepared (do
    of (Start.starter role)
    Start.start M root role execution moment)

/-- What `starting.refused` refuses a root for, raised. -/
def vacant (M : Machine) (root : Root) (verb : String) : Doing Unit :=
  prepared (Store.vacant M root verb)

end Starting

end Kb
