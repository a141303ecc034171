/-
# `Kb.Places` — places inside an artifact, and the names of its items

`places.py` and `item_names.py`: a place is pairs of a collection and the name of an item in it,
which may end in a field; a place is resolved to where its node stands.  An item's name is given
once, from its title or its place, and refused where a create or a revision carries one it may not.
-/
import Kb.Settled

namespace Kb

/-! ## Item names -/

namespace ItemNames

/-- A title as the text a name is made from; nothing for what a title is never written as. -/
def title : Option Value → Option String
  | some (.scalar (.bool b)) => some (if b then "true" else "false")
  | some (.scalar (.text t)) => some t
  | some (.scalar (.int n)) => some (toString n)
  | some (.scalar (.float w)) => some w
  | _ => none

/-- What lower case makes of a character, so far as a name reads it: the two characters outside
ASCII whose lower case holds a letter of it are `K` (the Kelvin sign) and `İ`. -/
def lowered (c : Char) : List Char :=
  if c = '\u212A' then ['k'] else if c = '\u0130' then ['i', '\u0307'] else [c.toLower]

/-- The runs of letters and digits of a text, anything else between them. -/
def runs : List Char → List (List Char)
  | [] => [[]]
  | c :: cs =>
      if Names.plainChar c then
        match runs cs with
        | run :: rest => (c :: run) :: rest
        | [] => [[c]]
      else [] :: runs cs

/-- The name a title gives: lower-cased, every run of anything else a hyphen, none at either end. -/
def slug (title : String) : String :=
  String.ofList (['-'].intercalate ((runs (title.toList.flatMap lowered)).filter (· ≠ [])))

/-- The first of a name and that name numbered from 2 on that is not taken, looking no further than
`fuel`. -/
def firstFree (name : String) (taken : List Value) : Nat → Nat → String
  | 0, number => name ++ "-" ++ toString number
  | fuel + 1, number =>
      let candidate := name ++ "-" ++ toString number
      if taken.contains (.text candidate) then firstFree name taken fuel (number + 1) else candidate

/-- The name, or, when it is taken, that name with -2, -3 and so on: the first that is not. -/
def numbered (name : String) (taken : List Value) : String :=
  if taken.contains (.text name) then firstFree name taken taken.length 2 else name

/-- The items of a collection a node holds; none when it holds none, or a value that is not a
list. -/
def listed (node : Dict) (collection : Scalar) : List Value :=
  match Assoc.get node collection with
  | some (.list vs) => vs
  | _ => []

/-- The names the items of a collection carry. -/
def carried (items : List Value) : List Value :=
  items.filterMap fun
    | .map es => Dict.get? es "id"
    | _ => none

/-- An item given a name, when it carries none: from its title, else from its place, counted from
1. -/
def named (es : Dict) (place : Nat) (taken : List Value) : Dict × List Value :=
  match Dict.get? es "id" with
  | some _ => (es, taken)
  | none =>
      let base := match title (Dict.get? es "title") with
        | some text => slug text
        | none => toString place
      let name := numbered base taken
      (Dict.set es "id" (.text name), taken ++ [.text name])

/-- The items of one collection named, in order, `each` naming those inside an item. -/
def itemsIn (each : Dict → Raises Dict) : List Value → Nat → List Value → Raises (List Value)
  | [], _, _ => .ok []
  | .map es :: rest, place, taken => do
      let (es, taken) := named es place taken
      let inside ← each es
      .ok (.map inside :: (← itemsIn each rest (place + 1) taken))
  | v :: rest, place, taken => do .ok (v :: (← itemsIn each rest (place + 1) taken))

/-- Every item of every collection a node holds given its name, at every depth; those carrying one
keep it. `inner` gives the collections an item's type declares from the declaration of the
collection it is in. -/
def items (inner : Value → Raises Dict) : Nat → Dict → Dict → Raises Dict
  | 0, _, _ => .error .tooDeep
  | depth + 1, parts, node =>
      parts.foldlM (fun node part =>
        match Assoc.get node part.1 with
        | some (.list vs) => do
            let vs ← itemsIn (fun es => do items inner depth (← inner part.2) es) vs 1 (carried vs)
            .ok (Assoc.set node part.1 (.list vs))
        | _ => .ok node) node

/-- Why an item may not carry a name. -/
inductive Why where
  | notPlain | repeated | unknown
deriving DecidableEq

/-- A name an item may not carry: the place of its collection, where in it the item stands, the
name. -/
structure Misnamed where
  collection : String
  index : Nat
  name : Value
  why : Why
deriving DecidableEq

/-- Why a name given cannot be an item's, if it cannot, and the names seen after it. -/
def unfit (collection : String) (index : Nat) (name : Value) (seen : List String) :
    List Misnamed × List String :=
  match name with
  | .scalar (.text t) =>
      if !Names.plain t then ([⟨collection, index, name, .notPlain⟩], seen)
      else if seen.contains t then ([⟨collection, index, name, .repeated⟩], seen)
      else ([], seen ++ [t])
  | _ => ([⟨collection, index, name, .notPlain⟩], seen)

/-- The names in one collection that an item may not be given; `each` finds those inside an item. -/
def givenIn (here : String) (each : Nat → Dict → Raises (List Misnamed)) :
    List Value → Nat → List String → Raises (List Misnamed)
  | [], _, _ => .ok []
  | .map es :: rest, index, seen => do
      let (own, seen) := match Dict.get? es "id" with
        | some name => unfit here index name seen
        | none => ([], seen)
      let inside ← each index es
      .ok (own ++ inside ++ (← givenIn here each rest (index + 1) seen))
  | _ :: rest, index, seen => givenIn here each rest (index + 1) seen

/-- Every name a new artifact's items carry that an item may not be given, at every depth. -/
def given (inner : Value → Raises Dict) : Nat → Dict → Dict → List String → Raises (List Misnamed)
  | 0, _, _, _ => .error .tooDeep
  | depth + 1, parts, node, under => do
      let found ← parts.mapM fun part =>
        let here := under ++ [part.1.str]
        givenIn (Names.placed here)
          (fun index es => do given inner depth (← inner part.2) es (here ++ [toString index]))
          (listed node part.1) 0 []
      .ok found.flatten

/-- The items of a collection as it was held, by the names they carry; the last of a name is the one
kept. -/
def had (before : Dict) (collection : Scalar) (name : String) : Option Dict :=
  (listed before collection).foldl (fun found v => match v with
    | .map es => if Dict.get? es "id" = some (.text name) then some es else found
    | _ => found) none

/-- The names in one collection of a revision that its items may not carry. -/
def handedBackIn (here : String) (had : String → Option Dict)
    (each : Nat → Dict → Dict → Raises (List Misnamed)) :
    List Value → Nat → List String → Raises (List Misnamed)
  | [], _, _ => .ok []
  | .map es :: rest, index, seen => do
      let id := Dict.get? es "id"
      let (own, seen) := match id with
        | none => ([], seen)
        | some name => match unfit here index name seen with
            | ([], seen) =>
                let known := match name with
                  | .scalar (.text t) => (had t).isSome
                  | _ => false
                ((if known then [] else [Misnamed.mk here index name .unknown]), seen)
            | found => found
      let was := match id with
        | some (.scalar (.text t)) => (had t).getD []
        | _ => []
      let inside ← each index es was
      .ok (own ++ inside ++ (← handedBackIn here had each rest (index + 1) seen))
  | _ :: rest, index, seen => handedBackIn here had each rest (index + 1) seen

/-- Every name a revision's items carry that the store could not have given, at every depth;
`before` is the node as it was held. -/
def handedBack (inner : Value → Raises Dict) :
    Nat → Dict → Dict → Dict → List String → Raises (List Misnamed)
  | 0, _, _, _, _ => .error .tooDeep
  | depth + 1, parts, node, before, under => do
      let found ← parts.mapM fun part =>
        let here := Names.placed (under ++ [part.1.str])
        handedBackIn here (had before part.1)
          (fun index es was => do
            handedBack inner depth (← inner part.2) es was [here, toString index])
          (listed node part.1) 0 []
      .ok found.flatten

end ItemNames

/-! ## Places -/

namespace Places

/-- Where a place's node stands: an entry of what the steps lead to, or an item of a collection
there. -/
inductive Spot where
  | entry (path : List (String × Nat)) (key : String)
  | item (path : List (String × Nat)) (collection : String) (index : Nat)
deriving DecidableEq

def Spot.under (step : String × Nat) : Spot → Spot
  | .entry path key => .entry (step :: path) key
  | .item path collection index => .item (step :: path) collection index

/-- Whether a place names an item so: a section by its title's name, a part by its id. -/
def isNamed (collection name : String) (es : Dict) : Bool :=
  if collection = "sections" then
    match Dict.get? es "title" with
    | some (.scalar (.text t)) => ItemNames.slug t = name
    | _ => false
  else Dict.get? es "id" = some (.text name)

/-- Where the first item of a name stands in a collection, and the item. -/
def find (collection name : String) : List Value → Nat → Option (Nat × Dict)
  | [], _ => none
  | .map es :: rest, index =>
      if isNamed collection name es then some (index, es) else find collection name rest (index + 1)
  | _ :: rest, index => find collection name rest (index + 1)

/-- Where a place stands in the content, step by step, or nothing when a step names nothing
there. -/
def walk (holder : Dict) : List String → Option Spot
  | [] => none
  | [key] => some (.entry [] key)
  | collection :: name :: rest =>
      match Dict.get? holder collection with
      | some (.list vs) =>
          match find collection name vs 0 with
          | none => none
          | some (index, es) =>
              if rest.isEmpty then some (.item [] collection index)
              else (walk es rest).map (Spot.under (collection, index))
      | _ => none

/-- The steps of a place that name collections. -/
def collections : List String → List String
  | [] => []
  | [collection] => [collection]
  | collection :: _ :: rest => collection :: collections rest

/-- Whether a place names a part the content holds: an item of a collection, named by its id, at any
depth; never a section, and never a field. -/
def holdsPart (content : Dict) (place : List String) : Bool :=
  place.length % 2 = 0 && !(collections place).contains "sections" && (walk content place).isSome

mutual
/-- The place of every part the content holds, at every depth, written as a link names it. -/
def parts : List (Scalar × Value) → List String
  | [] => []
  | (.text collection, .list vs) :: es =>
      (if collection = "sections" then [] else partsIn collection vs) ++ parts es
  | _ :: es => parts es
def partsIn (collection : String) : List Value → List String
  | [] => []
  | .map es :: vs =>
      (match Dict.get? es "id" with
        | some (.scalar (.text name)) =>
            let place := Names.placed [collection, name]
            place :: (parts es).map fun inner => Names.placed [place, inner]
        | _ => []) ++ partsIn collection vs
  | _ :: vs => partsIn collection vs
end

/-- The content with what the steps lead to changed. -/
def changeAt (change : Dict → Dict) : List (String × Nat) → Dict → Dict
  | [], d => change d
  | (collection, index) :: path, d =>
      match Dict.get? d collection with
      | some (.list vs) => match vs[index]? with
          | some (.map es) =>
              Dict.set d collection (.list (vs.set index (.map (changeAt change path es))))
          | _ => d
      | _ => d

/-- What the steps lead to. -/
def holderAt : List (String × Nat) → Dict → Dict
  | [], d => d
  | (collection, index) :: path, d =>
      match Dict.get? d collection with
      | some (.list vs) => match vs[index]? with
          | some (.map es) => holderAt path es
          | _ => []
      | _ => []

end Places

end Kb
