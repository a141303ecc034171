/-
# `Kb.Canonical` — the one reading of YAML

`check`, `load` and `entries` of `canonical.py`, over what a YAML parser gives: tokens, events and
the tree of nodes it composes, each scalar with its text as written, where an escape may stand for
half of a character.  The parser and what makes values of nodes are outside the repository: here
they are any functions that raise nothing but their own error.

A check of plain reading ends, or says what is not plain, unless a mapping has a key that is a list
or a mapping, or a directive comes without a value (`canonical_reads`).  It tells keys apart as they
are written; keys written apart that read alike pass it.
-/
import Kb.Lib.Raising
import Kb.Value

namespace Kb.Canonical

open Raising

/-! ## What a YAML parser gives -/

/-- A code point of text as Python keeps it: a character, or one of the two halves of one. -/
inductive Point where
  | char (c : Char)
  | upper (n : Fin 1024)
  | lower (n : Fin 1024)
deriving DecidableEq

/-- A node of the tree a parser composes, with the line it starts at; a scalar with its tag, as
resolved, and its text. -/
inductive Node where
  | scalar (tag : String) (value : List Point) (line : Nat)
  | sequence (items : List Node) (line : Nat)
  | mapping (entries : List (Node × Node)) (line : Nat)

/-- A token, so far as it is asked which it is: a directive's value is none for a name YAML
reserves. -/
inductive Token where
  | streamStart
  | directive (name : String) (value : Option (List String)) (line : Nat)
  | other

/-- An event, so far as it is asked what it carries. -/
structure Event where
  tagged : Bool := false
  anchored : Bool := false
  startsDocument : Bool := false

/-- The parser's own error: its problem, what it is shown as, the line of its mark. -/
structure YAMLError where
  problem : Option String := none
  shown : String
  line : Option Nat := none

/-- A node with its scalars' halves joined, as values are made of it. -/
inductive Joined where
  | scalar (tag : String) (text : List Char)
  | sequence (items : List Joined)
  | mapping (entries : List (Joined × Joined))

/-- A parser: the tokens it scans, until an error if there is one; the events it parses; the tree it
composes, none of an empty text; what it makes of a tree; the value a scalar that is a key reads as;
and how a key that is no scalar is shown. -/
structure Parser where
  scan : String → List Token × Option YAMLError
  parse : String → Except YAMLError (List Event)
  compose : String → Except YAMLError (Option Node)
  construct : Option Joined → Except YAMLError Value
  key : String → List Char → Scalar
  shown : Node → String

/-! ## Plain reading -/

/-- What a reading raises: `NotCanonical`, with its message and its place; `TypeError`,
`UnicodeDecodeError`; or the parser's own error. -/
inductive Problem where
  | notCanonical (message place : String)
  | misshapen
  | undecodable
  | yaml (error : YAMLError)

variable (P : Parser)

def unreadable (e : YAMLError) : Problem :=
  .notCanonical ("it is not YAML that can be read: " ++ (e.problem.filter (· ≠ "")).getD e.shown
    ++ (e.line.map fun line => " at line " ++ toString (line + 1)).getD "") ""

/-- Two halves of a character as that character. -/
def joinedHalves (upper lower : Fin 1024) : Char := Char.ofNat (0x10000 + upper * 1024 + lower)

/-- Text with each pair of halves as one character, nothing where a half stands alone. -/
def joined : List Point → Option (List Char)
  | [] => some []
  | .char c :: rest => (joined rest).map (c :: ·)
  | .upper u :: .lower l :: rest => (joined rest).map (joinedHalves u l :: ·)
  | .upper _ :: _ => none
  | .lower _ :: _ => none

/-- A half of a character as its escape, any other as itself. -/
def escaped : Point → List Char
  | .char c => [c]
  | .upper n => '\\' :: 'u' :: Nat.toDigits 16 (0xd800 + n)
  | .lower n => '\\' :: 'u' :: Nat.toDigits 16 (0xdc00 + n)

/-- A key as a place names it. -/
def label : Node → String
  | .scalar _ value _ => String.ofList ((joined value).getD (value.flatMap escaped))
  | node => P.shown node

def namedAgain (key : String) (line : Nat) (place : List String) : Problem :=
  .notCanonical ("an entry is named once and only once; " ++ quoted key ++
    " is named again at line " ++ toString (line + 1))
    ("/".intercalate (place ++ [key]))

mutual
/-- Every entry of every mapping is named once and only once. -/
def namedOnce : Node → List String → Except Problem Unit
  | .mapping entries _, place => namedEntries entries [] place
  | .sequence items _, place => namedItems items 0 place
  | .scalar _ _ _, _ => .ok ()
/-- The entries of a mapping, past the keys seen: a key that is a list or a mapping cannot be looked
for among them. -/
def namedEntries : List (Node × Node) → List (List Point) → List String → Except Problem Unit
  | [], _, _ => .ok ()
  | (.scalar tag text line, value) :: entries, seen, place =>
      if text ∈ seen then .error (namedAgain (label P (.scalar tag text line)) line place) else do
        namedOnce value (place ++ [label P (.scalar tag text line)])
        namedEntries entries (text :: seen) place
  | (.sequence _ _, _) :: _, _, _ => .error .misshapen
  | (.mapping _ _, _) :: _, _, _ => .error .misshapen
def namedItems : List Node → Nat → List String → Except Problem Unit
  | [], _, _ => .ok ()
  | item :: items, index, place => do
      namedOnce item (place ++ [toString index])
      namedItems items (index + 1) place
end

def halfAlone (place : List String) : Problem :=
  .notCanonical
    "it is not YAML that can be read: it holds an escape for half of a character, which no text can hold"
    ("/".intercalate place)

mutual
/-- Every scalar is text once each pair of halves is read as one character. -/
def heldAsText : Node → List String → Except Problem Unit
  | .scalar _ text _, place => if (joined text).isSome then .ok () else .error (halfAlone place)
  | .mapping entries _, place => heldEntries entries place
  | .sequence items _, place => heldItems items 0 place
def heldEntries : List (Node × Node) → List String → Except Problem Unit
  | [], _ => .ok ()
  | (key, value) :: entries, place => do
      heldAsText key place
      heldAsText value (place ++ [label P key])
      heldEntries entries place
def heldItems : List Node → Nat → List String → Except Problem Unit
  | [], _, _ => .ok ()
  | item :: items, index, place => do
      heldAsText item (place ++ [toString index])
      heldItems items (index + 1) place
end

/-- Content opens with no directive: refused before anything reads past it, and what a directive
declares is said. -/
def noDirective : List Token → Option YAMLError → Except Problem Unit
  | [], none => .ok ()
  | [], some e => .error (unreadable e)
  | .streamStart :: tokens, e => noDirective tokens e
  | .directive _ none _ :: _, _ => .error .misshapen
  | .directive name (some value) line :: _, _ =>
      .error (.notCanonical
        ("content is read plainly as written and opens with no declaration of its format; line "
        ++ toString (line + 1) ++ " declares %" ++ name ++ " " ++ (if name = "YAML" then "."
          else " ").intercalate value) "")
  | .other :: _, _ => .ok ()

/-- The events of content that is one document with no tag and nothing that stands for a value
written elsewhere. -/
def plainEvents (text : String) : Except Problem Unit :=
  match P.parse text with
  | .error e => .error (unreadable e)
  | .ok events =>
      if events.any Event.tagged
        then .error (.notCanonical "content is read plainly as written and carries no tags" "")
      else if events.any Event.anchored then
        .error (.notCanonical
          "content is read exactly as written and nothing in it stands in for a value written somewhere else" "")
      else if 1 < events.countP Event.startsDocument
        then .error (.notCanonical "content holds exactly one document" "")
      else .ok ()

/-- What is checked of the tree a text is composed to. -/
def checkedTree : Except YAMLError (Option Node) → Except Problem Unit
  | .error e => .error (.yaml e)
  | .ok none => .ok ()
  | .ok (some node) => do
      namedOnce P node []
      heldAsText P node []

/-- The one check of plain reading. -/
def check (text : String) : Except Problem Unit := do
  noDirective (P.scan text).1 (P.scan text).2
  plainEvents P text
  checkedTree P (P.compose text)

mutual
/-- A tree with each scalar's halves joined. -/
def joinedTree : Node → Except Problem Joined
  | .scalar tag text _ => match joined text with
      | some cs => .ok (.scalar tag cs)
      | none => .error .undecodable
  | .sequence items _ => do .ok (.sequence (← joinedItems items))
  | .mapping entries _ => do .ok (.mapping (← joinedEntries entries))
def joinedItems : List Node → Except Problem (List Joined)
  | [] => .ok []
  | item :: items => do .ok ((← joinedTree item) :: (← joinedItems items))
def joinedEntries : List (Node × Node) → Except Problem (List (Joined × Joined))
  | [] => .ok []
  | (key, value) :: entries =>
      do .ok ((← joinedTree key, ← joinedTree value) :: (← joinedEntries entries))
end

def constructed (tree : Option Joined) : Except Problem Value :=
  match P.construct tree with
  | .error e => .error (unreadable e)
  | .ok v => .ok v

/-- What is read of the tree a text is composed to. -/
def loadedTree : Except YAMLError (Option Node) → Except Problem Value
  | .error e => .error (unreadable e)
  | .ok none => constructed P none
  | .ok (some node) => do constructed P (some (← joinedTree node))

/-- Plain YAML, checked, then read. -/
def load (text : String) : Except Problem Value := do
  check P text
  loadedTree P (P.compose text)

def shape : Value → String
  | .scalar .null => "nothing at all"
  | .list _ => "a list"
  | v => "the single value " ++ v.repr

/-- Plain YAML that is a set of named entries. -/
def entries (text : String) : Except Problem Dict := do
  match ← load P text with
  | .map es => .ok es
  | v => .error (.notCanonical ("content is a set of named entries; this is " ++ shape v) "")

/-! ## Keys named again, and keys that are no scalars -/

/-- What a mapping's keys are met with, in the order they are read: one that is a list or a mapping,
or one named again. -/
inductive Met where
  | composite
  | again
deriving DecidableEq

mutual
/-- What is met in a tree, in the order it is read. -/
def met : Node → List Met
  | .mapping entries _ => metEntries entries []
  | .sequence items _ => metItems items
  | .scalar _ _ _ => []
def metEntries : List (Node × Node) → List (List Point) → List Met
  | [], _ => []
  | (.scalar _ text _, value) :: entries, seen =>
      (if text ∈ seen then [.again] else []) ++ (met value ++ metEntries entries (text :: seen))
  | (.sequence _ _, value) :: entries, seen => .composite :: (met value ++ metEntries entries seen)
  | (.mapping _ _, value) :: entries, seen => .composite :: (met value ++ metEntries entries seen)
def metItems : List Node → List Met
  | [] => []
  | item :: items => met item ++ metItems items
end

/-- What a check that stops at what it meets first comes to. -/
inductive Stops : List Met → Except Problem Unit → Prop
  | plain : Stops [] (.ok ())
  | composite (rest : List Met) : Stops (.composite :: rest) (.error .misshapen)
  | again (rest : List Met) (message place : String) :
      Stops (.again :: rest) (.error (.notCanonical message place))

theorem Stops.bind {ms ns : List Met} {x y : Except Problem Unit} (hx : Stops ms x)
    (hy : Stops ns y) :
    Stops (ms ++ ns) (x >>= fun _ => y) := by
  cases hx with
  | plain => exact hy
  | composite rest => exact .composite _
  | again rest message place => exact .again _ _ _

mutual
/-- The entries are each named once just when nothing is met; else the check stops at what is met
first. -/
theorem namedOnce_stops (node : Node) (place : List String) :
    Stops (met node) (namedOnce P node place) := by
  cases node with
  | scalar tag text line => exact .plain
  | sequence items line => exact namedItems_stops items 0 place
  | mapping entries line => exact namedEntries_stops entries [] place
theorem namedEntries_stops (entries : List (Node × Node)) (seen : List (List Point))
    (place : List String) :
    Stops (metEntries entries seen) (namedEntries P entries seen place) := by
  cases entries with
  | nil => exact .plain
  | cons entry entries =>
      obtain ⟨key, value⟩ := entry
      cases key with
      | scalar tag text line =>
          rw [metEntries, namedEntries]
          split_ifs
          · exact .again _ _ _
          · exact (namedOnce_stops value _).bind (namedEntries_stops entries _ place)
      | sequence items line => exact .composite _
      | mapping entries line => exact .composite _
theorem namedItems_stops (items : List Node) (index : Nat) (place : List String) :
    Stops (metItems items) (namedItems P items index place) := by
  cases items with
  | nil => exact .plain
  | cons item items => exact (namedOnce_stops item _).bind (namedItems_stops items _ place)
end

/-! ## Halves of characters -/

mutual
/-- A tree held as text is read with its halves joined. -/
theorem joinedTree_returns (node : Node) (place : List String)
    (h : heldAsText P node place = .ok ()) :
    ∃ tree, joinedTree node = .ok tree := by
  cases node with
  | scalar tag text line =>
      cases hjoined : joined text with
      | none =>
          rw [heldAsText, hjoined] at h
          cases h
      | some cs =>
          rw [joinedTree, hjoined]
          exact ⟨_, rfl⟩
  | sequence items line =>
      obtain ⟨found, hfound⟩ := joinedItems_returns items 0 place h
      exact ⟨.sequence found, bind_ok.mpr ⟨found, hfound, rfl⟩⟩
  | mapping entries line =>
      obtain ⟨found, hfound⟩ := joinedEntries_returns entries place h
      exact ⟨.mapping found, bind_ok.mpr ⟨found, hfound, rfl⟩⟩
theorem joinedItems_returns (items : List Node) (index : Nat) (place : List String)
    (h : heldItems P items index place = .ok ()) :
    ∃ found, joinedItems items = .ok found := by
  cases items with
  | nil => exact ⟨[], rfl⟩
  | cons item items =>
      obtain ⟨_, hitem, h⟩ := bind_ok.mp h
      obtain ⟨tree, htree⟩ := joinedTree_returns item _ hitem
      obtain ⟨found, hfound⟩ := joinedItems_returns items _ place h
      exact ⟨tree :: found, bind_ok.mpr ⟨tree, htree, bind_ok.mpr ⟨found, hfound, rfl⟩⟩⟩
theorem joinedEntries_returns (entries : List (Node × Node)) (place : List String)
    (h : heldEntries P entries place = .ok ()) :
    ∃ found, joinedEntries entries = .ok found := by
  cases entries with
  | nil => exact ⟨[], rfl⟩
  | cons entry entries =>
      obtain ⟨key, value⟩ := entry
      obtain ⟨_, hkey, h⟩ := bind_ok.mp h
      obtain ⟨_, hvalue, h⟩ := bind_ok.mp h
      obtain ⟨k, hk⟩ := joinedTree_returns key _ hkey
      obtain ⟨v, hv⟩ := joinedTree_returns value _ hvalue
      obtain ⟨found, hfound⟩ := joinedEntries_returns entries place h
      exact ⟨(k, v) :: found,
        bind_ok.mpr ⟨k, hk, bind_ok.mpr ⟨v, hv, bind_ok.mpr ⟨found, hfound, rfl⟩⟩⟩⟩
end

/-! ## What is raised -/

def IsNotCanonical (e : Problem) : Prop := ∃ message place, e = .notCanonical message place

theorem unreadable_notCanonical (e : YAMLError) : IsNotCanonical (unreadable e) := ⟨_, _, rfl⟩

mutual
theorem heldAsText_raises (node : Node) (place : List String) :
    Only IsNotCanonical (heldAsText P node place) := by
  cases node with
  | scalar tag text line =>
      rw [heldAsText]
      split_ifs
      · exact .ok _
      · exact .error ⟨_, _, rfl⟩
  | sequence items line => exact heldItems_raises items 0 place
  | mapping entries line => exact heldEntries_raises entries place
theorem heldItems_raises (items : List Node) (index : Nat) (place : List String) :
    Only IsNotCanonical (heldItems P items index place) := by
  cases items with
  | nil => exact .ok _
  | cons item items =>
      exact (heldAsText_raises item _).bind fun _ _ => heldItems_raises items _ place
theorem heldEntries_raises (entries : List (Node × Node)) (place : List String) :
    Only IsNotCanonical (heldEntries P entries place) := by
  cases entries with
  | nil => exact .ok _
  | cons entry entries =>
      obtain ⟨key, value⟩ := entry
      exact (heldAsText_raises key _).bind fun _ _ => (heldAsText_raises value _).bind fun _ _ =>
        heldEntries_raises entries place
end

theorem plainEvents_raises (text : String) : Only IsNotCanonical (plainEvents P text) := by
  rw [plainEvents]
  cases P.parse text with
  | error e => exact .error (unreadable_notCanonical e)
  | ok events =>
      show Only IsNotCanonical (if _ then _ else if _ then _ else if _ then _ else _)
      split_ifs
      · exact .error ⟨_, _, rfl⟩
      · exact .error ⟨_, _, rfl⟩
      · exact .error ⟨_, _, rfl⟩
      · exact .ok _

/-- The directive a text opens with comes without a value. -/
def Reserved : List Token → Prop
  | .streamStart :: tokens => Reserved tokens
  | .directive _ none _ :: _ => True
  | _ => False

theorem noDirective_raises (tokens : List Token) (e : Option YAMLError) :
    Only IsNotCanonical (noDirective tokens e) ↔ ¬ Reserved tokens := by
  induction tokens with
  | nil =>
      refine ⟨fun _ h => h, fun _ => ?_⟩
      cases e with
      | none => exact .ok _
      | some e => exact .error (unreadable_notCanonical e)
  | cons token tokens ih =>
      cases token with
      | streamStart => exact ih
      | other => exact ⟨fun _ h => h, fun _ => .ok _⟩
      | directive name value line =>
          cases value with
          | none =>
              refine ⟨fun h => ?_, fun h => absurd trivial h⟩
              obtain ⟨_, _, h⟩ := h _ rfl
              cases h
          | some value => exact ⟨fun _ h => h, fun _ => .error ⟨_, _, rfl⟩⟩

/-! ## Keys that read alike -/

/-- A node and those inside it. -/
inductive Inside : Node → Node → Prop
  | self (node : Node) : Inside node node
  | item {items : List Node} {line : Nat} {item node : Node} : item ∈ items → Inside item node →
      Inside (.sequence items line) node
  | key {entries : List (Node × Node)} {line : Nat} {e : Node × Node} {node : Node} : e ∈ entries →
      Inside e.1 node →
      Inside (.mapping entries line) node
  | value {entries : List (Node × Node)} {line : Nat} {e : Node × Node} {node : Node} :
      e ∈ entries → Inside e.2 node →
      Inside (.mapping entries line) node

/-- Two keys that are written differently. -/
inductive WrittenApart : Node → Node → Prop
  | scalars {tag tag' : String} {text text' : List Point} {line line' : Nat} : text ≠ text' →
      WrittenApart (.scalar tag text line) (.scalar tag' text' line')

/-- Two keys that read as the same value. -/
inductive Alike : Node → Node → Prop
  | scalars {tag tag' : String} {text text' : List Point} {line line' : Nat} {cs cs' : List Char} :
      joined text = some cs →
      joined text' = some cs' → (P.key tag cs).equals (P.key tag' cs') = true →
      Alike (.scalar tag text line) (.scalar tag' text' line')

/-- Whether in every mapping at every depth no two entries' keys read as the same value. -/
def Distinct (node : Node) : Prop :=
  ∀ entries line, Inside node (.mapping entries line) → entries.Pairwise fun e e' =>
    ¬ Alike P e.1 e'.1

/-- Whether in every mapping at every depth keys that are written differently read as different
values. -/
def Apart (node : Node) : Prop :=
  ∀ entries line, Inside node (.mapping entries line) → entries.Pairwise fun e e' =>
    WrittenApart e.1 e'.1 → ¬ Alike P e.1 e'.1

/-- Where nothing is met in a mapping's entries, their keys are scalars, written apart from those
seen and from each other. -/
theorem metEntries_nil {entries : List (Node × Node)} {seen : List (List Point)}
    (h : metEntries entries seen = []) :
    (∀ e ∈ entries, (∃ tag text line, e.1 = .scalar tag text line ∧ text ∉ seen) ∧ met e.2 = []) ∧
      entries.Pairwise fun e e' => WrittenApart e.1 e'.1 := by
  induction entries generalizing seen with
  | nil => exact ⟨fun e he => absurd he List.not_mem_nil, .nil⟩
  | cons entry entries ih =>
      obtain ⟨key, value⟩ := entry
      cases key with
      | sequence items line => cases h
      | mapping es line => cases h
      | scalar tag text line =>
          rw [metEntries, List.append_eq_nil_iff, List.append_eq_nil_iff] at h
          obtain ⟨hnew, hvalue, hrest⟩ := h
          obtain ⟨hscalars, hpairwise⟩ := ih hrest
          have hnew : text ∉ seen := by
            intro hmem
            rw [if_pos hmem] at hnew
            cases hnew
          refine ⟨?_, List.pairwise_cons.mpr ⟨?_, hpairwise⟩⟩
          · intro e he
            rcases List.mem_cons.mp he with rfl | he
            · exact ⟨⟨tag, text, line, rfl, hnew⟩, hvalue⟩
            · obtain ⟨⟨tag', text', line', hkey, hseen⟩, hmet⟩ := hscalars e he
              exact ⟨⟨tag', text', line', hkey, fun hmem => hseen (List.mem_cons_of_mem _ hmem)⟩,
                hmet⟩
          · intro e he
            obtain ⟨⟨tag', text', line', hkey, hseen⟩, _⟩ := hscalars e he
            rw [hkey]
            refine .scalars ?_
            rintro rfl
            exact hseen List.mem_cons_self

theorem metItems_nil {items : List Node} (h : metItems items = []) :
    ∀ item ∈ items, met item = [] := by
  induction items with
  | nil => exact fun item hitem => absurd hitem List.not_mem_nil
  | cons item items ih =>
      obtain ⟨hfirst, hrest⟩ := List.append_eq_nil_iff.mp h
      intro other hother
      rcases List.mem_cons.mp hother with rfl | hother
      · exact hfirst
      · exact ih hrest other hother

/-- Where nothing is met, the keys of every mapping are written apart. -/
theorem writtenApart_of_met {node inner : Node} (h : met node = []) (hinside : Inside node inner) :
    met inner = [] := by
  induction hinside with
  | self _ => exact h
  | item hitem _ ih => exact ih (metItems_nil h _ hitem)
  | key he _ ih =>
      obtain ⟨⟨tag, text, line, hkey, _⟩, _⟩ := (metEntries_nil h).1 _ he
      refine ih ?_
      rw [hkey]
      rfl
  | value he _ ih => exact ih ((metEntries_nil h).1 _ he).2

theorem distinct_iff {node : Node} (h : met node = []) : Distinct P node ↔ Apart P node := by
  constructor
  · intro hdistinct es line hinside
    exact (hdistinct es line hinside).imp fun {e e'} hnot (_ : WrittenApart e.1 e'.1) => hnot
  · intro hapart es line hinside
    have hwritten := (metEntries_nil (writtenApart_of_met h hinside)).2
    exact hwritten.imp₂ (fun _ _ hw hnot => hnot hw) (hapart es line hinside)

/-! ## The reading is total -/

/-- What the code relies on of the parser: content it parses as one document with no anchor is
composed to a tree. -/
def Composes : Prop :=
  ∀ text events, P.parse text = .ok events → events.any Event.anchored = false →
    events.countP Event.startsDocument ≤ 1 →
    ∃ tree, P.compose text = .ok tree

/-- Whether a text is composed: it opens with no directive, and its events are plain. -/
def Opened (text : String) : Prop :=
  noDirective (P.scan text).1 (P.scan text).2 = .ok () ∧ plainEvents P text = .ok ()

/-- A text checked and read: each ends or says what is not canonical, and of a text that passes no
two keys of a mapping read alike. -/
structure Total (text : String) : Prop where
  checked : Only IsNotCanonical (check P text)
  loaded : Only IsNotCanonical (load P text)
  named : Only IsNotCanonical (entries P text)
  distinct : check P text = .ok () → ∀ node, P.compose text = .ok (some node) → Distinct P node

/-- A text that opens with no directive without a value; in whose tree no key that is a list or a
mapping is read before a key named again; and in whose tree, where it is plain otherwise, keys
written differently read as different values. -/
structure Readable (text : String) : Prop where
  directive : ¬ Reserved (P.scan text).1
  keys : Opened P text → ∀ node, P.compose text = .ok (some node) →
    (met node).head? ≠ some .composite
  apart : Opened P text → ∀ node, P.compose text = .ok (some node) → met node = [] →
    heldAsText P node [] = .ok () → Apart P node

variable {P}

theorem composed (hP : Composes P) {text : String} (h : Opened P text) :
    ∃ tree, P.compose text = .ok tree := by
  have hplain := h.2
  rw [plainEvents] at hplain
  cases hparse : P.parse text with
  | error e =>
      rw [hparse] at hplain
      cases hplain
  | ok events =>
      rw [hparse] at hplain
      have hplain : (if events.any Event.tagged then _ else if events.any Event.anchored then _
        else if 1 < events.countP Event.startsDocument
          then _ else .ok ()) = (.ok () : Except Problem Unit) := hplain
      split_ifs at hplain with htagged hanchored hdocuments
      exact hP text events hparse (Bool.eq_false_iff.mpr hanchored) (Nat.not_lt.mp hdocuments)

theorem check_ok {text : String} (h : check P text = .ok ()) : Opened P text ∧
    ∀ node, P.compose text = .ok (some node) → met node = [] ∧ heldAsText P node [] = .ok () := by
  obtain ⟨_, hdirective, h⟩ := bind_ok.mp h
  obtain ⟨_, hevents, h⟩ := bind_ok.mp h
  refine ⟨⟨hdirective, hevents⟩, fun node hnode => ?_⟩
  rw [hnode] at h
  obtain ⟨_, hnamed, hheld⟩ := bind_ok.mp h
  refine ⟨?_, hheld⟩
  have hstops := namedOnce_stops P node []
  rw [hnamed] at hstops
  generalize met node = ms at hstops ⊢
  cases hstops
  rfl

theorem constructed_raises (tree : Option Joined) : Only IsNotCanonical (constructed P tree) := by
  rw [constructed]
  cases P.construct tree with
  | error e => exact .error (unreadable_notCanonical e)
  | ok v => exact .ok v

/-- What has passed the check is read, or the parser's error said. -/
theorem loadedTree_raises {text : String} (h : check P text = .ok ()) :
    Only IsNotCanonical (loadedTree P (P.compose text)) := by
  cases htree : P.compose text with
  | error e => exact .error (unreadable_notCanonical e)
  | ok tree =>
      cases tree with
      | none => exact constructed_raises none
      | some node =>
          obtain ⟨tree, htree⟩ := joinedTree_returns P node [] ((check_ok h).2 node htree).2
          show Only _ (joinedTree node >>= fun tree => constructed P (some tree))
          rw [htree]
          exact constructed_raises (some tree)

theorem check_raises (hP : Composes P) (text : String) :
    Only IsNotCanonical (check P text) ↔ ¬ Reserved (P.scan text).1 ∧
    (Opened P text → ∀ node, P.compose text = .ok (some node) →
      (met node).head? ≠ some .composite) := by
  constructor
  · intro h
    constructor
    · refine (noDirective_raises (P.scan text).1 (P.scan text).2).mp fun e he => h e ?_
      rw [check, he]
      rfl
    · intro hopened node hnode hhead
      have hstops := namedOnce_stops P node []
      generalize hnamed : namedOnce P node [] = x at hstops
      generalize met node = ms at hstops hhead
      cases hstops with
      | plain => cases hhead
      | again rest message place => cases hhead
      | composite rest =>
          have hcheck : check P text = .error .misshapen := by
            rw [check, hopened.1, hnode]
            show (plainEvents P text >>= fun _ => namedOnce P node [] >>= fun _ =>
              heldAsText P node []) = _
            rw [hopened.2, hnamed]
            rfl
          obtain ⟨_, _, hnot⟩ := h _ hcheck
          cases hnot
  · rintro ⟨hdirective, hkeys⟩
    refine ((noDirective_raises _ _).mpr hdirective).bind fun _ hopens =>
      (plainEvents_raises P text).bind fun _ hevents => ?_
    obtain ⟨tree, htree⟩ := composed hP ⟨hopens, hevents⟩
    rw [htree]
    cases tree with
    | none => exact .ok ()
    | some node =>
        refine Only.bind ?_ fun _ _ => heldAsText_raises P node []
        have hhead := hkeys ⟨hopens, hevents⟩ node htree
        have hstops := namedOnce_stops P node []
        generalize namedOnce P node [] = x at hstops ⊢
        generalize met node = ms at hstops hhead
        cases hstops with
        | plain => exact .ok ()
        | composite rest => exact absurd rfl hhead
        | again rest message place => exact .error ⟨_, _, rfl⟩

/-- A text's check and its reading end or say what is not canonical, and tell apart the keys that
read alike, just when the text is readable. -/
theorem canonical_reads (hP : Composes P) (text : String) : Total P text ↔ Readable P text := by
  constructor
  · intro h
    obtain ⟨hdirective, hkeys⟩ := (check_raises hP text).mp h.checked
    refine ⟨hdirective, hkeys, fun hopened node hnode hmet hheld =>
      (distinct_iff P hmet).mp (h.distinct ?_ node hnode)⟩
    have hnamed : namedOnce P node [] = .ok () := by
      have hstops := namedOnce_stops P node []
      rw [hmet] at hstops
      generalize namedOnce P node [] = x at hstops ⊢
      cases hstops
      rfl
    rw [check, hopened.1, hnode]
    exact bind_ok.mpr ⟨(), rfl, bind_ok.mpr ⟨(), hopened.2, bind_ok.mpr ⟨(), hnamed, hheld⟩⟩⟩
  · intro h
    have hcheck := (check_raises hP text).mpr ⟨h.directive, h.keys⟩
    have hload : Only IsNotCanonical (load P text) :=
      hcheck.bind fun _ hchecked => loadedTree_raises hchecked
    refine ⟨hcheck, hload, hload.bind fun v _ => ?_, fun hchecked node hnode => ?_⟩
    · cases v with
      | map es => exact .ok es
      | list vs => exact .error ⟨_, _, rfl⟩
      | scalar s => exact .error ⟨_, _, rfl⟩
    · obtain ⟨hopened, hplain⟩ := check_ok hchecked
      obtain ⟨hmet, hheld⟩ := hplain node hnode
      exact (distinct_iff P hmet).mpr (h.apart hopened node hnode hmet hheld)

/-! ## Three texts -/

namespace Texts

/-- A scalar written in letters. -/
def written (tag text : String) : Node := .scalar tag (text.toList.map .char) 0

/-- The trees of three texts: an entry; one whose key is a list; and two entries whose keys are one
number, written twice. -/
def tree (text : String) : Option Node :=
  if text = "a: b" then some (.mapping [(written "str" "a", written "str" "b")] 0)
  else if text = "[a]: b"
    then some (.mapping [(.sequence [written "str" "a"] 0, written "str" "b")] 0)
  else if text = "1: a\n0x1: b" then
    some (.mapping [(written "int" "1", written "str" "a"),
      (written "int" "0x1", written "str" "b")] 0)
  else none

/-- What a parser gives of these texts, and of one that opens with a directive YAML reserves. -/
def parser : Parser where
  scan text := (if text = "%FOO\n--- a" then [.streamStart, .directive "FOO" none 0, .other]
    else [.streamStart, .other], none)
  parse _ := .ok [{ startsDocument := true }]
  compose text := .ok (tree text)
  construct _ := .ok (.map [])
  key tag text := if tag = "int" then .int 1 else .text (String.ofList text)
  shown _ := "[]"

theorem composes : Composes parser := fun text _ _ _ _ => ⟨tree text, rfl⟩

theorem compose_some {text : String} {node node' : Node} (h : parser.compose text = .ok (some node))
    (ht : tree text = some node') :
    node = node' := by
  have hsame : some node = tree text := (Except.ok.inj h).symm
  rw [ht] at hsame
  exact Option.some.inj hsame

theorem scalar_inside {tag : String} {text : List Point} {line : Nat} {node : Node}
    (h : Inside (.scalar tag text line) node) :
    node = .scalar tag text line := by
  cases h
  rfl

end Texts

open Texts in
/-- An entry is read. -/
theorem canonical_reads_entry : Total parser "a: b" := by
  have htree : tree "a: b" = some (.mapping [(written "str" "a", written "str" "b")] 0) :=
    if_pos rfl
  refine (canonical_reads composes "a: b").mpr ⟨fun h => h, fun _ node hnode => ?_,
    fun _ node hnode _ _ => ?_⟩
  · rw [compose_some hnode htree]
    exact nofun
  · rw [compose_some hnode htree]
    intro es line hinside
    cases hinside with
    | self _ => exact List.pairwise_singleton _ _
    | key he hinside =>
        rw [List.mem_singleton.mp he] at hinside
        cases scalar_inside hinside
    | value he hinside =>
        rw [List.mem_singleton.mp he] at hinside
        cases scalar_inside hinside

open Texts in
/-- A key that is a list is not told apart, a directive YAML reserves is not said, and a number
written two ways is named twice. -/
theorem canonical_not_total : Composes parser ∧
    (¬ Only IsNotCanonical (check parser "[a]: b") ∧ ¬ Only IsNotCanonical (load parser "[a]: b")) ∧
    ¬ Only IsNotCanonical (check parser "%FOO\n--- a") ∧
    check parser "1: a\n0x1: b" = .ok () ∧ ∃ node, parser.compose "1: a\n0x1: b" = .ok (some node) ∧
    ¬ Distinct parser node := by
  have hnot : ∀ {α : Type} {x : Except Problem α}, x = .error .misshapen →
      ¬ Only IsNotCanonical x := by
    intro α x hx h
    obtain ⟨_, _, hsame⟩ := h _ hx
    cases hsame
  have hlist : check parser "[a]: b" = .error .misshapen := rfl
  refine ⟨composes, ⟨hnot hlist, hnot ?_⟩, hnot rfl, rfl, _, rfl, ?_⟩
  · rw [load, hlist]
    rfl
  · intro hdistinct
    have hpair := List.pairwise_cons.mp (hdistinct _ _ (.self _))
    refine hpair.1 _ List.mem_cons_self (.scalars rfl rfl ?_)
    decide

end Kb.Canonical
