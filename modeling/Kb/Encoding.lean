/-
# `Kb.Encoding` — content as the database keeps it

`encoded` and `decoded` of `sqlite_reads.py`: content as JSON text, where every key of a mapping is
text.  A mapping with a key that is not, or whose one key is the marker (`PAIRS`), is kept as its
pairs under the marker, and the text is read with a hook that makes a mapping of such pairs again,
innermost first.  A mapping that really has the marker as its one key is kept as pairs itself, so
the hook never takes it for one that was (`read_encodable`).

What writes and reads JSON text is outside the repository: here it is any two functions, inverse on
values whose mappings have text keys.
-/
import Kb.Ids
import Kb.Lib.Raising

namespace Kb.Encoding

open Raising

def PAIRS := "~pairs"

def isText : Scalar → Bool
  | .text _ => true
  | _ => false

/-! ## What is written -/

/-- Whether a mapping is kept as it is: its keys are text, and not the marker alone. -/
def plain (es : Dict) : Bool :=
  es.all (fun e => isText e.1) && Assoc.keys es ≠ [.text PAIRS]

mutual
/-- Content as JSON can keep it. -/
def encodable : Value → Value
  | .map es => if plain es then .map (entries es) else .map [(.text PAIRS, .list (pairs es))]
  | .list vs => .list (items vs)
  | .scalar s => .scalar s
def entries : List (Scalar × Value) → List (Scalar × Value)
  | [] => []
  | (k, v) :: es => (k, encodable v) :: entries es
def pairs : List (Scalar × Value) → List Value
  | [] => []
  | (k, v) :: es => .list [.scalar k, encodable v] :: pairs es
def items : List Value → List Value
  | [] => []
  | v :: vs => encodable v :: items vs
end

/-! ## What is read -/

/-- `d[key] = value` with a key as Python tells keys apart: a key equal to one that is there leaves
that key. -/
def assign : Dict → Scalar → Value → Dict
  | [], k, v => [(k, v)]
  | (j, w) :: d, k, v => if j.equals k then (j, v) :: d else (j, w) :: assign d k v

/-- `for key, item in read[PAIRS]`: one pair unpacked. -/
def unpacked (entry : Value) : Raises (Scalar × Value) := do
  match ← entry.iter with
  | [.scalar key, item] => .ok (key, item)
  | _ => .error .misshapen

/-- The hook: a mapping read, made of its pairs when it is the marker's. -/
def mapping (read : Dict) : Raises Value := do
  if Assoc.keys read = [.text PAIRS] then
    let found ← (← (← (Value.map read).at_ PAIRS).iter).mapM unpacked
    .ok (.map (found.foldl (fun d e => assign d e.1 e.2) []))
  else .ok (.map read)

mutual
/-- JSON read with the hook on every mapping, innermost first. -/
def hooked : Value → Raises Value
  | .map es => do mapping (← hookedEntries es)
  | .list vs => do .ok (.list (← hookedItems vs))
  | .scalar s => .ok (.scalar s)
def hookedEntries : List (Scalar × Value) → Raises (List (Scalar × Value))
  | [] => .ok []
  | (k, v) :: es => do .ok ((k, ← hooked v) :: (← hookedEntries es))
def hookedItems : List Value → Raises (List Value)
  | [] => .ok []
  | v :: vs => do .ok ((← hooked v) :: (← hookedItems vs))
end

variable (dumps : Value → String) (loads : String → Option Value)

def encoded (content : Value) : String := dumps (encodable content)

def decoded (stored : String) : Raises Value :=
  match loads stored with
  | some read => hooked read
  | none => .error .database

/-! ## Mappings as Python has them -/

mutual
/-- Whether no mapping in a value has two keys Python takes for one. -/
def distinct : Value → Bool
  | .map es => (Assoc.keys es).Pairwise (fun j k => j.equals k = false) && distinctEntries es
  | .list vs => distinctItems vs
  | .scalar _ => true
def distinctEntries : List (Scalar × Value) → Bool
  | [] => true
  | (_, v) :: es => distinct v && distinctEntries es
def distinctItems : List Value → Bool
  | [] => true
  | v :: vs => distinct v && distinctItems vs
end

mutual
/-- Whether every key of every mapping in a value is text. -/
def textKeyed : Value → Bool
  | .map es => textKeyedEntries es
  | .list vs => textKeyedItems vs
  | .scalar _ => true
def textKeyedEntries : List (Scalar × Value) → Bool
  | [] => true
  | (k, v) :: es => isText k && textKeyed v && textKeyedEntries es
def textKeyedItems : List Value → Bool
  | [] => true
  | v :: vs => textKeyed v && textKeyedItems vs
end

/-! ## Every key written is text -/

mutual
theorem encodable_textKeyed : ∀ v, textKeyed (encodable v) = true
  | .scalar _ => rfl
  | .list vs => by
      rw [encodable, textKeyed]
      exact items_textKeyed vs
  | .map es => by
      rw [encodable]
      split
      · next hplain =>
          rw [textKeyed]
          exact entries_textKeyed es fun e he =>
            List.all_eq_true.mp (Bool.and_eq_true_iff.mp hplain).1 e he
      · show (true && textKeyedItems (pairs es) && true) = true
        rw [pairs_textKeyed es]
        rfl
theorem entries_textKeyed : ∀ es : List (Scalar × Value), (∀ e ∈ es, isText e.1 = true) →
    textKeyedEntries (entries es) = true
  | [], _ => rfl
  | (k, v) :: es, h => by
      rw [entries, textKeyedEntries, h _ List.mem_cons_self, encodable_textKeyed v,
        entries_textKeyed es fun e he => h e (List.mem_cons_of_mem _ he)]
      rfl
theorem pairs_textKeyed : ∀ es : List (Scalar × Value), textKeyedItems (pairs es) = true
  | [] => rfl
  | (k, v) :: es => by
      rw [pairs, textKeyedItems, pairs_textKeyed es]
      show (true && (textKeyed (encodable v) && true)) && true = true
      rw [encodable_textKeyed v]
      rfl
theorem items_textKeyed : ∀ vs : List Value, textKeyedItems (items vs) = true
  | [] => rfl
  | v :: vs => by rw [items, textKeyedItems, encodable_textKeyed v, items_textKeyed vs]; rfl
end

/-! ## What is written is read -/

/-- A key unlike any that is there goes last. -/
theorem assign_fresh {d : Dict} {k : Scalar} {v : Value}
    (h : ∀ j ∈ Assoc.keys d, j.equals k = false) : assign d k v = d ++ [(k, v)] := by
  induction d with
  | nil => rfl
  | cons e d ih =>
      obtain ⟨j, w⟩ := e
      rw [assign, h j List.mem_cons_self, if_neg Bool.false_ne_true, ih fun i hi =>
        h i (List.mem_cons_of_mem _ hi)]
      rfl

/-- Pairs whose keys are each unlike the others make the mapping they are the pairs of. -/
theorem assigned {es d : Dict} (h : (Assoc.keys (d ++ es)).Pairwise fun j k => j.equals k = false) :
    es.foldl (fun d e => assign d e.1 e.2) d = d ++ es := by
  induction es generalizing d with
  | nil => rw [List.append_nil]; rfl
  | cons e es ih =>
      have hfresh : ∀ j ∈ Assoc.keys d, j.equals e.1 = false := by
        intro j hj
        rw [Assoc.keys, List.map_append, List.pairwise_append] at h
        exact h.2.2 j hj e.1 List.mem_cons_self
      rw [List.foldl_cons, assign_fresh hfresh, ih (by rwa [List.append_assoc]), List.append_assoc]
      rfl

/-- A mapping kept as it is is no marker's. -/
theorem mapping_plain {es : Dict} (h : plain es = true) : mapping es = .ok (.map es) := by
  rw [mapping, if_neg (of_decide_eq_true (Bool.and_eq_true_iff.mp h).2)]

/-- The pairs of a mapping, under the marker, make the mapping. -/
theorem mapping_pairs {es : Dict} (h : (Assoc.keys es).Pairwise fun j k => j.equals k = false) :
    mapping [(.text PAIRS, .list (es.map fun e => .list [.scalar e.1, e.2]))] = .ok (.map es) := by
  have hunpacked : (es.map fun e => Value.list [.scalar e.1, e.2]).mapM unpacked = .ok es := by
    refine mapM_ok.mpr ?_
    clear h
    induction es with
    | nil => exact .nil
    | cons e es ih => exact .cons rfl ih
  have hmarker :
    Assoc.keys [(Scalar.text PAIRS, Value.list (es.map fun e => .list [.scalar e.1, e.2]))] =
    [.text PAIRS] := rfl
  rw [mapping, if_pos hmarker]
  refine bind_ok.mpr ⟨_, rfl, bind_ok.mpr ⟨_, rfl, bind_ok.mpr ⟨es, hunpacked, ?_⟩⟩⟩
  rw [assigned (show (Assoc.keys ([] ++ es)).Pairwise _ from h)]
  rfl

mutual
/-- What the hook makes of content as JSON keeps it is the content. -/
theorem read_encodable : ∀ v, distinct v = true → hooked (encodable v) = .ok v
  | .scalar _, _ => rfl
  | .list vs, h => by
      rw [encodable, hooked, read_items vs h]
      rfl
  | .map es, h => by
      obtain ⟨hkeys, hentries⟩ := Bool.and_eq_true_iff.mp h
      have hkeys := of_decide_eq_true hkeys
      rw [encodable]
      split
      · next hplain =>
          rw [hooked, read_entries es hentries]
          exact mapping_plain hplain
      · show (hookedEntries [(.text PAIRS, .list (pairs es))] >>= mapping) = _
        rw [hookedEntries, hooked, read_pairs es hentries]
        exact mapping_pairs hkeys
theorem read_entries : ∀ es : List (Scalar × Value), distinctEntries es = true → hookedEntries
    (entries es) = .ok es
  | [], _ => rfl
  | (k, v) :: es, h => by
      obtain ⟨hv, hes⟩ := Bool.and_eq_true_iff.mp h
      rw [entries, hookedEntries, read_encodable v hv, read_entries es hes]
      rfl
theorem read_pairs : ∀ es : List (Scalar × Value), distinctEntries es = true →
    hookedItems (pairs es) = .ok (es.map fun e => .list [.scalar e.1, e.2])
  | [], _ => rfl
  | (k, v) :: es, h => by
      obtain ⟨hv, hes⟩ := Bool.and_eq_true_iff.mp h
      rw [pairs, hookedItems, hooked, hookedItems, hooked, hookedItems, hookedItems,
        read_encodable v hv, read_pairs es hes]
      rfl
theorem read_items : ∀ vs : List Value, distinctItems vs = true → hookedItems (items vs) = .ok vs
  | [], _ => rfl
  | v :: vs, h => by
      obtain ⟨hv, hvs⟩ := Bool.and_eq_true_iff.mp h
      rw [items, hookedItems, read_encodable v hv, read_items vs hvs]
      rfl
end

/-- Content stored reads back as it was, every key and every order kept, where JSON whose keys are
text is read back as it was written. -/
theorem stored_reads_back {v : Value} (hdistinct : distinct v = true)
    (hjson : textKeyed (encodable v) = true → loads (dumps (encodable v)) = some (encodable v)) :
    decoded loads (encoded dumps v) = .ok v := by
  rw [decoded, encoded, hjson (encodable_textKeyed v)]
  exact read_encodable v hdistinct

/-- A mapping with a number for a key, and one that has the marker as its one key. -/
def marked : Value := .map [(.int 1, .text "a"), (.text PAIRS, .map [(.text PAIRS, .list [.null])])]

def markedText :=
  "\x7b\"~pairs\": [[1, \"a\"], [\"~pairs\", \x7b\"~pairs\": [[\"~pairs\", [null]]]\x7d]]\x7d"

theorem stored_reads_back_marked :
    decoded (fun t => if t = markedText then some (encodable marked) else none)
      (encoded (fun _ => markedText) marked) = .ok marked :=
  stored_reads_back _ _ (by decide) fun _ => if_pos rfl

end Kb.Encoding
