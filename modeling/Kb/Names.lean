/-
# `Kb.Names` — the grammar of names

`names.py`: kb's IRI grammar, how an IRI is split into its host and segments, which IRIs one sits
under, a type version's IRI read and written, the place the export layout gives an artifact, and how
a link names a place inside an artifact.

The regular expressions of the source are read here as what they match: `PLAIN` is runs of
lower-case letters and digits joined by single hyphens, `_DOTTED` is plain names joined by single
dots, and an IRI is the scheme, a dotted host and one or more dotted segments, each after a slash.
None of the pieces holds the mark it is joined by, so splitting at the mark and matching each piece
is the same match.
-/
import Mathlib

namespace Kb.Names

/-! ## The grammar -/

/-- A lower-case letter or a digit. -/
def plainChar (c : Char) : Bool :=
  ('a' ≤ c && c ≤ 'z') || ('0' ≤ c && c ≤ '9')

/-- `PLAIN`: runs of letters and digits joined by single hyphens. -/
def plainName (t : List Char) : Bool :=
  (t.splitOn '-').all fun run => !run.isEmpty && run.all plainChar

/-- `_DOTTED`: plain names joined by single dots. -/
def dotted (t : List Char) : Bool :=
  (t.splitOn '.').all plainName

def LONGEST : Nat := 512
def SCHEME : List Char := "https://".toList
def FILE : List Char := ".yaml".toList
def VERSIONED : Char := '@'
def TYPES : String := "https://missingmass.io/kb/type"
def TYPE_URI : List Char := "kb:".toList

/-- `str.removeprefix`. -/
def removePrefix (p t : List Char) : List Char :=
  if p.isPrefixOf t then t.drop p.length else t

/-- The pieces between the slashes after the scheme: the host and the segments. -/
def pieces (iri : String) : List (List Char) :=
  (removePrefix SCHEME iri.toList).splitOn '/'

/-- Whether text is an IRI of kb's grammar. -/
def iri (text : String) : Bool :=
  decide (text.length ≤ LONGEST) && SCHEME.isPrefixOf text.toList
    && decide (2 ≤ (pieces text).length) && (pieces text).all dotted

/-- Whether text is a plain name. -/
def plain (text : String) : Bool :=
  plainName text.toList

/-- A place's steps joined by slashes after the scheme. -/
def address (steps : List (List Char)) : String :=
  String.ofList (SCHEME ++ ['/'].intercalate steps)

/-- An IRI as its host and its segments. -/
def split (iriText : String) : List Char × List (List Char) :=
  ((pieces iriText).headD [], (pieces iriText).tail)

/-- The IRIs made of a host and each of the first runs of its segments, the longest of `count`
first. -/
def runs (host : List Char) (segments : List (List Char)) : Nat → List String
  | 0 => []
  | count + 1 => address (host :: segments.take (count + 1)) :: runs host segments count

/-- The IRIs an IRI sits under, nearest first, never the IRI itself. -/
def above (iriText : String) : List String :=
  match split iriText with
  | (host, segments) => runs host segments (segments.length - 1)

/-! ## A type's version -/

def digit (c : Char) : Bool :=
  '0' ≤ c && c ≤ '9'

/-- The number written by digits that do not begin with a zero. -/
def number? (t : List Char) : Option Nat :=
  match t with
  | [] => none
  | c :: cs =>
      if c ≠ '0' && (c :: cs).all digit then some (Nat.ofDigitChars 10 (c :: cs) 0) else none

/-- A type version's IRI read as the type's IRI and the version's number. -/
def version (text : String) : Option (String × Nat) :=
  match text.toList.splitOn VERSIONED with
  | [name, digits] =>
      match number? digits with
      | some n =>
          if iri (String.ofList name) && decide (text.length ≤ LONGEST)
            then some (String.ofList name, n) else none
      | none => none
  | _ => none

/-- `f"{type_iri}@{number}"` for a number written as the text given. -/
def labelled (typeIri label : String) : String :=
  typeIri ++ String.ofList [VERSIONED] ++ label

/-- A type version's IRI. -/
def versioned (typeIri : String) (number : Int) : String :=
  labelled typeIri (toString number)

/-! ## Order and places -/

/-- The place the export layout gives an artifact, as steps below the directory. -/
def place (iriText : String) (label : Option String) : List String :=
  match split iriText with
  | (host, segments) =>
      let last := String.ofList (segments.getLastD [])
      let written := match label with
        | none => last
        | some n => labelled last n
      (host :: segments.dropLast).map String.ofList ++ [written ++ String.ofList FILE]

/-- What artifacts' IRIs are compared by. -/
def order (iriText : String) : List String :=
  place iriText none

/-- A link as a field holds it: the name it points at and, after the first `#`, the place inside
it. -/
def linked (text : String) : String × String :=
  (String.ofList (text.toList.takeWhile (· ≠ '#')),
    String.ofList ((text.toList.dropWhile (· ≠ '#')).drop 1))

/-- A link written as a field holds it. -/
def pointing (name place : String) : String :=
  if place = "" then name else name ++ "#" ++ place

/-- A place inside an artifact as it is written. -/
def placed (steps : List String) : String :=
  String.ofList (['/'].intercalate (steps.map String.toList))

/-- A written place read back as its steps, none for no place. -/
def steps (text : String) : List String :=
  if text = "" then [] else (text.toList.splitOn '/').map String.ofList

/-- What a `kb:` reference names: a version's IRI, and what follows it from `#` on. -/
def referred (ref : String) : Option (String × String) :=
  if TYPE_URI.isPrefixOf ref.toList then
    let rest := ref.toList.drop TYPE_URI.length
    some (String.ofList (rest.takeWhile (· ≠ '#')), String.ofList (rest.dropWhile (· ≠ '#')))
  else none

/-! ## What the grammar gives -/

theorem removePrefix_append (p t : List Char) : removePrefix p (p ++ t) = t := by
  simp [removePrefix]

theorem pieces_address {ps : List (List Char)} (hne : ps ≠ []) (h : ∀ p ∈ ps, '/' ∉ p) :
    pieces (address ps) = ps := by
  simp only [pieces, address, String.toList_ofList, removePrefix_append]
  exact List.splitOn_intercalate '/' h hne

theorem iri_iff {text : String} : iri text = true ↔
    text.length ≤ LONGEST ∧ SCHEME.isPrefixOf text.toList = true ∧ 2 ≤ (pieces text).length ∧
      ∀ p ∈ pieces text, dotted p = true := by
  simp [iri, and_assoc]

/-- An IRI is the address of its pieces. -/
theorem address_pieces {text : String} (h : iri text = true) : address (pieces text) = text := by
  have hp := (iri_iff.mp h).2.1
  obtain ⟨r, hr⟩ := List.isPrefixOf_iff_prefix.mp hp
  have hpieces : pieces text = r.splitOn '/' := by
    simp only [pieces, ← hr, removePrefix_append]
  rw [address, hpieces, List.intercalate_splitOn, hr, String.ofList_toList]

theorem split_not_mem {c : Char} {t p : List Char} (h : p ∈ t.splitOn c) : c ∉ p := by
  induction t generalizing p with
  | nil => simp [List.splitOn_nil] at h; simp [h]
  | cons x xs ih =>
      rw [List.splitOn_cons_eq_if_modifyHead] at h
      split at h
      · rcases List.mem_cons.mp h with rfl | h
        · simp
        · exact ih h
      · next hx =>
        cases hs : xs.splitOn c with
        | nil => exact absurd hs (List.splitOn_ne_nil c xs)
        | cons q qs =>
            rw [hs] at h ih
            simp only [List.modifyHead_cons, List.mem_cons] at h
            rcases h with rfl | h
            · have hq : c ∉ q := ih List.mem_cons_self
              have hxc : c ≠ x := fun e => hx (by simp [e])
              simp [hq, hxc]
            · exact ih (List.mem_cons_of_mem _ h)

theorem pieces_not_mem {text : String} {p : List Char} (h : p ∈ pieces text) : '/' ∉ p :=
  split_not_mem h

/-- A character of a plain run is none of the marks the grammar joins by. -/
theorem plainChar_ne {c : Char} (h : plainChar c = true) :
    c ≠ '/' ∧ c ≠ '.' ∧ c ≠ '-' ∧ c ≠ '@' ∧ c ≠ '#' := by
  refine ⟨?_, ?_, ?_, ?_, ?_⟩ <;> · rintro rfl; revert h; decide

/-- A character of a text is the mark, or stands in one of the pieces between the marks. -/
theorem mem_piece {c m : Char} {t : List Char} (h : c ∈ t) : c = m ∨ ∃ p ∈ t.splitOn m, c ∈ p := by
  induction t with
  | nil => simp at h
  | cons x xs ih =>
      rw [List.splitOn_cons_eq_if_modifyHead]
      by_cases hx : x = m
      · subst hx
        rcases List.mem_cons.mp h with rfl | h
        · exact Or.inl rfl
        · rcases ih h with rfl | ⟨p, hp, hcp⟩
          · exact Or.inl rfl
          · exact Or.inr ⟨p, by simp [hp], hcp⟩
      · cases hs : xs.splitOn m with
        | nil => exact absurd hs (List.splitOn_ne_nil m xs)
        | cons q qs =>
            have hx' : (x == m) = false := by simp [hx]
            simp only [hx', Bool.false_eq_true, if_false, List.modifyHead_cons]
            rw [hs] at ih
            rcases List.mem_cons.mp h with rfl | h
            · exact Or.inr ⟨c :: q, List.mem_cons_self, List.mem_cons_self⟩
            · rcases ih h with rfl | ⟨p, hp, hcp⟩
              · exact Or.inl rfl
              · rcases List.mem_cons.mp hp with rfl | hp
                · exact Or.inr ⟨x :: p, List.mem_cons_self, List.mem_cons_of_mem _ hcp⟩
                · exact Or.inr ⟨p, List.mem_cons_of_mem _ hp, hcp⟩

theorem mem_of_dotted {t : List Char} (h : dotted t = true) {c : Char} (hc : c ∈ t) :
    plainChar c = true ∨ c = '-' ∨ c = '.' := by
  rcases mem_piece (m := '.') hc with rfl | ⟨p, hp, hcp⟩
  · exact Or.inr (Or.inr rfl)
  · have hplain : plainName p = true := List.all_eq_true.mp h p hp
    rcases mem_piece (m := '-') hcp with rfl | ⟨r, hr, hcr⟩
    · exact Or.inr (Or.inl rfl)
    · have := List.all_eq_true.mp hplain r hr
      simp only [Bool.and_eq_true, List.all_eq_true] at this
      exact Or.inl (this.2 c hcr)

theorem not_mem_dotted {t : List Char} (h : dotted t = true) : '@' ∉ t ∧ '#' ∉ t := by
  constructor
  · intro hc
    rcases mem_of_dotted h hc with hp | hp | hp
    · exact (plainChar_ne hp).2.2.2.1 rfl
    · exact absurd hp (by decide)
    · exact absurd hp (by decide)
  · intro hc
    rcases mem_of_dotted h hc with hp | hp | hp
    · exact (plainChar_ne hp).2.2.2.2 rfl
    · exact absurd hp (by decide)
    · exact absurd hp (by decide)

/-- An IRI of the grammar holds neither a version's mark nor a place's. -/
theorem iri_not_mem {text : String} (h : iri text = true) :
    '@' ∉ text.toList ∧ '#' ∉ text.toList := by
  have hdot := (iri_iff.mp h).2.2.2
  have haddr := address_pieces h
  have key : ∀ c : Char, c ∉ SCHEME → c ≠ '/' → (∀ p ∈ pieces text, c ∉ p) → c ∉ text.toList := by
    intro c hs hslash hp hc
    rw [← haddr, address, String.toList_ofList] at hc
    rcases List.mem_append.mp hc with hc | hc
    · exact hs hc
    · rcases mem_piece (m := '/') hc with rfl | ⟨p, hmem, hcp⟩
      · exact hslash rfl
      · rw [List.splitOn_intercalate '/' (fun p hp => pieces_not_mem hp)
          (by simp [pieces, List.splitOn_ne_nil])] at hmem
        exact hp p hmem hcp
  exact ⟨key '@' (by decide) (by decide) fun p hp => (not_mem_dotted (hdot p hp)).1,
    key '#' (by decide) (by decide) fun p hp => (not_mem_dotted (hdot p hp)).2⟩

/-! ### A version's IRI read back -/

theorem digit_of_isDigit {c : Char} (h : c.isDigit = true) : digit c = true := by
  simp only [Char.isDigit, Bool.and_eq_true, decide_eq_true_eq] at h
  simp only [digit, Bool.and_eq_true, decide_eq_true_eq, Char.le_def]
  exact h

theorem toDigits_head {n : Nat} (h : 0 < n) : ∃ c cs, Nat.toDigits 10 n = c :: cs ∧ c ≠ '0' := by
  induction n using Nat.strongRecOn with
  | ind n ih =>
      by_cases hn : n < 10
      · refine ⟨n.digitChar, [], Nat.toDigits_of_lt_base hn, fun e => ?_⟩
        have := Nat.digitChar_eq_zero.mp e
        omega
      · obtain ⟨c, cs, hc, hz⟩ := ih (n / 10) (by omega) (by omega)
        rw [Nat.toDigits_of_base_le (by decide) (by omega), hc]
        exact ⟨c, cs ++ [(n % 10).digitChar], rfl, hz⟩

theorem number?_repr {n : Nat} (h : 0 < n) : number? (toString n).toList = some n := by
  rw [Nat.toString_eq_repr, Nat.toList_repr]
  obtain ⟨c, cs, hc, hz⟩ := toDigits_head h
  have hd : ∀ d ∈ Nat.toDigits 10 n, digit d = true := fun d hd =>
    digit_of_isDigit (Nat.isDigit_of_mem_toDigits (by decide) (by decide) hd)
  have hv : Nat.ofDigitChars 10 (Nat.toDigits 10 n) 0 = n := Nat.ofDigitChars_ten_toDigits
  rw [hc] at hd hv ⊢
  have hall : (c :: cs).all digit = true := List.all_eq_true.mpr hd
  simp [number?, hz, hall, hv]

theorem toList_labelled (t l : String) :
    (labelled t l).toList = t.toList ++ VERSIONED :: l.toList := by
  simp [labelled]

theorem digits_not_mem (n : Nat) : VERSIONED ∉ (toString n).toList := by
  rw [Nat.toString_eq_repr, Nat.toList_repr]
  intro h
  have := Nat.isDigit_of_mem_toDigits (by decide) (by decide) h
  revert this; decide

/-- A version's IRI reads back as the type's IRI and the number, where it is short enough to be
one. -/
theorem version_versioned {t : String} {n : Nat} (ht : iri t = true) (hn : 0 < n)
    (hl : (versioned t n).length ≤ LONGEST) : version (versioned t n) = some (t, n) := by
  have hsplit : (versioned t n).toList.splitOn VERSIONED = [t.toList, (toString n).toList] := by
    rw [versioned, toList_labelled]
    have := List.splitOn_append_cons_self_of_not_mem (a := VERSIONED) (iri_not_mem ht).1
      (toString (n : Int)).toList
    rw [this, List.splitOn_eq_singleton (show VERSIONED ∉ (toString (n : Int)).toList
      from digits_not_mem n)]
    rfl
  simp only [version, hsplit, number?_repr hn, String.ofList_toList, ht, hl, decide_true,
    Bool.and_self, if_true]

/-- What reads as a version's IRI is its type's IRI labelled. -/
theorem labelled_of_version {text t : String} {n : Nat} (h : version text = some (t, n)) :
    ∃ l, text = labelled t l := by
  unfold version at h
  split at h
  · next name digits hsplit =>
      split at h
      · split at h
        · obtain ⟨rfl, _⟩ := Prod.mk.inj (Option.some.inj h)
          refine ⟨String.ofList digits, String.toList_inj.mp ?_⟩
          rw [toList_labelled, String.toList_ofList, String.toList_ofList]
          have hjoin : [VERSIONED].intercalate (text.toList.splitOn VERSIONED) = text.toList :=
            List.intercalate_splitOn VERSIONED
          rw [hsplit] at hjoin
          simpa using hjoin.symm
        · cases h
      · cases h
  · cases h

/-- One text labels one type by one label, since no IRI holds the mark between them. -/
theorem labelled_inj {t t' l l' : String} (ht : iri t = true) (ht' : iri t' = true)
    (h : labelled t l = labelled t' l') : t = t' ∧ l = l' := by
  have hl := congrArg String.toList h
  rw [toList_labelled, toList_labelled] at hl
  have hm := (iri_not_mem ht).1
  have hm' := (iri_not_mem ht').1
  have key : ∀ (a b r r' : List Char), VERSIONED ∉ a → VERSIONED ∉ b →
      a ++ VERSIONED :: r = b ++ VERSIONED :: r' → a = b ∧ r = r' := by
    intro a
    induction a with
    | nil =>
        intro b r r' _ hb e
        cases b with
        | nil => exact ⟨rfl, by simpa using e⟩
        | cons x b => simp only [List.nil_append, List.cons_append, List.cons.injEq] at e
                      exact absurd (e.1 ▸ List.mem_cons_self) hb
    | cons x a ih =>
        intro b r r' ha hb e
        cases b with
        | nil => simp only [List.nil_append, List.cons_append, List.cons.injEq] at e
                 exact absurd (e.1 ▸ List.mem_cons_self) ha
        | cons y b =>
            simp only [List.cons_append, List.cons.injEq] at e
            obtain ⟨hab, hr⟩ := ih b r r' (fun m => ha (List.mem_cons_of_mem _ m))
              (fun m => hb (List.mem_cons_of_mem _ m)) e.2
            exact ⟨by rw [e.1, hab], hr⟩
  obtain ⟨e1, e2⟩ := key _ _ _ _ hm hm' hl
  exact ⟨String.toList_inj.mp e1, String.toList_inj.mp e2⟩

theorem toString_nat_inj {m n : Nat} (h : (toString m : String) = toString n) : m = n := by
  have := congrArg (fun t : String => Nat.ofDigitChars 10 t.toList 0) h
  simpa [Nat.toString_eq_repr, Nat.toList_repr] using this

theorem minus_not_mem (n : Nat) : '-' ∉ (toString n : String).toList := by
  rw [Nat.toString_eq_repr, Nat.toList_repr]
  intro h
  have := Nat.isDigit_of_mem_toDigits (by decide) (by decide) h
  revert this; decide

theorem toString_int_inj {a b : Int} (h : (toString a : String) = toString b) : a = b := by
  have neg : ∀ n : Nat, (toString (Int.negSucc n) : String) = "-" ++ toString (n + 1) :=
    fun _ => rfl
  cases a with
  | ofNat m =>
      cases b with
      | ofNat n => rw [toString_nat_inj (m := m) (n := n) h]
      | negSucc n =>
          rw [neg] at h
          exact absurd (by rw [show (toString m : String) = _ from h]; simp) (minus_not_mem m)
  | negSucc m =>
      cases b with
      | ofNat n =>
          rw [neg] at h
          exact absurd (by rw [show (toString n : String) = _ from h.symm]; simp) (minus_not_mem n)
      | negSucc n =>
          rw [neg, neg] at h
          have h' : (toString (m + 1) : String) = toString (n + 1) := by
            have := congrArg String.toList h
            simp only [String.toList_append, List.append_cancel_left_eq] at this
            exact String.toList_inj.mp this
          have := toString_nat_inj h'
          rw [show m = n by omega]

end Kb.Names
