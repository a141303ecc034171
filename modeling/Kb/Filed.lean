/-
# `Kb.Filed` — places and names read back

The place the export layout gives an IRI, or a type's version, and the name a file's place gives.
A place is the IRI, written with its label, cut at its slashes (`place_eq`), so distinct names have
distinct places and every file a name is read of lies at that name's place.  The other way round the
two limits part: an IRI is held as long as it alone is not too long, and a version's is read only as
long as it is not too long with its number.  So a version is read back of its place just when its
number is a whole one above zero and its IRI short enough with the number written in
(`readBack_iff`), and what a set makes of a type decides whether it is (`Move.Hands`).
-/
import Kb.BuiltOn

namespace Kb

open Raising

namespace Names

/-! ## A label written after an IRI -/

/-- What a label adds to what it is written after. -/
def suffix : Option String → List Char
  | none => []
  | some label => VERSIONED :: label.toList

/-- An IRI with its label, where it is given one. -/
def written (t : String) (label : Option String) : String :=
  String.ofList (t.toList ++ suffix label)

@[simp] theorem written_none (t : String) : written t none = t := by
  rw [written, suffix, List.append_nil, String.ofList_toList]

@[simp] theorem written_some (t l : String) : written t (some l) = labelled t l := by
  rw [written, suffix, ← toList_labelled, String.ofList_toList]

theorem written_inj {t t' : String} {l l' : Option String} (ht : iri t = true) (ht' : iri t' = true)
    (h : written t l = written t' l') : t = t' ∧ l = l' := by
  have hmark : ∀ {t t' l : String}, iri t = true → t ≠ labelled t' l := by
    rintro t t' l ht rfl
    refine (iri_not_mem ht).1 ?_
    rw [toList_labelled]
    exact List.mem_append_right _ List.mem_cons_self
  cases l with
  | none =>
      cases l' with
      | none =>
          rw [written_none, written_none] at h
          exact ⟨h, rfl⟩
      | some l' =>
          rw [written_none, written_some] at h
          exact absurd h (hmark ht)
  | some l =>
      cases l' with
      | none =>
          rw [written_none, written_some] at h
          exact absurd h.symm (hmark ht')
      | some l' =>
          rw [written_some, written_some] at h
          obtain ⟨rfl, rfl⟩ := labelled_inj ht ht' h
          exact ⟨rfl, rfl⟩

theorem intercalate_concat (ps : List (List Char)) (p r : List Char) :
    ['/'].intercalate (ps ++ [p ++ r]) = ['/'].intercalate (ps ++ [p]) ++ r := by
  induction ps with
  | nil => simp
  | cons q ps ih =>
      cases ps with
      | nil => simp [List.intercalate]
      | cons q' ps =>
          simp only [List.cons_append] at ih ⊢
          rw [List.intercalate_cons_cons, List.intercalate_cons_cons, ih, List.append_assoc,
            List.append_assoc, List.append_assoc]

theorem pieces_ne_nil {t : String} (h : iri t = true) : pieces t ≠ [] := by
  intro hnil
  have htwo := (iri_iff.mp h).2.2.1
  rw [hnil] at htwo
  cases htwo

/-- The pieces of an IRI with its label: those of the IRI, the last with the label. -/
def labelledPieces (t : String) (label : Option String) : List (List Char) :=
  (pieces t).dropLast ++ [(pieces t).getLastD [] ++ suffix label]

theorem pieces_concat {t : String} (h : iri t = true) :
    (pieces t).dropLast ++ [(pieces t).getLastD []] = pieces t := by
  rw [List.getLastD_eq_getLast?, List.getLast?_eq_some_getLast (pieces_ne_nil h), Option.getD_some,
    List.dropLast_append_getLast]

theorem address_labelled {t : String} (h : iri t = true) (label : Option String) :
    address (labelledPieces t label) = written t label := by
  rw [address, labelledPieces, intercalate_concat, pieces_concat h, ← List.append_assoc, written]
  have haddress := congrArg String.toList (address_pieces h)
  rw [address, String.toList_ofList] at haddress
  rw [haddress]

theorem pieces_written {t : String} (h : iri t = true) {label : Option String}
    (hlabel : '/' ∉ suffix label) :
    pieces (written t label) = labelledPieces t label := by
  rw [← address_labelled h]
  refine pieces_address (List.append_ne_nil_of_right_ne_nil _ (List.cons_ne_nil _ _)) ?_
  intro p hp
  have hpiece : ∀ p ∈ pieces t, '/' ∉ p := fun p hp => pieces_not_mem hp
  rcases List.mem_append.mp hp with hp | hp
  · exact hpiece p (List.dropLast_subset _ hp)
  · rw [List.mem_singleton.mp hp, List.mem_append]
    rintro (hp | hp)
    · have hlast : (pieces t).getLastD [] ∈ (pieces t).dropLast ++ [(pieces t).getLastD []] :=
        List.mem_append_right _ List.mem_cons_self
      rw [pieces_concat h] at hlast
      exact hpiece _ hlast hp
    · exact hlabel hp

/-! ## Places -/

/-- A place is an IRI with its label, cut at its slashes, the last of the pieces a file's name. -/
theorem place_eq {t : String} (h : iri t = true) (label : Option String) :
    place t label = (pieces t).dropLast.map String.ofList ++
      [String.ofList ((pieces t).getLastD [] ++ suffix label ++ FILE)] := by
  have htwo := (iri_iff.mp h).2.2.1
  unfold place split
  cases hpieces : pieces t with
  | nil =>
      rw [hpieces] at htwo
      cases htwo
  | cons host segments =>
      cases segments with
      | nil =>
          rw [hpieces] at htwo
          exact absurd htwo (Nat.not_le.mpr (Nat.lt_succ_self 1))
      | cons first rest =>
          cases label with
          | none => simp [suffix, String.ofList_append]
          | some label =>
              have hlast : ∀ last : List Char, labelled (String.ofList last) label ++
                  String.ofList FILE
                  = String.ofList (last ++ suffix (some label) ++ FILE) := by
                intro last
                refine String.toList_inj.mp ?_
                rw [String.toList_append, toList_labelled, String.toList_ofList,
                  String.toList_ofList, String.toList_ofList, suffix]
              rw [← hlast]
              rfl

theorem place_labelled {t : String} (h : iri t = true) (label : Option String) :
    ∃ first stem, first ≠ [] ∧ place t label = first ++ [String.ofList (stem ++ FILE)] ∧
      address (first.map String.toList ++ [stem]) = written t label := by
  refine ⟨(pieces t).dropLast.map String.ofList, (pieces t).getLastD [] ++ suffix label, ?_,
    place_eq h label, ?_⟩
  · rw [Ne, List.map_eq_nil_iff, ← List.length_eq_zero_iff, List.length_dropLast]
    have htwo := (iri_iff.mp h).2.2.1
    omega
  · have hself : String.toList ∘ String.ofList = id := funext fun _ => String.toList_ofList
    rw [List.map_map, hself, List.map_id]
    exact address_labelled h label

/-- Distinct names have distinct places. -/
theorem place_inj {t t' : String} {l l' : Option String} (ht : iri t = true) (ht' : iri t' = true)
    (h : place t l = place t' l') : t = t' ∧ l = l' := by
  obtain ⟨first, stem, _, hplace, hwritten⟩ := place_labelled ht l
  obtain ⟨first', stem', _, hplace', hwritten'⟩ := place_labelled ht' l'
  rw [hplace, hplace'] at h
  obtain ⟨rfl, hlast⟩ := List.append_inj' h rfl
  have hstem : stem = stem' :=
    List.append_cancel_right (String.ofList_inj.mp (List.singleton_inj.mp hlast))
  rw [hstem, hwritten'] at hwritten
  exact (written_inj ht' ht hwritten).imp Eq.symm Eq.symm

/-! ## A number read -/

/-- What reads as a number is how that number is written. -/
theorem toList_of_number? {cs : List Char} {n : Nat} (h : number? cs = some n) :
    (toString n : String).toList = cs ∧ 0 < n := by
  have hchar : ∀ {c : Char}, digit c = true → 48 ≤ c.toNat ∧ c.toNat ≤ 57 := by
    intro c hc
    simp only [digit, Bool.and_eq_true, decide_eq_true_eq] at hc
    exact hc
  have hwrite : ∀ {c : Char}, digit c = true → Nat.digitChar (c.toNat - 48) = c := by
    intro c hc
    obtain ⟨hlow, hhigh⟩ := hchar hc
    refine Char.toNat_inj.mp ?_
    rw [Nat.toNat_digitChar_of_lt_ten (by omega)]
    omega
  -- the digits read so far are how the number read so far is written
  have hrest : ∀ (cs : List Char) (m : Nat), 0 < m → (∀ c ∈ cs, digit c = true) →
      Nat.toDigits 10 (Nat.ofDigitChars 10 cs m) = Nat.toDigits 10 m ++ cs ∧
          0 < Nat.ofDigitChars 10 cs m := by
    intro cs
    induction cs with
    | nil =>
        intro m hm _
        rw [Nat.ofDigitChars_nil, List.append_nil]
        exact ⟨rfl, hm⟩
    | cons c cs ih =>
        intro m hm hcs
        obtain ⟨hlow, hhigh⟩ := hchar (hcs c List.mem_cons_self)
        have hd : c.toNat - 48 < 10 := by omega
        have hmore := Nat.toDigits_append_toDigits (b := 10) (n := m) (by decide) hm hd
        rw [Nat.toDigits_of_lt_base hd, hwrite (hcs c List.mem_cons_self)] at hmore
        obtain ⟨hdigits, hpos⟩ := ih (10 * m + (c.toNat - 48)) (by omega) fun c hc =>
          hcs c (List.mem_cons_of_mem _ hc)
        rw [Nat.ofDigitChars_cons]
        refine ⟨?_, hpos⟩
        show Nat.toDigits 10 (Nat.ofDigitChars 10 cs (10 * m + (c.toNat - 48))) = _
        rw [hdigits, ← hmore, List.append_assoc, List.singleton_append]
  cases cs with
  | nil => cases h
  | cons c cs =>
      rw [number?] at h
      obtain ⟨hgiven, hn⟩ := Option.ite_none_right_eq_some.mp h
      obtain ⟨hzero, hall⟩ := Bool.and_eq_true_iff.mp hgiven
      have hcs := List.all_eq_true.mp hall
      obtain ⟨hlow, hhigh⟩ := hchar (hcs c List.mem_cons_self)
      have hnotzero : c.toNat ≠ 48 := by
        intro hc
        exact (of_decide_eq_true hzero) (Char.toNat_inj.mp hc)
      obtain ⟨hdigits, hpos⟩ := hrest cs (c.toNat - 48) (by omega) fun c hc =>
        hcs c (List.mem_cons_of_mem _ hc)
      rw [Nat.ofDigitChars_cons, Nat.mul_zero, Nat.zero_add] at hn
      have hn : Nat.ofDigitChars 10 cs (c.toNat - 48) = n := Option.some.inj hn
      rw [hn] at hdigits hpos
      refine ⟨?_, hpos⟩
      rw [Nat.toString_eq_repr, Nat.toList_repr, hdigits, Nat.toDigits_of_lt_base (by omega),
        hwrite (hcs c List.mem_cons_self), List.singleton_append]

/-- What reads as a version's IRI is the type's IRI with its number, a whole one above zero, and not
too long. -/
theorem versioned_of_version {text t : String} {n : Nat} (h : version text = some (t, n)) :
    text = versioned t n ∧ iri t = true ∧ 0 < n ∧ (versioned t n).length ≤ LONGEST := by
  have hlabelled := labelled_of_version h
  unfold version at h
  split at h
  · next name digits hsplit =>
      split at h
      · next number hnumber =>
          split at h
          · next hwhole =>
              cases h
              obtain ⟨hiri, hlength⟩ := Bool.and_eq_true_iff.mp hwhole
              obtain ⟨hdigits, hpos⟩ := toList_of_number? hnumber
              have htext : text = versioned (String.ofList name) n := by
                have hjoin : [VERSIONED].intercalate (text.toList.splitOn VERSIONED) =
                  text.toList := List.intercalate_splitOn VERSIONED
                rw [hsplit] at hjoin
                refine String.toList_inj.mp ?_
                rw [versioned, toList_labelled, String.toList_ofList, ← hjoin]
                show _ = name ++ VERSIONED :: (toString n : String).toList
                rw [hdigits]
                simp
              exact ⟨htext, hiri, hpos, htext ▸ of_decide_eq_true hlength⟩
          · cases h
      · cases h
  · cases h

end Names

/-! ## The name a file's place gives -/

namespace Name

/-- The label a name's IRI is written with: the number of the version a type's name gives. -/
def label (name : Name) : Option String := name.number.map toString

/-- What a name is given as: the IRI, and the version's number, nothing when it is no version's. -/
def given (name : Name) : String × Option Scalar :=
  (name.id.iri, name.number.map fun number => .int number)

/-- Written text as a name, a version's first. -/
def read? (written : String) : Option Name :=
  match Version.read? written with
  | some v => some (.version v)
  | none => (ArtifactId.read? written).map .whole

theorem read?_written (name : Name) : read? (Names.written name.id.iri name.label) = some name := by
  cases name with
  | version v =>
      show read? (Names.written v.kind.iri (some (toString v.number))) = _
      rw [Names.written_some]
      have hread : Version.read? (Names.labelled v.kind.iri (toString v.number)) = some v :=
        v.read?_str
      rw [read?, hread]
  | whole id =>
      show read? (Names.written id.iri none) = _
      have hnone : Version.read? id.iri = none := by
        unfold Version.read?
        cases hversion : Names.version id.iri with
        | none => rfl
        | some found =>
            obtain ⟨l, hl⟩ := Names.labelled_of_version (t := found.1) (n := found.2) hversion
            refine absurd ?_ (Names.iri_not_mem id.grammar).1
            rw [hl, Names.toList_labelled]
            exact List.mem_append_right _ List.mem_cons_self
      rw [Names.written_none, read?, hnone, ArtifactId.read?_iri, Option.map_some]

theorem written_of_read? {text : String} {name : Name} (h : read? text = some name) :
    Names.written name.id.iri name.label = text := by
  rw [read?] at h
  cases hversion : Version.read? text with
  | some v =>
      rw [hversion] at h
      cases h
      show Names.written v.kind.iri (some (toString v.number)) = text
      rw [Names.written_some]
      rw [Version.read?] at hversion
      split at hversion
      · cases hversion
      · next iri number hfound =>
          split at hversion
          · cases hversion
            exact (Names.versioned_of_version hfound).1.symm
          · cases hversion
  | none =>
      rw [hversion] at h
      obtain ⟨id, hid, rfl⟩ := Option.map_eq_some_iff.mp h
      exact (Names.written_none id.iri).trans (ArtifactId.iri_of_read? hid)

end Name

namespace Offers

theorem filed_file {first : List String} (hfirst : first ≠ []) (stem : List Char) :
    filed (first ++ [String.ofList (stem ++ Names.FILE)]) = Name.read?
      (Names.address (first.map String.toList ++ [stem])) := by
  have hlast : (String.ofList (stem ++ Names.FILE)).endsWith (String.ofList Names.FILE) = true := by
    refine String.Slice.endsWith_string_iff.mpr ?_
    rw [String.copy_toSlice, String.toList_ofList, String.toList_ofList]
    exact List.suffix_append _ _
  have hplace : ¬ ((first ++ [String.ofList (stem ++ Names.FILE)]).length < 2 ∨
      (!(String.ofList (stem ++ Names.FILE)).endsWith (String.ofList Names.FILE)) = true) := by
    rw [hlast, List.length_append, List.length_singleton]
    have hpos := List.length_pos_iff.mpr hfirst
    rintro (hlt | hfile)
    · omega
    · cases hfile
  have hstem :
      (stem ++ Names.FILE).take ((String.ofList (stem ++ Names.FILE)).length - Names.FILE.length) =
      stem := by
    rw [String.length_ofList, List.length_append, Nat.add_sub_cancel, List.take_left]
  rw [filed, List.getLast?_concat]
  simp only [if_neg hplace, List.dropLast_concat, List.map_append, List.map_cons, List.map_nil,
    String.toList_ofList, hstem]
  rfl

/-- A file a name is read of lies somewhere below a host, and its own name ends as a file's does. -/
theorem filed_some {steps : List String} {name : Name} (h : filed steps = some name) :
    ∃ first stem, first ≠ [] ∧ steps = first ++ [String.ofList (stem ++ Names.FILE)] := by
  rcases List.eq_nil_or_concat steps with rfl | ⟨first, last, rfl⟩
  · cases h
  rw [List.concat_eq_append] at h ⊢
  rw [filed, List.getLast?_concat] at h
  simp only at h
  split at h
  · cases h
  · next hwhole =>
      rw [not_or, Bool.not_eq_true', Bool.not_eq_false] at hwhole
      obtain ⟨hlength, hlast⟩ := hwhole
      have hsuffix := String.Slice.endsWith_string_iff.mp hlast
      rw [String.copy_toSlice, String.toList_ofList] at hsuffix
      obtain ⟨stem, hstem⟩ := hsuffix
      refine ⟨first, stem, ?_, ?_⟩
      · rintro rfl
        exact hlength (Nat.lt_succ_self 1)
      · rw [hstem, String.ofList_toList]

/-- The place of an IRI with a label is read as what they are written as. -/
theorem filed_place {t : String} (h : Names.iri t = true) (label : Option String) :
    filed (Names.place t label) = Name.read? (Names.written t label) := by
  obtain ⟨first, stem, hfirst, hplace, hwritten⟩ := Names.place_labelled h label
  rw [hplace, filed_file hfirst, hwritten]

/-- A file a name is read of lies at that name's place. -/
theorem place_filed {steps : List String} {name : Name} (h : filed steps = some name)
    (hsteps : ∀ s ∈ steps, '/' ∉ s.toList) :
    Names.place name.id.iri name.label = steps := by
  obtain ⟨first, stem, hfirst, rfl⟩ := filed_some h
  rw [filed_file hfirst] at h
  have hwritten := Name.written_of_read? h
  have hlabel : '/' ∉ Names.suffix name.label := by
    cases name with
    | whole id => exact List.not_mem_nil
    | version v =>
        intro hmem
        rcases List.mem_cons.mp hmem with hmem | hmem
        · exact absurd hmem (by decide)
        · have hdigit :=
            Nat.isDigit_of_mem_toDigits (by decide) (by decide) (Nat.toList_repr ▸ hmem)
          exact absurd hdigit (by decide)
  have hself : String.ofList ∘ String.toList = id := funext fun _ => String.ofList_toList
  have hslash : ∀ p ∈ first.map String.toList ++ [stem], '/' ∉ p := by
    intro p hp
    rcases List.mem_append.mp hp with hp | hp
    · obtain ⟨s, hs, rfl⟩ := List.mem_map.mp hp
      exact hsteps s (List.mem_append_left _ hs)
    · rw [List.mem_singleton.mp hp]
      intro hmem
      have hlast := hsteps _ (List.mem_append_right first (List.mem_singleton_self _))
      rw [String.toList_ofList] at hlast
      exact hlast (List.mem_append_left _ hmem)
  -- the pieces written are the steps, the last without what a file's name ends in
  have hpieces :=
    Names.pieces_address (List.append_ne_nil_of_right_ne_nil _ (List.cons_ne_nil stem [])) hslash
  rw [← hwritten, Names.pieces_written name.id.grammar hlabel, Names.labelledPieces] at hpieces
  obtain ⟨hinit, hstem⟩ := List.append_inj' hpieces rfl
  rw [Names.place_eq name.id.grammar, hinit, List.singleton_inj.mp hstem, List.map_map,
    hself, List.map_id]

end Offers

/-! ## The versions a store keeps -/

/-- A store keeps a version of a type at a number, as its database reads the number back. -/
def Tables.Keeps (O : Outside) (t : Tables) (id : ArtifactId) (n : Scalar) : Prop :=
  ∃ r ∈ t.typeVersions, r.type = id ∧ O.keptAs r.number = n

/-- A type's IRI and a number read back, of the place of the version and of its IRI. -/
def ReadBack (id : ArtifactId) (n : Scalar) : Prop :=
  (Offers.filed (Names.place id.iri (some n.str))).map Name.given = some (id.iri, some n) ∧
    (Names.version (Names.labelled id.iri n.str)).map (fun found => (found.1, Scalar.int found.2)) =
      some (id.iri, n)

/-- Whether a number is a whole one above zero, and a type's IRI with it no longer than an IRI may
be. -/
def Sized (id : ArtifactId) (n : Scalar) : Prop :=
  ∃ k : Nat, n = .int k ∧ 0 < k ∧ (Names.versioned id.iri k).length ≤ Names.LONGEST

theorem Sized.version {id : ArtifactId} {n : Scalar} (h : Sized id n) : ∃ v :
    Version, v.kind = id ∧ n = .int v.number := by
  obtain ⟨k, hn, hpos, hlength⟩ := h
  exact ⟨⟨id, k, hpos, hlength⟩, rfl, hn⟩

theorem Sized.of_version {id : ArtifactId} {n : Scalar} {v : Version} (hkind : v.kind.iri = id.iri)
    (hn : n = .int v.number) :
    Sized id n :=
  ⟨v.number, hn, v.positive, hkind ▸ v.short⟩

theorem Offers.filed_given (id : ArtifactId) (n : Scalar) :
    (filed (Names.place id.iri (some n.str))).map Name.given = some (id.iri, some n) ↔
      Sized id n := by
  constructor
  · intro h
    obtain ⟨name, _, hgiven⟩ := Option.map_eq_some_iff.mp h
    cases name with
    | whole found => cases (Prod.mk.inj hgiven).2
    | version v =>
        obtain ⟨hkind, hnumber⟩ := Prod.mk.inj hgiven
        exact .of_version hkind (Option.some.inj hnumber).symm
  · intro h
    obtain ⟨v, rfl, rfl⟩ := h.version
    have hwritten : Name.read? (Names.written v.kind.iri (some (toString (v.number : Int)))) =
        some (.version v) :=
      Name.read?_written (.version v)
    have hread := (filed_place v.kind.grammar _).trans hwritten
    show Option.map Name.given (filed (Names.place v.kind.iri (some (toString (v.number : Int))))) =
      _
    rw [hread]
    rfl

theorem Names.version_given (id : ArtifactId) (n : Scalar) :
    (version (labelled id.iri n.str)).map (fun found => (found.1, Scalar.int found.2)) =
      some (id.iri, n) ↔ Sized id n := by
  constructor
  · intro h
    obtain ⟨found, hfound, hgiven⟩ := Option.map_eq_some_iff.mp h
    obtain ⟨_, _, hpos, hlength⟩ := versioned_of_version (t := found.1) (n := found.2) hfound
    obtain ⟨hiri, hnumber⟩ := Prod.mk.inj hgiven
    exact ⟨found.2, hnumber.symm, hpos, hiri ▸ hlength⟩
  · intro h
    obtain ⟨k, rfl, hpos, hlength⟩ := h
    have hread := version_versioned id.grammar hpos hlength
    show Option.map _ (version (versioned id.iri k)) = _
    rw [hread]
    rfl

theorem readBack_iff (id : ArtifactId) (n : Scalar) : ReadBack id n ↔ Sized id n :=
  ⟨fun h => (Offers.filed_given id n).mp h.1,
    fun h => ⟨(Offers.filed_given id n).mpr h, (Names.version_given id n).mpr h⟩⟩

/-- Whether every version a set makes is sized. -/
def MadeSized (O : Outside) (_t : Tables) (changes : List Change) : Prop :=
  ∀ c ∈ changes, ∀ made, c.version = some made → Sized c.artifact (O.keptAs made.number)

theorem Landing.Lands.sized {O : Outside} {t t' : Tables} {changes : List Change}
    {entries : List Entry} (h : Landing.Lands t changes entries t')
    (ht : ∀ id n, t.Keeps O id n → Sized id n) (hmade : MadeSized O t changes) :
    ∀ id n, t'.Keeps O id n → Sized id n := by
  rintro id n ⟨r, hr, rfl, rfl⟩
  rw [h.typeVersions_eq] at hr
  rcases mem_rowsLeft hr with hr | ⟨c, hc, hr⟩
  · exact ht r.type _ ⟨r, hr, rfl, rfl⟩
  · rw [Tables.typeVersionRows] at hr
    cases hcontent : c.content with
    | none =>
        rw [hcontent] at hr
        cases hr
    | some a =>
        cases hversion : c.version with
        | none =>
            rw [hcontent, hversion] at hr
            cases hr
        | some made =>
            rw [hcontent, hversion] at hr
            rw [List.mem_singleton.mp hr]
            exact hmade c hc made hversion

/-- Where every set makes its versions so, every version a store of the run keeps is sized. -/
theorem RunWhere.sized {O : Outside} (hone : O.keptAs "1" = .int 1) {states : List Tables}
    (h : RunWhere O (Move.Hands O (MadeSized O)) states) :
    ∀ t ∈ states, ∀ id n, t.Keeps O id n → Sized id n := by
  refine History.Run.invariant ?_ ?_ h
  · intro t ht
    obtain ⟨_, _, _, _, _, hlands⟩ := ht.landed
    refine hlands.sized ?_ ?_
    · rintro id n ⟨r, hr, _⟩
      cases hr
    · intro c hc made hversion
      rw [List.mem_singleton.mp hc] at hversion ⊢
      cases hversion
      exact ⟨1, hone, Nat.one_pos, Start.METASCHEMA_VERSION.short⟩
  · rintro t past t' _ hpast ⟨move, hmove, hmakes⟩
    rcases hmakes.hands hmove nofun with rfl | ⟨changes, entries, hlands, hmade⟩
    · exact hpast _ List.mem_cons_self
    · exact hlands.sized (hpast t List.mem_cons_self) hmade

/-- Places and names are inverse but for versions whose IRIs are too long: an IRI is read back of
its place; a version just when its number is a whole one above zero and its IRI no longer than one
may be; distinct names have distinct places; a file a name is read of lies at the name's place; and
in a run whose sets make only versions that are sized, every version kept is read back. -/
theorem places_read_back {O : Outside} (hone : O.keptAs "1" = .int 1) :
    (∀ id : ArtifactId, (Offers.filed (Names.place id.iri none)).map Name.given =
      some (id.iri, none)) ∧
    (∀ id n, ReadBack id n ↔ Sized id n) ∧
    (∀ (id id' : ArtifactId) (n n' : Option Int),
      Names.place id.iri (n.map toString) = Names.place id'.iri (n'.map toString) →
        id = id' ∧ n = n') ∧
    (∀ steps name, (∀ s ∈ steps, '/' ∉ s.toList) → Offers.filed steps = some name →
      Names.place name.id.iri name.label = steps) ∧
    ∀ states, RunWhere O (Move.Hands O (MadeSized O)) states → ∀ t ∈ states, ∀ id n,
      t.Keeps O id n → ReadBack id n := by
  refine ⟨?_, readBack_iff, ?_, fun steps name hsteps h => Offers.place_filed h hsteps, ?_⟩
  · intro id
    have hread : Name.read? (Names.written id.iri none) = some (.whole id) :=
      Name.read?_written (.whole id)
    rw [Offers.filed_place id.grammar, hread]
    rfl
  · intro id id' n n' hplace
    obtain ⟨hiri, hlabel⟩ := Names.place_inj id.grammar id'.grammar hplace
    exact ⟨ArtifactId.ext' hiri, Option.map_injective (fun _ _ => Names.toString_int_inj) hlabel⟩
  · intro states h t ht id n hkeeps
    exact (readBack_iff id n).mpr (RunWhere.sized hone h t ht id n hkeeps)

namespace Sample

theorem keptAs_one : outside.keptAs "1" = .int 1 := by
  have hone : "1".toInt? = some 1 := Nat.toInt?_repr 1
  simp only [outside, hone]

end Sample

namespace Defining

def type : ArtifactId := ⟨"https://kb.io/e", by decide⟩
def version : Version := ⟨type, 1, Nat.one_pos, by decide⟩

def defining : List Operation :=
  [.create type Start.METASCHEMA_VERSION "T" [] { tree := .map [(.text "schema", .map [])] } []]

def defined : Tables :=
  (Sample.landedFrom (Sample.store []) defining 1 (Sample.store [])).toOption.getD {}

end Defining

open Defining in
/-- The version a set makes of a type it defines is kept, and read back. -/
theorem places_read_back_defined : defined.Keeps Sample.outside type (.int 1) ∧ ReadBack type
    (.int 1) := by
  obtain ⟨hstart, hlands, hmakes, hrow⟩ : (Sample.ran []).isSome = true ∧
      (Sample.landedFrom (Sample.store []) defining 1 (Sample.store [])).toOption.isSome = true ∧
      (∀ d ∈ (Drafting.drafted Sample.outside (Sample.store []) defining).toOption, ∀ c ∈ d.handed,
        c.artifact = type ∧ ∀ made ∈ c.version, made.number = "1") ∧
      (defined.typeVersions.any fun r => r.type = type ∧ r.number = "1") = true := by
    decide +kernel
  obtain ⟨t', ht'⟩ := Option.isSome_iff_exists.mp hlands
  have hdefined : defined = t' := by rw [defined, ht', Option.getD_some]
  obtain ⟨d, entries, hd, hentries, hlanded⟩ := Sample.landedFrom_ok (Sample.toOption_some ht')
  have hrun : RunWhere Sample.outside (Move.Hands Sample.outside (MadeSized Sample.outside))
      [t', Sample.store []] := by
    refine .step (Sample.start_where hstart)
      ⟨.underLock defining (List.replicate d.changes.length 1) Sample.signed,
      fun d' hd' c hc made hmade => ?_, .underLock (by decide) hd ⟨entries, hentries, hlanded⟩⟩
    obtain ⟨hartifact, hnumber⟩ := hmakes d' (by rw [hd']; rfl) c hc
    rw [hartifact, hnumber made hmade]
    exact ⟨1, Sample.keptAs_one, Nat.one_pos, version.short⟩
  obtain ⟨r, hr, hkept⟩ := List.any_eq_true.mp hrow
  obtain ⟨htype, hnumber⟩ := of_decide_eq_true hkept
  have hkeeps : defined.Keeps Sample.outside type (.int 1) :=
    ⟨r, hr, htype, hnumber ▸ Sample.keptAs_one⟩
  obtain ⟨_, _, _, _, hruns⟩ := places_read_back Sample.keptAs_one
  exact ⟨hkeeps, hruns _ hrun _ (hdefined ▸ List.mem_cons_self) _ _ hkeeps⟩

/-! ## A version whose number is too big, and one whose IRI is too long -/

namespace Overgrown

def type : ArtifactId := ⟨"https://kb.io/q", by decide⟩

/-- A version of a type at the first number past those SQLite keeps whole. -/
def filed : Artifact :=
  ⟨type, Start.METASCHEMA_VERSION, 1, "T",
    [(.text "version", .scalar (.int (2 ^ 63))), (.text "schema", .map [])]⟩

/-- The sample's outside, where one text is that of the file, and the number is kept as a float. -/
def outside : Outside :=
  { Sample.outside with
    load := fun text => if text = "filed" then .ok (.map filed.whole) else .error "not read"
    dump := fun entries => if entries = filed.whole then .ok "filed"
      else Sample.outside.dump entries
    keptAs := fun text => if text = "9223372036854775808" then .float "9.223372036854776e+18"
      else Sample.outside.keptAs text }

def directory : List File := [⟨["kb.io", "q@9223372036854775808.yaml"], .ok "filed"⟩]

def started : Tables := (Start.started outside "role" "execution" 0).toOption.getD {}

def clock : Nat → Int := fun _ => 1

/-- The store the import of the file leads to. -/
def imported : Tables :=
  ((Importing.imported outside started directory Sample.signed false clock clock).toOption.map
    Prod.snd).getD {}

theorem imported_run
    (hstarted : (Start.started outside "role" "execution" 0).toOption.isSome = true)
    (himported :
      (Importing.imported outside started directory Sample.signed false clock
        clock).toOption.isSome = true) :
    Run outside [imported, started] := by
  obtain ⟨t, ht⟩ := Option.isSome_iff_exists.mp hstarted
  obtain ⟨⟨report, t'⟩, ht'⟩ := Option.isSome_iff_exists.mp himported
  have hstart : started = t := by rw [started, ht, Option.getD_some]
  have hleft : imported = t' := by rw [imported, ht', Option.map_some, Option.getD_some]
  rw [hstart] at ht' ⊢
  rw [hleft]
  exact .step (.start ⟨"role", "execution", 0, Sample.toOption_some ht⟩) ⟨_, trivial,
    .imported (Sample.toOption_some ht')⟩

/-- An IRI one short of the longest, whose versions' are longer than that. -/
def longest : List (List Char) := ["kb.io".toList, List.replicate 248 'a', List.replicate 248 'b']

theorem length_longest : (Names.address longest).length = 511 := by
  rw [Names.address, String.length_ofList]
  simp only [longest, List.intercalate, List.intersperse, List.flatten_cons, List.flatten_nil,
    List.length_append, List.length_cons, List.length_nil, List.length_replicate]
  decide

theorem slashless_longest : ∀ p ∈ longest, '/' ∉ p := by
  simp only [longest, List.forall_mem_cons, List.mem_replicate]
  decide

theorem longest_iri : Names.iri (Names.address longest) = true := by
  have hpieces : Names.pieces (Names.address longest) = longest :=
    Names.pieces_address (List.cons_ne_nil _ _) slashless_longest
  refine Names.iri_iff.mpr ⟨?_, ?_, ?_, ?_⟩
  · rw [length_longest]
    decide
  · rw [Names.address, String.toList_ofList]
    exact List.isPrefixOf_iff_prefix.mpr (List.prefix_append ..)
  · rw [hpieces]
    decide
  · rw [hpieces]
    decide +kernel

theorem kept_float : outside.keptAs "9223372036854775808" = .float "9.223372036854776e+18" := by
  simp [outside]

end Overgrown

open Overgrown in
/-- A store keeps the version a file brings at such a number, and it is not read back of its place
or its IRI; nor is the first version of a type whose IRI, which may be held, is as long as one may
be. -/
theorem places_not_read_back :
    (∃ states, Run outside states ∧ ∃ t ∈ states, ∃ n, t.Keeps outside type n ∧ ¬ ReadBack type n) ∧
      ∃ id : ArtifactId, id.iri.length ≤ Names.LONGEST ∧ ¬ ReadBack id (.int 1) := by
  constructor
  · obtain ⟨hstarted, himported, hrow⟩ :
        (Start.started outside "role" "execution" 0).toOption.isSome = true ∧
        (Importing.imported outside started directory Sample.signed false clock
          clock).toOption.isSome = true ∧
        (imported.typeVersions.any fun r => r.type = type ∧ r.number = "9223372036854775808") =
            true := by
      decide +kernel
    obtain ⟨r, hr, hkept⟩ := List.any_eq_true.mp hrow
    obtain ⟨htype, hnumber⟩ := of_decide_eq_true hkept
    refine ⟨_, imported_run hstarted himported, imported, List.mem_cons_self,
      .float "9.223372036854776e+18",
      ⟨r, hr, htype, hnumber ▸ kept_float⟩, ?_⟩
    rintro hread
    obtain ⟨k, hk, _⟩ := (readBack_iff _ _).mp hread
    cases hk
  · refine ⟨⟨_, longest_iri⟩, (Names.iri_iff.mp longest_iri).1, ?_⟩
    intro hread
    obtain ⟨k, hk, _, hlength⟩ := (readBack_iff _ _).mp hread
    have hk : (1 : Int) = k := Scalar.int.inj hk
    have hone : (toString (1 : Int)).toList.length = 1 := by decide
    rw [← hk, Names.versioned, ← String.length_toList, Names.toList_labelled, List.length_append,
      List.length_cons, hone, String.length_toList, length_longest] at hlength
    exact absurd hlength (by decide)

end Kb
