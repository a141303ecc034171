/-
# `Kb.Told` — a link is told the same wherever it is told

An artifact's links are told apart in five places, each over a list of its own: all it carries,
those that can be read, those handed with kb's own before them, the rows kept, and of these the
waiting, sorted by where they land.  How a link is told is its key and how many alike come before it
(`toldFrom_eq`), so what is left out and what is moved makes no difference so long as links alike
are left out together and keep their order.  A row keeps the text of a field's name, so it tells a
link as the link itself is told just where the name is text: links that wait are known everywhere as
the very same just when each stands in such a field (`heldWaiting_iff`).
-/
import Kb.Derived
import Kb.Lib.Repeats

namespace Kb

open Landing Raising

/-! ## How a link is told -/

/-- A key and how many alike come before it, as a link is told. -/
def Told.of (e : Key × Nat) : Option Told :=
  e.1.2.1.map fun holder => ⟨e.1.1, holder, e.1.2.2.1, e.1.2.2.2, e.2⟩

theorem Told.of_inj {e f : Key × Nat} {told : Told} (he : Told.of e = some told)
    (hf : Told.of f = some told) : e = f := by
  obtain ⟨⟨field, holder, target, part⟩, n⟩ := e
  obtain ⟨⟨field', holder', target', part'⟩, n'⟩ := f
  obtain ⟨h, rfl, he⟩ := Option.map_eq_some_iff.mp he
  obtain ⟨h', rfl, hf⟩ := Option.map_eq_some_iff.mp hf
  cases he.trans hf.symm
  rfl

theorem toldFrom_eq (seen keys : List Key) :
    toldFrom seen keys = (Repeats.numberedFrom seen keys).map Told.of := by
  induction keys generalizing seen with
  | nil => rfl
  | cons key keys ih =>
      rw [toldFrom, Repeats.numberedFrom, List.map_cons, ih]
      rfl

theorem toldFrom_nil (keys : List Key) : toldFrom [] keys = (Repeats.numbered keys).map Told.of :=
  toldFrom_eq [] keys

theorem length_toldFrom (keys : List Key) : (toldFrom [] keys).length = keys.length := by
  rw [toldFrom_nil, List.length_map, Repeats.length_numbered]

/-- Links told from something are each told from every other. -/
theorem toldFrom_nodup (keys : List Key) : (toldFrom [] keys).reduceOption.Nodup := by
  rw [toldFrom_nil, List.reduceOption, List.filterMap_map]
  exact (Repeats.numbered_nodup keys).filterMap fun e f told he hf => Told.of_inj he hf

/-- A link is told the same in two lists that hold the links like it in the same order. -/
theorem toldFrom_alike {α : Type} [DecidableEq α] {key : α → Key} {xs ys : List α} (hxs : xs.Nodup)
    (hys : ys.Nodup) {i j : Nat} {x : α} (hi : xs[i]? = some x) (hj : ys[j]? = some x)
    (halike : (xs.filter fun y => key y == key x) = ys.filter fun y => key y == key x) :
    (toldFrom [] (xs.map key))[i]? = (toldFrom [] (ys.map key))[j]? := by
  rw [toldFrom_nil, toldFrom_nil, List.getElem?_map, List.getElem?_map,
    Repeats.numbered_alike hxs hys hi hj halike]

/-! ## Some of a list, in another order -/

/-- Entries taken from a list by a test that links alike meet together, those alike in the order
they had. -/
structure Retaken {α : Type} (key : α → Key) (before : α → α → Prop) (test : α → Bool)
    (xs ys : List α) : Prop where
  taken : List.Perm ys (xs.filter test)
  kept : ys.Pairwise fun a b => key a = key b → before a b

section

variable {α : Type} {key : α → Key} {before : α → α → Prop} {test : α → Bool} {xs ys : List α}

/-- Where one before another is never after it, the entries taken that are like one are all those
like it. -/
theorem Retaken.alike (h : Retaken key before test xs ys) (hxs : xs.Pairwise before)
    (hbefore : ∀ a b, before a b → ¬ before b a) (htest : ∀ a b, key a = key b → test a = test b)
    {x : α} (hx : x ∈ ys) :
    (xs.filter fun y => key y == key x) = ys.filter fun y => key y == key x := by
  have hmet : test x = true := (List.mem_filter.mp (h.taken.mem_iff.mp hx)).2
  have hperm :
      List.Perm (xs.filter fun y => key y == key x) (ys.filter fun y => key y == key x) := by
    have htaken := (h.taken.filter fun y => key y == key x).symm
    rw [List.filter_filter] at htaken
    refine List.Perm.trans (List.Perm.of_eq ?_) htaken
    refine List.filter_congr fun y _ => ?_
    by_cases hy : key y = key x
    · rw [htest y x hy, hmet, Bool.and_true]
    · rw [beq_false_of_ne hy, Bool.false_and]
  have hantisymm : ∀ a b, a ∈ xs.filter (fun y => key y == key x) →
      b ∈ ys.filter (fun y => key y == key x) →
      before a b → before b a → a = b := fun a b _ _ hab hba => absurd hba (hbefore a b hab)
  refine hperm.eq_of_pairwise hantisymm (hxs.filter _) ?_
  have hkept := h.kept.filter fun y => key y == key x
  refine hkept.imp_of_mem fun {a b} ha hb hab => hab ?_
  rw [eq_of_beq (List.mem_filter.mp ha).2, eq_of_beq (List.mem_filter.mp hb).2]

variable [DecidableEq α]

/-- What is taken is told as it was. -/
theorem Retaken.told_eq (h : Retaken key before test xs ys) (hxs : xs.Pairwise before)
    (hbefore : ∀ a b, before a b → ¬ before b a) (htest : ∀ a b, key a = key b → test a = test b)
    {i j : Nat} {x : α} (hi : xs[i]? = some x) (hj : ys[j]? = some x) :
    (toldFrom [] (xs.map key))[i]? = (toldFrom [] (ys.map key))[j]? := by
  have hnodup : xs.Nodup := hxs.imp fun {a b} hab => by
    rintro rfl
    exact hbefore a a hab hab
  exact toldFrom_alike hnodup (h.taken.nodup_iff.mpr (hnodup.filter _)) hi hj
    (h.alike hxs hbefore htest (List.mem_of_getElem? hj))

/-- An entry is told by something the taken are told by just when it is taken. -/
theorem Retaken.mem_told (h : Retaken key before test xs ys) (hxs : xs.Pairwise before)
    (hbefore : ∀ a b, before a b → ¬ before b a) (htest : ∀ a b, key a = key b → test a = test b)
    {i : Nat} {x : α} (hi : xs[i]? = some x) {told : Told}
    (htold : (toldFrom [] (xs.map key))[i]? = some (some told)) :
    told ∈ (toldFrom [] (ys.map key)).reduceOption ↔ test x = true := by
  rw [List.reduceOption_mem_iff]
  constructor
  · intro hmem
    obtain ⟨j, hj⟩ := List.mem_iff_getElem?.mp hmem
    have hlt : j < ys.length := by
      have := (List.getElem?_eq_some_iff.mp hj).1
      rwa [length_toldFrom, List.length_map] at this
    have hy : ys[j]? = some ys[j] := List.getElem?_eq_getElem hlt
    obtain ⟨hmemx, hmet⟩ := List.mem_filter.mp (h.taken.mem_iff.mp (List.mem_of_getElem? hy))
    obtain ⟨k, hk⟩ := List.mem_iff_getElem?.mp hmemx
    -- the one taken that is told so has the key of the one it is told of
    have hsame : (toldFrom [] (xs.map key))[k]? = some (some told) :=
      (h.told_eq hxs hbefore htest hk hy).trans hj
    rw [toldFrom_nil, List.getElem?_map, Repeats.getElem?_numbered,
      List.getElem?_map] at htold hsame
    rw [hi] at htold
    rw [hk] at hsame
    have hkeys := congrArg Prod.fst (Told.of_inj (Option.some.inj hsame) (Option.some.inj htold))
    rw [← htest _ _ hkeys]
    exact hmet
  · intro hmet
    have hmem : x ∈ ys := h.taken.mem_iff.mpr (List.mem_filter.mpr ⟨List.mem_of_getElem? hi, hmet⟩)
    obtain ⟨j, hj⟩ := List.mem_iff_getElem?.mp hmem
    exact List.mem_of_getElem? ((h.told_eq hxs hbefore htest hi hj).symm.trans htold)

end

/-- Links taken from a list by a test on where they land, each with where it stood, those alike in
the order they had. -/
def Relinked (test : ArtifactId → String → Bool) (links : List Link) (some : List (Link × Nat)) :
    Prop :=
  Retaken (fun e => e.1.key) (fun a b => a.2 < b.2)
    (fun e => test e.1.target e.1.part) links.zipIdx some

theorem zipIdx_ascending {α : Type} (xs : List α) (n : Nat) :
    (xs.zipIdx n).Pairwise fun a b => a.2 < b.2 := by
  have h : ((xs.zipIdx n).map Prod.snd).Pairwise (· < ·) := by
    rw [List.zipIdx_map_snd]
    exact List.pairwise_lt_range'
  exact List.pairwise_map.mp h

/-- Links taken from a list are each told as the whole list tells them. -/
theorem told_taken {test : ArtifactId → String → Bool} {links : List Link}
    {taken : List (Link × Nat)} (h : Relinked test links taken) :
    told (taken.map Prod.fst) = taken.map fun e => (told links)[e.2]?.join := by
  refine List.ext_getElem? fun j => ?_
  rw [told, List.map_map, List.getElem?_map]
  cases hj : taken[j]? with
  | none =>
      rw [Option.map_none, List.getElem?_eq_none_iff, length_toldFrom, List.length_map]
      exact List.getElem?_eq_none_iff.mp hj
  | some e =>
      have hmem := (List.mem_filter.mp (h.taken.mem_iff.mp (List.mem_of_getElem? hj))).1
      have hi : links.zipIdx[e.2]? = some e := by
        have hlink : links[e.2]? = some e.1 := List.mem_zipIdx_iff_getElem?.mp hmem
        rw [List.getElem?_zipIdx, hlink, Option.map_some, Nat.zero_add]
      have htest : ∀ a b : Link × Nat, a.1.key = b.1.key →
          test a.1.target a.1.part = test b.1.target b.1.part := by
        intro a b hab
        rw [show a.1.target = b.1.target from congrArg (fun k => k.2.2.1) hab,
          show a.1.part = b.1.part from congrArg (fun k => k.2.2.2) hab]
      have hkeys : links.zipIdx.map (fun e => e.1.key) = links.map Link.key := by
        rw [← List.zipIdx_map_fst 0 links, List.map_map, List.zipIdx_map_fst]
        rfl
      have htold := h.told_eq (zipIdx_ascending links 0) (fun _ _ => Nat.lt_asymm) htest hi hj
      rw [hkeys] at htold
      have hlt : e.2 < (told links).length := by
        rw [told, length_toldFrom, List.length_map]
        exact (List.getElem?_eq_some_iff.mp (List.mem_zipIdx_iff_getElem?.mp hmem)).1
      rw [Option.map_some]
      show (toldFrom [] (taken.map fun e => e.1.key))[j]? = _
      rw [← htold]
      show (told links)[e.2]? = _
      rw [List.getElem?_eq_getElem hlt]
      rfl

/-! ## Links read, handed and landed -/

namespace Links

theorem toldOf_go (read : List (Option Link)) (asTold : List (Option Told))
    (hlength : read.reduceOption.length = asTold.length) :
    (read.zip (toldOf.go read asTold)).filterMap (fun e => e.1.map fun link => (link, e.2)) =
      read.reduceOption.zip asTold ∧
      (toldOf.go read asTold).length = read.length ∧ ∀ e ∈ read.zip (toldOf.go read asTold),
        e.1 = none → e.2 = none := by
  induction read generalizing asTold with
  | nil =>
      refine ⟨rfl, rfl, ?_⟩
      intro e he
      cases he
  | cons link read ih =>
      cases link with
      | none =>
          obtain ⟨hpaired, hsame, hnone⟩ := ih asTold hlength
          refine ⟨hpaired, congrArg Nat.succ hsame, ?_⟩
          intro e he hlink
          rcases List.mem_cons.mp he with rfl | he
          · rfl
          · exact hnone e he hlink
      | some link =>
          cases asTold with
          | nil => cases hlength
          | cons first asTold =>
              obtain ⟨hpaired, hsame, hnone⟩ := ih asTold (Nat.succ.inj hlength)
              refine ⟨congrArg (List.cons (link, first)) hpaired, congrArg Nat.succ hsame, ?_⟩
              intro e he hlink
              rcases List.mem_cons.mp he with rfl | he
              · cases hlink
              · exact hnone e he hlink

/-- Each link that can be read is told as among those that can, and one that cannot is told from
nothing. -/
theorem toldOf_read (read : List (Option Link)) :
    (read.zip (toldOf read)).filterMap (fun e => e.1.map fun link => (link, e.2)) =
      read.reduceOption.zip (told read.reduceOption) ∧
      (toldOf read).length = read.length ∧ ∀ e ∈ read.zip (toldOf read), e.1 = none →
        e.2 = none := by
  refine toldOf_go read _ ?_
  rw [told, length_toldFrom, List.length_map]

/-- The links handed are kb's own and those read, each keyed as it was read, and waiting when it is
told by what waited. -/
theorem handed_told {O : Outside} {corpus : Corpus} {a : Artifact} {schema : Value}
    {waited : List Told} {links : List Link} (h : handed O corpus a schema waited = .ok links) :
    ∃ found read own, carried O corpus a.whole schema = .ok found ∧
      found.mapM Links.read = .ok read ∧
      links = implicitTo a.kind :: own ∧ own.map Link.key = read.reduceOption.map Link.key ∧
      own.map Link.waits = (told read.reduceOption).map fun asTold =>
        asTold.any waited.contains := by
  obtain ⟨found, hfound, h⟩ := bind_ok.mp h
  obtain ⟨read, hread, h⟩ := bind_ok.mp h
  have hlength : (told read.reduceOption).length = read.reduceOption.length := by
    rw [told, length_toldFrom, List.length_map]
  refine ⟨found, read, _, hfound, hread, (Except.ok.inj h).symm, ?_, ?_⟩
  · rw [List.map_map]
    conv_rhs => rw [← List.map_fst_zip (Nat.le_of_eq hlength.symm), List.map_map]
    rfl
  · rw [List.map_map]
    conv_rhs => rw [← List.map_snd_zip (Nat.le_of_eq hlength), List.map_map]
    refine List.map_congr_left ?_
    rintro ⟨link, asTold⟩ _
    cases asTold with
    | none => rfl
    | some told => rfl

end Links

/-- A link handed after kb's own lands as it does told among the links handed alone. -/
theorem lands_told (t : Tables) (kind : Kind) (own : List Link) (waited : List Told)
    {i : Nat} {link : Link} (hi : own[i]? = some link) :
    Landing.lands t link (told (Links.implicitTo kind :: own))[i + 1]?.join waited =
      Landing.lands t link (told own)[i]?.join waited := by
  by_cases hpart : link.part = ""
  · unfold Landing.lands
    cases t.row? link.target with
    | none => rfl
    | some row => simp [hpart]
  · refine congrArg (fun asTold => Landing.lands t link asTold waited) ?_
    rw [told, told, toldFrom_nil, toldFrom_nil, List.getElem?_map, List.getElem?_map,
      Repeats.getElem?_numbered, Repeats.getElem?_numbered, List.map_cons, List.getElem?_cons_succ,
      List.getElem?_map, hi]
    have hother : (Links.implicitTo kind).key ≠ link.key := by
      intro heq
      exact hpart (congrArg (fun k => k.2.2.2) heq).symm
    rw [Option.map_some, Option.map_some, List.take_succ_cons, List.count_cons_of_ne hother,
      Option.map_some, Option.map_some, Option.map_some]

/-! ## The rows kept, and those that wait -/

namespace Tables

/-- Whether nothing held is where a link names: its target not held, or a part its held target
lacks. -/
def nowhere (t : Tables) (target : ArtifactId) (part : String) : Bool :=
  t.holds target = false ∨ part ≠ "" ∧ part ∉ t.partsOf target

/-- The rows of the links an artifact carries, in the order it carries them: all it holds but kb's
own. -/
def ownOf (t : Tables) (id : ArtifactId) : List LinkRow :=
  (t.linksOf id).filter fun r => r.implicit = false

theorem waits_eq (t : Tables) (r : LinkRow) :
    t.waits r = (decide (r.implicit = false) && t.nowhere r.target r.part) := by
  rw [waits, nowhere, Bool.decide_and, Bool.decide_or]

/-- The rows of each artifact's links stand in the order it handed them. -/
def Ranked (t : Tables) : Prop := ∀ id, (t.linksOf id).Pairwise fun r s => r.ordinal < s.ordinal

theorem linkRows_ascending (c : Change) :
    (linkRows c).Pairwise fun r s => r.ordinal < s.ordinal := by
  unfold linkRows
  split
  · exact List.Pairwise.nil
  · exact List.pairwise_map.mpr (zipIdx_ascending c.links 0)

theorem Ranked.wrote {t : Tables} (h : t.Ranked) (landed step : Nat) (c : Change) :
    (t.wrote landed step c).Ranked := by
  intro id
  rw [linksOf_wrote]
  split
  · exact linkRows_ascending c
  · exact h id

/-- A link's key as its row gives it. -/
def rowKey (l : Link) : Key := (.text (l.field.column.getD ""), l.holder, l.target, l.part)

theorem rowKey_text {l : Link} (h : ∃ name, l.field = .text name) : rowKey l = l.key := by
  obtain ⟨name, h⟩ := h
  rw [rowKey, Link.key, h]
  rfl

theorem linkRows_map {c : Change} (h : c.content.isSome = true) :
    linkRows c = c.links.zipIdx.map fun (l, ordinal) =>
      ⟨c.artifact, ordinal, l.field.column.getD "", l.place, l.target, l.part, l.implicit,
        l.holder⟩ := by
  have hsome : ¬ c.content.isNone = true := by
    rw [Option.isNone_iff_eq_none, ← Option.not_isSome_iff_eq_none, h]
    exact fun hn => hn rfl
  rw [linkRows, if_neg hsome]

/-- The rows of a change's links are told as the links it hands just where each stands in a field
named by text. -/
theorem linkRows_keys {c : Change} (h : c.content.isSome = true) :
    (linkRows c).map (fun r => (linking r).key) = c.links.map Link.key ↔
      ∀ l ∈ c.links, ∃ name, l.field = .text name := by
  have hrows : (linkRows c).map (fun r => (linking r).key) = c.links.map rowKey := by
    rw [linkRows_map h, List.map_map]
    conv_rhs => rw [← List.zipIdx_map_fst 0 c.links, List.map_map]
    rfl
  rw [hrows, List.map_inj_left]
  exact forall₂_congr fun l _ => ⟨fun hkey => ⟨_, (congrArg Prod.fst hkey).symm⟩, rowKey_text⟩

instance : Std.Total byTarget := ⟨fun a b => by
  rcases lt_trichotomy (Names.order a.target.iri) (Names.order b.target.iri) with h | h | h
  · exact Or.inl (Or.inl h)
  · rcases lt_trichotomy (Names.order a.source.iri) (Names.order b.source.iri) with h' | h' | h'
    · exact Or.inl (Or.inr ⟨h, Or.inl h'⟩)
    · rcases Nat.le_total a.ordinal b.ordinal with h'' | h''
      · exact Or.inl (Or.inr ⟨h, Or.inr ⟨h', h''⟩⟩)
      · exact Or.inr (Or.inr ⟨h.symm, Or.inr ⟨h'.symm, h''⟩⟩)
    · exact Or.inr (Or.inr ⟨h.symm, Or.inl h'⟩)
  · exact Or.inr (Or.inl h)⟩

theorem bySource_trans {a b c : LinkRow} (hab : bySource a b) (hbc : bySource b c) :
    bySource a c := by
  rcases hab with hab | ⟨hab, hle⟩
  · rcases hbc with hbc | ⟨hbc, _⟩
    · exact Or.inl (lt_trans hab hbc)
    · exact Or.inl (hbc ▸ hab)
  · rcases hbc with hbc | ⟨hbc, hle'⟩
    · exact Or.inl (hab ▸ hbc)
    · exact Or.inr ⟨hab.trans hbc, Nat.le_trans hle hle'⟩

instance : IsTrans LinkRow byTarget := ⟨fun a b c hab hbc => by
  rcases hab with hab | ⟨hab, hsource⟩
  · rcases hbc with hbc | ⟨hbc, _⟩
    · exact Or.inl (lt_trans hab hbc)
    · exact Or.inl (hbc ▸ hab)
  · rcases hbc with hbc | ⟨hbc, hsource'⟩
    · exact Or.inl (hab ▸ hbc)
    · exact Or.inr ⟨hab.trans hbc, bySource_trans hsource hsource'⟩⟩

/-- The waiting rows of an artifact in any order by where they land are taken from those it carries,
those alike in the order it carries them. -/
theorem Ranked.retaken {t : Tables} (h : t.Ranked) {id : ArtifactId} {rows : List LinkRow}
    (hperm : List.Perm rows ((t.links.filter t.waits).filter fun r => r.source = id))
    (hsorted : rows.Pairwise byTarget) :
    Retaken (fun r => (linking r).key) (fun r s => r.ordinal < s.ordinal)
      (fun r => t.nowhere r.target r.part) (t.ownOf id) rows := by
  have htaken : List.Perm rows ((t.ownOf id).filter fun r => t.nowhere r.target r.part) := by
    refine hperm.trans (List.Perm.of_eq ?_)
    rw [ownOf, linksOf, List.filter_filter, List.filter_filter, List.filter_filter]
    refine List.filter_congr fun r _ => ?_
    rw [waits_eq]
    grind
  have hordinal : ((t.ownOf id).filter fun r => t.nowhere r.target r.part).Pairwise fun r s =>
      r.ordinal ≠ s.ordinal :=
    ((h id).sublist (List.filter_sublist.trans List.filter_sublist)).imp fun hlt => Nat.ne_of_lt hlt
  have hordinal : rows.Pairwise fun r s => r.ordinal ≠ s.ordinal :=
    (htaken.pairwise_iff fun hne heq => hne heq.symm).mpr hordinal
  refine ⟨htaken, (hsorted.and hordinal).imp_of_mem ?_⟩
  intro r s hr hs hrs hkey
  have hsource : ∀ r ∈ rows, r.source = id := fun r hr => by
    simpa using (List.mem_filter.mp (hperm.mem_iff.mp hr)).2
  have htarget : r.target = s.target := congrArg (fun k => k.2.2.1) hkey
  obtain ⟨hby, hne⟩ := hrs
  -- they land alike and one artifact holds them, so where they were handed is all that orders them
  rcases hby with hlt | ⟨_, hlt | ⟨_, hle⟩⟩
  · rw [htarget] at hlt
    exact absurd hlt (lt_irrefl _)
  · rw [hsource r hr, hsource s hs] at hlt
    exact absurd hlt (lt_irrefl _)
  · exact Nat.lt_of_le_of_ne hle hne

/-- The links of an artifact known as waiting are told as those it carries that land on nothing
held. -/
theorem Ranked.mem_heldWaiting {t : Tables} (h : t.Ranked) {id : ArtifactId} {rows : List LinkRow}
    (hperm : List.Perm rows ((t.links.filter t.waits).filter fun r => r.source = id))
    (hsorted : rows.Pairwise byTarget) {i : Nat} {r : LinkRow} {told : Told}
    (hr : (t.ownOf id)[i]? = some r)
    (htold : (toldFrom [] ((t.ownOf id).map fun r => (linking r).key))[i]? = some (some told)) :
    told ∈ heldWaiting (rows.map linking) ↔ t.nowhere r.target r.part = true := by
  have htest : ∀ r s : LinkRow, (linking r).key = (linking s).key →
      t.nowhere r.target r.part = t.nowhere s.target s.part := by
    intro r s hkey
    rw [show r.target = s.target from congrArg (fun k => k.2.2.1) hkey, show r.part = s.part
      from congrArg (fun k => k.2.2.2) hkey]
  rw [heldWaiting, List.map_map]
  exact (h.retaken hperm hsorted).mem_told ((h id).filter _)
    (fun _ _ => Nat.lt_asymm) htest hr htold

end Tables

theorem Run.ranked {O : Outside} {states : List Tables} (h : Run O states) :
    ∀ t ∈ states, t.Ranked :=
  h.kept (fun _ => List.Pairwise.nil) (fun _ _ _ _ ht => ht) fun _ landed step c ht =>
    ht.wrote landed step c

/-- Links known as waiting, read of a store in either way, are told as those an artifact carries
that wait. -/
theorem Tables.Ranked.known {t : Tables} (h : t.Ranked) {id : ArtifactId} {i : Nat} {r : LinkRow}
    {asTold : Told} (hr : (t.ownOf id)[i]? = some r)
    (htold : (toldFrom [] ((t.ownOf id).map fun r => (Tables.linking r).key))[i]? =
      some (some asTold)) :
    (asTold ∈ heldWaiting (t.waitingOf id) ↔ t.waits r = true) ∧
      (asTold ∈ heldWaiting (t.waiting.filter fun each => each.source = id) ↔
        t.waits r = true) := by
  have himplicit : r.implicit = false := by
    simpa using (List.mem_filter.mp (List.mem_of_getElem? hr)).2
  have hwaits : t.waits r = t.nowhere r.target r.part := by
    rw [Tables.waits_eq, himplicit]
    rfl
  rw [hwaits]
  constructor
  · refine h.mem_heldWaiting ((List.perm_insertionSort _ _).trans (List.Perm.of_eq ?_))
      (List.pairwise_insertionSort _ _) hr htold
    rw [List.filter_filter]
    exact List.filter_congr fun r _ => by grind
  · have hrows : (t.waiting.filter fun each => each.source = id) =
        (((t.links.filter t.waits).insertionSort Tables.byTarget).filter fun r => r.source = id).map
            Tables.linking := by
      rw [Tables.waiting, List.filter_map]
      rfl
    rw [hrows]
    exact h.mem_heldWaiting ((List.perm_insertionSort _ _).filter _)
      ((List.pairwise_insertionSort _ _).filter _) hr htold

/-! ## Links known by the rows that wait -/

section

variable {t : Tables} {c : Change}

/-- The links of an artifact that are not kb's own, in the order a change hands them. -/
def Change.own (c : Change) : List Link := c.links.filter fun l => l.implicit = false

/-- The rows of an artifact that are not kb's own have the keys its links have as rows. -/
theorem ownOf_keys (h : c.content.isSome = true)
    (hrows : t.linksOf c.artifact = Tables.linkRows c) :
    (t.ownOf c.artifact).map (fun r => (Tables.linking r).key) = c.own.map Tables.rowKey := by
  rw [Tables.ownOf, hrows, Tables.linkRows_map h, Change.own]
  generalize c.links = links
  suffices hall :
      ∀ k, ((((links.zipIdx k).map fun (l, ordinal) =>
      (⟨c.artifact, ordinal, l.field.column.getD "", l.place, l.target,
      l.part, l.implicit, l.holder⟩ : LinkRow)).filter fun r => r.implicit = false).map fun r =>
        (Tables.linking r).key) =
        (links.filter fun l => l.implicit = false).map Tables.rowKey from hall 0
  induction links with
  | nil => exact fun _ => rfl
  | cons l links ih =>
      intro k
      rw [List.zipIdx_cons, List.map_cons, List.filter_cons, List.filter_cons]
      by_cases himplicit : l.implicit = false
      · rw [if_pos (decide_eq_true himplicit), if_pos (decide_eq_true himplicit), List.map_cons,
          List.map_cons, ih]
        rfl
      · rw [if_neg (by simpa using himplicit), if_neg (by simpa using himplicit), ih]

/-- What is known as waiting is the row of a link that waits. -/
theorem row_of_heldWaiting {id : ArtifactId} {asTold : Told}
    (h : asTold ∈ heldWaiting (t.waitingOf id)) :
    ∃ r, t.waits r = true ∧ asTold.field = .text r.field ∧ asTold.target = r.target ∧
      asTold.part = r.part := by
  rw [heldWaiting, List.reduceOption_mem_iff, toldFrom_nil] at h
  obtain ⟨e, he, htold⟩ := List.mem_map.mp h
  obtain ⟨i, hi⟩ := List.mem_iff_getElem?.mp he
  rw [Repeats.getElem?_numbered] at hi
  obtain ⟨key, hkey, rfl⟩ := Option.map_eq_some_iff.mp hi
  obtain ⟨l, hl, rfl⟩ := List.mem_map.mp (List.mem_of_getElem? hkey)
  obtain ⟨r, hr, rfl⟩ := List.mem_map.mp hl
  have hmem := (List.mem_filter.mp ((List.perm_insertionSort _ _).mem_iff.mp hr)).2
  obtain ⟨holder, _, rfl⟩ := Option.map_eq_some_iff.mp htold
  have hboth : t.waits r = true ∧ r.source = id := by simpa using hmem
  exact ⟨r, hboth.1, rfl, rfl, rfl⟩

/-- A link that is told from others is told by its key. -/
theorem told_getElem {own : List Link} {i : Nat} {asTold : Told}
    (h : (told own)[i]? = some (some asTold)) :
    ∃ link, own[i]? = some link ∧ Told.of (link.key, ((own.map Link.key).take i).count link.key) =
      some asTold := by
  rw [told, toldFrom_nil, List.getElem?_map, Repeats.getElem?_numbered, List.getElem?_map] at h
  cases hlink : own[i]? with
  | none =>
      rw [hlink] at h
      cases h
  | some link =>
      rw [hlink] at h
      exact ⟨link, rfl, Option.some.inj h⟩

/-- The links of an artifact are known by the rows that wait as they are told just when each of
those that wait, told from others, stands in a field named by text. -/
theorem heldWaiting_iff (hranked : t.Ranked) (h : c.content.isSome = true)
    (hrows : t.linksOf c.artifact = Tables.linkRows c) :
    (∀ (i : Nat) link asTold, c.own[i]? = some link → (told c.own)[i]? = some (some asTold) →
      (asTold ∈ heldWaiting (t.waitingOf c.artifact) ↔ t.nowhere link.target link.part = true)) ↔
    ∀ link ∈ c.own, link.holder.isSome = true → t.nowhere link.target link.part = true →
      ∃ name, link.field = .text name := by
  constructor
  · intro hknown link hlink hholder hnowhere
    obtain ⟨i, hi⟩ := List.mem_iff_getElem?.mp hlink
    obtain ⟨holder, hholder⟩ := Option.isSome_iff_exists.mp hholder
    have htold : (told c.own)[i]? = some (some ⟨link.field, holder, link.target, link.part,
        ((c.own.map Link.key).take i).count link.key⟩) := by
      rw [told, toldFrom_nil, List.getElem?_map, Repeats.getElem?_numbered, List.getElem?_map, hi]
      simp only [Option.map_some, Told.of, Link.key, hholder]
    obtain ⟨r, _, hfield, _⟩ := row_of_heldWaiting ((hknown i link _ hi htold).mpr hnowhere)
    exact ⟨r.field, hfield⟩
  · intro hnamed i link asTold hi htold
    obtain ⟨link', hi', hof⟩ := told_getElem htold
    cases hi.symm.trans hi'
    obtain ⟨holder, hholder, hasTold⟩ := Option.map_eq_some_iff.mp hof
    have htarget : asTold.target = link.target ∧ asTold.part = link.part := by
      rw [← hasTold]
      exact ⟨rfl, rfl⟩
    constructor
    · intro hknown
      obtain ⟨r, hwaits, _, hr, hrpart⟩ := row_of_heldWaiting hknown
      rw [Tables.waits_eq, Bool.and_eq_true, ← hr, ← hrpart, htarget.1, htarget.2] at hwaits
      exact hwaits.2
    · intro hnowhere
      have hkeyed : ∀ l ∈ c.own, (Tables.rowKey l = link.key ↔ l.key = link.key) := by
        -- links that land where this one does wait as it does, so each of them has a name that is
        -- text
        have htext : ∀ l ∈ c.own, l.holder = link.holder → l.target = link.target →
            l.part = link.part →
            ∃ name, l.field = .text name := by
          intro l hl hh ht hp
          refine hnamed l hl ?_ (by rw [ht, hp]; exact hnowhere)
          rw [hh]
          exact Option.isSome_iff_exists.mpr ⟨holder, hholder⟩
        intro l hl
        constructor
        · intro hkey
          rw [← Tables.rowKey_text
            (htext l hl (congrArg (fun k => k.2.1) hkey) (congrArg (fun k => k.2.2.1) hkey)
            (congrArg (fun k => k.2.2.2) hkey))]
          exact hkey
        · intro hkey
          rw [Tables.rowKey_text
            (htext l hl (congrArg (fun k => k.2.1) hkey) (congrArg (fun k => k.2.2.1) hkey)
            (congrArg (fun k => k.2.2.2) hkey))]
          exact hkey
      have hcount : ((c.own.map Tables.rowKey).take i).count link.key =
          ((c.own.map Link.key).take i).count link.key := by
        rw [← List.map_take, ← List.map_take, List.count_eq_length_filter,
          List.count_eq_length_filter, List.filter_map, List.filter_map, List.length_map,
          List.length_map]
        refine congrArg List.length (List.filter_congr fun l hl => ?_)
        have hiff := hkeyed l (List.mem_of_mem_take hl)
        by_cases hkey : l.key = link.key
        · simp [hkey, hiff.mpr hkey]
        · simp [hkey, mt hiff.mp hkey]
      have hlen : (t.ownOf c.artifact).length = c.own.length := by
        have := congrArg List.length (ownOf_keys h hrows)
        rwa [List.length_map, List.length_map] at this
      have hlt : i < (t.ownOf c.artifact).length := by
        rw [hlen]
        exact (List.getElem?_eq_some_iff.mp hi).1
      have hr : (t.ownOf c.artifact)[i]? = some (t.ownOf c.artifact)[i] :=
        List.getElem?_eq_getElem hlt
      have hrowKey : Tables.rowKey link = link.key :=
        (hkeyed link (List.mem_of_getElem? hi)).mpr rfl
      have hrtold : (toldFrom [] ((t.ownOf c.artifact).map fun r => (Tables.linking r).key))[i]? =
          some (some asTold) := by
        rw [ownOf_keys h hrows, toldFrom_nil, List.getElem?_map, Repeats.getElem?_numbered,
          List.getElem?_map, hi, Option.map_some, Option.map_some, Option.map_some,
          hrowKey, hcount, hof]
      refine (hranked.known hr hrtold).1.mpr ?_
      have hkey := congrArg (fun ks : List Key => ks[i]?) (ownOf_keys h hrows)
      simp only [List.getElem?_map, hr, hi, Option.map_some, Option.some.injEq] at hkey
      have himplicit : (t.ownOf c.artifact)[i].implicit = false := by
        simpa using (List.mem_filter.mp (List.mem_of_getElem? hr)).2
      rw [Tables.waits_eq, himplicit]
      have hrtarget : (t.ownOf c.artifact)[i].target = link.target :=
        congrArg (fun k => k.2.2.1) hkey
      have hrpart : (t.ownOf c.artifact)[i].part = link.part := congrArg (fun k => k.2.2.2) hkey
      rw [hrtarget, hrpart, hnowhere]
      rfl

end

/-- Links are told apart the same way everywhere their fields are named by text.  No two of a list
are told alike; links taken from a list by where they land, those alike in their order, are told as
the list tells them; and the check of links, the links handed and the port's check of them tell them
alike.  The rows a set leaves of an artifact are its last change's; they are told as its links just
where each stands in a field named by text; and the rows that wait know the links of the artifact
that wait just where each of those, told from others, does. -/
theorem links_told_alike {O : Outside} {states : List Tables} (h : Run O states) {t : Tables}
    (ht : t ∈ states) :
    (∀ links : List Link, (told links).reduceOption.Nodup) ∧
    (∀ test links taken, Relinked test links taken → told (taken.map Prod.fst) = taken.map fun e =>
      (told links)[e.2]?.join) ∧
    (∀ corpus a schema waited links, Links.handed O corpus a schema waited = .ok links →
      ∃ found read own, Links.carried O corpus a.whole schema = .ok found ∧
        found.mapM Links.read = .ok read ∧
        links = Links.implicitTo a.kind :: own ∧
        (read.zip (Links.toldOf read)).filterMap (fun e => e.1.map fun link => (link, e.2)) =
          read.reduceOption.zip (told own) ∧
        (∀ e ∈ read.zip (Links.toldOf read), e.1 = none → e.2 = none) ∧
        own.map Link.waits = (told own).map (fun asTold => asTold.any waited.contains) ∧
        ∀ (i : Nat) link, own[i]? = some link → ∀ left waiting,
          lands left link (told links)[i + 1]?.join waiting = lands left link
            (told own)[i]?.join waiting) ∧
    (∀ changes entries t', Landing.landed t changes entries = .ok t' →
      ∀ id c, lastTo id changes = some c →
      t'.linksOf id = Tables.linkRows c) ∧
    (∀ c : Change, c.content.isSome = true →
      ((Tables.linkRows c).map (fun r => (Tables.linking r).key) = c.links.map Link.key ↔
      ∀ l ∈ c.links, ∃ name, l.field = .text name)) ∧
    (∀ id (i : Nat) r asTold, (t.ownOf id)[i]? = some r →
      (toldFrom [] ((t.ownOf id).map fun r => (Tables.linking r).key))[i]? = some (some asTold) →
        (asTold ∈ heldWaiting (t.waitingOf id) ↔ t.waits r = true) ∧
        (asTold ∈ heldWaiting (t.waiting.filter fun each => each.source = id) ↔ t.waits r = true)) ∧
    ∀ c : Change, c.content.isSome = true → t.linksOf c.artifact = Tables.linkRows c →
      ((∀ (i : Nat) link asTold, c.own[i]? = some link → (told c.own)[i]? = some (some asTold) →
        (asTold ∈ heldWaiting (t.waitingOf c.artifact) ↔ t.nowhere link.target link.part = true)) ↔
      ∀ link ∈ c.own, link.holder.isSome = true → t.nowhere link.target link.part = true →
        ∃ name, link.field = .text name) := by
  refine ⟨fun links => toldFrom_nodup _, fun test links taken => told_taken, ?_,
    fun changes entries t' hlanded id c hlast => ?_,
    fun c => Tables.linkRows_keys, fun id i r asTold hr htold => (h.ranked t ht).known hr htold,
    fun c hcontent hrows => heldWaiting_iff (h.ranked t ht) hcontent hrows⟩
  · intro corpus a schema waited links hhanded
    obtain ⟨found, read, own, hfound, hread, rfl, hkeys, hwaits⟩ := Links.handed_told hhanded
    have hsame : told own = told read.reduceOption := by
      rw [told, told, hkeys]
    obtain ⟨hpaired, _, hnone⟩ := Links.toldOf_read read
    refine ⟨found, read, own, hfound, hread, rfl, ?_, hnone, ?_, fun i link hi left waiting =>
      lands_told left a.kind own waiting hi⟩
    · rw [hsame]
      exact hpaired
    · rw [hsame]
      exact hwaits
  · obtain ⟨left, hwritten, _, _, rfl⟩ := ((landed_iff _ _ _ _).mp hlanded).written
    have hlinks := hwritten.linksOf_last id
    rw [List.zipIdx_map_fst, hlast] at hlinks
    exact hlinks

/-! ## Two links alike that wait -/

namespace Waiting

def type : ArtifactId := ⟨"https://kb.io/r", by decide⟩
def note : ArtifactId := ⟨"https://kb.io/r/a", by decide⟩
def version : Version := ⟨type, 1, Nat.one_pos, by decide⟩

def schema : Value :=
  .map [(.text "properties",
    .map [(.text "see",
    .map [(.text "type", .text "array"), (.text "items", .map [(.text "type", .text "string")]),
    (.text "ref", .map [(.text "targets", .list [.text type.iri]),
      (.text "cardinality", .text "many"), (.text "parts", .bool true),
      (.text "on_delete", .text "refuse")])])])]

def defining : Operation :=
  .create type Start.METASCHEMA_VERSION "T" [] { tree := .map [(.text "schema", schema)] } []

/-- A note that names one IRI of its type twice, where nothing is held. -/
def creating : Operation :=
  .create note version "A" []
    { tree := .map [(.text "see", .list [.text "https://kb.io/r/b", .text "https://kb.io/r/b"])] }
    []

def sets : List (List Operation) := [[creating], [defining]]

theorem asked : ∀ operations ∈ sets, ∀ op ∈ operations, op.asked = true := by
  intro operations hoperations op hop
  rcases List.mem_cons.mp hoperations with rfl | hoperations
  · rw [List.mem_singleton.mp hop]
    rfl
  · rw [List.mem_singleton.mp hoperations] at hop
    rw [List.mem_singleton.mp hop]
    rfl

/-- The second of the note's links, as it is told. -/
def second : Told := ⟨"see", "", ⟨"https://kb.io/r/b", by decide⟩, "", 1⟩

def row : LinkRow := ⟨note, 2, "see", "see/1", ⟨"https://kb.io/r/b", by decide⟩, "", false, some ""⟩

/-- A type whose links stand in a field named by a number. -/
def numbered : Operation :=
  .create type Start.METASCHEMA_VERSION "T" []
    { tree := .map [(.text "schema",
      .map [(.text "properties", .map [(.int 1, .map [(.text "ref", .map [(.text "targets",
      .list [.text type.iri]), (.text "cardinality", .text "one"), (.text "parts", .bool true),
      (.text "on_delete", .text "refuse")])])])])] } []

/-- A note that names an IRI of that type, where nothing is held. -/
def counting : Operation :=
  .create note version "A" [] { tree := .map [(.int 1, .text "https://kb.io/r/b")] } []

def numberedSets : List (List Operation) := [[counting], [numbered]]

theorem numbered_asked : ∀ operations ∈ numberedSets, ∀ op ∈ operations, op.asked = true := by
  intro operations hoperations op hop
  rcases List.mem_cons.mp hoperations with rfl | hoperations
  · rw [List.mem_singleton.mp hop]
    rfl
  · rw [List.mem_singleton.mp hoperations] at hop
    rw [List.mem_singleton.mp hop]
    rfl

def carried : Links.Carried :=
  { field := .int 1, place := "1", target := .text "https://kb.io/r/b",
    ref := .map [(.text "targets", .list [.text type.iri]), (.text "cardinality", .text "one"),
      (.text "parts", .bool true),
      (.text "on_delete", .text "refuse")] }

/-- The note as it is kept. -/
def kept : Artifact := ⟨note, version, 1, "A", [(.int 1, .text "https://kb.io/r/b")]⟩

/-- The note's link as it is told where it is carried. -/
def seen : Told := ⟨.int 1, "", ⟨"https://kb.io/r/b", by decide⟩, "", 0⟩

end Waiting

open Waiting in
/-- A link held waiting in a field named by a number is told one way by the row of it and another
where it is carried: it is not known as waiting. -/
theorem links_told_apart : ∃ states, Run Sample.outside states ∧ ∃ t ∈ states, ∃ read,
    t.artifact note = some kept ∧
      Composition.conformed t.corpus kept >>= Artifact.schema >>=
        Links.carried Sample.outside t.corpus kept.whole = .ok [carried] ∧
      Links.read carried = .ok (some read) ∧ told [read] = [some seen] ∧
      t.nowhere read.target read.part = true ∧
      seen ∉ heldWaiting (t.waitingOf note) := by
  obtain ⟨hran, hsome, hheld, hcarried, hread, htold, hwaits, hnot⟩ :
      (Sample.ran numberedSets).isSome = true ∧
      (Sample.stores numberedSets).isEmpty = false ∧
      (Sample.store numberedSets).artifact note = some kept ∧
      (Composition.conformed (Sample.store numberedSets).corpus kept >>= Artifact.schema >>=
        Links.carried Sample.outside (Sample.store numberedSets).corpus kept.whole).toOption =
          some [carried] ∧
      (Links.read carried).toOption =
        some (some ⟨.int 1, "1", ⟨"https://kb.io/r/b", by decide⟩, "", [.text type.iri], false,
        none, false, some "", false⟩) ∧
      told [(⟨.int 1, "1", ⟨"https://kb.io/r/b", by decide⟩, "", [.text type.iri], false, none,
        false, some "", false⟩ : Link)] = [some seen] ∧
      (Sample.store numberedSets).nowhere ⟨"https://kb.io/r/b", by decide⟩ "" = true ∧
      seen ∉ heldWaiting ((Sample.store numberedSets).waitingOf note) := by
    decide +kernel
  exact ⟨_, Sample.stores_run numbered_asked hran, _, Sample.store_mem hsome, _, hheld,
    Sample.toOption_some hcarried,
    Sample.toOption_some hread, htold, hwaits, hnot⟩

open Waiting in
/-- The second of two links alike is known as waiting by how it is told. -/
theorem links_told_alike_twice : second ∈ heldWaiting ((Sample.store sets).waitingOf note) := by
  obtain ⟨hran, hsome, hrow, htold, hwaits⟩ : (Sample.ran sets).isSome = true ∧
      (Sample.stores sets).isEmpty = false ∧
      ((Sample.store sets).ownOf note)[1]? = some row ∧
      (toldFrom [] (((Sample.store sets).ownOf note).map fun r => (Tables.linking r).key))[1]? =
        some (some second) ∧
      (Sample.store sets).waits row = true := by
    decide +kernel
  obtain ⟨_, _, _, _, _, hknown, _⟩ :=
    links_told_alike (Sample.stores_run asked hran) (Sample.store_mem hsome)
  exact (hknown note 1 row second hrow htold).1.mpr hwaits

end Kb
