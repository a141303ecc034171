/-
# `Kb.BuiltOn` — building on types ends

A type is refused when its schema names its own type by a whole `kb:` reference, and nothing looks
further: two types made in one set name each other's versions, both are held as the set leaves the
types, and every reading through either runs until it is out of depth.  So the versions a store
keeps end in no circle just when no set closes one.  What a set leaves of the versions kept can be
told from what it hands (`rowsLeft`), and a set is grounded when no version it makes comes back to
itself there.
-/
import Kb.Ending
import Kb.Run

namespace Kb

open Landing Raising Relation Founded Kb.Composition

/-! ## The versions kept, built on one another -/

/-- A version among those kept names another where a reading of it goes on, at any depth. -/
def BuiltOn (rows : List TypeVersionRow) (r r' : TypeVersionRow) : Prop :=
  r ∈ rows ∧ r' ∈ rows ∧ ∃ schema v, r.content.schema = .ok schema ∧ Reads schema v ∧
    r'.id = Names.labelled v.kind.iri (Scalar.int v.number).str

/-- The versions kept after a change. -/
def rowsAfter (rows : List TypeVersionRow) (c : Change) : List TypeVersionRow :=
  (if c.content.isNone then rows.filter fun r => r.type ≠ c.artifact else rows) ++
    Tables.typeVersionRows c

/-- The versions kept after a set. -/
def rowsLeft (rows : List TypeVersionRow) (changes : List Change) : List TypeVersionRow :=
  changes.foldl rowsAfter rows

/-- No version a set makes comes back to itself by the versions the set leaves. -/
def Grounded (rows : List TypeVersionRow) (changes : List Change) : Prop :=
  ∀ c ∈ changes, ∀ r ∈ Tables.typeVersionRows c, ¬ TransGen (BuiltOn (rowsLeft rows changes)) r r

/-- A move whose set, as it is drafted, is grounded on the store it moves. -/
def Move.Grounded (O : Outside) (t : Tables) (_past : List Tables) : Move → Prop
  | .asDrafted operations on _ _ _ =>
      ∀ d, Drafting.drafted O on operations = .ok d → Kb.Grounded t.typeVersions d.handed
  | .torn operations on _ _ _ =>
      ∀ d, Drafting.drafted O on (operations.map fun p => p.1.unsaid) = .ok d →
      Kb.Grounded t.typeVersions d.handed
  | .underLock operations _ _ =>
      ∀ d, Drafting.drafted O t operations = .ok d → Kb.Grounded t.typeVersions d.handed
  | .imported directory _ _ _ _ => ∀ operations, Importing.brings O t directory = .ok operations →
      ∀ d, Drafting.drafted O t operations = .ok d → Kb.Grounded t.typeVersions d.handed
  | .recorded .. => True

theorem mem_rowsLeft {rows : List TypeVersionRow} {changes : List Change} {r : TypeVersionRow}
    (h : r ∈ rowsLeft rows changes) :
    r ∈ rows ∨ ∃ c ∈ changes, r ∈ Tables.typeVersionRows c := by
  induction changes generalizing rows with
  | nil => exact Or.inl h
  | cons c changes ih =>
      have hrest : r ∈ rowsLeft (rowsAfter rows c) changes := h
      rcases ih hrest with h | ⟨c', hc', h⟩
      · rcases List.mem_append.mp h with h | h
        · left
          split at h
          · exact (List.mem_filter.mp h).1
          · exact h
        · exact Or.inr ⟨c, List.mem_cons_self, h⟩
      · exact Or.inr ⟨c', List.mem_cons_of_mem _ hc', h⟩

/-- A set leaves no infinite path among the versions kept, where there was none, just when it is
grounded. -/
theorem ends_rowsLeft {rows : List TypeVersionRow} (hrows : Ends (BuiltOn rows))
    (changes : List Change) :
    Ends (BuiltOn (rowsLeft rows changes)) ↔ Grounded rows changes := by
  constructor
  · intro h c _ r _
    exact h.no_return r
  · intro h
    refine hrows.grown (fun r => r ∈ rows) (changes.flatMap Tables.typeVersionRows) ?_ ?_ ?_
    · rintro r r' hr hr' ⟨_, _, hnames⟩
      exact ⟨hr, hr', hnames⟩
    · rintro r r' ⟨hr, _⟩
      exact (mem_rowsLeft hr).imp_right List.mem_flatMap.mpr
    · intro r hr
      obtain ⟨c, hc, hr⟩ := List.mem_flatMap.mp hr
      exact h c hc r hr

namespace Landing

theorem Written.typeVersions_eq {landed : Nat} {t t' : Tables} {cs : List (Change × Nat)}
    (h : Written landed t cs t') :
    t'.typeVersions = rowsLeft t.typeVersions (cs.map Prod.fst) := by
  induction h with
  | nil => rfl
  | cons _ _ _ ih =>
      rw [ih]
      rfl

theorem Lands.typeVersions_eq {t t' : Tables} {changes : List Change} {entries : List Entry}
    (h : Lands t changes entries t') :
    t'.typeVersions = rowsLeft t.typeVersions changes := by
  obtain ⟨left, hwritten, _, _, rfl⟩ := h.written
  have hleft := hwritten.typeVersions_eq
  rwa [List.zipIdx_map_fst] at hleft

end Landing

/-! ## Runs of grounded moves -/

/-- The type of types is built on nothing. -/
theorem own_metaschema :
    own Start.METASCHEMA_SCHEMA = [] ∧ named Start.METASCHEMA_SCHEMA = none := by decide

theorem Fresh.ends {O : Outside} {t : Tables} (h : Fresh O t) : Ends (BuiltOn t.typeVersions) := by
  obtain ⟨_, _, _, _, _, hlands⟩ := h.landed
  have hrows := hlands.typeVersions_eq
  rintro ⟨path, hpath⟩
  obtain ⟨hmem, _, schema, v, hschema, hreads, _⟩ := hpath 0
  rw [hrows] at hmem
  have hrow : (path 0).content = Start.METASCHEMA := by
    rw [List.mem_singleton.mp hmem]
  rw [hrow] at hschema
  cases hschema
  have hnamed := hreads.of_bare own_metaschema.1
  rw [own_metaschema.2] at hnamed
  cases hnamed

theorem Move.Makes.ends {O : Outside} {t t' : Tables} {past : List Tables} {move : Move}
    (h : Move.Makes O t past move t') (hmove : move.Grounded O t past)
    (ht : Ends (BuiltOn t.typeVersions)) : Ends (BuiltOn t'.typeVersions) := by
  have hhands : move.Hands O (fun t changes => Kb.Grounded t.typeVersions changes) t past := by
    cases move <;> exact hmove
  rcases h.hands hhands nofun with rfl | ⟨changes, entries, hlands, hgrounded⟩
  · exact ht
  · rw [hlands.typeVersions_eq]
    exact (ends_rowsLeft ht changes).mpr hgrounded

namespace Building

variable {O : Outside}

/-- Where no path among the versions kept is infinite, none leads from a schema through what the
store reads it by. -/
theorem acc_leads {t : Tables} (h : Ends (BuiltOn t.typeVersions)) (schema : Value) :
    Acc (fun b a => Leads (children t.corpus) a b) schema := by
  have hkept : ∀ {v : Version} {found : TypeVersion}, kept t.corpus v.kind v.number = some found →
      ∃ r ∈ t.typeVersions, r.id = Names.labelled v.kind.iri (Scalar.int v.number).str ∧
          r.content = found.content := by
    intro v found hfound
    unfold kept at hfound
    split at hfound
    · obtain ⟨r, hr, hfound⟩ := Option.map_eq_some_iff.mp hfound
      refine ⟨r, List.mem_of_find?_eq_some hr, by simpa using List.find?_some hr, ?_⟩
      rw [← hfound]
    · cases hfound
  have hrows : ∀ r ∈ t.typeVersions, ∀ s, r.content.schema = .ok s →
      Acc (fun b a => Leads (children t.corpus) a b) s := by
    intro r
    induction r using (ends_iff.mp h).induction with
    | _ r ih =>
        intro hr s hs
        refine acc_of_reads fun v hreads found hfound s' hs' => ?_
        obtain ⟨r', hr', hid, hcontent⟩ := hkept hfound
        exact ih r' ⟨hr, hr', s, v, hs, hreads, hid⟩ hr' s' (hcontent ▸ hs')
  refine acc_of_reads fun v _ found hfound s hs => ?_
  obtain ⟨r, hr, _, hcontent⟩ := hkept hfound
  exact hrows r hr s (hcontent ▸ hs)

theorem ends {states : List Tables} (h : RunWhere O (Move.Grounded O) states) :
    ∀ t ∈ states, Ends (BuiltOn t.typeVersions) :=
  History.Run.invariant (fun _ hs => Fresh.ends hs)
    (fun _ _ _ _ hpast ⟨_, hallowed, hmove⟩ => hmove.ends hallowed (hpast _ List.mem_cons_self)) h

/-- Building on types ends: in every store of a run whose sets are all grounded, no path among the
versions kept is infinite, and from some bound on every version is read through what it is built on
without running out: its composition, what it declares, the shapes of its collections, and the links
of any content. -/
theorem building_ends {states : List Tables} (h : RunWhere O (Move.Grounded O) states) :
    ∀ t ∈ states,
    Ends (BuiltOn t.typeVersions) ∧
    ∀ r ∈ t.typeVersions, ∀ schema, r.content.schema = .ok schema → ∃ n, ∀ k, n ≤ k →
      Ended (composition t.corpus k schema) ∧
      Ended (declared { O with depth := k } t.corpus schema) ∧
      Ended (Validation.collections { O with depth := k } t.corpus k schema) ∧
      ∀ content, sizeOf content < k →
          Ended (Links.carried { O with depth := k } t.corpus content schema) := by
  intro t ht
  have hends := ends h t ht
  exact ⟨hends, fun _ _ schema _ => readings_end (acc_leads hends schema) O⟩

/-! ## Two types made in one set -/

open Sample

def first : ArtifactId := ⟨"https://kb.io/x", by decide⟩
def second : ArtifactId := ⟨"https://kb.io/y", by decide⟩

/-- A schema built on a version of a type. -/
def on (ref : String) : Value := .map [(.text "$ref", .text ref)]

def defining (name : ArtifactId) (schema : Value) : Operation :=
  .create name Start.METASCHEMA_VERSION "T" [] { tree := .map [(.text "schema", schema)] } []

/-- A type, and one built on it. -/
def line : List Operation := [defining first (.map []), defining second (on "kb:https://kb.io/x@1")]

/-- Two types each built on the other. -/
def circle : List Operation :=
  [defining first (on "kb:https://kb.io/y@1"), defining second (on "kb:https://kb.io/x@1")]

def firstVersion : Version := ⟨first, 1, Nat.one_pos, by decide⟩
def secondVersion : Version := ⟨second, 1, Nat.one_pos, by decide⟩

theorem names_first : own (on "kb:https://kb.io/x@1") = [] ∧ named
    (on "kb:https://kb.io/x@1") = some firstVersion := by
  decide

theorem names_second : own (on "kb:https://kb.io/y@1") = [] ∧ named
    (on "kb:https://kb.io/y@1") = some secondVersion := by
  decide

theorem refers_first :
    reference "kb:https://kb.io/x@1" = some ⟨some firstVersion, true⟩ := by decide

theorem refers_second :
    reference "kb:https://kb.io/y@1" = some ⟨some secondVersion, true⟩ := by decide

theorem line_asked : ∀ op ∈ line, op.asked = true := by decide

theorem circle_asked : ∀ operations ∈ [circle], ∀ op ∈ operations, op.asked = true := by decide

/-- A version among those a line leaves names another only as the second names the first. -/
def InLine (rows : List TypeVersionRow) : Prop :=
  ∀ r ∈ rows, ∃ s, r.content.schema = .ok s ∧ own s = [] ∧
    (named s = none ∨ r.id = secondVersion.str ∧ named s = some firstVersion)

theorem grounded_of_inLine {rows : List TypeVersionRow} {changes : List Change}
    (h : InLine (rowsLeft rows changes)) :
    Grounded rows changes := by
  have hstep : ∀ {r r'}, BuiltOn (rowsLeft rows changes) r r' → r.id = secondVersion.str ∧
      r'.id = firstVersion.str := by
    rintro r r' ⟨hr, _, schema, v, hschema, hreads, hid⟩
    obtain ⟨s, hs, hown, hnamed⟩ := h r hr
    cases hschema.symm.trans hs
    have hv := hreads.of_bare hown
    rcases hnamed with hnone | ⟨hsecond, hfirst⟩
    · rw [hnone] at hv
      cases hv
    · rw [hfirst] at hv
      cases hv
      exact ⟨hsecond, hid⟩
  intro c _ r _ hreturn
  obtain ⟨r', hr, _⟩ := TransGen.head'_iff.mp hreturn
  obtain ⟨r'', _, hr'⟩ := TransGen.tail'_iff.mp hreturn
  have hne : firstVersion.str ≠ secondVersion.str := by decide
  exact hne ((hstep hr').2.symm.trans (hstep hr).1)

/-- A composition that follows a reference to where it runs out, runs out. -/
theorem composition_on {corpus : Corpus} {depth : Nat} {ref : String} {version : Option Version}
    {s : Value} {e : Error} (href : reference ref = some ⟨version, true⟩)
    (hs : typeSchema corpus ref = .ok s) (h : composition corpus depth s = .error e) :
    composition corpus (depth + 1) (on ref) = .error e := by
  have hget : (on ref).get "$ref" .null = .ok (.text ref) := by
    simp [on, Value.get, Dict.get?, Assoc.get]
  have hallOf : (on ref).get "allOf" (.list []) = .ok (.list []) := by
    simp [on, Value.get, Dict.get?, Assoc.get]
  have hmembers : (Value.list []).iter = .ok [] := rfl
  simp only [composition, hallOf, hget, hmembers, List.mapM_nil, bind, Except.bind, pure,
    Except.pure, href, hs, h]

/-- The store the line leaves. -/
def lined : Tables := (landedFrom (store []) line 1 (store [])).toOption.getD {}

/-- A type and one built on it, made in one set: no path among the versions kept is infinite, and
the second is read through the first at every bound from some bound on. -/
theorem building_ends_line :
    Ends (BuiltOn lined.typeVersions) ∧ ∃ r ∈ lined.typeVersions, r.id = secondVersion.str ∧
      ∃ n, ∀ k, n ≤ k → Ended (composition lined.corpus k (on "kb:https://kb.io/x@1")) := by
  obtain ⟨hstart, hlands, hinLine, hrow⟩ :
      (ran []).isSome = true ∧ (landedFrom (store []) line 1 (store [])).toOption.isSome = true ∧
        (∀ r ∈ lined.typeVersions, ∃ s ∈ r.content.schema.toOption, own s = [] ∧
          (named s = none ∨ r.id = secondVersion.str ∧ named s = some firstVersion)) ∧
        (∃ r ∈ lined.typeVersions, r.id = secondVersion.str ∧
          r.content.schema.toOption = some (on "kb:https://kb.io/x@1")) := by
    decide +kernel
  obtain ⟨t', ht'⟩ := Option.isSome_iff_exists.mp hlands
  have hlined : lined = t' := by rw [lined, ht', Option.getD_some]
  obtain ⟨d, entries, hd, hentries, hlanded⟩ := landedFrom_ok (toOption_some ht')
  have hgrounded : ∀ d', Drafting.drafted outside (store []) line = .ok d' →
      Grounded (store []).typeVersions d'.handed := by
    intro d' hd'
    cases hd.symm.trans hd'
    refine grounded_of_inLine fun r hr => ?_
    rw [← ((landed_iff ..).mp hlanded).typeVersions_eq, ← hlined] at hr
    obtain ⟨s, hs, hline⟩ := hinLine r hr
    exact ⟨s, toOption_some hs, hline⟩
  have hrun : RunWhere outside (Move.Grounded outside) [t', store []] := by
    refine .step (start_where hstart) ⟨.underLock line (List.replicate d.changes.length 1) signed,
      hgrounded, ?_⟩
    exact .underLock line_asked hd ⟨entries, hentries, hlanded⟩
  obtain ⟨hends, hreads⟩ := building_ends hrun t' List.mem_cons_self
  rw [hlined] at hrow ⊢
  obtain ⟨r, hr, hid, hschema⟩ := hrow
  obtain ⟨n, hn⟩ := hreads r hr _ (toOption_some hschema)
  exact ⟨hends, r, hr, hid, n, fun k hk => (hn k hk).1⟩

/-- Two types made in one set, each built on the other: the set lands, a path among the versions
kept is infinite, and no depth is enough for the composition of either. -/
theorem building_ends_circle :
    Run outside (stores [circle]) ∧ store [circle] ∈ stores [circle] ∧ ¬ Ends
      (BuiltOn (store [circle]).typeVersions) ∧
      ∃ r ∈ (store [circle]).typeVersions, ∃ schema, r.content.schema = .ok schema ∧
        ∀ k, composition (store [circle]).corpus k schema = .error .tooDeep := by
  obtain ⟨hran, hstores, hrows, hresolved⟩ :
      (ran [circle]).isSome = true ∧ (stores [circle]).isEmpty = false ∧
        (∃ r ∈ (store [circle]).typeVersions, ∃ r' ∈ (store [circle]).typeVersions,
          r.content.schema.toOption = some (on "kb:https://kb.io/y@1") ∧ r.id = firstVersion.str ∧
          r'.content.schema.toOption = some (on "kb:https://kb.io/x@1") ∧
          r'.id = secondVersion.str) ∧
        (typeSchema (store [circle]).corpus "kb:https://kb.io/y@1").toOption =
          some (on "kb:https://kb.io/x@1") ∧
        (typeSchema (store [circle]).corpus "kb:https://kb.io/x@1").toOption =
            some (on "kb:https://kb.io/y@1") := by
    decide +kernel
  obtain ⟨r, hr, r', hr', hschema, hid, hschema', hid'⟩ := hrows
  have hschema := toOption_some hschema
  have hschema' := toOption_some hschema'
  refine ⟨stores_run circle_asked hran, store_mem hstores, fun hends => ?_, r, hr, _, hschema, ?_⟩
  · refine hends.no_return r
      (.tail (.single ⟨hr, hr', _, secondVersion, hschema, ⟨_, .refl, names_second.2⟩, hid'⟩) ?_)
    exact ⟨hr', hr, _, firstVersion, hschema', ⟨_, .refl, names_first.2⟩, hid⟩
  · have hboth : ∀ k, composition (store [circle]).corpus k (on "kb:https://kb.io/y@1") =
        .error .tooDeep ∧
        composition (store [circle]).corpus k (on "kb:https://kb.io/x@1") = .error .tooDeep := by
      intro k
      induction k with
      | zero => exact ⟨rfl, rfl⟩
      | succ k ih =>
          exact ⟨composition_on refers_second (toOption_some hresolved.1) ih.2,
            composition_on refers_first (toOption_some hresolved.2) ih.1⟩
    exact fun k => (hboth k).1

end Building

end Kb
