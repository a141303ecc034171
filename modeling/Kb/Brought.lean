/-
# `Kb.Brought` — what an import lands

An import that lands something lands one set, drafted on the store it found: an import of each file
that has no error, is not passed over and is not held already.  What the examination settles of such
a file, whatever else it finds, is `Brought`: its place and what it holds say one name, and where
the store holds something at that name, it is a type at a lower revision, of which it keeps no such
version.
-/
import Kb.Importing
import Kb.Sets

namespace Kb

open Raising

/-- A file's artifact as an import lands it, the store being `t`. -/
structure Brought (O : Outside) (t : Tables) (name : Name) (a : Artifact) : Prop where
  id : a.id = name.id
  other : name.id ≠ Skipping.METASCHEMA_ID
  typed : a.typed = name.number.isSome
  number : ∀ n, name.number = some n → ∃ v, a.get? "version" = some v ∧ v.equals (.int n) = true
  unheld : t.holds name.id = true → Comparing.held O t name = .ok none
  inStep : t.holds name.id = true → Comparing.outOfStep O t name a = .ok false

/-- What a file brings where the store holds something is a version of a type, at a revision above
the one the type stands at. -/
theorem Brought.above {O : Outside} {t : Tables} {name : Name} {a : Artifact}
    (h : Brought O t name a) (hheld : t.holds name.id = true) :
    ∃ standing, t.artifact name.id = some standing ∧ standing.revision < a.revision := by
  have hstep := h.inStep hheld
  unfold Comparing.outOfStep at hstep
  split at hstep
  · nomatch hstep
  next standing hstanding =>
  split at hstep
  · nomatch hstep
  obtain ⟨version, _, hstep⟩ := bind_ok.mp hstep
  obtain ⟨less, _, hstep⟩ := bind_ok.mp hstep
  cases less with
  | true => nomatch hstep
  | false =>
      have hle : decide (a.revision ≤ standing.revision) = false := Except.ok.inj hstep
      exact ⟨standing, hstanding, by simpa using hle⟩

namespace Importing

variable {O : Outside} {t : Tables}

/-! ## The files, whatever errors they are found to have -/

/-- A file as another pass leaves it: the same, but for its errors, of which it loses none. -/
def Keeps (o o' : Offered) : Prop := ∃ errors, o' = { o with errors := o.errors ++ errors }

theorem Keeps.refl (o : Offered) : Keeps o o := ⟨[], by simp⟩

theorem Keeps.trans {o o' o'' : Offered} (h : Keeps o o') (h' : Keeps o' o'') : Keeps o o'' := by
  obtain ⟨errors, rfl⟩ := h
  obtain ⟨errors', rfl⟩ := h'
  exact ⟨errors ++ errors', by simp⟩

/-- Every file of one list is a file of another, with the errors found since. -/
def Kept (offered offered' : List Offered) : Prop := ∀ o' ∈ offered', ∃ o ∈ offered, Keeps o o'

theorem mem_adding {offered : List Offered} {file : String} {errors : List Fault} {o' : Offered}
    (h : o' ∈ adding offered file errors) :
    ∃ o ∈ offered, Keeps o o' ∧ (o'.errors = [] → errors ≠ [] → o' = o ∧ o.file ≠ file) := by
  obtain ⟨o, ho, rfl⟩ := List.mem_map.mp h
  refine ⟨o, ho, ?_⟩
  split
  · exact ⟨⟨errors, rfl⟩, fun hnil hne => absurd (List.append_eq_nil_iff.mp hnil).2 hne⟩
  · next hfile => exact ⟨.refl o, fun _ _ => ⟨rfl, hfile⟩⟩

/-- The files of one list, in their order, with the errors found since. -/
def Since (offered offered' : List Offered) : Prop := List.Forall₂ Keeps offered offered'

theorem Since.refl (offered : List Offered) : Since offered offered := by
  induction offered with
  | nil => exact .nil
  | cons o offered ih => exact .cons (.refl o) ih

theorem Since.trans {a b c : List Offered} (h : Since a b) (h' : Since b c) : Since a c := by
  unfold Since at *
  induction h generalizing c with
  | nil => exact h'
  | cons hk _ ih =>
      cases h' with
      | cons hk' h' => exact .cons (hk.trans hk') (ih h')

theorem Since.kept {a b : List Offered} (h : Since a b) : Kept a b :=
  fun _ ho => forall₂_of_mem_right h ho

theorem since_adding (offered : List Offered) (file : String) (errors : List Fault) :
    Since offered (adding offered file errors) := by
  induction offered with
  | nil => exact .nil
  | cons o offered ih =>
      refine .cons ?_ ih
      show Keeps o (if o.file = file then { o with errors := o.errors ++ errors } else o)
      split
      · exact ⟨errors, rfl⟩
      · exact .refl o

theorem since_judged {d : Draft} {found : List (Name × Artifact × List Fault)}
    {placed : List (ArtifactId × List Fault)} {names : List Name} {offered out : List Offered}
    (h : judged O t d found placed names offered = .ok out) :
    Since offered out := by
  induction names generalizing offered with
  | nil =>
      cases h
      exact .refl _
  | cons name rest ih =>
      unfold judged at h
      split at h
      · exact ih h
      · obtain ⟨faults, _, h⟩ := bind_ok.mp h
        exact (since_adding _ _ _).trans (ih h)

theorem since_linksJudged {lost : List (ArtifactId × List String)} {landing : Draft}
    {read : List (Name × Artifact)} {offered : List Offered} {waiting : List (String × List String)}
    {out : List Offered × List (String × List String)}
    (h : linksJudged O lost landing read offered waiting = .ok out) : Since offered out.1 := by
  induction read generalizing offered waiting with
  | nil =>
      cases h
      exact .refl _
  | cons each rest ih =>
      obtain ⟨name, a⟩ := each
      simp only [linksJudged] at h
      split at h
      · exact ih h
      · obtain ⟨links, _, h⟩ := bind_ok.mp h
        obtain ⟨led, _, h⟩ := bind_ok.mp h
        split at h <;>
          · obtain ⟨waiting, _, h⟩ := bind_ok.mp h
            exact (since_adding _ _ _).trans (ih h)

/-! ## Files compared -/

/-- What comparing one file adds to those found before it. -/
theorem compared_step {found out : List Name × List Offered} {o : Offered}
    (h : (match o.name, o.artifact with
      | some name, some a =>
          if !t.holds name.id then .ok found else do
            if ← Comparing.differs O t name a then return (found.1, found.2 ++ [o])
            return if (← Comparing.held O t name).isSome
              then (found.1 ++ [name], found.2) else found
      | _, _ => .ok found : Raises (List Name × List Offered)) = .ok out) :
    found.1 ⊆ out.1 ∧ found.2 ⊆ out.2 ∧ ∀ name a, o.name = some name → o.artifact = some a →
      t.holds name.id = true →
      Comparing.differs O t name a = .ok true ∧ o ∈ out.2 ∨
        Comparing.differs O t name a = .ok false ∧
            (Comparing.held O t name = .ok none ∨ name ∈ out.1) := by
  rcases hname : o.name with _ | name
  · rw [hname] at h
    cases h
    exact ⟨List.Subset.refl _, List.Subset.refl _, nofun⟩
  rcases ha : o.artifact with _ | a
  · rw [hname, ha] at h
    cases h
    exact ⟨List.Subset.refl _, List.Subset.refl _, nofun⟩
  simp only [hname, ha] at h
  split at h
  · next hheld =>
      cases h
      refine ⟨List.Subset.refl _, List.Subset.refl _, ?_⟩
      rintro _ _ ⟨⟩ ⟨⟩ ht
      simp [ht] at hheld
  · obtain ⟨differs, hdiffers, h⟩ := bind_ok.mp h
    cases differs with
    | true =>
        cases h
        refine ⟨List.Subset.refl _, List.subset_append_left _ _, ?_⟩
        rintro _ _ ⟨⟩ ⟨⟩ _
        exact Or.inl ⟨hdiffers, by simp⟩
    | false =>
        obtain ⟨held, hheld, h⟩ := bind_ok.mp h
        have hout : out = if held.isSome then (found.1 ++ [name], found.2) else found :=
          (Except.ok.inj h).symm
        rcases held with _ | held
        · subst hout
          refine ⟨List.Subset.refl _, List.Subset.refl _, ?_⟩
          rintro _ _ ⟨⟩ ⟨⟩ _
          exact Or.inr ⟨hdiffers, Or.inl hheld⟩
        · subst hout
          refine ⟨List.subset_append_left _ _, List.Subset.refl _, ?_⟩
          rintro _ _ ⟨⟩ ⟨⟩ _
          exact Or.inr ⟨hdiffers, Or.inr (by simp)⟩

/-- Of files compared, one at an IRI the store holds something at is among those that differ, or
does not differ; and then it is among those held when the store keeps what it names. -/
theorem compared_ok {offered : List Offered} {out : List Name × List Offered}
    (h : Comparing.compared O t offered = .ok out) {o : Offered} (ho : o ∈ offered) {name : Name}
    {a : Artifact} (hname : o.name = some name) (ha : o.artifact = some a)
    (hheld : t.holds name.id = true) :
    Comparing.differs O t name a = .ok true ∧ o ∈ out.2 ∨
      Comparing.differs O t name a = .ok false ∧
        (Comparing.held O t name = .ok none ∨ name ∈ out.1) := by
  have hfold : ∀ (offered : List Offered) (found out : List Name × List Offered),
      offered.foldlM (fun (found : List Name × List Offered) each =>
        (match each.name, each.artifact with
        | some name, some a =>
            if !t.holds name.id then .ok found else do
              if ← Comparing.differs O t name a then return (found.1, found.2 ++ [each])
              return if (← Comparing.held O t name).isSome
                then (found.1 ++ [name], found.2) else found
        | _, _ => .ok found : Raises (List Name × List Offered))) found = .ok out →
      (found.1 ⊆ out.1 ∧ found.2 ⊆ out.2) ∧ (o ∈ offered →
        Comparing.differs O t name a = .ok true ∧ o ∈ out.2 ∨
          Comparing.differs O t name a = .ok false ∧
              (Comparing.held O t name = .ok none ∨ name ∈ out.1)) := by
    intro offered
    induction offered with
    | nil =>
        intro found out h
        cases h
        exact ⟨⟨List.Subset.refl _, List.Subset.refl _⟩, nofun⟩
    | cons each rest ih =>
        intro found out h
        rw [List.foldlM_cons] at h
        obtain ⟨mid, hmid, h⟩ := bind_ok.mp h
        obtain ⟨hsub₁, hsub₂, heach⟩ := compared_step hmid
        obtain ⟨⟨hsub₁', hsub₂'⟩, hrest⟩ := ih mid out h
        refine ⟨⟨List.Subset.trans hsub₁ hsub₁', List.Subset.trans hsub₂ hsub₂'⟩, fun ho => ?_⟩
        rcases List.mem_cons.mp ho with rfl | ho
        · rcases heach name a hname ha hheld with ⟨hd, h⟩ | ⟨hd, h | h⟩
          · exact Or.inl ⟨hd, hsub₂' h⟩
          · exact Or.inr ⟨hd, Or.inl h⟩
          · exact Or.inr ⟨hd, Or.inr (hsub₁' h)⟩
        · exact hrest ho
  exact (hfold offered ([], []) out h).2 ho

/-! ## The import -/

/-- A file offered, as it was read at its place. -/
def ReadAt (O : Outside) (o : Offered) : Prop :=
  ∃ f errors, o = { Offers.read O f with errors := (Offers.read O f).errors ++ errors }

theorem readAt_offered {directory : List File} {o : Offered} (h : o ∈ Offers.offered O directory) :
    ReadAt O o := by
  obtain ⟨f, _, rfl⟩ := List.mem_map.mp h
  exact ⟨f, [], by simp⟩

theorem ReadAt.keeps {o o' : Offered} (h : ReadAt O o) (hk : Keeps o o') : ReadAt O o' := by
  obtain ⟨f, errors, rfl⟩ := h
  obtain ⟨errors', rfl⟩ := hk
  exact ⟨f, errors ++ errors', by simp⟩

/-- An artifact read at a place is the one the place names. -/
theorem placed_ok {name : Option Name} {loaded : Value} {a : Artifact}
    (h : Offers.placed name loaded = .ok a) :
    ∃ n, name = some n ∧ a.id = n.id ∧ a.typed = n.number.isSome ∧
      ∀ k, n.number = some k → ∃ v, a.get? "version" = some v ∧ v.equals (.int k) = true := by
  unfold Offers.placed at h
  split at h
  · nomatch h
  next n =>
  split at h
  · nomatch h
  next b _ =>
  split at h
  · nomatch h
  next hid =>
  simp only at h
  rcases hn : n.number with _ | k
  · simp only [hn] at h
    split at h
    · next ht =>
        cases h
        exact ⟨n, rfl, by simpa using hid, by simpa [hn] using ht, by simp [hn]⟩
    · nomatch h
  · simp only [hn] at h
    split at h
    · next ht =>
        cases h
        simp only [Bool.and_eq_true] at ht
        refine ⟨n, rfl, by simpa using hid, by simp [hn, ht.1], ?_⟩
        rintro _ e
        cases hn.symm.trans e
        rcases hv : a.get? "version" with _ | v
        · simp [hv] at ht
        · exact ⟨v, rfl, by simpa [hv] using ht.2⟩
    · nomatch h

theorem ReadAt.artifact {o : Offered} (h : ReadAt O o) {name : Name} {a : Artifact}
    (hname : o.name = some name) (ha : o.artifact = some a) :
    a.id = name.id ∧ a.typed = name.number.isSome ∧
      ∀ k, name.number = some k → ∃ v, a.get? "version" = some v ∧ v.equals (.int k) = true := by
  obtain ⟨f, errors, rfl⟩ := h
  simp only [Offers.read] at hname ha
  split at ha
  · nomatch ha
  next text htext =>
  simp only [htext] at hname
  split at ha
  · nomatch ha
  next loaded hloaded =>
  simp only [hloaded] at hname
  split at ha
  · nomatch ha
  next b hb =>
  simp only [hb] at hname
  cases ha
  obtain ⟨n, hn, hid, ht, hv⟩ := placed_ok hb
  rw [hname] at hn
  cases hn
  exact ⟨hid, ht, hv⟩

/-- What the examination says of a file it finds no error in. -/
theorem examined_ok {directory : List File} {out : List Offered × Checked}
    (h : examined O t (Offers.offered O directory) = .ok out) {o : Offered} (ho : o ∈ out.1)
    (hnil : o.errors = []) :
    ReadAt O o ∧ ∀ name a, o.name = some name → o.artifact = some a →
      name.id ≠ Skipping.METASCHEMA_ID →
      t.holds name.id = true → Comparing.differs O t name a = .ok false := by
  unfold examined at h
  obtain ⟨⟨d, found⟩, _, h⟩ := bind_ok.mp h
  obtain ⟨placed, _, h⟩ := bind_ok.mp h
  obtain ⟨judged, hjudged, h⟩ := bind_ok.mp h
  obtain ⟨⟨linked, waiting⟩, hlinked, h⟩ := bind_ok.mp h
  obtain ⟨⟨identical, differing⟩, hcompared, h⟩ := bind_ok.mp h
  have hout := Except.ok.inj h
  subst hout
  simp only at ho
  have hadded : ∀ (differing linked : List Offered) (o : Offered),
      o ∈ differing.foldl (fun offered each =>
        adding offered each.file
          [FileRefusals.differs each.file ((each.id.map ArtifactId.iri).getD "")]) linked →
      o.errors = [] → o ∈ linked ∧ ∀ each ∈ differing, o.file ≠ each.file := by
    intro differing
    induction differing with
    | nil => exact fun linked o ho _ => ⟨ho, nofun⟩
    | cons each rest ih =>
        intro linked o ho hnil
        obtain ⟨hmem, hrest⟩ := ih _ o ho hnil
        obtain ⟨o', ho', _, hsame⟩ := mem_adding hmem
        obtain ⟨rfl, hfile⟩ := hsame hnil nofun
        refine ⟨ho', fun e he => ?_⟩
        rcases List.mem_cons.mp he with rfl | he
        · exact hfile
        · exact hrest e he
  obtain ⟨hmem, hfiles⟩ := hadded differing linked o ho hnil
  have hkept : Kept (Offers.offered O directory) linked :=
    ((since_judged hjudged).trans (since_linksJudged hlinked)).kept
  obtain ⟨o', ho', hk⟩ := hkept o hmem
  refine ⟨(readAt_offered ho').keeps hk, fun name a hname ha hid hheld => ?_⟩
  have hfilter : o ∈ linked.filter fun o => o.id ≠ some Skipping.METASCHEMA_ID := by
    refine List.mem_filter.mpr ⟨hmem, ?_⟩
    simp [Offered.id, hname, hid]
  rcases compared_ok hcompared hfilter hname ha hheld with ⟨_, h⟩ | ⟨h, _⟩
  · exact absurd rfl (hfiles o h)
  · exact h

theorem mem_landing {taken : List Offered} {held : List Name} {op : Operation}
    (h : op ∈ landing taken held) :
    ∃ o ∈ taken, ∃ name a, o.name = some name ∧ o.artifact = some a ∧ name ∉ held ∧
      op = .import_ name.id a := by
  obtain ⟨o, ho, hop⟩ := List.mem_filterMap.mp h
  obtain ⟨name', _, hfind⟩ := List.mem_filterMap.mp ho
  have hnew : o ∈ taken.filter fun o => !o.name.any held.contains := List.mem_of_find?_eq_some hfind
  obtain ⟨htaken, hheld⟩ := List.mem_filter.mp hnew
  split at hop
  · next name a hname ha =>
      refine ⟨o, htaken, name, a, hname, ha, ?_, (Option.some.inj hop).symm⟩
      simpa [hname] using hheld
  · nomatch hop

end Importing

namespace Write

variable {O : Outside} {t : Tables}

/-- A set landed on the store it is drafted against is landed as one draft of it on that store. -/
theorem land_ok {operations : List Operation} {signed : Signed} {clock again : Nat → Int}
    {out : Tables × List Result} (h : land O t operations signed clock again = .ok out) :
    ∃ d moments entries, Drafting.drafted O t operations = .ok d ∧
      Write.entries O d moments signed t = .ok entries ∧
      Landing.landed t d.handed entries = .ok out.1 ∧ out.2 = results d := by
  have hlanding : ∀ {d : Drafted} {moments : List Int}, landing O d moments signed t = .ok out →
      ∃ entries, Write.entries O d moments signed t = .ok entries ∧
        Landing.landed t d.handed entries = .ok out.1 ∧
        out.2 = results d := by
    intro d moments h
    obtain ⟨entries, hentries, h⟩ := bind_ok.mp h
    split at h
    · next t' ht =>
        cases h
        exact ⟨entries, hentries, ht, rfl⟩
    · nomatch h
  unfold land at h
  obtain ⟨first, hfirst, h⟩ := bind_ok.mp h
  simp only at h
  split at h
  · obtain ⟨d, hd, h⟩ := bind_ok.mp h
    obtain ⟨entries, hentries, hlanded, hout⟩ := hlanding h
    exact ⟨d, _, entries, hd, hentries, hlanded, hout⟩
  · split at h
    · obtain ⟨d, hd, h⟩ := bind_ok.mp h
      obtain ⟨entries, hentries, hlanded, hout⟩ := hlanding h
      exact ⟨d, _, entries, hd, hentries, hlanded, hout⟩
    · obtain ⟨entries, hentries, hlanded, hout⟩ := hlanding h
      exact ⟨first, _, entries, hfirst, hentries, hlanded, hout⟩

end Write

namespace Importing

variable {O : Outside} {t : Tables}

/-- The imports a directory lands as on a store, of the files that have no error, are not passed
over and are not held. -/
def brings (O : Outside) (t : Tables) (directory : List File) : Raises (List Operation) := do
  let (offered, report) ← examined O t (Offers.offered O directory)
  let (held, _) ← Comparing.compared O t (taken offered report)
  .ok (landing (taken offered report) held)

/-- An import that ends landed nothing, or one set of imports, each of a file as the examination
leaves it. -/
theorem imported_ok {directory : List File} {signed : Signed} {skipErrors : Bool}
    {clock again : Nat → Int} {out : Checked × Tables}
    (h : imported O t directory signed skipErrors clock again = .ok out) :
    out.2 = t ∨ ∃ operations d moments entries, brings O t directory = .ok operations ∧
      (∀ op ∈ operations, ∃ name a, op = .import_ name.id a ∧ Brought O t name a) ∧
      Drafting.drafted O t operations = .ok d ∧ Write.entries O d moments signed t = .ok entries ∧
      Landing.landed t d.handed entries = .ok out.2 := by
  unfold imported at h
  obtain ⟨⟨offered, report⟩, hexamined, h⟩ := bind_ok.mp h
  simp only at h
  split at h
  · cases h
    exact Or.inl rfl
  split at h
  · cases h
    exact Or.inl rfl
  split at h
  · cases h
    exact Or.inl rfl
  obtain ⟨⟨held, differing⟩, hcompared, h⟩ := bind_ok.mp h
  simp only at h
  split at h
  · cases h
    exact Or.inl rfl
  obtain ⟨landed, hland, h⟩ := bind_ok.mp h
  cases h
  obtain ⟨d, moments, entries, hd, hentries, hlanded, _⟩ := Write.land_ok hland
  have hbrings : brings O t directory = .ok (landing (taken offered report) held) := by
    exact bind_ok.mpr ⟨_, hexamined, bind_ok.mpr ⟨_, hcompared, rfl⟩⟩
  refine Or.inr ⟨_, d, moments, entries, hbrings, fun op hop => ?_, hd, hentries, hlanded⟩
  obtain ⟨o, htaken, name, a, hname, ha, hnew, rfl⟩ := mem_landing hop
  obtain ⟨hoffered, hsound⟩ := List.mem_filter.mp htaken
  simp only [Bool.and_eq_true, decide_eq_true_eq, List.isEmpty_iff] at hsound
  obtain ⟨⟨⟨_, hid⟩, hnil⟩, _⟩ := hsound
  have hother : name.id ≠ Skipping.METASCHEMA_ID := by
    intro e
    exact hid (by simp [Offered.id, hname, e, Skipping.METASCHEMA_ID])
  obtain ⟨hread, hsame⟩ := examined_ok hexamined hoffered hnil
  obtain ⟨hname', htyped, hnumber⟩ := hread.artifact hname ha
  have hunheld : t.holds name.id = true → Comparing.held O t name = .ok none := by
    intro hholds
    rcases compared_ok hcompared htaken hname ha hholds with ⟨hdiff, _⟩ | ⟨_, h | h⟩
    · exact nomatch (hsame name a hname ha hother hholds).symm.trans hdiff
    · exact h
    · exact absurd h hnew
  refine ⟨name, a, rfl, hname', hother, htyped, hnumber, hunheld, fun hholds => ?_⟩
  have hdiffers := hsame name a hname ha hother hholds
  unfold Comparing.differs at hdiffers
  rw [hunheld hholds] at hdiffers
  exact hdiffers

end Importing

end Kb
