/-
# `Kb.Placed` — whatever stops a start, a root holds no store or the whole of one

A start may be killed at any step, and any step of it may fail; and it may be made again, any number
of times, on what the last one left.  What is at the place a store goes is, after all of it,
nothing, or a marked database whole: one that `write.start` made, that an import then landed in, or
that a backup holds.  Nothing else on the disk is another but what is at the staging place.
-/
import Kb.Run
import Kb.Staging

namespace Kb

open Stopping Stopping.Program Files

variable {M : Machine} {A : Fate Failure → Prop}

/-! ## What a start leaves at the place it makes -/

/-- A store whole, its database and its marker. -/
def whole (text : String) (t : Tables) : Directory.Tree String Held :=
  Directory.put (Directory.put (Directory.put Directory.empty [] .folder) ["store.sqlite3"]
    (.file (.database (some t))))
    ["store.yaml"] (.file (.text text))

/-- A store's place and its database, before it is marked. -/
def unmarked (t : Option Tables) : Directory.Tree String Held :=
  Directory.put (Directory.put Directory.empty [] .folder) ["store.sqlite3"] (.file (.database t))

theorem whole_database (text : String) (t t' : Tables) :
    Directory.put (whole text t) ["store.sqlite3"]
      (.file (.database (some t'))) = whole text t' := by
  funext r
  show (if r = ["store.sqlite3"] then _ else if r = ["store.yaml"]
    then _ else if r = ["store.sqlite3"] then _ else _) =
    if r = ["store.yaml"] then _ else if r = ["store.sqlite3"] then _ else _
  by_cases hr : r = ["store.sqlite3"]
  · rw [if_pos hr, if_neg (hr ▸ by decide), if_pos hr]
  · rw [if_neg hr, if_neg hr, if_neg hr]

/-- What a step that fails raises, or what is no refusal. -/
def Plain (A : Fate Failure → Prop) (e : Failure) : Prop :=
  A (.fails e) ∨ ∀ faults, e ≠ .refused faults

section

variable {p q : Path} {T : Directory.Tree String Held → Prop}
  {R : Failure → Directory.Tree String Held → Prop}

theorem passing_within (hR : ∀ e t, A (.fails e) → T t → R e t) :
    Within A p T passing (fun _ => T) R :=
  .read (fun _ _ _ _ h => by cases h; rfl) (fun _ _ h => h) fun e t he =>
    hR e t (he.resolve_right fun ⟨_, _, h⟩ => nomatch h)

theorem supported_within (hR : ∀ e t, Plain A e → T t → R e t) :
    Within A p T (SqliteStore.supported M) (fun _ => T) R := by
  refine .read (fun _ d _ d' h => ?_) (fun _ _ h => h) fun e t he =>
    hR e t (he.imp_right fun ⟨_, d, h⟩ => ?_)
  · split at h
    · nomatch h
    · cases h
      rfl
  · split at h
    · cases h
      nofun
    · nomatch h

theorem plain_notDone {e : Failure} (h : A (.fails e) ∨ e = notDone q) : Plain A e :=
  h.imp_right fun h => by rw [h]; nofun

theorem appending_within {t₀ : Directory.Tree String Held} (cs : List Char) (s : String) :
    Within A p (· = Directory.put t₀ q (.file (.text s))) (appending (p ++ q) cs)
      (fun _ t => t = Directory.put t₀ q (.file (.text (s ++ String.ofList cs)))) fun e _ =>
        Plain A e := by
  induction cs generalizing s with
  | nil =>
      refine .give fun t ht => ?_
      rw [ht]
      simp
  | cons c cs ih =>
      refine Within.bind (.change (fun _ _ he _ => plain_notDone he) q (Held.push c)) fun _ =>
        ((ih (s.push c)).pre ?_).mono fun _ t ht => ?_
      · rintro t ⟨t', held, rfl, hheld, rfl⟩
        rw [Directory.put_self] at hheld
        cases hheld
        rw [put_put]
        rfl
      · rw [ht]
        congr 3
        simp [String.ext_iff]

theorem writeText_within (text : String) : Within A p T (writeText (p ++ q) text)
    (fun _ t => ∃ t₀, T t₀ ∧ t = Directory.put t₀ q (.file (.text text))) fun e _ => Plain A e := by
  refine Within.bind (.put (fun _ _ he _ => plain_notDone he) q (.file (Held.text ""))) fun _ =>
    .each fun t₀ => .given fun ht₀ => ?_
  refine Within.bind ((appending_within text.toList "").mono fun _ t ht => ?_) fun _ =>
    passing_within fun _ _ he _ => Or.inl he
  refine ⟨t₀, ht₀, ?_⟩
  rw [ht]
  simp

/-- A database made with some tables is all that stands at a place made new. -/
theorem create_within (t : Tables) (f : Held → Held)
    (hf : f (.database none) = .database (some t)) :
    Within A p (· = Directory.put Directory.empty [] .folder) (do
      Files.doing (notDone (p ++ ["store.sqlite3"])) fun d =>
        d.create (p ++ ["store.sqlite3"]) (.database none)
      Files.doing (notDone (p ++ ["store.sqlite3"])) fun d => d.change (p ++ ["store.sqlite3"]) f
      passing) (fun _ tree => tree = unmarked (some t)) fun e _ => Plain A e := by
  refine Within.bind
    (.create (fun _ _ he _ => plain_notDone he) ["store.sqlite3"] (Held.database none)) fun _ => ?_
  refine Within.bind (U := fun _ tree => tree = unmarked (some t))
    ((Within.change (fun _ _ he _ => plain_notDone he) ["store.sqlite3"] f).mono ?_) fun _ =>
      passing_within fun _ _ he _ => Or.inl he
  rintro _ tree ⟨t₁, held, ⟨t₀, rfl, rfl⟩, hheld, rfl⟩
  rw [Directory.put_self] at hheld
  cases hheld
  rw [put_put, hf]
  rfl

theorem make_within : Within A p (· = Directory.put Directory.empty [] .folder)
    (SqliteStore.make M (p ++ ["store.sqlite3"]))
    (fun _ tree => tree = unmarked (some {})) fun e _ => Plain A e :=
  Within.bind (supported_within fun _ _ he _ => he) fun _ => create_within {} _ rfl

theorem copiedOut_within {backup : Backup} :
    Within A p (· = Directory.put Directory.empty [] .folder)
    (Backups.copiedOut backup (p ++ ["store.sqlite3"]))
    (fun _ tree => tree = unmarked (some backup.tables)) fun e _ => Plain A e :=
  create_within backup.tables _ rfl

theorem Machine.raising_ok {α : Type} {x : Raises α} {a : α} (h : M.raising x = .ok a) :
    x = .ok a := by
  unfold Machine.raising at h
  cases x with
  | error e => nomatch h
  | ok b =>
      cases h
      rfl

theorem Machine.raising_error {α : Type} {x : Raises α} {e : Failure} (h : M.raising x = .error e) :
    ∃ e', x = .error e' ∧ M.failure e' = e := by
  unfold Machine.raising at h
  cases x with
  | error e' => exact ⟨e', rfl, Except.error.inj h⟩
  | ok b => nomatch h

theorem plain_unreadable {problem : String} : Plain A (.unreadable problem) := Or.inr nofun

/-- A transaction made on the database at a path is made on the tables it holds, or not at all. -/
theorem opened_within {α : Type} {act : Tables → Raises (α × Tables)}
    (hR : ∀ e t, (Plain A e ∨ ∃ s e', act s = .error e' ∧ M.failure e' = e) → T t → R e t) :
    Within A p T (SqliteStore.opened M (p ++ q) act)
      (fun a t => ∃ t₀ s s', T t₀ ∧ t₀ q = some (.file (.database (some s))) ∧
      act s = .ok (a, s') ∧ t = Directory.put t₀ q (.file (.database (some s')))) R := by
  refine Within.bind (supported_within fun e t he => hR e t (Or.inl he)) fun _ =>
    .step (fun _ d a d' ht hact => ?_) fun e t he => ?_
  · split at hact
    swap
    · cases hact
    next s hfile =>
    split at hact
    · cases hact
    next a' s' hdone =>
    split at hact
    swap
    · cases hact
    next d'' hchange =>
    cases hact
    obtain ⟨c, _, hput⟩ := Disk.change_ok hchange
    exact ⟨(Disk.put_off hput).up (List.prefix_append p q), d.tree p, s, s', ht, hfile,
      Machine.raising_ok hdone, Disk.tree_put hput⟩
  · refine hR e t ?_
    rcases he with he | ⟨_, d, hact⟩
    · exact Or.inl (Or.inl he)
    split at hact
    · next s _ =>
        split at hact
        · next e' hdone =>
            cases hact
            obtain ⟨e'', he, heq⟩ := Machine.raising_error hdone
            exact Or.inr ⟨s, e'', he, heq⟩
        · next a s' _ =>
            split at hact
            · cases hact
            · cases hact
              exact Or.inl (plain_notDone (Or.inr rfl))
    · cases hact
      exact Or.inl plain_unreadable

end

/-- The text a marker naming this kb's form is. -/
def Marked (M : Machine) (text : String) : Prop :=
  M.outside.dump (Store.marking Store.STORE_FORM) = .ok text

theorem database_below (root : Path) :
    root ++ Store.DATABASE = root ++ [Store.KB] ++ ["store.sqlite3"] := by
  rw [List.append_assoc]
  rfl

theorem marker_below (root : Path) :
    root ++ Store.MARKER = root ++ [Store.KB] ++ ["store.yaml"] := by
  rw [List.append_assoc]
  rfl

theorem place_ne_nil (root : Path) (name : String) : root ++ [name] ≠ [] := by
  intro h
  exact List.cons_ne_nil _ _ (List.append_eq_nil_iff.mp h).2

/-- A start that returns has made a store whole, of what its database was made with and filled
by. -/
theorem Store.start_within {root : Path} {made : Path → Doing Unit}
    {fill : Tables → Raises (Unit × Tables)} (t₀ : Tables)
    (hmade : Within A (root ++ [KB]) (· = Directory.put Directory.empty [] .folder)
      (made (root ++ DATABASE)) (fun _ t => t = unmarked (some t₀)) fun e _ => Plain A e) :
    Within A (root ++ [KB]) anything (start M root made fill)
      (fun _ tree => ∃ t text, fill t₀ = .ok ((), t) ∧ Marked M text ∧ tree = whole text t)
      fun e _ => Plain A e ∨ ∃ s e', fill s = .error e' ∧ M.failure e' = e := by
  refine Within.bind (supported_within fun _ _ he _ => Or.inl he) fun _ => ?_
  refine Within.bind (.mkdir fun _ _ he _ => Or.inl (plain_notDone he)) fun _ => ?_
  refine .catching (R := fun e _ => Plain A e ∨ ∃ s e', fill s = .error e' ∧
    M.failure e' = e) ?_ fun e => ?_
  · refine Within.bind (hmade.raised fun _ _ he => Or.inl he) fun _ => ?_
    rw [database_below]
    refine Within.bind
      ((opened_within (T := fun t => t = unmarked (some t₀)) fun _ _ he _ => he).mono
      (V := fun _ tree => ∃ t, fill t₀ = .ok ((), t) ∧ tree = unmarked (some t)) ?_) fun _ => ?_
    · rintro _ _ ⟨_, s, s', rfl, hs, hfill, rfl⟩
      rw [unmarked, Directory.put_self] at hs
      cases hs
      refine ⟨s', hfill, ?_⟩
      rw [unmarked, put_put]
      rfl
    · refine .each fun t => .given fun hfill => ?_
      refine Within.bind
        (.of (U := fun text tree => Marked M text ∧ tree = unmarked (some t)) ?_ ?_) fun text => ?_
      · intro text tree htext htree
        refine ⟨?_, htree⟩
        have hdump := Machine.raising_ok htext
        unfold Marked
        cases h : M.outside.dump (marking STORE_FORM) with
        | error e =>
            rw [h] at hdump
            nomatch hdump
        | ok text' =>
            rw [h] at hdump
            exact congrArg _ (Except.ok.inj hdump)
      · intro e _ he _
        obtain ⟨e', he', rfl⟩ := Machine.raising_error he
        cases h : M.outside.dump (marking STORE_FORM) with
        | error out =>
            rw [h] at he'
            cases he'
            exact Or.inl (Or.inr nofun)
        | ok text' =>
            rw [h] at he'
            nomatch he'
      · refine .given fun htext => ?_
        rw [marker_below]
        refine ((writeText_within text).mono ?_).raised fun _ _ he => Or.inl he
        rintro _ _ ⟨_, rfl, rfl⟩
        exact ⟨t, text, hfill, htext, rfl⟩
  · show Within A _ _ (if e.storage then _ else _) _ _
    split
    · next hstorage =>
        refine Within.bind (.rmtree (place_ne_nil root KB) fun _ _ he => Or.inl (plain_notDone he))
          fun _ => .throw fun _ _ => ?_
        refine Or.inl (Or.inr fun faults he => ?_)
        rw [he] at hstorage
        nomatch hstorage
    · exact .throw fun _ he => he

theorem vacant_within {p : Path} {T : Directory.Tree String Held → Prop} {root : Root}
    {verb : String} :
    Within A p T (Store.vacant M root verb) (fun _ => T) fun _ _ => True := by
  refine .read (fun _ d _ d' h => ?_) (fun _ _ h => h) fun _ _ _ _ => trivial
  split at h
  · nomatch h
  · cases h
    rfl

theorem prepared_within {α : Type} {p : Path} {T : Directory.Tree String Held → Prop} {x : Doing α}
    {U : α → Directory.Tree String Held → Prop} {R : Failure → Directory.Tree String Held → Prop}
    (h : Within A p T x U R) :
    Within A p T (Starting.prepared x) U fun _ _ => True := by
  refine .catching h fun e => ?_
  show Within A _ _ (if e.caught then _ else _) _ _
  split
  · exact .throw fun _ _ => trivial
  · exact .throw fun _ _ => trivial

/-- A new store started is whole, and holds what `write.start` makes. -/
theorem init_within {root : Root} {role execution : String} {moment : Int} :
    Within A (root.path ++ [Store.KB]) anything (Starting.init M root role execution moment)
      (fun _ tree => ∃ t text, Start.started M.outside role execution moment = .ok t ∧
        Marked M text ∧ tree = whole text t)
      fun _ _ => True := by
  refine prepared_within (R := fun _ _ => True)
    (Within.bind (.of (U := fun _ => anything) (fun _ _ _ h => h) fun _ _ _ _ => trivial)
    fun _ => ?_)
  refine Within.bind (passing_within fun _ _ _ _ => trivial) fun _ =>
    Within.bind vacant_within fun _ => ?_
  refine Within.bind (.of (U := fun digest tree => Journal.digest M.outside Start.METASCHEMA =
    .ok digest ∧ anything tree)
    (fun digest _ h _ => ⟨Machine.raising_ok h, trivial⟩) fun _ _ _ _ => trivial) fun digest =>
      .given fun hdigest => ?_
  refine ((Store.start_within {} ?_).mono ?_).raised fun _ _ _ => trivial
  · rw [database_below]
    exact make_within
  · rintro _ tree ⟨t, text, hfill, htext, htree⟩
    refine ⟨t, text, ?_, htext, htree⟩
    obtain ⟨t', hlanded, heq⟩ := Raising.map_ok.mp hfill
    cases heq
    unfold Start.started
    rw [hdigest]
    exact hlanded

/-! ## What an operator's command leaves -/

/-- What a step fails with is no refusal of kb's own, of a request or of a start. -/
def outer (f : Fate Failure) : Prop :=
  ∀ faults, f ≠ .fails (.refused faults) ∧ f ≠ .fails (.notStarted faults)

theorem plain_faults {e : Failure} (h : Plain outer e) (hcaught : e.caught = true) :
    e.faults ≠ [] := by
  have hplain : ∀ faults, e ≠ .refused faults := by
    rcases h with h | h
    · exact fun faults he => (h faults).1 (congrArg _ he)
    · exact h
  cases e with
  | refused faults => exact absurd rfl (hplain faults)
  | interrupted => nomatch hcaught
  | _ => nofun

/-- A restore answered without a fault has made a store whole of what the backup holds. -/
theorem restore_within {root : Path} {backup : Backup} :
    Within outer (root ++ [Store.KB]) anything (Operating.restore M root backup)
      (fun refused tree => refused = [] → ∃ text, Marked M text ∧ tree = whole text backup.tables)
        fun _ _ => True := by
  refine .catching (R := fun e _ => Plain outer e) ?_ fun e => ?_
  · refine Within.bind (((Store.start_within backup.tables ?_).mono ?_).raised ?_) fun _ =>
      .give fun _ h _ => h
    · rw [database_below]
      exact copiedOut_within
    · rintro _ tree ⟨t, text, hfill, htext, htree⟩
      cases hfill
      exact ⟨text, htext, htree⟩
    · rintro e _ (he | ⟨_, _, hfill, _⟩)
      · exact he
      · nomatch hfill
  · show Within outer _ _ (if e.caught then _ else _) _ _
    split
    · next hcaught =>
        -- every exception has a fault, so what raises is answered with one
        intro d₀ fates hA d n ⟨hoff, hplain⟩
        refine ⟨hoff, fun refused hrefused hnone => ?_, nofun⟩
        cases hrefused
        exact absurd hnone (plain_faults hplain hcaught)
    · exact .throw fun _ _ => trivial

/-- An import into a store just started leaves it, or what the import makes of it. -/
theorem import_within {root : Root} {seed : Seed} {role text : String} {t : Tables} :
    Within A (root.path ++ [Store.KB]) (· = whole text t) (Operating.import_ M root seed role)
      (fun imported tree => tree = whole text t ∨ ∃ t', Operating.importing M seed role t =
        .ok (imported, t') ∧
        tree = whole text t') fun _ tree => tree = whole text t := by
  refine .catching (R := fun _ tree => tree = whole text t) ?_ fun e => ?_
  · refine Within.bind (.read (U := fun _ tree => tree = whole text t) (fun _ d a d' h => ?_)
      (fun _ _ h => h) fun _ _ _ h => h) fun _ => ?_
    · cases htold : Store.toldApart M d root with
      | error e =>
          rw [htold] at h
          nomatch h
      | ok told =>
          rw [htold] at h
          cases h
          rfl
    · rw [database_below]
      refine (opened_within fun _ _ _ h => h).mono ?_
      rintro imported _ ⟨_, s, s', rfl, hs, himported, rfl⟩
      have hself : whole text t ["store.sqlite3"] = some (.file (.database (some t))) := by
        rw [whole, Directory.put_of_ne _ _ (by decide), Directory.put_self]
      rw [hself] at hs
      cases hs
      exact Or.inr ⟨s', himported, whole_database text t s'⟩
  · show Within A _ _ (if e.caught then _ else _) _ _
    split
    · exact .give fun _ h => Or.inl h
    · exact .throw fun _ h => h

/-! ## The staging place, and the place a store goes -/

namespace Staging

open Store (KB STAGING)

variable {root : Root} {d₀ : Disk}

/-- Nothing is another but what is at the staging place and at the place a store goes. -/
def Elsewhere (root : Root) (d d' : Disk) : Prop :=
  ∀ q, ¬ root.path ++ [STAGING] <+: q → ¬ root.path ++ [KB] <+: q → d'.look q = d.look q

theorem Elsewhere.trans {d d' d'' : Disk} (h : Elsewhere root d d') (h' : Elsewhere root d' d'') :
    Elsewhere root d d'' :=
  fun q hq hq' => (h' q hq hq').trans (h q hq hq')

theorem Elsewhere.of_place {d d' : Disk} (h : Off (root.path ++ [STAGING]) d d') :
    Elsewhere root d d' := fun q hq _ => h q hq

theorem apart (path : Path) : Directory.Apart (path ++ [STAGING]) (path ++ [KB]) := by
  have hne : ∀ a b : String, a ≠ b → ¬ path ++ [a] <+: path ++ [b] := by
    intro a b hab hprefix
    have hprefix : [a] <+: [b] := (List.prefix_append_right_inj path).mp hprefix
    exact hab (List.cons_prefix_cons.mp hprefix).1
  exact ⟨hne _ _ (by decide), hne _ _ (by decide)⟩

theorem kb_of_place {d d' : Disk} (h : Off (root.path ++ [STAGING]) d d') :
    d'.tree (root.path ++ [KB]) = d.tree (root.path ++ [KB]) :=
  h.tree (apart root.path)

theorem cleared_within {p : Path} (hp : p ≠ []) :
    Within A p anything (cleared p) (fun _ tree => tree = Directory.empty)
    fun e _ => A (.fails e) ∨ e = notDone p := by
  refine Within.bind (U := fun stands tree => stands = false → tree = Directory.empty)
    (.step ?_ ?_) fun stands => ?_
  · rintro _ d _ _ _ h
    cases h
    exact ⟨Off.refl p _,
      fun hnone => Disk.tree_none (Option.isNone_iff_eq_none.mp (by simpa using hnone))⟩
  · rintro e _ (he | ⟨_, _, h⟩) _
    · exact Or.inl he
    · nomatch h
  · cases stands with
    | true => exact .rmtree hp fun _ _ he => he
    | false => exact .give fun _ h => h rfl

theorem emptied_within {p : Path} (hp : p ≠ []) : Within A p anything (emptied p)
    (fun _ tree => tree = Directory.put Directory.empty [] .folder) fun e _ => A
    (.fails e) ∨ e = notDone p :=
  Within.bind (cleared_within hp) fun _ => .mkdir fun _ _ he _ => he

/-- What a part of a start leaves: what stands where a store goes meets `G`, where the part returns,
`U`, and where it raises `NotStarted`, it is as it was. -/
structure Leaves {α : Type} (root : Root) (d₀ : Disk) (G : Directory.Tree String Held → Prop)
    (U : α → Directory.Tree String Held → Prop) (out : Stopping.Ended Failure α) (d : Disk) :
    Prop where
  elsewhere : Elsewhere root d₀ d
  stands : G (d.tree (root.path ++ [KB]))
  returned : ∀ a, out = .returned a → U a (d.tree (root.path ++ [KB]))
  refused : ∀ faults, out = .raised (.notStarted faults) →
    d.tree (root.path ++ [KB]) = d₀.tree (root.path ++ [KB])

variable {α : Type} {G : Directory.Tree String Held → Prop}
  {U : α → Directory.Tree String Held → Prop}

/-- What is changed at the staging place alone leaves the place a store goes as it was. -/
theorem Leaves.of_place (hG : G (d₀.tree (root.path ++ [KB]))) {d : Disk}
    (h : Off (root.path ++ [STAGING]) d₀ d) {out : Stopping.Ended Failure α}
    (hout : ∀ a, out ≠ .returned a) : Leaves root d₀ G U out d where
  elsewhere := .of_place h
  stands := (kb_of_place h).symm ▸ hG
  returned := fun a ha => absurd ha (hout a)
  refused := fun _ _ => kb_of_place h

/-- A part of a start staged leaves what it would, and, where it returns, nothing at the staging
place. -/
theorem staged_ends (hA : ∀ f, A f → outer f) (hG : G (d₀.tree (root.path ++ [KB]))) {x : Doing α}
    (hx : Ends A (fun d => Off (root.path ++ [STAGING]) d₀ d) x (Leaves root d₀ G U)) :
    Ends A (· = d₀) (staged root x) fun out d => Leaves root d₀ G U out d ∧
      ∀ a, out = .returned a → d.tree (root.path ++ [STAGING]) = Directory.empty := by
  have hplace := place_ne_nil root.path STAGING
  refine Ends.bind (M := fun _ d => Off (root.path ++ [STAGING]) d₀ d)
    (((prepared_within (emptied_within hplace)).begun d₀ trivial).mono fun out d ⟨hoff, _, _⟩ =>
      ?_) fun _ => ?_
  · cases out with
    | returned _ => exact hoff
    | raised e => exact ⟨.of_place hG hoff nofun, nofun⟩
    | stopped => exact ⟨.of_place hG hoff nofun, nofun⟩
  · refine Ends.ensuring (M := fun out d => Leaves root d₀ G U out d) (hx.mono fun out d h =>
      ?_) fun out hout => ?_
    · cases out with
      | returned a => exact h
      | raised e => exact h
      | stopped => exact ⟨h, nofun⟩
    · refine .of_each fun d₁ hd₁ => ((cleared_within hplace).begun d₁ trivial).mono fun ended d
        ⟨hoff, hgone, hraised⟩ => ?_
      have htree := kb_of_place hoff
      have helsewhere := hd₁.elsewhere.trans (.of_place hoff)
      cases ended with
      | returned u =>
          refine ⟨⟨helsewhere, htree.symm ▸ hd₁.stands, fun a ha => htree.symm ▸ hd₁.returned a ha,
            fun faults h => ?_⟩,
            fun _ _ => hgone u rfl⟩
          exact htree.trans (hd₁.refused faults h)
      | raised e =>
          -- what the clearing raises is no `NotStarted`
          refine ⟨⟨helsewhere, htree.symm ▸ hd₁.stands, nofun, fun faults h => ?_⟩, nofun⟩
          have he : e = .notStarted faults := Stopping.Ended.raised.inj h
          rcases hraised e rfl with hfails | hnot
          · exact absurd (congrArg Fate.fails he) ((hA _ hfails) faults).2
          · rw [he] at hnot
            nomatch hnot
      | stopped => exact ⟨⟨helsewhere, htree.symm ▸ hd₁.stands, nofun, nofun⟩, nofun⟩

/-- What fills the staged store, and what comes after it. -/
theorem filled_ends {β : Type} (hG : G (d₀.tree (root.path ++ [KB]))) {x : Doing β}
    {T : β → Directory.Tree String Held → Prop} {R : Failure → Directory.Tree String Held → Prop}
    (hx : Within A (root.path ++ [STAGING] ++ [KB]) anything x T R) {k : β → Doing α}
    (hk : ∀ b d₁, Off (root.path ++ [STAGING]) d₀ d₁ →
      T b (d₁.tree (root.path ++ [STAGING] ++ [KB])) →
      Ends A (· = d₁) (k b) (Leaves root d₀ G U)) :
    Ends A (fun d => Off (root.path ++ [STAGING]) d₀ d) (x >>= k) (Leaves root d₀ G U) := by
  refine Ends.bind (M := fun b d => Off (root.path ++ [STAGING]) d₀ d ∧
    T b (d.tree (root.path ++ [STAGING] ++ [KB]))) ?_
    fun b => .of_each fun d₁ h => hk b d₁ h.1 h.2
  refine .of_each fun d₁ hd₁ => (hx.begun d₁ trivial).mono fun out d ⟨hoff, hreturned, _⟩ => ?_
  have hplace := hd₁.trans (hoff.up (List.prefix_append _ [KB]))
  cases out with
  | returned b => exact ⟨hplace, hreturned b rfl⟩
  | raised e => exact .of_place hG hplace nofun
  | stopped => exact .of_place hG hplace nofun

/-- The store staged, put by one rename where nothing stands. -/
theorem placed_ends (hfree : d₀.look (root.path ++ [KB]) = none)
    (hG : G (d₀.tree (root.path ++ [KB]))) {d₁ : Disk} (hoff : Off (root.path ++ [STAGING]) d₀ d₁)
    {tree : Directory.Tree String Held} (htree : d₁.tree (root.path ++ [STAGING] ++ [KB]) = tree)
    (hgood : G tree) :
    Ends A (· = d₁) (placed root) (Leaves root d₀ G fun _ left => left = tree) := by
  refine doing_ends (fun d d' hd hrename => ?_) (fun e d he hd => ?_) fun d hd => ?_
  · have hnone : d.look (root.path ++ [KB]) = none := by
      rw [show d = d₁ from hd, hoff _ (apart root.path).1, hfree]
    have hmoved : d.move (root.path ++ [STAGING] ++ [KB]) (root.path ++ [KB]) = some d' :=
      (Disk.rename_fresh _ hnone).symm.trans hrename
    obtain ⟨hput, _, hrest⟩ := Disk.move_some hmoved
    have hleft : d'.tree (root.path ++ [KB]) = tree := by
      rw [hput, show d = d₁ from hd, htree]
    refine ⟨fun q hq hq' => ?_, hleft.symm ▸ hgood, fun _ _ => hleft, nofun⟩
    rw [hrest q (fun h => hq ((List.prefix_append _ [KB]).trans h)) hq', show d = d₁ from hd]
    exact hoff q hq
  · rw [show d = d₁ from hd]
    exact .of_place hG hoff nofun
  · rw [show d = d₁ from hd]
    exact .of_place hG hoff nofun

theorem refusal_none {d : Disk} {verb : String} (h : Store.refusal M d root verb = none) :
    d.look (root.path ++ [KB]) = none := by
  unfold Store.refusal Store.refuseRoot at h
  split at h
  · nomatch h
  split at h
  · nomatch h
  split at h
  · nomatch h
  split at h
  · nomatch h
  next hstands => exact Option.isNone_iff_eq_none.mp (by simpa using hstands)

/-- Asking whether a store can be started changes nothing, and it can only where nothing stands at
its place. -/
theorem vacant_ends {verb : String} : Ends A (· = d₀) (Starting.vacant M root verb)
    fun out d => d = d₀ ∧ (out = .returned () → Store.refusal M d₀ root verb = none) := by
  refine Ends.catching (M := fun _ d => d = d₀)
    (.step (fun _ d _ hd => ?_) (fun _ _ _ hd => hd) fun _ _ hd => ⟨hd, nofun⟩) fun e => ?_
  · cases hrefusal : Store.refusal M d root verb with
    | some faults => exact hd
    | none => exact ⟨hd, fun _ => hd ▸ hrefusal⟩
  · show Ends A _ (if e.caught then _ else _) _
    split
    · exact .throw fun _ hd => ⟨hd, nofun⟩
    · exact .throw fun _ hd => ⟨hd, nofun⟩

/-- A store whole, of tables that meet `S`. -/
def Stood (M : Machine) (S : Tables → Prop) (tree : Directory.Tree String Held) : Prop :=
  ∃ t text, S t ∧ Marked M text ∧ tree = whole text t

/-- What a start may leave at the place a store goes: what stood there, or, where nothing did, a
store whole. -/
def May (M : Machine) (root : Root) (d₀ : Disk) (S : Tables → Prop)
    (tree : Directory.Tree String Held) : Prop :=
  tree = d₀.tree (root.path ++ [KB]) ∨ d₀.look (root.path ++ [KB]) = none ∧ Stood M S tree

/-- What a part of a start leaves, and nothing at the staging place where it returns. -/
def Ending (M : Machine) (root : Root) (d₀ : Disk) (S : Tables → Prop)
    (U : α → Directory.Tree String Held → Prop) (out : Stopping.Ended Failure α) (d : Disk) :
    Prop :=
  Leaves root d₀ (May M root d₀ S) U out d ∧ ∀ a, out = .returned a →
    d.tree (root.path ++ [STAGING]) = Directory.empty

theorem Ending.same {S : Tables → Prop} {out : Stopping.Ended Failure α}
    (hout : ∀ a, out ≠ .returned a) :
    Ending M root d₀ S U out d₀ :=
  ⟨.of_place (Or.inl rfl) (Off.refl _ d₀) hout, fun a ha => absurd ha (hout a)⟩

/-- What comes after a part of a start that changes nothing. -/
theorem asked_ends {S : Tables → Prop} {c : Prop} {x : Doing Unit} {k : Doing α}
    (hx : Ends A (· = d₀) x fun out d => d = d₀ ∧ (out = .returned () → c))
    (hk : c → Ends A (· = d₀) k (Ending M root d₀ S U)) :
    Ends A (· = d₀) (x >>= fun _ => k) (Ending M root d₀ S U) := by
  refine Ends.bind (M := fun _ d => c ∧ d = d₀) (hx.mono fun out d ⟨hd, hnone⟩ => ?_) fun _ =>
    .of_each fun d hd => ?_
  · rw [hd]
    cases out with
    | returned _ => exact ⟨hnone rfl, rfl⟩
    | raised e => exact .same nofun
    | stopped => exact .same nofun
  · rw [hd.2]
    exact hk hd.1

variable {role : String} {moment : Int}

theorem staged_within :
    Within A (root.path ++ [STAGING] ++ [KB]) anything (Starting.init M (place root) role "" moment)
    (fun _ tree => ∃ t text, Start.started M.outside role "" moment = .ok t ∧ Marked M text ∧
      tree = whole text t) fun _ _ => True :=
  @init_within M A (place root) role "" moment

/-- A store started leaves it whole, or what stood there. -/
theorem started_ends (hA : ∀ f, A f → outer f) : Ends A (· = d₀) (started M root role moment)
    (Ending M root d₀ (fun t => Start.started M.outside role "" moment = .ok t)
      fun _ => Stood M fun t => Start.started M.outside role "" moment = .ok t) := by
  refine asked_ends vacant_ends fun hvacant => staged_ends hA (Or.inl rfl) <|
    filled_ends (Or.inl rfl) staged_within fun _ d₁ hoff hstaged => ?_
  obtain ⟨t, text, ht, htext, htree⟩ := hstaged
  have hfree := refusal_none hvacant
  have hgood : May M root d₀ (fun t => Start.started M.outside role "" moment = .ok t)
      (whole text t) :=
    Or.inr ⟨hfree, t, text, ht, htext, rfl⟩
  refine (placed_ends hfree (Or.inl rfl) hoff htree hgood).mono fun out d h => ?_
  exact ⟨h.elsewhere, h.stands, fun a ha => ⟨t, text, ht, htext, h.returned a ha⟩, h.refused⟩

/-- The store staged put in place where what filled it is answered so, and not otherwise. -/
theorem answered_ends {S : Tables → Prop} (hfree : d₀.look (root.path ++ [KB]) = none) {d₁ : Disk}
    (hoff : Off (root.path ++ [STAGING]) d₀ d₁) (a : α) {good : Bool}
    (hgood : good = true → Stood M S (d₁.tree (root.path ++ [STAGING] ++ [KB]))) :
    Ends A (· = d₁) (if good then placed root >>= fun _ => pure a else pure a)
      (Leaves root d₀ (May M root d₀ S)
      fun b tree => b = a ∧ if good then Stood M S tree else tree = d₀.tree
        (root.path ++ [KB])) := by
  cases good with
  | true =>
      obtain ⟨t, text, ht, htext, htree⟩ := hgood rfl
      have hmay : May M root d₀ S (whole text t) := Or.inr ⟨hfree, t, text, ht, htext, rfl⟩
      refine Ends.bind (M := fun _ d => Elsewhere root d₀ d ∧
        d.tree (root.path ++ [KB]) = whole text t)
        ((placed_ends hfree (Or.inl rfl) hoff htree hmay).mono fun out d h => ?_) fun _ =>
          .give fun d ⟨helsewhere, hput⟩ => ?_
      · cases out with
        | returned u => exact ⟨h.elsewhere, h.returned u rfl⟩
        | raised e =>
            exact ⟨h.elsewhere, h.stands, nofun, fun faults he =>
              h.refused faults (by cases he; rfl)⟩
        | stopped => exact ⟨h.elsewhere, h.stands, nofun, nofun⟩
      · refine ⟨helsewhere, hput.symm ▸ hmay, fun b hb => ?_, nofun⟩
        cases hb
        exact ⟨rfl, t, text, ht, htext, hput⟩
  | false =>
      refine .give fun d hd => ?_
      rw [show d = d₁ from hd]
      refine ⟨.of_place hoff, Or.inl (kb_of_place hoff), fun b hb => ?_, nofun⟩
      cases hb
      exact ⟨rfl, kb_of_place hoff⟩

/-- What a store seeded holds: what it was started with, or what the import of the seed made of
that. -/
def Seeded (M : Machine) (seed : Seed) (role : String) (moment : Int) (t : Tables) : Prop :=
  ∃ first, Start.started M.outside role "" moment = .ok first ∧
    (t = first ∨ ∃ imported, Operating.importing M seed role first = .ok (imported, t))

variable {seed : Seed} {backup : Backup}

/-- A store seeded leaves it whole where the import is answered without a fault, and otherwise what
stood there. -/
theorem seeded_ends (hA : ∀ f, A f → outer f) : Ends A (· = d₀) (seeded M root role seed moment)
    (Ending M root d₀ (Seeded M seed role moment) fun imported tree =>
      if imported.faults.isEmpty then Stood M (Seeded M seed role moment) tree else tree = d₀.tree
        (root.path ++ [KB])) := by
  refine asked_ends vacant_ends fun hvacant => staged_ends hA (Or.inl rfl) <|
    filled_ends (Or.inl rfl) staged_within fun _ d₁ hoff hstaged => ?_
  obtain ⟨first, text, hfirst, htext, htree⟩ := hstaged
  have hfree := refusal_none hvacant
  have himport := (@import_within M A (place root) seed role text first).begun d₁ htree
  refine Ends.bind (M := fun _ d => Off (root.path ++ [STAGING]) d₀ d ∧
    Stood M (Seeded M seed role moment) (d.tree (root.path ++ [STAGING] ++ [KB])))
    (himport.mono fun out d ⟨hoff', hreturned, _⟩ => ?_) fun imported =>
      .of_each fun d ⟨hplace, hstood⟩ => ?_
  · have hplace := hoff.trans (hoff'.up (List.prefix_append _ [KB]))
    cases out with
    | returned imported =>
        refine ⟨hplace, ?_⟩
        rcases hreturned imported rfl with hleft | ⟨t, himported, hleft⟩
        · exact ⟨first, text, ⟨first, hfirst, Or.inl rfl⟩, htext, hleft⟩
        · exact ⟨t, text, ⟨first, hfirst, Or.inr ⟨imported, himported⟩⟩, htext, hleft⟩
    | raised e => exact .of_place (Or.inl rfl) hplace nofun
    | stopped => exact .of_place (Or.inl rfl) hplace nofun
  · refine (answered_ends hfree hplace imported fun _ => hstood).mono fun out d h => ?_
    refine ⟨h.elsewhere, h.stands, fun a ha => ?_, h.refused⟩
    obtain ⟨rfl, htree⟩ := h.returned a ha
    exact htree

theorem read_ends : Ends A (· = d₀) (Starting.prepared (of (Backups.read backup))) fun out d =>
    d = d₀ ∧ (out = .returned () → Backups.read backup = .ok ()) := by
  refine Ends.catching (M := fun _ d => d = d₀)
    (.of (fun _ h d hd => ⟨hd, fun _ => h⟩) fun _ _ d hd => hd) fun e => ?_
  show Ends A _ (if e.caught then _ else _) _
  split
  · exact .throw fun _ hd => ⟨hd, nofun⟩
  · exact .throw fun _ hd => ⟨hd, nofun⟩

/-- What a store restored holds. -/
def Restored (backup : Backup) (t : Tables) : Prop :=
  Backups.read backup = .ok () ∧ t = backup.tables

/-- A store restored leaves it whole where nothing refused it, and otherwise what stood there. -/
theorem restored_ends : Ends outer (· = d₀) (restored M root backup)
    (Ending M root d₀ (Restored backup) fun refused tree =>
    if refused.isEmpty then Stood M (Restored backup) tree else tree = d₀.tree
      (root.path ++ [KB])) := by
  refine asked_ends vacant_ends fun hvacant => asked_ends read_ends fun hread =>
    staged_ends (fun _ h => h) (Or.inl rfl) ?_
  have hrestore : Within outer (root.path ++ [STAGING] ++ [KB]) anything
      (Operating.restore M (place root).path backup)
      (fun refused tree => refused = [] → ∃ text, Marked M text ∧ tree = whole text backup.tables)
        fun _ _ => True := restore_within
  refine filled_ends (Or.inl rfl) hrestore fun refused d₁ hoff hstaged => ?_
  have hgood : refused.isEmpty = true →
      Stood M (Restored backup) (d₁.tree (root.path ++ [STAGING] ++ [KB])) := by
    intro hnone
    obtain ⟨text, htext, htree⟩ := hstaged (List.isEmpty_iff.mp hnone)
    exact ⟨backup.tables, text, ⟨hread, rfl⟩, htext, htree⟩
  refine (answered_ends (refusal_none hvacant) hoff refused hgood).mono fun out d h => ?_
  refine ⟨h.elsewhere, h.stands, fun a ha => ?_, h.refused⟩
  obtain ⟨rfl, htree⟩ := h.returned a ha
  exact htree

/-! ## Starts one after another -/

/-- A start as it is asked for. -/
inductive Attempt where
  | started (role : String) (moment : Int)
  | seeded (role : String) (seed : Seed) (moment : Int)
  | restored (backup : Backup)

namespace Attempt

/-- The start made, and whether it put a store in place. -/
def run (M : Machine) (root : Root) : Attempt → Doing Bool
  | started role moment => do
      Staging.started M root role moment
      return true
  | seeded role seed moment => do
      let imported ← Staging.seeded M root role seed moment
      return imported.faults.isEmpty
  | restored backup => do
      let refused ← Staging.restored M root backup
      return refused.isEmpty

/-- What a start that puts a store in place makes it hold. -/
def Makes (M : Machine) : Attempt → Tables → Prop
  | started role moment => fun t => Start.started M.outside role "" moment = .ok t
  | seeded role seed moment => Seeded M seed role moment
  | restored backup => Restored backup

/-- The disk a start leaves, each of its steps meeting its fate. -/
def after (M : Machine) (root : Root) (d : Disk) (attempt : Attempt × (Nat → Fate Failure)) :
    Disk :=
  (attempt.1.run M root attempt.2 (d, 0)).2.1

theorem answered_by {β : Type} {S : Tables → Prop} {U : β → Directory.Tree String Held → Prop}
    {x : Doing β} {f : β → Bool} (hx : Ends outer (· = d₀) x (Ending M root d₀ S U))
    (hU : ∀ b tree, U b tree → if f b then Stood M S tree else tree = d₀.tree (root.path ++ [KB])) :
    Ends outer (· = d₀) (x >>= fun b => pure (f b)) (Ending M root d₀ S fun placed tree =>
      if placed then Stood M S tree else tree = d₀.tree (root.path ++ [KB])) := by
  refine Ends.bind (M := fun b d => Ending M root d₀ S U (.returned b) d) (hx.mono fun out d h =>
    ?_) fun b => .give fun d h => ?_
  · cases out with
    | returned b => exact h
    | raised e =>
        exact ⟨⟨h.1.elsewhere, h.1.stands, nofun, fun faults he =>
          h.1.refused faults (by cases he; rfl)⟩, nofun⟩
    | stopped => exact ⟨⟨h.1.elsewhere, h.1.stands, nofun, nofun⟩, nofun⟩
  · refine ⟨⟨h.1.elsewhere, h.1.stands, fun placed hplaced => ?_, nofun⟩, fun _ _ => h.2 b rfl⟩
    cases hplaced
    exact hU b _ (h.1.returned b rfl)

theorem run_ends (attempt : Attempt) :
    Ends outer (· = d₀) (attempt.run M root) (Ending M root d₀ (attempt.Makes M) fun placed tree =>
    if placed then Stood M (attempt.Makes M) tree else tree = d₀.tree (root.path ++ [KB])) := by
  cases attempt with
  | started role moment =>
      exact answered_by (f := fun _ => true) (started_ends fun _ h => h) fun _ _ h => h
  | seeded role seed moment =>
      exact answered_by (f := fun imported => imported.faults.isEmpty) (seeded_ends fun _ h =>
        h) fun _ _ h => h
  | restored backup => exact answered_by (f := List.isEmpty) restored_ends fun _ _ h => h

variable {attempt : Attempt × (Nat → Fate Failure)}

theorem after_ends (houter : ∀ n, outer (attempt.2 n)) (d : Disk) :
    Elsewhere root d (after M root d attempt) ∧ May M root d (attempt.1.Makes M)
      ((after M root d attempt).tree (root.path ++ [KB])) :=
  have h := @run_ends M root d attempt.1 attempt.2 houter d 0 rfl
  ⟨h.1.elsewhere, h.1.stands⟩

/-- Where something stands at the place a store goes, a start changes nothing. -/
theorem after_standing {d : Disk} (hstands : d.look (root.path ++ [KB]) ≠ none) :
    after M root d attempt = d := by
  have hasked : ∀ {β : Type} {verb : String} (k : Doing β),
      Ends whatever (· = d) (Starting.vacant M root verb >>= fun _ => k)
      fun out d' => d' = d ∧ ∀ b, out ≠ .returned b := by
    intro β verb k
    refine Ends.bind (M := fun _ _ => False) (vacant_ends.mono fun out d' ⟨hd, hnone⟩ =>
      ?_) fun _ _ _ _ _ hfalse => hfalse.elim
    cases out with
    | returned _ => exact hstands (refusal_none (hnone rfl))
    | raised e => exact ⟨hd, nofun⟩
    | stopped => exact ⟨hd, nofun⟩
  have hthen : ∀ {β : Type} {x : Doing β} (f : β → Bool),
      Ends whatever (· = d) x (fun out d' => d' = d ∧ ∀ b, out ≠ .returned b) →
      Ends whatever (· = d) (x >>= fun b => pure (f b)) fun _ d' => d' = d := by
    intro β x f hx
    refine Ends.bind (M := fun _ _ => False) (hx.mono fun out d' ⟨hd, hnot⟩ =>
      ?_) fun _ _ _ _ _ hfalse => hfalse.elim
    cases out with
    | returned b => exact hnot b rfl
    | raised e => exact hd
    | stopped => exact hd
  have hrun : Ends whatever (· = d) (attempt.1.run M root) fun _ d' => d' = d := by
    cases attempt.1 with
    | started role moment => exact hthen (fun _ => true) (hasked _)
    | seeded role seed moment =>
        exact hthen (fun imported : Importing.Checked => imported.faults.isEmpty) (hasked _)
    | restored backup => exact hthen List.isEmpty (hasked _)
  exact hrun attempt.2 (fun _ => trivial) d 0 rfl

end Attempt

/-- A store whole stands. -/
theorem stood_ne_none {S : Tables → Prop} {d : Disk} (h : Stood M S (d.tree (root.path ++ [KB]))) :
    d.look (root.path ++ [KB]) ≠ none := by
  obtain ⟨t, text, _, _, htree⟩ := h
  intro hnone
  have hfolder : d.tree (root.path ++ [KB]) [] = some .folder := by
    rw [htree]
    rfl
  rw [Disk.tree_none hnone] at hfolder
  nomatch hfolder

/-- The disk starts made one after another leave. -/
def afterAll (M : Machine) (root : Root) (d : Disk)
    (attempts : List (Attempt × (Nat → Fate Failure))) : Disk :=
  attempts.foldl (Attempt.after M root) d

theorem afterAll_ends (hfree : d₀.look (root.path ++ [KB]) = none)
    {attempts : List (Attempt × (Nat → Fate Failure))}
    (houter : ∀ a ∈ attempts, ∀ n, outer (a.2 n)) :
    Elsewhere root d₀ (afterAll M root d₀ attempts) ∧
      ((afterAll M root d₀ attempts).look (root.path ++ [KB]) = none ∨
        ∃ a ∈ attempts, Stood M (a.1.Makes M)
          ((afterAll M root d₀ attempts).tree (root.path ++ [KB]))) := by
  induction attempts using List.reverseRecOn with
  | nil => exact ⟨fun _ _ _ => rfl, Or.inl hfree⟩
  | append_singleton attempts a ih =>
      obtain ⟨helsewhere, hstands⟩ := ih fun b hb => houter b (List.mem_append_left _ hb)
      have hlast : afterAll M root d₀ (attempts ++ [a]) =
          Attempt.after M root (afterAll M root d₀ attempts) a := by
        rw [afterAll, List.foldl_append]
        rfl
      obtain ⟨helse, hmay⟩ := @Attempt.after_ends M root a
        (houter a (List.mem_append_right _ List.mem_cons_self)) (afterAll M root d₀ attempts)
      rw [hlast]
      refine ⟨helsewhere.trans helse, ?_⟩
      rcases hstands with hnone | ⟨b, hb, hstood⟩
      · rcases hmay with hsame | ⟨_, hstood⟩
        · rw [Disk.tree_none hnone] at hsame
          exact Or.inl (Disk.look_of_tree hsame)
        · exact Or.inr ⟨a, List.mem_append_right _ List.mem_cons_self, hstood⟩
      · rw [Attempt.after_standing (stood_ne_none hstood)]
        exact Or.inr ⟨b, List.mem_append_left _ hb, hstood⟩

/-- What a start makes a store hold is what a run of a store comes to, where what backups hold
is. -/
theorem Attempt.Makes.run {attempt : Attempt} {t : Tables} (h : attempt.Makes M t)
    (hbackup : ∀ backup, attempt = .restored backup →
      ∃ past, Run M.outside (backup.tables :: past)) :
    ∃ past, Run M.outside (t :: past) := by
  cases attempt with
  | started role moment => exact ⟨[], .start ⟨role, "", moment, h⟩⟩
  | seeded role seed moment =>
      obtain ⟨first, hfirst, rfl | ⟨imported, himported⟩⟩ := h
      · exact ⟨[], .start ⟨role, "", moment, hfirst⟩⟩
      · obtain ⟨signed, _, himported⟩ := Raising.bind_ok.mp himported
        exact ⟨[first], .step (.start ⟨role, "", moment, hfirst⟩) ⟨_, trivial, .imported himported⟩⟩
  | restored backup =>
      obtain ⟨_, rfl⟩ := h
      exact hbackup backup rfl

end Staging

open Staging Store in
/-- However many starts are made, and wherever each fails or is killed, the place a store goes holds
nothing, or a marked store whole whose tables a run of a store comes to; nothing is another on the
disk but what is there and at the staging place; and once a store stands, no start changes
anything. -/
theorem starts_whole {root : Root} {d₀ : Disk} (hfree : d₀.look (root.path ++ [KB]) = none)
    {attempts : List (Attempt × (Nat → Fate Failure))} (houter : ∀ a ∈ attempts, ∀ n, outer (a.2 n))
    (hbackups : ∀ a ∈ attempts, ∀ backup, a.1 = .restored backup →
      ∃ past, Run M.outside (backup.tables :: past)) :
    Elsewhere root d₀ (afterAll M root d₀ attempts) ∧
      ((afterAll M root d₀ attempts).look (root.path ++ [KB]) = none ∨
        Stood M (fun t => (∃ a ∈ attempts, a.1.Makes M t) ∧ ∃ past, Run M.outside (t :: past))
          ((afterAll M root d₀ attempts).tree (root.path ++ [KB]))) ∧
      ∀ more, (afterAll M root d₀ attempts).look (root.path ++ [KB]) ≠ none →
        afterAll M root d₀ (attempts ++ more) = afterAll M root d₀ attempts := by
  have hall := afterAll_ends (M := M) hfree houter
  refine ⟨hall.1, hall.2.imp_right ?_, fun more hstands => ?_⟩
  · rintro ⟨a, ha, t, text, ht, htext, htree⟩
    exact ⟨t, text, ⟨⟨a, ha, ht⟩, ht.run (hbackups a ha)⟩, htext, htree⟩
  · rw [afterAll, List.foldl_append]
    show afterAll M root (afterAll M root d₀ attempts) more = afterAll M root d₀ attempts
    induction more with
    | nil => rfl
    | cons a more ih =>
        show afterAll M root (Attempt.after M root (afterAll M root d₀ attempts) a) more = _
        rw [Attempt.after_standing hstands]
        exact ih

namespace Placing

open Sample Staging

def root : Root := ⟨["r"], "/r"⟩

theorem alone_closed (p : Path) (e : Directory.Entry Held) (hp : p ≠ [])
    (h : standing [(["r"], .folder)] p = some e) :
    standing [(["r"], (.folder : Directory.Entry Held))] p.dropLast = some .folder := by
  have hr : p = ["r"] := by
    by_contra hr
    rw [standing, if_neg hp] at h
    simp [Assoc.get, Ne.symm hr] at h
  rw [hr]
  rfl

/-- A disk with the root on it and nothing else. -/
def alone : Disk := ⟨[(["r"], .folder)], alone_closed⟩

def machine : Machine := ⟨outside, none, fun _ => true, fun _ => "error"⟩

/-- Every step made, up to one the process is killed at. -/
def killed (n : Nat) : Nat → Fate Failure := fun m => if m < n then .made m else .stopped

theorem killed_outer (n m : Nat) : outer (killed n m) := by
  unfold killed
  split
  · exact fun _ => ⟨nofun, nofun⟩
  · exact fun _ => ⟨nofun, nofun⟩

def backup : Backup := ⟨"backup", some (Backups.MARK, Store.STORE_FORM), store []⟩

/-- A start killed while it writes its marker, and a restore killed once its store is in place. -/
def attempts : List (Attempt × (Nat → Fate Failure)) :=
  [(.started "role" 0, killed 20), (.restored backup, killed 28)]

end Placing

open Staging Store Placing in
/-- Nothing stands after the first of two starts that are killed, and the store the backup holds
after the second. -/
theorem starts_whole_killed :
    ((afterAll machine root alone (attempts.take 1)).look (root.path ++ [KB])).isNone = true ∧
    Elsewhere root alone (afterAll machine root alone attempts) ∧
    Stood machine
      (fun t => (∃ a ∈ attempts, a.1.Makes machine t) ∧ ∃ past, Run Sample.outside (t :: past))
      ((afterAll machine root alone attempts).tree (root.path ++ [KB])) ∧
    ∀ more, afterAll machine root alone
      (attempts ++ more) = afterAll machine root alone attempts := by
  obtain ⟨hran, hnothing, hstands⟩ : (Sample.ran []).isSome = true ∧
      ((afterAll machine root alone (attempts.take 1)).look (root.path ++ [KB])).isNone = true ∧
      ((afterAll machine root alone attempts).look (root.path ++ [KB])).isSome = true := by
    decide +kernel
  have hrun : Run Sample.outside [Sample.store []] := Sample.start_where hran
  have hstands : (afterAll machine root alone attempts).look (root.path ++ [KB]) ≠ none :=
    Option.isSome_iff_ne_none.mp hstands
  have houter : ∀ a ∈ attempts, ∀ n, outer (a.2 n) := by
    intro a ha n
    rcases List.mem_cons.mp ha with rfl | ha
    · exact killed_outer 20 n
    · cases List.mem_singleton.mp ha
      exact killed_outer 28 n
  have hbackups : ∀ a ∈ attempts, ∀ backup, a.1 = .restored backup →
      ∃ past, Run machine.outside (backup.tables :: past) := by
    intro a ha backup hbackup
    rcases List.mem_cons.mp ha with rfl | ha
    · nomatch hbackup
    · cases List.mem_singleton.mp ha
      cases hbackup
      exact ⟨[], hrun⟩
  obtain ⟨helsewhere, hwhole, hmore⟩ :=
    @starts_whole machine root alone rfl attempts houter hbackups
  exact ⟨hnothing, helsewhere, hwhole.resolve_left hstands, fun more => hmore more hstands⟩

end Kb
