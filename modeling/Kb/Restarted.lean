/-
# `Kb.Restarted` — what an earlier start left keeps no later one from being made

Wherever a start was killed, and whatever it left at the staging place, a start whose steps are all
made afterwards returns, puts a store whole in place and leaves nothing at the staging place.
-/
import Kb.Placed

namespace Kb

open Stopping Stopping.Program Files

variable {M : Machine}

theorem passing_returns {P : Disk → Prop} : Returns P passing fun _ => P :=
  .step fun _ d hd => ⟨(), d, rfl, hd⟩

theorem supported_returns (hM : M.lacking = none) {P : Disk → Prop} :
    Returns P (SqliteStore.supported M) fun _ => P := by
  refine .step fun _ d hd => ⟨(), d, ?_, hd⟩
  rw [hM]

theorem appending_returns {p : Path} (hp : p ≠ []) (cs : List Char) :
    Returns (fun d => ∃ c, d.look p = some (.file c)) (appending p cs) fun _ _ => True := by
  induction cs with
  | nil => exact .give fun _ _ => trivial
  | cons c cs ih =>
      refine Returns.bind (doing_returns fun d ⟨held, hfile⟩ => ?_) fun _ => ih
      obtain ⟨d', hchange⟩ := Disk.change_isSome (Held.push c) hp hfile
      obtain ⟨_, _, hput⟩ := Disk.change_ok hchange
      exact ⟨d', hchange, _, Disk.look_put_self hput⟩

theorem writeText_returns {p : Path} (hp : p ≠ []) (text : String) :
    Returns (fun d : Disk => d.look p.dropLast = some .folder ∧ d.look p = none)
      (writeText p text) fun _ _ => True := by
  refine Returns.bind (K := fun _ d => ∃ c, d.look p = some (.file c))
      (doing_returns fun d ⟨hparent, hnone⟩ => ?_) fun _ =>
    Returns.bind (appending_returns hp _) fun _ => passing_returns
  obtain ⟨d', hput⟩ := Disk.put_isSome (.file (Held.text "")) hp hparent (hnone ▸ nofun)
  exact ⟨d', hput, _, Disk.look_put_self hput⟩

theorem make_returns (hM : M.lacking = none) {p : Path} (hp : p ≠ []) :
    Returns (fun d : Disk => d.look p.dropLast = some .folder ∧ d.look p = none)
      (SqliteStore.make M p) fun _ _ => True := by
  refine Returns.bind (supported_returns hM) fun _ =>
    Returns.bind (K := fun _ d => d.look p = some (.file (.database none)))
    (doing_returns fun d ⟨hparent, hnone⟩ => ?_) fun _ =>
        Returns.bind (K := fun _ _ => True) (doing_returns fun d hfile => ?_) fun _ =>
      passing_returns
  · obtain ⟨d', hcreate⟩ := Disk.create_isSome (Held.database none) hp hparent hnone
    exact ⟨d', hcreate, Disk.look_put_self (Disk.create_ok hcreate).2⟩
  · obtain ⟨d', hchange⟩ := Disk.change_isSome (Held.withTables {}) hp hfile
    exact ⟨d', hchange, trivial⟩

theorem opened_returns (hM : M.lacking = none) {p : Path} (hp : p ≠ []) {α : Type}
    {act : Tables → Raises (α × Tables)} {s s' : Tables} {a : α} (hact : act s = .ok (a, s')) :
    Returns (fun d => d.look p = some (.file (.database (some s))))
      (SqliteStore.opened M p act) fun _ _ => True := by
  refine Returns.bind (supported_returns hM) fun _ => .step fun _ d hfile => ?_
  obtain ⟨d', hchange⟩ := Disk.change_isSome (Held.withTables s') hp hfile
  refine ⟨a, d', ?_, trivial⟩
  rw [hfile]
  simp only [hact, Machine.raising, Except.mapError, hchange]

/-! ## A start whose steps are made -/

theorem folder_here {root : Path} {d : Disk}
    (h : d.tree (root ++ [Store.KB]) = Directory.put Directory.empty [] .folder) :
    d.look (root ++ Store.DATABASE).dropLast = some .folder ∧ d.look
      (root ++ Store.DATABASE) = none := by
  rw [database_below, List.dropLast_concat]
  constructor
  · rw [← List.append_nil (root ++ [Store.KB])]
    exact congrFun h []
  · exact congrFun h ["store.sqlite3"]

theorem Store.start_returns (hM : M.lacking = none) {text : String}
    (htext : Marked M text) {root : Path} {made : Path → Doing Unit}
    {fill : Tables → Raises (Unit × Tables)} {t₀ t : Tables}
    (hwithin : Within smooth (root ++ [KB]) (· = Directory.put Directory.empty [] .folder)
      (made (root ++ DATABASE)) (fun _ tree => tree = unmarked (some t₀)) fun e _ => Plain smooth e)
    (hmade : Returns (fun d => d.look (root ++ DATABASE).dropLast = some .folder ∧
      d.look (root ++ DATABASE) = none)
      (made (root ++ DATABASE)) fun _ _ => True)
    (hfill : fill t₀ = .ok ((), t)) :
    Returns (fun d => d.look root = some .folder ∧ d.look (root ++ [KB]) = none)
      (start M root made fill) fun _ _ => True := by
  have hkb := place_ne_nil root KB
  have hdatabase : root ++ DATABASE ≠ [] := by
    rw [database_below]
    exact place_ne_nil _ _
  have hmarker : root ++ MARKER ≠ [] := by
    rw [marker_below]
    exact place_ne_nil _ _
  have hmkdir : Within smooth (root ++ [KB]) anything (Files.doing (notDone (root ++ [KB])) fun d :
      Disk => d.mkdir (root ++ [KB]))
      (fun _ tree => tree = Directory.put Directory.empty [] .folder) fun _ _ => True :=
        .mkdir fun _ _ _ _ => trivial
  have hopened : Within smooth (root ++ [KB]) (· = unmarked (some t₀))
      (SqliteStore.opened M (root ++ DATABASE) fill)
      (fun _ tree => tree = unmarked (some t)) fun _ _ => True := by
    rw [database_below]
    refine (opened_within fun _ _ _ _ => trivial).mono ?_
    rintro _ _ ⟨_, s, s', rfl, hs, hact, rfl⟩
    rw [unmarked, Directory.put_self] at hs
    cases hs
    cases hfill.symm.trans hact
    rw [unmarked, put_put]
    rfl
  refine Returns.bind (supported_returns hM) fun _ => Returns.bind
    (K := fun _ d => d.tree (root ++ [KB]) = Directory.put Directory.empty [] .folder) ?_ fun _ =>
      .catching ?_
  · refine (hmkdir.returns (fun _ _ => trivial) (doing_returns (K := fun _ _ => True) fun d hd =>
      ?_)).mono fun _ _ h => h.2
    obtain ⟨hroot, hnone⟩ := hd
    obtain ⟨d', hmkdir⟩ := Disk.mkdir_isSome hkb (by rw [List.dropLast_concat]; exact hroot) hnone
    exact ⟨d', hmkdir, trivial⟩
  refine Returns.bind
    ((hwithin.returns (fun _ h => h) (Ends.pre hmade fun _ h => folder_here h)).mono fun _ _ h =>
    h.2) fun _ => ?_
  refine Returns.bind
    ((hopened.returns (fun _ h => h)
    (Ends.pre (opened_returns hM hdatabase hfill) fun d h => ?_)).mono
    fun _ _ h => h.2) fun _ => ?_
  · rw [database_below]
    exact (congrFun h ["store.sqlite3"]).trans (Directory.put_self ..)
  refine Returns.bind
    (.of (a := text) (K := fun _ d => d.tree (root ++ [KB]) = unmarked (some t)) ?_ fun _ h =>
    h) fun text' => ?_
  · unfold Marked at htext
    rw [htext]
    rfl
  refine Ends.pre (writeText_returns hmarker text') fun d h => ?_
  rw [marker_below, List.dropLast_concat]
  constructor
  · rw [← List.append_nil (root ++ [KB])]
    exact congrFun h []
  · exact congrFun h ["store.yaml"]

theorem prepared_returns {α : Type} {P : Disk → Prop} {x : Doing α} {K : α → Disk → Prop}
    (h : Returns P x K) :
    Returns P (Starting.prepared x) K := .catching h

theorem vacant_returns {root : Root} {verb : String} :
    Returns (fun d => Store.refusal M d root verb = none)
    (Store.vacant M root verb) fun _ d => Store.refusal M d root verb = none := by
  refine .step fun _ d hnone => ⟨(), d, ?_, hnone⟩
  rw [hnone]

theorem refusal_folder {d : Disk} {root : Root} {verb : String}
    (h : Store.refusal M d root verb = none) :
    d.look root.path = some .folder := by
  unfold Store.refusal Store.refuseRoot at h
  split at h
  · nomatch h
  split at h
  · nomatch h
  next hfolder => exact Disk.isFolder_iff.mp (by simpa using hfolder)

/-- A start whose steps are all made returns, where a store can be started. -/
theorem init_returns (hM : M.lacking = none) {text : String} (htext : Marked M text) {root : Root}
    {role execution : String} {moment : Int} (hrole : role ≠ "") {t : Tables}
    (hstarted : Start.started M.outside role execution moment = .ok t) :
    Returns (fun d => Store.refusal M d root "started" = none)
      (Starting.init M root role execution moment) fun _ _ => True := by
  obtain ⟨digest, hdigest, hlanded⟩ := Start.started_ok hstarted
  have hfill : Start.filling M.outside role execution moment digest {} = .ok ((), t) := by
    unfold Start.filling
    rw [hlanded]
    rfl
  refine prepared_returns
    (Returns.bind (.of (K := fun _ d => Store.refusal M d root "started" = none)
    (if_neg hrole) fun _ h => h) fun _ => ?_)
  refine Returns.bind passing_returns fun _ => Returns.bind vacant_returns fun _ => ?_
  refine Returns.bind
    (.of (a := digest) (K := fun b d => b = digest ∧ Store.refusal M d root "started" = none)
    (by rw [hdigest]; rfl) fun _ h => ⟨rfl, h⟩) fun digest' =>
      .of_each fun d₀ ⟨hsame, hvacant⟩ => ?_
  rw [hsame]
  refine Ends.pre (Store.start_returns hM htext ?_ ?_ hfill) fun d (h : d = d₀) => h ▸
    ⟨refusal_folder hvacant, Staging.refusal_none hvacant⟩
  · rw [database_below]
    exact make_within
  · refine make_returns hM ?_
    rw [database_below]
    exact place_ne_nil _ _

/-! ## The staging place, whatever it holds -/

namespace Staging

open Store (KB STAGING MARKER)

variable {root : Root} {d₀ d : Disk}

theorem findAbove_none {start : Path} : Store.findAbove d start = none ↔ ∀ dir, dir <+: start →
    d.isFile (dir ++ MARKER) = false := by
  unfold Store.findAbove
  rw [List.find?_eq_none]
  constructor
  · intro h dir hdir
    simpa using h dir (by simpa using hdir)
  · intro h dir hdir
    simpa using h dir (by simpa using hdir)

/-- The marker of a store at or above a root is not at the staging place. -/
theorem marker_off {dir path : Path} (hdir : dir <+: path) :
    ¬ path ++ [STAGING] <+: dir ++ MARKER := by
  obtain ⟨rest, rfl⟩ := hdir
  rw [List.append_assoc, List.prefix_append_right_inj]
  intro h
  rcases rest with _ | ⟨a, _ | ⟨b, rest⟩⟩
  · exact absurd (List.cons_prefix_cons.mp h).1 (by decide)
  · exact absurd (List.cons_prefix_cons.mp (List.cons_prefix_cons.mp h).2).1 (by decide)
  · have hlength := h.length_le
    simp [MARKER] at hlength

theorem look_isFile {q : Path} (h : d.look q = d₀.look q) : d.isFile q = d₀.isFile q := by
  unfold Disk.isFile
  rw [h]

/-- What a root a store can be started in holds. -/
structure Vacant (M : Machine) (root : Root) (d : Disk) : Prop where
  folder : d.look root.path = some .folder
  free : d.look (root.path ++ [KB]) = none
  above : ∀ dir, dir <+: root.path → d.isFile (dir ++ MARKER) = false
  writable : M.writable root.path = true

theorem prefix_dropLast {dir path : Path} (h : dir <+: path) :
    dir = path ∨ dir <+: path.dropLast := by
  by_cases hpath : path = []
  · rw [hpath] at h ⊢
    exact Or.inl (List.prefix_nil.mp h)
  · rw [← List.dropLast_append_getLast hpath] at h
    rw [← List.dropLast_append_getLast hpath, List.dropLast_concat]
    exact List.prefix_concat_iff.mp h

theorem vacant_iff {verb : String} : Store.refusal M d root verb = none ↔ Vacant M root d := by
  unfold Store.refusal Store.refuseRoot
  constructor
  · intro h
    split at h
    · nomatch h
    split at h
    · nomatch h
    next hfolder =>
    split at h
    · nomatch h
    next hmarker =>
    split at h
    · nomatch h
    next hkb =>
    split at h
    · nomatch h
    next habove =>
    split at h
    swap
    · nomatch h
    next hwritable =>
    refine ⟨Disk.isFolder_iff.mp (by simpa using hfolder),
      Option.isNone_iff_eq_none.mp (by simpa using hkb), fun dir hdir => ?_,
      hwritable⟩
    rcases prefix_dropLast hdir with rfl | hdir
    · simpa using hmarker
    · exact findAbove_none.mp habove dir hdir
  · intro h
    have hfolder : d.isFolder root.path = true := Disk.isFolder_iff.mpr h.folder
    have habove : Store.findAbove d root.path.dropLast = none :=
      findAbove_none.mpr fun dir hdir => h.above dir (hdir.trans (List.dropLast_prefix _))
    rw [h.folder, hfolder, h.above root.path (List.prefix_refl _), h.free, habove, h.writable]
    rfl

/-- The staging place of a root a store can be started in, made empty, is one a store can be started
in. -/
theorem Vacant.staging (h : Vacant M root d₀) (hoff : Off (root.path ++ [STAGING]) d₀ d)
    (htree : d.tree (root.path ++ [STAGING]) = Directory.put Directory.empty [] .folder)
    (hwritable : M.writable (root.path ++ [STAGING]) = true) : Vacant M (place root) d where
  folder := by
    show d.look (root.path ++ [STAGING]) = _
    rw [← List.append_nil (root.path ++ [STAGING])]
    exact congrFun htree []
  free := congrFun htree [KB]
  above := by
    intro dir hdir
    rcases prefix_dropLast hdir with rfl | hdir
    · have hnone : d.look ((place root).path ++ MARKER) = none := congrFun htree MARKER
      unfold Disk.isFile
      rw [hnone]
    · have hdir : dir <+: root.path := by
        have hpath : (place root).path.dropLast = root.path := List.dropLast_concat
        rwa [hpath] at hdir
      rw [look_isFile (hoff _ (marker_off hdir))]
      exact h.above dir hdir
  writable := hwritable

theorem not_below (path : Path) (name : String) : ¬ path ++ [name] <+: path := by
  intro h
  have hlength := h.length_le
  simp at hlength

/-- Starts that put no store in place leave a root as one a store can be started in. -/
theorem Vacant.elsewhere (h : Vacant M root d₀) (he : Elsewhere root d₀ d)
    (hfree : d.look (root.path ++ [KB]) = none) :
    Vacant M root d where
  folder := by
    rw [he _ (not_below _ _) (not_below _ _)]
    exact h.folder
  free := hfree
  above := by
    intro dir hdir
    by_cases hin : root.path ++ [KB] <+: dir ++ MARKER
    · obtain ⟨rest, hrest⟩ := hin
      have hnone : d.look (root.path ++ [KB] ++ rest) = none := congrFun (Disk.tree_none hfree) rest
      unfold Disk.isFile
      rw [← hrest, hnone]
    · rw [look_isFile (he _ (marker_off hdir) hin)]
      exact h.above dir hdir
  writable := h.writable

theorem cleared_returns (p : Path) :
    Returns (fun d => d.isFile p = false) (cleared p) fun _ _ => True := by
  refine Returns.bind (K := fun stands d => d.isFile p = false ∧ stands = (d.look p).isSome)
    (.step fun _ d h => ⟨_, d, rfl, h, rfl⟩)
    fun stands => ?_
  cases stands with
  | false => exact .give fun _ _ => trivial
  | true =>
      refine Ends.pre (rmtree_returns (notDone p) p) fun d ⟨hfile, hstands⟩ => ?_
      obtain ⟨entry, hentry⟩ := Option.isSome_iff_exists.mp hstands.symm
      cases entry with
      | folder => exact hentry
      | file c =>
          rw [Disk.isFile_iff.mpr ⟨c, hentry⟩] at hfile
          nomatch hfile

theorem emptied_returns {p : Path} (hp : p ≠ []) :
    Returns (fun d => d.isFile p = false ∧ d.look p.dropLast = some .folder)
      (emptied p) fun _ _ => True := by
  refine Ends.of_each fun d₀ ⟨hfile, hparent⟩ =>
    Returns.bind (K := fun _ d => Off p d₀ d ∧ d.tree p = Directory.empty) ?_
    fun _ => doing_returns fun d ⟨hoff, hgone⟩ => ?_
  · refine (Returns.with (Ends.pre (cleared_returns p) fun d (h : d = d₀) => h ▸ hfile)
      ((cleared_within hp).begun d₀ trivial)).mono
      fun u d ⟨_, hoff, hgone, _⟩ => ⟨hoff, hgone u rfl⟩
  · have hup : ¬ p <+: p.dropLast :=
      fun h => ne_dropLast hp ((List.dropLast_prefix p).eq_of_length_le h.length_le)
    obtain ⟨d', hmkdir⟩ :=
      Disk.mkdir_isSome hp ((hoff _ hup).trans hparent) (Disk.look_of_tree hgone)
    exact ⟨d', hmkdir, trivial⟩

/-- A part of a start staged, where no file stands at the staging place, returns where it does from
that place made empty. -/
theorem staged_returns {α : Type} {x : Doing α} (hfolder : d₀.look root.path = some .folder)
    (hfile : d₀.isFile (root.path ++ [STAGING]) = false)
    (hx : ∀ d₁, Off (root.path ++ [STAGING]) d₀ d₁ →
      d₁.tree (root.path ++ [STAGING]) = Directory.put Directory.empty [] .folder →
      Returns (· = d₁) x fun _ d => d.isFile (root.path ++ [STAGING]) = false) :
    Returns (· = d₀) (staged root x) fun _ _ => True := by
  have hplace := place_ne_nil root.path STAGING
  refine Returns.bind (K := fun _ d => Off (root.path ++ [STAGING]) d₀ d ∧
    d.tree (root.path ++ [STAGING]) = Directory.put Directory.empty [] .folder) ?_ fun _ =>
        .of_each fun d₁ ⟨hoff, hempty⟩ =>
      Returns.ensuring (hx d₁ hoff hempty) fun _ => cleared_returns _
  refine (Returns.with
    (Ends.pre (prepared_returns (emptied_returns hplace)) fun d (h : d = d₀) => ?_)
    ((prepared_within (emptied_within hplace)).begun d₀ trivial)).mono fun u d ⟨_, hoff, hempty,
      _⟩ => ⟨hoff, hempty u rfl⟩
  rw [h, List.dropLast_concat]
  exact ⟨hfile, hfolder⟩

variable {role text : String} {moment : Int} {t : Tables}

/-- A start whose steps are all made, where a store can be started and no file stands at the staging
place. -/
theorem started_returns (hM : M.lacking = none) (htext : Marked M text) (hrole : role ≠ "")
    (hstarted : Start.started M.outside role "" moment = .ok t)
    (hwritable : M.writable (root.path ++ [STAGING]) = true) (hvacant : Vacant M root d₀)
    (hfile : d₀.isFile (root.path ++ [STAGING]) = false) :
    Returns (· = d₀) (started M root role moment) fun _ _ => True := by
  refine Returns.bind (K := fun _ d => d = d₀) ?_ fun _ =>
    staged_returns hvacant.folder hfile fun d₁ hoff hempty => ?_
  · exact (Returns.with (Ends.pre (prepared_returns vacant_returns) fun d (h : d = d₀) => h ▸
      vacant_iff.mpr hvacant) vacant_ends).mono
      fun _ _ h => h.2.1
  -- the store started in the staging place, and moved out of it
  refine Returns.bind (K := fun _ d => Off (root.path ++ [STAGING] ++ [KB]) d₁ d ∧
    ∃ t text, d.tree (root.path ++ [STAGING] ++ [KB]) = whole text t) ?_ fun _ =>
      doing_returns fun d ⟨hinner, t, text, htree⟩ => ?_
  · have hvacant' := hvacant.staging hoff hempty hwritable
    refine (Returns.with (Ends.pre (init_returns hM htext hrole hstarted) fun d (h : d = d₁) => h ▸
      vacant_iff.mpr hvacant')
      (staged_within.begun d₁ trivial)).mono fun u d ⟨_, hinner, htree, _⟩ => ?_
    obtain ⟨t, text, _, _, htree⟩ := htree u rfl
    exact ⟨hinner, t, text, htree⟩
  · have hall : Off (root.path ++ [STAGING]) d₀ d :=
      hoff.trans (hinner.up (List.prefix_append _ [KB]))
    have hnone : d.look (root.path ++ [KB]) = none :=
      (hall _ (apart root.path).1).trans hvacant.free
    have hroot : d.isFolder (root.path ++ [KB]).dropLast = true := by
      rw [List.dropLast_concat, Disk.isFolder_iff, hall _ (not_below root.path STAGING)]
      exact hvacant.folder
    have hstands : (d.look (root.path ++ [STAGING] ++ [KB])).isSome = true := by
      rw [← List.append_nil (root.path ++ [STAGING] ++ [KB]), show d.look _ = whole text t []
        from congrFun htree []]
      rfl
    have hnot : ¬ root.path ++ [STAGING] ++ [KB] <+: root.path ++ [KB] := fun h =>
      (apart root.path).1 ((List.prefix_append _ [KB]).trans h)
    obtain ⟨d', hmoved⟩ :=
      Disk.move_isSome ⟨place_ne_nil _ KB, place_ne_nil _ KB, hstands, hnone ▸ rfl, hroot, hnot⟩
    refine ⟨d', (Disk.rename_fresh _ hnone).trans hmoved, ?_⟩
    have hself : d'.look (root.path ++ [STAGING]) = some .folder := by
      have hbelow := not_below (root.path ++ [STAGING]) KB
      rw [(Disk.move_some hmoved).2.2 _ hbelow (apart root.path).2, hinner _ hbelow,
        ← List.append_nil (root.path ++ [STAGING])]
      exact congrFun hempty []
    unfold Disk.isFile
    rw [hself]

/-! ## No file at the staging place -/

/-- No file stands at the staging place of a root. -/
def NoFile (root : Root) (d : Disk) : Prop := d.isFile (root.path ++ [STAGING]) = false

variable {A : Fate Failure → Prop} {α : Type}

/-- What fills the staged store puts no file where it is staged. -/
theorem within_keeps {x : Doing α} {U : α → Directory.Tree String Held → Prop}
    {R : Failure → Directory.Tree String Held → Prop}
    (h : Within A (root.path ++ [STAGING] ++ [KB]) anything x U R) : Keeps A (NoFile root) x := by
  refine Ends.of_each fun d hd => (h.begun d trivial).mono fun _ d' ⟨hoff, _⟩ => ?_
  exact (look_isFile (hoff _ (not_below _ KB))).trans hd

theorem prepared_keeps {I : Disk → Prop} {x : Doing α} (h : Keeps A I x) :
    Keeps A I (Starting.prepared x) := by
  refine .catching h fun e => ?_
  show Keeps A I (if e.caught then _ else _)
  split
  · exact .throw
  · exact .throw

theorem cleared_keeps : Keeps A (NoFile root) (cleared (root.path ++ [STAGING])) := by
  refine Keeps.bind (.step fun _ d _ d' h hact => ?_) fun stands => ?_
  · cases hact
    exact h
  · cases stands with
    | true => exact rmtree_keeps (place_ne_nil _ _)
    | false => exact .give

theorem staged_keeps {x : Doing α} (h : Keeps A (NoFile root) x) :
    Keeps A (NoFile root) (staged root x) := by
  refine Keeps.bind
      (prepared_keeps (Keeps.bind cleared_keeps fun _ => doing_keeps fun d d' _ hmkdir => ?_))
      fun _ =>
    .ensuring h cleared_keeps
  have hfolder : d'.look (root.path ++ [STAGING]) = some .folder :=
    Disk.look_put_self (Disk.mkdir_ok hmkdir).2
  unfold NoFile Disk.isFile
  rw [hfolder]

theorem placed_keeps : Keeps A (NoFile root) (placed root) := by
  refine doing_keeps fun d d' h hrename => ?_
  exact (look_isFile (Disk.rename_off hrename (not_below _ KB) (apart root.path).2)).trans h

theorem vacant_keeps {verb : String} : Keeps A (NoFile root) (Starting.vacant M root verb) :=
  within_keeps (prepared_within vacant_within)

theorem import_keeps {seed : Seed} {role : String} :
    Keeps A (NoFile root) (Operating.import_ M (place root) seed role) := by
  refine within_keeps (U := fun _ _ => True) (R := fun _ _ => True)
    (.catching (R := fun _ _ => True) ?_ fun e => ?_)
  · refine Within.bind (.read (U := fun _ => anything) (fun _ d a d' h => ?_)
      (fun _ _ h => h) fun _ _ _ _ => trivial) fun _ => ?_
    · cases htold : Store.toldApart M d (place root) with
      | error e =>
          rw [htold] at h
          nomatch h
      | ok told =>
          rw [htold] at h
          cases h
          rfl
    · have hopened := @opened_within M A (root.path ++ [STAGING] ++ [KB]) ["store.sqlite3"] anything
        (fun _ _ => True) _
        (Operating.importing M seed role) fun _ _ _ _ => trivial
      rw [← database_below] at hopened
      exact hopened.mono fun _ _ _ => trivial
  · show Within A _ _ (if e.caught then _ else _) _ _
    split
    · exact .give fun _ _ => trivial
    · exact .throw fun _ _ => trivial

theorem run_keeps (attempt : Attempt) : Keeps outer (NoFile root) (attempt.run M root) := by
  have hinit : ∀ {role : String} {moment : Int},
      Keeps outer (NoFile root) (Starting.init M (place root) role "" moment) :=
    within_keeps (@init_within M outer (place root) _ "" _)
  have hplaced : ∀ {β : Type} (good : Bool) (b : β),
      Keeps outer (NoFile root) (if good then placed root >>= fun _ => pure b
          else (pure b : Doing β)) := by
    intro β good b
    cases good with
    | true => exact Keeps.bind placed_keeps fun _ => .give
    | false => exact .give
  cases attempt with
  | started role moment =>
      exact Keeps.bind (Keeps.bind vacant_keeps fun _ =>
        staged_keeps (Keeps.bind hinit fun _ => placed_keeps)) fun _ => .give
  | seeded role seed moment =>
      refine Keeps.bind (Keeps.bind vacant_keeps fun _ =>
          staged_keeps (Keeps.bind hinit fun _ => Keeps.bind import_keeps fun imported =>
        hplaced imported.faults.isEmpty imported)) fun _ => .give
  | restored backup =>
      refine Keeps.bind (Keeps.bind vacant_keeps fun _ =>
        Keeps.bind (prepared_keeps ?_) fun _ => staged_keeps
        (Keeps.bind (within_keeps restore_within) fun refused => hplaced refused.isEmpty refused))
          fun _ => .give
      cases Backups.read backup with
      | ok u => exact .give
      | error e => exact .throw

theorem afterAll_keeps {attempts : List (Attempt × (Nat → Fate Failure))}
    (houter : ∀ a ∈ attempts, ∀ n, outer (a.2 n)) (h : NoFile root d₀) :
    NoFile root (afterAll M root d₀ attempts) := by
  induction attempts generalizing d₀ with
  | nil => exact h
  | cons a attempts ih =>
      exact ih (fun b hb => houter b (List.mem_cons_of_mem _ hb))
        (run_keeps a.1 a.2 (houter a List.mem_cons_self) d₀ 0 h)

end Staging

open Staging Store in
/-- Where starts failed or were killed, any number of them and wherever, and none put a store in
place, a start whose steps are all made returns: it puts in place the store it would on a root never
started in, and leaves nothing at the staging place. -/
theorem start_recovers {root : Root} {d₀ : Disk}
    (hvacant : Store.refusal M d₀ root "started" = none) (hfile : NoFile root d₀)
    {attempts : List (Attempt × (Nat → Fate Failure))} (houter : ∀ a ∈ attempts, ∀ n, outer (a.2 n))
    (hnothing : (afterAll M root d₀ attempts).look (root.path ++ [KB]) = none)
    (hM : M.lacking = none) (hwritable : M.writable (root.path ++ [STAGING]) = true) {text : String}
    (htext : Marked M text) {role : String} (hrole : role ≠ "") {moment : Int} {t : Tables}
    (hstarted : Start.started M.outside role "" moment = .ok t) {fates : Nat → Fate Failure}
    (hfates : ∀ n, smooth (fates n)) :
    ∃ d n, started M root role moment fates
      (afterAll M root d₀ attempts, 0) = (.returned (), d, n) ∧
      d.tree (root.path ++ [KB]) = whole text t ∧ d.tree
        (root.path ++ [STAGING]) = Directory.empty ∧ Elsewhere root d₀ d := by
  have hvacant' : Vacant M root d₀ := vacant_iff.mp hvacant
  obtain ⟨helsewhere, _⟩ := afterAll_ends (M := M) hvacant'.free houter
  have hreturns :=
    started_returns hM htext hrole hstarted hwritable (hvacant'.elsewhere helsewhere hnothing)
    (afterAll_keeps houter hfile)
  have hends : Ends smooth (· = afterAll M root d₀ attempts) (started M root role moment) _ :=
      started_ends fun f ⟨choice, hf⟩ => by
    rw [hf]
    exact fun _ => ⟨nofun, nofun⟩
  obtain ⟨u, hu, _, hending⟩ := Returns.with hreturns hends fates hfates _ 0 rfl
  rcases hout : started M root role moment fates (afterAll M root d₀ attempts, 0) with ⟨out, d, n⟩
  rw [hout] at hu hending
  have hu : out = .returned () := hu
  obtain ⟨t', text', ht', htext', htree⟩ := hending.1.returned () rfl
  refine ⟨d, n, by rw [hu], ?_, hending.2 () rfl, helsewhere.trans hending.1.elsewhere⟩
  cases ht'.symm.trans hstarted
  cases htext'.symm.trans htext
  exact htree

namespace Placing

open Sample Staging

/-- Two starts killed, the second while it clears what the first left. -/
def cut : List (Attempt × (Nat → Fate Failure)) :=
  [(.started "role" 0, killed 24), (.started "role" 0, killed 4)]

/-- What a start whose steps are all made fills a store with. -/
def begun : Tables := (Start.started outside "role" "" 0).toOption.getD {}

theorem begun_ok (h : (Start.started outside "role" "" 0).toOption.isSome = true) :
    Start.started outside "role" "" 0 = .ok begun := by
  obtain ⟨t, ht⟩ := Option.isSome_iff_exists.mp h
  rw [begun, ht]
  exact toOption_some ht

end Placing

open Staging Store Placing in
/-- A start made after two that were killed. -/
theorem start_recovers_killed :
    ((afterAll machine root alone cut).look (root.path ++ [STAGING, KB])).isSome = true ∧
    ∃ d n, started machine root "role" 0 (fun m => .made m)
      (afterAll machine root alone cut, 0) = (.returned (), d, n) ∧
      d.tree (root.path ++ [KB]) = whole "store: 2\n" begun ∧ d.tree
        (root.path ++ [STAGING]) = Directory.empty ∧
      Elsewhere root alone d := by
  obtain ⟨hleft, hnothing, hvacant, hstarted⟩ :
      ((afterAll machine root alone cut).look (root.path ++ [STAGING, KB])).isSome = true ∧
      ((afterAll machine root alone cut).look (root.path ++ [KB])).isNone = true ∧
      (Store.refusal machine alone root "started").isNone = true ∧
      (Start.started Sample.outside "role" "" 0).toOption.isSome = true := by
    decide +kernel
  have houter : ∀ a ∈ cut, ∀ n, outer (a.2 n) := by
    intro a ha n
    rcases List.mem_cons.mp ha with rfl | ha
    · exact killed_outer 24 n
    · cases List.mem_singleton.mp ha
      exact killed_outer 4 n
  exact ⟨hleft, start_recovers (Option.isNone_iff_eq_none.mp hvacant) rfl houter
    (Option.isNone_iff_eq_none.mp hnothing) rfl rfl rfl
    (by decide) (begun_ok hstarted) fun n => ⟨n, rfl⟩⟩

end Kb
