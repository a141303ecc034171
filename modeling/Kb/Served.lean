/-
# `Kb.Served` — a store started to be served is kept whole, or taken back whole

`staging.serving` starts a store for a block to serve, and takes it back out of the root where the
block did not keep it.  Wherever it fails or is killed, what stands where a store goes is nothing,
or what the block makes of a store; and where the steps of the start and of the taking back are
made, a store the block did not keep leaves the root as it was found.
-/
import Kb.Restarted

namespace Kb

open Stopping Stopping.Program Files

variable {M : Machine} {A : Fate Failure → Prop}

namespace Staging

open Store (KB STAGING)

variable {root : Root} {d₀ d₁ : Disk}

/-- A store taken back stands as it did until it is out of the root, and is gone where that
returns. -/
theorem takenBack_ends (hA : ∀ f, A f → outer f) : Ends A (· = d₁) (takenBack root) fun out d =>
    Elsewhere root d₁ d ∧ (d.tree (root.path ++ [KB]) = d₁.tree (root.path ++ [KB]) ∨
      d.tree (root.path ++ [KB]) = Directory.empty) ∧
      (out = .returned () → d.tree (root.path ++ [KB]) = Directory.empty ∧
        d.tree (root.path ++ [STAGING]) = Directory.empty) := by
  refine (staged_ends (G := fun tree => tree = d₁.tree (root.path ++ [KB]) ∨ tree = Directory.empty)
    (U := fun _ tree => tree = Directory.empty) hA (Or.inl rfl)
      (doing_ends (fun d d' hoff hrename => ?_) ?_ ?_)).mono
      fun out d ⟨h, hempty⟩ =>
        ⟨h.elsewhere, h.stands, fun hout => ⟨h.returned () hout, hempty () hout⟩⟩
  · have hgone := Disk.rename_gone hrename
    refine ⟨fun q hq hq' => ?_, Or.inr hgone, fun _ _ => hgone, nofun⟩
    rw [Disk.rename_off hrename hq' fun h => hq ((List.prefix_append _ [KB]).trans h)]
    exact hoff q hq
  · intro e d _ hoff
    exact .of_place (Or.inl rfl) hoff nofun
  · intro d hoff
    exact .of_place (Or.inl rfl) hoff nofun

/-- A store that stands is taken back where the steps are made. -/
theorem takenBack_returns (hfolder : d₁.look root.path = some .folder)
    (hfile : d₁.isFile (root.path ++ [STAGING]) = false)
    (hstands : d₁.look (root.path ++ [KB]) ≠ none) :
    Returns (· = d₁) (takenBack root) fun _ _ => True := by
  refine staged_returns hfolder hfile fun d₂ hoff hempty => doing_returns fun d (hd : d = d₂) => ?_
  rw [hd]
  have hself : d₂.look (root.path ++ [STAGING]) = some .folder := by
    rw [← List.append_nil (root.path ++ [STAGING])]
    exact congrFun hempty []
  have hnone : d₂.look (root.path ++ [STAGING] ++ [KB]) = none := congrFun hempty [KB]
  have hsrc : (d₂.look (root.path ++ [KB])).isSome = true := by
    rw [hoff _ (apart root.path).1]
    exact Option.isSome_iff_ne_none.mpr hstands
  have hparent : d₂.isFolder (root.path ++ [STAGING] ++ [KB]).dropLast = true := by
    rw [List.dropLast_concat, Disk.isFolder_iff]
    exact hself
  have hnot : ¬ root.path ++ [KB] <+: root.path ++ [STAGING] ++ [KB] := by
    intro h
    refine (apart root.path).2 (List.prefix_of_prefix_length_le h (List.prefix_append _ [KB]) ?_)
    simp
  obtain ⟨d', hmoved⟩ :=
    Disk.move_isSome ⟨place_ne_nil _ KB, place_ne_nil _ KB, hsrc, hnone ▸ rfl, hparent, hnot⟩
  refine ⟨d', (Disk.rename_fresh _ hnone).trans hmoved, ?_⟩
  have hleft : d'.look (root.path ++ [STAGING]) = d₂.look (root.path ++ [STAGING]) :=
    (Disk.move_some hmoved).2.2 _ (apart root.path).2 (not_below _ KB)
  rw [look_isFile hleft]
  unfold Disk.isFile
  rw [hself]

variable {role : String} {moment : Int} {block : Doing Block}
  {B : Directory.Tree String Held → Prop}

/-- What a block keeps of the store it serves, it keeps run to its end. -/
theorem ran_keeps {I : Disk → Prop} (h : Keeps A I block) : Keeps A I (ran block) :=
  .catching h fun _ => .give

theorem Block.raise_ends {Q : Stopping.Ended Failure Unit → Disk → Prop} {P : Disk → Prop}
    (block : Block) (h : ∀ d, P d → Q block.ending d) : Ends A P block.raise Q := by
  unfold Block.ending at h
  unfold Block.raise
  cases hraised : block.raised with
  | some e =>
      rw [hraised] at h
      exact .throw h
  | none =>
      rw [hraised] at h
      exact .give h

theorem unkept_left {b : Block} (h : b.left = true) : unkept root (some role) b = give () := by
  unfold unkept
  rw [h]
  rfl

theorem unkept_taken {b : Block} (h : b.left = false) :
    unkept root (some role) b = takenBack root := by
  unfold unkept
  rw [h]
  rfl

end Staging

open Staging Store in
/-- Wherever serving a store just started fails or is killed, the place a store goes holds nothing,
or what the block it is served in makes of a store whole, and nothing is another on the disk but
what is there and at the staging place. -/
theorem served_whole {root : Root} {d₀ : Disk} (hfree : d₀.look (root.path ++ [KB]) = none)
    {role : String} {moment : Int} {B : Directory.Tree String Held → Prop}
    (hbegun : ∀ t text, Start.started M.outside role "" moment = .ok t → Marked M text →
      B (whole text t)) {block : Doing Block}
    (hblock : ∀ d,
      Keeps outer (fun d' => Off (root.path ++ [KB]) d d' ∧ B (d'.tree (root.path ++ [KB]))) block)
    {fates : Nat → Fate Failure} (hfates : ∀ n, outer (fates n)) {d : Disk}
    (hout : (serving M root (some role) moment block fates (d₀, 0)).2.1 = d) :
    Elsewhere root d₀ d ∧ (d.look (root.path ++ [KB]) = none ∨ B (d.tree (root.path ++ [KB]))) := by
  have hnone : d₀.tree (root.path ++ [KB]) = Directory.empty := Disk.tree_none hfree
  have hserving : Ends outer (· = d₀) (serving M root (some role) moment block) fun _ d =>
      Elsewhere root d₀ d ∧
          (d.tree (root.path ++ [KB]) = Directory.empty ∨ B (d.tree (root.path ++ [KB]))) := by
    refine Ends.bind (M := fun _ d => Elsewhere root d₀ d ∧ B (d.tree (root.path ++ [KB])))
      ((started_ends fun _ h => h).mono fun out d ⟨hleaves, _⟩ => ?_) fun _ =>
        .of_each fun d₁ ⟨helsewhere, hstood⟩ => ?_
    · have hstands : d.tree (root.path ++ [KB]) = Directory.empty ∨
          B (d.tree (root.path ++ [KB])) := by
        rcases hleaves.stands with hsame | ⟨_, t, text, ht, htext, htree⟩
        · exact Or.inl (hsame.trans hnone)
        · exact Or.inr (htree ▸ hbegun t text ht htext)
      cases out with
      | returned u =>
          obtain ⟨t, text, ht, htext, htree⟩ := hleaves.returned u rfl
          exact ⟨hleaves.elsewhere, htree ▸ hbegun t text ht htext⟩
      | raised e => exact ⟨hleaves.elsewhere, hstands⟩
      | stopped => exact ⟨hleaves.elsewhere, hstands⟩
    have hran : Keeps outer (fun d => Off (root.path ++ [KB]) d₁ d ∧ B (d.tree (root.path ++ [KB])))
        (ran block) :=
      ran_keeps (hblock d₁)
    refine Ends.bind (M := fun _ d => Elsewhere root d₀ d ∧ B (d.tree (root.path ++ [KB])))
      ((Ends.pre hran (R := (· = d₁)) ?_).mono fun out d ⟨hoff, hB⟩ => ?_) fun ended =>
        .of_each fun d₂ ⟨helsewhere, hB⟩ => ?_
    · rintro d rfl
      exact ⟨Off.refl _ d, hstood⟩
    · have helsewhere := helsewhere.trans fun q _ hq => hoff q hq
      cases out with
      | returned _ => exact ⟨helsewhere, hB⟩
      | raised e => exact ⟨helsewhere, Or.inr hB⟩
      | stopped => exact ⟨helsewhere, Or.inr hB⟩
    refine Ends.bind (M := fun _ d => Elsewhere root d₀ d ∧
      (d.tree (root.path ++ [KB]) = Directory.empty ∨ B (d.tree (root.path ++ [KB]))))
      ?_ fun _ => ended.raise_ends fun d h => h
    cases hleft : ended.left with
    | true =>
        rw [unkept_left hleft]
        exact .give fun d (hd : d = d₂) => hd ▸ ⟨helsewhere, Or.inr hB⟩
    | false =>
        rw [unkept_taken hleft]
        refine (takenBack_ends fun _ h => h).mono fun out d ⟨helse, htree, _⟩ => ?_
        have hends : Elsewhere root d₀ d ∧
            (d.tree (root.path ++ [KB]) = Directory.empty ∨ B (d.tree (root.path ++ [KB]))) :=
          ⟨helsewhere.trans helse, htree.symm.imp_right fun hsame => by rw [hsame]; exact hB⟩
        cases out with
        | returned _ => exact hends
        | raised e => exact hends
        | stopped => exact hends
  have hends := hserving fates hfates d₀ 0 rfl
  rw [hout] at hends
  exact ⟨hends.1, hends.2.imp_left Disk.look_of_tree⟩

namespace Placing

open Sample Staging Store

/-- A server's lock file. -/
def lock : Path := ["served.yaml"]

/-- A server that takes the lock and then cannot serve at its address. -/
def failing : Doing Block := do
  Files.doing (notDone (root.path ++ [KB] ++ lock)) fun d =>
    d.put (root.path ++ [KB] ++ lock) (.file (.text ""))
  throw (.other "ValueError: the address is in use")

/-- A store's marker and a database stand. -/
def Bears (tree : Directory.Tree String Held) : Prop :=
  tree [] = some .folder ∧ tree ["store.yaml"] = some (.file (.text "store: 2\n")) ∧
    ∃ t, tree ["store.sqlite3"] = some (.file (.database (some t)))

theorem bears_whole (t : Tables) : Bears (whole "store: 2\n" t) := ⟨rfl, rfl, t, rfl⟩

theorem bears_lock {tree : Directory.Tree String Held} (h : Bears tree) :
    Bears (Directory.put tree lock (.file (.text ""))) := by
  obtain ⟨hfolder, hmarker, t, hdatabase⟩ := h
  have hne : ∀ q : Path, q ≠ lock → Directory.put tree lock (.file (.text "")) q = tree q :=
    fun q hq => Directory.put_of_ne _ _ hq
  exact ⟨(hne _ (by decide)).trans hfolder, (hne _ (by decide)).trans hmarker, t,
    (hne _ (by decide)).trans hdatabase⟩

theorem lock_put {d₁ d d' : Disk}
    (h : Off (root.path ++ [KB]) d₁ d ∧ Bears (d.tree (root.path ++ [KB])))
    (hput : d.put (root.path ++ [KB] ++ lock) (.file (.text "")) = some d') :
    Off (root.path ++ [KB]) d₁ d' ∧ Bears (d'.tree (root.path ++ [KB])) := by
  refine ⟨h.1.trans ((Disk.put_off hput).up (List.prefix_append _ lock)), ?_⟩
  rw [Disk.tree_put hput]
  exact bears_lock h.2

theorem failing_keeps {A : Fate Failure → Prop} (d₁ : Disk) :
    Keeps A (fun d => Off (root.path ++ [KB]) d₁ d ∧ Bears (d.tree (root.path ++ [KB]))) failing :=
  Keeps.bind (doing_keeps fun _ _ h hput => lock_put h hput) fun _ => .throw

/-- How that server ends: nothing kept. -/
def Unable (block : Block) (tree : Directory.Tree String Held) : Prop :=
  block = ⟨some (.other "ValueError: the address is in use"), false⟩ ∧ Bears tree

theorem failing_returns {d₁ : Disk} {t : Tables}
    (h : d₁.tree (root.path ++ [KB]) = whole "store: 2\n" t) :
    Returns (· = d₁) (ran failing) fun b d => Off (root.path ++ [KB]) d₁ d ∧ Unable b
      (d.tree (root.path ++ [KB])) := by
  refine Ends.catching (M := fun e d => e = .other "ValueError: the address is in use" ∧
    Off (root.path ++ [KB]) d₁ d ∧
    Bears (d.tree (root.path ++ [KB])))
      (Returns.andThen (K := fun _ d => Off (root.path ++ [KB]) d₁ d ∧
      Bears (d.tree (root.path ++ [KB]))) (doing_returns fun d hd => ?_) fun _ => .throw fun d hd =>
        ⟨rfl, hd⟩) fun e => .give ?_
  · rw [show d = d₁ from hd]
    have hparent : d₁.look (root.path ++ [KB] ++ lock).dropLast = some .folder := congrFun h []
    have hnone : d₁.look (root.path ++ [KB] ++ lock) = none := congrFun h lock
    obtain ⟨d', hput⟩ :=
      Disk.put_isSome (.file (Held.text "")) (place_ne_nil (root.path ++ [KB]) "served.yaml")
      hparent (hnone ▸ nofun)
    exact ⟨d', hput, lock_put ⟨Off.refl _ d₁, h ▸ bears_whole t⟩ hput⟩
  · rintro d ⟨rfl, hoff, hbears⟩
    exact ⟨_, rfl, hoff, rfl, hbears⟩

end Placing

open Staging Store Placing in
/-- The store of a server that cannot serve, killed before it is taken back: it stands whole. -/
theorem served_whole_killed :
    ((serving machine root (some "role") 0 failing (killed 31) (alone, 0)).2.1.look
      (root.path ++ [KB])).isSome = true ∧
    Elsewhere root alone (serving machine root (some "role") 0 failing (killed 31) (alone, 0)).2.1 ∧
    Bears ((serving machine root (some "role") 0 failing (killed 31) (alone, 0)).2.1.tree
      (root.path ++ [KB])) := by
  have hstands :
      ((serving machine root (some "role") 0 failing (killed 31) (alone, 0)).2.1.look
      (root.path ++ [KB])).isSome = true := by
    decide +kernel
  have hmarked : Marked machine "store: 2\n" := rfl
  have hbegun : ∀ t text, Start.started machine.outside "role" "" 0 = .ok t → Marked machine text →
      Bears (whole text t) := by
    intro t text _ htext
    cases htext.symm.trans hmarked
    exact bears_whole t
  obtain ⟨helsewhere, hwhole⟩ :=
    @served_whole machine root alone rfl _ _ _ hbegun _ failing_keeps _ (killed_outer 31) _ rfl
  exact ⟨hstands, helsewhere, hwhole.resolve_left (Option.isSome_iff_ne_none.mp hstands)⟩

open Staging Store in
/-- Where the steps of the start and of the taking back are made, serving a store just started ends
as its block did: a store left is as the block left it, and one that was not kept leaves the root as
it was found, but that nothing is left at the staging place. -/
theorem served_taken_back {root : Root} {d₀ : Disk}
    (hvacant : Store.refusal M d₀ root "started" = none) (hfile : NoFile root d₀)
    (hM : M.lacking = none) (hwritable : M.writable (root.path ++ [STAGING]) = true) {text : String}
    (htext : Marked M text) {role : String} (hrole : role ≠ "") {moment : Int} {t : Tables}
    (hstarted : Start.started M.outside role "" moment = .ok t) {block : Doing Block}
    {Q : Block → Directory.Tree String Held → Prop} (hstands : ∀ b tree, Q b tree → tree [] ≠ none)
    (hblock : ∀ d₁, d₁.tree (root.path ++ [KB]) = whole text t →
      Returns (· = d₁) (ran block) fun b d =>
      Off (root.path ++ [KB]) d₁ d ∧ Q b (d.tree (root.path ++ [KB])))
    {fates : Nat → Fate Failure} (hfates : ∀ n, smooth (fates n)) :
    ∃ b tree d n, serving M root (some role) moment block fates
      (d₀, 0) = (b.ending, d, n) ∧ Q b tree ∧
      d.tree (root.path ++ [STAGING]) = Directory.empty ∧
      (b.left = true → Elsewhere root d₀ d ∧ d.tree (root.path ++ [KB]) = tree) ∧
      (b.left = false → Off (root.path ++ [STAGING]) d₀ d) := by
  have hvacant' : Vacant M root d₀ := vacant_iff.mp hvacant
  have hsmooth : ∀ f : Fate Failure, smooth f → outer f := fun f ⟨choice, hf⟩ => by
    rw [hf]
    exact fun _ => ⟨nofun, nofun⟩
  have hserving : Ends smooth (· = d₀) (serving M root (some role) moment block) fun out d =>
      ∃ (b : Block) (tree : _), out = b.ending ∧
      Q b tree ∧ d.tree (root.path ++ [STAGING]) = Directory.empty ∧
      (b.left = true → Elsewhere root d₀ d ∧ d.tree (root.path ++ [KB]) = tree) ∧
      (b.left = false → Off (root.path ++ [STAGING]) d₀ d) := by
    -- the store started
    refine Returns.andThen (K := fun _ d => Elsewhere root d₀ d ∧ d.tree (root.path ++ [KB]) =
      whole text t ∧
      d.tree (root.path ++ [STAGING]) = Directory.empty)
      ((Returns.with (started_returns hM htext hrole hstarted hwritable hvacant' hfile)
        (started_ends hsmooth)).mono
        fun u d ⟨_, hleaves, hempty⟩ => ?_) fun _ =>
          .of_each fun d₁ ⟨helsewhere, htree, hempty⟩ => ?_
    · obtain ⟨t', text', ht', htext', htree⟩ := hleaves.returned u rfl
      cases ht'.symm.trans hstarted
      cases htext'.symm.trans htext
      exact ⟨hleaves.elsewhere, htree, hempty u rfl⟩
    -- its block run to its end
    refine Returns.andThen (hblock d₁ htree) fun b => .of_each fun d₂ ⟨hoff, hQ⟩ => ?_
    have helsewhere₂ : Elsewhere root d₀ d₂ := helsewhere.trans fun q _ hq => hoff q hq
    have hempty₂ : d₂.tree (root.path ++ [STAGING]) = Directory.empty :=
      (hoff.tree (apart root.path).symm).trans hempty
    cases hleft : b.left with
    | true =>
        rw [unkept_left hleft]
        refine Returns.andThen (K := fun _ d => d = d₂) (.give fun d hd => hd) fun _ =>
          b.raise_ends fun d (hd : d = d₂) => ?_
        rw [hd]
        exact ⟨b, _, rfl, hQ, hempty₂, fun _ => ⟨helsewhere₂, rfl⟩,
          fun h => absurd (hleft.symm.trans h) Bool.false_ne_true.symm⟩
    | false =>
        have hfolder : d₂.look root.path = some .folder := by
          rw [helsewhere₂ _ (not_below _ _) (not_below _ _)]
          exact hvacant'.folder
        have hnofile : d₂.isFile (root.path ++ [STAGING]) = false := by
          unfold Disk.isFile
          rw [Disk.look_of_tree hempty₂]
        have hstood : d₂.look (root.path ++ [KB]) ≠ none := by
          rw [← List.append_nil (root.path ++ [KB])]
          exact hstands b _ hQ
        rw [unkept_taken hleft]
        refine Returns.andThen
            ((takenBack_returns hfolder hnofile hstood).with (takenBack_ends hsmooth)) fun u =>
          b.raise_ends fun d ⟨_, helse, _, hreturned⟩ => ?_
        obtain ⟨hgone, hcleared⟩ := hreturned rfl
        refine ⟨b, _, rfl, hQ, hcleared, fun h => absurd (hleft.symm.trans h) Bool.false_ne_true,
          fun _ q hq => ?_⟩
        by_cases hkb : root.path ++ [KB] <+: q
        · obtain ⟨rest, rfl⟩ := hkb
          have hnone : d₀.look (root.path ++ [KB] ++ rest) = none :=
            congrFun (Disk.tree_none hvacant'.free) rest
          rw [hnone]
          exact congrFun hgone rest
        · exact (helsewhere₂.trans helse) q hq hkb
  have hends := hserving fates hfates d₀ 0 rfl
  rcases hout : serving M root (some role) moment block fates (d₀, 0) with ⟨out, d, n⟩
  rw [hout] at hends
  obtain ⟨b, tree, rfl, h⟩ := hends
  exact ⟨b, tree, d, n, rfl, h⟩

open Staging Store Placing in
/-- The store of a server that cannot serve, taken back: the root is as it was found. -/
theorem served_taken_back_failing :
    ∃ d n, serving machine root (some "role") 0 failing (fun m => .made m) (alone, 0) =
      (.raised (.other "ValueError: the address is in use"), d, n) ∧
    d.tree (root.path ++ [STAGING]) = Directory.empty ∧ Off (root.path ++ [STAGING]) alone d := by
  obtain ⟨hnone, hstarted⟩ : (Store.refusal machine alone root "started").isNone = true ∧
      (Start.started Sample.outside "role" "" 0).toOption.isSome = true := by
    decide +kernel
  have hvacant : Store.refusal machine alone root "started" = none :=
    Option.isNone_iff_eq_none.mp hnone
  have hmarked : Marked machine "store: 2\n" := rfl
  have hstands : ∀ b tree, Unable b tree → tree [] ≠ none := by
    rintro b tree ⟨_, hbears⟩
    rw [hbears.1]
    nofun
  obtain ⟨b, tree, d, n, hserving, ⟨rfl, _⟩, hempty, _, hoff⟩ :=
    served_taken_back hvacant rfl rfl rfl hmarked (by decide)
    (begun_ok hstarted) hstands (fun _ h => failing_returns h) fun m => ⟨m, rfl⟩
  exact ⟨d, n, hserving, hempty, hoff rfl⟩

end Kb
