/-
# `Kb.Lib.Files` — a disk, and what makes, moves and removes what stands on it

Folders and files by their paths, each standing in a folder.  A disk is changed one entry at a time,
or by a folder moved whole to where nothing stands.  What a tree is removed by (`rmtree`) takes one
entry after another out, each with nothing below it, in whatever order; cut short, it leaves what it
has not taken yet.

What stands at a path and below it is read as a tree (`Disk.tree`), and each operation has one lemma
that says what it leaves there and that it leaves everything else as it was.
-/
import Kb.Lib.Assoc
import Kb.Lib.Directory
import Kb.Lib.Stopping
import Mathlib.Data.Finset.Max

namespace Files

open Directory (Entry Tree)

variable {N C : Type}

theorem ne_dropLast {p : List N} (hp : p ≠ []) : p.dropLast ≠ p := by
  intro heq
  have hlength := congrArg List.length heq
  have hpos := List.length_pos_iff.mpr hp
  rw [List.length_dropLast] at hlength
  omega

variable [DecidableEq N]

/-- What some entries say stands at a path: at none, the folder that holds everything. -/
def standing (entries : List (List N × Entry C)) (p : List N) : Option (Entry C) :=
  if p = [] then some .folder else Assoc.get entries p

/-- The entries of a disk, each in a folder. -/
structure Disk (N C : Type) [DecidableEq N] where
  entries : List (List N × Entry C)
  closed : ∀ p e, p ≠ [] → standing entries p = some e → standing entries p.dropLast = some .folder

namespace Disk

variable (d : Disk N C)

def look (p : List N) : Option (Entry C) := standing d.entries p

/-- What stands at a path and below it. -/
def tree (p : List N) : Tree N C := fun q => d.look (p ++ q)

def isFolder (p : List N) : Bool :=
  match d.look p with
  | some .folder => true
  | _ => false

def isFile (p : List N) : Bool :=
  match d.look p with
  | some (.file _) => true
  | _ => false

/-- The paths at or below one. -/
def below (p : List N) : List (List N) := (Assoc.keys d.entries).filter fun q => p <+: q

/-- The paths at or below one with nothing below them. -/
def leaves (p : List N) : List (List N) := (d.below p).filter fun q => (d.below q).all (· = q)

variable {d}

theorem isFolder_iff {p : List N} : d.isFolder p = true ↔ d.look p = some .folder := by
  unfold isFolder
  split
  · next h => exact ⟨fun _ => h, fun _ => rfl⟩
  · next h => exact ⟨nofun, fun h' => absurd h' h⟩

theorem isFile_iff {p : List N} : d.isFile p = true ↔ ∃ c, d.look p = some (.file c) := by
  unfold isFile
  split
  · next c h => exact ⟨fun _ => ⟨c, h⟩, fun _ => rfl⟩
  · next h => exact ⟨nofun, fun ⟨c, h'⟩ => absurd h' (h c)⟩

@[simp] theorem look_nil : d.look [] = some .folder := by
  unfold look standing
  rw [if_pos rfl]

theorem look_of_ne {p : List N} (h : p ≠ []) : d.look p = Assoc.get d.entries p := if_neg h

theorem look_parent {p : List N} {e : Entry C} (hp : p ≠ []) (h : d.look p = some e) :
    d.look p.dropLast = some .folder :=
  d.closed p e hp h

/-- A folder stands on every way to what stands. -/
theorem look_above {p q : List N} {e : Entry C} (h : d.look (p ++ q) = some e) (hq : q ≠ []) :
    d.look p = some .folder := by
  induction q using List.reverseRecOn generalizing e with
  | nil => exact absurd rfl hq
  | append_singleton q n ih =>
      have hne : p ++ (q ++ [n]) ≠ [] := by simp
      have hparent := look_parent hne h
      rw [← List.append_assoc, List.dropLast_concat] at hparent
      by_cases hnil : q = []
      · rwa [hnil, List.append_nil] at hparent
      · exact ih hparent hnil

/-- Where nothing stands, nothing stands below. -/
theorem tree_none {p : List N} (h : d.look p = none) : d.tree p = Directory.empty := by
  funext q
  cases hq : d.tree p q with
  | none => rfl
  | some e =>
      have hlook : d.look (p ++ q) = some e := hq
      by_cases hnil : q = []
      · rw [hnil, List.append_nil, h] at hlook
        nomatch hlook
      · rw [look_above hlook hnil] at h
        nomatch h

theorem look_of_tree {p : List N} (h : d.tree p = Directory.empty) : d.look p = none := by
  have hroot := congrFun h []
  rwa [tree, List.append_nil] at hroot

theorem look_none_iff {p : List N} (hp : p ≠ []) : d.look p = none ↔ p ∉ Assoc.keys d.entries := by
  rw [look_of_ne hp, ← Assoc.has_iff_mem_keys, Assoc.has]
  simp

end Disk

/-- An entry put where another was put takes its place. -/
theorem put_put (t : Tree N C) (q : List N) (e e' : Entry C) :
    Directory.put (Directory.put t q e) q e' = Directory.put t q e' := by
  funext r
  by_cases hr : r = q
  · rw [hr, Directory.put_self, Directory.put_self]
  · rw [Directory.put_of_ne _ _ hr, Directory.put_of_ne _ _ hr, Directory.put_of_ne _ _ hr]

/-- Two disks stand alike but at a path and below it. -/
def Off (p : List N) (d d' : Disk N C) : Prop := ∀ q, ¬ p <+: q → d'.look q = d.look q

theorem Off.refl (p : List N) (d : Disk N C) : Off p d d := fun _ _ => rfl

theorem Off.trans {p : List N} {d d' d'' : Disk N C} (h : Off p d d') (h' : Off p d' d'') :
    Off p d d'' :=
  fun q hq => (h' q hq).trans (h q hq)

theorem Off.up {p p' : List N} {d d' : Disk N C} (h : Off p' d d') (hp : p <+: p') : Off p d d' :=
  fun q hq => h q fun hq' => hq (hp.trans hq')

/-- A tree apart from where two disks differ is the same in both. -/
theorem Off.tree {p q : List N} {d d' : Disk N C} (h : Off p d d') (hpq : Directory.Apart p q) :
    d'.tree q = d.tree q := by
  funext r
  refine h (q ++ r) fun hp => ?_
  rcases List.prefix_or_prefix_of_prefix hp (List.prefix_append q r) with hp | hp
  · exact hpq.1 hp
  · exact hpq.2 hp

/-! ## One entry put or taken out, and a folder moved -/

/-- A path below one, re-rooted to another. -/
def rebased (src dst p : List N) : List N := if src <+: p then dst ++ p.drop src.length else p

theorem standing_set (entries : List (List N × Entry C)) {p : List N} (e : Entry C) (hp : p ≠ [])
    (q : List N) :
    standing (Assoc.set entries p e) q = if q = p then some e else standing entries q := by
  unfold standing
  rw [Assoc.get_set]
  by_cases hq : q = []
  · rw [if_pos hq, if_pos hq, if_neg (hq ▸ hp.symm)]
  · rw [if_neg hq, if_neg hq]

theorem standing_erase (entries : List (List N × Entry C)) {p : List N} (hp : p ≠ []) (q : List N) :
    standing (Assoc.erase entries p) q = if q = p then none else standing entries q := by
  unfold standing
  rw [Assoc.get_erase]
  by_cases hq : q = []
  · rw [if_pos hq, if_pos hq, if_neg (hq ▸ hp.symm)]
  · rw [if_neg hq, if_neg hq]

/-- What is read of entries whose paths are re-rooted to where none of them lies. -/
theorem get_rebased {entries : List (List N × Entry C)} (src : List N) {dst : List N}
    (hfree : ∀ p ∈ Assoc.keys entries, ¬ dst <+: p) (q : List N) :
    Assoc.get (entries.map fun e => (rebased src dst e.1, e.2)) q =
      if dst <+: q then Assoc.get entries (src ++ q.drop dst.length) else if src <+: q then none
        else Assoc.get entries q := by
  induction entries with
  | nil => simp
  | cons e entries ih =>
      obtain ⟨p, e⟩ := e
      have hp : ¬ dst <+: p := hfree p List.mem_cons_self
      have hih := ih fun p hp => hfree p (List.mem_cons_of_mem _ hp)
      rw [List.map_cons, Assoc.get_cons, hih, Assoc.get_cons, Assoc.get_cons]
      unfold rebased
      by_cases hdst : dst <+: q
      · obtain ⟨r, rfl⟩ := hdst
        rw [if_pos (List.prefix_append dst r), if_pos (List.prefix_append dst r), List.drop_left]
        by_cases hsrc : src <+: p
        · obtain ⟨r', rfl⟩ := hsrc
          rw [if_pos (List.prefix_append src r'), List.drop_left]
          by_cases hr : r' = r
          · rw [hr, if_pos rfl, if_pos rfl]
          · rw [if_neg fun h => hr (List.append_cancel_left h), if_neg fun h =>
              hr (List.append_cancel_left h)]
        · rw [if_neg hsrc, if_neg fun h : p = dst ++ r => hp (h ▸ List.prefix_append dst r),
            if_neg fun h : p = src ++ r => hsrc (h ▸ List.prefix_append src r)]
      · rw [if_neg hdst, if_neg hdst]
        by_cases hsrc : src <+: p
        · rw [if_pos hsrc, if_neg fun h : dst ++ p.drop src.length = q =>
            hdst (h ▸ List.prefix_append dst _)]
          by_cases hq : src <+: q
          · rw [if_pos hq, if_pos hq]
          · rw [if_neg hq, if_neg hq, if_neg fun h : p = q => hq (h ▸ hsrc)]
        · rw [if_neg hsrc]
          by_cases hq : src <+: q
          · rw [if_pos hq, if_pos hq, if_neg fun h : p = q => hsrc (h ▸ hq)]
          · rw [if_neg hq, if_neg hq]

namespace Disk

theorem put_closed {d : Disk N C} {p : List N} (e : Entry C)
    (h : p ≠ [] ∧ d.isFolder p.dropLast = true ∧ d.isFolder p = false) (q : List N) (e' : Entry C)
    (hq : q ≠ []) (hq' : standing (Assoc.set d.entries p e) q = some e') :
    standing (Assoc.set d.entries p e) q.dropLast = some .folder := by
  obtain ⟨hp, hparent, hfolder⟩ := h
  rw [standing_set _ e hp] at hq' ⊢
  by_cases hqp : q = p
  · rw [hqp, if_neg (ne_dropLast hp)]
    exact isFolder_iff.mp hparent
  · rw [if_neg hqp] at hq'
    have habove : d.look q.dropLast = some .folder := look_parent hq hq'
    have hne : q.dropLast ≠ p := by
      intro heq
      rw [heq, ← isFolder_iff, hfolder] at habove
      nomatch habove
    rw [if_neg hne]
    exact habove

/-- An entry put in a folder, where no folder stands. -/
def put (d : Disk N C) (p : List N) (e : Entry C) : Option (Disk N C) :=
  if h : p ≠ [] ∧ d.isFolder p.dropLast = true ∧ d.isFolder p = false then
    some ⟨Assoc.set d.entries p e, put_closed e h⟩
  else none

theorem remove_closed {d : Disk N C} {p : List N} (h : p ≠ [] ∧ (d.below p).all (· = p) = true)
    (q : List N) (e : Entry C) (hq : q ≠ []) (hq' : standing (Assoc.erase d.entries p) q = some e) :
    standing (Assoc.erase d.entries p) q.dropLast = some .folder := by
  obtain ⟨hp, hleaf⟩ := h
  rw [standing_erase _ hp] at hq' ⊢
  by_cases hqp : q = p
  · rw [if_pos hqp] at hq'
    nomatch hq'
  · rw [if_neg hqp] at hq'
    have hne : q.dropLast ≠ p := by
      intro heq
      have hkey : q ∈ Assoc.keys d.entries := by
        by_contra hno
        exact nomatch hq'.symm.trans ((look_none_iff hq).mpr hno)
      have hbelow : q ∈ d.below p :=
        List.mem_filter.mpr ⟨hkey, decide_eq_true (heq ▸ List.dropLast_prefix q)⟩
      exact hqp (of_decide_eq_true (List.all_eq_true.mp hleaf q hbelow))
    rw [if_neg hne]
    exact look_parent hq hq'

/-- An entry with nothing below it taken out. -/
def remove (d : Disk N C) (p : List N) : Option (Disk N C) :=
  if h : p ≠ [] ∧ (d.below p).all (· = p) = true
    then some ⟨Assoc.erase d.entries p, remove_closed h⟩ else none

/-- No entry is at or below where nothing stands. -/
theorem keys_free {d : Disk N C} {p : List N} (hp : p ≠ []) (h : d.look p = none) :
    ∀ q ∈ Assoc.keys d.entries, ¬ p <+: q := by
  rintro q hq ⟨r, rfl⟩
  have hne : p ++ r ≠ [] := fun hnil => hp (List.append_eq_nil_iff.mp hnil).1
  have hnone : d.look (p ++ r) = none := congrFun (tree_none h) r
  exact (look_none_iff hne).mp hnone hq

theorem move_closed {d : Disk N C} {src dst : List N}
    (h : src ≠ [] ∧ dst ≠ [] ∧ (d.look src).isSome = true ∧
    (d.look dst).isNone = true ∧ d.isFolder dst.dropLast = true ∧ ¬ src <+: dst)
    (q : List N) (e : Entry C) (hq : q ≠ [])
    (hq' : standing (d.entries.map fun e => (rebased src dst e.1, e.2)) q = some e) :
    standing (d.entries.map fun e => (rebased src dst e.1, e.2)) q.dropLast = some .folder := by
  obtain ⟨hsrc, hdst, _, hfree, hparent, hapart⟩ := h
  have hread := get_rebased src (keys_free hdst (Option.isNone_iff_eq_none.mp hfree))
  unfold standing at hq' ⊢
  rw [if_neg hq, hread] at hq'
  by_cases hnil : q.dropLast = []
  · rw [if_pos hnil]
  rw [if_neg hnil, hread]
  have habove := List.dropLast_prefix q
  by_cases hin : dst <+: q
  · obtain ⟨r, rfl⟩ := hin
    rw [if_pos (List.prefix_append dst r), List.drop_left] at hq'
    by_cases hr : r = []
    · -- what is moved stands in the folder it is moved to
      subst hr
      rw [List.append_nil] at hnil ⊢
      have hnot : ¬ dst <+: dst.dropLast :=
        fun h => ne_dropLast hdst ((List.dropLast_prefix dst).eq_of_length_le h.length_le)
      rw [if_neg hnot, if_neg fun h => hapart (h.trans (List.dropLast_prefix dst)),
        ← look_of_ne hnil]
      exact isFolder_iff.mp hparent
    · rw [List.dropLast_append_of_ne_nil hr, if_pos (List.prefix_append dst _), List.drop_left]
      have hne : src ++ r ≠ [] := fun h => hsrc (List.append_eq_nil_iff.mp h).1
      have hne' : src ++ r.dropLast ≠ [] := fun h => hsrc (List.append_eq_nil_iff.mp h).1
      rw [← look_of_ne hne] at hq'
      rw [← look_of_ne hne', ← List.dropLast_append_of_ne_nil hr]
      exact look_parent hne hq'
  · rw [if_neg hin] at hq'
    by_cases hout : src <+: q
    · rw [if_pos hout] at hq'
      nomatch hq'
    · rw [if_neg hout, ← look_of_ne hq] at hq'
      rw [if_neg fun h => hin (h.trans habove), if_neg fun h => hout (h.trans habove),
        ← look_of_ne hnil]
      exact look_parent hq hq'

/-- What stands at a path moved, with what is below it, to where nothing stands. -/
def move (d : Disk N C) (src dst : List N) : Option (Disk N C) :=
  if h : src ≠ [] ∧ dst ≠ [] ∧ (d.look src).isSome = true ∧ (d.look dst).isNone = true ∧
      d.isFolder dst.dropLast = true ∧
      ¬ src <+: dst then
    some ⟨d.entries.map fun e => (rebased src dst e.1, e.2), move_closed h⟩
  else none

/-- A folder renamed to where nothing stands, or an empty folder does. -/
def rename (d : Disk N C) (src dst : List N) : Option (Disk N C) :=
  if d.isFolder src && d.isFolder dst && (d.below dst).all (· = dst)
    then (d.remove dst).bind fun d => d.move src dst
  else d.move src dst

/-- A folder made where nothing stands. -/
def mkdir (d : Disk N C) (p : List N) : Option (Disk N C) :=
  if (d.look p).isNone then d.put p .folder else none

/-- An empty file made where nothing stands. -/
def create (d : Disk N C) (p : List N) (content : C) : Option (Disk N C) :=
  if (d.look p).isNone then d.put p (.file content) else none

/-- What a file holds changed. -/
def change (d : Disk N C) (p : List N) (f : C → C) : Option (Disk N C) :=
  match d.look p with
  | some (.file content) => d.put p (.file (f content))
  | _ => none

/-! What each leaves. -/

theorem look_put {d d' : Disk N C} {p : List N} {e : Entry C} (h : d.put p e = some d')
    (q : List N) :
    d'.look q = if q = p then some e else d.look q := by
  unfold put at h
  split at h
  · next hput =>
      cases h
      exact standing_set d.entries e hput.1 q
  · nomatch h

theorem look_put_self {d d' : Disk N C} {p : List N} {e : Entry C} (h : d.put p e = some d') :
    d'.look p = some e := by
  rw [look_put h, if_pos rfl]

theorem look_remove {d d' : Disk N C} {p : List N} (h : d.remove p = some d') (q : List N) :
    d'.look q = if q = p then none else d.look q := by
  unfold remove at h
  split at h
  · next hremove =>
      cases h
      exact standing_erase d.entries hremove.1 q
  · nomatch h

theorem put_off {d d' : Disk N C} {p : List N} {e : Entry C} (h : d.put p e = some d') :
    Off p d d' := by
  intro q hq
  rw [look_put h, if_neg fun heq : q = p => hq (heq ▸ List.prefix_refl q)]

theorem remove_off {d d' : Disk N C} {p : List N} (h : d.remove p = some d') : Off p d d' := by
  intro q hq
  rw [look_remove h, if_neg fun heq : q = p => hq (heq ▸ List.prefix_refl q)]

/-- An entry put at or below a path. -/
theorem tree_put {d d' : Disk N C} {p q : List N} {e : Entry C} (h : d.put (p ++ q) e = some d') :
    d'.tree p = Directory.put (d.tree p) q e := by
  funext r
  show d'.look (p ++ r) = if r = q then some e else d.look (p ++ r)
  rw [look_put h]
  by_cases hr : r = q
  · rw [hr, if_pos rfl, if_pos rfl]
  · rw [if_neg hr, if_neg fun heq => hr (List.append_cancel_left heq)]

/-- A tree moved is where it is moved to, nothing is where it was, and the rest is as it was. -/
theorem move_some {d d' : Disk N C} {src dst : List N} (h : d.move src dst = some d') :
    d'.tree dst = d.tree src ∧ d'.tree src = Directory.empty ∧ ∀ q, ¬ src <+: q → ¬ dst <+: q →
      d'.look q = d.look q := by
  unfold move at h
  split at h
  swap
  · nomatch h
  next hmove =>
  have ⟨hsrc, hdst, hstands, hfree, _, hapart⟩ := hmove
  cases h
  have hread := get_rebased src (keys_free hdst (Option.isNone_iff_eq_none.mp hfree))
  have hlook : ∀ q, q ≠ [] →
      Disk.look ⟨d.entries.map fun e => (rebased src dst e.1, e.2), move_closed hmove⟩ q =
      if dst <+: q then Assoc.get d.entries (src ++ q.drop dst.length) else if src <+: q then none
          else Assoc.get d.entries q := by
    intro q hq
    rw [look_of_ne hq]
    exact hread q
  refine ⟨funext fun r => ?_, funext fun r => ?_, fun q hq hq' => ?_⟩
  · have hne : dst ++ r ≠ [] := fun hnil => hdst (List.append_eq_nil_iff.mp hnil).1
    have hne' : src ++ r ≠ [] := fun hnil => hsrc (List.append_eq_nil_iff.mp hnil).1
    rw [tree, hlook _ hne, if_pos (List.prefix_append dst r), List.drop_left, ← look_of_ne hne']
    rfl
  · have hne : src ++ r ≠ [] := fun hnil => hsrc (List.append_eq_nil_iff.mp hnil).1
    rw [tree, hlook _ hne]
    have hout : ¬ dst <+: src ++ r := by
      intro hin
      rcases List.prefix_or_prefix_of_prefix hin (List.prefix_append src r) with ⟨s, rfl⟩ | hover
      · -- what stands at `src` would stand below `dst`, where nothing does
        have hnone : d.look (dst ++ s) = none :=
          congrFun (tree_none (Option.isNone_iff_eq_none.mp hfree)) s
        rw [hnone] at hstands
        nomatch hstands
      · exact hapart hover
    rw [if_neg hout, if_pos (List.prefix_append src r)]
    rfl
  · by_cases hnil : q = []
    · rw [hnil, look_nil, look_nil]
    · rw [hlook _ hnil, if_neg hq', if_neg hq, look_of_ne hnil]

/-- Renamed to where nothing stands, a folder is moved there. -/
theorem rename_fresh {d : Disk N C} (src : List N) {dst : List N} (h : d.look dst = none) :
    d.rename src dst = d.move src dst := by
  have hfolder : d.isFolder dst = false := by
    unfold isFolder
    rw [h]
  unfold rename
  rw [hfolder, Bool.and_false, Bool.false_and, if_neg Bool.false_ne_true]

/-- A rename leaves everything else as it was. -/
theorem rename_off {d d' : Disk N C} {src dst : List N} (h : d.rename src dst = some d')
    {q : List N} (hsrc : ¬ src <+: q) (hdst : ¬ dst <+: q) : d'.look q = d.look q := by
  unfold rename at h
  split at h
  · obtain ⟨d₁, hremoved, hmoved⟩ := Option.bind_eq_some_iff.mp h
    rw [(move_some hmoved).2.2 q hsrc hdst]
    exact remove_off hremoved q hdst
  · exact (move_some h).2.2 q hsrc hdst

/-- What is moved is gone from where it was. -/
theorem rename_gone {d d' : Disk N C} {src dst : List N} (h : d.rename src dst = some d') :
    d'.tree src = Directory.empty := by
  unfold rename at h
  split at h
  · obtain ⟨d₁, _, hmoved⟩ := Option.bind_eq_some_iff.mp h
    exact (move_some hmoved).2.1
  · exact (move_some h).2.1

theorem move_isSome {d : Disk N C} {src dst : List N}
    (h : src ≠ [] ∧ dst ≠ [] ∧ (d.look src).isSome = true ∧
    (d.look dst).isNone = true ∧ d.isFolder dst.dropLast = true ∧ ¬ src <+: dst) :
    ∃ d', d.move src dst = some d' :=
  ⟨_, dif_pos h⟩

theorem put_isSome {d : Disk N C} {p : List N} (e : Entry C) (hp : p ≠ [])
    (hparent : d.look p.dropLast = some .folder) (h : d.look p ≠ some .folder) :
    ∃ d', d.put p e = some d' := by
  refine ⟨_, dif_pos ⟨hp, isFolder_iff.mpr hparent, ?_⟩⟩
  rw [Bool.eq_false_iff]
  exact fun hfolder => h (isFolder_iff.mp hfolder)

theorem mkdir_isSome {d : Disk N C} {p : List N} (hp : p ≠ [])
    (hparent : d.look p.dropLast = some .folder) (h : d.look p = none) :
    ∃ d', d.mkdir p = some d' := by
  unfold mkdir
  rw [h, Option.isNone_none, if_pos rfl]
  exact put_isSome .folder hp hparent (h ▸ nofun)

theorem create_isSome {d : Disk N C} {p : List N} (c : C) (hp : p ≠ [])
    (hparent : d.look p.dropLast = some .folder) (h : d.look p = none) :
    ∃ d', d.create p c = some d' := by
  unfold create
  rw [h, Option.isNone_none, if_pos rfl]
  exact put_isSome (.file c) hp hparent (h ▸ nofun)

/-- What a file holds can be changed. -/
theorem change_isSome {d : Disk N C} {p : List N} {c : C} (f : C → C) (hp : p ≠ [])
    (h : d.look p = some (.file c)) :
    ∃ d', d.change p f = some d' := by
  unfold change
  rw [h]
  exact put_isSome (.file (f c)) hp (look_parent hp h) (h ▸ nofun)

theorem mkdir_ok {d d' : Disk N C} {p : List N} (h : d.mkdir p = some d') :
    d.look p = none ∧ d.put p .folder = some d' := by
  unfold mkdir at h
  split at h
  · next hnone => exact ⟨Option.isNone_iff_eq_none.mp hnone, h⟩
  · nomatch h

theorem create_ok {d d' : Disk N C} {p : List N} {c : C} (h : d.create p c = some d') :
    d.look p = none ∧ d.put p (.file c) = some d' := by
  unfold create at h
  split at h
  · next hnone => exact ⟨Option.isNone_iff_eq_none.mp hnone, h⟩
  · nomatch h

theorem change_ok {d d' : Disk N C} {p : List N} {f : C → C} (h : d.change p f = some d') :
    ∃ c, d.look p = some (.file c) ∧ d.put p (.file (f c)) = some d' := by
  unfold change at h
  split at h
  · next c hfile => exact ⟨c, hfile, h⟩
  · nomatch h

/-! What is below a path, and what is taken out of it. -/

theorem below_nil {d : Disk N C} {p : List N} (hp : p ≠ []) (h : d.below p = []) :
    d.tree p = Directory.empty := by
  refine tree_none ((look_none_iff hp).mpr fun hmem => ?_)
  have hbelow : p ∈ d.below p := List.mem_filter.mpr ⟨hmem, decide_eq_true (List.prefix_refl p)⟩
  rw [h] at hbelow
  nomatch hbelow

/-- What is below a path has something with nothing below it: whatever is longest. -/
theorem leaves_ne_nil {d : Disk N C} {p : List N} (h : d.below p ≠ []) : d.leaves p ≠ [] := by
  obtain ⟨first, hfirst⟩ := List.exists_mem_of_ne_nil _ h
  obtain ⟨q, hq, hlongest⟩ :=
    (d.below p).toFinset.exists_max_image List.length ⟨first, List.mem_toFinset.mpr hfirst⟩
  rw [List.mem_toFinset] at hq
  have hpq : p <+: q := of_decide_eq_true (List.mem_filter.mp hq).2
  refine List.ne_nil_of_mem (List.mem_filter.mpr ⟨hq, List.all_eq_true.mpr fun r hr => ?_⟩)
  obtain ⟨hkey, hqr⟩ := List.mem_filter.mp hr
  replace hqr : q <+: r := of_decide_eq_true hqr
  have hbelow : r ∈ d.below p := List.mem_filter.mpr ⟨hkey, decide_eq_true (hpq.trans hqr)⟩
  have hle := hlongest r (List.mem_toFinset.mpr hbelow)
  exact decide_eq_true (hqr.eq_of_length_le hle).symm

end Disk

/-! ## Programs over a disk -/

section

variable {ε : Type}

open Stopping Stopping.Program

/-- One change of the disk, which raises where it cannot be made. -/
def doing (e : ε) (f : Disk N C → Option (Disk N C)) : Program (Disk N C) ε Unit :=
  step fun _ d => match f d with
    | some d => .ok ((), d)
    | none => .error e

/-- One thing with nothing below it taken out from below a path, whichever is chosen; and whether
there was one. -/
def unlinking (p : List N) (choice : Nat) (d : Disk N C) : Bool × Disk N C :=
  match (d.leaves p)[choice % (d.leaves p).length]? with
  | none => (false, d)
  | some q => (true, (d.remove q).getD d)

def clearing : Nat → List N → Program (Disk N C) ε Unit
  | 0, _ => give ()
  | n + 1, p =>
      step (fun choice d => .ok (unlinking p choice d)) >>= fun more => if more
        then clearing n p else give ()

/-- `shutil.rmtree`: a folder removed with what is below it, raising where no folder stands. -/
def rmtree (e : ε) (p : List N) : Program (Disk N C) ε Unit :=
  step (fun _ d => if d.isFolder p then .ok ((d.below p).length, d) else .error e) >>=
    fun n => clearing n p

/-- Nothing is below the path, or one thing below it, with nothing below itself, is taken out. -/
theorem unlinking_cases {p : List N} (hp : p ≠ []) (choice : Nat) (d : Disk N C) :
    d.below p = [] ∧ unlinking p choice d = (false, d) ∨
      ∃ q d', q ∈ d.below p ∧ d.remove q = some d' ∧ unlinking p choice d = (true, d') := by
  unfold unlinking
  cases hq : (d.leaves p)[choice % (d.leaves p).length]? with
  | none =>
      refine Or.inl ⟨?_, rfl⟩
      by_contra hbelow
      have hpos := List.length_pos_iff.mpr (Disk.leaves_ne_nil hbelow)
      have hlt := Nat.mod_lt choice hpos
      have hle := List.getElem?_eq_none_iff.mp hq
      omega
  | some q =>
      obtain ⟨hbelow, hleaf⟩ := List.mem_filter.mp (List.mem_of_getElem? hq)
      have hpq : p <+: q := of_decide_eq_true (List.mem_filter.mp hbelow).2
      have hne : q ≠ [] := fun hnil => hp (List.prefix_nil.mp (hnil ▸ hpq))
      have hremoved :
        d.remove q = some ⟨Assoc.erase d.entries q, Disk.remove_closed ⟨hne, hleaf⟩⟩ :=
        dif_pos ⟨hne, hleaf⟩
      refine Or.inr ⟨q, _, hbelow, hremoved, ?_⟩
      show (true, (d.remove q).getD d) = _
      rw [hremoved]
      rfl

theorem length_below_remove {d d' : Disk N C} {p q : List N} (hq : q ∈ d.below p)
    (h : d.remove q = some d') :
    (d'.below p).length < (d.below p).length := by
  have hentries : d'.entries = Assoc.erase d.entries q := by
    unfold Disk.remove at h
    split at h
    · cases h
      rfl
    · nomatch h
  have hbelow : d'.below p = (d.below p).filter (· ≠ q) := by
    unfold Disk.below Assoc.keys
    rw [hentries, Assoc.erase, List.filter_map, List.filter_map, List.filter_map,
      List.filter_filter, List.filter_filter]
    congr 1
    refine List.filter_congr fun e _ => ?_
    rw [Bool.and_comm]
    rfl
  rw [hbelow]
  exact List.length_filter_lt_length_iff_exists.mpr ⟨q, hq, by simp⟩

variable {A : Fate ε → Prop} {d₀ : Disk N C} {p : List N}

/-- Nothing but what is at a path and below it is taken out, and once that is over nothing is left
there. -/
theorem clearing_ends (hp : p ≠ []) (n : Nat) :
    Ends A (fun d => Off p d₀ d ∧ (d.below p).length ≤ n) (clearing n p)
      fun out d => Off p d₀ d ∧ (out = .returned () → d.tree p = Directory.empty) ∧ ∀ e,
        out = .raised e → A (.fails e) := by
  induction n with
  | zero =>
      refine .give fun d ⟨hoff, hnone⟩ => ⟨hoff, fun _ => ?_, nofun⟩
      exact Disk.below_nil hp (List.length_eq_zero_iff.mp (Nat.le_zero.mp hnone))
  | succ n ih =>
      refine Ends.bind (M := fun more d => Off p d₀ d ∧
        if more then (d.below p).length ≤ n else d.tree p = Directory.empty) ?_ fun more => ?_
      · refine .step (fun choice d _ ⟨hoff, hle⟩ => ?_)
          (fun e d he ⟨hoff, _⟩ => ⟨hoff, nofun, fun e' h => by cases h; exact he⟩) fun d _ ⟨hoff,
            _⟩ => ⟨hoff, nofun, nofun⟩
        rcases unlinking_cases hp choice d with ⟨hbelow, heq⟩ | ⟨q, d', hq, hremoved, heq⟩
        · rw [heq]
          exact ⟨hoff, Disk.below_nil hp hbelow⟩
        · rw [heq]
          have hpq : p <+: q := of_decide_eq_true (List.mem_filter.mp hq).2
          have hlt := length_below_remove hq hremoved
          refine ⟨hoff.trans ((Disk.remove_off hremoved).up hpq), ?_⟩
          show (d'.below p).length ≤ n
          omega
      · cases more with
        | true => exact ih
        | false => exact .give fun d ⟨hoff, hgone⟩ => ⟨hoff, fun _ => hgone, nofun⟩

theorem rmtree_ends (e : ε) (hp : p ≠ []) :
    Ends A (fun d => Off p d₀ d) (rmtree e p) fun out d => Off p d₀ d ∧
    (out = .returned () → d.tree p = Directory.empty) ∧ ∀ e', out = .raised e' → A
    (.fails e') ∨ e' = e := by
  refine Ends.bind (M := fun n d => Off p d₀ d ∧ (d.below p).length ≤ n) ?_ fun n =>
      (clearing_ends hp n).mono fun _ _ h =>
    ⟨h.1, h.2.1, fun e' he => Or.inl (h.2.2 e' he)⟩
  refine .step (fun choice d _ hoff => ?_) (fun e' d he hoff => ⟨hoff, nofun, fun e'' h => by
    cases h; exact Or.inl he⟩)
    fun d _ hoff => ⟨hoff, nofun, nofun⟩
  split
  · exact ⟨hoff, Nat.le_refl _⟩
  · exact ⟨hoff, nofun, fun e' h => by cases h; exact Or.inr rfl⟩

/-- What is removed leaves no file where none stood. -/
theorem rmtree_keeps {e : ε} {r : List N} (hp : p ≠ []) :
    Keeps A (fun d : Disk N C => d.isFile r = false) (rmtree e p) := by
  refine Keeps.bind (.step fun _ d _ d' h hact => ?_) fun n => ?_
  · split at hact
    · cases hact
      exact h
    · nomatch hact
  · induction n with
    | zero => exact .give
    | succ n ih =>
        refine Keeps.bind (.step fun choice d more d' h hact => ?_) fun more => ?_
        · rcases unlinking_cases hp choice d with ⟨_, heq⟩ | ⟨q, d'', _, hremoved, heq⟩
          · rw [heq] at hact
            cases hact
            exact h
          · rw [heq] at hact
            cases hact
            unfold Disk.isFile at h ⊢
            rw [Disk.look_remove hremoved]
            split_ifs
            · rfl
            · exact h
        · cases more with
          | true => exact ih
          | false => exact .give

/-- Where every step is made, a folder is removed. -/
theorem clearing_returns (n : Nat) (p : List N) :
    Returns (fun _ => True) (clearing n p : Program (Disk N C) ε Unit) fun _ _ => True := by
  induction n with
  | zero => exact .give fun _ _ => trivial
  | succ n ih =>
      refine Returns.bind (K := fun _ _ => True) (.step fun choice d _ => ⟨_, _, rfl, trivial⟩)
        fun more => ?_
      cases more with
      | true => exact ih
      | false => exact .give fun _ _ => trivial

theorem rmtree_returns (e : ε) (p : List N) :
    Returns (fun d : Disk N C => d.look p = some .folder) (rmtree e p) fun _ _ => True := by
  refine Returns.bind (K := fun _ _ => True) (.step fun choice d hfolder => ?_) fun n =>
    clearing_returns n p
  rw [if_pos (Disk.isFolder_iff.mpr hfolder)]
  exact ⟨_, _, rfl, trivial⟩

/-- A change that is made leaves what it makes; one that is not leaves the disk as it was. -/
theorem doing_ends {P : Disk N C → Prop} {Q : Ended ε Unit → Disk N C → Prop} {e : ε}
    {f : Disk N C → Option (Disk N C)} (hmade : ∀ d d', P d → f d = some d' → Q (.returned ()) d')
    (hraised : ∀ e' d, (A (.fails e') ∨ e' = e) → P d → Q (.raised e') d)
    (hstopped : ∀ d, P d → Q .stopped d) :
    Ends A P (doing e f) Q := by
  refine .step (fun choice d _ hd => ?_) (fun e d he hd => hraised e d (Or.inl he) hd) fun d _ hd =>
    hstopped d hd
  cases hf : f d with
  | some d' => exact hmade d d' hd hf
  | none => exact hraised e d (Or.inr rfl) hd

theorem doing_keeps {I : Disk N C → Prop} {e : ε} {f : Disk N C → Option (Disk N C)}
    (h : ∀ d d', I d → f d = some d' → I d') :
    Keeps A I (doing e f) := by
  refine .step fun _ d _ d' hd hact => ?_
  cases hf : f d with
  | none =>
      rw [hf] at hact
      nomatch hact
  | some d'' =>
      rw [hf] at hact
      cases hact
      exact h d _ hd hf

theorem doing_returns {P : Disk N C → Prop} {K : Unit → Disk N C → Prop} {e : ε}
    {f : Disk N C → Option (Disk N C)} (h : ∀ d, P d → ∃ d', f d = some d' ∧ K () d') :
    Returns P (doing e f) K := by
  refine .step fun choice d hd => ?_
  obtain ⟨d', hf, hK⟩ := h d hd
  rw [hf]
  exact ⟨(), d', rfl, hK⟩

/-! ## Programs that touch one tree -/

variable {α β : Type} {T T' : Tree N C → Prop}

/-- A program that touches nothing but what is at a path and below it: begun where a tree meeting
`T` stands there, it leaves, where it returns, one meeting `U`, and where it raises, one meeting
`R`. -/
def Within (A : Fate ε → Prop) (p : List N) (T : Tree N C → Prop) (x : Program (Disk N C) ε α)
    (U : α → Tree N C → Prop) (R : ε → Tree N C → Prop) : Prop :=
  ∀ d₀, Ends A (fun d => Off p d₀ d ∧ T (d.tree p)) x fun out d =>
    Off p d₀ d ∧ (∀ a, out = .returned a → U a (d.tree p)) ∧ ∀ e, out = .raised e → R e (d.tree p)

/-- Begun on a disk, it leaves everything else on it as it was. -/
theorem Within.begun {x : Program (Disk N C) ε α} {U : α → Tree N C → Prop}
    {R : ε → Tree N C → Prop} (h : Within A p T x U R) (d₀ : Disk N C) (ht : T (d₀.tree p)) :
    Ends A (· = d₀) x fun out d =>
      Off p d₀ d ∧ (∀ a, out = .returned a → U a (d.tree p)) ∧ ∀ e, out = .raised e →
        R e (d.tree p) :=
  (h d₀).pre fun d (hd : d = d₀) => by rw [hd]; exact ⟨Off.refl p d₀, ht⟩

/-- Where it returns when every step is made, it leaves what it would. -/
theorem Within.returns {x : Program (Disk N C) ε α} {U : α → Tree N C → Prop}
    {R : ε → Tree N C → Prop} (h : Within smooth p T x U R) {P : Disk N C → Prop}
    (hP : ∀ d, P d → T (d.tree p)) {K : α → Disk N C → Prop} (hx : Returns P x K) :
    Returns P x fun a d => K a d ∧ U a (d.tree p) := by
  refine (hx.with (Q := fun out d => ∀ a, out = .returned a → U a (d.tree p))
      (.of_each fun d hd => ?_)).mono fun a d ⟨hK, hU⟩ =>
    ⟨hK, hU a rfl⟩
  exact (h.begun d (hP d hd)).mono fun out d' ⟨_, hreturned, _⟩ => hreturned

/-- Whatever tree. -/
def anything : Tree N C → Prop := fun _ => True

variable {x : Program (Disk N C) ε α} {U V : α → Tree N C → Prop} {R R' : ε → Tree N C → Prop}

theorem Within.pre (h : Within A p T x U R) (hT : ∀ t, T' t → T t) : Within A p T' x U R :=
  fun d₀ => (h d₀).pre fun _ ⟨hoff, ht⟩ => ⟨hoff, hT _ ht⟩

theorem Within.mono (h : Within A p T x U R) (hU : ∀ a t, U a t → V a t) : Within A p T x V R :=
  fun d₀ => (h d₀).mono fun _ _ ⟨hoff, hreturned, hraised⟩ =>
    ⟨hoff, fun a ha => hU _ _ (hreturned a ha), hraised⟩

theorem Within.raised (h : Within A p T x U R) (hR : ∀ e t, R e t → R' e t) : Within A p T x U R' :=
  fun d₀ => (h d₀).mono fun _ _ ⟨hoff, hreturned, hraised⟩ =>
    ⟨hoff, hreturned, fun e he => hR _ _ (hraised e he)⟩

/-- Begun from trees told apart, a program is read for each. -/
theorem Within.each {ι : Sort*} {T : ι → Tree N C → Prop} (h : ∀ i, Within A p (T i) x U R) :
    Within A p (fun t => ∃ i, T i t) x U R :=
  fun d₀ fates hA s n ⟨hoff, i, ht⟩ => h i d₀ fates hA s n ⟨hoff, ht⟩

theorem Within.given {c : Prop} (h : c → Within A p T x U R) :
    Within A p (fun t => c ∧ T t) x U R :=
  fun d₀ fates hA s n ⟨hoff, hc, ht⟩ => h hc d₀ fates hA s n ⟨hoff, ht⟩

theorem Within.give {a : α} (h : ∀ t, T t → U a t) : Within A p T (give a) U R :=
  fun _ => .give fun _ ⟨hoff, ht⟩ => ⟨hoff, fun b hb => by cases hb; exact h _ ht, nofun⟩

theorem Within.throw {e : ε} (h : ∀ t, T t → R e t) : Within A p T (throw e) U R :=
  fun _ => .throw fun _ ⟨hoff, ht⟩ => ⟨hoff, nofun, fun e' he => by cases he; exact h _ ht⟩

theorem Within.of {y : Except ε α} (h : ∀ a t, y = .ok a → T t → U a t)
    (hR : ∀ e t, y = .error e → T t → R e t) :
    Within A p T (of y) U R := by
  cases y with
  | ok a => exact .give fun t ht => h a t rfl ht
  | error e => exact .throw fun t ht => hR e t rfl ht

theorem Within.bind {f : α → Program (Disk N C) ε β} {V : β → Tree N C → Prop}
    (hx : Within A p T x U R) (hf : ∀ a, Within A p (U a) (f a) V R) :
    Within A p T (x >>= f) V R := by
  intro d₀
  refine Ends.bind (M := fun a d => Off p d₀ d ∧ U a (d.tree p))
    ((hx d₀).mono fun out d ⟨hoff, hreturned, hraised⟩ => ?_)
    fun a => hf a d₀
  cases out with
  | returned a => exact ⟨hoff, hreturned a rfl⟩
  | raised e => exact ⟨hoff, nofun, fun e' he => by cases he; exact hraised e rfl⟩
  | stopped => exact ⟨hoff, nofun, nofun⟩

theorem Within.catching {handler : ε → Program (Disk N C) ε α} (hx : Within A p T x U R)
    (hh : ∀ e, Within A p (R e) (handler e) U R') : Within A p T (catching x handler) U R' := by
  intro d₀
  refine Ends.catching (M := fun e d => Off p d₀ d ∧ R e (d.tree p))
    ((hx d₀).mono fun out d ⟨hoff, hreturned, hraised⟩ => ?_)
    fun e => hh e d₀
  cases out with
  | returned a => exact ⟨hoff, hreturned, nofun⟩
  | raised e => exact ⟨hoff, hraised e rfl⟩
  | stopped => exact ⟨hoff, nofun, nofun⟩

/-- A step that changes the tree, or leaves the disk as it is. -/
theorem Within.step {act : Nat → Disk N C → Except ε (α × Disk N C)}
    (h : ∀ choice d a d', T (d.tree p) → act choice d = .ok (a, d') → Off p d d' ∧ U a (d'.tree p))
    (hR : ∀ e t, (A (.fails e) ∨ ∃ choice d, act choice d = .error e) → T t → R e t) :
    Within A p T (step act) U R := by
  intro d₀
  refine .step (fun choice d _ ⟨hoff, ht⟩ => ?_)
    (fun e d hfails ⟨hoff, ht⟩ => ⟨hoff, nofun, fun e' he => by
      cases he; exact hR e _ (Or.inl hfails) ht⟩)
    fun d _ ⟨hoff, _⟩ => ⟨hoff, nofun, nofun⟩
  cases hact : act choice d with
  | ok out =>
      obtain ⟨hoff', hU⟩ := h choice d out.1 out.2 ht hact
      refine ⟨hoff.trans hoff', fun a ha => ?_, nofun⟩
      cases ha
      exact hU
  | error e =>
      refine ⟨hoff, nofun, fun e' he => ?_⟩
      cases he
      exact hR e _ (Or.inr ⟨choice, d, hact⟩) ht

/-- A step that reads the disk. -/
theorem Within.read {act : Nat → Disk N C → Except ε (α × Disk N C)}
    (hread : ∀ choice d a d', act choice d = .ok (a, d') → d' = d) (h : ∀ a t, T t → U a t)
    (hR : ∀ e t, (A (.fails e) ∨ ∃ choice d, act choice d = .error e) → T t → R e t) :
    Within A p T (Program.step act) U R := by
  refine .step (fun choice d a d' ht hact => ?_) hR
  rw [hread choice d a d' hact]
  exact ⟨Off.refl p d, h a _ ht⟩

theorem Within.doing {e : ε} {f : Disk N C → Option (Disk N C)} {U : Unit → Tree N C → Prop}
    (h : ∀ d d', T (d.tree p) → f d = some d' → Off p d d' ∧ U () (d'.tree p))
    (hR : ∀ e' t, (A (.fails e') ∨ e' = e) → T t → R e' t) : Within A p T (doing e f) U R := by
  refine .step (fun _ d _ d' ht hact => ?_) fun e' t he ht =>
    hR e' t (he.imp_right fun ⟨_, d, hact⟩ => ?_) ht
  · cases hf : f d with
    | none =>
        rw [hf] at hact
        nomatch hact
    | some d'' =>
        rw [hf] at hact
        cases hact
        exact h _ _ ht hf
  · cases hf : f d with
    | none =>
        rw [hf] at hact
        exact (Except.error.inj hact).symm
    | some d'' =>
        rw [hf] at hact
        nomatch hact

section

variable {e : ε} (hR : ∀ e' t, (A (.fails e') ∨ e' = e) → T t → R e' t)

include hR

/-- An entry put below a path. -/
theorem Within.put (q : List N) (entry : Entry C) :
    Within A p T (Files.doing e fun d => d.put (p ++ q) entry)
    (fun _ t => ∃ t₀, T t₀ ∧ t = Directory.put t₀ q entry) R :=
  .doing (fun _ _ ht hf => ⟨(Disk.put_off hf).up (List.prefix_append p q), _, ht,
    Disk.tree_put hf⟩) hR

theorem Within.create (q : List N) (c : C) :
    Within A p T (Files.doing e fun d => d.create (p ++ q) c)
    (fun _ t => ∃ t₀, T t₀ ∧ t = Directory.put t₀ q (.file c)) R := by
  refine .doing (fun _ _ ht hf => ?_) hR
  have hput := (Disk.create_ok hf).2
  exact ⟨(Disk.put_off hput).up (List.prefix_append p q), _, ht, Disk.tree_put hput⟩

theorem Within.change (q : List N) (f : C → C) :
    Within A p T (Files.doing e fun d => d.change (p ++ q) f)
    (fun _ t => ∃ t₀ c, T t₀ ∧ t₀ q = some (.file c) ∧ t = Directory.put t₀ q (.file (f c))) R := by
  refine .doing (fun d _ ht hf => ?_) hR
  obtain ⟨c, hfile, hput⟩ := Disk.change_ok hf
  exact ⟨(Disk.put_off hput).up (List.prefix_append p q), d.tree p, c, ht, hfile,
    Disk.tree_put hput⟩

theorem Within.mkdir : Within A p T (Files.doing e fun d => d.mkdir p)
    (fun _ t => t = Directory.put Directory.empty [] .folder) R := by
  refine .doing (fun d d' _ hf => ?_) hR
  obtain ⟨hnone, hput⟩ := Disk.mkdir_ok hf
  have htree := Disk.tree_put (p := p) (q := []) (by rwa [List.append_nil])
  rw [Disk.tree_none hnone] at htree
  exact ⟨Disk.put_off hput, htree⟩

end

theorem Within.rmtree {e : ε} (hp : p ≠ []) (hR : ∀ e' t, (A (.fails e') ∨ e' = e) → R e' t) :
    Within A p T (Files.rmtree e p) (fun _ t => t = Directory.empty) R :=
  fun _ => ((rmtree_ends e hp).pre fun _ ⟨hoff, _⟩ => hoff).mono fun _ _ ⟨hoff, hgone, hraised⟩ =>
    ⟨hoff, fun _ ha => hgone ha, fun e' he => hR e' _ (hraised e' he)⟩

end
end Files
