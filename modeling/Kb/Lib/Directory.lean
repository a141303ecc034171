/-
# `Kb.Lib.Directory` — files written below a directory, never over anything

What stands below a directory, path by path, and files written there one after another, each with
the folders on the way to it made where none stands.  A file is not written where anything stands,
nor below a file; so files are all written just when none of their paths leads through another's or
to it (`writeAll_iff`), and then they and the folders on the way to them are what stands there
(`Holds`).
-/
import Mathlib.Data.List.Infix

namespace Directory

variable {N C : Type}

inductive Entry (C : Type) where
  | folder
  | file (content : C)

/-- What stands below a directory, path by path. -/
abbrev Tree (N C : Type) := List N → Option (Entry C)

def empty : Tree N C := fun _ => none

section

variable [DecidableEq N]

def put (t : Tree N C) (path : List N) (entry : Entry C) : Tree N C :=
  fun p => if p = path then some entry else t p

/-- The folders on a path below one, made where none stands; nothing where a file stands in the
way. -/
def folders (t : Tree N C) (at_ : List N) : List N → Option (Tree N C)
  | [] => some t
  | n :: rest => match t (at_ ++ [n]) with
      | some (.file _) => none
      | some .folder | none => folders (put t (at_ ++ [n]) .folder) (at_ ++ [n]) rest

/-- A file made where nothing stands. -/
def make (t : Tree N C) (path : List N) (content : C) : Option (Tree N C) :=
  match t path with
  | some _ => none
  | none => some (put t path (.file content))

def write (t : Tree N C) (f : List N × C) : Option (Tree N C) :=
  (folders t [] f.1.dropLast).bind fun t => make t f.1 f.2

def writeAll (t : Tree N C) (files : List (List N × C)) : Option (Tree N C) := files.foldlM write t

@[simp] theorem put_self (t : Tree N C) (path : List N) (entry : Entry C) :
    put t path entry path = some entry := if_pos rfl

theorem put_of_ne (t : Tree N C) {path p : List N} (entry : Entry C) (h : p ≠ path) :
    put t path entry p = t p := if_neg h

end

/-! ## Folders on the way -/

/-- A path below one, on the way along another. -/
def Between (at_ path p : List N) : Prop := at_ <+: p ∧ p ≠ at_ ∧ p <+: path

theorem between_cons {at_ rest p : List N} {n : N} :
    Between at_ (at_ ++ n :: rest) p ↔ p = at_ ++ [n] ∨ Between (at_ ++ [n])
      (at_ ++ n :: rest) p := by
  constructor
  · rintro ⟨⟨s, rfl⟩, hne, hpath⟩
    have hs : s <+: n :: rest := (List.prefix_append_right_inj at_).mp hpath
    cases s with
    | nil => exact absurd (List.append_nil at_) hne
    | cons m s =>
        obtain ⟨rfl, hs⟩ := List.cons_prefix_cons.mp hs
        cases s with
        | nil => exact Or.inl rfl
        | cons k s =>
            refine Or.inr ⟨⟨k :: s, by simp⟩, ?_, hpath⟩
            intro heq
            have hlength := congrArg List.length heq
            simp at hlength
  · rintro (rfl | ⟨⟨s, rfl⟩, _, hpath⟩)
    · refine ⟨List.prefix_append _ _, ?_, ⟨rest, by simp⟩⟩
      intro heq
      have hlength := congrArg List.length heq
      simp at hlength
    · refine ⟨⟨n :: s, by simp⟩, ?_, hpath⟩
      intro heq
      have hlength := congrArg List.length heq
      simp at hlength

theorem not_between_nil {at_ p : List N} : ¬ Between at_ at_ p := by
  rintro ⟨hbelow, hne, hpath⟩
  exact hne (hpath.eq_of_length (Nat.le_antisymm hpath.length_le hbelow.length_le))

/-- Folders are made on all the way, and nothing else changes, where no file stands on it. -/
theorem folders_made [DecidableEq N] {t : Tree N C} {at_ rest : List N}
    (h : ∀ p c, Between at_ (at_ ++ rest) p → t p ≠ some (.file c)) :
    ∃ t', folders t at_ rest = some t' ∧ (∀ p, Between at_ (at_ ++ rest) p → t' p = some .folder) ∧
      ∀ p, ¬ Between at_ (at_ ++ rest) p → t' p = t p := by
  induction rest generalizing t at_ with
  | nil =>
      rw [List.append_nil]
      exact ⟨t, rfl, fun p hp => absurd hp not_between_nil, fun _ _ => rfl⟩
  | cons n rest ih =>
      have hpath : at_ ++ [n] ++ rest = at_ ++ n :: rest := by simp
      have hlater : ∀ p c, Between (at_ ++ [n]) (at_ ++ [n] ++ rest) p →
          put t (at_ ++ [n]) .folder p ≠ some (.file c) := by
        intro p c hp
        rw [hpath] at hp
        rw [put_of_ne t _ hp.2.1]
        exact h p c (between_cons.mpr (Or.inr hp))
      obtain ⟨t', ht', hfolder, helse⟩ := ih hlater
      rw [hpath] at hfolder helse
      refine ⟨t', ?_, ?_, ?_⟩
      · have hfirst := fun c => h (at_ ++ [n]) c (between_cons.mpr (Or.inl rfl))
        rw [folders]
        split
        · next hfile => exact absurd hfile (hfirst _)
        · exact ht'
        · exact ht'
      · intro p hp
        by_cases hlast : Between (at_ ++ [n]) (at_ ++ n :: rest) p
        · exact hfolder p hlast
        · rw [helse p hlast, (between_cons.mp hp).resolve_right hlast, put_self]
      · intro p hp
        rw [between_cons, not_or] at hp
        rw [helse p hp.2, put_of_ne t _ hp.1]

/-- Where a file stands on the way, none is made. -/
theorem folders_none [DecidableEq N] {t : Tree N C} {at_ rest p : List N} {c : C}
    (hp : Between at_ (at_ ++ rest) p) (hfile : t p = some (.file c)) :
    folders t at_ rest = none := by
  induction rest generalizing t at_ with
  | nil =>
      rw [List.append_nil] at hp
      exact absurd hp not_between_nil
  | cons n rest ih =>
      have hpath : at_ ++ [n] ++ rest = at_ ++ n :: rest := by simp
      rw [folders]
      rcases between_cons.mp hp with rfl | hlater
      · rw [hfile]
      · have hrest : folders (put t (at_ ++ [n]) .folder) (at_ ++ [n]) rest = none := by
          refine ih (hpath ▸ hlater) ?_
          rw [put_of_ne t _ hlater.2.1]
          exact hfile
        split
        · rfl
        · exact hrest
        · exact hrest

/-! ## Files written -/

/-- Neither of two paths leads through the other or to it. -/
def Apart (p q : List N) : Prop := ¬ p <+: q ∧ ¬ q <+: p

/-- Files, and the folders on the way to them, are what stands below a directory. -/
structure Holds (t : Tree N C) (files : List (List N × C)) : Prop where
  named : ∀ f ∈ files, f.1 ≠ []
  file : ∀ p c, t p = some (.file c) ↔ (p, c) ∈ files
  folder : ∀ p, t p = some .folder ↔ p ≠ [] ∧ ∃ f ∈ files, p <+: f.1 ∧ p ≠ f.1

theorem between_dropLast {path p : List N} (hpath : path ≠ []) :
    Between [] ([] ++ path.dropLast) p ↔ p ≠ [] ∧ p <+: path ∧ p ≠ path := by
  rw [List.nil_append]
  constructor
  · rintro ⟨_, hne, hp⟩
    refine ⟨hne, hp.trans (List.dropLast_prefix path), ?_⟩
    rintro rfl
    have hle := hp.length_le
    rw [List.length_dropLast] at hle
    have hpos := List.length_pos_iff.mpr hpath
    omega
  · rintro ⟨hne, hp, hother⟩
    refine ⟨List.nil_prefix, hne, ?_⟩
    have hsplit := List.dropLast_append_getLast hpath
    rw [← hsplit] at hp
    rcases List.prefix_concat_iff.mp hp with heq | hp
    · exact absurd (heq.trans hsplit) hother
    · exact hp

variable [DecidableEq N]

/-- A file apart from every other is written, and stands beside them. -/
theorem Holds.write {t : Tree N C} {files : List (List N × C)} (h : Holds t files) {path : List N}
    (hpath : path ≠ []) (content : C) (hapart : ∀ f ∈ files, Apart f.1 path) :
    ∃ t', Directory.write t (path, content) = some t' ∧ Holds t' (files ++ [(path, content)]) := by
  have hclear : ∀ p c, Between [] ([] ++ path.dropLast) p → t p ≠ some (.file c) := by
    intro p c hp hfile
    exact (hapart _ ((h.file p c).mp hfile)).1 ((between_dropLast hpath).mp hp).2.1
  obtain ⟨t₁, ht₁, hfolder, helse⟩ := folders_made hclear
  simp only [between_dropLast hpath] at hfolder helse
  have hself : t₁ path = none := by
    rw [helse path fun hp => hp.2.2 rfl]
    cases hstands : t path with
    | none => rfl
    | some entry =>
        cases entry with
        | file c => exact absurd (List.prefix_refl path) (hapart _ ((h.file path c).mp hstands)).1
        | folder =>
            obtain ⟨_, f, hf, hp, _⟩ := (h.folder path).mp hstands
            exact absurd hp (hapart f hf).2
  refine ⟨put t₁ path (.file content), ?_, ?_, ?_, ?_⟩
  · show (folders t [] path.dropLast).bind _ = _
    rw [ht₁, Option.bind_some, make, hself]
  · intro f hf
    rcases List.mem_append.mp hf with hf | hf
    · exact h.named f hf
    · rw [List.mem_singleton.mp hf]
      exact hpath
  · intro p c
    rw [List.mem_append, List.mem_singleton, Prod.mk.injEq]
    by_cases hp : p = path
    · subst hp
      rw [put_self]
      constructor
      · intro heq
        cases heq
        exact Or.inr ⟨rfl, rfl⟩
      · rintro (hmem | ⟨_, rfl⟩)
        · exact absurd (List.prefix_refl p) (hapart _ hmem).1
        · rfl
    · rw [put_of_ne _ _ hp]
      by_cases hway : p ≠ [] ∧ p <+: path ∧ p ≠ path
      · rw [hfolder p hway]
        constructor
        · nofun
        · rintro (hmem | ⟨heq, _⟩)
          · exact absurd hway.2.1 (hapart _ hmem).1
          · exact absurd heq hp
      · rw [helse p hway, h.file p c]
        exact ⟨Or.inl, fun hmem => hmem.resolve_right fun heq => hp heq.1⟩
  · intro p
    by_cases hp : p = path
    · subst hp
      rw [put_self]
      constructor
      · nofun
      · rintro ⟨_, f, hf, hprefix, hother⟩
        rcases List.mem_append.mp hf with hf | hf
        · exact absurd hprefix (hapart f hf).2
        · rw [List.mem_singleton.mp hf] at hother
          exact absurd rfl hother
    · rw [put_of_ne _ _ hp]
      by_cases hway : p ≠ [] ∧ p <+: path ∧ p ≠ path
      · rw [hfolder p hway]
        exact ⟨fun _ => ⟨hway.1, _, List.mem_append_right _ List.mem_cons_self, hway.2⟩,
          fun _ => rfl⟩
      · rw [helse p hway, h.folder p]
        constructor
        · rintro ⟨hne, f, hf, hf'⟩
          exact ⟨hne, f, List.mem_append_left _ hf, hf'⟩
        · rintro ⟨hne, f, hf, hf'⟩
          rcases List.mem_append.mp hf with hf | hf
          · exact ⟨hne, f, hf, hf'⟩
          · rw [List.mem_singleton.mp hf] at hf'
            exact absurd ⟨hne, hf'⟩ hway

/-- A file that is not apart from another is not written. -/
theorem Holds.not_write {t : Tree N C} {files : List (List N × C)} (h : Holds t files)
    {path : List N} (hpath : path ≠ []) (content : C) {f : List N × C} (hf : f ∈ files)
    (hmet : ¬ Apart f.1 path) : Directory.write t (path, content) = none := by
  have hfile : t f.1 = some (.file f.2) := (h.file f.1 f.2).mpr hf
  -- a file on the way: no folder is made there
  by_cases hway : f.1 <+: path ∧ f.1 ≠ path
  · have hnone : folders t [] path.dropLast = none :=
      folders_none ((between_dropLast hpath).mpr ⟨h.named f hf, hway⟩) hfile
    show (folders t [] path.dropLast).bind _ = none
    rw [hnone, Option.bind_none]
  -- else something stands at the path itself
  have hstands : ∃ entry, t path = some entry := by
    by_cases heq : f.1 = path
    · exact ⟨_, heq ▸ hfile⟩
    · have hthrough : path <+: f.1 := by
        by_contra hnot
        exact hmet ⟨fun hp => hway ⟨hp, heq⟩, hnot⟩
      exact ⟨_, (h.folder path).mpr ⟨hpath, f, hf, hthrough, Ne.symm heq⟩⟩
  obtain ⟨entry, hentry⟩ := hstands
  by_cases hclear : ∀ p c, Between [] ([] ++ path.dropLast) p → t p ≠ some (.file c)
  · obtain ⟨t₁, ht₁, _, helse⟩ := folders_made hclear
    have hself : t₁ path = some entry := by
      rw [helse path fun hp => ((between_dropLast hpath).mp hp).2.2 rfl, hentry]
    show (folders t [] path.dropLast).bind _ = none
    rw [ht₁, Option.bind_some, make, hself]
  · obtain ⟨p, c, hp, hblocked⟩ : ∃ p c, Between [] ([] ++ path.dropLast) p ∧
        t p = some (.file c) := by
      by_contra hnone
      refine hclear fun p c hp hblocked => hnone ⟨p, c, hp, hblocked⟩
    show (folders t [] path.dropLast).bind _ = none
    rw [folders_none hp hblocked, Option.bind_none]

theorem Holds.writeAll {t : Tree N C} {stand files : List (List N × C)} (h : Holds t stand)
    (hnamed : ∀ f ∈ files, f.1 ≠ []) :
    (files.Pairwise (fun f g => Apart f.1 g.1) ∧ (∀ f ∈ stand, ∀ g ∈ files, Apart f.1 g.1) →
      ∃ t', Directory.writeAll t files = some t' ∧ Holds t' (stand ++ files)) ∧
    ∀ t', Directory.writeAll t files = some t' →
      files.Pairwise (fun f g => Apart f.1 g.1) ∧ ∀ f ∈ stand, ∀ g ∈ files, Apart f.1 g.1 := by
  induction files generalizing t stand with
  | nil =>
      refine ⟨fun _ => ⟨t, rfl, by rwa [List.append_nil]⟩, fun t' _ => ⟨List.Pairwise.nil, ?_⟩⟩
      intro f _ g hg
      cases hg
  | cons g files ih =>
      have hg := hnamed g List.mem_cons_self
      have hrest := fun f hf => hnamed f (List.mem_cons_of_mem g hf)
      constructor
      · rintro ⟨hpairwise, hapart⟩
        obtain ⟨hfirst, hpairwise⟩ := List.pairwise_cons.mp hpairwise
        obtain ⟨t₁, ht₁, h₁⟩ := h.write hg g.2 fun f hf => hapart f hf g List.mem_cons_self
        obtain ⟨t', ht', h'⟩ := (ih h₁ hrest).1 ⟨hpairwise, by
          intro f hf g' hg'
          rcases List.mem_append.mp hf with hf | hf
          · exact hapart f hf g' (List.mem_cons_of_mem _ hg')
          · rw [List.mem_singleton.mp hf]
            exact hfirst g' hg'⟩
        refine ⟨t', ?_, by rwa [List.append_assoc, List.singleton_append] at h'⟩
        rw [Directory.writeAll, List.foldlM_cons, show Directory.write t g = some t₁ from ht₁]
        exact ht'
      · intro t' ht'
        rw [Directory.writeAll, List.foldlM_cons] at ht'
        obtain ⟨t₁, ht₁, hlater⟩ := Option.bind_eq_some_iff.mp ht'
        have hapart : ∀ f ∈ stand, Apart f.1 g.1 := by
          intro f hf
          by_contra hmet
          have hnone : Directory.write t g = none := h.not_write hg g.2 hf hmet
          rw [hnone] at ht₁
          cases ht₁
        obtain ⟨t₂, ht₂, h₂⟩ := h.write hg g.2 hapart
        have hsame : t₁ = t₂ := Option.some.inj (ht₁.symm.trans ht₂)
        rw [hsame] at hlater
        obtain ⟨hpairwise, hstand⟩ := (ih h₂ hrest).2 t' hlater
        refine ⟨List.pairwise_cons.mpr ⟨fun g' hg' => ?_, hpairwise⟩, fun f hf g' hg' => ?_⟩
        · exact hstand (g.1, g.2) (List.mem_append_right _ List.mem_cons_self) g' hg'
        · rcases List.mem_cons.mp hg' with rfl | hg'
          · exact hapart f hf
          · exact hstand f (List.mem_append_left _ hf) g' hg'

end Directory
