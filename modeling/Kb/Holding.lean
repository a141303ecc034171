/-
# `Kb.Holding` — what a landed set leaves at one IRI

The rows the tables hold for one IRI are those its last change in a set hands, and, where the set
has none, those held before it.  Said once for whatever is read of an IRI (`Written.observed`), then
for its row, the places of its parts and the links it holds.
-/
import Kb.Landed

namespace Kb

open Landing Raising

/-! ## The last change to an IRI -/

/-- The last of a set's changes to an IRI. -/
def lastTo (id : ArtifactId) : List Change → Option Change
  | [] => none
  | c :: rest => (lastTo id rest).or (if c.artifact = id then some c else none)

theorem lastTo_append (id : ArtifactId) (cs : List Change) (c : Change) :
    lastTo id (cs ++ [c]) = if c.artifact = id then some c else lastTo id cs := by
  induction cs with
  | nil => simp [lastTo]
  | cons first rest ih =>
      rw [List.cons_append, lastTo, ih, lastTo]
      by_cases h : c.artifact = id
      · simp [h]
      · simp [h]

theorem lastTo_mem {id : ArtifactId} {cs : List Change} {c : Change} (h : lastTo id cs = some c) :
    c ∈ cs ∧ c.artifact = id := by
  induction cs with
  | nil => nomatch h
  | cons first rest ih =>
      rw [lastTo] at h
      rcases Option.or_eq_some_iff.mp h with h | ⟨_, h⟩
      · exact ⟨List.mem_cons_of_mem _ (ih h).1, (ih h).2⟩
      · split at h
        · next ha =>
            cases h
            exact ⟨List.mem_cons_self, ha⟩
        · nomatch h

theorem lastTo_eq_none {id : ArtifactId} {cs : List Change} :
    lastTo id cs = none ↔ ∀ c ∈ cs, c.artifact ≠ id := by
  induction cs with
  | nil => simp [lastTo]
  | cons first rest ih =>
      rw [lastTo, Option.or_eq_none_iff, ih, List.forall_mem_cons]
      refine ⟨fun h => ⟨fun e => ?_, h.1⟩, fun h => ⟨h.2, if_neg h.1⟩⟩
      rw [if_pos e] at h
      exact absurd h.2 (by simp)

/-- The last change to each artifact, as the checks of a landing find it. -/
theorem get_last (cs : List Change) (id : ArtifactId) : Assoc.get (last cs) id = lastTo id cs := by
  induction cs using List.reverseRecOn with
  | nil => rfl
  | append_singleton cs c ih =>
      rw [last, List.foldl_append, List.foldl_cons, List.foldl_nil, Assoc.get_set, lastTo_append]
      by_cases h : c.artifact = id
      · rw [if_pos h.symm, if_pos h]
      · rw [if_neg (Ne.symm h), if_neg h]
        exact ih

theorem keys_last_nodup (cs : List Change) : (Assoc.keys (last cs)).Nodup := by
  induction cs using List.reverseRecOn with
  | nil => exact List.nodup_nil
  | append_singleton cs c ih =>
      rw [last, List.foldl_append, List.foldl_cons, List.foldl_nil]
      exact Assoc.keys_nodup_set _ _ ih

theorem mem_last {cs : List Change} {id : ArtifactId} {c : Change} :
    (id, c) ∈ last cs ↔ lastTo id cs = some c := by
  rw [← get_last]
  exact ⟨Assoc.get_of_mem (keys_last_nodup cs), Assoc.get_eq_some_mem⟩

theorem any_last {cs : List Change} {id : ArtifactId} :
    ((last cs).any fun change => change.1 = id) = true ↔ ∃ c, lastTo id cs = some c := by
  rw [List.any_eq_true]
  constructor
  · rintro ⟨⟨x, c⟩, hmem, hx⟩
    have hx : x = id := by simpa using hx
    exact ⟨c, hx ▸ mem_last.mp hmem⟩
  · rintro ⟨c, hc⟩
    exact ⟨(id, c), mem_last.mpr hc, by simp⟩

/-! ## The rows of one IRI -/

theorem Settled.mem_once {α : Type} [DecidableEq α] {x : α} {xs : List α} :
    x ∈ Settled.once xs ↔ x ∈ xs := by
  induction xs with
  | nil => rfl
  | cons y ys ih =>
      rw [Settled.once, List.mem_cons, List.mem_filter, ih, List.mem_cons]
      by_cases h : x = y <;> simp [h]

theorem Settled.nodup_once {α : Type} [DecidableEq α] (xs : List α) : (Settled.once xs).Nodup := by
  induction xs with
  | nil => exact List.nodup_nil
  | cons x xs ih =>
      refine List.nodup_cons.mpr ⟨fun hx => ?_, ih.filter _⟩
      simpa using (List.mem_filter.mp hx).2

namespace Tables

variable (t : Tables) (landed step : Nat) (c : Change) (id : ArtifactId)

/-- The links an artifact holds, in the order it handed them. -/
def linksOf : List LinkRow := t.links.filter fun r => r.source = id

theorem mem_links_iff {t : Tables} {r : LinkRow} : r ∈ t.links ↔ r ∈ t.linksOf r.source := by
  simp [linksOf]

theorem source_of_mem_linkRows {c : Change} {r : LinkRow} (h : r ∈ linkRows c) :
    r.source = c.artifact := by
  unfold linkRows at h
  split at h
  · nomatch h
  · obtain ⟨p, _, rfl⟩ := List.mem_map.mp h
    rfl

theorem linksOf_wrote : (t.wrote landed step c).linksOf id = if c.artifact = id then linkRows c
    else t.linksOf id := by
  have hlinks : (t.wrote landed step c).links = (t.links.filter fun r => r.source ≠ c.artifact) ++
    linkRows c := rfl
  unfold linksOf
  rw [hlinks, List.filter_append, List.filter_filter]
  by_cases h : c.artifact = id
  · subst h
    rw [if_pos rfl, List.filter_eq_nil_iff.mpr (by simp), List.nil_append, List.filter_eq_self]
    exact fun r hr => by simpa using source_of_mem_linkRows hr
  · rw [if_neg h, (List.filter_eq_nil_iff (l := linkRows c)).mpr fun r hr => by
      simpa [source_of_mem_linkRows hr] using h, List.append_nil]
    refine List.filter_congr fun r _ => ?_
    by_cases hr : r.source = id <;> simp [hr, Ne.symm h]

/-- The places of the parts of the artifact a change leaves. -/
def placesOf : List String := if c.content.isNone then [] else Settled.once c.parts

theorem partsOf_wrote : (t.wrote landed step c).partsOf id = if c.artifact = id then placesOf c
    else t.partsOf id := by
  have hparts : (t.wrote landed step c).parts = (t.parts.filter fun p => p.1 ≠ c.artifact) ++
    partRows c := rfl
  have hfirst : ∀ p ∈ partRows c, p.1 = c.artifact := by
    intro p hp
    unfold partRows at hp
    split at hp
    · nomatch hp
    · obtain ⟨place, _, rfl⟩ := List.mem_map.mp hp
      rfl
  unfold partsOf
  rw [hparts, List.filter_append, List.filter_filter]
  by_cases h : c.artifact = id
  · subst h
    rw [if_pos rfl, List.filter_eq_nil_iff.mpr (by simp), List.nil_append,
      List.filter_eq_self.mpr fun p hp => by simpa using hfirst p hp]
    unfold partRows placesOf
    split
    · rfl
    · rw [List.map_map]
      exact List.map_id _
  · rw [if_neg h, (List.filter_eq_nil_iff (l := partRows c)).mpr fun p hp => by
      simpa [hfirst p hp] using h, List.append_nil]
    refine congrArg (List.map Prod.snd) (List.filter_congr fun p _ => ?_)
    by_cases hp : p.1 = id <;> simp [hp, Ne.symm h]

theorem row?_wrote' : (t.wrote landed step c).row? id = if c.artifact = id then (rowOf c).head?
    else t.row? id := by
  rw [row?_wrote]
  by_cases h : c.artifact = id
  · rw [if_pos h, if_pos h.symm]
  · rw [if_neg h, if_neg (Ne.symm h)]

/-- A version kept is kept by every change but the removal of its type. -/
theorem typeVersionRow?_wrote {t : Tables} {label : String} {r : TypeVersionRow}
    (h : t.typeVersionRow? label = some r) (landed step : Nat) {c : Change}
    (hc : c.content = none → r.type ≠ c.artifact) :
    (t.wrote landed step c).typeVersionRow? label = some r := by
  obtain ⟨hlabel, first, rest, hrows, hbefore⟩ := List.find?_eq_some_iff_append.mp h
  have happend : ∀ (kept more : List TypeVersionRow), kept.find? (fun r => r.id = label) = some r →
      (kept ++ more).find? (fun r => r.id = label) = some r := by
    intro kept more hkept
    rw [List.find?_append, hkept, Option.some_or]
  refine happend _ _ ?_
  split
  · next hnone =>
      refine List.find?_eq_some_iff_append.mpr ⟨hlabel, first.filter fun r => r.type ≠ c.artifact,
        rest.filter fun r => r.type ≠ c.artifact, ?_,
          fun a ha => hbefore a (List.mem_filter.mp ha).1⟩
      rw [hrows, List.filter_append, List.filter_cons_of_pos]
      exact decide_eq_true (hc (by simpa using hnone))
  · exact h

end Tables

/-! ## What a set's changes leave at an IRI -/

namespace Landing

variable {landed : Nat} {t t' : Tables} {cs : List (Change × Nat)}

/-- What is read of an IRI in stores as an invariant leaves them, and left by each change to it, is
after a set what its last change leaves. -/
theorem Written.observed_where {α : Type} {I : Tables → Prop} {f : Tables → α} {g : Change → α}
    {id : ArtifactId} (hI : ∀ t, I t → ∀ step c, I (t.wrote landed step c))
    (hf : ∀ t, I t → ∀ step c, f (t.wrote landed step c) = if c.artifact = id then g c else f t)
    (ht : I t) (h : Written landed t cs t') :
    f t' = ((lastTo id (cs.map Prod.fst)).map g).getD (f t) := by
  induction h with
  | nil => rfl
  | @cons t t' c step rest _ _ _ ih =>
      rw [ih (hI t ht step c), hf t ht, List.map_cons, lastTo]
      rcases lastTo id (rest.map Prod.fst) with _ | later
      · by_cases hc : c.artifact = id <;> simp [hc]
      · simp

/-- What is read of an IRI, and left by each change to it, is after a set what its last change
leaves. -/
theorem Written.observed {α : Type} {f : Tables → α} {g : Change → α} {id : ArtifactId}
    (hf : ∀ t step c, f (t.wrote landed step c) = if c.artifact = id then g c else f t)
    (h : Written landed t cs t') :
    f t' = ((lastTo id (cs.map Prod.fst)).map g).getD (f t) :=
  Written.observed_where (I := fun _ => True) (fun _ _ _ _ => trivial) (fun t _ => hf t) trivial h

theorem Written.kinded (h : Written landed t cs t') :
    ∀ p ∈ cs, p.1.content.isSome = true → p.1.kind.isSome = true := by
  induction h with
  | nil => exact nofun
  | cons _ hable _ ih =>
      intro p hp
      rcases List.mem_cons.mp hp with rfl | hp
      · exact hable.kinded
      · exact ih p hp

theorem Written.row?_last (h : Written landed t cs t') (id : ArtifactId) :
    t'.row? id = ((lastTo id (cs.map Prod.fst)).map fun c => (Tables.rowOf c).head?).getD
      (t.row? id) :=
  h.observed (f := fun t => t.row? id) fun t step c => t.row?_wrote' landed step c id

theorem Written.partsOf_last (h : Written landed t cs t') (id : ArtifactId) :
    t'.partsOf id = ((lastTo id (cs.map Prod.fst)).map Tables.placesOf).getD (t.partsOf id) :=
  h.observed (f := fun t => t.partsOf id) fun t step c => t.partsOf_wrote landed step c id

theorem Written.linksOf_last (h : Written landed t cs t') (id : ArtifactId) :
    t'.linksOf id = ((lastTo id (cs.map Prod.fst)).map Tables.linkRows).getD (t.linksOf id) :=
  h.observed (f := fun t => t.linksOf id) fun t step c => t.linksOf_wrote landed step c id

/-- After a set an IRI it changes holds something exactly when its last change leaves something. -/
theorem Written.holds_last (h : Written landed t cs t') {id : ArtifactId} {c : Change}
    (hc : lastTo id (cs.map Prod.fst) = some c) : t'.holds id = c.content.isSome := by
  unfold Tables.holds
  rw [h.row?_last id, hc]
  obtain ⟨hmem, _⟩ := lastTo_mem hc
  obtain ⟨p, hp, rfl⟩ := List.mem_map.mp hmem
  have hkinded := h.kinded p hp
  rcases hcontent : p.1.content with _ | a
  · simp [Tables.rowOf, hcontent]
  · obtain ⟨kind, hkind⟩ := Option.isSome_iff_exists.mp (hkinded (by simp [hcontent]))
    simp [Tables.rowOf, hcontent, hkind]

/-- What no change of a set is to, it leaves as it was. -/
theorem Written.holds_unchanged (h : Written landed t cs t') {id : ArtifactId}
    (hc : lastTo id (cs.map Prod.fst) = none) : t'.holds id = t.holds id := by
  unfold Tables.holds
  rw [h.row?_last id, hc]
  rfl

end Landing

end Kb
