/-
# `Kb.Sections` — the sections a type requires

`validation._sections` over trees: a list of sections and the sections required of it.  Each
required section is looked for where the one matched before it left off (`turns`), and inside
a section matched its own required sections are looked for, at that section's place (`Compared`).
No fault is found just where the required titles are, in order, the first the list holds, at every
level (`Placed`); else each list compared has one fault for every required section not matched in
its turn (`faultsAt`), which says it is missing just when no section of that list has its title.

A section's own title is text, as kb's shape of a section has it, so titles are alike just when they
are one value.
-/
import Kb.Validation
import Kb.Lib.Raising
import Kb.Tops

namespace Kb.Validation

open Raising

/-! ## Trees of sections -/

def titleOf : Value → Value
  | .map es => (Dict.get? es "title").getD .null
  | _ => .null

/-- The sections inside a section. -/
def below : Value → List Value
  | .map es => match Dict.get? es "sections" with
      | some (.list vs) => vs
      | _ => []
  | _ => []

/-- A tree of sections: a mapping with its title and, where it has any, a list of such trees. -/
inductive Tree (titled : Value → Prop) : Value → Prop
  | tree {es : Dict} {title : Value} : Dict.get? es "title" = some title → titled title →
      (Dict.get? es "sections" = none ∨ ∃ vs, Dict.get? es "sections" = some (.list vs)) →
      (∀ s ∈ below (.map es), Tree titled s) → Tree titled (.map es)

def IsText (v : Value) : Prop := ∃ t, v = .text t

section

variable {titled : Value → Prop} {s : Value}

theorem Tree.title (h : Tree titled s) : entry s "title" = .ok (titleOf s) := by
  cases h with
  | @tree es title htitle _ _ _ =>
      show Value.at_ (.map es) "title" = .ok ((Dict.get? es "title").getD .null)
      rw [Value.at_, htitle]
      rfl

theorem Tree.inner (h : Tree titled s) : ∀ m ∈ Validation.below s, Tree titled m := by
  cases h with
  | tree _ _ _ hbelow => exact hbelow

theorem Tree.sections (h : Tree titled s) : ∃ v, s.get "sections" (.list []) = .ok v ∧ v.iter =
    .ok (Validation.below s) := by
  cases h with
  | @tree es title _ _ hsections _ =>
      refine ⟨(Dict.get? es "sections").getD (.list []), rfl, ?_⟩
      show _ = Except.ok (match Dict.get? es "sections" with
        | some (.list vs) => vs
        | _ => [])
      rcases hsections with hnone | ⟨vs, hvs⟩
      · rw [hnone]
        rfl
      · rw [hvs]
        rfl

end

theorem below_small (s : Value) : sizeOf (below s) ≤ sizeOf s := by
  rcases s with s | vs | es
  · rw [below]
    · simp only [List.nil.sizeOf_spec, Value.scalar.sizeOf_spec]
      omega
    · nofun
  · rw [below]
    · simp only [List.nil.sizeOf_spec, Value.list.sizeOf_spec]
      omega
    · nofun
  · rw [below]
    split
    · next vs hvs =>
        have hsmall := Value.sizeOf_entry (Assoc.get_eq_some_mem hvs)
        simp only [Value.list.sizeOf_spec] at hsmall
        omega
    · simp only [List.nil.sizeOf_spec, Value.map.sizeOf_spec]
      omega

/-! ## What is compared with what -/

/-- The required sections of one list, each with the index it is matched at in its turn, if it
is. -/
def turns (titles : List Value) : Nat → List Value → List (Value × Option Nat)
  | _, [] => []
  | at_, wanted :: rest =>
      if titles[at_]? = some (titleOf wanted) then (wanted, some at_) :: turns titles (at_ + 1) rest
      else (wanted, none) :: turns titles at_ rest

/-- The place of the sections inside a section. -/
def insideOf (place : String) (index : Nat) : String :=
  place ++ "/" ++ toString index ++ "/sections"

/-- The lists of sections compared with required ones, from one list on: itself, and what is inside
each section matched in its turn. -/
inductive Compared : String → List Value → List Value → String → List Value → List Value → Prop
  | here (place : String) (sections required : List Value) :
      Compared place sections required place sections required
  | inside {place p : String} {sections required ss rs : List Value} {wanted s : Value}
      {index : Nat} :
      (wanted, some index) ∈ turns (sections.map titleOf) 0 required → sections[index]? = some s →
      Compared (insideOf place index) (below s) (below wanted) p ss rs →
      Compared place sections required p ss rs

/-- One fault for each required section of a list not matched in its turn. -/
def faultsAt (artifact place : String) (sections required : List Value) : List Fault :=
  (turns (sections.map titleOf) 0 required).filterMap fun turn =>
    if turn.2.isNone then
      some (sectionFault artifact place (titleOf turn.1)
        ((sections.map titleOf).contains (titleOf turn.1)))
    else none

/-- Sections that begin with the required ones, in order, at every level. -/
inductive Placed : List Value → List Value → Prop
  | none (sections : List Value) : Placed sections []
  | next {s wanted : Value} {sections required : List Value} : titleOf s = titleOf wanted →
      Placed (below s) (below wanted) →
      Placed sections required → Placed (s :: sections) (wanted :: required)

theorem mem_turns {titles : List Value} {at_ : Nat} {required : List Value}
    {turn : Value × Option Nat} (h : turn ∈ turns titles at_ required) :
    turn.1 ∈ required := by
  induction required generalizing at_ with
  | nil => exact absurd h List.not_mem_nil
  | cons wanted required ih =>
      rw [turns] at h
      split at h
      · rcases List.mem_cons.mp h with rfl | h
        · exact List.mem_cons_self
        · exact List.mem_cons_of_mem _ (ih h)
      · rcases List.mem_cons.mp h with rfl | h
        · exact List.mem_cons_self
        · exact List.mem_cons_of_mem _ (ih h)

/-- Each index is matched once, and none before where a list is left off. -/
theorem turns_index {titles : List Value} {at_ : Nat} {required : List Value} :
    ((turns titles at_ required).filterMap Prod.snd).Pairwise
      (· < ·) ∧ ∀ i ∈ (turns titles at_ required).filterMap Prod.snd, at_ ≤ i := by
  induction required generalizing at_ with
  | nil => exact ⟨.nil, fun i hi => absurd hi List.not_mem_nil⟩
  | cons wanted required ih =>
      rw [turns]
      split
      · obtain ⟨hpair, hle⟩ := @ih (at_ + 1)
        rw [List.filterMap_cons_some (show Prod.snd (wanted, some at_) = some at_ from rfl)]
        constructor
        · exact .cons (fun i hi => hle i hi) hpair
        · intro i hi
          rcases List.mem_cons.mp hi with rfl | hi
          · exact le_rfl
          · exact Nat.le_of_succ_le (hle i hi)
      · rw [List.filterMap_cons_none (show Prod.snd (wanted, none) = (none : Option Nat) from rfl)]
        exact ih

/-! ## One list compared -/

/-- The body of the loop over the required sections. -/
def judge (artifact : String) (depth : Nat) (sections titles : List Value) (place : String)
    (so : List Fault × Nat) (wanted : Value) :
    Raises (List Fault × Nat) := do
  let title ← entry wanted "title"
  if titles[so.2]? = some title then
    let here ← (sections[so.2]?.getD .null).get "sections" (.list [])
    let inside ← wanted.get "sections" (.list [])
    let below ← sectionFaults artifact depth (← here.iter) (← inside.iter)
      (place ++ "/" ++ toString so.2 ++ "/sections")
    .ok (so.1 ++ below, so.2 + 1)
  else .ok (so.1 ++ [sectionFault artifact place title (titles.contains title)], so.2)

theorem sectionFaults_succ (artifact : String) (depth : Nat) (sections required : List Value)
    (place : String) :
    sectionFaults artifact (depth + 1) sections required place = (do
      let titles ← sections.mapM fun s => entry s "title"
      let found ← required.foldlM (judge artifact depth sections titles place) ([], 0)
      .ok found.1) := rfl

/-- What one required section gives: inside the section matched, or a fault of its own. -/
inductive Piece (artifact : String) (depth : Nat) (place : String) (sections : List Value) :
    Value × Option Nat → List Fault → Prop
  | matched {wanted s : Value} {index : Nat} {faults : List Fault} : sections[index]? = some s →
      titleOf s = titleOf wanted →
      sectionFaults artifact depth (below s) (below wanted) (insideOf place index) = .ok faults →
      Piece artifact depth place sections (wanted, some index) faults
  | unmatched (wanted : Value) : Piece artifact depth place sections (wanted, none)
      [sectionFault artifact place (titleOf wanted)
        ((sections.map titleOf).contains (titleOf wanted))]

variable {artifact place : String} {depth : Nat} {sections required : List Value}

theorem judged (hs : ∀ s ∈ sections, Tree IsText s)
    (hr : ∀ wanted ∈ required, Tree (fun _ => True) wanted)
    (hbelow : ∀ s ∈ sections, ∀ wanted ∈ required, ∀ p, ∃ faults,
      sectionFaults artifact depth (below s) (below wanted) p = .ok faults)
    (so : List Fault × Nat) :
    ∃ pieces at_, List.Forall₂ (Piece artifact depth place sections)
      (turns (sections.map titleOf) so.2 required) pieces ∧
      required.foldlM (judge artifact depth sections (sections.map titleOf) place) so =
        .ok (so.1 ++ pieces.flatten, at_) := by
  induction required generalizing so with
  | nil => exact ⟨[], so.2, .nil, by rw [List.flatten_nil, List.append_nil]; rfl⟩
  | cons wanted required ih =>
      have hwanted := hr wanted List.mem_cons_self
      have hrest := ih (fun w hw => hr w (List.mem_cons_of_mem _ hw)) fun s hsec w hw =>
        hbelow s hsec w (List.mem_cons_of_mem _ hw)
      rw [turns]
      split
      · next htitle =>
          rw [List.getElem?_map] at htitle
          obtain ⟨s, hat, hsame⟩ := Option.map_eq_some_iff.mp htitle
          have hmem := List.mem_of_getElem? hat
          obtain ⟨faults, hfaults⟩ := hbelow s hmem wanted List.mem_cons_self (insideOf place so.2)
          obtain ⟨pieces, at_, hpieces, hrun⟩ := hrest (so.1 ++ faults, so.2 + 1)
          refine ⟨faults :: pieces, at_, .cons (.matched hat hsame hfaults) hpieces, ?_⟩
          obtain ⟨v, hv, hviter⟩ := (hs s hmem).sections
          obtain ⟨u, hu, huiter⟩ := hwanted.sections
          have hstep : judge artifact depth sections (sections.map titleOf) place so wanted =
              .ok (so.1 ++ faults, so.2 + 1) := by
            rw [judge, hwanted.title]
            refine bind_ok.mpr ⟨_, rfl, ?_⟩
            rw [if_pos (by rw [List.getElem?_map, hat, Option.map_some, hsame]), hat]
            exact bind_ok.mpr
              ⟨v, hv, bind_ok.mpr ⟨u, hu, bind_ok.mpr ⟨_, hviter, bind_ok.mpr ⟨_, huiter,
              bind_ok.mpr ⟨faults, hfaults, rfl⟩⟩⟩⟩⟩
          rw [List.foldlM_cons, hstep, List.flatten_cons, ← List.append_assoc]
          exact hrun
      · next htitle =>
          obtain ⟨pieces, at_, hpieces, hrun⟩ := hrest
            (so.1 ++ [sectionFault artifact place (titleOf wanted)
              ((sections.map titleOf).contains (titleOf wanted))], so.2)
          refine ⟨_, at_, .cons (.unmatched wanted) hpieces, ?_⟩
          have hstep : judge artifact depth sections (sections.map titleOf) place so wanted =
              .ok (so.1 ++ [sectionFault artifact place (titleOf wanted)
                  ((sections.map titleOf).contains (titleOf wanted))], so.2) := by
            rw [judge, hwanted.title]
            refine bind_ok.mpr ⟨_, rfl, ?_⟩
            rw [if_neg htitle]
          rw [List.foldlM_cons, hstep, List.flatten_cons, ← List.append_assoc]
          exact hrun

theorem titles_read (hs : ∀ s ∈ sections, Tree IsText s) :
    (sections.mapM fun s => entry s "title") = .ok (sections.map titleOf) := by
  refine mapM_ok.mpr ?_
  induction sections with
  | nil => exact .nil
  | cons s sections ih =>
      exact .cons (hs s List.mem_cons_self).title (ih fun m hm => hs m (List.mem_cons_of_mem _ hm))

/-- What a list compared with required sections gives, piece by piece. -/
theorem sectionFaults_pieces (hs : ∀ s ∈ sections, Tree IsText s)
    (hr : ∀ wanted ∈ required, Tree (fun _ => True) wanted) (hdepth : sizeOf required < depth) :
    ∃ below pieces, depth = below + 1 ∧
      List.Forall₂ (Piece artifact below place sections)
        (turns (sections.map titleOf) 0 required) pieces ∧
      sectionFaults artifact depth sections required place = .ok pieces.flatten := by
  induction depth generalizing sections required place with
  | zero => exact absurd hdepth (Nat.not_lt_zero _)
  | succ depth ih =>
      have hbelow : ∀ s ∈ sections, ∀ wanted ∈ required, ∀ p,
          ∃ faults, sectionFaults artifact depth (below s) (below wanted) p = .ok faults := by
        intro s hsec wanted hw p
        have hsmall := below_small wanted
        have hmember := List.sizeOf_lt_of_mem hw
        obtain ⟨_, pieces, _, _, hfaults⟩ :=
          @ih p (below s) (below wanted) (hs s hsec).inner (hr wanted hw).inner (by omega)
        exact ⟨_, hfaults⟩
      obtain ⟨pieces, at_, hpieces, hrun⟩ := judged hs hr hbelow ([], 0)
      refine ⟨depth, pieces, rfl, hpieces, ?_⟩
      rw [sectionFaults_succ, titles_read hs]
      exact bind_ok.mpr ⟨_, rfl, bind_ok.mpr ⟨_, hrun, rfl⟩⟩

/-! ## No fault just where every required section is in its place -/

theorem placed_of_pieces {pieces : List (List Fault)} {at_ : Nat}
    (h : List.Forall₂ (Piece artifact depth place sections)
      (turns (sections.map titleOf) at_ required) pieces)
    (hplaced : ∀ s ∈ sections, ∀ wanted ∈ required, ∀ p,
      sectionFaults artifact depth (below s) (below wanted) p = .ok [] ↔
      Placed (below s) (below wanted)) :
    pieces.flatten = [] ↔ Placed (sections.drop at_) required := by
  induction required generalizing at_ pieces with
  | nil =>
      cases h
      exact ⟨fun _ => .none _, fun _ => rfl⟩
  | cons wanted required ih =>
      have hrest := fun at_ pieces h => @ih pieces at_ h fun s hsec w hw =>
        hplaced s hsec w (List.mem_cons_of_mem _ hw)
      rw [turns] at h
      split at h
      · next htitle =>
          cases h with
          | @cons _ piece _ pieces hpiece hpieces =>
              cases hpiece with
              | @matched _ s _ _ hat hsame hfaults =>
                  rw [List.flatten_cons, List.append_eq_nil_iff, hrest _ _ hpieces]
                  have hdrop : sections.drop at_ = s :: sections.drop (at_ + 1) := by
                    obtain ⟨hlt, rfl⟩ := List.getElem?_eq_some_iff.mp hat
                    exact List.drop_eq_getElem_cons hlt
                  have hinner := hplaced s (List.mem_of_getElem? hat) wanted List.mem_cons_self
                    (insideOf place at_)
                  rw [hdrop]
                  constructor
                  · rintro ⟨rfl, hrest⟩
                    exact .next hsame (hinner.mp hfaults) hrest
                  · intro h
                    cases h with
                    | next _ hbelow hrest =>
                        exact ⟨Except.ok.inj (hfaults.symm.trans (hinner.mpr hbelow)), hrest⟩
      · next htitle =>
          cases h with
          | cons hpiece _ =>
              cases hpiece
              constructor
              · intro h
                cases h
              · intro h
                generalize hdrop : sections.drop at_ = rest at h
                cases h with
                | @next s _ rest _ hsame _ _ =>
                    refine absurd ?_ htitle
                    rw [List.getElem?_map, ← List.head?_drop, hdrop]
                    exact congrArg some hsame

theorem sectionFaults_nil (hs : ∀ s ∈ sections, Tree IsText s)
    (hr : ∀ wanted ∈ required, Tree (fun _ => True) wanted) (hdepth : sizeOf required < depth) :
    sectionFaults artifact depth sections required place = .ok [] ↔ Placed sections required := by
  induction depth generalizing sections required place with
  | zero => exact absurd hdepth (Nat.not_lt_zero _)
  | succ depth ih =>
      obtain ⟨_, pieces, hsucc, hpieces, hfaults⟩ :=
        @sectionFaults_pieces artifact place (depth + 1) sections required hs hr hdepth
      cases hsucc
      rw [hfaults, Except.ok.injEq]
      refine placed_of_pieces hpieces fun s hsec wanted hw p => ?_
      have hsmall := below_small wanted
      have hmember := List.sizeOf_lt_of_mem hw
      exact ih (hs s hsec).inner (hr wanted hw).inner (by omega)

/-! ## Where each fault is -/

/-- A place at or inside another, as they are written. -/
def Under (place p : String) : Prop := ∃ rest, p.toList = place.toList ++ rest

theorem Under.inside {p : String} {index : Nat} (h : Under (insideOf place index) p) :
    ∃ rest, p.toList = place.toList ++ '/' :: ((toString index).toList ++ '/' :: rest) := by
  obtain ⟨rest, h⟩ := h
  refine ⟨"sections".toList ++ rest, ?_⟩
  rw [h, insideOf]
  simp [String.toList_append, List.append_assoc]

theorem Compared.under {p : String} {ss rs : List Value}
    (h : Compared place sections required p ss rs) : Under place p := by
  induction h with
  | here => exact ⟨[], (List.append_nil _).symm⟩
  | inside _ _ _ ih =>
      obtain ⟨rest, h⟩ := ih.inside
      exact ⟨_, h⟩

theorem before_slash {l l' r r' : List Char} (hl : '/' ∉ l) (hl' : '/' ∉ l')
    (h : l ++ '/' :: r = l' ++ '/' :: r') : l = l' := by
  induction l generalizing l' with
  | nil =>
      cases l' with
      | nil => rfl
      | cons c l' => exact absurd (List.mem_cons.mpr (Or.inl (List.cons.inj h).1)) hl'
  | cons c l ih =>
      cases l' with
      | nil => exact absurd (List.mem_cons.mpr (Or.inl (List.cons.inj h).1.symm)) hl
      | cons c' l' =>
          obtain ⟨rfl, hrest⟩ := List.cons.inj h
          exact congrArg _ (ih (fun hmem => hl (List.mem_cons_of_mem _ hmem))
            (fun hmem => hl' (List.mem_cons_of_mem _ hmem)) hrest)

theorem slash_not_mem (n : Nat) : '/' ∉ (toString n).toList := by
  rw [Nat.toString_eq_repr, Nat.toList_repr]
  intro h
  have hdigit := Nat.isDigit_of_mem_toDigits (by decide) (by decide) h
  revert hdigit
  decide

/-- One place is inside one section alone. -/
theorem Under.index {p : String} {i j : Nat} (hi : Under (insideOf place i) p)
    (hj : Under (insideOf place j) p) : i = j := by
  obtain ⟨_, hi⟩ := hi.inside
  obtain ⟨_, hj⟩ := hj.inside
  have h := List.append_cancel_left (hi.symm.trans hj)
  have hsame := before_slash (slash_not_mem i) (slash_not_mem j) (List.cons.inj h).2
  exact Names.toString_nat_inj (String.toList_inj.mp hsame)

theorem not_under_self {i : Nat} : ¬ Under (insideOf place i) place := by
  intro h
  obtain ⟨rest, h⟩ := h.inside
  have hlength := congrArg List.length h
  rw [List.length_append, List.length_cons] at hlength
  omega

/-- The faults of a list compared are at a list compared with it or inside it. -/
theorem fault_compared (hs : ∀ s ∈ sections, Tree IsText s)
    (hr : ∀ wanted ∈ required, Tree (fun _ => True) wanted) (hdepth : sizeOf required < depth)
    {faults : List Fault}
    (hfaults : sectionFaults artifact depth sections required place = .ok faults) {f : Fault}
    (hf : f ∈ faults) : ∃ ss rs, Compared place sections required f.place ss rs := by
  induction depth generalizing sections required place faults with
  | zero => exact absurd hdepth (Nat.not_lt_zero _)
  | succ depth ih =>
      obtain ⟨_, pieces, hsucc, hpieces, hall⟩ :=
        @sectionFaults_pieces artifact place (depth + 1) sections required hs hr hdepth
      cases hsucc
      cases hfaults.symm.trans hall
      obtain ⟨piece, hmem, hf⟩ := List.mem_flatten.mp hf
      obtain ⟨turn, hturn, hpiece⟩ := forall₂_of_mem_right hpieces hmem
      cases hpiece with
      | @matched wanted s index _ hat _ hinner =>
          have hw : wanted ∈ required := mem_turns hturn
          have hsmall := below_small wanted
          have hmember := List.sizeOf_lt_of_mem hw
          obtain ⟨ss, rs, hcompared⟩ :=
            ih (hs s (List.mem_of_getElem? hat)).inner (hr wanted hw).inner (by omega) hinner hf
          exact ⟨ss, rs, .inside hturn hat hcompared⟩
      | unmatched wanted =>
          rw [List.mem_singleton.mp hf]
          exact ⟨_, _, .here place sections required⟩

/-! ## What is found of each list compared -/

/-- What a section matched gives is inside it. -/
theorem Piece.under (hs : ∀ s ∈ sections, Tree IsText s)
    (hr : ∀ wanted ∈ required, Tree (fun _ => True) wanted) (hdepth : sizeOf required < depth + 1)
    {turn : Value × Option Nat} (hturn : turn.1 ∈ required) {piece : List Fault}
    (h : Piece artifact depth place sections turn piece) {index : Nat}
    (hindex : turn.2 = some index) {f : Fault} (hf : f ∈ piece) :
    Under (insideOf place index) f.place := by
  cases h with
  | @matched wanted s i _ hat _ hinner =>
      cases hindex
      have hsmall := below_small wanted
      have hmember := List.sizeOf_lt_of_mem hturn
      have hwanted : sizeOf wanted < sizeOf required := hmember
      obtain ⟨_, _, hcompared⟩ :=
        fault_compared (hs s (List.mem_of_getElem? hat)).inner (hr wanted hturn).inner
          (by omega) hinner hf
      exact hcompared.under
  | unmatched _ => cases hindex

/-- Where a list is compared with required sections, what is found at its own place is what is not
matched in its turn. -/
theorem found_here {turned : List (Value × Option Nat)} {pieces : List (List Fault)}
    (h : List.Forall₂ (Piece artifact depth place sections) turned pieces)
    (hunder : ∀ turn ∈ turned, ∀ piece, Piece artifact depth place sections turn piece →
      ∀ index, turn.2 = some index →
      ∀ f ∈ piece, Under (insideOf place index) f.place) :
    pieces.flatten.filter (fun f => f.place = place) = turned.filterMap fun turn =>
      if turn.2.isNone then
        some (sectionFault artifact place (titleOf turn.1)
          ((sections.map titleOf).contains (titleOf turn.1)))
      else none := by
  induction h with
  | nil => rfl
  | @cons turn piece turned pieces hpiece _ ih =>
      have hrest := ih fun t ht => hunder t (List.mem_cons_of_mem _ ht)
      rw [List.flatten_cons, List.filter_append, hrest]
      cases hpiece with
      | @matched wanted s index _ hat hsame hinner =>
          rw [List.filterMap_cons_none (by rfl), List.filter_eq_nil_iff.mpr ?_, List.nil_append]
          intro f hf heq
          have hin := hunder _ List.mem_cons_self _ (.matched hat hsame hinner) index rfl f hf
          rw [of_decide_eq_true heq] at hin
          exact not_under_self hin
      | unmatched wanted =>
          rw [List.filterMap_cons_some (by rfl), List.filter_eq_self.mpr ?_, List.singleton_append]
          intro f hf
          rw [List.mem_singleton.mp hf]
          exact decide_eq_true rfl

/-- At a place inside a section matched is found what is found inside that section. -/
theorem found_inside {turned : List (Value × Option Nat)} {pieces : List (List Fault)}
    (h : List.Forall₂ (Piece artifact depth place sections) turned pieces)
    (hunder : ∀ turn ∈ turned, ∀ piece, Piece artifact depth place sections turn piece →
      ∀ index, turn.2 = some index →
      ∀ f ∈ piece, Under (insideOf place index) f.place)
    (honce : (turned.filterMap Prod.snd).Pairwise (· < ·)) {wanted : Value} {index : Nat}
    (hturn : (wanted, some index) ∈ turned) {p : String} (hp : Under (insideOf place index) p) :
    ∃ piece, Piece artifact depth place sections (wanted, some index) piece ∧
      pieces.flatten.filter (fun f => f.place = p) = piece.filter fun f => f.place = p := by
  have helsewhere : ∀ {turn : Value × Option Nat} {piece : List Fault}, turn ∈ turned →
      Piece artifact depth place sections turn piece →
      turn.2 ≠ some index → piece.filter (fun f => f.place = p) = [] := by
    intro turn piece hmem hpiece hne
    refine List.filter_eq_nil_iff.mpr fun f hf heq => ?_
    have heq := of_decide_eq_true heq
    cases hpiece with
    | @matched w s i _ hat hsame hinner =>
        have hin := hunder _ hmem _ (.matched hat hsame hinner) i rfl f hf
        rw [heq] at hin
        exact hne (congrArg some (hin.index hp))
    | unmatched w =>
        rw [List.mem_singleton.mp hf] at heq
        have heq : place = p := heq
        rw [← heq] at hp
        exact not_under_self hp
  induction h with
  | nil => exact absurd hturn List.not_mem_nil
  | @cons turn piece turned pieces hpiece hpieces ih =>
      rw [List.flatten_cons, List.filter_append]
      rcases List.mem_cons.mp hturn with rfl | hturn
      · refine ⟨piece, hpiece, ?_⟩
        have hrest : pieces.flatten.filter (fun f => f.place = p) = [] := by
          refine List.filter_eq_nil_iff.mpr fun f hf heq => ?_
          obtain ⟨other, hother, hf⟩ := List.mem_flatten.mp hf
          obtain ⟨turn, hmem, hotherPiece⟩ := forall₂_of_mem_right hpieces hother
          have hne : turn.2 ≠ some index := by
            intro hsame
            rw [List.filterMap_cons_some (show Prod.snd (wanted, some index) = some index
              from rfl)] at honce
            exact absurd ((List.pairwise_cons.mp honce).1 index
              (List.mem_filterMap.mpr ⟨turn, hmem, hsame⟩)) (lt_irrefl _)
          have hnil := helsewhere (List.mem_cons_of_mem _ hmem) hotherPiece hne
          exact List.filter_eq_nil_iff.mp hnil f hf heq
        rw [hrest, List.append_nil]
      · have hne : turn.2 ≠ some index := by
          intro hsame
          rw [List.filterMap_cons_some hsame] at honce
          exact absurd ((List.pairwise_cons.mp honce).1 index
            (List.mem_filterMap.mpr ⟨_, hturn, rfl⟩)) (lt_irrefl _)
        have honce' : (turned.filterMap Prod.snd).Pairwise (· < ·) := by
          refine List.Pairwise.sublist ?_ honce
          exact (List.sublist_cons_self turn turned).filterMap _
        rw [helsewhere List.mem_cons_self hpiece hne, List.nil_append]
        exact ih (fun t ht => hunder t (List.mem_cons_of_mem _ ht)) honce' hturn fun ht =>
          helsewhere (List.mem_cons_of_mem _ ht)

/-- Each list compared has one fault for every required section not matched in its turn. -/
theorem found_at {p : String} {ss rs : List Value} (h : Compared place sections required p ss rs)
    (hs : ∀ s ∈ sections, Tree IsText s) (hr : ∀ wanted ∈ required, Tree (fun _ => True) wanted)
    (hdepth : sizeOf required < depth) {faults : List Fault}
    (hfaults : sectionFaults artifact depth sections required place = .ok faults) :
    faults.filter (fun f => f.place = p) = faultsAt artifact p ss rs := by
  induction h generalizing depth faults with
  | here place sections required =>
      obtain ⟨_, pieces, rfl, hpieces, hall⟩ :=
        @sectionFaults_pieces artifact place depth sections required hs hr hdepth
      cases hfaults.symm.trans hall
      exact found_here hpieces fun turn ht piece hpiece index hindex f hf =>
        hpiece.under hs hr hdepth (mem_turns ht) hindex hf
  | @inside place p sections required ss rs wanted s index hturn hat hcompared ih =>
      obtain ⟨below, pieces, rfl, hpieces, hall⟩ :=
        @sectionFaults_pieces artifact place depth sections required hs hr hdepth
      cases hfaults.symm.trans hall
      have hunder : ∀ turn ∈ turns (sections.map titleOf) 0 required, ∀ piece,
          Piece artifact below place sections turn piece →
          ∀ i, turn.2 = some i → ∀ f ∈ piece, Under (insideOf place i) f.place :=
        fun turn ht piece hpiece i hi f hf => hpiece.under hs hr hdepth (mem_turns ht) hi hf
      obtain ⟨piece, hpiece, hsame⟩ :=
        found_inside hpieces hunder turns_index.1 hturn hcompared.under
      rw [hsame]
      have hw : wanted ∈ required := mem_turns hturn
      have hsmall := below_small wanted
      have hmember := List.sizeOf_lt_of_mem hw
      cases hpiece with
      | @matched _ s' _ _ hat' _ hinner =>
          cases hat.symm.trans hat'
          exact ih (hs s (List.mem_of_getElem? hat)).inner (hr wanted hw).inner (by omega) hinner

/-- The sections a type requires, over every tree of sections and every tree of required ones: no
fault just where the required ones stand first, in order, at every level; else one fault for each
not matched in its turn, list by list. -/
theorem sections_judged (artifact place : String) {depth : Nat} {sections required : List Value}
    (hs : ∀ s ∈ sections, Tree IsText s) (hr : ∀ wanted ∈ required, Tree (fun _ => True) wanted)
    (hdepth : sizeOf required < depth) :
    ∃ faults, sectionFaults artifact depth sections required place = .ok faults ∧
      (faults = [] ↔ Placed sections required) ∧
      (∀ f ∈ faults, ∃ ss rs, Compared place sections required f.place ss rs) ∧
      ∀ p ss rs, Compared place sections required p ss rs → faults.filter
        (fun f => f.place = p) = faultsAt artifact p ss rs := by
  obtain ⟨_, pieces, _, _, hfaults⟩ :=
    @sectionFaults_pieces artifact place depth sections required hs hr hdepth
  refine ⟨pieces.flatten, hfaults, ?_, fun f hf => fault_compared hs hr hdepth hfaults hf,
    fun p ss rs h => found_at h hs hr hdepth hfaults⟩
  rw [← sectionFaults_nil hs hr hdepth, hfaults, Except.ok.injEq]

/-- A section of its title alone. -/
def headed (title : String) : Value := .map [(.text "title", .text title)]

theorem headed_tree {titled : Value → Prop} {title : String} (h : titled (.text title)) :
    Tree titled (headed title) :=
  .tree rfl h (.inl rfl) fun _ hs => absurd hs List.not_mem_nil

theorem sections_judged_headed :
    ∃ faults, sectionFaults "a" (sizeOf [headed "Aim", headed "Scope"] + 1) [headed "Scope"]
      [headed "Aim", headed "Scope"] "sections" = .ok faults ∧
      (faults = [] ↔ Placed [headed "Scope"] [headed "Aim", headed "Scope"]) ∧
      (∀ f ∈ faults, ∃ ss rs,
        Compared "sections" [headed "Scope"] [headed "Aim", headed "Scope"] f.place ss rs) ∧
      ∀ p ss rs, Compared "sections" [headed "Scope"] [headed "Aim", headed "Scope"] p ss rs →
        faults.filter (fun f => f.place = p) = faultsAt "a" p ss rs := by
  refine sections_judged "a" "sections" ?_ ?_ (Nat.lt_succ_self _)
  · intro s hs
    rw [List.mem_singleton.mp hs]
    exact headed_tree ⟨_, rfl⟩
  · intro wanted hw
    rcases List.mem_cons.mp hw with rfl | hw
    · exact headed_tree trivial
    · rw [List.mem_singleton.mp hw]
      exact headed_tree trivial

end Kb.Validation
