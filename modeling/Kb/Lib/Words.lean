/-
# `Kb.Lib.Words` — the whole words of a text, and words matched in it

A text is a list of letters, some of which words are made of.  Its whole words are its runs of
those; a word is matched in it wherever the text holds letters alike to it, one for one, with an
edge of a word on either side.  The two come apart at a letter that no word is made of and that is
alike to one that words are: a match across it is no whole word of the text.  Across any other
stretch it is one (`Across.whole`).
-/
import Mathlib.Data.List.Forall2

namespace Words

variable {α : Type} (word : α → Bool) (alike : α → α → Bool)

/-- The whole words of a text, in order. -/
def wholes (text : List α) : List (List α) :=
  (text.splitOnP fun c => !word c).filter fun w => !w.isEmpty

/-- Whether a word begins or ends between two letters, or at an end of the text. -/
def edge (before after : Option α) : Bool :=
  before.any word != after.any word

/-- Whether a word is matched where a text begins, the letter before it given. -/
def taken (before : Option α) (text w : List α) : Bool :=
  w.length ≤ text.length && (w.zip text).all (fun p => alike p.1 p.2)
    && edge word before text.head? && edge word ((text.take w.length).getLast?.or before)
      (text.drop w.length).head?

/-- Where words are matched in a text, from its start on, none over another, at each place the first
of them that is; `skip` letters are passed over first. -/
def scan (words : List (List α)) : Nat → Option α → Nat → List α → List (Nat × Nat)
  | _, _, _, [] => []
  | skip + 1, _, at_, c :: text => scan words skip (some c) (at_ + 1) text
  | 0, before, at_, c :: text =>
      match words.find? (taken word alike before (c :: text)) with
      | some w => (at_, at_ + w.length) :: scan words (w.length - 1) (some c) (at_ + 1) text
      | none => scan words 0 (some c) (at_ + 1) text

/-- One of the words is matched across a stretch of a text, the letter before the text given. -/
def Across (words : List (List α)) (before : Option α) (text stretch : List α) : Prop :=
  ∃ w ∈ words, ∃ pre post, text = pre ++ stretch ++ post ∧
    List.Forall₂ (fun a b => alike a b = true) w stretch ∧
    edge word (pre.getLast?.or before) (stretch ++ post).head? = true ∧
    edge word ((pre ++ stretch).getLast?.or before) post.head? = true

variable {word alike}

theorem of_mem_wholes {text w : List α} (h : w ∈ wholes word text) : w ≠ [] := by
  have h := (List.mem_filter.mp h).2
  simpa using h

theorem word_of_mem_wholes {text w : List α} (h : w ∈ wholes word text) :
    ∀ c ∈ w, word c = true := by
  have hpieces : ∀ (text : List α), ∀ w ∈ text.splitOnP (fun c => !word c), ∀ c ∈ w,
      word c = true := by
    intro text
    induction text with
    | nil =>
        intro w hw c hc
        rw [List.splitOnP_nil, List.mem_singleton] at hw
        subst hw
        nomatch hc
    | cons x text ih =>
        intro w hw c hc
        rw [List.splitOnP_cons_eq_if_modifyHead] at hw
        split at hw
        · rcases List.mem_cons.mp hw with rfl | hw
          · nomatch hc
          · exact ih w hw c hc
        · next hx =>
            cases hrest : text.splitOnP (fun c => !word c) with
            | nil => exact absurd hrest (List.splitOnP_ne_nil _ _)
            | cons first rest =>
                rw [hrest] at hw ih
                rcases List.mem_cons.mp hw with rfl | hw
                · rcases List.mem_cons.mp hc with rfl | hc
                  · simpa using hx
                  · exact ih first List.mem_cons_self c hc
                · exact ih w (List.mem_cons_of_mem _ hw) c hc
  exact hpieces text w (List.mem_filter.mp h).1

/-- A run of word letters with none on either side is a whole word. -/
theorem mem_wholes {pre w post : List α} (hne : w ≠ []) (hw : ∀ c ∈ w, word c = true)
    (hpre : pre.getLast?.any word = false) (hpost : post.head?.any word = false) :
    w ∈ wholes word (pre ++ w ++ post) := by
  have hone : ∀ c ∈ w, (!word c) = false := fun c hc => by rw [hw c hc]; rfl
  have hafter : w ∈ (w ++ post).splitOnP fun c => !word c := by
    cases post with
    | nil =>
        rw [List.append_nil, List.splitOnP_eq_singleton hone]
        exact List.mem_singleton_self w
    | cons c post =>
        have hc : word c = false := hpost
        rw [List.splitOnP_append_cons_of_forall_mem hone c (by rw [hc]; rfl)]
        exact List.mem_cons_self
  refine List.mem_filter.mpr ⟨?_, by simpa using hne⟩
  rw [List.append_assoc]
  rcases List.eq_nil_or_concat pre with rfl | ⟨pre, c, rfl⟩
  · exact hafter
  · have hc : word c = false := by simpa using hpre
    rw [List.concat_eq_append, List.append_assoc, List.singleton_append,
      List.splitOnP_append_cons _ _ (by rw [hc]; rfl)]
    exact List.mem_append_right _ hafter

/-- A word matched across letters that words are made of is matched across a whole word of the
text. -/
theorem Across.whole {words : List (List α)} {text stretch : List α}
    (h : Across word alike words none text stretch) (hwords : ∀ w ∈ words, w ≠ [])
    (hstretch : ∀ c ∈ stretch, word c = true) : stretch ∈ wholes word text := by
  obtain ⟨w, hw, pre, post, rfl, halike, hbegins, hends⟩ := h
  have hne : stretch ≠ [] := by
    rintro rfl
    exact hwords w hw (List.forall₂_nil_right_iff.mp halike)
  refine mem_wholes hne hstretch ?_ ?_
  · obtain ⟨c, rest, rfl⟩ := List.exists_cons_of_ne_nil hne
    have hc := hstretch c List.mem_cons_self
    simpa [edge, hc] using hbegins
  · obtain ⟨front, c, rfl⟩ := (List.eq_nil_or_concat stretch).resolve_left hne
    have hc := hstretch c (by simp)
    rw [List.concat_eq_append, ← List.append_assoc, List.getLast?_concat] at hends
    simpa [edge, hc] using hends

/-! ## What a scan finds -/

theorem taken_iff {before : Option α} {text w : List α} :
    taken word alike before text w = true ↔
      ∃ stretch post, text = stretch ++ post ∧ List.Forall₂
        (fun a b => alike a b = true) w stretch ∧
        edge word before text.head? = true ∧ edge word
          (stretch.getLast?.or before) post.head? = true := by
  have hzip : ∀ (w text : List α), w.length ≤ text.length →
      ((w.zip text).all (fun p => alike p.1 p.2) = true ↔
          List.Forall₂ (fun a b => alike a b = true) w (text.take w.length)) := by
    intro w
    induction w with
    | nil => simp
    | cons a w ih =>
        intro text hlength
        cases text with
        | nil => simp at hlength
        | cons b text =>
            have hlength : w.length ≤ text.length := by simpa using hlength
            simp [ih text hlength]
  unfold taken
  simp only [Bool.and_eq_true, decide_eq_true_eq]
  constructor
  · rintro ⟨⟨⟨hlength, hall⟩, hbegins⟩, hends⟩
    exact ⟨text.take w.length, text.drop w.length, (List.take_append_drop _ _).symm,
      (hzip w text hlength).mp hall, hbegins, hends⟩
  · rintro ⟨stretch, post, rfl, halike, hbegins, hends⟩
    have hlength := halike.length_eq
    have htake : (stretch ++ post).take w.length = stretch := by rw [hlength, List.take_left]
    have hdrop : (stretch ++ post).drop w.length = post := by rw [hlength, List.drop_left]
    have hle : w.length ≤ (stretch ++ post).length := by
      rw [List.length_append]
      omega
    rw [htake, hdrop]
    exact ⟨⟨⟨hle, (hzip w _ hle).mpr (by rw [htake]; exact halike)⟩, hbegins⟩, hends⟩

theorem last_cons (c : α) (pre : List α) (before : Option α) :
    (c :: pre).getLast?.or before = pre.getLast?.or (some c) := by
  rw [List.getLast?_cons]
  cases pre.getLast? <;> rfl

/-- A scan finds something just when a word is matched somewhere in the text. -/
theorem scan_ne_nil {words : List (List α)} (hwords : ∀ w ∈ words, w ≠ []) (before : Option α)
    (at_ : Nat) (text : List α) :
    scan word alike words 0 before at_ text ≠ [] ↔
      ∃ stretch, Across word alike words before text stretch := by
  induction text generalizing before at_ with
  | nil =>
      constructor
      · exact fun h => absurd rfl h
      · rintro ⟨stretch, w, hw, pre, post, htext, halike, _⟩ _
        obtain ⟨hpre, rfl⟩ := List.append_eq_nil_iff.mp htext.symm
        obtain ⟨rfl, rfl⟩ := List.append_eq_nil_iff.mp hpre
        exact hwords w hw (List.forall₂_nil_right_iff.mp halike)
  | cons c text ih =>
      cases hfind : words.find? (taken word alike before (c :: text)) with
      | some w =>
          rw [scan, hfind]
          refine ⟨fun _ => ?_, fun _ => List.cons_ne_nil _ _⟩
          obtain ⟨stretch, post, htext, halike, hbegins, hends⟩ :=
            taken_iff.mp (List.find?_some hfind)
          refine ⟨stretch, w, List.mem_of_find?_eq_some hfind, [], post, htext, halike, ?_, hends⟩
          rw [← htext]
          exact hbegins
      | none =>
          rw [scan, hfind, ih]
          constructor
          · rintro ⟨stretch, w, hw, pre, post, rfl, halike, hbegins, hends⟩
            exact ⟨stretch, w, hw, c :: pre, post, rfl, halike, by
              rwa [last_cons], by rwa [List.cons_append, last_cons]⟩
          · rintro ⟨stretch, w, hw, pre, post, htext, halike, hbegins, hends⟩
            cases pre with
            | nil =>
                have hnone := List.find?_eq_none.mp hfind w hw
                refine absurd (taken_iff.mpr ⟨stretch, post, htext, halike, ?_, hends⟩) hnone
                rw [htext]
                exact hbegins
            | cons d pre =>
                obtain ⟨rfl, rfl⟩ := List.cons_eq_cons.mp htext
                rw [last_cons] at hbegins
                rw [List.cons_append, last_cons] at hends
                exact ⟨stretch, w, hw, pre, post, rfl, halike, hbegins, hends⟩

end Words
