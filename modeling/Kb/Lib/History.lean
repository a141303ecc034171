/-
# `Kb.Lib.History` — runs of a system whose steps may look back

A run is the list of the states passed through, newest first.  A step starts from the newest and may
depend on any state before it, as a writer's does that judged what it writes on an older state and
writes it now.

Two rules: what every step keeps, of states whose past all has it, is had by every state of a run;
and a relation that is reflexive, transitive and made by every step relates any state of a run to
any later one.
-/
import Mathlib.Data.List.Basic

namespace History

variable {S : Type}

/-- The runs from a start, each step from the states seen so far, newest first, to the next. -/
inductive Run (start : S → Prop) (step : S → List S → S → Prop) : List S → Prop where
  | start {s : S} : start s → Run start step [s]
  | step {s s' : S} {past : List S} : Run start step (s :: past) → step s past s' →
      Run start step (s' :: s :: past)

variable {start : S → Prop} {step step' : S → List S → S → Prop}

theorem Run.ne_nil {states : List S} (h : Run start step states) : states ≠ [] := by
  cases h <;> simp

/-- A run of steps each of which is a step of another system is a run of that system. -/
theorem Run.mono (hstep : ∀ s past s', step s past s' → step' s past s') {states : List S}
    (h : Run start step states) : Run start step' states := by
  induction h with
  | start hs => exact .start hs
  | step _ hs ih => exact .step ih (hstep _ _ _ hs)

/-- What a run went through before any of its states is a run. -/
theorem Run.before {states : List S} (h : Run start step states) {later past : List S} {s : S}
    (he : states = later ++ s :: past) : Run start step (s :: past) := by
  induction h generalizing later with
  | start hs =>
      rcases later with _ | ⟨x, later⟩
      · cases he
        exact .start hs
      · simp at he
  | @step s₀ s₁ past₀ hrun hs ih =>
      rcases later with _ | ⟨x, later⟩
      · cases he
        exact .step hrun hs
      · exact ih (List.cons.inj he).2

/-- What the start has and every step keeps, every state of a run has. -/
theorem Run.invariant {I : S → Prop} (hstart : ∀ s, start s → I s)
    (hstep : ∀ s past s', Run start step (s :: past) → (∀ m ∈ s :: past, I m) →
      step s past s' → I s')
    {states : List S} (h : Run start step states) : ∀ s ∈ states, I s := by
  induction h with
  | start hs =>
      intro m hm
      rw [List.mem_singleton] at hm
      exact hm ▸ hstart _ hs
  | step hrun hs ih =>
      intro m hm
      rcases List.mem_cons.mp hm with rfl | hm
      · exact hstep _ _ _ hrun ih hs
      · exact ih m hm

/-- A relation every step makes holds between any state of a run and any later one. -/
theorem Run.between {R : S → S → Prop} (htrans : ∀ a b c, R a b → R b c → R a c)
    (hstep : ∀ s past s', Run start step (s :: past) → step s past s' → R s s')
    {states : List S} (h : Run start step states) :
    states.Pairwise fun later earlier => R earlier later := by
  induction h with
  | start _ => exact List.pairwise_singleton _ _
  | step hrun hs ih =>
      have hlast := hstep _ _ _ hrun hs
      refine List.pairwise_cons.mpr ⟨fun m hm => ?_, ih⟩
      rcases List.mem_cons.mp hm with rfl | hm
      · exact hlast
      · exact htrans _ _ _ ((List.pairwise_cons.mp ih).1 m hm) hlast

end History
