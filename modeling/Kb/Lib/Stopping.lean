/-
# `Kb.Lib.Stopping` — programs that may fail, or be stopped, at any step

A program is a sequence of steps on a state, each of them made whole or not at all.  What becomes of
a step is not the program's: it is made, with a choice the program leaves open; or it fails, leaving
the state as it was; or the program is stopped there, and nothing of it runs after.  The fates of a
program's steps are any function of their number, so a statement over every one of them is over
every failure and every kill, at every step.

A program ends returning, raising or stopped.  `catching` and `ensuring` run what follows what was
raised, and nothing after a stop.  The results are the rules of a triple (`Ends`), one for each way
programs are put together.
-/
import Mathlib.Logic.Basic

namespace Stopping

/-- What becomes of a step. -/
inductive Fate (ε : Type) where
  | made (choice : Nat)
  | fails (e : ε)
  | stopped

/-- How a program ends. -/
inductive Ended (ε α : Type) where
  | returned (a : α)
  | raised (e : ε)
  | stopped

/-- A program on a state, the number of steps made kept beside it. -/
def Program (σ ε α : Type) := (Nat → Fate ε) → σ × Nat → Ended ε α × σ × Nat

namespace Program

variable {σ ε α β : Type}

/-- What a step that is made leaves. -/
def made (w : σ × Nat) : Except ε (α × σ) → Ended ε α × σ × Nat
  | .ok (a, s) => (.returned a, s, w.2 + 1)
  | .error e => (.raised e, w.1, w.2 + 1)

/-- One step, which may itself raise, given the choice left open. -/
def step (act : Nat → σ → Except ε (α × σ)) : Program σ ε α := fun fates w =>
  match fates w.2 with
  | .made choice => made w (act choice w.1)
  | .fails e => (.raised e, w.1, w.2 + 1)
  | .stopped => (.stopped, w.1, w.2 + 1)

def give (a : α) : Program σ ε α := fun _ w => (.returned a, w)

def throw (e : ε) : Program σ ε α := fun _ w => (.raised e, w)

/-- What a call gives, or the error it raises. -/
def of (x : Except ε α) : Program σ ε α :=
  match x with
  | .ok a => give a
  | .error e => throw e

def andThen (x : Program σ ε α) (f : α → Program σ ε β) : Program σ ε β := fun fates w =>
  match x fates w with
  | (.returned a, w) => f a fates w
  | (.raised e, w) => (.raised e, w)
  | (.stopped, w) => (.stopped, w)

instance : Monad (Program σ ε) where
  pure := give
  bind := andThen

/-- `try` and `except`: what is raised handled, and nothing after a stop. -/
def catching (x : Program σ ε α) (handler : ε → Program σ ε α) : Program σ ε α := fun fates w =>
  match x fates w with
  | (.raised e, w) => handler e fates w
  | out => out

/-- How a program ends once its last part has run: as it ended, unless that part raised or was
stopped. -/
def closed (out : Ended ε α) : Ended ε Unit × σ × Nat → Ended ε α × σ × Nat
  | (.returned _, w) => (out, w)
  | (.raised e, w) => (.raised e, w)
  | (.stopped, w) => (.stopped, w)

/-- `try` and `finally`: the last part runs whatever was returned or raised, and nothing after a
stop. -/
def ensuring (x : Program σ ε α) (last : Program σ ε Unit) : Program σ ε α := fun fates w =>
  match x fates w with
  | (.stopped, w) => (.stopped, w)
  | (out, w) => closed out (last fates w)

end Program

open Program

/-! ## The triple -/

variable {σ ε α β : Type} {A : Fate ε → Prop} {P R : σ → Prop} {Q Q' : Ended ε α → σ → Prop}

/-- Where every step's fate is one allowed, a program begun in a state meeting `P` ends as `Q` says,
in a state `Q` allows. -/
def Ends (A : Fate ε → Prop) (P : σ → Prop) (x : Program σ ε α) (Q : Ended ε α → σ → Prop) : Prop :=
  ∀ fates, (∀ n, A (fates n)) → ∀ s n, P s → Q (x fates (s, n)).1 (x fates (s, n)).2.1

/-- Any fate. -/
def whatever : Fate ε → Prop := fun _ => True

/-- A step made. -/
def smooth : Fate ε → Prop := fun f => ∃ choice, f = .made choice

/-- What is said of an end, of what is returned something else. -/
def Returning (M : α → σ → Prop) (Q : Ended ε β → σ → Prop) : Ended ε α → σ → Prop
  | .returned a => M a
  | .raised e => Q (.raised e)
  | .stopped => Q .stopped

/-- What is said of an end, of what is raised something else. -/
def Throwing (M : ε → σ → Prop) (Q : Ended ε α → σ → Prop) : Ended ε α → σ → Prop
  | .returned a => Q (.returned a)
  | .raised e => M e
  | .stopped => Q .stopped

/-- What is said of a stop, of every other end something else. -/
def Unstopped (M Q : Ended ε α → σ → Prop) : Ended ε α → σ → Prop
  | .returned a => M (.returned a)
  | .raised e => M (.raised e)
  | .stopped => Q .stopped

/-- What is said of the end a last part comes after. -/
def Closing (Q : Ended ε α → σ → Prop) (out : Ended ε α) : Ended ε Unit → σ → Prop
  | .returned _ => Q out
  | .raised e => Q (.raised e)
  | .stopped => Q .stopped

/-- What is said of a step made from a state. -/
def Making (Q : Ended ε α → σ → Prop) (s : σ) : Except ε (α × σ) → Prop
  | .ok (a, s') => Q (.returned a) s'
  | .error e => Q (.raised e) s

theorem Ends.mono {x : Program σ ε α} (h : Ends A P x Q) (hQ : ∀ out s, Q out s → Q' out s) :
    Ends A P x Q' :=
  fun fates hA s n hs => hQ _ _ (h fates hA s n hs)

theorem Ends.pre {x : Program σ ε α} (h : Ends A P x Q) (hP : ∀ s, R s → P s) : Ends A R x Q :=
  fun fates hA s n hs => h fates hA s n (hP s hs)

/-- The states a program is begun in one by one. -/
theorem Ends.of_each {x : Program σ ε α} (h : ∀ s, P s → Ends A (· = s) x Q) : Ends A P x Q :=
  fun fates hA s n hs => h s hs fates hA s n rfl

/-- What a step leaves: what it makes when it is made, the state as it was when it raises, fails or
is stopped. -/
theorem Ends.step {act : Nat → σ → Except ε (α × σ)}
    (hmade : ∀ choice s, A (.made choice) → P s → Making Q s (act choice s))
    (hfails : ∀ e s, A (.fails e) → P s → Q (.raised e) s)
    (hstopped : ∀ s, A .stopped → P s → Q .stopped s) :
    Ends A P (step act) Q := by
  intro fates hA s n hs
  have hfate := hA n
  cases hf : fates n with
  | made choice =>
      rw [hf] at hfate
      have h := hmade choice s hfate hs
      simp only [Program.step, hf]
      cases hact : act choice s with
      | ok out =>
          rw [hact] at h
          exact h
      | error e =>
          rw [hact] at h
          exact h
  | fails e =>
      rw [hf] at hfate
      simpa only [Program.step, hf] using hfails e s hfate hs
  | stopped =>
      rw [hf] at hfate
      simpa only [Program.step, hf] using hstopped s hfate hs

theorem Ends.give {a : α} (h : ∀ s, P s → Q (.returned a) s) : Ends A P (give a) Q :=
  fun _ _ s _ hs => h s hs

theorem Ends.throw {e : ε} (h : ∀ s, P s → Q (.raised e) s) : Ends A P (throw e) Q :=
  fun _ _ s _ hs => h s hs

theorem Ends.of {x : Except ε α} (hok : ∀ a, x = .ok a → ∀ s, P s → Q (.returned a) s)
    (herror : ∀ e, x = .error e → ∀ s, P s → Q (.raised e) s) : Ends A P (of x) Q := by
  cases x with
  | ok a => exact .give (hok a rfl)
  | error e => exact .throw (herror e rfl)

/-- One program after another: the second begins where the first returns. -/
theorem Ends.bind {x : Program σ ε α} {f : α → Program σ ε β} {M : α → σ → Prop}
    {Q : Ended ε β → σ → Prop} (hx : Ends A P x (Returning M Q)) (hf : ∀ a, Ends A (M a) (f a) Q) :
    Ends A P (x >>= f) Q := by
  intro fates hA s n hs
  have h := hx fates hA s n hs
  show Q (andThen x f fates (s, n)).1 (andThen x f fates (s, n)).2.1
  unfold andThen
  rcases hout : x fates (s, n) with ⟨out, s', n'⟩
  rw [hout] at h
  cases out with
  | returned a => exact hf a fates hA s' n' h
  | raised e => exact h
  | stopped => exact h

theorem Ends.catching {x : Program σ ε α} {handler : ε → Program σ ε α} {M : ε → σ → Prop}
    (hx : Ends A P x (Throwing M Q)) (hh : ∀ e, Ends A (M e) (handler e) Q) :
    Ends A P (catching x handler) Q := by
  intro fates hA s n hs
  have h := hx fates hA s n hs
  unfold Program.catching
  rcases hout : x fates (s, n) with ⟨out, s', n'⟩
  rw [hout] at h
  cases out with
  | returned a => exact h
  | raised e => exact hh e fates hA s' n' h
  | stopped => exact h

/-- The last part runs from whatever was returned or raised, and what it raises is raised in its
place. -/
theorem Ends.ensuring {x : Program σ ε α} {last : Program σ ε Unit} {M : Ended ε α → σ → Prop}
    (hx : Ends A P x (Unstopped M Q))
    (hlast : ∀ out, out ≠ .stopped → Ends A (M out) last (Closing Q out)) :
    Ends A P (ensuring x last) Q := by
  intro fates hA s n hs
  have h := hx fates hA s n hs
  unfold Program.ensuring
  rcases hout : x fates (s, n) with ⟨out, s', n'⟩
  rw [hout] at h
  have hafter : out ≠ .stopped → M out s' →
      Q (closed out (last fates (s', n'))).1 (closed out (last fates (s', n'))).2.1 := by
    intro hne hM
    have hl := hlast out hne fates hA s' n' hM
    rcases hended : last fates (s', n') with ⟨ended, s'', n''⟩
    rw [hended] at hl
    cases ended with
    | returned _ => exact hl
    | raised e => exact hl
    | stopped => exact hl
  cases out with
  | returned a => exact hafter nofun h
  | raised e => exact hafter nofun h
  | stopped => exact h

theorem Ends.and {x : Program σ ε α} (h : Ends A P x Q) (h' : Ends A P x Q') :
    Ends A P x fun out s => Q out s ∧ Q' out s :=
  fun fates hA s n hs => ⟨h fates hA s n hs, h' fates hA s n hs⟩

/-! ## What every step keeps -/

/-- What holds of a state before a program holds of it however the program ends. -/
def Keeps (A : Fate ε → Prop) (I : σ → Prop) (x : Program σ ε α) : Prop := Ends A I x fun _ => I

variable {I : σ → Prop}

theorem Keeps.step {act : Nat → σ → Except ε (α × σ)}
    (h : ∀ choice s a s', I s → act choice s = .ok (a, s') → I s') :
    Keeps A I (step act) := by
  refine Ends.step (fun choice s _ hs => ?_) (fun _ _ _ hs => hs) fun _ _ hs => hs
  cases hact : act choice s with
  | ok out => exact h choice s out.1 out.2 hs hact
  | error e => exact hs

theorem Keeps.give {a : α} : Keeps A I (give a : Program σ ε α) := Ends.give fun _ hs => hs

theorem Keeps.throw {e : ε} : Keeps A I (throw e : Program σ ε α) := Ends.throw fun _ hs => hs

theorem Keeps.bind {x : Program σ ε α} {f : α → Program σ ε β} (hx : Keeps A I x)
    (hf : ∀ a, Keeps A I (f a)) : Keeps A I (x >>= f) := by
  refine Ends.bind (M := fun _ => I) (Ends.mono hx fun out s hs => ?_) hf
  cases out with
  | returned a => exact hs
  | raised e => exact hs
  | stopped => exact hs

theorem Keeps.catching {x : Program σ ε α} {handler : ε → Program σ ε α} (hx : Keeps A I x)
    (hh : ∀ e, Keeps A I (handler e)) :
    Keeps A I (catching x handler) := by
  refine Ends.catching (M := fun _ => I) (Ends.mono hx fun out s hs => ?_) hh
  cases out with
  | returned a => exact hs
  | raised e => exact hs
  | stopped => exact hs

theorem Keeps.ensuring {x : Program σ ε α} {last : Program σ ε Unit} (hx : Keeps A I x)
    (hlast : Keeps A I last) :
    Keeps A I (ensuring x last) := by
  refine Ends.ensuring (M := fun _ => I) (Ends.mono hx fun out s hs => ?_) fun out _ =>
    Ends.mono hlast fun ended s hs => ?_
  · cases out with
    | returned a => exact hs
    | raised e => exact hs
    | stopped => exact hs
  · cases ended with
    | returned a => exact hs
    | raised e => exact hs
    | stopped => exact hs

/-! ## Where every step is made -/

/-- Where every step is made, a program returns, leaving what `K` says. -/
def Returns (P : σ → Prop) (x : Program σ ε α) (K : α → σ → Prop) : Prop :=
  Ends smooth P x fun out s => ∃ a, out = .returned a ∧ K a s

variable {K K' : α → σ → Prop} {x : Program σ ε α}

theorem Returns.mono (h : Returns P x K) (hK : ∀ a s, K a s → K' a s) : Returns P x K' :=
  Ends.mono h fun _ _ ⟨a, ha, hs⟩ => ⟨a, ha, hK a _ hs⟩

/-- What is said of every end is said of what is returned. -/
theorem Returns.with (h : Returns P x K) (hx : Ends smooth P x Q) :
    Returns P x fun a s => K a s ∧ Q (.returned a) s :=
  Ends.mono (Ends.and h hx) fun _ _ ⟨⟨a, ha, hs⟩, hQ⟩ => ⟨a, ha, hs, ha ▸ hQ⟩

theorem Returns.give {a : α} (h : ∀ s, P s → K a s) : Returns P (give a : Program σ ε α) K :=
  Ends.give fun s hs => ⟨a, rfl, h s hs⟩

theorem Returns.of {y : Except ε α} {a : α} (hy : y = .ok a) (h : ∀ s, P s → K a s) :
    Returns P (of y) K := by
  rw [hy]
  exact .give h

theorem Returns.step {act : Nat → σ → Except ε (α × σ)}
    (h : ∀ choice s, P s → ∃ a s', act choice s = .ok (a, s') ∧ K a s') :
    Returns P (step act) K := by
  refine Ends.step (fun choice s _ hs => ?_) (fun _ _ ⟨_, hfate⟩ => nomatch hfate) fun _ ⟨_,
    hfate⟩ => nomatch hfate
  obtain ⟨a, s', hact, hK⟩ := h choice s hs
  rw [hact]
  exact ⟨a, rfl, hK⟩

/-- After a program that returns, another begins where it did, however that one ends. -/
theorem Returns.andThen {f : α → Program σ ε β} {Q : Ended ε β → σ → Prop} (hx : Returns P x K)
    (hf : ∀ a, Ends smooth (K a) (f a) Q) : Ends smooth P (x >>= f) Q := by
  refine Ends.bind (M := K) (Ends.mono hx fun out s ⟨a, ha, hs⟩ => ?_) hf
  rw [ha]
  exact hs

theorem Returns.bind {f : α → Program σ ε β} {L : β → σ → Prop} (hx : Returns P x K)
    (hf : ∀ a, Returns (K a) (f a) L) :
    Returns P (x >>= f) L := hx.andThen hf

theorem Returns.catching {handler : ε → Program σ ε α} (hx : Returns P x K) :
    Returns P (catching x handler) K := by
  refine Ends.catching (M := fun _ _ => False) (Ends.mono hx fun out s ⟨a, ha, hs⟩ =>
    ?_) fun _ _ _ _ _ hfalse => hfalse.elim
  rw [ha]
  exact ⟨a, rfl, hs⟩

theorem Returns.ensuring {last : Program σ ε Unit} {L : α → σ → Prop} (hx : Returns P x K)
    (hlast : ∀ a, Returns (K a) last fun _ => L a) : Returns P (ensuring x last) L := by
  refine Ends.ensuring (M := fun out s => ∃ a, out = .returned a ∧ K a s)
      (Ends.mono hx fun out s ⟨a, ha, hs⟩ => ?_) fun out _ =>
    .of_each fun s ⟨a, ha, hs⟩ => ?_
  · rw [ha]
    exact ⟨a, rfl, hs⟩
  · rw [ha]
    exact Ends.mono ((hlast a).pre fun s' (hs' : s' = s) => hs' ▸ hs) fun ended s' ⟨u, hu, hL⟩ => by
      rw [hu]
      exact ⟨a, rfl, hL⟩

end Stopping
