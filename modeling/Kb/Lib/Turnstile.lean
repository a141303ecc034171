/-
# `Kb.Lib.Turnstile` — a line let in one at a time

What a fair lock is for.  Arrivals stand in line in the order they came; the first of the line goes
in, when nobody is in; and it comes out.  A run is told by its events, and where everybody stands is
all that is left of them: those that came are those that came out, the one that is in and those in
line, in that order, so those that went in are always the first of those that came.
-/
import Mathlib.Data.List.Basic

namespace Turnstile

variable {A : Type}

/-- What happens at a turnstile. -/
inductive Event (A : Type) where
  | came (a : A)
  | wentIn (a : A)
  | cameOut (a : A)

namespace Event

def came? : Event A → Option A
  | .came a => some a
  | _ => none

def wentIn? : Event A → Option A
  | .wentIn a => some a
  | _ => none

def cameOut? : Event A → Option A
  | .cameOut a => some a
  | _ => none

end Event

/-- Who came out, who is in, and who stands in line. -/
structure Line (A : Type) where
  gone : List A := []
  inside : Option A := none
  line : List A := []

inductive Line.Step : Line A → Event A → Line A → Prop
  | came {gone line : List A} {inside : Option A} (a : A) :
      Step ⟨gone, inside, line⟩ (.came a) ⟨gone, inside, line ++ [a]⟩
  | wentIn {gone line : List A} {a : A} :
      Step ⟨gone, none, a :: line⟩ (.wentIn a) ⟨gone, some a, line⟩
  | cameOut {gone line : List A} {a : A} :
      Step ⟨gone, some a, line⟩ (.cameOut a) ⟨gone ++ [a], none, line⟩

/-- A step of a system that shows the event it is, or that shows none and leaves everybody where
they stand. -/
def Line.Follows (l : Line A) : Option (Event A) → Line A → Prop
  | none, l' => l' = l
  | some e, l' => l.Step e l'

/-- Where everybody stands after the events of a run, the first of them first. -/
inductive Ran : List (Event A) → Line A → Prop
  | start : Ran [] {}
  | step {events : List (Event A)} {l l' : Line A} {e : Event A} : Ran events l → l.Step e l' →
      Ran (events ++ [e]) l'

/-- Who came, in the order they came. -/
def came (events : List (Event A)) : List A := events.filterMap Event.came?

/-- Who went in, in the order they went in. -/
def wentIn (events : List (Event A)) : List A := events.filterMap Event.wentIn?

/-- Who came out, in the order they came out. -/
def cameOut (events : List (Event A)) : List A := events.filterMap Event.cameOut?

theorem wentIn_append (events events' : List (Event A)) :
    wentIn (events ++ events') = wentIn events ++ wentIn events' :=
  List.filterMap_append

theorem came_append (events events' : List (Event A)) :
    came (events ++ events') = came events ++ came events' :=
  List.filterMap_append

namespace Ran

variable {events : List (Event A)} {l : Line A}

theorem came_eq (h : Ran events l) : came events = l.gone ++ l.inside.toList ++ l.line := by
  induction h with
  | start => rfl
  | step _ hstep ih =>
      rw [came_append, ih]
      cases hstep <;> simp [came, Event.came?]

theorem wentIn_eq (h : Ran events l) : wentIn events = l.gone ++ l.inside.toList := by
  induction h with
  | start => rfl
  | step _ hstep ih =>
      rw [wentIn_append, ih]
      cases hstep <;> simp [wentIn, Event.wentIn?]

theorem cameOut_eq (h : Ran events l) : cameOut events = l.gone := by
  induction h with
  | start => rfl
  | step _ hstep ih =>
      unfold cameOut at ih ⊢
      rw [List.filterMap_append, ih]
      cases hstep <;> simp [Event.cameOut?]

/-- A run goes on by a step, whether it shows an event or none. -/
theorem follows {l' : Line A} {e : Option (Event A)} (h : Ran events l) (hstep : l.Follows e l') :
    Ran (events ++ e.toList) l' := by
  cases e with
  | none =>
      cases hstep
      rwa [Option.toList_none, List.append_nil]
  | some e => exact .step h hstep

/-- Those that went in are the first of those that came. -/
theorem in_order (h : Ran events l) : wentIn events <+: came events := by
  rw [h.came_eq, h.wentIn_eq]
  exact List.prefix_append _ _

/-- Whoever goes in next, after those in line came and before anybody comes out, is the first of the
line. -/
theorem next_of_line {later : List (Event A)} {l' : Line A} {a : A} (h : Ran events l)
    (hin : l.inside = none) (hline : l.line ≠ []) (hlater : Ran (events ++ later ++ [.wentIn a]) l')
    (hquiet : wentIn later = []) :
    l.line.head? = some a := by
  obtain ⟨b, line, hl⟩ := List.exists_cons_of_ne_nil hline
  have horder := hlater.in_order
  have hnext : wentIn [Event.wentIn a] = [a] := rfl
  rw [List.append_assoc, wentIn_append, came_append, wentIn_append, hquiet, h.came_eq, h.wentIn_eq,
    hin, hl, hnext, Option.toList_none, List.append_nil, List.nil_append, List.append_assoc,
    List.prefix_append_right_inj, List.cons_append, List.cons_prefix_cons] at horder
  rw [hl, List.head?_cons, horder.1]

end Ran

end Turnstile
