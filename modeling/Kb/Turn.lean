/-
# `Kb.Turn` — the lock a server takes changes under

`server.py`: `InOrder`, the lock that lets callers in one at a time in the order they came to it,
and the servicer that takes each call that writes under it.  Any number of callers move one
statement at a time, in any order; what a caller does between two statements is its `Place`.

The condition's own lock is held by one caller at a time, and is taken by any that wants it while it
is free.  A caller that waits on the condition lets the lock go and sleeps in one step, as
`Condition.wait` does, and every caller asleep is woken by `notify_all`.  A call inside ends
normally or by an exception, and the lock is left either way.  `arrived` looks at how many tickets
are drawn, waiting for no longer than it is told to; when its time is up is decided outside, so it
may stop waiting at any time.
-/
import Kb.Lib.Turnstile
import Mathlib.Logic.Function.Basic

namespace Kb.Turn

open Turnstile

/-- Where a caller stands. -/
inductive Place where
  /-- in no call -/
  | away
  /-- in a call that writes nothing -/
  | reading
  /-- about to take the condition's lock, to draw a ticket -/
  | arriving
  /-- about to read the ticket -/
  | drawing
  /-- about to count the ticket drawn -/
  | drawn (ticket : Nat)
  /-- about to notify all, the ticket counted -/
  | counted (ticket : Nat)
  /-- about to ask whether the ticket is the one served -/
  | checking (ticket : Nat)
  /-- waiting to be notified -/
  | asleep (ticket : Nat)
  /-- about to take the condition's lock again -/
  | woken (ticket : Nat)
  /-- about to let the condition's lock go, the ticket being the one served -/
  | served (ticket : Nat)
  /-- in the call taken under the lock -/
  | inside (ticket : Nat)
  /-- about to take the condition's lock, the call ended -/
  | leaving (ticket : Nat) (raised : Bool)
  /-- about to serve the next ticket -/
  | advancing (ticket : Nat) (raised : Bool)
  /-- about to notify all, the next ticket served -/
  | telling (raised : Bool)
  /-- about to let the condition's lock go and answer, or raise -/
  | closing (raised : Bool)
  /-- about to take the condition's lock, to see how many came -/
  | asking (count : Nat)
  /-- about to ask whether as many came -/
  | looking (count : Nat)
  /-- waiting to be notified that as many came, or for the time to be up -/
  | dozing (count : Nat)
  /-- about to take the condition's lock again, to see how many came -/
  | stirred (count : Nat)
deriving DecidableEq

namespace Place

/-- Where a caller that wants the condition's lock stands once it has it. -/
def wants : Place → Option Place
  | arriving => some drawing
  | woken ticket => some (checking ticket)
  | leaving ticket raised => some (advancing ticket raised)
  | asking count | stirred count => some (looking count)
  | _ => none

/-- Whether a caller holds the condition's lock. -/
def holds : Place → Bool
  | drawing | drawn _ | counted _ | checking _ | served _ | advancing _ _ | telling _ | closing _
  | looking _ => true
  | _ => false

/-- Where a caller stands once all are notified. -/
def notified : Place → Place
  | asleep ticket => woken ticket
  | dozing count => stirred count
  | place => place

/-- The ticket of a caller that has drawn one and has not gone in. -/
def waits : Place → Option Nat
  | counted ticket | checking ticket | asleep ticket | woken ticket => some ticket
  | _ => none

/-- The ticket of a caller that has gone in and has not come out. -/
def within : Place → Option Nat
  | served ticket | inside ticket | leaving ticket _ | advancing ticket _ => some ticket
  | _ => none

variable {p q : Place}

@[simp] theorem holds_notified : p.notified.holds = p.holds := by cases p <;> rfl
@[simp] theorem waits_notified : p.notified.waits = p.waits := by cases p <;> rfl
@[simp] theorem within_notified : p.notified.within = p.within := by cases p <;> rfl

/-- The statements a caller makes with the condition's lock before it lets it go, unless its ticket
is served. -/
def left : Place → Nat
  | drawing => 4
  | drawn _ => 3
  | counted _ | telling _ => 2
  | checking _ | closing _ | looking _ => 1
  | _ => 0

theorem left_pos (h : p.holds = true) (hout : p.within = none) : 0 < p.left := by
  cases p <;> simp [holds, within, left] at *

/-- Taking the condition's lock changes no ticket. -/
theorem wanted (h : p.wants = some q) :
    p.holds = false ∧ q.holds = true ∧ q.waits = p.waits ∧ q.within = p.within ∧
    (∀ ticket, q ≠ .drawn ticket ∧ q ≠ .asleep ticket) ∧ ∀ raised, p ≠ .telling raised := by
  cases p <;> cases h <;> simp [holds, waits, within]

end Place

/-- The lock's counts, who holds its condition's own lock, and where each caller stands. -/
structure State (C : Type) where
  drawn : Nat := 0
  serving : Nat := 0
  turn : Option C := none
  at_ : C → Place := fun _ => .away

variable {C : Type}

namespace State

/-- A caller moved. -/
def go [DecidableEq C] (s : State C) (c : C) (p : Place) : State C :=
  { s with at_ := Function.update s.at_ c p }

/-- `Condition.notify_all`. -/
def notifyAll (s : State C) : State C := { s with at_ := fun c => (s.at_ c).notified }

/-- The caller has gone in and has not come out. -/
def Inside (s : State C) (c : C) : Prop := (s.at_ c).within.isSome = true

/-- The caller has drawn a ticket and has not gone in. -/
def Waiting (s : State C) (c : C) : Prop := (s.at_ c).waits.isSome = true

end State

/-- One statement of one caller, and what happened at the lock by it. -/
inductive Step [DecidableEq C] : State C → Option (Event (C × Nat)) → State C → Prop
  -- a call that writes nothing is answered as it comes, any other is taken under the lock
  | reads {s : State C} {c : C} : s.at_ c = .away → Step s none (s.go c .reading)
  | answers {s : State C} {c : C} : s.at_ c = .reading → Step s none (s.go c .away)
  | comes {s : State C} {c : C} : s.at_ c = .away → Step s none (s.go c .arriving)
  | asks {s : State C} {c : C} (count : Nat) : s.at_ c = .away →
      Step s none (s.go c (.asking count))
  -- the condition's own lock
  | acquires {s : State C} {c : C} {p : Place} : (s.at_ c).wants = some p → s.turn = none →
      Step s none ({ s with turn := some c }.go c p)
  -- `__enter__`
  | draws {s : State C} {c : C} : s.at_ c = .drawing → Step s none (s.go c (.drawn s.drawn))
  | counts {s : State C} {c : C} {ticket : Nat} : s.at_ c = .drawn ticket →
      Step s (some (.came (c, ticket))) ({ s with drawn := s.drawn + 1 }.go c (.counted ticket))
  | tells {s : State C} {c : C} {ticket : Nat} : s.at_ c = .counted ticket →
      Step s none (s.notifyAll.go c (.checking ticket))
  | waits {s : State C} {c : C} {ticket : Nat} : s.at_ c = .checking ticket → s.serving ≠ ticket →
      Step s none ({ s with turn := none }.go c (.asleep ticket))
  | goesIn {s : State C} {c : C} {ticket : Nat} : s.at_ c = .checking ticket → s.serving = ticket →
      Step s (some (.wentIn (c, ticket))) (s.go c (.served ticket))
  | enters {s : State C} {c : C} {ticket : Nat} : s.at_ c = .served ticket →
      Step s none ({ s with turn := none }.go c (.inside ticket))
  -- the call inside ends, normally or by an exception
  | ends {s : State C} {c : C} {ticket : Nat} (raised : Bool) : s.at_ c = .inside ticket →
      Step s none (s.go c (.leaving ticket raised))
  -- `__exit__`
  | advances {s : State C} {c : C} {ticket : Nat} {raised : Bool} :
      s.at_ c = .advancing ticket raised →
      Step s (some (.cameOut (c, ticket)))
        ({ s with serving := s.serving + 1 }.go c (.telling raised))
  | tellsAll {s : State C} {c : C} {raised : Bool} : s.at_ c = .telling raised →
      Step s none (s.notifyAll.go c (.closing raised))
  | leaves {s : State C} {c : C} {raised : Bool} : s.at_ c = .closing raised →
      Step s none ({ s with turn := none }.go c .away)
  -- `arrived`
  | finds {s : State C} {c : C} {count : Nat} : s.at_ c = .looking count → count ≤ s.drawn →
      Step s none ({ s with turn := none }.go c .away)
  | givesUp {s : State C} {c : C} {count : Nat} : s.at_ c = .looking count → s.drawn < count →
      Step s none ({ s with turn := none }.go c .away)
  | dozes {s : State C} {c : C} {count : Nat} : s.at_ c = .looking count → s.drawn < count →
      Step s none ({ s with turn := none }.go c (.dozing count))
  | stirs {s : State C} {c : C} {count : Nat} : s.at_ c = .dozing count →
      Step s none (s.go c (.stirred count))

/-- Steps from a state to another, and what happened by them, the first first. -/
inductive Runs [DecidableEq C] (s : State C) : List (Event (C × Nat)) → State C → Prop
  | refl : Runs s [] s
  | step {events : List (Event (C × Nat))} {e : Option (Event (C × Nat))} {s' s'' : State C} :
      Runs s events s' → Step s' e s'' → Runs s (events ++ e.toList) s''

/-- The states reached from a new lock, and what happened on the way. -/
def Reached [DecidableEq C] (events : List (Event (C × Nat))) (s : State C) : Prop :=
  Runs {} events s

/-- The caller may be the next to go in. -/
def State.MayGoIn [DecidableEq C] (s : State C) (c : C) : Prop :=
  ∃ later s' ticket s'', Runs s later s' ∧ wentIn later = [] ∧
    Step s' (some (.wentIn (c, ticket))) s''

/-! ## The line behind the lock -/

/-- A state of the lock stands for a line: the tickets are the numbers of those that came, in the
order they came, each caller holds the ticket it came with from then until it comes out, one caller
holds the condition's lock, and whoever sleeps on the ticket served is about to be told. -/
structure Standing (s : State C) (l : Line (C × Nat)) : Prop where
  tickets : (l.gone ++ l.inside.toList ++ l.line).map Prod.snd = List.range s.drawn
  serving : l.gone.length = s.serving
  waits : ∀ c ticket, (s.at_ c).waits = some ticket ↔ (c, ticket) ∈ l.line
  within : ∀ c ticket, (s.at_ c).within = some ticket ↔ l.inside = some (c, ticket)
  lock : ∀ c, (s.at_ c).holds = true ↔ s.turn = some c
  counting : ∀ c ticket, s.at_ c = .drawn ticket → ticket = s.drawn
  told : ∀ c, s.at_ c = .asleep s.serving → ∃ c' raised, s.at_ c' = .telling raised

theorem standing_start : Standing ({} : State C) {} where
  tickets := rfl
  serving := rfl
  waits := by simp [Place.waits]
  within := by simp [Place.within]
  lock := by simp [Place.holds]
  counting := by simp
  told := by simp

namespace State

variable {s : State C} {c c' : C} {p : Place}

@[simp] theorem notifyAll_at : s.notifyAll.at_ c = (s.at_ c).notified := rfl
@[simp] theorem notifyAll_drawn : s.notifyAll.drawn = s.drawn := rfl
@[simp] theorem notifyAll_serving : s.notifyAll.serving = s.serving := rfl
@[simp] theorem notifyAll_turn : s.notifyAll.turn = s.turn := rfl

variable [DecidableEq C]

@[simp] theorem go_at_self : (s.go c p).at_ c = p := Function.update_self ..

@[simp] theorem go_at_of_ne (h : c' ≠ c) : (s.go c p).at_ c' = s.at_ c' :=
  Function.update_of_ne h ..

@[simp] theorem go_drawn : (s.go c p).drawn = s.drawn := rfl
@[simp] theorem go_serving : (s.go c p).serving = s.serving := rfl
@[simp] theorem go_turn : (s.go c p).turn = s.turn := rfl

end State

namespace Standing

variable {s : State C} {l : Line (C × Nat)} {c : C} {p : Place}

/-- The tickets of whoever is in and of the line, from the one served on. -/
theorem ahead (h : Standing s l) :
    (l.inside.toList ++ l.line).map Prod.snd = List.range' s.serving
      (l.inside.toList ++ l.line).length := by
  have htickets := h.tickets
  have hlength : s.drawn = s.serving + (l.inside.toList ++ l.line).length := by
    have hcount := congrArg List.length htickets
    rw [List.length_map, List.length_range, List.append_assoc, List.length_append,
      h.serving] at hcount
    exact hcount.symm
  rw [List.append_assoc, List.map_append, hlength, List.range_eq_range', ← List.range'_append_1,
    Nat.zero_add] at htickets
  refine (List.append_inj htickets ?_).2
  rw [List.length_map, List.length_range', h.serving]

/-- The caller that holds the ticket served, in the line, is its first, and nobody is in. -/
theorem first (h : Standing s l) (hc : (c, s.serving) ∈ l.line) :
    l.inside = none ∧ ∃ line, l.line = (c, s.serving) :: line := by
  have hahead := h.ahead
  have hlater : ∀ rest : List (C × Nat),
      rest.map Prod.snd = List.range' (s.serving + 1) rest.length →
      (c, s.serving) ∉ rest := by
    intro rest hrest hmem
    have hmem : s.serving ∈ rest.map Prod.snd := List.mem_map_of_mem hmem
    rw [hrest, List.mem_range'_1] at hmem
    omega
  cases hin : l.inside with
  | some a =>
      rw [hin, Option.toList_some, List.singleton_append, List.map_cons, List.length_cons,
        List.range'_succ] at hahead
      exact absurd hc (hlater _ (List.cons.inj hahead).2)
  | none =>
      cases hl : l.line with
      | nil =>
          rw [hl] at hc
          cases hc
      | cons a line =>
          rw [hin, hl, Option.toList_none, List.nil_append, List.map_cons, List.length_cons,
            List.range'_succ] at hahead
          rw [hl] at hc
          rcases List.mem_cons.mp hc with rfl | hc
          · exact ⟨rfl, line, rfl⟩
          · exact absurd hc (hlater _ (List.cons.inj hahead).2)

/-- The one that is in holds the ticket served. -/
theorem inside_ticket (h : Standing s l) {ticket : Nat} (hin : l.inside = some (c, ticket)) :
    ticket = s.serving := by
  have hahead := h.ahead
  rw [hin, Option.toList_some, List.singleton_append, List.map_cons, List.length_cons,
    List.range'_succ] at hahead
  exact (List.cons.inj hahead).1

/-- The first of the line holds the ticket served, when nobody is in. -/
theorem line_ticket (h : Standing s l) (hin : l.inside = none) {ticket : Nat}
    (hline : l.line.head? = some (c, ticket)) :
    ticket = s.serving := by
  have hahead := h.ahead
  obtain ⟨line, hl⟩ := List.head?_eq_some_iff.mp hline
  rw [hin, hl, Option.toList_none, List.nil_append, List.map_cons, List.length_cons,
    List.range'_succ] at hahead
  exact (List.cons.inj hahead).1

/-- The first of the line holds the ticket served, and has it where callers in line have theirs. -/
theorem first_waits (h : Standing s l) (hline : l.line.head? = some (c, s.serving)) :
    s.at_ c = .counted s.serving ∨ s.at_ c = .checking s.serving ∨ s.at_ c = .asleep s.serving ∨
      s.at_ c = .woken s.serving := by
  have hwaits := (h.waits c s.serving).mpr (List.mem_of_head? hline)
  cases hat : s.at_ c <;> rw [hat] at hwaits <;> cases hwaits <;> simp

/-- Nobody else has read a ticket while a caller holds the condition's lock. -/
theorem counting_alone (h : Standing s l) (hheld : (s.at_ c).holds = true) {c' : C} {ticket : Nat}
    (hdrawn : s.at_ c' = .drawn ticket) : c' = c := by
  have hheld' : (s.at_ c').holds = true := by rw [hdrawn]; rfl
  exact Option.some.inj (((h.lock c').mp hheld').symm.trans ((h.lock c).mp hheld))

/-- Nobody has gone in, and not come out, where the line has nobody in. -/
theorem within_none (h : Standing s l) (hin : l.inside = none) (c : C) :
    (s.at_ c).within = none := by
  cases hwithin : (s.at_ c).within with
  | none => rfl
  | some ticket =>
      rw [(h.within c ticket).mp hwithin] at hin
      cases hin

/-! ### What one statement changes -/

/-- A caller that moves with the ticket it has, and takes the condition's lock, keeps it or lets it
go, changes nothing of the line. -/
theorem go [DecidableEq C] (h : Standing s l) (turn : Option C) (hwaits : p.waits = (s.at_ c).waits)
    (hwithin : p.within = (s.at_ c).within) (hlock : p.holds = true ↔ turn = some c)
    (hothers : ∀ c', c' ≠ c → (s.turn = some c' ↔ turn = some c'))
    (hcounting : ∀ ticket, p = .drawn ticket → ticket = s.drawn) (hasleep : p ≠ .asleep s.serving)
    (htold : (∀ raised, s.at_ c ≠ .telling raised) ∨ ∀ c', s.at_ c' ≠ .asleep s.serving) :
    Standing ({ s with turn := turn }.go c p) l where
  tickets := h.tickets
  serving := h.serving
  waits c' ticket := by
    by_cases hc : c' = c
    · rw [hc, State.go_at_self, hwaits]
      exact h.waits c ticket
    · rw [State.go_at_of_ne hc]
      exact h.waits c' ticket
  within c' ticket := by
    by_cases hc : c' = c
    · rw [hc, State.go_at_self, hwithin]
      exact h.within c ticket
    · rw [State.go_at_of_ne hc]
      exact h.within c' ticket
  lock c' := by
    by_cases hc : c' = c
    · rw [hc, State.go_at_self]
      exact hlock
    · rw [State.go_at_of_ne hc]
      exact (h.lock c').trans (hothers c' hc)
  counting c' ticket hdrawn := by
    by_cases hc : c' = c
    · rw [hc, State.go_at_self] at hdrawn
      exact hcounting ticket hdrawn
    · rw [State.go_at_of_ne hc] at hdrawn
      exact h.counting c' ticket hdrawn
  told c' hsleep := by
    by_cases hc : c' = c
    · rw [hc, State.go_at_self] at hsleep
      exact absurd hsleep hasleep
    · rw [State.go_at_of_ne hc] at hsleep
      rcases htold with htelling | hnone
      · obtain ⟨c'', raised, htell⟩ := h.told c' hsleep
        have hne : c'' ≠ c := by
          rintro rfl
          exact htelling raised htell
        exact ⟨c'', raised, by rw [State.go_at_of_ne hne]; exact htell⟩
      · exact absurd hsleep (hnone c')

/-- Notified, nobody sleeps. -/
theorem notifyAll (h : Standing s l) :
    Standing s.notifyAll l ∧ ∀ c ticket, s.notifyAll.at_ c ≠ .asleep ticket := by
  have hawake : ∀ c ticket, s.notifyAll.at_ c ≠ .asleep ticket := by
    intro c ticket
    rw [State.notifyAll_at]
    cases s.at_ c <;> simp [Place.notified]
  refine ⟨⟨h.tickets, h.serving, ?_, ?_, ?_, ?_, fun c hsleep => absurd hsleep (hawake c _)⟩,
    hawake⟩
  · simpa using h.waits
  · simpa using h.within
  · simpa using h.lock
  · intro c ticket hdrawn
    refine h.counting c ticket ?_
    rw [State.notifyAll_at] at hdrawn
    cases hat : s.at_ c <;> rw [hat] at hdrawn <;> first | exact hdrawn | cases hdrawn

variable [DecidableEq C]

/-- A caller that moves without the condition's lock, or with it, changes nothing of the line. -/
theorem keeping (h : Standing s l) (hwaits : p.waits = (s.at_ c).waits)
    (hwithin : p.within = (s.at_ c).within) (hholds : p.holds = (s.at_ c).holds)
    (hcounting : ∀ ticket, p = .drawn ticket → ticket = s.drawn) (hasleep : p ≠ .asleep s.serving)
    (htold : (∀ raised, s.at_ c ≠ .telling raised) ∨ ∀ c', s.at_ c' ≠ .asleep s.serving) :
    Standing (s.go c p) l :=
  h.go s.turn hwaits hwithin (by rw [hholds]; exact h.lock c)
    (fun _ _ => Iff.rfl) hcounting hasleep htold

/-- A caller that lets the condition's lock go changes nothing of the line. -/
theorem letting (h : Standing s l) (hheld : (s.at_ c).holds = true)
    (hwaits : p.waits = (s.at_ c).waits) (hwithin : p.within = (s.at_ c).within)
    (hholds : p.holds = false) (hasleep : p ≠ .asleep s.serving)
    (htold : ∀ raised, s.at_ c ≠ .telling raised) :
    Standing ({ s with turn := none }.go c p) l := by
  have hturn : s.turn = some c := (h.lock c).mp hheld
  refine h.go none hwaits hwithin ?_ ?_ ?_ hasleep (Or.inl htold)
  · rw [hholds]
    simp
  · intro c' hc
    rw [hturn]
    simp [hc.symm]
  · rintro ticket rfl
    cases hholds

/-- A caller that takes the condition's lock changes nothing of the line. -/
theorem taking (h : Standing s l) (hwants : (s.at_ c).wants = some p) (hfree : s.turn = none) :
    Standing ({ s with turn := some c }.go c p) l := by
  obtain ⟨_, hholds, hwaits, hwithin, hne, htold⟩ := Place.wanted hwants
  refine h.go (some c) hwaits hwithin ?_ ?_ ?_ (hne _).2 (Or.inl htold)
  · rw [hholds]
    simp
  · intro c' hc
    rw [hfree]
    simp [hc.symm]
  · exact fun ticket hdrawn => absurd hdrawn (hne ticket).1

/-- A caller that keeps the condition's lock, or keeps without it, leaves it with whom it was. -/
theorem lock_go (h : Standing s l) (hholds : p.holds = (s.at_ c).holds) (c' : C) :
    ((s.go c p).at_ c').holds = true ↔ s.turn = some c' := by
  by_cases hc : c' = c
  · rw [hc, State.go_at_self, hholds]
    exact h.lock c
  · rw [State.go_at_of_ne hc]
    exact h.lock c'

/-- Whoever sleeps on the ticket served while another moves is about to be told still. -/
theorem told_go (h : Standing s l) (hasleep : p ≠ .asleep s.serving)
    (htold : ∀ raised, s.at_ c ≠ .telling raised) (c' : C)
    (hsleep : (s.go c p).at_ c' = .asleep s.serving) :
    ∃ c'' raised, (s.go c p).at_ c'' = .telling raised := by
  by_cases hc : c' = c
  · rw [hc, State.go_at_self] at hsleep
    exact absurd hsleep hasleep
  · rw [State.go_at_of_ne hc] at hsleep
    obtain ⟨c'', raised, htell⟩ := h.told c' hsleep
    have hne : c'' ≠ c := by
      rintro rfl
      exact htold raised htell
    exact ⟨c'', raised, by rw [State.go_at_of_ne hne]; exact htell⟩

/-- A caller that draws a ticket goes last in line. -/
theorem counts (h : Standing s l) {ticket : Nat} (hat : s.at_ c = .drawn ticket) :
    Standing ({ s with drawn := s.drawn + 1 }.go c (.counted ticket))
      { l with line := l.line ++ [(c, ticket)] } where
  tickets := by
    rw [← List.append_assoc, List.map_append, h.tickets, h.counting c ticket hat]
    exact List.range_succ.symm
  serving := h.serving
  waits c' ticket' := by
    have hline : (c, ticket') ∉ l.line := fun hmem => by
      have hwaits := (h.waits c ticket').mpr hmem
      rw [hat] at hwaits
      cases hwaits
    by_cases hc : c' = c
    · rw [hc, State.go_at_self]
      simp [Place.waits, hline, eq_comm]
    · rw [State.go_at_of_ne hc]
      exact (h.waits c' ticket').trans (by simp [hc])
  within c' ticket' := by
    by_cases hc : c' = c
    · have hwithin := h.within c ticket'
      rw [hat] at hwithin
      rw [hc, State.go_at_self]
      exact hwithin
    · rw [State.go_at_of_ne hc]
      exact h.within c' ticket'
  lock := h.lock_go (by rw [hat]; rfl)
  counting c' ticket' hdrawn := by
    by_cases hc : c' = c
    · rw [hc, State.go_at_self] at hdrawn
      cases hdrawn
    · rw [State.go_at_of_ne hc] at hdrawn
      exact absurd (h.counting_alone (by rw [hat]; rfl) hdrawn) hc
  told := h.told_go nofun (by rw [hat]; exact nofun)

/-- A caller whose ticket is served is the first of the line, nobody is in, and it goes in. -/
theorem goesIn (h : Standing s l) {ticket : Nat} (hat : s.at_ c = .checking ticket)
    (hserved : s.serving = ticket) :
    ∃ line, l = ⟨l.gone, none, (c, ticket) :: line⟩ ∧
      Standing (s.go c (.served ticket)) ⟨l.gone, some (c, ticket), line⟩ := by
  have hmem : (c, s.serving) ∈ l.line := (h.waits c s.serving).mp (by rw [hat, hserved]; rfl)
  obtain ⟨hin, line, hline⟩ := h.first hmem
  rw [hserved] at hline
  have hl : l = ⟨l.gone, none, (c, ticket) :: line⟩ := by rw [← hin, ← hline]
  refine ⟨line, hl, ?_⟩
  have hother : ∀ ticket', (c, ticket') ∉ line := by
    intro ticket' hmem'
    have hwaits := (h.waits c ticket').mpr (by rw [hline]; exact List.mem_cons_of_mem _ hmem')
    rw [hat] at hwaits
    cases hwaits
    have hahead := h.ahead
    rw [hin, hline, Option.toList_none, List.nil_append, List.map_cons, List.length_cons,
      List.range'_succ] at hahead
    have hlater : ticket ∈ line.map Prod.snd := List.mem_map_of_mem hmem'
    rw [(List.cons.inj hahead).2, List.mem_range'_1] at hlater
    omega
  exact {
    tickets := by
      have htickets := h.tickets
      rw [hl] at htickets
      simpa using htickets
    serving := h.serving
    waits := fun c' ticket' => by
      by_cases hc : c' = c
      · rw [hc, State.go_at_self]
        simp [Place.waits, hother]
      · rw [State.go_at_of_ne hc, h.waits c' ticket', hline]
        simp [hc]
    within := fun c' ticket' => by
      by_cases hc : c' = c
      · rw [hc, State.go_at_self]
        simp [Place.within]
      · rw [State.go_at_of_ne hc, h.within c' ticket', hin]
        simp [Ne.symm hc]
    lock := h.lock_go (by rw [hat]; rfl)
    counting := fun c' ticket' hdrawn => by
      by_cases hc : c' = c
      · rw [hc, State.go_at_self] at hdrawn
        cases hdrawn
      · rw [State.go_at_of_ne hc] at hdrawn
        exact h.counting c' ticket' hdrawn
    told := h.told_go nofun (by rw [hat]; exact nofun) }

/-- A caller that serves the next ticket is the one that is in, and comes out. -/
theorem comesOut (h : Standing s l) {ticket : Nat} {raised : Bool}
    (hat : s.at_ c = .advancing ticket raised) :
    l = ⟨l.gone, some (c, ticket), l.line⟩ ∧
      Standing ({ s with serving := s.serving + 1 }.go c (.telling raised))
        ⟨l.gone ++ [(c, ticket)], none, l.line⟩ := by
  have hin : l.inside = some (c, ticket) := (h.within c ticket).mp (by rw [hat]; rfl)
  refine ⟨by rw [← hin], ?_⟩
  exact {
    tickets := by
      have htickets := h.tickets
      rw [hin] at htickets
      simpa using htickets
    serving := by
      rw [List.length_append, h.serving]
      rfl
    waits := fun c' ticket' => by
      by_cases hc : c' = c
      · have hwaits := h.waits c ticket'
        rw [hat] at hwaits
        rw [hc, State.go_at_self]
        exact hwaits
      · rw [State.go_at_of_ne hc]
        exact h.waits c' ticket'
    within := fun c' ticket' => by
      by_cases hc : c' = c
      · rw [hc, State.go_at_self]
        simp [Place.within]
      · rw [State.go_at_of_ne hc, h.within c' ticket', hin]
        simp [Ne.symm hc]
    lock := h.lock_go (by rw [hat]; rfl)
    counting := fun c' ticket' hdrawn => by
      by_cases hc : c' = c
      · rw [hc, State.go_at_self] at hdrawn
        cases hdrawn
      · rw [State.go_at_of_ne hc] at hdrawn
        exact h.counting c' ticket' hdrawn
    told := fun _ _ => ⟨c, raised, State.go_at_self⟩ }

/-- Every step of the lock is a step of the line it stands for, or changes nothing of it. -/
theorem step {s' : State C} {e : Option (Event (C × Nat))} (h : Standing s l)
    (hstep : Step s e s') :
    ∃ l', l.Follows e l' ∧ Standing s' l' := by
  cases hstep with
  | reads hat | answers hat | comes hat | asks count hat | stirs hat =>
      exact ⟨l, rfl, h.keeping (by rw [hat]; rfl) (by rw [hat]; rfl) (by rw [hat]; rfl) nofun nofun
        (Or.inl (by rw [hat]; exact nofun))⟩
  | acquires hwants hfree => exact ⟨l, rfl, h.taking hwants hfree⟩
  | draws hat =>
      refine ⟨l, rfl, h.keeping (by rw [hat]; rfl) (by rw [hat]; rfl) (by rw [hat]; rfl) ?_ nofun
        (Or.inl (by rw [hat]; exact nofun))⟩
      exact fun ticket hticket => (Place.drawn.inj hticket).symm
  | counts hat => exact ⟨_, .came _, h.counts hat⟩
  | tells hat | tellsAll hat =>
      obtain ⟨hnotified, hawake⟩ := h.notifyAll
      refine ⟨l, rfl, hnotified.keeping ?_ ?_ ?_ nofun nofun (Or.inr fun c' => hawake c' _)⟩ <;>
        rw [State.notifyAll_at, hat] <;> rfl
  | waits hat hserving =>
      refine ⟨l, rfl, h.letting (by rw [hat]; rfl) (by rw [hat]; rfl) (by rw [hat]; rfl) rfl ?_
        (by rw [hat]; exact nofun)⟩
      exact fun hasleep => hserving (Place.asleep.inj hasleep).symm
  | goesIn hat hserved =>
      obtain ⟨line, hl, hin⟩ := h.goesIn hat hserved
      rw [hl]
      exact ⟨_, .wentIn, hin⟩
  | ends raised hat =>
      exact ⟨l, rfl, h.keeping (by rw [hat]; rfl) (by rw [hat]; rfl) (by rw [hat]; rfl) nofun nofun
        (Or.inl (by rw [hat]; exact nofun))⟩
  | advances hat =>
      obtain ⟨hl, hout⟩ := h.comesOut hat
      rw [hl]
      exact ⟨_, .cameOut, hout⟩
  | enters hat | leaves hat | finds hat _ | givesUp hat _ | dozes hat _ =>
      exact ⟨l, rfl, h.letting (by rw [hat]; rfl) (by rw [hat]; rfl) (by rw [hat]; rfl) rfl nofun
        (by rw [hat]; exact nofun)⟩

/-- A step at which nothing happens keeps the line. -/
theorem silent {s' : State C} (h : Standing s l) (hstep : Step s none s') : Standing s' l := by
  obtain ⟨_, rfl, h'⟩ := h.step hstep
  exact h'

end Standing

/-- A run of the lock is a run of a line, which its last state stands for. -/
theorem Reached.ran [DecidableEq C] {s : State C} {events : List (Event (C × Nat))}
    (h : Reached events s) :
    ∃ l, Ran events l ∧ Standing s l := by
  induction h with
  | refl => exact ⟨{}, .start, standing_start⟩
  | step _ hstep ih =>
      obtain ⟨l, hran, hstanding⟩ := ih
      obtain ⟨l', hfollows, hstanding'⟩ := hstanding.step hstep
      exact ⟨l', hran.follows hfollows, hstanding'⟩

/-! ## Whoever may go in next -/

namespace Runs

variable [DecidableEq C] {s s' s'' : State C} {events events' : List (Event (C × Nat))}

theorem trans (h : Runs s events s') (h' : Runs s' events' s'') :
    Runs s (events ++ events') s'' := by
  induction h' with
  | refl => rwa [List.append_nil]
  | step _ hstep ih =>
      rw [← List.append_assoc]
      exact .step ih hstep

theorem single {e : Option (Event (C × Nat))} (h : Step s e s') :
    Runs s e.toList s' := .step .refl h

end Runs

namespace State

variable [DecidableEq C] {s s' : State C} {c : C}

/-- Whoever may go in next after a step by which nobody goes in, may before it. -/
theorem MayGoIn.before {e : Option (Event (C × Nat))} (hstep : Step s e s')
    (hquiet : wentIn e.toList = []) (h : s'.MayGoIn c) : s.MayGoIn c := by
  obtain ⟨later, s₁, ticket, s₂, hlater, hnone, hin⟩ := h
  refine ⟨_, s₁, ticket, s₂, (Runs.single hstep).trans hlater, ?_, hin⟩
  rw [wentIn_append, hquiet, hnone]
  rfl

/-- A caller whose ticket is served may go in next, about to ask whether it is, -/
theorem mayGoIn_checking (hat : s.at_ c = .checking s.serving) : s.MayGoIn c :=
  ⟨[], s, s.serving, _, .refl, rfl, .goesIn hat rfl⟩

/-- or about to notify all that it came, -/
theorem mayGoIn_counted (hat : s.at_ c = .counted s.serving) : s.MayGoIn c :=
  .before (.tells hat) rfl (mayGoIn_checking go_at_self)

/-- or woken while the condition's lock is free. -/
theorem mayGoIn_woken (hat : s.at_ c = .woken s.serving) (hfree : s.turn = none) : s.MayGoIn c :=
  .before (.acquires (by rw [hat]; rfl) hfree) rfl (mayGoIn_checking go_at_self)

end State

namespace Standing

variable [DecidableEq C] {s : State C} {l : Line (C × Nat)} {c : C}

/-- While the condition's lock is free, the first of the line is awake, and may go in next. -/
theorem mayGoIn_free (h : Standing s l) (hline : l.line.head? = some (c, s.serving))
    (hfree : s.turn = none) : s.MayGoIn c := by
  have hnone : ∀ c', (s.at_ c').holds = false := by
    intro c'
    cases hholds : (s.at_ c').holds with
    | false => rfl
    | true =>
        rw [(h.lock c').mp hholds] at hfree
        cases hfree
  rcases h.first_waits hline with hat | hat | hat | hat
  · exact State.mayGoIn_counted hat
  · exact State.mayGoIn_checking hat
  · -- nobody is about to tell it, since whoever is holds the condition's lock
    obtain ⟨c', raised, htell⟩ := h.told c hat
    have hholds := hnone c'
    rw [htell] at hholds
    cases hholds
  · exact State.mayGoIn_woken hat hfree

/-- While another holds the condition's lock, it lets it go before anybody goes in, so the first of
the line may go in next. -/
theorem mayGoIn_held {left : Nat} : ∀ {s : State C} {l : Line (C × Nat)} {c' : C}, Standing s l →
    l.inside = none →
    l.line.head? = some (c, s.serving) → s.turn = some c' → c' ≠ c → (s.at_ c').left ≤ left →
    s.MayGoIn c := by
  induction left with
  | zero =>
      intro s l c' h hin hline hturn hne hleft
      exact absurd hleft
        (Nat.not_le.mpr (Place.left_pos ((h.lock c').mpr hturn) (h.within_none hin c')))
  | succ left ih =>
      intro s l c' h hin hline hturn hne hleft
      have hheld := (h.lock c').mpr hturn
      have hout := h.within_none hin c'
      have hfree : ∀ {s' : State C}, Step s none s' → s'.turn = none → s'.serving = s.serving →
          s.MayGoIn c := by
        intro s' hstep hturn' hserving
        exact .before hstep rfl ((h.silent hstep).mayGoIn_free (hserving ▸ hline) hturn')
      have hgoes : ∀ {s' : State C}, Step s none s' → s'.turn = s.turn → s'.serving = s.serving →
          (s'.at_ c').left ≤ left → s.MayGoIn c := by
        intro s' hstep hturn' hserving hleft'
        exact .before hstep rfl
          (ih (h.silent hstep) hin (hserving ▸ hline) (hturn'.trans hturn) hne hleft')
      cases hat : s.at_ c' with
      | drawing =>
          rw [hat] at hleft
          exact hgoes (.draws hat) rfl rfl
            (by rw [State.go_at_self]; exact Nat.le_of_succ_le_succ hleft)
      | drawn ticket =>
          rw [hat] at hleft
          have hline' : (l.line ++ [(c', ticket)]).head? = some (c, s.serving) := by
            rw [List.head?_append, hline]
            rfl
          refine .before (.counts hat) rfl (ih (h.counts hat) hin hline' hturn hne ?_)
          rw [State.go_at_self]
          exact Nat.le_of_succ_le_succ hleft
      | counted ticket =>
          rw [hat] at hleft
          exact hgoes (.tells hat) rfl rfl
            (by rw [State.go_at_self]; exact Nat.le_of_succ_le_succ hleft)
      | checking ticket =>
          refine hfree (.waits hat ?_) rfl rfl
          -- the ticket served is the first's, who is another
          rintro rfl
          obtain ⟨_, line, hl⟩ := h.first ((h.waits c' s.serving).mp (by rw [hat]; rfl))
          rw [hl] at hline
          exact hne (Prod.ext_iff.mp (Option.some.inj hline)).1
      | telling raised =>
          rw [hat] at hleft
          exact hgoes (.tellsAll hat) rfl rfl
            (by rw [State.go_at_self]; exact Nat.le_of_succ_le_succ hleft)
      | closing raised => exact hfree (.leaves hat) rfl rfl
      | looking count =>
          rcases Nat.lt_or_ge s.drawn count with hlt | hle
          · exact hfree (.givesUp hat hlt) rfl rfl
          · exact hfree (.finds hat hle) rfl rfl
      | served ticket | advancing ticket raised =>
          rw [hat] at hout
          cases hout
      | away | reading | arriving | asleep ticket | woken ticket | inside ticket
      | leaving ticket raised | asking count
        | dozing count | stirred count =>
          rw [hat] at hheld
          cases hheld

/-- The first of the line may go in next, while nobody is in. -/
theorem mayGoIn (h : Standing s l) (hin : l.inside = none)
    (hline : l.line.head? = some (c, s.serving)) : s.MayGoIn c := by
  cases hturn : s.turn with
  | none => exact h.mayGoIn_free hline hturn
  | some c' =>
      by_cases hc : c' = c
      · have hheld := (h.lock c).mpr (hc ▸ hturn)
        rcases h.first_waits hline with hat | hat | hat | hat
        · exact State.mayGoIn_counted hat
        · exact State.mayGoIn_checking hat
        · rw [hat] at hheld
          cases hheld
        · rw [hat] at hheld
          cases hheld
      · exact mayGoIn_held h hin hline hturn hc (Nat.le_refl _)

end Standing

/-! ## In order, one at a time -/

theorem range_of_initial {tickets : List Nat} {n : Nat} (h : tickets <+: List.range n) :
    tickets = List.range tickets.length := by
  have hlength : tickets.length ≤ n := by simpa using h.length_le
  conv_lhs => rw [List.prefix_iff_eq_take.mp h]
  rw [List.take_range, Nat.min_eq_left hlength]

/-- In every state reached of the lock, by any number of callers in any order: at most one caller is
inside; callers went in in the order they drew their tickets; the tickets drawn are the numbers in
their order, and those that went in and came out had the first of them, so none is drawn twice or
passed over; and while nobody is inside and a ticket is drawn and not served, one waiting caller,
and no other, may go in next. -/
theorem in_order_one_at_a_time [DecidableEq C] {events : List (Event (C × Nat))} {s : State C}
    (h : Reached events s) :
    (∀ c c', s.Inside c → s.Inside c' → c = c') ∧
    wentIn events <+: came events ∧
    (came events).map Prod.snd = List.range s.drawn ∧ (cameOut events).map Prod.snd =
      List.range s.serving ∧
    (wentIn events).map Prod.snd = List.range (wentIn events).length ∧
    ((∀ c, ¬ s.Inside c) → (∃ c, s.Waiting c) ∨ s.serving < s.drawn → ∃! c, s.Waiting c ∧
      s.MayGoIn c) := by
  obtain ⟨l, hran, hstanding⟩ := h.ran
  have hcame : (came events).map Prod.snd = List.range s.drawn := by
    rw [hran.came_eq]
    exact hstanding.tickets
  have hout : cameOut events <+: came events := by
    rw [hran.cameOut_eq, hran.came_eq, List.append_assoc]
    exact List.prefix_append _ _
  refine ⟨?_, hran.in_order, hcame, ?_, ?_, ?_⟩
  · intro c c' hc hc'
    obtain ⟨ticket, hticket⟩ := Option.isSome_iff_exists.mp hc
    obtain ⟨ticket', hticket'⟩ := Option.isSome_iff_exists.mp hc'
    have hsame :=
      ((hstanding.within c ticket).mp hticket).symm.trans
      ((hstanding.within c' ticket').mp hticket')
    exact (Prod.ext_iff.mp (Option.some.inj hsame)).1
  · have hfirst := hout.map Prod.snd
    rw [hcame] at hfirst
    rw [range_of_initial hfirst, List.length_map, hran.cameOut_eq, hstanding.serving]
  · have hfirst := hran.in_order.map Prod.snd
    rw [hcame] at hfirst
    rw [range_of_initial hfirst, List.length_map]
  · intro hnobody hsomebody
    have hin : l.inside = none := by
      cases hin : l.inside with
      | none => rfl
      | some a =>
          refine absurd ?_ (hnobody a.1)
          rw [State.Inside, (hstanding.within a.1 a.2).mpr hin]
          rfl
    have hline : l.line ≠ [] := by
      rcases hsomebody with ⟨c, hc⟩ | hlt
      · obtain ⟨ticket, hticket⟩ := Option.isSome_iff_exists.mp hc
        exact List.ne_nil_of_mem ((hstanding.waits c ticket).mp hticket)
      · rintro hnil
        have hcount := congrArg List.length hstanding.tickets
        rw [hin, hnil, Option.toList_none, List.append_nil, List.append_nil, List.length_map,
          List.length_range, hstanding.serving] at hcount
        omega
    obtain ⟨⟨c, ticket⟩, line, hl⟩ := List.exists_cons_of_ne_nil hline
    have hhead : l.line.head? = some (c, ticket) := by rw [hl, List.head?_cons]
    have hserved := hstanding.line_ticket hin hhead
    refine ⟨c, ⟨?_, hstanding.mayGoIn hin (hserved ▸ hhead)⟩, ?_⟩
    · rw [State.Waiting, (hstanding.waits c ticket).mpr (List.mem_of_head? hhead)]
      rfl
    · rintro c' ⟨_, later, s', ticket', s'', hlater, hquiet, hnext⟩
      obtain ⟨l', hran', _⟩ := Reached.ran ((h.trans hlater).step hnext)
      have hhead' := hran.next_of_line hin hline hran' hquiet
      exact (Prod.ext_iff.mp (Option.some.inj (hhead'.symm.trans hhead))).1

/-! ## Two callers, the second arriving while the first is inside -/

/-- The first goes in and the second draws its ticket and sleeps; the first ends, by an exception,
and comes out. -/
theorem reached_passed_on : ∃ events, ∃ s :
    State Bool, Reached events s ∧ (∀ c, (s.at_ c).within = none) ∧
    (s.at_ false).waits = none ∧ (s.at_ true).waits = some 1 := by
  have hfirst :=
    (((((((Runs.refl (s := {})).step (.comes (c := false) rfl)).step
    (.acquires (c := false) rfl rfl)).step
    (.draws (c := false) rfl)).step (.counts (c := false) rfl)).step (.tells (c := false) rfl)).step
    (.goesIn (c := false) rfl rfl)).step (.enters (c := false) rfl)
  have hsecond :=
    (((((hfirst.step (.comes (c := true) rfl)).step (.acquires (c := true) rfl rfl)).step
    (.draws (c := true) rfl)).step (.counts (c := true) rfl)).step (.tells (c := true) rfl)).step
    (.waits (c := true) rfl (by decide))
  have hout :=
    ((((hsecond.step (.ends (c := false) true rfl)).step (.acquires (c := false) rfl rfl)).step
    (.advances (c := false) rfl)).step (.tellsAll (c := false) rfl)).step (.leaves (c := false) rfl)
  exact ⟨_, _, hout, by decide, rfl, rfl⟩

/-- The second is then the one that may go in next. -/
theorem in_order_second : ∃ events, ∃ s : State Bool, Reached events s ∧ s.MayGoIn true := by
  obtain ⟨events, s, hreached, hnone, hfirst, hsecond⟩ := reached_passed_on
  obtain ⟨_, _, _, _, _, hnext⟩ := in_order_one_at_a_time hreached
  have hnobody : ∀ c, ¬ s.Inside c := by
    intro c hc
    rw [State.Inside, hnone] at hc
    cases hc
  obtain ⟨c, ⟨hwaiting, hmay⟩, _⟩ :=
    hnext hnobody (Or.inl ⟨true, by rw [State.Waiting, hsecond]; rfl⟩)
  cases c with
  | false =>
      rw [State.Waiting, hfirst] at hwaiting
      cases hwaiting
  | true => exact ⟨events, s, hreached, hmay⟩

end Kb.Turn
