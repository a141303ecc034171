/-
# `Kb.Owned` — a store a server owns, and the changes asked of it directly

`served.py`: the lock a server holds on a file of the store's for as long as it serves, and the look
at it that a change asked of the store directly takes first; `server.py`: the life of a server, from
the lock taken to the lock let go.  Any number of servers are started on a store, any number of
calls are hosted by each and any number of changes asked directly; all move one statement at a time,
in any order, and a process may end at any of them.

The lock is the system's: held by one alone, or shared by those that share it, and gone with the
process that holds it.  Whoever asks for it when it cannot have it is told so at once, and reads
whom the file names.

A direct change lets the lock go before it opens the store, so what it found may be over by the time
it lands.  What the lock does say (`one_owner`, `served_in_order`): servers own the store one at a
time; no direct change is let through while one does, so those let through before are the only ones
that still land; and once they have ended, what lands is what the server's calls land, each alone
with the store from when it goes in to when it comes out, in the order they came.
-/
import Kb.Turn
import Kb.Stamps

namespace Kb.Owned

open Turnstile Turn

/-- Where a start of a server stands. -/
inductive Serving (A : Type) where
  /-- about to open the lock's file -/
  | opening
  /-- about to ask for the lock, alone -/
  | asking
  /-- told it cannot have the lock, about to read whom the file names -/
  | blocked
  /-- refused, with whom the file named, or failed at a file that names nobody -/
  | refused (named : Option A)
  /-- the lock's holder, about to bind -/
  | owning
  /-- bound at an address, about to empty the lock's file -/
  | bound (address : A)
  /-- about to write the address there -/
  | emptied (address : A)
  /-- answering calls -/
  | serving (address : A)
  /-- answering no more, the calls in flight finishing -/
  | stopping (address : A)
  /-- ended, the lock let go if it was held -/
  | gone
deriving DecidableEq

/-- Where a change asked of the store directly stands. -/
inductive Asking (A : Type) where
  /-- in no call -/
  | away
  /-- about to open the lock's file -/
  | opening
  /-- about to ask to share the lock -/
  | asking
  /-- sharing the lock, about to let it go -/
  | sharing
  /-- told it cannot share the lock, about to read whom the file names -/
  | blocked
  /-- refused, with whom the file named, or failed at a file that names nobody -/
  | refused (named : Option A)
  /-- let through: over the store, drafting what it lands -/
  | passed
deriving DecidableEq

namespace Serving

variable {A : Type}

/-- Whether a start of a server holds the lock. -/
def owns : Serving A → Bool
  | owning | bound _ | emptied _ | serving _ | stopping _ => true
  | _ => false

/-- The address a server answers at, calls coming in or in flight. -/
def answers : Serving A → Option A
  | serving address | stopping address => some address
  | _ => none

theorem owns_of_answers {p : Serving A} {a : A} (h : p.answers = some a) : p.owns = true := by
  cases p <;> first | rfl | nomatch h

end Serving

/-- Who landed a set: a call hosted by a server, by its ticket, or a direct change. -/
inductive Lander (S C D : Type) where
  | hosted (s : S) (c : C) (ticket : Nat)
  | direct (d : D)
deriving DecidableEq

/-- A store's lock and its file, if it was ever made and whom it names, if anybody; where every
server, call and direct change stands; and the stores held so far, newest first, with who landed
what, the first first. -/
structure World (S C D A T : Type) where
  file : Option (Option A)
  servers : S → Serving A
  turns : S → Turn.State C
  callers : D → Asking A
  held : List T
  landed : List (Lander S C D)

variable {S C D A T : Type}

namespace World

/-- A store, with whatever an earlier server left in the lock's file, before anything is started or
asked. -/
def started (file : Option (Option A)) (t : T) : World S C D A T :=
  ⟨file, fun _ => .opening, fun _ => {}, fun _ => .away, [t], []⟩

/-- `_named`: whom the lock's file names. -/
def named (w : World S C D A T) : Option A := w.file.getD none

def Owns (w : World S C D A T) (s : S) : Prop := (w.servers s).owns = true

/-- Nobody holds the lock alone. -/
def Unowned (w : World S C D A T) : Prop := ∀ s, ¬ w.Owns s

/-- Nobody holds the lock. -/
def Free (w : World S C D A T) : Prop := w.Unowned ∧ ∀ d, w.callers d ≠ .sharing

/-- A start of a server moved. -/
def server [DecidableEq S] (w : World S C D A T) (s : S) (p : Serving A) : World S C D A T :=
  { w with servers := Function.update w.servers s p }

/-- A direct change moved. -/
def caller [DecidableEq D] (w : World S C D A T) (d : D) (p : Asking A) : World S C D A T :=
  { w with callers := Function.update w.callers d p }

/-- A server's calls moved. -/
def turned [DecidableEq S] (w : World S C D A T) (s : S) (turn : Turn.State C) : World S C D A T :=
  { w with turns := Function.update w.turns s turn }

/-- A set landed. -/
def lands (w : World S C D A T) (t : T) (by_ : Lander S C D) : World S C D A T :=
  { w with held := t :: w.held, landed := w.landed ++ [by_] }

end World

/-- One statement of one server, call or direct change, over a store whose sets land as `moves`
says. -/
inductive Step [DecidableEq S] [DecidableEq C] [DecidableEq D] (moves : T → List T → T → Prop) :
    World S C D A T → World S C D A T → Prop
  -- `owned`: the lock's file opened, made if there is none, and the lock asked for
  | opens {w : World S C D A T} {s : S} : w.servers s = .opening →
      Step moves w ({ w with file := some w.named }.server s .asking)
  | owns {w : World S C D A T} {s : S} : w.servers s = .asking → w.Free →
      Step moves w (w.server s .owning)
  | blocks {w : World S C D A T} {s : S} : w.servers s = .asking → ¬ w.Free →
      Step moves w (w.server s .blocked)
  | refuses {w : World S C D A T} {s : S} : w.servers s = .blocked →
      Step moves w (w.server s (.refused w.named))
  -- the server's start, its file made to name its address (`mark`), and its stop, once every call
  -- came out
  | binds {w : World S C D A T} {s : S} (a : A) : w.servers s = .owning →
      Step moves w (w.server s (.bound a))
  | empties {w : World S C D A T} {s : S} {a : A} : w.servers s = .bound a →
      Step moves w ({ w with file := some none }.server s (.emptied a))
  | marks {w : World S C D A T} {s : S} {a : A} : w.servers s = .emptied a →
      Step moves w ({ w with file := some (some a) }.server s (.serving a))
  | stops {w : World S C D A T} {s : S} {a : A} : w.servers s = .serving a →
      Step moves w (w.server s (.stopping a))
  | closes {w : World S C D A T} {s : S} {a : A} : w.servers s = .stopping a →
      (∀ c, (w.turns s).at_ c = .away) →
      Step moves w (w.server s .gone)
  -- a start that fails partway lets the lock go, and so does a process that ends
  | dies {w : World S C D A T} {s : S} : Step moves w (w.server s .gone)
  -- a call hosted, whatever came before the stop still taken in turn
  | takes {w : World S C D A T} {s : S} {a : A} {e : Option (Event (C × Nat))}
      {turn : Turn.State C} :
      (w.servers s).answers = some a → Turn.Step (w.turns s) e turn → Step moves w (w.turned s turn)
  | hosted {w : World S C D A T} {s : S} {a : A} {c : C} {ticket : Nat} {t t' : T} {past : List T} :
      (w.servers s).answers = some a → (w.turns s).at_ c = .inside ticket → w.held = t :: past →
        moves t past t' →
      Step moves w (w.lands t' (.hosted s c ticket))
  -- `unserved`: no file, or the lock shared for a moment, or a server's
  | asks {w : World S C D A T} {d : D} : w.callers d = .away → Step moves w (w.caller d .opening)
  | missing {w : World S C D A T} {d : D} : w.callers d = .opening → w.file = none →
      Step moves w (w.caller d .passed)
  | finds {w : World S C D A T} {d : D} : w.callers d = .opening → w.file ≠ none →
      Step moves w (w.caller d .asking)
  | shares {w : World S C D A T} {d : D} : w.callers d = .asking → w.Unowned →
      Step moves w (w.caller d .sharing)
  | meets {w : World S C D A T} {d : D} : w.callers d = .asking → ¬ w.Unowned →
      Step moves w (w.caller d .blocked)
  | passes {w : World S C D A T} {d : D} : w.callers d = .sharing →
      Step moves w (w.caller d .passed)
  | told {w : World S C D A T} {d : D} : w.callers d = .blocked →
      Step moves w (w.caller d (.refused w.named))
  | direct {w : World S C D A T} {d : D} {t t' : T} {past : List T} : w.callers d = .passed →
      w.held = t :: past →
      moves t past t' → Step moves w (w.lands t' (.direct d))
  -- answered, refused or killed
  | ends {w : World S C D A T} {d : D} : Step moves w (w.caller d .away)

/-- The worlds reached from a store whose start is one of some. -/
inductive Reached [DecidableEq S] [DecidableEq C] [DecidableEq D] (start : T → Prop)
    (moves : T → List T → T → Prop) :
    World S C D A T → Prop
  | started {file : Option (Option A)} {t : T} : start t → Reached start moves (.started file t)
  | step {w w' : World S C D A T} : Reached start moves w → Step moves w w' → Reached start moves w'

/-! ## What every world has -/

/-- One server owns the store, and then nobody shares the lock; whoever opened the lock's file left
one there; a server that answers is the one it names; and the calls of every server stand in a
line. -/
structure Kept (w : World S C D A T) : Prop where
  alone : ∀ s s', w.Owns s → w.Owns s' → s = s'
  unshared : ∀ s d, w.Owns s → w.callers d ≠ .sharing
  made : ∀ s, w.Owns s ∨ w.servers s = .asking → w.file.isSome = true
  marked : ∀ s a, (w.servers s).answers = some a → w.file = some (some a)
  lines : ∀ s, ∃ l, Standing (w.turns s) l

namespace World

section

variable {w : World S C D A T} {s s' : S} {d d' : D} {p : Serving A} {q : Asking A}

@[simp] theorem server_servers_self [DecidableEq S] : (w.server s p).servers s = p :=
  Function.update_self ..
@[simp] theorem server_servers_ne [DecidableEq S] (h : s' ≠ s) :
    (w.server s p).servers s' = w.servers s' := Function.update_of_ne h ..
@[simp] theorem caller_callers_self [DecidableEq D] : (w.caller d q).callers d = q :=
  Function.update_self ..
@[simp] theorem caller_callers_ne [DecidableEq D] (h : d' ≠ d) :
    (w.caller d q).callers d' = w.callers d' := Function.update_of_ne h ..

end

end World

theorem Kept.started (file : Option (Option A)) (t : T) :
    Kept (World.started (S := S) (C := C) (D := D) file t) where
  alone _ _ h := absurd h Bool.false_ne_true
  unshared _ _ h := absurd h Bool.false_ne_true
  made s h := by
    rcases h with h | h
    · exact absurd h Bool.false_ne_true
    · cases h
  marked _ _ h := by cases h
  lines _ := ⟨{}, standing_start⟩

namespace Kept

variable {w : World S C D A T}

/-- A start of a server that moved, and what it left in the lock's file: it holds the lock if it
held it or the lock was free, and writes the file only while it holds it. -/
theorem server [DecidableEq S] (h : Kept w) {s : S} {p : Serving A} {file : Option (Option A)}
    (howns : p.owns = true → w.Owns s ∨ w.Free)
    (hmade : p.owns = true ∨ p = .asking → file.isSome = true)
    (hstays : w.file.isSome = true → file.isSome = true)
    (hmarked : ∀ a, p.answers = some a → file = some (some a))
    (hfile : w.Owns s ∨ ∀ a, w.file = some (some a) → file = some (some a)) :
    Kept ({ w with file := file }.server s p) := by
  have hother : ∀ s', s' ≠ s → ({ w with file := file }.server s p).servers s' = w.servers s' :=
      fun s' hs =>
    World.server_servers_ne hs
  have hself : ({ w with file := file }.server s p).servers s = p := World.server_servers_self
  have hfrom : ∀ s', s' ≠ s → p.owns = true → ¬ w.Owns s' := by
    intro s' hs hp hs'
    rcases howns hp with hold | hfree
    · exact hs (h.alone s' s hs' hold)
    · exact hfree.1 s' hs'
  refine ⟨?_, ?_, ?_, ?_, h.lines⟩
  · intro s₁ s₂ h₁ h₂
    unfold World.Owns at h₁ h₂
    by_cases hs₁ : s₁ = s
    · by_cases hs₂ : s₂ = s
      · rw [hs₁, hs₂]
      · rw [hs₁, hself] at h₁
        rw [hother s₂ hs₂] at h₂
        exact absurd h₂ (hfrom s₂ hs₂ h₁)
    · rw [hother s₁ hs₁] at h₁
      by_cases hs₂ : s₂ = s
      · rw [hs₂, hself] at h₂
        exact absurd h₁ (hfrom s₁ hs₁ h₂)
      · rw [hother s₂ hs₂] at h₂
        exact h.alone s₁ s₂ h₁ h₂
  · intro s' d hs'
    show w.callers d ≠ .sharing
    unfold World.Owns at hs'
    by_cases hs : s' = s
    · rw [hs, hself] at hs'
      rcases howns hs' with hold | hfree
      · exact h.unshared s d hold
      · exact hfree.2 d
    · rw [hother s' hs] at hs'
      exact h.unshared s' d hs'
  · intro s' hs'
    show file.isSome = true
    unfold World.Owns at hs'
    by_cases hs : s' = s
    · rw [hs, hself] at hs'
      exact hmade hs'
    · rw [hother s' hs] at hs'
      exact hstays (h.made s' hs')
  · intro s' a hs'
    show file = some (some a)
    by_cases hs : s' = s
    · rw [hs, hself] at hs'
      exact hmarked a hs'
    · rw [hother s' hs] at hs'
      rcases hfile with hold | hkeeps
      · exact absurd (h.alone s' s (Serving.owns_of_answers hs') hold) hs
      · exact hkeeps a (h.marked s' a hs')

/-- A start of a server that moved with the lock it had, or without, and left the lock's file as it
was. -/
theorem moved [DecidableEq S] (h : Kept w) {s : S} {p : Serving A}
    (howns : p.owns = true → w.Owns s ∨ w.servers s = .asking ∧ w.Free) (hasking : p ≠ .asking)
    (hanswers : ∀ a, p.answers = some a → (w.servers s).answers = some a) :
    Kept (w.server s p) := by
  refine h.server (fun hp => (howns hp).imp_right And.right) ?_ id
    (fun a ha => h.marked s a (hanswers a ha)) (Or.inr fun _ => id)
  rintro (hp | hp)
  · rcases howns hp with hold | ⟨hasked, _⟩
    · exact h.made s (Or.inl hold)
    · exact h.made s (Or.inr hasked)
  · exact absurd hp hasking

/-- A direct change that moved shares the lock only where no server owns the store. -/
theorem caller [DecidableEq D] (h : Kept w) {d : D} {q : Asking A}
    (hshares : q = .sharing → w.Unowned) : Kept (w.caller d q) where
  alone := h.alone
  unshared s d' hs hsharing := by
    by_cases hd : d' = d
    · rw [hd, World.caller_callers_self] at hsharing
      exact hshares hsharing s hs
    · rw [World.caller_callers_ne hd] at hsharing
      exact h.unshared s d' hs hsharing
  made := h.made
  marked := h.marked
  lines := h.lines

theorem turned [DecidableEq S] [DecidableEq C] (h : Kept w) {s : S} {e : Option (Event (C × Nat))}
    {turn : Turn.State C} (hstep : Turn.Step (w.turns s) e turn) : Kept (w.turned s turn) where
  alone := h.alone
  unshared := h.unshared
  made := h.made
  marked := h.marked
  lines s' := by
    by_cases hs : s' = s
    · obtain ⟨l, hl⟩ := h.lines s
      obtain ⟨l', _, hl'⟩ := hl.step hstep
      rw [hs]
      exact ⟨l', by simpa [World.turned] using hl'⟩
    · obtain ⟨l, hl⟩ := h.lines s'
      exact ⟨l, by simpa [World.turned, Function.update_of_ne hs] using hl⟩

theorem landed (h : Kept w) (t : T) (by_ : Lander S C D) : Kept (w.lands t by_) :=
  ⟨h.alone, h.unshared, h.made, h.marked, h.lines⟩

/-- The call that is in holds the ticket served, and is the only one. -/
theorem inside (h : Kept w) {s : S} {c : C} {ticket : Nat}
    (hin : ((w.turns s).at_ c).within = some ticket) :
    ticket = (w.turns s).serving ∧ ∀ c', ((w.turns s).at_ c').within = some ticket → c = c' := by
  obtain ⟨l, hl⟩ := h.lines s
  have hinside := (hl.within c ticket).mp hin
  refine ⟨hl.inside_ticket hinside, fun c' hin' => ?_⟩
  have hinside' := (hl.within c' ticket).mp hin'
  rw [hinside] at hinside'
  exact (Prod.ext_iff.mp (Option.some.inj hinside')).1

/-- A call that is in while a server owns the store is one of that server's. -/
theorem hosted (h : Kept w) {s s' : S} {c : C} {ticket : Nat} (howns : w.Owns s)
    (howns' : w.Owns s') (hin : (w.turns s').at_ c = .inside ticket) :
    s' = s ∧ ticket = (w.turns s).serving ∧ ∀ c', ((w.turns s).at_ c').within = some ticket →
      c = c' := by
  obtain rfl := h.alone s' s howns' howns
  have hwithin : ((w.turns s').at_ c).within = some ticket := by rw [hin]; rfl
  exact ⟨rfl, h.inside hwithin⟩

variable [DecidableEq S] [DecidableEq C] [DecidableEq D] {moves : T → List T → T → Prop}
  {w' : World S C D A T}

theorem step (h : Kept w) (hstep : Step moves w w') : Kept w' := by
  cases hstep with
  | @opens s hat =>
      refine h.server nofun (fun _ => rfl) (fun _ => rfl) nofun (Or.inr fun a ha => ?_)
      simp [World.named, ha]
  | owns hat hfree => exact h.moved (fun _ => Or.inr ⟨hat, hfree⟩) nofun nofun
  | blocks hat _ | refuses hat | dies => exact h.moved nofun nofun nofun
  | binds a hat => exact h.moved (fun _ => Or.inl (by rw [World.Owns, hat]; rfl)) nofun nofun
  | stops hat =>
      refine h.moved (fun _ => Or.inl (by rw [World.Owns, hat]; rfl)) nofun fun a ha => ?_
      rw [hat]
      exact ha
  | closes hat _ => exact h.moved nofun nofun nofun
  | @empties s _ hat =>
      have hold : w.Owns s := by rw [World.Owns, hat]; rfl
      exact h.server (fun _ => Or.inl hold) (fun _ => rfl) (fun _ => rfl) nofun (Or.inl hold)
  | @marks s _ hat =>
      have hold : w.Owns s := by rw [World.Owns, hat]; rfl
      exact h.server (fun _ => Or.inl hold) (fun _ => rfl) (fun _ => rfl)
        (fun _ ha => by cases ha; rfl) (Or.inl hold)
  | takes _ hturn => exact h.turned hturn
  | hosted _ _ _ _ | direct _ _ _ => exact h.landed _ _
  | shares _ hunowned => exact h.caller fun _ => hunowned
  | asks _ | missing _ _ | finds _ _ | meets _ _ | passes _ | told _ | ends => exact h.caller nofun

theorem of_reached {start : T → Prop} (h : Reached start moves w) : Kept w := by
  induction h with
  | started _ => exact .started _ _
  | step _ hstep ih => exact ih.step hstep

end Kept

/-- A lock at two moments: the ticket it serves did not go back, and whoever was in is in still
while it is served. -/
structure Later (turn turn' : Turn.State C) : Prop where
  serving : turn.serving ≤ turn'.serving
  within : ∀ c ticket, (turn.at_ c).within = some ticket → turn'.serving = turn.serving →
    (turn'.at_ c).within = some ticket

theorem Later.refl (turn : Turn.State C) : Later turn turn := ⟨Nat.le_refl _, fun _ _ hin _ => hin⟩

theorem Later.trans {turn turn' turn'' : Turn.State C} (h : Later turn turn')
    (h' : Later turn' turn'') : Later turn turn'' := by
  refine ⟨Nat.le_trans h.serving h'.serving, fun c ticket hin hsame => ?_⟩
  have hle := h.serving
  have hle' := h'.serving
  exact h'.within c ticket (h.within c ticket hin (by omega)) (by omega)

/-! ## One at a time -/

section

variable [DecidableEq S] [DecidableEq C] [DecidableEq D] {start : T → Prop}
  {moves : T → List T → T → Prop} {w w' : World S C D A T}

/-- The stores held so far are a run of the store, whoever landed what. -/
theorem Reached.run (h : Reached start moves w) : History.Run start moves w.held := by
  induction h with
  | started ht => exact .start ht
  | @step w w' _ hstep ih =>
      cases hstep with
      | hosted _ _ hheld hmove | direct _ hheld hmove =>
          show History.Run start moves (_ :: w.held)
          rw [hheld] at ih ⊢
          exact .step ih hmove
      | opens _ | owns _ _ | blocks _ _ | refuses _ | binds _ _ | empties _ | marks _ | stops _
      | closes _ _ | dies | takes _ _ | asks _
        | missing _ _ | finds _ _ | shares _ _ | meets _ _ | passes _ | told _ | ends => exact ih

/-- What a step does to a direct change: nothing; it is told whom the file names; it is let through,
having shared the lock or found no file; or it is neither refused nor let through. -/
theorem Step.called (h : Step moves w w') (d : D) :
    w'.callers d = w.callers d ∨ w'.callers d = .refused w.named ∨
    w'.callers d = .passed ∧ (w.callers d = .sharing ∨ w.file = none) ∨
      w'.callers d ≠ .passed ∧ ∀ named, w'.callers d ≠ .refused named := by
  have hmoved : ∀ {d' : D} {q : Asking A},
      (d' = d → q = .refused w.named ∨ q = .passed ∧ (w.callers d = .sharing ∨ w.file = none) ∨
      q ≠ .passed ∧ ∀ named, q ≠ .refused named) → (w.caller d' q).callers d = w.callers d ∨
        (w.caller d' q).callers d = .refused w.named ∨
        (w.caller d' q).callers d = .passed ∧ (w.callers d = .sharing ∨ w.file = none) ∨
          (w.caller d' q).callers d ≠ .passed ∧ ∀ named, (w.caller d' q).callers d ≠
              .refused named := by
    intro d' q hq
    by_cases hd : d = d'
    · subst hd
      rw [World.caller_callers_self]
      exact Or.inr (hq rfl)
    · exact Or.inl (World.caller_callers_ne hd)
  cases h with
  | told _ => exact hmoved fun _ => Or.inl rfl
  | missing _ hfile => exact hmoved fun _ => Or.inr (Or.inl ⟨rfl, Or.inr hfile⟩)
  | passes hat => exact hmoved fun hd => Or.inr (Or.inl ⟨rfl, Or.inl (hd ▸ hat)⟩)
  | asks _ | finds _ _ | shares _ _ | meets _ _
  | ends => exact hmoved fun _ => Or.inr (Or.inr ⟨nofun, nofun⟩)
  | opens _ | owns _ _ | blocks _ _ | refuses _ | binds _ _ | empties _ | marks _ | stops _
  | closes _ _ | dies | takes _ _
    | hosted _ _ _ _ | direct _ _ _ => exact Or.inl rfl

/-- A start of a server refused by a step is told whom the file names. -/
theorem Step.started (h : Step moves w w') (s : S) :
    w'.servers s = w.servers s ∨ w'.servers s = .refused w.named ∨
    ∀ named, w'.servers s ≠ .refused named := by
  have hmoved : ∀ {v : World S C D A T} {s' : S} {p : Serving A}, v.servers = w.servers →
      (p = .refused w.named ∨ ∀ named, p ≠ .refused named) →
      (v.server s' p).servers s = w.servers s ∨
        (v.server s' p).servers s = .refused w.named ∨ ∀ named, (v.server s' p).servers s ≠
            .refused named := by
    intro v s' p hv hp
    by_cases hs : s = s'
    · subst hs
      rw [World.server_servers_self]
      exact Or.inr hp
    · rw [World.server_servers_ne hs, hv]
      exact Or.inl rfl
  cases h with
  | refuses _ => exact hmoved rfl (Or.inl rfl)
  | opens _ | owns _ _ | blocks _ _ | binds _ _ | empties _ | marks _ | stops _ | closes _ _
  | dies => exact hmoved rfl (Or.inr nofun)
  | takes _ _ | hosted _ _ _ _ | asks _ | missing _ _ | finds _ _ | shares _ _ | meets _ _
  | passes _ | told _ | direct _ _ _ | ends =>
      exact Or.inl rfl

/-- In every world reached, one server at most owns the store; of all the calls all the servers
host, one at most is inside, to land; whoever is refused while a server answers, a direct change or
another server's start, is told that server's address; and the stores held so far are a run of the
store. -/
theorem one_owner (h : Reached start moves w) :
    (∀ s s', w.Owns s → w.Owns s' → s = s') ∧
    (∀ s s' a a' c c', (w.servers s).answers = some a → (w.servers s').answers = some a' →
      (w.turns s).Inside c → (w.turns s').Inside c' → s = s' ∧ c = c') ∧
    (∀ s a, (w.servers s).answers = some a → ∀ w' named, Step moves w w' →
      (∀ d, w'.callers d = .refused named → w.callers d ≠ .refused named → named = some a) ∧
      ∀ s', w'.servers s' = .refused named → w.servers s' ≠ .refused named → named = some a) ∧
    History.Run start moves w.held := by
  have hkept := Kept.of_reached h
  refine ⟨hkept.alone, ?_, ?_, h.run⟩
  · intro s s' a a' c c' hs hs' hc hc'
    obtain rfl := hkept.alone s s' (Serving.owns_of_answers hs) (Serving.owns_of_answers hs')
    obtain ⟨l, hl⟩ := hkept.lines s
    obtain ⟨ticket, hticket⟩ := Option.isSome_iff_exists.mp hc
    obtain ⟨ticket', hticket'⟩ := Option.isSome_iff_exists.mp hc'
    have hin := (hl.within c ticket).mp hticket
    have hin' := (hl.within c' ticket').mp hticket'
    rw [hin] at hin'
    exact ⟨rfl, (Prod.ext_iff.mp (Option.some.inj hin')).1⟩
  · intro s a hs w' named hstep
    have hnamed : w.named = some a := by rw [World.named, hkept.marked s a hs]; rfl
    constructor
    · intro d hd hnew
      rcases hstep.called d with heq | htold | ⟨hpassed, _⟩ | ⟨_, hnone⟩
      · exact absurd (heq.symm.trans hd) hnew
      · rw [htold, hnamed] at hd
        exact (Asking.refused.inj hd).symm
      · rw [hpassed] at hd
        cases hd
      · exact absurd hd (hnone named)
    · intro s' hs' hnew
      rcases hstep.started s' with heq | htold | hnone
      · exact absurd (heq.symm.trans hs') hnew
      · rw [htold, hnamed] at hs'
        exact (Serving.refused.inj hs').symm
      · exact absurd hs' (hnone named)

/-! ## While a server owns the store -/

/-- From one world to another, a server owning the store all along. -/
inductive While (moves : T → List T → T → Prop) (s : S) (w : World S C D A T) :
    World S C D A T → Prop
  | refl : w.Owns s → While moves s w w
  | step {w' w'' : World S C D A T} : While moves s w w' → Step moves w' w'' → w''.Owns s →
      While moves s w w''

theorem While.owns {s : S} (h : While moves s w w') : w'.Owns s := by
  cases h with
  | refl howns => exact howns
  | step _ _ howns => exact howns

theorem While.kept {s : S} (h : While moves s w w') (hw : Kept w) : Kept w' := by
  induction h with
  | refl _ => exact hw
  | step _ hstep _ ih => exact ih.step hstep

/-- No direct change is let through while a server owns the store. -/
theorem Kept.passed {s : S} (h : Kept w) (howns : w.Owns s) (hstep : Step moves w w') {d : D}
    (hd : w'.callers d = .passed) :
    w.callers d = .passed := by
  rcases hstep.called d with heq | htold | ⟨_, hsharing | hfile⟩ | ⟨hnot, _⟩
  · exact heq.symm.trans hd
  · rw [hd] at htold
    cases htold
  · exact absurd hsharing (h.unshared s d howns)
  · have hmade := h.made s (Or.inl howns)
    rw [hfile] at hmade
    cases hmade
  · exact absurd hd hnot

theorem Later.step {turn turn' : Turn.State C} {l : Line (C × Nat)} {e : Option (Event (C × Nat))}
    (hl : Standing turn l) (hstep : Turn.Step turn e turn') : Later turn turn' := by
  obtain ⟨l', hfollows, hl'⟩ := hl.step hstep
  have hinside : l'.gone.length = l.gone.length → ∀ a, l.inside = some a → l'.inside = some a := by
    intro hgone a hin
    cases e with
    | none =>
        obtain rfl : l' = l := hfollows
        exact hin
    | some e =>
        cases hfollows with
        | came _ => exact hin
        | wentIn => cases hin
        | cameOut => simp at hgone
  constructor
  · rw [← hl.serving, ← hl'.serving]
    cases e with
    | none =>
        obtain rfl : l' = l := hfollows
        exact Nat.le_refl _
    | some e =>
        cases hfollows with
        | came _ | wentIn => exact Nat.le_refl _
        | cameOut => simp
  · intro c ticket hin hsame
    rw [← hl.serving, ← hl'.serving] at hsame
    exact (hl'.within c ticket).mpr (hinside hsame _ ((hl.within c ticket).mp hin))

theorem Kept.later (h : Kept w) (hstep : Step moves w w') (s : S) :
    Later (w.turns s) (w'.turns s) := by
  cases hstep with
  | @takes s' _ e turn _ hturn =>
      by_cases hs : s = s'
      · subst hs
        obtain ⟨l, hl⟩ := h.lines s
        have hself : (w.turned s turn).turns s = turn := Function.update_self ..
        rw [hself]
        exact .step hl hturn
      · have hother : (w.turned s' turn).turns s = w.turns s := Function.update_of_ne hs ..
        rw [hother]
        exact .refl _
  | opens _ | owns _ _ | blocks _ _ | refuses _ | binds _ _ | empties _ | marks _ | stops _
  | closes _ _ | dies | hosted _ _ _ _
    | asks _ | missing _ _ | finds _ _ | shares _ _ | meets _ _ | passes _ | told _ | direct _ _ _
    | ends => exact .refl _

/-- What a step lands: nothing; a direct change's set, let through before; or the set of a call that
is in, hosted by a server that owns the store. -/
theorem Step.lands (h : Step moves w w') : w'.landed = w.landed ∧ w'.held = w.held ∨
    ∃ by_ t, w'.landed = w.landed ++ [by_] ∧ w'.held = t :: w.held ∧
      ((∃ d, by_ = .direct d ∧ w.callers d = .passed) ∨
        ∃ s c ticket, by_ = .hosted s c ticket ∧ w.Owns s ∧
          (w.turns s).at_ c = .inside ticket) := by
  cases h with
  | hosted hanswers hin _ _ =>
      exact Or.inr ⟨_, _, rfl, rfl, Or.inr ⟨_, _, _, rfl, Serving.owns_of_answers hanswers, hin⟩⟩
  | direct hat _ _ => exact Or.inr ⟨_, _, rfl, rfl, Or.inl ⟨_, rfl, hat⟩⟩
  | opens _ | owns _ _ | blocks _ _ | refuses _ | binds _ _ | empties _ | marks _ | stops _
  | closes _ _ | dies | takes _ _ | asks _
    | missing _ _ | finds _ _ | shares _ _ | meets _ _ | passes _ | told _
    | ends => exact Or.inl ⟨rfl, rfl⟩

/-- Who may land a set while a server owns the store: a direct change let through before it did, or
a call of the server's, in its turn between the first and the last served meanwhile; and while the
first is served, only the call that was in. -/
def May (s : S) (w w' : World S C D A T) (by_ : Lander S C D) : Prop :=
  (∃ d, by_ = .direct d ∧ w.callers d = .passed) ∨
    ∃ c ticket, by_ = .hosted s c ticket ∧ (w.turns s).serving ≤ ticket ∧
      ticket ≤ (w'.turns s).serving ∧
      ∀ c', ((w.turns s).at_ c').within = some ticket → c = c'

/-- The ticket of a call that landed a set. -/
def Lander.ticket : Lander S C D → Option Nat
  | .hosted _ _ ticket => some ticket
  | .direct _ => none

/-- Whatever moves while a server owns the store: no direct change is let through, its turns go on,
and what lands is what may. -/
structure Meanwhile (s : S) (w w' : World S C D A T) : Prop where
  passed : ∀ d, w'.callers d = .passed → w.callers d = .passed
  turns : Later (w.turns s) (w'.turns s)
  landed : ∃ more new, w'.landed = w.landed ++ more ∧ w'.held = new ++ w.held ∧
    new.length = more.length ∧
    (∀ by_ ∈ more, May s w w' by_) ∧ (more.filterMap Lander.ticket).Pairwise (· ≤ ·)

theorem While.meanwhile {s : S} (h : While moves s w w') (hw : Kept w) : Meanwhile s w w' := by
  induction h with
  | refl _ => exact ⟨fun _ => id, .refl _, [], [], by simp, rfl, rfl, nofun, .nil⟩
  | @step w' w'' hwhile hstep howns ih =>
      have hkept := hwhile.kept hw
      have hlater := hkept.later hstep s
      obtain ⟨more, new, hmore, hnew, hlength, hmay, hordered⟩ := ih.landed
      have hmay' : ∀ by_ ∈ more, May s w w'' by_ := by
        intro by_ hby
        rcases hmay by_ hby with hdirect | ⟨c, ticket, heq, hle, hle', hin⟩
        · exact Or.inl hdirect
        · exact Or.inr ⟨c, ticket, heq, hle, Nat.le_trans hle' hlater.serving, hin⟩
      refine ⟨fun d hd => ih.passed d (hkept.passed hwhile.owns hstep hd),
        ih.turns.trans hlater, ?_⟩
      rcases hstep.lands with ⟨hlanded, hheld⟩ | ⟨by_, t, hlanded, hheld, hby⟩
      · exact ⟨more, new, hlanded.trans hmore, hheld.trans hnew, hlength, hmay', hordered⟩
      · refine ⟨more ++ [by_], t :: new, by rw [hlanded, hmore, List.append_assoc], ?_,
          by simp [hlength], ?_, ?_⟩
        · rw [hheld, hnew]
          rfl
        · intro by' hby'
          rcases List.mem_append.mp hby' with hby' | hby'
          · exact hmay' by' hby'
          · obtain rfl := List.mem_singleton.mp hby'
            rcases hby with ⟨d, rfl, hd⟩ | ⟨s', c, ticket, rfl, howns', hin⟩
            · exact Or.inl ⟨d, rfl, ih.passed d hd⟩
            · obtain ⟨rfl, hserving, honly⟩ := hkept.hosted hwhile.owns howns' hin
              have hle := ih.turns.serving
              have hle' := hlater.serving
              refine Or.inr ⟨c, ticket, rfl, by omega, by omega, fun c' hin' => honly c' ?_⟩
              have hserving' := (hw.inside hin').1
              exact ih.turns.within c' ticket hin' (by omega)
        · rw [List.filterMap_append, List.pairwise_append]
          refine ⟨hordered, by cases by_ <;> simp [List.filterMap_cons,
            Lander.ticket], fun n hn m hm => ?_⟩
          rcases hby with ⟨d, rfl, _⟩ | ⟨s', c, ticket, rfl, howns', hin⟩
          · simp [Lander.ticket] at hm
          · obtain rfl : m = ticket := by simpa [Lander.ticket] using hm
            obtain ⟨rfl, hserving, _⟩ := hkept.hosted hwhile.owns howns' hin
            obtain ⟨by', hby', hticket⟩ := List.mem_filterMap.mp hn
            rcases hmay by' hby' with ⟨d, rfl, _⟩ | ⟨c', ticket', rfl, _, hle, _⟩
            · cases hticket
            · obtain rfl : ticket' = n := Option.some.inj hticket
              omega

/-- While a server owns the store, from any world reached on: the direct changes let through are of
those let through before; what lands is theirs or the server's calls', those in the order they came;
and once none of theirs is left, what lands between a call going in and coming out is its own, so it
lands on the very store it went in on. -/
theorem served_in_order (hw : Reached start moves w) {s : S} (h : While moves s w w') :
    (∀ d, w'.callers d = .passed → w.callers d = .passed) ∧
    ∃ more new, w'.landed = w.landed ++ more ∧ w'.held = new ++ w.held ∧ new.length = more.length ∧
      (∀ by_ ∈ more, (∃ d, by_ = .direct d ∧ w.callers d = .passed) ∨ ∃ c ticket,
        by_ = .hosted s c ticket) ∧
      (more.filterMap Lander.ticket).Pairwise (· ≤ ·) ∧
      ((∀ d, w.callers d ≠ .passed) → ∀ c ticket, (w.turns s).at_ c = .inside ticket →
        (w'.turns s).at_ c = .inside ticket → (∀ by_ ∈ more, by_ = .hosted s c ticket) ∧
        (.hosted s c ticket ∉ more → w'.held = w.held)) := by
  have hkept := Kept.of_reached hw
  obtain ⟨hpassed, _, more, new, hmore, hnew, hlength, hmay, hordered⟩ := h.meanwhile hkept
  refine ⟨hpassed, more, new, hmore, hnew, hlength, fun by_ hby => ?_, hordered,
    fun hnone c ticket hin hin' => ?_⟩
  · rcases hmay by_ hby with hdirect | ⟨c, ticket, heq, _⟩
    · exact Or.inl hdirect
    · exact Or.inr ⟨c, ticket, heq⟩
  · have hwithin : ((w.turns s).at_ c).within = some ticket := by rw [hin]; rfl
    have hwithin' : ((w'.turns s).at_ c).within = some ticket := by rw [hin']; rfl
    have hserving := (hkept.inside hwithin).1
    have hserving' := ((h.kept hkept).inside hwithin').1
    have hown : ∀ by_ ∈ more, by_ = .hosted s c ticket := by
      intro by_ hby
      rcases hmay by_ hby with ⟨d, _, hd⟩ | ⟨c', ticket', rfl, hle, hle', honly⟩
      · exact absurd hd (hnone d)
      · obtain rfl : ticket' = ticket := by omega
        rw [honly c hwithin]
    refine ⟨hown, fun hnot => ?_⟩
    cases more with
    | nil =>
        obtain rfl : new = [] := List.eq_nil_of_length_eq_zero hlength
        exact hnew
    | cons by_ more => exact absurd (hown by_ List.mem_cons_self ▸ List.mem_cons_self) hnot

end

/-! ## A call hosted, a change refused -/

namespace Sole

/-- A store served by one server to one call, and one change asked of it directly. -/
def world (file : Option (Option Nat)) (p : Serving Nat) (turn : Turn.State Unit) (q : Asking Nat)
    (held : List Tables) (landed : List (Lander Unit Unit Unit)) :
    World Unit Unit Unit Nat Tables :=
  ⟨file, fun _ => p, fun _ => turn, fun _ => q, held, landed⟩

/-- The server's lock with its one call somewhere. -/
def turn (drawn : Nat) (held : Option Unit) (p : Place) : Turn.State Unit :=
  ⟨drawn, 0, held, fun _ => p⟩

variable {file : Option (Option Nat)} {p p' : Serving Nat} {lock lock' : Turn.State Unit}
  {q q' : Asking Nat} {held : List Tables} {landed : List (Lander Unit Unit Unit)}

theorem update_sole {α : Type} (a b : α) : Function.update (fun _ : Unit => a) () b = fun _ => b :=
  funext fun _ => Function.update_self ..

theorem server_world :
    (world file p lock q held landed).server () p' = world file p' lock q held landed := by
  simp only [world, World.server, update_sole]

theorem caller_world :
    (world file p lock q held landed).caller () q' = world file p lock q' held landed := by
  simp only [world, World.caller, update_sole]

theorem turned_world :
    (world file p lock q held landed).turned () lock' = world file p lock' q held landed := by
  simp only [world, World.turned, update_sole]

theorem go_turn (drawn : Nat) (holder : Option Unit) (place place' : Place) :
    (turn drawn holder place).go () place' = turn drawn holder place' := by
  simp only [turn, Turn.State.go, update_sole]

variable {start : Tables → Prop} {moves : Tables → List Tables → Tables → Prop} {t : Tables}

theorem bound (ht : start t) :
    Reached start moves (world (some none) (.bound 1) (turn 0 none .away) .away [t] []) := by
  have hasking : Reached start moves (world (some none) .asking (turn 0 none .away) .away [t] []) :=
    server_world ▸ .step (@Reached.started _ _ _ _ _ _ _ _ start moves none t ht) (.opens rfl)
  have howning : Reached start moves (world (some none) .owning (turn 0 none .away) .away [t] []) :=
    server_world ▸ .step hasking (.owns rfl ⟨fun _ h => absurd h Bool.false_ne_true, nofun⟩)
  exact server_world ▸ .step howning (.binds 1 rfl)

theorem serving (ht : start t) :
    Reached start moves (world (some (some 1)) (.serving 1) (turn 0 none .away) .away [t] []) := by
  have hemptied :
      Reached start moves (world (some none) (.emptied 1) (turn 0 none .away) .away [t] []) :=
    server_world ▸ .step (bound ht) (.empties rfl)
  exact server_world ▸ .step hemptied (.marks rfl)

/-- A call that moved, of the server serving. -/
theorem taking {lock₁ : Turn.State Unit} {e : Option (Event (Unit × Nat))}
    (h : Reached start moves (world (some (some 1)) (.serving 1) lock .away [t] []))
    (hstep : Turn.Step lock e lock₁) (hto : lock₁ = lock') :
    Reached start moves (world (some (some 1)) (.serving 1) lock' .away [t] []) := by
  subst hto
  exact turned_world ▸ .step h (.takes rfl hstep)

/-- The server's call, in. -/
theorem inside (ht : start t) :
    Reached start moves
    (world (some (some 1)) (.serving 1) (turn 1 none (.inside 0)) .away [t] []) := by
  have hserving :
    Reached start moves (world (some (some 1)) (.serving 1) (turn 0 none .away) .away [t] []) :=
    serving ht
  have harriving := taking hserving (.comes (c := ()) rfl) (go_turn 0 none .away .arriving)
  have hdrawing :=
    taking harriving (.acquires (c := ()) rfl rfl) (go_turn 0 (some ()) .arriving .drawing)
  have hdrawn := taking hdrawing (.draws (c := ()) rfl) (go_turn 0 (some ()) .drawing (.drawn 0))
  have hcounted :=
    taking hdrawn (.counts (c := ()) rfl) (go_turn 1 (some ()) (.drawn 0) (.counted 0))
  have hchecking :=
    taking hcounted (.tells (c := ()) rfl) (go_turn 1 (some ()) (.counted 0) (.checking 0))
  have hserved :=
    taking hchecking (.goesIn (c := ()) rfl rfl) (go_turn 1 (some ()) (.checking 0) (.served 0))
  exact taking hserved (.enters (c := ()) rfl) (go_turn 1 none (.served 0) (.inside 0))

/-- A store started, and what a snapshot recorded leaves of it. -/
abbrev Start : Tables → Prop := Fresh Sample.outside
abbrev Moves (t : Tables) (past : List Tables) (t' : Tables) : Prop :=
  ∃ move, True ∧ Move.Makes Sample.outside t past move t'

theorem first_started : Start Stamps.Taken.first := ⟨"role", "execution", 0, by decide +kernel⟩

theorem second_lands : Moves Stamps.Taken.first [] Stamps.Taken.second := by
  have hread : Query.snapshotted Sample.outside Stamps.Taken.first [] = .ok [] := rfl
  have hlands : Write.snapshot [] Sample.signed 0 Stamps.Taken.first Stamps.Taken.first =
    .ok Stamps.Taken.second := by decide +kernel
  exact ⟨.recorded [] Stamps.Taken.first Stamps.Taken.first 0 Sample.signed, trivial,
    .recorded List.mem_cons_self List.mem_cons_self hread hlands⟩

end Sole

open Sole Stamps.Taken in
/-- A change asked of a store served at 1 is told so. -/
theorem one_owner_told : ∃ w w' :
    World Unit Unit Unit Nat Tables, Reached Start Moves w ∧ Step Moves w w' ∧
    w'.callers () = .refused (some 1) ∧ ∀ named, w'.callers () = .refused named →
      named = some 1 := by
  have hopening :
      Reached Start Moves (world (some (some 1)) (.serving 1) (turn 0 none .away) .opening
      [first] []) :=
    caller_world ▸ .step (serving first_started) (.asks rfl)
  have hasking :
      Reached Start Moves (world (some (some 1)) (.serving 1) (turn 0 none .away) .asking
      [first] []) :=
    caller_world ▸ .step hopening (.finds rfl nofun)
  have hblocked :
      Reached Start Moves (world (some (some 1)) (.serving 1) (turn 0 none .away) .blocked
      [first] []) :=
    caller_world ▸ .step hasking (.meets rfl fun h => h () rfl)
  refine ⟨_, _, hblocked, .told (d := ()) rfl, World.caller_callers_self, fun named hnamed => ?_⟩
  exact ((one_owner hblocked).2.2.1 () 1 rfl _ named (.told rfl)).1 () hnamed nofun

open Sole Stamps.Taken in
/-- What a call of a server's lands while it is in is its own. -/
theorem served_in_order_recorded : ∃ w w' :
    World Unit Unit Unit Nat Tables, Reached Start Moves w ∧ While Moves () w w' ∧
    w'.held = [second, first] ∧ w'.landed = [.hosted () () 0] ∧ ∃ more,
      w'.landed = w.landed ++ more ∧ ∀ by_ ∈ more, by_ = .hosted () () 0 := by
  have hin :
    Reached Start Moves (world (some (some 1)) (.serving 1) (turn 1 none (.inside 0)) .away [first]
    []) := inside first_started
  have hlands :
      Step Moves (world (some (some 1)) (.serving 1) (turn 1 none (.inside 0)) .away [first] [])
      (world (some (some 1)) (.serving 1) (turn 1 none (.inside 0)) .away [second, first]
          [.hosted () () 0]) :=
    .hosted rfl rfl rfl second_lands
  have hwhile :
      While Moves () (world (some (some 1)) (.serving 1) (turn 1 none (.inside 0)) .away [first] [])
      (world (some (some 1)) (.serving 1) (turn 1 none (.inside 0)) .away [second, first]
          [.hosted () () 0]) := by
    refine .step (.refl ?_) hlands ?_
    · exact rfl
    · exact rfl
  obtain ⟨_, more, new, hmore, _, _, _, _, halone⟩ := served_in_order hin hwhile
  exact ⟨_, _, hin, hwhile, rfl, rfl, more, hmore, (halone nofun () 0 rfl rfl).1⟩

end Kb.Owned
