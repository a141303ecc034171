/-
# `Kb.Lib.Transaction` — a write lock, its savepoints, and what a block leaves

A connection to a database of states `σ`.  What changes the state is a script: statements made one
after another, each of which may refuse by its own check, or fail because the database does.  A
script is run under a savepoint, and the savepoint under the write lock, which a block may hold
across several scripts; a block inside one that already holds the lock runs within it.

What is assumed of the database is what it documents.  A statement that fails leaves the state as it
was before that statement; some failures take the whole transaction back beside, its savepoints with
it.  Taking back to a savepoint restores the state at it and keeps the transaction open; rolling
back restores the state at the transaction's start.  A savepoint made outside a transaction opens
one, which its release ends.  Nothing is assumed of when a statement fails, or how: the failing
statements are any set of statement numbers.

The block does not look whether its transaction is still open: one lost under it is not noticed
before it ends, and each script after it lands by itself.  While no statement loses a transaction,
`Act.run_locked` says what is seen inside a block, and `block_idle` what the outermost block leaves.
-/
namespace Transaction

/-- How a statement fails: by itself, or with the whole transaction it was made in. -/
inductive Failure where
  | statement
  | transaction
deriving DecidableEq

/-- An open connection: the state its reads see, the state at the start of the transaction begun on
it, the states at its savepoints, innermost first, whether it holds the write lock for a block, and
how many statements it has made. -/
structure Connection (σ : Type) where
  state : σ
  begun : Option σ := none
  saves : List σ := []
  locked : Bool := false
  made : Nat := 0

variable {σ ℓ ε γ : Type}

/-- A statement of a script: on the state and on what the script holds beside it. -/
abbrev Statement (σ ℓ ε : Type) := σ × ℓ → Except ε (σ × ℓ)

/-- What a database does beyond its states: which statements fail and how, the error they fail with,
the one a savepoint or a transaction that is not open is refused with, and the one a lock asked for
inside a transaction is. -/
structure Database (ε : Type) where
  fails : Nat → Option Failure
  down : ε
  absent : ε
  nested : ε

/-- What the parts of a program do to a connection: an error leaves the connection as it then
stands. -/
abbrev Action (σ ε α : Type) := Connection σ → Except ε α × Connection σ

namespace Connection

/-- A statement made: one more, whatever comes of it. -/
def counted (c : Connection σ) : Connection σ :=
  { c with made := c.made + 1 }

/-- Whether a transaction is open: one begun, or one a savepoint opened. -/
def inTransaction (c : Connection σ) : Bool :=
  c.begun.isSome || !c.saves.isEmpty

/-- `ROLLBACK`: the state at the start of the transaction that is open, if one is. -/
def rolledBack (c : Connection σ) : Connection σ :=
  { c with state := c.begun.getD (c.saves.getLastD c.state), begun := none, saves := [] }

/-- What a failing statement leaves. -/
def failed (c : Connection σ) : Failure → Connection σ
  | .statement => c.counted
  | .transaction => c.counted.rolledBack

end Connection

/-! ## The blocks -/

variable (db : Database ε)

/-- The statements of a script made in order on the state, until one refuses or fails. -/
def runScript : List (Statement σ ℓ ε) → ℓ → Action σ ε Unit
  | [], _, c => (.ok (), c)
  | statement :: rest, held, c =>
      match db.fails c.made with
      | some failure => (.error db.down, c.failed failure)
      | none => match statement (c.state, held) with
        | .error e => (.error e, c.counted)
        | .ok (s, held) => runScript rest held { c.counted with state := s }

/-- `ROLLBACK TO` the innermost savepoint, and its `RELEASE`, for an error: where no savepoint is
open, the error is the database's own. -/
def takenBack (e : ε) : Action σ ε Unit := fun c =>
  match c.saves with
  | s :: rest => (.error e, { c with state := s, saves := rest })
  | [] => (.error db.absent, c)

/-- `RELEASE` of the innermost savepoint: of one that opened its transaction, the transaction's
end. -/
def released : Action σ ε Unit := fun c =>
  match db.fails c.made with
  | some failure => (.error db.down, c.failed failure)
  | none => match c.saves with
    | _ :: rest => (.ok (), { c.counted with saves := rest })
    | [] => (.error db.absent, c.counted)

/-- A savepoint around a body: what the body leaves when it ends and the savepoint is released, else
the state at the savepoint. -/
def saved (body : Action σ ε Unit) : Action σ ε Unit := fun c =>
  match db.fails c.made with
  | some failure => (.error db.down, c.failed failure)
  | none =>
    match body { c.counted with saves := c.state :: c.saves } with
    | (.error e, c) => takenBack db e c
    | (.ok (), c) => match released db c with
      | (.error e, c) => takenBack db e c
      | (.ok (), c) => (.ok (), c)

/-- `COMMIT`. -/
def committed : Action σ ε Unit := fun c =>
  match db.fails c.made with
  | some failure => (.error db.down, c.failed failure)
  | none =>
      if c.inTransaction then (.ok (), { c.counted with begun := none, saves := [] })
        else (.error db.absent, c.counted)

/-- The write lock taken for a body, kept when the body ends and rolled back when it raises; inside
a block that holds it, the body alone. -/
def exclusive (body : Action σ ε Unit) : Action σ ε Unit := fun c =>
  if c.locked then body c
  else if c.inTransaction then (.error db.nested, c)
  else
    match db.fails c.made with
    | some failure => (.error db.down, c.failed failure)
    | none =>
      match body { c.counted with begun := some c.state, locked := true } with
      | (.error e, c) => (.error e, { c.rolledBack with locked := false })
      | (.ok (), c) => match committed db c with
        | (.error e, c) => (.error e, { c.rolledBack with locked := false })
        | (.ok (), c) => (.ok (), { c with locked := false })

/-- A set landed: its script under a savepoint of its own, under the write lock. -/
def landing (script : List (Statement σ ℓ ε)) (held : ℓ) : Action σ ε Unit :=
  exclusive db (saved db (runScript db script held))

/-- What a script gives alone, no statement failing. -/
def given (script : List (Statement σ ℓ ε)) (held : ℓ) (s : σ) : Except ε σ :=
  (script.foldlM (fun (at_ : σ × ℓ) (statement : Statement σ ℓ ε) => statement at_)
    (s, held)).map Prod.fst

/-- No statement made from one connection to another fails with the transaction it was made in. -/
def Keeps (c c' : Connection σ) : Prop :=
  ∀ n, c.made ≤ n → n < c'.made → db.fails n ≠ some .transaction

/-! ## What a script and its savepoint do -/

variable {db}

theorem Keeps.after {c c' d : Connection σ} (h : Keeps db c d) (hle : c.made ≤ c'.made) :
    Keeps db c' d :=
  fun n hn => h n (Nat.le_trans hle hn)

theorem Keeps.before {c c' d : Connection σ} (h : Keeps db c d) (hle : c'.made ≤ d.made) :
    Keeps db c c' :=
  fun n hn hlt => h n hn (Nat.lt_of_lt_of_le hlt hle)

variable (db)

/-- Outside the state and the count of statements, a script leaves a connection as it was, and when
it ends, the state is what the script alone gives; or a statement loses the transaction. -/
theorem runScript_spec (script : List (Statement σ ℓ ε)) (held : ℓ) (c : Connection σ) :
    let out := runScript db script held c
    ∃ s n, c.made ≤ n ∧
      ((out.2 = { c with state := s, made := n } ∧
        (out.1 = .ok () → given script held c.state = .ok s)) ∨
        (out = (.error db.down, { ({ c with state := s } : Connection σ).rolledBack with
          made := n }) ∧
          ¬ Keeps db c out.2)) := by
  induction script generalizing held c with
  | nil => exact ⟨c.state, c.made, Nat.le_refl _, .inl ⟨rfl, fun _ => rfl⟩⟩
  | cons statement rest ih =>
      simp only [runScript]
      cases hf : db.fails c.made with
      | some failure =>
          refine ⟨c.state, c.made + 1, Nat.le_succ _, ?_⟩
          cases failure with
          | statement => exact .inl ⟨rfl, nofun⟩
          | transaction =>
              exact .inr ⟨rfl, fun hk => hk c.made (Nat.le_refl _) (Nat.lt_succ_self _) hf⟩
      | none =>
          cases hs : statement (c.state, held) with
          | error e => exact ⟨c.state, c.made + 1, Nat.le_succ _, .inl ⟨rfl, nofun⟩⟩
          | ok after =>
              obtain ⟨s, held'⟩ := after
              obtain ⟨s', n, hn, hout⟩ := ih held' { c.counted with state := s }
              have hn : c.made + 1 ≤ n := hn
              refine ⟨s', n, Nat.le_of_succ_le hn, ?_⟩
              rcases hout with ⟨hc, hok⟩ | ⟨hout, hlost⟩
              · refine .inl ⟨by simpa [Connection.counted] using hc, fun h => ?_⟩
                have hrest := hok h
                simp only [given, List.foldlM_cons, hs] at hrest ⊢
                exact hrest
              · exact .inr ⟨hout, fun hk => hlost (hk.after (Nat.le_succ _))⟩

/-- A savepoint's body leaves the lock, the transaction and the savepoints around it as they were;
the state is what the script alone gives, or, when anything refused or failed, what it was.  Where a
statement loses the transaction, what is left is what rolling it back leaves. -/
theorem saved_spec (script : List (Statement σ ℓ ε)) (held : ℓ) (c : Connection σ) :
    let out := saved db (runScript db script held) c
    ∃ n, c.made ≤ n ∧
      ((∃ s, out.2 = { c with state := s, made := n } ∧
          (out.1 = .ok () → given script held c.state = .ok s) ∧
          ∀ e, out.1 = .error e → s = c.state) ∨
        ((∃ e, out.1 = .error e) ∧ out.2 = { c.rolledBack with made := n } ∧
            ¬ Keeps db c out.2)) := by
  simp only [saved]
  cases hf : db.fails c.made with
  | some failure =>
      refine ⟨c.made + 1, Nat.le_succ _, ?_⟩
      cases failure with
      | statement => exact .inl ⟨c.state, rfl, nofun, fun _ _ => rfl⟩
      | transaction =>
          exact .inr ⟨⟨_, rfl⟩, rfl, fun hk => hk c.made (Nat.le_refl _) (Nat.lt_succ_self _) hf⟩
  | none =>
      obtain ⟨s, n, hn, hout⟩ :=
        runScript_spec db script held { c.counted with saves := c.state :: c.saves }
      have hn : c.made + 1 ≤ n := hn
      rcases hrun : runScript db script held { c.counted with
        saves := c.state :: c.saves } with ⟨result, after⟩
      rw [hrun] at hout
      simp only at hout ⊢
      rcases hout with ⟨rfl, hok⟩ | ⟨hout, hlost⟩
      · cases result with
        | error e => exact ⟨n, Nat.le_of_succ_le hn, .inl ⟨c.state, rfl, nofun, fun _ _ => rfl⟩⟩
        | ok u =>
            simp only [released]
            refine ⟨n + 1, Nat.le_succ_of_le (Nat.le_of_succ_le hn), ?_⟩
            cases hr : db.fails n with
            | none =>
                refine .inl ⟨s, rfl, fun _ => ?_, nofun⟩
                simpa [Connection.counted] using hok rfl
            | some failure =>
                cases failure with
                | statement => exact .inl ⟨c.state, rfl, nofun, fun _ _ => rfl⟩
                | transaction =>
                    refine .inr ⟨⟨_, rfl⟩, ?_,
                      fun hk => hk n (Nat.le_of_succ_le hn) (Nat.lt_succ_self _) hr⟩
                    simp [takenBack, Connection.failed, Connection.rolledBack, Connection.counted,
                      List.getLast?_cons]
      · cases hout
        refine ⟨n, Nat.le_of_succ_le hn,
          .inr ⟨⟨_, rfl⟩, ?_, fun hk => hlost (hk.after (Nat.le_succ _))⟩⟩
        simp [takenBack, Connection.rolledBack, Connection.counted, List.getLast?_cons]

/-! ## Programs of landings -/

/-- What a caller makes of a connection: a set landed, a block holding the lock, a part whose error
the caller catches, an error of the caller's own. -/
inductive Act (γ ε : Type) where
  | land (set : γ)
  | block (body : List (Act γ ε))
  | caught (body : List (Act γ ε))
  | raises (e : ε)

/-- How a program ended: what it came to, the connection as it left it, and the sets accepted that
it left landed, in order. -/
structure Ran (γ σ ε : Type) where
  result : Except ε Unit
  connection : Connection σ
  accepted : List γ

variable (script : γ → List (Statement σ ℓ ε)) (held : ℓ)

mutual
/-- One act run.  A block that takes the lock and raises is to leave none of its sets landed. -/
def Act.run : Act γ ε → Connection σ → Ran γ σ ε
  | .land set, c =>
      match landing db (script set) held c with
      | (.ok (), c) => ⟨.ok (), c, [set]⟩
      | (.error e, c) => ⟨.error e, c, []⟩
  | .raises e, c => ⟨.error e, c, []⟩
  | .caught body, c =>
      match Act.runAll body c with
      | ⟨_, c, accepted⟩ => ⟨.ok (), c, accepted⟩
  | .block body, c =>
      let entered := Act.runAll body
      if c.locked then entered c
      else
        let out := exclusive db (fun c => ((entered c).result, (entered c).connection)) c
        ⟨out.1, out.2, match out.1 with
          | .ok () => (entered { c.counted with begun := some c.state, locked := true }).accepted
          | .error _ => []⟩
/-- Acts run in order, until one raises. -/
def Act.runAll : List (Act γ ε) → Connection σ → Ran γ σ ε
  | [], c => ⟨.ok (), c, []⟩
  | act :: rest, c =>
      match Act.run act c with
      | ⟨.error e, c, accepted⟩ => ⟨.error e, c, accepted⟩
      | ⟨.ok (), c, accepted⟩ =>
          match Act.runAll rest c with
          | ⟨result, c, more⟩ => ⟨result, c, accepted ++ more⟩
end

/-- The state landing sets alone, in order, gives. -/
def landedAlone (s : σ) (sets : List γ) : Except ε σ :=
  sets.foldlM (fun s set => given (script set) held s) s

/-- A connection whose state is what the sets alone give from another's, all else but the count of
its statements being the other's. -/
def Follows (c c' : Connection σ) (sets : List γ) : Prop :=
  ∃ s n, c' = { c with state := s, made := n } ∧ landedAlone script held c.state sets = .ok s

variable {script held}

theorem Follows.refl {c : Connection σ} : Follows script held c c [] :=
  ⟨c.state, c.made, by rfl, by rfl⟩

theorem Follows.trans {c c' c'' : Connection σ} {sets sets' : List γ}
    (h : Follows script held c c' sets) (h' : Follows script held c' c'' sets') :
    Follows script held c c'' (sets ++ sets') := by
  obtain ⟨s, n, rfl, hs⟩ := h
  obtain ⟨s', n', rfl, hs'⟩ := h'
  refine ⟨s', n', by rfl, ?_⟩
  simp only [landedAlone, List.foldlM_append] at hs hs' ⊢
  rw [hs]
  exact hs'

variable (script held)

/-! ## Statements are only ever made -/

theorem saved_made (script : List (Statement σ ℓ ε)) (held : ℓ) (c : Connection σ) :
    c.made ≤ (saved db (runScript db script held) c).2.made := by
  obtain ⟨n, hn, ⟨s, hc, -⟩ | ⟨-, hc, -⟩⟩ := saved_spec db script held c
  · rw [hc]
    exact hn
  · rw [hc]
    exact hn

theorem committed_made (c : Connection σ) : c.made ≤ (committed db c).2.made := by
  unfold committed
  split
  · next failure _ => cases failure <;> exact Nat.le_succ _
  · split <;> exact Nat.le_succ _

theorem exclusive_made {body : Action σ ε Unit} (h : ∀ c, c.made ≤ (body c).2.made)
    (c : Connection σ) :
    c.made ≤ (exclusive db body c).2.made := by
  unfold exclusive
  split
  · exact h c
  · split
    · exact Nat.le_refl _
    · split
      · next failure _ => cases failure <;> exact Nat.le_succ _
      · have hbody :=
          Nat.le_trans (Nat.le_succ c.made)
          (h { c.counted with begun := some c.state, locked := true })
        split
        · next hout =>
            rw [hout] at hbody
            exact hbody
        · next c' hout =>
            rw [hout] at hbody
            have hcommit := Nat.le_trans hbody (committed_made db c')
            split
            · next hout =>
                rw [hout] at hcommit
                exact hcommit
            · next hout =>
                rw [hout] at hcommit
                exact hcommit

mutual
theorem Act.run_made (act : Act γ ε) (c : Connection σ) :
    c.made ≤ (Act.run db script held act c).connection.made := by
  match act with
  | .land set =>
      have hmade := exclusive_made db (saved_made db (script set) held) c
      simp only [Act.run, landing]
      split
      · next h =>
          rw [h] at hmade
          exact hmade
      · next h =>
          rw [h] at hmade
          exact hmade
  | .raises e => exact Nat.le_refl _
  | .caught body => exact Act.runAll_made body c
  | .block body =>
      simp only [Act.run]
      split
      · exact Act.runAll_made body c
      · exact @exclusive_made _ _ db (fun c => ((Act.runAll db script held body c).result,
          (Act.runAll db script held body c).connection)) (Act.runAll_made body) c
theorem Act.runAll_made (acts : List (Act γ ε)) (c : Connection σ) :
    c.made ≤ (Act.runAll db script held acts c).connection.made := by
  match acts with
  | [] => exact Nat.le_refl _
  | act :: rest =>
      have hact := Act.run_made act c
      simp only [Act.runAll]
      split
      · next h =>
          rw [h] at hact
          exact hact
      · next c' _ h =>
          rw [h] at hact
          exact Nat.le_trans hact (Act.runAll_made rest c')
end

/-! ## Inside a block -/

/-- A set landed under the lock: accepted, its script alone gives the state; refused or failed, the
connection is as it was, the lock held. -/
theorem landing_locked (set : γ) {c : Connection σ} (hl : c.locked = true) :
    let out := landing db (script set) held c
    Keeps db c out.2 →
      (out.1 = .ok () → Follows script held c out.2 [set]) ∧
        (∀ e, out.1 = .error e → Follows script held c out.2 []) := by
  simp only [landing, exclusive, hl, if_true]
  intro hk
  obtain ⟨n, -, ⟨s, hc, hok, herr⟩ | ⟨-, -, hlost⟩⟩ := saved_spec db (script set) held c
  · refine ⟨fun h => ⟨s, n, hc, ?_⟩, fun e h => ⟨s, n, hc, ?_⟩⟩
    · simp [landedAlone, hok h]
    · simp [landedAlone, herr e h, pure, Except.pure]
  · exact absurd hk hlost

mutual
/-- Under the lock an act leaves the connection following what it accepted. -/
theorem Act.run_locked (act : Act γ ε) (c : Connection σ) (hl : c.locked = true)
    (hk : Keeps db c (Act.run db script held act c).connection) :
    Follows script held c (Act.run db script held act c).connection
      (Act.run db script held act c).accepted := by
  match act with
  | .land set =>
      have hland := landing_locked db script held set hl
      simp only [Act.run] at hk ⊢
      split at hk
      · next c' h =>
          rw [h] at hland
          simpa [h] using (hland hk).1 rfl
      · next e c' h =>
          rw [h] at hland
          simpa [h] using (hland hk).2 e rfl
  | .raises e => exact Follows.refl
  | .caught body => exact Act.runAll_locked body c hl hk
  | .block body =>
      simp only [Act.run, hl, if_true] at hk ⊢
      exact Act.runAll_locked body c hl hk
theorem Act.runAll_locked (acts : List (Act γ ε)) (c : Connection σ) (hl : c.locked = true)
    (hk : Keeps db c (Act.runAll db script held acts c).connection) :
    Follows script held c (Act.runAll db script held acts c).connection
      (Act.runAll db script held acts c).accepted := by
  match acts with
  | [] => exact Follows.refl
  | act :: rest =>
      have hact := Act.run_locked act c hl
      have hmade := Act.run_made db script held act c
      simp only [Act.runAll] at hk ⊢
      split at hk
      · next e c' accepted h => simpa [h] using hact (by rwa [h])
      · next c' accepted h =>
          rw [h] at hact hmade
          have hact := hact (hk.before (Act.runAll_made db script held rest c'))
          have hl' : c'.locked = true := by
            obtain ⟨s, n, hc, -⟩ := hact
            rw [show c' = { c with state := s, made := n } from hc]
            exact hl
          simpa [h] using hact.trans (Act.runAll_locked rest c' hl' (hk.after hmade))
end

/-! ## What the outermost block leaves -/

/-- A connection between blocks: no lock held, no transaction open, no savepoint. -/
def Idle (c : Connection σ) : Prop :=
  c.locked = false ∧ c.begun = none ∧ c.saves = []

theorem Idle.closed {c : Connection σ} (hc : Idle c) : c.inTransaction = false := by
  simp [Connection.inTransaction, hc.2.1, hc.2.2]

theorem Idle.failed {c : Connection σ} (hc : Idle c) (failure : Failure) :
    Idle (c.failed failure) ∧ (c.failed failure).state = c.state := by
  obtain ⟨hl, hb, hs⟩ := hc
  cases failure with
  | statement => exact ⟨⟨hl, hb, hs⟩, rfl⟩
  | transaction => exact ⟨⟨hl, rfl, rfl⟩, by
      simp [Connection.failed, Connection.rolledBack, Connection.counted, hb, hs]⟩

/-- The end of a transaction that is begun: kept, or left to be rolled back to where it began. -/
theorem committed_spec {c : Connection σ} {s : σ} (hb : c.begun = some s) :
    (∃ n, committed db c = (.ok (), { c with begun := none, saves := [], made := n })) ∨
      ∃ e c', committed db c = (.error e, c') ∧ c'.rolledBack.state = s := by
  unfold committed
  cases db.fails c.made with
  | none => exact .inl ⟨c.made + 1, by simp [Connection.inTransaction, Connection.counted, hb]⟩
  | some failure =>
      refine .inr ⟨_, _, rfl, ?_⟩
      cases failure <;> simp [Connection.failed, Connection.rolledBack, Connection.counted, hb]

/-- The outermost block: ended normally, the state is what the sets it accepted give alone, in
order; raised, it is the state before.  Either way the connection is between blocks again. -/
theorem block_idle (body : List (Act γ ε)) {c : Connection σ} (hc : Idle c) :
    let out := Act.run db script held (.block body) c
    Keeps db c out.connection →
    Idle out.connection ∧
      (out.result = .ok () → landedAlone script held c.state out.accepted =
        .ok out.connection.state) ∧
      (∀ e, out.result = .error e → out.connection.state = c.state ∧ out.accepted = []) := by
  have hclosed := hc.closed
  simp only [Act.run, hc.1, Bool.false_eq_true, if_false, exclusive, hclosed]
  cases hf : db.fails c.made with
  | some failure =>
      intro _
      obtain ⟨hidle, hstate⟩ := hc.failed failure
      exact ⟨hidle, nofun, fun _ _ => ⟨hstate, rfl⟩⟩
  | none =>
      have hfollows := Act.runAll_locked db script held body { c.counted with
        begun := some c.state, locked := true } rfl
      rcases hrun : Act.runAll db script held body { c.counted with
        begun := some c.state, locked := true } with ⟨result, inside, accepted⟩
      rw [hrun] at hfollows
      have hinside : ∀ {d : Connection σ}, inside.made ≤ d.made → Keeps db c d →
          Follows script held { c.counted with
              begun := some c.state, locked := true } inside accepted :=
        fun hle hk => hfollows ((hk.before hle).after (Nat.le_succ _))
      cases result with
      | error e =>
          intro hk
          obtain ⟨s, n, rfl, -⟩ := hinside (Nat.le_refl _) hk
          exact ⟨⟨rfl, rfl, rfl⟩, nofun, fun _ _ => ⟨rfl, rfl⟩⟩
      | ok u =>
          simp only
          have hmade := committed_made db inside
          rcases hcommit : committed db inside with ⟨ended, after⟩
          rw [hcommit] at hmade
          cases ended with
          | error e =>
              intro hk
              obtain ⟨s, n, rfl, -⟩ := hinside hmade hk
              rcases committed_spec db (c := { c.counted with
                begun := some c.state, locked := true, state := s, made := n }) rfl
                with ⟨_, heq⟩ | ⟨_, c', heq, hstate⟩
              · cases heq.symm.trans hcommit
              · cases heq.symm.trans hcommit
                exact ⟨⟨rfl, rfl, rfl⟩, nofun, fun _ _ => ⟨hstate, rfl⟩⟩
          | ok u' =>
              intro hk
              obtain ⟨s, n, rfl, hland⟩ := hinside hmade hk
              rcases committed_spec db (c := { c.counted with
                begun := some c.state, locked := true, state := s, made := n }) rfl
                with ⟨_, heq⟩ | ⟨_, c', heq, _⟩
              · cases heq.symm.trans hcommit
                exact ⟨⟨rfl, rfl, rfl⟩, fun _ => hland, nofun⟩
              · cases heq.symm.trans hcommit

/-- A set landed outside any block takes the lock for itself alone; a transaction lost under it is
its own. -/
theorem land_idle (set : γ) {c : Connection σ} (hc : Idle c) :
    let out := Act.run db script held (.land set) c
    Idle out.connection ∧ landedAlone script held c.state out.accepted =
        .ok out.connection.state := by
  have hclosed := hc.closed
  simp only [Act.run, landing, exclusive, hc.1, hclosed, Bool.false_eq_true, if_false]
  cases hf : db.fails c.made with
  | some failure =>
      obtain ⟨hidle, hstate⟩ := hc.failed failure
      exact ⟨hidle, congrArg Except.ok hstate.symm⟩
  | none =>
      obtain ⟨n, -, hout⟩ :=
        saved_spec db (script set) held { c.counted with begun := some c.state, locked := true }
      rcases hsaved : saved db (runScript db (script set) held) { c.counted with
        begun := some c.state, locked := true }
        with ⟨result, after⟩
      rw [hsaved] at hout
      simp only at hout ⊢
      rcases hout with ⟨s, rfl, hok, herr⟩ | ⟨⟨e, rfl⟩, rfl, -⟩
      · cases result with
        | error e => exact ⟨⟨rfl, rfl, rfl⟩, rfl⟩
        | ok u =>
            simp only
            rcases committed_spec db (c := { c.counted with
              begun := some c.state, locked := true, state := s, made := n }) rfl
              with ⟨m, heq⟩ | ⟨e, c', heq, hstate⟩
            · have hgiven : given (script set) held c.state = .ok s := hok rfl
              simp only [Connection.counted] at heq ⊢
              rw [heq]
              exact ⟨⟨rfl, rfl, rfl⟩, by simp [landedAlone, hgiven]⟩
            · simp only [Connection.counted] at heq ⊢
              rw [heq]
              exact ⟨⟨rfl, rfl, rfl⟩, congrArg Except.ok hstate.symm⟩
      · exact ⟨⟨rfl, rfl, rfl⟩, rfl⟩

mutual
/-- An act run between blocks ends between blocks, the state what the sets it left landed give
alone. -/
theorem Act.run_idle (act : Act γ ε) (c : Connection σ) (hc : Idle c)
    (hk : Keeps db c (Act.run db script held act c).connection) :
    Idle (Act.run db script held act c).connection ∧
      landedAlone script held c.state (Act.run db script held act c).accepted
        = .ok (Act.run db script held act c).connection.state := by
  match act with
  | .land set => exact land_idle db script held set hc
  | .raises e => exact ⟨hc, rfl⟩
  | .caught body => exact Act.runAll_idle body c hc hk
  | .block body =>
      obtain ⟨hidle, hok, herr⟩ := block_idle db script held body hc hk
      refine ⟨hidle, ?_⟩
      cases hres : (Act.run db script held (.block body) c).result with
      | ok u => exact hok hres
      | error e =>
          obtain ⟨hstate, hnone⟩ := herr e hres
          rw [hstate, hnone]
          rfl
/-- Every program run between blocks ends between blocks, its state what the sets it left landed
give alone, in order. -/
theorem Act.runAll_idle (acts : List (Act γ ε)) (c : Connection σ) (hc : Idle c)
    (hk : Keeps db c (Act.runAll db script held acts c).connection) :
    Idle (Act.runAll db script held acts c).connection ∧
      landedAlone script held c.state (Act.runAll db script held acts c).accepted
        = .ok (Act.runAll db script held acts c).connection.state := by
  match acts with
  | [] => exact ⟨hc, rfl⟩
  | act :: rest =>
      have hact := Act.run_idle act c hc
      have hmade := Act.run_made db script held act c
      simp only [Act.runAll] at hk ⊢
      split at hk
      · next e c' accepted h => simpa [h] using hact (by rwa [h])
      · next c' accepted h =>
          rw [h] at hact hmade
          have hact := hact (hk.before (Act.runAll_made db script held rest c'))
          obtain ⟨hidle, hland⟩ := Act.runAll_idle rest c' hact.1 (hk.after hmade)
          have hfirst := hact.2
          refine ⟨hidle, ?_⟩
          simp only [landedAlone, List.foldlM_append] at hland hfirst ⊢
          rw [hfirst]
          exact hland
end

end Transaction
