/-
# `Kb.Run` — a store from its start, under any number of writers

What moves a store: a client's set landed as first drafted, on whatever the store had become by
then, the revisions its client says it read compared on the store it was drafted on or on stores
read before; a set drafted and landed while the write lock is held; a directory imported under the
lock; an entry recorded.  A writer between its draft and its landing holds what it read of an older
store and nothing else, so an interleaving of writers is a run in which each landing names the older
stores it was made from.

Operations come one to a call or several in a set; a run lets a set mix them in any way but one:
an import comes from a directory.
-/
import Kb.Brought
import Kb.Landed
import Kb.Torn
import Kb.Lib.History

namespace Kb

/-- One step of a store. -/
inductive Move where
  /-- A set drafted on one store, its entries' ids minted on another, landed as it was drafted. -/
  | asDrafted (operations : List Operation) (on minted : Tables) (moments : List Int)
      (signed : Signed)
  /-- A set landed as it was drafted, each operation with the store it was compared on before. -/
  | torn (operations : List (Operation × Tables)) (on minted : Tables) (moments : List Int)
      (signed : Signed)
  /-- A set drafted and landed while the write lock is held. -/
  | underLock (operations : List Operation) (moments : List Int) (signed : Signed)
  /-- A directory imported. -/
  | imported (directory : List File) (signed : Signed) (skipErrors : Bool) (clock again : Nat → Int)
  /-- A snapshot recorded of what was read of one store, its entry's id minted on another. -/
  | recorded (named : List (Except (List Fault) ArtifactId)) (on minted : Tables) (moment : Int)
      (signed : Signed)

namespace Move

variable (O : Outside)

/-- A set, drafted and with its entries, landed on a store. -/
def Lands (d : Drafted) (minted : Tables) (moments : List Int) (signed : Signed) (t t' : Tables) :
    Prop :=
  ∃ entries, Write.entries O d moments signed minted = .ok entries ∧
    Landing.landed t d.handed entries = .ok t'

/-- What a move makes of the newest store of those seen. -/
inductive Makes (t : Tables) (past : List Tables) : Move → Tables → Prop where
  | asDrafted {operations : List Operation} {on minted t' : Tables} {moments : List Int}
      {signed : Signed} {d : Drafted} :
      (∀ op ∈ operations, op.asked) → on ∈ t :: past → minted ∈ t :: past →
      Drafting.drafted O on operations = .ok d → d.locked = false →
      Lands O d minted moments signed t t' →
      Makes t past (.asDrafted operations on minted moments signed) t'
  | torn {operations : List (Operation × Tables)} {on minted t' : Tables} {moments : List Int}
      {signed : Signed} {d : Drafted} :
      (∀ p ∈ operations, p.1.asked ∧ p.2 ∈ t :: past) → on ∈ t :: past → minted ∈ t :: past →
      Drafting.Compared O { store := on } operations →
      Drafting.drafted O on (operations.map fun p => p.1.unsaid) = .ok d →
      d.locked = false → Lands O d minted moments signed t t' →
      Makes t past (.torn operations on minted moments signed) t'
  | underLock {operations : List Operation} {t' : Tables} {moments : List Int} {signed : Signed}
      {d : Drafted} :
      (∀ op ∈ operations, op.asked) → Drafting.drafted O t operations = .ok d →
        Lands O d t moments signed t t' →
      Makes t past (.underLock operations moments signed) t'
  | imported {directory : List File} {signed : Signed} {skipErrors : Bool}
      {clock again : Nat → Int} {t' : Tables} {report : Importing.Checked} :
      Importing.imported O t directory signed skipErrors clock again = .ok (report, t') →
      Makes t past (.imported directory signed skipErrors clock again) t'
  | recorded {named : List (Except (List Fault) ArtifactId)} {on minted t' : Tables} {moment : Int}
      {signed : Signed} {read : List Snapshotted} :
      on ∈ t :: past → minted ∈ t :: past → Query.snapshotted O on named = .ok read →
      Write.snapshot read signed moment minted t = .ok t' →
      Makes t past (.recorded named on minted moment signed) t'

/-- What a move comes to: nothing; an entry; a client's set, drafted on a store seen; a directory's,
drafted on the store it lands on. -/
inductive Comes (t : Tables) (past : List Tables) : Tables → Prop where
  | idle : Comes t past t
  | recorded {read : List Snapshotted} {signed : Signed} {moment : Int} {minted t' : Tables} :
      minted ∈ t :: past →
        Landing.Lands t []
        ((Journal.minted minted [moment] []).map (Journal.snapshot signed read)) t' →
      Comes t past t'
  | asked {operations : List Operation} {on minted t' : Tables} {moments : List Int}
      {signed : Signed} {d : Drafted} {entries : List Entry} :
      (∀ op ∈ operations, op.asked) → on ∈ t :: past → minted ∈ t :: past →
        Drafting.drafted O on operations = .ok d →
      Write.entries O d moments signed minted = .ok entries → Landing.Lands t d.handed entries t' →
      Comes t past t'
  | brought {operations : List Operation} {t' : Tables} {moments : List Int}
      {signed : Signed} {d : Drafted} {entries : List Entry} :
      (∀ op ∈ operations, ∃ name a, op = .import_ name.id a ∧ Brought O t name a) →
      Drafting.drafted O t operations = .ok d → Write.entries O d moments signed t = .ok entries →
      Landing.Lands t d.handed entries t' → Comes t past t'

variable {O}

theorem unsaid_asked {operations : List (Operation × Tables)} {stores : List Tables}
    (h : ∀ p ∈ operations, p.1.asked ∧ p.2 ∈ stores) :
    ∀ op ∈ operations.map (fun p => p.1.unsaid), op.asked := by
  intro op hop
  obtain ⟨p, hp, rfl⟩ := List.mem_map.mp hop
  exact Operation.unsaid_asked (h p hp).1

theorem Makes.comes {t t' : Tables} {past : List Tables} {move : Move}
    (h : Makes O t past move t') : Comes O t past t' := by
  cases h with
  | asDrafted hasked hon hminted hd _ hlands =>
      obtain ⟨entries, hentries, hlanded⟩ := hlands
      exact .asked hasked hon hminted hd hentries ((Landing.landed_iff ..).mp hlanded)
  | torn hasked hon hminted _ hd _ hlands =>
      obtain ⟨entries, hentries, hlanded⟩ := hlands
      exact .asked (unsaid_asked hasked) hon hminted hd hentries
        ((Landing.landed_iff ..).mp hlanded)
  | underLock hasked hd hlands =>
      obtain ⟨entries, hentries, hlanded⟩ := hlands
      exact .asked hasked List.mem_cons_self List.mem_cons_self hd hentries
        ((Landing.landed_iff ..).mp hlanded)
  | imported h =>
      rcases Importing.imported_ok h with h | ⟨operations, d, _, entries, _, hops, hd,
        hentries, hlanded⟩
      · cases h
        exact .idle
      · exact .brought hops hd hentries ((Landing.landed_iff ..).mp hlanded)
  | recorded _ hminted _ h => exact .recorded hminted ((Landing.landed_iff ..).mp h)

end Move

/-- A store as `write.start` leaves it. -/
def Fresh (O : Outside) (t : Tables) : Prop :=
  ∃ role execution moment, Start.started O role execution moment = .ok t

/-- Runs of a store whose moves all meet a condition, newest store first. -/
abbrev RunWhere (O : Outside) (allowed : Tables → List Tables → Move → Prop) : List Tables → Prop :=
  History.Run (Fresh O) fun t past t' => ∃ move, allowed t past move ∧ Move.Makes O t past move t'

/-- Runs of a store, newest store first. -/
abbrev Run (O : Outside) : List Tables → Prop :=
  RunWhere O fun _ _ _ => True

theorem RunWhere.run {O : Outside} {allowed : Tables → List Tables → Move → Prop}
    {states : List Tables} (h : RunWhere O allowed states) : Run O states :=
  h.mono fun _ _ _ ⟨move, _, hmove⟩ => ⟨move, trivial, hmove⟩

namespace Move

/-- A move whose set, as it is drafted, hands changes that meet a condition on the store it
moves. -/
def Hands (O : Outside) (P : Tables → List Change → Prop) (t : Tables) (_past : List Tables) :
    Move → Prop
  | .asDrafted operations on _ _ _ => ∀ d, Drafting.drafted O on operations = .ok d → P t d.handed
  | .torn operations on _ _ _ =>
      ∀ d, Drafting.drafted O on (operations.map fun p => p.1.unsaid) = .ok d → P t d.handed
  | .underLock operations _ _ => ∀ d, Drafting.drafted O t operations = .ok d → P t d.handed
  | .imported directory _ _ _ _ => ∀ operations, Importing.brings O t directory = .ok operations →
      ∀ d, Drafting.drafted O t operations = .ok d → P t d.handed
  | .recorded .. => True

/-- Such a move leaves the store as it was, or lands changes that meet it. -/
theorem Makes.hands {O : Outside} {P : Tables → List Change → Prop} {t t' : Tables}
    {past : List Tables} {move : Move} (h : Makes O t past move t') (hmove : move.Hands O P t past)
    (hnone : P t []) :
    t' = t ∨ ∃ changes entries, Landing.Lands t changes entries t' ∧ P t changes := by
  cases h with
  | asDrafted _ _ _ hd _ hlands =>
      obtain ⟨entries, _, hlanded⟩ := hlands
      exact Or.inr ⟨_, entries, (Landing.landed_iff ..).mp hlanded, hmove _ hd⟩
  | torn _ _ _ _ hd _ hlands =>
      obtain ⟨entries, _, hlanded⟩ := hlands
      exact Or.inr ⟨_, entries, (Landing.landed_iff ..).mp hlanded, hmove _ hd⟩
  | underLock _ hd hlands =>
      obtain ⟨entries, _, hlanded⟩ := hlands
      exact Or.inr ⟨_, entries, (Landing.landed_iff ..).mp hlanded, hmove _ hd⟩
  | imported h =>
      rcases Importing.imported_ok h with h | ⟨operations, d, _, entries, hbrings, _,
        hd, _, hlanded⟩
      · cases h
        exact Or.inl rfl
      · exact Or.inr ⟨_, entries, (Landing.landed_iff ..).mp hlanded, hmove operations hbrings d hd⟩
  | recorded _ _ _ h => exact Or.inr ⟨_, _, (Landing.landed_iff ..).mp h, hnone⟩

end Move

/-! ## What every change keeps -/

/-- A fresh store is what landing the type of types in an empty one leaves. -/
theorem Fresh.landed {O : Outside} {t : Tables} (h : Fresh O t) :
    ∃ role execution digest moment, Journal.digest O Start.METASCHEMA = .ok digest ∧
      Landing.Lands {} [Start.created O] [Start.entry role execution digest moment] t := by
  obtain ⟨role, execution, moment, hstart⟩ := h
  obtain ⟨digest, hdigest, hlanded⟩ := Start.started_ok hstart
  exact ⟨role, execution, digest, moment, hdigest, (Landing.landed_iff ..).mp hlanded⟩

/-- What empty tables have and every change written keeps, the sets and the entries aside, every
store of a run has. -/
theorem Run.kept {O : Outside} {I : Tables → Prop} (hempty : I {})
    (hrest : ∀ t sets lastSet entries, I t → I { t with sets, lastSet, entries })
    (hwrote : ∀ t landed step c, I t → I (t.wrote landed step c)) {states : List Tables}
    (h : Run O states) : ∀ t ∈ states, I t := by
  refine History.Run.invariant ?_ ?_ h
  · intro t ht
    obtain ⟨_, _, _, _, _, hlands⟩ := ht.landed
    exact hlands.kept hrest hwrote hempty
  · rintro t past t' _ hpast ⟨_, _, hmove⟩
    have ht : I t := hpast t List.mem_cons_self
    cases hmove.comes with
    | idle => exact ht
    | recorded _ h => exact h.kept hrest hwrote ht
    | asked _ _ _ _ _ h => exact h.kept hrest hwrote ht
    | brought _ _ _ h => exact h.kept hrest hwrote ht

/-! ## A store in use

Runs of sets landed one after another under the lock, made by computing each store from the one
before. -/

namespace Sample

/-- What lies outside the code, so far as the runs below ask: content that fits its schema, whole
numbers kept as they are written. -/
def outside : Outside where
  errors _ _ _ := .ok []
  dump d := .ok (String.join (d.map fun e => e.1.str ++ ": " ++ e.2.str ++ "\n"))
  load _ := .error "not read"
  words text := text
  digest text := text
  depth := 9
  keptAs text := match text.toInt? with
    | some n => .int n
    | none => .text text
  ordered ns := ns
  next w := w

def signed : Signed := ⟨"role", "execution", "message"⟩

/-- The store a set drafted on one store leads to when it lands on another, every entry of it at one
moment. -/
def landedFrom (on : Tables) (operations : List Operation) (moment : Int) (t : Tables) :
    Raises Tables := do
  let d ← Drafting.drafted outside on operations
  let entries ← Write.entries outside d (List.replicate d.changes.length moment) signed t
  Landing.landed t d.handed entries

/-- The stores a run of sets passes through, newest first, the sets newest first too. -/
def ran : List (List Operation) → Option (List Tables)
  | [] => (Start.started outside "role" "execution" 0).toOption.map fun t => [t]
  | operations :: sets => (ran sets).bind fun
      | [] => none
      | t :: past =>
          (landedFrom t operations (past.length + 1) t).toOption.map fun t' => t' :: t :: past

/-- The stores of a run of sets each of which lands. -/
def stores (sets : List (List Operation)) : List Tables := (ran sets).getD []

/-- The store a run of sets ends at. -/
def store (sets : List (List Operation)) : Tables := (stores sets).headD {}

theorem toOption_some {α : Type} {x : Raises α} {a : α} (h : x.toOption = some a) : x = .ok a := by
  cases x with
  | error e => nomatch h
  | ok b => exact congrArg _ (Option.some.inj h)

theorem landedFrom_ok {on t t' : Tables} {operations : List Operation} {moment : Int}
    (h : landedFrom on operations moment t = .ok t') :
    ∃ d entries, Drafting.drafted outside on operations = .ok d ∧
      Write.entries outside d (List.replicate d.changes.length moment) signed t = .ok entries ∧
      Landing.landed t d.handed entries = .ok t' := by
  obtain ⟨d, hd, h⟩ := Raising.bind_ok.mp h
  obtain ⟨entries, hentries, h⟩ := Raising.bind_ok.mp h
  exact ⟨d, entries, hd, hentries, h⟩

/-- A run of sets asked for is a run whose moves meet any condition those sets do. -/
theorem ran_where {allowed : Tables → List Tables → Move → Prop} {sets : List (List Operation)}
    (hasked : ∀ operations ∈ sets, ∀ op ∈ operations, op.asked)
    (hallowed : ∀ operations ∈ sets, ∀ t past moments,
      allowed t past (.underLock operations moments signed))
    {states : List Tables} (h : ran sets = some states) : RunWhere outside allowed states := by
  induction sets generalizing states with
  | nil =>
      obtain ⟨t, ht, rfl⟩ := Option.map_eq_some_iff.mp h
      exact .start ⟨"role", "execution", 0, toOption_some ht⟩
  | cons operations sets ih =>
      obtain ⟨seen, hseen, h⟩ := Option.bind_eq_some_iff.mp h
      have hrun := ih (fun ops hops => hasked ops (List.mem_cons_of_mem _ hops))
        (fun ops hops => hallowed ops (List.mem_cons_of_mem _ hops)) hseen
      rcases seen with _ | ⟨t, past⟩
      · nomatch h
      obtain ⟨t', ht', rfl⟩ := Option.map_eq_some_iff.mp h
      obtain ⟨d, entries, hd, hentries, ht'⟩ := landedFrom_ok (toOption_some ht')
      exact .step hrun ⟨_, hallowed _ List.mem_cons_self _ _ _,
        .underLock (hasked _ List.mem_cons_self) hd ⟨entries, hentries, ht'⟩⟩

theorem stores_where {allowed : Tables → List Tables → Move → Prop} {sets : List (List Operation)}
    (hasked : ∀ operations ∈ sets, ∀ op ∈ operations, op.asked)
    (hallowed : ∀ operations ∈ sets, ∀ t past moments,
      allowed t past (.underLock operations moments signed))
    (h : (ran sets).isSome = true) : RunWhere outside allowed (stores sets) := by
  obtain ⟨states, hstates⟩ := Option.isSome_iff_exists.mp h
  have hstores : stores sets = states := by simp [stores, hstates]
  exact hstores ▸ ran_where hasked hallowed hstates

theorem start_where {allowed : Tables → List Tables → Move → Prop} (h : (ran []).isSome = true) :
    RunWhere outside allowed [store []] := by
  obtain ⟨states, hstates⟩ := Option.isSome_iff_exists.mp h
  obtain ⟨t, ht, rfl⟩ := Option.map_eq_some_iff.mp hstates
  have hstore : store [] = t := by simp [store, stores, hstates]
  rw [hstore]
  exact .start ⟨"role", "execution", 0, toOption_some ht⟩

theorem stores_run {sets : List (List Operation)}
    (hasked : ∀ operations ∈ sets, ∀ op ∈ operations, op.asked) (h : (ran sets).isSome = true) :
    Run outside (stores sets) :=
  stores_where hasked (fun _ _ _ _ _ => trivial) h

theorem stores_cons {operations : List Operation} {sets : List (List Operation)}
    (h : (ran (operations :: sets)).isSome = true) :
    stores (operations :: sets) = store (operations :: sets) :: stores sets := by
  obtain ⟨states, hstates⟩ := Option.isSome_iff_exists.mp h
  obtain ⟨seen, hseen, hran⟩ := Option.bind_eq_some_iff.mp hstates
  rcases seen with _ | ⟨t, past⟩
  · nomatch hran
  obtain ⟨t', _, rfl⟩ := Option.map_eq_some_iff.mp hran
  simp [store, stores, hstates, hseen]

theorem store_mem {sets : List (List Operation)} (h : (stores sets).isEmpty = false) :
    store sets ∈ stores sets := by
  unfold store
  cases hs : stores sets with
  | nil => simp [hs] at h
  | cons t past => exact List.mem_cons_self

/-- The store one set leads to from a new one, where what lies outside the code is given. -/
def ranWith (O : Outside) (operations : List Operation) : Option (List Tables) := (do
  let t ← Start.started O "role" "execution" 0
  let d ← Drafting.drafted O t operations
  let entries ← Write.entries O d (List.replicate d.changes.length 1) signed t
  .ok [← Landing.landed t d.handed entries, t] : Raises _).toOption

def storeWith (O : Outside) (operations : List Operation) : Tables :=
  ((ranWith O operations).getD []).headD {}

theorem storeWith_where {O : Outside} {allowed : Tables → List Tables → Move → Prop}
    {operations : List Operation} (hasked : ∀ op ∈ operations, op.asked)
    (hallowed : ∀ t past moments, allowed t past (.underLock operations moments signed))
    (h : (ranWith O operations).isSome = true) :
    ∃ states, RunWhere O allowed states ∧ storeWith O operations ∈ states := by
  obtain ⟨states, hstates⟩ := Option.isSome_iff_exists.mp h
  obtain ⟨t, ht, hrest⟩ := Raising.bind_ok.mp (toOption_some hstates)
  obtain ⟨d, hd, hrest⟩ := Raising.bind_ok.mp hrest
  obtain ⟨entries, hentries, hrest⟩ := Raising.bind_ok.mp hrest
  obtain ⟨t', hlanded, hrest⟩ := Raising.bind_ok.mp hrest
  cases hrest
  refine ⟨[t', t], .step (.start ⟨_, _, _, ht⟩) ⟨.underLock operations _ signed, hallowed _ _ _,
    .underLock hasked hd ⟨entries, hentries, hlanded⟩⟩, ?_⟩
  rw [storeWith, hstates]
  exact List.mem_cons_self

theorem storeWith_run {O : Outside} {operations : List Operation}
    (hasked : ∀ op ∈ operations, op.asked) (h : (ranWith O operations).isSome = true) :
    ∃ states, Run O states ∧ storeWith O operations ∈ states :=
  storeWith_where hasked (fun _ _ _ => trivial) h

end Sample

end Kb
