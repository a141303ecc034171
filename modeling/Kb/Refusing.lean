/-
# `Kb.Refusing` — a refusal names a fault

An operation refused as it acts comes to the faults it was refused with, and a set whose operations
have no fault is accepted; so a refusal with no fault would let an operation be left out of a set
that lands.  No replacement, addition or removal is: whatever its reading raises is no refusal, or
names at least one fault.
-/
import Kb.Acting
import Kb.Brought
import Kb.Ending

namespace Kb

open Raising

/-- A call that is refused, when it is, with a fault. -/
abbrev Telling {α : Type} (x : Raises α) : Prop := Only (fun e => e ≠ .refused []) x

theorem misshapen_telling {α : Type} : Telling (.error .misshapen : Raises α) := .error nofun

theorem missing_telling {α : Type} (name : String) : Telling (.error (.missing name) : Raises α) :=
  .error nofun

namespace Value

theorem get_telling (v : Value) (name : String) (default : Value) : Telling (v.get name default) :=
  get_only nofun v name default

theorem at_telling (v : Value) (name : String) : Telling (v.at_ name) := by
  cases v with
  | map d =>
      unfold at_
      dsimp only
      split
      · exact .ok _
      · exact .error nofun
  | _ => exact .error nofun

theorem iter_telling (v : Value) : Telling v.iter :=
  iter_only nofun v

theorem holds_telling (v : Value) (text : String) : Telling (v.holds text) := by
  unfold holds
  split <;> first | exact .ok _ | exact .error nofun

end Value

theorem Artifact.at_telling (a : Artifact) (name : String) : Telling (a.at_ name) := by
  unfold Artifact.at_
  split
  · exact .ok _
  · exact .error nofun

namespace Composition

variable (O : Outside) (corpus : Corpus)

theorem versionSchema_telling (version : Version) : Telling (versionSchema corpus version) := by
  unfold versionSchema
  split
  · exact .error nofun
  · exact .ok _

theorem composition_telling (depth : Nat) (schema : Value) :
    Telling (composition corpus depth schema) := by
  induction depth generalizing schema with
  | zero => exact .error nofun
  | succ depth ih => exact composition_only nofun (fun _ => nofun) (fun _ => nofun) fun s _ => ih s

theorem declared_telling (schema : Value) : Telling (declared O corpus schema) :=
  declared_only nofun (composition_telling corpus _ schema)

theorem inner_telling (part : Value) : Telling (inner O corpus part) :=
  (Value.get_telling _ _ _).bind fun schema _ =>
    (declared_telling O corpus schema).bind fun _ _ => .ok _

theorem declaredAt_telling (held : Declared) (place : List String) :
    Telling (declaredAt O corpus held place) := by
  induction place generalizing held with
  | nil => exact .ok _
  | cons collection rest ih =>
      exact (Value.get_telling _ _ _).bind fun schema _ =>
        (declared_telling O corpus schema).bind fun inside _ => ih inside

end Composition

namespace Settled

theorem listed_telling {each : Value → Raises Value} (heach : ∀ v, Telling (each v)) (v : Value) :
    Telling (listed each v) := by
  unfold listed
  split
  · exact (Only.mapM fun v _ => heach v).map _
  · exact .ok _

theorem item_telling {itemSchema : Raises Value} (hschema : Telling itemSchema) (v : Value) :
    Telling (item itemSchema v) := by
  refine hschema.bind fun schema _ => ?_
  split
  · refine (Value.get_telling _ _ _).bind fun v _ => (Value.iter_telling v).bind fun names _ => ?_
    refine (Only.mapM fun name _ => ?_).bind fun fields _ => .ok _
    split
    · exact .ok _
    · exact .error nofun
  · exact .ok _

theorem order_telling (a : Artifact) (declared : Declared) : Telling (order a declared) := by
  have hrest : ∀ {collect : Dict → Scalar × Value → Raises Dict},
      (∀ ordered part, Telling (collect ordered part)) →
      ∀ sections, Telling (List.foldlM collect sections declared.parts >>= fun content =>
          .ok { a with content }) :=
    fun hcollect _ =>
      (Only.foldlM (fun ordered part _ => hcollect ordered part) _).bind fun content _ => .ok _
  simp only [order]
  split
  · refine (Only.ok _).bind fun sections _ => hrest (fun ordered part => ?_) sections
    split
    · exact .ok _
    · exact (listed_telling (item_telling (Value.at_telling _ _)) _).map _
  · refine ((listed_telling (fun _ => .ok _) _).map _).bind fun sections _ =>
      hrest (fun ordered part => ?_) sections
    split
    · exact .ok _
    · exact (listed_telling (item_telling (Value.at_telling _ _)) _).map _

end Settled

namespace ItemNames

theorem itemsIn_telling {each : Dict → Raises Dict} (heach : ∀ es, Telling (each es))
    (vs : List Value) (place : Nat) (taken : List Value) :
    Telling (itemsIn each vs place taken) := by
  induction vs generalizing place taken with
  | nil => exact .ok _
  | cons v rest ih =>
      cases v with
      | map es => exact (heach _).bind fun inside _ => (ih _ _).bind fun _ _ => .ok _
      | scalar s => exact (ih _ _).bind fun _ _ => .ok _
      | list vs => exact (ih _ _).bind fun _ _ => .ok _

theorem items_telling {inner : Value → Raises Dict} (hinner : ∀ v, Telling (inner v)) (depth : Nat)
    (parts node : Dict) :
    Telling (items inner depth parts node) := by
  induction depth generalizing parts node with
  | zero => exact .error nofun
  | succ depth ih =>
      refine .foldlM (fun node part _ => ?_) _
      split
      · refine (itemsIn_telling (fun es => ?_) _ _ _).bind fun _ _ => .ok _
        exact (hinner _).bind fun parts _ => ih parts es
      · exact .ok _

theorem handedBackIn_telling {here : String} {had : String → Option Dict}
    {each : Nat → Dict → Dict → Raises (List Misnamed)}
    (heach : ∀ index es was, Telling (each index es was)) (vs : List Value) (index : Nat)
    (seen : List String) :
    Telling (handedBackIn here had each vs index seen) := by
  induction vs generalizing index seen with
  | nil => exact .ok _
  | cons v rest ih =>
      cases v with
      | map es => exact (heach _ _ _).bind fun inside _ => (ih _ _).bind fun _ _ => .ok _
      | scalar s => exact ih _ _
      | list vs => exact ih _ _

theorem handedBack_telling {inner : Value → Raises Dict}
    (hinner : ∀ v, Telling (inner v)) (depth : Nat) (parts node before : Dict)
    (under : List String) : Telling (handedBack inner depth parts node before under) := by
  induction depth generalizing parts node before under with
  | zero => exact .error nofun
  | succ depth ih =>
      refine (Only.mapM fun part _ => ?_).bind fun _ _ => .ok _
      refine handedBackIn_telling (fun index es was => ?_) _ _ _
      exact (hinner _).bind fun parts _ => ih _ _ _ _

end ItemNames

namespace Naming

open Kb.Composition

variable (O : Outside) (d : Draft)

theorem revised_telling (id : ArtifactId) (declared : Declared) (content current : Dict) :
    Telling (revised O d id declared content current) := by
  refine (ItemNames.handedBack_telling (inner_telling O d.corpus) _ _ _ _ _).bind fun misnamed _ =>
    ?_
  split
  · exact (ItemNames.items_telling (inner_telling O d.corpus) _ _ _).bind fun _ _ => .ok _
  · exact .ok _

theorem numbered_telling (type : ArtifactId) (content : Dict) :
    Telling (numbered O d type content) := by
  have hplus : ∀ last : Value, Telling (do
      let next ← Draft.plusOne O last
      .ok (next, { d with numbers := Assoc.set d.numbers type next }) :
          Raises (Scalar × Draft)) := by
    intro last
    refine Only.bind ?_ fun next _ => .ok _
    unfold Draft.plusOne
    split <;> first | exact .ok _ | exact misshapen_telling
  refine Only.bind ?_ fun out _ => .ok _
  simp only [Draft.numbered]
  split
  · split
    · exact (Only.ok _).bind fun last _ => hplus last
    · split
      · exact (Artifact.at_telling _ _).bind fun last _ => hplus last
      · exact (missing_telling _).bind fun last _ => hplus last
  · exact (Only.ok _).bind fun last _ => hplus last

end Naming

namespace Edits

open Kb.Composition

variable (O : Outside) (d : Draft)

theorem refuse_telling {α : Type} {fs : List Fault} (h : fs ≠ []) :
    Telling (refuse fs : Raises α) :=
  .error fun e => h (Error.refused.inj e)

theorem current_telling (id : ArtifactId) : Telling (current d id) := by
  unfold current
  split
  · exact .ok _
  · exact .error nofun

theorem asRead_telling (id : ArtifactId) (expected : Option Int) :
    Telling (asRead d id expected) := by
  simp only [asRead]
  split
  · exact (refuse_telling (by simp)).bind fun _ _ => Only.bind (current_telling d id) fun a _ => by
      split
      · exact .ok _
      · split
        · exact .ok _
        · exact refuse_telling (by simp)
  · refine (current_telling d id).bind fun a _ => ?_
    split
    · exact .ok _
    · split
      · exact .ok _
      · exact refuse_telling (by simp)

theorem entries_telling (v : Value) : Telling (entries v) := by
  unfold entries
  split
  · exact .ok _
  · exact .error nofun

theorem revise_telling (id : ArtifactId) (now : Artifact) (content : Dict) (version : Version) :
    Telling (revise O d id now content version) := by
  refine (versionSchema_telling _ _).bind fun type _ =>
    (Artifact.at_telling type _).bind fun schema _ => ?_
  refine (declared_telling O _ schema).bind fun whole _ =>
    (Naming.revised_telling O d id whole _ _).bind fun named _ => ?_
  dsimp only
  split
  · refine (Naming.numbered_telling O d id _).bind fun out _ => ?_
    exact (Settled.order_telling _ _).bind fun _ _ => .ok _
  · exact (Only.ok _).bind fun out _ => (Settled.order_telling _ _).bind fun _ _ => .ok _

theorem endsAt_telling (id : ArtifactId) (now : Artifact) (named : Option Version) :
    Telling (endsAt d id now named) := by
  unfold endsAt
  split
  · exact .ok _
  · split
    · exact .ok _
    · exact refuse_telling (by simp)

theorem resolve_telling (content : Dict) (locator : Locator) :
    Telling (resolve content locator) := by
  unfold resolve
  split
  · exact refuse_telling (by simp)
  · split
    · exact refuse_telling (by simp)
    · exact .ok _

theorem placed_telling (now : Artifact) (locator : Locator) (node : Value) :
    Telling (placed now locator node) := by
  refine (resolve_telling _ _).bind fun spot _ => ?_
  split
  · exact .ok _
  · dsimp only
    split
    · exact (Only.ok _).bind fun _ _ => .ok _
    · exact (entries_telling _).bind fun _ _ => (Only.ok _).bind fun _ _ => .ok _

theorem refusal_telling {α : Type} (content : Content) (artifact : String)
    (h : ¬content.problems.isEmpty = true) :
    Telling (refuse (content.refusal artifact) : Raises α) := by
  refine refuse_telling fun e => h ?_
  simpa [Content.refusal] using e

theorem replace_telling (locator : Locator) (content : Content) (expected : Option Int)
    (version : Option Version) :
    Telling (replace O d locator content expected version) := by
  refine (asRead_telling d _ _).bind fun _ _ => ?_
  dsimp only
  have hend : ∀ (now : Artifact) (tree : Dict), Telling (do
      let out ← revise O d locator.id now tree (← endsAt d locator.id now version)
      .ok { op := .write, path := Names.placed locator.place, faults := out.2.1, draft := out.1 } :
          Raises Put) := fun now tree =>
    (endsAt_telling d _ _ _).bind fun v _ => (revise_telling O d _ _ _ _).bind fun _ _ => .ok _
  have hrest : Telling (do
      let now ← current d locator.id
      let tree ← if locator.place.isEmpty then entries content.tree
        else placed now locator content.tree
      let out ← revise O d locator.id now tree (← endsAt d locator.id now version)
      .ok { op := .write, path := Names.placed locator.place, faults := out.2.1, draft := out.1 } :
          Raises Put) := by
    refine (current_telling d _).bind fun now _ => ?_
    dsimp only
    split
    · exact (entries_telling _).bind fun tree _ => hend now tree
    · exact (placed_telling _ _ _).bind fun tree _ => hend now tree
  split
  · next h => exact (refusal_telling content _ (by simpa using h)).bind fun _ _ => hrest
  · exact hrest

theorem collectionsAt_telling (now : Artifact) (locator : Locator) :
    Telling (collectionsAt O d now locator) := by
  refine (versionSchema_telling _ _).bind fun type _ =>
    (Artifact.at_telling type _).bind fun schema _ => ?_
  exact (declared_telling O _ _).bind fun whole _ =>
    (declaredAt_telling O _ _ _).bind fun _ _ => .ok _

theorem itemName_telling (item : Value) : Telling (itemName item) := by
  refine (Value.holds_telling _ _).bind fun has _ => ?_
  split
  · exact .ok _
  · refine (Value.at_telling _ _).bind fun name _ => ?_
    split
    · exact .ok _
    · exact .error nofun

theorem append_telling (locator : Locator) (item : Content) (expected : Option Int) :
    Telling (append O d locator item expected) := by
  refine (asRead_telling d _ _).bind fun _ _ => ?_
  dsimp only
  split
  · next h => exact (refusal_telling item _ (by simpa using h)).bind fun _ h => nomatch h
  split
  · exact (refuse_telling (by simp)).bind fun _ h => nomatch h
  refine (current_telling d _).bind fun now _ => (resolve_telling _ _).bind fun spot _ => ?_
  split
  · exact (collectionsAt_telling O d _ _).bind fun _ _ => refuse_telling (by simp)
  · refine (collectionsAt_telling O d _ _).bind fun collections _ => ?_
    split
    · exact (refuse_telling (by simp)).bind fun _ h => nomatch h
    have hend : ∀ (tree : Dict) (added : Draft × List Fault × Dict → Value), Telling (do
        let out ← revise O d locator.id now tree now.type
        let name ← itemName (added out)
        .ok { op := .append, path := Names.placed (locator.place ++ name.toList),
              item := name.getD "", faults := out.2.1,
              draft := out.1 } : Raises Put) := fun tree added =>
      (revise_telling O d _ _ _ _).bind fun out _ => (itemName_telling _).bind fun _ _ => .ok _
    split
    · exact (Only.ok _).bind fun items _ => hend _ _
    · exact (Only.ok _).bind fun items _ => hend _ _
    · exact (refuse_telling (by simp)).bind fun _ h => nomatch h

theorem delete_telling (locator : Locator) (expected : Option Int) :
    Telling (delete d locator expected) := by
  refine (asRead_telling d _ _).bind fun _ _ => ?_
  dsimp only
  split
  · exact (refuse_telling (by simp)).bind fun _ h => nomatch h
  · exact (current_telling d _).bind fun _ _ => .ok _

/-- Whether an operation changes an artifact it says a client has read, and which, at which
revision. -/
def asks : Operation → Option (ArtifactId × Int)
  | .replace locator _ expected _ | .add locator _ expected | .remove locator expected =>
      expected.map fun r => (locator.id, r)
  | _ => none

/-- A refusal taken as what an operation came to has a fault, when the refusals below it have. -/
theorem settle_telling {d : Draft} {x : Raises (Draft × Outcome)} (htell : Telling x)
    (hout : ∀ out, x = .ok out → out.2 ≠ .faults []) :
    Telling (settle d x) ∧ ∀ out, settle d x = .ok out → out.2 ≠ .faults [] := by
  unfold settle
  split
  · next fs =>
      refine ⟨.ok _, fun out hout hnil => ?_⟩
      rw [← Except.ok.inj hout] at hnil
      exact htell _ rfl (congrArg _ (Outcome.faults.inj hnil))
  · exact ⟨htell, hout⟩

/-- An operation that says what its client read is refused with a fault or is a change. -/
theorem acted_asking {op : Operation} {asked : ArtifactId × Int} (hop : asks op = some asked)
    {out : Draft × Outcome} (h : acted O d op = .ok out) : out.2 ≠ .faults [] := by
  have hput : ∀ {x : Raises (ArtifactId × Put)}, Telling x → acted O d op = settle d (do
      let p ← x
      let left ← current p.2.draft p.1
      settle p.2.draft do
        let acted ← conformed p.2.draft.corpus left
        .ok (p.2.draft, .change
          ⟨p.2.op, p.1, p.2.path, p.2.item, left.revision, left.type, some left, some acted,
            p.2.faults⟩)) →
      out.2 ≠ .faults [] := by
    intro x hx he
    rw [he] at h
    have hinner : ∀ (id : ArtifactId) (put : Put) (left : Artifact), _ := fun id put left =>
      settle_telling (d := put.draft) (x := do
        let acted ← conformed put.draft.corpus left
        .ok (put.draft, .change
          ⟨put.op, id, put.path, put.item, left.revision, left.type, some left,
            some acted, put.faults⟩))
        ((versionSchema_telling _ _).bind fun _ _ => .ok _) (by
          intro out hout
          obtain ⟨_, _, hout⟩ := bind_ok.mp hout
          cases hout
          nofun)
    refine (settle_telling ?_ ?_).2 out h
    · exact hx.bind fun p _ => (current_telling _ _).bind fun left _ => (hinner p.1 p.2 left).1
    · intro out hout
      obtain ⟨p, _, hout⟩ := bind_ok.mp hout
      obtain ⟨left, _, hout⟩ := bind_ok.mp hout
      exact (hinner p.1 p.2 left).2 out hout
  cases op with
  | remove locator expected =>
      refine (settle_telling ?_ ?_).2 out h
      · exact (delete_telling d locator expected).bind fun _ _ => .ok _
      · intro out hout
        obtain ⟨_, _, hout⟩ := bind_ok.mp hout
        cases hout
        nofun
  | replace locator content expected version =>
      exact hput ((replace_telling O d locator content expected version).bind fun _ _ => .ok _) rfl
  | add locator item expected =>
      exact hput ((append_telling O d locator item expected).bind fun _ _ => .ok _) rfl
  | _ => nomatch hop

/-- An operation that came to no change and no fault left the draft as it was. -/
theorem acted_nothing {op : Operation} {d' : Draft} (h : acted O d op = .ok (d', .faults [])) :
    d' = d := by
  have hsettle : ∀ {x : Raises (Draft × Outcome)}, (∀ d₁, x ≠ .ok (d₁, .faults [])) →
      settle d x = .ok (d', .faults []) →
      d' = d := by
    intro x hx h
    unfold settle at h
    split at h
    · cases h
      rfl
    · exact absurd h (hx _)
  have hput : ∀ {x : Raises (ArtifactId × Put)}, acted O d op = settle d (do
      let p ← x
      let left ← current p.2.draft p.1
      settle p.2.draft do
        let acted ← conformed p.2.draft.corpus left
        .ok (p.2.draft, .change
          ⟨p.2.op, p.1, p.2.path, p.2.item, left.revision, left.type, some left, some acted,
              p.2.faults⟩)) → d' = d := by
    intro x he
    rw [he] at h
    refine hsettle (fun d₁ hx => ?_) h
    obtain ⟨⟨id, put⟩, _, hx⟩ := bind_ok.mp hx
    obtain ⟨left, _, hx⟩ := bind_ok.mp hx
    refine (settle_telling (d := put.draft) (x := do
        let acted ← conformed put.draft.corpus left
        .ok (put.draft, .change
          ⟨put.op, id, put.path, put.item, left.revision, left.type, some left,
            some acted, put.faults⟩))
        ((versionSchema_telling _ _).bind fun _ _ => .ok _) ?_).2 _ hx rfl
    intro out hout
    obtain ⟨_, _, hout⟩ := bind_ok.mp hout
    cases hout
    nofun
  cases op with
  | refusal fs =>
      cases h
      rfl
  | remove locator expected =>
      refine hsettle (fun d₁ hx => ?_) h
      obtain ⟨_, _, hx⟩ := bind_ok.mp hx
      nomatch hx
  | create => exact hput rfl
  | replace => exact hput rfl
  | add => exact hput rfl
  | import_ => exact hput rfl

end Edits

/-! ## A set's operations, one after another -/

namespace Drafting

open Edits

/-- The operations of a set none of which is at fault, in order: each changes the draft, or comes to
nothing, which no operation that says what its client read does. -/
inductive Ran (O : Outside) : Draft → List Operation → Draft → List Done → Prop where
  | nil (d : Draft) : Ran O d [] d []
  | idle {d d' : Draft} {op : Operation} {operations : List Operation} {changes : List Done} :
      asks op = none → Ran O d operations d' changes → Ran O d (op :: operations) d' changes
  | cons {d d₁ d' : Draft} {op : Operation} {c : Done} {operations : List Operation}
      {changes : List Done} :
      Acts O d op d₁ c → Ran O d₁ operations d' changes →
        Ran O d (op :: operations) d' (c :: changes)

variable {O : Outside}

theorem ran_of_actedAll {d left : Draft} {operations : List Operation} {outcomes : List Outcome}
    (h : actedAll O d operations = .ok (left, outcomes))
    (hf : ∀ o ∈ outcomes, o = .faults [] ∨ ∃ c, o = .change c) :
    Ran O d operations left (changesOf outcomes) := by
  induction operations generalizing d outcomes with
  | nil =>
      cases h
      exact .nil _
  | cons op rest ih =>
      obtain ⟨⟨d₁, outcome⟩, hacted, h⟩ := bind_ok.mp h
      obtain ⟨⟨d₂, outcomes'⟩, hrest, h⟩ := bind_ok.mp h
      cases h
      have hrest' := ih hrest fun o ho => hf o (List.mem_cons_of_mem _ ho)
      rcases hf outcome List.mem_cons_self with rfl | ⟨c, rfl⟩
      · have hd := acted_nothing O _ hacted
        subst hd
        refine .idle ?_ hrest'
        cases ha : asks op with
        | none => rfl
        | some asked => exact absurd rfl (acted_asking O _ ha hacted)
      · exact .cons (acted_ok hacted) hrest'

/-- The operations of a set that drafts. -/
theorem Passes.ran {t : Tables} {operations : List Operation} {d : Drafted} {left : Draft}
    {outcomes : List Outcome} {read : List Int} {plain : List Change}
    (h : Passes O t operations d left outcomes read plain) :
    Ran O { store := t } (byNumber operations) left (changesOf outcomes) := by
  refine ran_of_actedAll h.acted fun o ho => ?_
  cases o with
  | change c => exact Or.inr ⟨c, rfl⟩
  | faults fs => exact Or.inl (by rw [Except.ok.inj (h.faultless _ ho)])

/-- What every change keeps of the draft, a set of them keeps, and holds where each of them acts. -/
theorem Ran.invariant {I : Draft → Prop} {P : Done → Prop} {d d' : Draft}
    {operations : List Operation} {changes : List Done}
    (h : Ran O d operations d' changes) (hd : I d) (hstep : ∀ op ∈ operations, ∀ d d₁ c, I d →
      Acts O d op d₁ c → I d₁ ∧ P c) : I d' ∧ ∀ c ∈ changes, P c := by
  induction h with
  | nil => exact ⟨hd, nofun⟩
  | idle _ _ ih => exact ih hd fun op hop => hstep op (List.mem_cons_of_mem _ hop)
  | cons hacts _ ih =>
      obtain ⟨hd₁, hc⟩ := hstep _ List.mem_cons_self _ _ _ hd hacts
      obtain ⟨hd', hcs⟩ := ih hd₁ fun op hop => hstep op (List.mem_cons_of_mem _ hop)
      refine ⟨hd', fun c' hc' => ?_⟩
      rcases List.mem_cons.mp hc' with rfl | hc'
      · exact hc
      · exact hcs c' hc'

/-- A set's draft reads the store it was drafted on, to its end. -/
theorem Passes.store {t : Tables} {operations : List Operation} {d : Drafted} {left : Draft}
    {outcomes : List Outcome} {read : List Int} {plain : List Change}
    (h : Passes O t operations d left outcomes read plain) :
    left.store = t ∧ d.draft.store = t := by
  have hleft : left.store = t :=
    (h.ran.invariant (I := fun d => d.store = t) (P := fun _ => True) rfl
    fun _ _ _ _ _ hd hacts => ⟨hacts.store.trans hd, trivial⟩).1
  have hversioned : ∀ {cs : List (Done × Bool)} {d d' : Draft} {cs' : List Done},
      versionedAll O d cs = .ok (d', cs') →
      d'.store = d.store := by
    intro cs
    induction cs with
    | nil =>
        intro d d' cs' h
        cases h
        rfl
    | cons p rest ih =>
        intro d d' cs' h
        obtain ⟨⟨d₁, c⟩, hc, h⟩ := bind_ok.mp h
        obtain ⟨⟨d₂, cs⟩, hcs, h⟩ := bind_ok.mp h
        cases h
        rcases (Handing.versioned_ok hc).2 with rfl | ⟨_, a, _, rfl⟩
        · exact ih hcs
        · rw [ih hcs, Draft.put_store]
  exact ⟨hleft, (hversioned h.versioned).trans hleft⟩

theorem Ran.append {d d' : Draft} {first rest : List Operation} {changes : List Done}
    (h : Ran O d (first ++ rest) d' changes) :
    ∃ d₁ before after, Ran O d first d₁ before ∧ Ran O d₁ rest d' after ∧
      changes = before ++ after := by
  induction first generalizing d changes with
  | nil => exact ⟨d, [], changes, .nil d, h, rfl⟩
  | cons op first ih =>
      cases h with
      | idle hop h =>
          obtain ⟨d₁, before, after, hfirst, hrest, rfl⟩ := ih h
          exact ⟨d₁, before, after, .idle hop hfirst, hrest, rfl⟩
      | cons hacts h =>
          obtain ⟨d₁, before, after, hfirst, hrest, rfl⟩ := ih h
          exact ⟨d₁, _ :: before, after, .cons hacts hfirst, hrest, rfl⟩

end Drafting

end Kb
