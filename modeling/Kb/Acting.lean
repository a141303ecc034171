/-
# `Kb.Acting` — what one operation does to the draft

One lemma for each operation, saying all that its success says: what it found held, what it put and
where, at what revision and under which version of its type.  The draft after it is the draft before
with one artifact put or taken out, but for the numbers it counts as made (`Draft.counting`), which
no reading looks at.
-/
import Kb.Sets

namespace Kb

open Raising

/-- `artifact[name]` for a name the artifact has. -/
theorem Artifact.at_ok {a : Artifact} {name : String} {v : Value} :
    a.at_ name = .ok v ↔ a.get? name = some v := by
  unfold Artifact.at_
  cases a.get? name with
  | none => simp
  | some w => simp

/-- The draft with other numbers counted as made. -/
def Draft.counting (d : Draft) (numbers : List (ArtifactId × Scalar)) : Draft := { d with numbers }

namespace Draft

variable (d : Draft) (numbers : List (ArtifactId × Scalar))

@[simp] theorem counting_store : (d.counting numbers).store = d.store := rfl
@[simp] theorem counting_pending : (d.counting numbers).pending = d.pending := rfl
@[simp] theorem counting_removed : (d.counting numbers).removed = d.removed := rfl
@[simp] theorem counting_made : (d.counting numbers).made = d.made := rfl
@[simp] theorem counting_gone : (d.counting numbers).gone = d.gone := rfl
@[simp] theorem counting_holds (id : ArtifactId) : (d.counting numbers).holds id = d.holds id := rfl
@[simp] theorem counting_artifact (id : ArtifactId) :
    (d.counting numbers).artifact id = d.artifact id := rfl
@[simp] theorem counting_corpus : (d.counting numbers).corpus = d.corpus := rfl

/-! What putting and taking out leave of each map. -/

variable (id : ArtifactId) (a : Artifact)

@[simp] theorem put_store : (d.put id a).store = d.store := by unfold put; split <;> rfl
@[simp] theorem put_pending :
    (d.put id a).pending = Assoc.set d.pending id a := by unfold put; split <;> rfl
@[simp] theorem put_removed : (d.put id a).removed = d.removed.filter (· ≠ id) := by
  unfold put; split <;> rfl
@[simp] theorem put_gone : (d.put id a).gone = d.gone := by unfold put; split <;> rfl
@[simp] theorem remove_store : (d.remove id).store = d.store := rfl
@[simp] theorem remove_pending : (d.remove id).pending = d.pending := rfl
@[simp] theorem remove_removed : (d.remove id).removed = id :: d.removed := rfl
@[simp] theorem remove_gone : (d.remove id).gone = id :: d.gone := rfl

theorem put_artifact (x : ArtifactId) :
    (d.put id a).artifact x = if x = id then some a else d.artifact x := by
  unfold artifact
  rw [put_pending, put_store, Assoc.get_set]
  by_cases h : x = id <;> simp [h]

theorem put_artifact_self : (d.put id a).artifact id = some a := by rw [put_artifact, if_pos rfl]

theorem put_holds (x : ArtifactId) : (d.put id a).holds x = if x = id then true else d.holds x := by
  unfold holds
  rw [put_pending, put_store, put_removed, Assoc.get_set]
  by_cases h : x = id <;> simp [h]

theorem remove_holds (x : ArtifactId) :
    (d.remove id).holds x = if x = id then false else d.holds x := by
  unfold holds
  by_cases h : x = id <;> simp [h]

@[simp] theorem remove_artifact (x : ArtifactId) : (d.remove id).artifact x = d.artifact x := rfl

variable {id a}

/-- What a type's next version is counted from: what was last counted for it, or what it stands at,
or nothing for a type not held. -/
inductive CountedFrom (type : ArtifactId) : Value → Prop where
  | unheld : d.holds type = false → CountedFrom type (.int 0)
  | counted {n : Scalar} : d.holds type = true →
      (Assoc.get d.numbers type).filter (fun n => (Value.scalar n).truthy) = some n →
      CountedFrom type (.scalar n)
  | standing {a : Artifact} {last : Value} : d.holds type = true → d.artifact type = some a →
      a.get? "version" = some last →
      CountedFrom type last

theorem numbered_ok {O : Outside} {type : ArtifactId} {number : Scalar} {d' : Draft}
    (h : d.numbered O type = .ok (number, d')) :
    d' = d.counting (Assoc.set d.numbers type number) ∧
      ∃ last, d.CountedFrom type last ∧ plusOne O last = .ok number := by
  have hend : ∀ last, (do
      let next ← plusOne O last
      .ok (next, { d with numbers := Assoc.set d.numbers type next }) :
        Raises (Scalar × Draft)) = .ok (number, d') →
      plusOne O last = .ok number ∧ d' = d.counting (Assoc.set d.numbers type number) := by
    intro last h
    obtain ⟨next, hnext, h⟩ := bind_ok.mp h
    cases h
    exact ⟨hnext, rfl⟩
  simp only [numbered] at h
  split at h
  · next hholds =>
      split at h
      · next n hn =>
          obtain ⟨hnext, hd⟩ := hend (.scalar n) h
          exact ⟨hd, _, .counted hholds hn, hnext⟩
      · split at h
        · next a ha =>
            obtain ⟨last, hlast, h⟩ := bind_ok.mp h
            obtain ⟨hnext, hd⟩ := hend _ h
            exact ⟨hd, _, .standing hholds ha (Artifact.at_ok.mp hlast), hnext⟩
        · cases h
  · next hholds =>
      obtain ⟨hnext, hd⟩ := hend (.int 0) h
      exact ⟨hd, _, .unheld (by simpa using hholds), hnext⟩

end Draft

namespace Naming

theorem numbered_ok {O : Outside} {d d' : Draft} {type : ArtifactId} {content content' : Dict}
    (h : numbered O d type content = .ok (content', d')) :
    ∃ number, d.numbered O type = .ok (number, d') ∧
      (content' = Dict.set content "version" (.scalar number) ∨
        content' = content ∧ ∃ v, Dict.get? content "version" = some v ∧
          ∀ s : Scalar, v = .scalar s → (∀ n, s ≠ .int n) ∧ ∀ w, s ≠ .float w) := by
  unfold numbered at h
  obtain ⟨⟨number, d₁⟩, hnumber, h⟩ := bind_ok.mp h
  simp only at h
  cases h
  refine ⟨number, hnumber, ?_⟩
  rcases hv : Dict.get? content "version" with _ | v
  · exact Or.inl (by simp)
  · rcases v with s | vs | es
    · rcases s with _ | b | n | w | text
      all_goals simp
    · simp
    · simp

end Naming

namespace Edits

open Kb.Composition

variable {O : Outside} {d : Draft}

theorem current_ok {id : ArtifactId} {a : Artifact} :
    current d id = .ok a ↔ d.artifact id = some a := by
  unfold current
  cases d.artifact id with
  | none => simp
  | some b => simp

theorem asRead_ok {id : ArtifactId} {expected : Option Int} :
    asRead d id expected = .ok () ↔
      d.holds id = true ∧ ∃ a, d.artifact id = some a ∧ ∀ r, expected = some r →
        a.revision = r := by
  unfold asRead
  cases hholds : d.holds id with
  | false =>
      simp only [Bool.not_false, if_true, Bool.false_eq_true, false_and, iff_false]
      nofun
  | true =>
      simp only [Bool.not_true, Bool.false_eq_true, if_false, true_and]
      rw [bind_ok]
      simp only [current_ok]
      constructor
      · rintro ⟨a, ha, h⟩
        refine ⟨a, ha, fun r hr => ?_⟩
        subst hr
        simp only at h
        split at h
        · assumption
        · nomatch h
      · rintro ⟨a, ha, h⟩
        refine ⟨a, ha, ?_⟩
        cases expected with
        | none => rfl
        | some r => simp only [h r rfl, if_true]

theorem named_ok {version : Version} {carried : List Fault} {type : Artifact}
    (h : named d version carried = .ok type) :
    versionSchema d.corpus version = .ok type := by
  unfold named at h
  split at h
  · nomatch h
  · exact h

/-- A type's content is given the number of the version this change makes of it; any other's
stays. -/
def Numbers (O : Outside) (d : Draft) (id : ArtifactId) (kind : Kind) (content content' : Dict)
    (d' : Draft) : Prop :=
  if kind = TYPE_KIND then Naming.numbered O d id content = .ok (content', d')
    else content' = content ∧ d' = d

theorem Numbers.ofType {d d' : Draft} {id : ArtifactId} {kind : Kind} {content content' : Dict}
    (hk : kind = TYPE_KIND) (h : Naming.numbered O d id content = .ok (content', d')) :
    Numbers O d id kind content content' d' :=
  (if_pos hk).mpr h

theorem Numbers.other {d : Draft} {id : ArtifactId} {kind : Kind} {content : Dict}
    (hk : kind ≠ TYPE_KIND) :
    Numbers O d id kind content content d :=
  (if_neg hk).mpr ⟨rfl, rfl⟩

theorem Numbers.counting {d d' : Draft} {id : ArtifactId} {kind : Kind} {content content' : Dict}
    (h : Numbers O d id kind content content' d') : ∃ numbers, d' = d.counting numbers := by
  unfold Numbers at h
  split at h
  · obtain ⟨number, hnumber, _⟩ := Naming.numbered_ok h
    exact ⟨_, (Draft.numbered_ok d hnumber).1⟩
  · exact ⟨d.numbers, h.2⟩

/-- What a create that succeeds found, and what it put. -/
structure Creates (O : Outside) (d : Draft) (name : ArtifactId) (version : Version) (title : String)
    (content : Content) (put : Put) (type a : Artifact) (tree counted named : Dict) : Prop where
  free : d.holds name = false
  conforms : versionSchema d.corpus version = .ok type
  under : Naming.under d name (typeOf version.kind) = []
  standing : Naming.standing O d name (typeOf version.kind) = .ok []
  wellFormed : content.problems = [] ∧ content.tree = .map tree
  numbered : ∃ d', Numbers O d name version.kind tree counted d' ∧ put.draft = d'.put name a
  items : ∃ schema whole, type.schema = .ok schema ∧ declared O d.corpus schema = .ok whole ∧
    Naming.items O d name whole counted = .ok (put.faults, named) ∧
    Settled.order (Settled.given named name version 1 title) whole = .ok a
  op : put.op = .create

theorem identity_nil {name : ArtifactId} {carried : List Fault} {type : ArtifactId}
    (h : Naming.identity O d name carried type = .ok []) :
    carried = [] ∧ d.holds name = false ∧ Naming.under d name type = [] ∧
      Naming.standing O d name type = .ok [] := by
  simp only [Naming.identity] at h
  split at h
  · next hc =>
      have hnil := List.append_eq_nil_iff.mp (Except.ok.inj h)
      simp [hnil.2] at hc
  · next hc =>
      split at h
      · simp at h
      · next hholds =>
          obtain ⟨standing, hstanding, h⟩ := bind_ok.mp h
          have hnil := List.append_eq_nil_iff.mp (Except.ok.inj h)
          rw [hnil.2] at hstanding
          exact ⟨by simpa using hc, by simpa using hholds, hnil.1, hstanding⟩

theorem create_ok {name : ArtifactId} {version : Version} {title : String}
    {titleFaults : List Fault} {content : Content} {carried : List Fault} {put : Put}
    (h : create O d name version title titleFaults content carried = .ok put) :
    ∃ type a tree counted named,
      Creates O d name version title content put type a tree counted named := by
  unfold create at h
  obtain ⟨type, htype, h⟩ := bind_ok.mp h
  obtain ⟨identity, hidentity, h⟩ := bind_ok.mp h
  simp only at h
  split at h
  · nomatch h
  next hfaults =>
  have hnil : identity ++ titleFaults ++ content.refusal name.iri = [] := by simpa using hfaults
  obtain ⟨hnil, hrefusal⟩ := List.append_eq_nil_iff.mp hnil
  obtain ⟨rfl, htitle⟩ := List.append_eq_nil_iff.mp hnil
  obtain ⟨hcarried, hfree, hunder, hstanding⟩ := identity_nil hidentity
  obtain ⟨tree, htree, h⟩ := bind_ok.mp h
  have htree : content.tree = .map tree := by
    unfold entries at htree
    split at htree
    · next es hes => rw [hes, Except.ok.inj htree]
    · nomatch htree
  obtain ⟨⟨counted, d'⟩, hcounted, h⟩ : ∃ p : Dict × Draft,
      Numbers O d name version.kind tree p.1 p.2 ∧ (do
      let declared ← declared O p.2.corpus (← type.schema)
      let out ← Naming.items O p.2 name declared p.1
      let a ← Settled.order (Settled.given out.2 name version 1 title) declared
      .ok { op := .create, faults := out.1, draft := p.2.put name a } : Raises Put) = .ok put := by
    split at h
    · next ht =>
        obtain ⟨p, hp, h⟩ := bind_ok.mp h
        exact ⟨p, .ofType ht hp, h⟩
    · next ht => exact ⟨(tree, d), .other ht, h⟩
  obtain ⟨schema, hschema, h⟩ := bind_ok.mp h
  obtain ⟨whole, hwhole, h⟩ := bind_ok.mp h
  obtain ⟨⟨misnamed, named⟩, hitems, h⟩ := bind_ok.mp h
  obtain ⟨a, ha, h⟩ := bind_ok.mp h
  obtain ⟨ns, rfl⟩ := hcounted.counting
  have hput := Except.ok.inj h
  subst hput
  refine ⟨type, a, tree, counted, named, hfree, named_ok htype, hunder, hstanding, ⟨?_, htree⟩,
    ⟨_, hcounted, rfl⟩,
    ⟨schema, whole, hschema, hwhole, hitems, ha⟩, rfl⟩
  simpa [Content.refusal] using hrefusal

/-- What a replacement or an addition that succeeds found, and what it put: `content` is what it
makes of the artifact before its items are named. -/
structure Revises (O : Outside) (d : Draft) (id : ArtifactId) (version : Version) (put : Put)
    (now type a : Artifact) (content named counted : Dict) : Prop where
  held : d.holds id = true
  stands : d.artifact id = some now
  moves : version = now.type ∨ movesTo d.corpus now version = true
  conforms : versionSchema d.corpus version = .ok type
  items : ∃ schema whole, type.schema = .ok schema ∧ declared O d.corpus schema = .ok whole ∧
    Naming.revised O d id whole content now.whole = .ok (put.faults, named) ∧
    Settled.order (Settled.given counted now.id version (now.revision + 1) now.title) whole = .ok a
  numbered : ∃ d', Numbers O d id now.kind named counted d' ∧ put.draft = d'.put id a
  op : put.op = .write ∨ put.op = .append

/-- A revised artifact stays of its kind. -/
theorem Revises.moves_kind {id : ArtifactId} {version : Version} {put : Put} {now type a : Artifact}
    {content named counted : Dict}
    (h : Revises O d id version put now type a content named counted) :
    version.kind = now.kind := by
  rcases h.moves with rfl | hmoves
  · rfl
  · simp only [movesTo, Bool.and_eq_true, decide_eq_true_eq] at hmoves
    exact hmoves.1.1

theorem revise_ok {id : ArtifactId} {now : Artifact} {content : Dict} {version : Version}
    {out : Draft × List Fault × Dict} (h : revise O d id now content version = .ok out) (op : Op)
    (path item : String) (hop : op = .write ∨ op = .append) (hheld : d.holds id = true)
    (hnow : d.artifact id = some now)
    (hmoves : version = now.type ∨ movesTo d.corpus now version = true) :
    ∃ type a named counted,
      Revises O d id version
        { op, path, item, faults := out.2.1, draft := out.1 } now type a content named counted := by
  unfold revise at h
  obtain ⟨type, htype, h⟩ := bind_ok.mp h
  obtain ⟨schema, hschema, h⟩ := bind_ok.mp h
  obtain ⟨whole, hwhole, h⟩ := bind_ok.mp h
  obtain ⟨⟨misnamed, named⟩, hitems, h⟩ := bind_ok.mp h
  simp only at h
  obtain ⟨⟨counted, d'⟩, hcounted, h⟩ : ∃ p : Dict × Draft,
      Numbers O d id now.kind named p.1 p.2 ∧ (do
      let a ← Settled.order (Settled.given p.1 now.id version (now.revision + 1) now.title) whole
      .ok (p.2.put id a, misnamed, p.1) : Raises (Draft × List Fault × Dict)) = .ok out := by
    split at h
    · next ht =>
        obtain ⟨p, hp, h⟩ := bind_ok.mp h
        exact ⟨p, .ofType ht hp, h⟩
    · next ht => exact ⟨(named, d), .other ht, h⟩
  obtain ⟨a, ha, h⟩ := bind_ok.mp h
  have hout := Except.ok.inj h
  subst hout
  exact ⟨type, a, named, counted, hheld, hnow, hmoves, htype,
    ⟨schema, whole, hschema, hwhole, hitems, ha⟩,
    ⟨d', hcounted, rfl⟩, hop⟩

theorem endsAt_ok {id : ArtifactId} {now : Artifact} {named : Option Version} {version : Version}
    (h : endsAt d id now named = .ok version) :
    version = now.type ∨ movesTo d.corpus now version = true := by
  unfold endsAt at h
  split at h
  · exact Or.inl (Except.ok.inj h).symm
  · split at h
    · next hmoves =>
        cases h
        exact Or.inr hmoves
    · nomatch h

theorem replace_ok {locator : Locator} {content : Content} {expected : Option Int}
    {version : Option Version} {put : Put}
    (h : replace O d locator content expected version = .ok put) :
    asRead d locator.id expected = .ok () ∧
      ∃ v now type a tree named counted,
        Revises O d locator.id v put now type a tree named counted := by
  unfold replace at h
  obtain ⟨⟨⟩, hread, h⟩ := bind_ok.mp h
  simp only at h
  split at h
  · nomatch h
  obtain ⟨now, hnow, h⟩ := bind_ok.mp h
  obtain ⟨tree, h⟩ : ∃ tree, (do
      let out ← revise O d locator.id now tree (← endsAt d locator.id now version)
      .ok { op := .write, path := Names.placed locator.place, faults := out.2.1, draft := out.1 } :
          Raises Put) = .ok put := by
    split at h <;>
      · obtain ⟨tree, _, h⟩ := bind_ok.mp h
        exact ⟨tree, h⟩
  obtain ⟨v, hv, h⟩ := bind_ok.mp h
  obtain ⟨out, hout, h⟩ := bind_ok.mp h
  have hput := Except.ok.inj h
  subst hput
  obtain ⟨type, a, named, counted, hrev⟩ :=
    revise_ok hout .write (Names.placed locator.place) "" (Or.inl rfl)
    (asRead_ok.mp hread).1 (current_ok.mp hnow) (endsAt_ok hv)
  exact ⟨hread, v, now, type, a, tree, named, counted, hrev⟩

theorem append_ok {locator : Locator} {item : Content} {expected : Option Int} {put : Put}
    (h : append O d locator item expected = .ok put) :
    asRead d locator.id expected = .ok () ∧
      ∃ v now type a tree named counted,
        Revises O d locator.id v put now type a tree named counted := by
  have hend : ∀ (now : Artifact) (tree : Dict) (added : Draft × List Fault × Dict → Value),
      asRead d locator.id expected = .ok () →
      d.artifact locator.id = some now →
      (do
        let out ← revise O d locator.id now tree now.type
        let name ← itemName (added out)
        .ok { op := .append, path := Names.placed (locator.place ++ name.toList),
              item := name.getD "", faults := out.2.1,
              draft := out.1 } : Raises Put) = .ok put →
      ∃ v now type a tree named counted,
          Revises O d locator.id v put now type a tree named counted := by
    intro now tree added hread hnow h
    obtain ⟨out, hout, h⟩ := bind_ok.mp h
    obtain ⟨name, _, h⟩ := bind_ok.mp h
    have hput := Except.ok.inj h
    subst hput
    obtain ⟨type, a, named, counted, hrev⟩ :=
      revise_ok hout .append (Names.placed (locator.place ++ name.toList))
      (name.getD "") (Or.inr rfl) (asRead_ok.mp hread).1 hnow (Or.inl rfl)
    exact ⟨_, now, type, a, tree, named, counted, hrev⟩
  unfold append at h
  obtain ⟨⟨⟩, hread, h⟩ := bind_ok.mp h
  refine ⟨hread, ?_⟩
  simp only at h
  split at h
  · nomatch h
  split at h
  · nomatch h
  obtain ⟨now, hnow, h⟩ := bind_ok.mp h
  obtain ⟨spot, _, h⟩ := bind_ok.mp h
  split at h
  · obtain ⟨_, _, h⟩ := bind_ok.mp h
    nomatch h
  obtain ⟨collections, _, h⟩ := bind_ok.mp h
  split at h
  · nomatch h
  split at h
  · obtain ⟨items, _, h⟩ := bind_ok.mp h
    exact hend now _ _ hread (current_ok.mp hnow) h
  · obtain ⟨items, _, h⟩ := bind_ok.mp h
    exact hend now _ _ hread (current_ok.mp hnow) h
  · nomatch h

/-- What an import of an artifact that succeeds puts. -/
theorem import_ok {id : ArtifactId} {a : Artifact} {put : Put} (h : import_ O d id a = .ok put) :
    ∃ b, Naming.imported O d id a = .ok (b, put.faults) ∧ put.op = .import_ ∧
      put.draft = d.put id b := by
  unfold import_ at h
  obtain ⟨⟨b, misnamed⟩, hb, h⟩ := bind_ok.mp h
  cases h
  exact ⟨b, hb, rfl, rfl⟩

/-- An artifact as it would land is the one brought, but for its content. -/
theorem imported_ok {id : ArtifactId} {a b : Artifact} {faults : List Fault}
    (h : Naming.imported O d id a = .ok (b, faults)) :
    ∃ content, b = { a with content } := by
  unfold Naming.imported at h
  obtain ⟨type, _, h⟩ := bind_ok.mp h
  obtain ⟨schema, _, h⟩ := bind_ok.mp h
  obtain ⟨whole, _, h⟩ := bind_ok.mp h
  obtain ⟨⟨misnamed, named⟩, _, h⟩ := bind_ok.mp h
  obtain ⟨c, hc, h⟩ := bind_ok.mp h
  obtain ⟨content, rfl⟩ := Settled.order_ok hc
  cases h
  exact ⟨content, rfl⟩

theorem delete_ok {locator : Locator} {expected : Option Int} {out : Draft × Done}
    (h : delete d locator expected = .ok out) :
    asRead d locator.id expected = .ok () ∧ ∃ a, d.artifact locator.id = some a ∧
      out = (d.remove locator.id,
        { op := .delete, artifact := locator.id, revision := a.revision + 1, type := a.type }) := by
  unfold delete at h
  obtain ⟨⟨⟩, hread, h⟩ := bind_ok.mp h
  refine ⟨hread, ?_⟩
  simp only at h
  split at h
  · nomatch h
  obtain ⟨a, ha, h⟩ := bind_ok.mp h
  exact ⟨a, current_ok.mp ha, (Except.ok.inj h).symm⟩

/-! ## Any operation -/

/-- What one operation of a set came to when it was not refused: the artifact it names taken out,
created, revised or brought from a file, and the change it is. -/
inductive Acts (O : Outside) (d : Draft) : Operation → Draft → Done → Prop where
  | removed {locator : Locator} {expected : Option Int} {a : Artifact} :
      asRead d locator.id expected = .ok () → d.artifact locator.id = some a →
      Acts O d (.remove locator expected) (d.remove locator.id)
        { op := .delete, artifact := locator.id, revision := a.revision + 1, type := a.type }
  | created {name : ArtifactId} {version : Version} {title : String} {titleFaults : List Fault}
      {content : Content}
      {carried : List Fault} {put : Put} {type a acted : Artifact} {tree counted named : Dict} :
      Creates O d name version title content put type a tree counted named →
        conformed put.draft.corpus a = .ok acted →
      Acts O d (.create name version title titleFaults content carried) put.draft
        ⟨put.op, name, put.path, put.item, a.revision, a.type, some a, some acted, put.faults⟩
  | replaced {locator : Locator} {content : Content} {expected : Option Int}
      {named' : Option Version} {version : Version}
      {put : Put} {now type a acted : Artifact} {tree named counted : Dict} :
      asRead d locator.id expected = .ok () →
        Revises O d locator.id version put now type a tree named counted →
      conformed put.draft.corpus a = .ok acted →
      Acts O d (.replace locator content expected named') put.draft
        ⟨put.op, locator.id, put.path, put.item, a.revision, a.type, some a, some acted, put.faults⟩
  | added {locator : Locator} {item : Content} {expected : Option Int} {version : Version}
      {put : Put} {now type a acted : Artifact} {tree named counted : Dict} :
      asRead d locator.id expected = .ok () →
        Revises O d locator.id version put now type a tree named counted →
      conformed put.draft.corpus a = .ok acted →
      Acts O d (.add locator item expected) put.draft
        ⟨put.op, locator.id, put.path, put.item, a.revision, a.type, some a, some acted, put.faults⟩
  | imported {id : ArtifactId} {a b acted : Artifact} {put : Put} :
      Naming.imported O d id a = .ok (b, put.faults) → put.op = .import_ → put.draft = d.put id b →
      conformed put.draft.corpus b = .ok acted →
      Acts O d (.import_ id a) put.draft
        ⟨put.op, id, put.path, put.item, b.revision, b.type, some b, some acted, put.faults⟩

/-- No operation reads another store. -/
theorem Acts.store {d' : Draft} {op : Operation} {c : Done} (h : Acts O d op d' c) :
    d'.store = d.store := by
  cases h with
  | removed _ _ => rfl
  | created hc _ =>
      obtain ⟨d₁, hnumbers, hput⟩ := hc.numbered
      obtain ⟨numbers, rfl⟩ := hnumbers.counting
      rw [hput, Draft.put_store, Draft.counting_store]
  | replaced _ hr _ | added _ hr _ =>
      obtain ⟨d₁, hnumbers, hput⟩ := hr.numbered
      obtain ⟨numbers, rfl⟩ := hnumbers.counting
      rw [hput, Draft.put_store, Draft.counting_store]
  | imported _ _ hput _ => rw [hput, Draft.put_store]

theorem settle_change {d d' : Draft} {x : Raises (Draft × Outcome)} {c : Done}
    (h : settle d x = .ok (d', .change c)) : x = .ok (d', .change c) := by
  unfold settle at h
  split at h
  · nomatch h
  · exact h

theorem acted_ok {op : Operation} {d' : Draft} {c : Done} (h : acted O d op = .ok (d', .change c)) :
    Acts O d op d' c := by
  have hput : ∀ (id : ArtifactId) (put : Put) (a : Artifact), put.draft.artifact id = some a →
      (do
        let left ← current put.draft id
        settle put.draft do
          let acted ← conformed put.draft.corpus left
          .ok (put.draft, .change
            ⟨put.op, id, put.path, put.item, left.revision, left.type, some left,
              some acted, put.faults⟩)
        : Raises (Draft × Outcome)) = .ok (d', .change c) →
      ∃ acted, conformed put.draft.corpus a = .ok acted ∧ d' = put.draft ∧
        c = ⟨put.op, id, put.path, put.item, a.revision, a.type, some a, some acted,
            put.faults⟩ := by
    intro id put a ha h
    obtain ⟨left, hleft, h⟩ := bind_ok.mp h
    rw [current_ok, ha] at hleft
    cases hleft
    obtain ⟨acted, hacted, h⟩ := bind_ok.mp (settle_change h)
    cases h
    exact ⟨acted, hacted, rfl, rfl⟩
  cases op with
  | refusal fs => nomatch h
  | remove locator expected =>
      obtain ⟨out, hout, h⟩ := bind_ok.mp (settle_change h)
      obtain ⟨hread, a, ha, rfl⟩ := delete_ok hout
      cases h
      exact .removed hread ha
  | create name version title titleFaults content carried =>
      obtain ⟨⟨id, put⟩, hchanged, h⟩ := bind_ok.mp (settle_change h)
      obtain ⟨put', hcreate, hchanged⟩ := bind_ok.mp hchanged
      cases hchanged
      obtain ⟨type, a, tree, counted, named, hc⟩ := create_ok hcreate
      obtain ⟨d₁, _, hd⟩ := hc.numbered
      obtain ⟨acted, hacted, rfl, rfl⟩ := hput _ _ a (by rw [hd, Draft.put_artifact_self]) h
      exact .created hc hacted
  | replace locator content expected version =>
      obtain ⟨⟨id, put⟩, hchanged, h⟩ := bind_ok.mp (settle_change h)
      obtain ⟨put', hreplace, hchanged⟩ := bind_ok.mp hchanged
      cases hchanged
      obtain ⟨hread, v, now, type, a, tree, named, counted, hr⟩ := replace_ok hreplace
      obtain ⟨d₁, _, hd⟩ := hr.numbered
      obtain ⟨acted, hacted, rfl, rfl⟩ := hput _ _ a (by rw [hd, Draft.put_artifact_self]) h
      exact .replaced hread hr hacted
  | add locator item expected =>
      obtain ⟨⟨id, put⟩, hchanged, h⟩ := bind_ok.mp (settle_change h)
      obtain ⟨put', happend, hchanged⟩ := bind_ok.mp hchanged
      cases hchanged
      obtain ⟨hread, v, now, type, a, tree, named, counted, hr⟩ := append_ok happend
      obtain ⟨d₁, _, hd⟩ := hr.numbered
      obtain ⟨acted, hacted, rfl, rfl⟩ := hput _ _ a (by rw [hd, Draft.put_artifact_self]) h
      exact .added hread hr hacted
  | import_ id a =>
      obtain ⟨⟨id', put⟩, hchanged, h⟩ := bind_ok.mp (settle_change h)
      obtain ⟨put', himport, hchanged⟩ := bind_ok.mp hchanged
      cases hchanged
      obtain ⟨b, hb, hop, hd⟩ := import_ok himport
      obtain ⟨acted, hacted, rfl, rfl⟩ := hput _ _ b (by rw [hd, Draft.put_artifact_self]) h
      exact .imported hb hop hd hacted

end Edits

end Kb
