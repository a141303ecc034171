/-
# `Kb.Lib.Raising` — calls that return or raise, read backwards

A call is an `Except`: what it returns or what it raises.  The rules here read a call that is known
to have returned, step by step (`bind_ok`, `mapM_ok`), say that one call returns whatever another
does (`Extends`), or something related to it (`Related`), and bound what a call can raise by what
its steps can raise (`Only`).
-/
import Mathlib.Data.List.Forall2

namespace Raising

variable {ε α β : Type}

theorem bind_ok {x : Except ε α} {f : α → Except ε β} {b : β} :
    (x >>= f) = .ok b ↔ ∃ a, x = .ok a ∧ f a = .ok b := by
  cases x with
  | error e => exact ⟨nofun, fun ⟨_, h, _⟩ => nomatch h⟩
  | ok a => exact ⟨fun h => ⟨a, rfl, h⟩, fun ⟨a', h, hf⟩ => by cases h; exact hf⟩

theorem map_ok {x : Except ε α} {f : α → β} {b : β} :
    x.map f = .ok b ↔ ∃ a, x = .ok a ∧ f a = b := by
  cases x with
  | error e => exact ⟨nofun, fun ⟨_, h, _⟩ => nomatch h⟩
  | ok a => exact ⟨fun h => ⟨a, rfl, Except.ok.inj h⟩, fun ⟨a', h, hf⟩ => by
      cases h; exact congrArg _ hf⟩

/-- A list read entry by entry has one result for each. -/
theorem mapM_ok {f : α → Except ε β} {as : List α} {bs : List β} :
    as.mapM f = .ok bs ↔ List.Forall₂ (fun a b => f a = .ok b) as bs := by
  induction as generalizing bs with
  | nil =>
      constructor
      · intro h
        cases h
        exact .nil
      · rintro ⟨⟩
        rfl
  | cons a as ih =>
      rw [List.mapM_cons, bind_ok]
      constructor
      · rintro ⟨b, hb, h⟩
        obtain ⟨bs', hbs, h⟩ := bind_ok.mp h
        cases h
        exact .cons hb (ih.mp hbs)
      · intro h
        cases h with
        | cons hb hbs => exact ⟨_, hb, bind_ok.mpr ⟨_, ih.mpr hbs, rfl⟩⟩

/-- Where each entry has something it is related to, the list has a list it is related to entry by
entry. -/
theorem exists_forall₂ {R : α → β → Prop} {as : List α} (h : ∀ a ∈ as, ∃ b, R a b) :
    ∃ bs, List.Forall₂ R as bs := by
  induction as with
  | nil => exact ⟨[], .nil⟩
  | cons a as ih =>
      obtain ⟨b, hb⟩ := h a List.mem_cons_self
      obtain ⟨bs, hbs⟩ := ih fun a ha => h a (List.mem_cons_of_mem _ ha)
      exact ⟨b :: bs, .cons hb hbs⟩

/-- A list each entry of which has a result has one for them all. -/
theorem mapM_returns {f : α → Except ε β} {as : List α} (h : ∀ a ∈ as, ∃ b, f a = .ok b) :
    ∃ bs, as.mapM f = .ok bs :=
  (exists_forall₂ h).imp fun _ hbs => mapM_ok.mpr hbs

/-- What is made of each entry's results is made of them all. -/
theorem mapM_flatten {γ : Type} {f : α → Except ε (List β)} {f' : α → Except ε (List γ)} {g : β → γ}
    (h : ∀ a, f' a = (f a).map (List.map g)) (as : List α) :
    (as.mapM f' >>= fun bs => .ok bs.flatten) = (as.mapM f >>= fun bs => .ok bs.flatten).map
      (List.map g) := by
  induction as with
  | nil => rfl
  | cons a as ih =>
      rw [List.mapM_cons, List.mapM_cons, h]
      cases f a with
      | error _ => rfl
      | ok b =>
          cases hf' : as.mapM f' with
          | error e =>
              cases hf : as.mapM f with
              | error e' =>
                  rw [hf', hf] at ih
                  cases ih
                  rfl
              | ok bs' =>
                  rw [hf', hf] at ih
                  cases ih
          | ok bs =>
              cases hf : as.mapM f with
              | error e =>
                  rw [hf', hf] at ih
                  cases ih
              | ok bs' =>
                  rw [hf', hf] at ih
                  have ih : bs.flatten = bs'.flatten.map g := Except.ok.inj ih
                  show Except.ok (List.flatten (b.map g :: bs)) =
                    Except.ok ((List.flatten (b :: bs')).map g)
                  rw [List.flatten_cons, List.flatten_cons, List.map_append, ih]

theorem forall₂_of_mem {R : α → β → Prop} {as : List α} {bs : List β} (h : List.Forall₂ R as bs)
    {a : α} (ha : a ∈ as) :
    ∃ b ∈ bs, R a b := by
  induction h with
  | nil => cases ha
  | cons hr _ ih =>
      rcases List.mem_cons.mp ha with rfl | ha
      · exact ⟨_, List.mem_cons_self, hr⟩
      · obtain ⟨b, hb, hr⟩ := ih ha
        exact ⟨b, List.mem_cons_of_mem _ hb, hr⟩

theorem forall₂_of_mem_right {R : α → β → Prop} {as : List α} {bs : List β}
    (h : List.Forall₂ R as bs) {b : β} (hb : b ∈ bs) :
    ∃ a ∈ as, R a b :=
  forall₂_of_mem h.flip hb

/-- What a list is read as is what its entries are. -/
theorem mem_mapM {f : α → Except ε β} {as : List α} {bs : List β} (h : as.mapM f = .ok bs) {b : β} :
    b ∈ bs ↔ ∃ a ∈ as, f a = .ok b := by
  have hall := mapM_ok.mp h
  constructor
  · exact fun hb => forall₂_of_mem_right hall hb
  · rintro ⟨a, ha, hb⟩
    obtain ⟨b', hb', hb''⟩ := forall₂_of_mem hall ha
    cases hb.symm.trans hb''
    exact hb'

/-- What every step of a fold keeps, the fold keeps. -/
theorem foldlM_keeps {I : β → Prop} {f : β → α → Except ε β} {as : List α}
    (hf : ∀ b, ∀ a ∈ as, ∀ b', I b → f b a = .ok b' → I b') {b b' : β} (hb : I b)
    (h : as.foldlM f b = .ok b') : I b' := by
  induction as generalizing b with
  | nil =>
      cases h
      exact hb
  | cons a as ih =>
      rw [List.foldlM_cons] at h
      obtain ⟨mid, hmid, h⟩ := bind_ok.mp h
      exact ih (fun b a ha => hf b a (List.mem_cons_of_mem _ ha))
        (hf b a List.mem_cons_self mid hb hmid) h

/-- Where every step of a fold keeps an invariant, moves on by a relation and does something to what
it is of, which moving on keeps, the fold moves on and does it to each. -/
theorem foldlM_all {I : β → Prop} {R : β → β → Prop} {P : α → β → Prop}
    {f : β → α → Except ε β} {as : List α} (hrefl : ∀ b, R b b)
    (htrans : ∀ b b' b'', R b b' → R b' b'' → R b b'') (hkeeps : ∀ a b b', R b b' → P a b → P a b')
    (hf : ∀ b, ∀ a ∈ as, ∀ b', I b → f b a = .ok b' → I b' ∧ R b b' ∧ P a b') {b b' : β} (hb : I b)
    (h : as.foldlM f b = .ok b') : I b' ∧ R b b' ∧ ∀ a ∈ as, P a b' := by
  induction as generalizing b with
  | nil =>
      cases h
      exact ⟨hb, hrefl _, fun _ ha => nomatch ha⟩
  | cons a as ih =>
      rw [List.foldlM_cons] at h
      obtain ⟨mid, hmid, h⟩ := bind_ok.mp h
      obtain ⟨hI, hR, hP⟩ := hf b a List.mem_cons_self mid hb hmid
      obtain ⟨hI', hR', hall⟩ := ih (fun b a ha => hf b a (List.mem_cons_of_mem _ ha)) hI h
      refine ⟨hI', htrans _ _ _ hR hR', fun x hx => ?_⟩
      rcases List.mem_cons.mp hx with rfl | hx
      · exact hkeeps _ _ _ hR' hP
      · exact hall x hx

/-- A call returns whatever another returns. -/
def Extends (x y : Except ε α) : Prop := ∀ a, x = .ok a → y = .ok a

theorem Extends.refl (x : Except ε α) : Extends x x := fun _ h => h

theorem Extends.bind {x y : Except ε α} {f g : α → Except ε β} (h : Extends x y)
    (hf : ∀ a, x = .ok a → Extends (f a) (g a)) :
    Extends (x >>= f) (y >>= g) := by
  intro b hb
  obtain ⟨a, ha, hb⟩ := bind_ok.mp hb
  exact bind_ok.mpr ⟨a, h a ha, hf a ha b hb⟩

theorem Extends.mapM {f g : α → Except ε β} {as : List α} (h : ∀ a ∈ as, Extends (f a) (g a)) :
    Extends (as.mapM f) (as.mapM g) := by
  intro bs hbs
  rw [mapM_ok] at hbs ⊢
  induction hbs with
  | nil => exact .nil
  | cons hb _ ih =>
      exact .cons (h _ List.mem_cons_self _ hb) (ih fun a ha => h a (List.mem_cons_of_mem _ ha))

/-- Where one call returns, another does, something related to what the first returns. -/
def Related (R : α → β → Prop) (x : Except ε α) (y : Except ε β) : Prop :=
  ∀ a, x = .ok a → ∃ b, y = .ok b ∧ R a b

theorem Related.ok {R : α → β → Prop} {a : α} {b : β} (h : R a b) :
    Related R (.ok a : Except ε α) (.ok b) := by
  intro a' ha
  cases ha
  exact ⟨b, rfl, h⟩

theorem Related.bind {α' β' : Type} {R : α → β → Prop} {R' : α' → β' → Prop} {x : Except ε α}
    {y : Except ε β} {f : α → Except ε α'} {g : β → Except ε β'} (h : Related R x y)
    (hf : ∀ a b, x = .ok a → R a b → Related R' (f a) (g b)) :
    Related R' (x >>= f) (y >>= g) := by
  intro a' ha'
  obtain ⟨a, ha, ha'⟩ := bind_ok.mp ha'
  obtain ⟨b, hb, hR⟩ := h a ha
  obtain ⟨b', hb', hR'⟩ := hf a b ha hR a' ha'
  exact ⟨b', bind_ok.mpr ⟨b, hb, hb'⟩, hR'⟩

/-- One call made first, whatever is made of what it returns. -/
theorem Related.after {α' β' : Type} {R : α' → β' → Prop} {x : Except ε α} {f : α → Except ε α'}
    {g : α → Except ε β'} (hf : ∀ a, x = .ok a → Related R (f a) (g a)) :
    Related R (x >>= f) (x >>= g) := by
  refine Related.bind (R := Eq) (fun a ha => ⟨a, ha, rfl⟩) fun a b ha hab => ?_
  cases hab
  exact hf a ha

theorem Related.mapM {γ : Type} {R : β → γ → Prop} {f : α → Except ε β}
    {g : α → Except ε γ} {as : List α} (h : ∀ a ∈ as, Related R (f a) (g a)) :
    Related (List.Forall₂ R) (as.mapM f) (as.mapM g) := by
  intro bs hbs
  have hall := mapM_ok.mp hbs
  clear hbs
  induction hall with
  | nil => exact ⟨[], rfl, .nil⟩
  | @cons a b as bs hb _ ih =>
      obtain ⟨c, hc, hR⟩ := h a List.mem_cons_self b hb
      obtain ⟨cs, hcs, hRs⟩ := ih fun a ha => h a (List.mem_cons_of_mem _ ha)
      exact ⟨c :: cs, mapM_ok.mpr (.cons hc (mapM_ok.mp hcs)), .cons hR hRs⟩

/-! ## What a call can raise -/

/-- A call raises nothing but what `P` allows. -/
def Only (P : ε → Prop) (x : Except ε α) : Prop := ∀ e, x = .error e → P e

variable {P : ε → Prop}

theorem Only.ok (a : α) : Only P (.ok a : Except ε α) := nofun

theorem Only.error {e : ε} (h : P e) : Only P (.error e : Except ε α) := by
  rintro _ ⟨⟩
  exact h

theorem Only.bind {x : Except ε α} {f : α → Except ε β} (hx : Only P x)
    (hf : ∀ a, x = .ok a → Only P (f a)) :
    Only P (x >>= f) := by
  cases x with
  | error e => exact Only.error (hx e rfl)
  | ok a => exact hf a rfl

/-- What a call raises that its first step cannot, a later step raises, from what the first
returned. -/
theorem Only.past {x : Except ε α} {f : α → Except ε β} {e : ε} (hx : Only (· ≠ e) x)
    (h : (x >>= f) = .error e) :
    ∃ a, x = .ok a ∧ f a = .error e := by
  cases x with
  | error e' => exact absurd (Except.error.inj h) (hx e' rfl)
  | ok a => exact ⟨a, rfl, h⟩

theorem Only.map {x : Except ε α} (f : α → β) (hx : Only P x) : Only P (x.map f) := by
  cases x with
  | error e => exact Only.error (hx e rfl)
  | ok a => exact Only.ok _

theorem Only.mapM {f : α → Except ε β} {as : List α} (hf : ∀ a ∈ as, Only P (f a)) :
    Only P (as.mapM f) := by
  induction as with
  | nil => exact Only.ok _
  | cons a as ih =>
      rw [List.mapM_cons]
      refine (hf a List.mem_cons_self).bind fun b _ => ?_
      exact (ih fun a ha => hf a (List.mem_cons_of_mem _ ha)).bind fun bs _ => Only.ok _

theorem Only.foldlM {f : β → α → Except ε β} {as : List α}
    (hf : ∀ b, ∀ a ∈ as, Only P (f b a)) (b : β) :
    Only P (as.foldlM f b) := by
  induction as generalizing b with
  | nil => exact Only.ok _
  | cons a as ih =>
      rw [List.foldlM_cons]
      exact (hf b a List.mem_cons_self).bind fun b' _ =>
        ih (fun b a ha => hf b a (List.mem_cons_of_mem _ ha)) b'

end Raising
