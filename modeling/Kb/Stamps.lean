/-
# `Kb.Stamps` — the history's ids, under any clocks and any number of writers

`journal.py`'s stamps: a clock's reading given in UTC, an entry's id as it is written and read back,
and the next free id at a moment.  An id is its moment and its seq, and its text says both and is no
other id's text; so what the source asks of texts the model asks of the pairs.

A writer mints its ids on a store it read and lands them later, on whatever the store has become.
The port takes only ids not held, and ids minted at a moment start just after those held when they
were minted; so a set that lands was minted on a history holding, at its moments, what the history
holds still, and goes on counting from there.
-/
import Kb.Run
import Kb.Lib.Calendar

namespace Kb

open Landing Raising

namespace Journal

/-! ## Moments and ids as they are written -/

/-- What a clock reads: the time it shows, in microseconds from the start of 1970, and how far its
zone is ahead of UTC, when it gives a zone. -/
structure Reading where
  wall : Int
  zone : Option Int

/-- The first and the last moment a `datetime` holds. -/
def FIRST : Int := -62135596800000000
def LAST : Int := 253402300799999999

/-- `in_utc`: a reading in UTC, one with no zone read as UTC; nothing where no `datetime` holds
it. -/
def inUtc (reading : Reading) : Option Int :=
  let moment := reading.wall - reading.zone.getD 0
  if FIRST ≤ moment ∧ moment ≤ LAST then some moment else none

theorem inUtc_mem {reading : Reading} {moment : Int} (h : inUtc reading = some moment) :
    FIRST ≤ moment ∧ moment ≤ LAST := by
  unfold inUtc at h
  simp only at h
  split at h
  · next hin =>
      cases h
      exact hin
  · nomatch h

/-- `_moment`: a moment as an id begins with it. -/
def momentText (moment : Int) : List Char :=
  let micros := (moment - FIRST).toNat
  Calendar.written (micros / 86400000000) (micros % 86400000000)

/-- `_entry_id`. -/
def idText (id : EntryId) : String :=
  String.ofList (momentText id.moment ++ '-' :: (toString id.seq : String).toList)

/-- `_parts`: text read as a moment and a seq, the digits after its last hyphen; nothing for a name
that is not an id. -/
def parts (text : String) : Option (List Char × Nat) :=
  let back := text.toList.reverse
  let digits := (back.takeWhile (· ≠ '-')).reverse
  let moment := ((back.dropWhile (· ≠ '-')).drop 1).reverse
  if '-' ∈ back ∧ digits ≠ [] ∧ digits.all Names.digit ∧ moment ≠ [] ∧ '\n' ∉ moment then
    some (moment, Nat.ofDigitChars 10 digits 0)
  else none

theorem momentText_inj {m n : Int} (hm : FIRST ≤ m ∧ m ≤ LAST) (hn : FIRST ≤ n ∧ n ≤ LAST)
    (h : momentText m = momentText n) : m = n := by
  have hday : ∀ k : Int, FIRST ≤ k ∧ k ≤ LAST →
      (k - FIRST).toNat / 86400000000 < Calendar.YEARS := by
    intro k hk
    have hYEARS : Calendar.YEARS = 3652059 := by decide
    unfold FIRST LAST at hk
    rw [hYEARS]
    unfold FIRST
    omega
  obtain ⟨hd, hu⟩ := Calendar.written_inj (hday m hm) (hday n hn) (Nat.mod_lt _ (by decide))
    (Nat.mod_lt _ (by decide)) h
  unfold FIRST LAST at hm hn
  unfold FIRST at hd hu
  omega

theorem hyphen_not_mem_momentText (moment : Int) :
    '-' ∉ momentText moment ∧ '\n' ∉ momentText moment := by
  constructor <;>
    · intro h
      rcases Calendar.mem_written h with h | h | h <;> revert h <;> decide

theorem momentText_ne_nil (moment : Int) : momentText moment ≠ [] := by
  simp [momentText, Calendar.written]

/-- An id read back from its text. -/
theorem parts_idText (id : EntryId) : parts (idText id) = some (momentText id.moment, id.seq) := by
  have hdigits : '-' ∉ (toString id.seq : String).toList := Names.minus_not_mem id.seq
  have hback : (idText id).toList.reverse =
      (toString id.seq : String).toList.reverse ++ '-' :: (momentText id.moment).reverse := by
    simp [idText]
  have htake : ((idText id).toList.reverse).takeWhile (· ≠ '-') =
      (toString id.seq : String).toList.reverse := by
    rw [hback, List.takeWhile_append_of_pos fun c hc => by
      simpa using fun e : c = '-' => hdigits (e ▸ List.mem_reverse.mp hc)]
    simp
  have hdrop : ((idText id).toList.reverse).dropWhile (· ≠ '-') =
      '-' :: (momentText id.moment).reverse := by
    rw [hback, List.dropWhile_append_of_pos fun c hc => by
      simpa using fun e : c = '-' => hdigits (e ▸ List.mem_reverse.mp hc)]
    simp
  have hall : ((toString id.seq : String).toList).all Names.digit = true := by
    rw [Nat.toString_eq_repr, Nat.toList_repr, List.all_eq_true]
    exact fun c hc =>
      Names.digit_of_isDigit (Nat.isDigit_of_mem_toDigits (by decide) (by decide) hc)
  have hne : (toString id.seq : String).toList ≠ [] := by
    rw [Nat.toString_eq_repr, Nat.toList_repr]
    exact List.ne_nil_of_length_pos Nat.length_toDigits_pos
  have hvalue : Nat.ofDigitChars 10 (toString id.seq : String).toList 0 = id.seq := by
    rw [Nat.toString_eq_repr, Nat.toList_repr]
    exact Nat.ofDigitChars_ten_toDigits
  have hmem : '-' ∈ (idText id).toList.reverse := by simp [hback]
  simp only [parts, htake, hdrop, List.reverse_reverse, List.drop_one, List.tail_cons]
  rw [if_pos ⟨hmem, hne, hall, momentText_ne_nil _, (hyphen_not_mem_momentText _).2⟩, hvalue]

theorem idText_inj {a b : EntryId} (ha : FIRST ≤ a.moment ∧ a.moment ≤ LAST)
    (hb : FIRST ≤ b.moment ∧ b.moment ≤ LAST) (h : idText a = idText b) : a = b := by
  have hparts := congrArg parts h
  rw [parts_idText, parts_idText] at hparts
  obtain ⟨hm, hs⟩ := Prod.mk.inj (Option.some.inj hparts)
  have := momentText_inj ha hb hm
  cases a
  cases b
  simp_all

-- What follows reads the texts by the lemmas above alone.
attribute [local irreducible] momentText idText parts

/-! ## Ids minted -/

/-- The seqs of the entries stamped at a moment, in the order they landed. -/
def seqsAt (ids : List EntryId) (moment : Int) : List Nat :=
  (ids.filter fun id => id.moment = moment).map EntryId.seq

theorem seqsAt_append (ids ids' : List EntryId) (moment : Int) :
    seqsAt (ids ++ ids') moment = seqsAt ids moment ++ seqsAt ids' moment := by
  simp [seqsAt]

/-- The ids minted at a moment go on counting from the last minted before them, or from the last the
history holds. -/
theorem seqsAt_minted (t : Tables) (moments : List Int) (last : List (Int × Nat)) (moment : Int) :
    seqsAt (minted t moments last) moment =
      List.range' ((Assoc.get last moment).getD (lastSeq t moment) + 1) (moments.count moment) := by
  induction moments generalizing last with
  | nil => rfl
  | cons first rest ih =>
      have hsplit : ∀ id : EntryId, ∀ ids, seqsAt (id :: ids) moment =
          if id.moment = moment then id.seq :: seqsAt ids moment else seqsAt ids moment := by
        intro id ids
        by_cases h : id.moment = moment <;> simp [seqsAt, h]
      rw [minted, hsplit, ih]
      by_cases h : first = moment
      · subst h
        rw [if_pos rfl, Assoc.get_set_self, Option.getD_some, List.count_cons_self,
          List.range'_succ]
      · rw [if_neg h, Assoc.get_set_ne _ _ (Ne.symm h), List.count_cons_of_ne h]

theorem moment_of_mem_minted {t : Tables} {moments : List Int} {last : List (Int × Nat)}
    {id : EntryId} (h : id ∈ minted t moments last) : id.moment ∈ moments := by
  induction moments generalizing last with
  | nil => nomatch h
  | cons first rest ih =>
      rcases List.mem_cons.mp h with rfl | h
      · exact List.mem_cons_self
      · exact List.mem_cons_of_mem _ (ih h)

/-- Whether the seqs of the ids stamped at each moment are 1, 2 and so on, in order. -/
def Gapless (ids : List EntryId) : Prop := ∀ moment, ∃ k, seqsAt ids moment = List.range' 1 k

theorem mem_seqsAt {ids : List EntryId} {id : EntryId} :
    id ∈ ids ↔ id.seq ∈ seqsAt ids id.moment := by
  constructor
  · exact fun h => List.mem_map_of_mem (List.mem_filter.mpr ⟨h, decide_eq_true rfl⟩)
  · intro h
    obtain ⟨id', hid', hseq⟩ := List.mem_map.mp h
    obtain ⟨hmem, hmoment⟩ := List.mem_filter.mp hid'
    have hmoment : id'.moment = id.moment := of_decide_eq_true hmoment
    have hsame : id' = id := by cases id'; cases id; simp_all
    exact hsame ▸ hmem

theorem Gapless.nodup {ids : List EntryId} (h : Gapless ids) : ids.Nodup := by
  rw [List.nodup_iff_count_le_one]
  intro id
  obtain ⟨k, hk⟩ := h id.moment
  have hcount : ids.count id ≤ (seqsAt ids id.moment).count id.seq := by
    have hfilter : (ids.filter fun other => other.moment = id.moment).count id = ids.count id :=
      List.count_filter (decide_eq_true rfl)
    rw [seqsAt, ← hfilter]
    exact List.count_le_count_map
  refine Nat.le_trans hcount ?_
  rw [hk]
  exact List.nodup_iff_count_le_one.mp List.nodup_range' _

theorem foldl_max (n m : Nat) : (List.range' (n + 1) m).foldl max n = n + m := by
  induction m generalizing n with
  | zero => rfl
  | succ m ih =>
      rw [List.range'_succ, List.foldl_cons, Nat.max_eq_right (Nat.le_succ n), ih]
      omega

/-- The last seq of a gapless history at a moment is the count of its entries there. -/
theorem lastSeq_eq {t : Tables} {moment : Int} {k : Nat}
    (h : seqsAt (t.entries.map Entry.id) moment = List.range' 1 k) :
    lastSeq t moment = k := by
  have hlast : lastSeq t moment = (seqsAt (t.entries.map Entry.id) moment).foldl max 0 := rfl
  rw [hlast, h]
  simpa using foldl_max 0 k

/-- Ids minted on an earlier history that a gapless one does not hold go on counting from where it
stands. -/
theorem Gapless.minted {s t : Tables} {moments : List Int} (ht : Gapless (t.entries.map Entry.id))
    (hs : Gapless (s.entries.map Entry.id)) (hgrown : s.entries <+: t.entries)
    (hnew : ∀ id ∈ minted s moments [], id ∉ t.entries.map Entry.id) :
    Gapless (t.entries.map Entry.id ++ minted s moments []) := by
  intro moment
  obtain ⟨k, hk⟩ := ht moment
  obtain ⟨j, hj⟩ := hs moment
  have hseqs := seqsAt_minted s moments [] moment
  rw [Assoc.get_nil, Option.getD_none, lastSeq_eq hj] at hseqs
  refine ⟨k + moments.count moment, ?_⟩
  rw [seqsAt_append, hk, hseqs]
  rcases Nat.eq_zero_or_pos (moments.count moment) with hzero | hpos
  · simp [hzero]
  · have hle : j ≤ k := by
      obtain ⟨more, hmore⟩ := hgrown
      have hlength := congrArg List.length hk
      rw [← hmore, List.map_append, seqsAt_append, List.length_append, hj, List.length_range',
        List.length_range'] at hlength
      omega
    -- Were an entry stamped at the moment since, the first id minted there would be held.
    have hstill : j = k := by
      rcases Nat.lt_or_ge j k with hlt | hge
      · have hfirst : j + 1 ∈ seqsAt (Journal.minted s moments []) moment := by
          rw [hseqs, List.mem_range'_1]
          omega
        have hmint : (⟨moment, j + 1⟩ : EntryId) ∈ Journal.minted s moments [] :=
          mem_seqsAt.mpr hfirst
        refine absurd (mem_seqsAt.mpr ?_) (hnew _ hmint)
        simp only [hk, List.mem_range'_1]
        omega
      · omega
    rw [hstill, show k + 1 = 1 + k from Nat.add_comm _ _, List.range'_append_1]

/-- Ids minted on a gapless history are free in it, and each once. -/
theorem Gapless.free {t : Tables} (ht : Gapless (t.entries.map Entry.id)) (moments : List Int) :
    (∀ id ∈ Journal.minted t moments [], id ∉ t.entries.map Entry.id) ∧
      (Journal.minted t moments []).Nodup := by
  have hfree : ∀ id ∈ Journal.minted t moments [], id ∉ t.entries.map Entry.id := by
    intro id hid hheld
    obtain ⟨k, hk⟩ := ht id.moment
    have hminted := mem_seqsAt.mp hid
    have hin := mem_seqsAt.mp hheld
    rw [seqsAt_minted, Assoc.get_nil, Option.getD_none, lastSeq_eq hk, List.mem_range'_1] at hminted
    rw [hk, List.mem_range'_1] at hin
    omega
  exact ⟨hfree, (List.nodup_append.mp (ht.minted ht (List.prefix_refl _) hfree).nodup).2.1⟩

end Journal

/-! ## A landing's entries -/

namespace Landing

theorem Written.entries_eq {landed : Nat} {t t' : Tables} {cs : List (Change × Nat)}
    (h : Written landed t cs t') :
    t'.entries = t.entries := by
  induction h with
  | nil => rfl
  | cons _ _ _ ih => exact ih

theorem Written.sets_eq {landed : Nat} {t t' : Tables} {cs : List (Change × Nat)}
    (h : Written landed t cs t') :
    t'.sets = t.sets := by
  induction h with
  | nil => rfl
  | cons _ _ _ ih => exact ih

theorem Lands.entries_eq {t t' : Tables} {changes : List Change} {entries : List Entry}
    (h : Lands t changes entries t') :
    t'.entries = t.entries ++ entries := by
  obtain ⟨left, hwritten, _, _, rfl⟩ := h.written
  simp only [hwritten.entries_eq, opened]

theorem Lands.sets_eq {t t' : Tables} {changes : List Change} {entries : List Entry}
    (h : Lands t changes entries t') :
    t'.sets = t.sets ++ [(t.lastSet + 1, entries.head?.map Entry.batch)] := by
  obtain ⟨left, hwritten, _, _, rfl⟩ := h.written
  simp only [hwritten.sets_eq, opened]

/-- No write and no check of a change reads what a set's row says. -/
theorem Written.named {landed : Nat} {t t' : Tables} {cs : List (Change × Nat)}
    (h : Written landed t cs t') (sets : List (Nat × Option EntryId)) :
    Written landed { t with sets } cs { t' with sets } := by
  induction h with
  | nil t => exact .nil _
  | cons hread hable _ ih =>
      exact .cons hread ⟨hable.integer, hable.named, hable.kinded, hable.newVersion⟩ ih

theorem notedAll_named (landed : Nat) (t : Tables) (h : Held) (cs : List (Change × Nat))
    (sets : List (Nat × Option EntryId)) :
    notedAll landed { t with sets } h cs = notedAll landed t h cs := by
  induction cs generalizing t h with
  | nil => rfl
  | cons p rest ih => exact ih (t.wrote landed p.2 p.1) (noted t h p.1)

/-- Whether a set lands turns on its entries only by their ids and its batch. -/
theorem Lands.named {t t' : Tables} {changes : List Change} {entries entries' : List Entry}
    (h : Lands t changes entries t')
    (hids : (∀ e ∈ entries', e.id ∉ t.entries.map Entry.id) ∧ (entries'.map Entry.id).Nodup)
    (hbatch : ∀ batch, entries'.head?.map Entry.batch = some batch →
      some batch ∉ t.sets.map Prod.snd) :
    ∃ t'', Lands t changes entries' t'' := by
  obtain ⟨left', hwritten, hun, hleft, _⟩ := h.written
  refine ⟨_, hids, hbatch, h.unmoved, { left' with sets := (opened t entries').sets },
    hwritten.named _, hun, ?_, rfl⟩
  have hnoted :=
    notedAll_named (t.lastSet + 1) (opened t entries) {} changes.zipIdx (opened t entries').sets
  have hopened : opened t entries' = { opened t entries with sets := (opened t entries').sets } :=
    rfl
  rw [hopened, hnoted]
  exact hleft

end Landing

/-- A history whose ids are gapless, and sets named by ids of it. -/
structure Tables.Stamped (t : Tables) : Prop where
  gapless : Journal.Gapless (t.entries.map Entry.id)
  batches : ∀ p ∈ t.sets, ∀ batch, p.2 = some batch → batch ∈ t.entries.map Entry.id

/-- Entries under ids minted on a store at some moments, all naming the first's id as their
batch. -/
structure Journal.Minted (s : Tables) (moments : List Int) (entries : List Entry) : Prop where
  ids : entries.map Entry.id = Journal.minted s moments []
  batch : ∀ e ∈ entries, entries.head?.map Entry.id = some e.batch

namespace Landing

open Journal

/-- The entries of a set that lands were minted on a store whose history is the first of the one it
lands on. -/
theorem Lands.stamped {s t t' : Tables} {moments : List Int} {changes : List Change}
    {entries : List Entry} (h : Lands t changes entries t') (hminted : Minted s moments entries)
    (ht : t.Stamped) (hs : s.Stamped) (hgrown : s.entries <+: t.entries) : t'.Stamped where
  gapless := by
    rw [h.entries_eq, List.map_append, hminted.ids]
    refine ht.gapless.minted hs.gapless hgrown fun id hid => ?_
    obtain ⟨e, he, rfl⟩ := List.mem_map.mp (hminted.ids ▸ hid)
    exact h.newIds.1 e he
  batches := by
    intro p hp batch hbatch
    rw [h.entries_eq, List.map_append, List.mem_append]
    rw [h.sets_eq] at hp
    rcases List.mem_append.mp hp with hp | hp
    · exact Or.inl (ht.batches p hp batch hbatch)
    · rw [List.mem_singleton.mp hp] at hbatch
      rcases entries with _ | ⟨e, rest⟩
      · nomatch hbatch
      · have hfirst := hminted.batch e List.mem_cons_self
        rw [← Option.some.inj hbatch, ← Option.some.inj hfirst]
        exact Or.inr List.mem_cons_self

/-- Entries minted on the store they are landed on are refused by nothing of theirs. -/
theorem lands_iff_alone {t : Tables} (ht : t.Stamped) {moments : List Int} {entries : List Entry}
    (hminted : Minted t moments entries) (changes : List Change) :
    (∃ t', landed t changes entries = .ok t') ↔ ∃ t', landed t changes [] = .ok t' := by
  have hfree := ht.gapless.free moments
  have hnew : (∀ e ∈ entries, e.id ∉ t.entries.map Entry.id) ∧ (entries.map Entry.id).Nodup := by
    refine ⟨fun e he => hfree.1 _ (hminted.ids ▸ List.mem_map_of_mem he), ?_⟩
    rw [hminted.ids]
    exact hfree.2
  constructor
  · rintro ⟨t', hlanded⟩
    obtain ⟨t'', hlands⟩ : ∃ t'', Lands t changes [] t'' :=
      ((landed_iff ..).mp hlanded).named ⟨nofun, List.nodup_nil⟩ nofun
    exact ⟨t'', (landed_iff ..).mpr hlands⟩
  · rintro ⟨t', hlanded⟩
    obtain ⟨t'', hlands⟩ : ∃ t'', Lands t changes entries t'' :=
        ((landed_iff ..).mp hlanded).named hnew (by
      intro batch hbatch hheld
      rcases entries with _ | ⟨e, rest⟩
      · nomatch hbatch
      · obtain ⟨p, hp, hpb⟩ := List.mem_map.mp hheld
        have hin := ht.batches p hp batch hpb
        have hfirst := hminted.batch e List.mem_cons_self
        rw [← Option.some.inj hbatch, ← Option.some.inj hfirst] at hin
        exact hnew.1 e List.mem_cons_self hin)
    exact ⟨t'', (landed_iff ..).mpr hlands⟩

/-- A set any of whose ids another took is refused as a conflict. -/
theorem landed_taken {t : Tables} {changes : List Change} {entries : List Entry}
    (h : ∃ e ∈ entries, e.id ∈ t.entries.map Entry.id) :
    landed t changes entries = .error .conflict := by
  obtain ⟨e, he, hheld⟩ := h
  have hany : (entries.map Entry.id).any (fun id => (t.entries.map Entry.id).contains id) = true :=
    List.any_eq_true.mpr ⟨e.id, List.mem_map_of_mem he, List.contains_iff_mem.mpr hheld⟩
  have hunheld : unheld entries (t, {}) = .error .conflict := by
    simp only [unheld, check, hany, Bool.true_or, if_true]
  have hscript : script (changes, entries) =
      unheld entries :: (numbered entries :: unmoved changes :: waited changes ::
        (changing changes.zipIdx ++ [integral changes, recorded entries])) := rfl
  rw [landed_eq, hscript, runAll_cons, hunheld]
  rfl

end Landing

/-! ## Every history -/

namespace Stamps

open Journal

/-- A new store, its start stamped by a clock. -/
def Started (t : Tables) : Prop :=
  ∃ O role execution reading moment, inUtc reading = some moment ∧
    Start.started O role execution moment = .ok t

/-- A set or a snapshot landed, under ids minted at its clock's readings on a store seen by then. -/
def Step (t : Tables) (past : List Tables) (t' : Tables) : Prop :=
  ∃ s changes entries moments, ∃ readings : List Reading, s ∈ t :: past ∧
    readings.map inUtc = moments.map some ∧
    Minted s moments entries ∧ landed t changes entries = .ok t'

/-- The stores any number of writers lead a store through, newest first, each writer minting on any
store it saw and landing later. -/
abbrev Histories : List Tables → Prop := History.Run Started Step

theorem started_stamped {O : Outside} {role execution : String} {moment : Int} {t : Tables}
    (h : Start.started O role execution moment = .ok t) :
    t.Stamped ∧ t.entries.map Entry.id = [⟨moment, 1⟩] := by
  obtain ⟨_, _, hlanded⟩ := Start.started_ok h
  have hlands := (landed_iff ..).mp hlanded
  have hids : t.entries.map Entry.id = [⟨moment, 1⟩] := by
    rw [hlands.entries_eq]
    rfl
  refine ⟨⟨fun other => ?_, ?_⟩, hids⟩
  · rw [hids]
    by_cases hm : moment = other
    · exact ⟨1, by simp [seqsAt, hm]⟩
    · exact ⟨0, by simp [seqsAt, hm]⟩
  · intro p hp batch hbatch
    rw [hlands.sets_eq] at hp
    rw [List.mem_singleton.mp hp] at hbatch
    rw [hids, ← Option.some.inj hbatch]
    exact List.mem_singleton.mpr rfl

/-- No landing takes an entry out of the history. -/
theorem entries_grow {states : List Tables} (h : Histories states) :
    states.Pairwise fun later earlier => earlier.entries <+: later.entries :=
  History.Run.between (R := fun s t : Tables => s.entries <+: t.entries)
    (fun _ _ _ => List.IsPrefix.trans)
    (fun t _ t' _ ⟨_, _, _, _, _, _, _, _, hlanded⟩ => by
      rw [((landed_iff ..).mp hlanded).entries_eq]
      exact List.prefix_append _ _) h

theorem grown_of_mem {t s : Tables} {past : List Tables} (h : Histories (t :: past))
    (hs : s ∈ t :: past) :
    s.entries <+: t.entries := by
  rcases List.mem_cons.mp hs with rfl | hs
  · exact List.prefix_refl _
  · exact (List.pairwise_cons.mp (entries_grow h)).1 s hs

theorem stamped {states : List Tables} (h : Histories states) : ∀ t ∈ states, t.Stamped :=
  History.Run.invariant (fun _ ⟨_, _, _, _, _, _, hstart⟩ => (started_stamped hstart).1)
    (fun t _ _ hrun hpast ⟨s, _, _, _, _, hs, _, hminted, hlanded⟩ =>
      ((landed_iff ..).mp hlanded).stamped hminted (hpast t List.mem_cons_self) (hpast s hs)
        (grown_of_mem hrun hs)) h

/-- Every entry's moment is one a clock read. -/
theorem moments_read {states : List Tables} (h : Histories states) :
    ∀ t ∈ states, ∀ id ∈ t.entries.map Entry.id, FIRST ≤ id.moment ∧ id.moment ≤ LAST := by
  refine History.Run.invariant ?_ ?_ h
  · rintro t ⟨_, _, _, _, moment, hread, hstart⟩ id hid
    rw [(started_stamped hstart).2] at hid
    rw [List.mem_singleton.mp hid]
    exact inUtc_mem hread
  · rintro t past t' _ hpast ⟨s, _, entries, moments, readings, _, hread, hminted, hlanded⟩ id hid
    rw [((landed_iff ..).mp hlanded).entries_eq, List.map_append, List.mem_append,
      hminted.ids] at hid
    rcases hid with hid | hid
    · exact hpast t List.mem_cons_self id hid
    · have hmem : some id.moment ∈ readings.map inUtc :=
        hread ▸ List.mem_map_of_mem (moment_of_mem_minted hid)
      obtain ⟨reading, _, hreading⟩ := List.mem_map.mp hmem
      exact inUtc_mem hreading

/-- Entry ids are unique and gapless, under any clocks and any interleaving of writers: no two
entries' ids are one text, and the seqs at each moment are, in the order they landed, 1, 2 and so
on.  A set with an id another took is refused as a conflict and nothing else; minted where it lands,
it lands wherever its changes alone would, and a snapshot always. -/
theorem ids_unique_gapless {states : List Tables} (h : Histories states) {t : Tables}
    (ht : t ∈ states) :
    (t.entries.map fun e => idText e.id).Nodup ∧
    (∀ moment, ∃ k, seqsAt (t.entries.map Entry.id) moment = List.range' 1 k) ∧
    (∀ changes entries, (∃ e ∈ entries, e.id ∈ t.entries.map Entry.id) →
      landed t changes entries = .error .conflict) ∧
    (∀ changes moments entries, Minted t moments entries →
      ((∃ t', landed t changes entries = .ok t') ↔ ∃ t', landed t changes [] = .ok t')) ∧
    ∀ read signed moment, ∃ t', Write.snapshot read signed moment t t = .ok t' := by
  have hstamped := stamped h t ht
  refine ⟨?_, hstamped.gapless, fun _ _ => landed_taken, fun changes moments entries hminted =>
    lands_iff_alone hstamped hminted changes,
    fun read signed moment => ?_⟩
  · have hmap : (t.entries.map fun e => idText e.id) = (t.entries.map Entry.id).map idText := by
      rw [List.map_map]; rfl
    rw [hmap]
    refine List.Nodup.map_on (fun a ha b hb hab => ?_) hstamped.gapless.nodup
    exact idText_inj (moments_read h t ht a ha) (moments_read h t ht b hb) hab
  · have hminted : Minted t [moment] ((minted t [moment] []).map (snapshot signed read)) := by
      refine ⟨?_, fun e he => ?_⟩
      · rw [List.map_map]
        exact List.map_id _
      · obtain rfl := List.mem_singleton.mp he
        rfl
    refine (lands_iff_alone hstamped hminted []).mpr
      ⟨_, (landed_iff ..).mpr ⟨⟨nofun, List.nodup_nil⟩, nofun, nofun, _, .nil _, rfl, rfl, rfl⟩⟩

/-! ## Two snapshots stamped at one moment -/

namespace Taken

/-- The start of 1970 as a clock an hour ahead of UTC reads it. -/
def reading : Reading := ⟨3600000000, some 3600000000⟩

def first : Tables := (Start.started Sample.outside "role" "execution" 0).toOption.getD {}

/-- The store once one of two snapshots minted on it has landed. -/
def second : Tables := (Write.snapshot [] Sample.signed 0 first first).toOption.getD {}

end Taken

open Taken in
/-- Two snapshots minted at one moment on one store: the ids that land are two texts, their seqs 1,
2 with the start's; the second to come is refused as it was minted, and lands minted again. -/
theorem ids_unique_gapless_taken :
    (second.entries.map fun e => idText e.id).Nodup ∧
      (∃ k, seqsAt (second.entries.map Entry.id) 0 = List.range' 1 k) ∧
      landed second [] ((minted first [0] []).map (snapshot Sample.signed [])) = .error .conflict ∧
      ∃ t', Write.snapshot [] Sample.signed 0 second second = .ok t' := by
  have hfirst : Start.started Sample.outside "role" "execution" 0 = .ok first := by decide +kernel
  have hsecond : landed first [] ((minted first [0] []).map (snapshot Sample.signed [])) =
    .ok second := by decide +kernel
  have hread : inUtc reading = some 0 := by decide
  have hminted : Minted first [0] ((minted first [0] []).map (snapshot Sample.signed [])) := by
    refine ⟨rfl, fun e he => ?_⟩
    obtain rfl := List.mem_singleton.mp he
    rfl
  have hrun : Histories [second, first] :=
    .step (.start ⟨_, _, _, reading, 0, hread, hfirst⟩)
      ⟨first, [], _, [0], [reading], List.mem_cons_self, by
        rw [List.map_singleton, hread]; rfl, hminted, hsecond⟩
  obtain ⟨hids, hseqs, htaken, _, hsnapshot⟩ :=
    ids_unique_gapless hrun (t := second) List.mem_cons_self
  have hheld : ∃ e ∈ (minted first [0] []).map (snapshot Sample.signed []),
      e.id ∈ second.entries.map Entry.id := by
    decide +kernel
  exact ⟨hids, hseqs 0, htaken _ _ hheld, hsnapshot _ _ _⟩

end Stamps

end Kb
