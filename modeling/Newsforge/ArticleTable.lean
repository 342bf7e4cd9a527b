/-
The article table, its unique indexes, and the statements of the upsert.

* `Article`, `Db` — a row of `articles_article`, and the table with the
  sequence its ids come from.  The `tsv` column is left out: a trigger derives
  it, and no statement modelled here reads it;
* `guidClash`, `hashClash` — the indexes `articles_feed_guid_uniq` and
  `articles_feed_hash_uniq`; `WellFormed` — both hold, and ids are unique;
* `insertStmt`, `updateEdited`, `touchExisting`, `claimStmt`, `releaseStmt` —
  the SQL statements of `apps/articles/services.py`, each as one atomic step.

Each statement has its equations (`insertStmt_of_duplicate`,
`updateEdited_of_editable`, `touchTarget_spec`, …), and keeps `WellFormed`.
-/
import Mathlib.Data.List.Basic
import Mathlib.Data.List.Nodup
import Mathlib.Tactic.Common
import Newsforge.PyText
import Newsforge.Tables

open Tables

namespace ArticleTable

/-! ### Rows -/

/-- A row of `articles_article`. -/
structure Article where
  id : Nat
  feedId : Nat
  guid : Text
  canonicalUrl : Text
  url : Text
  title : Text
  summary : Text
  body : Text
  author : Option Text
  language : Text
  contentHash : Text
  publishedAt : Option Time
  fetchedAt : Time
  lastSeenAt : Time
  isDeleted : Bool
  createdAt : Time
  processedAt : Option Time
  deriving DecidableEq, Repr

/-- The result of `normalize_entry`: fields ready for the upsert. -/
structure NormalizedEntry where
  canonicalUrl : Text
  url : Text
  title : Text
  summary : Text
  body : Text
  author : Option Text
  language : Text
  contentHash : Text
  guid : Text
  publishedAt : Option Time
  deriving DecidableEq, Repr

/-- The table, and the next value of the sequence behind `id`. -/
structure Db where
  rows : List Article
  nextId : Nat
  deriving DecidableEq, Repr

def Db.empty : Db := ⟨[], 1⟩

/-! ### Unique indexes -/

/-- Two rows collide in `articles_feed_guid_uniq` on `(feed_id, guid) WHERE guid <> ''`. -/
def guidClash (a b : Article) : Prop :=
  a.feedId = b.feedId ∧ a.guid = b.guid ∧ a.guid ≠ []

/-- Two rows collide in `articles_feed_hash_uniq` on `(feed_id, content_hash)`. -/
def hashClash (a b : Article) : Prop :=
  a.feedId = b.feedId ∧ a.contentHash = b.contentHash

instance : DecidableRel guidClash := fun a b =>
  inferInstanceAs (Decidable (a.feedId = b.feedId ∧ a.guid = b.guid ∧ a.guid ≠ []))

instance : DecidableRel hashClash := fun a b =>
  inferInstanceAs (Decidable (a.feedId = b.feedId ∧ a.contentHash = b.contentHash))

theorem guidClash_symm {a b : Article} (h : guidClash a b) : guidClash b a :=
  ⟨h.1.symm, h.2.1.symm, h.2.1 ▸ h.2.2⟩

theorem hashClash_symm {a b : Article} (h : hashClash a b) : hashClash b a :=
  ⟨h.1.symm, h.2.symm⟩

/-- Both unique indexes hold, ids are unique, and the sequence is ahead of them. -/
structure WellFormed (db : Db) : Prop where
  guids : Distinct guidClash db.rows
  hashes : Distinct hashClash db.rows
  ids : (db.rows.map Article.id).Nodup
  fresh : ∀ r ∈ db.rows, r.id < db.nextId

theorem WellFormed.empty : WellFormed Db.empty :=
  ⟨Distinct.nil, Distinct.nil, List.nodup_nil, by simp [Db.empty]⟩

/-- The row `r` of the table is the one its id names. -/
theorem WellFormed.eq_of_id {db : Db} (h : WellFormed db) {a b : Article}
    (ha : a ∈ db.rows) (hb : b ∈ db.rows) (hid : a.id = b.id) : a = b :=
  List.inj_on_of_nodup_map h.ids ha hb hid

/-! ### Conditions of the statements -/

/-- `feed_id = %(feed_id)s AND %(guid)s <> '' AND guid = %(guid)s`. -/
def hasGuid (feedId : Nat) (entry : NormalizedEntry) (r : Article) : Bool :=
  r.feedId == feedId && entry.guid != [] && r.guid == entry.guid

/-- `feed_id = %(feed_id)s AND content_hash = %(content_hash)s`. -/
def hasHash (feedId : Nat) (entry : NormalizedEntry) (r : Article) : Bool :=
  r.feedId == feedId && r.contentHash == entry.contentHash

@[simp] theorem hasGuid_iff {feedId : Nat} {entry : NormalizedEntry} {r : Article} :
    hasGuid feedId entry r = true ↔
      r.feedId = feedId ∧ entry.guid ≠ [] ∧ r.guid = entry.guid := by
  simp [hasGuid, and_assoc]

@[simp] theorem hasHash_iff {feedId : Nat} {entry : NormalizedEntry} {r : Article} :
    hasHash feedId entry r = true ↔ r.feedId = feedId ∧ r.contentHash = entry.contentHash := by
  simp [hasHash]

/-- At most one row has the guid of an entry. -/
theorem WellFormed.eq_of_hasGuid {db : Db} (h : WellFormed db) {feedId : Nat}
    {entry : NormalizedEntry} {a b : Article} (ha : a ∈ db.rows) (hb : b ∈ db.rows)
    (hga : hasGuid feedId entry a = true) (hgb : hasGuid feedId entry b = true) : a = b := by
  rw [hasGuid_iff] at hga hgb
  obtain ⟨hfa, hne, hga⟩ := hga
  obtain ⟨hfb, -, hgb⟩ := hgb
  refine h.guids.eq_of_clash (fun _ _ => guidClash_symm) ha hb ⟨?_, ?_, ?_⟩
  · rw [hfa, hfb]
  · rw [hga, hgb]
  · rw [hga]
    exact hne

/-- At most one row has the content hash of an entry. -/
theorem WellFormed.eq_of_hasHash {db : Db} (h : WellFormed db) {feedId : Nat}
    {entry : NormalizedEntry} {a b : Article} (ha : a ∈ db.rows) (hb : b ∈ db.rows)
    (hha : hasHash feedId entry a = true) (hhb : hasHash feedId entry b = true) : a = b := by
  rw [hasHash_iff] at hha hhb
  refine h.hashes.eq_of_clash (fun _ _ => hashClash_symm) ha hb ⟨?_, ?_⟩
  · rw [hha.1, hhb.1]
  · rw [hha.2, hhb.2]

/-! ### `INSERT … ON CONFLICT DO NOTHING` -/

/-- The row `_INSERT` proposes. -/
def newArticle (feedId : Nat) (entry : NormalizedEntry) (now : Time) (id : Nat) : Article where
  id := id
  feedId := feedId
  guid := entry.guid
  canonicalUrl := entry.canonicalUrl
  url := entry.url
  title := entry.title
  summary := entry.summary
  body := entry.body
  author := entry.author
  language := entry.language
  contentHash := entry.contentHash
  publishedAt := entry.publishedAt
  fetchedAt := now
  lastSeenAt := now
  isDeleted := false
  createdAt := now
  processedAt := none

/-- `_INSERT`.  The sequence advances on a conflict too. -/
def insertStmt (feedId : Nat) (entry : NormalizedEntry) (now : Time) (db : Db) :
    Option Nat × Db :=
  let new := newArticle feedId entry now db.nextId
  if db.rows.any fun r => guidClash r new || hashClash r new then
    (none, ⟨db.rows, db.nextId + 1⟩)
  else
    (some db.nextId, ⟨db.rows ++ [new], db.nextId + 1⟩)

/-- A row of the feed has the guid or the hash of the entry. -/
def Duplicate (feedId : Nat) (entry : NormalizedEntry) (rows : List Article) : Prop :=
  ∃ r ∈ rows, hasGuid feedId entry r = true ∨ hasHash feedId entry r = true

theorem any_clash_iff {feedId : Nat} {entry : NormalizedEntry} {now : Time} {id : Nat}
    {rows : List Article} :
    (rows.any fun r => guidClash r (newArticle feedId entry now id) ||
        hashClash r (newArticle feedId entry now id)) = true ↔
      Duplicate feedId entry rows := by
  simp only [List.any_eq_true, Bool.or_eq_true, decide_eq_true_eq, Duplicate, hasGuid_iff,
    hasHash_iff]
  constructor
  · rintro ⟨r, hr, ⟨hf, hg, hne⟩ | hh⟩
    · exact ⟨r, hr, .inl ⟨hf, fun he => hne (hg.trans he), hg⟩⟩
    · exact ⟨r, hr, .inr hh⟩
  · rintro ⟨r, hr, ⟨hf, hne, hg⟩ | hh⟩
    · exact ⟨r, hr, .inl ⟨hf, hg, fun he => hne (hg.symm.trans he)⟩⟩
    · exact ⟨r, hr, .inr hh⟩

instance (feedId : Nat) (entry : NormalizedEntry) (rows : List Article) :
    Decidable (Duplicate feedId entry rows) :=
  inferInstanceAs (Decidable (∃ r ∈ rows, hasGuid feedId entry r = true ∨
    hasHash feedId entry r = true))

/-- `_INSERT` on a duplicate: no row is written. -/
theorem insertStmt_of_duplicate {feedId : Nat} {entry : NormalizedEntry} {now : Time} {db : Db}
    (h : Duplicate feedId entry db.rows) :
    insertStmt feedId entry now db = (none, ⟨db.rows, db.nextId + 1⟩) := by
  rw [insertStmt, if_pos (any_clash_iff.mpr h)]

/-- `_INSERT` on a new entry: its row is appended. -/
theorem insertStmt_of_not_duplicate {feedId : Nat} {entry : NormalizedEntry} {now : Time}
    {db : Db} (h : ¬ Duplicate feedId entry db.rows) :
    insertStmt feedId entry now db =
      (some db.nextId,
        ⟨db.rows ++ [newArticle feedId entry now db.nextId], db.nextId + 1⟩) := by
  rw [insertStmt, if_neg (fun hc => h (any_clash_iff.mp hc))]

/-! ### `_UPDATE_EDITED` -/

/-- The `SET` list of `_UPDATE_EDITED`. -/
def Article.edit (entry : NormalizedEntry) (now : Time) (r : Article) : Article :=
  { r with
    canonicalUrl := entry.canonicalUrl
    url := entry.url
    title := entry.title
    summary := entry.summary
    body := entry.body
    author := entry.author
    language := entry.language
    contentHash := entry.contentHash
    publishedAt := entry.publishedAt.or r.publishedAt
    lastSeenAt := now }

/-- The `WHERE` clause of `_UPDATE_EDITED` in the table `rows`. -/
def editable (feedId : Nat) (entry : NormalizedEntry) (rows : List Article) (r : Article) :
    Bool :=
  hasGuid feedId entry r && r.contentHash != entry.contentHash &&
    !rows.any (hasHash feedId entry)

/-- The exceptions a call of `upsert_article` can meet. -/
inductive UpsertError
  /-- a unique index refused a row -/
  | integrityError
  /-- `article conflict without a matching row (feed …)` -/
  | runtimeError (feedId : Nat)
  deriving DecidableEq, Repr

/-- `_UPDATE_EDITED`: the updated rows must pass both unique indexes. -/
def updateEdited (feedId : Nat) (entry : NormalizedEntry) (now : Time) (db : Db) :
    Except UpsertError (Option Nat × Db) :=
  let rows := updateWhere (editable feedId entry db.rows) (Article.edit entry now) db.rows
  if Distinct guidClash rows ∧ Distinct hashClash rows then
    .ok (((db.rows.filter (editable feedId entry db.rows)).head?).map Article.id,
      ⟨rows, db.nextId⟩)
  else
    .error .integrityError

/-! ### `_TOUCH_EXISTING` -/

/-- `SET last_seen_at = now()`. -/
def Article.touch (now : Time) (r : Article) : Article := { r with lastSeenAt := now }

/-- The subquery of `_TOUCH_EXISTING`: rows that match by guid come first. -/
def touchTarget (feedId : Nat) (entry : NormalizedEntry) (rows : List Article) :
    Option Article :=
  (orderByDesc (hasGuid feedId entry)
    (rows.filter fun r => hasGuid feedId entry r || hasHash feedId entry r)).head?

/-- `_TOUCH_EXISTING`. -/
def touchExisting (feedId : Nat) (entry : NormalizedEntry) (now : Time) (db : Db) :
    Option Nat × Db :=
  match touchTarget feedId entry db.rows with
  | none => (none, db)
  | some target =>
    (some target.id, ⟨updateWhere (fun r => r.id == target.id) (Article.touch now) db.rows,
      db.nextId⟩)

/-! ### `_CLAIM` and its undoing -/

/-- `_CLAIM`: true for the one caller that finds `processed_at` null. -/
def claimStmt (id : Nat) (now : Time) (db : Db) : Bool × Db :=
  let open? := fun r : Article => r.id == id && r.processedAt.isNone
  (db.rows.any open?,
    ⟨updateWhere open? (fun r => { r with processedAt := some now }) db.rows, db.nextId⟩)

/-- The statement of `release_processing`. -/
def releaseStmt (id : Nat) (db : Db) : Db :=
  ⟨updateWhere (fun r => r.id == id) (fun r => { r with processedAt := none }) db.rows,
    db.nextId⟩

/-! ### What the statements keep -/

/-- The columns that no statement of the upsert writes. -/
def Article.frozen (r : Article) : Nat × Nat × Text × Time × Bool × Time × Option Time :=
  (r.id, r.feedId, r.guid, r.fetchedAt, r.isDeleted, r.createdAt, r.processedAt)

@[simp] theorem frozen_edit (entry : NormalizedEntry) (now : Time) (r : Article) :
    (r.edit entry now).frozen = r.frozen := rfl

@[simp] theorem frozen_touch (now : Time) (r : Article) : (r.touch now).frozen = r.frozen := rfl

/-- An update that keeps the indexed columns keeps the indexes. -/
theorem WellFormed.update_keeping {db : Db} (h : WellFormed db) (p : Article → Bool)
    {f : Article → Article} (hid : ∀ r, (f r).id = r.id) (hfeed : ∀ r, (f r).feedId = r.feedId)
    (hguid : ∀ r, (f r).guid = r.guid) (hhash : ∀ r, (f r).contentHash = r.contentHash) :
    WellFormed ⟨updateWhere p f db.rows, db.nextId⟩ := by
  have hkeep : ∀ r : Article, (if p r then f r else r).id = r.id ∧
      (if p r then f r else r).feedId = r.feedId ∧ (if p r then f r else r).guid = r.guid ∧
      (if p r then f r else r).contentHash = r.contentHash := by
    intro r
    by_cases hp : p r <;> simp [hp, hid, hfeed, hguid, hhash]
  refine ⟨?_, ?_, ?_, ?_⟩
  · refine h.guids.updateWhere fun a _ b _ hab hc => hab ?_
    obtain ⟨-, haf, hag, -⟩ := hkeep a
    obtain ⟨-, hbf, hbg, -⟩ := hkeep b
    rw [guidClash, haf, hbf, hag, hbg] at hc
    exact hc
  · refine h.hashes.updateWhere fun a _ b _ hab hc => hab ?_
    obtain ⟨-, haf, -, hah⟩ := hkeep a
    obtain ⟨-, hbf, -, hbh⟩ := hkeep b
    rw [hashClash, haf, hbf, hah, hbh] at hc
    exact hc
  · rw [map_updateWhere hid]
    exact h.ids
  · intro r hr
    obtain ⟨r₀, hr₀, rfl⟩ := mem_updateWhere.mp hr
    rw [(hkeep r₀).1]
    exact h.fresh r₀ hr₀

theorem insertStmt_wellFormed {db : Db} (h : WellFormed db) (feedId : Nat)
    (entry : NormalizedEntry) (now : Time) :
    WellFormed (insertStmt feedId entry now db).2 := by
  by_cases hd : Duplicate feedId entry db.rows
  · -- only the sequence moves
    rw [insertStmt_of_duplicate hd]
    exact ⟨h.guids, h.hashes, h.ids, fun r hr => Nat.lt_succ_of_lt (h.fresh r hr)⟩
  · rw [insertStmt_of_not_duplicate hd]
    refine ⟨h.guids.concat ?_, h.hashes.concat ?_, ?_, ?_⟩
    · rintro r hr ⟨hf, hg, hne⟩
      exact hd ⟨r, hr, .inl (hasGuid_iff.mpr ⟨hf, fun he => hne (hg.trans he), hg⟩)⟩
    · intro r hr hh
      exact hd ⟨r, hr, .inr (hasHash_iff.mpr hh)⟩
    · -- the sequence is ahead of every id in the table
      rw [List.map_append, List.map_singleton, List.nodup_append]
      refine ⟨h.ids, List.nodup_singleton _, ?_⟩
      intro a ha b hb hab
      obtain ⟨r, hr, rfl⟩ := List.mem_map.mp ha
      rw [List.mem_singleton.mp hb] at hab
      exact absurd hab (Nat.ne_of_lt (h.fresh r hr))
    · intro r hr
      rcases List.mem_append.mp hr with hr | hr
      · exact Nat.lt_succ_of_lt (h.fresh r hr)
      · rw [List.mem_singleton.mp hr]
        exact Nat.lt_succ_self _

/-- An edit gives a row a hash that no row of its feed has, so both indexes
survive it. -/
theorem WellFormed.update_edit {db : Db} (h : WellFormed db) (feedId : Nat)
    (entry : NormalizedEntry) (now : Time) :
    WellFormed ⟨updateWhere (editable feedId entry db.rows) (Article.edit entry now) db.rows,
      db.nextId⟩ := by
  set ed := editable feedId entry db.rows with hed
  have hgid : ∀ r : Article, (if ed r then r.edit entry now else r).id = r.id ∧
      (if ed r then r.edit entry now else r).feedId = r.feedId ∧
      (if ed r then r.edit entry now else r).guid = r.guid := by
    intro r
    by_cases hp : ed r <;> simp [hp, Article.edit]
  have hcond : ∀ r, ed r = true → hasGuid feedId entry r = true ∧
      ∀ x ∈ db.rows, ¬ hasHash feedId entry x = true := by
    intro r hr
    simp only [hed, editable, Bool.and_eq_true, Bool.not_eq_true', List.any_eq_false] at hr
    exact ⟨hr.1.1, hr.2⟩
  -- a row that is not edited does not have the new hash; two edited rows are one row
  have hfree : ∀ a b, ed a = true → b ∈ db.rows → a.feedId = b.feedId →
      entry.contentHash ≠ b.contentHash := by
    intro a b ha hb hf heq
    obtain ⟨hg, hno⟩ := hcond a ha
    exact hno b hb (hasHash_iff.mpr ⟨hf ▸ (hasGuid_iff.mp hg).1, heq.symm⟩)
  refine ⟨?_, ?_, ?_, ?_⟩
  · -- an edit writes neither feed nor guid
    refine h.guids.updateWhere fun a _ b _ hab hc => hab ?_
    rw [guidClash, (hgid a).2.1, (hgid b).2.1, (hgid a).2.2, (hgid b).2.2] at hc
    exact hc
  · rw [Distinct, Tables.updateWhere, List.pairwise_map]
    refine List.Pairwise.imp_of_mem ?_ (List.Pairwise.and h.guids h.hashes)
    rintro a b ha hb ⟨hnguid, hnhash⟩ hc
    rw [hashClash, (hgid a).2.1, (hgid b).2.1] at hc
    obtain ⟨hf, hh⟩ := hc
    -- two edited rows have one guid; an edited and another one different hashes
    by_cases hea : ed a = true
    · by_cases heb : ed b = true
      · obtain ⟨-, hne, hga⟩ := hasGuid_iff.mp (hcond a hea).1
        obtain ⟨-, -, hgb⟩ := hasGuid_iff.mp (hcond b heb).1
        exact hnguid ⟨hf, hga.trans hgb.symm, fun he => hne (hga ▸ he)⟩
      · rw [if_pos hea, if_neg heb] at hh
        exact hfree a b hea hb hf hh
    · by_cases heb : ed b = true
      · rw [if_neg hea, if_pos heb] at hh
        exact hfree b a heb ha hf.symm hh.symm
      · rw [if_neg hea, if_neg heb] at hh
        exact hnhash ⟨hf, hh⟩
  · rw [map_updateWhere fun r => show (r.edit entry now).id = r.id from rfl]
    exact h.ids
  · intro r hr
    obtain ⟨r₀, hr₀, rfl⟩ := mem_updateWhere.mp hr
    rw [(hgid r₀).1]
    exact h.fresh r₀ hr₀

/-- Run alone, `_UPDATE_EDITED` never meets a unique violation. -/
theorem updateEdited_eq {db : Db} (h : WellFormed db) (feedId : Nat) (entry : NormalizedEntry)
    (now : Time) :
    updateEdited feedId entry now db =
      .ok (((db.rows.filter (editable feedId entry db.rows)).head?).map Article.id,
        ⟨updateWhere (editable feedId entry db.rows) (Article.edit entry now) db.rows,
          db.nextId⟩) := by
  have hwf := h.update_edit feedId entry now
  rw [updateEdited, if_pos ⟨hwf.guids, hwf.hashes⟩]

/-- At most the row with the guid of the entry is editable. -/
theorem WellFormed.editable_iff {db : Db} (h : WellFormed db) {feedId : Nat}
    {entry : NormalizedEntry} {r : Article} (hr : r ∈ db.rows)
    (he : editable feedId entry db.rows r = true) {x : Article} (hx : x ∈ db.rows) :
    editable feedId entry db.rows x = true ↔ x.id = r.id := by
  have hguid : ∀ y, editable feedId entry db.rows y = true → hasGuid feedId entry y = true := by
    intro y hy
    rw [editable, Bool.and_eq_true, Bool.and_eq_true] at hy
    exact hy.1.1
  constructor
  · intro hex
    rw [h.eq_of_hasGuid hx hr (hguid x hex) (hguid r he)]
  · intro hid
    rw [h.eq_of_id hx hr hid]
    exact he

/-- An edit by condition is an edit by id. -/
theorem WellFormed.updateWhere_editable {db : Db} (h : WellFormed db) {feedId : Nat}
    {entry : NormalizedEntry} {r : Article} (hr : r ∈ db.rows)
    (he : editable feedId entry db.rows r = true) (now : Time) :
    updateWhere (editable feedId entry db.rows) (Article.edit entry now) db.rows =
      updateWhere (fun x => x.id == r.id) (Article.edit entry now) db.rows := by
  refine updateWhere_congr fun x hx => ?_
  rw [Bool.eq_iff_iff, h.editable_iff hr he hx, beq_iff_eq]

theorem WellFormed.update_edit_row {db : Db} (h : WellFormed db) {feedId : Nat}
    {entry : NormalizedEntry} {r : Article} (hr : r ∈ db.rows)
    (he : editable feedId entry db.rows r = true) (now : Time) :
    WellFormed ⟨updateWhere (fun x => x.id == r.id) (Article.edit entry now) db.rows,
      db.nextId⟩ := by
  rw [← h.updateWhere_editable hr he now]
  exact h.update_edit feedId entry now

/-- `_UPDATE_EDITED` when a row is editable: exactly that row is rewritten. -/
theorem updateEdited_of_editable {db : Db} (h : WellFormed db) {feedId : Nat}
    {entry : NormalizedEntry} {r : Article} (hr : r ∈ db.rows)
    (he : editable feedId entry db.rows r = true) (now : Time) :
    updateEdited feedId entry now db =
      .ok (some r.id,
        ⟨updateWhere (fun x => x.id == r.id) (Article.edit entry now) db.rows, db.nextId⟩) := by
  rw [updateEdited_eq h, h.updateWhere_editable hr he]
  rcases hl : db.rows.filter (editable feedId entry db.rows) with _ | ⟨x, xs⟩
  · have hmem : r ∈ db.rows.filter (editable feedId entry db.rows) :=
      List.mem_filter.mpr ⟨hr, he⟩
    rw [hl] at hmem
    exact absurd hmem List.not_mem_nil
  · have hx : x ∈ db.rows.filter (editable feedId entry db.rows) := hl ▸ List.mem_cons_self
    obtain ⟨hx, hex⟩ := List.mem_filter.mp hx
    have hid : x.id = r.id := (h.editable_iff hr he hx).mp hex
    rw [List.head?_cons, Option.map_some, hid]

/-- `_UPDATE_EDITED` when no row is editable: nothing is written. -/
theorem updateEdited_of_none {db : Db} (h : WellFormed db) {feedId : Nat}
    {entry : NormalizedEntry} (hno : ∀ r ∈ db.rows, editable feedId entry db.rows r = false)
    (now : Time) : updateEdited feedId entry now db = .ok (none, db) := by
  have hnil : db.rows.filter (editable feedId entry db.rows) = [] :=
    List.filter_eq_nil_iff.mpr fun r hr => by simp [hno r hr]
  rw [updateEdited_eq h, hnil, updateWhere_eq_self hno]
  rfl

/-- The row `_TOUCH_EXISTING` picks matches, by guid if any row does. -/
theorem touchTarget_spec {feedId : Nat} {entry : NormalizedEntry} {rows : List Article}
    {r : Article} (h : touchTarget feedId entry rows = some r) :
    r ∈ rows ∧ (hasGuid feedId entry r = true ∨
      hasHash feedId entry r = true ∧ ∀ x ∈ rows, hasGuid feedId entry x = false) := by
  obtain ⟨hr, hfirst⟩ := head?_orderByDesc h
  obtain ⟨hr, hmatch⟩ := List.mem_filter.mp hr
  rw [Bool.or_eq_true] at hmatch
  refine ⟨hr, ?_⟩
  -- the first row matches by guid, or none does
  rcases hfirst with hg | hno
  · exact .inl hg
  · rcases hmatch with hg | hh
    · exact .inl hg
    · refine .inr ⟨hh, fun x hx => ?_⟩
      by_contra hgx
      rw [Bool.not_eq_false] at hgx
      have := hno x (List.mem_filter.mpr ⟨hx, by simp [hgx]⟩)
      rw [hgx] at this
      exact Bool.noConfusion this

theorem touchTarget_of_duplicate {feedId : Nat} {entry : NormalizedEntry} {rows : List Article}
    (h : Duplicate feedId entry rows) : ∃ r, touchTarget feedId entry rows = some r := by
  obtain ⟨r, hr, hmatch⟩ := h
  exact head?_orderByDesc_isSome (List.mem_filter.mpr ⟨hr, by simpa using hmatch⟩)

theorem touchExisting_wellFormed {db : Db} (h : WellFormed db) (feedId : Nat)
    (entry : NormalizedEntry) (now : Time) :
    WellFormed (touchExisting feedId entry now db).2 := by
  rw [touchExisting]
  split
  · exact h
  · exact h.update_keeping _ (fun _ => rfl) (fun _ => rfl) (fun _ => rfl) (fun _ => rfl)

theorem claimStmt_wellFormed {db : Db} (h : WellFormed db) (id : Nat) (now : Time) :
    WellFormed (claimStmt id now db).2 :=
  h.update_keeping _ (fun _ => rfl) (fun _ => rfl) (fun _ => rfl) (fun _ => rfl)

theorem releaseStmt_wellFormed {db : Db} (h : WellFormed db) (id : Nat) :
    WellFormed (releaseStmt id db) :=
  h.update_keeping _ (fun _ => rfl) (fun _ => rfl) (fun _ => rfl) (fun _ => rfl)

/-! ### Samples -/

/-- An entry with the given guid and content hash. -/
def storyWith (guid contentHash : Text) : NormalizedEntry where
  canonicalUrl := "https://a.example/s".toList
  url := "https://a.example/s".toList
  title := "Story".toList
  summary := []
  body := []
  author := none
  language := "simple".toList
  contentHash := contentHash
  guid := guid
  publishedAt := none

end ArticleTable
