/-
`upsert_article` run alone refines its specification.

* `upsertArticle` — the function as it stands: insert, else edit, else touch;
* `Decision`, `Decides` — what the upsert is for: the one thing to do with an
  entry, decided on the table alone, without reference to the statements;
* `IndexedTable` — a table that satisfies its unique indexes.

Main results: `exists_unique_decides` (the three cases cover every indexed
table exactly once) and `upsertArticle_refines_decision` (the three statements
together carry out the decision, on every indexed table and along every
sequence of upserts from the empty table).
-/
import Newsforge.ArticleTable

open Tables

namespace ArticleTable

/-! ### The function -/

/-- `UpsertResult`. -/
structure UpsertResult where
  articleId : Nat
  inserted : Bool
  updated : Bool
  deriving DecidableEq, Repr

/-- What `now()` reads in the three statements of one call. -/
structure StatementTimes where
  insertAt : Time
  editAt : Time
  touchAt : Time
  deriving DecidableEq, Repr

/-- The last statement of `upsert_article`, and the check of its row. -/
def touchOrFail (feedId : Nat) (entry : NormalizedEntry) (now : Time) (db : Db) :
    Except UpsertError UpsertResult × Db :=
  match touchExisting feedId entry now db with
  | (some id, db') => (.ok ⟨id, false, false⟩, db')
  | (none, db') => (.error (.runtimeError feedId), db')

/-- `upsert_article`. -/
def upsertArticle (feedId : Nat) (entry : NormalizedEntry) (times : StatementTimes) (db : Db) :
    Except UpsertError UpsertResult × Db :=
  match insertStmt feedId entry times.insertAt db with
  | (some id, db₁) => (.ok ⟨id, true, false⟩, db₁)
  | (none, db₁) =>
    match updateEdited feedId entry times.editAt db₁ with
    | .ok (some id, db₂) => (.ok ⟨id, false, true⟩, db₂)
    | .ok (none, db₂) => touchOrFail feedId entry times.touchAt db₂
    -- the savepoint is rolled back: another row got this content concurrently
    | .error .integrityError => touchOrFail feedId entry times.touchAt db₁
    | .error e => (.error e, db₁)

/-! ### The specification -/

/-- A table that satisfies its unique indexes. -/
structure IndexedTable where
  db : Db
  wellFormed : WellFormed db

/-- What to do with an entry. -/
inductive Decision
  | insert
  | edit (r : Article)
  | touch (r : Article)

/-- The decision for an entry: a new row if neither key is taken; an edit of
the guid row if its content changed to one no row of the feed has; otherwise a
touch, of the guid row if there is one, else of the hash row. -/
def Decides (feedId : Nat) (entry : NormalizedEntry) (rows : List Article) : Decision → Prop
  | .insert => ∀ x ∈ rows, hasGuid feedId entry x = false ∧ hasHash feedId entry x = false
  | .edit r => r ∈ rows ∧ hasGuid feedId entry r = true ∧ r.contentHash ≠ entry.contentHash ∧
      ∀ x ∈ rows, hasHash feedId entry x = false
  | .touch r => r ∈ rows ∧
      (hasGuid feedId entry r = true ∧ (∃ x ∈ rows, hasHash feedId entry x = true) ∨
        hasHash feedId entry r = true ∧ ∀ x ∈ rows, hasGuid feedId entry x = false)

/-- What the caller is told. -/
def Decision.result (db : Db) : Decision → UpsertResult
  | .insert => ⟨db.nextId, true, false⟩
  | .edit r => ⟨r.id, false, true⟩
  | .touch r => ⟨r.id, false, false⟩

/-- The rows afterwards: one row is appended, edited or touched. -/
def Decision.rows (feedId : Nat) (entry : NormalizedEntry) (times : StatementTimes) (db : Db) :
    Decision → List Article
  | .insert => db.rows ++ [newArticle feedId entry times.insertAt db.nextId]
  | .edit r => updateWhere (fun x => x.id == r.id) (Article.edit entry times.editAt) db.rows
  | .touch r => updateWhere (fun x => x.id == r.id) (Article.touch times.touchAt) db.rows

/-- Neither key of the entry is taken. -/
theorem decides_insert_iff {feedId : Nat} {entry : NormalizedEntry} {rows : List Article} :
    Decides feedId entry rows .insert ↔ ¬ Duplicate feedId entry rows := by
  simp only [Decides, Duplicate, not_exists, not_and, not_or, Bool.not_eq_true]

theorem decides_edit_iff {feedId : Nat} {entry : NormalizedEntry} {rows : List Article}
    {r : Article} :
    Decides feedId entry rows (.edit r) ↔ r ∈ rows ∧ editable feedId entry rows r = true := by
  simp only [Decides, editable, Bool.and_eq_true, bne_iff_ne, Bool.not_eq_true', List.any_eq_false,
    Bool.not_eq_true, and_assoc]

/-- Some decision applies: the cases are those of the two keys being taken. -/
theorem exists_decides (feedId : Nat) (entry : NormalizedEntry) (rows : List Article) :
    ∃ d, Decides feedId entry rows d := by
  by_cases hg : ∃ r ∈ rows, hasGuid feedId entry r = true
  · obtain ⟨r, hr, hg⟩ := hg
    -- the guid is taken: an edit, unless the content is taken too
    by_cases hh : ∃ x ∈ rows, hasHash feedId entry x = true
    · exact ⟨.touch r, hr, .inl ⟨hg, hh⟩⟩
    · have hno : ∀ x ∈ rows, hasHash feedId entry x = false := by
        intro x hx
        by_contra hhx
        exact hh ⟨x, hx, by simpa using hhx⟩
      refine ⟨.edit r, hr, hg, fun he => ?_, hno⟩
      have hhr : hasHash feedId entry r = true := hasHash_iff.mpr ⟨(hasGuid_iff.mp hg).1, he⟩
      rw [hno r hr] at hhr
      exact Bool.noConfusion hhr
  · have hno : ∀ x ∈ rows, hasGuid feedId entry x = false := by
      intro x hx
      by_contra hgx
      exact hg ⟨x, hx, by simpa using hgx⟩
    -- the guid is free: a touch if the content is taken
    by_cases hh : ∃ r ∈ rows, hasHash feedId entry r = true
    · obtain ⟨r, hr, hh⟩ := hh
      exact ⟨.touch r, hr, .inr ⟨hh, hno⟩⟩
    · refine ⟨.insert, fun x hx => ⟨hno x hx, ?_⟩⟩
      by_contra hhx
      exact hh ⟨x, hx, by simpa using hhx⟩

/-- On an indexed table two decisions that apply are one: each key names at
most one row, and the conditions of different decisions exclude each other. -/
theorem Decides.unique {db : Db} (h : WellFormed db) {feedId : Nat} {entry : NormalizedEntry}
    {d d' : Decision} (hd : Decides feedId entry db.rows d)
    (hd' : Decides feedId entry db.rows d') :
    d' = d := by
  have guidTaken : ∀ {r : Article}, r ∈ db.rows → hasGuid feedId entry r = true →
      (∀ x ∈ db.rows, hasGuid feedId entry x = false) → False := by
    intro r hr hg hno
    rw [hno r hr] at hg
    exact Bool.noConfusion hg
  have hashTaken : ∀ {r : Article}, r ∈ db.rows → hasHash feedId entry r = true →
      (∀ x ∈ db.rows, hasHash feedId entry x = false) → False := by
    intro r hr hh hno
    rw [hno r hr] at hh
    exact Bool.noConfusion hh
  cases d with
  | insert =>
    cases d' with
    | insert => rfl
    | edit s =>
      obtain ⟨hs, hg, -, -⟩ := hd'
      exact (guidTaken hs hg fun x hx => (hd x hx).1).elim
    | touch s =>
      obtain ⟨hs, ⟨hg, -⟩ | ⟨hh, -⟩⟩ := hd'
      · exact (guidTaken hs hg fun x hx => (hd x hx).1).elim
      · exact (hashTaken hs hh fun x hx => (hd x hx).2).elim
  | edit r =>
    obtain ⟨hr, hgr, -, hno⟩ := hd
    cases d' with
    | insert => exact (guidTaken hr hgr fun x hx => (hd' x hx).1).elim
    | edit s =>
      obtain ⟨hs, hgs, -, -⟩ := hd'
      rw [h.eq_of_hasGuid hr hs hgr hgs]
    | touch s =>
      obtain ⟨hs, ⟨-, x, hx, hh⟩ | ⟨hh, -⟩⟩ := hd'
      · exact (hashTaken hx hh hno).elim
      · exact (hashTaken hs hh hno).elim
  | touch r =>
    obtain ⟨hr, hcase⟩ := hd
    cases d' with
    | insert =>
      rcases hcase with ⟨hg, -⟩ | ⟨hh, -⟩
      · exact (guidTaken hr hg fun x hx => (hd' x hx).1).elim
      · exact (hashTaken hr hh fun x hx => (hd' x hx).2).elim
    | edit s =>
      obtain ⟨hs, hgs, -, hno⟩ := hd'
      rcases hcase with ⟨-, x, hx, hh⟩ | ⟨hh, -⟩
      · exact (hashTaken hx hh hno).elim
      · exact (hashTaken hr hh hno).elim
    | touch s =>
      obtain ⟨hs, hcase'⟩ := hd'
      rcases hcase with ⟨hg, -⟩ | ⟨hh, hno⟩
      · rcases hcase' with ⟨hg', -⟩ | ⟨-, hno'⟩
        · rw [h.eq_of_hasGuid hr hs hg hg']
        · exact (guidTaken hr hg hno').elim
      · rcases hcase' with ⟨hg', -⟩ | ⟨hh', -⟩
        · exact (guidTaken hs hg' hno).elim
        · rw [h.eq_of_hasHash hr hs hh hh']

/-- **The three cases cover every indexed table exactly once.** -/
theorem exists_unique_decides (T : IndexedTable) (feedId : Nat) (entry : NormalizedEntry) :
    ∃! d, Decides feedId entry T.db.rows d := by
  obtain ⟨d, hd⟩ := exists_decides feedId entry T.db.rows
  exact ⟨d, hd, fun d' hd' => hd.unique T.wellFormed hd'⟩

/-! ### The statements carry out the decision -/

/-- The sequence value the conflicting `INSERT` drew. -/
def Db.burn (db : Db) : Db := ⟨db.rows, db.nextId + 1⟩

theorem WellFormed.burn {db : Db} (h : WellFormed db) : WellFormed db.burn :=
  ⟨h.guids, h.hashes, h.ids, fun r hr => Nat.lt_succ_of_lt (h.fresh r hr)⟩

theorem upsertArticle_of_insert {feedId : Nat} {entry : NormalizedEntry} {db : Db}
    (hd : Decides feedId entry db.rows .insert) (times : StatementTimes) :
    upsertArticle feedId entry times db =
      (.ok ⟨db.nextId, true, false⟩,
        ⟨db.rows ++ [newArticle feedId entry times.insertAt db.nextId], db.nextId + 1⟩) := by
  rw [upsertArticle, insertStmt_of_not_duplicate (decides_insert_iff.mp hd)]

theorem upsertArticle_of_edit {feedId : Nat} {entry : NormalizedEntry} {db : Db}
    (h : WellFormed db) {r : Article} (hd : Decides feedId entry db.rows (.edit r))
    (times : StatementTimes) :
    upsertArticle feedId entry times db =
      (.ok ⟨r.id, false, true⟩,
        ⟨updateWhere (fun x => x.id == r.id) (Article.edit entry times.editAt) db.rows,
          db.nextId + 1⟩) := by
  have hdup : Duplicate feedId entry db.rows := ⟨r, hd.1, .inl hd.2.1⟩
  obtain ⟨hr, he⟩ := decides_edit_iff.mp hd
  have hedit := updateEdited_of_editable h.burn hr he times.editAt
  rw [upsertArticle, insertStmt_of_duplicate hdup]
  change (match updateEdited feedId entry times.editAt db.burn with
    | .ok (some id, db₂) => _
    | .ok (none, db₂) => _
    | .error .integrityError => _
    | .error e => _) = _
  rw [hedit]
  rfl

/-- A touch is decided only if no row is editable. -/
theorem Decides.not_editable {db : Db} (h : WellFormed db) {feedId : Nat}
    {entry : NormalizedEntry} {r : Article} (hd : Decides feedId entry db.rows (.touch r)) :
    ∀ x ∈ db.rows, editable feedId entry db.rows x = false := by
  intro x hx
  by_contra he
  have hedit := decides_edit_iff.mpr ⟨hx, by simpa using he⟩
  exact Decision.noConfusion (hd.unique h hedit)

/-- The row the subquery of `_TOUCH_EXISTING` picks is the one the decision
names. -/
theorem Decides.touchTarget_eq {db : Db} (h : WellFormed db) {feedId : Nat}
    {entry : NormalizedEntry} {r : Article} (hd : Decides feedId entry db.rows (.touch r)) :
    touchTarget feedId entry db.rows = some r := by
  -- the subquery picks a row that a touch could be decided for, and there is one only
  obtain ⟨t, ht⟩ := touchTarget_of_duplicate ⟨r, hd.1, hd.2.imp And.left And.left⟩
  obtain ⟨htm, hmatch⟩ := touchTarget_spec ht
  have htouch : Decides feedId entry db.rows (.touch t) := by
    refine ⟨htm, hmatch.imp (fun hg => ⟨hg, ?_⟩) id⟩
    rcases hd.2 with ⟨-, hx⟩ | ⟨hh, -⟩
    · exact hx
    · exact ⟨r, hd.1, hh⟩
  have heq := hd.unique h htouch
  injection heq with heq
  rw [ht, heq]

theorem upsertArticle_of_touch {feedId : Nat} {entry : NormalizedEntry} {db : Db}
    (h : WellFormed db) {r : Article} (hd : Decides feedId entry db.rows (.touch r))
    (times : StatementTimes) :
    upsertArticle feedId entry times db =
      (.ok ⟨r.id, false, false⟩,
        ⟨updateWhere (fun x => x.id == r.id) (Article.touch times.touchAt) db.rows,
          db.nextId + 1⟩) := by
  have hdup : Duplicate feedId entry db.rows := ⟨r, hd.1, hd.2.imp And.left And.left⟩
  rw [upsertArticle, insertStmt_of_duplicate hdup]
  change (match updateEdited feedId entry times.editAt db.burn with
    | .ok (some id, db₂) => _
    | .ok (none, db₂) => _
    | .error .integrityError => _
    | .error e => _) = _
  rw [updateEdited_of_none h.burn (hd.not_editable h)]
  show touchOrFail feedId entry times.touchAt db.burn = _
  rw [touchOrFail, touchExisting,
    show touchTarget feedId entry db.burn.rows = some r from hd.touchTarget_eq h]
  rfl

/-- One call of `upsert_article` on `db`, which left `db'`, carried out the
decision `d`. -/
structure Carries (feedId : Nat) (entry : NormalizedEntry) (times : StatementTimes) (db : Db)
    (d : Decision) (db' : Db) : Prop where
  applies : Decides feedId entry db.rows d
  only : ∀ d', Decides feedId entry db.rows d' → d' = d
  returns : upsertArticle feedId entry times db = (.ok (d.result db), db')
  rows : db'.rows = d.rows feedId entry times db
  inserted_iff : (d.result db).inserted = true ↔ Decides feedId entry db.rows .insert
  updated_iff : (d.result db).updated = true ↔ ∃ r, Decides feedId entry db.rows (.edit r)
  /-- the returned id is that of a row of the feed -/
  row : ∃ r ∈ db'.rows, r.id = (d.result db).articleId ∧ r.feedId = feedId
  indexes : WellFormed db'
  /-- id, feed, guid, fetched_at, is_deleted, created_at and processed_at of
  every row that existed -/
  kept : db.rows.map Article.frozen <+: db'.rows.map Article.frozen
  others : db'.rows.filter (fun r => r.feedId != feedId) =
    db.rows.filter fun r => r.feedId != feedId

/-- The indexes survive a call of `upsert_article`. -/
theorem upsertArticle_wellFormed {db : Db} (h : WellFormed db) (feedId : Nat)
    (entry : NormalizedEntry) (times : StatementTimes) :
    WellFormed (upsertArticle feedId entry times db).2 := by
  obtain ⟨d, hd⟩ := exists_decides feedId entry db.rows
  cases d with
  | insert =>
    have hins := insertStmt_wellFormed h feedId entry times.insertAt
    rw [insertStmt_of_not_duplicate (decides_insert_iff.mp hd)] at hins
    rw [upsertArticle_of_insert hd]
    exact hins
  | edit r =>
    obtain ⟨hr, he⟩ := decides_edit_iff.mp hd
    rw [upsertArticle_of_edit h hd]
    exact h.burn.update_edit_row hr he times.editAt
  | touch r =>
    rw [upsertArticle_of_touch h hd]
    exact h.burn.update_keeping _ (fun _ => rfl) (fun _ => rfl) (fun _ => rfl) (fun _ => rfl)

/-- A decision about one row of the feed leaves the rows of other feeds alone. -/
theorem others_updateWhere {db : Db} (h : WellFormed db) {feedId : Nat} {r : Article}
    (hr : r ∈ db.rows) (hfeed : r.feedId = feedId) {f : Article → Article}
    (hf : ∀ x, (f x).feedId = x.feedId) :
    (updateWhere (fun x => x.id == r.id) f db.rows).filter (fun x => x.feedId != feedId) =
      db.rows.filter fun x => x.feedId != feedId := by
  refine filter_updateWhere fun x hx hid => ?_
  have hxr : x = r := h.eq_of_id hx hr (by simpa using hid)
  subst hxr
  simp [hf, hfeed]

theorem carries_decision {db : Db} (h : WellFormed db) {feedId : Nat} {entry : NormalizedEntry}
    {d : Decision} (hd : Decides feedId entry db.rows d) (times : StatementTimes) :
    Carries feedId entry times db d (upsertArticle feedId entry times db).2 := by
  have hwf := upsertArticle_wellFormed h feedId entry times
  have honly : ∀ d', Decides feedId entry db.rows d' → d' = d := fun d' => hd.unique h
  cases d with
  | insert =>
    have heq := upsertArticle_of_insert hd times
    rw [heq] at hwf ⊢
    refine ⟨hd, honly, heq, rfl, ?_, ?_, ?_, hwf, ?_, ?_⟩
    · exact ⟨fun _ => hd, fun _ => rfl⟩
    · refine ⟨fun hf => Bool.noConfusion hf, ?_⟩
      rintro ⟨r, hr⟩
      exact Decision.noConfusion (honly _ hr)
    · exact ⟨_, List.mem_append_right _ (List.mem_singleton_self _), rfl, rfl⟩
    · rw [List.map_append]
      exact List.prefix_append _ _
    · rw [List.filter_append]
      simp [newArticle]
  | edit r =>
    have heq := upsertArticle_of_edit h hd times
    rw [heq] at hwf ⊢
    have hfeed : r.feedId = feedId := (hasGuid_iff.mp hd.2.1).1
    refine ⟨hd, honly, heq, rfl, ?_, ?_, ?_, hwf, ?_, ?_⟩
    · exact ⟨fun hf => Bool.noConfusion hf, fun hi => Decision.noConfusion (honly _ hi)⟩
    · exact ⟨fun _ => ⟨r, hd⟩, fun _ => rfl⟩
    · exact ⟨r.edit entry times.editAt, mem_updateWhere_of hd.1 (by simp), rfl, hfeed⟩
    · rw [map_updateWhere (frozen_edit entry times.editAt)]
    · exact others_updateWhere h hd.1 hfeed fun _ => rfl
  | touch r =>
    have heq := upsertArticle_of_touch h hd times
    rw [heq] at hwf ⊢
    have hfeed : r.feedId = feedId := by
      rcases hd.2 with ⟨hg, -⟩ | ⟨hh, -⟩
      · exact (hasGuid_iff.mp hg).1
      · exact (hasHash_iff.mp hh).1
    refine ⟨hd, honly, heq, rfl, ?_, ?_, ?_, hwf, ?_, ?_⟩
    · exact ⟨fun hf => Bool.noConfusion hf, fun hi => Decision.noConfusion (honly _ hi)⟩
    · refine ⟨fun hf => Bool.noConfusion hf, ?_⟩
      rintro ⟨s, hs⟩
      exact Decision.noConfusion (honly _ hs)
    · exact ⟨r.touch times.touchAt, mem_updateWhere_of hd.1 (by simp), rfl, hfeed⟩
    · rw [map_updateWhere (frozen_touch times.touchAt)]
    · exact others_updateWhere h hd.1 hfeed fun _ => rfl

/-! ### Sequences of upserts -/

/-- One call of `upsert_article`: its arguments and its clock readings. -/
structure Call where
  feedId : Nat
  entry : NormalizedEntry
  times : StatementTimes
  deriving DecidableEq, Repr

/-- The table after a sequence of calls, one after the other. -/
def runUpserts : List Call → Db → Db
  | [], db => db
  | c :: cs, db => runUpserts cs (upsertArticle c.feedId c.entry c.times db).2

theorem runUpserts_wellFormed {db : Db} (h : WellFormed db) (calls : List Call) :
    WellFormed (runUpserts calls db) := by
  induction calls generalizing db with
  | nil => exact h
  | cons c cs ih => exact ih (upsertArticle_wellFormed h c.feedId c.entry c.times)

/-- **`upsert_article` refines its specification**: on every indexed table, and
so after every sequence of upserts from the empty table, one decision applies
and the call carries it out; it never raises. -/
theorem upsertArticle_refines_decision (feedId : Nat) (entry : NormalizedEntry)
    (times : StatementTimes) :
    (∀ T : IndexedTable, ∃ d db', Carries feedId entry times T.db d db') ∧
      ∀ calls : List Call,
        ∃ d db', Carries feedId entry times (runUpserts calls Db.empty) d db' := by
  have hall : ∀ T : IndexedTable, ∃ d db', Carries feedId entry times T.db d db' := by
    intro T
    obtain ⟨d, hd⟩ := exists_decides feedId entry T.db.rows
    exact ⟨d, _, carries_decision T.wellFormed hd times⟩
  exact ⟨hall, fun calls => hall ⟨_, runUpserts_wellFormed WellFormed.empty calls⟩⟩

end ArticleTable
