/-
Replaying an entry (`upsert_article`).

A redelivered task upserts its entry again.  Whatever the first call did, insert, edit
or touch, by guid or by content hash, the second one is a touch of the same row.

* `Decides.again` — the decision for an entry that was upserted just now;
* `upsertArticle_again` — one more call with the entry;
* `replays_of_touch` — any number of further calls.

Main result: `upsertArticle_replayed`.
-/
import Newsforge.DedupUpsert

open Tables

namespace ArticleTable

variable {db : Db} {feedId : Nat} {entry : NormalizedEntry}

/-! ### The second decision -/

variable (db feedId entry) in
/-- An inserted entry is found by its guid, or by its hash if it has none. -/
theorem decides_again_insert (now : Time) :
    Decides feedId entry (db.rows ++ [newArticle feedId entry now db.nextId])
      (.touch (newArticle feedId entry now db.nextId)) := by
  have hmem : newArticle feedId entry now db.nextId ∈
      db.rows ++ [newArticle feedId entry now db.nextId] :=
    List.mem_append_right _ (List.mem_singleton_self _)
  have hhash : hasHash feedId entry (newArticle feedId entry now db.nextId) = true :=
    hasHash_iff.mpr ⟨rfl, rfl⟩
  refine ⟨hmem, ?_⟩
  by_cases hguid : entry.guid = []
  · -- an empty guid matches no row
    refine .inr ⟨hhash, fun x _ => ?_⟩
    rw [← Bool.not_eq_true, hasGuid_iff]
    exact fun h => h.2.1 hguid
  · exact .inl ⟨hasGuid_iff.mpr ⟨rfl, hguid, rfl⟩, _, hmem, hhash⟩

/-- An edited row has both keys of the entry. -/
theorem Decides.again_edit {r : Article} (hd : Decides feedId entry db.rows (.edit r))
    (now : Time) :
    Decides feedId entry
      (updateWhere (fun x => x.id == r.id) (Article.edit entry now) db.rows)
      (.touch (r.edit entry now)) := by
  have hmem : r.edit entry now ∈
      updateWhere (fun x => x.id == r.id) (Article.edit entry now) db.rows :=
    mem_updateWhere_of hd.1 (beq_self_eq_true r.id)
  obtain ⟨hfeed, hne, hguid⟩ := hasGuid_iff.mp hd.2.1
  exact ⟨hmem, .inl ⟨hasGuid_iff.mpr ⟨hfeed, hne, hguid⟩, _, hmem, hasHash_iff.mpr ⟨hfeed, rfl⟩⟩⟩

/-- A touch changes neither key of any row. -/
theorem Decides.again_touch {r : Article} (hd : Decides feedId entry db.rows (.touch r))
    (now : Time) :
    Decides feedId entry (updateWhere (fun x => x.id == r.id) (Article.touch now) db.rows)
      (.touch (r.touch now)) := by
  have hmem : r.touch now ∈ updateWhere (fun x => x.id == r.id) (Article.touch now) db.rows :=
    mem_updateWhere_of hd.1 (beq_self_eq_true r.id)
  have hguids : ∀ x : Article,
      hasGuid feedId entry (if (x.id == r.id) = true then x.touch now else x) =
        hasGuid feedId entry x := by
    intro x
    split <;> rfl
  have hhashes : ∀ x : Article,
      hasHash feedId entry (if (x.id == r.id) = true then x.touch now else x) =
        hasHash feedId entry x := by
    intro x
    split <;> rfl
  refine ⟨hmem, hd.2.imp ?_ ?_⟩
  · rintro ⟨hguid, x, hx, hhash⟩
    exact ⟨hguid, _, mem_updateWhere.mpr ⟨x, hx, rfl⟩, (hhashes x).trans hhash⟩
  · rintro ⟨hhash, hno⟩
    refine ⟨hhash, fun y hy => ?_⟩
    obtain ⟨x, hx, rfl⟩ := mem_updateWhere.mp hy
    exact (hguids x).trans (hno x hx)

/-- **After a call the entry is a duplicate of the row the call returned.** -/
theorem Decides.again (h : WellFormed db) {d : Decision} (hd : Decides feedId entry db.rows d)
    (times : StatementTimes) :
    ∃ r, r.id = (d.result db).articleId ∧
      Decides feedId entry (upsertArticle feedId entry times db).2.rows (.touch r) := by
  cases d with
  | insert =>
    rw [upsertArticle_of_insert hd]
    exact ⟨_, rfl, decides_again_insert db feedId entry times.insertAt⟩
  | edit r =>
    rw [upsertArticle_of_edit h hd]
    exact ⟨r.edit entry times.editAt, rfl, hd.again_edit times.editAt⟩
  | touch r =>
    rw [upsertArticle_of_touch h hd]
    exact ⟨r.touch times.touchAt, rfl, hd.again_touch times.touchAt⟩

/-! ### Further calls -/

/-- The tables differ in `last_seen_at` of the row with the id, if at all. -/
def SameButSeen (id : Nat) (rows rows' : List Article) : Prop :=
  ∃ seenAt, rows' = updateWhere (fun r => r.id == id) (Article.touch seenAt) rows

/-- One more call with the entry. -/
theorem upsertArticle_again (h : WellFormed db) {r : Article}
    (hd : Decides feedId entry db.rows (.touch r)) (times : StatementTimes) :
    (upsertArticle feedId entry times db).1 = .ok ⟨r.id, false, false⟩ ∧
      SameButSeen r.id db.rows (upsertArticle feedId entry times db).2.rows := by
  rw [upsertArticle_of_touch h hd]
  exact ⟨rfl, times.touchAt, rfl⟩

/-- Two touches of a row are one. -/
theorem SameButSeen.trans {id : Nat} {rows rows' rows'' : List Article}
    (h : SameButSeen id rows rows') (h' : SameButSeen id rows' rows'') :
    SameButSeen id rows rows'' := by
  obtain ⟨seenAt, rfl⟩ := h
  obtain ⟨seenAt', rfl⟩ := h'
  refine ⟨seenAt', ?_⟩
  rw [updateWhere, updateWhere, updateWhere, List.map_map]
  refine List.map_congr_left fun r _ => ?_
  by_cases hid : r.id = id
  · simp [hid, Article.touch]
  · simp [hid]

/-- **Any number of further calls**, one after the other, change no more than
`last_seen_at` of the row. -/
theorem replays_of_touch (h : WellFormed db) {r : Article}
    (hd : Decides feedId entry db.rows (.touch r)) (times : StatementTimes)
    (later : List StatementTimes) :
    SameButSeen r.id db.rows
      (runUpserts ((times :: later).map fun t => ⟨feedId, entry, t⟩) db).rows := by
  induction later generalizing db r times with
  | nil => exact (upsertArticle_again h hd times).2
  | cons t later ih =>
    -- the row has been touched, so its id is what the next call is about
    obtain ⟨r', hid, hd'⟩ := hd.again h times
    have hrest := ih (upsertArticle_wellFormed h feedId entry times) hd' t
    rw [show r'.id = r.id from hid] at hrest
    exact (upsertArticle_again h hd times).2.trans hrest

/-- **Replaying an entry is harmless.**  On every table that satisfies its indexes, a
second call with the same entry returns the id the first one returned, reports neither
an insert nor an update, and changes `last_seen_at` of that row only. -/
theorem upsertArticle_replayed (T : IndexedTable) (feedId : Nat) (entry : NormalizedEntry)
    (times times' : StatementTimes) :
    ∃ first : UpsertResult,
      (upsertArticle feedId entry times T.db).1 = .ok first ∧
      (upsertArticle feedId entry times' (upsertArticle feedId entry times T.db).2).1 =
        .ok ⟨first.articleId, false, false⟩ ∧
      SameButSeen first.articleId (upsertArticle feedId entry times T.db).2.rows
        (upsertArticle feedId entry times' (upsertArticle feedId entry times T.db).2).2.rows := by
  obtain ⟨d, hd⟩ := exists_decides feedId entry T.db.rows
  have hfirst := (carries_decision T.wellFormed hd times).returns
  obtain ⟨r, hid, hagain⟩ := hd.again T.wellFormed times
  have hwf := upsertArticle_wellFormed T.wellFormed feedId entry times
  obtain ⟨hresult, hsame⟩ := upsertArticle_again hwf hagain times'
  rw [hid] at hresult hsame
  exact ⟨d.result T.db, congrArg Prod.fst hfirst, hresult, hsame⟩

end ArticleTable
