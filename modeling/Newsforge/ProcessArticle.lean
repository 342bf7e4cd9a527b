/-
Concurrent `process_article` tasks.

Any number of tasks run on one article table.  Each statement of the upsert is
one atomic step, and so are the claim, the signal that queues the
tag-and-fan-out chain, the release, and the acknowledgement.  A worker may be
killed at every point, and its message is then redelivered (`acks_late`).

* `Phase`, `Task`, `World` — where a task stands, and what tasks share;
* `step` — one atomic step of a task;
* `Effect`, `step_effect` — what each step does, said once; every invariant
  below is derived from it;
* `upsert_alone` — with no other task in between, the steps are
  `upsertArticle`.

Main results: `upserts_end_with_a_row` (calls do not fail while no edit takes
away the content another call conflicted with) and
`conflict_without_matching_row` (when one does, a call fails).
-/
import Newsforge.DedupUpsert
import Newsforge.Runs

open Tables Runs

namespace ProcessArticle

open ArticleTable

/-! ### Tasks -/

/-- What can leave `process_article` as an exception. -/
inductive TaskError
  | upsert (e : UpsertError)
  /-- raised by `article_created.send`; the claim was released -/
  | send
  deriving DecidableEq, Repr

/-- What a task does next. -/
inductive Phase
  | insert
  | edit
  | touch
  | claim (res : UpsertResult)
  | send (res : UpsertResult)
  | release (res : UpsertResult)
  | ack (res : UpsertResult)
  | finished (res : UpsertResult)
  | failed (e : TaskError)
  /-- the worker was killed; the broker still has the message -/
  | dead
  deriving DecidableEq, Repr

/-- A task: its message (feed and normalized entry), and its phase. -/
structure Task where
  feedId : Nat
  entry : NormalizedEntry
  phase : Phase
  deriving DecidableEq, Repr

/-- The task goes on with `phase`. -/
def Task.goto (t : Task) (phase : Phase) : Task := { t with phase := phase }

@[simp] theorem Task.goto_phase (t : Task) (phase : Phase) : (t.goto phase).phase = phase := rfl
@[simp] theorem Task.goto_feedId (t : Task) (phase : Phase) :
    (t.goto phase).feedId = t.feedId := rfl
@[simp] theorem Task.goto_entry (t : Task) (phase : Phase) : (t.goto phase).entry = t.entry := rfl

/-- The table, and the ids of the articles whose chain was queued. -/
structure World where
  db : Db
  queued : List Nat
  deriving DecidableEq, Repr

/-- A worker runs the task. -/
def Phase.live : Phase → Bool
  | .finished _ => false
  | .failed _ => false
  | .dead => false
  | _ => true

/-- The steps of a task.  `raced` says that another row got the content while
`_UPDATE_EDITED` ran, `raises` that queueing the chain failed. -/
inductive Action
  | insert (now : Time)
  | edit (now : Time) (raced : Bool)
  | touch (now : Time)
  | claim (now : Time)
  | send (raises : Bool)
  | release
  | ack
  | die
  | redeliver
  deriving DecidableEq, Repr

/-- One atomic step of `process_article`. -/
def step (a : Action) (t : Task) (w : World) : Option (Task × World) :=
  match a, t.phase with
  | .insert now, .insert =>
    match insertStmt t.feedId t.entry now w.db with
    | (some id, db) => some (t.goto (.claim ⟨id, true, false⟩), { w with db := db })
    | (none, db) => some (t.goto .edit, { w with db := db })
  | .edit now raced, .edit =>
    -- the savepoint: a unique violation counts as no row
    match if raced then .error .integrityError else updateEdited t.feedId t.entry now w.db with
    | .ok (some id, db) => some (t.goto (.claim ⟨id, false, true⟩), { w with db := db })
    | .ok (none, db) => some (t.goto .touch, { w with db := db })
    | .error .integrityError => some (t.goto .touch, w)
    | .error e => some (t.goto (.failed (.upsert e)), w)
  | .touch now, .touch =>
    match touchExisting t.feedId t.entry now w.db with
    | (some id, db) => some (t.goto (.claim ⟨id, false, false⟩), { w with db := db })
    -- the branch marked `pragma: no cover`
    | (none, db) => some (t.goto (.failed (.upsert (.runtimeError t.feedId))), { w with db := db })
  | .claim now, .claim res =>
    match claimStmt res.articleId now w.db with
    | (true, db) => some (t.goto (.send res), { w with db := db })
    | (false, db) => some (t.goto (.ack res), { w with db := db })
  | .send raises, .send res =>
    if raises then some (t.goto (.release res), w)
    else some (t.goto (.ack res), { w with queued := res.articleId :: w.queued })
  | .release, .release res =>
    some (t.goto (.failed .send), { w with db := releaseStmt res.articleId w.db })
  | .ack, .ack res => some (t.goto (.finished res), w)
  | .die, phase => if phase.live then some (t.goto .dead, w) else none
  | .redeliver, .dead => some (t.goto .insert, w)
  | _, _ => none

/-- Nothing but the tasks writes the table. -/
def env (e : Empty) (_ : World) : Option World := nomatch e

abbrev Tasks (ι : Type*) := Config ι World Task

/-- The interleavings of the tasks. -/
def next {ι : Type*} [DecidableEq ι] : Move ι Action Empty → Tasks ι → Option (Tasks ι) :=
  Config.next step env

/-! ### What a step does -/

/-- The row `_CLAIM` writes. -/
def Article.claimed (now : Time) (r : Article) : Article := { r with processedAt := some now }

/-- The row `release_processing` writes. -/
def Article.released (r : Article) : Article := { r with processedAt := none }

/-- What each step of a task does to the task and to the world. -/
inductive Effect : Action → Task → World → Task → World → Prop
  | inserted {t w} (now : Time) (hphase : t.phase = .insert)
      (hnew : ¬ Duplicate t.feedId t.entry w.db.rows) :
      Effect (.insert now) t w (t.goto (.claim ⟨w.db.nextId, true, false⟩))
        { w with db := ⟨w.db.rows ++ [newArticle t.feedId t.entry now w.db.nextId],
          w.db.nextId + 1⟩ }
  | conflicted {t w} (now : Time) (hphase : t.phase = .insert)
      (hdup : Duplicate t.feedId t.entry w.db.rows) :
      Effect (.insert now) t w (t.goto .edit) { w with db := w.db.burn }
  | edited {t w} (now : Time) (r : Article) (hphase : t.phase = .edit) (hr : r ∈ w.db.rows)
      (he : editable t.feedId t.entry w.db.rows r = true) :
      Effect (.edit now false) t w (t.goto (.claim ⟨r.id, false, true⟩))
        { w with db := ⟨updateWhere (fun x => x.id == r.id) (Article.edit t.entry now) w.db.rows,
          w.db.nextId⟩ }
  | unedited {t w} (now : Time) (raced : Bool) (hphase : t.phase = .edit) :
      Effect (.edit now raced) t w (t.goto .touch) w
  | touched {t w} (now : Time) (r : Article) (hphase : t.phase = .touch)
      (hr : touchTarget t.feedId t.entry w.db.rows = some r) :
      Effect (.touch now) t w (t.goto (.claim ⟨r.id, false, false⟩))
        { w with db := ⟨updateWhere (fun x => x.id == r.id) (Article.touch now) w.db.rows,
          w.db.nextId⟩ }
  | lost {t w} (now : Time) (hphase : t.phase = .touch)
      (hno : ¬ Duplicate t.feedId t.entry w.db.rows) :
      Effect (.touch now) t w (t.goto (.failed (.upsert (.runtimeError t.feedId)))) w
  | claimed {t w} (now : Time) (res : UpsertResult) (r : Article) (hphase : t.phase = .claim res)
      (hr : r ∈ w.db.rows) (hid : r.id = res.articleId) (hopen : r.processedAt = none) :
      Effect (.claim now) t w (t.goto (.send res))
        { w with db := ⟨updateWhere (fun x => x.id == res.articleId) (Article.claimed now) w.db.rows,
          w.db.nextId⟩ }
  | unclaimed {t w} (now : Time) (res : UpsertResult) (hphase : t.phase = .claim res)
      (htaken : ∀ r ∈ w.db.rows, r.id = res.articleId → r.processedAt ≠ none) :
      Effect (.claim now) t w (t.goto (.ack res)) w
  | queued {t w} (res : UpsertResult) (hphase : t.phase = .send res) :
      Effect (.send false) t w (t.goto (.ack res))
        { w with queued := res.articleId :: w.queued }
  | raised {t w} (res : UpsertResult) (hphase : t.phase = .send res) :
      Effect (.send true) t w (t.goto (.release res)) w
  | released {t w} (res : UpsertResult) (hphase : t.phase = .release res) :
      Effect .release t w (t.goto (.failed .send))
        { w with db := ⟨updateWhere (fun x => x.id == res.articleId) Article.released w.db.rows,
          w.db.nextId⟩ }
  | acked {t w} (res : UpsertResult) (hphase : t.phase = .ack res) :
      Effect .ack t w (t.goto (.finished res)) w
  | died {t w} (hlive : t.phase.live = true) : Effect .die t w (t.goto .dead) w
  | redelivered {t w} (hphase : t.phase = .dead) : Effect .redeliver t w (t.goto .insert) w

/-- `_CLAIM` on an open row. -/
theorem claimStmt_of_open {db : Db} (h : WellFormed db) {r : Article} (hr : r ∈ db.rows)
    (hopen : r.processedAt = none) (now : Time) :
    claimStmt r.id now db =
      (true, ⟨updateWhere (fun x => x.id == r.id) (Article.claimed now) db.rows, db.nextId⟩) := by
  have hany : (db.rows.any fun x => x.id == r.id && x.processedAt.isNone) = true :=
    List.any_eq_true.mpr ⟨r, hr, by simp [hopen]⟩
  rw [claimStmt]
  refine Prod.ext hany ?_
  show (⟨updateWhere _ _ db.rows, db.nextId⟩ : Db) = ⟨_, db.nextId⟩
  congr 1
  refine updateWhere_congr fun x hx => ?_
  by_cases hid : x.id = r.id
  · rw [h.eq_of_id hx hr hid]
    simp [hopen]
  · simp [hid]

/-- `_CLAIM` when no row with the id is open. -/
theorem claimStmt_of_taken {db : Db} {id : Nat}
    (h : ∀ r ∈ db.rows, r.id = id → r.processedAt ≠ none) (now : Time) :
    claimStmt id now db = (false, db) := by
  have hno : ∀ r ∈ db.rows, (r.id == id && r.processedAt.isNone) = false := by
    intro r hr
    by_cases hid : r.id = id
    · simpa [hid] using Option.ne_none_iff_isSome.mp (h r hr hid)
    · simp [hid]
  rw [claimStmt]
  refine Prod.ext ?_ ?_
  · exact List.any_eq_false.mpr fun r hr => by simp [hno r hr]
  · -- the update matches no row
    show (⟨updateWhere _ _ db.rows, db.nextId⟩ : Db) = db
    rw [updateWhere_eq_self hno]

section Inversion

variable {t t' : Task} {w w' : World} {now : Time}

/-- The edit rewrites one row, or none. -/
theorem edit_effect {raced : Bool} (hw : WellFormed w.db)
    (h : step (.edit now raced) t w = some (t', w')) : Effect (.edit now raced) t w t' w' := by
  cases hphase : t.phase with
  | edit =>
    cases raced with
    | true =>
      simp only [step, hphase, if_true] at h
      cases h
      exact .unedited now true hphase
    | false =>
      by_cases he : ∃ r ∈ w.db.rows, editable t.feedId t.entry w.db.rows r = true
      · obtain ⟨r, hr, he⟩ := he
        simp only [step, hphase, Bool.false_eq_true, if_false,
          updateEdited_of_editable hw hr he] at h
        cases h
        exact .edited now r hphase hr he
      · have hno : ∀ r ∈ w.db.rows, editable t.feedId t.entry w.db.rows r = false := by
          intro r hr
          by_contra hc
          exact he ⟨r, hr, by simpa using hc⟩
        simp only [step, hphase, Bool.false_eq_true, if_false, updateEdited_of_none hw hno] at h
        cases h
        exact .unedited now false hphase
  | _ => simp [step, hphase] at h

/-- The touch finds a row, or there is no duplicate any more. -/
theorem touch_effect (h : step (.touch now) t w = some (t', w')) :
    Effect (.touch now) t w t' w' := by
  cases hphase : t.phase with
  | touch =>
    cases htarget : touchTarget t.feedId t.entry w.db.rows with
    | some r =>
      simp only [step, hphase, touchExisting, htarget] at h
      cases h
      exact .touched now r hphase htarget
    | none =>
      simp only [step, hphase, touchExisting, htarget] at h
      cases h
      refine .lost now hphase fun hd => ?_
      obtain ⟨r, hr⟩ := touchTarget_of_duplicate hd
      rw [htarget] at hr
      cases hr
  | _ => simp [step, hphase] at h

/-- The claim takes an open row, or finds none. -/
theorem claim_effect (hw : WellFormed w.db) (h : step (.claim now) t w = some (t', w')) :
    Effect (.claim now) t w t' w' := by
  cases hphase : t.phase with
  | claim res =>
    by_cases ho : ∃ r ∈ w.db.rows, r.id = res.articleId ∧ r.processedAt = none
    · obtain ⟨r, hr, hid, hopen⟩ := ho
      simp only [step, hphase, ← hid, claimStmt_of_open hw hr hopen] at h
      cases h
      rw [hid]
      exact .claimed now res r hphase hr hid hopen
    · have htaken : ∀ r ∈ w.db.rows, r.id = res.articleId → r.processedAt ≠ none :=
        fun r hr hid hopen => ho ⟨r, hr, hid, hopen⟩
      simp only [step, hphase, claimStmt_of_taken htaken] at h
      cases h
      exact .unclaimed now res hphase htaken
  | _ => simp [step, hphase] at h

/-- **Inversion of `step`.** -/
theorem step_effect {a : Action} (hw : WellFormed w.db) (h : step a t w = some (t', w')) :
    Effect a t w t' w' := by
  cases a with
  | insert now =>
    cases hphase : t.phase with
    | insert =>
      by_cases hd : Duplicate t.feedId t.entry w.db.rows
      · simp only [step, hphase, insertStmt_of_duplicate hd] at h
        cases h
        exact .conflicted now hphase hd
      · simp only [step, hphase, insertStmt_of_not_duplicate hd] at h
        cases h
        exact .inserted now hphase hd
    | _ => simp [step, hphase] at h
  | edit now raced => exact edit_effect hw h
  | touch now => exact touch_effect h
  | claim now => exact claim_effect hw h
  | send raises =>
    cases hphase : t.phase with
    | send res =>
      cases raises with
      | true =>
        simp only [step, hphase, if_true] at h
        cases h
        exact .raised res hphase
      | false =>
        simp only [step, hphase, Bool.false_eq_true, if_false] at h
        cases h
        exact .queued res hphase
    | _ => simp [step, hphase] at h
  | release =>
    cases hphase : t.phase with
    | release res =>
      simp only [step, hphase] at h
      cases h
      exact .released res hphase
    | _ => simp [step, hphase] at h
  | ack =>
    cases hphase : t.phase with
    | ack res =>
      simp only [step, hphase] at h
      cases h
      exact .acked res hphase
    | _ => simp [step, hphase] at h
  | die =>
    by_cases hlive : t.phase.live = true
    · simp only [step, hlive, if_true] at h
      cases h
      exact .died hlive
    · simp [step, hlive] at h
  | redeliver =>
    cases hphase : t.phase with
    | dead =>
      simp only [step, hphase] at h
      cases h
      exact .redelivered hphase
    | _ => simp [step, hphase] at h

end Inversion

/-- The indexes hold after every step. -/
theorem Effect.wellFormed {a : Action} {t t' : Task} {w w' : World} (hw : WellFormed w.db)
    (h : Effect a t w t' w') : WellFormed w'.db := by
  cases h with
  | inserted now hphase hnew =>
    have hins := insertStmt_wellFormed hw t.feedId t.entry now
    rw [insertStmt_of_not_duplicate hnew] at hins
    exact hins
  | conflicted => exact hw.burn
  | edited now r hphase hr he =>
    exact hw.update_edit_row hr he now
  | touched now r hphase hr =>
    have htouch := touchExisting_wellFormed hw t.feedId t.entry now
    rw [touchExisting, hr] at htouch
    exact htouch
  | claimed now res r hphase hr hid hopen =>
    have hevery := claimStmt_wellFormed hw r.id now
    rw [claimStmt_of_open hw hr hopen, hid] at hevery
    exact hevery
  | released res => exact releaseStmt_wellFormed hw res.articleId
  | unedited | lost | unclaimed | queued | raised | acked | died | redelivered => exact hw

/-- Rows are never removed.  A row keeps its id, feed and guid for ever, and
its content hash in every step but an edit of that row. -/
theorem Effect.keeps_row {a : Action} {t t' : Task} {w w' : World} (h : Effect a t w t' w')
    {r : Article} (hr : r ∈ w.db.rows) :
    ∃ r' ∈ w'.db.rows, r'.id = r.id ∧ r'.feedId = r.feedId ∧ r'.guid = r.guid ∧
      (r'.contentHash = r.contentHash ∨
        (∃ now, a = .edit now false) ∧ t.phase = .edit ∧
          ∃ x ∈ w.db.rows, editable t.feedId t.entry w.db.rows x = true ∧ x.id = r.id) := by
  -- what an update by id leaves in the place of `r`
  have hupdate : ∀ (id : Nat) (f : Article → Article), (∀ x, (f x).id = x.id) →
      (∀ x, (f x).feedId = x.feedId) → (∀ x, (f x).guid = x.guid) →
      (∀ x, (f x).contentHash = x.contentHash) →
      ∃ r' ∈ updateWhere (fun x => x.id == id) f w.db.rows, r'.id = r.id ∧
        r'.feedId = r.feedId ∧ r'.guid = r.guid ∧ r'.contentHash = r.contentHash := by
    intro id f hid hfeed hguid hhash
    by_cases he : r.id = id
    · exact ⟨f r, mem_updateWhere_of hr (by simpa using he), hid r, hfeed r, hguid r, hhash r⟩
    · exact ⟨r, mem_updateWhere_of_not hr (by simpa using he), rfl, rfl, rfl, rfl⟩
  cases h with
  | inserted => exact ⟨r, List.mem_append_left _ hr, rfl, rfl, rfl, .inl rfl⟩
  | edited now x hphase hx he =>
    by_cases hid : r.id = x.id
    · refine ⟨r.edit t.entry now, mem_updateWhere_of hr (by simpa using hid), rfl, rfl, rfl, ?_⟩
      exact .inr ⟨⟨now, rfl⟩, hphase, x, hx, he, hid.symm⟩
    · exact ⟨r, mem_updateWhere_of_not hr (by simpa using hid), rfl, rfl, rfl, .inl rfl⟩
  | touched now x =>
    obtain ⟨r', hr', hid, hfeed, hguid, hhash⟩ :=
      hupdate x.id (Article.touch now) (fun _ => rfl) (fun _ => rfl) (fun _ => rfl) (fun _ => rfl)
    exact ⟨r', hr', hid, hfeed, hguid, .inl hhash⟩
  | claimed now res =>
    obtain ⟨r', hr', hid, hfeed, hguid, hhash⟩ := hupdate res.articleId (Article.claimed now)
      (fun _ => rfl) (fun _ => rfl) (fun _ => rfl) (fun _ => rfl)
    exact ⟨r', hr', hid, hfeed, hguid, .inl hhash⟩
  | released res =>
    obtain ⟨r', hr', hid, hfeed, hguid, hhash⟩ := hupdate res.articleId Article.released
      (fun _ => rfl) (fun _ => rfl) (fun _ => rfl) (fun _ => rfl)
    exact ⟨r', hr', hid, hfeed, hguid, .inl hhash⟩
  | conflicted | unedited | lost | unclaimed | queued | raised | acked | died | redelivered =>
    exact ⟨r, hr, rfl, rfl, rfl, .inl rfl⟩

/-! ### Where a task stands -/

/-- The result of the upsert, once the task has one. -/
def Phase.result? : Phase → Option UpsertResult
  | .claim res | .send res | .release res | .ack res | .finished res => some res
  | _ => none

/-- The task is between its conflicting `INSERT` and its `_TOUCH_EXISTING`. -/
def Phase.waiting : Phase → Bool
  | .edit | .touch => true
  | _ => false

/-- The id a task goes on with is that of a row of its feed. -/
def Located (t : Task) (w : World) : Prop :=
  ∀ res, t.phase.result? = some res → ∃ r ∈ w.db.rows, r.id = res.articleId ∧ r.feedId = t.feedId

theorem Located.effect_own {a : Action} {t t' : Task} {w w' : World} (hl : Located t w)
    (h : Effect a t w t' w') : Located t' w' := by
  have hkeep : ∀ res, t.phase.result? = some res → t'.feedId = t.feedId →
      ∃ r ∈ w'.db.rows, r.id = res.articleId ∧ r.feedId = t'.feedId := by
    intro res hres hfeed
    obtain ⟨r, hr, hid, hf⟩ := hl res hres
    obtain ⟨r', hr', hid', hf', -, -⟩ := h.keeps_row hr
    exact ⟨r', hr', hid'.trans hid, (hf'.trans hf).trans hfeed.symm⟩
  intro res hres
  cases h with
  | inserted now =>
    cases hres
    exact ⟨_, List.mem_append_right _ (List.mem_singleton_self _), rfl, rfl⟩
  | edited now r hphase hr he =>
    cases hres
    have hfeed : r.feedId = t.feedId := by
      simp only [editable, Bool.and_eq_true] at he
      exact (hasGuid_iff.mp he.1.1).1
    exact ⟨r.edit t.entry now, mem_updateWhere_of hr (by simp), rfl, hfeed⟩
  | touched now r hphase hr =>
    cases hres
    obtain ⟨hr, hmatch⟩ := touchTarget_spec hr
    have hfeed : r.feedId = t.feedId := by
      rcases hmatch with hg | ⟨hh, -⟩
      · exact (hasGuid_iff.mp hg).1
      · exact (hasHash_iff.mp hh).1
    exact ⟨r.touch now, mem_updateWhere_of hr (by simp), rfl, hfeed⟩
  | claimed now res' r hphase =>
    cases hres
    exact hkeep _ (by rw [hphase]; rfl) rfl
  | unclaimed now res' hphase =>
    cases hres
    exact hkeep _ (by rw [hphase]; rfl) rfl
  | queued res' hphase =>
    cases hres
    exact hkeep _ (by rw [hphase]; rfl) rfl
  | raised res' hphase =>
    cases hres
    exact hkeep _ (by rw [hphase]; rfl) rfl
  | acked res' hphase =>
    cases hres
    exact hkeep _ (by rw [hphase]; rfl) rfl
  | conflicted | unedited | lost | released | died | redelivered => cases hres

theorem Located.effect_other {a : Action} {t t' u : Task} {w w' : World} (hl : Located u w)
    (h : Effect a t w t' w') : Located u w' := by
  intro res hres
  obtain ⟨r, hr, hid, hf⟩ := hl res hres
  obtain ⟨r', hr', hid', hf', -, -⟩ := h.keeps_row hr
  exact ⟨r', hr', hid'.trans hid, hf'.trans hf⟩

/-! ### One task alone -/

/-- With no other task in between, the steps of a task up to its claim are
`upsert_article`. -/
theorem upsert_alone {t : Task} {w : World} (hw : WellFormed w.db) (hphase : t.phase = .insert)
    (times : StatementTimes) :
    ∃ res db', upsertArticle t.feedId t.entry times w.db = (.ok res, db') ∧
      Reach (fun a x => step a x.1 x.2) anyMove (t, w)
        (t.goto (.claim res), { w with db := db' }) := by
  have hconflict : Duplicate t.feedId t.entry w.db.rows →
      Reach (fun a x => step a x.1 x.2) anyMove (t, w)
        (t.goto .edit, { w with db := w.db.burn }) := by
    intro hd
    refine .step (m := .insert times.insertAt) .refl trivial ?_
    simp only [step, hphase, insertStmt_of_duplicate hd]
    rfl
  obtain ⟨d, hd⟩ := exists_decides t.feedId t.entry w.db.rows
  cases d with
  | insert =>
    refine ⟨_, _, upsertArticle_of_insert hd times, ?_⟩
    refine .step (m := .insert times.insertAt) .refl trivial ?_
    simp only [step, hphase, insertStmt_of_not_duplicate (decides_insert_iff.mp hd)]
  | edit r =>
    obtain ⟨hr, he⟩ := decides_edit_iff.mp hd
    refine ⟨_, _, upsertArticle_of_edit hw hd times, ?_⟩
    refine .step (m := .edit times.editAt false) (hconflict ⟨r, hr, .inl hd.2.1⟩) trivial ?_
    have hedit := updateEdited_of_editable hw.burn hr he times.editAt
    simp only [step, Task.goto_phase, Task.goto_feedId, Task.goto_entry, Bool.false_eq_true,
      if_false, hedit]
    rfl
  | touch r =>
    have hdup : Duplicate t.feedId t.entry w.db.rows := ⟨r, hd.1, hd.2.imp And.left And.left⟩
    refine ⟨_, _, upsertArticle_of_touch hw hd times, ?_⟩
    have hedit := updateEdited_of_none hw.burn (hd.not_editable hw) times.editAt
    have htarget : touchTarget t.feedId t.entry w.db.burn.rows = some r := hd.touchTarget_eq hw
    have hunedited : Reach (fun a x => step a x.1 x.2) anyMove (t, w)
        (t.goto .touch, { w with db := w.db.burn }) := by
      refine .step (m := .edit times.editAt false) (hconflict hdup) trivial ?_
      simp only [step, Task.goto_phase, Task.goto_feedId, Task.goto_entry, Bool.false_eq_true,
        if_false, hedit]
      rfl
    refine .step (m := .touch times.touchAt) hunedited trivial ?_
    simp only [step, Task.goto_phase, Task.goto_feedId, Task.goto_entry, touchExisting, htarget]
    rfl

/-! ### Conflicts keep their row -/

variable {ι : Type*} [DecidableEq ι]

/-- Every task is about to run its `INSERT`, on a table with its indexes. -/
structure Initial (c : Tasks ι) : Prop where
  table : WellFormed c.shared.db
  phases : ∀ p, (c.loc p).phase = .insert

/-- The move does not edit away the content another call conflicted with: if
`_UPDATE_EDITED` rewrites a row whose hash a waiting call has, then that call
also has a row with its guid. -/
def KeepsHashes (c : Tasks ι) : Move ι Action Empty → Prop
  | .proc p (.edit _ false) =>
    ∀ r ∈ c.shared.db.rows,
      editable (c.loc p).feedId (c.loc p).entry c.shared.db.rows r = true →
      ∀ q, q ≠ p → (c.loc q).phase.waiting = true →
        hasHash (c.loc q).feedId (c.loc q).entry r = true →
        ∃ x ∈ c.shared.db.rows, hasGuid (c.loc q).feedId (c.loc q).entry x = true
  | _ => True

instance {n : Nat} (c : Tasks (Fin n)) :
    (m : Move (Fin n) Action Empty) → Decidable (KeepsHashes c m)
  | .proc p (.edit _ false) =>
    inferInstanceAs (Decidable (∀ r ∈ c.shared.db.rows,
      editable (c.loc p).feedId (c.loc p).entry c.shared.db.rows r = true →
      ∀ q, q ≠ p → (c.loc q).phase.waiting = true →
        hasHash (c.loc q).feedId (c.loc q).entry r = true →
        ∃ x ∈ c.shared.db.rows, hasGuid (c.loc q).feedId (c.loc q).entry x = true))
  | .proc _ (.edit _ true) | .proc _ (.insert _) | .proc _ (.touch _) | .proc _ (.claim _)
  | .proc _ (.send _) | .proc _ .release | .proc _ .ack | .proc _ .die | .proc _ .redeliver =>
    isTrue trivial

/-- A waiting call has a row that matches its entry, and the upsert has raised
nothing. -/
structure Matched (t : Task) (w : World) : Prop where
  located : Located t w
  row : t.phase.waiting = true → Duplicate t.feedId t.entry w.db.rows
  error : ∀ e, t.phase = .failed e → e = .send

/-- The step of a task keeps its own row. -/
theorem Matched.effect_own {a : Action} {t t' : Task} {w w' : World} (hm : Matched t w)
    (h : Effect a t w t' w') : Matched t' w' := by
  refine ⟨hm.located.effect_own h, fun hwait => ?_, fun e he => ?_⟩
  · cases h with
    -- a call waits behind a conflict, or an edit that found no row
    | conflicted now hphase hdup => exact hdup
    | unedited now raced hphase => exact hm.row (by rw [hphase]; rfl)
    | _ => exact Bool.noConfusion hwait
  · cases h with
    -- the branch is not reached: the row of the call is still there
    | lost now hphase hno => exact (hno (hm.row (by rw [hphase]; rfl))).elim
    | released =>
      cases he
      rfl
    | _ => cases he

omit [DecidableEq ι] in
/-- A step that meets `KeepsHashes` keeps the row of another call. -/
theorem Matched.effect_other {c : Tasks ι} {p q : ι} {a : Action} {t' : Task} {w' : World}
    (hm : Matched (c.loc q) c.shared) (hok : KeepsHashes c (.proc p a)) (hq : q ≠ p)
    (hw : WellFormed c.shared.db) (h : Effect a (c.loc p) c.shared t' w') :
    Matched (c.loc q) w' := by
  refine ⟨hm.located.effect_other h, fun hwait => ?_, hm.error⟩
  -- a row with the guid of the call survives every step
  have hguid : ∀ x ∈ c.shared.db.rows, hasGuid (c.loc q).feedId (c.loc q).entry x = true →
      Duplicate (c.loc q).feedId (c.loc q).entry w'.db.rows := by
    intro x hx hg
    obtain ⟨x', hx', -, hf, hguid, -⟩ := h.keeps_row hx
    obtain ⟨hfeed, hne, hgx⟩ := hasGuid_iff.mp hg
    exact ⟨x', hx', .inl (hasGuid_iff.mpr ⟨hf.trans hfeed, hne, hguid.trans hgx⟩)⟩
  obtain ⟨r, hr, hmatch⟩ := hm.row hwait
  rcases hmatch with hg | hh
  · exact hguid r hr hg
  · obtain ⟨r', hr', -, hf, -, hsame | ⟨⟨now, rfl⟩, -, x, hx, he, hid⟩⟩ := h.keeps_row hr
    · obtain ⟨hfeed, hhash⟩ := hasHash_iff.mp hh
      exact ⟨r', hr', .inr (hasHash_iff.mpr ⟨hf.trans hfeed, hsame.trans hhash⟩)⟩
    · -- the edit rewrote `r` itself, so the side condition gives a guid row
      have hxr : x = r := hw.eq_of_id hx hr hid
      subst hxr
      obtain ⟨y, hy, hg⟩ := hok x hx he q hq hwait hh
      exact hguid y hy hg

/-- The invariant of all interleavings that meet `KeepsHashes`. -/
theorem matched_of_reach {c₀ c : Tasks ι} (h0 : Initial c₀) (h : Reach next KeepsHashes c₀ c) :
    Config.Meets (fun w => WellFormed w.db) Matched (fun _ _ => True) c := by
  refine Config.invariant_of_assertions (G := fun w => WellFormed w.db) (P := Matched)
    (Q := fun _ _ => True) (fun _ _ _ => trivial) ?_ ?_ ?_ ?_ ?_ h
  · intro c p a t w hc hok hstep
    have he := step_effect hc.shared hstep
    exact ⟨he.wellFormed hc.shared, (hc.each p).effect_own he⟩
  · intro c p a t w q hc hok hstep hq
    exact (hc.each q).effect_other hok hq hc.shared (step_effect hc.shared hstep)
  · intros
    exact trivial
  · intro _ e
    exact e.elim
  · refine ⟨h0.table, fun p => ⟨?_, ?_, ?_⟩, fun _ _ _ => trivial⟩
    · intro res hres
      rw [h0.phases p] at hres
      cases hres
    · intro hwait
      rw [h0.phases p] at hwait
      exact Bool.noConfusion hwait
    · intro e he
      rw [h0.phases p] at he
      cases he

/-- A task keeps its message. -/
theorem feedId_of_reach {ok : Tasks ι → Move ι Action Empty → Prop} {c₀ c : Tasks ι}
    (h0 : Initial c₀) (h : Reach next ok c₀ c) (p : ι) :
    (c.loc p).feedId = (c₀.loc p).feedId ∧ WellFormed c.shared.db := by
  refine h.invariant (I := fun c => (c.loc p).feedId = (c₀.loc p).feedId ∧ WellFormed c.shared.db)
    ⟨rfl, h0.table⟩ ?_
  rintro c m c' ⟨ih, hw⟩ - hnext
  cases m with
  | proc q a =>
    obtain ⟨t, w, hstep, rfl⟩ := Config.next_proc.mp hnext
    have he := step_effect hw hstep
    refine ⟨?_, he.wellFormed hw⟩
    by_cases hpq : p = q
    · subst hpq
      have hfeed : t.feedId = (c.loc p).feedId := by cases he <;> rfl
      simpa [hfeed] using ih
    · simpa [hpq] using ih
  | env e => exact e.elim

/-- How many statements of the upsert are still to run. -/
def Phase.statementsLeft : Phase → Nat
  | .insert => 3
  | .edit => 2
  | .touch => 1
  | _ => 0

/-- The statement a call runs next. -/
def Phase.statement (now : Time) : Phase → Option Action
  | .insert => some (.insert now)
  | .edit => some (.edit now false)
  | .touch => some (.touch now)
  | _ => none

omit [DecidableEq ι] in
theorem step_of_statement {now : Time} {a : Action} {t : Task} {w : World}
    (hw : WellFormed w.db) (ha : t.phase.statement now = some a) :
    ∃ t' w', step a t w = some (t', w') := by
  cases hphase : t.phase with
  | insert =>
    rw [hphase] at ha
    cases ha
    by_cases hd : Duplicate t.feedId t.entry w.db.rows
    · simp only [step, hphase, insertStmt_of_duplicate hd]
      exact ⟨_, _, rfl⟩
    · simp only [step, hphase, insertStmt_of_not_duplicate hd]
      exact ⟨_, _, rfl⟩
  | edit =>
    rw [hphase] at ha
    cases ha
    simp only [step, hphase, Bool.false_eq_true, if_false, updateEdited_eq hw]
    cases ((w.db.rows.filter (editable t.feedId t.entry w.db.rows)).head?).map Article.id with
    | none => exact ⟨_, _, rfl⟩
    | some id => exact ⟨_, _, rfl⟩
  | touch =>
    rw [hphase] at ha
    cases ha
    cases htarget : touchTarget t.feedId t.entry w.db.rows with
    | some r =>
      simp only [step, hphase, touchExisting, htarget]
      exact ⟨_, _, rfl⟩
    | none =>
      simp only [step, hphase, touchExisting, htarget]
      exact ⟨_, _, rfl⟩
  | _ =>
    rw [hphase] at ha
    cases ha

theorem Effect.statementsLeft_lt {now : Time} {a : Action} {t t' : Task} {w w' : World}
    (h : Effect a t w t' w') (ha : t.phase.statement now = some a) :
    t'.phase.statementsLeft < t.phase.statementsLeft := by
  cases h with
  | inserted _ hphase => simp [hphase, Phase.statementsLeft]
  | conflicted _ hphase => simp [hphase, Phase.statementsLeft]
  | edited _ _ hphase => simp [hphase, Phase.statementsLeft]
  | unedited _ _ hphase => simp [hphase, Phase.statementsLeft]
  | touched _ _ hphase => simp [hphase, Phase.statementsLeft]
  | lost _ hphase => simp [hphase, Phase.statementsLeft]
  | claimed _ _ _ hphase => simp [hphase, Phase.statement] at ha
  | unclaimed _ _ hphase => simp [hphase, Phase.statement] at ha
  | queued _ hphase => simp [hphase, Phase.statement] at ha
  | raised _ hphase => simp [hphase, Phase.statement] at ha
  | released _ hphase => simp [hphase, Phase.statement] at ha
  | acked _ hphase => simp [hphase, Phase.statement] at ha
  | died => cases hp : t.phase <;> simp [hp, Phase.statement] at ha
  | redelivered hphase => simp [hphase, Phase.statement] at ha

/-- A call that is not through its upsert can run its next statement, and has
fewer left then. -/
theorem exists_statement {c : Tasks ι} (hw : WellFormed c.shared.db) {p : ι} {now : Time}
    {a : Action} (ha : (c.loc p).phase.statement now = some a) :
    ∃ c', next (.proc p a) c = some c' ∧
      (c'.loc p).phase.statementsLeft < (c.loc p).phase.statementsLeft := by
  obtain ⟨t, w, hstep⟩ := step_of_statement hw ha
  refine ⟨_, Config.next_proc.mpr ⟨t, w, hstep, rfl⟩, ?_⟩
  simpa using (step_effect hw hstep).statementsLeft_lt ha

/-- **Concurrent upserts do not fail while no edit takes away the content
another call conflicted with.**  Neither `RuntimeError` nor `IntegrityError`
leaves a call; a call that is through has the id of a row of its feed; and
each other call can run its next statement and is closer to its end then. -/
theorem upserts_end_with_a_row {c₀ c : Tasks ι} (h0 : Initial c₀)
    (h : Reach next KeepsHashes c₀ c) (p : ι) :
    (∀ e, (c.loc p).phase ≠ .failed (.upsert e)) ∧
      (∀ res, (c.loc p).phase.result? = some res →
        ∃ r ∈ c.shared.db.rows, r.id = res.articleId ∧ r.feedId = (c₀.loc p).feedId) ∧
      ∀ now a, (c.loc p).phase.statement now = some a →
        ∃ c', next (.proc p a) c = some c' ∧
          (c'.loc p).phase.statementsLeft < (c.loc p).phase.statementsLeft := by
  have hc := matched_of_reach h0 h
  have hfeed := (feedId_of_reach h0 h p).1
  refine ⟨fun e he => ?_, fun res hres => ?_, fun now a ha => exists_statement hc.shared ha⟩
  · have := (hc.each p).error _ he
    cases this
  · obtain ⟨r, hr, hid, hf⟩ := (hc.each p).located res hres
    exact ⟨r, hr, hid, hf.trans hfeed⟩

/-! ### A conflict that loses its row -/

/-- Three entries of one feed: the second is an edit of the first, and the
third repeats the first's old content under another guid. -/
def crossedStart : Tasks (Fin 3) where
  shared := ⟨Db.empty, []⟩
  loc := fun p =>
    match p with
    | 0 => ⟨1, storyWith "a".toList "old".toList, .insert⟩
    | 1 => ⟨1, storyWith "a".toList "new".toList, .insert⟩
    | 2 => ⟨1, storyWith "b".toList "old".toList, .insert⟩

theorem crossedStart_initial : Initial crossedStart := by
  refine ⟨WellFormed.empty, ?_⟩
  decide

/-- Only the statements of the upsert run. -/
def UpsertsOnly (_ : Tasks ι) : Move ι Action Empty → Prop
  | .proc _ (.insert _) | .proc _ (.edit _ false) | .proc _ (.touch _) => True
  | _ => False

/-- The first call inserts its row, the third call conflicts with it and touches
it, and the second call then edits it. -/
def serialMoves : List (Move (Fin 3) Action Empty) :=
  [.proc 0 (.insert 1), .proc 2 (.insert 2), .proc 2 (.edit 3 false), .proc 2 (.touch 4),
    .proc 1 (.insert 5), .proc 1 (.edit 6 false)]

theorem upserts_end_with_a_row_crossed :
    ∃ c, Reach next KeepsHashes crossedStart c ∧
      (c.loc 2).phase = .claim ⟨1, false, false⟩ ∧ (c.loc 1).phase = .claim ⟨1, false, true⟩ ∧
      ∃ r ∈ c.shared.db.rows, r.id = 1 ∧ r.feedId = 1 := by
  have hrun : ((exec next serialMoves crossedStart).map
      fun c => ((c.loc 2).phase, (c.loc 1).phase)) =
      some (.claim ⟨1, false, false⟩, .claim ⟨1, false, true⟩) := by decide
  obtain ⟨c, hreach, hphases⟩ := Reach.exists_of_exec KeepsHashes hrun (by decide)
  have h2 : (c.loc 2).phase = .claim ⟨1, false, false⟩ := congrArg Prod.fst hphases
  obtain ⟨r, hr, hid, hfeed⟩ := (upserts_end_with_a_row crossedStart_initial hreach 2).2.1 _
    (by rw [h2]; rfl)
  exact ⟨c, hreach, h2, congrArg Prod.snd hphases, r, hr, hid, hfeed⟩

/-- The third call conflicts with the first row, the second call edits that
row, and the third call then finds nothing. -/
def crossedMoves : List (Move (Fin 3) Action Empty) :=
  [.proc 0 (.insert 1), .proc 2 (.insert 2), .proc 1 (.insert 3), .proc 1 (.edit 4 false),
    .proc 2 (.edit 5 false), .proc 2 (.touch 6)]

/-- The `pragma: no cover` branch is reached, with no row deleted. -/
theorem conflict_without_matching_row :
    ¬ ∀ c, Reach next UpsertsOnly crossedStart c →
      ∀ p e, (c.loc p).phase ≠ .failed (.upsert e) := by
  intro hall
  have hrun : ((exec next crossedMoves crossedStart).map fun c => (c.loc 2).phase) =
      some (.failed (.upsert (.runtimeError 1))) := by decide
  obtain ⟨c, hc, hphase⟩ := Reach.exists_of_exec UpsertsOnly hrun
    (by simp only [crossedMoves, Along, UpsertsOnly, true_and, implies_true])
  exact hall c hc 2 _ hphase

end ProcessArticle
