/-
Hiding old articles while new ones come in (`cleanup_old_articles` of `tasks/scheduler.py`).

Any number of runs of the task share one article table with any number of
`process_article` tasks.  `_CLEANUP_SQL` picks its rows from the snapshot it starts with
and writes them when it commits, so these are two steps; and a run may be killed at every
point.

* `Phase`, `Run`, `sweep` — one run, and its steps;
* `Proc`, `step` — the runs next to the tasks;
* `Did`, `step_did` — what each step does, said once;
* `Kept`, `Did.kept` — what becomes of a row: none is removed, and what is hidden stays
  hidden.
-/
import Newsforge.Feed
import Newsforge.ProcessArticle

open Tables Runs

namespace ArticleCleanup

open ArticleTable
open ProcessArticle (World)

/-! ### The task -/

/-- `CLEANUP_BATCH`. -/
def cleanupBatch : ℕ := 5000

/-- `CLEANUP_BUDGET_SECONDS`. -/
def cleanupBudgetSeconds : ℕ := 240

/-- `coalesce(published_at, created_at)`. -/
def dated (r : Article) : Time := r.publishedAt.getD r.createdAt

/-- The `WHERE` clause of the subquery of `_CLEANUP_SQL`. -/
def isOld (cutoff : Time) (r : Article) : Bool := !r.isDeleted && decide (dated r < cutoff)

/-- `SET is_deleted = true`. -/
def hidden (r : Article) : Article := { r with isDeleted := true }

/-- The rows with these ids are hidden. -/
def hide (ids : List ℕ) (db : Db) : Db :=
  ⟨updateWhere (fun r => decide (r.id ∈ ids)) hidden db.rows, db.nextId⟩

/-- What a subquery with `LIMIT` and no `ORDER BY` may answer. -/
def Picks (cutoff : Time) (rows : List Article) (ids : List ℕ) : Prop :=
  ids.Nodup ∧ (∀ i ∈ ids, ∃ r ∈ rows, r.id = i ∧ isOld cutoff r = true) ∧
    ids.length = min cleanupBatch (rows.countP (isOld cutoff))

instance (cutoff : Time) (rows : List Article) (ids : List ℕ) :
    Decidable (Picks cutoff rows ids) :=
  inferInstanceAs (Decidable (ids.Nodup ∧ (∀ i ∈ ids, ∃ r ∈ rows, r.id = i ∧
    isOld cutoff r = true) ∧ ids.length = min cleanupBatch (rows.countP (isOld cutoff))))

/-- Where a run stands, and what it has counted. -/
inductive Phase
  | start
  /-- at the test of the `while` -/
  | loop (affected : ℕ)
  /-- in the loop, before the statement -/
  | batch (affected : ℕ)
  /-- the statement has picked its rows -/
  | update (affected : ℕ) (ids : List ℕ)
  /-- left by the `break` -/
  | swept (affected : ℕ)
  | outOfTime (affected : ℕ)
  | killed
  deriving DecidableEq, Repr

/-- A run of `cleanup_old_articles(days)`, the times it took at its start, and its phase. -/
structure Run where
  days : Int
  startedAt : Time
  stopAt : Time
  phase : Phase
  deriving DecidableEq, Repr

/-- `timezone.now() - timedelta(days=days)`. -/
def Run.cutoff (r : Run) : Time := r.startedAt - r.days * 86400 * Feeds.second

def Run.goto (r : Run) (phase : Phase) : Run := { r with phase := phase }

@[simp] theorem Run.goto_phase (r : Run) (phase : Phase) : (r.goto phase).phase = phase := rfl
@[simp] theorem Run.goto_cutoff (r : Run) (phase : Phase) : (r.goto phase).cutoff = r.cutoff := rfl

/-- A worker runs the task. -/
def Phase.live : Phase → Bool
  | .swept _ | .outOfTime _ | .killed => false
  | _ => true

/-- The steps of a run; `monotonic` is `time.monotonic()`. -/
inductive Action
  | start (now monotonic : Time)
  | check (monotonic : Time)
  | select (ids : List ℕ)
  | update
  | die
  deriving DecidableEq, Repr

/-- One step of a run. -/
def sweep (a : Action) (r : Run) (db : Db) : Option (Run × Db) :=
  match a, r.phase with
  | .start now monotonic, .start =>
    some (⟨r.days, now, monotonic + cleanupBudgetSeconds * Feeds.second, .loop 0⟩, db)
  | .check monotonic, .loop n =>
    some (r.goto (if monotonic < r.stopAt then .batch n else .outOfTime n), db)
  | .select ids, .batch n =>
    if Picks r.cutoff db.rows ids then some (r.goto (.update n ids), db) else none
  | .update, .update n ids =>
    -- `cur.rowcount`
    let count := db.rows.countP fun r => decide (r.id ∈ ids)
    some (r.goto (if count < cleanupBatch then .swept (n + count) else .loop (n + count)),
      hide ids db)
  | .die, phase => if phase.live then some (r.goto .killed, db) else none
  | _, _ => none

/-! ### Next to the other tasks -/

/-- What runs on the table. -/
inductive Proc
  | article (t : ProcessArticle.Task)
  | cleanup (r : Run)
  deriving DecidableEq

inductive Act
  | article (a : ProcessArticle.Action)
  | cleanup (a : Action)
  deriving DecidableEq

/-- One step of a process. -/
def step (a : Act) (p : Proc) (w : World) : Option (Proc × World) :=
  match a, p with
  | .article a, .article t => (ProcessArticle.step a t w).map fun s => (.article s.1, s.2)
  | .cleanup a, .cleanup r =>
    (sweep a r w.db).map fun s => (.cleanup s.1, { w with db := s.2 })
  | _, _ => none

abbrev Procs (ι : Type*) := Config ι World Proc

/-- The interleavings of all of them. -/
def next {ι : Type*} [DecidableEq ι] : Move ι Act Empty → Procs ι → Option (Procs ι) :=
  Config.next step ProcessArticle.env

/-- What each step does. -/
inductive Did : Act → Proc → World → Proc → World → Prop
  | article {a t w t' w'} (h : ProcessArticle.Effect a t w t' w') :
      Did (.article a) (.article t) w (.article t') w'
  | started {r w} (now monotonic : Time) (hphase : r.phase = .start) :
      Did (.cleanup (.start now monotonic)) (.cleanup r) w
        (.cleanup ⟨r.days, now, monotonic + cleanupBudgetSeconds * Feeds.second, .loop 0⟩) w
  | entered {r w} (monotonic : Time) (n : ℕ) (hphase : r.phase = .loop n)
      (htime : monotonic < r.stopAt) :
      Did (.cleanup (.check monotonic)) (.cleanup r) w (.cleanup (r.goto (.batch n))) w
  | timedOut {r w} (monotonic : Time) (n : ℕ) (hphase : r.phase = .loop n)
      (htime : r.stopAt ≤ monotonic) :
      Did (.cleanup (.check monotonic)) (.cleanup r) w (.cleanup (r.goto (.outOfTime n))) w
  | selected {r w} (ids : List ℕ) (n : ℕ) (hphase : r.phase = .batch n)
      (hpicks : Picks r.cutoff w.db.rows ids) :
      Did (.cleanup (.select ids)) (.cleanup r) w (.cleanup (r.goto (.update n ids))) w
  | updated {r w} (n count : ℕ) (ids : List ℕ) (hphase : r.phase = .update n ids)
      (hcount : w.db.rows.countP (fun r => decide (r.id ∈ ids)) = count) :
      Did (.cleanup .update) (.cleanup r) w
        (.cleanup (r.goto (if count < cleanupBatch then .swept (n + count) else .loop (n + count))))
        { w with db := hide ids w.db }
  | killed {r w} (hlive : r.phase.live = true) :
      Did (.cleanup .die) (.cleanup r) w (.cleanup (r.goto .killed)) w

section Inversion

variable {a : Act} {p p' : Proc} {w w' : World}

theorem sweep_did {a : Action} {r r' : Run} {db' : Db} (h : sweep a r w.db = some (r', db')) :
    Did (.cleanup a) (.cleanup r) w (.cleanup r') { w with db := db' } := by
  cases a with
  | start now monotonic =>
    cases hphase : r.phase with
    | start =>
      simp only [sweep, hphase] at h
      cases h
      exact .started now monotonic hphase
    | _ => simp [sweep, hphase] at h
  | check monotonic =>
    cases hphase : r.phase with
    | loop n =>
      simp only [sweep, hphase] at h
      cases h
      by_cases htime : monotonic < r.stopAt
      · rw [if_pos htime]
        exact .entered monotonic n hphase htime
      · rw [if_neg htime]
        exact .timedOut monotonic n hphase (not_lt.mp htime)
    | _ => simp [sweep, hphase] at h
  | select ids =>
    cases hphase : r.phase with
    | batch n =>
      simp only [sweep, hphase] at h
      split at h
      · rename_i hpicks
        cases h
        exact .selected ids n hphase hpicks
      · cases h
    | _ => simp [sweep, hphase] at h
  | update =>
    cases hphase : r.phase with
    | update n ids =>
      simp only [sweep, hphase] at h
      cases h
      exact .updated n _ ids hphase rfl
    | _ => simp [sweep, hphase] at h
  | die =>
    simp only [sweep] at h
    split at h
    · rename_i hlive
      cases h
      exact .killed hlive
    · cases h

/-- **Inversion of `step`.** -/
theorem step_did (hw : WellFormed w.db) (h : step a p w = some (p', w')) : Did a p w p' w' := by
  cases a with
  | article a =>
    cases p with
    | article t =>
      obtain ⟨⟨t', w'⟩, hstep, heq⟩ := Option.map_eq_some_iff.mp h
      cases heq
      exact .article (ProcessArticle.step_effect hw hstep)
    | cleanup r => cases h
  | cleanup a =>
    cases p with
    | article t => cases h
    | cleanup r =>
      obtain ⟨⟨r', db'⟩, hstep, heq⟩ := Option.map_eq_some_iff.mp h
      cases heq
      exact sweep_did hstep

end Inversion

/-! ### What becomes of a row -/

/-- What every step leaves of a row: its identity, the content if it has no guid, and that
it is hidden. -/
structure Kept (r r' : Article) : Prop where
  id : r'.id = r.id
  feedId : r'.feedId = r.feedId
  guid : r'.guid = r.guid
  createdAt : r'.createdAt = r.createdAt
  isDeleted : r.isDeleted = true → r'.isDeleted = true
  contentHash : r.guid = [] → r'.contentHash = r.contentHash

theorem Kept.refl (r : Article) : Kept r r := ⟨rfl, rfl, rfl, rfl, fun h => h, fun _ => rfl⟩

theorem Kept.trans {r₁ r₂ r₃ : Article} (h : Kept r₁ r₂) (h' : Kept r₂ r₃) : Kept r₁ r₃ where
  id := h'.id.trans h.id
  feedId := h'.feedId.trans h.feedId
  guid := h'.guid.trans h.guid
  createdAt := h'.createdAt.trans h.createdAt
  isDeleted hr := h'.isDeleted (h.isDeleted hr)
  contentHash hr := (h'.contentHash (h.guid.trans hr)).trans (h.contentHash hr)

/-- How a task changes the table: it adds one row that is not hidden, or writes some. -/
inductive Rewrites (rows : List Article) : List Article → Prop
  | added (new : Article) (hnew : new.isDeleted = false) : Rewrites rows (rows ++ [new])
  | wrote (p : Article → Bool) (f : Article → Article)
      (hkept : ∀ r ∈ rows, p r = true → Kept r (f r) ∧ (f r).isDeleted = r.isDeleted) :
      Rewrites rows (updateWhere p f rows)

theorem Rewrites.refl (rows : List Article) : Rewrites rows rows := by
  have h : Rewrites rows (updateWhere (fun _ => false) id rows) :=
    .wrote _ _ fun r _ hr => absurd hr (by simp)
  rwa [updateWhere_eq_self fun _ _ => rfl] at h

theorem rewrites_of_effect {a : ProcessArticle.Action} {t t' : ProcessArticle.Task} {w w' : World}
    (hw : WellFormed w.db) (h : ProcessArticle.Effect a t w t' w') :
    Rewrites w.db.rows w'.db.rows := by
  cases h with
  | inserted now hphase hnew => exact .added _ rfl
  | edited now r hphase hr he =>
    refine .wrote _ _ fun x hx hid => ⟨⟨rfl, rfl, rfl, rfl, fun h => h, fun hnil => ?_⟩, rfl⟩
    -- only a row with a guid is edited
    rw [hw.eq_of_id hx hr (beq_iff_eq.mp hid)] at hnil
    simp only [editable, Bool.and_eq_true] at he
    obtain ⟨-, hne, hguid⟩ := hasGuid_iff.mp he.1.1
    exact absurd (hguid.symm.trans hnil) hne
  | touched now r hphase hr =>
    exact .wrote _ _ fun x _ _ => ⟨⟨rfl, rfl, rfl, rfl, fun h => h, fun _ => rfl⟩, rfl⟩
  | claimed now res r hphase hr hid hopen =>
    exact .wrote _ _ fun x _ _ => ⟨⟨rfl, rfl, rfl, rfl, fun h => h, fun _ => rfl⟩, rfl⟩
  | released res hphase =>
    exact .wrote _ _ fun x _ _ => ⟨⟨rfl, rfl, rfl, rfl, fun h => h, fun _ => rfl⟩, rfl⟩
  | conflicted | unedited | lost | unclaimed | queued | raised | acked | died | redelivered =>
    exact .refl _

theorem kept_hidden (r : Article) : Kept r (hidden r) :=
  ⟨rfl, rfl, rfl, rfl, fun _ => rfl, fun _ => rfl⟩

theorem Rewrites.kept {rows rows' : List Article} (h : Rewrites rows rows') {r : Article}
    (hr : r ∈ rows) : ∃ r' ∈ rows', Kept r r' := by
  cases h with
  | added new hnew => exact ⟨r, List.mem_append_left _ hr, .refl r⟩
  | wrote p f hkept =>
    by_cases hp : p r = true
    · exact ⟨f r, mem_updateWhere_of hr hp, (hkept r hr hp).1⟩
    · exact ⟨r, mem_updateWhere_of_not hr (by simpa using hp), .refl r⟩

/-- What is hidden after a task has written was hidden before. -/
theorem Rewrites.of_hidden {rows rows' : List Article} (h : Rewrites rows rows') {r' : Article}
    (hr' : r' ∈ rows') (hdel : r'.isDeleted = true) :
    ∃ r ∈ rows, r.id = r'.id ∧ r.isDeleted = true := by
  cases h with
  | added new hnew =>
    rcases List.mem_append.mp hr' with hr' | hr'
    · exact ⟨r', hr', rfl, hdel⟩
    · rw [List.mem_singleton.mp hr', hnew] at hdel
      cases hdel
  | wrote p f hkept =>
    obtain ⟨r, hr, rfl⟩ := mem_updateWhere.mp hr'
    refine ⟨r, hr, ?_⟩
    by_cases hp : p r = true
    · obtain ⟨hkept, hsame⟩ := hkept r hr hp
      rw [if_pos hp] at hdel ⊢
      exact ⟨hkept.id.symm, hsame.symm.trans hdel⟩
    · rw [if_neg hp] at hdel ⊢
      exact ⟨rfl, hdel⟩

/-- **No row is lost.** -/
theorem Did.kept {a : Act} {p p' : Proc} {w w' : World} (hw : WellFormed w.db)
    (h : Did a p w p' w') {r : Article} (hr : r ∈ w.db.rows) : ∃ r' ∈ w'.db.rows, Kept r r' := by
  cases h with
  | article h => exact (rewrites_of_effect hw h).kept hr
  | updated n count ids hphase hcount =>
    by_cases hp : r.id ∈ ids
    · exact ⟨hidden r, mem_updateWhere_of hr (by simpa using hp), kept_hidden r⟩
    · exact ⟨r, mem_updateWhere_of_not hr (by simpa using hp), .refl r⟩
  | started | entered | timedOut | selected | killed => exact ⟨r, hr, .refl r⟩

/-- Both indexes hold after every step. -/
theorem Did.wellFormed {a : Act} {p p' : Proc} {w w' : World} (hw : WellFormed w.db)
    (h : Did a p w p' w') : WellFormed w'.db := by
  cases h with
  | article h => exact h.wellFormed hw
  | updated n count ids hphase hcount =>
    exact hw.update_keeping _ (fun _ => rfl) (fun _ => rfl) (fun _ => rfl) (fun _ => rfl)
  | started | entered | timedOut | selected | killed => exact hw

end ArticleCleanup
