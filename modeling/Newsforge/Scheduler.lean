/-
The scheduler of the feeds (`enqueue_due_feeds` of `tasks/scheduler.py`).

* `Store` — the committed rows of `feeds_feed`, the rows that are locked, and what has
  happened so far: the commits, row by row, and the tasks that were queued;
* `Run` — one run of the task between two of its steps;
* `step` — one step: `BEGIN`, the start of the `SELECT`, one candidate of it, the
  `UPDATE`, the commit, one `apply_async`, or the death of the worker;
* `edit` — a row written by anyone else;
* `next` — any number of runs, interleaved.

The database is PostgreSQL under READ COMMITTED.  The `SELECT` takes its candidates from
the snapshot it starts with; each is skipped while another transaction has it locked,
and its committed version is looked at again before it is locked.  The new versions of
an `UPDATE` are seen by nobody before the commit, which frees the locks.

Main result: `step_did`, what a step does.
-/
import Newsforge.Feed
import Newsforge.Runs

open Tables Runs Feeds

namespace Scheduler

/-! ### The store -/

/-- `fetch_feed.apply_async(args=(feed,), expires=expires)`; in `due`, a row that the
`SELECT` returned. -/
structure FetchTask where
  feed : ℕ
  expires : ℕ
  deriving DecidableEq, Repr

/-- What happened: a commit of a run with the time `now` replaced a row, or the run
queued a task. -/
inductive Event
  | moved (now : Time) (before after : Feed)
  | published (now : Time) (task : FetchTask)
  deriving DecidableEq

/-- The latest event comes first. -/
structure Store where
  feeds : List Feed
  locked : List ℕ
  log : List Event

/-- `next_fetch_at = now() + (interval_seconds || ' seconds')::interval`. -/
def moveForward (now : Time) (f : Feed) : Feed :=
  { f with nextFetchAt := now + f.intervalSeconds * second }

/-- The columns that the `SELECT` returns. -/
def taskOf (f : Feed) : FetchTask := ⟨f.id, f.intervalSeconds⟩

/-! ### One run -/

/-- A run of `enqueue_due_feeds`, with `now()` of its transaction: in front of it, in
the transaction, in the `SELECT` with the candidates that are left and the rows that it
has locked, behind it, behind the `UPDATE` with the new versions, behind the commit with
the tasks that are left, and over. -/
inductive Run
  | idle
  | begun (now : Time) (limit : ℕ)
  | selecting (now : Time) (limit : ℕ) (candidates : List Feed) (due : List FetchTask)
  | selected (now : Time) (due : List FetchTask)
  | updated (now : Time) (due : List FetchTask) (rows : List Feed)
  | publishing (now : Time) (due : List FetchTask)
  | done
  deriving DecidableEq

/-- The rows that the run has locked. -/
def Run.held : Run → List ℕ
  | .selecting _ _ _ due => due.map FetchTask.feed
  | .selected _ due => due.map FetchTask.feed
  | .updated _ due _ => due.map FetchTask.feed
  | _ => []

inductive Action
  | begin (now : Time) (limit : ℕ)
  | select (candidates : List Feed)
  | candidate
  | update
  | commit
  | publish
  | die
  deriving DecidableEq

/-- The candidates of `_DUE_SQL` in a snapshot, `ORDER BY next_fetch_at`. -/
def Candidates (now : Time) (feeds candidates : List Feed) : Prop :=
  candidates.Perm (feeds.filter fun f => f.isDue now) ∧
    candidates.Pairwise fun a b => a.nextFetchAt ≤ b.nextFetchAt

instance (now : Time) (feeds candidates : List Feed) :
    Decidable (Candidates now feeds candidates) := inferInstanceAs (Decidable (_ ∧ _))

/-- The committed version of a candidate, if it still is due. -/
def recheck (now : Time) (candidate : Feed) (feeds : List Feed) : Option Feed :=
  feeds.find? fun f => f.id == candidate.id && f.isDue now

/-- The new versions of the rows with these ids. -/
def newVersions (now : Time) (ids : List ℕ) (feeds : List Feed) : List Feed :=
  (feeds.filter fun f => f.id ∈ ids).map (moveForward now)

/-- The version of a row behind a commit. -/
def installed (rows : List Feed) (f : Feed) : Feed := (rows.find? fun r => r.id == f.id).getD f

/-- What a commit replaces. -/
def moves (now : Time) (rows feeds : List Feed) : List Event :=
  (feeds.filter fun f => rows.any fun r => r.id == f.id).map fun f =>
    .moved now f (installed rows f)

/-- Locks are freed. -/
def Store.free (held : List ℕ) (s : Store) : Store :=
  { s with locked := s.locked.filter fun i => i ∉ held }

/-- The commit. -/
def Store.commit (now : Time) (rows : List Feed) (held : List ℕ) (s : Store) : Store :=
  { feeds := s.feeds.map (installed rows)
    locked := s.locked.filter fun i => i ∉ held
    log := moves now rows s.feeds ++ s.log }

/-- One step. -/
def step : Action → Run → Store → Option (Run × Store)
  | .begin now limit, .idle, s => some (.begun now limit, s)
  | .select candidates, .begun now limit, s =>
    if Candidates now s.feeds candidates then some (.selecting now limit candidates [], s) else none
  | .candidate, .selecting now _ [] due, s => some (.selected now due, s)
  | .candidate, .selecting now limit (c :: candidates) due, s =>
    if limit ≤ due.length then some (.selected now due, s)
    else if c.id ∈ s.locked then some (.selecting now limit candidates due, s)
    else
      match recheck now c s.feeds with
      | none => some (.selecting now limit candidates due, s)
      | some f => some (.selecting now limit candidates (due ++ [taskOf f]),
          { s with locked := f.id :: s.locked })
  | .update, .selected now due, s =>
    some (.updated now due (newVersions now (due.map FetchTask.feed) s.feeds), s)
  | .commit, .updated now due rows, s =>
    some (.publishing now due, s.commit now rows (due.map FetchTask.feed))
  | .publish, .publishing _ [], s => some (.done, s)
  | .publish, .publishing now (x :: due), s =>
    some (.publishing now due, { s with log := .published now x :: s.log })
  -- the transaction is rolled back
  | .die, r, s => some (.done, s.free r.held)
  | _, _, _ => none

/-- A row written by anyone else waits for its lock. -/
def edit (f : Feed) (s : Store) : Option Store :=
  if f.id ∈ s.locked then none else some { s with feeds := put Feed.id f s.feeds }

section

variable {ι : Type*} [DecidableEq ι]

abbrev Schedulers (ι : Type*) := Config ι Store Run

def next : Move ι Action Feed → Schedulers ι → Option (Schedulers ι) := Config.next step edit

end

/-! ### What a step does -/

/-- What a step does. -/
inductive Did : Run → Store → Run → Store → Prop
  | begin {now : Time} {limit : ℕ} {s : Store} : Did .idle s (.begun now limit) s
  | select {now : Time} {limit : ℕ} {candidates : List Feed} {s : Store} :
    Did (.begun now limit) s (.selecting now limit candidates []) s
  | selected {now : Time} {limit : ℕ} {candidates : List Feed} {due : List FetchTask} {s : Store} :
    Did (.selecting now limit candidates due) s (.selected now due) s
  | skipped {now : Time} {limit : ℕ} {c : Feed} {candidates : List Feed} {due : List FetchTask}
    {s : Store} :
    Did (.selecting now limit (c :: candidates) due) s (.selecting now limit candidates due) s
  | locked {now : Time} {limit : ℕ} {c f : Feed} {candidates : List Feed} {due : List FetchTask}
    {s : Store} : f ∈ s.feeds → f.isDue now = true → f.id ∉ s.locked →
    Did (.selecting now limit (c :: candidates) due) s
      (.selecting now limit candidates (due ++ [taskOf f])) { s with locked := f.id :: s.locked }
  | updated {now : Time} {due : List FetchTask} {s : Store} :
    Did (.selected now due) s
      (.updated now due (newVersions now (due.map FetchTask.feed) s.feeds)) s
  | committed {now : Time} {due : List FetchTask} {rows : List Feed} {s : Store} :
    Did (.updated now due rows) s (.publishing now due)
      (s.commit now rows (due.map FetchTask.feed))
  | finished {now : Time} {s : Store} : Did (.publishing now []) s .done s
  | published {now : Time} {x : FetchTask} {due : List FetchTask} {s : Store} :
    Did (.publishing now (x :: due)) s (.publishing now due)
      { s with log := .published now x :: s.log }
  | died {r : Run} {s : Store} : Did r s .done (s.free r.held)

theorem recheck_eq_some {now : Time} {c f : Feed} {feeds : List Feed}
    (h : recheck now c feeds = some f) : f ∈ feeds ∧ f.id = c.id ∧ f.isDue now = true := by
  have hp := List.find?_some h
  rw [Bool.and_eq_true, beq_iff_eq] at hp
  exact ⟨List.mem_of_find?_eq_some h, hp.1, hp.2⟩

theorem step_did {a : Action} {r r' : Run} {s s' : Store} (h : step a r s = some (r', s')) :
    Did r s r' s' := by
  cases a with
  | die =>
    have hdie : some (Run.done, s.free r.held) = some (r', s') := by
      rw [← h]
      cases r <;> rfl
    cases hdie
    exact .died
  | begin now limit =>
    cases r with
    | idle =>
      cases h
      exact .begin
    | _ => cases h
  | select candidates =>
    cases r with
    | begun now limit =>
      rw [step] at h
      split at h
      · cases h
        exact .select
      · cases h
    | _ => cases h
  | candidate =>
    cases r with
    | selecting now limit candidates due =>
      cases candidates with
      | nil =>
        cases h
        exact .selected
      | cons c candidates =>
        rw [step] at h
        split at h
        · cases h
          exact .selected
        · split at h
          · cases h
            exact .skipped
          · rename_i hfree
            split at h
            · cases h
              exact .skipped
            · rename_i f hf
              cases h
              obtain ⟨hmem, hid, hdue⟩ := recheck_eq_some hf
              exact .locked hmem hdue (hid ▸ hfree)
    | _ => cases h
  | update =>
    cases r with
    | selected now due =>
      cases h
      exact .updated
    | _ => cases h
  | commit =>
    cases r with
    | updated now due rows =>
      cases h
      exact .committed
    | _ => cases h
  | publish =>
    cases r with
    | publishing now due =>
      cases due with
      | nil =>
        cases h
        exact .finished
      | cons x due =>
        cases h
        exact .published
    | _ => cases h

end Scheduler
