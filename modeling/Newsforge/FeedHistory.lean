/-
Histories of one feed: whole runs of `fetch_feed` and of what staff and the
scheduler do, one after the other.

* `Op`, `History`, `advance` — the operations, the row with what has happened to it,
  and one operation;
* `Exchange` — a conditional request and what was received with its answer;
* `CrawlEvent`, `failures` — what counts as a failed fetch, and how many there were
  in a row;
* `fetchRow` — `fetch_feed` on the row, among any other feeds.

Main result: `fetchRow_cases`, a fetch leaves the row alone or saves one of the
endings into it.
-/
import Newsforge.FeedApi
import Newsforge.Runs

open PyText UrlParse SafeHttp Tables Runs

namespace Feeds

/-! ### What has happened -/

/-- A conditional request: the URL it started at, the URL of the response, and the
validators in the headers of the response. -/
structure Exchange where
  started : Text
  ended : Text
  etag : Option Text
  lastModified : Option Text
  deriving DecidableEq

/-- The conditional request of a run of `fetch_feed` with the row `feed`, if it gets a
response. -/
def exchange (s : FetchSettings) (w : World) (feed : Feed) : Option Exchange :=
  match Robots.isAllowed s.toSettings w.robotsNet w.cachedRobots feed.url with
  | .ok (true, _) =>
    match tryAcquire s.hosts.unicode w.acquired feed.url with
    | .ok true =>
      match (request s.hosts s.is w.net (fetchOptions s feed.etag feed.lastModified) "GET".toList
        feed.url none).2 with
      | .ok resp =>
        some ⟨feed.url, resp.url, headerGet "etag".toList resp.headers,
          headerGet "last-modified".toList resp.headers⟩
      | .error _ => none
    | _ => none
  | _ => none

/-- What a step means for the number of errors. -/
inductive CrawlEvent
  | failed
  | succeeded
  | reset
  | other
  deriving DecidableEq, Repr

/-- The failed fetches since the latest success or reset, the latest event first. -/
def failures : List CrawlEvent → ℕ
  | [] => 0
  | .failed :: rest => failures rest + 1
  | .succeeded :: _ | .reset :: _ => 0
  | .other :: rest => failures rest

/-- What the end of a run of `fetch_feed` means. -/
def eventOf : Except TaskError Report → CrawlEvent
  | .error _ | .ok .gone | .ok .rateLimited | .ok (.status .robotsBlocked) => .other
  | .ok (.fetched _) | .ok (.status .ok) | .ok (.status .notModified) => .succeeded
  | .ok (.status _) => .failed

/-! ### Operations -/

/-- An operation on the feed; `others` are the rows of the other feeds then. -/
inductive Op
  | fetch (w : World) (others : List Feed)
  | tick (now : Time)
  | refresh (now : Time)
  | update (attrs : FeedAttrs) (now : Time)
  | delete
  | restore (attrs : FeedAttrs) (now : Time)

/-- The row, the requests that were answered, and what counts for the errors, the
latest first. -/
structure History where
  row : Feed
  exchanges : List Exchange
  events : List CrawlEvent

/-- The table with the row among others. -/
def tableWith (row : Feed) (others : List Feed) : List Feed :=
  row :: others.filter fun r => r.id ≠ row.id

/-- The row after a run of `fetch_feed`, and the end of the run. -/
def fetchRow (s : FetchSettings) (w : World) (others : List Feed) (row : Feed) :
    Feed × CrawlEvent :=
  let run := fetchFeed s w row.id (tableWith row others)
  ((run.rows.find? fun r => r.id = row.id).getD row, eventOf run.outcome)

/-- `fetch_feed` loads the row. -/
def Feed.isLive (f : Feed) : Bool := !f.isDeleted && f.isActive

/-- One operation.  Staff find the feed unless it is deleted, and add the URL of a
deleted one again. -/
def advance (s : FetchSettings) : Op → History → Option History
  | .fetch w others, h =>
    let r := fetchRow s w others h.row
    let answered := if h.row.isLive then (exchange s w h.row).toList else []
    some ⟨r.1, answered ++ h.exchanges, r.2 :: h.events⟩
  | .tick now, h => some { h with row := tick now h.row }
  | .refresh now, h =>
    if h.row.isDeleted then none
    else some { h with row := (refreshed now h.row).1.write (refreshed now h.row).2 h.row }
  | .update attrs now, h =>
    if h.row.isDeleted then none
    else
      some ⟨updated attrs now h.row, h.exchanges,
        (if attrs.changesUrl h.row then .reset else .other) :: h.events⟩
  | .delete, h =>
    if h.row.isDeleted then none
    else some { h with row := (destroyed h.row).1.write (destroyed h.row).2 h.row }
  | .restore attrs now, h =>
    if h.row.isDeleted ∧ attrs.url = some h.row.url then
      some ⟨restored attrs now h.row, h.exchanges, .reset :: h.events⟩
    else none

/-! ### A fetch of the row -/

variable {s : FetchSettings} {w : World} {others : List Feed} {row row' : Feed}
  {event : CrawlEvent}

theorem loadFeed_tableWith : loadFeed row.id (tableWith row others) =
    if row.isLive then some row else none := by
  have hrest : (others.filter fun r => r.id ≠ row.id).find? (fun r => r.id = row.id &&
      !r.isDeleted && r.isActive) = none := by
    rw [List.find?_eq_none]
    intro r hr
    have hne : r.id ≠ row.id := by simpa using (List.mem_filter.mp hr).2
    simp [hne]
  rw [loadFeed, tableWith, List.find?_cons, hrest, Feed.isLive]
  simp only [decide_true, Bool.true_and]
  cases (!row.isDeleted && row.isActive) with
  | false => rfl
  | true => rfl

/-- Some of the columns of the ending are written: all but the URL, perhaps. -/
structure Saves (ending : Ending) (fields : List Column) : Prop where
  url : .url ∈ fields → .url ∈ ending.fields
  rest : ∀ c, c ≠ .url → (c ∈ fields ↔ c ∈ ending.fields)

theorem saves_savedFields (ending : Ending) (rows : List Feed) :
    Saves ending (savedFields ending.copy ending.fields rows) := by
  refine ⟨fun h => ?_, fun c hc => mem_savedFields hc⟩
  rw [savedFields] at h
  split at h
  · exact absurd h (url_notMem_stayFields _)
  · exact h

/-- But for the URL, just the columns of the ending are written. -/
theorem Saves.mem {ending : Ending} {fields : List Column} {c : Column} (h : Saves ending fields)
    (hc : c ≠ .url) (hmem : c ∈ ending.fields) : c ∈ fields :=
  (h.rest c hc).mpr hmem

theorem Saves.notMem {ending : Ending} {fields : List Column} {c : Column}
    (h : Saves ending fields) (hc : c ≠ .url) (hmem : c ∉ ending.fields) : c ∉ fields :=
  mt (h.rest c hc).mp hmem

/-- The URL is only written when the feed moves. -/
theorem Saves.moved {ending : Ending} {fields rest : List Column} {moved : Option Text}
    (h : Saves ending fields) (hfields : ending.fields = movedFields moved ++ rest)
    (hrest : .url ∉ rest) (hurl : .url ∈ fields) : moved.isSome = true := by
  have hmem := h.url hurl
  rw [hfields, List.mem_append, movedFields] at hmem
  cases hsome : moved.isSome with
  | true => rfl
  | false => simp [hsome, hrest] at hmem

/-- **A fetch of the row**: it leaves the row alone, or saves one of the endings into
it. -/
theorem fetchRow_cases (s : FetchSettings) (w : World) (others : List Feed) (row : Feed) :
    fetchRow s w others row = (row, .other) ∨
      ∃ ending fields, row.isLive = true ∧ Ends s w (tableWith row others) row ending ∧
        Saves ending fields ∧
        fetchRow s w others row =
          (ending.copy.write fields row, eventOf (.ok ending.report)) := by
  have hown : (tableWith row others).find? (fun r => r.id = row.id) = some row := by
    rw [tableWith, List.find?_cons]
    simp
  rw [fetchRow, fetchFeed, loadFeed_tableWith]
  by_cases hlive : row.isLive = true
  · rw [if_pos hlive]
    dsimp only
    rw [fetchLoaded]
    cases hc : crawl s w (tableWith row others) row with
    | mk queued outcome =>
      cases outcome with
      | error e =>
        refine .inl ?_
        dsimp only
        rw [hown]
        rfl
      | ok ending =>
        have hends := crawl_ends hc
        have hid : ending.copy.id = row.id := hends.sound.1
        have hrow : ∃ r ∈ tableWith row others, r.id = ending.copy.id :=
          ⟨row, List.mem_cons_self, hid.symm⟩
        cases hstorable : ending.copy.storable ending.fields with
        | false =>
          refine .inl ?_
          dsimp only
          rw [save_eq_dataError _ hstorable]
          dsimp only
          rw [hown]
          rfl
        | true =>
          refine .inr ⟨ending, savedFields ending.copy ending.fields (tableWith row others), hlive,
            hends, saves_savedFields _ _, ?_⟩
          dsimp only
          rw [save_eq_ok hstorable hrow, hid]
          dsimp only
          -- the row is the first one of the table
          rw [updateWhere, tableWith, List.map_cons, List.find?_cons]
          simp
  · rw [if_neg hlive]
    refine .inl ?_
    dsimp only
    rw [hown]
    rfl

end Feeds
