/-
What staff and the scheduler do to a feed (`apps/feeds/serializers.py`,
`apps/feeds/views.py`, `tasks/scheduler.py`), and what a fetch does to it.

* `FeedAttrs`, `updated`, `restored` — `FeedSerializer.update`, and `create` for a
  deleted feed;
* `destroyed`, `refreshed` — `perform_destroy` and `refresh`;
* `tick` — the `UPDATE` of `enqueue_due_feeds`;
* `Ends` — the endings of a run of `fetch_feed`, each said once.

Main result: `crawl_ends`, a run that comes to its end has one of them.
-/
import Newsforge.FeedEntries

open PyText UrlParse SafeHttp Tables

namespace Feeds

/-! ### Staff requests -/

/-- Validated data of a request: the fields that it sets. -/
structure FeedAttrs where
  url : Option Text
  language : Option Language
  intervalSeconds : Option ℕ
  isActive : Option Bool
  deriving DecidableEq

/-- `setattr` for every field that is set. -/
def Feed.setAttrs (attrs : FeedAttrs) (f : Feed) : Feed :=
  { f with
    url := attrs.url.getD f.url
    language := attrs.language.getD f.language
    intervalSeconds := attrs.intervalSeconds.getD f.intervalSeconds
    isActive := attrs.isActive.getD f.isActive }

/-- `"url" in validated_data and validated_data["url"] != instance.url`. -/
def FeedAttrs.changesUrl (attrs : FeedAttrs) (f : Feed) : Bool :=
  match attrs.url with
  | some url => url ≠ f.url
  | none => false

/-- `FeedSerializer.update` up to the save. -/
def updated (attrs : FeedAttrs) (now : Time) (f : Feed) : Feed :=
  (if attrs.changesUrl f then f.resetCrawlState now else f).setAttrs attrs

/-- `FeedSerializer.create` for the URL of a deleted feed, up to the save. -/
def restored (attrs : FeedAttrs) (now : Time) (f : Feed) : Feed :=
  ({ f.setAttrs attrs with isDeleted := false, isActive := attrs.isActive.getD true } :
    Feed).resetCrawlState now

/-- `perform_destroy`: the copy, and the columns it saves. -/
def destroyed (f : Feed) : Feed × List Column :=
  ({ f with isDeleted := true, isActive := false }, [.isDeleted, .isActive])

/-- `refresh`: the copy, and the columns it saves. -/
def refreshed (now : Time) (f : Feed) : Feed × List Column :=
  ({ f with nextFetchAt := now, disabledUntil := none }, [.nextFetchAt, .disabledUntil])

/-- The `UPDATE` of `enqueue_due_feeds`, for one row. -/
def tick (now : Time) (f : Feed) : Feed :=
  if f.isDue now then { f with nextFetchAt := now + f.intervalSeconds * second } else f

/-! ### The endings of a fetch -/

variable {s : FetchSettings} {w : World} {feed : Feed} {checked stored : List Feed}
  {queued : List Message} {ending : Ending}

/-- The endings of a run of `fetch_feed` with the row `feed`. -/
inductive Ends (s : FetchSettings) (w : World) (checked : List Feed) (feed : Feed) : Ending → Prop
  | robotsBlocked : Ends s w checked feed (robotsBlocked w feed)
  | rateLimited : Ends s w checked feed (rateLimited s w feed)
  | failed (status : FeedStatus) : status.isFailure = true →
    Ends s w checked feed
      (recordFailure w { feed with lastFetchedAt := some w.fetchedAt } status)
  | notModified (result : FetchResult) : Permitted s w feed →
    fetch s w.net feed.url feed.etag feed.lastModified = .ok result →
    result.status = .notModified →
    Ends s w checked feed
      (notModified s.hosts checked { feed with lastFetchedAt := some w.fetchedAt } result)
  | fetched (result : FetchResult) (parsed : Parsed) (title : Text) : Permitted s w feed →
    fetch s w.net feed.url feed.etag feed.lastModified = .ok result → result.status = .ok →
    Ends s w checked feed
      (fetched s checked { feed with lastFetchedAt := some w.fetchedAt } result parsed title)

theorem queueFeed_ok {result : FetchResult} {parsed : Parsed}
    (h : queueFeed s w checked feed result parsed = (queued, .ok ending)) :
    ∃ title, ending = fetched s checked feed result parsed title := by
  rw [queueFeed] at h
  split at h
  · cases h
  · split at h
    · cases h
    · rename_i title _
      cases h
      exact ⟨title, rfl⟩

/-- What becomes of a result. -/
theorem conclude_ends {result : FetchResult} (hperm : Permitted s w feed)
    (hfetch : fetch s w.net feed.url feed.etag feed.lastModified = .ok result)
    (h : conclude s w checked { feed with lastFetchedAt := some w.fetchedAt } result =
      (queued, .ok ending)) : Ends s w checked feed ending := by
  by_cases h304 : result.status = .notModified
  · rw [conclude, if_pos h304] at h
    cases h
    exact .notModified result hperm hfetch h304
  by_cases hok : result.status = .ok
  · obtain ⟨⟨body, hbody⟩, -⟩ := fetch_ok feed hfetch hok
    by_cases hfeed : IsFeed (w.document result body)
    · rw [conclude_of_isFeed hok hbody hfeed] at h
      obtain ⟨title, rfl⟩ := queueFeed_ok h
      exact .fetched result _ title hperm hfetch hok
    · rw [conclude_of_not_isFeed hok hbody hfeed] at h
      cases h
      exact .failed _ rfl
  · rw [conclude_of_failure hok h304] at h
    cases h
    exact .failed _ (((fetch_status hfetch).resolve_left hok).resolve_left h304)

/-- **A run that comes to its end has one of the endings.** -/
theorem crawl_ends (h : crawl s w checked feed = (queued, .ok ending)) :
    Ends s w checked feed ending := by
  rw [crawl] at h
  split at h
  · cases h
  · cases h
    exact .robotsBlocked
  · rename_i policy hallowed
    split at h
    · cases h
    · cases h
      exact .rateLimited
    · rename_i hacquired
      cases hf : fetch s w.net feed.url feed.etag feed.lastModified with
      | error e =>
        rw [hf] at h
        cases h
      | ok result =>
        rw [hf] at h
        exact conclude_ends ⟨⟨policy, hallowed⟩, hacquired⟩ hf h

/-- What an ending names. -/
theorem Ends.sound (h : Ends s w checked feed ending) :
    ending.copy.id = feed.id ∧ .isActive ∉ ending.fields := by
  cases h with
  | robotsBlocked => exact ⟨rfl, by simp [Feeds.robotsBlocked]⟩
  | rateLimited => exact ⟨rfl, by simp [Feeds.rateLimited]⟩
  | failed status _ => exact ⟨rfl, by simp [recordFailure]⟩
  | notModified result _ _ _ => exact ⟨rfl, by simp [Feeds.notModified, notMem_movedFields]⟩
  | fetched result parsed title _ _ _ => exact ⟨rfl, by simp [Feeds.fetched, notMem_movedFields]⟩

end Feeds
