/-
Feeds and their crawl state (`apps/feeds/models.py`, `apps/feeds/backoff.py`).

* `Feed` — a row of `feeds_feed`;
* `Column`, `Feed.write`, `saveFields`, `saveFull` — what `save` writes, with and
  without `update_fields`;
* `Feed.resetCrawlState` — `reset_crawl_state`;
* `nextAttemptAt`, `shouldDisable`, `disabledUntil` — the back-off.

The database clock counts microseconds.  A jitter is a rational number, and
`roundHalfEven` is the rounding of `timedelta`.

Main result: `nextAttemptAt_bounds`, the next attempt is later, and no later than
a pause or one interval.
-/
import Mathlib.Algebra.Order.Floor.Ring
import Mathlib.Data.Rat.Floor
import Mathlib.Tactic.Linarith
import Newsforge.PyText
import Newsforge.Tables

open Tables

namespace Feeds

/-! ### Rows -/

/-- `Language`. -/
inductive Language
  | russian
  | english
  | simple
  deriving DecidableEq, Repr

/-- `FeedStatus`. -/
inductive FeedStatus
  | ok
  | notModified
  | httpError
  | networkError
  | parseError
  | robotsBlocked
  | ssrfBlocked
  | tooLarge
  deriving DecidableEq, Repr

/-- The statuses of a failed fetch. -/
def FeedStatus.isFailure : FeedStatus → Bool
  | .httpError | .networkError | .parseError | .ssrfBlocked | .tooLarge => true
  | .ok | .notModified | .robotsBlocked => false

/-- `MAX_URL_CHARS`. -/
def maxUrlChars : ℕ := 2048

/-- A row of `feeds_feed`; an empty `last_status` is `none`. -/
structure Feed where
  id : ℕ
  url : Text
  siteUrl : Text
  title : Text
  language : Language
  etag : Option Text
  lastModified : Option Text
  intervalSeconds : ℕ
  lastFetchedAt : Option Time
  nextFetchAt : Time
  lastStatus : Option FeedStatus
  consecutiveErrors : ℕ
  disabledUntil : Option Time
  isActive : Bool
  isDeleted : Bool
  deriving DecidableEq, Repr

/-- The columns that a partial save can name. -/
inductive Column
  | url
  | siteUrl
  | title
  | etag
  | lastModified
  | lastFetchedAt
  | nextFetchAt
  | lastStatus
  | consecutiveErrors
  | disabledUntil
  | isActive
  | isDeleted
  deriving DecidableEq, Repr

namespace Feed

/-- The named columns of `copy`, written into a stored row. -/
def write (copy : Feed) (fields : List Column) (row : Feed) : Feed :=
  { row with
    url := if .url ∈ fields then copy.url else row.url
    siteUrl := if .siteUrl ∈ fields then copy.siteUrl else row.siteUrl
    title := if .title ∈ fields then copy.title else row.title
    etag := if .etag ∈ fields then copy.etag else row.etag
    lastModified := if .lastModified ∈ fields then copy.lastModified else row.lastModified
    lastFetchedAt := if .lastFetchedAt ∈ fields then copy.lastFetchedAt else row.lastFetchedAt
    nextFetchAt := if .nextFetchAt ∈ fields then copy.nextFetchAt else row.nextFetchAt
    lastStatus := if .lastStatus ∈ fields then copy.lastStatus else row.lastStatus
    consecutiveErrors :=
      if .consecutiveErrors ∈ fields then copy.consecutiveErrors else row.consecutiveErrors
    disabledUntil := if .disabledUntil ∈ fields then copy.disabledUntil else row.disabledUntil
    isActive := if .isActive ∈ fields then copy.isActive else row.isActive
    isDeleted := if .isDeleted ∈ fields then copy.isDeleted else row.isDeleted }

@[simp] theorem write_id (copy row : Feed) (fields : List Column) :
    (copy.write fields row).id = row.id := rfl

@[simp] theorem write_language (copy row : Feed) (fields : List Column) :
    (copy.write fields row).language = row.language := rfl

@[simp] theorem write_intervalSeconds (copy row : Feed) (fields : List Column) :
    (copy.write fields row).intervalSeconds = row.intervalSeconds := rfl

/-- `reset_crawl_state`. -/
def resetCrawlState (now : Time) (f : Feed) : Feed :=
  { f with
    etag := none
    lastModified := none
    lastStatus := none
    consecutiveErrors := 0
    disabledUntil := none
    nextFetchAt := now }

/-- The scheduler may queue the feed: the conditions of `_DUE_SQL`. -/
def isDue (now : Time) (f : Feed) : Bool :=
  f.nextFetchAt ≤ now && f.isActive && !f.isDeleted && f.disabledUntil.all (· ≤ now)

end Feed

/-! ### Saving -/

/-- What a save can raise: `DataError` for a text with a NUL, which PostgreSQL does not
store, `IntegrityError` for a URL that another feed has, and `DatabaseError` or
`DoesNotExist` for a row that is gone. -/
inductive SaveError
  | dataError
  | integrityError
  | noRow
  deriving DecidableEq, Repr

/-- The text in a column, empty where it holds none. -/
def Feed.textOf (copy : Feed) : Column → Text
  | .url => copy.url
  | .siteUrl => copy.siteUrl
  | .title => copy.title
  | .etag => copy.etag.getD []
  | .lastModified => copy.lastModified.getD []
  | .lastFetchedAt | .nextFetchAt | .lastStatus | .consecutiveErrors | .disabledUntil | .isActive
  | .isDeleted => []

/-- The named columns can be stored. -/
def Feed.storable (copy : Feed) (fields : List Column) : Bool :=
  fields.all fun c => !(copy.textOf c).contains '\x00'

/-- Another feed has the URL. -/
def taken (id : ℕ) (url : Text) (rows : List Feed) : Bool :=
  rows.any fun r => r.id ≠ id && r.url = url

/-- `feed.save(update_fields=fields)`. -/
def saveFields (copy : Feed) (fields : List Column) (rows : List Feed) :
    Except SaveError (List Feed) :=
  -- the driver refuses a NUL before anything is sent
  if !copy.storable fields then .error .dataError
  else if !rows.any fun r => r.id == copy.id then .error .noRow
  else if .url ∈ fields ∧ taken copy.id copy.url rows then .error .integrityError
  else .ok (updateWhere (fun r => r.id == copy.id) (copy.write fields) rows)

/-- `feed.save()`; its texts are those of a row that was loaded and of a request, whose
fields refuse a NUL. -/
def saveFull (copy : Feed) (rows : List Feed) : Except SaveError (List Feed) :=
  if taken copy.id copy.url rows then .error .integrityError else .ok (put Feed.id copy rows)

/-! ### Back-off -/

/-- A second, on the database clock. -/
def second : Time := 1000000

/-- `MAX_ERROR_EXPONENT`. -/
def maxErrorExponent : ℕ := 6

/-- `DISABLE_HOURS`. -/
def disableHours : ℕ := 24

/-- `MAX_DELAY_SECONDS`. -/
def maxDelaySeconds : ℕ := disableHours * 3600

/-- `round`, to the even neighbour of a number half way. -/
def roundHalfEven (x : ℚ) : Int :=
  if x - ⌊x⌋ < 1 / 2 then ⌊x⌋
  else if 1 / 2 < x - ⌊x⌋ then ⌊x⌋ + 1
  else if ⌊x⌋ % 2 = 0 then ⌊x⌋
  else ⌊x⌋ + 1

/-- `timedelta(seconds=…)`. -/
def timedelta (seconds : ℚ) : Time := roundHalfEven (seconds * 1000000)

/-- `next_attempt_at`, with what `random.uniform(0.5, 1.5)` returned. -/
def nextAttemptAt (baseSeconds consecutiveErrors : ℕ) (now : Time) (jitter : ℚ) : Time :=
  let exponent := min consecutiveErrors maxErrorExponent
  now + timedelta (min ((baseSeconds * 2 ^ exponent : ℕ) * jitter)
    (max baseSeconds maxDelaySeconds : ℕ))

/-- `should_disable`. -/
def shouldDisable (consecutiveErrors : ℕ) : Bool := maxErrorExponent ≤ consecutiveErrors

/-- `disabled_until`. -/
def disabledUntil (now : Time) : Time := now + disableHours * 3600 * second

/-- A value of `random.uniform(0.5, 1.5)`. -/
def IsJitter (jitter : ℚ) : Prop := 1 / 2 ≤ jitter ∧ jitter ≤ 3 / 2

/-- Rounding keeps to the integers on both sides. -/
theorem le_roundHalfEven {n : Int} {x : ℚ} (h : (n : ℚ) ≤ x) : n ≤ roundHalfEven x := by
  have hfloor : n ≤ ⌊x⌋ := Int.le_floor.mpr h
  rw [roundHalfEven]
  split
  · exact hfloor
  · split
    · omega
    · split <;> omega

theorem roundHalfEven_le {n : Int} {x : ℚ} (h : x ≤ n) : roundHalfEven x ≤ n := by
  by_cases hx : x = n
  · -- an integer is not moved
    have hfloor : ⌊x⌋ = n := by rw [hx, Int.floor_intCast]
    rw [roundHalfEven, hfloor, hx, sub_self, if_pos (by norm_num)]
  · have hlt : x < n := lt_of_le_of_ne h hx
    have hfloor : ⌊x⌋ < n := Int.floor_lt.mpr hlt
    rw [roundHalfEven]
    split
    · omega
    · split
      · omega
      · split <;> omega

/-- The longest wait: a pause, or one interval for feeds polled less often. -/
def longestWait (intervalSeconds : ℕ) : Time := (max intervalSeconds maxDelaySeconds : ℕ) * second

/-- **The next attempt**: at least one interval later with an error on record, and no
later than a pause or one interval. -/
theorem nextAttemptAt_bounds (baseSeconds : ℕ) {consecutiveErrors : ℕ} (now : Time) {jitter : ℚ}
    (herr : 0 < consecutiveErrors) (hjitter : IsJitter jitter) :
    now + baseSeconds * second ≤ nextAttemptAt baseSeconds consecutiveErrors now jitter ∧
      nextAttemptAt baseSeconds consecutiveErrors now jitter ≤ now + longestWait baseSeconds := by
  rw [nextAttemptAt]
  set exponent := min consecutiveErrors maxErrorExponent with hexponent
  set longest : ℕ := max baseSeconds maxDelaySeconds with hlongest
  have hpos : 1 ≤ exponent := le_min herr (by decide)
  -- the doubled interval outweighs the smallest jitter
  have hdouble : baseSeconds * 2 ≤ baseSeconds * 2 ^ exponent :=
    Nat.mul_le_mul_left _ (by
      calc 2 = 2 ^ 1 := rfl
        _ ≤ 2 ^ exponent := Nat.pow_le_pow_right (by decide) hpos)
  have hbase : (baseSeconds : ℚ) ≤ (baseSeconds * 2 ^ exponent : ℕ) * jitter := by
    calc (baseSeconds : ℚ) = (baseSeconds * 2 : ℕ) * (1 / 2) := by push_cast; ring
      _ ≤ (baseSeconds * 2 ^ exponent : ℕ) * (1 / 2) :=
        mul_le_mul_of_nonneg_right (by exact_mod_cast hdouble) (by norm_num)
      _ ≤ (baseSeconds * 2 ^ exponent : ℕ) * jitter :=
        mul_le_mul_of_nonneg_left hjitter.1 (Nat.cast_nonneg _)
  have hle : (baseSeconds : ℚ) ≤ (longest : ℚ) := by exact_mod_cast le_max_left _ _
  constructor
  · have hround := le_roundHalfEven (n := baseSeconds * 1000000)
      (x := min ((baseSeconds * 2 ^ exponent : ℕ) * jitter) (longest : ℕ) * 1000000) (by
        push_cast
        exact mul_le_mul_of_nonneg_right (le_min (by exact_mod_cast hbase) hle) (by norm_num))
    exact Int.add_le_add_left hround now
  · have hround := roundHalfEven_le (n := longest * 1000000)
      (x := min ((baseSeconds * 2 ^ exponent : ℕ) * jitter) (longest : ℕ) * 1000000) (by
        push_cast
        exact mul_le_mul_of_nonneg_right (min_le_right _ _) (by norm_num))
    exact Int.add_le_add_left hround now

end Feeds
