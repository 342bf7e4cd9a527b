/-
The crawl state of a feed over whole histories.

* `Effect`, `Ends.effect` — what each ending does to the errors and the pause;
* `Admissible` — intervals are positive, a jitter is one, the clock goes on;
* `Consistent` — the invariant: the errors on record are the failures since the latest
  success or reset, and only a feed with six of them is paused;
* `BackedOff` — how far a failed fetch puts the next one off.

Main result: `crawl_state_machine`.
-/
import Newsforge.FeedHistory

open SafeHttp Tables Runs

namespace Feeds

variable {s : FetchSettings} {w : World} {row row' row₀ : Feed} {checked others : List Feed}
  {ending : Ending} {fields : List Column} {event : CrawlEvent} {h h' : History}

/-! ### What a fetch does -/

/-- The errors, the pause and the next fetch after a run of `fetch_feed`, by what the
run counts as. -/
inductive Effect (w : World) (row : Feed) : CrawlEvent → Feed → Prop
  | other {row' : Feed} : row'.consecutiveErrors = row.consecutiveErrors →
    row'.disabledUntil = row.disabledUntil → Effect w row .other row'
  | succeeded {row' : Feed} : row'.consecutiveErrors = 0 → row'.disabledUntil = none →
    Effect w row .succeeded row'
  | failed {row' : Feed} : row'.consecutiveErrors = row.consecutiveErrors + 1 →
    (row'.disabledUntil = if shouldDisable (row.consecutiveErrors + 1) then
      some (disabledUntil w.pausedAt) else row.disabledUntil) →
    row'.nextFetchAt =
      nextAttemptAt row.intervalSeconds (row.consecutiveErrors + 1) w.failedAt w.jitter →
    Effect w row .failed row'

theorem eventOf_failure {status : FeedStatus} (h : status.isFailure = true) :
    eventOf (.ok (.status status)) = .failed := by
  cases status <;> first | rfl | cases h

/-- **The effect of each ending.** -/
theorem Ends.effect (h : Ends s w checked row ending) (hsaves : Saves ending fields) :
    Effect w row (eventOf (.ok ending.report)) (ending.copy.write fields row) := by
  cases h with
  | robotsBlocked =>
    exact .other (if_neg (hsaves.notMem (by decide) (by simp [Feeds.robotsBlocked])))
      (if_neg (hsaves.notMem (by decide) (by simp [Feeds.robotsBlocked])))
  | rateLimited =>
    exact .other (if_neg (hsaves.notMem (by decide) (by simp [Feeds.rateLimited])))
      (if_neg (hsaves.notMem (by decide) (by simp [Feeds.rateLimited])))
  | failed status hfailure =>
    rw [show eventOf (.ok (recordFailure w { row with lastFetchedAt := some w.fetchedAt }
      status).report) = .failed from eventOf_failure hfailure]
    exact .failed (if_pos (hsaves.mem (by decide) (by simp [recordFailure])))
      (if_pos (hsaves.mem (by decide) (by simp [recordFailure])))
      (if_pos (hsaves.mem (by decide) (by simp [recordFailure])))
  | notModified result _ _ _ =>
    exact .succeeded (if_pos (hsaves.mem (by decide) (by simp [Feeds.notModified])))
      (if_pos (hsaves.mem (by decide) (by simp [Feeds.notModified])))
  | fetched result parsed _ _ _ =>
    exact .succeeded (if_pos (hsaves.mem (by decide) (by simp [Feeds.fetched])))
      (if_pos (hsaves.mem (by decide) (by simp [Feeds.fetched])))

/-- The effect of a run of `fetch_feed` on the row. -/
theorem fetchRow_effect (s : FetchSettings) (w : World) (others : List Feed) (row : Feed) :
    Effect w row (fetchRow s w others row).2 (fetchRow s w others row).1 ∧
      (fetchRow s w others row).1.intervalSeconds = row.intervalSeconds := by
  rcases fetchRow_cases s w others row with hr | ⟨ending, fields, -, hends, hsaves, hr⟩
  · rw [hr]
    exact ⟨.other rfl rfl, rfl⟩
  · rw [hr]
    exact ⟨hends.effect hsaves, rfl⟩

/-! ### The invariant -/

/-- Intervals that staff set are positive. -/
def FeedAttrs.PositiveInterval (attrs : FeedAttrs) : Prop :=
  ∀ i, attrs.intervalSeconds = some i → 0 < i

/-- What is said of the operations. -/
def Admissible (_ : History) : Op → Prop
  | .fetch w _ => IsJitter w.jitter ∧ w.failedAt ≤ w.pausedAt
  | .update attrs _ | .restore attrs _ => attrs.PositiveInterval
  | .tick _ | .refresh _ | .delete => True

/-- The invariant of the crawl state. -/
structure Consistent (h : History) : Prop where
  errors : h.row.consecutiveErrors = failures h.events
  pause : h.row.disabledUntil ≠ none → maxErrorExponent ≤ h.row.consecutiveErrors
  interval : 0 < h.row.intervalSeconds

/-- A feed that was just added. -/
structure Feed.Added (row : Feed) : Prop where
  consecutiveErrors : row.consecutiveErrors = 0
  disabledUntil : row.disabledUntil = none
  intervalSeconds : 0 < row.intervalSeconds

theorem consistent_added (hadded : row₀.Added) : Consistent ⟨row₀, [], []⟩ :=
  ⟨hadded.consecutiveErrors, fun hp => absurd hadded.disabledUntil hp, hadded.intervalSeconds⟩

theorem Consistent.fetch (hc : Consistent h) (w : World) (others : List Feed)
    (exchanges : List Exchange) :
    Consistent ⟨(fetchRow s w others h.row).1, exchanges,
      (fetchRow s w others h.row).2 :: h.events⟩ := by
  obtain ⟨heffect, hinterval⟩ := fetchRow_effect s w others h.row
  have hpositive : 0 < (fetchRow s w others h.row).1.intervalSeconds := by
    rw [hinterval]
    exact hc.interval
  generalize (fetchRow s w others h.row).1 = row' at heffect hpositive ⊢
  generalize (fetchRow s w others h.row).2 = event at heffect ⊢
  cases heffect with
  | other herrors hpause =>
    refine ⟨herrors.trans hc.errors, fun hp => ?_, hpositive⟩
    show _ ≤ row'.consecutiveErrors
    rw [herrors]
    exact hc.pause (hpause ▸ hp)
  | succeeded herrors hpause => exact ⟨herrors, fun hp => absurd hpause hp, hpositive⟩
  | failed herrors hpause hnext =>
    refine ⟨?_, fun hp => ?_, hpositive⟩
    · rw [herrors, hc.errors]
      rfl
    · -- it is paused now, or was before
      show _ ≤ row'.consecutiveErrors
      rw [herrors]
      by_cases hd : shouldDisable (h.row.consecutiveErrors + 1) = true
      · exact of_decide_eq_true hd
      · rw [hpause, if_neg hd] at hp
        exact Nat.le_succ_of_le (hc.pause hp)

theorem Feed.setAttrs_intervalSeconds {attrs : FeedAttrs} (hrow : 0 < row.intervalSeconds)
    (hattrs : attrs.PositiveInterval) : 0 < (row.setAttrs attrs).intervalSeconds := by
  rw [Feed.setAttrs]
  cases hi : attrs.intervalSeconds with
  | none => exact hrow
  | some i => exact hattrs i hi

/-- **The step lemma**: every operation keeps the crawl state consistent. -/
theorem Consistent.advance (hc : Consistent h) {op : Op} (hadm : Admissible h op)
    (hnext : advance s op h = some h') : Consistent h' := by
  cases op with
  | fetch w others =>
    cases hnext
    exact hc.fetch w others _
  | tick now =>
    cases hnext
    show Consistent ⟨Feeds.tick now h.row, h.exchanges, h.events⟩
    rw [Feeds.tick]
    split
    · exact ⟨hc.errors, hc.pause, hc.interval⟩
    · exact hc
  | refresh now =>
    rw [Feeds.advance] at hnext
    split at hnext
    · cases hnext
    · -- an explicit refresh only ends a pause
      cases hnext
      exact ⟨hc.errors, fun hp => absurd rfl hp, hc.interval⟩
  | update attrs now =>
    rw [Feeds.advance] at hnext
    split at hnext
    · cases hnext
    · cases hnext
      rw [updated]
      by_cases hchanges : attrs.changesUrl h.row = true
      · rw [if_pos hchanges, if_pos hchanges]
        exact ⟨rfl, fun hp => absurd rfl hp, Feed.setAttrs_intervalSeconds hc.interval hadm⟩
      · rw [if_neg hchanges, if_neg hchanges]
        exact ⟨hc.errors, hc.pause, Feed.setAttrs_intervalSeconds hc.interval hadm⟩
  | delete =>
    rw [Feeds.advance] at hnext
    split at hnext
    · cases hnext
    · cases hnext
      exact ⟨hc.errors, hc.pause, hc.interval⟩
  | restore attrs now =>
    rw [Feeds.advance] at hnext
    split at hnext
    · cases hnext
      exact ⟨rfl, fun hp => absurd rfl hp, Feed.setAttrs_intervalSeconds hc.interval hadm⟩
    · cases hnext

/-! ### The back-off -/

/-- The row after a failed fetch: put off, but not for longer than a pause or one
interval. -/
structure BackedOff (w : World) (intervalSeconds : ℕ) (row : Feed) : Prop where
  later : w.failedAt < row.nextFetchAt
  bounded : row.nextFetchAt ≤ w.failedAt + longestWait intervalSeconds
  pause : ∀ d, row.disabledUntil = some d → d ≤ disabledUntil w.pausedAt
  due : row.isActive = true → row.isDeleted = false →
    row.isDue (w.pausedAt + longestWait intervalSeconds) = true

theorem disabledUntil_le (now : Time) (intervalSeconds : ℕ) :
    disabledUntil now ≤ now + longestWait intervalSeconds := by
  have hwait : (disableHours * 3600 : ℕ) * second ≤ longestWait intervalSeconds :=
    mul_le_mul_of_nonneg_right (Int.ofNat_le.mpr (le_max_right _ _)) (by decide)
  exact Int.add_le_add_left hwait now

/-- **A failed fetch backs off.** -/
theorem Effect.backedOff (heffect : Effect w row .failed row') (hpositive : 0 < row.intervalSeconds)
    (hpaused : row.disabledUntil ≠ none → maxErrorExponent ≤ row.consecutiveErrors)
    (hjitter : IsJitter w.jitter) (hclock : w.failedAt ≤ w.pausedAt) :
    BackedOff w row.intervalSeconds row' := by
  cases heffect with
  | failed herrors hpause hnext =>
    obtain ⟨hlow, hhigh⟩ := nextAttemptAt_bounds row.intervalSeconds
      w.failedAt (Nat.succ_pos row.consecutiveErrors) hjitter
    rw [← hnext] at hlow hhigh
    have hlater : w.failedAt < row'.nextFetchAt := by
      have hinterval : (0 : Int) < row.intervalSeconds * second :=
        mul_pos (Int.natCast_pos.mpr hpositive) (by decide)
      exact lt_of_lt_of_le (lt_add_of_pos_right _ hinterval) hlow
    -- before the sixth error there is no pause to keep
    have hpause' : ∀ d, row'.disabledUntil = some d → d ≤ disabledUntil w.pausedAt := by
      intro d hd
      rw [hpause] at hd
      split at hd
      · exact le_of_eq (Option.some_inj.mp hd).symm
      · rename_i hfew
        have hmany := hpaused (by rw [hd]; exact Option.some_ne_none d)
        exact absurd (decide_eq_true (Nat.le_succ_of_le hmany)) hfew
    refine ⟨hlater, hhigh, hpause', fun hactive hdeleted => ?_⟩
    have hnextDue : row'.nextFetchAt ≤ w.pausedAt + longestWait row.intervalSeconds :=
      le_trans hhigh (Int.add_le_add_right hclock _)
    have hpauseDue : row'.disabledUntil.all
        (· ≤ w.pausedAt + longestWait row.intervalSeconds) = true := by
      cases hd : row'.disabledUntil with
      | none => rfl
      | some d => exact decide_eq_true (le_trans (hpause' d hd) (disabledUntil_le _ _))
    rw [Feed.isDue, hactive, hdeleted, hpauseDue]
    simp [hnextDue]

/-- **The crawl state machine.**  In every history of a feed, with positive intervals
and any jitter: the errors on record are the failed fetches since the latest
success, change of URL or restoration; a feed is paused only after six of them; and
a fetch that fails puts the next one off, but no further than a pause or one interval. -/
theorem crawl_state_machine (hadded : row₀.Added)
    (hreach : Reach (advance s) Admissible ⟨row₀, [], []⟩ h) :
    h.row.consecutiveErrors = failures h.events ∧
      (h.row.disabledUntil ≠ none → 6 ≤ h.row.consecutiveErrors) ∧
      ∀ w others h', Admissible h (.fetch w others) → advance s (.fetch w others) h = some h' →
        h'.events.head? = some .failed → BackedOff w h.row.intervalSeconds h'.row := by
  have hc := hreach.invariant (consistent_added hadded) fun _ _ _ hc hadm hnext =>
    hc.advance hadm hnext
  refine ⟨hc.errors, hc.pause, fun w others h' hadm hnext hfailed => ?_⟩
  cases hnext
  have heffect := (fetchRow_effect s w others h.row).1
  rw [List.head?_cons, Option.some_inj] at hfailed
  rw [hfailed] at heffect
  exact heffect.backedOff hc.interval hc.pause hadm.1 hadm.2

/-- The server is broken. -/
def brokenWorld : World := worldWith (answering fun _ => ⟨500, []⟩) ⟨false, [], none, none⟩ 7

theorem admissible_brokenWorld (h : History) : Admissible h (.fetch brokenWorld []) :=
  ⟨⟨by decide +kernel, by decide +kernel⟩, le_refl _⟩

/-- After six failures the feed is paused, and the next failure puts it off again. -/
theorem crawl_state_machine_paused :
    ∃ h, Reach (advance sampleSettings) Admissible ⟨sampleFeed, [], []⟩ h ∧
      h.row.disabledUntil ≠ none ∧ 6 ≤ failures h.events ∧
      BackedOff brokenWorld h.row.intervalSeconds
        (fetchRow sampleSettings brokenWorld [] h.row).1 := by
  have hrun : ((exec (advance sampleSettings) (List.replicate 6 (.fetch brokenWorld []))
      ⟨sampleFeed, [], []⟩).map fun h =>
        (h.row.disabledUntil.isSome, (fetchRow sampleSettings brokenWorld [] h.row).2)) =
      some (true, .failed) := by
    decide +kernel
  have hok : Along (advance sampleSettings) Admissible (List.replicate 6 (.fetch brokenWorld []))
      ⟨sampleFeed, [], []⟩ :=
    along_of_forall (fun m hm h => (List.eq_of_mem_replicate hm) ▸ admissible_brokenWorld h) _
  obtain ⟨h, hreach, hend⟩ := Reach.exists_of_exec _ hrun hok
  obtain ⟨hpaused, hevent⟩ := Prod.mk.inj hend
  obtain ⟨herrors, hpause, hbackoff⟩ := crawl_state_machine ⟨rfl, rfl, by decide⟩ hreach
  have hne : h.row.disabledUntil ≠ none := by
    rintro hnone
    rw [hnone] at hpaused
    cases hpaused
  refine ⟨h, hreach, hne, herrors ▸ hpause hne, ?_⟩
  exact hbackoff brokenWorld [] _ (admissible_brokenWorld h) rfl (congrArg some hevent)

end Feeds
