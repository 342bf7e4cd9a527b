/-
Feeds that move to one URL at the same time (`_follow_permanent_redirect`, `_save`).

Any number of `fetch_feed` tasks, each with a feed of its own, were redirected for good
to spellings of one URL.  Every access to the table is one atomic step: the look for
another feed with the URL, the save in its savepoint, and, if the unique index refused
it, the second look at the own row and the save of the other columns.

* `MoveTask`, `moveStep` — a task from the first look to its end;
* `reach_endAlone` — a task alone runs as `save` does;
* `Redirected`, `Plan` — what the fetch of such a task has brought, and what it saves;
* `Wrote`, `moveStep_onTrack` — what a step does to the table, said once;
* `Standing`, `OnTrack` — what is known of a task and its row, and kept by everybody's steps.

Main result: `concurrent_moves`.
-/
import Newsforge.FeedEntries
import Newsforge.Precedence
import Newsforge.Runs

open PyText SafeHttp Tables Runs

namespace Feeds

/-! ### Tasks -/

/-- What a task does next. -/
inductive MovePhase
  | check
  | save (ending : Ending)
  /-- the unique index refused the save, and the savepoint is rolled back -/
  | reread (ending : Ending)
  | saveAgain (ending : Ending) (url : Text)
  | done (ending : Ending)
  | failed (e : TaskError)

/-- A task: the row it loaded, and what the fetch brought. -/
structure MoveTask where
  world : World
  loaded : Feed
  result : FetchResult
  phase : MovePhase

namespace MoveTask

/-- The row in memory. -/
def feed (t : MoveTask) : Feed := { t.loaded with lastFetchedAt := some t.world.fetchedAt }

def goto (t : MoveTask) (phase : MovePhase) : MoveTask := { t with phase := phase }

/-- What the task is about to save when it has found the table `checked`. -/
def outcome (s : FetchSettings) (t : MoveTask) (checked : List Feed) : Except TaskError Ending :=
  (conclude s t.world checked t.feed t.result).2

end MoveTask

/-- The next access of a task to the table. -/
def moveStep (s : FetchSettings) (t : MoveTask) (rows : List Feed) :
    Option (MoveTask × List Feed) :=
  match t.phase with
  | .check =>
    match t.outcome s rows with
    | .ok ending => some (t.goto (.save ending), rows)
    | .error e => some (t.goto (.failed e), rows)
  | .save ending =>
    match saveFields ending.copy ending.fields rows with
    | .ok rows => some (t.goto (.done ending), rows)
    | .error e =>
      if e = .integrityError ∧ .url ∈ ending.fields then some (t.goto (.reread ending), rows)
      else some (t.goto (.failed (.save e)), rows)
  | .reread ending =>
    match rows.find? fun r => r.id = ending.copy.id with
    | none => some (t.goto (.failed (.save .noRow)), rows)
    | some row => some (t.goto (.saveAgain ending row.url), rows)
  | .saveAgain ending url =>
    match saveFields { ending.copy with url := url } (stayFields ending.fields) rows with
    | .ok rows => some (t.goto (.done ending), rows)
    | .error e => some (t.goto (.failed (.save e)), rows)
  | .done _ | .failed _ => none

abbrev Moves (ι : Type*) := Config ι (List Feed) MoveTask

/-- The interleavings of the tasks; nobody else writes the table. -/
def moveNext {ι : Type*} [DecidableEq ι] (s : FetchSettings) :
    Move ι Unit Empty → Moves ι → Option (Moves ι) :=
  Config.next (fun _ => moveStep s) fun e _ => nomatch e

/-! ### The steps, one by one -/

section Steps

variable {s : FetchSettings} {t : MoveTask} {rows saved : List Feed} {ending : Ending}
  {url : Text} {row : Feed}

theorem moveStep_check (hphase : t.phase = .check) (hend : t.outcome s rows = .ok ending) :
    moveStep s t rows = some (t.goto (.save ending), rows) := by
  simp only [moveStep, hphase, hend]

theorem moveStep_save (hphase : t.phase = .save ending)
    (hsaved : saveFields ending.copy ending.fields rows = .ok saved) :
    moveStep s t rows = some (t.goto (.done ending), saved) := by
  simp only [moveStep, hphase, hsaved]

/-- The unique index has refused the save. -/
theorem moveStep_refused (hphase : t.phase = .save ending)
    (hsaved : saveFields ending.copy ending.fields rows = .error .integrityError)
    (hurl : .url ∈ ending.fields) :
    moveStep s t rows = some (t.goto (.reread ending), rows) := by
  simp only [moveStep, hphase, hsaved, true_and, if_pos hurl]

theorem moveStep_reread (hphase : t.phase = .reread ending)
    (hrow : (rows.find? fun r => r.id = ending.copy.id) = some row) :
    moveStep s t rows = some (t.goto (.saveAgain ending row.url), rows) := by
  simp only [moveStep, hphase, hrow]

theorem moveStep_saveAgain (hphase : t.phase = .saveAgain ending url)
    (hsaved : saveFields { ending.copy with url := url } (stayFields ending.fields) rows =
      .ok saved) :
    moveStep s t rows = some (t.goto (.done ending), saved) := by
  simp only [moveStep, hphase, hsaved]

end Steps

/-! ### A task alone -/

/-- The steps of one task, with nobody else at the table. -/
def alone (s : FetchSettings) : Unit → MoveTask × List Feed → Option (MoveTask × List Feed) :=
  fun _ c => moveStep s c.1 c.2

/-- Where a task is when it has saved, or has failed to. -/
def MoveTask.saved (t : MoveTask) (ending : Ending) (rows : List Feed) :
    Except SaveError (List Feed) → MoveTask × List Feed
  | .ok rows => (t.goto (.done ending), rows)
  | .error e => (t.goto (.failed (.save e)), rows)

/-- The end of a task alone: `_save` on the table it has looked at. -/
def endAlone (s : FetchSettings) (t : MoveTask) (rows : List Feed) : MoveTask × List Feed :=
  match t.outcome s rows with
  | .error e => (t.goto (.failed e), rows)
  | .ok ending => t.saved ending rows (save ending.copy ending.fields rows)

/-- The index refuses only a URL. -/
theorem url_mem_of_saveFields {copy : Feed} {fields : List Column} {rows : List Feed}
    (h : saveFields copy fields rows = .error .integrityError) : .url ∈ fields := by
  rw [saveFields] at h
  split at h
  · cases h
  · split at h
    · cases h
    · split at h
      · rename_i hurl
        exact hurl.1
      · cases h

/-- One step of a task alone. -/
theorem reach_of_moveStep {s : FetchSettings} {t : MoveTask} {rows : List Feed}
    {c : MoveTask × List Feed} (h : moveStep s t rows = some c) :
    Reach (alone s) anyMove (t, rows) c := by
  have hstep : alone s () (t, rows) = some c := h
  exact .step .refl trivial hstep

theorem reach_saved (s : FetchSettings) (t : MoveTask) (ending : Ending) (rows : List Feed) :
    Reach (alone s) anyMove (t.goto (.save ending), rows)
      (t.saved ending rows (save ending.copy ending.fields rows)) := by
  rw [save]
  cases hsaved : saveFields ending.copy ending.fields rows with
  | ok saved => exact reach_of_moveStep (moveStep_save rfl hsaved)
  | error e =>
    cases e with
    | dataError | noRow =>
      refine reach_of_moveStep ?_
      simp [moveStep, MoveTask.goto, MoveTask.saved, hsaved]
    | integrityError =>
      -- back to the row as it is stored, for its URL
      have hrefused := moveStep_refused (s := s) (t := t.goto (.save ending)) rfl hsaved
        (url_mem_of_saveFields hsaved)
      refine (reach_of_moveStep hrefused).trans ?_
      cases hfind : rows.find? fun r => r.id = ending.copy.id with
      | none =>
        refine reach_of_moveStep ?_
        simp [moveStep, MoveTask.goto, MoveTask.saved, hfind]
      | some row =>
        refine (reach_of_moveStep (moveStep_reread rfl hfind)).trans (reach_of_moveStep ?_)
        dsimp only
        cases hagain : saveFields { ending.copy with url := row.url } (stayFields ending.fields)
          rows with
        | ok saved => exact moveStep_saveAgain rfl hagain
        | error e => simp [moveStep, MoveTask.goto, MoveTask.saved, hagain]

/-- **A task alone** runs as `save` does. -/
theorem reach_endAlone (s : FetchSettings) (t : MoveTask) (rows : List Feed)
    (hphase : t.phase = .check) :
    Reach (alone s) anyMove (t, rows) (endAlone s t rows) := by
  rw [endAlone]
  cases hend : t.outcome s rows with
  | error e =>
    refine reach_of_moveStep ?_
    simp only [moveStep, hphase, hend]
  | ok ending =>
    exact (reach_of_moveStep (moveStep_check hphase hend)).trans (reach_saved s t ending rows)

/-! ### What the fetch has brought -/

/-- The fetch was redirected for good to a spelling of `target`, and ends in a 304 or in
a feed whose entries are queued, whose title can be read, and whose texts can be stored. -/
structure Redirected (s : FetchSettings) (target : Text) (t : MoveTask) : Prop where
  url : ∃ url, t.result.permanentUrl = some url ∧ canonicalUrl s.hosts url = .ok target
  storable : '\x00' ∉ target
  success : t.result.status = .notModified ∨ ∃ body,
    t.result.status = .ok ∧ t.result.body = some body ∧ IsFeed (t.world.document t.result body) ∧
    (queueEntries s.hosts.unicode t.feed (baseUrl t.feed t.result)
      ((t.world.document t.result body).entries.take s.maxEntriesPerFetch)).2 = .ok () ∧
    Savable t.world t.feed t.result (t.world.document t.result body)

/-- The feed cannot move, or need not: the URL is too long, or some feed has it. -/
def Blocked (target : Text) (rows : List Feed) : Prop :=
  maxUrlChars < target.length ∨ ∃ r ∈ rows, r.url = target

/-- What a task saves, apart from its URL. -/
structure Plan where
  base : Feed
  fields : List Column
  report : Report

/-- The ending of a task that moves to `moved`. -/
def Plan.ending (plan : Plan) (t : MoveTask) (moved : Option Text) : Ending where
  copy := { plan.base with url := moved.getD t.loaded.url }
  fields := movedFields moved ++ plan.fields
  report := plan.report

/-- The row that stays where it was, with everything else saved. -/
def Plan.row (plan : Plan) (t : MoveTask) : Feed := plan.base.write plan.fields t.loaded

/-- The row that has moved. -/
def Plan.rowAt (plan : Plan) (t : MoveTask) (target : Text) : Feed :=
  { plan.row t with url := target }

variable {s : FetchSettings} {target : Text} {t t' : MoveTask} {rows rows' : List Feed}
  {plan : Plan}

/-- The plan says what the task saves, whatever it finds in the table. -/
structure Fits (s : FetchSettings) (target : Text) (t : MoveTask) (plan : Plan) : Prop where
  id : plan.base.id = t.loaded.id
  fields : .url ∉ plan.fields
  storable : plan.base.storable plan.fields = true
  url : '\x00' ∉ target
  outcome : ∀ checked, t.outcome s checked = .ok (plan.ending t none) ∧
        (target = t.loaded.url ∨ Blocked target checked) ∨
      t.outcome s checked = .ok (plan.ending t (some target))

/-- A redirect is followed if the URL is new to the feed, not too long and free. -/
theorem Redirected.follow (h : Redirected s target t) (checked : List Feed) :
    followPermanentRedirect s.hosts checked t.feed t.result = none ∧
        (target = t.loaded.url ∨ Blocked target checked) ∨
      followPermanentRedirect s.hosts checked t.feed t.result = some target := by
  obtain ⟨url, hurl, hcanonical⟩ := h.url
  have hne : url ≠ [] := by
    rintro rfl
    have hmissing : canonicalUrl s.hosts [] = .error "missing host".toList := rfl
    rw [hmissing] at hcanonical
    cases hcanonical
  rw [followPermanentRedirect, hurl]
  simp only [hcanonical, List.isEmpty_eq_false_iff.mpr hne, Bool.false_or]
  split
  · rename_i hcond
    refine .inl ⟨rfl, ?_⟩
    simp only [Bool.or_eq_true, decide_eq_true_eq, List.any_eq_true] at hcond
    obtain (hsame | hlong) | hheld := hcond
    · exact .inl hsame
    · exact .inr (.inl hlong)
    · exact .inr (.inr hheld)
  · exact .inr rfl

/-- The URL that a redirected task moves to can be stored. -/
theorem Redirected.moveStorable (h : Redirected s target t) (checked : List Feed) :
    MoveStorable s checked t.feed t.result := by
  intro url hurl
  obtain ⟨hnone, -⟩ | hsome := h.follow checked
  · rw [hnone] at hurl
    cases hurl
  · rw [hsome, Option.some_inj] at hurl
    exact hurl ▸ h.storable

/-- **What a redirected task saves** depends on the table it found only in the URL. -/
theorem Redirected.exists_plan (h : Redirected s target t) : ∃ plan, Fits s target t plan := by
  -- both endings hand the move to their copy and their columns in the same way
  have hfits : ∀ plan : Plan, plan.base.id = t.loaded.id → .url ∉ plan.fields →
      plan.base.storable plan.fields = true → (∀ checked, t.outcome s checked = .ok (plan.ending t
        (followPermanentRedirect s.hosts checked t.feed t.result))) → Fits s target t plan := by
    intro plan hid hfields hstorable houtcome
    refine ⟨hid, hfields, hstorable, h.storable, fun checked => ?_⟩
    rw [houtcome checked]
    obtain ⟨hnone, hwhy⟩ | hsome := h.follow checked
    · rw [hnone]
      exact .inl ⟨rfl, hwhy⟩
    · rw [hsome]
      exact .inr rfl
  obtain h304 | ⟨body, hok, hbody, hfeed, hqueue, hsavable⟩ := h.success
  · let base : Feed :=
      { t.feed with lastStatus := some .notModified, consecutiveErrors := 0, disabledUntil := none }
    have hurl : Column.url ∉
        [Column.lastStatus, .lastFetchedAt, .consecutiveErrors, .disabledUntil] := by decide
    refine ⟨⟨base, _, .status .notModified⟩, hfits _ rfl hurl rfl fun checked => ?_⟩
    rw [MoveTask.outcome, conclude, if_pos h304]
    rfl
  · let parsed := t.world.document t.result body
    obtain ⟨title, htitle, -⟩ := hsavable.title
    let ending := fetched s [] t.feed t.result parsed title
    have hurl : Column.url ∉ [Column.title, .siteUrl, .etag, .lastModified, .lastStatus,
        .lastFetchedAt, .consecutiveErrors, .disabledUntil] := by decide
    have hstorable : ending.copy.storable ending.fields = true :=
      (storable_fetched_iff s t.feed [] t.result htitle).mpr ⟨hsavable, h.moveStorable []⟩
    have hrest : ending.copy.storable [Column.title, .siteUrl, .etag, .lastModified, .lastStatus,
        .lastFetchedAt, .consecutiveErrors, .disabledUntil] = true := by
      rw [storable_iff] at hstorable ⊢
      exact fun c hc => hstorable c (List.mem_append_right _ hc)
    refine ⟨⟨ending.copy, _, .fetched (min parsed.entries.length s.maxEntriesPerFetch)⟩,
      hfits _ rfl hurl hrest fun checked => ?_⟩
    rw [MoveTask.outcome, conclude_of_isFeed hok hbody hfeed, queueFeed]
    cases hq : queueEntries s.hosts.unicode t.feed (baseUrl t.feed t.result)
      (parsed.entries.take s.maxEntriesPerFetch) with
    | mk queued loop =>
      have hloop : loop = .ok () := by
        rw [← hqueue, hq]
      rw [hloop]
      dsimp only
      rw [htitle]
      rfl

/-! ### The rows of a plan -/

namespace Fits

theorem goto (h : Fits s target t plan) (phase : MovePhase) :
    Fits s target (t.goto phase) plan :=
  ⟨h.id, h.fields, h.storable, h.url, h.outcome⟩

theorem stayFields_eq (h : Fits s target t plan) (moved : Option Text) :
    stayFields (plan.ending t moved).fields = plan.fields := by
  have hmoved : stayFields (movedFields moved) = [] := by
    cases moved with
    | none => rfl
    | some url => rfl
  have hstay : stayFields plan.fields = plan.fields :=
    List.filter_eq_self.mpr fun c hc => decide_eq_true fun hurl => h.fields (hurl ▸ hc)
  show stayFields (movedFields moved ++ plan.fields) = plan.fields
  rw [stayFields, List.filter_append, ← stayFields, ← stayFields, hmoved, hstay, List.nil_append]

/-- Whatever URL the task has, it can store the columns of its plan. -/
theorem storable_stay (h : Fits s target t plan) (moved : Option Text) (url : Text) :
    ({ (plan.ending t moved).copy with url := url } : Feed).storable
      (stayFields (plan.ending t moved).fields) = true := by
  rw [h.stayFields_eq]
  exact (storable_of_url_notMem plan.base h.fields url).trans h.storable

theorem storable_move (h : Fits s target t plan) :
    (plan.ending t (some target)).copy.storable (plan.ending t (some target)).fields = true := by
  have hplan : (plan.ending t (some target)).copy.storable plan.fields = true :=
    (storable_of_url_notMem plan.base h.fields target).trans h.storable
  rw [storable_iff] at hplan ⊢
  show ∀ c ∈ .url :: plan.fields, _
  exact List.forall_mem_cons.mpr ⟨h.url, hplan⟩

theorem write_ending (h : Fits s target t plan) (moved : Option Text) (url : Text) :
    ({ (plan.ending t moved).copy with url := url } : Feed).write
      (stayFields (plan.ending t moved).fields) = plan.base.write plan.fields := by
  have hbase : ({ plan.base with url := url } : Feed).write plan.fields =
      plan.base.write plan.fields := write_of_url_notMem h.fields url
  rw [h.stayFields_eq]
  exact hbase

/-- Whatever the task found, it saves the columns of its plan. -/
theorem write_outcome (h : Fits s target t plan) {checked : List Feed} {ending : Ending}
    (hend : t.outcome s checked = .ok ending) :
    ending.copy.write (stayFields ending.fields) t.loaded = plan.row t := by
  obtain ⟨hstay, -⟩ | hmove := h.outcome checked
  · rw [hstay, Except.ok.injEq] at hend
    rw [← hend]
    exact congrFun (h.write_ending none _) t.loaded
  · rw [hmove, Except.ok.injEq] at hend
    rw [← hend]
    exact congrFun (h.write_ending (some target) _) t.loaded

theorem row_url (h : Fits s target t plan) (row : Feed) :
    (plan.base.write plan.fields row).url = row.url := if_neg h.fields

end Fits

/-! ### What a step does to the table -/

/-- The unique indexes of the table. -/
structure Indexed (rows : List Feed) : Prop where
  ids : (rows.map Feed.id).Nodup
  urls : (rows.map Feed.url).Nodup

theorem Indexed.eq_of_id (h : Indexed rows) {r r' : Feed} (hr : r ∈ rows) (hr' : r' ∈ rows)
    (hid : r.id = r'.id) : r = r' :=
  List.inj_on_of_nodup_map h.ids hr hr' hid

theorem Indexed.eq_of_url (h : Indexed rows) {r r' : Feed} (hr : r ∈ rows) (hr' : r' ∈ rows)
    (hurl : r.url = r'.url) : r = r' :=
  List.inj_on_of_nodup_map h.urls hr hr' hurl

/-- What a step of the task with the row `id` does to the table: it writes that row, and
moves it only to a URL that no other row has. -/
inductive Wrote (target : Text) (id : ℕ) (rows : List Feed) : List Feed → Prop
  | stayed (f : Feed → Feed) (hid : ∀ r, (f r).id = r.id) (hurl : ∀ r, (f r).url = r.url) :
    Wrote target id rows (updateWhere (fun r => r.id == id) f rows)
  | moved (f : Feed → Feed) (hid : ∀ r, (f r).id = r.id) (hurl : ∀ r, (f r).url = target)
      (hfree : ∀ r ∈ rows, r.id ≠ id → r.url ≠ target) :
    Wrote target id rows (updateWhere (fun r => r.id == id) f rows)

/-- A row before and after steps of the tasks with rows `ids`. -/
def KeptRow (target : Text) (ids : Set ℕ) (r r' : Feed) : Prop :=
  r'.id = r.id ∧ (r'.url = r.url ∨ r'.url = target) ∧ (r.id ∉ ids → r' = r)

namespace Wrote

variable {id : ℕ}

theorem nothing : Wrote target id rows rows := by
  have hself : updateWhere (fun r => r.id == id) (fun r => r) rows = rows := by
    simp [updateWhere]
  conv => rhs; rw [← hself]
  exact stayed _ (fun _ => rfl) fun _ => rfl

theorem exists_update (h : Wrote target id rows rows') :
    ∃ f : Feed → Feed, rows' = updateWhere (fun r => r.id == id) f rows ∧
      (∀ r, (f r).id = r.id) ∧ ∀ r, (f r).url = r.url ∨ (f r).url = target := by
  cases h with
  | stayed f hid hurl => exact ⟨f, rfl, hid, fun r => .inl (hurl r)⟩
  | moved f hid hurl hfree => exact ⟨f, rfl, hid, fun r => .inr (hurl r)⟩

/-- Step after step, rows of other feeds are kept, and a row moves nowhere else. -/
theorem kept {ids : Set ℕ} {rows₀ : List Feed} (h : Wrote target id rows rows') (hmem : id ∈ ids)
    (hkept : List.Forall₂ (KeptRow target ids) rows₀ rows) :
    List.Forall₂ (KeptRow target ids) rows₀ rows' := by
  obtain ⟨f, rfl, hid, hurl⟩ := h.exists_update
  rw [updateWhere, List.forall₂_map_right_iff]
  refine hkept.imp fun r₀ r hr => ?_
  obtain ⟨hid₀, hurl₀, hother⟩ := hr
  by_cases hr : r.id = id
  · rw [if_pos (beq_iff_eq.mpr hr)]
    refine ⟨(hid r).trans hid₀, ?_, fun hne => absurd (hid₀ ▸ hr ▸ hmem) hne⟩
    obtain hsame | hmoved := hurl r
    · rw [hsame]
      exact hurl₀
    · exact .inr hmoved
  · rw [if_neg (by simpa using hr)]
    exact ⟨hid₀, hurl₀, hother⟩

theorem mem_other (h : Wrote target id rows rows') {r : Feed} (hr : r ∈ rows) (hid : r.id ≠ id) :
    r ∈ rows' := by
  obtain ⟨f, rfl, -, -⟩ := h.exists_update
  exact mem_updateWhere_of_not hr (by simpa using hid)

/-- Nobody leaves the URL again. -/
theorem blocked (h : Wrote target id rows rows') (hb : Blocked target rows) :
    Blocked target rows' := by
  obtain hlong | ⟨r, hr, hurl⟩ := hb
  · exact .inl hlong
  · obtain ⟨f, rfl, -, hf⟩ := h.exists_update
    by_cases hid : r.id = id
    · refine .inr ⟨f r, mem_updateWhere_of hr (by simpa using hid), ?_⟩
      obtain hsame | hmoved := hf r
      · rw [hsame, hurl]
      · exact hmoved
    · exact .inr ⟨r, mem_updateWhere_of_not hr (by simpa using hid), hurl⟩

theorem indexed (h : Wrote target id rows rows') (hrows : Indexed rows) : Indexed rows' := by
  have hids : rows'.map Feed.id = rows.map Feed.id := by
    obtain ⟨f, rfl, hid, -⟩ := h.exists_update
    exact map_updateWhere hid rows
  refine ⟨by rw [hids]; exact hrows.ids, ?_⟩
  cases h with
  | stayed f hid hurl =>
    rw [map_updateWhere hurl]
    exact hrows.urls
  | moved f hid hurl hfree =>
    -- the row that moves is the only one with its id, and nobody else has the URL
    have hrows : rows.Pairwise fun a b => a.id ≠ b.id ∧ a.url ≠ b.url :=
      (List.pairwise_map.mp hrows.ids).and (List.pairwise_map.mp hrows.urls)
    rw [List.Nodup, updateWhere, List.map_map, List.pairwise_map]
    refine List.Pairwise.imp_of_mem ?_ hrows
    rintro a b ha hb ⟨hid, hne⟩
    simp only [Function.comp_apply, beq_iff_eq]
    split
    · rename_i hown
      rw [if_neg fun hb => hid (hown.trans hb.symm), hurl]
      exact (hfree b hb fun hb => hid (hown.trans hb.symm)).symm
    · rename_i hother
      split
      · rw [hurl]
        exact hfree a ha hother
      · exact hne

end Wrote

/-! ### Where a task stands -/

/-- What is known of the row of a task. -/
def Standing (target : Text) (plan : Plan) (t : MoveTask) (rows : List Feed) : Prop :=
  match t.phase with
  | .check => t.loaded ∈ rows
  | .save ending =>
    t.loaded ∈ rows ∧
      (ending = plan.ending t none ∧ Blocked target rows ∨ ending = plan.ending t (some target))
  | .reread ending =>
    t.loaded ∈ rows ∧ Blocked target rows ∧ ending = plan.ending t (some target)
  | .saveAgain ending url =>
    t.loaded ∈ rows ∧ Blocked target rows ∧ ending = plan.ending t (some target) ∧
      url = t.loaded.url
  | .done _ => plan.row t ∈ rows ∧ Blocked target rows ∨ plan.rowAt t target ∈ rows
  | .failed _ => False

/-- A task is on track if some plan fits it, and it stands where the plan says. -/
def OnTrack (s : FetchSettings) (target : Text) (t : MoveTask) (rows : List Feed) : Prop :=
  ∃ plan, Fits s target t plan ∧ Standing target plan t rows

/-- **The others do not interfere.**  A step writes the row of its own task, and a URL that
is held stays held. -/
theorem Standing.other {id : ℕ} (h : Standing target plan t rows)
    (hw : Wrote target id rows rows') (hid : t.loaded.id ≠ id) : Standing target plan t rows' := by
  have hrow : t.loaded ∈ rows → t.loaded ∈ rows' := fun hmem => hw.mem_other hmem hid
  unfold Standing at h ⊢
  cases hphase : t.phase with
  | check =>
    rw [hphase] at h
    exact hrow h
  | save ending =>
    rw [hphase] at h
    obtain ⟨hmem, ⟨hend, hb⟩ | hend⟩ := h
    · exact ⟨hrow hmem, .inl ⟨hend, hw.blocked hb⟩⟩
    · exact ⟨hrow hmem, .inr hend⟩
  | reread ending =>
    rw [hphase] at h
    exact ⟨hrow h.1, hw.blocked h.2.1, h.2.2⟩
  | saveAgain ending url =>
    rw [hphase] at h
    exact ⟨hrow h.1, hw.blocked h.2.1, h.2.2⟩
  | done ending =>
    rw [hphase] at h
    -- the saved row still has the id that was loaded
    obtain ⟨hmem, hb⟩ | hmem := h
    · exact .inl ⟨hw.mem_other hmem hid, hw.blocked hb⟩
    · exact .inr (hw.mem_other hmem hid)
  | failed e =>
    rw [hphase] at h
    exact h

/-! ### The saves -/

theorem taken_eq_false {id : ℕ} {url : Text} :
    taken id url rows = false ↔ ∀ r ∈ rows, r.id ≠ id → r.url ≠ url := by
  rw [taken, List.any_eq_false]
  simp

/-- The save without the URL. -/
theorem saveFields_stay (hfits : Fits s target t plan) (hmem : t.loaded ∈ rows)
    (moved : Option Text) (url : Text) :
    saveFields { (plan.ending t moved).copy with url := url }
        (stayFields (plan.ending t moved).fields) rows =
      .ok (updateWhere (fun r => r.id == t.loaded.id) (plan.base.write plan.fields) rows) := by
  set copy : Feed := { (plan.ending t moved).copy with url := url } with hcopy
  have hrow : ∃ row ∈ rows, row.id = copy.id := ⟨t.loaded, hmem, hfits.id.symm⟩
  have hnoUrl : .url ∈ stayFields (plan.ending t moved).fields →
      taken copy.id copy.url rows = false := fun h => absurd h (url_notMem_stayFields _)
  have hstorable : copy.storable (stayFields (plan.ending t moved).fields) = true :=
    hfits.storable_stay moved url
  rw [saveFields_eq_ok hstorable hrow hnoUrl, hcopy, hfits.write_ending moved url]
  show Except.ok (updateWhere (fun r => r.id == plan.base.id) _ rows) = _
  rw [hfits.id]

/-- The save with the URL. -/
theorem saveFields_move (hfits : Fits s target t plan) (hmem : t.loaded ∈ rows) :
    saveFields (plan.ending t (some target)).copy (plan.ending t (some target)).fields rows =
      if taken t.loaded.id target rows then .error .integrityError
      else .ok (updateWhere (fun r => r.id == t.loaded.id)
        (fun r => { plan.base.write plan.fields r with url := target }) rows) := by
  have hwrite : (plan.ending t (some target)).copy.write (plan.ending t (some target)).fields =
      fun r => { plan.base.write plan.fields r with url := target } := by
    funext r
    simp [Plan.ending, movedFields, Feed.write]
  have hrow : ∃ row ∈ rows, row.id = (plan.ending t (some target)).copy.id :=
    ⟨t.loaded, hmem, hfits.id.symm⟩
  cases htaken : taken t.loaded.id target rows with
  | true =>
    have hheld : taken plan.base.id target rows = true := by rw [hfits.id, htaken]
    rw [if_pos rfl]
    exact saveFields_eq_error hfits.storable_move hrow ⟨List.mem_append_left _ (List.mem_singleton_self _), hheld⟩
  | false =>
    have hfree : taken plan.base.id target rows = false := by rw [hfits.id, htaken]
    rw [if_neg Bool.false_ne_true, saveFields_eq_ok hfits.storable_move hrow fun _ => hfree, hwrite]
    show Except.ok (updateWhere (fun r => r.id == plan.base.id) _ rows) = _
    rw [hfits.id]

theorem wrote_stay (hfits : Fits s target t plan) (hmem : t.loaded ∈ rows) :
    Wrote target t.loaded.id rows
        (updateWhere (fun r => r.id == t.loaded.id) (plan.base.write plan.fields) rows) ∧
      plan.row t ∈ updateWhere (fun r => r.id == t.loaded.id) (plan.base.write plan.fields) rows :=
  ⟨.stayed _ (fun _ => rfl) hfits.row_url, mem_updateWhere_of hmem (by simp)⟩

theorem wrote_move (plan : Plan) (hmem : t.loaded ∈ rows)
    (hfree : ∀ r ∈ rows, r.id ≠ t.loaded.id → r.url ≠ target) :
    Wrote target t.loaded.id rows (updateWhere (fun r => r.id == t.loaded.id)
        (fun r => { plan.base.write plan.fields r with url := target }) rows) ∧
      plan.rowAt t target ∈ updateWhere (fun r => r.id == t.loaded.id)
        (fun r => { plan.base.write plan.fields r with url := target }) rows :=
  ⟨.moved _ (fun _ => rfl) (fun _ => rfl) hfree,
    mem_updateWhere_of (f := fun r => { plan.base.write plan.fields r with url := target }) hmem
      (by simp)⟩

/-- **A step of a task on track**: it writes its own row, moves it only to a free URL, and
is on track again. -/
theorem moveStep_onTrack (hrows : Indexed rows) (hfits : Fits s target t plan)
    (h : Standing target plan t rows) (hstep : moveStep s t rows = some (t', rows')) :
    ∃ phase, t' = t.goto phase ∧ Wrote target t.loaded.id rows rows' ∧
      Standing target plan t' rows' := by
  unfold Standing at h
  cases hphase : t.phase with
  | check =>
    rw [hphase] at h
    obtain ⟨hend, hwhy⟩ | hend := hfits.outcome rows
    · rw [moveStep_check hphase hend] at hstep
      obtain ⟨rfl, rfl⟩ := Prod.mk.inj (Option.some.inj hstep)
      -- its own row is one that has the URL, if it is the same
      have hb : Blocked target rows := by
        obtain hsame | hb := hwhy
        · exact .inr ⟨t.loaded, h, hsame.symm⟩
        · exact hb
      exact ⟨_, rfl, .nothing, h, .inl ⟨rfl, hb⟩⟩
    · rw [moveStep_check hphase hend] at hstep
      obtain ⟨rfl, rfl⟩ := Prod.mk.inj (Option.some.inj hstep)
      exact ⟨_, rfl, .nothing, h, .inr rfl⟩
  | save ending =>
    rw [hphase] at h
    obtain ⟨hmem, ⟨rfl, hb⟩ | rfl⟩ := h
    · have hsave := saveFields_stay hfits hmem none t.loaded.url
      rw [hfits.stayFields_eq] at hsave
      rw [moveStep_save hphase hsave] at hstep
      obtain ⟨rfl, rfl⟩ := Prod.mk.inj (Option.some.inj hstep)
      have ⟨hw, hrow⟩ := wrote_stay hfits hmem
      exact ⟨_, rfl, hw, .inl ⟨hrow, hw.blocked hb⟩⟩
    · have hsave := saveFields_move hfits hmem
      cases htaken : taken t.loaded.id target rows with
      | true =>
        -- another feed has the URL by now: the table stays as it is
        have hb : Blocked target rows := by
          obtain ⟨r, hr, hurl⟩ := List.any_eq_true.mp htaken
          exact .inr ⟨r, hr, of_decide_eq_true (Bool.and_eq_true_iff.mp hurl).2⟩
        rw [htaken, if_pos rfl] at hsave
        rw [moveStep_refused hphase hsave (url_mem_of_saveFields hsave)] at hstep
        obtain ⟨rfl, rfl⟩ := Prod.mk.inj (Option.some.inj hstep)
        exact ⟨_, rfl, .nothing, hmem, hb, rfl⟩
      | false =>
        rw [htaken, if_neg Bool.false_ne_true] at hsave
        rw [moveStep_save hphase hsave] at hstep
        obtain ⟨rfl, rfl⟩ := Prod.mk.inj (Option.some.inj hstep)
        have ⟨hw, hrow⟩ := wrote_move plan hmem (taken_eq_false.mp htaken)
        exact ⟨_, rfl, hw, .inr hrow⟩
  | reread ending =>
    rw [hphase] at h
    obtain ⟨hmem, hb, rfl⟩ := h
    cases hfind : rows.find? fun r => r.id = (plan.ending t (some target)).copy.id with
    | none =>
      have hnone := List.find?_eq_none.mp hfind t.loaded hmem
      exact absurd (decide_eq_true hfits.id.symm) hnone
    | some row =>
      -- the row with the id is its own, as it was loaded
      have hown := List.find?_some hfind
      have hid : row.id = plan.base.id := of_decide_eq_true hown
      have hrow : row = t.loaded :=
        hrows.eq_of_id (List.mem_of_find?_eq_some hfind) hmem (hid.trans hfits.id)
      rw [moveStep_reread hphase hfind] at hstep
      obtain ⟨rfl, rfl⟩ := Prod.mk.inj (Option.some.inj hstep)
      exact ⟨_, rfl, .nothing, hmem, hb, rfl, congrArg Feed.url hrow⟩
  | saveAgain ending url =>
    rw [hphase] at h
    obtain ⟨hmem, hb, rfl, rfl⟩ := h
    rw [moveStep_saveAgain hphase (saveFields_stay hfits hmem (some target) t.loaded.url)] at hstep
    obtain ⟨rfl, rfl⟩ := Prod.mk.inj (Option.some.inj hstep)
    have ⟨hw, hrow⟩ := wrote_stay hfits hmem
    exact ⟨_, rfl, hw, .inl ⟨hrow, hw.blocked hb⟩⟩
  | done ending =>
    rw [moveStep, hphase] at hstep
    cases hstep
  | failed e =>
    rw [moveStep, hphase] at hstep
    cases hstep

/-! ### Runs -/

section Runs

variable {ι : Type*} [DecidableEq ι] {c₀ c : Moves ι}

/-- Tasks of different feeds of a table, all of them redirected to spellings of `target`
and about to look for another feed with it. -/
structure Redirections (s : FetchSettings) (target : Text) (c₀ : Moves ι) : Prop where
  table : Indexed c₀.shared
  different : ∀ p q, p ≠ q → (c₀.loc p).loaded.id ≠ (c₀.loc q).loaded.id
  loaded : ∀ p, (c₀.loc p).loaded ∈ c₀.shared
  phase : ∀ p, (c₀.loc p).phase = .check
  redirected : ∀ p, Redirected s target (c₀.loc p)

/-- What holds in every configuration that the tasks reach. -/
abbrev AllOnTrack (s : FetchSettings) (target : Text) : Moves ι → Prop :=
  Config.Meets Indexed (OnTrack s target) fun t u => t.loaded.id ≠ u.loaded.id

omit [DecidableEq ι] in
theorem Redirections.onTrack (h0 : Redirections s target c₀) : AllOnTrack s target c₀ := by
  refine ⟨h0.table, fun p => ?_, h0.different⟩
  obtain ⟨plan, hfits⟩ := (h0.redirected p).exists_plan
  refine ⟨plan, hfits, ?_⟩
  rw [Standing, h0.phase p]
  exact h0.loaded p

theorem Redirections.allOnTrack (h0 : Redirections s target c₀)
    (h : Reach (moveNext s) anyMove c₀ c) : AllOnTrack s target c := by
  refine Config.invariant_of_assertions (fun _ _ hne => hne.symm) ?_ ?_ ?_ ?_ h0.onTrack h
  · intro c p _ t' rows' hc _ hstep
    obtain ⟨plan, hfits, hstands⟩ := hc.each p
    obtain ⟨phase, rfl, hw, hstands'⟩ := moveStep_onTrack hc.shared hfits hstands hstep
    exact ⟨hw.indexed hc.shared, plan, hfits.goto phase, hstands'⟩
  · intro c p _ t' rows' q hc _ hstep hq
    obtain ⟨plan, hfits, hstands⟩ := hc.each p
    obtain ⟨-, -, hw, -⟩ := moveStep_onTrack hc.shared hfits hstands hstep
    obtain ⟨planq, hfitsq, hstandsq⟩ := hc.each q
    exact ⟨planq, hfitsq, hstandsq.other hw (hc.pair q p hq)⟩
  · intro c p _ t' rows' q hc _ hstep hq
    obtain ⟨plan, hfits, hstands⟩ := hc.each p
    obtain ⟨phase, rfl, -, -⟩ := moveStep_onTrack hc.shared hfits hstands hstep
    exact hc.pair p q hq.symm
  · intro c e
    cases e

/-- The feeds of the tasks. -/
def moving (c₀ : Moves ι) : Set ℕ := Set.range fun p => (c₀.loc p).loaded.id

/-- Since the start, tasks have changed only their phase, and the table only by their moves
and by what they save. -/
theorem Redirections.kept (h0 : Redirections s target c₀)
    (h : Reach (moveNext s) anyMove c₀ c) :
    (∀ p, ∃ phase, c.loc p = (c₀.loc p).goto phase) ∧
      List.Forall₂ (KeptRow target (moving c₀)) c₀.shared c.shared := by
  have hknown := h.knowing fun c hc => h0.allOnTrack hc
  refine hknown.invariant (I := fun c => (∀ p, ∃ phase, c.loc p = (c₀.loc p).goto phase) ∧
    List.Forall₂ (KeptRow target (moving c₀)) c₀.shared c.shared) ?_ ?_
  · refine ⟨fun p => ⟨(c₀.loc p).phase, rfl⟩, List.forall₂_same.mpr fun r _ => ?_⟩
    exact ⟨rfl, .inl rfl, fun _ => rfl⟩
  · rintro c m c' ⟨hloc, hkept⟩ ⟨hc, -⟩ hnext
    cases m with
    | proc p a =>
      obtain ⟨t', rows', hstep, rfl⟩ := Config.next_proc.mp hnext
      obtain ⟨plan, hfits, hstands⟩ := hc.each p
      obtain ⟨phase, rfl, hw, -⟩ := moveStep_onTrack hc.shared hfits hstands hstep
      obtain ⟨phasep, hp⟩ := hloc p
      have hown : (c₀.loc p).loaded.id = (c.loc p).loaded.id := by
        rw [hp]
        rfl
      refine ⟨fun q => ?_, hw.kept ⟨p, hown⟩ hkept⟩
      by_cases hq : q = p
      · subst hq
        exact ⟨phase, by simp [hp, MoveTask.goto]⟩
      · simpa [hq] using hloc q
    | env e => cases e

/-- Only the end of a task is the end of its steps. -/
theorem exists_moveStep (hdone : ∀ ending, t.phase ≠ .done ending)
    (hfailed : ∀ e, t.phase ≠ .failed e) (rows : List Feed) :
    ∃ r, moveStep s t rows = some r := by
  rw [moveStep]
  split
  · split <;> exact ⟨_, rfl⟩
  · split
    · exact ⟨_, rfl⟩
    · split <;> exact ⟨_, rfl⟩
  · split <;> exact ⟨_, rfl⟩
  · split <;> exact ⟨_, rfl⟩
  · rename_i ending hphase
    exact absurd hphase (hdone ending)
  · rename_i e hphase
    exact absurd hphase (hfailed e)

/-- The steps that a task may still take. -/
def MovePhase.left : MovePhase → ℕ
  | .check => 4
  | .save _ => 3
  | .reread _ => 2
  | .saveAgain _ _ => 1
  | .done _ | .failed _ => 0

/-- A task ends after four steps at most. -/
theorem moveStep_left (h : moveStep s t rows = some (t', rows')) :
    t'.phase.left < t.phase.left := by
  rw [moveStep] at h
  split at h
  · rename_i hphase
    rw [hphase]
    split at h <;> cases h
    · show 3 < 4
      omega
    · show 0 < 4
      omega
  · rename_i hphase
    rw [hphase]
    split at h
    · cases h
      show 0 < 3
      omega
    · split at h <;> cases h
      · show 2 < 3
        omega
      · show 0 < 3
        omega
  · rename_i hphase
    rw [hphase]
    split at h <;> cases h
    · show 0 < 2
      omega
    · show 1 < 2
      omega
  · rename_i hphase
    rw [hphase]
    split at h <;> cases h <;>
    · show 0 < 1
      omega
  · cases h
  · cases h

/-- The row of a task that is done: apart from the URL, it is what the task was about to
save, and it is at the target, or where it was loaded. -/
def Saved (s : FetchSettings) (target : Text) (t : MoveTask) (row : Feed) : Prop :=
  row.id = t.loaded.id ∧ (row.url = target ∨ row.url = t.loaded.url) ∧
    ∀ checked ending, t.outcome s checked = .ok ending →
      row = { ending.copy.write (stayFields ending.fields) t.loaded with url := row.url }

/-- A task that is done has saved its row, and somebody has the URL, if it is not too
long. -/
theorem OnTrack.of_done (h : OnTrack s target t rows) {ending : Ending}
    (hdone : t.phase = .done ending) :
    ∃ row ∈ rows, Saved s target t row ∧ (row.url = target ∨ Blocked target rows) := by
  obtain ⟨plan, hfits, hstands⟩ := h
  rw [Standing, hdone] at hstands
  obtain ⟨hmem, hb⟩ | hmem := hstands
  · have hurl : (plan.row t).url = t.loaded.url := hfits.row_url t.loaded
    refine ⟨_, hmem, ⟨rfl, .inr hurl, fun checked ending hend => ?_⟩, .inr hb⟩
    rw [hfits.write_outcome hend]
  · refine ⟨_, hmem, ⟨rfl, .inl rfl, fun checked ending hend => ?_⟩, .inl rfl⟩
    rw [hfits.write_outcome hend]
    rfl

/-- **Concurrent moves.**  In every interleaving, URLs stay unique, no task raises, other
rows are untouched, and one feed at most is at the target.  Who is done has saved
everything else.  When all are done, exactly one has moved, if the target was free and is
not too long. -/
theorem concurrent_moves (h0 : Redirections s target c₀)
    (h : Reach (moveNext s) anyMove c₀ c) :
    (c.shared.map Feed.url).Nodup ∧
      (∀ p e, (c.loc p).phase ≠ .failed e) ∧
      (∀ p, (∃ ending, (c.loc p).phase = .done ending) ∨
        ∃ c', moveNext s (.proc p ()) c = some c') ∧
      (∀ r ∈ c.shared, ∀ r' ∈ c.shared, r.url = target → r'.url = target → r = r') ∧
      List.Forall₂ (KeptRow target (moving c₀)) c₀.shared c.shared ∧
      (∀ p ending, (c.loc p).phase = .done ending →
        ∃ row ∈ c.shared, Saved s target (c₀.loc p) row) ∧
      ((∀ p, ∃ ending, (c.loc p).phase = .done ending) → Nonempty ι →
        (∀ r ∈ c₀.shared, r.url ≠ target) → target.length ≤ maxUrlChars →
        ∃! p, ∃ row ∈ c.shared, row.id = (c₀.loc p).loaded.id ∧ row.url = target) := by
  have hc := h0.allOnTrack h
  obtain ⟨hloc, hkept⟩ := h0.kept h
  have hfailed : ∀ p e, (c.loc p).phase ≠ .failed e := by
    intro p e hphase
    obtain ⟨plan, -, hstands⟩ := hc.each p
    rw [Standing, hphase] at hstands
    exact hstands
  refine ⟨hc.shared.urls, hfailed, fun p => ?_, fun r hr r' hr' hurl hurl' => ?_, hkept,
    fun p ending hdone => ?_, fun hall hne hfree hshort => ?_⟩
  · by_cases hdone : ∃ ending, (c.loc p).phase = .done ending
    · exact .inl hdone
    · obtain ⟨⟨t', rows'⟩, hstep⟩ := exists_moveStep (s := s)
        (fun ending hphase => hdone ⟨ending, hphase⟩) (hfailed p) c.shared
      exact .inr ⟨_, Config.next_proc.mpr ⟨t', rows', hstep, rfl⟩⟩
  · exact hc.shared.eq_of_url hr hr' (hurl.trans hurl'.symm)
  · obtain ⟨row, hrow, hsaved, -⟩ := (hc.each p).of_done hdone
    obtain ⟨phase, hp⟩ := hloc p
    rw [hp] at hsaved
    exact ⟨row, hrow, hsaved⟩
  · -- somebody has the URL, and it is one of the tasks
    have hheld : ∃ row ∈ c.shared, row.url = target := by
      obtain ⟨p⟩ := hne
      obtain ⟨ending, hdone⟩ := hall p
      obtain ⟨row, hrow, -, hurl | hlong | hheld⟩ := (hc.each p).of_done hdone
      · exact ⟨row, hrow, hurl⟩
      · omega
      · exact hheld
    obtain ⟨row, hrow, hurl⟩ := hheld
    obtain ⟨row₀, hrow₀, hid, -, hother⟩ :=
      (Precedence.exists_mem_of_forall₂ hkept).2 row hrow
    have hmoving : row₀.id ∈ moving c₀ := by
      by_contra hnot
      exact hfree row₀ hrow₀ (hother hnot ▸ hurl)
    obtain ⟨p, hp⟩ := hmoving
    refine ⟨p, ⟨row, hrow, hid.trans hp.symm, hurl⟩, ?_⟩
    rintro q ⟨row', hrow', hid', hurl'⟩
    -- unique URLs: it is the same row, and tasks have different feeds
    have hsame : row' = row := hc.shared.eq_of_url hrow' hrow (hurl'.trans hurl.symm)
    by_contra hqp
    apply h0.different q p hqp
    rw [← hid', hsame, hid, ← hp]

end Runs

/-! ### Two feeds -/

/-- Two feeds of one table, and the URL both are redirected to. -/
def sampleMoves : Moves Bool where
  shared := [sampleFeed, { sampleFeed with id := 2, url := "https://b.example/feed".toList }]
  loc p :=
    { world := worldWith (answering fun _ => ⟨304, []⟩) ⟨false, [], none, none⟩ 7
      loaded := if p then sampleFeed else
        { sampleFeed with id := 2, url := "https://b.example/feed".toList }
      result := ⟨.notModified, some 304, none, none, none, none,
        some "https://C.example/feed".toList, none⟩
      phase := .check }

theorem sampleMoves_redirections :
    Redirections sampleSettings "https://c.example/feed".toList sampleMoves := by
  refine ⟨⟨by decide, by decide⟩, by decide, by decide, fun p => rfl, fun p => ?_⟩
  refine ⟨⟨_, rfl, ?_⟩, ?_, .inl rfl⟩
  · decide
  · decide

/-- Both look before either saves. -/
def bothMove : List (Move Bool Unit Empty) :=
  [.proc true (), .proc false (), .proc true (), .proc false (), .proc false (), .proc false ()]

/-- The second one is refused, and stays. -/
theorem concurrent_moves_two : ∃ c, Reach (moveNext sampleSettings) anyMove sampleMoves c ∧
    c.shared.map Feed.url = ["https://c.example/feed".toList, "https://b.example/feed".toList] ∧
    ∃! p, ∃ row ∈ c.shared, row.id = (sampleMoves.loc p).loaded.id ∧
      row.url = "https://c.example/feed".toList := by
  have hrun : ((exec (moveNext sampleSettings) bothMove sampleMoves).map fun c =>
      (c.shared.map Feed.url, (c.loc false).phase.left, (c.loc true).phase.left)) =
      some (["https://c.example/feed".toList, "https://b.example/feed".toList], 0, 0) := by
    decide
  obtain ⟨c, hreach, hend⟩ := Reach.exists_of_exec anyMove hrun (along_anyMove _ _)
  obtain ⟨hurls, hleft⟩ := Prod.mk.inj hend
  obtain ⟨hfalse, htrue⟩ := Prod.mk.inj hleft
  have hmain := concurrent_moves sampleMoves_redirections hreach
  have hdone : ∀ p, ∃ ending, (c.loc p).phase = .done ending := by
    intro p
    have hleft : (c.loc p).phase.left = 0 := by
      cases p with
      | false => exact hfalse
      | true => exact htrue
    cases hphase : (c.loc p).phase with
    | done ending => exact ⟨ending, rfl⟩
    | failed e => exact absurd hphase (hmain.2.1 p e)
    | check | save | reread | saveAgain =>
      rw [hphase] at hleft
      cases hleft
  exact ⟨c, hreach, hurls, hmain.2.2.2.2.2.2 hdone ⟨true⟩ (by decide) (by decide)⟩

end Feeds
