/-
A staff edit of a feed while it is fetched (`FeedSerializer.update`, `fetch_feed`).

Both load the row and write it later: the edit in full, the fetch by columns.

* `Race`, `next` — one edit and one fetch of a feed, step by step, while anything
  happens to the other feeds;
* `Spares` — the edit finds the crawl state it loaded, unless it resets it, and the
  fetch finds the URL it loaded, unless it has learned nothing from it;
* `Kept` — neither has undone the other;
* `Agree` — what is known while they run.

Main results: `edits_and_fetches_keep` and
`stale_fetch_brings_a_validator_to_the_new_url`.
-/
import Newsforge.FeedApi
import Newsforge.Runs

open PyText UrlParse SafeHttp Tables Runs

namespace Feeds

/-! ### The row of a feed -/

/-- The table has one row with the id, and it is `row`. -/
def HasRow (id : ℕ) (row : Feed) (rows : List Feed) : Prop :=
  rows.filter (fun r => r.id = id) = [row]

theorem HasRow.mem {id : ℕ} {row : Feed} {rows : List Feed} (h : HasRow id row rows) :
    row ∈ rows ∧ row.id = id := by
  have hmem : row ∈ rows.filter fun r => r.id = id := by
    rw [h]
    exact List.mem_singleton_self row
  simpa using hmem

theorem HasRow.eq_of_mem {id : ℕ} {row r : Feed} {rows : List Feed} (h : HasRow id row rows)
    (hr : r ∈ rows) (hid : r.id = id) : r = row := by
  have hmem : r ∈ rows.filter fun r => r.id = id := by simpa using ⟨hr, hid⟩
  rw [h] at hmem
  exact List.mem_singleton.mp hmem

/-- The row that a query by primary key returns. -/
theorem HasRow.eq_of_find {id : ℕ} {row r : Feed} {rows : List Feed} {p : Feed → Bool}
    (h : HasRow id row rows) (hfind : rows.find? p = some r) (hp : ∀ r, p r = true → r.id = id) :
    r = row :=
  h.eq_of_mem (List.mem_of_find?_eq_some hfind) (hp r (List.find?_some hfind))

/-- An update of the row. -/
theorem HasRow.updateWhere {id : ℕ} {row : Feed} {rows : List Feed} {f : Feed → Feed}
    (h : HasRow id row rows) (hf : ∀ r, r.id = id → (f r).id = id) :
    HasRow id (f row) (updateWhere (fun r => r.id == id) f rows) := by
  have hmap : (Tables.updateWhere (fun r => r.id == id) f rows).filter (fun r => r.id = id) =
      (rows.filter fun r => r.id = id).map f := by
    rw [Tables.updateWhere, List.filter_map]
    have hfilter : rows.filter ((fun r => decide (r.id = id)) ∘
        fun r => if (r.id == id) = true then f r else r) = rows.filter fun r => r.id = id := by
      refine List.filter_congr fun r _ => ?_
      by_cases hid : r.id = id <;> simp [hid, hf]
    rw [hfilter]
    refine List.map_congr_left fun r hr => ?_
    have hid : r.id = id := by simpa using (List.mem_filter.mp hr).2
    simp [hid]
  rw [HasRow, hmap, h]
  rfl

/-- A full save of the row. -/
theorem HasRow.put {id : ℕ} {row copy : Feed} {rows : List Feed} (h : HasRow id row rows)
    (hid : copy.id = id) : HasRow id copy (put Feed.id copy rows) := by
  obtain ⟨hmem, hrow⟩ := h.mem
  have hany : (rows.any fun r => r.id == copy.id) = true :=
    List.any_eq_true.mpr ⟨row, hmem, by simp [hrow, hid]⟩
  rw [Tables.put, hany, if_pos rfl, hid]
  exact h.updateWhere fun _ _ => hid

/-! ### The race -/

/-- A `PATCH` or `PUT` of the feed: `edited` keeps what it loaded. -/
inductive EditPhase
  | received (attrs : FeedAttrs)
  | editing (attrs : FeedAttrs) (copy : Feed)
  | edited (attrs : FeedAttrs) (copy : Feed)
  | refused
  deriving DecidableEq

/-- A `fetch_feed` of the feed: `saved` keeps what it loaded, and what it wrote. -/
inductive FetchPhase
  | queued (w : World)
  | fetching (w : World) (copy : Feed)
  | concluded (copy : Feed) (ending : Ending)
  | saved (copy value : Feed) (fields : List Column)
  | stopped

/-- One edit and one fetch of a feed. -/
structure Race where
  rows : List Feed
  edit : EditPhase
  fetch : FetchPhase

/-- The next database access of either side, or anything that happens to other
feeds. -/
inductive RaceMove
  | edit (now : Time)
  | refuse
  | fetch
  | others (rows : List Feed)

/-- The next step of the edit: load the row, save it in full. -/
def editStep (id : ℕ) (now : Time) (rows : List Feed) : EditPhase → Option (EditPhase × List Feed)
  | .received attrs =>
    match rows.find? fun r => r.id = id && !r.isDeleted with
    | none => some (.refused, rows)
    | some copy => some (.editing attrs copy, rows)
  | .editing attrs copy =>
    match saveFull (updated attrs now copy) rows with
    | .error _ => some (.refused, rows)
    | .ok rows => some (.edited attrs copy, rows)
  | .edited _ _ | .refused => none

/-- The next step of the fetch: load the row, fetch and look for another feed with
the new URL, save the columns. -/
def fetchStep (s : FetchSettings) (id : ℕ) (rows : List Feed) :
    FetchPhase → Option (FetchPhase × List Feed)
  | .queued w =>
    match loadFeed id rows with
    | none => some (.stopped, rows)
    | some copy => some (.fetching w copy, rows)
  | .fetching w copy =>
    match crawl s w rows copy with
    | (_, .error _) => some (.stopped, rows)
    | (_, .ok ending) => some (.concluded copy ending, rows)
  | .concluded copy ending =>
    match save ending.copy ending.fields rows with
    | .error _ => some (.stopped, rows)
    | .ok rows' =>
      some (.saved copy ending.copy (savedFields ending.copy ending.fields rows), rows')
  | .saved _ _ _ | .stopped => none

/-- One move of the race. -/
def next (s : FetchSettings) (id : ℕ) : RaceMove → Race → Option Race
  | .edit now, c => (editStep id now c.rows c.edit).map fun r => ⟨r.2, r.1, c.fetch⟩
  | .refuse, c =>
    match c.edit with
    | .editing _ _ => some ⟨c.rows, .refused, c.fetch⟩
    | _ => none
  | .fetch, c => (fetchStep s id c.rows c.fetch).map fun r => ⟨r.2, c.edit, r.1⟩
  | .others rows, c =>
    some ⟨c.rows.filter (fun r => r.id = id) ++ rows.filter fun r => r.id ≠ id, c.edit, c.fetch⟩

/-! ### What is to be kept -/

/-- The crawl state of a row is that of a feed nobody has fetched from its URL. -/
structure Feed.Unfetched (url : Text) (row : Feed) : Prop where
  url : row.url = url
  etag : row.etag = none
  lastModified : row.lastModified = none
  consecutiveErrors : row.consecutiveErrors = 0
  disabledUntil : row.disabledUntil = none

/-- The crawl fields among `fields` have their values in `row`. -/
@[mk_iff]
structure Holds (value : Feed) (fields : List Column) (row : Feed) : Prop where
  url : .url ∈ fields → row.url = value.url
  etag : .etag ∈ fields → row.etag = value.etag
  lastModified : .lastModified ∈ fields → row.lastModified = value.lastModified
  lastStatus : .lastStatus ∈ fields → row.lastStatus = value.lastStatus
  consecutiveErrors : .consecutiveErrors ∈ fields → row.consecutiveErrors = value.consecutiveErrors
  disabledUntil : .disabledUntil ∈ fields → row.disabledUntil = value.disabledUntil
  nextFetchAt : .nextFetchAt ∈ fields → row.nextFetchAt = value.nextFetchAt

/-- The same crawl state. -/
def SameCrawl (a b : Feed) : Prop :=
  Holds a [.url, .etag, .lastModified, .lastStatus, .consecutiveErrors, .disabledUntil,
    .nextFetchAt] b

/-- Every field that the request set has the requested value, but that a fetch of the
requested URL may have moved it on. -/
structure Requested (attrs : FeedAttrs) (moved : Text → Prop) (row : Feed) : Prop where
  url : ∀ x, attrs.url = some x → row.url = x ∨ moved x
  language : ∀ x, attrs.language = some x → row.language = x
  intervalSeconds : ∀ x, attrs.intervalSeconds = some x → row.intervalSeconds = x
  isActive : ∀ x, attrs.isActive = some x → row.isActive = x

/-- The edit of `copy` and the fetch of `loaded` have not undone each other. -/
structure Kept (attrs : FeedAttrs) (copy loaded value : Feed) (fields : List Column) (row : Feed) :
    Prop where
  requested : Requested attrs
    (fun x => loaded.url = x ∧ .url ∈ fields ∧ row.url = value.url) row
  crawl : attrs.changesUrl copy = false → Holds value fields row
  /-- nothing that was learned from the old URL is stored with the new one -/
  reset : ∀ url, attrs.url = some url → attrs.changesUrl copy = true →
    row.Unfetched url ∨ loaded.Unfetched url ∧ Holds value fields row

/-- The fetch has learned nothing from the URL. -/
@[mk_iff]
structure Unlearned (value : Feed) (fields : List Column) : Prop where
  url : .url ∉ fields
  etag : .etag ∈ fields → value.etag = none
  lastModified : .lastModified ∈ fields → value.lastModified = none
  consecutiveErrors : .consecutiveErrors ∈ fields → value.consecutiveErrors = 0
  disabledUntil : .disabledUntil ∈ fields → value.disabledUntil = none

/-- The condition of the steps: an edit that keeps the URL finds the crawl state it
loaded, and a fetch finds the URL it loaded or has learned nothing from it. -/
def Spares (id : ℕ) (c : Race) : RaceMove → Prop
  | .edit _ =>
    match c.edit with
    | .editing attrs copy =>
      attrs.changesUrl copy = false → ∀ row ∈ c.rows, row.id = id → SameCrawl copy row
    | _ => True
  | .fetch =>
    match c.fetch with
    | .concluded copy ending =>
      ∀ row ∈ c.rows, row.id = id →
        row.url = copy.url ∨ Unlearned ending.copy (savedFields ending.copy ending.fields c.rows)
    | _ => True
  | .refuse | .others _ => True

/-! ### What is known while they run -/

/-- What an edit has made of the row, nothing else having happened since. -/
structure Edited (attrs : FeedAttrs) (copy row : Feed) : Prop where
  requested : Requested attrs (fun _ => False) row
  url : attrs.changesUrl copy = false → row.url = copy.url
  reset : ∀ url, attrs.url = some url → attrs.changesUrl copy = true → row.Unfetched url

/-- What is known of the row, with the two sides where they are. -/
def Agree (row : Feed) : EditPhase → FetchPhase → Prop
  | .received _, .fetching _ loaded | .received _, .concluded loaded _ => loaded = row
  | .received _, .saved _ value fields | .editing _ _, .saved _ value fields =>
    Holds value fields row
  | .received _, .queued _ | .received _, .stopped | .refused, _ => True
  | .editing _ copy, .fetching _ loaded | .editing _ copy, .concluded loaded _ =>
    copy = row ∧ loaded = row
  | .editing _ copy, .queued _ | .editing _ copy, .stopped => copy = row
  | .edited attrs copy, .fetching _ loaded | .edited attrs copy, .concluded loaded _ =>
    Edited attrs copy row ∧ (loaded = row ∨ loaded = copy)
  | .edited attrs copy, .queued _ | .edited attrs copy, .stopped => Edited attrs copy row
  | .edited attrs copy, .saved loaded value fields => Kept attrs copy loaded value fields row

/-- The invariant of the race. -/
structure Sound (id : ℕ) (c : Race) : Prop where
  row : ∃ row, HasRow id row c.rows ∧ Agree row c.edit c.fetch
  editing : ∀ attrs copy, c.edit = .editing attrs copy → copy.id = id
  fetching : ∀ w copy, c.fetch = .fetching w copy → copy.id = id
  concluded : ∀ copy ending, c.fetch = .concluded copy ending →
    ending.copy.id = id ∧ .isActive ∉ ending.fields

/-! ### One save after the other -/

variable {s : FetchSettings} {id : ℕ} {attrs : FeedAttrs} {copy loaded value row : Feed}
  {fields : List Column} {now : Time}

variable (copy) in
theorem changesUrl_eq_true {url : Text} (hurl : attrs.url = some url) :
    attrs.changesUrl copy = true ↔ url ≠ copy.url := by
  rw [FeedAttrs.changesUrl, hurl]
  simp

variable (attrs copy now) in
/-- The row that the edit writes. -/
theorem edited_updated : Edited attrs copy (updated attrs now copy) := by
  refine ⟨⟨?_, ?_, ?_, ?_⟩, ?_, ?_⟩
  · intro x hx
    exact .inl (by simp [updated, Feed.setAttrs, hx])
  · intro x hx
    simp [updated, Feed.setAttrs, hx]
  · intro x hx
    simp [updated, Feed.setAttrs, hx]
  · intro x hx
    simp [updated, Feed.setAttrs, hx]
  · intro hsame
    rw [updated, hsame]
    cases hurl : attrs.url with
    | none => simp [Feed.setAttrs, hurl]
    | some url =>
      have hne := mt (changesUrl_eq_true copy hurl).mpr (by simp [hsame])
      rw [not_not] at hne
      simp [Feed.setAttrs, hurl, hne]
  · intro url hurl hchanges
    rw [updated, hchanges]
    exact ⟨by simp [Feed.setAttrs, hurl], rfl, rfl, rfl, rfl⟩

/-- A save writes the columns it names. -/
theorem holds_write : Holds value fields (value.write fields row) := by
  refine ⟨?_, ?_, ?_, ?_, ?_, ?_, ?_⟩ <;>
  · intro h
    exact if_pos h

/-- The fetch is saved after the edit. -/
theorem Edited.write (h : Edited attrs copy row) (hactive : .isActive ∉ fields)
    (hloaded : loaded = row ∨ loaded = copy)
    (hspares : row.url = loaded.url ∨ Unlearned value fields) :
    Kept attrs copy loaded value fields (value.write fields row) := by
  refine ⟨⟨?_, h.requested.language, h.requested.intervalSeconds, ?_⟩, fun _ => holds_write, ?_⟩
  · intro x hx
    have hrow : row.url = x := (h.requested.url x hx).resolve_right not_false
    by_cases hmoved : .url ∈ fields
    · -- only a fetch of the requested URL may move it on
      have hsame : row.url = loaded.url := hspares.resolve_right fun hu => hu.url hmoved
      exact .inr ⟨hsame ▸ hrow, hmoved, if_pos hmoved⟩
    · exact .inl ((if_neg hmoved).trans hrow)
  · intro x hx
    exact (if_neg hactive).trans (h.requested.isActive x hx)
  · intro url hurl hchanges
    have hrow := h.reset url hurl hchanges
    rcases hloaded with rfl | rfl
    · exact .inr ⟨hrow, holds_write⟩
    · -- the old URL was fetched, so nothing was learned
      have hold : row.url ≠ loaded.url := by
        rw [hrow.url]
        exact (changesUrl_eq_true _ hurl).mp hchanges
      have hu := hspares.resolve_left hold
      refine .inl ⟨(if_neg hu.url).trans hrow.url, ?_, ?_, ?_, ?_⟩
      · show (if _ then _ else _) = _
        split
        · exact hu.etag ‹_›
        · exact hrow.etag
      · show (if _ then _ else _) = _
        split
        · exact hu.lastModified ‹_›
        · exact hrow.lastModified
      · show (if _ then _ else _) = _
        split
        · exact hu.consecutiveErrors ‹_›
        · exact hrow.consecutiveErrors
      · show (if _ then _ else _) = _
        split
        · exact hu.disabledUntil ‹_›
        · exact hrow.disabledUntil

/-- The edit is saved after the fetch. -/
theorem Holds.updated (h : Holds value fields row)
    (hspares : attrs.changesUrl copy = false → SameCrawl copy row) :
    Kept attrs copy loaded value fields (updated attrs now copy) := by
  have hedited := edited_updated attrs copy now
  refine ⟨⟨fun x hx => .inl ((hedited.requested.url x hx).resolve_right not_false),
    hedited.requested.language, hedited.requested.intervalSeconds, hedited.requested.isActive⟩,
    fun hsame => ?_, fun url hurl hchanges => .inl (hedited.reset url hurl hchanges)⟩
  -- the edit writes what it loaded, and the fetch had left just that
  have hcrawl := hspares hsame
  have hupdated : Feeds.updated attrs now copy = copy.setAttrs attrs := by
    rw [Feeds.updated, hsame]
    rfl
  have hurl := hedited.url hsame
  rw [hupdated] at hurl ⊢
  refine ⟨fun hc => ?_, fun hc => ?_, fun hc => ?_, fun hc => ?_, fun hc => ?_, fun hc => ?_,
    fun hc => ?_⟩
  · rw [hurl, ← h.url hc]
    exact (hcrawl.url (by simp)).symm
  · exact (hcrawl.etag (by simp)).symm.trans (h.etag hc)
  · exact (hcrawl.lastModified (by simp)).symm.trans (h.lastModified hc)
  · exact (hcrawl.lastStatus (by simp)).symm.trans (h.lastStatus hc)
  · exact (hcrawl.consecutiveErrors (by simp)).symm.trans (h.consecutiveErrors hc)
  · exact (hcrawl.disabledUntil (by simp)).symm.trans (h.disabledUntil hc)
  · exact (hcrawl.nextFetchAt (by simp)).symm.trans (h.nextFetchAt hc)

/-! ### Step by step -/

variable {c c' c₀ : Race} {w : World} {ending : Ending} {e : EditPhase} {f : FetchPhase}

theorem isActive_notMem_savedFields {value : Feed} {rows : List Feed}
    (h : .isActive ∉ fields) : .isActive ∉ savedFields value fields rows :=
  mt (mem_savedFields (by decide)).mp h

/-- What the edit loads is the row. -/
theorem Agree.editLoads (h : Agree row (.received attrs) f) :
    Agree row (.editing attrs row) f := by
  cases f with
  | queued w => exact rfl
  | fetching w loaded => exact ⟨rfl, h⟩
  | concluded loaded ending => exact ⟨rfl, h⟩
  | saved loaded value fields => exact h
  | stopped => exact rfl

theorem Agree.editSaves (h : Agree row (.editing attrs copy) f)
    (hspares : attrs.changesUrl copy = false → SameCrawl copy row) :
    Agree (updated attrs now copy) (.edited attrs copy) f := by
  have hedited := edited_updated attrs copy now
  cases f with
  | queued w => exact hedited
  | fetching w loaded => exact ⟨hedited, .inr (h.2.trans h.1.symm)⟩
  | concluded loaded ending => exact ⟨hedited, .inr (h.2.trans h.1.symm)⟩
  | saved loaded value fields => exact Holds.updated h hspares
  | stopped => exact hedited

/-- What the fetch loads is the row. -/
theorem Agree.fetchLoads (h : Agree row e (.queued w)) : Agree row e (.fetching w row) := by
  cases e with
  | received attrs => exact rfl
  | editing attrs copy => exact ⟨h, rfl⟩
  | edited attrs copy => exact ⟨h, .inl rfl⟩
  | refused => trivial

/-- The network does not touch the table. -/
theorem Agree.fetchConcludes (h : Agree row e (.fetching w loaded)) :
    Agree row e (.concluded loaded ending) := by
  cases e with
  | received attrs => exact h
  | editing attrs copy => exact h
  | edited attrs copy => exact h
  | refused => trivial

theorem Agree.fetchGone (h : Agree row e (.queued w)) : Agree row e .stopped := by
  cases e with
  | received attrs => trivial
  | editing attrs copy => exact h
  | edited attrs copy => exact h
  | refused => trivial

theorem Agree.fetchRaises (h : Agree row e (.fetching w loaded)) : Agree row e .stopped := by
  cases e with
  | received attrs => trivial
  | editing attrs copy => exact h.1
  | edited attrs copy => exact h.1
  | refused => trivial

theorem Agree.fetchRefused (h : Agree row e (.concluded loaded ending)) : Agree row e .stopped := by
  cases e with
  | received attrs => trivial
  | editing attrs copy => exact h.1
  | edited attrs copy => exact h.1
  | refused => trivial

theorem Agree.fetchSaves (h : Agree row e (.concluded loaded ending))
    (hactive : .isActive ∉ fields) (hspares : row.url = loaded.url ∨ Unlearned value fields) :
    Agree (value.write fields row) e (.saved loaded value fields) := by
  cases e with
  | received attrs => exact holds_write
  | editing attrs copy => exact holds_write
  | edited attrs copy => exact h.1.write hactive h.2 hspares
  | refused => trivial

theorem id_updated (hid : copy.id = id) : (updated attrs now copy).id = id := by
  rw [updated]
  split
  · exact hid
  · exact hid

/-- A step of the edit. -/
theorem Sound.edit (h : Sound id c) {phase : EditPhase} {rows : List Feed}
    (hspares : Spares id c (.edit now))
    (hstep : editStep id now c.rows c.edit = some (phase, rows)) :
    Sound id ⟨rows, phase, c.fetch⟩ := by
  obtain ⟨row, hrow, hagree⟩ := h.row
  cases hedit : c.edit with
  | received attrs =>
    rw [hedit] at hstep hagree
    rw [editStep] at hstep
    split at hstep
    · cases hstep
      exact ⟨⟨row, hrow, trivial⟩, fun _ _ he => (by cases he), h.fetching, h.concluded⟩
    · rename_i copy hfind
      cases hstep
      have hcopy : copy = row := hrow.eq_of_find hfind fun r hr => by
        simpa using (Bool.and_eq_true_iff.mp hr).1
      subst hcopy
      refine ⟨⟨copy, hrow, hagree.editLoads⟩, ?_, h.fetching, h.concluded⟩
      intro attrs' copy' he
      cases he
      exact hrow.mem.2
  | editing attrs copy =>
    rw [hedit] at hstep hagree
    rw [Spares, hedit] at hspares
    rw [editStep] at hstep
    split at hstep
    · cases hstep
      exact ⟨⟨row, hrow, trivial⟩, fun _ _ he => (by cases he), h.fetching, h.concluded⟩
    · rename_i rows' hsave
      cases hstep
      have hrows : rows = put Feed.id (updated attrs now copy) c.rows := by
        rw [saveFull] at hsave
        split at hsave
        · cases hsave
        · cases hsave
          rfl
      have hput : HasRow id (updated attrs now copy)
          (put Feed.id (updated attrs now copy) c.rows) :=
        hrow.put (id_updated (h.editing attrs copy hedit))
      refine ⟨⟨updated attrs now copy, hrows ▸ hput, ?_⟩, fun _ _ he => (by cases he),
        h.fetching, h.concluded⟩
      exact hagree.editSaves fun hsame => hspares hsame row hrow.mem.1 hrow.mem.2
  | edited attrs copy =>
    rw [hedit] at hstep
    cases hstep
  | refused =>
    rw [hedit] at hstep
    cases hstep

/-- A step of the fetch. -/
theorem Sound.fetch (h : Sound id c) {phase : FetchPhase} {rows : List Feed}
    (hspares : Spares id c .fetch) (hstep : fetchStep s id c.rows c.fetch = some (phase, rows)) :
    Sound id ⟨rows, c.edit, phase⟩ := by
  obtain ⟨row, hrow, hagree⟩ := h.row
  cases hfetch : c.fetch with
  | queued w =>
    rw [hfetch] at hstep hagree
    rw [fetchStep] at hstep
    split at hstep
    · cases hstep
      exact ⟨⟨row, hrow, hagree.fetchGone⟩, h.editing, fun _ _ he => (by cases he),
        fun _ _ he => (by cases he)⟩
    · rename_i copy hfind
      cases hstep
      have hcopy : copy = row := hrow.eq_of_find hfind fun r hr => by
        simpa using (Bool.and_eq_true_iff.mp (Bool.and_eq_true_iff.mp hr).1).1
      subst hcopy
      refine ⟨⟨copy, hrow, hagree.fetchLoads⟩, h.editing, ?_, fun _ _ he => (by cases he)⟩
      intro w' copy' he
      cases he
      exact hrow.mem.2
  | fetching w copy =>
    rw [hfetch] at hstep hagree
    rw [fetchStep] at hstep
    split at hstep
    · cases hstep
      exact ⟨⟨row, hrow, hagree.fetchRaises⟩, h.editing, fun _ _ he => (by cases he),
        fun _ _ he => (by cases he)⟩
    · rename_i queued ending hcrawl
      cases hstep
      refine ⟨⟨row, hrow, hagree.fetchConcludes⟩, h.editing, fun _ _ he => (by cases he), ?_⟩
      intro copy' ending' he
      cases he
      obtain ⟨hid, hactive⟩ := (crawl_ends hcrawl).sound
      exact ⟨hid.trans (h.fetching w copy hfetch), hactive⟩
  | concluded copy ending =>
    obtain ⟨hid, hactive⟩ := h.concluded copy ending hfetch
    rw [hfetch] at hstep hagree
    rw [Spares, hfetch] at hspares
    cases hstorable : ending.copy.storable ending.fields with
    | false =>
      -- a text with a NUL: the fetch saves nothing
      rw [fetchStep, save_eq_dataError c.rows hstorable] at hstep
      cases hstep
      exact ⟨⟨row, hrow, hagree.fetchRefused⟩, h.editing, fun _ _ he => (by cases he),
        fun _ _ he => (by cases he)⟩
    | true =>
      have hsave : save ending.copy ending.fields c.rows = _ :=
        save_eq_ok hstorable ⟨row, hrow.mem.1, hrow.mem.2.trans hid.symm⟩
      rw [fetchStep, hsave] at hstep
      cases hstep
      rw [hid]
      refine ⟨⟨ending.copy.write (savedFields ending.copy ending.fields c.rows) row,
        hrow.updateWhere fun r hr => hr, ?_⟩, h.editing, fun _ _ he => (by cases he),
        fun _ _ he => (by cases he)⟩
      exact hagree.fetchSaves (isActive_notMem_savedFields hactive)
        (hspares row hrow.mem.1 hrow.mem.2)
  | saved copy value fields =>
    rw [hfetch] at hstep
    cases hstep
  | stopped =>
    rw [hfetch] at hstep
    cases hstep

/-- **The step lemma** of the race. -/
theorem Sound.next (h : Sound id c) {m : RaceMove} (hspares : Spares id c m)
    (hnext : Feeds.next s id m c = some c') : Sound id c' := by
  cases m with
  | edit now =>
    obtain ⟨⟨phase, rows⟩, hstep, rfl⟩ := Option.map_eq_some_iff.mp hnext
    exact h.edit hspares hstep
  | refuse =>
    rw [Feeds.next] at hnext
    split at hnext
    · cases hnext
      obtain ⟨row, hrow, -⟩ := h.row
      exact ⟨⟨row, hrow, trivial⟩, fun _ _ he => (by cases he), h.fetching, h.concluded⟩
    · cases hnext
  | fetch =>
    obtain ⟨⟨phase, rows⟩, hstep, rfl⟩ := Option.map_eq_some_iff.mp hnext
    exact h.fetch hspares hstep
  | others rows =>
    rw [Feeds.next, Option.some_inj] at hnext
    subst hnext
    obtain ⟨row, hrow, hagree⟩ := h.row
    refine ⟨⟨row, ?_, hagree⟩, h.editing, h.fetching, h.concluded⟩
    -- the row is not among the others
    have hother : (rows.filter fun r => r.id ≠ id).filter (fun r => r.id = id) = [] := by
      rw [List.filter_eq_nil_iff]
      intro r hr
      simpa using (List.mem_filter.mp hr).2
    rw [HasRow, List.filter_append, List.filter_filter, hother, List.append_nil]
    simp only [Bool.and_self]
    exact hrow

/-- **Staff edits and fetches keep each other's work.**  Whatever the order of their
steps, and whatever happens to other feeds: once the edit is saved, the row has what
it requested; and with the fetch saved too, neither has undone the other, if each of
them spares what it did not load. -/
theorem edits_and_fetches_keep {w : World} {row₀ : Feed} (hrow : HasRow id row₀ c₀.rows)
    (hedit : c₀.edit = .received attrs) (hfetch : c₀.fetch = .queued w)
    (h : Reach (next s id) (Spares id) c₀ c) (hedited : c.edit = .edited attrs copy) :
    ∃ row, HasRow id row c.rows ∧
      ((∀ loaded value fields, c.fetch ≠ .saved loaded value fields) → Edited attrs copy row) ∧
      ∀ loaded value fields, c.fetch = .saved loaded value fields →
        Kept attrs copy loaded value fields row := by
  have h0 : Sound id c₀ := by
    refine ⟨⟨row₀, hrow, ?_⟩, ?_, ?_, ?_⟩
    · rw [hedit, hfetch]
      trivial
    · intro _ _ he
      rw [hedit] at he
      cases he
    · intro _ _ he
      rw [hfetch] at he
      cases he
    · intro _ _ he
      rw [hfetch] at he
      cases he
  have hsound := h.invariant h0 fun _ _ _ hc hspares hnext => hc.next hspares hnext
  obtain ⟨row, hrow, hagree⟩ := hsound.row
  refine ⟨row, hrow, fun hunsaved => ?_, fun loaded value fields hsaved => ?_⟩
  · rw [hedited] at hagree
    cases hf : c.fetch with
    | queued w =>
      rw [hf] at hagree
      exact hagree
    | fetching w loaded =>
      rw [hf] at hagree
      exact hagree.1
    | concluded loaded ending =>
      rw [hf] at hagree
      exact hagree.1
    | saved loaded value fields => exact absurd hf (hunsaved loaded value fields)
    | stopped =>
      rw [hf] at hagree
      exact hagree
  · rw [hedited, hsaved] at hagree
    exact hagree

/-! ### Two races -/

instance (value : Feed) (fields : List Column) (row : Feed) : Decidable (Holds value fields row) :=
  decidable_of_iff _ (holds_iff value fields row).symm

instance (a b : Feed) : Decidable (SameCrawl a b) :=
  inferInstanceAs (Decidable (Holds a _ b))

instance (value : Feed) (fields : List Column) : Decidable (Unlearned value fields) :=
  decidable_of_iff _ (unlearned_iff value fields).symm

instance (id : ℕ) : (c : Race) → (m : RaceMove) → Decidable (Spares id c m)
  | ⟨rows, .editing attrs copy, _⟩, .edit _ =>
    inferInstanceAs (Decidable (attrs.changesUrl copy = false →
      ∀ row ∈ rows, row.id = id → SameCrawl copy row))
  | ⟨rows, _, .concluded copy ending⟩, .fetch =>
    inferInstanceAs (Decidable (∀ row ∈ rows, row.id = id →
      row.url = copy.url ∨ Unlearned ending.copy (savedFields ending.copy ending.fields rows)))
  | ⟨_, .received _, _⟩, .edit _ | ⟨_, .edited _ _, _⟩, .edit _ | ⟨_, .refused, _⟩, .edit _
  | ⟨_, _, .queued _⟩, .fetch | ⟨_, _, .fetching _ _⟩, .fetch | ⟨_, _, .saved _ _ _⟩, .fetch
  | ⟨_, _, .stopped⟩, .fetch | _, .refuse | _, .others _ => isTrue trivial

/-- The server sends a validator with the feed. -/
def taggedWorld : World :=
  worldWith (answering fun _ => ⟨200, [("ETag".toList, "v1".toList)]⟩) ⟨false, [], none, none⟩ 7

/-- A request for these fields, and a fetch of the feed. -/
def raceWith (attrs : FeedAttrs) : Race := ⟨[sampleFeed], .received attrs, .queued taggedWorld⟩

def russianAttrs : FeedAttrs := ⟨none, some .russian, none, none⟩

def movedAttrs : FeedAttrs := ⟨some "https://b.example/feed".toList, none, none, none⟩

/-- What the fetch has written: the row it loaded, its values, and the columns. -/
def FetchPhase.written : FetchPhase → Option (Feed × Feed × List Column)
  | .saved loaded value fields => some (loaded, value, fields)
  | _ => none

theorem FetchPhase.eq_saved {phase : FetchPhase} {x : Feed × Feed × List Column}
    (h : phase.written = some x) : phase = .saved x.1 x.2.1 x.2.2 := by
  cases phase with
  | saved loaded value fields =>
    cases h
    rfl
  | _ => cases h

/-- The language is changed while the feed is fetched: the row has the new language,
and the validator. -/
theorem edits_and_fetches_keep_overlap :
    ∃ c row, Reach (next sampleSettings 1) (Spares 1) (raceWith russianAttrs) c ∧
      HasRow 1 row c.rows ∧ row.language = .russian ∧ row.etag = some "v1".toList := by
  have hrun : ((exec (next sampleSettings 1) [.fetch, .fetch, .edit 9, .edit 9, .fetch]
      (raceWith russianAttrs)).map fun c =>
        (c.edit, c.fetch.written.map fun x => (x.2.1.etag, x.2.2))) =
      some (.edited russianAttrs sampleFeed, some (some "v1".toList, [.title, .siteUrl, .etag,
        .lastModified, .lastStatus, .lastFetchedAt, .consecutiveErrors, .disabledUntil])) := by
    decide
  have hok : Along (next sampleSettings 1) (Spares 1) [.fetch, .fetch, .edit 9, .edit 9, .fetch]
      (raceWith russianAttrs) := by
    decide
  have hrow₀ : HasRow 1 sampleFeed (raceWith russianAttrs).rows := rfl
  obtain ⟨c, hreach, hend⟩ := Reach.exists_of_exec (Spares 1) hrun hok
  rw [Prod.mk.injEq] at hend
  obtain ⟨⟨loaded, value, fields⟩, hx, hwritten⟩ := Option.map_eq_some_iff.mp hend.2
  obtain ⟨hetag, rfl⟩ := Prod.mk.inj hwritten
  obtain ⟨row, hrow, -, hkept⟩ := edits_and_fetches_keep hrow₀ rfl rfl hreach hend.1
  have hsaved := hkept _ _ _ (FetchPhase.eq_saved hx)
  refine ⟨c, row, hreach, hrow, hsaved.requested.language _ rfl, ?_⟩
  exact ((hsaved.crawl rfl).etag (by simp)).trans hetag

/-- **A stale fetch brings a validator to the new URL.**  The edit changes the URL and
resets the crawl state while the old URL is fetched; the fetch then saves what it
received from there. -/
theorem stale_fetch_brings_a_validator_to_the_new_url :
    ∃ c value fields row, Reach (next sampleSettings 1) anyMove (raceWith movedAttrs) c ∧
      c.edit = .edited movedAttrs sampleFeed ∧ c.fetch = .saved sampleFeed value fields ∧
      HasRow 1 row c.rows ∧ row.url = "https://b.example/feed".toList ∧
      row.etag = some "v1".toList ∧
      ¬ Kept movedAttrs sampleFeed sampleFeed value fields row := by
  have hrun : ((exec (next sampleSettings 1) [.fetch, .fetch, .edit 9, .edit 9, .fetch]
      (raceWith movedAttrs)).map fun c => (c.edit, c.fetch.written.map Prod.fst, c.rows)) =
      some (.edited movedAttrs sampleFeed, some sampleFeed, [{ sampleFeed with
        url := "https://b.example/feed".toList
        etag := some "v1".toList
        lastStatus := some .ok
        lastFetchedAt := some 7
        nextFetchAt := 9 }]) := by
    decide
  obtain ⟨c, hreach, hend⟩ := Reach.exists_of_exec anyMove hrun (along_anyMove _ _)
  rw [Prod.mk.injEq, Prod.mk.injEq] at hend
  obtain ⟨hedit, hfetch, hrows⟩ := hend
  obtain ⟨⟨loaded, value, fields⟩, hx, rfl⟩ := Option.map_eq_some_iff.mp hfetch
  refine ⟨c, value, fields, _, hreach, hedit, FetchPhase.eq_saved hx, by rw [hrows]; rfl, rfl, rfl,
    fun hkept => ?_⟩
  -- neither the row nor what the fetch loaded is one of the new URL
  rcases hkept.reset _ rfl (by decide) with h | ⟨h, -⟩
  · cases h.etag
  · exact absurd h.url (by decide)

end Feeds
