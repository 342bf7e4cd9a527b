/-
Fetching a feed (`apps/feeds/fetcher.py`, `apps/feeds/ratelimit.py`,
`tasks/fetcher.py`).

* `fetch` — the conditional request, and what it ends in;
* `message`, `queueEntries` — the entries, one `process_article` each;
* `followPermanentRedirect`, `recordFailure`, `conclude` — what becomes of the
  row;
* `crawl` — `fetch_feed` between loading the row and saving it;
* `save` — `_save`;
* `fetchFeed` — the task.

A `World` is what one run of the task meets outside the database.  `feedparser`
and `bleach` are read from it.
-/
import Newsforge.BodyReader
import Newsforge.Feed
import Newsforge.PlainText
import Newsforge.Robots

open PyText UrlParse SafeHttp Tables

namespace Feeds

/-! ### Settings and the world -/

/-- The settings that fetching reads. -/
structure FetchSettings extends Robots.Settings where
  httpTimeout : Seconds
  maxResponseBytes : ℕ
  maxEntriesPerFetch : ℕ
  perDomainMinInterval : ℕ

/-- An entry of a parsed feed: the values that `get` finds, `content` by the
`value` of each of its parts. -/
structure Entry where
  link : Option Text
  title : Option Text
  summary : Option Text
  content : List (Option Text)
  id : Option Text
  guid : Option Text
  author : Option Text
  publishedParsed : Option (List Int)
  updatedParsed : Option (List Int)

/-- What `feedparser.parse` returns. -/
structure Parsed where
  bozo : Bool
  entries : List Entry
  title : Option Text
  link : Option Text

/-- What one run of `fetch_feed` meets outside the database. -/
structure World where
  /-- the cached policy of the host, and what a request for it meets -/
  cachedRobots : Option Text
  robotsNet : Internet
  /-- Redis sets the key of the host -/
  acquired : Bool
  net : Internet
  parse : Bytes → Option Text → Parsed
  /-- `bleach` and `html` -/
  html : Normalizer.Html
  /-- the readings of the clock, in the order they are taken -/
  fetchedAt : Time
  failedAt : Time
  pausedAt : Time
  /-- what `random.uniform(0.5, 1.5)` and `random.uniform(1, 2)` return -/
  jitter : ℚ
  spread : ℚ

/-! ### The conditional request -/

/-- `ACCEPT`. -/
def accept : Text :=
  "application/atom+xml, application/rss+xml, application/xml;q=0.9, */*;q=0.5".toList

/-- `FetchResult`. -/
structure FetchResult where
  status : FeedStatus
  httpStatus : Option ℕ
  body : Option Bytes
  etag : Option Text
  lastModified : Option Text
  url : Option Text
  permanentUrl : Option Text
  contentType : Option Text

/-- A validator that is there and not empty, as a header. -/
def validatorHeader (name : Text) : Option Text → List (Text × Text)
  | some value => if value.isEmpty then [] else [(name, value)]
  | none => []

/-- The headers of `fetch`. -/
def fetchHeaders (s : FetchSettings) (etag lastModified : Option Text) : Headers where
  entries :=
    [("User-Agent".toList, s.userAgent), ("Accept".toList, accept)] ++
      validatorHeader "If-None-Match".toList etag ++
      validatorHeader "If-Modified-Since".toList lastModified
  nodup := by
    have hnames : ∀ (name : Text) (value : Option Text),
        (validatorHeader name value).map Prod.fst = [] ∨
          (validatorHeader name value).map Prod.fst = [name] := by
      intro name value
      cases value with
      | none => exact .inl rfl
      | some v =>
        rw [validatorHeader]
        split
        · exact .inl rfl
        · exact .inr rfl
    rw [List.map_append, List.map_append]
    show (["User-Agent".toList, "Accept".toList] ++ _ ++ _).Nodup
    rcases hnames "If-None-Match".toList etag with h | h <;>
      rcases hnames "If-Modified-Since".toList lastModified with h' | h' <;>
      rw [h, h'] <;> decide

/-- The options of the request for a feed. -/
def fetchOptions (s : FetchSettings) (etag lastModified : Option Text) : Options where
  headers := fetchHeaders s etag lastModified
  timeout := s.httpTimeout
  maxBytes := s.maxResponseBytes
  maxRedirects := 5
  allowHttp := s.allowPlainHttp
  truncate := false
  discardBody := false

/-- A `FetchResult` without a body. -/
def FetchResult.failed (status : FeedStatus) (httpStatus : Option ℕ) : FetchResult :=
  ⟨status, httpStatus, none, none, none, none, none, none⟩

/-- The result for a response.  After a 304 the validators are those that were
sent. -/
def resultOf (etag lastModified : Option Text) (resp : Response) : FetchResult :=
  if resp.statusCode = 304 then
    ⟨.notModified, some 304, none, etag, lastModified, none, resp.permanentUrl, none⟩
  else if 300 ≤ resp.statusCode then .failed .httpError (some resp.statusCode)
  else
    ⟨.ok, some resp.statusCode, some resp.content, headerGet "etag".toList resp.headers,
      headerGet "last-modified".toList resp.headers, some resp.url, resp.permanentUrl,
      headerGet "content-type".toList resp.headers⟩

/-- What `fetch` makes of the end of its request.  Other exceptions leave it. -/
def resultOfEnd (etag lastModified : Option Text) :
    Except RequestError Response → Except RequestError FetchResult
  | .error (.unsafeUrl _) => .ok (.failed .ssrfBlocked none)
  | .error (.body .responseTooLarge) => .ok (.failed .tooLarge none)
  | .error (.deadlineExceeded _) | .error (.client (.httpError _))
  | .error (.body .deadlineExceeded) | .error (.body (.client (.httpError _))) =>
    .ok (.failed .networkError none)
  | .error e => .error e
  | .ok resp => .ok (resultOf etag lastModified resp)

/-- `fetch`. -/
def fetch (s : FetchSettings) (net : Internet) (url : Text) (etag lastModified : Option Text) :
    Except RequestError FetchResult :=
  resultOfEnd etag lastModified
    (request s.hosts s.is net (fetchOptions s etag lastModified) "GET".toList url none).2

/-- `try_acquire`; `urlparse` may raise. -/
def tryAcquire (u : UnicodeTables) (acquired : Bool) (url : Text) : Except Text Bool :=
  (urlparse u url []).map fun p =>
    let parts : SplitResult := ⟨p.scheme, p.netloc, p.path, p.query, p.fragment⟩
    if ((parts.hostname u).getD []).isEmpty then false else acquired

/-! ### Entries -/

/-- The days of a month. -/
def daysInMonth (year month : Int) : Int :=
  if month = 2 then
    if year % 4 = 0 ∧ (year % 100 ≠ 0 ∨ year % 400 = 0) then 29 else 28
  else if month = 4 ∨ month = 6 ∨ month = 9 ∨ month = 11 then 30
  else 31

/-- `f"{n:0width}"`. -/
def padded (width : ℕ) (n : Int) : Text :=
  List.replicate (width - (intStr n).length) '0' ++ intStr n

/-- `datetime(…, tzinfo=UTC).isoformat()`, if the constructor accepts the numbers. -/
def isoformat (year month day hour minute second : Int) : Option Text :=
  if 1 ≤ year ∧ year ≤ 9999 ∧ 1 ≤ month ∧ month ≤ 12 ∧ 1 ≤ day ∧ day ≤ daysInMonth year month ∧
      0 ≤ hour ∧ hour ≤ 23 ∧ 0 ≤ minute ∧ minute ≤ 59 ∧ 0 ≤ second ∧ second ≤ 59 then
    some (padded 4 year ++ '-' :: padded 2 month ++ '-' :: padded 2 day ++ 'T' :: padded 2 hour ++
      ':' :: padded 2 minute ++ ':' :: padded 2 second ++ "+00:00".toList)
  else none

/-- A list that is not empty, or the other one. -/
def orList (a b : Option (List Int)) : Option (List Int) :=
  match a with
  | some (x :: xs) => some (x :: xs)
  | _ => b

/-- `_entry_published`, printed; a leap second counts for the second before it. -/
def entryPublished (e : Entry) : Option Text :=
  match orList e.publishedParsed e.updatedParsed with
  | some (year :: month :: day :: hour :: minute :: second :: _) =>
    isoformat year month day hour minute (min second 59)
  | _ => none

/-- `value or ""`. -/
def orEmpty (value : Option Text) : Text := value.getD []

/-- `a or b`, for text. -/
def orText (a b : Option Text) : Option Text := if truthy a then a else b

/-- The arguments of `process_article.apply_async`. -/
structure Message where
  feedId : ℕ
  url : Text
  title : Text
  summary : Text
  body : Text
  guid : Text
  author : Option Text
  publishedAt : Option Text
  feedLanguage : Language
  deriving DecidableEq, Repr

/-- The link of an entry, resolved. -/
def entryUrl (u : UnicodeTables) (baseUrl : Text) (e : Entry) : Except Text Text :=
  if (orEmpty e.link).isEmpty then .ok [] else urljoin u baseUrl (orEmpty e.link)

/-- What is queued for an entry. -/
def message (u : UnicodeTables) (feed : Feed) (baseUrl : Text) (e : Entry) : Except Text Message :=
  (entryUrl u baseUrl e).map fun url =>
    { feedId := feed.id
      url := url
      title := orEmpty e.title
      summary := orEmpty e.summary
      body := orEmpty e.content.head?.join
      guid := orEmpty (orText e.id e.guid)
      author := e.author
      publishedAt := entryPublished e
      feedLanguage := feed.language }

/-- The loop over the entries: what it queues, and the `ValueError` that ends it
early. -/
def queueEntries (u : UnicodeTables) (feed : Feed) (baseUrl : Text) :
    List Entry → List Message × Except Text Unit
  | [] => ([], .ok ())
  | e :: rest =>
    match message u feed baseUrl e with
    | .error m => ([], .error m)
    | .ok queued =>
      let tail := queueEntries u feed baseUrl rest
      (queued :: tail.1, tail.2)

/-! ### The row -/

/-- What `fetch_feed` returns. -/
inductive Report
  | gone
  | rateLimited
  | status (status : FeedStatus)
  | fetched (entries : ℕ)
  deriving DecidableEq, Repr

/-- The end of `fetch_feed`: the row in memory, the columns that are saved, and
what is returned. -/
structure Ending where
  copy : Feed
  fields : List Column
  report : Report
  deriving DecidableEq, Repr

/-- `_record_failure`. -/
def recordFailure (w : World) (feed : Feed) (status : FeedStatus) : Ending :=
  let errors := feed.consecutiveErrors + 1
  { copy :=
      { feed with
        lastStatus := some status
        consecutiveErrors := errors
        nextFetchAt := nextAttemptAt feed.intervalSeconds errors w.failedAt w.jitter
        disabledUntil :=
          if shouldDisable errors then some (disabledUntil w.pausedAt) else feed.disabledUntil }
    fields := [.lastStatus, .lastFetchedAt, .consecutiveErrors, .nextFetchAt, .disabledUntil]
    report := .status status }

/-- `_follow_permanent_redirect`: the URL the feed moves to.  `checked` is the
table that is asked for another feed with it.  A query for a URL with a NUL is refused as
the save of it is, so here it only fails there. -/
def followPermanentRedirect (t : HostTables) (checked : List Feed) (feed : Feed)
    (result : FetchResult) : Option Text :=
  match result.permanentUrl with
  | none => none
  | some url =>
    match canonicalUrl t url with
    | .error _ => none
    | .ok newUrl =>
      if url.isEmpty || newUrl = feed.url || maxUrlChars < newUrl.length ||
          checked.any fun r => r.url = newUrl then none
      else some newUrl

/-- The columns of a move. -/
def movedFields (moved : Option Text) : List Column := if moved.isSome then [.url] else []

/-- A 304: the feed is as it was. -/
def notModified (t : HostTables) (checked : List Feed) (feed : Feed) (result : FetchResult) :
    Ending :=
  let moved := followPermanentRedirect t checked feed result
  { copy :=
      { feed with
        url := moved.getD feed.url
        lastStatus := some .notModified
        consecutiveErrors := 0
        disabledUntil := none }
    fields := movedFields moved ++ [.lastStatus, .lastFetchedAt, .consecutiveErrors, .disabledUntil]
    report := .status .notModified }

/-- The site URL that the feed names, if it is a link. -/
def siteUrlOf (parsed : Parsed) (feed : Feed) : Text :=
  let siteUrl := orEmpty parsed.link
  if startsWith "https://".toList siteUrl || startsWith "http://".toList siteUrl then
    siteUrl.take maxUrlChars
  else feed.siteUrl

/-- A 200 whose entries are queued, and whose title `plain_text` has read. -/
def fetched (s : FetchSettings) (checked : List Feed) (feed : Feed) (result : FetchResult)
    (parsed : Parsed) (title : Text) : Ending :=
  let moved := followPermanentRedirect s.hosts checked feed result
  { copy :=
      { feed with
        url := moved.getD feed.url
        title := if title.isEmpty then feed.title else title
        siteUrl := siteUrlOf parsed feed
        etag := orText result.etag feed.etag
        lastModified := orText result.lastModified feed.lastModified
        lastStatus := some .ok
        consecutiveErrors := 0
        disabledUntil := none }
    fields := movedFields moved ++ [.title, .siteUrl, .etag, .lastModified, .lastStatus,
      .lastFetchedAt, .consecutiveErrors, .disabledUntil]
    report := .fetched (min parsed.entries.length s.maxEntriesPerFetch) }

/-- `UTF8_BOM`. -/
def utf8Bom : Bytes := [0xef, 0xbb, 0xbf]

/-- `body.removeprefix(UTF8_BOM)`. -/
def removeBom (body : Bytes) : Bytes :=
  if utf8Bom.isPrefixOf body then body.drop utf8Bom.length else body

/-- What leaves the task as an exception. -/
inductive TaskError
  | request (e : RequestError)
  | save (e : SaveError)
  deriving DecidableEq, Repr

/-- The document that a body is. -/
def World.document (w : World) (result : FetchResult) (body : Bytes) : Parsed :=
  w.parse (removeBom body) (if truthy result.contentType then result.contentType else none)

/-- The URL that entry links are relative to. -/
def baseUrl (feed : Feed) (result : FetchResult) : Text :=
  orEmpty (orText result.url (some feed.url))

/-- A document that is a feed: its entries are queued, and then its outcome is saved. -/
def queueFeed (s : FetchSettings) (w : World) (checked : List Feed) (feed : Feed)
    (result : FetchResult) (parsed : Parsed) : List Message × Except TaskError Ending :=
  match queueEntries s.hosts.unicode feed (baseUrl feed result)
      (parsed.entries.take s.maxEntriesPerFetch) with
  | (queued, .error m) => (queued, .error (.request (.valueError m)))
  | (queued, .ok ()) =>
    match Normalizer.plainText w.html parsed.title 500 with
    | .error m => (queued, .error (.request (.valueError m)))
    | .ok title => (queued, .ok (fetched s checked feed result parsed title))

/-- `fetch_feed` from the `FetchResult` on: what is queued, and the end. -/
def conclude (s : FetchSettings) (w : World) (checked : List Feed) (feed : Feed)
    (result : FetchResult) : List Message × Except TaskError Ending :=
  if result.status = .notModified then ([], .ok (notModified s.hosts checked feed result))
  else
    match result.body with
    | none => ([], .ok (recordFailure w feed result.status))
    | some body =>
      if result.status ≠ .ok then ([], .ok (recordFailure w feed result.status))
      else
        let parsed := w.document result body
        if parsed.bozo && parsed.entries.isEmpty then
          ([], .ok (recordFailure w feed .parseError))
        else queueFeed s w checked feed result parsed

/-! ### The task -/

/-- robots.txt does not allow the fetch. -/
def robotsBlocked (w : World) (feed : Feed) : Ending where
  copy := { feed with lastStatus := some .robotsBlocked, lastFetchedAt := some w.fetchedAt }
  fields := [.lastStatus, .lastFetchedAt]
  report := .status .robotsBlocked

/-- Another feed of the host was fetched just now. -/
def rateLimited (s : FetchSettings) (w : World) (feed : Feed) : Ending where
  copy :=
    { feed with nextFetchAt := w.fetchedAt + timedelta (s.perDomainMinInterval * w.spread) }
  fields := [.nextFetchAt]
  report := .rateLimited

/-- `fetch_feed` between loading the row and saving it. -/
def crawl (s : FetchSettings) (w : World) (checked : List Feed) (feed : Feed) :
    List Message × Except TaskError Ending :=
  match Robots.isAllowed s.toSettings w.robotsNet w.cachedRobots feed.url with
  | .error e => ([], .error (.request e))
  | .ok (false, _) => ([], .ok (robotsBlocked w feed))
  | .ok (true, _) =>
    match tryAcquire s.hosts.unicode w.acquired feed.url with
    | .error m => ([], .error (.request (.valueError m)))
    | .ok false => ([], .ok (rateLimited s w feed))
    | .ok true =>
      match fetch s w.net feed.url feed.etag feed.lastModified with
      | .error e => ([], .error (.request e))
      | .ok result => conclude s w checked { feed with lastFetchedAt := some w.fetchedAt } result

/-- The columns without the URL. -/
def stayFields (fields : List Column) : List Column := fields.filter fun c => c ≠ .url

/-- `_save`.  Without the URL among the columns it is a plain save. -/
def save (copy : Feed) (fields : List Column) (rows : List Feed) :
    Except SaveError (List Feed) :=
  match saveFields copy fields rows with
  | .error .integrityError =>
    -- another feed moved to the URL, so this one stays where it was
    match rows.find? fun r => r.id = copy.id with
    | none => .error .noRow
    | some row => saveFields { copy with url := row.url } (stayFields fields) rows
  | r => r

/-- The row that `fetch_feed` loads. -/
def loadFeed (id : ℕ) (rows : List Feed) : Option Feed :=
  rows.find? fun r => r.id = id && !r.isDeleted && r.isActive

/-- What a run of `fetch_feed` did: the messages it queued, the table then, and
what it returned or raised. -/
structure TaskRun where
  queued : List Message
  rows : List Feed
  outcome : Except TaskError Report

/-- `fetch_feed` with a loaded row.  `checked` and `stored` are the tables it finds
when it looks for another feed with its URL, and when it saves. -/
def fetchLoaded (s : FetchSettings) (w : World) (feed : Feed) (checked stored : List Feed) :
    TaskRun :=
  match crawl s w checked feed with
  | (queued, .error e) => ⟨queued, stored, .error e⟩
  | (queued, .ok ending) =>
    match save ending.copy ending.fields stored with
    | .error e => ⟨queued, stored, .error (.save e)⟩
    | .ok rows => ⟨queued, rows, .ok ending.report⟩

/-- `fetch_feed`, with nobody else at the table meanwhile. -/
def fetchFeed (s : FetchSettings) (w : World) (id : ℕ) (rows : List Feed) : TaskRun :=
  match loadFeed id rows with
  | none => ⟨[], rows, .ok .gone⟩
  | some feed => fetchLoaded s w feed rows rows

/-! ### What `save` writes -/

/-- A move only writes the URL. -/
theorem notMem_movedFields {moved : Option Text} {c : Column} (hc : c ≠ .url) :
    c ∉ movedFields moved := by
  rw [movedFields]
  split
  · simpa using hc
  · exact List.not_mem_nil

theorem url_notMem_stayFields (fields : List Column) : Column.url ∉ stayFields fields := by
  intro h
  simpa using (List.mem_filter.mp h).2

theorem mem_stayFields {fields : List Column} {c : Column} (hc : c ≠ .url) :
    c ∈ stayFields fields ↔ c ∈ fields := by
  rw [stayFields, List.mem_filter]
  simp [hc]

/-- A save that does not name the URL does not read it. -/
theorem write_of_url_notMem {copy : Feed} {fields : List Column} (h : .url ∉ fields) (url : Text) :
    ({ copy with url := url } : Feed).write fields = copy.write fields := by
  funext row
  rw [Feed.write, Feed.write, if_neg h, if_neg h]

theorem any_id_of_exists {id : ℕ} {rows : List Feed} (hrow : ∃ row ∈ rows, row.id = id) :
    (rows.any fun r => r.id == id) = true := by
  obtain ⟨row, hmem, hid⟩ := hrow
  exact List.any_eq_true.mpr ⟨row, hmem, by simpa using hid⟩

theorem saveFields_eq_ok {copy : Feed} {fields : List Column} {rows : List Feed}
    (hstorable : copy.storable fields = true) (hrow : ∃ row ∈ rows, row.id = copy.id)
    (hfree : .url ∈ fields → taken copy.id copy.url rows = false) :
    saveFields copy fields rows =
      .ok (updateWhere (fun r => r.id == copy.id) (copy.write fields) rows) := by
  rw [saveFields, hstorable, any_id_of_exists hrow, Bool.not_true, if_neg Bool.false_ne_true,
    if_neg Bool.false_ne_true, if_neg]
  rintro ⟨hurl, ht⟩
  rw [hfree hurl] at ht
  cases ht

theorem saveFields_eq_error {copy : Feed} {fields : List Column} {rows : List Feed}
    (hstorable : copy.storable fields = true) (hrow : ∃ row ∈ rows, row.id = copy.id)
    (htaken : .url ∈ fields ∧ taken copy.id copy.url rows = true) :
    saveFields copy fields rows = .error .integrityError := by
  rw [saveFields, hstorable, any_id_of_exists hrow, Bool.not_true, if_neg Bool.false_ne_true,
    if_neg Bool.false_ne_true, if_pos htaken]

/-- A NUL in a column that is named. -/
theorem save_eq_dataError {copy : Feed} {fields : List Column} (rows : List Feed)
    (hstorable : copy.storable fields = false) :
    save copy fields rows = .error .dataError := by
  have hfields : saveFields copy fields rows = .error .dataError := by
    rw [saveFields, hstorable, Bool.not_false, if_pos rfl]
  rw [save, hfields]

theorem storable_iff {copy : Feed} {fields : List Column} :
    copy.storable fields = true ↔ ∀ c ∈ fields, '\x00' ∉ copy.textOf c := by
  simp [Feed.storable]

/-- Only the column of the URL holds it. -/
theorem storable_of_url_notMem (copy : Feed) {fields : List Column} (h : .url ∉ fields)
    (url : Text) : ({ copy with url := url } : Feed).storable fields = copy.storable fields := by
  have hsame : ∀ c ∈ fields, ({ copy with url := url } : Feed).textOf c = copy.textOf c := by
    intro c hc
    cases c with
    | url => exact absurd hc h
    | _ => rfl
  rw [Bool.eq_iff_iff, storable_iff, storable_iff]
  exact forall₂_congr fun c hc => by rw [hsame c hc]

theorem storable_stayFields {copy : Feed} {fields : List Column} (url : Text)
    (h : copy.storable fields = true) :
    ({ copy with url := url } : Feed).storable (stayFields fields) = true := by
  rw [storable_of_url_notMem copy (url_notMem_stayFields fields), storable_iff]
  exact fun c hc => storable_iff.mp h c (List.mem_of_mem_filter hc)

/-- The columns `_save` writes: not the URL, if another feed has it. -/
def savedFields (copy : Feed) (fields : List Column) (rows : List Feed) : List Column :=
  if .url ∈ fields ∧ taken copy.id copy.url rows then stayFields fields else fields

theorem mem_savedFields {copy : Feed} {fields : List Column} {rows : List Feed} {c : Column}
    (hc : c ≠ .url) : c ∈ savedFields copy fields rows ↔ c ∈ fields := by
  rw [savedFields]
  split
  · exact mem_stayFields hc
  · exact Iff.rfl

/-- **`_save` succeeds** while the row is there, if what it names can be stored. -/
theorem save_eq_ok {copy : Feed} {fields : List Column} {rows : List Feed}
    (hstorable : copy.storable fields = true) (hrow : ∃ row ∈ rows, row.id = copy.id) :
    save copy fields rows =
      .ok (updateWhere (fun r => r.id == copy.id)
        (copy.write (savedFields copy fields rows)) rows) := by
  rw [save, savedFields]
  by_cases htaken : .url ∈ fields ∧ taken copy.id copy.url rows = true
  · -- the first save fails, the second one leaves the URL out
    obtain ⟨own, hown⟩ : ∃ own, (rows.find? fun r => r.id = copy.id) = some own := by
      obtain ⟨row, hmem, hid⟩ := hrow
      exact Option.isSome_iff_exists.mp (List.find?_isSome.mpr ⟨row, hmem, by simpa using hid⟩)
    rw [saveFields_eq_error hstorable hrow htaken, if_pos htaken]
    simp only [hown]
    have hnoUrl : .url ∈ stayFields fields → taken copy.id own.url rows = false :=
      fun h => absurd h (url_notMem_stayFields fields)
    have hstay : saveFields { copy with url := own.url } (stayFields fields) rows = _ :=
      saveFields_eq_ok (storable_stayFields own.url hstorable) hrow hnoUrl
    rw [write_of_url_notMem (url_notMem_stayFields fields)] at hstay
    exact hstay
  · rw [if_neg htaken, saveFields_eq_ok hstorable hrow]
    intro hurl
    by_contra ht
    exact htaken ⟨hurl, by simpa using ht⟩

end Feeds
