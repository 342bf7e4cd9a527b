/-
The entries of a downloaded feed (`fetch_feed`).

`urljoin` raises for a link that it cannot split, in the middle of the loop over
the entries.  Behind the loop `plain_text` may raise for the title of the feed, and the
database refuses a text with a NUL.

* `LinksSplit` — every link that is resolved can be split;
* `Savable`, `MoveStorable` — the title can be read, and what is saved has no NUL;
* `queueEntries_ok`, `crawl_isFeed` — the loop, and the end behind it;
* `fetch_cases`, `fetch_ok` — a result tells of a response or of a failure, and a
  downloaded document has a base URL that can be split.

Main results: `queues_every_entry_iff` (one message for each entry exactly if the links
can be split, and the outcome saved exactly if it can be saved too) and
`bad_link_stops_the_feed`.
-/
import Newsforge.FeedFetch
import Newsforge.RequestErrors

open PyText UrlParse SafeHttp Tables

namespace Feeds

variable {s : FetchSettings} {w : World} {feed : Feed} {checked stored : List Feed}
  {result : FetchResult} {body : Bytes}

/-! ### The loop -/

/-- Every link that is resolved can be split. -/
def LinksSplit (s : FetchSettings) (parsed : Parsed) : Prop :=
  ∀ e ∈ parsed.entries.take s.maxEntriesPerFetch, orEmpty e.link ≠ [] →
    Splits s.hosts.unicode (orEmpty e.link)

/-- A URL that the feed moves to can be stored. -/
def MoveStorable (s : FetchSettings) (checked : List Feed) (feed : Feed) (result : FetchResult) :
    Prop :=
  ∀ url, followPermanentRedirect s.hosts checked feed result = some url → '\x00' ∉ url

/-- The title of the feed can be read, and neither it nor the other texts that are saved
with it have a NUL. -/
structure Savable (w : World) (feed : Feed) (result : FetchResult) (parsed : Parsed) : Prop where
  title : ∃ title, Normalizer.plainText w.html parsed.title 500 = .ok title ∧
    '\x00' ∉ if title.isEmpty then feed.title else title
  siteUrl : '\x00' ∉ siteUrlOf parsed feed
  etag : '\x00' ∉ orEmpty (orText result.etag feed.etag)
  lastModified : '\x00' ∉ orEmpty (orText result.lastModified feed.lastModified)

/-- Only a link that cannot be split keeps an entry from its message. -/
theorem message_ok {u : UnicodeTables} {base : Text} {e : Entry} (hne : base ≠ [])
    (hbase : Splits u base) :
    (∃ m, message u feed base e = .ok m) ↔ (orEmpty e.link ≠ [] → Splits u (orEmpty e.link)) := by
  rw [message, entryUrl]
  by_cases hlink : orEmpty e.link = []
  · rw [if_pos (List.isEmpty_iff.mpr hlink)]
    exact iff_of_true ⟨_, rfl⟩ fun h => absurd hlink h
  · rw [if_neg (mt List.isEmpty_iff.mp hlink)]
    have hjoin := urljoin_eq_ok (u := u) hne hlink
    cases hj : urljoin u base (orEmpty e.link) with
    | error m =>
      refine iff_of_false ?_ fun h => ?_
      · rintro ⟨queued, hqueued⟩
        cases hqueued
      · obtain ⟨v, hv⟩ := hjoin.mpr ⟨hbase, h hlink⟩
        rw [hj] at hv
        cases hv
    | ok v => exact iff_of_true ⟨_, rfl⟩ fun _ => (hjoin.mp ⟨v, hj⟩).2

/-- The loop comes to its end if every entry has a message, and then has queued
these messages in order. -/
theorem queueEntries_ok {u : UnicodeTables} {base : Text} {entries : List Entry} :
    (queueEntries u feed base entries).2 = .ok () ↔
      List.Forall₂ (fun e m => message u feed base e = .ok m) entries
        (queueEntries u feed base entries).1 := by
  induction entries with
  | nil => exact iff_of_true rfl .nil
  | cons e rest ih =>
    rw [queueEntries]
    cases hm : message u feed base e with
    | error m =>
      refine iff_of_false (fun h => ?_) (fun h => ?_)
      · cases h
      · cases h
    | ok m =>
      refine ih.trans ⟨fun h => .cons hm h, fun h => ?_⟩
      cases h with
      | cons _ h => exact h

theorem queueEntries_ok_iff {u : UnicodeTables} {base : Text} {entries : List Entry} :
    (queueEntries u feed base entries).2 = .ok () ↔
      ∀ e ∈ entries, ∃ m, message u feed base e = .ok m := by
  induction entries with
  | nil => exact iff_of_true rfl fun e he => absurd he List.not_mem_nil
  | cons e rest ih =>
    rw [queueEntries, List.forall_mem_cons]
    cases hm : message u feed base e with
    | error m =>
      refine iff_of_false (fun h => ?_) ?_
      · cases h
      · rintro ⟨⟨queued, hqueued⟩, -⟩
        cases hqueued
    | ok m => exact ih.trans ⟨fun h => ⟨⟨m, rfl⟩, h⟩, fun h => h.2⟩

/-! ### A downloaded document -/

/-- A documented failure of the request is a failed fetch; others leave `fetch`. -/
theorem resultOfEnd_error (etag lastModified : Option Text) (e : RequestError) :
    (Documented false e ∧ ∃ status, status.isFailure = true ∧
        resultOfEnd etag lastModified (.error e) = .ok (.failed status none)) ∨
      ¬ Documented false e ∧ resultOfEnd etag lastModified (.error e) = .error e := by
  cases e with
  | unsafeUrl m => exact .inl ⟨.unsafeUrl m, .ssrfBlocked, rfl, rfl⟩
  | deadlineExceeded url => exact .inl ⟨.deadlineExceeded url, .networkError, rfl, rfl⟩
  | client e =>
    cases e with
    | httpError m => exact .inl ⟨.httpError m, .networkError, rfl, rfl⟩
    | other m => exact .inr ⟨(fun h => by cases h), rfl⟩
  | body e =>
    cases e with
    | responseTooLarge => exact .inl ⟨.responseTooLarge rfl, .tooLarge, rfl, rfl⟩
    | deadlineExceeded => exact .inl ⟨.bodyDeadline, .networkError, rfl, rfl⟩
    | client e =>
      cases e with
      | httpError m => exact .inl ⟨.bodyHttpError m, .networkError, rfl, rfl⟩
      | other m => exact .inr ⟨(fun h => by cases h), rfl⟩
  | valueError m => exact .inr ⟨(fun h => by cases h), rfl⟩
  | assertionError => exact .inr ⟨(fun h => by cases h), rfl⟩

/-- A `FetchResult` tells of a response or of a failure. -/
theorem fetch_cases {net : Internet} {url : Text} {etag lastModified : Option Text}
    (h : fetch s net url etag lastModified = .ok result) :
    (∃ resp, (request s.hosts s.is net (fetchOptions s etag lastModified) "GET".toList url
        none).2 = .ok resp ∧ result = resultOf etag lastModified resp) ∨
      ∃ status, status.isFailure = true ∧ result = .failed status none := by
  rw [fetch] at h
  cases hr : (request s.hosts s.is net (fetchOptions s etag lastModified) "GET".toList url
      none).2 with
  | error e =>
    rw [hr] at h
    rcases resultOfEnd_error etag lastModified e with
      ⟨-, status, hfailure, hfail⟩ | ⟨-, hfail⟩
    · rw [hfail] at h
      cases h
      exact .inr ⟨status, hfailure, rfl⟩
    · rw [hfail] at h
      cases h
  | ok resp =>
    rw [hr] at h
    cases h
    exact .inl ⟨resp, rfl, rfl⟩

/-- A fetch succeeds or fails. -/
theorem fetch_status {net : Internet} {url : Text} {etag lastModified : Option Text}
    (h : fetch s net url etag lastModified = .ok result) :
    result.status = .ok ∨ result.status = .notModified ∨ result.status.isFailure = true := by
  rcases fetch_cases h with ⟨resp, -, rfl⟩ | ⟨status, hfailure, rfl⟩
  · rw [resultOf]
    split
    · exact .inr (.inl rfl)
    · split
      · exact .inr (.inr rfl)
      · exact .inl rfl
  · exact .inr (.inr hfailure)

/-- A download is a response with a status below 300. -/
theorem fetch_downloaded {net : Internet} {url : Text} {etag lastModified : Option Text}
    (h : fetch s net url etag lastModified = .ok result) (hok : result.status = .ok) :
    ∃ resp, (request s.hosts s.is net (fetchOptions s etag lastModified) "GET".toList url
        none).2 = .ok resp ∧ result = resultOf etag lastModified resp ∧
      result = ⟨.ok, some resp.statusCode, some resp.content,
        headerGet "etag".toList resp.headers, headerGet "last-modified".toList resp.headers,
        some resp.url, resp.permanentUrl, headerGet "content-type".toList resp.headers⟩ := by
  rcases fetch_cases h with ⟨resp, hresp, rfl⟩ | ⟨status, hfailure, rfl⟩
  · refine ⟨resp, hresp, rfl, ?_⟩
    rw [resultOf] at hok ⊢
    split at hok
    · cases hok
    · rename_i h304
      split at hok
      · cases hok
      · rename_i h300
        rw [if_neg h304, if_neg h300]
  · rw [show status = .ok from hok] at hfailure
    cases hfailure

variable (feed) in
/-- A downloaded document has a body, and a base URL that can be split. -/
theorem fetch_ok {net : Internet} {url : Text} {etag lastModified : Option Text}
    (h : fetch s net url etag lastModified = .ok result) (hok : result.status = .ok) :
    (∃ body, result.body = some body) ∧ baseUrl feed result ≠ [] ∧
      Splits s.hosts.unicode (baseUrl feed result) := by
  obtain ⟨resp, hresp, -, rfl⟩ := fetch_downloaded h hok
  obtain ⟨hne, hsplit⟩ := request_url hresp
  have hbase : baseUrl feed ⟨.ok, some resp.statusCode, some resp.content,
      headerGet "etag".toList resp.headers, headerGet "last-modified".toList resp.headers,
      some resp.url, resp.permanentUrl, headerGet "content-type".toList resp.headers⟩ =
      resp.url := by
    rw [baseUrl, orText, truthy, List.isEmpty_eq_false_iff.mpr hne]
    rfl
  rw [hbase]
  exact ⟨⟨resp.content, rfl⟩, hne, hsplit⟩

/-- robots.txt allows the fetch, and no other feed of the host was fetched just
now. -/
structure Permitted (s : FetchSettings) (w : World) (feed : Feed) : Prop where
  allowed : ∃ policy, Robots.isAllowed s.toSettings w.robotsNet w.cachedRobots feed.url =
    .ok (true, policy)
  acquired : tryAcquire s.hosts.unicode w.acquired feed.url = .ok true

variable (checked) in
/-- With permission, the fetch decides. -/
theorem crawl_of_fetch (hperm : Permitted s w feed)
    (hfetch : fetch s w.net feed.url feed.etag feed.lastModified = .ok result) :
    crawl s w checked feed =
      conclude s w checked { feed with lastFetchedAt := some w.fetchedAt } result := by
  obtain ⟨policy, hallowed⟩ := hperm.allowed
  rw [crawl, hallowed]
  dsimp only
  rw [hperm.acquired]
  dsimp only
  rw [hfetch]

/-- A document that is a feed: it has entries, or it is not malformed. -/
def IsFeed (parsed : Parsed) : Prop := parsed.bozo = false ∨ parsed.entries ≠ []

theorem conclude_of_isFeed (hok : result.status = .ok) (hbody : result.body = some body)
    (hfeed : IsFeed (w.document result body)) :
    conclude s w checked feed result =
      queueFeed s w checked feed result (w.document result body) := by
  have hparsed : ((w.document result body).bozo && (w.document result body).entries.isEmpty) =
      false := by
    rcases hfeed with h | h
    · rw [h, Bool.false_and]
    · rw [List.isEmpty_eq_false_iff.mpr h, Bool.and_false]
  rw [conclude, hbody, if_neg (by rw [hok]; decide)]
  simp only [hok, hparsed, ne_eq, not_true_eq_false, if_false, Bool.false_eq_true]

/-- A malformed document without entries. -/
theorem conclude_of_not_isFeed (hok : result.status = .ok) (hbody : result.body = some body)
    (hfeed : ¬ IsFeed (w.document result body)) :
    conclude s w checked feed result = ([], .ok (recordFailure w feed .parseError)) := by
  rw [IsFeed, not_or, not_not, Bool.not_eq_false] at hfeed
  rw [conclude, hbody, if_neg (by rw [hok]; decide)]
  simp only [hok, hfeed.1, hfeed.2, ne_eq, not_true_eq_false, if_false, List.isEmpty_nil,
    Bool.and_self, if_true]

/-- A fetch that failed. -/
theorem conclude_of_failure (hok : result.status ≠ .ok) (h304 : result.status ≠ .notModified) :
    conclude s w checked feed result = ([], .ok (recordFailure w feed result.status)) := by
  rw [conclude, if_neg h304]
  cases result.body with
  | none => rfl
  | some body => exact if_pos hok

variable (checked) in
/-- **A document that is a feed**: all its messages are queued exactly if its links can be
split, and if its title can be read too the end is reached; otherwise a `ValueError` ends
the task. -/
theorem crawl_isFeed (hperm : Permitted s w feed)
    (hfetch : fetch s w.net feed.url feed.etag feed.lastModified = .ok result)
    (hok : result.status = .ok) (hbody : result.body = some body)
    (hfeed : IsFeed (w.document result body)) :
    ∃ queued, (List.Forall₂
          (fun e m => message s.hosts.unicode feed (baseUrl feed result) e = .ok m)
          ((w.document result body).entries.take s.maxEntriesPerFetch) queued ↔
        LinksSplit s (w.document result body)) ∧
      ((∃ title, LinksSplit s (w.document result body) ∧
          Normalizer.plainText w.html (w.document result body).title 500 = .ok title ∧
          crawl s w checked feed = (queued, .ok (fetched s checked
            { feed with lastFetchedAt := some w.fetchedAt } result (w.document result body)
            title))) ∨
        ¬ (LinksSplit s (w.document result body) ∧
          ∃ title, Normalizer.plainText w.html (w.document result body).title 500 = .ok title) ∧
        ∃ m, crawl s w checked feed = (queued, .error (.request (.valueError m)))) := by
  set now : Feed := { feed with lastFetchedAt := some w.fetchedAt } with hnow
  obtain ⟨-, hne, hbase⟩ := fetch_ok feed hfetch hok
  have hmessages : LinksSplit s (w.document result body) ↔
      (queueEntries s.hosts.unicode now (baseUrl now result)
        ((w.document result body).entries.take s.maxEntriesPerFetch)).2 = .ok () := by
    rw [queueEntries_ok_iff]
    exact forall₂_congr fun e _ => (message_ok hne hbase).symm
  rw [crawl_of_fetch checked hperm hfetch, conclude_of_isFeed hok hbody hfeed, queueFeed]
  have hall := queueEntries_ok.symm.trans hmessages.symm
  cases hq : queueEntries s.hosts.unicode now (baseUrl now result)
    ((w.document result body).entries.take s.maxEntriesPerFetch) with
  | mk queued loop =>
    rw [hq] at hmessages hall
    refine ⟨queued, hall, ?_⟩
    cases loop with
    | error m =>
      refine .inr ⟨fun h => ?_, m, rfl⟩
      have hend := hmessages.mp h.1
      cases hend
    | ok _ =>
      dsimp only
      cases htitle : Normalizer.plainText w.html (w.document result body).title 500 with
      | error m =>
        refine .inr ⟨?_, m, rfl⟩
        rintro ⟨-, title, h⟩
        cases h
      | ok title => exact .inl ⟨title, hmessages.mpr rfl, rfl, rfl⟩

/-! ### What is saved -/

/-- What a save has put into the rows with the id. -/
theorem mem_updateWhere_id {id : ℕ} {f : Feed → Feed} {rows : List Feed} {row : Feed}
    (hrow : row ∈ updateWhere (fun r => r.id == id) f rows) (hid : row.id = id) :
    ∃ r ∈ rows, r.id = id ∧ row = f r := by
  obtain ⟨r, hr, rfl⟩ := mem_updateWhere.mp hrow
  by_cases hk : r.id = id
  · exact ⟨r, hr, hk, by simp [hk]⟩
  · simp only [beq_iff_eq, if_neg hk] at hid
    exact absurd hid hk

theorem exists_write_id {id : ℕ} {copy : Feed} {fields : List Column} {rows : List Feed}
    (hrow : ∃ row ∈ rows, row.id = id) :
    ∃ row ∈ updateWhere (fun r => r.id == id) (copy.write fields) rows, row.id = id := by
  obtain ⟨row, hmem, hid⟩ := hrow
  exact ⟨copy.write fields row, mem_updateWhere_of hmem (by simpa using hid), hid⟩

/-- What was queued stays queued, whatever becomes of the save. -/
theorem fetchLoaded_queued :
    (fetchLoaded s w feed checked stored).queued = (crawl s w checked feed).1 := by
  rw [fetchLoaded]
  split
  · rename_i hcrawl
    rw [hcrawl]
  · rename_i hcrawl
    rw [hcrawl]
    split <;> rfl

/-- A run that comes to an end saves its columns, the URL only if no other feed has
it. -/
theorem fetchLoaded_of_ending {queued : List Message} {ending : Ending}
    (hcrawl : crawl s w checked feed = (queued, .ok ending)) (hid : ending.copy.id = feed.id)
    (hstorable : ending.copy.storable ending.fields = true)
    (hrow : ∃ row ∈ stored, row.id = feed.id) :
    fetchLoaded s w feed checked stored =
      ⟨queued, updateWhere (fun r => r.id == feed.id)
        (ending.copy.write (savedFields ending.copy ending.fields stored)) stored,
        .ok ending.report⟩ := by
  rw [← hid] at hrow ⊢
  rw [fetchLoaded, hcrawl]
  dsimp only
  rw [save_eq_ok hstorable hrow]

/-- A text with a NUL is not saved, and nothing else is. -/
theorem fetchLoaded_of_unstorable {queued : List Message} {ending : Ending}
    (hcrawl : crawl s w checked feed = (queued, .ok ending))
    (hstorable : ending.copy.storable ending.fields = false) :
    fetchLoaded s w feed checked stored = ⟨queued, stored, .error (.save .dataError)⟩ := by
  rw [fetchLoaded, hcrawl]
  dsimp only
  rw [save_eq_dataError stored hstorable]

/-- The URL among the columns of a move. -/
theorem forall_movedFields {copy : Feed} {moved : Option Text} (hurl : ∀ x ∈ moved, copy.url = x) :
    (∀ c ∈ movedFields moved, '\x00' ∉ copy.textOf c) ↔ ∀ url, moved = some url → '\x00' ∉ url := by
  cases moved with
  | none => simp [movedFields]
  | some url => simp [movedFields, Feed.textOf, hurl url rfl]

variable (s checked feed result) in
/-- A feed whose title was read can be saved exactly if its ending can be stored. -/
theorem storable_fetched_iff {parsed : Parsed} {title : Text}
    (htitle : Normalizer.plainText w.html parsed.title 500 = .ok title) :
    (fetched s checked feed result parsed title).copy.storable
        (fetched s checked feed result parsed title).fields = true ↔
      Savable w feed result parsed ∧ MoveStorable s checked feed result := by
  have htexts : (∀ c ∈ [Column.title, .siteUrl, .etag, .lastModified, .lastStatus, .lastFetchedAt,
      .consecutiveErrors, .disabledUntil],
      '\x00' ∉ (fetched s checked feed result parsed title).copy.textOf c) ↔
      Savable w feed result parsed := by
    simp only [List.forall_mem_cons, List.not_mem_nil, Feed.textOf, not_false_eq_true, and_true,
      false_implies, implies_true, fetched]
    constructor
    · rintro ⟨hnul, hsite, hetag, hlast⟩
      exact ⟨⟨title, htitle, hnul⟩, hsite, hetag, hlast⟩
    · rintro ⟨⟨title', htitle', hnul⟩, hsite, hetag, hlast⟩
      rw [htitle, Except.ok.injEq] at htitle'
      subst htitle'
      exact ⟨hnul, hsite, hetag, hlast⟩
  have hmoved : (∀ c ∈ movedFields (followPermanentRedirect s.hosts checked feed result),
      '\x00' ∉ (fetched s checked feed result parsed title).copy.textOf c) ↔
      MoveStorable s checked feed result :=
    forall_movedFields fun x hx => by
      rw [fetched, Option.mem_def.mp hx]
      rfl
  rw [storable_iff, ← htexts, ← hmoved, and_comm, ← List.forall_mem_append]
  rfl

variable (checked stored) in
/-- **The end of a document that is a feed**: it is about to be saved, and can be, or an
exception leaves the task. -/
theorem fetchLoaded_isFeed (hperm : Permitted s w feed)
    (hfetch : fetch s w.net feed.url feed.etag feed.lastModified = .ok result)
    (hok : result.status = .ok) (hbody : result.body = some body)
    (hfeed : IsFeed (w.document result body)) :
    (LinksSplit s (w.document result body) ∧ Savable w feed result (w.document result body) ∧
        MoveStorable s checked feed result) ∧
      (∃ queued title, crawl s w checked feed = (queued, .ok (fetched s checked
          { feed with lastFetchedAt := some w.fetchedAt } result (w.document result body) title)) ∧
        (fetched s checked { feed with lastFetchedAt := some w.fetchedAt } result
          (w.document result body) title).copy.storable (fetched s checked
          { feed with lastFetchedAt := some w.fetchedAt } result (w.document result body)
          title).fields = true) ∨
    ¬ (LinksSplit s (w.document result body) ∧ Savable w feed result (w.document result body) ∧
        MoveStorable s checked feed result) ∧
      ∃ e, (fetchLoaded s w feed checked stored).outcome = .error e := by
  obtain ⟨queued, -, ⟨title, hlinks, htitle, hcrawl⟩ | ⟨hno, m, hcrawl⟩⟩ :=
    crawl_isFeed checked hperm hfetch hok hbody hfeed
  · have hsavable := storable_fetched_iff s feed checked result htitle
    cases hstorable : (fetched s checked { feed with lastFetchedAt := some w.fetchedAt } result
      (w.document result body) title).copy.storable (fetched s checked
      { feed with lastFetchedAt := some w.fetchedAt } result (w.document result body)
      title).fields with
    | false =>
      -- the save is refused as a whole
      refine .inr ⟨fun h => ?_, .save .dataError, ?_⟩
      · have hstored := hstorable.symm.trans (hsavable.mpr h.2)
        cases hstored
      · rw [fetchLoaded_of_unstorable hcrawl hstorable]
    | true => exact .inl ⟨⟨hlinks, hsavable.mp hstorable⟩, queued, title, hcrawl, hstorable⟩
  · -- the `ValueError` leaves the task before anything is saved
    refine .inr ⟨fun h => ?_, .request (.valueError m), ?_⟩
    · obtain ⟨title, htitle, -⟩ := h.2.1.title
      exact hno ⟨h.1, title, htitle⟩
    · rw [fetchLoaded, hcrawl]

/-- A column of the ending that is not the URL has its value in the saved row. -/
theorem mem_savedFields_of_mem {ending : Ending} {c : Column} (hmem : c ∈ ending.fields)
    (hc : c ≠ .url) : c ∈ savedFields ending.copy ending.fields stored :=
  (mem_savedFields hc).mpr hmem

/-! ### One bad entry -/

/-- One message for each entry, in order, and the outcome saved. -/
structure EveryEntryQueued (s : FetchSettings) (w : World) (feed : Feed) (result : FetchResult)
    (parsed : Parsed) (run : TaskRun) : Prop where
  queued : List.Forall₂
    (fun e m => message s.hosts.unicode feed (baseUrl feed result) e = .ok m)
    (parsed.entries.take s.maxEntriesPerFetch) run.queued
  outcome : run.outcome = .ok (.fetched (min parsed.entries.length s.maxEntriesPerFetch))
  saved : ∃ row ∈ run.rows, row.id = feed.id
  row : ∀ row ∈ run.rows, row.id = feed.id →
    row.lastStatus = some .ok ∧ row.lastFetchedAt = some w.fetchedAt ∧
      row.consecutiveErrors = 0 ∧ row.disabledUntil = none ∧
      row.etag = orText result.etag feed.etag ∧
      row.lastModified = orText result.lastModified feed.lastModified

/-- **One bad entry.**  For every downloaded feed, each of the first entries gets its
message exactly if every link of theirs that is not empty can be split; and the outcome is
saved too exactly if, besides, the title of the feed can be read and what is saved has no
NUL. -/
theorem queues_every_entry_iff (hperm : Permitted s w feed)
    (hfetch : fetch s w.net feed.url feed.etag feed.lastModified = .ok result)
    (hok : result.status = .ok) (hbody : result.body = some body)
    (hfeed : IsFeed (w.document result body)) (hrow : ∃ row ∈ stored, row.id = feed.id) :
    (List.Forall₂ (fun e m => message s.hosts.unicode feed (baseUrl feed result) e = .ok m)
        ((w.document result body).entries.take s.maxEntriesPerFetch)
        (fetchLoaded s w feed checked stored).queued ↔
      LinksSplit s (w.document result body)) ∧
    (EveryEntryQueued s w feed result (w.document result body)
        (fetchLoaded s w feed checked stored) ↔
      LinksSplit s (w.document result body) ∧ Savable w feed result (w.document result body) ∧
        MoveStorable s checked feed result) := by
  obtain ⟨queued, hqueued, hcrawl⟩ := crawl_isFeed checked hperm hfetch hok hbody hfeed
  have hfirst : (fetchLoaded s w feed checked stored).queued = queued := by
    rw [fetchLoaded_queued]
    obtain ⟨title, -, -, h⟩ | ⟨-, m, h⟩ := hcrawl
    · rw [h]
    · rw [h]
  refine ⟨by rw [hfirst]; exact hqueued, ?_⟩
  obtain ⟨hsavable, queued', title, hend, hstorable⟩ | ⟨hno, e, herror⟩ :=
    fetchLoaded_isFeed checked stored hperm hfetch hok hbody hfeed
  · refine iff_of_true ?_ hsavable
    have hall := hqueued.mpr hsavable.1
    rw [← hfirst] at hall
    refine ⟨hall, ?_, ?_, ?_⟩
    · rw [fetchLoaded_of_ending hend rfl hstorable hrow]
      rfl
    · rw [fetchLoaded_of_ending hend rfl hstorable hrow]
      exact exists_write_id hrow
    · rw [fetchLoaded_of_ending hend rfl hstorable hrow]
      intro row hmem hid
      obtain ⟨r, -, -, rfl⟩ := mem_updateWhere_id hmem hid
      -- every column but the URL is written, whatever becomes of a move
      refine ⟨if_pos ?_, if_pos ?_, if_pos ?_, if_pos ?_, if_pos ?_, if_pos ?_⟩ <;>
        exact mem_savedFields_of_mem (by simp [fetched]) (by decide)
  · refine iff_of_false (fun h => ?_) hno
    have hok := h.outcome
    rw [herror] at hok
    cases hok

/-! ### A feed with a bad link -/

def sampleSettings : FetchSettings where
  hosts := asciiTables
  is := unicast
  userAgent := "newsforge".toList
  allowPlainHttp := false
  httpTimeout := 20
  maxResponseBytes := 1024
  maxEntriesPerFetch := 100
  perDomainMinInterval := 5

/-- A feed that was never fetched. -/
def sampleFeed : Feed where
  id := 1
  url := "https://a.example/feed".toList
  siteUrl := []
  title := []
  language := .simple
  etag := none
  lastModified := none
  intervalSeconds := 1800
  lastFetchedAt := none
  nextFetchAt := 0
  lastStatus := none
  consecutiveErrors := 0
  disabledUntil := none
  isActive := true
  isDeleted := false

/-- Every host has an address, and `reply` answers the hops. -/
def answering (reply : ℕ → Reply) : Internet where
  getaddrinfo := fun _ _ _ => .ok ["93.184.216.34".toList]
  started := 0
  monotonic := fun hop => hop
  client := fun hop _ => .ok (reply hop)
  readBody := fun _ _ _ _ _ => .ok ([], false)

/-- A world with this net and this document, and no rules for robots. -/
def worldWith (net : Internet) (parsed : Parsed) (now : Time) : World where
  cachedRobots := some []
  robotsNet := net
  acquired := true
  net := net
  parse := fun _ _ => parsed
  html := Normalizer.bareHtml
  fetchedAt := now
  failedAt := now
  pausedAt := now
  jitter := 1
  spread := 1

theorem permitted_worldWith (net : Internet) (parsed : Parsed) (now : Time) :
    Permitted sampleSettings (worldWith net parsed now) sampleFeed := by
  have hacquired : tryAcquire sampleSettings.hosts.unicode true sampleFeed.url = .ok true := by
    decide
  exact ⟨⟨none, rfl⟩, hacquired⟩

/-- An entry with a link and a guid. -/
def linkEntry (link guid : Text) : Entry :=
  ⟨some link, none, none, [], some guid, none, none, none, none⟩

/-- The result of a 200 without validators. -/
def plainResult : FetchResult :=
  ⟨.ok, some 200, some [], none, none, some sampleFeed.url, none, none⟩

/-- The feed is served as it is. -/
def servedWith (entries : List Entry) : World :=
  worldWith (answering fun _ => ⟨200, []⟩) ⟨false, entries, none, none⟩ 7

theorem fetch_servedWith (entries : List Entry) :
    fetch sampleSettings (servedWith entries).net sampleFeed.url sampleFeed.etag
      sampleFeed.lastModified = .ok plainResult := by
  rfl

/-- Two entries, one with a relative link and one with none. -/
theorem queues_every_entry_iff_sample :
    EveryEntryQueued sampleSettings
      (servedWith [linkEntry "/post".toList "a".toList, linkEntry [] "b".toList]) sampleFeed
      plainResult
      ⟨false, [linkEntry "/post".toList "a".toList, linkEntry [] "b".toList], none, none⟩
      (fetchLoaded sampleSettings
        (servedWith [linkEntry "/post".toList "a".toList, linkEntry [] "b".toList]) sampleFeed
        [sampleFeed] [sampleFeed]) := by
  refine (queues_every_entry_iff (permitted_worldWith _ _ _) (fetch_servedWith _) rfl rfl (.inl rfl)
    ⟨sampleFeed, List.mem_singleton_self _, rfl⟩).2.mpr ⟨?_, ⟨⟨[], rfl, ?_⟩, ?_, ?_, ?_⟩, ?_⟩
  · rw [LinksSplit]
    decide
  · decide
  · decide
  · decide
  · decide
  · intro url hurl
    cases hurl

/-- **A bad link stops the feed.**  The entry with an unclosed bracket is not
queued, neither is the one behind it, and the row is not saved. -/
theorem bad_link_stops_the_feed :
    let w := servedWith [linkEntry "/a".toList "a".toList, linkEntry "http://[".toList "b".toList,
      linkEntry "/c".toList "c".toList]
    let run := fetchLoaded sampleSettings w sampleFeed [sampleFeed] [sampleFeed]
    Permitted sampleSettings w sampleFeed ∧
      fetch sampleSettings w.net sampleFeed.url sampleFeed.etag sampleFeed.lastModified =
        .ok plainResult ∧
      run.queued.map Message.guid = ["a".toList] ∧ run.rows = [sampleFeed] ∧
      run.outcome = .error (.request (.valueError "Invalid IPv6 URL".toList)) ∧
      ¬ EveryEntryQueued sampleSettings w sampleFeed plainResult (w.document plainResult [])
        run := by
  intro w run
  have houtcome : run.outcome = .error (.request (.valueError "Invalid IPv6 URL".toList)) := by
    decide
  refine ⟨permitted_worldWith _ _ _, fetch_servedWith _, by decide, by decide,
    houtcome, fun h => ?_⟩
  have hok := h.outcome
  rw [houtcome] at hok
  cases hok

end Feeds
