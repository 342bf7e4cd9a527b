/-
The links of entries (`check_link`, `process_article`).

`check_link` raises an `InvalidEntryError` for a link it does not want, and
`process_article` then skips the entry.  `urlparse`, outside of the `try` block, may
raise a `ValueError` of its own, and that one nobody catches.

* `checkLink_cases` — how `check_link` ends, for every text;
* `Readable` — the other fields of an entry can be read;
* `processArticle` — the task, as one task alone runs it;
* `processArticle_answers` — with a link that was checked, it answers.

Main results: `bad_links_skipped_iff` and the link `unclosed_bracket_raises`.
-/
import Newsforge.ArticleUrl
import Newsforge.ProcessArticle
import Newsforge.TextLines

open PyText UrlParse

namespace Normalizer

/-! ### check_link -/

/-- What `check_link` hands to `urlparse`. -/
def bareLink (url : Text) : Text := strip isSpace (noNul (some url))

theorem notMem_bareLink (url : Text) : '\x00' ∉ bareLink url := by
  intro h
  obtain ⟨a, b, heq, -⟩ := strip_eq_append isSpace (noNul (some url))
  have hmem : '\x00' ∈ noNul (some url) := by
    rw [heq]
    exact List.mem_append_left _ (List.mem_append_right _ h)
  simp [noNul, removeChar] at hmem

/-- **How `check_link` ends.** -/
theorem checkLink_cases (u : UnicodeTables) (url : Text) :
    (¬ Splits u (bareLink url) ∧ ∃ m, checkLink u url = .error (.valueError m)) ∨
    (Splits u (bareLink url) ∧ ((∃ m, checkLink u url = .error (.invalidEntry m)) ∨
      checkLink u url = .ok (bareLink url) ∧ (bareLink url).length ≤ maxUrlChars)) := by
  rw [← UrlParse.urlparse_eq_ok [], checkLink, ← bareLink]
  cases urlparse u (bareLink url) [] with
  | error m => exact .inl ⟨by simp, m, rfl⟩
  | ok parsed =>
    refine .inr ⟨⟨parsed, rfl⟩, ?_⟩
    -- from here on every refusal is an `InvalidEntryError`
    cases hport : (netlocParts parsed).port u with
    | error m =>
      simp only [hport]
      split_ifs
      · exact .inl ⟨_, rfl⟩
      · exact .inl ⟨_, rfl⟩
    | ok port =>
      simp only [hport]
      split_ifs with hhost hlen
      · exact .inl ⟨_, rfl⟩
      · exact .inl ⟨_, rfl⟩
      · exact .inr ⟨rfl, not_lt.mp hlen⟩

theorem hostname_ne_nil {u : UnicodeTables} {url : Text} {parsed : ParseResult}
    (h : checkLink u url = .ok (bareLink url)) (hparse : urlparse u (bareLink url) [] = .ok parsed) :
    ((netlocParts parsed).hostname u).getD [] ≠ [] := by
  intro hnil
  rw [checkLink, ← bareLink] at h
  simp only [hparse] at h
  rw [if_pos (.inr hnil)] at h
  exact absurd h (by simp)

/-- What is promised of `check_link` and of `canonicalize_url` behind it: the link is
an invalid entry, or a text that can be stored, of a site on the web, and has a
canonical form. -/
def LinkChecked (u : UnicodeTables) (url : Text) : Prop :=
  (∃ message, checkLink u url = .error (.invalidEntry message)) ∨
  ∃ link parsed port,
    checkLink u url = .ok link ∧ '\x00' ∉ link ∧ link.length ≤ maxUrlChars ∧
    urlparse u link [] = .ok parsed ∧
    (parsed.scheme = "http".toList ∨ parsed.scheme = "https".toList) ∧
    ((netlocParts parsed).hostname u).getD [] ≠ [] ∧ (netlocParts parsed).port u = .ok port ∧
    ∃ canonical, canonicalizeUrl u link = .ok canonical

theorem linkChecked_iff (u : UnicodeTables) (url : Text) :
    LinkChecked u url ↔ Splits u (bareLink url) := by
  rcases checkLink_cases u url with ⟨hno, m, hm⟩ | ⟨hsplits, ⟨m, hm⟩ | ⟨hok, hlen⟩⟩
  · -- the `ValueError` of `urlparse`
    refine iff_of_false ?_ hno
    rintro (⟨message, h⟩ | ⟨link, _, _, h, _⟩)
    · rw [hm] at h
      exact EntryError.noConfusion (Except.error.inj h)
    · rw [hm] at h
      exact absurd h (by simp)
  · exact iff_of_true (.inl ⟨m, hm⟩) hsplits
  · obtain ⟨parsed, port, hlink⟩ := checkLink_eq_ok hok
    refine iff_of_true (.inr ⟨bareLink url, parsed, port, hok, notMem_bareLink url, hlen, hlink.parse,
      hlink.scheme, hostname_ne_nil hok hlink.parse, hlink.port, _, hlink.canonicalizeUrl_eq⟩)
      hsplits

/-- The texts of an entry can be read: `int` refuses no character reference in them. -/
structure Readable (k : Html) (raw : RawEntry) : Prop where
  title : ∃ title, plainText k (some (noNul (some raw.title))) maxTitleChars = .ok title
  /-- sanitized, a text can be read as plain text too -/
  html : ∀ html ∈ [raw.summary, raw.body], ∃ cleaned visible, sanitizeHtml k html = .ok cleaned ∧
    plainText k (some cleaned) maxHtmlChars = .ok visible
  author : ∃ author, plainText k (some (noNul raw.author)) maxAuthorChars = .ok author

/-- **A link that was checked makes no other error of an entry**: what else could raise are
the other fields. -/
theorem LinkChecked.normalizeEntry {k : Tools} {url : Text} (h : LinkChecked k.unicode url)
    (now : Tables.Time) {raw : RawEntry} (hraw : Readable k.toHtml raw) :
    (∃ message, normalizeEntry k now { raw with url := url } = .error (.invalidEntry message)) ∨
      ∃ entry, normalizeEntry k now { raw with url := url } = .ok entry := by
  rcases h with ⟨message, hm⟩ | ⟨link, _, _, hok, _, _, _, _, _, _, canonical, hcanonical⟩
  · refine .inl ⟨message, ?_⟩
    simp only [Normalizer.normalizeEntry, hm, bind, Except.bind]
  · refine .inr ?_
    obtain ⟨title, htitle⟩ := hraw.title
    obtain ⟨summary, visible₁, hsummary, hvisible₁⟩ := hraw.html raw.summary (by simp)
    obtain ⟨body, visible₂, hbody, hvisible₂⟩ := hraw.html raw.body (by simp)
    obtain ⟨author, hauthor⟩ := hraw.author
    have hvisible : visibleTexts k.toHtml [summary, body] = .ok [visible₁, visible₂] := by
      simp only [visibleTexts, List.mapM_cons, List.mapM_nil, hvisible₁, hvisible₂, bind,
        Except.bind, pure, Except.pure]
    simp only [Normalizer.normalizeEntry, hok, hcanonical, htitle, hsummary, hbody, hvisible,
      hauthor, raising, Except.mapError, bind, Except.bind, pure, Except.pure]
    exact ⟨_, rfl⟩

end Normalizer

namespace ProcessArticle

open ArticleTable Normalizer Tables Runs

/-! ### process_article -/

/-- What `process_article` returns. -/
inductive Answer
  | skipped (message : Text)
  | stored (articleId : ℕ) (inserted : Bool)

/-- What leaves it as an exception. -/
inductive Failure
  | valueError (message : Text)
  | task (e : TaskError)

/-- When its statements run. -/
structure Clock where
  normalize : Time
  upsert : StatementTimes
  claim : Time

/-- `process_article`, its `published_at` parsed; `sent` says that queueing the chain
succeeds. -/
def processArticle (k : Tools) (clock : Clock) (sent : Bool) (feedId : ℕ) (raw : RawEntry)
    (db : Db) : Except Failure Answer × Db :=
  match normalizeEntry k clock.normalize raw with
  | .error (.invalidEntry message) => (.ok (.skipped message), db)
  | .error (.valueError message) => (.error (.valueError message), db)
  | .ok entry =>
    match upsertArticle feedId entry clock.upsert db with
    | (.error e, db) => (.error (.task (.upsert e)), db)
    | (.ok res, db) =>
      match claimStmt res.articleId clock.claim db with
      | (false, db) => (.ok (.stored res.articleId res.inserted), db)
      | (true, db) =>
        if sent then (.ok (.stored res.articleId res.inserted), db)
        else (.error (.task .send), releaseStmt res.articleId db)

/-- With no other task in between, the steps of a task are those of `processArticle`. -/
theorem processArticle_alone {k : Tools} {clock : Clock} {feedId : ℕ} {raw : RawEntry}
    {entry : NormalizedEntry} (h : normalizeEntry k clock.normalize raw = .ok entry)
    (T : IndexedTable) (queued : List ℕ) :
    ∃ res db' queued',
      processArticle k clock true feedId raw T.db =
        (.ok (.stored res.articleId res.inserted), db') ∧
      Reach (fun a x => step a x.1 x.2) anyMove (⟨feedId, entry, .insert⟩, ⟨T.db, queued⟩)
        (⟨feedId, entry, .finished res⟩, ⟨db', queued'⟩) := by
  obtain ⟨res, db, hupsert, hreach⟩ := upsert_alone (t := ⟨feedId, entry, .insert⟩)
    (w := ⟨T.db, queued⟩) T.wellFormed rfl clock.upsert
  have hupsert : upsertArticle feedId entry clock.upsert T.db = (.ok res, db) := hupsert
  rcases hclaim : claimStmt res.articleId clock.claim db with ⟨won, db'⟩
  rw [processArticle, h]
  simp only [hupsert, hclaim]
  cases won with
  | false =>
    -- the article was claimed before: nothing is queued
    have hclaimed : Reach (fun a x => step a x.1 x.2) anyMove (⟨feedId, entry, .insert⟩,
        ⟨T.db, queued⟩) (⟨feedId, entry, .ack res⟩, ⟨db', queued⟩) := by
      refine .step (m := .claim clock.claim) hreach trivial ?_
      simp only [step, Task.goto_phase, hclaim]
      rfl
    exact ⟨res, db', queued, rfl, .step (m := .ack) hclaimed trivial rfl⟩
  | true =>
    have hclaimed : Reach (fun a x => step a x.1 x.2) anyMove (⟨feedId, entry, .insert⟩,
        ⟨T.db, queued⟩) (⟨feedId, entry, .send res⟩, ⟨db', queued⟩) := by
      refine .step (m := .claim clock.claim) hreach trivial ?_
      simp only [step, Task.goto_phase, hclaim]
      rfl
    have hsent : Reach (fun a x => step a x.1 x.2) anyMove (⟨feedId, entry, .insert⟩,
        ⟨T.db, queued⟩) (⟨feedId, entry, .ack res⟩, ⟨db', res.articleId :: queued⟩) :=
      .step (m := .send false) hclaimed trivial rfl
    exact ⟨res, db', res.articleId :: queued, rfl, .step (m := .ack) hsent trivial rfl⟩

/-- The task answers: the entry was skipped and the table is as it was, or a row of
the feed holds the article. -/
def Answered (feedId : ℕ) (db : Db) (outcome : Except Failure Answer × Db) : Prop :=
  (∃ message, outcome = (.ok (.skipped message), db)) ∨
  ∃ id inserted, outcome.1 = .ok (.stored id inserted) ∧
    ∃ r ∈ outcome.2.rows, r.id = id ∧ r.feedId = feedId

/-- The claim takes no row away. -/
theorem exists_row_claimStmt {feedId id : ℕ} {db : Db} (now : Time) (id' : ℕ)
    (h : ∃ r ∈ db.rows, r.id = id ∧ r.feedId = feedId) :
    ∃ r ∈ (claimStmt id' now db).2.rows, r.id = id ∧ r.feedId = feedId := by
  obtain ⟨r, hr, hid, hfeed⟩ := h
  refine ⟨_, mem_updateWhere.mpr ⟨r, hr, rfl⟩, ?_⟩
  split
  · exact ⟨hid, hfeed⟩
  · exact ⟨hid, hfeed⟩

/-- **With a link that was checked, the task answers.** -/
theorem processArticle_answers {k : Tools} {url : Text} (h : LinkChecked k.unicode url)
    (clock : Clock) (feedId : ℕ) {raw : RawEntry} (hraw : Readable k.toHtml raw)
    (T : IndexedTable) :
    Answered feedId T.db (processArticle k clock true feedId { raw with url := url } T.db) := by
  rcases h.normalizeEntry clock.normalize hraw with ⟨message, hm⟩ | ⟨entry, hentry⟩
  · refine .inl ⟨message, ?_⟩
    rw [processArticle, hm]
  · obtain ⟨d, hd⟩ := exists_decides feedId entry T.db.rows
    obtain ⟨db, hcarries⟩ : ∃ db, Carries feedId entry clock.upsert T.db d db :=
      ⟨_, carries_decision T.wellFormed hd clock.upsert⟩
    have hrow := exists_row_claimStmt clock.claim (d.result T.db).articleId hcarries.row
    refine .inr ⟨(d.result T.db).articleId, (d.result T.db).inserted, ?_⟩
    rw [processArticle, hentry]
    simp only [hcarries.returns]
    -- claimed before or not, the row is there
    rcases hclaim : claimStmt (d.result T.db).articleId clock.claim db with ⟨won, db'⟩
    rw [hclaim] at hrow
    cases won with
    | false => exact ⟨rfl, hrow⟩
    | true => exact ⟨rfl, hrow⟩

/-- A `ValueError` of the link leaves the task. -/
theorem processArticle_raises {k : Tools} {url m : Text}
    (h : checkLink k.unicode url = .error (.valueError m)) (clock : Clock) (sent : Bool)
    (feedId : ℕ) (raw : RawEntry) (db : Db) :
    processArticle k clock sent feedId { raw with url := url } db = (.error (.valueError m), db) := by
  have hentry : normalizeEntry k clock.normalize { raw with url := url } = .error (.valueError m) := by
    simp only [Normalizer.normalizeEntry, h, bind, Except.bind]
  rw [processArticle, hentry]

/-- **Which links are skipped, not crashed on.**  A link is checked or refused as
promised, and the task answers whatever entry with texts that can be read has the link,
exactly if `urlsplit` accepts it. -/
theorem bad_links_skipped_iff (k : Tools) (url : Text) :
    (LinkChecked k.unicode url ∧
      ∀ (T : IndexedTable) (clock : Clock) (feedId : ℕ) (raw : RawEntry),
        Readable k.toHtml raw →
        Answered feedId T.db
          (processArticle k clock true feedId { raw with url := url } T.db)) ↔
      Splits k.unicode (bareLink url) := by
  rw [← linkChecked_iff]
  exact ⟨fun h => h.1, fun h =>
    ⟨h, fun T clock feedId _ hraw => processArticle_answers h clock feedId hraw T⟩⟩

/-- Tools for entries that are plain text. -/
def plainTools : Tools where
  toHtml := bareHtml
  unicode := basicUnicode
  detect _ := none
  sha256 _ := []

/-- A link with a bracket that is never closed. -/
def unclosedLink : Text := "http://[::1".toList

/-- **An unclosed bracket.**  `urlparse` raises, `check_link` lets it pass, and the
task fails for every entry with the link. -/
theorem unclosed_bracket_raises :
    checkLink basicUnicode unclosedLink = .error (.valueError "Invalid IPv6 URL".toList) ∧
      ¬ LinkChecked basicUnicode unclosedLink ∧
      ∀ (clock : Clock) (sent : Bool) (feedId : ℕ) (raw : RawEntry) (db : Db),
        processArticle plainTools clock sent feedId { raw with url := unclosedLink } db =
          (.error (.valueError "Invalid IPv6 URL".toList), db) := by
  have hraises : checkLink basicUnicode unclosedLink =
      .error (.valueError "Invalid IPv6 URL".toList) := by decide
  refine ⟨hraises, ?_, fun clock sent feedId raw db =>
    processArticle_raises (k := plainTools) hraises clock sent feedId raw db⟩
  rw [linkChecked_iff]
  decide

end ProcessArticle
