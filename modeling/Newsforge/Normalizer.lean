/-
Normalization of feed entries (`apps/articles/normalizer.py`).

* `parseQsl`, `urlencode` — the functions of `urllib.parse`;
* `checkLink`, `canonicalizeUrl` — what becomes of the link of an entry;
* `visibleTexts`, `sanitizeHtml`, `detectLanguage`, `normalizeGuid` — its texts, besides
  `plainText`;
* `payload`, `contentHash` — the hash that tells whether an article has changed;
* `normalizeEntry` — all of it together;
* `rehash` — the hash as migration `articles.0006` computes it in SQL.

What the module takes from other packages is read from `Tools`.
-/
import Mathlib.Data.Char
import Mathlib.Data.List.Lex
import Mathlib.Data.List.Sort
import Mathlib.Data.Prod.Lex
import Newsforge.ArticleTable
import Newsforge.Percent
import Newsforge.PlainText
import Newsforge.UrlParse

open PyText UrlParse ArticleTable
open Tables (Time)

namespace Normalizer

/-! ### Query strings -/

/-- A field of a query: name and value. -/
abbrev Field := Text × Text

/-- `unquote_plus`. -/
def unquotePlus (s : Text) : Text := Percent.unquote (replaceChar '+' ' ' s)

/-- `quote_plus`. -/
def quotePlus (s : Text) : Text :=
  if s.contains ' ' then replaceChar ' ' '+' (Percent.quote [' '] s) else Percent.quote [] s

/-- One piece of a query, if it has a value. -/
def parseField (piece : Text) : Option Field :=
  let cut := partition '=' piece
  if cut.2.2.isEmpty then none else some (unquotePlus cut.1, unquotePlus cut.2.2)

/-- `parse_qsl(qs, keep_blank_values=False)`. -/
def parseQsl (qs : Text) : List Field := (split '&' qs).filterMap parseField

/-- `quote_plus(k) + '=' + quote_plus(v)`. -/
def encodeField (f : Field) : Text := quotePlus f.1 ++ '=' :: quotePlus f.2

/-- `urlencode`. -/
def urlencode (fields : List Field) : Text := join '&' (fields.map encodeField)

/-! ### Links -/

/-- `_TRACKING_PREFIXES`. -/
def trackingPrefixes : List Text := ["utm_".toList]

/-- `_TRACKING_PARAMS`. -/
def trackingParams : List Text :=
  ["fbclid", "gclid", "yclid", "mc_cid", "mc_eid", "ref"].map String.toList

/-- `MAX_URL_CHARS`. -/
def maxUrlChars : ℕ := 2048

/-- What normalizing an entry raises: an `InvalidEntryError`, or another
`ValueError`. -/
inductive EntryError
  | invalidEntry (message : Text)
  | valueError (message : Text)
  deriving DecidableEq, Repr

/-- `_no_nul`. -/
def noNul (value : Option Text) : Text := removeChar '\x00' (value.getD [])

/-- The properties of a parse result are those of the split it was made of. -/
def netlocParts (p : ParseResult) : SplitResult := ⟨p.scheme, p.netloc, p.path, p.query, p.fragment⟩

/-- `check_link`. -/
def checkLink (u : UnicodeTables) (url : Text) : Except EntryError Text :=
  let url := strip isSpace (noNul (some url))
  match urlparse u url [] with
  | .error m => .error (.valueError m)
  | .ok parsed =>
    let scheme := lower u parsed.scheme
    if (scheme ≠ "http".toList ∧ scheme ≠ "https".toList) ∨
        ((netlocParts parsed).hostname u).getD [] = [] then
      .error (.invalidEntry ("not an http(s) link: ".toList ++ u.repr (url.take 100)))
    else match (netlocParts parsed).port u with
      | .error _ => .error (.invalidEntry ("bad port in link: ".toList ++ u.repr (url.take 100)))
      | .ok _ =>
        if maxUrlChars < url.length then .error (.invalidEntry "link too long".toList)
        else .ok url

/-- A field that only tells where a reader came from. -/
def isTracking (u : UnicodeTables) (f : Field) : Bool :=
  trackingParams.contains (lower u f.1) ||
    trackingPrefixes.any fun p => startsWith p (lower u f.1)

/-- The order of tuples of texts. -/
def fieldLe (f g : Field) : Prop := toLex f ≤ toLex g

instance : DecidableRel fieldLe := fun f g => inferInstanceAs (Decidable (toLex f ≤ toLex g))

/-- `cleaned_query`, sorted. -/
def cleanedQuery (u : UnicodeTables) (query : Text) : List Field :=
  ((parseQsl query).filter fun f => !isTracking u f).insertionSort fieldLe

/-- The port that stays in a URL: neither zero nor the default of the scheme. -/
def keptPort (scheme : Text) : Option ℕ → Option ℕ
  | none => none
  | some n =>
    if n = 0 ∨ scheme = "http".toList ∧ n = 80 ∨ scheme = "https".toList ∧ n = 443 then none
    else some n

/-- `host`, or `host:port`. -/
def withPort (host : Text) : Option ℕ → Text
  | none => host
  | some n => host ++ ':' :: natStr n

/-- `path or "/"`. -/
def orRoot (path : Text) : Text := if path.isEmpty then ['/'] else path

/-- `canonicalize_url`; `urlparse` and the port may raise. -/
def canonicalizeUrl (u : UnicodeTables) (url : Text) : Except Text Text := do
  let parsed ← urlparse u url []
  let cleaned := cleanedQuery u parsed.query
  let host := lower u (((netlocParts parsed).hostname u).getD [])
  let port ← (netlocParts parsed).port u
  let netloc := withPort host (keptPort parsed.scheme port)
  return urlunparse
    ⟨lower u parsed.scheme, netloc, orRoot parsed.path, [], urlencode cleaned, []⟩

/-! ### Texts -/

/-- `ALLOWED_TAGS`. -/
def allowedTags : List Text :=
  ["a", "p", "br", "strong", "em", "b", "i", "u", "ul", "ol", "li", "blockquote", "code", "pre",
    "h1", "h2", "h3", "h4", "h5", "h6", "img", "figure", "figcaption", "hr", "table", "thead",
    "tbody", "tr", "th", "td"].map String.toList

/-- `ALLOWED_ATTRIBUTES`. -/
def allowedAttributes : List (Text × List Text) :=
  [("a".toList, ["href", "title", "rel"].map String.toList),
    ("img".toList, ["src", "alt", "title"].map String.toList)]

/-- `MAX_TITLE_CHARS`. -/
def maxTitleChars : ℕ := 1000

/-- `MAX_AUTHOR_CHARS`. -/
def maxAuthorChars : ℕ := 255

/-- `MAX_HTML_CHARS`. -/
def maxHtmlChars : ℕ := 200000

/-- `MAX_GUID_CHARS`. -/
def maxGuidChars : ℕ := 512

/-- `_SUPPORTED_LANGS`. -/
def supportedLangs : List (Text × Text) :=
  [("ru".toList, "russian".toList), ("en".toList, "english".toList)]

/-- What the module takes from elsewhere. -/
structure Tools extends Html where
  unicode : UnicodeTables
  /-- `langdetect.detect`, `none` for a `LangDetectException` -/
  detect : Text → Option Text
  /-- `hashlib.sha256(…).hexdigest()` -/
  sha256 : List UInt8 → Text

/-- `str.encode()`. -/
def encodeUtf8 (s : Text) : List UInt8 := s.flatMap String.utf8EncodeChar

/-- `sanitize_html`. -/
def sanitizeHtml (k : Html) (html : Text) : Except Text Text :=
  k.clean allowedTags (some allowedAttributes) ((noNul (some html)).take maxHtmlChars)

/-- `plain_text(html, MAX_HTML_CHARS) for html in …`. -/
def visibleTexts (k : Html) (htmls : List Text) : Except Text (List Text) :=
  htmls.mapM fun html => plainText k (some html) maxHtmlChars

/-- `detect_language`. -/
def detectLanguage (k : Tools) (text : Text) : Text :=
  let snippet := strip isSpace text
  if snippet.length < 20 then "simple".toList
  else match k.detect (snippet.take 4096) with
    | none => "simple".toList
    | some code => (supportedLangs.lookup code).getD "simple".toList

/-- `normalize_guid`. -/
def normalizeGuid (k : Tools) (guid : Option Text) : Text :=
  let guid := strip isSpace (noNul guid)
  if maxGuidChars < guid.length then "sha256:".toList ++ k.sha256 (encodeUtf8 guid) else guid

/-! ### The content hash -/

/-- What `content_hash` hands to SHA-256. -/
def payload (canonicalUrl title body : Text) : List UInt8 :=
  encodeUtf8 (canonicalUrl ++ '\n' :: (strip isSpace title ++ '\n' :: strip isSpace body))

/-- `content_hash`. -/
def contentHash (k : Tools) (canonicalUrl title body : Text) : Text :=
  k.sha256 (payload canonicalUrl title body)

/-! ### normalize_entry -/

/-- A `datetime`, with or without a time zone. -/
inductive Stamp
  | naive (wall : Time)
  | aware (instant : Time)
  deriving DecidableEq, Repr

/-- A naive `datetime` is taken for UTC. -/
def Stamp.utc : Stamp → Time
  | .naive wall => wall
  | .aware instant => instant

/-- The keyword arguments of `normalize_entry`. -/
structure RawEntry where
  url : Text
  title : Text
  summary : Text
  body : Text
  guid : Option Text
  author : Option Text
  publishedAt : Option Stamp
  fallbackLanguage : Text

/-- `a or b`. -/
def orElse (a b : Text) : Text := if a.isEmpty then b else a

/-- Every `ValueError` but that of `check_link` leaves as it is. -/
def raising {α : Type} : Except Text α → Except EntryError α := Except.mapError .valueError

/-- `normalize_entry` at the time `now`. -/
def normalizeEntry (k : Tools) (now : Time) (raw : RawEntry) :
    Except EntryError NormalizedEntry := do
  let url ← checkLink k.unicode raw.url
  let canonical ← raising (canonicalizeUrl k.unicode url)
  let cleanTitle ← raising (plainText k.toHtml (some (noNul (some raw.title))) maxTitleChars)
  let cleanSummary ← raising (sanitizeHtml k.toHtml raw.summary)
  let cleanBody ← raising (sanitizeHtml k.toHtml raw.body)
  let visible ← raising (visibleTexts k.toHtml [cleanSummary, cleanBody])
  let lang := detectLanguage k (join ' ' (cleanTitle :: visible))
  let lang :=
    if lang = "simple".toList ∧ raw.fallbackLanguage ∈ supportedLangs.map Prod.snd then
      raw.fallbackLanguage
    else lang
  let digest := contentHash k canonical cleanTitle (orElse cleanBody cleanSummary)
  let author ← raising (plainText k.toHtml (some (noNul raw.author)) maxAuthorChars)
  return {
    canonicalUrl := canonical
    url := url
    title := cleanTitle
    summary := cleanSummary
    body := cleanBody
    author := if author.isEmpty then none else some author
    language := lang
    contentHash := digest
    guid := normalizeGuid k raw.guid
    publishedAt := raw.publishedAt.map fun stamp => min stamp.utc now }

/-- How the fields of a normalized entry come about. -/
structure Made (k : Tools) (now : Time) (raw : RawEntry) (e : NormalizedEntry) : Prop where
  url : checkLink k.unicode raw.url = .ok e.url
  canonicalUrl : canonicalizeUrl k.unicode e.url = .ok e.canonicalUrl
  title : plainText k.toHtml (some (noNul (some raw.title))) maxTitleChars = .ok e.title
  summary : sanitizeHtml k.toHtml raw.summary = .ok e.summary
  body : sanitizeHtml k.toHtml raw.body = .ok e.body
  author : ∃ author, plainText k.toHtml (some (noNul raw.author)) maxAuthorChars = .ok author ∧
    e.author = if author.isEmpty then none else some author
  language : ∃ visible, visibleTexts k.toHtml [e.summary, e.body] = .ok visible ∧
    e.language =
      let lang := detectLanguage k (join ' ' (e.title :: visible))
      if lang = "simple".toList ∧ raw.fallbackLanguage ∈ supportedLangs.map Prod.snd then
        raw.fallbackLanguage
      else lang
  contentHash : e.contentHash = contentHash k e.canonicalUrl e.title (orElse e.body e.summary)
  guid : e.guid = normalizeGuid k raw.guid
  publishedAt : e.publishedAt = raw.publishedAt.map fun stamp => min stamp.utc now

theorem raising_eq_ok {α : Type} {x : Except Text α} {a : α} :
    raising x = .ok a ↔ x = .ok a := by
  cases x <;> simp [raising, Except.mapError]

/-- **What `normalize_entry` returns.** -/
theorem normalizeEntry_eq_ok_iff {k : Tools} {now : Time} {raw : RawEntry} {e : NormalizedEntry} :
    normalizeEntry k now raw = .ok e ↔ Made k now raw e := by
  simp only [normalizeEntry, bind_eq_ok, raising_eq_ok, pure, Except.pure, Except.ok.injEq]
  constructor
  · rintro ⟨url, hurl, canonical, hcanonical, title, htitle, summary, hsummary, body, hbody,
      visible, hvisible, author, hauthor, rfl⟩
    exact ⟨hurl, hcanonical, htitle, hsummary, hbody, ⟨author, hauthor, rfl⟩,
      ⟨visible, hvisible, rfl⟩, rfl, rfl, rfl⟩
  · intro h
    obtain ⟨author, hauthor, heq⟩ := h.author
    obtain ⟨visible, hvisible, hlanguage⟩ := h.language
    refine ⟨_, h.url, _, h.canonicalUrl, _, h.title, _, h.summary, _, h.body, visible, hvisible,
      author, hauthor, ?_⟩
    rw [← heq, ← hlanguage, ← h.contentHash, ← h.guid, ← h.publishedAt]

/-! ### The migration -/

/-- The characters of `E' \t\n\r\x0b\x0c'`. -/
def isSqlBlank (c : Char) : Bool :=
  c == ' ' || c == '\t' || c == '\n' || c == '\r' || c == '\x0b' || c == '\x0c'

/-- `btrim(s, E' \t\n\r\x0b\x0c')`. -/
def btrim (s : Text) : Text := strip isSqlBlank s

/-- What `REHASH_SQL` hands to SHA-256 for a row. -/
def rehashPayload (r : Article) : List UInt8 :=
  encodeUtf8 (r.canonicalUrl ++ '\n' :: (btrim r.title ++ '\n' :: btrim (orElse r.body r.summary)))

/-- The hash `REHASH_SQL` computes for a row. -/
def rehash (k : Tools) (r : Article) : Text := k.sha256 (rehashPayload r)

end Normalizer
