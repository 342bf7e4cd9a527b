/-
The robots.txt policy (`apps/feeds/robots.py`).

* `agentToken`, `rule`, `Rule.matches` — the lines of a policy;
* `Scan`, `scanLine`, `rulesFor` — the one pass over its lines;
* `canFetch` — the decision for a URL;
* `fetchRobots`, `isAllowed` — where the policy comes from.
-/
import Newsforge.Percent
import Newsforge.SafeHttp

open PyText UrlParse SafeHttp

namespace Robots

/-! ### Settings -/

/-- The settings the module reads. -/
structure Settings where
  hosts : HostTables
  is : AddressPredicates
  userAgent : Text
  allowPlainHttp : Bool

/-- `CACHE_TTL_SECONDS`. -/
def cacheTtlSeconds : ℕ := 86400

/-- `RETRY_TTL_SECONDS`. -/
def retryTtlSeconds : ℕ := 1800

/-- `MAX_ROBOTS_BYTES`. -/
def maxRobotsBytes : ℕ := 500 * 1024

/-- `DISALLOW_ALL`. -/
def disallowAll : Text := "User-agent: *\nDisallow: /\n".toList

/-- `MAX_RULES`. -/
def maxRules : ℕ := 2000

/-- `MAX_PATTERN_CHARS`. -/
def maxPatternChars : ℕ := 2048

/-! ### Rules -/

/-- `_Rule`. -/
structure Rule where
  allow : Bool
  pattern : Text
  parts : List Text
  anchored : Bool
  deriving DecidableEq, Repr

/-- The parts in the middle, each found behind the one before: where the last of
them ends. -/
def findParts (path : Text) : ℕ → List Text → Option ℕ
  | pos, [] => some pos
  | pos, part :: rest =>
    match find part pos path with
    | some found => findParts path (found + part.length) rest
    | none => none

/-- `_Rule.matches`. -/
def Rule.matches (r : Rule) (path : Text) : Bool :=
  match r.parts with
  -- a text split on "*" has a first part
  | [] => false
  | first :: rest =>
    if !startsWith first path then false
    else if rest.isEmpty then !r.anchored || path == first
    else
      let last := if r.anchored then rest.getLast? else none
      match findParts path first.length (if r.anchored then rest.dropLast else rest) with
      | none => false
      | some pos =>
        match last with
        | none => true
        | some last => endsWith last path && pos + last.length ≤ path.length

/-- `_normalize_path`. -/
def normalizePath (path : Text) : Text :=
  Percent.quote "/?=&;:@!$'()*+,~-._%".toList (Percent.unquote path)

/-- `_rule`. -/
def rule (allow : Bool) (pattern : Text) : Rule :=
  let anchored := pattern.getLast? = some '$'
  let body := normalizePath (if anchored then pattern.dropLast else pattern)
  ⟨allow, pattern, split '*' body, anchored⟩

/-- The characters of a product token. -/
def isTokenChar (c : Char) : Bool := c.isAlpha || c == '_' || c == '-'

/-- `product_token`. -/
def productToken (userAgent : Text) : Text := (userAgent.takeWhile isTokenChar).map Char.toLower

/-- `_agent_token`. -/
def agentToken (value : Text) : Text :=
  if strip isSpace value = ['*'] then ['*']
  else ((strip isSpace value).takeWhile isTokenChar).map Char.toLower

/-! ### The one pass -/

/-- The variables of the loop. -/
structure Scan where
  own : List Rule
  star : List Rule
  named : Bool
  forOwn : Bool
  forStar : Bool
  inRules : Bool
  count : ℕ

/-- Before the first line. -/
def Scan.start : Scan := ⟨[], [], false, false, false, false, 0⟩

/-- A `User-agent` line. -/
def Scan.agent (token agent : Text) (st : Scan) : Scan :=
  let st := if st.inRules then
    { st with forOwn := false, forStar := false, inRules := false } else st
  if !token.isEmpty && agent = token then { st with forOwn := true, named := true }
  else if agent = ['*'] then { st with forStar := true }
  else st

/-- An `Allow` or `Disallow` line. -/
def Scan.rule (allow : Bool) (value : Text) (st : Scan) : Scan :=
  let st := { st with inRules := true }
  if !(st.forOwn || st.forStar) then st
  else if value.isEmpty || maxPatternChars < value.length || maxRules ≤ st.count then st
  else
    { st with
      count := st.count + 1
      own := if st.forOwn then st.own ++ [Robots.rule allow value] else st.own
      star := if st.forStar then st.star ++ [Robots.rule allow value] else st.star }

/-- The body of the loop. -/
def scanLine (u : UnicodeTables) (token : Text) (st : Scan) (raw : Text) : Scan :=
  let line := strip isSpace (partition '#' raw).1
  if !line.contains ':' then st
  else
    let key := lower u (strip isSpace (partition ':' line).1)
    let value := strip isSpace (partition ':' line).2.2
    if key = "user-agent".toList then st.agent token (agentToken value)
    else if key = "allow".toList || key = "disallow".toList then
      st.rule (key = "allow".toList) value
    else st

/-- `_rules_for`. -/
def rulesFor (u : UnicodeTables) (body token : Text) : List Rule :=
  let st := (splitlines body).foldl (scanLine u token) Scan.start
  if st.named then st.own else st.star

/-! ### The decision -/

/-- The better of the best rule so far and the next one. -/
def better (path : Text) (best : Option Rule) (r : Rule) : Option Rule :=
  if !r.matches path then best
  else match best with
    | none => some r
    | some b =>
      if b.pattern.length < r.pattern.length ||
          (r.pattern.length = b.pattern.length && r.allow) then some r
      else some b

/-- `can_fetch`; `urlsplit` may raise. -/
def canFetch (u : UnicodeTables) (body url token : Text) : Except Text Bool := do
  let parts ← urlsplit u url
  let path := normalizePath (pathAndQuery parts)
  if path = "/robots.txt".toList then return true
  return match (rulesFor u body token).foldl (better path) none with
    | none => true
    | some best => best.allow

/-! ### Where the policy comes from -/

/-- The options of the request for a robots.txt. -/
def robotsOptions (s : Settings) : Options where
  headers := ⟨[("User-Agent".toList, s.userAgent)], by simp⟩
  timeout := 5
  maxBytes := maxRobotsBytes
  maxRedirects := 5
  allowHttp := s.allowPlainHttp
  truncate := true
  discardBody := false

/-- What `_fetch_robots` makes of the end of its request: the text of the policy,
and how long it is cached.  Other exceptions leave it. -/
def policyOf : Except RequestError Response → Except RequestError (Text × ℕ)
  | .error (.unsafeUrl _) => .ok ([], retryTtlSeconds)
  | .error (.deadlineExceeded _) | .error (.client (.httpError _))
  | .error (.body .deadlineExceeded) | .error (.body (.client (.httpError _))) =>
    .ok (disallowAll, retryTtlSeconds)
  | .error e => .error e
  | .ok resp =>
    if 500 ≤ resp.statusCode then .ok (disallowAll, retryTtlSeconds)
    else if 300 ≤ resp.statusCode then .ok ([], cacheTtlSeconds)
    else .ok (Percent.decodeUtf8 resp.content, cacheTtlSeconds)

/-- The URL of the robots.txt of a host. -/
def robotsUrl (domain scheme : Text) : Text :=
  scheme ++ "://".toList ++ domain ++ "/robots.txt".toList

/-- `_fetch_robots`. -/
def fetchRobots (s : Settings) (net : Internet) (domain scheme : Text) :
    Except RequestError (Text × ℕ) :=
  policyOf (request s.hosts s.is net (robotsOptions s) "GET".toList (robotsUrl domain scheme)
    none).2

/-- A `ValueError` of `urlsplit`. -/
def orValueError {α : Type*} : Except Text α → Except RequestError α
  | .ok a => .ok a
  | .error m => .error (.valueError m)

/-- `is_allowed`: the answer, and the policy it puts into the cache.  `cached` is
what the cache has for the host. -/
def isAllowed (s : Settings) (net : Internet) (cached : Option Text) (url : Text) :
    Except RequestError (Bool × Option (Text × ℕ)) := do
  let parsed ← orValueError (urlsplit s.hosts.unicode url)
  match parsed.hostname s.hosts.unicode with
  | none => return (false, none)
  | some hostname =>
    let domain := lower s.hosts.unicode hostname
    let scheme := if parsed.scheme.isEmpty then "https".toList else parsed.scheme
    let (body, stored) ← match cached with
      | some body => pure (body, none)
      | none => (fetchRobots s net domain scheme).map fun policy => (policy.1, some policy)
    if body.isEmpty then return (true, stored)
    let ok ← orValueError (canFetch s.hosts.unicode body url (productToken s.userAgent))
    return (ok, stored)

end Robots
