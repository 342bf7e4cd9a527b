/-
Outbound HTTP for user-supplied URLs (`apps/core/safe_http.py`).

* `isPublic`, `asciiHost`, `canonicalUrl` — the checks on addresses and hosts;
* `resolve` — a URL is checked and its host resolved, once, to a `Target`;
* `Target.pinnedUrl` — the URL that is handed to the HTTP client;
* `request` — the redirect loop, hop after hop;
* `HopRun`, `hops_run` — what one hop can do, said once.

What lies outside is read from an `Internet`: the resolver and the clock may
answer every hop differently, and so may the client and the body reader.
`request` returns the hops it took along with its outcome.
-/
import Newsforge.UrlParse

open PyText UrlParse

namespace SafeHttp

abbrev Bytes := List UInt8

/-- A reading of the monotonic clock, or a duration. -/
abbrev Seconds := Int

/-! ### Tables -/

/-- `ALLOWED_PORTS`. -/
def allowedPort (scheme : Text) : Option ℕ :=
  if scheme = "http".toList then some 80
  else if scheme = "https".toList then some 443
  else none

/-- `REDIRECT_CODES`. -/
def redirectCodes : List ℕ := [301, 302, 303, 307, 308]

/-- `PERMANENT_REDIRECT_CODES`. -/
def permanentRedirectCodes : List ℕ := [301, 308]

/-- `ACCEPT_ENCODING`. -/
def acceptEncoding : Text := "gzip, deflate".toList

/-- `NOT_PUBLIC`. -/
def notPublic : Text := "host does not resolve to a public address".toList

/-- `ip_network(base/len)` contains the address. -/
def inNetwork {w : ℕ} (base : BitVec w) (len : ℕ) (ip : BitVec w) : Bool :=
  ip >>> (w - len) == base >>> (w - len)

/-- `_EMBEDS_IPV4`. -/
def embedsIpv4 : List (BitVec 128 × ℕ) :=
  [(0, 96), (0xffff00000000, 96), (0xffff000000000000, 96),
    (0x0064ff9b000000000000000000000000, 96)]

/-- `_NEVER_PUBLIC_V6`. -/
def neverPublicV6 : List (BitVec 128 × ℕ) :=
  [(0x0064ff9b000100000000000000000000, 48), (0xfec00000000000000000000000000000, 10),
    (0x5f000000000000000000000000000000, 16)]

/-- `_NEVER_PUBLIC_V4`. -/
def neverPublicV4 : List (BitVec 32 × ℕ) := [(0xc0586300, 24)]

/-! ### Public addresses -/

/-- `is_global` and `is_multicast` of Python's address objects. -/
structure AddressPredicates where
  isGlobal : IPAddress → Bool
  isMulticast : IPAddress → Bool

/-- `IPv6Address.sixtofour`. -/
def sixtofour (ip : BitVec 128) : Option (BitVec 32) :=
  if ip >>> 112 == 0x2002 then some ((ip >>> 80).truncate 32) else none

/-- `_is_public` of an IPv4 address. -/
def isPublicV4 (is : AddressPredicates) (ip : BitVec 32) : Bool :=
  if neverPublicV4.any fun net => inNetwork net.1 net.2 ip then false
  else is.isGlobal (.v4 ip) && !is.isMulticast (.v4 ip)

/-- `_is_public`. -/
def isPublic (is : AddressPredicates) : IPAddress → Bool
  | .v4 ip => isPublicV4 is ip
  | .v6 ip =>
    if neverPublicV6.any fun net => inNetwork net.1 net.2 ip then false
    else if embedsIpv4.any fun net => inNetwork net.1 net.2 ip then isPublicV4 is (ip.truncate 32)
    else match sixtofour ip with
      | some a => isPublicV4 is a
      | none => is.isGlobal (.v6 ip) && !is.isMulticast (.v6 ip)

/-! ### Errors -/

/-- What `socket.getaddrinfo` raises. -/
inductive DnsError
  | gaierror
  | unicodeError
  deriving DecidableEq, Repr

/-- What the HTTP client raises: an `httpx.HTTPError`, or anything else. -/
inductive ClientError
  | httpError (message : Text)
  | other (message : Text)
  deriving DecidableEq, Repr

/-- What reading a body raises. -/
inductive BodyError
  | responseTooLarge
  | deadlineExceeded
  | client (e : ClientError)
  deriving DecidableEq, Repr

/-- What can leave `request` as an exception. -/
inductive RequestError
  | unsafeUrl (message : Text)
  | deadlineExceeded (url : Text)
  | client (e : ClientError)
  | body (e : BodyError)
  | valueError (message : Text)
  | assertionError
  deriving DecidableEq, Repr

/-! ### Hosts and URLs -/

/-- What the code takes from outside the repository to treat host names: the
Unicode tables, and `idna.encode(host, uts46=True).decode("ascii")`. -/
structure HostTables where
  unicode : UnicodeTables
  idna : Text → Option Text

/-- Host tables for ASCII names, for which neither is consulted. -/
def asciiTables : HostTables := ⟨⟨id, id, id, id⟩, fun _ => none⟩

/-- `ascii_host`; the error is the message of the `UnsafeURLError`. -/
def asciiHost (t : HostTables) (host : Text) : Except Text Text :=
  let host := lower t.unicode (rstrip (· == '.') host)
  if host.isEmpty then .error "missing host".toList
  else if isAscii host then .ok host
  else match t.idna host with
    | some encoded => .ok encoded
    | none => .error "invalid host name".toList

/-- `host` in square brackets if it contains a colon. -/
def bracketed (host : Text) : Text :=
  if host.contains ':' then '[' :: host ++ [']'] else host

/-- `urlsplit` and the port; a `ValueError` becomes `malformed url: …`. -/
def splitUrl (t : HostTables) (url : Text) : Except Text (SplitResult × Option ℕ) :=
  match urlsplit t.unicode url with
  | .error m => .error ("malformed url: ".toList ++ m)
  | .ok parts =>
    match parts.port t.unicode with
    | .error m => .error ("malformed url: ".toList ++ m)
    | .ok port => .ok (parts, port)

/-- `path or "/"`. -/
def orSlash (path : Text) : Text := if path.isEmpty then ['/'] else path

/-- `canonical_url`. -/
def canonicalUrl (t : HostTables) (url : Text) : Except Text Text := do
  let (parts, port) ← splitUrl t (strip isSpace url)
  let scheme := lower t.unicode parts.scheme
  let host ← asciiHost t ((parts.hostname t.unicode).getD [])
  let netloc := bracketed host
  let netloc := match port with
    | some n => if allowedPort scheme = some n then netloc else netloc ++ ':' :: natStr n
    | none => netloc
  return urlunsplit ⟨scheme, netloc, orSlash parts.path, parts.query, []⟩

/-! ### resolve -/

/-- `Target`. -/
structure Target where
  scheme : Text
  host : Text
  port : ℕ
  address : IPAddress
  path : Text
  deriving DecidableEq

/-- `Target.pinned_url`. -/
def Target.pinnedUrl (t : Target) : Text :=
  let literal := if t.address.isV6 then '[' :: t.address.str ++ [']'] else t.address.str
  t.scheme ++ "://".toList ++ literal ++ ':' :: natStr t.port ++ t.path

/-- A user name or password that is there and not empty. -/
def truthy : Option Text → Bool
  | none => false
  | some s => !s.isEmpty

/-- The address of one answer of the resolver, the zone of a scoped address
cut off; `ipaddress.ip_address` raises a `ValueError` on other text. -/
def parseAnswer (sockaddr : Text) : Except RequestError IPAddress :=
  match IPAddress.ipAddress (partition '%' sockaddr).1 with
  | some a => .ok a
  | none => .error (.valueError (partition '%' sockaddr).1)

/-- The loop over the answers: the first one that is not public ends it. -/
def checkAnswers (is : AddressPredicates) : List Text → Except RequestError (List IPAddress)
  | [] => .ok []
  | sockaddr :: rest => do
    let a ← parseAnswer sockaddr
    if !isPublic is a then .error (.unsafeUrl notPublic)
    else return a :: (← checkAnswers is rest)

/-- The checks of `resolve` before the lookup: the parts of the URL, its
scheme with the default port, and its host. -/
def checkUrl (t : HostTables) (url : Text) (allowHttp : Bool) :
    Except Text (SplitResult × Text × ℕ × Text) := do
  let (parts, port) ← splitUrl t url
  let scheme := lower t.unicode parts.scheme
  match allowedPort scheme with
  | none => .error ("scheme not allowed: ".toList ++ t.unicode.repr scheme)
  | some defaultPort =>
    if scheme = "http".toList && !allowHttp then
      .error "plain http is not allowed; use https".toList
    else if port ≠ none ∧ port ≠ some defaultPort then
      .error ("port not allowed: ".toList ++ natStr (port.getD 0))
    else if truthy parts.username || truthy parts.password then
      .error "credentials in url are not allowed".toList
    else
      let host ← asciiHost t ((parts.hostname t.unicode).getD [])
      return (parts, scheme, defaultPort, host)

/-- `path + query`, never empty. -/
def pathAndQuery (parts : SplitResult) : Text :=
  if parts.query.isEmpty then orSlash parts.path else orSlash parts.path ++ '?' :: parts.query

/-- `resolve`.  `getaddrinfo` answers the one lookup that is made. -/
def resolve (t : HostTables) (is : AddressPredicates)
    (getaddrinfo : Text → ℕ → Except DnsError (List Text)) (url : Text) (allowHttp : Bool) :
    Except RequestError Target :=
  match checkUrl t url allowHttp with
  | .error m => .error (.unsafeUrl m)
  | .ok (parts, scheme, defaultPort, host) =>
    match getaddrinfo host defaultPort with
    | .error _ => .error (.unsafeUrl notPublic)
    | .ok infos =>
      match checkAnswers is infos with
      | .error e => .error e
      | .ok [] => .error (.unsafeUrl notPublic)
      | .ok (a :: _) => .ok ⟨scheme, host, defaultPort, a, pathAndQuery parts⟩

/-! ### request -/

/-- A `dict[str, str]` of headers: its keys are different. -/
structure Headers where
  entries : List (Text × Text)
  nodup : (entries.map Prod.fst).Nodup

/-- `{**entries, key: value}`. -/
def setItem (key value : Text) (entries : List (Text × Text)) : List (Text × Text) :=
  if entries.any fun e => e.1 = key then
    entries.map fun e => if e.1 = key then (key, value) else e
  else entries ++ [(key, value)]

/-- Two spellings of one header name. -/
def sameName (a b : Text) : Bool := a.map Char.toLower == b.map Char.toLower

/-- The values of a header, under every spelling of its name. -/
def headerValues (name : Text) (entries : List (Text × Text)) : List Text :=
  (entries.filter fun e => sameName name e.1).map Prod.snd

/-- `httpx.Headers.get`: several values are joined. -/
def headerGet (name : Text) (entries : List (Text × Text)) : Option Text :=
  match headerValues name entries with
  | [] => none
  | v :: vs => some (v ++ vs.flatMap fun x => ", ".toList ++ x)

/-- What `request` hands to the HTTP client: the arguments of
`client.build_request`, whose result is sent at once. -/
structure ClientRequest where
  method : Text
  url : Text
  headers : List (Text × Text)
  content : Option Bytes
  timeout : Seconds
  sniHostname : Option Text

/-- A response before its body is read. -/
structure Reply where
  statusCode : ℕ
  headers : List (Text × Text)

/-- What lies outside: the answers on each hop. -/
structure Internet where
  getaddrinfo : ℕ → Text → ℕ → Except DnsError (List Text)
  /-- the clock when `request` starts, and after `resolve` on each hop -/
  started : Seconds
  monotonic : ℕ → Seconds
  /-- building and sending a request with a fresh client -/
  client : ℕ → ClientRequest → Except ClientError Reply
  /-- the body of a response, given `max_bytes`, the deadline and `truncate` -/
  readBody : ℕ → Reply → ℕ → Seconds → Bool → Except BodyError (Bytes × Bool)

/-- The keyword arguments of `request` that do not change on the way. -/
structure Options where
  headers : Headers
  timeout : Seconds
  maxBytes : ℕ
  maxRedirects : ℕ
  allowHttp : Bool
  truncate : Bool
  discardBody : Bool

/-- `Response`. -/
structure Response where
  statusCode : ℕ
  headers : List (Text × Text)
  content : Bytes
  url : Text
  truncated : Bool
  permanentUrl : Option Text

/-- The variables the loop changes. -/
structure Loop where
  url : Text
  method : Text
  content : Option Bytes
  permanent : Bool

/-- One request handed to the client: the URL of the hop before it was pinned,
its target, and the request. -/
structure Hop where
  url : Text
  target : Target
  request : ClientRequest

/-- The request for a checked target. -/
def clientRequest (o : Options) (target : Target) (loop : Loop) (remaining : Seconds) :
    ClientRequest where
  method := loop.method
  url := target.pinnedUrl
  headers := setItem "Accept-Encoding".toList acceptEncoding
    (setItem "Host".toList (bracketed target.host) o.headers.entries)
  content := loop.content
  timeout := remaining
  sniHostname := if target.scheme = "https".toList then some target.host else none

/-- The loop variables after a followed redirect. -/
def Loop.follow (loop : Loop) (statusCode : ℕ) (url : Text) : Loop :=
  let toGet :=
    statusCode = 303 ∨ (statusCode = 301 ∨ statusCode = 302) ∧ loop.method = "POST".toList
  { url := url
    method := if toGet then "GET".toList else loop.method
    content := if toGet then none else loop.content
    permanent := loop.permanent && permanentRedirectCodes.contains statusCode }

/-- The `Location` of a response that is a redirect to follow. -/
def redirectLocation (o : Options) (hop : ℕ) (reply : Reply) : Option Text :=
  match headerGet "location".toList reply.headers with
  | some location =>
    if redirectCodes.contains reply.statusCode && !location.isEmpty && hop < o.maxRedirects then
      some location
    else none
  | none => none

/-- The end of a run: the body is read, or discarded. -/
def finish (net : Internet) (o : Options) (deadline : Seconds) (hop : ℕ) (loop : Loop)
    (reply : Reply) : Except RequestError Response :=
  let body := if o.discardBody then .ok ([], false)
    else net.readBody hop reply o.maxBytes deadline o.truncate
  match body with
  | .error e => .error (.body e)
  | .ok (content, truncated) =>
    .ok ⟨reply.statusCode, reply.headers, content, loop.url, truncated,
      if loop.permanent && 0 < hop then some loop.url else none⟩

/-- `for hop in range(…)`, with `left` hops to go: the hops taken, and the
outcome. -/
def hops (t : HostTables) (is : AddressPredicates) (net : Internet) (o : Options)
    (deadline : Seconds) : ℕ → ℕ → Loop → List Hop × Except RequestError Response
  | 0, _, _ => ([], .error .assertionError)
  | left + 1, hop, loop =>
    match resolve t is (net.getaddrinfo hop) loop.url o.allowHttp with
    | .error e => ([], .error e)
    | .ok target =>
      let remaining := deadline - net.monotonic hop
      -- the lookup has used up the time
      if remaining ≤ 0 then ([], .error (.deadlineExceeded loop.url))
      else
        let sent : Hop := ⟨loop.url, target, clientRequest o target loop remaining⟩
        -- from here on the request has left
        match net.client hop sent.request with
        | .error e => ([sent], .error (.client e))
        | .ok reply =>
          match redirectLocation o hop reply with
          | none => ([sent], finish net o deadline hop loop reply)
          | some location =>
            match urljoin t.unicode loop.url location with
            | .error m => ([sent], .error (.valueError m))
            | .ok url =>
              let rest := hops t is net o deadline left (hop + 1) (loop.follow reply.statusCode url)
              (sent :: rest.1, rest.2)

/-- `request`. -/
def request (t : HostTables) (is : AddressPredicates) (net : Internet) (o : Options)
    (method url : Text) (content : Option Bytes) : List Hop × Except RequestError Response :=
  hops t is net o (net.started + o.timeout) (o.maxRedirects + 1) 0
    ⟨url, upper t.unicode method, content, true⟩

/-! ### One hop -/

/-- The hop that sends the request for a checked target. -/
def sentHop (net : Internet) (o : Options) (deadline : Seconds) (hop : ℕ) (loop : Loop)
    (target : Target) : Hop :=
  ⟨loop.url, target, clientRequest o target loop (deadline - net.monotonic hop)⟩

/-- The ways a hop can go, with `left` hops behind it. -/
inductive HopRun (t : HostTables) (is : AddressPredicates) (net : Internet) (o : Options)
    (deadline : Seconds) (left hop : ℕ) (loop : Loop) :
    List Hop × Except RequestError Response → Prop
  | unresolved {e : RequestError} :
    resolve t is (net.getaddrinfo hop) loop.url o.allowHttp = .error e →
    HopRun t is net o deadline left hop loop ([], .error e)
  | late {target : Target} :
    resolve t is (net.getaddrinfo hop) loop.url o.allowHttp = .ok target →
    deadline - net.monotonic hop ≤ 0 →
    HopRun t is net o deadline left hop loop ([], .error (.deadlineExceeded loop.url))
  | lost {target : Target} {e : ClientError} :
    resolve t is (net.getaddrinfo hop) loop.url o.allowHttp = .ok target →
    0 < deadline - net.monotonic hop →
    net.client hop (sentHop net o deadline hop loop target).request = .error e →
    HopRun t is net o deadline left hop loop
      ([sentHop net o deadline hop loop target], .error (.client e))
  | last {target : Target} {reply : Reply} :
    resolve t is (net.getaddrinfo hop) loop.url o.allowHttp = .ok target →
    0 < deadline - net.monotonic hop →
    net.client hop (sentHop net o deadline hop loop target).request = .ok reply →
    redirectLocation o hop reply = none →
    HopRun t is net o deadline left hop loop
      ([sentHop net o deadline hop loop target], finish net o deadline hop loop reply)
  | unjoined {target : Target} {reply : Reply} {location m : Text} :
    resolve t is (net.getaddrinfo hop) loop.url o.allowHttp = .ok target →
    0 < deadline - net.monotonic hop →
    net.client hop (sentHop net o deadline hop loop target).request = .ok reply →
    redirectLocation o hop reply = some location →
    urljoin t.unicode loop.url location = .error m →
    HopRun t is net o deadline left hop loop
      ([sentHop net o deadline hop loop target], .error (.valueError m))
  | followed {target : Target} {reply : Reply} {location url : Text} :
    resolve t is (net.getaddrinfo hop) loop.url o.allowHttp = .ok target →
    0 < deadline - net.monotonic hop →
    net.client hop (sentHop net o deadline hop loop target).request = .ok reply →
    redirectLocation o hop reply = some location →
    urljoin t.unicode loop.url location = .ok url →
    HopRun t is net o deadline left hop loop
      (sentHop net o deadline hop loop target ::
          (hops t is net o deadline left (hop + 1) (loop.follow reply.statusCode url)).1,
        (hops t is net o deadline left (hop + 1) (loop.follow reply.statusCode url)).2)

/-- **A run goes hop by hop.** -/
theorem hops_run (t : HostTables) (is : AddressPredicates) (net : Internet) (o : Options)
    (deadline : Seconds) (left hop : ℕ) (loop : Loop) :
    HopRun t is net o deadline left hop loop (hops t is net o deadline (left + 1) hop loop) := by
  rw [hops]
  cases hr : resolve t is (net.getaddrinfo hop) loop.url o.allowHttp with
  | error e => exact .unresolved hr
  | ok target =>
    dsimp only
    split
    · rename_i hlate
      exact .late hr hlate
    · rename_i htime
      replace htime := Int.not_le.mp htime
      split
      · rename_i e hc
        exact .lost hr htime hc
      · rename_i reply hc
        split
        · rename_i hl
          exact .last hr htime hc hl
        · rename_i location hl
          split
          · rename_i m hj
            exact .unjoined hr htime hc hl hj
          · rename_i url hj
            exact .followed hr htime hc hl hj

end SafeHttp
