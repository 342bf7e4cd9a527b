/-
URL text: the parts of Python's `urllib.parse` that split, build and join URLs.

A raised `ValueError` is `.error` with its message.  `urlsplit` is the function
of that name (with `allow_fragments`), followed by `urlunsplit`, `urlparse`,
`urlunparse` and `urljoin`; `SplitResult.hostname`, `port`, `username` and
`password` are the properties of its result.

Main results:
* `urlsplit_wellFormed` — what `urlsplit` returns is well formed: each
  delimiter occurs only where the next split would put it;
* `urlsplit_build` — well-formed parts are recovered from the text they make;
* `urljoin_eq_ok` — two texts can be joined if each of them can be split.
-/
import Newsforge.IpAddress

open PyText

namespace UrlParse

/-! ### Tables -/

/-- `urllib.parse.uses_relative`. -/
def usesRelative : List Text :=
  ["", "ftp", "http", "gopher", "nntp", "imap", "wais", "file", "https", "shttp", "mms",
    "prospero", "rtsp", "rtsps", "rtspu", "sftp", "svn", "svn+ssh", "ws", "wss"].map String.toList

/-- `urllib.parse.uses_netloc`. -/
def usesNetloc : List Text :=
  ["", "ftp", "http", "gopher", "nntp", "telnet", "imap", "wais", "file", "mms", "https", "shttp",
    "snews", "prospero", "rtsp", "rtsps", "rtspu", "rsync", "svn", "svn+ssh", "sftp", "nfs", "git",
    "git+ssh", "ws", "wss", "itms-services"].map String.toList

/-- `urllib.parse.uses_params`. -/
def usesParams : List Text :=
  ["", "ftp", "hdl", "prospero", "http", "imap", "https", "shttp", "rtsp", "rtsps", "rtspu", "sip",
    "sips", "mms", "sftp", "tel"].map String.toList

/-- `scheme_chars`. -/
def isSchemeChar (c : Char) : Bool := c.isAlphanum || c == '+' || c == '-' || c == '.'

/-- `_WHATWG_C0_CONTROL_OR_SPACE`. -/
def isC0OrSpace (c : Char) : Bool := c.toNat ≤ 0x20

/-- `_UNSAFE_URL_BYTES_TO_REMOVE`. -/
def isUnsafe (c : Char) : Bool := c == '\t' || c == '\r' || c == '\n'

/-- The delimiters that end a netloc. -/
def isDelim (c : Char) : Bool := c == '/' || c == '?' || c == '#'

/-! ### urlsplit -/

structure SplitResult where
  scheme : Text
  netloc : Text
  path : Text
  query : Text
  fragment : Text
  deriving DecidableEq

def removeUnsafe (s : Text) : Text := s.filter fun c => !isUnsafe c

/-- The scheme in front of the first colon, lower-cased, if what stands there
is one; else the default scheme and the whole text. -/
def splitScheme (url scheme : Text) : Text × Text :=
  let colon := partition ':' url
  if colon.2.1 && colon.1.head?.any Char.isAlpha && colon.1.all isSchemeChar then
    (colon.1.map Char.toLower, colon.2.2)
  else (scheme, url)

/-- `_splitnetloc(url, 2)` on the text after the slashes. -/
def splitnetloc (url : Text) : Text × Text :=
  (url.takeWhile fun c => !isDelim c, url.dropWhile fun c => !isDelim c)

/-- The pattern `v[a-fA-F0-9]+\..+` of `_check_bracketed_host`. -/
def isIPvFuture (host : Text) : Bool :=
  let rest := host.tail
  let hex := rest.takeWhile IPAddress.isHexDigit
  match rest.dropWhile IPAddress.isHexDigit with
  | '.' :: t => !hex.isEmpty && !t.isEmpty && !t.contains '\n'
  | _ => false

/-- `_check_bracketed_host`. -/
def checkBracketedHost (u : UnicodeTables) (host : Text) : Except Text Unit :=
  if host.head? = some 'v' then
    if isIPvFuture host then .ok () else .error "IPvFuture address is invalid".toList
  else match IPAddress.ipAddress host with
    | none => .error (u.repr host ++ " does not appear to be an IPv4 or IPv6 address".toList)
    | some (.v4 _) => .error "An IPv4 address cannot be in brackets".toList
    | some (.v6 _) => .ok ()

/-- `_check_bracketed_netloc`. -/
def checkBracketedNetloc (u : UnicodeTables) (netloc : Text) : Except Text Unit :=
  let hostnameAndPort := (rpartition '@' netloc).2.2
  match partition '[' hostnameAndPort with
  | (before, true, bracketed) =>
    if !before.isEmpty then .error "Invalid IPv6 URL".toList
    else
      let (hostname, _, port) := partition ']' bracketed
      if !port.isEmpty && port.head? ≠ some ':' then .error "Invalid IPv6 URL".toList
      else checkBracketedHost u hostname
  | (_, false, _) => checkBracketedHost u (partition ':' hostnameAndPort).1

/-- `_checknetloc`: NFKC must not introduce a delimiter. -/
def checknetloc (u : UnicodeTables) (netloc : Text) : Except Text Unit :=
  if netloc.isEmpty || isAscii netloc then .ok ()
  else
    let n := removeChar '?' (removeChar '#' (removeChar ':' (removeChar '@' netloc)))
    let netloc2 := u.nfkc n
    if n = netloc2 then .ok ()
    else if netloc2.any fun c => c == '/' || c == '?' || c == '#' || c == '@' || c == ':' then
      .error ("netloc '".toList ++ netloc ++
        "' contains invalid characters under NFKC normalization".toList)
    else .ok ()

/-- The bracket checks `urlsplit` makes on a netloc. -/
def checkBrackets (u : UnicodeTables) (netloc : Text) : Except Text Unit :=
  if netloc.contains '[' != netloc.contains ']' then .error "Invalid IPv6 URL".toList
  else if netloc.contains '[' then checkBracketedNetloc u netloc
  else .ok ()

/-- The netloc behind two slashes, and what follows it. -/
def cutNetloc : Text → Text × Text
  | '/' :: '/' :: r => splitnetloc r
  | url => ([], url)

/-- `urlsplit` after the scheme: netloc, fragment and query are cut off. -/
def splitRest (u : UnicodeTables) (scheme : Text) (url : Text) : Except Text SplitResult := do
  let cut := cutNetloc url
  checkBrackets u cut.1
  let hash := partition '#' cut.2
  let mark := partition '?' hash.1
  checknetloc u cut.1
  return ⟨scheme, cut.1, mark.1, mark.2.2, hash.2.2⟩

/-- `urlsplit(url, scheme)`. -/
def urlsplitWith (u : UnicodeTables) (url scheme : Text) : Except Text SplitResult :=
  let url := removeUnsafe (lstrip isC0OrSpace url)
  let scheme := removeUnsafe (strip isC0OrSpace scheme)
  let (scheme, url) := splitScheme url scheme
  splitRest u scheme url

/-- `urlsplit(url)`. -/
def urlsplit (u : UnicodeTables) (url : Text) : Except Text SplitResult := urlsplitWith u url []

namespace SplitResult

/-- `_userinfo`: user name and password, if the netloc has an `@`. -/
def userinfo (p : SplitResult) : Option Text × Option Text :=
  match rpartition '@' p.netloc with
  | (info, true, _) =>
    match partition ':' info with
    | (username, true, password) => (some username, some password)
    | (username, false, _) => (some username, none)
  | _ => (none, none)

def username (p : SplitResult) : Option Text := p.userinfo.1

def password (p : SplitResult) : Option Text := p.userinfo.2

/-- `_hostinfo`: host and port text. -/
def hostinfo (p : SplitResult) : Text × Option Text :=
  let hostinfo := (rpartition '@' p.netloc).2.2
  let (hostname, port) := match partition '[' hostinfo with
    | (_, true, bracketed) =>
      let (hostname, _, port) := partition ']' bracketed
      (hostname, (partition ':' port).2.2)
    | (_, false, _) => ((partition ':' hostinfo).1, (partition ':' hostinfo).2.2)
  (hostname, if port.isEmpty then none else some port)

/-- The host in lower case; the zone of a scoped address keeps its case. -/
def hostname (u : UnicodeTables) (p : SplitResult) : Option Text :=
  if p.hostinfo.1.isEmpty then none
  else
    let (name, percent, zone) := partition '%' p.hostinfo.1
    some (lower u name ++ (if percent then ['%'] else []) ++ zone)

/-- The port as a number; raises unless it is decimal and at most 65535. -/
def port (u : UnicodeTables) (p : SplitResult) : Except Text (Option ℕ) :=
  match p.hostinfo.2 with
  | none => .ok none
  | some t =>
    if !isDecimal t then
      .error ("Port could not be cast to integer value as ".toList ++ u.repr t)
    else if decValue t > 65535 then .error "Port out of range 0-65535".toList
    else .ok (some (decValue t))

end SplitResult

/-! ### Building and joining -/

/-- `urlunsplit`. -/
def urlunsplit (p : SplitResult) : Text :=
  let url :=
    if !p.netloc.isEmpty then
      ['/', '/'] ++ p.netloc ++
        (if !p.path.isEmpty && p.path.head? ≠ some '/' then '/' :: p.path else p.path)
    else if p.path.take 2 = ['/', '/'] then ['/', '/'] ++ p.path
    else if !p.scheme.isEmpty && usesNetloc.contains p.scheme &&
        (p.path.isEmpty || p.path.head? = some '/') then
      ['/', '/'] ++ p.path
    else p.path
  let url := if p.scheme.isEmpty then url else p.scheme ++ ':' :: url
  let url := if p.query.isEmpty then url else url ++ '?' :: p.query
  if p.fragment.isEmpty then url else url ++ '#' :: p.fragment

structure ParseResult where
  scheme : Text
  netloc : Text
  path : Text
  params : Text
  query : Text
  fragment : Text

/-- `_splitparams`: the parameters of the last segment. -/
def splitparams (path : Text) : Text × Text :=
  match rpartition '/' path with
  | (before, true, last) =>
    match partition ';' last with
    | (seg, true, params) => (before ++ '/' :: seg, params)
    | (_, false, _) => (path, [])
  | (_, false, _) => ((partition ';' path).1, (partition ';' path).2.2)

/-- `urlparse(url, scheme)`. -/
def urlparse (u : UnicodeTables) (url scheme : Text) : Except Text ParseResult := do
  let p ← urlsplitWith u url scheme
  let (path, params) :=
    if usesParams.contains p.scheme && p.path.contains ';' then splitparams p.path
    else (p.path, [])
  return ⟨p.scheme, p.netloc, path, params, p.query, p.fragment⟩

/-- `urlunparse`. -/
def urlunparse (p : ParseResult) : Text :=
  urlunsplit ⟨p.scheme, p.netloc, if p.params.isEmpty then p.path else p.path ++ ';' :: p.params,
    p.query, p.fragment⟩

/-- The dot segments of a path, resolved as `urljoin` does. -/
def resolveDots (segments : List Text) : List Text :=
  segments.foldl (fun acc seg =>
    if seg = ['.', '.'] then acc.dropLast
    else if seg = ['.'] then acc
    else acc ++ [seg]) []

/-- The segments `urljoin` resolves: those of an absolute path, or those of the
base without its last one, followed by those of the relative path. -/
def joinSegments (bpath path : Text) : List Text :=
  let baseParts := split '/' bpath
  let baseParts := if baseParts.getLast? = some [] then baseParts else baseParts.dropLast
  if path.head? = some '/' then split '/' path
  else
    let segments := baseParts ++ split '/' path
    -- empty segments are kept only at the two ends
    match segments with
    | [] => []
    | [s] => [s]
    | s :: rest => s :: rest.dropLast.filter (fun t => !t.isEmpty) ++ rest.drop (rest.length - 1)

/-- `urljoin(base, url)`. -/
def urljoin (u : UnicodeTables) (base url : Text) : Except Text Text := do
  if base.isEmpty then return url
  if url.isEmpty then return base
  let b ← urlparse u base []
  let p ← urlparse u url b.scheme
  if p.scheme ≠ b.scheme || !usesRelative.contains p.scheme then return url
  if usesNetloc.contains p.scheme && !p.netloc.isEmpty then
    return urlunparse p
  let netloc := if usesNetloc.contains p.scheme then b.netloc else p.netloc
  if p.path.isEmpty && p.params.isEmpty then
    return urlunparse ⟨p.scheme, netloc, b.path, b.params,
      if p.query.isEmpty then b.query else p.query, p.fragment⟩
  let segments := joinSegments b.path p.path
  let resolved := resolveDots segments
  let resolved :=
    if segments.getLast? = some ['.'] || segments.getLast? = some ['.', '.'] then resolved ++ [[]]
    else resolved
  let path := join '/' resolved
  return urlunparse ⟨p.scheme, netloc, if path.isEmpty then ['/'] else path, p.params, p.query,
    p.fragment⟩

/-! ### What urlsplit returns -/

/-- Each delimiter stands only where the next split would put it. -/
structure SplitResult.WellFormed (p : SplitResult) : Prop where
  netloc : ∀ c ∈ p.netloc, isDelim c = false
  path : ∀ c ∈ p.path, c ≠ '?' ∧ c ≠ '#'
  query : '#' ∉ p.query
  rooted : p.netloc ≠ [] → p.path = [] ∨ p.path.head? = some '/'
  safe : ∀ c ∈ p.netloc ++ p.path ++ p.query, isUnsafe c = false

/-- The fragment and the query are cut off a text that follows the netloc. -/
private theorem splitRest_wellFormed {u : UnicodeTables} {scheme url : Text} {p : SplitResult}
    (h : splitRest u scheme url = .ok p) (hsafe : ∀ c ∈ url, isUnsafe c = false) :
    p.WellFormed := by
  -- the netloc ends before the first delimiter; without two slashes it is empty
  obtain ⟨netloc, rest, hcut, hnet, hroot, hsub⟩ : ∃ netloc rest,
      cutNetloc url = (netloc, rest) ∧
      (∀ c ∈ netloc, isDelim c = false) ∧
      (netloc ≠ [] → ∀ c ∈ rest.head?, isDelim c = true) ∧
      (∀ c ∈ netloc ++ rest, c ∈ url) := by
    rw [cutNetloc.eq_def]
    split
    · rename_i r
      refine ⟨_, _, rfl, ?_, ?_, ?_⟩
      · intro c hc
        have := List.all_takeWhile (p := fun c => !isDelim c) (l := r)
        rw [List.all_eq_true] at this
        simpa using this c hc
      · intro _ c hc
        have := List.head?_dropWhile_not (fun c => !isDelim c) r
        rw [Option.mem_def] at hc
        simp only [hc] at this
        simpa using this
      · intro c hc
        rw [List.takeWhile_append_dropWhile] at hc
        exact List.mem_cons_of_mem _ (List.mem_cons_of_mem _ hc)
    · refine ⟨[], url, rfl, ?_, ?_, ?_⟩
      · intro c hc
        exact absurd hc List.not_mem_nil
      · intro hne
        exact absurd rfl hne
      · intro c hc
        exact hc
  rw [splitRest, hcut] at h
  simp only [bind, Except.bind, pure, Except.pure] at h
  split at h
  · exact absurd h (by simp)
  split at h
  · exact absurd h (by simp)
  rw [Except.ok.injEq] at h
  subst h
  -- the fragment is cut off first, then the query
  have hpath : ∀ c ∈ (partition '?' (partition '#' rest).1).1, c ∈ rest ∧ c ≠ '?' ∧ c ≠ '#' := by
    intro c hc
    have h1 := mem_of_mem_partition_fst hc
    have h2 := mem_of_mem_partition_fst h1.1
    exact ⟨h2.1, h1.2, h2.2⟩
  have hquery : ∀ c ∈ (partition '?' (partition '#' rest).1).2.2, c ∈ rest ∧ c ≠ '#' := by
    intro c hc
    exact mem_of_mem_partition_fst (mem_of_mem_partition_snd hc)
  refine ⟨hnet, fun c hc => (hpath c hc).2, fun hc => (hquery _ hc).2 rfl, ?_, ?_⟩
  · -- behind a netloc the path begins with a slash, or a query follows at once
    intro hne
    have hhead := hroot hne
    rcases rest with _ | ⟨c, rest⟩
    · exact Or.inl rfl
    · have hc := hhead c rfl
      simp only [isDelim, Bool.or_eq_true, beq_iff_eq] at hc
      rcases hc with (rfl | rfl) | rfl
      · exact Or.inr rfl
      · exact Or.inl (by simp [partition])
      · exact Or.inl (by simp [partition])
  · intro c hc
    simp only [List.mem_append] at hc
    refine hsafe c (hsub c ?_)
    rw [List.mem_append]
    rcases hc with (hc | hc) | hc
    · exact Or.inl hc
    · exact Or.inr (hpath c hc).1
    · exact Or.inr (hquery c hc).1

private theorem mem_splitScheme {url scheme : Text} {c : Char}
    (hc : c ∈ (splitScheme url scheme).2) : c ∈ url := by
  rw [splitScheme] at hc
  split at hc
  · exact mem_of_mem_partition_snd hc
  · exact hc

theorem urlsplitWith_wellFormed {u : UnicodeTables} {url scheme : Text} {p : SplitResult}
    (h : urlsplitWith u url scheme = .ok p) : p.WellFormed := by
  have hrest : splitRest u
      (splitScheme (removeUnsafe (lstrip isC0OrSpace url))
        (removeUnsafe (strip isC0OrSpace scheme))).1
      (splitScheme (removeUnsafe (lstrip isC0OrSpace url))
        (removeUnsafe (strip isC0OrSpace scheme))).2 = .ok p := h
  refine splitRest_wellFormed hrest fun c hc => ?_
  simpa using (List.mem_filter.mp (mem_splitScheme hc)).2

theorem urlsplit_wellFormed {u : UnicodeTables} {url : Text} {p : SplitResult}
    (h : urlsplit u url = .ok p) : p.WellFormed := urlsplitWith_wellFormed h

/-! ### Well-formed parts are recovered -/

/-- `scheme://netloc` followed by path and query. -/
def build (scheme netloc path query : Text) : Text :=
  scheme ++ ':' :: '/' :: '/' :: (netloc ++ (path ++ if query = [] then [] else '?' :: query))

/-- A lower-case scheme name. -/
structure IsScheme (scheme : Text) : Prop where
  head : scheme.head?.any Char.isAlpha = true
  chars : ∀ c ∈ scheme, isSchemeChar c = true
  lower : scheme.map Char.toLower = scheme

theorem isSchemeChar_lt {c : Char} (h : isSchemeChar c = true) :
    c ≠ ':' ∧ isUnsafe c = false := by
  constructor
  · rintro rfl
    exact absurd h (by decide)
  · by_contra hu
    rw [Bool.not_eq_false, isUnsafe, Bool.or_eq_true, Bool.or_eq_true, beq_iff_eq, beq_iff_eq,
      beq_iff_eq] at hu
    rcases hu with (rfl | rfl) | rfl <;> exact absurd h (by decide)

theorem isAlpha_not_space {c : Char} (h : c.isAlpha = true) : isC0OrSpace c = false := by
  have hn : c.val.toNat = c.toNat := rfl
  have hA : ('A'.val).toNat = 65 := rfl
  have ha : ('a'.val).toNat = 97 := rfl
  have hge : 65 ≤ c.toNat := by
    rcases Bool.or_eq_true_iff.mp h with h | h
    · have := UInt32.le_iff_toNat_le.mp (of_decide_eq_true h).1
      omega
    · have := UInt32.le_iff_toNat_le.mp (of_decide_eq_true (Bool.and_eq_true_iff.mp h).1)
      omega
  rw [isC0OrSpace, decide_eq_false_iff_not]
  omega

/-- A scheme ends at the first colon. -/
theorem splitScheme_append {scheme : Text} (hs : IsScheme scheme) (rest other : Text) :
    splitScheme (scheme ++ ':' :: rest) other = (scheme, rest) := by
  have hcolon : ':' ∉ scheme := fun h => (isSchemeChar_lt (hs.chars _ h)).1 rfl
  have hall : scheme.all isSchemeChar = true := List.all_eq_true.mpr hs.chars
  simp only [splitScheme, partition_append hcolon, hs.head, hall, Bool.and_self, if_true, hs.lower]

/-- A netloc ends where the path, the query or the fragment begins. -/
theorem cutNetloc_append {netloc rest : Text} (hnet : ∀ c ∈ netloc, isDelim c = false)
    (hrest : ∀ c ∈ rest.head?, isDelim c = true) :
    cutNetloc ('/' :: '/' :: (netloc ++ rest)) = (netloc, rest) := by
  have htake : ∀ c ∈ netloc, (!isDelim c) = true := by
    intro c hc
    simp [hnet c hc]
  rw [cutNetloc, splitnetloc, List.takeWhile_append_of_pos htake,
    List.dropWhile_append_of_pos htake]
  cases rest with
  | nil => simp
  | cons c rest => simp [hrest c rfl]

/-- The query stands behind a question mark, and an empty one does not stand at all. -/
theorem mem_queryPart {query : Text} {c : Char}
    (h : c ∈ if query = [] then [] else '?' :: query) : c = '?' ∨ c ∈ query := by
  split at h
  · exact absurd h List.not_mem_nil
  · exact List.mem_cons.mp h

/-- A URL of well-formed parts has no character that is removed before the split. -/
theorem SplitResult.WellFormed.removeUnsafe_build {p : SplitResult} (hp : p.WellFormed)
    (hs : IsScheme p.scheme) :
    removeUnsafe (build p.scheme p.netloc p.path p.query) =
      build p.scheme p.netloc p.path p.query := by
  rw [removeUnsafe, List.filter_eq_self]
  intro x hx
  have hmem := hp.safe x
  simp only [build, List.mem_append, List.mem_cons] at hx hmem
  rcases hx with hx | rfl | rfl | rfl | hx | hx | hx
  · have := (isSchemeChar_lt (hs.chars x hx)).2
    simp [this]
  · decide
  · decide
  · decide
  · simp [hmem (Or.inl (Or.inl hx))]
  · simp [hmem (Or.inl (Or.inr hx))]
  · rcases mem_queryPart hx with rfl | hx
    · decide
    · simp [hmem (Or.inr hx)]

/-- The netloc ends where the path or the query begins. -/
theorem SplitResult.WellFormed.cutNetloc_build {p : SplitResult} (hp : p.WellFormed)
    (hne : p.netloc ≠ []) :
    cutNetloc ('/' :: '/' ::
        (p.netloc ++ (p.path ++ if p.query = [] then [] else '?' :: p.query))) =
      (p.netloc, p.path ++ if p.query = [] then [] else '?' :: p.query) := by
  refine cutNetloc_append hp.netloc fun x hx => ?_
  rcases hp.rooted hne with h | h
  · rw [h] at hx
    by_cases hq : p.query = []
    · simp [hq] at hx
    · simp only [List.nil_append, if_neg hq, List.head?_cons, Option.mem_some_iff] at hx
      subst hx
      decide
  · cases hpath : p.path with
    | nil => exact absurd h (by simp [hpath])
    | cons y path =>
      rw [hpath, List.head?_cons, Option.some_inj] at h
      subst h
      simp only [hpath, List.cons_append, List.head?_cons, Option.mem_some_iff] at hx
      subst hx
      decide

/-- No fragment begins in the path or in the query. -/
theorem SplitResult.WellFormed.hash_notMem {p : SplitResult} (hp : p.WellFormed) :
    '#' ∉ p.path ++ if p.query = [] then [] else '?' :: p.query := by
  intro h
  rcases List.mem_append.mp h with h | h
  · exact (hp.path _ h).2 rfl
  · rcases mem_queryPart h with h | h
    · exact absurd h (by decide)
    · exact hp.query h

/-- A URL made of well-formed parts splits into these parts, or its netloc does
not pass the checks. -/
theorem urlsplit_build_eq {u : UnicodeTables} {p : SplitResult} (hp : p.WellFormed)
    (hs : IsScheme p.scheme) (hne : p.netloc ≠ []) (hfrag : p.fragment = []) :
    urlsplit u (build p.scheme p.netloc p.path p.query) =
      (do checkBrackets u p.netloc; checknetloc u p.netloc; return p) := by
  have hsafe := hp.removeUnsafe_build hs
  have hcut := hp.cutNetloc_build hne
  have hhash := hp.hash_notMem
  have hmark : '?' ∉ p.path := fun h => (hp.path _ h).1 rfl
  obtain ⟨scheme, netloc, path, query, fragment⟩ := p
  dsimp only at hs hne hfrag hsafe hcut hhash hmark ⊢
  subst hfrag
  -- nothing is stripped, as the scheme begins with a letter
  have hstrip : lstrip isC0OrSpace (build scheme netloc path query) =
      build scheme netloc path query := by
    cases scheme with
    | nil => exact absurd hs.head (by simp)
    | cons c s =>
      have hc : c.isAlpha = true := by simpa using hs.head
      simp [lstrip, build, isAlpha_not_space hc]
  have hscheme : splitScheme (build scheme netloc path query)
      (removeUnsafe (strip isC0OrSpace [])) =
        (scheme, '/' :: '/' ::
          (netloc ++ (path ++ if query = [] then [] else '?' :: query))) :=
    splitScheme_append hs _ _
  rw [urlsplit, urlsplitWith, hstrip, hsafe]
  simp only [hscheme]
  -- neither the path nor the query has a delimiter of what follows it
  rw [splitRest]
  simp only [hcut, partition_of_notMem hhash]
  by_cases hq : query = []
  · simp only [hq, if_true, List.append_nil, partition_of_notMem hmark]
  · simp only [if_neg hq, partition_append hmark]

/-- **A URL made of well-formed parts splits into these parts.** -/
theorem urlsplit_build {u : UnicodeTables} {p : SplitResult} (hp : p.WellFormed)
    (hs : IsScheme p.scheme) (hne : p.netloc ≠ []) (hfrag : p.fragment = [])
    (hb : checkBrackets u p.netloc = .ok ()) (hn : checknetloc u p.netloc = .ok ()) :
    urlsplit u (build p.scheme p.netloc p.path p.query) = .ok p := by
  rw [urlsplit_build_eq hp hs hne hfrag, hb, hn]
  rfl

/-! ### What can be joined -/

/-- The text has a form that `urlsplit` accepts. -/
def Splits (u : UnicodeTables) (url : Text) : Prop := ∃ p, urlsplit u url = .ok p

instance (u : UnicodeTables) (url : Text) : Decidable (Splits u url) :=
  match h : urlsplit u url with
  | .ok p => isTrue ⟨p, h⟩
  | .error m => isFalse fun ⟨p, hp⟩ => by
      rw [h] at hp
      cases hp

/-- Whether a text can be split does not depend on the scheme put in front. -/
theorem splitRest_eq_ok {u : UnicodeTables} {scheme url : Text} :
    (∃ p, splitRest u scheme url = .ok p) ↔
      checkBrackets u (cutNetloc url).1 = .ok () ∧ checknetloc u (cutNetloc url).1 = .ok () := by
  rw [splitRest]
  cases checkBrackets u (cutNetloc url).1 with
  | error m => simp [bind, Except.bind]
  | ok a =>
    cases checknetloc u (cutNetloc url).1 with
    | error m => simp [bind, Except.bind]
    | ok b => simp [bind, Except.bind, pure, Except.pure]

theorem splitScheme_snd (url scheme scheme' : Text) :
    (splitScheme url scheme).2 = (splitScheme url scheme').2 := by
  rw [splitScheme, splitScheme]
  split <;> rfl

theorem urlsplitWith_eq_ok {u : UnicodeTables} {url : Text} (scheme : Text) :
    (∃ p, urlsplitWith u url scheme = .ok p) ↔ Splits u url := by
  have hrest : (splitScheme (removeUnsafe (lstrip isC0OrSpace url))
        (removeUnsafe (strip isC0OrSpace scheme))).2 =
      (splitScheme (removeUnsafe (lstrip isC0OrSpace url))
        (removeUnsafe (strip isC0OrSpace []))).2 := splitScheme_snd _ _ _
  rw [Splits, urlsplit, urlsplitWith, urlsplitWith]
  dsimp only
  rw [splitRest_eq_ok, splitRest_eq_ok, hrest]

theorem urlparse_eq_ok {u : UnicodeTables} {url : Text} (scheme : Text) :
    (∃ p, urlparse u url scheme = .ok p) ↔ Splits u url := by
  rw [← urlsplitWith_eq_ok scheme, urlparse]
  cases urlsplitWith u url scheme with
  | error m => simp [bind, Except.bind]
  | ok p => simp [bind, Except.bind, pure, Except.pure]

/-- **Only a text that cannot be split cannot be joined.** -/
theorem urljoin_eq_ok {u : UnicodeTables} {base url : Text} (hbase : base ≠ []) (hurl : url ≠ []) :
    (∃ v, urljoin u base url = .ok v) ↔ Splits u base ∧ Splits u url := by
  have hb : base.isEmpty = false := List.isEmpty_eq_false_iff.mpr hbase
  have hu : url.isEmpty = false := List.isEmpty_eq_false_iff.mpr hurl
  rw [urljoin, hb, hu]
  rw [← urlparse_eq_ok []]
  cases urlparse u base [] with
  | error m => simp [bind, Except.bind]
  | ok b =>
    rw [← urlparse_eq_ok b.scheme]
    simp only [bind, Except.bind, Bool.false_eq_true, if_false]
    cases urlparse u url b.scheme with
    | error m => simp
    | ok p =>
      -- from here on every way out returns a text
      refine iff_of_true ?_ ⟨⟨b, rfl⟩, ⟨p, rfl⟩⟩
      dsimp only
      split
      · exact ⟨_, rfl⟩
      · split
        · exact ⟨_, rfl⟩
        · split
          · exact ⟨_, rfl⟩
          · exact ⟨_, rfl⟩

end UrlParse
