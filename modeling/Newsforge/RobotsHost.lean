/-
Which robots.txt is consulted.

`is_allowed` takes the host out of a URL and pastes it into the URL of a robots.txt,
which `resolve` takes apart once more.

* `robotsUrlOf`, `isAllowed_eq` — the robots.txt that is asked for;
* `resolve_robotsUrl` — a host that is pasted back is found again;
* `isAllowed_of_colons` — where it is not, everything is allowed.

Main result: `resolve_robotsUrlOf_iff`.
-/
import Newsforge.CanonicalUrl
import Newsforge.Robots

open PyText UrlParse SafeHttp

namespace Robots

variable {s : Settings} {k : CharTables}

/-! ### The robots.txt that is asked for -/

/-- The URL of the robots.txt for a URL. -/
def robotsUrlOf (s : Settings) (url : Text) : Option Text :=
  match urlsplit s.hosts.unicode url with
  | .error _ => none
  | .ok parsed => (parsed.hostname s.hosts.unicode).map fun hostname =>
      robotsUrl (lower s.hosts.unicode hostname)
        (if parsed.scheme.isEmpty then "https".toList else parsed.scheme)

/-- The answer to a policy that was fetched. -/
def answer (s : Settings) (url : Text) (policy : Text × ℕ) :
    Except RequestError (Bool × Option (Text × ℕ)) :=
  if policy.1.isEmpty then .ok (true, some policy)
  else (orValueError (canFetch s.hosts.unicode policy.1 url (productToken s.userAgent))).map
    fun ok => (ok, some policy)

/-- The request for a robots.txt. -/
def requestRobots (s : Settings) (net : Internet) (r : Text) : Except RequestError (Text × ℕ) :=
  policyOf (request s.hosts s.is net (robotsOptions s) "GET".toList r none).2

theorem fetchRobots_eq (net : Internet) (domain scheme : Text) :
    fetchRobots s net domain scheme = requestRobots s net (robotsUrl domain scheme) := rfl

/-- **With nothing in the cache** the answer is that of the robots.txt that is asked
for. -/
theorem isAllowed_eq {url r : Text} (h : robotsUrlOf s url = some r) (net : Internet) :
    isAllowed s net none url = (requestRobots s net r).bind (answer s url) := by
  rw [robotsUrlOf] at h
  cases hs : urlsplit s.hosts.unicode url with
  | error m =>
    rw [hs] at h
    cases h
  | ok parsed =>
    rw [hs] at h
    obtain ⟨hostname, hhost, rfl⟩ := Option.map_eq_some_iff.mp h
    rw [isAllowed, hs]
    simp only [orValueError, bind, Except.bind, hhost, fetchRobots_eq]
    cases requestRobots s net (robotsUrl (lower s.hosts.unicode hostname)
        (if parsed.scheme.isEmpty then "https".toList else parsed.scheme)) with
    | error e => rfl
    | ok policy =>
      simp only [Except.map, answer]
      split
      · rfl
      · cases canFetch s.hosts.unicode policy.1 url (productToken s.userAgent) <;> rfl

/-! ### A host that is pasted back -/

variable {getaddrinfo : Text → ℕ → Except DnsError (List Text)} {allowHttp : Bool} {url : Text}
  {target : Target}

  {p : SplitResult} {scheme host : Text} {port : ℕ}

/-- The host as it is pasted into the URL of the robots.txt. -/
def domainOf (s : Settings) (p : SplitResult) : Text :=
  lower s.hosts.unicode (lowerHost s.hosts.unicode p.hostinfo.1)

/-- The parts of the URL of the robots.txt. -/
def robotsParts (s : Settings) (scheme : Text) (p : SplitResult) : SplitResult :=
  ⟨scheme, domainOf s p, "/robots.txt".toList, [], []⟩

theorem robotsParts_netloc (s : Settings) (scheme : Text) (p : SplitResult) :
    (robotsParts s scheme p).netloc = domainOf s p := rfl

theorem robotsUrl_eq_urlText {domain scheme : Text} (hne : scheme ≠ []) :
    robotsUrl domain scheme = urlText scheme domain "/robots.txt".toList := by
  rw [robotsUrl, urlText, if_neg hne]
  simp

/-- There is nothing in the path of a robots.txt that ends it. -/
theorem robotsPath_chars : ∀ c ∈ "/robots.txt".toList, c ≠ '?' ∧ isUnsafe c = false ∧ c ≠ '#' := by
  have hall : ("/robots.txt".toList.all fun c => c ≠ '?' && (!isUnsafe c && c ≠ '#')) = true := by
    decide
  intro c hc
  simpa using List.all_eq_true.mp hall c hc

theorem robotsPath_head : "/robots.txt".toList.head? = some '/' := by decide

/-- A character without case is in the domain where it was in the URL. -/
theorem mem_domainOf_iff (hu : UnicodeRules s.hosts.unicode k) {c : Char}
    (hc : isAsciiChar c = true) (hletter : c.isAlpha = false) :
    c ∈ domainOf s p ↔ c ∈ p.hostinfo.1 := by
  rw [domainOf, hu.lower_eq, CharTables.mem_lower_iff hc hletter, mem_lowerHost_iff hu hc hletter]

theorem fixed_of_mem_domainOf (hu : UnicodeRules s.hosts.unicode k) {c : Char}
    (hc : c ∈ domainOf s p) : k.Fixed c := by
  rw [domainOf, hu.lower_eq] at hc
  exact CharTables.fixed_of_mem_lower hc

section
variable (h : Checked s.hosts url allowHttp p scheme port host)
include h

theorem scheme_eq : p.scheme = scheme := by
  rw [h.isScheme, lower_scheme h.split]

theorem scheme_cases : scheme = "http".toList ∨ scheme = "https".toList := by
  have hallowed := h.allowed
  rw [allowedPort] at hallowed
  split at hallowed
  · exact .inl ‹_›
  · split at hallowed
    · exact .inr ‹_›
    · cases hallowed

theorem isScheme_of_checked : IsScheme scheme := by
  rcases scheme_cases h with h | h
  · rw [h]
    exact ⟨rfl, List.all_eq_true.mp rfl, rfl⟩
  · rw [h]
    exact ⟨rfl, List.all_eq_true.mp rfl, rfl⟩

theorem asciiHost_of_checked :
    asciiHost s.hosts (lowerHost s.hosts.unicode p.hostinfo.1) = .ok host := by
  rw [← hostname_getD]
  exact h.isHost

theorem robotsUrlOf_eq : robotsUrlOf s url = some (robotsUrl (domainOf s p) scheme) := by
  have hhost : p.hostname s.hosts.unicode = some (lowerHost s.hosts.unicode p.hostinfo.1) := by
    have hne : p.hostinfo.1.isEmpty = false :=
      List.isEmpty_eq_false_iff.mpr (ne_nil_of_asciiHost (asciiHost_of_checked h))
    rw [SplitResult.hostname, hne]
    rfl
  have hscheme : scheme.isEmpty = false := by
    rcases scheme_cases h with h | h <;> rw [h] <;> rfl
  rw [robotsUrlOf, h.split]
  simp only [hhost, Option.map_some, scheme_eq h, hscheme, domainOf]
  rfl

/-- A delimiter would have ended the host. -/
theorem domainOf_chars (hu : UnicodeRules s.hosts.unicode k) {c : Char} (hc : c ∈ domainOf s p) :
    isDelim c = false ∧ isUnsafe c = false ∧ c ≠ '@' := by
  by_contra hbad
  have hplain : isAsciiChar c = true ∧ c.isAlpha = false := by
    simp only [isDelim, isUnsafe, not_and_or, Bool.not_eq_false, Bool.or_eq_true, beq_iff_eq,
      not_not] at hbad
    rcases hbad with ((rfl | rfl) | rfl) | ((rfl | rfl) | rfl) | rfl <;> decide
  obtain ⟨hmem, hat⟩ := mem_hostinfo ((mem_domainOf_iff hu hplain.1 hplain.2).mp hc)
  have hwf := urlsplit_wellFormed h.split
  exact hbad ⟨hwf.netloc c hmem, hwf.safe c (by simp [hmem]), hat⟩

theorem checknetloc_domainOf (hu : UnicodeRules s.hosts.unicode k) :
    checknetloc s.hosts.unicode (domainOf s p) = .ok () := by
  have hslash : '/' ∉ domainOf s p := fun hc => absurd (domainOf_chars h hu hc).1 (by decide)
  have hslash' : '/' ∉ p.netloc := fun hc =>
    absurd ((urlsplit_wellFormed h.split).netloc _ hc) (by decide)
  rw [checknetloc_iff hu hslash]
  intro c hc hhides
  rw [domainOf, hu.lower_eq] at hc
  obtain ⟨c₁, hc₁, hhides₁, hascii₁⟩ := CharTables.hides_of_mem_lower hc hhides
  obtain ⟨c₂, hc₂, hhides₂, hascii₂⟩ := hides_of_mem_lowerHost hu hc₁ hhides₁
  have hcheck := (checknetloc_iff hu hslash').mp (urlsplit_checks h.split).2
  exact hascii₁ (hascii₂ (hcheck c₂ (mem_hostinfo hc₂).1 hhides₂))

/-- The URL of the robots.txt is split, unless there are brackets in the host. -/
theorem urlsplit_robotsUrl (hu : UnicodeRules s.hosts.unicode k) :
    urlsplit s.hosts.unicode (robotsUrl (domainOf s p) scheme) =
      (checkBrackets s.hosts.unicode (domainOf s p)).map fun _ => robotsParts s scheme p := by
  have hnet : IsNetloc (domainOf s p) := fun c hc =>
    ⟨(domainOf_chars h hu hc).1, (domainOf_chars h hu hc).2.1⟩
  have hne : scheme ≠ [] := by
    rcases scheme_cases h with h | h <;> rw [h] <;> exact List.cons_ne_nil _ _
  have hmark : '?' ∉ "/robots.txt".toList := fun hc => (robotsPath_chars _ hc).1 rfl
  rw [robotsUrl_eq_urlText hne, urlsplit_urlText (.inr (isScheme_of_checked h)) hnet
    robotsPath_head fun c hc => (robotsPath_chars c hc).2, checknetloc_domainOf h hu,
    partition_of_notMem hmark, robotsParts]
  cases checkBrackets s.hosts.unicode (domainOf s p) <;> rfl

/-- No colon, no brackets: the host is found again. -/
theorem checkUrl_robotsUrl (hu : UnicodeRules s.hosts.unicode k) (hcolon : ':' ∉ domainOf s p)
    (hopen : '[' ∉ domainOf s p) (hclose : ']' ∉ domainOf s p) :
    checkUrl s.hosts (robotsUrl (domainOf s p) scheme) allowHttp =
      .ok (robotsParts s scheme p, scheme, port, host) := by
  have hat : '@' ∉ domainOf s p := fun hc => (domainOf_chars h hu hc).2.2 rfl
  have hsplit : urlsplit s.hosts.unicode (robotsUrl (domainOf s p) scheme) =
      .ok (robotsParts s scheme p) := by
    rw [urlsplit_robotsUrl h hu, checkBrackets_none hopen hclose]
    rfl
  have hinfo : (robotsParts s scheme p).hostinfo = (domainOf s p, none) := by
    rw [hostinfo_plain (by rwa [robotsParts_netloc]) (by rwa [robotsParts_netloc]),
      robotsParts_netloc, partition_of_notMem hcolon]
    rfl
  have hport : (robotsParts s scheme p).port s.hosts.unicode = .ok none := by
    rw [port_eq, hinfo]
    rfl
  have huser : (robotsParts s scheme p).userinfo = (none, none) := by
    rw [SplitResult.userinfo, robotsParts_netloc, rpartition_of_notMem hat]
  have hhost : asciiHost s.hosts
      (((robotsParts s scheme p).hostname s.hosts.unicode).getD []) = .ok host := by
    rw [hostname_getD, hinfo, lowerHost_of_fixed hu fun c hc => fixed_of_mem_domainOf hu hc,
      domainOf, asciiHost_lower hu]
    exact asciiHost_of_checked h
  have hscheme : lower s.hosts.unicode (robotsParts s scheme p).scheme = scheme :=
    lower_scheme hsplit
  have hplain : (decide (scheme = "http".toList) && !allowHttp) = false := by
    cases hd : decide (scheme = "http".toList) with
    | false => rfl
    | true =>
      rw [h.plain (of_decide_eq_true hd)]
      rfl
  rw [checkUrl, splitUrl]
  simp only [hsplit, hport, bind, Except.bind, hscheme, h.allowed, hplain, hhost,
    SplitResult.username, SplitResult.password, huser]
  rfl

end

theorem pathAndQuery_robotsParts (s : Settings) (scheme : Text) (p : SplitResult) :
    pathAndQuery (robotsParts s scheme p) = "/robots.txt".toList := by
  rw [pathAndQuery_eq, robotsParts, orSlash_of_head robotsPath_head, if_pos rfl, List.append_nil]

/-- **The robots.txt is looked for where the URL is**, at its own path. -/
theorem resolve_robotsUrl (hu : UnicodeRules s.hosts.unicode k)
    (h : resolve s.hosts s.is getaddrinfo url allowHttp = .ok target)
    (hsplit : urlsplit s.hosts.unicode url = .ok p) (hcolon : ':' ∉ p.hostinfo.1)
    (hopen : '[' ∉ p.hostinfo.1) (hclose : ']' ∉ p.hostinfo.1) :
    resolve s.hosts s.is getaddrinfo (robotsUrl (domainOf s p) target.scheme) allowHttp =
      .ok { target with path := "/robots.txt".toList } := by
  obtain ⟨q, answer, addresses, hchecked, hanswer, haddresses, hhead, -⟩ := resolve_eq_ok h
  obtain rfl : q = p := Except.ok.inj (hchecked.split.symm.trans hsplit)
  have hcheck := checkUrl_robotsUrl hchecked hu
    (mt (mem_domainOf_iff hu (by decide) (by decide)).mp hcolon)
    (mt (mem_domainOf_iff hu (by decide) (by decide)).mp hopen)
    (mt (mem_domainOf_iff hu (by decide) (by decide)).mp hclose)
  rw [resolve, hcheck]
  simp only [hanswer, haddresses]
  cases addresses with
  | nil => cases hhead
  | cons a rest =>
    rw [List.head?_cons, Option.some.injEq] at hhead
    rw [← hhead, pathAndQuery_robotsParts]

/-- A host with a colon or with brackets is not found again. -/
theorem notMem_of_resolve (hu : UnicodeRules s.hosts.unicode k)
    (hi : IdnaChars s.hosts.idna) {target' : Target}
    (h : Checked s.hosts url allowHttp p target.scheme target.port target.host)
    (hr : resolve s.hosts s.is getaddrinfo (robotsUrl (domainOf s p) target.scheme) allowHttp =
      .ok target') (hhost : target'.host = target.host) :
    ':' ∉ p.hostinfo.1 ∧ '[' ∉ p.hostinfo.1 ∧ ']' ∉ p.hostinfo.1 := by
  obtain ⟨q, -, -, hchecked, -⟩ := resolve_eq_ok hr
  have hsplit := hchecked.split
  rw [urlsplit_robotsUrl h hu] at hsplit
  have hbrackets : '[' ∈ domainOf s p ↔ ']' ∈ domainOf s p := by
    by_contra hone
    rw [checkBrackets_one hone] at hsplit
    cases hsplit
  have hq : q = robotsParts s target.scheme p := by
    cases hb : checkBrackets s.hosts.unicode (domainOf s p) with
    | error m =>
      rw [hb] at hsplit
      cases hsplit
    | ok =>
      rw [hb] at hsplit
      exact (Except.ok.inj hsplit).symm
  have hopen : '[' ∉ domainOf s p := by
    intro hmem
    have hmem' := hbrackets.mp hmem
    rw [mem_domainOf_iff hu (by decide) (by decide)] at hmem hmem'
    exact hostinfo_not_both ⟨hmem, hmem'⟩
  have hat : '@' ∉ domainOf s p := fun hc => (domainOf_chars h hu hc).2.2 rfl
  have hname := asciiHost_of_checked hchecked
  rw [hq, hostinfo_plain (by rwa [robotsParts_netloc]) (by rwa [robotsParts_netloc]),
    robotsParts_netloc, hhost] at hname
  -- what is found ends before the first colon
  have hcolon : ':' ∉ target.host := by
    rw [mem_asciiHost_iff hu hi hname (by decide) (by decide) (by decide) (by decide)]
    exact fun hmem => (mem_of_mem_partition_fst hmem).2 rfl
  refine ⟨?_, ?_, ?_⟩
  · rwa [mem_asciiHost_iff hu hi (asciiHost_of_checked h) (by decide) (by decide) (by decide)
      (by decide)] at hcolon
  · rwa [mem_domainOf_iff hu (by decide) (by decide)] at hopen
  · rwa [hbrackets, mem_domainOf_iff hu (by decide) (by decide)] at hopen

/-- The host of the URL has neither a colon nor square brackets. -/
def PlainHost (u : UnicodeTables) (url : Text) : Prop :=
  ∀ p, urlsplit u url = .ok p → ∀ c ∈ (p.hostname u).getD [], c ≠ ':' ∧ c ≠ '[' ∧ c ≠ ']'

theorem plainHost_iff (hu : UnicodeRules s.hosts.unicode k)
    (hsplit : urlsplit s.hosts.unicode url = .ok p) :
    PlainHost s.hosts.unicode url ↔
      ':' ∉ p.hostinfo.1 ∧ '[' ∉ p.hostinfo.1 ∧ ']' ∉ p.hostinfo.1 := by
  rw [← mem_lowerHost_iff hu (show isAsciiChar ':' = true by decide) (by decide),
    ← mem_lowerHost_iff hu (show isAsciiChar '[' = true by decide) (by decide),
    ← mem_lowerHost_iff hu (show isAsciiChar ']' = true by decide) (by decide), PlainHost]
  constructor
  · intro h
    have hchars := h p hsplit
    rw [hostname_getD] at hchars
    exact ⟨fun hc => (hchars _ hc).1 rfl, fun hc => (hchars _ hc).2.1 rfl,
      fun hc => (hchars _ hc).2.2 rfl⟩
  · rintro ⟨hcolon, hopen, hclose⟩ q hq c hc
    obtain rfl : q = p := Except.ok.inj (hq.symm.trans hsplit)
    rw [hostname_getD] at hc
    refine ⟨?_, ?_, ?_⟩
    · rintro rfl
      exact hcolon hc
    · rintro rfl
      exact hopen hc
    · rintro rfl
      exact hclose hc

/-- **The right robots.txt is consulted** exactly for a host without colons and
brackets. -/
theorem resolve_robotsUrlOf_iff (hu : UnicodeRules s.hosts.unicode k)
    (hi : IdnaChars s.hosts.idna)
    (h : resolve s.hosts s.is getaddrinfo url s.allowPlainHttp = .ok target) :
    ∃ r, robotsUrlOf s url = some r ∧
      (∀ net, isAllowed s net none url = (requestRobots s net r).bind (answer s url)) ∧
      ((∃ target', resolve s.hosts s.is getaddrinfo r s.allowPlainHttp = .ok target' ∧
          target'.scheme = target.scheme ∧ target'.host = target.host ∧
          target'.port = target.port ∧ target'.path = "/robots.txt".toList) ↔
        PlainHost s.hosts.unicode url) := by
  obtain ⟨p, -, -, hchecked, -⟩ := resolve_eq_ok h
  have hr := robotsUrlOf_eq hchecked
  refine ⟨_, hr, fun net => isAllowed_eq hr net, ?_⟩
  rw [plainHost_iff hu hchecked.split]
  constructor
  · rintro ⟨target', hr', -, hhost, -, -⟩
    exact notMem_of_resolve hu hi hchecked hr' hhost
  · rintro ⟨hcolon, hopen, hclose⟩
    exact ⟨_, resolve_robotsUrl hu h hchecked.split hcolon hopen hclose, rfl, rfl, rfl, rfl⟩

/-! ### Where the host is not found again -/

theorem splitUrl_of_colons (hu : UnicodeRules s.hosts.unicode k)
    (h : Checked s.hosts url allowHttp p scheme port host)
    (hcolons : ':' ∈ (partition ':' (domainOf s p)).2.2) :
    ∃ m, splitUrl s.hosts (robotsUrl (domainOf s p) scheme) = .error m := by
  rw [splitUrl, urlsplit_robotsUrl h hu]
  cases hb : checkBrackets s.hosts.unicode (domainOf s p) with
  | error m => exact ⟨_, rfl⟩
  | ok =>
    have hopen : '[' ∉ domainOf s p := by
      intro hmem
      have hclose : ']' ∈ domainOf s p := by
        by_contra hno
        rw [checkBrackets_one fun hiff => hno (hiff.mp hmem)] at hb
        cases hb
      rw [mem_domainOf_iff hu (by decide) (by decide)] at hmem hclose
      exact hostinfo_not_both ⟨hmem, hclose⟩
    have hat : '@' ∉ domainOf s p := fun hc => (domainOf_chars h hu hc).2.2 rfl
    -- what follows the first colon is no number
    have hdecimal : isDecimal (partition ':' (domainOf s p)).2.2 = false := by
      rw [isDecimal, Bool.and_eq_false_iff]
      refine .inr (List.all_eq_false.mpr ⟨':', hcolons, by decide⟩)
    have hport : ∃ m, (robotsParts s scheme p).port s.hosts.unicode = .error m := by
      have htext : portText (partition ':' (domainOf s p)).2.2 =
          some (partition ':' (domainOf s p)).2.2 := by
        rw [portText, if_neg fun hnil => List.ne_nil_of_mem hcolons (List.isEmpty_iff.mp hnil)]
      rw [port_eq, hostinfo_plain (by rwa [robotsParts_netloc]) (by rwa [robotsParts_netloc]),
        robotsParts_netloc, htext, portOf, hdecimal]
      exact ⟨_, rfl⟩
    obtain ⟨m, hm⟩ := hport
    simp only [Except.map, hm]
    exact ⟨_, rfl⟩

/-- **Behind an address without its brackets no robots.txt is found**, and everything is
allowed. -/
theorem isAllowed_of_colons (hu : UnicodeRules s.hosts.unicode k)
    (h : Checked s.hosts url allowHttp p scheme port host)
    (hcolons : ':' ∈ (partition ':' (domainOf s p)).2.2) (net : Internet) :
    isAllowed s net none url = .ok (true, some ([], retryTtlSeconds)) := by
  obtain ⟨m, hm⟩ := splitUrl_of_colons hu h hcolons
  have hcheck : checkUrl s.hosts (robotsUrl (domainOf s p) scheme) s.allowPlainHttp = .error m := by
    rw [checkUrl, hm]
    rfl
  have hresolve : resolve s.hosts s.is (net.getaddrinfo 0) (robotsUrl (domainOf s p) scheme)
      s.allowPlainHttp = .error (.unsafeUrl m) := by
    rw [resolve, hcheck]
  have hrequest : requestRobots s net (robotsUrl (domainOf s p) scheme) =
      .ok ([], retryTtlSeconds) := by
    rw [requestRobots, request, hops]
    simp only [robotsOptions, hresolve]
    rfl
  rw [isAllowed_eq (robotsUrlOf_eq h) net, hrequest]
  rfl

/-! ### One host name and one address -/

def bookSettings : Settings := ⟨bookHosts, unicast, "NewsForge/1.0".toList, false⟩

/-- A resolver that knows one address. -/
def oneAddress : Text → ℕ → Except DnsError (List Text) := fun _ _ =>
  .ok ["2606:4700::6810:84e5".toList]

def bookUrl : Text := "https://Bücher.example.:443/feed".toList

def bookTarget : Target :=
  ⟨"https".toList, "xn--bcher-kva.example".toList, 443, .v6 0x260647000000000000000000681084e5,
    "/feed".toList⟩

theorem resolve_robotsUrlOf_books :
    ∃ r, robotsUrlOf bookSettings bookUrl = some r ∧
      (∀ net, isAllowed bookSettings net none bookUrl =
        (requestRobots bookSettings net r).bind (answer bookSettings bookUrl)) ∧
      ((∃ target', resolve bookHosts unicast oneAddress r false = .ok target' ∧
          target'.scheme = bookTarget.scheme ∧ target'.host = bookTarget.host ∧
          target'.port = bookTarget.port ∧ target'.path = "/robots.txt".toList) ↔
        PlainHost basicUnicode bookUrl) :=
  resolve_robotsUrlOf_iff (s := bookSettings) basicUnicode_rules bookHosts_rules.idnaChars
    (show resolve bookHosts unicast oneAddress bookUrl false = .ok bookTarget by decide)

/-- The address of a host is pasted without its brackets. -/
theorem robots_of_address_not_found :
    resolve bookHosts unicast oneAddress "https://[2606:4700::6810:84e5]/feed".toList false =
        .ok ⟨"https".toList, "2606:4700::6810:84e5".toList, 443,
          .v6 0x260647000000000000000000681084e5, "/feed".toList⟩ ∧
      robotsUrlOf bookSettings "https://[2606:4700::6810:84e5]/feed".toList =
        some "https://2606:4700::6810:84e5/robots.txt".toList ∧
      ∀ target, resolve bookHosts unicast oneAddress
        "https://2606:4700::6810:84e5/robots.txt".toList false ≠ .ok target := by
  refine ⟨by decide, by decide, fun target h => ?_⟩
  have herror : (resolve bookHosts unicast oneAddress
      "https://2606:4700::6810:84e5/robots.txt".toList false).toOption = none := by decide
  rw [h] at herror
  cases herror

end Robots
