/-
SSRF safety of whole runs of `safe_http.request`.

For every start URL, redirect chain, resolver and server, each request that is
handed to the HTTP client meets `SafeHop`: it goes to the first of the
addresses the one lookup of its hop returned, all of them public, on the
default port of an allowed scheme; its URL reads back as that address; and
`Host` and SNI name the host of the URL of the hop.

* `splitUrl_eq_ok`, `checkUrl_eq_ok`, `checkAnswers_eq_ok`, `resolve_eq_ok` —
  what each check leaves behind, each said once;
* `urlsplit_pinnedUrl` — the pinned URL splits into what it was built from;
* `safeHop_of_mem_hops` — the step lemma of the redirect loop.

Main results: `request_is_safe`, and `caller_can_add_a_host_header` for the one
header the code does not control.
-/
import Mathlib.Data.List.Lemmas
import Newsforge.SafeHttp

open PyText UrlParse

namespace SafeHttp

variable {t : HostTables} {is : AddressPredicates} {net : Internet} {o : Options}

/-! ### What the checks leave behind -/

theorem splitUrl_eq_ok {url : Text} {parts : SplitResult} {port : Option ℕ}
    (h : splitUrl t url = .ok (parts, port)) :
    urlsplit t.unicode url = .ok parts ∧ parts.port t.unicode = .ok port := by
  rw [splitUrl] at h
  cases hs : urlsplit t.unicode url with
  | error m =>
    rw [hs] at h
    cases h
  | ok p =>
    rw [hs] at h
    cases hp : p.port t.unicode with
    | error m =>
      simp only [hp] at h
      cases h
    | ok n =>
      simp only [hp] at h
      cases h
      exact ⟨rfl, hp⟩

/-- What `checkUrl` found out about a URL it accepts. -/
structure Checked (t : HostTables) (url : Text) (allowHttp : Bool) (parts : SplitResult)
    (scheme : Text) (port : ℕ) (host : Text) : Prop where
  split : urlsplit t.unicode url = .ok parts
  isScheme : scheme = lower t.unicode parts.scheme
  allowed : allowedPort scheme = some port
  plain : scheme = "http".toList → allowHttp = true
  isHost : asciiHost t ((parts.hostname t.unicode).getD []) = .ok host
  noUsername : truthy parts.username = false
  noPassword : truthy parts.password = false

theorem checkUrl_eq_ok {url : Text} {allowHttp : Bool} {parts : SplitResult} {scheme host : Text}
    {port : ℕ} (h : checkUrl t url allowHttp = .ok (parts, scheme, port, host)) :
    Checked t url allowHttp parts scheme port host := by
  rw [checkUrl] at h
  cases hs : splitUrl t url with
  | error m =>
    rw [hs] at h
    cases h
  | ok r =>
    obtain ⟨p, n⟩ := r
    obtain ⟨hsplit, -⟩ := splitUrl_eq_ok hs
    simp only [hs, bind, Except.bind] at h
    cases ha : allowedPort (lower t.unicode p.scheme) with
    | none =>
      simp only [ha] at h
      cases h
    | some d =>
      simp only [ha] at h
      split at h
      · cases h
      · rename_i hplain
        split at h
        · cases h
        · split at h
          · cases h
          · rename_i hcred
            cases hh : asciiHost t ((p.hostname t.unicode).getD []) with
            | error m =>
              simp only [hh] at h
              cases h
            | ok a =>
              simp only [hh] at h
              cases h
              rw [Bool.not_eq_true, Bool.or_eq_false_iff] at hcred
              refine ⟨hsplit, rfl, ha, fun hscheme => ?_, hh, hcred.1, hcred.2⟩
              by_contra hno
              exact hplain (by simp [hscheme, hno])

/-- Every answer is an address, and every address is public. -/
theorem checkAnswers_eq_ok {infos : List Text} {addresses : List IPAddress}
    (h : checkAnswers is infos = .ok addresses) :
    infos.map (fun s => IPAddress.ipAddress (partition '%' s).1) = addresses.map some ∧
      ∀ a ∈ addresses, isPublic is a = true := by
  induction infos generalizing addresses with
  | nil =>
    cases h
    exact ⟨rfl, fun a ha => absurd ha List.not_mem_nil⟩
  | cons s rest ih =>
    rw [checkAnswers, parseAnswer] at h
    cases ha : IPAddress.ipAddress (partition '%' s).1 with
    | none =>
      rw [ha] at h
      cases h
    | some a =>
      simp only [ha, bind, Except.bind] at h
      split at h
      · cases h
      · rename_i hpub
        cases hr : checkAnswers is rest with
        | error e =>
          simp only [hr] at h
          cases h
        | ok as =>
          simp only [hr] at h
          cases h
          obtain ⟨hmap, hall⟩ := ih hr
          refine ⟨?_, ?_⟩
          · rw [List.map_cons, List.map_cons, ha, hmap]
          · intro b hb
            rcases List.mem_cons.mp hb with rfl | hb
            · simpa using hpub
            · exact hall b hb

theorem resolve_eq_ok {getaddrinfo : Text → ℕ → Except DnsError (List Text)} {url : Text}
    {allowHttp : Bool} {target : Target} (h : resolve t is getaddrinfo url allowHttp = .ok target) :
    ∃ parts answer addresses,
      Checked t url allowHttp parts target.scheme target.port target.host ∧
      getaddrinfo target.host target.port = .ok answer ∧
      checkAnswers is answer = .ok addresses ∧ addresses.head? = some target.address ∧
      target.path = pathAndQuery parts := by
  rw [resolve] at h
  cases hc : checkUrl t url allowHttp with
  | error m =>
    rw [hc] at h
    cases h
  | ok r =>
    obtain ⟨parts, scheme, port, host⟩ := r
    simp only [hc] at h
    cases hg : getaddrinfo host port with
    | error e =>
      simp only [hg] at h
      cases h
    | ok answer =>
      simp only [hg] at h
      cases ha : checkAnswers is answer with
      | error e =>
        simp only [ha] at h
        cases h
      | ok addresses =>
        cases addresses with
        | nil =>
          simp only [ha] at h
          cases h
        | cons a as =>
          simp only [ha] at h
          cases h
          exact ⟨parts, answer, a :: as, checkUrl_eq_ok hc, hg, ha, rfl, rfl⟩

/-! ### The pinned URL reads back -/

/-- The address as it stands in a URL. -/
def literal (a : IPAddress) : Text := if a.isV6 then '[' :: a.str ++ [']'] else a.str

/-- A digit, a dot or a colon is no delimiter of a netloc, and lower-case
ASCII. -/
theorem literalChar {c : Char} (h : (∃ d < 16, c = d.digitChar) ∨ c = '.' ∨ c = ':') :
    c ≠ '[' ∧ c ≠ ']' ∧ c ≠ '@' ∧ c ≠ '%' ∧ isDelim c = false ∧ isUnsafe c = false ∧
      isAsciiChar c = true ∧ c.toLower = c := by
  have hdigit : ∀ d < 16, let c := Nat.digitChar d; c ≠ '[' ∧ c ≠ ']' ∧ c ≠ '@' ∧ c ≠ '%' ∧
      isDelim c = false ∧ isUnsafe c = false ∧ isAsciiChar c = true ∧ c.toLower = c := by decide
  rcases h with ⟨d, hd, rfl⟩ | rfl | rfl
  · exact hdigit d hd
  · decide
  · decide

theorem mem_str {a : IPAddress} {c : Char} (h : c ∈ a.str) :
    (∃ d < 16, c = d.digitChar) ∨ c = '.' ∨ c = ':' := by
  cases a with
  | v4 ip => exact (IPAddress.mem_str_v4 h).imp id .inl
  | v6 ip => exact (IPAddress.mem_str_v6 h).imp id .inr

theorem mem_natStr {n : ℕ} {c : Char} (h : c ∈ natStr n) : ∃ d < 10, c = d.digitChar :=
  mem_toDigits (by decide) h

theorem portChar {n : ℕ} {c : Char} (h : c ∈ ':' :: natStr n) :
    (∃ d < 16, c = d.digitChar) ∨ c = '.' ∨ c = ':' := by
  rcases List.mem_cons.mp h with rfl | h
  · exact .inr (.inr rfl)
  · obtain ⟨d, hd, rfl⟩ := mem_natStr h
    exact .inl ⟨d, by omega, rfl⟩

/-- The parts of a pinned URL. -/
def pinnedParts (target : Target) (path query : Text) : SplitResult :=
  ⟨target.scheme, literal target.address ++ ':' :: natStr target.port, path, query, []⟩

/-- What stands in the netloc of a pinned URL. -/
theorem mem_pinned_netloc {a : IPAddress} {n : ℕ} {c : Char}
    (h : c ∈ literal a ++ ':' :: natStr n) :
    c ≠ '@' ∧ isDelim c = false ∧ isUnsafe c = false ∧ isAsciiChar c = true := by
  have hsafe : ∀ c, (∃ d < 16, c = Nat.digitChar d) ∨ c = '.' ∨ c = ':' →
      c ≠ '@' ∧ isDelim c = false ∧ isUnsafe c = false ∧ isAsciiChar c = true := by
    intro c hc
    obtain ⟨-, -, hat, -, hdelim, hunsafe, hascii, -⟩ := literalChar hc
    exact ⟨hat, hdelim, hunsafe, hascii⟩
  rcases List.mem_append.mp h with h | h
  · rw [literal] at h
    split at h
    · rw [List.mem_append, List.mem_cons, List.mem_singleton] at h
      rcases h with (rfl | h) | rfl
      · decide
      · exact hsafe c (mem_str h)
      · decide
    · exact hsafe c (mem_str h)
  · exact hsafe c (portChar h)

/-- The host and the port in the netloc of a pinned URL. -/
theorem hostinfo_pinned (target : Target) (path query : Text) :
    (pinnedParts target path query).hostinfo = (target.address.str, some (natStr target.port)) := by
  have hat : '@' ∉ literal target.address ++ ':' :: natStr target.port :=
    fun h => (mem_pinned_netloc h).1 rfl
  have hport : (natStr target.port).isEmpty = false :=
    List.isEmpty_eq_false_iff.mpr Nat.toDigits_ne_nil
  rw [SplitResult.hostinfo, pinnedParts, rpartition_of_notMem hat]
  cases ha : target.address with
  | v4 ip =>
    have hopen : '[' ∉ IPAddress.str (.v4 ip) ++ ':' :: natStr target.port := by
      intro h
      rcases List.mem_append.mp h with h | h
      · exact (literalChar (mem_str h)).1 rfl
      · exact (literalChar (portChar h)).1 rfl
    have hcolon : ':' ∉ IPAddress.str (.v4 ip) := by
      intro h
      rcases IPAddress.mem_str_v4 h with ⟨d, hd, hc⟩ | hc
      · exact absurd hc.symm ((by decide : ∀ d < 16, Nat.digitChar d ≠ ':') d hd)
      · exact absurd hc (by decide)
    have hlit : literal (.v4 ip) = IPAddress.str (.v4 ip) := rfl
    -- no bracket: the host ends at the first colon
    simp only [hlit, partition_of_notMem hopen, partition_append hcolon, hport]
    rfl
  | v6 ip =>
    -- the brackets hide the colons of the address
    have hclose : ']' ∉ IPAddress.str (.v6 ip) := fun h => (literalChar (mem_str h)).2.1 rfl
    have hlit : literal (.v6 ip) ++ ':' :: natStr target.port =
        [] ++ '[' :: (IPAddress.str (.v6 ip) ++ ']' :: ':' :: natStr target.port) := by
      simp [literal, IPAddress.isV6]
    have hnil : '[' ∉ ([] : Text) := List.not_mem_nil
    have hcolon : partition ':' (':' :: natStr target.port) = ([], true, natStr target.port) :=
      partition_append (s := []) List.not_mem_nil _
    rw [hlit]
    simp only [partition_append hnil, partition_append hclose, hcolon, hport]
    rfl

theorem isDecimal_natStr (n : ℕ) : isDecimal (natStr n) = true := by
  have hne : (natStr n).isEmpty = false := List.isEmpty_eq_false_iff.mpr Nat.toDigits_ne_nil
  rw [isDecimal, hne]
  refine List.all_eq_true.mpr fun c hc => ?_
  obtain ⟨d, hd, rfl⟩ := mem_natStr hc
  exact (by decide : ∀ d < 10, (Nat.digitChar d).isDigit = true) d hd

theorem decValue_natStr (n : ℕ) : decValue (natStr n) = n :=
  numeral_toDigits (by decide) (by decide) n

theorem port_pinned (target : Target) (path query : Text) (hport : target.port ≤ 65535) :
    (pinnedParts target path query).port t.unicode = .ok (some target.port) := by
  rw [SplitResult.port, hostinfo_pinned]
  simp only [isDecimal_natStr, decValue_natStr, Bool.not_true, Bool.false_eq_true, if_false]
  rw [if_neg (by omega)]

theorem hostname_pinned (target : Target) (path query : Text) :
    (pinnedParts target path query).hostname t.unicode = some target.address.str := by
  have hne : target.address.str.isEmpty = false := by
    rw [List.isEmpty_eq_false_iff]
    intro h
    have hread := IPAddress.ipAddress_str target.address
    rw [h, show IPAddress.ipAddress [] = none by decide] at hread
    cases hread
  have hpercent : '%' ∉ target.address.str := fun h => (literalChar (mem_str h)).2.2.2.1 rfl
  have hlower : lower t.unicode target.address.str = target.address.str := by
    refine lower_eq_self fun c hc => ?_
    obtain ⟨-, -, -, -, -, -, hascii, hlow⟩ := literalChar (mem_str hc)
    exact ⟨hascii, hlow⟩
  rw [SplitResult.hostname, hostinfo_pinned]
  simp only [hne, Bool.false_eq_true, if_false, partition_of_notMem hpercent, hlower,
    List.append_nil]

/-- The netloc of a pinned URL passes the bracket checks. -/
theorem checkBrackets_pinned (u : UnicodeTables) (a : IPAddress) (n : ℕ) :
    checkBrackets u (literal a ++ ':' :: natStr n) = .ok () := by
  have hport : ∀ c ∈ ':' :: natStr n, c ≠ '[' ∧ c ≠ ']' := fun c hc =>
    ⟨(literalChar (portChar hc)).1, (literalChar (portChar hc)).2.1⟩
  cases ha : a with
  | v4 ip =>
    have hno : ∀ c ∈ literal (.v4 ip) ++ ':' :: natStr n, c ≠ '[' ∧ c ≠ ']' := by
      intro c hc
      rcases List.mem_append.mp hc with hc | hc
      · have := literalChar (mem_str (a := .v4 ip) hc)
        exact ⟨this.1, this.2.1⟩
      · exact hport c hc
    have hopen : (literal (.v4 ip) ++ ':' :: natStr n).contains '[' = false := by
      rw [List.contains_eq_mem, decide_eq_false_iff_not]
      exact fun h => (hno _ h).1 rfl
    have hclose : (literal (.v4 ip) ++ ':' :: natStr n).contains ']' = false := by
      rw [List.contains_eq_mem, decide_eq_false_iff_not]
      exact fun h => (hno _ h).2 rfl
    rw [checkBrackets, hopen, hclose]
    rfl
  | v6 ip =>
    have hlit : literal (.v6 ip) ++ ':' :: natStr n =
        '[' :: (IPAddress.str (.v6 ip) ++ ']' :: ':' :: natStr n) := by
      simp [literal, IPAddress.isV6]
    have hat : '@' ∉ '[' :: (IPAddress.str (.v6 ip) ++ ']' :: ':' :: natStr n) := by
      rw [← hlit]
      exact fun h => (mem_pinned_netloc h).1 rfl
    have hclose : ']' ∉ IPAddress.str (.v6 ip) := fun h => (literalChar (mem_str h)).2.1 rfl
    have hfirst : partition '[' ('[' :: (IPAddress.str (.v6 ip) ++ ']' :: ':' :: natStr n)) =
        ([], true, IPAddress.str (.v6 ip) ++ ']' :: ':' :: natStr n) :=
      partition_append (s := []) List.not_mem_nil _
    have hhost : checkBracketedHost u (IPAddress.str (.v6 ip)) = .ok () := by
      -- it is not taken for an IPvFuture literal
      have hv : (IPAddress.str (.v6 ip)).head? ≠ some 'v' := by
        intro h
        rcases IPAddress.mem_str_v6 (List.mem_of_mem_head? h) with ⟨d, hd, hc⟩ | hc
        · exact absurd hc.symm ((by decide : ∀ d < 16, Nat.digitChar d ≠ 'v') d hd)
        · exact absurd hc (by decide)
      rw [checkBracketedHost, if_neg hv, IPAddress.ipAddress_str]
    have hcontains : ('[' :: (IPAddress.str (.v6 ip) ++ ']' :: ':' :: natStr n)).contains '[' =
        true := by simp
    have hcontains' : ('[' :: (IPAddress.str (.v6 ip) ++ ']' :: ':' :: natStr n)).contains ']' =
        true := by simp
    rw [hlit, checkBrackets, hcontains, hcontains', checkBracketedNetloc, rpartition_of_notMem hat]
    simp only [bne_self_eq_false, Bool.false_eq_true, if_false, if_true, hfirst,
      partition_append hclose]
    simp [hhost]

theorem checknetloc_pinned (u : UnicodeTables) (a : IPAddress) (n : ℕ) :
    checknetloc u (literal a ++ ':' :: natStr n) = .ok () := by
  have hascii : isAscii (literal a ++ ':' :: natStr n) = true :=
    List.all_eq_true.mpr fun c hc => (mem_pinned_netloc hc).2.2.2
  rw [checknetloc, hascii, Bool.or_true, if_pos rfl]

/-- The allowed schemes are scheme names, and their ports are ports. -/
theorem allowedPort_eq_some {scheme : Text} {port : ℕ} (h : allowedPort scheme = some port) :
    (scheme = "http".toList ∧ port = 80 ∨ scheme = "https".toList ∧ port = 443) := by
  rw [allowedPort] at h
  split at h
  · cases h
    exact .inl ⟨‹_›, rfl⟩
  · split at h
    · cases h
      exact .inr ⟨‹_›, rfl⟩
    · cases h

theorem isScheme_of_allowed {scheme : Text} {port : ℕ} (h : allowedPort scheme = some port) :
    IsScheme scheme := by
  rcases allowedPort_eq_some h with ⟨rfl, -⟩ | ⟨rfl, -⟩
  · exact ⟨rfl, List.all_eq_true.mp rfl, rfl⟩
  · exact ⟨rfl, List.all_eq_true.mp rfl, rfl⟩

/-- A URL without a host is refused. -/
theorem Checked.netloc_ne_nil {url : Text} {allowHttp : Bool} {parts : SplitResult}
    {scheme host : Text} {port : ℕ} (h : Checked t url allowHttp parts scheme port host) :
    parts.netloc ≠ [] := by
  intro hnil
  have hinfo : parts.hostinfo.1 = [] := by
    rw [SplitResult.hostinfo, hnil]
    rfl
  have hhost := h.isHost
  rw [SplitResult.hostname, hinfo] at hhost
  have hmissing : asciiHost t [] = .error "missing host".toList := rfl
  rw [show (if ([] : Text).isEmpty = true then (none : Option Text) else _).getD [] = [] from rfl,
    hmissing] at hhost
  cases hhost

/-- Behind a netloc stands a path that is rooted, or none. -/
theorem head?_orSlash {url : Text} {parts : SplitResult} (hs : urlsplit t.unicode url = .ok parts)
    (hne : parts.netloc ≠ []) : (orSlash parts.path).head? = some '/' := by
  rw [orSlash]
  split
  · rfl
  · rename_i hpath
    rcases (urlsplit_wellFormed hs).rooted hne with h | h
    · rw [h] at hpath
      exact absurd rfl hpath
    · exact h

/-- The path and query of the hop are what a pinned URL carries. -/
theorem pinnedParts_wellFormed {url : Text} {parts : SplitResult} (target : Target)
    (hs : urlsplit t.unicode url = .ok parts) (hne : parts.netloc ≠ []) :
    (pinnedParts target (orSlash parts.path) parts.query).WellFormed := by
  have hwf := urlsplit_wellFormed hs
  have hpath : ∀ c ∈ orSlash parts.path, c ∈ parts.path ∨ c = '/' := by
    intro c hc
    rw [orSlash] at hc
    split at hc
    · exact .inr (List.mem_singleton.mp hc)
    · exact .inl hc
  refine ⟨fun c hc => (mem_pinned_netloc hc).2.1, ?_, hwf.query, fun _ => .inr ?_, ?_⟩
  · intro c hc
    rcases hpath c hc with hc | rfl
    · exact hwf.path c hc
    · decide
  · exact head?_orSlash hs hne
  · intro c hc
    simp only [pinnedParts, List.mem_append] at hc
    rcases hc with (hc | hc) | hc
    · exact (mem_pinned_netloc (List.mem_append.mpr hc)).2.2.1
    · rcases hpath c hc with hc | rfl
      · exact hwf.safe c (by simp [hc])
      · decide
    · exact hwf.safe c (by simp [hc])

/-- **The pinned URL splits into what it was built from**, whatever path and
query the URL of the hop carried. -/
theorem urlsplit_pinnedUrl {url : Text} {allowHttp : Bool} {parts : SplitResult} {target : Target}
    (hc : Checked t url allowHttp parts target.scheme target.port target.host)
    (hpath : target.path = pathAndQuery parts) :
    urlsplit t.unicode target.pinnedUrl =
      .ok (pinnedParts target (orSlash parts.path) parts.query) := by
  have hwf := pinnedParts_wellFormed target hc.split hc.netloc_ne_nil
  have hbuild : target.pinnedUrl =
      build target.scheme (literal target.address ++ ':' :: natStr target.port)
        (orSlash parts.path) parts.query := by
    rw [Target.pinnedUrl, hpath, pathAndQuery, build]
    by_cases hq : parts.query = []
    · simp [hq, literal]
    · simp [hq, literal]
  have hnetloc : (pinnedParts target (orSlash parts.path) parts.query).netloc ≠ [] :=
    List.append_ne_nil_of_right_ne_nil _ (List.cons_ne_nil _ _)
  rw [hbuild]
  exact urlsplit_build (p := pinnedParts target (orSlash parts.path) parts.query) hwf
    (isScheme_of_allowed hc.allowed) hnetloc rfl
    (checkBrackets_pinned t.unicode target.address target.port)
    (checknetloc_pinned t.unicode target.address target.port)

/-! ### Headers -/

theorem map_replace_of_notMem {key value : Text} {entries : List (Text × Text)}
    (h : ∀ e ∈ entries, e.1 ≠ key) :
    (entries.map fun e => if e.1 = key then (key, value) else e) = entries := by
  conv_rhs => rw [← List.map_id entries]
  exact List.map_congr_left fun e he => if_neg (h e he)

theorem headerValues_setItem_of_ne {name key value : Text} {entries : List (Text × Text)}
    (hne : sameName name key = false) :
    headerValues name (setItem key value entries) = headerValues name entries := by
  rw [setItem]
  split
  · -- the entry of the key is replaced where it stands
    induction entries with
    | nil => rfl
    | cons e entries ih =>
      have htail : headerValues name (entries.map fun e => if e.1 = key then (key, value) else e) =
          headerValues name entries := by
        by_cases hany : (entries.any fun e => decide (e.1 = key)) = true
        · exact ih hany
        · have hno : ∀ x ∈ entries, x.1 ≠ key := by
            intro x hx hk
            exact hany (List.any_eq_true.mpr ⟨x, hx, by simpa using hk⟩)
          rw [map_replace_of_notMem hno]
      rw [headerValues, headerValues] at htail ⊢
      rw [List.map_cons, List.filter_cons, List.filter_cons]
      by_cases hk : e.1 = key
      · rw [if_pos hk, if_neg (by simp [hne]), if_neg (by simp [hk, hne])]
        exact htail
      · rw [if_neg hk]
        by_cases hn : sameName name e.1 = true
        · rw [if_pos hn, if_pos hn, List.map_cons, List.map_cons, htail]
        · rw [if_neg hn, if_neg hn]
          exact htail
  · rw [headerValues, List.filter_append, List.filter_cons, if_neg (by simp [hne])]
    simp [headerValues]

/-- A header that is set is the only one of its name, if no key of the `dict`
is another spelling of it. -/
theorem headerValues_setItem_self {name value : Text} {entries : List (Text × Text)}
    (hnodup : (entries.map Prod.fst).Nodup)
    (hone : ∀ e ∈ entries, sameName name e.1 = true → e.1 = name) :
    headerValues name (setItem name value entries) = [value] := by
  have hself : sameName name name = true := by simp [sameName]
  -- without the key, no entry has the name
  have hnone : ∀ es : List (Text × Text), (∀ e ∈ es, e ∈ entries) → (∀ e ∈ es, e.1 ≠ name) →
      es.filter (fun e => sameName name e.1) = [] := by
    intro es hsub hno
    rw [List.filter_eq_nil_iff]
    intro e he hs
    exact hno e he (hone e (hsub e he) hs)
  rw [setItem]
  split
  · rename_i hany
    obtain ⟨e, he, hk⟩ := List.any_eq_true.mp hany
    rw [decide_eq_true_eq] at hk
    obtain ⟨before, after, rfl⟩ := List.append_of_mem he
    rw [List.map_append, List.map_cons, List.nodup_append, List.nodup_cons] at hnodup
    obtain ⟨-, ⟨hafter, -⟩, hdisj⟩ := hnodup
    -- the key stands once, so its entry is the only one that changes
    have hb : ∀ x ∈ before, x.1 ≠ name := by
      intro x hx hxk
      exact hdisj x.1 (List.mem_map_of_mem hx) e.1 List.mem_cons_self (hxk.trans hk.symm)
    have ha : ∀ x ∈ after, x.1 ≠ name := by
      intro x hx hxk
      exact hafter (List.mem_map.mpr ⟨x, hx, hxk.trans hk.symm⟩)
    rw [headerValues, List.map_append, List.map_cons, if_pos hk, map_replace_of_notMem hb,
      map_replace_of_notMem ha, List.filter_append, List.filter_cons, if_pos hself,
      hnone before (fun x hx => by simp [hx]) hb, hnone after (fun x hx => by simp [hx]) ha]
    rfl
  · rename_i hany
    have hno : ∀ e ∈ entries, e.1 ≠ name := by
      intro e he hk
      exact hany (List.any_eq_true.mpr ⟨e, he, by simpa using hk⟩)
    rw [headerValues, List.filter_append, hnone entries (fun _ h => h) hno, List.filter_cons,
      if_pos hself]
    rfl

/-! ### Every hop is safe -/

/-- The caller spells `Host` only as `Host`, if at all. -/
def OneHostSpelling (headers : Headers) : Prop :=
  ∀ e ∈ headers.entries, sameName "Host".toList e.1 = true → e.1 = "Host".toList

/-- What holds of the request of hop `k`.  `parts` are those of the URL of the
hop, `answer` is what the resolver said to its lookup. -/
structure SafeHop (t : HostTables) (is : AddressPredicates) (net : Internet) (o : Options)
    (k : ℕ) (h : Hop) (parts : SplitResult) (answer : List Text) (addresses : List IPAddress) :
    Prop where
  split : urlsplit t.unicode h.url = .ok parts
  noCredentials : truthy parts.username = false ∧ truthy parts.password = false
  host : asciiHost t ((parts.hostname t.unicode).getD []) = .ok h.target.host
  lookup : net.getaddrinfo k h.target.host h.target.port = .ok answer
  answers : answer.map (fun s => IPAddress.ipAddress (partition '%' s).1) = addresses.map some
  first : addresses.head? = some h.target.address
  isPublic : ∀ a ∈ addresses, isPublic is a = true
  scheme : h.target.scheme = "https".toList ∧ h.target.port = 443 ∨
    h.target.scheme = "http".toList ∧ h.target.port = 80 ∧ o.allowHttp = true
  url : h.request.url = h.target.scheme ++ "://".toList ++ literal h.target.address ++
    ':' :: natStr h.target.port ++ h.target.path
  path : h.target.path.head? = some '/'
  /-- the URL reads back as the address, on the same scheme and port -/
  reparse : ∃ again, urlsplit t.unicode h.request.url = .ok again ∧
    again.scheme = h.target.scheme ∧ again.port t.unicode = .ok (some h.target.port) ∧
    again.username = none ∧ again.hostname t.unicode = some h.target.address.str ∧
    IPAddress.ipAddress h.target.address.str = some h.target.address
  hostHeader : headerValues "Host".toList h.request.headers = [bracketed h.target.host]
  sni : h.request.sniHostname =
    if h.target.scheme = "https".toList then some h.target.host else none

theorem head?_pathAndQuery {url : Text} {allowHttp : Bool} {parts : SplitResult}
    {scheme host : Text} {port : ℕ} (hc : Checked t url allowHttp parts scheme port host) :
    (pathAndQuery parts).head? = some '/' := by
  have hslash := head?_orSlash hc.split hc.netloc_ne_nil
  rw [pathAndQuery]
  split
  · exact hslash
  · rw [List.head?_append, hslash]
    rfl

/-- One hop: what `resolve` accepted makes the request safe. -/
theorem safeHop_of_resolve {k : ℕ} {loop : Loop} {target : Target} (deadline : Seconds)
    (hhost : OneHostSpelling o.headers)
    (h : resolve t is (net.getaddrinfo k) loop.url o.allowHttp = .ok target) :
    ∃ parts answer addresses, SafeHop t is net o k
      (sentHop net o deadline k loop target) parts answer addresses := by
  obtain ⟨parts, answer, addresses, hc, hlookup, hcheck, hfirst, hpath⟩ := resolve_eq_ok h
  obtain ⟨hmap, hpublic⟩ := checkAnswers_eq_ok hcheck
  have hscheme := allowedPort_eq_some hc.allowed
  have hport : target.port ≤ 65535 := by
    rcases hscheme with ⟨-, hp⟩ | ⟨-, hp⟩ <;> omega
  have husername : (pinnedParts target (orSlash parts.path) parts.query).username = none := by
    have hat : '@' ∉ literal target.address ++ ':' :: natStr target.port :=
      fun h => (mem_pinned_netloc h).1 rfl
    rw [SplitResult.username, SplitResult.userinfo, pinnedParts, rpartition_of_notMem hat]
  refine ⟨parts, answer, addresses, hc.split, ⟨hc.noUsername, hc.noPassword⟩, hc.isHost, hlookup,
    hmap, hfirst, hpublic, ?_, ?_, ?_, ?_, ?_, rfl⟩
  · rcases hscheme with ⟨hs, hp⟩ | ⟨hs, hp⟩
    · exact .inr ⟨hs, hp, hc.plain hs⟩
    · exact .inl ⟨hs, hp⟩
  · rfl
  · show target.path.head? = some '/'
    rw [hpath]
    exact head?_pathAndQuery hc
  · exact ⟨_, urlsplit_pinnedUrl hc hpath, rfl, port_pinned target _ _ hport, husername,
      hostname_pinned target _ _, IPAddress.ipAddress_str _⟩
  · show headerValues "Host".toList (setItem "Accept-Encoding".toList acceptEncoding
      (setItem "Host".toList (bracketed target.host) o.headers.entries)) = _
    rw [headerValues_setItem_of_ne (by decide)]
    exact headerValues_setItem_self o.headers.nodup hhost

/-- **The redirect loop**: by induction on the hops that are left.  Each hop is
resolved anew, so no hop needs to know anything of the ones before it. -/
theorem safeHop_of_mem_hops (hhost : OneHostSpelling o.headers) (deadline : Seconds)
    (left k : ℕ) (loop : Loop) {i : ℕ} {h : Hop}
    (hi : (hops t is net o deadline left k loop).1[i]? = some h) :
    ∃ parts answer addresses, SafeHop t is net o (k + i) h parts answer addresses := by
  induction left generalizing k loop i with
  | zero => simp [hops] at hi
  | succ left ih =>
    have hrun := hops_run t is net o deadline left k loop
    generalize hops t is net o deadline (left + 1) k loop = run at hi hrun
    -- a hop that ends the run sends one request
    have hone : ∀ {target : Target},
        resolve t is (net.getaddrinfo k) loop.url o.allowHttp = .ok target →
        [sentHop net o deadline k loop target][i]? = some h →
          ∃ parts answer addresses, SafeHop t is net o (k + i) h parts answer addresses := by
      intro target hr hi
      cases i with
      | zero =>
        rw [List.getElem?_cons_zero, Option.some_inj] at hi
        exact hi ▸ safeHop_of_resolve deadline hhost hr
      | succ i => simp at hi
    cases hrun with
    | unresolved _ => simp at hi
    | late _ _ => simp at hi
    | lost hr _ _ => exact hone hr hi
    | last hr _ _ _ => exact hone hr hi
    | unjoined hr _ _ _ _ => exact hone hr hi
    | followed hr _ _ _ _ =>
      -- this hop, or one of those behind the redirect
      cases i with
      | zero =>
        rw [List.getElem?_cons_zero, Option.some_inj] at hi
        exact hi ▸ safeHop_of_resolve deadline hhost hr
      | succ i =>
        rw [List.getElem?_cons_succ] at hi
        rw [show k + (i + 1) = k + 1 + i by omega]
        exact ih _ _ hi

theorem length_hops (deadline : Seconds) (left k : ℕ) (loop : Loop) :
    (hops t is net o deadline left k loop).1.length ≤ left := by
  induction left generalizing k loop with
  | zero => simp [hops]
  | succ left ih =>
    have hrun := hops_run t is net o deadline left k loop
    generalize hops t is net o deadline (left + 1) k loop = run at hrun ⊢
    cases hrun with
    | unresolved _ => exact Nat.zero_le _
    | late _ _ => exact Nat.zero_le _
    | lost _ _ _ => exact Nat.le_add_left 1 left
    | last _ _ _ _ => exact Nat.le_add_left 1 left
    | unjoined _ _ _ _ _ => exact Nat.le_add_left 1 left
    | followed _ _ _ _ _ => exact Nat.succ_le_succ (ih _ _)

theorem checkAnswers_ne_assertionError (infos : List Text) :
    checkAnswers is infos ≠ .error .assertionError := by
  induction infos with
  | nil => exact fun h => by cases h
  | cons s rest ih =>
    intro h
    rw [checkAnswers, parseAnswer] at h
    cases ha : IPAddress.ipAddress (partition '%' s).1 with
    | none =>
      rw [ha] at h
      cases h
    | some a =>
      simp only [ha, bind, Except.bind] at h
      split at h
      · cases h
      · cases hr : checkAnswers is rest with
        | error e =>
          simp only [hr] at h
          cases h
          exact ih hr
        | ok as =>
          simp only [hr] at h
          cases h

theorem resolve_ne_assertionError (getaddrinfo : Text → ℕ → Except DnsError (List Text))
    (url : Text) (allowHttp : Bool) :
    resolve t is getaddrinfo url allowHttp ≠ .error .assertionError := by
  intro h
  rw [resolve] at h
  split at h
  · cases h
  · split at h
    · cases h
    · split at h
      · rename_i e hcheck
        cases h
        exact checkAnswers_ne_assertionError _ hcheck
      · cases h
      · cases h

theorem finish_ne_assertionError (deadline : Seconds) (k : ℕ) (loop : Loop) (reply : Reply) :
    finish net o deadline k loop reply ≠ .error .assertionError := by
  intro h
  rw [finish] at h
  split at h
  · cases h
  · cases h

theorem redirectLocation_of_last {k : ℕ} (hk : ¬ k < o.maxRedirects) (reply : Reply) :
    redirectLocation o k reply = none := by
  rw [redirectLocation]
  split
  · rw [decide_eq_false hk, Bool.and_false]
    rfl
  · rfl

/-- A redirect is followed only while hops are left, so the loop never runs
out of them. -/
theorem hops_ne_assertionError (deadline : Seconds) (left k : ℕ) (loop : Loop)
    (hk : k + left = o.maxRedirects) :
    (hops t is net o deadline (left + 1) k loop).2 ≠ .error .assertionError := by
  induction left generalizing k loop with
  | zero =>
    have hrun := hops_run t is net o deadline 0 k loop
    generalize hops t is net o deadline (0 + 1) k loop = run at hrun ⊢
    -- the last hop: no redirect is followed
    have hlast := redirectLocation_of_last (o := o) (k := k) (by omega)
    cases hrun with
    | unresolved hr =>
      rintro ⟨⟩
      exact resolve_ne_assertionError _ _ _ hr
    | late _ _ => exact fun h => by cases h
    | lost _ _ _ => exact fun h => by cases h
    | last _ _ _ _ => exact finish_ne_assertionError deadline k loop _
    | unjoined _ _ _ hl _ =>
      rw [hlast] at hl
      cases hl
    | followed _ _ _ hl _ =>
      rw [hlast] at hl
      cases hl
  | succ left ih =>
    have hrun := hops_run t is net o deadline (left + 1) k loop
    generalize hops t is net o deadline (left + 1 + 1) k loop = run at hrun ⊢
    cases hrun with
    | unresolved hr =>
      rintro ⟨⟩
      exact resolve_ne_assertionError _ _ _ hr
    | late _ _ => exact fun h => by cases h
    | lost _ _ _ => exact fun h => by cases h
    | last _ _ _ _ => exact finish_ne_assertionError deadline k loop _
    | unjoined _ _ _ _ _ => exact fun h => by cases h
    | followed _ _ _ _ _ => exact ih (k + 1) _ (by omega)

/-- **Whole runs are safe.**  Every request that is handed to the HTTP client
is safe, there are at most `max_redirects + 1` of them, and the `AssertionError`
behind the loop is not reached. -/
theorem request_is_safe (t : HostTables) (is : AddressPredicates) (net : Internet) (o : Options)
    (method url : Text) (content : Option Bytes) (hhost : OneHostSpelling o.headers) :
    (∀ k h, (request t is net o method url content).1[k]? = some h →
      ∃ parts answer addresses, SafeHop t is net o k h parts answer addresses) ∧
      (request t is net o method url content).1.length ≤ o.maxRedirects + 1 ∧
      (request t is net o method url content).2 ≠ .error .assertionError := by
  refine ⟨fun k h hk => ?_, length_hops _ _ _ _, ?_⟩
  · have := safeHop_of_mem_hops hhost _ _ _ _ hk
    rwa [Nat.zero_add] at this
  · exact hops_ne_assertionError _ _ _ _ (Nat.zero_add _)

/-! ### One run, and the header a caller can add -/

def unicast : AddressPredicates := ⟨fun _ => true, fun _ => false⟩

/-- Every name resolves to one address, and every path but the last redirects
to another host. -/
def redirectingServer : Internet where
  getaddrinfo := fun _ _ _ => .ok ["93.184.216.34".toList, "2606:2800:220:1::25%0".toList]
  started := 0
  monotonic := fun k => k
  client := fun k _ =>
    .ok (if k = 0 then ⟨302, [("Location".toList, "//B.example/x?y".toList)]⟩ else ⟨200, []⟩)
  readBody := fun _ _ _ _ _ => .ok ([], false)

/-- The options of a caller that passes these headers. -/
def optionsWith (headers : Headers) : Options where
  headers := headers
  timeout := 20
  maxBytes := 1024
  maxRedirects := 1
  allowHttp := false
  truncate := false
  discardBody := false

def userAgentOnly : Headers := ⟨[("User-Agent".toList, "newsforge".toList)], by decide⟩

theorem userAgentOnly_oneHostSpelling : OneHostSpelling userAgentOnly := by
  unfold OneHostSpelling
  decide

theorem request_is_safe_redirected :
    ∃ h parts answer addresses,
      (request asciiTables unicast redirectingServer (optionsWith userAgentOnly) "get".toList
        "https://a.example".toList none).1[1]? = some h ∧
      h.request.url = "https://93.184.216.34:443/x?y".toList ∧
      SafeHop asciiTables unicast redirectingServer (optionsWith userAgentOnly) 1 h parts answer
        addresses := by
  have hrun : ((request asciiTables unicast redirectingServer (optionsWith userAgentOnly)
      "get".toList "https://a.example".toList none).1[1]?).map (fun h => h.request.url) =
      some "https://93.184.216.34:443/x?y".toList := by decide
  obtain ⟨h, hk, hurl⟩ := Option.map_eq_some_iff.mp hrun
  obtain ⟨parts, answer, addresses, hsafe⟩ := (request_is_safe asciiTables unicast
    redirectingServer (optionsWith userAgentOnly) "get".toList "https://a.example".toList none
    userAgentOnly_oneHostSpelling).1 1 h hk
  exact ⟨h, parts, answer, addresses, hk, hurl, hsafe⟩

/-- Headers with another spelling of `Host`. -/
def lowerCaseHost : Headers := ⟨[("host".toList, "evil.example".toList)], by decide⟩

/-- A `dict` keeps `host` beside `Host`, so the request then names two hosts. -/
theorem caller_can_add_a_host_header :
    ¬ ∀ (headers : Headers) (k : ℕ) (h : Hop),
      (request asciiTables unicast redirectingServer (optionsWith headers) "GET".toList
        "https://a.example/".toList none).1[k]? = some h →
      headerValues "Host".toList h.request.headers = [bracketed h.target.host] := by
  intro hall
  have hrun : ((request asciiTables unicast redirectingServer (optionsWith lowerCaseHost)
      "GET".toList "https://a.example/".toList none).1[0]?).map
        (fun h => (headerValues "Host".toList h.request.headers, bracketed h.target.host)) =
      some (["evil.example".toList, "a.example".toList], "a.example".toList) := by
    decide
  obtain ⟨h, hk, hvalues⟩ := Option.map_eq_some_iff.mp hrun
  have hone := hall lowerCaseHost 0 h hk
  rw [show headerValues "Host".toList h.request.headers = _ from congrArg Prod.fst hvalues,
    show bracketed h.target.host = _ from congrArg Prod.snd hvalues] at hone
  exact absurd hone (by decide)

end SafeHttp
