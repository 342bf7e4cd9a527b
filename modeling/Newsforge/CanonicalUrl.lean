/-
The canonical spelling of a URL.

* `checkBracketedHost_bareName` — an IP literal, its letters lowered and its last dots
  cut off, is still one;
* `urlsplit_urlText` — a URL splits into the parts it is made of;
* `canonicalUrl_eq_ok` — what `canonical_url` returns.

Main result: `canonicalUrl_idempotent_iff`.
-/
import Newsforge.AddressCase

open PyText UrlParse IPAddress

namespace PyText

variable {p : Char → Bool} {k : CharTables}

theorem rstrip_append_left {a : Text} (ha : ∀ c ∈ a.getLast?, p c = false) (b : Text) :
    rstrip p (a ++ b) = a ++ rstrip p b := by
  obtain ⟨d, hd, hall⟩ := rstrip_eq_append p b
  have hlast : ∀ c ∈ (a ++ rstrip p b).getLast?, p c = false := by
    intro c hc
    rcases eq_or_ne (rstrip p b) [] with hnil | hb
    · rw [hnil, List.append_nil] at hc
      exact ha c hc
    · rw [List.getLast?_append_of_ne_nil _ hb] at hc
      exact last_rstrip hc
  conv_lhs => rw [hd, ← List.append_assoc]
  exact rstrip_append hlast hall

theorem partition_append_left {c : Char} {a : Text} (h : c ∉ a) (s : Text) :
    partition c (a ++ s) = (a ++ (partition c s).1, (partition c s).2) := by
  induction a with
  | nil => rfl
  | cons x a ih =>
    rw [List.mem_cons, not_or] at h
    rw [List.cons_append, partition, if_neg (Ne.symm h.1), ih h.2]
    rfl

theorem CharTables.lowerFrom_append {a : Text} (ha : isAscii a = true) (s before : Text) :
    k.lowerFrom before (a ++ s) = a.map Char.toLower ++ k.lowerFrom (a.reverse ++ before) s := by
  induction a generalizing before with
  | nil => rfl
  | cons c a ih =>
    rw [isAscii, List.all_cons, Bool.and_eq_true] at ha
    rw [List.cons_append, lowerFrom, lowerAt_of_ascii ha.1, ih ha.2, List.reverse_cons,
      List.append_assoc, List.singleton_append]
    rfl

end PyText

namespace UrlParse

variable {u : UnicodeTables} {k : CharTables}

/-! ### IP literals -/

/-- An address of a version to come: `v`, its number, a dot and more. -/
structure IsFuture (host hex rest : Text) : Prop where
  eq : host = 'v' :: (hex ++ '.' :: rest)
  hex_ne_nil : hex ≠ []
  hex : ∀ c ∈ hex, isHexDigit c = true
  rest_ne_nil : rest ≠ []
  line : '\n' ∉ rest

theorem isIPvFuture_iff {host : Text} (hv : host.head? = some 'v') :
    isIPvFuture host = true ↔ ∃ hex rest, IsFuture host hex rest := by
  obtain ⟨s, rfl⟩ : ∃ s, host = 'v' :: s := by
    cases host with
    | nil => exact absurd hv (by simp)
    | cons c s => exact ⟨s, by rw [Option.some.inj hv]⟩
  constructor
  · intro h
    rw [isIPvFuture] at h
    simp only [List.tail_cons] at h
    split at h
    · rename_i rest hrest
      rw [Bool.and_eq_true, Bool.and_eq_true] at h
      simp only [Bool.not_eq_true', List.isEmpty_eq_false_iff, Bool.not_eq_true',
        List.contains_eq_mem, decide_eq_false_iff_not] at h
      refine ⟨_, rest, ?_, h.1.1, fun c hc => List.mem_takeWhile_imp hc, h.1.2, h.2⟩
      rw [← hrest, List.takeWhile_append_dropWhile]
    · cases h
  · rintro ⟨hex, rest, heq, hne, hhex, hrest, hline⟩
    obtain rfl : s = hex ++ '.' :: rest := by simpa using heq
    have htake : (hex ++ '.' :: rest).takeWhile isHexDigit = hex := by
      rw [List.takeWhile_append_of_pos hhex, List.takeWhile_cons_of_neg (by decide),
        List.append_nil]
    have hdrop : (hex ++ '.' :: rest).dropWhile isHexDigit = '.' :: rest := by
      rw [List.dropWhile_append_of_pos hhex, List.dropWhile_cons_of_neg (by decide)]
    rw [isIPvFuture]
    simp only [List.tail_cons, htake, hdrop]
    simp [hne, hrest, hline]

theorem checkBracketedHost_eq_ok {host : Text} : checkBracketedHost u host = .ok () ↔
    host.head? = some 'v' ∧ isIPvFuture host = true ∨
      host.head? ≠ some 'v' ∧ ∃ ip, ipAddress host = some (.v6 ip) := by
  rw [checkBracketedHost]
  by_cases hv : host.head? = some 'v'
  · rw [if_pos hv]
    cases isIPvFuture host <;> simp [hv]
  · rw [if_neg hv]
    rcases ipAddress host with _ | _ | ip <;> simp [hv]

/-- Between colons there is no IPv4 address. -/
theorem ipAddress_v6_iff {host : Text} (hcolon : ':' ∈ host) :
    (∃ ip, ipAddress host = some (.v6 ip)) ↔
      '/' ∉ host ∧ ∃ addr, splitScopeId host = some addr ∧ IsIPv6 addr := by
  rw [← ipv6_eq_some, ipAddress, ipv4_eq_none hcolon]
  cases ipv6 host <;> simp

end UrlParse

namespace SafeHttp

variable {t : HostTables} {k : CharTables}

/-- The name of a host that was split off a URL. -/
theorem bareName_lowerHost (hu : UnicodeRules t.unicode k) (raw : Text) :
    bareName t (lowerHost t.unicode raw) =
      rstrip (· == '.') (k.lower (lowerHost t.unicode raw)) := bareName_eq hu _

theorem map_toLower_idem (s : Text) :
    (s.map Char.toLower).map Char.toLower = s.map Char.toLower := by
  rw [List.map_map]
  refine List.map_congr_left fun c _ => ?_
  exact toLower_cases (p := fun _ d => d.toLower = d) (by decide)
    (fun c hc => toLower_of_not_ascii hc) c

theorem isAscii_map_toLower {s : Text} (h : isAscii s = true) :
    isAscii (s.map Char.toLower) = true := by
  refine List.all_eq_true.mpr fun c hc => ?_
  obtain ⟨x, hx, rfl⟩ := List.mem_map.mp hc
  exact CharTables.forall_ascii (p := fun c => isAsciiChar c.toLower = true) (by decide)
    (List.all_eq_true.mp h x hx)

/-- An address without a zone. -/
theorem bareName_ipv6 (hu : UnicodeRules t.unicode k) {addr : Text} (h : IsIPv6 addr) :
    bareName t (lowerHost t.unicode addr) = addr.map Char.toLower := by
  have hno : '%' ∉ addr := h.notMem (by decide) (by decide) (by decide)
  have hhost : lowerHost t.unicode addr = addr.map Char.toLower := by
    rw [lowerHost, partition_of_notMem hno]
    simp [hu.lower_eq, CharTables.lower_of_ascii h.ascii]
  rw [bareName_lowerHost hu, hhost, CharTables.lower_of_ascii (isAscii_map_toLower h.ascii),
    map_toLower_idem]
  exact rstrip_of_last fun c hc => beq_eq_false_iff_ne.mpr (h.lower.last c hc)

/-- An address with a zone: of the zone the last dots are lost. -/
theorem bareName_zone (hu : UnicodeRules t.unicode k) {addr zone : Text} (h : IsIPv6 addr)
    (hzone : '%' ∉ zone) :
    ∃ zone', '%' ∉ zone' ∧
      bareName t (lowerHost t.unicode (addr ++ '%' :: zone)) =
        addr.map Char.toLower ++ '%' :: zone' := by
  have hno : '%' ∉ addr := h.notMem (by decide) (by decide) (by decide)
  have hpercent : k.Caseless '%' := CharTables.caseless_of_ascii (by decide) (by decide)
  have hhost : lowerHost t.unicode (addr ++ '%' :: zone) =
      (addr.map Char.toLower ++ ['%']) ++ zone := by
    rw [lowerHost, partition_append hno]
    simp [hu.lower_eq, CharTables.lower_of_ascii h.ascii]
  have hfront : isAscii (addr.map Char.toLower ++ ['%']) = true := by
    rw [isAscii, List.all_append, ← isAscii, isAscii_map_toLower h.ascii]
    decide
  have hmap : (addr.map Char.toLower ++ ['%']).map Char.toLower =
      addr.map Char.toLower ++ ['%'] := by
    rw [List.map_append, map_toLower_idem]
    rfl
  refine ⟨rstrip (· == '.') (k.lowerFrom ((addr.map Char.toLower ++ ['%']).reverse ++ []) zone),
    ?_, ?_⟩
  · intro hmem
    obtain ⟨c, hc, before, after, hlower⟩ := CharTables.mem_lowerFrom (mem_of_mem_rstrip hmem)
    rw [← hpercent.only before c after hlower] at hc
    exact hzone hc
  · rw [bareName_lowerHost hu, hhost, CharTables.lower, CharTables.lowerFrom_append hfront, hmap,
      rstrip_append_left, List.append_assoc, List.singleton_append]
    intro c hc
    rw [List.getLast?_concat] at hc
    rw [← Option.some.inj hc]
    decide

/-- The host of a URL in lower case, behind ASCII without a zone. -/
theorem lowerHost_append (hu : UnicodeRules t.unicode k) {a : Text} (ha : isAscii a = true)
    (hno : '%' ∉ a) (s : Text) :
    ∃ r, lowerHost t.unicode (a ++ s) = a.map Char.toLower ++ r := by
  rw [lowerHost, partition_append_left hno]
  refine ⟨k.lowerFrom (a.reverse ++ []) (partition '%' s).1 ++
    (if (partition '%' s).2.1 then ['%'] else []) ++ (partition '%' s).2.2, ?_⟩
  dsimp only
  rw [hu.lower_eq, CharTables.lower, CharTables.lowerFrom_append ha]
  simp only [List.append_assoc]

/-- A character without case is in the name where it was in the text of the host. -/
theorem mem_hostName_iff (hu : UnicodeRules t.unicode k) {raw : Text} {c : Char}
    (hc : isAsciiChar c = true) (hletter : c.isAlpha = false) (hdot : c ≠ '.') :
    c ∈ bareName t (lowerHost t.unicode raw) ↔ c ∈ raw := by
  rw [mem_bareName_iff hu (CharTables.caseless_of_ascii hc hletter) hdot,
    mem_lowerHost_iff hu hc hletter]

/-- The dot behind the version is not the last one while a colon follows. -/
theorem bareName_future (hu : UnicodeRules t.unicode k) {raw hex rest : Text}
    (h : IsFuture raw hex rest) (hcolon : ':' ∈ raw) :
    ∃ hex' rest', IsFuture (bareName t (lowerHost t.unicode raw)) hex' rest' := by
  obtain ⟨rfl, hne, hhex, -, hline⟩ := h
  have hfront : isAscii ('v' :: hex ++ ['.']) = true := by
    refine List.all_eq_true.mpr fun c hc => ?_
    rw [List.mem_append, List.mem_cons, List.mem_singleton] at hc
    rcases hc with (rfl | hc) | rfl
    · decide
    · exact Percent.isAsciiChar_of_isHexDigit (hhex c hc)
    · decide
  have hno : ∀ c, c ≠ 'v' → isHexDigit c = false → c ≠ '.' → c ∉ 'v' :: hex ++ ['.'] := by
    intro c hv hdigit hdot hmem
    rw [List.mem_append, List.mem_cons, List.mem_singleton] at hmem
    rcases hmem with (rfl | hmem) | rfl
    · exact hv rfl
    · rw [hhex c hmem] at hdigit
      exact Bool.false_ne_true hdigit.symm
    · exact hdot rfl
  have hraw : 'v' :: (hex ++ '.' :: rest) = ('v' :: hex ++ ['.']) ++ rest := by simp
  have hcolon' := (mem_hostName_iff hu (by decide) (by decide) (by decide)).mpr hcolon
  have hline' : '\n' ∉ bareName t (lowerHost t.unicode ('v' :: (hex ++ '.' :: rest))) := by
    rw [mem_hostName_iff hu (by decide) (by decide) (by decide), hraw, List.mem_append, not_or]
    exact ⟨hno '\n' (by decide) (by decide) (by decide), hline⟩
  -- the version is lowered, and what stands behind its dot
  obtain ⟨lowered, hlowered⟩ : ∃ lowered, k.lower (lowerHost t.unicode
      ('v' :: (hex ++ '.' :: rest))) = ('v' :: hex.map Char.toLower) ++ '.' :: lowered := by
    obtain ⟨r, hr⟩ := lowerHost_append hu hfront
      (hno '%' (by decide) (by decide) (by decide)) rest
    rw [hraw, hr, CharTables.lower, CharTables.lowerFrom_append (isAscii_map_toLower hfront),
      map_toLower_idem]
    refine ⟨k.lowerFrom ((('v' :: hex ++ ['.']).map Char.toLower).reverse ++ []) r, ?_⟩
    rw [List.map_append, List.map_cons, List.append_assoc]
    rfl
  have hversion : ∀ c ∈ ('v' :: hex.map Char.toLower), c = 'v' ∨ isHexDigit c = true := by
    intro c hc
    rcases List.mem_cons.mp hc with rfl | hc
    · exact .inl rfl
    · obtain ⟨x, hx, rfl⟩ := List.mem_map.mp hc
      rw [isHexDigit_toLower, hhex x hx]
      exact .inr rfl
  rw [bareName_lowerHost hu, hlowered, rstrip_append_left] at hcolon' hline' ⊢
  · have hpre : rstrip (· == '.') ('.' :: lowered) <+: '.' :: lowered :=
      List.rdropWhile_prefix _ _
    have hmem : ':' ∈ rstrip (· == '.') ('.' :: lowered) := by
      refine (List.mem_append.mp hcolon').resolve_left fun h => ?_
      rcases hversion ':' h with h | h <;> exact absurd h (by decide)
    cases hrest : rstrip (· == '.') ('.' :: lowered) with
    | nil =>
      rw [hrest] at hmem
      exact absurd hmem List.not_mem_nil
    | cons x rest' =>
      rw [hrest] at hmem hpre hline'
      obtain rfl : x = '.' := (List.cons_prefix_cons.mp hpre).1
      have hcolon'' : ':' ∈ rest' := (List.mem_cons.mp hmem).resolve_left (by decide)
      refine ⟨hex.map Char.toLower, rest', rfl, ?_, ?_, List.ne_nil_of_mem hcolon'', ?_⟩
      · exact fun hnil => hne (List.map_eq_nil_iff.mp hnil)
      · intro c hc
        exact (hversion c (List.mem_cons_of_mem _ hc)).resolve_left (by
          rintro rfl
          obtain ⟨x, hx, hxv⟩ := List.mem_map.mp hc
          have := isHexDigit_toLower x
          rw [hxv, hhex x hx] at this
          exact absurd this (by decide))
      · exact fun h => hline' (List.mem_append_right _ (List.mem_cons_of_mem _ h))
  all_goals
    intro c hc
    rw [beq_eq_false_iff_ne]
    rintro rfl
    rcases hversion '.' (List.mem_of_getLast? hc) with h | h <;> exact absurd h (by decide)

/-- **An IP literal is read again**, unless nothing but dots was its zone. -/
theorem checkBracketedHost_bareName (hu : UnicodeRules t.unicode k) {raw name : Text}
    (hok : checkBracketedHost t.unicode raw = .ok ()) (hcolon : ':' ∈ raw)
    (hname : bareName t (lowerHost t.unicode raw) = name) :
    checkBracketedHost t.unicode name = .ok () ↔
      (name.getLast? = some '%' → name.head? = some 'v') := by
  have hcolon' : ':' ∈ name := by
    rw [← hname]
    exact (mem_hostName_iff hu (by decide) (by decide) (by decide)).mpr hcolon
  rcases checkBracketedHost_eq_ok.mp hok with ⟨hv, hfuture⟩ | ⟨-, hip⟩
  · obtain ⟨hex, rest, hraw⟩ := (isIPvFuture_iff hv).mp hfuture
    obtain ⟨hex', rest', hfuture'⟩ := bareName_future hu hraw hcolon
    rw [hname] at hfuture'
    have hhead : name.head? = some 'v' := by rw [hfuture'.eq, List.head?_cons]
    exact iff_of_true (checkBracketedHost_eq_ok.mpr
      (.inl ⟨hhead, (isIPvFuture_iff hhead).mpr ⟨hex', rest', hfuture'⟩⟩)) fun _ => hhead
  · obtain ⟨hslash, addr, hscope, haddr⟩ := (ipAddress_v6_iff hcolon).mp hip
    have hslash' : '/' ∉ name := by
      rw [← hname, mem_hostName_iff hu (by decide) (by decide) (by decide)]
      exact hslash
    have hpercent : '%' ∉ addr.map Char.toLower :=
      haddr.lower.notMem (by decide) (by decide) (by decide)
    rcases splitScopeId_eq_some.mp hscope with ⟨-, rfl⟩ | ⟨zone, rfl, -, -, hzone⟩
    · rw [bareName_ipv6 hu haddr] at hname
      subst hname
      refine iff_of_true (checkBracketedHost_eq_ok.mpr (.inr ⟨haddr.lower.head, ?_⟩)) ?_
      · exact (ipAddress_v6_iff hcolon').mpr
          ⟨hslash', _, splitScopeId_eq_some.mpr (.inl ⟨hpercent, rfl⟩), haddr.lower⟩
      · exact fun h => absurd (List.mem_of_getLast? h) hpercent
    · obtain ⟨zone', hzone', heq⟩ := bareName_zone hu haddr hzone
      rw [heq] at hname
      subst hname
      have hhead : (addr.map Char.toLower ++ '%' :: zone').head? ≠ some 'v' := by
        rw [List.head?_append_of_ne_nil _ haddr.lower.ne_nil]
        exact haddr.lower.head
      rcases eq_or_ne zone' [] with rfl | hne
      · -- the percent sign announces a zone that is gone
        refine iff_of_false ?_ fun h => hhead (h List.getLast?_concat)
        intro hagain
        rcases checkBracketedHost_eq_ok.mp hagain with ⟨hv, -⟩ | ⟨-, hip'⟩
        · exact hhead hv
        · obtain ⟨-, addr', hscope', -⟩ := (ipAddress_v6_iff hcolon').mp hip'
          rcases splitScopeId_eq_some.mp hscope' with ⟨hno, -⟩ | ⟨z, hz, hno, hne, -⟩
          · exact hno (by simp)
          · have hcut := congrArg (partition '%') hz
            rw [partition_append hpercent, partition_append hno] at hcut
            simp only [Prod.mk.injEq, true_and] at hcut
            exact hne hcut.2.symm
      · refine iff_of_true (checkBracketedHost_eq_ok.mpr (.inr ⟨hhead, ?_⟩)) fun h => ?_
        · exact (ipAddress_v6_iff hcolon').mpr ⟨hslash', _,
            splitScopeId_eq_some.mpr (.inr ⟨zone', rfl, hpercent, hne, hzone'⟩), haddr.lower⟩
        · rw [List.getLast?_append_of_ne_nil _ (List.cons_ne_nil _ _),
            List.getLast?_cons_of_ne_nil hne] at h
          exact absurd (List.mem_of_getLast? h) hzone'

/-! ### The text of a URL -/

/-- Scheme, netloc and what follows them; the scheme may be missing. -/
def urlText (scheme netloc rest : Text) : Text :=
  (if scheme = [] then [] else scheme ++ [':']) ++ '/' :: '/' :: (netloc ++ rest)

/-- A netloc is free of delimiters and of what is removed from a URL. -/
def IsNetloc (netloc : Text) : Prop := ∀ c ∈ netloc, isDelim c = false ∧ isUnsafe c = false

theorem schemeOf_urlText {scheme netloc rest : Text} (hs : scheme = [] ∨ IsScheme scheme)
    (hnet : IsNetloc netloc) (hsafe : ∀ c ∈ rest, isUnsafe c = false) :
    schemeOf (urlText scheme netloc rest) = (scheme, '/' :: '/' :: (netloc ++ rest)) := by
  have hrest : ∀ c ∈ '/' :: '/' :: (netloc ++ rest), (!isUnsafe c) = true := by
    intro c hc
    rw [List.mem_cons, List.mem_cons, List.mem_append] at hc
    rcases hc with rfl | rfl | hc | hc
    · rfl
    · rfl
    · rw [(hnet c hc).2]
      rfl
    · rw [hsafe c hc]
      rfl
  rcases hs with rfl | hs
  · -- a text that begins with a slash has no scheme
    have hstrip : lstrip isC0OrSpace (urlText [] netloc rest) =
        '/' :: '/' :: (netloc ++ rest) := rfl
    rw [schemeOf, hstrip, removeUnsafe, List.filter_eq_self.mpr hrest, splitScheme]
    have hhead : (partition ':' ('/' :: '/' :: (netloc ++ rest))).1.head?.any Char.isAlpha =
        false := rfl
    rw [hhead, Bool.and_false, Bool.false_and, if_neg Bool.false_ne_true]
  · obtain ⟨c, scheme', rfl⟩ : ∃ c s, scheme = c :: s := by
      cases scheme with
      | nil => exact absurd hs.head (by simp)
      | cons c s => exact ⟨c, s, rfl⟩
    have htext : urlText (c :: scheme') netloc rest =
        c :: scheme' ++ ':' :: '/' :: '/' :: (netloc ++ rest) := by
      simp [urlText]
    have hstrip : lstrip isC0OrSpace (urlText (c :: scheme') netloc rest) =
        urlText (c :: scheme') netloc rest := by
      have hc : c.isAlpha = true := by simpa using hs.head
      rw [htext, lstrip, List.cons_append,
        List.dropWhile_cons_of_neg (by rw [isAlpha_not_space hc]; exact Bool.false_ne_true)]
    have hall : removeUnsafe (c :: scheme' ++ ':' :: '/' :: '/' :: (netloc ++ rest)) =
        c :: scheme' ++ ':' :: '/' :: '/' :: (netloc ++ rest) := by
      rw [removeUnsafe, List.filter_eq_self]
      intro x hx
      rcases List.mem_append.mp hx with hx | hx
      · rw [(isSchemeChar_lt (hs.chars x hx)).2]
        rfl
      · rcases List.mem_cons.mp hx with rfl | hx
        · rfl
        · exact hrest x hx
    rw [schemeOf, hstrip, htext, hall, splitScheme_append hs]

/-- **A URL splits into the parts it is made of**, or its netloc does not pass the
checks. -/
theorem urlsplit_urlText {u : UnicodeTables} {scheme netloc rest : Text}
    (hs : scheme = [] ∨ IsScheme scheme) (hnet : IsNetloc netloc) (hroot : rest.head? = some '/')
    (hsafe : ∀ c ∈ rest, isUnsafe c = false ∧ c ≠ '#') :
    urlsplit u (urlText scheme netloc rest) =
      (do checkBrackets u netloc
          checknetloc u netloc
          return ⟨scheme, netloc, (partition '?' rest).1, (partition '?' rest).2.2, []⟩) := by
  have hcut : cutNetloc ('/' :: '/' :: (netloc ++ rest)) = (netloc, rest) := by
    refine cutNetloc_append (fun c hc => (hnet c hc).1) fun c hc => ?_
    rw [hroot] at hc
    rw [← Option.some.inj hc]
    decide
  have hhash : '#' ∉ rest := fun h => (hsafe '#' h).2 rfl
  rw [urlsplit_eq, schemeOf_urlText hs hnet fun c hc => (hsafe c hc).1, splitRest]
  simp only [hcut, partition_of_notMem hhash]

/-! ### What `canonical_url` returns -/

variable {remap alabel : Text → Option Text} {url v host : Text} {p : SplitResult} {port : Option ℕ}

/-- The port, unless it is the default one of the scheme. -/
def extraPort (scheme : Text) (port : Option ℕ) : Option ℕ :=
  port.filter fun n => allowedPort scheme ≠ some n

def portSuffix : Option ℕ → Text
  | none => []
  | some n => ':' :: natStr n

/-- Host and port in a URL. -/
def hostPort (host : Text) (port : Option ℕ) : Text := bracketed host ++ portSuffix port

/-- What `canonical_url` finds out about a URL. -/
structure Canonical (t : HostTables) (url : Text) (p : SplitResult) (port : Option ℕ)
    (host : Text) : Prop where
  split : urlsplit t.unicode (strip isSpace url) = .ok p
  port : p.port t.unicode = .ok port
  host : asciiHost t (lowerHost t.unicode p.hostinfo.1) = .ok host

/-- The canonical spelling, put together from its parts. -/
def canonicalText (p : SplitResult) (port : Option ℕ) (host : Text) : Text :=
  urlText p.scheme (hostPort host (extraPort p.scheme port)) (pathAndQuery p)

theorem pathAndQuery_eq (p : SplitResult) :
    pathAndQuery p = orSlash p.path ++ if p.query = [] then [] else '?' :: p.query := by
  rw [pathAndQuery]
  cases p.query with
  | nil => simp
  | cons c q => simp

/-- With a netloc and a rooted path nothing is added between the parts. -/
theorem urlunsplit_eq_urlText {scheme netloc path query : Text} (hne : netloc ≠ [])
    (hroot : path.head? = some '/') :
    urlunsplit ⟨scheme, netloc, path, query, []⟩ =
      urlText scheme netloc (path ++ if query = [] then [] else '?' :: query) := by
  have hnet : netloc.isEmpty = false := List.isEmpty_eq_false_iff.mpr hne
  rw [urlunsplit, urlText]
  simp only [hnet, Bool.not_false, if_true, hroot, ne_eq, not_true, decide_false, Bool.and_false,
    Bool.false_eq_true, if_false, List.isEmpty_nil]
  cases scheme <;> cases query <;> simp

theorem hostPort_eq (scheme host : Text) (port : Option ℕ) :
    hostPort host (extraPort scheme port) = match port with
      | some n =>
        if allowedPort scheme = some n then bracketed host else bracketed host ++ ':' :: natStr n
      | none => bracketed host := by
  cases port with
  | none => exact List.append_nil _
  | some n =>
    rw [hostPort, extraPort]
    by_cases hn : allowedPort scheme = some n
    · simp [hn, portSuffix, Option.filter]
    · simp [hn, portSuffix, Option.filter]

/-- A URL without a host has no name. -/
theorem ne_nil_of_asciiHost {raw : Text} (h : asciiHost t (lowerHost t.unicode raw) = .ok host) :
    raw ≠ [] := by
  rintro rfl
  have hmissing : asciiHost t (lowerHost t.unicode []) = .error "missing host".toList := rfl
  rw [hmissing] at h
  cases h

theorem bracketed_ne_nil (hne : host ≠ []) : bracketed host ≠ [] := by
  rw [bracketed]
  split
  · exact List.cons_ne_nil _ _
  · exact hne

namespace Canonical

theorem unique {p' : SplitResult} {port' : Option ℕ} {host' : Text}
    (h : Canonical t url p port host) (h' : Canonical t url p' port' host') :
    p = p' ∧ port = port' ∧ host = host' := by
  obtain ⟨hs, hp, hh⟩ := h
  obtain ⟨hs', hp', hh'⟩ := h'
  rw [hs, Except.ok.injEq] at hs'
  subst hs'
  rw [hp, Except.ok.injEq] at hp'
  rw [hh, Except.ok.injEq] at hh'
  exact ⟨rfl, hp', hh'⟩

theorem hostinfo_ne_nil (h : Canonical t url p port host) : p.hostinfo.1 ≠ [] :=
  ne_nil_of_asciiHost h.host

theorem netloc_ne_nil (h : Canonical t url p port host) : p.netloc ≠ [] := by
  intro hnil
  refine h.hostinfo_ne_nil ?_
  rw [SplitResult.hostinfo, hnil]
  rfl

theorem wellFormed (h : Canonical t url p port host) : p.WellFormed := urlsplit_wellFormed h.split

theorem path_head (h : Canonical t url p port host) : (orSlash p.path).head? = some '/' := by
  rw [orSlash]
  split
  · rfl
  · rename_i hne
    exact (h.wellFormed.rooted h.netloc_ne_nil).resolve_left fun hnil =>
      hne (List.isEmpty_iff.mpr hnil)

theorem pathAndQuery_head (h : Canonical t url p port host) :
    (pathAndQuery p).head? = some '/' := by
  obtain ⟨s, hs⟩ := List.head?_eq_some_iff.mp h.path_head
  rw [pathAndQuery]
  split <;> rw [hs] <;> rfl

end Canonical

/-- What has been found out is put together. -/
theorem Canonical.url_eq (h : Canonical t url p port host) (hne : host ≠ []) :
    canonicalUrl t url = .ok (canonicalText p port host) := by
  have hnet : hostPort host (extraPort p.scheme port) ≠ [] := fun hnil =>
    bracketed_ne_nil hne (List.append_eq_nil_iff.mp hnil).1
  have htext : urlunsplit ⟨p.scheme, hostPort host (extraPort p.scheme port),
      orSlash p.path, p.query, []⟩ = canonicalText p port host := by
    rw [urlunsplit_eq_urlText hnet h.path_head, ← pathAndQuery_eq]
    rfl
  rw [hostPort_eq] at htext
  rw [canonicalUrl, splitUrl, h.split]
  simp only [h.port, bind, Except.bind, pure, Except.pure, hostname_getD, h.host,
    lower_scheme h.split]
  exact congrArg Except.ok htext

theorem canonicalUrl_eq_ok (hu : UnicodeRules t.unicode k)
    (hi : IdnaRules t.idna remap alabel) :
    canonicalUrl t url = .ok v ↔
      ∃ p port host, Canonical t url p port host ∧ v = canonicalText p port host := by
  constructor
  · intro hv
    have hcanon : ∃ p port host, Canonical t url p port host := by
      rw [canonicalUrl, splitUrl] at hv
      cases hs : urlsplit t.unicode (strip isSpace url) with
      | error m =>
        rw [hs] at hv
        cases hv
      | ok p =>
        cases hp : p.port t.unicode with
        | error m =>
          simp only [hs, hp, bind, Except.bind] at hv
          cases hv
        | ok port =>
          simp only [hs, hp, bind, Except.bind, hostname_getD] at hv
          cases hh : asciiHost t (lowerHost t.unicode p.hostinfo.1) with
          | error m =>
            rw [hh] at hv
            cases hv
          | ok host => exact ⟨p, port, host, hs, hp, hh⟩
    obtain ⟨p, port, host, h⟩ := hcanon
    rw [h.url_eq (asciiHost_ne_nil hu hi h.host), Except.ok.injEq] at hv
    exact ⟨p, port, host, h, hv.symm⟩
  · rintro ⟨p, port, host, h, rfl⟩
    exact h.url_eq (asciiHost_ne_nil hu hi h.host)

/-! ### Host and port are read again -/

theorem mem_portSuffix {c : Char} {e : Option ℕ} (h : c ∈ portSuffix e) :
    c = ':' ∨ isAsciiChar c = true ∧ c.isDigit = true := by
  cases e with
  | none => exact absurd h List.not_mem_nil
  | some n => exact (List.mem_cons.mp h).imp_right mem_natStr_ascii

theorem mem_bracketed {c : Char} (h : c ∈ bracketed host) : c ∈ host ∨ c = '[' ∨ c = ']' := by
  rw [bracketed] at h
  split at h
  · rw [List.cons_append, List.mem_cons, List.mem_append, List.mem_singleton] at h
    rcases h with h | h | h
    · exact .inr (.inl h)
    · exact .inl h
    · exact .inr (.inr h)
  · exact .inl h

theorem notMem_portSuffix {c : Char} (hcolon : c ≠ ':') (hdigit : c.isDigit = false)
    (e : Option ℕ) : c ∉ portSuffix e := by
  intro h
  rcases mem_portSuffix h with h | ⟨-, h⟩
  · exact hcolon h
  · rw [hdigit] at h
    exact Bool.false_ne_true h

theorem partition_portSuffix (e : Option ℕ) : (partition ':' (portSuffix e)).1 = [] := by
  cases e <;> rfl

theorem portOf_portSuffix {u : UnicodeTables} {e : Option ℕ} (h : ∀ n ∈ e, n ≤ 65535) :
    portOf u (portText (partition ':' (portSuffix e)).2.2) = .ok e := by
  cases e with
  | none => rfl
  | some n => exact portOf_natStr (h n rfl)

theorem bracketed_of_colon (h : ':' ∈ host) : bracketed host = '[' :: host ++ [']'] := by
  rw [bracketed, if_pos (List.contains_iff_mem.mpr h)]

theorem bracketed_of_notMem (h : ':' ∉ host) : bracketed host = host := by
  rw [bracketed, if_neg fun hc => h (List.contains_iff_mem.mp hc)]

/-- With its port, a host in brackets is read up to the closing one. -/
theorem hostPort_of_colon (h : ':' ∈ host) (e : Option ℕ) :
    hostPort host e = '[' :: (host ++ ']' :: portSuffix e) := by
  rw [hostPort, bracketed_of_colon h]
  simp

/-- Brackets are checked where a colon calls for them, and refused elsewhere. -/
theorem checkBrackets_hostPort {u : UnicodeTables} {e : Option ℕ} (hat : '@' ∉ host)
    (hboth : ¬ ('[' ∈ host ∧ ']' ∈ host)) (hclose : ':' ∈ host → ']' ∉ host) :
    checkBrackets u (hostPort host e) = .ok () ↔
      (':' ∈ host → checkBracketedHost u host = .ok ()) ∧
        ('[' ∈ host ∨ ']' ∈ host → ':' ∈ host) := by
  by_cases hcolon : ':' ∈ host
  · have hnet := hostPort_of_colon hcolon e
    have hat' : '@' ∉ hostPort host e := by
      intro h
      rw [hostPort, List.mem_append] at h
      rcases h with h | h
      · rcases mem_bracketed h with h | h | h
        · exact hat h
        · exact absurd h (by decide)
        · exact absurd h (by decide)
      · exact notMem_portSuffix (by decide) (by decide) e h
    have hopen : (hostPort host e).contains '[' = true := by
      rw [List.contains_iff_mem, hnet]
      exact List.mem_cons_self
    have hends : (hostPort host e).contains ']' = true := by
      rw [List.contains_iff_mem, hnet]
      simp
    have hfirst : partition '[' (hostPort host e) = ([], true, host ++ ']' :: portSuffix e) := by
      rw [hnet]
      exact partition_append (s := []) List.not_mem_nil _
    have hport : (!(portSuffix e).isEmpty && (portSuffix e).head? ≠ some ':') = false := by
      cases e <;> simp [portSuffix]
    rw [checkBrackets, hopen, hends, checkBracketedNetloc, rpartition_of_notMem hat']
    simp only [bne_self_eq_false, Bool.false_eq_true, if_false, if_true, hfirst,
      partition_append (hclose hcolon), List.isEmpty_nil, Bool.not_true, hport]
    simp [hcolon]
  · have hnet : hostPort host e = host ++ portSuffix e := by
      rw [hostPort, bracketed_of_notMem hcolon]
    have hmem : ∀ c, c ≠ ':' → c.isDigit = false → (c ∈ hostPort host e ↔ c ∈ host) := by
      intro c hc hdigit
      rw [hnet, List.mem_append, or_iff_left (notMem_portSuffix hc hdigit e)]
    have hopen := hmem '[' (by decide) (by decide)
    have hends := hmem ']' (by decide) (by decide)
    by_cases h : '[' ∈ host ∨ ']' ∈ host
    · refine iff_of_false ?_ fun hc => hcolon (hc.2 h)
      rw [checkBrackets_one]
      · intro hc
        cases hc
      · rw [hopen, hends]
        exact fun hiff => h.elim (fun ho => hboth ⟨ho, hiff.mp ho⟩)
          fun hc => hboth ⟨hiff.mpr hc, hc⟩
    · rw [not_or] at h
      exact iff_of_true (checkBrackets_none (mt hopen.mp h.1) (mt hends.mp h.2))
        ⟨fun hc => absurd hc hcolon, fun hc => absurd hc (not_or.mpr h)⟩

/-- Host and port are found where they were put. -/
theorem hostinfo_hostPort {q : SplitResult} {e : Option ℕ} (hnet : q.netloc = hostPort host e)
    (hat : '@' ∉ host) (hclose : ':' ∈ host → ']' ∉ host) (hopen : ':' ∉ host → '[' ∉ host) :
    q.hostinfo = (host, portText (partition ':' (portSuffix e)).2.2) := by
  have hat' : '@' ∉ q.netloc := by
    rw [hnet, hostPort, List.mem_append, not_or]
    refine ⟨fun h => ?_, notMem_portSuffix (by decide) (by decide) e⟩
    rcases mem_bracketed h with h | h | h
    · exact hat h
    · exact absurd h (by decide)
    · exact absurd h (by decide)
  by_cases hcolon : ':' ∈ host
  · rw [hostPort_of_colon hcolon] at hnet
    exact hostinfo_bracketed hnet hat' (hclose hcolon)
  · have hplain : q.netloc = host ++ portSuffix e := by
      rw [hnet, hostPort, bracketed_of_notMem hcolon]
    have hopen' : '[' ∉ q.netloc := by
      rw [hplain, List.mem_append, not_or]
      exact ⟨hopen hcolon, notMem_portSuffix (by decide) (by decide) e⟩
    rw [hostinfo_plain hat' hopen', hplain, partition_append_left hcolon, partition_portSuffix,
      List.append_nil]

/-- A character that no label has is in the host where it was in the URL. -/
theorem mem_asciiHost_iff (hu : UnicodeRules t.unicode k) (hi : IdnaChars t.idna)
    {raw : Text} (h : asciiHost t (lowerHost t.unicode raw) = .ok host) {c : Char}
    (hc : isAsciiChar c = true) (halnum : c.isAlphanum = false) (hdot : c ≠ '.')
    (hhyphen : c ≠ '-') : c ∈ host ↔ c ∈ raw := by
  have hletter : c.isAlpha = false := (Bool.or_eq_false_iff.mp halnum).1
  have hraw : c ∈ bareName t (lowerHost t.unicode raw) ↔ c ∈ raw :=
    mem_hostName_iff hu hc hletter hdot
  rw [← hraw]
  have hplain : ¬ (c.isAlphanum = true ∨ c = '-' ∨ c = '.') := by
    rw [halnum]
    exact fun h => h.elim Bool.false_ne_true.elim fun h => h.elim hhyphen hdot
  obtain ⟨-, ⟨-, rfl⟩ | ⟨-, henc⟩⟩ := asciiHost_eq_ok.mp h
  · exact Iff.rfl
  · refine iff_of_false (fun hmem => ?_) fun hmem => hplain (hi.plain _ _ henc c hmem hc)
    rcases hi.chars _ _ henc c hmem with h | h
    · exact hplain ((isAlphanum_of_isLabelChar h).imp_right .inl)
    · exact hdot h

namespace Canonical

/-- A colon is part of a host in brackets only. -/
theorem literal (h : Canonical t url p port host) (hcolon : ':' ∈ p.hostinfo.1) :
    ']' ∉ p.hostinfo.1 ∧ checkBracketedHost t.unicode p.hostinfo.1 = .ok () := by
  have hchecks := (urlsplit_checks h.split).1
  rw [SplitResult.hostinfo] at hcolon ⊢
  rcases partition_cases '[' (rpartition '@' p.netloc).2.2 with
    ⟨-, heq⟩ | ⟨before, bracketed, heq, hbefore, hcut⟩
  · rw [heq] at hcolon
    exact absurd rfl (mem_of_mem_partition_fst hcolon).2
  · rw [hcut] at hcolon ⊢
    refine ⟨fun hclose => absurd rfl (mem_of_mem_partition_fst hclose).2, ?_⟩
    -- both brackets are there, so what stands between them has been checked
    have hopen : p.netloc.contains '[' = true := by
      rw [List.contains_iff_mem]
      exact (mem_of_mem_rpartition (by rw [heq]; simp)).1
    rw [checkBrackets] at hchecks
    split at hchecks
    · cases hchecks
    · rw [checkBracketedNetloc, hcut] at hchecks
      dsimp only at hchecks ⊢
      split at hchecks
      · cases hchecks
      · split at hchecks
        · cases hchecks
        · exact hchecks

section
variable (hu : UnicodeRules t.unicode k) (hi : IdnaChars t.idna)
  (h : Canonical t url p port host)
include hu hi h

/-- A delimiter would have ended the host. -/
theorem host_chars {c : Char} (hc : c ∈ host) :
    isDelim c = false ∧ isUnsafe c = false ∧ c ≠ '@' := by
  by_contra hbad
  have hplain : isAsciiChar c = true ∧ c.isAlphanum = false ∧ c ≠ '.' ∧ c ≠ '-' := by
    simp only [isDelim, isUnsafe, not_and_or, Bool.not_eq_false, Bool.or_eq_true, beq_iff_eq,
      not_not] at hbad
    rcases hbad with ((rfl | rfl) | rfl) | ((rfl | rfl) | rfl) | rfl <;> decide
  obtain ⟨hascii, halnum, hdot, hhyphen⟩ := hplain
  obtain ⟨hmem, hat⟩ :=
    mem_hostinfo ((mem_asciiHost_iff hu hi h.host hascii halnum hdot hhyphen).mp hc)
  exact hbad ⟨h.wellFormed.netloc c hmem, h.wellFormed.safe c (by simp [hmem]), hat⟩

theorem hostPort_isNetloc (e : Option ℕ) : IsNetloc (hostPort host e) := by
  intro c hc
  rcases List.mem_append.mp hc with hc | hc
  · rcases mem_bracketed hc with hc | rfl | rfl
    · exact ⟨(h.host_chars hu hi hc).1, (h.host_chars hu hi hc).2.1⟩
    · decide
    · decide
  · rcases mem_portSuffix hc with rfl | ⟨hascii, hdigit⟩
    · decide
    · exact CharTables.forall_ascii (p := fun c => c.isDigit = true →
        isDelim c = false ∧ isUnsafe c = false) (by decide) hascii hdigit

theorem checknetloc_hostPort (e : Option ℕ) :
    checknetloc t.unicode (hostPort host e) = .ok () := by
  have hascii : isAscii (hostPort host e) = true := by
    refine List.all_eq_true.mpr fun c hc => ?_
    rcases List.mem_append.mp hc with hc | hc
    · rcases mem_bracketed hc with hc | rfl | rfl
      · exact (asciiHost_chars hu hi h.host c hc).1
      · decide
      · decide
    · rcases mem_portSuffix hc with rfl | ⟨hascii, -⟩
      · decide
      · exact hascii
  rw [checknetloc, hascii, Bool.or_true, if_pos rfl]

theorem not_both : ¬ ('[' ∈ host ∧ ']' ∈ host) := by
  rw [mem_asciiHost_iff hu hi h.host (by decide) (by decide) (by decide) (by decide),
    mem_asciiHost_iff hu hi h.host (by decide) (by decide) (by decide) (by decide)]
  exact hostinfo_not_both

theorem notMem_close (hcolon : ':' ∈ host) : ']' ∉ host := by
  rw [mem_asciiHost_iff hu hi h.host (by decide) (by decide) (by decide) (by decide)] at hcolon ⊢
  exact (h.literal hcolon).1

end

end Canonical

/-! ### The second reading -/

/-- Path and query of a text that follows a netloc. -/
def readRest (scheme netloc rest : Text) : SplitResult :=
  ⟨scheme, netloc, (partition '?' rest).1, (partition '?' rest).2.2, []⟩

theorem orSlash_of_head {path : Text} (h : path.head? = some '/') : orSlash path = path := by
  rw [orSlash, if_neg]
  rintro hnil
  rw [List.isEmpty_iff.mp hnil] at h
  cases h

theorem head?_partition {rest : Text} (hroot : rest.head? = some '/') :
    (partition '?' rest).1.head? = some '/' := by
  obtain ⟨r, rfl⟩ := List.head?_eq_some_iff.mp hroot
  rfl

/-- Nothing but an empty query is lost. -/
theorem length_pathAndQuery_readRest (scheme netloc : Text) {rest : Text}
    (hroot : rest.head? = some '/') :
    (pathAndQuery (readRest scheme netloc rest)).length ≤ rest.length := by
  have hhead := head?_partition hroot
  rw [pathAndQuery_eq, readRest, orSlash_of_head hhead]
  rcases partition_cases '?' rest with ⟨-, heq⟩ | ⟨path, query, hrest, -, heq⟩
  · rw [heq]
    simp
  · rw [heq]
    dsimp only
    rw [hrest, List.length_append, List.length_append]
    split <;> simp

theorem mem_pathAndQuery {q : SplitResult} {c : Char} (h : c ∈ pathAndQuery q) :
    c ∈ q.path ∨ c ∈ q.query ∨ c = '/' ∨ c = '?' := by
  rw [pathAndQuery_eq, List.mem_append] at h
  rcases h with h | h
  · rw [orSlash] at h
    split at h
    · exact .inr (.inr (.inl (List.mem_singleton.mp h)))
    · exact .inl h
  · split at h
    · exact absurd h List.not_mem_nil
    · rcases List.mem_cons.mp h with h | h
      · exact .inr (.inr (.inr h))
      · exact .inr (.inl h)

/-- Path and query are read as they were written. -/
theorem pathAndQuery_readRest {q : SplitResult} (hq : q.WellFormed)
    (hroot : (orSlash q.path).head? = some '/') (scheme netloc : Text) :
    pathAndQuery (readRest scheme netloc (pathAndQuery q)) = pathAndQuery q := by
  have hmark : '?' ∉ orSlash q.path := by
    rw [orSlash]
    split
    · decide
    · exact fun h => (hq.path _ h).1 rfl
  have hcut : partition '?' (pathAndQuery q) = (orSlash q.path, !q.query.isEmpty, q.query) := by
    rw [pathAndQuery_eq]
    cases hquery : q.query with
    | nil => rw [if_pos rfl, List.append_nil, partition_of_notMem hmark]; rfl
    | cons c s => rw [if_neg (List.cons_ne_nil _ _), partition_append hmark]; rfl
  rw [pathAndQuery_eq (readRest _ _ _), readRest, hcut]
  dsimp only
  rw [orSlash_of_head hroot, pathAndQuery_eq]

/-- Space is stripped off the end of a URL only. -/
theorem strip_urlText {scheme rest : Text} (hs : scheme = [] ∨ IsScheme scheme)
    (hroot : rest.head? = some '/') (netloc : Text) :
    strip isSpace (urlText scheme netloc rest) = urlText scheme netloc (rstrip isSpace rest) ∧
      (rstrip isSpace rest).head? = some '/' := by
  obtain ⟨r, rfl⟩ := List.head?_eq_some_iff.mp hroot
  have hslash : ∀ c ∈ (['/'] : Text).getLast?, isSpace c = false := by
    intro c hc
    rw [← Option.some.inj hc]
    decide
  have hrest : rstrip isSpace ('/' :: r) = '/' :: rstrip isSpace r :=
    rstrip_append_left hslash r
  have hfront : lstrip isSpace (urlText scheme netloc ('/' :: r)) =
      urlText scheme netloc ('/' :: r) := by
    rcases hs with rfl | hs
    · rfl
    · obtain ⟨c, s, rfl⟩ : ∃ c s, scheme = c :: s := by
        cases scheme with
        | nil => exact absurd hs.head (by simp)
        | cons c s => exact ⟨c, s, rfl⟩
      have hc : isSpace c = false := CharTables.forall_ascii
        (p := fun c => isSchemeChar c = true → isSpace c = false) (by decide)
        (isAsciiChar_of_scheme (hs.chars c List.mem_cons_self)) (hs.chars c List.mem_cons_self)
      have htext : urlText (c :: s) netloc ('/' :: r) =
          c :: (s ++ ':' :: '/' :: '/' :: (netloc ++ '/' :: r)) := by
        simp [urlText]
      rw [htext, lstrip, List.dropWhile_cons_of_neg (by rw [hc]; exact Bool.false_ne_true)]
  refine ⟨?_, by rw [hrest]; rfl⟩
  rw [strip, hfront, hrest]
  have hsplit : ∀ tail, urlText scheme netloc ('/' :: tail) =
      ((if scheme = [] then [] else scheme ++ [':']) ++ '/' :: '/' :: netloc ++ ['/']) ++ tail := by
    intro tail
    simp [urlText]
  rw [hsplit, hsplit, rstrip_append_left]
  intro c hc
  rw [List.getLast?_concat] at hc
  rw [← Option.some.inj hc]
  decide

/-! ### Idempotence -/

/-- A host that is read again as it was written. -/
structure SettledHost (remap : Text → Option Text) (t : HostTables) (host : Text) : Prop where
  dot : endsInDot remap t host = false
  /-- brackets stand around a literal only -/
  brackets : '[' ∈ host ∨ ']' ∈ host → ':' ∈ host
  /-- the zone of an address is more than dots -/
  zone : ':' ∈ host → (bareName t host).getLast? = some '%' → (bareName t host).head? = some 'v'

/-- A URL whose canonical spelling is read again as it was written: without its fragment
it does not end in space, and its host is settled. -/
def Settled (remap : Text → Option Text) (t : HostTables) (url : Text) : Prop :=
  ∃ p, urlsplit t.unicode (strip isSpace url) = .ok p ∧
    (∀ c ∈ (pathAndQuery p).getLast?, isSpace c = false) ∧
    SettledHost remap t ((p.hostname t.unicode).getD [])

namespace Canonical

section
variable (hu : UnicodeRules t.unicode k) (hi : IdnaChars t.idna)
  (h : Canonical t url p port host)
include hu hi h

/-- The brackets of the canonical spelling are checked once more. -/
theorem checkBrackets_iff (e : Option ℕ) :
    checkBrackets t.unicode (hostPort host e) = .ok () ↔
      (('[' ∈ lowerHost t.unicode p.hostinfo.1 ∨ ']' ∈ lowerHost t.unicode p.hostinfo.1 →
          ':' ∈ lowerHost t.unicode p.hostinfo.1) ∧
        (':' ∈ lowerHost t.unicode p.hostinfo.1 →
          (bareName t (lowerHost t.unicode p.hostinfo.1)).getLast? = some '%' →
            (bareName t (lowerHost t.unicode p.hostinfo.1)).head? = some 'v')) := by
  have hat : '@' ∉ host := fun hmem => (h.host_chars hu hi hmem).2.2 rfl
  have hmem : ∀ c, isAsciiChar c = true → c.isAlphanum = false → c ≠ '.' → c ≠ '-' →
      (c ∈ host ↔ c ∈ lowerHost t.unicode p.hostinfo.1) := by
    intro c hc halnum hdot hhyphen
    rw [mem_asciiHost_iff hu hi h.host hc halnum hdot hhyphen,
      mem_lowerHost_iff hu hc (Bool.or_eq_false_iff.mp halnum).1]
  rw [checkBrackets_hostPort hat (h.not_both hu hi) (h.notMem_close hu hi), and_comm,
    hmem '[' (by decide) (by decide) (by decide) (by decide),
    hmem ']' (by decide) (by decide) (by decide) (by decide),
    hmem ':' (by decide) (by decide) (by decide) (by decide)]
  refine and_congr_right fun _ => forall_congr' fun hcolon => ?_
  rw [mem_lowerHost_iff hu (by decide) (by decide)] at hcolon
  -- no label has a colon, so the name was one of ASCII
  obtain ⟨-, ⟨-, heq⟩ | ⟨-, henc⟩⟩ := asciiHost_eq_ok.mp h.host
  · rw [checkBracketedHost_bareName hu (h.literal hcolon).2 hcolon heq.symm, heq]
  · have hname := (mem_hostName_iff hu (show isAsciiChar ':' = true by decide) (by decide)
      (by decide)).mpr hcolon
    rcases hi.plain _ _ henc ':' hname (by decide) with h | h | h <;> exact absurd h (by decide)

/-- What the canonical spelling is read as, once space is stripped off its end. -/
theorem again {name rest : Text} (hname : asciiHost t host = .ok name) {q : SplitResult}
    {port' : Option ℕ} {host' : Text} (hrest : rest.head? = some '/')
    (hsafe : ∀ c ∈ rest, isUnsafe c = false ∧ c ≠ '#')
    (hstrip : strip isSpace v = urlText p.scheme (hostPort host (extraPort p.scheme port)) rest) :
    Canonical t v q port' host' ↔
      checkBrackets t.unicode (hostPort host (extraPort p.scheme port)) = .ok () ∧
        q = readRest p.scheme (hostPort host (extraPort p.scheme port)) rest ∧
        port' = extraPort p.scheme port ∧ host' = name := by
  have hsplit := urlsplit_urlText (u := t.unicode) (urlsplit_scheme h.split)
    (h.hostPort_isNetloc hu hi (extraPort p.scheme port)) hrest hsafe
  rw [h.checknetloc_hostPort hu hi, ← hstrip] at hsplit
  have hport : ∀ n ∈ extraPort p.scheme port, n ≤ 65535 := by
    intro n hn
    have hp := h.port
    rw [(Option.filter_eq_some_iff.mp hn).1, port_eq] at hp
    exact portOf_le hp
  have hread : checkBrackets t.unicode (hostPort host (extraPort p.scheme port)) = .ok () →
      Canonical t v (readRest p.scheme (hostPort host (extraPort p.scheme port)) rest)
        (extraPort p.scheme port) name := by
    intro hb
    have hinfo : (readRest p.scheme (hostPort host (extraPort p.scheme port)) rest).hostinfo =
        (host, portText (partition ':' (portSuffix (extraPort p.scheme port))).2.2) := by
      refine hostinfo_hostPort rfl (fun hmem => (h.host_chars hu hi hmem).2.2 rfl)
        (h.notMem_close hu hi) fun hcolon hopen => ?_
      refine hcolon (((checkBrackets_hostPort (fun hmem => (h.host_chars hu hi hmem).2.2 rfl)
        (h.not_both hu hi) (h.notMem_close hu hi)).mp hb).2 (.inl hopen))
    refine ⟨?_, ?_, ?_⟩
    · rw [hsplit, hb]
      rfl
    · rw [port_eq, hinfo]
      exact portOf_portSuffix hport
    · rw [hinfo, lowerHost_of_fixed hu fun c hc => (asciiHost_chars hu hi h.host c hc).2]
      exact hname
  constructor
  · intro hc
    have hb : checkBrackets t.unicode (hostPort host (extraPort p.scheme port)) = .ok () := by
      have := hc.split
      rw [hsplit] at this
      cases hb : checkBrackets t.unicode (hostPort host (extraPort p.scheme port)) with
      | ok => rfl
      | error m =>
        rw [hb] at this
        cases this
    exact ⟨hb, hc.unique (hread hb)⟩
  · rintro ⟨hb, rfl, rfl, rfl⟩
    exact hread hb

end

end Canonical

theorem length_hostPort (host : Text) (e : Option ℕ) :
    (hostPort host e).length =
      host.length + (if ':' ∈ host then 2 else 0) + (portSuffix e).length := by
  rw [hostPort, List.length_append]
  by_cases hcolon : ':' ∈ host
  · rw [bracketed_of_colon hcolon, if_pos hcolon]
    simp
  · rw [bracketed_of_notMem hcolon, if_neg hcolon, Nat.add_zero]

/-- Netloc and rest can be told from the text. -/
theorem urlText_inj {scheme n n' r r' : Text} (hn : IsNetloc n) (hn' : IsNetloc n')
    (hr : r.head? = some '/') (hr' : r'.head? = some '/')
    (h : urlText scheme n r = urlText scheme n' r') : n = n' ∧ r = r' := by
  obtain ⟨s, rfl⟩ := List.head?_eq_some_iff.mp hr
  obtain ⟨s', rfl⟩ := List.head?_eq_some_iff.mp hr'
  rw [urlText, urlText, List.append_cancel_left_eq, List.cons.injEq, List.cons.injEq] at h
  obtain ⟨rfl, rfl⟩ :=
    append_rooted_inj (fun c hc => (hn c hc).1) (fun c hc => (hn' c hc).1) h.2.2
  exact ⟨rfl, rfl⟩

/-- **The canonical spelling is its own canonical spelling** exactly for a settled URL. -/
theorem canonicalUrl_idempotent_iff (hu : UnicodeRules t.unicode k)
    (hi : IdnaRules t.idna remap alabel) (hv : canonicalUrl t url = .ok v) :
    canonicalUrl t v = .ok v ↔ Settled remap t url := by
  obtain ⟨p, port, host, h, rfl⟩ := (canonicalUrl_eq_ok hu hi).mp hv
  obtain ⟨name, hname, hhost⟩ := asciiHost_again hu hi h.host
  set e := extraPort p.scheme port with he
  have hroot := h.pathAndQuery_head
  have hee : extraPort p.scheme e = e := by
    rw [he, extraPort, extraPort, Option.filter_filter]
    simp
  obtain ⟨hstrip, hroot'⟩ := strip_urlText (urlsplit_scheme h.split) hroot (hostPort host e)
  have hsafe : ∀ c ∈ rstrip isSpace (pathAndQuery p), isUnsafe c = false ∧ c ≠ '#' := by
    intro c hc
    have hwf := h.wellFormed
    rcases mem_pathAndQuery (mem_of_mem_rstrip hc) with hc | hc | rfl | rfl
    · exact ⟨hwf.safe c (by simp [hc]), (hwf.path c hc).2⟩
    · refine ⟨hwf.safe c (by simp [hc]), ?_⟩
      rintro rfl
      exact hwf.query hc
    · decide
    · decide
  have hsettled : Settled remap t url ↔ (∀ c ∈ (pathAndQuery p).getLast?, isSpace c = false) ∧
      SettledHost remap t (lowerHost t.unicode p.hostinfo.1) := by
    constructor
    · rintro ⟨q, hq, hs, hh⟩
      obtain rfl : q = p := Except.ok.inj (hq.symm.trans h.split)
      rw [hostname_getD] at hh
      exact ⟨hs, hh⟩
    · rintro ⟨hs, hh⟩
      exact ⟨p, h.split, hs, by rwa [hostname_getD]⟩
  have hagain : ∀ {q port' host'}, Canonical t (canonicalText p port host) q port' host' ↔ _ :=
    h.again hu hi.idnaChars hname hroot' hsafe hstrip
  rw [canonicalUrl_eq_ok hu hi, hsettled]
  constructor
  · rintro ⟨q, port', host', hq, heq⟩
    obtain ⟨hb, rfl, rfl, rfl⟩ := hagain.mp hq
    rw [canonicalText, canonicalText, ← he, show (readRest p.scheme (hostPort host e)
      (rstrip isSpace (pathAndQuery p))).scheme = p.scheme from rfl, hee] at heq
    obtain ⟨hnetloc, hrest⟩ := urlText_inj (h.hostPort_isNetloc hu hi.idnaChars e)
      (hq.hostPort_isNetloc hu hi.idnaChars e) hroot hq.pathAndQuery_head heq
    refine ⟨?_, ?_, ?_, ?_⟩
    · -- no space was lost
      have hlen := length_pathAndQuery_readRest p.scheme (hostPort host e) hroot'
      rw [← hrest] at hlen
      have hsame : rstrip isSpace (pathAndQuery p) = pathAndQuery p :=
        (List.rdropWhile_prefix isSpace _).eq_of_length_le hlen
      intro c hc
      rw [← hsame] at hc
      exact last_rstrip hc
    · -- no dot was lost
      by_contra hdot
      rw [Bool.not_eq_false] at hdot
      rw [hdot, if_pos rfl] at hhost
      have hcolon : ':' ∈ host ↔ ':' ∈ host' := by simp [hhost]
      have hlen := congrArg List.length hnetloc
      rw [length_hostPort, length_hostPort, hhost] at hlen
      simp only [hhost ▸ hcolon] at hlen
      simp at hlen
    · exact ((h.checkBrackets_iff hu hi.idnaChars e).mp hb).1
    · exact ((h.checkBrackets_iff hu hi.idnaChars e).mp hb).2
  · rintro ⟨hspace, hdot, hbrackets, hzone⟩
    rw [hdot, if_neg Bool.false_ne_true, List.append_nil] at hhost
    subst hhost
    have hsame : rstrip isSpace (pathAndQuery p) = pathAndQuery p := rstrip_of_last hspace
    refine ⟨_, _, _, hagain.mpr ⟨(h.checkBrackets_iff hu hi.idnaChars e).mpr ⟨hbrackets, hzone⟩, rfl, rfl,
      rfl⟩, ?_⟩
    rw [hsame, canonicalText, canonicalText, ← he, pathAndQuery_readRest h.wellFormed h.path_head,
      show (readRest p.scheme (hostPort host e) (pathAndQuery p)).scheme = p.scheme from rfl, hee]

theorem canonicalUrl_idempotent_iff_books :
    canonicalUrl bookHosts "https://xn--bcher-kva.example/Feed".toList =
        .ok "https://xn--bcher-kva.example/Feed".toList ↔
      Settled some bookHosts " HTTPS://Bücher.Example.:443/Feed#top".toList :=
  canonicalUrl_idempotent_iff basicUnicode_rules bookHosts_rules (by decide)

/-- A separator of labels other than the full stop becomes one at the end of the host,
and is then cut off. -/
theorem canonicalUrl_not_idempotent :
    canonicalUrl bookHosts "https://bücher.example。/rss".toList =
        .ok "https://xn--bcher-kva.example./rss".toList ∧
      canonicalUrl bookHosts "https://xn--bcher-kva.example./rss".toList ≠
        .ok "https://xn--bcher-kva.example./rss".toList := by
  constructor <;> decide

end SafeHttp
