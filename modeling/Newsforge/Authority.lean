/-
Host and port in a netloc.

* `lowerHost` — what `hostname` makes of the text of a host;
* `hostinfo_plain`, `hostinfo_bracketed` — the host and the port of a netloc
  without a user part;
* `checknetloc_iff` — which netlocs pass the NFKC check;
* `portOf_natStr` — a port that was printed reads back;
* `urlsplit_scheme` — the scheme `urlsplit` returns is in lower case.
-/
import Newsforge.LetterCase
import Newsforge.PercentSpelling
import Newsforge.SsrfSafety

open PyText

namespace PyText

theorem mem_of_mem_rpartition {c x : Char} {s : Text} (h : x ∈ (rpartition c s).2.2) :
    x ∈ s ∧ x ≠ c := by
  rcases rpartition_cases c s with ⟨hno, heq⟩ | ⟨a, b, rfl, hb, heq⟩
  · rw [heq] at h
    refine ⟨h, ?_⟩
    rintro rfl
    exact hno h
  · rw [heq] at h
    refine ⟨List.mem_append_right _ (List.mem_cons_of_mem _ h), ?_⟩
    rintro rfl
    exact hb h

end PyText

namespace UrlParse

variable {u : UnicodeTables} {k : CharTables} {p : SplitResult}

/-! ### Hosts -/

/-- The host in lower case, but for the zone of a scoped address. -/
def lowerHost (u : UnicodeTables) (host : Text) : Text :=
  let (name, percent, zone) := partition '%' host
  lower u name ++ (if percent then ['%'] else []) ++ zone

theorem hostname_getD (u : UnicodeTables) (p : SplitResult) :
    (p.hostname u).getD [] = lowerHost u p.hostinfo.1 := by
  rw [SplitResult.hostname]
  split
  · rename_i hempty
    rw [List.isEmpty_iff] at hempty
    rw [hempty]
    rfl
  · rfl

/-- Text in lower case is a host in lower case. -/
theorem lowerHost_of_fixed (hu : UnicodeRules u k) {host : Text} (h : ∀ c ∈ host, k.Fixed c) :
    lowerHost u host = host := by
  rw [lowerHost]
  rcases partition_cases '%' host with ⟨-, heq⟩ | ⟨name, zone, rfl, -, heq⟩
  · rw [heq]
    simp [hu.lower_eq, CharTables.lower_of_fixed h]
  · have hname : ∀ c ∈ name, k.Fixed c := fun c hc => h c (List.mem_append_left _ hc)
    rw [heq]
    simp [hu.lower_eq, CharTables.lower_of_fixed hname]

/-- ASCII characters other than letters are neither lost nor brought in. -/
theorem mem_lowerHost_iff (hu : UnicodeRules u k) {host : Text} {c : Char}
    (hc : isAsciiChar c = true) (hletter : c.isAlpha = false) :
    c ∈ lowerHost u host ↔ c ∈ host := by
  rw [lowerHost]
  rcases partition_cases '%' host with ⟨-, heq⟩ | ⟨name, zone, rfl, -, heq⟩
  · rw [heq]
    simp [hu.lower_eq, CharTables.mem_lower_iff hc hletter]
  · rw [heq]
    simp [hu.lower_eq, CharTables.mem_lower_iff hc hletter]

theorem lowerHost_eq_nil (hu : UnicodeRules u k) {host : Text} :
    lowerHost u host = [] ↔ host = [] := by
  rw [lowerHost]
  rcases partition_cases '%' host with ⟨-, heq⟩ | ⟨name, zone, rfl, -, heq⟩
  · rw [heq]
    simp [hu.lower_eq, CharTables.lower_eq_nil]
  · rw [heq]
    simp

/-- A delimiter is hidden in a lower-cased host only where the host hid one, and
stays outside ASCII. -/
theorem hides_of_mem_lowerHost (hu : UnicodeRules u k) {host : Text} {d : Char}
    (h : d ∈ lowerHost u host) (hd : k.hides d = true) :
    ∃ c ∈ host, k.hides c = true ∧ (isAsciiChar c = true → isAsciiChar d = true) := by
  rw [lowerHost] at h
  rcases partition_cases '%' host with ⟨-, heq⟩ | ⟨name, zone, rfl, -, heq⟩
  · rw [heq] at h
    simp only [Bool.false_eq_true, if_false, List.append_nil, hu.lower_eq] at h
    exact CharTables.hides_of_mem_lower h hd
  · rw [heq] at h
    simp only [if_true, hu.lower_eq, List.append_assoc, List.mem_append] at h
    rcases h with h | h
    · obtain ⟨c, hc, hhides⟩ := CharTables.hides_of_mem_lower h hd
      exact ⟨c, List.mem_append_left _ hc, hhides⟩
    · refine ⟨d, List.mem_append_right _ ?_, hd, id⟩
      simpa using h

/-! ### hostinfo -/

theorem mem_hostinfo {c : Char} (h : c ∈ p.hostinfo.1) : c ∈ p.netloc ∧ c ≠ '@' := by
  rw [SplitResult.hostinfo] at h
  refine mem_of_mem_rpartition (c := '@') ?_
  rcases partition_cases '[' (rpartition '@' p.netloc).2.2 with ⟨-, heq⟩ | ⟨a, b, hab, -, heq⟩
  · rw [heq] at h
    exact (mem_of_mem_partition_fst h).1
  · rw [heq] at h
    rw [hab]
    exact List.mem_append_right _ (List.mem_cons_of_mem _ (mem_of_mem_partition_fst h).1)

/-- Brackets end a host, or there are none in front of it. -/
theorem hostinfo_not_both : ¬ ('[' ∈ p.hostinfo.1 ∧ ']' ∈ p.hostinfo.1) := by
  rintro ⟨hopen, hclose⟩
  rw [SplitResult.hostinfo] at hopen hclose
  rcases partition_cases '[' (rpartition '@' p.netloc).2.2 with ⟨hno, heq⟩ | ⟨a, b, -, -, heq⟩
  · rw [heq] at hopen
    exact hno (mem_of_mem_partition_fst hopen).1
  · rw [heq] at hclose
    exact (mem_of_mem_partition_fst hclose).2 rfl

/-- A port text, unless it is empty. -/
def portText (s : Text) : Option Text := if s.isEmpty then none else some s

/-- Without a user part and brackets the host ends at the first colon. -/
theorem hostinfo_plain (hat : '@' ∉ p.netloc) (hopen : '[' ∉ p.netloc) :
    p.hostinfo = ((partition ':' p.netloc).1, portText (partition ':' p.netloc).2.2) := by
  rw [SplitResult.hostinfo, rpartition_of_notMem hat]
  simp only [partition_of_notMem hopen]
  rfl

/-- Brackets hide the colons of a host. -/
theorem hostinfo_bracketed {host rest : Text} (hnet : p.netloc = '[' :: (host ++ ']' :: rest))
    (hat : '@' ∉ p.netloc) (hclose : ']' ∉ host) :
    p.hostinfo = (host, portText (partition ':' rest).2.2) := by
  have hfirst : partition '[' p.netloc = ([], true, host ++ ']' :: rest) := by
    rw [hnet]
    exact partition_append (s := []) List.not_mem_nil _
  rw [SplitResult.hostinfo, rpartition_of_notMem hat]
  simp only [hfirst, partition_append hclose]
  rfl

/-! ### Ports -/

/-- `port`, by the port text. -/
def portOf (u : UnicodeTables) : Option Text → Except Text (Option ℕ)
  | none => .ok none
  | some t =>
    if !isDecimal t then
      .error ("Port could not be cast to integer value as ".toList ++ u.repr t)
    else if decValue t > 65535 then .error "Port out of range 0-65535".toList
    else .ok (some (decValue t))

theorem port_eq (u : UnicodeTables) (p : SplitResult) : p.port u = portOf u p.hostinfo.2 := by
  rw [SplitResult.port]
  rcases p.hostinfo.2 with _ | t
  · rfl
  · rfl

theorem portOf_natStr {n : ℕ} (h : n ≤ 65535) :
    portOf u (portText (natStr n)) = .ok (some n) := by
  have hne : (natStr n).isEmpty = false := List.isEmpty_eq_false_iff.mpr Nat.toDigits_ne_nil
  rw [portText, hne, if_neg Bool.false_ne_true, portOf, SafeHttp.isDecimal_natStr,
    SafeHttp.decValue_natStr, if_neg (by decide), if_neg (by omega)]

/-- A port is a number of sixteen bits. -/
theorem portOf_le {t : Option Text} {n : ℕ} (h : portOf u t = .ok (some n)) : n ≤ 65535 := by
  cases t with
  | none => exact absurd h (by simp [portOf])
  | some t =>
    rw [portOf] at h
    split at h
    · cases h
    · split at h
      · cases h
      · cases h
        omega

theorem mem_natStr_ascii {n : ℕ} {c : Char} (h : c ∈ natStr n) :
    isAsciiChar c = true ∧ c.isDigit = true := by
  obtain ⟨d, hd, rfl⟩ := SafeHttp.mem_natStr h
  exact (by decide : ∀ d < 10, isAsciiChar (Nat.digitChar d) = true ∧
    (Nat.digitChar d).isDigit = true) d hd

/-! ### The checks -/

/-- **The NFKC check**: no character outside ASCII hides a delimiter. -/
theorem checknetloc_iff (hu : UnicodeRules u k) {netloc : Text} (hslash : '/' ∉ netloc) :
    checknetloc u netloc = .ok () ↔
      ∀ c ∈ netloc, k.hides c = true → isAsciiChar c = true := by
  rw [checknetloc]
  split
  · rename_i h
    refine iff_of_true rfl fun c hc _ => ?_
    rw [Bool.or_eq_true, List.isEmpty_iff] at h
    rcases h with rfl | h
    · exact absurd hc List.not_mem_nil
    · exact List.all_eq_true.mp h c hc
  · rename_i hascii
    set n := removeChar '?' (removeChar '#' (removeChar ':' (removeChar '@' netloc))) with hn
    have hmem : ∀ c, c ∈ n ↔ c ∈ netloc ∧ isUrlDelim c = false := by
      intro c
      simp only [hn, removeChar, List.mem_filter, isUrlDelim, decide_eq_true_eq,
        Bool.or_eq_false_iff, beq_eq_false_iff_ne]
      constructor
      · rintro ⟨⟨⟨⟨hc, h1⟩, h2⟩, h3⟩, h4⟩
        refine ⟨hc, ⟨⟨⟨?_, h4⟩, h3⟩, h1⟩, h2⟩
        rintro rfl
        exact hslash hc
      · rintro ⟨hc, ⟨⟨⟨-, h4⟩, h3⟩, h1⟩, h2⟩
        exact ⟨⟨⟨⟨hc, h1⟩, h2⟩, h3⟩, h4⟩
    have hnone : n.any isUrlDelim = false := by
      rw [List.any_eq_false]
      intro c hc
      rw [((hmem c).mp hc).2]
      exact Bool.false_ne_true
    -- what the check looks for is what the characters hide
    have hhides : (u.nfkc n).any isUrlDelim = false ↔
        ∀ c ∈ netloc, k.hides c = true → isAsciiChar c = true := by
      rw [hu.nfkc, List.any_eq_false]
      constructor
      · intro h c hc hcd
        by_contra hno
        have hdelim : isUrlDelim c = false := by
          by_contra hd
          refine hno ?_
          simp only [Bool.not_eq_false, isUrlDelim, Bool.or_eq_true, beq_iff_eq] at hd
          rcases hd with (((rfl | rfl) | rfl) | rfl) | rfl <;> decide
        exact h c ((hmem c).mpr ⟨hc, hdelim⟩) hcd
      · intro h c hc hcd
        obtain ⟨hc, hdelim⟩ := (hmem c).mp hc
        rw [k.hides_ascii c (h c hc hcd), hdelim] at hcd
        exact Bool.false_ne_true hcd
    have hcheck : ((u.nfkc n).any fun c => c == '/' || c == '?' || c == '#' || c == '@' ||
        c == ':') = (u.nfkc n).any isUrlDelim := rfl
    rw [← hhides]
    dsimp only
    rw [hcheck]
    split
    · rename_i heq
      rw [← heq, hnone]
      exact iff_of_true rfl rfl
    · cases (u.nfkc n).any isUrlDelim <;> simp

/-- Without brackets there is nothing to check. -/
theorem checkBrackets_none {netloc : Text} (hopen : '[' ∉ netloc) (hclose : ']' ∉ netloc) :
    checkBrackets u netloc = .ok () := by
  have h1 : netloc.contains '[' = false := by simpa using hopen
  have h2 : netloc.contains ']' = false := by simpa using hclose
  rw [checkBrackets, h1, h2]
  rfl

/-- A bracket without the other one is refused. -/
theorem checkBrackets_one {netloc : Text} (h : ¬ ('[' ∈ netloc ↔ ']' ∈ netloc)) :
    checkBrackets u netloc = .error "Invalid IPv6 URL".toList := by
  have hne : (netloc.contains '[' != netloc.contains ']') = true := by
    rw [bne_iff_ne]
    intro heq
    refine h ?_
    rw [← List.contains_iff_mem, ← List.contains_iff_mem, heq]
  rw [checkBrackets, if_pos hne]

/-! ### Built URLs -/

/-- The netloc of a built URL ends where the path begins. -/
theorem append_rooted_inj {n n' r r' : Text} (hleft : ∀ c ∈ n, isDelim c = false)
    (hright : ∀ c ∈ n', isDelim c = false) (h : n ++ '/' :: r = n' ++ '/' :: r') :
    n = n' ∧ r = r' := by
  induction n generalizing n' with
  | nil =>
    cases n' with
    | nil => exact ⟨rfl, by simpa using h⟩
    | cons c n' =>
      rw [List.nil_append, List.cons_append, List.cons.injEq] at h
      exact absurd (hright '/' (by rw [h.1]; exact List.mem_cons_self)) (by decide)
  | cons c n ih =>
    cases n' with
    | nil =>
      rw [List.nil_append, List.cons_append, List.cons.injEq] at h
      exact absurd (hleft '/' (by rw [← h.1]; exact List.mem_cons_self)) (by decide)
    | cons c' n' =>
      rw [List.cons_append, List.cons_append, List.cons.injEq] at h
      obtain ⟨rfl, rfl⟩ := ih (fun x hx => hleft x (List.mem_cons_of_mem _ hx))
        (fun x hx => hright x (List.mem_cons_of_mem _ hx)) h.2
      exact ⟨by rw [h.1], rfl⟩

/-- **The parts of a built URL can be told from its text.** -/
theorem build_inj {s s' n n' path path' q q' : Text} (hs : ':' ∉ s) (hs' : ':' ∉ s')
    (hn : ∀ c ∈ n, isDelim c = false) (hn' : ∀ c ∈ n', isDelim c = false)
    (hroot : path.head? = some '/') (hroot' : path'.head? = some '/') (hpath : '?' ∉ path)
    (hpath' : '?' ∉ path') (h : build s n path q = build s' n' path' q') :
    s = s' ∧ n = n' ∧ path = path' ∧ q = q' := by
  have hparts := congrArg (partition ':') h
  rw [build, build, partition_append hs, partition_append hs'] at hparts
  simp only [Prod.mk.injEq, true_and, List.cons.injEq] at hparts
  obtain ⟨rfl, hrest⟩ := hparts
  obtain ⟨r, rfl⟩ : ∃ r, path = '/' :: r := by
    cases path with
    | nil => exact absurd hroot (by simp)
    | cons c r => exact ⟨r, by rw [Option.some.inj hroot]⟩
  obtain ⟨r', rfl⟩ : ∃ r, path' = '/' :: r := by
    cases path' with
    | nil => exact absurd hroot' (by simp)
    | cons c r => exact ⟨r, by rw [Option.some.inj hroot']⟩
  rw [List.cons_append, List.cons_append] at hrest
  obtain ⟨rfl, htail⟩ := append_rooted_inj hn hn' hrest
  refine ⟨rfl, rfl, ?_⟩
  have hr : '?' ∉ r := fun hmem => hpath (List.mem_cons_of_mem _ hmem)
  have hr' : '?' ∉ r' := fun hmem => hpath' (List.mem_cons_of_mem _ hmem)
  have hcut := congrArg (partition '?') htail
  by_cases hq : q = [] <;> by_cases hq' : q' = []
  · subst hq hq'
    simpa using htail
  · rw [if_pos hq, if_neg hq', List.append_nil, partition_of_notMem hr, partition_append hr']
      at hcut
    simp at hcut
  · rw [if_neg hq, if_pos hq', List.append_nil, partition_append hr, partition_of_notMem hr']
      at hcut
    simp at hcut
  · rw [if_neg hq, if_neg hq', partition_append hr, partition_append hr'] at hcut
    simp only [Prod.mk.injEq, true_and] at hcut
    exact ⟨by rw [hcut.1], hcut.2⟩

/-! ### Schemes -/

theorem isAsciiChar_of_scheme {c : Char} (h : isSchemeChar c = true) : isAsciiChar c = true := by
  rw [isSchemeChar, Bool.or_eq_true, Bool.or_eq_true, Bool.or_eq_true, beq_iff_eq, beq_iff_eq,
    beq_iff_eq] at h
  rcases h with ((h | rfl) | rfl) | rfl
  · rw [isAsciiChar, decide_eq_true_eq]
    exact Percent.toNat_lt_of_isAlphanum h
  · decide
  · decide
  · decide

/-- What stands in front of the first colon is lower-cased already. -/
theorem splitScheme_cases (url scheme : Text) :
    (splitScheme url scheme).1 = scheme ∧ (splitScheme url scheme).2 = url ∨
      IsScheme (splitScheme url scheme).1 := by
  rw [splitScheme]
  split
  · rename_i h
    rw [Bool.and_eq_true, Bool.and_eq_true, List.all_eq_true] at h
    obtain ⟨⟨-, hhead⟩, hchars⟩ := h
    have hlower : ∀ c, isSchemeChar c = true → isSchemeChar c.toLower = true ∧
        c.toLower.toLower = c.toLower ∧ (c.isAlpha = true → c.toLower.isAlpha = true) :=
      fun c hc => CharTables.forall_ascii (p := fun c => isSchemeChar c = true →
        isSchemeChar c.toLower = true ∧ c.toLower.toLower = c.toLower ∧
          (c.isAlpha = true → c.toLower.isAlpha = true)) (by decide) (isAsciiChar_of_scheme hc) hc
    refine .inr ⟨?_, ?_, ?_⟩
    · cases hs : (partition ':' url).1 with
      | nil => simp [hs] at hhead
      | cons c s =>
        rw [hs] at hhead hchars
        exact (hlower c (hchars c List.mem_cons_self)).2.2 hhead
    · intro d hd
      obtain ⟨c, hc, rfl⟩ := List.mem_map.mp hd
      exact (hlower c (hchars c hc)).1
    · rw [List.map_map]
      exact List.map_congr_left fun c hc => (hlower c (hchars c hc)).2.1
  · exact .inl ⟨rfl, rfl⟩

/-- Netloc, path, query and fragment of the text behind a scheme. -/
def restParts (scheme url : Text) : SplitResult :=
  let cut := cutNetloc url
  let hash := partition '#' cut.2
  let mark := partition '?' hash.1
  ⟨scheme, cut.1, mark.1, mark.2.2, hash.2.2⟩

/-- What `urlsplit` returns has passed its checks. -/
theorem splitRest_ok_iff {scheme url : Text} :
    splitRest u scheme url = .ok p ↔ p = restParts scheme url ∧
      checkBrackets u (cutNetloc url).1 = .ok () ∧ checknetloc u (cutNetloc url).1 = .ok () := by
  rw [splitRest]
  cases hb : checkBrackets u (cutNetloc url).1 with
  | error m => simp [bind, Except.bind]
  | ok x =>
    cases hn : checknetloc u (cutNetloc url).1 with
    | error m => simp [bind, Except.bind]
    | ok y =>
      simp only [bind, Except.bind, pure, Except.pure, Except.ok.injEq, and_true]
      exact eq_comm

/-- The scheme of a text, and what stands behind it. -/
def schemeOf (url : Text) : Text × Text := splitScheme (removeUnsafe (lstrip isC0OrSpace url)) []

theorem urlsplit_eq (u : UnicodeTables) (url : Text) :
    urlsplit u url = splitRest u (schemeOf url).1 (schemeOf url).2 := rfl

theorem urlsplit_checks {url : Text} (h : urlsplit u url = .ok p) :
    checkBrackets u p.netloc = .ok () ∧ checknetloc u p.netloc = .ok () := by
  rw [urlsplit_eq, splitRest_ok_iff] at h
  obtain ⟨rfl, hchecks⟩ := h
  exact hchecks

/-- The scheme is empty, or a lower-case scheme name. -/
theorem urlsplit_scheme {url : Text} (h : urlsplit u url = .ok p) :
    p.scheme = [] ∨ IsScheme p.scheme := by
  rw [urlsplit_eq, splitRest_ok_iff] at h
  obtain ⟨rfl, -⟩ := h
  exact (splitScheme_cases _ []).imp And.left id

theorem lower_scheme {url : Text} (h : urlsplit u url = .ok p) : lower u p.scheme = p.scheme := by
  rcases urlsplit_scheme h with h | h
  · rw [h]
    rfl
  · have hascii : isAscii p.scheme = true :=
      List.all_eq_true.mpr fun c hc => isAsciiChar_of_scheme (h.chars c hc)
    rw [lower_of_ascii hascii, h.lower]

end UrlParse
