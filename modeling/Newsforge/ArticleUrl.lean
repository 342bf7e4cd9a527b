/-
The canonical URL of an article.

* `insertionSort_eq_iff` — sorted queries agree when they have the same fields;
* `IsLink`, `checkLink_eq_ok` — what `check_link` makes sure of;
* `canonicalizeUrl_eq` — the canonical URL, put together from its parts;
* `netloc_eq_iff` — when two authorities are written alike.

Main results: `canonicalizeUrl_idempotent_iff`, `canonicalizeUrl_merges_iff`,
`canonicalizeUrl_ignores_noise`.
-/
import Newsforge.Authority
import Newsforge.QueryCoding

open PyText UrlParse

namespace Normalizer

variable {u : UnicodeTables} {k : CharTables}

/-! ### Sorted queries -/

instance : Std.Total fieldLe := ⟨fun f g => le_total (toLex f) (toLex g)⟩

instance : IsTrans Field fieldLe := ⟨fun _ _ _ hfg hgh => @le_trans (Lex Field) _ _ _ _ hfg hgh⟩

theorem fieldLe_antisymm {f g : Field} (hfg : fieldLe f g) (hgf : fieldLe g f) : f = g :=
  toLex.injective (le_antisymm hfg hgf)

theorem insertionSort_eq_iff {fs gs : List Field} :
    fs.insertionSort fieldLe = gs.insertionSort fieldLe ↔ fs.Perm gs := by
  constructor
  · intro h
    have hfs := List.perm_insertionSort fieldLe fs
    rw [h] at hfs
    exact hfs.symm.trans (List.perm_insertionSort fieldLe gs)
  · intro h
    have hperm : (fs.insertionSort fieldLe).Perm (gs.insertionSort fieldLe) :=
      (List.perm_insertionSort fieldLe fs).trans
        (h.trans (List.perm_insertionSort fieldLe gs).symm)
    exact hperm.eq_of_pairwise (fun _ _ _ _ => fieldLe_antisymm)
      (List.pairwise_insertionSort fieldLe fs) (List.pairwise_insertionSort fieldLe gs)

/-- A field that canonicalization drops. -/
def IsNoise (u : UnicodeTables) (f : Field) : Prop := isTracking u f = true ∨ f.2 = []

instance (u : UnicodeTables) : DecidablePred (IsNoise u) := fun _ =>
  inferInstanceAs (Decidable (_ ∨ _))

/-- The fields that stay, of those a query is decoded to. -/
def wantedFields (u : UnicodeTables) (query : Text) : List Field :=
  (parseQsl query).filter fun f => !isTracking u f

theorem cleanedQuery_eq (query : Text) :
    cleanedQuery u query = (wantedFields u query).insertionSort fieldLe := rfl

theorem mem_cleanedQuery {query : Text} {f : Field} (h : f ∈ cleanedQuery u query) :
    f.2 ≠ [] ∧ isTracking u f = false := by
  rw [cleanedQuery_eq, (List.perm_insertionSort fieldLe _).mem_iff, wantedFields,
    List.mem_filter] at h
  exact ⟨value_ne_nil h.1, by simpa using h.2⟩

/-- What was encoded is decoded to the fields that are no noise. -/
theorem wantedFields_urlencode (fields : List Field) :
    wantedFields u (urlencode fields) = fields.filter fun f => !decide (IsNoise u f) := by
  rw [wantedFields, parseQsl_urlencode, List.filter_filter]
  refine List.filter_congr fun f _ => ?_
  cases hv : f.2 <;> cases ht : isTracking u f <;> simp [IsNoise, hv, ht]

theorem cleanedQuery_urlencode_cleaned (query : Text) :
    cleanedQuery u (urlencode (cleanedQuery u query)) = cleanedQuery u query := by
  have hwanted : wantedFields u (urlencode (cleanedQuery u query)) = cleanedQuery u query := by
    rw [wantedFields_urlencode, List.filter_eq_self]
    intro f hf
    obtain ⟨hvalue, htracking⟩ := mem_cleanedQuery hf
    simp [IsNoise, hvalue, htracking]
  rw [cleanedQuery_eq, hwanted]
  exact (List.pairwise_insertionSort fieldLe _).insertionSort_eq

/-- Queries are encoded alike when they keep the same fields. -/
theorem urlencode_cleanedQuery_inj {query query' : Text} :
    urlencode (cleanedQuery u query) = urlencode (cleanedQuery u query') ↔
      (wantedFields u query).Perm (wantedFields u query') := by
  rw [← insertionSort_eq_iff, ← cleanedQuery_eq, ← cleanedQuery_eq]
  constructor
  · intro h
    rw [← cleanedQuery_urlencode_cleaned query, h, cleanedQuery_urlencode_cleaned]
  · intro h
    rw [h]

/-- An encoded query has nothing that ends or shortens it. -/
theorem mem_urlencode_plain {fields : List Field} {c : Char} (h : c ∈ urlencode fields) :
    c ≠ '#' ∧ isUnsafe c = false := by
  rcases mem_urlencode h with h | rfl | rfl | rfl | rfl
  · exact CharTables.forall_ascii (p := fun c => Percent.isAlwaysSafe c = true →
      c ≠ '#' ∧ isUnsafe c = false) (by decide) (Percent.isAsciiChar_of_isAlwaysSafe h) h
  · decide
  · decide
  · decide
  · decide

/-! ### Paths -/

/-- Path and parameters, as `urlparse` tells them apart. -/
def pathParams (scheme path : Text) : Text × Text :=
  if usesParams.contains scheme && path.contains ';' then splitparams path else (path, [])

theorem urlparse_eq_ok {url : Text} {parsed : ParseResult} :
    urlparse u url [] = .ok parsed ↔ ∃ s, urlsplit u url = .ok s ∧
      parsed = ⟨s.scheme, s.netloc, (pathParams s.scheme s.path).1,
        (pathParams s.scheme s.path).2, s.query, s.fragment⟩ := by
  rw [urlparse, urlsplit]
  cases urlsplitWith u url [] with
  | error m => simp [bind, Except.bind]
  | ok s =>
    simp only [bind, Except.bind, pure, Except.pure, Except.ok.injEq, exists_eq_left', pathParams]
    exact eq_comm

/-- The parameters of a path without slashes, and those of the last segment. -/
theorem splitparams_cases (path : Text) :
    '/' ∉ path ∧ splitparams path = ((partition ';' path).1, (partition ';' path).2.2) ∨
      ∃ before last, path = before ++ '/' :: last ∧ '/' ∉ last ∧
        (';' ∉ last ∧ splitparams path = (path, []) ∨
          ∃ seg params, last = seg ++ ';' :: params ∧ ';' ∉ seg ∧
            splitparams path = (before ++ '/' :: seg, params)) := by
  rcases rpartition_cases '/' path with ⟨hno, heq⟩ | ⟨before, last, rfl, hlast, heq⟩
  · exact .inl ⟨hno, by simp only [splitparams, heq]⟩
  · refine .inr ⟨before, last, rfl, hlast, ?_⟩
    rcases partition_cases ';' last with ⟨hno, heq'⟩ | ⟨seg, params, rfl, hseg, heq'⟩
    · exact .inl ⟨hno, by simp only [splitparams, heq, heq']⟩
    · exact .inr ⟨seg, params, rfl, hseg, by simp only [splitparams, heq, heq']⟩

theorem mem_splitparams {path : Text} {c : Char} (h : c ∈ (splitparams path).1) : c ∈ path := by
  rcases splitparams_cases path with
    ⟨-, heq⟩ | ⟨before, last, rfl, -, ⟨-, heq⟩ | ⟨seg, params, rfl, -, heq⟩⟩
  · rw [heq] at h
    exact (mem_of_mem_partition_fst h).1
  · rw [heq] at h
    exact h
  · rw [heq] at h
    simp only [List.mem_append, List.mem_cons] at h ⊢
    exact h.imp_right fun h => h.imp_right .inl

theorem head?_splitparams {path : Text} (h : path.head? = some '/') :
    (splitparams path).1.head? = some '/' := by
  rcases splitparams_cases path with
    ⟨hno, -⟩ | ⟨before, last, rfl, -, ⟨-, heq⟩ | ⟨seg, params, rfl, -, heq⟩⟩
  · exact absurd (List.mem_of_mem_head? h) hno
  · rw [heq]
    exact h
  · rw [heq]
    cases before with
    | nil => rfl
    | cons c before => exact h

/-- Without parameters the last segment stays as it is. -/
theorem splitparams_splitparams (path : Text) :
    splitparams (splitparams path).1 = ((splitparams path).1, []) := by
  rcases splitparams_cases path with
    ⟨hno, heq⟩ | ⟨before, last, rfl, hlast, ⟨-, heq⟩ | ⟨seg, params, rfl, hseg, heq⟩⟩
  · have hslash : '/' ∉ (partition ';' path).1 := fun h => hno (mem_of_mem_partition_fst h).1
    have hsemi : ';' ∉ (partition ';' path).1 := fun h => (mem_of_mem_partition_fst h).2 rfl
    rw [heq, splitparams]
    simp only [rpartition_of_notMem hslash, partition_of_notMem hsemi]
  · rw [heq]
    exact heq
  · have hslash : '/' ∉ seg := fun h => hlast (List.mem_append_left _ h)
    rw [heq, splitparams]
    simp only [rpartition_append hslash, partition_of_notMem hseg]

theorem pathParams_pathParams (scheme path : Text) :
    pathParams scheme (pathParams scheme path).1 = ((pathParams scheme path).1, []) := by
  rw [pathParams.eq_def scheme path]
  split
  · rw [pathParams]
    split
    · exact splitparams_splitparams path
    · rfl
  · rename_i h
    rw [pathParams, if_neg h]

theorem mem_pathParams {scheme path : Text} {c : Char} (h : c ∈ (pathParams scheme path).1) :
    c ∈ path := by
  rw [pathParams] at h
  split at h
  · exact mem_splitparams h
  · exact h

theorem orRoot_ne_nil (path : Text) : orRoot path ≠ [] := by
  rw [orRoot]
  split
  · exact List.cons_ne_nil _ _
  · rename_i h
    exact fun hnil => h (List.isEmpty_iff.mpr hnil)

theorem mem_orRoot {path : Text} {c : Char} (h : c ∈ orRoot path) : c ∈ path ∨ c = '/' := by
  rw [orRoot] at h
  split at h
  · exact .inr (List.mem_singleton.mp h)
  · exact .inl h

theorem orRoot_orRoot (path : Text) : orRoot (orRoot path) = orRoot path := by
  rw [orRoot, if_neg (fun h => orRoot_ne_nil path (List.isEmpty_iff.mp h))]

/-- A path without parameters has none behind the root either. -/
theorem pathParams_orRoot {scheme path : Text} (h : pathParams scheme path = (path, [])) :
    pathParams scheme (orRoot path) = (orRoot path, []) := by
  rw [orRoot]
  split
  · rw [pathParams, show (['/'] : Text).contains ';' = false by decide, Bool.and_false]
    rfl
  · exact h

/-! ### Links -/

/-- The host of a parsed link, in lower case. -/
def linkHost (u : UnicodeTables) (parsed : ParseResult) : Text :=
  lower u (((netlocParts parsed).hostname u).getD [])

/-- What `check_link` makes sure of. -/
structure IsLink (u : UnicodeTables) (link : Text) (parsed : ParseResult) (port : Option ℕ) :
    Prop where
  parse : urlparse u link [] = .ok parsed
  scheme : parsed.scheme = "http".toList ∨ parsed.scheme = "https".toList
  host : (netlocParts parsed).hostinfo.1 ≠ []
  port : (netlocParts parsed).port u = .ok port

theorem checkLink_eq_ok {url link : Text} (h : checkLink u url = .ok link) :
    ∃ parsed port, IsLink u link parsed port := by
  rw [checkLink] at h
  cases hparse : urlparse u (strip isSpace (noNul (some url))) [] with
  | error m =>
    simp only [hparse] at h
    cases h
  | ok parsed =>
    simp only [hparse] at h
    split at h
    · cases h
    · rename_i hgood
      rw [not_or, not_and_or, not_not, not_not] at hgood
      cases hport : (netlocParts parsed).port u with
      | error m =>
        simp only [hport] at h
        cases h
      | ok port =>
        simp only [hport] at h
        split at h
        · cases h
        · cases h
          obtain ⟨s, hs, rfl⟩ := urlparse_eq_ok.mp hparse
          refine ⟨_, port, hparse, ?_, ?_, hport⟩
          · rw [lower_scheme hs] at hgood
            exact hgood.1
          · intro hnil
            refine hgood.2 ?_
            rw [hostname_getD, hnil]
            rfl

/-- The host and what may stand behind it. -/
theorem mem_withPort {host : Text} {port : Option ℕ} {c : Char} (h : c ∈ withPort host port) :
    c ∈ host ∨ c = ':' ∨ isAsciiChar c = true ∧ c.isDigit = true := by
  cases port with
  | none => exact .inl h
  | some n =>
    rw [withPort, List.mem_append, List.mem_cons] at h
    exact h.imp_right fun h => h.imp_right mem_natStr_ascii

theorem linkHost_eq (hu : UnicodeRules u k) (parsed : ParseResult) :
    linkHost u parsed = k.lower (lowerHost u (netlocParts parsed).hostinfo.1) := by
  rw [linkHost, hostname_getD, hu.lower_eq]

theorem mem_linkHost (hu : UnicodeRules u k) {parsed : ParseResult} {c : Char}
    (hc : isAsciiChar c = true) (hletter : c.isAlpha = false) :
    c ∈ linkHost u parsed ↔ c ∈ (netlocParts parsed).hostinfo.1 := by
  rw [linkHost_eq hu, CharTables.mem_lower_iff hc hletter, mem_lowerHost_iff hu hc hletter]

theorem fixed_of_mem_linkHost (hu : UnicodeRules u k) {parsed : ParseResult} {c : Char}
    (hc : c ∈ linkHost u parsed) : k.Fixed c := by
  rw [linkHost_eq hu] at hc
  exact CharTables.fixed_of_mem_lower hc

/-- Nothing in the authority is a delimiter, nor removed from a URL. -/
theorem withPort_chars (hu : UnicodeRules u k) {url : Text} {parsed : ParseResult}
    (hparse : urlparse u url [] = .ok parsed) {port : Option ℕ} {c : Char}
    (hc : c ∈ withPort (linkHost u parsed) port) :
    isDelim c = false ∧ isUnsafe c = false ∧ c ≠ '@' := by
  obtain ⟨s, hs, rfl⟩ := urlparse_eq_ok.mp hparse
  have hwf := urlsplit_wellFormed hs
  rcases mem_withPort hc with hc | rfl | ⟨hascii, hdigit⟩
  · -- a delimiter would have been one in the link
    by_cases hbad : isDelim c = true ∨ isUnsafe c = true ∨ c = '@'
    · exfalso
      have hplain : isAsciiChar c = true ∧ c.isAlpha = false := by
        simp only [isDelim, isUnsafe, Bool.or_eq_true, beq_iff_eq] at hbad
        rcases hbad with ((rfl | rfl) | rfl) | ((rfl | rfl) | rfl) | rfl <;> decide
      rw [mem_linkHost hu hplain.1 hplain.2] at hc
      obtain ⟨hmem, hat⟩ := mem_hostinfo hc
      rcases hbad with h | h | h
      · rw [hwf.netloc c hmem] at h
        exact Bool.false_ne_true h
      · rw [hwf.safe c (by simp [show c ∈ s.netloc from hmem])] at h
        exact Bool.false_ne_true h
      · exact hat h
    · rw [not_or, not_or, Bool.not_eq_true, Bool.not_eq_true] at hbad
      exact hbad
  · decide
  · exact CharTables.forall_ascii (p := fun c => c.isDigit = true →
      isDelim c = false ∧ isUnsafe c = false ∧ c ≠ '@') (by decide) hascii hdigit

/-- The canonical URL is put together from these parts. -/
def canonicalParts (u : UnicodeTables) (parsed : ParseResult) (port : Option ℕ) : SplitResult :=
  ⟨parsed.scheme, withPort (linkHost u parsed) (keptPort parsed.scheme port), orRoot parsed.path,
    urlencode (cleanedQuery u parsed.query), []⟩

/-- The text of some parts. -/
def buildParts (p : SplitResult) : Text := build p.scheme p.netloc p.path p.query

/-- With a scheme of the web and a rooted path nothing is added between the parts. -/
theorem urlunparse_eq_build {scheme netloc path query : Text}
    (hscheme : scheme = "http".toList ∨ scheme = "https".toList)
    (hroot : path.head? = some '/') :
    urlunparse ⟨scheme, netloc, path, [], query, []⟩ = build scheme netloc path query := by
  have hne : scheme.isEmpty = false := by
    rcases hscheme with rfl | rfl <;> decide
  have hnetloc : scheme ∈ usesNetloc := by
    rcases hscheme with rfl | rfl <;> decide
  have hfirst : (if !netloc.isEmpty then
        ['/', '/'] ++ netloc ++
          (if !path.isEmpty && path.head? ≠ some '/' then '/' :: path else path)
      else if path.take 2 = ['/', '/'] then ['/', '/'] ++ path
      else if !scheme.isEmpty && usesNetloc.contains scheme &&
          (path.isEmpty || path.head? = some '/') then
        ['/', '/'] ++ path
      else path) = '/' :: '/' :: (netloc ++ path) := by
    cases netloc with
    | nil => simp [hroot, hne, hnetloc]
    | cons c netloc => simp [hroot]
  rw [urlunparse, urlunsplit, build]
  simp only [List.isEmpty_nil, if_true]
  rw [hfirst]
  simp only [hne, Bool.false_eq_true, if_false]
  cases query with
  | nil => simp
  | cons c query => simp

namespace IsLink

variable {link : Text} {parsed : ParseResult} {port : Option ℕ}

theorem isScheme (h : IsLink u link parsed port) : IsScheme parsed.scheme := by
  rcases h.scheme with h | h
  · rw [h]
    exact ⟨rfl, List.all_eq_true.mp rfl, rfl⟩
  · rw [h]
    exact ⟨rfl, List.all_eq_true.mp rfl, rfl⟩

theorem lower_scheme_eq (h : IsLink u link parsed port) :
    lower u parsed.scheme = parsed.scheme := by
  obtain ⟨s, hs, rfl⟩ := urlparse_eq_ok.mp h.parse
  exact lower_scheme hs

/-- The parts of a link are those of a split that is well formed. -/
theorem split (h : IsLink u link parsed port) :
    ∃ s : SplitResult, s.WellFormed ∧ checknetloc u s.netloc = .ok () ∧ s.netloc ≠ [] ∧
      parsed = ⟨s.scheme, s.netloc, (pathParams s.scheme s.path).1,
        (pathParams s.scheme s.path).2, s.query, s.fragment⟩ := by
  obtain ⟨s, hs, rfl⟩ := urlparse_eq_ok.mp h.parse
  refine ⟨s, urlsplit_wellFormed hs, (urlsplit_checks hs).2, ?_, rfl⟩
  intro hnil
  refine h.host ?_
  have hnet : (netlocParts ⟨s.scheme, s.netloc, (pathParams s.scheme s.path).1,
      (pathParams s.scheme s.path).2, s.query, s.fragment⟩).netloc = [] := hnil
  rw [SplitResult.hostinfo, hnet]
  rfl

theorem linkHost_ne_nil (hu : UnicodeRules u k) (h : IsLink u link parsed port) :
    linkHost u parsed ≠ [] := by
  rw [linkHost_eq hu]
  intro hnil
  exact h.host ((lowerHost_eq_nil hu).mp (CharTables.lower_eq_nil.mp hnil))

theorem netloc_chars (hu : UnicodeRules u k) (h : IsLink u link parsed port) {c : Char}
    (hc : c ∈ withPort (linkHost u parsed) (keptPort parsed.scheme port)) :
    isDelim c = false ∧ isUnsafe c = false ∧ c ≠ '@' := withPort_chars hu h.parse hc

/-- The NFKC check is passed once more. -/
theorem checknetloc_canonical (hu : UnicodeRules u k) (h : IsLink u link parsed port) :
    checknetloc u (canonicalParts u parsed port).netloc = .ok () := by
  have hslash : '/' ∉ (canonicalParts u parsed port).netloc := fun hmem =>
    absurd (h.netloc_chars hu hmem).1 (by decide)
  rw [checknetloc_iff hu hslash]
  intro c hc hhides
  rcases mem_withPort hc with hc | rfl | ⟨hascii, -⟩
  · obtain ⟨s, hwf, hcheck, -, rfl⟩ := h.split
    have hs : '/' ∉ s.netloc := fun hmem => absurd (hwf.netloc _ hmem) (by decide)
    rw [linkHost_eq hu] at hc
    obtain ⟨c₁, hc₁, hhides₁, hascii₁⟩ := CharTables.hides_of_mem_lower hc hhides
    obtain ⟨c₂, hc₂, hhides₂, hascii₂⟩ := hides_of_mem_lowerHost hu hc₁ hhides₁
    exact hascii₁ (hascii₂ ((checknetloc_iff hu hs).mp hcheck c₂ (mem_hostinfo hc₂).1 hhides₂))
  · decide
  · exact hascii

theorem head?_orRoot (h : IsLink u link parsed port) : (orRoot parsed.path).head? = some '/' := by
  obtain ⟨s, hwf, -, hne, rfl⟩ := h.split
  rw [orRoot]
  split
  · rfl
  · rename_i hpath
    dsimp only at hpath ⊢
    rw [pathParams] at hpath ⊢
    rcases hwf.rooted hne with hnil | hroot
    · rw [hnil] at hpath
      exact absurd (by simp) hpath
    · split
      · exact head?_splitparams hroot
      · exact hroot

theorem canonicalParts_wellFormed (hu : UnicodeRules u k) (h : IsLink u link parsed port) :
    (canonicalParts u parsed port).WellFormed := by
  have hpath : ∀ c ∈ orRoot parsed.path, (c ≠ '?' ∧ c ≠ '#') ∧ isUnsafe c = false := by
    obtain ⟨s, hwf, -, -, rfl⟩ := h.split
    intro c hc
    rcases mem_orRoot hc with hc | rfl
    · have hmem := mem_pathParams hc
      exact ⟨hwf.path c hmem, hwf.safe c (by simp [hmem])⟩
    · decide
  refine ⟨fun c hc => (h.netloc_chars hu hc).1, fun c hc => (hpath c hc).1,
    fun hc => (mem_urlencode_plain hc).1 rfl, fun _ => .inr h.head?_orRoot, ?_⟩
  intro c hc
  rw [List.mem_append, List.mem_append] at hc
  rcases hc with (hc | hc) | hc
  · exact (h.netloc_chars hu hc).2.1
  · exact (hpath c hc).2
  · exact (mem_urlencode_plain hc).2

/-- **The canonical URL of a link**, by its parts. -/
theorem canonicalizeUrl_eq (h : IsLink u link parsed port) :
    canonicalizeUrl u link = .ok (buildParts (canonicalParts u parsed port)) := by
  rw [canonicalizeUrl]
  simp only [h.parse, h.port, h.lower_scheme_eq, bind, Except.bind, pure, Except.pure]
  exact congrArg Except.ok (urlunparse_eq_build h.scheme h.head?_orRoot)

/-! ### Once more -/

/-- The canonical URL splits into its parts, unless its brackets do not match. -/
theorem urlparse_canonical (hu : UnicodeRules u k) (h : IsLink u link parsed port) :
    urlparse u (buildParts (canonicalParts u parsed port)) [] =
      (checkBrackets u (canonicalParts u parsed port).netloc).map fun _ =>
        ⟨parsed.scheme, (canonicalParts u parsed port).netloc, orRoot parsed.path, [],
          urlencode (cleanedQuery u parsed.query), []⟩ := by
  have hne : (canonicalParts u parsed port).netloc ≠ [] := by
    intro hnil
    refine h.linkHost_ne_nil hu ?_
    have hnet : withPort (linkHost u parsed) (keptPort parsed.scheme port) = [] := hnil
    cases hkept : keptPort parsed.scheme port with
    | none =>
      rw [hkept] at hnet
      exact hnet
    | some n =>
      rw [hkept, withPort, List.append_eq_nil_iff] at hnet
      exact hnet.1
  have hsplit : urlsplit u (buildParts (canonicalParts u parsed port)) = _ :=
    urlsplit_build_eq (u := u) (h.canonicalParts_wellFormed hu) h.isScheme hne rfl
  rw [h.checknetloc_canonical hu] at hsplit
  -- the path has no parameters any more
  have hparams : pathParams parsed.scheme (orRoot parsed.path) = (orRoot parsed.path, []) := by
    obtain ⟨s, -, -, -, rfl⟩ := h.split
    exact pathParams_orRoot (pathParams_pathParams s.scheme s.path)
  cases hb : checkBrackets u (canonicalParts u parsed port).netloc with
  | error m =>
    rw [hb] at hsplit
    rw [urlparse, ← urlsplit, hsplit]
    rfl
  | ok x =>
    rw [hb] at hsplit
    refine urlparse_eq_ok.mpr ⟨_, hsplit, ?_⟩
    show (_ : ParseResult) = ⟨parsed.scheme, _, (pathParams parsed.scheme (orRoot parsed.path)).1,
      (pathParams parsed.scheme (orRoot parsed.path)).2, _, _⟩
    rw [hparams]
    rfl

/-- The canonical URL is canonical when its authority is read back. -/
theorem canonicalizeUrl_canonical_iff (hu : UnicodeRules u k) (h : IsLink u link parsed port) :
    canonicalizeUrl u (buildParts (canonicalParts u parsed port)) =
        .ok (buildParts (canonicalParts u parsed port)) ↔
      checkBrackets u (canonicalParts u parsed port).netloc = .ok () ∧
        ∃ port', portOf u (canonicalParts u parsed port).hostinfo.2 = .ok port' ∧
          withPort (lower u (lowerHost u (canonicalParts u parsed port).hostinfo.1))
            (keptPort parsed.scheme port') = (canonicalParts u parsed port).netloc := by
  have hparse := h.urlparse_canonical hu
  cases hb : checkBrackets u (canonicalParts u parsed port).netloc with
  | error m =>
    rw [hb] at hparse
    refine iff_of_false ?_ (fun hc => absurd hc.1 (by simp))
    rw [canonicalizeUrl, hparse]
    simp [Except.map, bind, Except.bind]
  | ok x =>
    rw [hb] at hparse
    simp only [true_and]
    rw [canonicalizeUrl, hparse]
    simp only [Except.map, bind, Except.bind, pure, Except.pure]
    have hport : (netlocParts ⟨parsed.scheme, (canonicalParts u parsed port).netloc,
        orRoot parsed.path, [], urlencode (cleanedQuery u parsed.query), []⟩).port u =
        portOf u (canonicalParts u parsed port).hostinfo.2 := port_eq _ _
    have hhost : ((netlocParts ⟨parsed.scheme, (canonicalParts u parsed port).netloc,
        orRoot parsed.path, [], urlencode (cleanedQuery u parsed.query), []⟩).hostname u).getD [] =
        lowerHost u (canonicalParts u parsed port).hostinfo.1 := hostname_getD _ _
    rw [hport, hhost, orRoot_orRoot, cleanedQuery_urlencode_cleaned, h.lower_scheme_eq]
    cases hp : portOf u (canonicalParts u parsed port).hostinfo.2 with
    | error m => simp
    | ok port' =>
      simp only [Except.ok.injEq, exists_eq_left']
      rw [urlunparse_eq_build h.scheme h.head?_orRoot, buildParts, build, build]
      simp only [canonicalParts, List.append_cancel_left_eq, List.cons.injEq, true_and]
      exact List.append_left_inj _

end IsLink

/-! ### Idempotence -/

theorem keptPort_eq_some {scheme : Text} {port : Option ℕ} {n : ℕ}
    (h : keptPort scheme port = some n) : port = some n ∧ keptPort scheme (some n) = some n := by
  cases port with
  | none => exact absurd h (by simp [keptPort])
  | some m =>
    have hmn : m = n := by
      rw [keptPort] at h
      split at h
      · cases h
      · exact Option.some.inj h
    subst hmn
    exact ⟨rfl, h⟩

/-- A host that is found again where it was written: it has no brackets, and no
colon except, behind a name, that of a port which stays and was not there. -/
structure ReadsBack (scheme host : Text) (kept : Option ℕ) : Prop where
  noOpen : '[' ∉ host
  noClose : ']' ∉ host
  colon : ':' ∈ host → kept = none ∧ ∃ name n, host = name ++ ':' :: natStr n ∧ ':' ∉ name ∧
    n ≤ 65535 ∧ keptPort scheme (some n) = some n

theorem colon_notMem_natStr (n : ℕ) : ':' ∉ natStr n := fun h =>
  absurd (mem_natStr_ascii h).2 (by decide)

theorem portText_natStr (n : ℕ) : portText (natStr n) = some (natStr n) := by
  rw [portText, if_neg]
  rw [List.isEmpty_iff]
  exact Nat.toDigits_ne_nil

/-- Where the host of `host:port` ends. -/
theorem partition_withPort {host : Text} (hcolon : ':' ∉ host) (kept : Option ℕ) :
    (partition ':' (withPort host kept)).1 = host ∧
      portText (partition ':' (withPort host kept)).2.2 = kept.map natStr := by
  cases kept with
  | none =>
    rw [withPort, partition_of_notMem hcolon]
    exact ⟨rfl, rfl⟩
  | some n =>
    rw [withPort, partition_append hcolon]
    exact ⟨rfl, portText_natStr n⟩

/-- `host:port` behind a host with a colon. -/
theorem partition_withPort_colon {name rest : Text} (hname : ':' ∉ name) (kept : Option ℕ) :
    partition ':' (withPort (name ++ ':' :: rest) kept) = (name, true, withPort rest kept) := by
  cases kept with
  | none => exact partition_append hname rest
  | some n =>
    rw [withPort, List.append_assoc, List.cons_append]
    exact partition_append hname _

theorem withPort_eq_append {name rest : Text} {kept : Option ℕ} :
    withPort name kept = name ++ ':' :: rest ↔ ∃ n, kept = some n ∧ natStr n = rest := by
  cases kept with
  | none =>
    refine iff_of_false (fun h => ?_) (by simp)
    have hlen := congrArg List.length h
    rw [withPort, List.length_append, List.length_cons] at hlen
    omega
  | some n => simp [withPort]

/-- A port brings no brackets. -/
theorem mem_withPort_bracket {host : Text} {kept : Option ℕ} {c : Char} (hc : c = '[' ∨ c = ']') :
    c ∈ withPort host kept ↔ c ∈ host := by
  constructor
  · intro hmem
    rcases mem_withPort hmem with hmem | rfl | ⟨-, hdigit⟩
    · exact hmem
    · exact absurd hc (by decide)
    · rcases hc with rfl | rfl
      · exact absurd hdigit (by decide)
      · exact absurd hdigit (by decide)
  · intro hmem
    cases kept with
    | none => exact hmem
    | some n => exact List.mem_append_left _ hmem

/-- What is in lower case already is read as it is. -/
theorem lower_of_mem_linkHost (hu : UnicodeRules u k) {parsed : ParseResult} {name : Text}
    (hname : ∀ c ∈ name, c ∈ linkHost u parsed) : lower u (lowerHost u name) = name := by
  have hfixed : ∀ c ∈ name, k.Fixed c := fun c hc => fixed_of_mem_linkHost hu (hname c hc)
  rw [lowerHost_of_fixed hu hfixed, hu.lower_eq, CharTables.lower_of_fixed hfixed]

theorem IsLink.keptPort_le {link : Text} {parsed : ParseResult} {port : Option ℕ}
    (h : IsLink u link parsed port) {n : ℕ} (hn : keptPort parsed.scheme port = some n) :
    n ≤ 65535 := by
  have hport := h.port
  rw [port_eq, (keptPort_eq_some hn).1] at hport
  exact portOf_le hport

/-- Behind the first colon of the host a port is read, and has to be written again. -/
theorem readsBack_of_colon {scheme name rest : Text} {kept : Option ℕ} (hname : ':' ∉ name)
    (hopen : '[' ∉ name ++ ':' :: rest) (hclose : ']' ∉ name ++ ':' :: rest) :
    (∃ port', portOf u (portText (withPort rest kept)) = .ok port' ∧
        withPort name (keptPort scheme port') = name ++ ':' :: withPort rest kept) ↔
      ReadsBack scheme (name ++ ':' :: rest) kept := by
  constructor
  · rintro ⟨port', hport', heq⟩
    obtain ⟨n, hn, hrest⟩ := withPort_eq_append.mp heq
    obtain ⟨rfl, hstays⟩ := keptPort_eq_some hn
    have hnone : kept = none := by
      cases hk : kept with
      | none => rfl
      | some m =>
        rw [hk, withPort] at hrest
        exact absurd (hrest ▸ List.mem_append_right rest List.mem_cons_self)
          (colon_notMem_natStr n)
    rw [hnone] at hrest
    refine ⟨hopen, hclose, fun _ => ⟨hnone, name, n, ?_, hname, portOf_le hport', hstays⟩⟩
    rw [hrest]
    rfl
  · rintro ⟨-, -, hread⟩
    obtain ⟨hnone, name', n, heq, hname', hn, hstays⟩ :=
      hread (List.mem_append_right _ List.mem_cons_self)
    have hparts := congrArg (partition ':') heq
    rw [partition_append hname, partition_append hname'] at hparts
    simp only [Prod.mk.injEq, true_and] at hparts
    obtain ⟨rfl, rfl⟩ := hparts
    refine ⟨some n, ?_, withPort_eq_append.mpr ⟨n, hstays, ?_⟩⟩
    · rw [hnone]
      exact portOf_natStr hn
    · rw [hnone]
      rfl

/-- **When the canonical URL of a link is canonical.** -/
theorem IsLink.canonical_iff (hu : UnicodeRules u k) {link : Text} {parsed : ParseResult}
    {port : Option ℕ} (h : IsLink u link parsed port) :
    canonicalizeUrl u (buildParts (canonicalParts u parsed port)) =
        .ok (buildParts (canonicalParts u parsed port)) ↔
      ReadsBack parsed.scheme (linkHost u parsed) (keptPort parsed.scheme port) := by
  rw [h.canonicalizeUrl_canonical_iff hu]
  set host := linkHost u parsed with hhost
  set kept := keptPort parsed.scheme port with hkept
  have hnet : (canonicalParts u parsed port).netloc = withPort host kept := rfl
  -- at most one of the two brackets comes from the link
  have hnotboth : ¬ ('[' ∈ host ∧ ']' ∈ host) := by
    rw [hhost, mem_linkHost hu (by decide) (by decide),
      mem_linkHost hu (by decide) (by decide)]
    exact hostinfo_not_both
  by_cases hbrackets : '[' ∈ host ∨ ']' ∈ host
  · refine iff_of_false ?_ ?_
    · rintro ⟨hcheck, -⟩
      rw [hnet, checkBrackets_one ?_] at hcheck
      · exact absurd hcheck (by simp)
      · rw [mem_withPort_bracket (.inl rfl), mem_withPort_bracket (.inr rfl)]
        rcases hbrackets with hb | hb
        · exact fun hiff => hnotboth ⟨hb, hiff.mp hb⟩
        · exact fun hiff => hnotboth ⟨hiff.mpr hb, hb⟩
    · rintro ⟨hopen, hclose, -⟩
      exact hbrackets.elim hopen hclose
  rw [not_or] at hbrackets
  obtain ⟨hopen, hclose⟩ := hbrackets
  have hopen' : '[' ∉ (canonicalParts u parsed port).netloc := by
    rw [hnet, mem_withPort_bracket (.inl rfl)]
    exact hopen
  have hclose' : ']' ∉ (canonicalParts u parsed port).netloc := by
    rw [hnet, mem_withPort_bracket (.inr rfl)]
    exact hclose
  have hat : '@' ∉ (canonicalParts u parsed port).netloc :=
    fun hc => (h.netloc_chars hu hc).2.2 rfl
  rw [checkBrackets_none hopen' hclose', hostinfo_plain hat hopen', hnet]
  simp only [true_and]
  by_cases hcolon : ':' ∈ host
  · obtain ⟨name, rest, hsplit, hname⟩ := List.eq_append_cons_of_mem hcolon
    have hnames : ∀ c ∈ name, c ∈ host := fun c hc => by
      rw [hsplit]
      exact List.mem_append_left _ hc
    have hcut : partition ':' (withPort host kept) = (name, true, withPort rest kept) := by
      rw [hsplit]
      exact partition_withPort_colon hname kept
    have htext : withPort host kept = name ++ ':' :: withPort rest kept := by
      rw [hsplit]
      cases kept with
      | none => rfl
      | some n => simp [withPort]
    rw [hcut, htext]
    simp only [lower_of_mem_linkHost hu hnames]
    rw [hsplit] at hopen hclose ⊢
    exact readsBack_of_colon hname hopen hclose
  · obtain ⟨hfst, hsnd⟩ := partition_withPort hcolon kept
    rw [hfst, hsnd]
    refine iff_of_true ?_ ⟨hopen, hclose, fun hc => absurd hc hcolon⟩
    have hsame : lower u (lowerHost u host) = host := lower_of_mem_linkHost hu fun c hc => hc
    simp only [hsame]
    cases hk : kept with
    | none => exact ⟨none, rfl, rfl⟩
    | some n =>
      have hn : keptPort parsed.scheme port = some n := hkept.symm.trans hk
      refine ⟨some n, ?_, ?_⟩
      · have := portOf_natStr (u := u) (h.keptPort_le hn)
        rwa [portText_natStr] at this
      · rw [(keptPort_eq_some hn).2]

/-- **Idempotence.**  The canonical URL of a link that `check_link` returns is
canonical exactly if its host reads back where it is written, without the brackets
it may have had. -/
theorem canonicalizeUrl_idempotent_iff (hu : UnicodeRules u k) {url link : Text}
    (h : checkLink u url = .ok link) :
    ∃ parsed port, urlparse u link [] = .ok parsed ∧ (netlocParts parsed).port u = .ok port ∧
      ((∃ v, canonicalizeUrl u link = .ok v ∧ canonicalizeUrl u v = .ok v) ↔
        ReadsBack parsed.scheme (linkHost u parsed) (keptPort parsed.scheme port)) := by
  obtain ⟨parsed, port, hlink⟩ := checkLink_eq_ok h
  refine ⟨parsed, port, hlink.parse, hlink.port, ?_⟩
  rw [← hlink.canonical_iff hu, hlink.canonicalizeUrl_eq]
  constructor
  · rintro ⟨v, hv, hvv⟩
    obtain rfl := Except.ok.inj hv
    exact hvv
  · exact fun hvv => ⟨_, rfl, hvv⟩

/-- A link with a user part, a port and parameters. -/
def plainLink : Text := "https://u@News.example:8443/a;b/c;d?q=1&utm_id=2#top".toList

theorem canonicalizeUrl_idempotent_plain :
    ∃ parsed port, urlparse basicUnicode plainLink [] = .ok parsed ∧
      (netlocParts parsed).port basicUnicode = .ok port ∧
      ((∃ v, canonicalizeUrl basicUnicode plainLink = .ok v ∧
          canonicalizeUrl basicUnicode v = .ok v) ↔
        ReadsBack parsed.scheme (linkHost basicUnicode parsed)
          (keptPort parsed.scheme port)) :=
  canonicalizeUrl_idempotent_iff basicUnicode_rules
    (show checkLink basicUnicode plainLink = .ok plainLink by decide +kernel)

/-- A link to an IPv6 address. -/
def ipv6Link : Text := "https://[2001:db8::1]/a".toList

/-- The canonical URL of `ipv6Link` cannot be read: what stands behind the first
colon is no port. -/
theorem canonicalizeUrl_ipv6 :
    checkLink basicUnicode ipv6Link = .ok ipv6Link ∧
      canonicalizeUrl basicUnicode ipv6Link = .ok "https://2001:db8::1/a".toList ∧
      ¬ ∃ v, canonicalizeUrl basicUnicode ipv6Link = .ok v ∧
        canonicalizeUrl basicUnicode v = .ok v := by
  refine ⟨by decide +kernel, by decide +kernel, ?_⟩
  rintro ⟨v, hv, hvv⟩
  have hcanonical : canonicalizeUrl basicUnicode ipv6Link =
      .ok "https://2001:db8::1/a".toList := by decide +kernel
  obtain rfl := Except.ok.inj (hcanonical.symm.trans hv)
  revert hvv
  decide +kernel

/-! ### Links with one canonical URL -/

/-- The port a link goes to. -/
def effectivePort (scheme : Text) (port : Option ℕ) : ℕ :=
  port.getD (if scheme = "http".toList then 80 else 443)

/-- Two links that are meant to share a canonical URL: scheme, host and port are
the same, the path is but for its parameters, and so are the fields that stay. -/
structure SameArticle (u : UnicodeTables) (p₁ : ParseResult) (port₁ : Option ℕ)
    (p₂ : ParseResult) (port₂ : Option ℕ) : Prop where
  scheme : p₁.scheme = p₂.scheme
  host : linkHost u p₁ = linkHost u p₂
  port : effectivePort p₁.scheme port₁ = effectivePort p₂.scheme port₂
  path : orRoot p₁.path = orRoot p₂.path
  fields : (wantedFields u p₁.query : Multiset Field) = wantedFields u p₂.query

/-- One of the ports is zero, the other one is left out. -/
def ZeroPort (port₁ port₂ : Option ℕ) : Prop := ¬ (port₁ = some 0 ↔ port₂ = some 0)

/-- Two authorities that are written alike and mean different things. -/
inductive SameText (scheme : Text) (host₁ : Text) (port₁ : Option ℕ) (host₂ : Text)
    (port₂ : Option ℕ) : Prop
  | zero (hhost : host₁ = host₂) (h₁ : keptPort scheme port₁ = none)
    (h₂ : keptPort scheme port₂ = none) (hzero : ZeroPort port₁ port₂)
  | left {n : ℕ} (h₁ : keptPort scheme port₁ = some n) (h₂ : keptPort scheme port₂ = none)
    (hhost : host₂ = host₁ ++ ':' :: natStr n)
  | right {n : ℕ} (h₁ : keptPort scheme port₁ = none) (h₂ : keptPort scheme port₂ = some n)
    (hhost : host₁ = host₂ ++ ':' :: natStr n)

/-- Two links that only differ in authorities that are written alike. -/
structure Confusable (u : UnicodeTables) (p₁ : ParseResult) (port₁ : Option ℕ)
    (p₂ : ParseResult) (port₂ : Option ℕ) : Prop where
  scheme : p₁.scheme = p₂.scheme
  path : orRoot p₁.path = orRoot p₂.path
  fields : (wantedFields u p₁.query : Multiset Field) = wantedFields u p₂.query
  authority : SameText p₁.scheme (linkHost u p₁) port₁ (linkHost u p₂) port₂

theorem natStr_inj {m n : ℕ} (h : natStr m = natStr n) : m = n := by
  rw [← SafeHttp.decValue_natStr m, h, SafeHttp.decValue_natStr]

/-- The port behind the last colon is the one that was written. -/
theorem append_natStr_inj {a b : Text} {m n : ℕ} (h : a ++ ':' :: natStr m = b ++ ':' :: natStr n) :
    a = b ∧ m = n := by
  have hcut := congrArg (rpartition ':') h
  rw [rpartition_append (colon_notMem_natStr m), rpartition_append (colon_notMem_natStr n)] at hcut
  simp only [Prod.mk.injEq, true_and] at hcut
  exact ⟨hcut.1, natStr_inj hcut.2⟩

/-- The port is left out where it is the default of the scheme, or zero. -/
theorem keptPort_eq_none {scheme : Text} {port : Option ℕ}
    (hscheme : scheme = "http".toList ∨ scheme = "https".toList)
    (h : keptPort scheme port = none) :
    effectivePort scheme port = if port = some 0 then 0 else effectivePort scheme none := by
  cases port with
  | none => rfl
  | some n =>
    rw [keptPort] at h
    split at h
    · rename_i hdropped
      rcases hdropped with rfl | ⟨rfl, rfl⟩ | ⟨rfl, rfl⟩
      · rfl
      · rfl
      · rfl
    · cases h

theorem effectivePort_none_ne_zero (scheme : Text) : effectivePort scheme none ≠ 0 := by
  rw [effectivePort, Option.getD_none]
  split <;> decide

/-- A port that stays is neither zero nor the default. -/
theorem effectivePort_ne {scheme : Text} {port₁ port₂ : Option ℕ} {n : ℕ}
    (hscheme : scheme = "http".toList ∨ scheme = "https".toList)
    (h₁ : keptPort scheme port₁ = none) (h₂ : keptPort scheme port₂ = some n) :
    effectivePort scheme port₁ ≠ effectivePort scheme port₂ := by
  intro hport
  obtain ⟨rfl, -⟩ := keptPort_eq_some h₂
  have hstays : keptPort scheme (some n) ≠ none := by
    rw [h₂]
    simp
  refine hstays ?_
  rw [keptPort_eq_none hscheme h₁] at hport
  rw [keptPort, if_pos]
  by_cases hz : port₁ = some 0
  · rw [if_pos hz] at hport
    exact .inl hport.symm
  · rw [if_neg hz] at hport
    rcases hscheme with rfl | rfl
    · exact .inr (.inl ⟨rfl, hport.symm⟩)
    · exact .inr (.inr ⟨rfl, hport.symm⟩)

/-- Two ports that are left out are the same unless just one of them is zero. -/
theorem effectivePort_eq_iff {scheme : Text} {port₁ port₂ : Option ℕ}
    (hscheme : scheme = "http".toList ∨ scheme = "https".toList)
    (h₁ : keptPort scheme port₁ = none) (h₂ : keptPort scheme port₂ = none) :
    effectivePort scheme port₁ = effectivePort scheme port₂ ↔ ¬ ZeroPort port₁ port₂ := by
  have hne := effectivePort_none_ne_zero scheme
  rw [keptPort_eq_none hscheme h₁, keptPort_eq_none hscheme h₂, ZeroPort, not_not]
  by_cases hz₁ : port₁ = some 0 <;> by_cases hz₂ : port₂ = some 0 <;> simp [hz₁, hz₂, hne, hne.symm]

/-- **When two authorities are written alike.** -/
theorem withPort_eq_iff {scheme host₁ host₂ : Text} {port₁ port₂ : Option ℕ}
    (hscheme : scheme = "http".toList ∨ scheme = "https".toList) :
    withPort host₁ (keptPort scheme port₁) = withPort host₂ (keptPort scheme port₂) ↔
      host₁ = host₂ ∧ effectivePort scheme port₁ = effectivePort scheme port₂ ∨
        SameText scheme host₁ port₁ host₂ port₂ := by
  constructor
  · intro htext
    cases h₁ : keptPort scheme port₁ with
    | none =>
      cases h₂ : keptPort scheme port₂ with
      | none =>
        rw [h₁, h₂] at htext
        by_cases hz : ZeroPort port₁ port₂
        · exact .inr (.zero htext h₁ h₂ hz)
        · exact .inl ⟨htext, (effectivePort_eq_iff hscheme h₁ h₂).mpr hz⟩
      | some n =>
        rw [h₁, h₂] at htext
        exact .inr (.right h₁ h₂ htext)
    | some m =>
      cases h₂ : keptPort scheme port₂ with
      | none =>
        rw [h₁, h₂] at htext
        exact .inr (.left h₁ h₂ htext.symm)
      | some n =>
        rw [h₁, h₂] at htext
        obtain ⟨hhost, rfl⟩ := append_natStr_inj htext
        rw [(keptPort_eq_some h₁).1, (keptPort_eq_some h₂).1]
        exact .inl ⟨hhost, rfl⟩
  · rintro (⟨rfl, hport⟩ | h)
    · cases h₁ : keptPort scheme port₁ with
      | none =>
        cases h₂ : keptPort scheme port₂ with
        | none => rfl
        | some n => exact absurd hport (effectivePort_ne hscheme h₁ h₂)
      | some m =>
        cases h₂ : keptPort scheme port₂ with
        | none => exact absurd hport.symm (effectivePort_ne hscheme h₂ h₁)
        | some n =>
          rw [(keptPort_eq_some h₁).1, (keptPort_eq_some h₂).1] at hport
          have hmn : m = n := hport
          rw [hmn]
    · cases h with
      | zero hhost h₁ h₂ =>
        rw [h₁, h₂]
        exact hhost
      | left h₁ h₂ hhost =>
        rw [h₁, h₂]
        exact hhost.symm
      | right h₁ h₂ hhost =>
        rw [h₁, h₂]
        exact hhost

/-- Authorities that mean different things are not the same. -/
theorem SameText.not_same {scheme host₁ host₂ : Text} {port₁ port₂ : Option ℕ}
    (hscheme : scheme = "http".toList ∨ scheme = "https".toList)
    (h : SameText scheme host₁ port₁ host₂ port₂) :
    effectivePort scheme port₁ ≠ effectivePort scheme port₂ := by
  intro hport
  cases h with
  | zero _ h₁ h₂ hz => exact (effectivePort_eq_iff hscheme h₁ h₂).mp hport hz
  | left h₁ h₂ => exact effectivePort_ne hscheme h₂ h₁ hport.symm
  | right h₁ h₂ => exact effectivePort_ne hscheme h₁ h₂ hport

/-- **Merging.**  Two links with one canonical URL are the same article, unless
their authorities are confused: a port zero with none, or a host and a port with a
longer host. -/
theorem canonicalizeUrl_merges_iff (hu : UnicodeRules u k) {url₁ url₂ link₁ link₂ : Text}
    (h₁ : checkLink u url₁ = .ok link₁) (h₂ : checkLink u url₂ = .ok link₂) :
    ∃ p₁ port₁ p₂ port₂, urlparse u link₁ [] = .ok p₁ ∧ (netlocParts p₁).port u = .ok port₁ ∧
      urlparse u link₂ [] = .ok p₂ ∧ (netlocParts p₂).port u = .ok port₂ ∧
      ((canonicalizeUrl u link₁ = canonicalizeUrl u link₂ → SameArticle u p₁ port₁ p₂ port₂) ↔
        ¬ Confusable u p₁ port₁ p₂ port₂) := by
  obtain ⟨p₁, port₁, hl₁⟩ := checkLink_eq_ok h₁
  obtain ⟨p₂, port₂, hl₂⟩ := checkLink_eq_ok h₂
  refine ⟨p₁, port₁, p₂, port₂, hl₁.parse, hl₁.port, hl₂.parse, hl₂.port, ?_⟩
  -- the canonical URLs are equal part by part
  have hparts : canonicalizeUrl u link₁ = canonicalizeUrl u link₂ ↔
      p₁.scheme = p₂.scheme ∧
        withPort (linkHost u p₁) (keptPort p₁.scheme port₁) =
          withPort (linkHost u p₂) (keptPort p₂.scheme port₂) ∧
        orRoot p₁.path = orRoot p₂.path ∧
        (wantedFields u p₁.query : Multiset Field) = wantedFields u p₂.query := by
    have hwf₁ := hl₁.canonicalParts_wellFormed hu
    have hwf₂ := hl₂.canonicalParts_wellFormed hu
    rw [hl₁.canonicalizeUrl_eq, hl₂.canonicalizeUrl_eq, Except.ok.injEq, Multiset.coe_eq_coe,
      ← urlencode_cleanedQuery_inj]
    constructor
    · intro h
      exact build_inj (fun hc => absurd (hl₁.isScheme.chars _ hc) (by decide))
        (fun hc => absurd (hl₂.isScheme.chars _ hc) (by decide)) hwf₁.netloc hwf₂.netloc
        hl₁.head?_orRoot hl₂.head?_orRoot (fun hc => (hwf₁.path _ hc).1 rfl)
        (fun hc => (hwf₂.path _ hc).1 rfl) h
    · rintro ⟨hscheme, hnetloc, hpath, hquery⟩
      simp only [buildParts, canonicalParts, hscheme, hpath, hquery]
      rw [← hscheme, hnetloc, hscheme]
  rw [hparts]
  constructor
  · intro hsame hconf
    have hauth := (withPort_eq_iff hl₁.scheme).mpr (.inr hconf.authority)
    have hgood := hsame ⟨hconf.scheme, by rw [hauth, hconf.scheme], hconf.path, hconf.fields⟩
    refine hconf.authority.not_same hl₁.scheme ?_
    rw [hgood.port, hgood.scheme]
  · rintro hconf ⟨hscheme, hnetloc, hpath, hfields⟩
    rw [← hscheme] at hnetloc
    rcases (withPort_eq_iff hl₁.scheme).mp hnetloc with ⟨hhost, hport⟩ | hsame
    · exact ⟨hscheme, hhost, by rw [hport, hscheme], hpath, hfields⟩
    · exact absurd ⟨hscheme, hpath, hfields, hsame⟩ hconf

deriving instance DecidableEq for ParseResult

/-- A link to port zero. -/
def zeroPortLink : Text := "http://news.example:0/a?q=1".toList

/-- The same link without a port. -/
def noPortLink : Text := "http://NEWS.example/a;v=2?utm_id=3&q=1".toList

theorem urlparse_noPortLink : urlparse basicUnicode noPortLink [] =
    .ok ⟨"http".toList, "NEWS.example".toList, "/a".toList, "v=2".toList, "utm_id=3&q=1".toList,
      []⟩ := by
  decide +kernel

theorem checkLink_noPortLink : checkLink basicUnicode noPortLink = .ok noPortLink := by
  decide +kernel

/-- The port of the scheme is confused with no other. -/
theorem not_confusable_http (p₁ p₂ : ParseResult) (hscheme : p₁.scheme = "http".toList) :
    ¬ Confusable u p₁ (some 80) p₂ none := by
  intro h
  have hauthority := h.authority
  rw [hscheme] at hauthority
  have hnone : keptPort "http".toList (some 80) = none := by decide
  cases hauthority with
  | zero _ _ _ hzero => exact hzero (by decide)
  | left h₁ =>
    rw [hnone] at h₁
    cases h₁
  | right _ h₂ => cases h₂

/-- The same link with the port of its scheme. -/
def fullPortLink : Text := "http://news.example:80/a?q=1#top".toList

theorem canonicalizeUrl_merges_sample :
    canonicalizeUrl basicUnicode fullPortLink = canonicalizeUrl basicUnicode noPortLink ∧
      ∃ p₁ port₁ p₂ port₂, urlparse basicUnicode fullPortLink [] = .ok p₁ ∧
        (netlocParts p₁).port basicUnicode = .ok port₁ ∧
        urlparse basicUnicode noPortLink [] = .ok p₂ ∧
        (netlocParts p₂).port basicUnicode = .ok port₂ ∧
        SameArticle basicUnicode p₁ port₁ p₂ port₂ ∧
        ¬ Confusable basicUnicode p₁ port₁ p₂ port₂ := by
  have hsame : canonicalizeUrl basicUnicode fullPortLink =
      canonicalizeUrl basicUnicode noPortLink := by decide +kernel
  obtain ⟨p₁, port₁, p₂, port₂, hp₁, hport₁, hp₂, hport₂, hiff⟩ :=
    canonicalizeUrl_merges_iff basicUnicode_rules
      (show checkLink basicUnicode fullPortLink = .ok fullPortLink by decide +kernel)
      checkLink_noPortLink
  have hparse₁ : urlparse basicUnicode fullPortLink [] =
      .ok ⟨"http".toList, "news.example:80".toList, "/a".toList, [], "q=1".toList, "top".toList⟩ := by
    decide +kernel
  cases hp₁.symm.trans hparse₁
  cases hp₂.symm.trans urlparse_noPortLink
  cases hport₁.symm.trans (by decide +kernel : _ = Except.ok (some 80))
  cases hport₂.symm.trans (by decide +kernel : _ = Except.ok none)
  have hclear := not_confusable_http (u := basicUnicode)
    ⟨"http".toList, "news.example:80".toList, "/a".toList, [], "q=1".toList, "top".toList⟩
    ⟨"http".toList, "NEWS.example".toList, "/a".toList, "v=2".toList, "utm_id=3&q=1".toList, []⟩ rfl
  exact ⟨hsame, _, _, _, _, hp₁, hport₁, hp₂, hport₂, hiff.mpr hclear hsame, hclear⟩

/-- A port zero is lost. -/
theorem canonicalizeUrl_merges_zeroPort :
    checkLink basicUnicode zeroPortLink = .ok zeroPortLink ∧
      checkLink basicUnicode noPortLink = .ok noPortLink ∧
      canonicalizeUrl basicUnicode zeroPortLink = canonicalizeUrl basicUnicode noPortLink ∧
      ∃ p₁ p₂, urlparse basicUnicode zeroPortLink [] = .ok p₁ ∧
        (netlocParts p₁).port basicUnicode = .ok (some 0) ∧
        urlparse basicUnicode noPortLink [] = .ok p₂ ∧
        (netlocParts p₂).port basicUnicode = .ok none ∧
        ¬ SameArticle basicUnicode p₁ (some 0) p₂ none := by
  refine ⟨by decide +kernel, checkLink_noPortLink, by decide +kernel,
    ⟨"http".toList, "news.example:0".toList, "/a".toList, [], "q=1".toList, []⟩,
    ⟨"http".toList, "NEWS.example".toList, "/a".toList, "v=2".toList, "utm_id=3&q=1".toList, []⟩,
    by decide +kernel, by decide +kernel, urlparse_noPortLink, by decide +kernel, ?_⟩
  intro hsame
  exact absurd hsame.port (by decide)

/-! ### Noise -/

/-- A URL of the web without query and fragment. -/
structure IsBare (u : UnicodeTables) (base : Text) : Prop where
  noQuery : '?' ∉ base
  noFragment : '#' ∉ base
  web : ∃ s, urlsplit u base = .ok s ∧ (s.scheme = "http".toList ∨ s.scheme = "https".toList)

/-- A fragment, or none. -/
def hashPart : Option Text → Text
  | none => []
  | some fragment => '#' :: fragment

/-- The URL with a query of some fields, and a fragment. -/
def withQuery (base : Text) (fields : List Field) (fragment : Option Text) : Text :=
  base ++ '?' :: (urlencode fields ++ hashPart fragment)

theorem dropWhile_append_cons {α : Type*} {p : α → Bool} {c : α} (hc : p c = false) (s t : List α) :
    (s ++ c :: t).dropWhile p = s.dropWhile p ++ c :: t := by
  induction s with
  | nil => simp [hc]
  | cons x s ih =>
    rw [List.cons_append, List.dropWhile_cons, List.dropWhile_cons]
    split
    · exact ih
    · rfl

theorem takeWhile_append_cons {α : Type*} {p : α → Bool} {c : α} (hc : p c = false) (s t : List α) :
    (s ++ c :: t).takeWhile p = s.takeWhile p := by
  induction s with
  | nil => simp [hc]
  | cons x s ih =>
    rw [List.cons_append, List.takeWhile_cons, List.takeWhile_cons, ih]

/-- A question mark ends what can be a scheme. -/
theorem splitScheme_append (s t scheme : Text) :
    splitScheme (s ++ '?' :: t) scheme =
      ((splitScheme s scheme).1, (splitScheme s scheme).2 ++ '?' :: t) := by
  rcases partition_cases ':' s with ⟨hno, heq⟩ | ⟨a, b, rfl, ha, heq⟩
  · have hs : splitScheme s scheme = (scheme, s) := by
      rw [splitScheme, heq]
      rfl
    have hcolon : splitScheme (s ++ '?' :: t) scheme = (scheme, s ++ '?' :: t) := by
      rw [splitScheme, if_neg]
      intro h
      rw [Bool.and_eq_true, Bool.and_eq_true, List.all_eq_true] at h
      obtain ⟨⟨hfound, -⟩, hchars⟩ := h
      rcases partition_cases ':' (s ++ '?' :: t) with ⟨-, heq'⟩ | ⟨a, b, hab, ha, heq'⟩
      · rw [heq'] at hfound
        exact absurd hfound Bool.false_ne_true
      · rw [heq'] at hchars
        -- the colon stands behind the question mark
        have hmark : '?' ∈ a := by
          rcases List.append_eq_append_iff.mp hab with ⟨x, rfl, hx⟩ | ⟨x, hx, hx'⟩
          · cases x with
            | nil => exact absurd (List.cons.inj hx).1 (by decide)
            | cons c x =>
              rw [(List.cons.inj hx).1]
              simp
          · cases x with
            | nil => exact absurd (List.cons.inj hx').1 (by decide)
            | cons c x =>
              rw [List.cons_append, List.cons.injEq] at hx'
              rw [hx, ← hx'.1] at hno
              exact absurd (by simp) hno
        exact absurd (hchars _ hmark) (by decide)
    rw [hs, hcolon]
  · have happ : a ++ ':' :: b ++ '?' :: t = a ++ ':' :: (b ++ '?' :: t) := by simp
    rw [happ, splitScheme, splitScheme, partition_append ha, partition_append ha]
    dsimp only
    split
    · rfl
    · simp

theorem cutNetloc_append (s t : Text) :
    cutNetloc (s ++ '?' :: t) = ((cutNetloc s).1, (cutNetloc s).2 ++ '?' :: t) := by
  rcases s with _ | ⟨c, _ | ⟨d, s⟩⟩
  · rfl
  · rw [cutNetloc.eq_def, cutNetloc.eq_def]
    simp
  · by_cases hslash : c = '/' ∧ d = '/'
    · obtain ⟨rfl, rfl⟩ := hslash
      simp only [List.cons_append, cutNetloc, splitnetloc]
      rw [takeWhile_append_cons (by decide), dropWhile_append_cons (by decide)]
    · have hno : ∀ r : Text, cutNetloc (c :: d :: r) = ([], c :: d :: r) := by
        intro r
        rw [cutNetloc.eq_def]
        split
        · rename_i heq
          simp only [List.cons.injEq] at heq
          exact absurd ⟨heq.1, heq.2.1⟩ hslash
        · rfl
      rw [List.cons_append, List.cons_append, hno, hno]
      rfl

theorem mem_cutNetloc {s : Text} {c : Char} (h : c ∈ (cutNetloc s).2) : c ∈ s := by
  rw [cutNetloc.eq_def] at h
  split at h
  · exact List.mem_cons_of_mem _ (List.mem_cons_of_mem _ ((List.dropWhile_suffix _).subset h))
  · exact h

theorem mem_schemeOf {url : Text} {c : Char} (h : c ∈ (schemeOf url).2) : c ∈ url := by
  have hurl : c ∈ removeUnsafe (lstrip isC0OrSpace url) := by
    rw [schemeOf, splitScheme] at h
    split at h
    · exact mem_of_mem_partition_snd h
    · exact h
  exact (List.dropWhile_suffix _).subset (List.mem_filter.mp hurl).1

/-- What is not removed from a URL. -/
theorem removeUnsafe_eq_self {s : Text} (h : ∀ c ∈ s, isUnsafe c = false) : removeUnsafe s = s := by
  rw [removeUnsafe, List.filter_eq_self]
  intro c hc
  rw [h c hc]
  rfl

/-- A query and a fragment behind a URL without them. -/
theorem urlsplit_append (u : UnicodeTables) {base query : Text} (hmark : '?' ∉ base)
    (hhash : '#' ∉ base) (hquery : ∀ c ∈ query, c ≠ '#' ∧ isUnsafe c = false)
    (fragment : Option Text) :
    ∃ f, urlsplit u (base ++ '?' :: (query ++ hashPart fragment)) =
      (urlsplit u base).map fun s => ⟨s.scheme, s.netloc, s.path, query, f⟩ := by
  obtain ⟨hashed, hhashed⟩ : ∃ f, removeUnsafe (query ++ hashPart fragment) =
      query ++ hashPart f := by
    rw [removeUnsafe, List.filter_append, ← removeUnsafe, ← removeUnsafe,
      removeUnsafe_eq_self fun c hc => (hquery c hc).2]
    cases fragment with
    | none => exact ⟨none, rfl⟩
    | some f => exact ⟨some (removeUnsafe f), rfl⟩
  have hscheme : schemeOf (base ++ '?' :: (query ++ hashPart fragment)) =
      ((schemeOf base).1, (schemeOf base).2 ++ '?' :: (query ++ hashPart hashed)) := by
    have hcons : removeUnsafe (lstrip isC0OrSpace base ++ '?' :: (query ++ hashPart fragment)) =
        removeUnsafe (lstrip isC0OrSpace base) ++ '?' :: (query ++ hashPart hashed) := by
      rw [← hhashed, removeUnsafe, List.filter_append]
      rfl
    rw [schemeOf, lstrip, dropWhile_append_cons (by decide), ← lstrip, hcons, splitScheme_append]
    rfl
  have hmark' : '?' ∉ (cutNetloc (schemeOf base).2).2 :=
    fun h => hmark (mem_schemeOf (mem_cutNetloc h))
  have hhash' : '#' ∉ (cutNetloc (schemeOf base).2).2 ++ '?' :: query := by
    intro h
    rw [List.mem_append, List.mem_cons] at h
    rcases h with h | h | h
    · exact hhash (mem_schemeOf (mem_cutNetloc h))
    · exact absurd h (by decide)
    · exact (hquery _ h).1 rfl
  have hbase : '#' ∉ (cutNetloc (schemeOf base).2).2 := fun h => hhash' (List.mem_append_left _ h)
  -- the fragment is cut off first
  have hcut : (partition '#' ((cutNetloc (schemeOf base).2).2 ++
      '?' :: (query ++ hashPart hashed))).1 = (cutNetloc (schemeOf base).2).2 ++ '?' :: query := by
    have happ : (cutNetloc (schemeOf base).2).2 ++ '?' :: (query ++ hashPart hashed) =
        ((cutNetloc (schemeOf base).2).2 ++ '?' :: query) ++ hashPart hashed := by simp
    rw [happ]
    cases hashed with
    | none => rw [hashPart, List.append_nil, partition_of_notMem hhash']
    | some f => rw [hashPart, partition_append hhash']
  refine ⟨(partition '#' ((cutNetloc (schemeOf base).2).2 ++
    '?' :: (query ++ hashPart hashed))).2.2, ?_⟩
  rw [urlsplit_eq, urlsplit_eq, hscheme, splitRest, splitRest]
  simp only [cutNetloc_append, hcut, partition_append hmark', partition_of_notMem hbase,
    partition_of_notMem hmark']
  cases checkBrackets u (cutNetloc (schemeOf base).2).1 with
  | error m => rfl
  | ok x =>
    cases checknetloc u (cutNetloc (schemeOf base).2).1 with
    | error m => rfl
    | ok y => rfl

/-- Without a question mark there is no query. -/
theorem query_of_notMem {url : Text} {p : SplitResult} (h : urlsplit u url = .ok p)
    (hmark : '?' ∉ url) : p.query = [] := by
  rw [urlsplit_eq, splitRest_ok_iff] at h
  obtain ⟨rfl, -⟩ := h
  have hno : '?' ∉ (partition '#' (cutNetloc (schemeOf url).2).2).1 := fun h =>
    hmark (mem_schemeOf (mem_cutNetloc (mem_of_mem_partition_fst h).1))
  simp only [restParts, partition_of_notMem hno]

/-- The canonical URL in front of its query. -/
def canonicalBase (u : UnicodeTables) (parsed : ParseResult) (port : Option ℕ) : Text :=
  urlunparse ⟨lower u parsed.scheme,
    withPort (linkHost u parsed) (keptPort parsed.scheme port), orRoot parsed.path, [], [], []⟩

/-- A query behind a URL. -/
def queryPart (query : Text) : Text := if query.isEmpty then [] else '?' :: query

theorem urlunparse_query (scheme netloc path query : Text) :
    urlunparse ⟨scheme, netloc, path, [], query, []⟩ =
      urlunparse ⟨scheme, netloc, path, [], [], []⟩ ++ queryPart query := by
  cases query with
  | nil => exact (List.append_nil _).symm
  | cons c query => rfl

/-- Whatever is canonicalized has a canonical URL of this form. -/
theorem canonicalizeUrl_ok {url v : Text} (h : canonicalizeUrl u url = .ok v) :
    ∃ parsed port, urlparse u url [] = .ok parsed ∧
      v = canonicalBase u parsed port ++ queryPart (urlencode (cleanedQuery u parsed.query)) := by
  rw [canonicalizeUrl] at h
  cases hparse : urlparse u url [] with
  | error m =>
    simp only [hparse, bind, Except.bind] at h
    cases h
  | ok parsed =>
    simp only [hparse, bind, Except.bind] at h
    cases hport : (netlocParts parsed).port u with
    | error m =>
      simp only [hport] at h
      cases h
    | ok port =>
      simp only [hport, pure, Except.pure] at h
      obtain rfl := Except.ok.inj h
      exact ⟨parsed, port, rfl, urlunparse_query _ _ _ _⟩

/-- **The canonical URL of a URL with a query**: nothing but the fields that stay
matter. -/
theorem canonicalizeUrl_withQuery {base : Text} (hbase : IsBare u base)
    (hdef : ∃ v, canonicalizeUrl u base = .ok v) :
    ∃ parsed port, urlparse u base [] = .ok parsed ∧ ∀ fields fragment,
      canonicalizeUrl u (withQuery base fields fragment) =
        .ok (canonicalBase u parsed port ++ queryPart
          (urlencode ((fields.filter fun f => !decide (IsNoise u f)).insertionSort fieldLe))) := by
  obtain ⟨s, hs, -⟩ := hbase.web
  have hparse : urlparse u base [] = .ok _ := urlparse_eq_ok.mpr ⟨s, hs, rfl⟩
  obtain ⟨v, hv⟩ := hdef
  rw [canonicalizeUrl, hparse] at hv
  simp only [bind, Except.bind] at hv
  cases hport : (netlocParts ⟨s.scheme, s.netloc, (pathParams s.scheme s.path).1,
      (pathParams s.scheme s.path).2, s.query, s.fragment⟩).port u with
  | error m =>
    rw [hport] at hv
    exact absurd hv (by simp)
  | ok port =>
    refine ⟨_, port, hparse, fun fields fragment => ?_⟩
    obtain ⟨f, hf⟩ := urlsplit_append u hbase.noQuery hbase.noFragment
      (fun c (hc : c ∈ urlencode fields) => mem_urlencode_plain hc) fragment
    rw [hs] at hf
    have hparse' : urlparse u (withQuery base fields fragment) [] = .ok _ :=
      urlparse_eq_ok.mpr ⟨_, hf, rfl⟩
    have hport' : (netlocParts ⟨s.scheme, s.netloc, (pathParams s.scheme s.path).1,
        (pathParams s.scheme s.path).2, urlencode fields, f⟩).port u = .ok port := hport
    rw [canonicalizeUrl, hparse']
    simp only [bind, Except.bind, hport', pure, Except.pure]
    rw [urlunparse_query, cleanedQuery_eq, wantedFields_urlencode]
    rfl

/-- What stands behind the scheme of a URL that is put together. -/
theorem urlunparse_eq (scheme netloc path : Text) :
    ∃ body, (∀ c ∈ body, c ∈ netloc ∨ c ∈ path ∨ c = '/') ∧
      urlunparse ⟨scheme, netloc, path, [], [], []⟩ =
        if scheme.isEmpty then body else scheme ++ ':' :: body := by
  have hsplit : urlunparse ⟨scheme, netloc, path, [], [], []⟩ =
      urlunsplit ⟨scheme, netloc, path, [], []⟩ := rfl
  rw [hsplit]
  refine ⟨_, ?_, rfl⟩
  intro c hc
  dsimp only at hc
  split_ifs at hc
  all_goals
    try simp only [List.mem_append, List.mem_cons, List.not_mem_nil, or_false] at hc
    tauto

theorem mem_urlunparse {scheme netloc path : Text} {c : Char}
    (h : c ∈ urlunparse ⟨scheme, netloc, path, [], [], []⟩) :
    c ∈ scheme ∨ c ∈ netloc ∨ c ∈ path ∨ c = '/' ∨ c = ':' := by
  obtain ⟨body, hbody, heq⟩ := urlunparse_eq scheme netloc path
  rw [heq] at h
  split at h
  · exact .inr ((hbody c h).imp_right fun h => h.imp_right .inl)
  · rw [List.mem_append, List.mem_cons] at h
    rcases h with h | h | h
    · exact .inl h
    · exact .inr (.inr (.inr (.inr h)))
    · exact .inr ((hbody c h).imp_right fun h => h.imp_right .inl)

/-- In front of its query the canonical URL has no query and no fragment. -/
theorem canonicalBase_chars (hu : UnicodeRules u k) {url : Text} {parsed : ParseResult}
    (hparse : urlparse u url [] = .ok parsed) {port : Option ℕ} {c : Char}
    (hc : c ∈ canonicalBase u parsed port) : c ≠ '?' ∧ c ≠ '#' ∧ isUnsafe c = false := by
  have hauth : c ∈ withPort (linkHost u parsed) (keptPort parsed.scheme port) →
      c ≠ '?' ∧ c ≠ '#' ∧ isUnsafe c = false := by
    intro hmem
    obtain ⟨hdelim, hunsafe, -⟩ := withPort_chars hu hparse hmem
    refine ⟨?_, ?_, hunsafe⟩
    · rintro rfl
      exact absurd hdelim (by decide)
    · rintro rfl
      exact absurd hdelim (by decide)
  obtain ⟨s, hs, rfl⟩ := urlparse_eq_ok.mp hparse
  rcases mem_urlunparse hc with hc | hc | hc | rfl | rfl
  · rw [lower_scheme hs] at hc
    rcases urlsplit_scheme hs with h | h
    · rw [h] at hc
      exact absurd hc List.not_mem_nil
    · exact CharTables.forall_ascii (p := fun c => isSchemeChar c = true →
        c ≠ '?' ∧ c ≠ '#' ∧ isUnsafe c = false) (by decide) (isAsciiChar_of_scheme (h.chars c hc))
        (h.chars c hc)
  · exact hauth hc
  · rcases mem_orRoot hc with hc | rfl
    · have hwf := urlsplit_wellFormed hs
      have hmem := mem_pathParams hc
      exact ⟨(hwf.path c hmem).1, (hwf.path c hmem).2, hwf.safe c (by simp [hmem])⟩
    · decide
  · decide
  · decide

/-- **Tracking noise and order.**  Behind a URL of the web, in whatever order and
among whatever noise its fields are encoded, and with or without a fragment, the
canonical URL is one and the same; and its query is decoded to each field that is
no noise as often as it was given. -/
theorem canonicalizeUrl_ignores_noise (hu : UnicodeRules u k) {base : Text} (hbase : IsBare u base)
    (hdef : ∃ v, canonicalizeUrl u base = .ok v) (fields noise fields' : List Field)
    (hnoise : ∀ f ∈ noise, IsNoise u f) (hperm : fields'.Perm (fields ++ noise))
    (fragment fragment' : Option Text) :
    ∃ v, canonicalizeUrl u (withQuery base fields fragment) = .ok v ∧
      canonicalizeUrl u (withQuery base fields' fragment') = .ok v ∧
      ∀ f, ¬ IsNoise u f →
        (parseQsl (partition '?' v).2.2).count f = fields.count f ∧
          ∀ p, urlsplit u v = .ok p → (parseQsl p.query).count f = fields.count f := by
  obtain ⟨parsed, port, hparse, hcanon⟩ := canonicalizeUrl_withQuery hbase hdef
  -- the noise is filtered out, and the rest is sorted
  have hsame : (fields'.filter fun f => !decide (IsNoise u f)).insertionSort fieldLe =
      (fields.filter fun f => !decide (IsNoise u f)).insertionSort fieldLe := by
    rw [insertionSort_eq_iff]
    have hfilter := hperm.filter fun f => !decide (IsNoise u f)
    have hnone : (noise.filter fun f => !decide (IsNoise u f)) = [] := by
      rw [List.filter_eq_nil_iff]
      intro f hf
      simp [hnoise f hf]
    rwa [List.filter_append, hnone, List.append_nil] at hfilter
  refine ⟨_, hcanon fields fragment, ?_, fun f hf => ?_⟩
  · rw [hcanon fields' fragment', hsame]
  set kept := (fields.filter fun f => !decide (IsNoise u f)).insertionSort fieldLe with hkept
  have hcount : (parseQsl (urlencode kept)).count f = fields.count f := by
    have hvalues : ∀ g ∈ kept, (!g.2.isEmpty) = true := by
      intro g hg
      rw [hkept, (List.perm_insertionSort fieldLe _).mem_iff, List.mem_filter] at hg
      have hnot : ¬ IsNoise u g := by simpa using hg.2
      rw [IsNoise, not_or] at hnot
      simpa using hnot.2
    rw [parseQsl_urlencode, List.filter_eq_self.mpr hvalues, hkept,
      (List.perm_insertionSort fieldLe _).count_eq, List.count_filter]
    simpa using hf
  have hchars : ∀ c ∈ canonicalBase u parsed port, c ≠ '?' ∧ c ≠ '#' ∧ isUnsafe c = false :=
    fun c hc => canonicalBase_chars hu hparse hc
  have hmark : '?' ∉ canonicalBase u parsed port := fun h => (hchars _ h).1 rfl
  have hhash : '#' ∉ canonicalBase u parsed port := fun h => (hchars _ h).2.1 rfl
  rw [queryPart]
  split
  · -- no field is left, and no query
    rename_i hempty
    rw [List.isEmpty_iff] at hempty
    rw [hempty] at hcount
    rw [List.append_nil, partition_of_notMem hmark]
    refine ⟨hcount, fun p hp => ?_⟩
    rw [query_of_notMem hp hmark]
    exact hcount
  · rw [partition_append hmark]
    refine ⟨hcount, fun p hp => ?_⟩
    obtain ⟨f', hf'⟩ := urlsplit_append u hmark hhash
      (fun c (hc : c ∈ urlencode kept) => mem_urlencode_plain hc) none
    rw [hashPart, List.append_nil, hp] at hf'
    cases hs : urlsplit u (canonicalBase u parsed port) with
    | error m =>
      rw [hs] at hf'
      cases hf'
    | ok s =>
      rw [hs] at hf'
      obtain rfl := Except.ok.inj hf'
      exact hcount

/-- A search page. -/
def searchPage : Text := "https://news.example/s".toList

theorem canonicalizeUrl_ignores_noise_sample :
    ∃ v, canonicalizeUrl basicUnicode
          (withQuery searchPage [("q".toList, "a&b=ö".toList), ("p".toList, "1".toList)] none) =
        .ok v ∧
      canonicalizeUrl basicUnicode
          (withQuery searchPage [("UTM_x".toList, "7".toList), ("p".toList, "1".toList),
            ("z".toList, []), ("q".toList, "a&b=ö".toList)] (some "top".toList)) = .ok v ∧
      ∀ f, ¬ IsNoise basicUnicode f →
        (parseQsl (partition '?' v).2.2).count f =
            [("q".toList, "a&b=ö".toList), ("p".toList, "1".toList)].count f ∧
          ∀ p, urlsplit basicUnicode v = .ok p → (parseQsl p.query).count f =
            [("q".toList, "a&b=ö".toList), ("p".toList, "1".toList)].count f :=
  canonicalizeUrl_ignores_noise basicUnicode_rules
    (show IsBare basicUnicode searchPage from ⟨by decide, by decide,
      ⟨⟨"https".toList, "news.example".toList, "/s".toList, [], []⟩, by decide +kernel, .inr rfl⟩⟩)
    ⟨"https://news.example/s".toList, by decide +kernel⟩ _
    [("UTM_x".toList, "7".toList), ("z".toList, [])] _ (by decide +kernel) (by decide +kernel)
    none (some "top".toList)

end Normalizer
