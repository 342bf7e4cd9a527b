/-
Spelling variants of a webhook URL.

* `PathStep` — one respelling of a path, `PathStep.pathKey_eq` — it leaves the key as
  it is;
* `WebUrl` — an https URL in its parts, `webhookKey_text` — the key of its text;
* `Variant` — one respelling of a URL.

Main result: `webhookKey_of_variants`.
-/
import Newsforge.CanonicalUrl
import Newsforge.PathKey

open PyText UrlParse SafeHttp Percent

namespace Targets

variable {u : UnicodeTables} {k : CharTables}

/-! ### Respelled paths -/

/-- One respelling of a path; `s` is a slash in either spelling. -/
inductive PathStep : Text → Text → Prop
  | letterCase {p p' : Text} (h : SameLetters p p') : PathStep p p'
  | encode {a b : Text} {c : Char} (ha : a ≠ []) (hc : c ≠ '%') (hin : ¬ InEscape a c b) :
      PathStep (a ++ c :: b) (a ++ (escape c ++ b))
  | backslash {a b : Text} (ha : a ≠ []) : PathStep (a ++ '/' :: b) (a ++ '\\' :: b)
  | slashes {a b : Text} {s : Char} (hs : isSlash s = true) :
      PathStep (a ++ s :: b) (a ++ s :: s :: b)
  | trailing (p : Text) : PathStep p (p ++ ['/'])
  | dot {a b : Text} {s : Char} (hs : isSlash s = true) :
      PathStep (a ++ s :: b) (a ++ s :: '.' :: '/' :: b)
  | up {a b x : Text} {s : Char} (hs : isSlash s = true) (hx : ∀ c ∈ x, isAlwaysSafe c = true)
      (hne : x ≠ []) (hdot : x ≠ ['.']) (hdots : x ≠ ['.', '.']) :
      PathStep (a ++ s :: b) (a ++ s :: (x ++ '/' :: '.' :: '.' :: '/' :: b))
  | params {a b x : Text} (ha : a ≠ []) (hb : ∀ c ∈ b.head?, isSlash c = true)
      (hx : ∀ c ∈ x, isAlwaysSafe c = true ∨ c = '=') : PathStep (a ++ b) (a ++ ';' :: (x ++ b))

theorem segments_append_cons (a : Text) {s : Char} (hs : isSlash s = true) (b : Text) :
    segments (a ++ s :: b) = segments a ++ segments b := by
  rw [segments, List.splitOnP_append_cons a b hs, List.map_append]
  rfl

/-- What stands behind a slash goes on with the components in front of it. -/
theorem components_append_cons (a : Text) {s : Char} (hs : isSlash s = true) (b : Text) :
    components (a ++ s :: b) = (segments b).foldl (normStep true) (components a) := by
  rw [components, segments_append_cons a hs, List.foldl_append]
  rfl

theorem segments_plain {x : Text} (h : ∀ c ∈ x, isSlash c = false ∧ c ≠ ';') :
    segments x = [x] := by
  rw [segments, List.splitOnP_eq_singleton fun c hc => (h c hc).1, List.map_singleton,
    bareSegment, List.takeWhile_eq_self_iff.mpr]
  exact fun c hc => decide_eq_true (h c hc).2

/-- Parameters at the end of a text are cut off its last segment. -/
theorem segments_params (a : Text) {x : Text} (hx : ∀ c ∈ x, isSlash c = false) :
    segments (a ++ ';' :: x) = segments a := by
  induction a with
  | nil =>
    rw [List.nil_append, segments_cons, if_neg (by decide), segments,
      List.splitOnP_eq_singleton hx]
    rfl
  | cons c a ih => rw [List.cons_append, segments_cons, ih, segments_cons]

theorem notHex_of_isSlash {s : Char} (hs : isSlash s = true) :
    s ≠ '%' ∧ IPAddress.isHexDigit s = false := by
  rw [isSlash, Bool.or_eq_true, beq_iff_eq, beq_iff_eq] at hs
  rcases hs with rfl | rfl <;> decide

theorem unquote_append_slash (a : Text) {s : Char} (hs : isSlash s = true) (b : Text) :
    Percent.unquote (a ++ s :: b) = Percent.unquote a ++ s :: Percent.unquote b :=
  unquote_append_plain (notHex_of_isSlash hs).1 (notHex_of_isSlash hs).2 a b

/-- The components of a path around a slash. -/
theorem components_unquote (a : Text) {s : Char} (hs : isSlash s = true) (b : Text) :
    components (Percent.unquote (a ++ s :: b)) =
      (segments (Percent.unquote b)).foldl (normStep true) (components (Percent.unquote a)) := by
  rw [unquote_append_slash a hs, components_append_cons _ hs]

theorem safe_plain {c : Char} (hc : isAlwaysSafe c = true) :
    c ≠ '%' ∧ isSlash c = false ∧ c ≠ ';' :=
  CharTables.forall_ascii (p := fun c => isAlwaysSafe c = true →
    c ≠ '%' ∧ isSlash c = false ∧ c ≠ ';') (by decide) (isAsciiChar_of_isAlwaysSafe hc) hc

theorem unquote_of_safe {x : Text} (hx : ∀ c ∈ x, isAlwaysSafe c = true ∨ c = '=') :
    Percent.unquote x = x := by
  refine unquote_of_notMem fun h => ?_
  rcases hx '%' h with h | h
  · exact (safe_plain h).1 rfl
  · exact absurd h (by decide)

/-- A segment that is left again. -/
theorem normStep_up {x : Text} (hne : x ≠ []) (hdot : x ≠ ['.']) (hdots : x ≠ ['.', '.'])
    (kept : List Text) : normStep true (normStep true kept x) ['.', '.'] = kept := by
  have hpush : normStep true kept x = kept ++ [x] := by
    rw [normStep, if_neg (not_or.mpr ⟨hne, hdot⟩), if_pos (.inl hdots)]
  have hlast : (kept ++ [x]).getLast? ≠ some ['.', '.'] := by
    rw [List.getLast?_concat]
    exact fun h => hdots (Option.some.inj h)
  rw [hpush, normStep, if_neg (by decide), if_neg, List.dropLast_concat]
  rintro (h | h | h)
  · exact h rfl
  · exact absurd h (by simp)
  · exact hlast h

/-- A respelling other than in letter case leaves the components as they are. -/
theorem PathStep.components_eq {p p' : Text} (h : PathStep p p') :
    SameLetters p p' ∨ components (Percent.unquote p') = components (Percent.unquote p) := by
  have hslash : isSlash '/' = true := by decide
  cases h with
  | letterCase h => exact .inl h
  | @encode a b c ha hc hin =>
    rw [unquote_append_escape, unquote_append_cons (startsEscape_of_ne hc b) hin]
    exact .inr rfl
  | @backslash a b ha =>
    rw [components_unquote a (s := '\\') (by decide), components_unquote a hslash]
    exact .inr rfl
  | @slashes a b s hs =>
    rw [components_unquote a hs, components_unquote a hs,
      show s :: b = [] ++ s :: b from rfl, unquote_append_slash [] hs, segments_append_cons _ hs]
    right
    rw [show Percent.unquote [] = [] from rfl, List.foldl_append]
    rfl
  | trailing p =>
    rw [components_unquote p hslash]
    exact .inr (normStep_nil true _)
  | @dot a b s hs =>
    have hrest : Percent.unquote ('.' :: '/' :: b) = ['.'] ++ '/' :: Percent.unquote b :=
      unquote_append_slash ['.'] hslash b
    rw [components_unquote a hs, components_unquote a hs, hrest, segments_append_cons _ hslash,
      List.foldl_append]
    exact .inr rfl
  | @up a b x s hs hx hne hdot hdots =>
    have hrest : Percent.unquote (x ++ '/' :: '.' :: '.' :: '/' :: b) =
        x ++ '/' :: (['.', '.'] ++ '/' :: Percent.unquote b) := by
      rw [unquote_append_slash x hslash, unquote_of_safe fun c hc => .inl (hx c hc)]
      exact congrArg (x ++ '/' :: ·) (unquote_append_slash ['.', '.'] hslash b)
    rw [components_unquote a hs, components_unquote a hs, hrest, segments_append_cons _ hslash,
      segments_append_cons _ hslash, segments_plain fun c hc => (safe_plain (hx c hc)).2,
      List.foldl_append, List.foldl_append]
    right
    refine congrArg (fun kept => (segments (Percent.unquote b)).foldl (normStep true) kept) ?_
    exact normStep_up hne hdot hdots _
  | @params a b x ha hb hx =>
    have hplain : ∀ c ∈ x, isSlash c = false := by
      intro c hc
      rcases hx c hc with h | rfl
      · exact (safe_plain h).2.1
      · decide
    have hsemi : ∀ t,
        Percent.unquote (a ++ ';' :: t) = Percent.unquote a ++ ';' :: Percent.unquote t :=
      unquote_append_plain (by decide) (by decide) a
    right
    cases b with
    | nil =>
      rw [List.append_nil, List.append_nil, hsemi, unquote_of_safe hx, components, components,
        segments_params _ hplain]
    | cons s b =>
      have hs := hb s rfl
      rw [components_unquote a hs, hsemi, unquote_append_slash x hs, unquote_of_safe hx,
        ← List.cons_append, ← List.append_assoc, components_append_cons _ hs, components,
        segments_params _ hplain]
      rfl

/-- **No respelling of a path changes its key.** -/
theorem PathStep.pathKey_eq (hu : UnicodeRules u k) {p p' : Text} (h : PathStep p p') :
    pathKey u p' = pathKey u p := by
  rcases h.components_eq with h | h
  · exact (pathKey_sameLetters hu h).symm
  · rw [Targets.pathKey_eq, h, ← Targets.pathKey_eq]

/-! ### URLs -/

/-- An https URL in its parts, as they are written. -/
structure WebUrl where
  scheme : Text
  user : Option Text
  host : Text
  port : Option Text
  path : Text
  query : Option Text
  fragment : Option Text

/-- A part that may be missing, behind the character that announces it. -/
def announced (c : Char) : Option Text → Text
  | none => []
  | some s => c :: s

namespace WebUrl

def netloc (w : WebUrl) : Text :=
  (w.user.elim [] fun s => s ++ ['@']) ++ (w.host ++ announced ':' w.port)

/-- Query and fragment. -/
def tail (w : WebUrl) : Text := announced '?' w.query ++ announced '#' w.fragment

def text (w : WebUrl) : Text :=
  w.scheme ++ ':' :: '/' :: '/' :: (w.netloc ++ (w.path ++ w.tail))

/-- A character of a host name in ASCII. -/
def isHostChar (c : Char) : Bool :=
  isAsciiChar c && !isDelim c && !isUnsafe c && c != '@' && c != ':' && c != '[' && c != ']'

/-- A character of a path: neither white space nor the end of the path. -/
def isPathChar (c : Char) : Bool := !isSpace c && c != '?' && c != '#'

/-- The parts stand where they are looked for. -/
structure WellFormed (k : CharTables) (w : WebUrl) : Prop where
  scheme : SameLetters w.scheme "https".toList
  user : ∀ s ∈ w.user, ∀ c ∈ s, isDelim c = false ∧ isUnsafe c = false ∧ c ≠ '[' ∧ c ≠ ']' ∧
    (k.hides c = true → isAsciiChar c = true)
  host : ∀ c ∈ w.host, isHostChar c = true
  /-- dots alone are no name -/
  name : ∃ c ∈ w.host, c ≠ '.'
  port : ∀ s ∈ w.port, s = [] ∨ isDecimal s = true ∧ decValue s ≤ 65535
  root : w.path.head? = some '/'
  path : ∀ c ∈ w.path, isPathChar c = true

/-- The port as a number. -/
def portNumber (w : WebUrl) : Option ℕ := (w.port.bind portText).map decValue

/-- The host as it stands in a key. -/
def hostKey (w : WebUrl) : Text := rstrip (· == '.') (w.host.map Char.toLower)

end WebUrl

/-! ### The parts of a URL are found -/

section
variable {w : WebUrl} (hw : w.WellFormed k)
include hw

theorem WebUrl.WellFormed.scheme_chars {c : Char} (hc : c ∈ w.scheme) : c.isAlpha = true := by
  have hmem : c.toLower ∈ "https".toList := by
    rw [← show "https".toList.map Char.toLower = "https".toList by decide, ← hw.scheme]
    exact List.mem_map_of_mem hc
  have hascii : isAsciiChar c = true := by
    by_contra hno
    rw [Bool.not_eq_true] at hno
    rw [toLower_of_not_ascii hno] at hmem
    have hall : ("https".toList.all isAsciiChar) = true := by decide
    rw [List.all_eq_true.mp hall c hmem] at hno
    exact Bool.false_ne_true hno.symm
  exact CharTables.forall_ascii (p := fun c => c.toLower ∈ "https".toList → c.isAlpha = true)
    (by decide) hascii hmem

theorem WebUrl.WellFormed.scheme_ne_nil : w.scheme ≠ [] := by
  intro hnil
  have := hw.scheme.length_eq
  rw [hnil] at this
  exact absurd this (by decide)

theorem WebUrl.WellFormed.port_chars {s : Text} (hs : s ∈ w.port) {c : Char} (hc : c ∈ s) :
    isAsciiChar c = true ∧ c.isDigit = true := by
  rcases hw.port s hs with rfl | ⟨hdecimal, -⟩
  · exact absurd hc List.not_mem_nil
  · have hdigit := List.all_eq_true.mp (Bool.and_eq_true_iff.mp hdecimal).2 c hc
    refine ⟨decide_eq_true (toNat_lt_of_isAlphanum ?_), hdigit⟩
    rw [Char.isAlphanum, hdigit, Bool.or_true]

theorem WebUrl.WellFormed.mem_port {c : Char} (hc : c ∈ announced ':' w.port) :
    c = ':' ∨ isAsciiChar c = true ∧ c.isDigit = true := by
  cases hport : w.port with
  | none =>
    rw [hport] at hc
    exact absurd hc List.not_mem_nil
  | some s =>
    rw [hport] at hc
    exact (List.mem_cons.mp hc).imp_right fun hc => hw.port_chars hport hc

theorem WebUrl.WellFormed.host_char {c : Char} (hc : c ∈ w.host) :
    isAsciiChar c = true ∧ isDelim c = false ∧ isUnsafe c = false ∧ c ≠ '@' ∧ c ≠ ':' ∧
      c ≠ '[' ∧ c ≠ ']' := by
  have h := hw.host c hc
  simpa only [WebUrl.isHostChar, Bool.and_eq_true, Bool.not_eq_true', bne_iff_ne, ne_eq,
    and_assoc] using h

/-- What the netloc is made of passes every check. -/
theorem WebUrl.WellFormed.netloc_char {c : Char} (hc : c ∈ w.netloc) :
    isDelim c = false ∧ isUnsafe c = false ∧ c ≠ '[' ∧ c ≠ ']' ∧
      (k.hides c = true → isAsciiChar c = true) := by
  rw [WebUrl.netloc, List.mem_append, List.mem_append] at hc
  rcases hc with hc | hc | hc
  · cases huser : w.user with
    | none =>
      rw [huser] at hc
      exact absurd hc List.not_mem_nil
    | some s =>
      rw [huser] at hc
      rcases List.mem_append.mp hc with hc | hc
      · exact hw.user s huser c hc
      · rw [List.mem_singleton.mp hc]
        exact ⟨by decide, by decide, by decide, by decide, fun _ => by decide⟩
  · obtain ⟨hascii, hdelim, hsafe, -, -, hopen, hclose⟩ := hw.host_char hc
    exact ⟨hdelim, hsafe, hopen, hclose, fun _ => hascii⟩
  · rcases hw.mem_port hc with rfl | ⟨hascii, hdigit⟩
    · exact ⟨by decide, by decide, by decide, by decide, fun _ => by decide⟩
    · have hplain : isDelim c = false ∧ isUnsafe c = false ∧ c ≠ '[' ∧ c ≠ ']' :=
        CharTables.forall_ascii (p := fun c => c.isDigit = true →
          isDelim c = false ∧ isUnsafe c = false ∧ c ≠ '[' ∧ c ≠ ']') (by decide) hascii hdigit
      exact ⟨hplain.1, hplain.2.1, hplain.2.2.1, hplain.2.2.2, fun _ => hascii⟩

theorem WebUrl.WellFormed.path_char {c : Char} (hc : c ∈ w.path) :
    isSpace c = false ∧ c ≠ '?' ∧ c ≠ '#' := by
  have h := hw.path c hc
  simpa only [WebUrl.isPathChar, Bool.and_eq_true, Bool.not_eq_true', bne_iff_ne, ne_eq,
    and_assoc] using h

omit hw in
theorem isUnsafe_of_not_space {c : Char} (h : isSpace c = false) : isUnsafe c = false := by
  rw [isUnsafe, Bool.or_eq_false_iff, Bool.or_eq_false_iff, beq_eq_false_iff_ne,
    beq_eq_false_iff_ne, beq_eq_false_iff_ne]
  refine ⟨⟨?_, ?_⟩, ?_⟩
  all_goals
    rintro rfl
    exact absurd h (by decide)

/-- What follows the path begins with the character that ends it. -/
def EndsPath (t : Text) : Prop := ∀ c ∈ t.head?, c = '?' ∨ c = '#'

omit hw in
theorem endsPath_tail (w : WebUrl) : EndsPath w.tail := by
  intro c hc
  rw [WebUrl.tail] at hc
  cases hq : w.query with
  | some q =>
    rw [hq] at hc
    exact .inl (Option.some.inj hc).symm
  | none =>
    rw [hq] at hc
    cases hf : w.fragment with
    | some f =>
      rw [hf] at hc
      exact .inr (Option.some.inj hc).symm
    | none =>
      rw [hf] at hc
      exact absurd hc (by simp [announced])

omit hw in
theorem EndsPath.rstrip {t : Text} (h : EndsPath t) : EndsPath (rstrip isSpace t) := by
  intro c hc
  obtain ⟨r, hr⟩ := List.head?_eq_some_iff.mp hc
  have hpre : PyText.rstrip isSpace t <+: t := List.rdropWhile_prefix isSpace t
  rw [hr] at hpre
  obtain ⟨s, rfl⟩ := hpre
  exact h c rfl

omit hw in
theorem EndsPath.removeUnsafe {t : Text} (h : EndsPath t) : EndsPath (removeUnsafe t) := by
  cases t with
  | nil => exact h
  | cons d t =>
    have hd := h d rfl
    have hkeep : (!isUnsafe d) = true := by
      rcases hd with rfl | rfl <;> decide
    intro c hc
    rw [UrlParse.removeUnsafe, List.filter_cons_of_pos (p := fun c => !isUnsafe c) hkeep] at hc
    rw [← Option.some.inj hc]
    exact hd

omit hw in
theorem EndsPath.partition_eq {t : Text} (h : EndsPath t) :
    (partition '?' (partition '#' t).1).1 = [] := by
  cases t with
  | nil => rfl
  | cons c t => rcases h c rfl with rfl | rfl <;> rfl

/-- White space is stripped off query and fragment only. -/
theorem WebUrl.WellFormed.strip_text : strip isSpace w.text =
    w.scheme ++ ':' :: '/' :: '/' :: (w.netloc ++ (w.path ++ rstrip isSpace w.tail)) := by
  obtain ⟨c, s, hs⟩ := List.exists_cons_of_ne_nil hw.scheme_ne_nil
  have hc : isSpace c = false := by
    have hletter : c.isAlpha = true := hw.scheme_chars (by rw [hs]; exact List.mem_cons_self)
    have hascii : isAsciiChar c = true :=
      decide_eq_true (toNat_lt_of_isAlphanum (by rw [Char.isAlphanum, hletter, Bool.true_or]))
    exact CharTables.forall_ascii (p := fun c => c.isAlpha = true → isSpace c = false) (by decide)
      hascii hletter
  have hfront : lstrip isSpace w.text = w.text := by
    rw [WebUrl.text, hs, List.cons_append, lstrip,
      List.dropWhile_cons_of_neg (by rw [hc]; exact Bool.false_ne_true)]
  have hcut : ∀ t, w.scheme ++ ':' :: '/' :: '/' :: (w.netloc ++ (w.path ++ t)) =
      (w.scheme ++ ':' :: '/' :: '/' :: (w.netloc ++ w.path)) ++ t := by
    intro t
    simp
  have hne : w.path ≠ [] := by
    intro hnil
    have := hw.root
    rw [hnil] at this
    cases this
  rw [strip, hfront, WebUrl.text, hcut, hcut, rstrip_append_left]
  intro d hd
  have hassoc : w.scheme ++ ':' :: '/' :: '/' :: (w.netloc ++ w.path) =
      (w.scheme ++ ':' :: '/' :: '/' :: w.netloc) ++ w.path := by simp
  rw [hassoc, List.getLast?_append_of_ne_nil _ hne] at hd
  exact (hw.path_char (List.mem_of_getLast? hd)).1

theorem WebUrl.WellFormed.schemeOf_text (t : Text) :
    schemeOf (w.scheme ++ ':' :: '/' :: '/' :: (w.netloc ++ (w.path ++ t))) =
      ("https".toList, '/' :: '/' :: (w.netloc ++ (w.path ++ removeUnsafe t))) := by
  obtain ⟨c, s, hs⟩ := List.exists_cons_of_ne_nil hw.scheme_ne_nil
  have hletter : c.isAlpha = true := hw.scheme_chars (by rw [hs]; exact List.mem_cons_self)
  have hchar : ∀ d ∈ w.scheme, isSchemeChar d = true := by
    intro d hd
    rw [isSchemeChar, Char.isAlphanum, hw.scheme_chars hd]
    rfl
  have hfront : ∀ r, lstrip isC0OrSpace (w.scheme ++ r) = w.scheme ++ r := by
    intro r
    rw [hs, List.cons_append, lstrip,
      List.dropWhile_cons_of_neg (by rw [isAlpha_not_space hletter]; exact Bool.false_ne_true)]
  have hkeep : ∀ r : Text, (∀ d ∈ r, isUnsafe d = false) → removeUnsafe r = r := by
    intro r hr
    rw [removeUnsafe, List.filter_eq_self]
    intro d hd
    rw [hr d hd]
    rfl
  have hsafe : removeUnsafe (w.scheme ++ ':' :: '/' :: '/' :: (w.netloc ++ (w.path ++ t))) =
      w.scheme ++ ':' :: '/' :: '/' :: (w.netloc ++ (w.path ++ removeUnsafe t)) := by
    have hscheme := hkeep w.scheme fun d hd => (isSchemeChar_lt (hchar d hd)).2
    have hnetloc := hkeep w.netloc fun d hd => (hw.netloc_char hd).2.1
    have hpath := hkeep w.path fun d hd => isUnsafe_of_not_space (hw.path_char hd).1
    rw [removeUnsafe] at hscheme hnetloc hpath ⊢
    rw [List.filter_append, hscheme, List.filter_cons_of_pos (by decide),
      List.filter_cons_of_pos (by decide), List.filter_cons_of_pos (by decide),
      List.filter_append, hnetloc, List.filter_append, hpath]
    rfl
  have hcolon : ':' ∉ w.scheme := fun h => (isSchemeChar_lt (hchar _ h)).1 rfl
  have hhead : w.scheme.head?.any Char.isAlpha = true := by
    rw [hs]
    exact hletter
  rw [schemeOf, hfront, hsafe]
  simp only [splitScheme, partition_append hcolon, hhead, List.all_eq_true.mpr hchar,
    Bool.and_self, if_true]
  rw [show w.scheme.map Char.toLower = "https".toList from hw.scheme.trans (by decide)]

/-- **The text of a URL is split into its parts**; of the path nothing is lost. -/
theorem WebUrl.WellFormed.urlsplit_text (hu : UnicodeRules u k) :
    ∃ query fragment, urlsplit u (strip isSpace w.text) =
      .ok ⟨"https".toList, w.netloc, w.path, query, fragment⟩ := by
  set t := removeUnsafe (PyText.rstrip isSpace w.tail) with ht
  have hends : EndsPath t := (endsPath_tail w).rstrip.removeUnsafe
  obtain ⟨r, hroot⟩ := List.head?_eq_some_iff.mp hw.root
  have hcut : cutNetloc ('/' :: '/' :: (w.netloc ++ (w.path ++ t))) = (w.netloc, w.path ++ t) := by
    refine cutNetloc_append (fun c hc => (hw.netloc_char hc).1) fun c hc => ?_
    rw [hroot] at hc
    rw [← Option.some.inj hc]
    decide
  have hhash : '#' ∉ w.path := fun h => (hw.path_char h).2.2 rfl
  have hmark : '?' ∉ w.path := fun h => (hw.path_char h).2.1 rfl
  -- nothing stands between the path and the question mark
  have hpath : (partition '?' (w.path ++ (partition '#' t).1)).1 = w.path := by
    rw [partition_append_left hmark, hends.partition_eq]
    exact List.append_nil _
  refine ⟨(restParts "https".toList ('/' :: '/' :: (w.netloc ++ (w.path ++ t)))).query,
    (restParts "https".toList ('/' :: '/' :: (w.netloc ++ (w.path ++ t)))).fragment, ?_⟩
  rw [hw.strip_text, urlsplit_eq, hw.schemeOf_text, ← ht, splitRest_ok_iff, hcut]
  refine ⟨?_, checkBrackets_none ?_ ?_, (checknetloc_iff hu ?_).mpr ?_⟩
  · rw [restParts]
    simp only [hcut, partition_append_left hhash]
    rw [hpath]
  · exact fun h => (hw.netloc_char h).2.2.1 rfl
  · exact fun h => (hw.netloc_char h).2.2.2.1 rfl
  · exact fun h => absurd (hw.netloc_char h).1 (by decide)
  · exact fun c hc => (hw.netloc_char hc).2.2.2.2

theorem WebUrl.WellFormed.notMem_host {c : Char} (hc : WebUrl.isHostChar c = false) :
    c ∉ w.host := by
  intro h
  rw [hw.host c h] at hc
  exact Bool.false_ne_true hc.symm

theorem WebUrl.WellFormed.notMem_port {c : Char} (hcolon : c ≠ ':') (hdigit : c.isDigit = false) :
    c ∉ announced ':' w.port := by
  intro h
  rcases hw.mem_port h with h | ⟨-, h⟩
  · exact hcolon h
  · rw [hdigit] at h
    exact Bool.false_ne_true h

theorem WebUrl.WellFormed.hostinfo_eq {p : SplitResult} (hp : p.netloc = w.netloc) :
    p.hostinfo = (w.host, w.port.bind portText) := by
  have hno : ∀ c, WebUrl.isHostChar c = false → c ≠ ':' → c.isDigit = false →
      c ∉ w.host ++ announced ':' w.port := by
    intro c hc hcolon hdigit
    rw [List.mem_append, not_or]
    exact ⟨hw.notMem_host hc, hw.notMem_port hcolon hdigit⟩
  have hat : (rpartition '@' p.netloc).2.2 = w.host ++ announced ':' w.port := by
    have hmem := hno '@' (by decide) (by decide) (by decide)
    rw [hp, WebUrl.netloc]
    cases w.user with
    | none =>
      rw [Option.elim_none, List.nil_append, rpartition_of_notMem hmem]
    | some s =>
      rw [Option.elim_some, List.append_assoc, List.singleton_append, rpartition_append hmem]
  have hcolon : ':' ∉ w.host := hw.notMem_host (by decide)
  have hcut : partition ':' (w.host ++ announced ':' w.port) =
      (w.host, w.port.isSome, w.port.getD []) := by
    cases w.port with
    | none => rw [announced, List.append_nil, partition_of_notMem hcolon]; rfl
    | some s => rw [announced, partition_append hcolon]; rfl
  rw [SplitResult.hostinfo, hat]
  simp only [partition_of_notMem (hno '[' (by decide) (by decide) (by decide)), hcut]
  cases w.port <;> rfl

theorem WebUrl.WellFormed.port_eq {p : SplitResult} (hp : p.netloc = w.netloc) :
    p.port u = .ok w.portNumber := by
  rw [UrlParse.port_eq, hw.hostinfo_eq hp, WebUrl.portNumber]
  cases hport : w.port with
  | none => rfl
  | some s =>
    rcases hw.port s hport with rfl | ⟨hdecimal, hle⟩
    · rfl
    · have hne : s.isEmpty = false := by
        rw [isDecimal, Bool.and_eq_true, Bool.not_eq_true'] at hdecimal
        exact hdecimal.1
      rw [Option.bind_some, portText, hne, if_neg Bool.false_ne_true, portOf, hdecimal,
        if_neg (by decide), if_neg (Nat.not_lt.mpr hle)]
      rfl

omit hw in
theorem rstrip_map_toLower (s : Text) :
    rstrip (· == '.') (s.map Char.toLower) = (rstrip (· == '.') s).map Char.toLower := by
  have hdot : (fun c => c == '.') ∘ Char.toLower = fun c => c == '.' := by
    funext c
    rw [Function.comp_apply, Bool.eq_iff_iff, beq_iff_eq, beq_iff_eq,
      toLower_eq_iff (by decide) (by decide)]
  rw [rstrip, rstrip, ← List.map_reverse, List.dropWhile_map, hdot, List.map_reverse]

omit hw in
/-- A host of ASCII differs from its lower case in letter case only. -/
theorem lowerHost_sameLetters {host : Text} (h : isAscii host = true) :
    SameLetters (lowerHost u host) host ∧ isAscii (lowerHost u host) = true := by
  rw [lowerHost]
  rcases partition_cases '%' host with ⟨-, heq⟩ | ⟨name, zone, rfl, -, heq⟩
  · simp only [heq, lower_of_ascii h, Bool.false_eq_true, if_false, List.append_nil]
    exact ⟨map_toLower_idem host, isAscii_map_toLower h⟩
  · rw [isAscii, List.all_append, ← isAscii, Bool.and_eq_true, List.all_cons,
      Bool.and_eq_true] at h
    simp only [heq, lower_of_ascii h.1, if_true, List.append_assoc, List.singleton_append]
    refine ⟨SameLetters.append (map_toLower_idem name) rfl, ?_⟩
    rw [isAscii, List.all_append, ← isAscii, isAscii_map_toLower h.1, List.all_cons, h.2.1, h.2.2]
    rfl

theorem WebUrl.WellFormed.hostKey_ne_nil : w.hostKey ≠ [] := by
  obtain ⟨c, hc, hdot⟩ := hw.name
  have hmem : c.toLower ∈ w.host.map Char.toLower := List.mem_map_of_mem hc
  refine List.ne_nil_of_mem (mem_rstrip hmem (beq_eq_false_iff_ne.mpr ?_))
  rwa [ne_eq, toLower_eq_iff (by decide) (by decide)]

theorem WebUrl.WellFormed.asciiHost_eq (t : HostTables) :
    asciiHost t (lowerHost t.unicode w.host) = .ok w.hostKey := by
  have hascii : isAscii w.host = true := List.all_eq_true.mpr fun c hc => (hw.host_char hc).1
  obtain ⟨hsame, hlower⟩ := lowerHost_sameLetters (u := t.unicode) hascii
  have hrstrip : isAscii (PyText.rstrip (· == '.') (lowerHost t.unicode w.host)) = true :=
    List.all_eq_true.mpr fun c hc => List.all_eq_true.mp hlower c (mem_of_mem_rstrip hc)
  have hbare : bareName t (lowerHost t.unicode w.host) = w.hostKey := by
    rw [bareName, lower_of_ascii hrstrip, ← rstrip_map_toLower, hsame, WebUrl.hostKey]
  refine asciiHost_eq_ok.mpr ?_
  rw [hbare]
  refine ⟨hw.hostKey_ne_nil, .inl ⟨?_, rfl⟩⟩
  rw [← hbare, bareName, lower_of_ascii hrstrip]
  exact isAscii_map_toLower hrstrip

theorem WebUrl.WellFormed.hostKey_char {c : Char} (hc : c ∈ w.hostKey) :
    WebUrl.isHostChar c = true := by
  obtain ⟨d, hd, rfl⟩ := List.mem_map.mp (mem_of_mem_rstrip hc)
  exact CharTables.forall_ascii (p := fun d => WebUrl.isHostChar d = true →
    WebUrl.isHostChar d.toLower = true) (by decide) (hw.host_char hd).1 (hw.host d hd)

theorem WebUrl.WellFormed.key_netloc {c : Char} {e : Option ℕ} (hc : c ∈ hostPort w.hostKey e) :
    isAsciiChar c = true ∧ isDelim c = false ∧ isUnsafe c = false ∧ c ≠ '[' ∧ c ≠ ']' := by
  have hcolon : ':' ∉ w.hostKey := fun h => absurd (hw.hostKey_char h) (by decide)
  rw [hostPort, bracketed_of_notMem hcolon, List.mem_append] at hc
  rcases hc with hc | hc
  · have h := hw.hostKey_char hc
    simp only [WebUrl.isHostChar, Bool.and_eq_true, Bool.not_eq_true', bne_iff_ne, ne_eq] at h
    obtain ⟨⟨⟨⟨⟨⟨hascii, hdelim⟩, hsafe⟩, -⟩, -⟩, hopen⟩, hclose⟩ := h
    exact ⟨hascii, hdelim, hsafe, hopen, hclose⟩
  · rcases mem_portSuffix hc with rfl | ⟨hascii, hdigit⟩
    · decide
    · exact ⟨hascii, CharTables.forall_ascii (p := fun c => c.isDigit = true →
        isDelim c = false ∧ isUnsafe c = false ∧ c ≠ '[' ∧ c ≠ ']') (by decide) hascii hdigit⟩

/-- **The key of a URL** is made of its host, its port and the key of its path. -/
theorem webhookKey_text {t : HostTables} (hu : UnicodeRules t.unicode k) :
    webhookKey t w.text = .ok ("https://".toList ++
      hostPort w.hostKey (extraPort "https".toList w.portNumber) ++ pathKey t.unicode w.path) := by
  obtain ⟨query, fragment, hsplit⟩ := hw.urlsplit_text hu
  set p : SplitResult := ⟨"https".toList, w.netloc, w.path, query, fragment⟩ with hp
  have hscheme : p.scheme = "https".toList := rfl
  have hpath : p.path = w.path := rfl
  have hcanon : Canonical t w.text p w.portNumber w.hostKey := by
    refine ⟨hsplit, hw.port_eq rfl, ?_⟩
    rw [hw.hostinfo_eq (p := p) rfl]
    exact hw.asciiHost_eq t
  set netloc := hostPort w.hostKey (extraPort "https".toList w.portNumber) with hnetloc
  have hcanonical :
      canonicalUrl t w.text = .ok (urlText "https".toList netloc (pathAndQuery p)) := by
    rw [hcanon.url_eq hw.hostKey_ne_nil, canonicalText, hscheme]
  -- the canonical spelling is split once more
  have hsafe : ∀ c ∈ pathAndQuery p, isUnsafe c = false ∧ c ≠ '#' := by
    intro c hc
    have hwf := hcanon.wellFormed
    rcases mem_pathAndQuery hc with hc | hc | rfl | rfl
    · exact ⟨hwf.safe c (by simp [hc]), (hwf.path c hc).2⟩
    · refine ⟨hwf.safe c (by simp [hc]), ?_⟩
      rintro rfl
      exact hwf.query hc
    · decide
    · decide
  have hascii : isAscii netloc = true := List.all_eq_true.mpr fun c hc => (hw.key_netloc hc).1
  have hagain : urlsplit t.unicode (urlText "https".toList netloc (pathAndQuery p)) = _ :=
    urlsplit_urlText (.inr ⟨by decide, List.all_eq_true.mp (by decide), by decide⟩)
      (fun c hc => ⟨(hw.key_netloc hc).2.1, (hw.key_netloc hc).2.2.1⟩) hcanon.pathAndQuery_head
      hsafe
  rw [checkBrackets_none (fun h => (hw.key_netloc h).2.2.2.1 rfl)
    (fun h => (hw.key_netloc h).2.2.2.2 rfl), checknetloc, hascii, Bool.or_true, if_pos rfl]
    at hagain
  have hmark : '?' ∉ w.path := fun h => (hw.path_char h).2.1 rfl
  have hcut : (partition '?' (pathAndQuery p)).1 = w.path := by
    rw [pathAndQuery_eq, hpath, orSlash_of_head hw.root, partition_append_left hmark]
    suffices h : (partition '?' (if p.query = [] then [] else '?' :: p.query)).1 = [] by
      dsimp only
      rw [h, List.append_nil]
    split <;> rfl
  rw [webhookKey, hcanonical]
  simp only [hagain, bind, Except.bind, pure, Except.pure, hcut]
  simp

end

/-! ### Respelled URLs -/

/-- One respelling of a URL. -/
inductive Variant : WebUrl → WebUrl → Prop
  | query (w : WebUrl) (q : Option Text) : Variant w { w with query := q }
  | fragment (w : WebUrl) (f : Option Text) : Variant w { w with fragment := f }
  | addPort {w : WebUrl} (h : w.port = none) : Variant w { w with port := some "443".toList }
  | dropPort {w : WebUrl} (h : w.port = some "443".toList) : Variant w { w with port := none }
  | host {w : WebUrl} {host : Text} (h : SameLetters w.host host) :
      Variant w { w with host := host }
  | path {w : WebUrl} {path : Text} (h : PathStep w.path path) : Variant w { w with path := path }

/-- A property of characters that letter case does not change holds of both texts. -/
theorem forall_of_sameLetters {p : Char → Prop} (hp : ∀ c, p c.toLower ↔ p c) {s s' : Text}
    (h : SameLetters s s') (hs : ∀ c ∈ s, p c) : ∀ c ∈ s', p c := by
  intro c hc
  have hmem : c.toLower ∈ s.map Char.toLower := by
    rw [h]
    exact List.mem_map_of_mem hc
  obtain ⟨d, hd, hdc⟩ := List.mem_map.mp hmem
  rw [← hp, ← hdc, hp]
  exact hs d hd

theorem isHostChar_toLower (c : Char) :
    WebUrl.isHostChar c.toLower = true ↔ WebUrl.isHostChar c = true :=
  toLower_cases (p := fun c d => WebUrl.isHostChar d = true ↔ WebUrl.isHostChar c = true)
    (by decide) (fun _ _ => Iff.rfl) c

theorem isPathChar_toLower (c : Char) :
    WebUrl.isPathChar c.toLower = true ↔ WebUrl.isPathChar c = true :=
  toLower_cases (p := fun c d => WebUrl.isPathChar d = true ↔ WebUrl.isPathChar c = true)
    (by decide) (fun _ _ => Iff.rfl) c

theorem isPathChar_of_safe {c : Char} (hc : isAlwaysSafe c = true) :
    WebUrl.isPathChar c = true :=
  CharTables.forall_ascii (p := fun c => isAlwaysSafe c = true → WebUrl.isPathChar c = true)
    (by decide) (isAsciiChar_of_isAlwaysSafe hc) hc

theorem isPathChar_of_mem_escape {c d : Char} (hd : d ∈ escape c) :
    WebUrl.isPathChar d = true := by
  obtain ⟨b, -, hb⟩ := List.mem_flatMap.mp hd
  have hlt : b.toNat < 256 := UInt8.toNat_lt b
  rw [pctByte, List.mem_cons, List.mem_cons, List.mem_singleton] at hb
  rcases hb with rfl | rfl | rfl
  · decide
  · exact isPathChar_of_safe (pctDigit (by omega)).2.2
  · exact isPathChar_of_safe (pctDigit (by omega)).2.2

/-- A path that begins with a slash and has no white space in it. -/
def IsPath (p : Text) : Prop := p.head? = some '/' ∧ ∀ c ∈ p, WebUrl.isPathChar c = true

/-- Respelled paths are paths. -/
theorem PathStep.isPath {p p' : Text} (h : PathStep p p') (hp : IsPath p) : IsPath p' := by
  obtain ⟨hroot, hchars⟩ := hp
  have hslash : WebUrl.isPathChar '/' = true := by decide
  have hhead : ∀ (a b b' : Text) (s : Char), (a ++ s :: b).head? = some '/' →
      (a ++ s :: b').head? = some '/' := by
    intro a b b' s h
    cases a with
    | nil => exact h
    | cons x a => exact h
  have hfront : ∀ {a : Text} (b b' : Text), a ≠ [] → (a ++ b).head? = some '/' →
      (a ++ b').head? = some '/' := by
    intro a b b' ha h
    rwa [List.head?_append_of_ne_nil _ ha] at h ⊢
  cases h with
  | letterCase h =>
    refine ⟨?_, forall_of_sameLetters isPathChar_toLower h hchars⟩
    have hlower := congrArg List.head? h
    rw [List.head?_map, List.head?_map, hroot] at hlower
    obtain ⟨c, hc, heq⟩ := Option.map_eq_some_iff.mp hlower.symm
    rwa [(toLower_eq_iff (by decide) (by decide)).mp heq] at hc
  | @encode a b c ha hc hin =>
    rw [List.forall_mem_append, List.forall_mem_cons] at hchars
    refine ⟨hfront _ _ ha hroot, ?_⟩
    rw [List.forall_mem_append, List.forall_mem_append]
    exact ⟨hchars.1, fun d hd => isPathChar_of_mem_escape hd, hchars.2.2⟩
  | @backslash a b ha =>
    rw [List.forall_mem_append, List.forall_mem_cons] at hchars
    refine ⟨hfront _ _ ha hroot, ?_⟩
    rw [List.forall_mem_append, List.forall_mem_cons]
    exact ⟨hchars.1, by decide, hchars.2.2⟩
  | slashes hs =>
    rw [List.forall_mem_append, List.forall_mem_cons] at hchars
    refine ⟨hhead _ _ _ _ hroot, ?_⟩
    rw [List.forall_mem_append, List.forall_mem_cons, List.forall_mem_cons]
    exact ⟨hchars.1, hchars.2.1, hchars.2.1, hchars.2.2⟩
  | trailing =>
    refine ⟨?_, ?_⟩
    · rw [List.head?_append, hroot]
      rfl
    · rw [List.forall_mem_append]
      exact ⟨hchars, by simpa using hslash⟩
  | dot hs =>
    rw [List.forall_mem_append, List.forall_mem_cons] at hchars
    refine ⟨hhead _ _ _ _ hroot, ?_⟩
    rw [List.forall_mem_append, List.forall_mem_cons, List.forall_mem_cons, List.forall_mem_cons]
    exact ⟨hchars.1, hchars.2.1, by decide, hslash, hchars.2.2⟩
  | up hs hx =>
    rw [List.forall_mem_append, List.forall_mem_cons] at hchars
    refine ⟨hhead _ _ _ _ hroot, ?_⟩
    rw [List.forall_mem_append, List.forall_mem_cons, List.forall_mem_append]
    refine ⟨hchars.1, hchars.2.1, fun c hc => isPathChar_of_safe (hx c hc), ?_⟩
    rw [List.forall_mem_cons, List.forall_mem_cons, List.forall_mem_cons, List.forall_mem_cons]
    exact ⟨hslash, by decide, by decide, hslash, hchars.2.2⟩
  | params ha hb hx =>
    rw [List.forall_mem_append] at hchars
    refine ⟨hfront _ _ ha hroot, ?_⟩
    rw [List.forall_mem_append, List.forall_mem_cons, List.forall_mem_append]
    refine ⟨hchars.1, by decide, fun c hc => ?_, hchars.2⟩
    rcases hx c hc with h | rfl
    · exact isPathChar_of_safe h
    · decide

/-- Respelled URLs are well formed. -/
theorem Variant.wellFormed {w w' : WebUrl} (h : Variant w w') (hw : w.WellFormed k) :
    w'.WellFormed k := by
  cases h with
  | query q => exact { hw with }
  | fragment f => exact { hw with }
  | addPort h =>
    refine { hw with port := fun s hs => ?_ }
    obtain rfl := Option.some.inj hs
    exact .inr ⟨by decide, by decide⟩
  | dropPort h => exact { hw with port := fun s hs => absurd hs (by simp) }
  | host h =>
    refine { hw with host := forall_of_sameLetters isHostChar_toLower h hw.host, name := ?_ }
    by_contra hno
    obtain ⟨c, hc, hdot⟩ := hw.name
    refine hdot (forall_of_sameLetters (p := (· = '.'))
      (fun _ => toLower_eq_iff (by decide) (by decide)) h.symm (fun d hd => ?_) c hc)
    by_contra hd'
    exact hno ⟨d, hd, hd'⟩
  | path h =>
    obtain ⟨hroot, hpath⟩ := h.isPath ⟨hw.root, hw.path⟩
    exact { hw with root := hroot, path := hpath }

/-- **No respelling of a URL changes its key.** -/
theorem Variant.webhookKey_eq {t : HostTables} (hu : UnicodeRules t.unicode k) {w w' : WebUrl}
    (h : Variant w w') (hw : w.WellFormed k) : webhookKey t w'.text = webhookKey t w.text := by
  rw [webhookKey_text (h.wellFormed hw) hu, webhookKey_text hw hu]
  cases h with
  | query q => rfl
  | fragment f => rfl
  | addPort h =>
    have hnone : w.portNumber = none := by rw [WebUrl.portNumber, h]; rfl
    rw [hnone]
    rfl
  | dropPort h =>
    have hdefault : w.portNumber = some 443 := by rw [WebUrl.portNumber, h]; rfl
    rw [hdefault]
    rfl
  | host h =>
    have hkey : ∀ host, SameLetters w.host host →
        WebUrl.hostKey { w with host := host } = w.hostKey := by
      intro host h
      rw [WebUrl.hostKey, WebUrl.hostKey, h]
    rw [hkey _ h]
    rfl
  | path h =>
    rw [h.pathKey_eq hu]
    rfl

/-- **Spelling variants of a webhook URL share a key**, however they are combined: it is made
of the host, the port and the key of the path, and that is resolved. -/
theorem webhookKey_of_variants {t : HostTables} (hu : UnicodeRules t.unicode k) :
    (∀ w : WebUrl, w.WellFormed k →
      webhookKey t w.text = .ok ("https://".toList ++
        hostPort w.hostKey (extraPort "https".toList w.portNumber) ++ pathKey t.unicode w.path) ∧
      ∀ w', Relation.ReflTransGen Variant w w' → webhookKey t w'.text = webhookKey t w.text) ∧
    ∀ path, Resolved (pathKey t.unicode path) := by
  refine ⟨fun w hw => ⟨webhookKey_text hw hu, fun w' h => ?_⟩, pathKey_resolved hu⟩
  suffices hboth : w'.WellFormed k ∧ webhookKey t w'.text = webhookKey t w.text from hboth.2
  induction h with
  | refl => exact ⟨hw, rfl⟩
  | tail _ hstep ih => exact ⟨hstep.wellFormed ih.1, (hstep.webhookKey_eq hu ih.1).trans ih.2⟩

/-- The host of the example, with a path to respell. -/
def bookHook (path : Text) : WebUrl :=
  ⟨"https".toList, none, "Hooks.Example.org".toList, none, path, some "a=1".toList, none⟩

theorem bookHook_wellFormed : (bookHook "/in".toList).WellFormed asciiChars where
  scheme := rfl
  user _ hs := absurd hs (by simp [bookHook])
  host := List.all_eq_true.mp (by decide)
  name := ⟨'H', by decide, by decide⟩
  port _ hs := absurd hs (by simp [bookHook])
  root := by decide
  path := List.all_eq_true.mp (by decide)

theorem webhookKey_of_variants_books :
    webhookKey bookHosts
        { bookHook ("/in".toList ++ ['/']) with port := some "443".toList }.text =
      webhookKey bookHosts (bookHook "/in".toList).text ∧
    Resolved (pathKey bookHosts.unicode "/x/%2e./In;v=1".toList) :=
  ⟨((webhookKey_of_variants basicUnicode_rules).1 _ bookHook_wellFormed).2 _
    (.tail (.single (.addPort rfl)) (.path (.trailing _))),
    (webhookKey_of_variants basicUnicode_rules).2 _⟩

end Targets
