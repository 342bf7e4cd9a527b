/-
Percent-escapes in the patterns of a robots.txt and in a URL.

* `rule_respelled` — a respelled pattern matches the same paths;
* `SpelledLine`, `RespelledText`, `RespelledUrl` — what may be respelled;
* `rulesFor_forall₂` — the pass on two texts whose patterns correspond;
* `exists_edit` — the pattern of a line can be replaced;
* `reach` — how long the pattern of a rule can become.

Main result: `canFetch_respelled_iff`.
-/
import Newsforge.PercentSpelling
import Newsforge.RobotsGroups
import Newsforge.RobotsMatch
import Newsforge.TextLines

open PyText UrlParse SafeHttp Percent Groups

namespace Robots

variable {u : UnicodeTables} {token : Text}

/-! ### A rule -/

theorem normalizePath_respelled {s s' : Text} (h : Respelled s s') :
    normalizePath s' = normalizePath s := by
  rw [normalizePath, normalizePath, h.unquote_eq]

/-- The anchor is not respelled. -/
theorem anchor_respelled {v v' : Text} (h : Respelled v v') :
    v'.getLast? = some '$' ↔ v.getLast? = some '$' := by
  constructor
  · intro hlast
    refine (h.getLast? hlast).resolve_right ?_
    decide
  · intro hlast
    obtain ⟨s, rfl⟩ := List.getLast?_eq_some_iff.mp hlast
    obtain ⟨s', t', rfl, -, ht⟩ := h.cut (by rintro c ⟨rfl⟩; decide)
    cases ht with
    | keep hno ht =>
      cases ht
      exact List.getLast?_concat
    | encode hsafe he ht => exact absurd hsafe (by decide)

theorem dropLast_respelled {v v' : Text} (h : Respelled v v') (hlast : v.getLast? = some '$') :
    Respelled v.dropLast v'.dropLast := by
  obtain ⟨s, rfl⟩ := List.getLast?_eq_some_iff.mp hlast
  obtain ⟨s', t', rfl, hs, ht⟩ := h.cut (by rintro c ⟨rfl⟩; decide)
  cases ht with
  | keep hno ht =>
    cases ht
    rwa [List.dropLast_concat, List.dropLast_concat]
  | encode hsafe he ht => exact absurd hsafe (by decide)

/-- **Matching does not see the spelling**: only the pattern differs. -/
theorem rule_respelled {v v' : Text} (allow : Bool) (h : Respelled v v') :
    rule allow v' = { rule allow v with pattern := v' } := by
  have hbody : normalizePath (if v'.getLast? = some '$' then v'.dropLast else v') =
      normalizePath (if v.getLast? = some '$' then v.dropLast else v) := by
    by_cases hlast : v.getLast? = some '$'
    · rw [if_pos hlast, if_pos ((anchor_respelled h).mpr hlast),
        normalizePath_respelled (dropLast_respelled h hlast)]
    · rw [if_neg hlast, if_neg (mt (anchor_respelled h).mp hlast), normalizePath_respelled h]
  simp only [anchor_respelled h] at hbody
  simp only [rule, anchor_respelled h, hbody]

theorem matches_respelled {v v' path : Text} {allow : Bool} (h : Respelled v v') :
    (rule allow v').matches path = (rule allow v).matches path := by
  rw [rule_respelled allow h]
  rfl

/-! ### A text and a URL -/

/-- A line whose pattern may be respelled. -/
inductive SpelledLine (u : UnicodeTables) : Text → Text → Prop
  | same (raw : Text) : SpelledLine u raw raw
  | pattern {allow : Bool} {front v v' back : Text}
      (hline : directive u (front ++ v ++ back) = some (.item (allow, v)))
      (hline' : directive u (front ++ v' ++ back) = some (.item (allow, v')))
      (h : Respelled v v') (hlen : v'.length ≤ maxPatternChars) :
      SpelledLine u (front ++ v ++ back) (front ++ v' ++ back)

/-- Texts with the same lines, up to the spelling of their patterns. -/
def RespelledText (u : UnicodeTables) (body body' : Text) : Prop :=
  List.Forall₂ (SpelledLine u) (splitlines body) (splitlines body')

/-- URLs that differ in the spelling of their path and query only. -/
def RespelledUrl (u : UnicodeTables) (url url' : Text) : Prop :=
  ∃ parts path query, urlsplit u url = .ok parts ∧
    urlsplit u url' = .ok { parts with path := path, query := query } ∧
      Respelled parts.path path ∧ Respelled parts.query query

theorem respelled_append {s s' t t' : Text} (h : Respelled s s') (ht : Respelled t t')
    (hno : NoHex t) : Respelled (s ++ t) (s' ++ t') := by
  induction h with
  | nil => exact ht
  | escape ha hb h ih => exact .escape ha hb ih
  | keep hstart h ih => exact .keep (startsEscape_append hno hstart) ih
  | encode hsafe he h ih => exact .encode hsafe he ih

/-- The path that rules are compared with does not see the spelling. -/
theorem robotsPath_respelled {parts : SplitResult} {path query : Text}
    (hpath : Respelled parts.path path) (hquery : Respelled parts.query query) :
    robotsPath { parts with path := path, query := query } = robotsPath parts := by
  have hslash : Respelled (orSlash parts.path) (orSlash path) := by
    rw [orSlash, orSlash]
    by_cases hnil : parts.path = []
    · rw [hnil, hpath.eq_nil_iff.mp hnil]
      exact .refl _
    · have hnil' : path ≠ [] := fun h => hnil (hpath.eq_nil_iff.mpr h)
      rw [if_neg (by simpa using hnil), if_neg (by simpa using hnil')]
      exact hpath
  refine normalizePath_respelled ?_
  rw [pathAndQuery, pathAndQuery]
  by_cases hnil : parts.query = []
  · rw [hnil, hquery.eq_nil_iff.mp hnil]
    exact hslash
  · have hnil' : query ≠ [] := fun h => hnil (hquery.eq_nil_iff.mpr h)
    rw [if_neg (by simpa using hnil), if_neg (by simpa using hnil')]
    refine respelled_append hslash (.keep ?_ hquery) ?_
    · exact startsEscape_eq_false fun a b t hc => absurd hc (by decide)
    · rintro c ⟨rfl⟩
      decide

/-! ### The pass on two texts -/

/-- The rules of two texts correspond. -/
inductive SameToken (R : Bool × Text → Bool × Text → Prop) :
    Token Text (Bool × Text) → Token Text (Bool × Text) → Prop
  | head (agent : Text) : SameToken R (.head agent) (.head agent)
  | item {x x' : Bool × Text} (h : R x x') : SameToken R (.item x) (.item x')

/-- The rules that two corresponding usable lines build. -/
def BuiltFrom (R : Bool × Text → Bool × Text → Prop) (r r' : Rule) : Prop :=
  ∃ x x', R x x' ∧ usable x = true ∧ r = rule x.1 x.2 ∧ r' = rule x'.1 x'.2

/-- The variables of the loop on the two texts. -/
structure Alike (R : Bool × Text → Bool × Text → Prop) (st st' : Scan) : Prop where
  own : List.Forall₂ (BuiltFrom R) st.own st'.own
  star : List.Forall₂ (BuiltFrom R) st.star st'.star
  named : st'.named = st.named
  forOwn : st'.forOwn = st.forOwn
  forStar : st'.forStar = st.forStar
  inRules : st'.inRules = st.inRules
  count : st'.count = st.count

variable {R : Bool × Text → Bool × Text → Prop}

theorem Alike.agent {st st' : Scan} (h : Alike R st st') (agent : Text) :
    Alike R (st.agent token agent) (st'.agent token agent) := by
  obtain ⟨own, star, named, forOwn, forStar, inRules, count⟩ := st
  obtain ⟨own', star', named', forOwn', forStar', inRules', count'⟩ := st'
  obtain ⟨hown, hstar, rfl, rfl, rfl, rfl, rfl⟩ := h
  simp only [Scan.agent]
  split_ifs <;> exact ⟨hown, hstar, rfl, rfl, rfl, rfl, rfl⟩

theorem Alike.rule (hR : ∀ x x', R x x' → usable x' = usable x) {st st' : Scan}
    (h : Alike R st st') {x x' : Bool × Text} (hx : R x x') :
    Alike R (st.rule x.1 x.2) (st'.rule x'.1 x'.2) := by
  rw [Scan.rule_eq, Scan.rule_eq, h.forOwn, h.forStar, h.count, hR x x' hx]
  by_cases hkeep : ((st.forOwn || st.forStar) && usable x && decide (st.count < maxRules)) = true
  · rw [if_pos hkeep, if_pos hkeep]
    rw [Bool.and_eq_true, Bool.and_eq_true] at hkeep
    have hbuilt : BuiltFrom R (Robots.rule x.1 x.2) (Robots.rule x'.1 x'.2) :=
      ⟨x, x', hx, hkeep.1.2, rfl, rfl⟩
    refine ⟨?_, ?_, h.named, rfl, rfl, rfl, rfl⟩
    · cases st.forOwn with
      | false => exact h.own
      | true => exact List.rel_append h.own (.cons hbuilt .nil)
    · cases st.forStar with
      | false => exact h.star
      | true => exact List.rel_append h.star (.cons hbuilt .nil)
  · rw [if_neg hkeep, if_neg hkeep]
    exact ⟨h.own, h.star, h.named, rfl, rfl, rfl, rfl⟩

theorem Alike.foldl (token : Text) (hR : ∀ x x', R x x' → usable x' = usable x)
    {ts ts' : List (Token Text (Bool × Text))} (hts : List.Forall₂ (SameToken R) ts ts')
    {st st' : Scan} (h : Alike R st st') :
    Alike R (ts.foldl (Scan.read token) st) (ts'.foldl (Scan.read token) st') := by
  induction hts generalizing st st' with
  | nil => exact h
  | cons ht hts ih =>
    refine ih ?_
    cases ht with
    | head agent => exact h.agent agent
    | item hx => exact h.rule hR hx

/-- Corresponding lines give corresponding rules. -/
theorem rulesFor_forall₂ (hR : ∀ x x', R x x' → usable x' = usable x) {body body' : Text}
    (h : List.Forall₂ (SameToken R) (directives u body) (directives u body')) (token : Text) :
    List.Forall₂ (BuiltFrom R) (rulesFor u body token) (rulesFor u body' token) := by
  have hend := Alike.foldl token hR h
    (⟨.nil, .nil, rfl, rfl, rfl, rfl, rfl⟩ : Alike R Scan.start Scan.start)
  rw [rulesFor, rulesFor, foldl_scanLine, foldl_scanLine, ← directives, ← directives, hend.named]
  by_cases hnamed : ((directives u body).foldl (Scan.read token) Scan.start).named = true
  · rw [if_pos hnamed, if_pos hnamed]
    exact hend.own
  · rw [if_neg hnamed, if_neg hnamed]
    exact hend.star

/-- A rule comes from a usable line. -/
theorem exists_usable_of_mem_rulesFor {body : Text} {r : Rule} (h : r ∈ rulesFor u body token) :
    ∃ x, usable x = true ∧ r = rule x.1 x.2 := by
  have hsame : List.Forall₂ (SameToken Eq) (directives u body) (directives u body) := by
    refine List.forall₂_same.mpr fun t _ => ?_
    cases t with
    | head agent => exact .head agent
    | item x => exact .item rfl
  have hrules := rulesFor_forall₂ (fun x x' hx => by rw [hx]) hsame token
  obtain ⟨-, -, x, -, -, hx, rfl, -⟩ := (Precedence.exists_mem_of_forall₂ hrules).1 r h
  exact ⟨x, hx, rfl⟩

/-! ### The pattern of a line -/

/-- What a line says depends on its key and its value. -/
theorem directive_congr {raw : Text} {allow : Bool} {v : Text}
    (h : directive u raw = some (.item (allow, v))) (raw' : Text)
    (hcolon : ':' ∈ strip isSpace (partition '#' raw').1)
    (hkey : (partition ':' (strip isSpace (partition '#' raw').1)).1 =
      (partition ':' (strip isSpace (partition '#' raw).1)).1) :
    directive u raw' =
      some (.item (allow,
        strip isSpace (partition ':' (strip isSpace (partition '#' raw').1)).2.2)) := by
  rw [directive] at h ⊢
  simp only [hkey]
  rw [if_neg (by simpa using hcolon)]
  split_ifs at h with hno hagent hallow hdisallow
  · cases h
  · cases h
    rw [if_neg hagent, if_pos hallow]
  · cases h
    rw [if_neg hagent, if_neg hallow, if_pos hdisallow]

theorem directive_item {raw : Text} {allow : Bool} {v : Text}
    (h : directive u raw = some (.item (allow, v))) :
    ':' ∈ strip isSpace (partition '#' raw).1 ∧
      v = strip isSpace (partition ':' (strip isSpace (partition '#' raw).1)).2.2 := by
  rw [directive] at h
  split_ifs at h with hno hagent hallow hdisallow
  · cases h
  · cases h
    exact ⟨by simpa using hno, rfl⟩
  · cases h
    exact ⟨by simpa using hno, rfl⟩

/-- The pattern of a line can be replaced by any other. -/
theorem exists_edit {raw : Text} {allow : Bool} {v : Text}
    (h : directive u raw = some (.item (allow, v))) :
    Stripped isSpace v ∧ '#' ∉ v ∧ ∃ front back, raw = front ++ v ++ back ∧
      ∀ v', v' ≠ [] → Stripped isSpace v' → '#' ∉ v' →
        directive u (front ++ v' ++ back) = some (.item (allow, v')) := by
  obtain ⟨hcolon, hv⟩ := directive_item h
  obtain ⟨rest, hraw, hcut⟩ := exists_partition_fst '#' raw
  have hcomment : '#' ∉ (partition '#' raw).1 := fun hc => (mem_of_mem_partition_fst hc).2 rfl
  have hstripped := stripped_strip isSpace (partition '#' raw).1
  obtain ⟨a, b, hab, ha, hb⟩ := strip_eq_append isSpace (partition '#' raw).1
  have hkey := partition_eq_append hcolon
  have hnokey : ':' ∉ (partition ':' (strip isSpace (partition '#' raw).1)).1 :=
    fun hc => (mem_of_mem_partition_fst hc).2 rfl
  have hkey' := directive_congr h
  obtain ⟨c, d, hcd, hc, hd⟩ :=
    strip_eq_append isSpace (partition ':' (strip isSpace (partition '#' raw).1)).2.2
  rw [← hv] at hcd
  generalize (partition '#' raw).1 = cut at *
  generalize strip isSpace cut = line at *
  generalize (partition ':' line).1 = key at *
  generalize (partition ':' line).2.2 = value at *
  subst hcd hkey hab hraw
  have hvstrip : Stripped isSpace v := hv ▸ stripped_strip isSpace _
  simp only [List.mem_append, List.mem_cons, not_or] at hcomment
  obtain ⟨⟨hca, hckey, hcolon', ⟨hcc, hcv⟩, hcd⟩, hcb⟩ := hcomment
  refine ⟨hvstrip, hcv, a ++ key ++ ':' :: c, d ++ b ++ rest, by simp, ?_⟩
  intro v' hne hv' hnov'
  have hcutv : (partition '#' (a ++ key ++ ':' :: c ++ v' ++ (d ++ b ++ rest))).1 =
      a ++ (key ++ ':' :: (c ++ v')) ++ (d ++ b) := by
    have hjoin : a ++ key ++ ':' :: c ++ v' ++ (d ++ b ++ rest) =
        a ++ (key ++ ':' :: (c ++ v')) ++ (d ++ b) ++ rest := by simp
    rw [hjoin]
    exact hcut _ (by simp [hca, hckey, hcc, hnov', hcd, hcb])
  have hends : Stripped isSpace (key ++ ':' :: (c ++ v')) := by
    refine ⟨?_, ?_⟩
    · -- the line begins as before
      intro x hx
      refine hstripped.head x ?_
      rw [List.head?_append] at hx ⊢
      exact hx
    · intro x hx
      refine hv'.last x ?_
      rwa [List.getLast?_append_cons, ← List.cons_append,
        List.getLast?_append_of_ne_nil _ hne] at hx
  have hline : strip isSpace (a ++ (key ++ ':' :: (c ++ v')) ++ (d ++ b)) =
      key ++ ':' :: (c ++ v') :=
    strip_append ha (List.forall_mem_append.mpr ⟨hd, hb⟩) hends (by simp)
  have hvalue : strip isSpace (c ++ v') = v' := by
    have hback := strip_append (b := []) hc (fun x hx => absurd hx List.not_mem_nil) hv' hne
    rwa [List.append_nil] at hback
  have hitem := hkey' (a ++ key ++ ':' :: c ++ v' ++ (d ++ b ++ rest))
  rw [hcutv, hline, partition_append hnokey, hvalue] at hitem
  exact hitem (by simp) rfl

/-! ### How long a pattern can become -/

/-- The length of a pattern with as many of its characters escaped as
`MAX_PATTERN_CHARS` allows. -/
def reach (r : Rule) : ℕ :=
  r.pattern.length + 2 * min (spare r.pattern) ((maxPatternChars - r.pattern.length) / 2)

/-- What may become of a rule of the text. -/
def Spelled (x x' : Bool × Text) : Prop :=
  x' = x ∨ x'.1 = x.1 ∧ Respelled x.2 x'.2 ∧ x'.2.length ≤ maxPatternChars

theorem usable_spelled {x x' : Bool × Text} (h : Spelled x x') : usable x' = usable x := by
  rcases h with rfl | ⟨-, h, hlen⟩
  · rfl
  · obtain ⟨k, -, hk⟩ := h.length
    have hempty : x'.2.isEmpty = x.2.isEmpty := by
      rw [Bool.eq_iff_iff, List.isEmpty_iff, List.isEmpty_iff]
      exact h.eq_nil_iff.symm
    rw [usable, usable, hempty, decide_eq_true hlen, decide_eq_true (by omega)]

/-- A respelled rule matches as before, and is longer within its reach. -/
theorem BuiltFrom.stretched {r r' : Rule} (h : BuiltFrom Spelled r r') :
    Precedence.Stretched (fun r => r.pattern.length) Rule.allow reach r r' ∧
      ∀ path, r'.matches path = r.matches path := by
  obtain ⟨x, x', hx, -, rfl, rfl⟩ := h
  rcases hx with rfl | ⟨hallow, hx, hlen⟩
  · exact ⟨⟨rfl, Nat.le_refl _, Nat.le_add_right _ _⟩, fun _ => rfl⟩
  · obtain ⟨k, hk, hk'⟩ := hx.length
    refine ⟨⟨hallow, ?_, ?_⟩, ?_⟩
    · show x.2.length ≤ x'.2.length
      omega
    · show x'.2.length ≤ x.2.length + 2 * min (spare x.2) ((maxPatternChars - x.2.length) / 2)
      omega
    · intro path
      rw [hallow, matches_respelled hx]

/-- Some spelling uses all of the reach. -/
theorem exists_reach {x : Bool × Text} (hx : usable x = true) :
    ∃ v', Respelled x.2 v' ∧ v'.length ≤ maxPatternChars ∧ v'.length = reach (rule x.1 x.2) := by
  have hlen : x.2.length ≤ maxPatternChars := by
    rw [usable, Bool.and_eq_true, decide_eq_true_eq] at hx
    exact hx.2
  obtain ⟨v', hv', hk⟩ := exists_respelled x.2
    (Nat.min_le_left (spare x.2) ((maxPatternChars - x.2.length) / 2))
  refine ⟨v', hv', ?_, hk⟩
  omega

/-- No spelling of the rules turns their decision on a path: none matches, or one
that allows is at least as long as any that denies can become, or one that denies
is longer than any that allows can become. -/
def Settled (path : Text) (rules : List Rule) : Prop :=
  (∀ r ∈ rules, r.matches path = false) ∨
    (∃ a ∈ rules, a.matches path = true ∧ a.allow = true ∧
      ∀ d ∈ rules, d.matches path = true → d.allow = false → reach d ≤ a.pattern.length) ∨
    ∃ d ∈ rules, d.matches path = true ∧ d.allow = false ∧
      ∀ a ∈ rules, a.matches path = true → a.allow = true → reach a < d.pattern.length

theorem settled_iff (path : Text) (rules : List Rule) :
    Settled path rules ↔
      Precedence.Steady (fun r => r.pattern.length) Rule.allow reach (matching path rules) := by
  have hnil : matching path rules = [] ↔ ∀ r ∈ rules, r.matches path = false := by
    simp [matching, List.filter_eq_nil_iff]
  simp only [Precedence.Steady, hnil, mem_matching, and_imp, and_assoc, Settled]

/-! ### The texts of a spelling -/

theorem directives_respelled {body body' : Text} (h : RespelledText u body body') :
    List.Forall₂ (SameToken Spelled) (directives u body) (directives u body') := by
  refine List.rel_filterMap (R := SpelledLine u) ?_ h
  intro raw raw' hline
  cases hline with
  | same =>
    cases directive u raw with
    | none => exact .none
    | some t =>
      cases t with
      | head agent => exact .some (.head agent)
      | item x => exact .some (.item (.inl rfl))
  | pattern hline hline' hv hlen =>
    rw [hline, hline']
    exact .some (.item (.inr ⟨rfl, hv, hlen⟩))

/-- One rule with another pattern. -/
def swapPattern (x : Bool × Text) (v' : Text) (y : Bool × Text) : Bool × Text :=
  if y = x then (x.1, v') else y

/-- The line with the pattern of a rule, if it has it, respelled. -/
theorem exists_spelledLine {x : Bool × Text} {v' raw : Text} (hx : usable x = true)
    (hv' : Respelled x.2 v') (hlen : v'.length ≤ maxPatternChars) (hraw : IsLine raw) :
    ∃ raw', SpelledLine u raw raw' ∧ IsLine raw' ∧
      Option.Rel (SameToken fun y y' => y' = swapPattern x v' y) (directive u raw)
        (directive u raw') := by
  by_cases hdir : directive u raw = some (.item x)
  · obtain ⟨hstrip, hcomment, front, back, rfl, hedit⟩ := exists_edit hdir
    have hne : v' ≠ [] := by
      intro hnil
      rw [usable, hv'.eq_nil_iff.mpr hnil] at hx
      exact Bool.false_ne_true hx
    have hstrip' : Stripped isSpace v' := by
      refine ⟨?_, ?_⟩
      · intro c hc
        rcases hv'.head? hc with hc | rfl
        · exact hstrip.head c hc
        · decide
      · intro c hc
        rcases hv'.getLast? hc with hc | hc
        · exact hstrip.last c hc
        · exact isSpace_of_isHexDigit hc
    have hcomment' : '#' ∉ v' := by
      intro hc
      rcases hv'.mem hc with hc | hc | hc
      · exact hcomment hc
      · exact absurd hc (by decide)
      · exact absurd hc (by decide)
    have hdir' := hedit v' hne hstrip' hcomment'
    refine ⟨_, .pattern hdir hdir' hv' hlen, ?_, ?_⟩
    · simp only [IsLine, List.forall_mem_append] at hraw ⊢
      refine ⟨⟨hraw.1.1, ?_⟩, hraw.2⟩
      intro c hc
      rcases hv'.mem hc with hc | rfl | hc
      · exact hraw.1.2 c hc
      · decide
      · exact isLineBreak_of_isHexDigit hc
    · rw [hdir, hdir']
      exact .some (.item (if_pos rfl).symm)
  · refine ⟨raw, .same raw, hraw, ?_⟩
    cases hraw' : directive u raw with
    | none => exact .none
    | some t =>
      cases t with
      | head agent => exact .some (.head agent)
      | item y =>
        refine .some (.item (if_neg ?_).symm)
        rintro rfl
        exact hdir hraw'

/-- The text with the pattern of a rule respelled wherever it stands. -/
theorem exists_respelledText {x : Bool × Text} {v' : Text} (body : Text) (hx : usable x = true)
    (hv' : Respelled x.2 v') (hlen : v'.length ≤ maxPatternChars) :
    ∃ body', RespelledText u body body' ∧
      List.Forall₂ (SameToken fun y y' => y' = swapPattern x v' y) (directives u body)
        (directives u body') := by
  have hlines : ∀ ls : List Text, (∀ l ∈ ls, IsLine l) → ∃ ls' : List Text,
      (∀ l ∈ ls', IsLine l) ∧ List.Forall₂ (SpelledLine u) ls ls' ∧
        List.Forall₂ (SameToken fun y y' => y' = swapPattern x v' y) (ls.filterMap (directive u))
          (ls'.filterMap (directive u)) := by
    intro ls hls
    induction ls with
    | nil => exact ⟨[], fun _ hl => absurd hl List.not_mem_nil, .nil, .nil⟩
    | cons raw ls ih =>
      obtain ⟨hraw, hls⟩ := List.forall_mem_cons.mp hls
      obtain ⟨ls', hls', hspelled, hsame⟩ := ih hls
      obtain ⟨raw', hline, hraw', hrel⟩ := exists_spelledLine (u := u) hx hv' hlen hraw
      refine ⟨raw' :: ls', List.forall_mem_cons.mpr ⟨hraw', hls'⟩, .cons hline hspelled, ?_⟩
      rw [List.filterMap_cons, List.filterMap_cons]
      generalize directive u raw = said at hrel
      generalize directive u raw' = said' at hrel
      cases hrel with
      | none => exact hsame
      | some h => exact .cons h hsame
  obtain ⟨ls', hls', hspelled, hsame⟩ :=
    hlines (splitlines body) fun _ hl => isLine_of_mem_splitlines hl
  refine ⟨unlines ls', ?_, ?_⟩
  · rw [RespelledText, splitlines_unlines hls']
    exact hspelled
  · rw [directives, directives, splitlines_unlines hls']
    exact hsame

/-- Its rules. -/
theorem rulesFor_swapPattern {x : Bool × Text} {v' body body' : Text}
    (hv' : Respelled x.2 v') (hlen : v'.length ≤ maxPatternChars)
    (h : List.Forall₂ (SameToken fun y y' => y' = swapPattern x v' y) (directives u body)
      (directives u body')) (token : Text) :
    rulesFor u body' token =
      (rulesFor u body token).map fun r => if r = rule x.1 x.2 then rule x.1 v' else r := by
  have hR : ∀ y y', y' = swapPattern x v' y → usable y' = usable y := by
    rintro y y' rfl
    rw [swapPattern]
    split_ifs with hy
    · rw [hy]
      exact usable_spelled (.inr ⟨rfl, hv', hlen⟩)
    · rfl
  have hrules := rulesFor_forall₂ hR h token
  have hmap : List.Forall₂ Eq ((rulesFor u body token).map fun r =>
      if r = rule x.1 x.2 then rule x.1 v' else r) (rulesFor u body' token) := by
    refine List.forall₂_map_left_iff.mpr (hrules.imp ?_)
    rintro r r' ⟨y, y', rfl, -, rfl, rfl⟩
    rw [swapPattern]
    by_cases hy : y = x
    · rw [if_pos hy, if_pos (by rw [hy])]
    · have hrule : ¬ rule y.1 y.2 = rule x.1 x.2 := by
        intro heq
        exact hy (Prod.ext (congrArg Rule.allow heq) (congrArg Rule.pattern heq))
      rw [if_neg hy, if_neg hrule]
  rw [List.forall₂_eq_eq_eq] at hmap
  exact hmap.symm

/-! ### The decision -/

/-- Settled rules decide the same on every spelling of the text. -/
theorem allows_respelled {body body' path : Text} (h : RespelledText u body body')
    (hsettled : Settled path (rulesFor u body token)) :
    allows path (rulesFor u body' token) = allows path (rulesFor u body token) := by
  have hrules := rulesFor_forall₂ (fun x x' hx => usable_spelled hx) (directives_respelled h) token
  have hmatching : List.Forall₂ (Precedence.Stretched (fun r => r.pattern.length) Rule.allow reach)
      (matching path (rulesFor u body token)) (matching path (rulesFor u body' token)) := by
    refine (List.rel_filter (R := BuiltFrom Spelled) ?_ hrules).imp fun r r' hr => hr.stretched.1
    intro r r' hr
    show r.matches path = true ↔ r'.matches path = true
    rw [hr.stretched.2]
  rw [Bool.eq_iff_iff, allows_iff, allows_iff]
  exact (((settled_iff _ _).mp hsettled).allowed_iff hmatching).symm

/-- Rules that are not settled decide otherwise on some spelling of the text. -/
theorem exists_respelled_allows {body path : Text}
    (h : ¬ Settled path (rulesFor u body token)) :
    ∃ body', RespelledText u body body' ∧
      allows path (rulesFor u body' token) ≠ allows path (rulesFor u body token) := by
  rw [settled_iff] at h
  obtain ⟨r, hr, htip⟩ := Precedence.exists_tipping h
  obtain ⟨hmem, hmatch⟩ := mem_matching.mp hr
  obtain ⟨x, hx, rfl⟩ := exists_usable_of_mem_rulesFor hmem
  obtain ⟨v', hv', hlen, hreach⟩ := exists_reach hx
  obtain ⟨body', hbody', hsame⟩ := exists_respelledText (u := u) body hx hv' hlen
  refine ⟨body', hbody', fun heq => ?_⟩
  have hmatching : matching path (rulesFor u body' token) =
      (matching path (rulesFor u body token)).map fun r =>
        if r = rule x.1 x.2 then rule x.1 v' else r := by
    rw [rulesFor_swapPattern hv' hlen hsame, matching, matching, List.filter_map]
    congr 1
    refine List.filter_congr fun q _ => ?_
    show (if q = rule x.1 x.2 then rule x.1 v' else q).matches path = q.matches path
    split_ifs with hq
    · rw [hq, matches_respelled hv']
    · rfl
  have hturned := htip (rule x.1 v') rfl hreach
  rw [Bool.eq_iff_iff, allows_iff, allows_iff, hmatching, hturned] at heq
  exact iff_not_self heq.symm

/-- **Spelling and precedence.**  For every text, token and URL: writing unreserved
characters of the patterns, of the path or of the query as escapes leaves the answer
of `can_fetch` as it is, whatever is written so, exactly when the rules are settled
on the path. -/
theorem canFetch_respelled_iff (u : UnicodeTables) (body url token : Text) :
    (∀ body' url', RespelledText u body body' → RespelledUrl u url url' →
        canFetch u body' url' token = canFetch u body url token) ↔
      ∀ parts, urlsplit u url = .ok parts → robotsPath parts ≠ "/robots.txt".toList →
        Settled (robotsPath parts) (rulesFor u body token) := by
  constructor
  · intro h parts hurl hpath
    by_contra hsettled
    obtain ⟨body', hbody', hne⟩ := exists_respelled_allows hsettled
    have heq := h body' url hbody' ⟨parts, parts.path, parts.query, hurl, hurl, .refl _, .refl _⟩
    rw [canFetch_ok hurl, canFetch_ok hurl, Except.ok.injEq, decide_eq_false hpath, Bool.false_or,
      Bool.false_or] at heq
    exact hne heq
  · rintro h body' url' hbody' ⟨parts, path, query, hurl, hurl', hpath, hquery⟩
    rw [canFetch_ok hurl, canFetch_ok hurl', robotsPath_respelled hpath hquery]
    by_cases hrobots : robotsPath parts = "/robots.txt".toList
    · rw [decide_eq_true hrobots, Bool.true_or, Bool.true_or]
    · rw [allows_respelled hbody' (h parts hurl hrobots)]

/-- The spelling can decide: here an `Allow` that is written as an escape becomes
longer than the `Disallow` that overruled it. -/
theorem canFetch_respelled_allow :
    ¬ ∀ (u : UnicodeTables) (body body' url url' token : Text), RespelledText u body body' →
      RespelledUrl u url url' → canFetch u body' url' token = canFetch u body url token := by
  intro hevery
  have hlines : splitlines "User-agent: *\nDisallow: /ab\nAllow: /a".toList =
      ["User-agent: *".toList, "Disallow: /ab".toList, "Allow: ".toList ++ "/a".toList ++ []] := by
    decide
  have hlines' : splitlines "User-agent: *\nDisallow: /ab\nAllow: /%61".toList =
      ["User-agent: *".toList, "Disallow: /ab".toList,
        "Allow: ".toList ++ "/%61".toList ++ []] := by
    decide
  have hpattern : Respelled "/a".toList "/%61".toList :=
    .keep (by decide) (.encode (by decide) ⟨by decide, by decide, by decide⟩ .nil)
  have hbody : RespelledText asciiTables.unicode
      "User-agent: *\nDisallow: /ab\nAllow: /a".toList
      "User-agent: *\nDisallow: /ab\nAllow: /%61".toList := by
    have hline : directive asciiTables.unicode ("Allow: ".toList ++ "/a".toList ++ []) =
        some (.item (true, "/a".toList)) := by decide
    have hline' : directive asciiTables.unicode ("Allow: ".toList ++ "/%61".toList ++ []) =
        some (.item (true, "/%61".toList)) := by decide
    rw [RespelledText, hlines, hlines']
    exact .cons (.same _) (.cons (.same _)
      (.cons (.pattern hline hline' hpattern (by decide)) .nil))
  have hurl : urlsplit asciiTables.unicode "https://h/ab".toList =
      .ok ⟨"https".toList, "h".toList, "/ab".toList, [], []⟩ := by decide
  have heq := hevery _ _ _ _ _ "newsforge".toList hbody
    ⟨_, _, _, hurl, hurl, .refl _, .refl _⟩
  revert heq
  decide

end Robots
