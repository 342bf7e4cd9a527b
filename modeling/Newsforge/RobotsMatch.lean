/-
What a rule of a robots.txt matches, and which rules decide.

* `find_some`, `find_none` — `str.find` stops at the first place;
* `findParts_some`, `findParts_none` — the greedy search for the parts between the
  wildcards leaves as much behind them as there can be;
* `canFetch_ok` — the loop of `can_fetch` is the library's, over the rules that
  match.

Main results: `matches_iff`, `canFetch_iff_longest`.
-/
import Newsforge.Precedence
import Newsforge.Robots
import Newsforge.Wildcard

open PyText UrlParse SafeHttp Wildcard

namespace Robots

/-! ### str.find -/

theorem find_some {part s : Text} {pos i : ℕ} (h : find part pos s = some i) :
    pos ≤ i ∧ i ≤ s.length ∧ part <+: s.drop i ∧
      ∀ j, pos ≤ j → j < i → ¬ part <+: s.drop j := by
  rw [find, List.find?_range_eq_some] at h
  obtain ⟨hi, hmem, hbefore⟩ := h
  rw [Bool.and_eq_true, decide_eq_true_eq, startsWith, List.isPrefixOf_iff_prefix] at hi
  refine ⟨hi.1, Nat.lt_succ_iff.mp (List.mem_range.mp hmem), hi.2, ?_⟩
  intro j hpos hj hpre
  have hno := hbefore j hj
  rw [Bool.not_eq_true', Bool.and_eq_false_iff, decide_eq_false_iff_not, startsWith] at hno
  rcases hno with hno | hno
  · exact hno hpos
  · exact Bool.false_ne_true (hno.symm.trans (List.isPrefixOf_iff_prefix.mpr hpre))

theorem find_none {part s : Text} {pos : ℕ} (h : find part pos s = none) {j : ℕ}
    (hpos : pos ≤ j) (hj : j ≤ s.length) : ¬ part <+: s.drop j := by
  intro hpre
  rw [find, List.find?_eq_none] at h
  refine h j (List.mem_range.mpr (Nat.lt_succ_iff.mpr hj)) ?_
  rw [Bool.and_eq_true, decide_eq_true_eq, startsWith, List.isPrefixOf_iff_prefix]
  exact ⟨hpos, hpre⟩

/-! ### The greedy search -/

/-- A place behind `pos` where a text goes on with a part. -/
theorem occurs_iff {part s s' : Text} {pos : ℕ} (hpos : pos ≤ s.length) :
    (∃ g, s.drop pos = g ++ (part ++ s')) ↔
      ∃ j, pos ≤ j ∧ j ≤ s.length ∧ s.drop j = part ++ s' := by
  constructor
  · rintro ⟨g, hg⟩
    have hlen := congrArg List.length hg
    rw [List.length_append, List.length_drop] at hlen
    refine ⟨pos + g.length, Nat.le_add_right _ _, by omega, ?_⟩
    rw [← List.drop_drop, hg, List.drop_left]
  · rintro ⟨j, hle, -, hj⟩
    refine ⟨(s.drop pos).take (j - pos), ?_⟩
    rw [← hj, ← Nat.add_sub_cancel' hle, ← List.drop_drop, Nat.add_sub_cancel_left,
      List.take_append_drop]

/-- Behind the first place of a part. -/
theorem drop_of_find {part path : Text} {pos found : ℕ} (h : find part pos path = some found) :
    path.drop found = part ++ path.drop (found + part.length) ∧
      found + part.length ≤ path.length := by
  obtain ⟨-, hfound, ⟨s', hs'⟩, -⟩ := find_some h
  have hlen := congrArg List.length hs'
  rw [List.length_append, List.length_drop] at hlen
  refine ⟨?_, by omega⟩
  rw [← List.drop_drop, ← hs', List.drop_left]

/-- Parts behind the first place of a part fit behind the start. -/
theorem fits_of_find {part path t : Text} {parts : List Text} {pos found : ℕ}
    (hpos : pos ≤ path.length) (hfind : find part pos path = some found)
    (h : Fits parts (path.drop (found + part.length)) t) :
    Fits (part :: parts) (path.drop pos) t := by
  obtain ⟨hle, hfound, -, -⟩ := find_some hfind
  obtain ⟨g, hg⟩ := (occurs_iff hpos).mpr ⟨found, hle, hfound, (drop_of_find hfind).1⟩
  exact fits_cons.mpr ⟨g, _, hg, h⟩

/-- Parts that fit behind any place of a part fit behind its first place, with at
least as much left. -/
theorem behind_find {part path t : Text} {parts : List Text} {pos found : ℕ}
    (hpos : pos ≤ path.length) (hfind : find part pos path = some found)
    (h : Fits (part :: parts) (path.drop pos) t) :
    ∃ t', t <:+ t' ∧ Fits parts (path.drop (found + part.length)) t' := by
  obtain ⟨g, s', hg, hrest⟩ := fits_cons.mp h
  obtain ⟨j, hj, -, hdrop⟩ := (occurs_iff hpos).mp ⟨g, hg⟩
  obtain ⟨-, -, -, hfirst⟩ := find_some hfind
  have hfj : found ≤ j := Nat.not_lt.mp fun hlt => hfirst j hj hlt ⟨s', hdrop.symm⟩
  have hs' : (path.drop (found + part.length)).drop (j - found) = s' := by
    rw [List.drop_drop, show found + part.length + (j - found) = j + part.length by omega,
      ← List.drop_drop, hdrop, List.drop_left]
  refine hrest.of_suffix ⟨(path.drop (found + part.length)).take (j - found), ?_⟩
  rw [← hs', List.take_append_drop]

/-- The search ends behind parts that fit, and no way to fit them leaves more. -/
theorem findParts_some {path : Text} {parts : List Text} {pos pos' : ℕ}
    (hpos : pos ≤ path.length) (h : findParts path pos parts = some pos') :
    pos' ≤ path.length ∧ Fits parts (path.drop pos) (path.drop pos') ∧
      ∀ t, Fits parts (path.drop pos) t → t <:+ path.drop pos' := by
  induction parts generalizing pos with
  | nil =>
    obtain rfl : pos = pos' := by simpa [findParts] using h
    exact ⟨hpos, fits_nil.mpr rfl, fun t ht => fits_nil.mp ht ▸ List.suffix_refl _⟩
  | cons part parts ih =>
    rw [findParts] at h
    cases hfind : find part pos path with
    | none => simp [hfind] at h
    | some found =>
      simp only [hfind] at h
      obtain ⟨hpos', hfits, hmost⟩ := ih (drop_of_find hfind).2 h
      refine ⟨hpos', fits_of_find hpos hfind hfits, ?_⟩
      intro t ht
      obtain ⟨t', htt', hfits'⟩ := behind_find hpos hfind ht
      exact htt'.trans (hmost t' hfits')

/-- The search fails only where the parts do not fit. -/
theorem findParts_none {path : Text} {parts : List Text} {pos : ℕ} (hpos : pos ≤ path.length)
    (h : findParts path pos parts = none) (t : Text) : ¬ Fits parts (path.drop pos) t := by
  induction parts generalizing pos t with
  | nil => simp [findParts] at h
  | cons part parts ih =>
    intro ht
    rw [findParts] at h
    cases hfind : find part pos path with
    | none =>
      obtain ⟨g, s', hg, -⟩ := fits_cons.mp ht
      obtain ⟨j, hj, hjlen, hdrop⟩ := (occurs_iff hpos).mp ⟨g, hg⟩
      exact find_none hfind hj hjlen ⟨s', hdrop.symm⟩
    | some found =>
      simp only [hfind] at h
      obtain ⟨t', -, hfits⟩ := behind_find hpos hfind ht
      exact ih (drop_of_find hfind).2 h t' hfits

/-! ### The language of a rule -/

/-- With a wildcard and no anchor. -/
theorem findParts_isSome_iff {path : Text} {parts : List Text} {pos : ℕ}
    (hpos : pos ≤ path.length) :
    (findParts path pos parts).isSome = true ↔ ∃ t, Fits parts (path.drop pos) t := by
  cases h : findParts path pos parts with
  | none => simpa using findParts_none hpos h
  | some pos' => simpa using ⟨_, (findParts_some hpos h).2.1⟩

/-- With a wildcard and an anchor: what is left behind the other parts ends with
the last one. -/
theorem anchored_iff {path last : Text} {parts : List Text} {pos : ℕ} (hpos : pos ≤ path.length) :
    (∃ pos', findParts path pos parts = some pos' ∧ last <:+ path ∧
      pos' + last.length ≤ path.length) ↔ Fits (parts ++ [last]) (path.drop pos) [] := by
  rw [Fits.snoc]
  constructor
  · rintro ⟨pos', hfound, hsuf, hlen⟩
    refine ⟨_, (findParts_some hpos hfound).2.1, ?_⟩
    have hlast : last <:+ path.drop pos' :=
      List.suffix_of_suffix_length_le hsuf (List.drop_suffix _ _) (by
        rw [List.length_drop]
        omega)
    obtain ⟨g, hg⟩ := hlast
    exact ⟨g, by rw [List.append_nil, hg]⟩
  · rintro ⟨s', hfits, g, rfl⟩
    cases hfound : findParts path pos parts with
    | none => exact absurd hfits (findParts_none hpos hfound _)
    | some pos' =>
      obtain ⟨hpos', -, hmost⟩ := findParts_some hpos hfound
      have hlast : last <:+ path.drop pos' := by
        refine List.IsSuffix.trans ?_ (hmost _ hfits)
        rw [List.append_nil]
        exact List.suffix_append g last
      refine ⟨pos', rfl, hlast.trans (List.drop_suffix _ _), ?_⟩
      have hle := hlast.length_le
      rw [List.length_drop] at hle
      omega

/-- The parts behind the first one. -/
theorem fits_rest_iff {first path : Text} {rest : List Text} (anchored : Bool)
    (hfirst : first <+: path) :
    (∃ (gaps : List Text) (t : Text), gaps.length = rest.length ∧
        path = first ++ spread gaps rest ++ t ∧ (anchored = true → t = [])) ↔
      ∃ t, Fits rest (path.drop first.length) t ∧ (anchored = true → t = []) := by
  obtain ⟨tail, rfl⟩ := hfirst
  rw [List.drop_left]
  constructor
  · rintro ⟨gaps, t, hlen, hpath, ht⟩
    rw [List.append_assoc, List.append_cancel_left_eq] at hpath
    exact ⟨t, ⟨gaps, hlen, hpath⟩, ht⟩
  · rintro ⟨t, ⟨gaps, hlen, rfl⟩, ht⟩
    exact ⟨gaps, t, hlen, (List.append_assoc _ _ _).symm, ht⟩

/-- `_Rule.matches` of a path that begins with the first part. -/
theorem matches_of_beginning {allow : Bool} {pattern first path : Text} {rest : List Text}
    {anchored : Bool} (hfirst : first <+: path) :
    (⟨allow, pattern, first :: rest, anchored⟩ : Rule).matches path = true ↔
      ∃ t, Fits rest (path.drop first.length) t ∧ (anchored = true → t = []) := by
  have hstarts : (!startsWith first path) = false := by
    rw [startsWith, List.isPrefixOf_iff_prefix.mpr hfirst]
    rfl
  simp only [Rule.matches, hstarts, Bool.false_eq_true, if_false]
  rcases List.eq_nil_or_concat rest with rfl | ⟨middle, last, rfl⟩
  · -- no wildcard
    obtain ⟨tail, rfl⟩ := hfirst
    cases anchored <;> simp [fits_nil]
  have hpos := hfirst.length_le
  have hempty : (middle ++ [last]).isEmpty = false := by simp
  rw [List.concat_eq_append, hempty]
  cases anchored with
  | false =>
    simp only [Bool.false_eq_true, if_false, false_implies, and_true]
    rw [← findParts_isSome_iff hpos]
    cases findParts path first.length (middle ++ [last]) <;> simp
  | true =>
    simp only [Bool.false_eq_true, if_false, if_true, List.getLast?_append, List.getLast?_singleton,
      List.dropLast_concat, Option.some_or, true_implies]
    rw [exists_eq_right, ← anchored_iff hpos]
    cases findParts path first.length middle with
    | none => simp
    | some pos' => simp [endsWith]

/-- **Wildcard matching is exact.**  For all parts, anchored or not, and every
path: the greedy search accepts exactly the paths that are the parts in order,
with any text in each gap, and with any text behind the last part unless the
rule is anchored. -/
theorem matches_iff (allow : Bool) (pattern first : Text) (rest : List Text) (anchored : Bool)
    (path : Text) :
    (⟨allow, pattern, first :: rest, anchored⟩ : Rule).matches path = true ↔
      ∃ (gaps : List Text) (t : Text), gaps.length = rest.length ∧
        path = first ++ spread gaps rest ++ t ∧ (anchored = true → t = []) := by
  by_cases hfirst : first <+: path
  · rw [matches_of_beginning hfirst, fits_rest_iff anchored hfirst]
  · refine iff_of_false ?_ ?_
    · have hstarts : (!startsWith first path) = true := by
        rw [startsWith, Bool.not_eq_true', ← Bool.not_eq_true, List.isPrefixOf_iff_prefix]
        exact hfirst
      simp [Rule.matches, hstarts]
    · rintro ⟨gaps, t, -, rfl, -⟩
      exact hfirst ⟨spread gaps rest ++ t, (List.append_assoc _ _ _).symm⟩

/-! ### The decision -/

/-- The rules that match a path. -/
def matching (path : Text) (rules : List Rule) : List Rule := rules.filter (·.matches path)

theorem mem_matching {path : Text} {rules : List Rule} {r : Rule} :
    r ∈ matching path rules ↔ r ∈ rules ∧ r.matches path = true := List.mem_filter

theorem matching_append (path : Text) (rules more : List Rule) :
    matching path (rules ++ more) = matching path rules ++ matching path more :=
  List.filter_append _ _

/-- What the loop of `can_fetch` makes of some rules. -/
def allows (path : Text) (rules : List Rule) : Bool :=
  ((rules.foldl (better path) none).map Rule.allow).getD true

/-- The loop of `can_fetch` skips the rules that do not match. -/
theorem foldl_better (path : Text) (rules : List Rule) (best : Option Rule) :
    rules.foldl (better path) best =
      (matching path rules).foldl (Precedence.pick (fun r => r.pattern.length) Rule.allow)
        best := by
  rw [matching, List.foldl_filter]
  congr 1
  funext best r
  cases hr : r.matches path <;> cases best <;> simp [better, Precedence.pick, hr]

theorem allows_iff (path : Text) (rules : List Rule) :
    allows path rules = true ↔
      Precedence.Allowed (fun r => r.pattern.length) Rule.allow (matching path rules) := by
  rw [allows, foldl_better]
  exact Precedence.decision_iff _

/-- The path and query that `can_fetch` compares with. -/
def robotsPath (parts : SplitResult) : Text := normalizePath (pathAndQuery parts)

theorem canFetch_ok {u : UnicodeTables} {body url token : Text} {parts : SplitResult}
    (h : urlsplit u url = .ok parts) :
    canFetch u body url token =
      .ok (decide (robotsPath parts = "/robots.txt".toList) ||
        allows (robotsPath parts) (rulesFor u body token)) := by
  rw [canFetch]
  simp only [h, bind, Except.bind, pure, Except.pure]
  rw [← robotsPath]
  by_cases hpath : robotsPath parts = "/robots.txt".toList
  · rw [if_pos hpath, decide_eq_true hpath]
    rfl
  · rw [if_neg hpath, decide_eq_false hpath, Bool.false_or, allows]
    cases (rulesFor u body token).foldl (better (robotsPath parts)) none <;> rfl

/-- Only the set of the rules matters. -/
theorem allows_congr {path : Text} {rules rules' : List Rule} (h : ∀ r, r ∈ rules ↔ r ∈ rules') :
    allows path rules = allows path rules' := by
  rw [Bool.eq_iff_iff, allows_iff, allows_iff]
  exact Precedence.Allowed.congr fun r => by rw [mem_matching, mem_matching, h r]

/-- **The decision rule.**  For every text, URL and token: `can_fetch` is true
exactly for `/robots.txt`, without a rule that matches, or when among the longest
rules that match one is an `Allow`.  The order of the rules and repeated rules
make no difference. -/
theorem canFetch_iff_longest (u : UnicodeTables) (body url token : Text) (parts : SplitResult)
    (h : urlsplit u url = .ok parts) :
    (canFetch u body url token = .ok true ↔
      robotsPath parts = "/robots.txt".toList ∨
        (∀ r ∈ rulesFor u body token, r.matches (robotsPath parts) = false) ∨
          ∃ a ∈ rulesFor u body token, a.matches (robotsPath parts) = true ∧ a.allow = true ∧
            ∀ r ∈ rulesFor u body token, r.matches (robotsPath parts) = true →
              r.pattern.length ≤ a.pattern.length) ∧
      (∀ rules, rules.Perm (rulesFor u body token) →
        canFetch u body url token = .ok (decide (robotsPath parts = "/robots.txt".toList) ||
          allows (robotsPath parts) rules)) ∧
      ∀ r ∈ rulesFor u body token, ∀ rules, rules.Perm (r :: rulesFor u body token) →
        canFetch u body url token = .ok (decide (robotsPath parts = "/robots.txt".toList) ||
          allows (robotsPath parts) rules) := by
  rw [canFetch_ok h]
  refine ⟨?_, ?_, ?_⟩
  · rw [Except.ok.injEq, Bool.or_eq_true, decide_eq_true_eq, allows_iff,
      Precedence.allowed_iff_longest]
    refine or_congr_right (or_congr ?_ ?_)
    · simp [matching, List.filter_eq_nil_iff]
    · constructor
      · rintro ⟨a, ha, hallow, hlongest⟩
        obtain ⟨ha, hmatch⟩ := mem_matching.mp ha
        exact ⟨a, ha, hmatch, hallow, fun r hr hrm => hlongest r (mem_matching.mpr ⟨hr, hrm⟩)⟩
      · rintro ⟨a, ha, hmatch, hallow, hlongest⟩
        refine ⟨a, mem_matching.mpr ⟨ha, hmatch⟩, hallow, ?_⟩
        intro r hr
        exact hlongest r (mem_matching.mp hr).1 (mem_matching.mp hr).2
  · intro rules hperm
    rw [allows_congr fun r => hperm.mem_iff]
  · intro r hr rules hperm
    have hmem : ∀ q, q ∈ rules ↔ q ∈ rulesFor u body token := by
      intro q
      rw [hperm.mem_iff, List.mem_cons]
      constructor
      · rintro (rfl | hq)
        · exact hr
        · exact hq
      · exact .inr
    rw [allows_congr hmem]

/-- A longer `Allow` under a `Disallow`. -/
def nestedRobots : Text :=
  "User-agent: *\nDisallow: /a\nAllow: /a/*.html$\nDisallow: /a/b".toList

theorem canFetch_iff_longest_sample :
    canFetch asciiTables.unicode nestedRobots "https://h/a/b.html".toList "newsforge".toList =
      .ok true := by
  refine (canFetch_iff_longest _ _ _ _ ⟨"https".toList, "h".toList, "/a/b.html".toList, [], []⟩
    (by decide)).1.mpr (.inr (.inr ⟨rule true "/a/*.html$".toList, ?_⟩))
  decide

end Robots
