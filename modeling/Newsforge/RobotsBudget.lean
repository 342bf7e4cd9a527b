/-
The rule budget of a robots.txt is shared by two sets of groups.

* `candidates` — the usable rules of the groups that name the token or `*`, in the
  order of the file;
* `kept`, `starved` — those of the groups that name the token, within the budget
  and behind it;
* `Follows` — the one pass keeps what the budget leaves;
* `ownLines` — the file without the groups that do not name the token.

Main results: `rulesFor_eq_kept`, `canFetch_ownLines_iff`.
-/
import Newsforge.GroupBlocks
import Newsforge.RobotsGroups
import Newsforge.RobotsMatch
import Newsforge.TextLines

open PyText UrlParse SafeHttp Groups

namespace Robots

variable {u : UnicodeTables} {token : Text}

/-! ### What the budget leaves -/

/-- Whether a product token names the crawler; an empty token names none. -/
def names (token agent : Text) : Bool := !token.isEmpty && agent = token

/-- A rule, and whether its group names the token. -/
abbrev Candidate := Bool × (Bool × Text)

/-- The usable rules that count towards `MAX_RULES`. -/
def candidates (token : Text) (gs : List (Group Text (Bool × Text))) : List Candidate :=
  gs.flatMap fun g =>
    if g.heads.any (isEither token) then
      (g.items.filter usable).map fun r => (g.heads.any (· = token), r)
    else []

/-- The rules of the groups that name the token. -/
def ownOf (cs : List Candidate) : List Rule := (cs.filter Prod.fst).map fun c => rule c.2.1 c.2.2

/-- The own rules among the first `MAX_RULES`. -/
def kept (u : UnicodeTables) (body token : Text) : List Rule :=
  ownOf ((candidates token (groups (directives u body))).take maxRules)

/-- The own rules behind the first `MAX_RULES`. -/
def starved (u : UnicodeTables) (body token : Text) : List Rule :=
  ownOf ((candidates token (groups (directives u body))).drop maxRules)

theorem ownOf_append (cs cs' : List Candidate) : ownOf (cs ++ cs') = ownOf cs ++ ownOf cs' := by
  rw [ownOf, List.filter_append, List.map_append]
  rfl

/-- Without a budget, all own rules. -/
theorem ownOf_candidates (gs : List (Group Text (Bool × Text))) :
    ownOf (candidates token gs) = built (select (· = token) gs) := by
  induction gs with
  | nil => rfl
  | cons g gs ih =>
    rw [candidates, List.flatMap_cons, ownOf_append, select_cons, built, List.filter_append,
      List.map_append]
    refine congrArg₂ (· ++ ·) ?_ ih
    by_cases hown : (g.heads.any fun a => a = token) = true
    · have heither : g.heads.any (isEither token) = true := by
        obtain ⟨a, ha, hat⟩ := List.any_eq_true.mp hown
        exact List.any_eq_true.mpr ⟨a, ha, by simp only [isEither, hat, Bool.true_or]⟩
      rw [if_pos heither, if_pos hown, hown, ownOf, List.filter_map, List.map_map]
      simp
    · rw [if_neg hown, Bool.not_eq_true] at *
      rw [hown]
      split
      · rw [ownOf, List.filter_map]
        simp
      · rfl

theorem kept_append_starved (u : UnicodeTables) (body token : Text) :
    kept u body token ++ starved u body token =
      built (select (· = token) (groups (directives u body))) := by
  rw [kept, starved, ← ownOf_append, List.take_append_drop, ownOf_candidates]

/-! ### The pass -/

/-- One more candidate, in a pass over the groups. -/
def collect (token : Text) (heads : List Text) (cs : List Candidate) (r : Bool × Text) :
    List Candidate :=
  if heads.any (isEither token) && usable r then cs ++ [(heads.any (· = token), r)] else cs

/-- The variables of the loop are those of a pass without a budget, cut off at it. -/
structure Follows (token : Text) (s : Pass Text (List Candidate)) (st : Scan) : Prop where
  forOwn : st.forOwn = s.heads.any (· = token)
  forStar : st.forStar = s.heads.any (isStar token)
  inRules : st.inRules = s.inItems
  own : st.own = ownOf (s.acc.take maxRules)
  count : st.count = min s.acc.length maxRules

theorem any_isEither (heads : List Text) :
    heads.any (isEither token) = (heads.any (· = token) || heads.any (isStar token)) := by
  induction heads with
  | nil => rfl
  | cons a heads ih =>
    rw [List.any_cons, ih, isEither_eq, List.any_cons, List.any_cons]
    simp only [Bool.or_assoc, Bool.or_left_comm]

theorem any_open (p : Text → Bool) (s : Pass Text (List Candidate)) (agent : Text) :
    (s.open ++ [agent]).any p = ((!s.inItems && s.heads.any p) || p agent) := by
  rw [List.any_append, List.any_cons, List.any_nil, Bool.or_false, Pass.open]
  cases s.inItems <;> simp

theorem Follows.agent {s : Pass Text (List Candidate)} {st : Scan} (h : Follows token s st)
    (hne : token ≠ []) (agent : Text) :
    Follows token (s.step (collect token) (.head agent)) (st.agent token agent) := by
  rw [Scan.agent_eq hne]
  refine ⟨?_, ?_, rfl, h.own, h.count⟩
  · rw [Pass.step, any_open, ← h.inRules, ← h.forOwn]
  · rw [Pass.step, any_open, ← h.inRules, ← h.forStar]

theorem Follows.rule {s : Pass Text (List Candidate)} {st : Scan} (h : Follows token s st)
    (r : Bool × Text) : Follows token (s.step (collect token) (.item r)) (st.rule r.1 r.2) := by
  have hon : (st.forOwn || st.forStar) = s.heads.any (isEither token) := by
    rw [any_isEither, h.forOwn, h.forStar]
  rw [Scan.rule_eq, hon]
  by_cases hcounts : (s.heads.any (isEither token) && usable r) = true
  · have hacc : (s.step (collect token) (.item r)).acc =
        s.acc ++ [(s.heads.any (· = token), r)] := by
      rw [Pass.step, collect, if_pos hcounts]
    rw [hcounts, Bool.true_and]
    by_cases hroom : s.acc.length < maxRules
    · -- within the budget, the candidates are all there
      have hlt : st.count < maxRules := by
        rw [h.count]
        omega
      have htake : (s.acc ++ [(s.heads.any (· = token), r)]).take maxRules =
          s.acc ++ [(s.heads.any (· = token), r)] :=
        List.take_of_length_le (by rw [List.length_append]; exact hroom)
      rw [if_pos (by simpa using hlt)]
      refine ⟨h.forOwn, h.forStar, rfl, ?_, ?_⟩
      · rw [hacc, htake, ownOf_append, h.own, List.take_of_length_le hroom.le, h.forOwn]
        cases s.heads.any (· = token) with
        | false => exact (List.append_nil _).symm
        | true => rfl
      · rw [hacc, List.length_append, List.length_singleton]
        show st.count + 1 = _
        rw [h.count]
        omega
    · rw [if_neg (by simp [h.count]; omega)]
      refine ⟨h.forOwn, h.forStar, rfl, ?_, ?_⟩
      · rw [hacc, List.take_append_of_le_length (by omega)]
        exact h.own
      · rw [hacc, List.length_append, List.length_singleton]
        show st.count = _
        rw [h.count]
        omega
  · have hacc : (s.step (collect token) (.item r)).acc = s.acc := by
      rw [Pass.step, collect, if_neg hcounts]
    rw [Bool.eq_false_iff.mpr hcounts, Bool.false_and, if_neg Bool.false_ne_true]
    exact ⟨h.forOwn, h.forStar, rfl, hacc ▸ h.own, hacc ▸ h.count⟩

theorem Follows.foldl {s : Pass Text (List Candidate)} {st : Scan} (h : Follows token s st)
    (hne : token ≠ []) (ts : List (Token Text (Bool × Text))) :
    Follows token (ts.foldl (Pass.step (collect token)) s) (ts.foldl (Scan.read token) st) := by
  induction ts generalizing s st with
  | nil => exact h
  | cons t ts ih =>
    refine ih ?_
    cases t with
    | head agent => exact h.agent hne agent
    | item r => exact h.rule r

/-- The pass without a budget collects the candidates. -/
theorem foldl_collect (gs : List (Group Text (Bool × Text))) (cs : List Candidate) :
    gs.foldl (Group.fold (collect token)) cs = cs ++ candidates token gs := by
  have hitems : ∀ (heads : List Text) (items : List (Bool × Text)) (cs : List Candidate),
      items.foldl (collect token heads) cs = cs ++ (if heads.any (isEither token) then
        (items.filter usable).map fun r => (heads.any (· = token), r) else []) := by
    intro heads items
    induction items with
    | nil => simp
    | cons r items ih =>
      intro cs
      rw [List.foldl_cons, ih, collect]
      cases heads.any (isEither token) with
      | false => simp
      | true => cases hr : usable r <;> simp [hr]
  induction gs generalizing cs with
  | nil => simp [candidates]
  | cons g gs ih =>
    rw [List.foldl_cons, ih, Group.fold, hitems, List.append_assoc]
    rfl

/-- **What the budget leaves.**  If some group names the token, `_rules_for` returns
the own rules among the first `MAX_RULES` usable rules of the own and the `*`
groups. -/
theorem rulesFor_eq_kept (hne : token ≠ []) (body : Text)
    (hnamed : ((groups (directives u body)).any fun g => g.heads.any (· = token)) = true) :
    rulesFor u body token = kept u body token := by
  have hstart : Follows token ⟨[], false, []⟩ Scan.start := ⟨rfl, rfl, rfl, rfl, rfl⟩
  have hend := hstart.foldl hne (directives u body)
  have hcollect := Pass.acc_foldl (collect token) (fun _ _ => rfl) [] (directives u body)
  rw [foldl_collect, List.nil_append] at hcollect
  have hnames := named_foldl hne (directives u body) Scan.start
  rw [← any_groups, hnamed, Bool.or_true] at hnames
  rw [rulesFor, foldl_scanLine, ← directives]
  simp only [hnames, if_true]
  rw [hend.own, hcollect, kept]

/-! ### The other groups deleted -/

/-- The lines of a text less the groups that do not name the token. -/
def ownLines (u : UnicodeTables) (body token : Text) : List Text :=
  prune (directive u) (names token) (splitlines body)

/-- Some group names the token. -/
def isNamed (u : UnicodeTables) (body token : Text) : Bool :=
  (groups (directives u body)).any fun g => g.heads.any (names token)

theorem names_eq (hne : token ≠ []) : names token = fun a => decide (a = token) := by
  funext a
  rw [names, show token.isEmpty = false by simpa using hne]
  rfl

theorem ne_nil_of_isNamed {body : Text} (h : isNamed u body token = true) : token ≠ [] := by
  rintro rfl
  obtain ⟨g, -, hg⟩ := List.any_eq_true.mp h
  obtain ⟨a, -, ha⟩ := List.any_eq_true.mp hg
  exact Bool.false_ne_true ha

theorem select_filter {p q : Text → Bool} (h : ∀ a, p a = true → q a = true)
    (gs : List (Group Text (Bool × Text))) :
    select q (gs.filter fun g => g.heads.any p) = select p gs := by
  rw [select, select, List.filter_filter]
  congr 1
  refine List.filter_congr fun g _ => ?_
  rw [Bool.and_eq_right_iff_imp]
  intro hp
  obtain ⟨a, ha, hpa⟩ := List.any_eq_true.mp hp
  exact List.any_eq_true.mpr ⟨a, ha, h a hpa⟩

/-- With the other groups deleted, all own rules are there. -/
theorem rulesFor_ownLines {body body' : Text} (hnamed : isNamed u body token = true)
    (hroom : (usableRules u body (names token)).length ≤ maxRules)
    (hbody : splitlines body' = ownLines u body token) :
    rulesFor u body' token = kept u body token ++ starved u body token := by
  have hne := ne_nil_of_isNamed hnamed
  rw [isNamed] at hnamed
  rw [usableRules] at hroom
  rw [ownLines] at hbody
  rw [names_eq hne] at hnamed hroom hbody
  have hgroups : groups (directives u body') =
      (groups (directives u body)).filter fun g => g.heads.any fun a => decide (a = token) := by
    rw [directives, hbody, groups_prune]
    rfl
  have heither : ∀ a : Text, decide (a = token) = true → isEither token a = true := by
    intro a ha
    rw [isEither, ha, Bool.true_or]
  rw [rulesFor_eq_referenceRules u body' token hne, referenceRules, hgroups, List.any_filter]
  · simp only [Bool.and_self, hnamed, if_true]
    rw [usableRules, hgroups, select_filter fun _ h => h, kept_append_starved]
    rfl
  · show (usableRules u body' (isEither token)).length ≤ maxRules
    rw [usableRules, hgroups, select_filter heither]
    exact hroom

/-! ### When the budget makes no difference -/

/-- No rule behind the budget tips the decision on a path: a `Disallow` is overruled
by an own `Allow`, or what is kept denies anyway; an `Allow` is overruled by a
longer own `Disallow`, or what is kept allows anyway. -/
structure Harmless (path : Text) (kept starved : List Rule) : Prop where
  disallow : ∀ d ∈ starved, d.matches path = true → d.allow = false →
    (∃ a ∈ kept ++ starved, a.matches path = true ∧ a.allow = true ∧
      d.pattern.length ≤ a.pattern.length) ∨
    ∃ d' ∈ kept, d'.matches path = true ∧ d'.allow = false ∧
      ∀ a ∈ kept, a.matches path = true → a.allow = true → a.pattern.length < d'.pattern.length
  allow : ∀ a ∈ starved, a.matches path = true → a.allow = true →
    (∃ d ∈ kept ++ starved, d.matches path = true ∧ d.allow = false ∧
      a.pattern.length < d.pattern.length) ∨
    ∀ d' ∈ kept, d'.matches path = true → d'.allow = false →
      ∃ a' ∈ kept, a'.matches path = true ∧ a'.allow = true ∧
        d'.pattern.length ≤ a'.pattern.length

/-- Without a rule behind the budget. -/
theorem harmless_nil (path : Text) (kept : List Rule) : Harmless path kept [] :=
  ⟨fun _ hd => absurd hd List.not_mem_nil, fun _ ha => absurd ha List.not_mem_nil⟩

theorem allows_append_iff (path : Text) (kept starved : List Rule) :
    allows path kept = allows path (kept ++ starved) ↔ Harmless path kept starved := by
  rw [Bool.eq_iff_iff, allows_iff, allows_iff, matching_append, Precedence.allowed_append_iff,
    ← matching_append]
  simp only [mem_matching, and_imp, and_assoc]
  constructor
  · rintro ⟨hdisallow, hallow⟩
    exact ⟨hdisallow, hallow⟩
  · intro h
    exact ⟨h.disallow, h.allow⟩

/-- The answers on a text and with its other groups deleted. -/
theorem canFetch_ownLines {body body' url : Text} {parts : SplitResult}
    (hnamed : isNamed u body token = true)
    (hroom : (usableRules u body (names token)).length ≤ maxRules)
    (hbody : splitlines body' = ownLines u body token) (hurl : urlsplit u url = .ok parts) :
    canFetch u body url token =
        .ok (decide (robotsPath parts = "/robots.txt".toList) ||
          allows (robotsPath parts) (kept u body token)) ∧
      canFetch u body' url token =
        .ok (decide (robotsPath parts = "/robots.txt".toList) ||
          allows (robotsPath parts) (kept u body token ++ starved u body token)) := by
  have hne := ne_nil_of_isNamed hnamed
  have hkept : rulesFor u body token = kept u body token := by
    refine rulesFor_eq_kept hne body ?_
    rw [isNamed, names_eq hne] at hnamed
    exact hnamed
  rw [canFetch_ok hurl, canFetch_ok hurl, hkept, rulesFor_ownLines hnamed hroom hbody]
  exact ⟨rfl, rfl⟩

/-- There is such a text. -/
theorem splitlines_unlines_ownLines (u : UnicodeTables) (body token : Text) :
    splitlines (unlines (ownLines u body token)) = ownLines u body token :=
  splitlines_unlines fun _ hl => isLine_of_mem_splitlines ((prune_sublist _ _).subset hl)

/-- **Named groups and the budget.**  For every text in which some group names the
token, with at most `MAX_RULES` usable rules in the groups that do, and every URL:
deleting the other groups leaves the answer of `can_fetch` as it is exactly when no
own rule behind the first `MAX_RULES` usable rules of the own and the `*` groups
tips the decision. -/
theorem canFetch_ownLines_iff (u : UnicodeTables) (body body' url token : Text)
    (hnamed : isNamed u body token = true)
    (hroom : (usableRules u body (names token)).length ≤ maxRules)
    (hbody : splitlines body' = ownLines u body token) :
    canFetch u body url token = canFetch u body' url token ↔
      ∀ parts, urlsplit u url = .ok parts → robotsPath parts ≠ "/robots.txt".toList →
        Harmless (robotsPath parts) (kept u body token) (starved u body token) := by
  cases hurl : urlsplit u url with
  | error m => simp [canFetch, hurl, bind, Except.bind]
  | ok parts =>
    obtain ⟨hwhole, hless⟩ := canFetch_ownLines hnamed hroom hbody hurl
    rw [hwhole, hless, Except.ok.injEq]
    by_cases hpath : robotsPath parts = "/robots.txt".toList
    · simp [hpath]
    · rw [decide_eq_false hpath, Bool.false_or, Bool.false_or, allows_append_iff]
      constructor
      · rintro h parts' ⟨rfl⟩ _
        exact h
      · intro h
        exact h parts rfl hpath

theorem canFetch_ownLines_iff_sample :
    canFetch asciiTables.unicode sampleRobots "https://h/a/b".toList "newsforge".toList =
      canFetch asciiTables.unicode
        (unlines (ownLines asciiTables.unicode sampleRobots "newsforge".toList))
        "https://h/a/b".toList "newsforge".toList := by
  refine (canFetch_ownLines_iff _ _ _ _ _ (by decide +kernel) (by decide +kernel)
    (by decide +kernel)).mpr fun parts _ _ => ?_
  have hstarved : starved asciiTables.unicode sampleRobots "newsforge".toList = [] := by
    decide +kernel
  rw [hstarved]
  exact harmless_nil _ _

/-! ### A crowd in front -/

/-- A group of `n` rules for all others, and a group that names the crawler. -/
def crowdedLines (n : ℕ) : List Text :=
  "User-agent:*".toList :: List.replicate n "Allow:/".toList ++
    ["User-agent:newsforge".toList, "Disallow:/".toList]

/-- The groups of the lines. -/
def crowdedGroups (n : ℕ) : List (Group Text (Bool × Text)) :=
  [⟨[['*']], List.replicate n (true, ['/'])⟩, ⟨["newsforge".toList], [(false, ['/'])]⟩]

theorem isLine_crowded (n : ℕ) : ∀ l ∈ crowdedLines n, IsLine l := by
  intro l hl
  rcases List.mem_append.mp hl with hl | hl
  · rcases List.mem_cons.mp hl with rfl | hl
    · exact isLine_of_all (by decide)
    · rw [(List.mem_replicate.mp hl).2]
      exact isLine_of_all (by decide)
  · rcases List.mem_cons.mp hl with rfl | hl
    · exact isLine_of_all (by decide)
    · rw [List.mem_singleton.mp hl]
      exact isLine_of_all (by decide)

theorem groups_crowded {n : ℕ} (hn : n ≠ 0) :
    groups (directives asciiTables.unicode (unlines (crowdedLines n))) = crowdedGroups n := by
  have hseparate : Separate (crowdedGroups n) := by
    refine List.pairwise_pair.mpr ⟨?_, List.cons_ne_nil _ _⟩
    simpa using hn
  have hallow : directive asciiTables.unicode "Allow:/".toList = some (.item (true, ['/'])) := by
    decide
  have htokens : directives asciiTables.unicode (unlines (crowdedLines n)) =
      (crowdedGroups n).flatMap Group.tokens := by
    rw [directives, splitlines_unlines (isLine_crowded n), crowdedLines, List.filterMap_append,
      List.filterMap_cons, List.filterMap_replicate_of_some hallow]
    simp only [crowdedGroups, List.flatMap_cons, List.flatMap_nil, List.append_nil, Group.tokens,
      List.map_replicate]
    rfl
  rw [htokens, groups_flatMap_tokens hseparate]
  rfl

theorem candidates_crowded (n : ℕ) :
    candidates "newsforge".toList (crowdedGroups n) =
      List.replicate n (false, (true, ['/'])) ++ [(true, (false, ['/']))] := by
  have husable : usable (true, ['/']) = true := by decide
  have hstar : (['*'] :: ([] : List Text)).any (isEither "newsforge".toList) = true := by decide
  have hother :
      (['*'] :: ([] : List Text)).any (fun a => decide (a = "newsforge".toList)) = false := by
    decide
  rw [candidates, crowdedGroups, List.flatMap_cons, if_pos hstar, hother,
    List.filter_replicate_of_pos husable, List.map_replicate]
  congr 1

/-- As the claim has it, the number of the other rules would make no difference: the
group of the crawler is the last one here, and nothing of it is kept. -/
theorem canFetch_ownLines_crowded :
    ¬ ∀ (u : UnicodeTables) (body body' url token : Text), isNamed u body token = true →
      (usableRules u body (names token)).length ≤ maxRules →
      splitlines body' = ownLines u body token →
      canFetch u body url token = canFetch u body' url token := by
  intro hevery
  have hgroups := groups_crowded (n := maxRules) (by decide)
  have hnamed : isNamed asciiTables.unicode (unlines (crowdedLines maxRules))
      "newsforge".toList = true := by
    rw [isNamed, hgroups, crowdedGroups, List.any_cons, List.any_cons]
    exact Bool.or_eq_true_iff.mpr (.inr (by decide))
  have hother : (['*'] :: ([] : List Text)).any (names "newsforge".toList) = false := by decide
  have hroom : (usableRules asciiTables.unicode (unlines (crowdedLines maxRules))
      (names "newsforge".toList)).length ≤ maxRules := by
    rw [usableRules, hgroups, crowdedGroups, select_cons, hother, if_neg Bool.false_ne_true]
    decide
  have hcandidates : candidates "newsforge".toList (groups (directives asciiTables.unicode
      (unlines (crowdedLines maxRules)))) =
        List.replicate maxRules (false, (true, ['/'])) ++ [(true, (false, ['/']))] := by
    rw [hgroups, candidates_crowded]
  have hkept :
      kept asciiTables.unicode (unlines (crowdedLines maxRules)) "newsforge".toList = [] := by
    rw [kept, hcandidates, List.take_left' (List.length_replicate ..), ownOf,
      List.filter_replicate_of_neg (by decide), List.map_nil]
  have hstarved : starved asciiTables.unicode (unlines (crowdedLines maxRules))
      "newsforge".toList = [rule false ['/']] := by
    rw [starved, hcandidates, List.drop_left' (List.length_replicate ..)]
    rfl
  have hurl : urlsplit asciiTables.unicode "https://h/a".toList =
      .ok ⟨"https".toList, "h".toList, "/a".toList, [], []⟩ := by decide
  have hbody := splitlines_unlines_ownLines asciiTables.unicode (unlines (crowdedLines maxRules))
    "newsforge".toList
  have heq := hevery _ _ _ "https://h/a".toList _ hnamed hroom hbody
  obtain ⟨hwhole, hless⟩ := canFetch_ownLines hnamed hroom hbody hurl
  rw [heq, hless, hkept, hstarved] at hwhole
  revert hwhole
  decide

end Robots
