/-
One pass over a robots.txt selects its groups as RFC 9309 says.

* `directive`, `directives` — the lines of a text as a stream of `User-agent`
  values and rules;
* `referenceRules` — the reference, in two passes: the text is cut into groups,
  then the groups that name the token are put together, or the `*` groups if
  none names it;
* `Tracks` — the flags of the one pass are those of three collectors, for the
  token, for `*`, and for both.

Main result: `rulesFor_eq_referenceRules`.
-/
import Newsforge.Groups
import Newsforge.Robots

open PyText Groups

namespace Robots

variable {u : UnicodeTables} {token : Text}

/-! ### The reference -/

/-- What a line says: a product token, or `Allow` or not with a value.  Blank and
unknown lines say nothing. -/
def directive (u : UnicodeTables) (raw : Text) : Option (Token Text (Bool × Text)) :=
  let line := strip isSpace (partition '#' raw).1
  let key := lower u (strip isSpace (partition ':' line).1)
  let value := strip isSpace (partition ':' line).2.2
  if !line.contains ':' then none
  else if key = "user-agent".toList then some (.head (agentToken value))
  else if key = "allow".toList then some (.item (true, value))
  else if key = "disallow".toList then some (.item (false, value))
  else none

/-- The stream of a text. -/
def directives (u : UnicodeTables) (body : Text) : List (Token Text (Bool × Text)) :=
  (splitlines body).filterMap (directive u)

/-- An empty rule matches nothing, and a pattern has a limit. -/
def usable (r : Bool × Text) : Bool := !r.2.isEmpty && r.2.length ≤ maxPatternChars

/-- The usable rules of the groups that name one of some agents. -/
def usableRules (u : UnicodeTables) (body : Text) (p : Text → Bool) : List (Bool × Text) :=
  (select p (groups (directives u body))).filter usable

/-- RFC 9309, 2.2.1, in two passes. -/
def referenceRules (u : UnicodeTables) (body token : Text) : List Rule :=
  let named := (groups (directives u body)).any fun g => g.heads.any (· = token)
  let selected := if named then usableRules u body (· = token) else usableRules u body (· = ['*'])
  selected.map fun r => rule r.1 r.2

/-! ### The pass, line by line -/

/-- The agents of the `*` set: the token itself goes to its own set. -/
def isStar (token agent : Text) : Bool := agent ≠ token && agent = ['*']

/-- What a line does to the variables of the loop. -/
def Scan.read (token : Text) (st : Scan) : Token Text (Bool × Text) → Scan
  | .head agent => st.agent token agent
  | .item r => st.rule r.1 r.2

/-- A `User-agent` line behind rules resets the flags, and then sets its own. -/
theorem Scan.agent_eq (hne : token ≠ []) (st : Scan) (agent : Text) :
    st.agent token agent =
      { st with
        named := st.named || agent = token
        forOwn := (!st.inRules && st.forOwn) || agent = token
        forStar := (!st.inRules && st.forStar) || isStar token agent
        inRules := false } := by
  have htoken : (!token.isEmpty) = true := by simpa using hne
  have hreset : (if st.inRules then { st with forOwn := false, forStar := false, inRules := false }
      else st) = { st with
        forOwn := !st.inRules && st.forOwn
        forStar := !st.inRules && st.forStar
        inRules := false } := by
    obtain ⟨own, star, named, forOwn, forStar, inRules, count⟩ := st
    cases inRules <;> rfl
  rw [Scan.agent, hreset, isStar, htoken, Bool.true_and]
  by_cases ha : agent = token
  · simp [ha]
  · rw [decide_eq_false ha]
    by_cases hs : agent = ['*']
    · simp [hs, hs ▸ ha]
    · simp [hs]

/-- What an `Allow` or `Disallow` line does: its rule is kept if a group of either
set is open, the rule is usable and the budget is not used up. -/
theorem Scan.rule_eq (st : Scan) (r : Bool × Text) :
    st.rule r.1 r.2 =
      if (st.forOwn || st.forStar) && usable r && st.count < maxRules then
        { st with
          inRules := true
          count := st.count + 1
          own := if st.forOwn then st.own ++ [Robots.rule r.1 r.2] else st.own
          star := if st.forStar then st.star ++ [Robots.rule r.1 r.2] else st.star }
      else { st with inRules := true } := by
  rw [Scan.rule]
  by_cases hon : (st.forOwn || st.forStar) = true
  · have hskip : (r.2.isEmpty || maxPatternChars < r.2.length || maxRules ≤ st.count) =
        !(usable r && st.count < maxRules) := by
      simp only [usable, Bool.not_and, Bool.not_not, ← decide_not, Nat.not_le, Nat.not_lt]
    rw [if_neg (by rw [hon]; exact Bool.false_ne_true), hskip, hon, Bool.true_and]
    cases usable r && decide (st.count < maxRules) <;> rfl
  · rw [Bool.eq_false_iff.mpr hon, Bool.false_and, Bool.false_and, Bool.not_false, if_pos rfl,
      if_neg Bool.false_ne_true]

theorem scanLine_eq (st : Scan) (raw : Text) :
    scanLine u token st raw = ((directive u raw).map (st.read token)).getD st := by
  rw [scanLine, directive]
  generalize strip isSpace (partition '#' raw).1 = line
  generalize lower u (strip isSpace (partition ':' line).1) = key
  generalize strip isSpace (partition ':' line).2.2 = value
  generalize "user-agent".toList = userAgent
  generalize "allow".toList = allow
  generalize "disallow".toList = disallow
  by_cases hcolon : (!line.contains ':') = true
  · rw [if_pos hcolon, if_pos hcolon]
    rfl
  rw [if_neg hcolon, if_neg hcolon]
  by_cases hagent : key = userAgent
  · rw [if_pos hagent, if_pos hagent]
    rfl
  rw [if_neg hagent, if_neg hagent]
  by_cases hallow : key = allow
  · rw [if_pos (by simp [hallow]), if_pos hallow, decide_eq_true hallow]
    rfl
  rw [if_neg hallow, decide_eq_false hallow]
  by_cases hdisallow : key = disallow
  · rw [if_pos (by simp [hdisallow]), if_pos hdisallow]
    rfl
  · rw [if_neg (by simp [hdisallow]), if_neg hdisallow]
    rfl

theorem foldl_scanLine (lines : List Text) (st : Scan) :
    lines.foldl (scanLine u token) st =
      (lines.filterMap (directive u)).foldl (Scan.read token) st := by
  induction lines generalizing st with
  | nil => rfl
  | cons raw lines ih =>
    rw [List.foldl_cons, ih, scanLine_eq, List.filterMap_cons]
    cases directive u raw with
    | none => rfl
    | some t => rfl

theorem Scan.rule_named (st : Scan) (allow : Bool) (value : Text) :
    (st.rule allow value).named = st.named := by
  rw [Scan.rule]
  split
  · rfl
  · split <;> rfl

/-- Some `User-agent` line so far names the token. -/
theorem named_foldl (hne : token ≠ []) (ts : List (Token Text (Bool × Text))) (st : Scan) :
    (ts.foldl (Scan.read token) st).named =
      (st.named || ts.any (Token.isHead fun agent => agent = token)) := by
  induction ts generalizing st with
  | nil => exact (Bool.or_false _).symm
  | cons t ts ih =>
    rw [List.foldl_cons, ih, List.any_cons, ← Bool.or_assoc]
    congr 1
    cases t with
    | head agent =>
      rw [Scan.read, Scan.agent_eq hne]
      rfl
    | item r =>
      rw [Scan.read, Scan.rule_named]
      exact (Bool.or_false _).symm

/-! ### Three collectors -/

/-- The agents of either set. -/
def isEither (token agent : Text) : Bool := agent = token || agent = ['*']

/-- The collectors of the two sets, and of both. -/
structure Collectors where
  own : Collector (Bool × Text)
  star : Collector (Bool × Text)
  either : Collector (Bool × Text)

def Collectors.start : Collectors := ⟨.start, .start, .start⟩

def Collectors.step (token : Text) (c : Collectors) (t : Token Text (Bool × Text)) : Collectors :=
  ⟨c.own.step (fun a => a = token) t, c.star.step (isStar token) t,
    c.either.step (isEither token) t⟩

/-- The usable rules of a collector, built. -/
def built (out : List (Bool × Text)) : List Rule := (out.filter usable).map fun r => rule r.1 r.2

/-- The variables of the loop are those of the collectors. -/
structure Tracks (c : Collectors) (st : Scan) : Prop where
  own : st.own = built c.own.out
  star : st.star = built c.star.out
  count : st.count = (c.either.out.filter usable).length
  forOwn : st.forOwn = c.own.on
  forStar : st.forStar = c.star.on
  either : c.either.on = (c.own.on || c.star.on)
  inOwn : c.own.inItems = st.inRules
  inStar : c.star.inItems = st.inRules
  inEither : c.either.inItems = st.inRules

theorem tracks_start : Tracks .start Scan.start :=
  ⟨rfl, rfl, rfl, rfl, rfl, rfl, rfl, rfl, rfl⟩

theorem isEither_eq (token agent : Text) :
    isEither token agent = (decide (agent = token) || isStar token agent) := by
  by_cases ha : agent = token <;> simp [isEither, isStar, ha]

/-- A `User-agent` line. -/
theorem Tracks.agent {c : Collectors} {st : Scan} (h : Tracks c st) (hne : token ≠ [])
    (agent : Text) : Tracks (c.step token (.head agent)) (st.agent token agent) := by
  rw [Scan.agent_eq hne]
  refine ⟨h.own, h.star, h.count, ?_, ?_, ?_, rfl, rfl, rfl⟩
  · simp only [Collectors.step, Collector.step, h.inOwn, h.forOwn]
  · simp only [Collectors.step, Collector.step, h.inStar, h.forStar]
  · simp only [Collectors.step, Collector.step, h.inOwn, h.inStar, h.inEither, h.either,
      isEither_eq]
    cases st.inRules <;> simp [Bool.or_assoc, Bool.or_left_comm]

/-- A rule that is not usable is not collected. -/
theorem built_concat (out : List (Bool × Text)) (r : Bool × Text) :
    built (out ++ [r]) = if usable r then built out ++ [rule r.1 r.2] else built out := by
  rw [built, List.filter_append, List.map_append]
  by_cases hr : usable r = true
  · rw [if_pos hr, List.filter_cons_of_pos hr]
    rfl
  · rw [if_neg hr, List.filter_cons_of_neg hr]
    exact List.append_nil _

/-- A collector that is on collects a rule; it is built if it is usable. -/
theorem built_step_item (p : Text → Bool) (c : Collector (Bool × Text)) (r : Bool × Text) :
    built (c.step p (.item r)).out =
      if c.on && usable r then built c.out ++ [rule r.1 r.2] else built c.out := by
  rw [Collector.step]
  cases c.on with
  | true =>
    rw [if_pos rfl, built_concat, Bool.true_and]
  | false => rw [if_neg Bool.false_ne_true, Bool.false_and, if_neg Bool.false_ne_true]

theorem length_step_item (p : Text → Bool) (c : Collector (Bool × Text)) (r : Bool × Text) :
    ((c.step p (.item r)).out.filter usable).length =
      (c.out.filter usable).length + if c.on && usable r then 1 else 0 := by
  have hlength : ∀ out : List (Bool × Text), (built out).length = (out.filter usable).length :=
    fun out => List.length_map ..
  rw [← hlength, built_step_item, ← hlength]
  split
  · rw [List.length_append, List.length_singleton]
  · rfl

/-- An `Allow` or `Disallow` line, while there is room for its rule. -/
theorem Tracks.rule {c : Collectors} {st : Scan} (h : Tracks c st) (r : Bool × Text)
    (hroom : ((c.step token (.item r)).either.out.filter usable).length ≤ maxRules) :
    Tracks (c.step token (.item r)) (st.rule r.1 r.2) := by
  have hon : (st.forOwn || st.forStar) = c.either.on := by rw [h.either, h.forOwn, h.forStar]
  have hcount := length_step_item (isEither token) c.either r
  rw [← h.count] at hcount
  rw [Scan.rule_eq, hon]
  by_cases hkept : (c.either.on && usable r) = true
  · -- the budget has room for the rule, and every collector that is on takes it
    have husable : usable r = true := (Bool.and_eq_true_iff.mp hkept).2
    rw [if_pos hkept] at hcount
    have hlt : st.count < maxRules := Nat.le_trans (Nat.le_of_eq hcount.symm) hroom
    rw [hkept, Bool.true_and, if_pos (decide_eq_true hlt)]
    refine ⟨?_, ?_, hcount.symm, h.forOwn, h.forStar, h.either, rfl, rfl, rfl⟩
    · show (if st.forOwn then _ else _) = _
      rw [Collectors.step, built_step_item, husable, Bool.and_true, h.forOwn, h.own]
    · show (if st.forStar then _ else _) = _
      rw [Collectors.step, built_step_item, husable, Bool.and_true, h.forStar, h.star]
  · -- what is not usable is not built, and neither collector is on if none is
    have hskip : ∀ on : Bool, (on = true → c.either.on = true) → ¬ (on && usable r) = true :=
      fun on himp hb => hkept (Bool.and_eq_true_iff.mpr
        ⟨himp (Bool.and_eq_true_iff.mp hb).1, (Bool.and_eq_true_iff.mp hb).2⟩)
    rw [if_neg hkept] at hcount
    rw [Bool.eq_false_iff.mpr hkept, Bool.false_and, if_neg Bool.false_ne_true]
    refine ⟨?_, ?_, hcount.symm, h.forOwn, h.forStar, h.either, rfl, rfl, rfl⟩
    · have hown : ¬ (c.own.on && usable r) = true :=
        hskip _ fun ho => by rw [h.either, ho, Bool.true_or]
      rw [Collectors.step, built_step_item, if_neg hown, h.own]
    · have hstar : ¬ (c.star.on && usable r) = true :=
        hskip _ fun hs => by rw [h.either, hs, Bool.or_true]
      rw [Collectors.step, built_step_item, if_neg hstar, h.star]

theorem Tracks.read {c : Collectors} {st : Scan} (h : Tracks c st) (hne : token ≠ [])
    (t : Token Text (Bool × Text))
    (hroom : ((c.step token t).either.out.filter usable).length ≤ maxRules) :
    Tracks (c.step token t) (st.read token t) := by
  cases t with
  | head agent => exact h.agent hne agent
  | item r => exact h.rule r hroom

/-- The three collectors run side by side. -/
theorem foldl_step (ts : List (Token Text (Bool × Text))) (c : Collectors) :
    ts.foldl (Collectors.step token) c =
      ⟨ts.foldl (Collector.step fun a => a = token) c.own,
        ts.foldl (Collector.step (isStar token)) c.star,
        ts.foldl (Collector.step (isEither token)) c.either⟩ := by
  induction ts generalizing c with
  | nil => rfl
  | cons t ts ih =>
    rw [List.foldl_cons, ih]
    rfl

/-- The whole pass tracks the collectors, if they end with room for every rule. -/
theorem Tracks.foldl (hne : token ≠ []) (ts : List (Token Text (Bool × Text))) {c : Collectors}
    {st : Scan} (h : Tracks c st)
    (hroom : ((ts.foldl (Collectors.step token) c).either.out.filter usable).length ≤ maxRules) :
    Tracks (ts.foldl (Collectors.step token) c) (ts.foldl (Scan.read token) st) := by
  induction ts generalizing c st with
  | nil => exact h
  | cons t ts ih =>
    refine ih (h.read hne t (Nat.le_trans ?_ hroom)) hroom
    -- what is collected up to here is collected at the end
    rw [List.foldl_cons, foldl_step, Collector.out_foldl, List.filter_append, List.length_append]
    exact Nat.le_add_right _ _

/-! ### The reference is met -/

theorem isStar_of_not_named {gs : List (Group Text (Bool × Text))}
    (h : (gs.any fun g => g.heads.any (· = token)) = false) :
    select (isStar token) gs = select (· = ['*']) gs := by
  refine select_congr fun g hg a ha => ?_
  have hne : a ≠ token := by
    rintro rfl
    rw [List.any_eq_false] at h
    exact h g hg (List.any_eq_true.mpr ⟨a, ha, decide_eq_true rfl⟩)
  simp [isStar, hne]

/-- **Group selection.**  For every text and every product token, if the usable
rules of the groups that name the token or `*` are at most `MAX_RULES`, the one
pass returns what the two-pass reference does, in order. -/
theorem rulesFor_eq_referenceRules (u : UnicodeTables) (body token : Text) (hne : token ≠ [])
    (hroom : (usableRules u body fun a => a = token || a = ['*']).length ≤ maxRules) :
    rulesFor u body token = referenceRules u body token := by
  have hcollect : ∀ p : Text → Bool,
      ((directives u body).foldl (Collector.step p) Collector.start).out =
        select p (groups (directives u body)) := fun p => collect_eq_select p _
  have htracks := tracks_start.foldl hne (directives u body) (by
    rw [foldl_step]
    exact Nat.le_trans (Nat.le_of_eq (congrArg (fun l => (l.filter usable).length)
      (hcollect (isEither token)))) hroom)
  rw [foldl_step] at htracks
  have hnamed := named_foldl hne (directives u body) Scan.start
  rw [← any_groups] at hnamed
  rw [rulesFor, foldl_scanLine, ← directives, referenceRules]
  rw [hnamed]
  cases hn : (groups (directives u body)).any fun g => g.heads.any fun a => decide (a = token) with
  | true =>
    rw [if_pos (by simp), if_pos rfl, htracks.own]
    exact congrArg built (hcollect _)
  | false =>
    rw [if_neg (by simp [Scan.start]), if_neg Bool.false_ne_true, htracks.star]
    exact congrArg built ((hcollect _).trans (isStar_of_not_named hn))

/-- Two groups of one agent, with an unknown line between its agents and an empty
rule, and a group of all others. -/
def sampleRobots : Text :=
  ("User-agent: newsforge\nX: 5\nUser-agent: a\nDisallow: /a#b\nAllow:\n" ++
    "User-agent: *\nDisallow: /\nUser-agent: NewsForge\nAllow: /b").toList

theorem rulesFor_eq_referenceRules_sample :
    (rulesFor SafeHttp.asciiTables.unicode sampleRobots "newsforge".toList).map Rule.pattern =
        ["/a".toList, "/b".toList] ∧
      rulesFor SafeHttp.asciiTables.unicode sampleRobots "newsforge".toList =
        referenceRules SafeHttp.asciiTables.unicode sampleRobots "newsforge".toList := by
  refine ⟨by decide +kernel, rulesFor_eq_referenceRules _ _ _ (by decide) (by decide +kernel)⟩

end Robots
