/-
The feeds of a search (`FeedIdsField` of `apps/search/serializers.py`).

* `isId`, `readIds`, `toInternalValue` — the field, for all values of the parameter;
* `isId_iff`, `readIds_eq_ok` — a part that is accepted is the numeral of a number below
  10^18, so the `bigint` of the query holds it;
* `parts_join` — where the parts are cut, at a comma or between two values of the parameter,
  makes no difference.

Main result: `feed_ids_spec`.
-/
import Mathlib.Data.List.Dedup
import Mathlib.Data.List.Induction
import Mathlib.Data.List.Sort
import Newsforge.SsrfSafety
import Newsforge.TextLines

open PyText

namespace SearchApi

/-! ### The field -/

/-- `MAX_FEEDS`. -/
def maxFeeds : ℕ := 50

/-- `_ID_RE.match(part)`, for a part with no line feed at its end. -/
def isId : Text → Bool
  | [] => false
  | c :: rest => '1' ≤ c && c ≤ '9' && rest.all Char.isDigit && rest.length ≤ 17

/-- The validation errors of the field. -/
inductive FieldError
  /-- `not a feed id: …`, with the first characters of the part -/
  | notAFeedId (shown : Text)
  /-- `at most 50 feeds` -/
  | tooMany
  deriving DecidableEq, Repr

/-- The parts of all values, in the order of the two loops. -/
def parts (items : List Text) : List Text :=
  items.flatMap fun chunk => (split ',' chunk).map (strip isSpace)

/-- The body of the loops. -/
def readIds : List Text → Except FieldError (List ℕ)
  | [] => .ok []
  | part :: rest =>
    if isId part then (readIds rest).map fun ids => decValue part :: ids
    else .error (.notAFeedId (part.take 20))

/-- `sorted(set(ids))`. -/
def sortedSet (ids : List ℕ) : List ℕ := ids.dedup.insertionSort (· ≤ ·)

/-- `to_internal_value`. -/
def toInternalValue (items : List Text) : Except FieldError (List ℕ) :=
  match readIds (parts items) with
  | .error e => .error e
  | .ok ids => if maxFeeds < ids.length then .error .tooMany else .ok (sortedSet ids)

/-! ### Numerals -/

theorem exists_digitChar {c : Char} (h : c.isDigit = true) : ∃ d < 10, c = Nat.digitChar d := by
  have hrange : 48 ≤ c.toNat ∧ c.toNat ≤ 57 := by
    simp only [Char.isDigit, Bool.and_eq_true, decide_eq_true_eq] at h
    exact ⟨h.1, h.2⟩
  have hofNat : c = Char.ofNat c.toNat := (Char.ofNat_toNat c).symm
  obtain ⟨hlo, hhi⟩ := hrange
  refine ⟨c.toNat - 48, by omega, ?_⟩
  have hall : ∀ n < 58, 48 ≤ n → Char.ofNat n = Nat.digitChar (n - 48) := by decide
  rw [← hall c.toNat (by omega) hlo]
  exact hofNat

/-- Digits behind a first one that is not zero are a numeral. -/
theorem exists_natStr {d : ℕ} (hd : d < 10) (hpos : 0 < d) {s : Text}
    (h : s.all Char.isDigit = true) : ∃ n, 0 < n ∧ Nat.digitChar d :: s = natStr n := by
  induction s using List.reverseRecOn with
  | nil => exact ⟨d, hpos, (Nat.toDigits_of_lt_base hd).symm⟩
  | append_singleton s c ih =>
    rw [List.all_append, Bool.and_eq_true] at h
    obtain ⟨n, hn, heq⟩ := ih h.1
    obtain ⟨e, he, rfl⟩ := exists_digitChar (by simpa using h.2)
    refine ⟨10 * n + e, by omega, ?_⟩
    rw [natStr, ← Nat.toDigits_append_toDigits (by decide) hn he, Nat.toDigits_of_lt_base he,
      ← List.cons_append, heq]
    rfl

/-- The numeral of a positive number begins with another digit than zero. -/
theorem natStr_head {n : ℕ} (hn : 0 < n) :
    ∃ d s, 0 < d ∧ d < 10 ∧ natStr n = Nat.digitChar d :: s ∧ s.all Char.isDigit = true := by
  induction n using Nat.strongRecOn with
  | ind n ih =>
    by_cases hsmall : n < 10
    · exact ⟨n, [], hn, hsmall, Nat.toDigits_of_lt_base hsmall, rfl⟩
    · obtain ⟨d, s, hd, hlt, heq, hs⟩ := ih (n / 10) (by omega) (by omega)
      refine ⟨d, s ++ [Nat.digitChar (n % 10)], hd, hlt, ?_, ?_⟩
      · rw [natStr, Nat.toDigits_of_base_le (by decide) (by omega), ← natStr, heq]
        rfl
      · rw [List.all_append, hs, Bool.true_and, List.all_cons, List.all_nil, Bool.and_true]
        exact (by decide : ∀ d < 10, (Nat.digitChar d).isDigit = true) _ (by omega)

/-- **A part is accepted if and only if it is the numeral of a number in range.** -/
theorem isId_iff {part : Text} :
    isId part = true ↔ ∃ n, 0 < n ∧ n < 10 ^ 18 ∧ part = natStr n := by
  have hfirst : ∀ d < 10, ('1' ≤ Nat.digitChar d ∧ Nat.digitChar d ≤ '9') ↔ 0 < d := by decide
  have hlength : ∀ n, (natStr n).length ≤ 18 ↔ n < 10 ^ 18 := fun n =>
    Nat.length_toDigits_le_iff (by decide) (by decide)
  constructor
  · cases part with
    | nil => exact fun h => by cases h
    | cons c rest =>
      intro h
      simp only [isId, Bool.and_eq_true, decide_eq_true_eq] at h
      obtain ⟨⟨⟨hlo, hhi⟩, hdigits⟩, hlen⟩ := h
      have hdigit : c.isDigit = true := by
        simp only [Char.isDigit, Bool.and_eq_true, decide_eq_true_eq]
        have hone : (48 : UInt32) ≤ '1'.val := by decide
        exact ⟨UInt32.le_trans hone hlo, hhi⟩
      obtain ⟨d, hd, rfl⟩ := exists_digitChar hdigit
      obtain ⟨n, hn, heq⟩ := exists_natStr hd ((hfirst d hd).mp ⟨hlo, hhi⟩) hdigits
      refine ⟨n, hn, (hlength n).mp ?_, heq⟩
      rw [← heq, List.length_cons]
      omega
  · rintro ⟨n, hn, hlt, rfl⟩
    obtain ⟨d, s, hd, hd10, heq, hs⟩ := natStr_head hn
    have hlen := (hlength n).mpr hlt
    rw [heq, List.length_cons] at hlen
    obtain ⟨hlo, hhi⟩ := (hfirst d hd10).mpr hd
    rw [heq, isId, decide_eq_true hlo, decide_eq_true hhi, hs, Bool.true_and, Bool.true_and,
      Bool.true_and, decide_eq_true_eq]
    omega

/-- The loop reads a list of such numerals, and no other list. -/
theorem readIds_eq_ok {ps : List Text} {ids : List ℕ} :
    readIds ps = .ok ids ↔ ps = ids.map natStr ∧ ∀ n ∈ ids, 0 < n ∧ n < 10 ^ 18 := by
  induction ps generalizing ids with
  | nil =>
    rw [readIds]
    constructor
    · intro h
      cases h
      exact ⟨rfl, fun n hn => by cases hn⟩
    · rintro ⟨h, -⟩
      rw [List.map_eq_nil_iff.mp h.symm]
  | cons part rest ih =>
    rw [readIds]
    by_cases hid : isId part = true
    · rw [if_pos hid]
      obtain ⟨n, hn, hlt, rfl⟩ := isId_iff.mp hid
      rw [SafeHttp.decValue_natStr]
      constructor
      · intro h
        cases hrest : readIds rest with
        | error e =>
          rw [hrest] at h
          cases h
        | ok ns =>
          rw [hrest] at h
          cases h
          obtain ⟨rfl, hns⟩ := ih.mp hrest
          exact ⟨rfl, List.forall_mem_cons.mpr ⟨⟨hn, hlt⟩, hns⟩⟩
      · rintro ⟨h, hids⟩
        cases ids with
        | nil => cases h
        | cons m ns =>
          obtain ⟨hhead, htail⟩ := List.cons.inj h
          have hm : n = m := by
            rw [← SafeHttp.decValue_natStr n, hhead, SafeHttp.decValue_natStr]
          rw [ih.mpr ⟨htail, (List.forall_mem_cons.mp hids).2⟩, hm]
          rfl
    · rw [if_neg hid]
      constructor
      · intro h
        cases h
      · rintro ⟨h, hids⟩
        cases ids with
        | nil => cases h
        | cons m ns =>
          obtain ⟨rfl, -⟩ := List.cons.inj h
          obtain ⟨hm, hlt⟩ := (List.forall_mem_cons.mp hids).1
          exact absurd (isId_iff.mpr ⟨m, hm, hlt, rfl⟩) hid

/-! ### The list of feeds -/

/-- `sorted(set(…))` is the one increasing list with these members. -/
theorem eq_sortedSet_iff {ids ns : List ℕ} :
    ids = sortedSet ns ↔ ids.Pairwise (· < ·) ∧ ∀ n, n ∈ ids ↔ n ∈ ns := by
  have hperm : (sortedSet ns).Perm ns.dedup := List.perm_insertionSort _ _
  have hmem : ∀ n, n ∈ sortedSet ns ↔ n ∈ ns := fun n => hperm.mem_iff.trans List.mem_dedup
  have hnodup : (sortedSet ns).Nodup := hperm.nodup_iff.mpr (List.nodup_dedup ns)
  have hsorted : (sortedSet ns).Pairwise (· < ·) :=
    (List.Pairwise.and (List.pairwise_insertionSort _ _) hnodup).imp
      fun ⟨hle, hne⟩ => lt_of_le_of_ne hle hne
  constructor
  · rintro rfl
    exact ⟨hsorted, hmem⟩
  · rintro ⟨hids, hsame⟩
    have hnodup' : ids.Nodup := hids.imp fun hlt => ne_of_lt hlt
    have heq : ids.Perm (sortedSet ns) :=
      (List.perm_ext_iff_of_nodup hnodup' hnodup).mpr fun n => (hsame n).trans (hmem n).symm
    exact heq.eq_of_pairwise (fun a b _ _ hab hba => absurd hab (lt_asymm hba)) hids hsorted

/-- The parts of values that are joined with commas. -/
theorem parts_join {items : List Text} (hne : items ≠ []) :
    parts [join ',' items] = parts items := by
  have hsplit : split ',' (join ',' items) = items.flatMap (split ',') := by
    induction items with
    | nil => exact absurd rfl hne
    | cons s items ih =>
      rcases items with _ | ⟨t, items⟩
      · simp [join, List.intercalate]
      · have hcons : join ',' (s :: t :: items) = s ++ ',' :: join ',' (t :: items) := by
          simp [join, List.intercalate]
        rw [hcons, split, List.splitOn_append_cons_self, ← split, ← split,
          ih (List.cons_ne_nil _ _)]
        rfl
  rw [parts, List.flatMap_singleton, hsplit, parts, List.map_flatMap]

/-- **Which requests name which feeds.**  A request is accepted if and only if its parts,
blanks around them apart, are the numerals of at most fifty positive numbers that a `bigint`
holds; the feeds are these numbers in increasing order, each once.  It makes no difference
whether the parts stand in one value, between commas, or in several. -/
theorem feed_ids_spec (items : List Text) :
    (∀ ids, toInternalValue items = .ok ids ↔ ∃ ns : List ℕ, parts items = ns.map natStr ∧
      (∀ n ∈ ns, 0 < n ∧ n < 10 ^ 18) ∧ ns.length ≤ maxFeeds ∧
        ids.Pairwise (· < ·) ∧ ∀ n, n ∈ ids ↔ n ∈ ns) ∧
      (items ≠ [] → toInternalValue [join ',' items] = toInternalValue items) := by
  constructor
  · intro ids
    simp only [← eq_sortedSet_iff]
    rw [toInternalValue]
    constructor
    · intro h
      cases hread : readIds (parts items) with
      | error e =>
        rw [hread] at h
        cases h
      | ok ns =>
        simp only [hread] at h
        split at h
        · cases h
        · rename_i hfew
          cases h
          obtain ⟨hparts, hrange⟩ := readIds_eq_ok.mp hread
          exact ⟨ns, hparts, hrange, not_lt.mp hfew, rfl⟩
    · rintro ⟨ns, hparts, hrange, hfew, rfl⟩
      rw [readIds_eq_ok.mpr ⟨hparts, hrange⟩]
      simp only [if_neg (not_lt.mpr hfew)]
  · intro hne
    rw [toInternalValue, toInternalValue, parts_join hne]

theorem feed_ids_spec_sample :
    toInternalValue ["3, 1".toList, "3".toList] = .ok [1, 3] ∧
      toInternalValue ["3, 1,3".toList] = .ok [1, 3] := by
  have hmem : ∀ n, n ∈ [1, 3] ↔ n ∈ [3, 1, 3] := by
    intro n
    simp only [List.mem_cons, List.not_mem_nil, or_false]
    omega
  have hok : toInternalValue ["3, 1".toList, "3".toList] = .ok [1, 3] :=
    ((feed_ids_spec ["3, 1".toList, "3".toList]).1 [1, 3]).mpr
      ⟨[3, 1, 3], by decide, by decide, by decide, by decide, hmem⟩
  exact ⟨hok, ((feed_ids_spec _).2 (by decide)).trans hok⟩

example : toInternalValue ["1,2,".toList] = .error (.notAFeedId []) := by decide

end SearchApi
