/-
Python text.

A `str` is modelled as the list of its characters.  Operations that look at
single characters are defined here as Python defines them; what depends on the
tables of the Unicode database (case mapping outside ASCII, NFKC, `repr`) is
read from a `UnicodeTables`, about which nothing is assumed.

* `partition`, `rpartition`, `strip`, `replaceChar`, `split`, `join`, `words` — the
  `str` methods of those names, `words` being `split()`;
* `partition_of_notMem`, `partition_append`, `rpartition_of_notMem` — the
  separator is absent, or its first occurrence is known;
* `numeral_toDigits` — a printed numeral reads back.
-/
import Mathlib.Data.List.Basic
import Mathlib.Tactic.Common

/-- A Python `str`. -/
abbrev Text := List Char

namespace PyText

/-- Per-string answers of the Unicode database. -/
structure UnicodeTables where
  lower : Text → Text
  upper : Text → Text
  nfkc : Text → Text
  repr : Text → Text

/-- `str.isascii` for one character. -/
def isAsciiChar (c : Char) : Bool := c.toNat < 128

/-- `str.isascii`. -/
def isAscii (s : Text) : Bool := s.all isAsciiChar

/-- `str.lower`: letter by letter inside ASCII, by the tables otherwise. -/
def lower (u : UnicodeTables) (s : Text) : Text :=
  if isAscii s then s.map Char.toLower else u.lower s

/-- `str.upper`. -/
def upper (u : UnicodeTables) (s : Text) : Text :=
  if isAscii s then s.map Char.toUpper else u.upper s

/-- `str.isspace` for one character (Unicode White_Space and the C0 separators). -/
def isSpace (c : Char) : Bool :=
  let n := c.toNat
  (9 ≤ n && n ≤ 13) || (28 ≤ n && n ≤ 32) || n == 0x85 || n == 0xA0 || n == 0x1680 ||
    (0x2000 ≤ n && n ≤ 0x200A) || n == 0x2028 || n == 0x2029 || n == 0x202F || n == 0x205F ||
    n == 0x3000

/-- `str.lstrip(chars)`, the set of characters given as a predicate. -/
def lstrip (p : Char → Bool) (s : Text) : Text := s.dropWhile p

/-- `str.rstrip(chars)`. -/
def rstrip (p : Char → Bool) (s : Text) : Text := (s.reverse.dropWhile p).reverse

/-- `str.strip(chars)`. -/
def strip (p : Char → Bool) (s : Text) : Text := rstrip p (lstrip p s)

/-- `str.replace(c, "")`. -/
def removeChar (c : Char) (s : Text) : Text := s.filter (· ≠ c)

/-- `str.replace(c, d)` for single characters. -/
def replaceChar (c d : Char) (s : Text) : Text := s.map fun x => if x = c then d else x

/-- `str.partition(c)`: the text before the first `c`, whether there is one,
and the text after it. -/
def partition (c : Char) : Text → Text × Bool × Text
  | [] => ([], false, [])
  | x :: s =>
    if x = c then ([], true, s)
    else (x :: (partition c s).1, (partition c s).2)

/-- `str.rpartition(c)`: as `partition`, at the last `c`. -/
def rpartition (c : Char) (s : Text) : Text × Bool × Text :=
  match partition c s.reverse with
  | (after, true, before) => (before.reverse, true, after.reverse)
  | (_, false, _) => ([], false, s)

/-- `str.split(c)`. -/
def split (c : Char) (s : Text) : List Text := s.splitOn c

/-- `c.join(parts)`. -/
def join (c : Char) (parts : List Text) : Text := [c].intercalate parts

/-- `str.startswith`. -/
def startsWith (pre s : Text) : Bool := pre.isPrefixOf s

/-- `str.endswith`. -/
def endsWith (suf s : Text) : Bool := suf.isSuffixOf s

/-- `str.find(part, pos)`: the first place at or behind `pos` where the text goes
on with `part`. -/
def find (part : Text) (pos : ℕ) (s : Text) : Option ℕ :=
  (List.range (s.length + 1)).find? fun i => pos ≤ i && startsWith part (s.drop i)

/-- The characters that end a line. -/
def isLineBreak (c : Char) : Bool :=
  let n := c.toNat
  (10 ≤ n && n ≤ 13) || (28 ≤ n && n ≤ 30) || n == 0x85 || n == 0x2028 || n == 0x2029

/-- `str.splitlines`, the characters of the current line given in reverse. -/
def splitlinesFrom : Text → Text → List Text
  | line, [] => if line.isEmpty then [] else [line.reverse]
  | line, '\r' :: '\n' :: s => line.reverse :: splitlinesFrom [] s
  | line, c :: s =>
    if isLineBreak c then line.reverse :: splitlinesFrom [] s else splitlinesFrom (c :: line) s

/-- `str.splitlines`. -/
def splitlines (s : Text) : List Text := splitlinesFrom [] s

/-- `str.split()`, the word that is open given in reverse. -/
def wordsFrom : Text → Text → List Text
  | word, [] => if word.isEmpty then [] else [word.reverse]
  | word, c :: s =>
    if isSpace c then (if word.isEmpty then [] else [word.reverse]) ++ wordsFrom [] s
    else wordsFrom (c :: word) s

/-- `str.split()`. -/
def words (s : Text) : List Text := wordsFrom [] s

/-- `str(n)` for a natural number. -/
def natStr (n : ℕ) : Text := Nat.toDigits 10 n

/-- `str(n)` for an integer. -/
def intStr (n : Int) : Text := if n < 0 then '-' :: natStr n.natAbs else natStr n.natAbs

/-- `'%x' % n`. -/
def hexStr (n : ℕ) : Text := Nat.toDigits 16 n

/-- The value of a string of digits in base `b`, `digit` giving the value of
one character. -/
def numeral (b : ℕ) (digit : Char → ℕ) (s : Text) : ℕ :=
  s.foldl (fun acc c => acc * b + digit c) 0

/-- `int(s)` for a string of ASCII digits. -/
def decValue (s : Text) : ℕ := numeral 10 (fun c => c.toNat - '0'.toNat) s

/-- `str.isdigit() and str.isascii()`. -/
def isDecimal (s : Text) : Bool := !s.isEmpty && s.all Char.isDigit

/-- `sys.int_info.default_max_str_digits`, the most digits that `int()` reads. -/
def maxStrDigits : ℕ := 4300

/-- The text of the `ValueError` for more digits. -/
def tooManyDigits (n : ℕ) : Text :=
  "Exceeds the limit (4300 digits) for integer string conversion: value has ".toList ++ natStr n ++
    " digits; use sys.set_int_max_str_digits() to increase the limit".toList

/-! ### Partition -/

theorem partition_of_notMem {c : Char} {s : Text} (h : c ∉ s) :
    partition c s = (s, false, []) := by
  induction s with
  | nil => rfl
  | cons x s ih =>
    rw [List.mem_cons, not_or] at h
    rw [partition, if_neg (Ne.symm h.1), ih h.2]

theorem partition_append {c : Char} {s : Text} (h : c ∉ s) (t : Text) :
    partition c (s ++ c :: t) = (s, true, t) := by
  induction s with
  | nil => simp [partition]
  | cons x s ih =>
    rw [List.mem_cons, not_or] at h
    rw [List.cons_append, partition, if_neg (Ne.symm h.1), ih h.2]

theorem rpartition_of_notMem {c : Char} {s : Text} (h : c ∉ s) :
    rpartition c s = ([], false, s) := by
  rw [rpartition, partition_of_notMem (by simpa using h)]

/-- The separator is absent, or the text is cut at its first occurrence. -/
theorem partition_cases (c : Char) (s : Text) :
    c ∉ s ∧ partition c s = (s, false, []) ∨
      ∃ a b, s = a ++ c :: b ∧ c ∉ a ∧ partition c s = (a, true, b) := by
  by_cases h : c ∈ s
  · obtain ⟨a, b, rfl, ha⟩ := List.eq_append_cons_of_mem h
    exact .inr ⟨a, b, rfl, ha, partition_append ha b⟩
  · exact .inl ⟨h, partition_of_notMem h⟩

theorem rpartition_append {c : Char} {t : Text} (h : c ∉ t) (s : Text) :
    rpartition c (s ++ c :: t) = (s, true, t) := by
  have hrev : (s ++ c :: t).reverse = t.reverse ++ c :: s.reverse := by simp
  rw [rpartition, hrev, partition_append (by simpa using h)]
  simp

/-- The separator is absent, or the text is cut at its last occurrence. -/
theorem rpartition_cases (c : Char) (s : Text) :
    c ∉ s ∧ rpartition c s = ([], false, s) ∨
      ∃ a b, s = a ++ c :: b ∧ c ∉ b ∧ rpartition c s = (a, true, b) := by
  by_cases h : c ∈ s
  · obtain ⟨b, a, hab, hb⟩ := List.eq_append_cons_of_mem (List.mem_reverse.mpr h)
    have hs : s = a.reverse ++ c :: b.reverse := by
      have := congrArg List.reverse hab
      simpa using this
    have hb' : c ∉ b.reverse := by simpa using hb
    exact .inr ⟨a.reverse, b.reverse, hs, hb', by rw [hs, rpartition_append hb']⟩
  · exact .inl ⟨h, rpartition_of_notMem h⟩

/-- What `partition` cuts off comes from the text. -/
theorem mem_of_mem_partition_fst {c x : Char} {s : Text} (h : x ∈ (partition c s).1) :
    x ∈ s ∧ x ≠ c := by
  induction s with
  | nil => simp [partition] at h
  | cons y s ih =>
    rw [partition] at h
    by_cases hy : y = c
    · simp [hy] at h
    · rw [if_neg hy, List.mem_cons] at h
      rcases h with rfl | h
      · exact ⟨List.mem_cons_self, hy⟩
      · exact ⟨List.mem_cons_of_mem _ (ih h).1, (ih h).2⟩

theorem mem_of_mem_partition_snd {c x : Char} {s : Text} (h : x ∈ (partition c s).2.2) : x ∈ s := by
  induction s with
  | nil => simp [partition] at h
  | cons y s ih =>
    rw [partition] at h
    by_cases hy : y = c
    · rw [if_pos hy] at h
      exact List.mem_cons_of_mem _ h
    · rw [if_neg hy] at h
      exact List.mem_cons_of_mem _ (ih h)

/-- The characters of `c.join(parts)`. -/
theorem mem_join {c x : Char} {parts : List Text} (h : x ∈ join c parts) :
    x = c ∨ ∃ p ∈ parts, x ∈ p := by
  induction parts with
  | nil => simp [join] at h
  | cons p parts ih =>
    rcases parts with _ | ⟨q, parts⟩
    · exact Or.inr ⟨p, List.mem_singleton_self p, by simpa [join] using h⟩
    · have hcons : join c (p :: q :: parts) = p ++ c :: join c (q :: parts) := by
        simp [join, List.intercalate]
      rw [hcons, List.mem_append, List.mem_cons] at h
      -- in the first part, the separator itself, or in the rest
      rcases h with h | h | h
      · exact Or.inr ⟨p, List.mem_cons_self, h⟩
      · exact Or.inl h
      · rcases ih h with h | ⟨r, hr, hx⟩
        · exact Or.inl h
        · exact Or.inr ⟨r, List.mem_cons_of_mem _ hr, hx⟩

theorem split_join {c : Char} {parts : List Text} (hne : parts ≠ [])
    (h : ∀ p ∈ parts, c ∉ p) : split c (join c parts) = parts :=
  List.splitOn_intercalate c h hne

theorem split_of_notMem {c : Char} {s : Text} (h : c ∉ s) : split c s = [s] :=
  List.splitOn_eq_singleton h

/-! ### Words -/

theorem mem_wordsFrom {word s w : Text} (hword : ∀ x ∈ word, isSpace x = false)
    (h : w ∈ wordsFrom word s) : ∀ x ∈ w, isSpace x = false := by
  have hclosed : ∀ w, w ∈ (if word.isEmpty then [] else [word.reverse]) →
      ∀ x ∈ w, isSpace x = false := by
    intro w hw x hx
    split at hw
    · exact absurd hw List.not_mem_nil
    · rw [List.mem_singleton.mp hw] at hx
      exact hword x (List.mem_reverse.mp hx)
  induction s generalizing word with
  | nil => exact hclosed w h
  | cons y s ih =>
    rw [wordsFrom] at h
    split at h
    · rcases List.mem_append.mp h with h | h
      · exact hclosed w h
      · have hnil : ∀ x ∈ ([] : Text), isSpace x = false := fun x hx => absurd hx List.not_mem_nil
        refine ih hnil h ?_
        intro w hw
        exact absurd hw List.not_mem_nil
    · rename_i hy
      have hword' : ∀ x ∈ y :: word, isSpace x = false :=
        List.forall_mem_cons.mpr ⟨by simpa using hy, hword⟩
      refine ih hword' h ?_
      intro w hw x hx
      rw [if_neg (by simp), List.mem_singleton] at hw
      rw [hw] at hx
      exact hword' x (List.mem_reverse.mp hx)

/-- The words of a text have no white space. -/
theorem isSpace_of_mem_words {s w : Text} (h : w ∈ words s) : ∀ x ∈ w, isSpace x = false :=
  mem_wordsFrom (fun _ hx => absurd hx List.not_mem_nil) h

/-! ### Case -/

theorem lower_of_ascii {u : UnicodeTables} {s : Text} (h : isAscii s = true) :
    lower u s = s.map Char.toLower := by
  rw [lower, if_pos h]

/-- ASCII text without upper-case letters is its own lower case. -/
theorem lower_eq_self {u : UnicodeTables} {s : Text}
    (h : ∀ c ∈ s, isAsciiChar c = true ∧ c.toLower = c) : lower u s = s := by
  rw [lower_of_ascii (List.all_eq_true.mpr fun c hc => (h c hc).1)]
  conv_rhs => rw [← List.map_id s]
  exact List.map_congr_left fun c hc => (h c hc).2

/-! ### Numerals -/

theorem numeral_concat (b : ℕ) (digit : Char → ℕ) (s : Text) (c : Char) :
    numeral b digit (s ++ [c]) = numeral b digit s * b + digit c := by
  simp [numeral]

/-- A number printed in base `b` reads back. -/
theorem numeral_toDigits {b : ℕ} {digit : Char → ℕ} (hb : 1 < b)
    (hdigit : ∀ d < b, digit d.digitChar = d) (n : ℕ) :
    numeral b digit (Nat.toDigits b n) = n := by
  induction n using Nat.strongRecOn with
  | ind n ih =>
    by_cases hn : n < b
    · rw [Nat.toDigits_of_lt_base hn]
      simp [numeral, hdigit n hn]
    · -- the digits of `n / b`, and the last one behind them
      rw [Nat.toDigits_of_base_le hb (by omega), numeral_concat,
        ih (n / b) (Nat.div_lt_self (by omega) hb), hdigit _ (Nat.mod_lt _ (by omega))]
      rw [Nat.mul_comm]
      exact Nat.div_add_mod n b

/-- Every character of a number printed in base `b` is a digit. -/
theorem mem_toDigits {b n : ℕ} (hb : 1 < b) {c : Char} (hc : c ∈ Nat.toDigits b n) :
    ∃ d < b, c = d.digitChar := by
  induction n using Nat.strongRecOn with
  | ind n ih =>
    by_cases hn : n < b
    · rw [Nat.toDigits_of_lt_base hn, List.mem_singleton] at hc
      exact ⟨n, hn, hc⟩
    · rw [Nat.toDigits_of_base_le hb (by omega), List.mem_append, List.mem_singleton] at hc
      rcases hc with hc | hc
      · exact ih (n / b) (Nat.div_lt_self (by omega) hb) hc
      · exact ⟨n % b, Nat.mod_lt _ (by omega), hc⟩

end PyText
