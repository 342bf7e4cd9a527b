/-
HTML text (`html.escape` and `html.unescape` of Python).

* `escape` — the five characters that mean something in HTML are replaced;
* `Charref`, `charref` — the next character reference behind an ampersand;
* `unescape` — every reference is replaced by what it stands for.

The table of named references is read from an `Entities`.  `int` refuses a numeral
of more than `maxStrDigits` digits, so `unescape` may raise; it then is `none`.

Main results: `unescape_escape`, escaping is undone by unescaping, and
`unescape_eq_none_iff`, which texts cannot be unescaped; `longDigits` are the digits that
`int` then complains of.
-/
import Mathlib.Data.List.TakeWhile
import Newsforge.IpAddress

open PyText

namespace HtmlText

/-! ### escape -/

/-- `s.replace(c, t)` for a single character. -/
def replaceBy (c : Char) (t s : Text) : Text := s.flatMap fun x => if x = c then t else [x]

/-- `html.escape(s)`. -/
def escape (s : Text) : Text :=
  let s := replaceBy '&' "&amp;".toList s -- must be done first
  let s := replaceBy '<' "&lt;".toList s
  let s := replaceBy '>' "&gt;".toList s
  let s := replaceBy '\x22' "&quot;".toList s
  replaceBy '\x27' "&#x27;".toList s

/-- What becomes of a single character. -/
def escapeChar (c : Char) : Text :=
  if c = '&' then "&amp;".toList
  else if c = '<' then "&lt;".toList
  else if c = '>' then "&gt;".toList
  else if c = '\x22' then "&quot;".toList
  else if c = '\x27' then "&#x27;".toList
  else [c]

theorem escape_eq (s : Text) : escape s = s.flatMap escapeChar := by
  simp only [escape, replaceBy, List.flatMap_assoc]
  -- the replacements meet only the characters that were there at the beginning
  refine congrArg (fun f => s.flatMap f) (funext fun c => ?_)
  unfold escapeChar
  split_ifs with h₁ h₂ h₃ h₄ h₅
  · rfl
  · rw [h₂]; rfl
  · rw [h₃]; rfl
  · rw [h₄]; rfl
  · rw [h₅]; rfl
  · simp only [List.flatMap_cons, List.flatMap_nil, List.append_nil, if_neg h₂, if_neg h₃, if_neg h₄,
      if_neg h₅]

@[simp] theorem escape_nil : escape [] = [] := rfl

theorem escape_cons (c : Char) (s : Text) : escape (c :: s) = escapeChar c ++ escape s := by
  rw [escape_eq, escape_eq]
  rfl

theorem not_mem_escapeChar (c : Char) : '<' ∉ escapeChar c ∧ '>' ∉ escapeChar c := by
  unfold escapeChar
  split_ifs with h₁ h₂ h₃ h₄ h₅
  · decide
  · decide
  · decide
  · decide
  · decide
  · exact ⟨fun h => h₂ (List.mem_singleton.mp h).symm, fun h => h₃ (List.mem_singleton.mp h).symm⟩

/-- No angle bracket is left. -/
theorem not_mem_escape (s : Text) : '<' ∉ escape s ∧ '>' ∉ escape s := by
  rw [escape_eq]
  simp only [List.mem_flatMap, not_exists, not_and]
  exact ⟨fun c _ => (not_mem_escapeChar c).1, fun c _ => (not_mem_escapeChar c).2⟩

/-! ### Character references -/

/-- A match of `_charref`, without the ampersand.  The semicolon behind a number has
been dropped, the one behind a name is part of it. -/
inductive Charref
  | decimal (digits : Text)
  | hexadecimal (digits : Text)
  | named (name : Text)
  deriving DecidableEq

/-- `[^\t\n\f <&#;]`. -/
def isNameChar (c : Char) : Bool :=
  !(c == '\t' || c == '\n' || c == '\x0c' || c == ' ' || c == '<' || c == '&' || c == '#' ||
    c == ';')

/-- `;?`. -/
def semicolon : Text → Text
  | ';' :: _ => [';']
  | _ => []

/-- The reference that the text behind an ampersand begins with, and how many
characters of the text it takes. -/
def charref : Text → Option (Charref × ℕ)
  | '#' :: t =>
    let digits := t.takeWhile Char.isDigit
    if !digits.isEmpty then
      some (.decimal digits,
        1 + digits.length + (semicolon (t.drop digits.length)).length)
    else match t with
      | x :: h =>
        let digits := h.takeWhile IPAddress.isHexDigit
        if (x == 'x' || x == 'X') && !digits.isEmpty then
          some (.hexadecimal digits,
            2 + digits.length + (semicolon (h.drop digits.length)).length)
        else none
      | [] => none
  | s =>
    let name := (s.takeWhile isNameChar).take 32
    if name.isEmpty then none
    else
      some (.named (name ++ semicolon (s.drop name.length)),
        name.length + (semicolon (s.drop name.length)).length)

/-- `_invalid_charrefs` from 0x80 to 0x9f. -/
def windowsChars : List ℕ :=
  [0x20ac, 0x81, 0x201a, 0x0192, 0x201e, 0x2026, 0x2020, 0x2021, 0x02c6, 0x2030, 0x0160, 0x2039,
    0x0152, 0x8d, 0x017d, 0x8f, 0x90, 0x2018, 0x2019, 0x201c, 0x201d, 0x2022, 0x2013, 0x2014,
    0x02dc, 0x2122, 0x0161, 0x203a, 0x0153, 0x9d, 0x017e, 0x0178]

/-- `_invalid_charrefs`. -/
def invalidCharref (num : ℕ) : Option ℕ :=
  if num = 0 then some 0xfffd
  else if num = 0x0d then some 0x0d
  else if 0x80 ≤ num then windowsChars[num - 0x80]?
  else none

/-- `_invalid_codepoints`. -/
def invalidCodepoint (num : ℕ) : Bool :=
  (0x1 ≤ num && num ≤ 0x8) || (0xe ≤ num && num ≤ 0x1f) || (0x7f ≤ num && num ≤ 0x9f) ||
    (0xfdd0 ≤ num && num ≤ 0xfdef) || num == 0xb || num % 0x10000 == 0xfffe ||
    num % 0x10000 == 0xffff

/-- What a number stands for. -/
def charOf (num : ℕ) : Text :=
  match invalidCharref num with
  | some n => [Char.ofNat n]
  | none =>
    if (0xd800 ≤ num ∧ num ≤ 0xdfff) ∨ 0x10ffff < num then [Char.ofNat 0xfffd]
    else if invalidCodepoint num then []
    else [Char.ofNat num]

/-- The table `html.entities.html5`. -/
structure Entities where
  html5 : Text → Option Text
  amp : html5 "amp;".toList = some ['&']
  lt : html5 "lt;".toList = some ['<']
  gt : html5 "gt;".toList = some ['>']
  quot : html5 "quot;".toList = some ['\x22']

/-- The longest beginning of at most `x` characters, but more than one, that is a name. -/
def longestName (e : Entities) (s : Text) : ℕ → Text
  | x + 2 =>
    match e.html5 (s.take (x + 2)) with
    | some t => t ++ s.drop (x + 2)
    | none => longestName e s (x + 1)
  | _ => '&' :: s

/-- `_replace_charref`. -/
def replaceCharref (e : Entities) : Charref → Option Text
  | .decimal digits => if maxStrDigits < digits.length then none else some (charOf (decValue digits))
  | .hexadecimal digits => some (charOf (numeral 16 IPAddress.hexDigit digits))
  | .named name =>
    match e.html5 name with
    | some t => some t
    | none => some (longestName e name (name.length - 1))

theorem replaceCharref_named {e : Entities} {name t : Text} (h : e.html5 name = some t) :
    replaceCharref e (.named name) = some t := by
  rw [replaceCharref, h]

/-- Only a numeral that is too long cannot be replaced. -/
theorem replaceCharref_eq_none_iff {e : Entities} {ref : Charref} :
    replaceCharref e ref = none ↔ ∃ digits, ref = .decimal digits ∧ maxStrDigits < digits.length := by
  cases ref with
  | decimal digits => simp [replaceCharref]
  | hexadecimal digits => simp [replaceCharref]
  | named name =>
    have : replaceCharref e (.named name) ≠ none := by
      rw [replaceCharref]
      split <;> exact Option.some_ne_none _
    simp [this]

/-! ### unescape -/

/-- `_charref.sub(_replace_charref, s)`, the next `skip` characters being part of the
last match. -/
def unescapeFrom (e : Entities) : ℕ → Text → Option Text
  | _, [] => some []
  | skip + 1, _ :: s => unescapeFrom e skip s
  | 0, c :: s =>
    match if c = '&' then charref s else none with
    | some (ref, n) => (replaceCharref e ref).bind fun t => (unescapeFrom e n s).map (t ++ ·)
    | none => (unescapeFrom e 0 s).map (c :: ·)

/-- `html.unescape(s)`. -/
def unescape (e : Entities) (s : Text) : Option Text :=
  if !s.contains '&' then some s else unescapeFrom e 0 s

theorem unescapeFrom_of_not_mem (e : Entities) {s : Text} (h : '&' ∉ s) :
    unescapeFrom e 0 s = some s := by
  induction s with
  | nil => rfl
  | cons c s ih =>
    have hc : ¬ c = '&' := fun hc => h (by simp [hc])
    rw [unescapeFrom, if_neg hc, ih fun hs => h (List.mem_cons_of_mem _ hs)]
    rfl

/-- The check for an ampersand only saves work. -/
theorem unescape_eq (e : Entities) (s : Text) : unescape e s = unescapeFrom e 0 s := by
  unfold unescape
  split_ifs with h
  · rw [unescapeFrom_of_not_mem e (by simpa using h)]
  · rfl

/-! ### Escaping is undone -/

/-- What one character has become is read back as that character, whatever follows. -/
theorem unescapeFrom_escapeChar (e : Entities) (c : Char) (s : Text) :
    unescapeFrom e 0 (escapeChar c ++ s) = (unescapeFrom e 0 s).map (c :: ·) := by
  unfold escapeChar
  split_ifs with h₁ h₂ h₃ h₄ h₅
  · rw [h₁]
    have href : replaceCharref e (.named ['a', 'm', 'p', ';']) = some ['&'] :=
      replaceCharref_named e.amp
    simp [unescapeFrom, charref, isNameChar, semicolon, href]
  · rw [h₂]
    have href : replaceCharref e (.named ['l', 't', ';']) = some ['<'] :=
      replaceCharref_named e.lt
    simp [unescapeFrom, charref, isNameChar, semicolon, href]
  · rw [h₃]
    have href : replaceCharref e (.named ['g', 't', ';']) = some ['>'] :=
      replaceCharref_named e.gt
    simp [unescapeFrom, charref, isNameChar, semicolon, href]
  · rw [h₄]
    have href : replaceCharref e (.named ['q', 'u', 'o', 't', ';']) = some ['\x22'] :=
      replaceCharref_named e.quot
    simp [unescapeFrom, charref, isNameChar, semicolon, href]
  · rw [h₅]
    have hnum : charOf (numeral 16 IPAddress.hexDigit ['2', '7']) = ['\x27'] := by decide
    have href : charref ('#' :: 'x' :: '2' :: '7' :: ';' :: s) = some (.hexadecimal ['2', '7'], 5) :=
      rfl
    simp [unescapeFrom, href, replaceCharref, hnum]
  · simp [unescapeFrom, h₁]

/-- **Escaping is undone by unescaping.** -/
theorem unescape_escape (e : Entities) (s : Text) : unescape e (escape s) = some s := by
  rw [unescape_eq]
  induction s with
  | nil => rfl
  | cons c s ih =>
    rw [escape_cons, unescapeFrom_escapeChar, ih]
    rfl

/-! ### What cannot be unescaped -/

/-- A numeral that `int` refuses stands behind the ampersand. -/
def StartsLong (s : Text) : Prop :=
  ∃ t, s = '#' :: t ∧ maxStrDigits < (t.takeWhile Char.isDigit).length

/-- There is a decimal reference of more than `maxStrDigits` digits. -/
def LongNumber (s : Text) : Prop := ∃ t, '&' :: t <:+ s ∧ StartsLong t

theorem not_longNumber_nil : ¬ LongNumber [] := by
  rintro ⟨t, hsuf, _⟩
  exact absurd (List.suffix_nil.mp hsuf) (List.cons_ne_nil _ _)

theorem longNumber_cons {c : Char} {s : Text} :
    LongNumber (c :: s) ↔ (c = '&' ∧ StartsLong s) ∨ LongNumber s := by
  constructor
  · rintro ⟨t, hsuf, ht⟩
    rcases List.suffix_cons_iff.mp hsuf with heq | hsuf
    · obtain ⟨rfl, rfl⟩ := List.cons.inj heq
      exact .inl ⟨rfl, ht⟩
    · exact .inr ⟨t, hsuf, ht⟩
  · rintro (⟨rfl, ht⟩ | ⟨t, hsuf, ht⟩)
    · exact ⟨s, List.suffix_refl _, ht⟩
    · exact ⟨t, List.suffix_cons_iff.mpr (.inr hsuf), ht⟩

theorem longNumber_append_of_not_mem {a b : Text} (h : '&' ∉ a) :
    LongNumber (a ++ b) ↔ LongNumber b := by
  induction a with
  | nil => rfl
  | cons c a ih =>
    have hc : ¬ c = '&' := fun hc => h (by simp [hc])
    rw [List.cons_append, longNumber_cons, ih fun ha => h (List.mem_cons_of_mem _ ha)]
    simp [hc]

theorem not_mem_semicolon (s : Text) : '&' ∉ semicolon s := by
  unfold semicolon
  split <;> decide

theorem take_semicolon (s : Text) : s.take (semicolon s).length = semicolon s := by
  unfold semicolon
  split <;> rfl

theorem not_mem_take_semicolon {name s : Text} (hname : name <+: s) (h : '&' ∉ name) :
    '&' ∉ s.take (name.length + (semicolon (s.drop name.length)).length) := by
  rw [List.take_add, ← List.prefix_iff_eq_take.mp hname, take_semicolon, List.mem_append]
  exact not_or.mpr ⟨h, not_mem_semicolon _⟩

theorem not_mem_takeWhile {p : Char → Bool} (hp : p '&' = false) (s : Text) :
    '&' ∉ s.takeWhile p := by
  intro h
  have := List.mem_takeWhile_imp h
  simp [hp] at this

/-- A reference goes no further than the next ampersand. -/
theorem not_mem_take_charref {s : Text} {ref : Charref} {n : ℕ} (h : charref s = some (ref, n)) :
    '&' ∉ s.take n := by
  unfold charref at h
  split at h
  · next t =>
    dsimp only at h
    split_ifs at h with hd
    · -- decimal: the number sign, the digits and the semicolon
      obtain ⟨-, rfl⟩ := Prod.mk.inj (Option.some.inj h)
      rw [Nat.add_assoc, Nat.add_comm 1, List.take_succ_cons, List.mem_cons]
      exact not_or.mpr ⟨by decide,
        not_mem_take_semicolon (List.takeWhile_prefix _) (not_mem_takeWhile (by decide) _)⟩
    · split at h
      · next x t =>
        split_ifs at h with hx
        -- hexadecimal: one letter more
        obtain ⟨-, rfl⟩ := Prod.mk.inj (Option.some.inj h)
        have hx : ¬ '&' = x := by
          rintro rfl
          simp at hx
        rw [Nat.add_assoc, Nat.add_comm 2, List.take_succ_cons, List.take_succ_cons, List.mem_cons,
          List.mem_cons]
        exact not_or.mpr ⟨by decide, not_or.mpr ⟨hx,
          not_mem_take_semicolon (List.takeWhile_prefix _) (not_mem_takeWhile (by decide) _)⟩⟩
      · exact absurd h (by simp)
  · dsimp only at h
    split_ifs at h
    obtain ⟨-, rfl⟩ := Prod.mk.inj (Option.some.inj h)
    refine not_mem_take_semicolon ((List.take_prefix _ _).trans (List.takeWhile_prefix _)) ?_
    exact fun hmem => not_mem_takeWhile (by decide) s (List.mem_of_mem_take hmem)

theorem startsLong_iff {s : Text} :
    StartsLong s ↔ ∃ digits n, charref s = some (.decimal digits, n) ∧
      maxStrDigits < digits.length := by
  constructor
  · rintro ⟨t, rfl, ht⟩
    have hne : t.takeWhile Char.isDigit ≠ [] := by
      intro hnil
      rw [hnil] at ht
      exact absurd ht (by decide)
    refine ⟨t.takeWhile Char.isDigit, 1 + (t.takeWhile Char.isDigit).length +
      (semicolon (t.drop (t.takeWhile Char.isDigit).length)).length, ?_, ht⟩
    simp [charref, hne]
  · rintro ⟨digits, n, h, hlong⟩
    unfold charref at h
    split at h
    · next t =>
      dsimp only at h
      split_ifs at h with hd
      · obtain ⟨hdigits, -⟩ := Prod.mk.inj (Option.some.inj h)
        rw [← Charref.decimal.inj hdigits] at hlong
        exact ⟨t, rfl, hlong⟩
      · split at h
        · split_ifs at h
          exact absurd (Prod.mk.inj (Option.some.inj h)).1 (by simp)
        · exact absurd h (by simp)
    · dsimp only at h
      split_ifs at h
      exact absurd (Prod.mk.inj (Option.some.inj h)).1 (by simp)

/-- The characters that the last match has taken are passed over. -/
theorem unescapeFrom_skip (e : Entities) (n : ℕ) (s : Text) :
    unescapeFrom e n s = unescapeFrom e 0 (s.drop n) := by
  induction n generalizing s with
  | zero => rfl
  | succ n ih =>
    cases s with
    | nil => rfl
    | cons c s => rw [unescapeFrom, ih, List.drop_succ_cons]

theorem unescapeFrom_eq_none_iff (e : Entities) (s : Text) :
    unescapeFrom e 0 s = none ↔ LongNumber s := by
  induction hlen : s.length using Nat.strongRecOn generalizing s with
  | _ len ih =>
    cases s with
    | nil => simp [unescapeFrom, not_longNumber_nil]
    | cons c s =>
      have hs : s.length < len := by
        rw [← hlen]
        exact Nat.lt_succ_self _
      rw [unescapeFrom, longNumber_cons]
      by_cases hc : c = '&'
      · rw [if_pos hc]
        cases href : charref s with
        | none =>
          have hno : ¬ StartsLong s := by
            rintro hlong
            obtain ⟨_, _, hsome, _⟩ := startsLong_iff.mp hlong
            rw [href] at hsome
            exact absurd hsome (by simp)
          simp [hno, ih _ hs s rfl]
        | some match' =>
          obtain ⟨ref, n⟩ := match'
          -- the numbers further on are the ones behind the match
          have hdrop : (s.drop n).length < len := by
            rw [List.length_drop]
            omega
          have hrest : unescapeFrom e n s = none ↔ LongNumber s := by
            rw [unescapeFrom_skip, ih _ hdrop _ rfl,
              ← longNumber_append_of_not_mem (not_mem_take_charref href), List.take_append_drop]
          have hstart : replaceCharref e ref = none ↔ StartsLong s := by
            rw [replaceCharref_eq_none_iff, startsLong_iff, href]
            simp
          cases hrep : replaceCharref e ref with
          | none => simp [hc, hstart.mp hrep, hrep]
          | some t =>
            have hno : ¬ StartsLong s := fun hlong => by
              rw [hstart.mpr hlong] at hrep
              exact absurd hrep (by simp)
            simp [hno, hrep, hrest]
      · rw [if_neg hc]
        simp [hc, ih _ hs s rfl]

/-- **What cannot be unescaped** is a text with a decimal reference of too many digits. -/
theorem unescape_eq_none_iff (e : Entities) (s : Text) : unescape e s = none ↔ LongNumber s := by
  rw [unescape_eq, unescapeFrom_eq_none_iff]

/-- The digits of the first decimal reference that `int` refuses. -/
def longDigits : Text → Text
  | [] => []
  | c :: s =>
    let digits := (s.drop 1).takeWhile Char.isDigit
    if c = '&' ∧ s.head? = some '#' ∧ maxStrDigits < digits.length then digits else longDigits s

theorem startsLong_iff_drop {s : Text} :
    StartsLong s ↔
      s.head? = some '#' ∧ maxStrDigits < ((s.drop 1).takeWhile Char.isDigit).length := by
  constructor
  · rintro ⟨t, rfl, ht⟩
    exact ⟨rfl, ht⟩
  · rintro ⟨hhead, hlong⟩
    obtain ⟨t, rfl⟩ := List.head?_eq_some_iff.mp hhead
    exact ⟨t, rfl, hlong⟩

/-- A text with a number that is too long has its digits. -/
theorem longNumber_iff_longDigits (s : Text) :
    LongNumber s ↔ maxStrDigits < (longDigits s).length := by
  induction s with
  | nil => exact iff_of_false not_longNumber_nil (by decide)
  | cons c s ih =>
    rw [longNumber_cons, longDigits, ih, startsLong_iff_drop]
    split
    · rename_i hlong
      exact iff_of_true (.inl hlong) hlong.2.2
    · rename_i hno
      exact or_iff_right hno

end HtmlText
