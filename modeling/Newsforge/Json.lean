/-
JSON texts, as Python's `json` writes and reads them.

* `Value` — what JSON can say, but for numbers that are no integers;
* `dumps` — `json.dumps` with the separators `","` and `":"`, everything but printable
  ASCII escaped;
* `loads` — `json.loads`; numbers that are no integers, and escapes of single surrogates,
  which no `Text` has, are left out.

Main results: `loads_dumps`, what is written is read back, and `printable_dumps`.
-/
import Newsforge.PyText

open PyText

namespace Json

inductive Value
  | null
  | bool (b : Bool)
  | int (n : Int)
  | str (s : Text)
  | arr (items : List Value)
  | obj (members : List (Text × Value))

/-! ### Writing -/

/-- `'"'`. -/
def quote : Char := '\x22'

/-- The character in front of an escape. -/
def backslash : Char := '\x5c'

/-- `'{:04x}'.format(n)`. -/
def hex4 (n : ℕ) : Text :=
  [n / 4096 % 16, n / 256 % 16, n / 16 % 16, n % 16].map Nat.digitChar

/-- `ESCAPE_DCT`, and back. -/
def shortEscapes : List (Char × Char) :=
  [(quote, quote), (backslash, backslash), ('\n', 'n'), ('\r', 'r'), ('\t', 't'),
    ('\x08', 'b'), ('\x0c', 'f')]

/-- `\uXXXX`. -/
def unicodeEscape (n : ℕ) : Text := backslash :: 'u' :: hex4 n

/-- The character is written as it is. -/
def isPlain (c : Char) : Bool := ' ' ≤ c && c ≤ '~' && c != quote && c != backslash

/-- `ESCAPE_ASCII.sub(replace, …)` for one character. -/
def escape (c : Char) : Text :=
  if isPlain c then [c]
  else match shortEscapes.lookup c with
    | some e => [backslash, e]
    | none =>
      if c.toNat < 0x10000 then unicodeEscape c.toNat
      else
        -- a surrogate pair
        let v := c.toNat - 0x10000
        unicodeEscape (0xD800 + v / 1024) ++ unicodeEscape (0xDC00 + v % 1024)

/-- `py_encode_basestring_ascii`. -/
def dumpsStr (s : Text) : Text := quote :: s.flatMap escape ++ [quote]

mutual

/-- `json.dumps(value, separators=(",", ":"))`. -/
def dumps : Value → Text
  | .null => "null".toList
  | .bool true => "true".toList
  | .bool false => "false".toList
  | .int n => intStr n
  | .str s => dumpsStr s
  | .arr [] => "[]".toList
  | .arr (v :: items) => '[' :: dumps v ++ dumpsItems items
  | .obj [] => ['\x7b', '\x7d']
  | .obj ((key, v) :: members) => '\x7b' :: dumpsStr key ++ ':' :: dumps v ++ dumpsMembers members

/-- The items behind the first one. -/
def dumpsItems : List Value → Text
  | [] => [']']
  | v :: items => ',' :: dumps v ++ dumpsItems items

/-- The members behind the first one. -/
def dumpsMembers : List (Text × Value) → Text
  | [] => ['\x7d']
  | (key, v) :: members => ',' :: dumpsStr key ++ ':' :: dumps v ++ dumpsMembers members

end

/-! ### Reading -/

/-- The characters of `WHITESPACE`. -/
def isBlank (c : Char) : Bool := c == ' ' || c == '\t' || c == '\n' || c == '\r'

/-- `WHITESPACE.match`. -/
def skip (s : Text) : Text := s.dropWhile isBlank

/-- A hexadecimal digit. -/
def hexDigit? (c : Char) : Option ℕ :=
  if c.isDigit then some (c.toNat - '0'.toNat)
  else if 'a' ≤ c ∧ c ≤ 'f' then some (c.toNat - 'a'.toNat + 10)
  else if 'A' ≤ c ∧ c ≤ 'F' then some (c.toNat - 'A'.toNat + 10)
  else none

/-- `_decode_uXXXX`. -/
def hexValue (a b c d : Char) : Option ℕ := do
  let a ← hexDigit? a
  let b ← hexDigit? b
  let c ← hexDigit? c
  let d ← hexDigit? d
  some (a * 4096 + b * 256 + c * 16 + d)

/-- `BACKSLASH`. -/
def simpleEscape (e : Char) : Option Char :=
  if e = '/' then some '/' else (shortEscapes.map Prod.swap).lookup e

/-- `py_scanstring`, behind the opening quote. -/
def scanString : Text → Option (Text × Text)
  | [] => none
  | c :: s =>
    if c = quote then some ([], s)
    else if c = backslash then
      match s with
      | [] => none
      | e :: s =>
        if e = 'u' then
          match s with
          | a :: b :: c :: d :: s => do
            let n ← hexValue a b c d
            if 0xD800 ≤ n ∧ n ≤ 0xDBFF then
              match s with
              | x :: y :: a :: b :: c :: d :: s => do
                let m ← hexValue a b c d
                if x = backslash ∧ y = 'u' ∧ 0xDC00 ≤ m ∧ m ≤ 0xDFFF then do
                  let r ← scanString s
                  some (Char.ofNat (0x10000 + (n - 0xD800) * 1024 + (m - 0xDC00)) :: r.1, r.2)
                else none
              | _ => none
            else if 0xDC00 ≤ n ∧ n ≤ 0xDFFF then none
            else do
              let r ← scanString s
              some (Char.ofNat n :: r.1, r.2)
          | _ => none
        else do
          let x ← simpleEscape e
          let r ← scanString s
          some (x :: r.1, r.2)
    else if c < ' ' then none
    else do
      let r ← scanString s
      some (c :: r.1, r.2)

/-- What an integer cannot go on with: then it is longer, or no integer. -/
def continues (c : Char) : Bool := c.isDigit || c == '.' || c == 'e' || c == 'E'

/-- `-?(?:0|[1-9]\d*)`, with no fraction and no exponent behind it. -/
def scanNat (s : Text) : Option (ℕ × Text) :=
  match s with
  | [] => none
  | c :: t =>
    if !c.isDigit then none
    else
      let digits := if c = '0' then [c] else s.takeWhile Char.isDigit
      let rest := if c = '0' then t else s.dropWhile Char.isDigit
      if rest.head?.any fun c => c == '.' || c == 'e' || c == 'E' then none
      else some (decValue digits, rest)

def scanInt (s : Text) : Option (Int × Text) :=
  match s with
  | [] => none
  | c :: t =>
    if c = '-' then (scanNat t).map fun r => (-r.1, r.2) else (scanNat s).map fun r => (r.1, r.2)

/-- A word that stands for a value. -/
def scanWord (word : Text) (v : Value) (s : Text) : Option (Value × Text) :=
  if word.isPrefixOf s then some (v, s.drop word.length) else none

mutual

/-- `scan_once`; the fuel is more than the characters that are left. -/
def scanOnce : ℕ → Text → Option (Value × Text)
  | 0, _ => none
  | _ + 1, [] => none
  | fuel + 1, c :: s =>
    if c = quote then (scanString s).map fun r => (.str r.1, r.2)
    else if c = '\x7b' then
      match skip s with
      | [] => none
      | x :: t =>
        if x = '\x7d' then some (.obj [], t)
        else do
          let m ← scanMember fuel (x :: t)
          let r ← scanMembers fuel (skip m.2)
          some (.obj (m.1 :: r.1), r.2)
    else if c = '[' then
      match skip s with
      | [] => none
      | x :: t =>
        if x = ']' then some (.arr [], t)
        else do
          let v ← scanOnce fuel (x :: t)
          let r ← scanItems fuel (skip v.2)
          some (.arr (v.1 :: r.1), r.2)
    else if c = 'n' then scanWord "null".toList .null (c :: s)
    else if c = 't' then scanWord "true".toList (.bool true) (c :: s)
    else if c = 'f' then scanWord "false".toList (.bool false) (c :: s)
    else (scanInt (c :: s)).map fun r => (.int r.1, r.2)

/-- `JSONArray`, behind an item. -/
def scanItems : ℕ → Text → Option (List Value × Text)
  | 0, _ => none
  | _ + 1, [] => none
  | fuel + 1, c :: s =>
    if c = ']' then some ([], s)
    else if c = ',' then do
      let v ← scanOnce fuel (skip s)
      let r ← scanItems fuel (skip v.2)
      some (v.1 :: r.1, r.2)
    else none

/-- `JSONObject`, a key with its value. -/
def scanMember : ℕ → Text → Option ((Text × Value) × Text)
  | 0, _ => none
  | _ + 1, [] => none
  | fuel + 1, c :: s =>
    if c = quote then do
      let key ← scanString s
      match skip key.2 with
      | [] => none
      | x :: t =>
        if x = ':' then do
          let v ← scanOnce fuel (skip t)
          some ((key.1, v.1), v.2)
        else none
    else none

/-- `JSONObject`, behind a member. -/
def scanMembers : ℕ → Text → Option (List (Text × Value) × Text)
  | 0, _ => none
  | _ + 1, [] => none
  | fuel + 1, c :: s =>
    if c = '\x7d' then some ([], s)
    else if c = ',' then do
      let m ← scanMember fuel (skip s)
      let r ← scanMembers fuel (skip m.2)
      some (m.1 :: r.1, r.2)
    else none

end

/-- `json.loads`, for a text. -/
def loads (s : Text) : Option Value :=
  match scanOnce (s.length + 1) (skip s) with
  | some (v, rest) => if (skip rest).isEmpty then some v else none
  | none => none

/-! ### Strings -/

theorem hexDigit?_digitChar : ∀ d < 16, hexDigit? (Nat.digitChar d) = some d := by decide

/-- Four digits are read back. -/
theorem hexValue_hex4 {n : ℕ} (hn : n < 0x10000) :
    hexValue (Nat.digitChar (n / 4096 % 16)) (Nat.digitChar (n / 256 % 16))
      (Nat.digitChar (n / 16 % 16)) (Nat.digitChar (n % 16)) = some n := by
  have hlt : ∀ m, m % 16 < 16 := fun m => Nat.mod_lt m (by decide)
  simp only [hexValue, hexDigit?_digitChar _ (hlt _), bind, Option.bind, Option.some_inj]
  omega

variable {s t rest : Text} {c : Char}

/-- An escape of a character that is no surrogate. -/
theorem scanString_unicodeEscape {n : ℕ} (hn : n < 0x10000) (hvalid : n < 0xD800 ∨ 0xDFFF < n)
    (h : scanString t = some (s, rest)) :
    scanString (unicodeEscape n ++ t) = some (Char.ofNat n :: s, rest) := by
  have hhigh : ¬ (0xD800 ≤ n ∧ n ≤ 0xDBFF) := by omega
  have hlow : ¬ (0xDC00 ≤ n ∧ n ≤ 0xDFFF) := by omega
  simp only [unicodeEscape, hex4, List.map_cons, List.map_nil, List.cons_append, List.nil_append]
  rw [scanString, if_neg (by decide), if_pos rfl]
  simp only [if_true, hexValue_hex4 hn, bind, Option.bind, if_neg hhigh, if_neg hlow, h]

/-- A surrogate pair. -/
theorem scanString_pair {v : ℕ} (hv : v < 0x100000) (h : scanString t = some (s, rest)) :
    scanString (unicodeEscape (0xD800 + v / 1024) ++ unicodeEscape (0xDC00 + v % 1024) ++ t) =
      some (Char.ofNat (0x10000 + v) :: s, rest) := by
  have hhigh : 0xD800 ≤ 0xD800 + v / 1024 ∧ 0xD800 + v / 1024 ≤ 0xDBFF := by omega
  have hlow : 0xDC00 ≤ 0xDC00 + v % 1024 ∧ 0xDC00 + v % 1024 ≤ 0xDFFF := by omega
  have hsum : 0x10000 + (0xD800 + v / 1024 - 0xD800) * 1024 + (0xDC00 + v % 1024 - 0xDC00) =
      0x10000 + v := by omega
  simp only [unicodeEscape, hex4, List.map_cons, List.map_nil, List.cons_append, List.nil_append]
  rw [scanString, if_neg (by decide), if_pos rfl]
  simp only [if_true, hexValue_hex4 (show 0xD800 + v / 1024 < 0x10000 by omega),
    hexValue_hex4 (show 0xDC00 + v % 1024 < 0x10000 by omega), bind, Option.bind, if_pos hhigh,
    true_and, if_pos hlow, h, hsum]

theorem toNat_valid (c : Char) : c.toNat < 0xD800 ∨ 0xDFFF < c.toNat ∧ c.toNat < 0x110000 := c.valid

/-- The characters with an escape of their own. -/
theorem mem_shortEscapes {e : Char} (h : shortEscapes.lookup c = some e) : (c, e) ∈ shortEscapes := by
  obtain ⟨l, r, hl, -⟩ := List.lookup_eq_some_iff.mp h
  rw [hl]
  exact List.mem_append_right _ List.mem_cons_self

theorem simpleEscape_of_mem : ∀ x ∈ shortEscapes,
    simpleEscape x.2 = some x.1 ∧ x.2 ≠ 'u' := by decide

/-- **Every character is read back.** -/
theorem scanString_escape (h : scanString t = some (s, rest)) :
    scanString (escape c ++ t) = some (c :: s, rest) := by
  rw [escape]
  split
  · rename_i hplain
    simp only [isPlain, Bool.and_eq_true, decide_eq_true_eq, bne_iff_ne, ne_eq] at hplain
    obtain ⟨⟨⟨hlow, -⟩, hquote⟩, hslash⟩ := hplain
    rw [List.singleton_append, scanString.eq_def]
    simp only [if_neg hquote, if_neg hslash, if_neg (Char.not_lt.mpr hlow), h, bind, Option.bind]
  · split
    · rename_i e hlookup
      obtain ⟨hsimple, hu⟩ := simpleEscape_of_mem _ (mem_shortEscapes hlookup)
      rw [List.cons_append, List.singleton_append, scanString.eq_def]
      simp only [if_neg (show ¬ backslash = quote by decide), if_true, if_neg hu, hsimple, h, bind,
        Option.bind]
    · split
      · rename_i hsmall
        have hchar := scanString_unicodeEscape hsmall ((toNat_valid c).imp_right And.left) h
        rwa [Char.ofNat_toNat] at hchar
      · rename_i hbig
        have hvalid := toNat_valid c
        have hchar := scanString_pair (v := c.toNat - 0x10000) (by omega) h
        rwa [Nat.add_sub_cancel' (by omega), Char.ofNat_toNat] at hchar

/-- **A string is read back.** -/
theorem scanString_dumpsStr (s rest : Text) :
    scanString (s.flatMap escape ++ quote :: rest) = some (s, rest) := by
  induction s with
  | nil => rw [List.flatMap_nil, List.nil_append, scanString.eq_def]; rfl
  | cons c s ih =>
    rw [List.flatMap_cons, List.append_assoc]
    exact scanString_escape ih

/-! ### Numbers -/

/-- Nothing that a number could go on with. -/
def Stops (rest : Text) : Prop := ∀ c ∈ rest.head?, continues c = false

theorem digitChar_digit : ∀ d < 10, (Nat.digitChar d).isDigit = true := by decide

theorem isDigit_of_mem_natStr {n : ℕ} (h : c ∈ natStr n) : c.isDigit = true := by
  obtain ⟨d, hd, rfl⟩ := mem_toDigits (by decide) h
  exact digitChar_digit d hd

/-- A numeral begins with a digit, with `0` only if it is the number. -/
theorem natStr_cons (n : ℕ) : ∃ c t, natStr n = c :: t ∧ (c = '0' → natStr n = ['0']) := by
  have hzero : ∀ d < 10, Nat.digitChar d = '0' → d = 0 := by decide
  induction n using Nat.strongRecOn with
  | ind n ih =>
    by_cases hn : n < 10
    · refine ⟨Nat.digitChar n, [], Nat.toDigits_of_lt_base hn, fun h => ?_⟩
      rw [hzero n hn h]
      rfl
    · obtain ⟨c, t, ht, hc⟩ := ih (n / 10) (by omega)
      have hsplit : natStr n = natStr (n / 10) ++ [Nat.digitChar (n % 10)] :=
        Nat.toDigits_of_base_le (by decide) (by omega)
      refine ⟨c, t ++ [Nat.digitChar (n % 10)], by rw [hsplit, ht, List.cons_append], fun h => ?_⟩
      -- a number of two digits has a first one
      have hten : numeral 10 (fun c => c.toNat - '0'.toNat) (natStr (n / 10)) = n / 10 :=
        numeral_toDigits (by decide) (by decide) _
      rw [hc h] at hten
      have : n / 10 = 0 := hten.symm
      omega

/-- **A number is read back.** -/
theorem scanNat_natStr (n : ℕ) (hrest : Stops rest) :
    scanNat (natStr n ++ rest) = some (n, rest) := by
  obtain ⟨c, t, ht, hc⟩ := natStr_cons n
  have hdigit : c.isDigit = true := isDigit_of_mem_natStr (ht ▸ List.mem_cons_self)
  have htail : rest.head?.any (fun c => c == '.' || c == 'e' || c == 'E') = false := by
    cases rest with
    | nil => rfl
    | cons x rest =>
      have hx := hrest x rfl
      simp only [continues, Bool.or_eq_false_iff] at hx
      simp [hx]
  have htake : (natStr n ++ rest).takeWhile Char.isDigit = natStr n := by
    rw [List.takeWhile_append_of_pos fun x hx => isDigit_of_mem_natStr hx]
    cases rest with
    | nil => rw [List.takeWhile_nil, List.append_nil]
    | cons x rest =>
      have hx := hrest x rfl
      simp only [continues, Bool.or_eq_false_iff] at hx
      rw [List.takeWhile_cons_of_neg (by simp [hx]), List.append_nil]
  have hdrop : (natStr n ++ rest).dropWhile Char.isDigit = rest := by
    have hsplit := List.takeWhile_append_dropWhile (p := Char.isDigit) (l := natStr n ++ rest)
    rw [htake] at hsplit
    exact List.append_cancel_left hsplit
  have hpair : (if c = '0' then [c] else (natStr n ++ rest).takeWhile Char.isDigit) = natStr n ∧
      (if c = '0' then t ++ rest else (natStr n ++ rest).dropWhile Char.isDigit) = rest := by
    by_cases hzero : c = '0'
    · have hone := hc hzero
      rw [ht] at hone
      cases hone
      rw [if_pos rfl, if_pos rfl, ht]
      exact ⟨rfl, rfl⟩
    · rw [if_neg hzero, if_neg hzero, htake, hdrop]
      exact ⟨rfl, rfl⟩
  rw [ht, List.cons_append] at hpair ⊢
  rw [scanNat]
  simp only [hdigit, Bool.not_true, Bool.false_eq_true, if_false, hpair.1, hpair.2, htail]
  rw [← ht]
  have hval : decValue (natStr n) = n := numeral_toDigits (by decide) (by decide) n
  rw [hval]

theorem scanInt_intStr (n : Int) (hrest : Stops rest) :
    scanInt (intStr n ++ rest) = some (n, rest) := by
  rw [intStr]
  split
  · rename_i hneg
    have habs : -(n.natAbs : Int) = n := by omega
    rw [List.cons_append, scanInt, if_pos rfl, scanNat_natStr _ hrest, Option.map_some, habs]
  · rename_i hpos
    have habs : (n.natAbs : Int) = n := by omega
    obtain ⟨c, t, ht, -⟩ := natStr_cons n.natAbs
    have hdigit : c.isDigit = true := isDigit_of_mem_natStr (ht ▸ List.mem_cons_self)
    have hminus : c ≠ '-' := by
      rintro rfl
      exact absurd hdigit (by decide)
    have hscan := scanNat_natStr n.natAbs hrest
    rw [ht, List.cons_append] at hscan ⊢
    rw [scanInt, if_neg hminus, hscan, Option.map_some, habs]

/-! ### Values -/

theorem dumpsStr_append (key rest : Text) :
    dumpsStr key ++ rest = quote :: (key.flatMap escape ++ quote :: rest) := by
  simp [dumpsStr]

/-- A value begins with a character that is no blank and closes nothing. -/
def Begins (s : Text) : Prop :=
  ∃ c t, s = c :: t ∧ isBlank c = false ∧ c ≠ ']'

theorem Begins.append (h : Begins s) (t : Text) : Begins (s ++ t) := by
  obtain ⟨c, s', rfl, hc⟩ := h
  exact ⟨c, s' ++ t, rfl, hc⟩

theorem Begins.skip (h : Begins s) : skip s = s := by
  obtain ⟨c, t, rfl, hblank, -⟩ := h
  exact List.dropWhile_cons_of_neg (by simp [hblank])

theorem begins_dumpsStr (key : Text) : Begins (dumpsStr key) :=
  ⟨quote, _, rfl, by decide, by decide⟩

theorem intStr_cons (n : Int) : ∃ c t, intStr n = c :: t ∧ (c.isDigit = true ∨ c = '-') := by
  rw [intStr]
  split
  · exact ⟨'-', _, rfl, .inr rfl⟩
  · obtain ⟨c, t, ht, -⟩ := natStr_cons n.natAbs
    exact ⟨c, t, ht, .inl (isDigit_of_mem_natStr (ht ▸ List.mem_cons_self))⟩

theorem begins_intStr (n : Int) : Begins (intStr n) := by
  obtain ⟨c, t, ht, hc⟩ := intStr_cons n
  refine ⟨c, t, ht, ?_, ?_⟩
  · cases hblank : isBlank c with
    | false => rfl
    | true =>
      simp only [isBlank, Bool.or_eq_true, beq_iff_eq] at hblank
      obtain ((rfl | rfl) | rfl) | rfl := hblank <;> exact absurd hc (by decide)
  · rintro rfl
    exact absurd hc (by decide)

theorem begins_dumps (v : Value) : Begins (dumps v) := by
  match v with
  | .null => exact ⟨'n', _, rfl, by decide, by decide⟩
  | .bool true => exact ⟨'t', _, rfl, by decide, by decide⟩
  | .bool false => exact ⟨'f', _, rfl, by decide, by decide⟩
  | .int n =>
    rw [dumps]
    exact begins_intStr n
  | .str s =>
    rw [dumps]
    exact begins_dumpsStr s
  | .arr [] => exact ⟨'[', _, rfl, by decide, by decide⟩
  | .arr (v :: items) => exact ⟨'[', _, by rw [dumps, List.cons_append], by decide, by decide⟩
  | .obj [] => exact ⟨'\x7b', _, rfl, by decide, by decide⟩
  | .obj ((key, v) :: members) =>
    exact ⟨'\x7b', _, by rw [dumps, List.cons_append, List.cons_append], by decide, by decide⟩

theorem dumpsItems_cons (items : List Value) :
    ∃ c t, dumpsItems items = c :: t ∧ isBlank c = false ∧ continues c = false := by
  cases items with
  | nil => exact ⟨']', [], by rw [dumpsItems], by decide, by decide⟩
  | cons v items => exact ⟨',', _, by rw [dumpsItems, List.cons_append], by decide, by decide⟩

theorem dumpsMembers_cons (members : List (Text × Value)) :
    ∃ c t, dumpsMembers members = c :: t ∧ isBlank c = false ∧ continues c = false := by
  match members with
  | [] => exact ⟨'\x7d', [], by rw [dumpsMembers], by decide, by decide⟩
  | (key, v) :: members =>
    exact ⟨',', _, by rw [dumpsMembers, List.cons_append, List.cons_append], by decide, by decide⟩

/-- What stands behind a value in a list. -/
theorem closes {c : Char} {s t : Text} (h : s = c :: t) (hblank : isBlank c = false)
    (hstop : continues c = false) (rest : Text) :
    skip (s ++ rest) = s ++ rest ∧ Stops (s ++ rest) := by
  subst h
  refine ⟨List.dropWhile_cons_of_neg (by simp [hblank]), fun x hx => ?_⟩
  cases hx
  exact hstop

/-- A key with its value is read back if the value is. -/
theorem scanMember_dumps (key : Text) {v : Value} {fuel : ℕ}
    (hv : ∀ fuel, (dumps v).length ≤ fuel → scanOnce fuel (dumps v ++ rest) = some (v, rest))
    (hfuel : (dumpsStr key).length + (dumps v).length ≤ fuel) :
    scanMember fuel (dumpsStr key ++ ':' :: (dumps v ++ rest)) = some ((key, v), rest) := by
  cases fuel with
  | zero => simp [dumpsStr] at hfuel
  | succ fuel =>
    have hvalue := hv fuel (by
      have hlen : 1 ≤ (dumpsStr key).length := by simp [dumpsStr]
      omega)
    have hcolon : skip (':' :: (dumps v ++ rest)) = ':' :: (dumps v ++ rest) :=
      List.dropWhile_cons_of_neg (by decide)
    rw [dumpsStr_append, scanMember, if_pos rfl]
    simp only [scanString_dumpsStr, bind, Option.bind, hcolon, if_true,
      ((begins_dumps v).append rest).skip, hvalue]

theorem scanOnce_number (fuel : ℕ) (h : c.isDigit = true ∨ c = '-') :
    scanOnce (fuel + 1) (c :: s) = (scanInt (c :: s)).map fun r => (.int r.1, r.2) := by
  have hne : ∀ x : Char, x.isDigit = false → x ≠ '-' → c ≠ x := by
    rintro x hx hminus rfl
    rcases h with h | h
    · rw [hx] at h
      cases h
    · exact hminus h
  rw [scanOnce, if_neg (hne _ (by decide) (by decide)), if_neg (hne _ (by decide) (by decide)),
    if_neg (hne _ (by decide) (by decide)), if_neg (hne _ (by decide) (by decide)),
    if_neg (hne _ (by decide) (by decide)), if_neg (hne _ (by decide) (by decide))]

/-- A list that is not empty. -/
theorem scanOnce_arr {v : Value} {items : List Value} {fuel : ℕ} (hs : Begins s)
    (hv : scanOnce fuel s = some (v, t)) (hitems : scanItems fuel (skip t) = some (items, rest)) :
    scanOnce (fuel + 1) ('[' :: s) = some (.arr (v :: items), rest) := by
  have hskip := hs.skip
  obtain ⟨x, s', rfl, -, hx⟩ := hs
  rw [scanOnce, if_neg (by decide), if_neg (by decide), if_pos rfl, hskip]
  simp only [if_neg hx, hv, bind, Option.bind, hitems]

/-- An object that is not empty. -/
theorem scanOnce_obj {m : Text × Value} {members : List (Text × Value)} {fuel : ℕ}
    (hm : scanMember fuel (quote :: s) = some (m, t))
    (hmembers : scanMembers fuel (skip t) = some (members, rest)) :
    scanOnce (fuel + 1) ('\x7b' :: quote :: s) = some (.obj (m :: members), rest) := by
  have hskip : skip (quote :: s) = quote :: s := List.dropWhile_cons_of_neg (by decide)
  rw [scanOnce, if_neg (by decide), if_pos rfl, hskip]
  simp only [if_neg (show ¬ quote = '\x7d' by decide), hm, bind, Option.bind, hmembers]

mutual

/-- **A value is read back**, whatever stands behind it. -/
theorem scanOnce_dumps (v : Value) (fuel : ℕ) (rest : Text) (hrest : Stops rest)
    (hfuel : (dumps v).length ≤ fuel) : scanOnce fuel (dumps v ++ rest) = some (v, rest) := by
  obtain ⟨fuel, rfl⟩ : ∃ n, fuel = n + 1 := by
    obtain ⟨c, t, ht, -⟩ := begins_dumps v
    rw [ht, List.length_cons] at hfuel
    exact ⟨fuel - 1, by omega⟩
  match v with
  | .null => rfl
  | .bool true => rfl
  | .bool false => rfl
  | .int n =>
    have hscan := scanInt_intStr n hrest
    obtain ⟨c, t, ht, hc⟩ := intStr_cons n
    rw [dumps]
    rw [ht, List.cons_append] at hscan ⊢
    rw [scanOnce_number fuel hc, hscan, Option.map_some]
  | .str s =>
    rw [dumps, dumpsStr_append, scanOnce, if_pos rfl, scanString_dumpsStr, Option.map_some]
  | .arr [] => rfl
  | .arr (v :: items) =>
    obtain ⟨c, t, ht, hblank, hstop⟩ := dumpsItems_cons items
    obtain ⟨hskip, hstops⟩ := closes ht hblank hstop rest
    rw [dumps, List.length_append, List.length_cons] at hfuel
    have hv := scanOnce_dumps v fuel (dumpsItems items ++ rest) hstops (by omega)
    have hitems := scanItems_dumpsItems items fuel rest (by omega)
    rw [dumps, List.cons_append, List.cons_append, List.append_assoc]
    exact scanOnce_arr ((begins_dumps v).append _) hv (by rw [hskip, hitems])
  | .obj [] => rfl
  | .obj ((key, v) :: members) =>
    obtain ⟨c, t, ht, hblank, hstop⟩ := dumpsMembers_cons members
    obtain ⟨hskip, hstops⟩ := closes ht hblank hstop rest
    simp only [dumps, List.length_append, List.length_cons] at hfuel
    have hv := fun fuel => scanOnce_dumps v fuel (dumpsMembers members ++ rest) hstops
    have hm := scanMember_dumps key hv (show (dumpsStr key).length + (dumps v).length ≤ fuel by omega)
    have hmembers := scanMembers_dumpsMembers members fuel rest (by omega)
    rw [dumpsStr_append] at hm
    have hobj := scanOnce_obj hm (by rw [hskip, hmembers])
    rw [← dumpsStr_append] at hobj
    simpa only [dumps, List.cons_append, List.append_assoc] using hobj

theorem scanItems_dumpsItems (items : List Value) (fuel : ℕ) (rest : Text)
    (hfuel : (dumpsItems items).length ≤ fuel) :
    scanItems fuel (dumpsItems items ++ rest) = some (items, rest) := by
  obtain ⟨fuel, rfl⟩ : ∃ n, fuel = n + 1 := by
    obtain ⟨c, t, ht, -⟩ := dumpsItems_cons items
    rw [ht, List.length_cons] at hfuel
    exact ⟨fuel - 1, by omega⟩
  match items with
  | [] =>
    rw [dumpsItems, List.singleton_append, scanItems, if_pos rfl]
  | v :: items =>
    obtain ⟨c, t, ht, hblank, hstop⟩ := dumpsItems_cons items
    obtain ⟨hskip, hstops⟩ := closes ht hblank hstop rest
    rw [dumpsItems, List.length_append, List.length_cons] at hfuel
    have hv := scanOnce_dumps v fuel (dumpsItems items ++ rest) hstops (by omega)
    have hitems := scanItems_dumpsItems items fuel rest (by omega)
    rw [dumpsItems, List.cons_append, List.cons_append, List.append_assoc, scanItems,
      if_neg (by decide), if_pos rfl]
    simp only [((begins_dumps v).append _).skip, hv, bind, Option.bind, hskip, hitems]

theorem scanMembers_dumpsMembers (members : List (Text × Value)) (fuel : ℕ) (rest : Text)
    (hfuel : (dumpsMembers members).length ≤ fuel) :
    scanMembers fuel (dumpsMembers members ++ rest) = some (members, rest) := by
  obtain ⟨fuel, rfl⟩ : ∃ n, fuel = n + 1 := by
    obtain ⟨c, t, ht, -⟩ := dumpsMembers_cons members
    rw [ht, List.length_cons] at hfuel
    exact ⟨fuel - 1, by omega⟩
  match members with
  | [] =>
    rw [dumpsMembers, List.singleton_append, scanMembers, if_pos rfl]
  | (key, v) :: members =>
    obtain ⟨c, t, ht, hblank, hstop⟩ := dumpsMembers_cons members
    obtain ⟨hskip, hstops⟩ := closes ht hblank hstop rest
    simp only [dumpsMembers, List.length_append, List.length_cons] at hfuel
    have hv := fun fuel => scanOnce_dumps v fuel (dumpsMembers members ++ rest) hstops
    have hm := scanMember_dumps key hv (show (dumpsStr key).length + (dumps v).length ≤ fuel by omega)
    have hmembers := scanMembers_dumpsMembers members fuel rest (by omega)
    have hkey : skip (dumpsStr key ++ ':' :: (dumps v ++ (dumpsMembers members ++ rest))) =
        dumpsStr key ++ ':' :: (dumps v ++ (dumpsMembers members ++ rest)) :=
      ((begins_dumpsStr key).append _).skip
    simp only [dumpsMembers, List.cons_append, List.append_assoc, scanMembers,
      if_neg (show ¬ ',' = '\x7d' by decide), if_true, hkey, hm, bind, Option.bind, hskip, hmembers]

end

/-- **What is written is read back.** -/
theorem loads_dumps (v : Value) : loads (dumps v) = some v := by
  have hnil : Stops [] := fun c hc => by cases hc
  have hscan := scanOnce_dumps v ((dumps v).length + 1) [] hnil (Nat.le_succ _)
  rw [List.append_nil] at hscan
  rw [loads, (begins_dumps v).skip, hscan]
  rfl

/-! ### Printable texts -/

/-- A printable character of ASCII. -/
def isPrintable (c : Char) : Bool := ' ' ≤ c && c ≤ '~'

/-- Every character is printable. -/
def Printable (s : Text) : Prop := ∀ c ∈ s, isPrintable c = true

theorem printable_of_all (h : s.all isPrintable = true) : Printable s := List.all_eq_true.mp h

theorem Printable.append (hs : Printable s) (ht : Printable t) : Printable (s ++ t) := by
  intro c hc
  exact (List.mem_append.mp hc).elim (hs c) (ht c)

theorem Printable.cons (hc : isPrintable c = true) (hs : Printable s) : Printable (c :: s) :=
  List.forall_mem_cons.mpr ⟨hc, hs⟩

theorem printable_unicodeEscape (n : ℕ) : Printable (unicodeEscape n) := by
  have hdigit : ∀ d < 16, isPrintable (Nat.digitChar d) = true := by decide
  refine .cons (by decide) (.cons (by decide) fun c hc => ?_)
  obtain ⟨d, hd, rfl⟩ := List.mem_map.mp hc
  refine hdigit d ?_
  simp only [List.mem_cons, List.not_mem_nil, or_false] at hd
  omega

theorem printable_escape (c : Char) : Printable (escape c) := by
  have hshort : ∀ x ∈ shortEscapes, isPrintable x.2 = true := by decide
  rw [escape]
  split
  · rename_i hplain
    simp only [isPlain, Bool.and_eq_true] at hplain
    refine .cons ?_ fun x hx => absurd hx List.not_mem_nil
    rw [isPrintable, hplain.1.1.1, hplain.1.1.2, Bool.and_self]
  · split
    · rename_i e hlookup
      refine .cons (by decide) (.cons (hshort _ (mem_shortEscapes hlookup)) ?_)
      exact fun x hx => absurd hx List.not_mem_nil
    · split
      · exact printable_unicodeEscape _
      · exact (printable_unicodeEscape _).append (printable_unicodeEscape _)

theorem printable_dumpsStr (s : Text) : Printable (dumpsStr s) := by
  refine .cons (by decide) (Printable.append (fun c hc => ?_) (printable_of_all (by decide)))
  obtain ⟨x, -, hx⟩ := List.mem_flatMap.mp hc
  exact printable_escape x c hx

theorem printable_intStr (n : Int) : Printable (intStr n) := by
  have hdigit : ∀ d < 10, isPrintable (Nat.digitChar d) = true := by decide
  have hnat : ∀ n, Printable (natStr n) := by
    intro n c hc
    obtain ⟨d, hd, rfl⟩ := mem_toDigits (by decide) hc
    exact hdigit d hd
  rw [intStr]
  split
  · exact .cons (by decide) (hnat _)
  · exact hnat _

mutual

/-- **A text of JSON is printable ASCII**: on one line, and the same in every encoding. -/
theorem printable_dumps (v : Value) : Printable (dumps v) := by
  match v with
  | .null => rw [dumps]; exact printable_of_all (by decide)
  | .bool true => rw [dumps]; exact printable_of_all (by decide)
  | .bool false => rw [dumps]; exact printable_of_all (by decide)
  | .int n =>
    rw [dumps]
    exact printable_intStr n
  | .str s =>
    rw [dumps]
    exact printable_dumpsStr s
  | .arr [] => rw [dumps]; exact printable_of_all (by decide)
  | .arr (v :: items) =>
    rw [dumps]
    exact (Printable.cons (by decide) (printable_dumps v)).append (printable_dumpsItems items)
  | .obj [] => rw [dumps]; exact printable_of_all (by decide)
  | .obj ((key, v) :: members) =>
    rw [dumps]
    exact ((Printable.cons (by decide) (printable_dumpsStr key)).append
      (.cons (by decide) (printable_dumps v))).append (printable_dumpsMembers members)

theorem printable_dumpsItems (items : List Value) : Printable (dumpsItems items) := by
  match items with
  | [] =>
    rw [dumpsItems]
    exact .cons (by decide) fun c hc => absurd hc List.not_mem_nil
  | v :: items =>
    rw [dumpsItems]
    exact (Printable.cons (by decide) (printable_dumps v)).append (printable_dumpsItems items)

theorem printable_dumpsMembers (members : List (Text × Value)) :
    Printable (dumpsMembers members) := by
  match members with
  | [] =>
    rw [dumpsMembers]
    exact .cons (by decide) fun c hc => absurd hc List.not_mem_nil
  | (key, v) :: members =>
    rw [dumpsMembers]
    exact ((Printable.cons (by decide) (printable_dumpsStr key)).append
      (.cons (by decide) (printable_dumps v))).append (printable_dumpsMembers members)

end

end Json
