/-
Encoding and decoding are inverse.

* `decodeUtf8_encode` — UTF-8;
* `unquote_quote` — percent-escapes, when the percent sign is escaped;
* `parseQsl_urlencode` — query strings: every list of fields without blank values
  reads back.
-/
import Newsforge.Normalizer
import Newsforge.PercentSpelling

open PyText

namespace Percent

/-! ### UTF-8 -/

deriving instance DecidableEq for Pending

/-- `String.utf8EncodeChar`, by the code point. -/
theorem utf8EncodeChar_eq (c : Char) : String.utf8EncodeChar c =
    if c.toNat ≤ 0x7f then [UInt8.ofNat c.toNat]
    else if c.toNat ≤ 0x7ff then
      [UInt8.ofNat (c.toNat / 64 % 0x20 + 0xc0), UInt8.ofNat (c.toNat % 0x40 + 0x80)]
    else if c.toNat ≤ 0xffff then
      [UInt8.ofNat (c.toNat / 4096 % 0x10 + 0xe0), UInt8.ofNat (c.toNat / 64 % 0x40 + 0x80),
        UInt8.ofNat (c.toNat % 0x40 + 0x80)]
    else
      [UInt8.ofNat (c.toNat / 262144 % 0x08 + 0xf0), UInt8.ofNat (c.toNat / 4096 % 0x40 + 0x80),
        UInt8.ofNat (c.toNat / 64 % 0x40 + 0x80), UInt8.ofNat (c.toNat % 0x40 + 0x80)] := rfl

theorem utf8EncodeChar_ascii {c : Char} (h : isAsciiChar c = true) :
    String.utf8EncodeChar c = [UInt8.ofNat c.toNat] := by
  rw [isAsciiChar, decide_eq_true_eq] at h
  rw [utf8EncodeChar_eq, if_pos (by omega)]

theorem startUtf8_ascii {n : ℕ} (h : n < 0x80) :
    startUtf8 (UInt8.ofNat n) = .inl (Char.ofNat n) := by
  have hn : (UInt8.ofNat n).toNat = n := UInt8.toNat_ofNat_of_lt' (Nat.lt_trans h (by decide))
  rw [startUtf8, if_pos (UInt8.lt_iff_toNat_lt.mpr (by rw [hn]; exact h)), hn]

/-- The first byte of a sequence of two. -/
theorem startUtf8_two {x : ℕ} (h : 2 ≤ x) (hx : x < 0x20) :
    startUtf8 (UInt8.ofNat (x + 0xc0)) = .inr ⟨1, 0x80, 0xBF, x⟩ := by
  revert h
  exact (by decide : ∀ x < 0x20, 2 ≤ x →
    startUtf8 (UInt8.ofNat (x + 0xc0)) = .inr ⟨1, 0x80, 0xBF, x⟩) x hx

/-- The first byte of a sequence of three. -/
theorem startUtf8_three {x : ℕ} (hx : x < 0x10) :
    startUtf8 (UInt8.ofNat (x + 0xe0)) =
      .inr ⟨2, if x = 0 then 0xA0 else 0x80, if x = 13 then 0x9F else 0xBF, x⟩ :=
  (by decide : ∀ x < 0x10, startUtf8 (UInt8.ofNat (x + 0xe0)) =
    .inr ⟨2, if x = 0 then 0xA0 else 0x80, if x = 13 then 0x9F else 0xBF, x⟩) x hx

/-- The first byte of a sequence of four. -/
theorem startUtf8_four {x : ℕ} (hx : x < 5) :
    startUtf8 (UInt8.ofNat (x + 0xf0)) =
      .inr ⟨3, if x = 0 then 0x90 else 0x80, if x = 4 then 0x8F else 0xBF, x⟩ :=
  (by decide : ∀ x < 5, startUtf8 (UInt8.ofNat (x + 0xf0)) =
    .inr ⟨3, if x = 0 then 0x90 else 0x80, if x = 4 then 0x8F else 0xBF, x⟩) x hx

theorem decodeFrom_inl {b : UInt8} {c : Char} (h : startUtf8 b = .inl c) (bs : List UInt8) :
    decodeFrom none (b :: bs) = c :: decodeFrom none bs := by
  rw [decodeFrom, h]

theorem decodeFrom_inr {b : UInt8} {p : Pending} (h : startUtf8 b = .inr p) (bs : List UInt8) :
    decodeFrom none (b :: bs) = decodeFrom (some p) bs := by
  rw [decodeFrom, h]

/-- A byte that goes on with a sequence. -/
theorem decodeFrom_some {x m bits : ℕ} {low high : UInt8} (hx : x < 0x40)
    (hlow : low.toNat ≤ x + 0x80) (hhigh : x + 0x80 ≤ high.toNat) (bs : List UInt8) :
    decodeFrom (some ⟨m, low, high, bits⟩) (UInt8.ofNat (x + 0x80) :: bs) =
      if m ≤ 1 then Char.ofNat (bits * 64 + x) :: decodeFrom none bs
      else decodeFrom (some ⟨m - 1, 0x80, 0xBF, bits * 64 + x⟩) bs := by
  have hn : (UInt8.ofNat (x + 0x80)).toNat = x + 0x80 :=
    UInt8.toNat_ofNat_of_lt' (Nat.lt_of_lt_of_le (Nat.add_lt_add_right hx _) (by decide))
  have hrange : (decide (low ≤ UInt8.ofNat (x + 0x80)) && decide (UInt8.ofNat (x + 0x80) ≤ high)) =
      true := by
    rw [Bool.and_eq_true, decide_eq_true_eq, decide_eq_true_eq, UInt8.le_iff_toNat_le,
      UInt8.le_iff_toNat_le, hn]
    exact ⟨hlow, hhigh⟩
  rw [decodeFrom, if_pos hrange, hn, show (x + 0x80) % 64 = x by omega]

/-- **UTF-8 reads back**, character by character. -/
theorem decodeFrom_utf8EncodeChar (c : Char) (bs : List UInt8) :
    decodeFrom none (String.utf8EncodeChar c ++ bs) = c :: decodeFrom none bs := by
  have hvalid : c.toNat < 0xd800 ∨ 0xdfff < c.toNat ∧ c.toNat < 0x110000 := c.valid
  rw [utf8EncodeChar_eq]
  set n := c.toNat with hn
  have hc : Char.ofNat n = c := Char.ofNat_toNat c
  by_cases h1 : n ≤ 0x7f
  · rw [if_pos h1, List.singleton_append, decodeFrom_inl (startUtf8_ascii (by omega)), hc]
  by_cases h2 : n ≤ 0x7ff
  · rw [if_neg h1, if_pos h2]
    simp only [List.cons_append, List.nil_append]
    rw [decodeFrom_inr (startUtf8_two (by omega) (by omega)),
      decodeFrom_some (by omega) (by simp) (by simp; omega), if_pos (Nat.le_refl 1),
      show n / 64 % 0x20 * 64 + n % 0x40 = n by omega, hc]
  by_cases h3 : n ≤ 0xffff
  · rw [if_neg h1, if_neg h2, if_pos h3]
    simp only [List.cons_append, List.nil_append]
    rw [decodeFrom_inr (startUtf8_three (by omega)), decodeFrom_some (by omega) ?_ ?_,
      if_neg (by decide), decodeFrom_some (by omega) (by simp) (by simp; omega),
      if_pos (by decide), show (n / 4096 % 0x10 * 64 + n / 64 % 0x40) * 64 + n % 0x40 = n by omega,
      hc]
    · -- no overlong form
      split
      · simp; omega
      · simp
    · -- no surrogate
      split
      · simp; omega
      · simp; omega
  · rw [if_neg h1, if_neg h2, if_neg h3]
    simp only [List.cons_append, List.nil_append]
    rw [decodeFrom_inr (startUtf8_four (by omega)), decodeFrom_some (by omega) ?_ ?_,
      if_neg (by decide), decodeFrom_some (by omega) (by simp) (by simp; omega),
      if_neg (by decide), decodeFrom_some (by omega) (by simp) (by simp; omega),
      if_pos (by decide),
      show ((n / 262144 % 0x08 * 64 + n / 4096 % 0x40) * 64 + n / 64 % 0x40) * 64 + n % 0x40 = n
        by omega, hc]
    · split
      · simp; omega
      · simp
    · -- no code point behind the last one
      split
      · simp; omega
      · simp; omega

theorem decodeUtf8_encode (s : Text) : decodeUtf8 (s.flatMap String.utf8EncodeChar) = s := by
  rw [decodeUtf8]
  induction s with
  | nil => rfl
  | cons c s ih => rw [List.flatMap_cons, decodeFrom_utf8EncodeChar, ih]

/-! ### Escapes -/

/-- The digits of an escape are upper-case hexadecimal digits. -/
theorem pctDigit {d : ℕ} (h : d < 16) :
    IPAddress.isHexDigit d.digitChar.toUpper = true ∧
      IPAddress.hexDigit d.digitChar.toUpper = d ∧ isAlwaysSafe d.digitChar.toUpper = true :=
  (by decide : ∀ d < 16, IPAddress.isHexDigit (Nat.digitChar d).toUpper = true ∧
    IPAddress.hexDigit (Nat.digitChar d).toUpper = d ∧
    isAlwaysSafe (Nat.digitChar d).toUpper = true) d h

theorem unquoteToBytes_pctByte (b : UInt8) (s : Text) :
    unquoteToBytes (pctByte b ++ s) = b :: unquoteToBytes s := by
  have hb : b.toNat < 256 := UInt8.toNat_lt b
  have hhigh := pctDigit (d := b.toNat / 16) (by omega)
  have hlow := pctDigit (d := b.toNat % 16) (by omega)
  simp only [pctByte, List.cons_append, List.nil_append]
  rw [unquoteToBytes_escape hhigh.1 hlow.1, hhigh.2.1, hlow.2.1,
    show b.toNat / 16 * 16 + b.toNat % 16 = b.toNat by omega, UInt8.ofNat_toNat]

theorem unquoteToBytes_pctBytes (bs : List UInt8) (s : Text) :
    unquoteToBytes (bs.flatMap pctByte ++ s) = bs ++ unquoteToBytes s := by
  induction bs with
  | nil => rfl
  | cons b bs ih =>
    rw [List.flatMap_cons, List.append_assoc, unquoteToBytes_pctByte, ih, List.cons_append]

/-- What a quoted text is made of. -/
theorem mem_quote {safe s : Text} {c : Char} (h : c ∈ quote safe s) :
    isAlwaysSafe c = true ∨ c ∈ safe ∨ c = '%' := by
  rw [quote, List.mem_flatMap] at h
  obtain ⟨x, -, h⟩ := h
  split at h
  · rename_i hsafe
    rw [List.mem_singleton] at h
    subst h
    rw [Bool.or_eq_true, List.contains_iff_mem] at hsafe
    exact hsafe.imp_right .inl
  · obtain ⟨b, -, h⟩ := List.mem_flatMap.mp h
    have hb : b.toNat < 256 := UInt8.toNat_lt b
    simp only [pctByte, List.mem_cons, List.not_mem_nil, or_false] at h
    rcases h with rfl | rfl | rfl
    · exact .inr (.inr rfl)
    · exact .inl (pctDigit (by omega)).2.2
    · exact .inl (pctDigit (by omega)).2.2

variable {safe : Text}

theorem isAsciiChar_of_mem_quote (hsafe : ∀ c ∈ safe, isAsciiChar c = true) {s : Text} {c : Char}
    (h : c ∈ quote safe s) : isAsciiChar c = true := by
  rcases mem_quote h with h | h | rfl
  · exact isAsciiChar_of_isAlwaysSafe h
  · exact hsafe c h
  · decide

theorem unquoteToBytes_quote (hsafe : ∀ c ∈ safe, isAsciiChar c = true ∧ c ≠ '%') (s : Text) :
    unquoteToBytes (quote safe s) = s.flatMap String.utf8EncodeChar := by
  induction s with
  | nil => rfl
  | cons c s ih =>
    rw [quote, List.flatMap_cons, ← quote, List.flatMap_cons, ← ih]
    split
    · rename_i hc
      rw [Bool.or_eq_true, List.contains_iff_mem] at hc
      have hascii : isAsciiChar c = true := by
        rcases hc with hc | hc
        · exact isAsciiChar_of_isAlwaysSafe hc
        · exact (hsafe c hc).1
      -- a safe character begins no escape
      have hno : startsEscape (c :: quote safe s) = false := by
        refine startsEscape_eq_false ?_
        rintro a b t rfl
        rcases hc with hc | hc
        · exact absurd hc (by decide)
        · exact absurd rfl (hsafe _ hc).2
      rw [List.singleton_append, unquoteToBytes_cons hno, utf8EncodeChar_ascii hascii,
        List.singleton_append]
    · exact unquoteToBytes_pctBytes _ _

/-- **A quoted text reads back**, if the percent sign is escaped in it. -/
theorem unquote_quote (hsafe : ∀ c ∈ safe, isAsciiChar c = true ∧ c ≠ '%') (s : Text) :
    unquote (quote safe s) = s := by
  have hascii : ∀ c ∈ quote safe s, isAsciiChar c = true := fun c hc =>
    isAsciiChar_of_mem_quote (fun c hc => (hsafe c hc).1) hc
  have hrun := unquoteFrom_run hascii (t := []) (fun _ h => absurd h (by simp)) []
  rw [List.append_nil, List.nil_append] at hrun
  rw [unquote_eq, hrun, unquoteFrom, unquoteToBytes_quote hsafe, decodeUtf8_encode]

/-! ### Nothing is decoded to nothing -/

theorem decodeFrom_some_ne_nil (p : Pending) (bs : List UInt8) : decodeFrom (some p) bs ≠ [] := by
  induction bs generalizing p with
  | nil => exact List.cons_ne_nil _ _
  | cons b bs ih =>
    rw [decodeFrom]
    split
    · dsimp only
      split
      · exact List.cons_ne_nil _ _
      · exact ih _
    · split
      · exact List.cons_ne_nil _ _
      · exact List.cons_ne_nil _ _

theorem decodeUtf8_eq_nil {bs : List UInt8} (h : decodeUtf8 bs = []) : bs = [] := by
  cases bs with
  | nil => rfl
  | cons b bs =>
    rw [decodeUtf8, decodeFrom] at h
    split at h
    · exact absurd h (List.cons_ne_nil _ _)
    · exact absurd h (decodeFrom_some_ne_nil _ _)

theorem unquoteFrom_eq_nil {acc : List UInt8} {s : Text} (h : unquoteFrom acc s = []) :
    acc = [] ∧ s = [] := by
  induction s using escapes_induction generalizing acc with
  | nil => exact ⟨decodeUtf8_eq_nil h, rfl⟩
  | escape a b s ha hb ih =>
    rw [unquoteFrom_escape ha hb] at h
    exact absurd (ih h).1 (by simp)
  | cons c s hno ih =>
    rw [unquoteFrom_cons hno] at h
    split at h
    · exact absurd (ih h).1 (by simp)
    · exact absurd h (by simp)

theorem unquote_eq_nil {s : Text} (h : unquote s = []) : s = [] := by
  rw [unquote_eq] at h
  exact (unquoteFrom_eq_nil h).2

end Percent

namespace Normalizer

/-! ### Fields -/

theorem mem_quotePlus {s : Text} {c : Char} (h : c ∈ quotePlus s) :
    Percent.isAlwaysSafe c = true ∨ c = '%' ∨ c = '+' := by
  rw [quotePlus] at h
  split at h
  · obtain ⟨x, hx, rfl⟩ := List.mem_map.mp h
    split
    · exact .inr (.inr rfl)
    · rename_i hspace
      rcases Percent.mem_quote hx with h | h | h
      · exact .inl h
      · exact absurd (List.mem_singleton.mp h) hspace
      · exact .inr (.inl h)
  · rcases Percent.mem_quote h with h | h | h
    · exact .inl h
    · exact absurd h List.not_mem_nil
    · exact .inr (.inl h)

/-- Neither separator, nor a delimiter of a URL, nor white space is in a quoted
text. -/
theorem notMem_quotePlus {s : Text} {c : Char} (hsafe : Percent.isAlwaysSafe c = false)
    (hpercent : c ≠ '%') (hplus : c ≠ '+') : c ∉ quotePlus s := by
  intro h
  rcases mem_quotePlus h with h | h | h
  · rw [hsafe] at h
    exact Bool.false_ne_true h
  · exact hpercent h
  · exact hplus h

theorem replaceChar_of_notMem {c d : Char} {s : Text} (h : c ∉ s) : replaceChar c d s = s := by
  conv_rhs => rw [← List.map_id s]
  refine List.map_congr_left fun x hx => if_neg ?_
  rintro rfl
  exact h hx

/-- A replacement undone. -/
theorem replaceChar_back {c d : Char} {s : Text} (h : d ∉ s) :
    replaceChar d c (replaceChar c d s) = s := by
  rw [replaceChar, replaceChar, List.map_map]
  conv_rhs => rw [← List.map_id s]
  refine List.map_congr_left fun x hx => ?_
  by_cases hxc : x = c
  · simp [hxc]
  · have hxd : x ≠ d := by
      rintro rfl
      exact h hx
    simp [hxc, hxd]

theorem unquotePlus_quotePlus (s : Text) : unquotePlus (quotePlus s) = s := by
  have hplus : ∀ safe : Text, '+' ∉ safe → '+' ∉ Percent.quote safe s := by
    intro safe hsafe h
    rcases Percent.mem_quote h with h | h | h
    · exact absurd h (by decide)
    · exact hsafe h
    · exact absurd h (by decide)
  rw [unquotePlus, quotePlus]
  split
  · rw [replaceChar_back (hplus [' '] (by decide))]
    refine Percent.unquote_quote (fun c hc => ?_) s
    rw [List.mem_singleton.mp hc]
    exact ⟨rfl, by decide⟩
  · rw [replaceChar_of_notMem (hplus [] List.not_mem_nil)]
    exact Percent.unquote_quote (fun _ h => absurd h List.not_mem_nil) s

theorem unquotePlus_eq_nil {s : Text} (h : unquotePlus s = []) : s = [] := by
  rw [unquotePlus] at h
  exact List.map_eq_nil_iff.mp (Percent.unquote_eq_nil h)

theorem parseField_encodeField {f : Field} (h : f.2 ≠ []) :
    parseField (encodeField f) = some f := by
  have heq : '=' ∉ quotePlus f.1 := notMem_quotePlus (by decide) (by decide) (by decide)
  have hvalue : (quotePlus f.2).isEmpty = false := by
    rw [List.isEmpty_eq_false_iff]
    intro hnil
    have hback := unquotePlus_quotePlus f.2
    rw [hnil] at hback
    exact h hback.symm
  rw [parseField, encodeField, partition_append heq]
  simp only [hvalue, unquotePlus_quotePlus, Bool.false_eq_true, if_false]

theorem parseField_blank {f : Field} (h : f.2 = []) : parseField (encodeField f) = none := by
  have heq : '=' ∉ quotePlus f.1 := notMem_quotePlus (by decide) (by decide) (by decide)
  rw [parseField, encodeField, partition_append heq, h]
  rfl

/-- What stands in an encoded query. -/
theorem mem_urlencode {fields : List Field} {c : Char} (h : c ∈ urlencode fields) :
    Percent.isAlwaysSafe c = true ∨ c = '%' ∨ c = '+' ∨ c = '&' ∨ c = '=' := by
  rcases mem_join h with rfl | ⟨piece, hpiece, h⟩
  · exact .inr (.inr (.inr (.inl rfl)))
  · obtain ⟨f, -, rfl⟩ := List.mem_map.mp hpiece
    rw [encodeField, List.mem_append, List.mem_cons] at h
    rcases h with h | rfl | h
    · rcases mem_quotePlus h with h | h | h
      · exact .inl h
      · exact .inr (.inl h)
      · exact .inr (.inr (.inl h))
    · exact .inr (.inr (.inr (.inr rfl)))
    · rcases mem_quotePlus h with h | h | h
      · exact .inl h
      · exact .inr (.inl h)
      · exact .inr (.inr (.inl h))

/-- **Query strings read back**: `parse_qsl` returns the fields that `urlencode`
was given, but for those with a blank value. -/
theorem parseQsl_urlencode (fields : List Field) :
    parseQsl (urlencode fields) = fields.filter fun f => !f.2.isEmpty := by
  rcases eq_or_ne fields [] with rfl | hne
  · rfl
  have hamp : ∀ piece ∈ fields.map encodeField, '&' ∉ piece := by
    intro piece hpiece h
    obtain ⟨f, -, rfl⟩ := List.mem_map.mp hpiece
    have hno : ∀ s, '&' ∉ quotePlus s := fun s =>
      notMem_quotePlus (by decide) (by decide) (by decide)
    rw [encodeField, List.mem_append, List.mem_cons] at h
    rcases h with h | h | h
    · exact hno _ h
    · exact absurd h (by decide)
    · exact hno _ h
  rw [parseQsl, urlencode, split_join (by simpa using hne) hamp, List.filterMap_map]
  clear hne hamp
  induction fields with
  | nil => rfl
  | cons f fields ih =>
    rw [List.filter_cons, List.filterMap_cons, Function.comp_apply]
    cases hv : f.2 with
    | nil =>
      rw [parseField_blank hv]
      exact ih
    | cons c v =>
      rw [parseField_encodeField (by rw [hv]; exact List.cons_ne_nil _ _)]
      exact congrArg (f :: ·) ih

/-- No field that is read has a blank value. -/
theorem value_ne_nil {qs : Text} {f : Field} (h : f ∈ parseQsl qs) : f.2 ≠ [] := by
  obtain ⟨piece, -, h⟩ := List.mem_filterMap.mp h
  rw [parseField] at h
  split at h
  · exact absurd h (by simp)
  · rename_i hvalue
    obtain rfl := Option.some.inj h
    intro hnil
    exact hvalue (List.isEmpty_iff.mpr (unquotePlus_eq_nil hnil))

end Normalizer
