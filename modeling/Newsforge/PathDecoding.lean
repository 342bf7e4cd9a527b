/-
Decoding the characters of a path one at a time.

* `escape` — a character written as percent-escapes;
* `unquote_append_escape`, `unquote_append_cons` — an escaped character, and one
  outside the escapes, are decoded apart from what surrounds them;
* `unquote_sameLetters` — the letter case of a character reaches no other one.
-/
import Newsforge.AddressCase
import Newsforge.QueryCoding

open PyText

namespace PyText

/-! ### Split and join -/

theorem map_modifyHead {α β : Type*} {f : α → β} {g : α → α} {h : β → β}
    (hfg : ∀ x, f (g x) = h (f x)) (l : List α) :
    (l.modifyHead g).map f = (l.map f).modifyHead h := by
  cases l with
  | nil => rfl
  | cons x l => simp [hfg]

theorem split_cons (c x : Char) (s : Text) :
    split c (x :: s) = if x = c then [] :: split c s else (split c s).modifyHead (x :: ·) := by
  simp only [split, List.splitOn_eq_splitOnP, List.splitOnP_cons_eq_if_modifyHead, beq_iff_eq]

theorem join_cons (c : Char) (p : Text) {ps : List Text} (hne : ps ≠ []) :
    join c (p :: ps) = p ++ c :: join c ps := by
  cases ps with
  | nil => exact absurd rfl hne
  | cons q ps => simp [join, List.intercalate]

end PyText

namespace Percent

open IPAddress

/-! ### Where a character begins -/

/-- What a sequence that has begun asks for: bytes that begin no character. -/
structure Pending.Continues (p : Pending) : Prop where
  missing : 0 < p.missing
  low : 0x80 ≤ p.low.toNat
  high : p.high.toNat ≤ 0xBF

theorem startUtf8_continues {b : UInt8} {p : Pending} (h : startUtf8 b = .inr p) :
    p.Continues := by
  rw [startUtf8] at h
  split at h
  · cases h
  · split at h
    · cases h
      exact ⟨Nat.one_pos, Nat.le_refl _, Nat.le_refl _⟩
    · split at h
      · cases h
        refine ⟨Nat.two_pos, ?_, ?_⟩
        · dsimp only
          split <;> decide
        · dsimp only
          split <;> decide
      · split at h
        · cases h
          refine ⟨Nat.succ_pos _, ?_, ?_⟩
          · dsimp only
            split <;> decide
          · dsimp only
            split <;> decide
        · cases h

/-- The rest of a sequence. -/
theorem Pending.Continues.rest {p : Pending} (h : ¬ p.missing ≤ 1) (bits : ℕ) :
    Pending.Continues ⟨p.missing - 1, 0x80, 0xBF, bits⟩ :=
  ⟨Nat.sub_pos_of_lt (Nat.lt_of_not_le h), Nat.le_refl _, Nat.le_refl _⟩

theorem decodeFrom_some_cons (p : Pending) (b : UInt8) (bs : List UInt8) :
    decodeFrom (some p) (b :: bs) =
      if (p.low ≤ b && b ≤ p.high) = true then
        if p.missing ≤ 1 then Char.ofNat (p.bits * 64 + b.toNat % 64) :: decodeFrom none bs
        else decodeFrom (some ⟨p.missing - 1, 0x80, 0xBF, p.bits * 64 + b.toNat % 64⟩) bs
      else replacement :: decodeFrom none (b :: bs) := by
  by_cases hin : (p.low ≤ b && b ≤ p.high) = true
  · rw [if_pos hin]
    conv_lhs => rw [decodeFrom, if_pos hin]
  · rw [if_neg hin]
    conv_lhs => rw [decodeFrom, if_neg hin]
    rw [decodeFrom]
    cases startUtf8 b <;> rfl

/-- A byte that does not go on with a sequence is looked at as if none had begun. -/
theorem decodeFrom_break {p : Pending} {b : UInt8} (h : (p.low ≤ b && b ≤ p.high) = false)
    (bs : List UInt8) :
    decodeFrom (some p) (b :: bs) = replacement :: decodeFrom none (b :: bs) := by
  rw [decodeFrom_some_cons, if_neg (by rw [h]; exact Bool.false_ne_true)]

/-- A byte that begins a character, or is one. -/
def Begins (b : UInt8) : Prop := b.toNat < 0x80 ∨ 0xBF < b.toNat

theorem Pending.Continues.breaks {p : Pending} (hp : p.Continues) {b : UInt8} (hb : Begins b) :
    (p.low ≤ b && b ≤ p.high) = false := by
  rw [Bool.and_eq_false_imp, decide_eq_true_eq, decide_eq_false_iff_not, UInt8.le_iff_toNat_le,
    UInt8.le_iff_toNat_le]
  have hlow := hp.low
  have hhigh := hp.high
  rcases hb with hb | hb <;> omega

/-- What stands in front of such a byte is decoded by itself. -/
theorem decodeFrom_append {b : UInt8} (hb : Begins b) (xs bs : List UInt8) {o : Option Pending}
    (ho : ∀ p ∈ o, p.Continues) :
    decodeFrom o (xs ++ b :: bs) = decodeFrom o xs ++ decodeFrom none (b :: bs) := by
  induction xs generalizing o with
  | nil =>
    cases o with
    | none => rfl
    | some p => exact decodeFrom_break ((ho p rfl).breaks hb) bs
  | cons x xs ih =>
    have hnone : ∀ p ∈ (none : Option Pending), p.Continues := fun p hp => absurd hp (by simp)
    have hsome : ∀ {q : Pending}, q.Continues → ∀ p ∈ some q, p.Continues := by
      intro q hq p hp
      rwa [← Option.some.inj hp]
    have hopen : decodeFrom none (x :: xs ++ b :: bs) =
        decodeFrom none (x :: xs) ++ decodeFrom none (b :: bs) := by
      rw [List.cons_append, decodeFrom, decodeFrom]
      cases hx : startUtf8 x with
      | inl c => exact congrArg (c :: ·) (ih hnone)
      | inr q => exact ih (hsome (startUtf8_continues hx))
    cases o with
    | none => exact hopen
    | some p =>
      cases hin : (p.low ≤ x && x ≤ p.high) with
      | false =>
        rw [List.cons_append, decodeFrom_break hin, ← List.cons_append, hopen,
          decodeFrom_break hin, List.cons_append]
      | true =>
        rw [List.cons_append, decodeFrom_some_cons, decodeFrom_some_cons, if_pos hin, if_pos hin]
        split
        · exact congrArg (_ :: ·) (ih hnone)
        · exact ih (hsome (.rest ‹_› _))

/-- The first byte of a character. -/
theorem utf8EncodeChar_begins (c : Char) :
    ∃ b bs, String.utf8EncodeChar c = b :: bs ∧ Begins b := by
  rw [utf8EncodeChar_eq]
  split
  · refine ⟨_, _, rfl, .inl ?_⟩
    simp
    omega
  · split
    · refine ⟨_, _, rfl, .inr ?_⟩
      simp
      omega
    · split
      · refine ⟨_, _, rfl, .inr ?_⟩
        simp
        omega
      · refine ⟨_, _, rfl, .inr ?_⟩
        simp
        omega

theorem decodeUtf8_append_char (xs : List UInt8) (c : Char) (bs : List UInt8) :
    decodeUtf8 (xs ++ (String.utf8EncodeChar c ++ bs)) = decodeUtf8 xs ++ c :: decodeUtf8 bs := by
  obtain ⟨b, rest, heq, hb⟩ := utf8EncodeChar_begins c
  have hchar := decodeFrom_utf8EncodeChar c bs
  have hnone : ∀ p ∈ (none : Option Pending), p.Continues := fun p hp => absurd hp (by simp)
  rw [heq, List.cons_append] at hchar ⊢
  rw [decodeUtf8, decodeFrom_append hb xs _ hnone, hchar]
  rfl

/-! ### The first piece -/

/-- A byte and those that go on with it, where the sequence breaks off.  The sequence of
U+FFFD itself has three bytes. -/
structure Broken (b : UInt8) (xs : List UInt8) : Prop where
  head : 0x80 ≤ b.toNat
  tail : ∀ x ∈ xs, ¬ Begins x
  length : xs.length < 3
  short : b = 0xEF → xs.length < 2

theorem not_begins {b : UInt8} : ¬ Begins b ↔ 0x80 ≤ b.toNat ∧ b.toNat ≤ 0xBF := by
  rw [Begins, not_or, Nat.not_lt, Nat.not_lt]

/-- A sequence that has begun ends with the bytes it asks for, or breaks off in front of
the first that does not go on with it. -/
theorem decodeFrom_some_split {p : Pending} (hp : p.Continues) (bs : List UInt8) :
    ∃ xs ys, bs = xs ++ ys ∧ (∀ x ∈ xs, ¬ Begins x) ∧
      (xs.length < p.missing ∧ decodeFrom (some p) bs = replacement :: decodeFrom none ys ∨
        xs.length = p.missing ∧
          ∀ x ∈ xs.head?, p.low.toNat ≤ x.toNat ∧ x.toNat ≤ p.high.toNat) := by
  induction bs generalizing p with
  | nil => exact ⟨[], [], rfl, by simp, .inl ⟨hp.missing, rfl⟩⟩
  | cons b bs ih =>
    cases hin : (p.low ≤ b && b ≤ p.high) with
    | false =>
      exact ⟨[], b :: bs, rfl, by simp, .inl ⟨hp.missing, decodeFrom_break hin bs⟩⟩
    | true =>
      have hrange := hin
      rw [Bool.and_eq_true, decide_eq_true_eq, decide_eq_true_eq, UInt8.le_iff_toNat_le,
        UInt8.le_iff_toNat_le] at hrange
      have hb : ¬ Begins b := not_begins.mpr ⟨hp.low.trans hrange.1, hrange.2.trans hp.high⟩
      have hhead : ∀ {xs : List UInt8}, ∀ x ∈ (b :: xs).head?,
          p.low.toNat ≤ x.toNat ∧ x.toNat ≤ p.high.toNat := by
        intro xs x hx
        rwa [← Option.some.inj hx]
      by_cases hone : p.missing ≤ 1
      · have hmissing : 1 = p.missing := le_antisymm hp.missing hone
        exact ⟨[b], bs, rfl, by simpa using hb, .inr ⟨hmissing, hhead⟩⟩
      · obtain ⟨xs, ys, rfl, hxs, hend⟩ := ih (.rest hone (p.bits * 64 + b.toNat % 64))
        refine ⟨b :: xs, ys, rfl, List.forall_mem_cons.mpr ⟨hb, hxs⟩, ?_⟩
        rw [decodeFrom_some_cons, if_pos hin, if_neg hone, List.length_cons]
        dsimp only at hend
        rcases hend with ⟨hlen, heq⟩ | ⟨hlen, -⟩
        · exact .inl ⟨by omega, heq⟩
        · exact .inr ⟨by omega, hhead⟩

theorem uint8_eq {n : ℕ} {b : UInt8} (h : n = b.toNat) : UInt8.ofNat n = b := by
  rw [h, UInt8.ofNat_toNat]

theorem toNat_ofNat_valid {n : ℕ} (h : n < 0xd800 ∨ 0xdfff < n ∧ n < 0x110000) :
    (Char.ofNat n).toNat = n := by
  have hvalid : n.isValidChar := h
  rw [Char.ofNat, dif_pos hvalid]
  rfl

theorem utf8EncodeChar_two {b x : UInt8} (hb : 0xC2 ≤ b.toNat) (hb' : b.toNat ≤ 0xDF)
    (hx : ¬ Begins x) :
    String.utf8EncodeChar (Char.ofNat (b.toNat % 32 * 64 + x.toNat % 64)) = [b, x] := by
  rw [not_begins] at hx
  rw [utf8EncodeChar_eq, toNat_ofNat_valid (by omega), if_neg (by omega), if_pos (by omega),
    uint8_eq (b := b) (by omega), uint8_eq (b := x) (by omega)]

theorem utf8EncodeChar_three {b x y : UInt8} (hb : 0xE0 ≤ b.toNat) (hb' : b.toNat ≤ 0xEF)
    (hx : ¬ Begins x) (hy : ¬ Begins y) (hlow : b.toNat = 0xE0 → 0xA0 ≤ x.toNat)
    (hhigh : b.toNat = 0xED → x.toNat ≤ 0x9F) :
    String.utf8EncodeChar
      (Char.ofNat ((b.toNat % 16 * 64 + x.toNat % 64) * 64 + y.toNat % 64)) = [b, x, y] := by
  rw [not_begins] at hx hy
  rw [utf8EncodeChar_eq, toNat_ofNat_valid (by omega), if_neg (by omega), if_neg (by omega),
    if_pos (by omega), uint8_eq (b := b) (by omega), uint8_eq (b := x) (by omega),
    uint8_eq (b := y) (by omega)]

theorem utf8EncodeChar_four {b x y z : UInt8} (hb : 0xF0 ≤ b.toNat) (hb' : b.toNat ≤ 0xF4)
    (hx : ¬ Begins x) (hy : ¬ Begins y) (hz : ¬ Begins z)
    (hlow : b.toNat = 0xF0 → 0x90 ≤ x.toNat) (hhigh : b.toNat = 0xF4 → x.toNat ≤ 0x8F) :
    String.utf8EncodeChar (Char.ofNat
      (((b.toNat % 8 * 64 + x.toNat % 64) * 64 + y.toNat % 64) * 64 + z.toNat % 64)) =
      [b, x, y, z] := by
  rw [not_begins] at hx hy hz
  rw [utf8EncodeChar_eq, toNat_ofNat_valid (by omega), if_neg (by omega), if_neg (by omega),
    if_neg (by omega), uint8_eq (b := b) (by omega), uint8_eq (b := x) (by omega),
    uint8_eq (b := y) (by omega), uint8_eq (b := z) (by omega)]

/-- What a byte outside ASCII begins. -/
theorem startUtf8_cases {b : UInt8} (hb : 0x80 ≤ b.toNat) :
    startUtf8 b = .inl replacement ∨
      ((0xC2 ≤ b.toNat ∧ b.toNat ≤ 0xDF) ∧ startUtf8 b = .inr ⟨1, 0x80, 0xBF, b.toNat % 32⟩) ∨
      ((0xE0 ≤ b.toNat ∧ b.toNat ≤ 0xEF) ∧ startUtf8 b =
        .inr ⟨2, if b = 0xE0 then 0xA0 else 0x80, if b = 0xED then 0x9F else 0xBF,
          b.toNat % 16⟩) ∨
      (0xF0 ≤ b.toNat ∧ b.toNat ≤ 0xF4) ∧ startUtf8 b =
        .inr ⟨3, if b = 0xF0 then 0x90 else 0x80, if b = 0xF4 then 0x8F else 0xBF,
          b.toNat % 8⟩ := by
  have hascii : ¬ b < 0x80 := by
    rw [UInt8.lt_iff_toNat_lt]
    exact Nat.not_lt.mpr hb
  have hrange : ∀ l h : UInt8, (l ≤ b && b ≤ h) = true →
      l.toNat ≤ b.toNat ∧ b.toNat ≤ h.toNat := by
    intro l h hin
    rwa [Bool.and_eq_true, decide_eq_true_eq, decide_eq_true_eq, UInt8.le_iff_toNat_le,
      UInt8.le_iff_toNat_le] at hin
  rw [startUtf8, if_neg hascii]
  split
  · exact .inr (.inl ⟨hrange 0xC2 0xDF ‹_›, rfl⟩)
  · split
    · exact .inr (.inr (.inl ⟨hrange 0xE0 0xEF ‹_›, rfl⟩))
    · split
      · exact .inr (.inr (.inr ⟨hrange 0xF0 0xF4 ‹_›, rfl⟩))
      · exact .inl rfl

/-- **The first piece** is a character whose bytes are all there, or is replaced. -/
theorem decodeUtf8_cons_cases (b : UInt8) (bs : List UInt8) :
    (∃ c ys, b :: bs = String.utf8EncodeChar c ++ ys) ∨
      ∃ xs ys, bs = xs ++ ys ∧ Broken b xs ∧
        decodeUtf8 (b :: bs) = replacement :: decodeUtf8 ys := by
  by_cases hascii : b.toNat < 0x80
  · refine .inl ⟨Char.ofNat b.toNat, bs, ?_⟩
    have htoNat : (Char.ofNat b.toNat).toNat = b.toNat :=
      toNat_ofNat_valid (.inl (Nat.lt_trans hascii (by decide)))
    rw [utf8EncodeChar_ascii (decide_eq_true (by rw [htoNat]; exact hascii)), htoNat,
      UInt8.ofNat_toNat]
    rfl
  have hb : 0x80 ≤ b.toNat := Nat.le_of_not_lt hascii
  -- a sequence that breaks off is one piece
  have hbreak : ∀ {p : Pending}, startUtf8 b = .inr p → p.missing ≤ 3 →
      (b = 0xEF → p.missing ≤ 2) → ∀ {xs ys}, bs = xs ++ ys → (∀ x ∈ xs, ¬ Begins x) →
      xs.length < p.missing → decodeFrom (some p) bs = replacement :: decodeFrom none ys →
      ∃ xs ys, bs = xs ++ ys ∧ Broken b xs ∧
        decodeUtf8 (b :: bs) = replacement :: decodeUtf8 ys := by
    intro p hp hthree htwo xs ys hbs hxs hlen heq
    have hshort : b = 0xEF → xs.length < 2 := fun h => hlen.trans_le (htwo h)
    refine ⟨xs, ys, hbs, ⟨hb, hxs, hlen.trans_le hthree, hshort⟩, ?_⟩
    rw [decodeUtf8, decodeFrom_inr hp, heq]
    rfl
  rcases startUtf8_cases hb with hstart | ⟨hrange, hstart⟩ | ⟨hrange, hstart⟩ | ⟨hrange, hstart⟩
  · exact .inr ⟨[], bs, rfl, ⟨hb, by simp, by decide, fun _ => by decide⟩, decodeFrom_inl hstart bs⟩
  · obtain ⟨xs, ys, hbs, hxs, ⟨hlen, heq⟩ | ⟨hlen, -⟩⟩ :=
      decodeFrom_some_split (startUtf8_continues hstart) bs
    · exact .inr (hbreak hstart (by simp) (fun _ => by simp) hbs hxs hlen heq)
    · obtain ⟨x, rfl⟩ := List.length_eq_one_iff.mp hlen
      have hchar := utf8EncodeChar_two hrange.1 hrange.2 (hxs x (by simp))
      exact .inl ⟨_, ys, by rw [hchar, hbs]; rfl⟩
  · obtain ⟨xs, ys, hbs, hxs, ⟨hlen, heq⟩ | ⟨hlen, hhead⟩⟩ :=
      decodeFrom_some_split (startUtf8_continues hstart) bs
    · exact .inr (hbreak hstart (by simp) (fun _ => by simp) hbs hxs hlen heq)
    · obtain ⟨x, y, rfl⟩ := List.length_eq_two.mp hlen
      obtain ⟨hlow, hhigh⟩ := hhead x rfl
      have hlow' : b.toNat = 0xE0 → 0xA0 ≤ x.toNat := by
        intro h
        have hbyte : b = 0xE0 := UInt8.toNat_inj.mp h
        simp only [if_pos hbyte] at hlow
        exact hlow
      have hhigh' : b.toNat = 0xED → x.toNat ≤ 0x9F := by
        intro h
        have hbyte : b = 0xED := UInt8.toNat_inj.mp h
        simp only [if_pos hbyte] at hhigh
        exact hhigh
      have hchar := utf8EncodeChar_three hrange.1 hrange.2 (hxs x (by simp)) (hxs y (by simp))
        hlow' hhigh'
      exact .inl ⟨_, ys, by rw [hchar, hbs]; rfl⟩
  · obtain ⟨xs, ys, hbs, hxs, ⟨hlen, heq⟩ | ⟨hlen, hhead⟩⟩ :=
      decodeFrom_some_split (startUtf8_continues hstart) bs
    · refine .inr (hbreak hstart (by simp) ?_ hbs hxs hlen heq)
      rintro rfl
      exact absurd hrange.1 (by decide)
    · obtain ⟨x, y, z, rfl⟩ := List.length_eq_three.mp hlen
      obtain ⟨hlow, hhigh⟩ := hhead x rfl
      have hlow' : b.toNat = 0xF0 → 0x90 ≤ x.toNat := by
        intro h
        have hbyte : b = 0xF0 := UInt8.toNat_inj.mp h
        simp only [if_pos hbyte] at hlow
        exact hlow
      have hhigh' : b.toNat = 0xF4 → x.toNat ≤ 0x8F := by
        intro h
        have hbyte : b = 0xF4 := UInt8.toNat_inj.mp h
        simp only [if_pos hbyte] at hhigh
        exact hhigh
      have hchar := utf8EncodeChar_four hrange.1 hrange.2 (hxs x (by simp)) (hxs y (by simp))
        (hxs z (by simp)) hlow' hhigh'
      exact .inl ⟨_, ys, by rw [hchar, hbs]; rfl⟩

/-! ### One character among others -/

/-- A character whose bytes are all there is decoded by itself. -/
theorem unquoteFrom_append_char (xs : List UInt8) (c : Char) (ys : List UInt8) (t : Text) :
    unquoteFrom (xs ++ (String.utf8EncodeChar c ++ ys)) t =
      decodeUtf8 xs ++ c :: unquoteFrom ys t := by
  induction t using escapes_induction generalizing ys with
  | nil =>
    simp only [unquoteFrom]
    exact decodeUtf8_append_char xs c ys
  | escape a b t ha hb ih =>
    rw [unquoteFrom_escape ha hb, unquoteFrom_escape ha hb, ← ih, List.append_assoc,
      List.append_assoc]
  | cons d t hno ih =>
    rw [unquoteFrom_cons hno, unquoteFrom_cons hno]
    split
    · rw [← ih, List.append_assoc, List.append_assoc]
    · rw [decodeUtf8_append_char, List.append_assoc, List.cons_append]

theorem unquoteFrom_char {c : Char} {t : Text} (hno : startsEscape (c :: t) = false)
    (acc : List UInt8) :
    unquoteFrom acc (c :: t) = decodeUtf8 acc ++ c :: unquoteFrom [] t := by
  rw [unquoteFrom_cons hno]
  split
  · have hbytes := unquoteFrom_append_char acc c [] t
    rwa [List.append_nil, utf8EncodeChar_ascii ‹_›] at hbytes
  · rfl

theorem unquoteFrom_pctBytes (acc bs : List UInt8) (t : Text) :
    unquoteFrom acc (bs.flatMap pctByte ++ t) = unquoteFrom (acc ++ bs) t := by
  induction bs generalizing acc with
  | nil => rw [List.flatMap_nil, List.nil_append, List.append_nil]
  | cons b bs ih =>
    have hb : b.toNat < 256 := UInt8.toNat_lt b
    have hhigh := pctDigit (d := b.toNat / 16) (by omega)
    have hlow := pctDigit (d := b.toNat % 16) (by omega)
    rw [List.flatMap_cons, pctByte]
    simp only [List.cons_append, List.nil_append]
    rw [unquoteFrom_escape hhigh.1 hlow.1, hhigh.2.1, hlow.2.1,
      show b.toNat / 16 * 16 + b.toNat % 16 = b.toNat by omega, UInt8.ofNat_toNat, ih,
      List.append_assoc, List.singleton_append]

/-- A character, each of its bytes written as an escape. -/
def escape (c : Char) : Text := (String.utf8EncodeChar c).flatMap pctByte

theorem head?_escape_append (c : Char) (t : Text) : (escape c ++ t).head? = some '%' := by
  obtain ⟨b, bs, heq, -⟩ := utf8EncodeChar_begins c
  rw [escape, heq]
  rfl

theorem noHex_escape (c : Char) (t : Text) : NoHex (escape c ++ t) := by
  intro d hd
  rw [head?_escape_append] at hd
  rw [← Option.some.inj hd]
  decide

/-- **An escaped character is decoded apart from what surrounds it.** -/
theorem unquote_append_escape (a : Text) (c : Char) (b : Text) :
    unquote (a ++ (escape c ++ b)) = unquote a ++ c :: unquote b := by
  have hfrom : ∀ acc, unquoteFrom acc (a ++ (escape c ++ b)) =
      unquoteFrom acc a ++ c :: unquoteFrom [] b := by
    intro acc
    induction a using escapes_induction generalizing acc with
    | nil =>
      have hchar := unquoteFrom_append_char acc c [] b
      rw [List.append_nil] at hchar
      rw [List.nil_append, escape, unquoteFrom_pctBytes, hchar, unquoteFrom]
    | escape x y a hx hy ih =>
      rw [List.cons_append, List.cons_append, List.cons_append, unquoteFrom_escape hx hy, ih,
        unquoteFrom_escape hx hy]
    | cons x a hno ih =>
      rw [List.cons_append, unquoteFrom_cons (startsEscape_append (noHex_escape c b) hno),
        unquoteFrom_cons hno, ih, ih]
      split
      · rfl
      · rw [List.append_assoc, List.cons_append]
  rw [unquote_eq, unquote_eq, unquote_eq]
  exact hfrom []

/-- The character between the texts is one of the two digits of an escape. -/
def InEscape (a : Text) (c : Char) (b : Text) : Prop :=
  ['%'] <:+ a ∧ isHexDigit c = true ∧ (∃ d ∈ b.head?, isHexDigit d = true) ∨
    ∃ d, ['%', d] <:+ a ∧ isHexDigit d = true ∧ isHexDigit c = true

theorem InEscape.of_suffix {a a' b : Text} {c : Char} (h : InEscape a c b) (ha : a <:+ a') :
    InEscape a' c b := by
  rcases h with ⟨hend, hc⟩ | ⟨d, hend, hd⟩
  · exact .inl ⟨hend.trans ha, hc⟩
  · exact .inr ⟨d, hend.trans ha, hd⟩

theorem not_inEscape_of_notHex {c : Char} (hc : isHexDigit c = false) (a b : Text) :
    ¬ InEscape a c b := by
  rintro (⟨-, h, -⟩ | ⟨-, -, -, h⟩)
  all_goals
    rw [hc] at h
    exact Bool.false_ne_true h

/-- In front of such a character no escape goes on. -/
theorem startsEscape_append_cons {x c : Char} {a b : Text} (hno : startsEscape (x :: a) = false)
    (hin : ¬ InEscape (x :: a) c b) : startsEscape (x :: (a ++ c :: b)) = false := by
  refine startsEscape_eq_false ?_
  rintro y z t rfl heq hy
  rw [← Bool.not_eq_true]
  intro hz
  rcases a with _ | ⟨y', _ | ⟨z', a⟩⟩
  · obtain ⟨rfl, rfl⟩ := List.cons.inj heq
    exact hin (.inl ⟨List.suffix_refl _, hy, z, rfl, hz⟩)
  · rw [List.cons_append, List.nil_append, List.cons.injEq, List.cons.injEq] at heq
    obtain ⟨rfl, rfl, -⟩ := heq
    exact hin (.inr ⟨y', List.suffix_refl _, hy, hz⟩)
  · rw [List.cons_append, List.cons_append, List.cons.injEq, List.cons.injEq] at heq
    obtain ⟨rfl, rfl, -⟩ := heq
    rw [isHexDigit_of_startsEscape hno hy] at hz
    exact Bool.false_ne_true hz

/-- **A character outside the escapes is decoded apart from what surrounds it.** -/
theorem unquote_append_cons {a b : Text} {c : Char} (hc : startsEscape (c :: b) = false)
    (hin : ¬ InEscape a c b) : unquote (a ++ c :: b) = unquote a ++ c :: unquote b := by
  have hfrom : ∀ acc, unquoteFrom acc (a ++ c :: b) =
      unquoteFrom acc a ++ c :: unquoteFrom [] b := by
    intro acc
    induction a using escapes_induction generalizing acc with
    | nil => rw [List.nil_append, unquoteFrom_char hc, unquoteFrom]
    | escape x y a hx hy ih =>
      have hin' : ¬ InEscape a c b := fun h => hin (h.of_suffix ⟨['%', x, y], rfl⟩)
      rw [List.cons_append, List.cons_append, List.cons_append, unquoteFrom_escape hx hy, ih hin',
        unquoteFrom_escape hx hy]
    | cons x a hno ih =>
      have hin' : ¬ InEscape a c b := fun h => hin (h.of_suffix ⟨[x], rfl⟩)
      rw [List.cons_append, unquoteFrom_cons (startsEscape_append_cons hno hin),
        unquoteFrom_cons hno, ih hin', ih hin']
      split
      · rfl
      · rw [List.append_assoc, List.cons_append]
  rw [unquote_eq, unquote_eq, unquote_eq]
  exact hfrom []

theorem startsEscape_of_ne {c : Char} (hc : c ≠ '%') (b : Text) : startsEscape (c :: b) = false :=
  startsEscape_eq_false fun _ _ _ h => absurd h hc

/-- A character that is part of no escape, whatever surrounds it. -/
theorem unquote_append_plain {c : Char} (hc : c ≠ '%') (hhex : isHexDigit c = false)
    (a b : Text) : unquote (a ++ c :: b) = unquote a ++ c :: unquote b :=
  unquote_append_cons (startsEscape_of_ne hc b) (not_inEscape_of_notHex hhex a b)

theorem unquote_of_notMem {s : Text} (h : '%' ∉ s) : unquote s = s := by
  rw [unquote_eq]
  induction s with
  | nil => rfl
  | cons c s ih =>
    rw [List.mem_cons, not_or] at h
    rw [unquoteFrom_char (startsEscape_of_ne (Ne.symm h.1) s), ih h.2]
    rfl

/-! ### Letter case -/

/-- Two texts that differ in the case of ASCII letters only. -/
def SameLetters (s s' : Text) : Prop := s.map Char.toLower = s'.map Char.toLower

theorem SameLetters.length_eq {s s' : Text} (h : SameLetters s s') : s.length = s'.length := by
  have := congrArg List.length h
  rwa [List.length_map, List.length_map] at this

theorem SameLetters.append {s s' r r' : Text} (h : SameLetters s s') (hr : SameLetters r r') :
    SameLetters (s ++ r) (s' ++ r') := by
  rw [SameLetters, List.map_append, List.map_append, h, hr]

/-- What one letter at a time does not change, all letters together do not change. -/
theorem SameLetters.induction {α : Type*} {f : Text → α}
    (hf : ∀ a c c' b, c.toLower = c'.toLower → f (a ++ c :: b) = f (a ++ c' :: b)) {s s' : Text}
    (h : SameLetters s s') : f s = f s' := by
  suffices hpre : ∀ a, f (a ++ s) = f (a ++ s') from hpre []
  induction s generalizing s' with
  | nil =>
    rw [List.length_eq_zero_iff.mp h.length_eq.symm]
    exact fun _ => rfl
  | cons c s ih =>
    cases s' with
    | nil => exact absurd h.length_eq (by simp)
    | cons c' s' =>
      obtain ⟨hc, hs⟩ := List.cons.inj h
      intro a
      rw [hf a c c' s hc]
      have := ih hs (a ++ [c'])
      rwa [List.append_assoc, List.append_assoc] at this

theorem isHexDigit_congr {c c' : Char} (h : c.toLower = c'.toLower) :
    isHexDigit c = isHexDigit c' := by
  rw [← isHexDigit_toLower, h, isHexDigit_toLower]

theorem hexDigit_congr {c c' : Char} (h : c.toLower = c'.toLower) (hc : isHexDigit c = true) :
    hexDigit c = hexDigit c' := by
  rw [← hexDigit_toLower hc, h, hexDigit_toLower (by rw [← isHexDigit_congr h, hc])]

theorem InEscape.congr {a b : Text} {c c' : Char} (h : c.toLower = c'.toLower)
    (hin : InEscape a c b) : InEscape a c' b := by
  have hhex := isHexDigit_congr h
  rcases hin with ⟨hend, hc, hd⟩ | ⟨d, hend, hd, hc⟩
  · exact .inl ⟨hend, by rw [← hhex, hc], hd⟩
  · exact .inr ⟨d, hend, hd, by rw [← hhex, hc]⟩

/-- A text may be replaced by one that is decoded in the same way. -/
theorem unquoteFrom_append_congr {t t' : Text} (ht : NoHex t) (ht' : NoHex t')
    (h : ∀ acc, unquoteFrom acc t = unquoteFrom acc t') (a : Text) (acc : List UInt8) :
    unquoteFrom acc (a ++ t) = unquoteFrom acc (a ++ t') := by
  induction a using escapes_induction generalizing acc with
  | nil => exact h acc
  | escape x y a hx hy ih =>
    rw [List.cons_append, List.cons_append, List.cons_append, unquoteFrom_escape hx hy, ih,
      ← unquoteFrom_escape hx hy]
    rfl
  | cons x a hno ih =>
    rw [List.cons_append, List.cons_append, unquoteFrom_cons (startsEscape_append ht hno), ih, ih,
      ← unquoteFrom_cons (startsEscape_append ht' hno)]

theorem noHex_percent (s : Text) : NoHex ('%' :: s) := by
  intro c hc
  rw [← Option.some.inj hc]
  decide

/-- The digits of an escape may be written in either case. -/
theorem unquote_inEscape {a b : Text} {c c' : Char} (h : c.toLower = c'.toLower)
    (hin : InEscape a c b) : unquote (a ++ c :: b) = unquote (a ++ c' :: b) := by
  have hdigit := isHexDigit_congr h
  rw [unquote_eq, unquote_eq]
  rcases hin with ⟨⟨a, rfl⟩, hc, d, hd, hhex⟩ | ⟨d, ⟨a, rfl⟩, hhex, hc⟩
  · obtain ⟨b, rfl⟩ := List.head?_eq_some_iff.mp hd
    have hcut : ∀ x, a ++ ['%'] ++ x :: d :: b = a ++ '%' :: x :: d :: b := fun _ => by simp
    rw [hcut, hcut]
    refine unquoteFrom_append_congr (noHex_percent _) (noHex_percent _) (fun acc => ?_) a []
    rw [unquoteFrom_escape hc hhex, unquoteFrom_escape (by rw [← hdigit, hc]) hhex,
      hexDigit_congr h hc]
  · have hcut : ∀ x, a ++ ['%', d] ++ x :: b = a ++ '%' :: d :: x :: b := fun _ => by simp
    rw [hcut, hcut]
    refine unquoteFrom_append_congr (noHex_percent _) (noHex_percent _) (fun acc => ?_) a []
    rw [unquoteFrom_escape hhex hc, unquoteFrom_escape hhex (by rw [← hdigit, hc]),
      hexDigit_congr h hc]

theorem eq_percent_of_toLower {c c' : Char} (h : c.toLower = c'.toLower) (hc : c = '%') :
    c' = '%' := by
  subst hc
  exact toLower_cases (p := fun c d => '%' = d → c = '%') (by decide) (fun _ _ h => h.symm) c' h

/-- **Letter case stays letter case.** -/
theorem unquote_sameLetters {s s' : Text} (h : SameLetters s s') :
    SameLetters (unquote s) (unquote s') := by
  refine SameLetters.induction (f := fun s => (unquote s).map Char.toLower) ?_ h
  intro a c c' b hcc
  by_cases hin : InEscape a c b
  · rw [unquote_inEscape hcc hin]
  · by_cases hc : c = '%'
    · rw [hc, eq_percent_of_toLower hcc hc]
    · have hc' : c' ≠ '%' := fun h => hc (eq_percent_of_toLower hcc.symm h)
      have hin' : ¬ InEscape a c' b := fun h => hin (h.congr hcc.symm)
      rw [unquote_append_cons (startsEscape_of_ne hc b) hin,
        unquote_append_cons (startsEscape_of_ne hc' b) hin', List.map_append, List.map_append,
        List.map_cons, List.map_cons, hcc]

end Percent
