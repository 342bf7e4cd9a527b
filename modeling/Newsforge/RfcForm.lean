/-
The form in which RFC 9309 compares the paths of a robots.txt.

* `rfcForm` — escapes of reserved characters stay escapes;
* `Plain` — texts whose escapes hide no reserved character that a path may have;
* `units_induction` — a text is read in characters, bare or escaped, and in pieces of
  bytes that are none.

Main result: `normalizePath_eq_rfcForm_iff`, the plain texts are those that are compared
in this form.
-/
import Newsforge.PathDecoding
import Newsforge.Robots

open PyText Percent IPAddress

namespace Robots

/-! ### The form -/

/-- The reserved characters of a URL. -/
def isReserved (c : Char) : Bool := ":/?#[]@!$&'()*+,;=".toList.contains c

/-- An escaped byte: unreserved characters are unescaped. -/
def rfcByte (b : UInt8) : Text :=
  if isAlwaysSafe (Char.ofNat b.toNat) then [Char.ofNat b.toNat] else pctByte b

/-- A bare character: what is not allowed in a URL is escaped. -/
def rfcChar (c : Char) : Text :=
  if isAlwaysSafe c || isReserved c || c == '%' then [c] else escape c

/-- The form in which patterns and paths are compared. -/
def rfcForm : Text → Text
  | '%' :: a :: b :: s =>
    if isHexDigit a && isHexDigit b then
      rfcByte (UInt8.ofNat (hexDigit a * 16 + hexDigit b)) ++ rfcForm s
    else '%' :: rfcForm (a :: b :: s)
  | c :: s => rfcChar c ++ rfcForm s
  | [] => []

/-! ### Texts without escapes of reserved characters -/

/-- The escapes of some bytes, their digits in either case. -/
inductive Escapes : List UInt8 → Text → Prop
  | nil : Escapes [] []
  | cons {b : UInt8} {bs : List UInt8} {x y : Char} {s : Text} (hx : isHexDigit x = true)
      (hy : isHexDigit y = true) (hv : hexDigit x * 16 + hexDigit y = b.toNat)
      (h : Escapes bs s) : Escapes (b :: bs) ('%' :: x :: y :: s)

/-- The reserved characters that no path has. -/
def endsPath (c : Char) : Bool := c == '#' || c == '[' || c == ']'

/-- A text of characters that are bare or all escaped: of the reserved ones `#`, `[` and
`]` are escaped and the others bare, and no percent sign is escaped. -/
inductive Plain : Text → Prop
  | nil : Plain []
  | bare {c : Char} {s : Text} (hno : startsEscape (c :: s) = false) (hc : endsPath c = false)
      (h : Plain s) : Plain (c :: s)
  | escaped {c : Char} {e s : Text} (he : Escapes (String.utf8EncodeChar c) e)
      (hc : isReserved c = false ∨ endsPath c = true) (hpercent : c ≠ '%') (h : Plain s) : Plain (e ++ s)

/-! ### The form that is compared -/

theorem rfcForm_escape {a b : Char} (ha : isHexDigit a = true) (hb : isHexDigit b = true)
    (s : Text) :
    rfcForm ('%' :: a :: b :: s) =
      rfcByte (UInt8.ofNat (hexDigit a * 16 + hexDigit b)) ++ rfcForm s := by
  rw [rfcForm.eq_def]
  exact if_pos (by rw [ha, hb]; rfl)

theorem rfcForm_cons {c : Char} {s : Text} (hno : startsEscape (c :: s) = false) :
    rfcForm (c :: s) = rfcChar c ++ rfcForm s := by
  unfold startsEscape at hno
  rw [rfcForm.eq_def]
  split at hno
  · rename_i a b s' heq
    obtain ⟨rfl, rfl⟩ := List.cons.inj heq
    exact if_neg (by rw [hno]; exact Bool.false_ne_true)
  · rename_i hpat
    split
    · rename_i a b s' heq
      exact (hpat a b s' heq).elim
    · rename_i heq
      obtain ⟨rfl, rfl⟩ := List.cons.inj heq
      rfl
    · rename_i heq
      cases heq

theorem rfcForm_append {t : Text} (ht : NoHex t) (s : Text) :
    rfcForm (s ++ t) = rfcForm s ++ rfcForm t := by
  induction s using escapes_induction with
  | nil => rfl
  | escape a b s ha hb ih =>
    rw [List.cons_append, List.cons_append, List.cons_append, rfcForm_escape ha hb, ih,
      rfcForm_escape ha hb, List.append_assoc]
  | cons c s hno ih =>
    rw [List.cons_append, rfcForm_cons (startsEscape_append ht hno), ih, rfcForm_cons hno,
      List.append_assoc]

/-- A bare character is compared apart from what surrounds it. -/
theorem rfcForm_append_cons {a b : Text} {c : Char} (hc : startsEscape (c :: b) = false)
    (hin : ¬ InEscape a c b) : rfcForm (a ++ c :: b) = rfcForm a ++ (rfcChar c ++ rfcForm b) := by
  induction a using escapes_induction with
  | nil => exact rfcForm_cons hc
  | escape x y a hx hy ih =>
    have hin' : ¬ InEscape a c b := fun h => hin (h.of_suffix ⟨['%', x, y], rfl⟩)
    rw [List.cons_append, List.cons_append, List.cons_append, rfcForm_escape hx hy, ih hin',
      rfcForm_escape hx hy, List.append_assoc]
  | cons x a hno ih =>
    have hin' : ¬ InEscape a c b := fun h => hin (h.of_suffix ⟨[x], rfl⟩)
    rw [List.cons_append, rfcForm_cons (startsEscape_append_cons hno hin), ih hin',
      rfcForm_cons hno, List.append_assoc]

theorem Escapes.rfcForm_append {bs : List UInt8} {e : Text} (h : Escapes bs e) (s : Text) :
    rfcForm (e ++ s) = bs.flatMap rfcByte ++ rfcForm s := by
  induction h with
  | nil => rfl
  | @cons b bs x y e hx hy hv h ih =>
    rw [List.cons_append, List.cons_append, List.cons_append, rfcForm_escape hx hy, ih, hv,
      UInt8.ofNat_toNat, List.flatMap_cons, List.append_assoc]

theorem Escapes.unquoteFrom_append {bs : List UInt8} {e : Text} (h : Escapes bs e)
    (acc : List UInt8) (s : Text) : unquoteFrom acc (e ++ s) = unquoteFrom (acc ++ bs) s := by
  induction h generalizing acc with
  | nil => rw [List.nil_append, List.append_nil]
  | @cons b bs x y e hx hy hv h ih =>
    rw [List.cons_append, List.cons_append, List.cons_append, unquoteFrom_escape hx hy, ih, hv,
      UInt8.ofNat_toNat, List.append_assoc, List.singleton_append]

theorem Escapes.unquote_append {c : Char} {e : Text} (h : Escapes (String.utf8EncodeChar c) e)
    (s : Text) : unquote (e ++ s) = c :: unquote s := by
  have hchar := unquoteFrom_append_char [] c [] s
  rw [List.append_nil, List.nil_append] at hchar
  rw [unquote_eq, unquote_eq, h.unquoteFrom_append, List.nil_append, hchar]
  rfl

theorem unquote_cons {c : Char} {s : Text} (hno : startsEscape (c :: s) = false) :
    unquote (c :: s) = c :: unquote s := by
  rw [unquote_eq, unquote_eq, unquoteFrom_char hno]
  rfl

/-- What `quote` makes of a character of a path. -/
def pathChar (c : Char) : Text :=
  if isAlwaysSafe c || "/?=&;:@!$'()*+,~-._%".toList.contains c then [c] else escape c

theorem normalizePath_eq (s : Text) : normalizePath s = (unquote s).flatMap pathChar := rfl

theorem contains_of_not_ascii {l : Text} (hl : isAscii l = true) {c : Char}
    (hc : isAsciiChar c = false) : l.contains c = false := by
  rw [← Bool.not_eq_true, List.contains_iff_mem]
  intro hmem
  rw [List.all_eq_true.mp hl c hmem] at hc
  exact Bool.false_ne_true hc.symm

theorem isAlwaysSafe_of_not_ascii {c : Char} (hc : isAsciiChar c = false) :
    isAlwaysSafe c = false := by
  rw [← Bool.not_eq_true]
  intro hsafe
  rw [isAsciiChar_of_isAlwaysSafe hsafe] at hc
  exact Bool.false_ne_true hc.symm

/-- Reserved characters stay as they are, but for those that no path has. -/
theorem rfcChar_eq {c : Char} (hc : endsPath c = false) : rfcChar c = pathChar c := by
  rw [rfcChar, pathChar]
  cases hascii : isAsciiChar c with
  | true =>
    have hsame : (isAlwaysSafe c || isReserved c || c == '%') =
        (isAlwaysSafe c || "/?=&;:@!$'()*+,~-._%".toList.contains c) :=
      CharTables.forall_ascii (p := fun c => endsPath c = false →
        (isAlwaysSafe c || isReserved c || c == '%') =
          (isAlwaysSafe c || "/?=&;:@!$'()*+,~-._%".toList.contains c)) (by decide +kernel)
        hascii hc
    rw [hsame]
  | false =>
    have hpercent : (c == '%') = false := by
      rw [beq_eq_false_iff_ne]
      rintro rfl
      exact absurd hascii (by decide)
    rw [isAlwaysSafe_of_not_ascii hascii, isReserved,
      contains_of_not_ascii (by decide) hascii,
      contains_of_not_ascii (by decide) hascii, hpercent]
    rfl

theorem rfcByte_high {b : UInt8} (hb : 0x80 ≤ b.toNat) : rfcByte b = pctByte b := by
  have hall : ∀ n < 256, 0x80 ≤ n → isAlwaysSafe (Char.ofNat n) = false := by decide +kernel
  rw [rfcByte, hall b.toNat (UInt8.toNat_lt b) hb, if_neg Bool.false_ne_true]

/-- The bytes of a character outside ASCII. -/
theorem utf8EncodeChar_high {c : Char} (hc : isAsciiChar c = false) :
    ∀ b ∈ String.utf8EncodeChar c, 0x80 ≤ b.toNat := by
  have hlarge : ¬ c.toNat ≤ 0x7f := by
    rw [isAsciiChar, decide_eq_false_iff_not] at hc
    omega
  rw [utf8EncodeChar_eq, if_neg hlarge]
  split
  · simp only [List.mem_cons, List.not_mem_nil, or_false, forall_eq_or_imp, forall_eq]
    simp
    omega
  · split
    · simp only [List.mem_cons, List.not_mem_nil, or_false, forall_eq_or_imp, forall_eq]
      simp
      omega
    · simp only [List.mem_cons, List.not_mem_nil, or_false, forall_eq_or_imp, forall_eq]
      simp
      omega

theorem flatMap_rfcByte {c : Char} (hc : isReserved c = false ∨ endsPath c = true)
    (hpercent : c ≠ '%') :
    (String.utf8EncodeChar c).flatMap rfcByte = pathChar c := by
  cases hascii : isAsciiChar c with
  | true =>
    rw [utf8EncodeChar_ascii hascii]
    exact CharTables.forall_ascii (p := fun c => (isReserved c = false ∨ endsPath c = true) → c ≠ '%' →
      [UInt8.ofNat c.toNat].flatMap rfcByte = pathChar c) (by decide +kernel) hascii hc hpercent
  | false =>
    have hbyte : ∀ b ∈ String.utf8EncodeChar c, rfcByte b = pctByte b :=
      fun b hb => rfcByte_high (utf8EncodeChar_high hascii b hb)
    rw [pathChar, isAlwaysSafe_of_not_ascii hascii,
      contains_of_not_ascii (by decide) hascii, if_neg (by decide), escape,
      List.flatMap_congr hbyte]

/-- **Without escapes of reserved characters** a text is compared as RFC 9309 asks. -/
theorem normalizePath_plain {s : Text} (h : Plain s) : normalizePath s = rfcForm s := by
  rw [normalizePath_eq]
  induction h with
  | nil => rfl
  | bare hno hc h ih =>
    rw [unquote_cons hno, List.flatMap_cons, ih, rfcForm_cons hno, rfcChar_eq hc]
  | escaped he hc hpercent h ih =>
    rw [he.unquote_append, List.flatMap_cons, ih, he.rfcForm_append, flatMap_rfcByte hc hpercent]

theorem escapes_escape (c : Char) : Escapes (String.utf8EncodeChar c) (escape c) := by
  rw [escape]
  generalize String.utf8EncodeChar c = bs
  induction bs with
  | nil => exact .nil
  | cons b bs ih =>
    have hb : b.toNat < 256 := UInt8.toNat_lt b
    have hhigh := pctDigit (d := b.toNat / 16) (by omega)
    have hlow := pctDigit (d := b.toNat % 16) (by omega)
    exact .cons hhigh.1 hlow.1 (by rw [hhigh.2.1, hlow.2.1]; omega) ih

/-! ### Units -/

theorem Escapes.append {bs bs' : List UInt8} {e : Text} (h : Escapes (bs ++ bs') e) :
    ∃ e₁ e₂, e = e₁ ++ e₂ ∧ Escapes bs e₁ ∧ Escapes bs' e₂ := by
  induction bs generalizing e with
  | nil => exact ⟨[], e, rfl, .nil, h⟩
  | cons b bs ih =>
    cases h with
    | @cons _ _ x y s hx hy hv h =>
      obtain ⟨e₁, e₂, rfl, h₁, h₂⟩ := ih h
      exact ⟨'%' :: x :: y :: e₁, e₂, rfl, .cons hx hy hv h₁, h₂⟩

theorem Escapes.length {bs : List UInt8} {e : Text} (h : Escapes bs e) :
    e.length = 3 * bs.length := by
  induction h with
  | nil => rfl
  | cons hx hy hv h ih =>
    rw [List.length_cons, List.length_cons, List.length_cons, ih, List.length_cons]
    omega

theorem hexDigit_lt {c : Char} (h : isHexDigit c = true) : hexDigit c < 16 :=
  CharTables.forall_ascii (p := fun c => isHexDigit c = true → hexDigit c < 16) (by decide)
    (isAsciiChar_of_isHexDigit h) h

/-- The escapes at the head of a text. -/
theorem exists_escapes (s : Text) :
    ∃ bs e t, s = e ++ t ∧ Escapes bs e ∧ startsEscape t = false := by
  induction s using escapes_induction with
  | nil => exact ⟨[], [], [], rfl, .nil, rfl⟩
  | escape a b s ha hb ih =>
    obtain ⟨bs, e, t, rfl, he, ht⟩ := ih
    have hlt : hexDigit a * 16 + hexDigit b < 256 := by
      have := hexDigit_lt ha
      have := hexDigit_lt hb
      omega
    refine ⟨UInt8.ofNat (hexDigit a * 16 + hexDigit b) :: bs, '%' :: a :: b :: e, t, rfl, ?_, ht⟩
    exact .cons ha hb (UInt8.toNat_ofNat_of_lt' hlt).symm he
  | cons c s hno ih => exact ⟨[], [], c :: s, rfl, .nil, hno⟩

theorem unquoteFrom_of_startsEscape {t : Text} (ht : startsEscape t = false)
    (acc : List UInt8) : unquoteFrom acc t = decodeUtf8 acc ++ unquote t := by
  rw [unquote_eq]
  cases t with
  | nil => exact (List.append_nil _).symm
  | cons c t =>
    rw [unquoteFrom_char ht, unquoteFrom_char ht]
    rfl

/-- **A text is read unit by unit**: a bare character, the escapes of a character, or the
escapes of bytes that are replaced together. -/
theorem units_induction {motive : Text → Prop} (nil : motive [])
    (bare : ∀ c s, startsEscape (c :: s) = false → motive s → motive (c :: s))
    (char : ∀ c e s, Escapes (String.utf8EncodeChar c) e → motive s → motive (e ++ s))
    (piece : ∀ b xs e s, Escapes (b :: xs) e → Broken b xs →
      unquote (e ++ s) = replacement :: unquote s → motive s → motive (e ++ s)) (s : Text) :
    motive s := by
  induction hn : s.length using Nat.strong_induction_on generalizing s with
  | _ n ih =>
    obtain ⟨bs, e, t, rfl, he, ht⟩ := exists_escapes s
    cases bs with
    | nil =>
      cases he
      cases t with
      | nil => exact nil
      | cons c t => exact bare c t ht (ih t.length (by rw [← hn]; simp) t rfl)
    | cons b bs =>
      have hrest : ∀ {x : UInt8} {xs ys : List UInt8} {e₁ e₂ : Text}, e = e₁ ++ e₂ →
          Escapes (x :: xs) e₁ → Escapes ys e₂ → motive (e₂ ++ t) := by
        rintro x xs ys e₁ e₂ rfl h₁ -
        have hlen := h₁.length
        rw [List.length_cons] at hlen
        refine ih (e₂ ++ t).length ?_ (e₂ ++ t) rfl
        rw [← hn]
        simp only [List.length_append]
        omega
      rcases decodeUtf8_cons_cases b bs with ⟨c, ys, heq⟩ | ⟨xs, ys, rfl, hbroken, hdecode⟩
      · rw [heq] at he
        obtain ⟨e₁, e₂, rfl, h₁, h₂⟩ := he.append
        obtain ⟨x, xs, hc, -⟩ := utf8EncodeChar_begins c
        rw [List.append_assoc]
        exact char c e₁ _ h₁ (hrest rfl (hc ▸ h₁) h₂)
      · have heq : b :: (xs ++ ys) = (b :: xs) ++ ys := rfl
        have hall := he
        rw [heq] at he
        obtain ⟨e₁, e₂, rfl, h₁, h₂⟩ := he.append
        rw [List.append_assoc]
        refine piece b xs e₁ _ h₁ hbroken ?_ (hrest rfl h₁ h₂)
        have hwhole := hall.unquoteFrom_append [] t
        have hpart := h₂.unquoteFrom_append [] t
        rw [List.nil_append, unquoteFrom_of_startsEscape ht] at hwhole hpart
        rw [unquote_eq, ← List.append_assoc, hwhole, hdecode, unquote_eq (e₂ ++ t), hpart]
        rfl

/-! ### Where the two forms differ -/

theorem normalizePath_bare {c : Char} {s : Text} (hno : startsEscape (c :: s) = false) :
    normalizePath (c :: s) = pathChar c ++ normalizePath s := by
  rw [normalizePath_eq, unquote_cons hno, List.flatMap_cons, normalizePath_eq]

theorem normalizePath_char {c : Char} {e : Text} (he : Escapes (String.utf8EncodeChar c) e)
    (s : Text) : normalizePath (e ++ s) = pathChar c ++ normalizePath s := by
  rw [normalizePath_eq, he.unquote_append, List.flatMap_cons, normalizePath_eq]

theorem normalizePath_piece {e s : Text} (h : unquote (e ++ s) = replacement :: unquote s) :
    normalizePath (e ++ s) = "%EF%BF%BD".toList ++ normalizePath s := by
  rw [normalizePath_eq, h, List.flatMap_cons, normalizePath_eq,
    show pathChar replacement = "%EF%BF%BD".toList by decide]

theorem rfcForm_piece {b : UInt8} {xs : List UInt8} {e : Text} (he : Escapes (b :: xs) e)
    (hb : Broken b xs) (s : Text) :
    rfcForm (e ++ s) = (b :: xs).flatMap pctByte ++ rfcForm s := by
  have hhigh : ∀ x ∈ b :: xs, rfcByte x = pctByte x := by
    intro x hx
    rcases List.mem_cons.mp hx with rfl | hx
    · exact rfcByte_high hb.head
    · exact rfcByte_high (not_begins.mp (hb.tail x hx)).1
  rw [he.rfcForm_append, List.flatMap_congr hhigh]

/-- A bare character that is compared in another form. -/
theorem pathChar_of_endsPath {c : Char} (hc : endsPath c = true) :
    rfcChar c = [c] ∧ pathChar c = pctByte (UInt8.ofNat c.toNat) := by
  rw [endsPath, Bool.or_eq_true, Bool.or_eq_true, beq_iff_eq, beq_iff_eq, beq_iff_eq] at hc
  rcases hc with (rfl | rfl) | rfl <;> decide

/-- An escaped character that is compared in another form. -/
theorem pathChar_of_escaped {c : Char}
    (hc : ¬ ((isReserved c = false ∨ endsPath c = true) ∧ c ≠ '%')) :
    isAsciiChar c = true ∧ pathChar c = [c] ∧
      (String.utf8EncodeChar c).flatMap rfcByte = pctByte (UInt8.ofNat c.toNat) := by
  have hascii : isAsciiChar c = true := by
    by_contra hother
    rw [Bool.not_eq_true] at hother
    refine hc ⟨.inl (contains_of_not_ascii (by decide) hother), ?_⟩
    rintro rfl
    exact absurd hother (by decide)
  have hforms := CharTables.forall_ascii
    (p := fun c => ¬ ((isReserved c = false ∨ endsPath c = true) ∧ c ≠ '%') →
      pathChar c = [c] ∧ rfcByte (UInt8.ofNat c.toNat) = pctByte (UInt8.ofNat c.toNat))
    (by decide) hascii hc
  refine ⟨hascii, hforms.1, ?_⟩
  rw [utf8EncodeChar_ascii hascii, List.flatMap_singleton, hforms.2]

/-- What stands in front of a text that begins anew goes round. -/
theorem rotate_append {α : Type*} {w x r n : List α} (hw : w ≠ [])
    (h : x ++ r = w ++ (x ++ n)) :
    ∃ w', w'.length = w.length ∧ (∀ c ∈ w', c ∈ w) ∧ r = w' ++ n := by
  induction x generalizing w with
  | nil => exact ⟨w, rfl, fun _ hc => hc, h⟩
  | cons c x ih =>
    obtain ⟨d, w, rfl⟩ := List.exists_cons_of_ne_nil hw
    obtain ⟨rfl, htail⟩ := List.cons.inj h
    obtain ⟨w', hlen, hmem, hr⟩ := ih (w := w ++ [c]) (by simp) (by simpa using htail)
    refine ⟨w', by simp [hlen], fun d hd => ?_, hr⟩
    simpa [or_comm] using hmem d hd

/-- The digits of a percent sign bring nothing back into step. -/
theorem normalizePath_ne_append (s : Text) {w : Text} (hw : w ≠ [])
    (hdigits : ∀ c ∈ w, c = '2' ∨ c = '5') : normalizePath s ≠ w ++ rfcForm s := by
  have hhead : ∀ {c : Char} {x y : Text}, ∀ w : Text, w ≠ [] → (∀ d ∈ w, d = '2' ∨ d = '5') →
      c :: x = w ++ y → c = '2' ∨ c = '5' := by
    intro c x y w hw hdigits heq
    obtain ⟨d, w, rfl⟩ := List.exists_cons_of_ne_nil hw
    obtain ⟨rfl, -⟩ := List.cons.inj heq
    exact hdigits _ List.mem_cons_self
  have hpercent : ¬ ('%' = '2' ∨ '%' = '5') := by decide
  induction s using units_induction generalizing w with
  | nil =>
    intro h
    exact hw (List.append_eq_nil_iff.mp h.symm).1
  | bare c s hno ih =>
    intro h
    rw [normalizePath_bare hno, rfcForm_cons hno] at h
    cases hc : endsPath c with
    | true =>
      rw [(pathChar_of_endsPath hc).2] at h
      exact hpercent (hhead w hw hdigits h)
    | false =>
      rw [rfcChar_eq hc] at h
      obtain ⟨w', hlen, hmem, heq⟩ := rotate_append hw h
      exact ih (by rwa [← List.length_pos_iff, hlen, List.length_pos_iff])
        (fun c hc => hdigits c (hmem c hc)) heq
  | char c e s he ih =>
    intro h
    rw [normalizePath_char he, he.rfcForm_append] at h
    by_cases hc : (isReserved c = false ∨ endsPath c = true) ∧ c ≠ '%'
    · rw [flatMap_rfcByte hc.1 hc.2] at h
      obtain ⟨w', hlen, hmem, heq⟩ := rotate_append hw h
      exact ih (by rwa [← List.length_pos_iff, hlen, List.length_pos_iff])
        (fun c hc => hdigits c (hmem c hc)) heq
    · rw [(pathChar_of_escaped hc).2.1] at h
      rcases hhead w hw hdigits h with rfl | rfl <;> exact hc (by decide)
  | piece b xs e s he hb hunquote ih =>
    intro h
    rw [normalizePath_piece hunquote] at h
    exact hpercent (hhead w hw hdigits h)

/-- A percent sign inside escapes begins the escape of one of the bytes. -/
theorem suffix_flatMap_pctByte {xs : List UInt8} {t : Text}
    (h : '%' :: t <:+ xs.flatMap pctByte) :
    ∃ x ∈ xs, ∃ r, t = (x.toNat / 16).digitChar.toUpper :: r := by
  have hdigit : ∀ d < 16, d.digitChar.toUpper ≠ '%' := by decide
  induction xs with
  | nil => exact absurd (List.suffix_nil.mp h) (List.cons_ne_nil _ _)
  | cons x xs ih =>
    have hx : x.toNat < 256 := UInt8.toNat_lt x
    have hcons : (x :: xs).flatMap pctByte = '%' :: (x.toNat / 16).digitChar.toUpper ::
        (x.toNat % 16).digitChar.toUpper :: xs.flatMap pctByte := rfl
    rw [hcons, List.suffix_cons_iff, List.suffix_cons_iff, List.suffix_cons_iff] at h
    rcases h with h | h | h | h
    · exact ⟨x, List.mem_cons_self, _, (List.cons.inj h).2⟩
    · exact absurd (List.cons.inj h).1.symm (hdigit _ (by omega))
    · exact absurd (List.cons.inj h).1.symm (hdigit _ (by omega))
    · obtain ⟨y, hy, r, ht⟩ := ih h
      exact ⟨y, List.mem_cons_of_mem x hy, r, ht⟩

/-- Nor does a part of the escapes of U+FFFD. -/
theorem rfcForm_ne_append (s : Text) {w : Text} (hlong : 3 ≤ w.length)
    (hw : ∀ c ∈ w, c ∈ "%EF%BF%BD".toList) : rfcForm s ≠ w ++ normalizePath s := by
  have hne : ∀ {w : Text}, 3 ≤ w.length → w ≠ [] := by
    rintro w hlen rfl
    exact absurd hlen (by decide)
  induction s using units_induction generalizing w with
  | nil =>
    intro h
    exact hne hlong (List.append_eq_nil_iff.mp h.symm).1
  | bare c s hno ih =>
    intro h
    rw [normalizePath_bare hno, rfcForm_cons hno] at h
    cases hc : endsPath c with
    | true =>
      rw [(pathChar_of_endsPath hc).1] at h
      obtain ⟨d, w, rfl⟩ := List.exists_cons_of_ne_nil (hne hlong)
      obtain ⟨rfl, -⟩ := List.cons.inj h
      have hin := hw c List.mem_cons_self
      rw [endsPath, Bool.or_eq_true, Bool.or_eq_true, beq_iff_eq, beq_iff_eq, beq_iff_eq] at hc
      rcases hc with (rfl | rfl) | rfl <;> exact absurd hin (by decide)
    | false =>
      rw [rfcChar_eq hc] at h
      obtain ⟨w', hlen, hmem, heq⟩ := rotate_append (hne hlong) h
      exact ih (by rwa [hlen]) (fun c hc => hw c (hmem c hc)) heq
  | char c e s he ih =>
    intro h
    rw [normalizePath_char he, he.rfcForm_append] at h
    by_cases hc : (isReserved c = false ∨ endsPath c = true) ∧ c ≠ '%'
    · rw [flatMap_rfcByte hc.1 hc.2] at h
      obtain ⟨w', hlen, hmem, heq⟩ := rotate_append (hne hlong) h
      exact ih (by rwa [hlen]) (fun c hc => hw c (hmem c hc)) heq
    · -- the second character is the first digit of the escape
      obtain ⟨hascii, -, hbytes⟩ := pathChar_of_escaped hc
      rw [hbytes] at h
      obtain ⟨a, b, w, rfl⟩ : ∃ a b w', w = a :: b :: w' := by
        match w, hlong with
        | a :: b :: w, _ => exact ⟨a, b, w, rfl⟩
      obtain ⟨-, htail⟩ := List.cons.inj h
      obtain ⟨rfl, -⟩ := List.cons.inj htail
      have hin := hw _ (List.mem_cons_of_mem a List.mem_cons_self)
      exact CharTables.forall_ascii
        (p := fun c => ¬ ((isReserved c = false ∨ endsPath c = true) ∧ c ≠ '%') →
          ((UInt8.ofNat c.toNat).toNat / 16).digitChar.toUpper ∉ "%EF%BF%BD".toList)
        (by decide +kernel) hascii hc hin
  | piece b xs e s he hb hunquote ih =>
    intro h
    rw [normalizePath_piece hunquote, rfcForm_piece he hb] at h
    have hmark : ∀ w : Text, (∀ c ∈ w, c ∈ "%EF%BF%BD".toList) →
        rfcForm s ≠ w ++ ("%EF%BF%BD".toList ++ normalizePath s) := by
      intro w hw heq
      rw [← List.append_assoc] at heq
      refine ih ?_ ?_ heq
      · rw [List.length_append]
        exact Nat.le_add_left_of_le (by decide)
      · intro c hc
        rcases List.mem_append.mp hc with hc | hc
        · exact hw c hc
        · exact hc
    rcases List.append_eq_append_iff.mp h with ⟨a, rfl, heq⟩ | ⟨a, hbytes, heq⟩
    · exact hmark a (fun c hc => hw c (List.mem_append_right _ hc)) heq
    · -- U+FFFD would begin inside the piece, with a byte that goes on with it
      rcases a with _ | ⟨c, a⟩
      · exact hmark [] (by simp) heq.symm
      · obtain ⟨rfl, htail⟩ := List.cons.inj heq
        obtain ⟨w₁, w₂, w₃, w, rfl⟩ : ∃ w₁ w₂ w₃ w', w = w₁ :: w₂ :: w₃ :: w' := by
          match w, hlong with
          | w₁ :: w₂ :: w₃ :: w, _ => exact ⟨w₁, w₂, w₃, w, rfl⟩
        have hsuffix : xs.flatMap pctByte = w ++ '%' :: a :=
          (List.cons.inj (List.cons.inj (List.cons.inj hbytes).2).2).2
        obtain ⟨x, hx, r, rfl⟩ := suffix_flatMap_pctByte ⟨w, hsuffix.symm⟩
        have hrange := not_begins.mp (hb.tail x hx)
        have hdigit : ∀ d < 12, 8 ≤ d → 'E' ≠ d.digitChar.toUpper := by decide
        exact hdigit (x.toNat / 16) (by omega) (by omega) (List.cons.inj htail).1

theorem length_flatMap_pctByte (bs : List UInt8) :
    (bs.flatMap pctByte).length = 3 * bs.length := by
  induction bs with
  | nil => rfl
  | cons b bs ih =>
    rw [List.flatMap_cons, List.length_append, ih, List.length_cons]
    have hthree : (pctByte b).length = 3 := rfl
    omega

/-- The bytes of a piece are not those of U+FFFD. -/
theorem rfcForm_ne_piece {b : UInt8} {xs : List UInt8} (hb : Broken b xs) (s : Text) :
    "%EF%BF%BD".toList ++ normalizePath s ≠ (b :: xs).flatMap pctByte ++ rfcForm s := by
  intro h
  have hnine : "%EF%BF%BD".toList.length = 9 := by decide
  have hlen := length_flatMap_pctByte (b :: xs)
  have hthree := hb.length
  rw [List.length_cons] at hlen
  by_cases hlong : xs.length < 2
  · -- the rest of U+FFFD goes on in front of the rest of the text
    rcases List.append_eq_append_iff.mp h with ⟨a, hbytes, -⟩ | ⟨a, hmark, heq⟩
    · have := congrArg List.length hbytes
      rw [List.length_append] at this
      omega
    · refine rfcForm_ne_append s ?_ (fun c hc => ?_) heq
      · have := congrArg List.length hmark
        rw [List.length_append] at this
        omega
      · rw [hmark]
        exact List.mem_append_right _ hc
  · have hfirst : pctByte b = "%EF".toList := by
      have htake := congrArg (List.take 3) h
      exact htake.symm
    have hall : ∀ n < 256, pctByte (UInt8.ofNat n) = "%EF".toList → n = 0xEF := by decide +kernel
    have hbyte : b = 0xEF := by
      refine UInt8.toNat_inj.mp (hall b.toNat (UInt8.toNat_lt b) ?_)
      rw [UInt8.ofNat_toNat, hfirst]
    exact hlong (hb.short hbyte)

/-- **The plain texts** are those that are compared as RFC 9309 asks. -/
theorem normalizePath_eq_rfcForm_iff (s : Text) : normalizePath s = rfcForm s ↔ Plain s := by
  refine ⟨fun h => ?_, normalizePath_plain⟩
  induction s using units_induction with
  | nil => exact .nil
  | bare c s hno ih =>
    rw [normalizePath_bare hno, rfcForm_cons hno] at h
    cases hc : endsPath c with
    | true =>
      rw [(pathChar_of_endsPath hc).1, (pathChar_of_endsPath hc).2] at h
      obtain ⟨rfl, -⟩ := List.cons.inj h
      exact absurd hc (by decide)
    | false =>
      rw [rfcChar_eq hc] at h
      exact .bare hno hc (ih (List.append_cancel_left h))
  | char c e s he ih =>
    rw [normalizePath_char he, he.rfcForm_append] at h
    by_cases hc : (isReserved c = false ∨ endsPath c = true) ∧ c ≠ '%'
    · rw [flatMap_rfcByte hc.1 hc.2] at h
      exact .escaped he hc.1 hc.2 (ih (List.append_cancel_left h))
    · rw [(pathChar_of_escaped hc).2.1, (pathChar_of_escaped hc).2.2] at h
      obtain ⟨rfl, htail⟩ := List.cons.inj h
      exact absurd htail (normalizePath_ne_append s (w := "25".toList) (by decide) (by simp))
  | piece b xs e s he hb hunquote ih =>
    rw [normalizePath_piece hunquote, rfcForm_piece he hb] at h
    exact absurd h (rfcForm_ne_piece hb s)

end Robots
