/-
Percent-escapes of unreserved characters.

* `Respelled` — some unreserved characters outside the escapes of a text are
  written as escapes;
* `unquoteFrom` — `unquote` in one pass, with the bytes of the open ASCII run;
* `spare` — how many characters of a text can be escaped.

Main results: `Respelled.unquote`, `Respelled.exists_length`.
-/
import Mathlib.Data.List.SplitBy
import Newsforge.Percent

namespace Percent

open PyText IPAddress

/-! ### The relation -/

/-- A text that begins with an escape. -/
def startsEscape : Text → Bool
  | '%' :: a :: b :: _ => isHexDigit a && isHexDigit b
  | _ => false

/-- An escape of a character. -/
structure EscapeOf (c a b : Char) : Prop where
  high : isHexDigit a = true
  low : isHexDigit b = true
  value : hexDigit a * 16 + hexDigit b = c.toNat

/-- Some unreserved characters of a text, outside its escapes, are written as
escapes. -/
inductive Respelled : Text → Text → Prop
  | nil : Respelled [] []
  | escape {a b : Char} {s s' : Text} (ha : isHexDigit a = true) (hb : isHexDigit b = true)
      (h : Respelled s s') : Respelled ('%' :: a :: b :: s) ('%' :: a :: b :: s')
  | keep {c : Char} {s s' : Text} (hno : startsEscape (c :: s) = false) (h : Respelled s s') :
      Respelled (c :: s) (c :: s')
  | encode {c a b : Char} {s s' : Text} (hc : isAlwaysSafe c = true) (he : EscapeOf c a b)
      (h : Respelled s s') : Respelled (c :: s) ('%' :: a :: b :: s')

/-- A text is empty, or begins with an escape or with one character that stands for
itself. -/
@[elab_as_elim]
theorem escapes_induction {motive : Text → Prop} (nil : motive [])
    (escape : ∀ (a b : Char) (s : Text), isHexDigit a = true → isHexDigit b = true → motive s →
      motive ('%' :: a :: b :: s))
    (cons : ∀ (c : Char) (s : Text), startsEscape (c :: s) = false → motive s → motive (c :: s))
    (s : Text) : motive s := by
  induction s using unquoteToBytes.induct with
  | case1 a b s hab ih =>
    rw [Bool.and_eq_true] at hab
    exact escape a b s hab.1 hab.2 ih
  | case2 a b s hab ih => exact cons _ _ (by simpa [startsEscape] using hab) ih
  | case3 c s hno ih =>
    refine cons c s ?_ ih
    unfold startsEscape
    split
    · rename_i a b s' heq
      rw [List.cons.injEq] at heq
      exact (hno _ _ _ heq.1 heq.2).elim
    · rfl
  | case4 => exact nil

theorem Respelled.refl (s : Text) : Respelled s s := by
  induction s using escapes_induction with
  | nil => exact .nil
  | escape a b s ha hb ih => exact .escape ha hb ih
  | cons c s hno ih => exact .keep hno ih

/-! ### unquote -/

theorem unquoteToBytes_escape {a b : Char} (ha : isHexDigit a = true) (hb : isHexDigit b = true)
    (s : Text) :
    unquoteToBytes ('%' :: a :: b :: s) =
      UInt8.ofNat (hexDigit a * 16 + hexDigit b) :: unquoteToBytes s := by
  rw [unquoteToBytes, if_pos (by rw [ha, hb]; rfl)]

theorem unquoteToBytes_cons {c : Char} {s : Text} (hno : startsEscape (c :: s) = false) :
    unquoteToBytes (c :: s) = UInt8.ofNat c.toNat :: unquoteToBytes s := by
  unfold startsEscape at hno
  split at hno
  · rename_i a b s' heq
    obtain ⟨rfl, rfl⟩ := List.cons.inj heq
    rw [unquoteToBytes, if_neg (by rw [hno]; exact Bool.false_ne_true)]
    rfl
  · rename_i hpat
    rw [unquoteToBytes]
    intro a b s' hc hs
    exact hpat a b s' (by rw [hc, hs])

/-- `unquote`, with the bytes of the ASCII run that is open. -/
def unquoteFrom : List UInt8 → Text → Text
  | acc, '%' :: a :: b :: s =>
    if isHexDigit a && isHexDigit b then
      unquoteFrom (acc ++ [UInt8.ofNat (hexDigit a * 16 + hexDigit b)]) s
    else unquoteFrom (acc ++ [0x25]) (a :: b :: s)
  | acc, c :: s =>
    if isAsciiChar c then unquoteFrom (acc ++ [UInt8.ofNat c.toNat]) s
    else decodeUtf8 acc ++ c :: unquoteFrom [] s
  | acc, [] => decodeUtf8 acc

theorem unquoteFrom_escape {a b : Char} (ha : isHexDigit a = true) (hb : isHexDigit b = true)
    (acc : List UInt8) (s : Text) :
    unquoteFrom acc ('%' :: a :: b :: s) =
      unquoteFrom (acc ++ [UInt8.ofNat (hexDigit a * 16 + hexDigit b)]) s := by
  rw [unquoteFrom, if_pos (by rw [ha, hb]; rfl)]

theorem unquoteFrom_cons {c : Char} {s : Text} (hno : startsEscape (c :: s) = false)
    (acc : List UInt8) :
    unquoteFrom acc (c :: s) =
      if isAsciiChar c then unquoteFrom (acc ++ [UInt8.ofNat c.toNat]) s
      else decodeUtf8 acc ++ c :: unquoteFrom [] s := by
  unfold startsEscape at hno
  split at hno
  · rename_i a b s' heq
    obtain ⟨rfl, rfl⟩ := List.cons.inj heq
    rw [unquoteFrom, if_neg (by rw [hno]; exact Bool.false_ne_true), if_pos (by decide)]
    rfl
  · rename_i hpat
    rw [unquoteFrom]
    intro a b s' hc hs
    exact hpat a b s' (by rw [hc, hs])

theorem toNat_of_isHexDigit {c : Char} (h : isHexDigit c = true) :
    48 ≤ c.toNat ∧ c.toNat ≤ 57 ∨ 65 ≤ c.toNat ∧ c.toNat ≤ 70 ∨ 97 ≤ c.toNat ∧ c.toNat ≤ 102 := by
  simp only [isHexDigit, Char.isDigit, Bool.or_eq_true, Bool.and_eq_true, decide_eq_true_eq] at h
  rcases h with (⟨hlow, hhigh⟩ | ⟨hlow, hhigh⟩) | ⟨hlow, hhigh⟩
  · exact .inl ⟨UInt32.le_iff_toNat_le.mp hlow, UInt32.le_iff_toNat_le.mp hhigh⟩
  · exact .inr (.inr ⟨UInt32.le_iff_toNat_le.mp hlow, UInt32.le_iff_toNat_le.mp hhigh⟩)
  · exact .inr (.inl ⟨UInt32.le_iff_toNat_le.mp hlow, UInt32.le_iff_toNat_le.mp hhigh⟩)

theorem isAsciiChar_of_isHexDigit {c : Char} (h : isHexDigit c = true) : isAsciiChar c = true := by
  have hrange := toNat_of_isHexDigit h
  rw [isAsciiChar, decide_eq_true_eq]
  omega

theorem isSpace_of_isHexDigit {c : Char} (h : isHexDigit c = true) : isSpace c = false := by
  have hrange := toNat_of_isHexDigit h
  simp only [isSpace, Bool.or_eq_false_iff, Bool.and_eq_false_imp, decide_eq_true_eq,
    decide_eq_false_iff_not, beq_eq_false_iff_ne]
  omega

theorem isLineBreak_of_isHexDigit {c : Char} (h : isHexDigit c = true) :
    isLineBreak c = false := by
  have hrange := toNat_of_isHexDigit h
  simp only [isLineBreak, Bool.or_eq_false_iff, Bool.and_eq_false_imp, decide_eq_true_eq,
    decide_eq_false_iff_not, beq_eq_false_iff_ne]
  omega

/-- Where a text begins with an escape. -/
theorem startsEscape_eq_false {c : Char} {s : Text}
    (h : ∀ a b t, c = '%' → s = a :: b :: t → isHexDigit a = true → isHexDigit b = false) :
    startsEscape (c :: s) = false := by
  unfold startsEscape
  split
  · rename_i a b t heq
    obtain ⟨rfl, rfl⟩ := List.cons.inj heq
    rw [Bool.and_eq_false_imp]
    exact h a b t rfl rfl
  · rfl

theorem isHexDigit_of_startsEscape {a b : Char} {t : Text}
    (h : startsEscape ('%' :: a :: b :: t) = false) (ha : isHexDigit a = true) :
    isHexDigit b = false := by
  rw [startsEscape, ha, Bool.true_and] at h
  exact h

/-- No escape goes on in the text. -/
def NoHex (t : Text) : Prop := ∀ c ∈ t.head?, isHexDigit c = false

theorem startsEscape_append {s t : Text} {c : Char} (ht : NoHex t)
    (h : startsEscape (c :: s) = false) : startsEscape (c :: (s ++ t)) = false := by
  refine startsEscape_eq_false ?_
  rintro a b r rfl hr ha
  rcases s with _ | ⟨x, _ | ⟨y, s⟩⟩
  · subst hr
    exact absurd ha (by rw [ht a rfl]; exact Bool.false_ne_true)
  · rw [List.singleton_append, List.cons.injEq] at hr
    obtain ⟨rfl, rfl⟩ := hr
    exact ht b rfl
  · rw [List.cons_append, List.cons_append, List.cons.injEq, List.cons.injEq] at hr
    obtain ⟨rfl, rfl, -⟩ := hr
    exact isHexDigit_of_startsEscape h ha

/-- The text is empty or begins outside ASCII. -/
def EndsRun (t : Text) : Prop := ∀ c ∈ t.head?, isAsciiChar c = false

theorem EndsRun.noHex {t : Text} (h : EndsRun t) : NoHex t := by
  intro c hc
  rw [← Bool.not_eq_true]
  intro hhex
  exact absurd (isAsciiChar_of_isHexDigit hhex) (by rw [h c hc]; exact Bool.false_ne_true)

/-- The bytes of an ASCII run. -/
theorem unquoteFrom_run {r t : Text} (hr : ∀ c ∈ r, isAsciiChar c = true) (ht : EndsRun t)
    (acc : List UInt8) : unquoteFrom acc (r ++ t) = unquoteFrom (acc ++ unquoteToBytes r) t := by
  induction r using escapes_induction generalizing acc with
  | nil => simp [unquoteToBytes]
  | escape a b s ha hb ih =>
    have hs : ∀ c ∈ s, isAsciiChar c = true := fun c hc => hr c (by simp [hc])
    rw [List.cons_append, List.cons_append, List.cons_append, unquoteFrom_escape ha hb, ih hs,
      unquoteToBytes_escape ha hb, List.append_assoc, List.singleton_append]
  | cons c s hno ih =>
    obtain ⟨hc, hs⟩ := List.forall_mem_cons.mp hr
    rw [List.cons_append, unquoteFrom_cons (startsEscape_append ht.noHex hno), if_pos hc, ih hs,
      unquoteToBytes_cons hno, List.append_assoc, List.singleton_append]

/-- Outside ASCII the open run ends. -/
theorem unquoteFrom_endsRun {t : Text} (ht : EndsRun t) (acc : List UInt8) :
    unquoteFrom acc t = decodeUtf8 acc ++ unquoteFrom [] t := by
  cases t with
  | nil => exact (List.append_nil _).symm
  | cons c t =>
    have hc : isAsciiChar c = false := ht c rfl
    have hno : startsEscape (c :: t) = false := by
      refine startsEscape_eq_false ?_
      rintro a b r rfl
      exact absurd hc (by decide)
    rw [unquoteFrom_cons hno, unquoteFrom_cons hno, hc]
    rfl

theorem unquoteFrom_other {r : Text} (hr : ∀ c ∈ r, isAsciiChar c = false) (t : Text) :
    unquoteFrom [] (r ++ t) = r ++ unquoteFrom [] t := by
  induction r with
  | nil => rfl
  | cons c r ih =>
    obtain ⟨hc, hr⟩ := List.forall_mem_cons.mp hr
    have hno : startsEscape (c :: (r ++ t)) = false := by
      refine startsEscape_eq_false ?_
      rintro a b r rfl
      exact absurd hc (by decide)
    rw [List.cons_append, unquoteFrom_cons hno, hc, if_neg Bool.false_ne_true, ih hr]
    rfl

/-- The runs of a text are of one kind each. -/
theorem run_eq {c : Char} {r : Text}
    (h : (c :: r).IsChain fun a b => (isAsciiChar a == isAsciiChar b) = true) :
    ∀ x ∈ c :: r, isAsciiChar x = isAsciiChar c := by
  induction r generalizing c with
  | nil => simp
  | cons d r ih =>
    obtain ⟨hcd, hr⟩ := List.isChain_cons_cons.mp h
    rw [beq_iff_eq] at hcd
    intro x hx
    rcases List.mem_cons.mp hx with rfl | hx
    · rfl
    · rw [ih hr x hx, hcd]

/-- The runs of a text, one behind the other. -/
theorem flatMap_runs (runs : List Text) (hne : [] ∉ runs)
    (hrun : ∀ r ∈ runs, r.IsChain fun a b => (isAsciiChar a == isAsciiChar b) = true)
    (hchain : runs.IsChain fun a b => ∃ ha hb,
      (isAsciiChar (a.getLast ha) == isAsciiChar (b.head hb)) = false) :
    (runs.flatMap fun run => if isAscii run then decodeUtf8 (unquoteToBytes run) else run) =
      unquoteFrom [] runs.flatten := by
  induction runs with
  | nil => rfl
  | cons r runs ih =>
    rw [List.mem_cons, not_or] at hne
    obtain ⟨hr, hruns⟩ := List.forall_mem_cons.mp hrun
    have hrest := ih hne.2 hruns (List.isChain_cons.mp hchain).2
    rw [List.flatMap_cons, List.flatten_cons, hrest]
    obtain ⟨c, r', rfl⟩ := List.exists_cons_of_ne_nil (Ne.symm hne.1)
    have hall := run_eq hr
    cases hc : isAsciiChar c with
    | true =>
      rw [hc] at hall
      have hends : EndsRun runs.flatten := by
        cases runs with
        | nil => exact fun _ hc => absurd hc (by simp)
        | cons q runs =>
          obtain ⟨ha, hb, hdiff⟩ := (List.isChain_cons_cons.mp hchain).1
          rw [hall _ (List.getLast_mem ha)] at hdiff
          intro d hd
          rw [List.flatten_cons, List.head?_append_of_ne_nil _ hb, List.head?_eq_some_head hb] at hd
          obtain rfl := Option.some.inj hd
          simpa using hdiff
      have hascii : isAscii (c :: r') = true := List.all_eq_true.mpr hall
      rw [if_pos hascii, unquoteFrom_run hall hends, List.nil_append,
        unquoteFrom_endsRun hends (unquoteToBytes (c :: r'))]
    | false =>
      rw [hc] at hall
      have hnot : ¬ isAscii (c :: r') = true := by
        rw [isAscii, List.all_cons, hc, Bool.false_and]
        exact Bool.false_ne_true
      rw [if_neg hnot, unquoteFrom_other hall]

theorem unquote_eq (s : Text) : unquote s = unquoteFrom [] s := by
  conv_rhs => rw [← List.flatten_splitBy (fun a b => isAsciiChar a == isAsciiChar b) s]
  have hchain := List.isChain_getLast_head_splitBy (fun a b => isAsciiChar a == isAsciiChar b) s
  exact flatMap_runs _ (List.nil_notMem_splitBy _ _) (fun r hr => List.isChain_of_mem_splitBy hr)
    hchain

/-! ### A respelled text -/

theorem toNat_lt_of_isAlphanum {c : Char} (h : c.isAlphanum = true) : c.toNat < 128 := by
  have hle : ∀ d : Char, c.val ≤ d.val → d.toNat < 128 → c.toNat < 128 := fun d hd hlt =>
    Nat.lt_of_le_of_lt (UInt32.le_iff_toNat_le.mp hd) hlt
  rcases Bool.or_eq_true_iff.mp h with h | h
  · rcases Bool.or_eq_true_iff.mp h with h | h
    · exact hle 'Z' (of_decide_eq_true h).2 (by decide)
    · exact hle 'z' (of_decide_eq_true (Bool.and_eq_true_iff.mp h).2) (by decide)
  · exact hle '9' (of_decide_eq_true (Bool.and_eq_true_iff.mp h).2) (by decide)

theorem isAsciiChar_of_isAlwaysSafe {c : Char} (h : isAlwaysSafe c = true) :
    isAsciiChar c = true := by
  rw [isAsciiChar, decide_eq_true_eq]
  rcases Bool.or_eq_true_iff.mp h with h | h
  · rcases Bool.or_eq_true_iff.mp h with h | h
    · rcases Bool.or_eq_true_iff.mp h with h | h
      · rcases Bool.or_eq_true_iff.mp h with h | h
        · exact toNat_lt_of_isAlphanum h
        · rw [eq_of_beq h]
          decide
      · rw [eq_of_beq h]
        decide
    · rw [eq_of_beq h]
      decide
  · rw [eq_of_beq h]
    decide

theorem startsEscape_of_isAlwaysSafe {c : Char} (h : isAlwaysSafe c = true) (s : Text) :
    startsEscape (c :: s) = false := by
  refine startsEscape_eq_false ?_
  rintro a b t rfl
  exact absurd h (by decide)

/-- No escape comes up: its first digit would be spelled as it is, and its second. -/
theorem Respelled.startsEscape {c : Char} {s s' : Text} (h : Respelled s s')
    (hno : startsEscape (c :: s) = false) : startsEscape (c :: s') = false := by
  refine startsEscape_eq_false ?_
  rintro a b t rfl rfl ha
  have hpercent : isHexDigit '%' = false := by decide
  cases h with
  | escape ha' hb' h => exact absurd ha (by rw [hpercent]; exact Bool.false_ne_true)
  | encode hc he h => exact absurd ha (by rw [hpercent]; exact Bool.false_ne_true)
  | keep hno' h =>
    cases h with
    | escape ha' hb' h => exact hpercent
    | encode hc he h => exact hpercent
    | keep hno'' h => exact isHexDigit_of_startsEscape hno ha

theorem Respelled.unquoteFrom_eq {s s' : Text} (h : Respelled s s') (acc : List UInt8) :
    unquoteFrom acc s = unquoteFrom acc s' := by
  induction h generalizing acc with
  | nil => rfl
  | escape ha hb h ih => rw [unquoteFrom_escape ha hb, unquoteFrom_escape ha hb, ih]
  | keep hno h ih =>
    rw [unquoteFrom_cons hno, unquoteFrom_cons (h.startsEscape hno), ih, ih]
  | encode hc he h ih =>
    rw [unquoteFrom_cons (startsEscape_of_isAlwaysSafe hc _), unquoteFrom_escape he.high he.low,
      if_pos (isAsciiChar_of_isAlwaysSafe hc), he.value, ih]

/-- **Unquoting does not see the spelling.** -/
theorem Respelled.unquote_eq {s s' : Text} (h : Respelled s s') : unquote s = unquote s' := by
  rw [Percent.unquote_eq, Percent.unquote_eq, h.unquoteFrom_eq]

/-! ### The ends -/

theorem Respelled.mem {s s' : Text} (h : Respelled s s') {c : Char} (hc : c ∈ s') :
    c ∈ s ∨ c = '%' ∨ isHexDigit c = true := by
  induction h with
  | nil => exact .inl hc
  | escape ha hb h ih =>
    simp only [List.mem_cons] at hc ⊢
    rcases hc with rfl | rfl | rfl | hc
    · exact .inl (.inl rfl)
    · exact .inl (.inr (.inl rfl))
    · exact .inl (.inr (.inr (.inl rfl)))
    · exact (ih hc).imp_left fun h => .inr (.inr (.inr h))
  | keep hno h ih =>
    rcases List.mem_cons.mp hc with rfl | hc
    · exact .inl List.mem_cons_self
    · exact (ih hc).imp_left (List.mem_cons_of_mem _)
  | encode hsafe he h ih =>
    simp only [List.mem_cons] at hc
    rcases hc with rfl | rfl | rfl | hc
    · exact .inr (.inl rfl)
    · exact .inr (.inr he.high)
    · exact .inr (.inr he.low)
    · exact (ih hc).imp_left (List.mem_cons_of_mem _)

theorem Respelled.eq_nil_iff {s s' : Text} (h : Respelled s s') : s = [] ↔ s' = [] := by
  cases h <;> simp

/-- The first character stays, or is the sign of an escape. -/
theorem Respelled.head? {s s' : Text} (h : Respelled s s') {c : Char} (hc : c ∈ s'.head?) :
    c ∈ s.head? ∨ c = '%' := by
  cases h with
  | nil => exact .inl hc
  | escape ha hb h => exact .inl hc
  | keep hno h => exact .inl hc
  | encode hsafe he h => exact .inr (Option.some.inj hc).symm

theorem mem_getLast?_cons {x c : Char} {l : Text} :
    c ∈ (x :: l).getLast? ↔ l = [] ∧ c = x ∨ c ∈ l.getLast? := by
  cases l with
  | nil => simp [eq_comm]
  | cons y l => simp

/-- The last character stays, or is a digit of an escape. -/
theorem Respelled.getLast? {s s' : Text} (h : Respelled s s') {c : Char} (hc : c ∈ s'.getLast?) :
    c ∈ s.getLast? ∨ isHexDigit c = true := by
  induction h with
  | nil => exact .inl hc
  | escape ha hb h ih =>
    simp only [mem_getLast?_cons, List.cons_ne_nil, false_and, false_or] at hc ⊢
    rcases hc with ⟨-, rfl⟩ | hc
    · exact .inr hb
    · exact (ih hc).imp_left .inr
  | keep hno h ih =>
    rw [mem_getLast?_cons] at hc ⊢
    rcases hc with ⟨hnil, rfl⟩ | hc
    · exact .inl (.inl ⟨h.eq_nil_iff.mpr hnil, rfl⟩)
    · exact (ih hc).imp_left .inr
  | encode hsafe he h ih =>
    simp only [mem_getLast?_cons, List.cons_ne_nil, false_and, false_or] at hc ⊢
    rcases hc with ⟨-, rfl⟩ | hc
    · exact .inr he.low
    · exact (ih hc).imp_left .inr

/-- A text may be cut where no escape goes on. -/
theorem Respelled.cut {s t w : Text} (ht : NoHex t) (h : Respelled (s ++ t) w) :
    ∃ s' t', w = s' ++ t' ∧ Respelled s s' ∧ Respelled t t' := by
  generalize hx : s ++ t = x at h
  induction h generalizing s with
  | nil =>
    obtain ⟨rfl, rfl⟩ := List.append_eq_nil_iff.mp hx
    exact ⟨[], [], rfl, .nil, .nil⟩
  | @escape a b r r' ha hb h ih =>
    rcases s with _ | ⟨p, _ | ⟨x, _ | ⟨y, s⟩⟩⟩
    · rw [List.nil_append] at hx
      exact ⟨[], _, rfl, .nil, hx ▸ .escape ha hb h⟩
    · rw [List.singleton_append, List.cons.injEq] at hx
      obtain ⟨-, rfl⟩ := hx
      exact absurd ha (by rw [ht a rfl]; exact Bool.false_ne_true)
    · simp only [List.cons_append, List.nil_append, List.cons.injEq] at hx
      obtain ⟨-, -, rfl⟩ := hx
      exact absurd hb (by rw [ht b rfl]; exact Bool.false_ne_true)
    · simp only [List.cons_append, List.cons.injEq] at hx
      obtain ⟨rfl, rfl, rfl, hx⟩ := hx
      obtain ⟨s', t', rfl, hs, ht'⟩ := ih hx
      exact ⟨_, t', rfl, .escape ha hb hs, ht'⟩
  | @keep c r r' hno h ih =>
    rcases s with _ | ⟨x, s⟩
    · rw [List.nil_append] at hx
      exact ⟨[], _, rfl, .nil, hx ▸ .keep hno h⟩
    · rw [List.cons_append, List.cons.injEq] at hx
      obtain ⟨rfl, hx⟩ := hx
      obtain ⟨s', t', rfl, hs, ht'⟩ := ih hx
      refine ⟨x :: s', t', rfl, .keep (startsEscape_eq_false ?_) hs, ht'⟩
      -- what begins no escape begins none when it is cut off
      rintro a b q rfl rfl ha
      rw [← hx] at hno
      exact isHexDigit_of_startsEscape hno ha
  | @encode c a b r r' hsafe he h ih =>
    rcases s with _ | ⟨x, s⟩
    · rw [List.nil_append] at hx
      exact ⟨[], _, rfl, .nil, hx ▸ .encode hsafe he h⟩
    · rw [List.cons_append, List.cons.injEq] at hx
      obtain ⟨rfl, hx⟩ := hx
      obtain ⟨s', t', rfl, hs, ht'⟩ := ih hx
      exact ⟨_, t', rfl, .encode hsafe he hs, ht'⟩

/-! ### Lengths -/

/-- How many characters can be written as escapes. -/
def spare : Text → ℕ
  | '%' :: a :: b :: s => if isHexDigit a && isHexDigit b then spare s else spare (a :: b :: s)
  | c :: s => (if isAlwaysSafe c then 1 else 0) + spare s
  | [] => 0

theorem spare_escape {a b : Char} (ha : isHexDigit a = true) (hb : isHexDigit b = true) (s : Text) :
    spare ('%' :: a :: b :: s) = spare s := by
  rw [spare, if_pos (by rw [ha, hb]; rfl)]

theorem spare_cons {c : Char} {s : Text} (hno : startsEscape (c :: s) = false) :
    spare (c :: s) = (if isAlwaysSafe c then 1 else 0) + spare s := by
  unfold startsEscape at hno
  split at hno
  · rename_i a b s' heq
    obtain ⟨rfl, rfl⟩ := List.cons.inj heq
    rw [spare, if_neg (by rw [hno]; exact Bool.false_ne_true), if_neg (by decide), Nat.zero_add]
  · rename_i hpat
    rw [spare]
    intro a b s' hc hs
    exact hpat a b s' (by rw [hc, hs])

/-- Each escape makes the text longer by two. -/
theorem Respelled.length {s s' : Text} (h : Respelled s s') :
    ∃ k ≤ spare s, s'.length = s.length + 2 * k := by
  induction h with
  | nil => exact ⟨0, Nat.le_refl _, rfl⟩
  | escape ha hb h ih =>
    obtain ⟨k, hk, hlen⟩ := ih
    refine ⟨k, by rwa [spare_escape ha hb], ?_⟩
    simp only [List.length_cons, hlen]
    omega
  | keep hno h ih =>
    obtain ⟨k, hk, hlen⟩ := ih
    refine ⟨k, by rw [spare_cons hno]; omega, ?_⟩
    simp only [List.length_cons, hlen]
    omega
  | encode hsafe he h ih =>
    obtain ⟨k, hk, hlen⟩ := ih
    refine ⟨k + 1, ?_, ?_⟩
    · rw [spare_cons (startsEscape_of_isAlwaysSafe hsafe _), if_pos hsafe]
      omega
    · simp only [List.length_cons, hlen]
      omega

theorem exists_escapeOf {c : Char} (hc : isAlwaysSafe c = true) : ∃ a b, EscapeOf c a b := by
  have hlt : c.toNat < 128 := by
    have h := isAsciiChar_of_isAlwaysSafe hc
    rwa [isAsciiChar, decide_eq_true_eq] at h
  have hdigit : ∀ d < 16, isHexDigit d.digitChar = true ∧ hexDigit d.digitChar = d := by decide
  have hhigh := hdigit (c.toNat / 16) (by omega)
  have hlow := hdigit (c.toNat % 16) (by omega)
  refine ⟨_, _, hhigh.1, hlow.1, ?_⟩
  rw [hhigh.2, hlow.2]
  omega

/-- Any number of them can be escaped. -/
theorem exists_respelled (s : Text) {k : ℕ} (hk : k ≤ spare s) :
    ∃ s', Respelled s s' ∧ s'.length = s.length + 2 * k := by
  induction s using escapes_induction generalizing k with
  | nil =>
    obtain rfl : k = 0 := Nat.le_zero.mp hk
    exact ⟨[], .nil, rfl⟩
  | escape a b s ha hb ih =>
    rw [spare_escape ha hb] at hk
    obtain ⟨s', hs, hlen⟩ := ih hk
    refine ⟨_, .escape ha hb hs, ?_⟩
    simp only [List.length_cons, hlen]
    omega
  | cons c s hno ih =>
    rw [spare_cons hno] at hk
    by_cases hfits : k ≤ spare s
    · obtain ⟨s', hs, hlen⟩ := ih hfits
      refine ⟨_, .keep hno hs, ?_⟩
      simp only [List.length_cons, hlen]
      omega
    · -- the first character has to be escaped, too
      have hsafe : isAlwaysSafe c = true := by
        by_contra hsafe
        rw [if_neg hsafe] at hk
        omega
      rw [if_pos hsafe] at hk
      obtain ⟨s', hs, hlen⟩ := ih (k := k - 1) (by omega)
      obtain ⟨a, b, he⟩ := exists_escapeOf hsafe
      refine ⟨_, .encode hsafe he hs, ?_⟩
      simp only [List.length_cons, hlen]
      omega

end Percent
