/-
Letter case and compatibility forms, character by character.

The tables of `PyText` answer for whole texts.  Here is how their answers come
about: `str.lower` maps each character by itself, but for a capital sigma, which
looks at its neighbours; and NFKC brings a delimiter of a URL into a text only
with a character that stands for one.

* `CharTables` — what is known of single characters;
* `UnicodeRules` — the tables of texts follow from those of characters;
* `CharTables.lower_of_fixed`, `mem_lower` — what `str.lower` leaves alone, and
  where its characters come from.
-/
import Newsforge.PyText

namespace PyText

/-- The characters that end a host or open a user part. -/
def isUrlDelim (c : Char) : Bool := c == '/' || c == '?' || c == '#' || c == '@' || c == ':'

/-- The full stops, other than that of ASCII, that separate the labels of a host
name. -/
def isWideDot (c : Char) : Bool := c == '\u3002' || c == '\uFF0E' || c == '\uFF61'

/-- What the Unicode database tells of a single character: its full lower-case
mapping, the two properties a capital sigma looks for, and whether its
compatibility form has a delimiter of a URL. -/
structure CharTables where
  lowerChar : Char → Text
  cased : Char → Bool
  caseIgnorable : Char → Bool
  hides : Char → Bool
  lowerChar_ne_nil : ∀ c, lowerChar c ≠ []
  lowerChar_ascii : ∀ c, isAsciiChar c = true → lowerChar c = [c.toLower]
  lowerChar_sigma : lowerChar 'Σ' = ['σ']
  lowerChar_final : lowerChar 'ς' = ['ς']
  /-- what comes out of the mapping is in lower case -/
  lowerChar_fixed : ∀ c, ∀ d ∈ lowerChar c, d ≠ 'Σ' ∧ lowerChar d = [d]
  /-- of the ASCII characters, only letters come from elsewhere -/
  lowerChar_letter : ∀ c, isAsciiChar c = false → ∀ d ∈ lowerChar c, isAsciiChar d = true →
    d.isLower = true
  hides_ascii : ∀ c, isAsciiChar c = true → hides c = isUrlDelim c
  hides_lower : ∀ c, ∀ d ∈ lowerChar c, hides d = true → hides c = true
  hides_final : hides 'ς' = false
  cased_ascii : ∀ c, isAsciiChar c = true → cased c = c.isAlpha
  ignorable_letter : ∀ c, isAsciiChar c = true → c.isAlpha = true → caseIgnorable c = false
  ignorable_dot : caseIgnorable '.' = true
  lowerChar_wide : ∀ c, isWideDot c = true → lowerChar c = [c]
  wide_of_lower : ∀ c, ∀ d ∈ lowerChar c, isWideDot d = true → d = c

namespace CharTables

variable (k : CharTables)

/-- Whether a capital sigma ends a word, between the characters in front of it,
the nearest first, and those behind it. -/
def endsWord (before after : Text) : Bool :=
  (before.find? fun c => !k.caseIgnorable c).any k.cased &&
    !(after.find? fun c => !k.caseIgnorable c).any k.cased

/-- The lower case of a character in its place. -/
def lowerAt (before : Text) (c : Char) (after : Text) : Text :=
  if c = 'Σ' ∧ k.endsWord before after = true then ['ς'] else k.lowerChar c

/-- `str.lower`, behind the characters of `before`. -/
def lowerFrom (before : Text) : Text → Text
  | [] => []
  | c :: s => k.lowerAt before c s ++ lowerFrom (c :: before) s

/-- `str.lower`. -/
def lower (s : Text) : Text := k.lowerFrom [] s

/-- A character in lower case. -/
def Fixed (c : Char) : Prop := c ≠ 'Σ' ∧ k.lowerChar c = [c]

variable {k}

theorem fixed_of_mem_lowerAt {before after : Text} {c d : Char}
    (h : d ∈ k.lowerAt before c after) : k.Fixed d := by
  rw [lowerAt] at h
  split at h
  · rw [List.mem_singleton.mp h]
    exact ⟨by decide, k.lowerChar_final⟩
  · exact k.lowerChar_fixed c d h

theorem lowerAt_of_fixed {c : Char} (h : k.Fixed c) (before after : Text) :
    k.lowerAt before c after = [c] := by
  rw [lowerAt, if_neg (fun hc => h.1 hc.1), h.2]

theorem lowerFrom_of_fixed {s : Text} (h : ∀ c ∈ s, k.Fixed c) (before : Text) :
    k.lowerFrom before s = s := by
  induction s generalizing before with
  | nil => rfl
  | cons c s ih =>
    obtain ⟨hc, hs⟩ := List.forall_mem_cons.mp h
    rw [lowerFrom, lowerAt_of_fixed hc, ih hs, List.singleton_append]

/-- Text in lower case stays as it is. -/
theorem lower_of_fixed {s : Text} (h : ∀ c ∈ s, k.Fixed c) : k.lower s = s :=
  lowerFrom_of_fixed h []

/-- A character of the result comes from one of the text. -/
theorem mem_lowerFrom {s before : Text} {d : Char} (h : d ∈ k.lowerFrom before s) :
    ∃ c ∈ s, ∃ before after, d ∈ k.lowerAt before c after := by
  induction s generalizing before with
  | nil => exact absurd h List.not_mem_nil
  | cons c s ih =>
    rw [lowerFrom, List.mem_append] at h
    rcases h with h | h
    · exact ⟨c, List.mem_cons_self, before, s, h⟩
    · obtain ⟨x, hx, hd⟩ := ih h
      exact ⟨x, List.mem_cons_of_mem _ hx, hd⟩

theorem fixed_of_mem_lower {s : Text} {d : Char} (h : d ∈ k.lower s) : k.Fixed d := by
  obtain ⟨c, -, before, after, hd⟩ := mem_lowerFrom h
  exact fixed_of_mem_lowerAt hd

theorem lower_lower (s : Text) : k.lower (k.lower s) = k.lower s :=
  lower_of_fixed fun _ h => fixed_of_mem_lower h

theorem lowerAt_ne_nil (before : Text) (c : Char) (after : Text) :
    k.lowerAt before c after ≠ [] := by
  rw [lowerAt]
  split
  · exact List.cons_ne_nil _ _
  · exact k.lowerChar_ne_nil c

theorem lower_eq_nil {s : Text} : k.lower s = [] ↔ s = [] := by
  cases s with
  | nil => exact iff_of_true rfl rfl
  | cons c s =>
    refine iff_of_false ?_ (List.cons_ne_nil _ _)
    rw [lower, lowerFrom, List.append_eq_nil_iff, not_and_or]
    exact .inl (lowerAt_ne_nil _ _ _)

/-! ### Trailing dots -/

theorem find?_append_dots {after dots : Text} (hdots : ∀ c ∈ dots, c = '.') :
    (after ++ dots).find? (fun c => !k.caseIgnorable c) =
      after.find? fun c => !k.caseIgnorable c := by
  have hnone : dots.find? (fun c => !k.caseIgnorable c) = none := by
    rw [List.find?_eq_none]
    intro c hc
    rw [hdots c hc, k.ignorable_dot]
    decide
  rw [List.find?_append, hnone, Option.or_none]

theorem endsWord_append_dots {before after dots : Text} (hdots : ∀ c ∈ dots, c = '.') :
    k.endsWord before (after ++ dots) = k.endsWord before after := by
  rw [endsWord, endsWord, find?_append_dots hdots]

theorem lowerFrom_dots {before dots : Text} (hdots : ∀ c ∈ dots, c = '.') :
    k.lowerFrom before dots = dots := by
  refine lowerFrom_of_fixed (fun c hc => ?_) before
  rw [hdots c hc]
  exact ⟨by decide, k.lowerChar_ascii '.' (by decide)⟩

/-- Dots behind a text make no difference to its letters. -/
theorem lower_append_dots (s : Text) {dots : Text} (hdots : ∀ c ∈ dots, c = '.') :
    k.lower (s ++ dots) = k.lower s ++ dots := by
  rw [lower, lower]
  generalize ([] : Text) = before
  induction s generalizing before with
  | nil => exact lowerFrom_dots hdots
  | cons c s ih =>
    rw [List.cons_append, lowerFrom, lowerFrom, ih, lowerAt, lowerAt, endsWord_append_dots hdots,
      List.append_assoc]

/-! ### ASCII -/

/-- A fact about the 128 ASCII characters. -/
theorem forall_ascii {p : Char → Prop} (h : ∀ n < 128, p (Char.ofNat n)) {c : Char}
    (hc : isAsciiChar c = true) : p c := by
  have := h c.toNat (by simpa [isAsciiChar] using hc)
  rwa [Char.ofNat_toNat] at this

theorem lowerAt_of_ascii {c : Char} (hc : isAsciiChar c = true) (before after : Text) :
    k.lowerAt before c after = [c.toLower] := by
  rw [lowerAt, if_neg ?_, k.lowerChar_ascii c hc]
  rintro ⟨rfl, -⟩
  exact absurd hc (by decide)

/-- An ASCII character that is not a lower-case letter comes from an ASCII
character. -/
theorem ascii_of_mem_lowerAt {before after : Text} {c d : Char}
    (h : d ∈ k.lowerAt before c after) (hd : isAsciiChar d = true) (hletter : d.isLower = false) :
    d = c := by
  cases hc : isAsciiChar c with
  | true =>
    rw [lowerAt_of_ascii hc, List.mem_singleton] at h
    subst h
    exact forall_ascii (p := fun c => c.toLower.isLower = false → c.toLower = c) (by decide) hc
      hletter
  | false =>
    rw [lowerAt] at h
    split at h
    · rw [List.mem_singleton.mp h] at hd
      exact absurd hd (by decide)
    · exact absurd (k.lowerChar_letter c hc d h hd) (by rw [hletter]; exact Bool.false_ne_true)

/-- A character that `str.lower` neither changes nor brings in. -/
structure Caseless (k : CharTables) (d : Char) : Prop where
  fixed : k.Fixed d
  only : ∀ before c after, d ∈ k.lowerAt before c after → d = c

theorem caseless_of_ascii {d : Char} (hd : isAsciiChar d = true) (hletter : d.isAlpha = false) :
    k.Caseless d := by
  have hlower : d.isLower = false ∧ d.toLower = d :=
    forall_ascii (p := fun d => d.isAlpha = false → d.isLower = false ∧ d.toLower = d) (by decide)
      hd hletter
  refine ⟨⟨?_, ?_⟩, fun before c after h => ascii_of_mem_lowerAt h hd hlower.1⟩
  · rintro rfl
    exact absurd hd (by decide)
  · rw [k.lowerChar_ascii d hd, hlower.2]

theorem caseless_of_wide {d : Char} (hd : isWideDot d = true) : k.Caseless d := by
  refine ⟨⟨?_, k.lowerChar_wide d hd⟩, fun before c after h => ?_⟩
  · rintro rfl
    exact absurd hd (by decide)
  · rw [lowerAt] at h
    split at h
    · rw [List.mem_singleton.mp h] at hd
      exact absurd hd (by decide)
    · exact k.wide_of_lower c d h hd

theorem Caseless.mem_lower_iff {d : Char} (hd : k.Caseless d) {s : Text} :
    d ∈ k.lower s ↔ d ∈ s := by
  constructor
  · intro h
    obtain ⟨x, hx, before, after, hmem⟩ := mem_lowerFrom h
    rw [hd.only before x after hmem]
    exact hx
  · rw [lower]
    generalize ([] : Text) = before
    intro h
    induction s generalizing before with
    | nil => exact absurd h List.not_mem_nil
    | cons x s ih =>
      rw [lowerFrom, List.mem_append]
      rcases List.mem_cons.mp h with rfl | h
      · rw [lowerAt_of_fixed hd.fixed]
        exact .inl (List.mem_singleton_self _)
      · exact .inr (ih _ h)

theorem lowerFrom_concat (s : Text) (c : Char) (before : Text) :
    ∃ pre, k.lowerFrom before (s ++ [c]) = pre ++ k.lowerAt (s.reverse ++ before) c [] := by
  induction s generalizing before with
  | nil => exact ⟨[], by simp [lowerFrom]⟩
  | cons x s ih =>
    obtain ⟨pre, hpre⟩ := ih (x :: before)
    refine ⟨k.lowerAt before x (s ++ [c]) ++ pre, ?_⟩
    rw [List.cons_append, lowerFrom, hpre, List.append_assoc, List.reverse_cons,
      List.append_assoc, List.singleton_append]

/-- Such a character ends a text in lower case where it ends the text. -/
theorem Caseless.getLast?_lower {d : Char} (hd : k.Caseless d) {s : Text} :
    (k.lower s).getLast? = some d ↔ s.getLast? = some d := by
  rcases List.eq_nil_or_concat' s with rfl | ⟨s, c, rfl⟩
  · exact Iff.rfl
  · obtain ⟨pre, hpre⟩ := lowerFrom_concat (k := k) s c []
    rw [lower, hpre, List.getLast?_append_of_ne_nil _ (lowerAt_ne_nil _ _ _), List.getLast?_concat]
    constructor
    · intro h
      rw [hd.only _ _ _ (List.mem_of_getLast? h)]
    · intro h
      rw [Option.some.inj h, lowerAt_of_fixed hd.fixed]
      rfl

/-! ### Pieces of a text -/

/-- `s'` is a piece of a text in lower case, made of the piece `s` of the text. -/
inductive Lowered (k : CharTables) : Text → Text → Prop
  | nil : Lowered k [] []
  | cons (before : Text) (c : Char) (after : Text) {s s' : Text} (h : Lowered k s s') :
      Lowered k (c :: s) (k.lowerAt before c after ++ s')

theorem lowered_lowerFrom (before s : Text) : k.Lowered s (k.lowerFrom before s) := by
  induction s generalizing before with
  | nil => exact .nil
  | cons c s ih => exact .cons before c s (ih (c :: before))

theorem lowered_lower (s : Text) : k.Lowered s (k.lower s) := lowered_lowerFrom [] s

theorem Lowered.of_append {a b r : Text} (h : k.Lowered (a ++ b) r) :
    ∃ a' b', r = a' ++ b' ∧ k.Lowered a a' ∧ k.Lowered b b' := by
  induction a generalizing r with
  | nil => exact ⟨[], r, rfl, .nil, h⟩
  | cons c a ih =>
    cases h with
    | cons before c after h =>
      obtain ⟨a', b', rfl, ha, hb⟩ := ih h
      exact ⟨_, b', (List.append_assoc _ a' b').symm, .cons before c after ha, hb⟩

theorem Lowered.of_caseless {d : Char} {s r : Text} (h : k.Lowered (d :: s) r)
    (hd : k.Caseless d) : ∃ s', r = d :: s' ∧ k.Lowered s s' := by
  cases h with
  | @cons before d after s s' h =>
    rw [lowerAt_of_fixed hd.fixed]
    exact ⟨s', rfl, h⟩

theorem Lowered.mem_iff {d : Char} {s s' : Text} (h : k.Lowered s s') (hd : k.Caseless d) :
    d ∈ s' ↔ d ∈ s := by
  induction h with
  | nil => exact Iff.rfl
  | cons before c after h ih =>
    rw [List.mem_append, ih, List.mem_cons]
    refine or_congr_left ⟨hd.only before c after, ?_⟩
    rintro rfl
    rw [lowerAt_of_fixed hd.fixed]
    exact List.mem_singleton_self _

/-- A piece without case comes from itself. -/
theorem Lowered.eq_of_caseless {s s' : Text} (h : k.Lowered s s')
    (hcaseless : ∀ c ∈ s', k.Caseless c) : s = s' := by
  induction h with
  | nil => rfl
  | cons before c after h ih =>
    obtain ⟨d, hd⟩ := List.exists_mem_of_ne_nil _ (lowerAt_ne_nil (k := k) before c after)
    have hcase := hcaseless d (List.mem_append_left _ hd)
    obtain rfl := hcase.only before c after hd
    rw [lowerAt_of_fixed hcase.fixed, ih fun c hc => hcaseless c (List.mem_append_right _ hc)]
    rfl

/-- ASCII characters other than letters are neither lost nor brought in. -/
theorem mem_lower_iff {s : Text} {c : Char} (hc : isAsciiChar c = true)
    (hletter : c.isAlpha = false) : c ∈ k.lower s ↔ c ∈ s :=
  (caseless_of_ascii hc hletter).mem_lower_iff

theorem lower_of_ascii {s : Text} (h : isAscii s = true) : k.lower s = s.map Char.toLower := by
  rw [lower]
  generalize ([] : Text) = before
  induction s generalizing before with
  | nil => rfl
  | cons c s ih =>
    rw [isAscii, List.all_cons, Bool.and_eq_true] at h
    rw [lowerFrom, lowerAt_of_ascii h.1, ih h.2, List.map_cons, List.singleton_append]

/-- A character of the result that hides a delimiter comes from one that does, and
lies outside ASCII with it. -/
theorem hides_of_mem_lower {s : Text} {d : Char} (h : d ∈ k.lower s) (hd : k.hides d = true) :
    ∃ c ∈ s, k.hides c = true ∧ (isAsciiChar c = true → isAsciiChar d = true) := by
  obtain ⟨c, hc, before, after, hmem⟩ := mem_lowerFrom h
  refine ⟨c, hc, ?_, ?_⟩
  · rw [lowerAt] at hmem
    split at hmem
    · rw [List.mem_singleton.mp hmem, k.hides_final] at hd
      exact absurd hd Bool.false_ne_true
    · exact k.hides_lower c d hmem hd
  · intro hascii
    rw [lowerAt_of_ascii hascii, List.mem_singleton] at hmem
    rw [hmem]
    exact forall_ascii (p := fun c => isAsciiChar c.toLower = true) (by decide) hascii

end CharTables

/-- The tables of texts follow from those of characters. -/
structure UnicodeRules (u : UnicodeTables) (k : CharTables) : Prop where
  lower : ∀ s, u.lower s = k.lower s
  nfkc : ∀ s, (u.nfkc s).any isUrlDelim = s.any k.hides

namespace UnicodeRules

variable {u : UnicodeTables} {k : CharTables}

theorem lower_eq (h : UnicodeRules u k) (s : Text) : PyText.lower u s = k.lower s := by
  rw [PyText.lower]
  split
  · rw [CharTables.lower_of_ascii ‹_›]
  · exact h.lower s

end UnicodeRules

/-! ### ASCII tables -/

theorem toLower_of_not_ascii {c : Char} (h : isAsciiChar c = false) : c.toLower = c := by
  refine dif_neg fun hupper => ?_
  have hle := UInt32.le_iff_toNat_le.mp hupper.2
  have hn : c.val.toNat = c.toNat := rfl
  have hZ : ('Z'.val).toNat = 90 := rfl
  rw [isAsciiChar, decide_eq_false_iff_not] at h
  omega

/-- What holds of the lower case of ASCII characters and of all other characters
holds of every `Char.toLower`. -/
theorem toLower_cases {p : Char → Char → Prop} (hascii : ∀ n < 128, p (Char.ofNat n)
    (Char.ofNat n).toLower) (hother : ∀ c, isAsciiChar c = false → p c c) (c : Char) :
    p c c.toLower := by
  cases hc : isAsciiChar c with
  | true => exact CharTables.forall_ascii (p := fun c => p c c.toLower) hascii hc
  | false =>
    rw [toLower_of_not_ascii hc]
    exact hother c hc

namespace CharTables

variable {k : CharTables}

theorem cased_toLower (c : Char) : k.cased c.toLower = k.cased c := by
  cases hc : isAsciiChar c with
  | false => rw [toLower_of_not_ascii hc]
  | true =>
    have hlower : isAsciiChar c.toLower = true ∧ c.toLower.isAlpha = c.isAlpha :=
      forall_ascii (p := fun c => isAsciiChar c.toLower = true ∧ c.toLower.isAlpha = c.isAlpha)
        (by decide) hc
    rw [k.cased_ascii _ hlower.1, k.cased_ascii c hc, hlower.2]

theorem caseIgnorable_toLower (c : Char) : k.caseIgnorable c.toLower = k.caseIgnorable c := by
  cases hc : isAsciiChar c with
  | false => rw [toLower_of_not_ascii hc]
  | true =>
    obtain ⟨hascii, halpha, hsame⟩ := forall_ascii (p := fun c => isAsciiChar c.toLower = true ∧
      c.toLower.isAlpha = c.isAlpha ∧ (c.isAlpha = false → c.toLower = c)) (by decide) hc
    cases hletter : c.isAlpha with
    | true =>
      rw [k.ignorable_letter c hc hletter, k.ignorable_letter _ hascii (by rw [halpha, hletter])]
    | false => rw [hsame hletter]

theorem endsWord_map_toLower (before after : Text) :
    k.endsWord (before.map Char.toLower) (after.map Char.toLower) = k.endsWord before after := by
  have hfind : ∀ s : Text, ((s.map Char.toLower).find? fun c => !k.caseIgnorable c).any k.cased =
      (s.find? fun c => !k.caseIgnorable c).any k.cased := by
    intro s
    have hcased : (fun c => k.cased c.toLower) = k.cased := funext cased_toLower
    have hignore : (fun c => !k.caseIgnorable c) ∘ Char.toLower = fun c => !k.caseIgnorable c :=
      funext fun c => congrArg (!·) (caseIgnorable_toLower c)
    rw [List.find?_map, Option.any_map, hcased, hignore]
  rw [endsWord, endsWord, hfind, hfind]

/-- **The case of ASCII letters does not matter** to the lower case of a text. -/
theorem lower_map_toLower (s : Text) : k.lower (s.map Char.toLower) = k.lower s := by
  suffices h : ∀ before, k.lowerFrom (before.map Char.toLower) (s.map Char.toLower) =
      k.lowerFrom before s from h []
  induction s with
  | nil => exact fun _ => rfl
  | cons c s ih =>
    intro before
    have hrest := ih (c :: before)
    rw [List.map_cons] at hrest
    rw [List.map_cons, lowerFrom, lowerFrom, hrest]
    congr 1
    cases hc : isAsciiChar c with
    | true =>
      obtain ⟨hascii, hidem⟩ := forall_ascii (p := fun c => isAsciiChar c.toLower = true ∧
        c.toLower.toLower = c.toLower) (by decide) hc
      rw [lowerAt_of_ascii hascii, lowerAt_of_ascii hc, hidem]
    | false => rw [toLower_of_not_ascii hc, lowerAt, lowerAt, endsWord_map_toLower]

end CharTables

/-- The lower case of a character where only ASCII and sigma have case. -/
def basicLower (c : Char) : Text := if c = 'Σ' then ['σ'] else [c.toLower]

theorem mem_basicLower {c d : Char} (h : d ∈ basicLower c) :
    c = 'Σ' ∧ d = 'σ' ∨ c ≠ 'Σ' ∧ d = c.toLower := by
  rw [basicLower] at h
  split at h
  · exact .inl ⟨‹_›, List.mem_singleton.mp h⟩
  · exact .inr ⟨‹_›, List.mem_singleton.mp h⟩

/-- Tables that know the letters of ASCII, and sigma. -/
def asciiChars : CharTables where
  lowerChar := basicLower
  cased c := c.isAlpha || c == 'Σ' || c == 'σ' || c == 'ς'
  caseIgnorable c := c == '.' || c == ':' || c == '^' || c == '\'' || c == '`'
  hides := isUrlDelim
  lowerChar_ne_nil c := by
    rw [basicLower]
    split <;> exact List.cons_ne_nil _ _
  lowerChar_ascii c hc := by
    rw [basicLower, if_neg]
    rintro rfl
    exact absurd hc (by decide)
  lowerChar_sigma := by decide
  lowerChar_final := by decide
  lowerChar_fixed c d hd := by
    rcases mem_basicLower hd with ⟨-, rfl⟩ | ⟨hc, rfl⟩
    · decide
    · refine toLower_cases (p := fun c d => c ≠ 'Σ' → d ≠ 'Σ' ∧ basicLower d = [d]) (by decide) ?_
        c hc
      intro c hascii hc
      exact ⟨hc, by rw [basicLower, if_neg hc, toLower_of_not_ascii hascii]⟩
  lowerChar_letter c hc d hd hd' := by
    rcases mem_basicLower hd with ⟨-, rfl⟩ | ⟨-, rfl⟩
    · exact absurd hd' (by decide)
    · rw [toLower_of_not_ascii hc, hc] at hd'
      exact absurd hd' Bool.false_ne_true
  hides_ascii _ _ := rfl
  hides_lower c d hd hd' := by
    rcases mem_basicLower hd with ⟨-, rfl⟩ | ⟨-, rfl⟩
    · exact absurd hd' (by decide)
    · exact toLower_cases (p := fun c d => isUrlDelim d = true → isUrlDelim c = true) (by decide)
        (fun _ _ h => h) c hd'
  hides_final := by decide
  cased_ascii _ hc := CharTables.forall_ascii (p := fun c =>
    (c.isAlpha || c == 'Σ' || c == 'σ' || c == 'ς') = c.isAlpha) (by decide) hc
  ignorable_letter _ hc := CharTables.forall_ascii (p := fun c => c.isAlpha = true →
    (c == '.' || c == ':' || c == '^' || c == '\'' || c == '`') = false) (by decide) hc
  ignorable_dot := by decide
  lowerChar_wide c hc := by
    simp only [isWideDot, Bool.or_eq_true, beq_iff_eq] at hc
    rcases hc with (rfl | rfl) | rfl <;> decide
  wide_of_lower c d hd hd' := by
    rcases mem_basicLower hd with ⟨-, rfl⟩ | ⟨-, rfl⟩
    · exact absurd hd' (by decide)
    · exact toLower_cases (p := fun c d => isWideDot d = true → d = c) (by decide)
        (fun _ _ _ => rfl) c hd'

/-- The answers for whole texts that go with `asciiChars`. -/
def basicUnicode : UnicodeTables := ⟨asciiChars.lower, id, id, id⟩

theorem basicUnicode_rules : UnicodeRules basicUnicode asciiChars :=
  ⟨fun _ => rfl, fun _ => rfl⟩

end PyText
