/-
Visible text (`plain_text` of `apps/articles/normalizer.py`).

Tags are taken out by `bleach`, entities are decoded, and white space is collapsed.  Both
`bleach` and `html.unescape` hand the digits of a character reference to `int`, which may
raise.

* `Html` — what is taken from `bleach` and from `html.entities`;
* `plainText` — the function, with its `ValueError`.

Main results: `plainText_isOk_iff`, which texts it reads, and `space_of_mem_plainText`, the
only white space of what it returns is the blank.
-/
import Newsforge.HtmlText

open PyText

namespace Normalizer

/-! ### plain_text -/

/-- What is taken from elsewhere for HTML. -/
structure Html where
  /-- `bleach.clean` with `strip` and `strip_comments`, for some tags and, unless
  its own, some attributes; the text of a `ValueError` if it raises -/
  clean : List Text → Option (List (Text × List Text)) → Text → Except Text Text
  entities : HtmlText.Entities

/-- `html.unescape`, with the `ValueError` of `int`. -/
def htmlUnescape (k : Html) (text : Text) : Except Text Text :=
  match HtmlText.unescape k.entities text with
  | some text => .ok text
  | none => .error (tooManyDigits (HtmlText.longDigits text).length)

/-- `plain_text`. -/
def plainText (k : Html) (value : Option Text) (maxChars : ℕ) : Except Text Text := do
  let text ← k.clean [] none (value.getD [])
  let text ← htmlUnescape k text
  return (join ' ' (words text)).take maxChars

/-! ### What it reads, and what it returns -/

variable {k : Html} {value : Option Text} {maxChars : ℕ} {text : Text}

/-- The error of `html.unescape` tells of a number with more digits than `int` reads. -/
theorem htmlUnescape_error {m : Text} (h : htmlUnescape k text = .error m) :
    ∃ n, maxStrDigits < n ∧ m = tooManyDigits n := by
  rw [htmlUnescape] at h
  split at h
  · cases h
  · rename_i hnone
    cases h
    have hlong := (HtmlText.unescape_eq_none_iff _ _).mp hnone
    exact ⟨_, (HtmlText.longNumber_iff_longDigits _).mp hlong, rfl⟩

variable (k) in
theorem htmlUnescape_isOk_iff :
    (∃ t, htmlUnescape k text = .ok t) ↔ ¬ HtmlText.LongNumber text := by
  rw [← HtmlText.unescape_eq_none_iff k.entities, htmlUnescape]
  cases HtmlText.unescape k.entities text with
  | none => simp
  | some t => simp

theorem bind_eq_ok {ε α β : Type} {x : Except ε α} {f : α → Except ε β} {b : β} :
    x >>= f = .ok b ↔ ∃ a, x = .ok a ∧ f a = .ok b := by
  cases x <;> simp [bind, Except.bind]

theorem plainText_eq_ok :
    plainText k value maxChars = .ok text ↔
      ∃ cleaned, k.clean [] none (value.getD []) = .ok cleaned ∧
        ∃ unescaped, htmlUnescape k cleaned = .ok unescaped ∧
          (join ' ' (words unescaped)).take maxChars = text := by
  simp only [plainText, bind_eq_ok, pure, Except.pure, Except.ok.injEq]

/-- **Which texts are read**: those that `bleach` cleans, without a decimal reference of too
many digits in what it leaves. -/
theorem plainText_isOk_iff :
    (∃ text, plainText k value maxChars = .ok text) ↔
      ∃ cleaned, k.clean [] none (value.getD []) = .ok cleaned ∧
        ¬ HtmlText.LongNumber cleaned := by
  constructor
  · rintro ⟨text, h⟩
    obtain ⟨cleaned, hclean, unescaped, hun, -⟩ := plainText_eq_ok.mp h
    exact ⟨cleaned, hclean, (htmlUnescape_isOk_iff k).mp ⟨unescaped, hun⟩⟩
  · rintro ⟨cleaned, hclean, hlong⟩
    obtain ⟨unescaped, hun⟩ := (htmlUnescape_isOk_iff k).mpr hlong
    exact ⟨_, plainText_eq_ok.mpr ⟨cleaned, hclean, unescaped, hun, rfl⟩⟩

theorem length_plainText_le (h : plainText k value maxChars = .ok text) :
    text.length ≤ maxChars := by
  obtain ⟨_, -, unescaped, -, rfl⟩ := plainText_eq_ok.mp h
  exact List.length_take_le _ _

/-- The only white space in a plain text is the blank. -/
theorem space_of_mem_plainText (h : plainText k value maxChars = .ok text) {x : Char}
    (hx : x ∈ text) (hspace : isSpace x = true) : x = ' ' := by
  obtain ⟨_, -, unescaped, -, rfl⟩ := plainText_eq_ok.mp h
  rcases mem_join (List.mem_of_mem_take hx) with rfl | ⟨w, hw, hmem⟩
  · rfl
  · have hword := isSpace_of_mem_words hw x hmem
    rw [hspace] at hword
    cases hword

/-! ### Texts without markup -/

/-- The four names that `html.escape` writes. -/
def basicEntities : HtmlText.Entities where
  html5 name := [("amp;".toList, ['&']), ("lt;".toList, ['<']), ("gt;".toList, ['>']),
    ("quot;".toList, ['\x22'])].lookup name
  amp := rfl
  lt := rfl
  gt := rfl
  quot := rfl

/-- Nothing is taken out of a text. -/
def bareHtml : Html where
  clean _ _ text := .ok text
  entities := basicEntities

end Normalizer
