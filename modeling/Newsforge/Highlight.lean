/-
Search snippets (`render_highlight`).

`ts_headline` puts two private-use characters around a match.  A snippet is split at
them, the pieces are unescaped and escaped again, and the marks become tags.

Main result: `renderHighlight_carries_marks`, the only angle brackets of a rendered
snippet belong to the tags, one for each mark in its order, and the texts between
them say what the pieces of the snippet say.
-/
import Newsforge.AddressCase
import Newsforge.HtmlText

open PyText HtmlText

namespace Search

/-! ### Marks and tags -/

/-- `MARK_START`. -/
def markStart : Char := Char.ofNat 0xe000

/-- `MARK_STOP`. -/
def markStop : Char := Char.ofNat 0xe001

/-- `[MARK_START MARK_STOP]`. -/
def isMark (c : Char) : Bool := c == markStart || c == markStop

/-- `_MARKS.split(raw)`: the pieces and, as the pattern has a group, the marks between
them. -/
def marksSplit : Text → List Text
  | [] => [[]]
  | c :: raw =>
    if isMark c then [] :: [c] :: marksSplit raw
    else (marksSplit raw).modifyHead (c :: ·)

/-- `_TAGS`. -/
def tags : List (Text × Text) :=
  [([markStart], "<b>".toList), ([markStop], "</b>".toList)]

/-- `_TAGS.get(part) or html.escape(html.unescape(part))`. -/
def renderPart (e : Entities) (part : Text) : Option Text :=
  match tags.lookup part with
  | some tag => some tag
  | none => (unescape e part).map escape

/-- `render_highlight(raw)`; `none` is a `ValueError` of `html.unescape`. -/
def renderHighlight (e : Entities) (raw : Text) : Option Text :=
  ((marksSplit raw).mapM (renderPart e)).map List.flatten

/-! ### Parts -/

/-- The tag of a mark. -/
def tagOf (mark : Char) : Text := if mark = markStart then "<b>".toList else "</b>".toList

/-- Texts with something between one and the next. -/
def weave {α : Type*} : List (List α) → List (List α) → List (List α)
  | text :: texts, sep :: seps => text :: sep :: weave texts seps
  | texts, [] => texts
  | [], _ :: _ => []

theorem weave_modifyHead {α : Type*} (f : List α → List α) {texts seps : List (List α)} :
    weave (texts.modifyHead f) seps = (weave texts seps).modifyHead f := by
  cases texts <;> cases seps <;> rfl

theorem marksSplit_eq (raw : Text) :
    marksSplit raw = weave (raw.splitOnP isMark) ((raw.filter isMark).map fun c => [c]) := by
  induction raw with
  | nil => rfl
  | cons c raw ih =>
    rw [marksSplit, ih, List.splitOnP_cons_eq_if_modifyHead, List.filter_cons]
    split_ifs with hc
    · rfl
    · rw [weave_modifyHead]

theorem length_splitOnP {α : Type*} (p : α → Bool) (xs : List α) :
    (xs.splitOnP p).length = (xs.filter p).length + 1 := by
  induction xs with
  | nil => rfl
  | cons x xs ih =>
    rw [List.splitOnP_cons_eq_if_modifyHead, List.filter_cons]
    split_ifs
    · simp [ih]
    · simp [ih]

/-- No piece has the separator. -/
theorem forall_splitOnP {α : Type*} (p : α → Bool) (xs : List α) :
    ∀ piece ∈ xs.splitOnP p, ∀ x ∈ piece, p x = false := by
  induction xs with
  | nil => simp
  | cons x xs ih =>
    rw [List.splitOnP_cons_eq_if_modifyHead]
    split_ifs with hx
    · simpa using ih
    · obtain ⟨piece, pieces, heq⟩ := List.exists_cons_of_ne_nil (List.splitOnP_ne_nil p xs)
      rw [heq] at ih ⊢
      simpa [hx] using ih

theorem renderPart_mark (e : Entities) {c : Char} (hc : isMark c) :
    renderPart e [c] = some (tagOf c) := by
  unfold isMark at hc
  simp only [Bool.or_eq_true, beq_iff_eq] at hc
  rcases hc with rfl | rfl <;> rfl

theorem renderPart_piece (e : Entities) {piece : Text} (h : ∀ c ∈ piece, isMark c = false) :
    renderPart e piece = (unescape e piece).map escape := by
  have hnone : tags.lookup piece = none := by
    rw [List.lookup_eq_none_iff]
    -- a tag stands for a part that has a mark
    intro entry hentry
    rw [bne_iff_ne]
    rintro rfl
    simp only [tags, List.mem_cons, List.not_mem_nil, or_false] at hentry
    rcases hentry with rfl | rfl
    · exact absurd (h markStart (List.mem_singleton.mpr rfl)) (by decide)
    · exact absurd (h markStop (List.mem_singleton.mpr rfl)) (by decide)
  rw [renderPart, hnone]

/-- The parts are rendered: the pieces into texts, the marks into tags. -/
theorem mapM_renderPart (e : Entities) {pieces : List Text} {marks : List Char}
    (hlen : pieces.length = marks.length + 1)
    (hpieces : ∀ piece ∈ pieces, ∀ c ∈ piece, isMark c = false) (hmarks : ∀ c ∈ marks, isMark c) :
    (weave pieces (marks.map fun c => [c])).mapM (renderPart e)
      = (pieces.mapM fun piece => (unescape e piece).map escape).map
          (weave · (marks.map tagOf)) := by
  induction marks generalizing pieces with
  | nil =>
    obtain ⟨piece, rfl⟩ := List.length_eq_one_iff.mp hlen
    simp [weave, renderPart_piece e (hpieces piece (List.mem_singleton.mpr rfl))]
  | cons c marks ih =>
    obtain ⟨piece, pieces, rfl⟩ := List.exists_cons_of_length_eq_add_one hlen
    have hrest := ih (by simpa using hlen)
      (fun p hp => hpieces p (List.mem_cons_of_mem _ hp))
      (fun m hm => hmarks m (List.mem_cons_of_mem _ hm))
    simp only [List.map_cons, weave, List.mapM_cons, hrest,
      renderPart_piece e (hpieces piece (List.mem_cons_self ..)),
      renderPart_mark e (hmarks c (List.mem_cons_self ..))]
    cases unescape e piece with
    | none => rfl
    | some t =>
      cases pieces.mapM fun piece => (unescape e piece).map escape <;> rfl

theorem renderHighlight_eq (e : Entities) (raw : Text) :
    renderHighlight e raw
      = ((raw.splitOnP isMark).mapM fun piece => (unescape e piece).map escape).map
          fun texts => (weave texts ((raw.filter isMark).map tagOf)).flatten := by
  rw [renderHighlight, marksSplit_eq, mapM_renderPart e (length_splitOnP _ _)
    (forall_splitOnP _ _) fun c hc => (List.mem_filter.mp hc).2, Option.map_map]
  rfl

theorem mapM_eq_none_iff {α β : Type*} {f : α → Option β} {xs : List α} :
    xs.mapM f = none ↔ ∃ x ∈ xs, f x = none := by
  induction xs with
  | nil => simp
  | cons x xs ih =>
    rw [List.mapM_cons]
    cases hx : f x with
    | none => simp [hx]
    | some y =>
      simp only [List.mem_cons, exists_eq_or_imp, hx, reduceCtorEq, false_or, ← ih]
      cases xs.mapM f <;> simp

/-! ### Numbers in the pieces -/

/-- The first piece ends before the first mark. -/
theorem exists_first_piece (raw : Text) : ∃ piece pieces tail,
    raw.splitOnP isMark = piece :: pieces ∧ raw = piece ++ tail ∧ ∀ c ∈ tail.head?, isMark c := by
  induction raw with
  | nil => exact ⟨[], [], [], rfl, rfl, by simp⟩
  | cons c raw ih =>
    rw [List.splitOnP_cons_eq_if_modifyHead]
    split_ifs with hc
    · exact ⟨[], _, c :: raw, rfl, rfl, by simpa using hc⟩
    · obtain ⟨piece, pieces, tail, heq, hraw, htail⟩ := ih
      refine ⟨c :: piece, pieces, tail, ?_, ?_, htail⟩
      · rw [heq, List.modifyHead_cons]
      · rw [hraw, List.cons_append]

theorem isDigit_of_isMark {c : Char} (hc : isMark c) : c.isDigit = false := by
  unfold isMark at hc
  simp only [Bool.or_eq_true, beq_iff_eq] at hc
  rcases hc with rfl | rfl <;> decide

theorem startsLong_append {piece tail : Text} (h : ∀ c ∈ tail.head?, isMark c) :
    StartsLong (piece ++ tail) ↔ StartsLong piece := by
  -- the digits end where a mark stands
  have htail : tail.takeWhile Char.isDigit = [] := by
    cases tail with
    | nil => rfl
    | cons c tail => rw [List.takeWhile_cons, isDigit_of_isMark (h c rfl), if_neg Bool.false_ne_true]
  cases piece with
  | nil =>
    have hno : ¬ StartsLong tail := by
      rintro ⟨t, rfl, -⟩
      exact absurd (h '#' rfl) (by decide)
    have hnil : ¬ StartsLong [] := by
      rintro ⟨t, ht, -⟩
      exact absurd ht.symm (List.cons_ne_nil _ _)
    rw [List.nil_append]
    exact iff_of_false hno hnil
  | cons c piece =>
    have hdigits : (piece ++ tail).takeWhile Char.isDigit = piece.takeWhile Char.isDigit := by
      rw [List.takeWhile_append, htail, List.append_nil]
      split_ifs with hall
      · exact ((List.takeWhile_prefix _).eq_of_length hall).symm
      · rfl
    simp only [StartsLong, List.cons_append, List.cons.injEq]
    constructor
    · rintro ⟨t, ⟨rfl, rfl⟩, ht⟩
      rw [hdigits] at ht
      exact ⟨piece, ⟨rfl, rfl⟩, ht⟩
    · rintro ⟨t, ⟨rfl, rfl⟩, ht⟩
      rw [← hdigits] at ht
      exact ⟨piece ++ tail, ⟨rfl, rfl⟩, ht⟩

/-- A number that is too long lies within one piece. -/
theorem longNumber_iff {raw : Text} :
    LongNumber raw ↔ ∃ piece ∈ raw.splitOnP isMark, LongNumber piece := by
  induction raw with
  | nil => simp
  | cons c raw ih =>
    rw [longNumber_cons, ih, List.splitOnP_cons_eq_if_modifyHead]
    split_ifs with hc
    · have hamp : ¬ c = '&' := by
        rintro rfl
        exact absurd hc (by decide)
      simp [hamp, not_longNumber_nil]
    · obtain ⟨piece, pieces, tail, heq, hraw, htail⟩ := exists_first_piece raw
      rw [heq, hraw, startsLong_append htail]
      simp only [List.modifyHead_cons, List.mem_cons, exists_eq_or_imp, longNumber_cons, or_assoc]

/-! ### Rendering -/

/-- **Which snippets cannot be rendered.** -/
theorem renderHighlight_eq_none_iff (e : Entities) (raw : Text) :
    renderHighlight e raw = none ↔ LongNumber raw := by
  rw [renderHighlight_eq, Option.map_eq_none_iff, mapM_eq_none_iff, longNumber_iff]
  simp only [Option.map_eq_none_iff, unescape_eq_none_iff]

/-- What a text of the rendered snippet has to do with its piece: there is no angle
bracket in it, and both say the same. -/
def Plain (e : Entities) (text piece : Text) : Prop :=
  '<' ∉ text ∧ '>' ∉ text ∧ ∃ said, unescape e text = some said ∧ unescape e piece = some said

theorem plain_of_rendered {e : Entities} {text piece : Text}
    (h : (unescape e piece).map escape = some text) : Plain e text piece := by
  obtain ⟨said, hsaid, rfl⟩ := Option.map_eq_some_iff.mp h
  obtain ⟨hlt, hgt⟩ := not_mem_escape said
  exact ⟨hlt, hgt, said, unescape_escape e said, hsaid⟩

/-- **Snippets carry no markup but the marks.**  A snippet without a number that is too
long is rendered: the tags stand for its marks, in their order, and the texts around
them have no angle bracket and say what the pieces of the snippet say. -/
theorem renderHighlight_carries_marks (e : Entities) (raw : Text) (hraw : ¬ LongNumber raw) :
    ∃ texts : List Text,
      renderHighlight e raw = some (weave texts ((raw.filter isMark).map tagOf)).flatten ∧
      texts.length = (raw.filter isMark).length + 1 ∧
      List.Forall₂ (Plain e) texts (raw.splitOnP isMark) := by
  rw [← renderHighlight_eq_none_iff e, renderHighlight_eq] at hraw
  rw [renderHighlight_eq]
  cases htexts : (raw.splitOnP isMark).mapM fun piece => (unescape e piece).map escape with
  | none => exact absurd (by rw [htexts, Option.map_none]) hraw
  | some texts =>
    refine ⟨texts, by rw [Option.map_some], ?_, ?_⟩
    · rw [IPAddress.mapM_length htexts, length_splitOnP]
    · exact ((forall₂_of_mapM htexts).imp fun _ _ h => plain_of_rendered h).flip

/-- The table of the names that escaping uses. -/
def basicEntities : Entities where
  html5 name :=
    if name = "amp;".toList then some ['&']
    else if name = "lt;".toList then some ['<']
    else if name = "gt;".toList then some ['>']
    else if name = "quot;".toList then some ['\x22']
    else none
  amp := rfl
  lt := rfl
  gt := rfl
  quot := rfl

/-- A mark between an escaped bracket and a bare one. -/
theorem renderHighlight_carries_marks_once : ∃ texts : List Text,
    renderHighlight basicEntities ['&', 'l', 't', ';', markStart, 'a', '<']
      = some (weave texts ["<b>".toList]).flatten ∧
    texts.length = 2 ∧
    List.Forall₂ (Plain basicEntities) texts [['&', 'l', 't', ';'], ['a', '<']] := by
  have hshort : ¬ LongNumber ['&', 'l', 't', ';', markStart, 'a', '<'] := by
    rw [← unescape_eq_none_iff basicEntities]
    decide
  exact renderHighlight_carries_marks basicEntities _ hshort

/-- A number of 4301 digits is refused. -/
theorem renderHighlight_long_number :
    renderHighlight basicEntities ('&' :: '#' :: List.replicate 4301 '1') = none := by
  rw [renderHighlight_eq_none_iff]
  refine ⟨_, List.suffix_refl _, _, rfl, ?_⟩
  rw [List.takeWhile_replicate, if_pos (by decide), List.length_replicate]
  decide

end Search
