/-
The lines of a text, and what stands around a word in a line.

* `unlines`, `splitlines_unlines` — lines with line feeds are split again as they
  were;
* `strip_eq_append`, `strip_append` — what `strip` leaves, and what it takes off;
* `partition_eq_append` — the text around the first separator.
-/
import Mathlib.Data.List.TakeWhile
import Newsforge.PyText

namespace PyText

/-- Each line with a line feed. -/
def unlines (ls : List Text) : Text := ls.flatMap (· ++ ['\n'])

/-- A line is one that no character ends. -/
def IsLine (l : Text) : Prop := ∀ c ∈ l, isLineBreak c = false

theorem isLine_of_all {l : Text} (h : (l.all fun c => !isLineBreak c) = true) : IsLine l := by
  intro c hc
  simpa using List.all_eq_true.mp h c hc

theorem splitlinesFrom_line {l : Text} (h : IsLine l) (acc s : Text) :
    splitlinesFrom acc (l ++ '\n' :: s) = (acc.reverse ++ l) :: splitlinesFrom [] s := by
  induction l generalizing acc with
  | nil =>
    rw [List.nil_append, List.append_nil, splitlinesFrom, if_pos (by decide)]
    simp
  | cons c l ih =>
    obtain ⟨hc, hl⟩ := List.forall_mem_cons.mp h
    rw [List.cons_append, splitlinesFrom, if_neg (by simp [hc]), ih hl]
    · simp
    · rintro s' rfl
      exact absurd hc (by decide)

theorem splitlines_unlines {ls : List Text} (h : ∀ l ∈ ls, IsLine l) :
    splitlines (unlines ls) = ls := by
  induction ls with
  | nil => rfl
  | cons l ls ih =>
    obtain ⟨hl, hls⟩ := List.forall_mem_cons.mp h
    have hcons : unlines (l :: ls) = l ++ '\n' :: unlines ls := by simp [unlines]
    rw [hcons, splitlines, splitlinesFrom_line hl, List.reverse_nil, List.nil_append]
    exact congrArg (l :: ·) (ih hls)

/-- What `splitlines` returns are lines. -/
theorem isLine_of_mem_splitlinesFrom (acc s : Text) (hacc : IsLine acc) :
    ∀ l ∈ splitlinesFrom acc s, IsLine l := by
  induction acc, s using splitlinesFrom.induct with
  | case1 acc hempty => simp [splitlinesFrom, hempty]
  | case2 acc hempty =>
    intro l hl
    rw [splitlinesFrom, if_neg hempty, List.mem_singleton] at hl
    subst hl
    intro c hc
    exact hacc c (List.mem_reverse.mp hc)
  | case3 acc s ih =>
    rw [splitlinesFrom]
    exact List.forall_mem_cons.mpr
      ⟨fun c hc => hacc c (List.mem_reverse.mp hc), ih fun c hc => absurd hc List.not_mem_nil⟩
  | case4 acc c s hcrlf hc ih =>
    rw [splitlinesFrom, if_pos hc]
    · exact List.forall_mem_cons.mpr
        ⟨fun c hc => hacc c (List.mem_reverse.mp hc), ih fun c hc => absurd hc List.not_mem_nil⟩
    · exact hcrlf
  | case5 acc c s hcrlf hc ih =>
    rw [splitlinesFrom, if_neg hc]
    · exact ih (List.forall_mem_cons.mpr ⟨by simpa using hc, hacc⟩)
    · exact hcrlf

theorem isLine_of_mem_splitlines {s l : Text} (h : l ∈ splitlines s) : IsLine l :=
  isLine_of_mem_splitlinesFrom [] s (fun _ hc => absurd hc List.not_mem_nil) l h

/-! ### strip -/

variable {p : Char → Bool}

/-- The ends of a text that has been stripped. -/
structure Stripped (p : Char → Bool) (s : Text) : Prop where
  head : ∀ c ∈ s.head?, p c = false
  last : ∀ c ∈ s.getLast?, p c = false

/-- What is stripped stands around the rest. -/
theorem strip_eq_append (p : Char → Bool) (s : Text) :
    ∃ a b, s = a ++ strip p s ++ b ∧ (∀ c ∈ a, p c = true) ∧ ∀ c ∈ b, p c = true := by
  refine ⟨s.takeWhile p, ((lstrip p s).reverse.takeWhile p).reverse, ?_, ?_, ?_⟩
  · rw [List.append_assoc, strip, rstrip, ← List.reverse_append, List.takeWhile_append_dropWhile,
      List.reverse_reverse, lstrip, List.takeWhile_append_dropWhile]
  · exact fun c hc => List.mem_takeWhile_imp hc
  · exact fun c hc => List.mem_takeWhile_imp (List.mem_reverse.mp hc)

theorem head?_dropWhile {s : Text} {c : Char} (hc : c ∈ (s.dropWhile p).head?) : p c = false := by
  have h := List.head?_dropWhile_not p s
  rw [hc] at h
  exact h

theorem stripped_strip (p : Char → Bool) (s : Text) : Stripped p (strip p s) := by
  have hlast : ∀ c ∈ (strip p s).getLast?, p c = false := by
    intro c hc
    rw [strip, rstrip, List.getLast?_reverse] at hc
    exact head?_dropWhile hc
  refine ⟨?_, hlast⟩
  intro c hc
  -- the rest is what the text begins with when its front is stripped
  have hpre : strip p s <+: lstrip p s := by
    rw [strip, rstrip, ← List.reverse_suffix, List.reverse_reverse]
    exact List.dropWhile_suffix _
  obtain ⟨b, hb⟩ := hpre
  refine head?_dropWhile (s := s) ?_
  rw [← lstrip, ← hb, List.head?_append, hc]
  rfl

/-- A text with stripped ends is what `strip` leaves of it. -/
theorem strip_append {a b s : Text} (ha : ∀ c ∈ a, p c = true) (hb : ∀ c ∈ b, p c = true)
    (hs : Stripped p s) (hne : s ≠ []) : strip p (a ++ s ++ b) = s := by
  obtain ⟨x, t, rfl⟩ := List.exists_cons_of_ne_nil hne
  have hx : ¬ p x = true := by
    rw [hs.head x rfl]
    exact Bool.false_ne_true
  have hfront : lstrip p (a ++ (x :: t) ++ b) = x :: t ++ b := by
    rw [lstrip, List.append_assoc, List.dropWhile_append_of_pos ha, List.cons_append,
      List.dropWhile_cons_of_neg hx]
  rw [strip, hfront, rstrip, List.reverse_append,
    List.dropWhile_append_of_pos fun c hc => hb c (List.mem_reverse.mp hc)]
  cases hr : (x :: t).reverse with
  | nil => exact absurd hr (by simp)
  | cons y r =>
    have hlast : y ∈ (x :: t).getLast? := by
      rw [← List.head?_reverse, hr]
      rfl
    rw [List.dropWhile_cons_of_neg (by rw [hs.last y hlast]; exact Bool.false_ne_true), ← hr,
      List.reverse_reverse]

/-! ### partition -/

theorem partition_eq_append {c : Char} {s : Text} (h : c ∈ s) :
    s = (partition c s).1 ++ c :: (partition c s).2.2 := by
  induction s with
  | nil => exact absurd h List.not_mem_nil
  | cons x s ih =>
    rw [partition]
    by_cases hx : x = c
    · rw [if_pos hx, hx]
      rfl
    · rw [if_neg hx, List.cons_append, ← ih ((List.mem_cons.mp h).resolve_left (Ne.symm hx))]

/-- The text in front of the first separator, and the rest. -/
theorem exists_partition_fst (c : Char) (s : Text) :
    ∃ r, s = (partition c s).1 ++ r ∧ ∀ t : Text, c ∉ t → (partition c (t ++ r)).1 = t := by
  by_cases h : c ∈ s
  · refine ⟨c :: (partition c s).2.2, partition_eq_append h, ?_⟩
    intro t ht
    rw [partition_append ht]
  · refine ⟨[], by rw [partition_of_notMem h, List.append_nil], ?_⟩
    intro t ht
    rw [List.append_nil, partition_of_notMem ht]

end PyText
