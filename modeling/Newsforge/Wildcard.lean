/-
Texts that are put together from parts with gaps.

* `spread` — each part behind a gap;
* `Fits` — the parts fit into a text, and what is left behind them.

A leftmost search loses nothing: `Fits.of_suffix` moves the parts to an earlier
start, and `Fits.snoc` splits off the last one, which an anchored pattern looks
for at the end.
-/
import Mathlib.Data.List.Basic
import Mathlib.Tactic.Common

namespace Wildcard

variable {α : Type*}

/-- Each part behind a gap. -/
def spread (gaps parts : List (List α)) : List α := (List.zipWith (· ++ ·) gaps parts).flatten

/-- The parts fit into `s` one behind the other, with `t` left behind the last. -/
def Fits (parts : List (List α)) (s t : List α) : Prop :=
  ∃ gaps : List (List α), gaps.length = parts.length ∧ s = spread gaps parts ++ t

variable {p s t : List α} {ps : List (List α)}

theorem fits_nil : Fits [] s t ↔ s = t := by
  constructor
  · rintro ⟨gaps, hlen, rfl⟩
    rw [List.length_nil, List.length_eq_zero_iff] at hlen
    subst hlen
    rfl
  · rintro rfl
    exact ⟨[], rfl, rfl⟩

theorem fits_cons : Fits (p :: ps) s t ↔ ∃ g s', s = g ++ (p ++ s') ∧ Fits ps s' t := by
  constructor
  · rintro ⟨gaps, hlen, rfl⟩
    cases gaps with
    | nil => simp at hlen
    | cons g gaps =>
      refine ⟨g, spread gaps ps ++ t, ?_, gaps, by simpa using hlen, rfl⟩
      simp [spread]
  · rintro ⟨g, s', rfl, gaps, hlen, rfl⟩
    refine ⟨g :: gaps, by simpa using hlen, ?_⟩
    simp [spread]

/-- Parts that fit into the end of a text fit into the text, with at least as much
left behind them. -/
theorem Fits.of_suffix {s' : List α} (h : Fits ps s t) (hs : s <:+ s') :
    ∃ t', t <:+ t' ∧ Fits ps s' t' := by
  cases ps with
  | nil => exact ⟨s', fits_nil.mp h ▸ hs, fits_nil.mpr rfl⟩
  | cons p ps =>
    obtain ⟨g, s₁, rfl, hrest⟩ := fits_cons.mp h
    obtain ⟨x, rfl⟩ := hs
    -- the first gap takes what stands in front
    exact ⟨t, List.suffix_refl t, fits_cons.mpr ⟨x ++ g, s₁, by simp, hrest⟩⟩

/-- The last part, behind the others. -/
theorem Fits.snoc : Fits (ps ++ [p]) s t ↔ ∃ s', Fits ps s s' ∧ ∃ g, s' = g ++ (p ++ t) := by
  induction ps generalizing s with
  | nil =>
    rw [List.nil_append, fits_cons]
    constructor
    · rintro ⟨g, s', rfl, hs'⟩
      exact ⟨_, fits_nil.mpr rfl, g, by rw [fits_nil.mp hs']⟩
    · rintro ⟨s', hs', g, rfl⟩
      exact ⟨g, t, fits_nil.mp hs', fits_nil.mpr rfl⟩
  | cons q ps ih =>
    rw [List.cons_append, fits_cons]
    constructor
    · rintro ⟨g, s₁, rfl, h⟩
      obtain ⟨s', hfits, g', hs'⟩ := ih.mp h
      exact ⟨s', fits_cons.mpr ⟨g, s₁, rfl, hfits⟩, g', hs'⟩
    · rintro ⟨s', hfits, g', hs'⟩
      obtain ⟨g, s₁, rfl, hrest⟩ := fits_cons.mp hfits
      exact ⟨g, s₁, rfl, ih.mpr ⟨s', hrest, g', hs'⟩⟩

end Wildcard
