/-
Half-open windows that follow each other on a line.

* `Window`, `Window.Contains` — `since` is outside, `upTo` is inside;
* `Consecutive` — a list of windows, the newest first, each of which begins
  where the one before it ended.

`Consecutive.covers` — nothing behind the start of the oldest window is lost;
`Consecutive.not_contains` — nothing is in two of them.
-/
import Mathlib.Data.List.Chain
import Mathlib.Order.Lattice
import Mathlib.Tactic.Common

namespace Windows

/-- The points after `since`, up to `upTo`. -/
structure Window (α : Type*) where
  since : α
  upTo : α
  deriving DecidableEq, Repr

variable {α : Type*} [LinearOrder α]

def Window.Contains (w : Window α) (x : α) : Prop := w.since < x ∧ x ≤ w.upTo

instance (w : Window α) (x : α) : Decidable (w.Contains x) :=
  inferInstanceAs (Decidable (_ ∧ _))

/-- Each window begins where the one before it ended, and none goes back. -/
def Consecutive (ws : List (Window α)) : Prop :=
  ws.IsChain fun w v => w.since = v.upTo ∧ v.upTo ≤ w.upTo

variable {ws : List (Window α)} {w v : Window α} {x : α}

theorem Consecutive.nil : Consecutive ([] : List (Window α)) := List.IsChain.nil

theorem Consecutive.tail (h : Consecutive (w :: ws)) : Consecutive ws :=
  (List.isChain_cons.mp h).2

/-- One window more, from where the newest one ended. -/
theorem Consecutive.cons (h : Consecutive ws)
    (hlink : ∀ v ∈ ws.head?, w.since = v.upTo ∧ v.upTo ≤ w.upTo) : Consecutive (w :: ws) :=
  List.isChain_cons.mpr ⟨hlink, h⟩

theorem Consecutive.since_le_upTo (h : Consecutive (w :: v :: ws)) : w.since ≤ w.upTo := by
  obtain ⟨hlink, -⟩ := List.isChain_cons_cons.mp h
  rw [hlink.1]
  exact hlink.2

/-- An older window ended before the newest one began. -/
theorem Consecutive.upTo_le_since (h : Consecutive (w :: ws)) (hv : v ∈ ws) :
    v.upTo ≤ w.since := by
  induction ws generalizing w with
  | nil => cases hv
  | cons u ws ih =>
    obtain ⟨hlink, htail⟩ := List.isChain_cons_cons.mp h
    rw [hlink.1]
    rcases List.mem_cons.mp hv with rfl | hv
    · exact le_refl _
    · -- `u` is not the oldest window, so it did not go back
      obtain ⟨u', ws', rfl⟩ := List.exists_cons_of_ne_nil (List.ne_nil_of_mem hv)
      exact (ih htail hv).trans (Consecutive.since_le_upTo htail)

/-- A point of an older window is not in the newest one. -/
theorem Consecutive.not_contains (h : Consecutive (w :: ws)) (hv : v ∈ ws) (hx : v.Contains x) :
    ¬ w.Contains x := by
  intro hw
  exact absurd hw.1 (not_lt.mpr (hx.2.trans (h.upTo_le_since hv)))

/-- **Windows that follow each other leave no gap.**  A point behind the start
of the oldest window, and not behind the end of some window, is in a window. -/
theorem Consecutive.covers (h : Consecutive ws) (hfirst : ws.getLast? = some w)
    (hlo : w.since < x) (hv : v ∈ ws) (hhi : x ≤ v.upTo) : ∃ u ∈ ws, u.Contains x := by
  induction ws generalizing v with
  | nil => cases hv
  | cons u ws ih =>
    cases ws with
    | nil =>
      -- one window: it is the oldest and the newest
      rw [List.getLast?_singleton, Option.some_inj] at hfirst
      rw [List.mem_singleton] at hv
      subst hfirst hv
      exact ⟨v, List.mem_cons_self, hlo, hhi⟩
    | cons u' ws =>
      rw [List.getLast?_cons_cons] at hfirst
      obtain ⟨hlink, htail⟩ := List.isChain_cons_cons.mp h
      have htail_cover : ∀ y ∈ u' :: ws, x ≤ y.upTo → ∃ z ∈ u :: u' :: ws, z.Contains x := by
        intro y hy hxy
        obtain ⟨z, hz, hzx⟩ := ih htail hfirst hy hxy
        exact ⟨z, List.mem_cons_of_mem _ hz, hzx⟩
      rcases List.mem_cons.mp hv with rfl | hv
      · -- the newest window, or one that ended before it began
        by_cases hx : v.since < x
        · exact ⟨v, List.mem_cons_self, hx, hhi⟩
        · exact htail_cover u' List.mem_cons_self (hlink.1 ▸ not_lt.mp hx)
      · exact htail_cover v hv hhi

end Windows
