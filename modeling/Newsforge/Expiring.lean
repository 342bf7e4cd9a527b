/-
Key-value stores whose entries expire.

* `Store` — the value of each key, and the time from which on it is gone;
* `get`, `set`, `setNx`, `delete` — the commands; `setNx` writes only where `get` finds
  nothing;
* `Apart gap` — times, the latest first, with at least `gap` between any two.

`setNx` writes exactly where nothing is found (`setNx_eq_true`), so with one time to live
the times of its successes are `Apart`, and `Apart.length_le` counts those of a stretch.
-/
import Mathlib.Algebra.Order.Group.Int
import Mathlib.Data.List.Pairwise
import Mathlib.Logic.Function.Basic
import Mathlib.Tactic.Common
import Mathlib.Tactic.Ring

namespace Expiring

variable {κ ν τ : Type*}

/-- Each key with its value, and the time from which on it is gone. -/
abbrev Store (κ ν τ : Type*) := κ → Option (ν × τ)

section

variable [LinearOrder τ]

/-- `GET`. -/
def get (now : τ) (k : κ) (s : Store κ ν τ) : Option ν :=
  (s k).bind fun e => if now < e.2 then some e.1 else none

variable [DecidableEq κ]

/-- `SET … EX`. -/
def set (k : κ) (v : ν) (expires : τ) (s : Store κ ν τ) : Store κ ν τ :=
  Function.update s k (some (v, expires))

/-- `SET … NX EX`: whether the key was set. -/
def setNx (now : τ) (k : κ) (v : ν) (expires : τ) (s : Store κ ν τ) : Bool × Store κ ν τ :=
  if (get now k s).isSome then (false, s) else (true, set k v expires s)

/-- `DEL`. -/
def delete (k : κ) (s : Store κ ν τ) : Store κ ν τ := Function.update s k none

end

section

variable [DecidableEq κ] {k k' : κ} {v : ν} {expires : τ} {s : Store κ ν τ}

@[simp] theorem set_self : set k v expires s k = some (v, expires) := Function.update_self ..

@[simp] theorem set_of_ne (h : k' ≠ k) : set k v expires s k' = s k' := Function.update_of_ne h ..

@[simp] theorem delete_self : delete k s k = none := Function.update_self ..

@[simp] theorem delete_of_ne (h : k' ≠ k) : delete k s k' = s k' := Function.update_of_ne h ..

end

section

variable [LinearOrder τ] {now : τ} {k : κ} {v : ν} {expires : τ} {s : Store κ ν τ}

theorem get_eq_some : get now k s = some v ↔ ∃ e, s k = some (v, e) ∧ now < e := by
  rw [get, Option.bind_eq_some_iff]
  constructor
  · rintro ⟨⟨w, e⟩, hk, h⟩
    rw [Option.ite_none_right_eq_some, Option.some_inj] at h
    obtain ⟨hlt, rfl⟩ := h
    exact ⟨e, hk, hlt⟩
  · rintro ⟨e, hk, hlt⟩
    exact ⟨(v, e), hk, if_pos hlt⟩

theorem get_eq_none : get now k s = none ↔ ∀ v e, s k = some (v, e) → e ≤ now := by
  constructor
  · intro h v e hk
    by_contra hlt
    have hsome : get now k s = some v := get_eq_some.mpr ⟨e, hk, not_le.mp hlt⟩
    rw [h] at hsome
    cases hsome
  · intro h
    rw [Option.eq_none_iff_forall_ne_some]
    intro v hv
    obtain ⟨e, hk, hlt⟩ := get_eq_some.mp hv
    exact absurd (h v e hk) (not_le.mpr hlt)

variable [DecidableEq κ]

/-- A key is set exactly where nothing is found. -/
theorem setNx_eq_true {s' : Store κ ν τ} :
    setNx now k v expires s = (true, s') ↔ get now k s = none ∧ s' = set k v expires s := by
  rw [setNx]
  cases hget : get now k s with
  | some w => simp
  | none => simp [eq_comm]

end

/-! ### Times that are apart -/

/-- The times, the latest first, are at least `gap` apart. -/
def Apart (gap : Int) (times : List Int) : Prop :=
  times.Pairwise fun later earlier => earlier + gap ≤ later

/-- One more time, far enough behind the last one. -/
theorem Apart.cons {gap t : Int} {times : List Int} (h : Apart gap times)
    (hlast : ∀ u ∈ times, u + gap ≤ t) : Apart gap (t :: times) :=
  List.pairwise_cons.mpr ⟨hlast, h⟩

/-- **Few times fit into a stretch**: `n` of them take at least `n - 1` gaps. -/
theorem Apart.length_le {gap a b : Int} {times : List Int} (h : Apart gap times)
    (hin : ∀ t ∈ times, a ≤ t ∧ t ≤ b) (hne : times ≠ []) : (times.length - 1) * gap ≤ b - a := by
  induction times generalizing b with
  | nil => exact absurd rfl hne
  | cons t times ih =>
    obtain ⟨hlast, hrest⟩ := List.pairwise_cons.mp h
    have ht := hin t List.mem_cons_self
    cases times with
    | nil =>
      simp only [List.length_cons, List.length_nil]
      omega
    | cons u times =>
      -- the earlier times end one gap before `t`
      have hbefore : ∀ v ∈ u :: times, a ≤ v ∧ v ≤ t - gap := fun v hv =>
        ⟨(hin v (List.mem_cons_of_mem _ hv)).1, by have := hlast v hv; omega⟩
      have ih := ih hrest hbefore (by simp)
      simp only [List.length_cons] at ih ⊢
      push_cast at ih ⊢
      have hsplit : ((times.length : Int) + 1 + 1 - 1) * gap =
          ((times.length : Int) + 1 - 1) * gap + gap := by ring
      rw [hsplit]
      omega

end Expiring
