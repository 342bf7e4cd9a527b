/-
Machines that turn a stream of inputs into a stream of outputs.

* `Machine` — each input gives at most one output, fails, or comes behind the end;
* `run` — all of the output of some inputs, and how they ended;
* `feed` — the same with a limit for the outputs: it stops at the first output that
  there is no room for, and returns the inputs that are left.

Main results: `run_append`, `feed_run` and `feed_failed_iff`, feeding inputs piece by
piece gives the output of the whole.
-/
import Mathlib.Data.List.Basic
import Mathlib.Tactic.Common

namespace Transducer

/-- How some inputs ended: the machine wants more, has come to its end, or has
failed. -/
inductive Status
  | more
  | ended
  | failed
  deriving DecidableEq, Repr

structure Machine (σ ι ο ε : Type*) where
  step : σ → ι → Except ε (Option ο × σ)
  final : σ → Bool

variable {σ ι ο ε : Type*} (m : Machine σ ι ο ε)

/-- The output of some inputs, up to the end or a failure, and how they ended. -/
def run : σ → List ι → List ο × Status
  | s, [] => ([], if m.final s then .ended else .more)
  | s, i :: is =>
    if m.final s then ([], .ended)
    else
      match m.step s i with
      | .error _ => ([], .failed)
      | .ok (o, s') => (o.toList ++ (run s' is).1, (run s' is).2)

/-- At most `n` outputs, the state then, and the inputs that are left for want of
room: what gives no output is read without it. -/
def feed : σ → List ι → ℕ → Except ε (List ο × σ × List ι)
  | s, [], _ => .ok ([], s, [])
  | s, i :: is, n =>
    if m.final s then .ok ([], s, [])
    else
      match m.step s i with
      | .error e => .error e
      | .ok (o, s') =>
        if n < o.toList.length then .ok ([], s, i :: is)
        else (feed s' is (n - o.toList.length)).map fun r => (o.toList ++ r.1, r.2)

variable {m} {s s' : σ} {is js : List ι}

theorem run_final (h : m.final s = true) (is : List ι) : run m s is = ([], .ended) := by
  cases is with
  | nil => rw [run, if_pos h]
  | cons i is => rw [run, if_pos h]

/-- What is behind the inputs adds output, unless they have come to the end or
failed. -/
theorem run_append (m : Machine σ ι ο ε) (s : σ) (is js : List ι) :
    (run m s is).1 <+: (run m s (is ++ js)).1 ∧
      ((run m s is).2 ≠ .more → run m s (is ++ js) = run m s is) := by
  induction is generalizing s with
  | nil =>
    refine ⟨List.nil_prefix, ?_⟩
    intro hstop
    by_cases hfinal : m.final s = true
    · rw [List.nil_append, run_final hfinal, run_final hfinal]
    · rw [run, if_neg hfinal] at hstop
      exact absurd rfl hstop
  | cons i is ih =>
    rw [List.cons_append, run, run]
    by_cases hfinal : m.final s = true
    · rw [if_pos hfinal, if_pos hfinal]
      exact ⟨List.prefix_refl _, fun _ => rfl⟩
    · rw [if_neg hfinal, if_neg hfinal]
      cases m.step s i with
      | error e => exact ⟨List.prefix_refl _, fun _ => rfl⟩
      | ok r =>
        obtain ⟨o, s'⟩ := r
        obtain ⟨hbegins, hstop⟩ := ih s'
        refine ⟨(List.prefix_append_right_inj _).mpr hbegins, ?_⟩
        intro hne
        dsimp only at hne ⊢
        rw [hstop hne]

theorem length_toList_le {α : Type*} (o : Option α) : o.toList.length ≤ 1 := by
  cases o with
  | none => exact Nat.zero_le _
  | some _ => exact Nat.le_refl _

/-- **Feeding is running**: behind what it has used, the machine goes on from the
state it is left in.  It returns fewer outputs than it may only if it has used all of
its inputs. -/
theorem feed_run {n : ℕ} {out : List ο} {rest : List ι} (h : feed m s is n = .ok (out, s', rest)) :
    rest <:+ is ∧ out.length ≤ n ∧ (rest ≠ [] → out.length = n) ∧
      ∀ used, is = used ++ rest → ∀ js,
        run m s (used ++ js) = (out ++ (run m s' js).1, (run m s' js).2) := by
  induction is generalizing s n out rest with
  | nil =>
    cases h
    refine ⟨List.suffix_refl _, Nat.zero_le _, fun hne => absurd rfl hne, ?_⟩
    intro used hused js
    obtain rfl : used = [] := by simpa using hused.symm
    rfl
  | cons i is ih =>
    rw [feed] at h
    by_cases hfinal : m.final s = true
    · rw [if_pos hfinal] at h
      cases h
      refine ⟨List.nil_suffix, Nat.zero_le _, fun hne => absurd rfl hne, ?_⟩
      intro used _ js
      rw [run_final hfinal, run_final hfinal, List.append_nil]
    · rw [if_neg hfinal] at h
      cases hstep : m.step s i with
      | error e => simp [hstep] at h
      | ok r =>
        obtain ⟨o, s₁⟩ := r
        simp only [hstep] at h
        have ho := length_toList_le o
        split at h
        · rename_i hroom
          cases h
          refine ⟨List.suffix_refl _, Nat.zero_le _, fun _ => ?_, ?_⟩
          · rw [List.length_nil]
            omega
          · intro used hused js
            obtain rfl : used = [] := by simpa using hused.symm
            rfl
        · rename_i hroom
          cases hfeed : feed m s₁ is (n - o.toList.length) with
          | error e => simp [hfeed, Except.map] at h
          | ok r =>
            obtain ⟨out₁, s₂, rest₁⟩ := r
            simp only [hfeed, Except.map, Except.ok.injEq, Prod.mk.injEq] at h
            obtain ⟨rfl, rfl, rfl⟩ := h
            obtain ⟨hsuffix, hle, hfull, hrun⟩ := ih hfeed
            refine ⟨hsuffix.trans (List.suffix_cons i is), ?_, ?_, ?_⟩
            · rw [List.length_append]
              omega
            · intro hne
              rw [List.length_append, hfull hne]
              omega
            · intro used hused js
              obtain ⟨used₁, hused₁⟩ := hsuffix
              have hcons : used = i :: used₁ := by
                rw [← hused₁, ← List.cons_append] at hused
                exact (List.append_cancel_right hused).symm
              rw [hcons, List.cons_append, run, if_neg hfinal, hstep]
              simp only [hrun used₁ hused₁.symm js, List.append_assoc]

/-- **Feeding fails** exactly if the inputs fail, with no more outputs in front of it
than there is room for. -/
theorem feed_failed_iff {n : ℕ} :
    (∃ e, feed m s is n = .error e) ↔ (run m s is).2 = .failed ∧ (run m s is).1.length ≤ n := by
  induction is generalizing s n with
  | nil =>
    refine iff_of_false ?_ ?_
    · rintro ⟨e, he⟩
      cases he
    · rintro ⟨hfailed, -⟩
      rw [run] at hfailed
      split at hfailed <;> cases hfailed
  | cons i is ih =>
    rw [feed, run]
    by_cases hfinal : m.final s = true
    · rw [if_pos hfinal, if_pos hfinal]
      simp
    · rw [if_neg hfinal, if_neg hfinal]
      cases m.step s i with
      | error e => exact iff_of_true ⟨e, rfl⟩ ⟨rfl, Nat.zero_le n⟩
      | ok r =>
        obtain ⟨o, s₁⟩ := r
        simp only [List.length_append]
        have hih := ih (s := s₁) (n := n - o.toList.length)
        split
        · rename_i hroom
          refine iff_of_false ?_ (fun h => by omega)
          rintro ⟨e, he⟩
          cases he
        · rename_i hroom
          have hmap : (∃ e, (feed m s₁ is (n - o.toList.length)).map
              (fun r => (o.toList ++ r.1, r.2)) = .error e) ↔
                ∃ e, feed m s₁ is (n - o.toList.length) = .error e := by
            cases feed m s₁ is (n - o.toList.length) with
            | error e => exact iff_of_true ⟨e, rfl⟩ ⟨e, rfl⟩
            | ok r =>
              refine iff_of_false ?_ ?_ <;> rintro ⟨e, he⟩ <;> cases he
          rw [hmap, hih]
          exact and_congr_right fun _ => by omega

end Transducer
