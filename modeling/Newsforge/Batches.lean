/-
Rows that are served in batches, the first ones in some order first.

* `length_take_of_notMem` — a row of a sorted list that is not in the batch has a whole
  batch in front of it;
* `countP_updateWhere_add_le` — rows that an update takes out of a count;
* `countP_put_le` — a write that puts no row into it;
* `mem_of_short_sample` — a sample that is smaller than it may be leaves nothing out;
* `countP_mem_keys` — how many rows a list of keys names.

A row that waits is served once the count of those in front of it is used up.
-/
import Newsforge.Tables

open Tables

namespace Batches

variable {α κ τ : Type*}

/-- Everything in a batch stands in front of what is behind it. -/
theorem le_of_mem_take [Preorder τ] {due : α → τ} {l : List α} {n : ℕ} {x y : α}
    (h : l.Pairwise fun a b => due a ≤ due b) (hx : x ∈ l) (hno : x ∉ l.take n)
    (hy : y ∈ l.take n) : due y ≤ due x := by
  rw [← List.take_append_drop n l] at h hx
  have hdrop : x ∈ l.drop n := (List.mem_append.mp hx).resolve_left hno
  exact (List.pairwise_append.mp h).2.2 y hy x hdrop

/-- The batch is full if something is not in it. -/
theorem length_take_of_notMem {l : List α} {n : ℕ} {x : α} (hx : x ∈ l) (hno : x ∉ l.take n) :
    (l.take n).length = n := by
  rw [List.length_take]
  refine Nat.min_eq_left ?_
  by_contra hlt
  exact hno (by rwa [List.take_of_length_le (Nat.le_of_not_le hlt)])

/-- **An update that takes rows out of a count.** -/
theorem countP_updateWhere_add_le {p q : α → Bool} {f : α → α} {rows taken : List α}
    (hf : ∀ r ∈ rows, q r = true → p (f r) = false) (hnodup : taken.Nodup)
    (htaken : ∀ r ∈ taken, r ∈ rows ∧ p r = true ∧ q r = true) :
    (updateWhere q f rows).countP p + taken.length ≤ rows.countP p := by
  have hafter : (updateWhere q f rows).countP p = rows.countP fun r => p r && !q r := by
    rw [updateWhere, List.countP_map]
    refine List.countP_congr fun r hr => ?_
    by_cases hq : q r = true
    · simp [hq, hf r hr hq]
    · simp [hq]
  have hsplit : (rows.countP fun r => p r && q r) + (rows.countP fun r => p r && !q r) =
      rows.countP p := by
    clear hf htaken hafter
    induction rows with
    | nil => rfl
    | cons r rows ih =>
      simp only [List.countP_cons]
      cases p r <;> cases q r <;> simp <;> omega
  have hle : taken.length ≤ rows.countP fun r => p r && q r := by
    rw [List.countP_eq_length_filter]
    refine (List.subperm_of_subset hnodup fun r hr => ?_).length_le
    obtain ⟨hrow, hp, hq⟩ := htaken r hr
    exact List.mem_filter.mpr ⟨hrow, by simp [hp, hq]⟩
  omega

/-- A write of a row that is not counted, or that was counted before. -/
theorem countP_put_le [DecidableEq κ] {key : α → κ} {p : α → Bool} {x : α} {rows : List α}
    (hx : p x = true → ∃ r ∈ rows, key r = key x)
    (hold : p x = true → ∀ r ∈ rows, key r = key x → p r = true) :
    (put key x rows).countP p ≤ rows.countP p := by
  rw [put]
  split
  · rw [updateWhere, List.countP_map]
    refine List.countP_mono_left fun r hr hp => ?_
    simp only [Function.comp_apply] at hp
    by_cases hk : key r = key x
    · simp only [hk, beq_self_eq_true, if_true] at hp
      exact hold hp r hr hk
    · simpa [hk] using hp
  · rename_i hno
    rw [List.countP_append]
    cases hp : p x with
    | false => simp [hp]
    | true =>
      obtain ⟨r, hr, hk⟩ := hx hp
      exact absurd (List.any_eq_true.mpr ⟨r, hr, by simpa using hk⟩) hno

/-! ### Samples -/

/-- **A sample that is not full is everything.** -/
theorem mem_of_short_sample {l sample : List α} {n : ℕ} (hnodup : sample.Nodup)
    (hsub : ∀ x ∈ sample, x ∈ l) (hlength : sample.length = min n l.length)
    (hshort : sample.length < n) : ∀ x ∈ l, x ∈ sample := by
  have hle : l.length ≤ sample.length := by omega
  have hperm : sample.Perm l := (List.subperm_of_subset hnodup hsub).perm_of_length_le hle
  exact fun x hx => hperm.mem_iff.mpr hx

/-- Keys that are all in the table name as many rows as there are keys. -/
theorem countP_mem_keys [DecidableEq κ] {key : α → κ} {rows : List α} {keys : List κ}
    (hrows : (rows.map key).Nodup) (hkeys : keys.Nodup) (hin : ∀ k ∈ keys, k ∈ rows.map key) :
    rows.countP (fun r => decide (key r ∈ keys)) = keys.length := by
  have hperm : ((rows.map key).filter fun k => decide (k ∈ keys)).Perm keys := by
    refine (List.perm_ext_iff_of_nodup (hrows.filter _) hkeys).mpr fun k => ?_
    rw [List.mem_filter, decide_eq_true_eq]
    exact ⟨fun h => h.2, fun h => ⟨hin k h, h⟩⟩
  rw [← hperm.length_eq, ← List.countP_eq_length_filter, List.countP_map]
  rfl

end Batches
