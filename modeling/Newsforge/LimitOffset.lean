/-
Pagination by limit and offset (`apps/core/pagination.py`).

* `getLimit`, `getOffset`, `paginate` — one request;
* `follow` — a client that follows the `next` links of a list that stays as it is.

Main result: `follow_eq_take`, what such a client sees.
-/
import Newsforge.Paging

open Paging

namespace LimitOffset

variable {α : Type*}

/-- `MAX_OFFSET`. -/
def maxOffset : ℕ := 10000

/-- `max_limit`. -/
def maxLimit : ℕ := 100

/-- `PAGE_SIZE`. -/
def pageSize : ℕ := 50

/-- `get_limit`; `none` is a parameter that is missing or no number. -/
def getLimit : Option Int → ℕ
  | some n => if 0 < n then min n.toNat maxLimit else pageSize
  | none => pageSize

/-- `get_offset`; `none` is the validation error `{"offset": ["at most 10000"]}`. -/
def getOffset (offset : ℕ) : Option ℕ := if maxOffset < offset then none else some offset

/-- The answer to a request for a page. -/
structure Page (α : Type*) where
  count : ℕ
  /-- the offset in the `next` link -/
  next : Option ℕ
  results : List α

/-- `paginate_queryset` and `get_paginated_response`. -/
def paginate (limit offset : ℕ) (rows : List α) : Page α where
  count := rows.length
  next := if offset + limit < rows.length then some (offset + limit) else none
  results := page limit offset rows

theorem getLimit_pos (p : Option Int) : 0 < getLimit p := by
  cases p with
  | none => decide
  | some n =>
    rw [getLimit]
    split
    · show 0 < min n.toNat 100
      omega
    · decide

/-- The answer to a request for a page of `rows`. -/
def answer (limit : Option Int) (offset : ℕ) (rows : List α) : Option (Page α) :=
  (getOffset offset).map fun offset => paginate (getLimit limit) offset rows

variable {limit : Option Int} {rows : List α}

theorem answer_deep {offset : ℕ} (h : maxOffset < offset) : answer limit offset rows = none := by
  rw [answer, getOffset, if_pos h]
  rfl

theorem answer_of_le {offset : ℕ} (h : offset ≤ maxOffset) :
    answer limit offset rows = some (paginate (getLimit limit) offset rows) := by
  rw [answer, getOffset, if_neg (not_lt.mpr h)]
  rfl

theorem next_eq_some {offset next : ℕ} {p : Page α} (h : answer limit offset rows = some p)
    (hnext : p.next = some next) :
    next = offset + getLimit limit ∧ offset + getLimit limit < rows.length := by
  rcases lt_or_ge maxOffset offset with hdeep | hle
  · rw [answer_deep hdeep] at h
    cases h
  · rw [answer_of_le hle] at h
    cases h
    simp only [paginate] at hnext
    split at hnext
    · rename_i hmore
      cases hnext
      exact ⟨rfl, hmore⟩
    · cases hnext

/-- What a client sees that begins at `offset` and follows the `next` links, until there is
none, or the request is refused. -/
def follow (limit : Option Int) (rows : List α) (offset : ℕ) : List α :=
  match _hanswer : answer limit offset rows with
  | none => []
  | some p =>
    p.results ++
      match _hnext : p.next with
      | some next => follow limit rows next
      | none => []
termination_by rows.length - offset
decreasing_by
  have hpos := getLimit_pos limit
  obtain ⟨rfl, hmore⟩ := next_eq_some _hanswer _hnext
  omega

theorem follow_deep {offset : ℕ} (h : maxOffset < offset) : follow limit rows offset = [] := by
  rw [follow]
  split
  · rfl
  · rename_i p hp
    rw [answer_deep h] at hp
    cases hp

theorem follow_step {offset : ℕ} (h : offset ≤ maxOffset) :
    follow limit rows offset = page (getLimit limit) offset rows ++
      if offset + getLimit limit < rows.length then follow limit rows (offset + getLimit limit)
      else [] := by
  rw [follow]
  split
  · rename_i hnone
    rw [answer_of_le h] at hnone
    cases hnone
  · rename_i p hp
    have hpage := hp
    rw [answer_of_le h] at hpage
    cases hpage
    refine congrArg _ ?_
    split
    · rename_i next hnext
      obtain ⟨rfl, hmore⟩ := next_eq_some hp hnext
      rw [if_pos hmore]
    · rename_i hnext
      simp only [paginate] at hnext
      split at hnext
      · cases hnext
      · rename_i hend
        rw [if_neg hend]

/-- How many rows from `offset` on are on the pages that are not refused. -/
def reachable (limit : Option Int) (offset : ℕ) : ℕ :=
  if maxOffset < offset then 0
  else ((maxOffset - offset) / getLimit limit + 1) * getLimit limit

theorem reachable_step {offset : ℕ} (h : offset ≤ maxOffset) :
    reachable limit offset = getLimit limit + reachable limit (offset + getLimit limit) := by
  have hpos := getLimit_pos limit
  rw [reachable, reachable, if_neg (not_lt.mpr h)]
  split
  · rename_i hdeep
    rw [Nat.div_eq_of_lt (by omega)]
    omega
  · rename_i hmore
    have hsplit : maxOffset - offset = maxOffset - (offset + getLimit limit) + getLimit limit := by
      omega
    rw [hsplit, Nat.add_div_right _ hpos, Nat.succ_mul]
    omega

/-- From any offset on, a client sees all rows but those that no page shows. -/
theorem follow_eq_take_drop (offset : ℕ) :
    follow limit rows offset = (rows.drop offset).take (reachable limit offset) := by
  by_cases hdeep : maxOffset < offset
  · rw [follow_deep hdeep, reachable, if_pos hdeep, List.take_zero]
  · have hle := not_lt.mp hdeep
    have hpos := getLimit_pos limit
    rw [follow_step hle, reachable_step hle, List.take_add, List.drop_drop]
    congr 1
    split
    · exact follow_eq_take_drop (offset + getLimit limit)
    · rename_i hend
      rw [List.drop_of_length_le (not_lt.mp hend), List.take_nil]
termination_by rows.length - offset

/-- **A client that follows the links sees the list**, in order and every row once, as far as
the largest offset lets it. -/
theorem follow_eq_take :
    follow limit rows 0 = rows.take ((maxOffset / getLimit limit + 1) * getLimit limit) := by
  rw [follow_eq_take_drop, List.drop_zero, reachable, if_neg (Nat.not_lt_zero _), Nat.sub_zero]

end LimitOffset
