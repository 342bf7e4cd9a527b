/-
Pages of an ordered list.

* `orderBy`, `page` — `ORDER BY key DESC` and `LIMIT … OFFSET …`;
* `orderBy_page` — a page that is ordered again stays as it is;
* `orderBy_eq_of_perm` — with distinct keys only one order is possible;
* `flatten_pages` — pages one after another are the beginning of the list;
* `mem_page_or_drop`, `mem_drop_of_sublist` — what is still to come, also while the list
  grows; `orderBy_sublist` — new rows let it grow.
-/
import Mathlib.Data.List.Sort
import Mathlib.Data.Prod.Lex

namespace Paging

variable {α β κ : Type*}

/-- `LIMIT limit OFFSET offset`. -/
def page (limit offset : ℕ) (rows : List α) : List α := (rows.drop offset).take limit

theorem page_nil (limit offset : ℕ) : page limit offset ([] : List α) = [] := by
  simp [page]

theorem page_sublist (limit offset : ℕ) (rows : List α) : (page limit offset rows).Sublist rows :=
  (List.take_sublist _ _).trans (List.drop_sublist _ _)

theorem map_page (f : α → β) (limit offset : ℕ) (rows : List α) :
    (page limit offset rows).map f = page limit offset (rows.map f) := by
  rw [page, page, List.map_take, List.map_drop]

/-- A page of at least one row is empty only behind the end of the list. -/
theorem page_eq_nil_iff {limit offset : ℕ} (hlimit : 0 < limit) {rows : List α} :
    page limit offset rows = [] ↔ rows.length ≤ offset := by
  rw [page, List.take_eq_nil_iff, List.drop_eq_nil_iff]
  omega

/-- Pages of equal size, one after another. -/
theorem flatten_pages (limit n : ℕ) (rows : List α) :
    ((List.range n).map fun k => page limit (k * limit) rows).flatten = rows.take (n * limit) := by
  induction n with
  | zero => simp
  | succ n ih =>
    rw [List.range_succ, List.map_append, List.flatten_append, ih, Nat.succ_mul, List.take_add]
    simp [page]

/-- What is still to come is on the page, or behind it. -/
theorem mem_page_or_drop (limit : ℕ) {offset : ℕ} {rows : List α} {x : α}
    (h : x ∈ rows.drop offset) : x ∈ page limit offset rows ∨ x ∈ rows.drop (offset + limit) := by
  rw [← List.take_append_drop limit (rows.drop offset), List.drop_drop, List.mem_append] at h
  exact h

/-- New rows push back what is still to come. -/
theorem mem_drop_of_sublist {rows rows' : List α} (h : rows.Sublist rows') {n : ℕ} {x : α}
    (hx : x ∈ rows.drop n) : x ∈ rows'.drop n :=
  (h.drop n).subset hx

variable [LinearOrder κ]

/-- `ORDER BY key DESC`. -/
def orderBy (key : α → κ) (rows : List α) : List α :=
  rows.mergeSort fun a b => decide (key b ≤ key a)

theorem orderBy_perm (key : α → κ) (rows : List α) : (orderBy key rows).Perm rows :=
  List.mergeSort_perm _ _

@[simp] theorem orderBy_eq_nil_iff {key : α → κ} {rows : List α} :
    orderBy key rows = [] ↔ rows = [] := by
  rw [← List.length_eq_zero_iff, (orderBy_perm key rows).length_eq, List.length_eq_zero_iff]

theorem orderBy_pairwise (key : α → κ) (rows : List α) :
    (orderBy key rows).Pairwise fun a b => key b ≤ key a := by
  have h := @List.pairwise_mergeSort α (fun a b => decide (key b ≤ key a))
    (fun a b c hab hbc => by
      rw [decide_eq_true_iff] at hab hbc ⊢
      exact hbc.trans hab)
    (fun a b => by
      rw [Bool.or_eq_true, decide_eq_true_iff, decide_eq_true_iff]
      exact le_total _ _) rows
  exact h.imp fun hab => of_decide_eq_true hab

/-- What is in order stays as it is. -/
theorem orderBy_of_pairwise {key : α → κ} {rows : List α}
    (h : rows.Pairwise fun a b => key b ≤ key a) : orderBy key rows = rows :=
  List.mergeSort_of_pairwise (h.imp fun hab => decide_eq_true hab)

theorem orderBy_page (key : α → κ) (limit offset : ℕ) (rows : List α) :
    orderBy key (page limit offset (orderBy key rows)) = page limit offset (orderBy key rows) :=
  orderBy_of_pairwise ((orderBy_pairwise key rows).sublist (page_sublist _ _ _))

/-- Columns that the key does not look at may be added before or after. -/
theorem map_orderBy {key : α → κ} {k : β → κ} {f : α → β} (hkey : ∀ a, k (f a) = key a)
    (rows : List α) : (orderBy key rows).map f = orderBy k (rows.map f) :=
  List.map_mergeSort fun a _ b _ => by rw [hkey, hkey]

/-- With distinct keys, it makes no difference in what order the rows were found. -/
theorem orderBy_eq_of_perm {key : α → κ} {rows rows' : List α} (hperm : rows.Perm rows')
    (hkey : ∀ a ∈ rows, ∀ b ∈ rows, key a = key b → a = b) : orderBy key rows = orderBy key rows' := by
  refine ((orderBy_perm key rows).trans (hperm.trans (orderBy_perm key rows').symm)).eq_of_pairwise
    (fun a b ha hb hab hba => ?_) (orderBy_pairwise key rows) (orderBy_pairwise key rows')
  exact hkey a ((orderBy_perm key rows).mem_iff.mp ha) b
    (hperm.mem_iff.mpr ((orderBy_perm key rows').mem_iff.mp hb)) (le_antisymm hba hab)

end Paging
