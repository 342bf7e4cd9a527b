/-
Database tables as lists of rows.

* `updateWhere p f` — `UPDATE … SET f WHERE p`;
* `put key x` — write a whole row under its primary key: replace the row that
  has the key, else insert it;
* `orderByDesc p` — `ORDER BY p DESC` for a boolean key `p`;
* `distinctCount` — `count(DISTINCT …)`;
* `Distinct clash` — a unique index: no two rows of the table clash.

`Distinct.updateWhere` and `Distinct.concat` say when an update or an insert
keeps a unique index; `mem_updateWhere` and `mem_put` say which rows a table
holds after a write.
-/
import Mathlib.Data.Finset.Card
import Mathlib.Data.Finset.Dedup
import Mathlib.Data.List.Basic
import Mathlib.Data.List.Pairwise
import Mathlib.Order.Defs.Unbundled
import Mathlib.Tactic.Common

namespace Tables

variable {α κ : Type*}

/-- A reading of the database clock (`now()`). -/
abbrev Time := Int

/-! ### Updates -/

/-- Apply `f` to the rows that meet `p`. -/
def updateWhere (p : α → Bool) (f : α → α) (rows : List α) : List α :=
  rows.map fun r => if p r then f r else r

theorem mem_updateWhere {p : α → Bool} {f : α → α} {rows : List α} {x : α} :
    x ∈ updateWhere p f rows ↔ ∃ r ∈ rows, x = if p r then f r else r := by
  simp only [updateWhere, List.mem_map, eq_comm]

theorem mem_updateWhere_of_not {p : α → Bool} {f : α → α} {rows : List α} {r : α}
    (hr : r ∈ rows) (hp : p r = false) : r ∈ updateWhere p f rows :=
  mem_updateWhere.mpr ⟨r, hr, by simp [hp]⟩

theorem mem_updateWhere_of {p : α → Bool} {f : α → α} {rows : List α} {r : α}
    (hr : r ∈ rows) (hp : p r = true) : f r ∈ updateWhere p f rows :=
  mem_updateWhere.mpr ⟨r, hr, by simp [hp]⟩

/-- Only what `p` says about the rows of the table matters. -/
theorem updateWhere_congr {p p' : α → Bool} {f : α → α} {rows : List α}
    (h : ∀ r ∈ rows, p r = p' r) : updateWhere p f rows = updateWhere p' f rows :=
  List.map_congr_left fun r hr => by rw [h r hr]

/-- An update of no row changes nothing. -/
theorem updateWhere_eq_self {p : α → Bool} {f : α → α} {rows : List α}
    (h : ∀ r ∈ rows, p r = false) : updateWhere p f rows = rows := by
  conv_rhs => rw [← List.map_id rows]
  exact List.map_congr_left fun r hr => by simp [h r hr]

/-- A column that `f` keeps in the rows it writes is unchanged in every row. -/
theorem map_updateWhere_of_mem {p : α → Bool} {f : α → α} {g : α → κ} {rows : List α}
    (hg : ∀ r ∈ rows, p r = true → g (f r) = g r) :
    (updateWhere p f rows).map g = rows.map g := by
  rw [updateWhere, List.map_map]
  refine List.map_congr_left fun r hr => ?_
  by_cases hp : p r = true
  · simp [hp, hg r hr hp]
  · simp [hp]

theorem map_updateWhere {p : α → Bool} {f : α → α} {g : α → κ} (hg : ∀ r, g (f r) = g r)
    (rows : List α) : (updateWhere p f rows).map g = rows.map g :=
  map_updateWhere_of_mem fun r _ _ => hg r

/-- A filter on columns that `f` keeps does not see the update. -/
theorem filter_updateWhere {p q : α → Bool} {f : α → α} {rows : List α}
    (hq : ∀ r ∈ rows, p r = true → q r = false ∧ q (f r) = false) :
    (updateWhere p f rows).filter q = rows.filter q := by
  induction rows with
  | nil => rfl
  | cons r rows ih =>
    have ih := ih fun r' hr' => hq r' (List.mem_cons_of_mem _ hr')
    rw [updateWhere] at ih ⊢
    rw [List.map_cons]
    by_cases hp : p r = true
    · obtain ⟨h1, h2⟩ := hq r List.mem_cons_self hp
      rw [if_pos hp, List.filter_cons_of_neg (by simp [h2]), List.filter_cons_of_neg (by simp [h1])]
      exact ih
    · rw [if_neg hp, List.filter_cons, List.filter_cons, ih]

/-! ### Rows by primary key -/

section Key

variable [DecidableEq κ] {key : α → κ}

/-- Write the row `x`: over the row with its key, or as a new row. -/
def put (key : α → κ) (x : α) (rows : List α) : List α :=
  if rows.any fun r => key r == key x then updateWhere (fun r => key r == key x) (fun _ => x) rows
  else rows ++ [x]

theorem mem_put {rows : List α} {x y : α} (h : y ∈ put key x rows) :
    y = x ∨ y ∈ rows ∧ key y ≠ key x := by
  rw [put] at h
  split at h
  · obtain ⟨r, hr, rfl⟩ := mem_updateWhere.mp h
    by_cases hk : key r = key x
    · exact .inl (by simp [hk])
    · exact .inr (by simp [hk, hr])
  · rename_i hno
    rcases List.mem_append.mp h with hy | hy
    · refine .inr ⟨hy, fun hk => hno ?_⟩
      exact List.any_eq_true.mpr ⟨y, hy, by simpa using hk⟩
    · exact .inl (List.mem_singleton.mp hy)

theorem mem_put_self (x : α) (rows : List α) : x ∈ put key x rows := by
  rw [put]
  split
  · rename_i hany
    obtain ⟨r, hr, hk⟩ := List.any_eq_true.mp hany
    exact mem_updateWhere_of (f := fun _ => x) hr hk
  · exact List.mem_append_right _ (List.mem_singleton_self x)

theorem mem_put_of_ne {rows : List α} {x y : α} (hy : y ∈ rows) (hk : key y ≠ key x) :
    y ∈ put key x rows := by
  rw [put]
  split
  · exact mem_updateWhere_of_not hy (by simpa using hk)
  · exact List.mem_append_left _ hy

/-- A write keeps the primary key. -/
theorem nodup_put {rows : List α} (h : (rows.map key).Nodup) (x : α) :
    ((put key x rows).map key).Nodup := by
  rw [put]
  split
  · have hmap : (updateWhere (fun r => key r == key x) (fun _ => x) rows).map key = rows.map key :=
      map_updateWhere_of_mem fun r _ hr => (eq_of_beq hr).symm
    rw [hmap]
    exact h
  · rename_i hno
    rw [List.map_append]
    refine List.nodup_append.mpr ⟨h, List.nodup_singleton _, ?_⟩
    rintro k hk k' hk' rfl
    obtain ⟨r, hr, rfl⟩ := List.mem_map.mp hk
    exact hno (List.any_eq_true.mpr ⟨r, hr, by simpa using hk'⟩)

/-- A filter by key that the written row does not meet does not see the write. -/
theorem filter_put {q : α → Bool} {rows : List α} {x : α}
    (hq : ∀ y, key y = key x → q y = false) : (put key x rows).filter q = rows.filter q := by
  rw [put]
  split
  · exact filter_updateWhere fun r _ hr => ⟨hq r (eq_of_beq hr), hq x rfl⟩
  · rw [List.filter_append, List.filter_singleton, hq x rfl]
    exact List.append_nil _

end Key

/-! ### Order by a boolean key -/

/-- `ORDER BY p DESC`: the rows that meet `p` come first. -/
def orderByDesc (p : α → Bool) (rows : List α) : List α :=
  rows.filter p ++ rows.filter fun r => !p r

theorem head?_orderByDesc {p : α → Bool} {rows : List α} {r : α}
    (h : (orderByDesc p rows).head? = some r) :
    r ∈ rows ∧ (p r = true ∨ ∀ x ∈ rows, p x = false) := by
  rw [orderByDesc] at h
  rcases hp : rows.filter p with _ | ⟨x, xs⟩
  · -- no row meets `p`
    rw [hp, List.nil_append] at h
    have hr := List.mem_filter.mp (List.mem_of_mem_head? h)
    refine ⟨hr.1, .inr fun x hx => ?_⟩
    by_contra hpx
    have hmem : x ∈ rows.filter p := List.mem_filter.mpr ⟨hx, by simpa using hpx⟩
    rw [hp] at hmem
    exact List.not_mem_nil hmem
  · have hx : x = r := by simpa [hp] using h
    have hr := List.mem_filter.mp (hp ▸ List.mem_cons_self : x ∈ rows.filter p)
    exact hx ▸ ⟨hr.1, .inl hr.2⟩

theorem head?_orderByDesc_isSome {p : α → Bool} {rows : List α} {r : α} (h : r ∈ rows) :
    ∃ x, (orderByDesc p rows).head? = some x := by
  have hmem : r ∈ orderByDesc p rows := by
    by_cases hp : p r <;> simp [orderByDesc, h, hp]
  rcases hl : orderByDesc p rows with _ | ⟨x, xs⟩
  · rw [hl] at hmem
    exact absurd hmem List.not_mem_nil
  · exact ⟨x, rfl⟩

/-! ### Distinct values -/

/-- `SELECT count(DISTINCT …)`. -/
def distinctCount [DecidableEq κ] (l : List κ) : ℕ := l.dedup.length

theorem distinctCount_le_length [DecidableEq κ] (l : List κ) : distinctCount l ≤ l.length :=
  (List.dedup_sublist l).length_le

theorem distinctCount_le_of_subset [DecidableEq κ] {l l' : List κ} (h : ∀ x ∈ l, x ∈ l') :
    distinctCount l ≤ distinctCount l' := by
  rw [distinctCount, distinctCount, ← List.card_toFinset, ← List.card_toFinset]
  exact Finset.card_le_card fun x hx => List.mem_toFinset.mpr (h x (List.mem_toFinset.mp hx))

/-- One more value. -/
theorem distinctCount_le_succ [DecidableEq κ] {l l' : List κ} {a : κ}
    (h : ∀ x ∈ l, x = a ∨ x ∈ l') : distinctCount l ≤ distinctCount l' + 1 := by
  have hcons : distinctCount l ≤ distinctCount (a :: l') :=
    distinctCount_le_of_subset fun x hx => List.mem_cons.mpr (h x hx)
  refine Nat.le_trans hcons ?_
  rw [distinctCount, distinctCount, ← List.card_toFinset, ← List.card_toFinset,
    List.toFinset_cons]
  exact Finset.card_insert_le _ _

/-! ### Unique indexes -/

/-- No two rows of the table clash. -/
def Distinct (clash : α → α → Prop) (rows : List α) : Prop :=
  rows.Pairwise fun a b => ¬ clash a b

instance {clash : α → α → Prop} [DecidableRel clash] (rows : List α) :
    Decidable (Distinct clash rows) :=
  inferInstanceAs (Decidable (rows.Pairwise fun a b => ¬ clash a b))

theorem Distinct.nil {clash : α → α → Prop} : Distinct clash [] := List.Pairwise.nil

/-- Two rows of the table that clash are one row. -/
theorem Distinct.eq_of_clash {clash : α → α → Prop} {rows : List α} {a b : α}
    (h : Distinct clash rows) (hsymm : ∀ a b, clash a b → clash b a)
    (ha : a ∈ rows) (hb : b ∈ rows) (hab : clash a b) : a = b := by
  by_contra hne
  rw [Distinct, List.pairwise_iff_getElem] at h
  obtain ⟨i, hi, rfl⟩ := List.getElem_of_mem ha
  obtain ⟨j, hj, rfl⟩ := List.getElem_of_mem hb
  rcases Nat.lt_trichotomy i j with hij | rfl | hij
  · exact h i j hi hj hij hab
  · exact hne rfl
  · exact h j i hj hi hij (hsymm _ _ hab)

/-- A row that clashes with none can be inserted. -/
theorem Distinct.concat {clash : α → α → Prop} {rows : List α} {x : α}
    (h : Distinct clash rows) (hx : ∀ r ∈ rows, ¬ clash r x) : Distinct clash (rows ++ [x]) := by
  refine List.pairwise_append.mpr ⟨h, List.pairwise_singleton _ _, ?_⟩
  intro r hr y hy
  rw [List.mem_singleton] at hy
  exact hy ▸ hx r hr

/-- Two indexes on one table are one index. -/
theorem Distinct.or {clash clash' : α → α → Prop} {rows : List α}
    (h : Distinct clash rows) (h' : Distinct clash' rows) :
    Distinct (fun a b => clash a b ∨ clash' a b) rows :=
  List.Pairwise.imp (fun hab => not_or.mpr hab) (List.Pairwise.and h h')

/-- An update keeps an index if rows that did not clash do not clash after it. -/
theorem Distinct.updateWhere {clash clash' : α → α → Prop} {rows : List α} {p : α → Bool}
    {f : α → α} (h : Distinct clash rows)
    (hclash : ∀ a ∈ rows, ∀ b ∈ rows, ¬ clash a b →
      ¬ clash' (if p a then f a else a) (if p b then f b else b)) :
    Distinct clash' (updateWhere p f rows) := by
  rw [Distinct, Tables.updateWhere, List.pairwise_map]
  exact List.Pairwise.imp_of_mem (fun ha hb hab => hclash _ ha _ hb hab) h

end Tables
