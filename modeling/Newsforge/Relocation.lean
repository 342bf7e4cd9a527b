/-
Rows that move to better places, one after another.

A partial function `κ` names a better place for some places.  The rows of a table stand
at different places, and are visited once each, in any order: a row moves to the better
place of its own, unless another row holds that place at the moment.

* `Moves`, `Held` — a better place is another one; some row is there;
* `visit`, `relocate` — one row, and all of them in order;
* `visit_cases` — what a visit can do, said once;
* `relocate_apart`, `relocate_value` — rows stay apart, and each stays or moves once;
* `Anchored`, `Exits` — rows that never move, and rows that can be made to move.

Main result: `settles_iff`.  Every order leaves only rows whose better place is held,
exactly if the chains of better places of the first table are of a certain form.
-/
import Mathlib.Data.List.Nodup
import Mathlib.Logic.Function.Basic
import Mathlib.Logic.Relation
import Mathlib.Tactic.Common

open Relation

namespace Relocation

variable {ι α : Type*} (κ : α → Option α) (rows : List ι) {order : List ι} {f : ι → α}
  {i j k : ι} {a b c d : α}

/-! ### The loop -/

/-- `b` is a better place than `a`. -/
def Moves (a b : α) : Prop := κ a = some b ∧ b ≠ a

/-- Some row is at `c`. -/
def Held (f : ι → α) (c : α) : Prop := ∃ i ∈ rows, f i = c

/-- The rows are at different places. -/
def Apart (f : ι → α) : Prop := ∀ i ∈ rows, ∀ j ∈ rows, f i = f j → i = j

/-- Who has a better place stays only because somebody is there. -/
def Settles (f : ι → α) : Prop := ∀ i ∈ rows, ∀ c, Moves κ (f i) c → Held rows f c

/-- The place and all places behind it, better and better, are held. -/
def Anchored (f : ι → α) (c : α) : Prop := ∀ b, ReflTransGen (Moves κ) c b → Held rows f b

variable {κ rows}

theorem Moves.unique (h : Moves κ a b) (h' : Moves κ a c) : b = c :=
  Option.some.inj (h.1.symm.trans h'.1)

theorem Anchored.held (h : Anchored κ rows f c) : Held rows f c := h c .refl

theorem Anchored.moves (h : Anchored κ rows f c) (hd : Moves κ c d) : Anchored κ rows f d :=
  fun b hb => h b (hb.head hd)

theorem anchored_of_moves (hc : Held rows f c) (h : ∀ d, Moves κ c d → Anchored κ rows f d) :
    Anchored κ rows f c := by
  intro b hb
  obtain rfl | ⟨d, hd, hdb⟩ := hb.cases_head
  · exact hc
  · exact h d hd b hdb

variable (κ rows) [DecidableEq ι] [DecidableEq α]

instance : Decidable (Moves κ a b) := inferInstanceAs (Decidable (κ a = some b ∧ b ≠ a))

instance : Decidable (Held rows f c) := inferInstanceAs (Decidable (∃ i ∈ rows, f i = c))

/-- The row `i` moves, if it has a better place and nobody is there. -/
def visit (f : ι → α) (i : ι) : ι → α :=
  match κ (f i) with
  | none => f
  | some c => if c ≠ f i ∧ ¬ Held rows f c then Function.update f i c else f

/-- The rows are visited in this order. -/
def relocate (order : List ι) (f : ι → α) : ι → α := order.foldl (visit κ rows) f

variable {κ rows}

/-- **What a visit does**: nothing, if the better place is held, or the one move. -/
theorem visit_cases (κ : α → Option α) (rows : List ι) (f : ι → α) (i : ι) :
    visit κ rows f i = f ∧ (∀ c, Moves κ (f i) c → Held rows f c) ∨
      ∃ c, Moves κ (f i) c ∧ ¬ Held rows f c ∧ visit κ rows f i = Function.update f i c := by
  rw [visit]
  cases hκ : κ (f i) with
  | none =>
    refine .inl ⟨rfl, fun c hc => ?_⟩
    rw [Moves, hκ] at hc
    cases hc.1
  | some d =>
    by_cases hfree : d ≠ f i ∧ ¬ Held rows f d
    · exact .inr ⟨d, ⟨hκ, hfree.1⟩, hfree.2, if_pos hfree⟩
    · refine .inl ⟨if_neg hfree, fun c hc => ?_⟩
      obtain rfl : d = c := Option.some.inj (hκ.symm.trans hc.1)
      by_contra hheld
      exact hfree ⟨hc.2, hheld⟩

theorem visit_of_ne (hji : j ≠ i) : visit κ rows f i j = f j := by
  obtain ⟨hsame, -⟩ | ⟨c, -, -, hmove⟩ := visit_cases κ rows f i
  · rw [hsame]
  · rw [hmove, Function.update_of_ne hji]

@[simp] theorem relocate_nil : relocate κ rows [] f = f := rfl

@[simp] theorem relocate_cons :
    relocate κ rows (i :: order) f = relocate κ rows order (visit κ rows f i) := rfl

theorem relocate_append (order' : List ι) :
    relocate κ rows (order ++ order') f = relocate κ rows order' (relocate κ rows order f) :=
  List.foldl_append

/-- Only a visited row moves. -/
theorem relocate_of_notMem (hi : i ∉ order) : relocate κ rows order f i = f i := by
  induction order generalizing f with
  | nil => rfl
  | cons k order ih =>
    rw [List.mem_cons, not_or] at hi
    rw [relocate_cons, ih hi.2, visit_of_ne hi.1]

/-- **Each row stays, or moves once**, to the better place of its first one. -/
theorem relocate_value (horder : order.Nodup) (i : ι) :
    relocate κ rows order f i = f i ∨ Moves κ (f i) (relocate κ rows order f i) := by
  induction order generalizing f with
  | nil => exact .inl rfl
  | cons k order ih =>
    rw [List.nodup_cons] at horder
    rw [relocate_cons]
    by_cases hik : i = k
    · subst hik
      rw [relocate_of_notMem horder.1]
      obtain ⟨hsame, -⟩ | ⟨c, hc, -, hmove⟩ := visit_cases κ rows f i
      · exact .inl (congrFun hsame i)
      · rw [hmove, Function.update_self]
        exact .inr hc
    · have hrest := ih (f := visit κ rows f k) horder.2
      rw [visit_of_ne hik] at hrest
      exact hrest

theorem visit_apart (h : Apart rows f) (k : ι) : Apart rows (visit κ rows f k) := by
  obtain ⟨hsame, -⟩ | ⟨c, -, hfree, hmove⟩ := visit_cases κ rows f k
  · rw [hsame]
    exact h
  · -- the row that moves comes to a place where nobody is
    rw [hmove]
    intro i hi j hj hij
    by_cases hik : i = k
    · subst hik
      by_contra hne
      rw [Function.update_self, Function.update_of_ne (Ne.symm hne)] at hij
      exact hfree ⟨j, hj, hij.symm⟩
    · by_cases hjk : j = k
      · subst hjk
        rw [Function.update_self, Function.update_of_ne hik] at hij
        exact absurd ⟨i, hi, hij⟩ hfree
      · rw [Function.update_of_ne hik, Function.update_of_ne hjk] at hij
        exact h i hi j hj hij

/-- **Rows stay apart.** -/
theorem relocate_apart (h : Apart rows f) (order : List ι) :
    Apart rows (relocate κ rows order f) := by
  induction order generalizing f with
  | nil => exact h
  | cons k order ih => exact ih (visit_apart h k)

/-- While their better place is held, all rows that would move there stay. -/
theorem relocate_of_held (hc : Held rows f c) (h : ∀ i ∈ order, Moves κ (f i) c) :
    relocate κ rows order f = f := by
  induction order with
  | nil => rfl
  | cons k order ih =>
    rw [List.forall_mem_cons] at h
    obtain ⟨hsame, -⟩ | ⟨d, hd, hfree, -⟩ := visit_cases κ rows f k
    · rw [relocate_cons, hsame, ih h.2]
    · exact absurd (hd.unique h.1 ▸ hc) hfree

/-! ### Places that are filled, and places that are not -/

/-- A place that no row on the way holds is held in the end, if one of them moves there. -/
theorem held_of_candidate (horder : order.Nodup) (hi : i ∈ order) (hrow : i ∈ rows)
    (hc : Moves κ (f i) c) (hfree : ∀ j ∈ order, f j ≠ c) :
    Held rows (relocate κ rows order f) c := by
  induction order generalizing f with
  | nil => exact absurd hi List.not_mem_nil
  | cons k order ih =>
    rw [List.nodup_cons] at horder
    rw [relocate_cons]
    by_cases hik : i = k
    · subst hik
      obtain ⟨hsame, hheld⟩ | ⟨d, hd, -, hmove⟩ := visit_cases κ rows f i
      · -- somebody is there, and was visited before
        obtain ⟨j, hj, hfj⟩ := hheld c hc
        rw [hsame]
        refine ⟨j, hj, ?_⟩
        rw [relocate_of_notMem fun hmem => hfree j (List.mem_cons_of_mem _ hmem) hfj, hfj]
      · refine ⟨i, hrow, ?_⟩
        rw [relocate_of_notMem horder.1, hmove, Function.update_self, hd.unique hc]
    · have hne : ∀ j ∈ order, j ≠ k := fun j hj hjk => horder.1 (hjk ▸ hj)
      refine ih horder.2 (List.mem_of_ne_of_mem hik hi) ?_ fun j hj => ?_
      · rw [visit_of_ne hik]
        exact hc
      · rw [visit_of_ne (hne j hj)]
        exact hfree j (List.mem_cons_of_mem _ hj)

/-- A free place stays free, if it is no row's better place. -/
theorem not_held_of_no_candidate (horder : order.Nodup) (hfree : ¬ Held rows f c)
    (hnone : ∀ j ∈ order, ¬ Moves κ (f j) c) : ¬ Held rows (relocate κ rows order f) c := by
  induction order generalizing f with
  | nil => exact hfree
  | cons k order ih =>
    rw [List.nodup_cons] at horder
    rw [List.forall_mem_cons] at hnone
    have hne : ∀ j ∈ order, j ≠ k := fun j hj hjk => horder.1 (hjk ▸ hj)
    refine ih horder.2 ?_ fun j hj => ?_
    · obtain ⟨hsame, -⟩ | ⟨d, hd, -, hmove⟩ := visit_cases κ rows f k
      · rw [hsame]
        exact hfree
      · rw [hmove]
        rintro ⟨j, hj, hfj⟩
        by_cases hjk : j = k
        · rw [hjk, Function.update_self] at hfj
          exact hnone.1 (hfj ▸ hd)
        · rw [Function.update_of_ne hjk] at hfj
          exact hfree ⟨j, hj, hfj⟩
    · rw [visit_of_ne (hne j hj)]
      exact hnone.2 j hj

/-! ### Rows that never move -/

/-- Nobody moves first. -/
theorem relocate_of_anchored (order : List ι) (hi : i ∈ rows) (h : Anchored κ rows f (f i)) :
    relocate κ rows order f i = f i := by
  suffices hrun : ∀ g : ι → α, (∀ j ∈ rows, Anchored κ rows f (f j) → g j = f j) →
      ∀ j ∈ rows, Anchored κ rows f (f j) → relocate κ rows order g j = f j from
    hrun f (fun _ _ _ => rfl) i hi h
  induction order with
  | nil => exact fun g hg => hg
  | cons k order ih =>
    intro g hg
    refine ih _ fun j hj hanchored => ?_
    by_cases hjk : j = k
    · subst hjk
      obtain ⟨hsame, -⟩ | ⟨c, hc, hfree, -⟩ := visit_cases κ rows g j
      · rw [hsame]
        exact hg j hj hanchored
      · -- the better place has a row, which is anchored too
        rw [hg j hj hanchored] at hc
        obtain ⟨j', hj', hfj'⟩ := hanchored.moves hc c .refl
        have hkept : g j' = f j' := hg j' hj' (hfj' ▸ hanchored.moves hc)
        exact absurd ⟨j', hj', hkept.trans hfj'⟩ hfree
    · rw [visit_of_ne hjk]
      exact hg j hj hanchored

/-! ### Rows that can be made to move -/

variable (κ rows) in
/-- The rows from `k` on, each at the better place of the next one in the list, down to
one whose better place nobody holds.  If they are visited in this order, all of them move. -/
inductive Exits (f : ι → α) : ι → List ι → Prop
  | out {k : ι} {b : α} (hrow : k ∈ rows) (hb : Moves κ (f k) b) (hfree : ¬ Held rows f b) :
    Exits f k [k]
  | next {k j : ι} {l : List ι} (hrow : k ∈ rows) (hj : Moves κ (f k) (f j)) (h : Exits f j l) :
    Exits f k (l ++ [k])

namespace Exits

variable {l l' : List ι}

omit [DecidableEq ι] [DecidableEq α]

theorem mem_rows (h : Exits κ rows f k l) : ∀ j ∈ l, j ∈ rows := by
  induction h with
  | out hrow => simpa using hrow
  | next hrow _ _ ih =>
    intro j hj
    obtain hj | hj := List.mem_append.mp hj
    · exact ih j hj
    · exact List.mem_singleton.mp hj ▸ hrow

theorem row (h : Exits κ rows f k l) : k ∈ rows := by
  cases h with
  | out hrow => exact hrow
  | next hrow => exact hrow

/-- Where the rows leave is settled by the first of them. -/
theorem length_unique (hf : Apart rows f) (h : Exits κ rows f k l) (h' : Exits κ rows f k l') :
    l.length = l'.length := by
  induction h generalizing l' with
  | out _ hb hfree =>
    cases h' with
    | out => rfl
    | next _ hj hnext => exact absurd ⟨_, hnext.row, hj.unique hb⟩ hfree
  | next _ hj hnext ih =>
    cases h' with
    | out _ hb hfree => exact absurd ⟨_, hnext.row, hj.unique hb⟩ hfree
    | next _ hj' hnext' =>
      obtain rfl := hf _ hnext.row _ hnext'.row (hj.unique hj')
      rw [List.length_append, List.length_append, ih hnext']

/-- Every row of the list leaves by rows of the list. -/
theorem of_mem (h : Exits κ rows f k l) (hi : i ∈ l) :
    ∃ l', Exits κ rows f i l' ∧ l'.length ≤ l.length := by
  induction h with
  | out hrow hb hfree =>
    obtain rfl := List.mem_singleton.mp hi
    exact ⟨_, .out hrow hb hfree, Nat.le_refl _⟩
  | next hrow hj hnext ih =>
    obtain hi | hi := List.mem_append.mp hi
    · obtain ⟨l', hl', hle⟩ := ih hi
      refine ⟨l', hl', ?_⟩
      rw [List.length_append]
      omega
    · obtain rfl := List.mem_singleton.mp hi
      exact ⟨_, .next hrow hj hnext, Nat.le_refl _⟩

/-- Nobody on the way out would move back. -/
theorem not_back (hf : Apart rows f) (h : Exits κ rows f k l) (hi : i ∈ l) :
    ¬ Moves κ (f i) (f k) := by
  intro hback
  obtain ⟨l', hl', hle⟩ := h.of_mem hi
  -- then the way out of that row were longer than itself
  have hlen := hl'.length_unique hf (.next hl'.row hback h)
  rw [List.length_append, List.length_singleton] at hlen
  omega

theorem nodup (hf : Apart rows f) (h : Exits κ rows f k l) : l.Nodup := by
  induction h with
  | out => exact List.nodup_singleton _
  | next _ hj hnext ih =>
    refine List.nodup_append.mpr ⟨ih, List.nodup_singleton _, fun i hi k hk => ?_⟩
    rintro rfl
    obtain rfl := List.mem_singleton.mp hk
    exact hnext.not_back hf hi hj

end Exits

omit [DecidableEq ι] in
/-- A place that is not anchored has a way out. -/
theorem exists_exits (hk : k ∈ rows) (h : ¬ Anchored κ rows f (f k)) :
    ∃ l, Exits κ rows f k l := by
  obtain ⟨b, hb⟩ := not_forall.mp h
  obtain ⟨hpath, hfree⟩ := Classical.not_imp.mp hb
  suffices hout : ∀ a, ReflTransGen (Moves κ) a b → ∀ k ∈ rows, f k = a →
      ∃ l, Exits κ rows f k l from hout _ hpath k hk rfl
  intro a hab
  induction hab using ReflTransGen.head_induction_on with
  | refl => exact fun k hk hfk => absurd ⟨k, hk, hfk⟩ hfree
  | head hac _ ih =>
    rintro k hk rfl
    rename_i c _
    by_cases hheld : Held rows f c
    · obtain ⟨j, hj, rfl⟩ := hheld
      obtain ⟨l, hl⟩ := ih j hj rfl
      exact ⟨_, .next hk hac hl⟩
    · exact ⟨_, .out hk hac hheld⟩

/-- A row that moves leaves its place free. -/
theorem not_held_of_moves (hf : Apart rows f) (hk : k ∈ rows) (hb : Moves κ (f k) b)
    (hfree : ¬ Held rows f b) : ¬ Held rows (visit κ rows f k) (f k) := by
  obtain ⟨-, hheld⟩ | ⟨c, hc, -, hmoved⟩ := visit_cases κ rows f k
  · exact absurd (hheld b hb) hfree
  · rw [hmoved]
    rintro ⟨i, hi, hfi⟩
    by_cases hik : i = k
    · rw [hik, Function.update_self] at hfi
      exact hc.2 hfi
    · rw [Function.update_of_ne hik] at hfi
      exact hik (hf i hi k hk hfi)

/-- Visited in this order, the rows move one after another, and the last one leaves its
place free. -/
theorem not_held_of_exits {l : List ι} (hf : Apart rows f) (h : Exits κ rows f k l) :
    ¬ Held rows (relocate κ rows l f) (f k) := by
  induction h with
  | out hrow hb hfree => exact not_held_of_moves hf hrow hb hfree
  | next hrow hj hnext ih =>
    rename_i k j l
    have hown : relocate κ rows l f k = f k :=
      relocate_of_notMem fun hmem => hnext.not_back hf hmem hj
    rw [relocate_append, ← hown]
    refine not_held_of_moves (relocate_apart hf l) hrow ?_ ih
    rw [hown]
    exact hj

/-- **A row that is not anchored can be made to leave for good**: first come the rows that
would move to its place, then its way out, then the rest. -/
theorem exists_order_vacating (hrows : rows.Nodup) (hf : Apart rows f) (hk : k ∈ rows)
    (h : ¬ Anchored κ rows f (f k)) : ∃ order : List ι, order.Perm rows ∧
      ¬ Held rows (relocate κ rows order f) (f k) ∧
      ∀ i ∈ rows, Moves κ (f i) (f k) → relocate κ rows order f i = f i := by
  obtain ⟨l, hl⟩ := exists_exits hk h
  set first := rows.filter fun i => Moves κ (f i) (f k) with hfirst
  set rest := rows.filter fun i => i ∉ first ∧ i ∉ l with hrest
  have hmemFirst : ∀ i, i ∈ first ↔ i ∈ rows ∧ Moves κ (f i) (f k) := by
    intro i
    rw [hfirst, List.mem_filter, decide_eq_true_iff]
  have hmemRest : ∀ i, i ∈ rest ↔ i ∈ rows ∧ i ∉ first ∧ i ∉ l := by
    intro i
    rw [hrest, List.mem_filter, decide_eq_true_iff]
  have hdisjoint : ∀ i ∈ first, i ∉ l :=
    fun i hi hil => hl.not_back hf hil ((hmemFirst i).mp hi).2
  -- the rows of the first part find the place held, and stay
  have hstay : relocate κ rows first f = f :=
    relocate_of_held ⟨k, hk, rfl⟩ fun i hi => ((hmemFirst i).mp hi).2
  have hrun : relocate κ rows (first ++ (l ++ rest)) f =
      relocate κ rows rest (relocate κ rows l f) := by
    rw [relocate_append, hstay, relocate_append]
  refine ⟨first ++ (l ++ rest), ?_, ?_, fun i hi hmoves => ?_⟩
  · have hnodup : (first ++ (l ++ rest)).Nodup := by
      refine List.nodup_append'.mpr ⟨hrows.filter _, List.nodup_append'.mpr
        ⟨hl.nodup hf, hrows.filter _, fun i hil hi => ((hmemRest i).mp hi).2.2 hil⟩, ?_⟩
      intro i hi hi'
      obtain hil | hir := List.mem_append.mp hi'
      · exact hdisjoint i hi hil
      · exact ((hmemRest i).mp hir).2.1 hi
    refine (List.perm_ext_iff_of_nodup hnodup hrows).mpr fun i => ?_
    rw [List.mem_append, List.mem_append, hmemRest]
    constructor
    · rintro (hi | hi | hi)
      · exact ((hmemFirst i).mp hi).1
      · exact hl.mem_rows i hi
      · exact hi.1
    · intro hi
      by_cases hi1 : i ∈ first
      · exact .inl hi1
      · by_cases hi2 : i ∈ l
        · exact .inr (.inl hi2)
        · exact .inr (.inr ⟨hi, hi1, hi2⟩)
  · rw [hrun]
    refine not_held_of_no_candidate (hrows.filter _) (not_held_of_exits hf hl) fun j hj => ?_
    obtain ⟨hrow, hj1, hj2⟩ := (hmemRest j).mp hj
    rw [relocate_of_notMem hj2]
    exact fun hmoves => hj1 ((hmemFirst j).mpr ⟨hrow, hmoves⟩)
  · have hi1 := (hmemFirst i).mpr ⟨hi, hmoves⟩
    rw [hrun, relocate_of_notMem fun hir => ((hmemRest i).mp hir).2.1 hi1,
      relocate_of_notMem (hdisjoint i hi1)]

/-! ### When every order settles the table -/

variable (κ rows) in
/-- Whenever a row has a better place `c`, and `c` a better one `d`: all places from `d` on
are held, or nobody is at `c` and `d`, and some row has `d` for its better place. -/
def Chains (f : ι → α) : Prop :=
  ∀ u c d, Held rows f u → Moves κ u c → Moves κ c d →
    Anchored κ rows f d ∨
      ¬ Held rows f c ∧ ¬ Held rows f d ∧ ∃ v, Held rows f v ∧ Moves κ v d

/-- A place that is free at first is held in the end, if some row would move there. -/
theorem held_of_moves (hrows : rows.Nodup) (hperm : order.Perm rows) (hi : i ∈ rows)
    (hc : Moves κ (f i) c) (hfree : ¬ Held rows f c) :
    Held rows (relocate κ rows order f) c :=
  held_of_candidate (hperm.nodup_iff.mpr hrows) (hperm.mem_iff.mpr hi) hi hc
    fun j hj hfj => hfree ⟨j, hperm.mem_iff.mp hj, hfj⟩

theorem held_of_anchored (order : List ι) (h : Anchored κ rows f c) :
    Held rows (relocate κ rows order f) c := by
  obtain ⟨k, hk, rfl⟩ := h.held
  exact ⟨k, hk, relocate_of_anchored order hk h⟩

/-- **Every order settles the table** exactly if its chains allow it. -/
theorem settles_iff (hrows : rows.Nodup) (hf : Apart rows f) :
    (∀ order : List ι, order.Perm rows → Settles κ rows (relocate κ rows order f)) ↔
      Chains κ rows f := by
  constructor
  · rintro hall _ c d ⟨i, hi, rfl⟩ hc hd
    by_cases hheld : Held rows f c
    · -- `c` is left for good, while the row that would move there stays
      obtain ⟨k, hk, rfl⟩ := hheld
      by_contra hnot
      obtain ⟨order, hperm, hfree, hstay⟩ := exists_order_vacating hrows hf hk
        fun hanchored => hnot (.inl (hanchored.moves hd))
      refine hfree (hall order hperm i hi _ ?_)
      rw [hstay i hi hc]
      exact hc
    · -- `c` is filled in every order, so `d` is held in the end
      have hend : ∀ order : List ι, order.Perm rows → Held rows (relocate κ rows order f) d := by
        intro order hperm
        obtain ⟨j, hj, hfj⟩ := held_of_moves hrows hperm hi hc hheld
        exact hall order hperm j hj d (hfj ▸ hd)
      by_cases hheld' : Held rows f d
      · obtain ⟨k, hk, rfl⟩ := hheld'
        by_contra hnot
        obtain ⟨order, hperm, hfree, -⟩ := exists_order_vacating hrows hf hk
          fun hanchored => hnot (.inl hanchored)
        exact hfree (hend order hperm)
      · refine .inr ⟨hheld, hheld', ?_⟩
        by_contra hnone
        refine not_held_of_no_candidate hrows hheld' (fun j hj hmoves => ?_) (hend rows (.refl _))
        exact hnone ⟨f j, ⟨j, hj, rfl⟩, hmoves⟩
  · intro hchains order hperm i hi c hc
    have hvalue : relocate κ rows order f i = f i ∨ Moves κ (f i) (relocate κ rows order f i) :=
      relocate_value (hperm.nodup_iff.mpr hrows) i
    obtain hsame | hmoved := hvalue
    · rw [hsame] at hc
      by_cases hheld : Held rows f c
      · refine held_of_anchored order (anchored_of_moves hheld fun d hd => ?_)
        obtain hanchored | ⟨hfree, -⟩ := hchains _ c d ⟨i, hi, rfl⟩ hc hd
        · exact hanchored
        · exact absurd hheld hfree
      · exact held_of_moves hrows hperm hi hc hheld
    · obtain hanchored | ⟨-, hfree, v, ⟨j, hj, rfl⟩, hv⟩ := hchains _ _ c ⟨i, hi, rfl⟩ hmoved hc
      · exact held_of_anchored order hanchored
      · exact held_of_moves hrows hperm hj hv hfree

end Relocation
