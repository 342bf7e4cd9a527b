/-
Groups in a stream of heads and items.

A group is a maximal run of heads with the items that follow them, up to the
next head.  Items in front of the first head belong to no group.

* `groups` — the stream cut into its groups;
* `select` — the items of all groups that have a head of some kind;
* `Collector` — the same items, collected in one pass with two flags.

Main result: `collect_eq_select`.
-/
import Mathlib.Data.List.Basic
import Mathlib.Tactic.Common

namespace Groups

variable {H R : Type*}

inductive Token (H R : Type*)
  | head (h : H)
  | item (r : R)
  deriving DecidableEq, Repr

/-- A head that meets `p`. -/
def Token.isHead (p : H → Bool) : Token H R → Bool
  | .head h => p h
  | .item _ => false

structure Group (H R : Type*) where
  heads : List H
  items : List R
  deriving DecidableEq, Repr

/-! ### Two passes -/

/-- The items in front of the first head, and the groups behind them.  A head
joins the group that begins right behind it. -/
def cut : List (Token H R) → List R × List (Group H R)
  | [] => ([], [])
  | .item r :: ts => (r :: (cut ts).1, (cut ts).2)
  | .head h :: ts =>
    match cut ts with
    | ([], g :: gs) => ([], ⟨h :: g.heads, g.items⟩ :: gs)
    | (items, gs) => ([], ⟨[h], items⟩ :: gs)

/-- The groups of a stream. -/
def groups (ts : List (Token H R)) : List (Group H R) := (cut ts).2

/-- The items of the groups with a head that meets `p`. -/
def select (p : H → Bool) (gs : List (Group H R)) : List R :=
  (gs.filter fun g => g.heads.any p).flatMap Group.items

/-- The tokens of a group. -/
def Group.tokens (g : Group H R) : List (Token H R) :=
  g.heads.map .head ++ g.items.map .item

theorem select_cons (p : H → Bool) (g : Group H R) (gs : List (Group H R)) :
    select p (g :: gs) = (if g.heads.any p then g.items else []) ++ select p gs := by
  by_cases hg : g.heads.any p = true
  · simp only [select, List.filter_cons, hg, if_true, List.flatMap_cons]
  · simp only [select, List.filter_cons, hg, Bool.false_eq_true, if_false, List.nil_append]

/-- A head of the stream is a head of one of its groups. -/
theorem any_groups (p : H → Bool) (ts : List (Token H R)) :
    ((groups ts).any fun g => g.heads.any p) = ts.any (Token.isHead p) := by
  induction ts with
  | nil => rfl
  | cons t ts ih =>
    rw [List.any_cons, ← ih, groups, groups]
    cases t with
    | item r => rfl
    | head h =>
      rw [cut]
      split
      · rename_i g gs heq
        rw [heq, List.any_cons, List.any_cons, List.any_cons, Bool.or_assoc]
        rfl
      · rename_i items gs _ heq
        rw [heq, List.any_cons, List.any_cons, List.any_nil, Bool.or_false]
        rfl

/-- Only what `p` says of the heads in the groups matters. -/
theorem select_congr {p q : H → Bool} {gs : List (Group H R)}
    (h : ∀ g ∈ gs, ∀ x ∈ g.heads, p x = q x) : select p gs = select q gs := by
  rw [select, select]
  congr 1
  refine List.filter_congr fun g hg => ?_
  rw [Bool.eq_iff_iff, List.any_eq_true, List.any_eq_true]
  constructor
  · rintro ⟨x, hx, hp⟩
    exact ⟨x, hx, h g hg x hx ▸ hp⟩
  · rintro ⟨x, hx, hq⟩
    exact ⟨x, hx, (h g hg x hx).symm ▸ hq⟩

/-! ### One pass -/

/-- `on`: the heads of the group so far include one that is looked for;
`inItems`: its run of heads has ended. -/
structure Collector (R : Type*) where
  on : Bool
  inItems : Bool
  out : List R

namespace Collector

/-- Before the first token. -/
def start : Collector R := ⟨false, false, []⟩

/-- One token: a head behind items begins a new group. -/
def step (p : H → Bool) (c : Collector R) : Token H R → Collector R
  | .head h => ⟨(!c.inItems && c.on) || p h, false, c.out⟩
  | .item r => ⟨c.on, true, if c.on then c.out ++ [r] else c.out⟩

/-- What a collector still gets out of the rest of the stream. -/
def rest (p : H → Bool) (c : Collector R) : List R × List (Group H R) → List R
  -- the stream goes on with a head: it may belong to the open group
  | ([], g :: gs) =>
    (if (!c.inItems && c.on) || g.heads.any p then g.items else []) ++ select p gs
  | (items, gs) => (if c.on then items else []) ++ select p gs

/-- The collector goes on with a head. -/
theorem rest_head (p : H → Bool) (c : Collector R) (h : H) (ts : List (Token H R)) :
    rest p c (cut (.head h :: ts)) = rest p (c.step p (.head h)) (cut ts) := by
  rw [cut]
  split
  · rename_i g gs heq
    rw [heq]
    simp [rest, step, Bool.or_assoc]
  · rename_i items gs hno heq
    rw [heq]
    cases items with
    | nil =>
      cases gs with
      | nil => simp [rest, step, select]
      | cons g gs => exact (hno g gs rfl rfl).elim
    | cons r items => simp [rest, step]

/-- Behind an item, the stream cannot go on with a head of the open group. -/
theorem rest_item (p : H → Bool) (c : Collector R) (r : R) (ts : List (Token H R)) :
    rest p c (cut (.item r :: ts)) =
      (if c.on then [r] else []) ++ rest p (c.step p (.item r)) (cut ts) := by
  rw [cut]
  cases hcut : cut ts with
  | mk items gs =>
    cases hon : c.on with
    | false =>
      cases items with
      | nil =>
        cases gs with
        | nil => simp [rest, step, select, hon]
        | cons g gs => simp [rest, step, hon, select_cons]
      | cons x items => simp [rest, step, hon]
    | true =>
      cases items with
      | nil =>
        cases gs with
        | nil => simp [rest, step, select, hon]
        | cons g gs => simp [rest, step, hon, select_cons]
      | cons x items => simp [rest, step, hon]

/-- What a collector has at the end. -/
theorem out_foldl (p : H → Bool) (ts : List (Token H R)) (c : Collector R) :
    (ts.foldl (step p) c).out = c.out ++ rest p c (cut ts) := by
  induction ts generalizing c with
  | nil => simp [cut, rest, select]
  | cons t ts ih =>
    rw [List.foldl_cons, ih]
    cases t with
    | head h => rw [rest_head]; rfl
    | item r =>
      rw [rest_item, ← List.append_assoc]
      congr 1
      cases hon : c.on <;> simp [step, hon]

end Collector

/-- **One pass is enough.** -/
theorem collect_eq_select (p : H → Bool) (ts : List (Token H R)) :
    (ts.foldl (Collector.step p) Collector.start).out = select p (groups ts) := by
  rw [Collector.out_foldl, groups]
  show [] ++ _ = _
  rw [List.nil_append]
  cases hcut : cut ts with
  | mk items gs =>
    cases items with
    | nil =>
      cases gs with
      | nil => simp [Collector.rest, Collector.start]
      | cons g gs => simp [Collector.rest, Collector.start, select_cons]
    | cons r items => simp [Collector.rest, Collector.start]

end Groups
