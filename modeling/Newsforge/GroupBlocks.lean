/-
The groups of a stream as one fold, and as blocks of lines.

* `Pass` — a pass that sees, at each item, the heads of its group;
* `blocks` — the lines of a text, cut where a group ends;
* `prune` — the lines without the groups that have no head of some kind.

Main results: `acc_foldl`, the pass is a fold over the groups; `groups_prune`,
pruning the lines filters the groups.
-/
import Mathlib.Data.List.Flatten
import Newsforge.Groups

namespace Groups

variable {H R L σ : Type*}

/-! ### A pass over the groups -/

/-- The heads of the open group, whether its items have begun, and what the pass
has so far. -/
structure Pass (H σ : Type*) where
  heads : List H
  inItems : Bool
  acc : σ

/-- The heads that the next head joins. -/
def Pass.open (s : Pass H σ) : List H := if s.inItems then [] else s.heads

/-- One token: an item is seen with the heads of its group. -/
def Pass.step (f : List H → σ → R → σ) (s : Pass H σ) : Token H R → Pass H σ
  | .head h => ⟨s.open ++ [h], false, s.acc⟩
  | .item r => ⟨s.heads, true, f s.heads s.acc r⟩

/-- The items of one group. -/
def Group.fold (f : List H → σ → R → σ) (acc : σ) (g : Group H R) : σ :=
  g.items.foldl (f g.heads) acc

/-- What a pass makes of the rest of the stream. -/
def Pass.rest (f : List H → σ → R → σ) (s : Pass H σ) : List R × List (Group H R) → σ
  -- the stream goes on with a head: it may belong to the open group
  | ([], g :: gs) => gs.foldl (Group.fold f) (g.items.foldl (f (s.open ++ g.heads)) s.acc)
  | (items, gs) => gs.foldl (Group.fold f) (items.foldl (f s.heads) s.acc)

theorem Pass.rest_head (f : List H → σ → R → σ) (s : Pass H σ) (h : H) (ts : List (Token H R)) :
    rest f s (cut (.head h :: ts)) = rest f (s.step f (.head h)) (cut ts) := by
  rw [cut]
  split
  · rename_i g gs heq
    rw [heq]
    simp [rest, step, Pass.open]
  · rename_i items gs hno heq
    rw [heq]
    cases items with
    | nil =>
      cases gs with
      | nil => simp [rest, step]
      | cons g gs => exact (hno g gs rfl rfl).elim
    | cons r items => simp [rest, step]

theorem Pass.rest_item (f : List H → σ → R → σ) (s : Pass H σ) (r : R) (ts : List (Token H R)) :
    rest f s (cut (.item r :: ts)) = rest f (s.step f (.item r)) (cut ts) := by
  rw [cut]
  cases hcut : cut ts with
  | mk items gs =>
    cases items with
    | nil =>
      cases gs with
      | nil => simp [rest, step]
      | cons g gs => simp [rest, step, Pass.open, Group.fold]
    | cons x items => simp [rest, step]

theorem Pass.acc_foldl_rest (f : List H → σ → R → σ) (ts : List (Token H R)) (s : Pass H σ) :
    (ts.foldl (step f) s).acc = rest f s (cut ts) := by
  induction ts generalizing s with
  | nil => simp [cut, rest]
  | cons t ts ih =>
    rw [List.foldl_cons, ih]
    cases t with
    | head h => rw [rest_head]
    | item r => rw [rest_item]

/-- **A pass is a fold over the groups**, if items without a head change nothing. -/
theorem Pass.acc_foldl (f : List H → σ → R → σ) (hf : ∀ acc r, f [] acc r = acc) (acc : σ)
    (ts : List (Token H R)) :
    (ts.foldl (step f) ⟨[], false, acc⟩).acc = (groups ts).foldl (Group.fold f) acc := by
  have hskip : ∀ items : List R, items.foldl (f []) acc = acc := by
    intro items
    induction items with
    | nil => rfl
    | cons r items ih => rw [List.foldl_cons, hf, ih]
  rw [acc_foldl_rest, groups]
  cases hcut : cut ts with
  | mk items gs =>
    cases items with
    | nil =>
      cases gs with
      | nil => rfl
      | cons g gs => simp [rest, Pass.open, Group.fold]
    | cons r items =>
      show gs.foldl (Group.fold f) ((r :: items).foldl (f []) acc) = _
      rw [hskip]

/-! ### Groups behind one another -/

/-- Nothing is cut apart: each group ends with an item, each but the first begins
with a head. -/
def Separate (gs : List (Group H R)) : Prop :=
  gs.Pairwise fun g g' => g.items ≠ [] ∧ g'.heads ≠ []

/-- The heads of a group, in front of its items. -/
theorem cut_heads {heads : List H} {ts : List (Token H R)} (hne : heads ≠ [])
    (h : (cut ts).1 ≠ [] ∨ (cut ts).2 = []) :
    cut (heads.map .head ++ ts) = ([], ⟨heads, (cut ts).1⟩ :: (cut ts).2) := by
  induction heads with
  | nil => exact absurd rfl hne
  | cons x heads ih =>
    rw [List.map_cons, List.cons_append, cut]
    cases heads with
    | nil =>
      rw [List.map_nil, List.nil_append]
      split
      · rename_i g gs heq
        simp [heq] at h
      · rename_i heq
        rw [heq]
    | cons y heads => rw [ih (List.cons_ne_nil y heads)]

theorem cut_items (items : List R) (ts : List (Token H R)) :
    cut (items.map .item ++ ts) = (items ++ (cut ts).1, (cut ts).2) := by
  induction items with
  | nil => rfl
  | cons r items ih => rw [List.map_cons, List.cons_append, cut, ih, List.cons_append]

/-- Groups with a head are cut out again as they were put together. -/
theorem cut_flatMap_tokens {gs : List (Group H R)} (h : Separate gs)
    (hheads : ∀ g ∈ gs, g.heads ≠ []) :
    cut (gs.flatMap Group.tokens) = ([], gs) := by
  induction gs with
  | nil => rfl
  | cons g gs ih =>
    obtain ⟨hg, hgs⟩ := List.pairwise_cons.mp h
    have hrest := ih hgs fun g' hg' => hheads g' (List.mem_cons_of_mem g hg')
    have hitems : cut (g.items.map .item ++ gs.flatMap Group.tokens) = (g.items, gs) := by
      rw [cut_items, hrest, List.append_nil]
    rw [List.flatMap_cons, Group.tokens, List.append_assoc, cut_heads (hheads g List.mem_cons_self)]
    · rw [hitems]
    · rw [hitems]
      cases gs with
      | nil => exact .inr rfl
      | cons g' gs => exact .inl (hg g' List.mem_cons_self).1

/-- Items without a head may stand in front. -/
theorem groups_flatMap_tokens {gs : List (Group H R)} (h : Separate gs) :
    groups (gs.flatMap Group.tokens) = gs.filter fun g => !g.heads.isEmpty := by
  cases gs with
  | nil => rfl
  | cons g gs =>
    obtain ⟨hg, hgs⟩ := List.pairwise_cons.mp h
    have hheads : ∀ g' ∈ gs, g'.heads ≠ [] := fun g' hg' => (hg g' hg').2
    have hfilter : (gs.filter fun g => !g.heads.isEmpty) = gs :=
      List.filter_eq_self.mpr fun g' hg' => by simpa using hheads g' hg'
    by_cases hempty : g.heads = []
    · rw [List.filter_cons_of_neg (by simp [hempty]), hfilter, groups, List.flatMap_cons,
        Group.tokens, hempty, List.map_nil, List.nil_append, cut_items,
        cut_flatMap_tokens hgs hheads]
    · rw [List.filter_cons_of_pos (by simpa using hempty), hfilter, groups,
        cut_flatMap_tokens h (List.forall_mem_cons.mpr ⟨hempty, hheads⟩)]

/-! ### Lines -/

/-- The lines of a group, and the group. -/
structure Block (L H R : Type*) where
  lines : List L
  group : Group H R

/-- One more line in front of some blocks; a head that comes behind an item begins
a new block. -/
def addLine (l : L) : Option (Token H R) → List (Block L H R) → List (Block L H R)
  | none, [] => [⟨[l], ⟨[], []⟩⟩]
  | none, b :: bs => ⟨l :: b.lines, b.group⟩ :: bs
  | some (.head h), [] => [⟨[l], ⟨[h], []⟩⟩]
  | some (.head h), b :: bs => ⟨l :: b.lines, ⟨h :: b.group.heads, b.group.items⟩⟩ :: bs
  | some (.item r), [] => [⟨[l], ⟨[], [r]⟩⟩]
  | some (.item r), b :: bs =>
    if b.group.heads.isEmpty then ⟨l :: b.lines, ⟨[], r :: b.group.items⟩⟩ :: bs
    else ⟨[l], ⟨[], [r]⟩⟩ :: b :: bs

variable (said : L → Option (Token H R))

/-- The blocks of some lines.  Lines that say nothing go with what follows them. -/
def blocks : List L → List (Block L H R)
  | [] => []
  | l :: ls => addLine l (said l) (blocks ls)

/-- The lines of the groups with a head that meets `p`, and the lines that belong to
no group. -/
def prune (p : H → Bool) (ls : List L) : List L :=
  ((blocks said ls).filter fun b => b.group.heads.isEmpty || b.group.heads.any p).flatMap
    Block.lines

variable {said}

/-- The lines of a block say what its group says. -/
def Block.Speaks (said : L → Option (Token H R)) (b : Block L H R) : Prop :=
  b.lines.filterMap said = b.group.tokens

theorem addLine_speaks {l : L} {bs : List (Block L H R)} (h : ∀ b ∈ bs, b.Speaks said) :
    ∀ b ∈ addLine l (said l) bs, b.Speaks said := by
  cases hl : said l with
  | none =>
    cases bs with
    | nil => simp [addLine, Block.Speaks, hl, Group.tokens]
    | cons b bs =>
      obtain ⟨hb, hbs⟩ := List.forall_mem_cons.mp h
      exact List.forall_mem_cons.mpr ⟨by simpa [Block.Speaks, hl] using hb, hbs⟩
  | some t =>
    cases t with
    | head x =>
      cases bs with
      | nil => simp [addLine, Block.Speaks, hl, Group.tokens]
      | cons b bs =>
        obtain ⟨hb, hbs⟩ := List.forall_mem_cons.mp h
        refine List.forall_mem_cons.mpr ⟨?_, hbs⟩
        rw [Block.Speaks] at hb
        simp [Block.Speaks, hl, hb, Group.tokens]
    | item r =>
      cases bs with
      | nil => simp [addLine, Block.Speaks, hl, Group.tokens]
      | cons b bs =>
        obtain ⟨hb, hbs⟩ := List.forall_mem_cons.mp h
        rw [addLine]
        by_cases hempty : b.group.heads.isEmpty = true
        · rw [if_pos hempty]
          refine List.forall_mem_cons.mpr ⟨?_, hbs⟩
          rw [Block.Speaks] at hb
          simp [Block.Speaks, hl, hb, Group.tokens, List.isEmpty_iff.mp hempty]
        · rw [if_neg hempty]
          refine List.forall_mem_cons.mpr ⟨?_, h⟩
          simp [Block.Speaks, hl, Group.tokens]

theorem addLine_separate {l : L} {t : Option (Token H R)} {bs : List (Block L H R)}
    (h : Separate (bs.map Block.group)) : Separate ((addLine l t bs).map Block.group) := by
  cases bs with
  | nil =>
    rcases t with _ | x | r
    · exact List.pairwise_singleton _ _
    · exact List.pairwise_singleton _ _
    · exact List.pairwise_singleton _ _
  | cons b bs =>
    obtain ⟨hb, hbs⟩ := List.pairwise_cons.mp h
    rcases t with _ | x | r
    · exact h
    · exact List.pairwise_cons.mpr ⟨hb, hbs⟩
    · rw [addLine]
      by_cases hempty : b.group.heads.isEmpty = true
      · rw [if_pos hempty]
        exact List.pairwise_cons.mpr ⟨fun g hg => ⟨List.cons_ne_nil _ _, (hb g hg).2⟩, hbs⟩
      · rw [if_neg hempty]
        refine List.pairwise_cons.mpr ⟨fun g hg => ⟨List.cons_ne_nil _ _, ?_⟩, h⟩
        rcases List.mem_cons.mp hg with rfl | hg
        · simpa using hempty
        · exact (hb g hg).2

theorem flatMap_addLine (l : L) (t : Option (Token H R)) (bs : List (Block L H R)) :
    (addLine l t bs).flatMap Block.lines = l :: bs.flatMap Block.lines := by
  cases bs with
  | nil => rcases t with _ | x | r <;> rfl
  | cons b bs =>
    rcases t with _ | x | r
    · rfl
    · rfl
    · rw [addLine]
      split <;> rfl

theorem blocks_speak (ls : List L) : ∀ b ∈ blocks said ls, b.Speaks said := by
  induction ls with
  | nil => simp [blocks]
  | cons l ls ih => exact addLine_speaks ih

theorem blocks_separate (ls : List L) : Separate ((blocks said ls).map Block.group) := by
  induction ls with
  | nil => exact List.Pairwise.nil
  | cons l ls ih => exact addLine_separate ih

/-- No line is lost. -/
theorem flatMap_blocks (ls : List L) : (blocks said ls).flatMap Block.lines = ls := by
  induction ls with
  | nil => rfl
  | cons l ls ih => rw [blocks, flatMap_addLine, ih]

/-- The lines of blocks say what their groups say. -/
theorem filterMap_lines {bs : List (Block L H R)} (h : ∀ b ∈ bs, b.Speaks said) :
    (bs.flatMap Block.lines).filterMap said = (bs.map Block.group).flatMap Group.tokens := by
  induction bs with
  | nil => rfl
  | cons b bs ih =>
    obtain ⟨hb, hbs⟩ := List.forall_mem_cons.mp h
    rw [List.flatMap_cons, List.filterMap_append, ih hbs, hb, List.map_cons, List.flatMap_cons]

/-- **Pruning filters the groups.** -/
theorem groups_prune (p : H → Bool) (ls : List L) :
    groups ((prune said p ls).filterMap said) =
      (groups (ls.filterMap said)).filter fun g => g.heads.any p := by
  have hall : groups (ls.filterMap said) =
      ((blocks said ls).map Block.group).filter fun g => !g.heads.isEmpty := by
    rw [← groups_flatMap_tokens (blocks_separate ls), ← filterMap_lines (blocks_speak ls),
      flatMap_blocks]
  have hkept : Separate (((blocks said ls).filter fun b =>
      b.group.heads.isEmpty || b.group.heads.any p).map Block.group) :=
    (blocks_separate ls).sublist (List.filter_sublist.map _)
  rw [hall, prune, filterMap_lines fun b hb => blocks_speak ls b (List.mem_of_mem_filter hb),
    groups_flatMap_tokens hkept, List.filter_map, List.filter_map, List.filter_map,
    List.filter_filter, List.filter_filter]
  congr 1
  refine List.filter_congr fun b _ => ?_
  cases hheads : b.group.heads with
  | nil => simp [hheads]
  | cons x heads => simp [hheads]

/-- What is left is part of the lines. -/
theorem prune_sublist (p : H → Bool) (ls : List L) : (prune said p ls).Sublist ls := by
  have h := (List.filter_sublist (p := fun b : Block L H R =>
    b.group.heads.isEmpty || b.group.heads.any p) (l := blocks said ls)).flatMap Block.lines
  rwa [flatMap_blocks] at h

end Groups
