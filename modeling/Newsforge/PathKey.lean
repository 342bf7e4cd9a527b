/-
The path of a key, segment by segment.

* `components` — the segments of a decoded path, their parameters cut off and the
  dots resolved;
* `pathKey_eq` — the six rewriting steps of `_path_key` come to these;
* `pathKey_sameLetters` — letter case does not matter.

Main result: `pathKey_resolved`, the shape of every key.
-/
import Newsforge.PathDecoding
import Newsforge.Targets

open PyText

namespace Targets

variable {u : UnicodeTables} {k : CharTables}

/-- Both spellings of a slash. -/
def isSlash (c : Char) : Bool := c == '/' || c == '\\'

/-- A segment without its parameters. -/
def bareSegment (s : Text) : Text := s.takeWhile (· ≠ ';')

/-- The segments of a decoded path. -/
def segments (s : Text) : List Text := (s.splitOnP isSlash).map bareSegment

/-- The segments that are left when the dots are resolved. -/
def components (s : Text) : List Text := (segments s).foldl (normStep true) []

/-! ### The rewriting steps -/

theorem bareSegment_cons (c : Char) (x : Text) :
    bareSegment (c :: x) = if c = ';' then [] else c :: bareSegment x := by
  by_cases hc : c = ';' <;> simp [bareSegment, hc]

theorem segments_cons (c : Char) (s : Text) :
    segments (c :: s) = if isSlash c then [] :: segments s
      else (segments s).modifyHead fun x => if c = ';' then [] else c :: x := by
  rw [segments, List.splitOnP_cons_eq_if_modifyHead]
  split
  · rfl
  · exact map_modifyHead (bareSegment_cons c) _

/-- Parameters are dropped segment by segment; `inside` drops the rest of the first. -/
theorem split_dropParams (inside : Bool) (s : Text) :
    split '/' (dropParams inside (replaceChar '\\' '/' s)) =
      if inside then (segments s).modifyHead fun _ => [] else segments s := by
  induction s generalizing inside with
  | nil => cases inside <;> rfl
  | cons c s ih =>
    have hmap : replaceChar '\\' '/' (c :: s) =
        (if c = '\\' then '/' else c) :: replaceChar '\\' '/' s := rfl
    rw [hmap, segments_cons]
    cases hc : isSlash c with
    | true =>
      have hslash : (if c = '\\' then '/' else c) = '/' := by
        rw [isSlash, Bool.or_eq_true, beq_iff_eq, beq_iff_eq] at hc
        rcases hc with rfl | rfl <;> rfl
      rw [hslash, dropParams, split_cons, if_pos rfl, if_pos rfl, ih]
      cases inside <;> rfl
    | false =>
      rw [isSlash, Bool.or_eq_false_iff, beq_eq_false_iff_ne, beq_eq_false_iff_ne] at hc
      rw [if_neg hc.2, if_neg Bool.false_ne_true]
      by_cases hsemi : c = ';'
      · subst hsemi
        rw [dropParams, ih]
        cases inside <;> simp [Function.comp_def]
      · have hstep : dropParams inside (c :: replaceChar '\\' '/' s) =
            if inside then dropParams true (replaceChar '\\' '/' s)
            else c :: dropParams false (replaceChar '\\' '/' s) := by
          rw [dropParams]
          · exact hc.1
          · exact hsemi
        rw [hstep]
        cases inside with
        | true =>
          rw [if_pos rfl, if_pos rfl, ih]
          simp [Function.comp_def]
        | false =>
          rw [if_neg Bool.false_ne_true, if_neg Bool.false_ne_true, split_cons, if_neg hc.1, ih]
          simp [hsemi]

/-- Where slashes are collapsed, empty segments are lost, and no others. -/
theorem split_collapseSlashes (s : Text) :
    ∃ x xs ys, split '/' (collapseSlashes s) = x :: xs ∧ split '/' s = x :: ys ∧
      xs.filter (· ≠ []) = ys.filter (· ≠ []) := by
  induction s with
  | nil => exact ⟨[], [], [], rfl, rfl, rfl⟩
  | cons c s ih =>
    obtain ⟨x, xs, ys, hxs, hys, hfilter⟩ := ih
    rw [collapseSlashes]
    split
    · rename_i h
      obtain ⟨rfl, hhead⟩ := h
      obtain ⟨r, rfl⟩ := List.head?_eq_some_iff.mp hhead
      have hx : x = [] := by
        rw [split_cons, if_pos rfl, List.cons.injEq] at hys
        exact hys.1.symm
      refine ⟨x, xs, x :: ys, hxs, by rw [split_cons, if_pos rfl, hys, hx], ?_⟩
      rw [hfilter, hx]
      rfl
    · rw [split_cons, split_cons, hxs, hys]
      split
      · exact ⟨[], x :: xs, x :: ys, rfl, rfl, by rw [List.filter_cons, List.filter_cons, hfilter]⟩
      · exact ⟨c :: x, xs, ys, rfl, rfl, hfilter⟩

theorem normStep_nil (rooted : Bool) (kept : List Text) : normStep rooted kept [] = kept := by
  rw [normStep, if_pos (.inl rfl)]

theorem foldl_normStep_filter (segs kept : List Text) :
    (segs.filter (· ≠ [])).foldl (normStep true) kept = segs.foldl (normStep true) kept := by
  induction segs generalizing kept with
  | nil => rfl
  | cons x segs ih =>
    by_cases hx : x = []
    · subst hx
      rw [List.filter_cons_of_neg (by simp), List.foldl_cons, normStep_nil, ih]
    · rw [List.filter_cons_of_pos (by simpa using hx), List.foldl_cons, List.foldl_cons, ih]

theorem foldl_collapseSlashes (s : Text) :
    (split '/' (collapseSlashes s)).foldl (normStep true) [] =
      (split '/' s).foldl (normStep true) [] := by
  obtain ⟨x, xs, ys, hxs, hys, hfilter⟩ := split_collapseSlashes s
  rw [hxs, hys, List.foldl_cons, List.foldl_cons, ← foldl_normStep_filter xs, hfilter,
    foldl_normStep_filter]

theorem collapseSlashes_rooted (s : Text) :
    ∃ r, collapseSlashes ('/' :: s) = '/' :: r ∧ r.head? ≠ some '/' := by
  induction s with
  | nil => exact ⟨[], rfl, by simp⟩
  | cons c s ih =>
    by_cases hc : c = '/'
    · subst hc
      rw [collapseSlashes, if_pos ⟨rfl, rfl⟩]
      exact ih
    · rw [collapseSlashes, if_neg (by simp [hc])]
      refine ⟨_, rfl, ?_⟩
      rw [collapseSlashes, if_neg fun h => hc h.1]
      simpa using hc

theorem normpath_rooted {r : Text} (hr : r.head? ≠ some '/') :
    normpath ('/' :: r) = '/' :: join '/' ((split '/' ('/' :: r)).foldl (normStep true) []) := by
  have htwo : startsWith ['/', '/'] ('/' :: r) = false := by
    cases r with
    | nil => rfl
    | cons c r =>
      have hc : '/' ≠ c := fun h => hr (by rw [← h]; rfl)
      simp [startsWith, List.isPrefixOf_cons_cons, hc]
  rw [normpath]
  simp [htwo]

/-- **The six rewriting steps** come to the components of the decoded path. -/
theorem pathKey_eq (u : UnicodeTables) (path : Text) :
    pathKey u path = lower u ('/' :: join '/' (components (Percent.unquote path))) := by
  obtain ⟨r, hr, hhead⟩ := collapseSlashes_rooted
    (dropParams false (replaceChar '\\' '/' (Percent.unquote path)))
  rw [pathKey]
  simp only [hr]
  rw [normpath_rooted hhead, ← hr, foldl_collapseSlashes, split_cons, if_pos rfl, List.foldl_cons,
    normStep_nil, split_dropParams, if_neg Bool.false_ne_true]
  rfl

/-! ### The shape of a key -/

/-- A segment that no step takes away. -/
structure IsComponent (s : Text) : Prop where
  ne_nil : s ≠ []
  ne_dot : s ≠ ['.']
  ne_dots : s ≠ ['.', '.']
  plain : ∀ c ∈ s, isSlash c = false ∧ c ≠ ';'

/-- One step keeps the components, or the first of them, or puts one behind them. -/
theorem normStep_cases (kept : List Text) (s : Text) :
    normStep true kept s = kept ∨ normStep true kept s = kept.dropLast ∨
      (s ≠ [] ∧ s ≠ ['.'] ∧ (s = ['.', '.'] → ['.', '.'] ∈ kept)) ∧
        normStep true kept s = kept ++ [s] := by
  rw [normStep]
  split
  · exact .inl rfl
  · rename_i hskip
    rw [not_or] at hskip
    split
    · rename_i hpush
      refine .inr (.inr ⟨⟨hskip.1, hskip.2, fun hs => ?_⟩, rfl⟩)
      rcases hpush with h | h | h
      · exact absurd hs h
      · exact absurd h (by simp)
      · exact List.mem_of_getLast? h
    · exact .inr (.inl rfl)

theorem normStep_isComponent {kept : List Text} {s : Text} (hkept : ∀ x ∈ kept, IsComponent x)
    (hs : ∀ c ∈ s, isSlash c = false ∧ c ≠ ';') : ∀ x ∈ normStep true kept s, IsComponent x := by
  rcases normStep_cases kept s with h | h | ⟨⟨hnil, hdot, hdots⟩, h⟩
  · rwa [h]
  · rw [h]
    exact fun x hx => hkept x (List.mem_of_mem_dropLast hx)
  · rw [h]
    intro x hx
    rcases List.mem_append.mp hx with hx | hx
    · exact hkept x hx
    · rw [List.mem_singleton.mp hx]
      exact ⟨hnil, hdot, fun h => (hkept _ (hdots h)).ne_dots rfl, hs⟩

theorem mem_segments {s x : Text} (hx : x ∈ segments s) {c : Char} (hc : c ∈ x) :
    isSlash c = false ∧ c ≠ ';' := by
  induction s generalizing x with
  | nil =>
    rw [List.mem_singleton.mp hx] at hc
    exact absurd hc List.not_mem_nil
  | cons d s ih =>
    rw [segments_cons] at hx
    split at hx
    · rcases List.mem_cons.mp hx with rfl | hx
      · exact absurd hc List.not_mem_nil
      · exact ih hx hc
    · rename_i hd
      cases hseg : segments s with
      | nil =>
        rw [hseg] at hx
        exact absurd hx List.not_mem_nil
      | cons y ys =>
        rw [hseg, List.modifyHead_cons] at hx
        rw [hseg] at ih
        rcases List.mem_cons.mp hx with rfl | hx
        · split at hc
          · exact absurd hc List.not_mem_nil
          · rename_i hsemi
            rcases List.mem_cons.mp hc with rfl | hc
            · exact ⟨by simpa using hd, hsemi⟩
            · exact ih List.mem_cons_self hc
        · exact ih (List.mem_cons_of_mem _ hx) hc

theorem components_isComponent (s : Text) : ∀ x ∈ components s, IsComponent x := by
  have hfold : ∀ (segs kept : List Text), (∀ x ∈ segs, ∀ c ∈ x, isSlash c = false ∧ c ≠ ';') →
      (∀ x ∈ kept, IsComponent x) → ∀ x ∈ segs.foldl (normStep true) kept, IsComponent x := by
    intro segs
    induction segs with
    | nil => exact fun _ _ hkept => hkept
    | cons y segs ih =>
      intro kept hsegs hkept
      obtain ⟨hy, hsegs⟩ := List.forall_mem_cons.mp hsegs
      exact ih _ hsegs (normStep_isComponent hkept hy)
  exact hfold _ [] (fun x hx c hc => mem_segments hx hc) (by simp)

/-- A path in the form keys have. -/
structure Resolved (key : Text) : Prop where
  rooted : key.head? = some '/'
  segments : key ≠ ['/'] → ∀ s ∈ split '/' key.tail, s ≠ [] ∧ s ≠ ['.'] ∧ s ≠ ['.', '.']
  params : ';' ∉ key
  backslash : '\\' ∉ key
  trailing : key.getLast? = some '/' → key = ['/']

/-- Components put together are a path in this form. -/
theorem resolved_join {comps : List Text} (h : ∀ s ∈ comps, IsComponent s) :
    Resolved ('/' :: join '/' comps) := by
  have hmem : ∀ c, c ≠ '/' → (isSlash c = true ∨ c = ';') → c ∉ '/' :: join '/' comps := by
    intro c hc hbad hmem
    rcases List.mem_cons.mp hmem with rfl | hmem
    · exact hc rfl
    · rcases mem_join hmem with rfl | ⟨s, hs, hcs⟩
      · exact hc rfl
      · obtain ⟨hslash, hsemi⟩ := (h s hs).plain c hcs
        rcases hbad with hbad | hbad
        · rw [hslash] at hbad
          exact Bool.false_ne_true hbad
        · exact hsemi hbad
  have hno : ∀ s ∈ comps, '/' ∉ s := by
    intro s hs hmem
    exact absurd ((h s hs).plain '/' hmem).1 (by decide)
  refine ⟨rfl, ?_, hmem ';' (by decide) (.inr rfl), hmem '\\' (by decide) (.inl rfl), ?_⟩
  · intro hroot s hs
    rcases eq_or_ne comps [] with rfl | hne
    · exact absurd rfl hroot
    · rw [List.tail_cons, split_join hne hno] at hs
      exact ⟨(h s hs).ne_nil, (h s hs).ne_dot, (h s hs).ne_dots⟩
  · intro hlast
    rcases List.eq_nil_or_concat' comps with rfl | ⟨comps, l, rfl⟩
    · rfl
    · have hl := h l (by simp)
      obtain ⟨pre, hpre⟩ := join_suffix '/' comps l
      rw [hpre, ← List.cons_append, List.getLast?_append_of_ne_nil _ hl.ne_nil] at hlast
      exact absurd (List.mem_of_getLast? hlast) (hno l (by simp))

/-! ### Lower case -/

/-- A joined text in lower case is made of its parts in lower case. -/
theorem lowered_join {comps : List Text} {r : Text} (h : k.Lowered (join '/' comps) r) :
    ∃ comps', r = join '/' comps' ∧ List.Forall₂ k.Lowered comps comps' := by
  induction comps generalizing r with
  | nil =>
    cases h
    exact ⟨[], rfl, .nil⟩
  | cons p comps ih =>
    rcases eq_or_ne comps [] with rfl | hne
    · rw [show join '/' [p] = p from List.intercalate_singleton] at h
      exact ⟨[r], List.intercalate_singleton.symm, .cons h .nil⟩
    · rw [join_cons '/' p hne] at h
      obtain ⟨p', rest, rfl, hp, hrest⟩ := h.of_append
      obtain ⟨rest', rfl, hrest'⟩ :=
        hrest.of_caseless (CharTables.caseless_of_ascii (by decide) (by decide))
      obtain ⟨comps', rfl, hcomps⟩ := ih hrest'
      refine ⟨p' :: comps', ?_, .cons hp hcomps⟩
      have hne' : comps' ≠ [] := by
        rintro rfl
        exact hne (List.forall₂_nil_right_iff.mp hcomps)
      rw [join_cons '/' p' hne']

theorem IsComponent.lowered {s s' : Text} (hs : IsComponent s) (h : k.Lowered s s') :
    IsComponent s' := by
  have hcaseless : ∀ c, isAsciiChar c = true → c.isAlpha = false → k.Caseless c :=
    fun c => CharTables.caseless_of_ascii
  have hdot : k.Caseless '.' := hcaseless '.' (by decide) (by decide)
  have hback : ∀ r : Text, (∀ c ∈ r, c = '.') → s ≠ r → s' ≠ r := by
    rintro r hr hne rfl
    refine hne (h.eq_of_caseless fun c hc => ?_)
    rw [hr c hc]
    exact hdot
  refine ⟨hback [] (by simp) hs.ne_nil, hback ['.'] (by simp) hs.ne_dot,
    hback ['.', '.'] (by simp) hs.ne_dots, ?_⟩
  intro c hc
  have hno : ∀ d, isAsciiChar d = true → d.isAlpha = false → d ∉ s → c ≠ d := by
    rintro d hd hletter hmem rfl
    exact hmem ((h.mem_iff (hcaseless c hd hletter)).mp hc)
  have hplain : ∀ d, isSlash d = true ∨ d = ';' → d ∉ s := by
    intro d hd hmem
    obtain ⟨hslash, hsemi⟩ := hs.plain d hmem
    rcases hd with hd | hd
    · rw [hslash] at hd
      exact Bool.false_ne_true hd
    · exact hsemi hd
  refine ⟨?_, hno ';' (by decide) (by decide) (hplain ';' (.inr rfl))⟩
  rw [isSlash, Bool.or_eq_false_iff, beq_eq_false_iff_ne, beq_eq_false_iff_ne]
  exact ⟨hno '/' (by decide) (by decide) (hplain '/' (.inl rfl)),
    hno '\\' (by decide) (by decide) (hplain '\\' (.inl rfl))⟩

/-- **Every key has a resolved path.** -/
theorem pathKey_resolved (hu : UnicodeRules u k) (path : Text) : Resolved (pathKey u path) := by
  rw [pathKey_eq, hu.lower_eq]
  obtain ⟨r, hr, hlowered⟩ := (CharTables.lowered_lower
    ('/' :: join '/' (components (Percent.unquote path)))).of_caseless
      (CharTables.caseless_of_ascii (by decide) (by decide))
  obtain ⟨comps, rfl, hcomps⟩ := lowered_join hlowered
  rw [hr]
  refine resolved_join fun s' hs' => ?_
  obtain ⟨s, hs, h⟩ := exists_of_forall₂ hcomps hs'
  exact (components_isComponent _ s hs).lowered h

/-! ### Letter case -/

theorem toLower_eq_iff {c d : Char} (hd : isAsciiChar d = true) (hletter : d.isAlpha = false) :
    c.toLower = d ↔ c = d := by
  have hall : isAsciiChar d = true → d.isAlpha = false → d.toLower = d ∧
      ∀ n < 128, (Char.ofNat n).toLower = d → Char.ofNat n = d := fun hd hletter =>
    CharTables.forall_ascii (p := fun d => d.isAlpha = false → d.toLower = d ∧
      ∀ n < 128, (Char.ofNat n).toLower = d → Char.ofNat n = d) (by decide +kernel) hd hletter
  obtain ⟨hfix, hback⟩ := hall hd hletter
  constructor
  · exact toLower_cases (p := fun c c' => c' = d → c = d) hback (fun _ _ h => h) c
  · rintro rfl
    exact hfix

theorem segments_map_toLower (s : Text) :
    segments (s.map Char.toLower) = (segments s).map (List.map Char.toLower) := by
  induction s with
  | nil => rfl
  | cons c s ih =>
    have hslash : isSlash c.toLower = isSlash c := by
      rw [isSlash, isSlash, Bool.eq_iff_iff]
      simp only [Bool.or_eq_true, beq_iff_eq]
      rw [toLower_eq_iff (by decide) (by decide), toLower_eq_iff (by decide) (by decide)]
    rw [List.map_cons, segments_cons, segments_cons, hslash, ih]
    split
    · rfl
    · refine (map_modifyHead (fun x => ?_) _).symm
      simp only [toLower_eq_iff (c := c) (d := ';') (by decide) (by decide)]
      split <;> rfl

theorem map_toLower_eq_dots {x r : Text} (hr : ∀ c ∈ r, c = '.') :
    x.map Char.toLower = r ↔ x = r := by
  induction x generalizing r with
  | nil => simp
  | cons c x ih =>
    cases r with
    | nil => simp
    | cons d r =>
      obtain ⟨hd, hr⟩ := List.forall_mem_cons.mp hr
      rw [List.map_cons, List.cons.injEq, List.cons.injEq, ih hr, hd,
        toLower_eq_iff (by decide) (by decide)]

theorem normStep_map_toLower (kept : List Text) (s : Text) :
    normStep true (kept.map (List.map Char.toLower)) (s.map Char.toLower) =
      (normStep true kept s).map (List.map Char.toLower) := by
  have hlast : (kept.map (List.map Char.toLower)).getLast? = some ['.', '.'] ↔
      kept.getLast? = some ['.', '.'] := by
    rw [List.getLast?_map, Option.map_eq_some_iff]
    constructor
    · rintro ⟨x, hx, heq⟩
      rwa [(map_toLower_eq_dots (by simp)).mp heq] at hx
    · exact fun h => ⟨_, h, rfl⟩
  rw [normStep, normStep]
  simp only [map_toLower_eq_dots (x := s) (r := []) (by simp),
    map_toLower_eq_dots (x := s) (r := ['.']) (by simp), ne_eq,
    map_toLower_eq_dots (x := s) (r := ['.', '.']) (by simp), hlast, Bool.not_true,
    Bool.false_and, Bool.false_eq_true, false_or]
  split
  · rfl
  · split
    · rw [List.map_append, List.map_singleton]
    · rw [List.map_dropLast]

/-- Components are found whatever the case of the letters. -/
theorem components_map_toLower (s : Text) :
    components (s.map Char.toLower) = (components s).map (List.map Char.toLower) := by
  rw [components, components, segments_map_toLower]
  suffices h : ∀ kept, ((segments s).map (List.map Char.toLower)).foldl (normStep true)
      (kept.map (List.map Char.toLower)) =
        ((segments s).foldl (normStep true) kept).map (List.map Char.toLower) from h []
  generalize segments s = segs
  induction segs with
  | nil => exact fun _ => rfl
  | cons x segs ih =>
    intro kept
    rw [List.map_cons, List.foldl_cons, List.foldl_cons, normStep_map_toLower, ih]

theorem map_toLower_join (comps : List Text) :
    (join '/' comps).map Char.toLower = join '/' (comps.map (List.map Char.toLower)) := by
  induction comps with
  | nil => rfl
  | cons x comps ih =>
    rcases eq_or_ne comps [] with rfl | hne
    · simp [join]
    · have hne' : comps.map (List.map Char.toLower) ≠ [] := mt List.map_eq_nil_iff.mp hne
      rw [join_cons '/' x hne, List.map_append, List.map_cons, ih, List.map_cons,
        join_cons '/' _ hne']
      rfl

/-- **Letter case does not matter to a key.** -/
theorem pathKey_sameLetters (hu : UnicodeRules u k) {path path' : Text}
    (h : Percent.SameLetters path path') : pathKey u path = pathKey u path' := by
  have hcomps : (components (Percent.unquote path)).map (List.map Char.toLower) =
      (components (Percent.unquote path')).map (List.map Char.toLower) := by
    rw [← components_map_toLower, ← components_map_toLower, Percent.unquote_sameLetters h]
  rw [pathKey_eq, pathKey_eq, hu.lower_eq, hu.lower_eq, ← CharTables.lower_map_toLower,
    List.map_cons, map_toLower_join, hcomps, ← map_toLower_join, ← List.map_cons,
    CharTables.lower_map_toLower]

end Targets
