/-
Host names in ASCII.

`idna.encode` stays outside of the model: what the code relies on is stated of its
characters, and of the mapping and the encoding of a single label it consists of.

* `IdnaChars` — the characters that go in and come out;
* `encodeLabels`, `IdnaRules` — a name is mapped, taken apart at its dots, and each label
  encoded;
* `asciiHost_eq_ok` — what `ascii_host` returns;
* `asciiHost_lower`, `asciiHost_again` — the case of a name makes no difference, and only
  a dot at its end is lost when it is encoded again.
-/
import Mathlib.Data.List.DropRight
import Newsforge.Authority
import Newsforge.TextLines

open PyText UrlParse

namespace PyText

variable {p : Char → Bool} {k : CharTables}

/-! ### Trailing characters -/

theorem rstrip_eq_append (p : Char → Bool) (s : Text) :
    ∃ b, s = rstrip p s ++ b ∧ ∀ c ∈ b, p c = true := by
  refine ⟨(s.reverse.takeWhile p).reverse, ?_, ?_⟩
  · rw [rstrip, ← List.reverse_append, List.takeWhile_append_dropWhile, List.reverse_reverse]
  · exact fun c hc => List.mem_takeWhile_imp (List.mem_reverse.mp hc)

theorem last_rstrip {s : Text} {c : Char} (hc : c ∈ (rstrip p s).getLast?) : p c = false := by
  rw [rstrip, List.getLast?_reverse] at hc
  exact head?_dropWhile hc

theorem rstrip_of_last {s : Text} (hs : ∀ c ∈ s.getLast?, p c = false) : rstrip p s = s := by
  refine List.rdropWhile_eq_self_iff.mpr fun hne => ?_
  rw [hs _ (List.getLast?_eq_some_getLast hne)]
  exact Bool.false_ne_true

theorem rstrip_append_right (s : Text) {b : Text} (hb : ∀ c ∈ b, p c = true) :
    rstrip p (s ++ b) = rstrip p s := by
  rw [rstrip, List.reverse_append,
    List.dropWhile_append_of_pos fun c hc => hb c (List.mem_reverse.mp hc), ← rstrip]

theorem rstrip_append {s b : Text} (hs : ∀ c ∈ s.getLast?, p c = false)
    (hb : ∀ c ∈ b, p c = true) : rstrip p (s ++ b) = s := by
  rw [rstrip_append_right s hb, rstrip_of_last hs]

theorem mem_of_mem_rstrip {s : Text} {c : Char} (h : c ∈ rstrip p s) : c ∈ s :=
  (List.rdropWhile_prefix p s).subset h

/-- Nothing but the characters at the end is lost. -/
theorem mem_rstrip {s : Text} {c : Char} (h : c ∈ s) (hp : p c = false) : c ∈ rstrip p s := by
  obtain ⟨b, hs, hb⟩ := rstrip_eq_append p s
  rw [hs, List.mem_append] at h
  rcases h with h | h
  · exact h
  · exact absurd (hb c h) (by rw [hp]; exact Bool.false_ne_true)

theorem caseless_dot : k.Caseless '.' := CharTables.caseless_of_ascii (by decide) (by decide)

/-- Dots at the end of a name are found in every letter case. -/
theorem rstrip_lower (s : Text) :
    rstrip (· == '.') (k.lower s) = k.lower (rstrip (· == '.') s) := by
  obtain ⟨dots, hs, hdots⟩ := rstrip_eq_append (· == '.') s
  have hdots' : ∀ c ∈ dots, c = '.' := fun c hc => beq_iff_eq.mp (hdots c hc)
  conv_lhs => rw [hs, CharTables.lower_append_dots _ hdots']
  refine rstrip_append (fun c hc => ?_) hdots
  rw [beq_eq_false_iff_ne]
  rintro rfl
  have := last_rstrip (p := (· == '.')) (caseless_dot.getLast?_lower.mp hc)
  exact absurd this (by decide)

/-! ### Joined texts -/

theorem join_concat (c : Char) {ls : List Text} (hne : ls ≠ []) (l : Text) :
    join c (ls ++ [l]) = join c ls ++ c :: l := by
  induction ls with
  | nil => exact absurd rfl hne
  | cons x ls ih =>
    rcases ls with _ | ⟨y, ls⟩
    · simp [join, List.intercalate]
    · have hcons : ∀ zs, join c (x :: y :: zs) = x ++ c :: join c (y :: zs) := by
        intro zs
        simp [join, List.intercalate]
      rw [List.cons_append, List.cons_append, hcons, hcons, ← List.cons_append,
        ih (List.cons_ne_nil _ _), List.append_assoc, List.cons_append]

/-- The last text ends the joined one. -/
theorem join_suffix (c : Char) (ls : List Text) (l : Text) :
    ∃ pre, join c (ls ++ [l]) = pre ++ l := by
  rcases eq_or_ne ls [] with rfl | hne
  · exact ⟨[], by simp [join]⟩
  · exact ⟨join c ls ++ [c], by rw [join_concat c hne, List.append_assoc, List.singleton_append]⟩

/-- What a list is mapped to, element by element. -/
theorem forall₂_of_mapM {α β : Type*} {f : α → Option β} {xs : List α} {ys : List β}
    (h : xs.mapM f = some ys) : List.Forall₂ (fun x y => f x = some y) xs ys := by
  induction xs generalizing ys with
  | nil =>
    rw [List.mapM_nil, Option.pure_def, Option.some.injEq] at h
    rw [← h]
    exact .nil
  | cons x xs ih =>
    rw [List.mapM_cons] at h
    simp only [Option.bind_eq_bind, Option.bind_eq_some_iff, Option.pure_def,
      Option.some.injEq] at h
    obtain ⟨y, hy, ys', hys, rfl⟩ := h
    exact .cons hy (ih hys)

theorem exists_of_forall₂ {α β : Type*} {R : α → β → Prop} {xs : List α} {ys : List β}
    (h : List.Forall₂ R xs ys) {y : β} (hy : y ∈ ys) : ∃ x ∈ xs, R x y := by
  induction h with
  | nil => exact absurd hy List.not_mem_nil
  | @cons x z xs ys hR _ ih =>
    rcases List.mem_cons.mp hy with rfl | hy
    · exact ⟨x, List.mem_cons_self, hR⟩
    · obtain ⟨x', hx', hR'⟩ := ih hy
      exact ⟨x', List.mem_cons_of_mem _ hx', hR'⟩

end PyText

namespace SafeHttp

/-! ### Labels -/

/-- The four characters that separate the labels of a host name. -/
def isLabelDot (c : Char) : Bool := c == '.' || isWideDot c

/-- In ASCII only the full stop is one of them. -/
theorem isLabelDot_ascii {c : Char} (hc : isAsciiChar c = true) (hdot : c ≠ '.') :
    isLabelDot c = false :=
  CharTables.forall_ascii (p := fun c => c ≠ '.' → isLabelDot c = false) (by decide) hc hdot

def splitLabels (s : Text) : List Text := s.splitOnP isLabelDot

/-- The labels of a name, encoded and put together again; `dot` says that the name
ends in a dot. -/
def encodeCore (alabel : Text → Option Text) (dot : Bool) (labels : List Text) : Option Text :=
  if labels = [] then none
  else (labels.mapM alabel).bind fun encoded =>
    let name := join '.' encoded ++ if dot then ['.'] else []
    if name.length ≤ if dot then 254 else 253 then some name else none

/-- `idna.encode(s, uts46=True).decode("ascii")`, by the encoding of a label: an
empty label is allowed at the end only. -/
def encodeLabels (alabel : Text → Option Text) (s : Text) : Option Text :=
  if (splitLabels s).getLast? = some [] then encodeCore alabel true (splitLabels s).dropLast
  else encodeCore alabel false (splitLabels s)

/-- The characters of an encoded label. -/
def isLabelChar (c : Char) : Bool := c.isLower || c.isDigit || c == '-'

/-- What `idna.encode` lets through. -/
structure IdnaChars (idna : Text → Option Text) : Prop where
  /-- out come letters, digits and hyphens of lower-case ASCII, and full stops -/
  chars : ∀ s r, idna s = some r → ∀ c ∈ r, isLabelChar c = true ∨ c = '.'
  /-- of ASCII, only letters, digits, hyphens and full stops go in -/
  plain : ∀ s r, idna s = some r → ∀ c ∈ s, isAsciiChar c = true →
    c.isAlphanum = true ∨ c = '-' ∨ c = '.'

/-- How `idna.encode(s, uts46=True)` goes about it: `remap` replaces and drops characters
of the name, and what it leaves is taken apart and encoded label by label.  `alabel` is
asked for the labels of mapped names only, which have no upper-case letter. -/
structure IdnaRules (idna remap alabel : Text → Option Text) : Prop where
  encode : ∀ s, idna s = (remap s).bind (encodeLabels alabel)
  plain : ∀ s r, idna s = some r → ∀ c ∈ s, isAsciiChar c = true →
    c.isAlphanum = true ∨ c = '-' ∨ c = '.'
  ne_nil : ∀ l r, alabel l = some r → r ≠ []
  chars : ∀ l r, alabel l = some r → ∀ c ∈ r, isLabelChar c = true
  /-- a label of lower-case ASCII is its own encoding -/
  ascii : ∀ l r, alabel l = some r → (∀ c ∈ l, isAsciiChar c = true ∧ c.toLower = c) → r = l

theorem splitLabels_concat {c : Char} (hc : isLabelDot c = true) (s : Text) :
    splitLabels (s ++ [c]) = splitLabels s ++ [[]] := List.splitOnP_append_cons s [] hc

/-- Only a dot at the end leaves an empty label there. -/
theorem getLast?_splitLabels {s : Text} (hne : s ≠ [])
    (h : ∀ c ∈ s.getLast?, isLabelDot c = false) :
    (splitLabels s).getLast? ≠ some [] := by
  induction s with
  | nil => exact absurd rfl hne
  | cons x s ih =>
    rw [splitLabels, List.splitOnP_cons_eq_if_modifyHead]
    rcases eq_or_ne s [] with rfl | hs
    · rw [h x rfl, List.splitOnP_nil]
      simp
    · have hrest := ih hs fun c hc => h c (by rwa [List.getLast?_cons_of_ne_nil hs])
      rw [splitLabels] at hrest
      split
      · rwa [List.getLast?_cons_of_ne_nil (List.splitOnP_ne_nil _ _)]
      · cases hl : s.splitOnP isLabelDot with
        | nil => exact absurd hl (List.splitOnP_ne_nil _ _)
        | cons l ls =>
          rw [hl] at hrest
          cases ls with
          | nil => simp
          | cons l' ls => simpa using hrest

/-- What is no separator is part of a label. -/
theorem exists_mem_splitLabels {s : Text} {c : Char} (hc : c ∈ s) (hdot : isLabelDot c = false) :
    ∃ l ∈ splitLabels s, c ∈ l := by
  induction s with
  | nil => exact absurd hc List.not_mem_nil
  | cons x s ih =>
    rw [splitLabels, List.splitOnP_cons_eq_if_modifyHead]
    rcases List.mem_cons.mp hc with rfl | hc
    · rw [if_neg (by rw [hdot]; exact Bool.false_ne_true)]
      cases hl : s.splitOnP isLabelDot with
      | nil => exact absurd hl (List.splitOnP_ne_nil _ _)
      | cons l ls => exact ⟨c :: l, List.mem_cons_self, List.mem_cons_self⟩
    · obtain ⟨l, hmem, hcl⟩ := ih hc
      rw [splitLabels] at hmem
      split
      · exact ⟨l, List.mem_cons_of_mem _ hmem, hcl⟩
      · cases hl : s.splitOnP isLabelDot with
        | nil => exact absurd hl (List.splitOnP_ne_nil _ _)
        | cons l' ls =>
          rw [hl] at hmem
          rcases List.mem_cons.mp hmem with rfl | hmem
          · exact ⟨x :: l, List.mem_cons_self, List.mem_cons_of_mem _ hcl⟩
          · exact ⟨l, List.mem_cons_of_mem _ hmem, hcl⟩

theorem encodeLabels_concat {alabel : Text → Option Text} {c : Char} (hc : isLabelDot c = true)
    (s : Text) : encodeLabels alabel (s ++ [c]) = encodeCore alabel true (splitLabels s) := by
  rw [encodeLabels, splitLabels_concat hc, List.getLast?_concat, if_pos rfl, List.dropLast_concat]

theorem encodeLabels_of_last {alabel : Text → Option Text} {s : Text} (hne : s ≠ [])
    (h : ∀ c ∈ s.getLast?, isLabelDot c = false) :
    encodeLabels alabel s = encodeCore alabel false (splitLabels s) := by
  rw [encodeLabels, if_neg (getLast?_splitLabels hne h)]

theorem encodeCore_eq_some {alabel : Text → Option Text} {dot : Bool} {labels : List Text}
    {r : Text} (h : encodeCore alabel dot labels = some r) :
    labels ≠ [] ∧ ∃ encoded, labels.mapM alabel = some encoded ∧
      r = join '.' encoded ++ if dot then ['.'] else [] := by
  rw [encodeCore] at h
  split at h
  · cases h
  · rename_i hne
    refine ⟨hne, ?_⟩
    obtain ⟨encoded, henc, hr⟩ := Option.bind_eq_some_iff.mp h
    simp only [Option.ite_none_right_eq_some, Option.some.injEq] at hr
    exact ⟨encoded, henc, hr.2.symm⟩

/-! ### What `ascii_host` returns -/

variable {t : HostTables} {k : CharTables} {remap alabel : Text → Option Text} {host r : Text}

/-- The name `ascii_host` goes on with. -/
def bareName (t : HostTables) (host : Text) : Text := lower t.unicode (rstrip (· == '.') host)

/-- Behind its trailing dots the host ends in another separator of labels. -/
def endsInWideDot (host : Text) : Bool := (rstrip (· == '.') host).getLast?.any isWideDot

/-- A name that is encoded ends in a separator of labels once it is mapped. -/
def endsInDot (remap : Text → Option Text) (t : HostTables) (host : Text) : Bool :=
  !isAscii (bareName t host) &&
    (remap (bareName t host)).any fun mapped => mapped.getLast?.any isLabelDot

theorem asciiHost_eq (t : HostTables) (host : Text) :
    asciiHost t host =
      if (bareName t host).isEmpty then .error "missing host".toList
      else if isAscii (bareName t host) then .ok (bareName t host)
      else match t.idna (bareName t host) with
        | some encoded => .ok encoded
        | none => .error "invalid host name".toList := rfl

/-- **A name of ASCII is returned as it is**; any other one is encoded. -/
theorem asciiHost_eq_ok : asciiHost t host = .ok r ↔ bareName t host ≠ [] ∧
    (isAscii (bareName t host) = true ∧ r = bareName t host ∨
      isAscii (bareName t host) = false ∧ t.idna (bareName t host) = some r) := by
  rw [asciiHost_eq]
  cases hn : bareName t host with
  | nil => simp
  | cons c name =>
    rw [List.isEmpty_cons, if_neg Bool.false_ne_true]
    cases ha : isAscii (c :: name) with
    | true => simp [eq_comm]
    | false =>
      rw [if_neg Bool.false_ne_true]
      cases t.idna (c :: name) <;> simp

theorem fixed_of_mem_bareName (hu : UnicodeRules t.unicode k) {c : Char}
    (hc : c ∈ bareName t host) : k.Fixed c := by
  rw [bareName, hu.lower_eq] at hc
  exact CharTables.fixed_of_mem_lower hc

theorem bareName_eq (hu : UnicodeRules t.unicode k) (host : Text) :
    bareName t host = rstrip (· == '.') (k.lower host) := by
  rw [bareName, hu.lower_eq, rstrip_lower]

/-- The case of a host makes no difference. -/
theorem asciiHost_lower (hu : UnicodeRules t.unicode k) (host : Text) :
    asciiHost t (lower t.unicode host) = asciiHost t host := by
  have hname : bareName t (lower t.unicode host) = bareName t host := by
    rw [bareName_eq hu, bareName_eq hu, hu.lower_eq, CharTables.lower_lower]
  rw [asciiHost_eq, hname, ← asciiHost_eq]

/-- A name in lower case loses the dots at its end. -/
theorem bareName_of_fixed (hu : UnicodeRules t.unicode k) (h : ∀ c ∈ host, k.Fixed c) :
    bareName t host = rstrip (· == '.') host := by
  rw [bareName_eq hu, CharTables.lower_of_fixed h]

theorem mem_bareName_iff (hu : UnicodeRules t.unicode k) {c : Char} (hc : k.Caseless c)
    (hdot : c ≠ '.') : c ∈ bareName t host ↔ c ∈ host := by
  rw [bareName, hu.lower_eq, hc.mem_lower_iff]
  exact ⟨mem_of_mem_rstrip, fun h => mem_rstrip h (beq_eq_false_iff_ne.mpr hdot)⟩

theorem last_bareName (hu : UnicodeRules t.unicode k) {c : Char}
    (hc : c ∈ (bareName t host).getLast?) : c ≠ '.' := by
  rw [bareName_eq hu] at hc
  exact beq_eq_false_iff_ne.mp (last_rstrip (p := (· == '.')) hc)

theorem endsInWideDot_iff (hu : UnicodeRules t.unicode k) :
    endsInWideDot host = true ↔ ∃ c ∈ (bareName t host).getLast?, isLabelDot c = true := by
  rw [endsInWideDot, Option.any_eq_true]
  have hlast : ∀ c, isWideDot c = true →
      (c ∈ (bareName t host).getLast? ↔ c ∈ (rstrip (· == '.') host).getLast?) := by
    intro c hc
    rw [bareName, hu.lower_eq]
    exact (CharTables.caseless_of_wide hc).getLast?_lower
  constructor
  · rintro ⟨c, hmem, hc⟩
    exact ⟨c, (hlast c hc).mpr hmem, by rw [isLabelDot, hc, Bool.or_true]⟩
  · rintro ⟨c, hmem, hc⟩
    have hwide : isWideDot c = true := by
      rw [isLabelDot, beq_eq_false_iff_ne.mpr (last_bareName hu hmem), Bool.false_or] at hc
      exact hc
    exact ⟨c, (hlast c hwide).mp hmem, hwide⟩

theorem endsInWideDot_eq_false_iff (hu : UnicodeRules t.unicode k) :
    endsInWideDot host = false ↔ ∀ c ∈ (bareName t host).getLast?, isLabelDot c = false := by
  rw [← Bool.not_eq_true, endsInWideDot_iff hu]
  simp

/-! ### Encoded names -/

theorem isAlphanum_of_isLabelChar {c : Char} (h : isLabelChar c = true) :
    c.isAlphanum = true ∨ c = '-' := by
  rw [isLabelChar, Bool.or_eq_true, Bool.or_eq_true, beq_iff_eq] at h
  rcases h with (h | h) | h
  · refine .inl ?_
    show (c.isUpper || c.isLower || c.isDigit) = true
    rw [h, Bool.or_true, Bool.true_or]
  · exact .inl (by rw [Char.isAlphanum, h, Bool.or_true])
  · exact .inr h

theorem isLabelChar_ascii {c : Char} (h : isLabelChar c = true) :
    isAsciiChar c = true ∧ c.toLower = c := by
  have hascii : isAsciiChar c = true := by
    rcases isAlphanum_of_isLabelChar h with h | rfl
    · rw [isAsciiChar, decide_eq_true_eq]
      exact Percent.toNat_lt_of_isAlphanum h
    · decide
  refine ⟨hascii, ?_⟩
  exact CharTables.forall_ascii (p := fun c => isLabelChar c = true → c.toLower = c) (by decide)
    hascii h

/-- What `idna.encode` makes of the labels of a name. -/
theorem encodeCore_chars (hi : IdnaRules t.idna remap alabel) {dot : Bool} {labels : List Text}
    (h : encodeCore alabel dot labels = some r) :
    ∃ name, name ≠ [] ∧ (∀ c ∈ name.getLast?, c ≠ '.') ∧
      (∀ c ∈ name, isLabelChar c = true ∨ c = '.') ∧ r = name ++ if dot then ['.'] else [] := by
  obtain ⟨hne, encoded, henc, rfl⟩ := encodeCore_eq_some h
  have hpairs := forall₂_of_mapM henc
  have hlabel : ∀ l ∈ encoded, l ≠ [] ∧ ∀ c ∈ l, isLabelChar c = true := by
    intro l hl
    obtain ⟨x, -, hx⟩ := exists_of_forall₂ hpairs hl
    exact ⟨hi.ne_nil x l hx, hi.chars x l hx⟩
  have hlen : encoded ≠ [] := by
    rintro rfl
    exact hne (List.forall₂_nil_right_iff.mp hpairs)
  obtain ⟨init, last, rfl⟩ := (List.eq_nil_or_concat' encoded).resolve_left hlen
  obtain ⟨hlast, hchars⟩ := hlabel last (by simp)
  obtain ⟨pre, hpre⟩ := join_suffix '.' init last
  refine ⟨_, ?_, ?_, ?_, rfl⟩
  · rw [hpre]
    exact fun hnil => hlast (List.append_eq_nil_iff.mp hnil).2
  · intro c hc
    rw [hpre, List.getLast?_append_of_ne_nil _ hlast] at hc
    have := hchars c (List.mem_of_getLast? hc)
    rintro rfl
    exact absurd this (by decide)
  · intro c hc
    rcases mem_join hc with rfl | ⟨l, hl, hc⟩
    · exact .inr rfl
    · exact .inl ((hlabel l hl).2 c hc)

/-- **What the labels of a name are encoded to**; a dot stands behind it where the name
ends in one. -/
theorem encodeLabels_chars (hi : IdnaRules t.idna remap alabel) {s : Text}
    (h : encodeLabels alabel s = some r) :
    ∃ name, name ≠ [] ∧ (∀ c ∈ name.getLast?, c ≠ '.') ∧
      (∀ c ∈ name, isLabelChar c = true ∨ c = '.') ∧
      r = name ++ if s.getLast?.any isLabelDot then ['.'] else [] := by
  rcases List.eq_nil_or_concat' s with rfl | ⟨init, last, rfl⟩
  · have hnone : encodeLabels alabel [] = none := rfl
    rw [hnone] at h
    cases h
  rw [List.getLast?_concat, Option.any_some]
  cases hdot : isLabelDot last with
  | true =>
    rw [encodeLabels_concat hdot] at h
    exact encodeCore_chars hi h
  | false =>
    rw [encodeLabels_of_last (by simp)] at h
    · exact encodeCore_chars hi h
    · intro c hc
      rw [List.getLast?_concat] at hc
      rw [← Option.some.inj hc]
      exact hdot

/-- **What `idna.encode` returns** is a name of labels; a dot stands behind it where the
mapped name ends in one. -/
theorem idna_eq_some (hi : IdnaRules t.idna remap alabel) (hascii : isAscii (bareName t host) = false)
    (h : t.idna (bareName t host) = some r) :
    ∃ name, name ≠ [] ∧ (∀ c ∈ name.getLast?, c ≠ '.') ∧
      (∀ c ∈ name, isLabelChar c = true ∨ c = '.') ∧
      r = name ++ if endsInDot remap t host then ['.'] else [] := by
  rw [hi.encode] at h
  obtain ⟨mapped, hmapped, henc⟩ := Option.bind_eq_some_iff.mp h
  have hdot : endsInDot remap t host = mapped.getLast?.any isLabelDot := by
    rw [endsInDot, hascii, hmapped]
    rfl
  rw [hdot]
  exact encodeLabels_chars hi henc

theorem IdnaRules.idnaChars {idna : Text → Option Text} (hi : IdnaRules idna remap alabel) :
    IdnaChars idna where
  chars s r h c hc := by
    rw [hi.encode] at h
    obtain ⟨mapped, -, henc⟩ := Option.bind_eq_some_iff.mp h
    obtain ⟨name, -, -, hchars, rfl⟩ := encodeLabels_chars (t := ⟨basicUnicode, idna⟩) hi henc
    rcases List.mem_append.mp hc with hc | hc
    · exact hchars c hc
    · split at hc
      · exact .inr (List.mem_singleton.mp hc)
      · exact absurd hc List.not_mem_nil
  plain := hi.plain

/-- **The characters of what `ascii_host` returns** are those of ASCII in lower case. -/
theorem asciiHost_chars (hu : UnicodeRules t.unicode k) (hi : IdnaChars t.idna)
    (h : asciiHost t host = .ok r) : ∀ c ∈ r, isAsciiChar c = true ∧ k.Fixed c := by
  intro c hc
  obtain ⟨-, ⟨hascii, rfl⟩ | ⟨-, henc⟩⟩ := asciiHost_eq_ok.mp h
  · exact ⟨List.all_eq_true.mp hascii c hc, fixed_of_mem_bareName hu hc⟩
  · rcases hi.chars _ _ henc c hc with hc | rfl
    · obtain ⟨hascii, hlower⟩ := isLabelChar_ascii hc
      refine ⟨hascii, ?_, ?_⟩
      · rintro rfl
        exact absurd hascii (by decide)
      · rw [k.lowerChar_ascii c hascii, hlower]
    · exact ⟨by decide, caseless_dot.fixed⟩

/-- **What `ascii_host` returns** is a name; a dot stands behind it where the mapped name
ends in one. -/
theorem asciiHost_cases (hu : UnicodeRules t.unicode k) (hi : IdnaRules t.idna remap alabel)
    (h : asciiHost t host = .ok r) :
    ∃ name, name ≠ [] ∧ (∀ c ∈ name.getLast?, c ≠ '.') ∧
      r = name ++ if endsInDot remap t host then ['.'] else [] := by
  obtain ⟨hne, ⟨hascii, rfl⟩ | ⟨hascii, henc⟩⟩ := asciiHost_eq_ok.mp h
  · have hdot : endsInDot remap t host = false := by
      rw [endsInDot, hascii]
      rfl
    refine ⟨bareName t host, hne, fun c hc => last_bareName hu hc, ?_⟩
    rw [hdot]
    exact (List.append_nil _).symm
  · obtain ⟨name, hname, hlast, -, hr⟩ := idna_eq_some hi hascii henc
    exact ⟨name, hname, hlast, hr⟩

theorem asciiHost_ne_nil (hu : UnicodeRules t.unicode k) (hi : IdnaRules t.idna remap alabel)
    (h : asciiHost t host = .ok r) : r ≠ [] := by
  obtain ⟨name, hname, -, rfl⟩ := asciiHost_cases hu hi h
  exact fun hnil => hname (List.append_eq_nil_iff.mp hnil).1

theorem asciiHost_dot_iff (hu : UnicodeRules t.unicode k) (hi : IdnaRules t.idna remap alabel)
    (h : asciiHost t host = .ok r) :
    (∀ c ∈ r.getLast?, c ≠ '.') ↔ endsInDot remap t host = false := by
  obtain ⟨name, -, hlast, rfl⟩ := asciiHost_cases hu hi h
  cases endsInDot remap t host with
  | true =>
    refine iff_of_false (fun hdot => hdot '.' ?_ rfl) (by decide)
    rw [if_pos rfl, List.getLast?_concat]
    rfl
  | false =>
    rw [if_neg Bool.false_ne_true, List.append_nil]
    exact iff_of_true hlast rfl

/-- **Encoded once more**, a name loses the dot that was encoded at its end. -/
theorem asciiHost_again (hu : UnicodeRules t.unicode k) (hi : IdnaRules t.idna remap alabel)
    (h : asciiHost t host = .ok r) :
    ∃ name, asciiHost t r = .ok name ∧ r = name ++ if endsInDot remap t host then ['.'] else [] := by
  have hchars := asciiHost_chars hu hi.idnaChars h
  have hr : bareName t r = rstrip (· == '.') r :=
    bareName_of_fixed hu fun c hc => (hchars c hc).2
  obtain ⟨name, hname, hlast, rfl⟩ := asciiHost_cases hu hi h
  refine ⟨name, ?_, rfl⟩
  have hbare : bareName t (name ++ if endsInDot remap t host then ['.'] else []) = name := by
    rw [hr]
    refine rstrip_append (fun c hc => beq_eq_false_iff_ne.mpr (hlast c hc)) fun c hc => ?_
    split at hc
    · rw [List.mem_singleton.mp hc]
      rfl
    · exact absurd hc List.not_mem_nil
  have hascii : isAscii name = true :=
    List.all_eq_true.mpr fun c hc => (hchars c (List.mem_append_left _ hc)).1
  exact asciiHost_eq_ok.mpr ⟨by rw [hbare]; exact hname,
    .inl ⟨by rw [hbare]; exact hascii, hbare.symm⟩⟩

/-! ### A table of one label -/

/-- An encoding that knows one label outside ASCII. -/
def bookLabel (l : Text) : Option Text :=
  if l = "bücher".toList then some "xn--bcher-kva".toList
  else if l ≠ [] ∧ l.all isLabelChar = true then some l
  else none

def bookHosts : HostTables := ⟨basicUnicode, encodeLabels bookLabel⟩

theorem bookLabel_eq_some {l r : Text} (h : bookLabel l = some r) :
    l = "bücher".toList ∧ r = "xn--bcher-kva".toList ∨
      r = l ∧ l ≠ [] ∧ ∀ c ∈ l, isLabelChar c = true := by
  rw [bookLabel] at h
  split at h
  · exact .inl ⟨‹_›, (Option.some.inj h).symm⟩
  · split at h
    · rename_i hl
      exact .inr ⟨(Option.some.inj h).symm, hl.1, List.all_eq_true.mp hl.2⟩
    · cases h

/-- The characters of a label that was encoded. -/
theorem mem_encodeCore {dot : Bool} {s : Text} {c : Char}
    (h : encodeCore bookLabel dot (splitLabels s) = some r) (hc : c ∈ s)
    (hascii : isAsciiChar c = true) : c.isAlphanum = true ∨ c = '-' ∨ c = '.' := by
  by_cases hdot : c = '.'
  · exact .inr (.inr hdot)
  · obtain ⟨-, encoded, henc, -⟩ := encodeCore_eq_some h
    obtain ⟨l, hl, hcl⟩ := exists_mem_splitLabels hc (isLabelDot_ascii hascii hdot)
    obtain ⟨e, -, he⟩ := exists_of_forall₂ (forall₂_of_mapM henc).flip hl
    rcases bookLabel_eq_some he with ⟨rfl, -⟩ | ⟨rfl, -, hchars⟩
    · have hall : ("bücher".toList.all fun c => !isAsciiChar c || c.isAlphanum) = true := by decide
      have hplain := List.all_eq_true.mp hall c hcl
      rw [hascii] at hplain
      exact .inl hplain
    · exact (isAlphanum_of_isLabelChar (hchars c hcl)).imp_right .inl

theorem bookHosts_rules : IdnaRules bookHosts.idna some bookLabel where
  encode _ := rfl
  ne_nil l r h := by
    rcases bookLabel_eq_some h with ⟨-, rfl⟩ | ⟨rfl, hne, -⟩
    · decide
    · exact hne
  chars l r h := by
    rcases bookLabel_eq_some h with ⟨-, rfl⟩ | ⟨rfl, -, hchars⟩
    · exact List.all_eq_true.mp (by decide)
    · exact hchars
  plain s r h c hc hascii := by
    have henc : encodeLabels bookLabel s = some r := h
    obtain ⟨init, last, rfl⟩ := (List.eq_nil_or_concat' s).resolve_left (List.ne_nil_of_mem hc)
    cases hdot : isLabelDot last with
    | true =>
      rw [encodeLabels_concat hdot] at henc
      rw [List.mem_append, List.mem_singleton] at hc
      rcases hc with hc | rfl
      · exact mem_encodeCore henc hc hascii
      · refine .inr (.inr ?_)
        by_contra hne
        rw [isLabelDot_ascii hascii hne] at hdot
        exact Bool.false_ne_true hdot
    | false =>
      rw [encodeLabels_of_last (List.ne_nil_of_mem hc)] at henc
      · exact mem_encodeCore henc hc hascii
      · intro x hx
        rw [List.getLast?_concat] at hx
        rw [← Option.some.inj hx]
        exact hdot
  ascii l r h hl := by
    rcases bookLabel_eq_some h with ⟨rfl, -⟩ | ⟨rfl, -, -⟩
    · exact absurd (hl 'ü' (by decide)).1 (by decide)
    · rfl

end SafeHttp
