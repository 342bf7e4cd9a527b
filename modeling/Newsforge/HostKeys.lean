/-
One key for one host name.

* `SameHost` — two spellings of a host, which differ in letter case, in the separators
  of labels or in one separator at the end;
* `lower_sameHost` — what of that is left in lower case: the separators, and the two
  small sigmas;
* `asciiHost_labels` — the encoded labels, one by one, where `idna.encode` takes a name
  apart as it is given;
* `SameUrl`, `SameAddress` — URLs and addresses that differ in such a spelling.

Main result: `asciiHost_sameHost_iff`.
-/
import Newsforge.CanonicalUrl
import Newsforge.Targets

open PyText UrlParse SafeHttp

namespace Targets

variable {k : CharTables} {t : HostTables} {alabel : Text → Option Text} {a b : Text}

/-! ### Spellings of a host -/

/-- Two spellings of a letter: they agree in lower case, or are a capital sigma and the
small one that ends a word. -/
def SameLetter (k : CharTables) (c d : Char) : Prop :=
  k.lowerChar c = k.lowerChar d ∨ c = 'Σ' ∧ d = 'ς' ∨ c = 'ς' ∧ d = 'Σ'

/-- Two spellings of a letter, or two separators of labels. -/
def SameChar (k : CharTables) (c d : Char) : Prop :=
  isLabelDot c = true ∧ isLabelDot d = true ∨ SameLetter k c d

/-- A separator at the end of a host, which may be missing. -/
def IsTail (x : Text) : Prop := x = [] ∨ ∃ c, isLabelDot c = true ∧ x = [c]

/-- Two spellings of a host. -/
def SameHost (k : CharTables) (a b : Text) : Prop :=
  ∃ a' x b' y, a = a' ++ x ∧ b = b' ++ y ∧ IsTail x ∧ IsTail y ∧ List.Forall₂ (SameChar k) a' b'

/-! ### In lower case -/

def IsSigma (c : Char) : Prop := c = 'σ' ∨ c = 'ς'

/-- The same letter, or two small sigmas. -/
def NearLetter (c d : Char) : Prop := c = d ∨ IsSigma c ∧ IsSigma d

/-- Two separators, or letters that are near. -/
def NearChar (c d : Char) : Prop :=
  isLabelDot c = true ∧ isLabelDot d = true ∨
    isLabelDot c = false ∧ isLabelDot d = false ∧ NearLetter c d

theorem nearChar_refl (c : Char) : NearChar c c := by
  cases hc : isLabelDot c with
  | true => exact .inl ⟨hc, hc⟩
  | false => exact .inr ⟨hc, hc, .inl rfl⟩

theorem nearChar_of_sigma {c d : Char} (hc : IsSigma c) (hd : IsSigma d) : NearChar c d := by
  refine .inr ⟨?_, ?_, .inr ⟨hc, hd⟩⟩
  · rcases hc with rfl | rfl <;> decide
  · rcases hd with rfl | rfl <;> decide

theorem NearChar.isLabelDot_eq {c d : Char} (h : NearChar c d) : isLabelDot c = isLabelDot d := by
  rcases h with ⟨hc, hd⟩ | ⟨hc, hd, -⟩ <;> rw [hc, hd]

theorem lowerAt_sigma (before after : Text) :
    ∃ c, IsSigma c ∧ k.lowerAt before 'Σ' after = [c] := by
  rw [CharTables.lowerAt]
  split
  · exact ⟨'ς', .inr rfl, rfl⟩
  · exact ⟨'σ', .inl rfl, k.lowerChar_sigma⟩

theorem lowerAt_of_ne {c : Char} (hc : c ≠ 'Σ') (before after : Text) :
    k.lowerAt before c after = k.lowerChar c := by
  rw [CharTables.lowerAt, if_neg fun h => hc h.1]

theorem caseless_of_labelDot {c : Char} (hc : isLabelDot c = true) : k.Caseless c := by
  rw [isLabelDot, Bool.or_eq_true, beq_iff_eq] at hc
  rcases hc with rfl | hc
  · exact caseless_dot
  · exact CharTables.caseless_of_wide hc

/-- Two spellings are near in lower case, whatever stands around them. -/
theorem lowerAt_sameChar {c d : Char} (h : SameChar k c d) (before before' after after' : Text) :
    List.Forall₂ NearChar (k.lowerAt before c after) (k.lowerAt before' d after') := by
  have hone : ∀ {c d : Char}, NearChar c d → List.Forall₂ NearChar [c] [d] := fun h => .cons h .nil
  rcases h with ⟨hc, hd⟩ | h | ⟨rfl, rfl⟩ | ⟨rfl, rfl⟩
  · rw [CharTables.lowerAt_of_fixed (caseless_of_labelDot hc).fixed,
      CharTables.lowerAt_of_fixed (caseless_of_labelDot hd).fixed]
    exact hone (.inl ⟨hc, hd⟩)
  · by_cases hc : c = 'Σ' <;> by_cases hd : d = 'Σ'
    · subst hc hd
      obtain ⟨x, hx, hx'⟩ := lowerAt_sigma (k := k) before after
      obtain ⟨y, hy, hy'⟩ := lowerAt_sigma (k := k) before' after'
      rw [hx', hy']
      exact hone (nearChar_of_sigma hx hy)
    · subst hc
      obtain ⟨x, hx, hx'⟩ := lowerAt_sigma (k := k) before after
      rw [hx', lowerAt_of_ne hd, ← h, k.lowerChar_sigma]
      exact hone (nearChar_of_sigma hx (.inl rfl))
    · subst hd
      obtain ⟨y, hy, hy'⟩ := lowerAt_sigma (k := k) before' after'
      rw [hy', lowerAt_of_ne hc, h, k.lowerChar_sigma]
      exact hone (nearChar_of_sigma (.inl rfl) hy)
    · rw [lowerAt_of_ne hc, lowerAt_of_ne hd, h]
      exact List.forall₂_same.mpr fun x _ => nearChar_refl x
  · obtain ⟨x, hx, hx'⟩ := lowerAt_sigma (k := k) before after
    rw [hx', lowerAt_of_ne (by decide), k.lowerChar_final]
    exact hone (nearChar_of_sigma hx (.inr rfl))
  · obtain ⟨y, hy, hy'⟩ := lowerAt_sigma (k := k) before' after'
    rw [hy', lowerAt_of_ne (by decide), k.lowerChar_final]
    exact hone (nearChar_of_sigma (.inr rfl) hy)

theorem lowerFrom_sameChars (h : List.Forall₂ (SameChar k) a b) (before before' x y : Text) :
    ∃ a' b', k.lowerFrom before (a ++ x) = a' ++ k.lowerFrom (a.reverse ++ before) x ∧
      k.lowerFrom before' (b ++ y) = b' ++ k.lowerFrom (b.reverse ++ before') y ∧
      List.Forall₂ NearChar a' b' := by
  induction h generalizing before before' with
  | nil => exact ⟨[], [], rfl, rfl, .nil⟩
  | @cons c d a b hcd hab ih =>
    obtain ⟨a', b', ha', hb', hnear⟩ := ih (c :: before) (d :: before')
    refine ⟨k.lowerAt before c (a ++ x) ++ a', k.lowerAt before' d (b ++ y) ++ b', ?_, ?_,
      List.rel_append (lowerAt_sameChar hcd _ _ _ _) hnear⟩
    · rw [List.cons_append, CharTables.lowerFrom, ha', List.append_assoc, List.reverse_cons,
        List.append_assoc, List.singleton_append]
    · rw [List.cons_append, CharTables.lowerFrom, hb', List.append_assoc, List.reverse_cons,
        List.append_assoc, List.singleton_append]

theorem IsTail.dots {x : Text} (hx : IsTail x) : ∀ c ∈ x, isLabelDot c = true := by
  rcases hx with rfl | ⟨c, hc, rfl⟩
  · exact fun c hc => absurd hc List.not_mem_nil
  · intro d hd
    rw [List.mem_singleton.mp hd]
    exact hc

theorem lowerFrom_dots {x : Text} (hx : ∀ c ∈ x, isLabelDot c = true) (before : Text) :
    k.lowerFrom before x = x :=
  CharTables.lowerFrom_of_fixed (fun c hc => (caseless_of_labelDot (hx c hc)).fixed) before

/-- **In lower case** two spellings of a host are near, but for the separators at their
ends. -/
theorem lower_sameHost (h : SameHost k a b) :
    ∃ a' x b' y, k.lower a = a' ++ x ∧ k.lower b = b' ++ y ∧ (∀ c ∈ x, isLabelDot c = true) ∧
      (∀ c ∈ y, isLabelDot c = true) ∧ List.Forall₂ NearChar a' b' := by
  obtain ⟨a', x, b', y, rfl, rfl, hx, hy, hchars⟩ := h
  obtain ⟨la, lb, hla, hlb, hnear⟩ := lowerFrom_sameChars hchars [] [] x y
  rw [lowerFrom_dots hx.dots] at hla
  rw [lowerFrom_dots hy.dots] at hlb
  exact ⟨la, x, lb, y, hla, hlb, hx.dots, hy.dots, hnear⟩

/-! ### Labels -/

/-- A name that is taken apart as it is given ends in a separator if its host does. -/
theorem endsInDot_some (hu : UnicodeRules t.unicode k) (host : Text) :
    endsInDot some t host = endsInWideDot host := by
  rw [Bool.eq_iff_iff, endsInWideDot_iff hu, endsInDot, Bool.and_eq_true, Bool.not_eq_true',
    Option.any_some, Option.any_eq_true]
  refine ⟨fun h => h.2, fun h => ⟨?_, h⟩⟩
  obtain ⟨c, hc, hdot⟩ := h
  rw [← Bool.not_eq_true]
  intro hascii
  have hplain := isLabelDot_ascii (List.all_eq_true.mp hascii c (List.mem_of_getLast? hc))
    (last_bareName hu hc)
  rw [hplain] at hdot
  exact Bool.false_ne_true hdot

/-- Behind its trailing dots nothing of the name is a separator. -/
theorem bareName_eq_rstrip (hu : UnicodeRules t.unicode k) (hwide : endsInWideDot a = false)
    {core dots : Text} (hlower : k.lower a = core ++ dots)
    (hdots : ∀ c ∈ dots, isLabelDot c = true) : bareName t a = rstrip isLabelDot core := by
  have hlast := (endsInWideDot_eq_false_iff hu).mp hwide
  obtain ⟨tail, htail, hall⟩ := rstrip_eq_append (· == '.') (k.lower a)
  rw [← bareName_eq hu] at htail
  have htail' : ∀ c ∈ tail, isLabelDot c = true := by
    intro c hc
    rw [isLabelDot, hall c hc, Bool.true_or]
  rw [← rstrip_append hlast htail', ← htail, hlower, rstrip_append_right core hdots]

theorem dropWhile_nearChars {x y : Text} (h : List.Forall₂ NearChar x y) :
    List.Forall₂ NearChar (x.dropWhile isLabelDot) (y.dropWhile isLabelDot) := by
  induction h with
  | nil => exact .nil
  | cons hcd hxy ih =>
    rw [List.dropWhile_cons, List.dropWhile_cons, ← hcd.isLabelDot_eq]
    split
    · exact ih
    · exact .cons hcd hxy

theorem rstrip_nearChars {x y : Text} (h : List.Forall₂ NearChar x y) :
    List.Forall₂ NearChar (rstrip isLabelDot x) (rstrip isLabelDot y) :=
  List.forall₂_reverse_iff.mpr (dropWhile_nearChars (List.forall₂_reverse_iff.mpr h))

/-- Texts that are near have labels that are near. -/
theorem splitLabels_nearChars {x y : Text} (h : List.Forall₂ NearChar x y) :
    List.Forall₂ (List.Forall₂ NearLetter) (splitLabels x) (splitLabels y) := by
  induction h with
  | nil => exact .cons .nil .nil
  | @cons c d x y hcd hxy ih =>
    rw [splitLabels, splitLabels] at ih ⊢
    rw [List.splitOnP_cons_eq_if_modifyHead, List.splitOnP_cons_eq_if_modifyHead,
      ← hcd.isLabelDot_eq]
    split
    · exact .cons .nil ih
    · rename_i hdot
      have hletter : NearLetter c d := by
        rcases hcd with ⟨hc, -⟩ | ⟨-, -, h⟩
        · exact absurd hc hdot
        · exact h
      generalize x.splitOnP isLabelDot = ls at ih ⊢
      generalize y.splitOnP isLabelDot = ls' at ih ⊢
      cases ih with
      | nil => exact .nil
      | cons hl hls => exact .cons (.cons hletter hl) hls

theorem mem_splitLabels {s l : Text} (hl : l ∈ splitLabels s) {c : Char} (hc : c ∈ l) :
    c ∈ s ∧ isLabelDot c = false := by
  induction s generalizing l with
  | nil =>
    rw [splitLabels, List.splitOnP_nil, List.mem_singleton] at hl
    rw [hl] at hc
    exact absurd hc List.not_mem_nil
  | cons x s ih =>
    rw [splitLabels, List.splitOnP_cons_eq_if_modifyHead] at hl
    split at hl
    · rcases List.mem_cons.mp hl with rfl | hl
      · exact absurd hc List.not_mem_nil
      · exact ⟨List.mem_cons_of_mem _ (ih hl hc).1, (ih hl hc).2⟩
    · rename_i hx
      cases hls : s.splitOnP isLabelDot with
      | nil => exact absurd hls (List.splitOnP_ne_nil _ _)
      | cons l' ls =>
        have hmem : ∀ m, m ∈ l' :: ls → m ∈ splitLabels s := by
          intro m hm
          rw [splitLabels, hls]
          exact hm
        rw [hls, List.modifyHead_cons] at hl
        rcases List.mem_cons.mp hl with rfl | hl
        · rcases List.mem_cons.mp hc with rfl | hc
          · exact ⟨List.mem_cons_self, by simpa using hx⟩
          · have := ih (hmem l' List.mem_cons_self) hc
            exact ⟨List.mem_cons_of_mem _ this.1, this.2⟩
        · have := ih (hmem l (List.mem_cons_of_mem _ hl)) hc
          exact ⟨List.mem_cons_of_mem _ this.1, this.2⟩

/-- In ASCII the labels are put together again by full stops. -/
theorem join_splitLabels {s : Text} (h : isAscii s = true) : join '.' (splitLabels s) = s := by
  have hsplit : splitLabels s = split '.' s := by
    rw [splitLabels, split, List.splitOn_eq_splitOnP]
    induction s with
    | nil => rfl
    | cons c s ih =>
      rw [isAscii, List.all_cons, Bool.and_eq_true] at h
      have hc : isLabelDot c = (c == '.') :=
        CharTables.forall_ascii (p := fun c => isLabelDot c = (c == '.')) (by decide) h.1
      rw [List.splitOnP_cons_eq_if_modifyHead, List.splitOnP_cons_eq_if_modifyHead, hc, ih h.2]
  rw [hsplit]
  exact IPAddress.join_split '.' s

/-! ### Encoded labels -/

/-- A label and its encoding: in a name of ASCII it is its own. -/
def Encodes (alabel : Text → Option Text) (l e : Text) : Prop :=
  alabel l = some e ∨ e = l ∧ ∀ c ∈ l, isAsciiChar c = true ∧ c.toLower = c

/-- The two small sigmas are told apart. -/
def TellsSigma (alabel : Text → Option Text) : Prop :=
  ∀ l l' r, List.Forall₂ NearLetter l l' → alabel l = some r → alabel l' = some r → l = l'

theorem encodes_unique (hi : IdnaRules t.idna some alabel) {l e e' : Text} (h : Encodes alabel l e)
    (h' : Encodes alabel l e') : e = e' := by
  rcases h with h | ⟨rfl, hl⟩ <;> rcases h' with h' | ⟨rfl, hl'⟩
  · exact Option.some.inj (h.symm.trans h')
  · exact hi.ascii _ _ h hl'
  · exact (hi.ascii _ _ h' hl).symm
  · rfl

theorem eq_of_near_ascii {l l' : Text} (h : List.Forall₂ NearLetter l l')
    (hl : ∀ c ∈ l, isAsciiChar c = true) : l = l' := by
  induction h with
  | nil => rfl
  | @cons c d l l' hcd _ ih =>
    obtain ⟨hc, hl⟩ := List.forall_mem_cons.mp hl
    rcases hcd with rfl | ⟨rfl | rfl, -⟩
    · rw [ih hl]
    · exact absurd hc (by decide)
    · exact absurd hc (by decide)

theorem nearLetter_symm {c d : Char} (h : NearLetter c d) : NearLetter d c := by
  rcases h with rfl | ⟨hc, hd⟩
  · exact .inl rfl
  · exact .inr ⟨hd, hc⟩

/-- Labels that are near are the same when they have one encoding. -/
theorem label_eq (hsigma : TellsSigma alabel) {l l' e : Text} (hnear : List.Forall₂ NearLetter l l')
    (h : Encodes alabel l e) (h' : Encodes alabel l' e) : l = l' := by
  have hback : List.Forall₂ NearLetter l' l :=
    List.Forall₂.flip (List.Forall₂.imp (fun _ _ => nearLetter_symm) hnear)
  rcases h with h | ⟨rfl, hl⟩ <;> rcases h' with h' | ⟨heq, hl'⟩
  · exact hsigma l l' e hnear h h'
  · exact (eq_of_near_ascii hback fun c hc => (hl' c hc).1).symm
  · exact eq_of_near_ascii hnear fun c hc => (hl c hc).1
  · exact heq

theorem labels_eq (hsigma : TellsSigma alabel) {ls ls' es : List Text}
    (hnear : List.Forall₂ (List.Forall₂ NearLetter) ls ls')
    (h : List.Forall₂ (Encodes alabel) ls es) (h' : List.Forall₂ (Encodes alabel) ls' es) :
    ls = ls' := by
  induction hnear generalizing es with
  | nil => rfl
  | cons hl _ ih =>
    cases h with
    | cons he hes =>
      cases h' with
      | cons he' hes' => rw [label_eq hsigma hl he he', ih hes hes']

theorem encodings_eq (hi : IdnaRules t.idna some alabel) {ls es es' : List Text}
    (h : List.Forall₂ (Encodes alabel) ls es) (h' : List.Forall₂ (Encodes alabel) ls es') :
    es = es' := by
  induction h generalizing es' with
  | nil => rw [List.forall₂_nil_left_iff.mp h']
  | cons he _ ih =>
    cases h' with
    | cons he' hes' => rw [encodes_unique hi he he', ih hes']

theorem encodings_ne_nil {s : Text} {es : List Text}
    (h : List.Forall₂ (Encodes alabel) (splitLabels s) es) : es ≠ [] := by
  rintro rfl
  exact List.splitOnP_ne_nil _ _ (List.forall₂_nil_right_iff.mp h)

/-- **What `ascii_host` returns, label by label.** -/
theorem asciiHost_labels (hu : UnicodeRules t.unicode k) (hi : IdnaRules t.idna some alabel) {r : Text}
    (h : asciiHost t a = .ok r) (hwide : endsInWideDot a = false) :
    ∃ es, List.Forall₂ (Encodes alabel) (splitLabels (bareName t a)) es ∧
      (∀ e ∈ es, '.' ∉ e) ∧ r = join '.' es := by
  obtain ⟨hne, ⟨hascii, rfl⟩ | ⟨-, henc⟩⟩ := asciiHost_eq_ok.mp h
  · have hchars : ∀ l ∈ splitLabels (bareName t a), ∀ c ∈ l,
        (isAsciiChar c = true ∧ c.toLower = c) ∧ c ≠ '.' := by
      intro l hl c hc
      obtain ⟨hmem, hdot⟩ := mem_splitLabels hl hc
      have hca := List.all_eq_true.mp hascii c hmem
      have hfixed := (fixed_of_mem_bareName hu hmem).2
      rw [k.lowerChar_ascii c hca] at hfixed
      refine ⟨⟨hca, List.singleton_injective hfixed⟩, ?_⟩
      rintro rfl
      exact absurd hdot (by decide)
    refine ⟨splitLabels (bareName t a), ?_, ?_, (join_splitLabels hascii).symm⟩
    · exact List.forall₂_same.mpr fun l hl => .inr ⟨rfl, fun c hc => (hchars l hl c hc).1⟩
    · exact fun l hl hdot => (hchars l hl '.' hdot).2 rfl
  · have hlast := (endsInWideDot_eq_false_iff hu).mp hwide
    rw [hi.encode, Option.bind_some, encodeLabels_of_last hne hlast] at henc
    obtain ⟨-, es, hes, rfl⟩ := encodeCore_eq_some henc
    have hpairs := forall₂_of_mapM hes
    refine ⟨es, hpairs.imp fun l e he => .inl he, fun e he hdot => ?_, List.append_nil _⟩
    obtain ⟨l, -, hl⟩ := exists_of_forall₂ hpairs he
    exact absurd (hi.chars l e hl '.' hdot) (by decide)

/-- Neither host ends in a separator other than the full stop, and their labels agree in
lower case. -/
def SameNames (t : HostTables) (a b : Text) : Prop :=
  endsInWideDot a = false ∧ endsInWideDot b = false ∧
    splitLabels (bareName t a) = splitLabels (bareName t b)

theorem asciiHost_agrees_iff (hu : UnicodeRules t.unicode k) (hi : IdnaRules t.idna some alabel)
    (hsigma : TellsSigma alabel) (h : SameHost k a b) {r r' : Text} (ha : asciiHost t a = .ok r)
    (hb : asciiHost t b = .ok r') :
    r = r' ∧ (∀ c ∈ r.getLast?, c ≠ '.') ↔ SameNames t a b := by
  constructor
  · rintro ⟨rfl, hdot⟩
    have hwa := (asciiHost_dot_iff hu hi ha).mp hdot
    have hwb := (asciiHost_dot_iff hu hi hb).mp hdot
    rw [endsInDot_some hu] at hwa hwb
    refine ⟨hwa, hwb, ?_⟩
    obtain ⟨ca, x, cb, y, hla, hlb, hx, hy, hnear⟩ := lower_sameHost h
    have hnames : List.Forall₂ NearChar (bareName t a) (bareName t b) := by
      rw [bareName_eq_rstrip hu hwa hla hx, bareName_eq_rstrip hu hwb hlb hy]
      exact rstrip_nearChars hnear
    -- the encodings can be told from the name they make
    obtain ⟨es, hes, hdots, hr⟩ := asciiHost_labels hu hi ha hwa
    obtain ⟨es', hes', hdots', hr'⟩ := asciiHost_labels hu hi hb hwb
    obtain rfl : es = es' := by
      rw [← split_join (encodings_ne_nil hes) hdots, ← hr, hr',
        split_join (encodings_ne_nil hes') hdots']
    exact labels_eq hsigma (splitLabels_nearChars hnames) hes hes'
  · rintro ⟨hwa, hwb, hlabels⟩
    obtain ⟨es, hes, -, rfl⟩ := asciiHost_labels hu hi ha hwa
    obtain ⟨es', hes', -, rfl⟩ := asciiHost_labels hu hi hb hwb
    rw [hlabels] at hes
    refine ⟨by rw [encodings_eq hi hes hes'], (asciiHost_dot_iff hu hi ha).mpr ?_⟩
    rwa [endsInDot_some hu]

/-! ### Hosts in URLs -/

theorem lowerFrom_of_no_sigma {s : Text} (h : 'Σ' ∉ s) (before : Text) :
    k.lowerFrom before s = s.flatMap k.lowerChar := by
  induction s generalizing before with
  | nil => rfl
  | cons c s ih =>
    rw [List.mem_cons, not_or] at h
    rw [CharTables.lowerFrom, lowerAt_of_ne (Ne.symm h.1), ih h.2, List.flatMap_cons]

theorem mem_lowerFrom_of_fixed {s : Text} {c : Char} (hc : c ∈ s) (hfixed : k.Fixed c)
    (before : Text) : c ∈ k.lowerFrom before s := by
  induction s generalizing before with
  | nil => exact absurd hc List.not_mem_nil
  | cons x s ih =>
    rw [CharTables.lowerFrom, List.mem_append]
    rcases List.mem_cons.mp hc with rfl | hc
    · rw [CharTables.lowerAt_of_fixed hfixed]
      exact .inl (List.mem_singleton_self _)
    · exact .inr (ih hc _)

theorem exists_sigma_of_mem {s : Text} (h : 'Σ' ∈ s) (before : Text) :
    ∃ c ∈ k.lowerFrom before s, IsSigma c := by
  induction s generalizing before with
  | nil => exact absurd h List.not_mem_nil
  | cons x s ih =>
    rw [CharTables.lowerFrom]
    rcases List.mem_cons.mp h with rfl | h
    · obtain ⟨c, hc, hlower⟩ := lowerAt_sigma (k := k) before s
      exact ⟨c, by rw [hlower]; simp, hc⟩
    · obtain ⟨c, hmem, hc⟩ := ih h (x :: before)
      exact ⟨c, List.mem_append_right _ hmem, hc⟩

/-- A name with a sigma and a percent sign is refused. -/
theorem asciiHost_of_sigma (hi : IdnaRules t.idna some alabel) {c : Char} (hpercent : '%' ∈ bareName t a)
    (hmem : c ∈ bareName t a) (hc : IsSigma c) :
    asciiHost t a = .error "invalid host name".toList := by
  have hne : (bareName t a).isEmpty = false :=
    List.isEmpty_eq_false_iff.mpr (List.ne_nil_of_mem hmem)
  have hascii : isAscii (bareName t a) = false := by
    rw [isAscii, List.all_eq_false]
    refine ⟨c, hmem, ?_⟩
    rcases hc with rfl | rfl <;> decide
  rw [asciiHost_eq, hne, hascii, if_neg Bool.false_ne_true, if_neg Bool.false_ne_true]
  cases henc : t.idna (bareName t a) with
  | none => rfl
  | some r =>
    rcases hi.plain _ _ henc '%' hpercent (by decide) with h | h | h <;> exact absurd h (by decide)

theorem mem_bareName_of_sigma (hu : UnicodeRules t.unicode k) {c : Char} (hc : IsSigma c)
    (hmem : c ∈ k.lower a) : c ∈ bareName t a := by
  rw [bareName_eq hu]
  refine mem_rstrip hmem ?_
  rcases hc with rfl | rfl <;> decide

/-- A host is encoded alike, whether it was taken out of a URL or not. -/
theorem asciiHost_lowerHost (hu : UnicodeRules t.unicode k) (hi : IdnaRules t.idna some alabel)
    (raw : Text) : asciiHost t (lowerHost t.unicode raw) = asciiHost t raw := by
  rcases partition_cases '%' raw with ⟨-, heq⟩ | ⟨name, zone, hraw, -, heq⟩
  · have hhost : lowerHost t.unicode raw = lower t.unicode raw := by
      rw [lowerHost, heq]
      simp
    rw [hhost, asciiHost_lower hu]
  · have hhost : lowerHost t.unicode raw = k.lower name ++ '%' :: zone := by
      rw [lowerHost, heq]
      simp [hu.lower_eq]
    have hfixed : ∀ c ∈ k.lower name, k.Fixed c := fun c hc => CharTables.fixed_of_mem_lower hc
    by_cases hsigma : 'Σ' ∈ raw
    · -- both names have a sigma, and with the zone neither is encoded
      have hpercent : '%' ∈ raw := by
        rw [hraw]
        simp
      have hcaseless : k.Caseless '%' := CharTables.caseless_of_ascii (by decide) (by decide)
      obtain ⟨c, hmem, hc⟩ : ∃ c ∈ k.lower (lowerHost t.unicode raw), IsSigma c := by
        rw [hhost]
        rw [hraw, List.mem_append] at hsigma
        rcases hsigma with hsigma | hsigma
        · obtain ⟨c, hmem, hc⟩ := exists_sigma_of_mem (k := k) hsigma []
          exact ⟨c, mem_lowerFrom_of_fixed (List.mem_append_left _ hmem) (hfixed c hmem) [], hc⟩
        · exact exists_sigma_of_mem (List.mem_append_right _ hsigma) []
      obtain ⟨d, hmem', hd⟩ := exists_sigma_of_mem (k := k) hsigma []
      rw [asciiHost_of_sigma hi ((mem_hostName_iff hu (by decide) (by decide)
          (by decide)).mpr hpercent) (mem_bareName_of_sigma hu hc hmem) hc,
        asciiHost_of_sigma hi ((mem_bareName_iff hu hcaseless (by decide)).mpr hpercent)
          (mem_bareName_of_sigma hu hd hmem') hd]
    · have hname : 'Σ' ∉ name := fun h => hsigma (by rw [hraw]; exact List.mem_append_left _ h)
      have hlower : 'Σ' ∉ k.lower name ++ '%' :: zone := by
        rw [List.mem_append, not_or]
        refine ⟨fun h => (hfixed _ h).1 rfl, fun h => hsigma ?_⟩
        rw [hraw]
        exact List.mem_append_right _ h
      have hagain : (k.lower name).flatMap k.lowerChar = k.lower name := by
        rw [← lowerFrom_of_no_sigma (fun h => (hfixed _ h).1 rfl) [], ← CharTables.lower,
          CharTables.lower_lower]
      have hsame : k.lower (lowerHost t.unicode raw) = k.lower raw := by
        have hraw' : k.lower raw = raw.flatMap k.lowerChar := lowerFrom_of_no_sigma hsigma []
        have hname' : k.lower name = name.flatMap k.lowerChar := lowerFrom_of_no_sigma hname []
        rw [hhost, CharTables.lower, lowerFrom_of_no_sigma hlower, List.flatMap_append, hagain,
          hraw', hname', hraw, List.flatMap_append]
      rw [asciiHost_eq, bareName_eq hu, hsame, ← bareName_eq hu, ← asciiHost_eq]

/-! ### Targets -/

/-- Two URLs that are taken apart alike, but for the spelling of their hosts. -/
structure SameUrl (t : HostTables) (url url' a b : Text) (p p' : SplitResult)
    (port : Option ℕ) : Prop where
  split : splitUrl t (strip isSpace url) = .ok (p, port)
  split' : splitUrl t (strip isSpace url') = .ok (p', port)
  host : p.hostinfo.1 = a
  host' : p'.hostinfo.1 = b
  scheme : p.scheme = p'.scheme
  path : p.path = p'.path
  query : p.query = p'.query

/-- Two addresses of one mailbox name, at two spellings of a host. -/
structure SameAddress (x y a b : Text) : Prop where
  mailbox : (rpartition '@' (strip isSpace x)).1 = (rpartition '@' (strip isSpace y)).1
  domain : strip (fun c => c == '[' || c == ']') (rpartition '@' (strip isSpace x)).2.2 = a
  domain' : strip (fun c => c == '[' || c == ']') (rpartition '@' (strip isSpace y)).2.2 = b

theorem canonicalUrl_sameUrl (hu : UnicodeRules t.unicode k) (hi : IdnaRules t.idna some alabel)
    {url url' r : Text} {p p' : SplitResult} {port : Option ℕ}
    (h : SameUrl t url url' a b p p' port) (ha : asciiHost t a = .ok r)
    (hb : asciiHost t b = .ok r) : canonicalUrl t url = canonicalUrl t url' := by
  obtain ⟨hs, hp⟩ := splitUrl_eq_ok h.split
  obtain ⟨hs', hp'⟩ := splitUrl_eq_ok h.split'
  have hurl : Canonical t url p port r :=
    ⟨hs, hp, by rw [asciiHost_lowerHost hu hi, h.host, ha]⟩
  have hurl' : Canonical t url' p' port r :=
    ⟨hs', hp', by rw [asciiHost_lowerHost hu hi, h.host', hb]⟩
  have htext : canonicalText p port r = canonicalText p' port r := by
    rw [canonicalText, canonicalText, pathAndQuery_eq, pathAndQuery_eq, h.scheme, h.path, h.query]
  rw [(canonicalUrl_eq_ok hu hi).mpr ⟨p, port, r, hurl, rfl⟩,
    (canonicalUrl_eq_ok hu hi).mpr ⟨p', port, r, hurl', rfl⟩, htext]

theorem emailKey_sameAddress {x y r : Text} (h : SameAddress x y a b)
    (ha : asciiHost t a = .ok r) (hb : asciiHost t b = .ok r) : emailKey t x = emailKey t y := by
  rw [emailKey, emailKey]
  simp only [h.domain, h.domain', ha, hb, h.mailbox]

/-- **One key per host name**: two spellings of a host agree exactly where they are the
same names, and targets agree with them. -/
theorem asciiHost_sameHost_iff (hu : UnicodeRules t.unicode k) (hi : IdnaRules t.idna some alabel)
    (hsigma : TellsSigma alabel) (h : SameHost k a b) {r r' : Text} (ha : asciiHost t a = .ok r)
    (hb : asciiHost t b = .ok r') :
    (r = r' ∧ (∀ c ∈ r.getLast?, c ≠ '.') ↔ SameNames t a b) ∧
      (SameNames t a b →
        (∀ url url' p p' port, SameUrl t url url' a b p p' port →
          canonicalUrl t url = canonicalUrl t url' ∧ webhookKey t url = webhookKey t url') ∧
        ∀ x y, SameAddress x y a b → emailKey t x = emailKey t y) := by
  have hagrees := asciiHost_agrees_iff hu hi hsigma h ha hb
  refine ⟨hagrees, fun hnames => ?_⟩
  obtain ⟨rfl, -⟩ := hagrees.mpr hnames
  refine ⟨fun url url' p p' port hurl => ?_, fun x y hxy => emailKey_sameAddress hxy ha hb⟩
  have hcanonical := canonicalUrl_sameUrl hu hi hurl ha hb
  refine ⟨hcanonical, ?_⟩
  obtain ⟨hs, hp⟩ := splitUrl_eq_ok hurl.split
  have hok : canonicalUrl t url = .ok (canonicalText p port r) :=
    (canonicalUrl_eq_ok hu hi).mpr
      ⟨p, port, r, ⟨hs, hp, by rw [asciiHost_lowerHost hu hi, hurl.host, ha]⟩, rfl⟩
  rw [webhookKey, webhookKey, ← hcanonical, hok]

/-! ### Spellings of one name -/

instance (k : CharTables) (c d : Char) : Decidable (SameChar k c d) :=
  inferInstanceAs (Decidable ((_ ∧ _) ∨ (_ ∨ (_ ∧ _) ∨ (_ ∧ _))))

theorem bookLabel_tellsSigma : TellsSigma bookLabel := by
  intro l l' r hnear h h'
  have hlen := hnear.length_eq
  rcases bookLabel_eq_some h with ⟨rfl, rfl⟩ | ⟨rfl, -, -⟩ <;>
    rcases bookLabel_eq_some h' with ⟨rfl, hr⟩ | ⟨rfl, -, -⟩
  · rfl
  · exact absurd hlen (by decide)
  · rw [hr] at hlen
    exact absurd hlen (by decide)
  · rfl

theorem asciiHost_sameHost_iff_books :
    ("xn--bcher-kva.example".toList = "xn--bcher-kva.example".toList ∧
        (∀ c ∈ "xn--bcher-kva.example".toList.getLast?, c ≠ '.') ↔
      SameNames bookHosts "Bücher.Example.".toList "bücher。example".toList) ∧
      (SameNames bookHosts "Bücher.Example.".toList "bücher。example".toList →
        (∀ url url' p p' port,
          SameUrl bookHosts url url' "Bücher.Example.".toList "bücher。example".toList p p' port →
          canonicalUrl bookHosts url = canonicalUrl bookHosts url' ∧
            webhookKey bookHosts url = webhookKey bookHosts url') ∧
        ∀ x y, SameAddress x y "Bücher.Example.".toList "bücher。example".toList →
          emailKey bookHosts x = emailKey bookHosts y) :=
  asciiHost_sameHost_iff (k := asciiChars) basicUnicode_rules bookHosts_rules bookLabel_tellsSigma
    ⟨"Bücher.Example".toList, ['.'], "bücher。example".toList, [], by decide, by decide,
      .inr ⟨'.', by decide, rfl⟩, .inl rfl, by decide⟩ (by decide) (by decide)

/-- A separator at the end of a host that is not the full stop stays there. -/
theorem asciiHost_keeps_dot :
    SameHost asciiChars "bücher。".toList "bücher".toList ∧
      asciiHost bookHosts "bücher。".toList = .ok "xn--bcher-kva.".toList ∧
      asciiHost bookHosts "bücher".toList = .ok "xn--bcher-kva".toList :=
  ⟨⟨"bücher".toList, ['。'], "bücher".toList, [], by decide, by decide,
    .inr ⟨'。', by decide, rfl⟩, .inl rfl, by decide⟩, by decide, by decide⟩

end Targets
