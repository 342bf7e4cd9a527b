/-
Reserved characters in the rules of a robots.txt.

* `InLanguage` — the comparison RFC 9309 asks for;
* `matches_iff_of_rfcForm` — a rule matches so where its pattern and the path have the
  form RFC 9309 compares;
* `not_inLanguage_of_count` — a path that is short of a character is not in a language.

Main result: `matches_iff_inLanguage`.
-/
import Newsforge.RfcForm
import Newsforge.RobotsMatch

open PyText Percent IPAddress Wildcard

namespace Robots

/-! ### The language of RFC 9309 -/

/-- A pattern without its anchor. -/
def patternBody (pattern : Text) : Text :=
  if pattern.getLast? = some '$' then pattern.dropLast else pattern

/-- The paths a pattern stands for: only a literal `*` is a wildcard, and only a literal
`$` at the end an anchor. -/
def InLanguage (pattern path : Text) : Prop :=
  ∃ (first : Text) (rest gaps : List Text) (t : Text),
    (split '*' (patternBody pattern)).map rfcForm = first :: rest ∧
      gaps.length = rest.length ∧ rfcForm path = first ++ spread gaps rest ++ t ∧
      (pattern.getLast? = some '$' → t = [])

/-! ### Wildcards -/

theorem notMem_pctByte (b : UInt8) : '*' ∉ pctByte b := by
  have hsafe : ∀ d < 16, d.digitChar.toUpper ≠ '*' := by
    intro d hd heq
    have hdigit := (pctDigit hd).2.2
    rw [heq] at hdigit
    exact absurd hdigit (by decide)
  have hb : b.toNat < 256 := UInt8.toNat_lt b
  intro h
  simp only [pctByte, List.mem_cons, List.not_mem_nil, or_false] at h
  rcases h with h | h | h
  · exact absurd h (by decide)
  · exact hsafe _ (by omega) h.symm
  · exact hsafe _ (by omega) h.symm

theorem notMem_rfcByte (b : UInt8) : '*' ∉ rfcByte b := by
  rw [rfcByte]
  split
  · rename_i hsafe
    intro h
    rw [← List.mem_singleton.mp h] at hsafe
    exact absurd hsafe (by decide)
  · exact notMem_pctByte b

theorem notMem_escape (c : Char) : '*' ∉ escape c := by
  intro h
  obtain ⟨b, -, hb⟩ := List.mem_flatMap.mp h
  exact notMem_pctByte b hb

theorem notMem_rfcChar {c : Char} (hc : c ≠ '*') : '*' ∉ rfcChar c := by
  rw [rfcChar]
  split
  · simpa using hc.symm
  · exact notMem_escape c

theorem split_append_left {x : Text} (hx : '*' ∉ x) (s : Text) :
    split '*' (x ++ s) = (split '*' s).modifyHead (x ++ ·) := by
  induction x with
  | nil => cases h : split '*' s <;> simp [h]
  | cons c x ih =>
    rw [List.mem_cons, not_or] at hx
    rw [List.cons_append, split_cons, if_neg (Ne.symm hx.1), ih hx.2]
    simp [Function.comp_def]

/-- The first part of a text. -/
theorem prefix_of_split {c : Char} {s x : Text} {xs : List Text} (h : split c s = x :: xs) :
    x <+: s := by
  have hjoin := join_split c s
  rw [h] at hjoin
  rcases eq_or_ne xs [] with rfl | hne
  · exact ⟨[], by rw [← hjoin, List.append_nil]; exact List.intercalate_singleton.symm⟩
  · exact ⟨c :: join c xs, by rw [← hjoin, join_cons c x hne]⟩

theorem startsEscape_shorter {c : Char} {x s : Text} (hx : x <+: s)
    (hno : startsEscape (c :: s) = false) : startsEscape (c :: x) = false := by
  obtain ⟨t, rfl⟩ := hx
  refine startsEscape_eq_false ?_
  rintro a b r rfl rfl ha
  exact isHexDigit_of_startsEscape hno ha

/-- The wildcards of the compared form are the literal ones. -/
theorem split_rfcForm (s : Text) : split '*' (rfcForm s) = (split '*' s).map rfcForm := by
  induction s using escapes_induction with
  | nil => rfl
  | escape a b s ha hb ih =>
    have hstar : ∀ c, isHexDigit c = true → c ≠ '*' := by
      rintro c hc rfl
      exact absurd hc (by decide)
    rw [rfcForm_escape ha hb, split_append_left (notMem_rfcByte _), ih, split_cons,
      if_neg (by decide), split_cons, if_neg (hstar a ha), split_cons, if_neg (hstar b hb)]
    simp only [List.modifyHead_modifyHead]
    exact (map_modifyHead (fun x => rfcForm_escape ha hb x) _).symm
  | cons c s hno ih =>
    rw [rfcForm_cons hno, split_cons]
    by_cases hc : c = '*'
    · rw [if_pos hc, hc, show rfcChar '*' = ['*'] from rfl, List.singleton_append, split_cons,
        if_pos rfl, ih, List.map_cons]
      rfl
    · rw [if_neg hc, split_append_left (notMem_rfcChar hc), ih]
      obtain ⟨x, xs, hs⟩ := List.exists_cons_of_ne_nil (List.splitOn_ne_nil '*' s)
      rw [show split '*' s = x :: xs from hs, List.map_cons, List.modifyHead_cons,
        List.modifyHead_cons, List.map_cons,
        rfcForm_cons (startsEscape_shorter (prefix_of_split hs) hno)]

/-- A rule matches as RFC 9309 asks where its pattern and the path are compared so. -/
theorem matches_iff_of_rfcForm (allow : Bool) {pattern path : Text}
    (hp : normalizePath (patternBody pattern) = rfcForm (patternBody pattern))
    (hw : normalizePath path = rfcForm path) :
    (rule allow pattern).matches (normalizePath path) = true ↔ InLanguage pattern path := by
  have hrule : rule allow pattern = ⟨allow, pattern, (split '*' (patternBody pattern)).map rfcForm,
      pattern.getLast? = some '$'⟩ := by
    rw [← split_rfcForm, ← hp]
    rfl
  rw [hrule, hw]
  have hne : (split '*' (patternBody pattern)).map rfcForm ≠ [] :=
    mt List.map_eq_nil_iff.mp (List.splitOn_ne_nil _ _)
  obtain ⟨first, rest, hparts⟩ := List.exists_cons_of_ne_nil hne
  rw [InLanguage, hparts, matches_iff]
  simp only [decide_eq_true_eq]
  constructor
  · rintro ⟨gaps, t, h⟩
    exact ⟨first, rest, gaps, t, rfl, h⟩
  · rintro ⟨first', rest', gaps, t, heq, h⟩
    obtain ⟨rfl, rfl⟩ := List.cons.inj heq
    exact ⟨gaps, t, h⟩

/-! ### Plain texts -/

theorem Plain.append {a t : Text} (ha : Plain a) (ht : NoHex t) (h : Plain t) :
    Plain (a ++ t) := by
  induction ha with
  | nil => exact h
  | bare hno hc _ ih => exact .bare (startsEscape_append ht hno) hc ih
  | escaped he hc hpercent _ ih =>
    rw [List.append_assoc]
    exact .escaped he hc hpercent ih

theorem Plain.append_cons {a b : Text} {c : Char} (ha : Plain a) (hb : Plain b)
    (hno : startsEscape (c :: b) = false) (hin : ¬ InEscape a c b) (hc : endsPath c = false) :
    Plain (a ++ c :: b) := by
  induction ha with
  | nil => exact .bare hno hc hb
  | @bare x a hx hxc _ ih =>
    exact .bare (startsEscape_append_cons hx hin) hxc
      (ih fun h => hin (h.of_suffix ⟨[x], rfl⟩))
  | @escaped x e a he hx hpercent _ ih =>
    rw [List.append_assoc]
    exact .escaped he hx hpercent (ih fun h => hin (h.of_suffix ⟨e, rfl⟩))

/-- Behind a plain text, decoding begins anew. -/
theorem Plain.unquote_append {a t : Text} (ha : Plain a) (ht : NoHex t) :
    unquote (a ++ t) = unquote a ++ unquote t := by
  induction ha with
  | nil => rfl
  | bare hno hc _ ih =>
    rw [List.cons_append, unquote_cons (startsEscape_append ht hno), ih, unquote_cons hno,
      List.cons_append]
  | escaped he hc hpercent _ ih =>
    rw [List.append_assoc, he.unquote_append, ih, he.unquote_append, List.cons_append]

/-- In front of a plain text, decoding ends. -/
theorem Plain.unquoteFrom_eq {b : Text} (hb : Plain b) (acc : List UInt8) :
    unquoteFrom acc b = decodeUtf8 acc ++ unquote b := by
  cases hb with
  | nil => exact (List.append_nil _).symm
  | bare hno hc _ => rw [unquoteFrom_char hno, unquote_cons hno, unquote_eq]
  | @escaped c e s he hc hpercent _ =>
    have hchar := unquoteFrom_append_char acc c [] s
    rw [List.append_nil] at hchar
    rw [he.unquoteFrom_append, hchar, he.unquote_append, unquote_eq]

theorem Escapes.getLast? {bs : List UInt8} {e : Text} (h : Escapes bs e) {c : Char}
    (hc : c ∈ e.getLast?) : isHexDigit c = true := by
  induction h with
  | nil => exact absurd hc (by simp)
  | @cons b bs x y s hx hy hv h ih =>
    rcases eq_or_ne s [] with rfl | hne
    · rw [← Option.some.inj hc]
      exact hy
    · refine ih ?_
      rwa [List.getLast?_cons_of_ne_nil (List.cons_ne_nil _ _),
        List.getLast?_cons_of_ne_nil (List.cons_ne_nil _ _), List.getLast?_cons_of_ne_nil hne] at hc

/-- Without its anchor a plain pattern is plain. -/
theorem plain_patternBody {pattern : Text} (h : Plain pattern) : Plain (patternBody pattern) := by
  rw [patternBody]
  split
  swap
  · exact h
  rename_i hlast
  induction h with
  | nil => exact .nil
  | @bare c s hno hc hs ih =>
    rcases eq_or_ne s [] with rfl | hne
    · exact .nil
    · rw [List.getLast?_cons_of_ne_nil hne] at hlast
      rw [List.dropLast_cons_of_ne_nil hne]
      exact .bare (startsEscape_shorter (List.dropLast_prefix s) hno) hc (ih hlast)
  | @escaped c e s he hc hpercent hs ih =>
    rcases eq_or_ne s [] with rfl | hne
    · rw [List.append_nil] at hlast
      exact absurd (he.getLast? hlast) (by decide)
    · rw [List.getLast?_append_of_ne_nil _ hne] at hlast
      rw [List.dropLast_append_of_ne_nil hne]
      exact .escaped he hc hpercent (ih hlast)

/-! ### Where the reading differs -/

/-- A rule with the pattern matches the path exactly when RFC 9309 says so. -/
def ReadsAsRfc (pattern path : Text) : Prop :=
  ∀ allow, (rule allow pattern).matches (normalizePath path) = true ↔ InLanguage pattern path

theorem readsAsRfc_of_plain {pattern path : Text} (hp : Plain pattern) (hw : Plain path) :
    ReadsAsRfc pattern path := fun allow =>
  matches_iff_of_rfcForm allow (normalizePath_plain (plain_patternBody hp)) (normalizePath_plain hw)

theorem flatten_sublist_spread {gaps parts : List Text} (h : gaps.length = parts.length) :
    parts.flatten.Sublist (spread gaps parts) := by
  induction parts generalizing gaps with
  | nil => exact List.nil_sublist _
  | cons p parts ih =>
    cases gaps with
    | nil => simp at h
    | cons g gaps =>
      have hspread : spread (g :: gaps) (p :: parts) = g ++ p ++ spread gaps parts := rfl
      rw [List.flatten_cons, hspread]
      exact (List.sublist_append_right g p).append (ih (Nat.succ.inj h))

theorem count_flatten_split {d : Char} (hd : d ≠ '*') (s : Text) :
    (split '*' s).flatten.count d = s.count d := by
  induction s with
  | nil => rfl
  | cons c s ih =>
    rw [split_cons]
    split
    · rename_i hc
      rw [hc, List.flatten_cons, List.nil_append, ih, List.count_cons_of_ne (Ne.symm hd)]
    · obtain ⟨x, xs, hs⟩ := List.exists_cons_of_ne_nil (List.splitOn_ne_nil '*' s)
      rw [show split '*' s = x :: xs from hs] at ih ⊢
      rw [List.modifyHead_cons, List.flatten_cons, List.cons_append, List.count_cons,
        List.count_cons, ← ih, List.flatten_cons]

/-- A path that is short of a character is not in the language of a pattern. -/
theorem not_inLanguage_of_count {pattern path : Text} {d : Char} (hd : d ≠ '*')
    (h : (rfcForm path).count d < (rfcForm (patternBody pattern)).count d) :
    ¬ InLanguage pattern path := by
  rintro ⟨first, rest, gaps, t, hparts, hlen, hpath, -⟩
  have hsub : (first :: rest).flatten.Sublist (rfcForm path) := by
    rw [hpath, List.flatten_cons, List.append_assoc]
    exact (List.Sublist.refl first).append
      ((flatten_sublist_spread hlen).trans (List.sublist_append_left _ _))
  rw [← hparts, ← split_rfcForm] at hsub
  have hcount := hsub.count_le d
  rw [count_flatten_split hd] at hcount
  omega

/-- The wildcards of a pattern stand for themselves too. -/
theorem matches_self (allow anchored : Bool) (pattern path : Text) :
    (⟨allow, pattern, split '*' path, anchored⟩ : Rule).matches path = true := by
  have hspread : ∀ (first : Text) (rest : List Text),
      first ++ spread (rest.map fun _ => ['*']) rest = join '*' (first :: rest) := by
    intro first rest
    induction rest generalizing first with
    | nil => simp [spread, join]
    | cons p rest ih =>
      have hcons : spread ((p :: rest).map fun _ => ['*']) (p :: rest) =
          '*' :: (p ++ spread (rest.map fun _ => ['*']) rest) := rfl
      rw [hcons, ih, join_cons '*' first (List.cons_ne_nil _ _)]
  obtain ⟨first, rest, hs⟩ := List.exists_cons_of_ne_nil (List.splitOn_ne_nil '*' path)
  have hjoin := join_split '*' path
  rw [show split '*' path = first :: rest from hs] at hjoin ⊢
  refine (matches_iff _ _ _ _ _ _).mpr ⟨rest.map fun _ => ['*'], [], by simp, ?_, fun _ => rfl⟩
  rw [List.append_nil, hspread, hjoin]

/-- A path that is decoded to the same text as an anchored pattern is matched. -/
theorem matches_anchored (allow : Bool) {body path : Text} (h : unquote body = unquote path) :
    (rule allow (body ++ ['$'])).matches (normalizePath path) = true := by
  have hrule : rule allow (body ++ ['$']) =
      ⟨allow, body ++ ['$'], split '*' (normalizePath path), true⟩ := by
    rw [normalizePath_eq path, ← h, ← normalizePath_eq]
    simp [rule]
  rw [hrule]
  exact matches_self _ _ _ _

theorem patternBody_anchored (body : Text) : patternBody (body ++ ['$']) = body := by
  rw [patternBody, List.getLast?_concat, if_pos rfl, List.dropLast_concat]

/-- An escape of a reserved character is matched by the bare character, and an escaped
character is read as RFC 9309 asks exactly when it is not reserved. -/
theorem readsAsRfc_escape_iff {a b : Text} {c : Char} (ha : Plain a) (hb : Plain b)
    (hno : startsEscape (c :: b) = false) (hin : ¬ InEscape a c b) :
    ReadsAsRfc (a ++ (escape c ++ b) ++ ['$']) (a ++ c :: b) ↔
      isReserved c = false ∧ c ≠ '%' := by
  constructor
  · intro h
    by_contra hbad
    have hascii : isAsciiChar c = true := by
      by_contra hother
      rw [Bool.not_eq_true] at hother
      refine hbad ⟨contains_of_not_ascii (by decide) hother, ?_⟩
      rintro rfl
      exact absurd hother (by decide)
    have hmatch : (rule true (a ++ (escape c ++ b) ++ ['$'])).matches
        (normalizePath (a ++ c :: b)) = true := by
      refine matches_anchored true ?_
      rw [unquote_append_escape, unquote_append_cons hno hin]
    -- a character of the escape that the bare one lacks
    obtain ⟨d, hd, hcount⟩ : ∃ d, d ≠ '*' ∧
        (rfcChar c).count d < (rfcByte (UInt8.ofNat c.toNat)).count d := by
      have hall := CharTables.forall_ascii (p := fun c => ¬ (isReserved c = false ∧ c ≠ '%') →
        (rfcChar c).count (if c = '%' then '2' else '%') <
          (rfcByte (UInt8.ofNat c.toNat)).count (if c = '%' then '2' else '%'))
        (by decide) hascii hbad
      refine ⟨_, ?_, hall⟩
      split <;> decide
    refine not_inLanguage_of_count hd ?_ ((h true).mp hmatch)
    rw [patternBody_anchored, rfcForm_append (noHex_escape c b),
      (escapes_escape c).rfcForm_append, utf8EncodeChar_ascii hascii, List.flatMap_singleton,
      rfcForm_append_cons hno hin]
    simp only [List.count_append]
    omega
  · rintro ⟨hc, hpercent⟩
    have hends : endsPath c = false := by
      rw [← Bool.not_eq_true]
      intro hbad
      rw [endsPath, Bool.or_eq_true, Bool.or_eq_true, beq_iff_eq, beq_iff_eq, beq_iff_eq] at hbad
      rcases hbad with (rfl | rfl) | rfl <;> exact absurd hc (by decide)
    have hanchor : Plain ['$'] := .bare (by decide) (by decide) .nil
    have hdollar : NoHex ['$'] := by
      intro d hd
      rw [← Option.some.inj hd]
      decide
    refine readsAsRfc_of_plain ?_ (ha.append_cons hb hno hin hends)
    exact (ha.append (noHex_escape c b) (.escaped (escapes_escape c) (.inl hc) hpercent hb)).append
      hdollar hanchor

/-- A byte outside ASCII that is no character is matched by U+FFFD. -/
theorem not_readsAsRfc_byte {a b : Text} {n : UInt8} (ha : Plain a) (hb : Plain b)
    (hn : 0x80 ≤ n.toNat) :
    ¬ ReadsAsRfc (a ++ replacement :: b ++ ['$']) (a ++ (pctByte n ++ b)) := by
  intro h
  have hnohex : NoHex (pctByte n ++ b) := noHex_percent _
  have hno : startsEscape (replacement :: b) = false := startsEscape_of_ne (by decide) b
  have hin : ¬ InEscape a replacement b := not_inEscape_of_notHex (by decide) a b
  have hbytes : pctByte n ++ b = [n].flatMap pctByte ++ b := by
    rw [List.flatMap_singleton]
  have hdecode : decodeUtf8 [n] = [replacement] := by
    have hall : ∀ m < 256, 0x80 ≤ m → decodeUtf8 [UInt8.ofNat m] = [replacement] := by
      decide +kernel
    have := hall n.toNat (UInt8.toNat_lt n) hn
    rwa [UInt8.ofNat_toNat] at this
  have hmatch : (rule true (a ++ replacement :: b ++ ['$'])).matches
      (normalizePath (a ++ (pctByte n ++ b))) = true := by
    refine matches_anchored true ?_
    rw [unquote_append_cons hno hin, ha.unquote_append hnohex, hbytes,
      unquote_eq ([n].flatMap pctByte ++ b), unquoteFrom_pctBytes, List.nil_append,
      hb.unquoteFrom_eq, hdecode]
    rfl
  have hescapes : Escapes [n] (pctByte n) := by
    have hlt : n.toNat < 256 := UInt8.toNat_lt n
    have hhigh := pctDigit (d := n.toNat / 16) (by omega)
    have hlow := pctDigit (d := n.toNat % 16) (by omega)
    exact .cons hhigh.1 hlow.1 (by rw [hhigh.2.1, hlow.2.1]; omega) .nil
  -- one percent sign against three
  refine not_inLanguage_of_count (d := '%') (by decide) ?_ ((h true).mp hmatch)
  rw [patternBody_anchored, rfcForm_append hnohex, hescapes.rfcForm_append,
    List.flatMap_singleton, rfcByte_high hn, rfcForm_append_cons hno hin]
  have hone : (pctByte n).count '%' = 1 := by
    have hall : ∀ m < 256, (pctByte (UInt8.ofNat m)).count '%' = 1 := by decide +kernel
    have := hall n.toNat (UInt8.toNat_lt n)
    rwa [UInt8.ofNat_toNat] at this
  have hthree : (rfcChar replacement).count '%' = 3 := by decide
  simp only [List.count_append, hone, hthree]
  omega

/-- **Plain patterns and paths are matched as RFC 9309 asks**, and no other text is
compared in the form it asks for.  An escaped character between plain texts is read so,
against the bare one, exactly when it is neither reserved nor the percent sign; a byte
that is no character never is, against U+FFFD. -/
theorem matches_iff_inLanguage (pattern path : Text) :
    (Plain pattern → Plain path → ∀ allow,
      ((rule allow pattern).matches (normalizePath path) = true ↔ InLanguage pattern path)) ∧
    (∀ s, normalizePath s = rfcForm s ↔ Plain s) ∧
    (∀ a b c, Plain a → Plain b → startsEscape (c :: b) = false → ¬ InEscape a c b →
      (ReadsAsRfc (a ++ (escape c ++ b) ++ ['$']) (a ++ c :: b) ↔
        isReserved c = false ∧ c ≠ '%')) ∧
    ∀ a b n, Plain a → Plain b → 0x80 ≤ n.toNat →
      ¬ ReadsAsRfc (a ++ replacement :: b ++ ['$']) (a ++ (pctByte n ++ b)) :=
  ⟨fun hp hw => readsAsRfc_of_plain hp hw, normalizePath_eq_rfcForm_iff,
    fun _ _ _ ha hb hno hin => readsAsRfc_escape_iff ha hb hno hin,
    fun _ _ _ ha hb hn => not_readsAsRfc_byte ha hb hn⟩

theorem plain_of_bare {s : Text} (h : s.all (fun c => c != '%' && !endsPath c) = true) :
    Plain s := by
  induction s with
  | nil => exact .nil
  | cons c s ih =>
    rw [List.all_cons, Bool.and_eq_true, Bool.and_eq_true, bne_iff_ne, Bool.not_eq_true'] at h
    exact .bare (startsEscape_of_ne h.1.1 s) h.1.2 (ih h.2)

theorem matches_iff_inLanguage_sample :
    ((rule true "/~a*".toList).matches (normalizePath "/~ab".toList) = true ↔
      InLanguage "/~a*".toList "/~ab".toList) ∧
    (normalizePath "/a%5Bb".toList = rfcForm "/a%5Bb".toList ↔ Plain "/a%5Bb".toList) ∧
    (ReadsAsRfc ("/a".toList ++ (escape '/' ++ "b".toList) ++ ['$'])
        ("/a".toList ++ '/' :: "b".toList) ↔ isReserved '/' = false ∧ '/' ≠ '%') ∧
    ¬ ReadsAsRfc ("/".toList ++ replacement :: [] ++ ['$']) ("/".toList ++ (pctByte 0xFF ++ [])) :=
  have h := matches_iff_inLanguage "/~a*".toList "/~ab".toList
  ⟨h.1 (plain_of_bare (by decide)) (plain_of_bare (by decide)) true, h.2.1 _,
    h.2.2.1 _ _ _ (plain_of_bare (by decide)) (plain_of_bare (by decide)) (by decide)
      (not_inEscape_of_notHex (by decide) _ _),
    h.2.2.2 _ _ _ (plain_of_bare (by decide)) .nil (by decide)⟩

/-- A rule about one segment, its slash escaped, matches a path of two. -/
theorem escaped_slash_matches :
    (rule false "/a%2Fb".toList).matches (normalizePath "/a/b".toList) = true ∧
      ¬ InLanguage "/a%2Fb".toList "/a/b".toList := by
  refine ⟨by decide, not_inLanguage_of_count (d := '%') (by decide) ?_⟩
  decide

end Robots
