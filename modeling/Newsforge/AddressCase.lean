/-
IPv6 literals in lower case.

* `mem_ipv6Text` — the characters of an IPv6 address;
* `ipv6_lower` — letter case makes no difference to it.
-/
import Newsforge.HostNames

open PyText UrlParse

namespace IPAddress

/-! ### IPv4 -/

theorem mapM_length {α β : Type*} {f : α → Option β} {xs : List α} {ys : List β}
    (h : xs.mapM f = some ys) : ys.length = xs.length := (forall₂_of_mapM h).length_eq.symm

theorem exists_of_mapM {α β : Type*} {f : α → Option β} {xs : List α} {ys : List β}
    (h : xs.mapM f = some ys) {x : α} (hx : x ∈ xs) : ∃ y, f x = some y := by
  obtain ⟨y, -, hy⟩ := exists_of_forall₂ (forall₂_of_mapM h).flip hx
  exact ⟨y, hy⟩

theorem parseOctet_eq_some {s : Text} {n : ℕ} (h : parseOctet s = some n) :
    s ≠ [] ∧ ∀ c ∈ s, c.isDigit = true := by
  rw [parseOctet] at h
  split at h
  · cases h
  · rename_i hne
    split at h
    · cases h
    · rename_i hdigits
      rw [Bool.not_eq_true', Bool.not_eq_false, Bool.and_eq_true] at hdigits
      exact ⟨fun hnil => hne (List.isEmpty_iff.mpr hnil), List.all_eq_true.mp hdigits.2⟩

theorem join_split (c : Char) (s : Text) : join c (split c s) = s := List.intercalate_splitOn c

/-- Digits and dots, the last of them a digit. -/
theorem mem_ipv4Text {s : Text} {ip : BitVec 32} (h : ipv4 s = some ip) :
    (∀ c ∈ s, c.isDigit = true ∨ c = '.') ∧ ∀ c ∈ s.getLast?, c ≠ '.' := by
  rw [ipv4] at h
  split at h
  · cases h
  split at h
  · cases h
  split at h
  · cases h
  obtain ⟨ds, hds, -⟩ := Option.map_eq_some_iff.mp h
  have hpart : ∀ p ∈ split '.' s, p ≠ [] ∧ ∀ c ∈ p, c.isDigit = true := by
    intro p hp
    obtain ⟨n, hn⟩ := exists_of_mapM hds hp
    exact parseOctet_eq_some hn
  constructor
  · intro c hc
    rw [← join_split '.' s] at hc
    rcases mem_join hc with h | ⟨p, hp, hc⟩
    · exact .inr h
    · exact .inl ((hpart p hp).2 c hc)
  · intro c hc
    obtain ⟨init, last, hlast⟩ :=
      (List.eq_nil_or_concat' (split '.' s)).resolve_left (List.splitOn_ne_nil _ _)
    obtain ⟨hne, hdigits⟩ := hpart last (by rw [hlast]; simp)
    obtain ⟨pre, hpre⟩ := join_suffix '.' init last
    rw [← join_split '.' s, hlast, hpre, List.getLast?_append_of_ne_nil _ hne] at hc
    rintro rfl
    exact absurd (hdigits '.' (List.mem_of_getLast? hc)) (by decide)

/-! ### The parts between the colons -/

theorem parseHextet_eq_some {s : Text} {n : ℕ} (h : parseHextet s = some n) :
    ∀ c ∈ s, isHexDigit c = true := by
  rw [parseHextet] at h
  split at h
  · cases h
  · rename_i hall
    rw [Bool.not_eq_true', Bool.not_eq_false, List.all_eq_true] at hall
    exact hall

/-- The hextets in front of a point, and those from a point on. -/
theorem hextetsOf_parts {parts : List Text} {hi lo : ℕ} {hs : List ℕ}
    (h : hextetsOf parts hi lo = some hs) {i : ℕ} (hi' : i < parts.length)
    (hpos : i < hi ∨ parts.length - lo ≤ i) : ∀ c ∈ parts[i], isHexDigit c = true := by
  rw [hextetsOf] at h
  simp only [Option.bind_eq_bind, Option.bind_eq_some_iff] at h
  obtain ⟨his, hhis, los, hlos, -⟩ := h
  rcases hpos with hpos | hpos
  · have hmem : parts[i] ∈ parts.take hi := List.mem_take_iff_getElem.mpr ⟨i, by omega, rfl⟩
    obtain ⟨n, hn⟩ := exists_of_mapM hhis hmem
    exact parseHextet_eq_some hn
  · have hmem : parts[i] ∈ parts.drop (parts.length - lo) :=
      List.mem_drop_iff_getElem.mpr ⟨i - (parts.length - lo), by omega, by
        congr 1
        omega⟩
    obtain ⟨n, hn⟩ := exists_of_mapM hlos hmem
    exact parseHextet_eq_some hn

/-- **The parts of an IPv6 address are hexadecimal**, or empty. -/
theorem ipv6Hextets_parts {parts : List Text} {hs : List ℕ} (h : ipv6Hextets parts = some hs) :
    ∀ p ∈ parts, ∀ c ∈ p, isHexDigit c = true := by
  intro p hp
  obtain ⟨i, hi, rfl⟩ := List.getElem_of_mem hp
  rw [ipv6Hextets] at h
  split at h
  · cases h
  dsimp only at h
  split at h
  · -- without "::" every part is a hextet
    simp only [Option.ite_none_left_eq_some] at h
    exact hextetsOf_parts h.2.2.2 hi (.inl hi)
  · rename_i e hone
    set interior := parts.tail.dropLast with hint
    set skip := interior.findIdx List.isEmpty + 1 with hskip
    have hlen : interior.length = parts.length - 2 := by
      rw [hint, List.length_dropLast, List.length_tail]
      omega
    -- the empty part that "::" leaves
    have hfind : interior.findIdx List.isEmpty < interior.length := by
      have he : e ∈ interior.filter List.isEmpty := by
        rw [hone]
        exact List.mem_singleton_self e
      exact List.findIdx_lt_length_of_exists ⟨e, List.mem_filter.mp he⟩
    have hinner : ∀ j < interior.length, interior[j]? = parts[j + 1]? := by
      intro j hj
      rw [hint, List.getElem?_dropLast, if_pos (by rw [List.length_tail]; omega),
        List.getElem?_tail]
    have hgap : parts[skip]? = some [] := by
      have hget := List.findIdx_getElem (w := hfind)
      rw [List.isEmpty_iff] at hget
      rw [hskip, ← hinner _ hfind, List.getElem?_eq_getElem hfind, hget]
    generalize hlead : (if parts.head? = some [] then skip - 1 else skip) = lead at h
    generalize hrest : (if parts.getLast? = some [] then parts.length - skip - 1 - 1
      else parts.length - skip - 1) = rest at h
    simp only [Option.ite_none_left_eq_some, not_and, not_not] at h
    obtain ⟨hhead, htail, -, h⟩ := h
    have hempty : parts[i]? = some [] → ∀ c ∈ parts[i], isHexDigit c = true := by
      intro hnil c hc
      rw [List.getElem?_eq_getElem hi, Option.some_inj] at hnil
      rw [hnil] at hc
      exact absurd hc List.not_mem_nil
    rcases lt_trichotomy i skip with hlt | rfl | hgt
    · by_cases h0 : parts.head? = some []
      · -- nothing but the empty first part stands in front of "::"
        rw [if_pos h0, hhead h0] at hlead
        obtain rfl : i = 0 := by omega
        exact hempty (by rw [← List.head?_eq_getElem?, h0])
      · rw [if_neg h0] at hlead
        exact hextetsOf_parts h hi (.inl (by omega))
    · exact hempty hgap
    · by_cases h0 : parts.getLast? = some []
      · rw [if_pos h0, htail h0] at hrest
        obtain rfl : i = parts.length - 1 := by omega
        exact hempty (by rw [← List.getLast?_eq_getElem?, h0])
      · rw [if_neg h0] at hrest
        exact hextetsOf_parts h hi (.inr (by omega))
  · cases h

/-- The characters of an IPv6 address; no dot ends it. -/
theorem mem_ipv6Text {addr : Text} {hs : List ℕ}
    (h : (expandSuffix (split ':' addr)).bind ipv6Hextets = some hs) :
    (∀ c ∈ addr, isHexDigit c = true ∨ c = ':' ∨ c = '.') ∧ ∀ c ∈ addr.getLast?, c ≠ '.' := by
  obtain ⟨parts, hexp, hparts⟩ := Option.bind_eq_some_iff.mp h
  have hhex := ipv6Hextets_parts hparts
  obtain ⟨init, last, hlast⟩ :=
    (List.eq_nil_or_concat' (split ':' addr)).resolve_left (List.splitOn_ne_nil _ _)
  -- the last part may be an IPv4 address
  have hchars : (∀ p ∈ init, ∀ c ∈ p, isHexDigit c = true) ∧
      ((∀ c ∈ last, isHexDigit c = true) ∨ ∃ ip, ipv4 last = some ip) := by
    rw [expandSuffix, hlast, List.getLast?_concat] at hexp
    dsimp only at hexp
    split at hexp
    · obtain ⟨ip, hip, rfl⟩ := Option.map_eq_some_iff.mp hexp
      refine ⟨fun p hp => hhex p ?_, .inr ⟨ip, hip⟩⟩
      rw [List.dropLast_concat]
      exact List.mem_append_left _ hp
    · rw [Option.some.injEq] at hexp
      subst hexp
      exact ⟨fun p hp => hhex p (List.mem_append_left _ hp),
        .inl (hhex last (List.mem_append_right _ (List.mem_singleton_self _)))⟩
  have hjoin : addr = join ':' (init ++ [last]) := by rw [← hlast, join_split]
  have hhexdot : ∀ c, isHexDigit c = true → c ≠ '.' := by
    rintro c hc rfl
    exact absurd hc (by decide)
  have hdigit : ∀ c : Char, c.isDigit = true → isHexDigit c = true := by
    intro c hc
    rw [isHexDigit, hc, Bool.true_or, Bool.true_or]
  constructor
  · intro c hc
    rw [hjoin] at hc
    rcases mem_join hc with hc | ⟨p, hp, hc⟩
    · exact .inr (.inl hc)
    · rcases List.mem_append.mp hp with hp | hp
      · exact .inl (hchars.1 p hp c hc)
      · rw [List.mem_singleton.mp hp] at hc
        rcases hchars.2 with hall | ⟨ip, hip⟩
        · exact .inl (hall c hc)
        · exact ((mem_ipv4Text hip).1 c hc).imp (hdigit c) .inr
  · intro c hc
    rcases eq_or_ne last [] with hnil | hne
    · -- a colon ends the address, or it is empty
      rcases eq_or_ne init [] with rfl | hinit
      · rw [hjoin, hnil] at hc
        exact absurd hc (by simp [join])
      · rw [hjoin, join_concat ':' hinit, hnil, List.getLast?_concat] at hc
        rw [← Option.some.inj hc]
        decide
    · obtain ⟨pre, hpre⟩ := join_suffix ':' init last
      rw [hjoin, hpre, List.getLast?_append_of_ne_nil _ hne] at hc
      rcases hchars.2 with hall | ⟨ip, hip⟩
      · exact hhexdot c (hall c (List.mem_of_getLast? hc))
      · exact (mem_ipv4Text hip).2 c hc

/-! ### Letter case -/

theorem isHexDigit_toLower (c : Char) : isHexDigit c.toLower = isHexDigit c :=
  toLower_cases (p := fun c d => isHexDigit d = isHexDigit c) (by decide) (fun _ _ => rfl) c

theorem hexDigit_toLower {c : Char} (h : isHexDigit c = true) : hexDigit c.toLower = hexDigit c :=
  toLower_cases (p := fun c d => isHexDigit c = true → hexDigit d = hexDigit c) (by decide)
    (fun _ _ _ => rfl) c h

theorem parseHextet_lower (s : Text) : parseHextet (s.map Char.toLower) = parseHextet s := by
  have hall : (s.map Char.toLower).all isHexDigit = s.all isHexDigit := by
    rw [List.all_map]
    congr 1
    exact funext isHexDigit_toLower
  rw [parseHextet, parseHextet, hall, List.length_map, List.isEmpty_map]
  cases hs : s.all isHexDigit with
  | false => rfl
  | true =>
    have hvalue : numeral 16 hexDigit (s.map Char.toLower) = numeral 16 hexDigit s := by
      rw [numeral, numeral, List.foldl_map]
      exact List.foldl_ext _ _ _ fun acc c hc => by
        rw [hexDigit_toLower (List.all_eq_true.mp hs c hc)]
    rw [hvalue]

theorem hextetsOf_lower (parts : List Text) (hi lo : ℕ) :
    hextetsOf (parts.map (List.map Char.toLower)) hi lo = hextetsOf parts hi lo := by
  have hmapM : ∀ l : List Text,
      (l.map (List.map Char.toLower)).mapM parseHextet = l.mapM parseHextet := by
    intro l
    rw [List.mapM_map]
    congr 1
    exact funext parseHextet_lower
  rw [hextetsOf, hextetsOf, ← List.map_take, ← List.map_drop, List.length_map, hmapM, hmapM]

theorem ipv6Hextets_lower (parts : List Text) :
    ipv6Hextets (parts.map (List.map Char.toLower)) = ipv6Hextets parts := by
  have hempty : ∀ o : Option Text, o.map (List.map Char.toLower) = some [] ↔ o = some [] := by
    rintro (_ | s) <;> simp
  have hisEmpty : (List.isEmpty ∘ List.map Char.toLower : Text → Bool) = List.isEmpty :=
    funext fun s => List.isEmpty_map
  rw [ipv6Hextets, ipv6Hextets]
  simp only [List.length_map, ← List.map_tail, ← List.map_dropLast, List.filter_map,
    List.findIdx_map, List.head?_map, List.getLast?_map, hempty, hisEmpty, hextetsOf_lower]
  rcases List.filter List.isEmpty parts.tail.dropLast with _ | ⟨x, _ | ⟨y, l⟩⟩ <;> rfl

theorem expandSuffix_lower {parts parts' : List Text} (h : expandSuffix parts = some parts') :
    expandSuffix (parts.map (List.map Char.toLower)) =
      some (parts'.map (List.map Char.toLower)) := by
  rw [expandSuffix] at h ⊢
  rw [List.getLast?_map]
  cases hl : parts.getLast? with
  | none =>
    rw [hl] at h
    rw [← Option.some.inj h]
    rfl
  | some l =>
    rw [hl] at h
    have hdot : (l.map Char.toLower).contains '.' = l.contains '.' := by
      rw [Bool.eq_iff_iff, List.contains_iff_mem, List.contains_iff_mem, List.mem_map]
      constructor
      · rintro ⟨c, hc, hlower⟩
        have hcd : c = '.' := toLower_cases (p := fun c d => d = '.' → c = '.') (by decide)
          (fun _ _ h => h) c hlower
        rwa [← hcd]
      · exact fun hc => ⟨'.', hc, rfl⟩
    simp only [Option.map_some, hdot] at h ⊢
    split at h
    · rename_i hcontains
      rw [if_pos hcontains]
      obtain ⟨ip, hip, rfl⟩ := Option.map_eq_some_iff.mp h
      -- there are no letters in the IPv4 suffix, nor in the hextets it becomes
      have hsame : l.map Char.toLower = l := by
        conv_rhs => rw [← List.map_id l]
        refine List.map_congr_left fun c hc => ?_
        rcases (mem_ipv4Text hip).1 c hc with hc | rfl
        · exact toLower_cases (p := fun c d => c.isDigit = true → d = id c) (by decide)
            (fun _ _ _ => rfl) c hc
        · rfl
      have hhex : ∀ n, (hexStr n).map Char.toLower = hexStr n := by
        intro n
        conv_rhs => rw [← List.map_id (hexStr n)]
        refine List.map_congr_left fun c hc => ?_
        obtain ⟨d, hd, rfl⟩ := mem_toDigits (by decide) hc
        exact (by decide : ∀ d < 16, (Nat.digitChar d).toLower = id (Nat.digitChar d)) d hd
      rw [hsame, hip, Option.map_some, ← List.map_dropLast, List.map_append, List.map_cons,
        List.map_cons, hhex, hhex]
      rfl
    · rename_i hcontains
      rw [if_neg hcontains, ← Option.some.inj h]

theorem split_lower {c : Char} (hc : ∀ x : Char, x.toLower = c ↔ x = c) (s : Text) :
    split c (s.map Char.toLower) = (split c s).map (List.map Char.toLower) := by
  induction s with
  | nil => rfl
  | cons x s ih =>
    rw [split, split] at ih
    rw [split, split, List.map_cons, List.splitOn_cons_eq_if_modifyHead,
      List.splitOn_cons_eq_if_modifyHead, ih]
    by_cases hx : x = c
    · rw [if_pos (beq_iff_eq.mpr ((hc x).mpr hx)), if_pos (beq_iff_eq.mpr hx)]
      rfl
    · rw [if_neg fun h => hx ((hc x).mp (beq_iff_eq.mp h)), if_neg fun h => hx (beq_iff_eq.mp h)]
      cases List.splitOn c s with
      | nil => rfl
      | cons l ls => rfl

/-- **An address is read alike in lower case.** -/
theorem ipv6Text_lower {addr : Text} {hs : List ℕ}
    (h : (expandSuffix (split ':' addr)).bind ipv6Hextets = some hs) :
    (expandSuffix (split ':' (addr.map Char.toLower))).bind ipv6Hextets = some hs := by
  obtain ⟨parts, hexp, hparts⟩ := Option.bind_eq_some_iff.mp h
  have hcolon : ∀ x : Char, x.toLower = ':' ↔ x = ':' := fun x =>
    toLower_cases (p := fun x d => d = ':' ↔ x = ':') (by decide) (fun _ _ => Iff.rfl) x
  rw [split_lower hcolon, expandSuffix_lower hexp, Option.bind_some, ipv6Hextets_lower, hparts]

/-! ### Addresses with a zone -/

/-- The text of an IPv6 address. -/
structure IsIPv6 (addr : Text) : Prop where
  parts : 3 ≤ (split ':' addr).length
  value : ∃ hs, (expandSuffix (split ':' addr)).bind ipv6Hextets = some hs

namespace IsIPv6

variable {addr : Text}

theorem colon (h : IsIPv6 addr) : ':' ∈ addr := by
  by_contra hno
  have hparts := h.parts
  rw [split_of_notMem hno] at hparts
  exact absurd hparts (by rw [List.length_singleton]; decide)

theorem ne_nil (h : IsIPv6 addr) : addr ≠ [] := List.ne_nil_of_mem h.colon

theorem chars (h : IsIPv6 addr) : ∀ c ∈ addr, isHexDigit c = true ∨ c = ':' ∨ c = '.' := by
  obtain ⟨hs, hhs⟩ := h.value
  exact (mem_ipv6Text hhs).1

theorem last (h : IsIPv6 addr) : ∀ c ∈ addr.getLast?, c ≠ '.' := by
  obtain ⟨hs, hhs⟩ := h.value
  exact (mem_ipv6Text hhs).2

theorem lower (h : IsIPv6 addr) : IsIPv6 (addr.map Char.toLower) := by
  obtain ⟨hs, hhs⟩ := h.value
  refine ⟨?_, hs, ipv6Text_lower hhs⟩
  have hcolon : ∀ x : Char, x.toLower = ':' ↔ x = ':' := fun x =>
    toLower_cases (p := fun x d => d = ':' ↔ x = ':') (by decide) (fun _ _ => Iff.rfl) x
  rw [split_lower hcolon, List.length_map]
  exact h.parts

theorem ascii (h : IsIPv6 addr) : isAscii addr = true := by
  refine List.all_eq_true.mpr fun c hc => ?_
  rcases h.chars c hc with hhex | rfl | rfl
  · exact Percent.isAsciiChar_of_isHexDigit hhex
  · decide
  · decide

/-- No letter of an address opens a future version. -/
theorem head (h : IsIPv6 addr) : addr.head? ≠ some 'v' := by
  intro hv
  rcases h.chars 'v' (List.mem_of_head? hv) with h | h | h <;> exact absurd h (by decide)

theorem notMem (h : IsIPv6 addr) {c : Char} (hc : isHexDigit c = false) (hcolon : c ≠ ':')
    (hdot : c ≠ '.') : c ∉ addr := by
  intro hmem
  rcases h.chars c hmem with hhex | rfl | rfl
  · rw [hc] at hhex
    exact Bool.false_ne_true hhex
  · exact hcolon rfl
  · exact hdot rfl

end IsIPv6

theorem splitScopeId_eq_some {s addr : Text} : splitScopeId s = some addr ↔
    '%' ∉ s ∧ s = addr ∨
      ∃ zone, s = addr ++ '%' :: zone ∧ '%' ∉ addr ∧ zone ≠ [] ∧ '%' ∉ zone := by
  rw [splitScopeId]
  rcases partition_cases '%' s with ⟨hno, heq⟩ | ⟨name, scope, rfl, hname, heq⟩
  · rw [heq]
    have hzone : ¬ ∃ zone, s = addr ++ '%' :: zone ∧ '%' ∉ addr ∧ zone ≠ [] ∧ '%' ∉ zone := by
      rintro ⟨zone, rfl, -⟩
      exact hno (by simp)
    simp [hno, hzone]
  · rw [heq]
    dsimp only
    rw [Option.ite_none_left_eq_some, Option.some.injEq, Bool.or_eq_true, not_or, Bool.not_eq_true,
      List.isEmpty_eq_false_iff, List.contains_iff_mem]
    constructor
    · rintro ⟨⟨hne, hscope⟩, rfl⟩
      exact .inr ⟨scope, rfl, hname, hne, hscope⟩
    · rintro (⟨hno, -⟩ | ⟨zone, hzone, haddr, hne, hscope⟩)
      · exact absurd (by simp) hno
      · have hcut := congrArg (partition '%') hzone
        rw [partition_append hname, partition_append haddr] at hcut
        simp only [Prod.mk.injEq, true_and] at hcut
        obtain ⟨rfl, rfl⟩ := hcut
        exact ⟨⟨hne, hscope⟩, rfl⟩

theorem ipv6_eq_some {s : Text} :
    (∃ ip, ipv6 s = some ip) ↔ '/' ∉ s ∧ ∃ addr, splitScopeId s = some addr ∧ IsIPv6 addr := by
  rw [ipv6]
  cases hslash : s.contains '/' with
  | true =>
    refine iff_of_false (by simp) fun h => h.1 (List.contains_iff_mem.mp hslash)
  | false =>
    have hno : '/' ∉ s := by
      rw [← List.contains_iff_mem, hslash]
      exact Bool.false_ne_true
    rw [if_neg Bool.false_ne_true]
    cases hscope : splitScopeId s with
    | none => simp
    | some addr =>
      dsimp only
      constructor
      · rintro ⟨ip, h⟩
        rw [Option.ite_none_left_eq_some, Option.ite_none_left_eq_some] at h
        obtain ⟨hs, hhs, -⟩ := Option.map_eq_some_iff.mp h.2.2
        exact ⟨hno, addr, rfl, Nat.not_lt.mp h.2.1, hs, hhs⟩
      · rintro ⟨-, addr', haddr, h⟩
        obtain rfl : addr = addr' := Option.some.inj haddr
        obtain ⟨hs, hhs⟩ := h.value
        rw [if_neg fun hnil => h.ne_nil (List.isEmpty_iff.mp hnil), if_neg (Nat.not_lt.mpr h.parts),
          hhs]
        exact ⟨_, rfl⟩

theorem ipv4_eq_none {s : Text} (h : ':' ∈ s) : ipv4 s = none := by
  rw [Option.eq_none_iff_forall_ne_some]
  intro ip hip
  rcases (mem_ipv4Text hip).1 ':' h with h | h <;> exact absurd h (by decide)

end IPAddress
