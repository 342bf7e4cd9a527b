/-
IP addresses and their text.

The parts of Python's `ipaddress` that turn text into addresses and back:
`ipAddress` accepts dotted quads and RFC 4291 text (with `::`, an IPv4 suffix
or a scope id), `IPAddress.str` prints the compressed form.

Main result: `ipAddress_str` — printing and parsing an address gives it back.
-/
import Mathlib.Algebra.Group.Nat.Defs
import Newsforge.PyText

open PyText

/-- An IPv4 or IPv6 address. -/
inductive IPAddress
  | v4 (ip : BitVec 32)
  | v6 (ip : BitVec 128)
  deriving DecidableEq

namespace IPAddress

/-! ### Text to address -/

/-- `IPv4Address._parse_octet`; `none` where it raises. -/
def parseOctet (s : Text) : Option ℕ :=
  if s.isEmpty then none
  else if !(isAscii s && s.all Char.isDigit) then none
  else if s.length > 3 then none
  else if s ≠ ['0'] ∧ s.head? = some '0' then none
  else if decValue s > 255 then none
  else some (decValue s)

/-- `int.from_bytes(…, 'big')` and its 16-bit analogue: the number with the
given digits in base `b`. -/
def fromDigits (b : ℕ) (ds : List ℕ) : ℕ := ds.foldl (fun acc d => acc * b + d) 0

/-- `IPv4Address(s)`; `none` for `AddressValueError`. -/
def ipv4 (s : Text) : Option (BitVec 32) :=
  if s.contains '/' then none
  else if s.isEmpty then none
  else if (split '.' s).length ≠ 4 then none
  else ((split '.' s).mapM parseOctet).map fun ds => BitVec.ofNat 32 (fromDigits 256 ds)

/-- The value of a hexadecimal digit. -/
def hexDigit (c : Char) : ℕ :=
  if c.isDigit then c.toNat - '0'.toNat
  else if 'a' ≤ c ∧ c ≤ 'f' then c.toNat - 'a'.toNat + 10
  else c.toNat - 'A'.toNat + 10

def isHexDigit (c : Char) : Bool :=
  c.isDigit || ('a' ≤ c && c ≤ 'f') || ('A' ≤ c && c ≤ 'F')

/-- `IPv6Address._parse_hextet`; `int('', 16)` raises too. -/
def parseHextet (s : Text) : Option ℕ :=
  if !s.all isHexDigit then none
  else if s.length > 4 then none
  else if s.isEmpty then none
  else some (numeral 16 hexDigit s)

/-- The parts between colons, an IPv4 suffix written as two hextets. -/
def expandSuffix (parts : List Text) : Option (List Text) :=
  match parts.getLast? with
  | none => some parts
  | some l =>
    if l.contains '.' then
      (ipv4 l).map fun ip =>
        parts.dropLast ++ [hexStr (ip.toNat / 65536), hexStr (ip.toNat % 65536)]
    else some parts

/-- The eight hextets: `hi` leading parts, zeros, `lo` trailing parts. -/
def hextetsOf (parts : List Text) (hi lo : ℕ) : Option (List ℕ) := do
  let his ← (parts.take hi).mapM parseHextet
  let los ← (parts.drop (parts.length - lo)).mapM parseHextet
  some (his ++ List.replicate (8 - (hi + lo)) 0 ++ los)

/-- `IPv6Address._ip_int_from_string`, from the parts between the colons. -/
def ipv6Hextets (parts : List Text) : Option (List ℕ) :=
  if parts.length > 9 then none
  else
    let interior := parts.tail.dropLast
    match interior.filter List.isEmpty with
    | [] =>
      if parts.length ≠ 8 then none
      else if parts.head? = some [] then none
      else if parts.getLast? = some [] then none
      else hextetsOf parts parts.length 0
    | [_] =>
      -- "::" stands at the only empty interior part
      let skip := interior.findIdx List.isEmpty + 1
      let hi := if parts.head? = some [] then skip - 1 else skip
      let lo := if parts.getLast? = some [] then parts.length - skip - 1 - 1
        else parts.length - skip - 1
      if parts.head? = some [] ∧ hi ≠ 0 then none
      else if parts.getLast? = some [] ∧ lo ≠ 0 then none
      else if 8 < hi + lo + 1 then none
      else hextetsOf parts hi lo
    | _ => none

/-- `IPv6Address._split_scope_id`, the scope dropped. -/
def splitScopeId (s : Text) : Option Text :=
  match partition '%' s with
  | (addr, false, _) => some addr
  | (addr, true, scope) => if scope.isEmpty || scope.contains '%' then none else some addr

/-- `IPv6Address(s)` without its scope id; `none` for `AddressValueError`. -/
def ipv6 (s : Text) : Option (BitVec 128) :=
  if s.contains '/' then none
  else match splitScopeId s with
    | none => none
    | some addr =>
      if addr.isEmpty then none
      else if (split ':' addr).length < 3 then none
      else ((expandSuffix (split ':' addr)).bind ipv6Hextets).map fun hs =>
        BitVec.ofNat 128 (fromDigits 65536 hs)

/-- `ipaddress.ip_address(s)`; `none` for `ValueError`. -/
def ipAddress (s : Text) : Option IPAddress :=
  match ipv4 s with
  | some ip => some (.v4 ip)
  | none => (ipv6 s).map .v6

/-! ### Address to text -/

/-- The four bytes of an IPv4 address, `to_bytes(4, 'big')`. -/
def octets (ip : BitVec 32) : List ℕ :=
  [ip.toNat / 2 ^ 24 % 256, ip.toNat / 2 ^ 16 % 256, ip.toNat / 2 ^ 8 % 256, ip.toNat % 256]

/-- The eight 16-bit groups of an IPv6 address. -/
def hextets (ip : BitVec 128) : List ℕ :=
  [ip.toNat / 2 ^ 112 % 65536, ip.toNat / 2 ^ 96 % 65536, ip.toNat / 2 ^ 80 % 65536,
    ip.toNat / 2 ^ 64 % 65536, ip.toNat / 2 ^ 48 % 65536, ip.toNat / 2 ^ 32 % 65536,
    ip.toNat / 2 ^ 16 % 65536, ip.toNat % 65536]

/-- The state of the search for the longest run of zero hextets. -/
structure ZeroRun where
  bestStart : ℕ
  bestLen : ℕ
  start : ℕ
  len : ℕ

/-- One step of the search, at index `i`. -/
def ZeroRun.step (z : ZeroRun) (i : ℕ) (hextet : Text) : ZeroRun :=
  if hextet = ['0'] then
    let start := if z.len = 0 then i else z.start
    if z.len + 1 > z.bestLen then ⟨start, z.len + 1, start, z.len + 1⟩
    else ⟨z.bestStart, z.bestLen, start, z.len + 1⟩
  else ⟨z.bestStart, z.bestLen, i, 0⟩

/-- The search over the hextets from index `i` on. -/
def ZeroRun.scan : ZeroRun → ℕ → List Text → ZeroRun
  | z, _, [] => z
  | z, i, h :: hs => (z.step i h).scan (i + 1) hs

/-- `IPv6Address._compress_hextets`. -/
def compressHextets (hs : List Text) : List Text :=
  let z := ZeroRun.scan ⟨0, 0, 0, 0⟩ 0 hs
  if z.bestLen > 1 then
    let tail := if z.bestStart + z.bestLen = hs.length then [[]]
      else hs.drop (z.bestStart + z.bestLen)
    let body := hs.take z.bestStart ++ [[]] ++ tail
    if z.bestStart = 0 then [] :: body else body
  else hs

/-- `str(address)`. -/
def str : IPAddress → Text
  | v4 ip => join '.' ((octets ip).map natStr)
  | v6 ip => join ':' (compressHextets ((hextets ip).map hexStr))

/-- `address.version == 6`. -/
def isV6 : IPAddress → Bool
  | v4 _ => false
  | v6 _ => true

/-! ### Reading a printed address back -/

theorem mapM_map_of_inverse {α β : Type*} {f : β → Option α} {g : α → β} {l : List α}
    (h : ∀ x ∈ l, f (g x) = some x) : (l.map g).mapM f = some l := by
  induction l with
  | nil => rfl
  | cons x l ih =>
    have hx := h x List.mem_cons_self
    have hl := ih fun y hy => h y (List.mem_cons_of_mem _ hy)
    rw [List.map_cons, List.mapM_cons, hx, hl]
    rfl

theorem parseOctet_natStr : ∀ n : Fin 256, parseOctet (natStr n) = some n.val := by
  decide +kernel

theorem notMem_natStr {c : Char} (hc : c.isDigit = false) (n : ℕ) : c ∉ natStr n := by
  intro h
  have := Nat.isDigit_of_mem_toDigits (by decide) (by decide) h
  rw [hc] at this
  exact Bool.noConfusion this

theorem fromDigits_octets (ip : BitVec 32) : fromDigits 256 (octets ip) = ip.toNat := by
  have hlt := ip.isLt
  simp only [fromDigits, octets, List.foldl_cons, List.foldl_nil]
  omega

theorem fromDigits_hextets (ip : BitVec 128) : fromDigits 65536 (hextets ip) = ip.toNat := by
  have hlt := ip.isLt
  simp only [fromDigits, hextets, List.foldl_cons, List.foldl_nil]
  omega

theorem parseHextet_hexStr {n : ℕ} (hn : n < 65536) : parseHextet (hexStr n) = some n := by
  have hdigit : ∀ d < 16, isHexDigit d.digitChar = true ∧ hexDigit d.digitChar = d := by decide
  have hall : (hexStr n).all isHexDigit = true := by
    rw [List.all_eq_true]
    intro c hc
    obtain ⟨d, hd, rfl⟩ := mem_toDigits (by decide) hc
    exact (hdigit d hd).1
  have hlen : (hexStr n).length ≤ 4 :=
    (Nat.length_toDigits_le_iff (by decide) (by decide)).mpr hn
  have hval : numeral 16 hexDigit (hexStr n) = n :=
    numeral_toDigits (by decide) (fun d hd => (hdigit d hd).2) n
  have hne : (hexStr n).isEmpty = false := by
    rw [List.isEmpty_eq_false_iff]
    exact Nat.toDigits_ne_nil
  rw [parseHextet, hall, hne, if_neg (by simp), if_neg (by omega), if_neg (by simp), hval]

theorem hexStr_ne_nil (n : ℕ) : hexStr n ≠ [] := Nat.toDigits_ne_nil

theorem notMem_hexStr {c : Char} (hc : isHexDigit c = false) (n : ℕ) : c ∉ hexStr n := by
  intro h
  have hdigit : ∀ d < 16, isHexDigit d.digitChar = true := by decide
  obtain ⟨d, hd, rfl⟩ := mem_toDigits (by decide) h
  rw [hdigit d hd] at hc
  exact Bool.noConfusion hc

theorem ipv4_str (ip : BitVec 32) : ipv4 (str (.v4 ip)) = some ip := by
  have hchars : ∀ c : Char, c.isDigit = false → ∀ p ∈ (octets ip).map natStr, c ∉ p := by
    intro c hc p hp
    obtain ⟨n, -, rfl⟩ := List.mem_map.mp hp
    exact notMem_natStr hc n
  have hsplit : split '.' (str (.v4 ip)) = (octets ip).map natStr :=
    split_join (by simp [octets]) (hchars '.' (by decide))
  have hslash : (str (.v4 ip)).contains '/' = false := by
    rw [List.contains_eq_mem, decide_eq_false_iff_not]
    intro h
    rcases mem_join h with h | ⟨p, hp, h⟩
    · exact absurd h (by decide)
    · exact hchars '/' (by decide) p hp h
  have hne : (str (.v4 ip)).isEmpty = false := by
    by_contra h
    rw [Bool.not_eq_false, List.isEmpty_iff] at h
    rw [h] at hsplit
    exact absurd hsplit (by simp [split, octets])
  have hparse : ((octets ip).map natStr).mapM parseOctet = some (octets ip) := by
    refine mapM_map_of_inverse fun n hn => ?_
    have hlt : n < 256 := by
      simp only [octets, List.mem_cons, List.not_mem_nil, or_false] at hn
      omega
    exact parseOctet_natStr ⟨n, hlt⟩
  rw [ipv4, hslash, hne, hsplit, if_neg (by simp), if_neg (by simp), if_neg (by simp [octets]),
    hparse, Option.map_some, fromDigits_octets, BitVec.ofNat_toNat, BitVec.setWidth_eq]

/-! ### The longest run of zeros -/

/-- What the search knows after the hextets `pre`: its best run and its
current run consist of `"0"` only. -/
structure ZeroRun.Sound (z : ZeroRun) (pre : List Text) : Prop where
  best_le : z.bestStart + z.bestLen ≤ pre.length
  best : ∀ i, z.bestStart ≤ i → i < z.bestStart + z.bestLen → pre[i]? = some ['0']
  run_end : 0 < z.len → z.start + z.len = pre.length
  run : ∀ i, z.start ≤ i → i < z.start + z.len → pre[i]? = some ['0']

theorem ZeroRun.Sound.step {z : ZeroRun} {pre : List Text} (h : z.Sound pre) (x : Text) :
    (z.step pre.length x).Sound (pre ++ [x]) := by
  have hkeep : ∀ i : ℕ, pre[i]? = some ['0'] → (pre ++ [x])[i]? = some ['0'] := by
    intro i hi
    rw [List.getElem?_append_left (List.getElem?_eq_some_iff.mp hi).1]
    exact hi
  have hlen : (pre ++ [x]).length = pre.length + 1 := by simp
  have hbest := h.best_le
  by_cases hx : x = ['0']
  · -- the run grows by one, from its start or from here
    have hlast : (pre ++ [x])[pre.length]? = some ['0'] := by simp [hx]
    have hrun : ∀ i : ℕ, (if z.len = 0 then pre.length else z.start) ≤ i →
        i < (if z.len = 0 then pre.length else z.start) + (z.len + 1) →
        (pre ++ [x])[i]? = some ['0'] := by
      intro i h1 h2
      by_cases hi : i = pre.length
      · exact hi ▸ hlast
      · by_cases hz : z.len = 0
        · rw [if_pos hz] at h1 h2
          omega
        · rw [if_neg hz] at h1 h2
          have := h.run_end (by omega)
          exact hkeep i (h.run i h1 (by omega))
    have hend : (if z.len = 0 then pre.length else z.start) + (z.len + 1) = pre.length + 1 := by
      by_cases hz : z.len = 0
      · rw [if_pos hz, hz]
      · rw [if_neg hz]
        have := h.run_end (by omega)
        omega
    rw [ZeroRun.step, if_pos hx]
    dsimp only
    split
    · exact ⟨by rw [hlen]; exact Nat.le_of_eq hend, hrun, fun _ => by rw [hlen]; exact hend, hrun⟩
    · exact ⟨by rw [hlen]; dsimp only; omega, fun i h1 h2 => hkeep i (h.best i h1 h2),
        fun _ => by rw [hlen]; exact hend, hrun⟩
  · rw [ZeroRun.step, if_neg hx]
    refine ⟨by rw [hlen]; dsimp only; omega, fun i h1 h2 => hkeep i (h.best i h1 h2), ?_, ?_⟩
    · intro h0
      exact absurd h0 (Nat.lt_irrefl 0)
    · intro i h1 h2
      dsimp only at h1 h2
      omega

theorem ZeroRun.Sound.scan {z : ZeroRun} {pre : List Text} (h : z.Sound pre) (hs : List Text) :
    (z.scan pre.length hs).Sound (pre ++ hs) := by
  induction hs generalizing z pre with
  | nil => simpa [ZeroRun.scan] using h
  | cons x hs ih =>
    have := ih (h.step x)
    rw [List.length_append, List.length_singleton, List.append_assoc] at this
    exact this

theorem scan_sound (hs : List Text) : (ZeroRun.scan ⟨0, 0, 0, 0⟩ 0 hs).Sound hs := by
  have h0 : (ZeroRun.mk 0 0 0 0).Sound [] :=
    ⟨Nat.le_refl _, fun i _ h2 => absurd h2 (Nat.not_lt_zero i), fun h => absurd h (by decide),
      fun i _ h2 => absurd h2 (Nat.not_lt_zero i)⟩
  exact h0.scan hs

/-! ### The IPv6 round trip -/

/-- The parts on one side of "::"; an empty side is one empty part. -/
private def side (ns : List ℕ) : List Text := if ns = [] then [[]] else ns.map hexStr

private theorem filter_hexStr (ns : List ℕ) : (ns.map hexStr).filter List.isEmpty = [] := by
  rw [List.filter_eq_nil_iff]
  intro x hx
  obtain ⟨n, -, rfl⟩ := List.mem_map.mp hx
  simp [hexStr_ne_nil]

private theorem findIdx_hexStr (ns : List ℕ) (ms : List Text) :
    (ns.map hexStr ++ [] :: ms).findIdx List.isEmpty = ns.length := by
  induction ns with
  | nil => simp [List.findIdx_cons]
  | cons n ns ih =>
    have hn : (hexStr n).isEmpty = false := by simp [hexStr_ne_nil]
    simp [List.findIdx_cons, ih, hn]

/-- The numbers around the empty parts are read back, whatever stands between. -/
private theorem hextetsOf_append {P S : List ℕ} (hP : ∀ n ∈ P, n < 65536)
    (hS : ∀ n ∈ S, n < 65536) (mid : List Text) :
    hextetsOf (P.map hexStr ++ mid ++ S.map hexStr) P.length S.length =
      some (P ++ List.replicate (8 - (P.length + S.length)) 0 ++ S) := by
  have htake : (P.map hexStr ++ mid ++ S.map hexStr).take P.length = P.map hexStr := by
    rw [List.append_assoc, List.take_append_of_le_length (by simp), List.take_of_length_le (by simp)]
  have hdrop : (P.map hexStr ++ mid ++ S.map hexStr).drop
      ((P.map hexStr ++ mid ++ S.map hexStr).length - S.length) = S.map hexStr := by
    rw [List.drop_append_of_le_length (by simp; omega), List.drop_of_length_le (by simp; omega),
      List.nil_append]
  have hPm : (P.map hexStr).mapM parseHextet = some P :=
    mapM_map_of_inverse fun n hn => parseHextet_hexStr (hP n hn)
  have hSm : (S.map hexStr).mapM parseHextet = some S :=
    mapM_map_of_inverse fun n hn => parseHextet_hexStr (hS n hn)
  rw [hextetsOf, htake, hdrop, hPm, hSm]
  rfl

/-- Parsing `P::S` fills in the zeros. -/
private theorem ipv6Hextets_sides {P S : List ℕ} (hP : ∀ n ∈ P, n < 65536)
    (hS : ∀ n ∈ S, n < 65536) (hlen : P.length + S.length ≤ 6) :
    ipv6Hextets (side P ++ [] :: side S) =
      some (P ++ List.replicate (8 - (P.length + S.length)) 0 ++ S) := by
  rcases P with _ | ⟨p, P⟩ <;> rcases List.eq_nil_or_concat S with rfl | ⟨S, q, rfl⟩
  · decide
  · -- "::S": the first two parts are empty
    rw [List.concat_eq_append] at *
    have hshape : side [] ++ [] :: side (S ++ [q]) =
        ([] : List ℕ).map hexStr ++ [[], []] ++ (S ++ [q]).map hexStr := by simp [side]
    have hkey := hextetsOf_append hP hS [[], []]
    rw [hshape]
    generalize hparts : ([] : List ℕ).map hexStr ++ [[], []] ++ (S ++ [q]).map hexStr = parts at *
    have hpl : parts.length = S.length + 3 := by simp [← hparts]
    have hint : parts.tail.dropLast = ([] : List ℕ).map hexStr ++ [] :: S.map hexStr := by
      simp [← hparts, List.dropLast_cons_of_ne_nil]
    have hhead : parts.head? = some [] := by simp [← hparts]
    have hlast : parts.getLast? ≠ some [] := by
      simp [← hparts, List.getLast?_cons, hexStr_ne_nil]
    simp only [List.length_append, List.length_singleton, List.length_nil, Nat.zero_add] at hlen hkey
    rw [ipv6Hextets, if_neg (by omega)]
    simp only [hint, List.filter_append, List.filter_cons, filter_hexStr, findIdx_hexStr,
      List.isEmpty_nil, if_true, List.nil_append, hhead, if_neg hlast, hpl, List.length_nil]
    rw [if_neg (by simp), if_neg (by simp [hlast]), if_neg (by omega)]
    simpa using hkey
  · -- "P::": the last two parts are empty
    have hshape : side (p :: P) ++ [] :: side [] =
        (p :: P).map hexStr ++ [[], []] ++ ([] : List ℕ).map hexStr := by simp [side]
    have hkey := hextetsOf_append hP hS [[], []]
    rw [hshape]
    generalize hparts : (p :: P).map hexStr ++ [[], []] ++ ([] : List ℕ).map hexStr = parts at *
    have hpl : parts.length = P.length + 3 := by simp [← hparts]
    have hint : parts.tail.dropLast = P.map hexStr ++ [] :: ([] : List ℕ).map hexStr := by
      rw [← hparts, List.map_cons, List.cons_append, List.cons_append, List.tail_cons,
        List.map_nil, List.append_nil, List.dropLast_append_of_ne_nil (by simp)]
      rfl
    have hhead : parts.head? ≠ some [] := by simp [← hparts, hexStr_ne_nil]
    have hlast : parts.getLast? = some [] := by simp [← hparts, List.getLast?_cons]
    simp only [List.length_cons, List.length_nil, Nat.add_zero] at hlen hkey
    rw [ipv6Hextets, if_neg (by omega)]
    simp only [hint, List.filter_append, List.filter_cons, filter_hexStr, findIdx_hexStr,
      List.isEmpty_nil, if_true, List.nil_append, if_neg hhead, hlast, hpl]
    rw [if_neg (by simp [hhead]), if_neg (by omega), if_neg (by omega)]
    simpa using hkey
  · -- "P::S"
    rw [List.concat_eq_append] at *
    have hshape : side (p :: P) ++ [] :: side (S ++ [q]) =
        (p :: P).map hexStr ++ [[]] ++ (S ++ [q]).map hexStr := by simp [side]
    have hkey := hextetsOf_append hP hS [[]]
    rw [hshape]
    generalize hparts : (p :: P).map hexStr ++ [[]] ++ (S ++ [q]).map hexStr = parts at *
    have hpl : parts.length = P.length + S.length + 3 := by simp [← hparts]; omega
    have hint : parts.tail.dropLast = P.map hexStr ++ [] :: S.map hexStr := by
      rw [← hparts, List.map_cons, List.cons_append, List.cons_append, List.tail_cons,
        List.dropLast_append_of_ne_nil (by simp)]
      simp
    have hhead : parts.head? ≠ some [] := by simp [← hparts, hexStr_ne_nil]
    have hlast : parts.getLast? ≠ some [] := by
      simp [← hparts, List.getLast?_append, List.getLast?_cons, hexStr_ne_nil]
    simp only [List.length_cons, List.length_append] at hlen hkey
    rw [ipv6Hextets, if_neg (by omega)]
    simp only [hint, List.filter_append, List.filter_cons, filter_hexStr, findIdx_hexStr,
      List.isEmpty_nil, if_true, List.nil_append, if_neg hhead, if_neg hlast, hpl]
    rw [if_neg (by simp [hhead]), if_neg (by simp [hlast]), if_neg (by omega)]
    have hlo : P.length + S.length + 3 - (P.length + 1) - 1 = S.length + 1 := by omega
    rw [hlo]
    simpa using hkey

/-- Eight hextets without "::" are read as they stand. -/
private theorem ipv6Hextets_full {ns : List ℕ} (hns : ∀ n ∈ ns, n < 65536)
    (hlen : ns.length = 8) : ipv6Hextets (ns.map hexStr) = some ns := by
  have hne : ∀ x ∈ ns.map hexStr, x ≠ [] := by
    intro x hx
    obtain ⟨n, -, rfl⟩ := List.mem_map.mp hx
    exact hexStr_ne_nil n
  have hint : (ns.map hexStr).tail.dropLast.filter List.isEmpty = [] := by
    rw [List.filter_eq_nil_iff]
    intro x hx
    rw [List.isEmpty_iff]
    exact hne x (List.mem_of_mem_tail ((List.dropLast_sublist _).subset hx))
  have hhead : (ns.map hexStr).head? ≠ some [] := fun h => hne _ (List.mem_of_mem_head? h) rfl
  have hlast : (ns.map hexStr).getLast? ≠ some [] :=
    fun h => hne _ (List.mem_of_mem_getLast? h) rfl
  have hkey := hextetsOf_append (P := ns) (S := []) hns (by simp) []
  rw [ipv6Hextets, List.length_map, hlen, if_neg (by decide)]
  simp only [hint, if_neg hhead, if_neg hlast]
  simpa [hlen] using hkey

theorem mem_hextets_lt {ip : BitVec 128} {n : ℕ} (hn : n ∈ hextets ip) : n < 65536 := by
  simp only [hextets, List.mem_cons, List.not_mem_nil, or_false] at hn
  omega

/-- What `compressHextets` prints, `ipv6Hextets` reads back. -/
theorem ipv6Hextets_compress (ns : List ℕ) (hns : ∀ n ∈ ns, n < 65536) (hlen : ns.length = 8) :
    ipv6Hextets (compressHextets (ns.map hexStr)) = some ns := by
  have hz := scan_sound (ns.map hexStr)
  rw [compressHextets]
  generalize ZeroRun.scan ⟨0, 0, 0, 0⟩ 0 (ns.map hexStr) = z at hz
  have hle := hz.best_le
  rw [List.length_map] at hle
  by_cases hrun : z.bestLen > 1
  · -- the hextets are a head, the zeros of the best run, and a tail
    have hzero : ∀ i, z.bestStart ≤ i → i < z.bestStart + z.bestLen → ns[i]? = some 0 := by
      intro i h1 h2
      have hi := hz.best i h1 h2
      rw [List.getElem?_map, Option.map_eq_some_iff] at hi
      obtain ⟨n, hn, hn0⟩ := hi
      have hread := parseHextet_hexStr (hns n (List.mem_of_getElem? hn))
      rw [hn0, show parseHextet ['0'] = some 0 by decide, Option.some_inj] at hread
      rw [hn, ← hread]
    have hmid : (ns.drop z.bestStart).take z.bestLen = List.replicate z.bestLen 0 := by
      rw [List.eq_replicate_iff]
      refine ⟨by rw [List.length_take, List.length_drop]; omega, fun b hb => ?_⟩
      obtain ⟨i, hi, rfl⟩ := List.getElem_of_mem hb
      rw [List.length_take, List.length_drop] at hi
      have h0 := hzero (z.bestStart + i) (by omega) (by omega)
      rw [List.getElem_take, List.getElem_drop]
      exact (List.getElem?_eq_some_iff.mp h0).2
    have hns' : ns = ns.take z.bestStart ++ List.replicate z.bestLen 0 ++
        ns.drop (z.bestStart + z.bestLen) := by
      rw [← hmid, ← List.drop_drop, List.append_assoc, List.take_append_drop,
        List.take_append_drop]
    have hP : (ns.take z.bestStart).length = z.bestStart := by rw [List.length_take]; omega
    have hS : (ns.drop (z.bestStart + z.bestLen)).length = 8 - (z.bestStart + z.bestLen) := by
      rw [List.length_drop, hlen]
    have hsides := ipv6Hextets_sides (P := ns.take z.bestStart)
      (S := ns.drop (z.bestStart + z.bestLen)) (fun n hn => hns n (List.mem_of_mem_take hn))
      (fun n hn => hns n (List.mem_of_mem_drop hn)) (by omega)
    have hzeros : 8 - ((ns.take z.bestStart).length + (ns.drop (z.bestStart + z.bestLen)).length) =
        z.bestLen := by omega
    rw [hzeros, ← hns'] at hsides
    rw [if_pos hrun, ← hsides]
    -- the printed parts are the two sides around the empty part
    have hstart : z.bestStart = 0 ↔ ns.take z.bestStart = [] := by
      rw [List.take_eq_nil_iff, ← List.length_eq_zero_iff (l := ns)]
      omega
    have hend : z.bestStart + z.bestLen = ns.length ↔
        ns.drop (z.bestStart + z.bestLen) = [] := by
      rw [List.drop_eq_nil_iff]
      omega
    simp only [List.length_map, side, ← hstart, ← hend, List.map_take, List.map_drop]
    by_cases h0 : z.bestStart = 0
    · simp [h0]
    · simp [h0]
  · rw [if_neg hrun]
    exact ipv6Hextets_full hns hlen

/-- Compression only drops parts and adds empty ones. -/
theorem mem_compressHextets {hs : List Text} {p : Text} (hp : p ∈ compressHextets hs) :
    p = [] ∨ p ∈ hs := by
  rw [compressHextets] at hp
  generalize ZeroRun.scan ⟨0, 0, 0, 0⟩ 0 hs = z at hp
  by_cases hrun : z.bestLen > 1
  · by_cases h0 : z.bestStart = 0 <;> by_cases h8 : z.bestStart + z.bestLen = hs.length <;>
      simp only [hrun, h0, h8, if_true, if_false, List.mem_cons, List.mem_append,
        List.not_mem_nil, or_false] at hp <;>
      grind [List.mem_of_mem_take, List.mem_of_mem_drop]
  · rw [if_neg hrun] at hp
    exact .inr hp

/-- The printed parts are hexadecimal, and there are at least three of them. -/
theorem compressHextets_parts (ns : List ℕ) (hlen : ns.length = 8) :
    3 ≤ (compressHextets (ns.map hexStr)).length ∧
      ∀ p ∈ compressHextets (ns.map hexStr), ∀ c : Char, isHexDigit c = false → c ∉ p := by
  constructor
  · have hz := (scan_sound (ns.map hexStr)).best_le
    rw [compressHextets]
    generalize ZeroRun.scan ⟨0, 0, 0, 0⟩ 0 (ns.map hexStr) = z at hz
    rw [List.length_map, hlen] at hz
    by_cases hrun : z.bestLen > 1
    · rw [if_pos hrun]
      have htail : 1 ≤ (if z.bestStart + z.bestLen = (ns.map hexStr).length then [[]]
          else (ns.map hexStr).drop (z.bestStart + z.bestLen)).length := by
        split
        · exact Nat.le_refl 1
        · rename_i h8
          rw [List.length_map] at h8
          rw [List.length_drop, List.length_map]
          omega
      have hhead : ((ns.map hexStr).take z.bestStart).length = z.bestStart := by
        rw [List.length_take, List.length_map]
        omega
      by_cases h0 : z.bestStart = 0
      · rw [if_pos h0, List.length_cons, List.length_append, List.length_append]
        rw [List.length_singleton]
        omega
      · rw [if_neg h0, List.length_append, List.length_append, hhead, List.length_singleton]
        omega
    · rw [if_neg hrun, List.length_map]
      omega
  · intro p hp c hc
    rcases mem_compressHextets hp with rfl | hp
    · exact List.not_mem_nil
    · obtain ⟨n, -, rfl⟩ := List.mem_map.mp hp
      exact notMem_hexStr hc n

theorem ipv6_str (ip : BitVec 128) : ipv6 (str (.v6 ip)) = some ip := by
  obtain ⟨hlen, hhex⟩ := compressHextets_parts (hextets ip) rfl
  have hread := ipv6Hextets_compress (hextets ip) (fun n hn => mem_hextets_lt hn) rfl
  have hstr : str (.v6 ip) = join ':' (compressHextets ((hextets ip).map hexStr)) := rfl
  generalize compressHextets ((hextets ip).map hexStr) = parts at *
  have hsplit : split ':' (str (.v6 ip)) = parts := by
    rw [hstr]
    refine split_join ?_ fun p hp => hhex p hp ':' (by decide)
    rintro rfl
    exact absurd hlen (by decide)
  have hchar : ∀ c : Char, isHexDigit c = false → c ≠ ':' → c ∉ str (.v6 ip) := by
    intro c hc hcolon h
    rw [hstr] at h
    rcases mem_join h with h | ⟨p, hp, h⟩
    · exact hcolon h
    · exact hhex p hp c hc h
  have hslash : (str (.v6 ip)).contains '/' = false := by
    rw [List.contains_eq_mem, decide_eq_false_iff_not]
    exact hchar '/' (by decide) (by decide)
  have hscope : splitScopeId (str (.v6 ip)) = some (str (.v6 ip)) := by
    rw [splitScopeId, partition_of_notMem (hchar '%' (by decide) (by decide))]
  have hne : (str (.v6 ip)).isEmpty = false := by
    rw [List.isEmpty_eq_false_iff]
    intro h
    rw [h, split, List.splitOn_nil] at hsplit
    exact absurd hlen (by rw [← hsplit]; decide)
  have hsuffix : expandSuffix parts = some parts := by
    rcases List.eq_nil_or_concat parts with rfl | ⟨init, l, rfl⟩
    · rfl
    · have hdot : l.contains '.' = false := by
        rw [List.contains_eq_mem, decide_eq_false_iff_not]
        exact hhex l (by simp) '.' (by decide)
      rw [expandSuffix, List.concat_eq_append, List.getLast?_append_of_ne_nil _ (by simp)]
      simp only [List.getLast?_singleton, hdot]
      simp
  rw [ipv6, hslash, if_neg (by simp), hscope]
  simp only [hne, hsplit]
  rw [if_neg (by simp), if_neg (by omega), hsuffix, Option.bind_some, hread, Option.map_some,
    fromDigits_hextets, BitVec.ofNat_toNat, BitVec.setWidth_eq]

/-- **Printing and parsing an address gives it back.** -/
theorem ipAddress_str (a : IPAddress) : ipAddress a.str = some a := by
  cases a with
  | v4 ip => rw [ipAddress, ipv4_str]
  | v6 ip =>
    have hnot : ipv4 (str (.v6 ip)) = none := by
      -- an IPv6 text has no dot, so it is not four octets
      obtain ⟨-, hhex⟩ := compressHextets_parts (hextets ip) rfl
      have hdot : '.' ∉ str (.v6 ip) := by
        intro h
        rcases mem_join h with h | ⟨p, hp, h⟩
        · exact absurd h (by decide)
        · exact hhex p hp '.' (by decide) h
      rw [ipv4, split_of_notMem hdot]
      simp
    rw [ipAddress, hnot, ipv6_str]
    rfl

/-- A printed IPv4 address consists of digits and dots. -/
theorem mem_str_v4 {ip : BitVec 32} {c : Char} (h : c ∈ str (.v4 ip)) :
    (∃ d < 16, c = d.digitChar) ∨ c = '.' := by
  rcases mem_join h with h | ⟨p, hp, h⟩
  · exact .inr h
  · obtain ⟨n, -, rfl⟩ := List.mem_map.mp hp
    obtain ⟨d, hd, hc⟩ := mem_toDigits (by decide) h
    exact .inl ⟨d, Nat.lt_of_lt_of_le hd (by decide), hc⟩

/-- A printed IPv6 address consists of lower-case hexadecimal digits and colons. -/
theorem mem_str_v6 {ip : BitVec 128} {c : Char} (h : c ∈ str (.v6 ip)) :
    (∃ d < 16, c = d.digitChar) ∨ c = ':' := by
  rcases mem_join h with h | ⟨p, hp, h⟩
  · exact .inr h
  · rcases mem_compressHextets hp with rfl | hp
    · exact absurd h List.not_mem_nil
    · obtain ⟨n, -, rfl⟩ := List.mem_map.mp hp
      obtain ⟨d, hd, hc⟩ := mem_toDigits (by decide) h
      exact .inl ⟨d, hd, hc⟩

example : ipAddress "64:ff9b::93.184.216.34".toList =
    some (.v6 0x64ff9b0000000000000000_5db8d822) := by
  decide

end IPAddress
