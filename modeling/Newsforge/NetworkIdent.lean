/-
The client that a throttle counts (`network_ident` of `apps/core/throttling.py`).

* `networkIdent` — the key of a client, from the text of its address;
* `Network`, `networkOf` — what a key stands for: an IPv4 address, or an IPv6 network of 64
  bits; a zone is part of it only where the network has kept it;
* `Network.text` — the key as a text.

Main results: `networkIdent_eq_iff`, two clients share a key if and only if they share a
network, however their addresses are spelled; and `networkIdent_idempotent`.
-/
import Newsforge.IpAddress
import Newsforge.TextLines

open PyText IPAddress

namespace Throttling

/-! ### The key -/

/-- `_scope_id`; `[]` stands for `None`. -/
def scopeId (s : Text) : Text := (partition '%' s).2.2

/-- `ipv4_mapped`. -/
def ipv4Mapped (ip : BitVec 128) : Option (BitVec 32) :=
  if ip.toNat / 2 ^ 32 ≠ 0xFFFF then none else some (BitVec.ofNat 32 ip.toNat)

/-- `packed & int(self.netmask)`, for 64 bits. -/
def networkAddress (ip : BitVec 128) : BitVec 128 := BitVec.ofNat 128 (ip.toNat / 2 ^ 64 * 2 ^ 64)

/-- `str(address)`, with its scope. -/
def strScoped (ip : BitVec 128) (scope : Text) : Text :=
  str (.v6 ip) ++ if scope.isEmpty then [] else '%' :: scope

/-- `str(ipaddress.IPv6Network((addr, IPV6_PREFIX), strict=False))`. -/
def strNetwork (ip : BitVec 128) (scope : Text) : Text :=
  -- with host bits, the network address is a new one, without a scope
  let addr := if networkAddress ip = ip then strScoped ip scope else str (.v6 (networkAddress ip))
  addr ++ "/64".toList

/-- `network_ident`. -/
def networkIdent (ident : Text) : Text :=
  match ipAddress (strip isSpace ident) with
  | none => ident
  | some (.v4 ip) => str (.v4 ip)
  | some (.v6 ip) =>
    match ipv4Mapped ip with
    | some ip => str (.v4 ip)
    | none => strNetwork ip (scopeId (strip isSpace ident))

/-! ### Networks -/

/-- Who shares a key. -/
inductive Network
  | host (ip : BitVec 32)
  | subnet (pre : BitVec 64) (zone : Text)
  deriving DecidableEq

/-- The network of an address with a zone. -/
def networkOf (a : IPAddress) (zone : Text) : Network :=
  match a with
  | .v4 ip => .host ip
  | .v6 ip =>
    match ipv4Mapped ip with
    | some ip => .host ip
    | none =>
      .subnet (BitVec.ofNat 64 (ip.toNat / 2 ^ 64)) (if ip.toNat % 2 ^ 64 = 0 then zone else [])

/-- The first address of a network. -/
def firstAddress (pre : BitVec 64) : BitVec 128 := BitVec.ofNat 128 (pre.toNat * 2 ^ 64)

/-- The key of a network. -/
def Network.text : Network → Text
  | .host ip => str (.v4 ip)
  | .subnet pre zone => strScoped (firstAddress pre) zone ++ "/64".toList

theorem firstAddress_ofNat (ip : BitVec 128) :
    firstAddress (BitVec.ofNat 64 (ip.toNat / 2 ^ 64)) = networkAddress ip := by
  have hlt := ip.isLt
  rw [firstAddress, networkAddress, BitVec.toNat_ofNat, Nat.mod_eq_of_lt (by omega)]

theorem networkAddress_eq_iff (ip : BitVec 128) :
    networkAddress ip = ip ↔ ip.toNat % 2 ^ 64 = 0 := by
  have hlt := ip.isLt
  rw [networkAddress, ← BitVec.toNat_inj, BitVec.toNat_ofNat, Nat.mod_eq_of_lt (by omega)]
  omega

theorem firstAddress_injective : Function.Injective firstAddress := by
  intro a b h
  have ha := a.isLt
  have hb := b.isLt
  have hnat := congrArg BitVec.toNat h
  rw [firstAddress, firstAddress, BitVec.toNat_ofNat, BitVec.toNat_ofNat,
    Nat.mod_eq_of_lt (by omega), Nat.mod_eq_of_lt (by omega)] at hnat
  exact BitVec.toNat_inj.mp (by omega)

theorem str_injective : Function.Injective str := by
  intro a b h
  have hparse := congrArg ipAddress h
  rwa [ipAddress_str, ipAddress_str, Option.some_inj] at hparse

theorem notMem_str_v4 {c : Char} (hdigit : ∀ d < 16, c ≠ Nat.digitChar d) (hdot : c ≠ '.')
    (ip : BitVec 32) : c ∉ str (.v4 ip) := by
  intro h
  rcases mem_str_v4 h with ⟨d, hd, heq⟩ | heq
  · exact hdigit d hd heq
  · exact hdot heq

theorem notMem_str_v6 {c : Char} (hdigit : ∀ d < 16, c ≠ Nat.digitChar d) (hcolon : c ≠ ':')
    (ip : BitVec 128) : c ∉ str (.v6 ip) := by
  intro h
  rcases mem_str_v6 h with ⟨d, hd, heq⟩ | heq
  · exact hdigit d hd heq
  · exact hcolon heq

/-- An address with a scope is cut at the first `%`. -/
theorem partition_strScoped (ip : BitVec 128) (scope : Text) :
    (partition '%' (strScoped ip scope)).1 = str (.v6 ip) ∧
      (partition '%' (strScoped ip scope)).2.2 = scope := by
  have hno := notMem_str_v6 (c := '%') (by decide) (by decide) ip
  rw [strScoped]
  split
  · rename_i hempty
    rw [List.append_nil, partition_of_notMem hno, List.isEmpty_iff.mp hempty]
    exact ⟨rfl, rfl⟩
  · rw [partition_append hno]
    exact ⟨rfl, rfl⟩

/-- Different networks have different keys. -/
theorem text_injective : Function.Injective Network.text := by
  have hslash : ∀ (ip : BitVec 32) (s : Text), str (.v4 ip) ≠ s ++ "/64".toList := by
    intro ip s h
    have hno := notMem_str_v4 (c := '/') (by decide) (by decide) ip
    rw [h] at hno
    exact hno (by simp)
  intro m n h
  cases m with
  | host ip =>
    cases n with
    | host ip' =>
      have hstr : str (.v4 ip) = str (.v4 ip') := h
      rw [IPAddress.v4.inj (str_injective hstr)]
    | subnet pre zone => exact absurd h (hslash _ _)
  | subnet pre zone =>
    cases n with
    | host ip => exact absurd h.symm (hslash _ _)
    | subnet pre' zone' =>
      have hcut := List.append_cancel_right h
      obtain ⟨hstr, hzone⟩ := partition_strScoped (firstAddress pre) zone
      obtain ⟨hstr', hzone'⟩ := partition_strScoped (firstAddress pre') zone'
      rw [hcut] at hstr hzone
      have hpre := firstAddress_injective (IPAddress.v6.inj (str_injective (hstr.symm.trans hstr')))
      rw [hpre, hzone.symm.trans hzone']

/-- The key of an address is that of its network. -/
theorem networkIdent_eq_text {ident : Text} {a : IPAddress}
    (h : ipAddress (strip isSpace ident) = some a) :
    networkIdent ident = (networkOf a (scopeId (strip isSpace ident))).text := by
  rw [networkIdent, h]
  cases a with
  | v4 ip => rfl
  | v6 ip =>
    simp only [networkOf]
    cases ipv4Mapped ip with
    | some ip => rfl
    | none =>
      simp only [Network.text, firstAddress_ofNat, strNetwork, networkAddress_eq_iff]
      by_cases hhost : ip.toNat % 2 ^ 64 = 0
      · rw [if_pos hhost, if_pos hhost, (networkAddress_eq_iff ip).mpr hhost]
      · rw [if_neg hhost, if_neg hhost, strScoped, if_pos List.isEmpty_nil, List.append_nil]

/-- **Two clients share a key if and only if they share a network**: the IPv4 address, also
in an IPv6 one, or the first 64 bits, however the addresses are spelled.  A zone tells two
clients apart only if no other bit of their addresses is set. -/
theorem networkIdent_eq_iff {s s' : Text} {a a' : IPAddress}
    (h : ipAddress (strip isSpace s) = some a) (h' : ipAddress (strip isSpace s') = some a') :
    networkIdent s = networkIdent s' ↔
      networkOf a (scopeId (strip isSpace s)) = networkOf a' (scopeId (strip isSpace s')) := by
  rw [networkIdent_eq_text h, networkIdent_eq_text h']
  exact text_injective.eq_iff

theorem networkIdent_eq_iff_subnet :
    networkIdent "2001:db8:1:2:aaaa::1".toList = networkIdent " 2001:DB8:1:2::".toList ↔
      networkOf (.v6 0x20010db800010002aaaa000000000001) [] =
        networkOf (.v6 0x20010db8000100020000000000000000) [] :=
  networkIdent_eq_iff (by decide) (by decide)

example : networkIdent "2001:db8:1:2:aaaa::1".toList = "2001:db8:1:2::/64".toList := by
  decide

/-! ### Keys as addresses -/

theorem mem_strip {p : Char → Bool} {s : Text} {c : Char} (h : c ∈ s) (hc : p c = false) :
    c ∈ strip p s := by
  obtain ⟨a, b, hs, ha, hb⟩ := strip_eq_append p s
  rw [hs, List.mem_append, List.mem_append] at h
  rcases h with (h | h) | h
  · exact absurd (ha c h) (by simp [hc])
  · exact h
  · exact absurd (hb c h) (by simp [hc])

theorem strip_of_forall {p : Char → Bool} {s : Text} (h : ∀ c ∈ s, p c = false) :
    strip p s = s := by
  obtain ⟨a, b, hs, ha, hb⟩ := strip_eq_append p s
  have hnil : a = [] ∧ b = [] := by
    constructor
    · refine List.eq_nil_iff_forall_not_mem.mpr fun c hc => ?_
      have hmem : c ∈ s := hs ▸ List.mem_append_left _ (List.mem_append_left _ hc)
      exact absurd (ha c hc) (by simp [h c hmem])
    · refine List.eq_nil_iff_forall_not_mem.mpr fun c hc => ?_
      have hmem : c ∈ s := hs ▸ List.mem_append_right _ hc
      exact absurd (hb c hc) (by simp [h c hmem])
  rw [hnil.1, hnil.2, List.nil_append, List.append_nil] at hs
  exact hs.symm

/-- The key of a network is no address. -/
theorem ipAddress_of_slash {s : Text} (h : '/' ∈ s) : ipAddress s = none := by
  have hslash : s.contains '/' = true := List.contains_iff_mem.mpr h
  rw [ipAddress, ipv4, if_pos hslash, ipv6, if_pos hslash]
  rfl

theorem networkIdent_v4 (ip : BitVec 32) : networkIdent (str (.v4 ip)) = str (.v4 ip) := by
  have hspace : ∀ c ∈ str (.v4 ip), isSpace c = false := by
    intro c hc
    rcases mem_str_v4 hc with ⟨d, hd, rfl⟩ | rfl
    · have hdigits : ∀ d < 16, isSpace (Nat.digitChar d) = false := by decide
      exact hdigits d hd
    · decide
  rw [networkIdent, strip_of_forall hspace, ipAddress_str]

/-- A text that is no address is its own key. -/
theorem networkIdent_of_no_address {ident : Text} (h : ipAddress (strip isSpace ident) = none) :
    networkIdent ident = ident := by
  rw [networkIdent, h]

/-- **The key of a key is the key**, and so is that of a text that is no address. -/
theorem networkIdent_idempotent (ident : Text) :
    networkIdent (networkIdent ident) = networkIdent ident ∧
      (ipAddress (strip isSpace ident) = none → networkIdent ident = ident) := by
  refine ⟨?_, networkIdent_of_no_address⟩
  cases h : ipAddress (strip isSpace ident) with
  | none => rw [networkIdent_of_no_address h, networkIdent_of_no_address h]
  | some a =>
    rw [networkIdent_eq_text h]
    cases networkOf a (scopeId (strip isSpace ident)) with
    | host ip => exact networkIdent_v4 ip
    | subnet pre zone =>
      have hslash : '/' ∈ (Network.subnet pre zone).text :=
        List.mem_append_right _ (by simp)
      exact networkIdent_of_no_address (ipAddress_of_slash (mem_strip hslash (by decide)))

theorem networkIdent_idempotent_unknown : networkIdent "unknown".toList = "unknown".toList :=
  (networkIdent_idempotent "unknown".toList).2 (by decide)

end Throttling
