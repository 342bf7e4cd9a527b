/-
IPv4 addresses inside IPv6 addresses (`_is_public`).

* `publicBody`, `isPublicWithin` — `_is_public` with its recursion, cut off at a
  number of nested calls;
* `Carries` — the forms of an IPv6 address that carries an IPv4 address;
* `NeverPublic` — the networks that are refused as a whole;
* `inNetwork_iff` — an address is in a network if it begins with its prefix.

Main result: `embedded_ipv4_decides`.
-/
import Newsforge.SafeHttp

open PyText

namespace SafeHttp

/-! ### The recursion -/

/-- The body of `_is_public`; `again` stands for its calls of itself. -/
def publicBody (is : AddressPredicates) (again : IPAddress → Option Bool) :
    IPAddress → Option Bool
  | .v6 ip =>
    if neverPublicV6.any fun net => inNetwork net.1 net.2 ip then some false
    else if embedsIpv4.any fun net => inNetwork net.1 net.2 ip then
      again (.v4 (BitVec.ofNat 32 (ip.toNat &&& 0xffffffff)))
    else match sixtofour ip with
      | some a => again (.v4 a)
      | none => some (is.isGlobal (.v6 ip) && !is.isMulticast (.v6 ip))
  | .v4 ip =>
    if neverPublicV4.any fun net => inNetwork net.1 net.2 ip then some false
    else some (is.isGlobal (.v4 ip) && !is.isMulticast (.v4 ip))

/-- `_is_public` with at most `depth` calls of itself, one inside the other; `none`
if it needs more. -/
def isPublicWithin (is : AddressPredicates) : ℕ → IPAddress → Option Bool
  | 0 => publicBody is fun _ => none
  | depth + 1 => publicBody is (isPublicWithin is depth)

/-- An IPv4 address is answered without a further call. -/
theorem isPublicWithin_v4 (is : AddressPredicates) (depth : ℕ) (ip : BitVec 32) :
    isPublicWithin is depth (.v4 ip) = some (isPublic is (.v4 ip)) := by
  have hbody : ∀ again, publicBody is again (.v4 ip) = some (isPublic is (.v4 ip)) := by
    intro again
    rw [publicBody, isPublic, isPublicV4]
    split <;> rfl
  cases depth with
  | zero => exact hbody _
  | succ depth => exact hbody _

/-- The last 32 bits. -/
theorem ofNat_and_mask (ip : BitVec 128) :
    BitVec.ofNat 32 (ip.toNat &&& 0xffffffff) = ip.truncate 32 := by
  apply BitVec.eq_of_toNat_eq
  rw [show (0xffffffff : ℕ) = 2 ^ 32 - 1 from rfl, Nat.and_two_pow_sub_one_eq_mod]
  rw [BitVec.toNat_ofNat, BitVec.toNat_setWidth, Nat.mod_mod]

/-- **The recursion is one call deep.** -/
theorem isPublicWithin_succ (is : AddressPredicates) (depth : ℕ) (ip : IPAddress) :
    isPublicWithin is (depth + 1) ip = some (isPublic is ip) := by
  cases ip with
  | v4 ip => exact isPublicWithin_v4 is _ ip
  | v6 ip =>
    rw [isPublicWithin, publicBody, ofNat_and_mask, isPublic]
    split
    · rfl
    · split
      · exact isPublicWithin_v4 is depth _
      · cases sixtofour ip with
        | some a => exact isPublicWithin_v4 is depth a
        | none => rfl

/-! ### The address forms -/

/-- The IPv6 addresses that carry the IPv4 address `a`. -/
inductive Carries (a : BitVec 32) : BitVec 128 → Prop
  /-- `::a` -/
  | compatible : Carries a (0x0#96 ++ a)
  /-- `::ffff:a` -/
  | mapped : Carries a (0xffff#96 ++ a)
  /-- `::ffff:0:a` -/
  | translated : Carries a (0xffff0000#96 ++ a)
  /-- `64:ff9b::a` -/
  | nat64 : Carries a (0x0064ff9b0000000000000000#96 ++ a)
  /-- `2002:a::/48` -/
  | sixtofour (low : BitVec 80) : Carries a (0x2002#16 ++ a ++ low)

/-- The addresses of the networks that are refused as a whole. -/
inductive NeverPublic : IPAddress → Prop
  /-- `64:ff9b:1::/48` -/
  | nat64Local (low : BitVec 80) : NeverPublic (.v6 (0x0064ff9b0001#48 ++ low))
  /-- `fec0::/10` -/
  | siteLocal (low : BitVec 118) : NeverPublic (.v6 (0b1111111011#10 ++ low))
  /-- `5f00::/16` -/
  | segmentRouting (low : BitVec 112) : NeverPublic (.v6 (0x5f00#16 ++ low))
  /-- `192.88.99.0/24` -/
  | relayAnycast (low : BitVec 8) : NeverPublic (.v4 (0xc05863#24 ++ low))

theorem toNat_append_eq {l m : ℕ} (pre : BitVec l) (low : BitVec m) :
    (pre ++ low).toNat = pre.toNat * 2 ^ m + low.toNat := by
  rw [BitVec.toNat_append, Nat.shiftLeft_eq, Nat.mul_comm, ← Nat.two_pow_add_eq_or_of_lt low.isLt]

/-- **An address is in a network if it begins with its prefix.** -/
theorem inNetwork_iff {l m : ℕ} (pre : BitVec l) (ip : BitVec (l + m)) :
    inNetwork (pre ++ 0#m) l ip = true ↔ ∃ low : BitVec m, ip = pre ++ low := by
  have hpos : 0 < 2 ^ m := Nat.two_pow_pos m
  have hbase : (pre ++ 0#m).toNat / 2 ^ m = pre.toNat := by
    rw [toNat_append_eq, BitVec.toNat_ofNat, Nat.zero_mod, Nat.add_zero, Nat.mul_div_cancel _ hpos]
  have hshift : inNetwork (pre ++ 0#m) l ip = true ↔ ip.toNat / 2 ^ m = pre.toNat := by
    rw [inNetwork, beq_iff_eq, Nat.add_sub_cancel_left, ← BitVec.toNat_inj, BitVec.toNat_ushiftRight,
      BitVec.toNat_ushiftRight, Nat.shiftRight_eq_div_pow, Nat.shiftRight_eq_div_pow, hbase]
  rw [hshift]
  constructor
  · intro h
    -- what follows the prefix
    refine ⟨BitVec.ofNat m ip.toNat, ?_⟩
    apply BitVec.eq_of_toNat_eq
    rw [toNat_append_eq, BitVec.toNat_ofNat, ← h, Nat.mul_comm]
    exact (Nat.div_add_mod ip.toNat (2 ^ m)).symm
  · rintro ⟨low, rfl⟩
    rw [toNat_append_eq, Nat.mul_comm, Nat.mul_add_div hpos, Nat.div_eq_of_lt low.isLt, Nat.add_zero]

/-- The networks of `_NEVER_PUBLIC_V6`. -/
theorem neverPublicV6_iff (ip : BitVec 128) :
    (neverPublicV6.any fun net => inNetwork net.1 net.2 ip) = true ↔ NeverPublic (.v6 ip) := by
  have hnat64 := inNetwork_iff (m := 80) 0x0064ff9b0001#48 ip
  have hsite := inNetwork_iff (m := 118) 0b1111111011#10 ip
  have hsegment := inNetwork_iff (m := 112) 0x5f00#16 ip
  have hany : (neverPublicV6.any fun net => inNetwork net.1 net.2 ip) = true ↔
      inNetwork (0x0064ff9b0001#48 ++ 0#80) 48 ip = true ∨
        inNetwork (0b1111111011#10 ++ 0#118) 10 ip = true ∨
          inNetwork (0x5f00#16 ++ 0#112) 16 ip = true := by
    simp [neverPublicV6]
  rw [hany, hnat64, hsite, hsegment]
  constructor
  · rintro (⟨low, rfl⟩ | ⟨low, rfl⟩ | ⟨low, rfl⟩)
    · exact .nat64Local low
    · exact .siteLocal low
    · exact .segmentRouting low
  · intro h
    cases h with
    | nat64Local low => exact .inl ⟨low, rfl⟩
    | siteLocal low => exact .inr (.inl ⟨low, rfl⟩)
    | segmentRouting low => exact .inr (.inr ⟨low, rfl⟩)

/-- The network of `_NEVER_PUBLIC_V4`. -/
theorem neverPublicV4_iff (ip : BitVec 32) :
    (neverPublicV4.any fun net => inNetwork net.1 net.2 ip) = true ↔ NeverPublic (.v4 ip) := by
  have hrelay := inNetwork_iff (m := 8) 0xc05863#24 ip
  have hany : (neverPublicV4.any fun net => inNetwork net.1 net.2 ip) = true ↔
      inNetwork (0xc05863#24 ++ 0#8) 24 ip = true := by
    simp [neverPublicV4]
  rw [hany, hrelay]
  constructor
  · rintro ⟨low, rfl⟩
    exact .relayAnycast low
  · intro h
    cases h with
    | relayAnycast low => exact ⟨low, rfl⟩

/-- The last 32 bits of the networks of `_EMBEDS_IPV4` are the address they carry. -/
theorem embedsIpv4_iff (ip : BitVec 128) :
    (embedsIpv4.any fun net => inNetwork net.1 net.2 ip) = true ↔
      ∃ a : BitVec 32, ip = 0x0#96 ++ a ∨ ip = 0xffff#96 ++ a ∨ ip = 0xffff0000#96 ++ a ∨
        ip = 0x0064ff9b0000000000000000#96 ++ a := by
  have hcompatible := inNetwork_iff (m := 32) 0x0#96 ip
  have hmapped := inNetwork_iff (m := 32) 0xffff#96 ip
  have htranslated := inNetwork_iff (m := 32) 0xffff0000#96 ip
  have hnat64 := inNetwork_iff (m := 32) 0x0064ff9b0000000000000000#96 ip
  have hany : (embedsIpv4.any fun net => inNetwork net.1 net.2 ip) = true ↔
      inNetwork (0x0#96 ++ 0#32) 96 ip = true ∨ inNetwork (0xffff#96 ++ 0#32) 96 ip = true ∨
        inNetwork (0xffff0000#96 ++ 0#32) 96 ip = true ∨
          inNetwork (0x0064ff9b0000000000000000#96 ++ 0#32) 96 ip = true := by
    simp [embedsIpv4]
  rw [hany, hcompatible, hmapped, htranslated, hnat64, ← exists_or, ← exists_or, ← exists_or]

/-- `sixtofour` reads the address behind `2002:`. -/
theorem sixtofour_eq_some {ip : BitVec 128} {a : BitVec 32} :
    sixtofour ip = some a ↔ ∃ low : BitVec 80, ip = 0x2002#16 ++ a ++ low := by
  have hprefix : (ip >>> 112 == 0x2002) = true ↔ ip.toNat / 2 ^ 112 = 0x2002 := by
    rw [beq_iff_eq, ← BitVec.toNat_inj, BitVec.toNat_ushiftRight, Nat.shiftRight_eq_div_pow]
    rfl
  have hread : ((ip >>> 80).truncate 32).toNat = ip.toNat / 2 ^ 80 % 2 ^ 32 := by
    rw [BitVec.toNat_setWidth, BitVec.toNat_ushiftRight, Nat.shiftRight_eq_div_pow]
  rw [sixtofour, Option.ite_none_right_eq_some, Option.some_inj, hprefix, ← BitVec.toNat_inj, hread]
  have hlt := ip.isLt
  constructor
  · rintro ⟨hp, ha⟩
    refine ⟨BitVec.ofNat 80 ip.toNat, BitVec.eq_of_toNat_eq ?_⟩
    rw [toNat_append_eq, toNat_append_eq, BitVec.toNat_ofNat, BitVec.toNat_ofNat, ← ha]
    omega
  · rintro ⟨low, rfl⟩
    have hlow := low.isLt
    have ha := a.isLt
    rw [toNat_append_eq, toNat_append_eq, BitVec.toNat_ofNat]
    omega

/-- No network that is refused as a whole has an address that carries one. -/
theorem Carries.not_neverPublic {a : BitVec 32} {ip : BitVec 128} (h : Carries a ip) :
    ¬ NeverPublic (.v6 ip) := by
  have ha := a.isLt
  -- each pair of forms differs in the leading bits
  intro hn
  have hvalue : ∃ low : ℕ, low < 2 ^ 80 ∧ ip.toNat = 0x0064ff9b0001 * 2 ^ 80 + low ∨
      low < 2 ^ 118 ∧ ip.toNat = 0b1111111011 * 2 ^ 118 + low ∨
      low < 2 ^ 112 ∧ ip.toNat = 0x5f00 * 2 ^ 112 + low := by
    cases hn with
    | nat64Local low => exact ⟨low.toNat, .inl ⟨low.isLt, toNat_append_eq _ _⟩⟩
    | siteLocal low => exact ⟨low.toNat, .inr (.inl ⟨low.isLt, toNat_append_eq _ _⟩)⟩
    | segmentRouting low => exact ⟨low.toNat, .inr (.inr ⟨low.isLt, toNat_append_eq _ _⟩)⟩
  obtain ⟨low, hvalue⟩ := hvalue
  cases h with
  | compatible | mapped | translated | nat64 =>
    rw [toNat_append_eq, BitVec.toNat_ofNat] at hvalue
    omega
  | sixtofour rest =>
    have hrest := rest.isLt
    rw [toNat_append_eq, toNat_append_eq, BitVec.toNat_ofNat] at hvalue
    omega

/-- `2002:` is none of the networks of `_EMBEDS_IPV4`. -/
theorem embedsIpv4_sixtofour (a : BitVec 32) (low : BitVec 80) :
    (embedsIpv4.any fun net => inNetwork net.1 net.2 (0x2002#16 ++ a ++ low)) = false := by
  rw [← Bool.not_eq_true, embedsIpv4_iff]
  rintro ⟨b, h⟩
  have hb := b.isLt
  have hlow := low.isLt
  have ha := a.isLt
  simp only [← BitVec.toNat_inj, toNat_append_eq, BitVec.toNat_ofNat] at h
  omega

/-! ### What `_is_public` answers -/

variable {is : AddressPredicates}

theorem isPublic_of_neverPublic {ip : IPAddress} (h : NeverPublic ip) : isPublic is ip = false := by
  cases ip with
  | v4 ip => rw [isPublic, isPublicV4, if_pos ((neverPublicV4_iff ip).mpr h)]
  | v6 ip => rw [isPublic, if_pos ((neverPublicV6_iff ip).mpr h)]

/-- The last 32 bits of an address are read back. -/
theorem truncate_append {l : ℕ} (pre : BitVec l) (a : BitVec 32) :
    (pre ++ a).truncate 32 = a := by
  apply BitVec.eq_of_toNat_eq
  have ha := a.isLt
  rw [BitVec.toNat_setWidth, toNat_append_eq]
  omega

theorem isPublic_of_carries {a : BitVec 32} {ip : BitVec 128} (h : Carries a ip) :
    isPublic is (.v6 ip) = isPublic is (.v4 a) := by
  rw [show isPublic is (.v4 a) = isPublicV4 is a from rfl, isPublic,
    if_neg fun hn => h.not_neverPublic ((neverPublicV6_iff ip).mp hn)]
  cases h with
  | compatible =>
    rw [if_pos ((embedsIpv4_iff _).mpr ⟨a, .inl rfl⟩), truncate_append]
  | mapped =>
    rw [if_pos ((embedsIpv4_iff _).mpr ⟨a, .inr (.inl rfl)⟩), truncate_append]
  | translated =>
    rw [if_pos ((embedsIpv4_iff _).mpr ⟨a, .inr (.inr (.inl rfl))⟩), truncate_append]
  | nat64 =>
    rw [if_pos ((embedsIpv4_iff _).mpr ⟨a, .inr (.inr (.inr rfl))⟩), truncate_append]
  | sixtofour low =>
    have hread : sixtofour (0x2002#16 ++ a ++ low) = some a := sixtofour_eq_some.mpr ⟨low, rfl⟩
    rw [embedsIpv4_sixtofour, if_neg Bool.false_ne_true, hread]

theorem isPublic_of_other {ip : IPAddress} (hnever : ¬ NeverPublic ip)
    (hcarries : ∀ a v, ip = .v6 v → ¬ Carries a v) :
    isPublic is ip = (is.isGlobal ip && !is.isMulticast ip) := by
  cases ip with
  | v4 ip => rw [isPublic, isPublicV4, if_neg fun h => hnever ((neverPublicV4_iff ip).mp h)]
  | v6 ip =>
    have hembeds : ¬ (embedsIpv4.any fun net => inNetwork net.1 net.2 ip) = true := by
      intro h
      obtain ⟨a, h⟩ := (embedsIpv4_iff ip).mp h
      rcases h with rfl | rfl | rfl | rfl
      · exact hcarries a _ rfl .compatible
      · exact hcarries a _ rfl .mapped
      · exact hcarries a _ rfl .translated
      · exact hcarries a _ rfl .nat64
    have hsix : sixtofour ip = none := by
      cases hs : sixtofour ip with
      | none => rfl
      | some a =>
        obtain ⟨low, rfl⟩ := sixtofour_eq_some.mp hs
        exact absurd (.sixtofour low) (hcarries a _ rfl)
    rw [isPublic, if_neg fun h => hnever ((neverPublicV6_iff ip).mp h), if_neg hembeds, hsix]

variable (is) in
/-- **The embedded IPv4 address decides**: an IPv6 address that carries one is public
if that one is; the networks that are refused as a whole are not; any other address is
public if it is global and not multicast; and `_is_public` calls itself at most once. -/
theorem embedded_ipv4_decides :
    (∀ a ip, Carries a ip → isPublic is (.v6 ip) = isPublic is (.v4 a)) ∧
      (∀ ip, NeverPublic ip → isPublic is ip = false) ∧
      (∀ ip, ¬ NeverPublic ip → (∀ a v, ip = .v6 v → ¬ Carries a v) →
        isPublic is ip = (is.isGlobal ip && !is.isMulticast ip)) ∧
      ∀ depth ip, 1 ≤ depth → isPublicWithin is depth ip = some (isPublic is ip) := by
  refine ⟨fun a ip h => isPublic_of_carries h, fun ip h => isPublic_of_neverPublic h,
    fun ip hn hc => isPublic_of_other hn hc, fun depth ip hdepth => ?_⟩
  obtain ⟨n, rfl⟩ := Nat.exists_eq_add_of_le' hdepth
  exact isPublicWithin_succ is n ip

/-- The 6to4 address of a relay is not public, although 6to4 addresses are global. -/
theorem embedded_ipv4_decides_relay :
    isPublic ⟨fun _ => true, fun _ => false⟩
      (.v6 (0x2002#16 ++ 0xc0586301#32 ++ 0x1#80)) = false := by
  obtain ⟨hcarries, hnever, -, -⟩ := embedded_ipv4_decides ⟨fun _ => true, fun _ => false⟩
  rw [hcarries _ _ (.sixtofour 0x1#80)]
  exact hnever _ (.relayAnycast 0x1#8)

end SafeHttp
