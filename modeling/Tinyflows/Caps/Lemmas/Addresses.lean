import Tinyflows.Caps.Http

/-!
# The addresses the client refuses

The tests on octets and segments pick out exactly the restricted blocks.
-/

namespace Tinyflows.Caps
open Lib AddressBlock List

theorem shared_mask (b : UInt8) : b &&& 0xC0 = 0x40 ↔ b.toNat / 64 = 1 := by
  have hb := b.toNat_lt
  have hm : b.toNat &&& 192 = b.toNat / 64 % 4 * 64 := and_shifted_mask b.toNat 2 6
  rw [← UInt8.toNat_inj, UInt8.toNat_and]
  change b.toNat &&& 192 = 64 ↔ _
  omega

theorem linkLocal_mask (s : UInt16) : s &&& 0xffc0 = 0xfe80 ↔ s.toNat / 64 = 0xfe80 / 64 := by
  have hs := s.toNat_lt
  have hm : s.toNat &&& 0xffc0 = s.toNat / 64 % 1024 * 64 := and_shifted_mask s.toNat 10 6
  rw [← UInt16.toNat_inj, UInt16.toNat_and]
  change s.toNat &&& 0xffc0 = 0xfe80 ↔ _
  omega

theorem uniqueLocal_mask (s : UInt16) : s &&& 0xfe00 = 0xfc00 ↔ s.toNat / 512 = 0xfc00 / 512 := by
  have hs := s.toNat_lt
  have hm : s.toNat &&& 0xfe00 = s.toNat / 512 % 128 * 512 := and_shifted_mask s.toNat 7 9
  rw [← UInt16.toNat_inj, UInt16.toNat_and]
  change s.toNat &&& 0xfe00 = 0xfc00 ↔ _
  omega

theorem contains_ipv4_iff {a b len} (h8 : 8 ≤ len) (h16 : len ≤ 16) (x : Ipv4Addr) :
    Contains (.ipv4 a b 0 0 len) x.toNat ↔
      (x.a.toNat * 256 + x.b.toNat) / 2 ^ (16 - len) = (a.toNat * 256 + b.toNat) / 2 ^ (16 - len) := by
  have hc := x.c.toNat_lt
  have hd := x.d.toNat_lt
  have hi : x.toNat / 2 ^ 16 = x.a.toNat * 256 + x.b.toNat := by
    unfold Ipv4Addr.toNat
    omega
  have hb : (Ipv4Addr.mk a b 0 0).toNat / 2 ^ 16 = a.toNat * 256 + b.toNat := by
    simp only [Ipv4Addr.toNat, UInt8.reduceToNat]
    omega
  have hf : 32 - len = 16 + (16 - len) := by omega
  simp only [Contains, ipv4, hf, Nat.pow_add, ← Nat.div_div_eq_div_mul, hi, hb]

theorem isPrivateV4_iff (x : Ipv4Addr) : isPrivateV4 x = true ↔ RestrictedV4 x := by
  have ha := x.a.toNat_lt
  have hb := x.b.toNat_lt
  have hn : x = ⟨0, 0, 0, 0⟩ ↔ Contains (.ipv4 0 0 0 0 32) x.toNat := by
    simp only [← Ipv4Addr.toNat_inj, Contains, ipv4, Nat.sub_self, Nat.pow_zero, Nat.div_one]
  simp only [isPrivateV4, Ipv4Addr.isLoopback, Ipv4Addr.isPrivate, Ipv4Addr.isLinkLocal,
    Ipv4Addr.isUnspecified, Bool.or_eq_true, Bool.and_eq_true, decide_eq_true_eq, shared_mask, hn,
    RestrictedV4, restrictedIpv4, mem_cons, not_mem_nil, exists_eq_or_imp, or_false,
    exists_eq_left]
  generalize Contains (.ipv4 0 0 0 0 32) x.toNat = unspecified
  have hl := fun a b len h8 h16 => @contains_ipv4_iff a b len h8 h16 x
  rw [hl 127 0 8 (by omega) (by omega), hl 169 254 16 (by omega) (by omega),
    hl 10 0 8 (by omega) (by omega), hl 172 16 12 (by omega) (by omega),
    hl 192 168 16 (by omega) (by omega), hl 100 64 10 (by omega) (by omega)]
  simp only [← UInt8.toNat_inj, UInt8.le_iff_toNat_le, UInt8.reduceToNat]
  by_cases hu : unspecified
  · simp [hu]
  · simp only [hu, or_false, false_or]
    omega

theorem toNat_div (x : Ipv6Addr) (k) : x.toNat / 2 ^ (112 + k) = x.s0.toNat / 2 ^ k := by
  have hl := x.low_lt
  have := x.s1.toNat_lt
  have := x.s2.toNat_lt
  have := x.s3.toNat_lt
  have := x.s4.toNat_lt
  have := x.s5.toNat_lt
  have h : x.toNat / 2 ^ 112 = x.s0.toNat := by
    unfold Ipv6Addr.toNat
    omega
  rw [Nat.pow_add, ← Nat.div_div_eq_div_mul, h]

theorem isPrivateV6_iff (x : Ipv6Addr) :
    (x.isLoopback || x.isUnspecified || x.s0 &&& 0xffc0 = 0xfe80 || x.s0 &&& 0xfe00 = 0xfc00) = true ↔
      ∃ bl ∈ restrictedIpv6, bl.Contains x.toNat := by
  have hl : x = ⟨0, 0, 0, 0, 0, 0, 0, 1⟩ ↔ x.toNat = 1 := Ipv6Addr.toNat_inj.symm
  have hn : x = ⟨0, 0, 0, 0, 0, 0, 0, 0⟩ ↔ x.toNat = 0 := Ipv6Addr.toNat_inj.symm
  have hi : Contains (.ipv6 0xfe80 10) x.toNat ↔ x.s0.toNat / 64 = 0xfe80 / 64 := by
    unfold Contains
    rw [show free (.ipv6 0xfe80 10) = 112 + 6 from rfl, toNat_div]
    exact Iff.rfl
  have hu : Contains (.ipv6 0xfc00 7) x.toNat ↔ x.s0.toNat / 512 = 0xfc00 / 512 := by
    unfold Contains
    rw [show free (.ipv6 0xfc00 7) = 112 + 9 from rfl, toNat_div]
    exact Iff.rfl
  simp only [Ipv6Addr.isLoopback, Ipv6Addr.isUnspecified, Bool.or_eq_true, decide_eq_true_eq,
    linkLocal_mask, uniqueLocal_mask, hl, hn, restrictedIpv6, mem_cons, not_mem_nil,
    exists_eq_or_imp, or_false, exists_eq_left, hi, hu]
  simp only [Contains, Nat.pow_zero, Nat.div_one]
  omega

theorem not_restricted_of_mapped {x y} (h : Embedding.mapped.Embeds x y) :
    ¬ ∃ bl ∈ restrictedIpv6, bl.Contains x.toNat := by
  have hy := y.toNat_lt
  have hx : x.toNat = 0xffff * 2 ^ 32 + y.toNat := h
  simp only [restrictedIpv6, mem_cons, not_mem_nil, exists_eq_or_imp, or_false,
    exists_eq_left, Contains, ipv6, UInt16.reduceToNat, hx]
  omega

theorem isPrivateAddr_iff (addr : IpAddr) : isPrivateAddr addr = true ↔ Restricted [.mapped] addr := by
  cases addr with
  | v4 x => exact isPrivateV4_iff x
  | v6 x =>
    simp only [isPrivateAddr, Restricted, mem_singleton, exists_eq_left]
    cases hm : x.toIpv4Mapped with
    | some y =>
      have hy := Ipv6Addr.toIpv4Mapped_eq_some_iff.mp hm
      simp only [isPrivateV4_iff, not_restricted_of_mapped hy, false_or]
      refine ⟨fun h => ⟨y, hy, h⟩, ?_⟩
      rintro ⟨z, hz, hr⟩
      rw [← Ipv6Addr.toIpv4Mapped_eq_some_iff, hm] at hz
      rwa [Option.some.inj hz]
    | none =>
      simp only [isPrivateV6_iff, iff_self_or]
      rintro ⟨z, hz, -⟩
      rw [← Ipv6Addr.toIpv4Mapped_eq_some_iff, hm] at hz
      cases hz

end Tinyflows.Caps
