import Mathlib.Data.Nat.Bitwise

/-!
# Internet addresses

Addresses as octets or segments, and the same addresses as numbers, which is how blocks of addresses
are given.
-/

namespace Tinyflows.Lib
open Nat

structure Ipv4Addr where
  a : UInt8
  b : UInt8
  c : UInt8
  d : UInt8
  deriving DecidableEq

structure Ipv6Addr where
  s0 : UInt16
  s1 : UInt16
  s2 : UInt16
  s3 : UInt16
  s4 : UInt16
  s5 : UInt16
  s6 : UInt16
  s7 : UInt16
  deriving DecidableEq

inductive IpAddr where
  | v4 (addr : Ipv4Addr)
  | v6 (addr : Ipv6Addr)
  deriving DecidableEq

namespace Ipv4Addr

def toNat (x : Ipv4Addr) : Nat :=
  ((x.a.toNat * 256 + x.b.toNat) * 256 + x.c.toNat) * 256 + x.d.toNat

def isLoopback (x : Ipv4Addr) : Bool :=
  x.a = 127

def isPrivate (x : Ipv4Addr) : Bool :=
  x.a = 10 || (x.a = 172 && 16 ≤ x.b && x.b ≤ 31) || (x.a = 192 && x.b = 168)

def isLinkLocal (x : Ipv4Addr) : Bool :=
  x.a = 169 && x.b = 254

def isUnspecified (x : Ipv4Addr) : Bool :=
  x = ⟨0, 0, 0, 0⟩

end Ipv4Addr

namespace Ipv6Addr

def low (x : Ipv6Addr) : Nat :=
  x.s6.toNat * 65536 + x.s7.toNat

def toNat (x : Ipv6Addr) : Nat :=
  (((((x.s0.toNat * 65536 + x.s1.toNat) * 65536 + x.s2.toNat) * 65536 + x.s3.toNat) * 65536 +
    x.s4.toNat) * 65536 + x.s5.toNat) * 2 ^ 32 + x.low

def isLoopback (x : Ipv6Addr) : Bool :=
  x = ⟨0, 0, 0, 0, 0, 0, 0, 1⟩

def isUnspecified (x : Ipv6Addr) : Bool :=
  x = ⟨0, 0, 0, 0, 0, 0, 0, 0⟩

def lowIpv4 (x : Ipv6Addr) : Ipv4Addr where
  a := (x.s6 >>> 8).toUInt8
  b := x.s6.toUInt8
  c := (x.s7 >>> 8).toUInt8
  d := x.s7.toUInt8

def toIpv4Mapped (x : Ipv6Addr) : Option Ipv4Addr :=
  if x.s0 = 0 ∧ x.s1 = 0 ∧ x.s2 = 0 ∧ x.s3 = 0 ∧ x.s4 = 0 ∧ x.s5 = 0xffff then some x.lowIpv4 else none

end Ipv6Addr

/-- The addresses that agree with `base` up to the last `free` bits. -/
structure AddressBlock where
  base : Nat
  free : Nat

def AddressBlock.Contains (block : AddressBlock) (n : Nat) : Prop :=
  n / 2 ^ block.free = block.base / 2 ^ block.free

def AddressBlock.ipv4 (a b c d : UInt8) (len : Nat) : AddressBlock where
  base := (Ipv4Addr.mk a b c d).toNat
  free := 32 - len

def AddressBlock.ipv6 (s : UInt16) (len : Nat) : AddressBlock where
  base := s.toNat * 2 ^ 112
  free := 128 - len

inductive Embedding where
  | mapped
  | compatible
  | nat64
  deriving DecidableEq

def Embedding.high : Embedding → Nat
  | .mapped => 0xffff
  | .compatible => 0
  | .nat64 => 0x64ff9b * 2 ^ 64

def Embedding.Embeds (e : Embedding) (x : Ipv6Addr) (y : Ipv4Addr) : Prop :=
  x.toNat = e.high * 2 ^ 32 + y.toNat

/-! ## Segments and numbers -/

theorem and_shifted_mask (x m k) : x &&& ((2 ^ m - 1) <<< k) = (x / 2 ^ k % 2 ^ m) * 2 ^ k := by
  rw [← and_two_pow_sub_one_eq_mod, ← shiftRight_eq_div_pow, ← shiftLeft_eq]
  refine eq_of_testBit_eq fun i => ?_
  simp only [testBit_and, testBit_shiftLeft, testBit_shiftRight]
  by_cases hi : k ≤ i
  · simp [hi]
  · simp [hi]

theorem Ipv4Addr.toNat_lt (x : Ipv4Addr) : x.toNat < 2 ^ 32 := by
  have := x.a.toNat_lt
  have := x.b.toNat_lt
  have := x.c.toNat_lt
  have := x.d.toNat_lt
  unfold toNat
  omega

theorem Ipv4Addr.toNat_inj {x y : Ipv4Addr} : x.toNat = y.toNat ↔ x = y := by
  refine ⟨fun h => ?_, fun h => h ▸ rfl⟩
  obtain ⟨a, b, c, d⟩ := x
  obtain ⟨a', b', c', d'⟩ := y
  have := a.toNat_lt
  have := b.toNat_lt
  have := c.toNat_lt
  have := d.toNat_lt
  have := a'.toNat_lt
  have := b'.toNat_lt
  have := c'.toNat_lt
  have := d'.toNat_lt
  simp only [toNat] at h
  simp only [mk.injEq, ← UInt8.toNat_inj]
  omega

namespace Ipv6Addr

theorem low_lt (x : Ipv6Addr) : x.low < 2 ^ 32 := by
  have := x.s6.toNat_lt
  have := x.s7.toNat_lt
  unfold low
  omega

theorem lowIpv4_toNat (x : Ipv6Addr) : x.lowIpv4.toNat = x.low := by
  have h6 := x.s6.toNat_lt
  have h7 := x.s7.toNat_lt
  have h8 : 2 ^ ((8 : UInt16).toNat % 16) = 256 := rfl
  simp only [Ipv4Addr.toNat, lowIpv4, low, UInt16.toNat_toUInt8, UInt16.toNat_shiftRight,
    shiftRight_eq_div_pow, h8]
  omega

theorem toNat_inj {x y : Ipv6Addr} : x.toNat = y.toNat ↔ x = y := by
  refine ⟨fun h => ?_, fun h => h ▸ rfl⟩
  obtain ⟨s0, s1, s2, s3, s4, s5, s6, s7⟩ := x
  obtain ⟨t0, t1, t2, t3, t4, t5, t6, t7⟩ := y
  have := s0.toNat_lt
  have := s1.toNat_lt
  have := s2.toNat_lt
  have := s3.toNat_lt
  have := s4.toNat_lt
  have := s5.toNat_lt
  have := s6.toNat_lt
  have := s7.toNat_lt
  have := t0.toNat_lt
  have := t1.toNat_lt
  have := t2.toNat_lt
  have := t3.toNat_lt
  have := t4.toNat_lt
  have := t5.toNat_lt
  have := t6.toNat_lt
  have := t7.toNat_lt
  simp only [toNat, low] at h
  simp only [mk.injEq, ← UInt16.toNat_inj]
  omega

theorem toIpv4Mapped_eq_some_iff {x : Ipv6Addr} {y} :
    x.toIpv4Mapped = some y ↔ Embedding.mapped.Embeds x y := by
  have hl := x.low_lt
  have hy := y.toNat_lt
  have := x.s0.toNat_lt
  have := x.s1.toNat_lt
  have := x.s2.toNat_lt
  have := x.s3.toNat_lt
  have := x.s4.toNat_lt
  have := x.s5.toNat_lt
  simp only [toIpv4Mapped, Option.ite_none_right_eq_some, Option.some.injEq, ← Ipv4Addr.toNat_inj,
    lowIpv4_toNat, Embedding.Embeds, Embedding.high, toNat, ← UInt16.toNat_inj, UInt16.reduceToNat]
  omega

end Ipv6Addr

end Tinyflows.Lib
