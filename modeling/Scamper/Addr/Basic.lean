import Scamper.Bits.Masks

/-!
The address value of `scamper_addr.c`: the four address types with their discriminants and
sizes (the `type` and `size` columns of `handlers`), a `scamper_addr_t`'s value as a
structure that cannot hold the wrong number of bytes, and the two builds of the IPv6 word
loops.
-/

namespace Scamper

/-- A pointer into the C heap. -/
abbrev Ptr := Nat

/-- The four address types, in the order of `handlers`. -/
inductive AddrType where
  | ipv4
  | ipv6
  | ethernet
  | firewire
deriving DecidableEq, Repr

namespace AddrType

/-- Modelled from the spec: the discriminants `SCAMPER_ADDR_TYPE_*` of `scamper_addr.h`,
1 to 4 for IPv4, IPv6, Ethernet and FireWire. `handlers[type-1]` is the entry of `type`. -/
def toNat : AddrType → Nat
  | ipv4 => 1
  | ipv6 => 2
  | ethernet => 3
  | firewire => 4

/-- `handlers[type-1].size`: the number of bytes at `addr`. -/
def size : AddrType → Nat
  | ipv4 => 4
  | ipv6 => 16
  | ethernet => 6
  | firewire => 8

theorem toNat_injective : Function.Injective toNat := by
  intro a b h; cases a <;> cases b <;> first | rfl | cases h

theorem toNat_mem (t : AddrType) : 1 ≤ t.toNat ∧ t.toNat ≤ 4 := by
  cases t <;> decide

end AddrType

/-- The value of a `scamper_addr_t`: its `type` and the `handlers[type-1].size` bytes at
`addr`. Bookkeeping fields live with the heap object (`Scamper.Cache.AddrObj`). -/
@[ext]
structure ScamperAddr where
  type : AddrType
  addr : List UInt8
  addr_length : addr.length = type.size
deriving DecidableEq

/-- Which branch of the `#ifndef _WIN32` word loops of `ipv6_cmp`, `ipv6_human_cmp` and
`ipv6_inprefix` is compiled: 32-bit `s6_addr32` words, or 16-bit `u.Word` words. -/
inductive Build where
  | posix
  | win32
deriving DecidableEq, Repr

namespace Build

/-- Bytes in one word of the loop. -/
def wordBytes : Build → Nat
  | posix => 4
  | win32 => 2

/-- Words in an `in6_addr`. -/
def wordCount : Build → Nat
  | posix => 4
  | win32 => 8

/-- The mask table of the loop: `uint32_netmask`, or `uint16_mask`. -/
def maskTable : Build → List Nat
  | posix => uint32Netmask
  | win32 => uint16Mask

theorem wordBytes_mul_wordCount (b : Build) : b.wordBytes * b.wordCount = 16 := by
  cases b <;> rfl

theorem wordBytes_pos (b : Build) : 0 < b.wordBytes := by
  cases b <;> decide

theorem maskTable_getElem? (b : Build) {k : Nat} (hk : k < 8 * b.wordBytes) :
    b.maskTable[k]? = some (prefixMask (8 * b.wordBytes) (k + 1)) := by
  cases b
  · exact uint32Netmask_getElem? hk
  · exact uint16Mask_getElem? hk

end Build

end Scamper
