import Scamper.Bits.Bytes

/-!
The constant mask tables of `scamper_addr.c`, and what their entries are bit by bit.

The tables are transcribed as they stand in the source. `tableAt` reads one at a C `int`
index and returns `none` for an index outside the table: such a read is undefined
behaviour in C, and every function that reads a table carries that `none` out.
`netBit_beBytes_prefixMask` is the one fact the prefix proofs use: a netmask entry, sent
in network order, has exactly its first `len` bits set.
-/

namespace Scamper

/-- `uint32_netmask`: entry `i` has the top `i + 1` of 32 bits set. -/
def uint32Netmask : List Nat :=
  [0x80000000, 0xc0000000, 0xe0000000, 0xf0000000,
   0xf8000000, 0xfc000000, 0xfe000000, 0xff000000,
   0xff800000, 0xffc00000, 0xffe00000, 0xfff00000,
   0xfff80000, 0xfffc0000, 0xfffe0000, 0xffff0000,
   0xffff8000, 0xffffc000, 0xffffe000, 0xfffff000,
   0xfffff800, 0xfffffc00, 0xfffffe00, 0xffffff00,
   0xffffff80, 0xffffffc0, 0xffffffe0, 0xfffffff0,
   0xfffffff8, 0xfffffffc, 0xfffffffe, 0xffffffff]

/-- `uint32_hostmask`: entry `i` has the low `32 - i` bits set. -/
def uint32Hostmask : List Nat :=
  [0xffffffff, 0x7fffffff, 0x3fffffff, 0x1fffffff,
   0x0fffffff, 0x07ffffff, 0x03ffffff, 0x01ffffff,
   0x00ffffff, 0x007fffff, 0x003fffff, 0x001fffff,
   0x000fffff, 0x0007ffff, 0x0003ffff, 0x0001ffff,
   0x0000ffff, 0x00007fff, 0x00003fff, 0x00001fff,
   0x00000fff, 0x000007ff, 0x000003ff, 0x000001ff,
   0x000000ff, 0x0000007f, 0x0000003f, 0x0000001f,
   0x0000000f, 0x00000007, 0x00000003, 0x00000001]

/-- `uint16_mask` of the `_WIN32` build: entry `i` has the top `i + 1` of 16 bits set. -/
def uint16Mask : List Nat :=
  [0x8000, 0xc000, 0xe000, 0xf000,
   0xf800, 0xfc00, 0xfe00, 0xff00,
   0xff80, 0xffc0, 0xffe0, 0xfff0,
   0xfff8, 0xfffc, 0xfffe, 0xffff]

/-- `table[i]` for a C `int` index; `none` is a read outside the table. -/
def tableAt (table : List Nat) (i : Int) : Option Nat :=
  if 0 ≤ i then table[i.toNat]? else none

/-- The `w`-bit mask with its top `len` bits set. -/
def prefixMask (w len : Nat) : Nat := 2 ^ w - 2 ^ (w - len)

@[simp] theorem tableAt_natCast (table : List Nat) (k : Nat) : tableAt table k = table[k]? := by
  rw [tableAt, if_pos (Int.ofNat_nonneg k), Int.toNat_ofNat]

theorem tableAt_of_neg (table : List Nat) {i : Int} (h : i < 0) : tableAt table i = none := by
  rw [tableAt, if_neg (by omega)]

theorem uint32Netmask_getElem? {k : Nat} (hk : k < 32) :
    uint32Netmask[k]? = some (prefixMask 32 (k + 1)) := by
  revert k; decide

theorem uint16Mask_getElem? {k : Nat} (hk : k < 16) :
    uint16Mask[k]? = some (prefixMask 16 (k + 1)) := by
  revert k; decide

theorem uint32Hostmask_getElem? {k : Nat} (hk : k < 32) :
    uint32Hostmask[k]? = some (2 ^ (32 - k) - 1) := by
  revert k; decide

/-- Entry `len - 1` of a mask table whose entry `k` is the mask of `k + 1` bits: the mask of
`len` bits, for a length from 1 to the width. -/
theorem tableAt_sub_one {table : List Nat} {w len : Nat}
    (htable : ∀ {k}, k < w → table[k]? = some (prefixMask w (k + 1))) (h1 : 1 ≤ len)
    (hw : len ≤ w) : tableAt table ((len : Int) - 1) = some (prefixMask w len) := by
  rw [show (len : Int) - 1 = ((len - 1 : Nat) : Int) by omega, tableAt_natCast,
    htable (by omega), Nat.sub_add_cancel h1]

theorem testBit_prefixMask {w len j : Nat} (h : len ≤ w) :
    (prefixMask w len).testBit j = decide (w - len ≤ j ∧ j < w) := by
  have hsplit : prefixMask w len = 2 ^ (w - len) * (2 ^ len - 1) := by
    rw [prefixMask, Nat.mul_sub_one, ← Nat.pow_add, Nat.sub_add_cancel h]
  rw [hsplit, Nat.testBit_mul_pow_two, Nat.testBit_two_pow_sub_one, ← Bool.decide_and]
  exact decide_eq_decide.mpr (by omega)

/-- A netmask entry, in network order, has exactly its first `len` bits set. -/
theorem netBit_beBytes_prefixMask {n len i : Nat} (hlen : len ≤ 8 * n) (hi : i < 8 * n) :
    netBit (beBytes n (prefixMask (8 * n) len)) i = decide (i < len) := by
  rw [netBit_beBytes hi, testBit_prefixMask hlen]
  exact decide_eq_decide.mpr (by omega)

theorem prefixMask_self (w : Nat) : prefixMask w w = 2 ^ w - 1 := by
  simp [prefixMask]

/-- **One word of a prefix test.** Two `n`-byte words compared under the netmask of `len`
bits, sent in network order, are compared on their first `len` bits; on either host. -/
theorem HostOrder.load_xor_land_prefixMask_eq_zero_iff (ho : HostOrder) {n len : Nat}
    {w v : List UInt8} (hw : w.length = n) (hv : v.length = n) (hlen : len ≤ 8 * n) :
    (ho.load w ^^^ ho.load v) &&& ho.load (beBytes n (prefixMask (8 * n) len)) = 0 ↔
      prefixAgree len w v := by
  rw [ho.load_xor_land_eq_zero_iff hw hv (length_beBytes n _)]
  constructor
  · intro h i hi
    exact h i (by omega) (by rw [netBit_beBytes_prefixMask hlen (by omega)]; simpa using hi)
  · intro h i hi hm
    rw [netBit_beBytes_prefixMask hlen hi] at hm
    exact h i (by simpa using hm)

/-- The 32-bit case: two words compared under `htonl` of a netmask. -/
theorem HostOrder.load_xor_land_htonl_eq_zero_iff (ho : HostOrder) {len : Nat}
    {w v : List UInt8} (hw : w.length = 4) (hv : v.length = 4) (hlen : len ≤ 32) :
    (ho.load w ^^^ ho.load v) &&& htonl ho (prefixMask 32 len) = 0 ↔ prefixAgree len w v :=
  ho.load_xor_land_prefixMask_eq_zero_iff hw hv hlen

end Scamper
