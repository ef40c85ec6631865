import Scamper.Addr.Classify

/-!
The human order of `scamper_addr.c`: `ipv4_human_cmp`, `ipv6_human_cmp` (either build) and
`scamper_addr_human_cmp`, whose column of `handlers` gives `ethernet_cmp` and `firewire_cmp`
for the link-layer types. `scamper_addr_human_cmp` is `scamper_addr_cmp` with the `human_cmp`
column in place of the `cmp` column: both are `scamperAddrCmpWith` of their column.

* `AddrType.sign_humanCmp`: on either host and in either build, each human comparator has
  the sign of the comparison of the two byte strings read as big-endian integers, which is
  their byte order, first byte first;
* `sign_addrHumanCmp`, `addrHumanCmp_isTotal`: on every host the human order is the order
  `scamper_addr_cmp` has on a big-endian host, so a strict total order on addresses;
* `scamperAddrHumanCmp_sign`: so `scamper_addr_human_cmp` orders two addresses by type, then
  by big-endian value, and on a big-endian host it has the sign of `scamper_addr_cmp`.
-/

namespace Scamper

/-! ### The human comparators -/

/-- `ipv4_human_cmp`: the two `s_addr` words through `ntohl`, compared as integers. -/
def ipv4HumanCmp (ho : HostOrder) (a b : List UInt8) : Int :=
  cmpNat (ntohl ho (ho.load a)) (ntohl ho (ho.load b))

/-- The byte swap of the word loop of `ipv6_human_cmp`: `ntohl`, or `ntohs` in the `_WIN32`
build. -/
def Build.ntoh (ho : HostOrder) : Build → Nat → Nat
  | .posix => ntohl ho
  | .win32 => ntohs ho

/-- `ipv6_human_cmp`: the `s6_addr32` words through `ntohl`, or the `u.Word` words through
`ntohs` in the `_WIN32` build, compared in order. -/
def ipv6HumanCmp (ho : HostOrder) (build : Build) (a b : List UInt8) : Int :=
  wordsCmp ((words build.wordBytes build.wordCount a).map fun w => build.ntoh ho (ho.load w))
    ((words build.wordBytes build.wordCount b).map fun w => build.ntoh ho (ho.load w))

/-- `handlers[t-1].human_cmp` past its two type assertions, on the bytes of the addresses:
the link-layer types reuse their `cmp`. -/
def AddrType.humanCmp (ho : HostOrder) (build : Build) :
    AddrType → List UInt8 → List UInt8 → Int
  | .ipv4 => ipv4HumanCmp ho
  | .ipv6 => ipv6HumanCmp ho build
  | .ethernet => ethernetCmp
  | .firewire => firewireCmp

/-! ### `scamper_addr_cmp` and `scamper_addr_human_cmp` -/

/-- `scamper_addr_cmp` or `scamper_addr_human_cmp` past its `a == b` test, with `col` the
column of `handlers` it calls: the handler of the common type, or the order of the two
types. -/
def addrCmpWith (col : AddrType → List UInt8 → List UInt8 → Int) (x y : ScamperAddr) : Int :=
  if x.type = y.type then col x.type x.addr y.addr
  else if x.type.toNat < y.type.toNat then -1 else 1

/-- `scamper_addr_cmp` or `scamper_addr_human_cmp` on two pointers into `heap`, with `col` the
column of `handlers` it calls. Both are read for the type assertions, then equal pointers
compare equal. `none` is a read of freed memory. -/
def scamperAddrCmpWith (col : AddrType → List UInt8 → List UInt8 → Int)
    (heap : Ptr → Option ScamperAddr) (a b : Ptr) : Option Int := do
  let x ← heap a
  let y ← heap b
  if a = b then pure 0 else pure (addrCmpWith col x y)

/-- `scamper_addr_human_cmp(a, b)`. -/
def scamperAddrHumanCmp (ho : HostOrder) (build : Build) (heap : Ptr → Option ScamperAddr)
    (a b : Ptr) : Option Int :=
  scamperAddrCmpWith (AddrType.humanCmp ho build) heap a b

/-- `scamper_addr_cmp` is the same function with the `cmp` column. -/
theorem scamperAddrCmp_eq_with (ho : HostOrder) (build : Build) :
    scamperAddrCmp ho build = scamperAddrCmpWith (AddrType.cmp ho build) ∧
      addrCmp ho build = addrCmpWith (AddrType.cmp ho build) :=
  ⟨rfl, rfl⟩

/-- A column whose handlers tie exactly equal bytes gives the order of types, then of the
handler, and its `a == b` short cut agrees with comparing the values. -/
theorem scamperAddrCmpWith_eq {col : AddrType → List UInt8 → List UInt8 → Int}
    (hcol : ∀ t x, x.length = t.size → col t x x = 0) {heap : Ptr → Option ScamperAddr}
    {a b : Ptr} {x y : ScamperAddr} (ha : heap a = some x) (hb : heap b = some y) :
    scamperAddrCmpWith col heap a b = some (addrCmpWith col x y) := by
  by_cases hab : a = b
  · subst hab
    obtain rfl : x = y := Option.some.inj (ha.symm.trans hb)
    simp [scamperAddrCmpWith, addrCmpWith, ha, hcol x.type x.addr x.addr_length]
  · simp [scamperAddrCmpWith, ha, hb, hab]

theorem sign_addrCmpWith (col : AddrType → List UInt8 → List UInt8 → Int) (x y : ScamperAddr) :
    (addrCmpWith col x y).sign =
      if x.type = y.type then (col x.type x.addr y.addr).sign
      else cmpNat x.type.toNat y.type.toNat := by
  unfold addrCmpWith
  split_ifs with h h'
  · rfl
  · simp [cmpNat, h']
  · have := AddrType.toNat_injective.ne h
    simp only [cmpNat]
    split_ifs <;> first | rfl | omega

/-! ### The human order is the big-endian order -/

theorem Build.ntoh_load (ho : HostOrder) (build : Build) {w : List UInt8}
    (hw : w.length = build.wordBytes) : build.ntoh ho (ho.load w) = beValue w := by
  cases build
  · exact ntohl_load ho hw
  · exact ntohs_load ho hw

/-- On either host and in either build, every human comparator orders byte strings of its
type by their bytes, first byte first: as big-endian integers. -/
theorem AddrType.sign_humanCmp (ho : HostOrder) (build : Build) (t : AddrType)
    {x y : List UInt8} (hx : x.length = t.size) (hy : y.length = t.size) :
    (t.humanCmp ho build x y).sign = wordsCmp (x.map UInt8.toNat) (y.map UInt8.toNat) := by
  have h16 := build.wordBytes_mul_wordCount
  have hwords : ∀ {z : List UInt8}, z.length = 16 →
      (words build.wordBytes build.wordCount z).map (fun w => build.ntoh ho (ho.load w)) =
        (words build.wordBytes build.wordCount z).map beValue := fun hz =>
    List.map_congr_left fun _ hw => build.ntoh_load ho (length_of_mem_words (hz.trans h16.symm) hw)
  cases t
  · rw [AddrType.humanCmp, ipv4HumanCmp, ntohl_load ho hx, ntohl_load ho hy, sign_cmpNat]
    exact cmpNat_beValue (hx.trans hy.symm)
  · rw [AddrType.humanCmp, ipv6HumanCmp, hwords hx, hwords hy, sign_wordsCmp]
    exact wordsCmp_words_beValue (hx.trans h16.symm) (hy.trans h16.symm)
  · exact sign_memcmp hx hy
  · exact sign_memcmp hx hy

/-- The human comparator of a type ties a byte string with itself. -/
theorem AddrType.humanCmp_self (ho : HostOrder) (build : Build) (t : AddrType) {x : List UInt8}
    (hx : x.length = t.size) : t.humanCmp ho build x x = 0 := by
  have h := t.sign_humanCmp ho build hx hx
  rw [(wordsCmp_eq_zero_iff rfl).mpr rfl] at h
  exact Int.sign_eq_zero_iff_zero.mp h

/-- On every host the human order has the sign of `scamper_addr_cmp` on a big-endian host. -/
theorem sign_addrHumanCmp (ho : HostOrder) (build : Build) (x y : ScamperAddr) :
    (addrCmpWith (AddrType.humanCmp ho build) x y).sign = (addrCmp .bigEndian build x y).sign := by
  rw [(scamperAddrCmp_eq_with .bigEndian build).2, sign_addrCmpWith, sign_addrCmpWith]
  split_ifs with h
  · rw [x.type.sign_humanCmp ho build x.addr_length (h ▸ y.addr_length),
      x.type.sign_cmp_bigEndian build x.addr_length (h ▸ y.addr_length)]
  · rfl

/-- The human order is a strict total order on addresses, on either host and in either build,
whose ties are exactly equal addresses. -/
theorem addrHumanCmp_isTotal (ho : HostOrder) (build : Build) :
    IsTotalCmpOn (fun _ => True) (addrCmpWith (AddrType.humanCmp ho build)) :=
  (addrCmp_isTotal .bigEndian build).congr_sign fun _ _ => sign_addrHumanCmp ho build _ _

/-- **The human order.** On a host of either byte order and in either build,
`scamper_addr_human_cmp(a, b)` has the sign of the comparison of the types of `a` and `b`
when they differ, and otherwise of the comparison of their bytes read as big-endian
unsigned integers, which is their byte order, first byte first. On a big-endian host it
has the sign of `scamper_addr_cmp(a, b)` for every pair. -/
theorem scamperAddrHumanCmp_sign (ho : HostOrder) (build : Build)
    {heap : Ptr → Option ScamperAddr} {a b : Ptr} {x y : ScamperAddr} (ha : heap a = some x)
    (hb : heap b = some y) :
    ∃ r, scamperAddrHumanCmp ho build heap a b = some r ∧
      r.sign = (if x.type = y.type then cmpNat (beValue x.addr) (beValue y.addr)
        else cmpNat x.type.toNat y.type.toNat) ∧
      (x.type = y.type → r.sign = wordsCmp (x.addr.map UInt8.toNat) (y.addr.map UInt8.toNat)) ∧
      (ho = .bigEndian → ∃ r', scamperAddrCmp ho build heap a b = some r' ∧ r'.sign = r.sign) := by
  have hbytes : x.type = y.type →
      (x.type.humanCmp ho build x.addr y.addr).sign =
        wordsCmp (x.addr.map UInt8.toNat) (y.addr.map UInt8.toNat) := fun h =>
    x.type.sign_humanCmp ho build x.addr_length (h ▸ y.addr_length)
  refine ⟨_, scamperAddrCmpWith_eq (fun t _ => t.humanCmp_self ho build) ha hb, ?_,
    fun h => by rw [sign_addrCmpWith, if_pos h, hbytes h], ?_⟩
  · rw [sign_addrCmpWith]
    split_ifs with h
    · rw [hbytes h, cmpNat_beValue (by rw [x.addr_length, y.addr_length, h])]
    · rfl
  · rintro rfl
    exact ⟨_, scamperAddrCmp_eq .bigEndian build ha hb,
      (sign_addrHumanCmp .bigEndian build x y).symm⟩

theorem scamperAddrHumanCmp_sign_ipv4 :
    let x : ScamperAddr := ⟨.ipv4, [1, 0, 0, 2], rfl⟩
    let y : ScamperAddr := ⟨.ipv4, [2, 0, 0, 1], rfl⟩
    let heap : Ptr → Option ScamperAddr := fun p => if p = 1 then some x else some y
    heap 1 = some x ∧ heap 2 = some y ∧
    ∃ r, scamperAddrHumanCmp .littleEndian .posix heap 1 2 = some r ∧
      r.sign = (if x.type = y.type then cmpNat (beValue x.addr) (beValue y.addr)
        else cmpNat x.type.toNat y.type.toNat) ∧
      (x.type = y.type → r.sign = wordsCmp (x.addr.map UInt8.toNat) (y.addr.map UInt8.toNat)) ∧
      (HostOrder.littleEndian = .bigEndian →
        ∃ r', scamperAddrCmp .littleEndian .posix heap 1 2 = some r' ∧ r'.sign = r.sign) := by
  intro x y heap
  exact ⟨rfl, rfl, scamperAddrHumanCmp_sign .littleEndian .posix rfl rfl⟩

/-- On a little-endian host the two orders differ: 1.0.0.2 is below 2.0.0.1 in the human
order, and above it in the order of `scamper_addr_cmp`. -/
example :
    let heap : Ptr → Option ScamperAddr := fun p =>
      if p = 1 then some ⟨.ipv4, [1, 0, 0, 2], rfl⟩ else some ⟨.ipv4, [2, 0, 0, 1], rfl⟩
    scamperAddrHumanCmp .littleEndian .posix heap 1 2 = some (-1) ∧
      scamperAddrCmp .littleEndian .posix heap 1 2 = some 1 := by
  decide

end Scamper
