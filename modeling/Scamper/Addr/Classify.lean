import Scamper.Addr.Cmp
import Scamper.Addr.Netaddr
import Scamper.Addr.Prefix

/-!
The small queries of `scamper_addr.c`: `ipv4_islinklocal`, `ipv6_islinklocal` and
`scamper_addr_islinklocal`, `scamper_addr_isrfc1918`, `scamper_addr_af`, `scamper_addr_size`
and `scamper_addr_raw_cmp`.

* `scamperAddrIslinklocal_eq_inprefix`: the link-local test answers 1 exactly when
  `scamper_addr_inprefix` puts an IPv4 address in 169.254.0.0/16 or an IPv6 address in
  fe80::/10, on either host and in either build, and 0 otherwise;
* `scamperAddrAf_ne_neg_one_iff`: the address family is defined for exactly the types whose
  prefix handlers are not `NULL`;
* `scamperAddrRawCmp_eq_zero_iff` and `sign_scamperAddrRawCmp`: `scamper_addr_raw_cmp` ties
  exactly the address's own bytes, and on a big-endian host it orders two addresses of one
  type as `scamper_addr_cmp` does.
-/

namespace Scamper

/-! ### Masked equality tests -/

theorem land_eq_iff_xor_land_eq_zero {x y m : Nat} (hy : y &&& m = y) :
    x &&& m = y ↔ (x ^^^ y) &&& m = 0 := by
  rw [xor_land_eq_zero_iff]
  constructor
  · rintro rfl j hm
    simp [Nat.testBit_land, hm]
  · intro h
    refine Nat.eq_of_testBit_eq fun j => ?_
    have hyj := congrArg (Nat.testBit · j) hy
    simp only [Nat.testBit_land] at hyj ⊢
    cases hm : m.testBit j
    · simpa [hm] using hyj.symm
    · simp [h j hm]

theorem prefixMask_lt (w len : Nat) : prefixMask w len < 2 ^ w := by
  have := Nat.two_pow_pos (w - len)
  have := Nat.two_pow_pos w
  unfold prefixMask; omega

/-- **A masked equality test is a prefix test.** `(x & mask) == p`, with `x` read in network
order and `p` a prefix with no bits past `len`, holds exactly when `x` and `p` agree on their
first `len` network bits. -/
theorem beValue_land_prefixMask_eq_iff {n len : Nat} {a p : List UInt8} (ha : a.length = n)
    (hp : p.length = n) (hlen : len ≤ 8 * n)
    (hp0 : beValue p &&& prefixMask (8 * n) len = beValue p) :
    beValue a &&& prefixMask (8 * n) len = beValue p ↔ prefixAgree len a p := by
  have hm : HostOrder.bigEndian.load (beBytes n (prefixMask (8 * n) len)) =
      prefixMask (8 * n) len := by
    rw [HostOrder.load, HostOrder.orient, beValue_beBytes, Nat.mod_eq_of_lt (prefixMask_lt _ _)]
  rw [land_eq_iff_xor_land_eq_zero hp0, ← hm]
  exact HostOrder.bigEndian.load_xor_land_prefixMask_eq_zero_iff ha hp hlen

/-- A prefix as wide as a byte string compares the whole string. -/
theorem prefixAgree_length_iff {x y : List UInt8} (h : x.length = y.length) :
    prefixAgree (8 * x.length) x y ↔ x = y :=
  ⟨eq_of_netBit_eq h, fun hxy _ _ => hxy ▸ rfl⟩

/-- A prefix test splits at the first byte. -/
theorem prefixAgree_cons_iff {len : Nat} {b c : UInt8} {bs cs : List UInt8} :
    prefixAgree len (b :: bs) (c :: cs) ↔
      prefixAgree (min len 8) [b] [c] ∧ prefixAgree (len - 8) bs cs := by
  simpa using prefixAgree_iff_take_drop 1 len (b :: bs) (c :: cs)

/-! ### Link-local and private addresses -/

/-- `ipv4_islinklocal`: in 169.254.0.0/16. -/
def ipv4Islinklocal (ho : HostOrder) (a : List UInt8) : Int :=
  if ntohl ho (ho.load a) &&& 0xffff0000 = 0xa9fe0000 then 1 else 0

/-- `ipv6_islinklocal`: in fe80::/10, tested on `s6_addr[0]` and `s6_addr[1]`. -/
def ipv6Islinklocal (a : List UInt8) : Int :=
  if (a.getD 0 0).toNat = 0xfe ∧ (a.getD 1 0).toNat &&& 0xc0 = 0x80 then 1 else 0

/-- `handlers[t-1].islinklocal`; `none` where the table has `NULL`. -/
def AddrType.islinklocal (ho : HostOrder) : AddrType → Option (List UInt8 → Int)
  | .ipv4 => some (ipv4Islinklocal ho)
  | .ipv6 => some ipv6Islinklocal
  | .ethernet | .firewire => none

/-- `scamper_addr_islinklocal(a)`. -/
def scamperAddrIslinklocal (ho : HostOrder) (a : ScamperAddr) : Int :=
  match a.type.islinklocal ho with
  | some islinklocal => islinklocal a.addr
  | none => 0

/-- `scamper_addr_isrfc1918(sa)`. -/
def scamperAddrIsrfc1918 (ho : HostOrder) (sa : ScamperAddr) : Int :=
  if sa.type ≠ .ipv4 then 0
  else
    let x := ntohl ho (ho.load sa.addr)
    if x &&& 0xff000000 = 0x0a000000 ∨ x &&& 0xfff00000 = 0xac100000 ∨
        x &&& 0xffff0000 = 0xc0a80000 then 1 else 0

/-- The edge of 172.16.0.0/12. -/
example : scamperAddrIsrfc1918 .littleEndian ⟨.ipv4, [172, 31, 255, 255], rfl⟩ = 1 ∧
    scamperAddrIsrfc1918 .littleEndian ⟨.ipv4, [172, 32, 0, 0], rfl⟩ = 0 := by
  decide

/-- 169.254.0.0, the IPv4 link-local prefix. -/
def ipv4LinkLocal : List UInt8 := [169, 254, 0, 0]

/-- fe80::, the IPv6 link-local prefix. -/
def ipv6LinkLocal : List UInt8 := 0xfe :: 0x80 :: List.replicate 14 0

theorem ipv4Islinklocal_eq (ho : HostOrder) {a : List UInt8} (ha : a.length = 4) :
    ipv4Islinklocal ho a = if prefixAgree 16 a ipv4LinkLocal then 1 else 0 := by
  rw [ipv4Islinklocal, ntohl_load ho ha]
  exact if_congr (@beValue_land_prefixMask_eq_iff 4 16 a ipv4LinkLocal ha rfl (by omega)
    (by decide)) rfl rfl

theorem ipv6Islinklocal_eq {a : List UInt8} (ha : a.length = 16) :
    ipv6Islinklocal a = if prefixAgree 10 a ipv6LinkLocal then 1 else 0 := by
  obtain _ | ⟨a0, _ | ⟨a1, rest⟩⟩ := a
  · simp at ha
  · simp at ha
  have h0 : prefixAgree 8 [a0] [0xfe] ↔ a0.toNat = 0xfe :=
    (prefixAgree_length_iff (x := [a0]) (y := [0xfe]) rfl).trans
      (List.singleton_inj.trans ⟨fun h => h ▸ rfl, fun h => UInt8.toNat.inj h⟩)
  have h1 : prefixAgree 2 [a1] [0x80] ↔ a1.toNat &&& 0xc0 = 0x80 := by
    simpa [beValue, prefixMask] using
      (@beValue_land_prefixMask_eq_iff 1 2 [a1] [0x80] rfl rfl (by omega) (by decide)).symm
  refine if_congr ?_ rfl rfl
  show a0.toNat = 0xfe ∧ a1.toNat &&& 0xc0 = 0x80 ↔ _
  rw [ipv6LinkLocal, prefixAgree_cons_iff, @prefixAgree_cons_iff (10 - 8) a1 0x80 rest]
  show _ ↔ prefixAgree 8 [a0] [0xfe] ∧ prefixAgree 2 [a1] [0x80] ∧ prefixAgree 0 rest _
  rw [h0, h1]
  simp [prefixAgree]

/-- **Link-local addresses.** On either host and in either build, `scamper_addr_islinklocal`
answers 1 for an IPv4 address that `scamper_addr_inprefix` puts in 169.254.0.0/16 or an IPv6
address it puts in fe80::/10, and 0 for every other address. -/
theorem scamperAddrIslinklocal_eq_inprefix (ho : HostOrder) (b : Build) (a : ScamperAddr) :
    scamperAddrIslinklocal ho a =
      if a.type = .ipv4 ∧ scamperAddrInprefix ho b a ipv4LinkLocal 16 = some 1 ∨
          a.type = .ipv6 ∧ scamperAddrInprefix ho b a ipv6LinkLocal 10 = some 1 then 1 else 0 := by
  obtain ⟨t, x, hx⟩ := a
  cases t
  · have h := ipv4Inprefix_eq ho hx (p := ipv4LinkLocal) rfl (show 16 ≤ 32 by omega)
    simp only [scamperAddrIslinklocal, scamperAddrInprefix, AddrType.islinklocal,
      AddrType.inprefix, ipv4Islinklocal_eq ho hx, Nat.cast_ofNat] at h ⊢
    simp [h]
  · have h := ipv6Inprefix_eq ho b hx (p := ipv6LinkLocal) rfl (show 10 ≤ 128 by omega)
    simp only [scamperAddrIslinklocal, scamperAddrInprefix, AddrType.islinklocal,
      AddrType.inprefix, ipv6Islinklocal_eq hx, Nat.cast_ofNat] at h ⊢
    simp [h]
  all_goals simp [scamperAddrIslinklocal, AddrType.islinklocal]

/-- fe80::1 is link-local and fec0::1 is not, on either host. -/
example : scamperAddrIslinklocal .littleEndian
      ⟨.ipv6, [0xfe, 0x80, 0, 0, 0, 0, 0, 0, 0, 0, 0, 0, 0, 0, 0, 1], rfl⟩ = 1 ∧
    scamperAddrIslinklocal .littleEndian
      ⟨.ipv6, [0xfe, 0xc0, 0, 0, 0, 0, 0, 0, 0, 0, 0, 0, 0, 0, 0, 1], rfl⟩ = 0 := by
  decide

/-! ### Address family and size -/

/-- `scamper_addr_af(sa)`, with the platform's values of `AF_INET` and `AF_INET6`. -/
def scamperAddrAf (afInet afInet6 : Int) (sa : ScamperAddr) : Int :=
  if sa.type = .ipv4 then afInet else if sa.type = .ipv6 then afInet6 else -1

/-- `scamper_addr_size(sa)`. -/
def scamperAddrSize (sa : ScamperAddr) : Nat := sa.type.size

@[simp]
theorem scamperAddrSize_eq_length (sa : ScamperAddr) : scamperAddrSize sa = sa.addr.length :=
  sa.addr_length.symm

/-- **The IP types.** With `AF_INET` and `AF_INET6` other than -1, `scamper_addr_af` is
defined for exactly the types whose `inprefix` handler is not `NULL`, and those are the types
whose `prefix`, `netaddr` and `islinklocal` handlers are not `NULL`. -/
theorem scamperAddrAf_ne_neg_one_iff (ho : HostOrder) (b : Build) {afInet afInet6 : Int}
    (h4 : afInet ≠ -1) (h6 : afInet6 ≠ -1) (sa : ScamperAddr) :
    (scamperAddrAf afInet afInet6 sa ≠ -1 ↔ (Option.isSome <| sa.type.inprefix ho b)) ∧
    (Option.isSome <| sa.type.prefix ho) = (Option.isSome <| sa.type.inprefix ho b) ∧
    (sa.type.netaddr ho).isSome = (Option.isSome <| sa.type.inprefix ho b) ∧
    (sa.type.islinklocal ho).isSome = (Option.isSome <| sa.type.inprefix ho b) := by
  cases h : sa.type <;>
    simp [scamperAddrAf, h, h4, h6, AddrType.inprefix, AddrType.prefix, AddrType.netaddr,
      AddrType.islinklocal]

/-! ### `scamper_addr_raw_cmp` and the byte order -/

/-- `scamper_addr_raw_cmp(a, raw)`: the address's bytes against the first
`handlers[a->type-1].size` bytes at `raw`. -/
def scamperAddrRawCmp (a : ScamperAddr) (raw : List UInt8) : Int :=
  memcmp a.addr raw a.type.size

/-- `memcmp(x, y, n)` reads only the first `n` bytes of `y`. -/
theorem memcmp_take (x y : List UInt8) (n : Nat) : memcmp x (y.take n) n = memcmp x y n := by
  induction x generalizing y n with
  | nil => rfl
  | cons a as ih =>
    rcases y with _ | ⟨b, bs⟩ <;> rcases n with _ | n
    all_goals first | rfl | simp only [memcmp, List.take_succ_cons, ih]

/-- `scamper_addr_raw_cmp` returns 0 exactly when the first `size` bytes at `raw` are the
address's bytes. -/
theorem scamperAddrRawCmp_eq_zero_iff (a : ScamperAddr) {raw : List UInt8}
    (hraw : a.type.size ≤ raw.length) :
    scamperAddrRawCmp a raw = 0 ↔ raw.take a.type.size = a.addr := by
  rw [scamperAddrRawCmp, ← memcmp_take, eq_comm (a := List.take _ raw)]
  exact (memcmp_isTotal a.type.size).eq_zero_iff a.addr_length (by simp [hraw])

/-- Two numbers of `B` digits written after equal-width leading digits `a` and `b` compare
as `a` and `b`, and as the trailing digits when `a = b`. -/
theorem cmpNat_mul_add {B u v : Nat} (hu : u < B) (hv : v < B) (a b : Nat) :
    cmpNat (B * a + u) (B * b + v) = if a = b then cmpNat u v else cmpNat a b := by
  have hlt : ∀ {c d w z : Nat}, c < d → w < B → B * c + w < B * d + z := fun {c d w z} hcd hw =>
    calc B * c + w < B * (c + 1) := by rw [Nat.mul_succ]; omega
      _ ≤ B * d := Nat.mul_le_mul_left _ hcd
      _ ≤ B * d + z := Nat.le_add_right _ _
  rcases lt_trichotomy a b with hab | rfl | hab
  · have := hlt (z := v) hab hu
    simp only [cmpNat, if_neg hab.ne, if_pos hab, if_pos this]
  · simp only [cmpNat, if_true, gt_iff_lt, Nat.add_lt_add_iff_left]
  · have := hlt (z := u) hab hv
    simp only [cmpNat, if_neg hab.ne', if_neg (Nat.lt_asymm hab), if_neg (Nat.lt_asymm this),
      gt_iff_lt, if_pos hab, if_pos this]

/-- Comparing two byte strings of one length read most significant byte first compares
their bytes in order. -/
theorem cmpNat_beValue {x y : List UInt8} (h : x.length = y.length) :
    cmpNat (beValue x) (beValue y) = wordsCmp (x.map UInt8.toNat) (y.map UInt8.toNat) := by
  induction x generalizing y with
  | nil => rw [List.length_eq_zero.mp h.symm]; rfl
  | cons a as ih =>
    obtain _ | ⟨b, bs⟩ := y
    · simp at h
    simp only [List.length_cons, Nat.succ.injEq] at h
    rw [beValue, beValue, h, cmpNat_mul_add (beValue_lt as |>.trans_eq (by rw [h]))
      (beValue_lt bs), List.map_cons, List.map_cons, wordsCmp_cons, ih h]

/-- The word loop over two concatenations: the first parts decide unless they are equal. -/
theorem wordsCmp_append {x x' : List Nat} (y y' : List Nat) (h : x.length = x'.length) :
    wordsCmp (x ++ y) (x' ++ y') = if x = x' then wordsCmp y y' else wordsCmp x x' := by
  induction x generalizing x' with
  | nil => rw [List.length_eq_zero.mp h.symm]; rfl
  | cons a as ih =>
    obtain _ | ⟨b, bs⟩ := x'
    · simp at h
    simp only [List.length_cons, Nat.succ.injEq] at h
    rw [List.cons_append, List.cons_append, wordsCmp_cons, wordsCmp_cons, ih h]
    by_cases hab : a = b <;> simp [hab]

/-- The words of two byte strings, each read most significant byte first, compare as the
bytes do. -/
theorem wordsCmp_words_beValue {n k : Nat} {x y : List UInt8} (hx : x.length = n * k)
    (hy : y.length = n * k) :
    wordsCmp ((words n k x).map beValue) ((words n k y).map beValue) =
      wordsCmp (x.map UInt8.toNat) (y.map UInt8.toNat) := by
  induction k generalizing x y with
  | zero => rw [List.length_eq_zero.mp hx, List.length_eq_zero.mp hy]; rfl
  | succ k ih =>
    have htake : (x.take n).length = (y.take n).length := by simp [hx, hy, Nat.mul_succ]
    conv_rhs => rw [← List.take_append_drop n x, ← List.take_append_drop n y, List.map_append,
      List.map_append, wordsCmp_append _ _ (by simpa using htake)]
    simp only [words, List.map_cons, wordsCmp_cons]
    rw [ih (by simp [hx, Nat.mul_succ]) (by simp [hy, Nat.mul_succ]), ← cmpNat_beValue htake]
    have hinj : beValue (x.take n) = beValue (y.take n) ↔
        (x.take n).map UInt8.toNat = (y.take n).map UInt8.toNat :=
      ⟨fun h => congrArg _ (HostOrder.bigEndian.load_inj htake h),
        fun h => congrArg _ (List.map_injective_iff.mpr (fun _ _ => UInt8.toNat.inj) h)⟩
    simp only [hinj]

/-- On a big-endian host every handler's comparator orders byte strings of its type by their
bytes, first byte first, in either build. -/
theorem AddrType.sign_cmp_bigEndian (build : Build) (t : AddrType) {x y : List UInt8}
    (hx : x.length = t.size) (hy : y.length = t.size) :
    (t.cmp .bigEndian build x y).sign = wordsCmp (x.map UInt8.toNat) (y.map UInt8.toNat) := by
  have h16 := build.wordBytes_mul_wordCount
  cases t
  · exact (sign_cmpNat _ _).trans (cmpNat_beValue (hx.trans hy.symm))
  · exact (sign_wordsCmp _ _).trans
      (wordsCmp_words_beValue (hx.trans h16.symm) (hy.trans h16.symm))
  · exact sign_memcmp hx hy
  · exact sign_memcmp hx hy

/-- **`scamper_addr_raw_cmp` and the address order.** On a big-endian host, in either build,
`scamper_addr_raw_cmp(a, b->addr)` has the sign of `scamper_addr_cmp(a, b)` for two addresses
of one type: the interning trees keep addresses in the order of their bytes. -/
theorem sign_scamperAddrRawCmp (build : Build) {a b : ScamperAddr} (hab : a.type = b.type) :
    (scamperAddrRawCmp a b.addr).sign = (addrCmp .bigEndian build a b).sign := by
  have hb : b.addr.length = a.type.size := hab ▸ b.addr_length
  rw [scamperAddrRawCmp, addrCmp, if_pos hab, sign_memcmp a.addr_length hb,
    a.type.sign_cmp_bigEndian build a.addr_length hb]

theorem sign_scamperAddrRawCmp_ipv4 :
    AddrType.ipv4 = AddrType.ipv4 ∧
      (scamperAddrRawCmp ⟨.ipv4, [10, 0, 0, 1], rfl⟩ [10, 0, 0, 2]).sign =
        (addrCmp .bigEndian .posix ⟨.ipv4, [10, 0, 0, 1], rfl⟩ ⟨.ipv4, [10, 0, 0, 2], rfl⟩).sign :=
  ⟨rfl, sign_scamperAddrRawCmp .posix (a := ⟨.ipv4, [10, 0, 0, 1], rfl⟩)
    (b := ⟨.ipv4, [10, 0, 0, 2], rfl⟩) rfl⟩

/-- On a little-endian host the two orders differ: 1.0.0.2 is below 2.0.0.1 byte by byte, and
above it as a host integer. -/
example : (scamperAddrRawCmp ⟨.ipv4, [1, 0, 0, 2], rfl⟩ [2, 0, 0, 1]).sign = -1 ∧
    (addrCmp .littleEndian .posix ⟨.ipv4, [1, 0, 0, 2], rfl⟩ ⟨.ipv4, [2, 0, 0, 1], rfl⟩).sign =
      1 := by
  decide

end Scamper
