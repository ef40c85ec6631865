import Scamper.Addr.Inprefix

/-!
Common prefix lengths: `ipv4_prefix`, `ipv6_prefix`, `ipv4_prefixhosts` and their
dispatchers `scamper_addr_prefix` and `scamper_addr_prefixhosts`.

`IsCommonPrefix w a b L` says what the functions are for: `L` is the number of leading
network bits, among the first `w`, on which `a` and `b` agree.

* `scamperAddrPrefix_spec`: `scamper_addr_prefix` returns that number for two IPv4 or two
  IPv6 addresses on either host; it is the largest length `scamper_addr_inprefix` accepts,
  and the inner loop of `ipv6_prefix` always leaves by its `return`.
* `scamperAddrPrefixhosts_spec`: `scamper_addr_prefixhosts` keeps a common prefix of 31 or
  32 bits, and otherwise shortens it to the longest length at which neither host part is
  all zeros or all ones, reading `uint32_hostmask` only at 1 to 30.
* `scamperAddrPrefix_ultrametric`: the prefix length is symmetric, is the full width exactly
  for equal addresses, and `prefix x z ≥ min (prefix x y) (prefix y z)`;
* `scamperAddrPrefixhosts_comm_le`: `scamper_addr_prefixhosts` is symmetric although its loop
  tests `a` before `b`, and never exceeds `scamper_addr_prefix`.
-/

namespace Scamper

/-! ### The common prefix of two byte strings -/

/-- `L` is the number of leading network bits, among the first `w`, on which `a` and `b`
agree. -/
def IsCommonPrefix (w : Nat) (a b : List UInt8) (L : Nat) : Prop :=
  L ≤ w ∧ prefixAgree L a b ∧ (L < w → netBit a L ≠ netBit b L)

theorem prefixAgree_mono {l l' : Nat} {a b : List UInt8} (h : prefixAgree l a b) (hl : l' ≤ l) :
    prefixAgree l' a b :=
  fun i hi => h i (by omega)

theorem prefixAgree_succ_iff {l : Nat} {a b : List UInt8} :
    prefixAgree (l + 1) a b ↔ prefixAgree l a b ∧ netBit a l = netBit b l :=
  ⟨fun h => ⟨prefixAgree_mono h (by omega), h l (by omega)⟩, fun ⟨h, hl⟩ i hi => by
    rcases Nat.lt_succ_iff_lt_or_eq.mp hi with hi | rfl
    · exact h i hi
    · exact hl⟩

theorem exists_isCommonPrefix (w : Nat) (a b : List UInt8) : ∃ L, IsCommonPrefix w a b L := by
  induction w with
  | zero => exact ⟨0, le_rfl, fun _ h => absurd h (by omega), fun h => absurd h (by omega)⟩
  | succ w ih =>
    obtain ⟨L, hLw, hagree, hdiff⟩ := ih
    by_cases hL : L < w
    · exact ⟨L, by omega, hagree, fun _ => hdiff hL⟩
    · obtain rfl : L = w := by omega
      by_cases hbit : netBit a L = netBit b L
      · exact ⟨L + 1, le_rfl, prefixAgree_succ_iff.mpr ⟨hagree, hbit⟩, fun h => absurd h (by omega)⟩
      · exact ⟨L, by omega, hagree, fun _ => hbit⟩

/-- Below the width, the lengths at which `a` and `b` agree are exactly those up to `L`. -/
theorem IsCommonPrefix.prefixAgree_iff {w L l : Nat} {a b : List UInt8}
    (h : IsCommonPrefix w a b L) (hl : l ≤ w) : prefixAgree l a b ↔ l ≤ L := by
  refine ⟨fun hagree => ?_, fun hle => prefixAgree_mono h.2.1 hle⟩
  by_contra hlt
  exact h.2.2 (by omega) (hagree L (by omega))

theorem IsCommonPrefix.unique {w L L' : Nat} {a b : List UInt8} (h : IsCommonPrefix w a b L)
    (h' : IsCommonPrefix w a b L') : L = L' :=
  Nat.le_antisymm ((h'.prefixAgree_iff h.1).mp h.2.1) ((h.prefixAgree_iff h'.1).mp h'.2.1)

/-- Equal byte strings agree on every bit. -/
theorem isCommonPrefix_self (a : List UInt8) : IsCommonPrefix (8 * a.length) a a (8 * a.length) :=
  ⟨le_rfl, fun _ _ => rfl, fun h => absurd h (by omega)⟩

/-- A common prefix that stops inside the first word stops there in the whole strings. -/
theorem IsCommonPrefix.of_take {n w L : Nat} {a b : List UInt8}
    (h : IsCommonPrefix (8 * n) (a.take n) (b.take n) L) (hL : L < 8 * n) (hw : 8 * n ≤ w) :
    IsCommonPrefix w a b L := by
  obtain ⟨-, hagree, hdiff⟩ := h
  refine ⟨by omega, fun i hi => ?_, fun _ => ?_⟩
  · simpa [netBit_take (show i < 8 * n by omega)] using hagree i hi
  · simpa [netBit_take hL] using hdiff hL

/-- A common prefix that covers the first word continues in the rest. -/
theorem IsCommonPrefix.of_drop {n w L : Nat} {a b : List UInt8}
    (hfirst : prefixAgree (8 * n) (a.take n) (b.take n))
    (h : IsCommonPrefix w (a.drop n) (b.drop n) L) :
    IsCommonPrefix (8 * n + w) a b (8 * n + L) := by
  obtain ⟨hLw, hagree, hdiff⟩ := h
  refine ⟨by omega, (prefixAgree_iff_take_drop n _ a b).mpr ⟨?_, ?_⟩, fun hlt => ?_⟩
  · exact prefixAgree_mono hfirst (by omega)
  · simpa using hagree
  · simpa [netBit_drop] using hdiff (by omega)

/-! ### `ipv4_prefix` and `ipv6_prefix` -/

/-- The loop `for(i=32; i>0; i--)` of `ipv4_prefix` and `ipv4_prefixhosts`, from `i`: the
first `i` under whose netmask `a` and `b` agree, or 0. -/
def ipv4PrefixLoop (ho : HostOrder) (a b : List UInt8) : Nat → Option Nat
  | 0 => some 0
  | i + 1 => do
    let mask ← tableAt uint32Netmask i
    if (ho.load a ^^^ ho.load b) &&& htonl ho mask = 0 then pure (i + 1)
    else ipv4PrefixLoop ho a b i

/-- `ipv4_prefix(sa, sb)`. -/
def ipv4Prefix (ho : HostOrder) (a b : List UInt8) : Option Int :=
  (ipv4PrefixLoop ho a b 32).map Int.ofNat

/-- The inner loop of `ipv6_prefix` over bits `j` to 31 of two differing words `ua` and `ub`
(`fuel` is `32 - j`), `x` bits counted so far: `.error x` is its `return x`, `.ok x` the
count when it runs to the end. -/
def ipv6PrefixBits (ho : HostOrder) (ua ub : Nat) : Nat → Nat → Nat → Option (Except Nat Nat)
  | _, 0, x => some (.ok x)
  | j, fuel + 1, x => do
    let mask ← tableAt uint32Netmask j
    if (ua ^^^ ub) &&& htonl ho mask ≠ 0 then pure (.error x)
    else ipv6PrefixBits ho ua ub (j + 1) fuel (x + 1)

/-- The outer loop of `ipv6_prefix` over the `s6_addr32` words still to compare, `x` bits
counted so far. -/
def ipv6PrefixLoop (ho : HostOrder) : List (List UInt8) → List (List UInt8) → Nat → Option Nat
  | w :: ws, v :: vs, x =>
    if ho.load w = ho.load v then ipv6PrefixLoop ho ws vs (x + 32)
    else do
      match ← ipv6PrefixBits ho (ho.load w) (ho.load v) 0 32 x with
      | .error x => pure x
      | .ok x => ipv6PrefixLoop ho ws vs x
  | _, _, x => some x

/-- `ipv6_prefix(sa, sb)`, on `s6_addr32` words in every build. -/
def ipv6Prefix (ho : HostOrder) (a b : List UInt8) : Option Int :=
  (ipv6PrefixLoop ho (words 4 4 a) (words 4 4 b) 0).map Int.ofNat

/-- `handlers[t-1].prefix`; `none` where the table has `NULL`. -/
def AddrType.prefix (ho : HostOrder) : AddrType → Option (List UInt8 → List UInt8 → Option Int)
  | .ipv4 => some (ipv4Prefix ho)
  | .ipv6 => some (ipv6Prefix ho)
  | .ethernet | .firewire => none

/-- `scamper_addr_prefix(a, b)`. -/
def scamperAddrPrefix (ho : HostOrder) (a b : ScamperAddr) : Option Int :=
  if a.type ≠ b.type then some (-1)
  else match a.type.prefix ho with
    | some f => f a.addr b.addr
    | none => some (-1)

theorem ipv4PrefixLoop_eq (ho : HostOrder) {a b : List UInt8} (ha : a.length = 4)
    (hb : b.length = 4) {L : Nat} (hL : IsCommonPrefix 32 a b L) :
    ∀ i ≤ 32, ipv4PrefixLoop ho a b i = some (min i L)
  | 0, _ => by simp [ipv4PrefixLoop]
  | i + 1, hi => by
    simp only [ipv4PrefixLoop, tableAt_natCast, uint32Netmask_getElem? (show i < 32 by omega),
      Option.bind_eq_bind, Option.some_bind, ho.load_xor_land_htonl_eq_zero_iff ha hb hi,
      hL.prefixAgree_iff hi, Option.pure_def]
    split_ifs with hle
    · rw [Nat.min_eq_left hle]
    · rw [ipv4PrefixLoop_eq ho ha hb hL i (by omega), Nat.min_eq_right (by omega),
        Nat.min_eq_right (by omega)]

theorem ipv6PrefixBits_eq (ho : HostOrder) {w v : List UInt8} (hw : w.length = 4)
    (hv : v.length = 4) {L : Nat} (hL : IsCommonPrefix 32 w v L) (hL32 : L < 32) :
    ∀ {fuel j : Nat} (x : Nat), j + fuel = 32 → j ≤ L →
      ipv6PrefixBits ho (ho.load w) (ho.load v) j fuel x = some (.error (x + (L - j)))
  | 0, j, x, hj, hjL => by omega
  | fuel + 1, j, x, hj, hjL => by
    simp only [ipv6PrefixBits, tableAt_natCast, uint32Netmask_getElem? (show j < 32 by omega),
      Option.bind_eq_bind, Option.some_bind, ne_eq,
      ho.load_xor_land_htonl_eq_zero_iff hw hv (show j + 1 ≤ 32 by omega),
      hL.prefixAgree_iff (show j + 1 ≤ 32 by omega), not_le, Option.pure_def]
    split_ifs with hlt
    · congr 2; omega
    · rw [ipv6PrefixBits_eq ho hw hv hL hL32 (x + 1) (by omega) (by omega)]
      congr 2; omega

/-- **The inner loop of `ipv6_prefix` always leaves by its `return`** when the two words
differ. -/
theorem ipv6PrefixBits_returns (ho : HostOrder) {ua ub : Nat} (hua : ua < 2 ^ 32)
    (hub : ub < 2 ^ 32) (hne : ua ≠ ub) (x : Nat) :
    ∃ x', ipv6PrefixBits ho ua ub 0 32 x = some (.error x') := by
  have hlen : ∀ u, (ho.store 4 u).length = 4 := fun u => by simp [HostOrder.store]
  have hload : ∀ u < 2 ^ 32, ho.load (ho.store 4 u) = u := fun u hu => by
    rw [ho.load_store, Nat.mod_eq_of_lt hu]
  obtain ⟨L, hL⟩ := exists_isCommonPrefix 32 (ho.store 4 ua) (ho.store 4 ub)
  have hL32 : L < 32 := by
    by_contra hge
    have hagree := (hL.prefixAgree_iff le_rfl).mpr (by omega)
    refine hne ?_
    rw [← hload ua hua, ← hload ub hub,
      eq_of_netBit_eq ((hlen ua).trans (hlen ub).symm) (by rw [hlen]; exact hagree)]
  refine ⟨x + (L - 0), ?_⟩
  rw [← hload ua hua, ← hload ub hub]
  exact ipv6PrefixBits_eq ho (hlen ua) (hlen ub) hL hL32 x (show 0 + 32 = 32 from rfl)
    (Nat.zero_le L)

theorem ipv6PrefixLoop_eq (ho : HostOrder) :
    ∀ {k : Nat} {a b : List UInt8} {L : Nat} (x : Nat), a.length = 4 * k → b.length = 4 * k →
      IsCommonPrefix (32 * k) a b L → ipv6PrefixLoop ho (words 4 k a) (words 4 k b) x = some (x + L)
  | 0, _, _, L, x, _, _, hL => by
    obtain rfl : L = 0 := by have := hL.1; omega
    rfl
  | k + 1, a, b, L, x, ha, hb, hL => by
    obtain ⟨hat, had⟩ := length_take_drop_word ha
    obtain ⟨hbt, hbd⟩ := length_take_drop_word hb
    rw [show 32 * (k + 1) = 8 * 4 + 32 * k by omega] at hL
    simp only [words, ipv6PrefixLoop]
    split_ifs with heq
    · have hsame : a.take 4 = b.take 4 := ho.load_inj (hat.trans hbt.symm) heq
      obtain ⟨L', hL'⟩ := exists_isCommonPrefix (32 * k) (a.drop 4) (b.drop 4)
      obtain rfl := hL.unique (hL'.of_drop (hsame ▸ fun _ _ => rfl))
      rw [ipv6PrefixLoop_eq ho (x + 32) had hbd hL']
      congr 1; omega
    · obtain ⟨Lw, hLw⟩ := exists_isCommonPrefix 32 (a.take 4) (b.take 4)
      have hLw32 : Lw < 32 := by
        by_contra hge
        exact heq (congrArg ho.load (eq_of_netBit_eq (hat.trans hbt.symm)
          (by rw [hat]; exact (hLw.prefixAgree_iff le_rfl).mpr (by omega))))
      obtain rfl := hL.unique (hLw.of_take (n := 4) hLw32 (by omega))
      simp [ipv6PrefixBits_eq ho hat hbt hLw hLw32 x (show 0 + 32 = 32 from rfl) (Nat.zero_le _)]

theorem ipv4Prefix_eq (ho : HostOrder) {a b : List UInt8} (ha : a.length = 4) (hb : b.length = 4)
    {L : Nat} (hL : IsCommonPrefix 32 a b L) : ipv4Prefix ho a b = some (L : Int) := by
  simp [ipv4Prefix, ipv4PrefixLoop_eq ho ha hb hL 32 le_rfl, Nat.min_eq_right hL.1]

theorem ipv6Prefix_eq (ho : HostOrder) {a b : List UInt8} (ha : a.length = 16)
    (hb : b.length = 16) {L : Nat} (hL : IsCommonPrefix 128 a b L) :
    ipv6Prefix ho a b = some (L : Int) := by
  rw [ipv6Prefix, ipv6PrefixLoop_eq ho 0 (k := 4) ha hb hL, Nat.zero_add]
  rfl

/-- **Common prefix length.** For two IPv4 or two IPv6 addresses, on either host,
`scamper_addr_prefix` returns the number of leading network bits on which they agree. It is
the largest length at which `scamper_addr_inprefix` (of either build) accepts the second's
bytes as a prefix of the first, the full width for equal bytes and 0 when the first bits
differ; and the inner loop of `ipv6_prefix` always leaves by its `return`. -/
theorem scamperAddrPrefix_spec (ho : HostOrder) (b : Build) {x y : ScamperAddr}
    (hty : x.type = .ipv4 ∨ x.type = .ipv6) (hxy : x.type = y.type) :
    ∃ L : Nat, scamperAddrPrefix ho x y = some (L : Int) ∧
      IsCommonPrefix (8 * x.type.size) x.addr y.addr L ∧
      scamperAddrInprefix ho b x y.addr L = some 1 ∧
      (∀ L' : Nat, L' ≤ 8 * x.type.size → scamperAddrInprefix ho b x y.addr L' = some 1 → L' ≤ L) ∧
      (x.addr = y.addr → L = 8 * x.type.size) ∧
      (netBit x.addr 0 ≠ netBit y.addr 0 → L = 0) ∧
      (∀ ua ub x₀ : Nat, ua < 2 ^ 32 → ub < 2 ^ 32 → ua ≠ ub →
        ∃ x', ipv6PrefixBits ho ua ub 0 32 x₀ = some (.error x')) := by
  obtain ⟨L, hL⟩ := exists_isCommonPrefix (8 * x.type.size) x.addr y.addr
  have hy : y.addr.length = x.type.size := hxy ▸ y.addr_length
  have hin := fun L (hL : L ≤ 8 * x.type.size) => scamperAddrInprefix_of_le ho b hty hy hL
  refine ⟨L, ?_, hL, ?_, fun L' hL' h => ?_, fun heq => ?_, fun hbit => ?_,
    fun _ _ x₀ hua hub hne => ipv6PrefixBits_returns ho hua hub hne x₀⟩
  · obtain ⟨t, a, ha⟩ := x
    dsimp only at hty hy hxy hL ⊢
    rcases hty with rfl | rfl
    · simp [scamperAddrPrefix, ← hxy, AddrType.prefix, ipv4Prefix_eq ho ha hy hL]
    · simp [scamperAddrPrefix, ← hxy, AddrType.prefix, ipv6Prefix_eq ho ha hy hL]
  · rw [hin L hL.1, if_pos hL.2.1]
  · rw [hin L' hL'] at h
    exact (hL.prefixAgree_iff hL').mp (by by_contra hn; simp [hn] at h)
  · exact Nat.le_antisymm hL.1 ((hL.prefixAgree_iff le_rfl).mp (heq ▸ fun _ _ => rfl))
  · by_contra hpos
    exact hbit (hL.2.1 0 (by omega))

theorem scamperAddrPrefix_spec_ipv4 :
    (AddrType.ipv4 = .ipv4 ∨ AddrType.ipv4 = .ipv6) ∧ AddrType.ipv4 = AddrType.ipv4 ∧
    ∃ L : Nat, scamperAddrPrefix .littleEndian ⟨.ipv4, [192, 168, 1, 0], rfl⟩
        ⟨.ipv4, [192, 168, 1, 1], rfl⟩ = some (L : Int) ∧
      IsCommonPrefix 32 [192, 168, 1, 0] [192, 168, 1, 1] L :=
  ⟨.inl rfl, rfl, (scamperAddrPrefix_spec .littleEndian .posix (x := ⟨.ipv4, [192, 168, 1, 0], rfl⟩)
    (y := ⟨.ipv4, [192, 168, 1, 1], rfl⟩) (.inl rfl) rfl).imp fun _ h => ⟨h.1, h.2.1⟩⟩

example : scamperAddrPrefix .littleEndian ⟨.ipv6, [0xfe, 0x80, 0, 0, 0, 0, 0, 0, 0, 0, 0, 0, 0, 0, 0, 1], rfl⟩
    ⟨.ipv6, [0xfe, 0x80, 0, 0, 0, 0, 0, 0, 0, 0, 0, 0, 0, 0, 0, 3], rfl⟩ = some 126 := by
  decide

/-! ### `ipv4_prefixhosts` -/

/-- The host part of a 4-byte address under a prefix of `len` bits: the low `32 - len` bits
of its host-order value `ntohl(s_addr)`. -/
def hostPart (a : List UInt8) (len : Nat) : Nat := beValue a % 2 ^ (32 - len)

/-- The host part is all zeros or all ones: under a prefix of `len` bits the address looks
like the network's own address or its broadcast address. -/
def HostDegenerate (a : List UInt8) (len : Nat) : Prop :=
  hostPart a len = 0 ∨ hostPart a len = 2 ^ (32 - len) - 1

/-- The `while(i>0)` loop of `ipv4_prefixhosts` from `i`, with `uint32_hostmask` read through
`hostmaskAt`: shorten the prefix while the host part of `a`, then of `b`, is all zeros or
all ones. -/
def ipv4PrefixhostsLoop (ho : HostOrder) (hostmaskAt : Int → Option Nat) (a b : List UInt8) :
    Nat → Option Nat
  | 0 => some 0
  | i + 1 => do
    let mask ← hostmaskAt (i + 1)
    let c := ntohl ho (ho.load a) &&& mask
    if c = 0 ∨ c = mask then ipv4PrefixhostsLoop ho hostmaskAt a b i
    else
      let c := ntohl ho (ho.load b) &&& mask
      if c = 0 ∨ c = mask then ipv4PrefixhostsLoop ho hostmaskAt a b i
      else pure (i + 1)

/-- `ipv4_prefixhosts(sa, sb)`, with `uint32_hostmask` read through `hostmaskAt`. -/
def ipv4PrefixhostsWith (ho : HostOrder) (hostmaskAt : Int → Option Nat) (a b : List UInt8) :
    Option Int := do
  let i ← ipv4PrefixLoop ho a b 32
  if i ≥ 31 then pure i
  else Int.ofNat <$> ipv4PrefixhostsLoop ho hostmaskAt a b i

/-- `ipv4_prefixhosts(sa, sb)`. -/
def ipv4Prefixhosts (ho : HostOrder) (a b : List UInt8) : Option Int :=
  ipv4PrefixhostsWith ho (tableAt uint32Hostmask) a b

/-- `handlers[t-1].prefixhosts`; `none` where the table has `NULL`. -/
def AddrType.prefixhosts (ho : HostOrder) :
    AddrType → Option (List UInt8 → List UInt8 → Option Int)
  | .ipv4 => some (ipv4Prefixhosts ho)
  | .ipv6 | .ethernet | .firewire => none

/-- `scamper_addr_prefixhosts(a, b)`. -/
def scamperAddrPrefixhosts (ho : HostOrder) (a b : ScamperAddr) : Option Int :=
  if a.type ≠ b.type then some (-1)
  else match a.type.prefixhosts ho with
    | some f => f a.addr b.addr
    | none => some (-1)

/-- The loop reads the host mask only at 1 to 30 when it starts at 30 or below. -/
theorem ipv4PrefixhostsLoop_congr (ho : HostOrder) {f g : Int → Option Nat}
    (hfg : ∀ j : Int, 1 ≤ j → j ≤ 30 → f j = g j) (a b : List UInt8) :
    ∀ i ≤ 30, ipv4PrefixhostsLoop ho f a b i = ipv4PrefixhostsLoop ho g a b i
  | 0, _ => rfl
  | i + 1, hi => by
    simp only [ipv4PrefixhostsLoop, hfg (i + 1) (by omega) (by omega),
      ipv4PrefixhostsLoop_congr ho hfg a b i (by omega)]

theorem hostmask_and_ntohl (ho : HostOrder) {a : List UInt8} (ha : a.length = 4) {len : Nat} :
    ntohl ho (ho.load a) &&& (2 ^ (32 - len) - 1) = hostPart a len := by
  rw [ntohl_load ho ha, Nat.and_pow_two_sub_one_eq_mod, hostPart]

/-- **The shortening loop.** From `i ≤ 30` it returns the longest `L ≤ i` at which neither
host part is degenerate, or 0. -/
theorem ipv4PrefixhostsLoop_spec (ho : HostOrder) {a b : List UInt8} (ha : a.length = 4)
    (hb : b.length = 4) :
    ∀ i ≤ 30, ∃ L, ipv4PrefixhostsLoop ho (tableAt uint32Hostmask) a b i = some L ∧
      L ≤ i ∧ (L = 0 ∨ ¬ HostDegenerate a L ∧ ¬ HostDegenerate b L) ∧
      ∀ l, L < l → l ≤ i → HostDegenerate a l ∨ HostDegenerate b l
  | 0, _ => ⟨0, rfl, le_rfl, .inl rfl, fun _ h h' => absurd h' (by omega)⟩
  | i + 1, hi => by
    obtain ⟨L, hloop, hLi, hgood, hbad⟩ := ipv4PrefixhostsLoop_spec ho ha hb i (by omega)
    have hextend : (HostDegenerate a (i + 1) ∨ HostDegenerate b (i + 1)) →
        ∀ l, L < l → l ≤ i + 1 → HostDegenerate a l ∨ HostDegenerate b l := fun h l hl hl' => by
      rcases Nat.lt_succ_iff_lt_or_eq.mp (Nat.lt_succ_of_le hl') with hl' | rfl
      · exact hbad l hl (by omega)
      · exact h
    have hread : tableAt uint32Hostmask ((i : Int) + 1) = some (2 ^ (32 - (i + 1)) - 1) := by
      rw [show (i : Int) + 1 = ((i + 1 : Nat) : Int) by omega, tableAt_natCast,
        uint32Hostmask_getElem? (by omega)]
    simp only [ipv4PrefixhostsLoop, hread, Option.bind_eq_bind, Option.some_bind,
      hostmask_and_ntohl ho ha, hostmask_and_ntohl ho hb]
    split_ifs with hda hdb
    · exact ⟨L, hloop, by omega, hgood, hextend (.inl hda)⟩
    · exact ⟨L, hloop, by omega, hgood, hextend (.inr hdb)⟩
    · exact ⟨i + 1, rfl, le_rfl, .inr ⟨hda, hdb⟩, fun _ h h' => absurd h' (by omega)⟩

/-- **Subnet-boundary heuristic.** For two IPv4 addresses, on either host, with `p` their
common prefix length: `scamper_addr_prefixhosts` returns `p` when `p` is 31 or 32, and
otherwise the longest `L ≤ p` at which neither address's host part is all zeros or all
ones, or 0; and its result is the same for any table that agrees with `uint32_hostmask` at
1 to 30, so no other entry is read. -/
theorem scamperAddrPrefixhosts_spec (ho : HostOrder) {x y : ScamperAddr} (hx : x.type = .ipv4)
    (hy : y.type = .ipv4) :
    ∃ p L : Nat, IsCommonPrefix 32 x.addr y.addr p ∧ scamperAddrPrefixhosts ho x y = some (L : Int) ∧
      (31 ≤ p → L = p) ∧
      (p < 31 → L ≤ p ∧ (L = 0 ∨ ¬ HostDegenerate x.addr L ∧ ¬ HostDegenerate y.addr L) ∧
        ∀ l, L < l → l ≤ p → HostDegenerate x.addr l ∨ HostDegenerate y.addr l) ∧
      ∀ hostmaskAt : Int → Option Nat,
        (∀ j : Int, 1 ≤ j → j ≤ 30 → hostmaskAt j = tableAt uint32Hostmask j) →
          ipv4PrefixhostsWith ho hostmaskAt x.addr y.addr = some (L : Int) := by
  obtain ⟨t, a, ha⟩ := x
  obtain ⟨t', b, hb⟩ := y
  dsimp only at hx hy ⊢
  subst hx hy
  obtain ⟨p, hp⟩ := exists_isCommonPrefix 32 a b
  have hpre := ipv4PrefixLoop_eq ho ha hb hp 32 le_rfl
  rw [Nat.min_eq_right hp.1] at hpre
  have hdispatch : scamperAddrPrefixhosts ho ⟨.ipv4, a, ha⟩ ⟨.ipv4, b, hb⟩ =
      ipv4PrefixhostsWith ho (tableAt uint32Hostmask) a b := by
    simp [scamperAddrPrefixhosts, AddrType.prefixhosts, ipv4Prefixhosts]
  by_cases h31 : 31 ≤ p
  · have hwith : ∀ f : Int → Option Nat, ipv4PrefixhostsWith ho f a b = some (p : Int) :=
      fun f => by simp [ipv4PrefixhostsWith, hpre, h31]
    exact ⟨p, p, hp, hdispatch.trans (hwith _), fun _ => rfl, fun h => absurd h31 (by omega),
      fun f _ => hwith f⟩
  · obtain ⟨L, hloop, hLp, hgood, hbad⟩ := ipv4PrefixhostsLoop_spec ho ha hb p (by omega)
    have hwith : ∀ f : Int → Option Nat,
        (∀ j : Int, 1 ≤ j → j ≤ 30 → f j = tableAt uint32Hostmask j) →
          ipv4PrefixhostsWith ho f a b = some (L : Int) := fun f hf => by
      simp [ipv4PrefixhostsWith, hpre, h31, ipv4PrefixhostsLoop_congr ho hf a b p (by omega), hloop]
    exact ⟨p, L, hp, hdispatch.trans (hwith _ fun _ _ _ => rfl), fun h => absurd h h31,
      fun _ => ⟨hLp, hgood, hbad⟩, hwith⟩

theorem scamperAddrPrefixhosts_spec_ipv4 :
    AddrType.ipv4 = .ipv4 ∧ AddrType.ipv4 = .ipv4 ∧
    ∃ p L : Nat, IsCommonPrefix 32 [10, 0, 0, 5] [10, 0, 0, 9] p ∧
      scamperAddrPrefixhosts .bigEndian ⟨.ipv4, [10, 0, 0, 5], rfl⟩ ⟨.ipv4, [10, 0, 0, 9], rfl⟩ =
        some (L : Int) :=
  ⟨rfl, rfl, (scamperAddrPrefixhosts_spec .bigEndian (x := ⟨.ipv4, [10, 0, 0, 5], rfl⟩)
    (y := ⟨.ipv4, [10, 0, 0, 9], rfl⟩) rfl rfl).imp fun _ h => h.imp fun _ h => ⟨h.1, h.2.1⟩⟩

/-- The spec's example: a common prefix of 31 bits is kept. -/
example : scamperAddrPrefixhosts .littleEndian ⟨.ipv4, [192, 168, 1, 0], rfl⟩
    ⟨.ipv4, [192, 168, 1, 1], rfl⟩ = some 31 := by
  decide

/-! ### How the prefix lengths relate -/

theorem IsCommonPrefix.symm {w L : Nat} {a b : List UInt8} (h : IsCommonPrefix w a b L) :
    IsCommonPrefix w b a L :=
  ⟨h.1, fun i hi => (h.2.1 i hi).symm, fun hL => (h.2.2 hL).symm⟩

/-- `scamper_addr_prefix` of two addresses of one IP type returns their common prefix. -/
theorem scamperAddrPrefix_eq (ho : HostOrder) {x y : ScamperAddr}
    (hty : x.type = .ipv4 ∨ x.type = .ipv6) (hxy : x.type = y.type) {L : Nat}
    (hL : IsCommonPrefix (8 * x.type.size) x.addr y.addr L) :
    scamperAddrPrefix ho x y = some (L : Int) := by
  have hy : y.addr.length = x.type.size := hxy ▸ y.addr_length
  obtain ⟨t, a, ha⟩ := x
  dsimp only at hty hy hxy hL ⊢
  rcases hty with rfl | rfl
  · simp [scamperAddrPrefix, ← hxy, AddrType.prefix, ipv4Prefix_eq ho ha hy hL]
  · simp [scamperAddrPrefix, ← hxy, AddrType.prefix, ipv6Prefix_eq ho ha hy hL]

/-- **The common prefix is an ultrametric similarity.** For addresses of one IP type, on
either host, `scamper_addr_prefix` gives the same length in both orders, gives the full width
exactly for equal addresses, and the length for `x` and `z` is at least the smaller of those
for `x` and `y` and for `y` and `z`. -/
theorem scamperAddrPrefix_ultrametric (ho : HostOrder) {x y z : ScamperAddr}
    (hty : x.type = .ipv4 ∨ x.type = .ipv6) (hxy : x.type = y.type) (hyz : y.type = z.type) :
    scamperAddrPrefix ho x y = scamperAddrPrefix ho y x ∧
      (scamperAddrPrefix ho x y = some ((8 * x.type.size : Nat) : Int) ↔ x = y) ∧
      ∃ Lxy Lyz Lxz : Nat, scamperAddrPrefix ho x y = some (Lxy : Int) ∧
        scamperAddrPrefix ho y z = some (Lyz : Int) ∧
        scamperAddrPrefix ho x z = some (Lxz : Int) ∧ min Lxy Lyz ≤ Lxz := by
  obtain ⟨Lxy, hLxy⟩ := exists_isCommonPrefix (8 * x.type.size) x.addr y.addr
  obtain ⟨Lyz, hLyz⟩ := exists_isCommonPrefix (8 * x.type.size) y.addr z.addr
  obtain ⟨Lxz, hLxz⟩ := exists_isCommonPrefix (8 * x.type.size) x.addr z.addr
  have hy : y.type = .ipv4 ∨ y.type = .ipv6 := hxy ▸ hty
  have exy := scamperAddrPrefix_eq ho hty hxy hLxy
  have eyx := scamperAddrPrefix_eq ho hy hxy.symm (by rw [← hxy]; exact hLxy.symm)
  have eyz := scamperAddrPrefix_eq ho hy hyz (by rw [← hxy]; exact hLyz)
  have exz := scamperAddrPrefix_eq ho hty (hxy.trans hyz) hLxz
  -- bits below both common prefixes agree from `x` through `y` to `z`
  have hagree : prefixAgree (min Lxy Lyz) x.addr z.addr := fun i hi =>
    (hLxy.2.1 i (by omega)).trans (hLyz.2.1 i (by omega))
  refine ⟨exy.trans eyx.symm, ?_, Lxy, Lyz, Lxz, exy, eyz, exz,
    (hLxz.prefixAgree_iff (by have := hLxy.1; omega)).mp hagree⟩
  rw [exy, Option.some.injEq, Int.ofNat_inj]
  constructor
  · rintro rfl
    refine ScamperAddr.ext hxy (eq_of_netBit_eq (x.addr_length.trans (hxy ▸ y.addr_length).symm)
      fun i hi => hLxy.2.1 i (by rw [x.addr_length] at hi; exact hi))
  · rintro rfl
    exact hLxy.unique (x.addr_length ▸ isCommonPrefix_self x.addr)

theorem scamperAddrPrefix_ultrametric_ipv4 :
    let x : ScamperAddr := ⟨.ipv4, [10, 0, 0, 1], rfl⟩
    let y : ScamperAddr := ⟨.ipv4, [10, 0, 1, 1], rfl⟩
    let z : ScamperAddr := ⟨.ipv4, [10, 1, 0, 1], rfl⟩
    (x.type = .ipv4 ∨ x.type = .ipv6) ∧ x.type = y.type ∧ y.type = z.type ∧
      scamperAddrPrefix .littleEndian x y = scamperAddrPrefix .littleEndian y x ∧
      (scamperAddrPrefix .littleEndian x y = some ((8 * x.type.size : Nat) : Int) ↔ x = y) ∧
      ∃ Lxy Lyz Lxz : Nat, scamperAddrPrefix .littleEndian x y = some (Lxy : Int) ∧
        scamperAddrPrefix .littleEndian y z = some (Lyz : Int) ∧
        scamperAddrPrefix .littleEndian x z = some (Lxz : Int) ∧ min Lxy Lyz ≤ Lxz := by
  intro x y z
  exact ⟨.inl rfl, rfl, rfl, scamperAddrPrefix_ultrametric .littleEndian (.inl rfl) rfl rfl⟩

/-- The loop of `ipv4_prefix` reads `a` and `b` only through their exclusive or. -/
theorem ipv4PrefixLoop_comm (ho : HostOrder) (a b : List UInt8) :
    ∀ i, ipv4PrefixLoop ho a b i = ipv4PrefixLoop ho b a i
  | 0 => rfl
  | i + 1 => by simp only [ipv4PrefixLoop, Nat.xor_comm, ipv4PrefixLoop_comm ho a b i]

/-- The shortening loop tests the host part of `a`, then of `b`, and goes on when either is
degenerate. -/
theorem ipv4PrefixhostsLoop_comm (ho : HostOrder) (f : Int → Option Nat) (a b : List UInt8) :
    ∀ i, ipv4PrefixhostsLoop ho f a b i = ipv4PrefixhostsLoop ho f b a i
  | 0 => rfl
  | i + 1 => by
    simp only [ipv4PrefixhostsLoop, ipv4PrefixhostsLoop_comm ho f a b i]
    congr 1; funext mask
    split_ifs <;> rfl

/-- `ipv4_prefixhosts` gives the same result for `(a, b)` and `(b, a)`, whatever table it
reads. -/
theorem ipv4PrefixhostsWith_comm (ho : HostOrder) (f : Int → Option Nat) (a b : List UInt8) :
    ipv4PrefixhostsWith ho f a b = ipv4PrefixhostsWith ho f b a := by
  simp only [ipv4PrefixhostsWith, ipv4PrefixLoop_comm ho a b, ipv4PrefixhostsLoop_comm ho f a b]

/-- **Host-aware prefixes are symmetric and no longer than the prefix.** On either host,
`scamper_addr_prefixhosts` gives the same result for `(x, y)` and `(y, x)`, and for two IPv4
addresses it returns a length no greater than what `scamper_addr_prefix` returns. -/
theorem scamperAddrPrefixhosts_comm_le (ho : HostOrder) (x y : ScamperAddr) :
    scamperAddrPrefixhosts ho x y = scamperAddrPrefixhosts ho y x ∧
      (x.type = .ipv4 → y.type = .ipv4 → ∃ L p : Nat,
        scamperAddrPrefixhosts ho x y = some (L : Int) ∧
        scamperAddrPrefix ho x y = some (p : Int) ∧ L ≤ p) := by
  refine ⟨?_, fun hx hy => ?_⟩
  · rw [scamperAddrPrefixhosts, scamperAddrPrefixhosts]
    by_cases hxy : x.type = y.type
    · rw [if_neg (not_not.mpr hxy), if_neg (not_not.mpr hxy.symm), hxy]
      cases y.type
      · exact ipv4PrefixhostsWith_comm ho _ _ _
      all_goals rfl
    · rw [if_pos hxy, if_pos (Ne.symm hxy)]
  obtain ⟨t, a, ha⟩ := x
  obtain ⟨t', b, hb⟩ := y
  dsimp only at hx hy ⊢
  subst hx hy
  obtain ⟨p, hp⟩ := exists_isCommonPrefix 32 a b
  have hpre := ipv4PrefixLoop_eq ho ha hb hp 32 le_rfl
  rw [Nat.min_eq_right hp.1] at hpre
  have hdispatch : scamperAddrPrefixhosts ho ⟨.ipv4, a, ha⟩ ⟨.ipv4, b, hb⟩ =
      ipv4PrefixhostsWith ho (tableAt uint32Hostmask) a b := rfl
  have hprefix := scamperAddrPrefix_eq ho (x := ⟨.ipv4, a, ha⟩) (y := ⟨.ipv4, b, hb⟩) (.inl rfl)
    rfl hp
  by_cases h31 : 31 ≤ p
  · exact ⟨p, p, by simp [hdispatch, ipv4PrefixhostsWith, hpre, h31], hprefix, le_rfl⟩
  · obtain ⟨L, hloop, hLp, -⟩ := ipv4PrefixhostsLoop_spec ho ha hb p (by omega)
    exact ⟨L, p, by simp [hdispatch, ipv4PrefixhostsWith, hpre, h31, hloop], hprefix, hLp⟩

end Scamper
