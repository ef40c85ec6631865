import Scamper.Addr.Inprefix

/-!
Network addresses: `ipv4_netaddr`, `ipv6_netaddr` and `scamper_addr_netaddr`.

A result is the return code and the bytes written at `net` (`none` when nothing is
written). `scamperAddrNetaddr_spec`: for an IPv4 or IPv6 address and a length from 1 to its
bit width, on either host, the call returns 0 and writes the address's first `netlen`
network bits followed by zeros; two addresses of one type get the same network address
exactly when `scamper_addr_inprefix` puts one in the other's prefix of `netlen` bits; any
other length returns -1 and writes nothing. `scamperAddrNetaddr_idem`: the network address
of a network address is itself, and contains the address it was taken from.
-/

namespace Scamper

/-- `ipv4_netaddr(sa, net, netlen)`. -/
def ipv4Netaddr (ho : HostOrder) (a : List UInt8) (netlen : Int) :
    Option (Int × Option (List UInt8)) :=
  if netlen ≤ 0 ∨ netlen > 32 then some (-1, none)
  else do
    let mask ← tableAt uint32Netmask (netlen - 1)
    pure (0, some (ho.store 4 (htonl ho (ntohl ho (ho.load a) &&& mask))))

/-- The loop of `ipv6_netaddr` over the `s6_addr32` words of the address still to visit,
`nl` bits left: the words it leaves in `p`. Words after the one it breaks at keep the zeros
of the `memset`. -/
def ipv6NetaddrLoop (ho : HostOrder) : List (List UInt8) → Int → Option (List Nat)
  | [], _ => some []
  | w :: ws, nl => do
    let word ← if nl ≥ 32 then pure (ho.load w)
      else do
        let mask ← tableAt uint32Netmask (nl - 1)
        pure (htonl ho (ntohl ho (ho.load w) &&& mask))
    if nl ≤ 32 then pure (word :: ws.map fun _ => 0)
    else (word :: ·) <$> ipv6NetaddrLoop ho ws (nl - 32)

/-- `ipv6_netaddr(sa, net, nl)`: the bytes of `p` are copied to `net`. -/
def ipv6Netaddr (ho : HostOrder) (a : List UInt8) (nl : Int) :
    Option (Int × Option (List UInt8)) :=
  if nl ≤ 0 ∨ nl > 128 then some (-1, none)
  else do
    let p ← ipv6NetaddrLoop ho (words 4 4 a) nl
    pure (0, some (p.map (ho.store 4)).flatten)

/-- `handlers[t-1].netaddr`; `none` where the table has `NULL`. -/
def AddrType.netaddr (ho : HostOrder) :
    AddrType → Option (List UInt8 → Int → Option (Int × Option (List UInt8)))
  | .ipv4 => some (ipv4Netaddr ho)
  | .ipv6 => some (ipv6Netaddr ho)
  | .ethernet | .firewire => none

/-- `scamper_addr_netaddr(a, net, netlen)`. -/
def scamperAddrNetaddr (ho : HostOrder) (a : ScamperAddr) (netlen : Int) :
    Option (Int × Option (List UInt8)) :=
  match a.type.netaddr ho with
  | some netaddr => netaddr a.addr netlen
  | none => some (-1, none)

/-! ### The bytes written -/

/-- `out` is the network address of `a` under a prefix of `len` bits: as long as `a`, with
`a`'s first `len` network bits and zeros after them. -/
def IsNetaddr (len : Nat) (a out : List UInt8) : Prop :=
  out.length = a.length ∧ ∀ i < 8 * a.length, netBit out i = (decide (i < len) && netBit a i)

/-- Two network addresses under one prefix length are equal exactly when the addresses agree
on that prefix. -/
theorem IsNetaddr.eq_iff {len : Nat} {a b outa outb : List UInt8} (hab : a.length = b.length)
    (hlen : len ≤ 8 * a.length) (ha : IsNetaddr len a outa) (hb : IsNetaddr len b outb) :
    outa = outb ↔ prefixAgree len a b := by
  constructor
  · rintro rfl i hi
    have := (ha.2 i (by omega)).symm.trans (hb.2 i (by omega))
    simpa [hi] using this
  · intro h
    refine eq_of_netBit_eq (ha.1.trans (hab.trans hb.1.symm)) fun i hi => ?_
    rw [ha.1] at hi
    rw [ha.2 i hi, hb.2 i (by omega)]
    by_cases hil : i < len
    · simp [hil, h i hil]
    · simp [hil]


@[simp] theorem HostOrder.length_store (ho : HostOrder) (n x : Nat) :
    (ho.store n x).length = n := by
  simp [HostOrder.store]

theorem netBit_of_forall_eq_zero {bs : List UInt8} (h : ∀ x ∈ bs, x = 0) (i : Nat) :
    netBit bs i = false := by
  induction bs generalizing i with
  | nil => rfl
  | cons b bs ih =>
    rw [netBit, h b (.head _), ih (fun x hx => h x (.tail _ hx))]
    simp

theorem HostOrder.store_zero (ho : HostOrder) : ho.store 4 0 = [0, 0, 0, 0] := by
  cases ho <;> rfl

/-- The network address of one 4-byte word: its first `len` bits, then zeros. -/
theorem netBit_beBytes_land_prefixMask {a : List UInt8} (ha : a.length = 4) {len i : Nat}
    (hlen : len ≤ 32) (hi : i < 32) :
    netBit (beBytes 4 (beValue a &&& prefixMask 32 len)) i = (decide (i < len) && netBit a i) := by
  rw [netBit_beBytes (show i < 8 * 4 by omega), Nat.testBit_and, testBit_beValue,
    testBit_prefixMask hlen, ha, show 8 * 4 - 1 - (8 * 4 - 1 - i) = i by omega]
  rw [decide_eq_true (show 8 * 4 - 1 - i < 8 * 4 by omega), Bool.true_and, Bool.and_comm]
  congr 1
  exact decide_eq_decide.mpr (by omega)

/-- What `ipv4_netaddr` writes for a length it accepts. -/
theorem ipv4Netaddr_eq (ho : HostOrder) {a : List UInt8} (ha : a.length = 4) {len : Nat}
    (h1 : 1 ≤ len) (hlen : len ≤ 32) :
    ipv4Netaddr ho a len = some (0, some (beBytes 4 (beValue a &&& prefixMask 32 len))) := by
  simp only [ipv4Netaddr, if_neg (show ¬ ((len : Int) ≤ 0 ∨ (len : Int) > 32) by omega),
    tableAt_sub_one uint32Netmask_getElem? h1 hlen,
    Option.bind_eq_bind, Option.some_bind, ntohl_load ho ha, store_htonl, Option.pure_def]

theorem netBit_flatten_store_cons (ho : HostOrder) (w : Nat) (rest : List Nat) (i : Nat) :
    netBit ((w :: rest).map (ho.store 4)).flatten i =
      if i < 32 then netBit (ho.store 4 w) i
      else netBit (rest.map (ho.store 4)).flatten (i - 32) := by
  rw [List.map_cons, List.flatten_cons, netBit_append, ho.length_store]

theorem netBit_flatten_store_zeros (ho : HostOrder) {α : Type} (l : List α) (i : Nat) :
    netBit ((l.map fun _ => (0 : Nat)).map (ho.store 4)).flatten i = false :=
  netBit_of_forall_eq_zero (fun x hx => by
    simp only [List.map_map, List.mem_flatten, List.mem_map] at hx
    obtain ⟨_, ⟨_, _, rfl⟩, hx⟩ := hx
    simpa [ho.store_zero] using hx) i

/-- **The word loop of `ipv6_netaddr`.** Over `k` words and a length from 1 to `32k`, the
bytes of the words it leaves are the first `nl` bits of the address, then zeros. -/
theorem ipv6NetaddrLoop_spec (ho : HostOrder) :
    ∀ {k : Nat} {a : List UInt8} {nl : Nat}, a.length = 4 * k → 1 ≤ nl → nl ≤ 32 * k →
      ∃ p, ipv6NetaddrLoop ho (words 4 k a) nl = some p ∧ p.length = k ∧
        ∀ i < 32 * k, netBit (p.map (ho.store 4)).flatten i = (decide (i < nl) && netBit a i)
  | 0, _, _, _, h1, hnl => by omega
  | k + 1, a, nl, ha, h1, hnl => by
    obtain ⟨hat, had⟩ := length_take_drop_word (n := 4) ha
    have htail : ∀ (word : Nat),
        (∀ i < 32, netBit (ho.store 4 word) i = (decide (i < nl) && netBit a i)) →
        nl ≤ 32 → ∀ i < 32 * (k + 1),
          netBit ((word :: (words 4 k (a.drop 4)).map fun _ => 0).map (ho.store 4)).flatten i =
            (decide (i < nl) && netBit a i) := fun word hword hlast i hi => by
      rw [netBit_flatten_store_cons]
      split_ifs with hi'
      · exact hword i hi'
      · rw [netBit_flatten_store_zeros]
        simp [show ¬ i < nl by omega]
    rcases Nat.lt_trichotomy nl 32 with hlt | rfl | hgt
    · have hmask : tableAt uint32Netmask ((nl : Int) - 1) = some (prefixMask 32 nl) :=
        tableAt_sub_one uint32Netmask_getElem? h1 hlt.le
      refine ⟨htonl ho (beValue (a.take 4) &&& prefixMask 32 nl) :: (words 4 k (a.drop 4)).map
        fun _ => 0, ?_, by simp, htail _ (fun i hi => ?_) hlt.le⟩
      · simp only [words, ipv6NetaddrLoop, if_neg (show ¬ (nl : Int) ≥ 32 by omega), hmask,
          if_pos (show (nl : Int) ≤ 32 by omega), Option.pure_def, Option.bind_eq_bind,
          Option.some_bind, ntohl_load ho hat]
      · rw [store_htonl, netBit_beBytes_land_prefixMask hat hlt.le hi,
          netBit_take (show i < 8 * 4 by omega)]
    · refine ⟨ho.load (a.take 4) :: (words 4 k (a.drop 4)).map fun _ => 0, ?_, by simp,
        htail _ (fun i hi => ?_) le_rfl⟩
      · simp [words, ipv6NetaddrLoop, Option.pure_def]
      · rw [ho.store_load hat, netBit_take (show i < 8 * 4 by omega)]
        simp [hi]
    · obtain ⟨p, hp, hplen, hbits⟩ :=
        ipv6NetaddrLoop_spec ho had (show 1 ≤ nl - 32 by omega) (show nl - 32 ≤ 32 * k by omega)
      refine ⟨ho.load (a.take 4) :: p, ?_, by simp [hplen], fun i hi => ?_⟩
      · simp only [words, ipv6NetaddrLoop, if_pos (show (nl : Int) ≥ 32 by omega),
          if_neg (show ¬ (nl : Int) ≤ 32 by omega), Option.pure_def, Option.bind_eq_bind,
          Option.some_bind, show (nl : Int) - 32 = ((nl - 32 : Nat) : Int) by omega, hp]
        rfl
      · rw [netBit_flatten_store_cons, ho.store_load hat]
        split_ifs with hi'
        · simp [netBit_take (show i < 8 * 4 by omega), show i < nl by omega]
        · rw [hbits (i - 32) (by omega), netBit_drop, show 8 * 4 + (i - 32) = i by omega]
          congr 1
          exact decide_eq_decide.mpr (by omega)

theorem scamperAddrNetaddr_eq (ho : HostOrder) {x : ScamperAddr}
    (hty : x.type = .ipv4 ∨ x.type = .ipv6) {netlen : Nat} (h1 : 1 ≤ netlen)
    (hlen : netlen ≤ 8 * x.type.size) :
    ∃ out, scamperAddrNetaddr ho x netlen = some (0, some out) ∧ IsNetaddr netlen x.addr out := by
  obtain ⟨t, a, ha⟩ := x
  dsimp only at hty hlen ⊢
  rcases hty with rfl | rfl
  · refine ⟨_, ipv4Netaddr_eq ho ha h1 hlen, by simp [ha, AddrType.size], fun i hi => ?_⟩
    exact netBit_beBytes_land_prefixMask ha hlen (by simpa [ha] using hi)
  · obtain ⟨p, hp, hplen, hbits⟩ := ipv6NetaddrLoop_spec ho (k := 4) ha h1 hlen
    refine ⟨(p.map (ho.store 4)).flatten, ?_, ?_, fun i hi => hbits i (by simpa [ha] using hi)⟩
    · simp only [scamperAddrNetaddr, AddrType.netaddr, ipv6Netaddr,
        if_neg (show ¬ ((netlen : Int) ≤ 0 ∨ (netlen : Int) > 128) by
          simp [AddrType.size] at hlen; omega),
        hp, Option.bind_eq_bind, Option.some_bind, Option.pure_def]
    · simp [List.length_flatten, hplen, ha, AddrType.size, List.map_map, Function.comp_def]

/-- **Network addresses.** For an IPv4 or IPv6 address of width `W`, on either host: every
length from 1 to `W` returns 0 and writes the address's first `netlen` network bits
followed by zeros, `W / 8` bytes in all; two addresses of one type get the same result
exactly when `scamper_addr_inprefix` (of either build) finds the second in the first's
prefix of `netlen` bits; and every other length returns -1 and writes nothing. -/
theorem scamperAddrNetaddr_spec (ho : HostOrder) (b : Build) {x : ScamperAddr}
    (hty : x.type = .ipv4 ∨ x.type = .ipv6) :
    (∀ netlen : Nat, 1 ≤ netlen → netlen ≤ 8 * x.type.size →
      ∃ out, scamperAddrNetaddr ho x netlen = some (0, some out) ∧ IsNetaddr netlen x.addr out) ∧
    (∀ netlen : Nat, 1 ≤ netlen → netlen ≤ 8 * x.type.size → ∀ y : ScamperAddr, y.type = x.type →
      (scamperAddrNetaddr ho x netlen = scamperAddrNetaddr ho y netlen ↔
        scamperAddrInprefix ho b y x.addr netlen = some 1)) ∧
    (∀ netlen : Int, netlen ≤ 0 ∨ 8 * (x.type.size : Int) < netlen →
      scamperAddrNetaddr ho x netlen = some (-1, none)) := by
  refine ⟨fun _ => scamperAddrNetaddr_eq ho hty, fun netlen h1 hlen y hyx => ?_, fun netlen h => ?_⟩
  · obtain ⟨outx, hx, hox⟩ := scamperAddrNetaddr_eq ho hty h1 hlen
    obtain ⟨outy, hy, hoy⟩ := scamperAddrNetaddr_eq ho (hyx ▸ hty) h1 (hyx ▸ hlen)
    have hlx : x.addr.length = y.addr.length := by rw [x.addr_length, y.addr_length, hyx]
    rw [hx, hy, scamperAddrInprefix_of_le ho b (hyx ▸ hty) (by rw [hyx]; exact x.addr_length)
      (hyx ▸ hlen)]
    simp only [Option.some.injEq, Prod.mk.injEq, true_and]
    rw [hox.eq_iff hlx (by rw [x.addr_length]; exact hlen) hoy]
    constructor
    · intro h; simp [fun i hi => (h i hi).symm, show prefixAgree netlen y.addr x.addr from
        fun i hi => (h i hi).symm]
    · intro h
      split_ifs at h with hag
      · exact fun i hi => (hag i hi).symm
      · exact absurd h (by decide)
  · obtain ⟨t, a, ha⟩ := x
    dsimp only at hty h ⊢
    rcases hty with rfl | rfl
    · simp [scamperAddrNetaddr, AddrType.netaddr, ipv4Netaddr, AddrType.size] at h ⊢
      omega
    · simp [scamperAddrNetaddr, AddrType.netaddr, ipv6Netaddr, AddrType.size] at h ⊢
      omega

theorem scamperAddrNetaddr_spec_ipv4 :
    (AddrType.ipv4 = .ipv4 ∨ AddrType.ipv4 = .ipv6) ∧
    ∃ out, scamperAddrNetaddr .littleEndian ⟨.ipv4, [192, 168, 1, 77], rfl⟩ 24 = some (0, some out) ∧
      IsNetaddr 24 [192, 168, 1, 77] out :=
  ⟨.inl rfl, (scamperAddrNetaddr_spec .littleEndian .posix (x := ⟨.ipv4, [192, 168, 1, 77], rfl⟩)
    (.inl rfl)).1 24 (by decide) (by decide)⟩

example : scamperAddrNetaddr .littleEndian ⟨.ipv4, [192, 168, 1, 77], rfl⟩ 24 =
    some (0, some [192, 168, 1, 0]) := by
  decide


/-- Taking the network address again changes nothing. -/
theorem IsNetaddr.idem {len : Nat} {a out out' : List UInt8} (h : IsNetaddr len a out)
    (h' : IsNetaddr len out out') : out' = out := by
  refine eq_of_netBit_eq h'.1 fun i hi => ?_
  rw [h'.1] at hi
  rw [h'.2 i hi, h.2 i (h.1 ▸ hi)]
  cases decide (i < len) <;> rfl

/-- **A network address is its own network address.** For an IPv4 or IPv6 address `x` and a
length from 1 to its bit width, on either host, `scamper_addr_netaddr` writes bytes `out`
whose network address under the same length is `out` again, and `scamper_addr_inprefix` (of
either build) puts `x` in the prefix of `netlen` bits of `out`. -/
theorem scamperAddrNetaddr_idem (ho : HostOrder) (b : Build) {x : ScamperAddr}
    (hty : x.type = .ipv4 ∨ x.type = .ipv6) {netlen : Nat} (h1 : 1 ≤ netlen)
    (hlen : netlen ≤ 8 * x.type.size) :
    ∃ out, ∃ hout : out.length = x.type.size,
      scamperAddrNetaddr ho x netlen = some (0, some out) ∧
      scamperAddrNetaddr ho ⟨x.type, out, hout⟩ netlen = some (0, some out) ∧
      scamperAddrInprefix ho b ⟨x.type, out, hout⟩ x.addr netlen = some 1 := by
  obtain ⟨out, hx, hox⟩ := scamperAddrNetaddr_eq ho hty h1 hlen
  have hout : out.length = x.type.size := hox.1.trans x.addr_length
  obtain ⟨out', hx', hox'⟩ := scamperAddrNetaddr_eq ho (x := ⟨x.type, out, hout⟩) hty h1 hlen
  obtain rfl := hox.idem hox'
  refine ⟨out', hout, hx, hx', ?_⟩
  rw [scamperAddrInprefix_of_le ho b (a := ⟨x.type, out', hout⟩) hty x.addr_length hlen, if_pos]
  intro i hi
  rw [hox.2 i (by rw [x.addr_length]; omega)]
  simp [hi]

theorem scamperAddrNetaddr_idem_ipv6 :
    let x : ScamperAddr := ⟨.ipv6, [0x20, 0x01, 0x0d, 0xb8, 0, 0, 0, 0, 0, 0, 0, 0, 0, 0, 0, 1], rfl⟩
    (x.type = .ipv4 ∨ x.type = .ipv6) ∧ 1 ≤ 48 ∧ 48 ≤ 8 * x.type.size ∧
      ∃ out, ∃ hout : out.length = x.type.size,
        scamperAddrNetaddr .littleEndian x 48 = some (0, some out) ∧
        scamperAddrNetaddr .littleEndian ⟨x.type, out, hout⟩ 48 = some (0, some out) ∧
        scamperAddrInprefix .littleEndian .win32 ⟨x.type, out, hout⟩ x.addr 48 = some 1 := by
  intro x
  exact ⟨.inr rfl, by decide, by decide,
    scamperAddrNetaddr_idem .littleEndian .win32 (.inr rfl) (by decide) (by decide)⟩

end Scamper
