import Scamper.Addr.Basic

/-!
Prefix membership: `ipv4_inprefix`, the word loop of `ipv6_inprefix` in both builds, and
`scamper_addr_inprefix`.

* `scamperAddrInprefix_spec`: for a length from 0 to the address's bit width, the answer is
  whether the first `len` network bits of the address and the prefix agree, on either host
  and in either build, so `ipv6_inprefix` never reaches its last `return -1`; above the
  width the answer is `-1`.
* `scamperAddrInprefix_of_neg`: a negative length is not rejected, and indexes the mask
  table below 0.
-/

namespace Scamper

/-- `ipv4_inprefix(sa, p, len)` on the bytes `a` of the address and `p` of the prefix;
`none` is a read outside `uint32_netmask`. -/
def ipv4Inprefix (ho : HostOrder) (a p : List UInt8) (len : Int) : Option Int :=
  if len = 0 then some 1
  else if len > 32 then some (-1)
  else do
    let mask ← tableAt uint32Netmask (len - 1)
    pure (if (ho.load a ^^^ ho.load p) &&& htonl ho mask = 0 then 1 else 0)

/-- The byte swap of the mask in the word loop of `ipv6_inprefix`: `htonl`, or `htons` in the
`_WIN32` build. -/
def Build.hton (ho : HostOrder) : Build → Nat → Nat
  | .posix => htonl ho
  | .win32 => htons ho

theorem Build.hton_eq (ho : HostOrder) (b : Build) (x : Nat) :
    b.hton ho x = ho.load (beBytes b.wordBytes x) := by
  cases b <;> rfl

/-- The loop of `ipv6_inprefix` over the words of the address and of the prefix still to
check, with `len` bits left. A whole word is compared under the last mask entry, all ones,
with no byte swap. The `-1` when the words run out is the function's last `return -1`. -/
def ipv6InprefixLoop (ho : HostOrder) (b : Build) :
    List (List UInt8) → List (List UInt8) → Int → Option Int
  | w :: ws, v :: vs, len => do
    let mask ← if len > 8 * b.wordBytes then tableAt b.maskTable (8 * b.wordBytes - 1)
      else b.hton ho <$> tableAt b.maskTable (len - 1)
    if (ho.load w ^^^ ho.load v) &&& mask ≠ 0 then pure 0
    else if len ≤ 8 * b.wordBytes then pure 1
    else ipv6InprefixLoop ho b ws vs (len - 8 * b.wordBytes)
  | _, _, _ => some (-1)

/-- `ipv6_inprefix(sa, p, len)`. -/
def ipv6Inprefix (ho : HostOrder) (b : Build) (a p : List UInt8) (len : Int) : Option Int :=
  if len = 0 then some 1
  else if len > 128 then some (-1)
  else ipv6InprefixLoop ho b (words b.wordBytes b.wordCount a) (words b.wordBytes b.wordCount p) len

/-- `handlers[t-1].inprefix`; `none` where the table has `NULL`. -/
def AddrType.inprefix (ho : HostOrder) (b : Build) :
    AddrType → Option (List UInt8 → List UInt8 → Int → Option Int)
  | .ipv4 => some <| ipv4Inprefix ho
  | .ipv6 => some <| ipv6Inprefix ho b
  | .ethernet | .firewire => none

/-- `scamper_addr_inprefix(addr, p, len)`. -/
def scamperAddrInprefix (ho : HostOrder) (b : Build) (a : ScamperAddr) (p : List UInt8)
    (len : Int) : Option Int :=
  match a.type.inprefix ho b with
  | some inprefix => inprefix a.addr p len
  | none => some (-1)

/-! ### Lengths within the bit width -/

theorem maskTable_at (b : Build) {k : Nat} (hk : k < 8 * b.wordBytes) :
    tableAt b.maskTable k = some (prefixMask (8 * b.wordBytes) (k + 1)) := by
  rw [tableAt_natCast, b.maskTable_getElem? hk]

theorem ipv4Inprefix_eq (ho : HostOrder) {a p : List UInt8} (ha : a.length = 4)
    (hp : p.length = 4) {len : Nat} (hlen : len ≤ 32) :
    ipv4Inprefix ho a p len = some (if prefixAgree len a p then 1 else 0) := by
  rcases Nat.eq_zero_or_pos len with rfl | hpos
  · simp [prefixAgree, ipv4Inprefix]
  have hmask : tableAt uint32Netmask ((len : Int) - 1) = some (prefixMask (8 * 4) len) :=
    tableAt_sub_one uint32Netmask_getElem? hpos hlen
  simp only [hmask, htonl, ipv4Inprefix, if_neg (show (len : Int) ≠ 0 by omega),
    if_neg (show ¬ (len : Int) > 32 by omega), Option.bind_eq_bind, Option.some_bind,
    ho.load_xor_land_prefixMask_eq_zero_iff ha hp hlen]
  rfl

/-- The first word of `k + 1`, and the `k` after it. -/
theorem length_take_drop_word {n k : Nat} {a : List UInt8} (ha : a.length = n * (k + 1)) :
    (a.take n).length = n ∧ (a.drop n).length = n * k := by
  constructor
  · simp [ha, Nat.mul_succ]
  · simp [ha, Nat.mul_succ]

/-- **The word loop of `ipv6_inprefix`.** Over `k` words and a length from 1 to `8nk`, the
loop answers whether the first `len` network bits agree, and never runs out of words. -/
theorem ipv6InprefixLoop_eq (ho : HostOrder) (b : Build) :
    ∀ {k : Nat} {a p : List UInt8} {len : Nat}, a.length = b.wordBytes * k →
      p.length = b.wordBytes * k → 0 < len → len ≤ 8 * b.wordBytes * k →
      ipv6InprefixLoop ho b (words b.wordBytes k a) (words b.wordBytes k p) len =
        some (if prefixAgree len a p then 1 else 0)
  | 0, _, _, _, _, _, h0, hlen => by omega
  | k + 1, a, p, len, ha, hp, h0, hlen => by
    obtain ⟨hat, had⟩ := length_take_drop_word ha
    obtain ⟨hpt, hpd⟩ := length_take_drop_word hp
    have hsplit := prefixAgree_iff_take_drop b.wordBytes len a p
    rw [words, words, ipv6InprefixLoop]
    by_cases hgt : 8 * b.wordBytes < len
    · have hmask : tableAt b.maskTable (8 * (b.wordBytes : Int) - 1) =
          some (ho.load (beBytes b.wordBytes
            (prefixMask (8 * b.wordBytes) (8 * b.wordBytes)))) := by
        rw [show 8 * (b.wordBytes : Int) - 1 = ((8 * b.wordBytes - 1 : Nat) : Int) by
            have := b.wordBytes_pos; omega,
          maskTable_at b (by have := b.wordBytes_pos; omega),
          Nat.sub_add_cancel (by have := b.wordBytes_pos; omega), prefixMask_self,
          ho.load_beBytes_allOnes]
      rw [Nat.min_eq_right hgt.le] at hsplit
      simp only [if_pos (show (len : Int) > 8 * b.wordBytes by omega), hmask,
        Option.bind_eq_bind, Option.some_bind, ne_eq,
        ho.load_xor_land_prefixMask_eq_zero_iff hat hpt le_rfl,
        if_neg (show ¬ (len : Int) ≤ 8 * b.wordBytes by omega)]
      by_cases hw : prefixAgree (8 * b.wordBytes) (a.take b.wordBytes) (p.take b.wordBytes)
      · rw [show (len : Int) - 8 * b.wordBytes = ((len - 8 * b.wordBytes : Nat) : Int) by omega,
          ipv6InprefixLoop_eq ho b had hpd (by omega) (by rw [Nat.mul_succ] at hlen; omega)]
        simp [hw, hsplit]
      · simp [hw, hsplit]
    · have hmask : tableAt b.maskTable ((len : Int) - 1) =
          some (prefixMask (8 * b.wordBytes) len) :=
        tableAt_sub_one b.maskTable_getElem? h0 (by omega)
      rw [Nat.min_eq_left (by omega), Nat.sub_eq_zero_of_le (by omega)] at hsplit
      have hword := ho.load_xor_land_prefixMask_eq_zero_iff hat hpt
        (show len ≤ 8 * b.wordBytes by omega)
      simp only [if_neg (show ¬ (len : Int) > 8 * b.wordBytes by omega), hmask, Build.hton_eq,
        Option.map_eq_map, Option.map_some', Option.bind_eq_bind, Option.some_bind, ne_eq,
        hword, if_pos (show (len : Int) ≤ 8 * b.wordBytes by omega)]
      have hzero : prefixAgree 0 (a.drop b.wordBytes) (p.drop b.wordBytes) :=
        fun _ h => absurd h (by omega)
      by_cases hw : prefixAgree len (a.take b.wordBytes) (p.take b.wordBytes) <;>
        simp [hw, hsplit, hzero]

theorem ipv6Inprefix_eq (ho : HostOrder) (b : Build) {a p : List UInt8} (ha : a.length = 16)
    (hp : p.length = 16) {len : Nat} (hlen : len ≤ 128) :
    ipv6Inprefix ho b a p len = some (if prefixAgree len a p then 1 else 0) := by
  rcases Nat.eq_zero_or_pos len with rfl | hpos
  · simp [prefixAgree, ipv6Inprefix]
  have h16 := b.wordBytes_mul_wordCount
  unfold ipv6Inprefix
  rw [if_neg (by omega), if_neg (by omega),
    ipv6InprefixLoop_eq ho b (ha.trans h16.symm) (hp.trans h16.symm) hpos
      (by rw [Nat.mul_assoc, h16]; omega)]

/-- A length within the bit width of an IPv4 or IPv6 address answers whether its first `len`
network bits and the prefix's agree. -/
theorem scamperAddrInprefix_of_le (ho : HostOrder) (b : Build) {a : ScamperAddr}
    {p : List UInt8} (hty : a.type = .ipv4 ∨ a.type = .ipv6) (hp : p.length = a.type.size)
    {len : Nat} (hlen : len ≤ 8 * a.type.size) :
    scamperAddrInprefix ho b a p len = some (if prefixAgree len a.addr p then 1 else 0) := by
  obtain ⟨t, x, hx⟩ := a
  rcases hty with rfl | rfl
  · exact ipv4Inprefix_eq ho hx hp hlen
  · exact ipv6Inprefix_eq ho b hx hp hlen

/-- **Prefix membership.** For an IPv4 or IPv6 address and a prefix buffer of its width `W`,
on either host and in either build: every length from 0 to `W` answers 1 when the first
`len` network bits of the two agree and 0 otherwise, and every length above `W` answers
-1. -/
theorem scamperAddrInprefix_spec (ho : HostOrder) (b : Build) {a : ScamperAddr}
    {p : List UInt8} (hty : a.type = .ipv4 ∨ a.type = .ipv6) (hp : p.length = a.type.size) :
    (∀ len : Nat, len ≤ 8 * a.type.size →
      scamperAddrInprefix ho b a p len = some (if prefixAgree len a.addr p then 1 else 0)) ∧
    (∀ len : Int, 8 * (a.type.size : Int) < len → scamperAddrInprefix ho b a p len = some (-1)) := by
  refine ⟨fun len hlen => scamperAddrInprefix_of_le ho b hty hp hlen, fun len hlen => ?_⟩
  obtain ⟨t, x, hx⟩ := a
  dsimp only at hty hlen ⊢
  rcases hty with rfl | rfl
  · simp [AddrType.size, scamperAddrInprefix, AddrType.inprefix, ipv4Inprefix] at hlen ⊢
    rw [if_neg (by omega), if_pos hlen]
  · simp [AddrType.size, scamperAddrInprefix, AddrType.inprefix, ipv6Inprefix] at hlen ⊢
    rw [if_neg (by omega), if_pos hlen]

theorem scamperAddrInprefix_spec_ipv4 :
    ((⟨.ipv4, [192, 168, 1, 1], rfl⟩ : ScamperAddr).type = .ipv4 ∨
      (⟨.ipv4, [192, 168, 1, 1], rfl⟩ : ScamperAddr).type = .ipv6) ∧
    [192, 168, 0, 0].length = AddrType.ipv4.size ∧
    scamperAddrInprefix .littleEndian .posix ⟨.ipv4, [192, 168, 1, 1], rfl⟩ [192, 168, 0, 0] 16 =
      some 1 ∧
    scamperAddrInprefix .littleEndian .posix ⟨.ipv4, [192, 168, 1, 1], rfl⟩ [192, 168, 0, 0] 24 =
      some 0 := by
  have h := scamperAddrInprefix_spec .littleEndian .posix
    (a := ⟨.ipv4, [192, 168, 1, 1], rfl⟩) (p := [192, 168, 0, 0]) (.inl rfl) rfl
  exact ⟨.inl rfl, rfl, (h.1 16 (by decide)).trans (by decide),
    (h.1 24 (by decide)).trans (by decide)⟩

/-! ### Negative lengths -/

/-- The first word of the loop already reads the mask table at `len - 1`. -/
theorem ipv6InprefixLoop_of_neg (ho : HostOrder) (b : Build) {w v : List UInt8}
    {ws vs : List (List UInt8)} {len : Int} (hneg : len < 0) :
    ipv6InprefixLoop ho b (w :: ws) (v :: vs) len = none := by
  simp [ipv6InprefixLoop, tableAt_of_neg _ (show len - 1 < 0 by omega),
    show ¬ len > 8 * (b.wordBytes : Int) by omega]

/-- Neither `ipv4_inprefix` nor `ipv6_inprefix` rejects a negative length: it reaches
`uint32_netmask[len-1]` (or `uint16_mask[len-1]`), an index below the table. -/
theorem scamperAddrInprefix_of_neg (ho : HostOrder) (b : Build) {a : ScamperAddr}
    (p : List UInt8) (hty : a.type = .ipv4 ∨ a.type = .ipv6) {len : Int} (hneg : len < 0) :
    scamperAddrInprefix ho b a p len = none := by
  obtain ⟨t, x, hx⟩ := a
  dsimp only at hty
  rcases hty with rfl | rfl
  · simp [tableAt_of_neg _ (show len - 1 < 0 by omega), scamperAddrInprefix, AddrType.inprefix,
      ipv4Inprefix, show len ≠ 0 by omega, show ¬ 32 < len by omega]
  · have hcons : ∀ l : List UInt8, ∃ w ws, words b.wordBytes b.wordCount l = w :: ws := fun _ => by
      cases b <;> exact ⟨_, _, rfl⟩
    obtain ⟨w, ws, hw⟩ := hcons x
    obtain ⟨v, vs, hv⟩ := hcons p
    simp only [hw, hv, scamperAddrInprefix, AddrType.inprefix, ipv6Inprefix,
      if_neg (show len ≠ 0 by omega), if_neg (show ¬ len > 128 by omega),
      ipv6InprefixLoop_of_neg ho b hneg]

/-- At `len = -1` an IPv4 address reaches `uint32_netmask[-2]`. -/
theorem scamperAddrInprefix_minus_one :
    scamperAddrInprefix .littleEndian .posix ⟨.ipv4, [10, 0, 0, 1], rfl⟩ [10, 0, 0, 0] (-1) = none :=
  scamperAddrInprefix_of_neg .littleEndian .posix _ (.inl rfl) (by decide)

end Scamper
