import Scamper.Addr.Cmp

/-!
The text forms of `scamper_addr.c`: `ethernet_tostr` and `firewire_tostr` print each byte of
the address with `%02x`, colons between, through `snprintf`, and `scamper_addr_tostr` calls
the handler of the address's type. `ipv4_tostr` and `ipv6_tostr` hand the bytes to
`addr_tostr`, which is not in this file: the dispatcher takes what it writes as a parameter.

* `length_colonHex`, `scamperAddrTostr_of_link`: the text of an `n`-byte address has
  `3 n - 1` characters, so a buffer of 18 bytes (Ethernet) or 24 (FireWire) holds all of it;
* `colonHex_injective`, `colonHex_lt_iff`: the text determines the bytes, and on byte strings
  of one length the order of the texts is the byte order;
* `scamperAddrTostr_link_order`: so two link-layer addresses of one type print alike exactly
  when they are equal, and their texts sort as `scamper_addr_cmp` sorts the addresses.
-/

namespace Scamper

/-! ### The formats -/

/-- The digit `%x` prints for a value below 16. -/
def hexDigit (n : Nat) : Char :=
  if n < 10 then Char.ofNat (48 + n) else Char.ofNat (87 + n)

/-- `%02x` of a `uint8_t`: two lower-case hexadecimal digits, the high half first. -/
def hex02 (b : UInt8) : List Char :=
  [hexDigit (b.toNat / 16), hexDigit (b.toNat % 16)]

@[simp] theorem length_hex02 (b : UInt8) : (hex02 b).length = 2 := rfl

/-- The text of `"%02x:%02x:…:%02x"` with one `%02x` for each byte. -/
def colonHex : List UInt8 → List Char
  | [] => []
  | [b] => hex02 b
  | b :: bs => hex02 b ++ ':' :: colonHex bs

/-- The C string `snprintf(buf, len, …)` leaves in `buf` when the text it formats is `s`: its
first `len - 1` characters, and `none` for `len` 0, when `buf` is not written. -/
def snprintfStr (len : Nat) (s : List Char) : Option (List Char) :=
  if len = 0 then none else some (s.take (len - 1))

/-- `ethernet_tostr(addr, buf, len)`: `mac[0]` to `mac[5]` through
`"%02x:%02x:%02x:%02x:%02x:%02x"`. -/
def ethernetTostr (a : List UInt8) (len : Nat) : Option (List Char) :=
  snprintfStr len (colonHex (a.take 6))

/-- `firewire_tostr(addr, buf, len)`: `lla[0]` to `lla[7]` through
`"%02x:%02x:%02x:%02x:%02x:%02x:%02x:%02x"`. -/
def firewireTostr (a : List UInt8) (len : Nat) : Option (List Char) :=
  snprintfStr len (colonHex (a.take 8))

/-- `scamper_addr_tostr(sa, dst, size)`: `handlers[sa->type-1].tostr`. `ipv4_tostr` and
`ipv6_tostr` call `addr_tostr`, which is not in this file, with `AF_INET` and `AF_INET6`:
`addrTostr af addr size` is what it leaves in `dst`. -/
def scamperAddrTostr (addrTostr : Int → List UInt8 → Nat → Option (List Char))
    (afInet afInet6 : Int) (sa : ScamperAddr) (size : Nat) : Option (List Char) :=
  match sa.type with
  | .ipv4 => addrTostr afInet sa.addr size
  | .ipv6 => addrTostr afInet6 sa.addr size
  | .ethernet => ethernetTostr sa.addr size
  | .firewire => firewireTostr sa.addr size

/-! ### Digits -/

theorem toNat_hexDigit {n : Nat} (h : n < 16) :
    (hexDigit n).toNat = if n < 10 then 48 + n else 87 + n := by
  have : ∀ k : Fin 16, (hexDigit k).toNat = if k.val < 10 then 48 + k.val else 87 + k.val := by
    decide
  exact this ⟨n, h⟩

theorem hexDigit_lt_hexDigit {m n : Nat} (hm : m < 16) (hn : n < 16) :
    hexDigit m < hexDigit n ↔ m < n := by
  show (hexDigit m).toNat < (hexDigit n).toNat ↔ m < n
  rw [toNat_hexDigit hm, toNat_hexDigit hn]
  split_ifs <;> omega

theorem hexDigit_inj {m n : Nat} (hm : m < 16) (hn : n < 16) :
    hexDigit m = hexDigit n ↔ m = n := by
  refine ⟨fun h => ?_, congrArg _⟩
  have := congrArg Char.toNat h
  rw [toNat_hexDigit hm, toNat_hexDigit hn] at this
  split_ifs at this <;> omega

/-! ### The order of texts

Texts are ordered by core Lean's lexicographic `List.lt` on their characters, stated by name:
a file that imports all of Mathlib orders lists by another, equivalent instance. -/

@[simp] theorem listLt_irrefl (l : List Char) : ¬List.lt l l :=
  List.lt_irrefl (fun c : Char => Nat.lt_irrefl c.toNat) l

theorem listLt_cons_cons_iff {a b : Char} {as bs : List Char} :
    List.lt (a :: as) (b :: bs) ↔ a < b ∨ a = b ∧ List.lt as bs := by
  constructor
  · rintro (_ | ⟨_, _, h⟩ | ⟨h1, h2, h⟩)
    · exact .inl h
    · refine .inr ⟨?_, h⟩
      rw [← Char.ofNat_toNat a, ← Char.ofNat_toNat b]
      exact congrArg _ (Nat.le_antisymm (Nat.not_lt.mp h2) (Nat.not_lt.mp h1))
  · rintro (h | ⟨rfl, h⟩)
    · exact .head _ _ h
    · exact .tail (Nat.lt_irrefl _) (Nat.lt_irrefl _) h

theorem listLt_append_iff {u v x y : List Char} (h : u.length = v.length) :
    List.lt (u ++ x) (v ++ y) ↔ List.lt u v ∨ u = v ∧ List.lt x y := by
  induction u generalizing v with
  | nil => cases v with
    | nil => simp
    | cons => simp at h
  | cons a u ih => cases v with
    | nil => simp at h
    | cons b v =>
      simp only [List.cons_append, listLt_cons_cons_iff, ih (Nat.succ.inj h), List.cons.injEq,
        and_or_left, or_assoc, and_assoc]

/-- The two digits of a byte, each below 16. -/
theorem toNat_div_mod_lt (b : UInt8) : b.toNat / 16 < 16 ∧ b.toNat % 16 < 16 := by
  have : b.toNat < 256 := b.toNat_lt_size
  omega

theorem hex02_lt_hex02 {a b : UInt8} : List.lt (hex02 a) (hex02 b) ↔ a.toNat < b.toNat := by
  obtain ⟨ha1, ha2⟩ := toNat_div_mod_lt a
  obtain ⟨hb1, hb2⟩ := toNat_div_mod_lt b
  simp only [hex02, listLt_cons_cons_iff, hexDigit_lt_hexDigit ha1 hb1, hexDigit_inj ha1 hb1,
    hexDigit_lt_hexDigit ha2 hb2, listLt_irrefl, and_false, or_false]
  omega

theorem hex02_inj {a b : UInt8} : hex02 a = hex02 b ↔ a = b := by
  obtain ⟨ha1, ha2⟩ := toNat_div_mod_lt a
  obtain ⟨hb1, hb2⟩ := toNat_div_mod_lt b
  simp only [hex02, List.cons.injEq, hexDigit_inj ha1 hb1, hexDigit_inj ha2 hb2, and_true]
  refine ⟨fun h => UInt8.toNat.inj (by omega), fun h => by subst h; simp⟩

/-! ### The text of a byte string -/

theorem colonHex_cons_cons (a b : UInt8) (bs : List UInt8) :
    colonHex (a :: b :: bs) = hex02 a ++ ':' :: colonHex (b :: bs) := rfl

theorem length_colonHex : ∀ bs : List UInt8, (colonHex bs).length = 3 * bs.length - 1
  | [] | [_] => rfl
  | a :: b :: bs => by
    rw [colonHex_cons_cons, List.length_append, List.length_cons, length_colonHex (b :: bs)]
    simp only [hex02, List.length_cons, List.length_nil]
    omega

/-- On byte strings of one length the order of the texts is the byte order `memcmp` reads. -/
theorem colonHex_lt_iff : ∀ {x y : List UInt8}, x.length = y.length →
    (List.lt (colonHex x) (colonHex y) ↔ wordsCmp (x.map UInt8.toNat) (y.map UInt8.toNat) < 0)
  | [], [], _ => iff_of_false (listLt_irrefl []) (Int.lt_irrefl 0)
  | [a], [b], _ => by
    rw [colonHex, colonHex, hex02_lt_hex02, List.map_singleton, List.map_singleton, wordsCmp_cons,
      wordsCmp_nil_left]
    split_ifs with h
    · simp [h]
    · exact cmpNat_neg_iff.symm
  | a :: c :: xs, b :: d :: ys, h => by
    rw [colonHex_cons_cons, colonHex_cons_cons,
      listLt_append_iff ((length_hex02 a).trans (length_hex02 b).symm), hex02_lt_hex02, hex02_inj,
      listLt_cons_cons_iff, colonHex_lt_iff (by simpa using h), List.map_cons (a := a),
      List.map_cons (a := b), wordsCmp_cons]
    by_cases hab : a = b
    · subst hab; simp
    · have hne : a.toNat ≠ b.toNat := fun h => hab (UInt8.toNat.inj h)
      simp [hab, hne, cmpNat_neg_iff]
  | [], _ :: _, h | _ :: _, [], h | [_], _ :: _ :: _, h | _ :: _ :: _, [_], h => by simp at h

/-- Two byte strings print the same text only when they are equal. -/
theorem colonHex_injective : Function.Injective colonHex := by
  intro x y h
  have hlen : x.length = y.length := by
    have := congrArg List.length h
    rw [length_colonHex, length_colonHex] at this
    omega
  have hxy := (colonHex_lt_iff hlen).not.mp (h ▸ listLt_irrefl _)
  have hyx := (colonHex_lt_iff hlen.symm).not.mp (h ▸ listLt_irrefl _)
  rw [wordsCmp_swap] at hyx
  have hmap := (wordsCmp_eq_zero_iff (x := x.map UInt8.toNat) (y := y.map UInt8.toNat)
    (by simpa using hlen)).mp (by omega)
  exact List.map_injective_iff.mpr (fun _ _ => UInt8.toNat.inj) hmap

theorem snprintfStr_of_lt {len : Nat} {s : List Char} (h : s.length < len) :
    snprintfStr len s = some s := by
  rw [snprintfStr, if_neg (by omega), List.take_of_length_le (by omega)]

/-! ### `scamper_addr_tostr` of a link-layer address -/

section Tostr

variable {addrTostr : Int → List UInt8 → Nat → Option (List Char)} {afInet afInet6 : Int}

/-- Into a buffer of at least three bytes per address byte, the text of an Ethernet or
FireWire address is written whole. -/
theorem scamperAddrTostr_of_link {sa : ScamperAddr}
    (ht : sa.type = .ethernet ∨ sa.type = .firewire) {size : Nat}
    (hsize : 3 * sa.type.size ≤ size) :
    scamperAddrTostr addrTostr afInet afInet6 sa size = some (colonHex sa.addr) := by
  obtain ⟨t, x, hx⟩ := sa
  rcases ht with rfl | rfl <;> simp only [AddrType.size] at hx hsize <;>
    simp only [scamperAddrTostr, ethernetTostr, firewireTostr, List.take_of_length_le hx.le,
      snprintfStr_of_lt (show (colonHex x).length < size by rw [length_colonHex, hx]; omega)]

example : scamperAddrTostr (fun _ _ _ => none) 2 10
    ⟨.ethernet, [0x00, 0x1b, 0x21, 0xff, 0x0a, 0x9c], rfl⟩ 18 =
      some "00:1b:21:ff:0a:9c".toList := by
  decide

/-- **The text of a link-layer address.** Into a buffer of at least three bytes per address
byte (18 for Ethernet, 24 for FireWire), `scamper_addr_tostr` writes all of an Ethernet or
FireWire address's text: two hexadecimal digits per byte and a colon between bytes, so
`3 n - 1` characters for `n` bytes. Two addresses of one such type get the same text
exactly when they are equal, and their texts compare lexicographically the way
`scamper_addr_cmp` compares the addresses. -/
theorem scamperAddrTostr_link_order (ho : HostOrder) (build : Build) {a b : ScamperAddr}
    (ht : a.type = .ethernet ∨ a.type = .firewire) (hab : a.type = b.type) {size : Nat}
    (hsize : 3 * a.type.size ≤ size) :
    ∃ sa sb, scamperAddrTostr addrTostr afInet afInet6 a size = some sa ∧
      scamperAddrTostr addrTostr afInet afInet6 b size = some sb ∧
      sa.length = 3 * a.type.size - 1 ∧ (sa = sb ↔ a = b) ∧
      (List.lt sa sb ↔ addrCmp ho build a b < 0) := by
  refine ⟨_, _, scamperAddrTostr_of_link ht hsize,
    scamperAddrTostr_of_link (hab ▸ ht) (hab ▸ hsize), by rw [length_colonHex, a.addr_length],
    ⟨fun h => ScamperAddr.ext hab (colonHex_injective h), fun h => h ▸ rfl⟩, ?_⟩
  have hlen : a.addr.length = b.addr.length := by rw [a.addr_length, b.addr_length, hab]
  rw [colonHex_lt_iff hlen, addrCmp, if_pos hab, ← sign_memcmp rfl hlen.symm]
  rcases ht with ht | ht <;> simp only [ht, a.addr_length, AddrType.size, AddrType.cmp,
    ethernetCmp, firewireCmp, ← Int.not_le, Int.sign_nonneg]

theorem scamperAddrTostr_link_order_ethernet :
    let a : ScamperAddr := ⟨.ethernet, [0, 0x1b, 0x21, 0x3a, 0x4c, 0x5d], rfl⟩
    let b : ScamperAddr := ⟨.ethernet, [0, 0x1b, 0x21, 0x3a, 0x4c, 0x5e], rfl⟩
    (a.type = .ethernet ∨ a.type = .firewire) ∧ a.type = b.type ∧ 3 * a.type.size ≤ 18 ∧
      ∃ sa sb, scamperAddrTostr (fun _ _ _ => none) 2 10 a 18 = some sa ∧
        scamperAddrTostr (fun _ _ _ => none) 2 10 b 18 = some sb ∧
        sa.length = 3 * a.type.size - 1 ∧ (sa = sb ↔ a = b) ∧
        (List.lt sa sb ↔ addrCmp .littleEndian .posix a b < 0) := by
  intro a b
  have hsize : 3 * a.type.size ≤ 18 := by decide
  exact ⟨.inl rfl, rfl, hsize, scamperAddrTostr_link_order .littleEndian .posix (a := a) (b := b)
    (.inl rfl) rfl hsize⟩

end Tostr

end Scamper

