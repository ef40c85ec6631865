import Mathlib.Data.Nat.Bitwise
import Mathlib.Data.List.Basic

/-!
Byte strings in network bit order, and how a host of either byte order reads them as
integers.

`scamper_addr.c` reads IPv4 and IPv6 addresses as machine words (`s_addr`,
`s6_addr32[i]`, `u.Word[i]`) and moves between the two orders with `htonl`, `ntohl`,
`htons` and `ntohs`. Every statement here holds for both byte orders:

* `testBit_beValue`: bit `j` of a most-significant-first reading is network bit
  `8n - 1 - j`;
* `HostOrder.load_xor_land_eq_zero_iff`: a masked word comparison, on either host,
  compares the network bits where the network-order mask is set;
* `eq_of_netBit_eq`: a byte string is determined by its network bits.
-/

namespace Scamper

theorem UInt8.testBit_toNat_of_le (b : UInt8) {i : Nat} (h : 8 ≤ i) :
    b.toNat.testBit i = false :=
  Nat.testBit_lt_two_pow (lt_of_lt_of_le b.toNat_lt_size (Nat.pow_le_pow_right (Nat.succ_pos 1) h))

theorem UInt8.toNat_ofNat (n : Nat) : (UInt8.ofNat n).toNat = n % 2 ^ 8 :=
  BitVec.toNat_ofNat n 8

/-! ### Network bit order -/

/-- The value of a byte string read most significant byte first (network byte order). -/
def beValue : List UInt8 → Nat
  | [] => 0
  | b :: bs => 2 ^ (8 * bs.length) * b.toNat + beValue bs

/-- Bit `i` of a byte string in network bit order: bit 0 is the most significant bit of
byte 0. Bits past the end are `false`. -/
def netBit : List UInt8 → Nat → Bool
  | [], _ => false
  | b :: bs, i => if i < 8 then b.toNat.testBit (7 - i) else netBit bs (i - 8)

/-- The first `len` bits of `a` and `p` in network bit order are equal. -/
def prefixAgree (len : Nat) (a p : List UInt8) : Prop :=
  ∀ i < len, netBit a i = netBit p i

instance (len : Nat) (a p : List UInt8) : Decidable (prefixAgree len a p) :=
  inferInstanceAs (Decidable (∀ i < len, netBit a i = netBit p i))

theorem beValue_lt (bs : List UInt8) : beValue bs < 2 ^ (8 * bs.length) := by
  induction bs with
  | nil => simp [beValue]
  | cons b bs ih =>
    have hb : b.toNat + 1 ≤ 2 ^ 8 := b.toNat_lt_size
    calc beValue (b :: bs) < 2 ^ (8 * bs.length) * (b.toNat + 1) := by
          simp only [beValue, Nat.mul_succ]; omega
      _ ≤ 2 ^ (8 * bs.length) * 2 ^ 8 := Nat.mul_le_mul_left _ hb
      _ = 2 ^ (8 * (b :: bs).length) := by
          rw [← Nat.pow_add, List.length_cons, Nat.mul_succ]

theorem netBit_of_le {bs : List UInt8} {i : Nat} (h : 8 * bs.length ≤ i) :
    netBit bs i = false := by
  induction bs generalizing i with
  | nil => rfl
  | cons b bs ih =>
    simp only [List.length_cons] at h
    simp only [netBit, if_neg (show ¬ i < 8 by omega)]
    exact ih (by omega)

theorem netBit_append (x y : List UInt8) (i : Nat) :
    netBit (x ++ y) i = if i < 8 * x.length then netBit x i else netBit y (i - 8 * x.length) := by
  induction x generalizing i with
  | nil => simp [netBit]
  | cons b bs ih =>
    rw [List.cons_append, List.length_cons]
    by_cases h : i < 8
    · simp [netBit, h, show i < 8 * (bs.length + 1) by omega]
    · rw [netBit, netBit, if_neg h, if_neg h, ih]
      split_ifs <;> first | rfl | omega | (congr 1; omega)

/-- Bit `8n - 1 - j` of the reading is bit `j` of the value: the one fact about
`beValue` that every later proof uses. -/
theorem testBit_beValue (bs : List UInt8) (j : Nat) :
    (beValue bs).testBit j = (decide (j < 8 * bs.length) && netBit bs (8 * bs.length - 1 - j)) := by
  induction bs with
  | nil => simp [beValue]
  | cons b bs ih =>
    rw [beValue, Nat.testBit_mul_pow_two_add _ (beValue_lt bs), List.length_cons]
    by_cases hj : j < 8 * bs.length
    · rw [if_pos hj, ih, netBit, if_neg (by omega),
        show 8 * (bs.length + 1) - 1 - j - 8 = 8 * bs.length - 1 - j by omega]
      simp [hj, show j < 8 * (bs.length + 1) by omega]
    · rw [if_neg hj]
      by_cases hj' : j < 8 * (bs.length + 1)
      · rw [netBit, if_pos (by omega), show 7 - (8 * (bs.length + 1) - 1 - j) = j - 8 * bs.length by
          omega]
        simp [hj']
      · simp [hj', UInt8.testBit_toNat_of_le b (show 8 ≤ j - 8 * bs.length by omega)]

/-- A byte string is determined by its network bits. -/
theorem eq_of_netBit_eq {x y : List UInt8} (hl : x.length = y.length)
    (h : ∀ i < 8 * x.length, netBit x i = netBit y i) : x = y := by
  induction x generalizing y with
  | nil => exact (List.length_eq_zero.mp hl.symm).symm
  | cons b bs ih =>
    obtain _ | ⟨c, cs⟩ := y
    · simp at hl
    simp only [List.length_cons, Nat.succ.injEq] at hl h
    have hhead : b = c := UInt8.toNat.inj <| Nat.eq_of_testBit_eq fun k => by
      by_cases hk : k < 8
      · have hbit := h (7 - k) (by omega)
        rwa [netBit, netBit, if_pos (by omega), if_pos (by omega),
          show 7 - (7 - k) = k by omega] at hbit
      · simp [UInt8.testBit_toNat_of_le _ (show 8 ≤ k by omega)]
    refine hhead ▸ congrArg _ (ih hl fun i hi => ?_)
    simpa [netBit] using h (i + 8) (by omega)

/-- The `n` low bytes of `x`, most significant first: `x` as it is sent on the network. -/
def beBytes : Nat → Nat → List UInt8
  | 0, _ => []
  | n + 1, x => UInt8.ofNat (x / 2 ^ (8 * n)) :: beBytes n x

@[simp] theorem length_beBytes (n x : Nat) : (beBytes n x).length = n := by
  induction n <;> simp [beBytes, *]

theorem netBit_beBytes {n x i : Nat} (h : i < 8 * n) :
    netBit (beBytes n x) i = x.testBit (8 * n - 1 - i) := by
  induction n generalizing i with
  | zero => omega
  | succ n ih =>
    rw [beBytes, netBit]
    by_cases hi : i < 8
    · rw [if_pos hi, UInt8.toNat_ofNat, Nat.testBit_mod_two_pow, ← Nat.shiftRight_eq_div_pow,
        Nat.testBit_shiftRight, decide_eq_true (by omega : 7 - i < 8), Bool.true_and]
      congr 1; omega
    · rw [if_neg hi, ih (by omega)]
      congr 1; omega

theorem beValue_beBytes (n x : Nat) : beValue (beBytes n x) = x % 2 ^ (8 * n) :=
  Nat.eq_of_testBit_eq fun j => by
    rw [testBit_beValue, Nat.testBit_mod_two_pow, length_beBytes]
    by_cases hj : j < 8 * n
    · rw [netBit_beBytes (by omega), show 8 * n - 1 - (8 * n - 1 - j) = j by omega]
    · simp [hj]

theorem beBytes_beValue {bs : List UInt8} {n : Nat} (h : bs.length = n) :
    beBytes n (beValue bs) = bs :=
  eq_of_netBit_eq (by simp [h]) fun i hi => by
    rw [length_beBytes] at hi
    rw [netBit_beBytes hi, testBit_beValue, h, show 8 * n - 1 - (8 * n - 1 - i) = i by omega]
    simp [show 8 * n - 1 - i < 8 * n by omega]

/-! ### Host byte order -/

/-- Where network bit `i` of an `n`-byte string lands when its bytes are reversed. -/
def revBit (n i : Nat) : Nat := 8 * (n - 1 - i / 8) + i % 8

/-- Below the last byte, reversing one byte more moves a bit one byte further. -/
theorem revBit_succ {n i : Nat} (h : i < 8 * n) : revBit (n + 1) i = revBit n i + 8 := by
  unfold revBit; omega

/-- In the last byte, the reversed bit lies in the first byte. -/
theorem revBit_succ_of_le {n i : Nat} (h₁ : 8 * n ≤ i) (h₂ : i < 8 * (n + 1)) :
    revBit (n + 1) i = i - 8 * n := by
  unfold revBit; omega

theorem netBit_reverse {bs : List UInt8} {i : Nat} (h : i < 8 * bs.length) :
    netBit bs.reverse i = netBit bs (revBit bs.length i) := by
  induction bs generalizing i with
  | nil => simp at h
  | cons b bs ih =>
    rw [List.length_cons] at h
    rw [List.reverse_cons, netBit_append, List.length_reverse, List.length_cons]
    by_cases hi : i < 8 * bs.length
    · rw [if_pos hi, ih hi, revBit_succ hi, netBit, if_neg (by omega), Nat.add_sub_cancel]
    · rw [if_neg hi, revBit_succ_of_le (by omega) h, netBit, if_pos (by omega), netBit,
        if_pos (by omega)]

/-- The byte order of the host that runs the code. -/
inductive HostOrder where
  | bigEndian
  | littleEndian
deriving DecidableEq, Repr

namespace HostOrder

/-- The bytes of a word as they lie in memory, read from the most significant one:
unchanged on a big-endian host, reversed on a little-endian one. -/
def orient : HostOrder → List UInt8 → List UInt8
  | bigEndian, bs => bs
  | littleEndian, bs => bs.reverse

/-- Reading the bytes at an address as an unsigned integer: `s_addr`, `s6_addr32[i]`,
`u.Word[i]`. -/
def load (ho : HostOrder) (bs : List UInt8) : Nat := beValue (ho.orient bs)

/-- The bytes an `n`-byte integer occupies in memory. -/
def store (ho : HostOrder) (n x : Nat) : List UInt8 := ho.orient (beBytes n x)

/-- Where network bit `i` of an `n`-byte word lies in its memory image. -/
def bitIndex : HostOrder → Nat → Nat → Nat
  | bigEndian, _, i => i
  | littleEndian, n, i => revBit n i

variable (ho : HostOrder)

@[simp] theorem orient_orient (bs : List UInt8) : ho.orient (ho.orient bs) = bs := by
  cases ho <;> simp [orient]

@[simp] theorem length_orient (bs : List UInt8) : (ho.orient bs).length = bs.length := by
  cases ho <;> simp [orient]

theorem bitIndex_lt {n i : Nat} (h : i < 8 * n) : ho.bitIndex n i < 8 * n := by
  cases ho <;> (simp only [bitIndex, revBit]; omega)

theorem bitIndex_bitIndex {n i : Nat} (h : i < 8 * n) : ho.bitIndex n (ho.bitIndex n i) = i := by
  cases ho
  · rfl
  · simp only [bitIndex, revBit]; omega

theorem netBit_orient {bs : List UInt8} {i : Nat} (h : i < 8 * bs.length) :
    netBit (ho.orient bs) i = netBit bs (ho.bitIndex bs.length i) := by
  cases ho
  · rfl
  · exact netBit_reverse h

theorem testBit_load (bs : List UInt8) (j : Nat) :
    (ho.load bs).testBit j =
      (decide (j < 8 * bs.length) && netBit bs (ho.bitIndex bs.length (8 * bs.length - 1 - j))) := by
  rw [load, testBit_beValue, length_orient]
  by_cases hj : j < 8 * bs.length
  · rw [netBit_orient _ (by simpa using (by omega : 8 * bs.length - 1 - j < 8 * bs.length))]
  · simp [hj]

theorem load_lt (bs : List UInt8) : ho.load bs < 2 ^ (8 * bs.length) := by
  simpa [load] using beValue_lt (ho.orient bs)

theorem load_store (n x : Nat) : ho.load (ho.store n x) = x % 2 ^ (8 * n) := by
  rw [load, store, orient_orient, beValue_beBytes]

theorem store_load {bs : List UInt8} {n : Nat} (h : bs.length = n) :
    ho.store n (ho.load bs) = bs := by
  rw [store, load, beBytes_beValue (by simp [h]), orient_orient]

/-- An all-ones word reads the same on either host. -/
theorem load_beBytes_allOnes (n : Nat) : ho.load (beBytes n (2 ^ (8 * n) - 1)) = 2 ^ (8 * n) - 1 :=
  Nat.eq_of_testBit_eq fun j => by
    rw [testBit_load, length_beBytes, Nat.testBit_two_pow_sub_one]
    by_cases hj : j < 8 * n
    · rw [netBit_beBytes (ho.bitIndex_lt (by omega)), Nat.testBit_two_pow_sub_one]
      simp [hj, show 8 * n - 1 - ho.bitIndex n (8 * n - 1 - j) < 8 * n by omega]
    · simp [hj]

theorem load_inj {w v : List UInt8} (hl : w.length = v.length) (h : ho.load w = ho.load v) :
    w = v := by
  have h' : ho.orient w = ho.orient v := by
    rw [← beBytes_beValue (length_orient ho w), ← beBytes_beValue (length_orient ho v)]
    exact congrArg₂ beBytes hl h
  simpa using congrArg ho.orient h'

end HostOrder

/-- Reindexing the bits below `N` by an involution of `[0, N)` changes nothing that holds of
all of them. -/
theorem forall_lt_comp_iff {N : Nat} {f : Nat → Nat} (hf : ∀ i < N, f i < N)
    (hff : ∀ i < N, f (f i) = i) {P : Nat → Prop} : (∀ i < N, P (f i)) ↔ ∀ i < N, P i :=
  ⟨fun h i hi => hff i hi ▸ h (f i) (hf i hi), fun h i hi => h (f i) (hf i hi)⟩

/-- Bits read as `decide (j < N) && _`: a condition on every bit is one on the bits below `N`. -/
theorem forall_decide_and_iff {N : Nat} {a b c : Nat → Bool} :
    (∀ j, (decide (j < N) && a j) = true → (decide (j < N) && b j) = (decide (j < N) && c j)) ↔
      ∀ j < N, a j = true → b j = c j := by
  refine ⟨fun h j hj => by simpa [hj] using h j, fun h j => ?_⟩
  by_cases hj : j < N
  · simpa [hj] using h j hj
  · simp [hj]

theorem xor_land_eq_zero_iff (x y z : Nat) :
    (x ^^^ y) &&& z = 0 ↔ ∀ j, z.testBit j = true → x.testBit j = y.testBit j := by
  constructor
  · intro h j hz
    simpa [hz] using congrArg (Nat.testBit · j) h
  · intro h
    refine Nat.eq_of_testBit_eq fun j => ?_
    cases hz : z.testBit j <;> simp [hz, h j]

/-- **A masked word comparison is a comparison of network bits**, on a host of either byte
order: `((x ^ y) & m) == 0` holds exactly when `x` and `y` agree on every network bit that
is set in `m`. -/
theorem HostOrder.load_xor_land_eq_zero_iff (ho : HostOrder) {n : Nat} {w v m : List UInt8}
    (hw : w.length = n) (hv : v.length = n) (hm : m.length = n) :
    (ho.load w ^^^ ho.load v) &&& ho.load m = 0 ↔
      ∀ i < 8 * n, netBit m i = true → netBit w i = netBit v i := by
  rw [xor_land_eq_zero_iff]
  simp only [ho.testBit_load, hw, hv, hm]
  refine forall_decide_and_iff.trans ?_
  rw [forall_lt_comp_iff (f := fun j => 8 * n - 1 - j)
      (fun i hi => show 8 * n - 1 - i < 8 * n by omega)
      (fun i hi => show 8 * n - 1 - (8 * n - 1 - i) = i by omega)
      (P := fun k => netBit m (ho.bitIndex n k) = true →
        netBit w (ho.bitIndex n k) = netBit v (ho.bitIndex n k)),
    forall_lt_comp_iff (f := ho.bitIndex n) (fun i => ho.bitIndex_lt)
      (fun i => ho.bitIndex_bitIndex)
      (P := fun k => netBit m k = true → netBit w k = netBit v k)]

/-- `htonl`: the integer whose memory bytes are the network-order bytes of `x`. -/
def htonl (ho : HostOrder) (x : Nat) : Nat := ho.load (beBytes 4 x)

/-- `ntohl`: the integer whose network-order reading is the memory bytes of `x`. -/
def ntohl (ho : HostOrder) (x : Nat) : Nat := beValue (ho.store 4 x)

/-- `htons`, the 16-bit `htonl`. -/
def htons (ho : HostOrder) (x : Nat) : Nat := ho.load (beBytes 2 x)

/-- `ntohs`, the 16-bit `ntohl`. -/
def ntohs (ho : HostOrder) (x : Nat) : Nat := beValue (ho.store 2 x)

theorem ntohl_load (ho : HostOrder) {bs : List UInt8} (h : bs.length = 4) :
    ntohl ho (ho.load bs) = beValue bs := by
  rw [ntohl, ho.store_load h]

theorem ntohs_load (ho : HostOrder) {bs : List UInt8} (h : bs.length = 2) :
    ntohs ho (ho.load bs) = beValue bs := by
  rw [ntohs, ho.store_load h]

theorem store_htonl (ho : HostOrder) (x : Nat) : ho.store 4 (htonl ho x) = beBytes 4 x :=
  ho.store_load (length_beBytes 4 x)

/-! ### Words and prefixes -/

theorem netBit_take {bs : List UInt8} {n i : Nat} (h : i < 8 * n) :
    netBit (bs.take n) i = netBit bs i := by
  conv_rhs => rw [← List.take_append_drop n bs]
  rw [netBit_append]
  split_ifs with hi
  · rfl
  · have hshort : bs.length < n := by
      by_contra hn; simp [List.length_take, Nat.min_eq_left (not_lt.mp hn)] at hi; omega
    rw [List.drop_eq_nil_of_le hshort.le, netBit_of_le (by omega)]
    rfl

theorem netBit_drop (bs : List UInt8) (n i : Nat) :
    netBit (bs.drop n) i = netBit bs (8 * n + i) := by
  conv_rhs => rw [← List.take_append_drop n bs]
  rw [netBit_append, if_neg (by simp [List.length_take]; omega)]
  by_cases hn : n ≤ bs.length
  · rw [List.length_take, Nat.min_eq_left hn, Nat.add_sub_cancel_left]
  · rw [List.drop_eq_nil_of_le (by omega)]
    rfl

/-- A prefix of `len` bits splits at a word of `n` bytes: the part inside the first word and
the rest, `8 * n` bits shorter, in the remaining bytes. -/
theorem prefixAgree_iff_take_drop (n len : Nat) (a p : List UInt8) :
    prefixAgree len a p ↔
      prefixAgree (min len (8 * n)) (a.take n) (p.take n) ∧
        prefixAgree (len - 8 * n) (a.drop n) (p.drop n) := by
  simp only [prefixAgree, netBit_drop]
  refine ⟨fun h => ⟨fun i hi => ?_, fun i hi => h _ (by omega)⟩, fun ⟨h₁, h₂⟩ i hi => ?_⟩
  · rw [netBit_take (by omega), netBit_take (by omega)]
    exact h i (by omega)
  · by_cases hin : i < 8 * n
    · simpa [netBit_take hin] using h₁ i (by omega)
    · simpa [show 8 * n + (i - 8 * n) = i by omega] using h₂ (i - 8 * n) (by omega)

/-- The `k` consecutive `n`-byte words of a byte string: `s6_addr32` (`n = 4`, `k = 4`) or
`u.Word` (`n = 2`, `k = 8`) of an `in6_addr`. -/
def words (n : Nat) : Nat → List UInt8 → List (List UInt8)
  | 0, _ => []
  | k + 1, bs => bs.take n :: words n k (bs.drop n)

@[simp] theorem length_words (n k : Nat) (bs : List UInt8) : (words n k bs).length = k := by
  induction k generalizing bs <;> simp [words, *]

/-- Each word of a byte string of `k` words has `n` bytes. -/
theorem length_of_mem_words {n k : Nat} {bs w : List UInt8} (h : bs.length = n * k)
    (hw : w ∈ words n k bs) : w.length = n := by
  induction k generalizing bs with
  | zero => simp [words] at hw
  | succ k ih =>
    rcases List.mem_cons.mp hw with rfl | hw
    · simp [h, Nat.mul_succ]
    · exact ih (by simp [h, Nat.mul_succ]) hw

/-- Two byte strings of `k` words are equal when a host reads the same `k` words from them. -/
theorem HostOrder.words_load_inj (ho : HostOrder) {n k : Nat} {x y : List UInt8}
    (hx : x.length = n * k) (hy : y.length = n * k)
    (h : (words n k x).map ho.load = (words n k y).map ho.load) : x = y := by
  induction k generalizing x y with
  | zero => rw [List.length_eq_zero.mp hx, List.length_eq_zero.mp hy]
  | succ k ih =>
    simp only [words, List.map_cons, List.cons.injEq] at h
    have htake : x.take n = y.take n :=
      ho.load_inj (by simp [hx, hy]) h.1
    have hdrop : x.drop n = y.drop n :=
      ih (by simp [hx, Nat.mul_succ]) (by simp [hy, Nat.mul_succ]) h.2
    rw [← List.take_append_drop n x, htake, hdrop, List.take_append_drop]

end Scamper
