import Scamper.Addr.Basic

/-!
The comparators of `scamper_addr.c` and the order they define.

`ipv4_cmp`, `ipv6_cmp` (either build), `ethernet_cmp` and `firewire_cmp` are the
comparators `scamper_addrcache_alloc` gives the interning trees, and `scamper_addr_cmp`
dispatches to them for two addresses of one type. On a host of either byte order:

* `AddrType.cmp_isTotal`: each handler's comparator is a strict total order on the byte
  strings of its type's size, with ties exactly at equal bytes;
* `addrCmp_isTotal`: so is `scamper_addr_cmp` on all addresses, with addresses of
  different types ordered by their discriminants alone;
* `scamperAddrCmp_eq`: its `a == b` short cut agrees with comparing the two values.
-/

namespace Scamper

/-! ### The comparators -/

/-- `a < b ? -1 : a > b ? 1 : 0`, how `ipv4_cmp` and the loop of `ipv6_cmp` compare two
words. -/
def cmpNat (a b : Nat) : Int :=
  if a < b then -1 else if a > b then 1 else 0

/-- The word loop of `ipv6_cmp`: the first word that differs decides. -/
def wordsCmp : List Nat → List Nat → Int
  | a :: as, b :: bs => if a < b then -1 else if a > b then 1 else wordsCmp as bs
  | _, _ => 0

/-- `memcmp(a, b, n)`. The C standard fixes only its sign; this returns the difference of the
first differing bytes, as common C libraries do. -/
def memcmp : List UInt8 → List UInt8 → Nat → Int
  | a :: as, b :: bs, n + 1 => if a = b then memcmp as bs n else (a.toNat : Int) - b.toNat
  | _, _, _ => 0

/-- `ipv4_cmp`: the two `s_addr` words compared as integers of the host. -/
def ipv4Cmp (ho : HostOrder) (a b : List UInt8) : Int :=
  cmpNat (ho.load a) (ho.load b)

/-- `ipv6_cmp`: the `s6_addr32` words, or the `u.Word` words of the `_WIN32` build,
compared in order. -/
def ipv6Cmp (ho : HostOrder) (build : Build) (a b : List UInt8) : Int :=
  wordsCmp ((words build.wordBytes build.wordCount a).map ho.load)
    ((words build.wordBytes build.wordCount b).map ho.load)

/-- `ethernet_cmp`. -/
def ethernetCmp (a b : List UInt8) : Int := memcmp a b 6

/-- `firewire_cmp`. -/
def firewireCmp (a b : List UInt8) : Int := memcmp a b 8

/-- `handlers[t-1].cmp` past its two type assertions, on the bytes of the addresses. -/
def AddrType.cmp (ho : HostOrder) (build : Build) : AddrType → List UInt8 → List UInt8 → Int
  | .ipv4 => ipv4Cmp ho
  | .ipv6 => ipv6Cmp ho build
  | .ethernet => ethernetCmp
  | .firewire => firewireCmp

/-- `handlers[t-1].cmp`, the comparator `scamper_addrcache_alloc` gives the tree of type `t`;
`none` when one of its type assertions fails. -/
def handlerCmp (ho : HostOrder) (build : Build) (t : AddrType) (x y : ScamperAddr) :
    Option Int :=
  if x.type = t ∧ y.type = t then some (t.cmp ho build x.addr y.addr) else none

/-- `scamper_addr_cmp` past its `a == b` test: the handler of the common type, or the order
of the two types. -/
def addrCmp (ho : HostOrder) (build : Build) (x y : ScamperAddr) : Int :=
  if x.type = y.type then x.type.cmp ho build x.addr y.addr
  else if x.type.toNat < y.type.toNat then -1 else 1

/-- `scamper_addr_cmp(a, b)` on two pointers into `heap`. Both are read for the type
assertions, then equal pointers compare equal. `none` is a read of freed memory. -/
def scamperAddrCmp (ho : HostOrder) (build : Build) (heap : Ptr → Option ScamperAddr)
    (a b : Ptr) : Option Int := do
  let x ← heap a
  let y ← heap b
  if a = b then pure 0 else pure (addrCmp ho build x y)

/-! ### Strict total comparisons -/

/-- `cmp` is the three-way comparison of a strict total order on the values in `dom`, and it
ties exactly equal values. -/
structure IsTotalCmpOn {α : Type} (dom : α → Prop) (cmp : α → α → Int) : Prop where
  antisymm : ∀ {x y}, dom x → dom y → (cmp x y).sign = -(cmp y x).sign
  trans : ∀ {x y z}, dom x → dom y → dom z → cmp x y < 0 → cmp y z < 0 → cmp x z < 0
  eq_zero_iff : ∀ {x y}, dom x → dom y → (cmp x y = 0 ↔ x = y)

namespace IsTotalCmpOn

variable {α β : Type} {dom : α → Prop} {cmp : α → α → Int}

/-- Only the sign of a comparison matters. -/
theorem congr_sign {cmp' : α → α → Int} (hcmp : IsTotalCmpOn dom cmp)
    (h : ∀ {x y}, dom x → dom y → (cmp' x y).sign = (cmp x y).sign) : IsTotalCmpOn dom cmp' where
  antisymm hx hy := by rw [h hx hy, h hy hx]; exact hcmp.antisymm hx hy
  trans hx hy hz hxy hyz := by
    rw [← Int.sign_eq_neg_one_iff_neg, h hx hz, Int.sign_eq_neg_one_iff_neg]
    rw [← Int.sign_eq_neg_one_iff_neg, h hx hy, Int.sign_eq_neg_one_iff_neg] at hxy
    rw [← Int.sign_eq_neg_one_iff_neg, h hy hz, Int.sign_eq_neg_one_iff_neg] at hyz
    exact hcmp.trans hx hy hz hxy hyz
  eq_zero_iff hx hy := by
    rw [← Int.sign_eq_zero_iff_zero, h hx hy, Int.sign_eq_zero_iff_zero]
    exact hcmp.eq_zero_iff hx hy

/-- Comparing the images under a map that is injective on the domain. -/
theorem comap {domB : β → Prop} {cmp : β → β → Int} {f : α → β} (hcmp : IsTotalCmpOn domB cmp)
    (hf : ∀ {x}, dom x → domB (f x)) (hinj : ∀ {x y}, dom x → dom y → f x = f y → x = y) :
    IsTotalCmpOn dom (fun x y => cmp (f x) (f y)) where
  antisymm hx hy := hcmp.antisymm (hf hx) (hf hy)
  trans hx hy hz := hcmp.trans (hf hx) (hf hy) (hf hz)
  eq_zero_iff hx hy := (hcmp.eq_zero_iff (hf hx) (hf hy)).trans
    ⟨hinj hx hy, congrArg f⟩

end IsTotalCmpOn

theorem cmpNat_neg_iff {a b : Nat} : cmpNat a b < 0 ↔ a < b := by
  unfold cmpNat; split_ifs <;> omega

theorem cmpNat_eq_zero_iff {a b : Nat} : cmpNat a b = 0 ↔ a = b := by
  unfold cmpNat; split_ifs <;> simp <;> omega

theorem cmpNat_swap (a b : Nat) : cmpNat b a = -cmpNat a b := by
  unfold cmpNat; split_ifs <;> omega

theorem sign_cmpNat (a b : Nat) : (cmpNat a b).sign = cmpNat a b := by
  unfold cmpNat; split_ifs <;> rfl

theorem cmpNat_isTotal : IsTotalCmpOn (fun _ : Nat => True) cmpNat where
  antisymm _ _ := by rw [cmpNat_swap _ _, Int.sign_neg]
  trans _ _ _ hxy hyz :=
    cmpNat_neg_iff.mpr (Nat.lt_trans (cmpNat_neg_iff.mp hxy) (cmpNat_neg_iff.mp hyz))
  eq_zero_iff _ _ := cmpNat_eq_zero_iff

/-! ### The word loop and `memcmp` -/

@[simp] theorem wordsCmp_nil_left (y : List Nat) : wordsCmp [] y = 0 := rfl

@[simp] theorem wordsCmp_nil_right (x : List Nat) : wordsCmp x [] = 0 := by
  cases x <;> rfl

theorem wordsCmp_cons (a b : Nat) (as bs : List Nat) :
    wordsCmp (a :: as) (b :: bs) = if a = b then wordsCmp as bs else cmpNat a b := by
  simp only [wordsCmp, cmpNat]; split_ifs <;> first | rfl | omega

theorem wordsCmp_swap : ∀ x y : List Nat, wordsCmp y x = -wordsCmp x y
  | [], y => by simp
  | _ :: _, [] => by simp
  | a :: as, b :: bs => by
    rw [wordsCmp_cons, wordsCmp_cons, wordsCmp_swap as bs, cmpNat_swap]
    split_ifs <;> first | rfl | omega

theorem sign_wordsCmp : ∀ x y : List Nat, (wordsCmp x y).sign = wordsCmp x y
  | [], y => by simp
  | _ :: _, [] => by simp
  | a :: as, b :: bs => by
    rw [wordsCmp_cons]; split_ifs
    · exact sign_wordsCmp as bs
    · exact sign_cmpNat a b

theorem wordsCmp_trans : ∀ {x y z : List Nat}, wordsCmp x y < 0 → wordsCmp y z < 0 →
    wordsCmp x z < 0
  | a :: as, b :: bs, c :: cs, hxy, hyz => by
    rw [wordsCmp_cons] at hxy hyz ⊢
    split_ifs at hxy hyz ⊢ <;> simp only [cmpNat_neg_iff] at * <;>
      first | omega | (subst_vars; exact wordsCmp_trans hxy hyz)
  | [], _, _, hxy, _ | _ :: _, [], _, hxy, _ => by simp at hxy
  | _ :: _, _ :: _, [], _, hyz => by simp at hyz

theorem wordsCmp_eq_zero_iff : ∀ {x y : List Nat}, x.length = y.length →
    (wordsCmp x y = 0 ↔ x = y)
  | [], [], _ => by simp
  | a :: as, b :: bs, h => by
    rw [wordsCmp_cons, List.cons.injEq]
    split_ifs with hab
    · simp [hab, wordsCmp_eq_zero_iff (by simpa using h)]
    · simp [hab, cmpNat_eq_zero_iff]
  | [], _ :: _, h | _ :: _, [], h => by simp at h

theorem wordsCmp_isTotal (n : Nat) : IsTotalCmpOn (fun l : List Nat => l.length = n) wordsCmp where
  antisymm _ _ := by rw [wordsCmp_swap _ _, Int.sign_neg]
  trans _ _ _ := wordsCmp_trans
  eq_zero_iff hx hy := wordsCmp_eq_zero_iff (hx.trans hy.symm)

theorem sign_memcmp {x y : List UInt8} {n : Nat} (hx : x.length = n) (hy : y.length = n) :
    (memcmp x y n).sign = wordsCmp (x.map UInt8.toNat) (y.map UInt8.toNat) := by
  induction x generalizing y n with
  | nil => subst hx; rw [List.length_eq_zero.mp hy]; rfl
  | cons a as ih =>
    simp only [List.length_cons] at hx
    subst hx
    obtain _ | ⟨b, bs⟩ := y
    · simp at hy
    simp only [List.length_cons, Nat.succ.injEq] at hy
    rw [memcmp, List.map_cons, List.map_cons, wordsCmp_cons]
    by_cases hab : a = b
    · rw [if_pos hab, if_pos (congrArg _ hab)]
      exact ih rfl hy
    · have hne : a.toNat ≠ b.toNat := fun h => hab (UInt8.toNat.inj h)
      rw [if_neg hab, if_neg hne, cmpNat]
      split_ifs
      · exact Int.sign_eq_neg_one_of_neg (by omega)
      · exact Int.sign_eq_one_of_pos (by omega)
      · omega

theorem memcmp_isTotal (n : Nat) :
    IsTotalCmpOn (fun l : List UInt8 => l.length = n) (fun x y => memcmp x y n) :=
  IsTotalCmpOn.congr_sign
    ((wordsCmp_isTotal n).comap (f := List.map UInt8.toNat) (fun hx => by simpa using hx)
      fun _ _ h => List.map_injective_iff.mpr (fun _ _ => UInt8.toNat.inj) h)
    fun hx hy => by rw [sign_memcmp hx hy, sign_wordsCmp]

/-! ### The handlers and `scamper_addr_cmp` -/

/-- Each handler's comparator is a strict total order on the byte strings of its type. -/
theorem AddrType.cmp_isTotal (ho : HostOrder) (build : Build) (t : AddrType) :
    IsTotalCmpOn (fun bs : List UInt8 => bs.length = t.size) (t.cmp ho build) := by
  cases t
  · exact cmpNat_isTotal.comap (fun _ => trivial) fun hx hy => ho.load_inj (hx.trans hy.symm)
  · have h16 := build.wordBytes_mul_wordCount
    exact (wordsCmp_isTotal build.wordCount).comap (fun _ => by simp)
      fun hx hy => ho.words_load_inj (hx.trans h16.symm) (hy.trans h16.symm)
  · exact memcmp_isTotal 6
  · exact memcmp_isTotal 8

theorem handlerCmp_of_type {ho : HostOrder} {build : Build} {t : AddrType} {x y : ScamperAddr}
    (hx : x.type = t) (hy : y.type = t) :
    handlerCmp ho build t x y = some (t.cmp ho build x.addr y.addr) :=
  if_pos ⟨hx, hy⟩

theorem addrCmp_neg_iff {ho : HostOrder} {build : Build} {x y : ScamperAddr} :
    addrCmp ho build x y < 0 ↔
      x.type.toNat < y.type.toNat ∨ (x.type = y.type ∧ x.type.cmp ho build x.addr y.addr < 0) := by
  unfold addrCmp
  split_ifs <;> simp [*]

theorem addrCmp_isTotal (ho : HostOrder) (build : Build) :
    IsTotalCmpOn (fun _ : ScamperAddr => True) (addrCmp ho build) where
  antisymm {x y} _ _ := by
    obtain ⟨t, a, ha⟩ := x
    obtain ⟨t', b, hb⟩ := y
    unfold addrCmp; dsimp only
    by_cases h : t = t'
    · subst h
      rw [if_pos rfl, if_pos rfl]
      exact (t.cmp_isTotal ho build).antisymm ha hb
    · rw [if_neg h, if_neg (Ne.symm h)]
      have := AddrType.toNat_injective.ne h
      split_ifs <;> first | rfl | omega
  trans {x y z} _ _ _ hxy hyz := by
    rw [addrCmp_neg_iff] at hxy hyz ⊢
    obtain ⟨t, a, ha⟩ := x
    obtain ⟨t', b, hb⟩ := y
    obtain ⟨t'', c, hc⟩ := z
    dsimp only at *
    rcases hxy with hxy | ⟨rfl, hxy⟩ <;> rcases hyz with hyz | ⟨rfl, hyz⟩
    · exact .inl (by omega)
    · exact .inl hxy
    · exact .inl hyz
    · exact .inr ⟨rfl, (t.cmp_isTotal ho build).trans ha hb hc hxy hyz⟩
  eq_zero_iff {x y} _ _ := by
    obtain ⟨t, a, ha⟩ := x
    obtain ⟨t', b, hb⟩ := y
    unfold addrCmp; dsimp only
    by_cases h : t = t'
    · subst h
      rw [if_pos rfl, (t.cmp_isTotal ho build).eq_zero_iff ha hb]
      simp
    · rw [if_neg h]
      split_ifs <;> simp [h]

/-- The `a == b` short cut of `scamper_addr_cmp` agrees with comparing the values. -/
theorem scamperAddrCmp_eq (ho : HostOrder) (build : Build) {heap : Ptr → Option ScamperAddr}
    {a b : Ptr} {x y : ScamperAddr} (ha : heap a = some x) (hb : heap b = some y) :
    scamperAddrCmp ho build heap a b = some (addrCmp ho build x y) := by
  by_cases hab : a = b
  · subst hab
    obtain rfl : x = y := Option.some.inj (ha.symm.trans hb)
    simp [scamperAddrCmp, ha, ((addrCmp_isTotal ho build).eq_zero_iff trivial trivial).mpr rfl]
  · simp [scamperAddrCmp, ha, hb, hab]

/-- **The address order.** On a host of either byte order and in either build,
`scamper_addr_cmp` is a strict total order on addresses whose ties are exactly equal type
and bytes, different types are ordered by their discriminants alone, and its `a == b` short
cut agrees with comparing values; the comparator of each tree is a strict total order on
the addresses of its type. -/
theorem scamperAddrCmp_strict_total (ho : HostOrder) (build : Build) :
    IsTotalCmpOn (fun _ => True) (addrCmp ho build) ∧
    (∀ x y : ScamperAddr, x.type ≠ y.type →
      addrCmp ho build x y = cmpNat x.type.toNat y.type.toNat) ∧
    (∀ (heap : Ptr → Option ScamperAddr) (a b : Ptr) (x y : ScamperAddr),
      heap a = some x → heap b = some y →
        scamperAddrCmp ho build heap a b = some (addrCmp ho build x y)) ∧
    (∀ t : AddrType,
      IsTotalCmpOn (fun x : ScamperAddr => x.type = t) (fun x y => t.cmp ho build x.addr y.addr) ∧
      ∀ x y : ScamperAddr, x.type = t → y.type = t →
        handlerCmp ho build t x y = some (t.cmp ho build x.addr y.addr)) := by
  refine ⟨addrCmp_isTotal ho build, fun x y h => ?_, fun _ _ _ _ _ => scamperAddrCmp_eq ho build,
    fun t => ⟨?_, fun _ _ => handlerCmp_of_type⟩⟩
  · have := AddrType.toNat_injective.ne h
    simp only [addrCmp, cmpNat, if_neg h]
    split_ifs <;> first | rfl | omega
  · exact (t.cmp_isTotal ho build).comap (fun hx => hx ▸ ScamperAddr.addr_length _)
      fun hx hy h => ScamperAddr.ext (hx.trans hy.symm) h

end Scamper
