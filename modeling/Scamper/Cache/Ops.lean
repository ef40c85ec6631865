import Mathlib.Data.List.Nodup
import Scamper.Addr.Cmp
import Scamper.Cache.Invariant

/-!
The operations of `scamper_addr.c` on addresses and caches, and what each does to a heap
that satisfies `CacheInv`.

Each operation reads and writes the heap as the source does; `none` is a read of a freed
object, an `assert` that fails, or a `refcnt` raised past `INT_MAX` (a signed overflow). The
outcomes of `malloc`, `memdup`, `splaytree_alloc` and
`splaytree_insert` are arguments. On a heap that satisfies `CacheInv`:

* `scamperAddrUse_some` and `scamperAddrcacheGet_hit`: a use, or a get of a value in the
  cache, raises the address's `refcnt` by one, and fails where it is already `INT_MAX`;
* `scamperAddrcacheGet_insert`: a get of another value interns a new address, and
  `scamperAddrcacheGet_fail` leaves the heap as it was when an allocation or the insert fails;
* `scamperAddrFree_of_lt`, `scamperAddrFree_last` and `scamperAddrFree_last_interned`: a free
  lowers `refcnt`, or releases the address and takes it out of its cache's tree;
* `scamperAddrcacheFree_eq`: freeing a cache detaches its members (`Mem.detach`);
* `scamperAddrcacheAlloc_eq`: an allocated cache has empty trees, and a failed one leaves
  nothing behind.
-/

namespace Scamper

section Ops

variable (ho : HostOrder) (build : Build)

/-- `scamper_addr_alloc(type, addr)` for the value `v`: `sa` is what `malloc` returned and
`dup` whether `memdup` succeeded. When `memdup` fails, `free(sa)` releases a block that held
nothing yet. -/
def scamperAddrAlloc (m : Mem) (sa : Option Ptr) (dup : Bool) (v : ScamperAddr) :
    Mem × Option Ptr :=
  match sa with
  | some p => if dup then (m.setAddr p (some ⟨v, 1, none⟩), some p) else (m, none)
  | none => (m, none)

/-- `scamper_addr_use(sa)`: `sa->refcnt++`, which overflows at `INT_MAX`. -/
def scamperAddrUse (m : Mem) : Option Ptr → Option (Mem × Option Ptr)
  | none => some (m, none)
  | some p => do
    let o ← m.addrs p
    guard (o.refcnt < intMax)
    some (m.setAddr p (some { o with refcnt := o.refcnt + 1 }), some p)

/-- `scamper_addr_free(sa)`: `assert(sa->refcnt > 0)`, the decrement, and at zero the removal
from the tree of `sa->internal` before the address is freed. -/
def scamperAddrFree (m : Mem) : Option Ptr → Option Mem
  | none => some m
  | some p => do
    let o ← m.addrs p
    guard (0 < o.refcnt)
    let m := m.setAddr p (some { o with refcnt := o.refcnt - 1 })
    if 0 < o.refcnt - 1 then some m
    else do
      let m ← match o.internal with
        | none => some m
        | some ac => do
          let c ← m.caches ac
          let l ← splaytreeRemoveItem (handlerCmp ho build o.val.type) m.read o.val
            (c.tree o.val.type)
          some (m.setCache ac (some (c.setTree o.val.type l)))
      some (m.setAddr p none)

/-- `scamper_addrcache_get(ac, type, addr)` for the value `v`: `sa` and `dup` are the
outcomes of `scamper_addr_alloc`'s `malloc` and `memdup`, and `ins` that of
`splaytree_insert`. A hit asserts `sa->internal == ac` before `sa->refcnt++`. -/
def scamperAddrcacheGet (m : Mem) (ac : Ptr) (v : ScamperAddr) (sa : Option Ptr)
    (dup ins : Bool) : Option (Mem × Option Ptr) := do
  let c ← m.caches ac
  match ← splaytreeFind (handlerCmp ho build v.type) m.read v (c.tree v.type) with
  | some q => do
    let o ← m.addrs q
    guard (o.internal = some ac)
    guard (o.refcnt < intMax)
    some (m.setAddr q (some { o with refcnt := o.refcnt + 1 }), some q)
  | none =>
    match scamperAddrAlloc m sa dup v with
    | (m, none) => some (m, none)
    | (m, some q) =>
      match splaytreeInsert ins q (c.tree v.type) with
      | some l => do
        let m := m.setCache ac (some (c.setTree v.type l))
        let o ← m.addrs q
        some (m.setAddr q (some { o with internal := some ac }), some q)
      | none => do
        let m ← scamperAddrFree ho build m (some q)
        some (m, none)

/-- `free_cb(node)`: the member's `internal` cleared. -/
def freeCb (m : Mem) (q : Ptr) : Option Mem :=
  (m.addrs q).map fun o => m.setAddr q (some { o with internal := none })

/-- The types of `handlers`, in its order. -/
def handlerTypes : List AddrType := [.ipv4, .ipv6, .ethernet, .firewire]

/-- `scamper_addrcache_free(ac)`: `splaytree_free(ac->tree[i], free_cb)` for `i` from 3 down
to 0, then `free(ac)`. -/
def scamperAddrcacheFree (m : Mem) (ac : Ptr) : Option Mem := do
  let c ← m.caches ac
  let m ← handlerTypes.reverse.foldlM (fun m t => splaytreeFree freeCb m (c.tree t)) m
  some (m.setCache ac none)

/-- `scamper_addrcache_alloc()`: `ac` is what `malloc` returned and `trees` whether the four
`splaytree_alloc` calls succeeded. On the `err` path `scamper_addrcache_free` finds the
trees made so far empty and the others `NULL`. -/
def scamperAddrcacheAlloc (m : Mem) (ac : Option Ptr) (trees : Bool) :
    Option (Mem × Option Ptr) :=
  match ac with
  | none => some (m, none)
  | some ac =>
    let m := m.setCache ac (some ⟨fun _ => []⟩)
    if trees then some (m, some ac) else (scamperAddrcacheFree m ac).map fun m => (m, none)

end Ops

/-! ### The comparator on a tree -/

section Tree

variable (ho : HostOrder) (build : Build) {m : Mem} (h : CacheInv m)
include h

/-- On a member of a tree for `v.type`, the tree's comparator is zero exactly where the
member's value is `v`. -/
theorem CacheInv.cmp_member {ac q} {v : ScamperAddr} (hq : q ∈ m.tree ac v.type) :
    ∃ c, (m.read q).bind (handlerCmp ho build v.type v) = some c ∧ (c = 0 ↔ m.read q = some v) := by
  obtain ⟨o, ho', ht, -⟩ := h.member hq
  refine ⟨v.type.cmp ho build v.addr o.val.addr, by simp [Mem.read, ho', handlerCmp_of_type rfl ht],
    ?_⟩
  rw [(AddrType.cmp_isTotal ho build v.type).eq_zero_iff v.addr_length (ht ▸ o.val.addr_length)]
  simp only [Mem.read, ho', Option.map_some', Option.some.injEq]
  exact ⟨fun hx => ScamperAddr.ext ht hx.symm, fun hx => hx ▸ rfl⟩

theorem CacheInv.find_eq {ac c} (hc : m.caches ac = some c) (v : ScamperAddr) :
    splaytreeFind (handlerCmp ho build v.type) m.read v (c.tree v.type) =
      some ((c.tree v.type).find? fun r => decide (m.read r = some v)) :=
  splaytreeFind_eq fun _ hq => h.cmp_member ho build (m.tree_of_caches hc _ ▸ hq)

/-- A tree holds at most one member of each value. -/
theorem CacheInv.eq_of_read {ac t q r} (hq : q ∈ m.tree ac t) (hr : r ∈ m.tree ac t)
    (hqr : m.read q = m.read r) : q = r :=
  List.inj_on_of_nodup_map (h.nodup ac t) hq hr hqr

end Tree

/-! ### `scamper_addr_free` -/

section Free

variable (ho : HostOrder) (build : Build) {m : Mem} {p : Ptr} {o : AddrObj}

theorem scamperAddrFree_of_lt (hp : m.addrs p = some o) (h1 : 1 < o.refcnt) :
    scamperAddrFree ho build m (some p) =
      some (m.setAddr p (some { o with refcnt := o.refcnt - 1 })) := by
  simp [scamperAddrFree, hp, guard, h1, show 0 < o.refcnt by omega, show 0 < o.refcnt - 1 by omega]

theorem scamperAddrFree_last (hp : m.addrs p = some o) (h1 : o.refcnt = 1)
    (hi : o.internal = none) : scamperAddrFree ho build m (some p) = some (m.setAddr p none) := by
  simp [scamperAddrFree, hp, guard, h1, hi]

/-- The last release of an interned address removes it from its cache's tree, which
`CacheInv` makes a live cache, before freeing it. -/
theorem scamperAddrFree_last_interned (h : CacheInv m) {ac} (hp : m.addrs p = some o)
    (h1 : o.refcnt = 1) (hi : o.internal = some ac) :
    ∃ c, m.caches ac = some c ∧ scamperAddrFree ho build m (some p) =
      some ((m.setCache ac (some (c.setTree o.val.type ((c.tree o.val.type).erase p)))).setAddr
        p none) := by
  obtain ⟨hlive, hpmem⟩ := h.internal hp hi
  obtain ⟨c, hc⟩ := Option.isSome_iff_exists.mp hlive
  have hremove : splaytreeRemoveItem (handlerCmp ho build o.val.type) m.read o.val
      (c.tree o.val.type) = some ((c.tree o.val.type).erase p) := by
    refine splaytreeRemoveItem_eq fun q hq => ?_
    have hq' : q ∈ m.tree ac o.val.type := m.tree_of_caches hc _ ▸ hq
    obtain ⟨x, hx, hzero⟩ := h.cmp_member ho build hq'
    refine ⟨x, hx, hzero.trans ⟨fun hv => h.eq_of_read hq' hpmem ?_, fun hqp => ?_⟩⟩
    · exact hv.trans (by simp [Mem.read, hp])
    · simp [hqp, Mem.read, hp]
  refine ⟨c, hc, ?_⟩
  simp [scamperAddrFree, hp, guard, h1, hi, hc, Mem.read_setAddr_of_val _ _ hp, hremove,
    Mem.setAddr_setCache]

end Free

/-! ### `scamper_addr_use` and `scamper_addrcache_get` -/

theorem scamperAddrUse_some {m : Mem} {p : Ptr} {o : AddrObj} (hp : m.addrs p = some o) :
    scamperAddrUse m (some p) = if o.refcnt < intMax then
      some (m.setAddr p (some { o with refcnt := o.refcnt + 1 }), some p) else none := by
  by_cases hlt : o.refcnt < intMax <;> simp [scamperAddrUse, hp, hlt]

section Get

variable (ho : HostOrder) (build : Build) {m : Mem} (h : CacheInv m)
include h

theorem scamperAddrcacheGet_hit {ac c q v} (sa : Option Ptr) (dup ins : Bool)
    (hc : m.caches ac = some c)
    (hq : q ∈ c.tree v.type) (hv : m.read q = some v) :
    ∃ o, m.addrs q = some o ∧ scamperAddrcacheGet ho build m ac v sa dup ins =
      if o.refcnt < intMax then some (m.setAddr q (some { o with refcnt := o.refcnt + 1 }), some q)
      else none := by
  have hq' : q ∈ m.tree ac v.type := m.tree_of_caches hc _ ▸ hq
  obtain ⟨o, ho', -, hi⟩ := h.member hq'
  have hfind : (c.tree v.type).find? (fun r => decide (m.read r = some v)) = some q := by
    cases hr : (c.tree v.type).find? (fun r => decide (m.read r = some v)) with
    | none => exact absurd hv (by simpa using List.find?_eq_none.mp hr q hq)
    | some r =>
      have hrv : m.read r = some v := by simpa using List.find?_some hr
      rw [h.eq_of_read (m.tree_of_caches hc _ ▸ List.mem_of_find?_eq_some hr) hq'
        (hrv.trans hv.symm)]
  refine ⟨o, ho', ?_⟩
  by_cases hlt : o.refcnt < intMax <;>
    simp [scamperAddrcacheGet, hc, h.find_eq ho build hc, hfind, ho', hi, hlt]

theorem CacheInv.find_none {ac c v} (hc : m.caches ac = some c)
    (hmiss : ∀ r ∈ c.tree v.type, m.read r ≠ some v) :
    splaytreeFind (handlerCmp ho build v.type) m.read v (c.tree v.type) = some none := by
  rw [h.find_eq ho build hc, List.find?_eq_none.mpr (by simpa using hmiss)]

/-- A get of a value the cache does not hold interns the address `malloc` returned. -/
theorem scamperAddrcacheGet_insert {ac c p v} (hc : m.caches ac = some c)
    (hmiss : ∀ r ∈ c.tree v.type, m.read r ≠ some v) :
    scamperAddrcacheGet ho build m ac v (some p) true true =
      some ((m.setCache ac (some (c.setTree v.type (p :: c.tree v.type)))).setAddr p
        (some ⟨v, 1, some ac⟩), some p) := by
  simp [scamperAddrcacheGet, hc, h.find_none ho build hc hmiss, scamperAddrAlloc, splaytreeInsert,
    Mem.setAddr_setCache]

/-- A get of a value the cache does not hold, where `malloc`, `memdup` or `splaytree_insert`
fails, returns `NULL` and leaves the heap as it was. -/
theorem scamperAddrcacheGet_fail {ac c v sa dup ins} (hc : m.caches ac = some c)
    (hmiss : ∀ r ∈ c.tree v.type, m.read r ≠ some v) (hsa : ∀ p ∈ sa, m.addrs p = none)
    (hfail : sa = none ∨ dup = false ∨ ins = false) :
    scamperAddrcacheGet ho build m ac v sa dup ins = some (m, none) := by
  rcases sa with _ | p
  · simp [scamperAddrcacheGet, hc, h.find_none ho build hc hmiss, scamperAddrAlloc]
  cases dup
  · simp [scamperAddrcacheGet, hc, h.find_none ho build hc hmiss, scamperAddrAlloc]
  obtain rfl : ins = false := by simpa using hfail
  have hfree : scamperAddrFree ho build (m.setAddr p (some ⟨v, 1, none⟩)) (some p) =
      some ((m.setAddr p (some ⟨v, 1, none⟩)).setAddr p none) :=
    scamperAddrFree_last ho build (o := ⟨v, 1, none⟩) (by simp) rfl rfl
  simp [scamperAddrcacheGet, hc, h.find_none ho build hc hmiss, scamperAddrAlloc, splaytreeInsert,
    hfree, Mem.setAddr_self _ _ (hsa p rfl)]

/-- What a get does on a heap of `CacheInv` where `malloc` returns `NULL` or a fresh pointer:
a hit, which fails where the `refcnt` is already `INT_MAX`, an insert, or a failed allocation or insert that leaves the heap as it was. -/
theorem scamperAddrcacheGet_cases {ac c sa} (v : ScamperAddr) (dup ins : Bool)
    (hc : m.caches ac = some c) (hsa : ∀ p ∈ sa, m.addrs p = none) :
    (∃ q ∈ c.tree v.type, m.read q = some v ∧ ∃ o, m.addrs q = some o ∧
      scamperAddrcacheGet ho build m ac v sa dup ins = if o.refcnt < intMax then
        some (m.setAddr q (some { o with refcnt := o.refcnt + 1 }), some q) else none) ∨
    ((∀ r ∈ c.tree v.type, m.read r ≠ some v) ∧
      ((∃ p, sa = some p ∧ dup = true ∧ ins = true ∧
        scamperAddrcacheGet ho build m ac v sa dup ins =
          some ((m.setCache ac (some (c.setTree v.type (p :: c.tree v.type)))).setAddr p
            (some ⟨v, 1, some ac⟩), some p)) ∨
      ((sa = none ∨ dup = false ∨ ins = false) ∧
        scamperAddrcacheGet ho build m ac v sa dup ins = some (m, none)))) := by
  by_cases hhit : ∃ q ∈ c.tree v.type, m.read q = some v
  · obtain ⟨q, hq, hv⟩ := hhit
    exact .inl ⟨q, hq, hv, scamperAddrcacheGet_hit ho build h sa dup ins hc hq hv⟩
  · have hmiss : ∀ r ∈ c.tree v.type, m.read r ≠ some v := by simpa using hhit
    refine .inr ⟨hmiss, ?_⟩
    by_cases hok : ∃ p, sa = some p ∧ dup = true ∧ ins = true
    · obtain ⟨p, rfl, rfl, rfl⟩ := hok
      exact .inl ⟨p, rfl, rfl, rfl, scamperAddrcacheGet_insert ho build h hc hmiss⟩
    · have hfail : sa = none ∨ dup = false ∨ ins = false := by
        rcases sa with _ | p <;> cases dup <;> cases ins <;> first
          | exact .inl rfl | exact .inr (.inl rfl) | exact .inr (.inr rfl)
          | exact absurd ⟨p, rfl, rfl, rfl⟩ hok
      exact .inr ⟨hfail, scamperAddrcacheGet_fail ho build h hc hmiss hsa hfail⟩

end Get

/-! ### `scamper_addrcache_free` and `scamper_addrcache_alloc` -/

/-- `internal` cleared on the live addresses at the pointers that satisfy `S`: what `free_cb`
does over trees. -/
def Mem.clearInternal (m : Mem) (S : Ptr → Prop) [DecidablePred S] : Mem where
  addrs q := (m.addrs q).map fun o => if S q then { o with internal := none } else o
  caches := m.caches

section CacheFree

variable {m : Mem}

theorem Mem.clearInternal_congr {S S' : Ptr → Prop} [DecidablePred S] [DecidablePred S']
    (hS : ∀ q, m.addrs q ≠ none → (S q ↔ S' q)) : m.clearInternal S = m.clearInternal S' := by
  ext1
  · funext q
    cases hq : m.addrs q
    · simp [Mem.clearInternal, hq]
    · simp [Mem.clearInternal, hq, hS q (by simp [hq])]
  · rfl

theorem Mem.clearInternal_clearInternal (S S' : Ptr → Prop) [DecidablePred S]
    [DecidablePred S'] :
    (m.clearInternal S).clearInternal S' = m.clearInternal fun q => S q ∨ S' q := by
  ext1
  · funext q
    cases hq : m.addrs q <;> by_cases hS : S q <;> by_cases hS' : S' q <;>
      simp [Mem.clearInternal, hS, hS', hq]
  · rfl

theorem Mem.clearInternal_of_forall {S : Ptr → Prop} [DecidablePred S] (hS : ∀ q, ¬ S q) :
    m.clearInternal S = m := by
  ext1
  · funext q; cases hq : m.addrs q <;> simp [Mem.clearInternal, hS, hq]
  · rfl

@[simp]
theorem Mem.addrs_clearInternal_eq_none {S : Ptr → Prop} [DecidablePred S] {q : Ptr} :
    (m.clearInternal S).addrs q = none ↔ m.addrs q = none := by
  simp [Mem.clearInternal]

/-- `splaytree_free(tree, free_cb)` clears `internal` on the members of `tree`. -/
theorem splaytreeFree_freeCb {l : List Ptr} (hl : ∀ q ∈ l, m.addrs q ≠ none) :
    splaytreeFree freeCb m l = some (m.clearInternal (· ∈ l)) := by
  induction l generalizing m with
  | nil => simp [splaytreeFree, Mem.clearInternal_of_forall]
  | cons q qs ih =>
    obtain ⟨o, ho⟩ := Option.ne_none_iff_exists'.mp (hl q (List.mem_cons_self q qs))
    have hfree : freeCb m q = some (m.clearInternal (· = q)) := by
      simp only [freeCb, ho, Option.map_some', Option.some.injEq]
      refine Mem.ext (funext fun r => ?_) rfl
      by_cases hr : r = q <;> simp [Mem.clearInternal, hr, ho]
    have hlive : ∀ r ∈ qs, (m.clearInternal (· = q)).addrs r ≠ none := by
      simpa using fun r hr => hl r (List.mem_cons_of_mem q hr)
    simp only [splaytreeFree, List.foldlM_cons, hfree, Option.bind_eq_bind, Option.some_bind]
    rw [← splaytreeFree, ih hlive, Mem.clearInternal_clearInternal]
    exact congrArg some (Mem.clearInternal_congr fun r _ => by simp)

/-- The loop of `scamper_addrcache_free` over the trees `ts`. -/
theorem foldlM_splaytreeFree {c : AddrCache} :
    ∀ {m : Mem} (ts : List AddrType), (∀ t ∈ ts, ∀ q ∈ c.tree t, m.addrs q ≠ none) →
      ts.foldlM (fun m t => splaytreeFree freeCb m (c.tree t)) m =
        some (m.clearInternal fun q => ∃ t ∈ ts, q ∈ c.tree t)
  | m, [], _ => by simp [Mem.clearInternal_of_forall]
  | m, t :: ts, hl => by
    have hlive : ∀ t' ∈ ts, ∀ q ∈ c.tree t', (m.clearInternal (· ∈ c.tree t)).addrs q ≠ none := by
      simpa using fun t' ht' q hq => hl t' (List.mem_cons_of_mem t ht') q hq
    simp only [List.foldlM_cons, splaytreeFree_freeCb (hl t (List.mem_cons_self t ts)),
      Option.bind_eq_bind, Option.some_bind]
    rw [foldlM_splaytreeFree ts hlive, Mem.clearInternal_clearInternal]
    exact congrArg some (Mem.clearInternal_congr fun q _ => by simp)

theorem mem_handlerTypes (t : AddrType) : t ∈ handlerTypes := by
  cases t <;> simp [handlerTypes]

/-- Freeing a cache detaches exactly the addresses interned in it. -/
theorem scamperAddrcacheFree_eq (h : CacheInv m) {ac c} (hc : m.caches ac = some c) :
    scamperAddrcacheFree m ac = some (m.detach ac) := by
  have hlive : ∀ t ∈ handlerTypes.reverse, ∀ q ∈ c.tree t, m.addrs q ≠ none := fun t _ q hq => by
    obtain ⟨o, ho, -⟩ := h.member (m.tree_of_caches hc t ▸ hq); simp [ho]
  simp only [scamperAddrcacheFree, hc, Option.bind_eq_bind, Option.some_bind,
    foldlM_splaytreeFree _ hlive]
  refine congrArg some (Mem.ext (funext fun q => ?_) rfl)
  cases hq : m.addrs q with
  | none => simp [Mem.clearInternal, hq]
  | some o =>
    have hmem : (∃ t ∈ handlerTypes, q ∈ c.tree t) ↔ o.internal = some ac := by
      refine ⟨fun ⟨t, _, hqt⟩ => ?_, fun hi => ⟨o.val.type, mem_handlerTypes _, ?_⟩⟩
      · obtain ⟨o', ho', -, hi⟩ := h.member (m.tree_of_caches hc t ▸ hqt)
        rw [hq] at ho'; cases ho'; exact hi
      · exact m.tree_of_caches hc _ ▸ (h.internal hq hi).2
    simp [Mem.clearInternal, hq, hmem]

/-- An allocated cache has four empty trees; when a `splaytree_alloc` fails, the heap is as
it was. -/
theorem scamperAddrcacheAlloc_eq {ac} (hac : m.caches ac = none) (trees : Bool) :
    scamperAddrcacheAlloc m (some ac) trees =
      some (if trees then (m.setCache ac (some ⟨fun _ => []⟩), some ac) else (m, none)) := by
  cases trees
  · simp [scamperAddrcacheAlloc, scamperAddrcacheFree, handlerTypes, splaytreeFree,
      Mem.setCache_self _ _ hac]
  · rfl

end CacheFree

end Scamper
