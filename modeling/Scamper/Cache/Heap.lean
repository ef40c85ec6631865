import Scamper.Cache.Splaytree

/-!
The heap of the address cache: the live `scamper_addr_t` objects, each with its value,
`refcnt` and `internal` field, and the live `scamper_addrcache_t` objects, each with the
members of its four trees. `Mem.Fresh` is what `malloc` may return: a pointer to no live
object.

`Mem.detach` is what `scamper_addrcache_free` does to a heap whose trees and `internal`
fields agree (`Scamper.scamperAddrcacheFree_eq`).
-/

namespace Scamper

/-- `INT_MAX`: `refcnt` is an `int`, and `sa->refcnt++` at `INT_MAX` is a signed overflow. -/
def intMax : Nat := 2147483647

theorem one_le_intMax : 1 ≤ intMax := by decide

/-- A live `scamper_addr_t`: its value, `refcnt`, and `internal`, the cache that interned
it. `refcnt` is the `int` of the source: the calls that raise it fail at `intMax`, and in every
reachable state it lies in `1..intMax` (`Scamper.reachable_refcnt_eq_handles`). -/
structure AddrObj where
  val : ScamperAddr
  refcnt : Nat
  internal : Option Ptr
deriving DecidableEq

/-- A live `scamper_addrcache_t`: the members of `tree[t-1]` for each type `t`. -/
structure AddrCache where
  tree : AddrType → List Ptr

/-- `tree[t-1]` replaced by `l`. -/
def AddrCache.setTree (c : AddrCache) (t : AddrType) (l : List Ptr) : AddrCache :=
  ⟨Function.update c.tree t l⟩

@[simp]
theorem AddrCache.tree_setTree (c : AddrCache) (t t' : AddrType) (l : List Ptr) :
    (c.setTree t l).tree t' = if t' = t then l else c.tree t' :=
  Function.update_apply ..

/-- The heap: the live addresses and the live caches, by pointer. -/
@[ext]
structure Mem where
  addrs : Ptr → Option AddrObj
  caches : Ptr → Option AddrCache

namespace Mem

/-- The heap before any allocation. -/
def empty : Mem := ⟨fun _ => none, fun _ => none⟩

def setAddr (m : Mem) (p : Ptr) (o : Option AddrObj) : Mem :=
  { m with addrs := Function.update m.addrs p o }

def setCache (m : Mem) (p : Ptr) (c : Option AddrCache) : Mem :=
  { m with caches := Function.update m.caches p c }

/-- The value of the address at `p`, what a comparator reads. -/
def read (m : Mem) (p : Ptr) : Option ScamperAddr := (m.addrs p).map AddrObj.val

/-- The members of `tree[t-1]` of the cache at `ac`; none where no cache is live. -/
def tree (m : Mem) (ac : Ptr) (t : AddrType) : List Ptr :=
  match m.caches ac with
  | some c => c.tree t
  | none => []

/-- What `malloc` may return: a pointer to no live object. -/
def Fresh (m : Mem) (p : Ptr) : Prop := m.addrs p = none ∧ m.caches p = none

instance (m : Mem) (p : Ptr) : Decidable (m.Fresh p) :=
  decidable_of_iff ((m.addrs p).isNone ∧ (m.caches p).isNone) (by simp [Fresh])

/-- Every address interned in `ac` detached, and `ac` freed. -/
def detach (m : Mem) (ac : Ptr) : Mem where
  addrs p := (m.addrs p).map fun o =>
    if o.internal = some ac then { o with internal := none } else o
  caches := Function.update m.caches ac none

variable (m : Mem) (p q : Ptr)

@[simp]
theorem addrs_setAddr (o : Option AddrObj) :
    (m.setAddr p o).addrs q = if q = p then o else m.addrs q :=
  Function.update_apply ..

@[simp]
theorem caches_setAddr (o : Option AddrObj) : (m.setAddr p o).caches = m.caches := rfl

@[simp]
theorem addrs_setCache (c : Option AddrCache) : (m.setCache p c).addrs = m.addrs := rfl

@[simp]
theorem caches_setCache (c : Option AddrCache) :
    (m.setCache p c).caches q = if q = p then c else m.caches q :=
  Function.update_apply ..

@[simp]
theorem read_setCache (c : Option AddrCache) : (m.setCache p c).read = m.read := rfl

theorem read_setAddr (o : Option AddrObj) :
    (m.setAddr p o).read q = if q = p then o.map AddrObj.val else m.read q := by
  simp only [read, addrs_setAddr]; split_ifs <;> rfl

/-- Writing an object of the same value leaves every read as it was. -/
theorem read_setAddr_of_val {o o' : AddrObj} (hp : m.addrs p = some o) (hval : o'.val = o.val) :
    (m.setAddr p (some o')).read = m.read := by
  funext q; by_cases hq : q = p <;> simp [read_setAddr, hq, read, hp, hval]

@[simp]
theorem addrs_detach (ac : Ptr) : (m.detach ac).addrs q = (m.addrs q).map fun o =>
    if o.internal = some ac then { o with internal := none } else o := rfl

@[simp]
theorem caches_detach (ac : Ptr) :
    (m.detach ac).caches q = if q = ac then none else m.caches q :=
  Function.update_apply ..

theorem read_detach (ac : Ptr) : (m.detach ac).read = m.read := by
  funext q; simp only [read, addrs_detach, Option.map_map]
  congr 1; funext o; by_cases h : o.internal = some ac <;> simp [h]

theorem tree_of_caches {ac : Ptr} {c : AddrCache} (h : m.caches ac = some c) (t : AddrType) :
    m.tree ac t = c.tree t := by
  simp [tree, h]

@[simp]
theorem tree_setAddr (o : Option AddrObj) : (m.setAddr p o).tree = m.tree := rfl

@[simp]
theorem tree_setCache_some (c : AddrCache) (t : AddrType) :
    (m.setCache p (some c)).tree q t = if q = p then c.tree t else m.tree q t := by
  by_cases hq : q = p <;> simp [tree, hq]

@[simp]
theorem tree_setCache_none (t : AddrType) :
    (m.setCache p none).tree q t = if q = p then [] else m.tree q t := by
  by_cases hq : q = p <;> simp [tree, hq]

/-- A cache whose tree for `t` is replaced by `l`. -/
theorem tree_setCache_setTree {ac : Ptr} {c : AddrCache} (hc : m.caches ac = some c)
    (t : AddrType) (l : List Ptr) (ac' : Ptr) (t' : AddrType) :
    (m.setCache ac (some (c.setTree t l))).tree ac' t' =
      if ac' = ac ∧ t' = t then l else m.tree ac' t' := by
  by_cases hac : ac' = ac
  · subst hac; by_cases ht : t' = t <;> simp [ht, m.tree_of_caches hc]
  · simp [hac]

@[simp]
theorem tree_detach (ac : Ptr) (t : AddrType) :
    (m.detach ac).tree q t = if q = ac then [] else m.tree q t := by
  by_cases hq : q = ac <;> simp [tree, hq]

/-- Writing back what is already at `p` changes nothing. -/
theorem setAddr_self {o : Option AddrObj} (h : m.addrs p = o) : m.setAddr p o = m := by
  ext1
  · funext q; by_cases hq : q = p <;> simp [hq, h]
  · rfl

theorem setCache_self {c : Option AddrCache} (h : m.caches p = c) : m.setCache p c = m := by
  ext1
  · rfl
  · funext q; by_cases hq : q = p <;> simp [hq, h]

@[simp]
theorem setAddr_setAddr (o o' : Option AddrObj) :
    (m.setAddr p o).setAddr p o' = m.setAddr p o' := by
  ext1
  · funext q; by_cases hq : q = p <;> simp [hq]
  · rfl

@[simp]
theorem setCache_setCache (c c' : Option AddrCache) :
    (m.setCache p c).setCache p c' = m.setCache p c' := by
  ext1
  · rfl
  · funext q; by_cases hq : q = p <;> simp [hq]

theorem setAddr_setCache (o : Option AddrObj) (c : Option AddrCache) :
    (m.setAddr p o).setCache q c = (m.setCache q c).setAddr p o := rfl

end Mem

end Scamper
