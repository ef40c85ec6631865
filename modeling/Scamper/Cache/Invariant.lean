import Mathlib.Data.List.Nodup
import Scamper.Cache.Heap

/-!
The invariant of the address cache, and the heap updates that keep it.

`CacheInv` says that the trees of the live caches and the `internal` fields of the live
addresses describe one relation, and that no tree holds two addresses of one value. Every
update below is what one operation of `scamper_addr.c` does to the heap
(`Scamper.Cache.Ops`), and each keeps the invariant:

* `CacheInv.setRefcnt`: a hit, a `scamper_addr_use`, or a release that is not the last;
* `CacheInv.alloc` and `CacheInv.free`: an address outside every cache allocated or freed;
* `CacheInv.intern` and `CacheInv.unintern`: an address inserted into a tree, or removed from
  it and freed;
* `CacheInv.addCache` and `CacheInv.detach`: a cache allocated, or freed with its members
  detached.
-/

namespace Scamper

/-- The invariant of the interning caches. -/
structure CacheInv (m : Mem) : Prop where
  /-- Every member of `tree[t-1]` of the cache `ac` is a live address of type `t` interned in
  `ac`. -/
  member : ∀ {ac t q}, q ∈ m.tree ac t →
    ∃ o, m.addrs q = some o ∧ o.val.type = t ∧ o.internal = some ac
  /-- A live address interned in `ac` is in the tree of its type of `ac`, a live cache. -/
  internal : ∀ {q o ac}, m.addrs q = some o → o.internal = some ac →
    (m.caches ac).isSome ∧ q ∈ m.tree ac o.val.type
  /-- The members of one tree have pairwise different values. -/
  nodup : ∀ ac t, ((m.tree ac t).map m.read).Nodup

theorem cacheInv_empty : CacheInv Mem.empty where
  member hq := by simp [Mem.empty, Mem.tree] at hq
  internal hq := by simp [Mem.empty] at hq
  nodup _ _ := by simp [Mem.empty, Mem.tree]

namespace CacheInv

variable {m : Mem} (h : CacheInv m)
include h

/-- A member of `ac`'s tree for `t` is not `p` when `p` is not a live address of type `t`
interned in `ac`. -/
theorem ne_of_mem {ac t q p} (hq : q ∈ m.tree ac t)
    (hp : ∀ o, m.addrs p = some o → o.internal = some ac → o.val.type ≠ t) : q ≠ p := by
  rintro rfl
  obtain ⟨o, ho, ht, hi⟩ := h.member hq
  exact hp o ho hi ht

/-- Members of a tree are not a pointer that holds no live address. -/
theorem ne_of_addrs_none {ac t q p} (hq : q ∈ m.tree ac t) (hp : m.addrs p = none) : q ≠ p :=
  h.ne_of_mem hq (by simp [hp])

theorem tree_nodup (ac : Ptr) (t : AddrType) : (m.tree ac t).Nodup :=
  List.Nodup.of_map _ (h.nodup ac t)

/-- Where the reads of a list of members do not change, their values stay pairwise
different. -/
theorem nodup_of_read {m' : Mem} {l : List Ptr} {ac t} (hl : l.Sublist (m.tree ac t))
    (hread : ∀ q ∈ l, m'.read q = m.read q) : (l.map m'.read).Nodup := by
  rw [List.map_congr_left hread]; exact List.Nodup.sublist (hl.map _) (h.nodup ac t)

theorem setRefcnt {p o} (hp : m.addrs p = some o) (n : Nat) :
    CacheInv (m.setAddr p (some { o with refcnt := n })) := by
  have hread : (m.setAddr p (some { o with refcnt := n })).read = m.read :=
    m.read_setAddr_of_val p hp rfl
  refine ⟨fun {ac t q} hq => ?_, fun {q o' ac} hq hi => ?_, fun ac t => ?_⟩
  · obtain ⟨o', ho', ht, hi⟩ := h.member hq
    by_cases hqp : q = p <;> simp_all
  · by_cases hqp : q = p
    · simp only [hqp, Mem.addrs_setAddr, if_pos, Option.some.injEq] at hq
      subst hq; simpa [hqp] using h.internal hp hi
    · simp only [Mem.addrs_setAddr, hqp, if_false] at hq
      exact h.internal hq hi
  · rw [hread]; exact h.nodup ac t

theorem alloc {p} (hp : m.addrs p = none) (v : ScamperAddr) (n : Nat) :
    CacheInv (m.setAddr p (some ⟨v, n, none⟩)) := by
  refine ⟨fun {ac t q} hq => ?_, fun {q o ac} hq hi => ?_, fun ac t => ?_⟩
  · simpa [h.ne_of_addrs_none hq hp] using h.member hq
  · by_cases hqp : q = p
    · simp [hqp] at hq; simp [← hq] at hi
    · simp only [Mem.addrs_setAddr, hqp, if_false] at hq
      exact h.internal hq hi
  · exact h.nodup_of_read (List.Sublist.refl _) fun q hq => by
      simp [Mem.read_setAddr, h.ne_of_addrs_none hq hp]

theorem free {p o} (hp : m.addrs p = some o) (hi : o.internal = none) :
    CacheInv (m.setAddr p none) := by
  have hne : ∀ {ac t q}, q ∈ m.tree ac t → q ≠ p := fun hq => h.ne_of_mem hq (by simp [hp, hi])
  refine ⟨fun {ac t q} hq => ?_, fun {q o ac} hq hi => ?_, fun ac t => ?_⟩
  · simpa [hne hq] using h.member hq
  · by_cases hqp : q = p
    · simp [hqp] at hq
    · simp only [Mem.addrs_setAddr, hqp, if_false] at hq
      exact h.internal hq hi
  · exact h.nodup_of_read (List.Sublist.refl _) fun q hq => by simp [Mem.read_setAddr, hne hq]

/-- Inserting a fresh address of value `v` into `ac`'s tree for `v.type`, which holds no
address of that value, and setting its `internal` to `ac`, keeps the invariant. -/
theorem intern {ac c p v} (hc : m.caches ac = some c) (hp : m.addrs p = none)
    (hmiss : ∀ r ∈ c.tree v.type, m.read r ≠ some v) (n : Nat) :
    CacheInv ((m.setCache ac (some (c.setTree v.type (p :: c.tree v.type)))).setAddr p
      (some ⟨v, n, some ac⟩)) := by
  have htree := m.tree_of_caches hc
  have hne : ∀ {ac' t q}, q ∈ m.tree ac' t → q ≠ p := fun hq => h.ne_of_addrs_none hq hp
  refine ⟨fun {ac' t q} hq => ?_, fun {q o ac'} hq hi => ?_, fun ac' t => ?_⟩
  · rw [Mem.tree_setAddr, m.tree_setCache_setTree hc] at hq
    split_ifs at hq with hnew
    · obtain ⟨rfl, rfl⟩ := hnew
      rcases List.mem_cons.mp hq with rfl | hq
      · exact ⟨⟨v, n, some _⟩, by simp, rfl, rfl⟩
      · simpa [hne (htree _ ▸ hq)] using h.member (htree _ ▸ hq)
    · simpa [hne hq] using h.member hq
  · rw [Mem.tree_setAddr, m.tree_setCache_setTree hc]
    by_cases hqp : q = p
    · subst hqp
      simp only [Mem.addrs_setAddr, if_pos, Option.some.injEq] at hq
      subst hq
      obtain rfl := Option.some.inj hi
      simp [hc]
    · simp only [Mem.addrs_setAddr, if_neg hqp] at hq
      obtain ⟨hlive, hq'⟩ := h.internal hq hi
      refine ⟨by by_cases hac : ac' = ac <;> simp [hac, hlive], ?_⟩
      split_ifs with hnew
      · obtain ⟨rfl, ht⟩ := hnew
        exact .tail _ (htree _ ▸ ht ▸ hq')
      · exact hq'
  · rw [Mem.tree_setAddr, m.tree_setCache_setTree hc]
    split_ifs with hnew
    · obtain ⟨rfl, rfl⟩ := hnew
      rw [List.map_cons, List.nodup_cons, ← htree]
      refine ⟨fun hmem => ?_, h.nodup_of_read (List.Sublist.refl _) fun q hq => by
        simp [Mem.read_setAddr, hne hq]⟩
      obtain ⟨r, hr, hrv⟩ := List.mem_map.mp hmem
      exact hmiss r (htree _ ▸ hr) (by simpa [Mem.read_setAddr, hne hr] using hrv)
    · exact h.nodup_of_read (List.Sublist.refl _) fun q hq => by simp [Mem.read_setAddr, hne hq]

/-- Removing an address interned in `ac` from `ac`'s tree for its type and freeing it keeps
the invariant. -/
theorem unintern {ac c p o} (hp : m.addrs p = some o) (hi : o.internal = some ac)
    (hc : m.caches ac = some c) :
    CacheInv ((m.setCache ac (some (c.setTree o.val.type ((c.tree o.val.type).erase p)))).setAddr
      p none) := by
  have htree := m.tree_of_caches hc
  have hnd : (c.tree o.val.type).Nodup := htree _ ▸ h.tree_nodup ac o.val.type
  have hsub : ∀ ac' t, (((m.setCache ac (some (c.setTree o.val.type
      ((c.tree o.val.type).erase p)))).setAddr p none).tree ac' t).Sublist (m.tree ac' t) := by
    intro ac' t
    rw [Mem.tree_setAddr, m.tree_setCache_setTree hc]
    split_ifs with hnew
    · obtain ⟨rfl, rfl⟩ := hnew
      exact htree _ ▸ List.erase_sublist _ _
    · exact List.Sublist.refl _
  have hne : ∀ {ac' t q}, q ∈ ((m.setCache ac (some (c.setTree o.val.type
      ((c.tree o.val.type).erase p)))).setAddr p none).tree ac' t → q ≠ p := by
    intro ac' t q hq
    rw [Mem.tree_setAddr, m.tree_setCache_setTree hc] at hq
    split_ifs at hq with hnew
    · exact (hnd.mem_erase_iff.mp hq).1
    · refine h.ne_of_mem hq ?_
      simp only [hp, Option.some.injEq, forall_eq', hi]
      rintro rfl rfl; exact hnew ⟨rfl, rfl⟩
  refine ⟨fun {ac' t q} hq => ?_, fun {q o' ac'} hq hi' => ?_, fun ac' t => ?_⟩
  · simpa [hne hq] using h.member ((hsub ac' t).subset hq)
  · have hqp : q ≠ p := by rintro rfl; simp at hq
    simp only [Mem.addrs_setAddr, hqp, if_false] at hq
    obtain ⟨hlive, hq'⟩ := h.internal hq hi'
    refine ⟨by by_cases hac : ac' = ac <;> simp [hac, hlive], ?_⟩
    rw [Mem.tree_setAddr, m.tree_setCache_setTree hc]
    split_ifs with hnew
    · obtain ⟨rfl, ht⟩ := hnew
      exact hnd.mem_erase_iff.mpr ⟨hqp, htree _ ▸ ht ▸ hq'⟩
    · exact hq'
  · exact h.nodup_of_read (hsub ac' t) fun q hq => by simp [Mem.read_setAddr, hne hq]

/-- Freeing the cache `ac` and detaching the addresses interned in it keeps the invariant. -/
theorem detach (ac : Ptr) : CacheInv (m.detach ac) := by
  refine ⟨fun {ac' t q} hq => ?_, fun {q o' ac'} hq hi => ?_, fun ac' t => ?_⟩
  · by_cases hac : ac' = ac
    · simp [hac] at hq
    · simp only [Mem.tree_detach, hac, if_false] at hq
      obtain ⟨o, ho, ht, hi⟩ := h.member hq
      exact ⟨o, by simp [ho, hi, hac], ht, hi⟩
  · obtain ⟨o, ho, rfl⟩ := Option.map_eq_some'.mp hq
    by_cases hio : o.internal = some ac
    · simp [hio] at hi
    · simp only [hio, if_false] at hi ⊢
      have hac : ac' ≠ ac := by rintro rfl; exact hio hi
      simpa [hac] using h.internal ho hi
  · by_cases hac : ac' = ac
    · simp [hac]
    · simpa [hac, Mem.read_detach] using h.nodup ac' t

/-- Allocating a cache with empty trees at a pointer where no cache is live keeps the
invariant. -/
theorem addCache {ac} (hac : m.caches ac = none) :
    CacheInv (m.setCache ac (some ⟨fun _ => []⟩)) := by
  refine ⟨fun {ac' t q} hq => ?_, fun {q o ac'} hq hi => ?_, fun ac' t => ?_⟩
  · by_cases hac' : ac' = ac
    · simp [hac'] at hq
    · simp only [Mem.tree_setCache_some, hac', if_false] at hq
      exact h.member hq
  · obtain ⟨hlive, hq'⟩ := h.internal hq hi
    have hac' : ac' ≠ ac := by rintro rfl; simp [hac] at hlive
    simpa [hac'] using ⟨hlive, hq'⟩
  · by_cases hac' : ac' = ac
    · simp [hac']
    · simpa [hac'] using h.nodup ac' t

end CacheInv

end Scamper
