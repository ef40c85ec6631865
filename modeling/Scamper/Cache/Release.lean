import Scamper.Cache.System

/-!
What releases undo, and what a run of releases leaves.

* `sysStep_addrFree_undo`: from a reachable state, a call that hands out a handle (a hit or a
  miss of `scamper_addrcache_get`, `scamper_addr_alloc`, `scamper_addr_use`) is undone by
  the `scamper_addr_free` of that handle: the state is again the one before the call, trees,
  `refcnt` and `internal` fields included;
* `runOps_addrFree_perm`: the `scamper_addr_free` of any of the handles the caller holds, in
  any order, leaves the heap `Mem.retain` of the handles that remain, so the order of the
  releases never matters;
* `runOps_free_held`: releasing every handle, in any order, frees every address and leaves
  every cache live and empty: a cache keeps no address alive.
-/

namespace Scamper

/-! ### Restoring a field -/

@[simp]
theorem AddrCache.setTree_setTree (c : AddrCache) (t : AddrType) (l l' : List Ptr) :
    (c.setTree t l).setTree t l' = c.setTree t l' := by
  simp [AddrCache.setTree]

theorem AddrCache.setTree_self (c : AddrCache) (t : AddrType) : c.setTree t (c.tree t) = c := by
  simp [AddrCache.setTree]

/-! ### The heap the remaining handles keep -/

/-- The heap once the caller holds exactly the handles `h`: the live addresses are those `h`
holds, each with `refcnt` the number of its handles in `h`, and each tree keeps its members
that `h` holds. -/
def Mem.retain (m : Mem) (h : List Ptr) : Mem where
  addrs q := if q ∈ h then (m.addrs q).map fun o => { o with refcnt := h.count q } else none
  caches ac := (m.caches ac).map fun c => ⟨fun t => (c.tree t).filter (· ∈ h)⟩

namespace Mem

variable (m : Mem) (h : List Ptr)

@[simp]
theorem addrs_retain (q : Ptr) : (m.retain h).addrs q =
    if q ∈ h then (m.addrs q).map fun o => { o with refcnt := h.count q } else none := rfl

@[simp]
theorem caches_retain (ac : Ptr) : (m.retain h).caches ac =
    (m.caches ac).map fun c => ⟨fun t => (c.tree t).filter (· ∈ h)⟩ := rfl

theorem tree_retain (ac : Ptr) (t : AddrType) :
    (m.retain h).tree ac t = (m.tree ac t).filter (· ∈ h) := by
  cases hc : m.caches ac <;> simp [tree, hc]

/-- A `refcnt` rewritten does not show in the heap `h` keeps. -/
theorem retain_setAddr_refcnt {p : Ptr} {o : AddrObj} (hp : m.addrs p = some o) (n : Nat) :
    (m.setAddr p (some { o with refcnt := n })).retain h = m.retain h := by
  ext1
  · funext q; by_cases hq : q = p <;> simp [hq, hp]
  · rfl

/-- Nor does writing or freeing an address that `h` does not hold, -/
theorem retain_setAddr_of_not_mem {p : Ptr} (hp : p ∉ h) (o : Option AddrObj) :
    (m.setAddr p o).retain h = m.retain h := by
  ext1
  · funext q; by_cases hq : q = p <;> simp [hq, hp]
  · rfl

/-- nor taking such an address out of a tree. -/
theorem retain_setCache_erase {ac p : Ptr} {c : AddrCache} (hc : m.caches ac = some c)
    (hp : p ∉ h) (t : AddrType) :
    (m.setCache ac (some (c.setTree t ((c.tree t).erase p)))).retain h = m.retain h := by
  ext1
  · rfl
  · funext ac'
    by_cases hac : ac' = ac
    · subst hac
      simp only [caches_retain, caches_setCache, if_pos, hc, Option.map_some', Option.some.injEq,
        AddrCache.mk.injEq]
      funext t'
      by_cases ht : t' = t
      · subst ht
        rw [AddrCache.tree_setTree, if_pos rfl, ← List.erase_filter,
          List.erase_of_not_mem (by simp [hp])]
      · simp [ht]
    · simp [hac]

end Mem

theorem diff_self_eq_nil {α : Type} [DecidableEq α] : ∀ l : List α, l.diff l = []
  | [] => rfl
  | a :: l => by rw [List.diff_cons, List.erase_cons_head, diff_self_eq_nil l]

/-- With exactly the handles it holds, a state of the invariant keeps its whole heap. -/
theorem SysInv.retain_self {s : Sys} (hs : SysInv s) : s.mem.retain s.held = s.mem := by
  ext1
  · funext q
    by_cases hq : q ∈ s.held
    · obtain ⟨o, ho, hc⟩ := hs.own.live hq
      simp [hq, ho, ← hc]
    · simp [hq, hs.own.addrs_eq_none_iff.mpr hq]
  · funext ac
    cases hc : s.mem.caches ac with
    | none => simp [hc]
    | some c =>
      simp only [Mem.caches_retain, hc, Option.map_some', Option.some.injEq]
      obtain ⟨tr⟩ := c
      congr; funext t
      refine List.filter_eq_self.mpr fun q hq => ?_
      obtain ⟨o, ho, -⟩ := hs.cache.member (s.mem.tree_of_caches hc t ▸ hq)
      simpa using (hs.own.refcnt_eq ho).1

/-! ### Undoing a call -/

section Undo

variable (ho : HostOrder) (build : Build)

/-- A transition that hands out the handle `q` is undone by the `scamper_addr_free` of `q`. -/
theorem Trans.addrFree_undo {s s' : Sys} (ht : Trans s s') (hs : SysInv s) {q : Ptr}
    (hq : s'.held = q :: s.held) : sysStep ho build s' (.addrFree q) = some s := by
  have hne : ∀ {l : List Ptr}, l.length ≤ s.held.length → l ≠ q :: s.held := fun h he => by
    rw [he, List.length_cons] at h; omega
  obtain ⟨m, held⟩ := s
  cases ht with
  | same | addCache _ | detach _ => exact absurd hq (hne le_rfl)
  | release _ _ | free _ _ _ | unintern _ _ _ _ => exact absurd hq (hne (List.length_erase_le _ _))
  | @acquire r o hr _ =>
    obtain rfl : r = q := (List.cons.inj hq).1
    have h1 : 0 < o.refcnt := by
      obtain ⟨hmem, hc⟩ := hs.own.refcnt_eq hr
      exact hc ▸ List.count_pos_iff.mpr hmem
    have hfree := scamperAddrFree_of_lt ho build
      (m := m.setAddr r (some { o with refcnt := o.refcnt + 1 })) (p := r)
      (o := { o with refcnt := o.refcnt + 1 }) (by simp) (by simpa)
    simp [sysStep, hfree, Mem.setAddr_self _ _ hr]
  | @alloc p v hp =>
    obtain rfl : p = q := (List.cons.inj hq).1
    have hfree := scamperAddrFree_last ho build (m := m.setAddr p (some ⟨v, 1, none⟩)) (p := p)
      (o := ⟨v, 1, none⟩) (by simp) rfl rfl
    simp [sysStep, hfree, Mem.setAddr_self _ _ hp]
  | @intern ac c p v hc hp hmiss =>
    obtain rfl : p = q := (List.cons.inj hq).1
    obtain ⟨c', hc', hfree⟩ := scamperAddrFree_last_interned ho build
      (hs.cache.intern hc hp hmiss 1) (p := p) (o := ⟨v, 1, some ac⟩) (by simp) rfl rfl
    obtain rfl : c' = c.setTree v.type (p :: c.tree v.type) := by simpa using hc'.symm
    simp [sysStep, hfree, Mem.setAddr_setCache, AddrCache.setTree_self, Mem.setCache_self _ _ hc,
      Mem.setAddr_self _ _ hp]

/-- The `scamper_addr_free` of a held handle `q` drops one handle to `q`, and the heap kept by
any handles that remain after it is the one they kept before it. -/
theorem sysStep_addrFree_retain {s s₁ : Sys} (hs : SysInv s) {q : Ptr} (hq : q ∈ s.held)
    (hstep : sysStep ho build s (.addrFree q) = some s₁) {h : List Ptr} (hh : h ⊆ s₁.held) :
    s₁.held = s.held.erase q ∧ s₁.mem.retain h = s.mem.retain h := by
  have hheld : s₁.held = s.held.erase q := sysStep_held hstep
  obtain ⟨o, hqo, hcases⟩ := sysStep_addrFree_cases ho build hs hq
  have hlast : o.refcnt = 1 → q ∉ h := fun h1 hqh => by
    have := List.count_pos_iff.mpr (hheld ▸ hh hqh)
    rw [List.count_erase_self, ← (hs.own.refcnt_eq hqo).2, h1] at this
    omega
  refine ⟨hheld, ?_⟩
  rcases hcases with ⟨-, hst⟩ | ⟨h1, -, hst⟩ | ⟨ac, c, h1, -, hc, hst⟩ <;>
    rw [hstep, Option.some.injEq] at hst <;> subst hst
  · exact Mem.retain_setAddr_refcnt _ _ hqo _
  · exact Mem.retain_setAddr_of_not_mem _ _ (hlast h1) _
  · rw [Mem.retain_setAddr_of_not_mem _ _ (hlast h1), Mem.retain_setCache_erase _ _ hc (hlast h1)]

end Undo

section Reach

variable {ho : HostOrder} {build : Build}

/-- **Every handle-returning call is undone by its release.** From a reachable state, an
allowed call that hands the caller a new handle `q` (a hit or a miss of
`scamper_addrcache_get`, `scamper_addr_alloc`, `scamper_addr_use`), followed by the
`scamper_addr_free` of `q`, leaves exactly the state before the call: a hit's `refcnt` is
back, and a new address is freed and, if it was interned, out of its tree again. -/
theorem sysStep_addrFree_undo {s s' : Sys} (hs : Reachable ho build s) {op : Op}
    (ha : Allowed s op) (hstep : sysStep ho build s op = some s') {q : Ptr}
    (hq : s'.held = q :: s.held) : sysStep ho build s' (.addrFree q) = some s := by
  exact (sysStep_trans ho build hs.sysInv ha hstep).addrFree_undo ho build hs.sysInv hq

theorem sysStep_addrFree_undo_alloc :
    let v : ScamperAddr := ⟨.ipv4, [10, 0, 0, 1], rfl⟩
    let s' : Sys := ⟨Mem.empty.setAddr 0 (some ⟨v, 1, none⟩), [0]⟩
    Reachable .bigEndian .posix ⟨Mem.empty, []⟩ ∧
      Allowed ⟨Mem.empty, []⟩ (.addrAlloc v (some 0) true) ∧
      sysStep .bigEndian .posix ⟨Mem.empty, []⟩ (.addrAlloc v (some 0) true) = some s' ∧
      s'.held = 0 :: [] ∧ sysStep .bigEndian .posix s' (.addrFree 0) = some ⟨Mem.empty, []⟩ := by
  intro v s'
  have ha : Allowed ⟨Mem.empty, []⟩ (.addrAlloc v (some 0) true) := ⟨rfl, rfl⟩
  exact ⟨.init, ha, rfl, rfl, sysStep_addrFree_undo .init ha rfl rfl⟩

/-! ### Runs of releases -/

/-- The `scamper_addr_free` of the handles `l`, some of those the caller holds, in order. -/
theorem runOps_addrFree_retain {s : Sys} (hs : Reachable ho build s) :
    ∀ {l : List Ptr}, l.Subperm s.held →
      runOps ho build s (l.map .addrFree) = some ⟨s.mem.retain (s.held.diff l), s.held.diff l⟩ ∧
        Reachable ho build ⟨s.mem.retain (s.held.diff l), s.held.diff l⟩
  | [], _ => by
    rw [List.diff_nil, hs.sysInv.retain_self]
    exact ⟨rfl, hs⟩
  | q :: l, hl => by
    have hq : Allowed s (.addrFree q) := hl.subset (List.mem_cons_self q l)
    obtain ⟨s₁, h₁⟩ := Option.ne_none_iff_exists'.mp
      (mt (sysStep_eq_none_iff ho build hs.sysInv hq).mp id)
    have hl₁ : l.Subperm s₁.held := by
      rw [sysStep_held h₁]; simpa using hl.erase q
    obtain ⟨hheld, hretain⟩ :=
      sysStep_addrFree_retain ho build hs.sysInv hq h₁ (List.diff_sublist _ l).subset
    rw [List.map_cons, runOps, h₁, Option.some_bind, List.diff_cons, ← hheld, ← hretain]
    exact runOps_addrFree_retain (hs.step hq h₁) hl₁

/-- **The order of releases never matters.** From a reachable state, the `scamper_addr_free`
of the handles `l'`, any reordering of some of the handles `l` the caller holds, succeeds call
by call and leaves the caller holding the rest, `s.held.diff l`, over the heap `Mem.retain`
of the rest: each live address keeps its value and `internal` field with `refcnt` its number
of remaining handles, the addresses with no handle left are freed, and each tree keeps
exactly its members that are still held. -/
theorem runOps_addrFree_perm {s : Sys} (hs : Reachable ho build s) {l l' : List Ptr}
    (hl : l.Subperm s.held) (hperm : l'.Perm l) :
    runOps ho build s (l'.map .addrFree) = some ⟨s.mem.retain (s.held.diff l), s.held.diff l⟩ := by
  rw [(runOps_addrFree_retain hs (hperm.subperm.trans hl)).1, List.Perm.diff_left s.held hperm]

theorem runOps_addrFree_perm_two :
    let v : ScamperAddr := ⟨.ipv4, [10, 0, 0, 1], rfl⟩
    let w : ScamperAddr := ⟨.ipv4, [10, 0, 0, 2], rfl⟩
    let s : Sys := ⟨(Mem.empty.setAddr 0 (some ⟨v, 1, none⟩)).setAddr 1 (some ⟨w, 1, none⟩),
      [1, 0]⟩
    Reachable .bigEndian .posix s ∧ List.Subperm [0, 1] s.held ∧ List.Perm [1, 0] [0, 1] ∧
      runOps .bigEndian .posix s ([1, 0].map .addrFree) =
        some ⟨s.mem.retain (s.held.diff [0, 1]), s.held.diff [0, 1]⟩ := by
  intro v w s
  have h₁ : Reachable .bigEndian .posix ⟨Mem.empty.setAddr 0 (some ⟨v, 1, none⟩), [0]⟩ :=
    .step .init (show Allowed _ (.addrAlloc v (some 0) true) from ⟨rfl, rfl⟩) rfl
  have hs : Reachable .bigEndian .posix s :=
    .step h₁ (show Allowed _ (.addrAlloc w (some 1) true) from ⟨rfl, rfl⟩) rfl
  have hperm : List.Perm [1, 0] [0, 1] := .swap 0 1 []
  have hl : List.Subperm [0, 1] s.held := (List.Perm.swap 1 0 []).subperm
  exact ⟨hs, hl, hperm, runOps_addrFree_perm hs hl hperm⟩

/-- **No address outlives its handles.** From a reachable state, the `scamper_addr_free` of
every handle the caller holds, in any order, succeeds call by call and leaves a reachable
state with no handle and no live address, in which the caches live before are still live
and all their trees are empty: a cache keeps no address alive. -/
theorem runOps_free_held {s : Sys} (hs : Reachable ho build s) {l : List Ptr}
    (hl : l.Perm s.held) :
    ∃ s', runOps ho build s (l.map .addrFree) = some s' ∧ Reachable ho build s' ∧
      s'.held = [] ∧ (∀ q, s'.mem.addrs q = none) ∧
      (∀ ac, (s'.mem.caches ac).isSome = (s.mem.caches ac).isSome) ∧
      ∀ ac t, s'.mem.tree ac t = [] := by
  obtain ⟨hrun, hs'⟩ := runOps_addrFree_retain hs hl.subperm
  rw [List.Perm.diff_left s.held hl, diff_self_eq_nil] at hrun hs'
  exact ⟨_, hrun, hs', rfl, fun q => by simp, fun ac => by simp,
    fun ac t => by simp [Mem.tree_retain]⟩

theorem runOps_free_held_internedTwice :
    let s := internedTwice
    Reachable .bigEndian .posix s ∧ List.Perm [2, 2] s.held ∧
      ∃ s', runOps .bigEndian .posix s ([2, 2].map .addrFree) = some s' ∧
        Reachable .bigEndian .posix s' ∧ s'.held = [] ∧ (∀ q, s'.mem.addrs q = none) ∧
        (∀ ac, (s'.mem.caches ac).isSome = (s.mem.caches ac).isSome) ∧
        ∀ ac t, s'.mem.tree ac t = [] :=
  ⟨reachable_internedTwice, .refl _, runOps_free_held reachable_internedTwice (.refl _)⟩

end Reach

end Scamper
