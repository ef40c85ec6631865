import Scamper.Cache.System

/-!
Interning: what `scamper_addrcache_get` gives from a reachable state.

* `scamperAddrcacheGet_interns`: a successful get returns an address of the value asked
  for: the one the cache holds, with its `refcnt` one higher and nothing allocated, or a
  fresh address with `refcnt` 1 that is now in the cache. Two successful gets of one value
  return the same address as long as the first result and the cache are live, the second
  succeeds while the caller holds fewer than `INT_MAX` handles to it, and a get after the
  release of the first result's last handle returns a new address.
* `scamperAddrcacheGet_fail_unchanged`: a get whose allocation or insert fails returns
  `NULL` and leaves the state as it was.
* `RunWithin.read_eq`: an address keeps its value for as long as the caller holds a handle
  to it, whatever other calls run meanwhile.
-/

namespace Scamper

/-! ### Addresses keep their value and their cache -/

/-- From `s` to `s'`, an address that stays live keeps its value, and stays interned in its
cache while that cache is live. -/
def Keeps (s s' : Sys) : Prop :=
  ∀ q o o', s.mem.addrs q = some o → s'.mem.addrs q = some o' →
    o'.val = o.val ∧ ∀ ac, o.internal = some ac → (s'.mem.caches ac).isSome →
      o'.internal = some ac

theorem Trans.keeps {s s' : Sys} (ht : Trans s s') : Keeps s s' := by
  intro r o o' hr hr'
  have hsame : o' = o → o'.val = o.val ∧ ∀ ac, o.internal = some ac →
      (s'.mem.caches ac).isSome → o'.internal = some ac := by
    rintro rfl; exact ⟨rfl, fun _ hi _ => hi⟩
  cases ht with
  | same => exact hsame (by simp_all)
  | @acquire q _ hq _ | @release q _ hq _ =>
    by_cases hrq : r = q
    · subst hrq
      simp only [hq, Option.some.injEq, Mem.addrs_setAddr, if_pos] at hr hr'
      subst hr hr'
      exact ⟨rfl, fun _ hi _ => hi⟩
    · exact hsame (by simp_all)
  | @alloc p _ hp | @intern _ _ p _ _ hp _ | @free p _ _ _ _ | @unintern p _ _ _ _ _ _ _ =>
    by_cases hrp : r = p
    · subst hrp; simp_all
    · exact hsame (by simp_all)
  | addCache _ => exact hsame (by simp_all)
  | detach ac =>
    simp only [Mem.addrs_detach, hr, Option.map_some', Option.some.injEq] at hr'
    subst hr'
    refine ⟨by split_ifs <;> rfl, fun ac' hi hlive => ?_⟩
    have hac : ac' ≠ ac := by rintro rfl; simp at hlive
    simp [hi, hac]

/-- A run of allowed calls from `s` to `s'` through states that all satisfy `P`. -/
inductive RunWithin (ho : HostOrder) (build : Build) (P : Sys → Prop) : Sys → Sys → Prop
  | refl (s) : RunWithin ho build P s s
  | tail {s s₁ s₂ op} : RunWithin ho build P s s₁ → Allowed s₁ op →
      sysStep ho build s₁ op = some s₂ → P s₂ → RunWithin ho build P s s₂

section Runs

variable {ho : HostOrder} {build : Build}

/-- Along a run in which `q` and the cache `ac` stay live, `q` keeps its value and stays
interned in `ac`. -/
theorem RunWithin.interned {P : Sys → Prop} {s s' : Sys} (run : RunWithin ho build P s s')
    (hs : Reachable ho build s) {q ac o} (hq : s.mem.addrs q = some o)
    (hi : o.internal = some ac)
    (hP : ∀ t, P t → t.mem.addrs q ≠ none ∧ (t.mem.caches ac).isSome) :
    Reachable ho build s' ∧
      ∃ o', s'.mem.addrs q = some o' ∧ o'.val = o.val ∧ o'.internal = some ac := by
  induction run with
  | refl => exact ⟨hs, o, hq, rfl, hi⟩
  | tail _ ha hstep hp ih =>
    obtain ⟨hr, o₁, hq₁, hv₁, hi₁⟩ := ih
    have ht := sysStep_trans ho build hr.sysInv ha hstep
    obtain ⟨o₂, hq₂⟩ := Option.ne_none_iff_exists'.mp (hP _ hp).1
    obtain ⟨hv, hint⟩ := ht.keeps _ o₁ o₂ hq₁ hq₂
    exact ⟨hr.step ha hstep, o₂, hq₂, hv.trans hv₁, hint ac hi₁ (hP _ hp).2⟩

/-- **A held address never changes.** Along a run of allowed calls from a reachable state
through states in which the caller holds a handle to `q`, `q` stays live and keeps its
value: no call, on another handle, a cache or an allocation, writes over an address in use. -/
theorem RunWithin.read_eq {s s' : Sys} {q : Ptr}
    (run : RunWithin ho build (fun t => q ∈ t.held) s s') (hs : Reachable ho build s)
    (hq : q ∈ s.held) :
    Reachable ho build s' ∧ q ∈ s'.held ∧ (s'.mem.read q).isSome ∧ s'.mem.read q = s.mem.read q := by
  have hlive : ∀ {t : Sys}, SysInv t → q ∈ t.held → ∃ o, t.mem.addrs q = some o :=
    fun ht hqt => (ht.own.live hqt).imp fun _ h => h.1
  induction run with
  | refl =>
    obtain ⟨o, ho'⟩ := hlive hs.sysInv hq
    exact ⟨hs, hq, by simp [Mem.read, ho'], rfl⟩
  | tail _ ha hstep hP ih =>
    obtain ⟨hr, hq₁, -, hread⟩ := ih
    have hr₂ := hr.step ha hstep
    have ht := sysStep_trans ho build hr.sysInv ha hstep
    obtain ⟨o₁, h₁⟩ := hlive hr.sysInv hq₁
    obtain ⟨o₂, h₂⟩ := hlive hr₂.sysInv hP
    refine ⟨hr₂, hP, by simp [Mem.read, h₂], hread ▸ ?_⟩
    simp [Mem.read, h₁, h₂, (ht.keeps q o₁ o₂ h₁ h₂).1]

theorem RunWithin.read_eq_use :
    let v : ScamperAddr := ⟨.ipv4, [10, 0, 0, 1], rfl⟩
    let s : Sys := ⟨Mem.empty.setAddr 0 (some ⟨v, 1, none⟩), [0]⟩
    let s' : Sys := ⟨s.mem.setAddr 0 (some ⟨v, 2, none⟩), [0, 0]⟩
    RunWithin .bigEndian .posix (fun t => 0 ∈ t.held) s s' ∧ Reachable .bigEndian .posix s ∧
      0 ∈ s.held ∧ Reachable .bigEndian .posix s' ∧ 0 ∈ s'.held ∧ (s'.mem.read 0).isSome ∧
      s'.mem.read 0 = s.mem.read 0 := by
  intro v s s'
  have hs : Reachable .bigEndian .posix s :=
    .step .init (show Allowed _ (.addrAlloc v (some 0) true) from ⟨rfl, rfl⟩) rfl
  have run : RunWithin .bigEndian .posix (fun t => 0 ∈ t.held) s s' :=
    .tail (.refl s) (show Allowed s (.addrUse 0) from List.mem_singleton_self 0) rfl
      (List.mem_cons_self 0 _)
  exact ⟨run, hs, List.mem_singleton_self 0, RunWithin.read_eq run hs (List.mem_singleton_self 0)⟩

/-- After the release of the last handle to an address interned in `ac`, `ac` is live and no
member of its tree has the released address's value. -/
theorem sysStep_addrFree_last {s s' : Sys} (hs : SysInv s) {q o ac}
    (hq : s.mem.addrs q = some o) (hi : o.internal = some ac) (h1 : s.held.count q = 1)
    (hstep : sysStep ho build s (.addrFree q) = some s') :
    (s'.mem.caches ac).isSome ∧ ∀ r ∈ s'.mem.tree ac o.val.type, s'.mem.read r ≠ some o.val := by
  obtain ⟨o', hq', ⟨hlt, -⟩ | ⟨-, hi', -⟩ | ⟨ac', c, -, hi', hc, h⟩⟩ :=
    sysStep_addrFree_cases ho build hs (hs.own.refcnt_eq hq).1
  all_goals rw [hq, Option.some.injEq] at hq'; subst hq'
  · have := (hs.own.refcnt_eq hq).2; omega
  · simp [hi] at hi'
  rw [hi, Option.some.injEq] at hi'; subst hi'
  rw [hstep, Option.some.injEq] at h; subst h
  have hpq : q ∈ s.mem.tree ac o.val.type := (hs.cache.internal hq hi).2
  refine ⟨by simp, fun r hr hrv => ?_⟩
  simp only [Mem.tree_setAddr, Mem.tree_setCache_some, if_pos, AddrCache.tree_setTree,
    ← s.mem.tree_of_caches hc] at hr
  obtain ⟨hrq, hr⟩ := (hs.cache.tree_nodup ac o.val.type).mem_erase_iff.mp hr
  rw [Mem.read_setAddr, if_neg hrq, Mem.read_setCache] at hrv
  exact hrq (hs.cache.eq_of_read hr hpq (hrv.trans (by simp [Mem.read, hq])))

/-- A successful get from a state of `SysInv` is a hit or an insert. -/
theorem scamperAddrcacheGet_some {s : Sys} (hs : SysInv s) {ac v sa dup ins m' q}
    (ha : Allowed s (.addrcacheGet ac v sa dup ins))
    (hget : scamperAddrcacheGet ho build s.mem ac v sa dup ins = some (m', some q)) :
    (q ∈ s.mem.tree ac v.type ∧ s.mem.read q = some v ∧ ∃ o, s.mem.addrs q = some o ∧
      m' = s.mem.setAddr q (some { o with refcnt := o.refcnt + 1 })) ∨
    ((∀ r ∈ s.mem.tree ac v.type, s.mem.read r ≠ some v) ∧ s.mem.addrs q = none ∧
      ∃ c, s.mem.caches ac = some c ∧ m' = (s.mem.setCache ac
        (some (c.setTree v.type (q :: c.tree v.type)))).setAddr q (some ⟨v, 1, some ac⟩)) := by
  obtain ⟨c, hc⟩ := Option.isSome_iff_exists.mp ha.1
  rw [s.mem.tree_of_caches hc]
  rcases scamperAddrcacheGet_cases ho build hs.cache v dup ins hc ha.2.addrs_eq_none with
    ⟨r, hr, hrv, o, hro, hget'⟩ | ⟨hmiss, ⟨p, rfl, rfl, rfl, hget'⟩ | ⟨-, hget'⟩⟩
  · rw [hget] at hget'
    split_ifs at hget'
    simp only [Option.some.injEq, Prod.mk.injEq] at hget'
    obtain ⟨rfl, rfl⟩ := hget'
    exact .inl ⟨hr, hrv, o, hro, rfl⟩
  · rw [hget, Option.some.injEq, Prod.mk.injEq, Option.some.injEq] at hget'
    obtain ⟨rfl, rfl⟩ := hget'
    exact .inr ⟨hmiss, ha.2.1, c, hc, rfl⟩
  · simp [hget] at hget'

/-- A get from a state of `SysInv` that returns `NULL` has changed nothing. -/
theorem scamperAddrcacheGet_none {s : Sys} (hs : SysInv s) {ac v sa dup ins m'}
    (ha : Allowed s (.addrcacheGet ac v sa dup ins))
    (hget : scamperAddrcacheGet ho build s.mem ac v sa dup ins = some (m', none)) :
    m' = s.mem := by
  obtain ⟨c, hc⟩ := Option.isSome_iff_exists.mp ha.1
  rcases scamperAddrcacheGet_cases ho build hs.cache v dup ins hc ha.2.addrs_eq_none with
    ⟨_, _, _, _, _, hget'⟩ | ⟨_, ⟨_, _, _, _, hget'⟩ | ⟨_, hget'⟩⟩ <;> rw [hget] at hget'
  · split_ifs at hget'; simp at hget'
  · simp at hget'
  · simpa using hget'

/-- What a successful get leaves at the address it returns: an address of the value asked
for, interned in the cache. -/
theorem scamperAddrcacheGet_result_interned {s : Sys} (hs : SysInv s) {ac v sa dup ins m' q}
    (ha : Allowed s (.addrcacheGet ac v sa dup ins))
    (hget : scamperAddrcacheGet ho build s.mem ac v sa dup ins = some (m', some q)) :
    ∃ o, m'.addrs q = some o ∧ o.val = v ∧ o.internal = some ac := by
  rcases scamperAddrcacheGet_some hs ha hget with ⟨hq, hqv, o, hqo, rfl⟩ | ⟨-, -, c, -, rfl⟩
  · obtain ⟨o', ho', -, hi⟩ := hs.cache.member hq
    rw [hqo, Option.some.injEq] at ho'; subst ho'
    exact ⟨{ o with refcnt := o.refcnt + 1 }, by simp, by simpa [Mem.read, hqo] using hqv, hi⟩
  · exact ⟨⟨v, 1, some ac⟩, by simp, rfl, rfl⟩

end Runs

/-! ### `scamper_addrcache_get` from a reachable state -/

section Get

variable {ho : HostOrder} {build : Build}

/-- From a reachable state, a successful `scamper_addrcache_get` of the value `v` on a live
cache `ac` returns an address of value `v`. If `ac`'s tree for `v.type` holds an address of
that value, the result is that address, with `refcnt` one higher and nothing allocated;
otherwise it is a fresh address with `refcnt` 1 and `internal` `ac`, now in the tree. As long
as the result and the cache stay live, a later successful get of `v` on `ac` returns it
again, and the get succeeds while the caller holds fewer than `INT_MAX` handles to it; after
the release of its last handle, a successful get of `v` returns an address that was not
live. -/
theorem scamperAddrcacheGet_interns {s : Sys} (hs : Reachable ho build s)
    {ac v sa dup ins m' q} (ha : Allowed s (.addrcacheGet ac v sa dup ins))
    (hget : scamperAddrcacheGet ho build s.mem ac v sa dup ins = some (m', some q)) :
    m'.read q = some v ∧
    (∀ r ∈ s.mem.tree ac v.type, s.mem.read r = some v →
      q = r ∧ ∃ o, s.mem.addrs q = some o ∧
        m' = s.mem.setAddr q (some { o with refcnt := o.refcnt + 1 })) ∧
    ((∀ r ∈ s.mem.tree ac v.type, s.mem.read r ≠ some v) →
      s.mem.addrs q = none ∧ m'.addrs q = some ⟨v, 1, some ac⟩ ∧ q ∈ m'.tree ac v.type) ∧
    ∀ s₂, RunWithin ho build (fun t => t.mem.addrs q ≠ none ∧ (t.mem.caches ac).isSome)
        ⟨m', q :: s.held⟩ s₂ →
      (∀ sa' dup' ins' m₂ r,
        scamperAddrcacheGet ho build s₂.mem ac v sa' dup' ins' = some (m₂, r) → r = some q) ∧
      (s₂.held.count q < intMax → ∀ sa' dup' ins', ∃ m₂,
        scamperAddrcacheGet ho build s₂.mem ac v sa' dup' ins' = some (m₂, some q)) ∧
      (s₂.held.count q = 1 → ∀ s₃ sa' dup' ins' m₃ q',
        sysStep ho build s₂ (.addrFree q) = some s₃ → s₃.mem.MallocOk sa' →
        scamperAddrcacheGet ho build s₃.mem ac v sa' dup' ins' = some (m₃, some q') →
        s₃.mem.addrs q' = none) := by
  have hsi := hs.sysInv
  have hs₁ : Reachable ho build ⟨m', q :: s.held⟩ := hs.step ha (by simp [sysStep, hget])
  obtain ⟨o₁, hq₁, hv₁, hi₁⟩ := scamperAddrcacheGet_result_interned hsi ha hget
  refine ⟨by simp [Mem.read, hq₁, hv₁], fun r hr hrv => ?_, fun hmiss => ?_, fun s₂ run => ?_⟩
  · rcases scamperAddrcacheGet_some hsi ha hget with ⟨hq, hqv, hrest⟩ | ⟨hmiss, -⟩
    · exact ⟨hsi.cache.eq_of_read hq hr (hqv.trans hrv.symm), hrest⟩
    · exact absurd hrv (hmiss r hr)
  · rcases scamperAddrcacheGet_some hsi ha hget with ⟨hq, hqv, -⟩ | ⟨-, hfresh, c, hc, rfl⟩
    · exact absurd hqv (hmiss q hq)
    · exact ⟨hfresh, by simp, by simp [Mem.tree_of_caches _ hc]⟩
  obtain ⟨hs₂, o₂, hq₂, hv₂, hi₂⟩ := run.interned hs₁ hq₁ hi₁ fun _ h => h
  have hsi₂ := hs₂.sysInv
  -- in `s₂` a get of `v` on `ac` is a hit of `q`
  have hhit : ∀ sa' dup' ins', scamperAddrcacheGet ho build s₂.mem ac v sa' dup' ins' =
      if o₂.refcnt < intMax then
        some (s₂.mem.setAddr q (some { o₂ with refcnt := o₂.refcnt + 1 }), some q) else none := by
    intro sa' dup' ins'
    obtain ⟨hlive, hmem⟩ := hsi₂.cache.internal hq₂ hi₂
    obtain ⟨c₂, hc₂⟩ := Option.isSome_iff_exists.mp hlive
    rw [hv₂, hv₁, s₂.mem.tree_of_caches hc₂] at hmem
    obtain ⟨o, hqo, hget₂⟩ := scamperAddrcacheGet_hit ho build hsi₂.cache sa' dup' ins' hc₂ hmem
      (by simp [Mem.read, hq₂, hv₂, hv₁])
    rw [hq₂, Option.some.injEq] at hqo
    exact hqo ▸ hget₂
  have hcount := (hsi₂.own.refcnt_eq hq₂).2
  refine ⟨fun sa' dup' ins' m₂ r hget₂ => ?_, fun hlt sa' dup' ins' => ?_,
    fun h1 s₃ sa' dup' ins' m₃ q' hstep hmalloc hget₃ => ?_⟩
  · rw [hhit] at hget₂
    split_ifs at hget₂
    exact (Prod.mk.inj (Option.some.inj hget₂)).2.symm
  · exact ⟨_, by rw [hhit, if_pos (hcount ▸ hlt)]⟩
  · obtain ⟨hlive, hmiss⟩ := sysStep_addrFree_last hsi₂ hq₂ hi₂ h1 hstep
    rw [hv₂, hv₁] at hmiss
    have hs₃ : Reachable ho build s₃ :=
      hs₂.step (show Allowed s₂ (.addrFree q) from (hsi₂.own.refcnt_eq hq₂).1) hstep
    rcases scamperAddrcacheGet_some hs₃.sysInv ⟨hlive, hmalloc⟩ hget₃ with
      ⟨hq, hqv, -⟩ | ⟨-, hfresh, -⟩
    · exact absurd hqv (hmiss q' hq)
    · exact hfresh

theorem scamperAddrcacheGet_interns_one_cache :
    let s : Sys := ⟨Mem.empty.setCache 1 (some ⟨fun _ => []⟩), []⟩
    let v : ScamperAddr := ⟨.ipv4, [10, 0, 0, 1], rfl⟩
    let m' := (s.mem.setCache 1 (some ((⟨fun _ => []⟩ : AddrCache).setTree .ipv4 [2]))).setAddr 2
      (some ⟨v, 1, some 1⟩)
    Reachable .bigEndian .posix s ∧ Allowed s (.addrcacheGet 1 v (some 2) true true) ∧
    scamperAddrcacheGet .bigEndian .posix s.mem 1 v (some 2) true true = some (m', some 2) ∧
    m'.read 2 = some v ∧
    (∀ r ∈ s.mem.tree 1 v.type, s.mem.read r = some v →
      2 = r ∧ ∃ o, s.mem.addrs 2 = some o ∧
        m' = s.mem.setAddr 2 (some { o with refcnt := o.refcnt + 1 })) ∧
    ((∀ r ∈ s.mem.tree 1 v.type, s.mem.read r ≠ some v) →
      s.mem.addrs 2 = none ∧ m'.addrs 2 = some ⟨v, 1, some 1⟩ ∧ 2 ∈ m'.tree 1 v.type) ∧
    ∀ s₂, RunWithin .bigEndian .posix
        (fun t => t.mem.addrs 2 ≠ none ∧ (t.mem.caches 1).isSome) ⟨m', 2 :: s.held⟩ s₂ →
      (∀ sa' dup' ins' m₂ r,
        scamperAddrcacheGet .bigEndian .posix s₂.mem 1 v sa' dup' ins' = some (m₂, r) →
          r = some 2) ∧
      (s₂.held.count 2 < intMax → ∀ sa' dup' ins', ∃ m₂,
        scamperAddrcacheGet .bigEndian .posix s₂.mem 1 v sa' dup' ins' = some (m₂, some 2)) ∧
      (s₂.held.count 2 = 1 → ∀ s₃ sa' dup' ins' m₃ q',
        sysStep .bigEndian .posix s₂ (.addrFree 2) = some s₃ → s₃.mem.MallocOk sa' →
        scamperAddrcacheGet .bigEndian .posix s₃.mem 1 v sa' dup' ins' = some (m₃, some q') →
        s₃.mem.addrs q' = none) := by
  intro s v m'
  have hs : Reachable .bigEndian .posix s :=
    .step .init (show Allowed _ (.addrcacheAlloc (some 1) true) from ⟨rfl, rfl⟩) rfl
  have ha : Allowed s (.addrcacheGet 1 v (some 2) true true) := ⟨rfl, rfl, rfl⟩
  have hget : scamperAddrcacheGet .bigEndian .posix s.mem 1 v (some 2) true true =
      some (m', some 2) :=
    scamperAddrcacheGet_insert _ _ hs.sysInv.cache rfl (by simp)
  exact ⟨hs, ha, hget, scamperAddrcacheGet_interns hs ha hget⟩

/-- From a reachable state, a `scamper_addrcache_get` of a value the live cache does not hold
whose `malloc`, `memdup` or `splaytree_insert` fails returns `NULL` and leaves the state as
it was, and a get that returns `NULL` has changed nothing. -/
theorem scamperAddrcacheGet_fail_unchanged {s : Sys} (hs : Reachable ho build s)
    {ac v sa dup ins} (ha : Allowed s (.addrcacheGet ac v sa dup ins)) :
    ((∀ r ∈ s.mem.tree ac v.type, s.mem.read r ≠ some v) →
      (sa = none ∨ dup = false ∨ ins = false) →
      scamperAddrcacheGet ho build s.mem ac v sa dup ins = some (s.mem, none) ∧
      sysStep ho build s (.addrcacheGet ac v sa dup ins) = some s) ∧
    ∀ m', scamperAddrcacheGet ho build s.mem ac v sa dup ins = some (m', none) → m' = s.mem := by
  have hsi := hs.sysInv
  obtain ⟨c, hc⟩ := Option.isSome_iff_exists.mp ha.1
  refine ⟨fun hmiss hfail => ?_, fun m' hget => ?_⟩
  · have hget := scamperAddrcacheGet_fail ho build hsi.cache hc
      (s.mem.tree_of_caches hc v.type ▸ hmiss) ha.2.addrs_eq_none hfail
    exact ⟨hget, by simp [sysStep, hget]⟩
  · exact scamperAddrcacheGet_none hsi ha hget

theorem scamperAddrcacheGet_fail_unchanged_one_cache :
    let s : Sys := ⟨Mem.empty.setCache 1 (some ⟨fun _ => []⟩), []⟩
    let v : ScamperAddr := ⟨.ipv4, [10, 0, 0, 1], rfl⟩
    Reachable .bigEndian .posix s ∧ Allowed s (.addrcacheGet 1 v (some 2) true false) ∧
    ((∀ r ∈ s.mem.tree 1 v.type, s.mem.read r ≠ some v) →
      (some 2 = none ∨ true = false ∨ false = false) →
      scamperAddrcacheGet .bigEndian .posix s.mem 1 v (some 2) true false = some (s.mem, none) ∧
      sysStep .bigEndian .posix s (.addrcacheGet 1 v (some 2) true false) = some s) ∧
    ∀ m', scamperAddrcacheGet .bigEndian .posix s.mem 1 v (some 2) true false = some (m', none) →
      m' = s.mem := by
  intro s v
  have hs : Reachable .bigEndian .posix s :=
    .step .init (show Allowed _ (.addrcacheAlloc (some 1) true) from ⟨rfl, rfl⟩) rfl
  have ha : Allowed s (.addrcacheGet 1 v (some 2) true false) := ⟨rfl, rfl, rfl⟩
  exact ⟨hs, ha, scamperAddrcacheGet_fail_unchanged hs ha⟩

end Get

end Scamper
