import Scamper.Cache.Interning

/-!
What the cache is for: an interning table. The trees of the live caches implement, for each
cache, a table from address values to addresses (`Mem.view`); under `CacheInv` the table maps
a value to the one member of the tree that holds it (`CacheInv.view_eq_some_iff`).

* `scamperAddrcacheGet_view`: a get of `v` on `ac` that returns `q` leaves `v` mapped to `q`
  in `ac`: a hit returns the address the table held, a miss maps `v` to the new address.
* `sysStep_tableEffect`: what each allowed call from a reachable state does to the table:
  only a get maps a value, only the last release of an interned address unmaps one, only
  `scamper_addrcache_free` empties a cache, and every other call leaves it as it was.
-/

namespace Scamper

/-- The interning table the trees of a heap implement: the member of `ac`'s tree for `v.type`
that holds the value `v`. -/
def Mem.view (m : Mem) (ac : Ptr) (v : ScamperAddr) : Option Ptr :=
  (m.tree ac v.type).find? fun q => m.read q = some v

/-! ### Lookups in a list -/

theorem find?_congr_of_mem {α : Type} {p p' : α → Bool} :
    ∀ {l : List α}, (∀ x ∈ l, p x = p' x) → l.find? p = l.find? p'
  | [], _ => rfl
  | a :: l, h => by
    rw [List.find?_cons, List.find?_cons, h a (.head _),
      find?_congr_of_mem fun x hx => h x (.tail _ hx)]

/-- Erasing an element the predicate rejects does not change a lookup. -/
theorem find?_erase_of_not {α : Type} [DecidableEq α] {p : α → Bool} {a : α} (ha : p a = false) :
    ∀ l : List α, (l.erase a).find? p = l.find? p
  | [] => rfl
  | b :: l => by
    by_cases hb : b = a
    · subst hb
      rw [List.erase_cons_head, List.find?_cons_of_neg _ (by simp [ha])]
    · rw [List.erase_cons, if_neg (by simpa using hb), List.find?_cons, List.find?_cons,
        find?_erase_of_not ha l]

/-! ### The table of a heap -/

namespace Mem

variable {m : Mem}

/-- Where the trees are the same and their members read the same, so is the table. -/
theorem view_congr {m' : Mem} (htree : m'.tree = m.tree)
    (hread : ∀ ac t q, q ∈ m.tree ac t → m'.read q = m.read q) : m'.view = m.view := by
  funext ac v
  rw [view, view, htree]
  exact find?_congr_of_mem fun q hq => by rw [hread _ _ _ hq]

theorem view_setAddr_of_val {p : Ptr} {o : AddrObj} (hp : m.addrs p = some o) (o' : AddrObj)
    (hval : o'.val = o.val) : (m.setAddr p (some o')).view = m.view :=
  view_congr (m.tree_setAddr p _) fun _ _ _ _ => by rw [m.read_setAddr_of_val p hp hval]

/-- Writing at a pointer in no tree leaves the table as it was. -/
theorem view_setAddr_of_not_mem {p : Ptr} (hp : ∀ ac t, p ∉ m.tree ac t) (o : Option AddrObj) :
    (m.setAddr p o).view = m.view :=
  view_congr (m.tree_setAddr p o) fun ac t q hq => by
    rw [read_setAddr, if_neg fun hqp : q = p => hp ac t (hqp ▸ hq)]

theorem view_addCache {ac : Ptr} (hac : m.caches ac = none) :
    (m.setCache ac (some ⟨fun _ => []⟩)).view = m.view :=
  view_congr (by funext ac' t; by_cases h : ac' = ac <;> simp [h, tree, hac]) fun _ _ _ _ => rfl

theorem view_detach (ac : Ptr) : (m.detach ac).view = Function.update m.view ac fun _ => none := by
  funext ac' v
  by_cases h : ac' = ac
  · subst h; simp [view]
  · simp [view, h, read_detach]

end Mem

/-- Updating a table at `(ac, v)` leaves its other entries. -/
theorem update_update_of_ne {w : Ptr → ScamperAddr → Option Ptr} {ac ac' : Ptr}
    {v v' : ScamperAddr} (x : Option Ptr) (h : ¬(ac' = ac ∧ v' = v)) :
    Function.update w ac (Function.update (w ac) v x) ac' v' = w ac' v' := by
  by_cases hac : ac' = ac
  · subst hac; rw [Function.update_same, Function.update_noteq fun hv => h ⟨rfl, hv⟩]
  · rw [Function.update_noteq hac]

section Table

variable {m : Mem} (h : CacheInv m)
include h

/-- Under the invariant the table maps `v` to `q` in `ac` exactly when `q` is the member of
`ac`'s tree holding `v`. -/
theorem CacheInv.view_eq_some_iff {ac v q} :
    m.view ac v = some q ↔ q ∈ m.tree ac v.type ∧ m.read q = some v := by
  have hsome : ∀ {r}, m.view ac v = some r → r ∈ m.tree ac v.type ∧ m.read r = some v :=
    fun hr => ⟨List.mem_of_find?_eq_some hr, by simpa using List.find?_some hr⟩
  refine ⟨hsome, fun ⟨hq, hqv⟩ => ?_⟩
  cases hf : m.view ac v with
  | none => exact absurd hqv (by simpa using List.find?_eq_none.mp hf q hq)
  | some r =>
    obtain ⟨hr, hrv⟩ := hsome hf
    exact congrArg some (h.eq_of_read hr hq (hrv.trans hqv.symm))

/-- Interning `p` for `v` in `ac` maps `v` to `p` there. -/
theorem CacheInv.view_intern {ac c p v} (hc : m.caches ac = some c) (hp : m.addrs p = none)
    (n : Nat) :
    ((m.setCache ac (some (c.setTree v.type (p :: c.tree v.type)))).setAddr p
      (some ⟨v, n, some ac⟩)).view =
        Function.update m.view ac (Function.update (m.view ac) v (some p)) := by
  have hnot : ∀ {ac' t q}, q ∈ m.tree ac' t → q ≠ p := fun hq => h.ne_of_addrs_none hq hp
  funext ac' w
  rw [Mem.view, Mem.tree_setAddr, m.tree_setCache_setTree hc]
  split_ifs with hnew
  · obtain ⟨rfl, hw⟩ := hnew
    rw [List.find?_cons, Function.update_same, ← hw, ← m.tree_of_caches hc]
    by_cases hwv : w = v
    · subst hwv; simp [Mem.read_setAddr]
    · rw [show decide (_ = some w) = false by simp [Mem.read_setAddr, Ne.symm hwv],
        Function.update_noteq hwv, Mem.view]
      exact find?_congr_of_mem fun q hq => by simp [Mem.read_setAddr, hnot hq]
  · rw [update_update_of_ne _ fun ⟨h1, h2⟩ => hnew ⟨h1, h2 ▸ rfl⟩, Mem.view]
    exact find?_congr_of_mem fun q hq => by simp [Mem.read_setAddr, hnot hq]

/-- Removing `p`, interned in `ac`, from its tree and freeing it unmaps its value there. -/
theorem CacheInv.view_unintern {ac c p o} (hp : m.addrs p = some o) (hi : o.internal = some ac)
    (hc : m.caches ac = some c) :
    ((m.setCache ac (some (c.setTree o.val.type ((c.tree o.val.type).erase p)))).setAddr p
      none).view = Function.update m.view ac (Function.update (m.view ac) o.val none) := by
  have hpt : p ∈ m.tree ac o.val.type := (h.internal hp hi).2
  have hpv : m.read p = some o.val := by simp [Mem.read, hp]
  -- `p` is a member of its own tree only
  have honly : ∀ {ac' t}, p ∈ m.tree ac' t → ac' = ac ∧ t = o.val.type := fun hp' => by
    obtain ⟨o', ho', ht, hi'⟩ := h.member hp'
    rw [hp, Option.some.injEq] at ho'; subst ho'
    exact ⟨Option.some.inj (hi'.symm.trans hi), ht.symm⟩
  funext ac' w
  rw [Mem.view, Mem.tree_setAddr, m.tree_setCache_setTree hc]
  split_ifs with hnew
  · obtain ⟨rfl, hw⟩ := hnew
    have hnd := h.tree_nodup ac' w.type
    rw [Function.update_same, ← hw, ← m.tree_of_caches hc, find?_congr_of_mem fun q hq => by
      rw [Mem.read_setAddr, if_neg (hnd.mem_erase_iff.mp hq).1, Mem.read_setCache]]
    by_cases hwv : w = o.val
    · subst hwv
      rw [Function.update_same, List.find?_eq_none]
      intro q hq hqv
      obtain ⟨hqp, hq'⟩ := hnd.mem_erase_iff.mp hq
      exact hqp (h.eq_of_read hq' hpt (by rw [of_decide_eq_true hqv, hpv]))
    · rw [Function.update_noteq hwv, find?_erase_of_not (by simp [hpv, Ne.symm hwv]), Mem.view]
  · rw [update_update_of_ne _ fun ⟨h1, h2⟩ => hnew ⟨h1, h2 ▸ rfl⟩, Mem.view]
    exact find?_congr_of_mem fun q hq => by
      simp [Mem.read_setAddr, show q ≠ p from fun hqp => hnew (honly (hqp ▸ hq))]

end Table

/-! ### What the calls do to the table -/

section Calls

variable {ho : HostOrder} {build : Build}

/-- **A get looks the value up, or interns it.** From a state of the invariant, a
`scamper_addrcache_get` of `v` on `ac` that returns `q` leaves the table mapping `v` to `q` in
`ac` and otherwise as it was: either the table already mapped `v` to `q`, or it held no
address of `v` and `q` is a new address. -/
theorem scamperAddrcacheGet_view {s : Sys} (hs : SysInv s) {ac v sa dup ins m' q}
    (ha : Allowed s (.addrcacheGet ac v sa dup ins))
    (hget : scamperAddrcacheGet ho build s.mem ac v sa dup ins = some (m', some q)) :
    m'.view = Function.update s.mem.view ac (Function.update (s.mem.view ac) v (some q)) ∧
      (s.mem.view ac v = some q ∨ s.mem.view ac v = none ∧ s.mem.addrs q = none) := by
  rcases scamperAddrcacheGet_some hs ha hget with
    ⟨hq, hqv, o, hqo, rfl⟩ | ⟨hmiss, hfresh, c, hc, rfl⟩
  · have hv : s.mem.view ac v = some q := hs.cache.view_eq_some_iff.mpr ⟨hq, hqv⟩
    refine ⟨?_, .inl hv⟩
    rw [Mem.view_setAddr_of_val hqo { o with refcnt := o.refcnt + 1 } rfl, ← hv,
      Function.update_eq_self, Function.update_eq_self]
  · have hv : s.mem.view ac v = none := by
      rw [Mem.view, List.find?_eq_none]; simpa using hmiss
    exact ⟨hs.cache.view_intern hc hfresh 1, .inr ⟨hv, hfresh⟩⟩

/-- What a call may do to the interning table, from the state before it to the state after:
a `scamper_addrcache_get` of `v` on `ac` changes nothing or maps `v` to the address it returns;
a `scamper_addr_free` of `q` changes nothing or, as the last release of an address interned
in a cache, unmaps its value there; `scamper_addrcache_free` of `ac` empties `ac`; every other
call changes nothing. -/
def TableEffect (s s' : Sys) : Op → Prop
  | .addrcacheGet ac v _ _ _ => s'.mem.view = s.mem.view ∨ ∃ q, s'.held = q :: s.held ∧
      s'.mem.view = Function.update s.mem.view ac (Function.update (s.mem.view ac) v (some q))
  | .addrFree q => s'.mem.view = s.mem.view ∨ ∃ o ac, s.mem.addrs q = some o ∧
      o.internal = some ac ∧ s'.mem.addrs q = none ∧
      s'.mem.view = Function.update s.mem.view ac (Function.update (s.mem.view ac) o.val none)
  | .addrcacheFree ac => s'.mem.view = Function.update s.mem.view ac fun _ => none
  | _ => s'.mem.view = s.mem.view

/-- **Which call does what to the table.** From a reachable state every allowed call has the
effect on the interning table that `TableEffect` gives for it. -/
theorem sysStep_tableEffect {s s' : Sys} (hs : Reachable ho build s) {op : Op}
    (ha : Allowed s op) (hstep : sysStep ho build s op = some s') : TableEffect s s' op := by
  have hsi := hs.sysInv
  cases op with
  | addrcacheAlloc ac trees =>
    rcases ac with _ | ac
    · obtain rfl : s = s' := Option.some.inj hstep
      rfl
    · rw [sysStep, scamperAddrcacheAlloc_eq ha.2] at hstep
      cases trees <;> obtain rfl := Option.some.inj hstep
      · rfl
      · exact Mem.view_addCache ha.2
  | addrcacheGet ac v sa dup ins =>
    obtain ⟨⟨m', r⟩, hget, rfl⟩ := Option.map_eq_some'.mp hstep
    rcases r with _ | q
    · exact .inl (congrArg Mem.view (scamperAddrcacheGet_none hsi ha hget))
    · exact .inr ⟨q, rfl, (scamperAddrcacheGet_view hsi ha hget).1⟩
  | addrAlloc v sa dup =>
    obtain rfl := Option.some.inj hstep
    rcases sa with _ | p
    · rfl
    cases dup
    · rfl
    · exact Mem.view_setAddr_of_not_mem (fun _ _ hp => hsi.cache.ne_of_addrs_none hp ha.1 rfl) _
  | addrUse q =>
    obtain ⟨o, hqo, -⟩ := hsi.own.live ha
    rw [sysStep, scamperAddrUse_some hqo] at hstep
    split_ifs at hstep
    · obtain rfl := Option.some.inj hstep
      exact Mem.view_setAddr_of_val hqo { o with refcnt := o.refcnt + 1 } rfl
    · simp at hstep
  | addrFree q =>
    obtain ⟨o, hqo, ⟨-, h⟩ | ⟨-, hi, h⟩ | ⟨ac, c, -, hi, hc, h⟩⟩ :=
      sysStep_addrFree_cases ho build hsi ha
    all_goals rw [hstep, Option.some.injEq] at h; subst h
    · exact .inl (Mem.view_setAddr_of_val hqo { o with refcnt := o.refcnt - 1 } rfl)
    · exact .inl (Mem.view_setAddr_of_not_mem
        (fun _ _ hq => hsi.cache.ne_of_mem hq (by simp [hqo, hi]) rfl) _)
    · exact .inr ⟨o, ac, hqo, hi, by simp, hsi.cache.view_unintern hqo hi hc⟩
  | addrcacheFree ac =>
    obtain ⟨c, hc⟩ := Option.isSome_iff_exists.mp ha
    simp only [sysStep, scamperAddrcacheFree_eq hsi.cache hc, Option.map_some',
      Option.some.injEq] at hstep
    subst hstep
    exact Mem.view_detach ac

theorem sysStep_tableEffect_intern :
    let s : Sys := ⟨Mem.empty.setCache 1 (some ⟨fun _ => []⟩), []⟩
    let v : ScamperAddr := ⟨.ipv4, [10, 0, 0, 1], rfl⟩
    let s' : Sys := ⟨(s.mem.setCache 1 (some ((⟨fun _ => []⟩ : AddrCache).setTree .ipv4
      [2]))).setAddr 2 (some ⟨v, 1, some 1⟩), [2]⟩
    Reachable .bigEndian .posix s ∧ Allowed s (.addrcacheGet 1 v (some 2) true true) ∧
      sysStep .bigEndian .posix s (.addrcacheGet 1 v (some 2) true true) = some s' ∧
      TableEffect s s' (.addrcacheGet 1 v (some 2) true true) := by
  intro s v s'
  have hs : Reachable .bigEndian .posix s :=
    .step .init (show Allowed _ (.addrcacheAlloc (some 1) true) from ⟨rfl, rfl⟩) rfl
  have ha : Allowed s (.addrcacheGet 1 v (some 2) true true) := ⟨rfl, rfl, rfl⟩
  have hget : scamperAddrcacheGet .bigEndian .posix s.mem 1 v (some 2) true true =
      some (s'.mem, some 2) := scamperAddrcacheGet_insert _ _ hs.sysInv.cache rfl (by simp)
  have hstep : sysStep .bigEndian .posix s (.addrcacheGet 1 v (some 2) true true) = some s' := by
    rw [sysStep, hget]; rfl
  exact ⟨hs, ha, hstep, sysStep_tableEffect hs ha hstep⟩

end Calls

end Scamper
