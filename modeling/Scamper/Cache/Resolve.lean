import Scamper.Cache.Interning

/-!
The resolvers `scamper_addr_resolve` and `scamper_addrcache_resolve`: `getaddrinfo` on a
numeric host name, then the first `PF_INET` or `PF_INET6` entry of its answer is allocated
with `scamper_addr_alloc` or looked up with `scamper_addrcache_get`. What `getaddrinfo`
answers is a parameter, as the outcome of `malloc` is.

* `scamperAddrcacheResolve_reachable`: from a reachable state the cache's resolver does
  what one allowed `scamper_addrcache_get` of the state machine does, or returns `NULL` and
  changes nothing when `getaddrinfo` fails or answers no IP entry. So the state it leaves is
  reachable and keeps every invariant of `Scamper.Cache.System`, and the address it returns
  holds the first IP entry's value, interned in the cache.
-/

namespace Scamper

/-- An entry of `getaddrinfo`'s answer as the resolvers read it: a `PF_INET` entry with the
4 bytes of its `sin_addr`, a `PF_INET6` entry with the 16 bytes of its `sin6_addr`, or an
entry of another family. -/
inductive AddrInfo where
  | inet (addr : List UInt8) (h : addr.length = 4)
  | inet6 (addr : List UInt8) (h : addr.length = 16)
  | other

/-- The loop of both resolvers: the address of the first `PF_INET` or `PF_INET6` entry. -/
def resolveFirst : List AddrInfo → Option ScamperAddr
  | [] => none
  | .inet a h :: _ => some ⟨.ipv4, a, h⟩
  | .inet6 a h :: _ => some ⟨.ipv6, a, h⟩
  | .other :: res => resolveFirst res

/-- `scamper_addr_resolve(af, addr)`, with `res` the answer of `getaddrinfo` (`none` for an
error) and the outcomes of the allocation. -/
def scamperAddrResolve (m : Mem) (res : Option (List AddrInfo)) (sa : Option Ptr) (dup : Bool) :
    Mem × Option Ptr :=
  match res with
  | none | some [] => (m, none)
  | some res =>
    match resolveFirst res with
    | some v => scamperAddrAlloc m sa dup v
    | none => (m, none)

/-- `scamper_addrcache_resolve(addrcache, af, addr)`, with `res` the answer of `getaddrinfo`
and the outcomes of the lookup. -/
def scamperAddrcacheResolve (ho : HostOrder) (build : Build) (m : Mem) (ac : Ptr)
    (res : Option (List AddrInfo)) (sa : Option Ptr) (dup ins : Bool) :
    Option (Mem × Option Ptr) :=
  match res with
  | none | some [] => some (m, none)
  | some res =>
    match resolveFirst res with
    | some v => scamperAddrcacheGet ho build m ac v sa dup ins
    | none => some (m, none)

section Resolve

variable {ho : HostOrder} {build : Build}

theorem scamperAddrcacheResolve_eq (m : Mem) (ac : Ptr) (res : Option (List AddrInfo))
    (sa : Option Ptr) (dup ins : Bool) :
    scamperAddrcacheResolve ho build m ac res sa dup ins =
      match res.bind resolveFirst with
      | some v => scamperAddrcacheGet ho build m ac v sa dup ins
      | none => some (m, none) := by
  rcases res with _ | _ | ⟨_, _⟩ <;> rfl

/-- **`scamper_addrcache_resolve` is a lookup.** From a reachable state, on a live cache and
with `malloc` returning `NULL` or a fresh pointer, `scamper_addrcache_resolve` is
`scamper_addrcache_get` of the first IP entry of `getaddrinfo`'s answer, or returns `NULL` and
changes nothing. The state it leaves, with the caller holding the result, is reachable, and
the result is an address of that entry's value interned in the cache. -/
theorem scamperAddrcacheResolve_reachable {s : Sys} (hs : Reachable ho build s)
    {ac : Ptr} {res : Option (List AddrInfo)} {sa : Option Ptr} {dup ins : Bool}
    {m' : Mem} {r : Option Ptr} (hac : (s.mem.caches ac).isSome) (hsa : s.mem.MallocOk sa)
    (h : scamperAddrcacheResolve ho build s.mem ac res sa dup ins = some (m', r)) :
    Reachable ho build ⟨m', r.toList ++ s.held⟩ ∧
      (res.bind resolveFirst = none → m' = s.mem ∧ r = none) ∧
      ∀ q, r = some q → ∃ v, res.bind resolveFirst = some v ∧
        ∃ o, m'.addrs q = some o ∧ o.val = v ∧ o.internal = some ac := by
  rw [scamperAddrcacheResolve_eq] at h
  rcases hv : res.bind resolveFirst with _ | v <;> simp only [hv] at h
  · obtain ⟨rfl, rfl⟩ := Prod.mk.inj (Option.some.inj h).symm
    exact ⟨hs, fun _ => ⟨rfl, rfl⟩, nofun⟩
  have ha : Allowed s (.addrcacheGet ac v sa dup ins) := ⟨hac, hsa⟩
  refine ⟨hs.step ha (by simp [sysStep, h]), nofun, fun q hq => ?_⟩
  subst hq
  exact ⟨v, rfl, scamperAddrcacheGet_result_interned hs.sysInv ha h⟩

theorem scamperAddrcacheResolve_reachable_one_cache :
    let s : Sys := ⟨Mem.empty.setCache 1 (some ⟨fun _ => []⟩), []⟩
    let res : Option (List AddrInfo) := some [.inet [10, 0, 0, 1] rfl]
    let m' := (s.mem.setCache 1 (some ((⟨fun _ => []⟩ : AddrCache).setTree .ipv4 [2]))).setAddr 2
      (some ⟨⟨.ipv4, [10, 0, 0, 1], rfl⟩, 1, some 1⟩)
    Reachable .bigEndian .posix s ∧ (s.mem.caches 1).isSome ∧ s.mem.MallocOk (some 2) ∧
      scamperAddrcacheResolve .bigEndian .posix s.mem 1 res (some 2) true true = some (m', some 2) ∧
      Reachable .bigEndian .posix ⟨m', (some 2).toList ++ s.held⟩ ∧
      (res.bind resolveFirst = none → m' = s.mem ∧ some 2 = none) ∧
      ∀ q, some 2 = some q → ∃ v, res.bind resolveFirst = some v ∧
        ∃ o, m'.addrs q = some o ∧ o.val = v ∧ o.internal = some 1 := by
  intro s res m'
  have hs : Reachable .bigEndian .posix s :=
    .step .init (show Allowed _ (.addrcacheAlloc (some 1) true) from ⟨rfl, rfl⟩) rfl
  have hsa : s.mem.MallocOk (some 2) := ⟨rfl, rfl⟩
  have h : scamperAddrcacheResolve .bigEndian .posix s.mem 1 res (some 2) true true =
      some (m', some 2) := scamperAddrcacheGet_insert _ _ hs.sysInv.cache rfl (by simp)
  exact ⟨hs, rfl, hsa, h, scamperAddrcacheResolve_reachable hs rfl hsa h⟩

end Resolve

end Scamper
