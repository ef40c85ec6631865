import Scamper.Addr.Basic

/-!
The ordered container of `scamper_addrcache_t`.

`splaytree.c` is not part of this source. The spec treats it as a collaborator with insert,
find, remove and teardown by comparator, and this module models that contract over the list
of its members; where the members sit in the tree does not matter to `scamper_addr.c`. A
comparison reads the member it compares through the heap, and a member that cannot be read
or a comparator whose assertion fails makes the operation `none`.

* `splaytreeFind_eq`: where the comparator decides a predicate on every member, a find is the
  first member that satisfies it;
* `splaytreeRemoveItem_eq`: where it is zero exactly at one pointer, a removal erases it.
-/

namespace Scamper

section Splaytree

variable {α σ : Type} (cmp : α → α → Option Int) (read : Ptr → Option α) (item : α)

/-- Modelled from the spec: `splaytree_find(tree, item)`, the member `q` with
`cmp(item, q) == 0`, or `NULL`. -/
def splaytreeFind : List Ptr → Option (Option Ptr)
  | [] => some none
  | q :: qs => do
    let c ← (read q).bind (cmp item)
    if c = 0 then some (some q) else splaytreeFind qs

/-- Modelled from the spec: `splaytree_insert(tree, item)` either fails, returning `NULL` with
the tree as it was, or adds `item`; `ok` is which. -/
def splaytreeInsert (ok : Bool) (q : Ptr) (tree : List Ptr) : Option (List Ptr) :=
  if ok then some (q :: tree) else none

/-- Modelled from the spec: `splaytree_remove_item(tree, item)` removes the member `q` with
`cmp(item, q) == 0`, if there is one. -/
def splaytreeRemoveItem : List Ptr → Option (List Ptr)
  | [] => some []
  | q :: qs => do
    let c ← (read q).bind (cmp item)
    if c = 0 then some qs else (q :: ·) <$> splaytreeRemoveItem qs

/-- Modelled from the spec: `splaytree_free(tree, free_cb)` calls `free_cb` on every member,
then discards the tree. -/
def splaytreeFree (freeCb : σ → Ptr → Option σ) (s : σ) (tree : List Ptr) : Option σ :=
  tree.foldlM freeCb s

variable {cmp read item}

theorem splaytreeFind_eq {P : Ptr → Prop} [DecidablePred P] {tree : List Ptr}
    (h : ∀ q ∈ tree, ∃ c, (read q).bind (cmp item) = some c ∧ (c = 0 ↔ P q)) :
    splaytreeFind cmp read item tree = some (tree.find? fun q => decide (P q)) := by
  induction tree with
  | nil => rfl
  | cons q qs ih =>
    obtain ⟨c, hc, hP⟩ := h q (List.mem_cons_self q qs)
    by_cases hq : P q
    · simp [splaytreeFind, hc, hP.mpr hq, hq]
    · simp [splaytreeFind, hc, hq, mt hP.mp hq, ih fun r hr => h r (List.mem_cons_of_mem q hr)]

theorem splaytreeRemoveItem_eq {x : Ptr} {tree : List Ptr}
    (h : ∀ q ∈ tree, ∃ c, (read q).bind (cmp item) = some c ∧ (c = 0 ↔ q = x)) :
    splaytreeRemoveItem cmp read item tree = some (tree.erase x) := by
  induction tree with
  | nil => rfl
  | cons q qs ih =>
    obtain ⟨c, hc, hx⟩ := h q (List.mem_cons_self q qs)
    by_cases hq : q = x
    · subst hq
      simp [splaytreeRemoveItem, hc, hx.mpr rfl]
    · simp [splaytreeRemoveItem, hc, mt hx.mp hq, ih fun r hr => h r (List.mem_cons_of_mem q hr),
        List.erase_cons, hq]

end Splaytree

end Scamper
