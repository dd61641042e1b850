import Mathlib.Tactic.Common

/-!
# Caches of recently used items

`lrucache.hpp`: a map that holds so many items and gives up the one that was not used for the longest
time. What holds of all items that are put into it holds of all that are found in it, whatever is given
up (`All`).
-/

namespace SmartCore

/-- `cache::lru_cache`: the items, from the one used last on. -/
structure LruCache (α β : Type) where
  maxSize : ℕ
  items : List (α × β) := []
deriving DecidableEq

namespace LruCache

variable {α β : Type} [DecidableEq α] (c : LruCache α β)

def get? (k : α) : Option β := c.items.lookup k

def erase (k : α) : List (α × β) := c.items.filter fun i => i.1 ≠ k

/-- Reading an item moves it to the front. -/
def touch (k : α) (v : β) : LruCache α β := { c with items := (k, v) :: c.erase k }

/-- A new item may push out the last one. -/
def put (k : α) (v : β) : LruCache α β :=
  let items := (k, v) :: c.erase k
  { c with items := if c.maxSize < items.length then items.dropLast else items }

theorem get?_touch (k : α) (v : β) : (c.touch k v).get? k = some v := by
  simp [get?, touch]

/-- A new item is not pushed out itself. -/
theorem get?_put (h : 0 < c.maxSize) (k : α) (v : β) : (c.put k v).get? k = some v := by
  unfold get? put
  simp only
  split_ifs with hlen
  · cases he : c.erase k with
    | nil =>
      rw [he] at hlen
      simp at hlen
      omega
    | cons i is => simp [List.dropLast]
  · exact List.lookup_cons_self

/-- All items satisfy `P`. -/
def All (P : α → β → Prop) : Prop := ∀ i ∈ c.items, P i.1 i.2

variable {c} {P : α → β → Prop} {k : α} {v : β}

omit [DecidableEq α] in
theorem all_empty {n : ℕ} : All (⟨n, []⟩ : LruCache α β) P := nofun

theorem All.erase (h : c.All P) : ∀ i ∈ c.erase k, P i.1 i.2 := fun i hi =>
  h i (List.mem_filter.mp hi).1

theorem All.touch (h : c.All P) (hv : P k v) : (c.touch k v).All P :=
  List.forall_mem_cons.mpr ⟨hv, h.erase⟩

theorem All.put (h : c.All P) (hv : P k v) : (c.put k v).All P := by
  have hitems : ∀ i ∈ (k, v) :: c.erase k, P i.1 i.2 := List.forall_mem_cons.mpr ⟨hv, h.erase⟩
  unfold All LruCache.put
  dsimp only
  split_ifs
  · exact fun i hi => hitems i ((List.dropLast_sublist _).subset hi)
  · exact hitems

theorem All.get? (h : c.All P) (hv : c.get? k = some v) : P k v := by
  unfold LruCache.get? at hv
  have hmem := List.lookup_eq_some_iff.mp hv
  obtain ⟨l₁, l₂, heq, -⟩ := hmem
  exact h (k, v) (by rw [heq]; simp)

end LruCache

end SmartCore
