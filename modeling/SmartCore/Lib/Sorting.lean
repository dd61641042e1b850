import Mathlib.Algebra.GroupWithZero.Nat
import Mathlib.Data.List.Sort
import Mathlib.Data.List.Perm.Subperm
import Mathlib.Order.Basic

/-!
# Sorting with a comparator

`std::sort` takes a comparator, and promises something only if the comparator is a strict weak order
on the elements: then the result is a permutation in which nothing stands after what it is less
than. `StdSort` is any function that keeps this promise. Equal elements may come out in any order.

* `StdSort.mem_take` is what a cut of the sorted list keeps: with an element, all that are less, and
* `prefix_of_downClosed` makes a prefix of a part of a strictly sorted list that is closed in this
  sense.

`sum_take_le` is about greedy choices: the first numbers of a sorted list are the cheapest ones.
-/

namespace SmartCore

variable {α : Type}

/-- A strict weak order on the elements of `l`. -/
structure StrictWeakOn (lt : α → α → Bool) (l : List α) : Prop where
  irrefl : ∀ a ∈ l, lt a a = false
  trans : ∀ a ∈ l, ∀ b ∈ l, ∀ c ∈ l, lt a b = true → lt b c = true → lt a c = true
  /-- not to be comparable is transitive -/
  incomp : ∀ a ∈ l, ∀ b ∈ l, ∀ c ∈ l, lt a b = false → lt b a = false → lt b c = false →
    lt c b = false → lt a c = false

/-- `std::sort` -/
structure StdSort (α : Type) where
  sort : (α → α → Bool) → List α → List α
  perm : ∀ {lt l}, StrictWeakOn lt l → (sort lt l).Perm l
  sorted : ∀ {lt l}, StrictWeakOn lt l → (sort lt l).Pairwise fun a b => lt b a = false

/-- Comparing by a key of a linear order. -/
theorem strictWeakOn_key {κ : Type} [LinearOrder κ] (key : α → κ) (l : List α) :
    StrictWeakOn (fun a b => decide (key a < key b)) l where
  irrefl _ _ := decide_eq_false (lt_irrefl _)
  trans _ _ _ _ _ _ hab hbc :=
    decide_eq_true ((of_decide_eq_true hab).trans (of_decide_eq_true hbc))
  incomp _ _ _ _ _ _ hab _ hbc _ :=
    decide_eq_false (not_lt.mpr
      ((not_lt.mp (of_decide_eq_false hbc)).trans (not_lt.mp (of_decide_eq_false hab))))

namespace StrictWeakOn

variable {lt : α → α → Bool} {l l' : List α}

theorem of_subset (h : StrictWeakOn lt l) (hsub : l' ⊆ l) : StrictWeakOn lt l' where
  irrefl a ha := h.irrefl a (hsub ha)
  trans a ha b hb c hc := h.trans a (hsub ha) b (hsub hb) c (hsub hc)
  incomp a ha b hb c hc := h.incomp a (hsub ha) b (hsub hb) c (hsub hc)

theorem asymm (h : StrictWeakOn lt l) {a b : α} (ha : a ∈ l) (hb : b ∈ l) (hab : lt a b = true) :
    lt b a = false := by
  by_contra hba
  have haa := h.trans a ha b hb a ha hab (by simpa using hba)
  rw [h.irrefl a ha] at haa
  cases haa

/-- Not to be greater is transitive. -/
theorem ge_trans (h : StrictWeakOn lt l) {a b c : α} (ha : a ∈ l) (hb : b ∈ l) (hc : c ∈ l)
    (hba : lt b a = false) (hcb : lt c b = false) : lt c a = false := by
  by_contra hca
  have hca : lt c a = true := by simpa using hca
  have hac := h.asymm hc ha hca
  have hab : lt a b = false := by
    by_contra hab
    have := h.trans c hc a ha b hb hca (by simpa using hab)
    rw [hcb] at this
    cases this
  have hbc : lt b c = false := by
    by_contra hbc
    have := h.trans b hb c hc a ha (by simpa using hbc) hca
    rw [hba] at this
    cases this
  rw [h.incomp c hc b hb a ha hcb hbc hba hab] at hca
  cases hca

/-- Only the elements count. -/
theorem congr {lt' : α → α → Bool} (h : StrictWeakOn lt l)
    (heq : ∀ a ∈ l, ∀ b ∈ l, lt' a b = lt a b) : StrictWeakOn lt' l := by
  refine ⟨fun a ha => ?_, fun a ha b hb c hc => ?_, fun a ha b hb c hc => ?_⟩
  · rw [heq a ha a ha]
    exact h.irrefl a ha
  · rw [heq a ha b hb, heq b hb c hc, heq a ha c hc]
    exact h.trans a ha b hb c hc
  · rw [heq a ha b hb, heq b hb a ha, heq b hb c hc, heq c hc b hb, heq a ha c hc]
    exact h.incomp a ha b hb c hc

end StrictWeakOn

/-! ## Cutting a sorted list -/

/-- What is less than an element of the first `n` is among them. -/
theorem StdSort.mem_take (std : StdSort α) {lt : α → α → Bool} {l : List α} (h : StrictWeakOn lt l)
    {n : ℕ} {a b : α} (ha : a ∈ l) (hb : b ∈ (std.sort lt l).take n) (hab : lt a b = true) :
    a ∈ (std.sort lt l).take n := by
  have ha : a ∈ (std.sort lt l).take n ++ (std.sort lt l).drop n := by
    rw [List.take_append_drop]
    exact (std.perm h).mem_iff.mpr ha
  refine (List.mem_append.mp ha).resolve_right fun hdrop => ?_
  have hsorted : ((std.sort lt l).take n ++ (std.sort lt l).drop n).Pairwise
      fun a b => lt b a = false := by
    rw [List.take_append_drop]
    exact std.sorted h
  have := (List.pairwise_append.mp hsorted).2.2 b hb a hdrop
  rw [hab] at this
  cases this

/-- Lists that are sorted by a key, one of them strictly. If the other has some of its elements, and
with each all that come before it, it is a prefix. -/
theorem prefix_of_downClosed {κ : Type} [LinearOrder κ] {key : α → κ} {l k : List α}
    (hl : l.Pairwise fun a b => key a < key b) (hk : k.Pairwise fun a b => key a < key b)
    (hsub : k ⊆ l) (hdown : ∀ a ∈ l, ∀ b ∈ k, key a < key b → a ∈ k) : k <+: l := by
  induction l generalizing k with
  | nil =>
    obtain rfl := List.eq_nil_of_subset_nil hsub
    exact ⟨_, rfl⟩
  | cons x l ih =>
    cases k with
    | nil => exact ⟨_, rfl⟩
    | cons y k =>
      obtain ⟨hx, hl⟩ := List.pairwise_cons.mp hl
      obtain ⟨hy, hk'⟩ := List.pairwise_cons.mp hk
      -- `x` is in the other list, and nothing there comes before it
      have hxy : x = y := by
        rcases List.mem_cons.mp (hsub List.mem_cons_self) with heq | hmem
        · exact heq.symm
        · have hlt := hx y hmem
          rcases List.mem_cons.mp (hdown x List.mem_cons_self y List.mem_cons_self hlt) with h | h
          · exact h
          · exact absurd (hy x h) (lt_asymm hlt)
      subst hxy
      refine List.cons_prefix_cons.mpr ⟨rfl, ih hl hk' (fun a ha => ?_) fun a ha b hb hab => ?_⟩
      · refine (List.mem_cons.mp (hsub (List.mem_cons_of_mem _ ha))).resolve_left ?_
        intro heq
        exact (hy a ha).ne (heq ▸ rfl)
      · refine (List.mem_cons.mp (hdown a (List.mem_cons_of_mem _ ha) b (List.mem_cons_of_mem _ hb)
          hab)).resolve_left ?_
        intro heq
        exact (hx a ha).ne (heq ▸ rfl)

/-! ## Insertion -/

/-- Puts `a` before the first element that is not less. -/
def insertBy (lt : α → α → Bool) (a : α) : List α → List α
  | [] => [a]
  | b :: l => if lt b a then b :: insertBy lt a l else a :: b :: l

def insertionSortBy (lt : α → α → Bool) (l : List α) : List α := l.foldr (insertBy lt) []

theorem insertBy_perm (lt : α → α → Bool) (a : α) (l : List α) :
    (insertBy lt a l).Perm (a :: l) := by
  induction l with
  | nil => exact .refl _
  | cons b l ih =>
    unfold insertBy
    split_ifs
    · exact (ih.cons b).trans (.swap a b l)
    · exact .refl _

theorem insertionSortBy_perm (lt : α → α → Bool) (l : List α) :
    (insertionSortBy lt l).Perm l := by
  induction l with
  | nil => exact .refl _
  | cons a l ih => exact (insertBy_perm lt a _).trans (ih.cons a)

theorem insertBy_sorted {lt : α → α → Bool} {a : α} {l : List α} (h : StrictWeakOn lt (a :: l))
    (hl : l.Pairwise fun a b => lt b a = false) :
    (insertBy lt a l).Pairwise fun a b => lt b a = false := by
  induction l with
  | nil => exact List.pairwise_singleton _ _
  | cons b l ih =>
    obtain ⟨hb, hl'⟩ := List.pairwise_cons.mp hl
    unfold insertBy
    split_ifs with hba
    · refine List.pairwise_cons.mpr ⟨fun c hc => ?_, ih (h.of_subset ?_) hl'⟩
      · rcases List.mem_cons.mp ((insertBy_perm lt a l).mem_iff.mp hc) with rfl | hc
        · exact h.asymm (List.mem_cons_of_mem _ List.mem_cons_self) List.mem_cons_self hba
        · exact hb c hc
      · exact List.cons_subset_cons _ (List.subset_cons_self _ _)
    · refine List.pairwise_cons.mpr ⟨fun c hc => ?_, hl⟩
      have hba : lt b a = false := by simpa using hba
      rcases List.mem_cons.mp hc with rfl | hmem
      · exact hba
      · exact h.ge_trans List.mem_cons_self (List.mem_cons_of_mem _ List.mem_cons_self)
          (List.mem_cons_of_mem _ hc) hba (hb c hmem)

/-- Insertion sort, which is what `std::sort` does with a few elements. -/
def insertionSort : StdSort α where
  sort := insertionSortBy
  perm _ := insertionSortBy_perm _ _
  sorted {lt l} h := by
    induction l with
    | nil => exact List.Pairwise.nil
    | cons a l ih =>
      refine insertBy_sorted (h.of_subset ?_) (ih (h.of_subset (List.subset_cons_self _ _)))
      exact List.cons_subset_cons _ (insertionSortBy_perm lt l).subset

/-- **The cheapest choice.** Of numbers that are not zero, no other `l` cost less than the first `l`
of the sorted list, and every one more costs at least one. -/
theorem sum_take_le {costs chosen : List ℕ} (hsorted : costs.Pairwise (· ≤ ·))
    (hpos : ∀ c ∈ costs, 1 ≤ c) (hsub : chosen.Subperm costs) {l : ℕ} (hl : l ≤ chosen.length) :
    (costs.take l).sum + (chosen.length - l) ≤ chosen.sum := by
  induction costs generalizing chosen l with
  | nil =>
    rw [List.subperm_nil.mp hsub]
    simp
  | cons c costs ih =>
    obtain ⟨hle, hsorted⟩ := List.pairwise_cons.mp hsorted
    have hpos' : ∀ c' ∈ costs, 1 ≤ c' := fun c' hc' => hpos c' (List.mem_cons_of_mem _ hc')
    -- one of the chosen numbers, and the others among the rest
    have hsplit : ∀ x rest, chosen.Perm (x :: rest) → c ≤ x → rest.Subperm costs →
        (((c :: costs).take l).sum + (chosen.length - l) ≤ chosen.sum) := by
      intro x rest hperm hx hrest
      rw [hperm.sum_nat, hperm.length_eq, List.sum_cons, List.length_cons]
      rw [hperm.length_eq, List.length_cons] at hl
      cases l with
      | zero =>
        have := ih hsorted hpos' hrest (Nat.zero_le _)
        have hx' := hpos c List.mem_cons_self
        simp only [List.take_zero, List.sum_nil] at this ⊢
        omega
      | succ l =>
        have := ih hsorted hpos' hrest (l := l) (by omega)
        simp only [List.take_succ_cons, List.sum_cons]
        omega
    by_cases hc : c ∈ chosen
    · have hperm := List.perm_cons_erase hc
      refine hsplit c (chosen.erase c) hperm le_rfl ?_
      exact (List.subperm_cons c).mp (hperm.symm.subperm.trans hsub)
    · have hsub' : chosen.Subperm costs := by
        have herase := hsub.erase c
        rwa [List.erase_of_not_mem hc, List.erase_cons_head] at herase
      cases chosen with
      | nil =>
        obtain rfl : l = 0 := Nat.le_zero.mp hl
        simp
      | cons x rest =>
        refine hsplit x rest (.refl _) (hle x (hsub'.subset List.mem_cons_self)) ?_
        exact (List.sublist_cons_self x rest).subperm.trans hsub'

end SmartCore
