import SmartCore.Util.Nesting

/-!
# Choices

What a product shows, in other terms: as images (`chain_image`, `turn_image`), and as one value of
each part (`Picked`). A selection of all subsets of single bits shows their unions, each of which
is one of the sets of bits (`yields_unions`, `mem_unions`).
-/

namespace SmartCore.Util

open Enumerator

/-! ## What is shown, in other terms -/

section Images

variable {V W : Type} {op : V → V → V} {unit : V} {op' : W → W → W} {unit' : W} {f : V → W}

/-- The part that shows the images. -/
def Part.image (f : V → W) (P : Part V) : Part W := ⟨P.values.map f, f P.final⟩

theorem chain_image (hop : ∀ a b, f (op a b) = op' (f a) (f b)) (hunit : f unit = unit')
    (Ps : List (Part V)) : chain op' unit' (Ps.map (Part.image f)) = (chain op unit Ps).map f := by
  induction Ps with
  | nil => simp [chain, hunit]
  | cons P Ps ih =>
    have hhead : ((chain op unit Ps).map f).headD unit' = f ((chain op unit Ps).headD unit) := by
      cases chain op unit Ps <;> simp [hunit]
    rw [List.map_cons, chain, ih, hhead, chain]
    simp [Part.image, hop, Function.comp_def]

theorem turn_image (hop : ∀ a b, f (op a b) = op' (f a) (f b)) (hunit : f unit = unit')
    (Ps : List (Part V)) : turn op' unit' (Ps.map (Part.image f)) = (turn op unit Ps).map f := by
  cases Ps with
  | nil => simp [turn, hunit]
  | cons P Ps =>
    rw [List.map_cons, turn, visited, chain_image hop hunit, turn, visited]
    simp [Part.image, hop, Function.comp_def, List.map_flatMap, List.flatMap_map]

theorem finals_image (hop : ∀ a b, f (op a b) = op' (f a) (f b)) (hunit : f unit = unit')
    (Ps : List (Part V)) : finals op' unit' (Ps.map (Part.image f)) = f (finals op unit Ps) := by
  induction Ps with
  | nil => exact hunit.symm
  | cons P Ps ih => rw [List.map_cons, finals, ih, finals, hop, Part.image]

theorem turn_ne_nil {Ps : List (Part V)} (h : ∀ P ∈ Ps, P.values ≠ []) :
    turn op unit Ps ≠ [] := by
  cases Ps with
  | nil => simp [turn]
  | cons P Ps =>
    have hchain : chain op unit Ps ≠ [] :=
      chain_ne_nil op unit fun Q hQ => h Q (List.mem_cons_of_mem _ hQ)
    obtain ⟨y, ys, hy⟩ := List.exists_cons_of_ne_nil hchain
    simp [turn, visited, hy, h P]

end Images

/-- Enumerators that list what their parts say are in order at the start. -/
theorem sound_of_forall₂ {Es : List BitsetEnumerator} {Ps : List BitsPart}
    (h : List.Forall₂ (fun (E : BitsetEnumerator) P => E.Lists P.values P.final E.start P.values)
      Es Ps) : Sound Ps (Es.map fun _ => true) (States.start Es) := by
  induction h with
  | nil => exact .nil
  | cons hpart _ ih => exact .cons hpart (fun _ => trivial) ih

/-! ## One value of each part -/

section Picked

variable {V : Type} {op : V → V → V} {unit : V}

/-- Put together from a value of each part, or what it shows at its end. -/
inductive Picked (op : V → V → V) (unit : V) : List (Part V) → V → Prop where
  | nil : Picked op unit [] unit
  | cons {P : Part V} {Ps : List (Part V)} {x y : V} (hx : x ∈ P.final :: P.values)
      (hy : Picked op unit Ps y) : Picked op unit (P :: Ps) (op x y)

theorem picked_chain {Ps : List (Part V)} (hne : ∀ P ∈ Ps, P.values ≠ []) {y : V}
    (hy : y ∈ chain op unit Ps) : Picked op unit Ps y := by
  induction Ps generalizing y with
  | nil =>
    obtain rfl := List.mem_singleton.mp hy
    exact .nil
  | cons P Ps ih =>
    have hPs : ∀ Q ∈ Ps, Q.values ≠ [] := fun Q hQ => hne Q (List.mem_cons_of_mem _ hQ)
    have hchain : ∀ z ∈ chain op unit Ps, Picked op unit Ps z := fun z hz => ih hPs hz
    obtain ⟨z, zs, hz⟩ := List.exists_cons_of_ne_nil (chain_ne_nil op unit hPs)
    rw [hz] at hchain
    rw [chain, hz, List.mem_append, List.mem_map, List.mem_map] at hy
    rcases hy with ⟨x, hx, rfl⟩ | ⟨w, hw, rfl⟩
    · exact .cons (List.mem_cons_of_mem _ hx) (hchain z List.mem_cons_self)
    · exact .cons List.mem_cons_self (hchain w (List.mem_cons_of_mem _ hw))

theorem picked_turn {Ps : List (Part V)} (hne : ∀ P ∈ Ps, P.values ≠ []) {y : V}
    (hy : y ∈ turn op unit Ps) : Picked op unit Ps y := by
  cases Ps with
  | nil =>
    obtain rfl := List.mem_singleton.mp hy
    exact .nil
  | cons P Ps =>
    have hPs : ∀ Q ∈ Ps, Q.values ≠ [] := fun Q hQ => hne Q (List.mem_cons_of_mem _ hQ)
    obtain ⟨z, hz, hy⟩ := List.mem_flatMap.mp hy
    obtain ⟨x, hx, rfl⟩ := List.mem_map.mp hy
    exact .cons (List.mem_cons_of_mem _ hx) (picked_chain hPs hz)

theorem picked_finals (Ps : List (Part V)) : Picked op unit Ps (finals op unit Ps) := by
  induction Ps with
  | nil => exact .nil
  | cons P Ps ih => exact .cons List.mem_cons_self ih

/-- Of nodes that are put together each is in what one of the parts shows. -/
theorem Picked.mem {Ps : List (Part (List ℕ))} {y : List ℕ} (h : Picked (· ++ ·) [] Ps y) {n : ℕ}
    (hn : n ∈ y) : ∃ P ∈ Ps, ∃ x ∈ P.final :: P.values, n ∈ x := by
  induction h with
  | nil => cases hn
  | @cons P Ps x y hx _ ih =>
    rcases List.mem_append.mp hn with hn | hn
    · exact ⟨P, List.mem_cons_self, x, hx, hn⟩
    · obtain ⟨Q, hQ, hfound⟩ := ih hn
      exact ⟨Q, List.mem_cons_of_mem _ hQ, hfound⟩

/-- All parts show some of the nodes that are put together. -/
theorem Picked.subset {Ps : List (Part (List ℕ))} {y : List ℕ} (h : Picked (· ++ ·) [] Ps y) :
    ∀ P ∈ Ps, ∃ x ∈ P.final :: P.values, x ⊆ y := by
  induction h with
  | nil => exact fun _ hP => by cases hP
  | @cons P Ps x y hx _ ih =>
    refine List.forall_mem_cons.mpr ⟨⟨x, hx, List.subset_append_left _ _⟩, fun Q hQ => ?_⟩
    obtain ⟨z, hz, hsub⟩ := ih Q hQ
    exact ⟨z, hz, fun n hn => List.mem_append_right _ (hsub hn)⟩

end Picked

/-- As many are active as the mask says. -/
theorem count_le_of_actives {α : Type} {p : α → Bool} {mask : List Bool} {xs : List α}
    (hlen : mask.length = xs.length) (h : ∀ x ∈ actives mask xs, p x = true) :
    mask.count true ≤ xs.countP p := by
  induction xs generalizing mask with
  | nil =>
    obtain rfl := List.eq_nil_of_length_eq_zero hlen
    exact le_rfl
  | cons x xs ih =>
    cases mask with
    | nil => cases hlen
    | cons active mask =>
      have hlen' : mask.length = xs.length := by simpa using hlen
      cases active with
      | false =>
        have hle := ih hlen' h
        rw [List.count_cons_of_ne (by decide), List.countP_cons]
        omega
      | true =>
        have hle := ih hlen' fun y hy => h y (List.mem_cons_of_mem _ hy)
        rw [List.count_cons_self, List.countP_cons_of_pos (h x List.mem_cons_self)]
        omega

/-- A choice has as many entries as its number has ones. -/
theorem count_select {n a : ℕ} (hn : n ≤ 64) :
    (select (BitVec.ofNat 64 a) n).count true = ones n a := by
  rw [select, ones, List.count_eq_countP, List.countP_map]
  refine List.countP_congr fun i hi => ?_
  have hi : i < n := List.mem_range.mp hi
  have h64 : decide (i < 64) = true := decide_eq_true (by omega)
  rw [Function.comp_apply, BitVec.getLsbD_ofNat, h64, Bool.true_and, Bool.true_and, beq_true]

/-! ## All subsets -/

/-- A part with one value shows nothing else at its end. -/
theorem chain_single_values {V : Type} {op : V → V → V} {unit : V} (xs : List V) :
    chain op unit (xs.map fun x => ⟨[x], x⟩) = [xs.foldr op unit] := by
  induction xs with
  | nil => rfl
  | cons x xs ih => simp [chain, ih]

theorem turn_single_values {V : Type} {op : V → V → V} {unit : V} (xs : List V) :
    turn op unit (xs.map fun x => ⟨[x], x⟩) = [xs.foldr op unit] := by
  cases xs with
  | nil => rfl
  | cons x xs =>
    rw [List.map_cons, turn, visited, chain_single_values]
    rfl

theorem foldr_unite (xs : List Bits) :
    (xs.map some).foldr unite (some 0#64) = some (xs.foldr (· ||| ·) 0#64) := by
  induction xs with
  | nil => rfl
  | cons x xs ih => rw [List.map_cons, List.foldr_cons, ih]; rfl

theorem mem_actives_iff {α : Type} {mask : List Bool} {xs : List α} {x : α} :
    x ∈ actives mask xs ↔ ∃ j : ℕ, mask[j]? = some true ∧ xs[j]? = some x := by
  induction xs generalizing mask with
  | nil =>
    have hnil : actives mask ([] : List α) = [] := by
      cases mask with
      | nil => rfl
      | cons b mask => cases b <;> rfl
    simp [hnil]
  | cons y xs ih =>
    cases mask with
    | nil => simp [actives]
    | cons active mask =>
      have hsplit : (∃ j : ℕ, (active :: mask)[j]? = some true ∧ (y :: xs)[j]? = some x) ↔
          (active = true ∧ y = x) ∨ ∃ j : ℕ, mask[j]? = some true ∧ xs[j]? = some x := by
        constructor
        · rintro ⟨_ | j, hj, hx⟩
          · exact .inl ⟨Option.some.inj hj, Option.some.inj hx⟩
          · exact .inr ⟨j, hj, hx⟩
        · rintro (⟨hactive, hy⟩ | ⟨j, hj, hx⟩)
          · exact ⟨0, congrArg some hactive, congrArg some hy⟩
          · exact ⟨j + 1, hj, hx⟩
      rw [hsplit]
      cases active with
      | false => simp [actives, ih]
      | true => simp [actives, ih, eq_comm]

/-- The enumerator, but it stays at its end. -/
def stopped (E : BitsetEnumerator) : BitsetEnumerator :=
  { E with next := fun s => if E.bool s then E.next s else s }

/-- The choices of a selection of all subsets. -/
def subsets (nBits : ℕ) : List Bits := (List.range' 1 (2 ^ nBits - 1)).map (BitVec.ofNat 64)

theorem lists_powerset {nBits : ℕ} {E : BitsetEnumerator} (h : PowersetEnumerator nBits = some E) :
    (stopped E).Lists ((subsets nBits).map some) none (stopped E).start
      ((subsets nBits).map some) := by
  unfold PowersetEnumerator at h
  split_ifs at h with hn
  obtain rfl := Option.some.inj h
  have hlt : 2 ^ nBits < 2 ^ 64 := Nat.pow_lt_pow_right (by decide) (by omega)
  have hone : 1 ≤ 2 ^ nBits := Nat.one_le_two_pow
  let R : Bits → List (Option Bits) → Prop := fun mCur rest => ∃ k, k ≤ 2 ^ nBits ∧
    mCur = BitVec.ofNat 64 k ∧
      rest = ((List.range' k (2 ^ nBits - k)).map (BitVec.ofNat 64)).map some
  have hbool (k : ℕ) (hk : k ≤ 2 ^ nBits) :
      BitVec.ofNat 64 k < BitVec.ofNat 64 (2 ^ nBits) ↔ k < 2 ^ nBits := by
    rw [BitVec.lt_def, BitVec.toNat_ofNat, BitVec.toNat_ofNat, Nat.mod_eq_of_lt hlt,
      Nat.mod_eq_of_lt (hk.trans_lt hlt)]
  have hstart : R 1#64 ((subsets nBits).map some) := ⟨1, hone, rfl, rfl⟩
  refine ⟨R, ⟨?_, ?_, fun _ _ _ => hstart⟩, hstart⟩
  · rintro mCur rest ⟨k, hk, rfl, rfl⟩
    rcases hk.lt_or_eq with hlt' | rfl
    · obtain ⟨m, hm⟩ : ∃ m, 2 ^ nBits - k = m + 1 := ⟨2 ^ nBits - k - 1, by omega⟩
      rw [hm, List.range'_succ]
      exact ⟨decide_eq_true ((hbool k hk).mpr hlt'), known_some.mpr rfl⟩
    · rw [Nat.sub_self]
      refine ⟨decide_eq_false fun h => ?_, known_none _⟩
      exact lt_irrefl _ ((hbool _ hk).mp h)
  · rintro mCur rest ⟨k, hk, rfl, rfl⟩
    rcases hk.lt_or_eq with hlt' | rfl
    · obtain ⟨m, hm⟩ : ∃ m, 2 ^ nBits - k = m + 1 := ⟨2 ^ nBits - k - 1, by omega⟩
      refine ⟨k + 1, hlt', ?_, ?_⟩
      · show (if _ then _ else _) = _
        rw [if_pos (decide_eq_true ((hbool k hk).mpr hlt')), BitVec.ofNat_add]
      · rw [hm, List.range'_succ, show 2 ^ nBits - (k + 1) = m by omega]
        rfl
    · refine ⟨2 ^ nBits, le_rfl, ?_, ?_⟩
      · show (if _ then _ else _) = _
        rw [if_neg fun h => lt_irrefl _ ((hbool _ hk).mp (of_decide_eq_true h))]
      · rw [Nat.sub_self]
        rfl

section Stopped

variable {index : BitsetEnumerator} {Es : List BitsetEnumerator}
  {s : (SelectionEnumerator index Es).State}

/-- In a loop over a selection the index is not at its end. -/
def Indexed (index : BitsetEnumerator) (Es : List BitsetEnumerator)
    (s : (SelectionEnumerator index Es).State) : Prop :=
  (SelectionEnumerator index Es).bool s = true → index.bool s.1 = true

theorem Indexed.next (h : Indexed index Es s)
    (hbool : (SelectionEnumerator index Es).bool s = true) :
    Indexed index Es ((SelectionEnumerator index Es).next s) := by
  have hindex := h hbool
  obtain ⟨i, mask, ss⟩ := s
  intro hnext
  unfold SelectionEnumerator at hnext ⊢
  dsimp only at hnext hindex ⊢
  split_ifs at hnext ⊢ with hlive hmore hchosen hchosen
  · exact hindex
  · exact hchosen
  · exact (Bool.or_eq_true_iff.mp hnext).resolve_left hmore
  · exact hchosen
  · exact (Bool.or_eq_true_iff.mp hnext).resolve_left hlive

/-- As long as a loop runs, it makes no difference whether the index stays at its end. -/
theorem visits_stopped (index : BitsetEnumerator) (Es : List BitsetEnumerator)
    (hindexed : Indexed index Es (SelectionEnumerator index Es).start) (fuel : ℕ) :
    (SelectionEnumerator index Es).visits fuel (SelectionEnumerator index Es).start =
      (SelectionEnumerator (stopped index) Es).visits fuel
        (SelectionEnumerator (stopped index) Es).start := by
  refine visits_congr (R := fun s s' => Indexed index Es s ∧
    ∃ i mask ss, s = (i, mask, ss) ∧ s' = (i, mask, ss)) ?_ ⟨hindexed, _, _, _, rfl, rfl⟩ fuel
  rintro s s' ⟨hs, i, mask, ss, rfl, rfl⟩
  refine ⟨rfl, rfl, fun hbool => ⟨hs.next hbool, ?_⟩⟩
  refine ⟨_, _, _, rfl, ?_⟩
  have hindex := hs hbool
  unfold SelectionEnumerator stopped
  dsimp only at hindex ⊢
  rw [if_pos hindex]
  rfl

end Stopped

/-! ## Candidates -/

/-- The unions of choices from single bits. -/
def unions (bits : List Bits) : List Bits :=
  (subsets bits.length).map fun b =>
    (actives (select b bits.length) bits).foldr (· ||| ·) 0#64

/-- A selection of all subsets of constants shows their unions. -/
theorem yields_unions {bits : List Bits} {index : BitsetEnumerator}
    (hindex : PowersetEnumerator bits.length = some index) :
    (SelectionEnumerator index (bits.map ConstantEnumerator)).Yields
      (SelectionEnumerator index (bits.map ConstantEnumerator)).start (unions bits) := by
  cases bits with
  | nil =>
    unfold PowersetEnumerator at hindex
    obtain rfl := Option.some.inj hindex
    exact ⟨0, rfl⟩
  | cons x xs =>
    generalize hbits : x :: xs = bits at hindex ⊢
    have hpos : 0 < bits.length := by
      rw [← hbits]
      exact Nat.succ_pos _
    have hparts : List.Forall₂ (fun (E : BitsetEnumerator) (P : BitsPart) =>
        E.Lists P.values P.final E.start P.values) (bits.map ConstantEnumerator)
        (bits.map fun b => ⟨[some b], some b⟩) := by
      rw [List.forall₂_map_left_iff, List.forall₂_map_right_iff, List.forall₂_same]
      exact fun b _ => lists_constant b
    have hne : ∀ P ∈ bits.map fun b => (⟨[some b], some b⟩ : BitsPart), P.values ≠ [] := by
      intro P hP
      obtain ⟨b, -, rfl⟩ := List.mem_map.mp hP
      exact List.cons_ne_nil _ _
    have hsubsets : subsets bits.length ≠ [] := by
      have hone : 2 ^ 1 ≤ 2 ^ bits.length := Nat.pow_le_pow_right (by decide) hpos
      rw [subsets, Ne, List.map_eq_nil_iff, List.range'_eq_nil_iff]
      omega
    have hlists := lists_selection (lists_powerset hindex) hsubsets (sound_of_forall₂ hparts) hne
    have hselected : selected (subsets bits.length)
        (bits.map fun b => (⟨[some b], some b⟩ : BitsPart)) = (unions bits).map some := by
      rw [selected, unions, List.map_map, List.length_map]
      refine Eq.trans (List.flatMap_congr fun b _ => ?_) List.map_eq_flatMap.symm
      have hsingle : actives (select b bits.length)
          (bits.map fun b => (⟨[some b], some b⟩ : BitsPart)) =
          ((actives (select b bits.length) bits).map some).map fun x => ⟨[x], x⟩ := by
        rw [map_actives, List.map_map]
        rfl
      rw [hsingle, turnOr, turn_single_values, foldr_unite]
      rfl
    rw [hselected] at hlists
    have hindexed : Indexed index (bits.map ConstantEnumerator)
        (SelectionEnumerator index (bits.map ConstantEnumerator)).start := by
      intro _
      have hstart := (lists_powerset hindex).bool
      rw [List.isEmpty_eq_false_iff.mpr (by rwa [Ne, List.map_eq_nil_iff])] at hstart
      exact hstart
    refine ⟨(unions bits).length, ?_⟩
    rw [visits_stopped index _ hindexed]
    exact hlists.visits_known le_rfl

theorem getLsbD_bit {k i : ℕ} (hi : i < 64) : (1#64 <<< k).getLsbD i = decide (k = i) := by
  have htwo : (1#64 <<< k) = BitVec.twoPow 64 k := rfl
  rw [htwo, BitVec.getLsbD_twoPow, ← Bool.decide_and, decide_eq_decide]
  omega

theorem getLsbD_foldr_or {xs : List Bits} {i : ℕ} :
    (xs.foldr (· ||| ·) 0#64).getLsbD i = true ↔ ∃ x ∈ xs, x.getLsbD i = true := by
  induction xs with
  | nil => simp
  | cons x xs ih => rw [List.foldr_cons, BitVec.getLsbD_or, Bool.or_eq_true, ih]; simp

theorem getElem?_select {b : Bits} {n j : ℕ} (hn : n ≤ 64) :
    (select b n)[j]? = some true ↔ j < n ∧ b.getLsbD j = true := by
  rw [select, List.getElem?_map]
  by_cases hj : j < n
  · rw [List.getElem?_range hj]
    simp [hj, show j < 64 by omega]
  · rw [List.getElem?_eq_none (by simpa using hj)]
    simp [hj]

theorem getLsbD_union {ns : List ℕ} (hlen : ns.length ≤ 64) {b : Bits} {i : ℕ} (hi : i < 64) :
    ((actives (select b (ns.map fun k => 1#64 <<< k).length) (ns.map fun k => 1#64 <<< k)).foldr
      (· ||| ·) 0#64).getLsbD i = true ↔ ∃ j : ℕ, b.getLsbD j = true ∧ ns[j]? = some i := by
  rw [getLsbD_foldr_or, List.length_map]
  constructor
  · rintro ⟨x, hx, hbit⟩
    obtain ⟨j, hj, hx⟩ := mem_actives_iff.mp hx
    obtain ⟨k, hk, rfl⟩ := Option.map_eq_some_iff.mp (List.getElem?_map ▸ hx)
    rw [getLsbD_bit hi, decide_eq_true_iff] at hbit
    exact ⟨j, ((getElem?_select hlen).mp hj).2, hbit ▸ hk⟩
  · rintro ⟨j, hb, hj⟩
    obtain ⟨hlt, -⟩ := List.getElem?_eq_some_iff.mp hj
    refine ⟨1#64 <<< i, mem_actives_iff.mpr ⟨j, (getElem?_select hlen).mpr ⟨hlt, hb⟩, ?_⟩, ?_⟩
    · rw [List.getElem?_map, hj, Option.map_some]
    · rw [getLsbD_bit hi, decide_eq_true_iff]

theorem exists_getLsbD {B : Bits} (h : B ≠ 0#64) : ∃ i < 64, B.getLsbD i = true := by
  by_contra hnone
  refine h (BitVec.eq_of_getLsbD_eq fun i hi => ?_)
  rw [BitVec.getLsbD_zero, Bool.eq_false_iff]
  exact fun hbit => hnone ⟨i, hi, hbit⟩

/-- **Every set of some of the bits is a union**, if it is not empty. -/
theorem mem_unions {ns : List ℕ} (hlen : ns.length < 31) (hns : ∀ k ∈ ns, k < 64) {B : Bits} :
    B ∈ unions (ns.map fun k => 1#64 <<< k) ↔
      B ≠ 0#64 ∧ ∀ i < 64, B.getLsbD i = true → i ∈ ns := by
  have h64 : ns.length ≤ 64 := by omega
  have hbit {k j : ℕ} (hk : k < 2 ^ ns.length) :
      (BitVec.ofNat 64 k).getLsbD j = true ↔ k.testBit j = true := by
    have hsmall : k < 2 ^ 64 := hk.trans_le (Nat.pow_le_pow_right (by decide) h64)
    rw [BitVec.getLsbD_ofNat, Bool.and_eq_true, decide_eq_true_iff, and_iff_right_iff_imp]
    intro hj
    by_contra hge
    have hpow : 2 ^ 64 ≤ 2 ^ j := Nat.pow_le_pow_right (by decide) (by omega)
    rw [Nat.testBit_lt_two_pow (hsmall.trans_le hpow)] at hj
    cases hj
  rw [unions, subsets, List.map_map, List.mem_map]
  constructor
  · rintro ⟨k, hk, rfl⟩
    rw [List.length_map, List.mem_range'_1] at hk
    have hlt : k < 2 ^ ns.length := by omega
    refine ⟨fun hzero => ?_, fun i hi h => ?_⟩
    · obtain ⟨j, hj⟩ := Nat.exists_testBit_of_ne_zero (show k ≠ 0 by omega)
      have hjn : j < ns.length := by
        by_contra hge
        have hpow : 2 ^ ns.length ≤ 2 ^ j := Nat.pow_le_pow_right (by decide) (by omega)
        rw [Nat.testBit_lt_two_pow (hlt.trans_le hpow)] at hj
        cases hj
      have hin := (getLsbD_union h64 (b := BitVec.ofNat 64 k) (hns _ (List.getElem_mem hjn))).mpr
        ⟨j, (hbit hlt).mpr hj, List.getElem?_eq_getElem hjn⟩
      rw [Function.comp_apply] at hzero
      rw [hzero, BitVec.getLsbD_zero] at hin
      cases hin
    · obtain ⟨j, -, hj⟩ := (getLsbD_union h64 hi).mp h
      exact List.mem_of_getElem? hj
  · rintro ⟨hne, hin⟩
    let k := Nat.ofBits fun j : Fin ns.length => B.getLsbD ns[j]
    have hk : k < 2 ^ ns.length := Nat.ofBits_lt_two_pow _
    have htest {j : ℕ} (hj : j < ns.length) : k.testBit j = B.getLsbD ns[j] :=
      Nat.testBit_ofBits_lt _ _ hj
    have hsome : k ≠ 0 := by
      obtain ⟨i, hi, hB⟩ := exists_getLsbD hne
      obtain ⟨j, hj, rfl⟩ := List.getElem_of_mem (hin i hi hB)
      intro hzero
      rw [← htest hj, hzero, Nat.zero_testBit] at hB
      cases hB
    refine ⟨k, by rw [List.length_map, List.mem_range'_1]; omega, ?_⟩
    apply BitVec.eq_of_getLsbD_eq
    intro i hi
    rw [Bool.eq_iff_iff, Function.comp_apply, getLsbD_union h64 hi]
    constructor
    · rintro ⟨j, hb, hj⟩
      obtain ⟨hlt, rfl⟩ := List.getElem?_eq_some_iff.mp hj
      rwa [hbit hk, htest hlt] at hb
    · intro hB
      obtain ⟨j, hj, rfl⟩ := List.getElem_of_mem (hin i hi hB)
      exact ⟨j, by rwa [hbit hk, htest hj], List.getElem?_eq_getElem hj⟩

end SmartCore.Util
