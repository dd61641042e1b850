import SmartCore.Lib.BitPermutation
import SmartCore.Lib.Enumerator

/-!
# Enumerators of bit sets

A `BitsetEnumerator` shows one set of bits after the other. From single sets, permutations of bits
and all subsets, others are put together: `CartesianProductEnumerator` shows the unions of what its
parts show, and `SelectionEnumerator` does so for one choice of its parts after the other.

`CartesianProductEnumerator::operator++` moves its first part. When that is at its end, it moves the
others in turn until one of them still has something to show, and then resets the first part, where
it should reset all that are at their end. So not all unions are shown: those that are have the
form of `visited` (`lists_cartesian`). The parts that are not reset show what they show at their
end, which is their last value for some, and for others, such as permutations, some other value.
-/

namespace SmartCore.Util

abbrev Bits := BitVec 64

abbrev BitsetEnumerator := Enumerator Bits

/-! ## Simple enumerators -/

def ConstantEnumerator (bits : Bits) : BitsetEnumerator where
  State := Bool
  start := false
  reset _ := false
  next _ := true
  bool mDone := !mDone
  deref _ := bits

/-- The number must be that of a bit. -/
def bitNumber (n : ℕ) : Option BitsetEnumerator :=
  if n < 64 then some (ConstantEnumerator (1#64 <<< n)) else none

/-- `nSet` ones. -/
def lowOnes : ℕ → Bits
  | 0 => 0#64
  | n + 1 => (lowOnes n <<< 1) ||| 1#64

/-- The numbers must be in order. A shift by 64 is undefined, so there is no end to a choice from 64
parts, though there may be that many. -/
def PermutationEnumerator (nSet nTotal : ℕ) : Option BitsetEnumerator :=
  if nSet ≤ nTotal ∧ 0 < nSet ∧ nTotal < 64 then
    some
      { State := Bits
        start := lowOnes nSet
        reset := fun _ => lowOnes nSet
        next := nextPermutation
        bool := fun mCur => mCur &&& ~~~((1#64 <<< nTotal) - 1#64) == 0#64
        deref := id }
  else none

/-- `1 << nBits` is an `int`: from 31 bits on it is undefined. -/
def PowersetEnumerator (nBits : ℕ) : Option BitsetEnumerator :=
  if nBits < 31 then
    some
      { State := Bits
        start := 1#64
        reset := fun _ => 1#64
        next := fun mCur => mCur + 1#64
        bool := fun mCur => decide (mCur < BitVec.ofNat 64 (2 ^ nBits))
        deref := id }
  else none

/-! ## Products

The parts are shared: those of a product belong to the selection that has made it. So a product is
here a choice from a list of enumerators, some of which are active. -/

/-- The states of a list of enumerators. -/
@[reducible] def States : List BitsetEnumerator → Type
  | [] => Unit
  | E :: Es => E.State × States Es

namespace States

def start : (Es : List BitsetEnumerator) → States Es
  | [] => ()
  | E :: Es => (E.start, start Es)

/-- `reset` for the active ones. -/
def reset : {Es : List BitsetEnumerator} → List Bool → States Es → States Es
  | [], _, _ => ()
  | E :: _, active :: mask, (s, ss) => (if active then E.reset s else s, reset mask ss)
  | _ :: _, [], ss => ss

def bool : {Es : List BitsetEnumerator} → List Bool → States Es → Bool
  | [], _, _ => false
  | E :: _, active :: mask, (s, ss) => (active && E.bool s) || bool mask ss
  | _ :: _, [], _ => false

def deref : {Es : List BitsetEnumerator} → List Bool → States Es → Bits
  | [], _, _ => 0#64
  | E :: _, active :: mask, (s, ss) => if active then E.deref s ||| deref mask ss else deref mask ss
  | _ :: _, [], _ => 0#64

/-- Move the active ones until one of them has something to show. Is there one? -/
def carry : {Es : List BitsetEnumerator} → List Bool → States Es → Bool × States Es
  | [], _, _ => (false, ())
  | E :: _, active :: mask, (s, ss) =>
    if active then
      let s := E.next s
      if E.bool s then (true, (s, ss))
      else
        let (found, ss) := carry mask ss
        (found, (s, ss))
    else
      let (found, ss) := carry mask ss
      (found, (s, ss))
  | _ :: _, [], ss => (false, ss)

/-- `operator++` of the product. The first active one that has something to show is moved. If it is
at its end then, the ones after it are moved in turn, and only this one is reset: the loop over
`reset` has `mInnerEnums[i]` in it. If all are at their end, the loop finds nothing more to do. -/
def next : {Es : List BitsetEnumerator} → List Bool → States Es → States Es
  | [], _, _ => ()
  | E :: _, active :: mask, (s, ss) =>
    if active && E.bool s then
      let s := E.next s
      if E.bool s then (s, ss)
      else
        let (found, ss) := carry mask ss
        if found then (E.reset s, ss) else (s, ss)
    else (s, next mask ss)
  | _ :: _, [], ss => ss

end States

def CartesianProductEnumerator (innerEnums : List BitsetEnumerator) : BitsetEnumerator :=
  let all := innerEnums.map fun _ => true
  { State := States innerEnums
    start := (States.start innerEnums).reset all
    reset := States.reset all
    next := States.next all
    bool := States.bool all
    deref := States.deref all }

/-! ## Selections -/

/-- `select`, for `n` parts. -/
def select (bits : Bits) (n : ℕ) : List Bool :=
  (List.range n).map fun i => decide (i < 64) && bits.getLsbD i

/-- The state of a selection: the index, the parts, and which of them are in `mProduct`. -/
def SelectionEnumerator (index : BitsetEnumerator) (innerEnums : List BitsetEnumerator) :
    BitsetEnumerator :=
  let all := innerEnums.map fun _ => true
  let n := innerEnums.length
  { State := index.State × List Bool × States innerEnums
    start := (index.start, select (index.deref index.start) n,
      (States.start innerEnums).reset all)
    reset := fun (i, _, ss) =>
      let i := index.reset i
      let mask := select (index.deref i) n
      (i, mask, ss.reset mask)
    bool := fun (i, mask, ss) => ss.bool mask || index.bool i
    deref := fun (_, mask, ss) => ss.deref mask
    next := fun (i, mask, ss) =>
      let ss := if ss.bool mask then ss.next mask else ss
      if ss.bool mask then (i, mask, ss)
      else
        let i := index.next i
        if index.bool i then
          let mask := select (index.deref i) n
          (i, mask, ss.reset mask)
        else (i, mask, ss) }

/-! ## What a product shows -/

/-- A part of a product: its values, and what it shows at its end. -/
structure Part (V : Type) where
  values : List V
  final : V

section Visited

variable {V : Type} (op : V → V → V) (unit : V)

/-- How the parts after the first one go on: all values of the first of them, with the first values
of the others; then all that these show, with what the first shows at its end. -/
def chain : List (Part V) → List V
  | [] => [unit]
  | P :: Ps =>
    P.values.map (op · ((chain Ps).headD unit)) ++ (chain Ps).tail.map (op P.final)

/-- What a product shows: for everything that the other parts come to, all values of the first. -/
def visited : List (Part V) → List V
  | [] => []
  | P :: Ps => (chain op unit Ps).flatMap fun y => P.values.map (op · y)

/-- What is shown at the end. -/
def finals : List (Part V) → V
  | [] => unit
  | P :: Ps => op P.final (finals Ps)

/-- What a selection shows for one choice. If nothing is chosen it shows the empty union once. -/
def turn : List (Part V) → List V
  | [] => [unit]
  | P :: Ps => visited op unit (P :: Ps)

/-- The active ones. -/
def actives {α : Type} : List Bool → List α → List α
  | true :: mask, x :: xs => x :: actives mask xs
  | false :: mask, _ :: xs => actives mask xs
  | _, _ => []

variable {P : Part V} {Ps : List (Part V)}

theorem chain_ne_nil (h : ∀ P ∈ Ps, P.values ≠ []) : chain op unit Ps ≠ [] := by
  cases Ps with
  | nil => simp [chain]
  | cons P Ps => simp [chain, h P]

theorem mem_actives {α : Type} {mask : List Bool} {x : α} {xs : List α} (hx : x ∈ actives mask xs) :
    x ∈ xs := by
  induction xs generalizing mask with
  | nil =>
    cases mask with
    | nil => cases hx
    | cons b mask => cases b <;> cases hx
  | cons x' xs ih =>
    cases mask with
    | nil => cases hx
    | cons b mask =>
      cases b with
      | false => exact List.mem_cons_of_mem _ (ih hx)
      | true =>
        rcases List.mem_cons.mp hx with rfl | hx
        · exact List.mem_cons_self
        · exact List.mem_cons_of_mem _ (ih hx)

theorem map_actives {α β : Type} (f : α → β) (mask : List Bool) (xs : List α) :
    actives mask (xs.map f) = (actives mask xs).map f := by
  induction xs generalizing mask with
  | nil =>
    cases mask with
    | nil => rfl
    | cons b mask => cases b <;> rfl
  | cons x xs ih =>
    cases mask with
    | nil => rfl
    | cons b mask => cases b <;> simp [actives, ih]

end Visited

/-! ## The parts of a product -/

open Enumerator

/-- The union, if both sets are known. -/
def unite (a b : Option Bits) : Option Bits := Option.map₂ (· ||| ·) a b

theorem known_unite {x y : Bits} {a b : Option Bits} (hx : Known x a) (hy : Known y b) :
    Known (x ||| y) (unite a b) := by
  cases a with
  | none => exact known_none _
  | some a =>
    cases b with
    | none => exact known_none _
    | some b =>
      rw [known_some.mp hx, known_some.mp hy]
      exact known_some.mpr rfl

abbrev BitsPart := Part (Option Bits)

/-- The lists of the parts. Of the active ones something is known about the values that are still to
come. -/
inductive Stand (Q : BitsPart → List (Option Bits) → Prop) :
    (Es : List BitsetEnumerator) → List BitsPart → List Bool → States Es → Prop where
  | nil : Stand Q [] [] [] ()
  | cons {E : BitsetEnumerator} {Es : List BitsetEnumerator} {P : BitsPart} {Ps : List BitsPart}
      {active : Bool} {mask : List Bool} {s : E.State} {ss : States Es}
      {rest : List (Option Bits)} (hpart : E.Lists P.values P.final s rest)
      (hactive : active = true → Q P rest) (h : Stand Q Es Ps mask ss) :
      Stand Q (E :: Es) (P :: Ps) (active :: mask) (s, ss)

abbrev chainOr : List BitsPart → List (Option Bits) := chain unite (some 0#64)

abbrev visitedOr : List BitsPart → List (Option Bits) := visited unite (some 0#64)

abbrev finalsOr : List BitsPart → Option Bits := finals unite (some 0#64)

abbrev turnOr : List BitsPart → List (Option Bits) := turn unite (some 0#64)

/-- All active parts are at their beginning. -/
abbrev Fresh {Es : List BitsetEnumerator} (Ps : List BitsPart) (mask : List Bool)
    (ss : States Es) : Prop :=
  Stand (fun P rest => rest = P.values) Es Ps mask ss

/-- All active parts are at their end. -/
abbrev Dead {Es : List BitsetEnumerator} (Ps : List BitsPart) (mask : List Bool)
    (ss : States Es) : Prop :=
  Stand (fun _ rest => rest = []) Es Ps mask ss

abbrev Sound {Es : List BitsetEnumerator} (Ps : List BitsPart) (mask : List Bool)
    (ss : States Es) : Prop :=
  Stand (fun _ _ => True) Es Ps mask ss

section Products

variable {Es : List BitsetEnumerator} {P : BitsPart} {Ps : List BitsPart} {mask : List Bool}
  {ss : States Es} {Q Q' : BitsPart → List (Option Bits) → Prop} {rest : List (Option Bits)}

theorem Stand.mono (h : Stand Q Es Ps mask ss) (hQ : ∀ P rest, Q P rest → Q' P rest) :
    Stand Q' Es Ps mask ss := by
  induction h with
  | nil => exact .nil
  | cons hpart hactive _ ih => exact .cons hpart (fun ha => hQ _ _ (hactive ha)) ih

/-- What is known of all parts does not depend on the choice. -/
theorem Stand.sound {mask' : List Bool} (h : Stand Q Es Ps mask ss)
    (hlen : mask'.length = mask.length) : Sound Ps mask' ss := by
  induction h generalizing mask' with
  | nil =>
    obtain rfl := List.eq_nil_of_length_eq_zero hlen
    exact .nil
  | cons hpart _ _ ih =>
    cases mask' with
    | nil => cases hlen
    | cons active' mask' => exact .cons hpart (fun _ => trivial) (ih (by simpa using hlen))

theorem Stand.length (h : Stand Q Es Ps mask ss) :
    mask.length = Es.length ∧ Ps.length = Es.length := by
  induction h with
  | nil => exact ⟨rfl, rfl⟩
  | cons _ _ _ ih => simp [ih]

theorem Stand.reset (h : Stand Q Es Ps mask ss) : Fresh Ps mask (ss.reset mask) := by
  induction h with
  | nil => exact .nil
  | @cons E Es P Ps active mask s ss rest hpart _ _ ih =>
    cases active with
    | true => exact .cons hpart.reset (fun _ => rfl) ih
    | false => exact .cons hpart (fun h => by cases h) ih

/-- An active part at its end has nothing to show. -/
theorem bool_eq_false {E : BitsetEnumerator} {s : E.State} {active : Bool}
    (hpart : E.Lists P.values P.final s rest) (hactive : active = true → rest = []) :
    (active && E.bool s) = false := by
  cases active with
  | true =>
    rw [hpart.bool, hactive rfl]
    rfl
  | false => rfl

theorem Dead.bool (h : Dead Ps mask ss) : ss.bool mask = false := by
  induction h with
  | nil => rfl
  | cons hpart hactive _ ih => rw [States.bool, ih, Bool.or_false, bool_eq_false hpart hactive]

theorem Dead.next (h : Dead Ps mask ss) : ss.next mask = ss := by
  induction h with
  | nil => rfl
  | cons hpart hactive _ ih =>
    rw [States.next, if_neg (by simp [bool_eq_false hpart hactive]), ih]

theorem Dead.deref (h : Dead Ps mask ss) : Known (ss.deref mask) (finalsOr (actives mask Ps)) := by
  induction h with
  | nil => exact known_some.mpr rfl
  | @cons E Es P Ps active mask s ss rest hpart hactive _ ih =>
    cases active with
    | false => exact ih
    | true =>
      rw [hactive rfl] at hpart
      rw [States.deref, if_pos rfl]
      exact known_unite hpart.deref ih

/-! ### The parts after the first -/

/-- Where the parts after the first one stand: those at their end, one that goes on, and fresh ones.
`rest` is what is still to come, with what they show now. -/
inductive Tail : (Es : List BitsetEnumerator) → List BitsPart → List Bool → States Es →
    List (Option Bits) → Prop where
  | nil : Tail [] [] [] () [some 0#64]
  | skip {E : BitsetEnumerator} {Es : List BitsetEnumerator} {P : BitsPart} {Ps : List BitsPart}
      {mask : List Bool} {s : E.State} {ss : States Es} {r rest : List (Option Bits)}
      (hpart : E.Lists P.values P.final s r) (h : Tail Es Ps mask ss rest) :
      Tail (E :: Es) (P :: Ps) (false :: mask) (s, ss) rest
  | live {E : BitsetEnumerator} {Es : List BitsetEnumerator} {P : BitsPart} {Ps : List BitsPart}
      {mask : List Bool} {s : E.State} {ss : States Es} {r : List (Option Bits)}
      (hne : r ≠ []) (hpart : E.Lists P.values P.final s r) (h : Fresh Ps mask ss) :
      Tail (E :: Es) (P :: Ps) (true :: mask) (s, ss)
        (r.map (unite · ((chainOr (actives mask Ps)).headD (some 0#64))) ++
          (chainOr (actives mask Ps)).tail.map (unite P.final))
  | dead {E : BitsetEnumerator} {Es : List BitsetEnumerator} {P : BitsPart} {Ps : List BitsPart}
      {mask : List Bool} {s : E.State} {ss : States Es} {rest : List (Option Bits)}
      (hpart : E.Lists P.values P.final s []) (h : Tail Es Ps mask ss rest) :
      Tail (E :: Es) (P :: Ps) (true :: mask) (s, ss) (rest.map (unite P.final))

theorem Fresh.tail (h : Fresh Ps mask ss) (hne : ∀ P ∈ Ps, P.values ≠ []) :
    Tail Es Ps mask ss (chainOr (actives mask Ps)) := by
  induction h with
  | nil => exact .nil
  | @cons E Es P Ps active mask s ss rest hpart hactive h ih =>
    cases active with
    | false => exact .skip hpart (ih fun P' hP' => hne P' (List.mem_cons_of_mem _ hP'))
    | true =>
      obtain rfl := hactive rfl
      exact .live (hne P (by simp)) hpart h

theorem Tail.sound (h : Tail Es Ps mask ss rest) : Sound Ps mask ss := by
  induction h with
  | nil => exact .nil
  | skip hpart _ ih => exact .cons hpart (fun _ => trivial) ih
  | live _ hpart h => exact .cons hpart (fun _ => trivial) (h.mono fun _ _ _ => trivial)
  | dead hpart _ ih => exact .cons hpart (fun _ => trivial) ih

theorem Fresh.deref (h : Fresh Ps mask ss) (hne : ∀ P ∈ Ps, P.values ≠ []) :
    Known (ss.deref mask) ((chainOr (actives mask Ps)).headD (some 0#64)) := by
  induction h with
  | nil => exact known_some.mpr rfl
  | @cons E Es P Ps active mask s ss rest hpart hactive h ih =>
    have ih := ih fun P' hP' => hne P' (List.mem_cons_of_mem _ hP')
    cases active with
    | false => exact ih
    | true =>
      obtain rfl := hactive rfl
      have hfirst := hpart.deref
      obtain ⟨x, r, hx⟩ := List.exists_cons_of_ne_nil (hne P (by simp))
      rw [hx] at hfirst
      have hchain : chainOr (actives (true :: mask) (P :: Ps)) =
          P.values.map (unite · ((chainOr (actives mask Ps)).headD (some 0#64))) ++
            (chainOr (actives mask Ps)).tail.map (unite P.final) := rfl
      rw [States.deref, if_pos rfl, hchain, hx]
      exact known_unite hfirst ih

theorem Tail.deref (h : Tail Es Ps mask ss rest) (hne : ∀ P ∈ Ps, P.values ≠ []) :
    ∃ o rest', rest = o :: rest' ∧ Known (ss.deref mask) o := by
  induction h with
  | nil => exact ⟨_, [], rfl, known_some.mpr rfl⟩
  | skip _ _ ih => exact ih fun P' hP' => hne P' (List.mem_cons_of_mem _ hP')
  | @live E Es P Ps mask s ss r hr hpart h =>
    have hothers := h.deref fun P' hP' => hne P' (List.mem_cons_of_mem _ hP')
    obtain ⟨x, r, rfl⟩ := List.exists_cons_of_ne_nil hr
    rw [States.deref, if_pos rfl]
    exact ⟨_, _, rfl, known_unite hpart.deref hothers⟩
  | @dead E Es P Ps mask s ss rest hpart _ ih =>
    obtain ⟨o, rest', rfl, ho⟩ := ih fun P' hP' => hne P' (List.mem_cons_of_mem _ hP')
    rw [States.deref, if_pos rfl]
    exact ⟨_, _, rfl, known_unite hpart.deref ho⟩

/-- The part has something to show after it is moved. -/
theorem carry_of_bool {E : BitsetEnumerator} {s : E.State} (h : E.bool (E.next s) = true) :
    @States.carry (E :: Es) (true :: mask) (s, ss) = (true, (E.next s, ss)) := by
  simp [States.carry, h]

/-- The part is at its end. -/
theorem carry_of_end {E : BitsetEnumerator} {s : E.State} (h : E.bool (E.next s) = false) :
    @States.carry (E :: Es) (true :: mask) (s, ss) =
      ((ss.carry mask).1, (E.next s, (ss.carry mask).2)) := by
  simp [States.carry, h]

/-- The next of them. -/
theorem Tail.carry (h : Tail Es Ps mask ss rest) (hne : ∀ P ∈ Ps, P.values ≠ []) :
    (rest.tail = [] ∧ (ss.carry mask).1 = false ∧ Dead Ps mask (ss.carry mask).2) ∨
      (rest.tail ≠ [] ∧ (ss.carry mask).1 = true ∧
        Tail Es Ps mask (ss.carry mask).2 rest.tail) := by
  induction Es generalizing Ps mask rest with
  | nil =>
    cases h
    exact Or.inl ⟨rfl, rfl, .nil⟩
  | cons E Es ih =>
    cases h with
    | @skip _ _ P Ps mask s ss r rest hpart h =>
      rcases ih h fun P' hP' => hne P' (List.mem_cons_of_mem _ hP') with ⟨hend, hfound, hdead⟩ |
        ⟨hmore, hfound, htail⟩
      · exact Or.inl ⟨hend, hfound, .cons hpart (fun h => by cases h) hdead⟩
      · exact Or.inr ⟨hmore, hfound, .skip hpart htail⟩
    | @live _ _ P Ps mask s ss r hr hpart h =>
      have hPs : ∀ P' ∈ Ps, P'.values ≠ [] := fun P' hP' => hne P' (List.mem_cons_of_mem _ hP')
      have hnext := hpart.next
      obtain ⟨x, r, rfl⟩ := List.exists_cons_of_ne_nil hr
      cases r with
      | cons y r =>
        -- this part goes on
        rw [carry_of_bool hnext.bool]
        exact Or.inr ⟨by simp, rfl, .live (by simp) hnext h⟩
      | nil =>
        rw [carry_of_end hnext.bool]
        rcases ih (h.tail hPs) hPs with ⟨hend, hfound, hdead⟩ | ⟨hmore, hfound, htail⟩
        · exact Or.inl ⟨by simp [hend], hfound, .cons hnext (fun _ => rfl) hdead⟩
        · exact Or.inr ⟨fun h => hmore (List.map_eq_nil_iff.mp h), hfound, .dead hnext htail⟩
    | @dead _ _ P Ps mask s ss rest hpart h =>
      have hnext : E.Lists P.values P.final (E.next s) [] := hpart.next
      rw [carry_of_end hnext.bool]
      rcases ih h fun P' hP' => hne P' (List.mem_cons_of_mem _ hP') with ⟨hend, hfound, hdead⟩ |
        ⟨hmore, hfound, htail⟩
      · refine Or.inl ⟨by rw [← List.map_tail, hend]; rfl, hfound, ?_⟩
        exact .cons hnext (fun _ => rfl) hdead
      · rw [← List.map_tail]
        exact Or.inr ⟨fun h => hmore (List.map_eq_nil_iff.mp h), hfound, .dead hnext htail⟩

/-! ### All parts -/

/-- Where the parts of a product stand that has something to show. -/
inductive Live : (Es : List BitsetEnumerator) → List BitsPart → List Bool → States Es →
    List (Option Bits) → Prop where
  | skip {E : BitsetEnumerator} {Es : List BitsetEnumerator} {P : BitsPart} {Ps : List BitsPart}
      {mask : List Bool} {s : E.State} {ss : States Es} {r rest : List (Option Bits)}
      (hpart : E.Lists P.values P.final s r) (h : Live Es Ps mask ss rest) :
      Live (E :: Es) (P :: Ps) (false :: mask) (s, ss) rest
  | first {E : BitsetEnumerator} {Es : List BitsetEnumerator} {P : BitsPart} {Ps : List BitsPart}
      {mask : List Bool} {s : E.State} {ss : States Es} {r ys : List (Option Bits)}
      {y : Option Bits} (hne : r ≠ []) (hpart : E.Lists P.values P.final s r)
      (h : Tail Es Ps mask ss (y :: ys)) :
      Live (E :: Es) (P :: Ps) (true :: mask) (s, ss)
        (r.map (unite · y) ++ ys.flatMap fun y => P.values.map (unite · y))

theorem Live.sound (h : Live Es Ps mask ss rest) : Sound Ps mask ss := by
  induction h with
  | skip hpart _ ih => exact .cons hpart (fun _ => trivial) ih
  | first _ hpart h => exact .cons hpart (fun _ => trivial) h.sound

theorem Fresh.live (h : Fresh Ps mask ss) (hne : ∀ P ∈ Ps, P.values ≠ []) (hmask : true ∈ mask) :
    Live Es Ps mask ss (visitedOr (actives mask Ps)) := by
  induction h with
  | nil => cases hmask
  | @cons E Es P Ps active mask s ss rest hpart hactive h ih =>
    have hPs : ∀ P' ∈ Ps, P'.values ≠ [] := fun P' hP' => hne P' (List.mem_cons_of_mem _ hP')
    cases active with
    | false => exact .skip hpart (ih hPs (by simpa using hmask))
    | true =>
      obtain rfl := hactive rfl
      obtain ⟨y, ys, hy⟩ : ∃ y ys, chainOr (actives mask Ps) = y :: ys :=
        List.exists_cons_of_ne_nil (chain_ne_nil _ _ fun P' hP' => hPs P' (mem_actives hP'))
      have hvisited : visitedOr (actives (true :: mask) (P :: Ps)) =
          (chainOr (actives mask Ps)).flatMap fun y => P.values.map (unite · y) := rfl
      have htail := Fresh.tail h hPs
      rw [hy] at htail
      rw [hvisited, hy, List.flatMap_cons]
      exact .first (hne P (by simp)) hpart htail

theorem Live.bool (h : Live Es Ps mask ss rest) : ss.bool mask = true := by
  induction h with
  | skip _ _ ih => exact ih
  | first hne hpart =>
    rw [States.bool, hpart.bool]
    simp [hne]

theorem Live.deref (h : Live Es Ps mask ss rest) (hne : ∀ P ∈ Ps, P.values ≠ []) :
    ∃ o rest', rest = o :: rest' ∧ Known (ss.deref mask) o := by
  induction h with
  | skip _ _ ih => exact ih fun P' hP' => hne P' (List.mem_cons_of_mem _ hP')
  | first hr hpart h =>
    obtain ⟨o, rest', heq, ho⟩ := h.deref fun P' hP' => hne P' (List.mem_cons_of_mem _ hP')
    obtain ⟨rfl, rfl⟩ := List.cons.inj heq
    obtain ⟨x, r, rfl⟩ := List.exists_cons_of_ne_nil hr
    rw [States.deref, if_pos rfl]
    exact ⟨_, _, rfl, known_unite hpart.deref ho⟩

theorem next_of_bool {E : BitsetEnumerator} {s : E.State} (hs : E.bool s = true)
    (h : E.bool (E.next s) = true) :
    @States.next (E :: Es) (true :: mask) (s, ss) = (E.next s, ss) := by
  simp [States.next, hs, h]

theorem next_of_end {E : BitsetEnumerator} {s : E.State} (hs : E.bool s = true)
    (h : E.bool (E.next s) = false) :
    @States.next (E :: Es) (true :: mask) (s, ss) =
      if (ss.carry mask).1 then (E.reset (E.next s), (ss.carry mask).2)
      else (E.next s, (ss.carry mask).2) := by
  simp [States.next, hs, h]

theorem Live.next (h : Live Es Ps mask ss rest) (hne : ∀ P ∈ Ps, P.values ≠ []) :
    (rest.tail = [] ∧ Dead Ps mask (ss.next mask)) ∨
      (rest.tail ≠ [] ∧ Live Es Ps mask (ss.next mask) rest.tail) := by
  induction h with
  | skip hpart _ ih =>
    rcases ih fun P' hP' => hne P' (List.mem_cons_of_mem _ hP') with ⟨hend, hdead⟩ |
      ⟨hmore, hlive⟩
    · exact Or.inl ⟨hend, .cons hpart (fun h => by cases h) hdead⟩
    · exact Or.inr ⟨hmore, .skip hpart hlive⟩
  | @first E Es P Ps mask s ss r ys y hr hpart h =>
    have hP : P.values ≠ [] := hne P (by simp)
    have hbool : E.bool s = true := by
      rw [hpart.bool]
      simp [hr]
    have hnext := hpart.next
    obtain ⟨x, r, rfl⟩ := List.exists_cons_of_ne_nil hr
    cases r with
    | cons x' r =>
      rw [next_of_bool hbool hnext.bool]
      exact Or.inr ⟨by simp, .first (by simp) hnext h⟩
    | nil =>
      rw [next_of_end hbool hnext.bool]
      rcases h.carry fun P' hP' => hne P' (List.mem_cons_of_mem _ hP') with ⟨hend, hfound, hdead⟩ |
        ⟨hmore, hfound, htail⟩
      · rw [if_neg (by simp [hfound])]
        refine Or.inl ⟨?_, .cons hnext (fun _ => rfl) hdead⟩
        obtain rfl : ys = [] := hend
        rfl
      · rw [if_pos hfound]
        obtain ⟨y', ys', rfl⟩ := List.exists_cons_of_ne_nil hmore
        refine Or.inr ⟨by simp [hP], ?_⟩
        simp only [List.map_cons, List.map_nil, List.cons_append, List.nil_append, List.tail_cons,
          List.flatMap_cons]
        exact .first hP hnext.reset htail

theorem actives_all (h : Sound Ps (Es.map fun _ => true) ss) :
    actives (Es.map fun _ => true) Ps = Ps := by
  induction Es generalizing Ps with
  | nil =>
    cases h
    rfl
  | cons E Es ih =>
    cases h with
    | cons _ _ h => exact congrArg _ (ih h)

/-- A product shows what is `visited`, and then what its parts show at their end. -/
theorem lists_cartesian (h : Sound Ps (Es.map fun _ => true) (States.start Es)) (hEs : Es ≠ [])
    (hne : ∀ P ∈ Ps, P.values ≠ []) :
    (CartesianProductEnumerator Es).Lists (visitedOr Ps) (finalsOr Ps)
      (CartesianProductEnumerator Es).start (visitedOr Ps) := by
  let all := Es.map fun _ => true
  have hall : true ∈ all := by
    obtain ⟨E, Es', rfl⟩ := List.exists_cons_of_ne_nil hEs
    simp [all]
  have hactives : actives all Ps = Ps := actives_all h
  have hfresh (ss : States Es) (h : Fresh Ps all ss) : Live Es Ps all ss (visitedOr Ps) := by
    have hlive := h.live hne hall
    rwa [hactives] at hlive
  refine ⟨fun ss rest => Live Es Ps all ss rest ∨ rest = [] ∧ Dead Ps all ss, ⟨?_, ?_, ?_⟩,
    Or.inl (hfresh _ h.reset)⟩
  · rintro ss rest (hlive | ⟨rfl, hdead⟩)
    · obtain ⟨o, rest, rfl, ho⟩ := hlive.deref hne
      exact ⟨hlive.bool, ho⟩
    · refine ⟨hdead.bool, ?_⟩
      rw [← hactives]
      exact hdead.deref
  · rintro ss rest (hlive | ⟨rfl, hdead⟩)
    · rcases hlive.next hne with ⟨hend, hdead⟩ | ⟨-, hlive⟩
      · exact Or.inr ⟨hend, hdead⟩
      · exact Or.inl hlive
    · refine Or.inr ⟨rfl, ?_⟩
      show Dead Ps all (States.next all ss)
      rw [hdead.next]
      exact hdead
  · rintro ss rest (hlive | ⟨rfl, hdead⟩)
    · exact Or.inl (hfresh _ hlive.sound.reset)
    · exact Or.inl (hfresh _ hdead.reset)

/-- If all parts are fresh, the active ones are. -/
theorem Fresh.of_all (h : Fresh Ps (Es.map fun _ => true) ss) (hlen : mask.length = Es.length) :
    Fresh Ps mask ss := by
  induction Es generalizing Ps mask with
  | nil =>
    cases h
    obtain rfl := List.eq_nil_of_length_eq_zero hlen
    exact .nil
  | cons E Es ih =>
    cases mask with
    | nil => cases hlen
    | cons active mask =>
      cases h with
      | cons hpart hactive h =>
        exact .cons hpart (fun _ => hactive rfl) (ih h (by simpa using hlen))

/-! ### Selections -/

/-- What a selection shows. -/
def selected (idx : List Bits) (Ps : List BitsPart) : List (Option Bits) :=
  idx.flatMap fun b => turnOr (actives (select b Ps.length) Ps)

/-- What it shows at its end: the parts of the last choice are still active. -/
def lastFinals (idx : List Bits) (Ps : List BitsPart) : Option Bits :=
  finalsOr (actives (select (idx.getLastD 0#64) Ps.length) Ps)

theorem length_select (b : Bits) (n : ℕ) : (select b n).length = n := by simp [select]

/-- Nothing is chosen. -/
theorem Stand.dead (h : Stand Q Es Ps mask ss) (hmask : true ∉ mask) : Dead Ps mask ss := by
  induction h with
  | nil => exact .nil
  | @cons E Es P Ps active mask s ss rest hpart _ _ ih =>
    refine .cons hpart (fun hactive => ?_) (ih fun hmem => hmask (List.mem_cons_of_mem _ hmem))
    rw [hactive] at hmask
    exact absurd List.mem_cons_self hmask

theorem Stand.actives_eq_nil (h : Stand Q Es Ps mask ss) (hmask : true ∉ mask) :
    actives mask Ps = [] := by
  induction h with
  | nil => rfl
  | @cons E Es P Ps active mask s ss rest _ _ _ ih =>
    cases active with
    | true => exact absurd List.mem_cons_self hmask
    | false => exact ih fun hmem => hmask (List.mem_cons_of_mem _ hmem)

theorem Stand.actives_ne_nil (h : Stand Q Es Ps mask ss) (hmask : true ∈ mask) :
    actives mask Ps ≠ [] := by
  induction h with
  | nil => cases hmask
  | @cons E Es P Ps active mask s ss rest _ _ _ ih =>
    cases active with
    | true => simp [actives]
    | false => exact ih (by simpa using hmask)

/-- Where a selection stands: at a choice whose product has something to show, at one of no part, or
behind the last one. -/
inductive Choice (index : BitsetEnumerator) (f : Option Bits) (Es : List BitsetEnumerator)
    (idx : List Bits) (Ps : List BitsPart) :
    (SelectionEnumerator index Es).State → List (Option Bits) → Prop where
  | live {pre bs : List Bits} {b : Bits} {i : index.State} {ss : States Es}
      {rest : List (Option Bits)} (hsplit : idx = pre ++ b :: bs)
      (hi : index.Lists (idx.map some) f i ((b :: bs).map some))
      (hlive : Live Es Ps (select b Ps.length) ss rest) :
      Choice index f Es idx Ps (i, select b Ps.length, ss) (rest ++ selected bs Ps)
  | idle {pre bs : List Bits} {b : Bits} {i : index.State} {ss : States Es}
      (hsplit : idx = pre ++ b :: bs)
      (hi : index.Lists (idx.map some) f i ((b :: bs).map some))
      (hdead : Dead Ps (select b Ps.length) ss) (hnone : actives (select b Ps.length) Ps = []) :
      Choice index f Es idx Ps (i, select b Ps.length, ss) (some 0#64 :: selected bs Ps)
  | dead {pre : List Bits} {b : Bits} {i : index.State} {ss : States Es}
      (hsplit : idx = pre ++ [b]) (hi : index.Lists (idx.map some) f i [])
      (hdead : Dead Ps (select b Ps.length) ss) :
      Choice index f Es idx Ps (i, select b Ps.length, ss) []

section Choices

variable {index : BitsetEnumerator} {f : Option Bits} {idx : List Bits}
  {s : (SelectionEnumerator index Es).State}

theorem Choice.shows (h : Choice index f Es idx Ps s rest) (hne : ∀ P ∈ Ps, P.values ≠ []) :
    (SelectionEnumerator index Es).Shows (lastFinals idx Ps) s rest := by
  cases h with
  | live hsplit hi hlive =>
    obtain ⟨o, rest, rfl, ho⟩ := hlive.deref hne
    exact ⟨by simp [SelectionEnumerator, hlive.bool], ho⟩
  | idle hsplit hi hdead hnone =>
    have hshown := hdead.deref
    rw [hnone] at hshown
    exact ⟨by simp [SelectionEnumerator, hi.bool], hshown⟩
  | dead hsplit hi hdead =>
    refine ⟨by simp [SelectionEnumerator, hdead.bool, hi.bool], ?_⟩
    rw [List.headD_nil, lastFinals, hsplit, List.getLastD_concat]
    exact hdead.deref

/-- A choice that has just been made. -/
theorem Choice.make {mask : List Bool} {ss : States Es} {pre bs : List Bits} {b : Bits}
    {i : index.State} (hsplit : idx = pre ++ b :: bs)
    (hi : index.Lists (idx.map some) f i ((b :: bs).map some)) (hss : Stand Q Es Ps mask ss)
    (hne : ∀ P ∈ Ps, P.values ≠ []) :
    Choice index f Es idx Ps (i, select b Ps.length, ss.reset (select b Ps.length))
      (selected (b :: bs) Ps) := by
  have hlen : (select b Ps.length).length = mask.length := by
    rw [length_select, hss.length.1, hss.length.2]
  have hfresh := (hss.sound hlen).reset
  rw [selected, List.flatMap_cons]
  by_cases hmask : true ∈ select b Ps.length
  · have hlive := hfresh.live hne hmask
    obtain ⟨P, Qs, hactives⟩ := List.exists_cons_of_ne_nil (hfresh.actives_ne_nil hmask)
    rw [hactives] at hlive ⊢
    exact .live hsplit hi hlive
  · rw [hfresh.actives_eq_nil hmask]
    exact .idle hsplit hi (hfresh.dead hmask) (hfresh.actives_eq_nil hmask)

theorem next_selection_of_bool {mask : List Bool} {i : index.State} {ss : States Es}
    (hbool : ss.bool mask = true) (hnext : (ss.next mask).bool mask = true) :
    (SelectionEnumerator index Es).next (i, mask, ss) = (i, mask, ss.next mask) := by
  simp [SelectionEnumerator, hbool, hnext]

/-- The product is at its end after it is moved, or was before. -/
theorem next_selection_of_end {mask : List Bool} {i : index.State} {ss : States Es}
    (hnext : (if ss.bool mask then ss.next mask else ss).bool mask = false) :
    (SelectionEnumerator index Es).next (i, mask, ss) =
      let ss := if ss.bool mask then ss.next mask else ss
      let i := index.next i
      if index.bool i then
        (i, select (index.deref i) Es.length, ss.reset (select (index.deref i) Es.length))
      else (i, mask, ss) := by
  simp [SelectionEnumerator, hnext]

/-- With its product at its end, a selection moves to the next choice. -/
theorem Choice.move {pre bs : List Bits} {b : Bits} {i : index.State} {ss : States Es}
    (hlen : Ps.length = Es.length) (hne : ∀ P ∈ Ps, P.values ≠ []) (hsplit : idx = pre ++ b :: bs)
    (hi : index.Lists (idx.map some) f i ((b :: bs).map some))
    (hdead : Dead Ps (select b Ps.length)
      (if ss.bool (select b Ps.length) then ss.next (select b Ps.length) else ss)) :
    Choice index f Es idx Ps
      ((SelectionEnumerator index Es).next (i, select b Ps.length, ss)) (selected bs Ps) := by
  have hinext := hi.next
  rw [next_selection_of_end hdead.bool]
  dsimp only
  cases bs with
  | nil =>
    rw [if_neg (by simp [hinext.bool])]
    exact .dead hsplit hinext hdead
  | cons b' bs =>
    have hsplit' : idx = (pre ++ [b]) ++ b' :: bs := by simp [hsplit]
    rw [if_pos (by simp [hinext.bool]), known_some.mp hinext.deref, ← hlen]
    exact .make hsplit' hinext hdead hne

theorem Choice.next (h : Choice index f Es idx Ps s rest) (hlen : Ps.length = Es.length)
    (hne : ∀ P ∈ Ps, P.values ≠ []) :
    Choice index f Es idx Ps ((SelectionEnumerator index Es).next s) rest.tail := by
  cases h with
  | @live pre bs b i ss rest hsplit hi hlive =>
    have hbool := hlive.bool
    obtain ⟨o, rest, rfl, -⟩ := hlive.deref hne
    rcases hlive.next hne with ⟨hend, hdead⟩ | ⟨hmore, hlive'⟩
    · obtain rfl : rest = [] := hend
      exact .move hlen hne hsplit hi (by rw [if_pos hbool]; exact hdead)
    · rw [next_selection_of_bool hbool hlive'.bool]
      exact .live hsplit hi hlive'
  | idle hsplit hi hdead hnone =>
    exact .move hlen hne hsplit hi (by rw [if_neg (by simp [hdead.bool])]; exact hdead)
  | dead hsplit hi hdead =>
    have hbool := hdead.bool
    have hinext := hi.next
    rw [next_selection_of_end (by rw [if_neg (by simp [hbool])]; exact hbool)]
    simp only [hbool, Bool.false_eq_true, if_false]
    rw [if_neg (by simp [hinext.bool])]
    exact .dead hsplit hinext hdead

theorem Choice.reset (h : Choice index f Es idx Ps s rest) (hlen : Ps.length = Es.length)
    (hne : ∀ P ∈ Ps, P.values ≠ []) :
    Choice index f Es idx Ps ((SelectionEnumerator index Es).reset s) (selected idx Ps) := by
  obtain ⟨i, mask, ss⟩ := s
  have hparts : (∃ Q, Stand Q Es Ps mask ss) ∧ idx ≠ [] ∧
      ∃ irest, index.Lists (idx.map some) f i irest := by
    cases h with
    | live hsplit hi hlive => exact ⟨⟨_, hlive.sound⟩, by simp [hsplit], _, hi⟩
    | idle hsplit hi hdead => exact ⟨⟨_, hdead⟩, by simp [hsplit], _, hi⟩
    | dead hsplit hi hdead => exact ⟨⟨_, hdead⟩, by simp [hsplit], _, hi⟩
  obtain ⟨⟨Q, hss⟩, hidx, irest, hi⟩ := hparts
  obtain ⟨b, bs, rfl⟩ := List.exists_cons_of_ne_nil hidx
  have hireset := hi.reset
  have hreset : (SelectionEnumerator index Es).reset (i, mask, ss) =
      (index.reset i, select b Ps.length, ss.reset (select b Ps.length)) := by
    rw [hlen, ← known_some.mp hireset.deref]
    rfl
  rw [hreset]
  exact .make (List.nil_append _).symm hireset hss hne

end Choices

/-- A selection shows the products of one choice after the other. -/
theorem lists_selection {index : BitsetEnumerator} {f : Option Bits} {idx : List Bits}
    (hindex : index.Lists (idx.map some) f index.start (idx.map some)) (hidx : idx ≠ [])
    (h : Sound Ps (Es.map fun _ => true) (States.start Es)) (hne : ∀ P ∈ Ps, P.values ≠ []) :
    (SelectionEnumerator index Es).Lists (selected idx Ps) (lastFinals idx Ps)
      (SelectionEnumerator index Es).start (selected idx Ps) := by
  have hlen : Ps.length = Es.length := h.length.2
  refine ⟨Choice index f Es idx Ps, ⟨fun _ _ hs => hs.shows hne, fun _ _ hs => hs.next hlen hne,
    fun _ _ hs => hs.reset hlen hne⟩, ?_⟩
  obtain ⟨b, bs, rfl⟩ := List.exists_cons_of_ne_nil hidx
  have hstart : (SelectionEnumerator index Es).start =
      (index.start, select b Ps.length, (States.start Es).reset (Es.map fun _ => true)) := by
    rw [hlen, ← known_some.mp hindex.deref]
    rfl
  have hfresh : Fresh Ps (select b Ps.length) ((States.start Es).reset (Es.map fun _ => true)) :=
    h.reset.of_all (by rw [length_select, hlen])
  rw [hstart, selected, List.flatMap_cons]
  by_cases hmask : true ∈ select b Ps.length
  · have hlive := hfresh.live hne hmask
    obtain ⟨P, Qs, hactives⟩ := List.exists_cons_of_ne_nil (hfresh.actives_ne_nil hmask)
    rw [hactives] at hlive ⊢
    exact .live (List.nil_append _).symm hindex hlive
  · rw [hfresh.actives_eq_nil hmask]
    exact .idle (List.nil_append _).symm hindex (hfresh.dead hmask) (hfresh.actives_eq_nil hmask)

end Products

/-! ## What the simple ones list -/

theorem lists_constant (bits : Bits) :
    (ConstantEnumerator bits).Lists [some bits] (some bits) false [some bits] := by
  refine ⟨fun mDone rest => rest = if (ConstantEnumerator bits).bool mDone then [some bits] else [],
    ⟨?_, ?_, ?_⟩, rfl⟩
  · rintro (_ | _) rest rfl <;> exact ⟨rfl, known_some.mpr rfl⟩
  · rintro (_ | _) rest rfl <;> rfl
  · rintro mDone rest -
    rfl

theorem lowOnes_eq (n : ℕ) (hn : n ≤ 64) : lowOnes n = BitVec.ofNat 64 (2 ^ n - 1) := by
  induction n with
  | zero => rfl
  | succ n ih =>
    have hone (i : ℕ) : Nat.testBit 1 i = decide (i < 1) := Nat.testBit_two_pow_sub_one 1 i
    rw [lowOnes, ih (by omega)]
    apply BitVec.eq_of_getLsbD_eq
    intro i hi
    simp only [BitVec.getLsbD_or, BitVec.getLsbD_shiftLeft, BitVec.getLsbD_ofNat,
      Nat.testBit_two_pow_sub_one, hone]
    cases i with
    | zero => simp
    | succ i => simp [hi, show i < 64 by omega]

theorem below_iff {n : ℕ} (hn : n < 64) (x : Bits) :
    (x &&& ~~~((1#64 <<< n) - 1#64) == 0#64) = decide (x.toNat < 2 ^ n) := by
  have hmask : (1#64 <<< n) - 1#64 = BitVec.ofNat 64 (2 ^ n - 1) := by
    have hlt : 2 ^ n < 2 ^ 64 := Nat.pow_lt_pow_right (by decide) hn
    have hpos : 0 < 2 ^ n := Nat.two_pow_pos n
    apply BitVec.eq_of_toNat_eq
    rw [BitVec.toNat_sub, BitVec.toNat_shiftLeft, BitVec.toNat_ofNat, Nat.shiftLeft_eq]
    simp
    omega
  have hbit : ∀ i, (x &&& ~~~((1#64 <<< n) - 1#64)).getLsbD i =
      (x.getLsbD i && decide (n ≤ i)) := by
    intro i
    rw [hmask, BitVec.getLsbD_and, BitVec.getLsbD_not, BitVec.getLsbD_ofNat,
      Nat.testBit_two_pow_sub_one]
    by_cases hi : i < 64
    · have hneg : (!decide (i < n)) = decide (n ≤ i) := by
        rw [← decide_not, decide_eq_decide, not_lt]
      simp only [hi, decide_true, Bool.true_and, hneg]
    · simp [BitVec.getLsbD_of_ge x i (by omega)]
  rw [Bool.eq_iff_iff, beq_iff_eq, decide_eq_true_iff]
  constructor
  · intro h
    apply Nat.lt_pow_two_of_testBit
    intro i hi
    have hi' := hbit i
    rw [h, decide_eq_true hi, Bool.and_true, BitVec.getLsbD_zero] at hi'
    exact hi'.symm
  · intro h
    apply BitVec.eq_of_getLsbD_eq
    intro i _
    rw [hbit]
    by_cases hi : n ≤ i
    · have hlt : x.toNat < 2 ^ i := h.trans_le (Nat.pow_le_pow_right (by decide) hi)
      simp [BitVec.getLsbD, Nat.testBit_lt_two_pow hlt]
    · simp [hi]

theorem lists_permutation {nSet nTotal : ℕ} {E : BitsetEnumerator}
    (hbuild : PermutationEnumerator nSet nTotal = some E) :
    E.Lists (((combinations nTotal nSet).map (BitVec.ofNat 64)).map some) none E.start
      (((combinations nTotal nSet).map (BitVec.ofNat 64)).map some) := by
  unfold PermutationEnumerator at hbuild
  split_ifs at hbuild with hasserted
  obtain ⟨hle, hpos, hlt⟩ := hasserted
  obtain rfl := Option.some.inj hbuild
  obtain ⟨as, has⟩ := List.head?_eq_some_iff.mp (head?_combinations hle)
  have hsmall : ∀ a ∈ combinations nTotal nSet, (BitVec.ofNat 64 a).toNat = a ∧ a < 2 ^ nTotal :=
    fun a ha => ⟨toNat_ofNat_of_lt hlt.le (mem_combinations.mp ha).1, (mem_combinations.mp ha).1⟩
  let R : Bits → List (Option Bits) → Prop := fun mCur rest =>
    (∃ a as, a :: as <:+ combinations nTotal nSet ∧ mCur = BitVec.ofNat 64 a ∧
      rest = ((a :: as).map (BitVec.ofNat 64)).map some) ∨
    rest = [] ∧ 2 ^ nTotal ≤ mCur.toNat
  have hstart : R (lowOnes nSet) (((combinations nTotal nSet).map (BitVec.ofNat 64)).map some) :=
    .inl ⟨_, as, by rw [has], lowOnes_eq nSet (by omega), by rw [has]⟩
  refine ⟨R, ⟨?_, ?_, fun _ _ _ => hstart⟩, hstart⟩
  · rintro mCur rest (⟨a, as, hsuffix, rfl, rfl⟩ | ⟨rfl, hend⟩)
    · obtain ⟨htoNat, ha⟩ := hsmall a (hsuffix.subset List.mem_cons_self)
      refine ⟨?_, known_some.mpr rfl⟩
      dsimp only
      rw [below_iff hlt, htoNat]
      simpa using ha
    · refine ⟨?_, known_none _⟩
      dsimp only
      rw [below_iff hlt]
      simpa using hend
  · rintro mCur rest (⟨a, as, hsuffix, rfl, rfl⟩ | ⟨rfl, hend⟩)
    · cases as with
      | nil => exact .inr ⟨rfl, two_pow_le_of_suffix hpos hle hlt hsuffix⟩
      | cons b as =>
        have hb := hsmall b (hsuffix.subset (by simp))
        refine .inl ⟨b, as, (List.suffix_cons a _).trans hsuffix, ?_, rfl⟩
        apply BitVec.eq_of_toNat_eq
        rw [hb.1]
        exact Next.of_suffix hpos hlt.le hsuffix
    · exact .inr ⟨rfl, le_nextPermutation hlt hend⟩

end SmartCore.Util
