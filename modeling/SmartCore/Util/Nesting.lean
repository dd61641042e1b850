import SmartCore.Util.BitsetEnumerator

/-!
# Nestings of enumerators

Constants, permutations, products and selections can be nested. What each of them should list is
`sets`: a product lists the unions of all tuples, as an odometer counts, and a selection the
products of one choice of its parts after the other.

A product does so only if it seldom carries. When its first part is at its end and another one moves
on, only the first one is reset. So behind the first part there may be one part with more than one
set, and those between the two have to show their set when they are at their end (`CarriesOver`).

Main result: `enumerates_iff`.
-/

namespace SmartCore.Util

open Enumerator

inductive Nesting where
  | constant (bits : Bits)
  | permutation (nSet nTotal : ℕ)
  | product (innerEnums : List Nesting)
  | selection (index : Nesting) (innerEnums : List Nesting)

namespace Nesting

/-- Induction over the parts. -/
@[elab_as_elim]
theorem ind {p : Nesting → Prop} (constant : ∀ bits, p (.constant bits))
    (permutation : ∀ nSet nTotal, p (.permutation nSet nTotal))
    (product : ∀ Ts : List Nesting, (∀ T ∈ Ts, p T) → p (.product Ts))
    (selection : ∀ (index : Nesting) (Ts : List Nesting), p index → (∀ T ∈ Ts, p T) →
      p (.selection index Ts)) (T : Nesting) : p T :=
  @Nesting.rec p (fun Ts => ∀ T ∈ Ts, p T) constant permutation product selection
    (fun _ hT => by cases hT)
    (fun _ _ hT hTs _ hmem => (List.mem_cons.mp hmem).elim (fun h => h ▸ hT) (hTs _)) T

mutual

/-- The enumerator. `none` if a constructor's assertion fails. -/
def build : Nesting → Option BitsetEnumerator
  | .constant bits => some (ConstantEnumerator bits)
  | .permutation nSet nTotal => PermutationEnumerator nSet nTotal
  | .product innerEnums => (buildAll innerEnums).map CartesianProductEnumerator
  | .selection index innerEnums => do
    let index ← build index
    let innerEnums ← buildAll innerEnums
    return SelectionEnumerator index innerEnums

def buildAll : List Nesting → Option (List BitsetEnumerator)
  | [] => some []
  | T :: Ts => do
    let E ← build T
    let Es ← buildAll Ts
    return E :: Es

end

/-- The unions of all tuples, as an odometer counts: the first wheel is the fastest. -/
def odometer : List (List Bits) → List Bits
  | [] => [0#64]
  | L :: Ls => (odometer Ls).flatMap fun y => L.map (· ||| y)

mutual

/-- What the enumerator should list. -/
def sets : Nesting → List Bits
  | .constant bits => [bits]
  | .permutation nSet nTotal => (combinations nTotal nSet).map (BitVec.ofNat 64)
  | .product innerEnums => odometer (setsAll innerEnums)
  | .selection index innerEnums =>
    (sets index).flatMap fun b =>
      odometer (actives (select b innerEnums.length) (setsAll innerEnums))

def setsAll : List Nesting → List (List Bits)
  | [] => []
  | T :: Ts => sets T :: setsAll Ts

end

mutual

/-- Whether the last set is still shown at the end. -/
def keeps : Nesting → Bool
  | .constant _ => true
  | .permutation _ _ => false
  | .product innerEnums => (keepsAll innerEnums).all id
  | .selection index innerEnums =>
    (actives (select (index.sets.getLastD 0#64) innerEnums.length) (keepsAll innerEnums)).all id

def keepsAll : List Nesting → List Bool
  | [] => []
  | T :: Ts => keeps T :: keepsAll Ts

end

theorem setsAll_eq (Ts : List Nesting) : setsAll Ts = Ts.map sets := by
  induction Ts with
  | nil => rfl
  | cons T Ts ih => rw [setsAll, ih, List.map_cons]

theorem keepsAll_eq (Ts : List Nesting) : keepsAll Ts = Ts.map keeps := by
  induction Ts with
  | nil => rfl
  | cons T Ts ih => rw [keepsAll, ih, List.map_cons]

/-- `U` is `T` or a part of it, however deep. -/
inductive Within (U : Nesting) : Nesting → Prop where
  | refl : Within U U
  | part {T : Nesting} {Ts : List Nesting} (hT : T ∈ Ts) (h : Within U T) : Within U (.product Ts)
  | index {index : Nesting} {Ts : List Nesting} (h : Within U index) :
      Within U (.selection index Ts)
  | chosen {index T : Nesting} {Ts : List Nesting} (hT : T ∈ Ts) (h : Within U T) :
      Within U (.selection index Ts)

def Throughout (p : Nesting → Prop) (T : Nesting) : Prop := ∀ U, Within U T → p U

theorem Throughout.self {p : Nesting → Prop} {T : Nesting} (h : Throughout p T) : p T := h T .refl

theorem Throughout.part {p : Nesting → Prop} {T : Nesting} {Ts : List Nesting}
    (h : Throughout p (.product Ts)) (hT : T ∈ Ts) : Throughout p T :=
  fun U hU => h U (.part hT hU)

theorem Throughout.index {p : Nesting → Prop} {index : Nesting} {Ts : List Nesting}
    (h : Throughout p (.selection index Ts)) : Throughout p index :=
  fun U hU => h U (.index hU)

theorem Throughout.chosen {p : Nesting → Prop} {index T : Nesting} {Ts : List Nesting}
    (h : Throughout p (.selection index Ts)) (hT : T ∈ Ts) : Throughout p T :=
  fun U hU => h U (.chosen hT hU)

theorem Within.trans {U V T : Nesting} (hV : Within V U) (hU : Within U T) : Within V T := by
  induction hU with
  | refl => exact hV
  | part hT _ ih => exact .part hT ih
  | index _ ih => exact .index ih
  | chosen hT _ ih => exact .chosen hT ih

theorem Throughout.within {p : Nesting → Prop} {U T : Nesting} (h : Throughout p T)
    (hU : Within U T) : Throughout p U :=
  fun V hV => h V (hV.trans hU)

theorem throughout_constant {p : Nesting → Prop} {bits : Bits} (h : p (.constant bits)) :
    Throughout p (.constant bits) := by
  rintro U ⟨⟩
  exact h

theorem throughout_permutation {p : Nesting → Prop} {nSet nTotal : ℕ}
    (h : p (.permutation nSet nTotal)) : Throughout p (.permutation nSet nTotal) := by
  rintro U ⟨⟩
  exact h

theorem throughout_product {p : Nesting → Prop} {Ts : List Nesting} (h : p (.product Ts))
    (hTs : ∀ T ∈ Ts, Throughout p T) : Throughout p (.product Ts) := by
  rintro U (_ | ⟨hT, hU⟩)
  · exact h
  · exact hTs _ hT U hU

theorem throughout_selection {p : Nesting → Prop} {index : Nesting} {Ts : List Nesting}
    (h : p (.selection index Ts)) (hindex : Throughout p index)
    (hTs : ∀ T ∈ Ts, Throughout p T) : Throughout p (.selection index Ts) := by
  rintro U (_ | _ | hU | ⟨hT, hU⟩)
  · exact h
  · exact hindex U hU
  · exact hTs _ hT U hU

/-- The constructors' assertions. -/
def Asserted : Nesting → Prop
  | .permutation nSet nTotal => nSet ≤ nTotal ∧ 0 < nSet ∧ nTotal ≤ 64
  | _ => True

/-- From a fresh or reset enumerator, all sets are seen, each once, and the iteration ends. -/
def Enumerates (T : Nesting) : Prop := ∃ E, T.build = some E ∧ E.Enumerates T.sets

/-- Of the parts behind the first one at most one has more than one set, and those before it are as
`holds` says. -/
def CarriesOver (holds : Nesting → Prop) : List Nesting → Prop
  | [] => True
  | T :: Ts => (∀ U ∈ Ts, U.sets.length = 1) ∨ T.sets.length = 1 ∧ holds T ∧ CarriesOver holds Ts

/-- No product is empty, none carries too far, and no permutation is one of 64 bits. -/
def Orderly (holds : Nesting → Prop) : Nesting → Prop
  | .constant _ => True
  | .permutation _ nTotal => nTotal < 64
  | .product innerEnums => innerEnums ≠ [] ∧ CarriesOver holds innerEnums.tail
  | .selection index innerEnums => ∀ b ∈ index.sets,
    CarriesOver holds (actives (select b innerEnums.length) innerEnums).tail

/-- No part is a permutation of all its bits, which has one set, and shows another at its end. -/
def NoFull : Nesting → Prop
  | .product innerEnums => ∀ n, .permutation n n ∉ innerEnums
  | .selection _ innerEnums => ∀ n, .permutation n n ∉ innerEnums
  | _ => True

/-! ## Odometers -/

theorem length_odometer_cons (L : List Bits) (Ls : List (List Bits)) :
    (odometer (L :: Ls)).length = (odometer Ls).length * L.length := by
  rw [odometer, List.length_flatMap]
  simp

theorem odometer_ne_nil {Ls : List (List Bits)} (h : ∀ L ∈ Ls, L ≠ []) : odometer Ls ≠ [] := by
  induction Ls with
  | nil => simp [odometer]
  | cons L Ls ih =>
    have hLs : odometer Ls ≠ [] := ih fun L' hL' => h L' (List.mem_cons_of_mem _ hL')
    obtain ⟨y, ys, hy⟩ := List.exists_cons_of_ne_nil hLs
    simp [odometer, hy, h L]

theorem odometer_map_ne_nil {Ts : List Nesting} (h : ∀ T ∈ Ts, T.sets ≠ []) :
    odometer (Ts.map sets) ≠ [] := by
  refine odometer_ne_nil fun L hL => ?_
  obtain ⟨T, hT, rfl⟩ := List.mem_map.mp hL
  exact h T hT

theorem length_eq_one_of_odometer {Ls : List (List Bits)} (h : (odometer Ls).length = 1) :
    ∀ L ∈ Ls, L.length = 1 := by
  induction Ls with
  | nil => exact fun _ hL => by cases hL
  | cons L Ls ih =>
    rw [length_odometer_cons] at h
    intro L' hL'
    rcases List.mem_cons.mp hL' with rfl | hL'
    · exact Nat.eq_one_of_mul_eq_one_left h
    · exact ih (Nat.eq_one_of_mul_eq_one_right h) L' hL'

theorem length_odometer_eq_one {Ls : List (List Bits)} (h : ∀ L ∈ Ls, L.length = 1) :
    (odometer Ls).length = 1 := by
  induction Ls with
  | nil => rfl
  | cons L Ls ih =>
    rw [length_odometer_cons, ih fun L' hL' => h L' (List.mem_cons_of_mem _ hL'), h L (by simp)]

theorem sets_ne_nil {T : Nesting} (h : Throughout Asserted T) : T.sets ≠ [] := by
  induction T using ind with
  | constant bits => simp [sets]
  | permutation nSet nTotal =>
    have hhead := head?_combinations h.self.1
    rw [sets, Ne, List.map_eq_nil_iff]
    intro hnil
    rw [hnil] at hhead
    cases hhead
  | product Ts ih =>
    rw [sets, setsAll_eq]
    exact odometer_map_ne_nil fun T hT => ih T hT (h.part hT)
  | selection index Ts hindex ih =>
    obtain ⟨b, bs, hb⟩ := List.exists_cons_of_ne_nil (hindex h.index)
    rw [sets, hb, List.flatMap_cons, setsAll_eq, map_actives]
    refine List.append_ne_nil_of_left_ne_nil (odometer_map_ne_nil fun T hT => ?_) _
    exact ih T (mem_actives hT) (h.chosen (mem_actives hT))

/-! ## What an exact part is -/

/-- What a part shows if it lists its sets. -/
def part (T : Nesting) : BitsPart :=
  ⟨T.sets.map some, if T.keeps then T.sets.getLast? else none⟩

/-- The same, but nothing is known of what it shows at its end. -/
def blindPart (T : Nesting) : BitsPart := ⟨T.sets.map some, none⟩

theorem chain_single {f : Nesting → BitsPart} (hf : ∀ T, (f T).values = T.sets.map some)
    {Ts : List Nesting} {y : Bits} (T : Nesting)
    (hchain : chainOr (Ts.map f) = (odometer (Ts.map sets)).map some)
    (hy : odometer (Ts.map sets) = [y]) :
    chainOr ((T :: Ts).map f) = (odometer ((T :: Ts).map sets)).map some := by
  rw [List.map_cons, List.map_cons, odometer, hy, List.flatMap_singleton, chainOr, chain, hf]
  rw [hy] at hchain
  rw [show chain unite (some 0#64) (Ts.map f) = [some y] from hchain]
  simp [unite]

/-- What carries over is what an odometer counts. -/
theorem chain_eq {Ts : List Nesting} (hne : ∀ T ∈ Ts, T.sets ≠ [])
    (h : CarriesOver (fun T => T.keeps = true) Ts) :
    chainOr (Ts.map part) = (odometer (Ts.map sets)).map some := by
  induction Ts with
  | nil => rfl
  | cons T Ts ih =>
    have hTs : ∀ T' ∈ Ts, T'.sets ≠ [] := fun T' hT' => hne T' (List.mem_cons_of_mem _ hT')
    rcases h with hsingle | ⟨hT, hkeeps, h⟩
    · have hone : (odometer (Ts.map sets)).length = 1 := length_odometer_eq_one fun L hL => by
        obtain ⟨T', hT', rfl⟩ := List.mem_map.mp hL
        exact hsingle T' hT'
      obtain ⟨y, hy⟩ := List.length_eq_one_iff.mp hone
      have hcarries : CarriesOver (fun T => T.keeps = true) Ts := by
        cases Ts with
        | nil => trivial
        | cons T' Ts => exact .inl fun U hU => hsingle U (List.mem_cons_of_mem _ hU)
      exact chain_single (fun _ => rfl) T (ih hTs hcarries) hy
    · obtain ⟨x, hx⟩ := List.length_eq_one_iff.mp hT
      have ih := ih hTs h
      obtain ⟨y, ys, hy⟩ := List.exists_cons_of_ne_nil (odometer_map_ne_nil hTs)
      have hpart : part T = ⟨[some x], some x⟩ := by
        rw [part, if_pos hkeeps, hx]
        rfl
      rw [List.map_cons, List.map_cons, odometer, hx, hpart, chainOr, chain]
      rw [show chain unite (some 0#64) (Ts.map part) = _ from ih, hy]
      have hmap : (fun y : Bits => [x].map (· ||| y)) = fun y => [x ||| y] := rfl
      rw [hmap, ← List.map_eq_flatMap]
      simp [unite, Function.comp_def]

theorem visited_eq {f : Nesting → BitsPart} (hf : ∀ T, (f T).values = T.sets.map some)
    {T : Nesting} {Ts : List Nesting}
    (h : chainOr (Ts.map f) = (odometer (Ts.map sets)).map some) :
    visitedOr ((T :: Ts).map f) = (odometer ((T :: Ts).map sets)).map some := by
  rw [List.map_cons, List.map_cons, odometer, visitedOr, visited, hf]
  rw [show chain unite (some 0#64) (Ts.map f) = _ from h, List.flatMap_map, List.map_flatMap]
  simp [unite, Function.comp_def]

theorem getLast?_odometer_cons {L : List Bits} {Ls : List (List Bits)} {x y : Bits}
    (hx : L.getLast? = some x) (hy : (odometer Ls).getLast? = some y) :
    (odometer (L :: Ls)).getLast? = some (x ||| y) := by
  obtain ⟨ys, hys⟩ := List.getLast?_eq_some_iff.mp hy
  rw [odometer, hys, List.flatMap_append, List.flatMap_singleton, List.getLast?_append,
    List.getLast?_map, hx]
  rfl

/-- If all parts still show their last sets, so does the product. -/
theorem finals_eq {Ts : List Nesting} (hne : ∀ T ∈ Ts, T.sets ≠ [])
    (hkeeps : ∀ T ∈ Ts, T.keeps = true) :
    finalsOr (Ts.map part) = (odometer (Ts.map sets)).getLast? := by
  induction Ts with
  | nil => rfl
  | cons T Ts ih =>
    have ih := ih (fun T' hT' => hne T' (List.mem_cons_of_mem _ hT'))
      fun T' hT' => hkeeps T' (List.mem_cons_of_mem _ hT')
    have hT : T.sets.getLast? = some (T.sets.getLast (hne T (by simp))) :=
      List.getLast?_eq_some_getLast _
    have hTs := List.getLast?_eq_some_getLast
      (odometer_map_ne_nil fun T' hT' => hne T' (List.mem_cons_of_mem _ hT'))
    rw [List.map_cons, List.map_cons, getLast?_odometer_cons hT hTs, finalsOr, finals]
    rw [show finals unite (some 0#64) (Ts.map part) = _ from ih, hTs, part,
      if_pos (hkeeps T (by simp)), hT]
    rfl

/-! ## At the end -/

/-- A product with nothing to show is not changed by moving it. -/
theorem next_of_not_bool {Es : List BitsetEnumerator} {mask : List Bool} {ss : States Es}
    (h : ss.bool mask = false) : ss.next mask = ss := by
  induction Es generalizing mask with
  | nil => rfl
  | cons E Es ih =>
    cases mask with
    | nil => rfl
    | cons active mask =>
      obtain ⟨s, ss⟩ := ss
      rw [States.bool, Bool.or_eq_false_iff] at h
      rw [States.next, if_neg (by simp [h.1]), ih h.2]

theorem reached_index {index : BitsetEnumerator} {Es : List BitsetEnumerator}
    {s : (SelectionEnumerator index Es).State} (h : (SelectionEnumerator index Es).Reached s) :
    index.Reached s.1 := by
  induction h with
  | start => exact .start
  | @next s _ ih =>
    obtain ⟨i, mask, ss⟩ := s
    unfold SelectionEnumerator
    dsimp only
    split_ifs <;> first | exact ih | exact ih.next
  | reset _ ih => exact ih.reset

theorem stays_of_build {T : Nesting} {E : BitsetEnumerator} (h : T.build = some E) : E.Stays := by
  induction T using ind generalizing E with
  | constant bits =>
    obtain rfl := Option.some.inj h
    exact fun _ _ _ => rfl
  | permutation nSet nTotal => exact (lists_permutation h).stays
  | product Ts _ =>
    obtain ⟨Es, -, rfl⟩ := Option.map_eq_some_iff.mp h
    intro ss _ hbool
    have hsame : (CartesianProductEnumerator Es).next ss = ss := next_of_not_bool hbool
    rw [hsame, hbool]
  | selection index Ts ih _ =>
    rw [build] at h
    obtain ⟨index', hindex, h⟩ := Option.bind_eq_some_iff.mp h
    obtain ⟨Es, -, h⟩ := Option.bind_eq_some_iff.mp h
    obtain rfl := Option.some.inj h
    rintro ⟨i, mask, ss⟩ hs hbool
    have hparts : ss.bool mask = false ∧ index'.bool i = false := by
      simpa [SelectionEnumerator] using hbool
    have hi := ih hindex i (reached_index hs) hparts.2
    simp [SelectionEnumerator, hparts.1, hi]

/-! ## From the parts to the whole -/

/-- The parts, if each is built and lists what `f` says. -/
theorem exists_parts {f : Nesting → BitsPart} {Ts : List Nesting}
    (h : ∀ T ∈ Ts, ∃ E, T.build = some E ∧
      E.Lists (f T).values (f T).final E.start (f T).values) :
    ∃ Es, buildAll Ts = some Es ∧ Es.length = Ts.length ∧
      Sound (Ts.map f) (Es.map fun _ => true) (States.start Es) := by
  induction Ts with
  | nil => exact ⟨[], rfl, rfl, .nil⟩
  | cons T Ts ih =>
    obtain ⟨E, hE, hlists⟩ := h T (by simp)
    obtain ⟨Es, hEs, hlen, hsound⟩ := ih fun T' hT' => h T' (List.mem_cons_of_mem _ hT')
    exact ⟨E :: Es, by simp [buildAll, hE, hEs], by simp [hlen],
      .cons hlists (fun _ => trivial) hsound⟩

theorem values_ne_nil {f : Nesting → BitsPart} (hf : ∀ T, (f T).values = T.sets.map some)
    {Ts : List Nesting} (hne : ∀ T ∈ Ts, T.sets ≠ []) : ∀ P ∈ Ts.map f, P.values ≠ [] := by
  intro P hP
  obtain ⟨T, hT, rfl⟩ := List.mem_map.mp hP
  rw [hf, Ne, List.map_eq_nil_iff]
  exact hne T hT

theorem lists_product {f : Nesting → BitsPart} (hf : ∀ T, (f T).values = T.sets.map some)
    {Ts : List Nesting} (hTs : Ts ≠ []) (hne : ∀ T ∈ Ts, T.sets ≠ [])
    (h : ∀ T ∈ Ts, ∃ E, T.build = some E ∧
      E.Lists (f T).values (f T).final E.start (f T).values) :
    ∃ E, (product Ts).build = some E ∧
      E.Lists (visitedOr (Ts.map f)) (finalsOr (Ts.map f)) E.start (visitedOr (Ts.map f)) := by
  obtain ⟨Es, hEs, hlen, hsound⟩ := exists_parts h
  refine ⟨CartesianProductEnumerator Es, by rw [build, hEs]; rfl, ?_⟩
  refine lists_cartesian hsound ?_ (values_ne_nil hf hne)
  rintro rfl
  exact hTs (List.eq_nil_of_length_eq_zero hlen.symm)

theorem lists_choices {f : Nesting → BitsPart} (hf : ∀ T, (f T).values = T.sets.map some)
    {index : Nesting} {final : Option Bits} {Ts : List Nesting} (hidx : index.sets ≠ [])
    (hne : ∀ T ∈ Ts, T.sets ≠ [])
    (hindex : ∃ E, index.build = some E ∧
      E.Lists (index.sets.map some) final E.start (index.sets.map some))
    (h : ∀ T ∈ Ts, ∃ E, T.build = some E ∧
      E.Lists (f T).values (f T).final E.start (f T).values) :
    ∃ E, (selection index Ts).build = some E ∧
      E.Lists (selected index.sets (Ts.map f)) (lastFinals index.sets (Ts.map f)) E.start
        (selected index.sets (Ts.map f)) := by
  obtain ⟨I, hI, hIlists⟩ := hindex
  obtain ⟨Es, hEs, -, hsound⟩ := exists_parts h
  exact ⟨SelectionEnumerator I Es, by simp [build, hI, hEs],
    lists_selection hIlists hidx hsound (values_ne_nil hf hne)⟩

theorem turn_eq {Ts : List Nesting} (hne : ∀ T ∈ Ts, T.sets ≠ [])
    (h : CarriesOver (fun T => T.keeps = true) Ts.tail) :
    turnOr (Ts.map part) = (odometer (Ts.map sets)).map some := by
  cases Ts with
  | nil => rfl
  | cons T Ts =>
    exact visited_eq (fun _ => rfl)
      (chain_eq (fun T' hT' => hne T' (List.mem_cons_of_mem _ hT')) h)

theorem actives_setsAll (mask : List Bool) (Ts : List Nesting) :
    actives mask (setsAll Ts) = (actives mask Ts).map sets := by
  rw [setsAll_eq, map_actives]

/-- If the parts of the last choice still show their last sets, so does the selection. -/
theorem lastFinals_eq {index : Nesting} {Ts : List Nesting} (hidx : index.sets ≠ [])
    (hne : ∀ T ∈ Ts, T.sets ≠ []) (hkeeps : (selection index Ts).keeps = true) :
    lastFinals index.sets (Ts.map part) = (selection index Ts).sets.getLast? := by
  obtain ⟨pre, b, hb⟩ : ∃ pre b, index.sets = pre ++ [b] :=
    ⟨_, _, (List.dropLast_append_getLast hidx).symm⟩
  have hchosen : ∀ T ∈ actives (select b Ts.length) Ts, T.sets ≠ [] :=
    fun T hT => hne T (mem_actives hT)
  rw [keeps, keepsAll_eq, hb, List.getLastD_concat, map_actives, List.all_map,
    List.all_eq_true] at hkeeps
  have hlast := List.getLast?_eq_some_getLast (odometer_map_ne_nil hchosen)
  rw [lastFinals, hb, List.getLastD_concat, List.length_map, map_actives,
    finals_eq hchosen hkeeps, sets, hb, List.flatMap_append, List.flatMap_singleton,
    actives_setsAll, List.getLast?_append, hlast]
  rfl

/-- **Enough for the sets to be listed.** -/
theorem lists_of_orderly {T : Nesting} (hasserted : Throughout Asserted T)
    (h : Throughout (Orderly fun T => T.keeps = true) T) :
    ∃ E, T.build = some E ∧ E.Lists T.part.values T.part.final E.start T.part.values := by
  induction T using ind with
  | constant bits => exact ⟨_, rfl, lists_constant bits⟩
  | permutation nSet nTotal =>
    obtain ⟨hle, hpos, -⟩ := hasserted.self
    have hlt : nTotal < 64 := h.self
    obtain ⟨E, hE⟩ : ∃ E, PermutationEnumerator nSet nTotal = some E :=
      ⟨_, if_pos ⟨hle, hpos, hlt⟩⟩
    exact ⟨E, hE, lists_permutation hE⟩
  | product Ts ih =>
    have hne : ∀ T ∈ Ts, T.sets ≠ [] := fun T hT => sets_ne_nil (hasserted.part hT)
    obtain ⟨hTs, hcarries⟩ := h.self
    obtain ⟨E, hE, hlists⟩ := lists_product (f := part) (fun _ => rfl) hTs hne fun T hT =>
      ih T hT (hasserted.part hT) (h.part hT)
    refine ⟨E, hE, ?_⟩
    obtain ⟨T, Ts, rfl⟩ := List.exists_cons_of_ne_nil hTs
    have hvisited : visitedOr ((T :: Ts).map part) = (odometer ((T :: Ts).map sets)).map some :=
      turn_eq hne hcarries
    rw [hvisited] at hlists
    rw [part, sets, setsAll_eq]
    refine hlists.weaken fun v hv => ?_
    split_ifs at hv with hkeeps
    · rw [keeps, keepsAll_eq, List.all_map, List.all_eq_true] at hkeeps
      rw [finals_eq hne hkeeps]
      exact hv
    · cases hv
  | selection index Ts hindex ih =>
    have hne : ∀ T ∈ Ts, T.sets ≠ [] := fun T hT => sets_ne_nil (hasserted.chosen hT)
    obtain ⟨E, hE, hlists⟩ := lists_choices (f := part) (fun _ => rfl)
      (sets_ne_nil hasserted.index) hne (hindex hasserted.index h.index) fun T hT =>
        ih T hT (hasserted.chosen hT) (h.chosen hT)
    refine ⟨E, hE, ?_⟩
    have hturn : ∀ b ∈ index.sets, turnOr (actives (select b (Ts.map part).length) (Ts.map part)) =
        (odometer (actives (select b Ts.length) (setsAll Ts))).map some := fun b hb => by
      rw [List.length_map, map_actives, actives_setsAll]
      exact turn_eq (fun T hT => hne T (mem_actives hT)) (h.self b hb)
    have hselected : selected index.sets (Ts.map part) = (selection index Ts).sets.map some := by
      rw [selected, sets, List.map_flatMap]
      exact List.flatMap_congr hturn
    rw [hselected] at hlists
    refine hlists.weaken fun v hv => ?_
    have hkept : (selection index Ts).part.final =
        if (selection index Ts).keeps then (selection index Ts).sets.getLast? else none := rfl
    rw [hkept] at hv
    split_ifs at hv with hkeeps
    · rw [lastFinals_eq (sets_ne_nil hasserted.index) hne hkeeps]
      exact hv
    · cases hv

/-! ## Counting -/

theorem length_chain_cons (P : BitsPart) (Ps : List BitsPart) :
    (chainOr (P :: Ps)).length = P.values.length + ((chainOr Ps).length - 1) := by
  simp [chain]

/-- A product lists no more than an odometer counts, and as much only if it seldom carries. -/
theorem length_chain_le {Ts : List Nesting} (hne : ∀ T ∈ Ts, T.sets ≠ []) :
    (chainOr (Ts.map blindPart)).length ≤ (odometer (Ts.map sets)).length ∧
      ((chainOr (Ts.map blindPart)).length = (odometer (Ts.map sets)).length →
        CarriesOver (fun _ => True) Ts) := by
  induction Ts with
  | nil => exact ⟨le_rfl, fun _ => trivial⟩
  | cons T Ts ih =>
    have hTs : ∀ T' ∈ Ts, T'.sets ≠ [] := fun T' hT' => hne T' (List.mem_cons_of_mem _ hT')
    obtain ⟨hle, heq⟩ := ih hTs
    have hT : 0 < T.sets.length := List.length_pos_of_ne_nil (hne T (by simp))
    have hchain : 0 < (chainOr (Ts.map blindPart)).length :=
      List.length_pos_of_ne_nil (chain_ne_nil _ _ (values_ne_nil (fun _ => rfl) hTs))
    rw [List.map_cons, List.map_cons, length_chain_cons, length_odometer_cons]
    have hvalues : (blindPart T).values.length = T.sets.length := List.length_map _
    rw [hvalues]
    generalize hc : (chainOr (Ts.map blindPart)).length = c at *
    generalize ho : (odometer (Ts.map sets)).length = o at *
    generalize ha : T.sets.length = a at *
    obtain ⟨a, rfl⟩ : ∃ a', a = a' + 1 := ⟨a - 1, by omega⟩
    obtain ⟨c, rfl⟩ : ∃ c', c = c' + 1 := ⟨c - 1, by omega⟩
    have hmul : o * (a + 1) = o * a + o := Nat.mul_succ o a
    have hgrow : (c + 1) * a ≤ o * a := Nat.mul_le_mul_right a hle
    have hexpand : (c + 1) * a = c * a + a := Nat.succ_mul c a
    constructor
    · omega
    · intro hcount
      have hzero : c * a = 0 := by omega
      rcases Nat.mul_eq_zero.mp hzero with rfl | rfl
      · have ho' : o = 1 := Nat.eq_of_mul_eq_mul_right (show 0 < a + 1 by omega) (by omega)
        refine .inl fun U hU => ?_
        rw [ho'] at ho
        exact length_eq_one_of_odometer ho U.sets (List.mem_map_of_mem hU)
      · exact .inr ⟨ha, trivial, heq (by omega)⟩

theorem length_turn_le {Ts : List Nesting} (hne : ∀ T ∈ Ts, T.sets ≠ []) :
    (turnOr (Ts.map blindPart)).length ≤ (odometer (Ts.map sets)).length ∧
      ((turnOr (Ts.map blindPart)).length = (odometer (Ts.map sets)).length →
        CarriesOver (fun _ => True) Ts.tail) := by
  cases Ts with
  | nil => exact ⟨le_rfl, fun _ => trivial⟩
  | cons T Ts =>
    obtain ⟨hle, heq⟩ := length_chain_le fun T' hT' => hne T' (List.mem_cons_of_mem _ hT')
    have hT : 0 < T.sets.length := List.length_pos_of_ne_nil (hne T (by simp))
    have hturn : (turnOr ((T :: Ts).map blindPart)).length =
        (chainOr (Ts.map blindPart)).length * T.sets.length := by
      rw [List.map_cons, turnOr, turn, visited, List.length_flatMap]
      simp [blindPart]
    rw [hturn, List.map_cons, length_odometer_cons]
    exact ⟨Nat.mul_le_mul_right _ hle, fun h => heq (Nat.eq_of_mul_eq_mul_right hT h)⟩

/-- Lists that are no longer than others, and together as long, are each as long. -/
theorem length_eq_of_flatMap {α β γ : Type} {f : α → List β} {g : α → List γ} {xs : List α}
    (hle : ∀ x ∈ xs, (f x).length ≤ (g x).length)
    (h : (xs.flatMap f).length = (xs.flatMap g).length) :
    ∀ x ∈ xs, (f x).length = (g x).length := by
  have hmono : ∀ {ys : List α}, (∀ y ∈ ys, (f y).length ≤ (g y).length) →
      (ys.flatMap f).length ≤ (ys.flatMap g).length := by
    intro ys hys
    induction ys with
    | nil => exact le_rfl
    | cons y ys ih =>
      have hy := hys y (by simp)
      have hrest := ih fun y' hy' => hys y' (List.mem_cons_of_mem _ hy')
      simp only [List.flatMap_cons, List.length_append]
      omega
  induction xs with
  | nil => exact fun _ hx => by cases hx
  | cons x xs ih =>
    have hx := hle x (by simp)
    have hxs : ∀ x' ∈ xs, (f x').length ≤ (g x').length :=
      fun x' hx' => hle x' (List.mem_cons_of_mem _ hx')
    have hrest := hmono hxs
    simp only [List.flatMap_cons, List.length_append] at h
    intro x' hx'
    rcases List.mem_cons.mp hx' with rfl | hx'
    · omega
    · exact ih hxs (by omega) x' hx'

theorem blind_of_enumerates {T : Nesting} (h : T.Enumerates) :
    ∃ E, T.build = some E ∧
      E.Lists (blindPart T).values (blindPart T).final E.start (blindPart T).values := by
  obtain ⟨E, hE, hsets⟩ := h
  exact ⟨E, hE, lists_of_visits (stays_of_build hE) hsets⟩

theorem length_eq_of_enumerates {T : Nesting} {shown : List (Option Bits)} {final : Option Bits}
    (h : T.Enumerates)
    (hlists : ∃ E, T.build = some E ∧ E.Lists shown final E.start shown) :
    shown.length = T.sets.length := by
  obtain ⟨E, hE, ⟨n, hn⟩, -⟩ := h
  obtain ⟨E', hE', hshown⟩ := hlists
  obtain rfl := Option.some.inj (hE.symm.trans hE')
  obtain ⟨vs, hvs, hknown⟩ := hshown.visits le_rfl
  rw [← hknown.length_eq, Yields.unique ⟨_, hvs⟩ ⟨n, hn⟩]

/-- **Needed for the sets to be listed.** -/
theorem orderly_of_enumerates {T : Nesting} (hasserted : Throughout Asserted T)
    (h : Throughout Enumerates T) : Orderly (fun _ => True) T := by
  cases T with
  | constant bits => trivial
  | permutation nSet nTotal =>
    obtain ⟨E, hE, -⟩ := h.self
    rw [build, PermutationEnumerator] at hE
    split_ifs at hE with hlt
    exact hlt.2.2
  | product Ts =>
    have hne : ∀ T ∈ Ts, T.sets ≠ [] := fun T hT => sets_ne_nil (hasserted.part hT)
    have hTs : Ts ≠ [] := by
      rintro rfl
      obtain ⟨E, hE, ⟨n, hn⟩, -⟩ := h.self
      obtain rfl := Option.some.inj hE
      have hnone : (CartesianProductEnumerator []).visits 0 (CartesianProductEnumerator []).start =
          some [] := rfl
      cases Yields.unique ⟨0, hnone⟩ ⟨n, hn⟩
    have hlists := lists_product (f := blindPart) (fun _ => rfl) hTs hne fun T hT =>
      blind_of_enumerates (h.part hT).self
    have hlength := length_eq_of_enumerates h.self hlists
    obtain ⟨T, Ts, rfl⟩ := List.exists_cons_of_ne_nil hTs
    refine ⟨hTs, (length_turn_le hne).2 ?_⟩
    rw [← setsAll_eq]
    exact hlength
  | selection index Ts =>
    have hne : ∀ T ∈ Ts, T.sets ≠ [] := fun T hT => sets_ne_nil (hasserted.chosen hT)
    have hlists := lists_choices (f := blindPart) (fun _ => rfl) (sets_ne_nil hasserted.index) hne
      (blind_of_enumerates h.index.self) fun T hT => blind_of_enumerates (h.chosen hT).self
    have hlength := length_eq_of_enumerates h.self hlists
    have hchosen (b : Bits) : ∀ T ∈ actives (select b Ts.length) Ts, T.sets ≠ [] :=
      fun T hT => hne T (mem_actives hT)
    have hturn (b : Bits) : turnOr (actives (select b (Ts.map blindPart).length)
        (Ts.map blindPart)) = turnOr ((actives (select b Ts.length) Ts).map blindPart) := by
      rw [List.length_map, map_actives]
    rw [selected, sets] at hlength
    intro b hb
    refine (length_turn_le (hchosen b)).2 ?_
    have heq := length_eq_of_flatMap (fun b _ => by
      rw [hturn, actives_setsAll]
      exact (length_turn_le (hchosen b)).1) hlength b hb
    rw [hturn, actives_setsAll] at heq
    exact heq

/-! ## Parts with one set -/

theorem carriesOver_of_single {holds : Nesting → Prop} {Ts : List Nesting}
    (h : CarriesOver (fun _ => True) Ts) (hholds : ∀ T ∈ Ts, T.sets.length = 1 → holds T) :
    CarriesOver holds Ts := by
  induction Ts with
  | nil => trivial
  | cons T Ts ih =>
    rcases h with hsingle | ⟨hT, -, h⟩
    · exact .inl hsingle
    · exact .inr ⟨hT, hholds T (by simp) hT,
        ih h fun T' hT' => hholds T' (List.mem_cons_of_mem _ hT')⟩

theorem length_permutation_ne_one {nSet nTotal : ℕ} (hpos : 0 < nSet) (hlt : nSet < nTotal) :
    (permutation nSet nTotal).sets.length ≠ 1 := by
  rw [sets, List.length_map]
  intro hone
  obtain ⟨a, ha⟩ := List.length_eq_one_iff.mp hone
  have hfirst := head?_combinations hlt.le
  have hlast := getLast?_combinations hlt.le
  rw [ha] at hfirst hlast
  have heq : 2 ^ nSet - 1 = 2 ^ nTotal - 2 ^ (nTotal - nSet) :=
    (Option.some.inj hfirst).symm.trans (Option.some.inj hlast)
  -- one of the two is odd
  obtain ⟨k, rfl⟩ : ∃ k, nSet = k + 1 := ⟨nSet - 1, by omega⟩
  obtain ⟨d, rfl⟩ : ∃ d, nTotal = k + 1 + (d + 1) := ⟨nTotal - (k + 1) - 1, by omega⟩
  have hpow : 2 ^ (k + 1 + (d + 1)) = 2 * 2 ^ (k + 1 + d) := Nat.pow_succ'
  have hpow' : 2 ^ (k + 1 + (d + 1) - (k + 1)) = 2 * 2 ^ d := by
    rw [Nat.add_sub_cancel_left, Nat.pow_succ']
  have hpow'' : 2 ^ (k + 1) = 2 * 2 ^ k := Nat.pow_succ'
  have hk : 0 < 2 ^ k := Nat.two_pow_pos k
  omega

/-- A part with one set still shows it at the end, unless it is a permutation of all its bits. -/
theorem keeps_of_single {T : Nesting} (hasserted : Throughout Asserted T)
    (hnoFull : Throughout NoFull T) (hself : ∀ n, T ≠ permutation n n) (hone : T.sets.length = 1) :
    T.keeps = true := by
  induction T using ind with
  | constant bits => rfl
  | permutation nSet nTotal =>
    obtain ⟨hle, hpos, -⟩ := hasserted.self
    rcases hle.lt_or_eq with hlt | rfl
    · exact absurd hone (length_permutation_ne_one hpos hlt)
    · exact absurd rfl (hself nSet)
  | product Ts ih =>
    rw [sets, setsAll_eq] at hone
    rw [keeps, keepsAll_eq, List.all_map, List.all_eq_true]
    intro T hT
    exact ih T hT (hasserted.part hT) (hnoFull.part hT)
      (fun n hn => hnoFull.self n (hn ▸ hT))
      (length_eq_one_of_odometer hone T.sets (List.mem_map_of_mem hT))
  | selection index Ts _ ih =>
    obtain ⟨pre, b, hb⟩ : ∃ pre b, index.sets = pre ++ [b] :=
      ⟨_, _, (List.dropLast_append_getLast (sets_ne_nil hasserted.index)).symm⟩
    have hturn : 0 < (odometer ((actives (select b Ts.length) Ts).map sets)).length :=
      List.length_pos_of_ne_nil (odometer_map_ne_nil fun T hT =>
        sets_ne_nil (hasserted.chosen (mem_actives hT)))
    rw [sets, hb, List.flatMap_append, List.flatMap_singleton, List.length_append,
      actives_setsAll] at hone
    have hlast : (odometer ((actives (select b Ts.length) Ts).map sets)).length = 1 := by omega
    rw [keeps, keepsAll_eq, hb, List.getLastD_concat, map_actives, List.all_map,
      List.all_eq_true]
    intro T hT
    have hTs := mem_actives hT
    exact ih T hTs (hasserted.chosen hTs) (hnoFull.chosen hTs)
      (fun n hn => hnoFull.self n (hn ▸ hTs))
      (length_eq_one_of_odometer hlast T.sets (List.mem_map_of_mem hT))

theorem orderly_of_noFull {T : Nesting} (hasserted : Throughout Asserted T)
    (hnoFull : Throughout NoFull T) (h : Orderly (fun _ => True) T) :
    Orderly (fun T => T.keeps = true) T := by
  cases T with
  | constant bits => trivial
  | permutation nSet nTotal => exact h
  | product Ts =>
    refine ⟨h.1, carriesOver_of_single h.2 fun T hT hone => ?_⟩
    have hT := List.mem_of_mem_tail hT
    exact keeps_of_single (hasserted.part hT) (hnoFull.part hT)
      (fun n hn => hnoFull.self n (hn ▸ hT)) hone
  | selection index Ts =>
    refine fun b hb => carriesOver_of_single (h b hb) fun T hT hone => ?_
    have hT := mem_actives (List.mem_of_mem_tail hT)
    exact keeps_of_single (hasserted.chosen hT) (hnoFull.chosen hT)
      (fun n hn => hnoFull.self n (hn ▸ hT)) hone

/-- **The enumerators of a nesting list their sets if** no product is empty, none carries too far,
and no permutation is one of 64 bits; **and only if**, as far as the number of the sets goes. If no
part is a permutation of all its bits, the condition is exact. -/
theorem enumerates_iff {T : Nesting} (hasserted : Throughout Asserted T) :
    (Throughout (Orderly fun T => T.keeps = true) T → Throughout Enumerates T) ∧
      (Throughout Enumerates T → Throughout (Orderly fun _ => True) T) ∧
      (Throughout NoFull T →
        (Throughout Enumerates T ↔ Throughout (Orderly fun T => T.keeps = true) T)) := by
  have hsufficient : Throughout (Orderly fun T => T.keeps = true) T → Throughout Enumerates T := by
    intro h U hU
    obtain ⟨E, hE, hlists⟩ := lists_of_orderly (hasserted.within hU) (h.within hU)
    exact ⟨E, hE, hlists.enumerates⟩
  have hnecessary : Throughout Enumerates T → Throughout (Orderly fun _ => True) T :=
    fun h U hU => orderly_of_enumerates (hasserted.within hU) (h.within hU)
  refine ⟨hsufficient, hnecessary, fun hnoFull => ⟨fun h U hU => ?_, hsufficient⟩⟩
  exact orderly_of_noFull (hasserted.within hU) (hnoFull.within hU) (hnecessary h U hU)

/-! ## Runs -/

def oneOf (x y : Bits) : Nesting := .selection (.permutation 1 2) [.constant x, .constant y]

theorem throughout_oneOf {p : Nesting → Prop} {x y : Bits} (h : p (oneOf x y))
    (hindex : p (.permutation 1 2)) (hx : p (.constant x)) (hy : p (.constant y)) :
    Throughout p (oneOf x y) := by
  refine throughout_selection h (throughout_permutation hindex) fun T hT => ?_
  simp only [List.mem_cons, List.not_mem_nil, or_false] at hT
  rcases hT with rfl | rfl
  · exact throughout_constant hx
  · exact throughout_constant hy

theorem asserted_oneOf (x y : Bits) : Throughout Asserted (oneOf x y) :=
  throughout_oneOf trivial ⟨by decide, by decide, by decide⟩ trivial trivial

/-- Three parts with two sets each. -/
def threeChoices : Nesting :=
  .product [oneOf 1#64 2#64, oneOf 4#64 8#64, oneOf 16#64 32#64]

theorem asserted_threeChoices : Throughout Asserted threeChoices := by
  refine throughout_product trivial fun T hT => ?_
  simp only [List.mem_cons, List.not_mem_nil, or_false] at hT
  rcases hT with rfl | rfl | rfl <;> exact asserted_oneOf _ _

/-- Of eight sets six are shown: the second part is not reset when the third one moves on. -/
theorem six_of_eight :
    Throughout Asserted threeChoices ∧ threeChoices.sets.length = 8 ∧
      (∃ E, threeChoices.build = some E ∧
        E.visits 6 E.start = some [21#64, 22#64, 25#64, 26#64, 41#64, 42#64]) ∧
      ¬ threeChoices.Enumerates := by
  have hruns : (threeChoices.build.bind fun E => E.visits 6 E.start) =
      some [21#64, 22#64, 25#64, 26#64, 41#64, 42#64] := by
    decide +kernel
  obtain ⟨E, hE, hvisits⟩ := Option.bind_eq_some_iff.mp hruns
  refine ⟨asserted_threeChoices, by decide +kernel, ⟨E, hE, hvisits⟩, ?_⟩
  rintro ⟨E', hE', hyields, -⟩
  obtain rfl := Option.some.inj (hE.symm.trans hE')
  have hsets := Yields.unique ⟨6, hvisits⟩ hyields
  exact absurd hsets (by decide +kernel)

/-- Of the parts behind the first one, one has two sets. -/
theorem enumerates_iff_mixture :
    Enumerates (.product [oneOf 1#64 2#64, .constant 4#64, oneOf 8#64 16#64]) := by
  have horderly (x y : Bits) : Throughout (Orderly fun T => T.keeps = true) (oneOf x y) := by
    refine throughout_oneOf (fun b hb => ?_) (show 2 < 64 by decide) trivial trivial
    have hsets : (permutation 1 2).sets = [1#64, 2#64] := rfl
    have hfirst : select 1#64 2 = [true, false] := by decide
    have hsecond : select 2#64 2 = [false, true] := by decide
    rw [hsets] at hb
    simp only [List.mem_cons, List.not_mem_nil, or_false] at hb
    -- one of the two is chosen, and nothing is behind it
    rcases hb with rfl | rfl
    · rw [List.length_cons, List.length_singleton, hfirst]
      trivial
    · rw [List.length_cons, List.length_singleton, hsecond]
      trivial
  have hasserted : Throughout Asserted
      (.product [oneOf 1#64 2#64, .constant 4#64, oneOf 8#64 16#64]) := by
    refine throughout_product trivial fun T hT => ?_
    simp only [List.mem_cons, List.not_mem_nil, or_false] at hT
    rcases hT with rfl | rfl | rfl
    · exact asserted_oneOf _ _
    · exact throughout_constant trivial
    · exact asserted_oneOf _ _
  refine ((enumerates_iff hasserted).1 (throughout_product ⟨by simp, ?_⟩ fun T hT => ?_)).self
  · exact .inr ⟨rfl, rfl, .inl fun U hU => by cases hU⟩
  · simp only [List.mem_cons, List.not_mem_nil, or_false] at hT
    rcases hT with rfl | rfl | rfl
    · exact horderly _ _
    · exact throughout_constant trivial
    · exact horderly _ _

end Nesting

end SmartCore.Util
