import Mathlib.Data.List.Basic
import Mathlib.Data.List.Flatten
import Mathlib.Order.Nat
import Mathlib.Tactic.Common

/-!
# Records in a stream

A stream is a sequence of records: a header of fixed length, from which the size of a body can be
told, and the body. `records` are the bodies of the complete records at the beginning of a stream.
It stops at a header that is not acceptable.

**Theorems.** A longer stream only has more records (`records_prefix`), and what was written is read
(`records_flatMap`).
-/

namespace SmartCore

/-- The length of a header, and the size it announces, if it is acceptable. -/
structure RecordFormat (β : Type) where
  headerLength : ℕ
  headerLength_pos : 0 < headerLength
  size : List β → Option ℕ

namespace RecordFormat

variable {β : Type} (F : RecordFormat β)

/-- The first body and what follows it. -/
def record (stream : List β) : Option (List β × List β) :=
  match F.size (stream.take F.headerLength) with
  | some n =>
    if F.headerLength + n ≤ stream.length then
      some ((stream.drop F.headerLength).take n, stream.drop (F.headerLength + n))
    else none
  | none => none

variable {F} {stream rest body : List β} {n : ℕ}

theorem record_eq_some : F.record stream = some (body, rest) ↔
    ∃ header, stream = header ++ (body ++ rest) ∧ header.length = F.headerLength ∧
      F.size header = some body.length := by
  unfold record
  constructor
  · intro h
    split at h
    · rename_i n hn
      split_ifs at h with hlen
      obtain ⟨rfl, rfl⟩ := Prod.mk.inj (Option.some.inj h)
      refine ⟨stream.take F.headerLength, ?_, ?_, ?_⟩
      · rw [← List.drop_drop, List.take_append_drop, List.take_append_drop]
      · rw [List.length_take]
        omega
      · rw [hn, List.length_take, List.length_drop]
        congr 1
        omega
    · cases h
  · rintro ⟨header, rfl, hlen, hsize⟩
    rw [List.take_left' hlen, hsize]
    simp only
    rw [if_pos (by simp; omega), List.drop_left' hlen, List.take_left, ← List.drop_drop,
      List.drop_left' hlen, List.drop_left]

theorem length_record (h : F.record stream = some (body, rest)) : rest.length < stream.length := by
  obtain ⟨header, rfl, hlen, -⟩ := record_eq_some.mp h
  have hpos := F.headerLength_pos
  simp only [List.length_append]
  omega

variable (F) in
/-- The bodies of the complete records. -/
def records (stream : List β) : List (List β) :=
  match _h : F.record stream with
  | some (body, rest) => body :: records rest
  | none => []
termination_by stream.length
decreasing_by exact length_record _h

theorem records_of_some (h : F.record stream = some (body, rest)) :
    F.records stream = body :: F.records rest := by
  rw [records]
  split
  · rename_i body' rest' h'
    cases h.symm.trans h'
    rfl
  · rename_i h'
    cases h.symm.trans h'

theorem records_of_none (h : F.record stream = none) : F.records stream = [] := by
  rw [records]
  split
  · rename_i h'
    cases h.symm.trans h'
  · rfl

/-- After a record of these bodies there is `rest`. -/
inductive Reads (F : RecordFormat β) : List β → List (List β) → List β → Prop
  | nil (stream : List β) : Reads F stream [] stream
  | concat {stream body rest : List β} {bodies : List (List β)} {rest' : List β}
    (h : Reads F stream bodies rest') (hrecord : F.record rest' = some (body, rest)) :
    Reads F stream (bodies ++ [body]) rest

variable {bodies : List (List β)}

theorem Reads.records_eq (h : F.Reads stream bodies rest) :
    F.records stream = bodies ++ F.records rest := by
  induction h with
  | nil => rfl
  | concat h hrecord ih =>
    rw [ih, records_of_some hrecord, List.append_assoc, List.singleton_append]

theorem record_append (h : F.record stream = some (body, rest)) (more : List β) :
    F.record (stream ++ more) = some (body, rest ++ more) := by
  obtain ⟨header, rfl, hlen, hsize⟩ := record_eq_some.mp h
  exact record_eq_some.mpr ⟨header, by simp, hlen, hsize⟩

theorem Reads.append (h : F.Reads stream bodies rest) (more : List β) :
    F.Reads (stream ++ more) bodies (rest ++ more) := by
  induction h with
  | nil => exact .nil _
  | concat h hrecord ih => exact .concat ih (record_append hrecord more)

theorem exists_reads (F : RecordFormat β) (stream : List β) :
    ∃ rest, F.Reads stream (F.records stream) rest ∧ F.record rest = none := by
  suffices h : ∀ n bodies rest, rest.length ≤ n → F.Reads stream bodies rest →
      ∃ rest', F.Reads stream (bodies ++ F.records rest) rest' ∧ F.record rest' = none by
    simpa using h stream.length [] stream le_rfl (.nil stream)
  intro n
  induction n with
  | zero =>
    intro bodies rest hlen hreads
    have hnone : F.record rest = none := by
      cases hr : F.record rest with
      | none => rfl
      | some r =>
        have hlt := length_record hr
        omega
    exact ⟨rest, by rwa [records_of_none hnone, List.append_nil], hnone⟩
  | succ n ih =>
    intro bodies rest hlen hreads
    cases hr : F.record rest with
    | none => exact ⟨rest, by rwa [records_of_none hr, List.append_nil], hr⟩
    | some r =>
      have hlt := length_record hr
      obtain ⟨rest', hreads', hnone⟩ := ih (bodies ++ [r.1]) r.2 (by omega) (.concat hreads hr)
      refine ⟨rest', ?_, hnone⟩
      rwa [records_of_some hr, ← List.singleton_append, ← List.append_assoc]

/-- A longer stream only has more records. -/
theorem records_prefix {stream' : List β} (h : stream <+: stream') :
    F.records stream <+: F.records stream' := by
  obtain ⟨more, rfl⟩ := h
  obtain ⟨rest, hreads, -⟩ := exists_reads F stream
  rw [(hreads.append more).records_eq]
  exact List.prefix_append _ _

theorem record_nil : F.record [] = none := by
  cases hr : F.record [] with
  | none => rfl
  | some r =>
    have hlt := length_record hr
    simp at hlt

/-- What was written is read. -/
theorem records_flatMap {M : Type} {raw body : M → List β} {l : List M}
    (h : ∀ m ∈ l, ∃ header, raw m = header ++ body m ∧ header.length = F.headerLength ∧
      F.size header = some (body m).length) :
    F.records (l.flatMap raw) = l.map body := by
  induction l with
  | nil => exact records_of_none record_nil
  | cons m l ih =>
    obtain ⟨header, hraw, hlen, hsize⟩ := h m List.mem_cons_self
    have hrecord : F.record ((m :: l).flatMap raw) = some (body m, l.flatMap raw) := by
      refine record_eq_some.mpr ⟨header, ?_, hlen, hsize⟩
      rw [List.flatMap_cons, hraw, List.append_assoc]
    rw [records_of_some hrecord, List.map_cons, ih fun m' hm' => h m' (List.mem_cons_of_mem _ hm')]

end RecordFormat

end SmartCore
