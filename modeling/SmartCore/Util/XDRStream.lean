import Mathlib.Data.Nat.Bitwise
import Mathlib.Data.List.Forall2
import Mathlib.Data.List.Flatten
import Mathlib.Tactic.Common

/-!
# Files of XDR messages

A file is a sequence of records: four bytes with the size of a message, of which the highest bit is
set, and then the message. What is written is read back. What has been damaged is not always
noticed: `readOne` takes a length word that has been cut off for the end of the file, ignores the
highest bit, and does not ask whether the message fills its record.

**Theorem (`roundtrip_and_damage_iff`).** Messages that fit are read as they were written. Bytes
that are not a sequence of records raise an error, exactly if they are not `Unnoticed`: records that
can be read, of which one has the highest bit cleared or bytes left over, or after which there are
one to three bytes.
-/

namespace SmartCore.Util

/-- How messages are marshalled, with the bytes of a buffer that are left over. -/
structure Marshal (T : Type) where
  put : T → List UInt8
  get : List UInt8 → Option (T × List UInt8)
  get_put : ∀ t, get (put t) = some (t, [])

variable {T : Type} (M : Marshal T)

/-! ## Writing -/

/-- The stream, with what has gone to `hasher` and to `bytesPut`. -/
structure XDROutputFileStream where
  mOut : List UInt8 := []
  hashed : List UInt8 := []
  bytesPut : ℕ := 0

/-- The size, big-endian, with the 'continuation' bit set. -/
def lengthWord (sz : ℕ) : List UInt8 :=
  [UInt8.ofNat (sz >>> 24) ||| 0x80, UInt8.ofNat (sz >>> 16), UInt8.ofNat (sz >>> 8),
    UInt8.ofNat sz]

/-- There is an assertion, and `xdr_put` throws where the size does not fit 32 bits. -/
def writeOne (t : T) (out : XDROutputFileStream) : Option XDROutputFileStream :=
  let sz := (M.put t).length % 2 ^ 32
  if sz < 0x80000000 ∧ (M.put t).length = sz then
    let record := lengthWord sz ++ M.put t
    some
      { mOut := out.mOut ++ record
        hashed := out.hashed ++ record
        bytesPut := out.bytesPut + (sz + 4) }
  else none

def writeAll : List T → XDROutputFileStream → Option XDROutputFileStream
  | [], out => some out
  | t :: ts, out => (writeOne M t out).bind (writeAll ts)

/-! ## Reading -/

/-- What is left of the file, and whether the stream is good. -/
structure XDRInputFileStream where
  mIn : List UInt8
  good : Bool := true

inductive XdrError where
  /-- `malformed XDR file` -/
  | malformed
  /-- what `xdr_get` throws -/
  | get
deriving DecidableEq, Repr

/-- The size, with the 'continuation' bit cleared. -/
def recordSize (b₀ b₁ b₂ b₃ : UInt8) : ℕ :=
  ((((b₀ &&& 0x7f).toNat <<< 8 ||| b₁.toNat) <<< 8 ||| b₂.toNat) <<< 8) ||| b₃.toNat

/-- The next message, or none where there are no four bytes left. -/
def readOne (s : XDRInputFileStream) : Except XdrError (Option T × XDRInputFileStream) :=
  match s.good, s.mIn with
  | true, b₀ :: b₁ :: b₂ :: b₃ :: rest =>
    let sz := recordSize b₀ b₁ b₂ b₃
    if rest.length < sz then .error .malformed
    else
      match M.get (rest.take sz) with
      | none => .error .get
      | some (t, _) => .ok (some t, { mIn := rest.drop sz })
  | _, _ => .ok (none, { mIn := [], good := false })

variable {M} in
theorem length_readOne {s s' : XDRInputFileStream} {t : T}
    (h : readOne M s = .ok (some t, s')) : s'.mIn.length < s.mIn.length := by
  unfold readOne at h
  split at h
  · rename_i b₀ b₁ b₂ b₃ rest _ hin
    dsimp only at h
    split_ifs at h
    split at h
    · cases h
    · cases h
      rw [hin, List.length_drop]
      simp only [List.length_cons]
      omega
  · cases h

/-- `while (in && in.readOne(t))` -/
def readAll (s : XDRInputFileStream) : Except XdrError (List T) :=
  if s.good then
    match _h : readOne M s with
    | .error e => .error e
    | .ok (none, _) => .ok []
    | .ok (some t, s') => (readAll s').map (t :: ·)
  else .ok []
termination_by s.mIn.length
decreasing_by exact length_readOne _h

/-! ## Records -/

/-- The sizes that a length word can have. -/
theorem recordSize_eq (b₀ b₁ b₂ b₃ : UInt8) :
    recordSize b₀ b₁ b₂ b₃ =
      ((b₀.toNat % 2 ^ 7 * 2 ^ 8 + b₁.toNat) * 2 ^ 8 + b₂.toNat) * 2 ^ 8 + b₃.toNat := by
  have hmask : (b₀ &&& 0x7f).toNat = b₀.toNat % 2 ^ 7 := by
    rw [UInt8.toNat_and]
    exact Nat.and_two_pow_sub_one_eq_mod b₀.toNat 7
  have hshift (n : ℕ) (b : UInt8) : n <<< 8 ||| b.toNat = n * 2 ^ 8 + b.toNat := by
    rw [← Nat.shiftLeft_add_eq_or_of_lt b.toNat_lt, Nat.shiftLeft_eq]
  rw [recordSize, hmask, hshift, hshift, hshift]

theorem toNat_or_bit {n : ℕ} (hn : n < 2 ^ 7) : (UInt8.ofNat n ||| 0x80).toNat = 2 ^ 7 + n := by
  have hofNat : (UInt8.ofNat n).toNat = n := by
    rw [UInt8.toNat_ofNat']
    omega
  rw [UInt8.toNat_or, hofNat, Nat.or_comm]
  exact (Nat.two_pow_add_eq_or_of_lt hn 1).symm

/-- A length word is one of four bytes, of which the first has the highest bit. -/
theorem recordSize_lengthWord {n : ℕ} (hn : n < 2 ^ 31) :
    ∃ b₀ b₁ b₂ b₃, lengthWord n = [b₀, b₁, b₂, b₃] ∧ recordSize b₀ b₁ b₂ b₃ = n ∧
      2 ^ 7 ≤ b₀.toNat := by
  have hhigh : n >>> 24 < 2 ^ 7 := by
    rw [Nat.shiftRight_eq_div_pow]
    omega
  refine ⟨_, _, _, _, rfl, ?_, ?_⟩
  · rw [recordSize_eq, toNat_or_bit hhigh]
    simp only [UInt8.toNat_ofNat', Nat.shiftRight_eq_div_pow]
    omega
  · rw [toNat_or_bit hhigh]
    omega

/-- The size and the highest bit make the length word. -/
theorem lengthWord_recordSize {b₀ b₁ b₂ b₃ : UInt8} (h : 2 ^ 7 ≤ b₀.toNat) :
    lengthWord (recordSize b₀ b₁ b₂ b₃) = [b₀, b₁, b₂, b₃] := by
  have h₀ := b₀.toNat_lt
  have h₁ := b₁.toNat_lt
  have h₂ := b₂.toNat_lt
  have h₃ := b₃.toNat_lt
  have hsize := recordSize_eq b₀ b₁ b₂ b₃
  have hhigh : recordSize b₀ b₁ b₂ b₃ >>> 24 < 2 ^ 7 := by
    rw [Nat.shiftRight_eq_div_pow]
    omega
  have hfirst : UInt8.ofNat (recordSize b₀ b₁ b₂ b₃ >>> 24) ||| 0x80 = b₀ := by
    apply UInt8.toNat_inj.mp
    rw [toNat_or_bit hhigh, Nat.shiftRight_eq_div_pow]
    omega
  rw [lengthWord, hfirst]
  congr 2
  · apply UInt8.toNat_inj.mp
    rw [UInt8.toNat_ofNat', Nat.shiftRight_eq_div_pow]
    omega
  · congr 1
    · apply UInt8.toNat_inj.mp
      rw [UInt8.toNat_ofNat', Nat.shiftRight_eq_div_pow]
      omega
    · congr 1
      apply UInt8.toNat_inj.mp
      rw [UInt8.toNat_ofNat']
      omega

/-- A record that `writeOne` can have written. -/
def WellFormed (record : List UInt8) (t : T) : Prop :=
  ∃ message, record = lengthWord message.length ++ message ∧ message.length < 2 ^ 31 ∧
    M.get message = some (t, [])

/-- A record that `readOne` reads, with the bytes that it does not ask for. -/
def Readable (record : List UInt8) (t : T) : Prop :=
  ∃ b₀ b₁ b₂ b₃ message left, record = b₀ :: b₁ :: b₂ :: b₃ :: message ∧
    message.length = recordSize b₀ b₁ b₂ b₃ ∧ M.get message = some (t, left)

/-- The highest bit is cleared. -/
def Continued (record : List UInt8) : Prop := ∃ b ∈ record.head?, b.toNat < 2 ^ 7

/-- The message does not fill the record. -/
def LeftOver (record : List UInt8) : Prop :=
  ∃ t left, M.get (record.drop 4) = some (t, left) ∧ left ≠ []

variable {M} {record : List UInt8} {t : T}

theorem WellFormed.readable (h : WellFormed M record t) : Readable M record t := by
  obtain ⟨message, rfl, hlen, hget⟩ := h
  obtain ⟨b₀, b₁, b₂, b₃, hword, hsize, -⟩ := recordSize_lengthWord hlen
  exact ⟨b₀, b₁, b₂, b₃, message, [], by rw [hword]; rfl, hsize.symm, hget⟩

/-- What can be read is well formed, if it does not have one of the two defects. -/
theorem Readable.wellFormed_iff (h : Readable M record t) :
    WellFormed M record t ↔ ¬ Continued record ∧ ¬ LeftOver M record := by
  obtain ⟨b₀, b₁, b₂, b₃, message, left, rfl, hlen, hget⟩ := h
  constructor
  · intro hwell
    obtain ⟨message', heq, hlen', hget'⟩ := hwell
    obtain ⟨c₀, c₁, c₂, c₃, hword, -, hbit⟩ := recordSize_lengthWord hlen'
    rw [hword] at heq
    obtain ⟨rfl, rfl, rfl, rfl, rfl⟩ : b₀ = c₀ ∧ b₁ = c₁ ∧ b₂ = c₂ ∧ b₃ = c₃ ∧
        message = message' := by simpa using heq
    refine ⟨fun hcontinued => ?_, fun hleft => ?_⟩
    · obtain ⟨b, hb, hlt⟩ := hcontinued
      obtain rfl : b₀ = b := by simpa using hb
      omega
    · obtain ⟨t', left', hget'', hne⟩ := hleft
      have hdrop : M.get message = some (t', left') := hget''
      rw [hget'] at hdrop
      cases hdrop
      exact hne rfl
  · intro hdefects
    obtain ⟨hcontinued, hleft⟩ := hdefects
    have hbit : 2 ^ 7 ≤ b₀.toNat := by
      by_contra hlt
      exact hcontinued ⟨b₀, rfl, by omega⟩
    have hempty : left = [] := by
      by_contra hne
      exact hleft ⟨t, left, hget, hne⟩
    have hsize : message.length < 2 ^ 31 := by
      have h₀ := b₀.toNat_lt
      have h₁ := b₁.toNat_lt
      have h₂ := b₂.toNat_lt
      have h₃ := b₃.toNat_lt
      rw [hlen, recordSize_eq]
      omega
    refine ⟨message, ?_, hsize, hempty ▸ hget⟩
    rw [hlen, lengthWord_recordSize hbit]
    rfl

theorem Readable.length (h : Readable M record t) : 4 ≤ record.length := by
  obtain ⟨b₀, b₁, b₂, b₃, message, left, rfl, -⟩ := h
  simp

/-- Where a record ends is in its first bytes. -/
theorem Readable.unique {record' rest rest' : List UInt8} {t' : T} (h : Readable M record t)
    (h' : Readable M record' t') (heq : record ++ rest = record' ++ rest') :
    record = record' ∧ rest = rest' := by
  obtain ⟨b₀, b₁, b₂, b₃, message, left, rfl, hlen, -⟩ := h
  obtain ⟨c₀, c₁, c₂, c₃, message', left', rfl, hlen', -⟩ := h'
  simp only [List.cons_append, List.cons.injEq] at heq
  obtain ⟨rfl, rfl, rfl, rfl, heq⟩ := heq
  obtain ⟨rfl, rfl⟩ := List.append_inj heq (hlen.trans hlen'.symm)
  exact ⟨rfl, rfl⟩

/-! ## Reading to the end -/

theorem readOne_readable (h : Readable M record t) (rest : List UInt8) :
    readOne M { mIn := record ++ rest } = .ok (some t, { mIn := rest }) := by
  obtain ⟨b₀, b₁, b₂, b₃, message, left, rfl, hlen, hget⟩ := h
  have hfits : ¬ (message ++ rest).length < recordSize b₀ b₁ b₂ b₃ := by
    rw [List.length_append]
    omega
  have htake : (message ++ rest).take (recordSize b₀ b₁ b₂ b₃) = message := List.take_left' hlen
  have hdrop : (message ++ rest).drop (recordSize b₀ b₁ b₂ b₃) = rest := List.drop_left' hlen
  simp only [readOne, List.cons_append, if_neg hfits, htake, hdrop, hget]

/-- A message that is read is that of a record. -/
theorem readable_of_readOne {bytes : List UInt8} {s : XDRInputFileStream}
    (h : readOne M { mIn := bytes } = .ok (some t, s)) :
    ∃ record rest, bytes = record ++ rest ∧ Readable M record t ∧ s = { mIn := rest } := by
  unfold readOne at h
  split at h
  · rename_i b₀ b₁ b₂ b₃ rest _ hin
    dsimp only at h
    split_ifs at h with hlt
    cases hget : M.get (rest.take (recordSize b₀ b₁ b₂ b₃)) with
    | none =>
      rw [hget] at h
      cases h
    | some r =>
      rw [hget] at h
      cases h
      refine ⟨b₀ :: b₁ :: b₂ :: b₃ :: rest.take (recordSize b₀ b₁ b₂ b₃), _, ?_, ?_, rfl⟩
      · obtain rfl : bytes = _ := hin
        simp
      · exact ⟨b₀, b₁, b₂, b₃, _, r.2, rfl, by rw [List.length_take]; omega, hget⟩
  · cases h

theorem readOne_end {bytes : List UInt8} {s : XDRInputFileStream}
    (h : readOne M { mIn := bytes } = .ok (none, s)) : bytes.length < 4 := by
  unfold readOne at h
  split at h
  · dsimp only at h
    split_ifs at h
    split at h <;> cases h
  · rename_i hnot
    by_contra hge
    match bytes, hge, hnot with
    | b₀ :: b₁ :: b₂ :: b₃ :: rest, _, hnot => exact hnot b₀ b₁ b₂ b₃ rest rfl rfl
    | [], hge, _ => exact hge (by simp)
    | [_], hge, _ => exact hge (by simp)
    | [_, _], hge, _ => exact hge (by simp)
    | [_, _, _], hge, _ => exact hge (by simp)

theorem readOne_of_short {bytes : List UInt8} (h : bytes.length < 4) :
    readOne M { mIn := bytes } = .ok (none, { mIn := [], good := false }) := by
  match bytes, h with
  | [], _ => rfl
  | [_], _ => rfl
  | [_, _], _ => rfl
  | [_, _, _], _ => rfl
  | _ :: _ :: _ :: _ :: rest, h => exact absurd h (by simp)

section Equations

variable {s s' : XDRInputFileStream} {e : XdrError}

theorem readAll_of_some (hgood : s.good = true) (h : readOne M s = .ok (some t, s')) :
    readAll M s = (readAll M s').map (t :: ·) := by
  rw [readAll, if_pos hgood]
  split <;> rename_i heq <;> rw [h] at heq <;> cases heq
  rfl

theorem readAll_of_none (h : readOne M s = .ok (none, s')) : readAll M s = .ok [] := by
  rw [readAll]
  split_ifs
  · split <;> rename_i heq <;> rw [h] at heq <;> cases heq
  · rfl

theorem readAll_of_error (hgood : s.good = true) (h : readOne M s = .error e) :
    readAll M s = .error e := by
  rw [readAll, if_pos hgood]
  split <;> rename_i heq <;> rw [h] at heq <;> cases heq
  rfl

end Equations

/-- Records are read, and then up to three bytes are not noticed. -/
theorem readAll_records {records : List (List UInt8)} {ts : List T} {tail : List UInt8}
    (h : List.Forall₂ (Readable M) records ts) (htail : tail.length < 4) :
    readAll M { mIn := records.flatten ++ tail } = .ok ts := by
  induction h with
  | nil => exact readAll_of_none (readOne_of_short htail)
  | cons hread _ ih =>
    rw [List.flatten_cons, List.append_assoc, readAll_of_some rfl (readOne_readable hread _), ih]
    rfl

/-- All that is read is records, and then there are less than four bytes. -/
theorem records_of_readAll {ts : List T} {bytes : List UInt8}
    (h : readAll M { mIn := bytes } = .ok ts) :
    ∃ records tail, bytes = records.flatten ++ tail ∧ tail.length < 4 ∧
      List.Forall₂ (Readable M) records ts := by
  induction ts generalizing bytes with
  | nil =>
    cases hone : readOne M { mIn := bytes } with
    | error e =>
      rw [readAll_of_error rfl hone] at h
      cases h
    | ok r =>
      obtain ⟨o, s⟩ := r
      cases o with
      | none => exact ⟨[], bytes, rfl, readOne_end hone, .nil⟩
      | some t =>
        rw [readAll_of_some rfl hone] at h
        cases hrest : readAll M s with
        | error e =>
          rw [hrest] at h
          cases h
        | ok ts =>
          rw [hrest] at h
          cases h
  | cons t ts ih =>
    cases hone : readOne M { mIn := bytes } with
    | error e =>
      rw [readAll_of_error rfl hone] at h
      cases h
    | ok r =>
      obtain ⟨o, s⟩ := r
      cases o with
      | none =>
        rw [readAll_of_none hone] at h
        cases h
      | some t' =>
        rw [readAll_of_some rfl hone] at h
        cases hrest : readAll M s with
        | error e =>
          rw [hrest] at h
          cases h
        | ok ts' =>
          rw [hrest] at h
          cases h
          obtain ⟨record, rest, rfl, hread, rfl⟩ := readable_of_readOne hone
          obtain ⟨records, tail, rfl, htail, hall⟩ := ih hrest
          exact ⟨record :: records, tail, by simp, htail, .cons hread hall⟩

/-- The bytes are a sequence of records. -/
def IsRecords (M : Marshal T) (bytes : List UInt8) : Prop :=
  ∃ records : List (List UInt8), bytes = records.flatten ∧
    ∀ record ∈ records, ∃ t, WellFormed M record t

/-- Damage that is not noticed: in one of the records, or in up to three bytes after them. -/
def Unnoticed (M : Marshal T) (bytes : List UInt8) : Prop :=
  ∃ (records : List (List UInt8)) (tail : List UInt8), bytes = records.flatten ++ tail ∧
    tail.length < 4 ∧ (∀ record ∈ records, ∃ t, Readable M record t) ∧
      (tail ≠ [] ∨ ∃ record ∈ records, Continued record ∨ LeftOver M record)

theorem forall₂_of_forall {R : List UInt8 → T → Prop} {records : List (List UInt8)}
    (h : ∀ record ∈ records, ∃ t, R record t) : ∃ ts, List.Forall₂ R records ts := by
  induction records with
  | nil => exact ⟨[], .nil⟩
  | cons record records ih =>
    obtain ⟨t, ht⟩ := h record List.mem_cons_self
    obtain ⟨ts, hts⟩ := ih fun r hr => h r (List.mem_cons_of_mem _ hr)
    exact ⟨t :: ts, .cons ht hts⟩

theorem forall_of_forall₂ {R : List UInt8 → T → Prop} {records : List (List UInt8)} {ts : List T}
    (h : List.Forall₂ R records ts) : ∀ record ∈ records, ∃ t, R record t := by
  induction h with
  | nil => simp
  | cons ht _ ih =>
    intro record hmem
    rcases List.mem_cons.mp hmem with rfl | hmem
    · exact ⟨_, ht⟩
    · exact ih record hmem

/-- There is one way only to see records in the bytes. -/
theorem records_unique {records records' : List (List UInt8)} {tail : List UInt8}
    (h : ∀ record ∈ records, ∃ t, Readable M record t)
    (h' : ∀ record ∈ records', ∃ t, Readable M record t) (htail : tail.length < 4)
    (heq : records.flatten ++ tail = records'.flatten) : records = records' ∧ tail = [] := by
  induction records generalizing records' with
  | nil =>
    cases records' with
    | nil => exact ⟨rfl, heq⟩
    | cons record' records' =>
      obtain ⟨t, hread⟩ := h' record' List.mem_cons_self
      have hlen := congrArg List.length heq
      have hge := hread.length
      simp only [List.flatten_nil, List.nil_append, List.flatten_cons, List.length_append] at hlen
      omega
  | cons record records ih =>
    obtain ⟨t, hread⟩ := h record List.mem_cons_self
    cases records' with
    | nil =>
      have hlen := congrArg List.length heq
      have hge := hread.length
      simp only [List.flatten_nil, List.flatten_cons, List.length_append, List.length_nil] at hlen
      omega
    | cons record' records' =>
      obtain ⟨t', hread'⟩ := h' record' List.mem_cons_self
      rw [List.flatten_cons, List.flatten_cons, List.append_assoc] at heq
      obtain ⟨rfl, hrest⟩ := hread.unique hread' heq
      obtain ⟨rfl, rfl⟩ := ih (fun r hr => h r (List.mem_cons_of_mem _ hr))
        (fun r hr => h' r (List.mem_cons_of_mem _ hr)) hrest
      exact ⟨rfl, rfl⟩

theorem Unnoticed.not_isRecords {bytes : List UInt8} (h : Unnoticed M bytes) :
    ¬ IsRecords M bytes := by
  obtain ⟨records, tail, rfl, htail, hall, hdamage⟩ := h
  intro hrecords
  obtain ⟨records', heq, hwell⟩ := hrecords
  have hread : ∀ record ∈ records', ∃ t, Readable M record t := fun record hmem =>
    (hwell record hmem).imp fun _ h => h.readable
  obtain ⟨rfl, rfl⟩ := records_unique hall hread htail heq
  rcases hdamage with hne | ⟨record, hmem, hdefect⟩
  · exact hne rfl
  · obtain ⟨t, ht⟩ := hwell record hmem
    have hno := ht.readable.wellFormed_iff.mp ht
    exact hdefect.elim hno.1 hno.2

/-- Damage that raises an error. -/
theorem error_iff_not_unnoticed (bytes : List UInt8) :
    (¬ IsRecords M bytes → ∃ e, readAll M { mIn := bytes } = .error e) ↔ ¬ Unnoticed M bytes := by
  constructor
  · intro h hunnoticed
    obtain ⟨e, he⟩ := h hunnoticed.not_isRecords
    obtain ⟨records, tail, rfl, htail, hall, -⟩ := hunnoticed
    obtain ⟨ts, hts⟩ := forall₂_of_forall hall
    rw [readAll_records hts htail] at he
    cases he
  · intro hunnoticed hno
    cases hread : readAll M { mIn := bytes } with
    | error e => exact ⟨e, rfl⟩
    | ok ts =>
      obtain ⟨records, tail, rfl, htail, hts⟩ := records_of_readAll hread
      have hall := forall_of_forall₂ hts
      -- without a defect they would be records
      have hdefect : tail ≠ [] ∨ ∃ record ∈ records, Continued record ∨ LeftOver M record := by
        by_contra hneither
        obtain ⟨htail', hnone⟩ := not_or.mp hneither
        obtain rfl : tail = [] := not_not.mp htail'
        apply hno
        refine ⟨records, by simp, fun record hmem => ?_⟩
        obtain ⟨t, ht⟩ := hall record hmem
        have hgood : ¬ (Continued record ∨ LeftOver M record) := fun h => hnone ⟨record, hmem, h⟩
        exact ⟨t, ht.wellFormed_iff.mpr (not_or.mp hgood)⟩
      exact absurd ⟨records, tail, rfl, htail, hall, hdefect⟩ hunnoticed

/-! ## What is written -/

theorem writeAll_mOut {ts : List T} (h : ∀ t ∈ ts, (M.put t).length < 2 ^ 31)
    (out : XDROutputFileStream) :
    ∃ out', writeAll M ts out = some out' ∧
      out'.mOut = out.mOut ++ (ts.map fun t => lengthWord (M.put t).length ++ M.put t).flatten := by
  induction ts generalizing out with
  | nil => exact ⟨out, rfl, by simp⟩
  | cons t ts ih =>
    have ht := h t List.mem_cons_self
    have hsize : (M.put t).length % 2 ^ 32 = (M.put t).length := Nat.mod_eq_of_lt (by omega)
    have hone : writeOne M t out = some
        { mOut := out.mOut ++ (lengthWord (M.put t).length ++ M.put t)
          hashed := out.hashed ++ (lengthWord (M.put t).length ++ M.put t)
          bytesPut := out.bytesPut + ((M.put t).length + 4) } := by
      simp only [writeOne, hsize]
      exact if_pos ⟨by omega, trivial⟩
    obtain ⟨out', hrest, hout⟩ := ih (fun t' ht' => h t' (List.mem_cons_of_mem _ ht')) _
    refine ⟨out', ?_, ?_⟩
    · rw [writeAll, hone]
      exact hrest
    · rw [hout]
      simp

theorem wellFormed_record {t : T} (h : (M.put t).length < 2 ^ 31) :
    WellFormed M (lengthWord (M.put t).length ++ M.put t) t :=
  ⟨M.put t, rfl, h, M.get_put t⟩

/-- **Main theorem**: what is written is read, and damage raises an error unless it is one of the
kinds that are not noticed. -/
theorem roundtrip_and_damage_iff (M : Marshal T) :
    (∀ ts : List T, (∀ t ∈ ts, (M.put t).length < 2 ^ 31) →
      ∃ out, writeAll M ts {} = some out ∧ readAll M { mIn := out.mOut } = .ok ts) ∧
    ∀ bytes, (¬ IsRecords M bytes → ∃ e, readAll M { mIn := bytes } = .error e) ↔
      ¬ Unnoticed M bytes := by
  refine ⟨fun ts h => ?_, error_iff_not_unnoticed⟩
  obtain ⟨out, hwrite, hout⟩ := writeAll_mOut h {}
  have hrecords : List.Forall₂ (Readable M)
      (ts.map fun t => lengthWord (M.put t).length ++ M.put t) ts := by
    rw [List.forall₂_map_left_iff, List.forall₂_same]
    exact fun t ht => (wellFormed_record (h t ht)).readable
  refine ⟨out, hwrite, ?_⟩
  have hnil : ([] : List UInt8).length < 4 := by decide
  have hread := readAll_records hrecords hnil
  rw [List.append_nil] at hread
  rw [hout]
  exact hread

/-- Messages of four bytes, as they are marshalled where the length is fixed. -/
def fourBytes : Marshal (UInt8 × UInt8 × UInt8 × UInt8) where
  put := fun (b₀, b₁, b₂, b₃) => [b₀, b₁, b₂, b₃]
  get
    | b₀ :: b₁ :: b₂ :: b₃ :: rest => some ((b₀, b₁, b₂, b₃), rest)
    | _ => none
  get_put _ := rfl

/-- Two messages are read back. -/
theorem roundtrip_fourBytes :
    ∃ out, writeAll fourBytes [(1, 2, 3, 4), (5, 6, 7, 8)] {} = some out ∧
      readAll fourBytes { mIn := out.mOut } = .ok [(1, 2, 3, 4), (5, 6, 7, 8)] :=
  (roundtrip_and_damage_iff fourBytes).1 [(1, 2, 3, 4), (5, 6, 7, 8)] (by simp [fourBytes])

/-- The file of one message, cut off in the length word of the second. -/
def cutOff : List UInt8 := [0x80, 0, 0, 4, 1, 2, 3, 4, 0x80, 0]

/-- The file that was cut off is mistaken for a shorter one. -/
theorem cutOff_not_noticed :
    (∃ out, writeAll fourBytes [(1, 2, 3, 4), (5, 6, 7, 8)] {} = some out ∧ cutOff <+: out.mOut) ∧
      ¬ IsRecords fourBytes cutOff ∧
      readAll fourBytes { mIn := cutOff } = .ok [(1, 2, 3, 4)] := by
  have hread : Readable fourBytes [0x80, 0, 0, 4, 1, 2, 3, 4] (1, 2, 3, 4) :=
    ⟨0x80, 0, 0, 4, [1, 2, 3, 4], [], rfl, rfl, rfl⟩
  have htail : ([0x80, 0] : List UInt8).length < 4 := by decide
  refine ⟨⟨_, rfl, by decide⟩, ?_, ?_⟩
  · refine Unnoticed.not_isRecords
      ⟨[[0x80, 0, 0, 4, 1, 2, 3, 4]], [0x80, 0], rfl, htail, ?_, Or.inl (by decide)⟩
    intro record hmem
    exact ⟨(1, 2, 3, 4), List.mem_singleton.mp hmem ▸ hread⟩
  · exact readAll_records (.cons hread .nil) htail

end SmartCore.Util
