import SmartCore.Lib.Xdr
import Mathlib.Data.Fintype.BigOperators
import Mathlib.Data.Nat.Bitwise

/-!
# Base-n encodings

`basen.h`: bytes as text, a character for each group of bits. The encoder walks over the bits of
the bytes; a group that crosses the border of a byte takes the first bits of the next. The decoder
collects bits in a buffer. Run on what the encoder writes, its buffer holds at every group what the
encoder has passed of the byte it is in (`decode_encode`).
-/

namespace SmartCore.Util.BaseN

def isspace (c : Byte) : Bool := c.val = 32 ∨ (9 ≤ c.val ∧ c.val ≤ 13)

/-- `=` -/
def EQUAL : Byte := 61

/-- The characters of the groups of bits. -/
structure ConversionTraits where
  group_length : ℕ
  encode : ℕ → Byte
  decode : Byte → Option ℕ
  pos : 0 < group_length
  lt : group_length < 8
  decode_encode : ∀ v < 2 ^ group_length, decode (encode v) = some v
  encode_ne : ∀ v < 2 ^ group_length, encode v ≠ EQUAL ∧ isspace (encode v) = false

/-! ## The groups of bits -/

def extract_partial_bits (value start_bit bits_count : ℕ) : ℕ :=
  (value >>> (8 - bits_count - start_bit)) &&& (2 ^ bits_count - 1)

def extract_overlapping_bits (previous next start_bit bits_count : ℕ) : ℕ :=
  let bits_count_in_previous := 8 - start_bit
  let bits_count_in_next := bits_count - bits_count_in_previous
  let t1 := (previous <<< bits_count_in_next) &&& 0xFF
  let t2 := (next >>> (8 - bits_count_in_next)) &&& (2 ^ bits_count_in_next - 1)
  (t1 ||| t2) &&& (2 ^ bits_count - 1)

/-- The first `k` bits of a byte, where they are. -/
def top (k value : ℕ) : ℕ := (value >>> (8 - k)) <<< (8 - k)

theorem testBit_0xFF (i : ℕ) : (0xFF : ℕ).testBit i = decide (i < 8) :=
  Nat.testBit_two_pow_sub_one 8 i

theorem testBit_byte (b : Byte) {i : ℕ} (h : 8 ≤ i) : b.val.testBit i = false :=
  Nat.testBit_lt_two_pow (b.isLt.trans_le (Nat.pow_le_pow_right Nat.two_pos h))

theorem testBit_top (k i : ℕ) (b : Byte) :
    (top k b).testBit i = (decide (8 - k ≤ i) && b.val.testBit i) := by
  unfold top
  rw [Nat.testBit_shiftLeft, Nat.testBit_shiftRight]
  by_cases h : 8 - k ≤ i
  · rw [Nat.add_sub_cancel' h]
  · simp [h]

theorem top_zero (b : Byte) : top 0 b = 0 := by
  apply Nat.eq_of_testBit_eq
  intro i
  rw [testBit_top, Nat.zero_testBit]
  by_cases h : 8 ≤ i
  · simp [testBit_byte b h]
  · simp [h]

section Groups

variable (b n : Byte) {s g i : ℕ}

theorem testBit_partialBits (h : s + g < 8) :
    (extract_partial_bits b s g).testBit i =
      (decide (i < g) && b.val.testBit (i + (8 - (s + g)))) := by
  unfold extract_partial_bits
  rw [Nat.testBit_and, Nat.testBit_shiftRight, Nat.testBit_two_pow_sub_one, Bool.and_comm]
  congr 2
  omega

/-- The bits of two bytes in a row, from the bit `s` of the first. -/
theorem testBit_overlapping (hs : s < 8) (hg : g < 8) (h : 8 ≤ s + g) :
    (extract_overlapping_bits b n s g).testBit i = (decide (i < g) &&
      if s + g - 8 ≤ i then b.val.testBit (i - (s + g - 8))
      else n.val.testBit (i + (8 - (s + g - 8)))) := by
  have hnext : g - (8 - s) = s + g - 8 := by omega
  unfold extract_overlapping_bits
  simp only [hnext, Nat.testBit_and, Nat.testBit_or, Nat.testBit_shiftLeft, testBit_0xFF,
    Nat.testBit_shiftRight, Nat.testBit_two_pow_sub_one]
  by_cases hi : i < g
  · by_cases hle : s + g - 8 ≤ i
    · have hlt : ¬ i < s + g - 8 := by omega
      have h8 : i < 8 := by omega
      simp [hi, hle, hlt, h8]
    · have hlt : i < s + g - 8 := by omega
      simp [hi, hle, hlt, Nat.add_comm]
  · simp [hi]

theorem lt_two_pow_of_testBit {v : ℕ} (h : ∀ i, g ≤ i → v.testBit i = false) : v < 2 ^ g :=
  Nat.lt_pow_two_of_testBit v fun i hi => h i hi

theorem partial_lt (h : s + g < 8) : extract_partial_bits b s g < 2 ^ g := by
  refine lt_two_pow_of_testBit fun i hi => ?_
  rw [testBit_partialBits b h]
  simp [hi]

theorem overlapping_lt (hs : s < 8) (hg : g < 8) (h : 8 ≤ s + g) :
    extract_overlapping_bits b n s g < 2 ^ g := by
  refine lt_two_pow_of_testBit fun i hi => ?_
  rw [testBit_overlapping b n hs hg h]
  simp [hi]

theorem top_or_partialBits (h : s + g < 8) :
    top s b ||| (extract_partial_bits b s g <<< (8 - s - g) &&& 0xFF) = top (s + g) b := by
  apply Nat.eq_of_testBit_eq
  intro i
  rw [Nat.testBit_or, Nat.testBit_and, testBit_0xFF, Nat.testBit_shiftLeft, testBit_partialBits b h,
    testBit_top, testBit_top]
  by_cases h₁ : 8 - s ≤ i
  · have h₂ : 8 - (s + g) ≤ i := by omega
    have h₃ : ¬ i - (8 - s - g) < g := by omega
    simp [h₁, h₂, h₃]
  · by_cases h₂ : 8 - (s + g) ≤ i
    · have h₃ : i - (8 - s - g) + (8 - (s + g)) = i := by omega
      have h₄ : 8 - s - g ≤ i ∧ i - (8 - s - g) < g ∧ i < 8 := by omega
      simp [h₁, h₂, h₃, h₄]
    · have h₃ : ¬ 8 - s - g ≤ i := by omega
      simp [h₁, h₂, h₃]

/-- The rest of a byte completes it. -/
theorem top_or_overlapping (hs : s < 8) (hg : g < 8) (h : 8 ≤ s + g) :
    top s b ||| (extract_overlapping_bits b n s g >>> (s + g - 8)) = b.val := by
  apply Nat.eq_of_testBit_eq
  intro i
  rw [Nat.testBit_or, Nat.testBit_shiftRight, testBit_overlapping b n hs hg h, testBit_top]
  have h₁ : s + g - 8 ≤ s + g - 8 + i := by omega
  have h₂ : s + g - 8 + i - (s + g - 8) = i := by omega
  rw [if_pos h₁, h₂]
  by_cases h₃ : 8 - s ≤ i
  · simp [h₃]
  · have h₄ : s + g - 8 + i < g := by omega
    simp [h₃, h₄]

/-- What a group has of the next byte. -/
theorem overlapping_top (hs : s < 8) (hg : g < 8) (h : 8 ≤ s + g) :
    (extract_overlapping_bits b n s g <<< (8 - (s + g - 8))) &&& 0xFF = top (s + g - 8) n := by
  apply Nat.eq_of_testBit_eq
  intro i
  rw [Nat.testBit_and, testBit_0xFF, Nat.testBit_shiftLeft, testBit_overlapping b n hs hg h,
    testBit_top]
  by_cases h₁ : 8 - (s + g - 8) ≤ i
  · by_cases h₂ : i < 8
    · have h₃ : i - (8 - (s + g - 8)) < g ∧ ¬ s + g - 8 ≤ i - (8 - (s + g - 8)) := by omega
      have h₄ : i - (8 - (s + g - 8)) + (8 - (s + g - 8)) = i := by omega
      simp [h₁, h₂, h₃, h₄]
    · simp [h₂, testBit_byte n (Nat.le_of_not_lt h₂)]
  · simp [h₁]

end Groups

/-! ## Encoding -/

section Encode

variable (T : ConversionTraits)

/-- `while (start_bit != 0)`, eight times at most: by then the start is at the border of a byte. -/
def pad : ℕ → ℕ → List Byte
  | 0, _ => []
  | n + 1, start_bit =>
    if start_bit ≠ 0 then EQUAL :: pad n ((start_bit + T.group_length) % 8) else []

/-- The loop of `encode`; the third argument is the backlog. -/
def encodeLoop : List Byte → ℕ → Option Byte → List Byte
  | iter, start_bit, some backlog =>
    let v := extract_overlapping_bits backlog (iter.headD 0).val start_bit T.group_length
    T.encode v :: encodeLoop iter ((start_bit + T.group_length) % 8) none
  | [], start_bit, none => pad T 8 start_bit
  | b :: iter, start_bit, none =>
    if start_bit + T.group_length < 8 then
      -- the value fits within single byte
      T.encode (extract_partial_bits b start_bit T.group_length) ::
        encodeLoop (b :: iter) (start_bit + T.group_length) none
    else encodeLoop iter start_bit (some b)
termination_by iter start_bit backlog =>
  (2 * iter.length + if backlog.isSome then 1 else 0, 8 - start_bit)
decreasing_by
  · simp [Prod.lex_def]
  · have := T.pos
    simp [Prod.lex_def]
    omega
  · simp [Prod.lex_def]
    omega

def encode (bytes : List Byte) : List Byte := encodeLoop T bytes 0 none

end Encode

/-! ## Decoding -/

section Decode

variable (T : ConversionTraits)

/-- The loop of `decode`, and the truncated data after it. -/
def decodeLoop : List Byte → ℕ → ℕ → ℕ → List Byte
  | [], output_current_bit, buffer, trailing_equal =>
    let trailing_bits := trailing_equal * T.group_length + output_current_bit
    if output_current_bit ≠ 0 ∧ trailing_bits &&& 7 ≠ 0 then [Fin.ofNat 256 buffer] else []
  | c :: iter, output_current_bit, buffer, trailing_equal =>
    if c = EQUAL then decodeLoop iter output_current_bit buffer (trailing_equal + 1)
    else if isspace c then decodeLoop iter output_current_bit buffer trailing_equal
    else
      match T.decode c with
      | none =>
        -- malformed data, but let's go on
        decodeLoop iter output_current_bit buffer trailing_equal
      | some value =>
        let bits_in_current_byte :=
          min (output_current_bit + T.group_length) 8 - output_current_bit
        if bits_in_current_byte = T.group_length then
          let buffer :=
            buffer ||| (value <<< (8 - output_current_bit - T.group_length) &&& 0xFF)
          let output_current_bit := output_current_bit + T.group_length
          if output_current_bit = 8 then Fin.ofNat 256 buffer :: decodeLoop iter 0 0 trailing_equal
          else decodeLoop iter output_current_bit buffer trailing_equal
        else
          let bits_in_next_byte := T.group_length - bits_in_current_byte
          let buffer := buffer ||| (value >>> bits_in_next_byte)
          Fin.ofNat 256 buffer :: decodeLoop iter bits_in_next_byte
            (value <<< (8 - bits_in_next_byte) &&& 0xFF) trailing_equal

def decode (text : List Byte) : List Byte := decodeLoop T text 0 0 0

end Decode

/-! ## The round trip -/

section RoundTrip

variable (T : ConversionTraits)

/-- A character of the alphabet is decoded. -/
theorem decodeLoop_encode {v : ℕ} (hv : v < 2 ^ T.group_length) (iter : List Byte)
    (cur buffer trailing : ℕ) :
    decodeLoop T (T.encode v :: iter) cur buffer trailing =
      if cur + T.group_length < 8 then
        decodeLoop T iter (cur + T.group_length)
          (buffer ||| (v <<< (8 - cur - T.group_length) &&& 0xFF)) trailing
      else if cur + T.group_length = 8 then
        Fin.ofNat 256 (buffer ||| (v <<< (8 - cur - T.group_length) &&& 0xFF)) ::
          decodeLoop T iter 0 0 trailing
      else
        Fin.ofNat 256 (buffer ||| (v >>> (T.group_length - (8 - cur)))) ::
          decodeLoop T iter (T.group_length - (8 - cur))
            (v <<< (8 - (T.group_length - (8 - cur))) &&& 0xFF) trailing := by
  obtain ⟨hequal, hspace⟩ := T.encode_ne v hv
  have hpos := T.pos
  rw [decodeLoop, if_neg hequal, hspace, if_neg Bool.false_ne_true, T.decode_encode v hv]
  dsimp only
  by_cases hlt : cur + T.group_length < 8
  · have hmin : min (cur + T.group_length) 8 - cur = T.group_length := by omega
    have hne : cur + T.group_length ≠ 8 := hlt.ne
    rw [if_pos hlt, if_pos hmin, if_neg hne]
  · by_cases heq : cur + T.group_length = 8
    · have hmin : min (cur + T.group_length) 8 - cur = T.group_length := by omega
      rw [if_neg hlt, if_pos heq, if_pos hmin, if_pos heq]
    · have hmin : min (cur + T.group_length) 8 - cur ≠ T.group_length := by omega
      have hcur : min (cur + T.group_length) 8 - cur = 8 - cur := by omega
      rw [if_neg hlt, if_neg hmin, hcur, if_neg heq]

theorem decodeLoop_replicate (k cur buffer trailing : ℕ) :
    decodeLoop T (List.replicate k EQUAL) cur buffer trailing =
      decodeLoop T [] cur buffer (trailing + k) := by
  induction k generalizing trailing with
  | zero => rfl
  | succ k ih =>
    conv_lhs => rw [List.replicate_succ, decodeLoop, if_pos rfl, ih, Nat.add_right_comm]
    rfl

/-- The padding ends where a byte ends. -/
theorem pad_eq (n s : ℕ) (hs : s < 8) (h : ∃ p < n, (s + p * T.group_length) % 8 = 0) :
    ∃ k < n, pad T n s = List.replicate k EQUAL ∧ (k * T.group_length + s) % 8 = 0 := by
  induction n generalizing s with
  | zero =>
    obtain ⟨p, hp, -⟩ := h
    omega
  | succ n ih =>
    obtain ⟨p, hp, hmod⟩ := h
    by_cases hzero : s = 0
    · subst hzero
      exact ⟨0, n.succ_pos, rfl, by simp⟩
    · cases p with
      | zero => omega
      | succ p =>
        have hp' : ((s + T.group_length) % 8 + p * T.group_length) % 8 = 0 := by
          rw [Nat.mod_add_mod, ← hmod]
          congr 1
          ring
        obtain ⟨k, hk, hpad, hk'⟩ := ih ((s + T.group_length) % 8) (Nat.mod_lt _ (by decide))
          ⟨p, Nat.lt_of_succ_lt_succ hp, hp'⟩
        refine ⟨k + 1, Nat.succ_lt_succ hk, ?_, ?_⟩
        · rw [pad, if_pos hzero, hpad, List.replicate_succ]
        · rw [Nat.add_mod_mod] at hk'
          rw [← hk']
          congr 1
          ring

/-- A number of groups starts at `s`. -/
def Aligned (s : ℕ) : Prop := ∃ m, s = m * T.group_length % 8

theorem Aligned.next {s : ℕ} (h : Aligned T s) : Aligned T ((s + T.group_length) % 8) := by
  obtain ⟨m, rfl⟩ := h
  refine ⟨m + 1, ?_⟩
  rw [Nat.mod_add_mod]
  congr 1
  ring

theorem Aligned.pad_eq {s : ℕ} (h : Aligned T s) :
    ∃ k < 8, pad T 8 s = List.replicate k EQUAL ∧ (k * T.group_length + s) % 8 = 0 := by
  obtain ⟨m, rfl⟩ := h
  refine BaseN.pad_eq T 8 _ (Nat.mod_lt _ (by decide))
    ⟨(8 - m % 8) % 8, Nat.mod_lt _ (by decide), ?_⟩
  have hm : (m + (8 - m % 8) % 8) % 8 = 0 := by omega
  rw [Nat.mod_add_mod, ← Nat.add_mul, Nat.mul_mod, hm, Nat.zero_mul, Nat.zero_mod]

theorem ofNat_val (b : Byte) : Fin.ofNat 256 b.val = b := Fin.ext (Nat.mod_eq_of_lt b.isLt)

/-- A group of the encoder that completes the byte `b`. -/
theorem decodeLoop_overlapping (b n : Byte) (iter : List Byte) {s : ℕ} (hs : s < 8)
    (h : 8 ≤ s + T.group_length) (trailing : ℕ) :
    decodeLoop T (T.encode (extract_overlapping_bits b n s T.group_length) :: iter) s (top s b)
        trailing =
      b :: decodeLoop T iter (s + T.group_length - 8) (top (s + T.group_length - 8) n)
        trailing := by
  have hbyte := top_or_overlapping b n hs T.lt h
  have hlt := overlapping_lt b n hs T.lt h
  rw [decodeLoop_encode T hlt, if_neg h.not_gt]
  by_cases heq : s + T.group_length = 8
  · have hzero : s + T.group_length - 8 = 0 := by omega
    have hsub : 8 - s - T.group_length = 0 := by omega
    have h256 : 2 ^ T.group_length ≤ 2 ^ 8 := Nat.pow_le_pow_right Nat.two_pos T.lt.le
    rw [hzero, Nat.shiftRight_zero] at hbyte
    rw [if_pos heq, hzero, top_zero, hsub, Nat.shiftLeft_zero,
      Nat.and_two_pow_sub_one_eq_mod _ 8, Nat.mod_eq_of_lt (hlt.trans_le h256), hbyte, ofNat_val]
  · have hnext : T.group_length - (8 - s) = s + T.group_length - 8 := by omega
    rw [if_neg heq, hnext, hbyte, overlapping_top b n hs T.lt h, ofNat_val]

/-- **The decoder follows the encoder**: its buffer holds the bits of the byte before `s`. -/
theorem decodeLoop_encodeLoop (bytes : List Byte) (s : ℕ) (hs : s < 8) (h : Aligned T s) :
    decodeLoop T (encodeLoop T bytes s none) s (top s (bytes.headD 0).val) 0 = bytes := by
  cases bytes with
  | nil =>
    obtain ⟨k, -, hpad, hmod⟩ := h.pad_eq
    have hand : k * T.group_length + s &&& 7 = 0 :=
      (Nat.and_two_pow_sub_one_eq_mod _ 3).trans hmod
    rw [encodeLoop, hpad, decodeLoop_replicate, decodeLoop, Nat.zero_add, hand]
    exact if_neg fun h => h.2 rfl
  | cons b iter =>
    rw [encodeLoop, List.headD_cons]
    by_cases hlt : s + T.group_length < 8
    · have hnext := h.next
      rw [Nat.mod_eq_of_lt hlt] at hnext
      have ih := decodeLoop_encodeLoop (b :: iter) (s + T.group_length) hlt hnext
      rw [if_pos hlt, decodeLoop_encode T (partial_lt b hlt), if_pos hlt, top_or_partialBits b hlt]
      exact ih
    · have hle : 8 ≤ s + T.group_length := Nat.le_of_not_lt hlt
      have hg := T.lt
      have hmod : (s + T.group_length) % 8 = s + T.group_length - 8 := by omega
      have ih := decodeLoop_encodeLoop iter (s + T.group_length - 8) (by omega) (hmod ▸ h.next)
      rw [if_neg hlt, encodeLoop, decodeLoop_overlapping T b _ _ hs hle, hmod, ih]
termination_by (bytes.length, 8 - s)
decreasing_by
  · have := T.pos
    simp [Prod.lex_def]
    omega
  · simp [Prod.lex_def]

/-- **What is encoded is decoded.** -/
theorem decode_encode (bytes : List Byte) : decode T (encode T bytes) = bytes := by
  have h := decodeLoop_encodeLoop T bytes 0 (by decide) ⟨0, by simp⟩
  rwa [top_zero] at h

/-- A text is characters of the alphabet and padding. The groups cover the bits from `s` on, and with
the padding they end where a byte ends. -/
theorem encodeLoop_eq (bytes : List Byte) (s : ℕ) (hs : s < 8) (h : Aligned T s)
    (hcover : s < 8 * bytes.length + T.group_length) :
    ∃ vs : List ℕ, ∃ k < 8, encodeLoop T bytes s none = vs.map T.encode ++ List.replicate k EQUAL ∧
      (∀ v ∈ vs, v < 2 ^ T.group_length) ∧
      8 * bytes.length ≤ s + vs.length * T.group_length ∧
      s + vs.length * T.group_length < 8 * bytes.length + T.group_length ∧
      ((vs.length + k) * T.group_length + s) % 8 = 0 := by
  cases bytes with
  | nil =>
    obtain ⟨k, hk, hpad, hmod⟩ := h.pad_eq
    refine ⟨[], k, hk, ?_, nofun, Nat.zero_le _, by simpa using hcover, by simpa using hmod⟩
    rw [encodeLoop, hpad]
    rfl
  | cons b iter =>
    rw [encodeLoop]
    by_cases hlt : s + T.group_length < 8
    · have hnext := h.next
      rw [Nat.mod_eq_of_lt hlt] at hnext
      obtain ⟨vs, k, hk, heq, hvs, hle, hgt, hmod⟩ :=
        encodeLoop_eq (b :: iter) (s + T.group_length) hlt hnext
          (by rw [List.length_cons]; omega)
      have hsucc : s + (vs.length + 1) * T.group_length =
          s + T.group_length + vs.length * T.group_length := by
        ring
      refine ⟨extract_partial_bits b s T.group_length :: vs, k, hk, ?_,
        List.forall_mem_cons.mpr ⟨partial_lt b hlt, hvs⟩, hsucc ▸ hle, hsucc ▸ hgt, ?_⟩
      · rw [if_pos hlt, heq]
        rfl
      · rw [← hmod, List.length_cons]
        congr 1
        ring
    · have hle : 8 ≤ s + T.group_length := Nat.le_of_not_lt hlt
      have hg := T.lt
      have hstart : (s + T.group_length) % 8 = s + T.group_length - 8 := by omega
      obtain ⟨vs, k, hk, heq, hvs, hcov, hgt, hmod⟩ :=
        encodeLoop_eq iter (s + T.group_length - 8) (by omega) (hstart ▸ h.next) (by omega)
      have hsucc : s + (vs.length + 1) * T.group_length =
          s + T.group_length - 8 + vs.length * T.group_length + 8 := by
        rw [Nat.succ_mul]
        omega
      refine ⟨extract_overlapping_bits b (iter.headD 0).val s T.group_length :: vs, k, hk, ?_,
        List.forall_mem_cons.mpr ⟨overlapping_lt b _ hs hg hle, hvs⟩, ?_, ?_, ?_⟩
      · rw [if_neg hlt, encodeLoop, hstart, heq]
        rfl
      · rw [List.length_cons, List.length_cons, hsucc]
        omega
      · rw [List.length_cons, List.length_cons, hsucc]
        omega
      · have hsum : (vs.length + 1 + k) * T.group_length + s =
            (vs.length + k) * T.group_length + (s + T.group_length - 8) + 8 := by
          rw [Nat.add_right_comm, Nat.succ_mul]
          omega
        rw [List.length_cons, hsum, Nat.add_mod_right, hmod]
termination_by (bytes.length, 8 - s)
decreasing_by
  · subst_vars
    have := T.pos
    simp [Prod.lex_def]
    omega
  · subst_vars
    simp [Prod.lex_def]

theorem encode_eq (bytes : List Byte) :
    ∃ vs : List ℕ, ∃ k < 8, encode T bytes = vs.map T.encode ++ List.replicate k EQUAL ∧
      (∀ v ∈ vs, v < 2 ^ T.group_length) ∧
      8 * bytes.length ≤ vs.length * T.group_length ∧
      vs.length * T.group_length < 8 * bytes.length + T.group_length ∧
      (vs.length + k) * T.group_length % 8 = 0 := by
  have hpos := T.pos
  simpa [encode] using encodeLoop_eq T bytes 0 (by decide) ⟨0, by simp⟩ (by omega)

/-- **The length of a text.** -/
theorem length_encode (bytes : List Byte) :
    ∃ m, ∃ k < 8, (encode T bytes).length = m + k ∧
      8 * bytes.length ≤ m * T.group_length ∧
      m * T.group_length < 8 * bytes.length + T.group_length ∧
      (m + k) * T.group_length % 8 = 0 := by
  obtain ⟨vs, k, hk, heq, -, hle, hlt, hmod⟩ := encode_eq T bytes
  refine ⟨vs.length, k, hk, ?_, hle, hlt, hmod⟩
  rw [heq, List.length_append, List.length_map, List.length_replicate]

end RoundTrip

/-! ## What is decoded

The decoder skips what is not in the alphabet, and looks at the padding only at the end. -/

section Text

variable (T : ConversionTraits)

/-- Only characters that stand for a group of bits are decoded, and each group has one character. -/
def Faithful : Prop := ∀ c v, T.decode c = some v → v < 2 ^ T.group_length ∧ c = T.encode v

variable {T} {c : Byte} {v cur buffer trailing : ℕ} {text : List Byte} {vs : List ℕ}

theorem Faithful.ne_equal (hT : Faithful T) (h : T.decode c = some v) :
    c ≠ EQUAL ∧ isspace c = false := by
  obtain ⟨hv, rfl⟩ := hT c v h
  exact T.encode_ne v hv

theorem Faithful.lt_of_mem (hT : Faithful T) (hv : v ∈ text.filterMap T.decode) :
    v < 2 ^ T.group_length := by
  obtain ⟨c, -, hc⟩ := List.mem_filterMap.mp hv
  exact (hT c v hc).1

theorem decodeLoop_skip (hT : Faithful T) (text : List Byte) (cur buffer trailing : ℕ) :
    decodeLoop T text cur buffer trailing =
      decodeLoop T ((text.filterMap T.decode).map T.encode) cur buffer
        (trailing + text.count EQUAL) := by
  induction text generalizing cur buffer trailing with
  | nil => rfl
  | cons c text ih =>
    cases hc : T.decode c with
    | some v =>
      obtain ⟨hv, rfl⟩ := hT c v hc
      have hne := (hT.ne_equal hc).1
      rw [List.filterMap_cons_some hc, List.map_cons, List.count_cons_of_ne hne,
        decodeLoop_encode T hv, decodeLoop_encode T hv, ih, ih, ih]
    | none =>
      rw [List.filterMap_cons_none hc, decodeLoop, hc]
      by_cases heq : c = EQUAL
      · subst heq
        rw [if_pos rfl, ih, List.count_cons_self, Nat.add_right_comm, Nat.add_assoc]
      · rw [if_neg heq, List.count_cons_of_ne heq]
        dsimp only
        rw [ih, ite_self]

/-- A group fills the byte that it is in, or it does not. -/
theorem decodeLoop_group {v : ℕ} (hv : v < 2 ^ T.group_length) {cur : ℕ} (hcur : cur < 8)
    (buffer trailing : ℕ) :
    ∃ out buffer', out.length = (cur + T.group_length) / 8 ∧ ∀ iter,
      decodeLoop T (T.encode v :: iter) cur buffer trailing =
        out ++ decodeLoop T iter ((cur + T.group_length) % 8) buffer' trailing := by
  have hg := T.lt
  have hstep iter := decodeLoop_encode T hv iter cur buffer trailing
  by_cases hlt : cur + T.group_length < 8
  · rw [Nat.div_eq_of_lt hlt, Nat.mod_eq_of_lt hlt]
    simp only [if_pos hlt] at hstep
    exact ⟨[], _, rfl, hstep⟩
  have hdiv : (cur + T.group_length) / 8 = 1 := by omega
  rw [hdiv]
  by_cases heq : cur + T.group_length = 8
  · rw [heq]
    simp only [if_neg hlt, if_pos heq] at hstep
    exact ⟨[_], 0, rfl, hstep⟩
  · have hover : (cur + T.group_length) % 8 = T.group_length - (8 - cur) := by omega
    rw [hover]
    simp only [if_neg hlt, if_neg heq] at hstep
    exact ⟨[_], _, rfl, hstep⟩

/-- The bytes that are full, and perhaps one with the rest. -/
theorem length_decodeLoop (hvs : ∀ v ∈ vs, v < 2 ^ T.group_length) (hcur : cur < 8) :
    (decodeLoop T (vs.map T.encode) cur buffer trailing).length =
      (cur + vs.length * T.group_length) / 8 +
        if (cur + vs.length * T.group_length) % 8 ≠ 0 ∧
          (trailing * T.group_length + (cur + vs.length * T.group_length) % 8) % 8 ≠ 0
        then 1 else 0 := by
  induction vs generalizing cur buffer with
  | nil =>
    have hand : ∀ n : ℕ, n &&& 7 = n % 8 := fun n => Nat.and_two_pow_sub_one_eq_mod n 3
    rw [List.map_nil, decodeLoop, List.length_nil, Nat.zero_mul, Nat.add_zero,
      Nat.mod_eq_of_lt hcur, Nat.div_eq_of_lt hcur, Nat.zero_add]
    simp only [hand]
    split_ifs <;> rfl
  | cons v vs ih =>
    obtain ⟨hv, hvs⟩ := List.forall_mem_cons.mp hvs
    obtain ⟨out, buffer', hout, hstep⟩ := decodeLoop_group hv hcur buffer trailing
    have hsucc : cur + (v :: vs).length * T.group_length =
        cur + T.group_length + vs.length * T.group_length := by
      rw [List.length_cons]
      ring
    rw [List.map_cons, hstep, List.length_append, hout, ih hvs (Nat.mod_lt _ (by decide)), hsucc,
      Nat.mod_add_mod, ← Nat.add_assoc]
    congr 1
    omega

/-- Where a byte lacks one group, the last group may be missing if it is zero. -/
theorem decodeLoop_concat_zero (hvs : ∀ v ∈ vs, v < 2 ^ T.group_length) (hcur : cur < 8)
    (hmod : (cur + vs.length * T.group_length) % 8 + T.group_length = 8) :
    decodeLoop T ((vs ++ [0]).map T.encode) cur buffer 0 =
      decodeLoop T (vs.map T.encode) cur buffer 0 := by
  induction vs generalizing cur buffer with
  | nil =>
    have hg := T.lt
    have hpos := T.pos
    rw [List.length_nil, Nat.zero_mul, Nat.add_zero, Nat.mod_eq_of_lt hcur] at hmod
    have hand : 0 * T.group_length + cur &&& 7 ≠ 0 := by
      rw [Nat.and_two_pow_sub_one_eq_mod _ 3]
      omega
    have hnil : decodeLoop T [] 0 0 0 = [] := by simp [decodeLoop]
    have hend : decodeLoop T [] cur buffer 0 = [Fin.ofNat 256 buffer] := by
      rw [decodeLoop]
      exact if_pos ⟨by omega, hand⟩
    rw [List.nil_append, List.map_cons, List.map_nil, decodeLoop_encode T (Nat.two_pow_pos _),
      if_neg (by omega), if_pos hmod, hnil, hend]
    simp
  | cons v vs ih =>
    obtain ⟨hv, hvs⟩ := List.forall_mem_cons.mp hvs
    obtain ⟨out, buffer', -, hstep⟩ := decodeLoop_group hv hcur buffer 0
    have hsucc : cur + (v :: vs).length * T.group_length =
        cur + T.group_length + vs.length * T.group_length := by
      rw [List.length_cons]
      ring
    rw [hsucc, ← Nat.mod_add_mod] at hmod
    rw [List.cons_append, List.map_cons, List.map_cons, hstep, hstep,
      ih hvs (Nat.mod_lt _ (by decide)) hmod]

end Text

/-! ## Base 32 and base 64 -/

/-- `ABCDEFGHIJKLMNOPQRSTUVWXYZ234567` -/
def dictionary32 : List Byte :=
  (List.range' 65 26 ++ List.range' 50 6).map (Fin.ofNat 256)

/-- `ABCDEFGHIJKLMNOPQRSTUVWXYZabcdefghijklmnopqrstuvwxyz0123456789+/` -/
def dictionary64 : List Byte :=
  (List.range' 65 26 ++ List.range' 97 26 ++ List.range' 48 10 ++ [43, 47]).map (Fin.ofNat 256)

def b32_conversion_traits : ConversionTraits where
  group_length := 5
  encode index := dictionary32.getD index 0
  decode c :=
    if 65 ≤ c.val ∧ c.val ≤ 90 then some (c.val - 65)
    else if 50 ≤ c.val ∧ c.val ≤ 55 then some (c.val - 50 + 26)
    else none
  pos := by decide
  lt := by decide
  decode_encode := by decide
  encode_ne := by decide

def b64_conversion_traits : ConversionTraits where
  group_length := 6
  encode index := dictionary64.getD index 0
  decode c :=
    let indexOf_a := 26
    let indexOf_0 := indexOf_a + indexOf_a
    let indexOf_Plus := indexOf_0 + 10
    if 65 ≤ c.val ∧ c.val ≤ 90 then some (c.val - 65)
    else if 97 ≤ c.val ∧ c.val ≤ 122 then some (c.val - 97 + indexOf_a)
    else if 48 ≤ c.val ∧ c.val ≤ 57 then some (c.val - 48 + indexOf_0)
    else if c.val = 43 then some (c.val - 43 + indexOf_Plus)
    else if c.val = 47 then some (c.val - 47 + indexOf_Plus + 1)
    else none
  pos := by decide
  lt := by decide
  decode_encode := by decide
  encode_ne := by decide

def encode_b32 : List Byte → List Byte := encode b32_conversion_traits
def decode_b32 : List Byte → List Byte := decode b32_conversion_traits
def encode_b64 : List Byte → List Byte := encode b64_conversion_traits
def decode_b64 : List Byte → List Byte := decode b64_conversion_traits

def encoded_size32 (rawsize : ℕ) : ℕ := (rawsize + 4) / 5 * 8

/-- A text has the size that is reserved for it. -/
theorem length_encode_b32 (bytes : List Byte) :
    (encode_b32 bytes).length = encoded_size32 bytes.length := by
  obtain ⟨m, k, hk, hlength, hle, hlt, hmod⟩ := length_encode b32_conversion_traits bytes
  have hgroup : b32_conversion_traits.group_length = 5 := rfl
  rw [hgroup] at hle hlt hmod
  unfold encode_b32 encoded_size32
  omega

theorem b32_faithful : Faithful b32_conversion_traits := by
  unfold Faithful
  decide +kernel

/-- Five bytes are eight characters. -/
theorem encode_b32_eq {bytes : List Byte} {j : ℕ} (h : bytes.length = 5 * j) :
    ∃ vs : List ℕ, encode_b32 bytes = vs.map b32_conversion_traits.encode ∧
      (∀ v ∈ vs, v < 2 ^ 5) ∧ vs.length = 8 * j := by
  obtain ⟨vs, k, hk, heq, hvs, hle, hlt, hmod⟩ := encode_eq b32_conversion_traits bytes
  have hgroup : b32_conversion_traits.group_length = 5 := rfl
  rw [hgroup] at hvs hle hlt hmod
  obtain rfl : k = 0 := by omega
  exact ⟨vs, by rw [encode_b32, heq, List.replicate_zero, List.append_nil], hvs, by omega⟩

/-- The values of a text of eight times as many characters, decoded. -/
def decodeValues (j : ℕ) (vs : List.Vector (Fin 32) (8 * j)) : List.Vector Byte (5 * j) :=
  ⟨decode_b32 ((vs.1.map Fin.val).map b32_conversion_traits.encode), by
    have hvs : ∀ v ∈ vs.1.map Fin.val, v < 2 ^ b32_conversion_traits.group_length := by
      intro v hv
      obtain ⟨i, -, rfl⟩ := List.mem_map.mp hv
      exact i.isLt
    have hgroup : b32_conversion_traits.group_length = 5 := rfl
    unfold decode_b32 decode
    rw [length_decodeLoop hvs (by decide), List.length_map, vs.2, hgroup, if_neg (by omega)]
    omega⟩

/-- There are as many texts as bytes, and all bytes have a text. -/
theorem decodeValues_injective (j : ℕ) : Function.Injective (decodeValues j) := by
  have hcard : Fintype.card (List.Vector (Fin 32) (8 * j)) =
      Fintype.card (List.Vector Byte (5 * j)) := by
    rw [card_vector, card_vector, Fintype.card_fin, Fintype.card_fin,
      show 32 = 2 ^ 5 from rfl, show 256 = 2 ^ 8 from rfl, ← pow_mul, ← pow_mul]
    congr 1
    ring
  refine ((Fintype.bijective_iff_surjective_and_card _).mpr ⟨fun bytes => ?_, hcard⟩).1
  obtain ⟨vs, heq, hvs, hlength⟩ := encode_b32_eq bytes.2
  refine ⟨⟨vs.pmap Fin.mk hvs, by rw [List.length_pmap, hlength]⟩, Subtype.ext ?_⟩
  show decode_b32 (((vs.pmap Fin.mk hvs).map Fin.val).map b32_conversion_traits.encode) = bytes.1
  rw [List.map_pmap, List.pmap_eq_map, List.map_id', ← heq]
  exact decode_encode _ _

/-- A text without padding is what its bytes are encoded as. -/
theorem encode_decode_b32 {vs : List ℕ} {j : ℕ} (hvs : ∀ v ∈ vs, v < 2 ^ 5)
    (hlength : vs.length = 8 * j) :
    encode_b32 (decode_b32 (vs.map b32_conversion_traits.encode)) =
      vs.map b32_conversion_traits.encode := by
  have hval (ws : List ℕ) (hws : ∀ v ∈ ws, v < 2 ^ 5) : (ws.pmap Fin.mk hws).map Fin.val = ws := by
    rw [List.map_pmap, List.pmap_eq_map, List.map_id']
  let x : List.Vector (Fin 32) (8 * j) :=
    ⟨vs.pmap Fin.mk hvs, by rw [List.length_pmap, hlength]⟩
  have hx : (decodeValues j x).1 = decode_b32 (vs.map b32_conversion_traits.encode) := by
    show decode_b32 (((vs.pmap Fin.mk hvs).map Fin.val).map _) = _
    rw [hval]
  obtain ⟨ws, heq, hws, hlength'⟩ := encode_b32_eq (decodeValues j x).2
  let y : List.Vector (Fin 32) (8 * j) :=
    ⟨ws.pmap Fin.mk hws, by rw [List.length_pmap, hlength']⟩
  have hy : decodeValues j y = decodeValues j x := by
    refine Subtype.ext ?_
    show decode_b32 (((ws.pmap Fin.mk hws).map Fin.val).map _) = _
    rw [hval, ← heq]
    exact decode_encode _ _
  have hvals := congrArg (fun z : List.Vector (Fin 32) (8 * j) => z.1.map Fin.val)
    (decodeValues_injective j hy)
  have hwv : ws = vs := by
    rw [← hval ws hws, ← hval vs hvs]
    exact hvals
  rw [← hx, heq, hwv]

/-- Padding, and the rest of the last byte. -/
example : encode_b64 [77, 97] = [84, 87, 69, 61] := by
  simp [encode_b64, encode, encodeLoop, b64_conversion_traits, extract_partial_bits,
    extract_overlapping_bits, pad]
  decide

end SmartCore.Util.BaseN
