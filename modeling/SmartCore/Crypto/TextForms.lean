import SmartCore.Crypto.StrKey

/-!
# The texts of a key

Of the version byte only five bits are read, and of a text the characters that are not in the alphabet
are skipped. So besides the text that is written there are others that are accepted as the key: with
each value of the other three bits, and, where the text ends in a zero, without that and with a
character that is skipped somewhere. The check of the length excludes all others
(`fromStrKey_iff_isForm`).
-/

namespace SmartCore.Crypto

open SmartCore.Ledger SmartCore.Util.BaseN

/-! ## The forms of a text -/

def inAlphabet (c : Byte) : Bool := (b32_conversion_traits.decode c).isSome

/-- The last character is missing, which is a zero, and somewhere there is one that is skipped. -/
def Shifted (t s : List Byte) : Prop :=
  ∃ pre c post, s = pre ++ c :: post ∧ t = pre ++ post ++ [b32_conversion_traits.encode 0] ∧
    inAlphabet c = false ∧ c ≠ EQUAL

/-- What is decoded as the text is. -/
def IsForm (t s : List Byte) : Prop := s = t ∨ Shifted t s

variable {s t k bytes : List Byte} {vs : List ℕ} {vb : Byte} {ver : ℕ}

theorem map_filterMap (h : ∀ c ∈ s, inAlphabet c = true) :
    (s.filterMap b32_conversion_traits.decode).map b32_conversion_traits.encode = s := by
  induction s with
  | nil => rfl
  | cons c s ih =>
    obtain ⟨hc, hs⟩ := List.forall_mem_cons.mp h
    obtain ⟨v, hv⟩ := Option.isSome_iff_exists.mp hc
    rw [List.filterMap_cons_some hv, List.map_cons, ih hs, (b32_faithful c v hv).2.symm]

theorem inAlphabet_of_length (h : (s.filterMap b32_conversion_traits.decode).length = s.length) :
    ∀ c ∈ s, inAlphabet c = true := by
  rw [List.length_filterMap_eq_countP, List.countP_eq_length] at h
  exact h

/-- If all but one character are in the alphabet, that one is somewhere. -/
theorem exists_skipped (h : (s.filterMap b32_conversion_traits.decode).length + 1 = s.length) :
    ∃ pre c post, s = pre ++ c :: post ∧ inAlphabet c = false ∧
      ∀ c ∈ pre ++ post, inAlphabet c = true := by
  induction s with
  | nil => cases h
  | cons c s ih =>
    cases hc : b32_conversion_traits.decode c with
    | some v =>
      rw [List.filterMap_cons_some hc, List.length_cons, List.length_cons] at h
      obtain ⟨pre, c', post, rfl, hc', hall⟩ := ih (by omega)
      refine ⟨c :: pre, c', post, rfl, hc', List.forall_mem_cons.mpr ⟨?_, hall⟩⟩
      rw [inAlphabet, hc]
      rfl
    | none =>
      rw [List.filterMap_cons_none hc, List.length_cons] at h
      exact ⟨[], c, s, rfl, by rw [inAlphabet, hc]; rfl, inAlphabet_of_length (Nat.succ_inj.mp h)⟩

theorem decode_b32_eq (s : List Byte) :
    decode_b32 s = decodeLoop b32_conversion_traits
      ((s.filterMap b32_conversion_traits.decode).map b32_conversion_traits.encode) 0 0
      (s.count EQUAL) := by
  unfold decode_b32 decode
  rw [decodeLoop_skip b32_faithful s, Nat.zero_add]

theorem filterMap_skipped {pre post : List Byte} {c : Byte} (hc : inAlphabet c = false) :
    (pre ++ c :: post).filterMap b32_conversion_traits.decode =
      (pre ++ post).filterMap b32_conversion_traits.decode := by
  have hnone : b32_conversion_traits.decode c = none := by simpa [inAlphabet] using hc
  rw [List.filterMap_append, List.filterMap_append, List.filterMap_cons_none hnone]

theorem length_add_count_le (s : List Byte) :
    (s.filterMap b32_conversion_traits.decode).length + s.count EQUAL ≤ s.length := by
  induction s with
  | nil => exact le_refl 0
  | cons c s ih =>
    cases hc : b32_conversion_traits.decode c with
    | some v =>
      rw [List.filterMap_cons_some hc, List.count_cons_of_ne (b32_faithful.ne_equal hc).1,
        List.length_cons, List.length_cons]
      omega
    | none =>
      rw [List.filterMap_cons_none hc, List.length_cons, List.count_cons]
      split_ifs <;> omega

/-- Of a text of the right length, at most one character is skipped, and it is no padding. -/
theorem count_of_decode {j : ℕ} (hs : s.length = 8 * (j + 1))
    (hdecode : (decode_b32 s).length = 5 * (j + 1)) :
    (s.filterMap b32_conversion_traits.decode).length = s.length ∨
      (s.filterMap b32_conversion_traits.decode).length + 1 = s.length ∧ s.count EQUAL = 0 := by
  have hgroup : b32_conversion_traits.group_length = 5 := rfl
  have hlt : ∀ v ∈ s.filterMap b32_conversion_traits.decode,
      v < 2 ^ b32_conversion_traits.group_length := fun v hv => b32_faithful.lt_of_mem hv
  have hskipped := length_add_count_le s
  rw [decode_b32_eq, length_decodeLoop hlt (by decide), hgroup, Nat.zero_add] at hdecode
  generalize (s.filterMap b32_conversion_traits.decode).length = n at hdecode hskipped ⊢
  by_cases hall : n = s.length
  · exact Or.inl hall
  · by_cases hone : n + 1 = s.length
    · have hmod : n * 5 % 8 = 3 := by omega
      rw [hmod] at hdecode
      split_ifs at hdecode with hrest <;> omega
    · split_ifs at hdecode with hrest <;> omega

theorem inAlphabet_of_mem_encode_b32 {j : ℕ} {c : Byte} (hbytes : bytes.length = 5 * j)
    (hc : c ∈ encode_b32 bytes) : inAlphabet c = true := by
  obtain ⟨vs, heq, hvs, -⟩ := encode_b32_eq hbytes
  rw [heq] at hc
  obtain ⟨v, hv, rfl⟩ := List.mem_map.mp hc
  rw [inAlphabet, b32_conversion_traits.decode_encode v (hvs v hv)]
  rfl

/-- **The texts of some bytes**: those that are decoded as them, of the right length. -/
theorem decode_b32_iff_isForm {j : ℕ} (hbytes : bytes.length = 5 * (j + 1))
    (hs : s.length = 8 * (j + 1)) : decode_b32 s = bytes ↔ IsForm (encode_b32 bytes) s := by
  have hgroup : b32_conversion_traits.group_length = 5 := rfl
  have hlt (s : List Byte) : ∀ v ∈ s.filterMap b32_conversion_traits.decode,
      v < 2 ^ b32_conversion_traits.group_length := fun v hv => b32_faithful.lt_of_mem hv
  constructor
  · rintro rfl
    rcases count_of_decode hs hbytes with hall | ⟨hone, hpad⟩
    · -- every character is in the alphabet
      have hself := map_filterMap (inAlphabet_of_length hall)
      have hback := encode_decode_b32 (hlt s) (hall.trans hs)
      rw [hself] at hback
      exact Or.inl hback.symm
    · obtain ⟨pre, c, post, rfl, hc, hall⟩ := exists_skipped hone
      refine Or.inr ⟨pre, c, post, rfl, ?_, hc, fun heq => ?_⟩
      · rw [filterMap_skipped hc] at hone
        rw [decode_b32_eq, hpad, filterMap_skipped hc,
          ← decodeLoop_concat_zero (hlt (pre ++ post)) (by decide) (by rw [hgroup]; omega)]
        have hvs : ∀ v ∈ (pre ++ post).filterMap b32_conversion_traits.decode ++ [0], v < 2 ^ 5 := by
          intro v hv
          rcases List.mem_append.mp hv with hv | hv
          · exact hlt _ v hv
          · rw [List.mem_singleton.mp hv]
            decide
        have hback := encode_decode_b32 hvs (j := j + 1)
          (by rw [List.length_append, List.length_singleton, hone, hs])
        rw [List.map_append, map_filterMap hall] at hback
        rw [List.map_append, map_filterMap hall]
        exact hback
      · rw [heq] at hpad
        simp at hpad
  · rintro (rfl | ⟨pre, c, post, rfl, htext, hc, hne⟩)
    · exact decode_encode _ _
    · have hall : ∀ c ∈ pre ++ post ++ [b32_conversion_traits.encode 0], inAlphabet c = true := by
        rw [← htext]
        exact fun c hc => inAlphabet_of_mem_encode_b32 hbytes hc
      have hall' : ∀ c ∈ pre ++ post, inAlphabet c = true := fun c hc =>
        hall c (List.mem_append_left _ hc)
      have hpad : (pre ++ c :: post).count EQUAL = 0 := by
        rw [List.count_eq_zero]
        intro hmem
        rcases List.mem_append.mp hmem with hmem | hmem
        · exact absurd (hall' _ (List.mem_append_left _ hmem)) (by decide)
        · rcases List.mem_cons.mp hmem with heq | hmem
          · exact hne heq.symm
          · exact absurd (hall' _ (List.mem_append_right _ hmem)) (by decide)
      have hcount : ((pre ++ post).filterMap b32_conversion_traits.decode).length + 1 =
          8 * (j + 1) := by
        have hmap := congrArg List.length (map_filterMap hall')
        rw [List.length_map] at hmap
        simp only [List.length_append, List.length_cons] at hs hmap
        omega
      rw [decode_b32_eq, hpad, filterMap_skipped hc,
        ← decodeLoop_concat_zero (hlt (pre ++ post)) (by decide) (by rw [hgroup]; omega),
        List.map_append, map_filterMap hall']
      have hdecode : decode_b32 (encode_b32 bytes) = bytes := decode_encode _ _
      rw [htext] at hdecode
      exact hdecode

/-! ## Keys -/

/-- The text of a key, with a version byte that may have any low bits. -/
def keyText (vb : Byte) (k : List Byte) : List Byte :=
  encode_b32 (vb :: k ++ lowHigh (crc16 (vb :: k)))

theorem toStrKey_eq (ver : ℕ) (k : List Byte) :
    toStrKey ver k = keyText (Fin.ofNat 256 (ver <<< 3)) k := rfl

theorem lowHigh_mk (high low : Byte) : lowHigh (high.val <<< 8 ||| low.val) = [low, high] := by
  have hlow := low.isLt
  have hhigh := high.isLt
  have hsum : high.val <<< 8 ||| low.val = high.val * 2 ^ 8 + low.val := by
    rw [← Nat.shiftLeft_add_eq_or_of_lt hlow, Nat.shiftLeft_eq]
  have hdiv : (high.val * 2 ^ 8 + low.val) >>> 8 = high.val := by
    rw [Nat.shiftRight_eq_div_pow]
    omega
  unfold lowHigh
  rw [hsum, hdiv, Nat.and_two_pow_sub_one_eq_mod _ 8, Nat.and_two_pow_sub_one_eq_mod _ 8,
    Nat.mod_eq_of_lt hhigh, ofNat_val, show (high.val * 2 ^ 8 + low.val) % 2 ^ 8 = low.val by omega,
    ofNat_val]

/-- The version is read from the upper five bits. -/
theorem fromStrKey_iff : fromStrKey s = some (ver, k) ↔
    ∃ vb : Byte, vb.val >>> 3 = ver ∧ decode_b32 s = vb :: k ++ lowHigh (crc16 (vb :: k)) := by
  constructor
  · intro h
    unfold fromStrKey at h
    split at h
    · rename_i high low decoded hrev
      split at h
      · cases h
      · rename_i vb bin hdecoded
        split_ifs at h with hcrc
        obtain ⟨rfl, rfl⟩ := Prod.mk.inj (Option.some.inj h)
        refine ⟨vb, rfl, ?_⟩
        rw [not_not.mp hcrc, lowHigh_mk, ← hdecoded, ← List.reverse_reverse (decode_b32 s), hrev]
        simp
    · cases h
  · rintro ⟨vb, rfl, hdecode⟩
    have hcrc := lowHigh_or (crc16_lt (vb :: k))
    unfold fromStrKey
    rw [hdecode]
    unfold lowHigh
    generalize Fin.ofNat 256 (crc16 (vb :: k) >>> 8 &&& 0xFF) = high at hcrc ⊢
    generalize Fin.ofNat 256 (crc16 (vb :: k) &&& 0xFF) = low at hcrc ⊢
    simp [hcrc]

/-- **What is accepted as a key of 32 bytes.** -/
theorem fromStrKey_iff_isForm (hk : k.length = 32) :
    fromStrKey s = some (ver, k) ∧ s.length = getStrKeySize 32 ↔
      ∃ vb : Byte, vb.val >>> 3 = ver ∧ IsForm (keyText vb k) s := by
  have hbytes (vb : Byte) : (vb :: k ++ lowHigh (crc16 (vb :: k))).length = 5 * (6 + 1) := by
    rw [List.length_append, List.length_cons, hk]
    rfl
  have hlength {vb : Byte} (h : IsForm (keyText vb k) s) : s.length = 8 * (6 + 1) := by
    have htext := length_encode_b32 (vb :: k ++ lowHigh (crc16 (vb :: k)))
    rw [hbytes vb] at htext
    rcases h with rfl | ⟨pre, c, post, rfl, ht, -⟩
    · exact htext
    · rw [← keyText, ht] at htext
      simp only [List.length_append, List.length_cons, List.length_nil] at htext ⊢
      exact htext
  rw [fromStrKey_iff]
  constructor
  · rintro ⟨⟨vb, hver, hdecode⟩, hs⟩
    exact ⟨vb, hver, (decode_b32_iff_isForm (hbytes vb) hs).mp hdecode⟩
  · rintro ⟨vb, hver, hform⟩
    have hs := hlength hform
    exact ⟨⟨vb, hver, (decode_b32_iff_isForm (hbytes vb) hs).mpr hform⟩, hs⟩

namespace PubKeyUtils

theorem fromStrKey_iff_isForm {pk : AccountID} : fromStrKey s = some pk ↔
    IsPublicKey pk ∧ ∃ vb : Byte, vb.val >>> 3 = STRKEY_PUBKEY_ED25519 ∧
      IsForm (keyText vb (ed25519 pk)) s := by
  rw [← Crypto.fromStrKey_iff_isForm (length_ed25519 pk)]
  constructor
  · intro h
    unfold fromStrKey at h
    split at h
    · cases h
    · rename_i ver k hkey
      split_ifs at h with hver hlen hsize
      obtain ⟨⟨n, rest⟩, hnat, rfl⟩ := Option.map_eq_some_iff.mp h
      have hlt := Format.lt_of_getNat hnat
      have hput := Format.putNat_of_getNat hnat
      obtain rfl : rest = [] := by
        have hlength := congrArg List.length hput
        rw [List.length_append, not_not.mp hlen] at hlength
        have := length_ed25519 n
        unfold ed25519 at this
        exact List.eq_nil_of_length_eq_zero (by omega)
      rw [List.append_nil] at hput
      refine ⟨by rw [Nat.zero_add, Nat.one_mul] at hlt; exact hlt, ?_, not_not.mp hsize⟩
      rw [hkey, not_not.mp hver, ed25519, hput]
  · rintro ⟨hpk, hkey, hsize⟩
    have hnat := Format.getNat_putNat crypto_sign_PUBLICKEYBYTES pk 0 []
    rw [List.append_nil, Nat.mod_eq_of_lt hpk, Nat.zero_mul, Nat.zero_add] at hnat
    unfold fromStrKey
    rw [hkey]
    dsimp only
    rw [if_neg (by simp), length_ed25519, if_neg (by simp), hsize, if_neg (by decide), ed25519, hnat]
    rfl

end PubKeyUtils

/-- The version of seeds. -/
def STRKEY_SEED_ED25519 : ℕ := 18

def crypto_sign_SEEDBYTES : ℕ := 32

namespace SecretKey

-- the secret key of a seed, and the seed of a secret key; `none` is an error
variable (crypto_sign_seed_keypair crypto_sign_ed25519_sk_to_seed : List Byte → Option (List Byte))

/-- `none` for an exception. -/
def fromStrKeySeed (strKeySeed : XString) : Option (List Byte) :=
  match Crypto.fromStrKey strKeySeed with
  | none => none
  | some (ver, seed) =>
    if ver ≠ STRKEY_SEED_ED25519 then none
    else if seed.length ≠ crypto_sign_SEEDBYTES then none
    else if strKeySeed.length ≠ getStrKeySize crypto_sign_SEEDBYTES then none
    else crypto_sign_seed_keypair seed

def getStrKeySeed (mSecretKey : List Byte) : Option XString :=
  (crypto_sign_ed25519_sk_to_seed mSecretKey).map (toStrKey STRKEY_SEED_ED25519)

variable {crypto_sign_seed_keypair} {mSecretKey : List Byte}

theorem fromStrKeySeed_iff : fromStrKeySeed crypto_sign_seed_keypair s = some mSecretKey ↔
    ∃ seed : List Byte, seed.length = crypto_sign_SEEDBYTES ∧
      crypto_sign_seed_keypair seed = some mSecretKey ∧
      ∃ vb : Byte, vb.val >>> 3 = STRKEY_SEED_ED25519 ∧ IsForm (keyText vb seed) s := by
  constructor
  · intro h
    unfold fromStrKeySeed at h
    split at h
    · cases h
    · rename_i ver seed hkey
      split_ifs at h with hver hlen hsize
      have hlen := not_not.mp hlen
      obtain rfl := not_not.mp hver
      exact ⟨seed, hlen, h, (fromStrKey_iff_isForm hlen).mp ⟨hkey, not_not.mp hsize⟩⟩
  · rintro ⟨seed, hlen, hpair, hform⟩
    obtain ⟨hkey, hsize⟩ := (fromStrKey_iff_isForm hlen).mpr hform
    unfold fromStrKeySeed
    rw [hkey]
    dsimp only
    rw [if_neg (by simp), if_neg (by simp [hlen]), hsize, if_neg (by decide), hpair]

end SecretKey

/-- **The texts of keys.** What is written is read back. What is accepted as a public key or as a seed
is, but for the three low bits of the version byte, the text that is written for it, or that text
shifted; and what is written has zeros there. -/
theorem texts_of_keys :
    (∀ ver < 2 ^ 5, ∀ bin : List Byte, fromStrKey (toStrKey ver bin) = some (ver, bin)) ∧
    (∀ (ver : ℕ) (bin : List Byte), toStrKey ver bin = keyText (Fin.ofNat 256 (ver <<< 3)) bin) ∧
    (∀ (s : XString) (pk : AccountID), PubKeyUtils.fromStrKey s = some pk ↔
      PubKeyUtils.IsPublicKey pk ∧ ∃ vb : Byte, vb.val >>> 3 = STRKEY_PUBKEY_ED25519 ∧
        IsForm (keyText vb (PubKeyUtils.ed25519 pk)) s) ∧
    (∀ keypair to_seed : List Byte → Option (List Byte),
      (∀ seed sk, keypair seed = some sk → to_seed sk = some seed) →
      ∀ (s : XString) (sk : List Byte), SecretKey.fromStrKeySeed keypair s = some sk ↔
        ∃ seed : List Byte, seed.length = crypto_sign_SEEDBYTES ∧ keypair seed = some sk ∧
          to_seed sk = some seed ∧
          SecretKey.getStrKeySeed to_seed sk = some (toStrKey STRKEY_SEED_ED25519 seed) ∧
          ∃ vb : Byte, vb.val >>> 3 = STRKEY_SEED_ED25519 ∧ IsForm (keyText vb seed) s) := by
  refine ⟨fun ver h bin => fromStrKey_toStrKey h bin, fun ver bin => toStrKey_eq ver bin,
    fun s pk => PubKeyUtils.fromStrKey_iff_isForm, fun keypair to_seed hseed s sk => ?_⟩
  rw [SecretKey.fromStrKeySeed_iff]
  refine exists_congr fun seed => and_congr_right fun _ => and_congr_right fun hpair => ?_
  have hto := hseed seed sk hpair
  have hwritten : SecretKey.getStrKeySeed to_seed sk = some (toStrKey STRKEY_SEED_ED25519 seed) := by
    rw [SecretKey.getStrKeySeed, hto]
    rfl
  exact ⟨fun hform => ⟨hto, hwritten, hform⟩, fun h => h.2.2⟩

/-- A seed, and its public key. -/
def someSeed : List Byte :=
  [157, 97, 177, 157, 239, 253, 90, 96, 186, 132, 74, 244, 146, 236, 44, 196, 68, 73, 197, 105, 123,
    50, 105, 25, 112, 59, 172, 3, 28, 174, 127, 96]

def somePublicKey : List Byte :=
  [215, 90, 152, 1, 130, 177, 10, 183, 213, 75, 254, 211, 201, 100, 7, 58, 14, 225, 114, 243, 218,
    166, 35, 37, 175, 2, 26, 104, 247, 7, 81, 26]

/-- A secret key is the seed and the public key. -/
def someKeypair (seed : List Byte) : Option (List Byte) :=
  if seed = someSeed then some (seed ++ somePublicKey) else none

theorem texts_of_keys_example :
    fromStrKey (toStrKey 2 [1, 2, 3]) = some (2, [1, 2, 3]) ∧
      PubKeyUtils.fromStrKey (keyText 0x30 (PubKeyUtils.ed25519 40)) = some 40 ∧
      SecretKey.fromStrKeySeed someKeypair (toStrKey STRKEY_SEED_ED25519 someSeed) =
        some (someSeed ++ somePublicKey) := by
  have hseed : ∀ seed sk, someKeypair seed = some sk → some (sk.take 32) = some seed := by
    intro seed sk h
    unfold someKeypair at h
    split_ifs at h with heq
    obtain rfl := Option.some.inj h
    subst heq
    rfl
  obtain ⟨hread, hwritten, hpublic, hsecret⟩ := texts_of_keys
  refine ⟨hread 2 (by decide) [1, 2, 3], (hpublic _ 40).mpr ⟨by decide, 0x30, by decide, Or.inl rfl⟩,
    (hsecret someKeypair (fun sk => some (sk.take 32)) hseed _ _).mpr ?_⟩
  exact ⟨someSeed, rfl, if_pos rfl, rfl, rfl, Fin.ofNat 256 (STRKEY_SEED_ED25519 <<< 3), by decide,
    Or.inl (hwritten _ _)⟩

/-- `GEAA..AABBDI` is accepted as the key 0, which is written `GAAA..AAAWHF`, and ` GAA..AACQMS` as the
key 40, which is written `GAA..AACQMSA`. -/
theorem texts_of_keys_not_unique :
    PubKeyUtils.fromStrKey ([71, 69] ++ List.replicate 50 65 ++ [66, 66, 68, 73]) = some 0 ∧
      [71, 69] ++ List.replicate 50 65 ++ [66, 66, 68, 73] ≠ PubKeyUtils.toStrKey 0 ∧
    PubKeyUtils.fromStrKey ([32, 71] ++ List.replicate 50 65 ++ [67, 81, 77, 83]) = some 40 ∧
      [32, 71] ++ List.replicate 50 65 ++ [67, 81, 77, 83] ≠ PubKeyUtils.toStrKey 40 := by
  have hdecode (pk : AccountID) : decode_b32 (PubKeyUtils.toStrKey pk) = _ := decode_encode _ _
  refine ⟨by decide +kernel, fun heq => ?_, by decide +kernel, fun heq => ?_⟩
  · -- the version byte
    have hversion := hdecode 0
    rw [← heq] at hversion
    exact absurd (congrArg List.head? hversion) (by decide +kernel)
  · -- the blank
    have hmem : (32 : Byte) ∈ PubKeyUtils.toStrKey 40 := by
      rw [← heq]
      exact List.mem_cons_self
    exact absurd (inAlphabet_of_mem_encode_b32 (j := 7) (by decide) hmem) (by decide)

end SmartCore.Crypto
