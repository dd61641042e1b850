import SmartCore.Ledger.Entries
import SmartCore.Util.BaseN

/-!
# Keys as text

`StrKey.cpp`: a version byte, the key and a checksum, in base 32. `PubKeyUtils` writes public keys
as text so, and the tables of the ledger hold that text. A public key is read back from its text
(`PubKeyUtils.fromStrKey_toStrKey`).
-/

namespace SmartCore.Crypto

open SmartCore.Ledger SmartCore.Util.BaseN

/-! ## The checksum -/

def crc16tab : List ℕ :=
   [0x0000, 0x1021, 0x2042, 0x3063, 0x4084, 0x50a5, 0x60c6, 0x70e7,
    0x8108, 0x9129, 0xa14a, 0xb16b, 0xc18c, 0xd1ad, 0xe1ce, 0xf1ef,
    0x1231, 0x0210, 0x3273, 0x2252, 0x52b5, 0x4294, 0x72f7, 0x62d6,
    0x9339, 0x8318, 0xb37b, 0xa35a, 0xd3bd, 0xc39c, 0xf3ff, 0xe3de,
    0x2462, 0x3443, 0x0420, 0x1401, 0x64e6, 0x74c7, 0x44a4, 0x5485,
    0xa56a, 0xb54b, 0x8528, 0x9509, 0xe5ee, 0xf5cf, 0xc5ac, 0xd58d,
    0x3653, 0x2672, 0x1611, 0x0630, 0x76d7, 0x66f6, 0x5695, 0x46b4,
    0xb75b, 0xa77a, 0x9719, 0x8738, 0xf7df, 0xe7fe, 0xd79d, 0xc7bc,
    0x48c4, 0x58e5, 0x6886, 0x78a7, 0x0840, 0x1861, 0x2802, 0x3823,
    0xc9cc, 0xd9ed, 0xe98e, 0xf9af, 0x8948, 0x9969, 0xa90a, 0xb92b,
    0x5af5, 0x4ad4, 0x7ab7, 0x6a96, 0x1a71, 0x0a50, 0x3a33, 0x2a12,
    0xdbfd, 0xcbdc, 0xfbbf, 0xeb9e, 0x9b79, 0x8b58, 0xbb3b, 0xab1a,
    0x6ca6, 0x7c87, 0x4ce4, 0x5cc5, 0x2c22, 0x3c03, 0x0c60, 0x1c41,
    0xedae, 0xfd8f, 0xcdec, 0xddcd, 0xad2a, 0xbd0b, 0x8d68, 0x9d49,
    0x7e97, 0x6eb6, 0x5ed5, 0x4ef4, 0x3e13, 0x2e32, 0x1e51, 0x0e70,
    0xff9f, 0xefbe, 0xdfdd, 0xcffc, 0xbf1b, 0xaf3a, 0x9f59, 0x8f78,
    0x9188, 0x81a9, 0xb1ca, 0xa1eb, 0xd10c, 0xc12d, 0xf14e, 0xe16f,
    0x1080, 0x00a1, 0x30c2, 0x20e3, 0x5004, 0x4025, 0x7046, 0x6067,
    0x83b9, 0x9398, 0xa3fb, 0xb3da, 0xc33d, 0xd31c, 0xe37f, 0xf35e,
    0x02b1, 0x1290, 0x22f3, 0x32d2, 0x4235, 0x5214, 0x6277, 0x7256,
    0xb5ea, 0xa5cb, 0x95a8, 0x8589, 0xf56e, 0xe54f, 0xd52c, 0xc50d,
    0x34e2, 0x24c3, 0x14a0, 0x0481, 0x7466, 0x6447, 0x5424, 0x4405,
    0xa7db, 0xb7fa, 0x8799, 0x97b8, 0xe75f, 0xf77e, 0xc71d, 0xd73c,
    0x26d3, 0x36f2, 0x0691, 0x16b0, 0x6657, 0x7676, 0x4615, 0x5634,
    0xd94c, 0xc96d, 0xf90e, 0xe92f, 0x99c8, 0x89e9, 0xb98a, 0xa9ab,
    0x5844, 0x4865, 0x7806, 0x6827, 0x18c0, 0x08e1, 0x3882, 0x28a3,
    0xcb7d, 0xdb5c, 0xeb3f, 0xfb1e, 0x8bf9, 0x9bd8, 0xabbb, 0xbb9a,
    0x4a75, 0x5a54, 0x6a37, 0x7a16, 0x0af1, 0x1ad0, 0x2ab3, 0x3a92,
    0xfd2e, 0xed0f, 0xdd6c, 0xcd4d, 0xbdaa, 0xad8b, 0x9de8, 0x8dc9,
    0x7c26, 0x6c07, 0x5c64, 0x4c45, 0x3ca2, 0x2c83, 0x1ce0, 0x0cc1,
    0xef1f, 0xff3e, 0xcf5d, 0xdf7c, 0xaf9b, 0xbfba, 0x8fd9, 0x9ff8,
    0x6e17, 0x7e36, 0x4e55, 0x5e74, 0x2e93, 0x3eb2, 0x0ed1, 0x1ef0]

/-- One turn of the loop, over a byte. -/
def crc16Step (crc : ℕ) (b : Byte) : ℕ :=
  ((crc <<< 8) &&& 0xFFFF) ^^^ crc16tab.getD (((crc >>> 8) ^^^ b.val) &&& 0x00FF) 0

def crc16 (buf : List Byte) : ℕ := buf.foldl crc16Step 0

theorem crc16tab_lt (i : ℕ) : crc16tab.getD i 0 < 2 ^ 16 := by
  have hall : ∀ v ∈ crc16tab, v < 2 ^ 16 := by decide +kernel
  by_cases h : i < crc16tab.length
  · rw [List.getD_eq_getElem _ _ h]
    exact hall _ (List.getElem_mem h)
  · rw [List.getD_eq_default _ _ (Nat.le_of_not_lt h)]
    decide

theorem crc16Step_lt (crc : ℕ) (b : Byte) : crc16Step crc b < 2 ^ 16 :=
  Nat.xor_lt_two_pow (Nat.and_lt_two_pow _ (by decide)) (crc16tab_lt _)

theorem crc16_lt (buf : List Byte) : crc16 buf < 2 ^ 16 := by
  have hloop : ∀ crc, crc < 2 ^ 16 → buf.foldl crc16Step crc < 2 ^ 16 := by
    induction buf with
    | nil => exact fun _ h => h
    | cons b buf ih => exact fun crc _ => ih _ (crc16Step_lt crc b)
  exact hloop 0 (by decide)

/-! ## Keys with a version and a checksum -/

/-- The version of public keys. -/
def STRKEY_PUBKEY_ED25519 : ℕ := 6

/-- The bytes of a number of 16 bits, the low one first. -/
def lowHigh (crc : ℕ) : List Byte :=
  [Fin.ofNat 256 (crc &&& 0xFF), Fin.ofNat 256 (crc >>> 8 &&& 0xFF)]

def toStrKey (ver : ℕ) (bin : List Byte) : List Byte :=
  let toEncode := Fin.ofNat 256 (ver <<< 3) :: bin
  encode_b32 (toEncode ++ lowHigh (crc16 toEncode))

def getStrKeySize (dataSize : ℕ) : ℕ :=
  -- version and crc
  encoded_size32 (dataSize + 3)

/-- The version and the key. -/
def fromStrKey (strKey : List Byte) : Option (ℕ × List Byte) :=
  match (decode_b32 strKey).reverse with
  | high :: low :: decoded =>
    match decoded.reverse with
    | [] => none
    | ver :: bin =>
      if crc16 (ver :: bin) ≠ (high.val <<< 8 ||| low.val) then none
      -- only keep 5 bits from the version
      else some (ver.val >>> 3, bin)
  | _ => none

theorem lowHigh_or {crc : ℕ} (h : crc < 2 ^ 16) :
    (Fin.ofNat 256 (crc >>> 8 &&& 0xFF)).val <<< 8 ||| (Fin.ofNat 256 (crc &&& 0xFF)).val =
      crc := by
  have hand : ∀ n : ℕ, (Fin.ofNat 256 (n &&& 0xFF)).val = n % 2 ^ 8 := fun n => by
    show (n &&& (2 ^ 8 - 1)) % 2 ^ 8 = n % 2 ^ 8
    rw [Nat.and_two_pow_sub_one_eq_mod, Nat.mod_mod]
  have hhigh : crc >>> 8 % 2 ^ 8 = crc / 2 ^ 8 := by
    rw [Nat.shiftRight_eq_div_pow]
    omega
  rw [hand, hand, hhigh, ← Nat.shiftLeft_add_eq_or_of_lt (Nat.mod_lt _ (by decide)),
    Nat.shiftLeft_eq]
  omega

/-- **A key is read back from its text.** -/
theorem fromStrKey_toStrKey {ver : ℕ} (h : ver < 2 ^ 5) (bin : List Byte) :
    fromStrKey (toStrKey ver bin) = some (ver, bin) := by
  have hver : (Fin.ofNat 256 (ver <<< 3)).val >>> 3 = ver := by
    show (ver <<< 3 % 256) >>> 3 = ver
    rw [Nat.shiftLeft_eq, Nat.shiftRight_eq_div_pow]
    omega
  have hcrc := lowHigh_or (crc16_lt (Fin.ofNat 256 (ver <<< 3) :: bin))
  unfold fromStrKey toStrKey lowHigh decode_b32 encode_b32
  rw [decode_encode]
  generalize Fin.ofNat 256 (ver <<< 3) = v at hver hcrc ⊢
  generalize Fin.ofNat 256 (crc16 (v :: bin) >>> 8 &&& 0xFF) = high at hcrc ⊢
  generalize Fin.ofNat 256 (crc16 (v :: bin) &&& 0xFF) = low at hcrc ⊢
  simp [hcrc, hver]

/-! ## Public keys -/

def crypto_sign_PUBLICKEYBYTES : ℕ := 32

namespace PubKeyUtils

/-- The bytes of a public key. -/
def ed25519 (pk : AccountID) : List Byte := Format.putNat crypto_sign_PUBLICKEYBYTES pk

/-- The number is a public key. -/
def IsPublicKey (pk : AccountID) : Prop := pk < 256 ^ crypto_sign_PUBLICKEYBYTES

instance (pk : AccountID) : Decidable (IsPublicKey pk) := inferInstanceAs (Decidable (_ < _))

def toStrKey (pk : AccountID) : XString := Crypto.toStrKey STRKEY_PUBKEY_ED25519 (ed25519 pk)

/-- `none` for an exception. -/
def fromStrKey (s : XString) : Option AccountID :=
  match Crypto.fromStrKey s with
  | none => none
  | some (ver, k) =>
    if ver ≠ STRKEY_PUBKEY_ED25519 then none
    else if k.length ≠ crypto_sign_PUBLICKEYBYTES then none
    else if s.length ≠ getStrKeySize crypto_sign_PUBLICKEYBYTES then none
    else (Format.getNat crypto_sign_PUBLICKEYBYTES 0 k).map (·.1)

theorem length_ed25519 (pk : AccountID) : (ed25519 pk).length = crypto_sign_PUBLICKEYBYTES :=
  Format.length_putNat _ _

theorem length_toStrKey (pk : AccountID) :
    (toStrKey pk).length = getStrKeySize crypto_sign_PUBLICKEYBYTES := by
  unfold toStrKey Crypto.toStrKey
  rw [length_encode_b32, List.length_append, List.length_cons, length_ed25519]
  rfl

/-- **A public key is read back from its text.** -/
theorem fromStrKey_toStrKey {pk : AccountID} (h : IsPublicKey pk) :
    fromStrKey (toStrKey pk) = some pk := by
  have hnat := Format.getNat_putNat crypto_sign_PUBLICKEYBYTES pk 0 []
  rw [List.append_nil, Nat.mod_eq_of_lt h, Nat.zero_mul, Nat.zero_add] at hnat
  have hkey : Crypto.fromStrKey (toStrKey pk) = some (STRKEY_PUBKEY_ED25519, ed25519 pk) :=
    Crypto.fromStrKey_toStrKey (by decide) _
  unfold fromStrKey
  rw [hkey]
  simp only [length_ed25519, length_toStrKey, ne_eq, not_true_eq_false, if_false]
  rw [ed25519, hnat]
  rfl

end PubKeyUtils

end SmartCore.Crypto
