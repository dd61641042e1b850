import SmartCore.Crypto.StrKey
import SmartCore.Ledger.Rows

/-!
# Columns

The rows of the ledger as the statements of the frames bind them, and the entries as the loads read
them: keys as text, thresholds and values of data in base 64, the codes of assets without the zeros
at their end, the signers in a table of their own, and for data no `lastmodified`.

Numbers are in their columns as they are. A valid account, trust line or offer with public keys is
read from its columns, and data but for when it was modified (the theorems `read_columns`).
-/

namespace SmartCore.Ledger

open SmartCore.Transactions SmartCore.Util.BaseN
open SmartCore.Crypto.PubKeyUtils (toStrKey IsPublicKey)

/-- `PubKeyUtils::fromStrKey` -/
def fromStrKey (s : XString) : Except Exit AccountID :=
  match Crypto.PubKeyUtils.fromStrKey s with
  | some pk => .ok pk
  | none => .error (.exception "bad public key")

theorem fromStrKey_toStrKey {pk : AccountID} (h : IsPublicKey pk) :
    fromStrKey (toStrKey pk) = .ok pk := by
  unfold fromStrKey
  rw [Crypto.PubKeyUtils.fromStrKey_toStrKey h]

/-! ## Assets -/

def ASSET_TYPE_NATIVE : ℕ := 0
def ASSET_TYPE_CREDIT_ALPHANUM4 : ℕ := 1
def ASSET_TYPE_CREDIT_ALPHANUM12 : ℕ := 2

def assetCodeToStr (code : List Byte) : XString := code.takeWhile fun c => c ≠ 0

def strToAssetCode (n : ℕ) (str : XString) : Opaque n :=
  ⟨str.take n ++ List.replicate (n - str.length) 0, by
    rw [List.length_append, List.length_take, List.length_replicate]
    omega⟩

/-- The columns of an asset: the code and the issuer are null for the native asset. -/
structure AssetColumns where
  assettype : ℕ
  assetcode : Option XString
  issuer : Option XString
deriving DecidableEq, Repr

def Asset.columns : Asset → AssetColumns
  | .native => ⟨ASSET_TYPE_NATIVE, none, none⟩
  | .alphaNum4 assetCode issuer =>
    ⟨ASSET_TYPE_CREDIT_ALPHANUM4, some (assetCodeToStr assetCode.1), some (toStrKey issuer)⟩
  | .alphaNum12 assetCode issuer =>
    ⟨ASSET_TYPE_CREDIT_ALPHANUM12, some (assetCodeToStr assetCode.1), some (toStrKey issuer)⟩

/-- The asset of a type that is not above the last one. -/
def readAsset (assettype : ℕ) (assetcode issuerStrKey : XString) : Except Exit Asset :=
  if assettype = ASSET_TYPE_CREDIT_ALPHANUM4 then
    return .alphaNum4 (strToAssetCode 4 assetcode) (← fromStrKey issuerStrKey)
  else if assettype = ASSET_TYPE_CREDIT_ALPHANUM12 then
    return .alphaNum12 (strToAssetCode 12 assetcode) (← fromStrKey issuerStrKey)
  else return .native

/-- The asset of an offer. -/
def AssetColumns.read (c : AssetColumns) : Except Exit Asset :=
  if c.assettype = ASSET_TYPE_NATIVE then .ok .native
  else
    match c.assetcode, c.issuer with
    | some assetcode, some issuer => readAsset c.assettype assetcode issuer
    | _, _ => .error (.exception "bad database state")

/-- After a zero there are only zeros. -/
theorem charcount_true {code : List Byte} {n m : ℕ} (h : charcount code true n = some m) :
    ∀ c ∈ code, c = 0 := by
  induction code with
  | nil => exact nofun
  | cons b code ih =>
    unfold charcount at h
    by_cases hb : b = 0
    · rw [if_pos hb] at h
      exact List.forall_mem_cons.mpr ⟨hb, ih h⟩
    · rw [if_neg hb, if_pos rfl] at h
      cases h

/-- A code is its characters, and zeros. -/
theorem assetCodeToStr_append {code : List Byte} {n m : ℕ}
    (h : charcount code false n = some m) :
    assetCodeToStr code ++ List.replicate (code.length - (assetCodeToStr code).length) 0 =
      code := by
  unfold assetCodeToStr
  induction code generalizing n with
  | nil => rfl
  | cons b code ih =>
    unfold charcount at h
    by_cases hb : b = 0
    · rw [if_pos hb] at h
      have hzero := charcount_true h
      have hrep : code = List.replicate code.length 0 := List.eq_replicate_of_mem hzero
      subst hb
      simp only [ne_eq, decide_not, decide_true, Bool.not_true, List.takeWhile_cons_of_neg,
        Bool.false_eq_true, not_false_eq_true, List.length_nil, Nat.sub_zero, List.nil_append,
        List.length_cons, List.replicate_succ]
      rw [← hrep]
    · rw [if_neg hb, if_neg Bool.false_ne_true] at h
      split at h
      · have hcons := ih h
        rw [List.takeWhile_cons_of_pos (by simpa using hb), List.length_cons, List.length_cons,
          Nat.succ_sub_succ, List.cons_append, hcons]
      · cases h

theorem strToAssetCode_assetCodeToStr {n : ℕ} {code : Opaque n} {k m : ℕ}
    (h : charcount code.1 false k = some m) :
    strToAssetCode n (assetCodeToStr code.1) = code := by
  have hle : (assetCodeToStr code.1).length ≤ n := by
    have := (List.takeWhile_prefix (p := fun c : Byte => decide (c ≠ 0)) (l := code.1)).length_le
    rwa [code.2] at this
  refine Subtype.ext ?_
  have happend := assetCodeToStr_append h
  rw [code.2] at happend
  show (assetCodeToStr code.1).take n ++ List.replicate _ 0 = code.1
  rw [List.take_of_length_le hle, happend]

theorem exists_charcount {code : List Byte} {p : ℕ → Bool}
    (h : (charcount code false 0).elim false p = true) : ∃ m, charcount code false 0 = some m := by
  cases hm : charcount code false 0 with
  | none =>
    rw [hm] at h
    cases h
  | some m => exact ⟨m, rfl⟩

/-- **A valid asset is read from its columns.** -/
theorem Asset.read_columns {asset : Asset} (h : isAssetValid asset = true)
    (hkey : asset ≠ .native → IsPublicKey (getIssuer asset)) :
    asset.columns.read = .ok asset := by
  cases asset with
  | native => rfl
  | alphaNum4 assetCode issuer =>
    obtain ⟨m, hm⟩ := exists_charcount h
    have hissuer : fromStrKey (toStrKey issuer) = .ok issuer := fromStrKey_toStrKey (hkey nofun)
    show readAsset ASSET_TYPE_CREDIT_ALPHANUM4 (assetCodeToStr assetCode.1) (toStrKey issuer) = _
    unfold readAsset
    rw [if_pos rfl, hissuer, strToAssetCode_assetCodeToStr hm]
    rfl
  | alphaNum12 assetCode issuer =>
    obtain ⟨m, hm⟩ := exists_charcount h
    have hissuer : fromStrKey (toStrKey issuer) = .ok issuer := fromStrKey_toStrKey (hkey nofun)
    show readAsset ASSET_TYPE_CREDIT_ALPHANUM12 (assetCodeToStr assetCode.1) (toStrKey issuer) = _
    unfold readAsset
    rw [if_neg (by decide), if_pos rfl, hissuer, strToAssetCode_assetCodeToStr hm]
    rfl

/-! ## Accounts -/

structure SignerColumns where
  publickey : XString
  weight : ℕ
  signertype : ℕ
deriving DecidableEq, Repr

structure AccountColumns where
  balance : ℤ
  seqnum : ℕ
  numsubentries : ℕ
  inflationdest : Option XString
  homedomain : XString
  accounttype : AccountType
  thresholds : XString
  flags : ℕ
  lastmodified : ℕ
deriving DecidableEq, Repr

def Thresholds.bytes (t : Thresholds) : List Byte := [t.masterWeight, t.low, t.med, t.high]

/-- Over the thresholds of a new account. -/
def Thresholds.ofBytes (bytes : List Byte) : Thresholds :=
  { masterWeight := bytes.getD 0 1, low := bytes.getD 1 0, med := bytes.getD 2 0,
    high := bytes.getD 3 0 }

namespace AccountFrame

/-- What `storeUpdate` binds. -/
def columns (row : Row AccountEntry) : AccountColumns :=
  let a := row.entry
  { balance := a.balance
    seqnum := a.seqNum
    numsubentries := a.numSubEntries
    inflationdest := a.inflationDest.map toStrKey
    homedomain := a.homeDomain
    accounttype := a.accountType
    thresholds := encode_b64 a.thresholds.bytes
    flags := a.flags
    lastmodified := row.lastmodified }

/-- What `applySigners` binds. -/
def signerColumns (s : Signer) : SignerColumns := ⟨toStrKey s.pubKey, s.weight, s.signerType⟩

def signerCompare (s₁ s₂ : Signer) : Prop := s₁.pubKey ≤ s₂.pubKey

instance : DecidableRel signerCompare := fun _ _ => inferInstanceAs (Decidable (_ ≤ _))

def readSigner (c : SignerColumns) : Except Exit Signer := do
  return ⟨← fromStrKey c.publickey, c.weight, c.signertype⟩

def loadSigners (rows : List SignerColumns) : Except Exit (List Signer) := do
  return (← rows.mapM readSigner).insertionSort signerCompare

/-- The signers are read if there are sub-entries. -/
def readSigners (numsubentries : ℕ) (rows : List SignerColumns) : Except Exit (List Signer) :=
  if numsubentries ≠ 0 then loadSigners rows else .ok []

/-- The part of `loadAccount` after the account was found. -/
def read (accountID : AccountID) (c : AccountColumns) (rows : List SignerColumns) :
    Except Exit LedgerEntry := do
  let inflationDest ← c.inflationdest.mapM fromStrKey
  let signers ← readSigners c.numsubentries rows
  let res : AccountFrame :=
    { mAccountEntry :=
        { accountID
          balance := c.balance
          seqNum := c.seqnum
          numSubEntries := c.numsubentries
          inflationDest
          flags := c.flags
          homeDomain := c.homedomain
          accountType := c.accounttype
          thresholds := .ofBytes (decode_b64 c.thresholds)
          -- `normalize`
          signers := signers.insertionSort signerCompare }
      lastModified := c.lastmodified }
  if res.isValid then return res.mEntry else throw .abort

theorem readSigner_columns {s : Signer} (h : IsPublicKey s.pubKey) :
    readSigner (signerColumns s) = .ok s := by
  show (fromStrKey (toStrKey s.pubKey)).bind _ = _
  rw [fromStrKey_toStrKey h]
  rfl

theorem sort_signers {signers : List Signer}
    (h : (signers.map (·.pubKey)).Pairwise (· ≤ ·)) :
    signers.insertionSort signerCompare = signers :=
  List.Pairwise.insertionSort_eq (List.pairwise_map (R := (· ≤ ·)).mp h)

theorem loadSigners_columns {signers : List Signer}
    (hkeys : ∀ s ∈ signers, IsPublicKey s.pubKey)
    (h : (signers.map (·.pubKey)).Pairwise (· ≤ ·)) :
    loadSigners (signers.map signerColumns) = .ok signers := by
  have hread : (signers.map signerColumns).mapM readSigner = .ok signers := by
    clear h
    induction signers with
    | nil => rfl
    | cons s signers ih =>
      rw [List.forall_mem_cons] at hkeys
      rw [List.map_cons, List.mapM_cons, readSigner_columns hkeys.1, ih hkeys.2]
      rfl
  unfold loadSigners
  rw [hread]
  exact congrArg Except.ok (sort_signers h)

/-- **An account is read from its columns**, without its signers if it has no sub-entries. -/
theorem read_columns (row : Row AccountEntry)
    (hvalid : ({ mAccountEntry := row.entry } : AccountFrame).isValid = true)
    (hdest : ∀ pk, row.entry.inflationDest = some pk → IsPublicKey pk)
    (hkeys : ∀ s ∈ row.entry.signers, IsPublicKey s.pubKey) :
    read row.entry.accountID (columns row) (row.entry.signers.map signerColumns) =
      .ok ⟨row.lastmodified, .account { row.entry with
        signers := if row.entry.numSubEntries ≠ 0 then row.entry.signers else [] }⟩ := by
  set signers := if row.entry.numSubEntries ≠ 0 then row.entry.signers else [] with hsigners
  simp only [isValid, Bool.decide_and, Bool.and_eq_true, decide_eq_true_eq] at hvalid
  obtain ⟨hdomain, hbalance, hsorted⟩ := hvalid
  have hsorted' : (signers.map (·.pubKey)).Pairwise (· ≤ ·) := by
    rw [hsigners]
    split_ifs
    · exact hsorted
    · exact List.Pairwise.nil
  have hinflation : (columns row).inflationdest.mapM fromStrKey = .ok row.entry.inflationDest := by
    show (row.entry.inflationDest.map toStrKey).mapM fromStrKey = _
    cases hpk : row.entry.inflationDest with
    | none => rfl
    | some pk =>
      show (some <$> fromStrKey (toStrKey pk)) = _
      rw [fromStrKey_toStrKey (hdest pk hpk)]
      rfl
  have hload : readSigners (columns row).numsubentries
      (row.entry.signers.map signerColumns) = .ok signers := by
    unfold readSigners
    rw [hsigners, loadSigners_columns hkeys hsorted]
    show (if row.entry.numSubEntries ≠ 0 then _ else _) = _
    split_ifs <;> rfl
  have hthresholds : Thresholds.ofBytes (decode_b64 (columns row).thresholds) =
      row.entry.thresholds := by
    show Thresholds.ofBytes (decode_b64 (encode_b64 row.entry.thresholds.bytes)) = _
    unfold decode_b64 encode_b64
    rw [decode_encode]
    rfl
  unfold read
  rw [hinflation, hload]
  show (if isValid _ = true then _ else _) = _
  simp only [sort_signers hsorted', hthresholds]
  rw [if_pos]
  · rfl
  · simp only [isValid, Bool.decide_and, Bool.and_eq_true, decide_eq_true_eq]
    exact ⟨hdomain, hbalance, hsorted'⟩

end AccountFrame

/-! ## Trust lines -/

structure TrustLineColumns where
  accountid : XString
  assettype : ℕ
  issuer : XString
  assetcode : XString
  tlimit : ℤ
  balance : ℤ
  flags : ℕ
  lastmodified : ℕ
deriving DecidableEq, Repr

namespace TrustFrame

/-- What `storeAdd` binds; `storeChange` binds the same but for the type of the asset. -/
def columns (row : Row TrustLineEntry) : TrustLineColumns :=
  let tl := row.entry
  { accountid := toStrKey tl.accountID
    assettype := tl.asset.columns.assettype
    issuer := tl.asset.columns.issuer.getD []
    assetcode := tl.asset.columns.assetcode.getD []
    tlimit := tl.limit
    balance := tl.balance
    flags := tl.flags
    lastmodified := row.lastmodified }

/-- One turn of `loadLines`. -/
def read (c : TrustLineColumns) : Except Exit LedgerEntry := do
  let accountID ← fromStrKey c.accountid
  let asset ← readAsset c.assettype c.assetcode c.issuer
  let tl : TrustFrame :=
    { mTrustLine := { accountID, asset, balance := c.balance, limit := c.tlimit, flags := c.flags }
      lastModified := c.lastmodified }
  if tl.isValid then return tl.mEntry else throw (.exception "Invalid TrustEntry")

theorem readAsset_columns {asset : Asset} (h : asset ≠ .native) :
    readAsset asset.columns.assettype (asset.columns.assetcode.getD [])
      (asset.columns.issuer.getD []) = asset.columns.read := by
  cases asset with
  | native => exact absurd rfl h
  | alphaNum4 assetCode issuer => rfl
  | alphaNum12 assetCode issuer => rfl

/-- **A trust line is read from its columns.** -/
theorem read_columns (row : Row TrustLineEntry)
    (hvalid : ({ mTrustLine := row.entry } : TrustFrame).isValid = true)
    (hkey : IsPublicKey row.entry.accountID) (hissuer : IsPublicKey (getIssuer row.entry.asset)) :
    read (columns row) = .ok ⟨row.lastmodified, .trustLine row.entry⟩ := by
  have hvalid' := hvalid
  simp only [isValid, Bool.decide_and, Bool.and_eq_true, decide_eq_true_eq] at hvalid'
  obtain ⟨hnative, hasset, -⟩ := hvalid'
  have hread : readAsset (columns row).assettype (columns row).assetcode (columns row).issuer =
      .ok row.entry.asset := by
    refine Eq.trans ?_ (Asset.read_columns hasset fun _ => hissuer)
    exact readAsset_columns hnative
  unfold read
  rw [hread, show fromStrKey (columns row).accountid = .ok row.entry.accountID from
    fromStrKey_toStrKey hkey]
  exact if_pos hvalid

/-! ### The key of the table

It is without the type of the asset: a code of up to four characters is one of `alphaNum4`, a longer
one of `alphaNum12`. -/

structure KeyFields where
  accountid : XString
  issuer : XString
  assetcode : XString
deriving DecidableEq, Repr

/-- The strings are empty for the native asset. -/
def getKeyFields (accountID : AccountID) : Asset → KeyFields
  | .native => ⟨toStrKey accountID, [], []⟩
  | .alphaNum4 assetCode issuer => ⟨toStrKey accountID, toStrKey issuer, assetCodeToStr assetCode.1⟩
  | .alphaNum12 assetCode issuer =>
    ⟨toStrKey accountID, toStrKey issuer, assetCodeToStr assetCode.1⟩

end TrustFrame

/-- `assetCodeToStr` of the code of an asset. -/
def Asset.codeStr : Asset → XString
  | .native => []
  | .alphaNum4 assetCode _ => assetCodeToStr assetCode.1
  | .alphaNum12 assetCode _ => assetCodeToStr assetCode.1

theorem charcount_true_eq {code : List Byte} {n m : ℕ} (h : charcount code true n = some m) :
    m = n := by
  induction code with
  | nil => exact (Option.some.inj h).symm
  | cons b code ih =>
    unfold charcount at h
    by_cases hb : b = 0
    · rw [if_pos hb] at h
      exact ih h
    · rw [if_neg hb, if_pos rfl] at h
      cases h

/-- The characters that are counted are those of the string. -/
theorem charcount_eq {code : List Byte} {n m : ℕ} (h : charcount code false n = some m) :
    m = n + (assetCodeToStr code).length := by
  unfold assetCodeToStr
  induction code generalizing n with
  | nil => exact (Option.some.inj h).symm
  | cons b code ih =>
    unfold charcount at h
    by_cases hb : b = 0
    · rw [if_pos hb] at h
      rw [charcount_true_eq h, List.takeWhile_cons_of_neg (by simpa using hb)]
      rfl
    · rw [if_neg hb, if_neg Bool.false_ne_true] at h
      split at h
      · rw [ih h, List.takeWhile_cons_of_pos (by simpa using hb), List.length_cons]
        omega
      · cases h

/-- A valid code is the one of its string, and the string has more than four characters just if the
code has twelve bytes. -/
theorem valid_alphaNum4 {assetCode : Opaque 4} {issuer : AccountID}
    (h : isAssetValid (.alphaNum4 assetCode issuer) = true) :
    strToAssetCode 4 (assetCodeToStr assetCode.1) = assetCode ∧
      (assetCodeToStr assetCode.1).length ≤ 4 := by
  obtain ⟨m, hm⟩ := exists_charcount h
  have hle := (List.takeWhile_prefix (p := fun c : Byte => decide (c ≠ 0))
    (l := assetCode.1)).length_le
  rw [assetCode.2] at hle
  exact ⟨strToAssetCode_assetCodeToStr hm, hle⟩

theorem valid_alphaNum12 {assetCode : Opaque 12} {issuer : AccountID}
    (h : isAssetValid (.alphaNum12 assetCode issuer) = true) :
    strToAssetCode 12 (assetCodeToStr assetCode.1) = assetCode ∧
      4 < (assetCodeToStr assetCode.1).length := by
  obtain ⟨m, hm⟩ := exists_charcount h
  have hcount : 4 < m := by
    have h : (charcount assetCode.1 false 0).elim false (fun n => decide (4 < n)) = true := h
    rw [hm] at h
    simpa using h
  have heq := charcount_eq hm
  exact ⟨strToAssetCode_assetCodeToStr hm, by omega⟩

/-- Issuer and string determine a valid credit. -/
theorem eq_of_codeStr {a b : Asset} (ha : a ≠ .native) (hb : b ≠ .native)
    (hva : isAssetValid a = true) (hvb : isAssetValid b = true)
    (hissuer : getIssuer a = getIssuer b) (hcode : a.codeStr = b.codeStr) : a = b := by
  cases a with
  | native => exact absurd rfl ha
  | alphaNum4 code issuer =>
    obtain ⟨hback, hle⟩ := valid_alphaNum4 hva
    cases b with
    | native => exact absurd rfl hb
    | alphaNum4 code' issuer' =>
      obtain rfl : issuer = issuer' := hissuer
      have hcode : assetCodeToStr code.1 = assetCodeToStr code'.1 := hcode
      rw [← hback, hcode, (valid_alphaNum4 hvb).1]
    | alphaNum12 code' issuer' =>
      have hcode : assetCodeToStr code.1 = assetCodeToStr code'.1 := hcode
      have hlt := (valid_alphaNum12 hvb).2
      rw [hcode] at hle
      omega
  | alphaNum12 code issuer =>
    obtain ⟨hback, hlt⟩ := valid_alphaNum12 hva
    cases b with
    | native => exact absurd rfl hb
    | alphaNum4 code' issuer' =>
      have hcode : assetCodeToStr code.1 = assetCodeToStr code'.1 := hcode
      have hle := (valid_alphaNum4 hvb).2
      rw [← hcode] at hle
      omega
    | alphaNum12 code' issuer' =>
      obtain rfl : issuer = issuer' := hissuer
      have hcode : assetCodeToStr code.1 = assetCodeToStr code'.1 := hcode
      rw [← hback, hcode, (valid_alphaNum12 hvb).1]

theorem toStrKey_injective {a b : AccountID} (ha : IsPublicKey a) (hb : IsPublicKey b)
    (h : toStrKey a = toStrKey b) : a = b := by
  have hback := fromStrKey_toStrKey ha
  rw [h, fromStrKey_toStrKey hb] at hback
  exact (Except.ok.inj hback).symm

theorem TrustFrame.getKeyFields_of_ne {id : AccountID} {asset : Asset} (h : asset ≠ .native) :
    getKeyFields id asset = ⟨toStrKey id, toStrKey (getIssuer asset), asset.codeStr⟩ := by
  cases asset with
  | native => exact absurd rfl h
  | alphaNum4 _ _ => rfl
  | alphaNum12 _ _ => rfl

/-- **The key of the table is one of a trust line**: valid credits with the same issuer and string are
the same, so no two lines have the same key, and each code is the one of its string. -/
theorem assetCodes_determine :
    (∀ a b : Asset, a ≠ .native → b ≠ .native → isAssetValid a = true → isAssetValid b = true →
      getIssuer a = getIssuer b → a.codeStr = b.codeStr → a = b) ∧
    (∀ (id id' : AccountID) (a b : Asset), a ≠ .native → b ≠ .native →
      isAssetValid a = true → isAssetValid b = true →
      IsPublicKey id → IsPublicKey id' → IsPublicKey (getIssuer a) → IsPublicKey (getIssuer b) →
      TrustFrame.getKeyFields id a = TrustFrame.getKeyFields id' b → id = id' ∧ a = b) ∧
    (∀ (code : Opaque 4) (issuer : AccountID), isAssetValid (.alphaNum4 code issuer) = true →
      strToAssetCode 4 (assetCodeToStr code.1) = code) ∧
    (∀ (code : Opaque 12) (issuer : AccountID), isAssetValid (.alphaNum12 code issuer) = true →
      strToAssetCode 12 (assetCodeToStr code.1) = code) := by
  refine ⟨fun a b ha hb hva hvb => eq_of_codeStr ha hb hva hvb, ?_,
    fun code issuer h => (valid_alphaNum4 h).1, fun code issuer h => (valid_alphaNum12 h).1⟩
  intro id id' a b ha hb hva hvb hid hid' hissuer hissuer' hkey
  rw [TrustFrame.getKeyFields_of_ne ha, TrustFrame.getKeyFields_of_ne hb] at hkey
  injection hkey with haccount hi hcode
  exact ⟨toStrKey_injective hid hid' haccount,
    eq_of_codeStr ha hb hva hvb (toStrKey_injective hissuer hissuer' hi) hcode⟩

def usdt : Asset := .alphaNum4 ⟨[85, 83, 68, 84], rfl⟩ 2

def usdtx : Asset := .alphaNum12 ⟨[85, 83, 68, 84, 88, 0, 0, 0, 0, 0, 0, 0], rfl⟩ 2

theorem assetCodes_determine_usdt :
    strToAssetCode 4 usdt.codeStr = ⟨[85, 83, 68, 84], rfl⟩ ∧
      TrustFrame.getKeyFields 1 usdt ≠ TrustFrame.getKeyFields 1 usdtx := by
  refine ⟨assetCodes_determine.2.2.1 ⟨[85, 83, 68, 84], rfl⟩ 2 (by decide), ?_⟩
  intro hkey
  have heq := assetCodes_determine.2.1 1 1 usdt usdtx (by decide) (by decide) (by decide) (by decide)
    (by decide) (by decide) (by decide) (by decide) hkey
  exact absurd heq.2 (by decide)

/-! ## Offers -/

/-- Without the price as a `DOUBLE`, which is only there for the order. -/
structure OfferColumns where
  sellerid : XString
  offerid : ℕ
  selling : AssetColumns
  buying : AssetColumns
  amount : ℤ
  pricen : ℤ
  priced : ℤ
  flags : ℕ
  lastmodified : ℕ
deriving DecidableEq, Repr

namespace OfferFrame

def columns (row : Row OfferEntry) : OfferColumns :=
  let o := row.entry
  { sellerid := toStrKey o.sellerID
    offerid := o.offerID
    selling := o.selling.columns
    buying := o.buying.columns
    amount := o.amount
    pricen := o.price.n
    priced := o.price.d
    flags := o.flags
    lastmodified := row.lastmodified }

/-- One turn of `loadOffers`. -/
def read (c : OfferColumns) : Except Exit LedgerEntry := do
  let sellerID ← fromStrKey c.sellerid
  if c.buying.assettype > ASSET_TYPE_CREDIT_ALPHANUM12 ∨
      c.selling.assettype > ASSET_TYPE_CREDIT_ALPHANUM12 then
    throw (.exception "bad database state")
  else
    let selling ← c.selling.read
    let buying ← c.buying.read
    let oe : OfferFrame :=
      { mOffer :=
          { sellerID, offerID := c.offerid, selling, buying, amount := c.amount,
            price := ⟨c.pricen, c.priced⟩, flags := c.flags }
        lastModified := c.lastmodified }
    if oe.isValid then return oe.mEntry else throw (.exception "Invalid asset")

/-- The keys in an offer. -/
structure PublicKeys (o : OfferEntry) : Prop where
  sellerID : IsPublicKey o.sellerID
  selling : IsPublicKey (getIssuer o.selling)
  buying : IsPublicKey (getIssuer o.buying)

/-- **An offer is read from its columns.** -/
theorem read_columns (row : Row OfferEntry)
    (hvalid : ({ mOffer := row.entry } : OfferFrame).isValid = true)
    (hkeys : PublicKeys row.entry) :
    read (columns row) = .ok ⟨row.lastmodified, .offer row.entry⟩ := by
  have hvalid' := hvalid
  simp only [isValid, Bool.decide_and, Bool.and_eq_true, decide_eq_true_eq] at hvalid'
  have htype : ∀ asset : Asset, ¬ asset.columns.assettype > ASSET_TYPE_CREDIT_ALPHANUM12 := by
    intro asset
    cases asset <;> simp [Asset.columns, ASSET_TYPE_NATIVE, ASSET_TYPE_CREDIT_ALPHANUM4,
      ASSET_TYPE_CREDIT_ALPHANUM12]
  have hselling : (columns row).selling.read = .ok row.entry.selling :=
    Asset.read_columns hvalid'.2 fun _ => hkeys.selling
  have hbuying : (columns row).buying.read = .ok row.entry.buying :=
    Asset.read_columns hvalid'.1 fun _ => hkeys.buying
  unfold read
  rw [hselling, hbuying, show fromStrKey (columns row).sellerid = .ok row.entry.sellerID from
    fromStrKey_toStrKey hkeys.sellerID]
  show (if _ ∨ _ then _ else _) = _
  rw [if_neg fun h => h.elim (htype _) (htype _)]
  exact if_pos hvalid

end OfferFrame

/-! ## Data -/

structure DataColumns where
  accountid : XString
  dataname : XString
  datavalue : XString
deriving DecidableEq, Repr

namespace DataFrame

def columns (d : DataEntry) : DataColumns :=
  { accountid := toStrKey d.accountID, dataname := d.dataName, datavalue := encode_b64 d.dataValue }

/-- One turn of `loadData`: `lastModifiedLedgerSeq` is the one of a new entry. -/
def read (c : DataColumns) : Except Exit LedgerEntry := do
  let accountID ← fromStrKey c.accountid
  let f : DataFrame :=
    { mData := { accountID, dataName := c.dataname, dataValue := decode_b64 c.datavalue } }
  return f.mEntry

/-- **Data is read from its columns**, but for when it was modified. -/
theorem read_columns {d : DataEntry} (hkey : IsPublicKey d.accountID) :
    read (columns d) = .ok ⟨0, .data d⟩ := by
  have hvalue : decode_b64 (columns d).datavalue = d.dataValue := decode_encode _ _
  unfold read
  rw [show fromStrKey (columns d).accountid = .ok d.accountID from fromStrKey_toStrKey hkey,
    hvalue]
  rfl

end DataFrame

/-! ## Loading -/

namespace Database

variable (db : Database)

/-- The part of the loads that is not the cache. -/
def read : LedgerKey → Except Exit (Option LedgerEntry)
  | .account accountID => db.accounts[accountID]?.mapM fun row =>
    AccountFrame.read accountID (AccountFrame.columns row)
      (row.entry.signers.map AccountFrame.signerColumns)
  | .trustLine accountID asset =>
    db.trustlines[LedgerKey.trustLine accountID asset]?.mapM fun row =>
      TrustFrame.read (TrustFrame.columns row)
  | .offer sellerID offerID =>
    (db.offers[offerID]?.filter (·.entry.sellerID = sellerID)).mapM fun row =>
      OfferFrame.read (OfferFrame.columns row)
  | .data accountID dataName =>
    db.accountdata[LedgerKey.data accountID dataName]?.mapM fun d =>
      DataFrame.read (DataFrame.columns d)
  | .reversedPayment rID =>
    .ok (db.reversedPayment[rID]?.map fun lastmodified => ⟨lastmodified, .reversedPayment ⟨rID⟩⟩)

variable {db}

/-- Data is loaded as modified in no ledger. -/
theorem lastModified_of_read {id : AccountID} {dataName : XString} {e : LedgerEntry}
    (h : db.read (.data id dataName) = .ok (some e)) : e.lastModifiedLedgerSeq = 0 := by
  have h : (db.accountdata[LedgerKey.data id dataName]?).mapM
      (fun d => DataFrame.read (DataFrame.columns d)) = .ok (some e) := h
  cases hrow : db.accountdata[LedgerKey.data id dataName]? with
  | none =>
    rw [hrow] at h
    cases h
  | some d =>
    rw [hrow] at h
    have h : some <$> DataFrame.read (DataFrame.columns d) = .ok (some e) := h
    unfold DataFrame.read at h
    cases hkey : fromStrKey (DataFrame.columns d).accountid with
    | error _ =>
      rw [hkey] at h
      cases h
    | ok accountID =>
      rw [hkey] at h
      cases h
      rfl

end Database

end SmartCore.Ledger
