import Mathlib.Data.List.Lex
import Mathlib.Data.Prod.Lex
import Mathlib.Order.Fin.Basic
import Mathlib.Tactic.Common
import SmartCore.Lib.Words

/-!
# Ledger entries and their keys

The entries of the ledger as `Stellar-ledger-entries.x` declares them: accounts, trust lines,
offers, data and reversed payments. Keys are what identifies an entry, and `LedgerEntryIdCmp` is
the order of the maps and the files that hold entries by key. It is the lexicographic order of
what the key consists of (`ledgerEntryIdCmp_iff`), so it is a linear order.

Public keys are numbers. An `int64` is an integer, with `int64` for the value that arithmetic
leaves in 64 bits; unsigned numbers are naturals.
-/

namespace SmartCore.Ledger

/-! ## Base types -/

/-- A public key. -/
abbrev AccountID := ℕ

/-- `opaque[n]` -/
abbrev Opaque (n : ℕ) := { bytes : List (Fin 256) // bytes.length = n }

/-- A string. -/
abbrev XString := List (Fin 256)

def INT64_MAX : ℤ := 2 ^ 63 - 1

def INT64_MIN : ℤ := -2 ^ 63

/-- What is left of an integer in 64 bits. -/
def int64 (x : ℤ) : ℤ := x.bmod (2 ^ 64)

/-- The integers that fit. -/
def InRange (x : ℤ) : Prop := INT64_MIN ≤ x ∧ x ≤ INT64_MAX

instance (x : ℤ) : Decidable (InRange x) := inferInstanceAs (Decidable (_ ∧ _))

theorem int64_of_inRange {x : ℤ} (h : InRange x) : int64 x = x := by
  obtain ⟨h₁, h₂⟩ := h
  unfold INT64_MIN INT64_MAX at *
  unfold int64
  rw [Int.bmod_eq_of_le] <;> omega

theorem int64_inRange (x : ℤ) : InRange (int64 x) := by
  have hlo := Int.le_bmod (x := x) (m := 2 ^ 64) (by decide)
  have hhi := Int.bmod_lt (x := x) (m := 2 ^ 64) (by decide)
  unfold InRange int64 INT64_MIN INT64_MAX
  omega

/-! ## Assets -/

inductive Asset where
  | native
  | alphaNum4 (assetCode : Opaque 4) (issuer : AccountID)
  | alphaNum12 (assetCode : Opaque 12) (issuer : AccountID)
deriving DecidableEq, Repr

namespace Asset

/-- The asset in the order of its parts. -/
def code : Asset → List ℤ
  | native => [0]
  | alphaNum4 assetCode issuer => 1 :: (assetCode.1.map fun b => (b.val : ℤ)) ++ [(issuer : ℤ)]
  | alphaNum12 assetCode issuer => 2 :: (assetCode.1.map fun b => (b.val : ℤ)) ++ [(issuer : ℤ)]

theorem map_val_injective : Function.Injective (List.map fun b : Fin 256 => (b.val : ℤ)) :=
  List.map_injective_iff.mpr fun a b h => Fin.ext (by exact_mod_cast h)

theorem code_injective : Function.Injective code := by
  have hinj : ∀ {n : ℕ} {c c' : Opaque n} {i i' : AccountID},
      (c.1.map fun b => (b.val : ℤ)) ++ [(i : ℤ)] = (c'.1.map fun b => (b.val : ℤ)) ++ [(i' : ℤ)] →
        c = c' ∧ i = i' := by
    intro n c c' i i' h
    have hlen : (c.1.map fun b => (b.val : ℤ)).length = (c'.1.map fun b => (b.val : ℤ)).length := by
      rw [List.length_map, List.length_map, c.2, c'.2]
    obtain ⟨hc, hi⟩ := List.append_inj h hlen
    exact ⟨Subtype.ext (map_val_injective hc), by exact_mod_cast List.head_eq_of_cons_eq hi⟩
  intro a b h
  cases a <;> cases b <;> simp only [code, List.cons_append, List.cons.injEq] at h
  · rfl
  · omega
  · omega
  · omega
  · obtain ⟨rfl, rfl⟩ := hinj h.2
    rfl
  · omega
  · omega
  · omega
  · obtain ⟨rfl, rfl⟩ := hinj h.2
    rfl

instance : LinearOrder Asset := LinearOrder.lift' code code_injective

theorem lt_iff {a b : Asset} : a < b ↔ a.code < b.code := Iff.rfl

end Asset

/-- Called for credit assets only. -/
def getIssuer : Asset → AccountID
  | .native => 0
  | .alphaNum4 _ issuer => issuer
  | .alphaNum12 _ issuer => issuer

/-! ## Entries -/

inductive AccountType where
  | ACCOUNT_ANONYMOUS_USER
  | ACCOUNT_REGISTERED_USER
  | ACCOUNT_MERCHANT
  | ACCOUNT_DISTRIBUTION_AGENT
  | ACCOUNT_SETTLEMENT_AGENT
  | ACCOUNT_EXCHANGE_AGENT
  | ACCOUNT_BANK
  | ACCOUNT_SCRATCH_CARD
  | ACCOUNT_COMMISSION
deriving DecidableEq, Repr

/-! The signer types; a `Signer` may have any number there. -/

def SIGNER_GENERAL : ℕ := 0
def SIGNER_ADMIN : ℕ := 1
def SIGNER_EMISSION : ℕ := 2

structure Signer where
  pubKey : AccountID
  weight : ℕ
  signerType : ℕ
deriving DecidableEq, Repr

/-- Four bytes. -/
structure Thresholds where
  masterWeight : Fin 256 := 0
  low : Fin 256 := 0
  med : Fin 256 := 0
  high : Fin 256 := 0
deriving DecidableEq, Repr

/-! Masks for the flags of accounts, trust lines and offers. -/

def AUTH_REQUIRED_FLAG : ℕ := 1
def AUTH_REVOCABLE_FLAG : ℕ := 2
def AUTH_IMMUTABLE_FLAG : ℕ := 4
def AUTHORIZED_FLAG : ℕ := 1
def PASSIVE_FLAG : ℕ := 1

structure AccountEntry where
  accountID : AccountID
  balance : ℤ := 0
  seqNum : ℕ := 0
  numSubEntries : ℕ := 0
  inflationDest : Option AccountID := none
  flags : ℕ := 0
  homeDomain : XString := []
  accountType : AccountType := .ACCOUNT_ANONYMOUS_USER
  thresholds : Thresholds := {}
  signers : List Signer := []
deriving DecidableEq, Repr

structure TrustLineEntry where
  accountID : AccountID
  asset : Asset
  balance : ℤ := 0
  limit : ℤ := 0
  flags : ℕ := 0
deriving DecidableEq, Repr

structure Price where
  n : ℤ
  d : ℤ
deriving DecidableEq, Repr

structure OfferEntry where
  sellerID : AccountID
  offerID : ℕ
  selling : Asset
  buying : Asset
  amount : ℤ
  price : Price
  flags : ℕ
deriving DecidableEq, Repr

structure DataEntry where
  accountID : AccountID
  dataName : XString
  dataValue : XString
deriving DecidableEq, Repr

structure ReversedPaymentEntry where
  rID : ℤ
deriving DecidableEq, Repr

inductive LedgerEntryData where
  | account (account : AccountEntry)
  | trustLine (trustLine : TrustLineEntry)
  | offer (offer : OfferEntry)
  | data (data : DataEntry)
  | reversedPayment (reversedPayment : ReversedPaymentEntry)
deriving DecidableEq, Repr

structure LedgerEntry where
  lastModifiedLedgerSeq : ℕ
  data : LedgerEntryData
deriving DecidableEq, Repr

/-! ## Keys -/

inductive LedgerKey where
  | account (accountID : AccountID)
  | trustLine (accountID : AccountID) (asset : Asset)
  | offer (sellerID : AccountID) (offerID : ℕ)
  | data (accountID : AccountID) (dataName : XString)
  | reversedPayment (rID : ℤ)
deriving DecidableEq, Repr

def LedgerEntryKey (e : LedgerEntry) : LedgerKey :=
  match e.data with
  | .account a => .account a.accountID
  | .trustLine tl => .trustLine tl.accountID tl.asset
  | .offer o => .offer o.sellerID o.offerID
  | .data d => .data d.accountID d.dataName
  | .reversedPayment rp => .reversedPayment rp.rID

namespace LedgerKey

/-- The type of a key as a number. -/
def type : LedgerKey → ℕ
  | account _ => 0
  | trustLine _ _ => 1
  | offer _ _ => 2
  | data _ _ => 3
  | reversedPayment _ => 4

/-- The key in the order of its parts. -/
def code : LedgerKey → List ℤ
  | account accountID => [0, (accountID : ℤ)]
  | trustLine accountID asset => 1 :: (accountID : ℤ) :: asset.code
  | offer sellerID offerID => [2, (sellerID : ℤ), (offerID : ℤ)]
  | data accountID dataName => 3 :: (accountID : ℤ) :: dataName.map fun b => (b.val : ℤ)
  | reversedPayment rID => [4, rID]

theorem code_injective : Function.Injective code := by
  intro a b h
  cases a <;> cases b <;> simp only [code, List.cons.injEq] at h <;> try omega
  · rw [Int.ofNat.inj h.2.1]
  · obtain ⟨-, ha, hc⟩ := h
    rw [Int.ofNat.inj ha, Asset.code_injective hc]
  · obtain ⟨-, ha, hc, -⟩ := h
    rw [Int.ofNat.inj ha, Int.ofNat.inj hc]
  · obtain ⟨-, ha, hc⟩ := h
    rw [Int.ofNat.inj ha, Asset.map_val_injective hc]
  · rw [h.2.1]

instance : LinearOrder LedgerKey := LinearOrder.lift' code code_injective

theorem lt_iff {a b : LedgerKey} : a < b ↔ a.code < b.code := Iff.rfl

end LedgerKey

/-- `LedgerEntryIdCmp`: compares two entries or keys for identity, not content. -/
def ledgerEntryIdCmp (a b : LedgerKey) : Bool :=
  if a.type < b.type then true
  else if b.type < a.type then false
  else
    match a, b with
    | .account a, .account b => decide (a < b)
    | .trustLine a asset, .trustLine b asset' =>
      if a < b then true else if b < a then false else decide (asset < asset')
    | .offer a offerID, .offer b offerID' =>
      if a < b then true else if b < a then false else decide (offerID < offerID')
    | .data a dataName, .data b dataName' =>
      if a < b then true else if b < a then false else decide (dataName < dataName')
    | .reversedPayment rID, .reversedPayment rID' => decide (rID < rID')
    | _, _ => false

theorem map_val_lt_iff (l l' : XString) :
    (l.map fun b => (b.val : ℤ)) < (l'.map fun b => (b.val : ℤ)) ↔ l < l' := by
  induction l generalizing l' with
  | nil => cases l' <;> simp
  | cons b l ih =>
    cases l' with
    | nil => simp
    | cons b' l' =>
      rw [List.map_cons, List.map_cons, List.cons_lt_cons_iff, List.cons_lt_cons_iff, ih l',
        Int.ofNat_lt, Int.ofNat_inj, Fin.val_fin_lt, Fin.val_inj]

theorem lt_or_le_and_iff {a b : ℕ} {p q : Prop} (h : p ↔ q) :
    a < b ∨ a ≤ b ∧ p ↔ a < b ∨ a = b ∧ q := by
  rw [← h]
  constructor
  · rintro (hlt | ⟨hle, hp⟩)
    · exact Or.inl hlt
    · exact hle.lt_or_eq.imp id fun heq => ⟨heq, hp⟩
  · rintro (hlt | ⟨heq, hp⟩)
    · exact Or.inl hlt
    · exact Or.inr ⟨heq.le, hp⟩

/-- **The comparison is the order of the keys.** -/
theorem ledgerEntryIdCmp_iff (a b : LedgerKey) : ledgerEntryIdCmp a b = true ↔ a < b := by
  rw [LedgerKey.lt_iff]
  cases a <;> cases b <;>
    simp [ledgerEntryIdCmp, LedgerKey.type, LedgerKey.code, List.cons_lt_cons_iff]
  · exact lt_or_le_and_iff Asset.lt_iff
  · exact lt_or_le_and_iff Iff.rfl
  · exact lt_or_le_and_iff (map_val_lt_iff _ _).symm

end SmartCore.Ledger
