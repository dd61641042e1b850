import SmartCore.Ledger.Entries
import SmartCore.Lib.LruCache
import SmartCore.Lib.Xdr

/-!
# The cache of verified signatures

`PubKeyUtils::verifySig` keeps its results under the hash of the key, the signature and the message, one
after the other. With signatures of 64 bytes each hash is that of one triple, and the cache makes no
difference (`answers_eq`). A shorter signature and a message that begins with the rest of it have the
same hash, and without the cache the missing bytes are read from what comes after them in memory.
-/

namespace SmartCore.Crypto

open SmartCore.Ledger

def crypto_sign_BYTES : ℕ := 64

/-- A call. The type of a signature admits up to 64 bytes; `beyond` is what comes after them in
memory. -/
structure VerifyCall where
  key : Opaque 32
  signature : List Byte
  bin : List Byte
  beyond : ℕ → Byte
  length_le : signature.length ≤ crypto_sign_BYTES

/-- The functions of the library. -/
structure Sodium (H : Type) where
  sha256 : List Byte → H
  crypto_sign_verify_detached : Opaque 64 → List Byte → Opaque 32 → Bool

/-- What is read at the address of a signature. -/
def VerifyCall.read (c : VerifyCall) : Opaque 64 :=
  ⟨(List.range 64).map fun i => c.signature.getD i (c.beyond i), by simp⟩

/-! ## The code -/

section Code

variable {H : Type} [DecidableEq H] (lib : Sodium H)

structure VerifySigCache (H : Type) where
  gVerifySigCache : LruCache H Bool := ⟨0xffff, []⟩
  gVerifyCacheHit : ℕ := 0
  gVerifyCacheMiss : ℕ := 0
  gVerifyCacheIgnore : ℕ := 0

def shouldCacheVerifySig (_ : VerifyCall) : Bool := true

def verifySigCacheKey (c : VerifyCall) : H := lib.sha256 (c.key.1 ++ c.signature ++ c.bin)

def verifySig (c : VerifyCall) (s : VerifySigCache H) : Bool × VerifySigCache H :=
  let verified := lib.crypto_sign_verify_detached c.read c.bin c.key
  if shouldCacheVerifySig c then
    let cacheKey := verifySigCacheKey lib c
    match s.gVerifySigCache.get? cacheKey with
    | some ok =>
      (ok, { s with
        gVerifySigCache := s.gVerifySigCache.touch cacheKey ok
        gVerifyCacheHit := s.gVerifyCacheHit + 1 })
    | none =>
      (verified, { s with
        gVerifySigCache := s.gVerifySigCache.put cacheKey verified
        gVerifyCacheMiss := s.gVerifyCacheMiss + 1 })
  else (verified, { s with gVerifyCacheIgnore := s.gVerifyCacheIgnore + 1 })

def clearVerifySigCache (s : VerifySigCache H) : VerifySigCache H :=
  { s with gVerifySigCache := ⟨s.gVerifySigCache.maxSize, []⟩ }

def flushVerifySigCacheCounts (s : VerifySigCache H) : VerifySigCache H :=
  { s with gVerifyCacheHit := 0, gVerifyCacheMiss := 0, gVerifyCacheIgnore := 0 }

inductive CacheOp where
  | verifySig (c : VerifyCall)
  | clearVerifySigCache
  | flushVerifySigCacheCounts

/-- What the calls of a run return. -/
def answers : List CacheOp → VerifySigCache H → List Bool
  | [], _ => []
  | .verifySig c :: ops, s =>
    let (ok, s) := verifySig lib c s
    ok :: answers ops s
  | .clearVerifySigCache :: ops, s => answers ops (clearVerifySigCache s)
  | .flushVerifySigCacheCounts :: ops, s => answers ops (flushVerifySigCacheCounts s)

end Code

/-! ## Transparency -/

/-- A signature is valid if it has 64 bytes and is one of the message with the key. -/
def VerifyCall.valid {H : Type} (lib : Sodium H) (c : VerifyCall) : Bool :=
  if h : c.signature.length = 64 then
    lib.crypto_sign_verify_detached ⟨c.signature, h⟩ c.bin c.key
  else false

/-- The calls of a run. -/
def calls (ops : List CacheOp) : List VerifyCall :=
  ops.filterMap fun
    | .verifySig c => some c
    | _ => none

section Transparency

variable {H : Type} [DecidableEq H] {lib : Sodium H} {c c' : VerifyCall} {s : VerifySigCache H}

theorem read_eq (h : c.signature.length = 64) : c.read = ⟨c.signature, h⟩ := by
  refine Subtype.ext (List.ext_getElem (by simp [VerifyCall.read, h]) fun i hi hi' => ?_)
  have hlt : i < c.signature.length := hi'
  simp [VerifyCall.read, List.getElem?_eq_getElem hlt]

omit [DecidableEq H] in
theorem verified_eq (h : c.signature.length = 64) :
    lib.crypto_sign_verify_detached c.read c.bin c.key = c.valid lib := by
  rw [read_eq h, VerifyCall.valid, dif_pos h]

omit [DecidableEq H] in
/-- Among signatures of 64 bytes, the hash determines what is verified. -/
theorem valid_eq_of_key (hinj : Function.Injective lib.sha256) (h : c.signature.length = 64)
    (h' : c'.signature.length = 64) (hkey : verifySigCacheKey lib c = verifySigCacheKey lib c') :
    c.valid lib = c'.valid lib := by
  have hconcat := hinj hkey
  rw [List.append_assoc, List.append_assoc] at hconcat
  obtain ⟨hpk, hrest⟩ := List.append_inj hconcat (by rw [c.key.2, c'.key.2])
  obtain ⟨hsig, hbin⟩ := List.append_inj hrest (by rw [h, h'])
  have hpk' : c.key = c'.key := Subtype.ext hpk
  unfold VerifyCall.valid
  simp only [hsig, hbin, hpk']

/-- Each item is the result of a signature of 64 bytes. -/
def Cached (lib : Sodium H) (s : VerifySigCache H) : Prop :=
  s.gVerifySigCache.All fun cacheKey ok =>
    ∃ c : VerifyCall, c.signature.length = 64 ∧ cacheKey = verifySigCacheKey lib c ∧
      ok = c.valid lib

/-- A call keeps this, and returns what verifying returns. -/
theorem Cached.verifySig (hinj : Function.Injective lib.sha256) (hs : Cached lib s)
    (h : c.signature.length = 64) :
    (verifySig lib c s).1 = c.valid lib ∧ Cached lib (verifySig lib c s).2 := by
  unfold Crypto.verifySig
  simp only [shouldCacheVerifySig, if_true, verified_eq h]
  cases hget : s.gVerifySigCache.get? (verifySigCacheKey lib c) with
  | none => exact ⟨rfl, LruCache.All.put hs ⟨c, h, rfl, rfl⟩⟩
  | some ok =>
    obtain ⟨c', h', hkey, rfl⟩ := LruCache.All.get? hs hget
    have heq := valid_eq_of_key hinj h' h hkey.symm
    exact ⟨heq, LruCache.All.touch hs ⟨c, h, rfl, heq⟩⟩

theorem Cached.answers (hinj : Function.Injective lib.sha256) {ops : List CacheOp}
    (hs : Cached lib s) (h : ∀ c ∈ calls ops, c.signature.length = 64) :
    answers lib ops s = (calls ops).map (·.valid lib) := by
  induction ops generalizing s with
  | nil => rfl
  | cons op ops ih =>
    cases op with
    | verifySig c =>
      obtain ⟨hc, hops⟩ := List.forall_mem_cons.mp h
      obtain ⟨hok, hs'⟩ := hs.verifySig hinj hc
      show (Crypto.verifySig lib c s).1 :: Crypto.answers lib ops (Crypto.verifySig lib c s).2 = _
      rw [hok, ih hs' hops]
      rfl
    | clearVerifySigCache => exact ih LruCache.all_empty h
    | flushVerifySigCacheCounts => exact ih hs h

end Transparency

/-- **The cache is transparent** for signatures of 64 bytes: in every run all calls return what verifying
returns. -/
theorem answers_eq {H : Type} [DecidableEq H] (lib : Sodium H)
    (hinj : Function.Injective lib.sha256) (ops : List CacheOp)
    (h : ∀ c ∈ calls ops, c.signature.length = 64) :
    answers lib ops {} = (calls ops).map (·.valid lib) :=
  Cached.answers hinj LruCache.all_empty h

/-! ### A signature that is too short -/

/-- One signature is valid, of one message. -/
def someSodium : Sodium (List Byte) where
  sha256 := id
  crypto_sign_verify_detached signature bin _ := signature.1 = List.replicate 64 1 ∧ bin = [5]

def validCall : VerifyCall where
  key := ⟨List.replicate 32 0, rfl⟩
  signature := List.replicate 64 1
  bin := [5]
  beyond _ := 0
  length_le := by decide

/-- The last byte of the signature is the first one of the message. -/
def shortCall : VerifyCall where
  key := ⟨List.replicate 32 0, rfl⟩
  signature := List.replicate 63 1
  bin := [1, 5]
  beyond _ := 0
  length_le := by decide

theorem answers_eq_example :
    answers someSodium [.verifySig validCall, .verifySig validCall, .clearVerifySigCache,
        .verifySig validCall] {} =
      List.replicate 3 (validCall.valid someSodium) :=
  answers_eq someSodium Function.injective_id _ (by simp [calls, validCall])

/-- After the valid signature, the short one is found in the cache. -/
theorem answers_shortCall :
    answers someSodium [.verifySig validCall, .verifySig shortCall] {} = [true, true] ∧
      shortCall.valid someSodium = false := by
  decide

end SmartCore.Crypto
