import Badem.Core.BlockStore
import Mathlib

/-!
# Wallet store

`wallet_store` of `node/wallet.cpp`.  A wallet is a table with seven special entries and one
entry per account.  AES in counter mode adds a keystream, so one operation encrypts and
decrypts.  Random numbers are arguments.  Locks and errors of the database are left out.
-/

namespace Badem

open Mdb

abbrev Uint32 := BitVec 32
abbrev RawKey := Uint256

/-- The cryptographic functions that wallets use. -/
structure Crypto where
  /-- What `AES_ENC_CTR` adds to a text, for a key and an initialisation vector. -/
  keystream : RawKey → Uint128 → Uint256
  /-- `kdf::phs`: `argon2` of a password and a salt. -/
  phs : String → Uint256 → RawKey
  /-- `ed25519_publickey`. -/
  publicKey : RawKey → Account
  /-- `deterministic_key`: the key with an index, from a seed. -/
  deterministicKey : RawKey → Uint32 → RawKey
  /-- `sign_message`, with the private key, the public key and the message. -/
  signMessage : RawKey → Account → Uint256 → Signature

def Crypto.encrypt (crypto : Crypto) (cleartext key : RawKey) (iv : Uint128) : Uint256 :=
  cleartext ^^^ crypto.keystream key iv

def Crypto.decrypt (crypto : Crypto) (ciphertext : Uint256) (key : RawKey) (iv : Uint128) :
    RawKey :=
  ciphertext ^^^ crypto.keystream key iv

@[simp] theorem Crypto.decrypt_encrypt (crypto : Crypto) (x key : RawKey) (iv : Uint128) :
    crypto.decrypt (crypto.encrypt x key iv) key iv = x := by
  rw [decrypt, encrypt, BitVec.xor_assoc, BitVec.xor_self, BitVec.xor_zero]

/-- The first of the two `owords` of a number: its more significant half. -/
def firstOword (x : Uint256) : Uint128 := x.extractLsb' 128 128

/-! ## Fans -/

/-- A key spread over several values, which are added up to obtain it. -/
structure Fan where
  values : List Uint256
  nonempty : values ≠ []

namespace Fan

def create (key : Uint256) (entries : List Uint256) : Fan where
  values := entries ++ [entries.foldl (· ^^^ ·) key]
  nonempty := by simp

def value (f : Fan) : RawKey := f.values.foldl (· ^^^ ·) 0

/-- `fan::value_set`: only the first value changes. -/
def valueSet (f : Fan) (value : RawKey) : Fan where
  values := f.values.modifyHead (fun x => x ^^^ f.value ^^^ value)
  nonempty := by simpa using f.nonempty

theorem foldl_xor (l : List Uint256) :
    ∀ x : Uint256, l.foldl (· ^^^ ·) x = x ^^^ l.foldl (· ^^^ ·) 0 := by
  induction l with
  | nil =>
    intro x
    simp
  | cons y l ih =>
    intro x
    rw [List.foldl_cons, List.foldl_cons, ih (x ^^^ y), ih (0 ^^^ y), BitVec.xor_assoc]
    simp

@[simp] theorem value_create (key : Uint256) (entries : List Uint256) :
    (create key entries).value = key := by
  rw [value, create, List.foldl_append, List.foldl_cons, List.foldl_nil, foldl_xor entries key,
    BitVec.xor_comm key, ← BitVec.xor_assoc, BitVec.xor_self, BitVec.zero_xor]

@[simp] theorem value_valueSet (f : Fan) (v : RawKey) : (f.valueSet v).value = v := by
  obtain ⟨values, nonempty⟩ := f
  cases values with
  | nil => exact absurd rfl nonempty
  | cons x l =>
    simp only [valueSet, value, List.modifyHead_cons, List.foldl_cons]
    rw [foldl_xor l (0 ^^^ x), foldl_xor l (0 ^^^ _)]
    generalize l.foldl (· ^^^ ·) (0 : Uint256) = rest
    -- The first value cancels within the new one, and the others with themselves.
    have hfirst : x ^^^ (0 ^^^ x ^^^ rest) = rest := by
      rw [← BitVec.xor_assoc]
      simp
    rw [hfirst, BitVec.xor_comm rest v, BitVec.xor_assoc, BitVec.xor_assoc, BitVec.xor_self]
    simp

end Fan

/-! ## Entries -/

structure WalletValue where
  key : Uint256
  work : Uint64
deriving DecidableEq

inductive KeyType
  | notAType
  | unknown
  | adhoc
  | deterministic
deriving DecidableEq

def WalletValue.keyType (value : WalletValue) : KeyType :=
  if 2 ^ 64 - 1 < value.key.toNat then .adhoc
  else if (value.key.toNat >>> 32) % 2 ^ 32 = 1 then .deterministic
  else .unknown

structure WalletStore where
  password : Fan
  walletKeyMem : Fan
  table : Table Uint256 WalletValue

namespace WalletStore

def versionCurrent : Nat := 3

def versionSpecial : Uint256 := 0
def saltSpecial : Uint256 := 1
def walletKeySpecial : Uint256 := 2
def checkSpecial : Uint256 := 3
def representativeSpecial : Uint256 := 4
def seedSpecial : Uint256 := 5
def deterministicIndexSpecial : Uint256 := 6
def specialCount : Uint256 := 7

section Table

variable (w : WalletStore)

/-- `entry_get_raw`, which returns zeros where there is no entry. -/
def entryGetRaw (pub : Account) : WalletValue := (w.table.get pub).getD ⟨0, 0⟩

def entryPutRaw (pub : Account) (entry : WalletValue) : WalletStore :=
  { w with table := w.table.put pub entry }

def find (pub : Account) : Option WalletValue := w.table.get pub

def keyExists (pub : Account) : Bool := (w.find pub).isSome

/-- The entries from `begin` to `end`, which leave out the special ones. -/
def accountEntries : List (Account × WalletValue) :=
  w.table.entries.filter (fun x => specialCount ≤ x.1)

def accounts : List Account := w.accountEntries.map Prod.fst

def check : Uint256 := (w.entryGetRaw checkSpecial).key

def salt : Uint256 := (w.entryGetRaw saltSpecial).key

def iv : Uint128 := firstOword w.salt

def representative : Account := (w.entryGetRaw representativeSpecial).key

/-- `wallet_store::version`: the last byte of the entry. -/
def version : Nat := (w.entryGetRaw versionSpecial).key.toNat % 256

def versionPut (version : Nat) : WalletStore :=
  w.entryPutRaw versionSpecial ⟨BitVec.ofNat 256 version, 0⟩

def insertWatch (pub : Account) : WalletStore := w.entryPutRaw pub ⟨0, 0⟩

def erase (pub : Account) : Except Fault WalletStore := do
  require ((w.table.get pub).isSome = true)
  pure { w with table := w.table.del pub }

/-- The cached work of an account, zero when its entry has no key. -/
def workGet (pub : Account) : Uint64 :=
  let entry := w.entryGetRaw pub
  if entry.key ≠ 0 then entry.work else 0

def workPut (pub : Account) (work : Uint64) : Except Fault WalletStore := do
  let entry := w.entryGetRaw pub
  require (entry.key ≠ 0)
  pure (w.entryPutRaw pub { entry with work := work })

def deterministicIndexGet : Uint32 := (w.entryGetRaw deterministicIndexSpecial).key.setWidth 32

def deterministicIndexSet (index : Uint32) : WalletStore :=
  w.entryPutRaw deterministicIndexSpecial ⟨index.setWidth 256, 0⟩

def clearEntry (w : WalletStore) (x : Account × WalletValue) : Except Fault WalletStore :=
  if x.2.keyType = .deterministic then w.erase x.1 else .ok w

def deterministicClear : Except Fault WalletStore := do
  let w ← w.accountEntries.foldlM clearEntry w
  pure (w.deterministicIndexSet 0)

end Table

section Keys

variable (crypto : Crypto) (w : WalletStore)

def walletKey : RawKey := crypto.decrypt w.walletKeyMem.value w.password.value w.iv

def seed : RawKey := crypto.decrypt (w.entryGetRaw seedSpecial).key (w.walletKey crypto) w.iv

def seedSet (prv : RawKey) : Except Fault WalletStore :=
  (w.entryPutRaw seedSpecial ⟨crypto.encrypt prv (w.walletKey crypto) w.iv, 0⟩).deterministicClear

/-- `valid_password`: the encryption of zero is compared with the check value. -/
def validPassword : Bool := decide (w.check = crypto.encrypt 0 (w.walletKey crypto) w.iv)

def deriveKey (password : String) : RawKey := crypto.phs password w.salt

def deterministicKey (index : Uint32) : Except Fault RawKey := do
  require (w.validPassword crypto = true)
  pure (crypto.deterministicKey (w.seed crypto) index)

/-- The first index from the given one on whose key is not in the wallet.  After `2 ^ 32` steps the
loop goes on forever. -/
def deterministicSearch : Nat → Uint32 → Except Fault (Uint32 × Account)
  | 0, _ => .error .outOfFuel
  | fuel + 1, index => do
      let prv ← w.deterministicKey crypto index
      let result := crypto.publicKey prv
      if w.keyExists result = true then deterministicSearch fuel (index + 1)
      else pure (index, result)

def marker (index : Uint32) : Uint256 := (1#64 <<< 32 ||| index.setWidth 64).setWidth 256

def deterministicInsert : Except Fault (Account × WalletStore) := do
  let (index, result) ← w.deterministicSearch crypto (2 ^ 32) w.deterministicIndexGet
  let w := w.entryPutRaw result ⟨marker index, 0⟩
  pure (result, w.deterministicIndexSet (index + 1))

def insertAdhoc (prv : RawKey) : Except Fault (Account × WalletStore) := do
  require (w.validPassword crypto = true)
  let pub := crypto.publicKey prv
  let ciphertext := crypto.encrypt prv (w.walletKey crypto) w.iv
  pure (pub, w.entryPutRaw pub ⟨ciphertext, 0⟩)

def entryKey (value : WalletValue) : Except Fault (Option RawKey) :=
  if value.key ≠ 0 then
    match value.keyType with
    | .deterministic => do
        let prv ← w.deterministicKey crypto (value.key.setWidth 32)
        pure (some prv)
    | .adhoc => .ok (some (crypto.decrypt value.key (w.walletKey crypto) w.iv))
    | _ => .ok none
  else
    .ok none

/-- `wallet_store::fetch`: the private key of an account, if it can be had. -/
def fetch (pub : Account) : Except Fault (Option RawKey) :=
  if w.validPassword crypto = true then do
    let prv ← w.entryKey crypto (w.entryGetRaw pub)
    pure (prv.filter (fun prv => decide (pub = crypto.publicKey prv)))
  else
    .ok none

def rekey (password : String) : Bool × WalletStore :=
  if w.validPassword crypto = true then
    let passwordNew := w.deriveKey crypto password
    let encrypted := crypto.encrypt (w.walletKey crypto) passwordNew w.iv
    let w := { w with
      password := w.password.valueSet passwordNew
      walletKeyMem := w.walletKeyMem.valueSet encrypted }
    (false, w.entryPutRaw walletKeySpecial ⟨encrypted, 0⟩)
  else
    (true, w)

/-- Encrypt the key of an account anew, when it was encrypted by a key from before the
first upgrade. -/
def upgradeEntry (zeroPassword emptyPassword : RawKey) (w : WalletStore) (pub : Account) :
    Except Fault WalletStore := do
  let fetched ← w.fetch crypto pub
  if fetched.isSome = true then
    pure w
  else
    let data := (w.entryGetRaw pub).key
    let prv := crypto.decrypt data zeroPassword w.iv
    let prv' := crypto.decrypt data emptyPassword w.iv
    if crypto.publicKey prv = pub then do
      let (_, w) ← w.insertAdhoc crypto prv
      pure w
    else if crypto.publicKey prv' = pub then do
      let (_, w) ← w.insertAdhoc crypto prv'
      pure w
    else
      pure w

def upgradeV1V2 : Except Fault WalletStore := do
  require (w.version = 1)
  let value := (w.entryGetRaw walletKeySpecial).key
  let zeroPassword := crypto.decrypt value 0 w.iv
  let emptyPassword := crypto.decrypt value (w.deriveKey crypto "") w.iv
  let w ← w.accounts.foldlM (upgradeEntry crypto zeroPassword emptyPassword) w
  pure (w.versionPut 2)

/-- `upgrade_v2_v3`, with the new seed. -/
def upgradeV2V3 (seed : RawKey) : Except Fault WalletStore := do
  require (w.version = 2)
  let w ← w.seedSet crypto seed
  pure ((w.entryPutRaw deterministicIndexSpecial ⟨0, 0⟩).versionPut 3)

/-- `attempt_password`.  An upgrade has a transaction of its own, so both tests read the version
from before. -/
def attemptPassword (seed : RawKey) (password : String) : Except Fault (Bool × WalletStore) :=
  let w := { w with password := w.password.valueSet (w.deriveKey crypto password) }
  if w.validPassword crypto = true then do
    let upgraded ← if w.version = 1 then w.upgradeV1V2 crypto else .ok w
    let upgraded ← if w.version = 2 then upgraded.upgradeV2V3 crypto seed else .ok upgraded
    pure (false, upgraded)
  else
    .ok (true, w)

end Keys

/-! ## Construction -/

structure Draws where
  passwordFan : List Uint256
  walletKeyFan : List Uint256
  salt : Uint256
  walletKey : RawKey
  seed : RawKey

/-- The entries of a new wallet up to its representative.  The password of a new wallet is
the zero key. -/
def initialEntries (crypto : Crypto) (draws : Draws) (representative : Account)
    (w : WalletStore) : WalletStore :=
  let iv := firstOword draws.salt
  let w := w.versionPut versionCurrent
  let w := w.entryPutRaw saltSpecial ⟨draws.salt, 0⟩
  let w := { w with password := w.password.valueSet 0 }
  let encrypted := crypto.encrypt draws.walletKey 0 iv
  let w := w.entryPutRaw walletKeySpecial ⟨encrypted, 0⟩
  let w := { w with walletKeyMem := w.walletKeyMem.valueSet encrypted }
  let w := w.entryPutRaw checkSpecial ⟨crypto.encrypt 0 draws.walletKey iv, 0⟩
  w.entryPutRaw representativeSpecial ⟨representative, 0⟩

def populate (crypto : Crypto) (draws : Draws) (representative : Account) (w : WalletStore) :
    Except Fault WalletStore := do
  let w ← (initialEntries crypto draws representative w).seedSet crypto draws.seed
  pure (w.entryPutRaw deterministicIndexSpecial ⟨0, 0⟩)

/-- The constructor of `wallet_store` over a table, which is filled when it is new. -/
def create (crypto : Crypto) (draws : Draws) (representative : Account)
    (table : Table Uint256 WalletValue) : Except Fault WalletStore := do
  let w : WalletStore :=
    { password := .create 0 draws.passwordFan
      walletKeyMem := .create 0 draws.walletKeyFan
      table := table }
  let w ← if (table.get versionSpecial).isNone = true then populate crypto draws representative w
    else .ok w
  pure { w with walletKeyMem := w.walletKeyMem.valueSet (w.entryGetRaw walletKeySpecial).key }

end WalletStore

end Badem
