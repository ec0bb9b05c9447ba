import Badem.Core.NumberText
import Badem.Core.WalletActions

/-!
# Change of the seed

`wallet::change_seed` of `node/wallet.cpp`, without the work that is generated for some of the
keys.
-/

namespace Badem

open Mdb

/-- The constructor of `keypair` from a text, with both keys. -/
def keypair (crypto : Crypto) (text : Text) : Except Fault (RawKey × Account) := do
  let prv ← expect (Uint256.decodeHex text)
  pure (prv, crypto.publicKey prv)

/-- The loop of `deterministic_clear` from a position of the cursor.  After an entry has been
erased, the cursor is set to its key anew. -/
def WalletStore.clearLoop : Nat → Nat → WalletStore → Except Fault WalletStore
  | 0, _, _ => .error .outOfFuel
  | fuel + 1, i, w =>
    match w.table.entries[i]? with
    | none => .ok w
    | some (key, value) =>
      if value.keyType = .deterministic then do
        let w ← w.erase key
        clearLoop fuel (w.table.position key) w
      else
        clearLoop fuel (i + 1) w

namespace Wallet

variable (crypto : Crypto) (s : BlockStore)

/-- `wallet::deterministic_insert`, with the account zero for a locked wallet. -/
def deterministicInsert (w : WalletStore) : Except Fault (Account × WalletStore) :=
  if w.validPassword crypto = true then w.deterministicInsert crypto else .ok (0, w)

/-- An account is taken as used: it has a head block, or the cursors at its first pending key and at
that of the next account differ. -/
def accountUsed (pub : Account) : Bool :=
  if Ledger.latest s pub ≠ 0 then true
  else decide (s.pending.position ⟨pub, 0⟩ ≠ s.pending.position ⟨pub + 1, 0⟩)

/-- The first loop of `change_seed`, from an index `i` up to a bound `n` that moves.  Both
have 32 bits. -/
def scanSeed (w : WalletStore) : Nat → Uint32 → Uint32 → Uint32 → Except Fault Uint32
  | 0, _, _, _ => .error .outOfFuel
  | fuel + 1, i, n, count =>
    if i < n then do
      let prv ← w.deterministicKey crypto i
      let (_, pub) ← keypair crypto (Uint256.encodeHex prv)
      if accountUsed s pub = true then
        scanSeed w fuel (i + 1) (i + 64 + i / 64) i
      else
        scanSeed w fuel (i + 1) n count
    else
      .ok count

/-- The second loop of `change_seed`, with the account that was inserted last. -/
def insertSeed : Nat → Account × WalletStore → Except Fault (Account × WalletStore)
  | 0, x => .ok x
  | count + 1, x => do
      let x ← deterministicInsert crypto x.2
      insertSeed count x

def changeSeed (w : WalletStore) (prv : RawKey) : Except Fault (Account × WalletStore) := do
  let w ← w.seedSet crypto prv
  let (account, w) ← deterministicInsert crypto w
  let count ← scanSeed crypto s w (2 ^ 32) 1 64 0
  insertSeed crypto count.toNat (account, w)

end Wallet

end Badem
