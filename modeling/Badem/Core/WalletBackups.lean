import Badem.Core.WalletStore
import Badem.Text.Numbers

/-!
# Moves and backups of wallets

The functions of `wallet_store` that take keys from one wallet to another and those that write
a wallet as text and read it again (`node/wallet.cpp`).  All wallets are given by their names,
so that two may be one and the same.  The tree library is an argument.
-/

namespace Badem

open Mdb

namespace WalletStore

def representativeSet (w : WalletStore) (representative : Account) : WalletStore :=
  w.entryPutRaw representativeSpecial ⟨representative, 0⟩

/-! ## Moves -/

section Moves

variable {ι : Type} [DecidableEq ι] (crypto : Crypto) (dst src : ι)

/-- One turn of the loops of `move` and `import`: once there has been an error, nothing is
moved any more. -/
def moveKey (state : Bool × (ι → WalletStore)) (key : Account) :
    Except Fault (Bool × (ι → WalletStore)) := do
  let (result, stores) := state
  let fetched ← (stores src).fetch crypto key
  match result, fetched with
  | false, some prv => do
      let (_, w) ← (stores dst).insertAdhoc crypto prv
      let stores := Function.update stores dst w
      let w ← (stores src).erase key
      pure (false, Function.update stores src w)
  | _, _ => pure (true, stores)

/-- `wallet_store::move`, with its result and the wallets after it. -/
def move (keys : List Account) (stores : ι → WalletStore) :
    Except Fault (Bool × (ι → WalletStore)) := do
  require ((stores dst).validPassword crypto = true)
  require ((stores src).validPassword crypto = true)
  keys.foldlM (moveKey crypto dst src) (false, stores)

/-- `wallet_store::import`: the same for all accounts of the other wallet, in their order. -/
def importStore (stores : ι → WalletStore) : Except Fault (Bool × (ι → WalletStore)) :=
  move crypto dst src (stores src).accounts stores

end Moves

/-! ## Texts -/

end WalletStore

/-- A map of strings, in the order in which the tree library holds it. -/
structure StringMap where
  entries : List (Text × Text)
  nodup : (entries.map Prod.fst).Nodup

def StringMap.get (m : StringMap) (name : Text) : Option Text :=
  (m.entries.find? (fun x => x.1 = name)).map Prod.snd

/-- The part of the tree library that wallets use. -/
structure TreeLibrary where
  writeJson : StringMap → Text
  readJson : Text → Option StringMap

namespace WalletStore

/-- The tree that `serialize_json` writes: the works are left out. -/
def jsonTree (w : WalletStore) : StringMap where
  entries := w.table.entries.map (fun x => (Uint256.encodeHex x.1, Uint256.encodeHex x.2.key))
  nodup := by
    rw [List.map_map]
    refine List.Pairwise.map _ (fun x y hlt heq => ?_) w.table.sorted
    exact absurd (Uint256.encodeHex_injective heq) hlt.ne

def serializeJson (lib : TreeLibrary) (w : WalletStore) : Text := lib.writeJson w.jsonTree

/-- One turn of the loop of the constructor, which sets the error to what this entry gives. -/
def readEntry (m : StringMap) (state : Bool × WalletStore) (x : Text × Text) :
    Bool × WalletStore :=
  match Uint256.decodeHex x.1 with
  | some key =>
    match (m.get x.1).bind Uint256.decodeHex with
    | some value => (false, state.2.entryPutRaw key ⟨value, 0⟩)
    | none => (true, state.2)
  | none => (true, state.2)

/-- The entries that a text must have. -/
def requiredSpecials : List Uint256 :=
  [versionSpecial, walletKeySpecial, saltSpecial, checkSpecial, representativeSpecial]

/-- The constructor of `wallet_store` from a text over a new table, with the error that it
reports. -/
def createFromJson (lib : TreeLibrary) (passwordFan walletKeyFan : List Uint256) (json : Text) :
    Bool × WalletStore :=
  let w : WalletStore :=
    { password := .create 0 passwordFan
      walletKeyMem := .create 0 walletKeyFan
      table := .empty }
  let (init, w) :=
    match lib.readJson json with
    | some m => m.entries.foldl (readEntry m) (false, w)
    | none => (true, w)
  let init := init || requiredSpecials.any (fun key => (w.table.get key).isNone)
  (init, { w with
    password := w.password.valueSet 0
    walletKeyMem := w.walletKeyMem.valueSet (w.entryGetRaw walletKeySpecial).key })

/-- `wallet::import`: the text is read into a wallet of its own, which is dropped at the end.
The seed is the one that an upgrade would set. -/
def importWallet (crypto : Crypto) (lib : TreeLibrary) (passwordFan walletKeyFan : List Uint256)
    (seed : RawKey) (w : WalletStore) (json : Text) (password : String) :
    Except Fault (Bool × WalletStore) := do
  let (error, temp) := createFromJson lib passwordFan walletKeyFan json
  let (error, temp) ← if error = false then temp.attemptPassword crypto seed password
    else .ok (error, temp)
  if error = false then do
    let (error, stores) ← importStore crypto true false (fun b => if b then w else temp)
    pure (error, stores true)
  else
    pure (true, w)

end WalletStore

end Badem
