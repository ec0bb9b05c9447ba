import Badem.Core.WalletBackups

/-!
# RPC handlers

Handlers of `node/rpc.cpp`.  A handler takes the fields of a request as texts and returns the
responses it gives, in order, and the wallets of the node as it leaves them.
-/

namespace Badem

abbrev WalletItems := Uint256 → Option WalletStore

namespace RpcHandler

/-- The loop of `wallet_add_watch` over the accounts of a request. -/
def addWatch (check : Account → BitVec 40) :
    List Text → WalletStore → Except Fault (List String × WalletStore)
  | [], w => .ok ([], w)
  | accountText :: rest, w => do
      match ← decodeAccount check accountText with
      | some account => addWatch check rest (w.insertWatch account)
      | none => do
          let (responses, w) ← addWatch check rest w
          pure ("Bad account number" :: responses, w)

/-- `wallet_add_watch`, with the identifier of the wallet and the accounts. -/
def walletAddWatch (enableControl : Bool) (crypto : Crypto) (check : Account → BitVec 40)
    (items : WalletItems) (walletText : Text) (accounts : List Text) :
    Except Fault (List String × WalletItems) :=
  if enableControl = true then
    match Uint256.decodeHex walletText with
    | some wallet =>
      match items wallet with
      | some existing =>
        if existing.validPassword crypto = true then do
          let (responses, w) ← addWatch check accounts existing
          pure (responses ++ ["success"], Function.update items wallet (some w))
        else .ok (["Wallet locked"], items)
      | none => .ok (["Wallet not found"], items)
    | none => .ok (["Bad wallet number"], items)
  else .ok (["RPC control is disabled"], items)

/-- `account_move`.  What an account is left with when its text is no number is an argument. -/
def accountMove (enableControl : Bool) (crypto : Crypto) (junk : Text → Account)
    (items : WalletItems) (walletText sourceText : Text) (accounts : List Text) :
    Except Fault (List String × WalletItems) :=
  if enableControl = true then
    match Uint256.decodeHex walletText with
    | some wallet =>
      match items wallet with
      | some existing =>
        match Uint256.decodeHex sourceText with
        | some source =>
          match items source with
          | some _ => do
              let keys := accounts.map (fun text =>
                (Uint256.decodeHex text).getD (junk text))
              let (error, stores) ← WalletStore.move crypto wallet source keys
                (fun i => (items i).getD existing)
              pure ([if error then "0" else "1"],
                Function.update (Function.update items wallet (some (stores wallet))) source
                  (some (stores source)))
          | none => .ok (["Source not found"], items)
        | none => .ok (["Bad source number"], items)
      | none => .ok (["Wallet not found"], items)
    | none => .ok (["Bad wallet number"], items)
  else .ok (["RPC control is disabled"], items)

/-- `account_remove`, with the identifier of the wallet and the account.  The response is the
field `removed`. -/
def accountRemove (enableControl : Bool) (crypto : Crypto) (check : Account → BitVec 40)
    (items : WalletItems) (walletText accountText : Text) :
    Except Fault (List String × WalletItems) :=
  if enableControl = true then
    match Uint256.decodeHex walletText with
    | some wallet =>
      match items wallet with
      | some existing =>
        if existing.validPassword crypto = true then do
          match ← decodeAccount check accountText with
          | some account =>
            match existing.find account with
            | some _ => do
                let w ← existing.erase account
                pure (["1"], Function.update items wallet (some w))
            | none => pure (["Account not found in wallet"], items)
          | none => pure (["Bad account number"], items)
        else .ok (["Wallet locked"], items)
      | none => .ok (["Wallet not found"], items)
    | none => .ok (["Bad wallet number"], items)
  else .ok (["RPC control is disabled"], items)

/-! ## Units -/

def bdmRatio : Uint128 := 100

def rawRatio : Uint128 := 1

/-- A request to convert raw to a unit, with the amount; the answer is the field `amount`. -/
def fromRaw (ratio : Uint128) (amountText : Text) : Except String Text :=
  match Uint128.decodeDec amountText with
  | some amount => .ok (Uint128.toStringDec (amount / ratio))
  | none => .error "Bad amount number"

/-- A request to convert a unit to raw, with the amount; the answer is the field `amount`. -/
def toRaw (ratio : Uint128) (amountText : Text) : Except String Text :=
  match Uint128.decodeDec amountText with
  | some amount =>
    let result := amount * ratio
    if result > amount then .ok (Uint128.toStringDec result) else .error "Amount too big"
  | none => .error "Bad amount number"

def bdmFromRaw (amountText : Text) : Except String Text := fromRaw bdmRatio amountText

def bdmToRaw (amountText : Text) : Except String Text := toRaw bdmRatio amountText

def rawFromRaw (amountText : Text) : Except String Text := fromRaw rawRatio amountText

def rawToRaw (amountText : Text) : Except String Text := toRaw rawRatio amountText

end RpcHandler

end Badem
