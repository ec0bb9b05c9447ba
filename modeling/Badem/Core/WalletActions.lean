import Badem.Core.BlockProcessor
import Badem.Core.WalletStore
import Badem.Mdb.Cursor
import Mathlib.Logic.Function.Basic

/-!
# Wallet actions

The actions of `wallet` and `wallets` that sign, up to the block they have built.  Which ids the
database does not take as keys is a parameter.
-/

namespace Badem

open Mdb

/-- The part of the ledger that holds the weights used while the ledger is small. -/
structure BootstrapWeights where
  /-- `check_bootstrap_weights`. -/
  check : Bool
  maxBlocks : Nat
  weights : Table Account Uint128

structure WalletEnv extends NodeEnv, Crypto where
  receiveMinimum : Amount
  bootstrapWeights : BootstrapWeights
  /-- Ids for which `mdb_get` returns something other than a value or `MDB_NOTFOUND`. -/
  getFails : String → Bool
  /-- Ids for which `mdb_put` fails. -/
  putFails : String → Bool

namespace Ledger

def accountBalance (s : BlockStore) (account : Account) : Uint128 :=
  match s.accountGet account with
  | some info => info.balance
  | none => 0

/-- The loop of `account_pending` up to the position `n`.  The position behind the last
entry has no value that could be read. -/
def accountPendingLoop (s : BlockStore) (n : Nat) : Nat → Nat → Uint128 → Except Fault Uint128
  | 0, _, _ => .error .outOfFuel
  | fuel + 1, i, result =>
    if i ≠ n then do
      let entry ← expect s.pending.entries[i]?
      accountPendingLoop s n fuel (i + 1) (result + entry.2.amount)
    else
      .ok result

/-- `account_pending`, between the first keys of the account and of the next one. -/
def accountPending (s : BlockStore) (account : Account) : Except Fault Uint128 :=
  accountPendingLoop s (s.pending.position ⟨account + 1, 0⟩) (s.pending.size + 1)
    (s.pending.position ⟨account, 0⟩) 0

def weight (w : BootstrapWeights) (s : BlockStore) (account : Account) : Uint128 :=
  if w.check = true ∧ s.blockCount < w.maxBlocks then
    match w.weights.get account with
    | some weight => weight
    | none => s.representationGet account
  else
    s.representationGet account

end Ledger

def StateBlock.sign (env : WalletEnv) (hashables : StateHashables) (prv : RawKey) (pub : Account)
    (work : Uint64) : StateBlock where
  hashables := hashables
  signature := env.signMessage prv pub ((Block.stateBlock ⟨hashables, 0, 0⟩).hash env.toEnv)
  work := work

namespace Wallet

variable (env : WalletEnv) (w : WalletStore) (s : BlockStore)

def receiveAction (send : Block) (representative : Account) (amount : Amount) :
    Except Fault (Option StateBlock) :=
  let hash := send.hash env.toEnv
  if env.receiveMinimum ≤ amount then
    if s.blockExists hash = true then do
      let account ← Ledger.blockDestination env.toEnv s send
      match s.pendingGet ⟨account, hash⟩ with
      | none => pure none
      | some pending => do
          let fetched ← w.fetch env.toCrypto account
          match fetched with
          | none => pure none
          | some prv =>
            let work := w.workGet account
            match s.accountGet account with
            | some info => do
                let repBlock ← expect (s.blockGet info.repBlock)
                pure (some (.sign env
                  { account := account
                    previous := info.head
                    representative := repBlock.representative
                    balance := info.balance + pending.amount
                    link := hash } prv account work))
            | none =>
              pure (some (.sign env
                { account := account
                  previous := 0
                  representative := representative
                  balance := pending.amount
                  link := hash } prv account work))
    else
      .ok none
  else
    .ok none

def changeAction (source representative : Account) : Except Fault (Option StateBlock) :=
  if w.validPassword env.toCrypto = true then
    if w.keyExists source = true ∧ Ledger.latest s source ≠ 0 then do
      let info ← expect (s.accountGet source)
      let fetched ← w.fetch env.toCrypto source
      let prv ← expect fetched
      pure (some (.sign env
        { account := source
          previous := info.head
          representative := representative
          balance := info.balance
          link := 0 } prv source (w.workGet source)))
    else
      .ok none
  else
    .ok none

def sendBlock (source account : Account) (amount : Uint128) : Except Fault (Option StateBlock) :=
  if w.validPassword env.toCrypto = true then
    if w.keyExists source = true then
      let balance := Ledger.accountBalance s source
      if balance ≠ 0 ∧ amount ≤ balance then do
        let info ← expect (s.accountGet source)
        let fetched ← w.fetch env.toCrypto source
        let prv ← expect fetched
        let repBlock ← expect (s.blockGet info.repBlock)
        pure (some (.sign env
          { account := source
            previous := info.head
            representative := repBlock.representative
            balance := balance - amount
            link := account } prv source (w.workGet source)))
      else
        .ok none
    else
      .ok none
  else
    .ok none

/-- `send_action_ids`: the hash of the block that was built for an id. -/
abbrev SendActionIds := String → Option BlockHash

/-- What a call of `send_action` returns: a block that the ledger has, a new one, or
nothing. -/
inductive SendResult
  | nothing
  | cached (block : Block)
  | created (block : StateBlock)

def recordSend (ids : SendActionIds) (id : Option String) :
    Option StateBlock → SendResult × SendActionIds
  | none => (.nothing, ids)
  | some block =>
    match id with
    | none => (.created block, ids)
    | some id =>
      if env.putFails id = true then (.nothing, ids)
      else (.created block, Function.update ids id ((Block.stateBlock block).hash env.toEnv))

def sendAction (ids : SendActionIds) (source account : Account) (amount : Uint128)
    (id : Option String) : Except Fault (SendResult × SendActionIds) :=
  if id.any env.getFails = true then
    .ok (.nothing, ids)
  else
    match (id.bind ids).bind s.blockGet with
    | some block => .ok (.cached block, ids)
    | none => do
        let block ← sendBlock env w s source account amount
        pure (recordSend env ids id block)

end Wallet

namespace Wallets

def walletRepresentatives (env : WalletEnv) (s : BlockStore) (w : WalletStore) :
    List Account → Except Fault (List (Account × RawKey))
  | [] => .ok []
  | account :: accounts =>
    if Ledger.weight env.bootstrapWeights s account ≠ 0 ∧
        w.validPassword env.toCrypto = true then do
      let fetched ← w.fetch env.toCrypto account
      let prv ← expect fetched
      let rest ← walletRepresentatives env s w accounts
      pure ((account, prv) :: rest)
    else
      walletRepresentatives env s w accounts

/-- `foreach_representative`: the arguments of the action, over the wallets in the order in
which they are visited. -/
def foreachRepresentative (env : WalletEnv) (s : BlockStore) :
    List WalletStore → Except Fault (List (Account × RawKey))
  | [] => .ok []
  | w :: items => do
      let actions ← walletRepresentatives env s w w.accounts
      let rest ← foreachRepresentative env s items
      pure (actions ++ rest)

end Wallets

namespace RpcHandler

/-- A decoded request to send; a field that cannot be decoded is missing. -/
structure SendRequest where
  wallet : Option Uint256
  source : Option Account
  destination : Option Account
  amount : Option Amount
  /-- The work, when the request gives one. -/
  work : Option (Option Uint64)
  id : Option String

structure SendCall where
  source : Account
  account : Account
  amount : Uint128
  id : Option String

variable (env : WalletEnv) (s : BlockStore)

def applyWork (w : WalletStore) (source : Account) (info : AccountInfo) (work : Uint64) :
    Except Fault (Except String WalletStore) :=
  if work = 0 then .ok (.ok w)
  else if env.workValue info.head work < env.network.publishThreshold then
    .ok (.error "Invalid work")
  else do
    let w ← w.workPut source work
    pure (.ok w)

def checkSend (w : WalletStore) (call : SendCall) (work : Uint64) :
    Except Fault (Except String (WalletStore × SendCall)) :=
  match s.accountGet call.source with
  | none => .ok (.error "Account not found")
  | some info => do
      let applied ← applyWork env w call.source info work
      match applied with
      | .error text => pure (.error text)
      | .ok w =>
        if call.amount ≤ info.balance then pure (.ok (w, call))
        else pure (.error "Insufficient balance")

/-- `rpc_handler::send` up to the call of `send_async`: the wallet and the arguments, or the
text of the error. -/
def send (enableControl : Bool) (wallets : Uint256 → Option WalletStore) (r : SendRequest) :
    Except Fault (Except String (WalletStore × SendCall)) :=
  if enableControl = false then .ok (.error "RPC control is disabled")
  else
    match r.wallet with
    | none => .ok (.error "Bad wallet number")
    | some wallet =>
      match wallets wallet with
      | none => .ok (.error "Wallet not found")
      | some w =>
        match r.source, r.destination, r.amount, r.work with
        | none, _, _, _ => .ok (.error "Bad source account")
        | some _, none, _, _ => .ok (.error "Bad destination account")
        | some _, some _, none, _ => .ok (.error "Bad amount format")
        | some _, some _, some _, some none => .ok (.error "Bad work")
        | some source, some destination, some amount, some (some work) =>
          checkSend env s w ⟨source, destination, amount, r.id⟩ work
        | some source, some destination, some amount, none =>
          checkSend env s w ⟨source, destination, amount, r.id⟩ 0

/-- The response to a request to send, once the action has run: the hash of the block, or the
text of the error. -/
def sendResponse : Wallet.SendResult → Except String BlockHash
  | .nothing => .error "Error generating block"
  | .cached block => .ok (block.hash env.toEnv)
  | .created block => .ok ((Block.stateBlock block).hash env.toEnv)

/-- A request to send as a whole.  The action is queued: it runs on the wallet `later`, the
ledger `s'` and the ids of a later moment. -/
def answerSend (enableControl : Bool) (wallets : Uint256 → Option WalletStore) (r : SendRequest)
    (later : WalletStore) (s' : BlockStore) (ids : Wallet.SendActionIds) :
    Except Fault (Except String BlockHash × Wallet.SendActionIds) := do
  match ← send env s enableControl wallets r with
  | .error text => pure (.error text, ids)
  | .ok (_, call) => do
      let (result, ids) ← Wallet.sendAction env later s' ids call.source call.account call.amount
        call.id
      pure (sendResponse env result, ids)

end RpcHandler

end Badem
