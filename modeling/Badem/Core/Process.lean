import Badem.Core.Visitors

/-!
# Processing blocks

`ledger::process` with the handlers of `ledger_processor` for the five block types, and
`genesis::initialize`.  Fields of `process_return` that a path leaves unset are `none`.
-/

namespace Badem

open BlockStore

inductive ProcessResult
  | progress
  | badSignature
  | old
  | negativeSpend
  | fork
  | unreceivable
  | gapPrevious
  | gapSource
  | openedBurnAccount
  | balanceMismatch
  | blockPosition
deriving DecidableEq

structure ProcessReturn where
  code : ProcessResult
  account : Option Account
  amount : Option Amount
  pendingAccount : Option Account
  stateIsSend : Option Bool
deriving DecidableEq

def ProcessReturn.ofCode (code : ProcessResult) : ProcessReturn where
  code := code
  account := none
  amount := none
  pendingAccount := none
  stateIsSend := none

/-- A result with a code and the amount computed before the code was known. -/
def ProcessReturn.ofAmount (code : ProcessResult) (amount : Amount) : ProcessReturn where
  code := code
  account := none
  amount := some amount
  pendingAccount := none
  stateIsSend := none

namespace LedgerProcessor

open Ledger

def changeBlock (env : Env) (now : Nat) (s : BlockStore) (b : ChangeBlock) :
    Except Fault (ProcessReturn × BlockStore) :=
  let hash := (Block.changeBlock b).hash env
  if s.blockExists hash = true then
    .ok (.ofCode .old, s)
  else
    match s.blockGet b.hashables.previous with
    | none => .ok (.ofCode .gapPrevious, s)
    | some previous =>
      if (Block.changeBlock b).validPredecessor previous = false then
        .ok (.ofCode .blockPosition, s)
      else
        let account := s.frontierGet b.hashables.previous
        if account = 0 then
          .ok (.ofCode .fork, s)
        else do
          let info ← expect (s.accountGet account)
          require (info.head = b.hashables.previous)
          if env.validateMessage account hash b.signature = true then
            pure (.ofCode .badSignature, s)
          else do
            let s ← s.blockPut env hash (.changeBlock b) 0
            let balance ← Ledger.balance env s b.hashables.previous
            let s ← s.representationAdd hash balance
            let s ← s.representationAdd info.repBlock (0 - balance)
            let s ← changeLatest now s account hash hash info.balance
              (info.blockCount + 1) false
            let s ← s.frontierDel b.hashables.previous
            let s := s.frontierPut hash account
            pure
              ({ ProcessReturn.ofCode .progress with
                  account := some account
                  amount := some 0 }, s)

def sendBlock (env : Env) (now : Nat) (s : BlockStore) (b : SendBlock) :
    Except Fault (ProcessReturn × BlockStore) :=
  let hash := (Block.sendBlock b).hash env
  if s.blockExists hash = true then
    .ok (.ofCode .old, s)
  else
    match s.blockGet b.hashables.previous with
    | none => .ok (.ofCode .gapPrevious, s)
    | some previous =>
      if (Block.sendBlock b).validPredecessor previous = false then
        .ok (.ofCode .blockPosition, s)
      else
        let account := s.frontierGet b.hashables.previous
        if account = 0 then
          .ok (.ofCode .fork, s)
        else if env.validateMessage account hash b.signature = true then
          .ok (.ofCode .badSignature, s)
        else do
          let info ← expect (s.accountGet account)
          require (info.head = b.hashables.previous)
          if info.balance < b.hashables.balance then
            pure (.ofCode .negativeSpend, s)
          else do
            let amount := info.balance - b.hashables.balance
            let s ← s.representationAdd info.repBlock (0 - amount)
            let s ← s.blockPut env hash (.sendBlock b) 0
            let s ← changeLatest now s account hash info.repBlock b.hashables.balance
              (info.blockCount + 1) false
            let s := s.pendingPut ⟨b.hashables.destination, hash⟩ ⟨account, amount⟩
            let s ← s.frontierDel b.hashables.previous
            let s := s.frontierPut hash account
            pure
              ({ ProcessReturn.ofCode .progress with
                  account := some account
                  amount := some amount
                  pendingAccount := some b.hashables.destination }, s)

def receiveBlock (env : Env) (now : Nat) (s : BlockStore) (b : ReceiveBlock) :
    Except Fault (ProcessReturn × BlockStore) :=
  let hash := (Block.receiveBlock b).hash env
  if s.blockExists hash = true then
    .ok (.ofCode .old, s)
  else
    match s.blockGet b.hashables.previous with
    | none => .ok (.ofCode .gapPrevious, s)
    | some previous =>
      if (Block.receiveBlock b).validPredecessor previous = false then
        .ok (.ofCode .blockPosition, s)
      else if s.blockExists b.hashables.source = false then
        .ok (.ofCode .gapSource, s)
      else
        let account := s.frontierGet b.hashables.previous
        if account = 0 then
          .ok
            (.ofCode
              (if s.blockExists b.hashables.previous = true then .fork else .gapPrevious), s)
        else if env.validateMessage account hash b.signature = true then
          .ok (.ofCode .badSignature, s)
        else
          let info := (s.accountGet account).getD .zero
          if info.head ≠ b.hashables.previous then
            .ok (.ofCode .gapPrevious, s)
          else
            match s.pendingGet ⟨account, b.hashables.source⟩ with
            | none => .ok (.ofCode .unreceivable, s)
            | some pending => do
                let newBalance ← env.add info.balance pending.amount
                let _ ← expect (s.accountGet pending.source)
                let s ← s.pendingDel ⟨account, b.hashables.source⟩
                let s ← s.blockPut env hash (.receiveBlock b) 0
                let s ← changeLatest now s account hash info.repBlock newBalance
                  (info.blockCount + 1) false
                let s ← s.representationAdd info.repBlock pending.amount
                let s ← s.frontierDel b.hashables.previous
                let s := s.frontierPut hash account
                pure
                  ({ ProcessReturn.ofCode .progress with
                      account := some account
                      amount := some pending.amount }, s)

def openBlock (env : Env) (now : Nat) (s : BlockStore) (b : OpenBlock) :
    Except Fault (ProcessReturn × BlockStore) :=
  let hash := (Block.openBlock b).hash env
  if s.blockExists hash = true then
    .ok (.ofCode .old, s)
  else if s.blockExists b.hashables.source = false then
    .ok (.ofCode .gapSource, s)
  else if env.validateMessage b.hashables.account hash b.signature = true then
    .ok (.ofCode .badSignature, s)
  else
    match s.accountGet b.hashables.account with
    | some _ => .ok (.ofCode .fork, s)
    | none =>
      match s.pendingGet ⟨b.hashables.account, b.hashables.source⟩ with
      | none => .ok (.ofCode .unreceivable, s)
      | some pending =>
        if b.hashables.account = burnAccount then
          .ok (.ofCode .openedBurnAccount, s)
        else do
          let _ ← expect (s.accountGet pending.source)
          let s ← s.pendingDel ⟨b.hashables.account, b.hashables.source⟩
          let s ← s.blockPut env hash (.openBlock b) 0
          let s ← changeLatest now s b.hashables.account hash hash pending.amount
            (AccountInfo.zero.blockCount + 1) false
          let s ← s.representationAdd hash pending.amount
          let s := s.frontierPut hash b.hashables.account
          pure
            ({ ProcessReturn.ofCode .progress with
                account := some b.hashables.account
                amount := some pending.amount }, s)

/-- Outcome of the tests of `state_block_impl` on the position of the block: the code,
the amount moved and whether the block is a send. -/
def statePosition (s : BlockStore) (b : StateBlock) : Option AccountInfo →
    ProcessResult × Amount × Bool
  | some info =>
    if b.hashables.previous = 0 then
      (.fork, b.hashables.balance, false)
    else if s.blockExists b.hashables.previous = false then
      (.gapPrevious, b.hashables.balance, false)
    else
      let isSend := decide (b.hashables.balance < info.balance)
      let amount :=
        if isSend then info.balance - b.hashables.balance
        else b.hashables.balance - info.balance
      if b.hashables.previous = info.head then (.progress, amount, isSend)
      else (.fork, amount, isSend)
  | none =>
    if b.hashables.previous ≠ 0 then (.gapPrevious, b.hashables.balance, false)
    else if b.hashables.link = 0 then (.gapSource, b.hashables.balance, false)
    else (.progress, b.hashables.balance, false)

/-- Outcome of the tests of `state_block_impl` on the link of a block that does not send. -/
def stateLink (s : BlockStore) (b : StateBlock) (amount : Amount) : ProcessResult :=
  if b.hashables.link ≠ 0 then
    if s.blockExists b.hashables.link = false then
      .gapSource
    else
      match s.pendingGet ⟨b.hashables.account, b.hashables.link⟩ with
      | none => .unreceivable
      | some pending => if amount = pending.amount then .progress else .balanceMismatch
  else if amount = 0 then
    .progress
  else
    .balanceMismatch

/-- The updates that `state_block_impl` makes once all tests have passed. -/
def stateApply (env : Env) (now : Nat) (s : BlockStore) (b : StateBlock)
    (info : AccountInfo) (amount : Amount) (isSend : Bool) : Except Fault BlockStore := do
  let hash := (Block.stateBlock b).hash env
  let s ← s.blockPut env hash (.stateBlock b) 0
  let s ←
    (if info.repBlock ≠ 0 then s.representationAdd info.repBlock (0 - info.balance)
    else pure s)
  let s ← s.representationAdd hash b.hashables.balance
  let s ←
    (if isSend = true then
      pure (s.pendingPut ⟨b.hashables.link, hash⟩ ⟨b.hashables.account, amount⟩)
    else if b.hashables.link ≠ 0 then
      s.pendingDel ⟨b.hashables.account, b.hashables.link⟩
    else
      pure s)
  let s ← changeLatest now s b.hashables.account hash hash b.hashables.balance
    (info.blockCount + 1) true
  if s.frontierGet info.head ≠ 0 then s.frontierDel info.head else pure s

def stateBlock (env : Env) (now : Nat) (s : BlockStore) (b : StateBlock) :
    Except Fault (ProcessReturn × BlockStore) :=
  let hash := (Block.stateBlock b).hash env
  if s.blockExists hash = true then
    .ok (.ofCode .old, s)
  else if env.validateMessage b.hashables.account hash b.signature = true then
    .ok (.ofCode .badSignature, s)
  else if b.hashables.account = 0 then
    .ok (.ofCode .openedBurnAccount, s)
  else
    let found := s.accountGet b.hashables.account
    let (code, amount, isSend) := statePosition s b found
    let code :=
      if code = .progress ∧ isSend = false then stateLink s b amount else code
    if code = .progress then do
      let s ← stateApply env now s b (found.getD .zero) amount isSend
      pure
        ({ ProcessReturn.ofAmount .progress amount with
            account := some b.hashables.account
            stateIsSend := some isSend }, s)
    else
      .ok (.ofAmount code amount, s)

end LedgerProcessor

namespace Ledger

def process (env : Env) (now : Nat) (s : BlockStore) :
    Block → Except Fault (ProcessReturn × BlockStore)
  | .sendBlock b => LedgerProcessor.sendBlock env now s b
  | .receiveBlock b => LedgerProcessor.receiveBlock env now s b
  | .openBlock b => LedgerProcessor.openBlock env now s b
  | .changeBlock b => LedgerProcessor.changeBlock env now s b
  | .stateBlock b => LedgerProcessor.stateBlock env now s b

/-- Process blocks one after another, each with its clock reading, as long as every one
of them is accepted. -/
def processAll (env : Env) (s : BlockStore) : List (Nat × Block) → Except Fault BlockStore
  | [] => .ok s
  | (now, b) :: blocks => do
      let (r, s) ← process env now s b
      require (r.code = .progress)
      processAll env s blocks

end Ledger

def genesisInitialize (env : Env) (now : Nat) (s : BlockStore) : Except Fault BlockStore := do
  let hash := env.genesisHash
  require (s.accounts.entries = [])
  let s ← s.blockPut env hash (.openBlock env.genesisOpen) 0
  let s := s.accountPut env.genesisAccount
    { head := hash
      repBlock := hash
      openBlock := hash
      balance := genesisAmount
      modified := now
      blockCount := 1 }
  let s := s.representationPut env.genesisAccount genesisAmount
  let s ← s.checksumPut 0 0 hash
  pure (s.frontierPut hash env.genesisAccount)

end Badem
