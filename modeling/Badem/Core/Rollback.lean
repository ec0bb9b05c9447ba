import Badem.Core.Process

/-!
# Rolling back blocks

`ledger::rollback` and the handlers of `rollback_visitor`, which receive `rollback` itself as an
argument.  Recursion and loops are bounded by a fuel argument.
-/

namespace Badem

open BlockStore

def rollbackUntil (rollback : BlockStore → BlockHash → Except Fault BlockStore)
    (ready : BlockStore → Bool) (account : Account) :
    Nat → BlockStore → Except Fault BlockStore
  | 0, _ => .error .outOfFuel
  | fuel + 1, s =>
    if ready s = true then
      .ok s
    else do
      let s ← rollback s (Ledger.latest s account)
      rollbackUntil rollback ready account fuel s

namespace RollbackVisitor

open Ledger

section Handlers

variable (env : Env) (now : Nat)
variable (rollback : BlockStore → BlockHash → Except Fault BlockStore) (fuel : Nat)

/-- Delete the block info of a block at a multiple of `blockInfoMax`. -/
def infoDel (s : BlockStore) (info : AccountInfo) (hash : BlockHash) :
    Except Fault BlockStore :=
  if info.blockCount % blockInfoMax = 0 then s.blockInfoDel hash else .ok s

def sendBlock (s : BlockStore) (b : SendBlock) : Except Fault BlockStore := do
  let hash := (Block.sendBlock b).hash env
  let key : PendingKey := ⟨b.hashables.destination, hash⟩
  let s ← rollbackUntil rollback (fun s => (s.pendingGet key).isSome)
    b.hashables.destination fuel s
  let pending ← expect (s.pendingGet key)
  let info ← expect (s.accountGet pending.source)
  let s ← s.pendingDel key
  let rep ← representative env s hash
  let s ← s.representationAdd rep pending.amount
  let previousBalance ← balance env s b.hashables.previous
  let s ← changeLatest now s pending.source b.hashables.previous info.repBlock
    previousBalance (info.blockCount - 1) false
  let s ← s.blockDel hash
  let s ← s.frontierDel hash
  let s := s.frontierPut b.hashables.previous pending.source
  let s ← s.blockSuccessorClear env b.hashables.previous
  infoDel s info hash

def receiveBlock (s : BlockStore) (b : ReceiveBlock) : Except Fault BlockStore := do
  let hash := (Block.receiveBlock b).hash env
  let previousRep ← representative env s b.hashables.previous
  let amount ← Ledger.amount env s b.hashables.source
  let destinationAccount ← account s hash
  let sourceAccount ← account s b.hashables.source
  let info ← expect (s.accountGet destinationAccount)
  let rep ← representative env s hash
  let s ← s.representationAdd rep (0 - amount)
  let previousBalance ← balance env s b.hashables.previous
  let s ← changeLatest now s destinationAccount b.hashables.previous previousRep
    previousBalance (info.blockCount - 1) false
  let s ← s.blockDel hash
  let s := s.pendingPut ⟨destinationAccount, b.hashables.source⟩ ⟨sourceAccount, amount⟩
  let s ← s.frontierDel hash
  let s := s.frontierPut b.hashables.previous destinationAccount
  let s ← s.blockSuccessorClear env b.hashables.previous
  infoDel s info hash

def openBlock (s : BlockStore) (b : OpenBlock) : Except Fault BlockStore := do
  let hash := (Block.openBlock b).hash env
  let amount ← Ledger.amount env s b.hashables.source
  let destinationAccount ← account s hash
  let sourceAccount ← account s b.hashables.source
  let rep ← representative env s hash
  let s ← s.representationAdd rep (0 - amount)
  let s ← changeLatest now s destinationAccount 0 0 0 0 false
  let s ← s.blockDel hash
  let s := s.pendingPut ⟨destinationAccount, b.hashables.source⟩ ⟨sourceAccount, amount⟩
  s.frontierDel hash

def changeBlock (s : BlockStore) (b : ChangeBlock) : Except Fault BlockStore := do
  let hash := (Block.changeBlock b).hash env
  let previousRep ← representative env s b.hashables.previous
  let account ← Ledger.account s b.hashables.previous
  let info ← expect (s.accountGet account)
  let previousBalance ← balance env s b.hashables.previous
  let s ← s.representationAdd previousRep previousBalance
  let s ← s.representationAdd hash (0 - previousBalance)
  let s ← s.blockDel hash
  let s ← changeLatest now s account b.hashables.previous previousRep info.balance
    (info.blockCount - 1) false
  let s ← s.frontierDel hash
  let s := s.frontierPut b.hashables.previous account
  let s ← s.blockSuccessorClear env b.hashables.previous
  infoDel s info hash

/-- The part of the state block handler that restores the previous block. -/
def stateRestore (s : BlockStore) (b : StateBlock) : Except Fault BlockStore :=
  match s.blockGet b.hashables.previous with
  | some previous => do
      let s ← s.blockSuccessorClear env b.hashables.previous
      if previous.type.code < BlockType.state.code then
        pure (s.frontierPut b.hashables.previous b.hashables.account)
      else
        pure s
  | none => .ok s

/-- The part of the state block handler that undoes the transfer. -/
def stateTransfer (s : BlockStore) (b : StateBlock) (previousBalance : Amount) :
    Except Fault BlockStore :=
  if b.hashables.balance < previousBalance then do
    let key : PendingKey := ⟨b.hashables.link, (Block.stateBlock b).hash env⟩
    let s ← rollbackUntil rollback (fun s => s.pendingExists key) b.hashables.link fuel s
    s.pendingDel key
  else if b.hashables.link ≠ 0 then do
    let source ← account s b.hashables.link
    pure
      (s.pendingPut ⟨b.hashables.account, b.hashables.link⟩
        ⟨source, b.hashables.balance - previousBalance⟩)
  else
    .ok s

def stateBlock (s : BlockStore) (b : StateBlock) : Except Fault BlockStore := do
  let hash := (Block.stateBlock b).hash env
  let previousRep ←
    (if b.hashables.previous ≠ 0 then representative env s b.hashables.previous else pure 0)
  let previousBalance ← balance env s b.hashables.previous
  let s ← s.representationAdd hash (0 - b.hashables.balance)
  let s ← (if previousRep ≠ 0 then s.representationAdd previousRep previousBalance else pure s)
  let s ← stateTransfer env rollback fuel s b previousBalance
  let info ← expect (s.accountGet b.hashables.account)
  let s ← changeLatest now s b.hashables.account b.hashables.previous previousRep
    previousBalance (info.blockCount - 1) false
  let s ← stateRestore env s b
  s.blockDel hash

def visit (s : BlockStore) : Block → Except Fault BlockStore
  | .sendBlock b => sendBlock env now rollback fuel s b
  | .receiveBlock b => receiveBlock env now s b
  | .openBlock b => openBlock env now s b
  | .changeBlock b => changeBlock env now s b
  | .stateBlock b => stateBlock env now rollback fuel s b

end Handlers

end RollbackVisitor

def rollbackWhile (visit : BlockStore → Block → Except Fault BlockStore)
    (hash : BlockHash) (account : Account) :
    Nat → BlockStore → Except Fault BlockStore
  | 0, _ => .error .outOfFuel
  | fuel + 1, s =>
    if s.blockExists hash = true then do
      let info ← expect (s.accountGet account)
      let b ← deref (s.blockGet info.head)
      let s ← visit s b
      rollbackWhile visit hash account fuel s
    else
      .ok s

def rollbackLoop (env : Env) (now : Nat) :
    Nat → BlockStore → BlockHash → Except Fault BlockStore
  | 0, _, _ => .error .outOfFuel
  | fuel + 1, s, hash => do
      require (s.blockExists hash = true)
      let account ← Ledger.account s hash
      rollbackWhile (RollbackVisitor.visit env now (rollbackLoop env now fuel) fuel)
        hash account fuel s

namespace Ledger

def rollback (env : Env) (now : Nat) (s : BlockStore) (hash : BlockHash) :
    Except Fault BlockStore :=
  rollbackLoop env now (s.blockCount + 2) s hash

end Ledger

/-- Ledgers reached from the genesis ledger by processing blocks of `U` and rolling
back stored blocks other than the genesis block. -/
inductive Reachable (env : Env) (U : Set Block) : BlockStore → Prop
  | genesis {now : Nat} {s : BlockStore} :
      genesisInitialize env now .empty = .ok s →
      Reachable env U s
  | process {now : Nat} {s s' : BlockStore} {b : Block} {r : ProcessReturn} :
      Reachable env U s →
      b ∈ U →
      Ledger.process env now s b = .ok (r, s') →
      Reachable env U s'
  | rollback {now : Nat} {s s' : BlockStore} {hash : BlockHash} :
      Reachable env U s →
      s.blockExists hash = true →
      hash ≠ env.genesisHash →
      Ledger.rollback env now s hash = .ok s' →
      Reachable env U s'

end Badem
