import Badem.Core.BlockStore

/-!
# Block visitors

The three visitors of `common.cpp`: the amount moved by a block, the balance right after it and
the block that names its representative.  `visitorFuel` grants every stored block a constant
number of iterations; running out of it is the fault `outOfFuel`.
-/

namespace Badem

open BlockStore

def Env.add (env : Env) (a b : Uint128) : Except Fault Uint128 :=
  if env.checked = true ∧ 2 ^ 128 ≤ a.toNat + b.toNat then .error .overflow
  else .ok (a + b)

theorem Env.add_of_lt (env : Env) {a b : Uint128} (h : a.toNat + b.toNat < 2 ^ 128) :
    env.add a b = .ok (a + b) := by
  rw [Env.add, if_neg]
  rintro ⟨-, hle⟩
  omega

structure AmountVisitor where
  currentAmount : BlockHash
  currentBalance : BlockHash
  amount : Uint128

def AmountVisitor.visit (env : Env) (v : AmountVisitor) : Block → AmountVisitor
  | .sendBlock b =>
    { currentBalance := b.hashables.previous
      amount := b.hashables.balance
      currentAmount := 0 }
  | .receiveBlock b => { v with currentAmount := b.hashables.source }
  | .openBlock b =>
    if b.hashables.source ≠ env.genesisAccount then
      { v with currentAmount := b.hashables.source }
    else
      { v with amount := genesisAmount, currentAmount := 0 }
  | .changeBlock _ => { v with amount := 0, currentAmount := 0 }
  | .stateBlock b =>
    { currentBalance := b.hashables.previous
      amount := b.hashables.balance
      currentAmount := 0 }

structure BalanceVisitor where
  currentBalance : BlockHash
  currentAmount : BlockHash
  balance : Uint128

def BalanceVisitor.finish (env : Env) (v : BalanceVisitor) (balance : Uint128) :
    Except Fault BalanceVisitor := do
  let sum ← env.add v.balance balance
  pure { v with balance := sum, currentBalance := 0 }

def BalanceVisitor.visit (env : Env) (s : BlockStore) (v : BalanceVisitor) :
    Block → Except Fault BalanceVisitor
  | .sendBlock b => v.finish env b.hashables.balance
  | .receiveBlock b =>
    match s.blockInfoGet ((Block.receiveBlock b).hash env) with
    | some info => v.finish env info.balance
    | none =>
      .ok { v with
        currentAmount := b.hashables.source
        currentBalance := b.hashables.previous }
  | .openBlock b => .ok { v with currentAmount := b.hashables.source, currentBalance := 0 }
  | .changeBlock b =>
    match s.blockInfoGet ((Block.changeBlock b).hash env) with
    | some info => v.finish env info.balance
    | none => .ok { v with currentBalance := b.hashables.previous }
  | .stateBlock b => .ok { v with balance := b.hashables.balance, currentBalance := 0 }

mutual

def amountLoop (env : Env) (s : BlockStore) :
    Nat → BlockHash → AmountVisitor → Except Fault AmountVisitor
  | 0, _, _ => .error .outOfFuel
  | fuel + 1, hash, v =>
    if v.currentAmount = 0 ∧ v.currentBalance = 0 then
      .ok v
    else if v.currentAmount ≠ 0 then
      match s.blockGet v.currentAmount with
      | some b => amountLoop env s fuel hash (v.visit env b)
      | none =>
        if hash = env.genesisAccount then
          amountLoop env s fuel hash { v with amount := genesisAmount, currentAmount := 0 }
        else
          .error .assertion
    else do
      let prev ← balanceLoop env s fuel
        { currentBalance := v.currentBalance, currentAmount := 0, balance := 0 }
      amountLoop env s fuel hash
        { v with
          amount :=
            if v.amount < prev.balance then prev.balance - v.amount
            else v.amount - prev.balance
          currentBalance := 0 }

def balanceLoop (env : Env) (s : BlockStore) :
    Nat → BalanceVisitor → Except Fault BalanceVisitor
  | 0, _ => .error .outOfFuel
  | fuel + 1, v =>
    if v.currentBalance = 0 ∧ v.currentAmount = 0 then
      .ok v
    else if v.currentAmount ≠ 0 then do
      let source ← amountLoop env s fuel v.currentAmount
        { currentAmount := v.currentAmount, currentBalance := 0, amount := 0 }
      let sum ← env.add v.balance source.amount
      balanceLoop env s fuel { v with balance := sum, currentAmount := 0 }
    else do
      let b ← expect (s.blockGet v.currentBalance)
      let v ← v.visit env s b
      balanceLoop env s fuel v

end

def visitorFuel (s : BlockStore) : Nat := 4 * (s.blockCount + 1)

def representativeLoop (env : Env) (s : BlockStore) :
    Nat → BlockHash → BlockHash → Except Fault BlockHash
  | 0, _, _ => .error .outOfFuel
  | fuel + 1, current, result =>
    if result ≠ 0 then
      .ok result
    else do
      let b ← expect (s.blockGet current)
      match b with
      | .sendBlock sb => representativeLoop env s fuel sb.hashables.previous result
      | .receiveBlock rb => representativeLoop env s fuel rb.hashables.previous result
      | b => representativeLoop env s fuel current (b.hash env)

namespace Ledger

/-- Balance of the account containing a block, right after that block. -/
def balance (env : Env) (s : BlockStore) (hash : BlockHash) : Except Fault Uint128 := do
  let v ← balanceLoop env s (visitorFuel s)
    { currentBalance := hash, currentAmount := 0, balance := 0 }
  pure v.balance

def amount (env : Env) (s : BlockStore) (hash : BlockHash) : Except Fault Uint128 := do
  let v ← amountLoop env s (visitorFuel s) hash
    { currentAmount := hash, currentBalance := 0, amount := 0 }
  pure v.amount

def representativeCalculated (env : Env) (s : BlockStore) (hash : BlockHash) :
    Except Fault BlockHash :=
  representativeLoop env s (visitorFuel s) hash 0

def representative (env : Env) (s : BlockStore) (hash : BlockHash) :
    Except Fault BlockHash := do
  let result ← representativeCalculated env s hash
  require (result = 0 ∨ s.blockExists result = true)
  pure result

def isSend (env : Env) (s : BlockStore) (b : StateBlock) : Except Fault Bool :=
  if b.hashables.previous ≠ 0 then do
    let previousBalance ← balance env s b.hashables.previous
    pure (decide (b.hashables.balance < previousBalance))
  else
    .ok false

/-- Account a block sends to, zero when it does not send. -/
def blockDestination (env : Env) (s : BlockStore) : Block → Except Fault Account
  | .sendBlock b => .ok b.hashables.destination
  | .stateBlock b => do
      let send ← isSend env s b
      pure (if send then b.hashables.link else 0)
  | _ => .ok 0

/-- Block a block receives from, zero when it does not receive. -/
def blockSource (env : Env) (s : BlockStore) (b : Block) : Except Fault BlockHash :=
  match b with
  | .stateBlock sb => do
      let send ← isSend env s sb
      pure (if send then b.source else sb.hashables.link)
  | _ => .ok b.source

/-- The account to which the walk of `ledger::account` leads. -/
def accountResult (s : BlockStore) (hash successor : BlockHash) (info : Option BlockInfo) :
    Block → Account
  | .stateBlock b => b.hashables.account
  | _ => if successor = 0 then s.frontierGet hash else (info.map BlockInfo.account).getD 0

/-- The loop of `ledger::account`: follow successors up to a state block, the head of
the chain or a block with a stored block info. -/
def accountLoop (s : BlockStore) :
    Nat → BlockHash → BlockHash → Block → Except Fault Account
  | 0, _, _, _ => .error .outOfFuel
  | fuel + 1, hash, successor, b =>
    if successor = 0 ∨ b.type = .state then
      .ok (accountResult s hash successor none b)
    else
      match s.blockInfoGet successor with
      | some info => .ok (accountResult s hash successor (some info) b)
      | none =>
        if s.blockSuccessor hash ≠ 0 then do
          let next ← deref (s.blockGet (s.blockSuccessor hash))
          accountLoop s fuel (s.blockSuccessor hash) (s.blockSuccessor hash) next
        else
          accountLoop s fuel hash 0 b

def account (s : BlockStore) (hash : BlockHash) : Except Fault Account := do
  let b ← deref (s.blockGet hash)
  let result ← accountLoop s (s.blockCount + 2) hash 1 b
  require (result ≠ 0)
  pure result

def latest (s : BlockStore) (account : Account) : BlockHash :=
  match s.accountGet account with
  | some info => info.head
  | none => 0

def checksumUpdate (s : BlockStore) (hash : BlockHash) : Except Fault BlockStore := do
  let value ← s.checksumGet 0 0
  let value ← expect value
  s.checksumPut 0 0 (value ^^^ hash)

/-- `change_latest`, with the clock reading `now`. -/
def changeLatest (now : Nat) (s : BlockStore) (account : Account) (hash repBlock : BlockHash)
    (balance : Amount) (blockCount : Nat) (isState : Bool) : Except Fault BlockStore := do
  let (info, s) ←
    match s.accountGet account with
    | some info => do
        let s ← checksumUpdate s info.head
        pure (info, s)
    | none => do
        let b ← deref (s.blockGet hash)
        require (b.previous = 0)
        pure ({ AccountInfo.zero with openBlock := hash }, s)
  if hash ≠ 0 then
    let s := s.accountPut account
      { info with
        head := hash
        repBlock := repBlock
        balance := balance
        modified := now
        blockCount := blockCount }
    let s :=
      if blockCount % blockInfoMax = 0 ∧ isState = false then
        s.blockInfoPut hash ⟨account, balance⟩
      else
        s
    checksumUpdate s hash
  else
    s.accountDel account

end Ledger

end Badem
