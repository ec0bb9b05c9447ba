import Badem.Core.Blocks
import Mathlib.Data.Prod.Lex

/-!
# Block store

The tables of `blockstore.cpp` and the operations on them.  A failed `assert` is the fault
`assertion`, a dereferenced null pointer the fault `nullBlock`.  A block is stored together
with the hash of its successor, which `setPredecessor` patches whenever a block is put.
-/

namespace Badem

open Mdb

/-- Ways in which the program stops without a result. -/
inductive Fault
  | assertion
  | nullBlock
  | overflow
  | outOfFuel
deriving DecidableEq

def require (c : Prop) [Decidable c] : Except Fault Unit :=
  if c then .ok () else .error .assertion

variable {c : Prop} {α ε β : Type} {x : Except ε α} {a : α} {f : α → Except ε β}

@[simp] theorem require_of [Decidable c] (h : c) : require c = .ok () := by
  simp [require, h]

theorem require_of_not [Decidable c] (h : ¬ c) : require c = .error .assertion := by
  simp [require, h]

/-- Use of an object that an assertion has just promised. -/
def expect {α : Type} : Option α → Except Fault α
  | some a => .ok a
  | none => .error .assertion

@[simp] theorem expect_some (a : α) : expect (some a) = .ok a := rfl

/-- Dereferencing the pointer that a lookup returned. -/
def deref {α : Type} : Option α → Except Fault α
  | some a => .ok a
  | none => .error .nullBlock

@[simp] theorem deref_some (a : α) : deref (some a) = .ok a := rfl

@[simp] theorem ok_bind (a : α) (f : α → Except ε β) :
    (Except.ok a >>= f) = f a := rfl

theorem bind_eq_of_ok {y : Except ε β} (hx : x = .ok a) (hf : f a = y) : (x >>= f) = y := by
  rw [hx]
  exact hf

theorem exists_ok_bind {Q : β → Prop} (hx : x = .ok a) (hf : ∃ b, f a = .ok b ∧ Q b) :
    ∃ b, (x >>= f) = .ok b ∧ Q b := by
  rw [hx]
  exact hf

theorem ok_of_bind {b : β} (h : (x >>= f) = .ok b) : ∃ a, x = .ok a ∧ f a = .ok b := by
  cases x with
  | error e => cases h
  | ok a => exact ⟨a, rfl, h⟩

theorem of_require_eq_ok [Decidable c] {u : Unit} (h : require c = .ok u) : c := by
  by_contra hc
  simp [require_of_not hc] at h

theorem eq_some_of_expect_eq_ok {x : Option α} (h : expect x = .ok a) : x = some a := by
  cases x <;> cases h
  rfl

theorem eq_some_of_deref_eq_ok {x : Option α} (h : deref x = .ok a) : x = some a := by
  cases x <;> cases h
  rfl

/-- The computation returns a value that passes the test. -/
def returns {ε α : Type} (x : Except ε α) (test : α → Bool) : Bool :=
  match x with
  | .ok a => test a
  | .error _ => false

theorem ne_ok_of_not_returns (h : returns x (fun _ => true) = false) (a : α) : x ≠ .ok a := by
  rintro rfl
  cases h

theorem exists_of_returns {test : α → Bool} (h : returns x test = true) :
    ∃ a, x = .ok a ∧ test a = true := by
  cases x with
  | error e => exact absurd h (by simp [returns])
  | ok a => exact ⟨a, rfl, h⟩

/-- Whether a computation returns a value with some property can be evaluated. -/
instance decidableExistsOk {ε α : Type} (x : Except ε α) (P : α → Prop) [DecidablePred P] :
    Decidable (∃ a, x = .ok a ∧ P a) :=
  match x with
  | .ok a => decidable_of_iff (P a) ⟨fun h => ⟨a, rfl, h⟩, fun ⟨_, ha, h⟩ => Except.ok.inj ha ▸ h⟩
  | .error _ => isFalse fun ⟨_, h, _⟩ => nomatch h

structure AccountInfo where
  head : BlockHash
  repBlock : BlockHash
  openBlock : BlockHash
  balance : Amount
  modified : Nat
  blockCount : Nat
deriving DecidableEq

def AccountInfo.zero : AccountInfo where
  head := 0
  repBlock := 0
  openBlock := 0
  balance := 0
  modified := 0
  blockCount := 0

def AccountInfo.unstamped (i : AccountInfo) : AccountInfo := { i with modified := 0 }

structure PendingKey where
  account : Account
  hash : BlockHash
deriving DecidableEq

/-- Pending keys are compared as the 64 bytes of account and hash. -/
instance : LinearOrder PendingKey :=
  LinearOrder.lift' (fun k => toLex (k.account, k.hash)) (by
    rintro ⟨a, h⟩ ⟨a', h'⟩ heq
    have hpair : (a, h) = (a', h') := toLex.injective heq
    simpa using hpair)

structure PendingInfo where
  source : Account
  amount : Amount
deriving DecidableEq

structure BlockInfo where
  account : Account
  balance : Amount
deriving DecidableEq

/-- Serialized value of a block: the block followed by its successor. -/
structure StoredBlock where
  block : Block
  successor : BlockHash
deriving DecidableEq

structure BlockStore where
  frontiers : Table BlockHash Account
  accounts : Table Account AccountInfo
  sendBlocks : Table BlockHash StoredBlock
  receiveBlocks : Table BlockHash StoredBlock
  openBlocks : Table BlockHash StoredBlock
  changeBlocks : Table BlockHash StoredBlock
  stateBlocks : Table BlockHash StoredBlock
  pending : Table PendingKey PendingInfo
  blocksInfo : Table BlockHash BlockInfo
  representation : Table Account Uint128
  checksum : Table Uint64 Checksum

namespace BlockStore

def empty : BlockStore where
  frontiers := .empty
  accounts := .empty
  sendBlocks := .empty
  receiveBlocks := .empty
  openBlocks := .empty
  changeBlocks := .empty
  stateBlocks := .empty
  pending := .empty
  blocksInfo := .empty
  representation := .empty
  checksum := Table.empty.put 0 0

/-- Every how many blocks of a chain a block info is stored. -/
def blockInfoMax : Nat := 32

/-! ## Blocks -/

def blockDatabase (s : BlockStore) : BlockType → Table BlockHash StoredBlock
  | .send => s.sendBlocks
  | .receive => s.receiveBlocks
  | .opening => s.openBlocks
  | .change => s.changeBlocks
  | .state => s.stateBlocks

def setBlockDatabase (s : BlockStore) (type : BlockType)
    (t : Table BlockHash StoredBlock) : BlockStore :=
  match type with
  | .send => { s with sendBlocks := t }
  | .receive => { s with receiveBlocks := t }
  | .opening => { s with openBlocks := t }
  | .change => { s with changeBlocks := t }
  | .state => { s with stateBlocks := t }

def blockPutRaw (s : BlockStore) (type : BlockType) (hash : BlockHash)
    (value : StoredBlock) : BlockStore :=
  s.setBlockDatabase type ((s.blockDatabase type).put hash value)

/-- `block_get_raw`: the five tables are searched in turn. -/
def blockGetRaw (s : BlockStore) (hash : BlockHash) : Option (BlockType × StoredBlock) :=
  match s.sendBlocks.get hash with
  | some v => some (.send, v)
  | none =>
  match s.receiveBlocks.get hash with
  | some v => some (.receive, v)
  | none =>
  match s.openBlocks.get hash with
  | some v => some (.opening, v)
  | none =>
  match s.changeBlocks.get hash with
  | some v => some (.change, v)
  | none =>
  match s.stateBlocks.get hash with
  | some v => some (.state, v)
  | none => none

def blockGet (s : BlockStore) (hash : BlockHash) : Option Block :=
  (s.blockGetRaw hash).map (fun v => v.2.block)

def blockExists (s : BlockStore) (hash : BlockHash) : Bool :=
  if (s.sendBlocks.get hash).isSome then true
  else if (s.receiveBlocks.get hash).isSome then true
  else if (s.openBlocks.get hash).isSome then true
  else if (s.changeBlocks.get hash).isSome then true
  else (s.stateBlocks.get hash).isSome

def blockSuccessor (s : BlockStore) (hash : BlockHash) : BlockHash :=
  match s.blockGetRaw hash with
  | some v => v.2.successor
  | none => 0

def fillValue (env : Env) (s : BlockStore) (b : Block) : Except Fault BlockStore := do
  let (type, value) ← expect (s.blockGetRaw b.previous)
  pure (s.blockPutRaw type b.previous { value with successor := b.hash env })

def setPredecessor (env : Env) (s : BlockStore) (b : Block) : Except Fault BlockStore :=
  match b with
  | .openBlock _ => .ok s
  | .stateBlock sb => if sb.hashables.previous ≠ 0 then s.fillValue env b else .ok s
  | _ => s.fillValue env b

def blockPut (env : Env) (s : BlockStore) (hash : BlockHash) (b : Block)
    (successor : BlockHash) : Except Fault BlockStore := do
  require (successor = 0 ∨ s.blockExists successor = true)
  let s ← (s.blockPutRaw b.type hash ⟨b, successor⟩).setPredecessor env b
  require (b.previous = 0 ∨ s.blockSuccessor b.previous = hash)
  pure s

def blockSuccessorClear (env : Env) (s : BlockStore) (hash : BlockHash) :
    Except Fault BlockStore := do
  let b ← deref (s.blockGet hash)
  s.blockPut env hash b 0

/-- `block_del`: the first table that holds the hash loses it. -/
def blockDel (s : BlockStore) (hash : BlockHash) : Except Fault BlockStore :=
  if (s.stateBlocks.get hash).isSome then
    .ok { s with stateBlocks := s.stateBlocks.del hash }
  else if (s.sendBlocks.get hash).isSome then
    .ok { s with sendBlocks := s.sendBlocks.del hash }
  else if (s.receiveBlocks.get hash).isSome then
    .ok { s with receiveBlocks := s.receiveBlocks.del hash }
  else if (s.openBlocks.get hash).isSome then
    .ok { s with openBlocks := s.openBlocks.del hash }
  else do
    require ((s.changeBlocks.get hash).isSome = true)
    pure { s with changeBlocks := s.changeBlocks.del hash }

def blockCount (s : BlockStore) : Nat :=
  s.sendBlocks.size + s.receiveBlocks.size + s.openBlocks.size +
    s.changeBlocks.size + s.stateBlocks.size

/-! ## Accounts, frontiers and pending entries -/

def accountGet (s : BlockStore) (account : Account) : Option AccountInfo :=
  s.accounts.get account

def accountPut (s : BlockStore) (account : Account) (info : AccountInfo) : BlockStore :=
  { s with accounts := s.accounts.put account info }

def accountDel (s : BlockStore) (account : Account) : Except Fault BlockStore := do
  require ((s.accounts.get account).isSome = true)
  pure { s with accounts := s.accounts.del account }

def frontierPut (s : BlockStore) (hash : BlockHash) (account : Account) : BlockStore :=
  { s with frontiers := s.frontiers.put hash account }

/-- `frontier_get`: the zero account stands for a missing entry. -/
def frontierGet (s : BlockStore) (hash : BlockHash) : Account :=
  (s.frontiers.get hash).getD 0

def frontierDel (s : BlockStore) (hash : BlockHash) : Except Fault BlockStore := do
  require ((s.frontiers.get hash).isSome = true)
  pure { s with frontiers := s.frontiers.del hash }

def pendingPut (s : BlockStore) (key : PendingKey) (info : PendingInfo) : BlockStore :=
  { s with pending := s.pending.put key info }

def pendingDel (s : BlockStore) (key : PendingKey) : Except Fault BlockStore := do
  require ((s.pending.get key).isSome = true)
  pure { s with pending := s.pending.del key }

def pendingGet (s : BlockStore) (key : PendingKey) : Option PendingInfo :=
  s.pending.get key

/-- `pending_exists`: a cursor at the first key not below `key`. -/
def pendingExists (s : BlockStore) (key : PendingKey) : Bool :=
  match s.pending.lowerBound key with
  | some x => x.1 = key
  | none => false

/-! ## Block infos, representation and checksum -/

def blockInfoPut (s : BlockStore) (hash : BlockHash) (info : BlockInfo) : BlockStore :=
  { s with blocksInfo := s.blocksInfo.put hash info }

def blockInfoDel (s : BlockStore) (hash : BlockHash) : Except Fault BlockStore := do
  require ((s.blocksInfo.get hash).isSome = true)
  pure { s with blocksInfo := s.blocksInfo.del hash }

def blockInfoGet (s : BlockStore) (hash : BlockHash) : Option BlockInfo :=
  s.blocksInfo.get hash

def representationGet (s : BlockStore) (account : Account) : Uint128 :=
  (s.representation.get account).getD 0

def representationPut (s : BlockStore) (account : Account) (weight : Uint128) : BlockStore :=
  { s with representation := s.representation.put account weight }

/-- `representation_add`: the weight of the representative named by a stored block
changes by an amount, modulo `2 ^ 128`. -/
def representationAdd (s : BlockStore) (source : BlockHash) (amount : Uint128) :
    Except Fault BlockStore := do
  let sourceBlock ← expect (s.blockGet source)
  let sourceRep := sourceBlock.representative
  let sourcePrevious := s.representationGet sourceRep
  pure (s.representationPut sourceRep (sourcePrevious + amount))

def checksumPut (s : BlockStore) (prefixBits mask : Uint64) (hash : Checksum) :
    Except Fault BlockStore := do
  require (prefixBits &&& 0xff = 0)
  pure { s with checksum := s.checksum.put (prefixBits ||| mask) hash }

def checksumGet (s : BlockStore) (prefixBits mask : Uint64) :
    Except Fault (Option Checksum) := do
  require (prefixBits &&& 0xff = 0)
  pure (s.checksum.get (prefixBits ||| mask))

end BlockStore

end Badem
