import Badem.Mdb.OrderedTable

/-!
# Blocks

The five block formats of `lib/blocks.hpp`.  A `HashField` is one call of `blake2b_update`; the
legacy formats feed their hashables without a type tag.  The digest is a parameter.
-/

namespace Badem

abbrev Uint64 := BitVec 64
abbrev Uint128 := BitVec 128
abbrev Uint256 := BitVec 256
abbrev Uint512 := BitVec 512

abbrev BlockHash := Uint256
abbrev Account := Uint256
abbrev Amount := Uint128
abbrev Signature := Uint512
abbrev Checksum := Uint256

inductive BademNetwork
  | test
  | beta
  | live
deriving DecidableEq

inductive BlockType
  | send
  | receive
  | opening
  | change
  | state
deriving DecidableEq

def BlockType.code : BlockType → Nat
  | .send => 2
  | .receive => 3
  | .opening => 4
  | .change => 5
  | .state => 6

structure SendHashables where
  previous : BlockHash
  destination : Account
  balance : Amount
deriving DecidableEq

structure ReceiveHashables where
  previous : BlockHash
  source : BlockHash
deriving DecidableEq

structure OpenHashables where
  source : BlockHash
  representative : Account
  account : Account
deriving DecidableEq

structure ChangeHashables where
  previous : BlockHash
  representative : Account
deriving DecidableEq

structure StateHashables where
  account : Account
  previous : BlockHash
  representative : Account
  balance : Amount
  link : Uint256
deriving DecidableEq

structure SendBlock where
  hashables : SendHashables
  signature : Signature
  work : Uint64
deriving DecidableEq

structure ReceiveBlock where
  hashables : ReceiveHashables
  signature : Signature
  work : Uint64
deriving DecidableEq

structure OpenBlock where
  hashables : OpenHashables
  signature : Signature
  work : Uint64
deriving DecidableEq

structure ChangeBlock where
  hashables : ChangeHashables
  signature : Signature
  work : Uint64
deriving DecidableEq

structure StateBlock where
  hashables : StateHashables
  signature : Signature
  work : Uint64
deriving DecidableEq

inductive Block
  | sendBlock (block : SendBlock)
  | receiveBlock (block : ReceiveBlock)
  | openBlock (block : OpenBlock)
  | changeBlock (block : ChangeBlock)
  | stateBlock (block : StateBlock)
deriving DecidableEq

/-- What the hash of a block is computed from. -/
inductive Hashables
  | send (hashables : SendHashables)
  | receive (hashables : ReceiveHashables)
  | opening (hashables : OpenHashables)
  | change (hashables : ChangeHashables)
  | state (hashables : StateHashables)
deriving DecidableEq

inductive HashField
  | word256 (value : Uint256)
  | word128 (value : Uint128)
  | word64 (value : Uint64)
deriving DecidableEq

/-- The parts of the program's surroundings that the ledger uses. -/
structure Env where
  network : BademNetwork
  /-- `blake2b` with a 32-byte output over the words fed to it. -/
  digest : List HashField → Uint256
  /-- `validate_message`, which returns true when the signature is not valid. -/
  validateMessage : Account → Uint256 → Signature → Bool
  /-- Whether sums of balances are formed in a type that throws on overflow.
  The code uses the unchecked `uint128_t`. -/
  checked : Bool

def BademNetwork.genesisAccount : BademNetwork → Account
  | .test => 0xB0311EA55708D6A53C75CDBF88300259C6D018522FE3D4D0A242E431F9E8B6D0#256
  | .beta => 0x499D3E2FC2DB9FC2D0D4C445AD073C713E5634D7B2BBF24F57A727A1BABF68AB#256
  | .live => 0x40C8E1D867DA316ED2404C8A69624FFCFF884B0ADBB26B58F7A0C27C0E044A34#256

def Env.genesisAccount (env : Env) : Account := env.network.genesisAccount

theorem Env.genesisAccount_ne_zero (env : Env) : env.genesisAccount ≠ 0 := by
  unfold Env.genesisAccount
  cases env.network <;> decide

def genesisAmount : Amount := BitVec.allOnes 128

theorem genesisAmount_toNat : genesisAmount.toNat = 2 ^ 128 - 1 := by
  decide

def burnAccount : Account := 0

def BademNetwork.genesisSignature : BademNetwork → Signature
  | .test => 0xECDA914373A2F0CA1296475BAEE40500A7F0A7AD72A5A80C81D7FAB7F6C802B2CC7DB50F5DD0FB25B2EF11761FA7344A158DD5A700B21BD47DE5BD0F63153A02#512
  | .beta => 0x45776E6CE2011A662BF1F59D4C7376FCF1249B31D345F582CC62381BB902C28C20EDE58FF57772D7CD65365FB4C3CD158C4FECE63AB3B0E0B0CC87A8ECC24607#512
  | .live => 0x2EA5AD03F2925707F25E1245E821042EEAFE8DEDD5E50A913B8E65DD13945B73654E63BDC8D23AA4B315BE60FE8E75103D00A95B24C6EA916A8A1145296C1903#512

def BademNetwork.genesisWork : BademNetwork → Uint64
  | .test => 0x9680625b39d3363d#64
  | .beta => 0xf066e9305cbee8c8#64
  | .live => 0xe6bdfde84acdea33#64

/-- The genesis block: an open block whose source is its own account number. -/
def Env.genesisOpen (env : Env) : OpenBlock where
  hashables :=
    { source := env.genesisAccount
      representative := env.genesisAccount
      account := env.genesisAccount }
  signature := env.network.genesisSignature
  work := env.network.genesisWork

namespace Block

def type : Block → BlockType
  | sendBlock _ => .send
  | receiveBlock _ => .receive
  | openBlock _ => .opening
  | changeBlock _ => .change
  | stateBlock _ => .state

/-- Previous block in the account's chain, zero for open blocks. -/
def previous : Block → BlockHash
  | sendBlock b => b.hashables.previous
  | receiveBlock b => b.hashables.previous
  | openBlock _ => 0
  | changeBlock b => b.hashables.previous
  | stateBlock b => b.hashables.previous

def source : Block → BlockHash
  | sendBlock _ => 0
  | receiveBlock b => b.hashables.source
  | openBlock b => b.hashables.source
  | changeBlock _ => 0
  | stateBlock _ => 0

/-- Previous block, or account number for the first block of an account. -/
def root : Block → BlockHash
  | sendBlock b => b.hashables.previous
  | receiveBlock b => b.hashables.previous
  | openBlock b => b.hashables.account
  | changeBlock b => b.hashables.previous
  | stateBlock b => if b.hashables.previous ≠ 0 then b.hashables.previous else b.hashables.account

def representative : Block → Account
  | sendBlock _ => 0
  | receiveBlock _ => 0
  | openBlock b => b.hashables.representative
  | changeBlock b => b.hashables.representative
  | stateBlock b => b.hashables.representative

def blockSignature : Block → Signature
  | sendBlock b => b.signature
  | receiveBlock b => b.signature
  | openBlock b => b.signature
  | changeBlock b => b.signature
  | stateBlock b => b.signature

def hashables : Block → Hashables
  | sendBlock b => .send b.hashables
  | receiveBlock b => .receive b.hashables
  | openBlock b => .opening b.hashables
  | changeBlock b => .change b.hashables
  | stateBlock b => .state b.hashables

/-- The words a block feeds to the digest, in order. -/
def hashFields : Block → List HashField
  | sendBlock b =>
    [.word256 b.hashables.previous, .word256 b.hashables.destination,
      .word128 b.hashables.balance]
  | receiveBlock b => [.word256 b.hashables.previous, .word256 b.hashables.source]
  | openBlock b =>
    [.word256 b.hashables.source, .word256 b.hashables.representative,
      .word256 b.hashables.account]
  | changeBlock b => [.word256 b.hashables.previous, .word256 b.hashables.representative]
  | stateBlock b =>
    [.word256 (BitVec.ofNat 256 BlockType.state.code), .word256 b.hashables.account,
      .word256 b.hashables.previous, .word256 b.hashables.representative,
      .word128 b.hashables.balance, .word256 b.hashables.link]

def hash (env : Env) (b : Block) : BlockHash := env.digest b.hashFields

def validPredecessor (b previous : Block) : Bool :=
  match b with
  | openBlock _ => false
  | stateBlock _ => true
  | _ =>
    match previous.type with
    | .send => true
    | .receive => true
    | .opening => true
    | .change => true
    | .state => false

def isLegacy (b : Block) : Bool := b.type.code < BlockType.state.code

@[simp] theorem isLegacy_iff (b : Block) : b.isLegacy = true ↔ b.type ≠ .state := by
  cases b <;> simp [isLegacy, type, BlockType.code]

@[simp] theorem isLegacy_eq_false_iff (b : Block) : b.isLegacy = false ↔ b.type = .state := by
  cases b <;> simp [isLegacy, type, BlockType.code]

variable {b b' : Block}

theorem validPredecessor_of_isLegacy {p : Block} (hb : b.type ≠ .opening)
    (hp : p.isLegacy = true) : b.validPredecessor p = true := by
  rw [isLegacy_iff] at hp
  cases b <;> cases p <;> simp_all [validPredecessor, type]

def namesRepresentative : Block → Bool
  | sendBlock _ => false
  | receiveBlock _ => false
  | openBlock _ => true
  | changeBlock _ => true
  | stateBlock _ => true

theorem type_eq_of_hashables_eq (h : b.hashables = b'.hashables) : b.type = b'.type := by
  cases b <;> cases b' <;> simp_all [hashables, type]

theorem previous_eq_of_hashables_eq (h : b.hashables = b'.hashables) :
    b.previous = b'.previous := by
  cases b <;> cases b' <;> simp_all [hashables, previous]

theorem isLegacy_eq_of_hashables_eq (h : b.hashables = b'.hashables) :
    b.isLegacy = b'.isLegacy := by
  rw [isLegacy, isLegacy, type_eq_of_hashables_eq h]

theorem namesRepresentative_eq_of_hashables_eq (h : b.hashables = b'.hashables) :
    b.namesRepresentative = b'.namesRepresentative := by
  cases b <;> cases b' <;> simp_all [hashables, namesRepresentative]

end Block

def Env.genesisHash (env : Env) : BlockHash := (Block.openBlock env.genesisOpen).hash env

/-- The blocks of a run have distinct nonzero hashes. -/
structure CollisionFree (env : Env) (U : Set Block) : Prop where
  genesis : Block.openBlock env.genesisOpen ∈ U
  injective : ∀ b ∈ U, ∀ b' ∈ U, b.hash env = b'.hash env → b.hashables = b'.hashables
  nonzero : ∀ b ∈ U, b.hash env ≠ 0

/-- No block hash is the initial successor of `ledger::account` or the source of the genesis
block. -/
structure MarkerFree (env : Env) (U : Set Block) : Prop where
  ne_one : ∀ b ∈ U, b.hash env ≠ 1
  ne_genesisAccount : ∀ b ∈ U, b.hash env ≠ env.genesisAccount

end Badem
