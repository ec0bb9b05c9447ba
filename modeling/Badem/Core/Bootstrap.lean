import Badem.Core.BlockProcessor
import Badem.Mdb.Cursor

/-!
# Bootstrap

How one node brings another up to date (`node/bootstrap.cpp`): frontier requests, pulls of
chains, pushes, and requests for the blocks with hashes in a range or for their checksum.
Loops are bounded by the sizes of the tables.  Connections that fail or are slow are left out.
-/

namespace Badem

structure FrontierCursor where
  current : Account
  info : AccountInfo

namespace FrontierCursor

/-- The next account, zero after the last one. -/
def next (s : BlockStore) (c : FrontierCursor) : FrontierCursor :=
  match s.accounts.lowerBound (c.current + 1) with
  | some (account, info) => ⟨account, info⟩
  | none => { c with current := 0 }

end FrontierCursor

/-! ## The server lists its accounts -/

structure FrontierReq where
  start : Account
  age : BitVec 32
  count : BitVec 32

namespace FrontierReqServer

variable (s : BlockStore)

/-- Pass by the accounts that have not been modified lately, unless the age is unlimited. -/
def skipOld (now : Nat) (request : FrontierReq) : Nat → FrontierCursor →
    Except Fault FrontierCursor
  | 0, _ => .error .outOfFuel
  | fuel + 1, c =>
    if request.age ≠ BitVec.allOnes 32 ∧ c.current ≠ 0 ∧
        request.age.setWidth 64 ≤ BitVec.ofNat 64 now - BitVec.ofNat 64 c.info.modified then
      skipOld now request fuel (c.next s)
    else
      .ok c

def sendNext : Nat → FrontierCursor → Except Fault (List (Account × BlockHash))
  | 0, _ => .error .outOfFuel
  | fuel + 1, c =>
    if c.current ≠ 0 then do
      let rest ← sendNext fuel (c.next s)
      pure ((c.current, c.info.head) :: rest)
    else
      .ok [(0, 0)]

def run (now : Nat) (request : FrontierReq) : Except Fault (List (Account × BlockHash)) := do
  let c := FrontierCursor.next s ⟨request.start - 1, .zero⟩
  let c ← skipOld s now request (s.accounts.size + 1) c
  sendNext s (s.accounts.size + 1) c

end FrontierReqServer

/-! ## The client merges the list with its own accounts -/

/-- A chain to ask for, from `head` down to the block before `endBlock`. -/
structure PullInfo where
  account : Account
  head : BlockHash
  endBlock : BlockHash
deriving DecidableEq

structure FrontierReqClient where
  cursor : FrontierCursor
  bulkPushCost : Uint64
  /-- Targets of `add_bulk_push_target`. -/
  bulkPushTargets : List (BlockHash × BlockHash)
  pulls : List PullInfo
  /-- The calls of `unsynced` up to now, with or without an effect. -/
  unsyncedCalls : List (BlockHash × BlockHash)

namespace FrontierReqClient

variable (s : BlockStore) (c : FrontierReqClient)

def bulkPushCostLimit : Uint64 := 200

def initial : FrontierReqClient where
  cursor := FrontierCursor.next s ⟨0, .zero⟩
  bulkPushCost := 0
  bulkPushTargets := []
  pulls := []
  unsyncedCalls := []

def next : FrontierReqClient := { c with cursor := c.cursor.next s }

def addPull (pull : PullInfo) : FrontierReqClient := { c with pulls := c.pulls ++ [pull] }

/-- Remember blocks that the server lacks, as long as pushing them is cheap. -/
def unsynced (head endBlock : BlockHash) : FrontierReqClient :=
  if c.bulkPushCost < bulkPushCostLimit then
    { c with
      bulkPushTargets := c.bulkPushTargets ++ [(head, endBlock)]
      bulkPushCost := c.bulkPushCost + if endBlock = 0 then 2 else 1
      unsyncedCalls := c.unsyncedCalls ++ [(head, endBlock)] }
  else
    { c with unsyncedCalls := c.unsyncedCalls ++ [(head, endBlock)] }

def passBy (behind : Account → Bool) : Nat → FrontierReqClient → Except Fault FrontierReqClient
  | 0, _ => .error .outOfFuel
  | fuel + 1, c =>
    if c.cursor.current ≠ 0 ∧ behind c.cursor.current = true then
      passBy behind fuel ((c.unsynced c.cursor.info.head 0).next s)
    else
      .ok c

def compareHeads (account : Account) (latest : BlockHash) : FrontierReqClient :=
  if latest = c.cursor.info.head then
    c
  else if s.blockExists latest = true then
    c.unsynced c.cursor.info.head latest
  else
    let c := c.addPull ⟨account, latest, c.cursor.info.head⟩
    { c with bulkPushCost := c.bulkPushCost + 5 }

def receivedFrontier (account : Account) (latest : BlockHash) :
    Except Fault FrontierReqClient :=
  if account ≠ 0 then do
    let c ← passBy s (fun current => decide (current < account)) (s.accounts.size + 1) c
    if c.cursor.current ≠ 0 then
      if account = c.cursor.current then
        pure ((c.compareHeads s account latest).next s)
      else do
        require (account < c.cursor.current)
        pure (c.addPull ⟨account, latest, 0⟩)
    else
      pure (c.addPull ⟨account, latest, 0⟩)
  else
    passBy s (fun _ => true) (s.accounts.size + 1) c

def receiveFrontiers : List (Account × BlockHash) → FrontierReqClient →
    Except Fault FrontierReqClient
  | [], c => .ok c
  | (account, latest) :: frontiers, c => do
      let c ← c.receivedFrontier s account latest
      if account ≠ 0 then receiveFrontiers frontiers c else pure c

end FrontierReqClient

/-! ## The server sends chains -/

/-- `current` and the end of the request. -/
structure BulkPullServer where
  current : BlockHash
  endBlock : BlockHash

namespace BulkPullServer

variable (s : BlockStore)

def setCurrentEnd (start : Account) (endBlock : BlockHash) : Except Fault BulkPullServer :=
  let endBlock := if s.blockExists endBlock = false then 0 else endBlock
  match s.accountGet start with
  | none => .ok ⟨endBlock, endBlock⟩
  | some info =>
    if endBlock ≠ 0 then do
      let account ← Ledger.account s endBlock
      pure (if account = start then ⟨info.head, endBlock⟩ else ⟨endBlock, endBlock⟩)
    else
      .ok ⟨info.head, endBlock⟩

def getNext (server : BulkPullServer) : Option Block × BulkPullServer :=
  if server.current ≠ server.endBlock then
    match s.blockGet server.current with
    | some result =>
      if result.previous ≠ 0 then (some result, { server with current := result.previous })
      else (some result, { server with current := server.endBlock })
    | none => (none, { server with current := server.endBlock })
  else
    (none, server)

def sendNext : Nat → BulkPullServer → Except Fault (List Block)
  | 0, _ => .error .outOfFuel
  | fuel + 1, server =>
    match server.getNext s with
    | (some b, server) => do
        let rest ← sendNext fuel server
        pure (b :: rest)
    | (none, _) => .ok []

def run (start : Account) (endBlock : BlockHash) : Except Fault (List Block) := do
  let server ← setCurrentEnd s start endBlock
  sendNext s (s.blockCount + 1) server

end BulkPullServer

/-! ## The server sends ranges of blocks -/

/-- `bulk_pull_blocks_mode`, read from a byte that may be none of the two values. -/
inductive BulkPullBlocksMode
  | listBlocks
  | checksumBlocks
  | unknown (value : BitVec 8)
deriving DecidableEq

structure BulkPullBlocks where
  minHash : BlockHash
  maxHash : BlockHash
  mode : BulkPullBlocksMode
  maxCount : BitVec 32

/-- What is written to the socket; `empty` is a buffer without bytes. -/
inductive BulkPullBlocksWrite
  | block (b : Block)
  | empty
  | checksum (value : Checksum)
  | finished
deriving DecidableEq

structure BulkPullBlocksServer where
  request : BulkPullBlocks
  /-- The position of a cursor over the block infos. -/
  stream : Nat
  sentCount : BitVec 32
  checksum : Checksum

namespace BulkPullBlocksServer

variable (s : BlockStore)

def setParams (request : BulkPullBlocks) : BulkPullBlocksServer where
  request :=
    { request with
      maxHash := if request.maxHash < request.minHash then request.minHash else request.maxHash }
  stream := s.blocksInfo.position request.minHash
  sentCount := 0
  checksum := 0

def outOfBounds (server : BulkPullBlocksServer) : Bool :=
  server.request.maxCount ≠ 0 ∧ server.request.maxCount ≤ server.sentCount

def counted (server : BulkPullBlocksServer) : BulkPullBlocksServer :=
  if server.request.maxCount ≠ 0 then { server with sentCount := server.sentCount + 1 }
  else server

/-- `get_next`: the block of the hash at which the cursor stands. -/
def getNext (server : BulkPullBlocksServer) : Option Block × BulkPullBlocksServer :=
  if server.outOfBounds = true then
    (none, server.counted)
  else
    match s.blocksInfo.entries[server.stream]? with
    | some (current, _) =>
      if current < server.request.maxHash then
        (s.blockGet current, { server.counted with stream := server.stream + 1 })
      else
        (none, server.counted)
    | none => (none, server.counted)

def blocks : Nat → BulkPullBlocksServer → Except Fault (List Block)
  | 0, _ => .error .outOfFuel
  | fuel + 1, server =>
    match server.getNext s with
    | (some b, server) => do
        let rest ← blocks fuel server
        pure (b :: rest)
    | (none, _) => .ok []

def sendNext (env : Env) : Nat → BulkPullBlocksServer → Except Fault (List BulkPullBlocksWrite)
  | 0, _ => .error .outOfFuel
  | fuel + 1, server =>
    match server.getNext s with
    | (some b, server) => do
        let (write, server) :=
          match server.request.mode with
          | .listBlocks => (BulkPullBlocksWrite.block b, server)
          | .checksumBlocks => (.empty, { server with checksum := server.checksum ^^^ b.hash env })
          | .unknown _ => (.empty, server)
        let rest ← sendNext env fuel server
        pure (write :: rest)
    | (none, server) =>
      .ok (if server.request.mode = .checksumBlocks then [.checksum server.checksum, .finished]
        else [.finished])

def run (env : Env) (request : BulkPullBlocks) : Except Fault (List BulkPullBlocksWrite) :=
  sendNext s env (s.blocksInfo.size + 1) (setParams s request)

end BulkPullBlocksServer

/-! ## The client receives chains -/

namespace BulkPullClient

/-- The blocks that are passed on to the block processor and the hash that is expected
next.  A block without valid work ends the transfer. -/
def receivedBlocks (env : NodeEnv) : BlockHash → List Block → BlockHash × List Block
  | expected, [] => (expected, [])
  | expected, b :: blocks =>
    if env.workValidate b = false then
      let (expected, received) :=
        receivedBlocks env (if b.hash env.toEnv = expected then b.previous else expected) blocks
      (expected, b :: received)
    else
      (expected, [])

end BulkPullClient

/-! ## The client pushes chains -/

/-- What a client writes after the request for a push. -/
inductive PushWrite
  | block (b : Block)
  | finished
deriving DecidableEq

structure BulkPushClient where
  currentTarget : BlockHash × BlockHash
  /-- The targets of the attempt, the last one added at the end. -/
  bulkPushTargets : List (BlockHash × BlockHash)

namespace BulkPushClient

variable (s : BlockStore)

def initial (targets : List (BlockHash × BlockHash)) : BulkPushClient := ⟨(0, 0), targets⟩

/-- Take the next target if the current one is done; none when there are no more. -/
def nextTarget (c : BulkPushClient) : Option BulkPushClient :=
  if c.currentTarget.1 = 0 ∨ c.currentTarget.1 = c.currentTarget.2 then
    c.bulkPushTargets.getLast?.map (fun target => ⟨target, c.bulkPushTargets.dropLast⟩)
  else
    some c

/-- The loop of `push`, which looks for a block that is stored. -/
def search : Nat → BulkPushClient → Except Fault (Option Block × BulkPushClient)
  | 0, _ => .error .outOfFuel
  | fuel + 1, c =>
    match c.nextTarget with
    | none => .ok (none, c)
    | some c =>
      match s.blockGet c.currentTarget.1 with
      | some block => .ok (some block, c)
      | none => search fuel { c with currentTarget := (0, c.currentTarget.2) }

def push (c : BulkPushClient) : Except Fault (PushWrite × BulkPushClient) := do
  let (block, c) ← search s (c.bulkPushTargets.length + 2) c
  match block with
  | some b => pure (.block b, { c with currentTarget := (b.previous, c.currentTarget.2) })
  | none => pure (.finished, c)

def pushes : Nat → BulkPushClient → Except Fault (List PushWrite)
  | 0, _ => .ok []
  | n + 1, c => do
      let (write, c) ← push s c
      if write = .finished then pure [write]
      else do
        let rest ← pushes n c
        pure (write :: rest)

end BulkPushClient

/-- The chains that a client with the ledger `c` asks a server with the ledger `s` for. -/
def frontierPulls (now : Nat) (s c : BlockStore) : Except Fault (List PullInfo) := do
  let frontiers ← FrontierReqServer.run s now ⟨0, BitVec.allOnes 32, BitVec.allOnes 32⟩
  let client ← FrontierReqClient.receiveFrontiers c frontiers (.initial c)
  pure client.pulls

/-- One pull with its answer: the pull that is queued again if the last block was not the
expected one, and the blocks received. -/
def bulkPull (env : NodeEnv) (s : BlockStore) (pull : PullInfo) :
    Except Fault (Option PullInfo × List Block) := do
  let blocks ← BulkPullServer.run s pull.account pull.endBlock
  let (expected, received) := BulkPullClient.receivedBlocks env pull.head blocks
  pure (if expected ≠ pull.endBlock then some { pull with head := expected } else none, received)

def bulkPulls (env : NodeEnv) (s : BlockStore) :
    List PullInfo → Except Fault (List PullInfo × List Block)
  | [] => .ok ([], [])
  | pull :: pulls => do
      let (requeued, received) ← bulkPull env s pull
      let (requeuedPulls, receivedBlocks) ← bulkPulls env s pulls
      pure (requeued.toList ++ requeuedPulls, received ++ receivedBlocks)

end Badem
