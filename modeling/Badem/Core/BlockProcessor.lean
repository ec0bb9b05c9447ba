import Badem.Containers.KeyedTotals
import Badem.Core.Rollback

/-!
# Block processor

The queue of `block_processor` in `node/node.cpp`, with the unchecked blocks and the recent
arrivals.  `processNext` is one iteration of the loop of `process_receive_many`; the clocks and
the order in which an unordered map is visited are read at each iteration, as a `Moment`.
-/

namespace Badem

open BlockStore Containers

/-- The surroundings of the block processor: those of the ledger and the digest with an
8-byte output that proofs of work are measured by. -/
structure NodeEnv extends Env where
  workValue : BlockHash → Uint64 → Uint64

def BademNetwork.publishThreshold : BademNetwork → Uint64
  | .test => 0xff00000000000000#64
  | .beta => 0xfffffe0000000000#64
  | .live => 0xfffffe0000000000#64

def Block.blockWork : Block → Uint64
  | .sendBlock b => b.work
  | .receiveBlock b => b.work
  | .openBlock b => b.work
  | .changeBlock b => b.work
  | .stateBlock b => b.work

/-- `work_validate`, which returns true when the work is not valid. -/
def NodeEnv.workValidate (env : NodeEnv) (b : Block) : Bool :=
  decide (env.workValue b.root b.blockWork < env.network.publishThreshold)

namespace Ledger

variable (s : BlockStore)

/-- The block that follows a root: the first block of an account, or the successor. -/
def successor (root : Uint256) : Except Fault (Option Block) :=
  let successor :=
    match s.accountGet root with
    | some info => info.openBlock
    | none => s.blockSuccessor root
  if successor = 0 then
    .ok none
  else do
    let b ← expect (s.blockGet successor)
    pure (some b)

def rootExists (root : Uint256) : Bool :=
  s.blockExists root || (s.accountGet root).isSome

/-- The stored block with the same root as a block that is not stored. -/
def forkedBlock (env : Env) (b : Block) : Except Fault Block := do
  require (s.blockExists (b.hash env) = false)
  require (rootExists s b.root = true)
  match s.blockGet (s.blockSuccessor b.root) with
  | some result => pure result
  | none => do
      let info ← expect (s.accountGet b.root)
      expect (s.blockGet info.openBlock)

end Ledger

/-! ## Arrivals -/

structure ArrivalInfo where
  arrival : Nat
  hash : BlockHash
deriving DecidableEq

namespace BlockArrival

def arrivalSizeMin : Nat := 8 * 1024

/-- Five minutes, in the nanoseconds of the steady clock. -/
def arrivalTimeMin : Nat := 300 * 10 ^ 9

/-- `block_arrival::add`, which returns true when the hash is present already. -/
def add (now : Nat) (arrival : List ArrivalInfo) (hash : BlockHash) : Bool × List ArrivalInfo :=
  if arrival.any (fun x => decide (x.hash = hash)) = true then (true, arrival)
  else (false, arrival.orderedInsert (fun x y => x.arrival < y.arrival) ⟨now, hash⟩)

def prune (now : Nat) : List ArrivalInfo → List ArrivalInfo
  | [] => []
  | x :: l =>
    if arrivalSizeMin < (x :: l).length ∧ x.arrival + arrivalTimeMin < now then prune now l
    else x :: l

def recent (now : Nat) (arrival : List ArrivalInfo) (hash : BlockHash) :
    Bool × List ArrivalInfo :=
  let arrival := prune now arrival
  (arrival.any (fun x => decide (x.hash = hash)), arrival)

end BlockArrival

/-- The system clock in seconds, the steady clock in nanoseconds and the order of the unchecked
blocks under a hash. -/
structure Moment where
  now : Nat
  tick : Nat
  order : Visit Block

/-- The ledger with the blocks on their way to it. -/
structure BlockProcessor where
  store : BlockStore
  /-- Unchecked blocks under the hash they wait for, in the cache or in the database. -/
  unchecked : List (BlockHash × Block)
  arrival : List ArrivalInfo
  blocks : List Block
  forced : List Block

namespace BlockProcessor

variable (env : NodeEnv) (p : BlockProcessor)

def idle (s : BlockStore) : BlockProcessor where
  store := s
  unchecked := []
  arrival := []
  blocks := []
  forced := []

/-! ## Unchecked blocks -/

def uncheckedGet (hash : BlockHash) : List Block :=
  (p.unchecked.filter (fun x => decide (x.1 = hash))).map Prod.snd

/-- `unchecked_put`: blocks are told apart by their hash. -/
def uncheckedPut (hash : BlockHash) (b : Block) : BlockProcessor :=
  if (p.uncheckedGet hash).any (fun c => decide (c.hash env.toEnv = b.hash env.toEnv)) = true then
    p
  else
    { p with unchecked := p.unchecked ++ [(hash, b)] }

def uncheckedDel (hash : BlockHash) (b : Block) : BlockProcessor :=
  { p with unchecked := p.unchecked.filter (fun x => !decide (x.1 = hash ∧ x.2 = b)) }

/-! ## Queue -/

def add (b : Block) : Except Fault BlockProcessor :=
  if env.workValidate b = false then .ok { p with blocks := b :: p.blocks }
  else .error .assertion

def force (b : Block) : BlockProcessor := { p with forced := b :: p.forced }

def haveBlocks : Bool := !p.blocks.isEmpty || !p.forced.isEmpty

def requeue (hash : BlockHash) : List Block → BlockProcessor → Except Fault BlockProcessor
  | [], p => .ok p
  | b :: l, p => do
      let p ← (p.uncheckedDel hash b).add env b
      requeue hash l p

def queueUnchecked (order : Visit Block) (hash : BlockHash) : Except Fault BlockProcessor :=
  requeue env hash (order.order (p.uncheckedGet hash)) p

def processActive (tick : Nat) (b : Block) : Except Fault BlockProcessor :=
  let (present, arrival) := BlockArrival.add tick p.arrival (b.hash env.toEnv)
  if present = true then .ok { p with arrival := arrival }
  else { p with arrival := arrival }.add env b

/-- The part of `node::process_fork` that the ledger takes part in. -/
def processFork (b : Block) : Except Fault Unit :=
  if p.store.blockExists (b.hash env.toEnv) = false ∧
      Ledger.rootExists p.store b.root = true then do
    let _ ← Ledger.forkedBlock p.store env.toEnv b
    pure ()
  else
    .ok ()

def processReceiveOne (m : Moment) (b : Block) :
    Except Fault (ProcessReturn × BlockProcessor) := do
  let hash := b.hash env.toEnv
  let (result, store) ← Ledger.process env.toEnv m.now p.store b
  let p := { p with store := store }
  match result.code with
  | .progress => do
      let p := { p with arrival := (BlockArrival.recent m.tick p.arrival hash).2 }
      let p ← p.queueUnchecked env m.order hash
      pure (result, p)
  | .gapPrevious => pure (result, p.uncheckedPut env b.previous b)
  | .gapSource => do
      let source ← Ledger.blockSource env.toEnv p.store b
      pure (result, p.uncheckedPut env source b)
  | .old => do
      let p ← p.queueUnchecked env m.order hash
      pure (result, p)
  | .fork => do
      let (recent, arrival) := BlockArrival.recent m.tick p.arrival hash
      let p := { p with arrival := arrival }
      (if recent = false then p.processFork env b else pure ())
      pure (result, p)
  | _ => pure (result, p)

/-- Roll back the block in the place of a forced one. -/
def rollbackCompetitor (now : Nat) (b : Block) : Except Fault BlockStore := do
  let successor ← Ledger.successor p.store b.root
  match successor with
  | some x =>
    if x.hash env.toEnv ≠ b.hash env.toEnv then
      Ledger.rollback env.toEnv now p.store (x.hash env.toEnv)
    else pure p.store
  | none => pure p.store

/-- One iteration of `process_receive_many`.  Forced blocks go first. -/
def processNext (m : Moment) : Except Fault BlockProcessor :=
  match p.forced with
  | b :: forced => do
      let store ← p.rollbackCompetitor env m.now b
      let (_, p) ← { p with store := store, forced := forced }.processReceiveOne env m b
      pure p
  | [] =>
    match p.blocks with
    | b :: blocks => do
        let (_, p) ← { p with blocks := blocks }.processReceiveOne env m b
        pure p
    | [] => .ok p

/-- The two ways in which a block comes in. -/
inductive Event
  | pulled (b : Block)
  | active (b : Block)
deriving DecidableEq

def Event.block : Event → Block
  | pulled b => b
  | active b => b

def receive (tick : Nat) : Event → Except Fault BlockProcessor
  | .pulled b => p.add env b
  | .active b => p.processActive env tick b

/-- Runs in which what comes in meets a condition, with what came in, the last block first, and the
number of iterations. -/
inductive Run (guard : BlockProcessor → Event → Prop) (p₀ : BlockProcessor) :
    List Event → Nat → BlockProcessor → Prop
  | start : Run guard p₀ [] 0 p₀
  | receive {es : List Event} {n : Nat} {p q : BlockProcessor} {e : Event} (tick : Nat) :
      Run guard p₀ es n p →
      guard p e →
      p.receive env tick e = .ok q →
      Run guard p₀ (e :: es) n q
  | process {es : List Event} {n : Nat} {p q : BlockProcessor} {m : Moment} :
      Run guard p₀ es n p →
      p.haveBlocks = true →
      p.processNext env m = .ok q →
      Run guard p₀ es (n + 1) q

end BlockProcessor

end Badem
