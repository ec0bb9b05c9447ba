import Badem.Core.BlockJson
import Badem.Core.Messages
import Mathlib

/-!
# Distributed work

The requests for work that a node sends to its work peers (`distributed_work` in
`node/node.cpp`).  An event is one access of a handler to the data it shares with the others.
Names of peers and the texts of requests and of the log are left out.
-/

namespace Badem

inductive WorkResponse
  /-- A body, as the tree that is read from it unless it cannot be parsed.  The variable for the
  work holds `junk` before it is set. -/
  | body (tree : Option JsonTree) (junk : Uint64)
  /-- The connection fails, or the status is not `ok`. -/
  | error

inductive WorkOutcome
  | callback (work : Uint64)
  /-- `work_pool::generate`. -/
  | generate
  /-- Another attempt after some seconds, with the time for the next one. -/
  | retry (backoff nextBackoff : Nat)
deriving DecidableEq

inductive WorkHandler
  | requested
  /-- Its peer is no longer outstanding; it has the work if that is valid, and knows whether the
  peer was the last one. -/
  | removed (work : Option Uint64) (last : Bool)
  /-- It has set the flag in `set_once`. -/
  | calling (work : Uint64)
  /-- It is about to stop the others. -/
  | stopping
  /-- It has set the flag in `handle_failure`. -/
  | failing
  | finished
deriving DecidableEq

/-- What the node provides to a request for work. -/
structure WorkSettings where
  workThreads : Nat
  opencl : Bool
  /-- In seconds. -/
  backoff : Nat

structure DistributedWork where
  outstanding : List (IpAddress × BitVec 16)
  completed : Bool
  /-- The handlers of the peers that have been contacted. -/
  handlers : IpAddress → Option WorkHandler
  outcomes : List WorkOutcome
  /-- The peers that were told to cancel. -/
  cancels : List (IpAddress × BitVec 16)

def WorkResponse.work (env : NodeEnv) (root : BlockHash) : WorkResponse → Option Uint64
  | .error => none
  | .body tree junk => do
      let tree ← tree
      let workText ← tree "work"
      let work ← fromStringHex junk workText
      if env.workValue root work < env.network.publishThreshold then none else some work

namespace DistributedWork

def assign (outstanding : List (IpAddress × BitVec 16)) (peer : IpAddress × BitVec 16) :
    List (IpAddress × BitVec 16) :=
  if outstanding.any (fun x => decide (x.1 = peer.1)) = true then
    outstanding.map (fun x => if x.1 = peer.1 then peer else x)
  else
    outstanding ++ [peer]

section Steps

variable (env : NodeEnv) (root : BlockHash) (settings : WorkSettings)

/-- What `handle_failure` does once it has set the flag. -/
def fallback : WorkOutcome :=
  if settings.workThreads ≠ 0 ∨ settings.opencl = true then .generate
  else .retry settings.backoff (min (settings.backoff * 2) (60 * 5))

/-- `start_work` with the endpoints of the peers in the order they were resolved in.  Without
any, it fails at once. -/
def startWork (resolved : List (IpAddress × BitVec 16)) : DistributedWork :=
  let outstanding := resolved.foldl assign []
  if outstanding.isEmpty = true then
    { outstanding := []
      completed := true
      handlers := fun _ => none
      outcomes := [fallback settings]
      cancels := [] }
  else
    { outstanding := outstanding
      completed := false
      handlers := fun address =>
        if outstanding.any (fun x => decide (x.1 = address)) = true then some .requested else none
      outcomes := []
      cancels := [] }

variable (d : DistributedWork)

def setHandler (address : IpAddress) (handler : WorkHandler) : DistributedWork :=
  { d with handlers := Function.update d.handlers address (some handler) }

/-- `remove`, which returns whether none is left. -/
def remove (address : IpAddress) : Bool × DistributedWork :=
  let outstanding := d.outstanding.filter (fun x => !decide (x.1 = address))
  (outstanding.isEmpty, { d with outstanding := outstanding })

/-- `test_and_set` on the flag, after which the handler is in one of two places. -/
def testAndSet (address : IpAddress) (wasSet wasClear : WorkHandler) : DistributedWork :=
  if d.completed = true then d.setHandler address wasSet
  else { d with completed := true }.setHandler address wasClear

def stop : DistributedWork :=
  { d with outstanding := [], cancels := d.cancels ++ d.outstanding }

def act (outcome : WorkOutcome) : DistributedWork :=
  { d with outcomes := d.outcomes ++ [outcome] }

/-- The next event of the handler of a peer.  The response is that of the peer. -/
def step (address : IpAddress) (response : WorkResponse) : DistributedWork :=
  match d.handlers address with
  | some .requested =>
    (d.remove address).2.setHandler address
      (.removed (response.work env root) (d.remove address).1)
  | some (.removed (some work) _) => d.testAndSet address .stopping (.calling work)
  | some (.removed none true) => d.testAndSet address .finished .failing
  | some (.removed none false) => d.setHandler address .finished
  | some (.calling work) => (d.act (.callback work)).setHandler address .stopping
  | some .stopping => d.stop.setHandler address .finished
  | some .failing => (d.act (fallback settings)).setHandler address .finished
  | some .finished => d
  | none => d

/-- A schedule names the handler that goes on, with what its peer answers. -/
def run (resolved : List (IpAddress × BitVec 16)) (schedule : List (IpAddress × WorkResponse)) :
    DistributedWork :=
  schedule.foldl (fun d e => step env root settings d e.1 e.2) (startWork settings resolved)

end Steps

end DistributedWork

end Badem
