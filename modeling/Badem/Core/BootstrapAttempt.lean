import Badem.Core.Bootstrap

/-!
# Bootstrap attempts

The pulls of a `bootstrap_attempt` (`node/bootstrap.cpp`).  A pull waits in the queue `pulls`,
then as an action that `background` has been given, and then belongs to a `bulk_pull_client`.
An event that cannot take place leaves the attempt as it is.  Which connection is used,
logging and the statistics are left out.
-/

namespace Badem

def bootstrapFrontierRetryLimit : Nat := 16

/-- A pull of the queue.  `origin` tells which call of `add_pull` it goes back to. -/
structure QueuedPull extends PullInfo where
  attempts : Nat
  origin : Nat
deriving DecidableEq

structure BulkPullClient where
  pull : QueuedPull
  expected : BlockHash
deriving DecidableEq

structure BootstrapAttempt where
  pulls : List QueuedPull
  /-- The pulls of the actions that `background` has been given and that have not begun. -/
  background : List QueuedPull
  clients : List BulkPullClient
  /-- Whether the connection of the frontier request is still open. -/
  connectionFrontierRequest : Bool
  /-- The arguments of `add_pull` up to now. -/
  added : List PullInfo
  /-- The requests that have been sent, each with the origin of the pull. -/
  requests : List (Nat × Account × BlockHash)
  /-- The blocks that `block_processor.add` has been given, each with the origin of the pull. -/
  handed : List (Nat × Block)
  /-- The pulls that were dropped since the expected block is the end. -/
  completed : List Nat

namespace BootstrapAttempt

def initial : BootstrapAttempt where
  pulls := []
  background := []
  clients := []
  connectionFrontierRequest := false
  added := []
  requests := []
  handed := []
  completed := []

variable (a : BootstrapAttempt)

def addPull (pull : PullInfo) : BootstrapAttempt :=
  { a with pulls := a.pulls ++ [⟨pull, 0, a.added.length⟩], added := a.added ++ [pull] }

def swapPulls (i k : Nat) : BootstrapAttempt :=
  match a.pulls[i]?, a.pulls[k]? with
  | some pull, some pull' => { a with pulls := (a.pulls.set i pull').set k pull }
  | _, _ => a

def requestPull : BootstrapAttempt :=
  match a.pulls with
  | [] => a
  | pull :: pulls => { a with pulls := pulls, background := a.background ++ [pull] }

def requeuePull (pull : QueuedPull) : BootstrapAttempt :=
  let pull := { pull with attempts := pull.attempts + 1 }
  if pull.attempts < bootstrapFrontierRetryLimit then
    { a with pulls := pull :: a.pulls }
  else if pull.attempts = bootstrapFrontierRetryLimit then
    let pull := { pull with attempts := pull.attempts + 1 }
    if a.connectionFrontierRequest then { a with background := a.background ++ [pull] } else a
  else
    a

def request (i : Nat) : BootstrapAttempt :=
  match a.background[i]? with
  | none => a
  | some pull =>
    { a with
      background := a.background.eraseIdx i
      clients := a.clients ++ [⟨pull, pull.head⟩]
      requests := a.requests ++ [(pull.origin, pull.account, pull.endBlock)] }

def closeClient (i : Nat) : BootstrapAttempt :=
  match a.clients[i]? with
  | none => a
  | some client =>
    let a := { a with clients := a.clients.eraseIdx i }
    if client.expected ≠ client.pull.endBlock then
      a.requeuePull { client.pull with head := client.expected }
    else
      { a with completed := a.completed ++ [client.pull.origin] }

/-- `received_block`: a block that cannot be read or has no valid work ends the transfer. -/
def receivedBlock (env : NodeEnv) (i : Nat) (block : Option Block) : BootstrapAttempt :=
  match a.clients[i]?, block.filter (fun b => env.workValidate b = false) with
  | some client, some b =>
    let expected := if b.hash env.toEnv = client.expected then b.previous else client.expected
    { a with
      clients := a.clients.set i { client with expected := expected }
      handed := a.handed ++ [(client.pull.origin, b)] }
  | _, _ => a.closeClient i

end BootstrapAttempt

inductive AttemptEvent
  /-- `add_pull`. -/
  | addPull (pull : PullInfo)
  /-- The frontier request has a connection, or loses it. -/
  | frontierConnection (connected : Bool)
  /-- The frontier request has failed. -/
  | clearPulls
  /-- One step of the shuffle. -/
  | swapPulls (i k : Nat)
  /-- There is a connection for the first pull of the queue. -/
  | requestPull
  /-- A posted action is run. -/
  | request (i : Nat)
  /-- The peer of a client has sent a block, or what is not one. -/
  | receivedBlock (i : Nat) (block : Option Block)
  /-- The transfer of a client ends: an error, the mark of the end, or a peer that is too slow. -/
  | closeClient (i : Nat)

namespace BootstrapAttempt

def step (env : NodeEnv) (a : BootstrapAttempt) : AttemptEvent → BootstrapAttempt
  | .addPull pull => a.addPull pull
  | .frontierConnection connected => { a with connectionFrontierRequest := connected }
  | .clearPulls => { a with pulls := [] }
  | .swapPulls i k => a.swapPulls i k
  | .requestPull => a.requestPull
  | .request i => a.request i
  | .receivedBlock i block => a.receivedBlock env i block
  | .closeClient i => a.closeClient i

def run (env : NodeEnv) (events : List AttemptEvent) : BootstrapAttempt :=
  events.foldl (step env) initial

end BootstrapAttempt

end Badem
