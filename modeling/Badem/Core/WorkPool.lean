import Badem.Core.Messages
import Mathlib

/-!
# The work pool

The queue of work requests and the threads of `work_pool` (`lib/work.cpp`).  An event is what
happens while the mutex is held once, or what a thread does between two accesses to shared
data; a schedule is a list of events.  A callback is known by the number of its call of
`generate`.  A wait can end without a notification.  Observers and OpenCL are left out.
-/

namespace Badem

structure WorkRequest where
  id : Nat
  root : Uint256
deriving DecidableEq

inductive WorkerPhase
  /-- It is about to lock the mutex and to begin a round of the loop. -/
  | locking
  /-- It waits for a request. -/
  | waiting
  /-- It is at the head of the search, with the last number tried and its value. -/
  | searching (current : WorkRequest) (ticketL : Nat) (work output : Uint64)
  /-- It has left the search and is about to lock the mutex. -/
  | relocking (current : WorkRequest) (ticketL : Nat) (work output : Uint64)
  /-- It has released the mutex to call the callback. -/
  | calling (current : WorkRequest) (work : Uint64)
  | finished
deriving DecidableEq

/-- The pool with `n` threads. -/
structure WorkPool (n : Nat) where
  ticket : Nat
  done : Bool
  pending : List WorkRequest
  threads : Fin n → WorkerPhase
  /-- The number of calls of `generate`. -/
  next : Nat
  /-- The callbacks that have been called, with their arguments. -/
  answers : List (WorkRequest × Option Uint64)

namespace WorkPool

variable {n : Nat}

def start (n : Nat) : WorkPool n where
  ticket := 0
  done := false
  pending := []
  threads := fun _ => .locking
  next := 0
  answers := []

section Steps

variable (env : NodeEnv) (asserts : Bool) (pool : WorkPool n)

def setThread (i : Fin n) (phase : WorkerPhase) : WorkPool n :=
  { pool with threads := Function.update pool.threads i phase }

def enqueue (root : Uint256) : WorkPool n :=
  { pool with
    pending := pool.pending ++ [⟨pool.next, root⟩]
    next := pool.next + 1 }

def generate (root : Uint256) : Except Fault (WorkPool n) := do
  assertIf asserts (root ≠ 0)
  pure (pool.enqueue root)

def cancel (root : Uint256) : WorkPool n :=
  { pool with
    ticket :=
      if pool.pending.head?.any (fun r => decide (r.root = root)) = true then pool.ticket + 1
      else pool.ticket
    pending := pool.pending.filter (fun r => !decide (r.root = root))
    answers := pool.answers ++
      (pool.pending.filter (fun r => decide (r.root = root))).map (fun r => (r, none)) }

def stop : WorkPool n := { pool with done := true }

def loopHead : WorkerPhase :=
  match pool.pending with
  | [] => if pool.done = true then .finished else .waiting
  | current :: _ => .searching current pool.ticket 0 0

def attempts (root : Uint256) : Nat → (Nat → Uint64) → Uint64 × Uint64 → Uint64 × Uint64
  | 0, _, found => found
  | iteration + 1, rng, found =>
    if found.2 < env.network.publishThreshold then
      attempts root iteration (fun k => rng (k + 1)) (rng 0, env.workValue root (rng 0))
    else found

def search (rng : Nat → Uint64) (current : WorkRequest) (ticketL : Nat) (work output : Uint64) :
    WorkerPhase :=
  if pool.ticket = ticketL ∧ output < env.network.publishThreshold then
    let found := attempts env current.root 256 rng (work, output)
    .searching current ticketL found.1 found.2
  else
    .relocking current ticketL work output

def take (pending : List WorkRequest) : WorkPool n :=
  { pool with ticket := pool.ticket + 1, pending := pending }

def answer (r : WorkRequest) (result : Option Uint64) : WorkPool n :=
  { pool with answers := pool.answers ++ [(r, result)] }

def commit (i : Fin n) (current : WorkRequest) (ticketL : Nat) (work output : Uint64) :
    Except Fault (WorkPool n) :=
  if pool.ticket = ticketL then do
    assertIf asserts (env.network.publishThreshold ≤ output)
    assertIf asserts (env.workValue current.root work = output)
    match pool.pending with
    | [] => .error .nullBlock
    | _ :: pending => pure ((pool.take pending).setThread i (.calling current work))
  else
    pure (pool.setThread i pool.loopHead)

def loop (i : Fin n) (rng : Nat → Uint64) : Except Fault (WorkPool n) :=
  match pool.threads i with
  | .locking => pure (pool.setThread i pool.loopHead)
  | .waiting => pure (pool.setThread i pool.loopHead)
  | .searching current ticketL work output =>
    pure (pool.setThread i (pool.search env rng current ticketL work output))
  | .relocking current ticketL work output => pool.commit env asserts i current ticketL work output
  | .calling current work => pure ((pool.answer current (some work)).setThread i .locking)
  | .finished => pure pool

end Steps

/-! ## Schedules -/

inductive Event (n : Nat)
  | generate (root : Uint256)
  | cancel (root : Uint256)
  | stop
  /-- A thread goes on, with the numbers its generator gives next. -/
  | worker (i : Fin n) (rng : Nat → Uint64)

def step (env : NodeEnv) (asserts : Bool) (pool : WorkPool n) :
    Event n → Except Fault (WorkPool n)
  | .generate root => pool.generate asserts root
  | .cancel root => .ok (pool.cancel root)
  | .stop => .ok pool.stop
  | .worker i rng => pool.loop env asserts i rng

def run (env : NodeEnv) (asserts : Bool) (events : List (Event n)) (pool : WorkPool n) :
    Except Fault (WorkPool n) :=
  events.foldlM (step env asserts) pool

end WorkPool

end Badem
