import Badem.Core.Messages
import Mathlib

/-!
# The store of unchecked blocks

The unchecked blocks of `block_store`: a cache, which `flush` writes to a table that has several
values under a key.  `flush` also writes the cache of votes, which is left out here.
-/

namespace Badem

open Codec Mdb

/-- A key of the table with one of its values. -/
structure UncheckedEntry where
  hash : BlockHash
  data : Stream
deriving DecidableEq

/-- The values under a key follow each other. -/
instance UncheckedEntry.linearOrder : LinearOrder UncheckedEntry :=
  LinearOrder.lift' (fun e => toLex (e.hash, e.data)) (by
    rintro ⟨h, d⟩ ⟨h', d'⟩ heq
    have hpair : (h, d) = (h', d') := toLex.injective heq
    simpa using hpair)

structure UncheckedStore where
  /-- `unchecked_cache`. -/
  cache : List (BlockHash × Block)
  disk : Table UncheckedEntry Unit

namespace UncheckedStore

def empty : UncheckedStore := ⟨[], .empty⟩

section Operations

variable (env : Env) (asserts : Bool) (u : UncheckedStore)

def cached (hash : BlockHash) : List Block :=
  (u.cache.filter (fun x => decide (x.1 = hash))).map Prod.snd

def values (hash : BlockHash) : List Stream :=
  (u.disk.entries.filter (fun x => decide (x.1.hash = hash))).map (fun x => x.1.data)

/-- `unchecked_get`.  A value that is no block gives a null pointer. -/
def uncheckedGet (hash : BlockHash) : Except Fault (List (Option Block)) := do
  let stored ← (u.values hash).mapM (deserializeTypedBlock asserts)
  pure ((u.cached hash).map some ++ stored.map (Option.map Prod.fst))

/-- The loop of `unchecked_put` over the blocks that are there. -/
def hashExists (hash : BlockHash) : List (Option Block) → Except Fault Bool
  | [] => .ok false
  | block :: rest => do
      let b ← deref block
      if b.hash env = hash then pure true else hashExists hash rest

def uncheckedPut (hash : BlockHash) (b : Block) : Except Fault UncheckedStore := do
  let present ← u.uncheckedGet asserts hash
  let found ← hashExists env (b.hash env) present
  if found = true then pure u else pure { u with cache := u.cache ++ [(hash, b)] }

def uncheckedDel (hash : BlockHash) (b : Block) : UncheckedStore where
  cache := u.cache.filter (fun x => !decide (x.1 = hash ∧ x.2 = b))
  disk := u.disk.del ⟨hash, serializeBlock b⟩

def flush : UncheckedStore where
  cache := []
  disk := u.cache.foldl (fun disk x => disk.put ⟨x.1, serializeBlock x.2⟩ ()) u.disk

end Operations

/-! ## Runs -/

inductive Operation
  | put (hash : BlockHash) (block : Block)
  | del (hash : BlockHash) (block : Block)
  | flush

def step (env : Env) (asserts : Bool) (u : UncheckedStore) :
    Operation → Except Fault UncheckedStore
  | .put hash b => u.uncheckedPut env asserts hash b
  | .del hash b => .ok (u.uncheckedDel hash b)
  | .flush => .ok u.flush

def run (env : Env) (asserts : Bool) (ops : List Operation) (u : UncheckedStore) :
    Except Fault UncheckedStore :=
  ops.foldlM (step env asserts) u

end UncheckedStore

end Badem
