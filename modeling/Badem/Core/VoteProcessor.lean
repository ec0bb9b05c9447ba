import Badem.Core.Messages
import Badem.Core.WalletStore

/-!
# Votes of the representatives

The last vote of every representative, which `blockstore.cpp` keeps in a cache and a table, and
`vote_processor::vote` (`node/node.cpp`).  A flush takes the cache away and writes it later; in
between the votes are in neither place.
-/

namespace Badem

open Mdb

/-- `vote_cache`, the table `vote` as it was last committed, and the votes that a running
flush has taken out of the cache. -/
structure VoteStore where
  cache : Table Account Vote
  committed : Table Account Vote
  flushing : Option (Table Account Vote)

namespace VoteStore

/-- `vote_get`, with a transaction that sees the committed database. -/
def voteGet (s : VoteStore) (account : Account) : Option Vote := s.committed.get account

def voteCurrent (s : VoteStore) (account : Account) : Option Vote :=
  match s.cache.get account with
  | some existing => some existing
  | none => s.voteGet account

def voteGenerate (env : Env) (crypto : Crypto) (s : VoteStore) (account : Account)
    (key : RawKey) (block : Block) : Vote × VoteStore :=
  let sequence := ((s.voteCurrent account).map Vote.sequence).getD 0 + 1
  let unsigned : Vote := ⟨sequence, block, account, 0⟩
  let result := { unsigned with
    signature := crypto.signMessage key account (unsigned.hash env) }
  (result, { s with cache := s.cache.put account result })

def voteMax (s : VoteStore) (vote : Vote) : Vote × VoteStore :=
  let result :=
    match s.voteCurrent vote.account with
    | some current => if current.sequence > vote.sequence then current else vote
    | none => vote
  (result, { s with cache := s.cache.put vote.account result })

def flushSwap (s : VoteStore) : VoteStore :=
  { s with cache := .empty, flushing := some s.cache }

/-- The second part of `flush`: the votes taken away are put into the table, and the
transaction is committed. -/
def flushCommit (s : VoteStore) : VoteStore :=
  match s.flushing with
  | some votes =>
    { s with
      committed := votes.overlay s.committed
      flushing := none }
  | none => s

end VoteStore

inductive VoteCode
  | invalid
  | replay
  | vote
deriving DecidableEq

inductive VoteEffect
  /-- `observers.vote`. -/
  | observed (vote : Vote) (endpoint : Endpoint)
  /-- `network::confirm_send` of the highest vote known. -/
  | confirmSend (vote : Vote) (endpoint : Endpoint)
  | election (effect : Effect)
deriving DecidableEq

/-- The vote store and the elections of `active_transactions` by their root. -/
structure VoteProcessor where
  store : VoteStore
  roots : Table BlockHash Election

namespace VoteProcessor

def activeVote (node : Node) (n : VoteReads) (roots : Table BlockHash Election) (v : Vote) :
    Except Fault (Bool × Table BlockHash Election × List Effect) :=
  match roots.get v.block.root with
  | some election => do
      let (replay, election, effects) ← election.vote node n v
      pure (replay, roots.put v.block.root election, effects)
  | none => .ok (false, roots, [])

/-- What is sent back to a representative that has lost track of its sequence number. -/
def assist (maxVote v : Vote) (endpoint : Endpoint) : List VoteEffect :=
  if maxVote.sequence > v.sequence + 10000 then [.confirmSend maxVote endpoint] else []

def vote (node : Node) (n : VoteReads) (p : VoteProcessor) (v : Vote) (endpoint : Endpoint) :
    Except Fault (VoteCode × VoteProcessor × List VoteEffect) :=
  if v.validate node.env = false then do
    let (maxVote, store) := p.store.voteMax v
    let (replay, roots, effects) ← activeVote node n p.roots v
    let result := if replay = false ∨ maxVote.sequence > v.sequence then VoteCode.vote else .replay
    let observed := if result = .vote then [VoteEffect.observed v endpoint] else []
    pure (result, ⟨store, roots⟩,
      effects.map .election ++ observed ++ assist maxVote v endpoint)
  else
    .ok (.invalid, p, [])

end VoteProcessor

end Badem
