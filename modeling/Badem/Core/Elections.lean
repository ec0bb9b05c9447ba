import Badem.Containers.KeyedTotals
import Badem.Core.BlockStore

/-!
# Elections

The votes on the blocks with one root, their tally (`ledger.cpp`), and the election that
decides on a winner (`node/node.cpp`).  What an election reads from the node is an argument of
each call; what it does to the node is returned as a list of effects.
-/

namespace Badem

open Mdb Containers OrderDual

structure Vote where
  sequence : Uint64
  block : Block
  account : Account
  signature : Signature
deriving DecidableEq

namespace Vote

def hash (env : Env) (v : Vote) : Uint256 :=
  env.digest [.word256 (v.block.hash env), .word64 v.sequence]

/-- `vote::validate`, which returns true when the signature is not valid. -/
def validate (env : Env) (v : Vote) : Bool :=
  env.validateMessage v.account (v.hash env) v.signature

end Vote

inductive TallyResult
  | vote
  | changed
  | confirm
deriving DecidableEq

structure Votes where
  /-- Root of the blocks in question. -/
  id : BlockHash
  repVotes : Table Account Block

namespace Votes

def start (notAnAccount : Account) (b : Block) : Votes where
  id := b.root
  repVotes := Table.empty.put notAnAccount b

def vote (votes : Votes) (v : Vote) : TallyResult × Votes :=
  match votes.repVotes.get v.account with
  | none => (.vote, { votes with repVotes := votes.repVotes.put v.account v.block })
  | some b =>
    if ¬ b = v.block then
      (.changed, { votes with repVotes := votes.repVotes.put v.account v.block })
    else (.confirm, votes)

end Votes

/-- Orders in which `ledger::tally` visits its two unordered maps. -/
structure TallyOrder where
  votes : Visit (Account × Block)
  totals : Visit (Block × Uint128)

/-- Blocks by the total of their votes, greatest total first. -/
abbrev Tally := Table Uint128ᵒᵈ Block

namespace Ledger

variable (env : Env) (weight : Account → Uint128) (order : TallyOrder)

def contributions (votes : Votes) : List (Block × Uint128) :=
  (order.votes.order votes.repVotes.entries).map (fun i => (i.2, weight i.1))

/-- `ledger::tally`.  Blocks with the same hash are one block. -/
def tally (votes : Votes) : Tally :=
  ranking (order.totals.order (totals (Block.hash env) (contributions weight order votes)))

def winner (votes : Votes) : Option (Uint128 × Block) :=
  (tally env weight order votes).entries.head?.map (fun i => (ofDual i.1, i.2))

end Ledger

structure NodeConfig where
  onlineWeightMinimum : Amount
  onlineWeightQuorum : Nat
  /-- A larger percentage is refused when the configuration is read. -/
  accepted : onlineWeightQuorum ≤ 100

structure Node where
  env : Env
  config : NodeConfig
  /-- A random number that stands for no account. -/
  notAnAccount : Account

namespace Node

def onlineStake (node : Node) (onlineStakeTotal : Uint128) : Uint128 :=
  max onlineStakeTotal node.config.onlineWeightMinimum

def delta (node : Node) (onlineStakeTotal : Uint128) : Uint128 :=
  node.onlineStake onlineStakeTotal / 100 * BitVec.ofNat 128 node.config.onlineWeightQuorum

end Node

/-- What a call of `election::vote` reads from the node. -/
structure VoteReads where
  weight : Account → Uint128
  /-- Total of the online representatives when the cooldown is computed. -/
  supplyTotal : Uint128
  /-- The same total when the quorum is computed. -/
  deltaTotal : Uint128
  /-- Clock, in nanoseconds, when the last vote is compared with the cooldown. -/
  checkedAt : Int
  /-- Clock, in nanoseconds, when the vote is recorded. -/
  recordedAt : Int
  order : TallyOrder

/-- What an election makes the node do. -/
inductive Effect
  /-- `network::republish_vote`. -/
  | republishVote (vote : Vote)
  /-- `block_processor::force`. -/
  | force (block : Block)
  /-- `process_confirmed` and the confirmation action, in the background. -/
  | confirm (block : Block)
deriving DecidableEq

structure ElectionStatus where
  winner : Block
  tally : Amount

/-- The vote that was last counted for an account. -/
structure VoteInfo where
  time : Int
  sequence : Uint64
  hash : BlockHash
deriving DecidableEq

def VoteInfo.precedes (env : Env) (i : VoteInfo) (v : Vote) : Bool :=
  i.sequence < v.sequence || (i.sequence == v.sequence && i.hash < v.block.hash env)

structure Election where
  votes : Votes
  lastVotes : Table Account VoteInfo
  status : ElectionStatus
  confirmed : Bool

namespace Election

def start (node : Node) (b : Block) : Election where
  votes := Votes.start node.notAnAccount b
  lastVotes := Table.empty
  status := ⟨b, 0⟩
  confirmed := false

def confirmOnce (e : Election) : Election × List Effect :=
  if e.confirmed = false then ({ e with confirmed := true }, [.confirm e.status.winner])
  else (e, [])

/-- `election::have_quorum`, which reads the first entry without a check. -/
def haveQuorum (delta : Uint128) (tally : Tally) : Except Fault Bool :=
  match tally.entries with
  | [] => .error .nullBlock
  | (first, _) :: rest =>
    let second :=
      match rest with
      | [] => 0
      | (second, _) :: _ => ofDual second
    .ok (decide (ofDual first > second + delta))

def tallySum (tally : Tally) : Uint128 :=
  tally.entries.foldl (fun sum i => sum + ofDual i.1) 0

/-- Take over the first block of the tally if enough weight has voted. -/
def followTally (node : Node) (tally : Tally) (block : Block) (e : Election) :
    Election × List Effect :=
  if node.config.onlineWeightMinimum ≤ tallySum tally ∧ ¬ block = e.status.winner then
    ({ e with status := { e.status with winner := block } }, [.force block])
  else (e, [])

def confirmIfQuorum (node : Node) (n : VoteReads) (e : Election) :
    Except Fault (Election × List Effect) :=
  let tally := Ledger.tally node.env n.weight n.order e.votes
  match tally.entries with
  | [] => .error .assertion
  | (total, block) :: _ => do
      let e := { e with status := { e.status with tally := ofDual total } }
      let (e, forced) := followTally node tally block e
      let quorum ← haveQuorum (node.delta n.deltaTotal) tally
      let (e, confirmed) := if quorum then e.confirmOnce else (e, [])
      .ok (e, forced ++ confirmed)

/-- Seconds that a representative has to wait before its vote may change. -/
def cooldown (weight supply : Uint128) : Int :=
  if weight < supply / 100 then 15
  else if weight < supply / 20 then 5
  else 1

/-- What `election::vote` decides about a vote: whether it is a replay, and whether it is
counted. -/
def admits (node : Node) (n : VoteReads) (e : Election) (v : Vote) : Bool × Bool :=
  let supply := node.onlineStake n.supplyTotal
  let weight := n.weight v.account
  if node.env.network = .test ∨ weight > supply / 1000 then
    match e.lastVotes.get v.account with
    | none => (false, true)
    | some lastVote =>
      if lastVote.precedes node.env v = true then
        (false, decide (lastVote.time ≤ n.checkedAt - cooldown weight supply * 10 ^ 9))
      else (true, false)
  else (false, false)

def count (node : Node) (n : VoteReads) (e : Election) (v : Vote) : Election :=
  { e with
    lastVotes := e.lastVotes.put v.account
      ⟨n.recordedAt, v.sequence, v.block.hash node.env⟩
    votes := (e.votes.vote v).2 }

def vote (node : Node) (n : VoteReads) (e : Election) (v : Vote) :
    Except Fault (Bool × Election × List Effect) := do
  require (v.validate node.env = false)
  let (replay, shouldProcess) := e.admits node n v
  if shouldProcess = true then
    let (e, effects) ← (e.count node n v).confirmIfQuorum node n
    .ok (replay, e, .republishVote v :: effects)
  else .ok (replay, e, [])

def voteAll (node : Node) (e : Election) :
    List (VoteReads × Vote) → Except Fault (Election × List Effect)
  | [] => .ok (e, [])
  | (n, v) :: votes => do
      let (_, e, effects) ← e.vote node n v
      let (e, later) ← voteAll node e votes
      .ok (e, effects ++ later)

end Election

end Badem
