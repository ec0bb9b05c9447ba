import Badem.Core.BlockStore

/-!
# Statistics

The counters of `node/stats.hpp`.  An entry that has not been created counts zero.
-/

namespace Badem

inductive StatType
  | traffic | error | message | block | ledger | rollback | bootstrap | vote | peering
deriving DecidableEq

inductive StatDetail
  | all
  | badSender | insufficientWork
  | send | receive | open | change | stateBlock
  | keepalive | publish | republishVote | confirmReq | confirmAck
  | initiate | bulkPull | bulkPush | bulkPullBlocks | frontierReq
  | voteValid | voteReplay | voteInvalid
  | handshake
deriving DecidableEq

inductive StatDir
  | in | out
deriving DecidableEq

abbrev Stat := BitVec 32 → Uint64

namespace Stat

def keyOf (type : StatType) (detail : StatDetail) (dir : StatDir) : BitVec 32 :=
  BitVec.ofNat 32 type.ctorIdx <<< 16 ||| BitVec.ofNat 32 detail.ctorIdx <<< 8 |||
    BitVec.ofNat 32 dir.ctorIdx

def noDetailMask : BitVec 32 := 0xffff00ff

def update (s : Stat) (key : BitVec 32) (value : Uint64) : Stat :=
  Function.update s key (s key + value)

def addDetail (s : Stat) (type : StatType) (detail : StatDetail) (dir : StatDir) (value : Uint64)
    (detailOnly : Bool) : Stat :=
  let key := keyOf type detail dir
  let s := s.update key value
  if detailOnly = false ∧ key &&& noDetailMask ≠ key then s.update (key &&& noDetailMask) value
  else s

def add (s : Stat) (type : StatType) (dir : StatDir) (value : Uint64) : Stat :=
  s.addDetail type .all dir value false

def inc (s : Stat) (type : StatType) (dir : StatDir) : Stat := s.add type dir 1

def incDetailOnly (s : Stat) (type : StatType) (detail : StatDetail) (dir : StatDir) : Stat :=
  s.addDetail type detail dir 1 false

def incDetail (s : Stat) (type : StatType) (detail : StatDetail) (dir : StatDir) : Stat :=
  s.addDetail type detail dir 1 false

def count (s : Stat) (type : StatType) (detail : StatDetail) (dir : StatDir) : Uint64 :=
  s (keyOf type detail dir)

inductive Call
  | inc (type : StatType) (dir : StatDir)
  | incDetailOnly (type : StatType) (detail : StatDetail) (dir : StatDir)
  | incDetail (type : StatType) (detail : StatDetail) (dir : StatDir)
  | add (type : StatType) (dir : StatDir) (value : Uint64)
  | addDetail (type : StatType) (detail : StatDetail) (dir : StatDir) (value : Uint64)
      (detailOnly : Bool)

def call (s : Stat) : Call → Stat
  | .inc type dir => s.inc type dir
  | .incDetailOnly type detail dir => s.incDetailOnly type detail dir
  | .incDetail type detail dir => s.incDetail type detail dir
  | .add type dir value => s.add type dir value
  | .addDetail type detail dir value detailOnly => s.addDetail type detail dir value detailOnly

def run (calls : List Call) : Stat := calls.foldl call (fun _ => 0)

end Stat

end Badem
