import Badem.Codec.Streams
import Badem.Core.Elections
import Badem.Core.NumberText
import Badem.Core.Visitors

/-!
# Versions of the database

The constructor of `block_store` with `do_upgrades`.  The layouts of the account infos and of
the pending entries differ in size between versions, so that reading a record in another
layout than its own fails an assertion.
-/

namespace Badem

open Mdb BlockStore

structure AccountInfoV1 where
  head : BlockHash
  repBlock : BlockHash
  balance : Amount
  modified : Nat
deriving DecidableEq

structure AccountInfoV5 where
  head : BlockHash
  repBlock : BlockHash
  openBlock : BlockHash
  balance : Amount
  modified : Nat
deriving DecidableEq

/-- `pending_info_v3`, which is stored under the hash of the send. -/
structure PendingInfoV3 where
  source : Account
  amount : Amount
  destination : Account
deriving DecidableEq

/-- A value of the table of accounts in one of its layouts. -/
inductive AccountRecord
  | v1 (info : AccountInfoV1)
  | v5 (info : AccountInfoV5)
  | current (info : AccountInfo)
deriving DecidableEq

namespace AccountRecord

def toV1 : AccountRecord → Except Fault AccountInfoV1
  | .v1 info => .ok info
  | _ => .error .assertion

def toV5 : AccountRecord → Except Fault AccountInfoV5
  | .v5 info => .ok info
  | _ => .error .assertion

def toCurrent : AccountRecord → Except Fault AccountInfo
  | .current info => .ok info
  | _ => .error .assertion

end AccountRecord

/-- The file of a block store. -/
structure Database where
  /-- All tables but the accounts; the pending entries are those of the current layout. -/
  tables : BlockStore
  accounts : Table Account AccountRecord
  /-- Pending entries of the layout before version 4, in the same table as the others. -/
  pendingV3 : Table BlockHash PendingInfoV3
  unchecked : List (BlockHash × Block)
  vote : Table Account Vote
  sequence : List (Account × List Uint8)
  unsynced : List BlockHash
  /-- The number under the key 1 of the table `meta`. -/
  version : Option Nat

namespace Database

def empty : Database where
  tables := { BlockStore.empty with checksum := .empty }
  accounts := .empty
  pendingV3 := .empty
  unchecked := []
  vote := .empty
  sequence := []
  unsynced := []
  version := none

def versionPut (db : Database) (version : Nat) : Database := { db with version := some version }

def versionGet (db : Database) : Except Fault Nat :=
  match db.version with
  | none => .ok 1
  | some version => do
      -- the upper three words of the number are zero
      require (version < 2 ^ 64)
      pure version

def accountPut (db : Database) (account : Account) (record : AccountRecord) : Database :=
  { db with accounts := db.accounts.put account record }

end Database

section Upgrades

variable (env : Env)

def firstBlock (s : BlockStore) : Nat → Block → Except Fault Block
  | 0, _ => .error .outOfFuel
  | fuel + 1, block =>
    if block.previous ≠ 0 then do
      let block ← deref (s.blockGet block.previous)
      firstBlock s fuel block
    else
      .ok block

def AccountInfoV1.withOpenBlock (s : BlockStore) (v1 : AccountInfoV1) :
    Except Fault AccountInfoV5 := do
  let block ← deref (s.blockGet v1.head)
  let block ← firstBlock s (s.blockCount + 1) block
  pure
    { head := v1.head
      repBlock := v1.repBlock
      openBlock := block.hash env
      balance := v1.balance
      modified := v1.modified }

def upgradeAccounts : Nat → Account → Database → Except Fault Database
  | 0, _, _ => .error .outOfFuel
  | fuel + 1, account, db =>
    if account ≠ 0 then
      match db.accounts.lowerBound account with
      | some (account, record) => do
          let v1 ← record.toV1
          let v2 ← v1.withOpenBlock env db.tables
          upgradeAccounts fuel (account + 1) (db.accountPut account (.v5 v2))
      | none => upgradeAccounts fuel 0 db
    else
      .ok db

def upgradeV1ToV2 (db : Database) : Except Fault Database :=
  upgradeAccounts env (db.accounts.size + 2) 1 (db.versionPut 2)

def upgradeRepresentative (db : Database) (x : Account × AccountRecord) :
    Except Fault Database := do
  let info ← x.2.toV5
  let result ← Ledger.representativeCalculated env db.tables info.head
  require (result ≠ 0)
  let db := db.accountPut x.1 (.v5 { info with repBlock := result })
  let tables ← db.tables.representationAdd result info.balance
  pure { db with tables := tables }

def upgradeV2ToV3 (db : Database) : Except Fault Database :=
  let db := db.versionPut 3
  let db := { db with tables := { db.tables with representation := .empty } }
  db.accounts.entries.foldlM (upgradeRepresentative env) db

def pendingItem (x : BlockHash × PendingInfoV3) : PendingKey × PendingInfo :=
  (⟨x.2.destination, x.1⟩, ⟨x.2.source, x.2.amount⟩)

def upgradeV3ToV4 (db : Database) : Except Fault Database := do
  let db := db.versionPut 4
  -- every key that is read has the size of a hash
  require (db.tables.pending.entries = [])
  let items := db.pendingV3.entries.map pendingItem
  let tables := { db.tables with pending := .empty }
  pure
    { db with
      pendingV3 := .empty
      tables := items.foldl (fun s item => s.pendingPut item.1 item.2) tables }

/-- Walk down a chain and store the successors that are missing. -/
def fillSuccessors : Nat → BlockHash → Option Block → BlockStore → Except Fault BlockStore
  | 0, _, _, _ => .error .outOfFuel
  | _ + 1, _, none, s => .ok s
  | fuel + 1, successor, some block, s => do
      let hash := block.hash env
      let s ←
        (if s.blockSuccessor hash = 0 ∧ successor ≠ 0 then s.blockPut env hash block successor
        else pure s)
      fillSuccessors fuel hash (s.blockGet block.previous) s

def upgradeSuccessors (db : Database) (x : Account × AccountRecord) : Except Fault Database := do
  let info ← x.2.toV5
  let tables ← fillSuccessors env (db.tables.blockCount + 2) 0 (db.tables.blockGet info.head)
    db.tables
  pure { db with tables := tables }

def upgradeV4ToV5 (db : Database) : Except Fault Database :=
  let db := db.versionPut 5
  db.accounts.entries.foldlM (upgradeSuccessors env) db

def countBlocks (s : BlockStore) : Nat → BlockHash → Nat → Except Fault Nat
  | 0, _, _ => .error .outOfFuel
  | fuel + 1, hash, count =>
    if hash ≠ 0 then do
      let block ← expect (s.blockGet hash)
      countBlocks s fuel block.previous (count + 1)
    else
      .ok count

def countedHeader (s : BlockStore) (x : Account × AccountRecord) :
    Except Fault (Account × AccountInfo) := do
  let infoOld ← x.2.toV5
  let blockCount ← countBlocks s (s.blockCount + 1) infoOld.head 0
  pure
    (x.1,
      { head := infoOld.head
        repBlock := infoOld.repBlock
        openBlock := infoOld.openBlock
        balance := infoOld.balance
        modified := infoOld.modified
        blockCount := blockCount })

def upgradeV5ToV6 (db : Database) : Except Fault Database := do
  let db := db.versionPut 6
  let headers ← db.accounts.entries.mapM (countedHeader db.tables)
  pure (headers.foldl (fun db x => db.accountPut x.1 (.current x.2)) db)

def upgradeV6ToV7 (db : Database) : Except Fault Database :=
  .ok { db.versionPut 7 with unchecked := [] }

def upgradeV7ToV8 (db : Database) : Except Fault Database :=
  .ok { db.versionPut 8 with unchecked := [] }

/-- One sequence number of `upgrade_v8_to_v9`, kept in a vote that `junk` signs. -/
def upgradeSequence (junk : Account → Uint64 → Signature) (votes : Table Account Vote)
    (x : Account × List Uint8) : Except Fault (Table Account Vote) := do
  let (sequence, _) ← expect (Codec.readLittle 64 x.2)
  pure
    (votes.put x.1
      { sequence := sequence
        block := .openBlock env.genesisOpen
        account := x.1
        signature := junk x.1 sequence })

def upgradeV8ToV9 (junk : Account → Uint64 → Signature) (db : Database) :
    Except Fault Database := do
  let db := db.versionPut 9
  let votes ← db.sequence.foldlM (upgradeSequence env junk) db.vote
  pure { db with vote := votes, sequence := [] }

/-- Walk up a chain and store the block infos of `account`. -/
def storeInfos (account : Account) :
    Nat → Nat → BlockHash → BlockStore → Except Fault BlockStore
  | 0, _, _, _ => .error .outOfFuel
  | fuel + 1, blockCount, hash, s =>
    if hash ≠ 0 then do
      let s ←
        (if blockCount % blockInfoMax = 0 then do
          let balance ← Ledger.balance env s hash
          pure (s.blockInfoPut hash ⟨account, balance⟩)
        else
          pure s)
      storeInfos account fuel (blockCount + 1) (s.blockSuccessor hash) s
    else
      .ok s

def upgradeInfos (s : BlockStore) (x : Account × AccountRecord) : Except Fault BlockStore := do
  let info ← x.2.toCurrent
  if blockInfoMax ≤ info.blockCount then
    storeInfos env x.1 (s.blockCount + 1) 1 info.openBlock s
  else
    pure s

def upgradeV9ToV10 (db : Database) : Except Fault Database := do
  let db := db.versionPut 10
  let tables ← db.accounts.entries.foldlM (upgradeInfos env) db.tables
  pure { db with tables := tables }

/-- This step leaves the version as it is. -/
def upgradeV10ToV11 (db : Database) : Except Fault Database :=
  .ok { db with unsynced := [] }

/-- The steps of `do_upgrades`, each under the version that it starts from. -/
def upgradeSteps (junk : Account → Uint64 → Signature) :
    List (Nat × (Database → Except Fault Database)) :=
  [(1, upgradeV1ToV2 env), (2, upgradeV2ToV3 env), (3, upgradeV3ToV4),
    (4, upgradeV4ToV5 env), (5, upgradeV5ToV6), (6, upgradeV6ToV7), (7, upgradeV7ToV8),
    (8, upgradeV8ToV9 env junk), (9, upgradeV9ToV10 env), (10, upgradeV10ToV11)]

/-- The `switch` of `do_upgrades`: the steps from a version on, since no case ends with a
`break`. -/
def upgradesFrom (junk : Account → Uint64 → Signature) (version : Nat) :
    Except Fault (List (Nat × (Database → Except Fault Database))) := do
  require (1 ≤ version ∧ version ≤ 11)
  pure ((upgradeSteps env junk).filter (fun x => version ≤ x.1))

def pendingUpgrades (junk : Account → Uint64 → Signature) (db : Database) :
    Except Fault (List (Nat × (Database → Except Fault Database))) := do
  let version ← db.versionGet
  upgradesFrom env junk version

def doUpgrades (junk : Account → Uint64 → Signature) (db : Database) :
    Except Fault Database := do
  let steps ← pendingUpgrades env junk db
  steps.foldlM (fun db x => x.2 db) db

def openStore (junk : Account → Uint64 → Signature) (db : Database) :
    Except Fault Database := do
  let db ← doUpgrades env junk db
  let tables ← db.tables.checksumPut 0 0 0
  pure { db with tables := tables }

end Upgrades

end Badem
