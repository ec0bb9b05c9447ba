import Badem.Core.Process
import Badem.Refinement.LedgerOps
import Mathlib.Tactic.Ring

/-!
# Accepted blocks

A block whose entry may be added to the lattice, with a valid signature, passes every test of
its handler.
-/

namespace Badem

open Mdb BlockLattice LedgerProcessor BlockStore

variable {env : Env} {U : Set Block}
variable {δ : Account → Uint128} {s : BlockStore} {L : BlockLattice env U} {e : Entry}

namespace Refines

theorem blockGet_of_find (hR : Refines δ s L) {h : BlockHash} (he : L.find h = some e) :
    s.blockGet h = some e.block :=
  blockGet_of_represents _ hR.blocks he

theorem blockGet_of_find_none (hR : Refines δ s L) {h : BlockHash} (he : L.find h = none) :
    s.blockGet h = none := by
  rw [blockGet_eq hR.blocks, raw_of_find_none _ he]
  rfl

theorem blockExists_iff (hR : Refines δ s L) (h : BlockHash) :
    s.blockExists h = (L.find h).isSome := by
  rw [blockExists_eq hR.blocks]
  cases hfind : L.find h with
  | none =>
    rw [raw_of_find_none _ hfind]
    rfl
  | some e =>
    rw [raw_of_find _ hfind]
    rfl

theorem account_of_previous (H : CollisionFree env U)
    (hR : Refines δ s L) (ha : L.Appendable e) {p : Entry} (hp : L.find e.previous = some p) :
    ∃ i, s.accounts.get e.account = some i ∧ i.Describes p :=
  hR.account_of_head ((ha.head_eq H).trans hp)

theorem frontier_of_previous (hR : Refines δ s L) (ha : L.Appendable e) {p : Entry}
    (hp : L.find e.previous = some p) (hne : e.previous ≠ 0) (hlegacy : p.block.isLegacy = true) :
    s.frontiers.get e.previous = some e.account := by
  obtain ⟨p', hp', hchild, hext⟩ := ha.chain hne
  cases hp.symm.trans hp'
  rw [hR.frontiers, frontier_of_find _ hp, if_pos ⟨hlegacy, hchild⟩, hext.account]

theorem exists_pending (H : CollisionFree env U)
    (hR : Refines δ s L) (ha : L.Appendable e) {x : BlockHash} (hs : e.source env = some x) :
    ∃ q, L.find x = some q ∧ s.pending.get ⟨e.account, x⟩ = some ⟨q.account, e.amount⟩ ∧
      s.blockExists x = true ∧ ∃ i, s.accounts.get q.account = some i := by
  obtain ⟨q, hq, hdest, hamount, hrec⟩ := ha.sent hs
  obtain ⟨y, hy, -⟩ := L.exists_head_of_find H hq
  obtain ⟨i, hi, -⟩ := hR.account_of_head hy
  refine ⟨q, hq, ?_, ?_, i, hi⟩
  · rw [hR.pending, pendingInfo_of_find _ hq, if_pos ⟨hdest, hrec⟩, hamount]
  · rw [hR.blockExists_iff, hq]
    rfl

end Refines

section Accepts

variable (H : CollisionFree env U)

theorem BlockLattice.Appendable.hash_of_block (ha : L.Appendable e) {b : Block}
    (hb : e.block = b) : b.hash env = e.hash := by
  rw [← hb]
  exact ha.hashed

theorem blockPut_append
    (hrep : BlockTables.Represents s.blockDatabase L.raw) (ha : L.Appendable e) :
    ∃ db : BlockTables, s.blockPut env e.hash e.block 0 = .ok (s.withBlocks db) ∧
      BlockTables.Represents (s.withBlocks db).blockDatabase (L.append H e ha).raw ∧
      BlockTables.size db = s.blockCount + 1 := by
  obtain ⟨db, hput, hdb, hsize⟩ := blockPut_spec hrep env
    (raw_of_find_none _ (L.find_zero H)) (raw_of_find_none _ ha.fresh) ha.hashed
    (fun hp => (ha.opening hp).1.type) (by
      intro hp
      obtain ⟨p, hfind, -⟩ := ha.chain hp
      exact ⟨_, raw_of_find _ hfind⟩)
  refine ⟨db, hput, ?_, hsize⟩
  rw [blockDatabase_withBlocks, raw_append]
  exact hdb

theorem account_cases (H : CollisionFree env U) (hR : Refines δ s L) (ha : L.Appendable e) :
    (∃ p i, e.previous ≠ 0 ∧ L.find e.previous = some p ∧ e.Extends p ∧
        s.accounts.get e.account = some i ∧ i.Describes p) ∨
      (e.previous = 0 ∧ e.Opens env ∧ s.accounts.get e.account = none) := by
  by_cases hp : e.previous = 0
  · obtain ⟨hopens, hhead⟩ := ha.opening hp
    exact .inr ⟨hp, hopens, (hR.account_none_iff _).mpr hhead⟩
  · obtain ⟨p, hfind, -, hext⟩ := ha.chain hp
    obtain ⟨i, hi, hdesc⟩ := hR.account_of_previous H ha hfind
    exact .inl ⟨p, i, hp, hfind, hext, hi, hdesc⟩

def appendStore (env : Env) (now : Nat) (s : BlockStore) (e : Entry) (previousHead : BlockHash)
    (isState : Bool) (db : BlockTables) (frontiers : Table BlockHash Account)
    (weights : Table Account Uint128) : BlockStore :=
  { s.withBlocks db with
    frontiers := frontiers
    accounts := s.accounts.put e.account { e.info with modified := now }
    pending := e.settle env s.pending
    blocksInfo := Ledger.latestInfos s e.account e.hash e.balance e.height isState
    representation := weights
    checksum := s.checksum.put 0
      (s.accounts.fold (· ^^^ ·) 0 (fun _ i => i.head) ^^^ previousHead ^^^ e.hash) }

theorem installs_appendStore
    (now : Nat) (hR : Refines δ s L) (ha : L.Appendable e) {isState : Bool}
    (hstate : isState = !e.block.isLegacy)
    {db : BlockTables} {frontiers : Table BlockHash Account} {weights : Table Account Uint128}
    (hblocks : BlockTables.Represents (s.withBlocks db).blockDatabase (L.append H e ha).raw)
    (hsize : BlockTables.size db = s.blockCount + 1)
    (hfrontiers : ∀ h, frontiers.get h =
      if h = e.hash then (if e.block.isLegacy = true then some e.account else none)
      else if h = e.previous then none
      else s.frontiers.get h)
    (hweights : ∀ r, (weights.get r).getD 0 + L.contribution (L.find e.previous) r =
      s.representationGet r + (L.append H e ha).gain e.repBlock e.balance r) :
    Refines.Installs H s
      (appendStore env now s e (((L.find e.previous).map Entry.hash).getD 0) isState db
        frontiers weights) ha where
  blocks := hblocks
  count := hsize
  accounts := ⟨_, ⟨rfl, rfl, rfl, rfl, rfl⟩, rfl⟩
  frontiers := hfrontiers
  pending := rfl
  weights := hweights
  checksum := by
    intro c hc
    cases hR.get_checksum.symm.trans hc
    rfl
  infos := by
    intro h
    show (Ledger.latestInfos _ _ _ _ _ _).get h = _
    rw [Ledger.get_latestInfos, hstate]
    simp

include H in
theorem changeLatest_append (now : Nat) (isState : Bool) (hR : Refines δ s L) (ha : L.Appendable e)
    {u : BlockStore} (hacc : u.accounts = s.accounts) (hsum : u.checksum = s.checksum)
    (hget : u.blockGet e.hash = some e.block) :
    Ledger.changeLatest now u e.account e.hash e.repBlock e.balance e.height isState =
      .ok { u with
        accounts := s.accounts.put e.account { e.info with modified := now }
        blocksInfo :=
          Ledger.latestInfos u e.account e.hash e.balance e.height isState
        checksum := s.checksum.put 0
          (s.accounts.fold (· ^^^ ·) 0 (fun _ i => i.head) ^^^
            ((L.find e.previous).map Entry.hash).getD 0 ^^^ e.hash) } := by
  have hc : u.checksum.get 0 = some (s.accounts.fold (· ^^^ ·) 0 (fun _ i => i.head)) := by
    rw [hsum]
    exact hR.get_checksum
  rcases account_cases H hR ha with ⟨p, i, hne, hp, hext, hi, hdesc⟩ | ⟨hz, hopens, hi⟩
  · rw [← hacc] at hi
    rw [Ledger.changeLatest_of_some now _ _ _ _ hi hc (ha.hash_ne_zero H), hp, hdesc.head,
      hdesc.openBlock, ← hext.openBlock, hacc, hsum]
    rfl
  · rw [← hacc] at hi
    rw [Ledger.changeLatest_of_none now _ _ _ _ hi hc hget hz (ha.hash_ne_zero H), hz,
      L.find_zero H, hacc, hsum, Entry.info, hopens.openBlock]
    simp

/-- What a handler finds when a legacy block extends the chain of its account. -/
structure Position (s : BlockStore) (L : BlockLattice env U) (e p : Entry)
    (i : AccountInfo) : Prop where
  ne_zero : e.previous ≠ 0
  fresh : s.blockExists e.hash = false
  find : L.find e.previous = some p
  extend : e.Extends p
  get : s.blockGet e.previous = some p.block
  valid : e.block.validPredecessor p.block = true
  frontiers : s.frontiers.get e.previous = some e.account
  accounts : s.accounts.get e.account = some i
  describes : i.Describes p

section Position

variable {p : Entry} {i : AccountInfo} (hpos : Position s L e p i)
include hpos

theorem Position.blockCount : i.blockCount + 1 = e.height := by
  rw [hpos.describes.blockCount, hpos.extend.height]

theorem Position.balance : i.balance = e.previousBalance := by
  rw [hpos.describes.balance, hpos.extend.previousBalance]

theorem Position.repBlock_of_kept (h : e.block.namesRepresentative = false) :
    p.repBlock = e.repBlock := by
  rw [hpos.extend.repBlock, if_neg (by simp [h])]

end Position

include H in
theorem exists_position (hR : Refines δ s L) (ha : L.Appendable e) (ho : e.block.type ≠ .opening)
    (hst : e.block.type ≠ .state) : ∃ p i, Position s L e p i := by
  have hlegacy : e.block.isLegacy = true := (Block.isLegacy_iff _).mpr hst
  have hne : e.previous ≠ 0 := by
    intro hp
    exact (ha.opening hp).1.type.elim ho hst
  obtain ⟨p, hp, hchild, hext⟩ := ha.chain hne
  obtain ⟨i, hi, hdesc⟩ := hR.account_of_previous H ha hp
  have hpl := hext.legacy hlegacy
  refine ⟨p, i, hne, ?_, hp, hext, hR.blockGet_of_find hp,
    Block.validPredecessor_of_isLegacy ho hpl, hR.frontier_of_previous ha hp hne hpl, hi, hdesc⟩
  rw [hR.blockExists_iff, ha.fresh]
  rfl

def Accepts (s : BlockStore) (ha : L.Appendable e)
    (x : Except Fault (ProcessReturn × BlockStore)) : Prop :=
  ∃ r s', x = .ok (r, s') ∧ r.code = .progress ∧ Refines.Installs H s s' ha

section Legacy

variable (now : Nat) (hR : Refines δ s L) (ha : L.Appendable e)

def extendStore (env : Env) (now : Nat) (s : BlockStore) (L : BlockLattice env U) (e : Entry)
    (db : BlockTables) (weights : Table Account Uint128) : BlockStore :=
  appendStore env now s e (((L.find e.previous).map Entry.hash).getD 0) false db
    ((s.frontiers.del e.previous).put e.hash e.account) weights

include hR in
theorem accepts_of_extendStore
    (hlegacy : e.block.isLegacy = true) {db : BlockTables} {w : Table Account Uint128}
    (hblocks : BlockTables.Represents (s.withBlocks db).blockDatabase (L.append H e ha).raw)
    (hsize : BlockTables.size db = s.blockCount + 1)
    (hweights : ∀ r, (w.get r).getD 0 + L.contribution (L.find e.previous) r =
      s.representationGet r + (L.append H e ha).gain e.repBlock e.balance r)
    {x : Except Fault (ProcessReturn × BlockStore)} {r : ProcessReturn}
    (hx : x = .ok (r, extendStore env now s L e db w)) (hr : r.code = .progress) :
    Accepts H s ha x := by
  refine ⟨r, _, hx, hr, installs_appendStore H now hR ha (by rw [hlegacy]; rfl) hblocks hsize
    (fun h => ?_) hweights⟩
  rw [Table.get_put, Table.get_del, if_pos hlegacy]

theorem weights_of_kept {p r : Entry} (hp : L.find e.previous = some p)
    (hr : L.find p.repBlock = some r) (herep : p.repBlock = e.repBlock) {amount : Amount}
    (hsum : p.balance + amount = e.balance) (a : Account) :
    ((s.addWeight r.block.representative amount).representation.get a).getD 0 +
        L.contribution (L.find e.previous) a =
      s.representationGet a + (L.append H e ha).gain e.repBlock e.balance a := by
  have hweight := representationGet_addWeight_of_find L s hr amount a
  rw [hp, ← herep, gain_append H ha hr, ← hsum, L.gain_add]
  show (s.addWeight r.block.representative amount).representationGet a +
    L.gain p.repBlock p.balance a = _
  rw [hweight]
  ring

include hR in
theorem sendBlock_accepts {b : SendBlock} (hb : e.block = .sendBlock b)
    (hsig : env.validateMessage e.account e.hash b.signature = false) :
    Accepts H s ha (sendBlock env now s b) := by
  have hprev : b.hashables.previous = e.previous := (Entry.previous_of_block hb).symm
  have hhash := ha.hash_of_block hb
  have hlawful := ha.lawful
  simp only [Entry.Lawful, hb] at hlawful
  have hdest : e.destination = some b.hashables.destination := by
    rw [Entry.destination, hb]
  obtain ⟨p, i, hpos⟩ := exists_position H hR ha (by simp [hb, Block.type])
    (by simp [hb, Block.type])
  obtain ⟨r, hr, -⟩ := L.exists_repBlock_of_find hpos.find
  obtain ⟨db, hput, hdb, hsize⟩ :=
    blockPut_append (s := s.addWeight r.block.representative (0 - e.amount)) H hR.blocks ha
  have hget := blockGet_of_represents (L.append H e ha) hdb (find_append_self H ha)
  have hbal := hpos.balance
  have hamount : i.balance - e.balance = e.amount := by
    rw [hbal, Entry.amount_of_le (by rw [hlawful.1]; exact hlawful.2)]
  have hprep := hpos.repBlock_of_kept (by simp [hb, Block.namesRepresentative])
  have herep : i.repBlock = e.repBlock := hpos.describes.repBlock.trans hprep
  have hrep : s.blockGet e.repBlock = some r.block := by
    rw [← hprep]
    exact hR.blockGet_of_find hr
  have hvalid := hpos.valid
  rw [hb] at hvalid hput
  have hsum : p.balance + (0 - e.amount) = e.balance := by
    rw [← hamount, hpos.describes.balance]
    ring
  refine accepts_of_extendStore H now hR ha (by simp [hb, Block.type]) hdb hsize
    (weights_of_kept H ha hpos.find hr hprep hsum)
    (r := { ProcessReturn.ofCode .progress with
      account := some e.account
      amount := some e.amount
      pendingAccount := some b.hashables.destination }) ?_ rfl
  unfold sendBlock
  simp only [hhash, hprev, hpos.fresh, hpos.get, hvalid, hsig, frontierGet,
    hpos.frontiers, accountGet, hpos.accounts, Option.getD_some, Bool.false_eq_true,
    if_false, Bool.true_eq_false, if_neg ha.account_ne_zero, expect_some, ok_bind,
    hpos.describes.head, L.keyed hpos.find, require_of, ← hlawful.1, hamount, herep,
    hpos.blockCount]
  rw [if_neg (by rw [hbal, hlawful.1]; exact BitVec.not_lt.mpr hlawful.2)]
  refine bind_eq_of_ok (representationAdd_eq _ hrep) ?_
  refine bind_eq_of_ok hput ?_
  refine bind_eq_of_ok (changeLatest_append H now false hR ha rfl rfl hget) ?_
  refine bind_eq_of_ok (frontierDel_eq hpos.frontiers) ?_
  rw [extendStore, appendStore, Entry.settle, hdest]
  rfl

include hR in
theorem receiveBlock_accepts {b : ReceiveBlock} (hb : e.block = .receiveBlock b)
    (hsig : env.validateMessage e.account e.hash b.signature = false) :
    Accepts H s ha (receiveBlock env now s b) := by
  have hprev : b.hashables.previous = e.previous := (Entry.previous_of_block hb).symm
  have hhash := ha.hash_of_block hb
  have hdest : e.destination = none := by
    rw [Entry.destination, hb]
  have hsrc : e.source env = some b.hashables.source := by
    rw [Entry.source, if_neg ha.ne_genesis.symm, hb]
  obtain ⟨p, i, hpos⟩ := exists_position H hR ha (by simp [hb, Block.type])
    (by simp [hb, Block.type])
  obtain ⟨r, hr, -⟩ := L.exists_repBlock_of_find hpos.find
  obtain ⟨q, hq, hpend, hexists, j, hj⟩ := hR.exists_pending H ha hsrc
  have hopening : e.previous = 0 → e.previousBalance = 0 := fun h => absurd h hpos.ne_zero
  have hnat := Entry.previousBalance_add_amount ha.lawful hopening hsrc
  have hsum : e.previousBalance + e.amount = e.balance :=
    (Entry.balance_eq_add ha.lawful hopening hsrc).symm
  have hprep := hpos.repBlock_of_kept (by simp [hb, Block.namesRepresentative])
  have herep : i.repBlock = e.repBlock := hpos.describes.repBlock.trans hprep
  obtain ⟨db, hput, hdb, hsize⟩ := blockPut_append
    (s := { s with pending := s.pending.del ⟨e.account, b.hashables.source⟩ })
    H hR.blocks ha
  have hget := blockGet_of_represents (L.append H e ha) hdb (find_append_self H ha)
  have hr' : (L.append H e ha).find e.repBlock = some r := by
    rw [← hprep]
    exact append_sub H ha hr
  have hvalid := hpos.valid
  rw [hb] at hvalid hput
  refine accepts_of_extendStore H now hR ha (by simp [hb, Block.type]) hdb hsize
    (weights_of_kept H ha hpos.find hr hprep (by rw [← hpos.extend.previousBalance]; exact hsum))
    (r := { ProcessReturn.ofCode .progress with
      account := some e.account
      amount := some e.amount }) ?_ rfl
  unfold receiveBlock
  simp only [hhash, hprev, hpos.fresh, hpos.get, hvalid, hsig, frontierGet, hexists,
    hpos.frontiers, accountGet, hpos.accounts, Option.getD_some, Bool.false_eq_true,
    if_false, Bool.true_eq_false, if_neg ha.account_ne_zero, hpos.describes.head,
    L.keyed hpos.find, ne_eq, not_true_eq_false, pendingGet, hpend, hpos.balance, herep,
    hpos.blockCount]
  refine bind_eq_of_ok (env.add_of_lt (by rw [hnat]; exact e.balance.isLt)) ?_
  rw [hj, hsum]
  refine bind_eq_of_ok (expect_some j) ?_
  refine bind_eq_of_ok (pendingDel_eq hpend) ?_
  refine bind_eq_of_ok hput ?_
  refine bind_eq_of_ok (changeLatest_append H now false hR ha rfl rfl hget) ?_
  refine bind_eq_of_ok (representationAdd_eq _
    (blockGet_of_represents (L.append H e ha) hdb hr')) ?_
  refine bind_eq_of_ok (frontierDel_eq hpos.frontiers) ?_
  rw [extendStore, appendStore, Entry.settle, hdest, hsrc]
  rfl

include hR in
theorem changeBlock_accepts (G : ∀ b ∈ U, b.hash env ≠ env.genesisAccount) {b : ChangeBlock}
    (hb : e.block = .changeBlock b)
    (hsig : env.validateMessage e.account e.hash b.signature = false) :
    Accepts H s ha (changeBlock env now s b) := by
  have hprev : b.hashables.previous = e.previous := (Entry.previous_of_block hb).symm
  have hhash := ha.hash_of_block hb
  have hlawful := ha.lawful
  simp only [Entry.Lawful, hb] at hlawful
  obtain ⟨p, i, hpos⟩ := exists_position H hR ha (by simp [hb, Block.type])
    (by simp [hb, Block.type])
  obtain ⟨r, hr, -⟩ := L.exists_repBlock_of_find hpos.find
  have hpbal : p.balance = e.balance := by
    rw [hlawful, hpos.extend.previousBalance]
  have herep : e.repBlock = e.hash := by
    rw [hpos.extend.repBlock, if_pos (by simp [hb, Block.namesRepresentative])]
  have hsettle : e.settle env s.pending = s.pending := by
    rw [Entry.settle, Entry.source, if_neg ha.ne_genesis.symm, Entry.destination, hb]
  obtain ⟨db, hput, hdb, hsize⟩ := blockPut_append H hR.blocks ha
  have hget := blockGet_of_represents (L.append H e ha) hdb (find_append_self H ha)
  have hreads : Reads (s.withBlocks db) L :=
    Reads.of_represents G (append_sub H ha) hdb (by
      rw [size_append, ← hR.count]
      exact hsize) hR.infos
  have hvalid := hpos.valid
  rw [hb] at hvalid hput
  refine accepts_of_extendStore H now hR ha (by simp [hb, Block.type]) hdb hsize
    (w := ((s.addWeight e.block.representative e.balance).addWeight
      r.block.representative (0 - e.balance)).representation)
    (r := { ProcessReturn.ofCode .progress with
      account := some e.account
      amount := some 0 }) (fun a => ?_) ?_ rfl
  · have hweight := representationGet_addWeight_of_find (L.append H e ha) s
      (find_append_self H ha) e.balance a
    have hweight' := representationGet_addWeight_of_find L
      (s.addWeight e.block.representative e.balance) hr (0 - e.balance) a
    rw [L.gain_zero_sub, hweight] at hweight'
    rw [hpos.find, herep]
    show ((s.addWeight e.block.representative e.balance).addWeight r.block.representative
      (0 - e.balance)).representationGet a + L.gain p.repBlock p.balance a = _
    rw [hweight', hpbal]
    ring
  · unfold changeBlock
    simp only [hhash, hprev, hpos.fresh, hpos.get, hvalid, hsig, frontierGet,
      hpos.frontiers, accountGet, hpos.accounts, Option.getD_some, Bool.false_eq_true,
      if_false, Bool.true_eq_false, if_neg ha.account_ne_zero, expect_some, ok_bind,
      hpos.describes.head, L.keyed hpos.find, require_of, hpos.describes.repBlock,
      hpos.describes.balance, hpos.blockCount, hpbal]
    refine bind_eq_of_ok hput ?_
    refine bind_eq_of_ok (balance_eq H hreads hpos.find) ?_
    rw [hpbal]
    refine bind_eq_of_ok (representationAdd_eq _ hget) ?_
    refine bind_eq_of_ok (representationAdd_eq _
      (blockGet_of_represents (L.append H e ha) hdb (append_sub H ha hr))) ?_
    have hlatest := changeLatest_append H now false hR ha
      (u := ((s.withBlocks db).addWeight e.block.representative e.balance).addWeight
        r.block.representative (0 - e.balance)) rfl rfl hget
    rw [herep] at hlatest
    refine bind_eq_of_ok hlatest ?_
    refine bind_eq_of_ok (frontierDel_eq hpos.frontiers) ?_
    rw [extendStore, appendStore, hsettle]
    rfl

include hR in
theorem openBlock_accepts {b : OpenBlock} (hb : e.block = .openBlock b)
    (hsig : env.validateMessage e.account e.hash b.signature = false) :
    Accepts H s ha (openBlock env now s b) := by
  have hprev : e.previous = 0 := Entry.previous_of_block hb
  have hhash := ha.hash_of_block hb
  have hlegacy : e.block.isLegacy = true := by simp [hb, Block.type]
  have hlawful := ha.lawful
  simp only [Entry.Lawful, hb] at hlawful
  obtain ⟨hopens, hhead⟩ := ha.opening hprev
  have hdest : e.destination = none := by
    rw [Entry.destination, hb]
  have hsrc : e.source env = some b.hashables.source := by
    rw [Entry.source, if_neg ha.ne_genesis.symm, hb]
  obtain ⟨q, hq, hpend, hexists, j, hj⟩ := hR.exists_pending H ha hsrc
  have hbal : e.amount = e.balance :=
    Entry.amount_of_previousBalance_zero hopens.previousBalance
  obtain ⟨db, hput, hdb, hsize⟩ := blockPut_append
    (s := { s with pending := s.pending.del ⟨e.account, b.hashables.source⟩ })
    H hR.blocks ha
  have hget := blockGet_of_represents (L.append H e ha) hdb (find_append_self H ha)
  rw [hb] at hput
  have hrun : openBlock env now s b =
      .ok ({ ProcessReturn.ofCode .progress with
              account := some e.account
              amount := some e.balance },
        appendStore env now s e (((L.find e.previous).map Entry.hash).getD 0) false db
          (s.frontiers.put e.hash e.account)
          (s.addWeight e.block.representative e.balance).representation) := by
    unfold openBlock
    have hacc : s.accounts.get e.account = none := (hR.account_none_iff _).mpr hhead
    have hfresh : s.blockExists e.hash = false := by
      rw [hR.blockExists_iff, ha.fresh]
      rfl
    have hburn : ¬ e.account = burnAccount := ha.account_ne_zero
    simp only [hhash, ← hlawful, hfresh, hexists, hsig, accountGet, hacc,
      pendingGet, hpend, if_neg hburn, Bool.false_eq_true, if_false,
      Bool.true_eq_false, hbal]
    rw [hj]
    refine bind_eq_of_ok (expect_some j) ?_
    refine bind_eq_of_ok (pendingDel_eq hpend) ?_
    refine bind_eq_of_ok hput ?_
    have hlatest := changeLatest_append H now false hR ha
      (u := ({ s with pending := s.pending.del ⟨e.account, b.hashables.source⟩ } :
        BlockStore).withBlocks db) rfl rfl hget
    rw [hopens.repBlock, hopens.height] at hlatest
    refine bind_eq_of_ok hlatest ?_
    refine bind_eq_of_ok (representationAdd_eq _ hget) ?_
    rw [appendStore, Entry.settle, hdest, hsrc, hopens.height]
    rfl
  refine ⟨_, _, hrun, rfl, installs_appendStore H now hR ha
    (by rw [hlegacy]; rfl) hdb hsize ?_ ?_⟩
  · intro h
    rw [Table.get_put, if_pos hlegacy, hprev]
    grind [hR.frontiers, frontier_of_find_none _ (L.find_zero H)]
  · intro a
    rw [hprev, L.find_zero H, hopens.repBlock]
    show (s.addWeight e.block.representative e.balance).representationGet a + 0 = _
    rw [representationGet_addWeight_of_find (L.append H e ha) s
      (find_append_self H ha), add_zero]

end Legacy

section State

variable {b : StateBlock} {u : BlockStore}

theorem statePending_eq (hR : Refines δ s L) (ha : L.Appendable e) (hb : e.block = .stateBlock b)
    {s₁ : BlockStore} (hs₁ : s₁.pending = s.pending) :
    (if decide (e.balance < e.previousBalance) = true then
        pure (s₁.pendingPut ⟨b.hashables.link, e.hash⟩ ⟨e.account, e.amount⟩)
      else if b.hashables.link ≠ 0 then s₁.pendingDel ⟨e.account, b.hashables.link⟩
      else pure s₁ : Except Fault BlockStore) =
      .ok { s₁ with pending := e.settle env s.pending } := by
  have hlawful := ha.lawful
  simp only [Entry.Lawful, hb] at hlawful
  rw [← hs₁]
  by_cases hlt : e.balance < e.previousBalance
  · have hsettle : e.settle env s₁.pending =
        s₁.pending.put ⟨b.hashables.link, e.hash⟩ ⟨e.account, e.amount⟩ := by
      rw [Entry.settle, Entry.destination, hb]
      simp only
      rw [← hlawful.2.1, if_pos hlt]
    rw [if_pos (by simpa using hlt), hsettle]
    rfl
  · have hdest : e.destination = none := by
      rw [Entry.destination, hb]
      simp only
      rw [← hlawful.2.1, if_neg hlt]
    rw [if_neg (by simpa using hlt)]
    by_cases hlink : b.hashables.link = 0
    · have hsrc : e.source env = none := by
        rw [Entry.source_state hb ha.ne_genesis.symm, ← hlawful.2.1, if_neg hlt, if_pos hlink]
      rw [if_neg (not_not_intro hlink), Entry.settle, hdest, hsrc]
      rfl
    · have hsrc : e.source env = some b.hashables.link := by
        rw [Entry.source_state hb ha.ne_genesis.symm, ← hlawful.2.1, if_neg hlt, if_neg hlink]
      obtain ⟨q, hq, hdest', -, hrec⟩ := ha.sent hsrc
      have hget : s₁.pending.get ⟨e.account, b.hashables.link⟩ =
          some ⟨q.account, q.amount⟩ := by
        rw [hs₁, hR.pending, pendingInfo_of_find _ hq, if_pos ⟨hdest', hrec⟩]
      rw [if_pos hlink, pendingDel_eq hget, Entry.settle, hdest, hsrc]

omit H in
theorem stateLink_of_pending {pending : PendingInfo}
    (hne : b.hashables.link ≠ 0) (hexists : s.blockExists b.hashables.link = true)
    (hpending : s.pendingGet ⟨b.hashables.account, b.hashables.link⟩ = some pending) :
    stateLink s b pending.amount = .progress := by
  rw [stateLink, if_pos hne, if_neg (by simp [hexists]), hpending]
  exact if_pos rfl

theorem stateLink_eq (hR : Refines δ s L) (ha : L.Appendable e) (hb : e.block = .stateBlock b)
    (hge : ¬ e.balance < e.previousBalance) :
    stateLink s b e.amount = .progress := by
  have hlawful := ha.lawful
  simp only [Entry.Lawful, hb] at hlawful
  by_cases hlink : b.hashables.link = 0
  · have hbal := hlawful.2.2 hlink (BitVec.not_lt.mp hge)
    rw [stateLink, if_neg (not_not_intro hlink),
      if_pos (Entry.amount_of_balance_eq hbal)]
  · have hsrc : e.source env = some b.hashables.link := by
      rw [Entry.source_state hb ha.ne_genesis.symm, ← hlawful.2.1, if_neg hge, if_neg hlink]
    obtain ⟨q, hq, hdest, hamount, hrec⟩ := ha.sent hsrc
    have hexists : s.blockExists b.hashables.link = true := by
      rw [hR.blockExists_iff, hq]
      rfl
    have hget : s.pending.get ⟨b.hashables.account, b.hashables.link⟩ =
        some ⟨q.account, e.amount⟩ := by
      rw [← hlawful.1, hR.pending, pendingInfo_of_find _ hq, if_pos ⟨hdest, hrec⟩, hamount]
    exact stateLink_of_pending hlink hexists hget

omit H in
theorem statePosition_of_head {info : AccountInfo}
    (hne : b.hashables.previous ≠ 0) (hexists : s.blockExists b.hashables.previous = true)
    (hhead : b.hashables.previous = info.head) :
    statePosition s b (some info) =
      (.progress, if b.hashables.balance < info.balance then info.balance - b.hashables.balance
        else b.hashables.balance - info.balance,
        decide (b.hashables.balance < info.balance)) := by
  simp only [statePosition]
  rw [if_neg hne, if_neg (by simp [hexists]), if_pos hhead]
  simp

omit H in
theorem statePosition_unopened (hprev : b.hashables.previous = 0) (hlink : b.hashables.link ≠ 0) :
    statePosition s b none = (.progress, b.hashables.balance, false) := by
  rw [statePosition, if_neg (not_not.mpr hprev), if_neg hlink]

include H in
theorem statePosition_eq (hR : Refines δ s L) (ha : L.Appendable e) (hb : e.block = .stateBlock b) :
    statePosition s b (s.accounts.get e.account) =
      (.progress, e.amount, decide (e.balance < e.previousBalance)) := by
  have hprev : b.hashables.previous = e.previous := (Entry.previous_of_block hb).symm
  have hlawful := ha.lawful
  simp only [Entry.Lawful, hb] at hlawful
  rcases account_cases H hR ha with ⟨p, i, hne, hp, hext, hi, hdesc⟩ | ⟨hz, hopens, hi⟩
  · have hexists : s.blockExists e.previous = true := by
      rw [hR.blockExists_iff, hp]
      rfl
    rw [hi]
    simp only [statePosition, hprev, if_neg hne, hexists, Bool.true_eq_false,
      if_false, hdesc.head, L.keyed hp, hdesc.balance, ← hext.previousBalance, ← hlawful.2.1,
      if_true, decide_eq_true_eq]
    rfl
  · have hlink : b.hashables.link ≠ 0 := by
      intro hlink
      have hsome := hopens.source.resolve_left ha.ne_genesis.symm
      rw [Entry.source_state hb ha.ne_genesis.symm, if_pos hlink] at hsome
      simp at hsome
    rw [hi]
    simp only [statePosition, hprev, hz, ne_eq, not_true_eq_false, if_false,
      if_neg hlink]
    rw [hopens.previousBalance, ← hlawful.2.1,
      Entry.amount_of_previousBalance_zero hopens.previousBalance]
    simp [BitVec.lt_def]

include H in
theorem stateWeight_eq (hR : Refines δ s L) (ha : L.Appendable e)
    (hu : u.representation = s.representation)
    (hget : ∀ {h x}, L.find h = some x → u.blockGet h = some x.block) :
    ∃ weights : Table Account Uint128,
      (if ((s.accounts.get e.account).getD .zero).repBlock ≠ 0 then
          u.representationAdd ((s.accounts.get e.account).getD .zero).repBlock
            (0 - ((s.accounts.get e.account).getD .zero).balance)
        else pure u) = .ok { u with representation := weights } ∧
      ∀ a, (weights.get a).getD 0 + L.contribution (L.find e.previous) a =
        s.representationGet a := by
  have hrep : ∀ a, u.representationGet a = s.representationGet a := by
    intro a
    rw [representationGet, hu]
    rfl
  rcases account_cases H hR ha with ⟨p, i, hne, hp, hext, hi, hdesc⟩ | ⟨hz, hopens, hi⟩
  · obtain ⟨r, hr, -⟩ := L.exists_repBlock_of_find hp
    rw [hi, Option.getD_some, hdesc.repBlock, hdesc.balance, if_pos (L.hash_ne_zero H hr),
      representationAdd_eq _ (hget hr)]
    refine ⟨_, rfl, ?_⟩
    intro a
    have hweight := representationGet_addWeight_of_find L u hr (0 - p.balance) a
    rw [L.gain_zero_sub, hrep] at hweight
    rw [hp]
    show (u.addWeight r.block.representative (0 - p.balance)).representationGet a +
      L.gain p.repBlock p.balance a = _
    rw [hweight]
    ring
  · rw [hi]
    refine ⟨u.representation, if_neg (not_not_intro rfl), ?_⟩
    intro a
    rw [hz, L.find_zero H]
    show u.representationGet a + 0 = _
    rw [hrep, add_zero]

include H in
theorem stateFrontier_eq (hR : Refines δ s L) (ha : L.Appendable e)
    (hu : u.frontiers = s.frontiers) :
    ∃ frontiers : Table BlockHash Account,
      (if u.frontierGet ((s.accounts.get e.account).getD .zero).head ≠ 0 then
          u.frontierDel ((s.accounts.get e.account).getD .zero).head
        else pure u) = .ok { u with frontiers := frontiers } ∧
      ∀ h, frontiers.get h =
        if h = e.hash then none else if h = e.previous then none else s.frontiers.get h := by
  have hfresh : s.frontiers.get e.hash = none := by
    rw [hR.frontiers, frontier_of_find_none _ ha.fresh]
  have hkeep : s.frontiers.get e.previous = none → ∀ h, s.frontiers.get h =
      if h = e.hash then none else if h = e.previous then none else s.frontiers.get h := by
    intro hnone h
    split_ifs <;> simp_all
  have hskip : s.frontiers.get e.previous = none →
      (if u.frontierGet e.previous ≠ 0 then u.frontierDel e.previous else pure u) =
        .ok { u with frontiers := s.frontiers } := by
    intro hnone
    rw [if_neg, ← hu]
    · rfl
    · simp [frontierGet, hu, hnone]
  rcases account_cases H hR ha with ⟨p, i, hne, hp, hext, hi, hdesc⟩ | ⟨hz, hopens, hi⟩
  · rw [hi, Option.getD_some, hdesc.head, L.keyed hp]
    by_cases hlegacy : p.block.isLegacy = true
    · have hfront := hR.frontier_of_previous ha hp hne hlegacy
      rw [← hu] at hfront
      refine ⟨u.frontiers.del e.previous, ?_, ?_⟩
      · rw [if_pos, frontierDel_eq hfront]
        rw [frontierGet, hfront]
        exact ha.account_ne_zero
      · intro h
        rw [Table.get_del, hu]
        split_ifs <;> simp_all
    · have hnone : s.frontiers.get e.previous = none := by
        rw [hR.frontiers, frontier_of_find _ hp, if_neg (fun h => hlegacy h.1)]
      exact ⟨s.frontiers, hskip hnone, hkeep hnone⟩
  · have hnone : s.frontiers.get e.previous = none := by
      rw [hz, hR.frontiers, frontier_of_find_none _ (L.find_zero H)]
    have hskip' := hskip hnone
    rw [hz] at hskip'
    rw [hi]
    exact ⟨s.frontiers, hskip', hkeep hnone⟩

theorem stateApply_installs (now : Nat) (hR : Refines δ s L) (ha : L.Appendable e)
    (hb : e.block = .stateBlock b) :
    ∃ s', stateApply env now s b ((s.accounts.get e.account).getD .zero)
        e.amount (decide (e.balance < e.previousBalance)) = .ok s' ∧
      Refines.Installs H s s' ha := by
  have hhash := ha.hash_of_block hb
  have hstate : e.block.isLegacy = false := by simp [hb, Block.type]
  have hlawful := ha.lawful
  simp only [Entry.Lawful, hb] at hlawful
  have herep : e.repBlock = e.hash := by
    rcases account_cases H hR ha with ⟨p, i, -, -, hext, -⟩ | ⟨-, hopens, -⟩
    · rw [hext.repBlock, if_pos (by simp [hb, Block.namesRepresentative])]
    · exact hopens.repBlock
  have hcount : ((s.accounts.get e.account).getD .zero).blockCount + 1 = e.height := by
    rcases account_cases H hR ha with ⟨p, i, -, -, hext, hi, hdesc⟩ | ⟨-, hopens, hi⟩
    · rw [hi, Option.getD_some, hdesc.blockCount, hext.height]
    · rw [hi, hopens.height]
      rfl
  obtain ⟨db, hput, hdb, hsize⟩ := blockPut_append H hR.blocks ha
  have hget := blockGet_of_represents (L.append H e ha) hdb (find_append_self H ha)
  rw [hb] at hput
  obtain ⟨weights, hweights, hsub⟩ := stateWeight_eq H hR ha (u := s.withBlocks db) rfl
    (fun hx => blockGet_of_represents (L.append H e ha) hdb (append_sub H ha hx))
  have hlatest := changeLatest_append H now true hR ha
    (u := { ({ s.withBlocks db with representation := weights } : BlockStore).addWeight
        e.block.representative e.balance with pending := e.settle env s.pending })
    rfl rfl hget
  rw [herep] at hlatest
  obtain ⟨frontiers, hfront, hfront'⟩ := stateFrontier_eq H hR ha
    (u := appendStore env now s e (((L.find e.previous).map Entry.hash).getD 0) true db
      s.frontiers (({ s.withBlocks db with representation := weights } : BlockStore).addWeight
        e.block.representative e.balance).representation) rfl
  have hrun : stateApply env now s b
        ((s.accounts.get e.account).getD .zero) e.amount
        (decide (e.balance < e.previousBalance)) =
      .ok (appendStore env now s e (((L.find e.previous).map Entry.hash).getD 0) true db
        frontiers (({ s.withBlocks db with representation := weights } : BlockStore).addWeight
          e.block.representative e.balance).representation) := by
    unfold stateApply
    simp only [hhash, ← hlawful.1, ← hlawful.2.1, hcount]
    refine bind_eq_of_ok hput ?_
    refine bind_eq_of_ok hweights ?_
    refine bind_eq_of_ok (representationAdd_eq _ hget) ?_
    refine bind_eq_of_ok (statePending_eq hR ha hb rfl) ?_
    exact bind_eq_of_ok hlatest hfront
  refine ⟨_, hrun, installs_appendStore H now hR ha (by rw [hstate]; rfl) hdb hsize ?_ ?_⟩
  · intro h
    rw [hfront', hstate]
    simp
  · intro a
    have hweight := representationGet_addWeight_of_find (L.append H e ha)
      ({ s.withBlocks db with representation := weights } : BlockStore)
      (find_append_self H ha) e.balance a
    rw [herep, ← hsub a]
    show (({ s.withBlocks db with representation := weights } : BlockStore).addWeight
      e.block.representative e.balance).representationGet a + _ = _
    rw [hweight]
    show (weights.get a).getD 0 + _ + _ = _
    ring

theorem stateBlock_accepts (now : Nat) (hR : Refines δ s L) (ha : L.Appendable e)
    (hb : e.block = .stateBlock b)
    (hsig : env.validateMessage e.account e.hash b.signature = false) :
    Accepts H s ha (stateBlock env now s b) := by
  have hhash := ha.hash_of_block hb
  have hlawful := ha.lawful
  simp only [Entry.Lawful, hb] at hlawful
  have hfresh : s.blockExists e.hash = false := by
    rw [hR.blockExists_iff, ha.fresh]
    rfl
  obtain ⟨s', happly, hinstalls⟩ := stateApply_installs H now hR ha hb
  refine ⟨{ ProcessReturn.ofAmount .progress e.amount with
      account := some e.account
      stateIsSend := some (decide (e.balance < e.previousBalance)) }, s', ?_, rfl,
    hinstalls⟩
  have hcode : (if decide (e.balance < e.previousBalance) = false then
      stateLink s b e.amount else .progress) = .progress := by
    split_ifs with hcond
    · exact stateLink_eq hR ha hb (by simpa using hcond)
    · rfl
  unfold stateBlock
  simp only [hhash, ← hlawful.1, hfresh, hsig, Bool.false_eq_true, if_false,
    if_neg ha.account_ne_zero, accountGet, statePosition_eq H hR ha hb, true_and, hcode,
    if_true]
  exact bind_eq_of_ok happly rfl

end State

theorem process_installs (G : ∀ b ∈ U, b.hash env ≠ env.genesisAccount) (now : Nat)
    (hR : Refines δ s L) (ha : L.Appendable e)
    (hsig : env.validateMessage e.account e.hash e.block.blockSignature = false) :
    Accepts H s ha (Ledger.process env now s e.block) := by
  cases hb : e.block with
  | sendBlock b =>
    rw [hb] at hsig
    exact sendBlock_accepts H now hR ha hb hsig
  | receiveBlock b =>
    rw [hb] at hsig
    exact receiveBlock_accepts H now hR ha hb hsig
  | openBlock b =>
    rw [hb] at hsig
    exact openBlock_accepts H now hR ha hb hsig
  | changeBlock b =>
    rw [hb] at hsig
    exact changeBlock_accepts H now hR ha G hb hsig
  | stateBlock b =>
    rw [hb] at hsig
    exact stateBlock_accepts H now hR ha hb hsig

theorem process_accepts (M : MarkerFree env U) (now : Nat) (hR : Refines δ s L)
    (ha : L.Appendable e)
    (hsig : env.validateMessage e.account e.hash e.block.blockSignature = false) :
    ∃ r s', Ledger.process env now s e.block = .ok (r, s') ∧ r.code = .progress ∧
      Refines δ s' (L.append H e ha) := by
  obtain ⟨r, s', hrun, hcode, hi⟩ := process_installs H M.ne_genesisAccount now hR ha hsig
  exact ⟨r, s', hrun, hcode, hR.install H hi⟩

end Accepts

end Badem
