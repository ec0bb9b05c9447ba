import Badem.Core.Rollback
import Badem.Refinement.ProcessAccepts

/-!
# Undoing one block

Each handler takes away the head of an account once nothing depends on it any more, and changes
the tables as `Uninstalls` says.  That a send becomes pending again is a hypothesis here.
-/

namespace Badem

open Mdb BlockLattice BlockStore RollbackVisitor

variable {env : Env} {U : Set Block}
variable {δ δ' : Account → Uint128} {s : BlockStore} {L : BlockLattice env U} {e : Entry}

section Unlink

variable (H : CollisionFree env U) {p : Entry}

theorem blockDel_remove (hrep : BlockTables.Represents s.blockDatabase L.raw) (hr : L.Removable e) :
    ∃ db : BlockTables, s.blockDel e.hash = .ok (s.withBlocks db) ∧
      BlockTables.Represents (s.withBlocks db).blockDatabase
        (fun k => if k = e.hash then none else L.raw k) ∧
      BlockTables.size db + 1 = s.blockCount := by
  obtain ⟨db, hdel, hdb, hsize⟩ := blockDel_spec hrep (raw_of_find _ hr.stored)
  refine ⟨db, hdel, ?_, hsize⟩
  rw [blockDatabase_withBlocks]
  exact hdb

include H in
theorem successorClear_previous {R : BlockHash → Option StoredBlock}
    (hrep : BlockTables.Represents s.blockDatabase R) (hr : L.Removable e)
    (hR : ∀ k, k ≠ e.hash → R k = L.raw k) (hp : L.find e.previous = some p) :
    ∃ db : BlockTables, s.blockSuccessorClear env e.previous = .ok (s.withBlocks db) ∧
      BlockTables.Represents (s.withBlocks db).blockDatabase
        (fun k => if k = e.previous then some ⟨p.block, 0⟩ else R k) ∧
      BlockTables.size db = s.blockCount := by
  have hne := hr.previous_ne_hash
  have hself : p.block.previous ≠ e.previous := by
    intro hself
    obtain ⟨g, hg, htime, -⟩ := L.exists_previous hp
      (show p.previous ≠ 0 by rw [Entry.previous, hself]; exact L.hash_ne_zero H hp)
    rw [Entry.previous, hself, hp] at hg
    cases hg
    omega
  have hprev : p.block.previous ≠ 0 →
      ∃ v, R p.block.previous = some v ∧ v.successor = e.previous := by
    intro hz
    obtain ⟨g, hg, htime, -⟩ := L.exists_previous hp hz
    obtain ⟨p', hp', htime', -⟩ := L.exists_previous hr.stored (L.hash_ne_zero H hp)
    cases hp.symm.trans hp'
    have hge : p.block.previous ≠ e.hash := by
      intro heq
      rw [Entry.previous, heq, hr.stored] at hg
      cases hg
      omega
    have hchild : L.child p.block.previous = some p :=
      (L.child_eq_some_iff hz p).mpr ⟨L.find_hash hp, rfl⟩
    refine ⟨_, (hR _ hge).trans (raw_of_find _ hg), ?_⟩
    rw [← L.keyed hp]
    exact successor_of_child _ hchild
  obtain ⟨db, hclear, hdb, hsize⟩ := blockSuccessorClear_spec hrep env
    ((hR _ hne).trans (raw_of_find _ hp)) (L.hashed hp)
    (fun hz => (L.opening hp hz).type) hself hprev
  refine ⟨db, hclear, ?_, hsize⟩
  rw [blockDatabase_withBlocks]
  exact hdb

include H in
theorem raw_unlink (hr : L.Removable e) (hp : L.find e.previous = some p) :
    (L.remove e hr).raw =
      fun k => if k = e.hash then none
        else if k = e.previous then some ⟨p.block, 0⟩ else L.raw k := by
  funext k
  rw [raw_remove H]
  by_cases hk : k = e.hash
  · rw [if_pos hk, if_pos hk]
  · rw [if_neg hk, if_neg hk]
    by_cases hk' : k = e.previous
    · rw [if_pos hk', if_pos hk', hk', raw_of_find _ hp]
      rfl
    · rw [if_neg hk', if_neg hk']

include H in
theorem raw_unlink_swap (hr : L.Removable e) (hp : L.find e.previous = some p) :
    (L.remove e hr).raw =
      fun k => if k = e.previous then some ⟨p.block, 0⟩
        else if k = e.hash then none else L.raw k := by
  rw [raw_unlink H hr hp]
  funext k
  by_cases hk : k = e.hash
  · rw [if_pos hk, if_neg (by rw [hk]; exact hr.previous_ne_hash.symm), if_pos hk]
  · rw [if_neg hk, if_neg hk]

include H in
theorem raw_unlink_opening (hr : L.Removable e) (hz : e.previous = 0) :
    (L.remove e hr).raw = fun k => if k = e.hash then none else L.raw k := by
  funext k
  rw [raw_remove H, hz]
  by_cases hk : k = e.hash
  · rw [if_pos hk, if_pos hk]
  · rw [if_neg hk, if_neg hk]
    by_cases hk' : k = 0
    · rw [if_pos hk', hk', raw_of_find_none _ (L.find_zero H)]
      rfl
    · rw [if_neg hk']

end Unlink

section Store

/-- The situation of a block that extends a chain and is to be removed. -/
structure Removing (s : BlockStore) (L : BlockLattice env U) (e p : Entry)
    (i : AccountInfo) : Prop where
  ne_zero : e.previous ≠ 0
  find : L.find e.previous = some p
  extend : e.Extends p
  accounts : s.accounts.get e.account = some i
  describes : i.Describes e

theorem exists_removing (hR : Refines δ s L) (hr : L.Removable e) (hne : e.previous ≠ 0) :
    ∃ p i, Removing s L e p i := by
  obtain ⟨p, hp, -, hext⟩ := L.exists_previous hr.stored hne
  obtain ⟨i, hi, hdesc⟩ := hR.account_of_head hr.head_eq
  exact ⟨p, i, hne, hp, hext, hi, hdesc⟩

variable {p : Entry} {i : AccountInfo} {s' : BlockStore}

theorem Removing.blockCount (hrm : Removing s L e p i) : i.blockCount - 1 = p.height := by
  rw [hrm.describes.blockCount, hrm.extend.height]
  rfl

theorem changeLatest_remove (now : Nat) (hR : Refines δ s L) (hrm : Removing s L e p i)
    {s₁ : BlockStore} (hacc : s₁.accounts = s.accounts) (hsum : s₁.checksum = s.checksum) :
    Ledger.changeLatest now s₁ e.account e.previous p.repBlock p.balance p.height false =
      .ok { s₁ with
        accounts := s.accounts.put e.account { p.info with modified := now }
        blocksInfo := Ledger.latestInfos s₁ e.account e.previous p.balance p.height false
        checksum := s.checksum.put 0
          (s.accounts.fold (· ^^^ ·) 0 (fun _ i => i.head) ^^^ e.hash ^^^ e.previous) } := by
  have hc : s₁.checksum.get 0 = some (s.accounts.fold (· ^^^ ·) 0 (fun _ i => i.head)) := by
    rw [hsum]
    exact hR.get_checksum
  have hi := hrm.accounts
  rw [← hacc] at hi
  rw [Ledger.changeLatest_of_some now _ _ _ _ hi hc hrm.ne_zero, hrm.describes.head,
    hrm.describes.openBlock, hrm.extend.openBlock, hacc, hsum, Entry.info, L.keyed hrm.find]

theorem uninstalls_extend
    (now : Nat) (hR : Refines δ s L) (hr : L.Removable e)
    (hrm : Removing s L e p i) {sender : Account}
    (hblocks : BlockTables.Represents s'.blockDatabase (L.remove e hr).raw)
    (hcount : s'.blockCount + 1 = s.blockCount)
    (haccounts : s'.accounts = s.accounts.put e.account { p.info with modified := now })
    (hfrontiers : ∀ h, s'.frontiers.get h =
      if h = e.hash then none
      else if h = e.previous then (if p.block.isLegacy = true then some e.account else none)
      else s.frontiers.get h)
    (hsender : ∀ x q, e.source env = some x → L.find x = some q → sender = q.account)
    (hpending : s'.pending = e.unsettle env sender s.pending)
    (hweights : ∀ r, s'.representationGet r + L.gain e.repBlock e.balance r + δ r =
      s.representationGet r + L.gain p.repBlock p.balance r + δ' r)
    (hchecksum : s'.checksum = s.checksum.put 0
      (s.accounts.fold (· ^^^ ·) 0 (fun _ i => i.head) ^^^ e.hash ^^^ e.previous))
    (hinfos : ∀ h, s'.blocksInfo.get h =
      if h = e.hash ∧ e.block.isLegacy = true then none
      else if h = e.previous ∧ p.height % blockInfoMax = 0 then
        some ⟨e.account, p.balance⟩
      else s.blocksInfo.get h) :
    Refines.Uninstalls δ δ' s s' hr where
  blocks := hblocks
  count := hcount
  account := by
    rw [haccounts, Table.get_put_self, hrm.find]
    rfl
  accounts := by
    rw [haccounts, Table.del_put_self]
  frontiers := by
    intro h
    rw [hfrontiers]
    grind [legacyOwner_of_find _ hrm.find, hrm.extend.account]
  pending := ⟨sender, hsender, hpending⟩
  weights := by
    intro r
    rw [hrm.find]
    exact hweights r
  checksum := by
    intro c hc
    cases hR.get_checksum.symm.trans hc
    rw [hrm.find, Option.map_some, Option.getD_some, L.keyed hrm.find, hchecksum]
  infos := by
    intro h
    rw [hinfos, hrm.extend.height, hrm.extend.previousBalance]
    by_cases hk : h = e.hash ∧ e.block.isLegacy = true
    · rw [if_pos hk, if_pos hk]
    · rw [if_neg hk, if_neg hk]
      by_cases hp : h = e.previous ∧ p.height % blockInfoMax = 0
      · rw [if_pos hp, if_pos ⟨hp.1, hrm.ne_zero, hp.2⟩]
      · rw [if_neg hp, if_neg (fun h' => hp ⟨h'.1, h'.2.2⟩)]

theorem uninstalls_opening
    (H : CollisionFree env U) (hR : Refines δ s L) (hr : L.Removable e) (hz : e.previous = 0)
    (sender : Account)
    (hblocks : BlockTables.Represents s'.blockDatabase
      (fun k => if k = e.hash then none else L.raw k))
    (hcount : s'.blockCount + 1 = s.blockCount)
    (haccounts : s'.accounts = s.accounts.del e.account)
    (hfrontiers : ∀ h, s'.frontiers.get h = if h = e.hash then none else s.frontiers.get h)
    (hsender : ∀ x q, e.source env = some x → L.find x = some q → sender = q.account)
    (hpending : s'.pending = e.unsettle env sender s.pending)
    (hweights : ∀ r, s'.representationGet r + L.gain e.repBlock e.balance r + δ r =
      s.representationGet r + δ' r)
    (hchecksum : s'.checksum = s.checksum.put 0
      (s.accounts.fold (· ^^^ ·) 0 (fun _ i => i.head) ^^^ e.hash))
    (hinfos : s'.blocksInfo = s.blocksInfo) :
    Refines.Uninstalls δ δ' s s' hr where
  blocks := by
    rw [raw_unlink_opening H hr hz]
    exact hblocks
  count := hcount
  account := by
    rw [haccounts, Table.get_del_self, hz, L.find_zero H]
    rfl
  accounts := by
    rw [haccounts, Table.del_of_get_none (Table.get_del_self _ _)]
  frontiers := by
    intro h
    rw [hfrontiers, hz]
    by_cases hk : h = 0
    · rw [if_pos hk, hk, legacyOwner_of_find_none _ (L.find_zero H), hR.frontiers,
        frontier_of_find_none _ (L.find_zero H)]
    · rw [if_neg hk]
  pending := ⟨sender, hsender, hpending⟩
  weights := by
    intro r
    rw [hz, L.find_zero H]
    show _ = _ + 0 + _
    rw [add_zero]
    exact hweights r
  checksum := by
    intro c hc
    cases hR.get_checksum.symm.trans hc
    rw [hz, L.find_zero H, hchecksum]
    simp
  infos := by
    intro h
    rw [hinfos]
    by_cases hk : h = e.hash ∧ e.block.isLegacy = true
    · have hget := hR.infos _ (L.known hr.stored) hk.2
      rw [L.hashed hr.stored, checkpoint, hr.stored] at hget
      simp only [(L.opening hr.stored hz).height] at hget
      rw [if_pos hk, hk.1, hget]
      rfl
    · rw [if_neg hk, if_neg (fun hcond => hcond.2.1 hz)]

end Store

section Legacy

variable (H : CollisionFree env U) (M : MarkerFree env U) {p : Entry} {i : AccountInfo}

theorem infoDel_eq (hR : Refines δ s L) (hr : L.Removable e) (hrm : Removing s L e p i)
    (hlegacy : e.block.isLegacy = true) {u : BlockStore}
    (hu : u.blocksInfo = Ledger.latestInfos s e.account e.previous p.balance p.height false) :
    ∃ infos : Table BlockHash BlockInfo,
      infoDel u i e.hash = .ok { u with blocksInfo := infos } ∧
      ∀ h, infos.get h =
        if h = e.hash ∧ e.block.isLegacy = true then none
        else if h = e.previous ∧ p.height % blockInfoMax = 0 then
          some ⟨e.account, p.balance⟩
        else s.blocksInfo.get h := by
  have hself : s.blocksInfo.get e.hash = L.checkpoint e.hash := by
    have hget := hR.infos _ (L.known hr.stored) hlegacy
    rwa [L.hashed hr.stored] at hget
  rw [checkpoint, hr.stored] at hself
  simp only at hself
  have hlatest : ∀ h, u.blocksInfo.get h =
      if h = e.previous ∧ p.height % blockInfoMax = 0 then
        some ⟨e.account, p.balance⟩
      else s.blocksInfo.get h := by
    intro h
    rw [hu, Ledger.get_latestInfos]
    simp
  have hhash := hlatest e.hash
  rw [if_neg (fun h => hr.previous_ne_hash h.1.symm)] at hhash
  unfold infoDel
  rw [hrm.describes.blockCount]
  by_cases hheight : e.height % blockInfoMax = 0
  · rw [if_pos hheight] at hself
    rw [if_pos hheight, blockInfoDel_eq (hhash.trans hself)]
    refine ⟨_, rfl, ?_⟩
    intro h
    rw [Table.get_del, ← hlatest]
    grind
  · rw [if_neg hheight] at hself
    rw [if_neg hheight]
    refine ⟨_, rfl, ?_⟩
    intro h
    rw [← hlatest]
    split_ifs <;> simp_all

include H in
theorem legacyTail_uninstalls
    (now : Nat) (hR : Refines δ s L) (hr : L.Removable e)
    (hrm : Removing s L e p i) (hlegacy : e.block.isLegacy = true)
    {s₁ : BlockStore} (sender : Account)
    (hblocks : BlockTables.Represents s₁.blockDatabase
      (fun k => if k = e.hash then none else L.raw k))
    (hcount : s₁.blockCount + 1 = s.blockCount)
    (haccounts : s₁.accounts = s.accounts.put e.account { p.info with modified := now })
    (hfrontiers : s₁.frontiers = s.frontiers)
    (hsender : ∀ x q, e.source env = some x → L.find x = some q → sender = q.account)
    (hpending : s₁.pending = e.unsettle env sender s.pending)
    (hweights : ∀ r, s₁.representationGet r + L.gain e.repBlock e.balance r =
      s.representationGet r + L.gain p.repBlock p.balance r)
    (hchecksum : s₁.checksum = s.checksum.put 0
      (s.accounts.fold (· ^^^ ·) 0 (fun _ i => i.head) ^^^ e.hash ^^^ e.previous))
    (hinfos : s₁.blocksInfo =
      Ledger.latestInfos s e.account e.previous p.balance p.height false) :
    ∃ s', (do
        let s ← s₁.frontierDel e.hash
        let s := s.frontierPut e.previous e.account
        let s ← s.blockSuccessorClear env e.previous
        infoDel s i e.hash) = .ok s' ∧
      Refines.Uninstalls δ δ s s' hr := by
  have hfront : s₁.frontiers.get e.hash = some e.account := by
    rw [hfrontiers, hR.frontiers, frontier_of_find _ hr.stored, if_pos ⟨hlegacy, hr.child⟩]
  refine exists_ok_bind (frontierDel_eq hfront) ?_
  obtain ⟨db, hclear, hdb, hsize⟩ := successorClear_previous H
    (s := ({ s₁ with frontiers := s₁.frontiers.del e.hash } : BlockStore).frontierPut e.previous
      e.account) hblocks hr (fun k hk => if_neg hk) hrm.find
  refine exists_ok_bind hclear ?_
  obtain ⟨infos, hdel, hget⟩ := infoDel_eq hR hr hrm hlegacy
    (u := (({ s₁ with frontiers := s₁.frontiers.del e.hash } : BlockStore).frontierPut
      e.previous e.account).withBlocks db) hinfos
  refine ⟨_, hdel, uninstalls_extend now hR hr hrm ?_ ?_ haccounts ?_ hsender hpending ?_
    hchecksum hget⟩
  · rw [raw_unlink_swap H hr hrm.find]
    exact hdb
  · rw [← hcount]
    exact congrArg (· + 1) hsize
  · intro h
    show ((s₁.frontiers.del e.hash).put e.previous e.account).get h = _
    rw [Table.get_put, Table.get_del, hfrontiers, if_pos (hrm.extend.legacy hlegacy)]
    by_cases hk : h = e.previous
    · rw [if_pos hk, if_pos hk, if_neg (by rw [hk]; exact hr.previous_ne_hash)]
    · rw [if_neg hk, if_neg hk]
  · intro r
    rw [← hweights r]
    rfl

section Handlers

variable (now : Nat) (hR : Refines δ s L) (hr : L.Removable e)
include H M hR

theorem changeBlock_undo {b : ChangeBlock} (hb : e.block = .changeBlock b) :
    ∃ s', changeBlock env now s b = .ok s' ∧
      Refines.Uninstalls δ δ s s' hr := by
  have hprev : b.hashables.previous = e.previous := (Entry.previous_of_block hb).symm
  have hhash : (Block.changeBlock b).hash env = e.hash := by
    rw [← hb]
    exact L.hashed hr.stored
  have hlegacy : e.block.isLegacy = true := by simp [hb, Block.type]
  have hlawful := L.lawful hr.stored
  simp only [Entry.Lawful, hb] at hlawful
  obtain ⟨p, i, hrm⟩ := exists_removing hR hr (previous_ne_zero hr.stored
    (by simp [hb, Block.type]) (by simp [hb, Block.type]))
  obtain ⟨r, hrep, -⟩ := L.exists_repBlock_of_find hrm.find
  have hbal : e.balance = p.balance := by
    rw [hlawful, hrm.extend.previousBalance]
  have herep : e.repBlock = e.hash := by
    rw [hrm.extend.repBlock, if_pos (by simp [hb, Block.namesRepresentative])]
  have hself : s.blockGet e.hash = some e.block := hR.blockGet_of_find hr.stored
  have hunsettle : e.unsettle env 0 s.pending = s.pending := by
    rw [Entry.unsettle, Entry.source, if_neg hr.ne_genesis, Entry.destination, hb]
  obtain ⟨db, hdel, hdb, hsize⟩ := blockDel_remove
    (s := (s.addWeight r.block.representative p.balance).addWeight e.block.representative
      (0 - p.balance)) hR.blocks hr
  unfold changeBlock
  simp only [hhash, hprev]
  refine exists_ok_bind (representative_eq H (hR.reads M) hrm.find) ?_
  refine exists_ok_bind (account_eq H M hR hrm.find) ?_
  rw [← hrm.extend.account, accountGet, hrm.accounts]
  refine exists_ok_bind (expect_some i) ?_
  refine exists_ok_bind (balance_eq H (hR.reads M) hrm.find) ?_
  refine exists_ok_bind (representationAdd_eq _ (hR.blockGet_of_find hrep)) ?_
  refine exists_ok_bind (representationAdd_eq _ hself) ?_
  refine exists_ok_bind hdel ?_
  rw [hrm.describes.balance, hbal, hrm.blockCount]
  refine exists_ok_bind (changeLatest_remove now hR hrm rfl rfl) ?_
  refine legacyTail_uninstalls H now hR hr hrm hlegacy 0 hdb hsize rfl rfl ?_ hunsettle.symm ?_
    rfl rfl
  · intro x q hs
    simp [Entry.source, hb] at hs
  · intro a
    have hweight := representationGet_addWeight_of_find L s hrep p.balance a
    have hweight' := representationGet_addWeight_of_find L
      (s.addWeight r.block.representative p.balance) hr.stored (0 - p.balance) a
    rw [L.gain_zero_sub, hweight] at hweight'
    rw [herep, hbal]
    show ((s.addWeight r.block.representative p.balance).addWeight e.block.representative
      (0 - p.balance)).representationGet a + _ = _
    rw [hweight']
    ring

theorem receiveBlock_undo {b : ReceiveBlock} (hb : e.block = .receiveBlock b) :
    ∃ s', receiveBlock env now s b = .ok s' ∧
      Refines.Uninstalls δ δ s s' hr := by
  have hprev : b.hashables.previous = e.previous := (Entry.previous_of_block hb).symm
  have hhash : (Block.receiveBlock b).hash env = e.hash := by
    rw [← hb]
    exact L.hashed hr.stored
  have hlegacy : e.block.isLegacy = true := by simp [hb, Block.type]
  have hdest : e.destination = none := by
    rw [Entry.destination, hb]
  have hsrc : e.source env = some b.hashables.source := by
    rw [Entry.source, if_neg hr.ne_genesis, hb]
  obtain ⟨p, i, hrm⟩ := exists_removing hR hr (previous_ne_zero hr.stored
    (by simp [hb, Block.type]) (by simp [hb, Block.type]))
  obtain ⟨q, hq, -, -, hamount⟩ := L.exists_source hr.stored hsrc
  obtain ⟨r, hrep, -⟩ := L.exists_repBlock_of_find hrm.find
  have hsum : e.balance = p.balance + e.amount := by
    rw [← hrm.extend.previousBalance]
    exact Entry.balance_eq_add (L.lawful hr.stored) (fun h => absurd h hrm.ne_zero) hsrc
  have herep : e.repBlock = p.repBlock := by
    rw [hrm.extend.repBlock, if_neg (by simp [hb, Block.namesRepresentative])]
  have hreads : Reads (s.addWeight r.block.representative (0 - e.amount)) L :=
    Reads.of_represents M.ne_genesisAccount (Sub.refl L) hR.blocks hR.count hR.infos
  obtain ⟨db, hdel, hdb, hsize⟩ := blockDel_remove
    (s := { s.addWeight r.block.representative (0 - e.amount) with
      accounts := s.accounts.put e.account { p.info with modified := now }
      blocksInfo := Ledger.latestInfos s e.account e.previous p.balance p.height false
      checksum := s.checksum.put 0
        (s.accounts.fold (· ^^^ ·) 0 (fun _ i => i.head) ^^^ e.hash ^^^ e.previous) })
    hR.blocks hr
  unfold receiveBlock
  simp only [hhash, hprev]
  refine exists_ok_bind (representative_eq H (hR.reads M) hrm.find) ?_
  refine exists_ok_bind (amount_eq H (hR.reads M) hq) ?_
  refine exists_ok_bind (account_eq H M hR hr.stored) ?_
  refine exists_ok_bind (account_eq H M hR hq) ?_
  rw [accountGet, hrm.accounts]
  refine exists_ok_bind (expect_some i) ?_
  refine exists_ok_bind (representative_eq H (hR.reads M) hr.stored) ?_
  rw [herep, hamount]
  refine exists_ok_bind (representationAdd_eq _ (hR.blockGet_of_find hrep)) ?_
  refine exists_ok_bind (balance_eq H hreads hrm.find) ?_
  rw [hrm.blockCount]
  refine exists_ok_bind (changeLatest_remove now hR hrm rfl rfl) ?_
  refine exists_ok_bind hdel ?_
  refine legacyTail_uninstalls H now hR hr hrm hlegacy q.account hdb hsize rfl rfl
    ?_ ?_ ?_ rfl rfl
  · intro x q' hs hq'
    cases hsrc.symm.trans hs
    rw [Option.some.inj (hq.symm.trans hq')]
  · rw [Entry.unsettle, hdest, hsrc]
    rfl
  · intro a
    have hweight := representationGet_addWeight_of_find L s hrep (0 - e.amount) a
    rw [L.gain_zero_sub] at hweight
    rw [herep, hsum, L.gain_add]
    show (s.addWeight r.block.representative (0 - e.amount)).representationGet a + _ = _
    rw [hweight]
    ring

theorem openBlock_undo {b : OpenBlock} (hb : e.block = .openBlock b) :
    ∃ s', openBlock env now s b = .ok s' ∧
      Refines.Uninstalls δ δ s s' hr := by
  have hz : e.previous = 0 := Entry.previous_of_block hb
  have hhash : (Block.openBlock b).hash env = e.hash := by
    rw [← hb]
    exact L.hashed hr.stored
  have hlegacy : e.block.isLegacy = true := by simp [hb, Block.type]
  have hopens := L.opening hr.stored hz
  have hdest : e.destination = none := by
    rw [Entry.destination, hb]
  have hsrc : e.source env = some b.hashables.source := by
    rw [Entry.source, if_neg hr.ne_genesis, hb]
  obtain ⟨q, hq, -, -, hamount⟩ := L.exists_source hr.stored hsrc
  obtain ⟨i, hi, hdesc⟩ := hR.account_of_head hr.head_eq
  have hbal : q.amount = e.balance := by
    rw [hamount, Entry.amount_of_previousBalance_zero hopens.previousBalance]
  have hself : s.blockGet e.hash = some e.block := hR.blockGet_of_find hr.stored
  have hfront : s.frontiers.get e.hash = some e.account := by
    rw [hR.frontiers, frontier_of_find _ hr.stored, if_pos ⟨hlegacy, hr.child⟩]
  obtain ⟨db, hdel, hdb, hsize⟩ := blockDel_remove
    (s := { s.addWeight e.block.representative (0 - e.balance) with
      accounts := s.accounts.del e.account
      checksum := s.checksum.put 0
        (s.accounts.fold (· ^^^ ·) 0 (fun _ i => i.head) ^^^ i.head) })
    hR.blocks hr
  unfold openBlock
  simp only [hhash]
  refine exists_ok_bind (amount_eq H (hR.reads M) hq) ?_
  refine exists_ok_bind (account_eq H M hR hr.stored) ?_
  refine exists_ok_bind (account_eq H M hR hq) ?_
  refine exists_ok_bind (representative_eq H (hR.reads M) hr.stored) ?_
  rw [hopens.repBlock, hbal]
  refine exists_ok_bind (representationAdd_eq _ hself) ?_
  refine exists_ok_bind (Ledger.changeLatest_delete now _ _ _ _ hi hR.get_checksum) ?_
  refine exists_ok_bind hdel ?_
  refine ⟨_, frontierDel_eq hfront,
    uninstalls_opening H hR hr hz q.account hdb hsize rfl ?_ ?_ ?_ ?_ ?_ rfl⟩
  · intro h
    exact Table.get_del _ _ _
  · intro x q' hs hq'
    cases hsrc.symm.trans hs
    rw [Option.some.inj (hq.symm.trans hq')]
  · rw [Entry.unsettle, hdest, hsrc, ← hamount, hbal]
    rfl
  · intro a
    have hweight := representationGet_addWeight_of_find L s hr.stored
      (0 - e.balance) a
    rw [L.gain_zero_sub] at hweight
    rw [hopens.repBlock]
    show (s.addWeight e.block.representative (0 - e.balance)).representationGet a + _ + _ = _
    rw [hweight]
    ring
  · rw [← hdesc.head]
    rfl

end Handlers

end Legacy

def Unblocks (rollback : BlockStore → BlockHash → Except Fault BlockStore) (fuel : Nat)
    (L : BlockLattice env U) (e : Entry) (d : Account) (infos : Table BlockHash BlockInfo)
    (Q : Table BlockHash BlockInfo → BlockLattice env U → Prop) : Prop :=
  ∀ (δ : Account → Uint128) (s : BlockStore) (ready : BlockStore → Bool),
    Refines δ s L → s.blocksInfo = infos →
    (∀ s, ready s = (s.pendingGet ⟨d, e.hash⟩).isSome) →
    ∃ s₁ L₁, rollbackUntil rollback ready d fuel s = .ok s₁ ∧ Refines δ s₁ L₁ ∧
      L₁.Sub L ∧ L₁.Removable e ∧ Q s₁.blocksInfo L₁

def Undone (δ : Account → Uint128) (L : BlockLattice env U) (e : Entry)
    (Q : Table BlockHash BlockInfo → BlockLattice env U → Prop) (s' : BlockStore) : Prop :=
  ∃ δ₁ s₁ L₁, ∃ hr : L₁.Removable e,
    Refines δ₁ s₁ L₁ ∧ Refines.Uninstalls δ₁ δ s₁ s' hr ∧ L₁.Sub L ∧ Q s₁.blocksInfo L₁

section Sends

variable (H : CollisionFree env U) (M : MarkerFree env U) (now : Nat)
variable {rollback : BlockStore → BlockHash → Except Fault BlockStore} {fuel : Nat}
variable {Q : Table BlockHash BlockInfo → BlockLattice env U → Prop}

include H M in
theorem sendBlock_undo (hR : Refines δ s L) {b : SendBlock} (hb : e.block = .sendBlock b)
    (hhash : (Block.sendBlock b).hash env = e.hash)
    (hwait : Unblocks rollback fuel L e b.hashables.destination s.blocksInfo Q) :
    ∃ s', sendBlock env now rollback fuel s b = .ok s' ∧ Undone δ L e Q s' := by
  obtain ⟨s₁, L₁, hrun, hR₁, hsub, hr, hQ⟩ := hwait δ s
    (fun s => (s.pendingGet ⟨b.hashables.destination, e.hash⟩).isSome) hR rfl (fun _ => rfl)
  suffices h : ∃ s', sendBlock env now rollback fuel s b = .ok s' ∧
      Refines.Uninstalls δ δ s₁ s' hr by
    obtain ⟨s', hs', hu⟩ := h
    exact ⟨s', hs', δ, s₁, L₁, hr, hR₁, hu, hsub, hQ⟩
  have hprev : b.hashables.previous = e.previous := (Entry.previous_of_block hb).symm
  have hlegacy : e.block.isLegacy = true := by simp [hb, Block.type]
  have hdest : e.destination = some b.hashables.destination := by
    rw [Entry.destination, hb]
  have hsrc : e.source env = none := Entry.source_eq_none_of_destination hdest
  obtain ⟨p, i, hrm⟩ := exists_removing hR₁ hr (previous_ne_zero hr.stored
    (by simp [hb, Block.type]) (by simp [hb, Block.type]))
  obtain ⟨r, hrep, -⟩ := L₁.exists_repBlock_of_find hrm.find
  have hpend : s₁.pending.get ⟨b.hashables.destination, e.hash⟩ =
      some ⟨e.account, e.amount⟩ := by
    rw [hR₁.pending, pendingInfo_of_find _ hr.stored, if_pos ⟨hdest, hr.receiver⟩]
  have hsum : p.balance = e.balance + e.amount := by
    rw [← hrm.extend.previousBalance]
    apply BitVec.eq_of_toNat_eq
    rw [BitVec.toNat_add, Entry.balance_add_amount (L₁.lawful hr.stored) hdest,
      Nat.mod_eq_of_lt e.previousBalance.isLt]
  have herep : e.repBlock = p.repBlock := by
    rw [hrm.extend.repBlock, if_neg (by simp [hb, Block.namesRepresentative])]
  have hreads : Reads
      ({ s₁ with pending := s₁.pending.del ⟨b.hashables.destination, e.hash⟩ } : BlockStore)
      L₁ :=
    Reads.of_represents M.ne_genesisAccount (Sub.refl L₁) hR₁.blocks hR₁.count hR₁.infos
  have hreads' : Reads
      (({ s₁ with pending := s₁.pending.del ⟨b.hashables.destination, e.hash⟩ } :
        BlockStore).addWeight r.block.representative e.amount) L₁ :=
    Reads.of_represents M.ne_genesisAccount (Sub.refl L₁) hR₁.blocks hR₁.count hR₁.infos
  obtain ⟨db, hdel, hdb, hsize⟩ := blockDel_remove
    (s := { ({ s₁ with pending := s₁.pending.del ⟨b.hashables.destination, e.hash⟩ } :
        BlockStore).addWeight r.block.representative e.amount with
      accounts := s₁.accounts.put e.account { p.info with modified := now }
      blocksInfo := Ledger.latestInfos s₁ e.account e.previous p.balance p.height false
      checksum := s₁.checksum.put 0
        (s₁.accounts.fold (· ^^^ ·) 0 (fun _ i => i.head) ^^^ e.hash ^^^ e.previous) })
    hR₁.blocks hr
  unfold sendBlock
  simp only [hhash, hprev]
  refine exists_ok_bind hrun ?_
  rw [pendingGet, hpend]
  refine exists_ok_bind (expect_some _) ?_
  rw [accountGet, hrm.accounts]
  refine exists_ok_bind (expect_some i) ?_
  refine exists_ok_bind (pendingDel_eq hpend) ?_
  refine exists_ok_bind (representative_eq H hreads hr.stored) ?_
  rw [herep]
  refine exists_ok_bind (representationAdd_eq _ (hR₁.blockGet_of_find hrep)) ?_
  refine exists_ok_bind (balance_eq H hreads' hrm.find) ?_
  rw [hrm.describes.repBlock, herep, hrm.blockCount]
  refine exists_ok_bind (changeLatest_remove now hR₁ hrm rfl rfl) ?_
  refine exists_ok_bind hdel ?_
  refine legacyTail_uninstalls H now hR₁ hr hrm hlegacy 0 hdb hsize rfl rfl
    ?_ ?_ ?_ rfl rfl
  · intro x q hs
    simp [hsrc] at hs
  · rw [Entry.unsettle, hdest]
    rfl
  · intro a
    have hweight := representationGet_addWeight_of_find L₁ s₁ hrep e.amount a
    rw [herep, hsum, L₁.gain_add]
    show (s₁.addWeight r.block.representative e.amount).representationGet a + _ = _
    rw [hweight]
    ring

end Sends

end Badem
