import Badem.Refinement.RollbackUndo

/-!
# Undoing a state block

The handler for state blocks moves the voting weight before it waits for a send to become
pending again.  `visit_undo` collects the handlers of all block types.
-/

namespace Badem

open Mdb BlockLattice BlockStore RollbackVisitor

variable {env : Env} {U : Set Block}
variable {δ δ' : Account → Uint128} {s : BlockStore} {L : BlockLattice env U} {e : Entry}

section State

variable (H : CollisionFree env U) (M : MarkerFree env U) (now : Nat) {b : StateBlock}
  {u : BlockStore}

theorem Refines.withWeights (hR : Refines δ s L) {weights : Table Account Uint128}
    (hw : ∀ r, (weights.get r).getD 0 + δ r = s.representationGet r + δ' r) :
    Refines δ' { s with representation := weights } L where
  blocks := hR.blocks
  count := hR.count
  accounts := hR.accounts
  frontiers := hR.frontiers
  pending := hR.pending
  weights := by
    intro r
    show (weights.get r).getD 0 = _
    have hold := hR.weights r
    have hnew := hw r
    linear_combination hnew + hold
  checksum := hR.checksum
  infos := hR.infos
  sentinel := hR.sentinel
  supply := hR.supply

theorem stateRestore_eq (H : CollisionFree env U) (hR : Refines δ s L) (hr : L.Removable e)
    (hprev : b.hashables.previous = e.previous) (hacc : b.hashables.account = e.account) {p : Entry}
    (hp : L.find e.previous = some p) (hblocks : BlockTables.Represents u.blockDatabase L.raw)
    (hfrontiers : u.frontiers = s.frontiers) (hstate : e.block.isLegacy = false) :
    ∃ (db : BlockTables) (frontiers : Table BlockHash Account),
      stateRestore env u b =
        .ok { u.withBlocks db with frontiers := frontiers } ∧
      BlockTables.Represents (u.withBlocks db).blockDatabase
        (fun k => if k = e.previous then some ⟨p.block, 0⟩ else L.raw k) ∧
      BlockTables.size db = u.blockCount ∧
      ∀ h, frontiers.get h =
        if h = e.hash then none
        else if h = e.previous then (if p.block.isLegacy = true then some e.account else none)
        else s.frontiers.get h := by
  obtain ⟨db, hclear, hdb, hsize⟩ := successorClear_previous H hblocks hr (fun _ _ => rfl) hp
  have hself : s.frontiers.get e.hash = none := by
    rw [hR.frontiers, frontier_of_find _ hr.stored, hstate]
    simp
  unfold stateRestore
  rw [hprev, blockGet_of_represents _ hblocks hp, hclear]
  by_cases hlegacy : p.block.isLegacy = true
  · have hcode : p.block.type.code < BlockType.state.code := of_decide_eq_true hlegacy
    refine ⟨db, u.frontiers.put e.previous e.account, ?_, hdb, hsize, ?_⟩
    · simp only [ok_bind]
      rw [if_pos hcode, hacc]
      rfl
    · intro h
      rw [Table.get_put, hfrontiers, if_pos hlegacy]
      by_cases hk : h = e.previous
      · rw [if_pos hk, if_neg (by rw [hk]; exact hr.previous_ne_hash)]
      · simp_all
  · have hcode : ¬ p.block.type.code < BlockType.state.code :=
      fun h => hlegacy (decide_eq_true h)
    refine ⟨db, u.frontiers, ?_, hdb, hsize, ?_⟩
    · simp only [ok_bind]
      rw [if_neg hcode]
      rfl
    · intro h
      rw [hfrontiers, if_neg hlegacy]
      by_cases hk' : h = e.hash
      · rw [if_pos hk', hk', hself]
      · rw [if_neg hk']
        by_cases hk : h = e.previous
        · rw [if_pos hk, hk, hR.frontiers, frontier_of_find _ hp,
            if_neg (fun h' => hlegacy h'.1)]
        · rw [if_neg hk]

theorem stateRestore_of_missing (h : u.blockGet b.hashables.previous = none) :
    stateRestore env u b = .ok u := by
  unfold stateRestore
  rw [h]

include H in
theorem stateTail_uninstalls (hR : Refines δ s L) (hr : L.Removable e)
    (hb : e.block = .stateBlock b)
    (hδ : ∀ r, L.gain e.repBlock e.balance r + δ r = L.contribution (L.find e.previous) r + δ' r)
    {sender : Account}
    (hsender : ∀ x q, e.source env = some x → L.find x = some q → sender = q.account)
    {s₁ : BlockStore} (hs₁ : s₁ = { s with pending := e.unsettle env sender s.pending }) :
    ∃ s', (do
        let info ← expect (s₁.accountGet b.hashables.account)
        let s ← Ledger.changeLatest now s₁ b.hashables.account b.hashables.previous
          (((L.find e.previous).map Entry.repBlock).getD 0) e.previousBalance
          (info.blockCount - 1) false
        let s ← stateRestore env s b
        s.blockDel e.hash) = .ok s' ∧
      Refines.Uninstalls δ δ' s s' hr := by
  have hprev : b.hashables.previous = e.previous := (Entry.previous_of_block hb).symm
  have hstate : e.block.isLegacy = false := by simp [hb, Block.type]
  have hlawful := L.lawful hr.stored
  simp only [Entry.Lawful, hb] at hlawful
  subst hs₁
  by_cases hz : e.previous = 0
  · obtain ⟨i, hi, hdesc⟩ := hR.account_of_head hr.head_eq
    obtain ⟨db, hdel, hdb, hsize⟩ := blockDel_remove
      (s := { s with
        pending := e.unsettle env sender s.pending
        accounts := s.accounts.del e.account
        checksum := s.checksum.put 0
          (s.accounts.fold (· ^^^ ·) 0 (fun _ i => i.head) ^^^ i.head) }) hR.blocks hr
    have hnone : s.blockGet b.hashables.previous = none := by
      rw [hprev, hz]
      exact hR.blockGet_of_find_none (L.find_zero H)
    rw [hprev, hz, ← hlawful.1, accountGet]
    show ∃ s', (expect (s.accounts.get e.account) >>= _) = .ok s' ∧ _
    rw [hi]
    refine exists_ok_bind (expect_some i) ?_
    refine exists_ok_bind (Ledger.changeLatest_delete now _ _ _ _ hi hR.get_checksum) ?_
    refine exists_ok_bind (stateRestore_of_missing hnone) ?_
    refine ⟨_, hdel,
      uninstalls_opening H hR hr hz sender hdb hsize rfl ?_ hsender rfl ?_ ?_ rfl⟩
    · intro h
      show s.frontiers.get h = _
      by_cases hk : h = e.hash <;> simp [hk, hR.frontiers, frontier_of_find _ hr.stored, hstate]
    · intro r
      have hw := hδ r
      rw [hz, L.find_zero H] at hw
      show s.representationGet r + _ + _ = _
      rw [add_assoc, hw]
      show _ + (0 + _) = _
      rw [zero_add]
    · rw [← hdesc.head]
      rfl
  · obtain ⟨p, i, hrm⟩ := exists_removing hR hr hz
    obtain ⟨db, frontiers, hrestore, hdb, hsize, hfront⟩ := stateRestore_eq H hR hr hprev
      hlawful.1.symm hrm.find
      (u := { s with
        pending := e.unsettle env sender s.pending
        accounts := s.accounts.put e.account { p.info with modified := now }
        blocksInfo := Ledger.latestInfos s e.account e.previous p.balance p.height false
        checksum := s.checksum.put 0
          (s.accounts.fold (· ^^^ ·) 0 (fun _ i => i.head) ^^^ e.hash ^^^ e.previous) })
      hR.blocks rfl hstate
    obtain ⟨db', hdel, hdb', hsize'⟩ := blockDel_spec (h := e.hash)
      (s := { s.withBlocks db with
        pending := e.unsettle env sender s.pending
        accounts := s.accounts.put e.account { p.info with modified := now }
        blocksInfo := Ledger.latestInfos s e.account e.previous p.balance p.height false
        checksum := s.checksum.put 0
          (s.accounts.fold (· ^^^ ·) 0 (fun _ i => i.head) ^^^ e.hash ^^^ e.previous)
        frontiers := frontiers }) hdb
      (by rw [if_neg hr.previous_ne_hash.symm]; exact raw_of_find _ hr.stored)
    rw [hprev, ← hlawful.1, accountGet, hrm.find, hrm.extend.previousBalance]
    show ∃ s', (expect (s.accounts.get e.account) >>= _) = .ok s' ∧ _
    rw [hrm.accounts]
    refine exists_ok_bind (expect_some i) ?_
    rw [hrm.blockCount]
    refine exists_ok_bind (changeLatest_remove now hR hrm rfl rfl) ?_
    refine exists_ok_bind hrestore ?_
    refine ⟨_, hdel,
      uninstalls_extend now hR hr hrm ?_ ?_ rfl hfront hsender rfl ?_ rfl ?_⟩
    · simpa [raw_unlink H hr hrm.find, blockDatabase_withBlocks] using hdb'
    · exact hsize'.trans hsize
    · intro r
      have hw := hδ r
      rw [hrm.find] at hw
      show s.representationGet r + _ + _ = _
      rw [add_assoc, hw, add_assoc]
      rfl
    · intro h
      show (Ledger.latestInfos s e.account e.previous p.balance p.height false).get h = _
      rw [Ledger.get_latestInfos, hstate]
      simp

section Parts

variable {b : StateBlock}

include H M in
theorem statePreviousRep_eq (hR : Refines δ s L) (he : L.find e.hash = some e)
    (hprev : b.hashables.previous = e.previous) :
    (if b.hashables.previous ≠ 0 then Ledger.representative env s b.hashables.previous
      else pure 0) =
      .ok (((L.find e.previous).map Entry.repBlock).getD 0) := by
  rw [hprev]
  by_cases hz : e.previous = 0
  · rw [if_neg (not_not_intro hz), hz, L.find_zero H]
    rfl
  · obtain ⟨p, hp, -, -⟩ := L.exists_previous he hz
    rw [if_pos hz, representative_eq H (hR.reads M) hp, hp]
    rfl

include H in
theorem stateWeights_eq
    (hR : Refines δ s L) (he : L.find e.hash = some e) (hb : e.block = .stateBlock b) :
    ∃ weights : Table Account Uint128,
      (do
        let s ← s.representationAdd e.hash (0 - b.hashables.balance)
        (if ((L.find e.previous).map Entry.repBlock).getD 0 ≠ 0 then
          s.representationAdd (((L.find e.previous).map Entry.repBlock).getD 0)
            e.previousBalance
        else pure s)) = .ok { s with representation := weights } ∧
      ∀ r, (weights.get r).getD 0 + L.gain e.repBlock e.balance r =
        s.representationGet r + L.contribution (L.find e.previous) r := by
  have hlawful := L.lawful he
  simp only [Entry.Lawful, hb] at hlawful
  have hweight := representationGet_addWeight_of_find L s he (0 - e.balance)
  simp only [L.gain_zero_sub] at hweight
  rw [representationAdd_eq _ (hR.blockGet_of_find he), ok_bind, ← hlawful.2.1]
  by_cases hz : e.previous = 0
  · have hrep : e.repBlock = e.hash := (L.opening he hz).repBlock
    rw [hz, L.find_zero H, hrep]
    refine ⟨_, rfl, ?_⟩
    intro r
    show (s.addWeight _ _).representationGet r + _ = _ + 0
    rw [hweight]
    ring
  · obtain ⟨p, hp, -, hext⟩ := L.exists_previous he hz
    obtain ⟨r, hr, -⟩ := L.exists_repBlock_of_find hp
    have hrep : e.repBlock = e.hash := by
      rw [hext.repBlock, if_pos (by simp [hb, Block.namesRepresentative])]
    have hget : (s.addWeight e.block.representative (0 - e.balance)).blockGet p.repBlock =
        some r.block := hR.blockGet_of_find hr
    rw [hp, Option.map_some, Option.getD_some, if_pos (L.hash_ne_zero H hr),
      representationAdd_eq _ hget, hrep, hext.previousBalance]
    refine ⟨_, rfl, ?_⟩
    intro a
    show ((s.addWeight _ _).addWeight _ _).representationGet a + _ =
      _ + L.gain p.repBlock p.balance a
    rw [representationGet_addWeight_of_find L _ hr, hweight]
    ring

variable {rollback : BlockStore → BlockHash → Except Fault BlockStore} {fuel : Nat}
variable {Q : Table BlockHash BlockInfo → BlockLattice env U → Prop}

include H M in
theorem stateTransfer_eq (hR : Refines δ s L) (he : L.find e.hash = some e)
    (hb : e.block = .stateBlock b) (hhash : (Block.stateBlock b).hash env = e.hash)
    (hwait : ∀ d, e.destination = some d → Unblocks rollback fuel L e d s.blocksInfo Q)
    (hlast : e.destination = none → L.Removable e ∧ Q s.blocksInfo L) :
    ∃ s₁ L₁ sender, L₁.Removable e ∧ L₁.Sub L ∧ Q s₁.blocksInfo L₁ ∧ Refines δ s₁ L₁ ∧
      stateTransfer env rollback fuel s b e.previousBalance =
        .ok { s₁ with pending := e.unsettle env sender s₁.pending } ∧
      ∀ x q, e.source env = some x → L₁.find x = some q → sender = q.account := by
  unfold stateTransfer
  by_cases hlt : b.hashables.balance < e.previousBalance
  · have hdest : e.destination = some b.hashables.link := by
      simp only [Entry.destination, hb]
      rw [if_pos hlt]
    have hsrc : e.source env = none := Entry.source_eq_none_of_destination hdest
    obtain ⟨s₁, L₁, hrun, hR₁, hsub, hr, hQ⟩ := hwait _ hdest δ s
      (fun s => s.pendingExists ⟨b.hashables.link, e.hash⟩) hR rfl
      (fun s => s.pendingExists_eq _)
    have hpend : s₁.pending.get ⟨b.hashables.link, e.hash⟩ = some ⟨e.account, e.amount⟩ := by
      rw [hR₁.pending, pendingInfo_of_find _ hr.stored, if_pos ⟨hdest, hr.receiver⟩]
    refine ⟨s₁, L₁, 0, hr, hsub, hQ, hR₁, ?_, ?_⟩
    · rw [if_pos hlt, hhash]
      refine bind_eq_of_ok hrun ?_
      rw [pendingDel_eq hpend, Entry.unsettle, hdest]
    · intro x q hs
      simp [hsrc] at hs
  · have hdest : e.destination = none := by
      simp only [Entry.destination, hb]
      rw [if_neg hlt]
    obtain ⟨hr, hQ⟩ := hlast hdest
    have hsource : e.source env =
        if b.hashables.link = 0 then none else some b.hashables.link := by
      rw [Entry.source, if_neg hr.ne_genesis, hb]
      simp only
      rw [if_neg hlt]
    rw [if_neg hlt]
    by_cases hlink : b.hashables.link = 0
    · rw [if_pos hlink] at hsource
      refine ⟨s, L, 0, hr, Sub.refl L, hQ, hR, ?_, ?_⟩
      · rw [if_neg (not_not_intro hlink), Entry.unsettle, hdest, hsource]
      · intro x q hs
        simp [hsource] at hs
    · rw [if_neg hlink] at hsource
      obtain ⟨q, hq, -, -, -⟩ := L.exists_source he hsource
      have hlawful := L.lawful he
      simp only [Entry.Lawful, hb] at hlawful
      have hamount : e.amount = b.hashables.balance - e.previousBalance := by
        rw [Entry.amount, hlawful.2.1, if_neg hlt]
      refine ⟨s, L, q.account, hr, Sub.refl L, hQ, hR, ?_, ?_⟩
      · rw [if_pos hlink]
        refine bind_eq_of_ok (account_eq H M hR hq) ?_
        rw [Entry.unsettle, hdest, hsource, hamount, hlawful.1]
        rfl
      · intro x q' hs hq'
        rw [hsource] at hs
        cases hs
        cases hq.symm.trans hq'
        rfl

include H M in
theorem stateBlock_undo (hR : Refines δ s L) (he : L.find e.hash = some e)
    (hb : e.block = .stateBlock b) (hhash : (Block.stateBlock b).hash env = e.hash)
    (hwait : ∀ d, e.destination = some d → Unblocks rollback fuel L e d s.blocksInfo Q)
    (hlast : e.destination = none → L.Removable e ∧ Q s.blocksInfo L) :
    ∃ s', stateBlock env now rollback fuel s b = .ok s' ∧
      Undone δ L e Q s' := by
  have hprev : b.hashables.previous = e.previous := (Entry.previous_of_block hb).symm
  obtain ⟨weights, hweights, hget⟩ := stateWeights_eq H hR he hb
  have hmid : Refines
      (fun r => δ r + L.contribution (L.find e.previous) r - L.gain e.repBlock e.balance r)
      { s with representation := weights } L := by
    refine hR.withWeights ?_
    intro r
    have hr := hget r
    linear_combination hr
  obtain ⟨s₁, L₁, sender, hr, hsub, hQ, hR₁, hrun, hsender⟩ :=
    stateTransfer_eq H M hmid he hb hhash hwait hlast
  have hfind : L₁.find e.previous = L.find e.previous := find_previous_of_sub H hsub hr.stored
  obtain ⟨r, hrep, -⟩ := L₁.exists_repBlock_of_find hr.stored
  have hδ : ∀ a, L₁.gain e.repBlock e.balance a +
      (δ a + L.contribution (L.find e.previous) a - L.gain e.repBlock e.balance a) =
      L₁.contribution (L₁.find e.previous) a + δ a := by
    intro a
    rw [gain_of_sub hsub hrep, contribution_of_sub hsub, hfind]
    ring
  obtain ⟨s', htail, hu⟩ := stateTail_uninstalls H now hR₁ hr hb hδ hsender rfl
  refine ⟨s', ?_, _, s₁, L₁, hr, hR₁, hu, hsub, hQ⟩
  unfold stateBlock
  simp only [hhash]
  refine bind_eq_of_ok (statePreviousRep_eq H M hR he hprev) ?_
  refine bind_eq_of_ok (hprev ▸ balance_previous_eq H (hR.reads M) he) ?_
  rw [← bind_assoc]
  refine bind_eq_of_ok hweights ?_
  refine bind_eq_of_ok hrun ?_
  rw [← hfind]
  exact htail

end Parts

end State

section Visit

variable {rollback : BlockStore → BlockHash → Except Fault BlockStore} {fuel : Nat}
variable {Q : Table BlockHash BlockInfo → BlockLattice env U → Prop}

theorem removable_of_destination_none (he : L.find e.hash = some e) (hchild : L.child e.hash = none)
    (hgen : e.hash ≠ env.genesisHash) (hdest : e.destination = none) :
    L.Removable e where
  stored := he
  child := hchild
  receiver := by
    rw [receiver_eq_none_iff]
    intro k r hr hs
    obtain ⟨q, hq, -, hqdest, -⟩ := L.exists_source hr hs
    cases he.symm.trans hq
    simp [hdest] at hqdest
  ne_genesis := hgen

theorem visit_undo (H : CollisionFree env U) (M : MarkerFree env U) (now : Nat) (hR : Refines δ s L)
    (he : L.find e.hash = some e) (hchild : L.child e.hash = none) (hgen : e.hash ≠ env.genesisHash)
    (hwait : ∀ d, e.destination = some d → Unblocks rollback fuel L e d s.blocksInfo Q)
    (hQ : Q s.blocksInfo L) :
    ∃ s', visit env now rollback fuel s e.block = .ok s' ∧
      Undone δ L e Q s' := by
  have hhash := L.hashed he
  have hlast : e.destination = none → L.Removable e :=
    removable_of_destination_none he hchild hgen
  have hlift : ∀ {x : Except Fault BlockStore} (hr : L.Removable e),
      (∃ s', x = .ok s' ∧ Refines.Uninstalls δ δ s s' hr) →
      ∃ s', x = .ok s' ∧ Undone δ L e Q s' := by
    rintro x hr ⟨s', hs', hu⟩
    exact ⟨s', hs', δ, s, L, hr, hR, hu, Sub.refl L, hQ⟩
  cases hb : e.block with
  | sendBlock b =>
    rw [hb] at hhash
    have hdest : e.destination = some b.hashables.destination := by
      rw [Entry.destination, hb]
    exact sendBlock_undo H M now hR hb hhash (hwait _ hdest)
  | receiveBlock b =>
    have hr := hlast (by rw [Entry.destination, hb])
    exact hlift hr (receiveBlock_undo H M now hR hr hb)
  | openBlock b =>
    have hr := hlast (by rw [Entry.destination, hb])
    exact hlift hr (openBlock_undo H M now hR hr hb)
  | changeBlock b =>
    have hr := hlast (by rw [Entry.destination, hb])
    exact hlift hr (changeBlock_undo H M now hR hr hb)
  | stateBlock b =>
    rw [hb] at hhash
    exact stateBlock_undo H M now hR he hb hhash hwait (fun hd => ⟨hlast hd, hQ⟩)

end Visit

end Badem
