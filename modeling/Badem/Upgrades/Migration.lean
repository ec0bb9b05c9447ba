import Badem.Upgrades.Steps

/-!
# Migration of a ledger

Opening a file of an earlier version restores the ledger whose layout it had.  The last step
does not write a version.
-/

namespace Badem

open Mdb BlockLattice

variable {env : Env} {U : Set Block} {L : BlockLattice env U} {k : Nat} {s : BlockStore}
variable {db : Database} {junk : Account → Uint64 → Signature} {blocks : List Block}

section Chain

def stepsFrom (env : Env) (junk : Account → Uint64 → Signature) (k : Nat) :
    List (Nat × (Database → Except Fault Database)) :=
  (upgradeSteps env junk).filter (fun x => k ≤ x.1)

theorem versionGet_of_version (hk : k ≤ 11) (h : db.version = some k) : db.versionGet = .ok k := by
  rw [Database.versionGet, h]
  exact bind_eq_of_ok (require_of (by omega)) rfl

theorem pendingUpgrades_eq (hk : 1 ≤ k ∧ k ≤ 11)
    (hversion : db.version = some k ∨ k = 1 ∧ db.version = none) :
    pendingUpgrades env junk db = .ok (stepsFrom env junk k) := by
  have hget : db.versionGet = .ok k := by
    rcases hversion with hv | ⟨rfl, hv⟩
    · exact versionGet_of_version hk.2 hv
    · rw [Database.versionGet, hv]
  rw [pendingUpgrades, hget, ok_bind, upgradesFrom, require_of hk]
  rfl

/-- What the upgrades make of a file, over the lattice of the ledger. -/
structure Rebuilt (L : BlockLattice env U) (s : BlockStore) (db : Database) : Prop where
  version : db.version = some 10
  accounts : db.accounts = s.accounts.mapValues .current
  pending : db.tables.pending = s.pending
  pendingV3 : db.pendingV3 = .empty
  representation : db.tables.representation = s.representation
  blocks : db.tables.blockDatabase = s.blockDatabase
  infos : InfosOf L (fun _ => True) db.tables.blocksInfo

variable {δ : Account → Uint128} (H : CollisionFree env U)
variable (G : ∀ b ∈ U, b.hash env ≠ env.genesisAccount)
include H

theorem exists_step (junk : Account → Uint64 → Signature) (hR : Refines δ s L)
    (hk : k = 1 ∨ 3 ≤ k ∧ k ≤ 8) (hlay : Layout k s db) :
    ∃ f db', stepsFrom env junk k = (k, f) :: stepsFrom env junk (k + 1) ∧ f db = .ok db' ∧
      Layout (k + 1) s db' := by
  have hcases : k = 1 ∨ k = 3 ∨ k = 4 ∨ k = 5 ∨ k = 6 ∨ k = 7 ∨ k = 8 := by omega
  rcases hcases with rfl | rfl | rfl | rfl | rfl | rfl | rfl
  · obtain ⟨db', hrun, hlay'⟩ := exists_upgradeV1ToV2 hR hlay
    exact ⟨_, db', rfl, hrun, hlay'⟩
  · obtain ⟨db', hrun, hlay'⟩ := exists_upgradeV3ToV4 hlay
    exact ⟨_, db', rfl, hrun, hlay'⟩
  · obtain ⟨db', hrun, hlay'⟩ := exists_upgradeV4ToV5 H hR hlay
    exact ⟨_, db', rfl, hrun, hlay'⟩
  · obtain ⟨db', hrun, hlay'⟩ := exists_upgradeV5ToV6 H hR hlay
    exact ⟨_, db', rfl, hrun, hlay'⟩
  · exact ⟨upgradeV6ToV7, _, rfl, rfl, hlay.relabel (by decide) rfl rfl rfl rfl (fun _ => rfl)⟩
  · exact ⟨upgradeV7ToV8, _, rfl, rfl, hlay.relabel (by decide) rfl rfl rfl rfl (fun _ => rfl)⟩
  · obtain ⟨db', hrun, hlay'⟩ := exists_upgradeV8ToV9 env junk hlay
    exact ⟨_, db', rfl, hrun, hlay'⟩

include G

theorem exists_lastSteps (junk : Account → Uint64 → Signature) (hR : Refines δ s L)
    (hlay : Layout 9 s db) :
    ∃ db', (stepsFrom env junk 9).foldlM (fun db x => x.2 db) db = .ok db' ∧ Rebuilt L s db' := by
  obtain ⟨t, hrun, hinfos⟩ := exists_upgradeV9ToV10 H G hR hlay
  have hsteps : stepsFrom env junk 9 = [(9, upgradeV9ToV10 env), (10, upgradeV10ToV11)] := rfl
  obtain ⟨rep, hacc⟩ := hlay.accounts
  obtain ⟨kept, hkept, hrep⟩ := hlay.represents hR
  rw [hkept (by decide), rawKeeping_true] at hrep
  rw [hsteps, List.foldlM_cons]
  refine ⟨_, bind_eq_of_ok hrun rfl, ?_⟩
  exact
    { version := rfl
      accounts := by
        ext1 a
        rw [Table.get_mapValues]
        exact hacc a
      pending := hlay.pending
      pendingV3 := by
        ext1 h
        cases hp : db.pendingV3.get h with
        | none => exact hp
        | some p => exact absurd ((hlay.pendingV3 h p).mp hp).1 (by decide)
      representation := hlay.representation (by decide)
      blocks := hrep.unique hR.blocks
      infos := hinfos }

theorem exists_laterSteps (junk : Account → Uint64 → Signature) (hR : Refines δ s L) (n : Nat) :
    ∀ {k : Nat} {db : Database}, 3 ≤ k → k + n = 9 → Layout k s db →
      ∃ db', (stepsFrom env junk k).foldlM (fun db x => x.2 db) db = .ok db' ∧
        Rebuilt L s db' := by
  induction n with
  | zero =>
    intro k db _ hn hlay
    obtain rfl : k = 9 := hn
    exact exists_lastSteps H G junk hR hlay
  | succ n ih =>
    intro k db hk hn hlay
    obtain ⟨f, db₁, hsteps, hrun, hlay₁⟩ :=
      exists_step H junk hR (.inr ⟨hk, by omega⟩) hlay
    obtain ⟨db', hrest, hdb'⟩ := ih (by omega) (by omega) hlay₁
    rw [hsteps, List.foldlM_cons]
    exact ⟨db', bind_eq_of_ok hrun hrest, hdb'⟩

theorem exists_secondStep (junk : Account → Uint64 → Signature) (hR : Refines (fun _ => 0) s L)
    (hlay : Layout 2 s db) :
    ∃ db' weights, (stepsFrom env junk 2).foldlM (fun db x => x.2 db) db = .ok db' ∧
      Rebuilt L { s with representation := weights } db' ∧
      ∀ r, (weights.get r).getD 0 = s.representationGet r := by
  obtain ⟨db₁, weights, hrun, hlay₁, hweights⟩ := exists_upgradeV2ToV3 H G hR hlay
  obtain ⟨db', hrest, hdb'⟩ :=
    exists_laterSteps H G junk (hR.withWeights (fun r => congrArg (· + 0) (hweights r))) 6
      (by decide) rfl hlay₁
  have hsteps : stepsFrom env junk 2 = (2, upgradeV2ToV3 env) :: stepsFrom env junk 3 := rfl
  rw [hsteps, List.foldlM_cons]
  exact ⟨db', weights, bind_eq_of_ok hrun hrest, hdb', hweights⟩

theorem exists_doUpgrades (junk : Account → Uint64 → Signature) (hR : Refines (fun _ => 0) s L)
    (hk : 1 ≤ k ∧ k ≤ 9) (hlay : Layout k s db) :
    ∃ db' weights, doUpgrades env junk db = .ok db' ∧
      Rebuilt L { s with representation := weights } db' ∧
      (∀ r, (weights.get r).getD 0 = s.representationGet r) ∧
      (3 ≤ k → weights = s.representation) := by
  rw [doUpgrades, pendingUpgrades_eq ⟨hk.1, by omega⟩ hlay.version, ok_bind]
  have hcases : k = 1 ∨ k = 2 ∨ 3 ≤ k := by omega
  rcases hcases with rfl | rfl | hle
  · obtain ⟨f, db₁, hsteps, hrun, hlay₁⟩ := exists_step H junk hR (.inl rfl) hlay
    obtain ⟨db', weights, hrest, hdb', hweights⟩ := exists_secondStep H G junk hR hlay₁
    rw [hsteps, List.foldlM_cons]
    exact ⟨db', weights, bind_eq_of_ok hrun hrest, hdb', hweights, fun h => absurd h (by decide)⟩
  · obtain ⟨db', weights, hrest, hdb', hweights⟩ := exists_secondStep H G junk hR hlay
    exact ⟨db', weights, hrest, hdb', hweights, fun h => absurd h (by decide)⟩
  · obtain ⟨db', hrest, hdb'⟩ := exists_laterSteps H G junk hR (9 - k) hle (by omega) hlay
    exact ⟨db', s.representation, hrest, hdb', fun _ => rfl, fun _ => rfl⟩

end Chain

/-- Opening a file in the layout of an earlier version restores the ledger. -/
theorem upgrades_restore (junk : Account → Uint64 → Signature) (hrun : LegacyRun env s)
    (hzero : s.blockExists 0 = false) (hmarker : s.blockExists env.genesisAccount = false)
    (hk : 1 ≤ k ∧ k ≤ 9) (hlay : Layout k s db) :
    ∃ db', doUpgrades env junk db = .ok db' ∧ Restored env s db' ∧
      (3 ≤ k → db'.tables.representation = s.representation) := by
  have H := hrun.collisionFree hzero
  have G := hrun.hash_ne_genesisAccount hmarker
  obtain ⟨L, hR⟩ := hrun.refines H G (fun {h b} hb => ⟨h, hb⟩)
  obtain ⟨db', weights, hdo, hdb', hweights, hsame⟩ := exists_doUpgrades H G junk hR hk hlay
  refine ⟨db', hdo, ?_, ?_⟩
  · exact
      { accounts := hdb'.accounts
        pending := hdb'.pending
        pendingV3 := hdb'.pendingV3
        representation := fun r => by
          rw [BlockStore.representationGet, hdb'.representation]
          exact hweights r
        blocks := hdb'.blocks
        infos := fun h i => by
          rw [hdb'.infos h i, infoDue_iff H hR]
          refine exists_congr fun e => and_congr_right fun he => ?_
          obtain ⟨h', hget⟩ := L.known he
          exact and_congr_left' (iff_of_true trivial (hrun.hashed hget).2) }
  · intro hle
    rw [hdb'.representation]
    exact hsame hle

theorem LegacyRun.processAll (blocks : List (Nat × Block)) :
    ∀ {s s' : BlockStore}, LegacyRun env s → (∀ x ∈ blocks, x.2.isLegacy = true) →
      Ledger.processAll env s blocks = .ok s' → LegacyRun env s' := by
  induction blocks with
  | nil =>
    intro s s' hs _ hrun
    cases hrun
    exact hs
  | cons x blocks ih =>
    intro s s' hs hlegacy hrun
    obtain ⟨r, s₁, hstep, -, hrest⟩ := processAll_cons hrun
    exact ih (hs.process (hlegacy x (.head _)) hstep)
      (fun y hy => hlegacy y (.tail _ hy)) hrest

theorem legacyRun_ledgerOf (hlegacy : ∀ b ∈ blocks, b.isLegacy = true)
    (h : ledgerOf env blocks = .ok s) : LegacyRun env s := by
  obtain ⟨g, hg, hrun⟩ := ok_of_bind h
  refine (LegacyRun.genesis hg).processAll _ ?_ hrun
  intro x hx
  obtain ⟨b, hb, rfl⟩ := List.mem_map.mp hx
  exact hlegacy b hb

theorem LegacyRun.layout_ofLedger (hrun : LegacyRun env s) (hzero : s.blockExists 0 = false)
    (hmarker : s.blockExists env.genesisAccount = false) (k : Nat) :
    Layout k s (.ofLedger k s) := by
  obtain ⟨L, hR⟩ := hrun.refines (hrun.collisionFree hzero) (hrun.hash_ne_genesisAccount hmarker)
    (fun {h b} hb => ⟨h, hb⟩)
  exact Badem.layout_ofLedger k hR.nodup_pending

theorem plain_legacy :
    ∃ s, LegacyRun plainEnv s ∧ s.blockExists 0 = false ∧
      s.blockExists plainEnv.genesisAccount = false ∧ s.blockCount = 3 := by
  have htest : ∃ s, ledgerOf plainEnv [plainSend, plainOpen] = .ok s ∧
      s.blockExists 0 = false ∧ s.blockExists plainEnv.genesisAccount = false ∧
        s.blockCount = 3 := by
    decide +kernel
  obtain ⟨s, hs, htest⟩ := htest
  exact ⟨s, legacyRun_ledgerOf (by decide) hs, htest⟩

theorem upgrades_restore_plain :
    ∃ s db, LegacyRun plainEnv s ∧ Layout 1 s db ∧ s.blockCount = 3 ∧
      ∃ db', doUpgrades plainEnv (fun _ _ => 0) db = .ok db' ∧ Restored plainEnv s db' := by
  obtain ⟨s, hrun, hzero, hmarker, hcount⟩ := plain_legacy
  have hlay := hrun.layout_ofLedger hzero hmarker 1
  obtain ⟨db', hdb', hrestored, -⟩ :=
    upgrades_restore (fun _ _ => 0) hrun hzero hmarker (by decide) hlay
  exact ⟨s, _, hrun, hlay, hcount, db', hdb', hrestored⟩

/-! ## Ledgers that are not restored -/

def plainChange : Block := .changeBlock ⟨⟨plainEnv.genesisHash, 50⟩, 0, 0⟩

def zeroEnv : Env := signedEnv fun _ => 0

def markEnv : Env :=
  signedEnv fun
    | [_, .word256 x] => if x = 2 then BademNetwork.test.genesisAccount else 1000 + x
    | _ => 7

def markChanges : Nat → BlockHash → List Block
  | 0, _ => []
  | n + 1, previous =>
    let b := Block.changeBlock ⟨⟨previous, BitVec.ofNat 256 (31 - n)⟩, 0, 0⟩
    b :: markChanges n (b.hash markEnv)

def markChain : List Block := markChanges 31 markEnv.genesisHash

def changesAbove (env : Env) (s : BlockStore) : Nat → BlockHash → Bool
  | 0, h => decide (h = env.genesisHash ∧ s.blockGet h = some (.openBlock env.genesisOpen))
  | n + 1, h =>
    match s.blockGet h with
    | some (.changeBlock b) => changesAbove env s n b.hashables.previous
    | _ => false

theorem balance_of_changesAbove (n : Nat) :
    ∀ {h : BlockHash} {x : Amount}, changesAbove env s n h = true → BalanceAfter env s h x →
      x = genesisAmount := by
  induction n with
  | zero =>
    intro h x hn hx
    obtain ⟨rfl, hget⟩ := of_decide_eq_true hn
    cases hx with
    | genesis _ => rfl
    | send hb => exact absurd (hget.symm.trans hb) (by simp)
    | receive hb => exact absurd (hget.symm.trans hb) (by simp)
    | opening _ hne => exact absurd rfl hne
    | change hb => exact absurd (hget.symm.trans hb) (by simp)
    | state hb => exact absurd (hget.symm.trans hb) (by simp)
  | succ n ih =>
    intro h x hn hx
    rw [changesAbove] at hn
    split at hn
    · rename_i b hget
      cases hx with
      | genesis _ => rfl
      | send hb => exact absurd (hget.symm.trans hb) (by simp)
      | receive hb => exact absurd (hget.symm.trans hb) (by simp)
      | opening hb => exact absurd (hget.symm.trans hb) (by simp)
      | change hb hprev =>
        obtain rfl := Block.changeBlock.inj (Option.some.inj (hget.symm.trans hb))
        exact ih hn hprev
      | state hb => exact absurd (hget.symm.trans hb) (by simp)
    · simp at hn

theorem weights_unrestored :
    ∃ s db', LegacyRun plainEnv s ∧ s.blockExists 0 = false ∧
      s.blockExists plainEnv.genesisAccount = false ∧ Layout 2 s (.ofLedger 2 s) ∧
      doUpgrades plainEnv (fun _ _ => 0) (.ofLedger 2 s) = .ok db' ∧
      db'.tables.representation ≠ s.representation := by
  have htest : ∃ s, ledgerOf plainEnv [plainChange] = .ok s ∧
      s.blockExists 0 = false ∧ s.blockExists plainEnv.genesisAccount = false ∧
      ∃ db', doUpgrades plainEnv (fun _ _ => 0) (.ofLedger 2 s) = .ok db' ∧
        db'.tables.representation.get plainEnv.genesisAccount ≠
          s.representation.get plainEnv.genesisAccount := by
    decide +kernel
  obtain ⟨s, hs, hzero, hmarker, db', hdb', hne⟩ := htest
  have hrun := legacyRun_ledgerOf (by decide) hs
  refine ⟨s, db', hrun, hzero, hmarker, hrun.layout_ofLedger hzero hmarker 2, hdb', ?_⟩
  intro heq
  exact hne (by rw [heq])

theorem counts_unrestored :
    ∃ s db', LegacyRun zeroEnv s ∧ s.blockExists zeroEnv.genesisAccount = false ∧
      Layout 5 s (.ofLedger 5 s) ∧
      doUpgrades zeroEnv (fun _ _ => 0) (.ofLedger 5 s) = .ok db' ∧
      db'.accounts ≠ s.accounts.mapValues .current := by
  have htest : ∃ s, ledgerOf zeroEnv [] = .ok s ∧
      s.blockExists zeroEnv.genesisAccount = false ∧
      (s.pending.keys.map PendingKey.hash).Nodup ∧
      ∃ db', doUpgrades zeroEnv (fun _ _ => 0) (.ofLedger 5 s) = .ok db' ∧
        db'.accounts.get zeroEnv.genesisAccount ≠
          (s.accounts.mapValues AccountRecord.current).get zeroEnv.genesisAccount := by
    decide +kernel
  obtain ⟨s, hs, hmarker, hunique, db', hdb', hne⟩ := htest
  refine ⟨s, db', legacyRun_ledgerOf (by decide) hs, hmarker, layout_ofLedger 5 hunique, hdb', ?_⟩
  intro heq
  exact hne (by rw [heq])

theorem infos_unrestored :
    ∃ s db', LegacyRun markEnv s ∧ s.blockExists 0 = false ∧ Layout 9 s (.ofLedger 9 s) ∧
      doUpgrades markEnv (fun _ _ => 0) (.ofLedger 9 s) = .ok db' ∧
      ∃ h i, db'.tables.blocksInfo.get h = some i ∧ ¬ InfoDue markEnv s h i := by
  have htest : ∃ s, ledgerOf markEnv markChain = .ok s ∧ s.blockExists 0 = false ∧
      (s.pending.keys.map PendingKey.hash).Nodup ∧ changesAbove markEnv s 31 1031 = true ∧
      ∃ db', doUpgrades markEnv (fun _ _ => 0) (.ofLedger 9 s) = .ok db' ∧
        db'.tables.blocksInfo.get 1031 = some ⟨markEnv.genesisAccount, 0⟩ := by
    decide +kernel
  obtain ⟨s, hs, hzero, hunique, habove, db', hdb', hinfo⟩ := htest
  refine ⟨s, db', legacyRun_ledgerOf (by decide +kernel) hs, hzero, layout_ofLedger 9 hunique,
    hdb', _, _, hinfo, ?_⟩
  intro hdue
  exact absurd (balance_of_changesAbove 31 habove hdue.balance) (by decide)

/-- A table of weights with an entry for the weight zero, and the two hashes that the walks
take for something else. -/
theorem upgrades_unrestored :
    (∃ s db', LegacyRun plainEnv s ∧ s.blockExists 0 = false ∧
      s.blockExists plainEnv.genesisAccount = false ∧ Layout 2 s (.ofLedger 2 s) ∧
      doUpgrades plainEnv (fun _ _ => 0) (.ofLedger 2 s) = .ok db' ∧
      db'.tables.representation ≠ s.representation) ∧
    (∃ s db', LegacyRun zeroEnv s ∧ s.blockExists zeroEnv.genesisAccount = false ∧
      Layout 5 s (.ofLedger 5 s) ∧
      doUpgrades zeroEnv (fun _ _ => 0) (.ofLedger 5 s) = .ok db' ∧
      db'.accounts ≠ s.accounts.mapValues .current) ∧
    ∃ s db', LegacyRun markEnv s ∧ s.blockExists 0 = false ∧ Layout 9 s (.ofLedger 9 s) ∧
      doUpgrades markEnv (fun _ _ => 0) (.ofLedger 9 s) = .ok db' ∧
      ∃ h i, db'.tables.blocksInfo.get h = some i ∧ ¬ InfoDue markEnv s h i :=
  ⟨weights_unrestored, counts_unrestored, infos_unrestored⟩

/-! ## Repeated openings -/

/-- Files whose tables are well formed for version `k`.  From version 10 on no step reads a
table. -/
inductive WellFormed (env : Env) : Nat → Database → Prop
  | new : WellFormed env 1 .empty
  | layout {k : Nat} {s : BlockStore} {db : Database} {U : Set Block} {L : BlockLattice env U}
      (H : CollisionFree env U) (G : ∀ b ∈ U, b.hash env ≠ env.genesisAccount)
      (hR : Refines (fun _ => 0) s L) (hk : 1 ≤ k ∧ k ≤ 9) (hlay : Layout k s db) :
      WellFormed env k db
  | current {k : Nat} {db : Database} (hk : k = 10 ∨ k = 11) (hversion : db.version = some k) :
      WellFormed env k db

theorem LegacyRun.wellFormed (hrun : LegacyRun env s) (hzero : s.blockExists 0 = false)
    (hmarker : s.blockExists env.genesisAccount = false) (hk : 1 ≤ k ∧ k ≤ 9)
    (hlay : Layout k s db) : WellFormed env k db := by
  have H := hrun.collisionFree hzero
  have G := hrun.hash_ne_genesisAccount hmarker
  obtain ⟨L, hR⟩ := hrun.refines H G (fun {h b} hb => ⟨h, hb⟩)
  exact .layout H G hR hk hlay

def Completes (env : Env) (junk : Account → Uint64 → Signature) (db : Database) : Prop :=
  ∃ db', openStore env junk db = .ok db' ∧ db'.versionGet = .ok 11 ∧
    pendingUpgrades env junk db' = .ok []

theorem openStore_of_doUpgrades {db' : Database} (h : doUpgrades env junk db = .ok db') :
    ∃ db'', openStore env junk db = .ok db'' ∧ db''.version = db'.version := by
  have hput : db'.tables.checksumPut 0 0 0 =
      .ok { db'.tables with checksum := db'.tables.checksum.put 0 0 } := by
    rw [BlockStore.checksumPut, require_of (by decide)]
    rfl
  exact ⟨_, bind_eq_of_ok h (bind_eq_of_ok hput rfl), rfl⟩

theorem WellFormed.version_doUpgrades (junk : Account → Uint64 → Signature)
    (hwf : WellFormed env k db) :
    ∃ db', doUpgrades env junk db = .ok db' ∧
      db'.version = some (if k = 11 then 11 else 10) := by
  cases hwf with
  | new => exact ⟨_, rfl, rfl⟩
  | layout H G hR hk hlay =>
    obtain ⟨db', weights, hdo, hdb', -⟩ := exists_doUpgrades H G junk hR hk hlay
    rw [if_neg (by omega)]
    exact ⟨db', hdo, hdb'.version⟩
  | current hk hversion =>
    rcases hk with rfl | rfl
    · refine ⟨_, bind_eq_of_ok (pendingUpgrades_eq (by decide) (.inl hversion)) rfl, ?_⟩
      exact hversion
    · refine ⟨_, bind_eq_of_ok (pendingUpgrades_eq (by decide) (.inl hversion)) rfl, ?_⟩
      exact hversion

/-- Every well-formed file is opened, and the upgrade is complete for version 11 alone. -/
theorem upgrades_complete_iff (junk : Account → Uint64 → Signature) (hwf : WellFormed env k db) :
    (∃ db', openStore env junk db = .ok db') ∧ (Completes env junk db ↔ k = 11) := by
  obtain ⟨db₁, hdo, hversion⟩ := hwf.version_doUpgrades junk
  obtain ⟨db', hopen, hsame⟩ := openStore_of_doUpgrades hdo
  rw [hversion] at hsame
  refine ⟨⟨db', hopen⟩, ?_⟩
  constructor
  · rintro ⟨db'', hopen', heleven, -⟩
    cases hopen.symm.trans hopen'
    by_contra hne
    rw [if_neg hne] at hsame
    rw [versionGet_of_version (by decide) hsame] at heleven
    exact absurd (Except.ok.inj heleven) (by decide)
  · intro hk
    rw [if_pos hk] at hsame
    refine ⟨db', hopen, versionGet_of_version le_rfl hsame, ?_⟩
    rw [pendingUpgrades_eq (by decide) (Or.inl hsame)]
    rfl

theorem upgrades_complete_plain :
    WellFormed plainEnv 11 (Database.empty.versionPut 11) ∧
      Completes plainEnv (fun _ _ => 0) (Database.empty.versionPut 11) ∧
      ∃ s, s.blockCount = 3 ∧ WellFormed plainEnv 1 (.ofLedger 1 s) ∧
        ¬ Completes plainEnv (fun _ _ => 0) (.ofLedger 1 s) := by
  obtain ⟨s, hrun, hzero, hmarker, hcount⟩ := plain_legacy
  have hnew : WellFormed plainEnv 11 (Database.empty.versionPut 11) := .current (Or.inr rfl) rfl
  have hold := hrun.wellFormed hzero hmarker (by decide) (hrun.layout_ofLedger hzero hmarker 1)
  refine ⟨hnew, (upgrades_complete_iff _ hnew).2.mpr rfl, s, hcount, hold, ?_⟩
  rw [(upgrades_complete_iff _ hold).2]
  decide

/-- A new file has the version 10 when it has been opened, and the next opening takes the last
step again. -/
theorem upgrades_repeated :
    WellFormed plainEnv 1 .empty ∧
      ∃ db', openStore plainEnv (fun _ _ => 0) .empty = .ok db' ∧ db'.versionGet = .ok 10 ∧
        pendingUpgrades plainEnv (fun _ _ => 0) db' = .ok [(10, upgradeV10ToV11)] :=
  ⟨.new, _, rfl, rfl, rfl⟩

end Badem
