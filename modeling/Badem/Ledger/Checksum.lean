import Badem.Core.StoreUpgrades
import Badem.Ledger.BlockInfos

/-!
# Checksum of the ledger

`change_latest` keeps the checksum equal to the exclusive or of the heads, but the constructor
of `block_store` writes zero over it every time a database is opened.
-/

namespace Badem

open Mdb BlockLattice

variable {env : Env} {U : Set Block} {junk : Account → Uint64 → Signature}
variable {s s' : BlockStore}

/-- Exclusive or of the heads of all accounts. -/
def headsChecksum (s : BlockStore) : Checksum :=
  s.accounts.fold (fun x y => x ^^^ y) 0 (fun _ i => i.head)

/-- The stored checksum is the exclusive or of the heads. -/
def ChecksumRight (s : BlockStore) : Prop :=
  s.checksumGet 0 0 = .ok (some (headsChecksum s))

/-- The file with the tables of a ledger, all in the current layout. -/
def Database.withLedger (db : Database) (s : BlockStore) : Database :=
  { db with
    tables := { s with accounts := .empty }
    accounts := s.accounts.mapValues .current
    pendingV3 := .empty }

inductive StoreCall
  | ledger (c : LedgerCall)
  | reopen

/-- Runs of a new store: the calls, each with its ledger and the latest first, the file without the
ledger, and the ledger. -/
inductive StoreRun (env : Env) (junk : Account → Uint64 → Signature) (U : Set Block) :
    List (BlockStore × StoreCall) → Database → BlockStore → Prop
  | create {now : Nat} {db : Database} {s s' : BlockStore} :
      openStore env junk .empty = .ok (db.withLedger s) →
      genesisInitialize env now s = .ok s' →
      StoreRun env junk U [] db s'
  | call {steps : List (BlockStore × StoreCall)} {db : Database} {s s' : BlockStore}
      {c : LedgerCall} :
      StoreRun env junk U steps db s →
      c.Permitted env U s →
      c.run env s = .ok s' →
      StoreRun env junk U ((s, .ledger c) :: steps) db s'
  | reopen {steps : List (BlockStore × StoreCall)} {db db' : Database} {s s' : BlockStore} :
      StoreRun env junk U steps db s →
      openStore env junk (db.withLedger s) = .ok (db'.withLedger s') →
      StoreRun env junk U ((s, .reopen) :: steps) db' s'

section Opening

theorem Database.withLedger_inj {db db' : Database} (h : db.withLedger s = db'.withLedger s') :
    s = s' ∧ db.version = db'.version := by
  have htables : ({ s with accounts := .empty } : BlockStore) = { s' with accounts := .empty } :=
    congrArg Database.tables h
  have hversion : (db.withLedger s).version = (db'.withLedger s').version :=
    congrArg Database.version h
  have hrecords : s.accounts.mapValues AccountRecord.current =
      s'.accounts.mapValues AccountRecord.current := congrArg Database.accounts h
  have haccounts : s.accounts = s'.accounts := by
    ext1 a
    have hget := congrArg (fun t => t.get a) hrecords
    simp only [Table.get_mapValues] at hget
    exact Option.map_injective (fun i i' hi => AccountRecord.current.inj hi) hget
  refine ⟨?_, hversion⟩
  cases s
  cases s'
  simp only [BlockStore.mk.injEq] at htables haccounts ⊢
  exact ⟨htables.1, haccounts, htables.2.2⟩

theorem openStore_empty (env : Env) (junk : Account → Uint64 → Signature) :
    openStore env junk .empty =
      .ok (({ Database.empty with version := some 10 } : Database).withLedger .empty) :=
  rfl

theorem openStore_withLedger {db : Database} (hv : db.version = some 10) :
    openStore env junk (db.withLedger s) =
      .ok (({ db with unsynced := [] } : Database).withLedger
        { s with checksum := s.checksum.put 0 0 }) := by
  have hpending : pendingUpgrades env junk (db.withLedger s) = .ok [(10, upgradeV10ToV11)] := by
    have hget : (db.withLedger s).versionGet = .ok 10 := by
      rw [Database.versionGet, show (db.withLedger s).version = some 10 from hv]
      rfl
    rw [pendingUpgrades, hget]
    rfl
  rw [openStore, doUpgrades, hpending]
  rfl

theorem StoreRun.version {steps : List (BlockStore × StoreCall)} {db : Database}
    (hrun : StoreRun env junk U steps db s) : db.version = some 10 := by
  induction hrun with
  | create hopen _ =>
    exact (Database.withLedger_inj
      (Except.ok.inj (hopen.symm.trans (openStore_empty env junk)))).2
  | call _ _ _ ih => exact ih
  | reopen _ hopen ih =>
    rw [openStore_withLedger ih] at hopen
    exact (Database.withLedger_inj (Except.ok.inj hopen)).2.symm.trans ih

end Opening

section Runs

variable {steps : List (BlockStore × StoreCall)} {db : Database} {L : BlockLattice env U}

theorem StoreRun.eq_of_reopen {db' : Database} (hrun : StoreRun env junk U steps db s)
    (hopen : openStore env junk (db.withLedger s) = .ok (db'.withLedger s')) :
    s' = { s with checksum := s.checksum.put 0 0 } := by
  rw [openStore_withLedger hrun.version] at hopen
  exact (Database.withLedger_inj (Except.ok.inj hopen)).1.symm

theorem checksumRight_iff : ChecksumRight s ↔ s.checksum.get 0 = some (headsChecksum s) := by
  have hget : s.checksumGet 0 0 = .ok (s.checksum.get 0) := by
    rw [BlockStore.checksumGet, require_of (by decide)]
    rfl
  rw [ChecksumRight, hget, Except.ok.injEq]

theorem checksumRight_reset :
    ChecksumRight { s with checksum := s.checksum.put 0 0 } ↔ headsChecksum s = 0 := by
  rw [checksumRight_iff, Table.get_put_self, Option.some.injEq]
  exact eq_comm

theorem Refines.checksumRight (hR : Refines (fun _ => 0) s L) : ChecksumRight s :=
  checksumRight_iff.mpr hR.get_checksum

theorem Refines.reset (hR : Refines (fun _ => 0) s L)
    (hzero : headsChecksum s = 0) : { s with checksum := s.checksum.put 0 0 } = s := by
  have hsum : s.checksum.put 0 0 = s.checksum := by
    rw [hR.checksum, Table.put_put]
    exact congrArg _ hzero.symm
  rw [hsum]

variable (H : CollisionFree env U) (M : MarkerFree env U)

include H M in
theorem Refines.call (hR : Refines (fun _ => 0) s L) {c : LedgerCall}
    (hpermitted : c.Permitted env U s) (hcall : c.run env s = .ok s') :
    ∃ L' : BlockLattice env U, Refines (fun _ => 0) s' L' := by
  cases c with
  | process now b =>
    obtain ⟨⟨r, t⟩, hprocess, hpure⟩ := ok_of_bind hcall
    cases hpure
    rcases process_step H M now hR hpermitted with
      ⟨r', hr', -⟩ | ⟨r', t', e, ha, -, -, hr', -, hR'⟩
    · grind
    · grind
  | rollback now hash =>
    obtain ⟨e, he⟩ := hR.find_of_exists hpermitted.1
    obtain rfl := L.keyed he
    obtain ⟨t, L', hroll, hR', -⟩ := rollback_spec H M now hR he hpermitted.2
    cases hroll.symm.trans hcall
    exact ⟨L', hR'⟩

include H M in
theorem StoreRun.refines (hrun : StoreRun env junk U steps db s)
    (hzero : ∀ t, (t, .reopen) ∈ steps → headsChecksum t = 0) :
    (∃ L : BlockLattice env U, Refines (fun _ => 0) s L) ∧
      ∀ t c, (t, c) ∈ steps → ChecksumRight t := by
  induction hrun with
  | create hopen hinit =>
    obtain ⟨hs, -⟩ := Database.withLedger_inj
      (Except.ok.inj (hopen.symm.trans (openStore_empty env junk)))
    rw [hs] at hinit
    exact ⟨⟨_, genesis_refines H hinit⟩, fun t c hmem => absurd hmem (by simp)⟩
  | call _ hpermitted hcall ih =>
    obtain ⟨⟨L, hR⟩, hright⟩ := ih (fun t hmem => hzero t (.tail _ hmem))
    refine ⟨hR.call H M hpermitted hcall, fun t c hmem => ?_⟩
    rcases List.mem_cons.mp hmem with heq | hmem
    · obtain ⟨rfl, -⟩ := Prod.mk.inj heq
      exact hR.checksumRight
    · exact hright t c hmem
  | reopen hrun hopen ih =>
    obtain ⟨⟨L, hR⟩, hright⟩ := ih (fun t hmem => hzero t (.tail _ hmem))
    have hs' := hrun.eq_of_reopen hopen
    rw [hR.reset (hzero _ (.head _))] at hs'
    subst hs'
    refine ⟨⟨L, hR⟩, fun t c hmem => ?_⟩
    rcases List.mem_cons.mp hmem with heq | hmem
    · obtain ⟨rfl, -⟩ := Prod.mk.inj heq
      exact hR.checksumRight
    · exact hright t c hmem

theorem StoreRun.headsChecksum_eq_zero (hrun : StoreRun env junk U steps db s)
    (hright : ChecksumRight s) (hall : ∀ t c, (t, c) ∈ steps → ChecksumRight t) :
    ∀ t, (t, .reopen) ∈ steps → headsChecksum t = 0 := by
  induction hrun with
  | create _ _ =>
    intro t hmem
    simp at hmem
  | call _ _ _ ih =>
    intro t hmem
    rcases List.mem_cons.mp hmem with heq | hmem
    · exact absurd (Prod.mk.inj heq).2 (by simp)
    · grind
  | reopen hrun hopen ih =>
    intro t hmem
    rcases List.mem_cons.mp hmem with heq | hmem
    · obtain ⟨rfl, -⟩ := Prod.mk.inj heq
      rw [hrun.eq_of_reopen hopen] at hright
      exact checksumRight_reset.mp hright
    · grind

end Runs

/-- The checksum is right in every ledger of a run exactly if the database is opened only while
the heads cancel each other. -/
theorem checksum_right_iff
    (H : CollisionFree env U) (M : MarkerFree env U) {steps : List (BlockStore × StoreCall)}
    {db : Database} (hrun : StoreRun env junk U steps db s) :
    (ChecksumRight s ∧ ∀ t c, (t, c) ∈ steps → ChecksumRight t) ↔
      ∀ t, (t, .reopen) ∈ steps → headsChecksum t = 0 := by
  constructor
  · rintro ⟨hright, hall⟩
    exact hrun.headsChecksum_eq_zero hright hall
  · intro hzero
    obtain ⟨⟨L, hR⟩, hall⟩ := hrun.refines H M hzero
    exact ⟨hR.checksumRight, hall⟩

theorem exists_created :
    ∃ db s, StoreRun plainEnv junk plainSet [] db s ∧
      openStore plainEnv junk (db.withLedger s) =
        .ok (({ db with unsynced := [] } : Database).withLedger
          { s with checksum := s.checksum.put 0 0 }) ∧
      headsChecksum s = plainEnv.genesisHash := by
  have hinit : ∃ s, genesisInitialize plainEnv 0 .empty = .ok s ∧
      headsChecksum s = plainEnv.genesisHash := by
    decide
  obtain ⟨s, hs, hsum⟩ := hinit
  have hrun : StoreRun plainEnv junk plainSet [] { Database.empty with version := some 10 } s :=
    .create (openStore_empty plainEnv junk) hs
  exact ⟨_, s, hrun, openStore_withLedger rfl, hsum⟩

theorem plain_calls_evaluated :
    ∃ s₀, genesisInitialize plainEnv 0 .empty = .ok s₀ ∧
      ∃ s₁, (LedgerCall.process 0 plainSend).run plainEnv s₀ = .ok s₁ ∧
      ∃ s₂, (LedgerCall.process 0 plainOpen).run plainEnv s₁ = .ok s₂ ∧
      s₂.blockCount = 3 ∧ s₂.blockExists 2 = true ∧
      ∃ s₃, (LedgerCall.rollback 0 2).run plainEnv s₂ = .ok s₃ ∧ s₃.blockCount = 1 := by
  decide +kernel

/-- Two blocks are processed, and the first of them is rolled back with the other one. -/
theorem checksum_right_rolled_back :
    ∃ s₀ s₁ s₂ s₃ db, StoreRun plainEnv (fun _ _ => 0) plainSet
        [(s₂, .ledger (.rollback 0 2)), (s₁, .ledger (.process 0 plainOpen)),
          (s₀, .ledger (.process 0 plainSend))] db s₃ ∧
      s₂.blockCount = 3 ∧ s₃.blockCount = 1 ∧ ChecksumRight s₂ ∧ ChecksumRight s₃ := by
  obtain ⟨s₀, hs₀, s₁, hs₁, s₂, hs₂, hcount, hexists, s₃, hs₃, hcount'⟩ := plain_calls_evaluated
  have hrun₁ : StoreRun plainEnv (fun _ _ => 0) plainSet [(s₀, .ledger (.process 0 plainSend))]
      { Database.empty with version := some 10 } s₁ :=
    .call (.create (openStore_empty plainEnv _) hs₀) (List.mem_cons_of_mem _ (.head _)) hs₁
  have hrun₂ := hrun₁.call (c := .process 0 plainOpen)
    (List.mem_cons_of_mem _ (.tail _ (.head _))) hs₂
  have hrun := hrun₂.call (c := .rollback 0 2) ⟨hexists, by decide⟩ hs₃
  obtain ⟨hright, hall⟩ := (checksum_right_iff plain_collisionFree plain_markerFree hrun).mpr
    (fun t hmem => absurd hmem (by simp))
  exact ⟨s₀, s₁, s₂, s₃, _, hrun, hcount, hcount', hall _ _ (.head _), hright⟩

theorem checksum_reset :
    ∃ steps db s, StoreRun plainEnv (fun _ _ => 0) plainSet steps db s ∧ ¬ ChecksumRight s := by
  obtain ⟨db, s, hrun, hopen, hsum⟩ := exists_created
  refine ⟨_, _, _, hrun.reopen hopen, ?_⟩
  rw [checksumRight_reset, hsum]
  decide

end Badem
