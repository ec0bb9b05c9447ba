import Badem.Refinement.Reachability
import Badem.Refinement.StoreEdits

/-!
# Ledgers of legacy blocks

As long as only legacy blocks have been processed and no hash is zero or the genesis account,
the stored hashes do not collide and the ledger holds a lattice.
-/

namespace Badem

open Mdb BlockLattice

def BlockStore.storedBlocks (s : BlockStore) : Set Block := {b | ∃ h, s.blockGet h = some b}

/-- Ledgers reached from the genesis ledger by processing legacy blocks. -/
inductive LegacyRun (env : Env) : BlockStore → Prop
  | genesis {now : Nat} {s : BlockStore} (h : genesisInitialize env now .empty = .ok s) :
      LegacyRun env s
  | process {now : Nat} {s s' : BlockStore} {b : Block} {r : ProcessReturn}
      (hs : LegacyRun env s) (hlegacy : b.isLegacy = true)
      (h : Ledger.process env now s b = .ok (r, s')) : LegacyRun env s'

namespace LegacyRun

variable {env : Env} {s : BlockStore}

theorem blockGet_genesis {now : Nat} (h : genesisInitialize env now .empty = .ok s)
    (k : BlockHash) :
    s.blockGet k = if k = env.genesisHash then some (.openBlock env.genesisOpen) else none :=
  (genesis_appends h).blockGet k

theorem hashed (hrun : LegacyRun env s) {h : BlockHash} {b : Block}
    (hb : s.blockGet h = some b) : b.hash env = h ∧ b.isLegacy = true := by
  induction hrun with
  | genesis hinit =>
    rw [blockGet_genesis hinit] at hb
    split_ifs at hb with hh
    cases hb
    exact ⟨hh.symm, rfl⟩
  | process _ hlegacy hstep ih =>
    rcases process_appends hstep with rfl | ⟨a, happends⟩
    · exact ih hb
    · grind [happends.blockGet]

theorem stored_genesis (hrun : LegacyRun env s) :
    s.blockGet env.genesisHash = some (.openBlock env.genesisOpen) := by
  induction hrun with
  | genesis hinit => rw [blockGet_genesis hinit, if_pos rfl]
  | process _ hlegacy hstep ih =>
    rcases process_appends hstep with rfl | ⟨a, happends⟩
    · exact ih
    · have hnew := happends.fresh
      rw [happends.blockGet, if_neg, ih]
      intro heq
      simp [← heq, ih] at hnew

theorem refines (hrun : LegacyRun env s) {U : Set Block} (H : CollisionFree env U)
    (G : ∀ b ∈ U, b.hash env ≠ env.genesisAccount) (hU : ∀ {h b}, s.blockGet h = some b → b ∈ U) :
    ∃ L : BlockLattice env U, Refines (fun _ => 0) s L := by
  induction hrun with
  | genesis hinit => exact ⟨genesisLattice H, genesis_refines H hinit⟩
  | @process now s s' b r _ hlegacy hstep ih =>
    rcases process_appends hstep with rfl | ⟨a, happends⟩
    · exact ih hU
    · have hnew := happends.fresh
      have hget := happends.blockGet
      obtain ⟨L, hR⟩ := ih (fun {h c} hc => hU (h := h) (by
        rw [hget, if_neg, hc]
        rintro rfl
        rw [hnew] at hc
        exact absurd hc (by simp)))
      have hb : b ∈ U := hU (h := b.hash env) (by rw [hget, if_pos rfl])
      rcases process_step_installs H G now hR hb with
        ⟨r', hstep', -⟩ | ⟨r', s₁, e, ha, -, -, hstep', -, hi⟩
      · grind
      · cases hstep'.symm.trans hstep
        exact ⟨L.append H e ha, hR.install H hi⟩

theorem collisionFree (hrun : LegacyRun env s) (hzero : s.blockExists 0 = false) :
    CollisionFree env s.storedBlocks where
  genesis := ⟨env.genesisHash, hrun.stored_genesis⟩
  injective := by
    rintro b ⟨h, hb⟩ b' ⟨h', hb'⟩ heq
    rw [(hrun.hashed hb).1, (hrun.hashed hb').1] at heq
    rw [heq, hb'] at hb
    rw [Option.some.inj hb]
  nonzero := by
    rintro b ⟨h, hb⟩ heq
    rw [(hrun.hashed hb).1] at heq
    simp [BlockStore.blockExists_eq_isSome, ← heq, hb] at hzero

theorem hash_ne_genesisAccount (hrun : LegacyRun env s)
    (hmarker : s.blockExists env.genesisAccount = false) :
    ∀ b ∈ s.storedBlocks, b.hash env ≠ env.genesisAccount := by
  rintro b ⟨h, hb⟩ heq
  rw [(hrun.hashed hb).1] at heq
  simp [BlockStore.blockExists_eq_isSome, ← heq, hb] at hmarker

end LegacyRun

end Badem
