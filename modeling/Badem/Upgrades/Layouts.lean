import Badem.Core.StoreUpgrades
import Badem.Ledger.BlockInfos
import Badem.Mdb.Cursor
import Badem.Upgrades.LegacyLedgers

/-!
# Ledgers in the layout of an earlier version

`Layout k s db` says that the file `db` holds the ledger `s` in the layout of version `k`: what
later versions added is missing, and what earlier versions did not keep up to date may hold
anything.
-/

namespace Badem

open Mdb BlockLattice

/-- The record of an account in the layout of a version.  Before version 3 any hash may
stand for the block that names the representative. -/
def AccountInfo.layout (k : Nat) (rep : BlockHash) (i : AccountInfo) : AccountRecord :=
  if k = 1 then .v1 ⟨i.head, rep, i.balance, i.modified⟩
  else if k = 2 then .v5 ⟨i.head, rep, i.openBlock, i.balance, i.modified⟩
  else if k ≤ 5 then .v5 ⟨i.head, i.repBlock, i.openBlock, i.balance, i.modified⟩
  else .current i

def StoredBlock.keeping (kept : Bool) (v : StoredBlock) : StoredBlock :=
  if kept = true then v else { v with successor := 0 }

/-- The file holds a ledger in the layout of version `k`. -/
structure Layout (k : Nat) (s : BlockStore) (db : Database) : Prop where
  version : db.version = some k ∨ k = 1 ∧ db.version = none
  accounts : ∃ rep : Account → BlockHash, ∀ a,
    db.accounts.get a = (s.accounts.get a).map (AccountInfo.layout k (rep a))
  representation : 3 ≤ k → db.tables.representation = s.representation
  pending : db.tables.pending = if 4 ≤ k then s.pending else .empty
  pendingV3 : ∀ h p, db.pendingV3.get h = some p ↔
    k ≤ 3 ∧ s.pending.get ⟨p.destination, h⟩ = some ⟨p.source, p.amount⟩
  blocks : ∃ kept : BlockHash → Bool, (5 ≤ k → ∀ h, kept h = true) ∧ ∀ t h,
    (db.tables.blockDatabase t).get h =
      ((s.blockDatabase t).get h).map (StoredBlock.keeping (kept h))
  infos : db.tables.blocksInfo = .empty
  -- a sequence number is read from eight bytes
  sequence : k ≤ 8 → ∀ x ∈ db.sequence, 8 ≤ x.2.length

/-- The file holds a ledger in the present layout, with every block info that is due. -/
structure Restored (env : Env) (s : BlockStore) (db : Database) : Prop where
  accounts : db.accounts = s.accounts.mapValues .current
  pending : db.tables.pending = s.pending
  pendingV3 : db.pendingV3 = .empty
  representation : ∀ r, db.tables.representationGet r = s.representationGet r
  blocks : db.tables.blockDatabase = s.blockDatabase
  infos : ∀ h i, db.tables.blocksInfo.get h = some i ↔ InfoDue env s h i

variable {env : Env} {U : Set Block} {db db' : BlockTables} {R : BlockHash → Option StoredBlock}

def BlockLattice.rawKeeping (L : BlockLattice env U) (kept : BlockHash → Bool) (h : BlockHash) :
    Option StoredBlock :=
  (L.raw h).map (StoredBlock.keeping (kept h))

@[simp] theorem StoredBlock.block_keeping (kept : Bool) (v : StoredBlock) :
    (v.keeping kept).block = v.block := by
  unfold keeping
  split_ifs <;> rfl

@[simp] theorem StoredBlock.keeping_true (v : StoredBlock) : v.keeping true = v := if_pos rfl

theorem rawKeeping_true (L : BlockLattice env U) : L.rawKeeping (fun _ => true) = L.raw := by
  funext h
  unfold rawKeeping
  cases L.raw h <;> rfl

theorem BlockTables.Represents.keeping {kept : BlockHash → Bool} (hr : db.Represents R)
    (h : ∀ t h, (db' t).get h = ((db t).get h).map (StoredBlock.keeping (kept h))) :
    db'.Represents (fun h => (R h).map (StoredBlock.keeping (kept h))) := by
  intro t k
  rw [h, hr]
  beta_reduce
  cases R k with
  | none => rfl
  | some v => by_cases ht : v.block.type = t <;> simp [Option.filter, ht]

theorem BlockTables.Represents.unique (h : db.Represents R) (h' : db'.Represents R) : db = db' := by
  funext t
  ext1 k
  rw [h, h']

section Files

def pendingItemV3 (x : PendingKey × PendingInfo) : BlockHash × PendingInfoV3 :=
  (x.1.hash, ⟨x.2.source, x.2.amount, x.1.account⟩)

def Database.ofLedger (k : Nat) (s : BlockStore) : Database :=
  { Database.empty with
    tables :=
      { s with
        accounts := .empty
        pending := if 4 ≤ k then s.pending else .empty
        blocksInfo := .empty }
    accounts := s.accounts.mapValues (AccountInfo.layout k 0)
    pendingV3 :=
      if k ≤ 3 then
        (s.pending.entries.map pendingItemV3).foldl (fun t x => t.put x.1 x.2) .empty
      else
        .empty
    version := some k }

variable {s : BlockStore}

theorem mem_pendingItemV3_iff (h : BlockHash) (p : PendingInfoV3) :
    (h, p) ∈ s.pending.entries.map pendingItemV3 ↔
      s.pending.get ⟨p.destination, h⟩ = some ⟨p.source, p.amount⟩ := by
  rw [← Table.mem_entries_iff, List.mem_map]
  constructor
  · rintro ⟨⟨⟨a, h'⟩, ⟨source, amount⟩⟩, hmem, heq⟩
    obtain ⟨rfl, rfl⟩ := Prod.mk.inj heq
    exact hmem
  · intro hmem
    exact ⟨_, hmem, rfl⟩

theorem layout_ofLedger (k : Nat)
    (hunique : (s.pending.keys.map PendingKey.hash).Nodup) : Layout k s (.ofLedger k s) where
  version := .inl rfl
  accounts := ⟨fun _ => 0, fun a => Table.get_mapValues _ _ _⟩
  representation := fun _ => rfl
  pending := rfl
  pendingV3 := by
    intro h p
    unfold Database.ofLedger
    by_cases hk : k ≤ 3
    · have hnodup : ((s.pending.entries.map pendingItemV3).map Prod.fst).Nodup := by
        rw [Table.keys, List.map_map] at hunique
        rw [List.map_map]
        exact hunique
      simp only [if_pos hk]
      rw [Table.get_foldl_put_iff hnodup, mem_pendingItemV3_iff]
      simp [hk]
    · simp [hk]
  blocks := ⟨fun _ => true, fun _ _ => rfl, fun t h => by
    show (s.blockDatabase t).get h = _
    cases (s.blockDatabase t).get h <;> rfl⟩
  infos := rfl
  sequence := fun _ x hx => absurd hx (by simp [Database.ofLedger, Database.empty])

theorem Refines.nodup_pending {δ : Account → Uint128} {L : BlockLattice env U}
    (hR : Refines δ s L) : (s.pending.keys.map PendingKey.hash).Nodup := by
  have haccount : ∀ {key}, key ∈ s.pending.keys → ∃ e, L.find key.hash = some e ∧
      e.destination = some key.account := by
    intro key hkey
    obtain ⟨p, hp⟩ := Table.mem_keys_iff.mp hkey
    rw [hR.pending] at hp
    cases hfind : L.find key.hash with
    | none => simp [pendingInfo_of_find_none L hfind] at hp
    | some e =>
      rw [pendingInfo_of_find L hfind] at hp
      split_ifs at hp with hcond
      exact ⟨e, rfl, hcond.1⟩
  refine List.Nodup.map_on ?_ (s.pending.keys_sorted.imp (fun h => ne_of_lt h))
  intro key hkey key' hkey' heq
  obtain ⟨e, he, hdest⟩ := haccount hkey
  obtain ⟨e', he', hdest'⟩ := haccount hkey'
  rw [heq, he'] at he
  rw [← Option.some.inj he, hdest'] at hdest
  exact PendingKey.mk.injEq .. ▸ ⟨(Option.some.inj hdest).symm, heq⟩

end Files

section Next

variable {k : Nat} {s : BlockStore} {db : Database} (hlay : Layout k s db)
include hlay

/-! What the next version requires of the tables that a step leaves as they are. -/

theorem Layout.accounts_next (hk : 3 ≤ k) (hne : k ≠ 5) :
    ∃ rep : Account → BlockHash, ∀ a,
      db.accounts.get a = (s.accounts.get a).map (AccountInfo.layout (k + 1) (rep a)) := by
  obtain ⟨rep, hacc⟩ := hlay.accounts
  refine ⟨rep, fun a => ?_⟩
  have hsame : AccountInfo.layout (k + 1) (rep a) = AccountInfo.layout k (rep a) := by
    funext i
    unfold AccountInfo.layout
    split_ifs <;> first | rfl | omega
  rw [hacc, hsame]

theorem Layout.representation_next (hne : k ≠ 2) :
    3 ≤ k + 1 → db.tables.representation = s.representation :=
  fun h => hlay.representation (by omega)

theorem Layout.pending_next (hne : k ≠ 3) :
    db.tables.pending = if 4 ≤ k + 1 then s.pending else .empty := by
  rw [hlay.pending]
  grind

theorem Layout.pendingV3_next (hne : k ≠ 3) (h : BlockHash) (p : PendingInfoV3) :
    db.pendingV3.get h = some p ↔
      k + 1 ≤ 3 ∧ s.pending.get ⟨p.destination, h⟩ = some ⟨p.source, p.amount⟩ := by
  rw [hlay.pendingV3]
  exact and_congr_left' (by omega)

theorem Layout.blocks_next (hne : k ≠ 4) :
    ∃ kept : BlockHash → Bool, (5 ≤ k + 1 → ∀ h, kept h = true) ∧ ∀ t h,
      (db.tables.blockDatabase t).get h =
        ((s.blockDatabase t).get h).map (StoredBlock.keeping (kept h)) := by
  obtain ⟨kept, hall, hblocks⟩ := hlay.blocks
  exact ⟨kept, fun h => hall (by omega), hblocks⟩

theorem Layout.sequence_next : k + 1 ≤ 8 → ∀ x ∈ db.sequence, 8 ≤ x.2.length :=
  fun h => hlay.sequence (by omega)

end Next

section Reading

variable {k : Nat} {δ : Account → Uint128} {s : BlockStore} {db : Database}
variable {L : BlockLattice env U}

theorem Layout.keys (hlay : Layout k s db) : db.accounts.keys = s.accounts.keys := by
  obtain ⟨rep, hacc⟩ := hlay.accounts
  refine Table.keys_congr (fun a => ?_)
  rw [hacc, Option.map_map]

theorem Layout.blockCount (hlay : Layout k s db) : db.tables.blockCount = s.blockCount := by
  obtain ⟨kept, -, hblocks⟩ := hlay.blocks
  have hsize : ∀ t, (db.tables.blockDatabase t).size = (s.blockDatabase t).size := by
    intro t
    rw [← Table.length_keys, ← Table.length_keys]
    refine congrArg List.length (Table.keys_congr (fun h => ?_))
    rw [hblocks, Option.map_map]
  rw [BlockStore.blockCount_eq, BlockStore.blockCount_eq, BlockTables.size, BlockTables.size,
    hsize, hsize, hsize, hsize, hsize]

variable (hlay : Layout k s db) (hR : Refines δ s L)
include hlay hR

theorem Layout.represents :
    ∃ kept, (5 ≤ k → kept = fun _ => true) ∧
      BlockTables.Represents db.tables.blockDatabase (L.rawKeeping kept) := by
  obtain ⟨kept, hall, hblocks⟩ := hlay.blocks
  exact ⟨kept, fun h => funext (hall h), hR.blocks.keeping hblocks⟩

theorem Layout.blockGet {h : BlockHash} {e : Entry} (he : L.find h = some e) :
    db.tables.blockGet h = some e.block := by
  obtain ⟨kept, -, hr⟩ := hlay.represents hR
  rw [BlockStore.blockGet_eq hr, rawKeeping, raw_of_find L he]
  simp

theorem Layout.reads (G : ∀ b ∈ U, b.hash env ≠ env.genesisAccount) : Reads db.tables L where
  blocks := hlay.blockGet hR
  infos := by
    intro h e i _ _ hi
    simp [hlay.infos] at hi
  marker := by
    obtain ⟨kept, -, hr⟩ := hlay.represents hR
    rw [BlockStore.blockGet_eq hr, rawKeeping, raw_of_find_none L (find_genesisAccount G L)]
    rfl
  size := by
    rw [hlay.blockCount, hR.count]

end Reading

end Badem
