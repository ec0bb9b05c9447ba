import Badem.Refinement.ProcessRefusals
import Badem.Upgrades.Walks

/-!
# The steps of an upgrade

Each step of `do_upgrades` takes a ledger from the layout of its version to the next one.
-/

namespace Badem

open Mdb BlockLattice BlockStore

variable {env : Env} {U : Set Block} {L : BlockLattice env U} {k : Nat} {s : BlockStore}
variable {db : Database} {δ : Account → Uint128}

section Accounts

variable (hR : Refines δ s L)
include hR

theorem Refines.head_find {a : Account} {i : AccountInfo} (hi : s.accounts.get a = some i) :
    ∃ e, L.find i.head = some e ∧ L.head a = some e ∧ i.Describes e := by
  obtain ⟨e, he, hdesc⟩ := hR.head_of_account hi
  have hfind := ((L.head_eq_some_iff a e).mp he).1
  rw [← hdesc.head] at hfind
  exact ⟨e, hfind, he, hdesc⟩

theorem Refines.account_of_find (H : CollisionFree env U) {h : BlockHash} {e : Entry}
    (he : L.find h = some e) : e.account ∈ s.accounts.keys := by
  obtain ⟨x, hx, -⟩ := L.exists_head_of_find H he
  obtain ⟨i, hi, -⟩ := hR.account_of_head hx
  exact Table.mem_keys_iff.mpr ⟨i, hi⟩

end Accounts

theorem exists_info_of_mem {rep : Account → BlockHash} {t : Table Account AccountRecord}
    (hacc : ∀ a, t.get a = (s.accounts.get a).map (AccountInfo.layout k (rep a)))
    {x : Account × AccountRecord} (hx : x ∈ t.entries) :
    ∃ a i, s.accounts.get a = some i ∧ x = (a, i.layout k (rep a)) := by
  obtain ⟨a, record⟩ := x
  rw [Table.mem_entries_iff, hacc] at hx
  obtain ⟨i, hi, rfl⟩ := Option.map_eq_some_iff.mp hx
  exact ⟨a, i, hi, rfl⟩

section Relaid

def Relaid (k : Nat) (s : BlockStore) (rep : Account → BlockHash) (visited : List Account)
    (t : Table Account AccountRecord) : Prop :=
  ∀ a, t.get a =
    (s.accounts.get a).map (AccountInfo.layout (if a ∈ visited then k + 1 else k) (rep a))

variable {rep : Account → BlockHash} {visited : List Account} {t : Table Account AccountRecord}

theorem Relaid.keys (ht : Relaid k s rep visited t) : t.keys = s.accounts.keys := by
  refine Table.keys_congr (fun a => ?_)
  rw [ht, Option.map_map]

theorem Relaid.put (ht : Relaid k s rep visited t) {a : Account} {i : AccountInfo}
    (hi : s.accounts.get a = some i) :
    Relaid k s rep (visited ++ [a]) (t.put a (i.layout (k + 1) (rep a))) := by
  intro a'
  rw [Table.get_put]
  by_cases ha : a' = a
  · simp [ha, hi]
  · rw [if_neg ha, ht]
    simp [ha]

theorem Relaid.done (ht : Relaid k s rep visited t) (hall : ∀ a ∈ s.accounts.keys, a ∈ visited)
    (a : Account) : t.get a = (s.accounts.get a).map (AccountInfo.layout (k + 1) (rep a)) := by
  rw [ht]
  cases hi : s.accounts.get a with
  | none => rfl
  | some i => rw [if_pos (hall a (Table.mem_keys_iff.mpr ⟨i, hi⟩))]

end Relaid

section VersionTwo

theorem upgradeAccounts_spec
    {T : BlockStore}
    (hopen : ∀ {a i}, s.accounts.get a = some i → ∀ rep,
      AccountInfoV1.withOpenBlock env T ⟨i.head, rep, i.balance, i.modified⟩ =
        .ok ⟨i.head, rep, i.openBlock, i.balance, i.modified⟩)
    (rep : Account → BlockHash) (rest : List Account) :
    ∀ (below : List Account) (account : Account) (db : Database) (fuel : Nat),
      db.tables = T → s.accounts.keys = below ++ rest → Relaid 1 s rep below db.accounts →
      rest.length + 2 ≤ fuel →
      (account = 0 → rest = []) → (account ≠ 0 → ∀ x ∈ below, x < account) →
      (∀ x ∈ rest, account ≤ x) →
      ∃ t, upgradeAccounts env fuel account db = .ok { db with accounts := t } ∧
        Relaid 1 s rep s.accounts.keys t := by
  induction rest with
  | nil =>
    intro below account db fuel hT hkeys hacc hfuel hzero hbelow hrest
    rw [List.append_nil] at hkeys
    obtain ⟨fuel, rfl⟩ : ∃ f, fuel = f + 2 := ⟨fuel - 2, by simp at hfuel; omega⟩
    refine ⟨db.accounts, ?_, by rw [hkeys]; exact hacc⟩
    rw [upgradeAccounts]
    by_cases hz : account = 0
    · rw [if_neg (not_not_intro hz)]
    · rw [if_pos hz, Table.lowerBound_eq_none]
      · simp only [upgradeAccounts, ne_eq, not_true_eq_false, if_false]
      · rw [hacc.keys, hkeys]
        exact hbelow hz
  | cons a rest ih =>
    intro below account db fuel hT hkeys hacc hfuel hzero hbelow hrest
    subst hT
    obtain ⟨fuel, rfl⟩ : ∃ f, fuel = f + 1 := ⟨fuel - 1, by omega⟩
    have hz : account ≠ 0 := fun hz => absurd (hzero hz) (by simp)
    obtain ⟨record, hrecord, hseek⟩ := Table.lowerBound_of_keys (hacc.keys.trans hkeys)
      (hbelow hz) (hrest a (.head _))
    have hsorted := s.accounts.keys_sorted
    rw [hkeys, List.pairwise_append] at hsorted
    have hafter := (List.pairwise_cons.mp hsorted.2.1).1
    have hnew : a ∉ below := fun hmem =>
      lt_irrefl a (hsorted.2.2 a hmem a (.head _))
    rw [hacc, if_neg hnew] at hrecord
    obtain ⟨i, hi, rfl⟩ := Option.map_eq_some_iff.mp hrecord
    rw [upgradeAccounts, if_pos hz, hseek]
    simp only [AccountInfo.layout, if_true, AccountRecord.toV1, ok_bind, hopen hi]
    refine ih (below ++ [a]) (a + 1) (db.accountPut a (i.layout 2 (rep a))) fuel rfl
      (by rw [hkeys, List.append_assoc]; rfl) (hacc.put hi) (by simpa using hfuel) ?_ ?_ ?_
    · intro hwrap
      refine List.eq_nil_iff_forall_not_mem.mpr (fun x hx => ?_)
      exact add_one_ne_zero_of_lt (hafter x hx) hwrap
    · intro hne x hx
      rcases List.mem_append.mp hx with hx | hx
      · exact (hsorted.2.2 x hx a (.head _)).trans (lt_add_one_of_ne_zero hne)
      · grind
    · intro x hx
      exact add_one_le_of_lt (hafter x hx)

theorem exists_upgradeV1ToV2 (hR : Refines δ s L) (hlay : Layout 1 s db) :
    ∃ db', upgradeV1ToV2 env db = .ok db' ∧ Layout 2 s db' := by
  obtain ⟨rep, hacc⟩ := hlay.accounts
  have hopen : ∀ {a i}, s.accounts.get a = some i → ∀ rep,
      AccountInfoV1.withOpenBlock env db.tables ⟨i.head, rep, i.balance, i.modified⟩ =
        .ok ⟨i.head, rep, i.openBlock, i.balance, i.modified⟩ := by
    intro a i hi rep
    obtain ⟨e, he, -, hdesc⟩ := hR.head_find hi
    have hle : e.height ≤ db.tables.blockCount := by
      rw [hlay.blockCount, hR.count]
      exact L.height_le_size he
    obtain ⟨b, hfirst, hhash⟩ := firstBlock_eq (hlay.blockGet hR) e.height he rfl
      (db.tables.blockCount + 1) (by omega)
    rw [AccountInfoV1.withOpenBlock, hlay.blockGet hR he]
    simp only [deref_some, ok_bind, hfirst, hhash, hdesc.openBlock]
    rfl
  obtain ⟨t, hrun, ht⟩ := upgradeAccounts_spec hopen rep s.accounts.keys [] 1 (db.versionPut 2)
    (db.accounts.size + 2) rfl rfl hacc
    (by rw [← hlay.keys, Table.length_keys])
    (fun h => absurd h (by decide)) (fun _ x hx => absurd hx (by simp))
    (by
      intro x hx
      obtain ⟨i, hi⟩ := Table.mem_keys_iff.mp hx
      obtain ⟨e, he, hhead, -⟩ := hR.head_find hi
      have hne := L.account_ne_zero he
      rw [((L.head_eq_some_iff x e).mp hhead).2.1] at hne
      bv_omega)
  exact ⟨_, hrun,
    { version := .inl rfl
      accounts := ⟨rep, ht.done (fun _ => id)⟩
      representation := hlay.representation_next (by decide)
      pending := hlay.pending_next (by decide)
      pendingV3 := hlay.pendingV3_next (by decide)
      blocks := hlay.blocks_next (by decide)
      infos := hlay.infos
      sequence := hlay.sequence_next }⟩

end VersionTwo

section VersionThree

def Weighed (L : BlockLattice env U) (s : BlockStore) (db : Database) (rep : Account → BlockHash)
    (visited : List Account) (db' : Database) : Prop :=
  ∃ t weights,
    db' = { db.versionPut 3 with
      accounts := t, tables := { db.tables with representation := weights } } ∧
    Relaid 2 s rep visited t ∧
    ∀ r, (weights.get r).getD 0 = (visited.map
      (s.accounts.summandAt (fun _ i => L.gain i.repBlock i.balance r))).sum

variable (H : CollisionFree env U)
include H

theorem upgradeRepresentative_eq (db : Database) (hT : Reads db.tables L) (hR : Refines δ s L)
    {a : Account} {i : AccountInfo} (hi : s.accounts.get a = some i) (rep : BlockHash) :
    ∃ e, L.find i.repBlock = some e ∧
      upgradeRepresentative env db (a, i.layout 2 rep) =
        .ok { db.accountPut a (i.layout 3 rep) with
          tables := db.tables.addWeight e.block.representative i.balance } := by
  obtain ⟨x, hx, -, hdesc⟩ := hR.head_find hi
  obtain ⟨e, he, -⟩ := L.exists_repBlock_of_find hx
  rw [← hdesc.repBlock] at he
  have hvisit : Ledger.representativeCalculated env db.tables i.head = .ok i.repBlock := by
    rw [representativeCalculated_eq H hT hx, hdesc.repBlock]
  refine ⟨e, he, ?_⟩
  unfold upgradeRepresentative
  refine bind_eq_of_ok (show (i.layout 2 rep).toV5 = .ok _ from rfl) ?_
  refine bind_eq_of_ok hvisit ?_
  refine bind_eq_of_ok (require_of (L.hash_ne_zero H he)) ?_
  refine bind_eq_of_ok (representationAdd_eq i.balance (hT.blocks he)) ?_
  rfl

theorem Weighed.step (hR : Refines δ s L) (hT : Reads db.tables L) {rep : Account → BlockHash}
    (hacc : ∀ a, db.accounts.get a = (s.accounts.get a).map (AccountInfo.layout 2 (rep a)))
    {visited : List Account} {x : Account × AccountRecord} {db' : Database}
    (hx : x ∈ db.accounts.entries) (hw : Weighed L s db rep visited db') :
    ∃ db'', upgradeRepresentative env db' x = .ok db'' ∧
      Weighed L s db rep (visited ++ [x.1]) db'' := by
  obtain ⟨t, weights, rfl, ht, hweights⟩ := hw
  obtain ⟨a, i, hi, rfl⟩ := exists_info_of_mem hacc hx
  have hreads : Reads { db.tables with representation := weights } L :=
    ⟨hT.blocks, hT.infos, hT.marker, hT.size⟩
  obtain ⟨e, he, hrun⟩ := upgradeRepresentative_eq H
    { db.versionPut 3 with
      accounts := t, tables := { db.tables with representation := weights } } hreads hR hi (rep a)
  refine ⟨_, hrun, _, _, rfl, ht.put hi, fun r => ?_⟩
  have hadd := representationGet_addWeight_of_find L
    { db.tables with representation := weights } he i.balance r
  rw [List.map_append, List.sum_append, ← hweights, List.map_singleton, List.sum_singleton,
    Table.summandAt_of_get _ hi]
  exact hadd

theorem exists_upgradeV2ToV3 (G : ∀ b ∈ U, b.hash env ≠ env.genesisAccount)
    (hR : Refines (fun _ => 0) s L) (hlay : Layout 2 s db) :
    ∃ db' weights, upgradeV2ToV3 env db = .ok db' ∧
      Layout 3 { s with representation := weights } db' ∧
      ∀ r, (weights.get r).getD 0 = s.representationGet r := by
  obtain ⟨rep, hacc⟩ := hlay.accounts
  have hstart : Weighed L s db rep []
      { db.versionPut 3 with tables := { db.tables with representation := .empty } } :=
    ⟨db.accounts, .empty, rfl, hacc, fun r => rfl⟩
  obtain ⟨db', hrun, t, weights, rfl, ht, hweights⟩ :=
    exists_foldlM (l := db.accounts.entries)
      (fun visited => Weighed L s db rep (visited.map Prod.fst))
      (fun pre x post db' hsplit hw => by
        rw [List.map_append]
        exact hw.step H hR (hlay.reads hR G) hacc (by simp [hsplit])) hstart
  have hkeys : db.accounts.entries.map Prod.fst = s.accounts.keys := hlay.keys
  rw [hkeys] at ht hweights
  refine ⟨_, weights, hrun, ?_, fun r => ?_⟩
  · exact
      { version := .inl rfl
        accounts := ⟨rep, ht.done (fun _ => id)⟩
        representation := fun _ => rfl
        pending := hlay.pending_next (by decide)
        pendingV3 := hlay.pendingV3_next (by decide)
        blocks := hlay.blocks_next (by decide)
        infos := hlay.infos
        sequence := hlay.sequence_next }
  · rw [hweights, hR.weights, add_zero]
    exact (Table.sum_eq_sum_keys _ _ (fun a i hi => (Table.summandAt_of_get _ hi).symm)).symm

end VersionThree

section VersionFour

theorem foldl_pendingPut (items : List (PendingKey × PendingInfo)) (s : BlockStore) :
    items.foldl (fun s item => s.pendingPut item.1 item.2) s =
      { s with pending := items.foldl (fun t item => t.put item.1 item.2) s.pending } := by
  induction items generalizing s with
  | nil => rfl
  | cons item items ih =>
    rw [List.foldl_cons, ih]
    rfl

theorem foldl_pendingItem (hlay : Layout 3 s db) :
    (db.pendingV3.entries.map pendingItem).foldl (fun t item => t.put item.1 item.2) .empty =
      s.pending := by
  have hitem : ∀ item, item ∈ db.pendingV3.entries.map pendingItem ↔
      s.pending.get item.1 = some item.2 := by
    rintro ⟨⟨account, h⟩, ⟨source, amount⟩⟩
    constructor
    · intro hmem
      obtain ⟨⟨h', p⟩, hx, heq⟩ := List.mem_map.mp hmem
      have hget := ((hlay.pendingV3 h' p).mp ((db.pendingV3.mem_entries_iff h' p).mp hx)).2
      obtain ⟨hkey, hinfo⟩ := Prod.mk.inj heq
      rw [← hkey, ← hinfo]
      exact hget
    · intro hget
      refine List.mem_map.mpr ⟨(h, ⟨source, amount, account⟩), ?_, rfl⟩
      exact (db.pendingV3.mem_entries_iff _ _).mpr ((hlay.pendingV3 h _).mpr ⟨by decide, hget⟩)
  ext1 key
  rw [Table.get_foldl_put (fun key => (s.pending.get key).getD ⟨0, 0⟩)
    (fun item hmem => by rw [(hitem item).mp hmem]; rfl)]
  cases hget : s.pending.get key with
  | none =>
    rw [if_neg]
    · rfl
    · intro hmem
      obtain ⟨item, hitem', rfl⟩ := List.mem_map.mp hmem
      simp [(hitem item).mp hitem'] at hget
  | some p =>
    rw [if_pos (List.mem_map.mpr ⟨(key, p), (hitem _).mpr hget, rfl⟩)]
    rfl

theorem exists_upgradeV3ToV4 (hlay : Layout 3 s db) :
    ∃ db', upgradeV3ToV4 db = .ok db' ∧ Layout 4 s db' := by
  have hempty : db.tables.pending.entries = [] := by
    rw [hlay.pending]
    rfl
  have hrun : upgradeV3ToV4 db = .ok
      { db.versionPut 4 with
        pendingV3 := .empty, tables := { db.tables with pending := s.pending } } := by
    unfold upgradeV3ToV4
    refine bind_eq_of_ok (require_of hempty) ?_
    rw [← foldl_pendingItem hlay]
    simp only [foldl_pendingPut]
    rfl
  refine ⟨_, hrun, ?_⟩
  exact
    { version := .inl rfl
      accounts := hlay.accounts_next (by decide) (by decide)
      representation := hlay.representation_next (by decide)
      pending := rfl
      pendingV3 := fun h p => by simp
      blocks := hlay.blocks_next (by decide)
      infos := hlay.infos
      sequence := hlay.sequence_next }

end VersionFour

section VersionFive

def Linked (L : BlockLattice env U) (db : Database) (visited : List Account) (db' : Database) :
    Prop :=
  ∃ kept, ∃ blocks : BlockTables,
    db' = { db.versionPut 5 with tables := db.tables.withBlocks blocks } ∧
    blocks.Represents (L.rawKeeping kept) ∧ blocks.size = L.entries.size ∧
    ∀ {h e}, L.find h = some e → e.account ∈ visited → L.rawKeeping kept h = L.raw h

variable (H : CollisionFree env U)
include H

theorem Linked.step (hR : Refines δ s L) {rep : Account → BlockHash}
    (hacc : ∀ a, db.accounts.get a = (s.accounts.get a).map (AccountInfo.layout 4 (rep a)))
    {visited : List Account} {x : Account × AccountRecord} {db' : Database}
    (hx : x ∈ db.accounts.entries) (hl : Linked L db visited db') :
    ∃ db'', upgradeSuccessors env db' x = .ok db'' ∧ Linked L db (visited ++ [x.1]) db'' := by
  obtain ⟨kept, blocks, rfl, hrep, hsize, hdone⟩ := hl
  obtain ⟨a, i, hi, rfl⟩ := exists_info_of_mem hacc hx
  obtain ⟨e, he, hhead, hdesc⟩ := hR.head_find hi
  obtain ⟨-, hea, hchild⟩ := (L.head_eq_some_iff a e).mp hhead
  rw [← hdesc.head] at hchild
  have hr : BlockTables.Represents (db.tables.withBlocks blocks).blockDatabase
      (L.rawKeeping kept) := by
    rwa [blockDatabase_withBlocks]
  have hcount : (db.tables.withBlocks blocks).blockCount = L.entries.size := hsize
  have hget : (db.tables.withBlocks blocks).blockGet i.head = some e.block := by
    rw [blockGet_eq hr, rawKeeping, raw_of_find L he]
    simp
  have hle := L.height_le_size he
  obtain ⟨kept', blocks', hfill, hrep', hsize', hmono, hchain⟩ :=
    fillSuccessors_spec H e.height he rfl ((db.tables.withBlocks blocks).blockCount + 2) kept
      (db.tables.withBlocks blocks) (by omega) hr
  rw [L.successor_of_child_none hchild, ← hget] at hfill
  rw [blockDatabase_withBlocks] at hsize'
  refine ⟨_, ?_, kept', blocks', rfl, hrep', hsize'.trans hsize, ?_⟩
  · unfold upgradeSuccessors
    refine bind_eq_of_ok (show (i.layout 4 (rep a)).toV5 = .ok _ from rfl) ?_
    exact bind_eq_of_ok hfill rfl
  · intro h y hy hmem
    rcases List.mem_append.mp hmem with hmem | hmem
    · exact hmono (hdone hy hmem)
    · have hya : y.account = a := List.mem_singleton.mp hmem
      exact hchain hy (hya.trans hea.symm) (L.height_le_head H hhead hy hya)

theorem exists_upgradeV4ToV5 (hR : Refines δ s L) (hlay : Layout 4 s db) :
    ∃ db', upgradeV4ToV5 env db = .ok db' ∧ Layout 5 s db' := by
  obtain ⟨rep, hacc⟩ := hlay.accounts
  obtain ⟨kept, -, hrep⟩ := hlay.represents hR
  have hsize : BlockTables.size db.tables.blockDatabase = L.entries.size := by
    rw [← blockCount_eq, hlay.blockCount, hR.count]
  have hstart : Linked L db [] (db.versionPut 5) :=
    ⟨kept, db.tables.blockDatabase, rfl, hrep, hsize, fun _ hmem => absurd hmem (by simp)⟩
  obtain ⟨db', hrun, kept', blocks, rfl, hrep', -, hdone⟩ :=
    exists_foldlM (l := db.accounts.entries)
      (fun visited => Linked L db (visited.map Prod.fst))
      (fun pre x post db' hsplit hl => by
        rw [List.map_append]
        exact hl.step H hR hacc (by simp [hsplit])) hstart
  have hraw : L.rawKeeping kept' = L.raw := by
    funext h
    cases hfind : L.find h with
    | none =>
      rw [rawKeeping, raw_of_find_none L hfind]
      rfl
    | some e =>
      refine hdone hfind ?_
      have hmem := hR.account_of_find H hfind
      rwa [← hlay.keys] at hmem
  rw [hraw] at hrep'
  refine ⟨_, hrun, ?_⟩
  exact
    { version := .inl rfl
      accounts := hlay.accounts_next (by decide) (by decide)
      representation := hlay.representation_next (by decide)
      pending := hlay.pending_next (by decide)
      pendingV3 := hlay.pendingV3_next (by decide)
      blocks := ⟨fun _ => true, fun _ _ => rfl, fun t h => by
        rw [blockDatabase_withBlocks, hrep'.unique hR.blocks]
        cases (s.blockDatabase t).get h <;> rfl⟩
      infos := hlay.infos
      sequence := hlay.sequence_next }

end VersionFive

section VersionSix

theorem foldl_accountPut (headers : List (Account × AccountInfo)) (db : Database) :
    headers.foldl (fun db x => db.accountPut x.1 (.current x.2)) db =
      { db with
        accounts := (headers.map (fun x => (x.1, AccountRecord.current x.2))).foldl
          (fun t x => t.put x.1 x.2) db.accounts } := by
  induction headers generalizing db with
  | nil => rfl
  | cons x headers ih =>
    rw [List.foldl_cons, ih]
    rfl

theorem countedHeader_eq (H : CollisionFree env U) (hR : Refines δ s L) (hlay : Layout 5 s db)
    {x : Account × AccountRecord} (hx : x ∈ db.accounts.entries) :
    countedHeader db.tables x = .ok (x.1, (s.accounts.get x.1).getD .zero) := by
  obtain ⟨rep, hacc⟩ := hlay.accounts
  obtain ⟨a, i, hi, rfl⟩ := exists_info_of_mem hacc hx
  obtain ⟨e, he, -, hdesc⟩ := hR.head_find hi
  have hle : e.height ≤ db.tables.blockCount := by
    rw [hlay.blockCount, hR.count]
    exact L.height_le_size he
  unfold countedHeader
  refine bind_eq_of_ok (show (i.layout 5 (rep a)).toV5 = .ok _ from rfl) ?_
  refine bind_eq_of_ok (countBlocks_eq (hlay.blockGet hR) H e.height he rfl _ 0 (by omega)) ?_
  rw [zero_add, ← hdesc.blockCount, hi]
  rfl

theorem get_headers (hlay : Layout 5 s db) (a : Account) :
    (if a ∈ db.accounts.keys then some (AccountRecord.current ((s.accounts.get a).getD .zero))
      else db.accounts.get a) = (s.accounts.get a).map .current := by
  rw [hlay.keys]
  cases hi : s.accounts.get a with
  | none =>
    obtain ⟨rep, hacc⟩ := hlay.accounts
    rw [if_neg, hacc, hi]
    · rfl
    · intro hmem
      obtain ⟨i, hi'⟩ := Table.mem_keys_iff.mp hmem
      exact absurd (hi.symm.trans hi') (by simp)
  | some i =>
    rw [if_pos (Table.mem_keys_iff.mpr ⟨i, hi⟩)]
    rfl

theorem exists_upgradeV5ToV6 (H : CollisionFree env U) (hR : Refines δ s L)
    (hlay : Layout 5 s db) : ∃ db', upgradeV5ToV6 db = .ok db' ∧ Layout 6 s db' := by
  obtain ⟨rep, hacc⟩ := hlay.accounts
  have hrun : upgradeV5ToV6 db = .ok ((db.accounts.entries.map (fun x =>
      (x.1, (s.accounts.get x.1).getD .zero))).foldl
        (fun db x => db.accountPut x.1 (.current x.2)) (db.versionPut 6)) := by
    unfold upgradeV5ToV6
    exact bind_eq_of_ok (mapM_eq_map (fun x hx => countedHeader_eq H hR hlay hx)) rfl
  rw [foldl_accountPut, List.map_map] at hrun
  refine ⟨_, hrun, ?_⟩
  exact
    { version := .inl rfl
      accounts := ⟨rep, fun a => by
        rw [Table.get_foldl_put (fun a => .current ((s.accounts.get a).getD .zero)) (by
          intro x hx
          obtain ⟨y, -, rfl⟩ := List.mem_map.mp hx
          rfl), List.map_map]
        exact get_headers hlay a⟩
      representation := hlay.representation_next (by decide)
      pending := hlay.pending_next (by decide)
      pendingV3 := hlay.pendingV3_next (by decide)
      blocks := hlay.blocks_next (by decide)
      infos := hlay.infos
      sequence := hlay.sequence_next }

end VersionSix

section VersionNine

theorem Layout.relabel (hlay : Layout k s db) (hk : 6 ≤ k) {db' : Database}
    (hversion : db'.version = some (k + 1)) (htables : db'.tables = db.tables)
    (haccounts : db'.accounts = db.accounts) (hpending : db'.pendingV3 = db.pendingV3)
    (hsequence : k + 1 ≤ 8 → db'.sequence = db.sequence) : Layout (k + 1) s db' where
  version := .inl hversion
  accounts := by
    rw [haccounts]
    exact hlay.accounts_next (by omega) (by omega)
  representation := by
    rw [htables]
    exact hlay.representation_next (by omega)
  pending := by
    rw [htables]
    exact hlay.pending_next (by omega)
  pendingV3 := by
    rw [hpending]
    exact hlay.pendingV3_next (by omega)
  blocks := by
    rw [htables]
    exact hlay.blocks_next (by omega)
  infos := by
    rw [htables]
    exact hlay.infos
  sequence := by
    intro h
    rw [hsequence h]
    exact hlay.sequence_next h

theorem exists_upgradeSequence (env : Env) (junk : Account → Uint64 → Signature)
    (votes : Table Account Vote) {x : Account × List Uint8} (hlen : 8 ≤ x.2.length) :
    ∃ votes', upgradeSequence env junk votes x = .ok votes' := by
  have hread : Codec.readLittle 64 x.2 =
      some (Codec.ofLittleEndian 64 (x.2.take 8), x.2.drop 8) :=
    Codec.bind_iff.mpr ⟨x.2.take 8, x.2.drop 8,
      Codec.take_iff.mpr ⟨List.length_take_of_le hlen, (List.take_append_drop 8 x.2).symm⟩, rfl⟩
  unfold upgradeSequence
  rw [hread]
  exact ⟨_, rfl⟩

theorem exists_upgradeV8ToV9 (env : Env) (junk : Account → Uint64 → Signature)
    (hlay : Layout 8 s db) : ∃ db', upgradeV8ToV9 env junk db = .ok db' ∧ Layout 9 s db' := by
  obtain ⟨votes, hrun, -⟩ := exists_foldlM (l := db.sequence) (f := upgradeSequence env junk)
    (s := db.vote) (fun _ _ => True)
    (by
      intro pre x post votes hsplit _
      obtain ⟨votes', hstep⟩ := exists_upgradeSequence env junk votes
        (hlay.sequence le_rfl x (by simp [hsplit]))
      exact ⟨votes', hstep, trivial⟩)
    trivial
  refine ⟨{ db.versionPut 9 with vote := votes, sequence := [] }, ?_, ?_⟩
  · unfold upgradeV8ToV9
    exact bind_eq_of_ok hrun rfl
  · exact hlay.relabel (by decide) rfl rfl rfl rfl (fun h => absurd h (by decide))

end VersionNine

section VersionTen

def Informed (L : BlockLattice env U) (T : BlockStore) (visited : List Account)
    (tables : BlockStore) : Prop :=
  ∃ t, tables = { T with blocksInfo := t } ∧ InfosOf L (fun e => e.account ∈ visited) t

variable (H : CollisionFree env U) (G : ∀ b ∈ U, b.hash env ≠ env.genesisAccount)
include H G

theorem Informed.step (hR : Refines δ s L) {T : BlockStore}
    (hr : BlockTables.Represents T.blockDatabase L.raw) (hcount : T.blockCount = L.entries.size)
    {visited : List Account} {a : Account} {i : AccountInfo} {tables : BlockStore}
    (hi : s.accounts.get a = some i) (ht : Informed L T visited tables) :
    ∃ tables', upgradeInfos env tables (a, .current i) = .ok tables' ∧
      Informed L T (visited ++ [a]) tables' := by
  obtain ⟨t, rfl, hinfos⟩ := ht
  obtain ⟨e, he, hhead, hdesc⟩ := hR.head_find hi
  have hea := ((L.head_eq_some_iff a e).mp hhead).2.1
  by_cases hcond : blockInfoMax ≤ i.blockCount
  · obtain ⟨o, ho, hz, hoacc⟩ := exists_opening e.height he rfl
    have hone := (L.opening ho hz).height
    obtain ⟨t', hrun, hinfos'⟩ := storeInfos_spec G H (T.blockCount + 1)
      { T with blocksInfo := t } ho (by omega) hr hcount hinfos
    rw [hone, hoacc, hea, ← hdesc.openBlock] at hrun
    refine ⟨_, ?_, t', rfl, hinfos'.congr ?_⟩
    · unfold upgradeInfos
      refine bind_eq_of_ok (show (AccountRecord.current i).toCurrent = .ok i from rfl) ?_
      rw [if_pos hcond]
      exact hrun
    · intro k x hx _
      have hpos := L.height_pos hx
      rw [List.mem_append, List.mem_singleton, hone, hoacc, hea]
      exact or_congr_right ⟨fun h => h.1, fun h => ⟨h, hpos⟩⟩
  · refine ⟨_, ?_, t, rfl, hinfos.congr ?_⟩
    · unfold upgradeInfos
      refine bind_eq_of_ok (show (AccountRecord.current i).toCurrent = .ok i from rfl) ?_
      rw [if_neg hcond]
      rfl
    · -- a shorter chain has no block at such a position
      intro k x hx hmod
      rw [List.mem_append, List.mem_singleton]
      refine ⟨Or.inl, ?_⟩
      rintro (hmem | hxa)
      · exact hmem
      · have hle := L.height_le_head H hhead hx hxa
        have hpos := L.height_pos hx
        rw [hdesc.blockCount] at hcond
        have hlt : x.height < blockInfoMax := by omega
        rw [Nat.mod_eq_of_lt hlt] at hmod
        omega

theorem exists_upgradeV9ToV10 (hR : Refines δ s L) (hlay : Layout 9 s db) :
    ∃ t, upgradeV9ToV10 env db =
        .ok { db.versionPut 10 with tables := { db.tables with blocksInfo := t } } ∧
      InfosOf L (fun _ => True) t := by
  obtain ⟨rep, hacc⟩ := hlay.accounts
  obtain ⟨kept, hkept, hrep⟩ := hlay.represents hR
  rw [hkept (by decide), rawKeeping_true] at hrep
  have hstart : Informed L db.tables [] db.tables := by
    refine ⟨db.tables.blocksInfo, rfl, fun h i => ?_⟩
    rw [hlay.infos]
    simp
  obtain ⟨tables, hrun, t, rfl, hinfos⟩ :=
    exists_foldlM (l := db.accounts.entries) (f := upgradeInfos env)
      (fun visited => Informed L db.tables (visited.map Prod.fst))
      (fun pre x post tables hsplit ht => by
        obtain ⟨a, i, hi, rfl⟩ := exists_info_of_mem hacc (x := x) (by simp [hsplit])
        rw [List.map_append]
        exact ht.step H G hR hrep (hlay.blockCount.trans hR.count) hi) hstart
  refine ⟨t, ?_, hinfos.congr ?_⟩
  · unfold upgradeV9ToV10
    exact bind_eq_of_ok hrun rfl
  · intro h e he _
    have hmem := hR.account_of_find H he
    rw [← hlay.keys] at hmem
    exact iff_true_intro hmem

end VersionTen

end Badem
