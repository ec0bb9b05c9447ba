import Badem.Core.BlockStore

/-!
# The five block tables as one function

As long as every table only holds blocks of its own type, the five tables represent one partial
function from hashes to stored blocks.
-/

namespace Badem

open Mdb

/-- The block tables, indexed by type. -/
abbrev BlockTables := BlockType → Table BlockHash StoredBlock

namespace BlockTables

def size (db : BlockTables) : Nat :=
  (db .send).size + (db .receive).size + (db .opening).size + (db .change).size +
    (db .state).size

theorem size_update (db : BlockTables) (t : BlockType) (x : Table BlockHash StoredBlock) :
    size (Function.update db t x) + (db t).size = db.size + x.size := by
  cases t <;> simp [size, Function.update] <;> omega

/-- The tables hold exactly the values of `R`, each in the table of its type. -/
def Represents (db : BlockTables) (R : BlockHash → Option StoredBlock) : Prop :=
  ∀ t h, (db t).get h = (R h).filter (fun v => decide (v.block.type = t))

namespace Represents

variable {db : BlockTables} {R : BlockHash → Option StoredBlock} {h : BlockHash} {v : StoredBlock}

theorem get_of_some (hr : db.Represents R) (hv : R h = some v) (t : BlockType) :
    (db t).get h = if v.block.type = t then some v else none := by
  rw [hr, hv]
  by_cases ht : v.block.type = t
  · simp [ht]
  · simp [ht, Option.filter]

theorem get_of_none (hr : db.Represents R) (hv : R h = none) (t : BlockType) :
    (db t).get h = none := by
  rw [hr, hv]
  rfl

theorem put (hr : db.Represents R) (hsame : ∀ w, R h = some w → w.block.type = v.block.type) :
    Represents
      (Function.update db v.block.type ((db v.block.type).put h v))
      (fun k => if k = h then some v else R k) := by
  intro t k
  beta_reduce
  by_cases ht : t = v.block.type
  · subst ht
    rw [Function.update_self, Table.get_put]
    by_cases hk : k = h
    · simp [hk, Option.filter]
    · rw [if_neg hk, if_neg hk, hr]
  · rw [Function.update_of_ne ht]
    by_cases hk : k = h
    · subst hk
      rw [if_pos rfl]
      have hne : v.block.type ≠ t := fun heq => ht heq.symm
      cases hR : R k with
      | none =>
        rw [hr.get_of_none hR]
        simp [Option.filter, hne]
      | some w =>
        rw [hr.get_of_some hR, hsame w hR]
        simp [Option.filter, hne]
    · rw [if_neg hk, hr]

theorem del (hr : db.Represents R) (hv : R h = some v) :
    Represents
      (Function.update db v.block.type ((db v.block.type).del h))
      (fun k => if k = h then none else R k) := by
  intro t k
  beta_reduce
  by_cases ht : t = v.block.type
  · subst ht
    rw [Function.update_self, Table.get_del]
    by_cases hk : k = h
    · simp [hk]
    · rw [if_neg hk, if_neg hk, hr]
  · rw [Function.update_of_ne ht]
    by_cases hk : k = h
    · subst hk
      have hne : v.block.type ≠ t := fun heq => ht heq.symm
      rw [hr.get_of_some hv, if_neg hne, if_pos rfl]
      rfl
    · rw [if_neg hk, hr]

theorem size_put_of_none (hr : db.Represents R) (v : StoredBlock) (hv : R h = none) :
    size (Function.update db v.block.type ((db v.block.type).put h v)) = db.size + 1 := by
  have hsize := size_update db v.block.type ((db v.block.type).put h v)
  rw [Table.size_put_of_get_none v (hr.get_of_none hv _)] at hsize
  omega

theorem size_put_of_some (hr : db.Represents R) {w : StoredBlock} (hw : R h = some w)
    (hsame : w.block.type = v.block.type) :
    size (Function.update db v.block.type ((db v.block.type).put h v)) = db.size := by
  have hget := hr.get_of_some hw v.block.type
  rw [if_pos hsame] at hget
  have hsize := size_update db v.block.type ((db v.block.type).put h v)
  rw [Table.size_put_of_get v hget] at hsize
  omega

theorem size_del (hr : db.Represents R) (hv : R h = some v) :
    size (Function.update db v.block.type ((db v.block.type).del h)) + 1 = db.size := by
  have hget := hr.get_of_some hv v.block.type
  rw [if_pos rfl] at hget
  have hsize := size_update db v.block.type ((db v.block.type).del h)
  have hdel := Table.size_del_of_get hget
  omega

theorem length_le_size (hr : db.Represents R) {l : List BlockHash} (hnodup : l.Nodup)
    (hl : ∀ h ∈ l, ∃ v, R h = some v) : l.length ≤ db.size := by
  let keys (t : BlockType) : List BlockHash := (db t).entries.map Prod.fst
  have hsub : l ⊆ keys .send ++ keys .receive ++ keys .opening ++ keys .change ++ keys .state := by
    intro h hh
    obtain ⟨v, hv⟩ := hl h hh
    have hget := hr.get_of_some hv v.block.type
    rw [if_pos rfl, ← Table.mem_entries_iff] at hget
    have hkey : h ∈ keys v.block.type := List.mem_map.mpr ⟨_, hget, rfl⟩
    simp only [List.mem_append]
    cases ht : v.block.type <;> rw [ht] at hkey <;> simp [hkey]
  have hle := (List.subperm_of_subset hnodup hsub).length_le
  simp only [keys, List.length_append, List.length_map] at hle
  exact hle

end Represents

end BlockTables

namespace BlockStore

open BlockTables

def withBlocks (s : BlockStore) (db : BlockTables) : BlockStore :=
  { s with
    sendBlocks := db .send
    receiveBlocks := db .receive
    openBlocks := db .opening
    changeBlocks := db .change
    stateBlocks := db .state }

@[simp] theorem blockDatabase_withBlocks (s : BlockStore) (db : BlockTables) :
    (s.withBlocks db).blockDatabase = db := by
  funext t
  cases t <;> rfl

@[simp] theorem withBlocks_withBlocks (s : BlockStore) (db db' : BlockTables) :
    (s.withBlocks db).withBlocks db' = s.withBlocks db' := rfl

theorem setBlockDatabase_eq (s : BlockStore) (t : BlockType) (x : Table BlockHash StoredBlock) :
    s.setBlockDatabase t x = s.withBlocks (Function.update s.blockDatabase t x) := by
  cases t <;> rfl

theorem blockPutRaw_eq (s : BlockStore) (t : BlockType) (h : BlockHash) (v : StoredBlock) :
    s.blockPutRaw t h v =
      s.withBlocks (Function.update s.blockDatabase t ((s.blockDatabase t).put h v)) :=
  s.setBlockDatabase_eq t _

theorem blockCount_eq (s : BlockStore) : s.blockCount = size s.blockDatabase := rfl

theorem blockExists_of_blockGet {s : BlockStore} {h : BlockHash} {b : Block}
    (hget : s.blockGet h = some b) : s.blockExists h = true := by
  by_contra hnot
  have hnone : s.blockGetRaw h = none := by
    unfold blockExists at hnot
    unfold blockGetRaw
    grind
  simp [blockGet, hnone] at hget

section Lookup

variable {s : BlockStore} {R : BlockHash → Option StoredBlock}
variable (hr : Represents s.blockDatabase R) {h : BlockHash} {v : StoredBlock}
include hr

theorem blockGetRaw_eq (h : BlockHash) :
    s.blockGetRaw h = (R h).map (fun v => (v.block.type, v)) := by
  have hsend : s.sendBlocks.get h = _ := hr .send h
  have hreceive : s.receiveBlocks.get h = _ := hr .receive h
  have hopen : s.openBlocks.get h = _ := hr .opening h
  have hchange : s.changeBlocks.get h = _ := hr .change h
  have hstate : s.stateBlocks.get h = _ := hr .state h
  unfold blockGetRaw
  rw [hsend, hreceive, hopen, hchange, hstate]
  cases R h with
  | none => rfl
  | some v => cases ht : v.block.type <;> simp [Option.filter, ht]

theorem blockGet_eq (h : BlockHash) : s.blockGet h = (R h).map StoredBlock.block := by
  rw [blockGet, blockGetRaw_eq hr]
  cases R h <;> rfl

theorem blockSuccessor_eq (h : BlockHash) :
    s.blockSuccessor h = ((R h).map StoredBlock.successor).getD 0 := by
  rw [blockSuccessor, blockGetRaw_eq hr]
  cases R h <;> rfl

theorem blockExists_eq (h : BlockHash) : s.blockExists h = (R h).isSome := by
  have hsend : s.sendBlocks.get h = _ := hr .send h
  have hreceive : s.receiveBlocks.get h = _ := hr .receive h
  have hopen : s.openBlocks.get h = _ := hr .opening h
  have hchange : s.changeBlocks.get h = _ := hr .change h
  have hstate : s.stateBlocks.get h = _ := hr .state h
  unfold blockExists
  rw [hsend, hreceive, hopen, hchange, hstate]
  cases R h with
  | none => rfl
  | some v => cases ht : v.block.type <;> simp [Option.filter, ht]

theorem blockDel_eq (hv : R h = some v) :
    s.blockDel h =
      .ok (s.withBlocks
        (Function.update s.blockDatabase v.block.type
          ((s.blockDatabase v.block.type).del h))) := by
  have hsend : s.sendBlocks.get h = _ := hr.get_of_some hv .send
  have hreceive : s.receiveBlocks.get h = _ := hr.get_of_some hv .receive
  have hopen : s.openBlocks.get h = _ := hr.get_of_some hv .opening
  have hchange : s.changeBlocks.get h = _ := hr.get_of_some hv .change
  have hstate : s.stateBlocks.get h = _ := hr.get_of_some hv .state
  unfold blockDel
  rw [hsend, hreceive, hopen, hchange, hstate]
  cases ht : v.block.type <;> simp [withBlocks, blockDatabase, Function.update]

theorem blockDel_spec (hv : R h = some v) :
    ∃ db : BlockTables, s.blockDel h = .ok (s.withBlocks db) ∧
      Represents db (fun k => if k = h then none else R k) ∧
      db.size + 1 = size s.blockDatabase :=
  ⟨_, blockDel_eq hr hv, hr.del hv, hr.size_del hv⟩

theorem stored_of_blockDel {s' : BlockStore} (hdel : s.blockDel h = .ok s') :
    ∃ v, R h = some v := by
  cases hv : R h with
  | some v => exact ⟨v, rfl⟩
  | none =>
    have hsend : s.sendBlocks.get h = none := hr.get_of_none hv .send
    have hreceive : s.receiveBlocks.get h = none := hr.get_of_none hv .receive
    have hopen : s.openBlocks.get h = none := hr.get_of_none hv .opening
    have hchange : s.changeBlocks.get h = none := hr.get_of_none hv .change
    have hstate : s.stateBlocks.get h = none := hr.get_of_none hv .state
    simp [blockDel, hsend, hreceive, hopen, hchange, hstate, require, bind, Except.bind] at hdel

theorem fillValue_spec (env : Env) {b : Block} (hv : R b.previous = some v) :
    ∃ db : BlockTables, s.fillValue env b = .ok (s.withBlocks db) ∧
      Represents db
        (fun k => if k = b.previous then some { v with successor := b.hash env } else R k) ∧
      db.size = size s.blockDatabase := by
  have hget : s.fillValue env b =
      .ok (s.blockPutRaw v.block.type b.previous { v with successor := b.hash env }) := by
    unfold fillValue
    rw [blockGetRaw_eq hr, hv]
    rfl
  rw [hget, blockPutRaw_eq]
  refine ⟨_, rfl, ?_, ?_⟩
  · refine hr.put (v := { v with successor := b.hash env }) ?_
    intro w hw
    rw [Option.some.inj (hw.symm.trans hv)]
  · exact hr.size_put_of_some (v := { v with successor := b.hash env }) hv rfl

end Lookup

theorem setPredecessor_of_opening (env : Env) (s : BlockStore) {b : Block} (hp : b.previous = 0)
    (ht : b.type = .opening ∨ b.type = .state) : s.setPredecessor env b = .ok s := by
  cases b with
  | openBlock b => rfl
  | stateBlock b => exact if_neg (not_not_intro hp)
  | _ => simp [Block.type] at ht

theorem setPredecessor_of_previous (env : Env) (s : BlockStore) {b : Block} (hp : b.previous ≠ 0) :
    s.setPredecessor env b = s.fillValue env b := by
  cases b with
  | openBlock b => simp [Block.previous] at hp
  | stateBlock b => exact if_pos hp
  | _ => rfl

def linkRaw (R : BlockHash → Option StoredBlock) (hash : BlockHash) (b : Block) :
    BlockHash → Option StoredBlock :=
  fun k =>
    if k = hash then some ⟨b, 0⟩
    else if k = b.previous then (R k).map (fun v => { v with successor := hash })
    else R k

def putRaw (R : BlockHash → Option StoredBlock) (hash : BlockHash) (b : Block)
    (successor : BlockHash) : BlockHash → Option StoredBlock :=
  fun k =>
    if k = hash then some ⟨b, successor⟩
    else if k = b.previous ∧ k ≠ 0 then (R k).map (fun v => { v with successor := hash })
    else R k

section Put

variable {s : BlockStore} {R : BlockHash → Option StoredBlock}
variable (hr : Represents s.blockDatabase R) {hash : BlockHash} {b : Block}
include hr

theorem blockPut_putRaw (env : Env) (successor : BlockHash)
    (hsucc : successor = 0 ∨ (R successor).isSome = true)
    (hsame : ∀ w, R hash = some w → w.block.type = b.type) (hhash : b.hash env = hash)
    (hopen : b.previous = 0 → b.type = .opening ∨ b.type = .state)
    (hprev : b.previous ≠ 0 → b.previous ≠ hash ∧ ∃ v, R b.previous = some v) :
    ∃ db : BlockTables, s.blockPut env hash b successor = .ok (s.withBlocks db) ∧
      Represents db (putRaw R hash b successor) ∧
      db.size = size s.blockDatabase + if (R hash).isSome = true then 0 else 1 := by
  have hput := hr.put (h := hash) (v := ⟨b, successor⟩) hsame
  have hsize : size (Function.update s.blockDatabase b.type
      ((s.blockDatabase b.type).put hash ⟨b, successor⟩)) =
      size s.blockDatabase + if (R hash).isSome = true then 0 else 1 := by
    cases hw : R hash with
    | none => exact hr.size_put_of_none ⟨b, successor⟩ hw
    | some w => exact hr.size_put_of_some (v := ⟨b, successor⟩) hw (hsame w hw)
  unfold blockPut
  rw [require_of (by rw [blockExists_eq hr]; exact hsucc), blockPutRaw_eq]
  by_cases hp : b.previous = 0
  · refine ⟨_, ?_, ?_, hsize⟩
    · simp [setPredecessor_of_opening env _ hp (hopen hp), hp, bind, Except.bind, pure, Except.pure]
    · convert hput using 1
      funext k
      unfold putRaw
      grind
  · obtain ⟨hne, v, hv⟩ := hprev hp
    have hdb : Represents
        (s.withBlocks (Function.update s.blockDatabase b.type
          ((s.blockDatabase b.type).put hash ⟨b, successor⟩))).blockDatabase
        (fun k => if k = hash then some ⟨b, successor⟩ else R k) := by
      rw [blockDatabase_withBlocks]
      exact hput
    obtain ⟨db, hfill, hrep, hsize'⟩ := fillValue_spec hdb env (b := b) (v := v) (by
      rw [if_neg hne, hv])
    rw [blockDatabase_withBlocks] at hsize'
    have hrep' : Represents db (putRaw R hash b successor) := by
      convert hrep using 1
      funext k
      unfold putRaw
      split_ifs <;> simp_all
    refine ⟨db, ?_, hrep', hsize'.trans hsize⟩
    have hlinked : (s.withBlocks db).blockSuccessor b.previous = hash := by
      rw [blockSuccessor_eq (R := putRaw R hash b successor) (by
        rw [blockDatabase_withBlocks]
        exact hrep')]
      rw [putRaw, if_neg hne, if_pos ⟨rfl, hp⟩, hv]
      rfl
    show (setPredecessor env _ b >>= _) = _
    rw [setPredecessor_of_previous env _ hp, hfill]
    simp [hlinked, bind, Except.bind, pure, Except.pure]

theorem blockPut_spec (env : Env) (hzero : R 0 = none) (hfresh : R hash = none)
    (hhash : b.hash env = hash) (hopen : b.previous = 0 → b.type = .opening ∨ b.type = .state)
    (hprev : b.previous ≠ 0 → ∃ v, R b.previous = some v) :
    ∃ db : BlockTables, s.blockPut env hash b 0 = .ok (s.withBlocks db) ∧
      Represents db (linkRaw R hash b) ∧
      db.size = size s.blockDatabase + 1 := by
  obtain ⟨db, hput, hrep, hsize⟩ := blockPut_putRaw hr env 0 (.inl rfl)
    (fun w hw => absurd (hfresh.symm.trans hw) (by simp)) hhash hopen (fun hp => by
      obtain ⟨v, hv⟩ := hprev hp
      refine ⟨?_, v, hv⟩
      rintro heq
      rw [heq, hfresh] at hv
      exact absurd hv (by simp))
  refine ⟨db, hput, ?_, by simpa [hfresh] using hsize⟩
  convert hrep using 1
  funext k
  unfold linkRaw putRaw
  split_ifs <;> simp_all

theorem blockSuccessorClear_spec (env : Env) {successor : BlockHash}
    (hb : R hash = some ⟨b, successor⟩) (hhash : b.hash env = hash)
    (hopen : b.previous = 0 → b.type = .opening ∨ b.type = .state) (hself : b.previous ≠ hash)
    (hprev : b.previous ≠ 0 → ∃ v, R b.previous = some v ∧ v.successor = hash) :
    ∃ db : BlockTables, s.blockSuccessorClear env hash = .ok (s.withBlocks db) ∧
      Represents db (fun k => if k = hash then some ⟨b, 0⟩ else R k) ∧
      db.size = size s.blockDatabase := by
  obtain ⟨db, hput, hrep, hsize⟩ := blockPut_putRaw hr env 0 (.inl rfl)
    (fun w hw => by rw [Option.some.inj (hw.symm.trans hb)]) hhash hopen (fun hp => by
      obtain ⟨v, hv, -⟩ := hprev hp
      exact ⟨hself, v, hv⟩)
  refine ⟨db, ?_, ?_, by simpa [hb] using hsize⟩
  · have hget : s.blockGet hash = some b := by
      rw [blockGet_eq hr, hb]
      rfl
    rw [blockSuccessorClear, hget]
    exact hput
  · convert hrep using 1
    funext k
    unfold putRaw
    by_cases hk : k = b.previous ∧ k ≠ 0
    · obtain ⟨v, hv, hsucc⟩ := hprev (by rw [← hk.1]; exact hk.2)
      have hvv : ({ v with successor := hash } : StoredBlock) = v := by
        rw [← hsucc]
      rw [if_pos hk, hk.1, hv, Option.map_some, hvv]
    · rw [if_neg hk]

end Put

end BlockStore

end Badem
