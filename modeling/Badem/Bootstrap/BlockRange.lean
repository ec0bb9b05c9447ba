import Badem.Core.Bootstrap
import Badem.Ledger.MarkerHashes
import Badem.Refinement.RollbackEdits

/-!
# Ranges of blocks

`bulk_pull_blocks_server` finds the hashes of a range with a cursor over the block infos and
stops at the first one without a stored block.
-/

namespace Badem

open Mdb Relation

namespace BlockStore

/-- All stored blocks in one table. -/
def allBlocks (s : BlockStore) : Table BlockHash StoredBlock :=
  s.sendBlocks.overlay (s.receiveBlocks.overlay (s.openBlocks.overlay
    (s.changeBlocks.overlay s.stateBlocks)))

def blocksInRange (env : Env) (s : BlockStore) (lo hi : BlockHash) : List Block :=
  (s.allBlocks.entries.map (fun x => x.2.block)).filter
    (fun b => decide (lo ≤ b.hash env ∧ b.hash env < hi))

theorem get_allBlocks (s : BlockStore) (h : BlockHash) :
    s.allBlocks.get h = (s.blockGetRaw h).map Prod.snd := by
  unfold allBlocks blockGetRaw
  simp only [Table.get_overlay]
  cases s.sendBlocks.get h <;> cases s.receiveBlocks.get h <;> cases s.openBlocks.get h <;>
    cases s.changeBlocks.get h <;> cases s.stateBlocks.get h <;> rfl

section Filed

variable {env : Env} {U : Set Block} {s : BlockStore} (hs : s.Filed env U)
include hs

theorem mem_blocksInRange {lo hi : BlockHash} {b : Block} :
    b ∈ s.blocksInRange env lo hi ↔
      s.blockGet (b.hash env) = some b ∧ lo ≤ b.hash env ∧ b.hash env < hi := by
  unfold blocksInRange
  rw [List.mem_filter, decide_eq_true_iff, List.mem_map]
  refine and_congr_left (fun _ => ?_)
  constructor
  · rintro ⟨⟨h, v⟩, hmem, rfl⟩
    have hget : s.blockGet h = some v.block := by
      rw [Table.mem_entries_iff, get_allBlocks, Option.map_eq_some_iff] at hmem
      obtain ⟨w, hw, rfl⟩ := hmem
      rw [blockGet, hw]
      rfl
    rw [(hs.hash_eq hget).2]
    exact hget
  · intro hget
    obtain ⟨w, hw, hwb⟩ := Option.map_eq_some_iff.mp hget
    refine ⟨(b.hash env, w.2), ?_, hwb⟩
    rw [Table.mem_entries_iff, get_allBlocks, hw]
    rfl

theorem blocksInRange_sorted (lo hi : BlockHash) :
    (s.blocksInRange env lo hi).Pairwise (fun b c => b.hash env < c.hash env) := by
  refine List.Pairwise.filter _ (List.pairwise_map.mpr ?_)
  refine s.allBlocks.sorted.imp_of_mem ?_
  have hkey : ∀ x ∈ s.allBlocks.entries, x.2.block.hash env = x.1 := by
    rintro ⟨h, v⟩ hx
    rw [Table.mem_entries_iff, get_allBlocks, Option.map_eq_some_iff] at hx
    obtain ⟨⟨t, v⟩, hw, rfl⟩ := hx
    exact (hs _ _ _ (blockGetRaw_of_some hw)).2.1
  intro x y hx hy hlt
  rw [hkey x hx, hkey y hy]
  exact hlt

end Filed

end BlockStore

namespace BulkPullBlocks

def limit {α : Type} (r : BulkPullBlocks) (l : List α) : List α :=
  if r.maxCount = 0 then l else l.take r.maxCount.toNat

def requested (env : Env) (s : BlockStore) (r : BulkPullBlocks) : List Block :=
  r.limit (s.blocksInRange env r.minHash r.maxHash)

/-- What is to be written for a list of blocks, with the checksum of earlier ones. -/
def answer (env : Env) (r : BulkPullBlocks) (sum : Checksum) (blocks : List Block) :
    List BulkPullBlocksWrite :=
  match r.mode with
  | .listBlocks => blocks.map .block ++ [.finished]
  | .checksumBlocks =>
    blocks.map (fun _ => .empty) ++
      [.checksum (blocks.foldl (fun sum b => sum ^^^ b.hash env) sum), .finished]
  | .unknown _ => blocks.map (fun _ => .empty) ++ [.finished]

/-- Every block that is asked for has a block info, and no block info without a block comes
before it. -/
def Indexed (env : Env) (s : BlockStore) (r : BulkPullBlocks) : Prop :=
  ∀ b ∈ r.requested env s, (s.blocksInfo.get (b.hash env)).isSome = true ∧
    ∀ h, r.minHash ≤ h → h < b.hash env → (s.blocksInfo.get h).isSome = true →
      s.blockExists h = true

def Served (env : Env) (s : BlockStore) (r : BulkPullBlocks) (produced : List Block)
    (written : List BulkPullBlocksWrite) : Prop :=
  produced = r.requested env s ∧ written = r.answer env 0 (r.requested env s)

theorem limit_eq_take {α : Type} (r : BulkPullBlocks) {l : List α} {n : Nat} (h : l.length ≤ n) :
    r.limit l = l.take (if r.maxCount = 0 then n else r.maxCount.toNat) := by
  unfold limit
  split_ifs
  · rw [List.take_of_length_le h]
  · rfl

theorem map_limit {α β : Type} (r : BulkPullBlocks) (f : α → β) (l : List α) :
    (r.limit l).map f = r.limit (l.map f) := by
  unfold limit
  split_ifs
  · rfl
  · exact List.map_take

theorem mem_of_mem_limit {α : Type} {r : BulkPullBlocks} {l : List α} {x : α}
    (h : x ∈ r.limit l) : x ∈ l := by
  unfold limit at h
  split_ifs at h
  · exact h
  · exact List.mem_of_mem_take h

end BulkPullBlocks

namespace BulkPullBlocksServer

variable {env : Env} {s : BlockStore}

section Loops

def left (server : BulkPullBlocksServer) (l : List BlockHash) : List BlockHash :=
  if server.request.maxCount = 0 then l
  else l.take (server.request.maxCount.toNat - server.sentCount.toNat)

def visible (s : BlockStore) (server : BulkPullBlocksServer) (h : BlockHash) : Bool :=
  decide (h < server.request.maxHash) && (s.blockGet h).isSome

@[simp] theorem left_nil (server : BulkPullBlocksServer) : server.left [] = [] := by
  unfold left
  simp

@[simp] theorem counted_request (server : BulkPullBlocksServer) :
    server.counted.request = server.request := by
  unfold counted
  split_ifs <;> rfl

variable {server : BulkPullBlocksServer}

theorem left_of_outOfBounds (h : server.outOfBounds = true)
    (l : List BlockHash) : server.left l = [] := by
  obtain ⟨hne, hle⟩ := of_decide_eq_true h
  rw [left, if_neg hne, Nat.sub_eq_zero_of_le hle, List.take_zero]

theorem left_cons (h : ¬ server.outOfBounds = true)
    (stream : Nat) (k : BlockHash) (l : List BlockHash) :
    server.left (k :: l) = k :: ({ server.counted with stream := stream }).left l := by
  unfold left counted
  by_cases hz : server.request.maxCount = 0
  · simp [hz]
  · have hlt : server.sentCount < server.request.maxCount := by
      by_contra hle
      exact h (decide_eq_true ⟨hz, not_lt.mp hle⟩)
    have hnat : server.sentCount.toNat < server.request.maxCount.toNat := hlt
    have hbound := server.request.maxCount.isLt
    simp only [ne_eq, hz, not_false_eq_true, if_true, if_false]
    rw [toNat_add_one (by omega), show server.request.maxCount.toNat - server.sentCount.toNat =
      (server.request.maxCount.toNat - (server.sentCount.toNat + 1)) + 1 by omega,
      List.take_succ_cons]

theorem blocks_eq (rest : List (BlockHash × BlockInfo)) {below : List (BlockHash × BlockInfo)}
    {server : BulkPullBlocksServer} (h : s.blocksInfo.entries = below ++ rest)
    (hstream : server.stream = below.length) (extra : Nat) :
    server.blocks s (rest.length + 1 + extra) =
      .ok ((server.left ((rest.map Prod.fst).takeWhile (visible s server))).filterMap
        s.blockGet) := by
  induction rest generalizing below server with
  | nil =>
    have hend : s.blocksInfo.entries[server.stream]? = none := by
      rw [hstream, h]
      simp
    have hnext : (server.getNext s).1 = none := by
      unfold getNext
      rw [hend]
      split_ifs <;> rfl
    rw [show ([] : List (BlockHash × BlockInfo)).length + 1 + extra = extra + 1 from
      Nat.add_comm _ _, blocks, ← Prod.mk.eta (p := server.getNext s), hnext]
    simp
  | cons x rest ih =>
    rw [show (x :: rest).length + 1 + extra = (rest.length + 1 + extra) + 1 by
      rw [List.length_cons]; omega, blocks]
    by_cases hout : server.outOfBounds = true
    · simp [left_of_outOfBounds hout, getNext, hout]
    · have hentry : s.blocksInfo.entries[server.stream]? = some x := by
        rw [hstream, h, List.getElem?_append_right (le_refl _)]
        simp
      rw [getNext, if_neg hout, hentry, List.map_cons]
      dsimp only
      by_cases hmax : x.1 < server.request.maxHash
      · rw [if_pos hmax]
        cases hget : s.blockGet x.1 with
        | none =>
          rw [List.takeWhile_cons_of_neg (by simp [visible, hget]), left_nil]
          rfl
        | some b =>
          have hsplit : s.blocksInfo.entries = (below ++ [x]) ++ rest := by simpa using h
          have hnext := @ih _ { server.counted with stream := server.stream + 1 } hsplit
            (by rw [hstream, List.length_append, List.length_singleton])
          have hvisible : visible s { server.counted with stream := server.stream + 1 } =
              visible s server := by
            funext k
            simp [visible]
          rw [List.takeWhile_cons_of_pos (by simp [visible, hmax, hget]),
            left_cons hout (server.stream + 1), List.filterMap_cons_some hget, ← hvisible]
          exact bind_eq_of_ok hnext rfl
      · simp [hmax, left_nil, visible]

theorem getNext_keeps (server : BulkPullBlocksServer) :
    (server.getNext s).2.request = server.request ∧
      (server.getNext s).2.checksum = server.checksum := by
  have hcounted : server.counted.checksum = server.checksum := by
    unfold counted
    split_ifs <;> rfl
  unfold getNext
  repeat' split
  all_goals exact ⟨server.counted_request, hcounted⟩

theorem getNext_checksum (server : BulkPullBlocksServer) (sum : Checksum) :
    ({ server with checksum := sum }).getNext s =
      ((server.getNext s).1, { (server.getNext s).2 with checksum := sum }) := by
  have hcounted : ({ server with checksum := sum }).counted =
      { server.counted with checksum := sum } := by
    unfold counted
    dsimp only
    split_ifs <;> rfl
  unfold getNext
  rw [hcounted]
  change (if server.outOfBounds = true then _ else _) = _
  split_ifs with hout
  · rfl
  · dsimp only
    cases s.blocksInfo.entries[server.stream]? with
    | none => rfl
    | some x =>
      dsimp only
      split_ifs <;> rfl

theorem blocks_checksum (fuel : Nat) (server : BulkPullBlocksServer) (sum : Checksum) :
    ({ server with checksum := sum }).blocks s fuel = server.blocks s fuel := by
  induction fuel generalizing server with
  | zero => rfl
  | succ fuel ih =>
    rw [blocks, blocks, getNext_checksum]
    cases hnext : server.getNext s with
    | mk result server' =>
      cases result with
      | none => rfl
      | some b =>
        dsimp only
        rw [ih server']

theorem sendNext_eq (fuel : Nat) (server : BulkPullBlocksServer) :
    server.sendNext s env fuel =
      (server.blocks s fuel).map (server.request.answer env server.checksum) := by
  induction fuel generalizing server with
  | zero => rfl
  | succ fuel ih =>
    obtain ⟨hrequest, hsum⟩ := server.getNext_keeps (s := s)
    rw [sendNext, blocks]
    cases hnext : server.getNext s with
    | mk result server' =>
      rw [hnext] at hrequest hsum
      dsimp only at hrequest hsum
      rw [← hrequest, ← hsum]
      cases result with
      | none =>
        cases hmode : server'.request.mode <;> simp [BulkPullBlocks.answer, hmode, Except.map]
      | some b =>
        dsimp only
        cases hmode : server'.request.mode with
        | checksumBlocks =>
          rw [ih, blocks_checksum]
          cases server'.blocks s fuel <;>
            simp [BulkPullBlocks.answer, hmode, Except.map, bind, Except.bind, pure,
              Except.pure]
        | _ =>
          rw [ih server']
          cases server'.blocks s fuel <;>
            simp [BulkPullBlocks.answer, hmode, Except.map, bind, Except.bind, pure,
              Except.pure]

end Loops

section Answers

variable {U : Set Block} {r : BulkPullBlocks}

theorem map_filterMap_blockGet (hs : s.Filed env U) {l : List BlockHash}
    (hl : ∀ h ∈ l, (s.blockGet h).isSome = true) :
    (l.filterMap s.blockGet).map (Block.hash env) = l := by
  induction l with
  | nil => rfl
  | cons h l ih =>
    obtain ⟨b, hb⟩ := Option.isSome_iff_exists.mp (hl h (by simp))
    rw [List.filterMap_cons_some hb, List.map_cons, (hs.hash_eq hb).2,
      ih (fun k hk => hl k (.tail _ hk))]

theorem filterMap_map_hash {l : List Block} (hl : ∀ b ∈ l, s.blockGet (b.hash env) = some b) :
    (l.map (Block.hash env)).filterMap s.blockGet = l := by
  induction l with
  | nil => rfl
  | cons b l ih =>
    rw [List.map_cons, List.filterMap_cons_some (hl b (by simp)),
      ih (fun c hc => hl c (.tail _ hc))]

theorem lt_maxHash_iff {h : BlockHash} (hle : r.minHash ≤ h) :
    h < (setParams s r).request.maxHash ↔ h < r.maxHash := by
  show h < (if r.maxHash < r.minHash then r.minHash else r.maxHash) ↔ _
  split_ifs with hlt
  · exact ⟨fun hx => absurd hx (not_lt.mpr hle), fun hx => absurd (hx.trans hlt) (not_lt.mpr hle)⟩
  · exact Iff.rfl

theorem limit_takeWhile_eq_iff (hs : s.Filed env U) {visited : List BlockHash}
    (hsorted : visited.Pairwise (· < ·))
    (hkeys : ∀ {k}, k ∈ visited ↔ (s.blocksInfo.get k).isSome = true ∧ r.minHash ≤ k) :
    r.limit (visited.takeWhile (visible s (setParams s r))) =
      r.limit ((s.blocksInRange env r.minHash r.maxHash).map (Block.hash env)) ↔
      r.Indexed env s := by
  have hwanted : ∀ {k}, k ∈ (s.blocksInRange env r.minHash r.maxHash).map (Block.hash env) ↔
      (s.blockGet k).isSome = true ∧ r.minHash ≤ k ∧ k < r.maxHash := by
    intro k
    rw [List.mem_map]
    constructor
    · rintro ⟨b, hb, rfl⟩
      obtain ⟨hget, hrange⟩ := (BlockStore.mem_blocksInRange hs).mp hb
      exact ⟨Option.isSome_iff_exists.mpr ⟨b, hget⟩, hrange⟩
    · rintro ⟨hsome, hrange⟩
      obtain ⟨b, hget⟩ := Option.isSome_iff_exists.mp hsome
      obtain rfl := (hs.hash_eq hget).2
      exact ⟨b, (BlockStore.mem_blocksInRange hs).mpr ⟨hget, hrange⟩, rfl⟩
  have hvisible : ∀ {k}, r.minHash ≤ k →
      (visible s (setParams s r) k = true ↔ k < r.maxHash ∧ (s.blockGet k).isSome = true) := by
    intro k hle
    rw [visible, Bool.and_eq_true, decide_eq_true_iff, lt_maxHash_iff hle]
  have hbound : (visited.takeWhile (visible s (setParams s r))).length ≤
      visited.length + ((s.blocksInRange env r.minHash r.maxHash).map (Block.hash env)).length :=
    (List.takeWhile_sublist _).length_le.trans (Nat.le_add_right _ _)
  have hrequested : (r.requested env s).map (Block.hash env) =
      r.limit ((s.blocksInRange env r.minHash r.maxHash).map (Block.hash env)) :=
    r.map_limit _ _
  rw [r.limit_eq_take hbound, r.limit_eq_take (Nat.le_add_left _ visited.length),
    take_takeWhile_eq_iff hsorted
      (List.pairwise_map.mpr (BlockStore.blocksInRange_sorted hs _ _))
      (fun k hk hp => hwanted.mpr ⟨((hvisible (hkeys.mp hk).2).mp hp).2, (hkeys.mp hk).2,
        ((hvisible (hkeys.mp hk).2).mp hp).1⟩)
      (fun k hk => (hvisible (hwanted.mp hk).2.1).mpr ⟨(hwanted.mp hk).2.2, (hwanted.mp hk).1⟩),
    ← r.limit_eq_take (Nat.le_add_left _ visited.length), ← hrequested]
  constructor
  · intro hall b hb
    obtain ⟨hin, hbefore⟩ := hall _ (List.mem_map_of_mem hb)
    refine ⟨(hkeys.mp hin).1, fun h hle hlt hinfo => ?_⟩
    rw [BlockStore.blockExists_eq_isSome]
    exact ((hvisible hle).mp (hbefore h (hkeys.mpr ⟨hinfo, hle⟩) hlt)).2
  · intro hindexed k hk
    obtain ⟨b, hb, rfl⟩ := List.mem_map.mp hk
    obtain ⟨hinfo, hbefore⟩ := hindexed b hb
    obtain ⟨-, hge, hmax⟩ :=
      (BlockStore.mem_blocksInRange hs).mp (BulkPullBlocks.mem_of_mem_limit hb)
    refine ⟨hkeys.mpr ⟨hinfo, hge⟩, fun h hh hlt => ?_⟩
    obtain ⟨hinfo', hle⟩ := hkeys.mp hh
    have hstored := hbefore h hle hlt hinfo'
    rw [BlockStore.blockExists_eq_isSome] at hstored
    exact (hvisible hle).mpr ⟨hlt.trans hmax, hstored⟩

end Answers

end BulkPullBlocksServer

/-- The answer is what is asked for exactly if the blocks are indexed. -/
theorem block_range_served_iff {env : Env} {U : Set Block} {s : BlockStore}
    (hreach : Reachable env U s) (r : BulkPullBlocks) :
    ∃ produced written,
      BulkPullBlocksServer.blocks s (s.blocksInfo.size + 1) (.setParams s r) = .ok produced ∧
      BulkPullBlocksServer.run s env r = .ok written ∧
      (r.Served env s produced written ↔ r.Indexed env s) := by
  have hs : s.Filed env Set.univ := (hreach.mono (Set.subset_univ U)).filed (Set.mem_univ _)
  obtain ⟨below, rest, hentries, hpos, hbelow, hrest⟩ := s.blocksInfo.exists_position r.minHash
  have hkeys : ∀ {k}, k ∈ rest.map Prod.fst ↔
      (s.blocksInfo.get k).isSome = true ∧ r.minHash ≤ k :=
    Table.mem_keys_of_append hentries hbelow hrest
  have hsorted : (rest.map Prod.fst).Pairwise (· < ·) := by
    have hall := s.blocksInfo.sorted
    rw [hentries] at hall
    exact List.pairwise_map.mpr (List.pairwise_append.mp hall).2.1
  have hfuel : s.blocksInfo.size + 1 = rest.length + 1 + below.length := by
    rw [Table.size, hentries, List.length_append]
    omega
  let server := BulkPullBlocksServer.setParams s r
  let hashes := r.limit ((rest.map Prod.fst).takeWhile (server.visible s))
  have hblocks : server.blocks s (s.blocksInfo.size + 1) = .ok (hashes.filterMap s.blockGet) := by
    rw [hfuel, BulkPullBlocksServer.blocks_eq rest hentries hpos]
    rfl
  have hwritten : BulkPullBlocksServer.run s env r =
      .ok (r.answer env 0 (hashes.filterMap s.blockGet)) := by
    rw [BulkPullBlocksServer.run, BulkPullBlocksServer.sendNext_eq, hblocks]
    rfl
  refine ⟨_, _, hblocks, hwritten, ?_⟩
  rw [← BulkPullBlocksServer.limit_takeWhile_eq_iff hs hsorted hkeys]
  have hstored : ∀ h ∈ hashes, (s.blockGet h).isSome = true := by
    intro h hh
    have hvisible := List.mem_takeWhile_imp (BulkPullBlocks.mem_of_mem_limit hh)
    exact (Bool.and_eq_true_iff.mp hvisible).2
  have hmap := r.map_limit (Block.hash env) (s.blocksInRange env r.minHash r.maxHash)
  constructor
  · rintro ⟨hproduced, -⟩
    calc hashes
      _ = (hashes.filterMap s.blockGet).map (Block.hash env) :=
        (BulkPullBlocksServer.map_filterMap_blockGet hs hstored).symm
      _ = (r.requested env s).map (Block.hash env) := by rw [hproduced]
      _ = _ := hmap
  · intro heq
    have hproduced : hashes.filterMap s.blockGet = r.requested env s := by
      rw [show hashes = _ from heq, ← hmap]
      refine BulkPullBlocksServer.filterMap_map_hash (fun b hb => ?_)
      exact ((BlockStore.mem_blocksInRange hs).mp (BulkPullBlocks.mem_of_mem_limit hb)).1
    exact ⟨hproduced, by rw [hproduced]⟩

section Samples

def everything : BulkPullBlocks := ⟨0, BitVec.allOnes 256, .listBlocks, 0⟩

theorem block_range_served_iff_plain :
    ∃ s, Reachable plainEnv plainSet s ∧ s.blockCount = 4 ∧ ∃ produced written,
      BulkPullBlocksServer.blocks s (s.blocksInfo.size + 1) (.setParams s everything) =
        .ok produced ∧
      BulkPullBlocksServer.run s plainEnv everything = .ok written ∧
      (everything.Served plainEnv s produced written ↔ everything.Indexed plainEnv s) := by
  obtain ⟨s, -, hreach, hcount, -⟩ := plain_ledger
  exact ⟨s, hreach, hcount, block_range_served_iff hreach everything⟩

theorem block_range_empty :
    ∃ s, Reachable plainEnv plainSet s ∧ (everything.requested plainEnv s).length = 4 ∧
      BulkPullBlocksServer.blocks s (s.blocksInfo.size + 1) (.setParams s everything) =
        .ok [] ∧
      BulkPullBlocksServer.run s plainEnv everything = .ok [.finished] := by
  have h : ∃ s, ledgerOf plainEnv plainBlocks = .ok s ∧
      (everything.requested plainEnv s).length = 4 ∧
      (∃ l, BulkPullBlocksServer.blocks s (s.blocksInfo.size + 1) (.setParams s everything) =
        .ok l ∧ l = []) ∧
      ∃ l, BulkPullBlocksServer.run s plainEnv everything = .ok l ∧ l = [.finished] := by
    decide
  obtain ⟨s, hs, hcount, ⟨_, hblocks, rfl⟩, _, hrun, rfl⟩ := h
  exact ⟨s, reachable_blockSet hs, hcount, hblocks, hrun⟩

end Samples

end Badem
