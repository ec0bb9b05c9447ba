import Badem.Abstract.Contest
import Badem.Core.Elections

/-!
# Tally and quorum

The votes of an election are a contest between block hashes, and the test for a quorum
compares the greatest support with the runner-up and the margin, modulo `2 ^ 128`.
-/

namespace Badem

open Mdb Containers OrderDual

variable {env : Env} {weight : Account → Uint128} {order : TallyOrder} {votes : Votes}

namespace Votes

variable (env weight votes)

def totalWeight : Nat := votes.repVotes.sum (fun r _ => (weight r).toNat)

def contest : Contest BlockHash where
  voted h := ∃ r b, votes.repVotes.get r = some b ∧ b.hash env = h
  support h := votes.repVotes.sum (fun r b => if b.hash env = h then (weight r).toNat else 0)

theorem support_le_totalWeight (h : BlockHash) :
    (votes.contest env weight).support h ≤ votes.totalWeight weight := by
  dsimp only [contest, totalWeight]
  refine Table.sum_le_sum votes.repVotes ?_
  intro r b
  split_ifs
  · exact Nat.le_refl _
  · exact Nat.zero_le _

end Votes

section Totals

theorem mem_contributions {y : Block × Uint128} :
    y ∈ Ledger.contributions weight order votes ↔
      ∃ r b, votes.repVotes.get r = some b ∧ (b, weight r) = y := by
  rw [Ledger.contributions, List.mem_map]
  constructor
  · rintro ⟨⟨r, b⟩, hmem, rfl⟩
    rw [Visit.mem_order, Table.mem_entries_iff] at hmem
    exact ⟨r, b, hmem, rfl⟩
  · rintro ⟨r, b, hget, rfl⟩
    exact ⟨(r, b), by rw [Visit.mem_order, Table.mem_entries_iff]; exact hget, rfl⟩

theorem totalOf_contributions (h : BlockHash) :
    totalOf (Block.hash env) h (Ledger.contributions weight order votes) =
      BitVec.ofNat 128 ((votes.contest env weight).support h) := by
  have hsum : totalOf (Block.hash env) h (Ledger.contributions weight order votes) =
      votes.repVotes.sum (fun r b => if b.hash env = h then weight r else 0) := by
    rw [Ledger.contributions,
      totalOf_perm _ _ ((order.votes.perm votes.repVotes.entries).map _),
      Table.sum_eq_map_sum, totalOf, List.map_map]
    rfl
  rw [hsum, Votes.contest, Table.ofNat_sum]
  refine Table.sum_congr ?_
  intro r b _
  split_ifs
  · rw [BitVec.ofNat_toNat, BitVec.setWidth_eq]
  · rfl

variable {m : Uint128ᵒᵈ} {b : Block}

theorem exists_vote_of_get_tally (hget : (Ledger.tally env weight order votes).get m = some b) :
    ∃ r, votes.repVotes.get r = some b := by
  have hmem := (order.totals.mem_order).mp (mem_of_get_ranking hget)
  obtain ⟨z, hz, hzb⟩ := (isTotals_totals _ _).contributed hmem
  obtain ⟨r, b', hget', rfl⟩ := mem_contributions.mp hz
  exact ⟨r, hget'.trans (congrArg some hzb)⟩

variable (env weight order) in
theorem exists_tally_cons {r : Account} (hget : votes.repVotes.get r = some b) :
    ∃ x rest, (Ledger.tally env weight order votes).entries = x :: rest := by
  have hcontributed : (b, weight r) ∈ Ledger.contributions weight order votes :=
    mem_contributions.mpr ⟨r, b, hget, rfl⟩
  obtain ⟨y, hy, -⟩ := exists_mem_totals (Block.hash env) hcontributed
  obtain ⟨c, hc⟩ := exists_get_ranking ((order.totals.mem_order).mpr hy)
  have hmem : (toDual y.2, c) ∈ (Ledger.tally env weight order votes).entries :=
    (Table.mem_entries_iff _ _ _).mpr hc
  exact List.exists_cons_of_ne_nil (List.ne_nil_of_mem hmem)

variable (hsum : votes.totalWeight weight ≤ 2 ^ 128 - 1)

include hsum in
theorem support_lt (h : BlockHash) : (votes.contest env weight).support h < 2 ^ 128 := by
  have hle := votes.support_le_totalWeight env weight h
  omega

include hsum in
theorem toNat_total (h : BlockHash) :
    (totalOf (Block.hash env) h (Ledger.contributions weight order votes)).toNat =
      (votes.contest env weight).support h := by
  rw [totalOf_contributions, BitVec.toNat_ofNat, Nat.mod_eq_of_lt (support_lt hsum h)]

include hsum in
theorem voted_of_get_tally (hget : (Ledger.tally env weight order votes).get m = some b) :
    (votes.contest env weight).voted (b.hash env) ∧
      (votes.contest env weight).support (b.hash env) = (ofDual m).toNat := by
  have hmem := (order.totals.mem_order).mp (mem_of_get_ranking hget)
  constructor
  · obtain ⟨r, hget'⟩ := exists_vote_of_get_tally hget
    exact ⟨r, b, hget', rfl⟩
  · rw [← toNat_total hsum]
    exact congrArg BitVec.toNat (snd_of_mem_totals _ hmem).symm

include hsum in
theorem exists_get_tally {h : BlockHash} (hvoted : (votes.contest env weight).voted h) :
    ∃ m b, (Ledger.tally env weight order votes).get m = some b ∧
      (ofDual m).toNat = (votes.contest env weight).support h := by
  obtain ⟨r, b, hget, rfl⟩ := hvoted
  have hcontributed : (b, weight r) ∈ Ledger.contributions weight order votes :=
    mem_contributions.mpr ⟨r, b, hget, rfl⟩
  obtain ⟨y, hy, hkey⟩ := exists_mem_totals (Block.hash env) hcontributed
  obtain ⟨b', hb'⟩ := exists_get_ranking ((order.totals.mem_order).mpr hy)
  refine ⟨toDual y.2, b', hb', ?_⟩
  rw [ofDual_toDual, snd_of_mem_totals _ hy, hkey, toNat_total hsum]

end Totals

section Quorum

def Node.margin (node : Node) (onlineStakeTotal : Uint128) : Nat :=
  (node.onlineStake onlineStakeTotal).toNat / 100 * node.config.onlineWeightQuorum

theorem Node.toNat_delta (node : Node) (onlineStakeTotal : Uint128) :
    (node.delta onlineStakeTotal).toNat = node.margin onlineStakeTotal := by
  have hquorum := node.config.accepted
  have hstake := (node.onlineStake onlineStakeTotal).isLt
  have hmargin : node.margin onlineStakeTotal < 2 ^ 128 := by
    unfold Node.margin
    calc (node.onlineStake onlineStakeTotal).toNat / 100 * node.config.onlineWeightQuorum
        ≤ (node.onlineStake onlineStakeTotal).toNat / 100 * 100 := Nat.mul_le_mul_left _ hquorum
      _ ≤ (node.onlineStake onlineStakeTotal).toNat := Nat.div_mul_le_self _ _
      _ < 2 ^ 128 := hstake
  rw [Node.delta, BitVec.toNat_mul, BitVec.toNat_udiv, BitVec.toNat_ofNat,
    Nat.mod_eq_of_lt (by omega : node.config.onlineWeightQuorum < 2 ^ 128)]
  exact Nat.mod_eq_of_lt hmargin

theorem entries_of_winner
    {first : Uint128} {b : Block} (hwin : Ledger.winner env weight order votes = some (first, b)) :
    ∃ rest, (Ledger.tally env weight order votes).entries = (toDual first, b) :: rest := by
  rw [Ledger.winner] at hwin
  cases hentries : (Ledger.tally env weight order votes).entries with
  | nil => simp [hentries] at hwin
  | cons x rest =>
    rw [hentries] at hwin
    obtain ⟨hfirst, hblock⟩ := Prod.mk.inj (Option.some.inj hwin)
    exact ⟨rest, by rw [← hfirst, ← hblock]; rfl⟩

variable {first : Uint128} {b : Block} (hsum : votes.totalWeight weight ≤ 2 ^ 128 - 1)
variable (hwin : Ledger.winner env weight order votes = some (first, b))

include hsum hwin in
theorem isTop_of_winner :
    (votes.contest env weight).support (b.hash env) = first.toNat ∧
      (votes.contest env weight).IsTop (b.hash env) := by
  obtain ⟨rest, hentries⟩ := entries_of_winner hwin
  obtain ⟨hget, hleast⟩ := Table.get_of_entries_cons hentries
  have hfirst := (voted_of_get_tally hsum hget).2
  refine ⟨hfirst, ?_⟩
  intro h hvoted
  obtain ⟨m, b', hget', hm⟩ := exists_get_tally hsum hvoted
  rw [← hm, hfirst]
  exact hleast hget'

include hsum hwin in
theorem haveQuorum_eq (delta : Uint128) :
    ∃ S, (votes.contest env weight).RunnerUp (b.hash env) S ∧
      Election.haveQuorum delta (Ledger.tally env weight order votes) =
        .ok (decide ((S + delta.toNat) % 2 ^ 128 <
          (votes.contest env weight).support (b.hash env))) := by
  obtain ⟨htop, -⟩ := isTop_of_winner hsum hwin
  obtain ⟨rest, hentries⟩ := entries_of_winner hwin
  unfold Election.haveQuorum
  rw [hentries, htop]
  cases rest with
  | nil =>
    refine ⟨0, ⟨.inl rfl, ?_⟩, ?_⟩
    · intro h hvoted hlt
      obtain ⟨m, b', hget', hm⟩ := exists_get_tally hsum hvoted
      rw [Table.eq_of_entries_singleton hentries hget'] at hm
      rw [htop, ← hm] at hlt
      exact absurd hlt (Nat.lt_irrefl _)
    · rw [Nat.zero_add, Nat.mod_eq_of_lt delta.isLt]
      simp [BitVec.lt_def]
  | cons y rest =>
    obtain ⟨second, b₂⟩ := y
    obtain ⟨hlt, hget₂, hnext⟩ := Table.get_of_entries_cons_cons hentries
    obtain ⟨hvoted₂, hsecond⟩ := voted_of_get_tally hsum hget₂
    refine ⟨(ofDual second).toNat, ⟨.inr ⟨_, hvoted₂, hsecond, ?_⟩, ?_⟩, ?_⟩
    · rw [htop]
      exact hlt
    · intro h hvoted hbelow
      obtain ⟨m, b', hget', hm⟩ := exists_get_tally hsum hvoted
      rw [htop, ← hm] at hbelow
      rw [← hm]
      refine hnext hget' ?_
      rintro rfl
      exact absurd hbelow (Nat.lt_irrefl _)
    · simp [BitVec.lt_def]

end Quorum

/-- A quorum means that the first block leads by the margin exactly if the contest is decided. -/
theorem quorum_sound_iff (node : Node) (onlineStakeTotal : Uint128) {first : Uint128} {b : Block}
    (hsum : votes.totalWeight weight ≤ 2 ^ 128 - 1)
    (hwin : Ledger.winner node.env weight order votes = some (first, b)) :
    (Election.haveQuorum (node.delta onlineStakeTotal)
        (Ledger.tally node.env weight order votes) = .ok true →
      (votes.contest node.env weight).Leads (node.margin onlineStakeTotal) (b.hash node.env)) ↔
    (votes.contest node.env weight).Decided (2 ^ 128) (node.margin onlineStakeTotal)
      (b.hash node.env) := by
  obtain ⟨-, htop⟩ := isTop_of_winner hsum hwin
  obtain ⟨S, hrunner, hquorum⟩ := haveQuorum_eq hsum hwin (node.delta onlineStakeTotal)
  have hmargin : node.margin onlineStakeTotal < 2 ^ 128 := by
    rw [← node.toNat_delta]
    exact BitVec.isLt _
  rw [hquorum, node.toNat_delta, ← Contest.test_sound_iff hrunner htop hmargin
    (support_lt hsum _)]
  simp

section Rivals

def plainNode (quorum : Nat) (h : quorum ≤ 100) : Node where
  env :=
    { network := .test
      digest := fun
        | [_, .word256 x] => 1000 + x
        | _ => 7
      validateMessage := fun _ _ _ => false
      checked := false }
  config := ⟨100, quorum, h⟩
  notAnAccount := 5

def halfNode : Node := plainNode 50 (by decide)

def rival (x : Account) : Block := .changeBlock ⟨⟨9, x⟩, 0, 0⟩

def rivalVotes : Votes where
  id := 9
  repVotes := (Table.empty.put 1 (rival 1)).put 2 (rival 2)

def rivalWeights (x y : Uint128) (r : Account) : Uint128 :=
  if r = 1 then x else if r = 2 then y else 0

def insertedOrder : TallyOrder := ⟨Visit.inserted, Visit.inserted⟩

theorem quorum_sound_iff_rivals :
    Election.haveQuorum (halfNode.delta 0)
        (Ledger.tally halfNode.env (rivalWeights 60 1) insertedOrder rivalVotes) = .ok true ∧
      ((Election.haveQuorum (halfNode.delta 0)
          (Ledger.tally halfNode.env (rivalWeights 60 1) insertedOrder rivalVotes) = .ok true →
        (rivalVotes.contest halfNode.env (rivalWeights 60 1)).Leads (halfNode.margin 0)
          ((rival 1).hash halfNode.env)) ↔
      (rivalVotes.contest halfNode.env (rivalWeights 60 1)).Decided (2 ^ 128)
        (halfNode.margin 0) ((rival 1).hash halfNode.env)) :=
  ⟨by decide +kernel, quorum_sound_iff halfNode 0 (by decide +kernel)
    (show Ledger.winner _ _ insertedOrder _ = some (60, rival 1) by decide +kernel)⟩

/-- A quorum with a tie, and one with a margin that wraps. -/
theorem quorum_unsound :
    (rivalVotes.totalWeight (rivalWeights 60 60) ≤ 2 ^ 128 - 1 ∧
      Ledger.winner halfNode.env (rivalWeights 60 60) insertedOrder rivalVotes =
        some (60, rival 2) ∧
      Election.haveQuorum (halfNode.delta 0)
        (Ledger.tally halfNode.env (rivalWeights 60 60) insertedOrder rivalVotes) = .ok true ∧
      ¬ (rivalVotes.contest halfNode.env (rivalWeights 60 60)).Leads (halfNode.margin 0)
        ((rival 2).hash halfNode.env)) ∧
    (rivalVotes.totalWeight (rivalWeights 100 101) ≤ 2 ^ 128 - 1 ∧
      Ledger.winner (plainNode 100 (by decide)).env (rivalWeights 100 101) insertedOrder
        rivalVotes = some (101, rival 2) ∧
      Election.haveQuorum ((plainNode 100 (by decide)).delta genesisAmount)
        (Ledger.tally (plainNode 100 (by decide)).env (rivalWeights 100 101) insertedOrder
          rivalVotes) = .ok true ∧
      ¬ (rivalVotes.contest (plainNode 100 (by decide)).env (rivalWeights 100 101)).Leads
        ((plainNode 100 (by decide)).margin genesisAmount)
        ((rival 2).hash (plainNode 100 (by decide)).env)) := by
  have hvoted : ∀ (node : Node) (weight : Account → Uint128),
      (rivalVotes.contest node.env weight).voted ((rival 1).hash node.env) :=
    fun node weight => ⟨1, rival 1, by decide +kernel, rfl⟩
  refine ⟨⟨by decide +kernel, by decide +kernel, by decide +kernel, ?_⟩,
    by decide +kernel, by decide +kernel, by decide +kernel, ?_⟩
  · intro h
    exact absurd (h _ (hvoted halfNode _) (by decide +kernel)) (by decide +kernel)
  · intro h
    exact absurd (h _ (hvoted (plainNode 100 (by decide)) _) (by decide +kernel))
      (by decide +kernel)

end Rivals

end Badem
