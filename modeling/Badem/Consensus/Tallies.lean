import Badem.Consensus.Quorum

/-!
# The tally of an election

The support is the key under which a block is entered into the tally.  So the first entry is
right, and the tally as a whole if no two voted hashes have the same support.
-/

namespace Badem

open Mdb Containers OrderDual

variable {env : Env} {weight : Account → Uint128} {order : TallyOrder} {votes : Votes}

section Winner

variable (env weight order)

theorem exists_winner {r : Account} {b : Block} (hget : votes.repVotes.get r = some b) :
    ∃ first w, Ledger.winner env weight order votes = some (first, w) := by
  obtain ⟨x, rest, hentries⟩ := exists_tally_cons env weight order hget
  exact ⟨ofDual x.1, x.2, by rw [Ledger.winner, hentries]; rfl⟩

end Winner

/-- The winner is a voted block with its total weight, and no other voted hash has a larger one. -/
theorem winner_correct {env : Env} {weight : Account → Uint128} {order : TallyOrder} {votes : Votes}
    (hvoted : ∃ r b, votes.repVotes.get r = some b)
    (hsum : votes.totalWeight weight ≤ 2 ^ 128 - 1) :
    ∃ total w, Ledger.winner env weight order votes = some (total, w) ∧
      (∃ r b, votes.repVotes.get r = some b ∧ b.hash env = w.hash env) ∧
      total.toNat = votes.repVotes.sum
        (fun r b => if b.hash env = w.hash env then (weight r).toNat else 0) ∧
      ∀ r b, votes.repVotes.get r = some b →
        votes.repVotes.sum
          (fun r' b' => if b'.hash env = b.hash env then (weight r').toNat else 0) ≤
            total.toNat := by
  obtain ⟨r, b, hget⟩ := hvoted
  obtain ⟨total, w, hwin⟩ := exists_winner env weight order hget
  obtain ⟨hsupport, htop⟩ := isTop_of_winner hsum hwin
  obtain ⟨rest, hentries⟩ := entries_of_winner hwin
  obtain ⟨hfirst, -⟩ := Table.get_of_entries_cons hentries
  refine ⟨total, w, hwin, (voted_of_get_tally hsum hfirst).1, hsupport.symm, ?_⟩
  intro r' b' hget'
  rw [← hsupport]
  exact htop ⟨r', b', hget', rfl⟩

theorem winner_correct_rivals :
    rivalVotes.repVotes.get 1 = some (rival 1) ∧
      rivalVotes.totalWeight (rivalWeights 60 60) ≤ 2 ^ 128 - 1 ∧
      ∃ total w, Ledger.winner halfNode.env (rivalWeights 60 60) insertedOrder rivalVotes =
          some (total, w) ∧
        (∃ r b, rivalVotes.repVotes.get r = some b ∧
          b.hash halfNode.env = w.hash halfNode.env) ∧
        total.toNat = rivalVotes.repVotes.sum (fun r b =>
          if b.hash halfNode.env = w.hash halfNode.env then (rivalWeights 60 60 r).toNat else 0) ∧
        ∀ r b, rivalVotes.repVotes.get r = some b →
          rivalVotes.repVotes.sum (fun r' b' =>
            if b'.hash halfNode.env = b.hash halfNode.env then (rivalWeights 60 60 r').toNat
            else 0) ≤ total.toNat := by
  have hvoted : rivalVotes.repVotes.get 1 = some (rival 1) := by decide +kernel
  have hsum : rivalVotes.totalWeight (rivalWeights 60 60) ≤ 2 ^ 128 - 1 := by decide +kernel
  exact ⟨hvoted, hsum, winner_correct ⟨1, rival 1, hvoted⟩ hsum⟩

section Complete

/-- The tally has the whole weight, and every voted hash in one place, under its support. -/
structure Tally.Complete (env : Env) (weight : Account → Uint128) (votes : Votes)
    (tally : Tally) : Prop where
  total : (Election.tallySum tally).toNat = votes.totalWeight weight
  occurs : ∀ h, (votes.contest env weight).voted h → ∃ m b, tally.get m = some b ∧
    b.hash env = h ∧ (ofDual m).toNat = (votes.contest env weight).support h
  once : ∀ {m b m' b'}, tally.get m = some b → tally.get m' = some b' →
    b.hash env = b'.hash env → m = m'

def Votes.Untied (env : Env) (weight : Account → Uint128) (votes : Votes) : Prop :=
  ∀ h h', (votes.contest env weight).voted h → (votes.contest env weight).voted h' →
    (votes.contest env weight).support h = (votes.contest env weight).support h' → h = h'

theorem tallySum_eq (tally : Tally) :
    Election.tallySum tally = (tally.entries.map (fun x => ofDual x.1)).sum := by
  rw [Election.tallySum, ← List.foldl_map (f := fun x : Uint128ᵒᵈ × Block => ofDual x.1)
    (g := fun sum x : Uint128 => sum + x), ← List.sum_eq_foldl]

theorem sum_contributions (order : TallyOrder) :
    ((Ledger.contributions weight order votes).map Prod.snd).sum =
      BitVec.ofNat 128 (votes.totalWeight weight) := by
  rw [Votes.totalWeight, Table.ofNat_sum, Table.sum_eq_map_sum, Ledger.contributions, List.map_map]
  refine (((order.votes.perm votes.repVotes.entries).map _).sum_eq).trans ?_
  congr 1
  refine List.map_congr_left ?_
  intro x _
  simp

variable (hsum : votes.totalWeight weight ≤ 2 ^ 128 - 1)

include hsum in
theorem once_in_tally {m m' : Uint128ᵒᵈ} {b b' : Block}
    (hget : (Ledger.tally env weight order votes).get m = some b)
    (hget' : (Ledger.tally env weight order votes).get m' = some b')
    (hhash : b.hash env = b'.hash env) : m = m' := by
  have hm := (voted_of_get_tally hsum hget).2
  have hm' := (voted_of_get_tally hsum hget').2
  rw [hhash, hm'] at hm
  exact ofDual.injective (BitVec.eq_of_toNat_eq hm.symm)

include hsum in
theorem nodup_totals (order : TallyOrder) (huntied : votes.Untied env weight) :
    ((order.totals.order (totals (Block.hash env)
      (Ledger.contributions weight order votes))).map Prod.snd).Nodup := by
  refine (((order.totals.perm _).map Prod.snd).nodup_iff).mpr ?_
  have htotals := isTotals_totals (Block.hash env) (Ledger.contributions weight order votes)
  refine List.Nodup.map_on ?_ (List.Nodup.of_map _ htotals.nodup)
  intro y hy z hz heq
  have hvoted : ∀ {x}, x ∈ totals (Block.hash env) (Ledger.contributions weight order votes) →
      (votes.contest env weight).voted (x.1.hash env) ∧
        (votes.contest env weight).support (x.1.hash env) = x.2.toNat := by
    intro x hx
    obtain ⟨c, hc, hcx⟩ := htotals.contributed hx
    obtain ⟨r, b, hget, rfl⟩ := mem_contributions.mp hc
    refine ⟨⟨r, b, hget, congrArg (Block.hash env) hcx⟩, ?_⟩
    have htotal : (totalOf (Block.hash env) (x.1.hash env)
        (Ledger.contributions weight order votes)).toNat = _ := toNat_total hsum _
    rw [← htotal, ← snd_of_mem_totals _ hx]
  have hkey : y.1.hash env = z.1.hash env := by
    refine huntied _ _ (hvoted hy).1 (hvoted hz).1 ?_
    rw [(hvoted hy).2, (hvoted hz).2, heq]
  exact List.inj_on_of_nodup_map htotals.nodup hy hz hkey

include hsum in
theorem tallySum_of_untied (huntied : votes.Untied env weight) :
    (Election.tallySum (Ledger.tally env weight order votes)).toNat =
      votes.totalWeight weight := by
  have hperm := ranking_perm (nodup_totals hsum order huntied)
  have htotal : Election.tallySum (Ledger.tally env weight order votes) =
      BitVec.ofNat 128 (votes.totalWeight weight) := by
    rw [tallySum_eq, Ledger.tally, (hperm.map _).sum_eq, List.map_map,
      ← sum_contributions order, ← sum_totals (Block.hash env)]
    exact ((order.totals.perm _).map Prod.snd).sum_eq
  rw [htotal, BitVec.toNat_ofNat, Nat.mod_eq_of_lt (by omega)]

include hsum in
theorem occurs_of_untied (huntied : votes.Untied env weight) {h : BlockHash}
    (hvoted : (votes.contest env weight).voted h) :
    ∃ m b, (Ledger.tally env weight order votes).get m = some b ∧ b.hash env = h ∧
      (ofDual m).toNat = (votes.contest env weight).support h := by
  obtain ⟨m, b, hget, hm⟩ :
      ∃ m b, (Ledger.tally env weight order votes).get m = some b ∧
        (ofDual m).toNat = (votes.contest env weight).support h := exists_get_tally hsum hvoted
  obtain ⟨hvoted', hsupport⟩ := voted_of_get_tally hsum hget
  refine ⟨m, b, hget, ?_, hm⟩
  exact huntied _ _ hvoted' hvoted (hsupport.trans hm)

end Complete

/-- The tally is complete exactly if no two voted blocks have the same total. -/
theorem tally_complete_iff {env : Env} {weight : Account → Uint128} {order : TallyOrder}
    {votes : Votes} (hsum : votes.totalWeight weight ≤ 2 ^ 128 - 1) :
    Tally.Complete env weight votes (Ledger.tally env weight order votes) ↔
      votes.Untied env weight := by
  constructor
  · intro hcomplete h h' hvoted hvoted' heq
    obtain ⟨m, b, hget, rfl, hm⟩ := hcomplete.occurs h hvoted
    obtain ⟨m', b', hget', rfl, hm'⟩ := hcomplete.occurs h' hvoted'
    have hmm : m = m' := by
      refine ofDual.injective (BitVec.eq_of_toNat_eq ?_)
      rw [hm, hm', heq]
    rw [hmm, hget'] at hget
    rw [Option.some.inj hget]
  · intro huntied
    exact
      { total := tallySum_of_untied hsum huntied
        occurs := fun h hvoted => occurs_of_untied hsum huntied hvoted
        once := fun hget hget' hhash => once_in_tally hsum hget hget' hhash }

theorem tally_complete_iff_rivals :
    rivalVotes.totalWeight (rivalWeights 60 1) ≤ 2 ^ 128 - 1 ∧
      (Tally.Complete halfNode.env (rivalWeights 60 1) rivalVotes
          (Ledger.tally halfNode.env (rivalWeights 60 1) insertedOrder rivalVotes) ↔
        rivalVotes.Untied halfNode.env (rivalWeights 60 1)) := by
  have hsum : rivalVotes.totalWeight (rivalWeights 60 1) ≤ 2 ^ 128 - 1 := by decide +kernel
  exact ⟨hsum, tally_complete_iff hsum⟩

/-- Two blocks with the weight 60 each: the sum is 60 and the first block is missing. -/
theorem tally_incomplete :
    rivalVotes.totalWeight (rivalWeights 60 60) = 120 ∧
      Election.tallySum
        (Ledger.tally halfNode.env (rivalWeights 60 60) insertedOrder rivalVotes) = 60 ∧
      (rivalVotes.contest halfNode.env (rivalWeights 60 60)).voted ((rival 1).hash halfNode.env) ∧
      (∀ x ∈ (Ledger.tally halfNode.env (rivalWeights 60 60) insertedOrder rivalVotes).entries,
        x.2.hash halfNode.env ≠ (rival 1).hash halfNode.env) ∧
      ¬ Tally.Complete halfNode.env (rivalWeights 60 60) rivalVotes
        (Ledger.tally halfNode.env (rivalWeights 60 60) insertedOrder rivalVotes) := by
  have hweights : rivalVotes.totalWeight (rivalWeights 60 60) = 120 ∧
      Election.tallySum
        (Ledger.tally halfNode.env (rivalWeights 60 60) insertedOrder rivalVotes) = 60 ∧
      rivalVotes.repVotes.get 1 = some (rival 1) ∧
      ∀ x ∈ (Ledger.tally halfNode.env (rivalWeights 60 60) insertedOrder rivalVotes).entries,
        x.2.hash halfNode.env ≠ (rival 1).hash halfNode.env := by
    decide +kernel
  obtain ⟨htotal, hsum, hvoted, hmissing⟩ := hweights
  refine ⟨htotal, hsum, ⟨1, rival 1, hvoted, rfl⟩, hmissing, ?_⟩
  intro hcomplete
  have heq := hcomplete.total
  rw [hsum, htotal] at heq
  cases heq

end Badem
