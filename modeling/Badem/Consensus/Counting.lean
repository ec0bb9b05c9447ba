import Badem.Consensus.Confirmation
import Mathlib.Data.List.MinMax

/-!
# Counted votes

A vote is counted only if its pair of sequence number and block hash is greater than the
recorded one, so the recorded pair is the maximum of the counted ones, in every run.
-/

namespace Badem

open Mdb

/-- What votes of one representative are compared by. -/
abbrev VoteStamp := Uint64 ×ₗ BlockHash

def Vote.stamp (env : Env) (v : Vote) : VoteStamp := toLex (v.sequence, v.block.hash env)

def VoteInfo.stamp (i : VoteInfo) : VoteStamp := toLex (i.sequence, i.hash)

theorem VoteInfo.precedes_iff (env : Env) (i : VoteInfo) (v : Vote) :
    i.precedes env v = true ↔ i.stamp < v.stamp env := by
  rw [VoteInfo.precedes, VoteInfo.stamp, Vote.stamp, Prod.Lex.toLex_lt_toLex]
  simp

/-- The pairs of the votes of one representative. -/
def stampsOf (env : Env) (r : Account) (votes : List Vote) : List VoteStamp :=
  (votes.filter (fun v => decide (v.account = r))).map (Vote.stamp env)

section Stamps

variable {env : Env} {r : Account} {votes votes' : List Vote} {v : Vote}

theorem mem_stampsOf {x : VoteStamp} :
    x ∈ stampsOf env r votes ↔ ∃ v ∈ votes, v.account = r ∧ v.stamp env = x := by
  simp [stampsOf, and_assoc]

theorem stampsOf_cons (v : Vote) (votes : List Vote) :
    stampsOf env r (v :: votes) =
      (if v.account = r then [v.stamp env] else []) ++ stampsOf env r votes := by
  unfold stampsOf
  by_cases hr : v.account = r <;> simp [hr]

theorem stampsOf_append_self (votes : List Vote) (v : Vote) :
    stampsOf env v.account (votes ++ [v]) = stampsOf env v.account votes ++ [v.stamp env] := by
  simp [stampsOf]

theorem stampsOf_append_of_ne (hr : v.account ≠ r) :
    stampsOf env r (votes ++ [v]) = stampsOf env r votes := by
  simp [stampsOf, hr]

theorem maximum_stampsOf_perm (h : votes.Perm votes') :
    (stampsOf env r votes).maximum = (stampsOf env r votes').maximum := by
  have hmem : ∀ x, x ∈ stampsOf env r votes ↔ x ∈ stampsOf env r votes' := fun x =>
    ((h.filter _).map _).mem_iff
  cases hmax : (stampsOf env r votes').maximum with
  | bot =>
    rw [List.maximum_eq_bot] at hmax ⊢
    refine List.eq_nil_iff_forall_not_mem.mpr fun x hx => ?_
    have hx' := (hmem x).mp hx
    simp [hmax] at hx'
  | coe m =>
    obtain ⟨hm, hle⟩ := List.maximum_eq_coe_iff.mp hmax
    exact List.maximum_eq_coe_iff.mpr ⟨(hmem m).mpr hm, fun x hx => hle x ((hmem x).mp hx)⟩

end Stamps

namespace Election

variable {node : Node} {n : VoteReads} {e e' : Election} {v : Vote} {effects : List Effect}

/-- The pair recorded for a representative. -/
def recorded (e : Election) (r : Account) : WithBot VoteStamp :=
  match e.lastVotes.get r with
  | some i => i.stamp
  | none => ⊥

def recordedHash (env : Env) (e : Election) (r : Account) : Option BlockHash :=
  (e.votes.repVotes.get r).map (Block.hash env)

/-- The votes that are counted in a run. -/
def counted (node : Node) : Election → List (VoteReads × Vote) → List Vote
  | _, [] => []
  | e, (n, v) :: votes =>
    match e.vote node n v with
    | .ok (_, e', _) => (if (e.admits node n v).2 = true then [v] else []) ++ counted node e' votes
    | .error _ => []

section Step

theorem recorded_of_get {r : Account} {i : VoteInfo} (h : e.lastVotes.get r = some i) :
    e.recorded r = i.stamp := by
  rw [recorded, h]

theorem recorded_of_get_none {r : Account} (h : e.lastVotes.get r = none) : e.recorded r = ⊥ := by
  rw [recorded, h]

theorem lastVotes_of_confirmIfQuorum (h : e.confirmIfQuorum node n = .ok (e', effects)) :
    e'.lastVotes = e.lastVotes := by
  unfold confirmIfQuorum at h
  cases hentries : (Ledger.tally node.env n.weight n.order e.votes).entries with
  | nil => simp [hentries] at h
  | cons x rest =>
    simp only [hentries] at h
    obtain ⟨quorum, -, h⟩ := ok_of_bind h
    cases h
    unfold followTally confirmOnce
    split_ifs <;> rfl

theorem vote_records {r : Bool} (h : e.vote node n v = .ok (r, e', effects)) :
    r = (e.admits node n v).1 ∧
      (((e.admits node n v).2 = false ∧ e' = e) ∨
        ((e.admits node n v).2 = true ∧ e'.votes = (e.votes.vote v).2 ∧
          e'.lastVotes = e.lastVotes.put v.account
            ⟨n.recordedAt, v.sequence, v.block.hash node.env⟩)) := by
  obtain ⟨-, -, h⟩ := ok_of_bind h
  rcases hadmits : e.admits node n v with ⟨replay, shouldProcess⟩
  rw [hadmits] at h
  cases shouldProcess with
  | false =>
    obtain ⟨hreplay, hsame⟩ := Prod.mk.inj (Except.ok.inj h)
    exact ⟨hreplay.symm, .inl ⟨rfl, (Prod.mk.inj hsame).1.symm⟩⟩
  | true =>
    obtain ⟨⟨e₁, fired⟩, hconfirm, h⟩ := ok_of_bind h
    obtain ⟨hreplay, hsame⟩ := Prod.mk.inj (Except.ok.inj h)
    obtain ⟨rfl, -⟩ := Prod.mk.inj hsame
    obtain ⟨_, _, -, -, houtcome⟩ := outcome_of_confirmIfQuorum hconfirm
    exact ⟨hreplay.symm, .inr ⟨rfl, houtcome.votes, lastVotes_of_confirmIfQuorum hconfirm⟩⟩

def Weighty (node : Node) (weight : Account → Uint128) (supplyTotal : Uint128) (r : Account) :
    Prop :=
  node.env.network = .test ∨ weight r > node.onlineStake supplyTotal / 1000

instance (node : Node) (weight : Account → Uint128) (supplyTotal : Uint128) (r : Account) :
    Decidable (Weighty node weight supplyTotal r) :=
  inferInstanceAs (Decidable (_ ∨ _))

theorem admits_of_not_weighty (hweight : ¬ Weighty node n.weight n.supplyTotal v.account) :
    e.admits node n v = (false, false) :=
  if_neg hweight

theorem admits_of_get_none (hweight : Weighty node n.weight n.supplyTotal v.account)
    (hlast : e.lastVotes.get v.account = none) : e.admits node n v = (false, true) := by
  refine (if_pos hweight).trans ?_
  rw [hlast]

theorem admits_of_get (hweight : Weighty node n.weight n.supplyTotal v.account)
    {i : VoteInfo} (hlast : e.lastVotes.get v.account = some i) :
    e.admits node n v =
      if i.stamp < v.stamp node.env then
        (false, decide (i.time ≤ n.checkedAt -
          cooldown (n.weight v.account) (node.onlineStake n.supplyTotal) * 10 ^ 9))
      else (true, false) := by
  refine (if_pos hweight).trans ?_
  simp only [hlast, VoteInfo.precedes_iff]

theorem admits_replay_iff (node : Node) (n : VoteReads) (e : Election) (v : Vote) :
    (e.admits node n v).1 = true ↔
      Weighty node n.weight n.supplyTotal v.account ∧
        ((v.stamp node.env : VoteStamp) : WithBot VoteStamp) ≤ e.recorded v.account := by
  by_cases hweight : Weighty node n.weight n.supplyTotal v.account
  · cases hlast : e.lastVotes.get v.account with
    | none =>
      rw [admits_of_get_none hweight hlast, recorded_of_get_none hlast]
      simp
    | some i =>
      rw [admits_of_get hweight hlast, recorded_of_get hlast, WithBot.coe_le_coe]
      by_cases hlt : i.stamp < v.stamp node.env
      · simp [hlt]
      · simp [hlt, hweight, not_lt.mp hlt]
  · rw [admits_of_not_weighty hweight]
    simp [hweight]

theorem lt_of_admits (h : (e.admits node n v).2 = true) :
    Weighty node n.weight n.supplyTotal v.account ∧
      e.recorded v.account < ((v.stamp node.env : VoteStamp) : WithBot VoteStamp) := by
  by_cases hweight : Weighty node n.weight n.supplyTotal v.account
  · refine ⟨hweight, ?_⟩
    cases hlast : e.lastVotes.get v.account with
    | none =>
      rw [recorded_of_get_none hlast]
      exact WithBot.bot_lt_coe _
    | some i =>
      rw [admits_of_get hweight hlast] at h
      rw [recorded_of_get hlast, WithBot.coe_lt_coe]
      by_contra hlt
      simp [hlt] at h
  · simp [admits_of_not_weighty hweight] at h

theorem recorded_of_put
    (hput : e'.lastVotes = e.lastVotes.put v.account
      ⟨n.recordedAt, v.sequence, v.block.hash node.env⟩) (r : Account) :
    e'.recorded r = if r = v.account then ((v.stamp node.env : VoteStamp) : WithBot VoteStamp)
      else e.recorded r := by
  unfold recorded
  rw [hput, Table.get_put]
  by_cases hr : r = v.account
  · rw [if_pos hr, if_pos hr]
    rfl
  · rw [if_neg hr, if_neg hr]

theorem recordedHash_of_vote (hvotes : e'.votes = (e.votes.vote v).2) (r : Account) :
    e'.recordedHash node.env r = if r = v.account then some (v.block.hash node.env)
      else e.recordedHash node.env r := by
  unfold recordedHash
  rw [hvotes, get_vote]
  split_ifs <;> rfl

theorem recorded_le_of_vote {replay : Bool} (h : e.vote node n v = .ok (replay, e', effects))
    (r : Account) : e.recorded r ≤ e'.recorded r := by
  rcases (vote_records h).2 with ⟨-, rfl⟩ | ⟨hadmits, -, hput⟩
  · exact le_refl _
  · rw [recorded_of_put hput]
    by_cases hr : r = v.account
    · rw [if_pos hr, hr]
      exact (lt_of_admits hadmits).2.le
    · rw [if_neg hr]

end Step

section Runs

/-- The two records of an election after some votes have been counted, when the hashes
`first` were recorded before. -/
structure Records (node : Node) (first : Account → Option BlockHash) (past : List Vote)
    (e : Election) : Prop where
  stamps : ∀ r, e.recorded r = (stampsOf node.env r past).maximum
  hashes : ∀ r i, e.lastVotes.get r = some i → e.recordedHash node.env r = some i.hash
  untouched : ∀ r, e.lastVotes.get r = none → e.recordedHash node.env r = first r

theorem records_start (node : Node) (b : Block) :
    Records node ((start node b).recordedHash node.env) [] (start node b) where
  stamps _ := rfl
  hashes r i hget := absurd hget (by simp [start])
  untouched _ _ := rfl

variable {first : Account → Option BlockHash} {past : List Vote}

theorem Records.vote {replay : Bool} (hrec : Records node first past e)
    (h : e.vote node n v = .ok (replay, e', effects)) :
    Records node first (past ++ if (e.admits node n v).2 = true then [v] else []) e' := by
  rcases (vote_records h).2 with ⟨hadmits, rfl⟩ | ⟨hadmits, hvotes, hput⟩
  · simpa [List.append_nil, hadmits] using hrec
  · rw [if_pos hadmits]
    have hget : ∀ r, e'.lastVotes.get r = if r = v.account then
        some ⟨n.recordedAt, v.sequence, v.block.hash node.env⟩ else e.lastVotes.get r := by
      intro r
      rw [hput, Table.get_put]
    refine ⟨?_, ?_, ?_⟩
    · intro r
      rw [recorded_of_put hput]
      by_cases hr : r = v.account
      · rw [if_pos hr, hr, stampsOf_append_self, List.maximum_concat, ← hrec.stamps,
          max_eq_right (lt_of_admits hadmits).2.le]
      · rw [if_neg hr, stampsOf_append_of_ne (fun h => hr h.symm), hrec.stamps]
    · intro r i hi
      rw [hget] at hi
      rw [recordedHash_of_vote hvotes]
      by_cases hr : r = v.account
      · grind
      · rw [if_neg hr] at hi ⊢
        exact hrec.hashes r i hi
    · intro r hi
      rw [hget] at hi
      rw [recordedHash_of_vote hvotes]
      by_cases hr : r = v.account
      · simp [hr] at hi
      · rw [if_neg hr] at hi ⊢
        exact hrec.untouched r hi

theorem Records.voteAll (votes : List (VoteReads × Vote)) :
    ∀ {e e' : Election} {effects : List Effect} {past : List Vote},
      Records node first past e → e.voteAll node votes = .ok (e', effects) →
      Records node first (past ++ counted node e votes) e' := by
  induction votes with
  | nil =>
    intro e e' effects past hrec h
    cases h
    rw [counted, List.append_nil]
    exact hrec
  | cons x votes ih =>
    intro e e' effects past hrec h
    obtain ⟨n, v⟩ := x
    obtain ⟨replay, e₁, fired, later, hvote, hrest, -⟩ := voteAll_cons h
    have hrun := ih (hrec.vote hvote) hrest
    rw [List.append_assoc] at hrun
    rw [counted, hvote]
    exact hrun

theorem recorded_le_of_voteAll (votes : List (VoteReads × Vote)) :
    ∀ {e e' : Election} {effects : List Effect},
      e.voteAll node votes = .ok (e', effects) → ∀ r, e.recorded r ≤ e'.recorded r := by
  induction votes with
  | nil =>
    intro e e' effects h r
    cases h
    exact le_refl _
  | cons x votes ih =>
    intro e e' effects h r
    obtain ⟨replay, e₁, fired, later, hvote, hrest, -⟩ := voteAll_cons h
    exact (recorded_le_of_vote hvote r).trans (ih hrest r)

theorem voteAll_append {votes later : List (VoteReads × Vote)}
    (h : e.voteAll node (votes ++ later) = .ok (e', effects)) :
    ∃ e₁ fired rest, e.voteAll node votes = .ok (e₁, fired) ∧
      e₁.voteAll node later = .ok (e', rest) := by
  induction votes generalizing e effects with
  | nil => exact ⟨e, [], effects, rfl, h⟩
  | cons x votes ih =>
    obtain ⟨replay, e₁, fired, others, hvote, hrest, -⟩ := voteAll_cons h
    obtain ⟨e₂, fired₂, rest, hfirst, hsecond⟩ := ih hrest
    exact ⟨e₂, fired ++ fired₂, rest, voteAll_of_vote hvote hfirst, hsecond⟩

theorem voteAll_total (votes : List (VoteReads × Vote)) :
    ∀ e : Election, (∀ x ∈ votes, x.2.validate node.env = false) →
      ∃ e' effects, e.voteAll node votes = .ok (e', effects) := by
  induction votes with
  | nil =>
    intro e _
    exact ⟨e, [], rfl⟩
  | cons x votes ih =>
    intro e hvalid
    obtain ⟨replay, e₁, fired, hvote⟩ := vote_total node x.1 e (hvalid x (.head _))
    obtain ⟨e', later, hrest⟩ := ih e₁ (fun y hy => hvalid y (.tail _ hy))
    exact ⟨e', fired ++ later, voteAll_of_vote hvote hrest⟩

end Runs

section Spaced

/-- Votes that arrive more than fifteen seconds apart, with fixed weights and stake. -/
structure Spaced (weight : Account → Uint128) (supplyTotal : Uint128)
    (votes : List (VoteReads × Vote)) : Prop where
  weight : ∀ x ∈ votes, x.1.weight = weight
  supply : ∀ x ∈ votes, x.1.supplyTotal = supplyTotal
  apart : votes.Pairwise (fun x y => x.1.recordedAt + 15 * 10 ^ 9 < y.1.checkedAt)

variable {weight : Account → Uint128} {supplyTotal : Uint128}

theorem cooldown_le (weight supply : Uint128) : cooldown weight supply ≤ 15 := by
  unfold cooldown
  split_ifs <;> decide

theorem recorded_of_rested {replay : Bool} (h : e.vote node n v = .ok (replay, e', effects))
    (hrested : ∀ i, e.lastVotes.get v.account = some i → i.time + 15 * 10 ^ 9 < n.checkedAt)
    (r : Account) :
    e'.recorded r =
      if v.account = r ∧ Weighty node n.weight n.supplyTotal r then
        max (e.recorded r) (v.stamp node.env : VoteStamp)
      else e.recorded r := by
  rcases (vote_records h).2 with ⟨hadmits, rfl⟩ | ⟨hadmits, -, hput⟩
  · split_ifs with hcond
    · obtain ⟨rfl, hweight⟩ := hcond
      cases hlast : e'.lastVotes.get v.account with
      | none => simp [admits_of_get_none hweight hlast] at hadmits
      | some i =>
        have htime := hrested i hlast
        have hcool := cooldown_le (n.weight v.account) (node.onlineStake n.supplyTotal)
        rw [admits_of_get hweight hlast] at hadmits
        rw [recorded_of_get hlast]
        split_ifs at hadmits with hlt
        · have hlate := of_decide_eq_false hadmits
          omega
        · exact (max_eq_left (WithBot.coe_le_coe.mpr (not_lt.mp hlt))).symm
    · rfl
  · obtain ⟨hweight, hlt⟩ := lt_of_admits hadmits
    rw [recorded_of_put hput]
    grind

theorem recorded_of_spaced (votes : List (VoteReads × Vote)) :
    ∀ {e e' : Election} {effects : List Effect},
      e.voteAll node votes = .ok (e', effects) → Spaced weight supplyTotal votes →
      (∀ r i, e.lastVotes.get r = some i →
        ∀ x ∈ votes, i.time + 15 * 10 ^ 9 < x.1.checkedAt) →
      ∀ r, e'.recorded r =
        if Weighty node weight supplyTotal r then
          max (e.recorded r) (stampsOf node.env r (votes.map Prod.snd)).maximum
        else e.recorded r := by
  induction votes with
  | nil =>
    intro e e' effects h _ _ r
    cases h
    simp [stampsOf]
  | cons x votes ih =>
    intro e e' effects h hspaced hrested r
    obtain ⟨n, v⟩ := x
    obtain ⟨replay, e₁, fired, later, hvote, hrest, -⟩ := voteAll_cons h
    obtain ⟨hfirst, hpairs⟩ := List.pairwise_cons.mp hspaced.apart
    have hweight : n.weight = weight := hspaced.weight _ (.head _)
    have hsupply : n.supplyTotal = supplyTotal := hspaced.supply _ (.head _)
    have hlater : Spaced weight supplyTotal votes :=
      ⟨fun y hy => hspaced.weight y (.tail _ hy),
        fun y hy => hspaced.supply y (.tail _ hy), hpairs⟩
    have htimes : ∀ r i, e₁.lastVotes.get r = some i →
        ∀ y ∈ votes, i.time + 15 * 10 ^ 9 < y.1.checkedAt := by
      intro r i hget y hy
      rcases (vote_records hvote).2 with ⟨-, rfl⟩ | ⟨-, -, hput⟩
      · exact hrested r i hget y (.tail _ hy)
      · rw [hput, Table.get_put] at hget
        split_ifs at hget
        · rw [← Option.some.inj hget]
          exact hfirst y hy
        · exact hrested r i hget y (.tail _ hy)
    have hstep := recorded_of_rested hvote
      (fun i hget => hrested _ i hget _ (.head _)) r
    rw [hweight, hsupply] at hstep
    rw [ih hrest hlater htimes r, hstep, List.map_cons, stampsOf_cons]
    by_cases hw : Weighty node weight supplyTotal r
    · by_cases hr : v.account = r
      · rw [if_pos hw, if_pos ⟨hr, hw⟩, if_pos hw, if_pos hr, List.singleton_append,
          List.maximum_cons, max_assoc]
      · rw [if_pos hw, if_neg (fun hcond => hr hcond.1), if_pos hw, if_neg hr,
          List.nil_append]
    · rw [if_neg hw, if_neg (fun hcond => hw hcond.2), if_neg hw]

end Spaced

end Election

/-- What is recorded at the end of a run is the maximum of the counted pairs, and no recorded pair
has decreased on the way. -/
structure Election.Settles (node : Node) (weight : Account → Uint128) (supplyTotal : Uint128)
    (start : Election) (votes : List (VoteReads × Vote)) (e : Election) : Prop where
  counted : ∀ r, e.recorded r = (stampsOf node.env r (start.counted node votes)).maximum
  weighty : ∀ r, Election.Weighty node weight supplyTotal r →
    e.recorded r = (stampsOf node.env r (votes.map Prod.snd)).maximum
  hashes : ∀ r i, e.lastVotes.get r = some i → e.recordedHash node.env r = some i.hash
  grows : ∀ earlier later, votes = earlier ++ later → ∃ e₁ fired,
    start.voteAll node earlier = .ok (e₁, fired) ∧ ∀ r, e₁.recorded r ≤ e.recorded r

variable {node : Node} {b : Block} {weight : Account → Uint128} {supplyTotal : Uint128}
  {votes : List (VoteReads × Vote)} {e : Election} {effects : List Effect}

theorem Election.Spaced.recorded_eq (hspaced : Election.Spaced weight supplyTotal votes)
    (hrun : (Election.start node b).voteAll node votes = .ok (e, effects)) (r : Account) :
    e.recorded r =
      if Election.Weighty node weight supplyTotal r then
        (stampsOf node.env r (votes.map Prod.snd)).maximum
      else ⊥ := by
  rw [Election.recorded_of_spaced votes hrun hspaced
    (fun r i hget => absurd hget (by simp [Election.start]))]
  split_ifs
  · exact max_eq_right bot_le
  · rfl

theorem Election.Spaced.settles (hspaced : Election.Spaced weight supplyTotal votes)
    (hrun : (Election.start node b).voteAll node votes = .ok (e, effects)) :
    Election.Settles node weight supplyTotal (Election.start node b) votes e where
  counted := ((Election.records_start node b).voteAll votes hrun).stamps
  weighty := by
    intro r hweight
    rw [hspaced.recorded_eq hrun, if_pos hweight]
  hashes := ((Election.records_start node b).voteAll votes hrun).hashes
  grows := by
    rintro earlier later rfl
    obtain ⟨e₁, fired, rest, hfirst, hsecond⟩ := Election.voteAll_append hrun
    exact ⟨e₁, fired, hfirst, Election.recorded_le_of_voteAll later hsecond⟩

/-- Valid votes more than fifteen seconds apart leave the same records in any two orders. -/
theorem election_order_free {node : Node} {b : Block} {weight : Account → Uint128}
    {supplyTotal : Uint128} {votes votes' : List (VoteReads × Vote)}
    (hvalid : ∀ x ∈ votes, x.2.validate node.env = false)
    (hperm : (votes'.map Prod.snd).Perm (votes.map Prod.snd))
    (hspaced : Election.Spaced weight supplyTotal votes)
    (hspaced' : Election.Spaced weight supplyTotal votes') :
    ∃ e effects e' effects',
      (Election.start node b).voteAll node votes = .ok (e, effects) ∧
      (Election.start node b).voteAll node votes' = .ok (e', effects') ∧
      (∀ r, e.recorded r = e'.recorded r) ∧
      (∀ r, e.recordedHash node.env r = e'.recordedHash node.env r) ∧
      Election.Settles node weight supplyTotal (Election.start node b) votes e ∧
      Election.Settles node weight supplyTotal (Election.start node b) votes' e' := by
  have hvalid' : ∀ x ∈ votes', x.2.validate node.env = false := by
    intro x hx
    obtain ⟨y, hy, hyx⟩ := List.mem_map.mp (hperm.mem_iff.mp (List.mem_map_of_mem hx))
    rw [← hyx]
    exact hvalid y hy
  obtain ⟨e, effects, hrun⟩ := Election.voteAll_total votes (Election.start node b) hvalid
  obtain ⟨e', effects', hrun'⟩ := Election.voteAll_total votes' (Election.start node b) hvalid'
  have hrec := (Election.records_start node b).voteAll votes hrun
  have hrec' := (Election.records_start node b).voteAll votes' hrun'
  have hsame : ∀ r, e.recorded r = e'.recorded r := by
    intro r
    rw [hspaced.recorded_eq hrun, hspaced'.recorded_eq hrun', maximum_stampsOf_perm hperm]
  refine ⟨e, effects, e', effects', hrun, hrun', hsame, ?_, hspaced.settles hrun,
    hspaced'.settles hrun'⟩
  -- the hash is part of the recorded pair, or both elections still have the first block
  intro r
  have hr := hsame r
  cases hget : e.lastVotes.get r with
  | none =>
    cases hget' : e'.lastVotes.get r with
    | none => rw [hrec.untouched r hget, hrec'.untouched r hget']
    | some i' =>
      rw [Election.recorded_of_get_none hget, Election.recorded_of_get hget'] at hr
      exact absurd hr (WithBot.bot_ne_coe)
  | some i =>
    cases hget' : e'.lastVotes.get r with
    | none =>
      rw [Election.recorded_of_get hget, Election.recorded_of_get_none hget'] at hr
      exact absurd hr (WithBot.coe_ne_bot)
    | some i' =>
      rw [Election.recorded_of_get hget, Election.recorded_of_get hget',
        WithBot.coe_inj] at hr
      have hhash : i.hash = i'.hash := congrArg (fun x => (ofLex x).2) hr
      rw [hrec.hashes r i hget, hrec'.hashes r i' hget', hhash]

theorem election_order_free_rivals :
    ∃ e effects e' effects',
      (Election.start halfNode (rival 1)).voteAll halfNode
        [(readsAt (rivalWeights 60 0) 0, ballot 1 1 (rival 1)),
          (readsAt (rivalWeights 60 0) (20 * 10 ^ 9), ballot 1 2 (rival 2))] = .ok (e, effects) ∧
      (Election.start halfNode (rival 1)).voteAll halfNode
        [(readsAt (rivalWeights 60 0) 0, ballot 1 2 (rival 2)),
          (readsAt (rivalWeights 60 0) (20 * 10 ^ 9), ballot 1 1 (rival 1))] =
            .ok (e', effects') ∧
      (∀ r, e.recorded r = e'.recorded r) ∧
      ∀ r, e.recordedHash halfNode.env r = e'.recordedHash halfNode.env r := by
  have hspaced : ∀ v w : Vote, Election.Spaced (rivalWeights 60 0) 0
      [(readsAt (rivalWeights 60 0) 0, v), (readsAt (rivalWeights 60 0) (20 * 10 ^ 9), w)] := by
    intro v w
    refine ⟨?_, ?_, ?_⟩
    · intro x hx
      rcases List.mem_pair.mp hx with rfl | rfl <;> rfl
    · intro x hx
      rcases List.mem_pair.mp hx with rfl | rfl <;> rfl
    · exact List.pairwise_pair.mpr (show (0 : Int) + 15 * 10 ^ 9 < 20 * 10 ^ 9 by decide)
  have hvalid : ∀ x ∈ [(readsAt (rivalWeights 60 0) 0, ballot 1 1 (rival 1)),
      (readsAt (rivalWeights 60 0) (20 * 10 ^ 9), ballot 1 2 (rival 2))],
      x.2.validate halfNode.env = false := fun x _ => rfl
  have hperm : ([(readsAt (rivalWeights 60 0) 0, ballot 1 2 (rival 2)),
      (readsAt (rivalWeights 60 0) (20 * 10 ^ 9), ballot 1 1 (rival 1))].map Prod.snd).Perm
      ([(readsAt (rivalWeights 60 0) 0, ballot 1 1 (rival 1)),
        (readsAt (rivalWeights 60 0) (20 * 10 ^ 9), ballot 1 2 (rival 2))].map Prod.snd) :=
    List.Perm.swap _ _ _
  obtain ⟨e, effects, e', effects', hrun, hrun', hpairs, hhashes, -, -⟩ :=
    election_order_free hvalid hperm (hspaced _ _) (hspaced _ _)
  exact ⟨e, effects, e', effects', hrun, hrun', hpairs, hhashes⟩

end Badem
