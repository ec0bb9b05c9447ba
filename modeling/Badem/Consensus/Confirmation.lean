import Badem.Consensus.Quorum

/-!
# Confirmation

What one call of `election::vote` does to the winner and which block it confirms.  The winner
follows the tally as soon as enough weight has voted, and a quorum confirms the winner: these
are two conditions.
-/

namespace Badem

open Mdb Containers OrderDual

namespace Election

variable {node : Node} {n : VoteReads} {e e' : Election} {v : Vote} {effects : List Effect}

section Step

def tallyWith (node : Node) (n : VoteReads) (e : Election) (v : Vote) : Tally :=
  Ledger.tally node.env n.weight n.order (e.votes.vote v).2

def front (tally : Tally) : Option Block := tally.entries.head?.map Prod.snd

def Binding (node : Node) (tally : Tally) : Prop :=
  node.config.onlineWeightMinimum ≤ tallySum tally

/-- The confirmations among effects. -/
def confirmations (effects : List Effect) : List Block :=
  effects.filterMap (fun | .confirm b => some b | _ => none)

variable {b block : Block} {tally : Tally} {quorum : Bool} {fired : List Effect}

theorem mem_confirmations : b ∈ confirmations effects ↔ .confirm b ∈ effects := by
  rw [confirmations, List.mem_filterMap]
  constructor
  · rintro ⟨x, hx, hb⟩
    cases x with
    | confirm c => exact Option.some.inj hb ▸ hx
    | _ => exact absurd hb (by simp)
  · intro hb
    exact ⟨_, hb, rfl⟩

/-- The winner before a quorum is looked for. -/
structure Follows (node : Node) (tally : Tally) (block : Block) (e e' : Election)
    (effects : List Effect) : Prop where
  votes : e'.votes = e.votes
  confirmed : e'.confirmed = e.confirmed
  binding : Binding node tally → e'.status.winner = block
  free : ¬ Binding node tally → e'.status.winner = e.status.winner
  forces : ∀ b, .force b ∈ effects ↔
    (Binding node tally ∧ ¬ block = e.status.winner) ∧ b = block
  confirms : confirmations effects = []

theorem follows_followTally (node : Node) (tally : Tally) (block : Block) (e : Election) :
    Follows node tally block e (followTally node tally block e).1
      (followTally node tally block e).2 := by
  unfold followTally
  by_cases hfollow : Binding node tally ∧ ¬ block = e.status.winner
  · have hcond : node.config.onlineWeightMinimum ≤ tallySum tally ∧
        ¬ block = e.status.winner := hfollow
    rw [if_pos hcond]
    exact ⟨rfl, rfl, fun _ => rfl, fun hfree => absurd hfollow.1 hfree,
      fun b => by simp [hfollow], rfl⟩
  · have hcond : ¬ (node.config.onlineWeightMinimum ≤ tallySum tally ∧
        ¬ block = e.status.winner) := hfollow
    rw [if_neg hcond]
    refine ⟨rfl, rfl, ?_, fun _ => rfl, fun b => by simp [hfollow], rfl⟩
    intro hbinding
    exact (not_not.mp fun hne => hfollow ⟨hbinding, hne⟩).symm

/-- A quorum confirms the winner unless one has been confirmed before. -/
structure Confirms (quorum : Bool) (e e' : Election) (effects : List Effect) : Prop where
  votes : e'.votes = e.votes
  status : e'.status = e.status
  confirmed : e'.confirmed = (e.confirmed || quorum)
  forces : ∀ b, .force b ∉ effects
  confirms : confirmations effects =
    if quorum = true ∧ e.confirmed = false then [e.status.winner] else []

theorem confirms_confirmOnce (quorum : Bool) (e : Election) :
    Confirms quorum e (if quorum then e.confirmOnce else (e, [])).1
      (if quorum then e.confirmOnce else (e, [])).2 := by
  unfold confirmOnce
  cases quorum <;> cases hconfirmed : e.confirmed <;>
    exact ⟨rfl, rfl, by simp [hconfirmed], fun b => by simp, by simp [hconfirmed, confirmations]⟩

/-- What `confirm_if_quorum` does with a tally that lists `block` first. -/
structure Outcome (node : Node) (tally : Tally) (block : Block) (quorum : Bool)
    (e e' : Election) (effects : List Effect) : Prop where
  votes : e'.votes = e.votes
  binding : Binding node tally → e'.status.winner = block
  free : ¬ Binding node tally → e'.status.winner = e.status.winner
  confirmed : e'.confirmed = (e.confirmed || quorum)
  forces : ∀ b, .force b ∈ effects ↔
    (Binding node tally ∧ ¬ block = e.status.winner) ∧ b = block
  confirms : confirmations effects =
    if quorum = true ∧ e.confirmed = false then [e'.status.winner] else []

theorem Follows.outcome {e₁ e₂ : Election} {forced : List Effect}
    (h₁ : Follows node tally block e e₁ forced) (h₂ : Confirms quorum e₁ e₂ fired) :
    Outcome node tally block quorum e e₂ (forced ++ fired) where
  votes := h₂.votes.trans h₁.votes
  binding hbinding := by rw [h₂.status, h₁.binding hbinding]
  free hfree := by rw [h₂.status, h₁.free hfree]
  confirmed := by rw [h₂.confirmed, h₁.confirmed]
  forces b := by
    rw [List.mem_append, or_iff_left (h₂.forces b), h₁.forces]
  confirms := by
    rw [confirmations, List.filterMap_append, ← confirmations, ← confirmations, h₁.confirms,
      h₂.confirms, h₁.confirmed, h₂.status, List.nil_append]

theorem outcome_of_confirmIfQuorum (h : e.confirmIfQuorum node n = .ok (e', effects)) :
    ∃ block quorum,
      front (Ledger.tally node.env n.weight n.order e.votes) = some block ∧
      haveQuorum (node.delta n.deltaTotal) (Ledger.tally node.env n.weight n.order e.votes) =
        .ok quorum ∧
      Outcome node (Ledger.tally node.env n.weight n.order e.votes) block quorum e e' effects := by
  unfold confirmIfQuorum at h
  cases hentries : (Ledger.tally node.env n.weight n.order e.votes).entries with
  | nil => simp [hentries] at h
  | cons x rest =>
    obtain ⟨total, block⟩ := x
    simp only [hentries] at h
    obtain ⟨quorum, hquorum, h⟩ := ok_of_bind h
    refine ⟨block, quorum, by rw [front, hentries]; rfl, hquorum, ?_⟩
    cases h
    have hfollows := follows_followTally node
      (Ledger.tally node.env n.weight n.order e.votes) block
      { e with status := { e.status with tally := ofDual total } }
    have houtcome := hfollows.outcome (confirms_confirmOnce quorum _)
    -- recording the total leaves the winner as it is
    exact ⟨houtcome.votes, houtcome.binding, houtcome.free, houtcome.confirmed,
      houtcome.forces, houtcome.confirms⟩

theorem vote_cases {r : Bool} (h : e.vote node n v = .ok (r, e', effects)) :
    ((e.admits node n v).2 = false ∧ e' = e ∧ effects = []) ∨
      ((e.admits node n v).2 = true ∧ ∃ block quorum fired,
        front (tallyWith node n e v) = some block ∧
        haveQuorum (node.delta n.deltaTotal) (tallyWith node n e v) = .ok quorum ∧
        Outcome node (tallyWith node n e v) block quorum (e.count node n v) e' fired ∧
        effects = .republishVote v :: fired) := by
  obtain ⟨-, -, h⟩ := ok_of_bind h
  rcases hadmits : e.admits node n v with ⟨replay, counted⟩
  rw [hadmits] at h
  cases counted with
  | false =>
    obtain ⟨-, h⟩ := Prod.mk.inj (Except.ok.inj h)
    obtain ⟨rfl, rfl⟩ := Prod.mk.inj h
    exact .inl ⟨rfl, rfl, rfl⟩
  | true =>
    obtain ⟨⟨e₁, fired⟩, hconfirm, h⟩ := ok_of_bind h
    obtain ⟨-, h⟩ := Prod.mk.inj (Except.ok.inj h)
    obtain ⟨rfl, rfl⟩ := Prod.mk.inj h
    obtain ⟨block, quorum, hfront, hquorum, houtcome⟩ := outcome_of_confirmIfQuorum hconfirm
    exact .inr ⟨rfl, block, quorum, fired, hfront, hquorum, houtcome, rfl⟩

theorem Outcome.of_confirm (h : Outcome node tally block quorum e e' fired)
    (hb : Effect.confirm b ∈ Effect.republishVote v :: fired) :
    quorum = true ∧ b = e'.status.winner := by
  rw [List.mem_cons, or_iff_right (by simp), ← mem_confirmations, h.confirms] at hb
  split_ifs at hb with hcond
  · exact ⟨hcond.1, List.mem_singleton.mp hb⟩
  · simp at hb

end Step

end Election

/-- The confirmed block is the first one of the tally exactly if enough weight has voted or it was
the winner already. -/
theorem confirmed_block_won_iff {node : Node} {n : VoteReads} {e e' : Election} {v : Vote}
    {r : Bool} {effects : List Effect} {b w : Block}
    (hvote : e.vote node n v = .ok (r, e', effects)) (hconfirm : Effect.confirm b ∈ effects)
    (hfront : Election.front (e.tallyWith node n v) = some w) :
    Election.haveQuorum (node.delta n.deltaTotal) (e.tallyWith node n v) = .ok true ∧
      (b.hash node.env = w.hash node.env ↔
        Election.Binding node (e.tallyWith node n v) ∨
          e.status.winner.hash node.env = w.hash node.env) := by
  rcases Election.vote_cases hvote with
    ⟨-, -, rfl⟩ | ⟨-, block, quorum, fired, hfront', hquorum, houtcome, rfl⟩
  · simp at hconfirm
  · cases hfront.symm.trans hfront'
    obtain ⟨rfl, rfl⟩ := houtcome.of_confirm hconfirm
    refine ⟨hquorum, ?_⟩
    by_cases hbinding : Election.Binding node (e.tallyWith node n v)
    · rw [houtcome.binding hbinding]
      exact ⟨fun _ => Or.inl hbinding, fun _ => rfl⟩
    · rw [houtcome.free hbinding, or_iff_right hbinding]
      rfl

def ballot (r : Account) (sequence : Uint64) (b : Block) : Vote := ⟨sequence, b, r, 0⟩

def readsAt (weight : Account → Uint128) (time : Int) : VoteReads :=
  ⟨weight, 0, 0, time, time, insertedOrder⟩

theorem confirmed_block_won_iff_rival :
    ∃ e' effects,
      (Election.start halfNode (rival 2)).vote halfNode (readsAt (rivalWeights 100 0) 0)
        (ballot 1 1 (rival 1)) = .ok (false, e', effects) ∧
      Effect.confirm (rival 1) ∈ effects ∧
      ((rival 1).hash halfNode.env = (rival 1).hash halfNode.env ↔
        Election.Binding halfNode ((Election.start halfNode (rival 2)).tallyWith halfNode
            (readsAt (rivalWeights 100 0) 0) (ballot 1 1 (rival 1))) ∨
          (rival 2).hash halfNode.env = (rival 1).hash halfNode.env) := by
  have h : ∃ x, (Election.start halfNode (rival 2)).vote halfNode
      (readsAt (rivalWeights 100 0) 0) (ballot 1 1 (rival 1)) = .ok x ∧
      x.1 = false ∧ Effect.confirm (rival 1) ∈ x.2.2 := by
    decide +kernel
  obtain ⟨⟨r, e', effects⟩, hvote, rfl, hconfirm⟩ := h
  exact ⟨e', effects, hvote, hconfirm,
    (confirmed_block_won_iff hvote hconfirm (by decide +kernel)).2⟩

/-- A vote below the minimum weight confirms the block that the election began with, though
the quorum is for another one. -/
theorem confirmed_block_lost :
    ∃ e' effects,
      (Election.start halfNode (rival 2)).vote halfNode (readsAt (rivalWeights 60 0) 0)
        (ballot 1 1 (rival 1)) = .ok (false, e', effects) ∧
      Effect.confirm (rival 2) ∈ effects ∧
      Election.haveQuorum (halfNode.delta 0) ((Election.start halfNode (rival 2)).tallyWith
        halfNode (readsAt (rivalWeights 60 0) 0) (ballot 1 1 (rival 1))) = .ok true ∧
      Election.front ((Election.start halfNode (rival 2)).tallyWith halfNode
        (readsAt (rivalWeights 60 0) 0) (ballot 1 1 (rival 1))) = some (rival 1) ∧
      (rival 2).hash halfNode.env ≠ (rival 1).hash halfNode.env := by
  have h : ∃ x, (Election.start halfNode (rival 2)).vote halfNode
      (readsAt (rivalWeights 60 0) 0) (ballot 1 1 (rival 1)) = .ok x ∧
      x.1 = false ∧ Effect.confirm (rival 2) ∈ x.2.2 := by
    decide +kernel
  obtain ⟨⟨r, e', effects⟩, hvote, rfl, hconfirm⟩ := h
  exact ⟨e', effects, hvote, hconfirm, by decide +kernel, by decide +kernel, by decide +kernel⟩

namespace Election

variable {node : Node} {n : VoteReads} {e e' : Election} {v : Vote} {effects : List Effect}

section Runs

variable {votes : List (VoteReads × Vote)} {r : Bool} {h : BlockHash} {w : Block}

theorem voteAll_cons (h : e.voteAll node ((n, v) :: votes) = .ok (e', effects)) :
    ∃ r e₁ fired later, e.vote node n v = .ok (r, e₁, fired) ∧
      e₁.voteAll node votes = .ok (e', later) ∧ effects = fired ++ later := by
  obtain ⟨⟨r, e₁, fired⟩, hvote, h⟩ := ok_of_bind h
  obtain ⟨⟨e₂, later⟩, hrest, h⟩ := ok_of_bind h
  cases h
  exact ⟨r, e₁, fired, later, hvote, hrest, rfl⟩

theorem voteAll_of_vote {e₁ : Election} {fired later : List Effect}
    (hvote : e.vote node n v = .ok (r, e₁, fired))
    (hrest : e₁.voteAll node votes = .ok (e', later)) :
    e.voteAll node ((n, v) :: votes) = .ok (e', fired ++ later) := by
  refine bind_eq_of_ok hvote ?_
  exact bind_eq_of_ok hrest rfl

theorem confirmations_of_vote (h : e.vote node n v = .ok (r, e', effects)) :
    (confirmations effects).length + e.confirmed.toNat = e'.confirmed.toNat := by
  rcases vote_cases h with ⟨-, rfl, rfl⟩ | ⟨-, block, quorum, fired, -, -, houtcome, rfl⟩
  · simp [confirmations]
  · have hfired : confirmations (.republishVote v :: fired) = confirmations fired := rfl
    have hcount : (e.count node n v).confirmed = e.confirmed := rfl
    rw [hfired, houtcome.confirms, houtcome.confirmed, hcount]
    cases quorum <;> cases e.confirmed <;> simp

/-- An election confirms at most one block, and none after it has confirmed one. -/
theorem confirms_once (votes : List (VoteReads × Vote)) :
    ∀ {e e' : Election} {effects : List Effect}, e.voteAll node votes = .ok (e', effects) →
      (confirmations effects).length + e.confirmed.toNat = e'.confirmed.toNat := by
  induction votes with
  | nil =>
    intro e e' effects h
    cases h
    simp [confirmations]
  | cons x votes ih =>
    intro e e' effects h
    obtain ⟨r, e₁, fired, later, hvote, hrest, rfl⟩ := voteAll_cons h
    have hstep := confirmations_of_vote hvote
    have hlater := ih hrest
    have happend : confirmations (fired ++ later) =
        confirmations fired ++ confirmations later := List.filterMap_append
    rw [happend, List.length_append]
    omega

theorem confirms_once_rival :
    ∃ x, (start halfNode (rival 1)).voteAll halfNode
        [(readsAt (rivalWeights 100 0) 0, ballot 1 1 (rival 1)),
          (readsAt (rivalWeights 100 0) (2 * 10 ^ 9), ballot 1 2 (rival 2))] = .ok x ∧
      x.1.confirmed = true ∧ (confirmations x.2).length = x.1.confirmed.toNat := by
  refine (exists_congr fun x => and_congr_right fun h => and_iff_left ?_).2 ?_
  · exact confirms_once _ h
  · decide +kernel

/-- After the votes the winner still has the hash, and only blocks with it were forced. -/
def Keeps (node : Node) (h : BlockHash) (e : Election) (votes : List (VoteReads × Vote)) : Prop :=
  ∀ e' effects, e.voteAll node votes = .ok (e', effects) →
    e'.status.winner.hash node.env = h ∧
      ∀ b, Effect.force b ∈ effects → b.hash node.env = h

def Final (node : Node) (h : BlockHash) (e : Election) (votes : List (VoteReads × Vote)) : Prop :=
  ∀ done, done <+: votes → Keeps node h e done

def Concurs (node : Node) (h : BlockHash) (n : VoteReads) (e : Election) (v : Vote) : Prop :=
  (e.admits node n v).2 = true → Binding node (e.tallyWith node n v) →
    ∀ w, front (e.tallyWith node n v) = some w → w.hash node.env = h

/-- Every vote concurs with the hash when its turn has come. -/
def AllConcur (node : Node) (h : BlockHash) (e : Election) (votes : List (VoteReads × Vote)) :
    Prop :=
  ∀ done n v rest e' effects, votes = done ++ (n, v) :: rest →
    e.voteAll node done = .ok (e', effects) → Concurs node h n e' v

theorem keeps_of_concurs (hwinner : e.status.winner.hash node.env = h)
    (hvote : e.vote node n v = .ok (r, e', effects)) (hconcurs : Concurs node h n e v) :
    e'.status.winner.hash node.env = h ∧
      ∀ b, Effect.force b ∈ effects → b.hash node.env = h := by
  rcases vote_cases hvote with
    ⟨-, rfl, rfl⟩ | ⟨hcounted, block, quorum, fired, hfront, -, houtcome, rfl⟩
  · exact ⟨hwinner, fun b hb => absurd hb (by simp)⟩
  · constructor
    · by_cases hbinding : Binding node (e.tallyWith node n v)
      · rw [houtcome.binding hbinding]
        exact hconcurs hcounted hbinding block hfront
      · rw [houtcome.free hbinding]
        exact hwinner
    · intro b hb
      rw [List.mem_cons, or_iff_right (by simp), houtcome.forces] at hb
      obtain ⟨⟨hbinding, -⟩, rfl⟩ := hb
      exact hconcurs hcounted hbinding b hfront

theorem concurs_of_winner (hvote : e.vote node n v = .ok (r, e', effects))
    (hwinner : e'.status.winner.hash node.env = h) : Concurs node h n e v := by
  intro hcounted hbinding w hfront
  rcases vote_cases hvote with ⟨hnot, -⟩ | ⟨-, block, quorum, fired, hfront', -, houtcome, -⟩
  · simp [hcounted] at hnot
  · grind [houtcome.binding hbinding]

theorem confirmIfQuorum_returns
    (hfront : front (Ledger.tally node.env n.weight n.order e.votes) = some w) :
    ∃ x, e.confirmIfQuorum node n = .ok x := by
  unfold confirmIfQuorum
  cases hentries : (Ledger.tally node.env n.weight n.order e.votes).entries with
  | nil => simp [front, hentries] at hfront
  | cons x rest =>
    obtain ⟨quorum, hquorum⟩ : ∃ quorum, haveQuorum (node.delta n.deltaTotal)
        (Ledger.tally node.env n.weight n.order e.votes) = .ok quorum := by
      unfold haveQuorum
      rw [hentries]
      exact ⟨_, rfl⟩
    simp only [hentries]
    exact ⟨_, bind_eq_of_ok hquorum rfl⟩

theorem exists_vote_of_front (hvalid : v.validate node.env = false)
    (hfront : front (e.tallyWith node n v) = some w) :
    ∃ r e' effects, e.vote node n v = .ok (r, e', effects) := by
  obtain ⟨⟨e', fired⟩, hconfirm⟩ := confirmIfQuorum_returns (e := e.count node n v) hfront
  rcases hadmits : e.admits node n v with ⟨replay, counted⟩
  cases counted with
  | false =>
    refine ⟨replay, e, [], bind_eq_of_ok (require_of hvalid) ?_⟩
    rw [hadmits]
    rfl
  | true =>
    refine ⟨replay, e', .republishVote v :: fired, bind_eq_of_ok (require_of hvalid) ?_⟩
    rw [hadmits]
    exact bind_eq_of_ok hconfirm rfl

theorem exists_front (node : Node) (n : VoteReads) {votes : Votes} {r : Account} {b : Block}
    (hget : votes.repVotes.get r = some b) :
    ∃ w, front (Ledger.tally node.env n.weight n.order votes) = some w := by
  obtain ⟨x, rest, hentries⟩ := exists_tally_cons node.env n.weight n.order hget
  exact ⟨x.2, by rw [front, hentries]; rfl⟩

theorem get_vote (votes : Votes) (v : Vote) (r : Account) :
    (votes.vote v).2.repVotes.get r =
      if r = v.account then some v.block else votes.repVotes.get r := by
  unfold Votes.vote
  cases hold : votes.repVotes.get v.account with
  | none => exact Table.get_put _ _ _ _
  | some b =>
    simp only
    by_cases hb : b = v.block
    · simp_all
    · rw [if_pos hb]
      exact Table.get_put _ _ _ _

theorem vote_total (node : Node) (n : VoteReads) (e : Election)
    (hvalid : v.validate node.env = false) :
    ∃ r e' effects, e.vote node n v = .ok (r, e', effects) := by
  obtain ⟨w, hfront⟩ := exists_front node n ((get_vote e.votes v v.account).trans (if_pos rfl))
  exact exists_vote_of_front hvalid hfront

theorem final_iff (h : BlockHash) (later : List (VoteReads × Vote)) :
    ∀ {e : Election}, e.status.winner.hash node.env = h →
      (∀ x ∈ later, x.2.validate node.env = false) →
      (Final node h e later ↔ AllConcur node h e later) := by
  induction later with
  | nil =>
    intro e hwinner _
    constructor
    · intro _ done n v rest e' effects heq _
      simp at heq
    · intro _ done hprefix e' effects hrun
      obtain rfl := List.prefix_nil.mp hprefix
      cases hrun
      exact ⟨hwinner, fun b hb => absurd hb (by simp)⟩
  | cons x rest ih =>
    intro e hwinner hvalid
    obtain ⟨n, v⟩ := x
    have hrest : ∀ x ∈ rest, x.2.validate node.env = false :=
      fun x hx => hvalid x (.tail _ hx)
    constructor
    · intro hfinal
      -- the first vote is a prefix on its own
      have hfirst : ∀ {r e₁ fired}, e.vote node n v = .ok (r, e₁, fired) →
          e₁.status.winner.hash node.env = h := fun hvote =>
        (hfinal [(n, v)] (by simp) _ _ (voteAll_of_vote hvote rfl)).1
      intro done n' v' rest' e' effects heq hrun
      cases done with
      | nil =>
        obtain ⟨hx, rfl⟩ := List.cons.inj heq
        obtain ⟨rfl, rfl⟩ := Prod.mk.inj hx
        cases hrun
        obtain ⟨r, e₁, fired, hvote⟩ := vote_total node n e (hvalid _ (.head _))
        exact concurs_of_winner hvote (hfirst hvote)
      | cons x done =>
        obtain ⟨rfl, hdone⟩ := List.cons.inj heq
        obtain ⟨r, e₁, fired, later, hvote, hlater, -⟩ := voteAll_cons hrun
        refine (ih (hfirst hvote) hrest).mp ?_ done n' v' rest' e' later hdone hlater
        intro done' hprefix e₂ effects' hrun'
        obtain ⟨hkeep, hforce⟩ := hfinal ((n, v) :: done')
          ((List.prefix_cons_inj _).mpr hprefix) _ _ (voteAll_of_vote hvote hrun')
        exact ⟨hkeep, fun b hb => hforce b (List.mem_append_right _ hb)⟩
    · intro hconcur done hprefix e' effects hrun
      cases done with
      | nil =>
        cases hrun
        exact ⟨hwinner, fun b hb => absurd hb (by simp)⟩
      | cons x done =>
        obtain ⟨rfl, hdone⟩ := List.cons_prefix_cons.mp hprefix
        obtain ⟨r, e₁, fired, later, hvote, hlater, rfl⟩ := voteAll_cons hrun
        obtain ⟨hkeep, hforce⟩ := keeps_of_concurs hwinner hvote
          (hconcur [] n v rest e [] rfl rfl)
        have hconcur₁ : AllConcur node h e₁ rest := by
          intro done' n' v' rest' e₂ effects' heq hrun'
          exact hconcur ((n, v) :: done') n' v' rest' e₂ _ (by rw [heq]; rfl)
            (voteAll_of_vote hvote hrun')
        obtain ⟨hkeep', hforce'⟩ :=
          (ih hkeep hrest).mpr hconcur₁ done hdone e' later hlater
        refine ⟨hkeep', ?_⟩
        intro b hb
        rcases List.mem_append.mp hb with hb | hb
        · exact hforce b hb
        · exact hforce' b hb

end Runs

end Election

/-- Confirmation is final exactly if every later vote concurs with the confirmed block. -/
theorem confirmation_final_iff {node : Node} {n : VoteReads} {e₀ e : Election} {v : Vote} {r : Bool}
    {effects : List Effect} {w : Block} (hvote : e₀.vote node n v = .ok (r, e, effects))
    (hconfirm : Effect.confirm w ∈ effects) {later : List (VoteReads × Vote)}
    (hvalid : ∀ x ∈ later, x.2.validate node.env = false) :
    Election.Final node (w.hash node.env) e later ↔
      Election.AllConcur node (w.hash node.env) e later := by
  refine Election.final_iff _ later ?_ hvalid
  rcases Election.vote_cases hvote with ⟨-, -, rfl⟩ | ⟨-, block, quorum, fired, -, -, houtcome, rfl⟩
  · simp at hconfirm
  · rw [(houtcome.of_confirm hconfirm).2]

theorem rival_confirmed :
    ∃ x, (Election.start halfNode (rival 1)).vote halfNode (readsAt (rivalWeights 100 0) 0)
        (ballot 1 1 (rival 1)) = .ok x ∧
      x.1 = false ∧ Effect.confirm (rival 1) ∈ x.2.2 ∧ x.2.1.votes.id = 9 ∧
      ∃ y, x.2.1.vote halfNode (readsAt (rivalWeights 100 0) (2 * 10 ^ 9))
          (ballot 1 2 (rival 2)) = .ok y ∧
        y.1 = false ∧ Effect.force (rival 2) ∈ y.2.2 ∧ y.2.1.status.winner = rival 2 := by
  decide +kernel

theorem confirmation_final_iff_rival :
    ∃ e effects,
      (Election.start halfNode (rival 1)).vote halfNode (readsAt (rivalWeights 100 0) 0)
        (ballot 1 1 (rival 1)) = .ok (false, e, effects) ∧
      Effect.confirm (rival 1) ∈ effects ∧
      (Election.Final halfNode ((rival 1).hash halfNode.env) e
          [(readsAt (rivalWeights 100 0) (2 * 10 ^ 9), ballot 1 2 (rival 1))] ↔
        Election.AllConcur halfNode ((rival 1).hash halfNode.env) e
          [(readsAt (rivalWeights 100 0) (2 * 10 ^ 9), ballot 1 2 (rival 1))]) := by
  obtain ⟨⟨r, e, effects⟩, hvote, rfl, hconfirm, -⟩ := rival_confirmed
  exact ⟨e, effects, hvote, hconfirm,
    confirmation_final_iff hvote hconfirm (fun x _ => rfl)⟩

/-- A representative changes its vote, and another block is forced after the confirmed one. -/
theorem confirmation_revoked :
    ∃ e effects e' effects',
      (Election.start halfNode (rival 1)).vote halfNode (readsAt (rivalWeights 100 0) 0)
        (ballot 1 1 (rival 1)) = .ok (false, e, effects) ∧
      Effect.confirm (rival 1) ∈ effects ∧ (rival 2).root = e.votes.id ∧
      e.vote halfNode (readsAt (rivalWeights 100 0) (2 * 10 ^ 9)) (ballot 1 2 (rival 2)) =
        .ok (false, e', effects') ∧
      Effect.force (rival 2) ∈ effects' ∧ e'.status.winner = rival 2 ∧
      (rival 2).hash halfNode.env ≠ (rival 1).hash halfNode.env := by
  obtain ⟨⟨r, e, effects⟩, hvote, rfl, hconfirm, hid, ⟨r', e', effects'⟩, hvote', rfl, hforce,
    hwinner⟩ := rival_confirmed
  exact ⟨e, effects, e', effects', hvote, hconfirm, by rw [hid]; rfl, hvote', hforce, hwinner,
    by decide +kernel⟩

end Badem
