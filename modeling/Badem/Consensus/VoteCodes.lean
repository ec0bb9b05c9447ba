import Badem.Consensus.Counting
import Badem.Core.VoteProcessor

/-!
# Classification of votes

When `vote_processor::vote` calls a valid vote a replay.  A history is any sequence of votes,
starts and ends of elections and other uses of the vote store.
-/

namespace Badem

open Mdb

namespace VoteProcessor

variable {node : Node} {n : VoteReads} {p p' : VoteProcessor} {v : Vote} {endpoint : Endpoint}
variable {code : VoteCode} {effects : List VoteEffect}

/-- Whether the election of a vote counts it. -/
def counts (node : Node) (n : VoteReads) (p : VoteProcessor) (v : Vote) : Bool :=
  match p.roots.get v.block.root with
  | some e => !v.validate node.env && (e.admits node n v).2
  | none => false

def countedAfter (node : Node) (n : VoteReads) (p : VoteProcessor) (v : Vote)
    (counted : BlockHash → List Vote) (root : BlockHash) : List Vote :=
  counted root ++ if root = v.block.root ∧ counts node n p v = true then [v] else []

/-- States of the vote processor, with the votes that each active election has counted. -/
inductive History (node : Node) : VoteProcessor → (BlockHash → List Vote) → Prop
  | initial (store : VoteStore) : History node ⟨store, .empty⟩ (fun _ => [])
  | start {p : VoteProcessor} {counted : BlockHash → List Vote} (b : Block) :
      History node p counted → p.roots.get b.root = none →
      History node { p with roots := p.roots.put b.root (Election.start node b) }
        (fun root => if root = b.root then [] else counted root)
  | stop {p : VoteProcessor} {counted : BlockHash → List Vote} (root : BlockHash) :
      History node p counted → History node { p with roots := p.roots.del root } counted
  | store {p : VoteProcessor} {counted : BlockHash → List Vote} (store : VoteStore) :
      History node p counted → History node { p with store := store } counted
  | vote {p p' : VoteProcessor} {counted : BlockHash → List Vote} {n : VoteReads} {v : Vote}
      {endpoint : Endpoint} {code : VoteCode} {effects : List VoteEffect} :
      History node p counted → p.vote node n v endpoint = .ok (code, p', effects) →
      History node p' (countedAfter node n p v counted)

/-- The active election of the vote has counted an equal or higher vote of its account. -/
def Stale (env : Env) (p : VoteProcessor) (counted : BlockHash → List Vote) (v : Vote) : Prop :=
  (∃ e, p.roots.get v.block.root = some e) ∧
    ∃ w ∈ counted v.block.root, w.account = v.account ∧ v.stamp env ≤ w.stamp env

section Step

def classify (replay : Bool) (maxVote v : Vote) : VoteCode :=
  if replay = false ∨ maxVote.sequence > v.sequence then .vote else .replay

theorem vote_of_invalid (hvalid : v.validate node.env = true) :
    p.vote node n v endpoint = .ok (.invalid, p, []) := by
  rw [VoteProcessor.vote, if_neg (by simp [hvalid])]

theorem vote_of_valid (node : Node) (n : VoteReads) (p : VoteProcessor) (endpoint : Endpoint)
    (hvalid : v.validate node.env = false) :
    ∃ replay roots fired,
      activeVote node n p.roots v = .ok (replay, roots, fired) ∧
      p.vote node n v endpoint = .ok
        (classify replay (p.store.voteMax v).1 v, ⟨(p.store.voteMax v).2, roots⟩,
          fired.map .election ++
            (if classify replay (p.store.voteMax v).1 v = .vote then [.observed v endpoint]
              else []) ++ assist (p.store.voteMax v).1 v endpoint) := by
  have hactive : ∃ x, activeVote node n p.roots v = .ok x := by
    unfold activeVote
    cases hroot : p.roots.get v.block.root with
    | none => exact ⟨_, rfl⟩
    | some e =>
      obtain ⟨replay, e', fired, hvote⟩ := Election.vote_total node n e hvalid
      exact ⟨_, bind_eq_of_ok hvote rfl⟩
  obtain ⟨⟨replay, roots, fired⟩, hactive⟩ := hactive
  refine ⟨replay, roots, fired, hactive, ?_⟩
  rw [VoteProcessor.vote, if_pos hvalid]
  exact bind_eq_of_ok hactive rfl

theorem activeVote_cases {roots : Table BlockHash Election} {replay : Bool}
    {roots' : Table BlockHash Election} {fired : List Effect}
    (h : activeVote node n roots v = .ok (replay, roots', fired)) :
    (roots.get v.block.root = none ∧ replay = false ∧ roots' = roots) ∨
      ∃ e e', roots.get v.block.root = some e ∧ e.vote node n v = .ok (replay, e', fired) ∧
        roots' = roots.put v.block.root e' := by
  unfold activeVote at h
  cases hroot : roots.get v.block.root with
  | none =>
    rw [hroot] at h
    obtain ⟨hreplay, hrest⟩ := Prod.mk.inj (Except.ok.inj h)
    exact .inl ⟨rfl, hreplay.symm, (Prod.mk.inj hrest).1.symm⟩
  | some e =>
    rw [hroot] at h
    obtain ⟨⟨replay', e', fired'⟩, hvote, hresult⟩ := ok_of_bind h
    obtain ⟨rfl, hrest⟩ := Prod.mk.inj (Except.ok.inj hresult)
    obtain ⟨rfl, rfl⟩ := Prod.mk.inj hrest
    exact .inr ⟨e, e', rfl, hvote, rfl⟩

end Step

section Histories

variable {counted : BlockHash → List Vote}

theorem History.recorded (h : History node p counted) :
    ∀ {root e}, p.roots.get root = some e →
      ∃ first, Election.Records node first (counted root) e := by
  induction h with
  | initial store =>
    intro root e hget
    simp at hget
  | @start p counted b _ _ ih =>
    intro root e hget
    rw [Table.get_put] at hget
    split_ifs at hget with hroot
    · cases hget
      simp only [if_pos hroot]
      exact ⟨_, Election.records_start node b⟩
    · simpa [hroot] using ih hget
  | @stop p counted root' _ ih =>
    intro root e hget
    rw [Table.get_del] at hget
    split_ifs at hget
    exact ih hget
  | store store _ ih =>
    intro root e hget
    exact ih hget
  | @vote p p' counted n v endpoint code effects _ hvote ih =>
    intro root e hget
    cases hvalid : v.validate node.env with
    | true =>
      rw [vote_of_invalid hvalid] at hvote
      obtain ⟨-, hrest⟩ := Prod.mk.inj (Except.ok.inj hvote)
      obtain ⟨rfl, -⟩ := Prod.mk.inj hrest
      have hcounts : counts node n p v = false := by
        unfold counts
        cases p.roots.get v.block.root with
        | none => rfl
        | some e => simp [hvalid]
      rw [countedAfter, hcounts, if_neg (by simp), List.append_nil]
      exact ih hget
    | false =>
      obtain ⟨replay, roots, fired, hactive, hresult⟩ :=
        vote_of_valid node n p endpoint hvalid
      rw [hresult] at hvote
      obtain ⟨-, hrest⟩ := Prod.mk.inj (Except.ok.inj hvote)
      obtain ⟨rfl, -⟩ := Prod.mk.inj hrest
      rcases activeVote_cases hactive with ⟨hnone, -, rfl⟩ | ⟨e₀, e₁, hold, helection, rfl⟩
      · simpa [countedAfter, List.append_nil, counts, hnone] using ih hget
      · have hcounts : counts node n p v = (e₀.admits node n v).2 := by
          simp [counts, hold, hvalid]
        simp only [Table.get_put] at hget
        split_ifs at hget with hroot
        · cases hget
          obtain ⟨first, hrec⟩ := ih hold
          refine ⟨first, ?_⟩
          have hstep := hrec.vote helection
          rw [countedAfter, hcounts, hroot]
          simpa using hstep
        · rw [countedAfter, if_neg (fun hcond => hroot hcond.1), List.append_nil]
          exact ih hget

theorem History.stale_iff (h : History node p counted) {e : Election}
    (hget : p.roots.get v.block.root = some e) :
    Stale node.env p counted v ↔
      ((v.stamp node.env : VoteStamp) : WithBot VoteStamp) ≤ e.recorded v.account := by
  obtain ⟨first, hrec⟩ := h.recorded hget
  rw [hrec.stamps, List.coe_le_maximum_iff]
  constructor
  · rintro ⟨-, w, hw, hacc, hle⟩
    exact ⟨_, mem_stampsOf.mpr ⟨w, hw, hacc, rfl⟩, hle⟩
  · rintro ⟨x, hx, hle⟩
    obtain ⟨w, hw, hacc, rfl⟩ := mem_stampsOf.mp hx
    exact ⟨⟨e, hget⟩, w, hw, hacc, hle⟩

theorem History.replay_iff (h : History node p counted) {replay : Bool}
    {roots : Table BlockHash Election} {fired : List Effect}
    (hactive : activeVote node n p.roots v = .ok (replay, roots, fired)) :
    replay = true ↔
      Stale node.env p counted v ∧
        Election.Weighty node n.weight n.supplyTotal v.account := by
  rcases activeVote_cases hactive with ⟨hnone, rfl, -⟩ | ⟨e, e', hget, helection, -⟩
  · have hstale : ¬ Stale node.env p counted v := by
      rintro ⟨⟨e, hget⟩, -⟩
      simp [hnone] at hget
    simp [hstale]
  · rw [(Election.vote_records helection).1, Election.admits_replay_iff, h.stale_iff hget, and_comm]

end Histories

theorem voteMax_gt_iff (s : VoteStore) (v : Vote) :
    (s.voteMax v).1.sequence > v.sequence ↔
      ∃ current, s.voteCurrent v.account = some current ∧ current.sequence > v.sequence := by
  unfold VoteStore.voteMax
  cases hcurrent : s.voteCurrent v.account with
  | none => simp
  | some c => by_cases hlt : c.sequence > v.sequence <;> simp [hlt]

/-- A vote is classified by its signature and by the votes that its election has counted, and
observers do not get a stale one. -/
structure Classified (node : Node) (p : VoteProcessor) (counted : BlockHash → List Vote)
    (v : Vote) (endpoint : Endpoint) (code : VoteCode) (effects : List VoteEffect) : Prop where
  invalid : code = .invalid ↔ v.validate node.env = true
  replay : code = .replay ↔ v.validate node.env = false ∧ Stale node.env p counted v
  vote : code = .vote ↔ v.validate node.env = false ∧ ¬ Stale node.env p counted v
  observed : Stale node.env p counted v → .observed v endpoint ∉ effects

/-- The vote is valid and stale, but the vote store has a higher sequence number for its
account or the account has too little weight. -/
def Misjudged (node : Node) (n : VoteReads) (p : VoteProcessor)
    (counted : BlockHash → List Vote) (v : Vote) : Prop :=
  v.validate node.env = false ∧ Stale node.env p counted v ∧
    ((∃ current, p.store.voteCurrent v.account = some current ∧
        current.sequence > v.sequence) ∨
      ¬ Election.Weighty node n.weight n.supplyTotal v.account)

theorem classify_eq_replay_iff {replay : Bool} {maxVote : Vote} :
    classify replay maxVote v = .replay ↔
      replay = true ∧ ¬ maxVote.sequence > v.sequence := by
  unfold classify
  split_ifs with hcond
  · constructor
    · intro h
      simp at h
    · rintro ⟨rfl, hle⟩
      exact absurd hcond (by simp [hle])
  · simp_all

theorem classify_cases (replay : Bool) (maxVote v : Vote) :
    classify replay maxVote v = .vote ∨ classify replay maxVote v = .replay := by
  unfold classify
  split_ifs
  · exact .inl rfl
  · exact .inr rfl

end VoteProcessor

/-- After every history the next vote is handled without a fault, and classified as it should be
exactly if it is not misjudged. -/
theorem vote_classified_iff {node : Node} {p : VoteProcessor} {counted : BlockHash → List Vote}
    (h : VoteProcessor.History node p counted) (n : VoteReads) (v : Vote) (endpoint : Endpoint) :
    ∃ code p' effects, p.vote node n v endpoint = .ok (code, p', effects) ∧
      (VoteProcessor.Classified node p counted v endpoint code effects ↔
        ¬ VoteProcessor.Misjudged node n p counted v) := by
  cases hvalid : v.validate node.env with
  | true =>
    refine ⟨.invalid, p, [], VoteProcessor.vote_of_invalid hvalid, ?_⟩
    refine ⟨fun _ hbad => absurd hbad.1 (by simp [hvalid]), fun _ => ?_⟩
    exact ⟨by simp [hvalid], by simp [hvalid], by simp [hvalid], fun _ => by simp⟩
  | false =>
    obtain ⟨replay, roots, fired, hactive, hresult⟩ :=
      VoteProcessor.vote_of_valid node n p endpoint hvalid
    refine ⟨_, _, _, hresult, ?_⟩
    have hreplay := h.replay_iff hactive
    have hcode : VoteProcessor.classify replay (p.store.voteMax v).1 v = .replay ↔
        VoteProcessor.Stale node.env p counted v ∧
          ¬ VoteProcessor.Misjudged node n p counted v := by
      rw [VoteProcessor.classify_eq_replay_iff, hreplay, VoteProcessor.voteMax_gt_iff]
      constructor
      · rintro ⟨⟨hstale, hweight⟩, hcurrent⟩
        refine ⟨hstale, ?_⟩
        rintro ⟨-, -, hhigher | hlight⟩
        · exact hcurrent hhigher
        · exact hlight hweight
      · rintro ⟨hstale, hgood⟩
        refine ⟨⟨hstale, ?_⟩, fun hhigher => hgood ⟨hvalid, hstale, Or.inl hhigher⟩⟩
        by_contra hlight
        exact hgood ⟨hvalid, hstale, Or.inr hlight⟩
    constructor
    · intro hclassified hbad
      have hreplayed := hclassified.replay.mpr ⟨hvalid, hbad.2.1⟩
      exact (hcode.mp hreplayed).2 hbad
    · intro hgood
      have hstale : VoteProcessor.classify replay (p.store.voteMax v).1 v = .replay ↔
          VoteProcessor.Stale node.env p counted v := by
        rw [hcode]
        exact ⟨fun hx => hx.1, fun hx => ⟨hx, hgood⟩⟩
      rcases VoteProcessor.classify_cases replay (p.store.voteMax v).1 v with heq | heq
      · rw [heq] at hstale ⊢
        have hfresh : ¬ VoteProcessor.Stale node.env p counted v :=
          fun hx => absurd (hstale.mpr hx) (by simp)
        exact ⟨by simp [hvalid], by simp [hfresh], by simp [hvalid, hfresh],
          fun hx => absurd hx hfresh⟩
      · rw [heq] at hstale ⊢
        have hold := hstale.mp rfl
        refine ⟨by simp [hvalid], by simp [hvalid, hold], by simp [hold], fun _ => ?_⟩
        rw [if_neg (by simp), List.append_nil]
        unfold VoteProcessor.assist
        split_ifs
        · simp
        · simp

section Samples

def anyEndpoint : Endpoint := ⟨.v4 0, 0⟩

def contested : VoteProcessor :=
  ⟨⟨.empty, .empty, none⟩, Table.empty.put 9 (Election.start halfNode (rival 1))⟩

theorem contested_history :
    VoteProcessor.History halfNode contested (fun root => if root = 9 then [] else []) :=
  .start (rival 1) (.initial ⟨.empty, .empty, none⟩) rfl

theorem vote_classified_iff_contested :
    VoteProcessor.History halfNode contested (fun root => if root = 9 then [] else []) ∧
      ∃ code p' effects,
        contested.vote halfNode (readsAt (rivalWeights 60 0) 0) (ballot 1 5 (rival 1))
          anyEndpoint = .ok (code, p', effects) ∧
        (VoteProcessor.Classified halfNode contested (fun root => if root = 9 then [] else [])
            (ballot 1 5 (rival 1)) anyEndpoint code effects ↔
          ¬ VoteProcessor.Misjudged halfNode (readsAt (rivalWeights 60 0) 0) contested
            (fun root => if root = 9 then [] else []) (ballot 1 5 (rival 1))) :=
  ⟨contested_history, vote_classified_iff contested_history _ _ _⟩

/-- A vote with the sequence number 4 is reported as a new one after one with the number 5. -/
theorem stale_vote_observed :
    ∃ p counted code p' effects, VoteProcessor.History halfNode p counted ∧
      p.vote halfNode (readsAt (rivalWeights 60 0) (20 * 10 ^ 9)) (ballot 1 4 (rival 1))
        anyEndpoint = .ok (code, p', effects) ∧
      VoteProcessor.Stale halfNode.env p counted (ballot 1 4 (rival 1)) ∧
      code = .vote ∧ .observed (ballot 1 4 (rival 1)) anyEndpoint ∈ effects ∧
      ¬ VoteProcessor.Classified halfNode p counted (ballot 1 4 (rival 1)) anyEndpoint code
        effects := by
  have h : ∃ x, contested.vote halfNode (readsAt (rivalWeights 60 0) 0)
      (ballot 1 5 (rival 1)) anyEndpoint = .ok x ∧
      VoteProcessor.counts halfNode (readsAt (rivalWeights 60 0) 0) contested
        (ballot 1 5 (rival 1)) = true ∧ (x.2.1.roots.get 9).isSome = true ∧
      ∃ y, x.2.1.vote halfNode (readsAt (rivalWeights 60 0) (20 * 10 ^ 9))
        (ballot 1 4 (rival 1)) anyEndpoint = .ok y ∧ y.1 = .vote ∧
          .observed (ballot 1 4 (rival 1)) anyEndpoint ∈ y.2.2 := by
    decide +kernel
  obtain ⟨⟨first, p, fired⟩, hfirst, hcounts, hactive, ⟨code, p', effects⟩, hsecond, rfl,
    hobserved⟩ := h
  have hstale : VoteProcessor.Stale halfNode.env p
      (VoteProcessor.countedAfter halfNode (readsAt (rivalWeights 60 0) 0) contested
        (ballot 1 5 (rival 1)) (fun root => if root = 9 then [] else []))
      (ballot 1 4 (rival 1)) := by
    refine ⟨Option.isSome_iff_exists.mp hactive, ballot 1 5 (rival 1), ?_, rfl, ?_⟩
    · have hadded : (ballot 1 4 (rival 1)).block.root = (ballot 1 5 (rival 1)).block.root ∧
          VoteProcessor.counts halfNode (readsAt (rivalWeights 60 0) 0) contested
            (ballot 1 5 (rival 1)) = true := ⟨rfl, hcounts⟩
      rw [VoteProcessor.countedAfter, if_pos hadded]
      exact List.mem_append_right _ List.mem_cons_self
    · exact Prod.Lex.toLex_le_toLex.mpr (Or.inl (by decide))
  refine ⟨p, _, .vote, p', effects, contested_history.vote hfirst, hsecond, hstale, rfl,
    hobserved, ?_⟩
  intro hclassified
  exact hclassified.observed hstale hobserved

end Samples

end Badem
