import Badem.Core.VoteProcessor
import Badem.Mdb.Cursor

/-!
# Sequence numbers of votes

A run of the vote store interleaves `vote_generate` and `vote_max` with the two parts of
`flush`.  A call between the two parts may go back behind a vote that the flush has taken away.
-/

namespace Badem

open Mdb

/-- A vote that has been returned by `vote_generate` or passed to `vote_max`. -/
inductive VoteEvent
  | generated (vote : Vote)
  | offered (vote : Vote)

namespace VoteEvent

def vote : VoteEvent → Vote
  | generated v => v
  | offered v => v

def Unexhausted (past : List VoteEvent) (a : Account) : Prop :=
  ∀ x ∈ past, x.vote.account = a → x.vote.sequence ≠ BitVec.allOnes 64

def Exceeds (past : List VoteEvent) (v : Vote) : Prop :=
  Unexhausted past v.account →
    ∀ x ∈ past, x.vote.account = v.account → x.vote.sequence < v.sequence

def Increasing (past : List VoteEvent) : Prop :=
  ∀ earlier v later, past = earlier ++ generated v :: later → Exceeds earlier v

theorem increasing_nil : Increasing [] := by
  intro earlier v later h
  exact absurd h.symm (by simp)

theorem Increasing.concat {past : List VoteEvent} {x : VoteEvent} (h : Increasing past)
    (hx : ∀ v, x = generated v → Exceeds past v) : Increasing (past ++ [x]) := by
  intro earlier v later heq
  rcases List.eq_nil_or_concat later with rfl | ⟨later, y, rfl⟩
  · obtain ⟨rfl, hlast⟩ := List.append_inj' heq rfl
    exact hx v (List.cons.inj hlast).1
  · rw [List.concat_eq_append, ← List.cons_append, ← List.append_assoc] at heq
    obtain ⟨hinit, -⟩ := List.append_inj' heq rfl
    exact h earlier v later hinit

end VoteEvent

/-- A call of the vote store, with the account or the vote it is about. -/
inductive VoteCall
  | generate (account : Account)
  | max (vote : Vote)

namespace VoteStore

/-- Runs in which every call is allowed in the state in which it is made. -/
inductive Run (env : Env) (crypto : Crypto) (allowed : VoteStore → VoteCall → Prop) :
    VoteStore → List VoteEvent → Prop
  | created : Run env crypto allowed ⟨.empty, .empty, none⟩ []
  | generate {s : VoteStore} {past : List VoteEvent} (a : Account) (key : RawKey) (b : Block) :
      Run env crypto allowed s past → allowed s (.generate a) →
      Run env crypto allowed (s.voteGenerate env crypto a key b).2
        (past ++ [.generated (s.voteGenerate env crypto a key b).1])
  | max {s : VoteStore} {past : List VoteEvent} (v : Vote) :
      Run env crypto allowed s past → allowed s (.max v) →
      Run env crypto allowed (s.voteMax v).2 (past ++ [.offered v])
  | flushSwap {s : VoteStore} {past : List VoteEvent} :
      Run env crypto allowed s past → s.flushing = none → Run env crypto allowed s.flushSwap past
  | flushCommit {s : VoteStore} {past : List VoteEvent} :
      Run env crypto allowed s past → s.flushing.isSome = true →
      Run env crypto allowed s.flushCommit past

def sequenceOf (v : Option Vote) : Uint64 := (v.map Vote.sequence).getD 0

/-- The vote that a running flush has taken away for an account. -/
def taken (s : VoteStore) (a : Account) : Option Vote :=
  match s.flushing with
  | some votes => votes.get a
  | none => none

def latest (s : VoteStore) (a : Account) : Option Vote :=
  (s.cache.get a).or ((s.taken a).or (s.committed.get a))

/-- A running flush has not taken away a vote that the call would go back behind. -/
def Undisturbed (s : VoteStore) : VoteCall → Prop
  | .generate a => sequenceOf (s.taken a) ≤ sequenceOf (s.voteCurrent a)
  | .max v =>
    sequenceOf (s.taken v.account) ≤ sequenceOf (s.voteCurrent v.account) ∨
      sequenceOf (s.taken v.account) ≤ v.sequence

section Lookup

variable {env : Env} {crypto : Crypto} {s : VoteStore}

theorem voteCurrent_eq (s : VoteStore) (a : Account) :
    s.voteCurrent a = (s.cache.get a).or (s.committed.get a) := by
  unfold voteCurrent voteGet
  cases s.cache.get a <;> rfl

theorem latest_le {a : Account} {x : Uint64} (hcurrent : sequenceOf (s.voteCurrent a) ≤ x)
    (htaken : sequenceOf (s.taken a) ≤ x) : sequenceOf (s.latest a) ≤ x := by
  rw [voteCurrent_eq] at hcurrent
  unfold latest
  cases hcache : s.cache.get a with
  | some v =>
    rw [hcache] at hcurrent
    exact hcurrent
  | none =>
    rw [hcache] at hcurrent
    cases htake : s.taken a with
    | some v =>
      rw [htake] at htaken
      exact htaken
    | none => exact hcurrent

theorem latest_flushSwap (h : s.flushing = none) (a : Account) :
    s.flushSwap.latest a = s.latest a := by
  unfold latest taken flushSwap
  rw [h]
  simp

theorem latest_flushCommit (a : Account) : s.flushCommit.latest a = s.latest a := by
  unfold latest taken flushCommit
  cases hflush : s.flushing with
  | none => simp [hflush]
  | some votes => simp [Table.get_overlay]

theorem latest_put (a b : Account) (v : Vote) :
    ({ s with cache := s.cache.put a v } : VoteStore).latest b =
      if b = a then some v else s.latest b := by
  unfold latest taken
  rw [Table.get_put]
  by_cases hb : b = a <;> simp [hb]

end Lookup

section Invariant

variable {env : Env} {crypto : Crypto} {s : VoteStore} {past : List VoteEvent} {a : Account}
  {v : Vote}

/-- Every vote in the store comes from an event, and the last vote of an account covers all
events of the account. -/
structure Tracks (past : List VoteEvent) (s : VoteStore) : Prop where
  origin : ∀ {a v}, s.cache.get a = some v ∨ s.taken a = some v ∨ s.committed.get a = some v →
    v.account = a ∧ ∃ x ∈ past, x.vote = v
  covers : ∀ {a}, VoteEvent.Unexhausted past a →
    ∀ x ∈ past, x.vote.account = a → x.vote.sequence ≤ sequenceOf (s.latest a)

theorem tracks_created : Tracks [] ⟨.empty, .empty, none⟩ where
  origin h := by simp [taken] at h
  covers _ x hx := absurd hx (by simp)

theorem Tracks.current (h : Tracks past s)
    (hv : s.voteCurrent a = some v) : v.account = a ∧ ∃ x ∈ past, x.vote = v := by
  rw [voteCurrent_eq, Option.or_eq_some_iff] at hv
  rcases hv with hv | ⟨-, hv⟩
  · exact h.origin (.inl hv)
  · exact h.origin (.inr (.inr hv))

theorem Tracks.put
    (h : Tracks past s) {x : VoteEvent} (hv : ∃ y ∈ past ++ [x], y.vote = v)
    (hacc : x.vote.account = v.account)
    (hcovers : VoteEvent.Unexhausted (past ++ [x]) v.account → x.vote.sequence ≤ v.sequence ∧
      sequenceOf (s.latest v.account) ≤ v.sequence) :
    Tracks (past ++ [x]) { s with cache := s.cache.put v.account v } where
  origin := by
    intro a w hw
    have hold : ∀ {w}, s.cache.get a = some w ∨ s.taken a = some w ∨ s.committed.get a = some w →
        w.account = a ∧ ∃ y ∈ past ++ [x], y.vote = w := by
      intro w hw
      obtain ⟨hwa, y, hy, hyw⟩ := h.origin hw
      exact ⟨hwa, y, List.mem_append_left _ hy, hyw⟩
    rcases hw with hw | hw
    · grind [Table.get_put]
    · exact hold (.inr hw)
  covers := by
    intro a hfree y hy hya
    have hpast : VoteEvent.Unexhausted past a := fun z hz => hfree z (List.mem_append_left _ hz)
    rw [latest_put]
    by_cases ha : a = v.account
    · subst ha
      obtain ⟨hself, hlatest⟩ := hcovers hfree
      rw [if_pos rfl]
      show y.vote.sequence ≤ v.sequence
      rcases List.mem_append.mp hy with hy | hy
      · exact (h.covers hpast y hy hya).trans hlatest
      · simp_all
    · rw [if_neg ha]
      rcases List.mem_append.mp hy with hy | hy
      · exact h.covers hpast y hy hya
      · simp_all

theorem Tracks.latest_lt_generate (h : Tracks past s) (key : RawKey) (b : Block)
    (hquiet : s.Undisturbed (.generate a)) (hfree : VoteEvent.Unexhausted past a) :
    sequenceOf (s.latest a) < (s.voteGenerate env crypto a key b).1.sequence := by
  have hbound : (sequenceOf (s.voteCurrent a)).toNat + 1 < 2 ^ 64 := by
    cases hcurrent : s.voteCurrent a with
    | none => decide
    | some c =>
      obtain ⟨hca, x, hx, hxc⟩ := h.current hcurrent
      have hne := hfree x hx (by rw [hxc]; exact hca)
      rw [hxc] at hne
      have hne' : c.sequence.toNat ≠ 2 ^ 64 - 1 := by
        intro heq
        exact hne (BitVec.eq_of_toNat_eq (by rw [heq, BitVec.toNat_allOnes]))
      have hlt := c.sequence.isLt
      show c.sequence.toNat + 1 < 2 ^ 64
      omega
  have hlatest : sequenceOf (s.latest a) ≤ sequenceOf (s.voteCurrent a) :=
    latest_le (le_refl _) hquiet
  show sequenceOf (s.latest a) < sequenceOf (s.voteCurrent a) + 1
  rw [BitVec.lt_def, toNat_add_one hbound]
  exact Nat.lt_succ_of_le (BitVec.le_def.mp hlatest)

theorem Tracks.exceeds (h : Tracks past s) (key : RawKey) (b : Block)
    (hquiet : s.Undisturbed (.generate a)) :
    VoteEvent.Exceeds past (s.voteGenerate env crypto a key b).1 := by
  intro hfree x hx hxa
  exact (h.covers hfree x hx hxa).trans_lt (h.latest_lt_generate key b hquiet hfree)

theorem Tracks.generate (h : Tracks past s) (key : RawKey) (b : Block)
    (hquiet : s.Undisturbed (.generate a)) :
    Tracks (past ++ [.generated (s.voteGenerate env crypto a key b).1])
      (s.voteGenerate env crypto a key b).2 := by
  refine h.put ⟨_, List.mem_append_right _ (.head _), rfl⟩ rfl ?_
  intro hfree
  have hpast : VoteEvent.Unexhausted past a := fun z hz => hfree z (List.mem_append_left _ hz)
  exact ⟨le_refl _, (h.latest_lt_generate key b hquiet hpast).le⟩

theorem Tracks.max (h : Tracks past s) (hquiet : s.Undisturbed (.max v)) :
    Tracks (past ++ [.offered v]) (s.voteMax v).2 := by
  cases hcurrent : s.voteCurrent v.account with
  | none =>
    have hresult : (s.voteMax v).2 = { s with cache := s.cache.put v.account v } := by
      rw [voteMax, hcurrent]
    rw [hresult]
    refine h.put ⟨_, List.mem_append_right _ (.head _), rfl⟩ rfl ?_
    intro _
    refine ⟨le_refl _, latest_le ?_ ?_⟩
    · rw [hcurrent]
      exact Nat.zero_le _
    · rcases hquiet with htaken | htaken
      · rw [hcurrent] at htaken
        exact htaken.trans (Nat.zero_le _)
      · exact htaken
  | some c =>
    obtain ⟨hca, x, hx, hxc⟩ := h.current hcurrent
    by_cases hlt : c.sequence > v.sequence
    · have hresult : (s.voteMax v).2 = { s with cache := s.cache.put c.account c } := by
        rw [voteMax, hcurrent, hca]
        simp [hlt]
      rw [hresult]
      refine h.put ⟨x, List.mem_append_left _ hx, hxc⟩ hca.symm ?_
      intro _
      refine ⟨le_of_lt hlt, latest_le ?_ ?_⟩
      · rw [hca, hcurrent]
        exact le_refl _
      · rw [hca]
        rcases hquiet with htaken | htaken
        · rw [hcurrent] at htaken
          exact htaken
        · exact htaken.trans (le_of_lt hlt)
    · have hle := not_lt.mp hlt
      have hresult : (s.voteMax v).2 = { s with cache := s.cache.put v.account v } := by
        rw [voteMax, hcurrent]
        simp [hlt]
      rw [hresult]
      refine h.put ⟨_, List.mem_append_right _ (.head _), rfl⟩ rfl ?_
      intro _
      refine ⟨le_refl _, latest_le ?_ ?_⟩
      · rw [hcurrent]
        exact hle
      · rcases hquiet with htaken | htaken
        · rw [hcurrent] at htaken
          exact htaken.trans hle
        · exact htaken

theorem Tracks.flushSwap (h : Tracks past s) (hflush : s.flushing = none) :
    Tracks past s.flushSwap where
  origin := by
    intro a v hv
    rcases hv with hv | hv | hv
    · exact absurd hv (by simp [VoteStore.flushSwap])
    · exact h.origin (.inl hv)
    · exact h.origin (.inr (.inr hv))
  covers := by
    intro a hfree x hx hxa
    rw [latest_flushSwap hflush]
    exact h.covers hfree x hx hxa

theorem Tracks.flushCommit (h : Tracks past s) : Tracks past s.flushCommit where
  origin := by
    intro a v hv
    unfold VoteStore.flushCommit at hv
    cases hflush : s.flushing with
    | none =>
      rw [hflush] at hv
      exact h.origin hv
    | some votes =>
      rw [hflush] at hv
      have htaken : s.taken a = votes.get a := by rw [taken, hflush]
      rcases hv with hv | hv | hv
      · exact h.origin (.inl hv)
      · exact absurd hv (by simp [taken])
      · rw [Table.get_overlay, Option.or_eq_some_iff] at hv
        rcases hv with hv | ⟨-, hv⟩
        · exact h.origin (.inr (.inl (htaken.trans hv)))
        · exact h.origin (.inr (.inr hv))
  covers := by
    intro a hfree x hx hxa
    rw [latest_flushCommit]
    exact h.covers hfree x hx hxa

theorem Run.tracks (h : Run env crypto Undisturbed s past) : Tracks past s := by
  induction h with
  | created => exact tracks_created
  | generate a key b _ hquiet ih => exact ih.generate key b hquiet
  | max v _ hquiet ih => exact ih.max hquiet
  | flushSwap _ hflush ih => exact ih.flushSwap hflush
  | flushCommit _ _ ih => exact ih.flushCommit

end Invariant

end VoteStore

/-- In an undisturbed run every generated vote exceeds the earlier votes of its account. -/
theorem vote_sequences_increase
    {env : Env} {crypto : Crypto} {s : VoteStore} {past : List VoteEvent}
    (h : VoteStore.Run env crypto VoteStore.Undisturbed s past) : VoteEvent.Increasing past := by
  induction h with
  | created => exact VoteEvent.increasing_nil
  | generate a key b hrun hquiet ih =>
    refine ih.concat ?_
    intro v hv
    rw [← VoteEvent.generated.inj hv]
    exact hrun.tracks.exceeds key b hquiet
  | max v _ _ ih =>
    refine ih.concat ?_
    intro w hw
    simp at hw
  | flushSwap _ _ ih => exact ih
  | flushCommit _ _ ih => exact ih

section Samples

def blankCrypto : Crypto where
  keystream _ _ := 0
  phs _ _ := 0
  publicKey _ := 0
  deterministicKey _ _ := 0
  signMessage _ _ _ := 0

def blankEnv : Env where
  network := .test
  digest _ := 7
  validateMessage _ _ _ := false
  checked := false

def blankBlock : Block := .changeBlock ⟨⟨9, 1⟩, 0, 0⟩

def blankVote (sequence : Uint64) : Vote := ⟨sequence, blankBlock, 1, 0⟩

theorem vote_sequences_increase_flushed :
    ∃ s, VoteStore.Run blankEnv blankCrypto VoteStore.Undisturbed s
        [.generated (blankVote 1), .offered (blankVote 20), .generated (blankVote 21)] ∧
      VoteEvent.Increasing
        [.generated (blankVote 1), .offered (blankVote 20), .generated (blankVote 21)] := by
  have hfirst : VoteStore.Run blankEnv blankCrypto VoteStore.Undisturbed _
      [.generated (blankVote 1)] :=
    .generate 1 0 blankBlock .created
      (show VoteStore.sequenceOf _ ≤ VoteStore.sequenceOf _ by decide)
  have hflushed := (hfirst.flushSwap rfl).flushCommit rfl
  have hoffered : VoteStore.Run blankEnv blankCrypto VoteStore.Undisturbed _
      [.generated (blankVote 1), .offered (blankVote 20)] :=
    hflushed.max (blankVote 20)
      (Or.inl (show VoteStore.sequenceOf _ ≤ VoteStore.sequenceOf _ by decide))
  have hrun : VoteStore.Run blankEnv blankCrypto VoteStore.Undisturbed _
      [.generated (blankVote 1), .offered (blankVote 20), .generated (blankVote 21)] :=
    hoffered.generate 1 0 blankBlock
      (show VoteStore.sequenceOf _ ≤ VoteStore.sequenceOf _ by decide)
  exact ⟨_, hrun, vote_sequences_increase hrun⟩

/-- A vote that is generated between the two parts of a flush gets the sequence number of
the vote that the flush has taken away. -/
theorem vote_sequence_repeated :
    ∃ s, VoteStore.Run blankEnv blankCrypto (fun _ _ => True) s
        [.generated (blankVote 1), .generated (blankVote 1)] ∧
      ¬ VoteEvent.Increasing [.generated (blankVote 1), .generated (blankVote 1)] := by
  have hfirst : VoteStore.Run blankEnv blankCrypto (fun _ _ => True) _
      [.generated (blankVote 1)] :=
    .generate 1 0 blankBlock .created trivial
  have hrun : VoteStore.Run blankEnv blankCrypto (fun _ _ => True) _
      [.generated (blankVote 1), .generated (blankVote 1)] :=
    (hfirst.flushSwap rfl).generate 1 0 blankBlock trivial
  refine ⟨_, hrun, ?_⟩
  intro hincreasing
  have hexceeds := hincreasing [.generated (blankVote 1)] (blankVote 1) [] rfl
  have hlt := hexceeds (by simp [VoteEvent.Unexhausted, VoteEvent.vote, blankVote])
    (.generated (blankVote 1)) List.mem_cons_self rfl
  exact absurd hlt (lt_irrefl _)

end Samples

end Badem
