import Badem.Ledger.Transfers

/-!
# Rollback and replay

Rolling back a block leaves the ledger that the remaining blocks make when they are processed
alone and in their order.
-/

namespace Badem

open Mdb BlockLattice

variable {env : Env} {U : Set Block} {s t : BlockStore}

/-- The blocks that go with `h`: those later in a chain and those that receive a removed
send. -/
inductive Removed (env : Env) (s : BlockStore) (h : BlockHash) : BlockHash → Prop
  | self : Removed env s h h
  | later {x y : BlockHash} {l : List BlockHash} :
      Removed env s h x →
      PreviousWalk s y (y :: l) →
      x ∈ l →
      Removed env s h y
  | received {x y : BlockHash} :
      Removed env s h x →
      ReceivesFrom env s y x →
      Removed env s h y

/-- Equality of ledgers up to the times of modification and the block infos. -/
structure SameLedger (s t : BlockStore) : Prop where
  accounts : ∀ a, (s.accountGet a).map AccountInfo.unstamped =
    (t.accountGet a).map AccountInfo.unstamped
  frontiers : s.frontiers = t.frontiers
  blocks : s.blockDatabase = t.blockDatabase
  pending : s.pending = t.pending
  weights : ∀ r, s.representationGet r = t.representationGet r
  checksum : s.checksum = t.checksum

theorem SameLedger.blockExists_eq (h : SameLedger s t) (k : BlockHash) :
    s.blockExists k = t.blockExists k := by
  have htable : ∀ type, s.blockDatabase type = t.blockDatabase type := congrFun h.blocks
  unfold BlockStore.blockExists
  rw [show s.sendBlocks = t.sendBlocks from htable .send,
    show s.receiveBlocks = t.receiveBlocks from htable .receive,
    show s.openBlocks = t.openBlocks from htable .opening,
    show s.changeBlocks = t.changeBlocks from htable .change,
    show s.stateBlocks = t.stateBlocks from htable .state]

/-- Rolling back `h` in the ledger that the blocks make from `g` gives the ledger that the
remaining blocks make. -/
def RollbackReplays (env : Env) (now : Nat) (g : BlockStore) (blocks : List (Nat × Block))
    (s : BlockStore) (h : BlockHash) : Prop :=
  ∃ s' t, Ledger.rollback env now s h = .ok s' ∧
    (∀ k, s'.blockExists k = true ↔ s.blockExists k = true ∧ ¬ Removed env s h k) ∧
    Ledger.processAll env g (blocks.filter (fun x => s'.blockExists (x.2.hash env))) = .ok t ∧
    SameLedger s' t

section Lattice

variable {L : BlockLattice env U}

theorem Refines.sameLedger
    (hs : Refines (fun _ => 0) s L) (ht : Refines (fun _ => 0) t L) : SameLedger s t := by
  have haccounts : ∀ a, (s.accounts.get a).map AccountInfo.unstamped =
      (t.accounts.get a).map AccountInfo.unstamped := by
    intro a
    rw [hs.accounts, ht.accounts]
  refine ⟨haccounts, ?_, ?_, ?_, ?_, ?_⟩
  · ext1 h
    rw [hs.frontiers, ht.frontiers]
  · funext type
    ext1 h
    rw [hs.blocks, ht.blocks]
  · ext1 k
    rw [hs.pending, ht.pending]
  · intro r
    rw [hs.weights, ht.weights]
    congr 1
    exact Table.fold_eq_of_map_get_eq (· + ·) 0 (fun _ i => L.gain i.repBlock i.balance r)
      AccountInfo.unstamped haccounts
  · rw [hs.checksum, ht.checksum]
    congr 1
    exact Table.fold_eq_of_map_get_eq (· ^^^ ·) 0 (fun _ i => i.head)
      AccountInfo.unstamped haccounts

variable (H : CollisionFree env U) (M : MarkerFree env U)
variable (hR : Refines (fun _ => 0) s L) {e : Entry} (he : L.find e.hash = some e)

include H M hR he in
theorem dependent_of_removed {k : BlockHash} (hk : Removed env s e.hash k) :
    ∃ x, L.find k = some x ∧ Dependent L e x := by
  induction hk with
  | self => exact ⟨e, he, Dependent.self⟩
  | @later x y l _ hwalk hmem ih =>
    obtain ⟨x', hx, hdep⟩ := ih
    obtain ⟨b, hb⟩ := hwalk.stored
    obtain ⟨y', hy, rfl⟩ := hR.find_of_blockGet hb
    obtain ⟨l', hwalk', -, -, hmem'⟩ := exists_walk hR y'.height hy rfl
    rw [← hwalk.unique hwalk'] at hmem'
    obtain ⟨x'', hx'', hacc, hheight⟩ := (hmem' x).mp (.tail _ hmem)
    cases hx.symm.trans hx''
    refine ⟨y', hy, hdep.trans ?_⟩
    exact Dependent.of_height_le hx (y'.height - x'.height) hy hacc.symm (by omega)
  | @received x y _ hrec ih =>
    obtain ⟨x', hx, hdep⟩ := ih
    have hne := ne_genesisHash_of_receivesFrom M hR hx hrec
    obtain ⟨y', hy, hsource⟩ := (receivesFrom_iff H M hR hne x).mp hrec
    rw [← L.keyed hx] at hsource
    exact ⟨y', hy, hdep.receives (L.find_hash hy) hsource⟩

include H M hR he in
theorem removed_of_dependent {x : Entry} (hx : Dependent L e x) : Removed env s e.hash x.hash := by
  induction hx with
  | self => exact Removed.self
  | @next x y hdep hy hprev ih =>
    have hstored := hdep.stored he
    have hne : y.previous ≠ 0 := by
      rw [hprev]
      exact L.hash_ne_zero H hstored
    obtain ⟨l, hwalk, -, -, hmem⟩ := exists_walk hR x.height hstored rfl
    rw [← hprev] at hwalk
    exact ih.later (PreviousWalk.next (hR.blockGet_of_find hy) hne hwalk)
      ((hmem _).mpr ⟨x, hstored, rfl, Nat.le_refl _⟩)
  | @receives x y _ hy hsource ih =>
    have hne : y.hash ≠ env.genesisHash := by
      intro hgen
      simp [Entry.source, hgen] at hsource
    exact ih.received ((receivesFrom_iff H M hR hne _).mpr ⟨y, hy, hsource⟩)

include H M hR he in
theorem find_pruned_iff {L' : BlockLattice env U} (hprune : Prunes e L L')
    (hgone : L'.find e.hash = none) (k : BlockHash) :
    (L'.find k).isSome = true ↔ (L.find k).isSome = true ∧ ¬ Removed env s e.hash k := by
  rw [Option.isSome_iff_exists, Option.isSome_iff_exists]
  constructor
  · rintro ⟨x, hx⟩
    refine ⟨⟨x, hprune.sub hx⟩, ?_⟩
    intro hrem
    obtain ⟨y, hy, hdep⟩ := dependent_of_removed H M hR he hrem
    obtain rfl := L.keyed hy
    simp [hdep.find_eq_none H he hprune.sub hgone] at hx
  · rintro ⟨⟨x, hx⟩, hrem⟩
    obtain rfl := L.keyed hx
    by_contra hnone
    have hx' : L'.find x.hash = none := by
      rw [Option.eq_none_iff_forall_ne_some]
      exact fun y hy => hnone ⟨y, hy⟩
    exact hrem (removed_of_dependent H M hR he (hprune.removed hx hx'))

end Lattice

section Runs

variable (H : CollisionFree env U) (M : MarkerFree env U)

theorem processAll_of_process
    {now : Nat} {b : Block} {blocks : List (Nat × Block)} {r : ProcessReturn} {s' : BlockStore}
    (h : Ledger.process env now s b = .ok (r, s')) (hcode : r.code = .progress) :
    Ledger.processAll env s ((now, b) :: blocks) = Ledger.processAll env s' blocks := by
  refine bind_eq_of_ok h ?_
  exact bind_eq_of_ok (require_of hcode) rfl

include H M in
theorem processAll_restrict (blocks : List (Nat × Block)) :
    ∀ {s s₁ : BlockStore} {L : BlockLattice env U}, Refines (fun _ => 0) s L →
      (∀ x ∈ blocks, x.2 ∈ U) → Ledger.processAll env s blocks = .ok s₁ →
      ∃ L₁ : BlockLattice env U, Refines (fun _ => 0) s₁ L₁ ∧ L.Sub L₁ ∧
        ∀ {keep : BlockHash → Bool} {t : BlockStore} {P : BlockLattice env U},
          Closed keep L₁ → Restricts keep L P → Refines (fun _ => 0) t P →
          ∃ t₁, ∃ P₁ : BlockLattice env U,
            Ledger.processAll env t (blocks.filter (fun x => keep (x.2.hash env))) = .ok t₁ ∧
            Refines (fun _ => 0) t₁ P₁ ∧ Restricts keep L₁ P₁ := by
  induction blocks with
  | nil =>
    intro s s₁ L hR _ hrun
    cases hrun
    exact ⟨L, hR, Sub.refl L, fun _ hres hP => ⟨_, _, rfl, hP, hres⟩⟩
  | cons x blocks ih =>
    intro s s₁ L hR hU hrun
    obtain ⟨now, b⟩ := x
    obtain ⟨r, s', hstep, hcode, hrest⟩ := processAll_cons hrun
    rcases process_step H M now hR (hU _ (.head _)) with
      ⟨r', hr', hcode'⟩ | ⟨r', s'', e, ha, hblock, hsig, hr', -, hR'⟩
    · simp_all
    · cases hr'.symm.trans hstep
      obtain ⟨L₁, hR₁, hsub, hkept⟩ :=
        ih hR' (fun y hy => hU y (.tail _ hy)) hrest
      refine ⟨L₁, hR₁, Sub.trans (append_sub H ha) hsub, ?_⟩
      intro keep t P hclosed hres hP
      subst hblock
      rw [List.filter_cons, ha.hashed]
      by_cases hk : keep e.hash = true
      · have ha' := ha.restrict H hres (hclosed.of_sub hsub) hk
        obtain ⟨r₁, t', hprocess, hcode₁, hP'⟩ := process_accepts H M now hP ha' hsig
        rw [if_pos hk, processAll_of_process hprocess hcode₁]
        exact hkept hclosed (hres.append H ha ha' hk) hP'
      · simpa [hk] using hkept hclosed (hres.skip H ha hk) hP

/-- Rollback equals replay. -/
theorem rollback_replays (H : CollisionFree env U) (M : MarkerFree env U) {now₀ : Nat}
    {g : BlockStore} (hg : genesisInitialize env now₀ .empty = .ok g) {blocks : List (Nat × Block)}
    (hU : ∀ x ∈ blocks, x.2 ∈ U) (hs : Ledger.processAll env g blocks = .ok s) (now : Nat)
    {h : BlockHash} (hexists : s.blockExists h = true) (hgen : h ≠ env.genesisHash) :
    RollbackReplays env now g blocks s h := by
  have hG := genesis_refines H hg
  obtain ⟨L, hR, -, hkept⟩ := processAll_restrict H M blocks hG hU hs
  obtain ⟨e, he⟩ := hR.find_of_exists hexists
  obtain rfl := L.keyed he
  obtain ⟨s', L', hrun, hR', hprune, hgone⟩ := rollback_spec H M now hR he hgen
  have hkeep : (fun k => (L'.find k).isSome) = s'.blockExists := by
    funext k
    rw [hR'.blockExists_iff]
  have hstart : Restricts s'.blockExists (genesisLattice H) (genesisLattice H) := by
    intro k x
    refine ⟨fun hx => ⟨hx, ?_⟩, fun hx => hx.1⟩
    obtain ⟨rfl, -⟩ := find_genesisLattice_eq H hx
    rw [hR'.blockExists_iff, show L'.find env.genesisHash = _ from L'.genesis]
    rfl
  have hclosed : Closed s'.blockExists L := by
    rw [← hkeep]
    exact closed_of_sub hprune.sub
  obtain ⟨t, P, hreplay, hP, hres⟩ := hkept hclosed hstart hG
  have hsame : P = L' := by
    refine eq_of_find_eq fun k => Option.ext fun x => ?_
    rw [hres, ← hkeep]
    constructor
    · rintro ⟨hx, hk⟩
      obtain ⟨y, hy⟩ := Option.isSome_iff_exists.mp hk
      rw [hy, ← hx, hprune.sub hy]
    · intro hx
      exact ⟨hprune.sub hx, Option.isSome_iff_exists.mpr ⟨x, hx⟩⟩
  subst hsame
  refine ⟨s', t, hrun, ?_, hreplay, hR'.sameLedger hP⟩
  intro k
  rw [hR'.blockExists_iff, hR.blockExists_iff]
  exact find_pruned_iff H M hR he hprune hgone k

theorem rollback_replays_plain :
    ∃ g s, genesisInitialize plainEnv 0 .empty = .ok g ∧
      Ledger.processAll plainEnv g (plainBlocks.map (fun b => (0, b))) = .ok s ∧
      s.blockExists 2 = true ∧
      RollbackReplays plainEnv 0 g (plainBlocks.map (fun b => (0, b))) s 2 := by
  obtain ⟨s, hs, -, -, hexists, -⟩ := plain_ledger
  obtain ⟨g, hg, hrun⟩ := ok_of_bind hs
  refine ⟨g, s, hg, hrun, hexists, rollback_replays plain_collisionFree plain_markerFree hg ?_
    hrun 0 hexists (by decide)⟩
  intro x hx
  obtain ⟨b, hb, rfl⟩ := List.mem_map.mp hx
  exact List.mem_cons_of_mem _ hb

theorem not_rollbackReplays {α : Type} {blocks : List Block} {g s₁ : BlockStore} {h : BlockHash}
    (k : PendingKey) (f : PendingInfo → α) (hg : genesisInitialize env 0 .empty = .ok g)
    (hs₁ : Ledger.rollback env 0 s h = .ok s₁) (ht : ledgerOf env (remaining env s₁ blocks) = .ok t)
    (hne : (s₁.pendingGet k).map f ≠ (t.pendingGet k).map f) :
    ¬ RollbackReplays env 0 g (blocks.map (fun b => (0, b))) s h := by
  rintro ⟨s', t', hs', -, ht', hsame⟩
  cases hs₁.symm.trans hs'
  obtain ⟨g', hg', hreplay⟩ := ok_of_bind ht
  cases hg.symm.trans hg'
  rw [List.filter_map] at ht'
  cases hreplay.symm.trans ht'
  exact hne (by rw [BlockStore.pendingGet, BlockStore.pendingGet, hsame.pending])

/-- With either marker hash a rollback leaves a pending entry that a replay does not make. -/
theorem rollback_differs :
    (CollisionFree oneEnv oneSet ∧ (∀ b ∈ oneSet, b.hash oneEnv ≠ oneEnv.genesisAccount) ∧
      ∃ g s, genesisInitialize oneEnv 0 .empty = .ok g ∧
        Ledger.processAll oneEnv g (oneBlocks.map (fun b => (0, b))) = .ok s ∧
        s.blockExists (oneReceive.hash oneEnv) = true ∧
        oneReceive.hash oneEnv ≠ oneEnv.genesisHash ∧
        ¬ RollbackReplays oneEnv 0 g (oneBlocks.map (fun b => (0, b))) s
          (oneReceive.hash oneEnv)) ∧
    CollisionFree changeEnv changeSet ∧ (∀ b ∈ changeSet, b.hash changeEnv ≠ 1) ∧
      ∃ g s, genesisInitialize changeEnv 0 .empty = .ok g ∧
        Ledger.processAll changeEnv g (changeBlocks.map (fun b => (0, b))) = .ok s ∧
        s.blockExists 4 = true ∧ 4 ≠ changeEnv.genesisHash ∧
        ¬ RollbackReplays changeEnv 0 g (changeBlocks.map (fun b => (0, b))) s 4 := by
  refine ⟨⟨one_collisionFree, one_ne_genesisAccount, ?_⟩, change_collisionFree, change_ne_one, ?_⟩
  · obtain ⟨s, hs, s₁, hs₁, hsource, -, ⟨t, ht, hsource'⟩, -⟩ := one_evaluated.2.2.2
    obtain ⟨g, hg, hrun⟩ := ok_of_bind hs
    refine ⟨g, s, hg, hrun, blockExists_of_rollback hs₁, one_hash_ne_genesisHash.1,
      not_rollbackReplays ⟨oneEnv.genesisAccount, oneSendBack.hash oneEnv⟩ PendingInfo.source hg hs₁
        ht ?_⟩
    show oneSource s₁ ≠ oneSource t
    rw [hsource, hsource']
    decide
  · obtain ⟨s, hs, s₁, hs₁, hamount, -, -, -, t, ht, hamount'⟩ := change_evaluated.2.2.2
    obtain ⟨g, hg, hrun⟩ := ok_of_bind hs
    refine ⟨g, s, hg, hrun, blockExists_of_rollback hs₁, by decide, not_rollbackReplays
      ⟨77, 2⟩ PendingInfo.amount hg hs₁ ht ?_⟩
    show changeAmount s₁ ≠ changeAmount t
    rw [hamount, hamount']
    decide

end Runs

end Badem
