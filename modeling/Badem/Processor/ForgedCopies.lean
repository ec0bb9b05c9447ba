import Badem.Processor.ArrivalOrder

/-!
# Copies with a forged signature

`process_active` tells blocks apart by their hashes, which do not cover the signature.  A forged
copy that comes first is refused, and the original that follows is dropped unseen.
-/

namespace Badem

open BlockProcessor

/-- A copy that differs from a block in its signature, which is not valid. -/
structure Forged (env : NodeEnv) (b c : Block) : Prop where
  hashables : c.hashables = b.hashables
  work : c.blockWork = b.blockWork
  signature : ∀ account, env.validateMessage account (c.hash env.toEnv) c.blockSignature = true

/-- In runs that meet the condition, forged copies among the arrivals do not keep a block of
`B` out of the ledger. -/
def ForgeryProof (env : NodeEnv) (guard : BlockProcessor → Event → Prop) (s : BlockStore)
    (B : List Block) : Prop :=
  ∀ (arrivals : List Block) (n : Nat) (p : BlockProcessor),
    (∀ c ∈ arrivals, c ∈ B ∨ ∃ b ∈ B, Forged env b c) →
    BlockProcessor.Run env guard (.idle s) (arrivals.map .active) n p →
    n ≤ 3 * arrivals.length ∧
    (p.haveBlocks = true → ∀ m, ∃ q, p.processNext env m = .ok q) ∧
    (B ⊆ arrivals → p.blocks = [] → ∀ b ∈ B, p.store.blockExists (b.hash env.toEnv) = true)

/-- A block that is not dropped is an original. -/
def Original (env : NodeEnv) (B : List Block) (p : BlockProcessor) (e : Event) : Prop :=
  Dropped env p e ∨ e.block ∈ B

/-- Forged copies are harmless if only originals are added to the queue. -/
theorem forged_copies_harmless
    {env : NodeEnv} {U : Set Block} {s t : BlockStore} (H : CollisionFree env.toEnv U)
    (M : MarkerFree env.toEnv U) (hs : Reachable env.toEnv U s) {good : List (Nat × Block)}
    (hU : ∀ x ∈ good, x.2 ∈ U) (hwork : ∀ x ∈ good, env.workValidate x.2 = false)
    (ht : Ledger.processAll env.toEnv s good = .ok t) :
    ForgeryProof env (Original env (good.map Prod.snd)) s (good.map Prod.snd) := by
  intro arrivals n p _ hrun
  obtain ⟨F, -, T⟩ := exists_target H M hs hU hwork ht
  obtain ⟨l, hl⟩ := T.follows H M (fun _ _ he => he) hrun
  refine ⟨?_, fun hblocks m => ?_, ?_⟩
  · have hle := hl.iterations_le (Target.idle_pool s)
    rwa [List.length_map] at hle
  · obtain ⟨q, hq, -⟩ := hl.process T.genuine H M (Target.idle_pool s) hblocks m
    exact ⟨q, hq⟩
  · intro hall hempty b hb
    obtain ⟨hstored, -⟩ := T.all_stored hl
      (fun c hc => hl.complete (.active c) (List.mem_map_of_mem (hall hc)) hc) hempty
    obtain ⟨-, e, he, -, -⟩ := T.genuine b hb
    exact hstored he

/-- Signatures are valid if they are zero. -/
def strictEnv : Env := { plainEnv with validateMessage := fun _ _ signature => signature ≠ 0 }

theorem strictEnv_validateMessage (account : Account) (hash : Uint256) (signature : Signature) :
    strictEnv.validateMessage account hash signature = decide (signature ≠ 0) := rfl

/-- The first send with another signature. -/
def forgedSend : Block :=
  .sendBlock ⟨⟨plainEnv.genesisHash, 77, genesisAmount - 10⟩, 1, 0⟩

def strictSet : Set Block := blockSet strictEnv [plainSend, plainOpen, forgedSend]

/-- The copy, and then the original. -/
def forgedFirst (s : BlockStore) : Except Fault BlockProcessor := do
  let p ← (BlockProcessor.idle s).processActive (withWork strictEnv) 0 forgedSend
  let p ← p.processNext (withWork strictEnv) anyMoment
  p.processActive (withWork strictEnv) 0 plainSend

theorem strict_evaluated :
    DistinctHashes strictEnv [plainSend, plainOpen, forgedSend] ∧
      forgedSend.hashables = plainSend.hashables ∧ forgedSend.blockWork = plainSend.blockWork ∧
      forgedSend.blockSignature ≠ 0 ∧
      (∀ b ∈ Block.openBlock strictEnv.genesisOpen :: [plainSend, plainOpen, forgedSend],
        b.hash strictEnv ≠ 1 ∧ b.hash strictEnv ≠ strictEnv.genesisAccount) ∧
      ∃ g, genesisInitialize strictEnv 0 .empty = .ok g ∧
        (∃ t, Ledger.processAll strictEnv g [(0, plainSend)] = .ok t ∧
          t.blockExists (plainSend.hash strictEnv) = true) ∧
        (∃ t, Ledger.processAll strictEnv g [(0, plainSend), (0, plainOpen)] = .ok t ∧
          t.blockCount = 3) ∧
        ∃ p, forgedFirst g = .ok p ∧ p.blocks = [] ∧
          p.store.blockExists (plainSend.hash strictEnv) = false := by
  decide +kernel

/-- An iteration of a processor that has something to do. -/
def iterate (p : BlockProcessor) : Except Fault BlockProcessor := do
  require (p.haveBlocks = true)
  p.processNext (withWork strictEnv) anyMoment

/-- The open block comes first and has to wait. -/
def openWaits (s : BlockStore) : Except Fault BlockProcessor := do
  let p ← (BlockProcessor.idle s).processActive (withWork strictEnv) 0 plainOpen
  iterate p

/-- Then the send comes, and a copy of it whose hash has been seen. -/
def sendFollows (p : BlockProcessor) : Except Fault BlockProcessor := do
  let p ← p.processActive (withWork strictEnv) 0 plainSend
  require (p.arrival.any (fun x => decide (x.hash = forgedSend.hash strictEnv)) = true)
  let p ← p.processActive (withWork strictEnv) 0 forgedSend
  let p ← iterate p
  iterate p

theorem strict_steps :
    ∃ g, genesisInitialize strictEnv 0 .empty = .ok g ∧
      ∃ p, openWaits g = .ok p ∧ p.unchecked.length = 1 ∧
        ∃ q, sendFollows p = .ok q ∧ q.blocks = [] := by
  decide +kernel

theorem strict_collisionFree : CollisionFree strictEnv strictSet :=
  collisionFree_blockSet strict_evaluated.1

theorem forged_send : Forged (withWork strictEnv) plainSend forgedSend where
  hashables := strict_evaluated.2.1
  work := strict_evaluated.2.2.1
  signature := by
    intro account
    rw [show (withWork strictEnv).validateMessage = strictEnv.validateMessage from rfl,
      strictEnv_validateMessage]
    exact decide_eq_true strict_evaluated.2.2.2.1

theorem strict_markerFree : MarkerFree strictEnv strictSet :=
  markerFree_blockSet strict_evaluated.2.2.2.2.1

theorem strict_run {g : BlockStore} (hg : genesisInitialize strictEnv 0 .empty = .ok g) :
    ∃ waiting p, BlockProcessor.Run (withWork strictEnv)
        (Original (withWork strictEnv) [plainSend, plainOpen]) (.idle g) [.active plainOpen] 1
        waiting ∧ waiting.unchecked.length = 1 ∧
      BlockProcessor.Run (withWork strictEnv)
        (Original (withWork strictEnv) [plainSend, plainOpen]) (.idle g)
        ([forgedSend, plainSend, plainOpen].map .active) 3 p ∧ p.blocks = [] := by
  obtain ⟨g', hg', p, hp, hwaits, q, hq, hempty⟩ := strict_steps
  cases hg.symm.trans hg'
  obtain ⟨p₁, hopen, hp⟩ := ok_of_bind hp
  obtain ⟨_, hqueued, hp⟩ := ok_of_bind hp
  have hwaiting : BlockProcessor.Run (withWork strictEnv)
      (Original (withWork strictEnv) [plainSend, plainOpen]) (.idle g) [.active plainOpen] 1 p :=
    .process (.receive 0 .start (.inr (.tail _ (.head _))) hopen) (of_require_eq_ok hqueued) hp
  obtain ⟨p₂, hsend, hq⟩ := ok_of_bind hq
  obtain ⟨_, hseen, hq⟩ := ok_of_bind hq
  obtain ⟨p₃, hcopy, hq⟩ := ok_of_bind hq
  obtain ⟨p₄, hp₄, hq⟩ := ok_of_bind hq
  obtain ⟨_, hqueued₃, hp₄⟩ := ok_of_bind hp₄
  obtain ⟨_, hqueued₄, hq⟩ := ok_of_bind hq
  exact ⟨p, q, hwaiting, hwaits,
    .process (.process (.receive 0 (.receive 0 hwaiting (.inr (.head _)) hsend)
      (.inl ⟨forgedSend, rfl, of_require_eq_ok hseen⟩) hcopy) (of_require_eq_ok hqueued₃) hp₄)
      (of_require_eq_ok hqueued₄) hq, hempty⟩

theorem forged_copies_harmless_strict :
    ∃ g t, Reachable strictEnv strictSet g ∧
      Ledger.processAll strictEnv g [(0, plainSend), (0, plainOpen)] = .ok t ∧
      ForgeryProof (withWork strictEnv) (Original (withWork strictEnv) [plainSend, plainOpen]) g
        [plainSend, plainOpen] ∧
      ∃ waiting p, BlockProcessor.Run (withWork strictEnv)
          (Original (withWork strictEnv) [plainSend, plainOpen]) (.idle g) [.active plainOpen] 1
          waiting ∧ waiting.unchecked.length = 1 ∧
        BlockProcessor.Run (withWork strictEnv)
          (Original (withWork strictEnv) [plainSend, plainOpen]) (.idle g)
          ([forgedSend, plainSend, plainOpen].map .active) 3 p ∧
        p.store.blockExists (plainOpen.hash strictEnv) = true := by
  obtain ⟨-, -, -, -, -, g, hg, -, ⟨t, ht, -⟩, -⟩ := strict_evaluated
  have hproof := @forged_copies_harmless (withWork strictEnv) strictSet g t
    strict_collisionFree strict_markerFree (.genesis hg) [(0, plainSend), (0, plainOpen)]
    (by simp [strictSet, blockSet]) (fun x _ => withWork_workValidate strictEnv x.2) ht
  obtain ⟨waiting, p, hwaiting, hwaits, hrun, hempty⟩ := strict_run hg
  refine ⟨g, t, .genesis hg, ht, hproof, waiting, p, hwaiting, hwaits, hrun, ?_⟩
  have hcopies : ∀ c ∈ [forgedSend, plainSend, plainOpen], c ∈ [plainSend, plainOpen] ∨
      ∃ b ∈ [plainSend, plainOpen], Forged (withWork strictEnv) b c := by
    intro c hc
    rcases List.mem_cons.mp hc with rfl | hc
    · exact .inr ⟨plainSend, .head _, forged_send⟩
    · exact .inl hc
  obtain ⟨-, -, hall⟩ := hproof _ _ _ hcopies hrun
  exact hall (List.subset_cons_self _ _) hempty plainOpen (.tail _ (.head _))

/-- A forged copy that arrives first keeps the original out. -/
theorem forged_copy_first :
    CollisionFree strictEnv strictSet ∧ MarkerFree strictEnv strictSet ∧
      ∃ g t, Reachable strictEnv strictSet g ∧
        Ledger.processAll strictEnv g [(0, plainSend)] = .ok t ∧ plainSend ∈ strictSet ∧
        (∀ b, (withWork strictEnv).workValidate b = false) ∧
        ¬ ForgeryProof (withWork strictEnv) (fun _ _ => True) g [plainSend] := by
  obtain ⟨-, -, -, -, -, g, hg, ⟨t, ht, -⟩, -, p, hp, hempty, hlost⟩ :=
    strict_evaluated
  refine ⟨strict_collisionFree, strict_markerFree, g, t, .genesis hg, ht,
    by simp [strictSet, blockSet], withWork_workValidate strictEnv, ?_⟩
  intro hproof
  obtain ⟨p₁, hp₁, hp⟩ := ok_of_bind hp
  obtain ⟨p₂, hp₂, hp⟩ := ok_of_bind hp
  have hqueued : p₁.haveBlocks = true := by
    cases hp₁
    rfl
  have hrun : BlockProcessor.Run (withWork strictEnv) (fun _ _ => True) (.idle g)
      ([plainSend, forgedSend].map .active) 1 p :=
    .receive 0 (.process (.receive 0 .start trivial hp₁) hqueued hp₂) trivial hp
  have hcopies : ∀ c ∈ [plainSend, forgedSend], c ∈ [plainSend] ∨
      ∃ b ∈ [plainSend], Forged (withWork strictEnv) b c := by
    intro c hc
    rcases List.mem_cons.mp hc with rfl | hc
    · exact Or.inl List.mem_cons_self
    · obtain rfl := List.mem_singleton.mp hc
      exact Or.inr ⟨plainSend, List.mem_cons_self, forged_send⟩
  obtain ⟨-, -, hall⟩ := hproof _ _ _ hcopies hrun
  have hstored := hall (by simp) hempty plainSend List.mem_cons_self
  simp [show (withWork strictEnv).toEnv = strictEnv from rfl, hlost] at hstored

end Badem
