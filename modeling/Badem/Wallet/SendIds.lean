import Badem.Abstract.Ancestry
import Badem.Wallet.Acceptance
import Badem.Processor.Forks

/-!
# Ids of sends

When the ledger does not have the block of an id the wallet builds another one, and only the
last one is recorded.
-/

namespace Badem

open Mdb WalletStore BlockLattice

/-- The block that a call returns, if there is one. -/
def Wallet.SendResult.block? : Wallet.SendResult → Option Block
  | .nothing => none
  | .cached block => some block
  | .created block => some (.stateBlock block)

/-- Calls of `send_action` with one id, between steps of the ledger, with the blocks returned.  A
new block may be built only if the guard allows it. -/
inductive SendRun (env : WalletEnv) (U : Set Block)
    (guard : BlockStore → List Block → StateBlock → Prop) (id : String) :
    BlockStore → Wallet.SendActionIds → List Block → Prop
  | start {s : BlockStore} {ids : Wallet.SendActionIds} :
      Reachable env.toEnv U s → ids id = none → SendRun env U guard id s ids []
  | call {s : BlockStore} {ids ids' : Wallet.SendActionIds} {returned : List Block}
      {w : WalletStore} {source account : Account} {amount : Uint128}
      {result : Wallet.SendResult} :
      SendRun env U guard id s ids returned →
      Wallet.sendAction env w s ids source account amount (some id) = .ok (result, ids') →
      (∀ b, result = .created b → Block.stateBlock b ∈ U ∧ guard s returned b) →
      SendRun env U guard id s ids' (result.block?.toList ++ returned)
  | process {now : Nat} {s s' : BlockStore} {ids : Wallet.SendActionIds} {returned : List Block}
      {b : Block} {r : ProcessReturn} :
      SendRun env U guard id s ids returned →
      b ∈ U →
      Ledger.process env.toEnv now s b = .ok (r, s') →
      SendRun env U guard id s' ids returned
  | rollback {now : Nat} {s s' : BlockStore} {ids : Wallet.SendActionIds}
      {returned : List Block} {hash : BlockHash} :
      SendRun env U guard id s ids returned →
      s.blockExists hash = true →
      hash ≠ env.genesisHash →
      Ledger.rollback env.toEnv now s hash = .ok s' →
      SendRun env U guard id s' ids returned

def OneStored (env : Env) (s : BlockStore) (blocks : List Block) : Prop :=
  ∀ b ∈ blocks, ∀ c ∈ blocks, s.blockExists (b.hash env) = true →
    s.blockExists (c.hash env) = true → b.hash env = c.hash env

/-- While the recorded block is stored, every call with the id returns it. -/
def Repeats (env : WalletEnv) (s : BlockStore) (ids : Wallet.SendActionIds) (id : String) : Prop :=
  ∀ hash, ids id = some hash → s.blockExists hash = true →
    ∃ block, block.hash env.toEnv = hash ∧ ∀ w source account amount,
      Wallet.sendAction env w s ids source account amount (some id) = .ok (.cached block, ids)

/-- A new block takes the place of the earlier ones of its account, none of which is stored. -/
def Replaces (env : Env) (U : Set Block) (s : BlockStore) (returned : List Block)
    (b : StateBlock) : Prop :=
  ∀ c ∈ returned, c.hash env ≠ (Block.stateBlock b).hash env →
    (∃ x, c.hashables = .state x ∧ x.account = b.hashables.account) ∧
    s.blockExists (c.hash env) = false ∧
    ¬ Ancestor env U ((Block.stateBlock b).hash env) (c.hash env)

def Rivals (env : Env) (U : Set Block) (h h' : BlockHash) : Prop :=
  ∀ s, Reachable env U s → ¬ (s.blockExists h = true ∧ s.blockExists h' = true)

variable {env : WalletEnv} {U : Set Block} {w : WalletStore} {s : BlockStore}
  {ids ids' : Wallet.SendActionIds} {source account : Account} {amount : Uint128} {id : String}
  {block : Block} {guard : BlockStore → List Block → StateBlock → Prop}

theorem Rivals.symm {env : Env} {h h' : BlockHash} (hr : Rivals env U h h') : Rivals env U h' h :=
  fun s hs hboth => hr s hs hboth.symm

/-- Known blocks of which no reachable ledger has two. -/
structure Exclusive (env : Env) (U : Set Block) (blocks : List Block) : Prop where
  known : ∀ b ∈ blocks, b ∈ U
  rivals : ∀ b ∈ blocks, ∀ c ∈ blocks, b.hash env ≠ c.hash env →
    Rivals env U (b.hash env) (c.hash env)

theorem Exclusive.nil {env : Env} : Exclusive env U [] :=
  ⟨fun _ hb => absurd hb List.not_mem_nil, fun _ hb => absurd hb List.not_mem_nil⟩

theorem Exclusive.cons {env : Env} {blocks : List Block} (h : Exclusive env U blocks) {d : Block}
    (hd : d ∈ U)
    (hrivals : ∀ c ∈ blocks, d.hash env ≠ c.hash env → Rivals env U (d.hash env) (c.hash env)) :
    Exclusive env U (d :: blocks) where
  known := List.forall_mem_cons.mpr ⟨hd, h.known⟩
  rivals := by
    intro b hb c hc hne
    rcases List.mem_cons.mp hb with rfl | hold
    · rcases List.mem_cons.mp hc with rfl | hold'
      · exact absurd rfl hne
      · exact hrivals c hold' hne
    · rcases List.mem_cons.mp hc with rfl | hold'
      · exact (hrivals b hold hne.symm).symm
      · exact h.rivals b hold c hold' hne

section Rivals

variable {env : Env} {U : Set Block} {s : BlockStore}
variable (H : CollisionFree env U) (M : MarkerFree env U) (hs : Reachable env U s)

include H M hs

theorem rivals_on_head {b : StateBlock} {info : AccountInfo} {c : Block} {x : StateHashables}
    (hb : Block.stateBlock b ∈ U) (hc : c ∈ U)
    (hinfo : s.accountGet b.hashables.account = some info)
    (hprev : b.hashables.previous = info.head) (hne : c.hash env ≠ (Block.stateBlock b).hash env)
    (hx : c.hashables = .state x) (hacc : x.account = b.hashables.account)
    (hstored : s.blockExists (c.hash env) = false)
    (hanc : ¬ Ancestor env U ((Block.stateBlock b).hash env) (c.hash env)) :
    Rivals env U ((Block.stateBlock b).hash env) (c.hash env) := by
  rintro t ht ⟨hbt, hct⟩
  obtain ⟨L, hR⟩ := hs.refines H M
  obtain ⟨N, hN⟩ := ht.refines H M
  obtain ⟨e, he⟩ := hN.find_of_exists hbt
  obtain ⟨d, hd⟩ := hN.find_of_exists hct
  have haccount : d.account = e.account := by
    rw [N.account_eq_of_state hd ((H.injective _ (N.known hd) _ hc (N.hashed hd)).trans hx), hacc]
    exact (N.account_eq_of_state he (H.injective _ (N.known he) _ hb (N.hashed he))).symm
  have htotal := N.ancestor_total H hd he haccount
  rw [N.keyed hd, N.keyed he] at htotal
  rcases htotal with hbelow | habove
  · -- The other block lies below the head on which the block was built.
    have hhead : Ancestor env U (c.hash env) b.hashables.previous := hbelow.previous H hb hne
    obtain ⟨y, hy, hdesc⟩ := hR.head_of_account hinfo
    obtain ⟨hfind, -, -⟩ := (L.head_eq_some_iff _ y).mp hy
    rw [hprev, hdesc.head] at hhead
    obtain ⟨z, hz⟩ := L.find_of_ancestor H hhead hfind
    have hexists : s.blockExists (c.hash env) = true := by
      rw [hR.blockExists_iff, hz]
      rfl
    exact absurd hexists (by simp [hstored])
  · exact hanc habove

end Rivals

theorem sendAction_cases {result : Wallet.SendResult}
    (h : Wallet.sendAction env w s ids source account amount (some id) = .ok (result, ids')) :
    (result = .nothing ∧ ids' = ids) ∨
      (∃ hash block, ids id = some hash ∧ s.blockGet hash = some block ∧
        result = .cached block ∧ ids' = ids) ∨
      ∃ b, result = .created b ∧ Wallet.sendBlock env w s source account amount = .ok (some b) ∧
        env.getFails id = false ∧
        ids' = Function.update ids id (some ((Block.stateBlock b).hash env.toEnv)) := by
  rw [Wallet.sendAction] at h
  by_cases hfails : env.getFails id = true
  · simp_all
  rw [if_neg (by simpa using hfails)] at h
  cases hblock : ((some id).bind ids).bind s.blockGet with
  | some block =>
    rw [hblock] at h
    cases h
    obtain ⟨hash, hhash, hget⟩ := Option.bind_eq_some_iff.mp hblock
    exact .inr (.inl ⟨hash, block, hhash, hget, rfl, rfl⟩)
  | none =>
    rw [hblock] at h
    obtain ⟨built, hbuilt, h⟩ := ok_of_bind h
    cases built with
    | none =>
      cases h
      exact .inl ⟨rfl, rfl⟩
    | some b =>
      simp only [Wallet.recordSend] at h
      by_cases hput : env.putFails id = true
      · rw [if_pos hput] at h
        cases h
        exact .inl ⟨rfl, rfl⟩
      · rw [if_neg hput] at h
        cases h
        exact .inr (.inr ⟨b, rfl, hbuilt, by simpa using hfails, rfl⟩)

theorem getFails_of_cached
    (h : Wallet.sendAction env w s ids source account amount (some id) =
      .ok (.cached block, ids')) : env.getFails id = false := by
  by_contra hfails
  rw [Wallet.sendAction, if_pos (by simpa using hfails)] at h
  exact absurd (Prod.mk.inj (Except.ok.inj h)).1 (by simp)

theorem sendAction_of_recorded {hash : BlockHash} (hfails : env.getFails id = false)
    (hids : ids id = some hash) (hget : s.blockGet hash = some block)
    (w : WalletStore) (source account : Account) (amount : Uint128) :
    Wallet.sendAction env w s ids source account amount (some id) = .ok (.cached block, ids) := by
  have hbind : ((some id).bind ids).bind s.blockGet = some block := by
    rw [Option.bind_some, hids, Option.bind_some, hget]
  rw [Wallet.sendAction, if_neg (by simp [hfails]), hbind]

section Runs

variable {env : WalletEnv} {U : Set Block} {guard : BlockStore → List Block → StateBlock → Prop}
variable {id : String} {s : BlockStore} {ids : Wallet.SendActionIds} {returned : List Block}

theorem SendRun.reachable (run : SendRun env U guard id s ids returned) :
    Reachable env.toEnv U s := by
  induction run with
  | start hs _ => exact hs
  | call _ _ _ ih => exact ih
  | process _ hb h ih => exact ih.process hb h
  | rollback _ hexists hne h ih => exact ih.rollback hexists hne h

theorem SendRun.recorded (run : SendRun env U guard id s ids returned) :
    ∀ hash, ids id = some hash →
      env.getFails id = false ∧ ∃ b ∈ returned, b.hash env.toEnv = hash := by
  induction run with
  | start _ hids =>
    intro hash h
    exact absurd (hids.symm.trans h) (by simp)
  | call _ hcall _ ih =>
    intro hash h
    rcases sendAction_cases hcall with ⟨rfl, rfl⟩ | ⟨_, block, -, -, rfl, rfl⟩ |
      ⟨b, rfl, -, hfails, rfl⟩
    · exact ih hash h
    · obtain ⟨hfails, c, hc, hhash⟩ := ih hash h
      exact ⟨hfails, c, List.mem_append_right _ hc, hhash⟩
    · rw [Function.update_self] at h
      exact ⟨hfails, .stateBlock b, .head _, Option.some.inj h⟩
  | process _ _ _ ih => exact ih
  | rollback _ _ _ _ ih => exact ih

variable (H : CollisionFree env.toEnv U) (M : MarkerFree env.toEnv U) {hash : BlockHash}

include H M

theorem Reachable.blockGet_hash (hs : Reachable env.toEnv U s)
    (h : s.blockGet hash = some block) : block.hash env.toEnv = hash ∧ block ∈ U := by
  obtain ⟨L, hR⟩ := hs.refines H M
  cases he : L.find hash with
  | none => exact absurd ((hR.blockGet_of_find_none he).symm.trans h) (by simp)
  | some e =>
    cases (hR.blockGet_of_find he).symm.trans h
    exact ⟨L.hashed he, L.known he⟩

theorem Reachable.exists_blockGet (hs : Reachable env.toEnv U s) (h : s.blockExists hash = true) :
    ∃ block, s.blockGet hash = some block ∧ block.hash env.toEnv = hash := by
  obtain ⟨L, hR⟩ := hs.refines H M
  obtain ⟨e, he⟩ := hR.find_of_exists h
  exact ⟨_, hR.blockGet_of_find he, L.hashed he⟩

theorem SendRun.repeats (run : SendRun env U guard id s ids returned) : Repeats env s ids id := by
  intro hash hids hexists
  obtain ⟨hfails, -⟩ := run.recorded hash hids
  obtain ⟨block, hget, hhash⟩ := run.reachable.exists_blockGet H M hexists
  exact ⟨block, hhash, sendAction_of_recorded hfails hids hget⟩

theorem SendRun.exclusive (run : SendRun env U (Replaces env.toEnv U) id s ids returned) :
    Exclusive env.toEnv U returned := by
  induction run with
  | start _ _ => exact .nil
  | call run hcall hcreated ih =>
    rcases sendAction_cases hcall with ⟨rfl, -⟩ | ⟨hash, block, hids, hget, rfl, -⟩ |
      ⟨b, rfl, hbuilt, -, -⟩
    · exact ih
    · obtain ⟨hhash, hmem⟩ := run.reachable.blockGet_hash H M hget
      obtain ⟨-, d, hd, hdhash⟩ := run.recorded hash hids
      refine ih.cons hmem fun c hc hne => ?_
      rw [hhash, ← hdhash] at hne ⊢
      exact ih.rivals d hd c hc hne
    · obtain ⟨hmem, hguard⟩ := hcreated b rfl
      obtain ⟨info, repBlock, prv, -, hinfo, -, rfl⟩ := sendBlock_inv hbuilt
      refine ih.cons hmem fun c hc hne => ?_
      obtain ⟨⟨x, hx, hacc⟩, hstored, hanc⟩ := hguard c hc hne.symm
      exact rivals_on_head H M run.reachable hmem (ih.known c hc) hinfo rfl hne.symm hx hacc
        hstored hanc
  | process _ _ _ ih => exact ih
  | rollback _ _ _ _ ih => exact ih

/-- While the block of an id is stored every call returns it, and the ledger never has two of them
if each new block replaces those before it. -/
theorem send_ids_idempotent :
    (SendRun env U (fun _ _ _ => True) id s ids returned → Repeats env s ids id) ∧
    (SendRun env U (Replaces env.toEnv U) id s ids returned → OneStored env.toEnv s returned) := by
  refine ⟨fun run => run.repeats H M, fun run b hb c hc hbs hcs => ?_⟩
  by_contra hne
  exact (run.exclusive H M).rivals b hb c hc hne s run.reachable ⟨hbs, hcs⟩

end Runs

/-! ## Three calls with one id -/

def mixedWallets : WalletEnv where
  toNodeEnv := { mixedEnv with workValue := fun _ _ => BitVec.allOnes 64 }
  toCrypto := sampleCrypto
  receiveMinimum := 0
  bootstrapWeights := ⟨false, 0, .empty⟩
  getFails := fun _ => false
  putFails := fun _ => false

def sendOn (previous : BlockHash) (left : Amount) : StateBlock :=
  ⟨⟨mixedEnv.genesisAccount, previous, mixedEnv.genesisAccount, left, 77⟩, 0, 0⟩

def lostSend : StateBlock := sendOn mixedEnv.genesisHash (genesisAmount - 10)

def replacingSend : StateBlock := sendOn mixedEnv.genesisHash (genesisAmount - 20)

def secondSend : StateBlock :=
  sendOn ((Block.stateBlock lostSend).hash mixedEnv) (genesisAmount - 20)

def sendsSet : Set Block :=
  blockSet mixedEnv [.stateBlock lostSend, .stateBlock replacingSend, .stateBlock secondSend]

theorem sends_evaluated :
    DistinctHashes mixedEnv
        [.stateBlock lostSend, .stateBlock replacingSend, .stateBlock secondSend] ∧
      (∀ b ∈ Block.openBlock mixedEnv.genesisOpen ::
          [.stateBlock lostSend, .stateBlock replacingSend, .stateBlock secondSend],
        b.hash mixedEnv ≠ 1 ∧ b.hash mixedEnv ≠ mixedEnv.genesisAccount) ∧
      (Block.stateBlock replacingSend).hash mixedEnv ≠ (Block.stateBlock lostSend).hash mixedEnv ∧
      (Block.stateBlock replacingSend).hash mixedEnv ≠ mixedEnv.genesisHash ∧
      (Block.stateBlock secondSend).hash mixedEnv ≠ (Block.stateBlock lostSend).hash mixedEnv := by
  decide +kernel

theorem sends_collisionFree : CollisionFree mixedEnv sendsSet :=
  collisionFree_blockSet sends_evaluated.1

def callReturns (w : WalletStore) (s : BlockStore) (ids : Wallet.SendActionIds)
    (amount : Uint128) (b : StateBlock) : Except Fault Wallet.SendActionIds := do
  let (result, ids) ← Wallet.sendAction mixedWallets w s ids mixedEnv.genesisAccount 77 amount
    (some "id")
  require (result.block? = some (.stateBlock b))
  pure ids

theorem SendRun.after_call {returned : List Block} {b : StateBlock}
    (run : SendRun mixedWallets sendsSet guard "id" s ids returned)
    (h : callReturns w s ids amount b = .ok ids') (hb : Block.stateBlock b ∈ sendsSet)
    (hguard : guard s returned b) :
    SendRun mixedWallets sendsSet guard "id" s ids' (.stateBlock b :: returned) := by
  obtain ⟨⟨result, ids₁⟩, hcall, h⟩ := ok_of_bind h
  obtain ⟨_, hblock, h⟩ := ok_of_bind h
  cases h
  have hresult : result.block? = some (.stateBlock b) := of_require_eq_ok hblock
  have hnext := run.call hcall fun c hc => ?_
  · rwa [hresult] at hnext
  · subst hc
    obtain rfl : c = b := Block.stateBlock.inj (Option.some.inj hresult)
    exact ⟨hb, hguard⟩

def replacedRun : Except Fault (BlockStore × WalletStore × Wallet.SendActionIds) := do
  let g ← genesisInitialize mixedEnv 0 .empty
  let w ← create sampleCrypto sampleDraws 99 .empty
  let (_, w) ← w.insertAdhoc sampleCrypto mixedEnv.genesisAccount
  let ids ← callReturns w g (fun _ => none) 10 lostSend
  require (g.blockExists ((Block.stateBlock lostSend).hash mixedEnv) = false)
  let ids ← callReturns w g ids 20 replacingSend
  let (_, s) ← Ledger.process mixedEnv 0 g (.stateBlock lostSend)
  pure (s, w, ids)

theorem replaced_runs
    (h : replacedRun = .ok (s, w, ids)) (hfirst : ∀ g, guard g [] lostSend)
    (hsecond : ∀ g : BlockStore,
      g.blockExists ((Block.stateBlock lostSend).hash mixedEnv) = false →
        guard g [.stateBlock lostSend] replacingSend) :
    SendRun mixedWallets sendsSet guard "id" s ids
      [.stateBlock replacingSend, .stateBlock lostSend] := by
  obtain ⟨g, hg, h⟩ := ok_of_bind h
  obtain ⟨w₀, -, h⟩ := ok_of_bind h
  obtain ⟨⟨pub, w₁⟩, -, h⟩ := ok_of_bind h
  obtain ⟨ids₁, hcall, h⟩ := ok_of_bind h
  obtain ⟨_, hstored, h⟩ := ok_of_bind h
  obtain ⟨ids₂, hcall', h⟩ := ok_of_bind h
  obtain ⟨⟨r, s'⟩, hprocess, h⟩ := ok_of_bind h
  obtain ⟨rfl, hrest⟩ := Prod.mk.inj (Except.ok.inj h)
  obtain ⟨rfl, rfl⟩ := Prod.mk.inj hrest
  have hmem : Block.stateBlock lostSend ∈ sendsSet := .tail _ (.head _)
  have hstart : SendRun mixedWallets sendsSet guard "id" g (fun _ => none) [] :=
    .start (.genesis hg) rfl
  have hone := hstart.after_call hcall hmem (hfirst g)
  have htwo := hone.after_call hcall' (.tail _ (.tail _ (.head _)))
    (hsecond g (of_require_eq_ok hstored))
  exact htwo.process hmem hprocess

theorem replacing_not_ancestor :
    ¬ Ancestor mixedEnv sendsSet ((Block.stateBlock replacingSend).hash mixedEnv)
      ((Block.stateBlock lostSend).hash mixedEnv) := by
  have H := sends_collisionFree
  intro hanc
  have hgenesis : Ancestor mixedEnv sendsSet ((Block.stateBlock replacingSend).hash mixedEnv)
      mixedEnv.genesisHash :=
    hanc.previous H (.tail _ (.head _)) sends_evaluated.2.2.1
  have hzero : Ancestor mixedEnv sendsSet ((Block.stateBlock replacingSend).hash mixedEnv) 0 :=
    Ancestor.previous H H.genesis hgenesis sends_evaluated.2.2.2.1
  rcases Relation.ReflTransGen.cases_tail hzero with heq | ⟨h, -, -, b, hb, hhash, -⟩
  · exact H.nonzero _ (.tail _ (.tail _ (.head _))) heq.symm
  · exact H.nonzero b hb hhash

theorem send_ids_idempotent_replaced :
    ∃ s w ids, replacedRun = .ok (s, w, ids) ∧
      s.blockExists ((Block.stateBlock lostSend).hash mixedEnv) = true ∧
      Repeats mixedWallets s ids "id" ∧
      OneStored mixedEnv s [.stateBlock replacingSend, .stateBlock lostSend] := by
  obtain ⟨⟨s, w, ids⟩, hrun, hexists⟩ : ∃ x, replacedRun = .ok x ∧
      x.1.blockExists ((Block.stateBlock lostSend).hash mixedEnv) = true := by
    decide +kernel
  have M : MarkerFree mixedEnv sendsSet := markerFree_blockSet sends_evaluated.2.1
  have hspec := @send_ids_idempotent mixedWallets sendsSet "id" s ids
    [.stateBlock replacingSend, .stateBlock lostSend] sends_collisionFree M
  refine ⟨s, w, ids, hrun, hexists,
    hspec.1 (replaced_runs hrun (fun _ => trivial) fun _ _ => trivial),
    hspec.2 (replaced_runs hrun (fun g c hc => absurd hc List.not_mem_nil) ?_)⟩
  intro g hstored c hc _
  obtain rfl := List.mem_singleton.mp hc
  exact ⟨⟨_, rfl, rfl⟩, hstored, replacing_not_ancestor⟩

def doubledRun : Except Fault (BlockStore × Wallet.SendActionIds) := do
  let (s, w, ids) ← replacedRun
  let ids ← callReturns w s ids 10 secondSend
  let (_, s) ← Ledger.process mixedEnv 0 s (.stateBlock secondSend)
  pure (s, ids)

/-- The ledger has the blocks of the first and of the third call. -/
theorem send_id_spent_twice :
    ∃ s ids, CollisionFree mixedEnv sendsSet ∧
      SendRun mixedWallets sendsSet (fun _ _ _ => True) "id" s ids
        [.stateBlock secondSend, .stateBlock replacingSend, .stateBlock lostSend] ∧
      s.blockExists ((Block.stateBlock lostSend).hash mixedEnv) = true ∧
      s.blockExists ((Block.stateBlock secondSend).hash mixedEnv) = true ∧
      ¬ OneStored mixedEnv s
        [.stateBlock secondSend, .stateBlock replacingSend, .stateBlock lostSend] := by
  obtain ⟨⟨s, ids⟩, hrun, hlost, hsecond⟩ : ∃ x, doubledRun = .ok x ∧
      x.1.blockExists ((Block.stateBlock lostSend).hash mixedEnv) = true ∧
      x.1.blockExists ((Block.stateBlock secondSend).hash mixedEnv) = true := by
    decide +kernel
  obtain ⟨⟨s₁, w, ids₁⟩, hreplaced, h⟩ := ok_of_bind hrun
  obtain ⟨ids₂, hcall, h⟩ := ok_of_bind h
  obtain ⟨⟨r, s₂⟩, hprocess, h⟩ := ok_of_bind h
  obtain ⟨rfl, rfl⟩ := Prod.mk.inj (Except.ok.inj h)
  have hmem : Block.stateBlock secondSend ∈ sendsSet := .tail _ (.tail _ (.tail _ (.head _)))
  have hrest : SendRun mixedWallets sendsSet (fun _ _ _ => True) "id" s₁ ids₁
      [.stateBlock replacingSend, .stateBlock lostSend] :=
    replaced_runs hreplaced (fun _ => trivial) fun _ _ => trivial
  have hcalled := hrest.after_call hcall hmem trivial
  refine ⟨s₂, ids₂, sends_collisionFree, hcalled.process hmem hprocess, hlost, hsecond, ?_⟩
  intro hone
  have hsame := hone _ (.head _) _ (.tail _ (.tail _ (.head _))) hsecond hlost
  exact sends_evaluated.2.2.2.2 hsame

end Badem
