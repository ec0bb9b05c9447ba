import Badem.Core.Elections
import Badem.Processor.ArrivalOrder
import Badem.Processor.Competitors
import Badem.Processor.Forks

/-!
# Forced blocks

A block that has won its election is forced: the block in its place is rolled back, and only
then the winner is processed.
-/

namespace Badem

open BlockLattice BlockProcessor

/-- After a forced block has been handled it is stored, or all tables are as before. -/
def ForcedAtomic (env : NodeEnv) (s : BlockStore) (b : Block) : Prop :=
  ∀ (p p' : BlockProcessor) (m : Moment), p.store = s → p.forced.head? = some b →
    p.processNext env m = .ok p' →
    p'.store.blockExists (b.hash env.toEnv) = true ∨ p'.store = s

/-- Without the block in its place, and what goes with that, the block is stored or valid. -/
def Replaceable (env : Env) (s : BlockStore) (b : Block) : Prop :=
  ∀ h, StandsAt s b.root h → h ≠ b.hash env → h ≠ env.genesisHash →
    Stays env s h (b.hash env) ∨ ValidWithout env s h b

section Stores

variable {env : NodeEnv} {p q : BlockProcessor} {m : Moment} {b : Block}

theorem requeue_store {hash : BlockHash} {l : List Block}
    (h : requeue env hash l p = .ok q) : q.store = p.store := by
  induction l generalizing p with
  | nil =>
    cases h
    rfl
  | cons b l ih =>
    obtain ⟨p₁, hadd, hrest⟩ := ok_of_bind h
    rw [ih hrest]
    unfold add at hadd
    split_ifs at hadd
    cases hadd
    rfl

theorem uncheckedPut_store (p : BlockProcessor) (hash : BlockHash) (b : Block) :
    (p.uncheckedPut env hash b).store = p.store := by
  unfold uncheckedPut
  split_ifs <;> rfl

theorem processReceiveOne_store {r : ProcessReturn} (h : p.processReceiveOne env m b = .ok (r, q)) :
    Ledger.process env.toEnv m.now p.store b = .ok (r, q.store) := by
  obtain ⟨⟨result, store⟩, hprocess, h⟩ := ok_of_bind h
  have hresult : result = r ∧ store = q.store := by
    simp only at h
    cases hcode : result.code with
    | progress =>
      simp only [hcode] at h
      obtain ⟨p₁, hqueue, h⟩ := ok_of_bind h
      cases h
      exact ⟨rfl, (requeue_store hqueue).symm⟩
    | old =>
      simp only [hcode] at h
      obtain ⟨p₁, hqueue, h⟩ := ok_of_bind h
      cases h
      exact ⟨rfl, (requeue_store hqueue).symm⟩
    | gapPrevious =>
      simp only [hcode] at h
      cases h
      exact ⟨rfl, by rw [uncheckedPut_store]⟩
    | gapSource =>
      simp only [hcode] at h
      obtain ⟨source, -, h⟩ := ok_of_bind h
      cases h
      exact ⟨rfl, by rw [uncheckedPut_store]⟩
    | fork =>
      simp only [hcode] at h
      obtain ⟨_, -, h⟩ := ok_of_bind h
      cases h
      exact ⟨rfl, rfl⟩
    | _ =>
      simp only [hcode] at h
      cases h
      exact ⟨rfl, rfl⟩
  rw [hprocess, hresult.1, hresult.2]

theorem processNext_forced (hb : p.forced.head? = some b) (h : p.processNext env m = .ok q) :
    ∃ store r, p.rollbackCompetitor env m.now b = .ok store ∧
      Ledger.process env.toEnv m.now store b = .ok (r, q.store) := by
  unfold processNext at h
  cases hforced : p.forced with
  | nil => simp [hforced] at hb
  | cons c rest =>
    rw [hforced] at hb
    cases hb
    simp only [hforced] at h
    obtain ⟨store, hroll, h⟩ := ok_of_bind h
    obtain ⟨⟨r, p₁⟩, hone, h⟩ := ok_of_bind h
    cases h
    exact ⟨store, r, hroll, processReceiveOne_store hone⟩

end Stores

section Replacement

variable {env : NodeEnv} {U : Set Block} {s : BlockStore}
variable (H : CollisionFree env.toEnv U) (M : MarkerFree env.toEnv U) {now : Nat} {b : Block}
  {r : ProcessReturn} {t : BlockStore} {p : BlockProcessor}
include H M

theorem process_store {L : BlockLattice env.toEnv U} (hR : Refines (fun _ => 0) s L) (hb : b ∈ U)
    (h : Ledger.process env.toEnv now s b = .ok (r, t)) :
    r.code = .progress ∧ t.blockExists (b.hash env.toEnv) = true ∨
      r.code ≠ .progress ∧ t = s := by
  rcases process_step H M now hR hb with ⟨r', hr, hcode⟩ | ⟨r', s', e, ha, rfl, -, hr, hcode, hR'⟩
  · simp_all
  · cases h.symm.trans hr
    refine .inl ⟨hcode, ?_⟩
    rw [hR'.blockExists_iff, ha.hashed, find_append, if_pos rfl]
    rfl

omit H M in
theorem rollbackCompetitor_cases {store : BlockStore}
    (h : p.rollbackCompetitor env now b = .ok store) :
    store = p.store ∨ ∃ x, Ledger.successor p.store b.root = .ok (some x) ∧
      x.hash env.toEnv ≠ b.hash env.toEnv ∧
      Ledger.rollback env.toEnv now p.store (x.hash env.toEnv) = .ok store := by
  obtain ⟨successor, hsuccessor, h⟩ := ok_of_bind h
  cases successor with
  | none => exact .inl (Except.ok.inj h).symm
  | some x =>
    by_cases hne : x.hash env.toEnv ≠ b.hash env.toEnv
    · simp_all
    · simp only [if_neg hne] at h
      exact .inl (Except.ok.inj h).symm

theorem rollback_returns (hs : Reachable env.toEnv U s) {h : BlockHash}
    {s' : BlockStore} (hroll : Ledger.rollback env.toEnv now s h = .ok s') :
    Reachable env.toEnv U s' ∧ s'.blockExists h = false ∧ s.blockExists h = true := by
  obtain ⟨L, hR⟩ := hs.refines H M
  have hexists := blockExists_of_rollback hroll
  have hgen : h ≠ env.toEnv.genesisHash := by
    rintro rfl
    exact rollback_genesis_fails H M now hR s' hroll
  obtain ⟨e, he⟩ := hR.find_of_exists hexists
  obtain rfl := L.keyed he
  obtain ⟨s₁, L₁, hs₁, hR₁, -, hgone⟩ := rollback_spec H M now hR he hgen
  cases hroll.symm.trans hs₁
  refine ⟨hs.rollback hexists hgen hroll, ?_, hexists⟩
  rw [hR₁.blockExists_iff, hgone]
  rfl

omit H M in
theorem exists_processReceiveOne {m : Moment}
    (hprocess : Ledger.process env.toEnv m.now p.store b = .ok (r, t)) (hcode : r.code ≠ .progress)
    (hunchecked : p.unchecked = []) (horder : m.order = Containers.Visit.inserted)
    (hsource : r.code = .gapSource → ∃ x, Ledger.blockSource env.toEnv t b = .ok x)
    (hrecent : (BlockArrival.recent m.tick p.arrival (b.hash env.toEnv)).1 = true) :
    ∃ q, p.processReceiveOne env m b = .ok (r, q) := by
  unfold processReceiveOne
  simp only [hprocess, ok_bind]
  cases hr : r.code with
  | progress => exact absurd hr hcode
  | old =>
    simp only [queueUnchecked, uncheckedGet, hunchecked, horder]
    exact ⟨_, rfl⟩
  | gapSource =>
    obtain ⟨x, hx⟩ := hsource hr
    simp only [hx, ok_bind]
    exact ⟨_, rfl⟩
  | fork =>
    simp only [hrecent, Bool.true_eq_false, if_false]
    exact ⟨_, rfl⟩
  | _ => exact ⟨_, rfl⟩

omit H M in
theorem exists_refused_run {x : Block} (hsuccessor : Ledger.successor s b.root = .ok (some x))
    (hne : x.hash env.toEnv ≠ b.hash env.toEnv)
    (hroll : Ledger.rollback env.toEnv now s (x.hash env.toEnv) = .ok t)
    (hprocess : Ledger.process env.toEnv now t b = .ok (r, t)) (hcode : r.code ≠ .progress)
    (hsource : r.code = .gapSource → ∃ y, Ledger.blockSource env.toEnv t b = .ok y) :
    ∃ (p : BlockProcessor) (m : Moment) (q : BlockProcessor), p.store = s ∧
      p.forced.head? = some b ∧ p.processNext env m = .ok q ∧ q.store = t := by
  let p : BlockProcessor :=
    { idle s with arrival := [⟨0, b.hash env.toEnv⟩], forced := [b] }
  let m : Moment := ⟨now, 0, Containers.Visit.inserted⟩
  obtain ⟨q, hq⟩ : ∃ q, processReceiveOne env
      { p with store := t, forced := [] } m b = .ok (r, q) :=
    exists_processReceiveOne hprocess hcode rfl rfl hsource (by simp [BlockArrival.recent,
      BlockArrival.prune, BlockArrival.arrivalSizeMin, p])
  have hcompetitor : p.rollbackCompetitor env now b = .ok t := by
    unfold rollbackCompetitor
    rw [show p.store = s from rfl, hsuccessor, ok_bind]
    simp only [if_pos hne]
    exact hroll
  have hnext : p.processNext env m = .ok q := by
    show (p.rollbackCompetitor env now b >>= _) = _
    rw [hcompetitor, ok_bind, hq]
    rfl
  have hstore := processReceiveOne_store hq
  rw [hprocess] at hstore
  obtain ⟨-, hsame⟩ := Prod.mk.inj (Except.ok.inj hstore)
  exact ⟨p, m, q, rfl, rfl, hnext, hsame.symm⟩

end Replacement

theorem process_after_rollback {env : NodeEnv} {U : Set Block} {s s' : BlockStore}
    (H : CollisionFree env.toEnv U) (M : MarkerFree env.toEnv U) (hs : Reachable env.toEnv U s)
    {b : Block} (hb : b ∈ U) {now : Nat} {h : BlockHash}
    (hroll : Ledger.rollback env.toEnv now s h = .ok s') :
    h ≠ env.toEnv.genesisHash ∧
      (s'.blockExists (b.hash env.toEnv) = true ↔ Stays env.toEnv s h (b.hash env.toEnv)) ∧
      (s'.blockExists (b.hash env.toEnv) = false →
        ((∃ r t, Ledger.process env.toEnv now s' b = .ok (r, t) ∧ r.code = .progress) ↔
          ValidWithout env.toEnv s h b)) := by
  obtain ⟨L, hR⟩ := hs.refines H M
  have hgen : h ≠ env.toEnv.genesisHash := by
    rintro rfl
    exact rollback_genesis_fails H M now hR s' hroll
  obtain ⟨e, he⟩ := hR.find_of_exists (blockExists_of_rollback hroll)
  obtain rfl := L.keyed he
  obtain ⟨s₁, L₁, hs₁, hR₁, hprune, hgone⟩ := rollback_spec H M now hR he hgen
  cases hroll.symm.trans hs₁
  refine ⟨hgen, ?_, fun hnew => ?_⟩
  · rw [stays_iff H M hR he hprune hgone, hR₁.blockExists_iff, Option.isSome_iff_exists]
  · obtain ⟨t, ht⟩ := exists_time L₁
    have hfresh := hR₁.find_none_of_not_exists (Bool.eq_false_iff.mp hnew)
    constructor
    · rintro ⟨r, s₂, hprocess, hcode⟩
      rcases process_cases H now hR₁ ht hb with ⟨r', hr', hrefused⟩ | hextends
      · cases hprocess.symm.trans hr'
        exact absurd hcode hrefused
      · exact validWithout_of_extendable H M hR he hprune hgone hextends
    · intro hvalid
      obtain ⟨e', rfl, -, ha, hsig⟩ :=
        extendable_of_validWithout H M hR he hprune hgone hR₁ ht hb hfresh hvalid
      obtain ⟨r, s₂, hprocess, hcode, -⟩ := process_accepts H M now hR₁ ha hsig
      exact ⟨r, s₂, hprocess, hcode⟩

/-- Handling a forced block is atomic exactly if the block is stored or valid in the ledger
before without the block in its place. -/
theorem forced_atomic_iff {env : NodeEnv} {U : Set Block} {s : BlockStore}
    (H : CollisionFree env.toEnv U) (M : MarkerFree env.toEnv U) (hs : Reachable env.toEnv U s)
    {b : Block} (hb : b ∈ U) : ForcedAtomic env s b ↔ Replaceable env.toEnv s b := by
  have hsuccessor := @successor_iff env.toEnv U s H M.ne_one hs b.root
  constructor
  · intro hatomic h hstands hne hgen
    obtain ⟨x, hx, rfl⟩ := exists_of_standsAt H M.ne_one hs hstands
    obtain ⟨s', hroll⟩ : ∃ s', Ledger.rollback env.toEnv 0 s (x.hash env.toEnv) = .ok s' := by
      obtain ⟨L, hR⟩ := hs.refines H M
      obtain ⟨e, he, -⟩ := hR.find_of_blockGet hx
      obtain ⟨s', -, hroll, -⟩ := rollback_spec H M 0 hR (L.find_hash he)
        (by rw [L.keyed he]; exact hgen)
      rw [L.keyed he] at hroll
      exact ⟨s', hroll⟩
    obtain ⟨hs', hgone, hexists⟩ := rollback_returns H M hs hroll
    obtain ⟨-, hstays, hvalid⟩ := process_after_rollback H M hs hb hroll
    obtain ⟨L', hR'⟩ := hs'.refines H M
    by_contra hrefused
    obtain ⟨hmissing, hrefused⟩ := not_or.mp hrefused
    rw [← hstays, Bool.not_eq_true] at hmissing
    rw [← hvalid hmissing] at hrefused
    obtain ⟨r, t, hprocess⟩ : ∃ r t, Ledger.process env.toEnv 0 s' b = .ok (r, t) := by
      rcases process_step H M 0 hR' hb with ⟨r, hr, -⟩ | ⟨r, t, -, -, -, -, hr, -⟩
      · exact ⟨r, s', hr⟩
      · exact ⟨r, t, hr⟩
    have hcode : r.code ≠ .progress := fun hcode => hrefused ⟨r, t, hprocess, hcode⟩
    obtain ⟨-, rfl⟩ := (process_store H M hR' hb hprocess).resolve_left (fun h => hcode h.1)
    obtain ⟨p, m, q, hstore, hforced, hnext, rfl⟩ := exists_refused_run
      ((hsuccessor x).mpr ⟨hstands, hx⟩) hne hroll hprocess hcode
      (blockSource_of_gapSource hR' H M hprocess)
    rcases hatomic p q m hstore hforced hnext with hstored | hunchanged
    · simp [hmissing] at hstored
    · simp [hunchanged, hexists] at hgone
  · intro hrep p p' m hstore hforced hnext
    obtain ⟨store, r, hroll, hprocess⟩ := processNext_forced hforced hnext
    subst hstore
    rcases rollbackCompetitor_cases hroll with rfl | ⟨x, hx, hne, hrollback⟩
    · obtain ⟨L, hR⟩ := hs.refines H M
      rcases process_store H M hR hb hprocess with ⟨-, hstored⟩ | ⟨-, hsame⟩
      · exact Or.inl hstored
      · exact Or.inr hsame
    · obtain ⟨hs', -, -⟩ := rollback_returns H M hs hrollback
      obtain ⟨hgen, hstays, hvalid⟩ := process_after_rollback H M hs hb hrollback
      obtain ⟨L', hR'⟩ := hs'.refines H M
      refine Or.inl ?_
      cases hmissing : store.blockExists (b.hash env.toEnv) with
      | true =>
        rw [process_old m.now hmissing] at hprocess
        obtain ⟨-, hsame⟩ := Prod.mk.inj (Except.ok.inj hprocess)
        rw [← hsame]
        exact hmissing
      | false =>
        have hgone : ¬ Stays env.toEnv p.store (x.hash env.toEnv) (b.hash env.toEnv) := by
          rw [← hstays, hmissing]
          exact Bool.false_ne_true
        obtain ⟨hstands, -⟩ := (hsuccessor x).mp hx
        obtain ⟨r', t, ht, hcode⟩ :=
          (hvalid hmissing).mpr ((hrep _ hstands hne hgen).resolve_left hgone)
        cases ht.symm.trans hprocess
        rcases process_store H M hR' hb hprocess with ⟨-, hstored⟩ | ⟨hrefused, -⟩
        · exact hstored
        · exact absurd hcode hrefused

/-! ## A copy with a signature that is not valid -/

/-- The rival of the first send with another signature. -/
def forgedRival : Block :=
  .sendBlock ⟨⟨mixedEnv.genesisHash, 88, genesisAmount - 20⟩, 1, 0⟩

def forcedSet : Set Block := blockSet mixedEnv [mixedSend, mixedOpen, mixedRival, forgedRival]

/-- A processor whose only task is a forced block. -/
def forcing (s : BlockStore) (b : Block) : BlockProcessor := (BlockProcessor.idle s).force b

theorem forced_evaluated :
    DistinctHashes mixedEnv [mixedSend, mixedOpen, mixedRival, forgedRival] ∧
      Vote.validate mixedEnv ⟨1, forgedRival, 99, 0⟩ = false ∧
      (∀ b ∈ Block.openBlock mixedEnv.genesisOpen ::
          [mixedSend, mixedOpen, mixedRival, forgedRival],
        b.hash mixedEnv ≠ 1 ∧ b.hash mixedEnv ≠ mixedEnv.genesisAccount) ∧
      ∃ s, ledgerOf mixedEnv [mixedSend, mixedOpen] = .ok s ∧
        s.blockExists (mixedSend.hash mixedEnv) = true ∧
        (∃ x, Ledger.successor s mixedRival.root = .ok x ∧ x = some mixedSend) ∧
        (∃ s₁, Ledger.rollback mixedEnv 0 s (mixedSend.hash mixedEnv) = .ok s₁ ∧
          s₁.blockExists (mixedRival.hash mixedEnv) = false ∧
          ∃ x, Ledger.process mixedEnv 0 s₁ mixedRival = .ok x ∧ x.1.code = .progress) ∧
        ∃ p, (forcing s forgedRival).processNext (withWork mixedEnv) anyMoment = .ok p ∧
          p.store.blockExists (forgedRival.hash mixedEnv) = false ∧
          p.store.blockExists (mixedSend.hash mixedEnv) = false := by
  decide +kernel

theorem forced_collisionFree : CollisionFree mixedEnv forcedSet :=
  collisionFree_blockSet forced_evaluated.1

theorem forced_markerFree : MarkerFree mixedEnv forcedSet :=
  markerFree_blockSet forced_evaluated.2.2.1

/-- The rival itself is valid once the send in its place and the open block that receives it
have gone, so handling it is atomic. -/
theorem forced_atomic_iff_rival :
    ∃ s, Reachable mixedEnv forcedSet s ∧ mixedRival ∈ forcedSet ∧
      StandsAt s mixedRival.root (mixedSend.hash mixedEnv) ∧
      ValidWithout mixedEnv s (mixedSend.hash mixedEnv) mixedRival ∧
      ForcedAtomic (withWork mixedEnv) s mixedRival := by
  obtain ⟨-, -, -, s, hs, -, ⟨_, hsuccessor, rfl⟩, ⟨s₁, hroll, hnew, ⟨r, t⟩, hprocess, hcode⟩, -⟩ :=
    forced_evaluated
  have hR : Reachable mixedEnv forcedSet s :=
    reachable_ledgerOf (by simp [forcedSet, blockSet]) hs
  have hmem : mixedRival ∈ forcedSet := by simp [forcedSet, blockSet]
  have hfinds := @successor_iff mixedEnv forcedSet s forced_collisionFree
    forced_markerFree.ne_one hR mixedRival.root
  obtain ⟨-, -, hvalid⟩ := @process_after_rollback (withWork mixedEnv) forcedSet s s₁
    forced_collisionFree forced_markerFree hR mixedRival hmem 0 _ hroll
  have hwithout := (hvalid hnew).mp ⟨r, t, hprocess, hcode⟩
  refine ⟨s, hR, hmem, ((hfinds _).mp hsuccessor).1, hwithout,
    (@forced_atomic_iff (withWork mixedEnv) forcedSet s forced_collisionFree forced_markerFree hR
      mixedRival hmem).mpr ?_⟩
  intro h hstands _ _
  obtain ⟨x, hx, rfl⟩ :=
    exists_of_standsAt forced_collisionFree forced_markerFree.ne_one hR hstands
  cases hsuccessor.symm.trans ((hfinds x).mpr ⟨hstands, hx⟩)
  exact .inr hwithout

/-- A vote with a valid signature may carry a copy that is not valid, and handling the copy
takes blocks away without storing anything. -/
theorem forced_copy_refused :
    CollisionFree mixedEnv forcedSet ∧ MarkerFree mixedEnv forcedSet ∧ forgedRival ∈ forcedSet ∧
      (∃ v : Vote, v.block = forgedRival ∧ v.validate mixedEnv = false) ∧
      ∃ s, Reachable mixedEnv forcedSet s ∧
        ¬ ForcedAtomic (withWork mixedEnv) s forgedRival := by
  obtain ⟨-, hvote, -, s, hs, hstored, -, -, p, hp, hforged, hsend⟩ := forced_evaluated
  refine ⟨forced_collisionFree, forced_markerFree, by simp [forcedSet, blockSet],
    ⟨⟨1, forgedRival, 99, 0⟩, rfl, hvote⟩, s,
    reachable_ledgerOf (by simp [forcedSet, blockSet]) hs, ?_⟩
  intro hatomic
  rcases hatomic (forcing s forgedRival) p anyMoment rfl rfl hp with hnew | hsame
  · simp [show (withWork mixedEnv).toEnv = mixedEnv from rfl, hforged] at hnew
  · simp [hsame, hstored] at hsend

end Badem
