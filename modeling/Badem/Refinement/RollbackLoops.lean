import Badem.Abstract.Dependents
import Badem.Refinement.RollbackState

/-!
# Rolling back a block

A nested call undoes a block that is newer than the send which waits for it, so the blocks that
are not older than the one being undone bound the depth of the recursion.  `Unwinds` adds what
happens to the block infos that `Refines` leaves open.
-/

namespace Badem

open Mdb BlockLattice

variable {env : Env} {U : Set Block} {s : BlockStore} {δ : Account → Uint128}
  {L : BlockLattice env U} {e : Entry}

def Unlisted (env : Env) (U : Set Block) (h : BlockHash) : Prop :=
  ∀ b ∈ U, b.isLegacy = true → b.hash env ≠ h

/-- Undoing the block of `x` stores a block info for its previous block `h`. -/
structure LeavesInfo (x : Entry) (h : BlockHash) : Prop where
  previous : x.previous = h
  ne_zero : h ≠ 0
  height : (x.height - 1) % BlockStore.blockInfoMax = 0

/-- `L'` is `L` without some dependents of `e`, and the removed blocks have left their block
infos. -/
structure Unwinds (e : Entry) (infos infos' : Table BlockHash BlockInfo)
    (L L' : BlockLattice env U) : Prop where
  prunes : Prunes e L L'
  leaves : ∀ h, Unlisted env U h →
    ((infos'.get h).isSome = true ↔ (infos.get h).isSome = true ∨
      ∃ x, L.find x.hash = some x ∧ L'.find x.hash = none ∧ LeavesInfo x h)

namespace Unwinds

variable {infos infos' infos'' : Table BlockHash BlockInfo}
variable {L L' L'' : BlockLattice env U} {e x : Entry}

theorem refl (e : Entry) (infos : Table BlockHash BlockInfo) (L : BlockLattice env U) :
    Unwinds e infos infos L L where
  prunes := Prunes.refl e L
  leaves := by
    intro h _
    constructor
    · exact Or.inl
    · rintro (hget | ⟨x, hx, hnone, -⟩)
      · exact hget
      · simp [hx] at hnone

theorem of_dependent (h : Unwinds x infos infos' L L') (hx : Dependent L e x) :
    Unwinds e infos infos' L L' where
  prunes := h.prunes.of_dependent hx
  leaves := h.leaves

theorem trans (h : Unwinds e infos infos' L L') (h' : Unwinds e infos' infos'' L' L'') :
    Unwinds e infos infos'' L L'' where
  prunes := h.prunes.trans h'.prunes
  leaves := by
    intro k hk
    rw [h'.leaves k hk, h.leaves k hk]
    constructor
    · rintro ((hget | ⟨x, hx, hnone, hleaves⟩) | ⟨x, hx, hnone, hleaves⟩)
      · exact .inl hget
      · refine .inr ⟨x, hx, ?_, hleaves⟩
        cases hx'' : L''.find x.hash with
        | none => rfl
        | some y => exact absurd (hnone.symm.trans (h'.prunes.sub hx'')) (by simp)
      · exact .inr ⟨x, h.prunes.sub hx, hnone, hleaves⟩
    · rintro (hget | ⟨x, hx, hnone, hleaves⟩)
      · exact .inl (.inl hget)
      · cases hx' : L'.find x.hash with
        | none => exact .inl (.inr ⟨x, hx, hx', hleaves⟩)
        | some y =>
          obtain rfl := Option.some.inj ((h.prunes.sub hx').symm.trans hx)
          exact .inr ⟨y, hx', hnone, hleaves⟩

theorem uninstall {δ' : Account → Uint128} {s' : BlockStore} {hr : L.Removable e}
    (hu : Refines.Uninstalls δ δ' s s' hr) :
    Unwinds e s.blocksInfo s'.blocksInfo L (L.remove e hr) where
  prunes := Prunes.remove hr
  leaves := by
    intro h hh
    have hself : ¬ (h = e.hash ∧ e.block.isLegacy = true) := by
      rintro ⟨rfl, hlegacy⟩
      exact hh _ (L.known hr.stored) hlegacy (L.hashed hr.stored)
    have hremoved : (∃ x, L.find x.hash = some x ∧ (L.remove e hr).find x.hash = none ∧
        LeavesInfo x h) ↔ LeavesInfo e h := by
      constructor
      · rintro ⟨x, hx, hnone, hleaves⟩
        rw [find_remove] at hnone
        split_ifs at hnone with hk
        · rw [hk, hr.stored] at hx
          rwa [Option.some.inj hx]
        · exact absurd (hx.symm.trans hnone) (by simp)
      · intro hleaves
        refine ⟨e, hr.stored, ?_, hleaves⟩
        rw [find_remove, if_pos rfl]
    rw [hu.infos, if_neg hself, hremoved]
    split_ifs with hcond
    · refine iff_of_true rfl (.inr ⟨hcond.1.symm, ?_, hcond.2.2⟩)
      rw [hcond.1]
      exact hcond.2.1
    · refine ⟨Or.inl, fun h' => h'.resolve_right fun hleaves => hcond ?_⟩
      exact ⟨hleaves.previous.symm, by rw [hleaves.previous]; exact hleaves.ne_zero,
        hleaves.height⟩

end Unwinds

def Undoes (env : Env) (U : Set Block)
    (rollback : BlockStore → BlockHash → Except Fault BlockStore) (n : Nat) : Prop :=
  ∀ {δ : Account → Uint128} {s : BlockStore} {L : BlockLattice env U} {x : Entry},
    Refines δ s L → L.find x.hash = some x → x.hash ≠ env.genesisHash → L.newer x.time ≤ n →
    ∃ s' L', rollback s x.hash = .ok s' ∧ Refines δ s' L' ∧
      Unwinds x s.blocksInfo s'.blocksInfo L L' ∧ L'.find x.hash = none

section Loops

variable {δ : Account → Uint128} {s : BlockStore} {L : BlockLattice env U} {e x : Entry}
  {d : Account} {rollback : BlockStore → BlockHash → Except Fault BlockStore} {n : Nat}

theorem latest_eq_of_head (hR : Refines δ s L) {a : Account} (hx : L.head a = some x) :
    Ledger.latest s a = x.hash := by
  obtain ⟨i, hi, hdesc⟩ := hR.account_of_head hx
  unfold Ledger.latest BlockStore.accountGet
  rw [hi]
  exact hdesc.head

theorem hash_ne_genesisHash_of_time_lt
    (hx : L.find x.hash = some x) (htime : e.time < x.time) : x.hash ≠ env.genesisHash := by
  intro hgen
  rw [hgen] at hx
  cases L.genesis.symm.trans hx
  exact Nat.not_lt_zero _ htime

theorem exists_head_of_receiver (H : CollisionFree env U) {r : Entry} (he : L.find e.hash = some e)
    (hdest : e.destination = some d) (hr : L.receiver e.hash = some r) :
    ∃ x, L.head d = some x ∧ L.find x.hash = some x ∧ Dependent L e x ∧ e.time < x.time := by
  obtain ⟨hfind, hs⟩ := (L.receiver_eq_some_iff _ _).mp hr
  obtain ⟨q, hq, htime, hqdest, -⟩ := L.exists_source hfind hs
  cases he.symm.trans hq
  cases hdest.symm.trans hqdest
  obtain ⟨x, hx, hheight, htime'⟩ := L.exists_head_of_find H hfind
  obtain ⟨hxs, hacc, -⟩ := (L.head_eq_some_iff _ _).mp hx
  have habove : Dependent L r x :=
    Dependent.of_height_le hfind (x.height - r.height) hxs hacc (by omega)
  exact ⟨x, hx, hxs, (Dependent.self.receives hfind hs).trans habove, by omega⟩

theorem rollbackUntil_spec (H : CollisionFree env U) (hroll : Undoes env U rollback n)
    {ready : BlockStore → Bool} (hready : ∀ s, ready s = (s.pendingGet ⟨d, e.hash⟩).isSome)
    (hdest : e.destination = some d) (hgen : e.hash ≠ env.genesisHash) :
    ∀ (fuel : Nat) {s : BlockStore} {L : BlockLattice env U}, Refines δ s L →
      L.find e.hash = some e → L.child e.hash = none →
      L.newer (e.time + 1) ≤ n → L.newer (e.time + 1) < fuel →
      ∃ s₁ L₁, rollbackUntil rollback ready d fuel s = .ok s₁ ∧ Refines δ s₁ L₁ ∧
        L₁.Sub L ∧ L₁.Removable e ∧ Unwinds e s.blocksInfo s₁.blocksInfo L L₁ := by
  intro fuel
  induction fuel with
  | zero =>
    intro s L _ _ _ _ hfuel
    omega
  | succ fuel ih =>
    intro s L hR he hchild hn hfuel
    have hget : s.pendingGet ⟨d, e.hash⟩ =
        if L.receiver e.hash = none then some ⟨e.account, e.amount⟩ else none := by
      rw [BlockStore.pendingGet, hR.pending, pendingInfo_of_find _ he]
      simp [hdest]
    rw [rollbackUntil, hready, hget]
    cases hrec : L.receiver e.hash with
    | none => exact ⟨s, L, rfl, hR, Sub.refl L, ⟨he, hchild, hrec, hgen⟩, Unwinds.refl e _ L⟩
    | some r =>
      obtain ⟨x, hx, hxs, hdep, htime⟩ := exists_head_of_receiver H he hdest hrec
      have hxn : L.newer x.time ≤ n := le_trans (L.newer_anti htime) hn
      obtain ⟨s', L', hs', hR', hunwinds, hgone⟩ :=
        hroll hR hxs (hash_ne_genesisHash_of_time_lt hxs htime) hxn
      have hprune := hunwinds.prunes
      have hlt := newer_lt_of_sub hprune.sub hxs hgone (t := e.time + 1) htime
      obtain ⟨s₁, L₁, hs₁, hR₁, hsub, hrem, hunwinds₁⟩ := ih hR'
        (hprune.find_of_time_lt H hxs he htime) (child_eq_none_of_sub hprune.sub hchild)
        (by omega) (by omega)
      refine ⟨s₁, L₁, ?_, hR₁, Sub.trans hsub hprune.sub, hrem, ?_⟩
      · simpa [latest_eq_of_head hR hx, hs'] using hs₁
      · exact (hunwinds.of_dependent hdep).trans hunwinds₁

theorem visit_spec (H : CollisionFree env U) (M : MarkerFree env U) (now : Nat) (fuel : Nat)
    (hroll : Undoes env U rollback n) (hR : Refines δ s L) (he : L.find e.hash = some e)
    (hchild : L.child e.hash = none) (hgen : e.hash ≠ env.genesisHash)
    (hn : L.newer (e.time + 1) ≤ n) (hfuel : L.newer (e.time + 1) < fuel) :
    ∃ s' L', RollbackVisitor.visit env now rollback fuel s e.block = .ok s' ∧
      Refines δ s' L' ∧ Unwinds e s.blocksInfo s'.blocksInfo L L' ∧ L'.find e.hash = none := by
  have hwait : ∀ d, e.destination = some d → Unblocks rollback fuel L e d s.blocksInfo
      (fun infos => Unwinds e s.blocksInfo infos L) := by
    intro d hdest δ t ready hR hinfos hready
    rw [← hinfos]
    exact rollbackUntil_spec H hroll hready hdest hgen fuel hR he hchild hn hfuel
  obtain ⟨s', hs', δ₁, s₁, L₁, hr, hR₁, hu, -, hunwinds⟩ :=
    visit_undo H M now hR he hchild hgen hwait (Unwinds.refl e _ L)
  refine ⟨s', L₁.remove e hr, hs', hR₁.uninstall H hu, hunwinds.trans (Unwinds.uninstall hu), ?_⟩
  rw [find_remove, if_pos rfl]

theorem rollbackWhile_spec (H : CollisionFree env U) (M : MarkerFree env U) (now : Nat)
    (visits : Nat) (hroll : Undoes env U rollback n) (hgen : e.hash ≠ env.genesisHash) :
    ∀ (fuel : Nat) {s : BlockStore} {L : BlockLattice env U}, Refines δ s L →
      L.find e.hash = some e ∨ L.find e.hash = none →
      L.newer e.time ≤ n + 1 → L.newer e.time ≤ visits → L.newer e.time < fuel →
      ∃ s' L', rollbackWhile (RollbackVisitor.visit env now rollback visits) e.hash e.account
          fuel s = .ok s' ∧
        Refines δ s' L' ∧ Unwinds e s.blocksInfo s'.blocksInfo L L' ∧
          L'.find e.hash = none := by
  intro fuel
  induction fuel with
  | zero =>
    intro s L _ _ _ _ hfuel
    omega
  | succ fuel ih =>
    intro s L hR hcases hn hvisits hfuel
    rw [rollbackWhile, hR.blockExists_iff]
    rcases hcases with he | hgone
    · obtain ⟨x, hx, hheight, htime⟩ := L.exists_head_of_find H he
      obtain ⟨hxs, hacc, hchild⟩ := (L.head_eq_some_iff _ _).mp hx
      obtain ⟨i, hi, hdesc⟩ := hR.account_of_head hx
      have hdep : Dependent L e x :=
        Dependent.of_height_le he (x.height - e.height) hxs hacc (by omega)
      have hxgen : x.hash ≠ env.genesisHash := by
        intro h
        rw [h] at hxs
        cases L.genesis.symm.trans hxs
        have hone : e.height = env.genesisEntry.height :=
          Nat.le_antisymm hheight (L.height_pos he)
        rw [L.eq_of_height_eq e.height he hxs hacc.symm rfl hone.symm] at hgen
        exact hgen rfl
      have hstep := L.newer_lt_newer (t := x.time + 1) hxs (Nat.lt_succ_self _)
      have hanti := L.newer_anti htime
      obtain ⟨s', L', hs', hR', hunwinds, hxgone⟩ :=
        visit_spec H M now visits hroll hR hxs hchild hxgen (by omega) (by omega)
      have hprune := hunwinds.prunes
      have hlt := newer_lt_of_sub hprune.sub hxs hxgone htime
      have hcases' : L'.find e.hash = some e ∨ L'.find e.hash = none := by
        cases he' : L'.find e.hash with
        | none => exact .inr rfl
        | some z => exact .inl (by rw [← he, hprune.sub he'])
      obtain ⟨s'', L'', hs'', hR'', hunwinds', hgone⟩ :=
        ih hR' hcases' (by omega) (by omega) (by omega)
      refine ⟨s'', L'', ?_, hR'', (hunwinds.of_dependent hdep).trans hunwinds', hgone⟩
      rw [he, if_pos Option.isSome_some, BlockStore.accountGet, hi]
      refine bind_eq_of_ok (expect_some i) ?_
      rw [hdesc.head, hR.blockGet_of_find hxs]
      refine bind_eq_of_ok (deref_some _) ?_
      exact bind_eq_of_ok hs' hs''
    · rw [hgone, if_neg (by simp)]
      exact ⟨s, L, rfl, hR, Unwinds.refl e _ L, hgone⟩

end Loops

theorem rollbackLoop_undoes (H : CollisionFree env U) (M : MarkerFree env U) (now : Nat) :
    ∀ n, Undoes env U (rollbackLoop env now (n + 2)) n := by
  intro n
  induction n with
  | zero =>
    intro δ s L e hR he hgen hn
    have hpos := L.newer_pos he
    omega
  | succ n ih =>
    intro δ s L e hR he hgen hn
    obtain ⟨s', L', hs', h⟩ := rollbackWhile_spec H M now (n + 2) ih hgen (n + 2)
      hR (.inl he) hn (by omega) (by omega)
    refine ⟨s', L', ?_, h⟩
    rw [rollbackLoop, hR.blockExists_iff, he]
    refine bind_eq_of_ok (require_of rfl) ?_
    exact bind_eq_of_ok (account_eq H M hR he) hs'

theorem blockExists_of_rollback {now : Nat} {s' : BlockStore} {h : BlockHash}
    (hrun : Ledger.rollback env now s h = .ok s') : s.blockExists h = true := by
  unfold Ledger.rollback rollbackLoop at hrun
  obtain ⟨u, hu, -⟩ := ok_of_bind hrun
  exact of_require_eq_ok hu

section Genesis

variable {δ : Account → Uint128} {s : BlockStore} {L : BlockLattice env U}

theorem visit_genesis_fails (M : MarkerFree env U) (now : Nat) (hR : Refines δ s L)
    (rollback : BlockStore → BlockHash → Except Fault BlockStore) (fuel : Nat) (s' : BlockStore) :
    RollbackVisitor.visit env now rollback fuel s (.openBlock env.genesisOpen) ≠ .ok s' := by
  intro hvisit
  have hnone : s.blockGet env.genesisAccount = none := by
    refine hR.blockGet_of_find_none ?_
    cases hfind : L.find env.genesisAccount with
    | none => rfl
    | some e => exact absurd (L.hashed hfind) (M.ne_genesisAccount _ (L.known hfind))
  obtain ⟨amount, -, hvisit⟩ := ok_of_bind hvisit
  obtain ⟨destination, -, hvisit⟩ := ok_of_bind hvisit
  obtain ⟨source, hsource, -⟩ := ok_of_bind hvisit
  have hfails : Ledger.account s env.genesisAccount = .error .nullBlock := by
    unfold Ledger.account
    rw [hnone]
    rfl
  simp [show env.genesisOpen.hashables.source = env.genesisAccount from rfl, hfails] at hsource

theorem rollbackWhile_genesis_fails (H : CollisionFree env U) (M : MarkerFree env U) (now : Nat)
    {rollback : BlockStore → BlockHash → Except Fault BlockStore} {n : Nat} (visits : Nat)
    (hroll : Undoes env U rollback n) :
    ∀ (fuel : Nat) {s : BlockStore} {L : BlockLattice env U}, Refines δ s L →
      L.entries.size ≤ n + 1 → L.entries.size ≤ visits → ∀ s',
      rollbackWhile (RollbackVisitor.visit env now rollback visits) env.genesisHash
        env.genesisAccount fuel s ≠ .ok s' := by
  intro fuel
  induction fuel with
  | zero =>
    intro s L _ _ _ s' h
    exact absurd h (by simp [rollbackWhile])
  | succ fuel ih =>
    intro s L hR hn hvisits s' h
    have hgenesis : L.find env.genesisHash = some env.genesisEntry := L.genesis
    obtain ⟨x, hx, -, -⟩ := L.exists_head_of_find H hgenesis
    obtain ⟨hxs, -, hchild⟩ := (L.head_eq_some_iff _ _).mp hx
    obtain ⟨i, hi, hdesc⟩ := hR.account_of_head hx
    rw [rollbackWhile, hR.blockExists_iff, hgenesis, if_pos Option.isSome_some,
      BlockStore.accountGet, show env.genesisAccount = env.genesisEntry.account from rfl, hi,
      expect_some, ok_bind, hdesc.head, hR.blockGet_of_find hxs, deref_some, ok_bind] at h
    obtain ⟨s₁, hs₁, h⟩ := ok_of_bind h
    by_cases hgen : x.hash = env.genesisHash
    · rw [hgen] at hxs
      cases L.genesis.symm.trans hxs
      exact visit_genesis_fails M now hR rollback visits s₁ hs₁
    · have hstep := L.newer_lt_newer (t := x.time + 1) hxs (Nat.lt_succ_self _)
      have hle := L.newer_le_size x.time
      obtain ⟨s₂, L₂, hs₂, hR₂, hunwinds, -⟩ :=
        visit_spec H M now visits hroll hR hxs hchild hgen (by omega) (by omega)
      cases hs₁.symm.trans hs₂
      have hsize := size_le_of_sub hunwinds.prunes.sub
      exact ih hR₂ (by omega) (by omega) s' h

theorem rollback_genesis_fails
    (H : CollisionFree env U) (M : MarkerFree env U) (now : Nat) (hR : Refines δ s L)
    (s' : BlockStore) : Ledger.rollback env now s env.genesisHash ≠ .ok s' := by
  intro h
  have hgenesis : L.find env.genesisHash = some env.genesisEntry := L.genesis
  have hpos := L.newer_pos hgenesis
  have hle := L.newer_le_size env.genesisEntry.time
  obtain ⟨n, hn⟩ : ∃ n, s.blockCount = n + 1 := ⟨s.blockCount - 1, by rw [hR.count]; omega⟩
  rw [Ledger.rollback, hn, rollbackLoop, hR.blockExists_iff, hgenesis,
    require_of Option.isSome_some, ok_bind, account_eq H M hR hgenesis, ok_bind] at h
  exact rollbackWhile_genesis_fails H M now _ (rollbackLoop_undoes H M now n) _ hR
    (by rw [← hR.count, hn]) (by rw [← hR.count, hn]; omega) s' h

end Genesis

theorem rollback_unwinds (H : CollisionFree env U) (M : MarkerFree env U) (now : Nat)
    (hR : Refines δ s L) (he : L.find e.hash = some e) (hgen : e.hash ≠ env.genesisHash) :
    ∃ s' L', Ledger.rollback env now s e.hash = .ok s' ∧ Refines δ s' L' ∧
      Unwinds e s.blocksInfo s'.blocksInfo L L' ∧ L'.find e.hash = none := by
  refine rollbackLoop_undoes H M now _ hR he hgen ?_
  rw [hR.count]
  exact L.newer_le_size _

theorem rollback_spec (H : CollisionFree env U) (M : MarkerFree env U) (now : Nat)
    (hR : Refines δ s L) (he : L.find e.hash = some e) (hgen : e.hash ≠ env.genesisHash) :
    ∃ s' L', Ledger.rollback env now s e.hash = .ok s' ∧ Refines δ s' L' ∧ Prunes e L L' ∧
      L'.find e.hash = none := by
  obtain ⟨s', L', hrun, hR', hunwinds, hgone⟩ := rollback_unwinds H M now hR he hgen
  exact ⟨s', L', hrun, hR', hunwinds.prunes, hgone⟩

end Badem
