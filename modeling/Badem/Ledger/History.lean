import Badem.Bootstrap.Merge
import Badem.Ledger.BlockInfos
import Badem.Ledger.Owners

/-!
# Balances in the past

The visitors return what the balance was when the block was added, however many blocks have
been added and rolled back since then.
-/

namespace Badem

open BlockLattice

variable {env : Env} {U : Set Block} {s s' t : BlockStore} {h : BlockHash}

/-- In a run that leads to `s`, the call that led to `t` was the last one to add `h`. -/
inductive AddedAt (env : Env) (U : Set Block) (h : BlockHash) : BlockStore → BlockStore → Prop
  | genesis {now : Nat} {s : BlockStore} :
      genesisInitialize env now .empty = .ok s →
      s.blockExists h = true →
      AddedAt env U h s s
  | added {s s' : BlockStore} {c : LedgerCall} :
      Reachable env U s →
      c.Permitted env U s →
      c.run env s = .ok s' →
      s.blockExists h = false →
      s'.blockExists h = true →
      AddedAt env U h s' s'
  | kept {t s s' : BlockStore} {c : LedgerCall} :
      AddedAt env U h t s →
      c.Permitted env U s →
      c.run env s = .ok s' →
      s'.blockExists h = true →
      AddedAt env U h t s'

/-- The visitors return the balances and amounts of the past. -/
structure HistoryKept (env : Env) (U : Set Block) (s : BlockStore) : Prop where
  added : ∀ {h}, s.blockExists h = true → ∃ t, AddedAt env U h t s
  balance : ∀ {h t}, AddedAt env U h t s →
    ∃ a i, InChain s a h ∧ t.accountGet a = some i ∧ i.head = h ∧
      Ledger.balance env s h = .ok i.balance
  head : ∀ {a i}, s.accountGet a = some i → Ledger.balance env s i.head = .ok i.balance
  amount : ∀ {h b}, s.blockGet h = some b →
    ∃ x p, Ledger.balance env s h = .ok x ∧
      (if b.previous = 0 then p = 0 else Ledger.balance env s b.previous = .ok p) ∧
      Ledger.amount env s h = .ok (if x < p then p - x else x - p)

section Calls

variable {c : LedgerCall}

theorem Reachable.call (hs : Reachable env U s) (hc : c.Permitted env U s)
    (hrun : c.run env s = .ok s') : Reachable env U s' := by
  cases c with
  | process now b =>
    obtain ⟨⟨r, s₁⟩, hprocess, hrun⟩ := ok_of_bind hrun
    cases hrun
    exact hs.process hc hprocess
  | rollback now hash => exact hs.rollback hc.1 hc.2 hrun

theorem stored_of_rollback (H : CollisionFree env U) (hone : ∀ b ∈ U, b.hash env ≠ 1)
    (hs : Reachable env U s) {now : Nat} {hash : BlockHash}
    (hrun : Ledger.rollback env now s hash = .ok s') (hstored : s'.blockExists h = true) :
    s.blockExists h = true := by
  obtain ⟨R, hR⟩ := hs.ownersAgree H hone
  obtain ⟨R', hR', hshrinks⟩ := OwnersAgree.unrolls H hone (rollback_unrolls hrun) hR
  rw [BlockStore.blockExists_eq hR'.tables] at hstored
  obtain ⟨v', hv'⟩ := Option.isSome_iff_exists.mp hstored
  obtain ⟨v, hv, -, -⟩ := hshrinks h v' hv'
  rw [BlockStore.blockExists_eq hR.tables, hv]
  rfl

theorem head_of_appends {b : Block} {a : Account} (happends : BlockStore.Appends env s s' b a)
    (hne : h ≠ 0) (hnew : s.blockExists h = false) (hstored : s'.blockExists h = true) :
    ∃ i, s'.accountGet a = some i ∧ i.head = h := by
  have hh : h = b.hash env := by
    by_contra hh
    rw [BlockStore.blockExists_eq_isSome, happends.blockGet, if_neg hh,
      ← BlockStore.blockExists_eq_isSome, hnew] at hstored
    cases hstored
  subst hh
  obtain ⟨i, hi, hhead, -⟩ := happends.head hne
  exact ⟨i, hi, hhead⟩

end Calls

namespace AddedAt

theorem reachable (ht : AddedAt env U h t s) :
    Reachable env U t ∧ Reachable env U s ∧ s.blockExists h = true := by
  induction ht with
  | genesis hinit hstored => exact ⟨.genesis hinit, .genesis hinit, hstored⟩
  | added hs hc hrun _ hstored => exact ⟨hs.call hc hrun, hs.call hc hrun, hstored⟩
  | kept _ hc hrun hstored ih => exact ⟨ih.1, ih.2.1.call hc hrun, hstored⟩

variable (H : CollisionFree env U) (hone : ∀ b ∈ U, b.hash env ≠ 1)
include H hone

theorem exists_head (ht : AddedAt env U h t s) : ∃ a i, t.accountGet a = some i ∧ i.head = h := by
  have hne : ∀ {s : BlockStore}, Reachable env U s → s.blockExists h = true → h ≠ 0 := by
    rintro s hs hstored rfl
    obtain ⟨R, hR⟩ := hs.ownersAgree H hone
    rw [BlockStore.blockExists_eq hR.tables, hR.zero H] at hstored
    cases hstored
  induction ht with
  | genesis hinit hstored =>
    obtain ⟨i, hi⟩ := head_of_appends (genesis_appends hinit) (hne (.genesis hinit) hstored) rfl
      hstored
    exact ⟨_, i, hi⟩
  | @added s s' c hs hc hrun hnew hstored =>
    cases c with
    | process now b =>
      have hreach := hs.call hc hrun
      obtain ⟨⟨r, s₁⟩, hprocess, hrun⟩ := ok_of_bind hrun
      cases hrun
      rcases process_appends hprocess with rfl | ⟨a, happends⟩
      · exact absurd (hnew.symm.trans hstored) (by simp)
      · obtain ⟨i, hi⟩ := head_of_appends happends (hne hreach hstored) hnew hstored
        exact ⟨a, i, hi⟩
    | rollback now hash =>
      have hold := stored_of_rollback H hone hs hrun hstored
      exact absurd (hnew.symm.trans hold) (by simp)
  | kept _ _ _ _ ih => exact ih

end AddedAt

theorem exists_addedAt (H : CollisionFree env U) (hone : ∀ b ∈ U, b.hash env ≠ 1)
    (hs : Reachable env U s) (hstored : s.blockExists h = true) : ∃ t, AddedAt env U h t s := by
  induction hs with
  | genesis hinit => exact ⟨_, .genesis hinit hstored⟩
  | @process now s s' b r hs hb hprocess ih =>
    have hpermitted : (LedgerCall.process now b).Permitted env U s := hb
    have hrun : (LedgerCall.process now b).run env s = .ok s' := bind_eq_of_ok hprocess rfl
    cases hold : s.blockExists h with
    | false => exact ⟨s', .added hs hpermitted hrun hold hstored⟩
    | true =>
      obtain ⟨t, ht⟩ := ih hold
      exact ⟨t, .kept ht hpermitted hrun hstored⟩
  | @rollback now s s' hash hs hexists hgen hrollback ih =>
    obtain ⟨t, ht⟩ := ih (stored_of_rollback H hone hs hrollback hstored)
    exact ⟨t, .kept (c := .rollback now hash) ht ⟨hexists, hgen⟩ hrollback hstored⟩

/-- In every reachable ledger the visitors return the balances and amounts of the past. -/
theorem history_kept (H : CollisionFree env U) (M : MarkerFree env U) (hs : Reachable env U s) :
    HistoryKept env U s := by
  obtain ⟨L, hR⟩ := hs.refines H M
  have hreads := hR.reads M
  refine ⟨exists_addedAt H M.ne_one hs, ?_, ?_, ?_⟩
  · intro h t ht
    obtain ⟨hreach, -, hstored⟩ := ht.reachable
    obtain ⟨L', hR'⟩ := hreach.refines H M
    obtain ⟨a, i, hi, hhead⟩ := ht.exists_head H M.ne_one
    -- the entries of the block in the two ledgers are alike
    obtain ⟨x, hx, hdesc⟩ := hR'.head_of_account hi
    obtain ⟨hfind, hacc, -⟩ := (L'.head_eq_some_iff a x).mp hx
    rw [← hdesc.head, hhead] at hfind
    rw [BlockStore.blockExists_eq_isSome] at hstored
    obtain ⟨b, hb⟩ := Option.isSome_iff_exists.mp hstored
    obtain ⟨e, he, -⟩ := hR.find_of_blockGet hb
    have halike := alike H e.time he hfind rfl
    refine ⟨a, i, (inChain_iff hR H a h).mpr ⟨e, he, halike.account.trans hacc⟩, hi, hhead, ?_⟩
    rw [balance_eq H hreads he, halike.balance, hdesc.balance]
  · intro a i hi
    obtain ⟨x, hx, hdesc⟩ := hR.head_of_account hi
    obtain ⟨hfind, -, -⟩ := (L.head_eq_some_iff a x).mp hx
    rw [hdesc.head, balance_eq H hreads hfind, hdesc.balance]
  · intro h b hb
    obtain ⟨e, he, rfl⟩ := hR.find_of_blockGet hb
    refine ⟨e.balance, e.previousBalance, balance_eq H hreads he, ?_, amount_eq H hreads he⟩
    have hprevious := balance_previous_eq H hreads he
    by_cases hz : e.block.previous = 0
    · rw [if_pos hz]
      exact (L.opening he hz).previousBalance
    · rw [if_neg hz]
      exact hprevious

theorem history_kept_plain :
    ∃ s, Reachable plainEnv plainSet s ∧ s.blockCount = 4 ∧ HistoryKept plainEnv plainSet s := by
  obtain ⟨s, -, hreach, hcount, -⟩ := plain_ledger
  exact ⟨s, hreach, hcount, history_kept plain_collisionFree plain_markerFree hreach⟩

theorem balance_of_missing (hne : h ≠ 0) (hb : s.blockGet h = none) :
    Ledger.balance env s h = .error .assertion := by
  obtain ⟨n, hn⟩ : ∃ n, visitorFuel s = n + 1 :=
    ⟨4 * s.blockCount + 3, by unfold visitorFuel; omega⟩
  unfold Ledger.balance
  rw [hn, balanceLoop, if_neg (fun hx => hne hx.1), if_neg (not_not_intro rfl), hb]
  rfl

/-- With the hash 1 the balance of an account with the head that it has cannot be found. -/
theorem history_lost :
    CollisionFree oneEnv oneSet ∧ (∀ b ∈ oneSet, b.hash oneEnv ≠ oneEnv.genesisAccount) ∧
      ∃ s a i, Reachable oneEnv oneSet s ∧ s.accountGet a = some i ∧
        Ledger.balance oneEnv s i.head = .error .assertion := by
  refine ⟨one_collisionFree, one_ne_genesisAccount, ?_⟩
  obtain ⟨s, hreach, hdamage⟩ := one_damaged
  obtain ⟨i, hi, hhead⟩ := Option.map_eq_some_iff.mp hdamage.head
  refine ⟨s, 77, i, hreach, hi, ?_⟩
  rw [hhead]
  exact balance_of_missing (by decide) hdamage.missing

end Badem
