import Badem.Ledger.Chains
import Badem.Refinement.Ownership

/-!
# Chains of accounts and their owners

Every way up through the successors ends at the head of the owner, and the way down from there
meets all blocks of the owner, whatever has become of the balances.
-/

namespace Badem

variable {env : Env} {U : Set Block} {s : BlockStore} {h : BlockHash} {l : List BlockHash}

theorem PreviousWalk.head_mem (hw : PreviousWalk s h l) : h ∈ l := by
  cases hw with
  | first _ _ => exact List.mem_singleton_self h
  | next _ _ _ => exact .head _

theorem PreviousWalk.previous_mem {k : BlockHash} {c : Block} (hw : PreviousWalk s h l) (hk : k ∈ l)
    (hc : s.blockGet k = some c) (hne : c.previous ≠ 0) : c.previous ∈ l := by
  induction hw with
  | first hb hz =>
    rw [List.mem_singleton.mp hk, hb] at hc
    cases hc
    exact absurd hz hne
  | next hb _ hrest ih =>
    rcases List.mem_cons.mp hk with rfl | hk
    · cases hb.symm.trans hc
      exact .tail _ hrest.head_mem
    · exact .tail _ (ih hk)

namespace OwnersAgree

variable {R : BlockHash → Option StoredBlock} {h : BlockHash} {v : StoredBlock} {a : Account}
variable (H : CollisionFree env U) (hs : OwnersAgree env U s R)
include H hs

theorem exists_previousWalk :
    ∀ {n h v}, R h = some v → Owner env U h a n →
      ∃ l, PreviousWalk s h l ∧ l.length = n ∧
        (∀ k ∈ l, ∃ w m, R k = some w ∧ Owner env U k a m) ∧
        ∀ k ∈ l, Owner env U k a 1 → l.getLast? = some k := by
  intro n
  induction n with
  | zero =>
    intro h v _ ho
    exact absurd ho.pos (Nat.lt_irrefl 0)
  | succ n ih =>
    intro h v hv ho
    obtain ⟨hU, hhash⟩ := hs.known hv
    have hget := hs.blockGet_of_some hv
    by_cases hz : v.block.previous = 0
    · obtain ⟨hone, -⟩ := Owner.bottom H hU hz (by rw [hhash]; exact ho)
      refine ⟨[h], .first hget hz, by simp; omega, ?_, ?_⟩
      · intro k hk
        rw [List.mem_singleton.mp hk]
        exact ⟨v, n + 1, hv, ho⟩
      · intro k hk _
        rw [List.mem_singleton.mp hk]
        rfl
    · obtain ⟨m, hm, hprev⟩ := Owner.previous H hU hz (by rw [hhash]; exact ho)
      obtain rfl : n = m := by omega
      obtain ⟨w, hw, -⟩ := hs.previous hv hz
      obtain ⟨l, hwalk, hlen, hl, hlast⟩ := ih hw hprev
      refine ⟨h :: l, .next hget hz hwalk, by simp [hlen], ?_, ?_⟩
      · intro k hk
        rcases List.mem_cons.mp hk with rfl | hk
        · exact ⟨v, n + 1, hv, ho⟩
        · exact hl k hk
      · intro k hk hok
        rcases List.mem_cons.mp hk with rfl | hk
        · have hpos := hprev.pos
          have hheight := (ho.unique H hok).2
          omega
        · rw [List.getLast?_cons, hlast k hk hok]
          rfl

theorem exists_top :
    ∀ d {h v n}, R h = some v → Owner env U h a n → s.blockCount ≤ n + d →
      ∃ t w m l, R t = some w ∧ w.successor = 0 ∧ Owner env U t a m ∧ PreviousWalk s t l ∧
        h ∈ l := by
  intro d
  induction d with
  | zero =>
    intro h v n hv ho hd
    have htop : v.successor = 0 := by
      by_contra hne
      obtain ⟨w, hw, how⟩ := hs.owner_successor H hv ho hne
      have := hs.height_le H hw how
      omega
    obtain ⟨l, hwalk, -, -⟩ := hs.exists_previousWalk H hv ho
    exact ⟨h, v, n, l, hv, htop, ho, hwalk, hwalk.head_mem⟩
  | succ d ih =>
    intro h v n hv ho hd
    by_cases htop : v.successor = 0
    · obtain ⟨l, hwalk, -, -⟩ := hs.exists_previousWalk H hv ho
      exact ⟨h, v, n, l, hv, htop, ho, hwalk, hwalk.head_mem⟩
    · obtain ⟨w, hw, how⟩ := hs.owner_successor H hv ho htop
      obtain ⟨t, x, m, l, hx, hxtop, hox, hwalk, hmem⟩ := ih hw how (by omega)
      obtain ⟨w', hw', hback⟩ := hs.successor hv htop
      cases hw.symm.trans hw'
      have hbelow := hwalk.previous_mem hmem (hs.blockGet_of_some hw) (by
        rw [hback]
        exact hs.hash_ne_zero H hv)
      rw [hback] at hbelow
      exact ⟨t, x, m, l, hx, hxtop, hox, hwalk, hbelow⟩

theorem inChain_iff : InChain s a h ↔ ∃ v n, R h = some v ∧ Owner env U h a n := by
  constructor
  · rintro ⟨i, l, hi, hwalk, hmem⟩
    obtain ⟨w, hw, -, ho⟩ := hs.head hi
    obtain ⟨l', hwalk', -, hl, -⟩ := hs.exists_previousWalk H hw ho
    rw [hwalk.unique hwalk'] at hmem
    exact hl h hmem
  · rintro ⟨v, n, hv, ho⟩
    obtain ⟨t, w, m, l, hw, htop, hom, hwalk, hmem⟩ :=
      hs.exists_top H s.blockCount hv ho (by omega)
    obtain ⟨i, hi, rfl⟩ := hs.top hw htop hom
    exact ⟨i, l, hi, hwalk, hmem⟩

theorem inChain_unique {a' : Account} (h₁ : InChain s a h) (h₂ : InChain s a' h) : a' = a := by
  obtain ⟨-, n, -, ho⟩ := (hs.inChain_iff H).mp h₁
  obtain ⟨-, m, -, hom⟩ := (hs.inChain_iff H).mp h₂
  exact (ho.unique H hom).1

theorem exists_walk_of_account {i : AccountInfo} (hi : s.accountGet a = some i) :
    ∃ l, PreviousWalk s i.head l ∧ l.length = i.blockCount ∧ l.getLast? = some i.openBlock := by
  obtain ⟨v, hv, -, ho⟩ := hs.head hi
  obtain ⟨l, hwalk, hlen, -, hlast⟩ := hs.exists_previousWalk H hv ho
  obtain ⟨w, hw, how⟩ := hs.opened hi
  obtain ⟨j, l', hj, hwalk', hmem⟩ := (hs.inChain_iff H).mpr ⟨w, 1, hw, how⟩
  cases hi.symm.trans hj
  rw [hwalk'.unique hwalk] at hmem
  exact ⟨l, hwalk, hlen, hlast _ hmem how⟩

theorem blockSuccessor_eq_iff (hv : R h = some v) (k : BlockHash) :
    (s.blockSuccessor h = k ∧ k ≠ 0) ↔ ∃ c, s.blockGet k = some c ∧ c.previous = h := by
  rw [hs.blockSuccessor_of_some hv]
  constructor
  · rintro ⟨rfl, hk⟩
    obtain ⟨w, hw, hback⟩ := hs.successor hv hk
    exact ⟨w.block, hs.blockGet_of_some hw, hback⟩
  · rintro ⟨c, hc, rfl⟩
    obtain ⟨w, hw, rfl⟩ := hs.exists_of_blockGet hc
    obtain ⟨x, hx, hsucc⟩ := hs.previous hw (hs.hash_ne_zero H hv)
    cases hv.symm.trans hx
    exact ⟨hsucc, hs.hash_ne_zero H hw⟩

omit H in
theorem blockSuccessor_eq_zero_iff (hv : R h = some v) :
    s.blockSuccessor h = 0 ↔ ∃ a i, s.accountGet a = some i ∧ i.head = h := by
  rw [hs.blockSuccessor_of_some hv]
  constructor
  · intro htop
    obtain ⟨a, n, ho, -⟩ := hs.owner hv
    obtain ⟨i, hi, hhead⟩ := hs.top hv htop ho
    exact ⟨a, i, hi, hhead⟩
  · rintro ⟨a, i, hi, rfl⟩
    obtain ⟨w, hw, htop, -⟩ := hs.head hi
    cases hv.symm.trans hw
    exact htop

omit H in
theorem frontier_iff : s.frontiers.get h = some a ↔
    ∃ i b, s.accountGet a = some i ∧ i.head = h ∧ s.blockGet h = some b ∧ b.type ≠ .state := by
  constructor
  · intro hget
    obtain ⟨v, n, hv, htop, hlegacy, ho⟩ := hs.listed hget
    obtain ⟨i, hi, hhead⟩ := hs.top hv htop ho
    exact ⟨i, v.block, hi, hhead, hs.blockGet_of_some hv, hlegacy⟩
  · rintro ⟨i, b, hi, rfl, hb, hlegacy⟩
    obtain ⟨v, hv, htop, ho⟩ := hs.head hi
    rw [hs.blockGet_of_some hv] at hb
    cases hb
    exact hs.frontier hv htop hlegacy ho

end OwnersAgree

/-- The chains of every reachable ledger are well formed. -/
theorem chains_formed (H : CollisionFree env U) (hone : ∀ b ∈ U, b.hash env ≠ 1)
    (hs : Reachable env U s) : ChainsFormed s := by
  obtain ⟨R, hR⟩ := hs.ownersAgree H hone
  refine ⟨hR.exists_walk_of_account H, ?_, ?_, ?_, ?_, fun h a => hR.frontier_iff⟩
  · intro h b hb
    obtain ⟨v, hv, -⟩ := hR.exists_of_blockGet hb
    exact hR.blockSuccessor_eq_iff H hv
  · intro h b hb
    obtain ⟨v, hv, -⟩ := hR.exists_of_blockGet hb
    exact hR.blockSuccessor_eq_zero_iff hv
  · intro h b hb
    obtain ⟨v, hv, -⟩ := hR.exists_of_blockGet hb
    obtain ⟨a, n, ho, -⟩ := hR.owner hv
    have hin : InChain s a h := (hR.inChain_iff H).mpr ⟨v, n, hv, ho⟩
    exact ⟨a, hin, fun a' => hR.inChain_unique H hin⟩
  · intro h b p hb hp hstate
    obtain ⟨v, hv, rfl⟩ := hR.exists_of_blockGet hb
    obtain ⟨w, hw, rfl⟩ := hR.exists_of_blockGet hp
    by_contra hlegacy
    exact hR.legacy hv hlegacy hw hstate

theorem chains_formed_plain :
    ∃ s, Reachable plainEnv plainSet s ∧ s.blockCount = 4 ∧ ChainsFormed s := by
  obtain ⟨s, -, hreach, hcount, -⟩ := plain_ledger
  exact ⟨s, hreach, hcount, chains_formed plain_collisionFree plain_markerFree.ne_one hreach⟩

/-- With the hash 1 a head can be lost. -/
theorem chains_broken :
    CollisionFree oneEnv oneSet ∧ (∀ b ∈ oneSet, b.hash oneEnv ≠ oneEnv.genesisAccount) ∧
      ∃ s, Reachable oneEnv oneSet s ∧ ¬ ChainsFormed s := by
  refine ⟨one_collisionFree, one_ne_genesisAccount, ?_⟩
  obtain ⟨s, hreach, hdamage⟩ := one_damaged
  refine ⟨s, hreach, ?_⟩
  intro h
  obtain ⟨i, hi, hhead⟩ := Option.map_eq_some_iff.mp hdamage.head
  obtain ⟨l, hwalk, -, -⟩ := h.walk hi
  obtain ⟨b, hb⟩ := hwalk.stored
  simp [hhead, hdamage.missing] at hb

/-- The account that is looked up for a stored block is the one whose chain contains it. -/
theorem account_correct (H : CollisionFree env U) (hone : ∀ b ∈ U, b.hash env ≠ 1)
    (hs : Reachable env U s) {h : BlockHash} {b : Block} (hb : s.blockGet h = some b) :
    ∃ a, Ledger.account s h = .ok a ∧ ∀ a', InChain s a' h ↔ a' = a := by
  obtain ⟨R, hR⟩ := hs.ownersAgree H hone
  obtain ⟨v, hv, -⟩ := hR.exists_of_blockGet hb
  obtain ⟨a, n, ho, -⟩ := hR.owner hv
  have hin : InChain s a h := (hR.inChain_iff H).mpr ⟨v, n, hv, ho⟩
  refine ⟨a, hR.account_eq H hone hv ho, fun a' => ⟨hR.inChain_unique H hin, ?_⟩⟩
  rintro rfl
  exact hin

/-- The owner is found even where balances are not. -/
theorem account_correct_change :
    ∃ s, Reachable changeEnv changeSet s ∧ s.blockGet 2 = some changeSend ∧
      ∃ a, Ledger.account s 2 = .ok a ∧ ∀ a', InChain s a' 2 ↔ a' = a := by
  obtain ⟨s₀, hs₀, s, hs, -, hsend, -⟩ := change_evaluated.2.2.2
  have hreach := change_reachable hs₀ hs
  exact ⟨s, hreach, hsend, account_correct change_collisionFree change_ne_one hreach hsend⟩

end Badem
