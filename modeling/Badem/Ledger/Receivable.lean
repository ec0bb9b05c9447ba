import Badem.Core.WalletActions
import Badem.Ledger.MarkerHashes

/-!
# Receivable totals

`account_pending` runs up to the first key of the next account.  After the largest number comes
the account zero, with whose first key the table begins.
-/

namespace Badem

open Mdb BlockLattice

/-- The amounts of the pending entries of an account. -/
def BlockStore.pendingTotal (s : BlockStore) (account : Account) : Nat :=
  s.pending.sum (fun key info => if key.account = account then info.amount.toNat else 0)

namespace PendingKey

variable {k : PendingKey} {a : Account}

theorem le_iff {k' : PendingKey} :
    k ≤ k' ↔ k.account < k'.account ∨ k.account = k'.account ∧ k.hash ≤ k'.hash :=
  Prod.Lex.toLex_le_toLex

theorem first_le_iff : ⟨a, 0⟩ ≤ k ↔ a ≤ k.account := by
  have hzero : (0 : BlockHash) ≤ k.hash := Nat.zero_le _
  rw [le_iff]
  simp only [hzero, and_true]
  exact le_iff_lt_or_eq.symm

theorem lt_first_iff : k < ⟨a, 0⟩ ↔ k.account < a := by
  rw [← not_le, first_le_iff, not_le]

end PendingKey

section Loop

variable {s : BlockStore}

theorem accountPendingLoop_eq
    (mid : List (PendingKey × PendingInfo)) {below above : List (PendingKey × PendingInfo)}
    (h : s.pending.entries = below ++ (mid ++ above)) (fuel : Nat) (result : Uint128) :
    Ledger.accountPendingLoop s (below.length + mid.length) (mid.length + 1 + fuel)
      below.length result = .ok (result + (mid.map (fun x => x.2.amount)).sum) := by
  induction mid generalizing below result with
  | nil =>
    rw [show ([] : List (PendingKey × PendingInfo)).length + 1 + fuel = fuel + 1 from
      Nat.add_comm _ _, Ledger.accountPendingLoop, if_neg (by simp)]
    simp
  | cons x mid ih =>
    have hfuel : (x :: mid).length + 1 + fuel = (mid.length + 1 + fuel) + 1 := by
      rw [List.length_cons]
      omega
    have hentry : s.pending.entries[below.length]? = some x := by
      rw [h, List.getElem?_append_right (le_refl _)]
      simp
    have hsplit : s.pending.entries = (below ++ [x]) ++ (mid ++ above) := by simpa using h
    have hnext := ih hsplit (result + x.2.amount)
    rw [hfuel, Ledger.accountPendingLoop, if_pos (by simp), hentry, expect_some, ok_bind]
    rw [List.length_append, List.length_singleton] at hnext
    rw [List.length_cons, show below.length + (mid.length + 1) = below.length + 1 + mid.length by
      omega, hnext, List.map_cons, List.sum_cons, add_assoc]

theorem accountPendingLoop_ne_ok {n : Nat} (fuel : Nat) {i : Nat} (hlt : n < i)
    (result total : Uint128) : Ledger.accountPendingLoop s n fuel i result ≠ .ok total := by
  induction fuel generalizing i result with
  | zero => simp [Ledger.accountPendingLoop]
  | succ fuel ih =>
    rw [Ledger.accountPendingLoop, if_pos (Nat.ne_of_gt hlt)]
    intro h
    obtain ⟨entry, -, h⟩ := ok_of_bind h
    exact ih (Nat.lt_succ_of_lt hlt) _ h

end Loop

section Totals

variable {s : BlockStore} {a : Account}

theorem ofNat_pendingTotal (s : BlockStore) (a : Account) :
    BitVec.ofNat 128 (s.pendingTotal a) =
      (s.pending.entries.map (fun x => if x.1.account = a then x.2.amount else 0)).sum := by
  rw [BlockStore.pendingTotal, Table.ofNat_sum, Table.sum_eq_map_sum]
  congr 1
  refine List.map_congr_left (fun x _ => ?_)
  split_ifs
  · rw [BitVec.ofNat_toNat, BitVec.setWidth_eq]
  · rfl

theorem accountPending_eq (s : BlockStore) (ha : a ≠ BitVec.allOnes 256) :
    Ledger.accountPending s a = .ok (BitVec.ofNat 128 (s.pendingTotal a)) := by
  have hnext : a < a + 1 := lt_add_one_of_ne_allOnes ha
  obtain ⟨below, mid, above, hentries, hlo, hhi, hbelow, hmid, habove⟩ :=
    s.pending.exists_range (PendingKey.lt_first_iff.mpr hnext : (⟨a, 0⟩ : PendingKey) < _).le
  have hfuel : s.pending.size + 1 = mid.length + 1 + (below.length + above.length) := by
    rw [Table.size, hentries, List.length_append, List.length_append]
    omega
  rw [Ledger.accountPending, hlo, hhi, hfuel, accountPendingLoop_eq mid hentries, zero_add,
    ofNat_pendingTotal, hentries, List.map_append, List.map_append, List.sum_append,
    List.sum_append]
  have hzero : ∀ {l : List (PendingKey × PendingInfo)}, (∀ x ∈ l, x.1.account ≠ a) →
      (l.map (fun x => if x.1.account = a then x.2.amount else 0)).sum = 0 := by
    intro l hl
    rw [List.map_congr_left (g := fun _ => (0 : Uint128)) (fun x hx => if_neg (hl x hx))]
    simp
  rw [hzero (fun x hx => (PendingKey.lt_first_iff.mp (hbelow x hx)).ne),
    hzero (fun x hx => (hnext.trans_le (PendingKey.first_le_iff.mp (habove x hx))).ne'),
    zero_add, add_zero]
  congr 2
  refine List.map_congr_left (fun x hx => ?_)
  have hge := PendingKey.first_le_iff.mp (hmid x hx).1
  have hlt := PendingKey.lt_first_iff.mp (hmid x hx).2
  rw [if_pos (le_antisymm ?_ hge)]
  by_contra hne
  exact absurd (add_one_le_of_lt (not_le.mp hne)) (not_le.mpr hlt)

theorem accountPending_allOnes_iff (s : BlockStore) (total : Uint128) :
    Ledger.accountPending s (BitVec.allOnes 256) = .ok total ↔
      total = 0 ∧ ∀ key info, s.pending.get key = some info →
        key.account = BitVec.allOnes 256 := by
  obtain ⟨below, rest, hentries, hpos, hbelow, hrest⟩ :=
    s.pending.exists_position ⟨BitVec.allOnes 256, 0⟩
  have hend : s.pending.position ⟨BitVec.allOnes 256 + 1, 0⟩ = 0 := by
    obtain ⟨front, -, -, hfront, hlt, -⟩ :=
      s.pending.exists_position ⟨BitVec.allOnes 256 + 1, 0⟩
    rw [hfront, List.length_eq_zero_iff, List.eq_nil_iff_forall_not_mem]
    intro x hx
    have hneg : x.1.account < 0 := PendingKey.lt_first_iff.mp (hlt x hx)
    exact absurd hneg (Nat.not_lt_zero _)
  unfold Ledger.accountPending
  rw [hend, hpos]
  cases below with
  | nil =>
    rw [List.length_nil, Ledger.accountPendingLoop, if_neg (by simp)]
    constructor
    · intro h
      refine ⟨(Except.ok.inj h).symm, fun key info hget => ?_⟩
      have hmem := (s.pending.mem_entries_iff key info).mpr hget
      rw [hentries, List.nil_append] at hmem
      have hge := PendingKey.first_le_iff.mp (hrest _ hmem)
      refine le_antisymm (BitVec.le_def.mpr ?_) hge
      rw [BitVec.toNat_allOnes]
      exact Nat.le_sub_one_of_lt key.account.isLt
    · rintro ⟨rfl, -⟩
      rfl
  | cons x below =>
    constructor
    · intro h
      exact absurd h (accountPendingLoop_ne_ok _ (Nat.succ_pos _) _ _)
    · rintro ⟨-, hall⟩
      have hmem : x ∈ s.pending.entries := by
        rw [hentries]
        exact .head _
      have hget := (s.pending.mem_entries_iff x.1 x.2).mp hmem
      have hlt := PendingKey.lt_first_iff.mp (hbelow x (.head _))
      exact absurd (hall _ _ hget) hlt.ne

end Totals

/-- The total is right unless the amounts do not fit, or the account has the largest number and
there are other pending entries than empty ones of it. -/
theorem account_pending_right_iff (s : BlockStore) (a : Account) :
    (∃ total, Ledger.accountPending s a = .ok total ∧ total.toNat = s.pendingTotal a) ↔
      s.pendingTotal a < 2 ^ 128 ∧
        (a ≠ BitVec.allOnes 256 ∨ ∀ key info, s.pending.get key = some info →
          key.account = BitVec.allOnes 256 ∧ info.amount = 0) := by
  by_cases ha : a = BitVec.allOnes 256
  · subst ha
    simp only [accountPending_allOnes_iff, ne_eq, not_true_eq_false, false_or]
    constructor
    · rintro ⟨total, ⟨rfl, hall⟩, hsum⟩
      refine ⟨by rw [← hsum]; decide, fun key info hget => ⟨hall key info hget, ?_⟩⟩
      have hle := Table.le_sum_of_get (fun (key : PendingKey) (info : PendingInfo) =>
        if key.account = BitVec.allOnes 256 then info.amount.toNat else 0) hget
      rw [if_pos (hall key info hget)] at hle
      exact BitVec.eq_of_toNat_eq (Nat.le_zero.mp (hle.trans hsum.ge))
    · rintro ⟨-, hall⟩
      refine ⟨0, ⟨rfl, fun key info hget => (hall key info hget).1⟩, ?_⟩
      have hzero : s.pendingTotal (BitVec.allOnes 256) = s.pending.sum (fun _ _ => 0) := by
        refine Table.sum_congr (fun key info hget => ?_)
        rw [(hall key info hget).2]
        exact ite_self 0
      rw [hzero, Table.sum_eq_map_sum]
      simp
  · rw [accountPending_eq s ha]
    constructor
    · rintro ⟨total, htotal, hsum⟩
      exact ⟨by rw [← hsum]; exact total.isLt, Or.inl ha⟩
    · rintro ⟨hlt, -⟩
      exact ⟨_, rfl, by rw [BitVec.toNat_ofNat, Nat.mod_eq_of_lt hlt]⟩

/-- In a ledger with a pending entry of another account, the loop reads behind the last
entry. -/
theorem account_pending_overruns :
    ∃ s, Reachable plainEnv plainSet s ∧ s.pendingTotal (BitVec.allOnes 256) = 0 ∧
      Ledger.accountPending s (BitVec.allOnes 256) = .error .assertion := by
  have h : ∃ s, ledgerOf plainEnv plainBlocks = .ok s ∧
      s.pendingTotal (BitVec.allOnes 256) = 0 ∧
        Ledger.accountPending s (BitVec.allOnes 256) = .error .assertion := by
    decide
  obtain ⟨s, hs, htest⟩ := h
  exact ⟨s, reachable_blockSet hs, htest⟩

end Badem
