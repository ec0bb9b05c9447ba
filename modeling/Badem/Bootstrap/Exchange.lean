import Badem.Bootstrap.FrontierMerge
import Badem.Refinement.Reachability

/-!
# Answers to pulls

The answer to a pull is the part of the chain above the block that the client names.
-/

namespace Badem

open Mdb BlockLattice BulkPullServer

section Answers

variable {env : NodeEnv} {U : Set Block} {s : BlockStore} {L : BlockLattice env.toEnv U}

def EndsAt (L : BlockLattice env.toEnv U) (a : Account) (k : Nat) (endBlock : BlockHash) : Prop :=
  (k = 0 ∧ endBlock = 0) ∨ ∃ z, L.find endBlock = some z ∧ z.account = a ∧ z.height = k

def ChainPart (L : BlockLattice env.toEnv U) (a : Account) (k n : Nat) (b : Block) : Prop :=
  ∃ h y, L.find h = some y ∧ y.block = b ∧ y.account = a ∧ k < y.height ∧ y.height ≤ n

variable {a : Account} {k : Nat} {endBlock : BlockHash} {x : Entry} {h : BlockHash}

theorem chainPart_succ {n : Nat} (hx : L.find h = some x)
    (hacc : x.account = a) (hheight : x.height = n + 1) (hk : k < n + 1) (b : Block) :
    ChainPart L a k (n + 1) b ↔ b = x.block ∨ ChainPart L a k n b := by
  constructor
  · rintro ⟨h', y, hy, rfl, hyacc, hlow, hhigh⟩
    rcases Nat.lt_or_eq_of_le hhigh with hlt | heq
    · exact .inr ⟨h', y, hy, rfl, hyacc, hlow, by omega⟩
    · simp [L.eq_of_height_eq _ hy hx (hyacc.trans hacc.symm) heq hheight]
  · rintro (rfl | ⟨h', y, hy, rfl, hyacc, hlow, hhigh⟩)
    · exact ⟨h, x, hx, rfl, hacc, by omega, by omega⟩
    · exact ⟨h', y, hy, rfl, hyacc, hlow, by omega⟩

variable (H : CollisionFree env.toEnv U) (hR : Refines (fun _ => 0) s L)
variable (hend : EndsAt L a k endBlock)
include H hR hend

omit hR in
theorem EndsAt.ne_current {current : BlockHash} (hx : L.find current = some x)
    (hk : k < x.height) : current ≠ endBlock := by
  rintro rfl
  rcases hend with ⟨-, rfl⟩ | ⟨z, hz, -, hheight⟩
  · grind [L.find_zero H]
  · simp_all

omit H hR in
theorem EndsAt.previous_eq (hx : L.find h = some x)
    (hacc : x.account = a) (hheight : x.height = k + 1) : x.previous = endBlock := by
  by_cases hz : x.previous = 0
  · have hone := (L.opening hx hz).height
    rcases hend with ⟨-, rfl⟩ | ⟨z, hfind, -, hzheight⟩
    · exact hz
    · have hpos := L.height_pos hfind
      omega
  · obtain ⟨p, hp, -, hext⟩ := L.exists_previous hx hz
    have hstep := hext.height
    rcases hend with ⟨rfl, -⟩ | ⟨z, hfind, hzacc, hzheight⟩
    · have hpos := L.height_pos hp
      omega
    · have hpz : p = z := L.eq_of_height_eq k hp hfind
        (hext.account.symm.trans (hacc.trans hzacc.symm)) (by omega) hzheight
      rw [← L.keyed hp, ← L.keyed hfind, hpz]

theorem sendNext_chain :
    ∀ (d : Nat) {fuel : Nat} {current : BlockHash}, d < fuel → (d = 0 → current = endBlock) →
      (0 < d → ∃ x, L.find current = some x ∧ x.account = a ∧ x.height = k + d) →
      ∃ l, sendNext s fuel ⟨current, endBlock⟩ = .ok l ∧
        (∀ b, b ∈ l ↔ ChainPart L a k (k + d) b) ∧
        ((∀ b ∈ l, env.workValidate b = false) →
          BulkPullClient.receivedBlocks env current l = (endBlock, l)) := by
  intro d
  induction d with
  | zero =>
    intro fuel current hfuel hdone _
    obtain ⟨n, rfl⟩ : ∃ n, fuel = n + 1 := ⟨fuel - 1, by omega⟩
    obtain rfl := hdone rfl
    refine ⟨[], ?_, ?_, fun _ => rfl⟩
    · rw [sendNext, getNext, if_neg (not_not_intro rfl)]
    · intro b
      refine ⟨fun h => absurd h (by simp), ?_⟩
      rintro ⟨h, y, -, -, -, hlow, hhigh⟩
      omega
  | succ d ih =>
    intro fuel current hfuel _ hstart
    obtain ⟨n, rfl⟩ : ∃ n, fuel = n + 1 := ⟨fuel - 1, by omega⟩
    obtain ⟨x, hx, hacc, hheight⟩ := hstart (Nat.succ_pos d)
    have hne := hend.ne_current H hx (by omega)
    have hprev : d = 0 → x.previous = endBlock := fun hd =>
      hend.previous_eq hx hacc (by omega)
    have hnext : getNext s ⟨current, endBlock⟩ =
        (some x.block, ⟨x.previous, endBlock⟩) := by
      rw [getNext, if_pos hne, hR.blockGet_of_find hx]
      by_cases hz : x.block.previous = 0
      · have hone := (L.opening hx hz).height
        rw [hprev (by omega)]
        exact if_neg (not_not_intro hz)
      · exact if_pos hz
    have hbelow : 0 < d → ∃ p, L.find x.previous = some p ∧ p.account = a ∧
        p.height = k + d := by
      intro hd
      have hz : x.previous ≠ 0 := fun hz => by
        have hone := (L.opening hx hz).height
        omega
      obtain ⟨p, hp, -, hext⟩ := L.exists_previous hx hz
      have hstep := hext.height
      exact ⟨p, hp, hext.account.symm.trans hacc, by omega⟩
    obtain ⟨l, hl, hmem, hreceived⟩ := ih (show d < n by omega) hprev hbelow
    refine ⟨x.block :: l, ?_, ?_, ?_⟩
    · simp only [sendNext, hnext, hl, ok_bind]
      rfl
    · intro b
      rw [List.mem_cons, hmem]
      exact (chainPart_succ (n := k + d) hx hacc hheight (by omega) b).symm
    · intro hwork
      rw [BulkPullClient.receivedBlocks, if_pos (hwork _ (.head _)),
        if_pos (L.hashed hx), show x.block.previous = x.previous from rfl,
        hreceived fun b hb => hwork b (.tail _ hb)]

theorem bulkPull_chain (M : MarkerFree env.toEnv U) (hx : L.head a = some x) (hk : k < x.height)
    (hwork : ∀ b, ChainPart L a k x.height b → env.workValidate b = false) :
    ∃ l, bulkPull env s ⟨a, x.hash, endBlock⟩ = .ok (none, l) ∧
      ∀ b, b ∈ l ↔ ChainPart L a k x.height b := by
  obtain ⟨hfind, hacc, -⟩ := (L.head_eq_some_iff a x).mp hx
  obtain ⟨i, hi, hdesc⟩ := hR.account_of_head hx
  have hserver : setCurrentEnd s a endBlock = .ok ⟨x.hash, endBlock⟩ := by
    unfold setCurrentEnd
    rw [BlockStore.accountGet, hi]
    rcases hend with ⟨-, rfl⟩ | ⟨z, hz, hzacc, -⟩
    · have hnone : s.blockExists 0 = false := by
        rw [hR.blockExists_iff, L.find_zero H]
        rfl
      simp only [hnone, if_true, ne_eq, not_true_eq_false, if_false, hdesc.head]
    · have hsome : ¬ s.blockExists endBlock = false := by
        rw [hR.blockExists_iff, hz]
        simp
      have hne : endBlock ≠ 0 := L.hash_ne_zero H hz
      simp only [if_neg hsome, if_pos hne, account_eq H M hR hz, ok_bind, if_pos hzacc, hdesc.head]
      rfl
  have hheight := L.height_le_older x.height hfind rfl
  have hsize := L.older_le_size x.time
  have hcount := hR.count
  have hfuel : x.height - k < s.blockCount + 1 := by omega
  have htop : x.height - k = 0 → x.hash = endBlock := fun hd => by omega
  obtain ⟨l, hl, hmem, hreceived⟩ := sendNext_chain H hR hend (x.height - k) hfuel htop
    (fun _ => ⟨x, hfind, hacc, by omega⟩)
  rw [show k + (x.height - k) = x.height by omega] at hmem
  refine ⟨l, ?_, hmem⟩
  unfold bulkPull run
  simp only [hserver, ok_bind, hl, hreceived fun b hb => hwork b ((hmem b).mp hb), ne_eq,
    not_true_eq_false, if_false]
  rfl

end Answers

end Badem
