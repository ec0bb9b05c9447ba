import Badem.Ledger.MarkerHashes

/-!
# Chains of accounts

Following the previous links from the head of an account leads through all of its blocks down
to the block that opened it.
-/

namespace Badem

open Mdb BlockLattice

variable {env : Env} {U : Set Block} {s : BlockStore}

/-- The blocks met on the way from a block down the previous links, each of them stored. -/
inductive PreviousWalk (s : BlockStore) : BlockHash → List BlockHash → Prop
  | first {h : BlockHash} {b : Block} :
      s.blockGet h = some b →
      b.previous = 0 →
      PreviousWalk s h [h]
  | next {h : BlockHash} {b : Block} {l : List BlockHash} :
      s.blockGet h = some b →
      b.previous ≠ 0 →
      PreviousWalk s b.previous l →
      PreviousWalk s h (h :: l)

/-- The block `h` lies in the chain of the account `a`. -/
def InChain (s : BlockStore) (a : Account) (h : BlockHash) : Prop :=
  ∃ i l, s.accountGet a = some i ∧ PreviousWalk s i.head l ∧ h ∈ l

/-- The stored blocks form one chain for each account. -/
structure ChainsFormed (s : BlockStore) : Prop where
  walk : ∀ {a i}, s.accountGet a = some i →
    ∃ l, PreviousWalk s i.head l ∧ l.length = i.blockCount ∧ l.getLast? = some i.openBlock
  successor : ∀ {h b}, s.blockGet h = some b →
    ∀ k, (s.blockSuccessor h = k ∧ k ≠ 0) ↔ ∃ c, s.blockGet k = some c ∧ c.previous = h
  head : ∀ {h b}, s.blockGet h = some b →
    (s.blockSuccessor h = 0 ↔ ∃ a i, s.accountGet a = some i ∧ i.head = h)
  cover : ∀ {h b}, s.blockGet h = some b →
    ∃ a, InChain s a h ∧ ∀ a', InChain s a' h → a' = a
  legacy : ∀ {h b p}, s.blockGet h = some b → s.blockGet b.previous = some p →
    p.type = .state → b.type = .state
  frontier : ∀ h a, s.frontiers.get h = some a ↔
    ∃ i b, s.accountGet a = some i ∧ i.head = h ∧ s.blockGet h = some b ∧ b.type ≠ .state

section Walk

variable {h : BlockHash} {l : List BlockHash}

theorem PreviousWalk.stored (hw : PreviousWalk s h l) : ∃ b, s.blockGet h = some b := by
  cases hw with
  | first hb _ => exact ⟨_, hb⟩
  | next hb _ _ => exact ⟨_, hb⟩

theorem PreviousWalk.unique {l' : List BlockHash}
    (hw : PreviousWalk s h l) (hw' : PreviousWalk s h l') : l = l' := by
  induction hw generalizing l' with
  | first hb hz =>
    cases hw' with
    | first _ _ => rfl
    | next hb' hne _ =>
      cases hb.symm.trans hb'
      exact absurd hz hne
  | next hb hne _ ih =>
    cases hw' with
    | first hb' hz =>
      cases hb.symm.trans hb'
      exact absurd hz hne
    | next hb' _ hrest =>
      cases hb.symm.trans hb'
      rw [ih hrest]

theorem walk_of_walkDown (n : Nat) :
    ∀ {h : BlockHash} {l : List BlockHash}, walkDown s n h = some l → PreviousWalk s h l := by
  induction n with
  | zero =>
    intro h l hl
    exact absurd hl (by simp [walkDown])
  | succ n ih =>
    intro h l hl
    rw [walkDown] at hl
    cases hb : s.blockGet h with
    | none => simp [hb] at hl
    | some b =>
      rw [hb] at hl
      simp only at hl
      by_cases hz : b.previous = 0
      · rw [if_pos hz] at hl
        cases hl
        exact PreviousWalk.first hb hz
      · rw [if_neg hz] at hl
        obtain ⟨l', hl', rfl⟩ := Option.map_eq_some_iff.mp hl
        exact PreviousWalk.next hb hz (ih hl')

theorem not_inChain_of_walkDown {n : Nat} {a : Account}
    (hl : walkDown s n (Ledger.latest s a) = some l) (hmem : h ∉ l) : ¬ InChain s a h := by
  rintro ⟨i, l', hi, hwalk, hmem'⟩
  have hlatest : Ledger.latest s a = i.head := by
    rw [Ledger.latest, hi]
  rw [hlatest] at hl
  rw [hwalk.unique (walk_of_walkDown n hl)] at hmem'
  exact hmem hmem'

end Walk

section Lattice

variable {L : BlockLattice env U} (hR : Refines (fun _ => 0) s L) {h : BlockHash} {e : Entry}

include hR in
theorem exists_walk :
    ∀ (n : Nat) {h : BlockHash} {e : Entry}, L.find h = some e → e.height = n →
      ∃ l, PreviousWalk s h l ∧ l.length = n ∧ l.getLast? = some e.openBlock ∧
        ∀ k, k ∈ l ↔ ∃ x, L.find k = some x ∧ x.account = e.account ∧ x.height ≤ n := by
  intro n
  induction n with
  | zero =>
    intro h e he hn
    have hpos := L.height_pos he
    omega
  | succ n ih =>
    intro h e he hn
    have hget := hR.blockGet_of_find he
    have hself : ∀ k, (∃ x, L.find k = some x ∧ x.account = e.account ∧ x.height = n + 1) ↔
        k = h := by
      intro k
      constructor
      · rintro ⟨x, hx, hacc, hheight⟩
        rw [← L.keyed hx, ← L.keyed he, L.eq_of_height_eq _ hx he hacc hheight hn]
      · rintro rfl
        exact ⟨e, he, rfl, hn⟩
    by_cases hz : e.previous = 0
    · have hopen := L.opening he hz
      have hone := hopen.height
      refine ⟨[h], PreviousWalk.first hget hz, by simp; omega, ?_, ?_⟩
      · rw [hopen.openBlock, L.keyed he]
        rfl
      · intro k
        rw [List.mem_singleton, ← hself]
        constructor
        · rintro ⟨x, hx, hacc, hheight⟩
          exact ⟨x, hx, hacc, by omega⟩
        · rintro ⟨x, hx, hacc, hheight⟩
          have hpos := L.height_pos hx
          exact ⟨x, hx, hacc, by omega⟩
    · obtain ⟨p, hp, -, hext⟩ := L.exists_previous he hz
      have hstep := hext.height
      obtain ⟨l, hwalk, hlen, hlast, hmem⟩ := ih hp (by omega)
      refine ⟨h :: l, PreviousWalk.next hget hz hwalk, by simp [hlen], ?_, ?_⟩
      · rw [List.getLast?_cons, hlast, hext.openBlock]
        rfl
      · intro k
        rw [List.mem_cons, hmem, ← hself]
        constructor
        · rintro (⟨x, hx, hacc, hheight⟩ | ⟨x, hx, hacc, hheight⟩)
          · exact ⟨x, hx, hacc, by omega⟩
          · exact ⟨x, hx, by rw [hacc, hext.account], by omega⟩
        · rintro ⟨x, hx, hacc, hheight⟩
          rcases Nat.lt_or_eq_of_le hheight with hlt | heq
          · exact .inr ⟨x, hx, by rw [hacc, hext.account], by omega⟩
          · exact .inl ⟨x, hx, hacc, heq⟩

include hR in
theorem inChain_iff (H : CollisionFree env U) (a : Account) (h : BlockHash) :
    InChain s a h ↔ ∃ e, L.find h = some e ∧ e.account = a := by
  constructor
  · rintro ⟨i, l, hi, hwalk, hmem⟩
    obtain ⟨x, hx, hdesc⟩ := hR.head_of_account hi
    obtain ⟨hfind, hacc, -⟩ := (L.head_eq_some_iff a x).mp hx
    obtain ⟨l', hwalk', -, -, hmem'⟩ := exists_walk hR x.height hfind rfl
    rw [hdesc.head] at hwalk
    rw [hwalk.unique hwalk'] at hmem
    obtain ⟨e, he, heacc, -⟩ := (hmem' h).mp hmem
    exact ⟨e, he, heacc.trans hacc⟩
  · rintro ⟨e, he, rfl⟩
    obtain ⟨x, hx, hheight, -⟩ := L.exists_head_of_find H he
    obtain ⟨hfind, hacc, -⟩ := (L.head_eq_some_iff _ x).mp hx
    obtain ⟨i, hi, hdesc⟩ := hR.account_of_head hx
    obtain ⟨l, hwalk, -, -, hmem⟩ := exists_walk hR x.height hfind rfl
    refine ⟨i, l, hi, ?_, (hmem h).mpr ⟨e, he, hacc.symm, hheight⟩⟩
    rw [hdesc.head]
    exact hwalk

include hR in
theorem blockSuccessor_of_find (he : L.find h = some e) : s.blockSuccessor h = L.successor h := by
  rw [BlockStore.blockSuccessor_eq hR.blocks, raw_of_find _ he]
  rfl

theorem successor_eq_zero_iff (H : CollisionFree env U) (he : L.find h = some e) :
    L.successor h = 0 ↔ L.child h = none := by
  constructor
  · intro hz
    cases hc : L.child h with
    | none => rfl
    | some c =>
      obtain ⟨hfind, -⟩ := (L.child_eq_some_iff (L.hash_ne_zero H he) c).mp hc
      rw [successor_of_child _ hc] at hz
      exact absurd hz (L.hash_ne_zero H hfind)
  · exact successor_of_child_none L

end Lattice

end Badem
