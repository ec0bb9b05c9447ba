import Badem.Abstract.BlockLattice

/-!
# Steps of the block lattice

Adding a block on top of a chain and removing a block that nothing depends on, with the effect
of both steps on the lookups of the lattice.
-/

namespace Badem

open Mdb

namespace BlockLattice

variable {env : Env} {U : Set Block} {L L' : BlockLattice env U} {e : Entry}

section Heads

variable (H : CollisionFree env U) (L : BlockLattice env U) {h : BlockHash} {e : Entry}
  {a : Account}
include H

theorem hash_ne_zero (he : L.find h = some e) : h ≠ 0 := by
  rw [← L.hashed he]
  exact H.nonzero _ (L.known he)

theorem find_zero : L.find 0 = none := by
  cases hfind : L.find 0 with
  | none => rfl
  | some e => exact absurd rfl (L.hash_ne_zero H hfind)

theorem exists_head :
    ∀ (n : Nat) {h : BlockHash} {e : Entry},
      L.find h = some e → L.newer e.time = n →
      ∃ x, L.head e.account = some x ∧ e.height ≤ x.height ∧ e.time ≤ x.time := by
  intro n
  induction n using Nat.strong_induction_on with
  | _ n ih =>
    intro h e he hn
    cases hc : L.child e.hash with
    | none =>
      refine ⟨e, ?_, Nat.le_refl _, Nat.le_refl _⟩
      exact (L.head_eq_some_iff e.account e).mpr ⟨L.find_hash he, rfl, hc⟩
    | some c =>
      have hne : e.hash ≠ 0 := L.hash_ne_zero H (L.find_hash he)
      obtain ⟨hfind, hprev⟩ := (L.child_eq_some_iff hne c).mp hc
      obtain ⟨p, hp, htime, hext⟩ := L.exists_previous hfind (by rw [hprev]; exact hne)
      obtain rfl : p = e := by
        rw [hprev] at hp
        exact Option.some.inj (hp.symm.trans (L.find_hash he))
      have hlt : L.newer c.time < n := by
        have hmono : L.newer c.time ≤ L.newer (p.time + 1) := by
          refine Table.count_le_count _ ?_
          intro v hv
          simp only [decide_eq_true_eq] at hv ⊢
          omega
        have hstep := L.newer_lt_newer (t := p.time + 1) he (Nat.lt_succ_self _)
        omega
      obtain ⟨x, hx, hheight, htime'⟩ := ih _ hlt hfind rfl
      have hacc := hext.account
      have hh := hext.height
      refine ⟨x, by rw [← hacc]; exact hx, by omega, by omega⟩

theorem exists_head_of_find (he : L.find h = some e) :
    ∃ x, L.head e.account = some x ∧ e.height ≤ x.height ∧ e.time ≤ x.time :=
  L.exists_head H _ he rfl

theorem height_le_head {x : Entry} (hx : L.head a = some x)
    {y : Entry} (hy : L.find h = some y) (hacc : y.account = a) : y.height ≤ x.height := by
  obtain ⟨z, hz, hle, -⟩ := L.exists_head_of_find H hy
  rw [hacc] at hz
  cases hx.symm.trans hz
  exact hle

theorem account_ne_of_head_eq_none (ha : L.head a = none) (he : L.find h = some e) :
    e.account ≠ a := by
  rintro rfl
  obtain ⟨x, hx, -, -⟩ := L.exists_head_of_find H he
  simp [ha] at hx

end Heads

structure Appendable (L : BlockLattice env U) (e : Entry) : Prop where
  known : e.block ∈ U
  hashed : e.block.hash env = e.hash
  fresh : L.find e.hash = none
  account_ne_zero : e.account ≠ 0
  lawful : e.Lawful
  latest : ∀ {h x}, L.find h = some x → x.time < e.time
  opening : e.previous = 0 → e.Opens env ∧ L.head e.account = none
  chain : e.previous ≠ 0 →
    ∃ p, L.find e.previous = some p ∧ L.child e.previous = none ∧ e.Extends p
  sent : ∀ {x}, e.source env = some x →
    ∃ q, L.find x = some q ∧ q.destination = some e.account ∧ q.amount = e.amount ∧
      L.receiver x = none

structure Removable (L : BlockLattice env U) (e : Entry) : Prop where
  stored : L.find e.hash = some e
  child : L.child e.hash = none
  receiver : L.receiver e.hash = none
  ne_genesis : e.hash ≠ env.genesisHash

section Append

variable (H : CollisionFree env U)
variable {L : BlockLattice env U} {e : Entry} {h : BlockHash} {x : Entry}

theorem put_cases (hx : (L.entries.put e.hash e).get h = some x) :
    (h = e.hash ∧ x = e) ∨ (h ≠ e.hash ∧ L.find h = some x) := by
  rw [Table.get_put] at hx
  by_cases hk : h = e.hash
  · simp_all
  · rw [if_neg hk] at hx
    exact .inr ⟨hk, hx⟩

theorem Appendable.ne_hash (ha : L.Appendable e) (hx : L.find h = some x) : h ≠ e.hash := by
  rintro rfl
  simp [ha.fresh] at hx

theorem Appendable.put_get (ha : L.Appendable e) (hx : L.find h = some x) :
    (L.entries.put e.hash e).get h = some x := by
  rw [Table.get_put, if_neg (ha.ne_hash hx)]
  exact hx

theorem Appendable.ne_genesis (ha : L.Appendable e) : env.genesisHash ≠ e.hash :=
  ha.ne_hash L.genesis

include H in
theorem Appendable.hash_ne_zero (ha : L.Appendable e) : e.hash ≠ 0 := by
  rw [← ha.hashed]
  exact H.nonzero _ ha.known

/-- Add an entry. -/
def append (L : BlockLattice env U) (H : CollisionFree env U) (e : Entry)
    (ha : L.Appendable e) : BlockLattice env U where
  entries := L.entries.put e.hash e
  keyed := by
    intro h x hx
    rcases put_cases hx with ⟨rfl, rfl⟩ | ⟨-, hx⟩
    · rfl
    · exact L.keyed hx
  hashed := by
    intro h x hx
    rcases put_cases hx with ⟨rfl, rfl⟩ | ⟨-, hx⟩
    · exact ha.hashed
    · exact L.hashed hx
  known := by
    intro h x hx
    rcases put_cases hx with ⟨rfl, rfl⟩ | ⟨-, hx⟩
    · exact ha.known
    · exact L.known hx
  genesis := ha.put_get L.genesis
  account_ne_zero := by
    intro h x hx
    rcases put_cases hx with ⟨rfl, rfl⟩ | ⟨-, hx⟩
    · exact ha.account_ne_zero
    · exact L.account_ne_zero hx
  lawful := by
    intro h x hx
    rcases put_cases hx with ⟨rfl, rfl⟩ | ⟨-, hx⟩
    · exact ha.lawful
    · exact L.lawful hx
  opening := by
    intro h x hx hp
    rcases put_cases hx with ⟨rfl, rfl⟩ | ⟨-, hx⟩
    · exact (ha.opening hp).1
    · exact L.opening hx hp
  chain := by
    intro h x hx hp
    rcases put_cases hx with ⟨rfl, rfl⟩ | ⟨-, hx⟩
    · obtain ⟨p, hfind, -, hext⟩ := ha.chain hp
      exact ⟨p, ha.put_get hfind, ha.latest hfind, hext⟩
    · obtain ⟨p, hfind, htime, hext⟩ := L.exists_previous hx hp
      exact ⟨p, ha.put_get hfind, htime, hext⟩
  sent := by
    intro h x y hx hs
    rcases put_cases hx with ⟨rfl, rfl⟩ | ⟨-, hx⟩
    · obtain ⟨q, hfind, hdest, hamount, -⟩ := ha.sent hs
      exact ⟨q, ha.put_get hfind, ha.latest hfind, hdest, hamount⟩
    · obtain ⟨q, hfind, htime, hq⟩ := L.exists_source hx hs
      exact ⟨q, ha.put_get hfind, htime, hq⟩
  open_unique := by
    intro h x h' x' hx hx' hp hp' hacc
    rcases put_cases hx with ⟨rfl, rfl⟩ | ⟨-, hf⟩
    · rcases put_cases hx' with ⟨rfl, rfl⟩ | ⟨-, hf'⟩
      · rfl
      · exact absurd hacc.symm (L.account_ne_of_head_eq_none H (ha.opening hp).2 hf')
    · rcases put_cases hx' with ⟨rfl, rfl⟩ | ⟨-, hf'⟩
      · exact absurd hacc (L.account_ne_of_head_eq_none H (ha.opening hp').2 hf)
      · exact L.open_unique hf hf' hp hp' hacc
  no_fork := by
    intro h x h' x' hx hx' hp hprev
    rcases put_cases hx with ⟨rfl, rfl⟩ | ⟨-, hf⟩
    · rcases put_cases hx' with ⟨rfl, rfl⟩ | ⟨-, hf'⟩
      · rfl
      · obtain ⟨p, -, hchild, -⟩ := ha.chain hp
        exact absurd hprev.symm ((L.child_eq_none_iff _).mp hchild _ _ hf')
    · rcases put_cases hx' with ⟨rfl, rfl⟩ | ⟨-, hf'⟩
      · obtain ⟨p, -, hchild, -⟩ := ha.chain (by rw [← hprev]; exact hp)
        exact absurd hprev ((L.child_eq_none_iff _).mp hchild _ _ hf)
      · exact L.no_fork hf hf' hp hprev
  no_double_receive := by
    intro h x h' x' y hx hx' hs hs'
    rcases put_cases hx with ⟨rfl, rfl⟩ | ⟨-, hf⟩
    · rcases put_cases hx' with ⟨rfl, rfl⟩ | ⟨-, hf'⟩
      · rfl
      · obtain ⟨q, -, -, -, hrec⟩ := ha.sent hs
        exact absurd hs' ((L.receiver_eq_none_iff _).mp hrec _ _ hf')
    · rcases put_cases hx' with ⟨rfl, rfl⟩ | ⟨-, hf'⟩
      · obtain ⟨q, -, -, -, hrec⟩ := ha.sent hs'
        exact absurd hs ((L.receiver_eq_none_iff _).mp hrec _ _ hf)
      · exact L.no_double_receive hf hf' hs hs'

theorem find_append (ha : L.Appendable e) (h : BlockHash) :
    (L.append H e ha).find h = if h = e.hash then some e else L.find h :=
  Table.get_put _ _ _ _

theorem find_append_self (ha : L.Appendable e) : (L.append H e ha).find e.hash = some e := by
  rw [find_append, if_pos rfl]

theorem find_append_iff (ha : L.Appendable e) (x : Entry) :
    (L.append H e ha).find x.hash = some x ↔ x = e ∨ L.find x.hash = some x := by
  rw [find_append]
  constructor
  · intro hx
    grind
  · rintro (rfl | hx)
    · simp
    · rw [if_neg (ha.ne_hash hx)]
      exact hx

include H in
theorem Appendable.previous_ne (ha : L.Appendable e) (hx : L.find h = some x) :
    x.previous ≠ e.hash := by
  intro hprev
  obtain ⟨p, hfind, -, -⟩ := L.exists_previous hx (by rw [hprev]; exact ha.hash_ne_zero H)
  simp [hprev, ha.fresh] at hfind

include H in
theorem Appendable.previous_ne_hash (ha : L.Appendable e) : e.previous ≠ e.hash := by
  intro hprev
  obtain ⟨p, hfind, -, -⟩ := ha.chain (by rw [hprev]; exact ha.hash_ne_zero H)
  simp [hprev, ha.fresh] at hfind

theorem child_append (ha : L.Appendable e) (hne : h ≠ 0) :
    (L.append H e ha).child h = if e.previous = h then some e else L.child h := by
  ext c
  rw [child_eq_some_iff _ hne, find_append_iff]
  by_cases hk : e.previous = h
  · rw [if_pos hk]
    constructor
    · rintro ⟨rfl | hc, hprev⟩
      · rfl
      · obtain ⟨p, -, hchild, -⟩ := ha.chain (by rw [hk]; exact hne)
        rw [child_eq_none_iff] at hchild
        exact absurd (hprev.trans hk.symm) (hchild _ _ hc)
    · intro hc
      cases hc
      exact ⟨.inl rfl, hk⟩
  · rw [if_neg hk, child_eq_some_iff _ hne]
    constructor
    · rintro ⟨rfl | hc, hprev⟩
      · exact absurd hprev hk
      · exact ⟨hc, hprev⟩
    · rintro ⟨hc, hprev⟩
      exact ⟨.inr hc, hprev⟩

theorem child_append_self (ha : L.Appendable e) : (L.append H e ha).child e.hash = none := by
  rw [child_eq_none_iff]
  intro k x hx
  rcases put_cases hx with ⟨-, rfl⟩ | ⟨-, hx⟩
  · exact ha.previous_ne_hash H
  · exact ha.previous_ne H hx

theorem receiver_append (ha : L.Appendable e) (h : BlockHash) :
    (L.append H e ha).receiver h =
      if e.source env = some h then some e else L.receiver h := by
  ext r
  rw [receiver_eq_some_iff, find_append_iff]
  by_cases hk : e.source env = some h
  · rw [if_pos hk]
    constructor
    · rintro ⟨rfl | hr, hs⟩
      · rfl
      · obtain ⟨q, -, -, -, hrec⟩ := ha.sent hk
        rw [receiver_eq_none_iff] at hrec
        exact absurd hs (hrec _ _ hr)
    · intro hr
      cases hr
      exact ⟨.inl rfl, hk⟩
  · rw [if_neg hk, receiver_eq_some_iff]
    constructor
    · rintro ⟨rfl | hr, hs⟩
      · exact absurd hs hk
      · exact ⟨hr, hs⟩
    · rintro ⟨hr, hs⟩
      exact ⟨.inr hr, hs⟩

theorem Appendable.receiver_eq_none (ha : L.Appendable e) : L.receiver e.hash = none := by
  rw [receiver_eq_none_iff]
  intro k x hx hs
  obtain ⟨q, hfind, -, -⟩ := L.exists_source hx hs
  simp [ha.fresh] at hfind

theorem head_append (ha : L.Appendable e) (a : Account) :
    (L.append H e ha).head a = if a = e.account then some e else L.head a := by
  ext x
  rw [head_eq_some_iff, find_append_iff]
  by_cases hk : a = e.account
  · rw [if_pos hk]
    constructor
    · rintro ⟨rfl | hx, hacc, hchild⟩
      · rfl
      · exfalso
        by_cases hp : e.previous = 0
        · exact L.account_ne_of_head_eq_none H (ha.opening hp).2 hx (hacc.trans hk)
        · obtain ⟨p, hfind, hpc, hext⟩ := ha.chain hp
          have hne := L.hash_ne_zero H hx
          have hpx : p ≠ x := by
            rintro rfl
            simp [child_append H ha hne, (L.keyed hfind).symm] at hchild
          rw [child_append H ha hne, if_neg] at hchild
          · refine hpx (L.eq_of_child_eq_none hfind hx ?_ ?_ hchild)
            · rw [hacc, hk, hext.account]
            · simpa [L.keyed hfind] using hpc
          · intro hprev
            rw [hprev] at hfind
            exact hpx (Option.some.inj (hfind.symm.trans hx))
    · intro hx
      cases hx
      exact ⟨.inl rfl, hk.symm, child_append_self H ha⟩
  · rw [if_neg hk, head_eq_some_iff]
    constructor
    · rintro ⟨rfl | hx, hacc, hchild⟩
      · exact absurd hacc.symm hk
      · have hne := L.hash_ne_zero H hx
        rw [child_append H ha hne] at hchild
        grind
    · rintro ⟨hx, hacc, hchild⟩
      have hne := L.hash_ne_zero H hx
      refine ⟨.inr hx, hacc, ?_⟩
      rw [child_append H ha hne, if_neg]
      · exact hchild
      · intro hprev
        obtain ⟨p, hfind, -, hext⟩ := ha.chain (by rw [hprev]; exact hne)
        rw [hprev] at hfind
        cases hfind.symm.trans hx
        exact hk (hacc.symm.trans hext.account.symm)

theorem size_append (ha : L.Appendable e) : (L.append H e ha).entries.size = L.entries.size + 1 :=
  Table.size_put_of_get_none e ha.fresh

end Append

section Remove

variable (H : CollisionFree env U)
variable {L : BlockLattice env U} {e : Entry} {h : BlockHash} {x : Entry}

theorem del_cases (hx : (L.entries.del e.hash).get h = some x) :
    h ≠ e.hash ∧ L.find h = some x := by
  rw [Table.get_del] at hx
  by_cases hk : h = e.hash
  · simp [hk] at hx
  · rw [if_neg hk] at hx
    exact ⟨hk, hx⟩

theorem del_get (hk : h ≠ e.hash) (hx : L.find h = some x) :
    (L.entries.del e.hash).get h = some x := by
  rw [Table.get_del, if_neg hk]
  exact hx

def remove (L : BlockLattice env U) (e : Entry) (hr : L.Removable e) :
    BlockLattice env U where
  entries := L.entries.del e.hash
  keyed hx := L.keyed (del_cases hx).2
  hashed hx := L.hashed (del_cases hx).2
  known hx := L.known (del_cases hx).2
  genesis := del_get hr.ne_genesis.symm L.genesis
  account_ne_zero hx := L.account_ne_zero (del_cases hx).2
  lawful hx := L.lawful (del_cases hx).2
  opening hx := L.opening (del_cases hx).2
  chain := by
    intro h x hx hp
    obtain ⟨-, hx⟩ := del_cases hx
    obtain ⟨p, hfind, htime, hext⟩ := L.exists_previous hx hp
    refine ⟨p, del_get ?_ hfind, htime, hext⟩
    exact (L.child_eq_none_iff _).mp hr.child _ _ hx
  sent := by
    intro h x y hx hs
    obtain ⟨-, hx⟩ := del_cases hx
    obtain ⟨q, hfind, htime, hq⟩ := L.exists_source hx hs
    refine ⟨q, del_get ?_ hfind, htime, hq⟩
    rintro rfl
    exact (L.receiver_eq_none_iff _).mp hr.receiver _ _ hx hs
  open_unique hx hx' := L.open_unique (del_cases hx).2 (del_cases hx').2
  no_fork hx hx' := L.no_fork (del_cases hx).2 (del_cases hx').2
  no_double_receive hx hx' := L.no_double_receive (del_cases hx).2 (del_cases hx').2

theorem find_remove (hr : L.Removable e) (h : BlockHash) :
    (L.remove e hr).find h = if h = e.hash then none else L.find h :=
  Table.get_del _ _ _

theorem find_remove_iff (hr : L.Removable e) (x : Entry) :
    (L.remove e hr).find x.hash = some x ↔ x ≠ e ∧ L.find x.hash = some x := by
  rw [find_remove]
  constructor
  · intro hx
    grind
  · rintro ⟨hne, hx⟩
    rw [if_neg]
    · exact hx
    · intro hk
      rw [hk] at hx
      exact hne (Option.some.inj (hx.symm.trans hr.stored))

theorem child_remove (hr : L.Removable e) (hne : h ≠ 0) :
    (L.remove e hr).child h = if e.previous = h then none else L.child h := by
  ext c
  rw [child_eq_some_iff _ hne, find_remove_iff]
  by_cases hk : e.previous = h
  · rw [if_pos hk]
    constructor
    · rintro ⟨⟨hce, hc⟩, hprev⟩
      refine absurd (L.no_fork hr.stored hc ?_ ?_).symm hce
      · simp_all
      · rw [hk, hprev]
    · intro hc
      simp at hc
  · rw [if_neg hk, child_eq_some_iff _ hne]
    constructor
    · rintro ⟨⟨-, hc⟩, hprev⟩
      exact ⟨hc, hprev⟩
    · rintro ⟨hc, hprev⟩
      refine ⟨⟨?_, hc⟩, hprev⟩
      rintro rfl
      exact hk hprev

theorem receiver_remove (hr : L.Removable e) (h : BlockHash) :
    (L.remove e hr).receiver h =
      if e.source env = some h then none else L.receiver h := by
  ext r
  rw [receiver_eq_some_iff, find_remove_iff]
  by_cases hk : e.source env = some h
  · rw [if_pos hk]
    constructor
    · rintro ⟨⟨hre, hfind⟩, hs⟩
      exact absurd (L.no_double_receive hr.stored hfind hk hs).symm hre
    · intro hc
      simp at hc
  · rw [if_neg hk, receiver_eq_some_iff]
    constructor
    · rintro ⟨⟨-, hfind⟩, hs⟩
      exact ⟨hfind, hs⟩
    · rintro ⟨hfind, hs⟩
      refine ⟨⟨?_, hfind⟩, hs⟩
      rintro rfl
      exact hk hs

include H in
theorem head_remove (hr : L.Removable e) (a : Account) :
    (L.remove e hr).head a = if a = e.account then L.find e.previous else L.head a := by
  ext x
  rw [head_eq_some_iff, find_remove_iff]
  by_cases hk : a = e.account
  · rw [if_pos hk]
    constructor
    · rintro ⟨⟨hxe, hx⟩, hacc, hchild⟩
      have hne := L.hash_ne_zero H hx
      rw [child_remove hr hne] at hchild
      by_cases hprev : e.previous = x.hash
      · simp_all
      · rw [if_neg hprev] at hchild
        exact absurd
          (L.eq_of_child_eq_none hx hr.stored (hacc.trans hk) hchild hr.child) hxe
    · intro hx
      have hne : e.previous ≠ 0 := L.hash_ne_zero H hx
      obtain ⟨p, hfind, htime, hext⟩ := L.exists_previous hr.stored hne
      cases hx.symm.trans hfind
      have hhash := L.keyed hfind
      refine ⟨⟨?_, L.find_hash hfind⟩, ?_, ?_⟩
      · rintro rfl
        omega
      · rw [hk, hext.account]
      · rw [hhash, child_remove hr hne, if_pos rfl]
  · rw [if_neg hk, head_eq_some_iff]
    constructor
    · rintro ⟨⟨-, hx⟩, hacc, hchild⟩
      have hne := L.hash_ne_zero H hx
      rw [child_remove hr hne] at hchild
      by_cases hprev : e.previous = x.hash
      · exfalso
        obtain ⟨p, hfind, -, hext⟩ := L.exists_previous hr.stored (by rw [hprev]; exact hne)
        rw [hprev] at hfind
        cases hfind.symm.trans hx
        exact hk (hacc.symm.trans hext.account.symm)
      · simp_all
    · rintro ⟨hx, hacc, hchild⟩
      have hne := L.hash_ne_zero H hx
      refine ⟨⟨?_, hx⟩, hacc, ?_⟩
      · rintro rfl
        exact hk hacc.symm
      · grind [child_remove hr hne]

theorem size_remove (hr : L.Removable e) : (L.remove e hr).entries.size + 1 = L.entries.size :=
  Table.size_del_of_get hr.stored

end Remove

def Sub (L' L : BlockLattice env U) : Prop :=
  ∀ {h e}, L'.find h = some e → L.find h = some e

theorem Sub.refl (L : BlockLattice env U) : L.Sub L := id

theorem Sub.trans {L'' : BlockLattice env U} (h : L.Sub L') (h' : L'.Sub L'') : L.Sub L'' :=
  fun hfind => h' (h hfind)

theorem append_sub (H : CollisionFree env U) (ha : L.Appendable e) : L.Sub (L.append H e ha) :=
  fun hx => ha.put_get hx

theorem remove_sub (hr : L.Removable e) : (L.remove e hr).Sub L :=
  fun hx => (del_cases hx).2

theorem size_le_of_sub (h : L'.Sub L) : L'.entries.size ≤ L.entries.size :=
  Table.size_le_of_sub (fun _ _ hx => h hx)

end BlockLattice

end Badem
