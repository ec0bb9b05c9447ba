import Badem.Abstract.Retiming
import Badem.Refinement.VisitorSpecs

/-!
# Merging two lattices

Two lattices agree on the blocks that they share.  If their chains do not diverge, their union
is a lattice, in which the entries that only the second one has come last.
-/

namespace Badem

open Mdb

namespace Entry

/-- Entries of one block that differ at most in its signature and work and in their times. -/
structure Alike (e e' : Entry) : Prop where
  hash : e.hash = e'.hash
  hashables : e.block.hashables = e'.block.hashables
  account : e.account = e'.account
  previousBalance : e.previousBalance = e'.previousBalance
  balance : e.balance = e'.balance
  repBlock : e.repBlock = e'.repBlock
  openBlock : e.openBlock = e'.openBlock
  height : e.height = e'.height

namespace Alike

variable {e e' : Entry} (h : e.Alike e')
include h

theorem previous : e.previous = e'.previous := Block.previous_eq_of_hashables_eq h.hashables

theorem amount : e.amount = e'.amount := by
  rw [Entry.amount, Entry.amount, h.balance, h.previousBalance]

theorem destination : e.destination = e'.destination := by
  have hb := h.hashables
  have hbal := h.previousBalance
  unfold Entry.destination
  cases hx : e.block <;> cases hy : e'.block <;> simp_all [Block.hashables]

theorem source (env : Env) : e.source env = e'.source env := by
  have hb := h.hashables
  have hbal := h.previousBalance
  unfold Entry.source
  rw [h.hash]
  cases hx : e.block <;> cases hy : e'.block <;> simp_all [Block.hashables]

end Alike

end Entry

namespace BlockLattice

variable {env : Env} {U : Set Block} {L M : BlockLattice env U} {e x : Entry} {h : BlockHash}

section Agreement

variable (H : CollisionFree env U) (he : L.find h = some e) (hx : M.find h = some x)
include H he hx

theorem hashables_eq_of_find : e.block.hashables = x.block.hashables :=
  H.injective _ (L.known he) _ (M.known hx) ((L.hashed he).trans (M.hashed hx).symm)

theorem balance_eq_of_find (hgen : h ≠ env.genesisHash)
    (hprev : e.previousBalance = x.previousBalance)
    (hamount : ∀ k, e.source env = some k → e.amount = x.amount) : e.balance = x.balance := by
  have hb := hashables_eq_of_find H he hx
  have hle := L.lawful he
  have hlx := M.lawful hx
  have hne : e.hash ≠ env.genesisHash := by rw [L.keyed he]; exact hgen
  have hnx : x.hash ≠ env.genesisHash := by rw [M.keyed hx]; exact hgen
  have hreceives : ∀ {k k' : BlockHash}, e.source env = some k → x.source env = some k' →
      e.balance = x.balance := by
    intro k k' hk hk'
    rw [Entry.balance_eq_add hle (fun hz => (L.opening he hz).previousBalance) hk,
      Entry.balance_eq_add hlx (fun hz => (M.opening hx hz).previousBalance) hk', hprev,
      hamount k hk]
  unfold Entry.Lawful at hle hlx
  cases hbe : e.block with
  | receiveBlock b =>
    cases hbx : x.block with
    | receiveBlock b' =>
      have hk : e.source env = some b.hashables.source := by simp [Entry.source, hne, hbe]
      have hk' : x.source env = some b'.hashables.source := by simp [Entry.source, hnx, hbx]
      exact hreceives hk hk'
    | _ => simp [hbe, hbx, Block.hashables] at hb
  | openBlock b =>
    cases hbx : x.block with
    | openBlock b' =>
      have hk : e.source env = some b.hashables.source := by simp [Entry.source, hne, hbe]
      have hk' : x.source env = some b'.hashables.source := by simp [Entry.source, hnx, hbx]
      exact hreceives hk hk'
    | _ => simp [hbe, hbx, Block.hashables] at hb
  | _ => cases hbx : x.block <;> simp_all [Block.hashables]

end Agreement

theorem account_eq_of_opening (H : CollisionFree env U) (he : L.find h = some e)
    (hx : M.find h = some x) (hz : e.previous = 0) : e.account = x.account := by
  have hb := hashables_eq_of_find H he hx
  have hle := L.lawful he
  have hlx := M.lawful hx
  have htype := (L.opening he hz).type
  unfold Entry.Lawful at hle hlx
  cases hbe : e.block with
  | openBlock b => cases hbx : x.block <;> simp_all [Block.hashables]
  | stateBlock b => cases hbx : x.block <;> simp_all [Block.hashables]
  | _ => simp [hbe, Block.type] at htype

theorem alike (H : CollisionFree env U) :
    ∀ (n : Nat) {h : BlockHash} {e x : Entry}, L.find h = some e → M.find h = some x →
      e.time = n → e.Alike x := by
  intro n
  -- what a block depends on is older, and it is in both lattices if the block is
  induction n using Nat.strong_induction_on with
  | _ n ih =>
    intro h e x he hx hn
    by_cases hgen : h = env.genesisHash
    · subst hgen
      cases L.genesis.symm.trans he
      cases M.genesis.symm.trans hx
      exact ⟨rfl, rfl, rfl, rfl, rfl, rfl, rfl, rfl⟩
    have hhash : e.hash = x.hash := (L.keyed he).trans (M.keyed hx).symm
    have hb := hashables_eq_of_find H he hx
    have hprev : e.previous = x.previous := Block.previous_eq_of_hashables_eq hb
    have hbalance : e.previousBalance = x.previousBalance → e.balance = x.balance := by
      intro hpb
      refine balance_eq_of_find H he hx hgen hpb ?_
      intro k hk
      have hk' : x.source env = some k := by
        rw [← hk]
        unfold Entry.source
        rw [hhash]
        cases hbe : e.block <;> cases hbx : x.block <;> simp_all [Block.hashables]
      obtain ⟨q, hq, htime, -, hamount⟩ := L.exists_source he hk
      obtain ⟨q', hq', -, -, hamount'⟩ := M.exists_source hx hk'
      rw [← hamount, ← hamount', (ih q.time (by omega) hq hq' rfl).amount]
    by_cases hz : e.previous = 0
    · have hz' : x.previous = 0 := hprev.symm.trans hz
      have ho := L.opening he hz
      have ho' := M.opening hx hz'
      have hpb := ho.previousBalance.trans ho'.previousBalance.symm
      exact ⟨hhash, hb, account_eq_of_opening H he hx hz, hpb, hbalance hpb,
        by rw [ho.repBlock, ho'.repBlock, hhash], by rw [ho.openBlock, ho'.openBlock, hhash],
        ho.height.trans ho'.height.symm⟩
    · obtain ⟨p, hp, htime, hext⟩ := L.exists_previous he hz
      obtain ⟨p', hp', -, hext'⟩ := M.exists_previous hx (fun hz' => hz (hprev.trans hz'))
      rw [← hprev] at hp'
      have hpp := ih p.time (by omega) hp hp' rfl
      have hpb : e.previousBalance = x.previousBalance := by
        rw [hext.previousBalance, hext'.previousBalance, hpp.balance]
      refine ⟨hhash, hb, ?_, hpb, hbalance hpb, ?_, ?_, ?_⟩
      · rw [hext.account, hext'.account, hpp.account]
      · rw [hext.repBlock, hext'.repBlock, hpp.repBlock, hhash,
          Block.namesRepresentative_eq_of_hashables_eq hb]
      · rw [hext.openBlock, hext'.openBlock, hpp.openBlock]
      · rw [hext.height, hext'.height, hpp.height]

def Nondiverging (L M : BlockLattice env U) : Prop :=
  ∀ a, (∀ {h e}, L.find h = some e → e.account = a → (M.find h).isSome = true) ∨
    ∀ {h e}, M.find h = some e → e.account = a → (L.find h).isSome = true

section Merge

variable (H : CollisionFree env U) (hN : L.Nondiverging M)

include H hN in
theorem Nondiverging.hash_eq {k : BlockHash} (he : L.find h = some e) (hx : M.find k = some x)
    (hacc : e.account = x.account) (hheight : e.height = x.height) : h = k := by
  rcases hN e.account with hL | hM
  · obtain ⟨y, hy⟩ := Option.isSome_iff_exists.mp (hL he rfl)
    have hey := alike H e.time he hy rfl
    have hxy : y = x := M.eq_of_height_eq x.height hy hx (hey.account.symm.trans hacc)
      (hey.height.symm.trans hheight) rfl
    rw [← M.keyed hy, ← M.keyed hx, hxy]
  · obtain ⟨y, hy⟩ := Option.isSome_iff_exists.mp (hM hx hacc.symm)
    have hyx := alike H y.time hy hx rfl
    have hey : e = y := L.eq_of_height_eq e.height he hy (hacc.trans hyx.account.symm) rfl
      (hyx.height.trans hheight.symm)
    rw [← L.keyed he, ← L.keyed hy, hey]

def mergedEntries (L M : BlockLattice env U) (T : Nat) : Table BlockHash Entry :=
  L.entries.overlay (M.entries.mapValues (fun e => e.timed (e.time + T)))

variable {T : Nat}

theorem get_mergedEntries_left (he : L.find h = some e) : (L.mergedEntries M T).get h = some e := by
  rw [mergedEntries, Table.get_overlay, show L.entries.get h = some e from he]
  rfl

theorem get_mergedEntries_right (hL : L.find h = none) (hx : M.find h = some x) :
    (L.mergedEntries M T).get h = some (x.timed (x.time + T)) := by
  rw [mergedEntries, Table.get_overlay, show L.entries.get h = none from hL, Option.none_or,
    Table.get_mapValues, show M.entries.get h = some x from hx]
  rfl

theorem mergedEntries_cases (he : (L.mergedEntries M T).get h = some e) :
    L.find h = some e ∨
      L.find h = none ∧ ∃ x, M.find h = some x ∧ x.timed (x.time + T) = e := by
  cases hL : L.find h with
  | some y =>
    rw [get_mergedEntries_left hL] at he
    exact .inl he
  | none =>
    cases hM : M.find h with
    | some x =>
      rw [get_mergedEntries_right hL hM] at he
      exact .inr ⟨rfl, x, rfl, Option.some.inj he⟩
    | none =>
      rw [mergedEntries, Table.get_overlay, show L.entries.get h = none from hL,
        Option.none_or, Table.get_mapValues, show M.entries.get h = none from hM] at he
      cases he

include H in
theorem exists_merged_before (hT : ∀ {h x}, L.find h = some x → x.time < T)
    {k : BlockHash} {p : Entry} (hp : M.find k = some p) (htime : p.time < x.time) :
    ∃ y, (L.mergedEntries M T).get k = some y ∧ y.Alike p ∧ y.time < x.time + T := by
  cases hL : L.find k with
  | some y =>
    have hlt := hT hL
    exact ⟨y, get_mergedEntries_left hL, alike H y.time hL hp rfl, by omega⟩
  | none =>
    refine ⟨p.timed (p.time + T), get_mergedEntries_right hL hp, ?_, ?_⟩
    · exact ⟨rfl, rfl, rfl, rfl, rfl, rfl, rfl, rfl⟩
    · show p.time + T < x.time + T
      omega

section Mixed

variable {k : BlockHash} (he : L.find h = some e) (hL : L.find k = none)
variable (hx : M.find k = some x)
include H hN he hL hx

theorem not_same_position (hacc : e.account = x.account) (hheight : e.height = x.height) :
    False := by
  simp [hN.hash_eq H he hx hacc hheight, hL] at he

theorem not_both_open (hz : e.previous = 0) (hz' : x.previous = 0)
    (hacc : e.account = x.account) : False :=
  not_same_position H hN he hL hx hacc
    ((L.opening he hz).height.trans (M.opening hx hz').height.symm)

theorem not_both_follow (hne : e.previous ≠ 0) (hprev : e.previous = x.previous) : False := by
  obtain ⟨p, hp, -, hext⟩ := L.exists_previous he hne
  obtain ⟨p', hp', -, hext'⟩ := M.exists_previous hx (fun hz => hne (hprev.trans hz))
  rw [← hprev] at hp'
  have hpp := alike H p.time hp hp' rfl
  refine not_same_position H hN he hL hx ?_ ?_
  · rw [hext.account, hext'.account, hpp.account]
  · rw [hext.height, hext'.height, hpp.height]

theorem not_both_receive {y : BlockHash} (hs : e.source env = some y)
    (hs' : x.source env = some y) : False := by
  obtain ⟨q, hq, -, hdest, -⟩ := L.exists_source he hs
  obtain ⟨q', hq', -, hdest', -⟩ := M.exists_source hx hs'
  have hacc : e.account = x.account := by
    have hqq := (alike H q.time hq hq' rfl).destination
    rw [hdest, hdest'] at hqq
    exact Option.some.inj hqq
  rcases hN e.account with hsub | hsub
  · -- the receiving block of `L` is in `M` as well, where a send is received once
    obtain ⟨z, hz⟩ := Option.isSome_iff_exists.mp (hsub he rfl)
    have hez := alike H e.time he hz rfl
    have hzx := M.no_double_receive hz hx ((hez.source env).symm.trans hs) hs'
    exact not_same_position H hN he hL hx hacc (hez.height.trans (congrArg _ hzx))
  · have hfound := hsub hx hacc.symm
    simp [hL] at hfound

end Mixed

def merge (H : CollisionFree env U) (hN : L.Nondiverging M) {T : Nat}
    (hT : ∀ {h x}, L.find h = some x → x.time < T) : BlockLattice env U where
  entries := L.mergedEntries M T
  keyed := by
    intro h e he
    rcases mergedEntries_cases he with he | ⟨-, x, hx, rfl⟩
    · exact L.keyed he
    · exact (M.keyed hx : x.hash = h)
  hashed := by
    intro h e he
    rcases mergedEntries_cases he with he | ⟨-, x, hx, rfl⟩
    · exact L.hashed he
    · exact (M.hashed hx : x.block.hash env = h)
  known := by
    intro h e he
    rcases mergedEntries_cases he with he | ⟨-, x, hx, rfl⟩
    · exact L.known he
    · exact (M.known hx : x.block ∈ U)
  genesis := get_mergedEntries_left L.genesis
  account_ne_zero := by
    intro h e he
    rcases mergedEntries_cases he with he | ⟨-, x, hx, rfl⟩
    · exact L.account_ne_zero he
    · exact (M.account_ne_zero hx : x.account ≠ 0)
  lawful := by
    intro h e he
    rcases mergedEntries_cases he with he | ⟨-, x, hx, rfl⟩
    · exact L.lawful he
    · exact (M.lawful hx : x.Lawful)
  opening := by
    intro h e he hz
    rcases mergedEntries_cases he with he | ⟨-, x, hx, rfl⟩
    · exact L.opening he hz
    · obtain ⟨h₁, h₂, h₃, h₄, h₅, h₆⟩ := M.opening hx hz
      exact ⟨h₁, h₂, h₃, h₄, h₅, h₆⟩
  chain := by
    intro h e he hne
    rcases mergedEntries_cases he with he | ⟨-, x, hx, rfl⟩
    · obtain ⟨p, hp, htime, hext⟩ := L.chain he hne
      exact ⟨p, get_mergedEntries_left hp, htime, hext⟩
    · obtain ⟨p, hp, htime, h₁, h₂, h₃, h₄, h₅, h₆⟩ := M.chain hx hne
      obtain ⟨y, hy, hyp, hlt⟩ := exists_merged_before H hT hp htime
      refine ⟨y, hy, hlt, ?_⟩
      refine ⟨h₁.trans hyp.account.symm, ?_, h₃.trans hyp.balance.symm, ?_,
        h₅.trans hyp.openBlock.symm, ?_⟩
      · rw [hyp.height]
        exact h₂
      · rw [hyp.repBlock]
        exact h₄
      · rw [Block.isLegacy_eq_of_hashables_eq hyp.hashables]
        exact h₆
  sent := by
    intro h e k he hs
    rcases mergedEntries_cases he with he | ⟨-, x, hx, rfl⟩
    · obtain ⟨q, hq, htime, hrest⟩ := L.sent he hs
      exact ⟨q, get_mergedEntries_left hq, htime, hrest⟩
    · obtain ⟨q, hq, htime, hdest, hamount⟩ := M.sent hx hs
      obtain ⟨y, hy, hyq, hlt⟩ := exists_merged_before H hT hq htime
      exact ⟨y, hy, hlt, hyq.destination.trans hdest, hyq.amount.trans hamount⟩
  open_unique := by
    intro h e h' e' he he' hz hz' hacc
    rcases mergedEntries_cases he with he | ⟨hL, x, hx, rfl⟩ <;>
      rcases mergedEntries_cases he' with he' | ⟨hL', x', hx', rfl⟩
    · exact L.open_unique he he' hz hz' hacc
    · exact (not_both_open H hN he hL' hx' hz hz' hacc).elim
    · exact (not_both_open H hN he' hL hx hz' hz hacc.symm).elim
    · rw [M.open_unique hx hx' hz hz' hacc]
  no_fork := by
    intro h e h' e' he he' hne hprev
    rcases mergedEntries_cases he with he | ⟨hL, x, hx, rfl⟩ <;>
      rcases mergedEntries_cases he' with he' | ⟨hL', x', hx', rfl⟩
    · exact L.no_fork he he' hne hprev
    · exact (not_both_follow H hN he hL' hx' hne hprev).elim
    · exact (not_both_follow H hN he' hL hx (fun hz => hne (hprev.trans hz)) hprev.symm).elim
    · rw [M.no_fork hx hx' hne hprev]
  no_double_receive := by
    intro h e h' e' k he he' hs hs'
    rcases mergedEntries_cases he with he | ⟨hL, x, hx, rfl⟩ <;>
      rcases mergedEntries_cases he' with he' | ⟨hL', x', hx', rfl⟩
    · exact L.no_double_receive he he' hs hs'
    · exact (not_both_receive H hN he hL' hx' hs hs').elim
    · exact (not_both_receive H hN he' hL hx hs' hs).elim
    · rw [M.no_double_receive hx hx' hs hs']

variable (hT : ∀ {h x}, L.find h = some x → x.time < T)

theorem sub_merge : L.Sub (merge H hN hT) := fun he => get_mergedEntries_left he

theorem find_merge_right (hL : L.find h = none) (hx : M.find h = some x) :
    (merge H hN hT).find h = some (x.timed (x.time + T)) :=
  get_mergedEntries_right hL hx

theorem find_merge_cases (he : (merge H hN hT).find h = some e) :
    L.find h = some e ∨ L.find h = none ∧ ∃ x, M.find h = some x ∧ x.timed (x.time + T) = e :=
  mergedEntries_cases he

end Merge

end BlockLattice

end Badem
