import Badem.Upgrades.Layouts

/-!
# Walks of the upgrades

What the loops of the upgrades compute along one chain of the ledger.
-/

namespace Badem

open Mdb BlockLattice BlockStore

variable {env : Env} {U : Set Block} {L : BlockLattice env U} {s : BlockStore}

section Down

variable (hget : ∀ {h e}, L.find h = some e → s.blockGet h = some e.block)
include hget

theorem firstBlock_eq (n : Nat) :
    ∀ {h : BlockHash} {e : Entry}, L.find h = some e → e.height = n → ∀ fuel, n ≤ fuel →
      ∃ b, firstBlock s fuel e.block = .ok b ∧ b.hash env = e.openBlock := by
  induction n with
  | zero =>
    intro h e he hn
    exact absurd (L.height_pos he) (by omega)
  | succ n ih =>
    intro h e he hn fuel hfuel
    obtain ⟨fuel, rfl⟩ : ∃ f, fuel = f + 1 := ⟨fuel - 1, by omega⟩
    rw [firstBlock]
    by_cases hz : e.block.previous = 0
    · refine ⟨e.block, if_neg (not_not_intro hz), ?_⟩
      rw [L.hashed he, (L.opening he hz).openBlock, L.keyed he]
    · obtain ⟨p, hp, -, hext⟩ := L.exists_previous he hz
      rw [Entry.previous] at hp
      rw [if_pos hz, hget hp, deref_some, ok_bind, hext.openBlock]
      exact ih hp (by have := hext.height; omega) fuel (by omega)

theorem countBlocks_eq (H : CollisionFree env U) (n : Nat) :
    ∀ {h : BlockHash} {e : Entry}, L.find h = some e → e.height = n → ∀ fuel count, n < fuel →
      countBlocks s fuel h count = .ok (count + n) := by
  induction n with
  | zero =>
    intro h e he hn
    exact absurd (L.height_pos he) (by omega)
  | succ n ih =>
    intro h e he hn fuel count hfuel
    obtain ⟨fuel, rfl⟩ : ∃ f, fuel = f + 1 := ⟨fuel - 1, by omega⟩
    rw [countBlocks, if_pos (L.hash_ne_zero H he), hget he, expect_some, ok_bind]
    by_cases hz : e.block.previous = 0
    · obtain ⟨fuel, rfl⟩ : ∃ f, fuel = f + 1 := ⟨fuel - 1, by omega⟩
      have hone := (L.opening he hz).height
      rw [countBlocks, hz, if_neg (not_not_intro rfl)]
      congr 1
      omega
    · obtain ⟨p, hp, -, hext⟩ := L.exists_previous he hz
      rw [Entry.previous] at hp
      rw [ih hp (by have := hext.height; omega) fuel (count + 1) (by omega)]
      congr 1
      omega

end Down

section Successors

variable {h k : BlockHash} {e : Entry} {kept : BlockHash → Bool}

theorem successor_previous (he : L.find h = some e)
    (hne : e.previous ≠ 0) : L.successor e.previous = h := by
  have hchild := (L.child_eq_some_iff hne e).mpr ⟨L.find_hash he, rfl⟩
  rw [L.successor_of_child hchild, L.keyed he]

theorem blockSuccessor_rawKeeping (hr : BlockTables.Represents s.blockDatabase (L.rawKeeping kept))
    (he : L.find h = some e) : s.blockSuccessor h = if kept h = true then L.successor h else 0 := by
  rw [blockSuccessor_eq hr, rawKeeping, raw_of_find L he]
  unfold StoredBlock.keeping
  split_ifs <;> rfl

theorem rawKeeping_of_kept (h : kept k = true) : L.rawKeeping kept k = L.raw k := by
  rw [rawKeeping, h]
  cases L.raw k <;> rfl

theorem rawKeeping_mono {kept' : BlockHash → Bool} (h : kept k = true → kept' k = true)
    (hk : L.rawKeeping kept k = L.raw k) : L.rawKeeping kept' k = L.raw k := by
  cases hk' : kept' k with
  | true => exact rawKeeping_of_kept hk'
  | false =>
    have hnot : kept k = false := by
      cases hkept : kept k with
      | true => exact (h hkept).symm.trans hk'
      | false => rfl
    rw [rawKeeping, hk', ← hnot]
    exact hk

variable (H : CollisionFree env U)
include H

theorem putRaw_rawKeeping (kept : BlockHash → Bool) (he : L.find h = some e) :
    putRaw (L.rawKeeping kept) h e.block (L.successor h) =
      L.rawKeeping (fun k => kept k || decide (k = h ∨ k = e.previous)) := by
  funext k
  unfold putRaw rawKeeping
  by_cases hk : k = h
  · simp [hk, raw_of_find L he]
  · rw [if_neg hk]
    by_cases hp : k = e.previous
    · by_cases hz : k = 0
      · rw [if_neg (fun hand => hand.2 hz), hz, raw_of_find_none L (L.find_zero H)]
        rfl
      · obtain ⟨p, hfind, -⟩ := L.exists_previous he (by rw [← hp]; exact hz)
        rw [if_pos ⟨hp, hz⟩, hp, raw_of_find L hfind,
          successor_previous he (by rw [← hp]; exact hz)]
        simp only [StoredBlock.keeping, Option.map_some]
        split_ifs <;> simp_all
    · rw [if_neg (fun hand => hp hand.1)]
      simp [hk, hp]

theorem blockPut_rawKeeping (hr : BlockTables.Represents s.blockDatabase (L.rawKeeping kept))
    (he : L.find h = some e) (hsucc : L.successor h ≠ 0) :
    ∃ db : BlockTables, s.blockPut env h e.block (L.successor h) = .ok (s.withBlocks db) ∧
      db.Represents (L.rawKeeping (fun k => kept k || decide (k = h ∨ k = e.previous))) ∧
      db.size = BlockTables.size s.blockDatabase := by
  have hstored : ∀ {k x}, L.find k = some x →
      L.rawKeeping kept k = some (StoredBlock.keeping (kept k) ⟨x.block, L.successor k⟩) := by
    intro k x hx
    rw [rawKeeping, raw_of_find L hx]
    rfl
  have hnext : (L.rawKeeping kept (L.successor h)).isSome = true := by
    cases hc : L.child h with
    | none => exact absurd (L.successor_of_child_none hc) hsucc
    | some c =>
      have hfind := ((L.child_eq_some_iff (L.hash_ne_zero H he) c).mp hc).1
      rw [L.successor_of_child hc, hstored hfind]
      rfl
  obtain ⟨db, hput, hrep, hsize⟩ := blockPut_putRaw hr env (L.successor h)
    (.inr hnext)
    (by
      intro w hw
      rw [hstored he] at hw
      rw [← Option.some.inj hw, StoredBlock.block_keeping])
    (L.hashed he) (fun hz => (L.opening he hz).type)
    (by
      intro hne
      obtain ⟨p, hp, htime, -⟩ := L.exists_previous he hne
      refine ⟨?_, _, hstored hp⟩
      rintro hself
      rw [Entry.previous, hself, he] at hp
      rw [Option.some.inj hp] at htime
      exact lt_irrefl _ htime)
  rw [hstored he] at hsize
  exact ⟨db, hput, by rwa [putRaw_rawKeeping H kept he] at hrep, hsize⟩

theorem exists_fillSuccessor
    (hr : BlockTables.Represents s.blockDatabase (L.rawKeeping kept)) (he : L.find h = some e) :
    ∃ (kept' : BlockHash → Bool) (db : BlockTables),
      (if s.blockSuccessor h = 0 ∧ L.successor h ≠ 0 then
        s.blockPut env h e.block (L.successor h)
      else pure s) = .ok (s.withBlocks db) ∧
      db.Represents (L.rawKeeping kept') ∧ db.size = BlockTables.size s.blockDatabase ∧
      (∀ {k}, kept k = true → kept' k = true) ∧ L.rawKeeping kept' h = L.raw h := by
  by_cases hc : s.blockSuccessor h = 0 ∧ L.successor h ≠ 0
  · obtain ⟨db, hput, hrep, hsize⟩ := blockPut_rawKeeping H hr he hc.2
    refine ⟨_, db, (if_pos hc).trans hput, hrep, hsize, ?_, rawKeeping_of_kept (by simp)⟩
    intro k hk
    simp [hk]
  · refine ⟨kept, s.blockDatabase, if_neg hc, hr, rfl, id, ?_⟩
    rw [blockSuccessor_rawKeeping hr he] at hc
    cases hk : kept h with
    | true => exact rawKeeping_of_kept hk
    | false =>
      -- nothing is missing since there is no successor
      have hzero : L.successor h = 0 := by
        by_contra hne
        exact hc ⟨by simp [hk], hne⟩
      rw [rawKeeping, hk, raw_of_find L he, hzero]
      rfl

theorem fillSuccessors_spec (n : Nat) :
    ∀ {h : BlockHash} {e : Entry}, L.find h = some e → e.height = n →
      ∀ (fuel : Nat) (kept : BlockHash → Bool) (s : BlockStore), n < fuel →
      BlockTables.Represents s.blockDatabase (L.rawKeeping kept) →
      ∃ (kept' : BlockHash → Bool) (db : BlockTables),
        fillSuccessors env fuel (L.successor h) (some e.block) s = .ok (s.withBlocks db) ∧
        db.Represents (L.rawKeeping kept') ∧ db.size = BlockTables.size s.blockDatabase ∧
        (∀ {k}, L.rawKeeping kept k = L.raw k → L.rawKeeping kept' k = L.raw k) ∧
        ∀ {k x}, L.find k = some x → x.account = e.account → x.height ≤ n →
          L.rawKeeping kept' k = L.raw k := by
  induction n with
  | zero =>
    intro h e he hn
    exact absurd (L.height_pos he) (by omega)
  | succ n ih =>
    intro h e he hn fuel kept s hfuel hr
    obtain ⟨fuel, rfl⟩ : ∃ f, fuel = f + 1 := ⟨fuel - 1, by omega⟩
    obtain ⟨kept₁, db₁, hput, hr₁, hsize₁, hmono, hself⟩ := exists_fillSuccessor H hr he
    have hr₁' : BlockTables.Represents (s.withBlocks db₁).blockDatabase (L.rawKeeping kept₁) := by
      rwa [blockDatabase_withBlocks]
    have hsame : ∀ {k x}, L.find k = some x → x.account = e.account → x.height = n + 1 →
        k = h := by
      intro k x hx hacc hheight
      rw [← L.keyed hx, ← L.keyed he, L.eq_of_height_eq (n + 1) hx he hacc hheight hn]
    rw [fillSuccessors, L.hashed he]
    simp only [hput, ok_bind]
    by_cases hz : e.previous = 0
    · obtain ⟨fuel, rfl⟩ : ∃ f, fuel = f + 1 := ⟨fuel - 1, by omega⟩
      have hone := (L.opening he hz).height
      have hnone : (s.withBlocks db₁).blockGet e.block.previous = none := by
        rw [blockGet_eq hr₁', ← Entry.previous, hz, rawKeeping,
          raw_of_find_none L (L.find_zero H)]
        rfl
      refine ⟨kept₁, db₁, ?_, hr₁, hsize₁, rawKeeping_mono hmono, ?_⟩
      · rw [hnone, fillSuccessors]
      · intro k x hx hacc hheight
        have hpos := L.height_pos hx
        rw [hsame hx hacc (by omega)]
        exact hself
    · obtain ⟨p, hp, -, hext⟩ := L.exists_previous he hz
      have hheight := hext.height
      have hget : (s.withBlocks db₁).blockGet e.block.previous = some p.block := by
        rw [blockGet_eq hr₁', ← Entry.previous, rawKeeping, raw_of_find L hp]
        simp
      obtain ⟨kept₂, db₂, hfill, hr₂, hsize₂, hmono₂, hdone⟩ :=
        ih hp (by omega) fuel kept₁ (s.withBlocks db₁) (by omega) hr₁'
      rw [successor_previous he hz] at hfill
      rw [blockDatabase_withBlocks] at hsize₂
      refine ⟨kept₂, db₂, ?_, hr₂, hsize₂.trans hsize₁, ?_, ?_⟩
      · rw [hget, hfill, withBlocks_withBlocks]
      · intro k hk
        exact hmono₂ (rawKeeping_mono hmono hk)
      · intro k x hx hacc hle
        by_cases htop : x.height = n + 1
        · simp_all
        · exact hdone hx (hacc.trans hext.account) (by omega)

end Successors

section Infos

def InfosOf (L : BlockLattice env U) (P : Entry → Prop) (t : Table BlockHash BlockInfo) : Prop :=
  ∀ h i, t.get h = some i ↔ ∃ e, L.find h = some e ∧ P e ∧ L.checkpoint h = some i

variable {P : Entry → Prop} {t : Table BlockHash BlockInfo} {h : BlockHash} {e : Entry}

theorem InfosOf.congr {Q : Entry → Prop} (ht : InfosOf L P t)
    (h : ∀ {k e}, L.find k = some e → e.height % blockInfoMax = 0 → (P e ↔ Q e)) :
    InfosOf L Q t := by
  intro k i
  rw [ht k i]
  constructor
  · rintro ⟨e, he, hP, hi⟩
    exact ⟨e, he, (h he ((L.checkpoint_eq_some_iff he i).mp hi).1).mp hP, hi⟩
  · rintro ⟨e, he, hQ, hi⟩
    exact ⟨e, he, (h he ((L.checkpoint_eq_some_iff he i).mp hi).1).mpr hQ, hi⟩

theorem InfosOf.put (ht : InfosOf L P t) (he : L.find h = some e)
    (hheight : e.height % blockInfoMax = 0) :
    InfosOf L (fun x => P x ∨ x = e) (t.put h ⟨e.account, e.balance⟩) := by
  intro k i
  rw [Table.get_put]
  by_cases hk : k = h
  · subst hk
    rw [if_pos rfl]
    constructor
    · rintro hi
      cases hi
      exact ⟨e, he, .inr rfl, (L.checkpoint_eq_some_iff he _).mpr ⟨hheight, rfl, rfl⟩⟩
    · rintro ⟨x, -, -, hi⟩
      obtain ⟨-, hacc, hbal⟩ := (L.checkpoint_eq_some_iff he i).mp hi
      rw [hacc, hbal]
  · rw [if_neg hk, ht k i]
    constructor
    · rintro ⟨x, hx, hP, hi⟩
      exact ⟨x, hx, .inl hP, hi⟩
    · rintro ⟨x, hx, hP | rfl, hi⟩
      · exact ⟨x, hx, hP, hi⟩
      · exact absurd ((L.keyed hx).symm.trans (L.keyed he)) hk

variable (G : ∀ b ∈ U, b.hash env ≠ env.genesisAccount)
include G

theorem InfosOf.reads (hinfos : InfosOf L P s.blocksInfo)
    (hr : BlockTables.Represents s.blockDatabase L.raw) (hcount : s.blockCount = L.entries.size) :
    Reads s L where
  blocks := blockGet_of_represents L hr
  infos := by
    intro h e i he _ hi
    obtain ⟨x, hx, -, hcheck⟩ := (hinfos h i).mp hi
    exact ((L.checkpoint_eq_some_iff he i).mp hcheck).2.2.symm
  marker := by
    rw [blockGet_eq hr, raw_of_find_none L (find_genesisAccount G L)]
    rfl
  size := le_of_eq hcount.symm

variable (H : CollisionFree env U)
include H

theorem exists_storeInfo (he : L.find h = some e)
    (hr : BlockTables.Represents s.blockDatabase L.raw) (hcount : s.blockCount = L.entries.size)
    (hinfos : InfosOf L P s.blocksInfo) :
    ∃ t,
      (if e.height % blockInfoMax = 0 then do
        let balance ← Ledger.balance env s h
        pure (s.blockInfoPut h ⟨e.account, balance⟩)
      else pure s) = .ok { s with blocksInfo := t } ∧
      InfosOf L (fun x => P x ∨ x = e) t := by
  by_cases hheight : e.height % blockInfoMax = 0
  · rw [if_pos hheight, balance_eq H (hinfos.reads G hr hcount) he]
    exact ⟨_, rfl, hinfos.put he hheight⟩
  · refine ⟨s.blocksInfo, if_neg hheight, hinfos.congr ?_⟩
    intro k x hx hmod
    constructor
    · exact Or.inl
    · rintro (hP | rfl)
      · exact hP
      · exact absurd hmod hheight

theorem storeInfos_spec (fuel : Nat) :
    ∀ {h : BlockHash} {e : Entry} {P : Entry → Prop} (s : BlockStore), L.find h = some e →
      L.entries.size + 2 ≤ fuel + e.height →
      BlockTables.Represents s.blockDatabase L.raw → s.blockCount = L.entries.size →
      InfosOf L P s.blocksInfo →
      ∃ t, storeInfos env e.account fuel e.height h s = .ok { s with blocksInfo := t } ∧
        InfosOf L (fun x => P x ∨ x.account = e.account ∧ e.height ≤ x.height) t := by
  induction fuel with
  | zero =>
    intro h e P s he hfuel
    have hle := L.height_le_size he
    omega
  | succ fuel ih =>
    intro h e P s he hfuel hr hcount hinfos
    have hle := L.height_le_size he
    obtain ⟨t, hput, ht⟩ := exists_storeInfo G H he hr hcount hinfos
    have hsucc : ({ s with blocksInfo := t } : BlockStore).blockSuccessor h = L.successor h := by
      have hr' : BlockTables.Represents
          ({ s with blocksInfo := t } : BlockStore).blockDatabase L.raw := hr
      rw [blockSuccessor_eq hr', raw_of_find L he]
      rfl
    rw [storeInfos, if_pos (L.hash_ne_zero H he)]
    simp only [hput, ok_bind, hsucc]
    cases hc : L.child h with
    | none =>
      obtain ⟨fuel, rfl⟩ : ∃ f, fuel = f + 1 := ⟨fuel - 1, by omega⟩
      rw [L.successor_of_child_none hc, storeInfos, if_neg (not_not_intro rfl)]
      refine ⟨t, rfl, ht.congr ?_⟩
      intro k x hx _
      refine or_congr_right ⟨?_, ?_⟩
      · rintro rfl
        exact ⟨rfl, le_rfl⟩
      · rintro ⟨hacc, hheight⟩
        rcases Nat.lt_or_eq_of_le hheight with hlt | heq
        · obtain ⟨c, hfind, hprev, -⟩ :=
            L.exists_child_of_height_lt x.height he hx hacc.symm rfl hlt
          rw [L.keyed he] at hprev
          exact absurd hprev ((L.child_eq_none_iff h).mp hc c.hash c hfind)
        · exact L.eq_of_height_eq e.height hx he hacc heq.symm rfl
    | some c =>
      obtain ⟨hfind, hprev⟩ := (L.child_eq_some_iff (L.hash_ne_zero H he) c).mp hc
      obtain ⟨p, hp, -, hext⟩ := L.exists_previous hfind (by
        rw [hprev]
        exact L.hash_ne_zero H he)
      rw [hprev, he] at hp
      cases hp
      obtain ⟨t', hrun, ht'⟩ := ih { s with blocksInfo := t } hfind (by
        have := hext.height
        omega) hr hcount ht
      rw [L.successor_of_child hc, ← hext.height, ← hext.account]
      refine ⟨t', hrun, ht'.congr ?_⟩
      intro k x hx _
      rw [or_assoc, hext.height]
      refine or_congr_right ⟨?_, ?_⟩
      · rintro (rfl | ⟨hacc, hheight⟩)
        · exact ⟨hext.account.symm, le_rfl⟩
        · exact ⟨hacc, by omega⟩
      · rintro ⟨hacc, hheight⟩
        rcases Nat.lt_or_eq_of_le hheight with hlt | heq
        · exact .inr ⟨hacc, hlt⟩
        · exact .inl (L.eq_of_height_eq e.height hx he (hacc.trans hext.account) heq.symm rfl)

end Infos

end Badem
