import Badem.Refinement.ProcessCases
import Badem.Refinement.RollbackLoops

/-!
# Reachable ledgers hold a lattice

The genesis ledger holds a lattice, processing appends an entry or changes nothing, and rolling
back prunes dependents.  Hence every reachable ledger holds a lattice.
-/

namespace Badem

open Mdb BlockLattice BlockStore

variable {env : Env} {U : Set Block}

section Genesis

variable (H : CollisionFree env U) {h : BlockHash} {e : Entry}

theorem genesisEntry_source (env : Env) : env.genesisEntry.source env = none := by
  rw [Entry.source]
  exact if_pos rfl

theorem genesisEntry_opens (env : Env) : env.genesisEntry.Opens env where
  height := rfl
  previousBalance := rfl
  repBlock := rfl
  openBlock := rfl
  type := .inl rfl
  source := .inl rfl

theorem get_singleton (hget : (Table.empty.put env.genesisHash env.genesisEntry).get h = some e) :
    h = env.genesisHash ∧ e = env.genesisEntry := by
  rw [Table.get_put] at hget
  by_cases hh : h = env.genesisHash
  · simp_all
  · simp [hh] at hget

def genesisLattice (H : CollisionFree env U) : BlockLattice env U where
  entries := Table.empty.put env.genesisHash env.genesisEntry
  keyed := by
    intro h e he
    obtain ⟨rfl, rfl⟩ := get_singleton he
    rfl
  hashed := by
    intro h e he
    obtain ⟨rfl, rfl⟩ := get_singleton he
    rfl
  known := by
    intro h e he
    obtain ⟨rfl, rfl⟩ := get_singleton he
    exact H.genesis
  genesis := Table.get_put_self _ _ _
  account_ne_zero := by
    intro h e he
    obtain ⟨rfl, rfl⟩ := get_singleton he
    exact env.genesisAccount_ne_zero
  lawful := by
    intro h e he
    obtain ⟨rfl, rfl⟩ := get_singleton he
    rfl
  opening := by
    intro h e he _
    obtain ⟨rfl, rfl⟩ := get_singleton he
    exact genesisEntry_opens env
  chain := by
    intro h e he hne
    obtain ⟨rfl, rfl⟩ := get_singleton he
    exact absurd rfl hne
  sent := by
    intro h e x he hs
    obtain ⟨rfl, rfl⟩ := get_singleton he
    simp [genesisEntry_source] at hs
  open_unique := by
    intro h e h' e' he he' _ _ _
    exact (get_singleton he).2.trans (get_singleton he').2.symm
  no_fork := by
    intro h e h' e' he he' _ _
    exact (get_singleton he).2.trans (get_singleton he').2.symm
  no_double_receive := by
    intro h e h' e' x he he' _ _
    exact (get_singleton he).2.trans (get_singleton he').2.symm

theorem find_genesisLattice (h : BlockHash) :
    (genesisLattice H).find h = if h = env.genesisHash then some env.genesisEntry else none := by
  show (Table.empty.put env.genesisHash env.genesisEntry).get h = _
  rw [Table.get_put]
  rfl

theorem find_genesisLattice_eq (he : (genesisLattice H).find h = some e) :
    h = env.genesisHash ∧ e = env.genesisEntry :=
  get_singleton he

theorem child_genesisLattice (hne : h ≠ 0) : (genesisLattice H).child h = none := by
  rw [child_eq_none_iff]
  intro k e he
  obtain ⟨-, rfl⟩ := find_genesisLattice_eq H he
  exact hne.symm

theorem head_genesisLattice (a : Account) :
    (genesisLattice H).head a =
      if a = env.genesisAccount then some env.genesisEntry else none := by
  by_cases ha : a = env.genesisAccount
  · rw [if_pos ha, head_eq_some_iff]
    refine ⟨(genesisLattice H).genesis, ha.symm, child_genesisLattice H ?_⟩
    exact H.nonzero _ H.genesis
  · rw [if_neg ha]
    cases hx : (genesisLattice H).head a with
    | none => rfl
    | some x =>
      obtain ⟨hfind, hacc, -⟩ := (head_eq_some_iff _ _ _).mp hx
      obtain ⟨-, rfl⟩ := find_genesisLattice_eq H hfind
      exact absurd hacc.symm ha

theorem raw_genesisLattice :
    (genesisLattice H).raw =
      linkRaw (fun _ => none) env.genesisHash (.openBlock env.genesisOpen) := by
  have hne : env.genesisHash ≠ 0 := H.nonzero _ H.genesis
  funext k
  unfold linkRaw
  by_cases hk : k = env.genesisHash
  · rw [if_pos hk, hk, raw_of_find _ (genesisLattice H).genesis,
      successor_of_child_none _ (child_genesisLattice H hne)]
    rfl
  · have hfind : (genesisLattice H).find k = none := by
      rw [find_genesisLattice, if_neg hk]
    rw [if_neg hk, raw_of_find_none _ hfind]
    simp

def genesisStore (env : Env) (now : Nat) (db : BlockTables) : BlockStore :=
  { BlockStore.empty.withBlocks db with
    frontiers := Table.empty.put env.genesisHash env.genesisAccount
    accounts := Table.empty.put env.genesisAccount
      { head := env.genesisHash
        repBlock := env.genesisHash
        openBlock := env.genesisHash
        balance := genesisAmount
        modified := now
        blockCount := 1 }
    representation := Table.empty.put env.genesisAccount genesisAmount
    checksum := Table.empty.put 0 env.genesisHash }

theorem blockDatabase_genesisStore (now : Nat) (db : BlockTables) :
    (genesisStore env now db).blockDatabase = db := by
  funext t
  cases t <;> rfl

theorem genesisInitialize_eq (now : Nat) :
    ∃ db : BlockTables,
      genesisInitialize env now .empty = .ok (genesisStore env now db) ∧
      BlockTables.Represents db (genesisLattice H).raw ∧ BlockTables.size db = 1 := by
  have hempty : BlockTables.Represents empty.blockDatabase (fun _ => none) := by
    intro t h
    cases t <;> rfl
  obtain ⟨db, hput, hdb, hsize⟩ := blockPut_spec hempty env
    (b := .openBlock env.genesisOpen) rfl rfl rfl
    (fun _ => .inl rfl) (fun h => absurd rfl h)
  have hsum : ∀ s : BlockStore, s.checksumPut 0 0 env.genesisHash =
      .ok { s with checksum := s.checksum.put 0 env.genesisHash } := by
    intro s
    rw [checksumPut, require_of (by decide)]
    rfl
  refine ⟨db, ?_, ?_, hsize⟩
  · unfold genesisInitialize
    refine bind_eq_of_ok (require_of rfl) ?_
    refine bind_eq_of_ok hput ?_
    refine bind_eq_of_ok (hsum _) ?_
    have hput' : empty.checksum.put 0 env.genesisHash =
        Table.empty.put 0 env.genesisHash := Table.put_put _ _ _ _
    rw [genesisStore, ← hput']
    rfl
  · rw [raw_genesisLattice]
    exact hdb

theorem genesis_refines {now : Nat} {s : BlockStore}
    (hs : genesisInitialize env now .empty = .ok s) :
    Refines (fun _ => 0) s (genesisLattice H) := by
  obtain ⟨db, hinit, hdb, hsize⟩ := genesisInitialize_eq H now
  cases hinit.symm.trans hs
  refine
    { blocks := ?_
      count := ?_
      accounts := ?_
      frontiers := ?_
      pending := ?_
      weights := ?_
      checksum := ?_
      infos := ?_
      sentinel := fun _ => rfl
      supply := ?_ }
  · grind [blockDatabase_genesisStore]
  · rw [blockCount_eq, blockDatabase_genesisStore, hsize]
    rfl
  · intro a
    rw [head_genesisLattice, genesisStore, Table.get_put]
    by_cases ha : a = env.genesisAccount
    · rw [if_pos ha, if_pos ha]
      rfl
    · simp [ha]
  · intro h
    rw [genesisStore, Table.get_put]
    by_cases hh : h = env.genesisHash
    · rw [if_pos hh, hh, frontier_of_find _ (genesisLattice H).genesis, if_pos]
      · rfl
      · exact ⟨rfl, child_genesisLattice H (H.nonzero _ H.genesis)⟩
    · have hfind : (genesisLattice H).find h = none := by
        rw [find_genesisLattice, if_neg hh]
      rw [if_neg hh, frontier_of_find_none _ hfind]
      rfl
  · intro k
    by_cases hk : k.hash = env.genesisHash
    · have hfind : (genesisLattice H).find k.hash = some env.genesisEntry := by
        rw [find_genesisLattice, if_pos hk]
      rw [pendingInfo_of_find _ hfind, if_neg]
      · rfl
      · rintro ⟨hdest, -⟩
        exact absurd hdest (by simp [Entry.destination, Env.genesisEntry])
    · have hfind : (genesisLattice H).find k.hash = none := by
        rw [find_genesisLattice, if_neg hk]
      rw [pendingInfo_of_find_none _ hfind]
      rfl
  · intro r
    have hgain := (genesisLattice H).gain_of_find (genesisLattice H).genesis genesisAmount r
    rw [genesisStore, representationGet, Table.get_put, Table.sum_put, hgain]
    show _ = (if env.genesisAccount = r then genesisAmount else 0) + 0 + 0
    rw [add_zero, add_zero]
    by_cases hr : r = env.genesisAccount
    · simp [hr]
    · rw [if_neg hr, if_neg (fun h => hr h.symm)]
      rfl
  · rw [genesisStore, Table.fold_put (fun x y : Checksum => x ^^^ y)]
    show Table.empty.put 0 env.genesisHash = Table.empty.put 0 (env.genesisHash ^^^ 0)
    simp
  · intro b hb hlegacy
    rw [checkpoint, find_genesisLattice]
    split_ifs
    · rfl
    · rfl
  · rw [genesisStore, Table.sum_put]
    rfl

end Genesis

section Runs

theorem processAll_cons {s s' : BlockStore} {now : Nat} {b : Block} {blocks : List (Nat × Block)}
    (h : Ledger.processAll env s ((now, b) :: blocks) = .ok s') :
    ∃ r s₁, Ledger.process env now s b = .ok (r, s₁) ∧ r.code = .progress ∧
      Ledger.processAll env s₁ blocks = .ok s' := by
  obtain ⟨⟨r, s₁⟩, hrun, hrest⟩ := ok_of_bind h
  obtain ⟨u, hcode, hrest⟩ := ok_of_bind hrest
  exact ⟨r, s₁, hrun, of_require_eq_ok hcode, hrest⟩

theorem Reachable.processAll (blocks : List (Nat × Block)) :
    ∀ {s s' : BlockStore}, Reachable env U s → (∀ x ∈ blocks, x.2 ∈ U) →
      Ledger.processAll env s blocks = .ok s' → Reachable env U s' := by
  induction blocks with
  | nil =>
    intro s s' hs _ hrun
    cases hrun
    exact hs
  | cons x blocks ih =>
    intro s s' hs hU hrun
    obtain ⟨r, s₁, hstep, -, hrest⟩ := processAll_cons hrun
    exact ih (hs.process (hU x (.head _)) hstep)
      (fun y hy => hU y (.tail _ hy)) hrest

end Runs

section Steps

variable (H : CollisionFree env U) (M : MarkerFree env U)
variable {δ : Account → Uint128} {s : BlockStore} {L : BlockLattice env U}

theorem exists_time (L : BlockLattice env U) : ∃ t, ∀ {h x}, L.find h = some x → x.time < t := by
  refine ⟨L.entries.sum (fun _ x => x.time + 1), ?_⟩
  intro h x hx
  exact Table.le_sum_of_get (fun _ x => x.time + 1) hx

theorem process_step_installs (G : ∀ b ∈ U, b.hash env ≠ env.genesisAccount) (now : Nat)
    (hR : Refines δ s L) {b : Block} (hb : b ∈ U) :
    (∃ r, Ledger.process env now s b = .ok (r, s) ∧ r.code ≠ .progress) ∨
      ∃ r s' e, ∃ ha : L.Appendable e, e.block = b ∧
        env.validateMessage e.account e.hash b.blockSignature = false ∧
        Ledger.process env now s b = .ok (r, s') ∧ r.code = .progress ∧
        Refines.Installs H s s' ha := by
  obtain ⟨t, ht⟩ := exists_time L
  rcases process_cases H now hR ht hb with hrej | ⟨e, hblock, -, ha, hsig⟩
  · exact .inl hrej
  · subst hblock
    obtain ⟨r, s', hs', hcode, hi⟩ := process_installs H G now hR ha hsig
    exact .inr ⟨r, s', e, ha, rfl, hsig, hs', hcode, hi⟩

include M in
theorem process_step (now : Nat) (hR : Refines δ s L) {b : Block} (hb : b ∈ U) :
    (∃ r, Ledger.process env now s b = .ok (r, s) ∧ r.code ≠ .progress) ∨
      ∃ r s' e, ∃ ha : L.Appendable e, e.block = b ∧
        env.validateMessage e.account e.hash b.blockSignature = false ∧
        Ledger.process env now s b = .ok (r, s') ∧ r.code = .progress ∧
        Refines δ s' (L.append H e ha) := by
  rcases process_step_installs H M.ne_genesisAccount now hR hb with
    hrej | ⟨r, s', e, ha, hblock, hsig, hs', hcode, hi⟩
  · exact .inl hrej
  · exact .inr ⟨r, s', e, ha, hblock, hsig, hs', hcode, hR.install H hi⟩

def Signed (L : BlockLattice env U) : Prop :=
  ∀ {h e}, L.find h = some e → h ≠ env.genesisHash →
    env.validateMessage e.account h e.block.blockSignature = false

include H M in
theorem Reachable.refines_signed (hs : Reachable env U s) :
    ∃ L : BlockLattice env U, Refines (fun _ => 0) s L ∧ Signed L := by
  induction hs with
  | genesis hinit =>
    refine ⟨genesisLattice H, genesis_refines H hinit, fun he hgen => ?_⟩
    exact absurd (find_genesisLattice_eq H he).1 hgen
  | @process now s s' b r _ hb hrun ih =>
    obtain ⟨L, hR, hsigned⟩ := ih
    rcases process_step H M now hR hb with
      ⟨r', hr', -⟩ | ⟨r', s'', e, ha, rfl, hsig, hr', -, hR'⟩
    · grind
    · cases hr'.symm.trans hrun
      refine ⟨L.append H e ha, hR', fun {h x} hx hgen => ?_⟩
      rw [find_append] at hx
      split_ifs at hx with hh
      · simp_all
      · exact hsigned hx hgen
  | @rollback now s s' hash _ hexists hgen hrun ih =>
    obtain ⟨L, hR, hsigned⟩ := ih
    obtain ⟨e, he⟩ := hR.find_of_exists hexists
    obtain rfl := L.keyed he
    obtain ⟨s'', L', hs'', hR', hprune, -⟩ := rollback_spec H M now hR he hgen
    cases hs''.symm.trans hrun
    exact ⟨L', hR', fun hx hne => hsigned (hprune.sub hx) hne⟩

include H M in
theorem Reachable.refines (hs : Reachable env U s) :
    ∃ L : BlockLattice env U, Refines (fun _ => 0) s L := by
  obtain ⟨L, hR, -⟩ := hs.refines_signed H M
  exact ⟨L, hR⟩

end Steps

end Badem
