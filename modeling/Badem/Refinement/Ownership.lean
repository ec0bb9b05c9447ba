import Badem.Refinement.RollbackEdits

/-!
# Owners of blocks

The block at the bottom of a chain names its account, and every block above belongs to the
account of its previous block.  What the tables say about accounts agrees with these owners, as
long as hashes do not collide and none is 0 or 1; nothing is assumed about the amounts.
-/

namespace Badem

open Mdb

theorem Block.namedAccount_eq_of_hashables_eq {b b' : Block} (h : b.hashables = b'.hashables) :
    b.namedAccount = b'.namedAccount := by
  cases b <;> cases b' <;> simp_all [hashables, namedAccount]

/-- The account that a block belongs to, and its height in the chain of the account. -/
inductive Owner (env : Env) (U : Set Block) : BlockHash → Account → Nat → Prop
  | first {b : Block} {a : Account} :
      b ∈ U →
      b.previous = 0 →
      b.namedAccount = some a →
      Owner env U (b.hash env) a 1
  | next {b : Block} {a : Account} {n : Nat} :
      b ∈ U →
      b.previous ≠ 0 →
      (∀ a', b.namedAccount = some a' → a' = a) →
      Owner env U b.previous a n →
      Owner env U (b.hash env) a (n + 1)

namespace Owner

variable {env : Env} {U : Set Block} {h : BlockHash} {a a' : Account} {n n' : Nat} {b : Block}

theorem exists_block (ho : Owner env U h a n) : ∃ b ∈ U, b.hash env = h := by
  cases ho with
  | first hb _ _ => exact ⟨_, hb, rfl⟩
  | next hb _ _ _ => exact ⟨_, hb, rfl⟩

theorem pos (ho : Owner env U h a n) : 0 < n := by
  cases ho with
  | first _ _ _ => exact Nat.one_pos
  | next _ _ _ _ => exact Nat.succ_pos _

theorem bottom (H : CollisionFree env U) (hb : b ∈ U) (hz : b.previous = 0)
    (ho : Owner env U (b.hash env) a n) : n = 1 ∧ b.namedAccount = some a := by
  generalize hk : b.hash env = k at ho
  cases ho with
  | first hb' _ hname =>
    rw [Block.namedAccount_eq_of_hashables_eq (H.injective _ hb _ hb' hk)]
    exact ⟨rfl, hname⟩
  | next hb' hne _ _ =>
    rw [Block.previous_eq_of_hashables_eq (H.injective _ hb _ hb' hk)] at hz
    exact absurd hz hne

theorem previous (H : CollisionFree env U) (hb : b ∈ U) (hne : b.previous ≠ 0)
    (ho : Owner env U (b.hash env) a n) : ∃ m, n = m + 1 ∧ Owner env U b.previous a m := by
  generalize hk : b.hash env = k at ho
  cases ho with
  | first hb' hz _ =>
    rw [Block.previous_eq_of_hashables_eq (H.injective _ hb _ hb' hk)] at hne
    exact absurd hz hne
  | next hb' _ _ hprev =>
    rw [Block.previous_eq_of_hashables_eq (H.injective _ hb _ hb' hk)]
    exact ⟨_, rfl, hprev⟩

theorem named (H : CollisionFree env U) (hb : b ∈ U)
    (ho : Owner env U (b.hash env) a n) (hname : b.namedAccount = some a') : a' = a := by
  generalize hk : b.hash env = k at ho
  cases ho with
  | first hb' _ hname' =>
    rw [Block.namedAccount_eq_of_hashables_eq (H.injective _ hb _ hb' hk), hname'] at hname
    exact (Option.some.inj hname).symm
  | next hb' _ hnames _ =>
    rw [Block.namedAccount_eq_of_hashables_eq (H.injective _ hb _ hb' hk)] at hname
    exact hnames a' hname

theorem unique (H : CollisionFree env U) (ho : Owner env U h a n) (ho' : Owner env U h a' n') :
    a' = a ∧ n' = n := by
  induction ho generalizing n' with
  | first hb hz hname =>
    obtain ⟨rfl, hname'⟩ := ho'.bottom H hb hz
    exact ⟨Option.some.inj (hname'.symm.trans hname), rfl⟩
  | next hb hne _ _ ih =>
    obtain ⟨m, rfl, hprev⟩ := ho'.previous H hb hne
    obtain ⟨rfl, rfl⟩ := ih hprev
    exact ⟨rfl, rfl⟩

end Owner

/-- The stored blocks form chains that are linked in both directions. -/
structure StoredChains (env : Env) (U : Set Block) (R : BlockHash → Option StoredBlock) :
    Prop where
  known : ∀ {h v}, R h = some v → v.block ∈ U ∧ v.block.hash env = h
  owner : ∀ {h v}, R h = some v → ∃ a n, Owner env U h a n ∧ a ≠ 0
  previous : ∀ {h v}, R h = some v → v.block.previous ≠ 0 →
    ∃ w, R v.block.previous = some w ∧ w.successor = h
  successor : ∀ {h v}, R h = some v → v.successor ≠ 0 →
    ∃ w, R v.successor = some w ∧ w.block.previous = h

/-- The function after the last block of a chain has been removed. -/
def unlinkRaw (R : BlockHash → Option StoredBlock) (hash : BlockHash) (b : Block) :
    BlockHash → Option StoredBlock :=
  fun k =>
    if k = hash then none
    else if k = b.previous then (R k).map (fun v => { v with successor := 0 })
    else R k

/-- Blocks have been removed, and of the others none has got a successor. -/
def Shrinks (R R' : BlockHash → Option StoredBlock) : Prop :=
  ∀ h v', R' h = some v' → ∃ v, R h = some v ∧ v'.block = v.block ∧
    (v.successor = 0 → v'.successor = 0)

section Raw

variable {R R' R'' : BlockHash → Option StoredBlock} {hash k : BlockHash} {b : Block}
variable {v w : StoredBlock}

theorem linkRaw_cases (hv : BlockStore.linkRaw R hash b k = some v) :
    (k = hash ∧ v = ⟨b, 0⟩) ∨
      (k ≠ hash ∧ k = b.previous ∧ ∃ w, R k = some w ∧ v = { w with successor := hash }) ∨
      (k ≠ hash ∧ k ≠ b.previous ∧ R k = some v) := by
  unfold BlockStore.linkRaw at hv
  by_cases hk : k = hash
  · simp_all
  · rw [if_neg hk] at hv
    by_cases hp : k = b.previous
    · rw [if_pos hp] at hv
      obtain ⟨w, hw, hwv⟩ := Option.map_eq_some_iff.mp hv
      exact .inr (.inl ⟨hk, hp, w, hw, hwv.symm⟩)
    · simp_all

theorem linkRaw_self : BlockStore.linkRaw R hash b hash = some ⟨b, 0⟩ := if_pos rfl

theorem linkRaw_previous (hne : b.previous ≠ hash) (hw : R b.previous = some w) :
    BlockStore.linkRaw R hash b b.previous = some { w with successor := hash } := by
  rw [BlockStore.linkRaw, if_neg hne, if_pos rfl, hw]
  rfl

theorem linkRaw_of_ne (hne : k ≠ hash) (hp : k ≠ b.previous) :
    BlockStore.linkRaw R hash b k = R k := by
  rw [BlockStore.linkRaw, if_neg hne, if_neg hp]

theorem exists_linkRaw (hw : R k = some w) : ∃ v, BlockStore.linkRaw R hash b k = some v := by
  unfold BlockStore.linkRaw
  rw [hw]
  split_ifs
  · exact ⟨_, rfl⟩
  · exact ⟨_, rfl⟩
  · exact ⟨_, rfl⟩

theorem block_of_linkRaw (hne : k ≠ hash) (hv : BlockStore.linkRaw R hash b k = some v) :
    ∃ w, R k = some w ∧ v.block = w.block := by
  rcases linkRaw_cases hv with ⟨hk, -⟩ | ⟨-, -, w, hw, rfl⟩ | ⟨-, -, hw⟩
  · exact absurd hk hne
  · exact ⟨w, hw, rfl⟩
  · exact ⟨v, hw, rfl⟩

theorem unlinkRaw_cases (hv : unlinkRaw R hash b k = some v) :
    k ≠ hash ∧ ((k = b.previous ∧ ∃ w, R k = some w ∧ v = { w with successor := 0 }) ∨
      (k ≠ b.previous ∧ R k = some v)) := by
  unfold unlinkRaw at hv
  by_cases hk : k = hash
  · simp [hk] at hv
  · rw [if_neg hk] at hv
    refine ⟨hk, ?_⟩
    by_cases hp : k = b.previous
    · rw [if_pos hp] at hv
      obtain ⟨w, hw, hwv⟩ := Option.map_eq_some_iff.mp hv
      exact .inl ⟨hp, w, hw, hwv.symm⟩
    · simp_all

theorem unlinkRaw_previous (hne : b.previous ≠ hash) (hw : R b.previous = some w) :
    unlinkRaw R hash b b.previous = some { w with successor := 0 } := by
  rw [unlinkRaw, if_neg hne, if_pos rfl, hw]
  rfl

theorem unlinkRaw_of_ne (hne : k ≠ hash) (hp : k ≠ b.previous) : unlinkRaw R hash b k = R k := by
  rw [unlinkRaw, if_neg hne, if_neg hp]

theorem exists_unlinkRaw (hne : k ≠ hash) (hw : R k = some w) :
    ∃ v, unlinkRaw R hash b k = some v := by
  unfold unlinkRaw
  rw [if_neg hne, hw]
  split_ifs
  · exact ⟨_, rfl⟩
  · exact ⟨_, rfl⟩

theorem shrinks_unlinkRaw : Shrinks R (unlinkRaw R hash b) := by
  intro k v hv
  obtain ⟨-, ⟨-, w, hw, rfl⟩ | ⟨-, hw⟩⟩ := unlinkRaw_cases hv
  · exact ⟨w, hw, rfl, fun _ => rfl⟩
  · exact ⟨v, hw, rfl, id⟩

theorem Shrinks.refl (R : BlockHash → Option StoredBlock) : Shrinks R R :=
  fun _ v hv => ⟨v, hv, rfl, id⟩

theorem Shrinks.trans (h : Shrinks R R') (h' : Shrinks R' R'') : Shrinks R R'' := by
  intro k v hv
  obtain ⟨w, hw, hblock, hsucc⟩ := h' k v hv
  obtain ⟨x, hx, hblock', hsucc'⟩ := h k w hw
  exact ⟨x, hx, hblock.trans hblock', fun hz => hsucc (hsucc' hz)⟩

end Raw

namespace StoredChains

variable {env : Env} {U : Set Block} {R : BlockHash → Option StoredBlock}
variable {hash h : BlockHash} {b : Block} {v : StoredBlock} {a : Account} {n : Nat}

theorem zero (H : CollisionFree env U) (hR : StoredChains env U R) : R 0 = none := by
  cases hv : R 0 with
  | none => rfl
  | some v =>
    obtain ⟨hU, hhash⟩ := hR.known hv
    exact absurd hhash (H.nonzero _ hU)

theorem hash_ne_zero (H : CollisionFree env U) (hR : StoredChains env U R) (hv : R h = some v) :
    h ≠ 0 := by
  rintro rfl
  rw [hR.zero H] at hv
  cases hv

theorem opening (H : CollisionFree env U) (hR : StoredChains env U R) (hv : R h = some v)
    (hz : v.block.previous = 0) : v.block.type = .opening ∨ v.block.type = .state := by
  obtain ⟨hU, rfl⟩ := hR.known hv
  obtain ⟨a, n, ho, -⟩ := hR.owner hv
  obtain ⟨-, hname⟩ := ho.bottom H hU hz
  generalize v.block = c at hname
  cases c <;> simp_all [Block.namedAccount, Block.type]

theorem previous_ne (H : CollisionFree env U) (hR : StoredChains env U R) (hv : R h = some v) :
    v.block.previous ≠ h := by
  intro heq
  have hne : v.block.previous ≠ 0 := by
    rw [heq]
    exact hR.hash_ne_zero H hv
  obtain ⟨hU, hhash⟩ := hR.known hv
  obtain ⟨a, n, ho, -⟩ := hR.owner hv
  rw [← hhash] at ho
  obtain ⟨m, hm, hprev⟩ := ho.previous H hU hne
  rw [heq, ← hhash] at hprev
  have := (ho.unique H hprev).2
  omega

theorem owner_successor (H : CollisionFree env U) (hR : StoredChains env U R)
    (hv : R h = some v) (ho : Owner env U h a n) (hne : v.successor ≠ 0) :
    ∃ w, R v.successor = some w ∧ Owner env U v.successor a (n + 1) := by
  obtain ⟨w, hw, hprev⟩ := hR.successor hv hne
  obtain ⟨hU, hhash⟩ := hR.known hw
  obtain ⟨a', n', ho', -⟩ := hR.owner hw
  rw [← hhash] at ho'
  obtain ⟨m, rfl, hbelow⟩ := ho'.previous H hU (by
    rw [hprev]
    exact hR.hash_ne_zero H hv)
  rw [hprev] at hbelow
  obtain ⟨rfl, rfl⟩ := ho.unique H hbelow
  rw [hhash] at ho'
  exact ⟨w, hw, ho'⟩

theorem exists_below (H : CollisionFree env U) (hR : StoredChains env U R) :
    ∀ {n h v}, R h = some v → Owner env U h a n →
      ∃ l : List BlockHash, l.length = n ∧ l.Nodup ∧ (∀ k ∈ l, ∃ w, R k = some w) ∧
        ∀ k ∈ l, ∃ m ≤ n, Owner env U k a m := by
  intro n
  induction n with
  | zero =>
    intro h v _ ho
    exact absurd ho.pos (Nat.lt_irrefl 0)
  | succ n ih =>
    intro h v hv ho
    obtain ⟨hU, hhash⟩ := hR.known hv
    by_cases hz : v.block.previous = 0
    · obtain ⟨hone, -⟩ := Owner.bottom H hU hz (by rw [hhash]; exact ho)
      refine ⟨[h], by simp; omega, List.nodup_singleton h, ?_, ?_⟩
      · intro k hk
        rw [List.mem_singleton.mp hk]
        exact ⟨v, hv⟩
      · intro k hk
        rw [List.mem_singleton.mp hk]
        exact ⟨n + 1, le_refl _, ho⟩
    · obtain ⟨m, hm, hprev⟩ := Owner.previous H hU hz (by rw [hhash]; exact ho)
      obtain rfl : n = m := by omega
      obtain ⟨w, hw, -⟩ := hR.previous hv hz
      obtain ⟨l, hlen, hnodup, hstored, howners⟩ := ih hw hprev
      refine ⟨h :: l, by simp [hlen], List.nodup_cons.mpr ⟨?_, hnodup⟩, ?_, ?_⟩
      · intro hmem
        obtain ⟨m, hle, hom⟩ := howners h hmem
        have := (ho.unique H hom).2
        omega
      · intro k hk
        rcases List.mem_cons.mp hk with rfl | hk
        · exact ⟨v, hv⟩
        · exact hstored k hk
      · intro k hk
        rcases List.mem_cons.mp hk with rfl | hk
        · exact ⟨n + 1, le_refl _, ho⟩
        · obtain ⟨m, hle, hom⟩ := howners k hk
          exact ⟨m, by omega, hom⟩

theorem link (H : CollisionFree env U) (hR : StoredChains env U R) (hb : b ∈ U)
    (hhash : b.hash env = hash) (hfresh : R hash = none) (ho : Owner env U hash a n) (ha : a ≠ 0)
    (hprev : b.previous ≠ 0 → ∃ w, R b.previous = some w ∧ w.successor = 0) :
    StoredChains env U (BlockStore.linkRaw R hash b) := by
  have hne : ∀ {k w}, R k = some w → k ≠ hash := by
    rintro k w hw rfl
    simp [hfresh] at hw
  -- a block that was stored keeps its previous block
  have hkeep : ∀ {k w}, R k = some w → w.block.previous ≠ 0 →
      ∃ x, BlockStore.linkRaw R hash b w.block.previous = some x ∧ x.successor = k := by
    intro k w hw hz
    obtain ⟨x, hx, hsucc⟩ := hR.previous hw hz
    refine ⟨x, ?_, hsucc⟩
    rw [linkRaw_of_ne (hne hx), hx]
    intro heq
    obtain ⟨y, hy, htop⟩ := hprev (by rw [← heq]; exact hz)
    rw [← heq, hx] at hy
    cases hy
    exact hR.hash_ne_zero H hw (hsucc.symm.trans htop)
  refine ⟨?_, ?_, ?_, ?_⟩
  · intro k v hv
    rcases linkRaw_cases hv with ⟨rfl, rfl⟩ | ⟨-, -, w, hw, rfl⟩ | ⟨-, -, hw⟩
    · exact ⟨hb, hhash⟩
    · have hknown := hR.known hw
      exact hknown
    · exact hR.known hw
  · intro k v hv
    rcases linkRaw_cases hv with ⟨rfl, rfl⟩ | ⟨-, -, w, hw, rfl⟩ | ⟨-, -, hw⟩
    · exact ⟨a, n, ho, ha⟩
    · exact hR.owner hw
    · exact hR.owner hw
  · intro k v hv hz
    rcases linkRaw_cases hv with ⟨rfl, rfl⟩ | ⟨-, -, w, hw, rfl⟩ | ⟨-, -, hw⟩
    · obtain ⟨w, hw, -⟩ := hprev hz
      exact ⟨_, linkRaw_previous (hne hw) hw, rfl⟩
    · have hkept := hkeep hw hz
      exact hkept
    · exact hkeep hw hz
  · intro k v hv hz
    rcases linkRaw_cases hv with ⟨rfl, rfl⟩ | ⟨-, hp, w, hw, rfl⟩ | ⟨-, -, hw⟩
    · exact absurd rfl hz
    · exact ⟨_, linkRaw_self, hp.symm⟩
    · obtain ⟨x, hx, hback⟩ := hR.successor hw hz
      by_cases hp : v.successor = b.previous
      · rw [hp] at hx ⊢
        exact ⟨_, linkRaw_previous (hne hx) hx, hback⟩
      · exact ⟨x, by rw [linkRaw_of_ne (hne hx) hp, hx], hback⟩

theorem unlink (H : CollisionFree env U) (hR : StoredChains env U R)
    (hv : R hash = some ⟨b, 0⟩) : StoredChains env U (unlinkRaw R hash b) := by
  refine ⟨?_, ?_, ?_, ?_⟩
  · intro k v' hv'
    obtain ⟨w, hw, hblock, -⟩ := shrinks_unlinkRaw k v' hv'
    rw [hblock]
    exact hR.known hw
  · intro k v' hv'
    obtain ⟨w, hw, -, -⟩ := shrinks_unlinkRaw k v' hv'
    exact hR.owner hw
  · intro k v' hv' hz
    obtain ⟨hk, -⟩ := unlinkRaw_cases hv'
    obtain ⟨w, hw, hblock, -⟩ := shrinks_unlinkRaw k v' hv'
    rw [hblock] at hz ⊢
    obtain ⟨x, hx, hsucc⟩ := hR.previous hw hz
    refine ⟨x, ?_, hsucc⟩
    rw [unlinkRaw_of_ne, hx]
    · intro heq
      rw [heq, hv] at hx
      cases hx
      exact hR.hash_ne_zero H hw hsucc.symm
    · intro heq
      obtain ⟨y, hy, hback⟩ := hR.previous hv (by rw [← heq]; exact hz)
      rw [← heq, hx] at hy
      cases hy
      exact hk (hsucc.symm.trans hback)
  · intro k v' hv' hz
    obtain ⟨-, ⟨-, w, -, rfl⟩ | ⟨hp, hw⟩⟩ := unlinkRaw_cases hv'
    · exact absurd rfl hz
    · obtain ⟨x, hx, hback⟩ := hR.successor hw hz
      have hne : v'.successor ≠ hash := by
        intro heq
        rw [heq, hv] at hx
        cases hx
        exact hp hback.symm
      by_cases hq : v'.successor = b.previous
      · rw [hq] at hx hne ⊢
        exact ⟨_, unlinkRaw_previous hne hx, hback⟩
      · exact ⟨x, by rw [unlinkRaw_of_ne hne hq, hx], hback⟩

end StoredChains

/-- What the tables say about accounts agrees with the owners of the blocks. -/
structure OwnersAgree (env : Env) (U : Set Block) (s : BlockStore)
    (R : BlockHash → Option StoredBlock) : Prop extends StoredChains env U R where
  tables : BlockTables.Represents s.blockDatabase R
  legacy : ∀ {h v w}, R h = some v → v.block.type ≠ .state → R v.block.previous = some w →
    w.block.type ≠ .state
  head : ∀ {a i}, s.accounts.get a = some i →
    ∃ v, R i.head = some v ∧ v.successor = 0 ∧ Owner env U i.head a i.blockCount
  opened : ∀ {a i}, s.accounts.get a = some i →
    ∃ v, R i.openBlock = some v ∧ Owner env U i.openBlock a 1
  top : ∀ {h v a n}, R h = some v → v.successor = 0 → Owner env U h a n →
    ∃ i, s.accounts.get a = some i ∧ i.head = h
  frontier : ∀ {h v a n}, R h = some v → v.successor = 0 → v.block.type ≠ .state →
    Owner env U h a n → s.frontiers.get h = some a
  listed : ∀ {h a}, s.frontiers.get h = some a →
    ∃ v n, R h = some v ∧ v.successor = 0 ∧ v.block.type ≠ .state ∧ Owner env U h a n
  infos : ∀ {h i}, s.blocksInfo.get h = some i → ∃ n, Owner env U h i.account n
  pending : ∀ {k p}, s.pending.get k = some p → ∃ n, Owner env U k.hash p.source n

namespace OwnersAgree

open BlockStore

variable {env : Env} {U : Set Block} {s s' : BlockStore} {R : BlockHash → Option StoredBlock}
variable {h : BlockHash} {b : Block} {v : StoredBlock} {a : Account} {n : Nat}

theorem exists_of_blockGet (hs : OwnersAgree env U s R) (hb : s.blockGet h = some b) :
    ∃ v, R h = some v ∧ v.block = b := by
  rw [blockGet_eq hs.tables] at hb
  exact Option.map_eq_some_iff.mp hb

theorem blockGet_of_some (hs : OwnersAgree env U s R) (hv : R h = some v) :
    s.blockGet h = some v.block := by
  rw [blockGet_eq hs.tables, hv]
  rfl

theorem blockSuccessor_of_some (hs : OwnersAgree env U s R) (hv : R h = some v) :
    s.blockSuccessor h = v.successor := by
  rw [blockSuccessor_eq hs.tables, hv]
  rfl

theorem height_le (H : CollisionFree env U) (hs : OwnersAgree env U s R) (hv : R h = some v)
    (ho : Owner env U h a n) : n ≤ s.blockCount := by
  obtain ⟨l, rfl, hnodup, hstored, -⟩ := hs.exists_below H hv ho
  exact BlockTables.Represents.length_le_size hs.tables hnodup hstored

section Account

variable (H : CollisionFree env U) (hone : ∀ b ∈ U, b.hash env ≠ 1)
include H hone

theorem accountLoop_eq (hs : OwnersAgree env U s R) :
    ∀ {fuel h v n successor}, R h = some v → Owner env U h a n → s.blockCount + 2 ≤ fuel + n →
      (successor = 1 ∨ successor = h) →
      Ledger.accountLoop s fuel h successor v.block = .ok a := by
  intro fuel
  induction fuel with
  | zero =>
    intro h v n successor hv ho hfuel _
    have := hs.height_le H hv ho
    omega
  | succ fuel ih =>
    intro h v n successor hv ho hfuel hsucc
    have hle := hs.height_le H hv ho
    have hh := hs.hash_ne_zero H hv
    have hsucc0 : successor ≠ 0 := by
      rcases hsucc with rfl | rfl
      · decide
      · exact hh
    obtain ⟨hU, hhash⟩ := hs.known hv
    by_cases hstate : v.block.type = .state
    · rw [Ledger.accountLoop, if_pos (.inr hstate)]
      cases hb : v.block with
      | stateBlock c =>
        rw [hb] at hU hhash
        rw [← hhash] at ho
        rw [← ho.named H hU rfl]
        rfl
      | _ => simp [hb, Block.type] at hstate
    · have hresult : ∀ succ info, Ledger.accountResult s h succ info v.block =
          if succ = 0 then s.frontierGet h else (info.map BlockInfo.account).getD 0 := by
        intro succ info
        cases hb : v.block with
        | stateBlock c => simp [hb, Block.type] at hstate
        | _ => rfl
      rw [Ledger.accountLoop, if_neg (fun hx => hx.elim hsucc0 hstate)]
      cases hi : s.blockInfoGet successor with
      | some i =>
        obtain ⟨m, hom⟩ := hs.infos hi
        rcases hsucc with rfl | rfl
        · obtain ⟨c, hc, hc1⟩ := hom.exists_block
          exact absurd hc1 (hone c hc)
        · obtain ⟨rfl, -⟩ := hom.unique H ho
          show Except.ok _ = _
          rw [hresult, if_neg hh]
          rfl
      | none =>
        simp only [hs.blockSuccessor_of_some hv]
        by_cases hz : v.successor = 0
        · rw [if_neg (not_not_intro hz)]
          obtain ⟨f, rfl⟩ : ∃ f, fuel = f + 1 := ⟨fuel - 1, by omega⟩
          rw [Ledger.accountLoop, if_pos (.inl rfl), hresult, if_pos rfl, frontierGet,
            hs.frontier hv hz hstate ho]
          rfl
        · obtain ⟨w, hw, how⟩ := hs.owner_successor H hv ho hz
          rw [if_pos hz, hs.blockGet_of_some hw]
          exact ih hw how (by omega) (.inr rfl)

theorem account_eq (hs : OwnersAgree env U s R) (hv : R h = some v) (ho : Owner env U h a n) :
    Ledger.account s h = .ok a := by
  have hloop : Ledger.accountLoop s (s.blockCount + 2) h 1 v.block = .ok a :=
    hs.accountLoop_eq H hone hv ho (by omega) (.inl rfl)
  have hne : a ≠ 0 := by
    obtain ⟨a', n', ho', hne⟩ := hs.owner hv
    rw [(ho'.unique H ho).1]
    exact hne
  rw [Ledger.account, hs.blockGet_of_some hv]
  exact bind_eq_of_ok rfl (bind_eq_of_ok hloop (bind_eq_of_ok (require_of hne) rfl))

theorem owner_of_account (hs : OwnersAgree env U s R) (h' : Ledger.account s h = .ok a) :
    ∃ v n, R h = some v ∧ Owner env U h a n := by
  obtain ⟨b, hb, -⟩ := ok_of_bind h'
  obtain ⟨v, hv, -⟩ := hs.exists_of_blockGet (eq_some_of_deref_eq_ok hb)
  obtain ⟨a', n, ho, -⟩ := hs.owner hv
  rw [hs.account_eq H hone hv ho] at h'
  cases h'
  exact ⟨v, n, hv, ho⟩

end Account

section Append

variable (H : CollisionFree env U)
include H

theorem place_of_appends (hs : OwnersAgree env U s R) (hb : b ∈ U) (h : Appends env s s' b a) :
    Owner env U (b.hash env) a (((s.accounts.get a).getD .zero).blockCount + 1) ∧
      (∀ i, s.accounts.get a = some i → i.head = b.previous) ∧
      (b.previous ≠ 0 → ∃ w n, R b.previous = some w ∧ w.successor = 0 ∧
        Owner env U b.previous a n) := by
  rcases h.position with ⟨hz, hname, hnone⟩ | ⟨⟨p, hp⟩, hlatest, hname⟩
  · rw [hnone]
    exact ⟨.first hb hz hname, fun i hi => (by cases hi), fun hne => absurd hz hne⟩
  · obtain ⟨w, hw, -⟩ := hs.exists_of_blockGet hp
    have hne := hs.hash_ne_zero H hw
    have hhead : ∀ i, s.accounts.get a = some i → i.head = b.previous := by
      intro i hi
      rw [← hlatest]
      exact (LedgerProcessor.latest_eq_of_accountGet hi).symm
    cases hi : s.accounts.get a with
    | none =>
      rw [Ledger.latest, accountGet, hi] at hlatest
      exact absurd hlatest.symm hne
    | some i =>
      obtain ⟨x, hx, hsucc, ho⟩ := hs.head hi
      rw [hhead i hi] at hx ho
      exact ⟨.next hb hne hname ho, fun j hj => hhead j (hi.trans hj),
        fun _ => ⟨x, _, hx, hsucc, ho⟩⟩

theorem appends (hs : OwnersAgree env U s R) (hb : b ∈ U) (h : Appends env s s' b a) :
    OwnersAgree env U s' (linkRaw R (b.hash env) b) := by
  obtain ⟨ho, hhead, hprev⟩ := hs.place_of_appends H hb h
  have hfresh : R (b.hash env) = none := by
    have hnone := h.fresh
    rw [blockGet_eq hs.tables] at hnone
    exact Option.map_eq_none_iff.mp hnone
  have hne : ∀ {k w}, R k = some w → k ≠ b.hash env := by
    rintro k w hw rfl
    simp [hfresh] at hw
  have hlinks := hs.link H hb rfl hfresh ho h.account_ne_zero (fun hz => by
    obtain ⟨w, -, hw, hsucc, -⟩ := hprev hz
    exact ⟨w, hw, hsucc⟩)
  obtain ⟨i, hi, hihead, hcount, hopen⟩ := h.head (H.nonzero b hb)
  have hself : b.hash env ≠ b.previous := by
    intro heq
    obtain ⟨w, -, hw, -, -⟩ := hprev (by rw [← heq]; exact H.nonzero b hb)
    exact hne hw heq.symm
  refine { hlinks with
    tables := ?_, legacy := ?_, head := ?_, opened := ?_, top := ?_, frontier := ?_, listed := ?_
    infos := ?_, pending := ?_ }
  · obtain ⟨s₁, s₂, h₁, hput, h₂⟩ := h.put
    have hr : BlockTables.Represents s₁.blockDatabase R := by
      rw [h₁]
      exact hs.tables
    obtain ⟨db, hdb, hrep, -⟩ := blockPut_spec hr env (hs.zero H) hfresh rfl
      (fun hz => hlinks.opening H linkRaw_self hz) (fun hz => by
        obtain ⟨w, -, hw, -, -⟩ := hprev hz
        exact ⟨w, hw⟩)
    cases hdb.symm.trans hput
    rw [h₂, blockDatabase_withBlocks]
    exact hrep
  · intro k v w hv htype hw
    by_cases hk : k = b.hash env
    · subst hk
      obtain rfl : v = ⟨b, 0⟩ := Option.some.inj (hv.symm.trans linkRaw_self)
      obtain ⟨x, hx, hblock⟩ := block_of_linkRaw (Ne.symm hself) hw
      obtain ⟨y, m, hy, -, hlegacy, -⟩ := hs.listed (h.legacy htype (hs.hash_ne_zero H hx))
      cases hx.symm.trans hy
      rw [hblock]
      exact hlegacy
    · obtain ⟨x, hx, hblock⟩ := block_of_linkRaw hk hv
      rw [hblock] at htype hw
      obtain ⟨y, hy, -⟩ := hs.previous hx (hlinks.hash_ne_zero H hw)
      obtain ⟨z, hz, hblock'⟩ := block_of_linkRaw (hne hy) hw
      rw [hblock']
      exact hs.legacy hx htype hz
  · intro a' i' hi'
    by_cases ha : a' = a
    · subst ha
      cases hi.symm.trans hi'
      rw [hihead, hcount]
      exact ⟨_, linkRaw_self, rfl, ho⟩
    · rw [h.others a' ha] at hi'
      obtain ⟨v, hv, hsucc, hom⟩ := hs.head hi'
      refine ⟨v, ?_, hsucc, hom⟩
      rw [linkRaw_of_ne (hne hv), hv]
      intro heq
      obtain ⟨-, m', -, -, hom'⟩ := hprev (by rw [← heq]; exact hs.hash_ne_zero H hv)
      rw [heq] at hom
      exact ha (hom'.unique H hom).1
  · intro a' i' hi'
    by_cases ha : a' = a
    · subst ha
      cases hi.symm.trans hi'
      rw [hopen]
      cases hold : s.accounts.get a' with
      | none =>
        rw [hold] at ho
        exact ⟨_, linkRaw_self, ho⟩
      | some j =>
        obtain ⟨v, hv, hov⟩ := hs.opened hold
        obtain ⟨w, hw⟩ := exists_linkRaw hv
        exact ⟨w, hw, hov⟩
    · rw [h.others a' ha] at hi'
      obtain ⟨v, hv, hov⟩ := hs.opened hi'
      obtain ⟨w, hw⟩ := exists_linkRaw hv
      exact ⟨w, hw, hov⟩
  · intro k v a' m hv hsucc hom
    rcases linkRaw_cases hv with ⟨rfl, rfl⟩ | ⟨-, -, w, hw, rfl⟩ | ⟨hk, hp, hw⟩
    · obtain ⟨rfl, -⟩ := ho.unique H hom
      exact ⟨i, hi, hihead⟩
    · exact absurd hsucc (H.nonzero b hb)
    · obtain ⟨j, hj, hjhead⟩ := hs.top hw hsucc hom
      refine ⟨j, ?_, hjhead⟩
      rw [h.others a', hj]
      rintro rfl
      exact hp (hjhead.symm.trans (hhead j hj))
  · intro k v a' m hv hsucc htype hom
    rcases linkRaw_cases hv with ⟨rfl, rfl⟩ | ⟨-, -, w, hw, rfl⟩ | ⟨hk, hp, hw⟩
    · obtain ⟨rfl, -⟩ := ho.unique H hom
      exact h.frontier htype
    · exact absurd hsucc (H.nonzero b hb)
    · rw [h.frontiers k (fun heq => absurd heq hk) hp]
      exact hs.frontier hw hsucc htype hom
  · intro k a' hget
    by_cases hp : k = b.previous
    · subst hp
      -- the previous block is no head any more, so its frontier is gone
      obtain ⟨hold, hzero⟩ := h.cleared (Ne.symm hself) a' hget
      obtain ⟨v, m, hv, -, -, hom⟩ := hs.listed hold
      obtain ⟨a'', m', hom', hne'⟩ := hs.owner hv
      rcases hzero with rfl | hzero
      · exact absurd (hom.unique H hom').1 hne'
      · exact absurd hzero (hs.hash_ne_zero H hv)
    by_cases hk : k = b.hash env
    · subst hk
      by_cases htype : b.type = .state
      · rw [h.frontiers _ (fun _ => htype) hp] at hget
        obtain ⟨v, -, hv, -⟩ := hs.listed hget
        exact absurd rfl (hne hv)
      · cases (h.frontier htype).symm.trans hget
        exact ⟨_, _, linkRaw_self, rfl, htype, ho⟩
    · rw [h.frontiers k (fun heq => absurd heq hk) hp] at hget
      obtain ⟨v, m, hv, hrest⟩ := hs.listed hget
      exact ⟨v, m, by rw [linkRaw_of_ne hk hp, hv], hrest⟩
  · intro k j hj
    rcases h.infos hj with hold | ⟨rfl, -, hacc⟩
    · exact hs.infos hold
    · grind
  · intro k p hp
    rcases h.pending hp with hold | ⟨hk, hsource⟩
    · exact hs.pending hold
    · grind

end Append

section Remove

variable (H : CollisionFree env U)
include H

theorem represents_clear (hR : StoredChains env U R) {Q : BlockHash → Option StoredBlock}
    (hr : BlockTables.Represents s.blockDatabase Q) (hk : Q h = R h)
    (hprev : ∀ w, R h = some w → Q w.block.previous = R w.block.previous)
    (hclear : s.blockSuccessorClear env h = .ok s') :
    ∃ w, R h = some w ∧ BlockTables.Represents s'.blockDatabase
      (fun k => if k = h then some ⟨w.block, 0⟩ else Q k) := by
  obtain ⟨b, hb, -⟩ := ok_of_bind hclear
  have hget := eq_some_of_deref_eq_ok hb
  rw [blockGet_eq hr, hk] at hget
  obtain ⟨w, hw, rfl⟩ := Option.map_eq_some_iff.mp hget
  obtain ⟨db, hdb, hrep, -⟩ := blockSuccessorClear_spec hr env (hk.trans hw) (hR.known hw).2
    (hR.opening H hw) (hR.previous_ne H hw) (fun hz => by
      rw [hprev w hw]
      exact hR.previous hw hz)
  cases hdb.symm.trans hclear
  refine ⟨w, hw, ?_⟩
  rw [blockDatabase_withBlocks]
  exact hrep

theorem stored_of_drops (hs : OwnersAgree env U s R) {hash previous : BlockHash}
    (h : Drops env s s' hash previous) : ∃ v, R hash = some v := by
  have hcongr : ∀ {s₁ : BlockStore}, s₁.blockDatabase = s.blockDatabase →
      BlockTables.Represents s₁.blockDatabase R := by
    intro s₁ h₁
    rw [h₁]
    exact hs.tables
  cases h with
  | opening s₁ s₂ _ h₁ hdel _ => exact stored_of_blockDel (hcongr h₁) hdel
  | delClear s₁ s₂ s₃ s₄ h₁ hdel _ _ _ => exact stored_of_blockDel (hcongr h₁) hdel
  | clearDel s₁ s₂ s₃ s₄ h₁ hclear h₂ hdel _ =>
    obtain ⟨w, hw, hrep⟩ := represents_clear H hs.toStoredChains (hcongr h₁) rfl
      (fun _ _ => rfl) hclear
    rw [← h₂] at hrep
    obtain ⟨v, hv⟩ := stored_of_blockDel hrep hdel
    grind

theorem represents_drops (hs : OwnersAgree env U s R) {hash : BlockHash} (hv : R hash = some ⟨b, 0⟩)
    (h : Drops env s s' hash b.previous) :
    BlockTables.Represents s'.blockDatabase (unlinkRaw R hash b) := by
  have hcongr : ∀ {s₁ : BlockStore}, s₁.blockDatabase = s.blockDatabase →
      BlockTables.Represents s₁.blockDatabase R := by
    intro s₁ h₁
    rw [h₁]
    exact hs.tables
  have hself : b.previous ≠ hash := hs.previous_ne H hv
  cases h with
  | opening s₁ s₂ hnone h₁ hdel h₂ =>
    obtain ⟨db, hdb, hrep, -⟩ := blockDel_spec (hcongr h₁) hv
    cases hdb.symm.trans hdel
    rw [h₂, blockDatabase_withBlocks]
    have hmissing : R b.previous = none := by
      rcases hnone with hz | hnone
      · rw [hz]
        exact hs.zero H
      · rw [blockGet_eq hs.tables] at hnone
        exact Option.map_eq_none_iff.mp hnone
    convert hrep using 1
    funext k
    unfold unlinkRaw
    split_ifs <;> simp_all
  | delClear s₁ s₂ s₃ s₄ h₁ hdel h₂ hclear h₃ =>
    obtain ⟨db, hdb, hrep, -⟩ := blockDel_spec (hcongr h₁) hv
    cases hdb.symm.trans hdel
    rw [blockDatabase_withBlocks] at h₂
    rw [← h₂] at hrep
    obtain ⟨w, hw, hrep'⟩ := represents_clear H hs.toStoredChains hrep (if_neg hself)
      (fun w hw => if_neg (fun heq => by
        -- the block that is removed has no successor
        obtain ⟨x, hx, hsucc⟩ := hs.previous hw (by rw [heq]; exact hs.hash_ne_zero H hv)
        rw [heq, hv] at hx
        cases hx
        exact hs.hash_ne_zero H hw hsucc.symm)) hclear
    rw [h₃]
    convert hrep' using 1
    funext k
    unfold unlinkRaw
    split_ifs <;> simp_all
  | clearDel s₁ s₂ s₃ s₄ h₁ hclear h₂ hdel h₃ =>
    obtain ⟨w, hw, hrep⟩ := represents_clear H hs.toStoredChains (hcongr h₁) rfl
      (fun _ _ => rfl) hclear
    rw [← h₂] at hrep
    obtain ⟨db, hdb, hrep', -⟩ := blockDel_spec hrep
      (show (if hash = b.previous then _ else R hash) = some ⟨b, 0⟩ by
        rw [if_neg (Ne.symm hself), hv])
    cases hdb.symm.trans hdel
    rw [h₃, blockDatabase_withBlocks]
    convert hrep' using 1
    funext k
    unfold unlinkRaw
    split_ifs <;> simp_all

variable (hone : ∀ b ∈ U, b.hash env ≠ 1)
include hone

theorem owner_of_removes (hs : OwnersAgree env U s R) (hv : R (b.hash env) = some v) (hb : b ∈ U)
    (h : Removes env s s' b a) : ∃ n, Owner env U (b.hash env) a n := by
  obtain ⟨a', n, ho, -⟩ := hs.owner hv
  rcases h.account with hacc | hacc | ⟨d, p, hp, hsource⟩ | ⟨-, hname⟩
  · obtain ⟨-, m, -, hom⟩ := hs.owner_of_account H hone hacc
    exact ⟨m, hom⟩
  · obtain ⟨w, m, hw, hom⟩ := hs.owner_of_account H hone hacc
    obtain ⟨m', -, hprev⟩ := ho.previous H hb (hs.hash_ne_zero H hw)
    obtain ⟨rfl, -⟩ := hprev.unique H hom
    exact ⟨n, ho⟩
  · rw [← hsource]
    exact hs.pending hp
  · grind [ho.named H hb hname]

theorem removes (hs : OwnersAgree env U s R) (hv : R (b.hash env) = some ⟨b, 0⟩)
    (h : Removes env s s' b a) : OwnersAgree env U s' (unlinkRaw R (b.hash env) b) := by
  have hb : b ∈ U := (hs.known hv).1
  obtain ⟨n, ho⟩ := hs.owner_of_removes H hone hv hb h
  have hself : b.previous ≠ b.hash env := hs.previous_ne H hv
  have hlinks := hs.unlink H hv
  obtain ⟨i, hi, hihead⟩ := hs.top hv rfl ho
  obtain ⟨-, -, -, hcounted⟩ := hs.head hi
  have hheight : b.previous ≠ 0 → ∀ {m}, Owner env U b.previous a m → i.blockCount - 1 = m := by
    intro hz m hom
    rw [hihead] at hcounted
    obtain ⟨m', hm', hom'⟩ := hcounted.previous H hb hz
    have hm := (hom.unique H hom').2
    omega
  have hprev : b.previous ≠ 0 → ∃ w m, R b.previous = some w ∧ Owner env U b.previous a m := by
    intro hz
    obtain ⟨w, hw, -⟩ := hs.previous hv hz
    obtain ⟨m, -, hom⟩ := ho.previous H hb hz
    exact ⟨w, m, hw, hom⟩
  -- what is stored under the previous hash belongs to the same account
  have hsame : ∀ {w a' m}, R b.previous = some w → Owner env U b.previous a' m → a' = a := by
    intro w a' m hw hom
    obtain ⟨-, m', -, hom'⟩ := hprev (hs.hash_ne_zero H hw)
    exact (hom'.unique H hom).1
  refine { hlinks with
    tables := hs.represents_drops H hv h.blocks, legacy := ?_, head := ?_, opened := ?_, top := ?_
    frontier := ?_, listed := ?_, infos := ?_, pending := ?_ }
  · intro k v w hv' htype hw
    obtain ⟨x, hx, hblock, -⟩ := shrinks_unlinkRaw k v hv'
    obtain ⟨y, hy, hblock', -⟩ := shrinks_unlinkRaw _ w hw
    rw [hblock] at htype hy
    rw [hblock']
    exact hs.legacy hx htype hy
  · intro a' j hj
    by_cases ha : a' = a
    · subst ha
      by_cases hz : b.previous = 0
      · simp [h.gone hz] at hj
      · obtain ⟨j', hj', hhead, hless⟩ := h.head hz
        cases hj.symm.trans hj'
        obtain ⟨w, m, hw, hom⟩ := hprev hz
        obtain ⟨hcount, -⟩ := hless i hi
        rw [hhead, hcount, hheight hz hom]
        exact ⟨_, unlinkRaw_previous hself hw, rfl, hom⟩
    · rw [h.others a' ha] at hj
      obtain ⟨w, hw, hsucc, hom⟩ := hs.head hj
      refine ⟨w, ?_, hsucc, hom⟩
      rw [unlinkRaw_of_ne, hw]
      · intro heq
        rw [heq] at hom
        exact ha (ho.unique H hom).1
      · intro heq
        rw [heq] at hw hom
        exact ha (hsame hw hom)
  · intro a' j hj
    by_cases ha : a' = a
    · subst ha
      by_cases hz : b.previous = 0
      · simp [h.gone hz] at hj
      · obtain ⟨j', hj', -, hless⟩ := h.head hz
        cases hj.symm.trans hj'
        obtain ⟨-, hopen⟩ := hless i hi
        obtain ⟨w, hw, how⟩ := hs.opened hi
        rw [hopen]
        -- the block that opened the account is below the one that is removed
        have hne : i.openBlock ≠ b.hash env := by
          intro heq
          rw [heq] at how
          obtain ⟨-, m, -, hom⟩ := hprev hz
          have hpos := hom.pos
          have hone := (ho.unique H how).2
          have hm := hheight hz hom
          have hn := (ho.unique H (hihead ▸ hcounted)).2
          omega
        obtain ⟨x, hx⟩ := exists_unlinkRaw hne hw
        exact ⟨x, hx, how⟩
    · rw [h.others a' ha] at hj
      obtain ⟨w, hw, how⟩ := hs.opened hj
      have hne : j.openBlock ≠ b.hash env := by
        intro heq
        rw [heq] at how
        exact ha (ho.unique H how).1
      obtain ⟨x, hx⟩ := exists_unlinkRaw hne hw
      exact ⟨x, hx, how⟩
  · intro k w a' m hw hsucc hom
    obtain ⟨hk, ⟨rfl, x, hx, rfl⟩ | ⟨hp, hw⟩⟩ := unlinkRaw_cases hw
    · obtain rfl := hsame hx hom
      obtain ⟨j, hj, hhead, -⟩ := h.head (hs.hash_ne_zero H hx)
      exact ⟨j, hj, hhead⟩
    · obtain ⟨j, hj, hjhead⟩ := hs.top hw hsucc hom
      refine ⟨j, ?_, hjhead⟩
      rw [h.others a', hj]
      rintro rfl
      cases hi.symm.trans hj
      exact hk (hjhead.symm.trans hihead)
  · intro k w a' m hw hsucc htype hom
    obtain ⟨hk, ⟨rfl, x, hx, rfl⟩ | ⟨hp, hw⟩⟩ := unlinkRaw_cases hw
    · obtain rfl := hsame hx hom
      exact h.frontier (hs.hash_ne_zero H hx) _ (hs.blockGet_of_some hx) htype
    · rw [h.frontiers k (fun heq => absurd heq hk) hp]
      exact hs.frontier hw hsucc htype hom
  · intro k a' hget
    by_cases hp : k = b.previous
    · subst hp
      rcases h.restored a' hget with hold | ⟨rfl, htype, hlegacy⟩
      · -- a block with a successor has no frontier
        obtain ⟨w, -, hw, hsucc, -, -⟩ := hs.listed hold
        obtain ⟨x, hx, hback⟩ := hs.previous hv (hs.hash_ne_zero H hw)
        cases hw.symm.trans hx
        exact absurd (hback.symm.trans hsucc) (H.nonzero b hb)
      · have hz : b.previous ≠ 0 := by
          intro hz
          rcases hs.opening H hv hz with hopening | hstate
          · exact htype hopening
          · obtain ⟨c, hc, -⟩ := hlegacy hstate
            obtain ⟨w, hw, -⟩ := hs.exists_of_blockGet hc
            exact hs.hash_ne_zero H hw hz
        obtain ⟨w, m, hw, hom⟩ := hprev hz
        refine ⟨_, m, unlinkRaw_previous hself hw, rfl, ?_, hom⟩
        by_cases hstate : b.type = .state
        · obtain ⟨c, hc, hctype⟩ := hlegacy hstate
          rw [hs.blockGet_of_some hw] at hc
          cases hc
          exact hctype
        · have hlegacy : w.block.type ≠ .state := hs.legacy hv hstate hw
          exact hlegacy
    by_cases hk : k = b.hash env
    · subst hk
      by_cases htype : b.type = .state
      · rw [h.frontiers _ (fun _ => htype) hp] at hget
        obtain ⟨w, -, hw, -, hlegacy, -⟩ := hs.listed hget
        cases hv.symm.trans hw
        exact absurd htype hlegacy
      · rw [h.dropped htype hp] at hget
        cases hget
    · rw [h.frontiers k (fun heq => absurd heq hk) hp] at hget
      obtain ⟨w, m, hw, hrest⟩ := hs.listed hget
      exact ⟨w, m, by rw [unlinkRaw_of_ne hk hp, hw], hrest⟩
  · intro k j hj
    rcases h.infos hj with hold | ⟨rfl, hz, hacc⟩
    · exact hs.infos hold
    · obtain ⟨-, m, -, hom⟩ := hprev hz
      rw [hacc]
      exact ⟨m, hom⟩
  · intro k p hp
    rcases h.pending hp with hold | hacc
    · exact hs.pending hold
    · obtain ⟨-, m, -, hom⟩ := hs.owner_of_account H hone hacc
      exact ⟨m, hom⟩

theorem unrolls (h : Unrolls env s s') :
    ∀ {R}, OwnersAgree env U s R → ∃ R', OwnersAgree env U s' R' ∧ Shrinks R R' := by
  induction h with
  | done s =>
    intro R hs
    exact ⟨R, hs, .refl R⟩
  | @visit s s₁ s₂ s' weights holder a i b hacc hb _ hremoves _ ihnested ih =>
    intro R hs
    obtain ⟨v, hv, htop, -⟩ := hs.head hacc
    obtain ⟨v', hv', rfl⟩ := hs.exists_of_blockGet hb
    cases hv.symm.trans hv'
    have hhash := (hs.known hv).2
    obtain ⟨R₁, hs₁, hshrinks⟩ := ihnested (R := R)
      { hs with tables := hs.tables }
    -- the visit deletes the block, so the nested rollbacks have left it, still as a head
    obtain ⟨w, hw⟩ := hs₁.stored_of_drops H hremoves.blocks
    obtain ⟨v', hv', hblock, hsucc⟩ := hshrinks _ _ hw
    rw [hhash, hv] at hv'
    cases hv'
    have hw' : R₁ (v.block.hash env) = some ⟨v.block, 0⟩ := by
      rw [hw, ← hblock, ← hsucc htop]
    obtain ⟨R', hs', hshrinks'⟩ := ih (hs₁.removes H hone hw' hremoves)
    exact ⟨R', hs', (hshrinks.trans shrinks_unlinkRaw).trans hshrinks'⟩

end Remove

end OwnersAgree

theorem Reachable.ownersAgree {env : Env} {U : Set Block} {s : BlockStore} (H : CollisionFree env U)
    (hone : ∀ b ∈ U, b.hash env ≠ 1) (hs : Reachable env U s) : ∃ R, OwnersAgree env U s R := by
  induction hs with
  | genesis h =>
    have hempty : OwnersAgree env U .empty (fun _ => none) :=
      { known := fun h => absurd h (by simp)
        owner := fun h => absurd h (by simp)
        previous := fun h => absurd h (by simp)
        successor := fun h => absurd h (by simp)
        tables := by
          intro t h
          cases t <;> rfl
        legacy := fun h => absurd h (by simp)
        head := fun h => absurd h (by simp [BlockStore.empty])
        opened := fun h => absurd h (by simp [BlockStore.empty])
        top := fun h => absurd h (by simp)
        frontier := fun h => absurd h (by simp)
        listed := fun h => absurd h (by simp [BlockStore.empty])
        infos := fun h => absurd h (by simp [BlockStore.empty])
        pending := fun h => absurd h (by simp [BlockStore.empty]) }
    exact ⟨_, hempty.appends H H.genesis (genesis_appends h)⟩
  | process _ hb h ih =>
    obtain ⟨R, hR⟩ := ih
    rcases process_appends h with rfl | ⟨a, happends⟩
    · exact ⟨R, hR⟩
    · exact ⟨_, hR.appends H hb happends⟩
  | rollback _ _ _ h ih =>
    obtain ⟨R, hR⟩ := ih
    obtain ⟨R', hR', -⟩ := OwnersAgree.unrolls H hone (rollback_unrolls h) hR
    exact ⟨R', hR'⟩

end Badem
