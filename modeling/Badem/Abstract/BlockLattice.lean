import Badem.Core.BlockStore

/-!
# The block lattice

What the ledger is for, without its tables: a finite set of accepted blocks with their
accounts, balances and positions.  The rules of the lattice are fields: chains are linked and
do not fork, every account is opened once, and every receiving block names an earlier send to
its account that no other block receives.
-/

namespace Badem

open Mdb

structure Entry where
  hash : BlockHash
  block : Block
  account : Account
  previousBalance : Amount
  balance : Amount
  repBlock : BlockHash
  openBlock : BlockHash
  height : Nat
  time : Nat
deriving DecidableEq

namespace Entry

def previous (e : Entry) : BlockHash := e.block.previous

theorem previous_of_block {e : Entry} {b : Block} (h : e.block = b) : e.previous = b.previous :=
  congrArg Block.previous h

def amount (e : Entry) : Amount :=
  if e.balance < e.previousBalance then e.previousBalance - e.balance
  else e.balance - e.previousBalance

def destination (e : Entry) : Option Account :=
  match e.block with
  | .sendBlock b => some b.hashables.destination
  | .stateBlock b => if b.hashables.balance < e.previousBalance then some b.hashables.link else none
  | _ => none

/-- Block that the block receives from.  The genesis block receives from nobody. -/
def source (env : Env) (e : Entry) : Option BlockHash :=
  if e.hash = env.genesisHash then
    none
  else
    match e.block with
    | .receiveBlock b => some b.hashables.source
    | .openBlock b => some b.hashables.source
    | .stateBlock b =>
      if b.hashables.balance < e.previousBalance then none
      else if b.hashables.link = 0 then none
      else some b.hashables.link
    | _ => none

def info (e : Entry) : AccountInfo where
  head := e.hash
  repBlock := e.repBlock
  openBlock := e.openBlock
  balance := e.balance
  modified := 0
  blockCount := e.height

/-- The annotations agree with what the block says itself. -/
def Lawful (e : Entry) : Prop :=
  match e.block with
  | .sendBlock b => e.balance = b.hashables.balance ∧ b.hashables.balance ≤ e.previousBalance
  | .receiveBlock _ => e.previousBalance ≤ e.balance
  | .openBlock b => e.account = b.hashables.account
  | .changeBlock _ => e.balance = e.previousBalance
  | .stateBlock b =>
    e.account = b.hashables.account ∧ e.balance = b.hashables.balance ∧
      (b.hashables.link = 0 → e.previousBalance ≤ e.balance →
        e.balance = e.previousBalance)

/-- The entry is the first one of its account. -/
structure Opens (env : Env) (e : Entry) : Prop where
  height : e.height = 1
  previousBalance : e.previousBalance = 0
  repBlock : e.repBlock = e.hash
  openBlock : e.openBlock = e.hash
  type : e.block.type = .opening ∨ e.block.type = .state
  source : e.hash = env.genesisHash ∨ (e.source env).isSome = true

/-- The entry directly follows `p` in the chain of their account. -/
structure Extends (e p : Entry) : Prop where
  account : e.account = p.account
  height : e.height = p.height + 1
  previousBalance : e.previousBalance = p.balance
  repBlock : e.repBlock = if e.block.namesRepresentative then e.hash else p.repBlock
  openBlock : e.openBlock = p.openBlock
  legacy : e.block.isLegacy = true → p.block.isLegacy = true

end Entry

def Env.genesisEntry (env : Env) : Entry where
  hash := env.genesisHash
  block := .openBlock env.genesisOpen
  account := env.genesisAccount
  previousBalance := 0
  balance := genesisAmount
  repBlock := env.genesisHash
  openBlock := env.genesisHash
  height := 1
  time := 0

/-- A finite set of accepted blocks that obeys the rules of the ledger. -/
structure BlockLattice (env : Env) (U : Set Block) where
  entries : Table BlockHash Entry
  keyed : ∀ {h e}, entries.get h = some e → e.hash = h
  hashed : ∀ {h e}, entries.get h = some e → e.block.hash env = h
  known : ∀ {h e}, entries.get h = some e → e.block ∈ U
  genesis : entries.get env.genesisHash = some env.genesisEntry
  account_ne_zero : ∀ {h e}, entries.get h = some e → e.account ≠ 0
  lawful : ∀ {h e}, entries.get h = some e → e.Lawful
  opening : ∀ {h e}, entries.get h = some e → e.previous = 0 → e.Opens env
  chain : ∀ {h e}, entries.get h = some e → e.previous ≠ 0 →
    ∃ p, entries.get e.previous = some p ∧ p.time < e.time ∧ e.Extends p
  sent : ∀ {h e x}, entries.get h = some e → e.source env = some x →
    ∃ q, entries.get x = some q ∧ q.time < e.time ∧
      q.destination = some e.account ∧ q.amount = e.amount
  open_unique : ∀ {h e h' e'}, entries.get h = some e → entries.get h' = some e' →
    e.previous = 0 → e'.previous = 0 → e.account = e'.account → e = e'
  no_fork : ∀ {h e h' e'}, entries.get h = some e → entries.get h' = some e' →
    e.previous ≠ 0 → e.previous = e'.previous → e = e'
  no_double_receive : ∀ {h e h' e' x}, entries.get h = some e → entries.get h' = some e' →
    e.source env = some x → e'.source env = some x → e = e'

namespace BlockLattice

variable {env : Env} {U : Set Block}

def find (L : BlockLattice env U) (h : BlockHash) : Option Entry := L.entries.get h

def child (L : BlockLattice env U) (h : BlockHash) : Option Entry :=
  L.entries.find? (fun e => decide (e.previous = h))

/-- The hash of the block that follows `h`, zero at a head. -/
def successor (L : BlockLattice env U) (h : BlockHash) : BlockHash :=
  match L.child h with
  | some c => c.hash
  | none => 0

def receiver (L : BlockLattice env U) (h : BlockHash) : Option Entry :=
  L.entries.find? (fun e => decide (e.source env = some h))

def head (L : BlockLattice env U) (a : Account) : Option Entry :=
  L.entries.find? (fun e => decide (e.account = a) && (L.child e.hash).isNone)

def newer (L : BlockLattice env U) (t : Nat) : Nat :=
  L.entries.count (fun e => decide (t ≤ e.time))

def older (L : BlockLattice env U) (t : Nat) : Nat :=
  L.entries.count (fun e => decide (e.time ≤ t))

section Lookup

variable (L : BlockLattice env U) {h : BlockHash} {e : Entry}

theorem find_hash (he : L.find h = some e) : L.find e.hash = some e := by
  rw [L.keyed he]
  exact he

theorem exists_previous (he : L.find h = some e) (hp : e.previous ≠ 0) :
    ∃ p, L.find e.previous = some p ∧ p.time < e.time ∧ e.Extends p :=
  L.chain he hp

theorem exists_source {x : BlockHash} (he : L.find h = some e) (hs : e.source env = some x) :
    ∃ q, L.find x = some q ∧ q.time < e.time ∧
      q.destination = some e.account ∧ q.amount = e.amount :=
  L.sent he hs

theorem child_eq_some_iff (hne : h ≠ 0) (c : Entry) :
    L.child h = some c ↔ L.find c.hash = some c ∧ c.previous = h := by
  have huniq : ∀ k v k' v', L.entries.get k = some v → L.entries.get k' = some v' →
      decide (v.previous = h) = true → decide (v'.previous = h) = true → v = v' := by
    intro k v k' v' hv hv' hp hp'
    simp only [decide_eq_true_eq] at hp hp'
    exact L.no_fork hv hv' (by rw [hp]; exact hne) (hp.trans hp'.symm)
  unfold child
  rw [Table.find?_eq_some_iff huniq]
  constructor
  · rintro ⟨k, hk, hp⟩
    exact ⟨L.find_hash hk, by simpa using hp⟩
  · rintro ⟨hc, hp⟩
    exact ⟨c.hash, hc, by simpa using hp⟩

theorem child_eq_none_iff (h : BlockHash) :
    L.child h = none ↔ ∀ k e, L.find k = some e → e.previous ≠ h := by
  unfold child
  rw [Table.find?_eq_none_iff]
  constructor
  · intro hall k e he
    simpa using hall k e he
  · intro hall k e he
    simpa using hall k e he

theorem receiver_eq_some_iff (h : BlockHash) (r : Entry) :
    L.receiver h = some r ↔ L.find r.hash = some r ∧ r.source env = some h := by
  have huniq : ∀ k v k' v', L.entries.get k = some v → L.entries.get k' = some v' →
      decide (v.source env = some h) = true → decide (v'.source env = some h) = true →
      v = v' := by
    intro k v k' v' hv hv' hp hp'
    simp only [decide_eq_true_eq] at hp hp'
    exact L.no_double_receive hv hv' hp hp'
  unfold receiver
  rw [Table.find?_eq_some_iff huniq]
  constructor
  · rintro ⟨k, hk, hp⟩
    exact ⟨L.find_hash hk, by simpa using hp⟩
  · rintro ⟨hc, hp⟩
    exact ⟨r.hash, hc, by simpa using hp⟩

theorem receiver_eq_none_iff (h : BlockHash) :
    L.receiver h = none ↔ ∀ k e, L.find k = some e → e.source env ≠ some h := by
  unfold receiver
  rw [Table.find?_eq_none_iff]
  constructor
  · intro hall k e he
    simpa using hall k e he
  · intro hall k e he
    simpa using hall k e he

end Lookup

section Chains

variable (L : BlockLattice env U) {h : BlockHash} {e : Entry} {t : Nat}

theorem height_pos (he : L.find h = some e) : 0 < e.height := by
  by_cases hp : e.previous = 0
  · simp [(L.opening he hp).height]
  · obtain ⟨p, -, -, hext⟩ := L.exists_previous he hp
    rw [hext.height]
    exact Nat.succ_pos _

theorem eq_of_height_eq :
    ∀ (n : Nat) {h h' : BlockHash} {e e' : Entry},
      L.find h = some e → L.find h' = some e' →
      e.account = e'.account → e.height = n → e'.height = n → e = e' := by
  intro n
  induction n with
  | zero =>
    intro h h' e e' he _ _ hn _
    have hpos := L.height_pos he
    omega
  | succ n ih =>
    intro h h' e e' he he' hacc hn hn'
    by_cases hp : e.previous = 0
    · by_cases hp' : e'.previous = 0
      · exact L.open_unique he he' hp hp' hacc
      · obtain ⟨p', hfind', -, hext'⟩ := L.exists_previous he' hp'
        have hheight := (L.opening he hp).height
        have hpos := L.height_pos hfind'
        have hheight' := hext'.height
        omega
    · obtain ⟨p, hfind, -, hext⟩ := L.exists_previous he hp
      by_cases hp' : e'.previous = 0
      · have hheight := (L.opening he' hp').height
        have hpos := L.height_pos hfind
        have hheight' := hext.height
        omega
      · obtain ⟨p', hfind', -, hext'⟩ := L.exists_previous he' hp'
        have hpp : p = p' := by
          refine ih hfind hfind' ?_ ?_ ?_
          · rw [← hext.account, ← hext'.account, hacc]
          · have := hext.height
            omega
          · have := hext'.height
            omega
        have hprev : e.previous = e'.previous := by
          rw [← L.keyed hfind, ← L.keyed hfind', hpp]
        exact L.no_fork he he' hp hprev

theorem exists_child_of_height_lt :
    ∀ (n : Nat) {h h' : BlockHash} {x e : Entry},
      L.find h = some x → L.find h' = some e →
      x.account = e.account → e.height = n → x.height < n →
      ∃ c, L.find c.hash = some c ∧ c.previous = x.hash ∧ c.previous ≠ 0 := by
  intro n
  induction n with
  | zero =>
    intro h h' x e _ _ _ _ hlt
    omega
  | succ n ih =>
    intro h h' x e hx he hacc hn hlt
    by_cases hp : e.previous = 0
    · have hheight := (L.opening he hp).height
      have hpos := L.height_pos hx
      omega
    · obtain ⟨p, hfind, -, hext⟩ := L.exists_previous he hp
      have hheight := hext.height
      by_cases heq : x.height = n
      · have hxp : x = p := by
          refine L.eq_of_height_eq n hx hfind ?_ heq (by omega)
          rw [hacc, hext.account]
        refine ⟨e, L.find_hash he, ?_, hp⟩
        rw [hxp, L.keyed hfind]
      · exact ih hx hfind (by rw [hacc, hext.account]) (by omega) (by omega)

theorem eq_of_child_eq_none {h' : BlockHash} {e' : Entry} (he : L.find h = some e)
    (he' : L.find h' = some e') (hacc : e.account = e'.account) (hc : L.child e.hash = none)
    (hc' : L.child e'.hash = none) : e = e' := by
  rw [child_eq_none_iff] at hc hc'
  rcases Nat.lt_trichotomy e.height e'.height with hlt | heq | hgt
  · obtain ⟨c, hfind, hprev, -⟩ :=
      L.exists_child_of_height_lt e'.height he he' hacc rfl hlt
    exact absurd hprev (hc c.hash c hfind)
  · exact L.eq_of_height_eq e.height he he' hacc rfl heq.symm
  · obtain ⟨c, hfind, hprev, -⟩ :=
      L.exists_child_of_height_lt e.height he' he hacc.symm rfl hgt
    exact absurd hprev (hc' c.hash c hfind)

theorem head_eq_some_iff (a : Account) (e : Entry) :
    L.head a = some e ↔
      L.find e.hash = some e ∧ e.account = a ∧ L.child e.hash = none := by
  have huniq : ∀ k v k' v', L.entries.get k = some v → L.entries.get k' = some v' →
      (decide (v.account = a) && (L.child v.hash).isNone) = true →
      (decide (v'.account = a) && (L.child v'.hash).isNone) = true → v = v' := by
    intro k v k' v' hv hv' hp hp'
    simp only [Bool.and_eq_true, decide_eq_true_eq, Option.isNone_iff_eq_none] at hp hp'
    exact L.eq_of_child_eq_none hv hv' (hp.1.trans hp'.1.symm) hp.2 hp'.2
  unfold head
  rw [Table.find?_eq_some_iff huniq]
  simp only [Bool.and_eq_true, decide_eq_true_eq, Option.isNone_iff_eq_none]
  constructor
  · rintro ⟨k, hk, hp⟩
    exact ⟨L.find_hash hk, hp⟩
  · rintro ⟨hfind, hp⟩
    exact ⟨e.hash, hfind, hp⟩

theorem older_lt_older (he : L.find h = some e) (ht : t < e.time) : L.older t < L.older e.time := by
  refine Table.count_lt_count ?_ he ?_ ?_
  · intro v hv
    simp only [decide_eq_true_eq] at hv ⊢
    omega
  · simpa using ht
  · simp

theorem newer_lt_newer (he : L.find h = some e) (ht : e.time < t) : L.newer t < L.newer e.time := by
  refine Table.count_lt_count ?_ he ?_ ?_
  · intro v hv
    simp only [decide_eq_true_eq] at hv ⊢
    omega
  · simpa using ht
  · simp

theorem older_pos (he : L.find h = some e) : 0 < L.older e.time := by
  have hcount := Table.count_of_get (p := fun x : Entry => decide (x.time ≤ e.time)) he
  unfold older
  rw [hcount]
  simp

theorem newer_pos (he : L.find h = some e) : 0 < L.newer e.time := by
  have hcount := Table.count_of_get (p := fun x : Entry => decide (e.time ≤ x.time)) he
  unfold newer
  rw [hcount]
  simp

theorem older_le_size (t : Nat) : L.older t ≤ L.entries.size :=
  Table.count_le_size _ _

theorem newer_le_size (t : Nat) : L.newer t ≤ L.entries.size :=
  Table.count_le_size _ _

theorem height_le_older :
    ∀ (n : Nat) {h : BlockHash} {e : Entry}, L.find h = some e → e.height = n →
      n ≤ L.older e.time := by
  intro n
  induction n with
  | zero =>
    intro h e _ _
    exact Nat.zero_le _
  | succ n ih =>
    intro h e he hn
    by_cases hz : e.previous = 0
    · have hone := (L.opening he hz).height
      have hpos := L.older_pos he
      omega
    · obtain ⟨p, hp, htime, hext⟩ := L.exists_previous he hz
      have hle := ih hp (by have := hext.height; omega)
      have hlt := L.older_lt_older he htime
      omega

theorem height_le_size (he : L.find h = some e) : e.height ≤ L.entries.size :=
  (L.height_le_older e.height he rfl).trans (L.older_le_size e.time)

end Chains

end BlockLattice

end Badem
