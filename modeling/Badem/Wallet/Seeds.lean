import Badem.Core.WalletSeeds
import Badem.Ledger.Receivable
import Badem.Wallet.Backups

/-!
# Changes of the seed

The scan goes up to 64 indices past the last used index, and a bit further for large indices,
and the keys up to the last used index are inserted.
-/

namespace Badem

open Mdb WalletStore

/-! ## Clearing -/

namespace WalletStore

theorem clearLoop_eq (rest : List (Account × WalletValue)) :
    ∀ {w : WalletStore} {below : List (Account × WalletValue)} {fuel : Nat},
      w.table.entries = below ++ rest → rest.length < fuel →
      clearLoop fuel below.length w = rest.foldlM clearEntry w := by
  induction rest with
  | nil =>
    intro w below fuel h hfuel
    obtain ⟨fuel, rfl⟩ := Nat.exists_eq_succ_of_ne_zero (by omega : fuel ≠ 0)
    rw [clearLoop, List.getElem?_eq_none (by rw [h, List.append_nil])]
    rfl
  | cons x rest ih =>
    intro w below fuel h hfuel
    obtain ⟨fuel, rfl⟩ := Nat.exists_eq_succ_of_ne_zero (by omega : fuel ≠ 0)
    have hentry : w.table.entries[below.length]? = some x := by
      rw [h, List.getElem?_append_right le_rfl]
      simp
    have hrest : rest.length < fuel := by
      rw [List.length_cons] at hfuel
      omega
    rw [clearLoop, hentry, List.foldlM_cons]
    simp only
    by_cases htype : x.2.keyType = .deterministic
    · have hsome : (w.table.get x.1).isSome = true := by
        rw [(w.table.mem_entries_iff x.1 x.2).mp (by rw [h]; simp)]
        rfl
      have herase : w.erase x.1 = .ok { w with table := w.table.del x.1 } := by
        rw [erase, require_of hsome]
        rfl
      have hdel := Table.entries_del_of_append h
      have hsorted := w.table.sorted
      rw [h] at hsorted
      obtain ⟨-, hafter, hbefore⟩ := List.pairwise_append.mp hsorted
      have hpos : (w.table.del x.1).position x.1 = below.length :=
        Table.position_of_append hdel (fun y hy => hbefore y hy x (.head _))
          (fun y hy => ((List.pairwise_cons.mp hafter).1 y hy).le)
      rw [if_pos htype, clearEntry, if_pos htype, herase, ok_bind, ok_bind, hpos]
      exact ih hdel hrest
    · have hnext : w.table.entries = (below ++ [x]) ++ rest := by simpa using h
      rw [if_neg htype, clearEntry, if_neg htype, ok_bind]
      have hlength : below.length + 1 = (below ++ [x]).length := by simp
      rw [hlength]
      exact ih hnext hrest

theorem deterministicClear_eq_clearLoop (w : WalletStore) :
    w.deterministicClear =
      (clearLoop (w.table.size + 1) (w.table.position specialCount) w >>= fun w =>
        pure (w.deterministicIndexSet 0)) := by
  obtain ⟨below, rest, h, hpos, hbelow, hrest⟩ := w.table.exists_position specialCount
  have haccounts : w.accountEntries = rest := by
    rw [accountEntries, h, List.filter_append,
      List.filter_eq_nil_iff.mpr fun x hx => by simpa using hbelow x hx,
      List.filter_eq_self.mpr fun x hx => decide_eq_true (hrest x hx), List.nil_append]
  have hfuel : rest.length < w.table.size + 1 := by
    rw [Table.size, h, List.length_append]
    omega
  rw [hpos, clearLoop_eq rest h hfuel, deterministicClear, haccounts]

end WalletStore

/-! ## The scan -/

section Scan

def seedAccount (crypto : Crypto) (seed : RawKey) (i : Nat) : Account :=
  crypto.publicKey (crypto.deterministicKey seed (BitVec.ofNat 32 i))

def Active (s : BlockStore) (a : Account) : Prop :=
  Ledger.latest s a ≠ 0 ∨ ∃ hash, (s.pendingGet ⟨a, hash⟩).isSome = true

def Used (crypto : Crypto) (s : BlockStore) (seed : RawKey) (i : Nat) : Prop :=
  Active s (seedAccount crypto seed i)

/-- The indices that the scan reaches: those below 64, and after a used index those up to the
bound that it sets. -/
inductive Scanned (used : Nat → Prop) : Nat → Prop
  | first {i : Nat} : i < 64 → Scanned used i
  | next {i j : Nat} : Scanned used j → used j → i < j + 64 + j / 64 → Scanned used i

def Found (used : Nat → Prop) (i : Nat) : Prop := i = 0 ∨ Scanned used i ∧ used i

variable {used : Nat → Prop} {i : Nat}

theorem Found.scanned {j : Nat} (h : Found used j) (hi : i < j + 64 + j / 64) : Scanned used i := by
  rcases h with rfl | ⟨hj, hused⟩
  · exact .first hi
  · exact .next hj hused hi

theorem Scanned.lt_of_closed {count : Nat}
    (hclosed : ∀ j, j < count + 64 + count / 64 → used j → j ≤ count)
    (h : Scanned used i) : i < count + 64 + count / 64 := by
  induction h with
  | first hi => omega
  | next _ hused hi ih =>
    have hj := hclosed _ ih hused
    omega

theorem accountUsed_iff (s : BlockStore) {a : Account} (ha : a ≠ BitVec.allOnes 256) :
    Wallet.accountUsed s a = true ↔ Active s a := by
  have hnext : a < a + 1 := lt_add_one_of_ne_allOnes ha
  have hrange : (∃ k v, s.pending.get k = some v ∧ ⟨a, 0⟩ ≤ k ∧ k < ⟨a + 1, 0⟩) ↔
      ∃ hash, (s.pendingGet ⟨a, hash⟩).isSome = true := by
    constructor
    · rintro ⟨⟨account, hash⟩, v, hget, hlo, hhi⟩
      have hle : a ≤ account := PendingKey.first_le_iff.mp hlo
      have hlt : account < a + 1 := PendingKey.lt_first_iff.mp hhi
      obtain rfl : a = account := le_antisymm hle
        (not_lt.mp fun h => absurd (add_one_le_of_lt h) (not_le.mpr hlt))
      exact ⟨hash, Option.isSome_iff_exists.mpr ⟨v, hget⟩⟩
    · rintro ⟨hash, hsome⟩
      obtain ⟨v, hget⟩ := Option.isSome_iff_exists.mp hsome
      exact ⟨_, v, hget, PendingKey.first_le_iff.mpr le_rfl, PendingKey.lt_first_iff.mpr hnext⟩
  rw [Wallet.accountUsed, Active]
  by_cases hlatest : Ledger.latest s a = 0
  · rw [if_neg (not_not.mpr hlatest), decide_eq_true_eq, s.pending.position_ne_iff
      (PendingKey.lt_first_iff.mpr hnext : (⟨a, 0⟩ : PendingKey) < _).le, hrange]
    simp [hlatest]
  · simp_all

variable {crypto : Crypto} {s : BlockStore} {w : WalletStore} {prv : RawKey}

theorem keypair_encodeHex (crypto : Crypto) (prv : RawKey) :
    keypair crypto (Uint256.encodeHex prv) = .ok (prv, crypto.publicKey prv) := by
  rw [keypair, Uint256.decodeHex_encodeHex]
  rfl

theorem scanSeed_succ (hvalid : w.validPassword crypto = true) (hseed : w.seed crypto = prv)
    (fuel : Nat) (i n count : Uint32) :
    Wallet.scanSeed crypto s w (fuel + 1) i n count =
      if i < n then
        if Wallet.accountUsed s (crypto.publicKey (crypto.deterministicKey prv i)) = true then
          Wallet.scanSeed crypto s w fuel (i + 1) (i + 64 + i / 64) i
        else
          Wallet.scanSeed crypto s w fuel (i + 1) n count
      else .ok count := by
  have hkey : w.deterministicKey crypto i = .ok (crypto.deterministicKey prv i) := by
    rw [WalletStore.deterministicKey, require_of hvalid, hseed]
    rfl
  rw [Wallet.scanSeed, hkey, ok_bind, keypair_encodeHex, ok_bind]

theorem ofNat_bound (hi : i < 2 ^ 31) :
    (BitVec.ofNat 32 i + 64 + BitVec.ofNat 32 i / 64 : Uint32) =
      BitVec.ofNat 32 (i + 64 + i / 64) := by
  have hmod : i % 2 ^ 32 = i := Nat.mod_eq_of_lt (by omega)
  apply BitVec.eq_of_toNat_eq
  simp only [BitVec.toNat_add, BitVec.toNat_udiv, BitVec.toNat_ofNat, BitVec.ofNat_eq_ofNat, hmod,
    show (64 : Nat) % 2 ^ 32 = 64 from rfl]
  omega

theorem scanSeed_returns (hvalid : w.validPassword crypto = true) (hseed : w.seed crypto = prv)
    (hmax : ∀ i, crypto.publicKey (crypto.deterministicKey prv i) ≠ BitVec.allOnes 256)
    (hfew : ∀ i, Scanned (Used crypto s prv) i → i < 2 ^ 31) (fuel : Nat) :
    ∀ {i count : Nat}, 2 ^ 32 ≤ fuel + i → count < i → i ≤ count + 64 + count / 64 →
      Found (Used crypto s prv) count →
      (∀ j < i, Used crypto s prv j → j ≤ count) →
      ∃ last, Wallet.scanSeed crypto s w fuel (BitVec.ofNat 32 i)
          (BitVec.ofNat 32 (count + 64 + count / 64)) (BitVec.ofNat 32 count) =
            .ok (BitVec.ofNat 32 last) ∧
        Found (Used crypto s prv) last ∧
        ∀ j, Found (Used crypto s prv) j → j ≤ last := by
  have hcount : ∀ {count : Nat},
      Found (Used crypto s prv) count → count < 2 ^ 31 := by
    intro count h
    exact hfew count (h.scanned (by omega))
  induction fuel with
  | zero =>
    intro i count hfuel hlt hle hfound _
    have := hcount hfound
    omega
  | succ fuel ih =>
    intro i count hfuel hlt hle hfound hbefore
    have hsmall := hcount hfound
    rw [scanSeed_succ hvalid hseed]
    have htest : BitVec.ofNat 32 i < BitVec.ofNat 32 (count + 64 + count / 64) ↔
        i < count + 64 + count / 64 := by
      rw [BitVec.lt_def, BitVec.toNat_ofNat, BitVec.toNat_ofNat]
      omega
    by_cases hi : i < count + 64 + count / 64
    · rw [if_pos (htest.mpr hi)]
      have hscanned := hfound.scanned hi
      have hnext : BitVec.ofNat 32 i + 1 = BitVec.ofNat 32 (i + 1) := by
        rw [BitVec.ofNat_add]
        rfl
      have hused := @accountUsed_iff s (seedAccount crypto prv i) (hmax _)
      rw [seedAccount] at hused
      rw [hnext]
      by_cases hactive : Used crypto s prv i
      · rw [if_pos (hused.mpr hactive), ofNat_bound (hfew i hscanned)]
        exact ih (by omega) (by omega) (by omega) (.inr ⟨hscanned, hactive⟩)
          (fun j hj _ => by omega)
      · rw [if_neg fun h => hactive (hused.mp h)]
        refine ih (by omega) (by omega) (by omega) hfound (fun j hj hj' => ?_)
        rcases Nat.lt_succ_iff_lt_or_eq.mp hj with hj | rfl
        · exact hbefore j hj hj'
        · exact absurd hj' hactive
    · rw [if_neg fun h => hi (htest.mp h)]
      refine ⟨count, rfl, hfound, fun j hj => ?_⟩
      rcases hj with rfl | ⟨hj, hused⟩
      · omega
      · have hend := hj.lt_of_closed fun j hj hused => hbefore j (by omega) hused
        exact hbefore j (by omega) hused

end Scan

/-! ## Insertions -/

/-- A wallet with its special entries and a seed, whose password is valid. -/
structure Seeded (crypto : Crypto) (prv : RawKey) (w : WalletStore) : Prop where
  specials : ∀ k, k < specialCount → (w.table.get k).isSome = true
  valid : w.validPassword crypto = true
  seed : w.seed crypto = prv

section Insertions

variable {crypto : Crypto} {prv : RawKey} {w w' w₀ : WalletStore} {p : Nat} {k pub : Account}

theorem keyExists_of_get {v : WalletValue} (h : w.table.get k = some v) : w.keyExists k = true := by
  rw [keyExists, find, h]
  rfl

theorem exists_get_of_keyExists (h : w.keyExists k = true) : ∃ v, w.table.get k = some v :=
  Option.isSome_iff_exists.mp h

theorem Seeded.special_le (h : Seeded crypto prv w) (hk : w.keyExists k = false) :
    specialCount ≤ k := by
  by_contra hlt
  simp [keyExists, find, h.specials k (not_le.mp hlt)] at hk

theorem deterministicIndexGet_set (w : WalletStore) (index : Uint32) :
    (w.deterministicIndexSet index).deterministicIndexGet = index := by
  rw [deterministicIndexGet, deterministicIndexSet, entryGetRaw_entryPutRaw_self]
  apply BitVec.eq_of_toNat_eq
  have hlt := index.isLt
  simp only [BitVec.toNat_setWidth]
  omega

theorem Seeded.insert (h : Seeded crypto prv w) (hindex : w.deterministicIndexGet = .ofNat 32 p)
    (hinsert : Wallet.deterministicInsert crypto w = .ok (pub, w')) :
    Seeded crypto prv w' ∧ ∃ q, p ≤ q ∧ pub = seedAccount crypto prv q ∧
      w.keyExists pub = false ∧
      (∀ i, p ≤ i → i < q → w.keyExists (seedAccount crypto prv i) = true) ∧
      w'.deterministicIndexGet = .ofNat 32 (q + 1) ∧
      ∀ k, k ≠ deterministicIndexSpecial → w'.table.get k =
        if k = pub then some ⟨marker (.ofNat 32 q), 0⟩ else w.table.get k := by
  rw [Wallet.deterministicInsert, if_pos h.valid] at hinsert
  obtain ⟨⟨index, pub'⟩, hsearch, hinsert⟩ := ok_of_bind hinsert
  obtain ⟨rfl, rfl⟩ := Prod.mk.inj (Except.ok.inj hinsert)
  obtain ⟨hfree, n, -, hn, hpassed⟩ := deterministicSearch_first _ hsearch
  obtain ⟨-, hpub⟩ := deterministicSearch_spec _ hsearch
  rw [hindex, ← BitVec.ofNat_add] at hn
  rw [h.seed, hindex] at hpassed
  rw [h.seed, hn] at hpub
  subst hn
  have hspecial : specialCount ≤ pub' := h.special_le hfree
  have hsecrets := (@SameSecrets.entryPutRaw crypto w _ hspecial
    ⟨marker (BitVec.ofNat 32 (p + n)), 0⟩).trans
      (SameSecrets.deterministicIndexSet _ (BitVec.ofNat 32 (p + n) + 1))
  refine ⟨⟨fun k hk => ?_, hsecrets.validPassword.trans h.valid, hsecrets.seed.trans h.seed⟩,
    p + n, Nat.le_add_right p n, hpub.symm, hfree, fun i hi hlt => ?_, ?_, fun k hk => ?_⟩
  · rw [deterministicIndexSet, find_entryPutRaw, find_entryPutRaw]
    split_ifs
    · rfl
    · rfl
    · exact h.specials k hk
  · have hi' := hpassed (i - p) (by omega)
    rwa [← BitVec.ofNat_add, show p + (i - p) = i by omega] at hi'
  · rw [deterministicIndexGet_set, BitVec.ofNat_add (p + n) 1]
    rfl
  · rw [deterministicIndexSet, find_entryPutRaw, if_neg hk, find_entryPutRaw]

theorem Seeded.insert_returns (h : Seeded crypto prv w) {index : Uint32}
    (hfree : w.keyExists (crypto.publicKey (crypto.deterministicKey prv index)) = false) :
    ∃ x, Wallet.deterministicInsert crypto w = .ok x := by
  rw [Wallet.deterministicInsert, if_pos h.valid]
  rw [← h.seed] at hfree
  exact deterministicInsert_returns h.valid hfree

/-- A wallet after insertions that have brought its index to `p`. -/
structure Inserted (crypto : Crypto) (prv : RawKey) (w₀ w : WalletStore) (p : Nat) : Prop
    extends Seeded crypto prv w where
  index : w.deterministicIndexGet = .ofNat 32 p
  kept : ∀ k v, k ≠ deterministicIndexSpecial → w₀.table.get k = some v → w.table.get k = some v
  filled : ∀ i < p, w.keyExists (seedAccount crypto prv i) = true
  added : ∀ k v, k ≠ deterministicIndexSpecial → w.table.get k = some v →
    w₀.table.get k = some v ∨
      ∃ i < p, k = seedAccount crypto prv i ∧ v = ⟨marker (.ofNat 32 i), 0⟩

theorem eq_of_seedAccount
    (hinj : Function.Injective fun i => crypto.publicKey (crypto.deterministicKey prv i))
    {i j : Nat} (hi : i < 2 ^ 32) (hj : j < 2 ^ 32)
    (h : seedAccount crypto prv i = seedAccount crypto prv j) : i = j := by
  have hnat := congrArg BitVec.toNat (hinj h)
  rwa [BitVec.toNat_ofNat, BitVec.toNat_ofNat, Nat.mod_eq_of_lt hi, Nat.mod_eq_of_lt hj] at hnat

section Runs

variable (hinj : Function.Injective fun i => crypto.publicKey (crypto.deterministicKey prv i))
variable (hbase : w₀.keyExists deterministicIndexSpecial = true)
include hinj hbase

theorem Inserted.keyExists_eq (h : Inserted crypto prv w₀ w p) {i : Nat} (hpi : p ≤ i)
    (hi : i < 2 ^ 32) :
    w.keyExists (seedAccount crypto prv i) = w₀.keyExists (seedAccount crypto prv i) := by
  by_cases hindex : seedAccount crypto prv i = deterministicIndexSpecial
  · rw [hindex, hbase]
    exact h.specials _ (by decide)
  · rw [Bool.eq_iff_iff]
    constructor
    · intro hexists
      obtain ⟨v, hv⟩ := exists_get_of_keyExists hexists
      rcases h.added _ v hindex hv with hv | ⟨j, hj, heq, -⟩
      · exact keyExists_of_get hv
      · have := eq_of_seedAccount hinj hi (by omega) heq
        omega
    · intro hexists
      obtain ⟨v, hv⟩ := exists_get_of_keyExists hexists
      exact keyExists_of_get (h.kept _ v hindex hv)

theorem Inserted.step (h : Inserted crypto prv w₀ w p) {j : Nat} (hpj : p ≤ j) (hj : j < 2 ^ 32)
    (hfree : w₀.keyExists (seedAccount crypto prv j) = false) :
    ∃ q w', p ≤ q ∧ q ≤ j ∧
      Wallet.deterministicInsert crypto w = .ok (seedAccount crypto prv q, w') ∧
      Inserted crypto prv w₀ w' (q + 1) ∧
      ∀ i, p ≤ i → i < q → w₀.keyExists (seedAccount crypto prv i) = true := by
  rw [← h.keyExists_eq hinj hbase hpj hj] at hfree
  obtain ⟨⟨pub, w'⟩, hinsert⟩ := h.insert_returns hfree
  obtain ⟨hseeded, q, hpq, rfl, hnew, hpassed, hindex, hget⟩ := h.insert h.index hinsert
  have hqj : q ≤ j := by
    by_contra hlt
    simp [hpassed j hpj (by omega)] at hfree
  have hold : ∀ k v, k ≠ deterministicIndexSpecial → w.table.get k = some v →
      w'.table.get k = some v := by
    intro k v hk hv
    rw [hget k hk, if_neg, hv]
    rintro rfl
    simp [keyExists_of_get hv] at hnew
  have hexists : ∀ i, w.keyExists (seedAccount crypto prv i) = true →
      w'.keyExists (seedAccount crypto prv i) = true := by
    intro i hi
    by_cases hk : seedAccount crypto prv i = deterministicIndexSpecial
    · rw [hk]
      exact hseeded.specials _ (by decide)
    · obtain ⟨v, hv⟩ := exists_get_of_keyExists hi
      exact keyExists_of_get (hold _ v hk hv)
  have hne : seedAccount crypto prv q ≠ deterministicIndexSpecial :=
    (ne_of_special (by decide) (h.special_le hnew)).symm
  refine ⟨q, w', hpq, hqj, hinsert, ⟨hseeded, hindex,
    fun k v hk hv => hold k v hk (h.kept k v hk hv), fun i hi => ?_, fun k v hk hv => ?_⟩,
    fun i hpi hiq => ?_⟩
  · rcases Nat.lt_succ_iff_lt_or_eq.mp hi with hi | rfl
    · refine hexists i ?_
      rcases Nat.lt_or_ge i p with hip | hip
      · exact h.filled i hip
      · exact hpassed i hip hi
    · exact keyExists_of_get ((hget _ hne).trans (if_pos rfl))
  · rw [hget k hk] at hv
    split_ifs at hv with hq
    · exact .inr ⟨q, by omega, hq, (Option.some.inj hv).symm⟩
    · refine (h.added k v hk hv).imp_right ?_
      rintro ⟨i, hi, hentry⟩
      exact ⟨i, by omega, hentry⟩
  · rw [← h.keyExists_eq hinj hbase hpi (by omega)]
    exact hpassed i hpi hiq

theorem Inserted.run {free : Nat → Prop} [DecidablePred free]
    (hfree : ∀ i, free i ↔ w₀.keyExists (seedAccount crypto prv i) = false) {last : Nat}
    (hroom : ∀ i, Nat.count free i ≤ last → i < 2 ^ 31) (count : Nat) :
    ∀ {pub : Account} {w : WalletStore} {p m : Nat}, Inserted crypto prv w₀ w p → m ≤ p →
      Nat.count free p ≤ m → m + count ≤ last + 1 →
      ∃ pub' w' p', Wallet.insertSeed crypto count (pub, w) = .ok (pub', w') ∧
        Inserted crypto prv w₀ w' p' ∧ m + count ≤ p' ∧ Nat.count free p' ≤ m + count := by
  induction count with
  | zero =>
    intro pub w p m h hmp hgaps _
    exact ⟨pub, w, p, rfl, h, hmp, hgaps⟩
  | succ count ih =>
    intro pub w p m h hmp hgaps hlast
    have hlt : Nat.count free p < Nat.count free (2 ^ 31) := by
      by_contra hle
      exact absurd (hroom (2 ^ 31) (by omega)) (lt_irrefl _)
    obtain ⟨j, ⟨hpj, hj⟩, hjfree⟩ := Nat.exists_of_count_lt_count hlt
    obtain ⟨q, w', hpq, -, hinsert, h', hpassed⟩ :=
      h.step hinj hbase hpj (by omega) ((hfree j).mp hjfree)
    have hgaps' : Nat.count free (q + 1) ≤ m + 1 := by
      have hq : Nat.count free q ≤ Nat.count free p := by
        by_contra hlt
        obtain ⟨i, ⟨hpi, hiq⟩, hi⟩ := Nat.exists_of_count_lt_count (not_le.mp hlt)
        simp [hfree, hpassed i hpi hiq] at hi
      rw [Nat.count_succ]
      split_ifs <;> omega
    obtain ⟨pub', w'', p', hrun, hinserted, hp', hgaps''⟩ :=
      @ih (seedAccount crypto prv q) w' (q + 1) (m + 1) h' (by omega) hgaps' (by omega)
    exact ⟨pub', w'', p', bind_eq_of_ok hinsert hrun, hinserted, by omega, by omega⟩

end Runs

/-- Some insertions one after the other, with their accounts. -/
def insertAccounts (crypto : Crypto) : Nat → WalletStore → Except Fault (List Account × WalletStore)
  | 0, w => .ok ([], w)
  | n + 1, w => do
      let (pub, w) ← Wallet.deterministicInsert crypto w
      let (accounts, w) ← insertAccounts crypto n w
      pure (pub :: accounts, w)

theorem Seeded.keyExists_insert (h : Seeded crypto prv w)
    (hinsert : Wallet.deterministicInsert crypto w = .ok (pub, w')) :
    Seeded crypto prv w' ∧ w.keyExists pub = false ∧
      (∃ index, pub = crypto.publicKey (crypto.deterministicKey prv index)) ∧
      ∀ k, w'.keyExists k = (decide (k = pub) || w.keyExists k) := by
  have hindex : w.deterministicIndexGet = .ofNat 32 w.deterministicIndexGet.toNat := by simp
  obtain ⟨h', q, -, hpub, hnew, -, -, hget⟩ := h.insert hindex hinsert
  refine ⟨h', hnew, ⟨_, hpub⟩, fun k => ?_⟩
  by_cases hk : k = deterministicIndexSpecial
  · subst hk
    rw [keyExists, find, h'.specials _ (by decide), keyExists, find, h.specials _ (by decide),
      Bool.or_true]
  · rw [keyExists, find, hget k hk, keyExists, find]
    split_ifs with heq
    · simp [heq]
    · simp [heq]

theorem Seeded.nodup_insertAccounts (n : Nat) :
    ∀ {w w' : WalletStore} {accounts : List Account}, Seeded crypto prv w →
      insertAccounts crypto n w = .ok (accounts, w') →
      accounts.Nodup ∧ ∀ a ∈ accounts, w.keyExists a = false := by
  induction n with
  | zero =>
    intro w w' accounts _ hrun
    cases hrun
    exact ⟨List.nodup_nil, by simp⟩
  | succ n ih =>
    intro w w' accounts h hrun
    obtain ⟨⟨pub, w₁⟩, hinsert, hrun⟩ := ok_of_bind hrun
    obtain ⟨⟨rest, w₂⟩, hrest, hrun⟩ := ok_of_bind hrun
    cases hrun
    obtain ⟨h₁, hnew, -, hexists⟩ := h.keyExists_insert hinsert
    obtain ⟨hnodup, hlater⟩ := ih h₁ hrest
    have hfresh : ∀ a ∈ rest, a ≠ pub ∧ w.keyExists a = false := by
      intro a ha
      have hafter := hlater a ha
      rw [hexists, Bool.or_eq_false_iff, decide_eq_false_iff_not] at hafter
      exact hafter
    refine ⟨List.nodup_cons.mpr ⟨fun hmem => (hfresh pub hmem).1 rfl, hnodup⟩, ?_⟩
    exact List.forall_mem_cons.mpr ⟨hnew, fun a ha => (hfresh a ha).2⟩

theorem Seeded.insertAccounts_returns
    (hinj : Function.Injective fun i => crypto.publicKey (crypto.deterministicKey prv i))
    (n : Nat) :
    ∀ {w : WalletStore} {free : List Uint32}, Seeded crypto prv w → free.Nodup →
      n ≤ free.length →
      (∀ i ∈ free, w.keyExists (crypto.publicKey (crypto.deterministicKey prv i)) = false) →
      ∃ x, insertAccounts crypto n w = .ok x := by
  induction n with
  | zero =>
    intro w free _ _ _ _
    exact ⟨_, rfl⟩
  | succ n ih =>
    intro w free h hnodup hlength hfree
    obtain ⟨first, hfirst⟩ := List.exists_mem_of_length_pos (by omega : 0 < free.length)
    obtain ⟨⟨pub, w₁⟩, hinsert⟩ := h.insert_returns (hfree first hfirst)
    obtain ⟨h₁, -, ⟨index, rfl⟩, hexists⟩ := h.keyExists_insert hinsert
    have hlength' : n ≤ (free.erase index).length := by
      rw [List.length_erase]
      split_ifs <;> omega
    obtain ⟨x, hx⟩ := ih h₁ (hnodup.erase index) hlength' (fun i hi => by
      obtain ⟨hne, hi⟩ := (hnodup.mem_erase_iff).mp hi
      rw [hexists, hfree i hi, Bool.or_false, decide_eq_false_iff_not]
      exact fun heq => hne (hinj heq))
    exact ⟨_, bind_eq_of_ok hinsert (bind_eq_of_ok hx rfl)⟩

end Insertions

/-! ## The change of the seed -/

def Spare (crypto : Crypto) (w : WalletStore) (seed : RawKey) (i : Nat) : Prop :=
  w.clearedEntry (seedAccount crypto seed i) = none

instance Spare.decidable (crypto : Crypto) (w : WalletStore) (seed : RawKey) :
    DecidablePred (Spare crypto w seed) :=
  fun i => inferInstanceAs (Decidable (w.clearedEntry (seedAccount crypto seed i) = none))

/-- The indices that a change of the seed looks at are below `2 ^ 31`. -/
structure FewIndices (crypto : Crypto) (s : BlockStore) (w : WalletStore) (seed : RawKey) :
    Prop where
  scanned : ∀ i, Scanned (Used crypto s seed) i → i < 2 ^ 31
  inserted : ∀ j, Found (Used crypto s seed) j →
    ∀ i, Nat.count (Spare crypto w seed) i ≤ j → i < 2 ^ 31

/-- What a wallet `w` has become once its seed has been changed. -/
structure SeedChanged (crypto : Crypto) (s : BlockStore) (w : WalletStore) (prv : RawKey)
    (w' : WalletStore) : Prop where
  seed : w'.seed crypto = prv
  /-- The deterministic keys are those of the new seed. -/
  cleared : ∀ k v, specialCount ≤ k → w'.table.get k = some v → v.keyType = .deterministic →
    ∃ i, k = seedAccount crypto prv i ∧ v = ⟨marker (.ofNat 32 i), 0⟩
  kept : ∀ k v, specialCount ≤ k → w.table.get k = some v → v.keyType ≠ .deterministic →
    w'.table.get k = some v
  restored : ∀ j, Found (Used crypto s prv) j →
    ∀ i ≤ j, w'.keyExists (seedAccount crypto prv i) = true
  distinct : ∀ n accounts w'', insertAccounts crypto n w' = .ok (accounts, w'') → accounts.Nodup
  /-- Further insertions return while there are accounts left to insert. -/
  further : ∀ free : List Uint32, free.Nodup →
    (∀ i ∈ free, w'.keyExists (crypto.publicKey (crypto.deterministicKey prv i)) = false) →
    ∃ x, insertAccounts crypto free.length w' = .ok x

section Change

variable {crypto : Crypto} {s : BlockStore} {w : WalletStore} {prv : RawKey}

theorem exists_seedSet (hspecials : ∀ k, k < specialCount → (w.table.get k).isSome = true)
    (hvalid : w.validPassword crypto = true) (prv : RawKey) :
    ∃ w₀, w.seedSet crypto prv = .ok w₀ ∧ Inserted crypto prv w₀ w₀ 0 ∧
      ∀ k, specialCount ≤ k → w₀.table.get k = w.clearedEntry k := by
  obtain ⟨w₀, hset, hpassword, hmem, hget⟩ := w.seedSet_spec crypto prv
  have hentry : ∀ k, k < seedSpecial → w₀.entryGetRaw k = w.entryGetRaw k := by
    intro k hk
    rw [entryGetRaw, hget, if_neg hk.ne, w.clearedEntry_of_special (hk.trans (by decide))
      (hk.trans (by decide)).ne, entryGetRaw]
  have hiv : w₀.iv = w.iv := by rw [iv, iv, salt, salt, hentry _ (by decide)]
  have hkey : w₀.walletKey crypto = w.walletKey crypto := by
    rw [walletKey, walletKey, hiv, hpassword, hmem]
  refine ⟨w₀, hset, ⟨⟨fun k hk => ?_, ?_, ?_⟩, ?_, fun _ _ _ hv => hv,
    fun i hi => absurd hi (Nat.not_lt_zero i), fun _ _ _ hv => .inl hv⟩, fun k hk => ?_⟩
  · rw [hget]
    split_ifs
    · rfl
    · exact w.isSome_clearedEntry hk (hspecials k hk)
  · rw [validPassword, check, hentry _ (by decide), hkey, hiv]
    exact hvalid
  · rw [WalletStore.seed, entryGetRaw_of_get ((hget seedSpecial).trans (if_pos rfl)), hkey, hiv,
      Crypto.decrypt_encrypt]
  · rw [deterministicIndexGet, entryGetRaw_of_get ((hget deterministicIndexSpecial).trans
      ((if_neg (by decide)).trans (if_pos rfl)))]
    rfl
  · exact (hget k).trans (if_neg (ne_of_special (by decide) hk).symm)

theorem spare_iff (hspecials : ∀ k, k < specialCount → (w.table.get k).isSome = true)
    {w₀ : WalletStore} (h : Seeded crypto prv w₀)
    (hget : ∀ k, specialCount ≤ k → w₀.table.get k = w.clearedEntry k) (i : Nat) :
    Spare crypto w prv i ↔ w₀.keyExists (seedAccount crypto prv i) = false := by
  rw [Spare, keyExists, find]
  rcases lt_or_ge (seedAccount crypto prv i) specialCount with hlt | hge
  · have hsome := w.isSome_clearedEntry hlt (hspecials _ hlt)
    rw [h.specials _ hlt]
    refine iff_of_false (fun hnone => ?_) (by simp)
    simp [hnone] at hsome
  · rw [hget _ hge, Option.isSome_eq_false_iff, Option.isNone_iff_eq_none]

theorem SeedChanged.of_inserted
    (hinj : Function.Injective fun i => crypto.publicKey (crypto.deterministicKey prv i))
    {w₀ w' : WalletStore} {p : Nat}
    (hget : ∀ k, specialCount ≤ k → w₀.table.get k = w.clearedEntry k)
    (h : Inserted crypto prv w₀ w' p)
    (hrestored : ∀ j, Found (Used crypto s prv) j → j < p) : SeedChanged crypto s w prv w' where
  seed := h.seed
  cleared := by
    intro k v hk hv htype
    rcases h.added k v (ne_of_special (by decide) hk).symm hv with hv | ⟨i, -, hi⟩
    · rw [hget k hk, clearedEntry, if_neg (ne_of_special (by decide) hk).symm,
        Option.filter_eq_some_iff] at hv
      exact absurd hv.2 (by simp [hk, htype])
    · exact ⟨i, hi⟩
  kept := by
    intro k v hk hv htype
    refine h.kept k v (ne_of_special (by decide) hk).symm ?_
    rw [hget k hk, clearedEntry, if_neg (ne_of_special (by decide) hk).symm,
      Option.filter_eq_some_iff]
    exact ⟨hv, by simp [htype]⟩
  restored := fun j hj i hi => h.filled i (hi.trans_lt (hrestored j hj))
  distinct := fun n _ _ hrun => (h.toSeeded.nodup_insertAccounts n hrun).1
  further := fun free hnodup hfree =>
    h.toSeeded.insertAccounts_returns hinj free.length hnodup le_rfl hfree

end Change

/-- A change of the seed restores the accounts of the new seed up to the last used one. -/
theorem seed_change_restores {crypto : Crypto} {s : BlockStore} {w : WalletStore} {prv : RawKey}
    (hspecials : ∀ k, k < specialCount → (w.table.get k).isSome = true)
    (hvalid : w.validPassword crypto = true)
    (hinj : Function.Injective fun i => crypto.publicKey (crypto.deterministicKey prv i))
    (hmax : ∀ i, crypto.publicKey (crypto.deterministicKey prv i) ≠ BitVec.allOnes 256)
    (hfew : FewIndices crypto s w prv) :
    ∃ account w', Wallet.changeSeed crypto s w prv = .ok (account, w') ∧
      SeedChanged crypto s w prv w' := by
  obtain ⟨w₀, hset, h₀, hget⟩ := exists_seedSet hspecials hvalid prv
  have hbase : w₀.keyExists deterministicIndexSpecial = true := h₀.specials _ (by decide)
  have hspare := spare_iff hspecials h₀.toSeeded hget
  obtain ⟨account, w₁, p₁, hfirst, h₁, hp₁, hgaps⟩ :=
    @Inserted.run crypto prv w₀ hinj hbase _ _ hspare 0 (hfew.inserted 0 (Or.inl rfl)) 1 0 w₀ 0 0
      h₀ le_rfl (by simp) (by omega)
  obtain ⟨x, hfirst, hx⟩ := ok_of_bind hfirst
  cases hx
  obtain ⟨last, hscan, hfound, hlast⟩ :=
    @scanSeed_returns crypto s w₁ prv h₁.valid h₁.seed hmax hfew.scanned (2 ^ 32) 1 0
      (by omega) (by omega) (by omega) (Or.inl rfl) (fun j hj _ => by omega)
  obtain ⟨account', w', p', hrest, h', hp', -⟩ :=
    @Inserted.run crypto prv w₀ hinj hbase _ _ hspare last (hfew.inserted last hfound) last
      account w₁ p₁ 1 h₁ hp₁ hgaps (by omega)
  have hsmall : last < 2 ^ 31 := hfew.scanned last (hfound.scanned (by omega))
  have htoNat : (BitVec.ofNat 32 last).toNat = last := by
    rw [BitVec.toNat_ofNat, Nat.mod_eq_of_lt (by omega)]
  refine ⟨account', w', ?_, .of_inserted hinj hget h' fun j hj => ?_⟩
  · refine bind_eq_of_ok hset (bind_eq_of_ok hfirst (bind_eq_of_ok hscan ?_))
    rw [htoNat]
    exact hrest
  · have := hlast j hj
    omega

def seedCrypto : Crypto :=
  { sampleCrypto with deterministicKey := fun _ index => index.setWidth 256 + 1000 }

def seedStore : BlockStore :=
  { BlockStore.empty with pending := Table.empty.put ⟨1002, 7⟩ ⟨9, 1⟩ }

theorem toNat_seedCrypto (prv : RawKey) (index : Uint32) :
    (seedCrypto.publicKey (seedCrypto.deterministicKey prv index)).toNat =
      index.toNat + 1000 := by
  have hlt := index.isLt
  show (index.setWidth 256 + 1000 : Uint256).toNat = _
  rw [BitVec.toNat_add, BitVec.toNat_setWidth, show (1000 : Uint256).toNat = 1000 from rfl]
  omega

theorem eq_two_of_used {prv : RawKey} {i : Nat} (hi : i < 2 ^ 32)
    (h : Used seedCrypto seedStore prv i) : i = 2 := by
  rcases h with h | ⟨hash, h⟩
  · exact absurd rfl h
  · have hkey : seedAccount seedCrypto prv i = 1002 := by
      by_contra hne
      have hkey : (⟨seedAccount seedCrypto prv i, hash⟩ : PendingKey) ≠ ⟨1002, 7⟩ :=
        fun heq => hne (PendingKey.mk.inj heq).1
      rw [BlockStore.pendingGet, seedStore, Table.get_put, if_neg hkey] at h
      cases h
    have hnat := congrArg BitVec.toNat hkey
    rw [seedAccount, toNat_seedCrypto, BitVec.toNat_ofNat, Nat.mod_eq_of_lt hi,
      show (1002 : Uint256).toNat = 1002 from rfl] at hnat
    omega

theorem spare_of_create {w : WalletStore}
    (hcreate : create seedCrypto sampleDraws 99 .empty = .ok w) (prv : RawKey) (i : Nat) :
    Spare seedCrypto w prv i := by
  obtain ⟨w', hcreate', -, -, hget⟩ := create_spec seedCrypto sampleDraws 99
  cases hcreate'.symm.trans hcreate
  have hspecial : specialCount ≤ seedAccount seedCrypto prv i := by
    rw [BitVec.le_def, seedAccount, toNat_seedCrypto, show specialCount.toNat = 7 from rfl]
    omega
  rw [Spare, clearedEntry, if_neg (ne_of_special (by decide) hspecial).symm, hget,
    newEntry_eq_none _ _ _ hspecial]
  rfl

theorem seed_change_restores_new_wallet :
    ∃ w account w', create seedCrypto sampleDraws 99 .empty = .ok w ∧
      Wallet.changeSeed seedCrypto seedStore w 77 = .ok (account, w') ∧
      w'.keyExists 1000 = true ∧ w'.keyExists 1001 = true ∧ w'.keyExists 1002 = true := by
  obtain ⟨w, hcreate, -⟩ := create_spec seedCrypto sampleDraws 99
  have hbacked := backed_create hcreate
  have hscanned : ∀ i, Scanned (Used seedCrypto seedStore 77) i → i < 66 := by
    intro i h
    induction h with
    | first hi => omega
    | next _ hused hi ih =>
      have := eq_two_of_used (by omega) hused
      omega
  have hfew : FewIndices seedCrypto seedStore w 77 := by
    refine ⟨fun i hi => ?_, fun j hj i hi => ?_⟩
    · have := hscanned i hi
      omega
    · have hj' : j < 66 := hscanned j (hj.scanned (by omega))
      rw [Nat.count_of_forall fun i _ => spare_of_create hcreate 77 i] at hi
      omega
  have hmax : ∀ index, seedCrypto.publicKey (seedCrypto.deterministicKey 77 index) ≠
      BitVec.allOnes 256 := by
    intro index heq
    have hlt := index.isLt
    have hnat := congrArg BitVec.toNat heq
    rw [toNat_seedCrypto, BitVec.toNat_allOnes] at hnat
    omega
  have hinj : Function.Injective
      fun index => seedCrypto.publicKey (seedCrypto.deterministicKey 77 index) := by
    intro index index' heq
    have hnat := congrArg BitVec.toNat heq
    simp only [toNat_seedCrypto] at hnat
    exact BitVec.eq_of_toNat_eq (by omega)
  obtain ⟨account, w', hchange, h⟩ :=
    seed_change_restores hbacked.specials hbacked.valid hinj hmax hfew
  have hused : Found (Used seedCrypto seedStore 77) 2 :=
    Or.inr ⟨.first (by omega), Or.inr ⟨7, rfl⟩⟩
  exact ⟨w, account, w', hcreate, hchange, h.restored 2 hused 0 (by omega),
    h.restored 2 hused 1 (by omega), h.restored 2 hused 2 le_rfl⟩

end Badem
