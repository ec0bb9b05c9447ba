import Badem.Core.Bootstrap

/-!
# Listing the accounts of a server

The accounts that a frontier request lists.  The cursor takes the account zero for the end of
the table, and after the largest number it starts again from zero.
-/

namespace Badem

open Mdb FrontierReqServer

/-- The two account numbers that the cursors cannot handle are not in use. -/
structure Walkable (s : BlockStore) : Prop where
  zero : s.accountGet 0 = none
  last : s.accountGet (BitVec.allOnes 256) = none

theorem Walkable.ne_zero_of_mem {s : BlockStore} (W : Walkable s) {x : Account × AccountInfo}
    (hx : x ∈ s.accounts.entries) : x.1 ≠ 0 := by
  intro hz
  have hzero := W.zero
  simp [← hz, BlockStore.accountGet, (Table.mem_entries_iff _ _ _).mp hx] at hzero

def WalkEnds (s : BlockStore) : Prop :=
  s.accountGet (BitVec.allOnes 256) = none ∨ (s.accountGet 0).isSome = true

theorem Walkable.walkEnds {s : BlockStore} (W : Walkable s) : WalkEnds s := .inl W.last

namespace FrontierCursor

/-- The cursor stands at the first of the accounts that are still to come. -/
structure At (s : BlockStore) (c : FrontierCursor) (rest : List (Account × AccountInfo)) :
    Prop where
  split : ∃ below, s.accounts.entries = below ++ rest
  done : rest = [] → c.current = 0
  first : ∀ x ∈ rest.head?, c = ⟨x.1, x.2⟩

variable {s : BlockStore} {c : FrontierCursor} {rest : List (Account × AccountInfo)}

theorem at_of_lowerBound {k : Account} (hk : c.current + 1 = k)
    (hsplit : ∃ below, s.accounts.entries = below ++ rest)
    (hbound : s.accounts.lowerBound k = rest.head?) : (c.next s).At s rest := by
  unfold next
  rw [hk, hbound]
  cases rest with
  | nil => exact ⟨hsplit, fun _ => rfl, by simp⟩
  | cons x l => exact ⟨hsplit, by simp, by simp⟩

theorem at_start (hk : ∀ x ∈ s.accounts.entries, c.current + 1 ≤ x.1) :
    (c.next s).At s s.accounts.entries :=
  at_of_lowerBound rfl ⟨[], rfl⟩
    (Table.lowerBound_of_append (List.nil_append _).symm (by simp) hk)

theorem At.length_lt (h : c.At s rest) : rest.length < s.accounts.size + 1 := by
  obtain ⟨below, hsplit⟩ := h.split
  rw [Table.size, hsplit, List.length_append]
  omega

section Cons

variable {x : Account × AccountInfo} (h : c.At s (x :: rest))
include h

theorem At.mem : x ∈ s.accounts.entries := by
  obtain ⟨below, hsplit⟩ := h.split
  rw [hsplit]
  simp

theorem At.get : s.accounts.get x.1 = some x.2 := (Table.mem_entries_iff _ _ _).mp h.mem

theorem At.ne_zero (W : Walkable s) : x.1 ≠ 0 := W.ne_zero_of_mem h.mem

theorem At.lt {y : Account × AccountInfo} (hy : y ∈ rest) : x.1 < y.1 := by
  obtain ⟨below, hsplit⟩ := h.split
  have hsorted := s.accounts.sorted
  rw [hsplit, List.pairwise_append, List.pairwise_cons] at hsorted
  exact hsorted.2.1.1 y hy

theorem At.next_of_ne (hne : x.1 ≠ BitVec.allOnes 256) : (c.next s).At s rest := by
  obtain ⟨below, hsplit⟩ := h.split
  have hlt : x.1 < x.1 + 1 := lt_add_one_of_ne_allOnes hne
  have hsorted := s.accounts.sorted
  rw [hsplit, List.pairwise_append] at hsorted
  have happend : s.accounts.entries = (below ++ [x]) ++ rest := by simp [hsplit]
  refine at_of_lowerBound (k := x.1 + 1) (by rw [h.first x rfl]) ⟨below ++ [x], happend⟩
    (Table.lowerBound_of_append happend ?_ ?_)
  · intro y hy
    rcases List.mem_append.mp hy with hy | hy
    · exact lt_trans (hsorted.2.2 y hy x (.head _)) hlt
    · simp_all
  · intro y hy
    exact add_one_le_of_lt (h.lt hy)

theorem At.next_of_eq (heq : x.1 = BitVec.allOnes 256) :
    rest = [] ∧ (c.next s).At s s.accounts.entries := by
  constructor
  · refine List.eq_nil_iff_forall_not_mem.mpr fun y hy => ?_
    have hlt := h.lt hy
    rw [heq, BitVec.lt_def, BitVec.toNat_allOnes] at hlt
    have := y.1.isLt
    omega
  · refine at_start fun y _ => ?_
    rw [h.first x rfl]
    show x.1 + 1 ≤ y.1
    rw [heq, BitVec.le_def]
    simp

theorem At.next (E : WalkEnds s) : (c.next s).At s rest := by
  by_cases heq : x.1 = BitVec.allOnes 256
  · obtain ⟨rfl, hnext⟩ := h.next_of_eq heq
    -- the table has the account zero, which the cursor takes for its end
    obtain ⟨info, hzero⟩ : ∃ info, s.accounts.get 0 = some info := by
      rcases E with hlast | hzero
      · simp [← heq, BlockStore.accountGet, h.get] at hlast
      · exact Option.isSome_iff_exists.mp hzero
    refine ⟨⟨s.accounts.entries, by simp⟩, fun _ => ?_, by simp⟩
    have hmem := (s.accounts.mem_entries_iff 0 info).mpr hzero
    cases hentries : s.accounts.entries with
    | nil => simp [hentries] at hmem
    | cons y l =>
      rw [hentries] at hmem hnext
      rw [hnext.first y rfl]
      rcases List.mem_cons.mp hmem with hy | hy
      · rw [← hy]
      · have hlt := hnext.lt hy
        simp [BitVec.lt_def] at hlt
  · exact h.next_of_ne heq

end Cons

end FrontierCursor

/-! ## What is requested -/

section Requested

variable (s : BlockStore) (now : Nat) (request : FrontierReq)

def Recent (info : AccountInfo) : Prop :=
  request.age = BitVec.allOnes 32 ∨
    BitVec.ofNat 64 now - BitVec.ofNat 64 info.modified < request.age.setWidth 64

instance (info : AccountInfo) : Decidable (Recent now request info) :=
  inferInstanceAs (Decidable (_ ∨ _))

def accountsFrom : List (Account × AccountInfo) :=
  s.accounts.entries.filter (fun x => decide (request.start ≤ x.1))

theorem exists_accountsFrom :
    ∃ below, s.accounts.entries = below ++ accountsFrom s request ∧
      (∀ x ∈ below, x.1 < request.start) ∧ ∀ x ∈ accountsFrom s request, request.start ≤ x.1 := by
  obtain ⟨below, rest, hsplit, -, hbelow, hrest⟩ := s.accounts.exists_position request.start
  have hfrom : accountsFrom s request = rest := by
    rw [accountsFrom, hsplit, List.filter_append, List.filter_eq_nil_iff.mpr,
      List.filter_eq_self.mpr, List.nil_append]
    · intro x hx
      exact decide_eq_true (hrest x hx)
    · intro x hx hle
      exact absurd (hbelow x hx) (not_lt.mpr (of_decide_eq_true hle))
  rw [hfrom]
  exact ⟨below, hsplit, hbelow, hrest⟩

theorem at_accountsFrom :
    (FrontierCursor.next s ⟨request.start - 1, .zero⟩).At s (accountsFrom s request) := by
  obtain ⟨below, hsplit, hbelow, hfrom⟩ := exists_accountsFrom s request
  refine FrontierCursor.at_of_lowerBound (k := request.start) ?_ ⟨below, hsplit⟩
    (Table.lowerBound_of_append hsplit hbelow hfrom)
  show request.start - 1 + 1 = request.start
  exact sub_add_cancel _ _

theorem head_accountsFrom {x : Account × AccountInfo} {l : List (Account × AccountInfo)}
    (h : accountsFrom s request = x :: l) :
    x.1 = 0 ↔ request.start = 0 ∧ (s.accountGet 0).isSome = true := by
  obtain ⟨below, hsplit, hbelow, hfrom⟩ := exists_accountsFrom s request
  constructor
  · intro hz
    constructor
    · have hle := hfrom x (by rw [h]; exact .head _)
      rw [hz, BitVec.le_def] at hle
      exact BitVec.eq_of_toNat_eq (by simpa using hle)
    · have hmem : x ∈ s.accounts.entries := by rw [hsplit, h]; simp
      rw [BlockStore.accountGet, ← hz, (Table.mem_entries_iff _ _ _).mp hmem]
      rfl
  · rintro ⟨hstart, hzero⟩
    obtain ⟨info, hget⟩ := Option.isSome_iff_exists.mp hzero
    have hmem := (s.accounts.mem_entries_iff 0 info).mpr hget
    rw [hsplit, h] at hmem
    have hsorted := s.accounts.sorted
    rw [hsplit, h, List.pairwise_append, List.pairwise_cons] at hsorted
    rcases List.mem_append.mp hmem with hy | hy
    · have hlt := hbelow _ hy
      rw [hstart] at hlt
      exact absurd hlt (lt_irrefl _)
    · rcases List.mem_cons.mp hy with hx | hy
      · rw [← hx]
      · have hlt := hsorted.2.1.1 _ hy
        simp [BitVec.lt_def] at hlt

end Requested

/-! ## What is sent -/

section Sent

variable {s : BlockStore} {now : Nat} {request : FrontierReq}
variable {c : FrontierCursor} {rest : List (Account × AccountInfo)}

theorem skipOld_of_zero (fuel : Nat) (hc : c.current = 0) :
    skipOld s now request (fuel + 1) c = .ok c :=
  if_neg fun h => h.2.1 hc

theorem sendNext_of_zero (fuel : Nat) (hc : c.current = 0) :
    sendNext s (fuel + 1) c = .ok [(0, 0)] :=
  if_neg (not_not_intro hc)

theorem skipOld_eq (E : WalkEnds s) :
    ∀ (fuel : Nat) {c : FrontierCursor} {rest : List (Account × AccountInfo)},
      c.At s rest → (∀ x ∈ rest, x.1 ≠ 0) → rest.length < fuel →
      ∃ c', skipOld s now request fuel c = .ok c' ∧
        c'.At s (rest.dropWhile (fun x => !decide (Recent now request x.2))) := by
  intro fuel
  induction fuel with
  | zero =>
    intro c rest _ _ hlen
    omega
  | succ fuel ih =>
    intro c rest hc hzero hlen
    cases rest with
    | nil => exact ⟨c, skipOld_of_zero fuel (hc.done rfl), hc⟩
    | cons x rest =>
      obtain rfl := hc.first x rfl
      by_cases hrecent : Recent now request x.2
      · refine ⟨_, if_neg fun h => ?_, by simpa [hrecent] using hc⟩
        rcases hrecent with hage | hlt
        · exact h.1 hage
        · exact absurd h.2.2 (not_le.mpr hlt)
      · obtain ⟨hage, hold⟩ := not_or.mp hrecent
        obtain ⟨c', hrun, hat⟩ := ih (hc.next E)
          (fun y hy => hzero y (.tail _ hy)) (by simp at hlen; omega)
        refine ⟨c', ?_, by simpa [hrecent] using hat⟩
        rw [skipOld,
          if_pos ⟨hage, hzero x (.head _), not_lt.mp hold⟩]
        exact hrun

theorem sendNext_eq (E : WalkEnds s) :
    ∀ (fuel : Nat) {c : FrontierCursor} {rest : List (Account × AccountInfo)},
      c.At s rest → (∀ x ∈ rest, x.1 ≠ 0) → rest.length < fuel →
      sendNext s fuel c =
        .ok (rest.map (fun x => (x.1, x.2.head)) ++ [(0, 0)]) := by
  intro fuel
  induction fuel with
  | zero =>
    intro c rest _ _ hlen
    omega
  | succ fuel ih =>
    intro c rest hc hzero hlen
    cases rest with
    | nil => exact sendNext_of_zero fuel (hc.done rfl)
    | cons x rest =>
      obtain rfl := hc.first x rfl
      have hrest := ih (hc.next E) (fun y hy => hzero y (.tail _ hy))
        (by simp at hlen; omega)
      rw [sendNext, if_pos (hzero x (.head _)), hrest]
      rfl

theorem frontierReqServer_run (E : WalkEnds s) :
    run s now request =
      .ok ((if request.start = 0 ∧ (s.accountGet 0).isSome = true then []
        else ((accountsFrom s request).dropWhile
          (fun x => !decide (Recent now request x.2))).map (fun x => (x.1, x.2.head))) ++
        [(0, 0)]) := by
  have hstart := at_accountsFrom s request
  unfold run
  by_cases hz : request.start = 0 ∧ (s.accountGet 0).isSome = true
  · have hcurrent : (FrontierCursor.next s ⟨request.start - 1, .zero⟩).current = 0 := by
      cases hfrom : accountsFrom s request with
      | nil => exact hstart.done hfrom
      | cons x l =>
        rw [hfrom] at hstart
        rw [hstart.first x rfl]
        exact (head_accountsFrom s request hfrom).mpr hz
    rw [if_pos hz]
    exact bind_eq_of_ok (skipOld_of_zero _ hcurrent) (sendNext_of_zero _ hcurrent)
  · have hne : ∀ x ∈ accountsFrom s request, x.1 ≠ 0 := by
      cases hfrom : accountsFrom s request with
      | nil => simp
      | cons y l =>
        have hy := (head_accountsFrom s request hfrom).not.mpr hz
        rw [hfrom] at hstart
        intro x hx
        rcases List.mem_cons.mp hx with rfl | hx
        · exact hy
        · intro hx0
          have hlt := hstart.lt hx
          simp [hx0, BitVec.lt_def] at hlt
    obtain ⟨c, hskip, hat⟩ := @skipOld_eq s now request E _ _ _ hstart hne hstart.length_lt
    rw [if_neg hz]
    refine bind_eq_of_ok hskip (sendNext_eq E _ hat ?_ hat.length_lt)
    intro x hx
    exact hne x ((List.dropWhile_sublist _).subset hx)

/-! Otherwise the cursor goes round and round. -/

section Endless

variable (hE : ¬ WalkEnds s)
include hE

end Endless

end Sent

def listedStore : BlockStore :=
  (BlockStore.empty.accountPut 1 ⟨11, 11, 11, 5, 100, 1⟩).accountPut 2 ⟨12, 12, 12, 5, 0, 1⟩

end Badem
