import Badem.Bootstrap.FrontierServer

/-!
# Merging a list of frontiers with the own accounts

The cursor of the client passes by the accounts before the one that the server sends, so that
each account of either party is met once.
-/

namespace Badem

open Mdb

/-- The pull that follows from one account of the list. -/
def pullFor (s : BlockStore) (account : Account) (latest : BlockHash) : Option PullInfo :=
  match s.accountGet account with
  | none => some ⟨account, latest, 0⟩
  | some info =>
    if latest = info.head ∨ s.blockExists latest = true then none
    else some ⟨account, latest, info.head⟩

/-- The blocks that the server lacks of one account of the client. -/
def pushFor (s : BlockStore) (frontiers : List (Account × BlockHash))
    (x : Account × AccountInfo) : Option (BlockHash × BlockHash) :=
  match frontiers.find? (fun f => decide (f.1 = x.1)) with
  | none => some (x.2.head, 0)
  | some f =>
    if f.2 = x.2.head ∨ s.blockExists f.2 = false then none
    else some (x.2.head, f.2)

section PushFor

variable {s : BlockStore} {frontiers : List (Account × BlockHash)} {f : Account × BlockHash}
variable {x : Account × AccountInfo}

theorem pushFor_of_not_mem (h : ∀ f ∈ frontiers, f.1 ≠ x.1) :
    pushFor s frontiers x = some (x.2.head, 0) := by
  have hnone : frontiers.find? (fun f => decide (f.1 = x.1)) = none :=
    List.find?_eq_none.mpr fun f hf => by simpa using h f hf
  rw [pushFor, hnone]

theorem pushFor_cons_of_ne (h : f.1 ≠ x.1) :
    pushFor s (f :: frontiers) x = pushFor s frontiers x := by
  rw [pushFor, List.find?_cons_of_neg (by simpa using h)]
  rfl

theorem pushFor_cons_of_eq (h : f.1 = x.1) :
    pushFor s (f :: frontiers) x =
      if f.2 = x.2.head ∨ s.blockExists f.2 = false then none else some (x.2.head, f.2) := by
  rw [pushFor, List.find?_cons_of_pos (by simpa using h)]

end PushFor

namespace FrontierReqClient

variable {s : BlockStore} {c : FrontierReqClient}

@[simp] theorem unsynced_pulls (c : FrontierReqClient) (head endBlock : BlockHash) :
    (c.unsynced head endBlock).pulls = c.pulls := by
  unfold unsynced
  split_ifs <;> rfl

@[simp] theorem unsynced_cursor (c : FrontierReqClient) (head endBlock : BlockHash) :
    (c.unsynced head endBlock).cursor = c.cursor := by
  unfold unsynced
  split_ifs <;> rfl

@[simp] theorem unsynced_calls (c : FrontierReqClient) (head endBlock : BlockHash) :
    (c.unsynced head endBlock).unsyncedCalls = c.unsyncedCalls ++ [(head, endBlock)] := by
  unfold unsynced
  split_ifs <;> rfl

theorem passBy_spec (W : Walkable s) (behind : Account → Bool)
    {above : List (Account × AccountInfo)} (habove : ∀ x ∈ above.head?, behind x.1 = false) :
    ∀ (fuel : Nat) {c : FrontierReqClient} {below : List (Account × AccountInfo)},
      c.cursor.At s (below ++ above) → (∀ x ∈ below, behind x.1 = true) →
      (below ++ above).length < fuel →
      ∃ c', passBy s behind fuel c = .ok c' ∧ c'.pulls = c.pulls ∧
        c'.unsyncedCalls = c.unsyncedCalls ++ below.map (fun x => (x.2.head, 0)) ∧
        c'.cursor.At s above := by
  intro fuel
  induction fuel with
  | zero =>
    intro c below _ _ hlen
    omega
  | succ fuel ih =>
    intro c below hc hbelow hlen
    cases below with
    | nil =>
      refine ⟨c, if_neg ?_, rfl, by simp, hc⟩
      rintro ⟨hcurrent, hbehind⟩
      cases above with
      | nil => exact hcurrent (hc.done rfl)
      | cons x above => simp [hc.first x rfl, habove x rfl] at hbehind
    | cons x below =>
      have hcursor := hc.first x rfl
      have hnext : ((c.unsynced c.cursor.info.head 0).next s).cursor.At s (below ++ above) := by
        show ((c.unsynced _ 0).cursor.next s).At s (below ++ above)
        rw [unsynced_cursor]
        exact hc.next W.walkEnds
      obtain ⟨c', hrun, hpulls, hcalls, hat⟩ := ih hnext
        (fun y hy => hbelow y (.tail _ hy)) (by simp at hlen ⊢; omega)
      refine ⟨c', ?_, hpulls.trans (unsynced_pulls _ _ _), ?_, hat⟩
      · rw [passBy, if_pos (by
          rw [hcursor]
          exact ⟨hc.ne_zero W, hbelow x (.head _)⟩)]
        exact hrun
      · show c'.unsyncedCalls = _
        rw [hcalls]
        show (c.unsynced _ 0).unsyncedCalls ++ _ = _
        rw [unsynced_calls, hcursor, List.append_assoc]
        rfl

theorem compareHeads_spec {a : Account} {info : AccountInfo} (latest : BlockHash)
    (hcursor : c.cursor = ⟨a, info⟩) (hinfo : s.accountGet a = some info) :
    (c.compareHeads s a latest).pulls = c.pulls ++ (pullFor s a latest).toList ∧
      (c.compareHeads s a latest).unsyncedCalls =
        c.unsyncedCalls ++ (pushFor s [(a, latest)] (a, info)).toList ∧
      (c.compareHeads s a latest).cursor = c.cursor := by
  rw [pushFor_cons_of_eq rfl, compareHeads, pullFor, hinfo, hcursor]
  by_cases hsame : latest = info.head
  · simp [hsame, hcursor]
  · by_cases hknown : s.blockExists latest = true
    · simp [hsame, hknown, hcursor]
    · simp [hsame, hknown, addPull, hcursor]

section Received

variable {a : Account} {rest below above : List (Account × AccountInfo)}
  {frontiers : List (Account × BlockHash)}

theorem exists_split (hsorted : rest.Pairwise (fun x y => x.1 < y.1)) (a : Account) :
    ∃ below above, (∀ x ∈ below, x.1 < a) ∧ (∀ x ∈ above, a < x.1) ∧
      (rest = below ++ above ∨ ∃ info, rest = below ++ (a, info) :: above) := by
  induction rest with
  | nil => exact ⟨[], [], by simp, by simp, .inl rfl⟩
  | cons x rest ih =>
    obtain ⟨hx, hsorted⟩ := List.pairwise_cons.mp hsorted
    rcases lt_trichotomy x.1 a with hlt | rfl | hlt
    · obtain ⟨below, above, hbelow, habove, hrest⟩ := ih hsorted
      refine ⟨x :: below, above, ?_, habove, ?_⟩
      · intro y hy
        rcases List.mem_cons.mp hy with rfl | hy
        · exact hlt
        · exact hbelow y hy
      · rcases hrest with rfl | ⟨info, rfl⟩
        · exact .inl rfl
        · exact .inr ⟨info, rfl⟩
    · exact ⟨[], rest, by simp, hx, .inr ⟨x.2, rfl⟩⟩
    · refine ⟨[], x :: rest, by simp, ?_, .inl rfl⟩
      intro y hy
      rcases List.mem_cons.mp hy with rfl | hy
      · exact hlt
      · exact hlt.trans (hx y hy)

theorem receivedFrontier_unknown (W : Walkable s) (latest : BlockHash) (ha : a ≠ 0)
    (hnone : s.accountGet a = none) (hc : c.cursor.At s (below ++ above))
    (hbelow : ∀ x ∈ below, x.1 < a) (habove : ∀ x ∈ above, a < x.1) :
    ∃ c', c.receivedFrontier s a latest = .ok c' ∧
      c'.pulls = c.pulls ++ (pullFor s a latest).toList ∧
      c'.unsyncedCalls = c.unsyncedCalls ++ below.map (fun x => (x.2.head, 0)) ∧
      c'.cursor.At s above := by
  obtain ⟨c₁, hc₁, hpulls, hcalls, hat⟩ := passBy_spec W (fun x => decide (x < a))
    (fun x hx => decide_eq_false (not_lt.mpr (habove x (List.mem_of_mem_head? hx)).le)) _ hc
    (fun x hx => decide_eq_true (hbelow x hx)) hc.length_lt
  refine ⟨c₁.addPull ⟨a, latest, 0⟩, ?_, ?_, hcalls, hat⟩
  · rw [receivedFrontier, if_pos ha, hc₁, ok_bind]
    cases above with
    | nil =>
      rw [if_neg (not_not_intro (hat.done rfl))]
      rfl
    | cons y above =>
      have hlt := habove y (.head _)
      rw [hat.first y rfl, if_pos (hat.ne_zero W), if_neg (ne_of_lt hlt), require_of hlt]
      rfl
  · rw [pullFor, hnone]
    show c₁.pulls ++ _ = _
    rw [hpulls]
    rfl

theorem receivedFrontier_known (W : Walkable s)
    {info : AccountInfo} (latest : BlockHash) (ha : a ≠ 0)
    (hc : c.cursor.At s (below ++ (a, info) :: above)) (hbelow : ∀ x ∈ below, x.1 < a) :
    ∃ c', c.receivedFrontier s a latest = .ok c' ∧
      c'.pulls = c.pulls ++ (pullFor s a latest).toList ∧
      c'.unsyncedCalls = c.unsyncedCalls ++ below.map (fun x => (x.2.head, 0)) ++
        (pushFor s [(a, latest)] (a, info)).toList ∧
      c'.cursor.At s above := by
  have hfirst : ∀ x ∈ ((a, info) :: above).head?, decide (x.1 < a) = false := by
    intro x hx
    cases hx
    exact decide_eq_false (lt_irrefl a)
  obtain ⟨c₁, hc₁, hpulls, hcalls, hat⟩ := passBy_spec W (fun x => decide (x < a)) hfirst _ hc
    (fun x hx => decide_eq_true (hbelow x hx)) hc.length_lt
  have hcursor := hat.first (a, info) rfl
  obtain ⟨hpulls', hcalls', hcursor'⟩ := compareHeads_spec latest hcursor hat.get
  refine ⟨(c₁.compareHeads s a latest).next s, ?_, ?_, ?_, ?_⟩
  · rw [receivedFrontier, if_pos ha, hc₁, ok_bind, hcursor, if_pos ha, if_pos rfl]
    rfl
  · show (c₁.compareHeads s a latest).pulls = _
    rw [hpulls', hpulls]
  · show (c₁.compareHeads s a latest).unsyncedCalls = _
    rw [hcalls', hcalls]
  · show ((c₁.compareHeads s a latest).cursor.next s).At s above
    rw [hcursor']
    exact hat.next W.walkEnds

theorem receivedFrontier_spec (W : Walkable s) (f : Account × BlockHash) (hf : f.1 ≠ 0)
    (hlater : ∀ g ∈ frontiers, f.1 < g.1) (hc : c.cursor.At s rest)
    (hpast : ∀ x ∈ s.accounts.entries, x ∈ rest ∨ x.1 < f.1) :
    ∃ c' rest' calls, c.receivedFrontier s f.1 f.2 = .ok c' ∧
      c'.pulls = c.pulls ++ (pullFor s f.1 f.2).toList ∧
      c'.unsyncedCalls = c.unsyncedCalls ++ calls ∧
      calls ++ rest'.filterMap (pushFor s frontiers) =
        rest.filterMap (pushFor s (f :: frontiers)) ∧
      c'.cursor.At s rest' ∧ ∀ x ∈ s.accounts.entries, x ∈ rest' ∨ x.1 ≤ f.1 := by
  have hsorted : rest.Pairwise (fun x y => x.1 < y.1) := by
    obtain ⟨front, hsplit⟩ := hc.split
    have hall := s.accounts.sorted
    rw [hsplit] at hall
    exact (List.pairwise_append.mp hall).2.1
  obtain ⟨below, above, hbelow, habove, hrest⟩ := exists_split hsorted f.1
  have hlow : below.filterMap (pushFor s (f :: frontiers)) =
      below.map (fun x => (x.2.head, 0)) := by
    rw [← List.filterMap_eq_map]
    refine List.filterMap_congr fun x hx => pushFor_of_not_mem ?_
    intro g hg
    rcases List.mem_cons.mp hg with rfl | hg
    · exact (ne_of_lt (hbelow x hx)).symm
    · exact (ne_of_lt ((hbelow x hx).trans (hlater g hg))).symm
  have hhigh : above.filterMap (pushFor s (f :: frontiers)) =
      above.filterMap (pushFor s frontiers) :=
    List.filterMap_congr fun x hx => pushFor_cons_of_ne (ne_of_lt (habove x hx))
  rcases hrest with rfl | ⟨info, rfl⟩
  · have hnone : s.accountGet f.1 = none := by
      by_contra hsome
      obtain ⟨info, hinfo⟩ := Option.ne_none_iff_exists'.mp hsome
      rcases hpast (f.1, info) ((s.accounts.mem_entries_iff _ _).mpr hinfo) with hmem | hlt
      · rcases List.mem_append.mp hmem with hmem | hmem
        · exact absurd (hbelow _ hmem) (lt_irrefl _)
        · exact absurd (habove _ hmem) (lt_irrefl _)
      · exact absurd hlt (lt_irrefl _)
    obtain ⟨c', hrun, hpulls, hcalls, hat⟩ :=
      receivedFrontier_unknown W f.2 hf hnone hc hbelow habove
    refine ⟨c', above, _, hrun, hpulls, hcalls, ?_, hat, fun x hx => ?_⟩
    · rw [List.filterMap_append, hlow, hhigh]
    · rcases hpast x hx with hmem | hlt
      · exact (List.mem_append.mp hmem).symm.imp id fun hmem => (hbelow x hmem).le
      · exact .inr hlt.le
  · obtain ⟨c', hrun, hpulls, hcalls, hat⟩ := receivedFrontier_known W f.2 hf hc hbelow
    rw [List.append_assoc] at hcalls
    refine ⟨c', above, _, hrun, hpulls, hcalls, ?_, hat, fun x hx => ?_⟩
    · have hsame : pushFor s [(f.1, f.2)] (f.1, info) = pushFor s (f :: frontiers) (f.1, info) := by
        rw [pushFor_cons_of_eq rfl, pushFor_cons_of_eq rfl]
      rw [List.filterMap_append, hlow, List.filterMap_cons, hhigh, hsame, List.append_assoc]
      cases pushFor s (f :: frontiers) (f.1, info) <;> rfl
    · rcases hpast x hx with hmem | hlt
      · rcases List.mem_append.mp hmem with hmem | hmem
        · exact .inr (hbelow x hmem).le
        · rcases List.mem_cons.mp hmem with rfl | hmem
          · exact .inr le_rfl
          · exact .inl hmem
      · exact .inr hlt.le

theorem receiveFrontiers_spec (W : Walkable s) (latest : BlockHash) :
    ∀ {c : FrontierReqClient} {rest : List (Account × AccountInfo)},
      frontiers.Pairwise (fun x y => x.1 < y.1) → (∀ x ∈ frontiers, x.1 ≠ 0) →
      c.cursor.At s rest →
      (∀ f ∈ frontiers, ∀ x ∈ s.accounts.entries, x ∈ rest ∨ x.1 < f.1) →
      ∃ c', receiveFrontiers s (frontiers ++ [(0, latest)]) c = .ok c' ∧
        c'.pulls = c.pulls ++ frontiers.filterMap (fun x => pullFor s x.1 x.2) ∧
        c'.unsyncedCalls = c.unsyncedCalls ++ rest.filterMap (pushFor s frontiers) := by
  induction frontiers with
  | nil =>
    intro c rest _ _ hc _
    rw [← List.append_nil rest] at hc
    obtain ⟨c₁, hc₁, hpulls, hcalls, -⟩ := passBy_spec W (fun _ => true)
      (by simp) _ hc (fun _ _ => rfl) hc.length_lt
    refine ⟨c₁, ?_, by simp [hpulls], ?_⟩
    · simp [List.nil_append, receiveFrontiers, receivedFrontier, hc₁]
    · rw [hcalls, ← List.filterMap_eq_map]
      rfl
  | cons f frontiers ih =>
    intro c rest hsorted hzero hc hpast
    obtain ⟨hlt, hsorted⟩ := List.pairwise_cons.mp hsorted
    obtain ⟨c₁, rest₁, calls, hc₁, hpulls, hcalls, hmerge, hat, hpast₁⟩ :=
      receivedFrontier_spec W f (hzero f (.head _)) hlt hc
        (hpast f (.head _))
    obtain ⟨c₂, hc₂, hpulls₂, hcalls₂⟩ := ih hsorted
      (fun x hx => hzero x (.tail _ hx)) hat (by
        intro g hg x hx
        exact (hpast₁ x hx).imp id (fun hle => lt_of_le_of_lt hle (hlt g hg)))
    refine ⟨c₂, ?_, ?_, ?_⟩
    · rw [List.cons_append, receiveFrontiers, hc₁, ok_bind,
        if_pos (hzero f (.head _))]
      exact hc₂
    · grind
    · rw [hcalls₂, hcalls, List.append_assoc, hmerge]

end Received

theorem at_initial (W : Walkable s) : (initial s).cursor.At s s.accounts.entries := by
  refine FrontierCursor.at_start fun x hx => ?_
  show (0 : Account) + 1 ≤ x.1
  refine add_one_le_of_lt ?_
  rw [BitVec.lt_def]
  refine Nat.pos_of_ne_zero fun hz => W.ne_zero_of_mem hx (BitVec.eq_of_toNat_eq ?_)
  simpa using hz

end FrontierReqClient

open FrontierReqClient

/-- A sorted list of frontiers is merged with the own accounts: the pulls and the calls of
`unsynced`, in their order. -/
theorem frontiers_merged {s : BlockStore} (hzero : s.accountGet 0 = none)
    (hlast : s.accountGet (BitVec.allOnes 256) = none) {frontiers : List (Account × BlockHash)}
    (hsorted : frontiers.Pairwise (fun x y => x.1 < y.1)) (hne : ∀ x ∈ frontiers, x.1 ≠ 0)
    (latest : BlockHash) :
    ∃ c, receiveFrontiers s (frontiers ++ [(0, latest)]) (.initial s) = .ok c ∧
      c.pulls = frontiers.filterMap (fun x => pullFor s x.1 x.2) ∧
      c.unsyncedCalls = s.accounts.entries.filterMap (pushFor s frontiers) := by
  have W : Walkable s := ⟨hzero, hlast⟩
  obtain ⟨c, hrun, hpulls, hcalls⟩ := receiveFrontiers_spec W latest hsorted hne (at_initial W)
    fun _ _ x hx => Or.inl hx
  exact ⟨c, hrun, hpulls, hcalls⟩

/-- The client has the accounts 1 and 2, and the server 2 and 3. -/
theorem frontiers_merged_listed :
    ∃ c, receiveFrontiers listedStore [(2, 12), (3, 33), (0, 0)] (.initial listedStore) = .ok c ∧
      c.pulls = [⟨3, 33, 0⟩] ∧ c.unsyncedCalls = [(11, 0)] :=
  @frontiers_merged listedStore (by decide) (by decide) [(2, 12), (3, 33)] (by decide)
    (List.forall_mem_cons.mpr ⟨by decide, List.forall_mem_singleton.mpr (by decide)⟩) 0

/-- An account zero of the client is passed by without a word. -/
theorem zero_account_not_merged :
    ∃ s info, s.accountGet 0 = some info ∧ s.accountGet (BitVec.allOnes 256) = none ∧
      ∃ c, receiveFrontiers s [(0, 0)] (.initial s) = .ok c ∧ c.pulls = [] ∧
        c.unsyncedCalls = [] ∧
        c.unsyncedCalls ≠ s.accounts.entries.filterMap (pushFor s []) := by
  refine ⟨BlockStore.empty.accountPut 0 ⟨11, 11, 11, 5, 0, 1⟩, _, rfl, rfl, _, rfl, rfl, rfl, ?_⟩
  decide

theorem frontierPulls_eq {s c : BlockStore} (W : Walkable s) (W' : Walkable c) (now : Nat) :
    frontierPulls now s c =
      .ok (s.accounts.entries.filterMap (fun x => pullFor c x.1 x.2.head)) := by
  have hne : ∀ x ∈ s.accounts.entries.map (fun x => (x.1, x.2.head)), x.1 ≠ 0 := by
    intro x hx
    obtain ⟨y, hy, rfl⟩ := List.mem_map.mp hx
    exact W.ne_zero_of_mem hy
  have hserver : FrontierReqServer.run s now ⟨0, BitVec.allOnes 32, BitVec.allOnes 32⟩ =
      .ok (s.accounts.entries.map (fun x => (x.1, x.2.head)) ++ [(0, 0)]) := by
    have hzero : ¬ ((0 : Account) = 0 ∧ (s.accountGet 0).isSome = true) := by
      rw [W.zero]
      simp
    have hall : ∀ info, Recent now ⟨0, BitVec.allOnes 32, BitVec.allOnes 32⟩ info :=
      fun _ => .inl rfl
    have hfrom : accountsFrom s ⟨0, BitVec.allOnes 32, BitVec.allOnes 32⟩ =
        s.accounts.entries :=
      List.filter_eq_self.mpr fun x _ => decide_eq_true (by simp [BitVec.le_def])
    rw [frontierReqServer_run W.walkEnds, if_neg hzero, hfrom]
    simp only [hall, decide_true, Bool.not_true]
    cases s.accounts.entries <;> rfl
  obtain ⟨client, hclient, hpulls, -⟩ := receiveFrontiers_spec W' 0
    (List.pairwise_map.mpr s.accounts.sorted) hne (at_initial W') (fun _ _ x hx => .inl hx)
  unfold frontierPulls
  rw [hserver, ok_bind, hclient, ok_bind, hpulls]
  show Except.ok (([] : List PullInfo) ++ _) = _
  rw [List.nil_append, List.filterMap_map]
  rfl

end Badem
