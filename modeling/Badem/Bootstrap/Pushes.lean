import Badem.Core.Bootstrap
import Badem.Ledger.MarkerHashes
import Badem.Refinement.RollbackEdits

/-!
# Pushing chains

The pair of hashes that a push keeps between two calls says which targets are left.
-/

namespace Badem

/-! ## What is to be sent -/

/-- The first stored blocks on the way down from a hash, before the end or up to the block
without a previous one. -/
def chainDown (s : BlockStore) (endBlock : BlockHash) : Nat → BlockHash → List Block
  | 0, _ => []
  | n + 1, h =>
    if h = endBlock then []
    else
      match s.blockGet h with
      | none => []
      | some b => b :: if b.previous = 0 then [] else chainDown s endBlock n b.previous

/-- The first writes for a list of targets. -/
def expectedWrites (s : BlockStore) : List (BlockHash × BlockHash) → Nat → List PushWrite
  | [], n => [PushWrite.finished].take n
  | target :: targets, n =>
    let blocks := chainDown s target.2 n target.1
    blocks.map .block ++ expectedWrites s targets (n - blocks.length)

section Expected

variable {s : BlockStore} {endBlock h : BlockHash} {b : Block}

theorem chainDown_end (n : Nat) : chainDown s endBlock n endBlock = [] := by
  cases n with
  | zero => rfl
  | succ n => exact if_pos rfl

theorem chainDown_missing (n : Nat) (hget : s.blockGet h = none) :
    chainDown s endBlock n h = [] := by
  cases n with
  | zero => rfl
  | succ n =>
    rw [chainDown, hget]
    split_ifs <;> rfl

theorem chainDown_stored (n : Nat) (hne : h ≠ endBlock) (hget : s.blockGet h = some b) :
    chainDown s endBlock (n + 1) h =
      b :: if b.previous = 0 then [] else chainDown s endBlock n b.previous := by
  rw [chainDown, if_neg hne, hget]

theorem expectedWrites_nil (n : Nat) : expectedWrites s [] (n + 1) = [.finished] := by
  simp [expectedWrites]

theorem expectedWrites_zero (targets : List (BlockHash × BlockHash)) :
    expectedWrites s targets 0 = [] := by
  induction targets with
  | nil => rfl
  | cons target targets ih => exact ih

theorem expectedWrites_cons_of_nil {target : BlockHash × BlockHash}
    {targets : List (BlockHash × BlockHash)} {n : Nat}
    (hnil : chainDown s target.2 n target.1 = []) :
    expectedWrites s (target :: targets) n = expectedWrites s targets n := by
  rw [expectedWrites, hnil]
  rfl

end Expected

/-! ## What is sent -/

namespace BulkPushClient

variable {s : BlockStore} {targets : List (BlockHash × BlockHash)}

def agenda (c : BulkPushClient) : List (BlockHash × BlockHash) :=
  if c.currentTarget.1 = 0 ∨ c.currentTarget.1 = c.currentTarget.2 then c.bulkPushTargets.reverse
  else c.currentTarget :: c.bulkPushTargets.reverse

theorem nextTarget_of_agenda {c : BulkPushClient} :
    c.nextTarget = c.agenda.head?.map (fun target => ⟨target, c.agenda.tail.reverse⟩) := by
  unfold nextTarget agenda
  split_ifs with hdone
  · rw [← List.head?_reverse, List.dropLast_eq_take]
    cases hrev : c.bulkPushTargets.reverse with
    | nil => rfl
    | cons target targets =>
      have htargets : c.bulkPushTargets = targets.reverse ++ [target] := by
        rw [← List.reverse_reverse c.bulkPushTargets, hrev, List.reverse_cons]
      rw [htargets]
      simp
  · simp

theorem search_spec :
    ∀ (fuel : Nat) {c : BulkPushClient}, c.agenda.length < fuel →
      (∃ c', search s fuel c = .ok (none, c') ∧ ∀ t ∈ c.agenda, s.blockGet t.1 = none) ∨
        ∃ skipped target targets b, c.agenda = skipped ++ target :: targets ∧
          (∀ t ∈ skipped, s.blockGet t.1 = none) ∧ s.blockGet target.1 = some b ∧
          search s fuel c = .ok (some b, ⟨target, targets.reverse⟩) := by
  intro fuel
  induction fuel with
  | zero =>
    intro c h
    omega
  | succ fuel ih =>
    intro c hfuel
    rw [search, nextTarget_of_agenda]
    cases hagenda : c.agenda with
    | nil => exact .inl ⟨c, rfl, by simp⟩
    | cons target targets =>
      simp only [List.head?_cons, Option.map_some, List.tail_cons]
      cases hget : s.blockGet target.1 with
      | some b => exact .inr ⟨[], target, targets, b, rfl, by simp, hget, rfl⟩
      | none =>
        have hrest : agenda ⟨(0, target.2), targets.reverse⟩ = targets := by
          rw [agenda, if_pos (.inl rfl), List.reverse_reverse]
        have hlen : (agenda ⟨(0, target.2), targets.reverse⟩).length < fuel := by
          rw [hagenda, List.length_cons] at hfuel
          rw [hrest]
          omega
        rcases ih hlen with ⟨c', hrun, hnone⟩ | ⟨skipped, t, ts, b, heq, hskipped, hb, hrun⟩
        · refine .inl ⟨c', hrun, ?_⟩
          intro t ht
          rcases List.mem_cons.mp ht with rfl | ht
          · exact hget
          · exact hnone t (by rw [hrest]; exact ht)
        · rw [hrest] at heq
          refine .inr ⟨target :: skipped, t, ts, b, by rw [heq]; rfl, ?_, hb, hrun⟩
          intro t' ht'
          rcases List.mem_cons.mp ht' with rfl | ht'
          · exact hget
          · exact hskipped t' ht'

theorem agenda_length_lt (c : BulkPushClient) : c.agenda.length < c.bulkPushTargets.length + 2 := by
  unfold agenda
  split_ifs
  · simp
  · simp

theorem expectedWrites_skip {skipped : List (BlockHash × BlockHash)}
    (h : ∀ t ∈ skipped, s.blockGet t.1 = none) (n : Nat) :
    expectedWrites s (skipped ++ targets) n = expectedWrites s targets n := by
  induction skipped with
  | nil => rfl
  | cons t skipped ih =>
    rw [List.cons_append,
      expectedWrites_cons_of_nil (chainDown_missing n (h t (.head _)))]
    exact ih fun t' ht' => h t' (.tail _ ht')

theorem expectedWrites_stored {target : BlockHash × BlockHash} {b : Block}
    (hne : target.1 ≠ target.2) (hget : s.blockGet target.1 = some b) (n : Nat) :
    expectedWrites s (target :: targets) (n + 1) =
      .block b :: expectedWrites s (agenda ⟨(b.previous, target.2), targets.reverse⟩) n := by
  rw [expectedWrites, chainDown_stored n hne hget, agenda, List.reverse_reverse]
  by_cases hz : b.previous = 0
  · simp [hz]
  · rw [if_neg hz]
    by_cases hend : b.previous = target.2
    · rw [if_pos (.inr hend), hend, chainDown_end]
      simp
    · rw [if_neg (not_or.mpr ⟨hz, hend⟩), expectedWrites]
      simp

theorem pushes_eq :
    ∀ (n : Nat) {c : BulkPushClient}, (∀ t ∈ c.bulkPushTargets, t.1 ≠ t.2) →
      pushes s n c = .ok (expectedWrites s c.agenda n) := by
  intro n
  induction n with
  | zero =>
    intro c _
    rw [expectedWrites_zero]
    rfl
  | succ n ih =>
    intro c hne
    have hagenda : ∀ t ∈ c.agenda, t.1 ≠ t.2 := by
      intro t ht
      unfold agenda at ht
      split_ifs at ht with hdone
      · exact hne t (List.mem_reverse.mp ht)
      · rcases List.mem_cons.mp ht with rfl | ht
        · exact (not_or.mp hdone).2
        · exact hne t (List.mem_reverse.mp ht)
    rcases search_spec (s := s) _ c.agenda_length_lt with
      ⟨c', hrun, hnone⟩ | ⟨skipped, target, targets, b, heq, hskipped, hget, hrun⟩
    · have hall : expectedWrites s (c.agenda ++ []) (n + 1) = expectedWrites s [] (n + 1) :=
        expectedWrites_skip hnone (n + 1)
      rw [List.append_nil] at hall
      rw [pushes, push, hrun, hall, expectedWrites_nil]
      rfl
    · have hmem : ∀ t ∈ target :: targets, t.1 ≠ t.2 := fun t ht =>
        hagenda t (by rw [heq]; exact List.mem_append_right _ ht)
      have hrest := @ih ⟨(b.previous, target.2), targets.reverse⟩
        (fun t ht => hmem t (.tail _ (List.mem_reverse.mp ht)))
      have hpush : push s c = .ok (.block b, ⟨(b.previous, target.2), targets.reverse⟩) := by
        rw [push, hrun]
        rfl
      rw [pushes, hpush, heq, expectedWrites_skip hskipped,
        expectedWrites_stored (hmem target (.head _)) hget]
      simp only [ok_bind, reduceCtorEq, if_false]
      rw [hrest]
      rfl

end BulkPushClient

/-! ## Chains end -/

/-- The chain below a hash goes down to a block without a previous one. -/
inductive Grounded (env : Env) (U : Set Block) : BlockHash → Prop
  | first {b : Block} :
      b ∈ U →
      b.previous = 0 →
      Grounded env U (b.hash env)
  | next {b : Block} :
      b ∈ U →
      Grounded env U b.previous →
      Grounded env U (b.hash env)

section Ends

variable {env : Env} {U : Set Block} {s : BlockStore}

theorem Reachable.grounded (hgen : .openBlock env.genesisOpen ∈ U) (hs : Reachable env U s) :
    s.Filed env { b | b ∈ U ∧ Grounded env U (b.hash env) } := by
  induction hs with
  | genesis h =>
    have hempty : BlockStore.empty.Filed env { b | b ∈ U ∧ Grounded env U (b.hash env) } := by
      intro t h v hv
      cases t <;> exact absurd hv (by simp [BlockStore.empty, BlockStore.blockDatabase])
    exact hempty.appends ⟨hgen, .first hgen rfl⟩ (genesis_appends h)
  | process _ hb h ih =>
    rcases process_appends h with rfl | ⟨a, happends⟩
    · exact ih
    · refine ih.appends ⟨hb, ?_⟩ happends
      rcases happends.position with ⟨hz, -, -⟩ | ⟨⟨p, hp⟩, -, -⟩
      · exact .first hb hz
      · obtain ⟨⟨-, hground⟩, hhash⟩ := ih.hash_eq hp
        rw [hhash] at hground
        exact .next hb hground
  | rollback _ _ _ h ih => exact ih.unrolls (rollback_unrolls h)

theorem chainDown_stable {endBlock : BlockHash} :
    ∀ {n : Nat} {h : BlockHash}, (chainDown s endBlock n h).length < n → ∀ m, n ≤ m →
      chainDown s endBlock m h = chainDown s endBlock n h := by
  intro n
  induction n with
  | zero =>
    intro h hlen
    omega
  | succ n ih =>
    intro h hlen m hm
    obtain ⟨m, rfl⟩ : ∃ k, m = k + 1 := ⟨m - 1, by omega⟩
    by_cases hend : h = endBlock
    · rw [hend, chainDown_end, chainDown_end]
    · cases hget : s.blockGet h with
      | none => rw [chainDown_missing _ hget, chainDown_missing _ hget]
      | some b =>
        rw [chainDown_stored n hend hget] at hlen
        rw [chainDown_stored n hend hget, chainDown_stored m hend hget]
        split_ifs at hlen ⊢ with hz
        · rfl
        · rw [ih (by simpa using hlen) m (by omega)]

theorem exists_chainDown_end (H : CollisionFree env U)
    (hs : s.Filed env { b | b ∈ U ∧ Grounded env U (b.hash env) }) (endBlock : BlockHash)
    {h : BlockHash} (hground : Grounded env U h) : ∃ n, (chainDown s endBlock n h).length < n := by
  -- the stored block has the previous block of the one that grounds its hash
  have hstored : ∀ {c b : Block}, c ∈ U → s.blockGet (c.hash env) = some b →
      b.previous = c.previous := by
    intro c b hc hget
    obtain ⟨⟨hb, -⟩, hhash⟩ := hs.hash_eq hget
    exact Block.previous_eq_of_hashables_eq (H.injective _ hb _ hc hhash)
  have hstop : ∀ {h : BlockHash}, (∀ b, s.blockGet h = some b → b.previous ≠ 0 →
      ∃ n, (chainDown s endBlock n b.previous).length < n) →
      ∃ n, (chainDown s endBlock n h).length < n := by
    intro h hbelow
    by_cases hend : h = endBlock
    · exact ⟨1, by rw [hend, chainDown_end]; exact Nat.one_pos⟩
    · cases hget : s.blockGet h with
      | none => exact ⟨1, by rw [chainDown_missing _ hget]; exact Nat.one_pos⟩
      | some b =>
        by_cases hz : b.previous = 0
        · refine ⟨2, ?_⟩
          rw [chainDown_stored 1 hend hget, if_pos hz]
          exact Nat.one_lt_two
        · obtain ⟨n, hn⟩ := hbelow b hget hz
          refine ⟨n + 1, ?_⟩
          rw [chainDown_stored n hend hget, if_neg hz, List.length_cons]
          omega
  induction hground with
  | first hc hz =>
    refine hstop fun b hget hne => ?_
    rw [hstored hc hget] at hne
    exact absurd hz hne
  | next hc _ ih =>
    refine hstop fun b hget _ => ?_
    rw [hstored hc hget]
    exact ih

theorem exists_expectedWrites {targets : List (BlockHash × BlockHash)}
    (h : ∀ t ∈ targets, ∃ n, (chainDown s t.2 n t.1).length < n) :
    ∃ n, ∀ m, n ≤ m → expectedWrites s targets m =
      (targets.flatMap (fun t => chainDown s t.2 m t.1)).map .block ++ [.finished] := by
  suffices hoffset : ∃ n, ∀ m k, n ≤ k → k ≤ m → expectedWrites s targets k =
      (targets.flatMap (fun t => chainDown s t.2 m t.1)).map .block ++ [.finished] by
    obtain ⟨n, hn⟩ := hoffset
    exact ⟨n, fun m hm => hn m m hm le_rfl⟩
  induction targets with
  | nil =>
    refine ⟨1, fun m k hk _ => ?_⟩
    obtain ⟨k, rfl⟩ : ∃ j, k = j + 1 := ⟨k - 1, by omega⟩
    rw [expectedWrites_nil]
    rfl
  | cons t targets ih =>
    obtain ⟨n, hn⟩ := ih fun t' ht' => h t' (.tail _ ht')
    obtain ⟨n', hn'⟩ := h t (.head _)
    refine ⟨n + n', fun m k hk hkm => ?_⟩
    have hchain : chainDown s t.2 k t.1 = chainDown s t.2 m t.1 := by
      rw [chainDown_stable hn' k (by omega), chainDown_stable hn' m (by omega)]
    have hlen : (chainDown s t.2 m t.1).length < n' := by
      rw [chainDown_stable hn' m (by omega)]
      exact hn'
    rw [expectedWrites, hchain, hn m _ (by omega) (by omega), List.flatMap_cons, List.map_append,
      List.append_assoc]

end Ends

/-- The blocks of the chains of the targets are pushed, from the target added last to the first. -/
theorem pushes_cover (s : BlockStore) {targets : List (BlockHash × BlockHash)}
    (hne : ∀ t ∈ targets, t.1 ≠ t.2) :
    (∀ n, BulkPushClient.pushes s n (.initial targets) =
      .ok (expectedWrites s targets.reverse n)) ∧
    ∀ {env : Env} {U : Set Block}, CollisionFree env U → Reachable env U s →
      ∃ n, ∀ m, n ≤ m → BulkPushClient.pushes s m (.initial targets) =
        .ok ((targets.reverse.flatMap (fun t => chainDown s t.2 m t.1)).map .block ++
          [.finished]) := by
  have hpushes : ∀ n, BulkPushClient.pushes s n (.initial targets) =
      .ok (expectedWrites s targets.reverse n) := fun n =>
    BulkPushClient.pushes_eq n hne
  refine ⟨hpushes, fun H hs => ?_⟩
  have hfiled := hs.grounded H.genesis
  have hends : ∀ t ∈ targets.reverse, ∃ n, (chainDown s t.2 n t.1).length < n := by
    intro t _
    cases hget : s.blockGet t.1 with
    | none => exact ⟨1, by rw [chainDown_missing _ hget]; exact Nat.one_pos⟩
    | some b =>
      obtain ⟨⟨-, hground⟩, hhash⟩ := hfiled.hash_eq hget
      rw [hhash] at hground
      exact exists_chainDown_end H hfiled t.2 hground
  obtain ⟨n, hn⟩ := exists_expectedWrites hends
  exact ⟨n, fun m hm => by rw [hpushes, hn m hm]⟩

theorem pushes_cover_plain :
    ∃ s, Reachable plainEnv plainSet s ∧
      ∃ n, ∀ m, n ≤ m →
        BulkPushClient.pushes s m (.initial [(2, plainEnv.genesisHash), (6, 0)]) =
          .ok ((([(6, 0), (2, plainEnv.genesisHash)] : List (BlockHash × BlockHash)).flatMap
            (fun t => chainDown s t.2 m t.1)).map .block ++ [.finished]) := by
  obtain ⟨s, -, hreach, -⟩ := plain_ledger
  have hne : ∀ t ∈ ([(2, plainEnv.genesisHash), (6, 0)] : List (BlockHash × BlockHash)),
      t.1 ≠ t.2 :=
    List.forall_mem_cons.mpr ⟨by decide, List.forall_mem_singleton.mpr (by decide)⟩
  exact ⟨s, hreach, (pushes_cover s hne).2 plain_collisionFree hreach⟩

end Badem
