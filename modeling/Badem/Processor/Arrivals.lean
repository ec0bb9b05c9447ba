import Badem.Scheduling.WaitingList
import Badem.Refinement.ProcessRefusals
import Badem.Refinement.ProcessWaits

/-!
# Blocks of one lattice arriving in any order

The block processor works as a waiting list over a lattice: the ledger holds a part of it, and
the unchecked blocks wait under the first block that is missing.
-/

namespace Badem

open Mdb BlockLattice Scheduling BlockProcessor

variable {env : NodeEnv} {U : Set Block}

def blockItems (F : BlockLattice env.toEnv U) : Items BlockHash Block where
  key := Block.hash env.toEnv
  needs := fun b =>
    match F.find (b.hash env.toEnv) with
    | some e => e.needs env.toEnv
    | none => []

def Genuine (F : BlockLattice env.toEnv U) (b : Block) : Prop :=
  env.workValidate b = false ∧
    ∃ e, F.find (b.hash env.toEnv) = some e ∧ e.block = b ∧
      env.validateMessage e.account e.hash b.blockSignature = false

def HoldsPart (F : BlockLattice env.toEnv U) (s : BlockStore) : Prop :=
  ∃ (τ : F.Timing) (P : BlockLattice env.toEnv U),
    P.Sub (F.retime τ) ∧ Refines (fun _ => 0) s P

/-- The processor as a waiting list. -/
def BlockProcessor.pool (p : BlockProcessor) : Pool BlockHash Block where
  accepted := p.store.blockExists
  waiting := p.unchecked
  queue := p.blocks

def BlockProcessor.release (p : BlockProcessor) (order : Containers.Visit Block)
    (hash : BlockHash) : BlockProcessor :=
  { p with
    unchecked := p.unchecked.filter (fun x => !decide (x.1 = hash))
    blocks := (order.order (p.uncheckedGet hash)).reverse ++ p.blocks }

section Queue

variable (env)

theorem add_of_work {b : Block} (hwork : env.workValidate b = false) (p : BlockProcessor) :
    p.add env b = .ok { p with blocks := b :: p.blocks } := by
  rw [add, if_pos hwork]

theorem requeue_eq {hash : BlockHash} (l : List Block) :
    ∀ p : BlockProcessor, (∀ b ∈ l, env.workValidate b = false) →
      requeue env hash l p = .ok { p with
        unchecked := p.unchecked.filter (fun x => !decide (x.1 = hash ∧ x.2 ∈ l))
        blocks := l.reverse ++ p.blocks } := by
  induction l with
  | nil =>
    intro p _
    simp [requeue]
  | cons b l ih =>
    intro p hwork
    have hadd := add_of_work env (hwork b (.head _)) (p.uncheckedDel hash b)
    rw [requeue, hadd, ok_bind, ih _ (fun c hc => hwork c (.tail _ hc))]
    have hfilter : (p.unchecked.filter (fun x => !decide (x.1 = hash ∧ x.2 = b))).filter
          (fun x => !decide (x.1 = hash ∧ x.2 ∈ l)) =
        p.unchecked.filter (fun x => !decide (x.1 = hash ∧ x.2 ∈ b :: l)) := by
      rw [List.filter_filter]
      refine List.filter_congr ?_
      intro x _
      rw [← Bool.not_or, ← Bool.decide_or]
      congr 1
      refine decide_eq_decide.mpr ?_
      rw [List.mem_cons, or_comm, ← and_or_left]
    simp only [uncheckedDel, hfilter, List.reverse_cons, List.append_assoc]
    rfl

theorem queueUnchecked_eq (p : BlockProcessor) (order : Containers.Visit Block) (hash : BlockHash)
    (hwork : ∀ x ∈ p.unchecked, env.workValidate x.2 = false) :
    p.queueUnchecked env order hash = .ok (p.release order hash) := by
  have hmem : ∀ b, b ∈ order.order (p.uncheckedGet hash) ↔ (hash, b) ∈ p.unchecked := by
    intro b
    simp [uncheckedGet]
  have hfilter : p.unchecked.filter
        (fun x => !decide (x.1 = hash ∧ x.2 ∈ order.order (p.uncheckedGet hash))) =
      p.unchecked.filter (fun x => !decide (x.1 = hash)) := by
    refine List.filter_congr ?_
    rintro ⟨k, b⟩ hx
    congr 1
    refine decide_eq_decide.mpr ⟨fun h => h.1, fun h => ⟨h, ?_⟩⟩
    obtain rfl : k = hash := h
    exact (hmem b).mpr hx
  rw [queueUnchecked, requeue_eq env _ p (fun b hb => hwork _ ((hmem b).mp hb)), hfilter]
  rfl

theorem mem_of_mem_prune {now : Nat} {l : List ArrivalInfo} {x : ArrivalInfo}
    (h : x ∈ BlockArrival.prune now l) : x ∈ l := by
  induction l with
  | nil => exact h
  | cons y l ih =>
    rw [BlockArrival.prune] at h
    split_ifs at h
    · exact .tail _ (ih h)
    · exact h

end Queue

section Receive

variable {p : BlockProcessor} {b : Block} {r : ProcessReturn} {s : BlockStore} {m : Moment}

theorem processReceiveOne_progress (hwork : ∀ x ∈ p.unchecked, env.workValidate x.2 = false)
    (h : Ledger.process env.toEnv m.now p.store b = .ok (r, s)) (hcode : r.code = .progress) :
    p.processReceiveOne env m b = .ok (r, { p with
      store := s
      arrival := BlockArrival.prune m.tick p.arrival }.release m.order (b.hash env.toEnv)) := by
  unfold processReceiveOne
  rw [h, ok_bind]
  simp only [hcode]
  rw [queueUnchecked_eq env]
  · rfl
  · exact hwork

theorem processReceiveOne_old (hwork : ∀ x ∈ p.unchecked, env.workValidate x.2 = false)
    (h : p.store.blockExists (b.hash env.toEnv) = true) :
    p.processReceiveOne env m b =
      .ok (.ofCode .old, p.release m.order (b.hash env.toEnv)) := by
  unfold processReceiveOne
  rw [process_old m.now h, ok_bind]
  simp only [ProcessReturn.ofCode]
  rw [queueUnchecked_eq env]
  · rfl
  · exact hwork

theorem processReceiveOne_gapPrevious
    (h : Ledger.process env.toEnv m.now p.store b = .ok (r, p.store))
    (hcode : r.code = .gapPrevious) :
    p.processReceiveOne env m b = .ok (r, p.uncheckedPut env b.previous b) := by
  unfold processReceiveOne
  rw [h, ok_bind]
  simp only [hcode]
  rfl

theorem processReceiveOne_gapSource
    (h : Ledger.process env.toEnv m.now p.store b = .ok (r, p.store)) (hcode : r.code = .gapSource)
    {x : BlockHash} (hsource : Ledger.blockSource env.toEnv p.store b = .ok x) :
    p.processReceiveOne env m b = .ok (r, p.uncheckedPut env x b) := by
  unfold processReceiveOne
  rw [h, ok_bind]
  simp only [hcode, hsource]
  rfl

end Receive

section Step

variable {F : BlockLattice env.toEnv U} {p : BlockProcessor} {b : Block} {rest : List Block}
variable (H : CollisionFree env.toEnv U) (M : MarkerFree env.toEnv U)

structure Handles (F : BlockLattice env.toEnv U) (p q : BlockProcessor) : Prop where
  step : Pool.Step (blockItems F) p.pool q.pool
  part : HoldsPart F q.store
  forced : q.forced = []
  arrival : ∀ x ∈ q.arrival, x ∈ p.arrival

theorem processNext_eq (hforced : p.forced = []) (hblocks : p.blocks = b :: rest) {m : Moment}
    {r : ProcessReturn} {q : BlockProcessor}
    (h : { p with blocks := rest, forced := [] }.processReceiveOne env m b = .ok (r, q)) :
    p.processNext env m = .ok q := by
  unfold processNext
  rw [hforced, hblocks]
  simp only
  rw [h]
  rfl

theorem step_release
    (hblocks : p.blocks = b :: rest) {q : BlockProcessor}
    (hready : p.store.blockExists (b.hash env.toEnv) = true ∨
      (blockItems F).missing p.store.blockExists b = none)
    (hunchecked : q.unchecked = p.unchecked) (hrest : q.blocks = rest)
    (hstore : ∀ k, q.store.blockExists k =
      (decide (k = b.hash env.toEnv) || p.store.blockExists k))
    (order : Containers.Visit Block) :
    Pool.Step (blockItems F) p.pool (q.release order (b.hash env.toEnv)).pool := by
  have hstep : Pool.Step (blockItems F) p.pool (p.pool.accept (b.hash env.toEnv)
      (order.order (p.uncheckedGet (b.hash env.toEnv))).reverse rest) :=
    .accept hblocks hready ((List.reverse_perm _).trans (order.perm _))
  have hpool : (q.release order (b.hash env.toEnv)).pool = p.pool.accept (b.hash env.toEnv)
      (order.order (p.uncheckedGet (b.hash env.toEnv))).reverse rest := by
    have hacc := funext hstore
    unfold BlockProcessor.pool release Pool.accept uncheckedGet
    simp only [hunchecked, hrest, hacc]
  rw [hpool]
  exact hstep

theorem step_uncheckedPut
    (hblocks : p.blocks = b :: rest) (hfresh : p.store.blockExists (b.hash env.toEnv) = false)
    {k : BlockHash} (hmissing : (blockItems F).missing p.store.blockExists b = some k) :
    Pool.Step (blockItems F) p.pool
      ({ p with blocks := rest, forced := [] }.uncheckedPut env k b).pool := by
  have hstep : Pool.Step (blockItems F) p.pool
      (Pool.wait (blockItems F) { p.pool with queue := rest } k b) :=
    .wait hblocks hfresh hmissing
  have hpool : ({ p with blocks := rest, forced := [] }.uncheckedPut env k b).pool =
      Pool.wait (blockItems F) { p.pool with queue := rest } k b := by
    by_cases hany : (p.uncheckedGet k).any
        (fun c => decide (c.hash env.toEnv = b.hash env.toEnv)) = true
    · exact (congrArg BlockProcessor.pool (if_pos hany)).trans (if_pos hany).symm
    · exact (congrArg BlockProcessor.pool (if_neg hany)).trans (if_neg hany).symm
  rw [hpool]
  exact hstep

theorem needs_blockItems {e : Entry} (he : F.find (b.hash env.toEnv) = some e) :
    (blockItems F).needs b = e.needs env.toEnv := by
  unfold blockItems
  simp only [he]

theorem missing_eq
    {e : Entry} (he : F.find (b.hash env.toEnv) = some e) (accepted : BlockHash → Bool) :
    (blockItems F).missing accepted b =
      (e.needs env.toEnv).find? (fun k => !accepted k) := by
  rw [Items.missing, needs_blockItems he]

theorem missing_cases {e : Entry} {accepted : BlockHash → Bool} {k : BlockHash}
    (h : (e.needs env.toEnv).find? (fun k => !accepted k) = some k) :
    (e.previous ≠ 0 ∧ accepted e.previous = false ∧ k = e.previous) ∨
      ((e.previous ≠ 0 → accepted e.previous = true) ∧ accepted k = false ∧
        e.source env.toEnv = some k) := by
  have hk : accepted k = false := by
    simpa using List.find?_some h
  unfold Entry.needs at h
  by_cases hprev : e.previous ≠ 0 ∧ accepted e.previous = false
  · simp_all
  · refine .inr ⟨fun hne => Bool.eq_true_of_not_eq_false fun hacc => hprev ⟨hne, hacc⟩,
      hk, ?_⟩
    have hmem := List.mem_of_find?_eq_some h
    rcases List.mem_append.mp hmem with hmem | hmem
    · split_ifs at hmem with hne
      · obtain rfl := List.mem_singleton.mp hmem
        exact absurd ⟨hne, hk⟩ hprev
      · simp at hmem
    · exact Option.mem_toList.mp hmem

theorem handles_old (hpart : HoldsPart F p.store) (hforced : p.forced = [])
    (hblocks : p.blocks = b :: rest) (hwork : ∀ x ∈ p.unchecked, env.workValidate x.2 = false)
    (hold : p.store.blockExists (b.hash env.toEnv) = true) (m : Moment) :
    ∃ q, p.processNext env m = .ok q ∧ Handles F p q := by
  refine ⟨_, processNext_eq hforced hblocks (processReceiveOne_old hwork hold), ?_⟩
  refine ⟨step_release (q := { p with blocks := rest, forced := [] }) hblocks (.inl hold)
    rfl rfl ?_ m.order, hpart, rfl, fun _ hx => hx⟩
  intro k
  by_cases hk : k = b.hash env.toEnv
  · simp_all
  · simp [hk]

theorem handles_waiting
    (hpart : HoldsPart F p.store) (hforced : p.forced = []) (hblocks : p.blocks = b :: rest)
    (hfresh : p.store.blockExists (b.hash env.toEnv) = false) {k : BlockHash}
    (hmissing : (blockItems F).missing p.store.blockExists b = some k) {m : Moment}
    {r : ProcessReturn}
    (hone : { p with blocks := rest, forced := [] }.processReceiveOne env m b =
      .ok (r, { p with blocks := rest, forced := [] }.uncheckedPut env k b)) :
    ∃ q, p.processNext env m = .ok q ∧ Handles F p q := by
  refine ⟨_, processNext_eq hforced hblocks hone, step_uncheckedPut hblocks hfresh hmissing,
    ?_, ?_, ?_⟩
  · unfold uncheckedPut
    split_ifs <;> exact hpart
  · unfold uncheckedPut
    split_ifs <;> rfl
  · unfold uncheckedPut
    split_ifs <;> exact fun _ hy => hy

include H M in
theorem handles_ready (hforced : p.forced = []) (hblocks : p.blocks = b :: rest)
    (hwork : ∀ x ∈ p.unchecked, env.workValidate x.2 = false) {P : BlockLattice env.toEnv U}
    (hR : Refines (fun _ => 0) p.store P) {σ : F.Timing} (hsub : P.Sub (F.retime σ)) {e : Entry}
    (hfind : (F.retime σ).find e.hash = some e) (ha : P.Appendable e)
    (hhash : e.hash = b.hash env.toEnv) (hblock : e.block = b)
    (hsig : env.validateMessage e.account e.hash e.block.blockSignature = false)
    (hmissing : (blockItems F).missing p.store.blockExists b = none) (m : Moment) :
    ∃ q, p.processNext env m = .ok q ∧ Handles F p q := by
  obtain ⟨r, s', hprocess, hcode, hR'⟩ := process_accepts H M m.now hR ha hsig
  rw [hblock] at hprocess
  refine ⟨_, processNext_eq hforced hblocks
    (processReceiveOne_progress hwork hprocess hcode), ?_⟩
  refine ⟨step_release (q := { p with
      store := s'
      arrival := BlockArrival.prune m.tick p.arrival
      blocks := rest
      forced := [] }) hblocks (.inr hmissing) rfl rfl ?_ m.order, ?_, rfl,
    fun _ hy => mem_of_mem_prune hy⟩
  · intro k
    show s'.blockExists k = _
    rw [Bool.eq_iff_iff, hR'.blockExists_iff, find_append, hR.blockExists_iff, hhash]
    by_cases hk : k = b.hash env.toEnv <;> simp [hk]
  · refine ⟨σ, P.append H e ha, ?_, hR'⟩
    intro k y hy
    rw [find_append] at hy
    split_ifs at hy with hk
    · simp_all
    · exact hsub hy

include H M in
theorem processNext_handles
    (hpart : HoldsPart F p.store) (hforced : p.forced = []) (hblocks : p.blocks = b :: rest)
    (hb : Genuine F b) (hwork : ∀ x ∈ p.unchecked, env.workValidate x.2 = false) (m : Moment) :
    ∃ q, p.processNext env m = .ok q ∧ Handles F p q := by
  by_cases hold : p.store.blockExists (b.hash env.toEnv) = true
  · exact handles_old hpart hforced hblocks hwork hold m
  obtain ⟨-, e, he, rfl, hsig⟩ := hb
  obtain ⟨τ, P, hsub, hR⟩ := id hpart
  have hexists : ∀ k, p.store.blockExists k = (P.find k).isSome := hR.blockExists_iff
  -- put the stored part before the rest, so that the entry can come next
  obtain ⟨T, hT⟩ := exists_time P
  have hdelay : P.Sub ((F.retime τ).retime (delay hsub hT)) := sub_delay hsub hT
  obtain ⟨t, hfind⟩ := exists_delayed hsub hT he
  have hkeyed : e.hash = e.block.hash env.toEnv := F.keyed he
  have hhash : (e.timed t).hash = e.block.hash env.toEnv := hkeyed
  have hfresh : P.find (e.timed t).hash = none := by
    rw [hhash]
    simpa [hexists] using hold
  rw [← hhash] at hfind
  cases hmissing : (blockItems F).missing p.store.blockExists e.block with
  | none =>
    have hneeds : ∀ k ∈ (e.timed t).needs env.toEnv, (P.find k).isSome = true := by
      intro k hk
      have hall := hmissing
      rw [missing_eq he, List.find?_eq_none] at hall
      rw [← hexists]
      simpa using hall k hk
    have ha := appendable_of_sub hdelay hfind hfresh hneeds (fun hy =>
      lt_of_lt_of_le (hT hy) (lt_time_of_delay hsub hT hfind hfresh))
    rw [retime_retime] at hdelay hfind
    exact handles_ready H M hforced hblocks hwork hR hdelay hfind ha hhash rfl hsig hmissing m
  | some k =>
    have hput := @handles_waiting env U F p e.block rest hpart hforced hblocks
      (by simpa using hold) k hmissing m
    rw [missing_eq he] at hmissing
    rcases missing_cases hmissing with ⟨hne, hgap, rfl⟩ | ⟨hprev, hgap, hsource⟩
    · rw [hexists, Option.isSome_eq_false_iff, Option.isNone_iff_eq_none] at hgap
      obtain ⟨r, hprocess, hcode⟩ := process_gapPrevious m.now hR hfind hfresh hsig hne hgap
      exact hput (processReceiveOne_gapPrevious
        (p := { p with blocks := rest, forced := [] }) hprocess hcode)
    · rw [hexists, Option.isSome_eq_false_iff, Option.isNone_iff_eq_none] at hgap
      obtain ⟨r, hprocess, hcode, hblockSource⟩ := process_gapSource H M m.now hdelay hR hfind
        hfresh hsig (fun hne => by rw [← hexists]; exact hprev hne) hsource hgap
      exact hput (processReceiveOne_gapSource
        (p := { p with blocks := rest, forced := [] }) hprocess hcode hblockSource)

end Step

section Runs

variable {F : BlockLattice env.toEnv U} {B : Set Block} {p₀ p q : BlockProcessor}
variable {es : List Event} {n : Nat} {l : List Block}

def Dropped (env : NodeEnv) (p : BlockProcessor) (e : Event) : Prop :=
  ∃ b, e = .active b ∧ p.arrival.any (fun x => decide (x.hash = b.hash env.toEnv)) = true

/-- A run of the processor on blocks of `B`, as a run of the waiting list to which the
blocks `l` were added. -/
structure Follows (F : BlockLattice env.toEnv U) (B : Set Block) (p₀ : BlockProcessor)
    (es : List Event) (n : Nat) (p : BlockProcessor) (l : List Block) : Prop where
  run : Pool.Run (blockItems F) p₀.pool l n p.pool
  part : HoldsPart F p.store
  forced : p.forced = []
  added : ∀ b ∈ l, b ∈ B
  length : l.length ≤ es.length
  seen : ∀ x ∈ p.arrival, ∃ c ∈ l, c.hash env.toEnv = x.hash
  complete : ∀ e ∈ es, e.block ∈ B → e.block ∈ l

variable (hB : ∀ b ∈ B, Genuine F b)

include hB in
theorem eq_of_hash_eq {b c : Block} (hb : b ∈ B) (hc : c ∈ B)
    (h : b.hash env.toEnv = c.hash env.toEnv) : b = c := by
  obtain ⟨-, e, he, hblock, -⟩ := hB b hb
  obtain ⟨-, e', he', hblock', -⟩ := hB c hc
  rw [h] at he
  cases he.symm.trans he'
  rw [← hblock, ← hblock']

theorem Follows.start (hpart : HoldsPart F p₀.store) (hforced : p₀.forced = [])
    (harrival : p₀.arrival = []) : Follows F B p₀ [] 0 p₀ [] where
  run := Pool.Run.start
  part := hpart
  forced := hforced
  added := by simp
  length := Nat.le_refl _
  seen := by simp [harrival]
  complete := by simp

theorem Follows.add
    (h : Follows F B p₀ es n p l) {e : Event} (he : e.block ∈ B) {arrival : List ArrivalInfo}
    (harrival : ∀ x ∈ arrival, x ∈ p.arrival ∨ x.hash = e.block.hash env.toEnv) :
    Follows F B p₀ (e :: es) n { p with arrival := arrival, blocks := e.block :: p.blocks }
      (e.block :: l) where
  run := Pool.Run.arrive e.block h.run
  part := h.part
  forced := h.forced
  added := by
    intro b hb
    rcases List.mem_cons.mp hb with rfl | hb
    · exact he
    · exact h.added b hb
  length := Nat.succ_le_succ h.length
  seen := by
    intro x hx
    rcases harrival x hx with hx | hx
    · obtain ⟨c, hc, hhash⟩ := h.seen x hx
      exact ⟨c, .tail _ hc, hhash⟩
    · exact ⟨e.block, .head _, hx.symm⟩
  complete := by
    intro e' he' hb
    rcases List.mem_cons.mp he' with rfl | he'
    · exact .head _
    · exact .tail _ (h.complete e' he' hb)

include hB in
theorem Follows.drop (h : Follows F B p₀ es n p l) {b : Block}
    (hmem : p.arrival.any (fun x => decide (x.hash = b.hash env.toEnv)) = true) :
    Follows F B p₀ (.active b :: es) n p l where
  run := h.run
  part := h.part
  forced := h.forced
  added := h.added
  length := Nat.le_succ_of_le h.length
  seen := h.seen
  complete := by
    intro e he hb
    rcases List.mem_cons.mp he with rfl | he
    · obtain ⟨x, hx, hhash⟩ := List.any_eq_true.mp hmem
      obtain ⟨c, hc, hchash⟩ := h.seen x hx
      have hbc : c = b := eq_of_hash_eq hB (h.added c hc) hb
        (hchash.trans (of_decide_eq_true hhash))
      exact hbc ▸ hc
    · exact h.complete e he hb

theorem mem_arrival_of_add (tick : Nat) {arrival : List ArrivalInfo} {hash : BlockHash}
    {x : ArrivalInfo} (hx : x ∈ (BlockArrival.add tick arrival hash).2) :
    x ∈ arrival ∨ x.hash = hash := by
  unfold BlockArrival.add at hx
  split_ifs at hx
  · exact .inl hx
  · rcases (List.mem_orderedInsert _).mp hx with rfl | hx
    · exact .inr rfl
    · exact .inl hx

include hB in
theorem Follows.receive
    (h : Follows F B p₀ es n p l) {e : Event} (he : Dropped env p e ∨ e.block ∈ B) (tick : Nat) :
    ∃ q l', p.receive env tick e = .ok q ∧ Follows F B p₀ (e :: es) n q l' := by
  cases e with
  | pulled b =>
    have hb : b ∈ B := by
      rcases he with ⟨c, hc, -⟩ | hb
      · simp at hc
      · exact hb
    exact ⟨_, b :: l, add_of_work env (hB b hb).1 p,
      h.add (e := .pulled b) hb (fun x hx => .inl hx)⟩
  | active b =>
    by_cases hmem : p.arrival.any (fun x => decide (x.hash = b.hash env.toEnv)) = true
    · refine ⟨p, l, ?_, h.drop hB hmem⟩
      show p.processActive env tick b = _
      unfold processActive BlockArrival.add
      rw [if_pos hmem]
      rfl
    · have hb : b ∈ B := by
        rcases he with ⟨c, hc, hdrop⟩ | hb
        · obtain rfl := Event.active.inj hc
          exact absurd hdrop hmem
        · exact hb
      refine ⟨_, b :: l, ?_, h.add (e := .active b) hb
        (fun x hx => mem_arrival_of_add tick hx)⟩
      show p.processActive env tick b = _
      unfold processActive
      have hadd : (BlockArrival.add tick p.arrival (b.hash env.toEnv)).1 = false := by
        rw [BlockArrival.add, if_neg hmem]
      simp only [hadd]
      rw [if_neg (by simp), add_of_work env (hB b hb).1]
      rfl

variable (H : CollisionFree env.toEnv U) (M : MarkerFree env.toEnv U)
variable (hidle : p₀.pool.Idle)

include H M hB hidle in
theorem Follows.process (h : Follows F B p₀ es n p l) (hblocks : p.haveBlocks = true) (m : Moment) :
    ∃ q, p.processNext env m = .ok q ∧ Follows F B p₀ es (n + 1) q l := by
  have hsound := h.run.sound hidle
  have hwork : ∀ x ∈ p.unchecked, env.workValidate x.2 = false := by
    rintro ⟨k, b⟩ hx
    exact (hB b (h.added b (hsound.waits k b hx).1)).1
  cases hqueue : p.blocks with
  | nil => simp [haveBlocks, hqueue, h.forced] at hblocks
  | cons b rest =>
    have hb : b ∈ B := h.added b (hsound.queued b (by
      show b ∈ p.blocks
      rw [hqueue]
      exact .head _))
    obtain ⟨q, hq, hstep, hpart, hforced, harrival⟩ :=
      processNext_handles H M h.part h.forced hqueue (hB b hb) hwork m
    exact ⟨q, hq,
      { run := Pool.Run.handle h.run hstep
        part := hpart
        forced := hforced
        added := h.added
        length := h.length
        seen := fun x hx => h.seen x (harrival x hx)
        complete := h.complete }⟩

include H M hB hidle in
theorem Run.follows {guard : BlockProcessor → Event → Prop}
    (hguard : ∀ p e, guard p e → Dropped env p e ∨ e.block ∈ B) (hpart : HoldsPart F p₀.store)
    (hforced : p₀.forced = []) (harrival : p₀.arrival = [])
    (h : BlockProcessor.Run env guard p₀ es n p) : ∃ l, Follows F B p₀ es n p l := by
  induction h with
  | start => exact ⟨[], Follows.start hpart hforced harrival⟩
  | @receive es n p q e tick _ he hrun ih =>
    obtain ⟨l, hl⟩ := ih
    obtain ⟨q', l', hq', hl'⟩ := hl.receive hB (hguard p e he) tick
    cases hq'.symm.trans hrun
    exact ⟨l', hl'⟩
  | @process es n p q m _ hblocks hrun ih =>
    obtain ⟨l, hl⟩ := ih
    obtain ⟨q', hq', hl'⟩ := hl.process hB H M hidle hblocks m
    cases hq'.symm.trans hrun
    exact ⟨l, hl'⟩

theorem length_needs_blockItems_le (F : BlockLattice env.toEnv U) (b : Block) :
    ((blockItems F).needs b).length ≤ 2 := by
  unfold blockItems
  simp only
  cases F.find (b.hash env.toEnv) with
  | none => simp
  | some e => exact e.length_needs_le env.toEnv

include hidle in
theorem Follows.iterations_le (h : Follows F B p₀ es n p l) : n ≤ 3 * es.length := by
  have hle := h.run.length_le hidle
  have hsum : (l.map (fun b => ((blockItems F).needs b).length + 1)).sum ≤ l.length * 3 := by
    refine List.sum_le_card_nsmul (l.map _) 3 ?_ |>.trans (by simp)
    intro x hx
    obtain ⟨b, -, rfl⟩ := List.mem_map.mp hx
    exact Nat.succ_le_succ (length_needs_blockItems_le F b)
  have hlength := h.length
  omega

include hB hidle in
theorem Follows.all_stored
    (h : Follows F B p₀ es n p l) (hempty : p.blocks = [])
    (hclosed : ∀ b ∈ l, ∀ k ∈ (blockItems F).needs b,
      p₀.store.blockExists k = true ∨ ∃ c ∈ l, c.hash env.toEnv = k) :
    (∀ b ∈ l, p.store.blockExists (b.hash env.toEnv) = true) ∧ p.unchecked = [] := by
  refine (h.run.sound hidle).complete hempty
    (fun k => ((F.find k).map Entry.time).getD 0) ?_ ?_ hclosed
  · intro b hb k hk
    obtain ⟨-, e, he, -, -⟩ := hB b (h.added b hb)
    rw [needs_blockItems he] at hk
    obtain ⟨x, hx, htime⟩ := exists_of_mem_needs he hk
    show ((F.find k).map Entry.time).getD 0 < ((F.find (b.hash env.toEnv)).map Entry.time).getD 0
    rw [hx, he]
    exact htime
  · intro b hb c hc hhash
    exact eq_of_hash_eq hB (h.added b hb) (h.added c hc) hhash

end Runs

/-! ## Everything that is missing comes in -/

/-- The ledger `s` holds a part of `F`, and the blocks `B` are what it lacks. -/
structure Target (F : BlockLattice env.toEnv U) (s : BlockStore) (B : List Block) : Prop where
  genuine : ∀ b ∈ B, Genuine F b
  part : HoldsPart F s
  only : ∀ {h e}, F.find h = some e → s.blockExists h = true ∨ ∃ b ∈ B, b.hash env.toEnv = h

namespace Target

variable {F : BlockLattice env.toEnv U} {s : BlockStore} {B l : List Block}
variable {es : List Event} {n : Nat} {p : BlockProcessor}

theorem idle_pool (s : BlockStore) : (BlockProcessor.idle s).pool.Idle := ⟨rfl, rfl⟩

variable (T : Target F s B)
include T

theorem follows (H : CollisionFree env.toEnv U) (M : MarkerFree env.toEnv U)
    {guard : BlockProcessor → Event → Prop}
    (hguard : ∀ p e, guard p e → Dropped env p e ∨ e.block ∈ B)
    (h : BlockProcessor.Run env guard (.idle s) es n p) :
    ∃ l, Follows F { b | b ∈ B } (.idle s) es n p l :=
  Run.follows T.genuine H M (idle_pool s) hguard T.part rfl rfl h

theorem all_stored (h : Follows F { b | b ∈ B } (.idle s) es n p l) (hall : ∀ b ∈ B, b ∈ l)
    (hempty : p.blocks = []) :
    (∀ {h e}, F.find h = some e → p.store.blockExists h = true) ∧ p.unchecked = [] := by
  obtain ⟨hstored, hunchecked⟩ := h.all_stored T.genuine (idle_pool s) hempty (by
    intro b hb k hk
    obtain ⟨-, e, he, -, -⟩ := T.genuine b (h.added b hb)
    rw [needs_blockItems he] at hk
    obtain ⟨x, hx, -⟩ := exists_of_mem_needs he hk
    rcases T.only hx with hold | ⟨c, hc, hhash⟩
    · exact .inl hold
    · exact .inr ⟨c, hall c hc, hhash⟩)
  refine ⟨?_, hunchecked⟩
  intro k e he
  rcases T.only he with hold | ⟨c, hc, rfl⟩
  · exact (h.run.sound (idle_pool s)).mono k hold
  · exact hstored c (hall c hc)

end Target

end Badem
