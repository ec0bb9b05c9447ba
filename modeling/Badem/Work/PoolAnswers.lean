import Badem.Core.WorkPool

/-!
# Every work request is answered once

A request is queued, taken by the thread that has found work for it, and answered, or it is
cancelled while it is queued.  `Tracks` gives each callback its place in this order.
-/

namespace Badem
namespace WorkPool

/-! ## What a thread knows -/

section Threads

variable {n : Nat} {env : NodeEnv} {pool : WorkPool n} {pool' : WorkPool n} {current : WorkRequest}
  {ticketL : Nat} {work output : Uint64}

def Valid (env : NodeEnv) (root : Uint256) (work : Uint64) : Prop :=
  env.network.publishThreshold ≤ env.workValue root work

/-- The ticket of a thread is not newer than the pool's, and its request is the first one as long as
the tickets are equal. -/
structure Searches (env : NodeEnv) (pool : WorkPool n) (current : WorkRequest) (ticketL : Nat)
    (work output : Uint64) : Prop where
  le : ticketL ≤ pool.ticket
  front : ticketL = pool.ticket → pool.pending.head? = some current
  value : output < env.network.publishThreshold ∨ env.workValue current.root work = output

def Holds (env : NodeEnv) (pool : WorkPool n) : WorkerPhase → Prop
  | .searching current ticketL work output => Searches env pool current ticketL work output
  | .relocking current ticketL work output =>
    Searches env pool current ticketL work output ∧
      (ticketL < pool.ticket ∨ env.network.publishThreshold ≤ output)
  | .calling current work => Valid env current.root work
  | _ => True

/-- The first request stays as long as the ticket does. -/
structure FrontKept (pool pool' : WorkPool n) : Prop where
  le : pool.ticket ≤ pool'.ticket
  front : pool'.ticket = pool.ticket →
    ∀ r, pool.pending.head? = some r → pool'.pending.head? = some r

theorem Searches.mono (h : Searches env pool current ticketL work output)
    (hkept : FrontKept pool pool') : Searches env pool' current ticketL work output where
  le := h.le.trans hkept.le
  front heq := by
    have hsame : pool'.ticket = pool.ticket := le_antisymm (heq ▸ h.le) hkept.le
    exact hkept.front hsame _ (h.front (heq.trans hsame))
  value := h.value

theorem Holds.mono (hkept : FrontKept pool pool') :
    ∀ {phase : WorkerPhase}, Holds env pool phase → Holds env pool' phase
  | .searching _ _ _ _, h => Searches.mono h hkept
  | .relocking _ _ _ _, h => ⟨h.1.mono hkept, h.2.imp_left fun hlt => hlt.trans_le hkept.le⟩
  | .calling _ _, h => h
  | .locking, _ => trivial
  | .waiting, _ => trivial
  | .finished, _ => trivial

theorem publishThreshold_pos (network : BademNetwork) : 0 < network.publishThreshold := by
  cases network <;> decide

theorem holds_loopHead : Holds env pool pool.loopHead := by
  rw [loopHead]
  split
  · split_ifs <;> trivial
  · next current pending hpending =>
      exact ⟨le_refl _, fun _ => by rw [hpending]; rfl, .inl (publishThreshold_pos _)⟩

theorem attempts_value (root : Uint256) (iteration : Nat) :
    ∀ (rng : Nat → Uint64) (found : Uint64 × Uint64),
      (found.2 < env.network.publishThreshold ∨ env.workValue root found.1 = found.2) →
      (attempts env root iteration rng found).2 < env.network.publishThreshold ∨
        env.workValue root (attempts env root iteration rng found).1 =
          (attempts env root iteration rng found).2 := by
  induction iteration with
  | zero =>
    intro rng found h
    exact h
  | succ iteration ih =>
    intro rng found h
    rw [attempts]
    split_ifs
    · exact ih _ _ (.inr rfl)
    · exact h

theorem Searches.search (h : Searches env pool current ticketL work output) (rng : Nat → Uint64) :
    Holds env pool (pool.search env rng current ticketL work output) := by
  rw [WorkPool.search]
  split_ifs with hgo
  · exact ⟨h.le, h.front, attempts_value _ _ _ _ h.value⟩
  · refine ⟨h, ?_⟩
    by_cases hticket : pool.ticket = ticketL
    · exact .inr (not_lt.mp fun hlt => hgo ⟨hticket, hlt⟩)
    · exact .inl (lt_of_le_of_ne h.le (Ne.symm hticket))

end Threads

/-! ## The life of a request -/

/-- How far a request has come. -/
inductive RequestStatus (n : Nat)
  | absent
  | queued
  /-- A thread has taken it from the queue. -/
  | taken (i : Fin n)
  | answered

def Takes {n : Nat} (status : Nat → RequestStatus n) (i : Fin n) (phase : WorkerPhase) : Prop :=
  ∀ r work, phase = .calling r work → status r.id = .taken i

/-- Every request is where its status says, and every thread holds what its phase says. -/
structure Tracks {n : Nat} (env : NodeEnv) (pool : WorkPool n) (status : Nat → RequestStatus n) :
    Prop where
  absent : ∀ k, pool.next ≤ k → status k = .absent
  queued : ∀ r ∈ pool.pending, status r.id = .queued
  distinct : (pool.pending.map (·.id)).Nodup
  taken : ∀ i, Takes status i (pool.threads i)
  answered : ∀ a ∈ pool.answers, status a.1.id = .answered
  once : (pool.answers.map (·.1.id)).Nodup
  valid : ∀ a ∈ pool.answers, ∀ work, a.2 = some work → Valid env a.1.root work
  holds : ∀ i, Holds env pool (pool.threads i)

section Requests

variable {n : Nat} {env : NodeEnv} {asserts : Bool} {pool : WorkPool n}
  {status : Nat → RequestStatus n} {r : WorkRequest} {i : Fin n} {phase : WorkerPhase}
  {work : Uint64}

theorem update_status {k k' : Nat} {s s' t : RequestStatus n} (hk : status k = s)
    (hk' : status k' = s') (hne : s ≠ s') : Function.update status k' t k = s := by
  rw [Function.update_of_ne, hk]
  rintro rfl
  exact hne (hk.symm.trans hk')

theorem Tracks.enqueue (h : Tracks env pool status) (root : Uint256) :
    Tracks env (pool.enqueue root) (Function.update status pool.next .queued) := by
  have hnext : status pool.next = .absent := h.absent _ (le_refl _)
  refine ⟨?_, ?_, ?_, ?_, ?_, h.once, h.valid, ?_⟩
  · intro k hk
    rw [Function.update_of_ne (Nat.ne_of_gt hk)]
    exact h.absent k (Nat.le_of_succ_le hk)
  · intro r hr
    obtain hr | hr := List.mem_append.mp hr
    · exact update_status (h.queued r hr) hnext (by simp)
    · rw [List.mem_singleton.mp hr, Function.update_self]
  · show ((pool.pending ++ _).map _).Nodup
    rw [List.map_append, List.nodup_append]
    refine ⟨h.distinct, List.nodup_singleton _, ?_⟩
    intro k hk k' hk' heq
    obtain ⟨r, hr, rfl⟩ := List.mem_map.mp hk
    have hqueued := h.queued r hr
    rw [heq, List.mem_singleton.mp hk', hnext] at hqueued
    cases hqueued
  · intro i r work hi
    exact update_status (h.taken i r work hi) hnext (by simp)
  · intro a ha
    exact update_status (h.answered a ha) hnext (by simp)
  · intro i
    have hkept : FrontKept pool (pool.enqueue root) := by
      refine ⟨le_refl _, fun _ r hr => ?_⟩
      show (pool.pending ++ _).head? = some r
      rw [List.head?_append, hr, Option.some_or]
    exact (h.holds i).mono hkept

theorem Tracks.eq_of_id_eq {r' : WorkRequest} (h : Tracks env pool status)
    (hr : r ∈ pool.pending) (hr' : r' ∈ pool.pending) (heq : r.id = r'.id) : r = r' :=
  List.inj_on_of_nodup_map h.distinct hr hr' heq

open Classical in
noncomputable def cancelled (pool : WorkPool n) (status : Nat → RequestStatus n) (root : Uint256)
    (k : Nat) : RequestStatus n :=
  if ∃ r ∈ pool.pending, r.root = root ∧ r.id = k then .answered else status k

theorem frontKept_cancel (pool : WorkPool n) (root : Uint256) :
    FrontKept pool (pool.cancel root) := by
  constructor
  · show pool.ticket ≤ if _ then _ else _
    split_ifs
    · exact Nat.le_succ _
    · exact le_refl _
  · intro hticket r hr
    have hroot : r.root ≠ root := by
      intro heq
      rw [cancel, if_pos (by rw [hr]; simpa using heq)] at hticket
      exact absurd hticket (Nat.succ_ne_self _)
    obtain ⟨pending, hpending⟩ := List.head?_eq_some_iff.mp hr
    show (pool.pending.filter _).head? = some r
    rw [hpending, List.filter_cons_of_pos (by simpa using hroot)]
    rfl

theorem Tracks.cancel (h : Tracks env pool status) (root : Uint256) :
    Tracks env (pool.cancel root) (cancelled pool status root) := by
  have hkeep : ∀ {k s}, status k = s → s ≠ .queued → cancelled pool status root k = s := by
    intro k s hk hs
    rw [cancelled, if_neg, hk]
    rintro ⟨r, hr, -, rfl⟩
    exact hs (hk.symm.trans (h.queued r hr))
  refine ⟨?_, ?_, ?_, ?_, ?_, ?_, ?_, ?_⟩
  · intro k hk
    exact hkeep (h.absent k hk) (by simp)
  · intro r hr
    obtain ⟨hr, hroot⟩ := List.mem_filter.mp hr
    rw [cancelled, if_neg, h.queued r hr]
    rintro ⟨r', hr', hroot', hid⟩
    rw [h.eq_of_id_eq hr' hr hid] at hroot'
    simp [hroot'] at hroot
  · exact h.distinct.sublist (List.filter_sublist.map _)
  · intro i r work hi
    exact hkeep (h.taken i r work hi) (by simp)
  · intro a ha
    obtain ha | ha := List.mem_append.mp ha
    · exact hkeep (h.answered a ha) (by simp)
    · obtain ⟨r, hr, rfl⟩ := List.mem_map.mp ha
      obtain ⟨hr, hroot⟩ := List.mem_filter.mp hr
      exact if_pos ⟨r, hr, of_decide_eq_true hroot, rfl⟩
  · show ((pool.answers ++ _).map _).Nodup
    rw [List.map_append, List.map_map, List.nodup_append]
    refine ⟨h.once, h.distinct.sublist (List.filter_sublist.map _), ?_⟩
    intro k hk k' hk' heq
    obtain ⟨a, ha, rfl⟩ := List.mem_map.mp hk
    obtain ⟨r, hr, rfl⟩ := List.mem_map.mp hk'
    have hanswered := h.answered a ha
    rw [heq] at hanswered
    cases hanswered.symm.trans (h.queued r (List.mem_filter.mp hr).1)
  · intro a ha work hwork
    obtain ha | ha := List.mem_append.mp ha
    · exact h.valid a ha work hwork
    · obtain ⟨r, -, rfl⟩ := List.mem_map.mp ha
      cases hwork
  · intro i
    exact (h.holds i).mono (frontKept_cancel pool root)

theorem forall_setThread {P : Fin n → WorkerPhase → Prop}
    (hi : P i phase) (hother : ∀ j, j ≠ i → P j (pool.threads j)) (j : Fin n) :
    P j ((pool.setThread i phase).threads j) := by
  show P j (Function.update pool.threads i phase j)
  rw [Function.update_apply]
  split_ifs with hj
  · exact hj ▸ hi
  · exact hother j hj

theorem Tracks.setThread (h : Tracks env pool status)
    (hphase : Holds env pool phase) (hcalling : ∀ r work, phase ≠ .calling r work) :
    Tracks env (pool.setThread i phase) status := by
  have hkept : FrontKept pool (pool.setThread i phase) := ⟨le_refl _, fun _ _ hr => hr⟩
  refine ⟨h.absent, h.queued, h.distinct, ?_, h.answered, h.once, h.valid, ?_⟩
  · exact forall_setThread (P := Takes status) (fun r work hi => absurd hi (hcalling r work))
      (fun j _ => h.taken j)
  · exact forall_setThread (P := fun _ phase => Holds env _ phase) (hphase.mono hkept)
      (fun j _ => (h.holds j).mono hkept)

theorem Tracks.take {pending : List WorkRequest} (h : Tracks env pool status)
    (hpending : pool.pending = r :: pending) (hvalid : Valid env r.root work) :
    Tracks env ((pool.take pending).setThread i (.calling r work))
      (Function.update status r.id (.taken i)) := by
  have hmem : ∀ q ∈ pending, q ∈ pool.pending := by
    intro q hq
    rw [hpending]
    exact .tail _ hq
  have hr : status r.id = .queued := h.queued r (hpending ▸ (.head _))
  have hdistinct := h.distinct
  rw [hpending, List.map_cons, List.nodup_cons] at hdistinct
  have hkept : FrontKept pool ((pool.take pending).setThread i (.calling r work)) :=
    ⟨Nat.le_succ _, fun hticket => absurd hticket (Nat.succ_ne_self _)⟩
  refine ⟨?_, ?_, hdistinct.2, ?_, ?_, h.once, h.valid, ?_⟩
  · intro k hk
    exact update_status (h.absent k hk) hr (by simp)
  · intro q hq
    rw [Function.update_of_ne, h.queued q (hmem q hq)]
    exact fun heq => hdistinct.1 (List.mem_map.mpr ⟨q, hq, heq⟩)
  · refine forall_setThread (P := Takes _) ?_ ?_
    · rintro r' work' heq
      obtain ⟨rfl, rfl⟩ := WorkerPhase.calling.inj heq
      exact Function.update_self ..
    · intro j _ r' work' hj
      exact update_status (h.taken j r' work' hj) hr (by simp)
  · intro a ha
    exact update_status (h.answered a ha) hr (by simp)
  · exact forall_setThread (P := fun _ phase => Holds env _ phase) hvalid
      (fun j _ => (h.holds j).mono hkept)

theorem Tracks.answer (h : Tracks env pool status) (hi : pool.threads i = .calling r work) :
    Tracks env ((pool.answer r (some work)).setThread i .locking)
      (Function.update status r.id .answered) := by
  have hr : status r.id = .taken i := h.taken i r work hi
  have hvalid : Valid env r.root work := by
    have hholds := h.holds i
    rwa [hi] at hholds
  have hkept : FrontKept pool ((pool.answer r (some work)).setThread i .locking) :=
    ⟨le_refl _, fun _ _ hr => hr⟩
  refine ⟨?_, ?_, h.distinct, ?_, ?_, ?_, ?_, ?_⟩
  · intro k hk
    exact update_status (h.absent k hk) hr (by simp)
  · intro q hq
    exact update_status (h.queued q hq) hr (by simp)
  · refine forall_setThread (P := Takes _) ?_ ?_
    · rintro r' work' heq
      cases heq
    · intro j hij r' work' hj
      exact update_status (h.taken j r' work' hj) hr (by simpa using hij)
  · intro a ha
    obtain ha | ha := List.mem_append.mp ha
    · exact update_status (h.answered a ha) hr (by simp)
    · rw [List.mem_singleton.mp ha, Function.update_self]
  · show ((pool.answers ++ _).map _).Nodup
    rw [List.map_append, List.nodup_append]
    refine ⟨h.once, List.nodup_singleton _, ?_⟩
    intro k hk k' hk' heq
    obtain ⟨a, ha, rfl⟩ := List.mem_map.mp hk
    have hanswered := h.answered a ha
    rw [heq, List.mem_singleton.mp hk', hr] at hanswered
    cases hanswered
  · intro a ha work' hwork
    obtain ha | ha := List.mem_append.mp ha
    · exact h.valid a ha work' hwork
    · simp_all
  · exact forall_setThread (P := fun _ phase => Holds env _ phase) trivial
      (fun j _ => (h.holds j).mono hkept)

end Requests

/-! ## One event -/

section Events

variable {n : Nat} {env : NodeEnv} {asserts : Bool} {pool : WorkPool n}
  {status : Nat → RequestStatus n}

theorem commit_cases {r : WorkRequest} {ticketL : Nat} {work output : Uint64}
    (asserts : Bool) (i : Fin n) (h : Holds env pool (.relocking r ticketL work output)) :
    pool.commit env asserts i r ticketL work output = .ok (pool.setThread i pool.loopHead) ∨
      ∃ pending, pool.pending = r :: pending ∧ Valid env r.root work ∧
        pool.commit env asserts i r ticketL work output =
          .ok ((pool.take pending).setThread i (.calling r work)) := by
  obtain ⟨hsearch, hend⟩ := h
  rw [commit]
  split_ifs with hticket
  · have houtput : env.network.publishThreshold ≤ output :=
      hend.resolve_left (hticket ▸ lt_irrefl _)
    have hvalue : env.workValue r.root work = output :=
      hsearch.value.resolve_left (not_lt.mpr houtput)
    obtain ⟨pending, hpending⟩ := List.head?_eq_some_iff.mp (hsearch.front hticket.symm)
    refine .inr ⟨pending, hpending, houtput.trans_eq hvalue.symm, ?_⟩
    rw [assertIf_of fun _ => houtput, ok_bind, assertIf_of fun _ => hvalue, ok_bind, hpending]
    rfl
  · exact .inl rfl

theorem loop_cases (asserts : Bool) (i : Fin n) (rng : Nat → Uint64)
    (h : Holds env pool (pool.threads i)) :
    (∃ phase, Holds env pool phase ∧ (∀ r work, phase ≠ .calling r work) ∧
        pool.loop env asserts i rng = .ok (pool.setThread i phase)) ∨
      (∃ r pending work, pool.pending = r :: pending ∧ Valid env r.root work ∧
        pool.loop env asserts i rng =
          .ok ((pool.take pending).setThread i (.calling r work))) ∨
      ∃ r work, pool.threads i = .calling r work ∧
        pool.loop env asserts i rng =
          .ok ((pool.answer r (some work)).setThread i .locking) := by
  have hhead : ∀ r work, pool.loopHead ≠ .calling r work := by
    intro r work
    rw [loopHead]
    split
    · split_ifs <;> simp
    · simp
  cases hi : pool.threads i with
  | searching r ticketL work output =>
    rw [hi] at h
    refine .inl ⟨_, Searches.search h rng, fun r' work' => ?_, by rw [loop, hi]; rfl⟩
    rw [search]
    split_ifs <;> simp
  | relocking r ticketL work output =>
    rw [hi] at h
    obtain hmoved | ⟨pending, hpending, hvalid, htaken⟩ := commit_cases asserts i h
    · exact .inl ⟨_, holds_loopHead, hhead, by rw [loop, hi]; exact hmoved⟩
    · exact .inr (.inl ⟨r, pending, work, hpending, hvalid, by rw [loop, hi]; exact htaken⟩)
  | calling r work => exact .inr (.inr ⟨r, work, rfl, by rw [loop, hi]; rfl⟩)
  | finished =>
    have hsame : pool.setThread i .finished = pool := by
      rw [setThread, ← hi, Function.update_eq_self]
    exact .inl ⟨.finished, trivial, by simp, by rw [loop, hi, hsame]; rfl⟩
  | _ => exact .inl ⟨_, holds_loopHead, hhead, by rw [loop, hi]; rfl⟩

/-- What an event does to the queue and to the callbacks. -/
structure Accounted (env : NodeEnv) (pool : WorkPool n) (event : Event n) (pool' : WorkPool n) :
    Prop where
  /-- A request leaves the queue when it is cancelled or when a thread has found work for it. -/
  left : ∀ r ∈ pool.pending, r ∉ pool'.pending →
    (event = .cancel r.root ∧ (r, none) ∈ pool'.answers) ∨
      ∃ i rng work, event = .worker i rng ∧ pool'.threads i = .calling r work ∧
        Valid env r.root work
  /-- A callback is called without work when its root is cancelled. -/
  refused : ∀ r, (r, none) ∈ pool'.answers →
    (r, none) ∈ pool.answers ∨ event = .cancel r.root ∧ r ∈ pool.pending

theorem Tracks.loop (h : Tracks env pool status) (asserts : Bool) (i : Fin n) (rng : Nat → Uint64) :
    ∃ pool' status', pool.loop env asserts i rng = .ok pool' ∧ Tracks env pool' status' ∧
      Accounted env pool (.worker i rng) pool' := by
  obtain ⟨phase, hphase, hcalling, heq⟩ | ⟨r, pending, work, hpending, hvalid, heq⟩ |
    ⟨r, work, hi, heq⟩ := loop_cases asserts i rng (h.holds i)
  · exact ⟨_, status, heq, h.setThread hphase hcalling,
      ⟨fun r hr hgone => absurd hr hgone, fun r hr => .inl hr⟩⟩
  · refine ⟨_, _, heq, h.take hpending hvalid, ⟨fun q hq hgone => ?_, fun q hq => .inl hq⟩⟩
    rw [hpending] at hq
    obtain rfl := (List.mem_cons.mp hq).resolve_right hgone
    exact .inr ⟨i, rng, work, rfl, Function.update_self .., hvalid⟩
  · refine ⟨_, _, heq, h.answer hi, ⟨fun q hq hgone => absurd hq hgone, fun q hq => .inl ?_⟩⟩
    obtain hold | hnew := List.mem_append.mp hq
    · exact hold
    · cases (List.mem_singleton.mp hnew)

theorem accounted_cancel (env : NodeEnv) (pool : WorkPool n) (root : Uint256) :
    Accounted env pool (.cancel root) (pool.cancel root) := by
  constructor
  · intro r hr hgone
    have hroot : r.root = root := by
      by_contra hne
      exact hgone (List.mem_filter.mpr ⟨hr, by simpa using hne⟩)
    subst hroot
    refine .inl ⟨rfl, List.mem_append_right _ (List.mem_map.mpr ⟨r, ?_, rfl⟩)⟩
    exact List.mem_filter.mpr ⟨hr, decide_eq_true rfl⟩
  · intro r hr
    obtain hold | hnew := List.mem_append.mp hr
    · exact .inl hold
    · obtain ⟨q, hq, heq⟩ := List.mem_map.mp hnew
      obtain rfl : q = r := congrArg Prod.fst heq
      obtain ⟨hmem, hroot⟩ := List.mem_filter.mp hq
      exact .inr ⟨by rw [of_decide_eq_true hroot], hmem⟩

theorem Tracks.step {event : Event n} (h : Tracks env pool status)
    (hroot : asserts = true → event ≠ .generate 0) :
    ∃ pool' status', step env asserts pool event = .ok pool' ∧ Tracks env pool' status' ∧
      Accounted env pool event pool' := by
  cases event with
  | generate root =>
    refine ⟨_, _, ?_, h.enqueue root,
      ⟨fun r hr hgone => absurd (List.mem_append_left _ hr) hgone, fun r hr => .inl hr⟩⟩
    have hne : asserts = true → root ≠ 0 := fun ha heq => hroot ha (congrArg _ heq)
    rw [WorkPool.step, generate, assertIf_of hne]
    rfl
  | cancel root => exact ⟨_, _, rfl, h.cancel root, accounted_cancel env pool root⟩
  | stop =>
    refine ⟨pool.stop, status, rfl, ?_,
      ⟨fun r hr hgone => absurd hr hgone, fun r hr => .inl hr⟩⟩
    have hkept : FrontKept pool pool.stop := ⟨le_refl _, fun _ _ hr => hr⟩
    exact ⟨h.absent, h.queued, h.distinct, h.taken, h.answered, h.once, h.valid,
      fun i => (h.holds i).mono hkept⟩
  | worker i rng => exact h.loop asserts i rng

theorem tracks_start (env : NodeEnv) (n : Nat) :
    Tracks env (start n) (fun _ => .absent) where
  absent _ _ := rfl
  queued _ hr := absurd hr List.not_mem_nil
  distinct := .nil
  taken _ _ _ hi := by cases hi
  answered _ ha := absurd ha List.not_mem_nil
  once := .nil
  valid _ ha := absurd ha List.not_mem_nil
  holds _ := trivial

theorem Tracks.run {events : List (Event n)} (hroots : asserts = true → .generate 0 ∉ events) :
    ∀ {pool : WorkPool n} {status : Nat → RequestStatus n}, Tracks env pool status →
      ∃ pool' status', run env asserts events pool = .ok pool' ∧ Tracks env pool' status' := by
  induction events with
  | nil =>
    intro pool status h
    exact ⟨pool, status, rfl, h⟩
  | cons event events ih =>
    intro pool status h
    have hevent : asserts = true → event ≠ .generate 0 :=
      fun ha heq => hroots ha (heq ▸ (.head _))
    obtain ⟨pool₁, status₁, hstep, h₁, -⟩ := h.step hevent
    obtain ⟨pool', status', hrun, h'⟩ :=
      ih (fun ha hmem => hroots ha (.tail _ hmem)) h₁
    refine ⟨pool', status', ?_, h'⟩
    rw [WorkPool.run, List.foldlM_cons, hstep]
    exact hrun

end Events

end WorkPool

open WorkPool

/-- No assertion fails, and every callback is called at most once, with good work or because its
root was cancelled. -/
theorem work_pool_answers (env : NodeEnv) (asserts : Bool) (n : Nat) (events : List (Event n))
    (hroots : asserts = true → .generate 0 ∉ events) :
    ∃ pool, run env asserts events (start n) = .ok pool ∧
      (pool.answers.map (·.1.id)).Nodup ∧
      (∀ a ∈ pool.answers, ∀ work, a.2 = some work → Valid env a.1.root work) ∧
      ∀ event, (asserts = true → event ≠ .generate 0) →
        ∃ pool', step env asserts pool event = .ok pool' ∧ Accounted env pool event pool' := by
  obtain ⟨pool, status, hrun, h⟩ := Tracks.run hroots (tracks_start env n)
  refine ⟨pool, hrun, h.once, h.valid, fun event hevent => ?_⟩
  obtain ⟨pool', -, hstep, -, haccounted⟩ := h.step hevent
  exact ⟨pool', hstep, haccounted⟩

def poolEnv : NodeEnv where
  network := .test
  digest := fun _ => 0
  validateMessage := fun _ _ _ => false
  checked := false
  workValue := fun _ work => work

def poolSchedule : List (Event 2) :=
  [.generate 5, .worker 0 (fun _ => 0), .worker 1 (fun _ => 0),
    .worker 0 (fun _ => BitVec.allOnes 64), .worker 0 (fun _ => 0), .worker 0 (fun _ => 0),
    .worker 1 (fun _ => 0), .worker 1 (fun _ => 0), .worker 0 (fun _ => 0)]

theorem work_pool_answers_one :
    ∃ pool, run poolEnv true poolSchedule (start 2) = .ok pool ∧
      pool.answers = [(⟨0, 5⟩, some (BitVec.allOnes 64))] ∧
      ∀ a ∈ pool.answers, ∀ work, a.2 = some work → Valid poolEnv a.1.root work := by
  have heval : (run poolEnv true poolSchedule (start 2)).map (·.answers) =
      .ok [(⟨0, 5⟩, some (BitVec.allOnes 64))] := by
    decide
  obtain ⟨pool, hrun, -, hvalid, -⟩ := work_pool_answers poolEnv true 2 poolSchedule
    (fun _ => by simp [poolSchedule])
  rw [hrun] at heval
  exact ⟨pool, hrun, Except.ok.inj heval, hvalid⟩

end Badem
