import Badem.Core.BootstrapAttempt
import Badem.Ledger.MarkerHashes
import Mathlib.Logic.Relation

/-!
# Repeated pulls

The requests that a pull has led to and may still lead to are never more than one above the
retry limit, and the blocks that came for it lead from the first head to the present one.
-/

namespace Badem

open Containers

/-- A chain of blocks from a hash down to the block above the end. -/
inductive HashChain (env : Env) (endBlock : BlockHash) : BlockHash → List Block → Prop
  | done : HashChain env endBlock endBlock []
  | next {b : Block} {l : List Block} :
      b.hash env ≠ endBlock →
      HashChain env endBlock b.previous l →
      HashChain env endBlock (b.hash env) (b :: l)

variable {env : Env} {endBlock h : BlockHash}

theorem HashChain.ne_nil {l : List Block}
    (hl : HashChain env endBlock h l) (hne : h ≠ endBlock) : l ≠ [] := by
  cases hl with
  | done => exact absurd rfl hne
  | next _ _ => exact List.cons_ne_nil _ _

/-- The requests that a pull leads to from the time it is queued with its attempts. -/
def QueuedPull.requestsLeft (pull : QueuedPull) : Nat :=
  if pull.attempts < bootstrapFrontierRetryLimit then
    bootstrapFrontierRetryLimit + 1 - pull.attempts
  else
    1

namespace QueuedPull

variable (pull : QueuedPull)

theorem requestsLeft_pos : 0 < pull.requestsLeft := by
  unfold requestsLeft
  split_ifs <;> omega

theorem requestsLeft_requeued (h : pull.attempts + 1 < bootstrapFrontierRetryLimit) :
    requestsLeft { pull with attempts := pull.attempts + 1 } = pull.requestsLeft - 1 := by
  simp only [requestsLeft]
  rw [if_pos h, if_pos (by omega)]
  omega

theorem requestsLeft_last (h : pull.attempts + 1 = bootstrapFrontierRetryLimit) :
    requestsLeft { pull with attempts := pull.attempts + 1 + 1 } = pull.requestsLeft - 1 := by
  simp only [requestsLeft]
  rw [if_neg (by omega), if_pos (by omega)]
  omega

end QueuedPull

namespace BootstrapAttempt

variable {env : NodeEnv} {a : BootstrapAttempt} {o : Nat}

/-! ## The number of requests -/

def queuedCosts (l : List QueuedPull) : List (QueuedPull × Nat) :=
  l.map (fun pull => (pull, pull.requestsLeft))

def clientCosts (l : List BulkPullClient) : List (QueuedPull × Nat) :=
  l.map (fun client => (client.pull, client.pull.requestsLeft - 1))

def requestCount (o : Nat) (requests : List (Nat × Account × BlockHash)) : Nat :=
  requests.countP (fun r => r.1 = o)

/-- The requests of a pull up to now and those that may follow. -/
def cost (o : Nat) (a : BootstrapAttempt) : Nat :=
  requestCount o a.requests + totalOf QueuedPull.origin o (queuedCosts a.pulls) +
    totalOf QueuedPull.origin o (queuedCosts a.background) +
    totalOf QueuedPull.origin o (clientCosts a.clients)

section Costs

variable {pull : QueuedPull} {l l' : List QueuedPull} {i : Nat}

theorem queuedCosts_cons :
    totalOf QueuedPull.origin o (queuedCosts (pull :: l)) =
      (if pull.origin = o then pull.requestsLeft else 0) +
        totalOf QueuedPull.origin o (queuedCosts l) :=
  rfl

theorem queuedCosts_append :
    totalOf QueuedPull.origin o (queuedCosts (l ++ [pull])) =
      (if pull.origin = o then pull.requestsLeft else 0) +
        totalOf QueuedPull.origin o (queuedCosts l) :=
  totalOf_map_append _ _ o

theorem queuedCosts_eraseIdx (h : l[i]? = some pull) :
    totalOf QueuedPull.origin o (queuedCosts l) =
      (if pull.origin = o then pull.requestsLeft else 0) +
        totalOf QueuedPull.origin o (queuedCosts (l.eraseIdx i)) :=
  totalOf_map_eraseIdx _ _ o h

variable {client : BulkPullClient} {m : List BulkPullClient}

theorem clientCosts_append :
    totalOf QueuedPull.origin o (clientCosts (m ++ [client])) =
      (if client.pull.origin = o then client.pull.requestsLeft - 1 else 0) +
        totalOf QueuedPull.origin o (clientCosts m) :=
  totalOf_map_append _ _ o

theorem clientCosts_eraseIdx (h : m[i]? = some client) :
    totalOf QueuedPull.origin o (clientCosts m) =
      (if client.pull.origin = o then client.pull.requestsLeft - 1 else 0) +
        totalOf QueuedPull.origin o (clientCosts (m.eraseIdx i)) :=
  totalOf_map_eraseIdx _ _ o h

theorem clientCosts_set (h : m[i]? = some client) (expected : BlockHash) :
    clientCosts (m.set i { client with expected := expected }) = clientCosts m := by
  have hget : (clientCosts m)[i]? = some (client.pull, client.pull.requestsLeft - 1) := by
    rw [clientCosts, List.getElem?_map, h]
    rfl
  obtain ⟨hi, hget⟩ := List.getElem?_eq_some_iff.mp hget
  rw [clientCosts, List.map_set]
  simp only
  rw [← hget]
  exact List.set_getElem_self hi

end Costs

theorem cost_addPull (pull : PullInfo) :
    cost o (a.addPull pull) =
      cost o a + if a.added.length = o then bootstrapFrontierRetryLimit + 1 else 0 := by
  simp only [cost, addPull, queuedCosts_append]
  split_ifs
  · rw [show QueuedPull.requestsLeft ⟨pull, 0, a.added.length⟩ =
      bootstrapFrontierRetryLimit + 1 from rfl]
    omega
  · omega

theorem cost_swapPulls (i k : Nat) : cost o (a.swapPulls i k) = cost o a := by
  unfold swapPulls
  split
  · rename_i pull pull' hpull hpull'
    obtain ⟨hi, rfl⟩ := List.getElem?_eq_some_iff.mp hpull
    obtain ⟨hk, rfl⟩ := List.getElem?_eq_some_iff.mp hpull'
    have hperm := (List.set_set_perm hi hk).map (fun pull => (pull, pull.requestsLeft))
    simp only [cost]
    rw [queuedCosts, totalOf_perm _ o hperm]
    rfl
  · rfl

theorem cost_requestPull : cost o a.requestPull = cost o a := by
  unfold requestPull
  split
  · rfl
  · rename_i pull pulls hpulls
    simp only [cost, hpulls, queuedCosts_append, queuedCosts_cons]
    omega

theorem cost_requeuePull (pull : QueuedPull) :
    cost o (a.requeuePull pull) ≤
      cost o a + if pull.origin = o then pull.requestsLeft - 1 else 0 := by
  simp only [requeuePull]
  by_cases hless : pull.attempts + 1 < bootstrapFrontierRetryLimit
  · rw [if_pos hless]
    simp only [cost, queuedCosts_cons, pull.requestsLeft_requeued hless]
    omega
  rw [if_neg hless]
  by_cases hlast : pull.attempts + 1 = bootstrapFrontierRetryLimit
  · rw [if_pos hlast]
    by_cases hfrontier : a.connectionFrontierRequest = true
    · rw [if_pos hfrontier]
      simp only [cost, queuedCosts_append, pull.requestsLeft_last hlast]
      omega
    · simp [hfrontier]
  · simp [hlast]

theorem cost_request (i : Nat) : cost o (a.request i) = cost o a := by
  unfold request
  split
  · rfl
  · rename_i pull hi
    have hpos := pull.requestsLeft_pos
    simp only [cost, requestCount, queuedCosts_eraseIdx hi, clientCosts_append,
      List.countP_append, List.countP_singleton, decide_eq_true_eq]
    split_ifs <;> omega

theorem cost_closeClient (i : Nat) : cost o (a.closeClient i) ≤ cost o a := by
  unfold closeClient
  split
  · exact le_rfl
  · rename_i client hi
    have hcost : cost o a = cost o { a with clients := a.clients.eraseIdx i } +
        if client.pull.origin = o then client.pull.requestsLeft - 1 else 0 := by
      simp only [cost, clientCosts_eraseIdx hi]
      omega
    simp only
    split_ifs
    · rw [hcost]
      exact cost_requeuePull { client.pull with head := client.expected }
    · rw [hcost]
      exact Nat.le_add_right _ _

theorem cost_receivedBlock (i : Nat) (block : Option Block) :
    cost o (a.receivedBlock env i block) ≤ cost o a := by
  unfold receivedBlock
  split
  · rename_i client b hi _
    simp only [cost, clientCosts_set hi]
    exact le_rfl
  · exact cost_closeClient i

def Bounded (a : BootstrapAttempt) : Prop :=
  ∀ o, cost o a ≤ if o < a.added.length then bootstrapFrontierRetryLimit + 1 else 0

theorem Bounded.of_cost_le {a' : BootstrapAttempt} (h : a.Bounded)
    (hcost : ∀ o, cost o a' ≤ cost o a) (hadded : a'.added = a.added) : a'.Bounded := by
  intro o
  rw [hadded]
  exact (hcost o).trans (h o)

theorem Bounded.addPull (h : a.Bounded) (pull : PullInfo) : (a.addPull pull).Bounded := by
  intro o
  have hlen : (a.addPull pull).added.length = a.added.length + 1 := List.length_append
  have ho := h o
  rw [cost_addPull, hlen]
  split_ifs at ho ⊢ <;> omega

/-! ## The blocks -/

def HandedStep (env : Env) (handed : List (Nat × Block)) (o : Nat) (h h' : BlockHash) : Prop :=
  ∃ b, (o, b) ∈ handed ∧ b.hash env = h ∧ b.previous = h'

/-- The blocks that came for a pull lead from the head that was asked for at first to `h`. -/
structure Covers (env : Env) (added : List PullInfo) (handed : List (Nat × Block)) (o : Nat)
    (h endBlock : BlockHash) (pull : PullInfo) : Prop where
  added : added[o]? = some pull
  endBlock_eq : pull.endBlock = endBlock
  leads : Relation.ReflTransGen (HandedStep env handed o) pull.head h

/-- Blocks for the pulls have come down to the hashes that are expected now. -/
structure Covered (env : Env) (a : BootstrapAttempt) : Prop where
  pulls : ∀ pull ∈ a.pulls,
    ∃ p, Covers env a.added a.handed pull.origin pull.head pull.endBlock p
  background : ∀ pull ∈ a.background,
    ∃ p, Covers env a.added a.handed pull.origin pull.head pull.endBlock p
  clients : ∀ client ∈ a.clients,
    ∃ p, Covers env a.added a.handed client.pull.origin client.expected client.pull.endBlock p
  completed : ∀ o ∈ a.completed, ∃ p, Covers env a.added a.handed o p.endBlock p.endBlock p

section Covered

variable {e : Env} {added added' : List PullInfo} {handed handed' : List (Nat × Block)}
variable {h endBlock : BlockHash} {p : PullInfo}

theorem Covers.mono (hc : Covers e added handed o h endBlock p) (hadded : added <+: added')
    (hhanded : handed ⊆ handed') : Covers e added' handed' o h endBlock p where
  added := by
    obtain ⟨l, rfl⟩ := hadded
    rw [List.getElem?_append_left (List.getElem?_eq_some_iff.mp hc.added).1]
    exact hc.added
  endBlock_eq := hc.endBlock_eq
  leads := Relation.ReflTransGen.mono
    (fun _ _ ⟨b, hb, hx, hy⟩ => ⟨b, hhanded hb, hx, hy⟩) _ _ hc.leads

theorem Covers.next {b : Block} (hc : Covers e added handed o (b.hash e) endBlock p)
    (hb : (o, b) ∈ handed) : Covers e added handed o b.previous endBlock p :=
  { hc with leads := hc.leads.tail ⟨b, hb, rfl, rfl⟩ }

theorem Covered.addPull (hc : a.Covered e) (pull : PullInfo) : (a.addPull pull).Covered e := by
  have hadded : a.added <+: a.added ++ [pull] := List.prefix_append _ _
  have hmono : ∀ {o h endBlock}, (∃ p, Covers e a.added a.handed o h endBlock p) →
      ∃ p, Covers e (a.added ++ [pull]) a.handed o h endBlock p :=
    fun ⟨p, hp⟩ => ⟨p, hp.mono hadded (List.Subset.refl _)⟩
  refine ⟨fun q hq => ?_, fun q hq => hmono (hc.background q hq),
    fun c hc' => hmono (hc.clients c hc'), fun o ho => ?_⟩
  · rcases List.mem_append.mp hq with hq | hq
    · exact hmono (hc.pulls q hq)
    · obtain rfl := List.mem_singleton.mp hq
      exact ⟨pull, List.getElem?_concat_length, rfl, .refl⟩
  · obtain ⟨p, hp⟩ := hc.completed o ho
    exact ⟨p, hp.mono hadded (List.Subset.refl _)⟩

theorem Covered.swapPulls (hc : a.Covered e) (i k : Nat) : (a.swapPulls i k).Covered e := by
  unfold BootstrapAttempt.swapPulls
  split
  · rename_i pull pull' hpull hpull'
    obtain ⟨hi, rfl⟩ := List.getElem?_eq_some_iff.mp hpull
    obtain ⟨hk, rfl⟩ := List.getElem?_eq_some_iff.mp hpull'
    exact { hc with pulls := fun q hq => hc.pulls q ((List.set_set_perm hi hk).mem_iff.mp hq) }
  · exact hc

theorem Covered.requestPull (hc : a.Covered e) : a.requestPull.Covered e := by
  unfold BootstrapAttempt.requestPull
  split
  · exact hc
  · rename_i pull pulls hpulls
    have hall := hc.pulls
    rw [hpulls] at hall
    refine ⟨fun q hq => hall q (.tail _ hq), fun q hq => ?_, hc.clients,
      hc.completed⟩
    rcases List.mem_append.mp hq with hq | hq
    · exact hc.background q hq
    · obtain rfl := List.mem_singleton.mp hq
      exact hall q (.head _)

theorem Covered.requeuePull {pull : QueuedPull} (hc : a.Covered e)
    (hpull : ∃ p, Covers e a.added a.handed pull.origin pull.head pull.endBlock p) :
    (a.requeuePull pull).Covered e := by
  simp only [BootstrapAttempt.requeuePull]
  split_ifs
  · refine { hc with pulls := fun q hq => ?_ }
    rcases List.mem_cons.mp hq with rfl | hq
    · exact hpull
    · exact hc.pulls q hq
  · refine { hc with background := fun q hq => ?_ }
    rcases List.mem_append.mp hq with hq | hq
    · exact hc.background q hq
    · obtain rfl := List.mem_singleton.mp hq
      exact hpull
  · exact hc
  · exact hc

theorem Covered.request (hc : a.Covered e) (i : Nat) : (a.request i).Covered e := by
  unfold BootstrapAttempt.request
  split
  · exact hc
  · rename_i pull hi
    refine ⟨hc.pulls, fun q hq => hc.background q (List.mem_of_mem_eraseIdx hq), fun c hc' => ?_,
      hc.completed⟩
    rcases List.mem_append.mp hc' with hc' | hc'
    · exact hc.clients c hc'
    · obtain rfl := List.mem_singleton.mp hc'
      exact hc.background pull (List.mem_of_getElem? hi)

theorem Covered.closeClient (hc : a.Covered e) (i : Nat) : (a.closeClient i).Covered e := by
  unfold BootstrapAttempt.closeClient
  split
  · exact hc
  · rename_i client hi
    have hclient := hc.clients client (List.mem_of_getElem? hi)
    have herased : Covered e { a with clients := a.clients.eraseIdx i } :=
      { hc with clients := fun c hc' => hc.clients c (List.mem_of_mem_eraseIdx hc') }
    simp only
    split_ifs with hend
    · exact herased.requeuePull hclient
    · refine { herased with completed := fun o ho => ?_ }
      rcases List.mem_append.mp ho with ho | ho
      · exact hc.completed o ho
      · obtain rfl := List.mem_singleton.mp ho
        obtain ⟨p, hp⟩ := hclient
        rw [not_not.mp hend, ← hp.endBlock_eq] at hp
        exact ⟨p, hp⟩

theorem Covered.receivedBlock (hc : a.Covered env.toEnv) (i : Nat) (block : Option Block) :
    (a.receivedBlock env i block).Covered env.toEnv := by
  unfold BootstrapAttempt.receivedBlock
  split
  · rename_i client b hi _
    have hsub : a.handed ⊆ a.handed ++ [(client.pull.origin, b)] := List.subset_append_left _ _
    have hmono : ∀ {o h endBlock}, (∃ p, Covers env.toEnv a.added a.handed o h endBlock p) →
        ∃ p, Covers env.toEnv a.added (a.handed ++ [(client.pull.origin, b)]) o h endBlock p :=
      fun ⟨p, hp⟩ => ⟨p, hp.mono List.prefix_rfl hsub⟩
    refine ⟨fun q hq => hmono (hc.pulls q hq), fun q hq => hmono (hc.background q hq),
      fun c hc' => ?_, fun o ho => ?_⟩
    · rcases List.mem_or_eq_of_mem_set hc' with hc' | rfl
      · exact hmono (hc.clients c hc')
      · obtain ⟨p, hp⟩ := hmono (hc.clients client (List.mem_of_getElem? hi))
        simp only
        split_ifs with hexpected
        · rw [← hexpected] at hp
          exact ⟨p, hp.next (List.mem_append_right _ (.head _))⟩
        · exact ⟨p, hp⟩
    · obtain ⟨p, hp⟩ := hc.completed o ho
      exact ⟨p, hp.mono List.prefix_rfl hsub⟩
  · exact hc.closeClient i

end Covered

/-! ## Whole runs -/

theorem added_swapPulls (i k : Nat) : (a.swapPulls i k).added = a.added := by
  unfold swapPulls
  split <;> rfl

theorem added_requestPull : a.requestPull.added = a.added := by
  unfold requestPull
  split <;> rfl

theorem added_requeuePull (pull : QueuedPull) : (a.requeuePull pull).added = a.added := by
  simp only [requeuePull]
  split_ifs <;> rfl

theorem added_request (i : Nat) : (a.request i).added = a.added := by
  unfold request
  split <;> rfl

theorem added_closeClient (i : Nat) : (a.closeClient i).added = a.added := by
  unfold closeClient
  split
  · rfl
  · simp only
    split_ifs
    · exact added_requeuePull _
    · rfl

theorem added_receivedBlock (i : Nat) (block : Option Block) :
    (a.receivedBlock env i block).added = a.added := by
  unfold receivedBlock
  split
  · rfl
  · exact added_closeClient i

theorem step_kept (event : AttemptEvent) (h : a.Bounded ∧ a.Covered env.toEnv) :
    (a.step env event).Bounded ∧ (a.step env event).Covered env.toEnv := by
  obtain ⟨hb, hc⟩ := h
  cases event with
  | addPull pull => exact ⟨hb.addPull pull, hc.addPull pull⟩
  | frontierConnection connected => exact ⟨hb, { hc with }⟩
  | clearPulls =>
    refine ⟨hb.of_cost_le (fun o => ?_) rfl, { hc with pulls := by simp [step] }⟩
    simp only [cost, step, queuedCosts, List.map_nil, totalOf_nil]
    omega
  | swapPulls i k =>
    exact ⟨hb.of_cost_le (fun o => (cost_swapPulls i k).le) (added_swapPulls i k),
      hc.swapPulls i k⟩
  | requestPull =>
    exact ⟨hb.of_cost_le (fun o => cost_requestPull.le) added_requestPull, hc.requestPull⟩
  | request i =>
    exact ⟨hb.of_cost_le (fun o => (cost_request i).le) (added_request i), hc.request i⟩
  | receivedBlock i block =>
    exact ⟨hb.of_cost_le (fun o => cost_receivedBlock i block) (added_receivedBlock i block),
      hc.receivedBlock i block⟩
  | closeClient i =>
    exact ⟨hb.of_cost_le (fun o => cost_closeClient i) (added_closeClient i), hc.closeClient i⟩

theorem run_kept (events : List AttemptEvent) :
    (run env events).Bounded ∧ (run env events).Covered env.toEnv := by
  unfold run
  induction events using List.reverseRecOn with
  | nil => refine ⟨fun o => Nat.zero_le _, ⟨?_, ?_, ?_, ?_⟩⟩ <;> simp [initial]
  | append_singleton events event ih =>
    rw [List.foldl_append]
    exact step_kept event ih

end BootstrapAttempt

theorem exists_hashChain {handed : List (Nat × Block)} {o : Nat}
    (hleads : Relation.ReflTransGen (BootstrapAttempt.HandedStep env handed o) h endBlock) :
    ∃ chain, HashChain env endBlock h chain ∧ ∀ b ∈ chain, (o, b) ∈ handed := by
  induction hleads using Relation.ReflTransGen.head_induction_on with
  | refl => exact ⟨[], .done, by simp⟩
  | head hstep _ ih =>
    obtain ⟨b, hb, rfl, rfl⟩ := hstep
    obtain ⟨chain, hchain, hmem⟩ := ih
    by_cases hend : b.hash env = endBlock
    · rw [hend]
      exact ⟨[], .done, by simp⟩
    · refine ⟨b :: chain, .next hend hchain, fun c hc => ?_⟩
      rcases List.mem_cons.mp hc with rfl | hc
      · exact hb
      · exact hmem c hc

/-- A pull leads to at most 17 requests, and one that reaches the end has brought its blocks. -/
theorem pulls_bounded_complete (env : NodeEnv) (events : List AttemptEvent) {o : Nat}
    {pull : PullInfo} (hadded : (BootstrapAttempt.run env events).added[o]? = some pull)
    (hne : pull.head ≠ pull.endBlock) :
    (BootstrapAttempt.run env events).requests.countP (fun r => r.1 = o) ≤ 17 ∧
      (o ∈ (BootstrapAttempt.run env events).completed →
        ∃ chain, chain ≠ [] ∧ HashChain env.toEnv pull.endBlock pull.head chain ∧
          ∀ b ∈ chain, (o, b) ∈ (BootstrapAttempt.run env events).handed) := by
  obtain ⟨hbounded, hcovered⟩ := @BootstrapAttempt.run_kept env events
  constructor
  · have hcost := hbounded o
    unfold BootstrapAttempt.cost at hcost
    have hcount : BootstrapAttempt.requestCount o (BootstrapAttempt.run env events).requests ≤
        17 := by
      split_ifs at hcost
      · exact le_trans (by omega) hcost
      · omega
    exact hcount
  · intro hcompleted
    obtain ⟨p, hp⟩ := hcovered.completed o hcompleted
    obtain rfl : pull = p := Option.some.inj (hadded.symm.trans hp.added)
    obtain ⟨chain, hchain, hmem⟩ := exists_hashChain hp.leads
    exact ⟨chain, hchain.ne_nil hne, hchain, hmem⟩

def pulledEnv : NodeEnv := { plainEnv with workValue := fun _ _ => BitVec.allOnes 64 }

def pulledEvents : List AttemptEvent :=
  [.addPull ⟨77, 6, 0⟩, .requestPull, .request 0, .receivedBlock 0 (some plainState),
    .closeClient 0, .requestPull, .request 0, .receivedBlock 0 (some plainOpen), .closeClient 0]

theorem pulled_evaluated :
    (BootstrapAttempt.run pulledEnv pulledEvents).added[0]? = some ⟨77, 6, 0⟩ ∧
      0 ∈ (BootstrapAttempt.run pulledEnv pulledEvents).completed := by
  decide +kernel

theorem pulls_bounded_complete_plain :
    (BootstrapAttempt.run pulledEnv pulledEvents).requests.countP (fun r => r.1 = 0) ≤ 17 ∧
      ∃ chain, chain ≠ [] ∧ HashChain pulledEnv.toEnv 0 6 chain ∧
        ∀ b ∈ chain, (0, b) ∈ (BootstrapAttempt.run pulledEnv pulledEvents).handed := by
  obtain ⟨hadded, hcompleted⟩ := pulled_evaluated
  obtain ⟨hcount, hchain⟩ := pulls_bounded_complete pulledEnv pulledEvents hadded (by decide)
  exact ⟨hcount, hchain hcompleted⟩

end Badem
