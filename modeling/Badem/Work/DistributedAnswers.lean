import Badem.Core.DistributedWork
import Badem.Work.PoolAnswers

/-!
# Distributed work is completed once

The flag is clear, held by the handler that has set it, or spent on an outcome.  `Tracks` relates
a request for work to this; the flag has been spent when all handlers have finished.
-/

namespace Badem
namespace DistributedWork

inductive Flag
  | clear
  | held (address : IpAddress)
  | spent (outcome : WorkOutcome)

/-- Work that is good enough for a root. -/
def ValidWork (env : NodeEnv) (root : BlockHash) (work : Uint64) : Prop :=
  env.network.publishThreshold ≤ env.workValue root work

/-- The outcomes of a request for work. -/
def Flag.outcomes : Flag → List WorkOutcome
  | .clear => []
  | .held _ => []
  | .spent outcome => [outcome]

/-- The callback gets valid work, or the node looks for work in another way. -/
def SoundOutcome (env : NodeEnv) (root : BlockHash) (settings : WorkSettings)
    (outcome : WorkOutcome) : Prop :=
  (∃ work, outcome = .callback work ∧ ValidWork env root work) ∨ outcome = fallback settings

/-- What is known of a handler, by where it is. -/
def Agrees (env : NodeEnv) (root : BlockHash) (flag : Flag) (address : IpAddress) :
    WorkHandler → Prop
  | .requested => True
  | .removed work _ => ∀ w, work = some w → ValidWork env root w
  | .calling work => flag = .held address ∧ ValidWork env root work
  | .stopping => flag ≠ .clear
  | .failing => flag = .held address
  | .finished => True

/-- The request for work is where the flag and the handlers say. -/
structure Tracks (env : NodeEnv) (root : BlockHash) (settings : WorkSettings)
    (d : DistributedWork) (flag : Flag) : Prop where
  completed : d.completed = true ↔ flag ≠ .clear
  outcomes : d.outcomes = flag.outcomes
  sound : ∀ outcome, flag = .spent outcome → SoundOutcome env root settings outcome
  agrees : ∀ address handler, d.handlers address = some handler →
    Agrees env root flag address handler
  /-- The handler that holds the flag is about to act. -/
  holder : ∀ address, flag = .held address →
    (∃ work, d.handlers address = some (.calling work)) ∨ d.handlers address = some .failing
  outstanding : flag = .clear → ∀ address,
    address ∈ d.outstanding.map Prod.fst ↔ d.handlers address = some .requested
  /-- The handler that took the last peer. -/
  last : flag = .clear → d.outstanding = [] →
    ∃ address work, d.handlers address = some (.removed work true)

section Handlers

variable {env : NodeEnv} {root : BlockHash} {settings : WorkSettings} {d : DistributedWork}
  {flag : Flag} {address : IpAddress} {handler : WorkHandler} {b : IpAddress}
  {outcome : WorkOutcome} {work : Option Uint64}

theorem handlers_setHandler {handler' : WorkHandler}
    (h : (d.setHandler address handler).handlers b = some handler') :
    (b = address ∧ handler' = handler) ∨ (b ≠ address ∧ d.handlers b = some handler') := by
  by_cases hb : b = address
  · subst hb
    have hself : (d.setHandler b handler).handlers b = some handler := Function.update_self ..
    exact .inl ⟨rfl, Option.some.inj (h.symm.trans hself)⟩
  · have hother : (d.setHandler address handler).handlers b = d.handlers b :=
      Function.update_of_ne hb ..
    exact .inr ⟨hb, hother.symm.trans h⟩

theorem handlers_setHandler_self : (d.setHandler address handler).handlers address = some handler :=
  Function.update_self ..

theorem handlers_setHandler_of_ne (hb : b ≠ address) :
    (d.setHandler address handler).handlers b = d.handlers b :=
  Function.update_of_ne hb ..

theorem Agrees.hold (h : Agrees env root .clear b handler) :
    Agrees env root (.held address) b handler := by
  cases handler with
  | requested | finished => trivial
  | removed work last => exact h
  | calling work => cases h.1
  | stopping => exact absurd rfl h
  | failing => cases h

theorem Agrees.spend (hb : b ≠ address) (h : Agrees env root (.held address) b handler) :
    Agrees env root (.spent outcome) b handler := by
  cases handler with
  | requested | finished => trivial
  | removed work last => exact h
  | calling work => exact absurd (Flag.held.inj h.1).symm hb
  | stopping => exact nofun
  | failing => exact absurd (Flag.held.inj h).symm hb

theorem Tracks.setHandler (h : Tracks env root settings d flag)
    (hagrees : Agrees env root flag address handler) (hheld : flag ≠ .held address)
    (hclear : flag = .clear → handler ≠ .requested ∧ d.handlers address ≠ some .requested ∧
      ∀ work, d.handlers address ≠ some (.removed work true)) :
    Tracks env root settings (d.setHandler address handler) flag := by
  refine ⟨h.completed, h.outcomes, h.sound, ?_, ?_, ?_, ?_⟩
  · intro b handler' hb
    obtain ⟨rfl, rfl⟩ | ⟨-, hb⟩ := handlers_setHandler hb
    · exact hagrees
    · exact h.agrees b handler' hb
  · intro b hb
    have hne : b ≠ address := by
      rintro rfl
      exact hheld hb
    rw [handlers_setHandler_of_ne hne]
    exact h.holder b hb
  · intro hflag b
    obtain ⟨hnew, hold, -⟩ := hclear hflag
    refine (h.outstanding hflag b).trans ?_
    by_cases hb : b = address
    · grind [handlers_setHandler_self]
    · rw [handlers_setHandler_of_ne hb]
  · intro hflag hempty
    obtain ⟨b, work, hb⟩ := h.last hflag hempty
    have hne : b ≠ address := by
      rintro rfl
      exact (hclear hflag).2.2 work hb
    exact ⟨b, work, (handlers_setHandler_of_ne hne).trans hb⟩

theorem Tracks.hold (h : Tracks env root settings d .clear)
    (hagrees : Agrees env root (.held address) address handler)
    (hholds : (∃ work, handler = .calling work) ∨ handler = .failing) :
    Tracks env root settings ({ d with completed := true }.setHandler address handler)
      (.held address) := by
  refine ⟨⟨fun _ => nofun, fun _ => rfl⟩, h.outcomes, nofun, ?_, ?_, nofun, nofun⟩
  · intro b handler' hb
    obtain ⟨rfl, rfl⟩ | ⟨-, hb⟩ := handlers_setHandler hb
    · exact hagrees
    · exact (h.agrees b handler' hb).hold
  · intro b hb
    obtain rfl := Flag.held.inj hb
    rw [handlers_setHandler_self]
    exact hholds.imp (fun ⟨work, heq⟩ => ⟨work, congrArg some heq⟩) (congrArg some)

theorem Tracks.spend (h : Tracks env root settings d (.held address))
    (hsound : SoundOutcome env root settings outcome)
    (hagrees : Agrees env root (.spent outcome) address handler) :
    Tracks env root settings ((d.act outcome).setHandler address handler) (.spent outcome) := by
  refine ⟨⟨fun _ => nofun, fun _ => h.completed.mpr nofun⟩, ?_, ?_, ?_, nofun, nofun, nofun⟩
  · show d.outcomes ++ [outcome] = [outcome]
    rw [h.outcomes]
    rfl
  · intro outcome' heq
    obtain rfl := Flag.spent.inj heq
    exact hsound
  · intro b handler' hb
    obtain ⟨rfl, rfl⟩ | ⟨hne, hb⟩ := handlers_setHandler hb
    · exact hagrees
    · exact (h.agrees b handler' hb).spend hne

theorem Tracks.stop (h : Tracks env root settings d flag) (hflag : flag ≠ .clear) :
    Tracks env root settings d.stop flag :=
  ⟨h.completed, h.outcomes, h.sound, h.agrees, h.holder, fun heq => absurd heq hflag,
    fun heq => absurd heq hflag⟩

theorem Tracks.ne_held (h : Tracks env root settings d flag)
    (hhandler : d.handlers address = some handler) (hcalling : ∀ work, handler ≠ .calling work)
    (hfailing : handler ≠ .failing) : flag ≠ .held address := by
  intro heq
  obtain ⟨work, hb⟩ | hb := h.holder address heq
  · exact hcalling work (Option.some.inj (hhandler.symm.trans hb))
  · exact hfailing (Option.some.inj (hhandler.symm.trans hb))

theorem Tracks.remove (h : Tracks env root settings d flag)
    (hrequested : d.handlers address = some .requested)
    (hwork : ∀ w, work = some w → ValidWork env root w) :
    Tracks env root settings
      ((d.remove address).2.setHandler address (.removed work (d.remove address).1)) flag := by
  have hheld : flag ≠ .held address := h.ne_held hrequested (by simp) (by simp)
  refine ⟨h.completed, h.outcomes, h.sound, ?_, ?_, ?_, ?_⟩
  · intro b handler' hb
    obtain ⟨rfl, rfl⟩ | ⟨-, hb⟩ := handlers_setHandler hb
    · exact hwork
    · exact h.agrees b handler' hb
  · intro b hb
    have hne : b ≠ address := by
      rintro rfl
      exact hheld hb
    rw [handlers_setHandler_of_ne hne]
    exact h.holder b hb
  · intro hflag b
    have hmem : b ∈ (d.outstanding.filter (fun x => !decide (x.1 = address))).map Prod.fst ↔
        b ∈ d.outstanding.map Prod.fst ∧ b ≠ address := by
      simp [List.mem_map, List.mem_filter]
    refine hmem.trans ?_
    by_cases hb : b = address
    · grind [handlers_setHandler_self]
    · rw [handlers_setHandler_of_ne hb]
      exact ⟨fun hmem => (h.outstanding hflag b).mp hmem.1,
        fun heq => ⟨(h.outstanding hflag b).mpr heq, hb⟩⟩
  · intro _ hempty
    have hlast : (d.remove address).1 = true := List.isEmpty_iff.mpr hempty
    exact ⟨address, work, by rw [handlers_setHandler_self, hlast]⟩

theorem Tracks.testAndSet {wasSet wasClear : WorkHandler} {last : Bool}
    (h : Tracks env root settings d flag)
    (hremoved : d.handlers address = some (.removed work last))
    (hset : flag ≠ .clear → Agrees env root flag address wasSet)
    (hagrees : Agrees env root (.held address) address wasClear)
    (hholds : (∃ work, wasClear = .calling work) ∨ wasClear = .failing) :
    ∃ flag', Tracks env root settings (d.testAndSet address wasSet wasClear) flag' := by
  rw [DistributedWork.testAndSet]
  split_ifs with hcompleted
  · have hflag := h.completed.mp hcompleted
    exact ⟨flag, h.setHandler (hset hflag) (h.ne_held hremoved (by simp) (by simp))
      fun heq => absurd heq hflag⟩
  · obtain rfl : flag = .clear := by
      by_contra hflag
      exact hcompleted (h.completed.mpr hflag)
    exact ⟨_, h.hold hagrees hholds⟩

theorem validWork_of_work {response : WorkResponse} {work : Uint64}
    (h : response.work env root = some work) : ValidWork env root work := by
  cases response with
  | error => cases h
  | body tree junk =>
    simp only [WorkResponse.work, Option.bind_eq_bind, Option.bind_eq_some_iff] at h
    obtain ⟨tree', -, workText, -, work', -, hwork⟩ := h
    split_ifs at hwork with hlt
    cases hwork
    exact not_lt.mp hlt

theorem fallback_ne_callback (settings : WorkSettings) (work : Uint64) :
    fallback settings ≠ .callback work := by
  rw [fallback]
  split_ifs <;> exact nofun

theorem Tracks.step (h : Tracks env root settings d flag) (address : IpAddress)
    (response : WorkResponse) :
    ∃ flag', Tracks env root settings (step env root settings d address response) flag' := by
  rw [DistributedWork.step]
  split
  · next hhandler =>
      exact ⟨flag, h.remove hhandler fun w hw => validWork_of_work hw⟩
  · next work last hhandler =>
      have hvalid := h.agrees _ _ hhandler work rfl
      exact h.testAndSet hhandler (fun hflag => hflag) ⟨rfl, hvalid⟩ (.inl ⟨work, rfl⟩)
  · next hhandler =>
      exact h.testAndSet hhandler (fun _ => trivial) rfl (.inr rfl)
  · next hhandler =>
      refine ⟨flag, h.setHandler trivial (h.ne_held hhandler (by simp) (by simp)) fun _ => ?_⟩
      rw [hhandler]
      simp
  · next work hhandler =>
      obtain ⟨rfl, hvalid⟩ := h.agrees _ _ hhandler
      exact ⟨_, h.spend (.inl ⟨work, rfl, hvalid⟩) nofun⟩
  · next hhandler =>
      have hflag : flag ≠ .clear := h.agrees _ _ hhandler
      exact ⟨flag, (h.stop hflag).setHandler trivial (h.ne_held hhandler (by simp) (by simp))
        fun heq => absurd heq hflag⟩
  · next hhandler =>
      obtain rfl : flag = .held address := h.agrees _ _ hhandler
      exact ⟨_, h.spend (.inr rfl) trivial⟩
  · exact ⟨flag, h⟩
  · exact ⟨flag, h⟩

theorem tracks_startWork (env : NodeEnv) (root : BlockHash) (settings : WorkSettings)
    (resolved : List (IpAddress × BitVec 16)) :
    ∃ flag, Tracks env root settings (startWork settings resolved) flag := by
  rw [startWork]
  split_ifs with hempty
  · refine ⟨.spent (fallback settings), ⟨fun _ => nofun, fun _ => rfl⟩, rfl, ?_, nofun, nofun,
      nofun, nofun⟩
    intro outcome heq
    exact .inr (Flag.spent.inj heq).symm
  · refine ⟨.clear, ⟨nofun, fun hflag => absurd rfl hflag⟩, rfl, nofun, ?_, nofun, ?_, ?_⟩
    · intro address handler hhandler
      dsimp only at hhandler
      split_ifs at hhandler
      cases hhandler
      trivial
    · intro _ address
      simp
    · intro _ hnil
      exact absurd (List.isEmpty_iff.mpr hnil) hempty

theorem tracks_run (env : NodeEnv) (root : BlockHash) (settings : WorkSettings)
    (resolved : List (IpAddress × BitVec 16)) (schedule : List (IpAddress × WorkResponse)) :
    ∃ flag, Tracks env root settings (run env root settings resolved schedule) flag := by
  induction schedule using List.reverseRecOn with
  | nil => exact tracks_startWork env root settings resolved
  | append_singleton schedule e ih =>
    obtain ⟨flag, h⟩ := ih
    rw [run, List.foldl_append]
    exact h.step e.1 e.2

/-! ## Completion -/

/-- The number of events after which a handler has finished. -/
def remaining : WorkHandler → Nat
  | .requested => 4
  | .removed (some _) _ => 3
  | .removed none _ => 2
  | .calling _ => 2
  | .stopping => 1
  | .failing => 1
  | .finished => 0

theorem step_handlers (d : DistributedWork) (address : IpAddress) (response : WorkResponse)
    (hhandler : d.handlers address = some handler) (hne : handler ≠ .finished) :
    ∃ handler', remaining handler' < remaining handler ∧
      (step env root settings d address response).handlers =
        Function.update d.handlers address (some handler') := by
  have htest : ∀ wasSet wasClear, remaining wasSet < remaining handler →
      remaining wasClear < remaining handler → ∃ handler', remaining handler' < remaining handler ∧
        (d.testAndSet address wasSet wasClear).handlers =
          Function.update d.handlers address (some handler') := by
    intro wasSet wasClear hset hclear
    rw [DistributedWork.testAndSet]
    split_ifs
    · exact ⟨wasSet, hset, rfl⟩
    · exact ⟨wasClear, hclear, rfl⟩
  rw [DistributedWork.step, hhandler]
  cases handler with
  | requested =>
    refine ⟨.removed (response.work env root) (d.remove address).1, ?_, rfl⟩
    cases response.work env root <;> simp [remaining]
  | removed work last =>
    cases work with
    | some work => exact htest _ _ (by simp [remaining]) (by simp [remaining])
    | none =>
      cases last with
      | true => exact htest _ _ (by decide) (by decide)
      | false => exact ⟨.finished, by decide, rfl⟩
  | calling work => exact ⟨.stopping, by simp [remaining], rfl⟩
  | stopping => exact ⟨.finished, by decide, rfl⟩
  | failing => exact ⟨.finished, by decide, rfl⟩
  | finished => exact absurd rfl hne

theorem remaining_step {response : WorkResponse}
    (h : (step env root settings d address response).handlers b = some handler) :
    ∃ before, d.handlers b = some before ∧
      remaining handler ≤ remaining before - if address = b then 1 else 0 := by
  cases hbefore : d.handlers address with
  | none =>
    rw [DistributedWork.step, hbefore] at h
    have hne : address ≠ b := by
      rintro rfl
      cases hbefore.symm.trans h
    exact ⟨handler, h, by rw [if_neg hne]; exact le_rfl⟩
  | some before =>
    by_cases hfinished : before = .finished
    · subst hfinished
      rw [DistributedWork.step, hbefore] at h
      refine ⟨handler, h, ?_⟩
      split_ifs with hb
      · subst hb
        cases hbefore.symm.trans h
        exact le_rfl
      · exact le_rfl
    · obtain ⟨after, hlt, hstep⟩ := step_handlers d address response hbefore hfinished
      rw [hstep] at h
      by_cases hb : address = b
      · subst hb
        rw [Function.update_self] at h
        cases h
        exact ⟨before, hbefore, by rw [if_pos rfl]; omega⟩
      · rw [Function.update_of_ne (Ne.symm hb)] at h
        exact ⟨handler, h, by rw [if_neg hb]; exact le_rfl⟩

theorem mem_foldl_assign {resolved outstanding : List (IpAddress × BitVec 16)}
    {peer : IpAddress × BitVec 16} (h : peer ∈ resolved.foldl assign outstanding) :
    peer ∈ outstanding ∨ peer ∈ resolved := by
  induction resolved generalizing outstanding with
  | nil => exact .inl h
  | cons x resolved ih =>
    rcases ih h with hmem | hmem
    · rw [assign] at hmem
      split_ifs at hmem
      · obtain ⟨y, hy, rfl⟩ := List.mem_map.mp hmem
        split_ifs
        · exact .inr (.head _)
        · exact .inl hy
      · rcases List.mem_append.mp hmem with hmem | hmem
        · exact .inl hmem
        · exact .inr (List.mem_singleton.mp hmem ▸ .head _)
    · exact .inr (.tail _ hmem)

theorem resolved_of_startWork {resolved : List (IpAddress × BitVec 16)}
    (h : (startWork settings resolved).handlers address = some handler) :
    handler = .requested ∧ ∃ peer ∈ resolved, peer.1 = address := by
  rw [startWork] at h
  split_ifs at h
  dsimp only at h
  split_ifs at h with hany
  cases h
  obtain ⟨peer, hpeer, heq⟩ := List.any_eq_true.mp hany
  obtain hnil | hmem := mem_foldl_assign hpeer
  · cases hnil
  · exact ⟨rfl, peer, hmem, of_decide_eq_true heq⟩

/-- The events of a peer in a schedule. -/
def eventsOf (address : IpAddress) (schedule : List (IpAddress × WorkResponse)) : Nat :=
  schedule.countP (fun e => decide (e.1 = address))

theorem remaining_run {resolved : List (IpAddress × BitVec 16)}
    {schedule : List (IpAddress × WorkResponse)}
    (h : (run env root settings resolved schedule).handlers address = some handler) :
    remaining handler ≤ 4 - eventsOf address schedule ∧ ∃ peer ∈ resolved, peer.1 = address := by
  induction schedule using List.reverseRecOn generalizing handler with
  | nil =>
    obtain ⟨rfl, hpeer⟩ := resolved_of_startWork h
    exact ⟨le_rfl, hpeer⟩
  | append_singleton schedule e ih =>
    rw [run, List.foldl_append] at h
    obtain ⟨before, hbefore, hle⟩ := remaining_step h
    obtain ⟨hrest, hpeer⟩ := ih hbefore
    refine ⟨?_, hpeer⟩
    rw [eventsOf, List.countP_append, List.countP_singleton, ← eventsOf]
    by_cases he : e.1 = address <;> simp only [he, decide_true, decide_false, if_true] at hle ⊢ <;>
      grind

theorem finished_of_events {resolved : List (IpAddress × BitVec 16)}
    {schedule : List (IpAddress × WorkResponse)}
    (hevents : ∀ peer ∈ resolved, 4 ≤ eventsOf peer.1 schedule)
    (h : (run env root settings resolved schedule).handlers address = some handler) :
    handler = .finished := by
  obtain ⟨hle, peer, hpeer, rfl⟩ := remaining_run h
  have hnone : remaining handler = 0 := by
    have := hevents peer hpeer
    omega
  cases handler with
  | finished => rfl
  | removed work last => cases work <;> cases hnone
  | _ => cases hnone

theorem Tracks.spent (h : Tracks env root settings d flag)
    (hfinished : ∀ address handler, d.handlers address = some handler → handler = .finished) :
    ∃ outcome, d.outcomes = [outcome] ∧ SoundOutcome env root settings outcome := by
  rw [h.outcomes]
  cases flag with
  | clear =>
    have hnone : d.outstanding = [] := by
      refine List.eq_nil_iff_forall_not_mem.mpr fun x hx => ?_
      have hrequested := (h.outstanding rfl x.1).mp (List.mem_map_of_mem hx)
      cases hfinished _ _ hrequested
    obtain ⟨address, work, hremoved⟩ := h.last rfl hnone
    cases hfinished _ _ hremoved
  | held address =>
    obtain ⟨work, hcalling⟩ | hfailing := h.holder address rfl
    · cases hfinished _ _ hcalling
    · cases hfinished _ _ hfailing
  | spent outcome => exact ⟨outcome, rfl, h.sound outcome rfl⟩

end Handlers

end DistributedWork

open DistributedWork

/-- At most one outcome has happened, and one has once every peer has answered or failed.  The
callback only gets valid work, and no response has set the flag when the node goes on by itself. -/
theorem distributed_work_completes (env : NodeEnv) (root : BlockHash) (settings : WorkSettings)
    (resolved : List (IpAddress × BitVec 16)) (schedule : List (IpAddress × WorkResponse)) :
    (run env root settings resolved schedule).outcomes.length ≤ 1 ∧
      (∀ work, .callback work ∈ (run env root settings resolved schedule).outcomes →
        ValidWork env root work) ∧
      ((∀ peer ∈ resolved, 4 ≤ eventsOf peer.1 schedule) →
        (∀ address handler,
          (run env root settings resolved schedule).handlers address = some handler →
          handler = .finished) ∧
        ∃ outcome, (run env root settings resolved schedule).outcomes = [outcome] ∧
          ((∃ work, outcome = .callback work ∧ ValidWork env root work) ∨
            outcome = fallback settings)) ∧
      (fallback settings ∈ (run env root settings resolved schedule).outcomes →
        ∀ work, .callback work ∉ (run env root settings resolved schedule).outcomes ∧
          ∀ address, (run env root settings resolved schedule).handlers address ≠
            some (.calling work)) := by
  obtain ⟨flag, h⟩ := tracks_run env root settings resolved schedule
  have hfinished := fun hevents address handler => @finished_of_events env root settings address
    handler resolved schedule hevents
  generalize run env root settings resolved schedule = d at h hfinished ⊢
  refine ⟨?_, ?_, fun hevents => ⟨hfinished hevents, h.spent (hfinished hevents)⟩, ?_⟩
  · rw [h.outcomes]
    cases flag <;> simp [Flag.outcomes]
  · intro work hwork
    rw [h.outcomes] at hwork
    cases flag with
    | clear | held => cases hwork
    | spent outcome =>
      obtain ⟨work', heq, hvalid⟩ | heq := h.sound outcome rfl
      · obtain rfl := WorkOutcome.callback.inj ((List.mem_singleton.mp hwork).trans heq)
        exact hvalid
      · exact absurd (heq.symm.trans (List.mem_singleton.mp hwork).symm)
          (fallback_ne_callback settings work)
  · rw [h.outcomes]
    intro hfallback work
    constructor
    · intro hcallback
      cases flag with
      | clear | held => cases hfallback
      | spent outcome =>
        exact fallback_ne_callback settings work ((List.mem_singleton.mp hfallback).trans
          (List.mem_singleton.mp hcallback).symm)
    · intro address hcalling
      obtain ⟨rfl, -⟩ := h.agrees _ _ hcalling
      cases hfallback

/-- The events of two peers in turns: the second one answers with work, the first one fails. -/
def workSchedule : List (IpAddress × WorkResponse) :=
  let answer : WorkResponse := .body (some (JsonTree.empty.put "work" (ascii "ffffffffffffffff"))) 0
  [(.v4 1, .error), (.v4 2, answer), (.v4 1, .error), (.v4 2, answer), (.v4 1, .error),
    (.v4 2, answer), (.v4 1, .error), (.v4 2, answer)]

theorem distributed_work_completes_two :
    (run poolEnv 5 ⟨0, false, 1⟩ [(.v4 1, 7000), (.v4 2, 7000)] workSchedule).outcomes =
        [.callback (BitVec.allOnes 64)] ∧
      ∀ address handler, (run poolEnv 5 ⟨0, false, 1⟩ [(.v4 1, 7000), (.v4 2, 7000)]
        workSchedule).handlers address = some handler → handler = .finished := by
  obtain ⟨-, -, hcompletes, -⟩ := distributed_work_completes poolEnv 5 ⟨0, false, 1⟩
    [(.v4 1, 7000), (.v4 2, 7000)] workSchedule
  exact ⟨by decide +kernel, (hcompletes (by decide +kernel)).1⟩

/-- Both peers fail, and the handler that took the last one schedules the retry. -/
example (env : NodeEnv) (root : BlockHash) :
    (run env root ⟨0, false, 1⟩ [(.v4 1, 7000), (.v4 2, 7000)]
      [(.v4 1, .error), (.v4 2, .error), (.v4 1, .error), (.v4 2, .error),
        (.v4 2, .error)]).outcomes = [.retry 1 2] :=
  rfl

end Badem
