import Badem.Core.BootstrapServer
import Badem.Refinement.Reachability

/-!
# Requests are served one at a time

The queue of a connection is empty, and then every request has been answered, or its head
belongs to the response that was started last.
-/

namespace Badem

namespace BootstrapResponse

/-- The response waits for something from the socket. -/
def Reads (r : BootstrapResponse) : Prop := r.operation = .readType ∨ r.operation = .readBlock

/-- Only the response to a push reads. -/
def WellFormed (r : BootstrapResponse) : Prop := r.Reads → r.arrived.request.type = .bulkPush

theorem arrived_sendNext (m : ArrivedRequest) (more : Bool) : (sendNext m more).arrived = m := by
  unfold sendNext
  split_ifs
  · rfl
  · split <;> rfl

theorem not_reads_sendNext (m : ArrivedRequest) (more : Bool) : ¬ (sendNext m more).Reads := by
  unfold sendNext Reads
  split_ifs
  · simp
  · grind

theorem arrived_start (m : ArrivedRequest) (more : Bool) : (start m more).arrived = m := by
  unfold start
  split
  · rfl
  · exact arrived_sendNext m more

theorem wellFormed_start (m : ArrivedRequest) (more : Bool) : (start m more).WellFormed := by
  intro hreads
  rw [arrived_start]
  unfold start at hreads
  split at hreads
  · rename_i hpush
    rw [hpush]
    rfl
  · exact absurd hreads (not_reads_sendNext m more)

end BootstrapResponse

namespace BootstrapServer

variable {s : BootstrapServer}

/-- What is left of a request at the head of the queue. -/
def headMessage (m : ArrivedRequest) : Option ArrivedRequest :=
  if m.request.type = .bulkPush then some m else none

/-- Nothing is left to be done. -/
structure Idle (s : BootstrapServer) : Prop where
  requests : s.requests = []
  responses : s.responses = []
  started : s.started = s.arrived
  finished : s.finished = s.arrived

/-- The response to `m` has been started and has not come to its end. -/
structure Busy (s : BootstrapServer) (m : ArrivedRequest) (waiting : List ArrivedRequest) :
    Prop where
  requests : s.requests = headMessage m :: waiting.map some
  responses : s.responses = [] ∨ ∃ r, s.responses = [r] ∧ r.arrived = m ∧ r.WellFormed
  started : s.started = s.finished ++ [m]
  arrived : s.arrived = s.started ++ waiting

/-- The queue is in order. -/
def Ordered (s : BootstrapServer) : Prop := s.Idle ∨ ∃ m waiting, s.Busy m waiting

theorem runNext_of_cons {m : ArrivedRequest} {requests : List (Option ArrivedRequest)}
    (more : Bool) (h : s.requests = some m :: requests) :
    s.runNext more = .ok { s with
      requests := headMessage m :: requests
      responses := s.responses ++ [BootstrapResponse.start m more]
      started := s.started ++ [m] } := by
  simp only [runNext, h]
  rfl

theorem runNext_spec {m : ArrivedRequest} {waiting : List ArrivedRequest} (more : Bool)
    (hrequests : s.requests = some m :: waiting.map some) (hresponses : s.responses = [])
    (hstarted : s.started = s.finished) (harrived : s.arrived = s.started ++ m :: waiting) :
    ∃ s', s.runNext more = .ok s' ∧ s'.Ordered ∧ s'.reads = s.reads ∧ s'.arrived = s.arrived := by
  refine ⟨_, runNext_of_cons more hrequests, .inr ⟨m, waiting, rfl, .inr ?_, ?_, ?_⟩, rfl,
    rfl⟩
  · refine ⟨.start m more, ?_, BootstrapResponse.arrived_start m more,
      BootstrapResponse.wellFormed_start m more⟩
    simp only [hresponses, List.nil_append]
  · simp only [hstarted]
  · simp only [harrived, List.append_assoc, List.singleton_append]

theorem addRequest_spec (hs : s.Ordered) (request : BootstrapRequest) (more : Bool) :
    ∃ s', s.addRequest request more = .ok s' ∧ s'.Ordered ∧ s'.reads = s.reads ∧
      s'.arrived = s.arrived ++ [⟨s.arrived.length, request⟩] := by
  rcases hs with hidle | ⟨m, waiting, hbusy⟩
  · have hempty : s.requests.isEmpty = true := by rw [hidle.requests]; rfl
    simp only [addRequest, hempty, if_true]
    refine @runNext_spec _ ⟨s.arrived.length, request⟩ [] more ?_ hidle.responses ?_ ?_
    · simp only [hidle.requests, List.nil_append, List.map_nil]
    · exact hidle.started.trans hidle.finished.symm
    · simp only [hidle.started]
  · have hempty : s.requests.isEmpty = false := by rw [hbusy.requests]; rfl
    simp only [addRequest, hempty, Bool.false_eq_true, if_false]
    refine ⟨_, rfl, .inr ⟨m, waiting ++ [⟨s.arrived.length, request⟩], ?_⟩, rfl, rfl⟩
    refine ⟨?_, hbusy.responses, hbusy.started, ?_⟩
    · simp only [hbusy.requests, List.map_append, List.map_cons, List.map_nil, List.cons_append]
    · simp only [hbusy.arrived, List.append_assoc]

theorem finishRequest_spec {head : Option ArrivedRequest} {waiting : List ArrivedRequest}
    (more : Bool) (hrequests : s.requests = head :: waiting.map some)
    (hresponses : s.responses = []) (hstarted : s.started = s.finished)
    (harrived : s.arrived = s.started ++ waiting) :
    ∃ s', s.finishRequest more = .ok s' ∧ s'.Ordered ∧ s'.reads = s.reads ∧
      s'.arrived = s.arrived := by
  simp only [finishRequest, hrequests]
  cases waiting with
  | nil =>
    have hall : s.arrived = s.started := by rw [harrived, List.append_nil]
    exact ⟨_, rfl, .inl ⟨rfl, hresponses, hall.symm, hstarted.symm.trans hall.symm⟩, rfl, rfl⟩
  | cons m waiting =>
    simp only [List.map_cons, List.isEmpty_cons, Bool.false_eq_true, if_false]
    exact runNext_spec more rfl hresponses hstarted harrived

/-- The invariant of a connection: the queue, the numbers of the requests, and the reads of
the server, which end with a push. -/
structure Serving (s : BootstrapServer) : Prop where
  ordered : s.Ordered
  numbered : s.arrived.map ArrivedRequest.number = List.range s.arrived.length
  reads : s.reads.length ≤ 1
  payloads : ∀ type, ServerRead.payload type ∈ s.reads → type ≠ .bulkPush
  silent : s.reads ≠ [] → ∀ m ∈ s.arrived, m.request.type ≠ .bulkPush

/-- What is read after an event, and the request that the event completes.  After a push or a
failure nothing more is read. -/
def nextRead (read : Option ServerRead) : ServerEvent → Option ServerRead × Option BootstrapRequest
  | .receivedHeader i type _ =>
    if i = 0 ∧ read = some .header then
      match type with
      | none => (none, none)
      | some .bulkPush => (none, some .bulkPush)
      | some type => (some (.payload type), none)
    else (read, none)
  | .received i request _ =>
    match i, read, request with
    | 0, some (.payload _), none => (none, none)
    | 0, some (.payload type), some request =>
      if request.type = type then (some .header, some request) else (read, none)
    | _, _, _ => (read, none)
  | .responded _ _ _ _ => (read, none)

/-- The requests that come in on a connection. -/
def delivered (read : Option ServerRead) : List ServerEvent → List BootstrapRequest
  | [] => []
  | event :: events => (nextRead read event).2.toList ++ delivered (nextRead read event).1 events

/-- A handler ends without a fault and keeps the invariant, and the request of the event, if it
completes one, is the last that has arrived. -/
def Serves (s : BootstrapServer) (event : ServerEvent)
    (result : Except ServerFault BootstrapServer) : Prop :=
  ∃ s', result = .ok s' ∧ s'.Serving ∧ s'.reads.head? = (nextRead s.reads.head? event).1 ∧
    s'.arrived.map ArrivedRequest.request =
      s.arrived.map ArrivedRequest.request ++ (nextRead s.reads.head? event).2.toList

theorem serving_initial : initial.Serving where
  ordered := .inl ⟨rfl, rfl, rfl, rfl⟩
  numbered := rfl
  reads := le_rfl
  payloads := by simp [initial]
  silent := by simp [initial]

theorem Ordered.withReads (hs : s.Ordered) (reads : List ServerRead) :
    Ordered { s with reads := reads } := by
  rcases hs with h | ⟨m, waiting, h⟩
  · exact .inl ⟨h.requests, h.responses, h.started, h.finished⟩
  · exact .inr ⟨m, waiting, h.requests, h.responses, h.started, h.arrived⟩

theorem Serving.withReads (hs : s.Serving) {reads : List ServerRead} (hlen : reads.length ≤ 1)
    (hpayloads : ∀ type, ServerRead.payload type ∈ reads → type ≠ .bulkPush)
    (hne : reads ≠ [] → s.reads ≠ []) : Serving { s with reads := reads } :=
  ⟨hs.ordered.withReads reads, hs.numbered, hlen, hpayloads, fun h => hs.silent (hne h)⟩

theorem addRequest_serving (hs : s.Serving) (request : BootstrapRequest) (more : Bool)
    (after : List ServerRead) (hlen : after.length ≤ 1)
    (hpayloads : ∀ type, ServerRead.payload type ∈ after → type ≠ .bulkPush)
    (hne : after ≠ [] → s.reads ≠ [] ∧ request.type ≠ .bulkPush) :
    ∃ s', addRequest { s with reads := [] } request more = .ok s' ∧ s'.reads = [] ∧
      Serving { s' with reads := after } ∧ s'.arrived.map ArrivedRequest.request =
        s.arrived.map ArrivedRequest.request ++ [request] := by
  obtain ⟨s', hrun, hordered, hreads, harrived⟩ :=
    addRequest_spec (hs.ordered.withReads []) request more
  refine ⟨s', hrun, hreads, ⟨hordered.withReads after, ?_, hlen, hpayloads, ?_⟩, ?_⟩
  · show s'.arrived.map ArrivedRequest.number = List.range s'.arrived.length
    rw [harrived, List.map_append, hs.numbered, List.length_append, List.length_singleton,
      List.range_succ]
    rfl
  · intro h m hm
    obtain ⟨hreads, hpush⟩ := hne h
    rcases List.mem_append.mp (harrived ▸ hm) with hm | hm
    · exact hs.silent hreads m hm
    · obtain rfl := List.mem_singleton.mp hm
      exact hpush
  · rw [harrived, List.map_append]
    rfl

theorem Serving.reads_eq (hs : s.Serving) {i : Nat} {r : ServerRead} (hi : s.reads[i]? = some r) :
    i = 0 ∧ s.reads = [r] := by
  have hlen := hs.reads
  match hreads : s.reads with
  | [] => simp [hreads] at hi
  | [r'] =>
    rw [hreads] at hi
    obtain ⟨hlt, heq⟩ := List.getElem?_eq_some_iff.mp hi
    obtain rfl : i = 0 := Nat.lt_one_iff.mp hlt
    exact ⟨rfl, congrArg (fun r => [r]) heq⟩
  | _ :: _ :: _ => simp [hreads] at hlen

theorem Serving.ignores (hs : s.Serving) {event : ServerEvent}
    (h : nextRead s.reads.head? event = (s.reads.head?, none)) : Serves s event (.ok s) :=
  ⟨s, rfl, hs, by rw [h], by rw [h]; simp⟩

theorem receiveHeaderAction_serving (hs : s.Serving) (i : Nat) (type : Option BootstrapRequestType)
    (more : Bool) :
    Serves s (.receivedHeader i type more) (s.receiveHeaderAction i type more) := by
  unfold receiveHeaderAction
  split
  · rename_i hi
    obtain ⟨rfl, hone⟩ := hs.reads_eq hi
    simp only [hone, List.eraseIdx_zero, List.tail_cons]
    split
    · refine ⟨_, rfl, hs.withReads (Nat.zero_le _) (by simp) (fun h => absurd rfl h), ?_, ?_⟩ <;>
        simp [nextRead, hone]
    · obtain ⟨s', hrun, hreads, hserving, harrived⟩ := addRequest_serving hs .bulkPush more []
        (by simp) (by simp) (fun h => absurd rfl h)
      refine ⟨s', hrun, ?_, ?_, ?_⟩
      · rw [← hreads] at hserving
        exact hserving
      · simp [nextRead, hone, hreads]
      · simp [nextRead, hone, harrived]
    · rename_i type _ hpush
      refine ⟨_, rfl, hs.withReads le_rfl ?_ (fun _ => by simp [hone]), ?_, ?_⟩
      · intro type' htype
        rw [List.nil_append, List.mem_singleton, ServerRead.payload.injEq] at htype
        rintro rfl
        exact hpush (by rw [← htype])
      · cases type <;> simp_all [nextRead]
      · cases type <;> simp_all [nextRead]
  · rename_i hi
    refine hs.ignores (if_neg fun h => ?_)
    obtain ⟨rfl, hhead⟩ := h
    rw [List.head?_eq_getElem?] at hhead
    exact hi hhead

theorem receiveAction_serving (hs : s.Serving) (i : Nat) (request : Option BootstrapRequest)
    (more : Bool) : Serves s (.received i request more) (s.receiveAction i request more) := by
  unfold receiveAction
  split
  · rename_i type hi
    obtain ⟨rfl, hone⟩ := hs.reads_eq hi
    simp only [hone, List.eraseIdx_zero, List.tail_cons]
    split
    · refine ⟨_, rfl, hs.withReads (Nat.zero_le _) (by simp) (fun h => absurd rfl h), ?_, ?_⟩ <;>
        simp [nextRead, hone]
    · rename_i request
      split_ifs with htype
      · have hpush : request.type ≠ .bulkPush := by
          rw [htype]
          exact hs.payloads type (List.mem_of_getElem? hi)
        obtain ⟨s', hrun, hreads, hserving, harrived⟩ :=
          addRequest_serving hs request more [.header]
            le_rfl (by simp) (fun _ => ⟨by simp [hone], hpush⟩)
        refine ⟨s'.receive, bind_eq_of_ok hrun rfl, ?_, ?_, ?_⟩
        · rw [receive, hreads]
          exact hserving
        · simp [receive, nextRead, hone, hreads, htype]
        · simp [receive, nextRead, hone, htype, harrived]
      · exact hs.ignores (by simp [nextRead, hone, htype])
  · rename_i hi
    have hother : ∀ type, i = 0 → s.reads.head? ≠ some (.payload type) := by
      rintro type rfl hhead
      rw [List.head?_eq_getElem?] at hhead
      exact hi type hhead
    refine hs.ignores ?_
    rw [nextRead]
    · exact fun type hzero hhead _ => hother type hzero hhead
    · exact fun type _ hzero hhead _ => hother type hzero hhead

theorem Serving.of_ordered {s' : BootstrapServer} (hs : s.Serving) (hordered : s'.Ordered)
    (hreads : s'.reads = s.reads) (harrived : s'.arrived = s.arrived) : s'.Serving where
  ordered := hordered
  numbered := by
    rw [harrived]
    exact hs.numbered
  reads := by
    rw [hreads]
    exact hs.reads
  payloads := by
    rw [hreads]
    exact hs.payloads
  silent := by
    rw [hreads, harrived]
    exact hs.silent

section Responses

variable {m : ArrivedRequest} {waiting : List ArrivedRequest} {r : BootstrapResponse}

theorem Ordered.exists_busy (hs : s.Ordered) {i : Nat} (hi : s.responses[i]? = some r) :
    i = 0 ∧ s.responses = [r] ∧ r.WellFormed ∧ ∃ waiting, s.Busy r.arrived waiting := by
  rcases hs with hidle | ⟨m, waiting, hbusy⟩
  · simp [hidle.responses] at hi
  · rcases hbusy.responses with hnone | ⟨r', hone, rfl, hwell⟩
    · simp [hnone] at hi
    · grind

theorem Busy.next (hs : s.Busy m waiting) (hr : r.arrived = m) (hwell : r.WellFormed) :
    Ordered { s with responses := [r] } :=
  .inr ⟨m, waiting, hs.requests, .inr ⟨r, rfl, hr, hwell⟩, hs.started, hs.arrived⟩

theorem Busy.done (hs : s.Busy m waiting) : Ordered { s with responses := [] } :=
  .inr ⟨m, waiting, hs.requests, .inl rfl, hs.started, hs.arrived⟩

theorem Busy.finish (hs : s.Busy m waiting) (more : Bool) :
    ∃ s', finishRequest { s with responses := [], finished := s.finished ++ [m] } more = .ok s' ∧
      s'.Ordered ∧ s'.reads = s.reads ∧ s'.arrived = s.arrived :=
  @finishRequest_spec { s with responses := [], finished := s.finished ++ [m] } _ waiting more
    hs.requests rfl hs.started hs.arrived

end Responses

theorem responseAction_serving (hs : s.Serving) (i : Nat) (error continues more : Bool) :
    Serves s (.responded i error continues more) (s.responseAction i error continues more) := by
  -- neither the reads nor the requests that have arrived change
  have hkeeps : ∀ {s'}, s'.Ordered → s'.reads = s.reads → s'.arrived = s.arrived →
      Serves s (.responded i error continues more) (.ok s') :=
    fun hordered hreads harrived => ⟨_, rfl, hs.of_ordered hordered hreads harrived,
      by rw [hreads, nextRead], by rw [harrived, nextRead]; simp⟩
  cases hi : s.responses[i]? with
  | none =>
    rw [responseAction, hi]
    exact hkeeps hs.ordered rfl rfl
  | some r =>
    obtain ⟨rfl, hone, hwell, waiting, hbusy⟩ := hs.ordered.exists_busy hi
    have hdone : Serves s _ (.ok { s with responses := [] }) := hkeeps hbusy.done rfl rfl
    have hnext : ∀ r', r'.arrived = r.arrived → r'.WellFormed →
        Serves s _ (.ok { s with responses := [r'] }) :=
      fun r' harrived hwell' => hkeeps (hbusy.next harrived hwell') rfl rfl
    have hfinish : Serves s (.responded 0 error continues more) (finishRequest
        { s with responses := [], finished := s.finished ++ [r.arrived] } more) := by
      obtain ⟨s', hrun, hordered, hreads, harrived⟩ := hbusy.finish more
      rw [hrun]
      exact hkeeps hordered hreads harrived
    simp only [responseAction, hone, List.getElem?_cons_zero, List.eraseIdx_zero, List.tail_cons,
      List.set_cons_zero]
    cases hop : r.operation with
    | write =>
      simp only
      split_ifs
      · exact hdone
      · exact hnext _ (BootstrapResponse.arrived_sendNext _ _)
          fun h => absurd h (BootstrapResponse.not_reads_sendNext _ _)
    | writeChecksum =>
      exact hnext { r with operation := .writeFinished } rfl
        (by simp [BootstrapResponse.WellFormed, BootstrapResponse.Reads])
    | writeFinished =>
      simp only
      split_ifs
      · exact hdone
      · exact hfinish
    | readType =>
      simp only
      split_ifs
      · exact hdone
      · exact hnext { r with operation := .readBlock } rfl fun _ => hwell (.inl hop)
      · exact hfinish
    | readBlock =>
      simp only
      split_ifs
      · exact hdone
      · exact hnext { r with operation := .readType } rfl fun _ => hwell (.inr hop)

theorem step_serving (hs : s.Serving) (event : ServerEvent) : Serves s event (s.step event) := by
  cases event with
  | receivedHeader i type more => exact receiveHeaderAction_serving hs i type more
  | received i request more => exact receiveAction_serving hs i request more
  | responded i error continues more => exact responseAction_serving hs i error continues more

theorem foldlM_serving (events : List ServerEvent) :
    ∀ {s : BootstrapServer}, s.Serving →
      ∃ s', events.foldlM step s = .ok s' ∧ s'.Serving ∧ s'.arrived.map ArrivedRequest.request =
        s.arrived.map ArrivedRequest.request ++ delivered s.reads.head? events := by
  induction events with
  | nil =>
    intro s hs
    exact ⟨s, rfl, hs, by simp [delivered]⟩
  | cons event events ih =>
    intro s hs
    obtain ⟨s₁, hstep, hs₁, hread, harrived⟩ := step_serving hs event
    obtain ⟨s', hrest, hs', hall⟩ := ih hs₁
    refine ⟨s', bind_eq_of_ok hstep hrest, hs', ?_⟩
    rw [hall, harrived, hread, delivered, List.append_assoc]

/-- Responses are started in the order of arrival, each after the end of the one before, and while
one reads from the socket the server does not. -/
structure InOrder (s : BootstrapServer) : Prop where
  numbered : s.arrived.map ArrivedRequest.number = List.range s.arrived.length
  started_arrived : s.started <+: s.arrived
  finished_started : s.finished <+: s.started
  oneAtATime : s.started.length ≤ s.finished.length + 1
  notLeftBehind : s.started ≠ s.arrived → s.started.length = s.finished.length + 1
  responses : ∀ r ∈ s.responses, s.started = s.finished ++ [r.arrived]
  oneResponse : s.responses.length ≤ 1
  reads : s.reads.length ≤ 1
  exclusive : ∀ r ∈ s.responses, r.Reads → s.reads = []

theorem Serving.inOrder (hs : s.Serving) : s.InOrder := by
  rcases hs.ordered with hidle | ⟨m, waiting, hbusy⟩
  · exact {
      numbered := hs.numbered
      started_arrived := by rw [hidle.started]
      finished_started := by rw [hidle.finished, hidle.started]
      oneAtATime := by rw [hidle.finished, hidle.started]; exact Nat.le_succ _
      notLeftBehind := fun h => absurd hidle.started h
      responses := by simp [hidle.responses]
      oneResponse := by simp [hidle.responses]
      reads := hs.reads
      exclusive := by simp [hidle.responses] }
  · have hlen : s.started.length = s.finished.length + 1 := by
      rw [hbusy.started, List.length_append, List.length_singleton]
    have hone : ∀ r ∈ s.responses, s.responses = [r] ∧ r.arrived = m ∧ r.WellFormed := by
      intro r hr
      rcases hbusy.responses with hnone | ⟨r', hone, hr'⟩
      · simp_all
      · rw [hone] at hr
        obtain rfl := List.mem_singleton.mp hr
        exact ⟨hone, hr'⟩
    exact {
      numbered := hs.numbered
      started_arrived := by rw [hbusy.arrived]; exact List.prefix_append _ _
      finished_started := by rw [hbusy.started]; exact List.prefix_append _ _
      oneAtATime := hlen.le
      notLeftBehind := fun _ => hlen
      responses := fun r hr => by rw [(hone r hr).2.1]; exact hbusy.started
      oneResponse := by
        rcases hbusy.responses with hnone | ⟨r', hone, -⟩
        · simp [hnone]
        · simp [hone]
      reads := hs.reads
      exclusive := by
        intro r hr hreads
        by_contra hne
        obtain ⟨-, rfl, hwell⟩ := hone r hr
        refine hs.silent hne r.arrived ?_ (hwell hreads)
        rw [hbusy.arrived, hbusy.started]
        simp }

end BootstrapServer

/-- Whatever the order of arrivals and completions, the server meets no fault, takes every request
that comes in and serves them one at a time. -/
theorem requests_served_in_order (events : List ServerEvent) :
    ∃ s, BootstrapServer.run events = .ok s ∧
      s.arrived.map ArrivedRequest.request =
        BootstrapServer.delivered (some .header) events ∧ s.InOrder := by
  obtain ⟨s, hrun, hs, harrived⟩ :=
    BootstrapServer.foldlM_serving events BootstrapServer.serving_initial
  exact ⟨s, hrun, harrived, hs.inOrder⟩

/-- Two pulls and a push that arrive while the response to the first one is written. -/
def pipelined : List ServerEvent :=
  [.receivedHeader 0 (some .bulkPull) false, .received 0 (some (.bulkPull 7 0)) true,
    .receivedHeader 0 (some .bulkPull) false, .received 0 (some (.bulkPull 8 0)) false,
    .receivedHeader 0 (some .bulkPush) false, .responded 0 false false false,
    .responded 0 false false true]

theorem requests_served_in_order_pipelined :
    ∃ s, BootstrapServer.run pipelined = .ok s ∧
      s.arrived.map ArrivedRequest.request = [.bulkPull 7 0, .bulkPull 8 0, .bulkPush] ∧
      s.requests.length = 2 ∧ s.finished.map ArrivedRequest.number = [0] ∧ s.InOrder := by
  obtain ⟨s, hrun, harrived, horder⟩ := requests_served_in_order pipelined
  have hrest : (BootstrapServer.run pipelined).map (fun s =>
      (s.requests.length, s.finished.map ArrivedRequest.number)) = .ok (2, [0]) :=
    rfl
  rw [hrun] at hrest
  obtain ⟨hlength, hfinished⟩ := Prod.mk.inj (Except.ok.inj hrest)
  exact ⟨s, hrun, harrived, hlength, hfinished, horder⟩

end Badem
