import Badem.Core.Bootstrap

/-!
# Bootstrap servers

The requests of one connection and the responses to them (`node/bootstrap.cpp`).  Every handler
is one event: the end of a read, or the end of the operation on the socket that a response
waits for.  The reads and the running responses are lists, so that nothing about their number
is assumed.
-/

namespace Badem

inductive BootstrapRequestType
  | bulkPull
  | bulkPullBlocks
  | frontierReq
  | bulkPush
deriving DecidableEq

inductive BootstrapRequest
  | bulkPull (start : Account) (endBlock : BlockHash)
  | bulkPullBlocks (request : BulkPullBlocks)
  | frontierReq (request : FrontierReq)
  | bulkPush

def BootstrapRequest.type : BootstrapRequest → BootstrapRequestType
  | .bulkPull _ _ => .bulkPull
  | .bulkPullBlocks _ => .bulkPullBlocks
  | .frontierReq _ => .frontierReq
  | .bulkPush => .bulkPush

/-- A request with its number in the order of arrival. -/
structure ArrivedRequest where
  number : Nat
  request : BootstrapRequest

inductive ResponseOperation
  /-- A block or a frontier is written. -/
  | write
  | writeChecksum
  | writeFinished
  /-- The type of the next block of a push is read. -/
  | readType
  | readBlock
deriving DecidableEq

structure BootstrapResponse where
  arrived : ArrivedRequest
  operation : ResponseOperation

namespace BootstrapResponse

def sendNext (arrived : ArrivedRequest) (more : Bool) : BootstrapResponse :=
  if more then ⟨arrived, .write⟩
  else
    match arrived.request with
    | .bulkPullBlocks request =>
      ⟨arrived, if request.mode = .checksumBlocks then .writeChecksum else .writeFinished⟩
    | _ => ⟨arrived, .writeFinished⟩

def start (arrived : ArrivedRequest) (more : Bool) : BootstrapResponse :=
  match arrived.request with
  | .bulkPush => ⟨arrived, .readType⟩
  | _ => sendNext arrived more

end BootstrapResponse

inductive ServerRead
  | header
  | payload (type : BootstrapRequestType)
deriving DecidableEq

inductive ServerFault
  /-- The assertion of `run_next`. -/
  | noRequest
  /-- The message of the head has been released. -/
  | released
  /-- `pop` of an empty queue. -/
  | emptyPop

structure BootstrapServer where
  /-- The queue, without the messages that have been released. -/
  requests : List (Option ArrivedRequest)
  reads : List ServerRead
  responses : List BootstrapResponse
  /-- The requests that have been added, those whose response has been started and those
  whose response has come to its end, each in the order of these events. -/
  arrived : List ArrivedRequest
  started : List ArrivedRequest
  finished : List ArrivedRequest

namespace BootstrapServer

def initial : BootstrapServer where
  requests := []
  reads := [.header]
  responses := []
  arrived := []
  started := []
  finished := []

variable (s : BootstrapServer)

def receive : BootstrapServer := { s with reads := s.reads ++ [.header] }

def runNext (more : Bool) : Except ServerFault BootstrapServer :=
  match s.requests with
  | [] => .error .noRequest
  | none :: _ => .error .released
  | some m :: requests =>
    .ok { s with
      requests := (if m.request.type = .bulkPush then some m else none) :: requests
      responses := s.responses ++ [BootstrapResponse.start m more]
      started := s.started ++ [m] }

def addRequest (request : BootstrapRequest) (more : Bool) : Except ServerFault BootstrapServer :=
  let m : ArrivedRequest := ⟨s.arrived.length, request⟩
  let start := s.requests.isEmpty
  let s := { s with requests := s.requests ++ [some m], arrived := s.arrived ++ [m] }
  if start then s.runNext more else .ok s

def finishRequest (more : Bool) : Except ServerFault BootstrapServer :=
  match s.requests with
  | [] => .error .emptyPop
  | _ :: requests =>
    let s := { s with requests := requests }
    if requests.isEmpty then .ok s else s.runNext more

/-- A header has come, or a failure or a header that the server does not know. -/
def receiveHeaderAction (i : Nat) (type : Option BootstrapRequestType) (more : Bool) :
    Except ServerFault BootstrapServer :=
  match s.reads[i]? with
  | some .header =>
    let s := { s with reads := s.reads.eraseIdx i }
    match type with
    | none => .ok s
    | some .bulkPush => s.addRequest .bulkPush more
    | some type => .ok { s with reads := s.reads ++ [.payload type] }
  | _ => .ok s

def receiveAction (i : Nat) (request : Option BootstrapRequest) (more : Bool) :
    Except ServerFault BootstrapServer :=
  match s.reads[i]? with
  | some (.payload type) =>
    match request with
    | none => .ok { s with reads := s.reads.eraseIdx i }
    | some request =>
      if request.type = type then do
        let s ← addRequest { s with reads := s.reads.eraseIdx i } request more
        pure s.receive
      else .ok s
  | _ => .ok s

/-- The operation of a response has ended.  For a push `continues` says that the type is not the
mark of the end, and otherwise that there is more to send. -/
def responseAction (i : Nat) (error continues more : Bool) : Except ServerFault BootstrapServer :=
  match s.responses[i]? with
  | none => .ok s
  | some response =>
    let next (response : BootstrapResponse) : Except ServerFault BootstrapServer :=
      .ok { s with responses := s.responses.set i response }
    let done := { s with responses := s.responses.eraseIdx i }
    let finish :=
      finishRequest { done with finished := s.finished ++ [response.arrived] } more
    match response.operation with
    | .write => if error then .ok done else next (.sendNext response.arrived continues)
    | .writeChecksum => next { response with operation := .writeFinished }
    | .writeFinished => if error then .ok done else finish
    | .readType =>
      if error then .ok done
      else if continues then next { response with operation := .readBlock }
      else finish
    | .readBlock => if error then .ok done else next { response with operation := .readType }

end BootstrapServer

/-- `more` tells whether a response that an event starts has something to send. -/
inductive ServerEvent
  | receivedHeader (i : Nat) (type : Option BootstrapRequestType) (more : Bool)
  | received (i : Nat) (request : Option BootstrapRequest) (more : Bool)
  | responded (i : Nat) (error continues more : Bool)

namespace BootstrapServer

def step (s : BootstrapServer) : ServerEvent → Except ServerFault BootstrapServer
  | .receivedHeader i type more => s.receiveHeaderAction i type more
  | .received i request more => s.receiveAction i request more
  | .responded i error continues more => s.responseAction i error continues more

def run (events : List ServerEvent) : Except ServerFault BootstrapServer :=
  events.foldlM step initial

end BootstrapServer

end Badem
