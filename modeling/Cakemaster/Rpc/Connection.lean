import Cakemaster.Rpc.Protocol

/-!
# The multiplexed client connection

`RpcClient::send` and the future `ClientConnection`, which drives one transport for all calls. A
call and the connection share a channel of requests, a channel of cancellations and one oneshot
channel for each call; every access to one of them is a step of its own, and steps of different
parties interleave in any order. The connection stands at a place of its poll loop (`Control`) and
asks the transport and the channels for an answer (`Answer`): an empty channel has none, a full one
may be slow to show what it holds, and the transport may answer anything.

A call is named by its number in the order in which `send` was entered. The completion of a request
is the name of its call. Three fields are there for the statements only: `issued` lists the calls
that have taken a sequence number, `processed` the cancellations that were received, and a response
frame is numbered in the order of arrival. -/

namespace Cakemaster.Rpc

open Wire

inductive RpcError
  | io (message : String)
  | protocol (message : String)
  | timedOut
  | connectionClosed
  | requestTooLarge
  | serialNumberConflict
deriving DecidableEq

inductive IoErrorKind
  | unexpectedEof
  | connectionReset
  | brokenPipe
  | other
deriving DecidableEq

/-- The errors of the transport, with their texts. -/
inductive TransportError
  | io (kind : IoErrorKind) (message : String)
  | protocol (message : String)
deriving DecidableEq

def rpcErrorFromFrame : TransportError → RpcError
  | .io .unexpectedEof _ | .io .connectionReset _ | .io .brokenPipe _ => .connectionClosed
  | .io .other message => .io message
  | .protocol message => .protocol message

structure ClientConfig where
  requestTimeout : Option ℕ
  frameLimits : FrameLimits
  maxInFlightRequests : ℕ
  pendingRequestBuffer : ℕ
deriving DecidableEq

def ClientConfig.maxInFlight (config : ClientConfig) : ℕ := max config.maxInFlightRequests 1

def ClientConfig.requestCapacity (config : ClientConfig) : ℕ := max config.pendingRequestBuffer 1

def driverPollBudget : ℕ := 1024

/-! ### Calls -/

/-- A response frame with its number in the order of arrival. -/
structure Arrival where
  number : ℕ
  frame : ResponseFrame
deriving DecidableEq

abbrev Outcome := Except RpcError Arrival

/-- How far a call of `send` has come. -/
inductive Stage
  | absent
  -- the connection was open and the sizes are within the limits
  | accepted (functionId : UInt32) (body attachment : Bytes)
  -- before the request is in the channel
  | sending
  | waiting
  -- the guard of a call with an error or without a result closes the response channel, then
  -- sends the cancellation
  | dropping (error : Option RpcError)
  | cancelling (error : Option RpcError)
  -- without a result, the caller has dropped the future
  | done (result : Option Outcome)
deriving DecidableEq

/-- A call with its request and its oneshot channel. -/
structure Call where
  stage : Stage
  request : Option RequestFrame
  value : Option Outcome
  receiverClosed : Bool
  senderGone : Bool
deriving DecidableEq

namespace Call

def absent : Call := ⟨.absent, none, none, false, false⟩

/-- `completion.send`, which is lost when the receiver was closed. -/
def complete (c : Call) (outcome : Outcome) : Call :=
  if c.receiverClosed then { c with senderGone := true } else
    { c with value := some outcome, senderGone := true }

def forget (c : Call) : Call := { c with senderGone := true }

end Call

structure DispatchRequest where
  frame : RequestFrame
  completion : ℕ
deriving DecidableEq

/-! ### The connection -/

/-- The counters of one `poll`. -/
structure Turn where
  budget : ℕ
  progressed : Bool
deriving DecidableEq

def Turn.spend (t : Turn) : Turn := ⟨t.budget - 1, true⟩

def Turn.progress (t : Turn) : Turn := { t with progressed := true }

/-- The places of the poll loop, of `finish` and of `drop`. -/
inductive Control
  | idle
  | cancelling (t : Turn)
  | filling (t : Turn)
  -- a request is pending; the first look is at its completion, then it is handed over
  | checking (t : Turn)
  | handing (t : Turn)
  | flushing (t : Turn)
  | receiving (t : Turn)
  | judging (t : Turn)
  | closing (error : RpcError)
  | draining (error : RpcError)
  | finished
  | dropping
  | dropped
deriving DecidableEq

structure Connection where
  inFlight : List (UInt32 × ℕ)
  pendingRequest : Option DispatchRequest
  needsFlush : Bool
  requestsClosed : Bool
  control : Control
deriving DecidableEq

/-- What a channel or the transport answers. -/
inductive Answer
  | pending
  | ready
  -- the transport is ready, but does not take the frame
  | refused (error : TransportError)
  | failed (error : TransportError)
  | ended
  | frame (f : ResponseFrame)
  -- the next entry that `drain` yields
  | entry (sequence : UInt32)

structure ClientState where
  calls : ℕ → Call
  entered : ℕ
  issued : List ℕ
  nextSequence : UInt32
  closed : Bool
  requests : List DispatchRequest
  cancellations : List UInt32
  receiversOpen : Bool
  connection : Connection
  result : Option (Except RpcError Unit)
  sent : List RequestFrame
  arrived : ℕ
  processed : List UInt32

namespace ClientState

def initial : ClientState where
  calls _ := .absent
  entered := 0
  issued := []
  nextSequence := 0
  closed := false
  requests := []
  cancellations := []
  receiversOpen := true
  connection := ⟨[], none, false, false, .idle⟩
  result := none
  sent := []
  arrived := 0
  processed := []

def setCall (s : ClientState) (i : ℕ) (c : Call) : ClientState :=
  { s with calls := Function.update s.calls i c }

def setStage (s : ClientState) (i : ℕ) (stage : Stage) : ClientState :=
  s.setCall i { s.calls i with stage }

def complete (s : ClientState) (i : ℕ) (outcome : Outcome) : ClientState :=
  s.setCall i ((s.calls i).complete outcome)

def forget (s : ClientState) (i : ℕ) : ClientState := s.setCall i (s.calls i).forget

def goto (s : ClientState) (control : Control) : ClientState :=
  { s with connection := { s.connection with control } }

def setPending (s : ClientState) (pendingRequest : Option DispatchRequest) : ClientState :=
  { s with connection := { s.connection with pendingRequest } }

def setInFlight (s : ClientState) (inFlight : List (UInt32 × ℕ)) : ClientState :=
  { s with connection := { s.connection with inFlight } }

def flying (s : ClientState) (sequence : UInt32) : Option ℕ :=
  (s.connection.inFlight.find? fun entry => entry.1 = sequence).map Prod.snd

def land (s : ClientState) (sequence : UInt32) : ClientState :=
  s.setInFlight (s.connection.inFlight.filter fun entry => entry.1 ≠ sequence)

end ClientState

open ClientState

/-! ### Steps of a call -/

inductive CallEvent
  | number
  | enqueue
  | receive
  | timeOut
  | abandon
  | close
  | cancel
deriving DecidableEq

/-- A new call loads `closed` and checks the sizes. -/
def enter (config : ClientConfig) (functionId : UInt32) (body attachment : Bytes)
    (s : ClientState) : ClientState :=
  let stage :=
    if s.closed then Stage.done (some (.error .connectionClosed))
    else if config.frameLimits.maxBodyLen < body.length ∨
      config.frameLimits.maxAttachmentLen < attachment.length then
      .done (some (.error .requestTooLarge))
    else .accepted functionId body attachment
  { s.setCall s.entered { Call.absent with stage } with entered := s.entered + 1 }

/-- `fetch_add` and the request frame. -/
def number (s : ClientState) (i : ℕ) (functionId : UInt32) (body attachment : Bytes) :
    ClientState :=
  let s' := { s with nextSequence := s.nextSequence + 1, issued := s.issued ++ [i] }
  match RequestFrame.new s.nextSequence functionId body attachment with
  | .error _ => s'.setStage i (.done (some (.error .requestTooLarge)))
  | .ok frame => s'.setCall i { s.calls i with stage := .sending, request := some frame }

/-- The send half of `dispatch`. A full channel makes the call wait. -/
def enqueue (config : ClientConfig) (s : ClientState) (i : ℕ) (frame : RequestFrame) :
    Option ClientState :=
  if ¬s.receiversOpen then
    some ((s.forget i).setStage i (.dropping (some .connectionClosed)))
  else if s.requests.length < config.requestCapacity then
    some { s.setStage i .waiting with requests := s.requests ++ [⟨frame, i⟩] }
  else none

def receive (s : ClientState) (i : ℕ) : Option ClientState :=
  match (s.calls i).value with
  | some outcome => some (s.setStage i (.done (some outcome)))
  | none =>
    if (s.calls i).senderGone then some (s.setStage i (.done (some (.error .connectionClosed))))
    else none

/-- The future `dispatch` is dropped, and with it a request that is not in the channel yet. -/
def leave (s : ClientState) (i : ℕ) (error : Option RpcError) : Option ClientState :=
  match (s.calls i).stage with
  | .sending => some ((s.forget i).setStage i (.dropping error))
  | .waiting => some (s.setStage i (.dropping error))
  | _ => none

def callStep (config : ClientConfig) (s : ClientState) (i : ℕ) : CallEvent → Option ClientState
  | .number =>
    match (s.calls i).stage with
    | .accepted functionId body attachment => some (number s i functionId body attachment)
    | _ => none
  | .enqueue =>
    match (s.calls i).stage, (s.calls i).request with
    | .sending, some frame => enqueue config s i frame
    | _, _ => none
  | .receive =>
    match (s.calls i).stage with
    | .waiting => receive s i
    | _ => none
  | .timeOut => if config.requestTimeout.isSome then leave s i (some .timedOut) else none
  | .abandon => leave s i none
  | .close =>
    match (s.calls i).stage with
    | .dropping error =>
      some (s.setCall i { s.calls i with stage := .cancelling error, receiverClosed := true })
    | _ => none
  | .cancel =>
    match (s.calls i).stage, (s.calls i).request with
    | .cancelling error, some frame =>
      let s' := s.setStage i (.done (error.map .error))
      some (if s.receiversOpen then
        { s' with cancellations := s.cancellations ++ [frame.header.sequence] } else s')
    | _, _ => none

/-! ### Steps of the connection -/

/-- A cancellation drops the completion of a request in flight. -/
def revoke (s : ClientState) (sequence : UInt32) : ClientState :=
  match s.flying sequence with
  | some i => (s.land sequence).forget i
  | none => s

/-- One round of the loop over the cancellations. -/
def cancelStep (s : ClientState) (t : Turn) : Answer → Option ClientState
  | .ready =>
    match t.budget, s.cancellations with
    | _ + 1, sequence :: rest =>
      some ({ revoke s sequence with cancellations := rest, processed := s.processed ++ [sequence] }.goto
        (.cancelling t.spend))
    | _, _ => none
  | .pending => some (s.goto (.filling t))
  | _ => none

/-- The head of the loop that takes requests. -/
def fillStep (config : ClientConfig) (s : ClientState) (t : Turn) (answer : Answer) :
    Option ClientState :=
  if s.connection.inFlight.length < config.maxInFlight ∧ 0 < t.budget then
    if s.connection.pendingRequest.isSome then some (s.goto (.checking t))
    else if s.connection.requestsClosed then some (s.goto (.flushing t))
    else
      match answer, s.requests with
      | .ready, request :: rest =>
        some (({ s with requests := rest }.setPending (some request)).goto (.checking t.progress))
      | .ended, [] =>
        some ({ s with connection := { s.connection with requestsClosed := true } }.goto (.flushing t.progress))
      | .pending, _ => some (s.goto (.flushing t))
      | _, _ => none
  else some (s.goto (.flushing t))

def checkStep (s : ClientState) (t : Turn) : Option ClientState :=
  match s.connection.pendingRequest with
  | none => none
  | some request =>
    if (s.calls request.completion).receiverClosed then
      some (((s.forget request.completion).setPending none).goto (.filling t.spend))
    else some (s.goto (.handing t))

/-- The request goes to the transport. -/
def handStep (s : ClientState) (t : Turn) (answer : Answer) : Option ClientState :=
  match s.connection.pendingRequest with
  | none => none
  | some request =>
    let sequence := request.frame.header.sequence
    if (s.flying sequence).isSome then
      some (((s.complete request.completion (.error .serialNumberConflict)).setPending none).goto
        (.filling t.spend))
    else
      let s' := (s.setPending none).setInFlight ((sequence, request.completion) :: s.connection.inFlight)
      match answer with
      | .ready =>
        some ({ s' with
          sent := s.sent ++ [request.frame]
          connection := { s'.connection with needsFlush := true } }.goto (.filling t.spend))
      | .refused error => some (s'.goto (.closing (rpcErrorFromFrame error)))
      | .failed error => some (s.goto (.closing (rpcErrorFromFrame error)))
      | .pending => some (s.goto (.flushing t))
      | _ => none

def flushStep (s : ClientState) (t : Turn) (answer : Answer) : Option ClientState :=
  if s.connection.needsFlush then
    match answer with
    | .ready => some ({ s with connection := { s.connection with needsFlush := false } }.goto
      (.receiving t.progress))
    | .failed error => some (s.goto (.closing (rpcErrorFromFrame error)))
    | .pending => some (s.goto (.receiving t))
    | _ => none
  else some (s.goto (.receiving t))

/-- A frame ends the request with its sequence number, if there is one. -/
def deliver (s : ClientState) (f : ResponseFrame) : ClientState :=
  let s' := match s.flying f.header.sequence with
    | some i => (s.land f.header.sequence).complete i (.ok ⟨s.arrived, f⟩)
    | none => s
  { s' with arrived := s.arrived + 1 }

def receiveStep (s : ClientState) (t : Turn) (answer : Answer) : Option ClientState :=
  if 0 < t.budget then
    match answer with
    | .frame f => some ((deliver s f).goto (.receiving t.spend))
    | .failed error => some (s.goto (.closing (rpcErrorFromFrame error)))
    | .ended => some (s.goto (.closing .connectionClosed))
    | .pending => some (s.goto (.judging t))
    | _ => none
  else some (s.goto (.judging t))

def judgeStep (s : ClientState) (t : Turn) : ClientState :=
  if s.connection.requestsClosed ∧ s.connection.pendingRequest = none ∧ s.connection.inFlight = [] ∧
      ¬s.connection.needsFlush then
    { s with closed := true, result := some (.ok ()) }.goto .finished
  else if t.budget = 0 ∨ ¬t.progressed then s.goto .idle
  else s.goto (.cancelling ⟨t.budget, false⟩)

/-- One round of the loops of `finish`. -/
def drainStep (s : ClientState) (error : RpcError) (answer : Answer) : Option ClientState :=
  match s.connection.inFlight, answer with
  | _ :: _, .entry sequence => do
    let i ← s.flying sequence
    return (s.land sequence).complete i (.error error)
  | _ :: _, _ => none
  | [], _ =>
    match s.connection.pendingRequest, s.requests with
    | some request, _ => some ((s.complete request.completion (.error error)).setPending none)
    | none, request :: rest => some { s.complete request.completion (.error error) with requests := rest }
    | none, [] => some ({ s with result := some (.error error) }.goto .finished)

def dropFields (s : ClientState) : ClientState :=
  let held := s.requests.map (·.completion) ++ s.connection.inFlight.map Prod.snd ++
    s.connection.pendingRequest.toList.map (·.completion)
  { s with
    calls := fun i => if i ∈ held then (s.calls i).forget else s.calls i
    requests := []
    cancellations := []
    receiversOpen := false
    connection := { s.connection with inFlight := [], pendingRequest := none, control := .dropped } }

def connectionStep (config : ClientConfig) (s : ClientState) (answer : Answer) :
    Option ClientState :=
  match s.connection.control with
  | .cancelling t => cancelStep s t answer
  | .filling t => fillStep config s t answer
  | .checking t => checkStep s t
  | .handing t => handStep s t answer
  | .flushing t => flushStep s t answer
  | .receiving t => receiveStep s t answer
  | .judging t => some (judgeStep s t)
  | .closing error => some ({ s with closed := true }.goto (.draining error))
  | .draining error => drainStep s error answer
  | .dropping => some (dropFields s)
  | .idle | .finished | .dropped => none

/-! ### Runs -/

inductive Event
  -- a caller enters `send`
  | enter (functionId : UInt32) (body attachment : Bytes)
  | call (i : ℕ) (event : CallEvent)
  -- the runtime polls the connection, which then goes on step by step
  | poll
  | connection (answer : Answer)
  -- the connection has finished, or its task was aborted
  | drop

def step (config : ClientConfig) (s : ClientState) : Event → Option ClientState
  | .enter functionId body attachment => some (enter config functionId body attachment s)
  | .call i event => callStep config s i event
  | .poll =>
    if s.connection.control = .idle then some (s.goto (.cancelling ⟨driverPollBudget, false⟩))
    else none
  | .connection answer => connectionStep config s answer
  | .drop =>
    if s.connection.control = .idle ∨ s.connection.control = .finished then
      some ({ s with closed := true }.goto .dropping)
    else none

def run (config : ClientConfig) (s : ClientState) (events : List Event) : Option ClientState :=
  events.foldlM (step config) s

end Cakemaster.Rpc
