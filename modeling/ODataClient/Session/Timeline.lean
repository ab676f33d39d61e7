import ODataClient.Session.Resolution

/-! A client on a clock. Its requests are answered by replies in the order in which they
are sent. Nothing takes time but replies and timeouts, so the clock goes from one event
to the next. -/

namespace ODataClient

inductive Cancellation
  | never
  | already
  | atTime (t : Nat)

def Cancellation.isAlready : Cancellation → Bool
  | already => true
  | _ => false

def Cancellation.time? : Cancellation → Option Nat
  | atTime t => some t
  | _ => none

structure Timeline where
  client : Client
  now : Nat
  replies : List Reply
  sent : List HttpRequest
  fetches : List (CallId × Exchange)

namespace Timeline

def start (replies : List Reply) : Timeline := ⟨.empty, 0, replies, [], []⟩

def send (t : Timeline) (timeout : Option Nat) (request : HttpRequest) : Exchange × Timeline :=
  (.begin t.now timeout request (t.replies.head?.getD .missing),
    { t with replies := t.replies.tail, sent := t.sent ++ [request] })

def produced? (t : Timeline) (call : CallId) : Option (Except Error MetadataDocument) :=
  match t.fetches.lookup call with
  | some x => if x.due ≤ t.now then some (x.outcome.map Session.documentOf) else none
  | none => none

def advance (t : Timeline) (a : AttemptId) (call : CallId) : Timeline :=
  { t with client := t.client.advance a (t.produced? call) }

def caller? (t : Timeline) (call : CallId) : Option Session :=
  (t.client.callers[call]?).bind fun i => t.client.sessions[i]?

def sendFetch (t : Timeline) (call : CallId) : Timeline :=
  match t.caller? call with
  | none => t
  | some s =>
    let (x, t) := t.send s.settings.timeout s.metadataRequest
    { t with fetches := (call, x) :: t.fetches }

def pollAttempt (t : Timeline) (a : AttemptId) : Timeline :=
  match t.client.cache.attempts[a]? with
  | none => t
  | some x =>
    let moved := t.advance a x.call
    if t.client.cache.started.length < moved.client.cache.started.length then
      (moved.sendFetch x.call).advance a x.call
    else moved

def pollAttempts (t : Timeline) : Timeline :=
  (List.range t.client.cache.attempts.length).foldl pollAttempt t

def pollResolutions (t : Timeline) : Timeline :=
  { t with client :=
      (List.range t.client.resolutions.length).foldl Client.progress t.client }

/-- Turns for attempts and resolutions until all wait. Of the resolutions that are not
answered every turn but the last answers one. -/
def settle (t : Timeline) : Timeline :=
  (List.range (t.client.resolutions.length + 1)).foldl
    (fun t _ => t.pollResolutions.pollAttempts) t

def dueTimes (t : Timeline) : List Nat :=
  t.client.cache.attempts.filterMap fun x =>
    match x.phase with
    | .fetching => (t.fetches.lookup x.call).map (·.due)
    | _ => none

def nextTime? (t : Timeline) (others : List Nat) : Option Nat :=
  ((t.dueTimes ++ others).filter (t.now < ·)).min?

def elapseTo (target : Nat) : Nat → Timeline → Timeline
  | 0, t => { t with now := target }
  | fuel + 1, t =>
    if t.now < target then
      let t := t.pollAttempts
      match t.nextTime? [target] with
      | some next => elapseTo target fuel { t with now := next }
      | none => { t with now := target }
    else t

/-- Every fetch that is over starts at most one more. -/
def elapse (t : Timeline) (target : Nat) : Timeline :=
  elapseTo target (t.client.cache.attempts.length + 2) t

def allAnswered (t : Timeline) (rs : List ResolutionId) : Bool :=
  rs.all fun r => (t.client.outcome? r).isSome

def cancelAll (t : Timeline) (rs : List ResolutionId) : Timeline :=
  { t with client := rs.foldl Client.cancel t.client }

/-- Goes on until all resolutions are answered. Fetches that end at the time of the
cancellation end before it. -/
def await (rs : List ResolutionId) (cancellation : Option Nat) : Nat → Timeline → Timeline
  | 0, t => t
  | fuel + 1, t =>
    if t.allAnswered rs then t
    else
      let t := t.pollAttempts
      let t := if cancellation.any (· ≤ t.now) then t.cancelAll rs else t
      let t := t.settle
      if t.allAnswered rs then t
      else
        match t.nextTime? cancellation.toList with
        | some next => await rs cancellation fuel { t with now := next }
        | none => t

def resolve (t : Timeline) (i : SessionId) (count : Nat) (cancellation : Cancellation) :
    List (Except Error AdapterId) × Timeline :=
  let rs := (List.range count).map (· + t.client.resolutions.length)
  let begun := { t with client :=
    (List.range count).foldl (fun c _ => c.resolve i cancellation.isAlready) t.client }
  let fuel := begun.client.cache.attempts.length + begun.client.resolutions.length + 2
  let ended := await rs cancellation.time? fuel begun
  (rs.filterMap ended.client.outcome?, ended)

def adapter (t : Timeline) (i : SessionId) (cancellation : Cancellation) :
    Except Error Adapter × Timeline :=
  let (outcomes, t) := t.resolve i 1 cancellation
  match outcomes.head?, t.client.sessions[i]? with
  | some (.ok n), some s =>
    match s.adapters[n]? with
    | some a => (.ok a, t)
    | none => (.error .cancelled, t)
  | some (.error err), _ => (.error err, t)
  | _, _ => (.error .cancelled, t)

def compile (t : Timeline) (i : SessionId) (command : Command) (cancellation : Cancellation) :
    Except Error CompiledRequest × Timeline :=
  let (a, t) := t.adapter i cancellation
  (a.bind fun a => a.compile command, t)

/-- A request sent for a caller, and what comes of it. A reply at the time of the
cancellation comes before it. -/
def exchange (t : Timeline) (timeout : Option Nat) (request : HttpRequest)
    (cancellation : Cancellation) : Except Error Response × Timeline :=
  if cancellation.isAlready then (.error .cancelled, t)
  else
    let (x, t) := t.send timeout request
    match cancellation.time? with
    | some time =>
      if time < x.due then (.error .cancelled, t.elapse time) else (x.outcome, t.elapse x.due)
    | none => (x.outcome, t.elapse x.due)

def execute (t : Timeline) (i : SessionId) (command : Command) (cancellation : Cancellation) :
    Except Error Response × Timeline :=
  let (a, t) := t.adapter i cancellation
  match a, t.client.sessions[i]? with
  | .error err, _ => (.error err, t)
  | .ok _, none => (.error .cancelled, t)
  | .ok a, some s =>
    let prepared : Except Error (Option Nat × HttpRequest) := do
      let request ← (a.compile command).bind fun r => s.request a r
      return (← s.connection, request)
    match prepared with
    | .error err => (.error err, t)
    | .ok (timeout, request) => t.exchange timeout request cancellation

def fetchMetadata (t : Timeline) (s : Session) (cancellation : Cancellation) :
    Except Error MetadataDocument × Timeline :=
  match s.connection with
  | .error err => (.error err, t)
  | .ok timeout =>
    let (r, t) := t.exchange timeout s.metadataRequest cancellation
    (r.map Session.documentOf, t)

end Timeline

end ODataClient
