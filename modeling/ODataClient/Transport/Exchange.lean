import ODataClient.Json.Basic
import ODataClient.Request.Address

/-! Requests to a service and their responses. -/

namespace ODataClient

structure HttpRequest where
  method : HttpMethod
  uri : String
  headers : List (String × String)
  body : Option Json

structure Response where
  status : Nat
  headers : List (String × String)
  body : String
  deriving DecidableEq

def Response.isSuccess (r : Response) : Bool := 200 ≤ r.status && r.status < 300

structure Reply where
  delay : Nat
  outcome : Except Error Response

def Reply.missing : Reply := ⟨0, .error (.transport (.failed "no scripted response"))⟩

structure Exchange where
  due : Nat
  outcome : Except Error Response

def checkedResponse (request : HttpRequest) (r : Response) : Except Error Response :=
  if r.isSuccess then .ok r
  else .error (.transport (.status request.method.text request.uri r.status))

def Exchange.begin (now : Nat) (timeout : Option Nat) (request : HttpRequest) (reply : Reply) :
    Exchange :=
  match timeout with
  | some limit =>
    if limit < reply.delay then ⟨now + limit, .error (.timeout limit)⟩
    else ⟨now + reply.delay, reply.outcome.bind (checkedResponse request)⟩
  | none => ⟨now + reply.delay, reply.outcome.bind (checkedResponse request)⟩

end ODataClient
