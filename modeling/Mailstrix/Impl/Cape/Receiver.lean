import Mailstrix.Framework.Bytes
import Mailstrix.Impl.Cape.Ops

/-!
# The callback receiver

What a callback request passes before its transaction, the status it is answered with, and the
system of receivers over one store.  The keyed hash and the decoder of the signed document are
parameters: nothing here depends on how they compute.
-/

namespace MS.Cape

open Framework

def callbackLimit : Nat := 4096

structure BridgeKey extends CallbackKey where
  secret : Bytes
  tenants : List String
  generations : List String

/-- The keys of a receiver, by their id. -/
structure Receiver where
  keys : Table fun k : BridgeKey => k.id

structure CallbackRequest where
  /-- TLS, `POST`, the fixed path without a query, no content coding, JSON. -/
  wellFormed : Bool
  contentLength : Int
  /-- What the first `callbackLimit + 1` bytes are, `none` when they cannot be read. -/
  body : Option Bytes
  keyID : String
  /-- The seconds of the timestamp header, `none` unless it is their canonical decimal form. -/
  timestamp : Option Int
  eventID : String
  signature : Option Bytes

structure CallbackCodec where
  /-- `callbackMAC`, over the secret, the body, the timestamp and the event id. -/
  mac : Bytes → Bytes → Int → String → Bytes
  /-- The version and the fields of a document that has exactly the seven members. -/
  decode : Bytes → Option (Int × CallbackEvent)

/-- Sixteen bytes in lower-case hexadecimal. -/
def validEventID (v : String) : Bool :=
  decide (v.toList.length = 32) && v.toList.all fun c => c.isDigit || ('a' ≤ c && c ≤ 'f')

def callbackRequestBody (r : CallbackRequest) : Except Nat Bytes := do
  check (r.wellFormed = true) 400
  check (r.contentLength ≤ callbackLimit) 413
  let body ← need r.body 400
  check (body.length ≤ callbackLimit) 413
  return body

def validCallbackSignature (codec : CallbackCodec) (key : BridgeKey) (seconds : Int) (event : String)
    (mac body : Bytes) : Bool :=
  decide (0 < seconds) && decide (seconds < 2 ^ 63) && validEventID event && decide (mac.length = 32) &&
    decide (mac = codec.mac key.secret body seconds event)

def validCallbackEvent (key : BridgeKey) (version : Int) (e : CallbackEvent) (event : String)
    (seconds : Int) : Bool :=
  decide (version = 1) && decide (e.eventID = event) && decide ((e.timestamp : Int) = seconds) &&
    decide (e.tenant ∈ key.tenants) && decide (e.generation ∈ key.generations) &&
    decide (0 < e.taskID) && decide (e.taskID ≤ maxTaskID)

/-- The raw bytes are authenticated before the body is read. -/
def authenticateCallback (codec : CallbackCodec) (h : Receiver) (r : CallbackRequest) (body : Bytes) :
    Except Nat (BridgeKey × CallbackEvent) := do
  let key ← need (h.keys.get? r.keyID) 401
  let seconds ← need r.timestamp 401
  let mac ← need r.signature 401
  check (validCallbackSignature codec key seconds r.eventID mac body = true) 401
  let (version, e) ← need (codec.decode body) 401
  check (validCallbackEvent key version e r.eventID seconds = true) 401
  return (key, e)

/-- What `receive` does ahead of the store: the signed event, or the status of a refusal. -/
def callbackMessage (codec : CallbackCodec) (h : Receiver) (r : CallbackRequest) :
    Except Nat (BridgeKey × CallbackEvent) := do
  check (h.keys.rows ≠ []) 404
  let body ← callbackRequestBody r
  authenticateCallback codec h r body

def callbackStatus : Err → Nat
  | .conflict => 409
  | .quota => 429
  | .clock | .storeUnavailable => 503
  | _ => 401

/-- The status of a request, with what its transaction committed. -/
def receive {α : Type} (codec : CallbackCodec) (h : Receiver) (closed : Bool) (r : CallbackRequest)
    (tx : CallbackKey → CallbackEvent → Except Err α) : Nat × Option α :=
  match callbackMessage codec h r with
  | .error status => (status, none)
  | .ok (key, e) =>
    if closed then (503, none)
    else match tx key.toCallbackKey e with
      | .ok a => (202, some a)
      | .error err => (callbackStatus err, none)

/-! ## Receivers over one store -/

inductive ReceiverEvent
  /-- A request to some receiver, with the clock readings of its transaction and its status. -/
  | request (h : Receiver) (r : CallbackRequest) (env : Env) (status : Nat)
  /-- A request whose transaction committed while `Commit` reported an error: it is answered with
  503. -/
  | unreported (h : Receiver) (r : CallbackRequest) (env : Env)
  /-- Anything else the store does, restarts included. -/
  | store (e : StoreEvent)

/-- Requests to receivers that come and go with any keys, between the other steps of the store. -/
def receiverSystem (cfg : StoreConfig) (codec : CallbackCodec) : System Store ReceiverEvent where
  init s := s = {}
  step s e s' :=
    match e with
    | .request h r env status => ∃ closed o,
      receive codec h closed r (fun key e => exec cfg env (.callback key e) s) = (status, o) ∧
        s' = (o.map Prod.fst).getD s
    | .unreported h r env => ∃ closed ret,
      receive codec h closed r (fun key e => exec cfg env (.callback key e) s) = (202, some (s', ret))
    | .store e => (∀ key ev, e.op? ≠ some (.callback key ev)) ∧ (storeSystem cfg).step s e s'

end MS.Cape
