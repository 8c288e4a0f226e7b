import Mailstrix.Impl.Milter.Verdict

/-!
# The milter

`strix-milter/main.go`: the callbacks of one connection.  The message is put together again from its headers and its
body, posted at its end, and stamped with what the answer says.  The log, and the subject that only the log shows, are
left out.
-/

namespace MS.Milter

open Framework
open Scan (ascii trimSpace)

def headerPrefix : Bytes := ascii "X-Mailstrix-"
def hdrStatus : Bytes := ascii "X-Mailstrix-Status"
def hdrRules : Bytes := ascii "X-Mailstrix-Rules"
def hdrFamily : Bytes := ascii "X-Mailstrix-Family"
def hdrInfo : Bytes := ascii "X-Mailstrix-Info"
def hdrVersionKey : Bytes := ascii "X-Mailstrix-Version"

inductive Status
  | clean
  | infected
  | unknown
deriving DecidableEq

def Status.text : Status → Bytes
  | .clean => ascii "clean"
  | .infected => ascii "infected"
  | .unknown => ascii "unknown"

def maxHeaderValueLen : Nat := 400

def maxRuleHeaderLen : Nat := maxHeaderValueLen - 32

structure Config where
  maxBody : Nat
  version : Bytes

/-! ## Header values -/

def sanitizeHeaderValue (v : Bytes) : Bytes :=
  let v := (trimSpace ((runes v).map fun r => if r < 0x20 ∨ 0x7e < r then 0x3f else r)).map UInt8.ofNat
  if maxHeaderValueLen < v.length then v.take (maxHeaderValueLen - 3) ++ ascii "..." else v

/-- The loop of `joinRules`, behind the names already written. -/
def joinLoop : Bytes → List Bytes → Bytes
  | written, [] => written
  | written, rule :: rest =>
    let r := sanitizeHeaderValue rule
    if r = [] then joinLoop written rest
    else if maxRuleHeaderLen < written.length + (r.length + if written = [] then 0 else 2) then
      -- at least one name is written
      (if written = [] then r.take maxRuleHeaderLen else written) ++
        ascii " (+" ++ numeral 10 (rest.length + 1) ++ ascii " more)"
    else joinLoop (written ++ (if written = [] then [] else ascii ", ") ++ r) rest

def joinRules (rules : List Bytes) : Bytes := joinLoop [] rules

/-! ## The message -/

structure State where
  msg : Bytes := []
  inBody : Bool := false
  oversize : Bool := false
  forged : List (Bytes × Nat) := []
deriving DecidableEq

/-- `reset`, and a new connection. -/
def State.fresh : State := {}

def appendMsg (cfg : Config) (s : State) (b : Bytes) : State :=
  if s.oversize then s
  else if cfg.maxBody < s.msg.length + b.length then { s with oversize := true, msg := [] }
  else { s with msg := s.msg ++ b }

/-- `strings.ToLower`. -/
def toLower (env : Env) (b : Bytes) : Bytes := encodeRunes ((runes b).map env.lower)

@[irreducible] def isForged (env : Env) (name : Bytes) : Bool := (toLower env headerPrefix).isPrefixOf (toLower env name)

def countForged (name : Bytes) : List (Bytes × Nat) → List (Bytes × Nat)
  | [] => [(name, 1)]
  | (k, n) :: rest => if k = name then (k, n + 1) :: rest else (k, n) :: countForged name rest

def headerLine (name value : Bytes) : Bytes := name ++ ascii ": " ++ value ++ ascii "\r\n"

def header (env : Env) (cfg : Config) (s : State) (name value : Bytes) : State :=
  if isForged env name then { s with forged := countForged (env.canonical name) s.forged }
  else appendMsg cfg s (headerLine name value)

/-- The blank line, once. -/
def separate (cfg : Config) (s : State) : State :=
  if s.inBody then s else { appendMsg cfg s (ascii "\r\n") with inBody := true }

def headers (cfg : Config) (s : State) : State := separate cfg s

def bodyChunk (cfg : Config) (s : State) (chunk : Bytes) : State := appendMsg cfg (separate cfg s) chunk

/-! ## The end of a message -/

structure Classified where
  status : Status
  rules : List Bytes := []
  family : Bytes := []
  info : Bytes := []

/-- `classify` with what becomes of the post, if there is one: what was posted, and the four header values. -/
def classify (env : Env) (cfg : Config) (s : State) (x : Exchange) : Option Bytes × Classified :=
  if s.oversize then
    (none, { status := .unknown,
             info := ascii "message exceeds max-body=" ++ numeral 10 cfg.maxBody ++ ascii " bytes; not scanned" })
  else if s.msg = [] then (none, { status := .unknown, info := ascii "empty message" })
  else
    (some s.msg,
      match scan env x with
      | (_, some (.degraded reason)) =>
        { status := .unknown, info := ascii "no complete verdict: " ++ sanitizeHeaderValue reason }
      | (_, some (.other text)) =>
        { status := .unknown, info := ascii "scanner unavailable: " ++ sanitizeHeaderValue text }
      | (ms, none) =>
        let v := verdictFor (actionable ms)
        if v.malicious then { status := .infected, rules := v.rules, family := v.family } else { status := .clean })

inductive Answer
  | continue
  | accept
deriving DecidableEq

/-- What the end of a message does: the headers it deletes, the message it posts, the headers it adds, its answer. -/
structure Outcome where
  strips : List (Nat × Bytes)
  posted : Option Bytes
  stamps : List (Bytes × Bytes)
  answer : Answer

def body (env : Env) (cfg : Config) (s : State) (x : Exchange) : State × Outcome :=
  let c := (classify env cfg s x).2
  (.fresh,
    { -- from the last of each name down to the first
      strips := s.forged.flatMap fun f => ((List.range f.2).reverse.map fun i => (i + 1, f.1))
      posted := (classify env cfg s x).1
      stamps := ([(hdrStatus, c.status.text)] ++
        (if c.rules = [] then [] else [(hdrRules, joinRules c.rules)]) ++
        (if c.family = [] then [] else [(hdrFamily, c.family)]) ++
        (if c.info = [] then [] else [(hdrInfo, c.info)]) ++
        [(hdrVersionKey, cfg.version)]).map fun h => (h.1, sanitizeHeaderValue h.2)
      answer := .accept })

def abort : State := .fresh

/-! ## Sessions -/

inductive Event
  | header (name value : Bytes)
  | headers
  | bodyChunk (chunk : Bytes)
  | body (x : Exchange)
  | abort

/-- One callback: the state behind it, and what it did if it ended a message. -/
def step (env : Env) (cfg : Config) (s : State) : Event → State × Option Outcome
  | .header name value => (header env cfg s name value, none)
  | .headers => (headers cfg s, none)
  | .bodyChunk chunk => (bodyChunk cfg s chunk, none)
  | .body x => ((body env cfg s x).1, some (body env cfg s x).2)
  | .abort => (abort, none)

/-- The state behind some callbacks. -/
def after (env : Env) (cfg : Config) (s : State) (events : List Event) : State :=
  events.foldl (fun s e => (step env cfg s e).1) s

/-- A message as it is handed over, up to its end. -/
structure Mail where
  headers : List (Bytes × Bytes)
  endOfHeaders : Bool
  chunks : List Bytes

def Mail.events (m : Mail) : List Event :=
  m.headers.map (fun h => .header h.1 h.2) ++ (if m.endOfHeaders then [.headers] else []) ++
    m.chunks.map .bodyChunk

/-- A message that was ended, by its last callback or by an abort. -/
structure Message where
  mail : Mail
  ended : Option Exchange

def Message.events (m : Message) : List Event :=
  m.mail.events ++ [match m.ended with
    | some x => .body x
    | none => .abort]

end MS.Milter
