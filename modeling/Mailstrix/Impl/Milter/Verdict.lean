import Mailstrix.Impl.Scan.Meta

/-!
# Scan verdicts for the clients

`verdict.go`, `client.go`: which matches a client acts on, the verdict it reports, and what it makes of the answer to
a posted message.  The JSON decoder and the texts of foreign errors come from outside.
-/

namespace MS.Milter

open Framework
open Scan (ascii trimSpace)

structure Match where
  rule : Bytes
  metadata : List (Bytes × Bytes)
deriving DecidableEq

/-- A key of a string map, empty if it is not there. -/
def Match.metaAt (m : Match) (key : Bytes) : Bytes := (m.metadata.lookup key).getD []

/-- The matches are absent in an envelope without them, or with `null` in their place. -/
structure Response where
  «matches» : Option (List Match)
  degraded : Bytes
deriving DecidableEq

def isLogOnly (m : Match) : Bool :=
  m.metaAt (ascii "mailstrix_canary") == [0x31] || m.metaAt (ascii "mailstrix_allow") == [0x31]

def actionable (ms : List Match) : List Match := ms.filter fun m => !isLogOnly m

structure Verdict where
  malicious : Bool
  family : Bytes
  rules : List Bytes
deriving DecidableEq

def familyMetaKeys : List Bytes := [ascii "family", ascii "malware_family", ascii "actor"]

def trimText (b : Bytes) : Bytes := encodeRunes (trimSpace (runes b))

/-- The first key with a value that is not blank. -/
def familyOf (m : Match) : Bytes :=
  ((familyMetaKeys.map fun k => trimText (m.metaAt k)).find? (· ≠ [])).getD []

/-- `For`. -/
def verdictFor (ms : List Match) : Verdict where
  malicious := ms ≠ []
  family := ((ms.map familyOf).find? (· ≠ [])).getD []
  rules := ms.map Match.rule

/-! ## The client -/

def maxResponseBody : Nat := 4 * 2 ^ 20

/-- What becomes of a posted message: no answer, or an answer whose body may break off. -/
inductive Exchange
  | failed (err : Bytes)
  | answered (status : Nat) (body : Bytes) (broken : Option Bytes)

inductive ScanError
  | degraded (reason : Bytes)
  | other (text : Bytes)

/-- What comes from outside: `json.Unmarshal` of a response, `unicode.ToLower`, `textproto.CanonicalMIMEHeaderKey`. -/
structure Env where
  decode : Bytes → Except Bytes Response
  lower : Nat → Nat
  canonical : Bytes → Bytes

/-- `Client.Scan` behind the request: the matches and the error. -/
def scan (env : Env) : Exchange → List Match × Option ScanError
  | .failed err => ([], some (.other err))
  | .answered status body broken =>
    if status ≠ 200 then
      ([], some (.other (ascii "status " ++ numeral 10 status ++ ascii ": " ++ trimText (body.take 256))))
    else if maxResponseBody < body.length then
      ([], some (.other (ascii "response exceeds " ++ numeral 10 maxResponseBody ++ ascii " bytes")))
    else
      match broken with
      | some err => ([], some (.other (ascii "read response: " ++ err)))
      | none =>
        match env.decode body with
        | .error err => ([], some (.other (ascii "decode response: " ++ err)))
        | .ok out =>
          match out.matches with
          | none => ([], some (.other (ascii "decode response: missing or null matches")))
          | some ms =>
            if out.degraded ≠ [] ∧ actionable ms = [] then (ms, some (.degraded out.degraded)) else (ms, none)

end MS.Milter
