import Mailstrix.Framework.Reader

/-!
# INSTREAM bodies

`clamd.go`: the reader of length-prefixed chunks behind an INSTREAM command.
-/

namespace MS.Clamd

open Framework

def clamdChunkLimit : Nat := 2 ^ 20

/-- `binary.BigEndian.Uint32`. -/
def bigEndianUint32 (header : Bytes) : Nat := header.foldl (fun n c => 256 * n + c.toNat) 0

inductive Failure
  | reply (text : String)
  /-- A slice beyond the capacity. -/
  | panic
deriving DecidableEq

structure StreamRead where
  body : Except Failure Bytes
  reader : Reader
  /-- The capacities of the buffers made for the body, the last one first. -/
  held : List Int

/-- The buffers behind a chunk that takes the body to `stop` bytes.  A nil slice has no capacity, and twice a capacity
is an `int64`. -/
def grow (limit : Int64) (held : List Int) (stop : Nat) : List Int :=
  if held.headD 0 < stop then
    min limit.toInt (max (max (stop : Int) 4096) ((held.headD 0 * 2).bmod (2 ^ 64))) :: held
  else held

/-- The loop of `readClamdStream`.  The room `limit - len(body)` does not overflow: the body is within the limit, or
empty. -/
def streamLoop (limit : Int64) (r : Reader) (body : Bytes) (held : List Int) : StreamRead :=
  match r.readFull 4 [] with
  | (.error _, r) => ⟨.error (.reply "stream: truncated stream ERROR"), r, held⟩
  | (.ok header, r) =>
    let n := bigEndianUint32 header
    if _ : n = 0 then ⟨.ok body, r, held⟩
    else if _ : limit.toInt - body.length < n then ⟨.error (.reply "INSTREAM size limit exceeded. ERROR"), r, held⟩
    else if clamdChunkLimit < n then ⟨.error (.reply "stream: chunk size limit exceeded ERROR"), r, held⟩
    else
      let stop := body.length + n
      let held := grow limit held stop
      if held.headD 0 < stop then ⟨.error .panic, r, held⟩
      else
        match _ : r.readFull n [] with
        | (.error _, r) => ⟨.error (.reply "stream: truncated stream ERROR"), r, held⟩
        | (.ok data, r) => streamLoop limit r (body ++ data) held
termination_by (limit.toInt - body.length).toNat
decreasing_by
  have := (Reader.readFull_ok ‹_›).2
  rw [List.length_append]
  omega

def readClamdStream (r : Reader) (limit : Int64) : StreamRead := streamLoop limit r [] []

end MS.Clamd
