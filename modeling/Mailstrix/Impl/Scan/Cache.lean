import Mailstrix.Framework.Run
import Mailstrix.Framework.Table
import Mailstrix.Impl.Scan.Scanner

/-!
# The verdict cache

`cache.go`: the recency list of one process, bounded by a number of entries and by the bytes they
retain, and the Redis layer behind it, whose values carry a MAC.

List elements are addresses into a heap, as `list.Element` pointers are.  Byte counts are `uint64`
values, so that every addition and multiplication says what it does at the upper end.
-/

namespace MS.Cache

open Framework Scan

/-! ## What an entry retains -/

/-- A Go slice: its array up to the capacity, and how much of it is in use. -/
structure Slice (α : Type) where
  backing : List α := []
  len : Nat := backing.length
  isNil : Bool := false

def Slice.cap {α : Type} (s : Slice α) : Nat := s.backing.length

/-- `Match` as the cache holds it: `Tags` with its spare capacity, `Meta` possibly nil. -/
structure RetainedMatch where
  rule : Bytes
  ns : Bytes := []
  tags : Slice Bytes := {}
  info : Option (List (Bytes × Bytes)) := none

/-- `unsafe.Sizeof` of the types that the accounting names. -/
structure Layout where
  entry : Nat := 72
  element : Nat := 40
  string : Nat := 16
  pointer : Nat := 8
  matched : Nat := 64
  int : Nat := 8

namespace Layout

variable (L : Layout)

def entryFixedBytes : Nat := L.entry + L.element + L.string + L.pointer
def matchBytes : Nat := L.matched
def stringSlotBytes : Nat := L.string
def metaHeaderBytes : Nat := 8 + L.int + 4 * L.pointer
def metaBucketBytes : Nat := 8 + 16 * L.string + L.pointer

end Layout

/-- `^uint64(0)`. -/
def maxUint64 : Nat := 2 ^ 64 - 1

def saturatingAdd (a b : Nat) : Nat := if maxUint64 - a < b then maxUint64 else a + b

def saturatingMul (a b : Nat) : Nat := if a ≠ 0 ∧ b > maxUint64 / a then maxUint64 else a * b

/-- The buckets for a map of `n` pairs, doubled until they suffice; none if the count overflows, which
happens before the 64 rounds are used up. -/
def metaBuckets (n : Nat) : Nat → Nat → Option Nat
  | 0, _ => none
  | fuel + 1, buckets =>
    if n > saturatingMul buckets 13 / 2 then
      if buckets > maxUint64 / 2 then none else metaBuckets n fuel (buckets * 2)
    else some buckets

section Sizes

variable (L : Layout)

/-- Count the buckets of a map of `n` pairs. -/
def addBuckets (total n : Nat) : Option Nat :=
  if n > 0 then (metaBuckets n 64 1).map fun b => saturatingAdd total (saturatingMul b L.metaBucketBytes)
  else some total

/-- Count one match; none is the early return of the largest count. -/
def addMatch (total : Nat) (m : RetainedMatch) : Option Nat := do
  let total := saturatingAdd total m.rule.length
  let total := saturatingAdd total m.ns.length
  let total := saturatingAdd total (saturatingMul m.tags.cap L.stringSlotBytes)
  let total := m.tags.backing.foldl (fun t tag => saturatingAdd t tag.length) total
  match m.info with
  | none => pure total
  | some info =>
    let total := saturatingAdd total L.metaHeaderBytes
    let total ← addBuckets L total info.length
    pure (info.foldl (fun t kv => saturatingAdd (saturatingAdd t kv.1.length) kv.2.length) total)

def cacheEntryRetainedBytes (key : Bytes) (ms : Slice RetainedMatch) : Nat :=
  let total := saturatingAdd L.entryFixedBytes key.length
  let total := saturatingAdd total (saturatingMul ms.cap L.matchBytes)
  (ms.backing.foldlM (addMatch L) total).getD maxUint64

end Sizes

/-! ## The recency list -/

structure Entry where
  key : Bytes := []
  hits : Slice RetainedMatch := {}
  expires : Int := 0
  size : Nat := 0

/-- A pair of the index map. -/
structure Indexed where
  key : Bytes
  el : Nat

structure LruCache where
  ttl : Int
  max : Nat
  maxBytes : Nat
  bytes : Nat := 0
  /-- The values of the list elements that were ever allocated, and the next address. -/
  heap : Nat → Entry := fun _ => {}
  next : Nat := 0
  /-- The elements in the list, front first. -/
  ll : List Nat := []
  items : Table Indexed.key := ∅
  evictions : UInt64 := 0
  byteEvictions : UInt64 := 0
  countEvictions : UInt64 := 0
  oversized : UInt64 := 0

/-- The settings that `NewCache` reads; `CacheMaxBytes` is an `int64`. -/
structure CacheConfig where
  cacheTTL : Int
  cacheSize : Int
  cacheMaxBytes : Int
  int64 : cacheMaxBytes < 2 ^ 63

def defaultCacheMaxBytes : Nat := 256 * 1024 * 1024

/-- The cache of a process without Redis; none is the cache that never hits. -/
def newCache (cfg : CacheConfig) : Option LruCache :=
  if cfg.cacheTTL ≤ 0 then none
  else some
    { ttl := cfg.cacheTTL
      max := if cfg.cacheSize < 1 then 65536 else cfg.cacheSize.toNat
      maxBytes := if cfg.cacheMaxBytes < 1 then defaultCacheMaxBytes else cfg.cacheMaxBytes.toNat }

namespace LruCache

/-- What both size updates do when an entry goes. -/
def debit (bytes size : Nat) : Nat := if size > bytes then 0 else bytes - size

/-- `ll.MoveToFront`. -/
def moveToFront (ll : List Nat) (el : Nat) : List Nat := el :: ll.filter fun p => p ≠ el

def removeElement (c : LruCache) : Option Nat → LruCache
  | none => c
  | some el =>
    { c with
      ll := c.ll.filter fun p => p ≠ el
      items := c.items.erase (c.heap el).key
      bytes := debit c.bytes (c.heap el).size }

def recordEviction (c : LruCache) (byteCause : Bool) : LruCache :=
  { c with
    evictions := c.evictions + 1
    byteEvictions := if byteCause then c.byteEvictions + 1 else c.byteEvictions
    countEvictions := if byteCause then c.countEvictions else c.countEvictions + 1 }

/-- `Get` without a Redis layer. -/
def get (c : LruCache) (key : Bytes) (now : Int) : LruCache × Option (Slice RetainedMatch) :=
  match c.items.get? key with
  | none => (c, none)
  | some i =>
    if now < (c.heap i.el).expires then ({ c with ll := moveToFront c.ll i.el }, some (c.heap i.el).hits)
    else (c.removeElement (some i.el), none)

/-- The loop at the end of `putLocal`, for at most `fuel` rounds. -/
def evict : Nat → LruCache → Option LruCache
  | 0, _ => none
  | fuel + 1, c =>
    if c.bytes > c.maxBytes ∨ c.ll.length > c.max then
      evict fuel ((c.removeElement c.ll.getLast?).recordEviction (c.bytes > c.maxBytes))
    else some c

/-- A value for a key that has an element already. -/
def replace (c : LruCache) (el : Nat) (hits : Slice RetainedMatch) (size : Nat) (now : Int) : LruCache :=
  { c with
    heap := Function.update c.heap el { c.heap el with hits := hits, expires := now + c.ttl, size := size }
    bytes := saturatingAdd (debit c.bytes (c.heap el).size) size
    ll := moveToFront c.ll el }

/-- A value for a new key: `ll.PushFront`. -/
def pushFront (c : LruCache) (key : Bytes) (hits : Slice RetainedMatch) (size : Nat) (now : Int) : LruCache :=
  { c with
    heap := Function.update c.heap c.next { key := key, hits := hits, expires := now + c.ttl, size := size }
    next := c.next + 1
    ll := c.next :: c.ll
    items := c.items.put ⟨key, c.next⟩
    bytes := saturatingAdd c.bytes size }

/-- An entry that exceeds the budget by itself: the old value of the key goes, nothing else. -/
def refuse (c : LruCache) (key : Bytes) : LruCache :=
  let c := { c with oversized := c.oversized + 1 }
  match c.items.get? key with
  | none => c
  | some i => (c.removeElement (some i.el)).recordEviction true

def putLocal (L : Layout) (fuel : Nat) (c : LruCache) (key : Bytes) (hits : Slice RetainedMatch) (now : Int) :
    Option LruCache :=
  let size := cacheEntryRetainedBytes L key hits
  if size > c.maxBytes then some (c.refuse key)
  else match c.items.get? key with
    | some i => evict fuel (c.replace i.el hits size now)
    | none => evict fuel (c.pushFront key hits size now)

def flush (c : LruCache) : LruCache := { c with ll := [], items := ∅, bytes := 0 }

end LruCache

/-- A call, with the clock it reads and what it returns. -/
inductive CacheCall
  | get (key : Bytes) (now : Int) (result : Option (Slice RetainedMatch))
  | put (key : Bytes) (hits : Slice RetainedMatch) (now : Int)
  | flush

/-- The calls on one cache, one after the other: each holds the lock throughout. -/
def cacheSystem (L : Layout) (cfg : CacheConfig) : System LruCache CacheCall where
  init c := newCache cfg = some c
  step c call c' :=
    match call with
    | .get key now result => c.get key now = (c', result)
    | .put key hits now => ∃ fuel, c.putLocal L fuel key hits now = some c'
    | .flush => c' = c.flush

/-! ## The Redis layer -/

/-- HMAC-SHA256, as a function of key and message. -/
structure Hmac where
  sum : Bytes → Bytes → Bytes
  length : ∀ k m, (sum k m).length = 32

/-- `encoding/json` on match lists: what it writes and what it reads holds no raw NUL. -/
structure Json where
  marshal : Slice RetainedMatch → Option Bytes
  unmarshal : Bytes → Option (Slice RetainedMatch)
  marshal_nul : ∀ {m b}, marshal m = some b → 0 ∉ b
  unmarshal_nul : ∀ {m b}, unmarshal b = some m → 0 ∉ b

structure RedisBreaker where
  fails : Nat := 0
  openUntil : Int := 0

def breakerTrip : Nat := 5

def breakerCooldown : Int := 5 * second

namespace RedisBreaker

def allow (b : RedisBreaker) (now : Int) : Bool := !(now < b.openUntil)

def ok (_ : RedisBreaker) : RedisBreaker := {}

def fail (b : RedisBreaker) (now : Int) : RedisBreaker :=
  if b.fails + 1 ≥ breakerTrip then { fails := 0, openUntil := now + breakerCooldown }
  else { b with fails := b.fails + 1 }

end RedisBreaker

structure RedisLayer where
  redisPrefix : Bytes
  macKey : Bytes
  br : RedisBreaker := {}
  warned : Bool := false

def macVersion : UInt8 := 0x01

def macLen : Nat := 32

section Redis

variable (M : Hmac) (J : Json)

/-- What the tag of a value covers: the prefixed key, a NUL and the value. -/
def redisMessage (redisKey value : Bytes) : Bytes := redisKey ++ 0 :: value

def redisMAC (key redisKey value : Bytes) : Bytes := M.sum key (redisMessage redisKey value)

def sealRedisValue (key redisKey value : Bytes) : Bytes :=
  if key.length = 0 then value else macVersion :: (redisMAC M key redisKey value ++ value)

def openRedisValue (key redisKey framed : Bytes) : Option Bytes :=
  if key.length = 0 then some framed
  else if framed.length ≤ 1 + macLen ∨ framed.head? ≠ some macVersion then none
  else
    let value := framed.drop (1 + macLen)
    if (framed.drop 1).take macLen ≠ redisMAC M key redisKey value then none else some value

/-- How Redis answers a `GET`. -/
inductive RedisReply
  | value (b : Bytes)
  | missing
  | failed

namespace RedisLayer

/-- `redisLayer.get`, with the clock at the start and at the reply. -/
def get (r : RedisLayer) (now later : Int) (reply : RedisReply) (key : Bytes) :
    RedisLayer × Option (Slice RetainedMatch) :=
  if !r.br.allow now then (r, none)
  else
    let rk := r.redisPrefix ++ key
    match reply with
    | .missing => ({ r with br := r.br.ok }, none)
    | .failed => ({ r with br := r.br.fail later }, none)
    | .value b =>
      let r := { r with br := r.br.ok }
      match openRedisValue M r.macKey rk b with
      | none => ({ r with warned := true }, none)
      | some b => (r, J.unmarshal b)

/-- What `redisLayer.put` sends: the name and the framed value. -/
def put (r : RedisLayer) (now : Int) (key : Bytes) (hits : Slice RetainedMatch) : Option (Bytes × Bytes) :=
  if !r.br.allow now then none
  else
    let rk := r.redisPrefix ++ key
    (J.marshal hits).map fun b => (rk, sealRedisValue M r.macKey rk b)

end RedisLayer

/-! ### Redis between holders of the key and an adversary -/

/-- What Redis holds, and the messages that holders of the key have tagged. -/
structure Shared where
  store : Bytes → Option Bytes := fun _ => none
  tagged : List Bytes := []

/-- The content under a name as a `GET` returns it. -/
def Shared.reply (s : Shared) (name : Bytes) : RedisReply :=
  match s.store name with
  | none => .missing
  | some b => .value b

inductive SharedEvent
  /-- A holder of the key puts a verdict; whether Redis stores it is open. -/
  | put (r : RedisLayer) (now : Int) (key : Bytes) (hits : Slice RetainedMatch)
  /-- The adversary stores any content under any name, one that was sealed for another included, or deletes it. -/
  | place (name : Bytes) (content : Option Bytes)

/-- The tag of the content under a name is not forged: if it is that of the message which a `GET` of this
name verifies, then a holder has tagged this message. -/
def Shared.Unforged (s : Shared) (key name : Bytes) : Prop :=
  ∀ framed, s.store name = some framed →
    (framed.drop 1).take macLen = redisMAC M key name (framed.drop (1 + macLen)) →
    redisMessage name (framed.drop (1 + macLen)) ∈ s.tagged

inductive SharedStep (key : Bytes) : Shared → SharedEvent → Shared → Prop
  | put {s : Shared} {r : RedisLayer} {now : Int} {k : Bytes} {hits : Slice RetainedMatch} {b : Bytes}
      {store : Bytes → Option Bytes} : r.macKey = key → r.br.allow now = true → J.marshal hits = some b →
      (store = s.store ∨ ∃ sent, r.put M J now k hits = some sent ∧
        store = Function.update s.store sent.1 (some sent.2)) →
      SharedStep key s (.put r now k hits) ⟨store, redisMessage (r.redisPrefix ++ k) b :: s.tagged⟩
  | place {s : Shared} {name : Bytes} {content : Option Bytes} :
      SharedStep key s (.place name content) { s with store := Function.update s.store name content }

def sharedSystem (key : Bytes) : System Shared SharedEvent where
  init s := s = {}
  step := SharedStep M J key

end Redis

end MS.Cache
