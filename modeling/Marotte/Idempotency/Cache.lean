import Marotte.Library.Keyed
import Marotte.Library.Along
import Mathlib.Logic.Function.Basic

/-! # The idempotency cache

A slot of the cache marks a request that is running under its key, or holds the response of one
that returned. The response is kept as the client took it.
-/
namespace Marotte.Idempotency

structure Request where
  method : String
  path : String
  key : String
  deriving DecidableEq, Repr

def idempotentMethod (method : String) : Bool :=
  method = "POST" || method = "PUT" || method = "PATCH" || method = "DELETE"

def maxIdempotencyKeyBytes : ℕ := 256

/-- A key is not empty, within its bound, and holds no control character. -/
def validIdempotencyKey (key : String) : Bool :=
  key ≠ "" && key.utf8ByteSize ≤ maxIdempotencyKeyBytes &&
    key.toList.all (fun c => 0x20 ≤ c.toNat && c.toNat ≠ 0x7f)

def idempotencyCompositeKey (req : Request) : String :=
  req.method ++ "\x00" ++ req.path ++ "\x00" ++ req.key

/-- Whether a request goes through the cache. -/
def Request.deduped (req : Request) : Bool :=
  idempotentMethod req.method && validIdempotencyKey req.key

/-! ## Handlers -/

/-- A write: its bytes, and how many of them the client took. -/
structure Chunk where
  bytes : List UInt8
  taken : ℕ
  le : taken ≤ bytes.length
  deriving DecidableEq

/-- What a handler does to its response. -/
inductive Act where
  | setType (ct : String)
  | header (code : ℕ)
  | write (c : Chunk)
  deriving DecidableEq

/-- The capturing writer: what it keeps of the body, unless that grew over the limit. -/
structure Writer where
  buf : List UInt8 := []
  overflow : Bool := false
  deriving DecidableEq

def Writer.write (limit : ℕ) (cw : Writer) (c : Chunk) : Writer :=
  if cw.overflow then cw
  else if limit < cw.buf.length + c.taken then { buf := [], overflow := true }
  else { cw with buf := cw.buf ++ c.bytes.take c.taken }

def Writer.act (limit : ℕ) (cw : Writer) : Act → Writer
  | .write c => cw.write limit c
  | _ => cw

/-- The bytes a handler wrote. -/
def written (acts : List Act) : List UInt8 :=
  acts.flatMap fun
    | .write c => c.bytes
    | _ => []

/-- The bytes of them that the client took. -/
def taken (acts : List Act) : List UInt8 :=
  acts.flatMap fun
    | .write c => c.bytes.take c.taken
    | _ => []

/-- The content type among the response's headers after the acts. -/
def headerType : List Act → String → String
  | [], ct => ct
  | .setType ct :: acts, _ => headerType acts ct
  | _ :: acts, ct => headerType acts ct

/-- The content type the response goes out with: the header's when the first final status or the
first byte was written, or at the return. -/
def sentType : List Act → String → String
  | [], ct => ct
  | .setType ct :: acts, _ => sentType acts ct
  | .header code :: acts, ct => if 200 ≤ code ∨ code = 101 then ct else sentType acts ct
  | .write _ :: _, ct => ct

/-- A request whose handler runs, and what the handler has done. -/
structure Handler where
  req : Request
  acts : List Act := []
  writer : Writer := {}
  deriving DecidableEq

/-! ## Slots -/

/-- A slot of the cache. `owner` is the request that claimed it. -/
structure Slot where
  key : String
  ts : ℕ
  ct : String := ""
  body : List UInt8 := []
  status : ℕ := 0
  inflight : Bool
  owner : ℕ
  deriving DecidableEq

/-- The bounds of a cache, and what lies outside it: the status that the response recorder reports
after a handler's acts, and the order in which a map is ranged over. -/
structure World where
  ttl : ℕ
  maxEntries : ℕ
  maxBody : ℕ
  recorded : List Act → ℕ
  arrange : ℕ → List Slot → List Slot
  perm : ∀ n l, (arrange n l).Perm l

/-- Drops the completed slots that expired. -/
def sweep (w : World) (now : ℕ) (entries : List Slot) : List Slot :=
  entries.filter (fun e => e.inflight || decide (now < e.ts + w.ttl))

/-- The key and the time of the oldest completed slot, as the slots are ranged over. -/
def oldestCompleted (entries : List Slot) : String × ℕ :=
  entries.foldl (fun oldest e =>
    if e.inflight then oldest
    else if oldest.1 = "" ∨ e.ts < oldest.2 then (e.key, e.ts)
    else oldest) ("", 0)

/-- The key that an eviction drops. -/
def evictOldestCompleted (entries : List Slot) : Option String :=
  if (oldestCompleted entries).1 = "" then none else some (oldestCompleted entries).1

/-- What a request finds under its key: a response to replay, a request still running, or a slot
it claimed, with the key that was evicted for it. -/
inductive Begun where
  | replay (e : Slot)
  | busy
  | claimed (entries : List Slot) (victim : Option String)

/-- Marks a key as in flight, evicting the oldest completed slot at the cap. -/
def claim (w : World) (now owner : ℕ) (key : String) (entries : List Slot) : Begun :=
  let victim :=
    if w.maxEntries ≤ entries.length then evictOldestCompleted (w.arrange owner entries) else none
  let left :=
    match victim with
    | some k => Keyed.erase Slot.key entries k
    | none => entries
  .claimed (Keyed.set Slot.key left { key := key, ts := now, inflight := true, owner := owner })
    victim

def begin (w : World) (now owner : ℕ) (key : String) (entries : List Slot) : Begun :=
  match Keyed.find Slot.key entries key with
  | none => claim w now owner key entries
  | some e =>
    if e.inflight then .busy
    else if now < e.ts + w.ttl then .replay e
    else claim w now owner key (Keyed.erase Slot.key entries key)

/-- Clears an in-flight marker; a completed slot stays. -/
def abort (key : String) (entries : List Slot) : List Slot :=
  match Keyed.find Slot.key entries key with
  | none => entries
  | some e => if e.inflight then Keyed.erase Slot.key entries key else entries

/-! ## Runs -/

/-- The start of a handler, with the last answer of its key that nothing evicted. -/
structure Start where
  req : Request
  now : ℕ
  answered : Option ℕ
  deriving DecidableEq

structure Replay where
  req : Request
  slot : Slot
  deriving DecidableEq

/-- An eviction: the slots it chose from, and the key it dropped. -/
structure Eviction where
  entries : List Slot
  key : String
  deriving DecidableEq

/-- The cache with the requests under it. `ended` holds the handlers that returned or panicked,
`answers` the time of a key's last answer below 500 within the body cap, until it is evicted. -/
structure Server where
  entries : List Slot := []
  now : ℕ := 0
  running : ℕ → Option Handler := fun _ => none
  ended : ℕ → Option Handler := fun _ => none
  answers : String → Option ℕ := fun _ => none
  starts : List Start := []
  replays : List Replay := []
  evictions : List Eviction := []

/-- A request arrives, a handler acts, returns or panics, the janitor sweeps, or time passes. `lag`
is how long before the lock the clock was read. -/
inductive Event where
  | arrive (id : ℕ) (req : Request) (lag : ℕ)
  | act (id : ℕ) (a : Act)
  | finish (id : ℕ)
  | panic (id : ℕ)
  | sweep (lag : ℕ)
  | advance (d : ℕ)

namespace Server

variable (w : World) (s : Server)

/-- A request under the cache, as the middleware takes it in. -/
def arrive (id : ℕ) (req : Request) (lag : ℕ) : Server :=
  if (s.running id).isSome ∨ (s.ended id).isSome then s
  else if req.deduped then
    let ck := idempotencyCompositeKey req
    match begin w (s.now - lag) id ck s.entries with
    | .replay e => { s with replays := s.replays ++ [⟨req, e⟩] }
    | .busy => s
    | .claimed entries victim =>
      { s with
        entries := entries
        running := Function.update s.running id (some { req := req })
        starts := s.starts ++ [⟨req, s.now, s.answers ck⟩]
        answers := match victim with
          | some k => Function.update s.answers k none
          | none => s.answers
        evictions := match victim with
          | some k => s.evictions ++ [⟨Keyed.erase Slot.key s.entries ck, k⟩]
          | none => s.evictions }
  else s

def act (id : ℕ) (a : Act) : Server :=
  match s.running id with
  | none => s
  | some h =>
    let h := { h with acts := h.acts ++ [a], writer := h.writer.act w.maxBody a }
    { s with running := Function.update s.running id (some h) }

/-- The handler of a request is done. -/
def leave (id : ℕ) (h : Handler) (entries : List Slot) : Server :=
  { s with
    entries := entries
    running := Function.update s.running id none
    ended := Function.update s.ended id (some h) }

def finish (id : ℕ) : Server :=
  match s.running id with
  | none => s
  | some h =>
    let ck := idempotencyCompositeKey h.req
    if w.recorded h.acts < 500 ∧ h.writer.overflow = false then
      let s' := s.leave id h (Keyed.set Slot.key s.entries
        { key := ck
          ts := s.now
          ct := headerType h.acts ""
          body := h.writer.buf
          status := w.recorded h.acts
          inflight := false
          owner := id })
      if (written h.acts).length ≤ w.maxBody then
        { s' with answers := Function.update s.answers ck (some s.now) }
      else s'
    else s.leave id h (abort ck s.entries)

def panic (id : ℕ) : Server :=
  match s.running id with
  | none => s
  | some h => s.leave id h (abort (idempotencyCompositeKey h.req) s.entries)

def step : Event → Server
  | .arrive id req lag => s.arrive w id req lag
  | .act id a => s.act w id a
  | .finish id => s.finish w id
  | .panic id => s.panic id
  | .sweep lag => { s with entries := sweep w (s.now - lag) s.entries }
  | .advance d => { s with now := s.now + d }

end Server

end Marotte.Idempotency
