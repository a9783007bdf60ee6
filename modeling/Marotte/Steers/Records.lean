import Marotte.Library.Keyed
import Marotte.Steers.Record
import Mathlib.Data.List.Sort

/-! # Routing, removals and jobs

The steps of the command side: a user steer is routed into the channel, a delete or a discard runs
as one op around a clear, and a turn-end job resends what its turn left. The ids that a step mints
are a parameter: `mint w.seq` for a row sent alone, `mint r.nextSeq` for a combined send.
-/
namespace Marotte.Steers
open SteerM

/-- What admission says about a chat when a steer is routed. -/
structure SteerHolder where
  held : Bool
  promptClass : Bool
  live : Bool
  delivering : Bool := false
  deriving DecidableEq

structure SteerOpResult where
  resend : Option SteerSend := none
  reason : String := ""
  deriving DecidableEq

structure SteerRow where
  key : String
  text : String
  inKAS : Bool
  deriving DecidableEq

namespace Refuse

def noTurn : String := "no_turn"
def full : String := "full"
def notWaiting : String := "not_waiting"
def notUser : String := "not_user"
def agentRows : String := "agent_rows_waiting"
def starting : String := "starting"
def settling : String := "settling"
def chatGone : String := "chat_gone"
def noReply : String := "no_reply"
def consumed : String := "consumed"

end Refuse

/-! ## Sends -/

section Sends
variable (mint : ℕ → String)

/-- A fresh id once the key may already be in the log of KAS: one id never names two records. -/
def sendSelf (w : DockRow) : SteerM (DockRow × SteerSend) := do
  if w.sent ∨ w.noted then do
    let w' ← setState { w with kasID := mint w.seq } .queued
    return (w', { id := mint w.seq, text := w.text, keys := [w.key] })
  else do
    let w' ← setState { w with kasID := w.key, sent := true } .queued
    return (w', { id := w.key, text := w.text })

def combine (id : String) (rows : List DockRow) (s : RowState) : SteerM SteerSend := do
  eachRow (fun w => (rows.map DockRow.seq).contains w.seq) fun w =>
    setState { w with kasID := id } s
  return { id, text := joinSteers (rows.map DockRow.text), keys := rows.map DockRow.key }

def probeOf (rows : List DockRow) : SteerM SteerSend := do
  let r ← record
  let id := mint r.nextSeq
  update fun r => { r with probe := id, channel := .probing }
  combine id rows .outstanding

/-- In an open channel the un-owned waiting rows go ahead of the new one. -/
def routeLocked (w : DockRow) : SteerM (List SteerSend) := do
  let r ← record
  match r.channel with
  | .none => forRows (fun o => o.seq = w.seq) (sendSelf mint)
  | .opened => do
    let ahead ← forRows (fun o => o.unownedWaiting ∧ o.seq ≠ w.seq) (sendSelf mint)
    let own ← forRows (fun o => o.seq = w.seq) (sendSelf mint)
    return ahead ++ own
  | .unconfirmed => do
    let send ← probeOf mint [w]
    return [send]
  | .probing => do
    eachRow (fun o => o.seq = w.seq) fun o => setState { o with kasID := "" } .waiting
    return []

def routeRow (w : DockRow) (h : SteerHolder) : SteerM (List SteerSend × String) := do
  let r ← record
  if h.held = false then do
    eachRow (fun o => o.seq = w.seq) fun o => setState { o with owner := "" } .unsent
    return ([], Refuse.noTurn)
  else if h.promptClass ∧ (h.live = false ∨ (h.delivering = false ∧ r.parkedBesides w.seq)) then do
    eachRow (fun o => o.seq = w.seq) fun o => setState o .parked
    return ([], "")
  else if rowRuleFor w.state .steer = .route then do
    let sends ← routeLocked mint w
    return (sends, "")
  else return ([], "")

/-- The row's state is written before the caller sends. -/
def routeSteer (key text : String) (h : SteerHolder) : SteerM (List SteerSend × String) := do
  let r ← record
  match r.row key with
  | some w => routeRow mint w h
  | none =>
    if h.held = false then return ([], Refuse.noTurn)
    else if maxSteerRows ≤ (r.rows.filter DockRow.live).length then return ([], Refuse.full)
    else do
      let w : DockRow := { key, text, seq := r.nextSeq }
      update fun r => { r with rows := r.rows ++ [w], nextSeq := r.nextSeq + 1 }
      emit w.rowFrame
      routeRow mint w h

/-- The waiting rows are sent as themselves in an open channel, or as the owed probe. -/
def planFlush : SteerM (List SteerSend) := do
  let r ← record
  if r.unownedWaiting = [] ∨ channelRule r.channel .jobWake ≠ .flush then return []
  else if r.channel = .opened then forRows DockRow.unownedWaiting (sendSelf mint)
  else if r.probe = "" then do
    let send ← probeOf mint r.unownedWaiting
    return [send]
  else return []

end Sends

/-- A send that answered `queued:false`: only that moves its rows. -/
def refusedLocked (id : String) : SteerM Unit := do
  let r ← record
  eachRow (fun w => w.under id ∧ w.state.inKAS) fun w =>
    if rowRuleFor w.state .refused = .cleared then setState w .cleared else return w
  guarded (channelRule r.channel .refused = .unconfirmed ∧
      ¬ (r.channel = .probing ∧ id ≠ r.probe)) do
    eachRow (fun w => w.live ∧ w.state = .waiting) fun w => setState w .cleared
    update fun r => { r with probe := "", channel := .unconfirmed }

/-- The clear before a reloaded session's first send: a row that it named is parked again. -/
def postLoadCleared (cleared : List String) : SteerM Unit := do
  update fun r => { r with reinject := false }
  eachRow (fun w => w.live ∧ w.owner = "" ∧ cleared.contains w.kasID) fun w =>
    if rowRuleFor w.state .postLoadClear = .park then setState w .parked else return w

/-! ## The delete and the discard -/

def deleteEvent (s : RowState) : SteerEvent :=
  match s with
  | .waiting => .deleteWaiting
  | .queued | .outstanding => .deleteQueued
  | .parked | .cleared | .unsent | .read | .done => .deleteIdle

/-- An op takes every row that it or its clear may reach. -/
def mark (opID target : String) : SteerM Unit := do
  update fun r => { r with op := opID, opTarget := target, opEnd := none, opChannel := r.channel }
  eachRow (fun w => w.live ∧ w.owner = "" ∧ w.state ≠ .parked ∧ w.state ≠ .unsent) fun w =>
    return { w with owner := opID }

/-- A row that KAS cannot hold is deleted at once; one that it may hold asks for a clear. -/
def beginRemove (key opID : String) : SteerM (Bool × String) := do
  let r ← record
  if r.others.any (·.steerID = key) then return (false, Refuse.notUser)
  else
    match r.row key with
    | none => return (false, Refuse.notWaiting)
    | some w =>
      if w.owner ≠ "" ∧ w.state.inKAS then return (false, Refuse.settling)
      else do
        eachRow (fun o => o.seq = w.seq) fun o => return { o with owner := "" }
        match rowRuleFor w.state (deleteEvent w.state) with
        | .deleted => do
          eachRow (fun o => o.seq = w.seq) fun o => retire o o.deletedSteer
          let r ← record
          guarded (channelRule r.channel (deleteEvent w.state) = .owed ∧ r.probe = "" ∧
            r.unownedWaiting = []) (update fun r => { r with channel := .unconfirmed })
          return (false, "")
        | .resubmit =>
          if r.others ≠ [] then return (false, Refuse.agentRows)
          else if r.channel = .none ∧ r.starting ≠ "" then return (false, Refuse.starting)
          else do
            mark opID key
            return (true, "")
        | _ => return (false, "")

/-- A target that the agent read before the clear landed is consumed, not deleted. -/
def keepOwnedLocked (opID : String) (cleared : List String) : SteerM (List DockRow × Bool) := do
  eachRow (fun w => w.state ≠ .done ∧ w.owner = opID ∧ cleared.contains w.kasID) fun w =>
    if rowRuleFor w.state .foreignClear = .cleared then setState w .cleared else return w
  let r ← record
  let out ← forRows (fun w => w.state ≠ .done ∧ w.owner = opID) fun w =>
    if w.key = r.opTarget ∧ w.state = .read then return ({ w with owner := "" }, (none, true))
    else if w.key = r.opTarget then do
      let w' ← retire w w.deletedSteer
      return (w', (none, false))
    else if w.state = .read then return ({ w with owner := "" }, (none, false))
    else return (w, (some w, false))
  return ((out.map Prod.fst).reduceOption, out.any Prod.snd)

/-- The op's channel decides probe or plain send, unless its turn has closed since. -/
def resubmitLocked (mint : ℕ → String) (kept : List DockRow) : SteerM (Option SteerSend) := do
  let r ← record
  let bound := channelRule r.opChannel .deleteQueued = .resubmit ∧ r.channel ≠ .none
  if kept = [] then do
    guarded bound (update fun r => { r with probe := "", channel := .unconfirmed })
    return none
  else if bound then do
    let send ← probeOf mint kept
    return some send
  else do
    let send ← combine (mint r.nextSeq) kept .queued
    return some send

/-- The delete's re-read after its clear: gone first, then a turn end that the op saw, then the
resubmit of every unread kept row as one send. -/
def removeCleared (mint : ℕ → String) (opID : String) (cleared : List String) (landed : Bool) :
    SteerM SteerOpResult := do
  let r ← record
  if r.op ≠ opID then return { reason := Refuse.chatGone }
  else if landed = false ∧ r.opEnd = none then return { reason := Refuse.noReply }
  else do
    let (kept, consumed) ← keepOwnedLocked opID cleared
    let reason := if consumed then Refuse.consumed else ""
    if r.opEnd = none then do
      let resend ← resubmitLocked mint kept
      return { resend, reason }
    else return { reason }

def opSent (opID id : String) (queued failed : Bool) : SteerM Unit := do
  let r ← record
  guarded (r.op = opID ∧ failed = false ∧ queued = false) (refusedLocked id)

def releaseOp (opID : String) : SteerM Unit := do
  eachRow (fun w => w.state ≠ .done ∧ w.owner = opID) fun w => return { w with owner := "" }
  update fun r => if r.op = opID then { r with op := "", opTarget := "", opEnd := none } else r

/-- The op's last observation of its turn, in the same step as its release. -/
def endOp (opID : String) : SteerM (Option SteerTurnEnd) := do
  let r ← record
  if r.op ≠ opID then return none
  else if r.opEnd ≠ none then do
    update fun r => { r with op := "", opTarget := "", opEnd := none }
    return r.opEnd
  else do
    releaseOp opID
    let r ← record
    guarded (r.unownedWaiting ≠ [] ∧
      (r.channel = .opened ∨ (r.channel = .probing ∧ r.probe = ""))) (job {})
    return none

def discardLocked (opID : String) : SteerM Unit := do
  eachRow (fun w => w.state ≠ .done ∧ w.owner = opID) fun w =>
    if w.state = .read then return { w with owner := "" }
    else if rowRuleFor w.state .discard = .discarded then retire w w.deletedSteer
    else return w
  releaseOp opID

/-- Every row becomes the op's, a job's included. -/
def beginDiscard (opID : String) : SteerM (Bool × String) := do
  let r ← record
  let userInKAS := r.rows.any fun w => w.live ∧ w.state.inKAS
  if r.channel = .none ∧ r.starting ≠ "" ∧ userInKAS then return (false, Refuse.starting)
  else do
    update fun r => { r with op := opID, opTarget := "", opEnd := none, opChannel := r.channel }
    eachRow DockRow.live fun w => return { w with owner := opID }
    let needsClear := userInKAS ∨ r.others ≠ []
    guarded (¬ needsClear) (discardLocked opID)
    return (needsClear, "")

/-- A clear with no reply leaves the rows the op's. -/
def discardCleared (opID : String) (landed : Bool) : SteerM SteerOpResult := do
  let r ← record
  if r.op ≠ opID then return { reason := Refuse.chatGone }
  else if landed = false then return { reason := Refuse.noReply }
  else do
    guarded (channelRule r.opChannel .discard = .unconfirmed ∧ r.channel ≠ .none)
      (update fun r => { r with probe := "", channel := .unconfirmed })
    discardLocked opID
    return {}

/-! ## The verbs of a turn-end job -/

/-- The rows still the job's, lead first, then in arrival order. -/
def jobRows (owner lead : String) : SteerM (List SteerRow) := do
  eachRow (fun w => w.state = .read ∧ w.owner = owner) fun w => return { w with owner := "" }
  let r ← record
  let mine := (r.owned owner).insertionSort fun a b =>
    if a.key = lead ↔ b.key = lead then a.seq ≤ b.seq else a.key = lead
  return mine.map fun w => { key := w.key, text := w.text, inKAS := w.state.inKAS }

def straysCleared (owner : String) (cleared : List String) (all : Bool) : SteerM Unit :=
  eachRow (fun w => w.state ≠ .done ∧ w.owner = owner ∧ w.state.inKAS ∧
    (all ∨ cleared.contains w.kasID)) fun w => setState w .cleared

def release (owner : String) (inKASOnly : Bool) : SteerM Unit :=
  eachRow (fun w => w.state ≠ .done ∧ w.owner = owner ∧ (inKASOnly = false ∨ w.state.inKAS)) fun w =>
    return { w with owner := "" }

def unsent (owner : String) : SteerM Unit :=
  eachRow (fun w => w.state ≠ .done ∧ w.owner = owner) fun w =>
    if w.state = .read then return { w with owner := "" }
    else setState { w with owner := "" } .unsent

/-- Each of the job's rows gets its boundary entry. The rows stay the job's until their prompt
opens. -/
def resent (owner : String) (rows : List SteerRow) : SteerM (List String × String) := do
  let out ← rows.mapM fun row => do
    let r ← record
    match r.row row.key with
    | none => return none
    | some w =>
      if w.owner ≠ owner then return none
      else do
        guarded (w.noted = false) do
          eachRow (fun o => o.seq = w.seq) fun o => return { o with noted := true }
          note w.key w.boundarySteer
        return some (w.key, w.text)
  let sent := out.reduceOption
  return (sent.map Prod.fst, joinSteers (sent.map Prod.snd))

/-- The prompt carrying the job's words has opened. -/
def delivered (owner : String) : SteerM Unit :=
  eachRow (fun w => w.state ≠ .done ∧ w.owner = owner ∧ w.state ≠ .read) fun w => retire w none

/-- Un-owned unsent rows are parked, unless KAS may hold copies of them; the oldest parked row is
answered. -/
def nextParked : SteerM (Option (String × String)) := do
  let r ← record
  eachRow (fun w => w.live ∧ w.owner = "" ∧ w.state = .unsent ∧ r.reinject = false) fun w =>
    setState w .parked
  let r ← record
  let parked := r.rows.filter fun w => w.live ∧ w.owner = "" ∧ w.state = .parked
  return (parked.insertionSort fun a b => a.seq ≤ b.seq).head?.map fun w => (w.key, w.text)

/-! ## The steer records of every chat

One lock guards the records of all chats. A call finds or creates its chat's record and runs one
step on it; the counter of pending questions is bumped in the same section when the step owes
anything. A torn-down record refuses every step.
-/

/-- The calls that run one step on a chat's record. -/
inductive SteerCall where
  | waiting (p : SteerQueued)
  | read (id : String)
  | forgotten (ids : List String)
  | cleared (ids : List String) (promptHeld : Bool)
  | turnBound (turnID : String)
  | turnRevised (turnID : String)
  | turnEnded (en : SteerTurnEnd)
  | bridgeGone
  | postLoadCleared (cleared : List String) (landed : Bool)
  | agentRowsWaiting
  | route (key text : String) (h : SteerHolder)
  | sent (id : String) (queued failed : Bool)
  | beginRemove (key opID : String)
  | removeCleared (opID : String) (cleared : List String) (landed : Bool)
  | opSent (opID id : String) (queued failed : Bool)
  | endOp (opID : String)
  | beginDiscard (opID : String)
  | discardCleared (opID : String) (landed : Bool)
  | jobRows (owner lead : String)
  | straysCleared (owner : String) (cleared : List String) (all : Bool)
  | release (owner : String) (inKASOnly : Bool)
  | unsent (owner : String)
  | resent (owner : String) (rows : List SteerRow)
  | delivered (owner : String)
  | planFlush
  | nextParked

namespace SteerCall

/-- A routed steer, a frame of a waiting row and a bound turn create a missing record. -/
def creates : SteerCall → Bool
  | waiting _ | route .. | turnBound _ => true
  | _ => false

/-- A call that returns before it takes the lock. -/
def returnsEarly : SteerCall → Bool
  | waiting p => p.steerID = ""
  | sent _ queued failed => queued || failed
  | postLoadCleared _ landed => !landed
  | _ => false

def fn (mint : ℕ → String) : SteerCall → SteerM Unit
  | waiting p => ignore (steerWaiting p)
  | read id => steerRead id
  | forgotten ids => ignore (steerForgotten ids)
  | cleared ids promptHeld => ignore (steerCleared ids promptHeld)
  | turnBound turnID => Steers.turnBound turnID
  | turnRevised turnID => Steers.turnRevised turnID
  | turnEnded en => endLocked en
  | bridgeGone => Steers.bridgeGone
  | postLoadCleared ids _ => Steers.postLoadCleared ids
  | agentRowsWaiting => return ()
  | route key text h => ignore (routeSteer mint key text h)
  | sent id _ _ => refusedLocked id
  | beginRemove key opID => ignore (Steers.beginRemove key opID)
  | removeCleared opID ids landed => ignore (Steers.removeCleared mint opID ids landed)
  | opSent opID id queued failed => Steers.opSent opID id queued failed
  | endOp opID => ignore (Steers.endOp opID)
  | beginDiscard opID => ignore (Steers.beginDiscard opID)
  | discardCleared opID landed => ignore (Steers.discardCleared opID landed)
  | jobRows owner lead => ignore (Steers.jobRows owner lead)
  | straysCleared owner ids all => Steers.straysCleared owner ids all
  | release owner inKASOnly => Steers.release owner inKASOnly
  | unsent owner => Steers.unsent owner
  | resent owner rows => ignore (Steers.resent owner rows)
  | delivered owner => Steers.delivered owner
  | planFlush => ignore (Steers.planFlush mint)
  | nextParked => ignore Steers.nextParked

end SteerCall

/-- A chat's record; `serial` stands for the record's identity, which a teardown holds on to. -/
structure ChatRecord where
  chat : String
  serial : ℕ
  record : SteerRecord := {}
  deriving DecidableEq

structure SteerRecords where
  chats : List ChatRecord := []
  created : ℕ := 0
  jobs : ℕ := 0
  deriving DecidableEq

namespace SteerRecords

variable (rs : SteerRecords)

def find (chat : String) : Option ChatRecord := Keyed.find ChatRecord.chat rs.chats chat

def put (c : ChatRecord) : SteerRecords := { rs with chats := Keyed.set ChatRecord.chat rs.chats c }

/-- A chat's record, created when it is asked for. -/
def recordOf (chat : String) (create : Bool) : Option (ChatRecord × SteerRecords) :=
  match rs.find chat with
  | some c => some (c, rs)
  | none =>
    if create then
      let c : ChatRecord := { chat, serial := rs.created }
      some (c, { rs.put c with created := rs.created + 1 })
    else none

/-- One step under the lock, and whether it bumped the counter. -/
def step (chat : String) (create : Bool) (fn : SteerM Unit) : SteerRecords × Bool :=
  match rs.recordOf chat create with
  | none => (rs, false)
  | some (c, rs) =>
    if c.record.gone then (rs, false)
    else
      let after := (fn { record := c.record, jobs := rs.jobs }).2
      ({ rs.put { c with record := after.record.prune } with jobs := after.jobs }, after.fx.owed)

def call (mint : ℕ → String) (chat : String) (op : SteerCall) : SteerRecords × Bool :=
  if op.returnsEarly then (rs, false) else rs.step chat op.creates (op.fn mint)

/-- The agent rows that a dead bridge leaves unread, from a torn-down record too. -/
def takeAgentRows (chat : String) : SteerRecords × Bool :=
  match rs.find chat with
  | none => (rs, false)
  | some c =>
    if c.record.others = [] then (rs, false)
    else (rs.put { c with record := { c.record with others := [] } }, true)

def turnStarted (chat turnID : String) : SteerRecords :=
  match rs.recordOf chat true with
  | none => rs
  | some (c, rs) =>
    if c.record.gone then rs else rs.put { c with record := { c.record with starting := turnID } }

/-- The rows that nothing read are answered for the close path's notes. -/
def unread (r : SteerRecord) : List SteerQueued :=
  (r.rows.filter fun w => w.live ∧ w.noted = false ∧ rowRuleFor w.state .teardown = .drop).map
    fun w => { steerID := w.key, text := w.text }

/-- A torn-down record keeps its agent rows for the death closer, and lists nothing. -/
def beginTeardown (chat : String) : SteerRecords × Bool :=
  match rs.recordOf chat true with
  | none => (rs, false)
  | some (c, rs) =>
    if c.record.gone then (rs, false)
    else
      let record : SteerRecord :=
        { c.record with
          rows := [], op := "", opEnd := none, lead := "", reinject := false, starting := "",
          channel := .none, turnID := "", probe := "", gone := true }
      (rs.put { c with record }, true)

/-- The second lock section of a teardown's end: the record that its first section found is
forgotten, if the chat has it still. -/
def endTeardown (chat : String) (serial : ℕ) : SteerRecords :=
  match rs.find chat with
  | none => rs
  | some c =>
    if c.serial = serial then { rs with chats := Keyed.erase ChatRecord.chat rs.chats chat } else rs

def setLead (chat key : String) : SteerRecords :=
  match rs.find chat with
  | none => rs
  | some c =>
    if c.record.gone ∨ key = "" then rs else rs.put { c with record := { c.record with lead := key } }

/-- The undo that a set lead answers, on the record that it was set on. -/
def undoLead (chat : String) (serial : ℕ) (key : String) : SteerRecords :=
  match rs.find chat with
  | none => rs
  | some c =>
    if c.serial = serial ∧ c.record.lead = key then
      rs.put { c with record := { c.record with lead := "" } }
    else rs

/-- What a chat's record lists. -/
def replayOf (c : ChatRecord) : List SteerQueued :=
  if c.record.gone then [] else c.record.appendReplay

/-- Every visible row with its wire state, chat by chat. -/
def list (chatFilter : String) : List (String × SteerQueued) :=
  let chats := rs.chats.filter fun c => ¬ c.record.gone ∧ (chatFilter = "" ∨ c.chat = chatFilter)
  (chats.insertionSort fun c d => c.chat ≤ d.chat).flatMap fun c =>
    c.record.appendReplay.map fun frame => (c.chat, frame)

end SteerRecords
end Marotte.Steers
