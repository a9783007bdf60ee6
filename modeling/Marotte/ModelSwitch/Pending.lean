import Marotte.Library.Along
import Marotte.Turns.Registry

/-! # A chat's model pick

A pick is written on the header as its pending model and applied when the chat is idle, by the
command itself or by the closer that makes the chat idle. An application reads the header, calls
the session with no lock and then writes the header; every step below is one hold of a lock.
-/
namespace Marotte.ModelSwitch

open Turns

/-! ## The command -/

def modelAuto : String := "auto"

def identChar (c : Char) : Bool :=
  c.isAlphanum || c = '_' || c = '.' || c = '-'

def validIdent (s : String) : Bool :=
  s = "" || (s.length ≤ 128 && s.toList.all identChar &&
    s.toList.head? ≠ some '.' && s.toList.head? ≠ some '-' && s.toList.any (· ≠ '.'))

def modelServed (id : String) (served : List String) : Bool :=
  id = "" || id = modelAuto || served.isEmpty || served.contains id

/-- The header fields of a switch; an empty text is an absent one. -/
structure Header where
  model : String
  pendingModel : String := ""
  effort : String := ""
  servedModelIDs : List String := []
  deriving DecidableEq

/-- The effective model, and whether it is a switch. -/
def resolveSwitchModel (chat : Header) (payload : String) : String × Bool :=
  if payload = "" ∨ payload = modelAuto ∨ payload = chat.model then (chat.model, false)
  else (payload, true)

inductive SwitchReply where
  | ok
  | invalidPayload
  | modelNotServed
  | picked (model : String)
  deriving DecidableEq

/-- What the command decides on the header it read: `picked` goes on to write the pick. -/
def cmdSwitchModel (chat : Header) (payload : String) : SwitchReply :=
  if validIdent payload = false then .invalidPayload
  else
    let (model, isSwitch) := resolveSwitchModel chat payload
    if isSwitch = false then .ok
    else if modelServed model chat.servedModelIDs = false then .modelNotServed
    else .picked model

theorem cmdSwitchModel_running (chat : Header) (model : String) :
    cmdSwitchModel chat chat.model ≠ .picked model := by
  simp only [cmdSwitchModel, resolveSwitchModel, or_true, if_true]
  split <;> nofun

theorem cmdSwitchModel_picked {chat : Header} {payload model : String}
    (h : cmdSwitchModel chat payload = .picked model) : model ≠ "" := by
  simp only [cmdSwitchModel, resolveSwitchModel] at h
  grind

/-! ## The record of a chat's model -/

structure EntryModelSwitched where
  fromModel : String
  toModel : String
  effort : String
  deriving DecidableEq

/-- How the header's model changed: by a switch that the session took, by a pick that landed with
no session to switch, or by a session that opened. Only a switch leaves an entry in the log. -/
inductive Move where
  | switched (entry : EntryModelSwitched)
  | landed (model : String)
  | opened (model : String)
  deriving DecidableEq

def Move.model : Move → String
  | .switched entry => entry.toModel
  | .landed model => model
  | .opened model => model

/-- The model that a record of moves ends at. -/
def reached (start : String) (moves : List Move) : String :=
  (moves.getLast?.map Move.model).getD start

/-- Every entry's From is the model that the moves before it reached. -/
def Chained (start : String) (moves : List Move) : Prop :=
  ∀ before entry after, moves = before ++ .switched entry :: after →
    entry.fromModel = reached start before

theorem reached_concat (start : String) (moves : List Move) (move : Move) :
    reached start (moves ++ [move]) = move.model := by simp [reached]

theorem chained_nil (start : String) : Chained start [] := by
  intro before entry after h
  cases before <;> cases h

theorem Chained.concat {start : String} {moves : List Move} (h : Chained start moves) {move : Move}
    (hmove : ∀ entry, move = .switched entry → entry.fromModel = reached start moves) :
    Chained start (moves ++ [move]) := by
  intro before entry after heq
  induction after using List.reverseRecOn with
  | nil =>
    obtain ⟨rfl, hlast⟩ := List.append_inj' heq rfl
    cases hlast
    exact hmove entry rfl
  | append_singleton after last _ =>
    rw [← List.cons_append, ← List.append_assoc] at heq
    exact h before entry after (List.append_inj' heq rfl).1

/-! ## The chat -/

/-- Where a command or an application stands: a picked command has its write before it, and an
application has read the pick from `taken` on. -/
inductive Task where
  | picked (model : String)
  | dispatched
  | idle
  | taken (model fromModel : String)
  | landing (model : String)
  | calling (model fromModel effort : String)
  | refused
  | granted (entry : EntryModelSwitched)
  | recorded (model : String)
  deriving DecidableEq

/-- An application between its read of the pick and its write. -/
def Task.inFlight : Task → Bool
  | .picked _ | .dispatched | .idle => false
  | .taken .. | .landing _ | .calling .. | .refused | .granted _ | .recorded _ => true

/-- One chat. `session` is the model that its live session runs; `due` is the model that the last
accepted pick named, until a session refuses that pick or opens on a model of its own. -/
structure Chat where
  header : Header
  session : Option String := none
  turns : ChatTurns := {}
  tasks : List Task := []
  moves : List Move := []
  due : Option String := none

inductive Event where
  | switchModel (payload : String)
  | task (i : ℕ) (accepted : Bool)
  | turn (e : TurnEvent)
  | sessionStarts (reported : String)
  | sessionEnds

namespace Chat

variable (s : Chat)

/-- The registry's `live`: an own turn, a pending one, or a held admission slot. -/
def busy : Bool := s.turns.own.isSome || s.turns.pending.isSome || s.turns.reserved.isSome

/-- The log's `model_switched` entries. -/
def entries : List EntryModelSwitched :=
  s.moves.filterMap fun
    | .switched entry => some entry
    | _ => none

/-- The header takes a model, and with it the pick and the tier of the old model go. -/
def take (model : String) : Chat :=
  { s with header := { s.header with model, pendingModel := "", effort := "" } }

def persistModelPick (model : String) : Chat :=
  { s.take model with moves := s.moves ++ [.landed model] }

/-- One step of a command or an application, and where it stands after it. `effortForSwitch` is
the level that the new model takes; `accepted` is the session's answer. -/
def advance (effortForSwitch : String → String) (accepted : Bool) : Task → Chat × Option Task
  | .picked model =>
    ({ s with header := { s.header with pendingModel := model }, due := some model },
      some .dispatched)
  | .dispatched => if s.busy then (s, none) else (s, some .idle)
  | .idle =>
    if s.header.pendingModel = "" then (s, none)
    else (s, some (.taken s.header.pendingModel s.header.model))
  | .taken model fromModel =>
    if s.session.isSome then (s, some (.calling model fromModel (effortForSwitch model)))
    else (s, some (.landing model))
  | .landing model => (s.persistModelPick model, none)
  | .calling model fromModel effort =>
    if accepted ∧ s.session.isSome then
      ({ s with session := some model },
        some (.granted { fromModel, toModel := model, effort }))
    else ({ s with due := if s.due = some model then none else s.due }, some .refused)
  | .refused => ({ s with header := { s.header with pendingModel := "" } }, none)
  | .granted entry =>
    ({ s with moves := s.moves ++ [.switched entry] }, some (.recorded entry.toModel))
  | .recorded model => (s.take model, none)

/-- The session opens on the header's model, a parked pick landed first, and the header takes the
model that it reports. -/
def sessionStarts (reported : String) : Chat :=
  if s.session.isSome then s
  else
    let s := if s.header.pendingModel = "" then s else s.persistModelPick s.header.pendingModel
    let model := if reported = "" then s.header.model else reported
    { s with
      header := { s.header with model }
      session := some model
      moves := s.moves ++ [.opened model]
      due := none }

/-- A turn's finish is its closer's, which then dispatches an application. -/
def turnStep (e : TurnEvent) : Chat :=
  { s with
    turns := s.turns.step e
    tasks := match e with
      | .finish t => if t ∈ s.turns.closers then s.tasks ++ [.dispatched] else s.tasks
      | _ => s.tasks }

def step (effortForSwitch : String → String) (s : Chat) : Event → Chat
  | .switchModel payload =>
    match cmdSwitchModel s.header payload with
    | .picked model => { s with tasks := s.tasks ++ [.picked model] }
    | _ => s
  | .task i accepted =>
    match s.tasks[i]? with
    | none => s
    | some t =>
      let (s', next) := s.advance effortForSwitch accepted t
      { s' with tasks := s.tasks.take i ++ next.toList ++ s.tasks.drop (i + 1) }
  | .turn e => s.turnStep e
  | .sessionStarts reported => s.sessionStarts reported
  | .sessionEnds => { s with session := none }

/-- A chat at rest, with or without a session. -/
def new (model : String) (served : List String) (live : Bool) (turns : ChatTurns) : Chat where
  header := { model, servedModelIDs := served }
  session := if live then some model else none
  turns := turns

end Chat
end Marotte.ModelSwitch
