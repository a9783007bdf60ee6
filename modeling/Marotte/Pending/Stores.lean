import Mathlib.Data.List.Sort
import Marotte.Library.Keyed

/-! # Pending decisions and run asks

The unresolved decisions of every chat, and the questions that a workflow step asked and nobody
answered. Every operation answers whether it removed or added anything, and the counter is bumped
in the same critical section exactly when it did.
-/
namespace Marotte.Pending

/-! ## Decisions -/

structure PermissionOption where
  optionID : String
  name : String
  kind : String
  deriving DecidableEq

structure PermissionNeeded where
  requestID : ℤ
  toolCallID : String := ""
  title : String := ""
  runID : String := ""
  nodeID : String := ""
  options : List PermissionOption
  deriving DecidableEq

structure ElicitationNeeded where
  requestID : ℤ
  message : String := ""
  url : String := ""
  runID : String := ""
  nodeID : String := ""
  deriving DecidableEq

structure UserInputNeeded where
  requestID : ℤ
  question : String
  runID : String := ""
  nodeID : String := ""
  deriving DecidableEq

inductive DecisionPayload where
  | permission (p : PermissionNeeded)
  | elicitation (p : ElicitationNeeded)
  | userInput (p : UserInputNeeded)
  deriving DecidableEq

structure DecisionEvent where
  chatID : String
  payload : DecisionPayload
  deriving DecidableEq

def decisionRunID : DecisionPayload → String
  | .permission p => p.runID
  | .elicitation p => p.runID
  | .userInput p => p.runID

/-- A pending decision under the chat that owns it and the id that it is answered on. -/
structure PermEntry where
  chat : String
  id : ℤ
  event : DecisionEvent
  deriving DecidableEq

namespace PermEntry

def key (e : PermEntry) : String × ℤ := (e.chat, e.id)

end PermEntry

/-- The unresolved decisions, none of which expires. -/
structure PendingPerms where
  perms : List PermEntry := []
  deriving DecidableEq

namespace PendingPerms

variable (t : PendingPerms)

def add (id : ℤ) (evt : DecisionEvent) : PendingPerms :=
  { perms := Keyed.set PermEntry.key t.perms { chat := evt.chatID, id, event := evt } }

/-- A claim: presence is the only test. -/
def takeIfPresent (chatID : String) (id : ℤ) : PendingPerms × Option DecisionEvent :=
  match Keyed.find PermEntry.key t.perms (chatID, id) with
  | none => (t, none)
  | some e => ({ perms := Keyed.erase PermEntry.key t.perms (chatID, id) }, some e.event)

/-- What a claim of one option answers: the event, whether it is pending, whether it is offered. -/
structure OptionTaken where
  event : Option DecisionEvent
  pending : Bool
  offered : Bool
  deriving DecidableEq

def offers (optionID : String) : DecisionPayload → Bool
  | .permission p => p.options.any (·.optionID = optionID)
  | .elicitation _ | .userInput _ => false

/-- An off-list answer leaves the request pending. -/
def takePermissionOption (chatID : String) (id : ℤ) (optionID : String) :
    PendingPerms × OptionTaken :=
  match Keyed.find PermEntry.key t.perms (chatID, id) with
  | none => (t, { event := none, pending := false, offered := false })
  | some e =>
    if offers optionID e.event.payload then
      ({ perms := Keyed.erase PermEntry.key t.perms (chatID, id) },
        { event := e.event, pending := true, offered := true })
    else (t, { event := e.event, pending := true, offered := false })

/-- Every entry that a test picks is dropped, and whether there was one; an empty name is refused. -/
def clear (named : Bool) (p : PermEntry → Bool) : PendingPerms × Bool :=
  if named ∧ t.perms.any p then ({ perms := t.perms.filter fun e => ¬ p e }, true) else (t, false)

def clearForChat (chatID : String) : PendingPerms × Bool :=
  t.clear (chatID ≠ "") (·.chat = chatID)

/-- The run comes off the payload, because the key carries none. -/
def clearForRun (workflowID : String) : PendingPerms × Bool :=
  t.clear (workflowID ≠ "") (decisionRunID ·.event.payload = workflowID)

/-- Ascending by request id, the chat as the tie-break. -/
def list (chatFilter : String) : List DecisionEvent :=
  let kept := t.perms.filter fun e => chatFilter = "" ∨ e.chat = "" ∨ e.chat = chatFilter
  (kept.insertionSort fun e f => e.id < f.id ∨ (e.id = f.id ∧ e.chat ≤ f.chat)).map PermEntry.event

end PendingPerms

/-! ## Run asks -/

structure RunInputNeeded where
  workflowID : String
  askID : String
  nodeID : String := ""
  stepSessionID : String := ""
  agentName : String := ""
  question : String := ""
  askedAt : String := ""
  deriving DecidableEq

/-- One unanswered ask and the surface it is keyed to. -/
structure RunAsk where
  chatID : String
  payload : RunInputNeeded
  deriving DecidableEq

namespace RunAsk

def key (a : RunAsk) : String × String := (a.payload.workflowID, a.payload.askID)

end RunAsk

structure PendingRunAsks where
  asks : List RunAsk := []
  deriving DecidableEq

namespace PendingRunAsks

variable (r : PendingRunAsks)

/-- Whether the ask is new: a redelivered frame leaves the stored entry alone. -/
def add (a : RunAsk) : PendingRunAsks × Bool :=
  if a.payload.workflowID = "" ∨ a.payload.askID = "" then (r, false)
  else if (Keyed.find RunAsk.key r.asks a.key).isSome then (r, false)
  else ({ asks := Keyed.set RunAsk.key r.asks a }, true)

def takeIfPresent (workflowID askID : String) : PendingRunAsks × Option RunAsk :=
  match Keyed.find RunAsk.key r.asks (workflowID, askID) with
  | none => (r, none)
  | some a => ({ asks := Keyed.erase RunAsk.key r.asks (workflowID, askID) }, some a)

/-- A claimed ask is put back. -/
def restore (a : RunAsk) : PendingRunAsks × Bool := r.add a

/-- Every ask that a test picks is dropped and answered; an empty name is refused. -/
def take (named : Bool) (p : RunAsk → Bool) : PendingRunAsks × List RunAsk :=
  if named then ({ asks := r.asks.filter fun a => ¬ p a }, r.asks.filter p) else (r, [])

def takeRun (workflowID : String) : PendingRunAsks × List RunAsk :=
  r.take (workflowID ≠ "") (·.payload.workflowID = workflowID)

def takeNode (workflowID nodeID : String) : PendingRunAsks × List RunAsk :=
  r.take (workflowID ≠ "" ∧ nodeID ≠ "") fun a =>
    a.payload.workflowID = workflowID ∧ a.payload.nodeID = nodeID

def clearChat (chatID : String) : PendingRunAsks × List RunAsk :=
  r.take (chatID ≠ "") (·.chatID = chatID)

def list (chatFilter : String) : List RunAsk :=
  r.asks.filter fun a => chatFilter = "" ∨ a.chatID = "" ∨ a.chatID = chatFilter

theorem add_of_false {a : RunAsk} (h : (r.add a).2 = false) : (r.add a).1 = r := by
  simp only [add] at h ⊢
  split at h
  · next hempty => rw [if_pos hempty]
  · next hempty =>
    rw [if_neg hempty]
    split at h
    · next hdup => rw [if_pos hdup]
    · cases h

/-- A claim of nothing leaves the asks as they were. -/
theorem take_of_nil {named : Bool} {p : RunAsk → Bool} (h : (r.take named p).2 = []) :
    (r.take named p).1 = r := by
  cases named with
  | false => rfl
  | true =>
    simp only [take, if_true] at h ⊢
    rw [PendingRunAsks.mk.injEq, List.filter_eq_self]
    intro a ha
    rw [decide_eq_true_eq]
    exact List.filter_eq_nil_iff.mp h a ha

end PendingRunAsks
end Marotte.Pending
