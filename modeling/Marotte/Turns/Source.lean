import Mathlib.Init

/-! # What opens a turn

The classes of sources: which turns are a prompt that was dispatched, which openings answer a
question that the agent left standing, and which turns a wire bracket may bind to.
-/
namespace Marotte.Turns

inductive TurnOpenSource where
  | prompt
  | localShell
  | wireTurnStart
  | emptyRetry
  | workflowStep
  deriving DecidableEq

namespace TurnOpenSource

def promptClass : TurnOpenSource → Bool
  | prompt | emptyRetry => true
  | localShell | wireTurnStart | workflowStep => false

def userAnswered : TurnOpenSource → Bool
  | prompt | emptyRetry => true
  | localShell | wireTurnStart | workflowStep => false

def acknowledgeable : TurnOpenSource → Bool
  | prompt | emptyRetry => true
  | localShell | wireTurnStart | workflowStep => false

/-- Three readers ask separate questions, and the sources that answer them are the same. -/
theorem acknowledgeable_eq_promptClass : acknowledgeable = promptClass := by
  funext source
  cases source <;> rfl

end TurnOpenSource
end Marotte.Turns
