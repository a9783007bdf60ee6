import Marotte.Entry.Types
import Mathlib.Data.List.Sort

/-! # What the record keeps of a tool call

The persist budget bounds a tool call's output, diffs and input. The bound runs on
the one write path and touches no other kind; every envelope passes through it.
-/
namespace Marotte

structure ToolBudget where
  outputLines : ℕ
  outputBytes : ℕ
  diffBytes : ℕ
  inputMember : ℕ
  inputTotal : ℕ

def previewBudget : ToolBudget where
  outputLines := 40
  outputBytes := 8 * 1024
  diffBytes := 16 * 1024
  inputMember := 4 * 1024
  inputTotal := 4 * (4 * 1024)

def persistBudget : ToolBudget where
  outputLines := 2 * previewBudget.outputLines
  outputBytes := 2 * previewBudget.outputBytes
  diffBytes := 4 * previewBudget.diffBytes
  inputMember := 2 * previewBudget.inputMember
  inputTotal := 2 * previewBudget.inputTotal

/-- The text before its n-th newline, all of it when it holds fewer. -/
def headLines : ℕ → List Char → List Char
  | _, [] => []
  | 0, cs => cs
  | n + 1, c :: cs =>
    if c = '\n' then (if n = 0 then [] else c :: headLines n cs) else c :: headLines (n + 1) cs

/-- The text after its n-th newline from the end, all of it when it holds fewer. -/
def tailLines (n : ℕ) (cs : List Char) : List Char := (headLines n cs.reverse).reverse

/-- A byte cut trimmed back to a rune boundary: the longest prefix within n bytes. -/
def cutRunes : ℕ → List Char → List Char
  | _, [] => []
  | n, c :: cs => if c.utf8Size ≤ n then c :: cutRunes (n - c.utf8Size) cs else []

/-- The same cut from the other end. -/
def cutRunesFront (n : ℕ) (cs : List Char) : List Char := (cutRunes n cs.reverse).reverse

/-- An output over the byte budget, windowed to its first and last lines and then, if it is
not line-shaped, to its first and last bytes; none when it fits. -/
def boundOutput (s : String) (b : ToolBudget) : Option String :=
  let cs := s.toList
  if Json.utf8Len cs ≤ b.outputBytes then none
  else
    let windowed :=
      if cs.count '\n' + 1 > b.outputLines * 2 then
        headLines b.outputLines cs ++ '\n' :: tailLines b.outputLines cs
      else cs
    if cs.count '\n' + 1 > b.outputLines * 2 ∧ Json.utf8Len windowed ≤ b.outputBytes then
      some (String.ofList windowed)
    else
      let half := b.outputBytes / 2
      some (String.ofList (cutRunes half windowed ++ '\n' :: cutRunesFront half windowed))

def ToolDiff.bytes (d : ToolDiff) : ℕ :=
  d.path.utf8ByteSize + d.oldText.utf8ByteSize + d.newText.utf8ByteSize

def diffsBytes (diffs : List ToolDiff) : ℕ := (diffs.map ToolDiff.bytes).sum

/-- The leading diffs that fit, each whole or not at all; none when all of them fit. -/
def boundDiffs (b : ToolBudget) : ℕ → List ToolDiff → Option (List ToolDiff)
  | _, [] => none
  | spent, d :: ds =>
    if spent + d.bytes > b.diffBytes then some []
    else (boundDiffs b (spent + d.bytes) ds).map (d :: ·)

/-- The members of an object as a decoded map holds them: the last of a repeated key. -/
def inputMap : List (String × Json) → List (String × Json)
  | [] => []
  | (k, v) :: ms => if ms.any (·.1 = k) then inputMap ms else (k, v) :: inputMap ms

/-- What one member costs in the marshalled object, its punctuation included. -/
def inputMemberBytes (m : String × Json) : ℕ :=
  Json.utf8Len (Json.quote m.1) + 2 + m.2.wireBytes

/-- Drop the first members of `keys` until what is spent fits the total. -/
def trimInputToTotal (b : ToolBudget) :
    ℕ → List (String × Json) → List (String × Json) → List (String × Json)
  | _, [], kept => kept
  | spent, m :: keys, kept =>
    if spent ≤ b.inputTotal then kept
    else trimInputToTotal b (spent - inputMemberBytes m) keys (kept.filter (·.1 ≠ m.1))

/-- An input over budget with its largest members dropped; none when it goes through whole. -/
def boundInput (input : Option Json) (b : ToolBudget) : Option Json :=
  match input with
  | none => none
  | some raw =>
    if raw.wireBytes ≤ b.inputMember then none
    else match raw with
      | .obj members =>
        let all := inputMap members
        let kept := all.filter (fun m => m.2.wireBytes ≤ b.inputMember)
        let spent := 1 + (kept.map inputMemberBytes).sum
        let keys := kept.mergeSort (fun x y =>
          inputMemberBytes y < inputMemberBytes x ∨
            (inputMemberBytes x = inputMemberBytes y ∧ x.1 ≤ y.1))
        let trimmed := trimInputToTotal b spent keys kept
        if kept.length = all.length ∧ spent ≤ b.inputTotal then none
        else some (.obj (trimmed.mergeSort (fun x y => x.1 ≤ y.1)))
      | _ => some .null

/-- Keep whichever measurement is larger per field. -/
def mergeTruncation (prior : Option ToolTruncation) (cut : ToolTruncation) : ToolTruncation :=
  match prior with
  | none => cut
  | some p =>
    { outputBytes := max p.outputBytes cut.outputBytes
      inputBytes := max p.inputBytes cut.inputBytes
      diffBytes := max p.diffBytes cut.diffBytes
      diffCount := max p.diffCount cut.diffCount }

def boundToolCall (tc : EntryToolCall) (b : ToolBudget) : EntryToolCall × ToolTruncation :=
  let (out, cut) : EntryToolCall × ToolTruncation :=
    match boundOutput tc.output b with
    | some text => ({ tc with output := text, outputSpans := [] },
        { outputBytes := tc.output.utf8ByteSize })
    | none => (tc, {})
  let (out, cut) :=
    match boundDiffs b 0 tc.diffs with
    | some diffs => ({ out with diffs := diffs },
        { cut with diffCount := tc.diffs.length, diffBytes := diffsBytes tc.diffs })
    | none => (out, cut)
  match boundInput tc.input b with
  | some input => ({ out with input := some input },
      { cut with inputBytes := (tc.input.map Json.wireBytes).getD 0 })
  | none => (out, cut)

def boundToolResult (res : EntryToolResult) (b : ToolBudget) : EntryToolResult × ToolTruncation :=
  let (out, cut) : EntryToolResult × ToolTruncation :=
    match boundOutput res.output b with
    | some text => ({ res with output := text, outputSpans := [] },
        { outputBytes := res.output.utf8ByteSize })
    | none => (res, {})
  match boundDiffs b 0 res.diffs with
  | some diffs => ({ out with diffs := diffs },
      { cut with diffCount := res.diffs.length, diffBytes := diffsBytes res.diffs })
  | none => (out, cut)

/-- Bound a tool_call or tool_result payload to the persist budget, noting what was cut. -/
def persistBoundPayload : Payload → Payload
  | .toolCall call =>
    let (out, cut) := boundToolCall call persistBudget
    if cut = {} then .toolCall call
    else .toolCall { out with truncated := some (mergeTruncation call.truncated cut) }
  | .toolResult res =>
    let (out, cut) := boundToolResult res persistBudget
    if cut = {} then .toolResult res
    else .toolResult { out with truncated := some (mergeTruncation res.truncated cut) }
  | p => p

def persistBoundEntry (e : Entry) : Entry := { e with payload := persistBoundPayload e.payload }

@[simp] theorem persistBoundPayload_kind (p : Payload) : (persistBoundPayload p).kind = p.kind := by
  cases p with
  | toolCall call =>
    simp only [persistBoundPayload]
    split <;> rfl
  | toolResult res =>
    simp only [persistBoundPayload]
    split <;> rfl
  | _ => rfl

/-- The bound reads and writes the two tool kinds only. -/
theorem persistBoundPayload_eq_self {p : Payload} (hc : p.kind ≠ .toolCall)
    (hr : p.kind ≠ .toolResult) : persistBoundPayload p = p := by
  cases p <;> first | rfl | exact absurd rfl hc | exact absurd rfl hr

@[simp] theorem persistBoundEntry_id (e : Entry) : (persistBoundEntry e).id = e.id := rfl
@[simp] theorem persistBoundEntry_turn (e : Entry) : (persistBoundEntry e).turn = e.turn := rfl
@[simp] theorem persistBoundEntry_lane (e : Entry) : (persistBoundEntry e).lane = e.lane := rfl
@[simp] theorem persistBoundEntry_seq (e : Entry) : (persistBoundEntry e).seq = e.seq := rfl
@[simp] theorem persistBoundEntry_ts (e : Entry) : (persistBoundEntry e).ts = e.ts := rfl
@[simp] theorem persistBoundEntry_kind (e : Entry) : (persistBoundEntry e).kind = e.kind :=
  persistBoundPayload_kind e.payload

end Marotte
