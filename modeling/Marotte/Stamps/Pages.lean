import Marotte.EntryLog.Ranges
import Marotte.EntryLog.Rewrite
import Marotte.Library.Along

/-! # A chat's pages and their stamps

One chat's header, draft and log under the store's operations, the registry of its open turns, and
the page reads: each reads the registry first and the rest under the lock. The version is the
`chat` subject's; an open turn's is its newest seq.
-/
namespace Marotte.Stamps

/-- What an operation still has to do after its locked part: write the counters, mint. -/
inductive OpStep where
  | counters
  | mint
  deriving DecidableEq

structure PageArgs where
  turns : ℤ
  before : String
  deriving DecidableEq

/-- What a page answers beside its stamps. `rest` is the header apart from what the log is given
of it. -/
structure PageAnswer (α : Type) where
  rest : α
  header : LogHeader
  draft : String
  entries : List Entry
  hasMore : Bool
  deriving DecidableEq

/-- A page read that has read the registry: the turns it found open. -/
structure PageRead where
  args : PageArgs
  tails : List String
  deriving DecidableEq

/-- A page as it was served: its `chat` stamp, and a `live_turn` stamp for each turn it served
open. -/
structure ServedPage (α : Type) where
  args : PageArgs
  chat : ℕ
  live : List (String × ℕ)
  answer : PageAnswer α

/-- `openTurns` is the registry; `ops` are the operations that have released the lock and are not
done. -/
structure PageStore (α : Type) where
  rest : α
  draft : String
  log : EntryLog
  version : ℕ := 0
  openTurns : List String := []
  ops : List (List OpStep) := []
  reads : List PageRead := []
  pages : List (ServedPage α) := []

inductive PageEvent (α : Type) where
  /-- `Mutate`, or a composer write; the counters are the log's own. -/
  | writes (rest : α) (header : LogHeader) (draft : String)
  | opensTurn (t : Tick) (mint : String) (spec : TurnSpec)
  | appends (t : Tick) (e : Entry)
  | closes (t : Tick) (e : Entry)
  /-- The registry lets a turn go. -/
  | ends (turn : String)
  | appendsBetween (ticks : ℕ → Tick) (mint : String) (e : Entry)
  | reverts (ticks : ℕ → Tick) (mint fromTurn kasMessageID : String)
  /-- A reconcile that has something to add, and the header with its watermark, if written. -/
  | rewrites (w : RewriteWorld) (entries : List Entry) (marked : Option α)
  /-- One record of a reconcile that has nothing to add. -/
  | records (ticks : ℕ → Tick) (mint : String) (rec : EntryReconciled)
  | proceeds (op : List OpStep)
  | readsRegistry (args : PageArgs)
  | servesPage (read : PageRead)

namespace PageStore

variable {α : Type} (c : LineCodec) (s : PageStore α)

/-- What a page read answers. -/
def page (args : PageArgs) : Except LogError (PageAnswer α) :=
  match s.log.window c args.turns args.before with
  | .error err => .error err
  | .ok win =>
    .ok { rest := s.rest, header := s.log.header, draft := s.draft, entries := win.entries,
          hasMore := win.hasMore }

/-- A turn that takes entries: the registry holds it, and the log holds no turn_close of it. -/
def Open (turn : String) : Prop :=
  turn ∈ s.openTurns ∧ ((s.log.index.turns turn).map TurnState.closed).getD true = false

instance (turn : String) : Decidable (s.Open turn) := inferInstanceAs (Decidable (_ ∧ _))

/-- The turn that an entry filed between turns lands in. -/
def between : Option String := s.log.index.newestSurviving []

/-- The turn that a reconcile's record lands in. -/
def recordedIn (rec : EntryReconciled) : Option String :=
  if rec.turn ≠ "" then some rec.turn else s.between

/-- `OpenTurn` under the lifecycle mutex: the registry takes the turn with its turn_open. -/
def openTurn (t : Tick) (mint : String) (spec : TurnSpec) : PageStore α :=
  match s.log.openTurn c t mint spec with
  | (log, .error _) => { s with log }
  | (log, .ok opened) =>
    { s with log, openTurns := opened.turn :: s.openTurns, ops := [.counters] :: s.ops }

/-- `Revert`, whose counters and mint follow a record that landed. -/
def revert (ticks : ℕ → Tick) (mint fromTurn kasMessageID : String) : PageStore α :=
  match s.log.revert c ticks mint fromTurn .rewind kasMessageID with
  | (log, _, .error _) => { s with log }
  | (log, _, .ok _) => { s with log, ops := [.counters, .mint] :: s.ops }

/-- `Reconcile` mints for a rewrite unless what comes after it fails. -/
def rewrite (w : RewriteWorld) (entries : List Entry) (marked : Option α) : PageStore α :=
  match s.log.rewrite c w entries, marked with
  | (log, .error _), _ => { s with log }
  | (log, .ok _), none => { s with log }
  | (log, .ok _), some rest => { s with log, rest, ops := [.mint] :: s.ops }

/-- `WriteCounters` mints where the counters moved. -/
def writeCounters (rest : List OpStep) (ops : List (List OpStep)) : PageStore α :=
  let log := (s.log.writeCounters true).1
  if log.header.turnCount = s.log.header.turnCount ∧
      log.header.lastTurnOutcome = s.log.header.lastTurnOutcome then
    { s with log, ops := rest :: ops }
  else { s with log, ops := (.mint :: rest) :: ops }

def proceed (op : List OpStep) : PageStore α :=
  match op with
  | [] => { s with ops := s.ops.erase op }
  | .counters :: rest => s.writeCounters rest (s.ops.erase op)
  | .mint :: rest => { s with version := s.version + 1, ops := rest :: s.ops.erase op }

/-- The turns that a page stamps: those found open that it holds, with no turn_close. -/
def liveTurns (read : PageRead) (entries : List Entry) : List (String × ℕ) :=
  (read.tails.filter fun turn => entries.any (·.turn = turn) ∧
    ¬ entries.any fun e => e.turn = turn ∧ e.kind = .turnClose).map fun turn =>
      (turn, (s.log.newestSeq turn).getD 0)

def servePage (read : PageRead) : PageStore α :=
  match s.page c read.args with
  | .error _ => { s with reads := s.reads.erase read }
  | .ok answer =>
    { s with
      reads := s.reads.erase read
      pages :=
        { args := read.args, chat := s.version, live := s.liveTurns read answer.entries, answer } ::
          s.pages }

def step (s : PageStore α) : PageEvent α → PageStore α
  | .writes rest header draft =>
    { s with
      rest, draft
      log := { s.log with header :=
        { header with
          reconcilable := true
          turnCount := s.log.header.turnCount
          lastTurnOutcome := s.log.header.lastTurnOutcome } }
      version := s.version + 1 }
  | .opensTurn t mint spec => if s.log.NewTurn mint then s.openTurn c t mint spec else s
  | .appends t e =>
    if s.Open e.turn ∧ e.kind ≠ .turnOpen ∧ e.kind ≠ .turnRevert ∧ e.kind ≠ .turnClose then
      { s with log := (s.log.append c t e).1 }
    else s
  | .closes t e =>
    if s.Open e.turn ∧ e.kind = .turnClose then
      { s with log := (s.log.append c t e).1, ops := [.counters] :: s.ops }
    else s
  | .ends turn => { s with openTurns := s.openTurns.filter (· ≠ turn) }
  | .appendsBetween ticks mint e =>
    if s.log.NewTurn mint ∧ e.kind ≠ .turnOpen ∧ e.kind ≠ .turnRevert ∧ e.kind ≠ .turnClose then
      { s with log := (s.log.appendBetweenTurns c ticks mint e).1 }
    else s
  | .reverts ticks mint fromTurn kasMessageID =>
    if s.log.NewTurn mint then s.revert c ticks mint fromTurn kasMessageID else s
  | .rewrites w entries marked =>
    if (History.opened entries).Nodup then s.rewrite c w entries marked else s
  | .records ticks mint rec =>
    if s.log.NewTurn mint then { s with log := (s.log.appendReconciled c ticks mint rec).1 } else s
  | .proceeds op => if op ∈ s.ops then s.proceed op else s
  | .readsRegistry args =>
    { s with reads :=
        { args, tails := if args.before = "" then s.openTurns else [] } :: s.reads }
  | .servesPage read => if read ∈ s.reads then s.servePage c read else s

/-- At a moment with no operation midway, a page whose `chat` stamp is current and whose stamped
turns are open at their stamps is what the same read answers. -/
def PagesVouched (s : PageStore α) : Prop :=
  s.ops = [] → ∀ page ∈ s.pages, page.chat = s.version →
    (∀ stamp ∈ page.live, stamp.1 ∈ s.openTurns ∧ s.log.newestSeq stamp.1 = some stamp.2) →
    s.page c page.args = .ok page.answer

end PageStore
end Marotte.Stamps
