import Mathlib.Logic.Function.Basic
import Marotte.Library.Along
import Marotte.Pending.Stores
import Marotte.Steers.Listing

/-! # The pending snapshot and its version

One counter is bumped for every change of the three pending stores. A snapshot reads the counter
first and then each store under its own lock, with any change of any store between two reads.
-/
namespace Marotte.Pending
open Steers (SteerRecords SteerCall SteerQueued)

inductive PendingItem where
  | decision (event : DecisionEvent)
  | ask (a : RunAsk)
  | steer (chat : String) (frame : SteerQueued)
  deriving DecidableEq

/-- A snapshot under way: the version that it stamps, the stores that it has read, and their
items. -/
structure Snapshot where
  version : ℕ
  reads : ℕ := 0
  items : List PendingItem := []
  deriving DecidableEq

structure PendingState where
  version : ℕ := 0
  perms : PendingPerms := {}
  asks : PendingRunAsks := {}
  steers : SteerRecords := {}
  snapshots : ℕ → Option Snapshot := fun _ => none

inductive PendingEvent where
  | addPerm (id : ℤ) (evt : DecisionEvent)
  | takePerm (chatID : String) (id : ℤ)
  | takePermissionOption (chatID : String) (id : ℤ) (optionID : String)
  | clearPermsForChat (chatID : String)
  | clearPermsForRun (workflowID : String)
  | addAsk (a : RunAsk)
  | takeAsk (workflowID askID : String)
  | restoreAsk (a : RunAsk)
  | takeRun (workflowID : String)
  | takeNode (workflowID nodeID : String)
  | clearAsksForChat (chatID : String)
  | steer (mint : ℕ → String) (chat : String) (op : SteerCall)
  | takeAgentRows (chat : String)
  | turnStarted (chat turnID : String)
  | beginTeardown (chat : String)
  | endTeardown (chat : String) (serial : ℕ)
  | setLead (chat key : String)
  | undoLead (chat : String) (serial : ℕ) (key : String)
  | read (snapshot : ℕ)

namespace PendingState

variable (s : PendingState)

def mintPending (minted : Bool) : PendingState :=
  if minted then { s with version := s.version + 1 } else s

def withPerms (perms : PendingPerms) (minted : Bool) : PendingState :=
  { s with perms }.mintPending minted

def withAsks (asks : PendingRunAsks) (minted : Bool) : PendingState :=
  { s with asks }.mintPending minted

def withSteers (out : SteerRecords × Bool) : PendingState :=
  { s with steers := out.1 }.mintPending out.2

def permItems : List PendingItem := (s.perms.list "").map .decision

def askItems : List PendingItem := (s.asks.list "").map .ask

def steerItems : List PendingItem := (s.steers.list "").map fun f => .steer f.1 f.2

/-- What the first stores of a snapshot's order list. -/
def listedBy (reads : ℕ) : List PendingItem :=
  (if 1 ≤ reads then s.permItems else []) ++ (if 2 ≤ reads then s.askItems else []) ++
    if 3 ≤ reads then s.steerItems else []

/-- What the three stores list. -/
def listed : List PendingItem := s.permItems ++ s.askItems ++ s.steerItems

/-- The counter first, then the three stores in sequence. -/
def readNext : Option Snapshot → Snapshot
  | none => { version := s.version }
  | some snap =>
    match snap.reads with
    | 0 => { snap with reads := 1, items := s.permItems }
    | 1 => { snap with reads := 2, items := snap.items ++ s.askItems }
    | 2 => { snap with reads := 3, items := snap.items ++ s.steerItems }
    | _ => snap

def step : PendingEvent → PendingState
  | .addPerm id evt => s.withPerms (s.perms.add id evt) true
  | .takePerm chatID id =>
    let out := s.perms.takeIfPresent chatID id
    s.withPerms out.1 out.2.isSome
  | .takePermissionOption chatID id optionID =>
    let out := s.perms.takePermissionOption chatID id optionID
    s.withPerms out.1 out.2.offered
  | .clearPermsForChat chatID =>
    let out := s.perms.clearForChat chatID
    s.withPerms out.1 out.2
  | .clearPermsForRun workflowID =>
    let out := s.perms.clearForRun workflowID
    s.withPerms out.1 out.2
  | .addAsk a =>
    let out := s.asks.add a
    s.withAsks out.1 out.2
  | .takeAsk workflowID askID =>
    let out := s.asks.takeIfPresent workflowID askID
    s.withAsks out.1 out.2.isSome
  | .restoreAsk a =>
    let out := s.asks.restore a
    s.withAsks out.1 out.2
  | .takeRun workflowID =>
    let out := s.asks.takeRun workflowID
    s.withAsks out.1 (out.2 ≠ [])
  | .takeNode workflowID nodeID =>
    let out := s.asks.takeNode workflowID nodeID
    s.withAsks out.1 (out.2 ≠ [])
  | .clearAsksForChat chatID =>
    let out := s.asks.clearChat chatID
    s.withAsks out.1 (out.2 ≠ [])
  | .steer mint chat op => s.withSteers (s.steers.call mint chat op)
  | .takeAgentRows chat => s.withSteers (s.steers.takeAgentRows chat)
  | .turnStarted chat turnID => s.withSteers (s.steers.turnStarted chat turnID, false)
  | .beginTeardown chat => s.withSteers (s.steers.beginTeardown chat)
  | .endTeardown chat serial => s.withSteers (s.steers.endTeardown chat serial, false)
  | .setLead chat key => s.withSteers (s.steers.setLead chat key, false)
  | .undoLead chat serial key => s.withSteers (s.steers.undoLead chat serial key, false)
  | .read id =>
    { s with snapshots := Function.update s.snapshots id (some (s.readNext (s.snapshots id))) }

def run (events : List PendingEvent) : PendingState := runFrom step {} events

/-- A teardown's end forgets a record that lists nothing. -/
def Announced : PendingEvent → Prop
  | .endTeardown chat serial => s.steers.Forgets chat serial
  | _ => True

instance (e : PendingEvent) : Decidable (s.Announced e) :=
  match e with
  | .endTeardown chat serial => inferInstanceAs (Decidable (s.steers.Forgets chat serial))
  | .addPerm .. | .takePerm .. | .takePermissionOption .. | .clearPermsForChat _
  | .clearPermsForRun _ | .addAsk _ | .takeAsk .. | .restoreAsk _ | .takeRun _ | .takeNode ..
  | .clearAsksForChat _ | .steer .. | .takeAgentRows _ | .turnStarted .. | .beginTeardown _
  | .setLead .. | .undoLead .. | .read _ => isTrue trivial

/-- A version that answers unchanged is true: a complete snapshot whose stamp is the counter's
value holds what the three stores list. -/
def Certified (s : PendingState) : Prop :=
  ∀ id snap, s.snapshots id = some snap → snap.reads = 3 → snap.version = s.version →
    ∀ item, item ∈ snap.items ↔ item ∈ s.listed

/-! ## A change bumps the counter -/

/-- The stores of two states, where the first leads to the second. -/
structure Minted (s t : PendingState) : Prop where
  snapshots : t.snapshots = s.snapshots
  version : s.version ≤ t.version
  onePerChat : s.steers.OnePerChat → t.steers.OnePerChat
  same : t.version = s.version → s.steers.OnePerChat →
    ∀ reads item, item ∈ t.listedBy reads ↔ item ∈ s.listedBy reads

variable {s}

theorem mem_steerItems (h : s.steers.OnePerChat) (item : PendingItem) :
    item ∈ s.steerItems ↔
      ∃ chat frame, item = .steer chat frame ∧ frame ∈ s.steers.replayAt chat := by
  rw [steerItems, List.mem_map]
  constructor
  · rintro ⟨⟨chat, frame⟩, hmem, rfl⟩
    exact ⟨chat, frame, rfl, (SteerRecords.mem_list h).mp hmem⟩
  · rintro ⟨chat, frame, rfl, hmem⟩
    exact ⟨(chat, frame), (SteerRecords.mem_list h).mpr hmem, rfl⟩

theorem minted_bumped {t : PendingState} (hs : t.snapshots = s.snapshots)
    (ho : s.steers.OnePerChat → t.steers.OnePerChat) (hv : t.version = s.version) :
    Minted s (t.mintPending true) where
  snapshots := hs
  version := by
    simp only [mintPending, if_true]
    omega
  onePerChat := ho
  same := by
    simp only [mintPending, if_true]
    omega

/-- The decisions are as they were unless the counter was bumped. -/
theorem minted_perms {perms : PendingPerms} {minted : Bool}
    (h : minted = false → perms = s.perms) : Minted s (s.withPerms perms minted) := by
  cases minted with
  | true => exact minted_bumped rfl id rfl
  | false =>
    rw [h rfl]
    exact ⟨rfl, Nat.le_refl _, id, fun _ _ _ _ => Iff.rfl⟩

theorem minted_asks {asks : PendingRunAsks} {minted : Bool}
    (h : minted = false → asks = s.asks) : Minted s (s.withAsks asks minted) := by
  cases minted with
  | true => exact minted_bumped rfl id rfl
  | false =>
    rw [h rfl]
    exact ⟨rfl, Nat.le_refl _, id, fun _ _ _ _ => Iff.rfl⟩

theorem minted_steers {out : SteerRecords × Bool} (h : SteerRecords.Certified s.steers out) :
    Minted s (s.withSteers out) := by
  obtain ⟨steers, minted⟩ := out
  cases minted with
  | true => exact minted_bumped rfl h.onePerChat rfl
  | false =>
    refine ⟨rfl, Nat.le_refl _, h.onePerChat, ?_⟩
    intro _ hone reads item
    have hitems : ∀ item, item ∈ (s.withSteers (steers, false)).steerItems ↔
        item ∈ s.steerItems := by
      intro item
      rw [mem_steerItems hone, mem_steerItems (h.onePerChat hone)]
      simp only [withSteers, mintPending, Bool.false_eq_true, if_false, h.listed rfl]
    simp only [listedBy, List.mem_append]
    by_cases h3 : 3 ≤ reads
    · simp only [if_pos h3, hitems]
      rfl
    · simp only [if_neg h3]
      rfl

/-- Every step but a snapshot's read bumps the counter for what it changes. -/
theorem step_minted {event : PendingEvent} (hread : ∀ id, event ≠ .read id)
    (h : s.Announced event) : Minted s (s.step event) := by
  cases event with
  | addPerm id evt => exact minted_perms (by simp)
  | takePerm chatID id =>
    apply minted_perms
    simp only [PendingPerms.takeIfPresent]
    split
    · exact fun _ => rfl
    · simp
  | takePermissionOption chatID id optionID =>
    apply minted_perms
    simp only [PendingPerms.takePermissionOption]
    split
    · exact fun _ => rfl
    · split
      · simp
      · exact fun _ => rfl
  | clearPermsForChat chatID =>
    apply minted_perms
    simp only [PendingPerms.clearForChat, PendingPerms.clear]
    split
    · simp
    · exact fun _ => rfl
  | clearPermsForRun workflowID =>
    apply minted_perms
    simp only [PendingPerms.clearForRun, PendingPerms.clear]
    split
    · simp
    · exact fun _ => rfl
  | addAsk a => exact minted_asks s.asks.add_of_false
  | takeAsk workflowID askID =>
    apply minted_asks
    simp only [PendingRunAsks.takeIfPresent]
    split
    · exact fun _ => rfl
    · simp
  | restoreAsk a => exact minted_asks s.asks.add_of_false
  | takeRun workflowID =>
    exact minted_asks fun h => s.asks.take_of_nil (not_not.mp (of_decide_eq_false h))
  | takeNode workflowID nodeID =>
    exact minted_asks fun h => s.asks.take_of_nil (not_not.mp (of_decide_eq_false h))
  | clearAsksForChat chatID =>
    exact minted_asks fun h => s.asks.take_of_nil (not_not.mp (of_decide_eq_false h))
  | steer mint chat op => exact minted_steers (SteerRecords.call_certified mint chat op)
  | takeAgentRows chat => exact minted_steers (SteerRecords.takeAgentRows_certified chat)
  | turnStarted chat turnID => exact minted_steers (SteerRecords.turnStarted_certified chat turnID)
  | beginTeardown chat => exact minted_steers (SteerRecords.beginTeardown_certified chat)
  | endTeardown chat serial => exact minted_steers (SteerRecords.endTeardown_certified h)
  | setLead chat key => exact minted_steers (SteerRecords.setLead_certified chat key)
  | undoLead chat serial key => exact minted_steers (SteerRecords.undoLead_certified chat serial key)
  | read id => exact absurd rfl (hread id)

/-! ## The invariant -/

/-- A snapshot whose stamp is the counter's value holds what the stores that it read list. -/
structure Snapshot.Current (s : PendingState) (snap : Snapshot) : Prop where
  version : snap.version ≤ s.version
  items : snap.version = s.version →
    ∀ item, item ∈ snap.items ↔ item ∈ s.listedBy snap.reads

structure Sound (s : PendingState) : Prop where
  onePerChat : s.steers.OnePerChat
  current : ∀ id snap, s.snapshots id = some snap → Snapshot.Current s snap

/-- A snapshot's next read sees the store as it is. -/
theorem readNext_current {o : Option Snapshot} (h : ∀ snap, o = some snap → Snapshot.Current s snap) :
    Snapshot.Current s (s.readNext o) := by
  cases o with
  | none => exact ⟨Nat.le_refl _, fun _ _ => Iff.rfl⟩
  | some snap =>
    obtain ⟨hle, hitems⟩ := h snap rfl
    simp only [readNext]
    split
    · exact ⟨hle, fun _ item => by simp [listedBy]⟩
    · next hreads =>
      refine ⟨hle, fun hv item => ?_⟩
      have hprior := hitems hv item
      rw [hreads] at hprior
      simp only [listedBy, List.mem_append] at hprior ⊢
      simp [hprior]
    · next hreads =>
      refine ⟨hle, fun hv item => ?_⟩
      have hprior := hitems hv item
      rw [hreads] at hprior
      simp only [listedBy, List.mem_append] at hprior ⊢
      simp [hprior]
    · exact ⟨hle, hitems⟩

theorem Sound.minted {t : PendingState} (h : s.Sound) (ht : Minted s t) : t.Sound := by
  refine ⟨ht.onePerChat h.onePerChat, ?_⟩
  intro id snap hget
  rw [ht.snapshots] at hget
  obtain ⟨hle, hitems⟩ := h.current id snap hget
  refine ⟨Nat.le_trans hle ht.version, ?_⟩
  intro hv item
  -- the counter is where it was, so the stores list what they listed
  have hsame : t.version = s.version := by
    have := ht.version
    omega
  rw [ht.same hsame h.onePerChat]
  exact hitems (hv.trans hsame) item

theorem Sound.step (h : s.Sound) {event : PendingEvent} (ha : s.Announced event) :
    (s.step event).Sound := by
  by_cases hread : ∃ id, event = .read id
  · obtain ⟨id, rfl⟩ := hread
    refine ⟨h.onePerChat, ?_⟩
    intro id' snap hget
    by_cases hid : id' = id
    · rw [hid] at hget
      simp only [PendingState.step, Function.update_self, Option.some_inj] at hget
      obtain ⟨hle, hitems⟩ := readNext_current fun snap hsnap => h.current id snap hsnap
      rw [← hget]
      exact ⟨hle, hitems⟩
    · simp only [PendingState.step, Function.update_of_ne hid] at hget
      obtain ⟨hle, hitems⟩ := h.current id' snap hget
      exact ⟨hle, hitems⟩
  · exact h.minted (step_minted (fun id hid => hread ⟨id, hid⟩) ha)

theorem sound_empty : Sound {} where
  onePerChat := List.nodup_nil
  current := nofun

/-- In every run whose teardowns forget records that list nothing, the pending version of every
state is true. -/
theorem pending_version_certified {events : List PendingEvent}
    (h : Along PendingState.step Announced {} events) : (run events).Certified := by
  have hsound : (run events).Sound := h.invariant sound_empty fun _ _ hs ha => hs.step ha
  intro id snap hget hreads hversion item
  have hitems := (hsound.current id snap hget).items hversion item
  rw [hreads] at hitems
  exact hitems

def agentRow : SteerQueued := { steerID := "steer-1", text := "step done", origin := .agent }

/-- An agent row and a permission, read by a snapshot; the teardown's end then forgets the record
that its beginning marked. -/
def tornDown : List PendingEvent :=
  [.steer toString "c1" (.waiting agentRow),
    .addPerm 7 { chatID := "c1", payload := .permission { requestID := 7, options := [] } },
    .read 0, .read 0, .read 0, .read 0, .beginTeardown "c1", .endTeardown "c1" 0, .read 1]

theorem pending_version_certified_of_tornDown : (run tornDown).Certified := by
  apply @pending_version_certified tornDown
  decide +kernel

/-- A second teardown began before the first one's end, and ends after a late fold created the
chat's record again and a snapshot read it. -/
def overlapping : List PendingEvent :=
  [.beginTeardown "c1", .beginTeardown "c1", .endTeardown "c1" 0,
    .steer toString "c1" (.waiting agentRow), .read 0, .read 0, .read 0, .read 0,
    .endTeardown "c1" 1]

/-- The snapshot's stamp is the counter's value, and its row is listed no more. -/
theorem overlapping_unchanged_false : ¬ (run overlapping).Certified := by
  intro h
  have hsnap : ((run overlapping).snapshots 0).any (fun snap =>
      snap.reads = 3 ∧ snap.version = (run overlapping).version ∧ snap.items ≠ []) = true := by
    decide +kernel
  have hlisted : (run overlapping).listed = [] := by decide +kernel
  obtain ⟨snap, hget, hp⟩ := (Option.any_eq_true ..).mp hsnap
  rw [decide_eq_true_eq] at hp
  obtain ⟨hreads, hversion, hne⟩ := hp
  obtain ⟨item, hmem⟩ := List.exists_mem_of_ne_nil _ hne
  have hin := (h 0 snap hget hreads hversion item).mp hmem
  rw [hlisted] at hin
  cases hin

end PendingState
end Marotte.Pending
