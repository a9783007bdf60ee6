import Marotte.LiveRuns.Inventory
import Marotte.Library.Feed

/-! # When the browser's inventory of live runs converges

An adopted list replaces every row, so it must not be older than a frame applied since it was
taken; and a lease that comes, stays or goes must be stated by the frames as the server holds it.
-/
namespace Marotte.LiveRuns

/-- The chat under which the server holds a run live, the browser shows it and a list names it. -/
def leaseChat (leases : List Lease) (id : String) : Option String :=
  (Keyed.find Lease.workflowID leases id).map Lease.chatID

def rowChat (rows : List LiveRunRow) (id : String) : Option String :=
  (Keyed.find LiveRunRow.id rows id).map LiveRunRow.chat

def runChat (runs : List LiveRun) (id : String) : Option String :=
  (Keyed.find LiveRun.workflowID runs id).map LiveRun.chatID

/-- A lease counts once a frame has announced its run. -/
def announced (leases : List Lease) (launching : List String) (id : String) : Option String :=
  if id ∈ launching then none else leaseChat leases id

namespace RunsState

variable {s : RunsState} {id : String}

/-- Once every frame is delivered, every launch announced and every read settled, at least one of
them with a list, the browser holds exactly the runs that the server holds live, each with its
chat. -/
def Converged (s : RunsState) : Prop :=
  s.applied = s.published.length → s.launching = [] → s.calls = [] → s.adopted = true →
    ∀ id, rowChat s.liveRunChats id = leaseChat s.leases id

/-- A frame about a run is still to come behind a position. -/
def Awaited (s : RunsState) (position : ℕ) (id : String) : Prop :=
  ∃ frame ∈ s.published.drop position, frame.workflowID = id

instance (s : RunsState) (position : ℕ) (id : String) : Decidable (s.Awaited position id) :=
  inferInstanceAs (Decidable (∃ frame ∈ s.published.drop position, frame.workflowID = id))

/-- A list that is on its way leaves a run out, or a frame since will speak of it. -/
def Omitted (s : RunsState) (id : String) : Inventory → Prop
  | .stated taken runs => s.Awaited taken id ∨ runChat runs id = none
  | .withheld => True

instance (s : RunsState) (id : String) (a : Inventory) : Decidable (s.Omitted id a) :=
  match a with
  | .stated taken runs => inferInstanceAs (Decidable (s.Awaited taken id ∨ runChat runs id = none))
  | .withheld => isTrue trivial

/-- Neither the browser nor a list on its way holds a run. -/
def Unheard (s : RunsState) (id : String) : Prop :=
  (s.Awaited s.applied id ∨ rowChat s.liveRunChats id = none) ∧
    ∀ c ∈ s.calls, ∀ a ∈ c.answer, s.Omitted id a

instance (s : RunsState) (id : String) : Decidable (s.Unheard id) :=
  inferInstanceAs (Decidable (_ ∧ ∀ c ∈ s.calls, ∀ a ∈ c.answer, s.Omitted id a))

/-- The frames applied since a list was taken are superseded, or left what the list states. -/
def Spared (s : RunsState) : Inventory → Prop
  | .stated taken runs => ∀ frame ∈ (s.published.take s.applied).drop taken,
      s.Awaited s.applied frame.workflowID ∨
        runChat runs frame.workflowID = rowChat s.liveRunChats frame.workflowID
  | .withheld => True

instance (s : RunsState) (a : Inventory) : Decidable (s.Spared a) :=
  match a with
  | .stated taken _ =>
    inferInstanceAs (Decidable (∀ frame ∈ (s.published.take s.applied).drop taken, _ ∨ _))
  | .withheld => isTrue trivial

/-- An ask that names no chat is of a run that the browser knows no chat of. -/
def Parentless (s : RunsState) : RunFrame → Prop
  | .runInputNeeded chatID id => namedChat chatID = "" → s.runChatID id = ""
  | _ => True

instance (s : RunsState) (frame : RunFrame) : Decidable (s.Parentless frame) :=
  match frame with
  | .runInputNeeded chatID id =>
    inferInstanceAs (Decidable (namedChat chatID = "" → s.runChatID id = ""))
  | .runStarted .. | .runProgress .. | .runFinished .. => isTrue trivial

/-- Frames name the chat of the lease and come while there is one; a lease goes with a frame or
unheard of; a list that lands is spared by the frames since. -/
def Kept (s : RunsState) : RunsEvent → Prop
  | .releases id => leaseChat s.leases id = none ∨ id ∈ s.launching ∧ s.Unheard id
  | .starts chatID id => id ≠ "" → (leaseChat s.leases id).getD (namedChat chatID) = chatID
  | .progresses chatID id _ => id ≠ "" → leaseChat s.leases id = some chatID
  | .asks chatID id => id ≠ "" → leaseChat s.leases id = some (namedChat chatID)
  | .completes chatID id status => id ≠ "" → terminal status = false →
      leaseChat s.leases id = if status = statusPaused then some chatID else none
  | .delivers => ∀ frame ∈ s.published[s.applied]?, s.Parentless frame
  | .resolves serial => ∀ c ∈ s.call serial, ∀ a ∈ c.answer, s.Spared a
  | _ => True

instance (s : RunsState) (e : RunsEvent) : Decidable (s.Kept e) :=
  match e with
  | .releases id =>
    inferInstanceAs (Decidable (leaseChat s.leases id = none ∨ id ∈ s.launching ∧ s.Unheard id))
  | .starts _ _ => inferInstanceAs (Decidable (_ ≠ _ → _ = _))
  | .progresses _ _ _ => inferInstanceAs (Decidable (_ ≠ _ → _ = _))
  | .asks _ _ => inferInstanceAs (Decidable (_ ≠ _ → _ = _))
  | .completes _ _ _ => inferInstanceAs (Decidable (_ ≠ _ → _ = _ → _ = _))
  | .delivers => inferInstanceAs (Decidable (∀ frame ∈ s.published[s.applied]?, s.Parentless frame))
  | .resolves serial =>
    inferInstanceAs (Decidable (∀ c ∈ s.call serial, ∀ a ∈ c.answer, s.Spared a))
  | .launches _ | .bounds _ _ | .connects | .rebuilds | .answers _ | .fails _ | .forgets _ =>
    isTrue trivial

/-- A server with its leases and a browser that has just loaded. -/
structure Started (s : RunsState) : Prop where
  leases : (s.leases.map Lease.workflowID).Nodup
  blank : leaseChat s.leases "" = none
  launching : s.launching = []
  published : s.published = []
  applied : s.applied = 0
  calls : s.calls = []
  adopted : s.adopted = false

/-- What is known of a run at a position of the frames is what the server has announced, once no
frame about it is to come. -/
def Settled (s : RunsState) (known : String → Option String) (position : ℕ) (id : String) : Prop :=
  Feed.Settled RunFrame.workflowID s.published (announced s.leases s.launching) known position id

/-- The browser has been told of a run, or of all. -/
def Told (s : RunsState) (id : String) : Prop :=
  s.adopted = true ∨ ∃ frame ∈ s.published.take s.applied, frame.workflowID = id

structure ListSound (s : RunsState) (taken : ℕ) (runs : List LiveRun) : Prop where
  le : taken ≤ s.published.length
  nodup : (runs.map LiveRun.workflowID).Nodup
  blank : runChat runs "" = none
  settled : ∀ id, id ∉ s.launching → s.Settled (runChat runs) taken id

structure Sound (s : RunsState) : Prop where
  leases : (s.leases.map Lease.workflowID).Nodup
  blank : leaseChat s.leases "" = none
  launching : s.launching.Nodup
  launched : ∀ id ∈ s.launching, leaseChat s.leases id ≠ none
  named : ∀ frame ∈ s.published, frame.workflowID ≠ ""
  current : Feed.Current RunFrame.workflowID RunFrame.states s.published
    (announced s.leases s.launching)
  applied : s.applied ≤ s.published.length
  rows : ∀ id, id ∉ s.launching → s.Told id → s.Settled (rowChat s.liveRunChats) s.applied id
  lists : ∀ c ∈ s.calls, ∀ taken runs, c.answer = some (.stated taken runs) →
    s.ListSound taken runs

theorem Started.sound (h : s.Started) : s.Sound where
  leases := h.leases
  blank := h.blank
  launching := by
    rw [h.launching]
    exact List.nodup_nil
  launched := by simp [h.launching]
  named := by simp [h.published]
  current := by
    rw [h.published]
    exact Feed.current_nil _
  applied := by
    rw [h.applied]
    exact Nat.zero_le _
  rows id _ htold := by
    rcases htold with hadopted | ⟨frame, hframe, -⟩
    · rw [h.adopted] at hadopted
      cases hadopted
    · rw [h.published, List.take_nil] at hframe
      cases hframe
  lists := by simp [h.calls]

theorem announced_of_mem {leases : List Lease} {launching : List String} (h : id ∈ launching) :
    announced leases launching id = none := if_pos h

theorem announced_of_not_mem {leases : List Lease} {launching : List String}
    (h : id ∉ launching) : announced leases launching id = leaseChat leases id := if_neg h

theorem awaited_iff {position : ℕ} : s.Awaited position id ↔
    ¬ Feed.Untouched RunFrame.workflowID (s.published.drop position) id := by
  simp [Awaited, Feed.Untouched]

theorem announced_congr {leases leases' : List Lease} {launching launching' : List String}
    (hmem : id ∈ launching' ↔ id ∈ launching) (hchat : leaseChat leases' id = leaseChat leases id) :
    announced leases' launching' id = announced leases launching id := by
  simp only [announced, hmem, hchat]

/-! ## Chats of leases and of lists -/

theorem leaseChat_set_self (leases : List Lease) (l : Lease) :
    leaseChat (Keyed.set Lease.workflowID leases l) l.workflowID = some l.chatID := by
  rw [leaseChat, Keyed.find_set_key, Option.map_some]

theorem leaseChat_set_of_ne {leases : List Lease} {l : Lease} (hne : id ≠ l.workflowID) :
    leaseChat (Keyed.set Lease.workflowID leases l) id = leaseChat leases id := by
  rw [leaseChat, Keyed.find_set_of_ne hne, leaseChat]

theorem leaseChat_erase_self (leases : List Lease) (id : String) :
    leaseChat (Keyed.erase Lease.workflowID leases id) id = none := by
  rw [leaseChat, Keyed.find_erase_self, Option.map_none]

theorem leaseChat_erase_of_ne {leases : List Lease} {other : String} (hne : other ≠ id) :
    leaseChat (Keyed.erase Lease.workflowID leases id) other = leaseChat leases other := by
  rw [leaseChat, Keyed.find_erase_of_ne hne, leaseChat]

/-- The deadline of a lease is not its chat. -/
theorem leaseChat_boundLease (s : RunsState) (id : String) (bounded : Bool) (other : String) :
    leaseChat (s.boundLease id bounded).leases other = leaseChat s.leases other := by
  rw [boundLease]
  split
  · next l hl =>
    have hkey : l.workflowID = id := Keyed.key_of_find hl
    by_cases hother : other = l.workflowID
    · have hset := leaseChat_set_self s.leases { l with bounded }
      rw [hother, hset, leaseChat, hkey]
      rw [lease] at hl
      rw [hl, Option.map_some]
    · exact leaseChat_set_of_ne hother
  · rfl

theorem runChat_liveRunRows (s : RunsState) (id : String) :
    runChat s.liveRunRows id = leaseChat s.leases id := by
  rw [runChat, liveRunRows, leaseChat, Keyed.find, Keyed.find, List.find?_map, Option.map_map]
  rfl

theorem keys_liveRunRows (s : RunsState) :
    s.liveRunRows.map LiveRun.workflowID = s.leases.map Lease.workflowID := by
  rw [liveRunRows, List.map_map]
  rfl

/-! ## What a server's operation leaves alone -/

theorem boundLease_eq (s : RunsState) (id : String) (bounded : Bool) :
    s.boundLease id bounded = { s with leases := (s.boundLease id bounded).leases } := by
  rw [boundLease]
  split
  · rfl
  · rfl

theorem nodup_boundLease (h : (s.leases.map Lease.workflowID).Nodup) (id : String)
    (bounded : Bool) : ((s.boundLease id bounded).leases.map Lease.workflowID).Nodup := by
  rw [boundLease]
  split
  · exact Keyed.nodup_set h
  · exact h

theorem broadcast_of_ne {frame : RunFrame} (h : frame.workflowID ≠ "") :
    s.broadcast frame = { s with
      launching := s.launching.erase frame.workflowID
      published := s.published ++ [frame] } := if_neg h

/-- The lease that a start leaves: the one held, or one of the chat that the frame names. -/
theorem observeStart_eq (hs : (s.leases.map Lease.workflowID).Nodup) (hid : id ≠ "")
    (chatID : String) : ∃ leases : List Lease, (leases.map Lease.workflowID).Nodup ∧
      leaseChat leases id = some ((leaseChat s.leases id).getD (namedChat chatID)) ∧
      (∀ other, other ≠ id → leaseChat leases other = leaseChat s.leases other) ∧
      s.observeStart chatID id = { s with
        leases
        launching := s.launching.erase id
        published := s.published ++ [.runStarted chatID id] } := by
  have hframe : (RunFrame.runStarted chatID id).workflowID ≠ "" := hid
  rw [observeStart]
  cases hheld : s.lease id with
  | some l =>
    have hlease : leaseChat s.leases id = some l.chatID := by
      rw [lease] at hheld
      rw [leaseChat, hheld, Option.map_some]
    refine ⟨(s.boundLease id true).leases, nodup_boundLease hs id true, ?_, ?_, ?_⟩
    · rw [leaseChat_boundLease, hlease, Option.getD_some]
    · intro other _
      exact leaseChat_boundLease s id true other
    · rw [Option.isSome_some, if_pos rfl, broadcast_of_ne hframe, boundLease_eq]
      rfl
  | none =>
    have hlease : leaseChat s.leases id = none := by
      rw [lease] at hheld
      rw [leaseChat, hheld, Option.map_none]
    have hgrant : s.grantLease id (namedChat chatID) = { s with
        leases := Keyed.set Lease.workflowID s.leases ⟨id, namedChat chatID, false⟩ } := if_neg hid
    refine ⟨((s.grantLease id (namedChat chatID)).boundLease id true).leases, ?_, ?_, ?_, ?_⟩
    · apply nodup_boundLease
      rw [hgrant]
      exact Keyed.nodup_set hs
    · rw [leaseChat_boundLease, hgrant, hlease, Option.getD_none]
      exact leaseChat_set_self s.leases ⟨id, namedChat chatID, false⟩
    · intro other hne
      rw [leaseChat_boundLease, hgrant]
      exact leaseChat_set_of_ne hne
    · rw [Option.isSome_none, if_neg Bool.false_ne_true, broadcast_of_ne hframe, boundLease_eq,
        hgrant]
      rfl

/-! ## The browser's handlers -/

theorem rowChat_set_self (rows : List LiveRunRow) (row : LiveRunRow) :
    rowChat (Keyed.set LiveRunRow.id rows row) row.id = some row.chat := by
  rw [rowChat, Keyed.find_set_key, Option.map_some]

theorem rowChat_set_of_ne {rows : List LiveRunRow} {row : LiveRunRow} (hne : id ≠ row.id) :
    rowChat (Keyed.set LiveRunRow.id rows row) id = rowChat rows id := by
  rw [rowChat, Keyed.find_set_of_ne hne, rowChat]

theorem noteRunChat_eq (s : RunsState) (id chatID : String) :
    s.noteRunChat id chatID = { s with launchedBy := (s.noteRunChat id chatID).launchedBy } := by
  rw [noteRunChat]
  split
  · rfl
  · rfl

theorem noteRunLive_eq (s : RunsState) (id chat : String) (executing : Bool) :
    s.noteRunLive id chat executing =
      { s with liveRunChats := (s.noteRunLive id chat executing).liveRunChats } := by
  rw [noteRunLive]
  split
  · rfl
  · rfl

theorem rowChat_noteRunLive_self (s : RunsState) (hid : id ≠ "") (chat : String)
    (executing : Bool) : rowChat (s.noteRunLive id chat executing).liveRunChats id = some chat := by
  rw [noteRunLive, if_neg hid]
  exact rowChat_set_self s.liveRunChats ⟨id, chat, executing⟩

theorem rowChat_noteRunLive_of_ne {other : String} (hne : other ≠ id) (chat : String)
    (executing : Bool) :
    rowChat (s.noteRunLive id chat executing).liveRunChats other =
      rowChat s.liveRunChats other := by
  rw [noteRunLive]
  split
  · rfl
  · exact rowChat_set_of_ne hne

theorem noteRunChat_rows (s : RunsState) (id chatID : String) :
    (s.noteRunChat id chatID).liveRunChats = s.liveRunChats := by
  rw [noteRunChat_eq]

theorem rowChat_noteRunSettled_self (s : RunsState) (id : String) :
    rowChat (s.noteRunSettled id).liveRunChats id = none := by
  rw [noteRunSettled, rowChat, Keyed.find_erase_self, Option.map_none]

theorem rowChat_noteRunSettled_of_ne {other : String} (hne : other ≠ id) :
    rowChat (s.noteRunSettled id).liveRunChats other = rowChat s.liveRunChats other := by
  rw [noteRunSettled, rowChat, Keyed.find_erase_of_ne hne, rowChat]

/-- The chat a run is known by behind an envelope that names one, or that names none for a run that
had none. -/
theorem runChatID_noteRunChat (hid : id ≠ "") {chatID : String}
    (h : namedChat chatID = "" → s.runChatID id = "") :
    (s.noteRunChat id chatID).runChatID id = namedChat chatID := by
  by_cases hnamed : chatID = "" ∨ isRunChat chatID
  · have hnone : namedChat chatID = "" := if_pos hnamed
    rw [noteRunChat, if_pos (.inr hnamed), h hnone, hnone]
  · have hsome : namedChat chatID = chatID := if_neg hnamed
    have hkey : ¬ (id = "" ∨ chatID = "" ∨ isRunChat chatID) := by
      rw [or_iff_right hid]
      exact hnamed
    have hset : Keyed.find Prod.fst (Keyed.set Prod.fst s.launchedBy (id, chatID)) id =
        some (id, chatID) := Keyed.find_set_key
    rw [noteRunChat, if_neg hkey, runChatID, hset, hsome]
    rfl

/-- A frame's handler leaves of the run what the frame states. -/
theorem rowChat_handle_self {frame : RunFrame} (hid : frame.workflowID ≠ "")
    (h : s.Parentless frame) :
    rowChat (s.handle frame).liveRunChats frame.workflowID = frame.states := by
  cases frame with
  | runStarted chatID id => exact rowChat_noteRunLive_self _ hid chatID true
  | runProgress chatID id kind => exact rowChat_noteRunLive_self _ hid chatID _
  | runInputNeeded chatID id =>
    change id ≠ "" at hid
    have hchat := rowChat_noteRunLive_self (s.noteRunChat id chatID) hid
      ((s.noteRunChat id chatID).runChatID id) false
    rw [runChatID_noteRunChat hid h] at hchat
    rw [handle, runChatID_noteRunChat hid h]
    exact hchat
  | runFinished chatID id status =>
    rw [handle, RunFrame.states]
    split
    · exact rowChat_noteRunLive_self _ hid chatID false
    · exact rowChat_noteRunSettled_self _ id

theorem rowChat_handle_of_ne {frame : RunFrame} (hne : id ≠ frame.workflowID) :
    rowChat (s.handle frame).liveRunChats id = rowChat s.liveRunChats id := by
  cases frame with
  | runStarted chatID run =>
    change id ≠ run at hne
    rw [handle, rowChat_noteRunLive_of_ne hne, noteRunChat_rows]
  | runProgress chatID run kind =>
    change id ≠ run at hne
    rw [handle, rowChat_noteRunLive_of_ne hne, noteRunChat_rows]
  | runInputNeeded chatID run =>
    change id ≠ run at hne
    rw [handle, rowChat_noteRunLive_of_ne hne, noteRunChat_rows]
  | runFinished chatID run status =>
    change id ≠ run at hne
    rw [handle]
    split
    · rw [rowChat_noteRunLive_of_ne hne, noteRunChat_rows]
    · rw [rowChat_noteRunSettled_of_ne hne, noteRunChat_rows]

/-- A handler writes the browser's rows and the chats it knows runs by. -/
theorem handle_eq (s : RunsState) (frame : RunFrame) :
    s.handle frame = { s with
      liveRunChats := (s.handle frame).liveRunChats
      launchedBy := (s.handle frame).launchedBy } := by
  cases frame with
  | runStarted chatID id => rw [handle, noteRunLive_eq, noteRunChat_eq]
  | runProgress chatID id kind => rw [handle, noteRunLive_eq, noteRunChat_eq]
  | runInputNeeded chatID id => rw [handle, noteRunLive_eq, noteRunChat_eq]
  | runFinished chatID id status =>
    rw [handle]
    split
    · rw [noteRunLive_eq, noteRunChat_eq]
    · rw [noteRunSettled, noteRunChat_eq]

theorem adoptRow_eq (s : RunsState) (r : LiveRun) :
    s.adoptRow r = { s with
      liveRunChats := (s.adoptRow r).liveRunChats
      launchedBy := (s.adoptRow r).launchedBy } := by
  rw [adoptRow]
  split
  · rfl
  · rw [noteRunChat_eq, noteRunLive_eq]

theorem foldl_adoptRow_eq (s : RunsState) (rows : List LiveRun) :
    rows.foldl adoptRow s = { s with
      liveRunChats := (rows.foldl adoptRow s).liveRunChats
      launchedBy := (rows.foldl adoptRow s).launchedBy } := by
  induction rows generalizing s with
  | nil => rfl
  | cons r rows ih =>
    rw [List.foldl_cons, ih, adoptRow_eq]

theorem adoptLiveRuns_eq (s : RunsState) (rows : List LiveRun) :
    s.adoptLiveRuns rows = { s with
      liveRunChats := (s.adoptLiveRuns rows).liveRunChats
      launchedBy := (s.adoptLiveRuns rows).launchedBy
      adopted := true } := by
  rw [adoptLiveRuns, foldl_adoptRow_eq]

theorem rowChat_adoptRow_self (s : RunsState) {r : LiveRun} (hid : r.workflowID ≠ "") :
    rowChat (s.adoptRow r).liveRunChats r.workflowID = some r.chatID := by
  rw [adoptRow, if_neg hid, noteRunChat_rows, rowChat_noteRunLive_self _ hid]

theorem rowChat_adoptRow_of_ne {r : LiveRun} (hne : id ≠ r.workflowID) :
    rowChat (s.adoptRow r).liveRunChats id = rowChat s.liveRunChats id := by
  rw [adoptRow]
  split
  · rfl
  · rw [noteRunChat_rows, rowChat_noteRunLive_of_ne hne]

theorem rowChat_foldl_of_not_mem {rows : List LiveRun} (h : id ∉ rows.map LiveRun.workflowID) :
    rowChat (rows.foldl adoptRow s).liveRunChats id = rowChat s.liveRunChats id := by
  induction rows generalizing s with
  | nil => rfl
  | cons r rows ih =>
    rw [List.map_cons, List.mem_cons, not_or] at h
    rw [List.foldl_cons, ih h.2, rowChat_adoptRow_of_ne h.1]

theorem rowChat_foldl {rows : List LiveRun} (hnodup : (rows.map LiveRun.workflowID).Nodup)
    (hblank : "" ∉ rows.map LiveRun.workflowID) :
    rowChat (rows.foldl adoptRow s).liveRunChats id =
      (runChat rows id).or (rowChat s.liveRunChats id) := by
  induction rows generalizing s with
  | nil => rfl
  | cons r rows ih =>
    rw [List.map_cons, List.nodup_cons] at hnodup
    rw [List.map_cons, List.mem_cons, not_or] at hblank
    rw [List.foldl_cons]
    by_cases hid : id = r.workflowID
    · subst hid
      have hhead : runChat (r :: rows) r.workflowID = some r.chatID := by
        rw [runChat, Keyed.find, List.find?_cons_of_pos (by simp), Option.map_some]
      rw [rowChat_foldl_of_not_mem hnodup.1, rowChat_adoptRow_self s (Ne.symm hblank.1), hhead,
        Option.some_or]
    · have htail : runChat (r :: rows) id = runChat rows id := by
        rw [runChat, Keyed.find, List.find?_cons_of_neg (by simpa using Ne.symm hid), runChat,
          Keyed.find]
      rw [ih hnodup.2 hblank.2, rowChat_adoptRow_of_ne hid, htail]

/-- An adopted list is what the browser then shows. -/
theorem rowChat_adoptLiveRuns {rows : List LiveRun}
    (hnodup : (rows.map LiveRun.workflowID).Nodup) (hblank : runChat rows "" = none) :
    rowChat (s.adoptLiveRuns rows).liveRunChats id = runChat rows id := by
  rw [runChat, Option.map_eq_none_iff, Keyed.find_eq_none] at hblank
  rw [adoptLiveRuns, rowChat_foldl hnodup hblank]
  exact Option.or_none

/-! ## The steps -/

/-- A frame just published is still to come wherever one stands. -/
theorem settled_published {log : List RunFrame} {frame : RunFrame} {position : ℕ}
    (h : position ≤ log.length) (source known : String → Option String) :
    Feed.Settled RunFrame.workflowID (log ++ [frame]) source known position
      frame.workflowID := by
  intro huntouched
  rw [Feed.drop_concat h, Feed.untouched_append, Feed.untouched_singleton] at huntouched
  exact absurd rfl huntouched.2

namespace Sound

/-- The server writes a lease and publishes the frame that states it. -/
theorem publishes (h : s.Sound) {leases : List Lease} {frame : RunFrame}
    (hid : frame.workflowID ≠ "") (hnodup : (leases.map Lease.workflowID).Nodup)
    (hself : leaseChat leases frame.workflowID = frame.states)
    (hother : ∀ id, id ≠ frame.workflowID → leaseChat leases id = leaseChat s.leases id) :
    ({ s with
      leases
      launching := s.launching.erase frame.workflowID
      published := s.published ++ [frame] }).Sound := by
  have hgone : frame.workflowID ∉ s.launching.erase frame.workflowID :=
    h.launching.not_mem_erase
  have hannounced : ∀ id, id ≠ frame.workflowID →
      announced leases (s.launching.erase frame.workflowID) id =
        announced s.leases s.launching id := by
    intro id hne
    exact announced_congr (List.mem_erase_of_ne hne) (hother id hne)
  have hstill : ∀ {id}, id ≠ frame.workflowID → id ∉ s.launching.erase frame.workflowID →
      id ∉ s.launching := by
    intro id hne hmem
    rwa [List.mem_erase_of_ne hne] at hmem
  constructor
  · exact hnodup
  · exact (hother "" (Ne.symm hid)).trans h.blank
  · exact h.launching.erase _
  · intro id hmem
    have hne : id ≠ frame.workflowID := fun heq => hgone (heq ▸ hmem)
    rw [hother id hne]
    exact h.launched id (List.mem_of_mem_erase hmem)
  · intro other hmem
    rcases List.mem_append.mp hmem with hold | hnew
    · exact h.named other hold
    · rw [List.mem_singleton.mp hnew]
      exact hid
  · apply h.current.publish
    · rw [announced_of_not_mem hgone, hself]
    · exact hannounced
  · rw [List.length_append]
    exact Nat.le_add_right_of_le h.applied
  · intro id hmem htold
    by_cases hne : id = frame.workflowID
    · subst hne
      exact settled_published h.applied _ _
    · have htold' : s.Told id := by
        rw [Told] at htold
        dsimp only at htold
        rwa [List.take_append_of_le_length h.applied] at htold
      exact (h.rows id (hstill hne hmem) htold').publish h.applied hannounced
  · intro c hc taken runs hanswer
    have hlist := h.lists c hc taken runs hanswer
    constructor
    · rw [List.length_append]
      exact Nat.le_add_right_of_le hlist.le
    · exact hlist.nodup
    · exact hlist.blank
    · intro id hmem
      by_cases hne : id = frame.workflowID
      · subst hne
        exact settled_published hlist.le _ _
      · exact (hlist.settled id (hstill hne hmem)).publish hlist.le hannounced

/-- The server writes a lease with no frame; what was announced stays so, and a launch that is
given up was not heard of. -/
theorem writes (h : s.Sound) {leases : List Lease} {launching : List String}
    (hnodup : (leases.map Lease.workflowID).Nodup) (hblank : leaseChat leases "" = none)
    (hlaunching : launching.Nodup) (hlaunched : ∀ id ∈ launching, leaseChat leases id ≠ none)
    (hsame : announced leases launching = announced s.leases s.launching)
    (hleft : ∀ id ∈ s.launching, id ∉ launching → s.Unheard id) :
    ({ s with leases, launching }).Sound := by
  constructor
  · exact hnodup
  · exact hblank
  · exact hlaunching
  · exact hlaunched
  · exact h.named
  · rw [hsame]
    exact h.current
  · exact h.applied
  · intro id hmem htold
    rw [Settled]
    dsimp only
    rw [hsame]
    by_cases hlaunch : id ∈ s.launching
    · intro huntouched
      rw [announced_of_mem hlaunch]
      rcases (hleft id hlaunch hmem).1 with hawaited | hnone
      · exact absurd huntouched (awaited_iff.mp hawaited)
      · exact hnone
    · exact h.rows id hlaunch htold
  · intro c hc taken runs hanswer
    have hlist := h.lists c hc taken runs hanswer
    refine ⟨hlist.le, hlist.nodup, hlist.blank, ?_⟩
    intro id hmem
    rw [Settled]
    dsimp only
    rw [hsame]
    by_cases hlaunch : id ∈ s.launching
    · intro huntouched
      rw [announced_of_mem hlaunch]
      rcases (hleft id hlaunch hmem).2 c hc _ hanswer with hawaited | hnone
      · exact absurd huntouched (awaited_iff.mp hawaited)
      · exact hnone
    · exact hlist.settled id hlaunch

theorem bounds (h : s.Sound) (id : String) (bounded : Bool) : (s.boundLease id bounded).Sound := by
  have hchats : leaseChat (s.boundLease id bounded).leases = leaseChat s.leases := by
    funext other
    exact leaseChat_boundLease s id bounded other
  rw [boundLease_eq]
  apply h.writes
  · exact nodup_boundLease h.leases id bounded
  · rw [hchats]
    exact h.blank
  · exact h.launching
  · rw [hchats]
    exact h.launched
  · funext other
    rw [announced, announced, hchats]
  · intro other hmem hleft
    exact absurd hmem hleft

theorem launches (h : s.Sound) (id : String) : (s.launch id).Sound := by
  rw [launch]
  split
  · exact h
  · next hnone =>
    split
    · exact h
    next hid =>
    have hfree : leaseChat s.leases id = none := by
      rw [lease] at hnone
      rw [leaseChat, hnone, Option.map_none]
    have hnew : id ∉ s.launching := fun hmem => h.launched id hmem hfree
    have hother : ∀ other, other ≠ id →
        leaseChat (Keyed.set Lease.workflowID s.leases ⟨id, "", false⟩) other =
          leaseChat s.leases other := fun other hne => leaseChat_set_of_ne hne
    rw [grantLease, if_neg hid]
    apply h.writes
    · exact Keyed.nodup_set h.leases
    · rw [hother "" (Ne.symm hid)]
      exact h.blank
    · exact List.nodup_cons.mpr ⟨hnew, h.launching⟩
    · intro other hmem
      rcases List.mem_cons.mp hmem with rfl | hmem
      · have hset := leaseChat_set_self s.leases ⟨other, "", false⟩
        dsimp only at hset
        rw [hset]
        exact Option.some_ne_none _
      · have hne : other ≠ id := fun heq => hnew (heq ▸ hmem)
        rw [hother other hne]
        exact h.launched other hmem
    · funext other
      by_cases hne : other = id
      · subst hne
        rw [announced_of_mem (List.mem_cons_self ..), announced_of_not_mem hnew, hfree]
      · apply announced_congr _ (hother other hne)
        rw [List.mem_cons, or_iff_right hne]
    · intro other hmem hleft
      exact absurd (List.mem_cons_of_mem _ hmem) hleft

theorem releases (h : s.Sound) (hkept : s.Kept (.releases id)) : (s.releaseLease id).Sound := by
  have hgone : id ∉ s.launching.erase id := h.launching.not_mem_erase
  have hother : ∀ other, other ≠ id →
      leaseChat (Keyed.erase Lease.workflowID s.leases id) other = leaseChat s.leases other :=
    fun other hne => leaseChat_erase_of_ne hne
  have hquiet : announced s.leases s.launching id = none := by
    rcases hkept with hnone | ⟨hlaunch, -⟩
    · rw [announced, hnone, ite_self]
    · exact announced_of_mem hlaunch
  rw [releaseLease]
  apply h.writes
  · exact Keyed.nodup_erase h.leases
  · by_cases hid : id = ""
    · subst hid
      exact leaseChat_erase_self s.leases ""
    · rw [hother "" (Ne.symm hid)]
      exact h.blank
  · exact h.launching.erase _
  · intro other hmem
    have hne : other ≠ id := fun heq => hgone (heq ▸ hmem)
    rw [hother other hne]
    exact h.launched other (List.mem_of_mem_erase hmem)
  · funext other
    by_cases hne : other = id
    · subst hne
      rw [announced_of_not_mem hgone, leaseChat_erase_self, hquiet]
    · exact announced_congr (List.mem_erase_of_ne hne) (hother other hne)
  · intro other hmem hleft
    by_cases hne : other = id
    · subst hne
      rcases hkept with hnone | ⟨-, hunheard⟩
      · exact absurd hnone (h.launched other hmem)
      · exact hunheard
    · exact absurd ((List.mem_erase_of_ne hne).mpr hmem) hleft

/-- A frame about a run whose lease it states. -/
theorem broadcasts (h : s.Sound) {frame : RunFrame}
    (hstates : frame.workflowID ≠ "" → leaseChat s.leases frame.workflowID = frame.states) :
    (s.broadcast frame).Sound := by
  rw [broadcast]
  split
  · exact h
  · next hid => exact h.publishes hid h.leases (hstates hid) fun _ _ => rfl

theorem starts (h : s.Sound) {chatID : String} (hkept : s.Kept (.starts chatID id)) :
    (s.observeStart chatID id).Sound := by
  by_cases hid : id = ""
  · subst hid
    have hblank : (s.lease "").isSome = false := by
      have hnone := h.blank
      rw [leaseChat, Option.map_eq_none_iff] at hnone
      rw [lease, hnone]
      rfl
    have hsame : s.grantLease "" (namedChat chatID) = s := if_pos rfl
    rw [observeStart, hblank, hsame, broadcast, if_pos (by rfl)]
    exact h.bounds "" true
  · obtain ⟨leases, hnodup, hself, hother, heq⟩ := observeStart_eq h.leases hid chatID
    rw [hkept hid] at hself
    have hframe : (RunFrame.runStarted chatID id).workflowID ≠ "" := hid
    rw [heq]
    exact h.publishes hframe hnodup hself hother

theorem progresses (h : s.Sound) {chatID : String} {kind : RunProgressKind}
    (hkept : s.Kept (.progresses chatID id kind)) :
    (s.observeProgress chatID id kind).Sound := by
  rw [observeProgress]
  split
  · apply (h.bounds id false).broadcasts
    intro hid
    rw [leaseChat_boundLease]
    exact hkept hid
  · exact h.broadcasts hkept

theorem completes (h : s.Sound) {chatID status : String}
    (hkept : s.Kept (.completes chatID id status)) :
    (s.observeComplete chatID id status).Sound := by
  rw [observeComplete]
  split
  · next hterminal =>
    have hending : (RunFrame.runFinished chatID id status).states = none := by
      rw [RunFrame.states, if_neg]
      rintro rfl
      exact absurd hterminal (by decide)
    by_cases hid : id = ""
    · subst hid
      have hsame : s.releaseLease "" = s := by
        have hblank := h.blank
        rw [leaseChat, Option.map_eq_none_iff] at hblank
        have hlaunch : "" ∉ s.launching := fun hmem => h.launched "" hmem h.blank
        rw [releaseLease, Keyed.erase_of_find_none hblank, List.erase_of_not_mem hlaunch]
      rw [hsame, broadcast, if_pos (by rfl)]
      exact h
    · have hframe : (RunFrame.runFinished chatID id status).workflowID ≠ "" := hid
      rw [releaseLease, broadcast_of_ne hframe]
      have hpublished := h.publishes hframe
        (Keyed.nodup_erase h.leases) ((leaseChat_erase_self s.leases id).trans hending.symm)
        fun other hne => leaseChat_erase_of_ne hne
      have hgone : id ∉ s.launching.erase id := h.launching.not_mem_erase
      dsimp only [RunFrame.workflowID] at hpublished ⊢
      rwa [List.erase_of_not_mem hgone]
  · next hgoing =>
    apply h.broadcasts
    intro hid
    exact hkept hid (by simpa using hgoing)

/-- The browser applies the next frame. -/
theorem delivers (h : s.Sound) {frame : RunFrame} (hframe : s.published[s.applied]? = some frame)
    (hparentless : s.Parentless frame) :
    ({ s.handle frame with applied := s.applied + 1 }).Sound := by
  have hid := h.named frame (List.mem_of_getElem? hframe)
  have hself := rowChat_handle_self hid hparentless
  have hother : ∀ other, other ≠ frame.workflowID →
      rowChat (s.handle frame).liveRunChats other = rowChat s.liveRunChats other :=
    fun other hne => rowChat_handle_of_ne hne
  rw [handle_eq]
  refine ⟨h.leases, h.blank, h.launching, h.launched, h.named, h.current, ?_, ?_, ?_⟩
  · exact (List.getElem?_eq_some_iff.mp hframe).1
  · intro id hmem htold
    by_cases hne : id = frame.workflowID
    · subst hne
      exact Feed.settled_applied h.current hframe hself
    · have htold' : s.Told id := by
        rcases htold with hadopted | ⟨other, hmem', hother'⟩
        · exact .inl hadopted
        · dsimp only at hmem'
          rw [List.take_add_one, hframe, Option.toList_some, List.mem_append,
            List.mem_singleton] at hmem'
          rcases hmem' with hold | rfl
          · exact .inr ⟨other, hold, hother'⟩
          · exact absurd hother'.symm hne
      exact (h.rows id hmem htold').apply h.current hframe hself hother
  · intro c hc taken runs hanswer
    have hlist := h.lists c hc taken runs hanswer
    exact ⟨hlist.le, hlist.nodup, hlist.blank, hlist.settled⟩

/-- Only the calls change. -/
theorem calls_only (h : s.Sound) {calls : List InventoryCall} {started : ℕ}
    (hlists : ∀ c ∈ calls, ∀ taken runs, c.answer = some (.stated taken runs) →
      s.ListSound taken runs) : ({ s with calls, started }).Sound := by
  refine ⟨h.leases, h.blank, h.launching, h.launched, h.named, h.current, h.applied, h.rows, ?_⟩
  intro c hc taken runs hanswer
  have hlist := hlists c hc taken runs hanswer
  exact ⟨hlist.le, hlist.nodup, hlist.blank, hlist.settled⟩

theorem requests (h : s.Sound) (handshake : Bool) : (s.request handshake).Sound := by
  apply h.calls_only
  intro c hc taken runs hanswer
  rcases List.mem_cons.mp hc with rfl | hc
  · cases hanswer
  · exact h.lists c hc taken runs hanswer

theorem closes (h : s.Sound) (c : InventoryCall) : (s.close c).Sound := by
  apply h.calls_only
  intro c' hc'
  exact h.lists c' (List.mem_of_mem_filter hc')

/-- The leases of this moment. -/
theorem list_now (h : s.Sound) : s.ListSound s.published.length s.liveRunRows where
  le := Nat.le_refl _
  nodup := by
    rw [keys_liveRunRows]
    exact h.leases
  blank := by
    rw [runChat_liveRunRows]
    exact h.blank
  settled id hmem := by
    intro _
    rw [runChat_liveRunRows, announced_of_not_mem hmem]

theorem answers (h : s.Sound) (c : InventoryCall) : (s.answer c).Sound := by
  apply h.calls_only
  intro c' hc' taken runs hanswer
  rcases Keyed.mem_set hc' with rfl | ⟨hmem, -⟩
  · rw [Option.some_inj, inventory] at hanswer
    split at hanswer
    · cases hanswer
    · cases hanswer
      exact h.list_now
  · exact h.lists c' hmem taken runs hanswer

/-- A list lands that the frames applied since it was taken spared. -/
theorem adopts (h : s.Sound) {taken : ℕ} {runs : List LiveRun} (hlist : s.ListSound taken runs)
    (hspared : s.Spared (.stated taken runs)) : (s.adoptLiveRuns runs).Sound := by
  have hrows : ∀ id, rowChat (s.adoptLiveRuns runs).liveRunChats id = runChat runs id :=
    fun id => rowChat_adoptLiveRuns hlist.nodup hlist.blank
  rw [adoptLiveRuns_eq]
  refine ⟨h.leases, h.blank, h.launching, h.launched, h.named, h.current, h.applied, ?_, ?_⟩
  · intro id hmem _ huntouched
    dsimp only at hmem huntouched ⊢
    rw [hrows]
    rcases Feed.untouched_or_applied taken huntouched with hsince | ⟨frame, hframe, rfl⟩
    · exact hlist.settled id hmem hsince
    · rcases hspared frame hframe with hawaited | heq
      · exact absurd huntouched (awaited_iff.mp hawaited)
      · have htold : s.Told frame.workflowID := .inr ⟨frame, List.mem_of_mem_drop hframe, rfl⟩
        rw [heq]
        exact h.rows frame.workflowID hmem htold huntouched
  · intro c hc taken' runs' hanswer
    have hlist' := h.lists c hc taken' runs' hanswer
    exact ⟨hlist'.le, hlist'.nodup, hlist'.blank, hlist'.settled⟩

theorem resolves (h : s.Sound) {c : InventoryCall} {a : Inventory} (hc : c ∈ s.calls)
    (hanswer : c.answer = some a) (hspared : s.Spared a) : (s.resolve c a).Sound := by
  cases a with
  | stated taken runs =>
    have hlist := h.lists c hc taken runs hanswer
    exact (h.closes c).adopts ⟨hlist.le, hlist.nodup, hlist.blank, hlist.settled⟩ hspared
  | withheld => exact (h.closes c).requests false

theorem step (h : s.Sound) {e : RunsEvent} (hkept : s.Kept e) : (s.step e).Sound := by
  cases e with
  | launches id => exact h.launches id
  | releases id => exact h.releases hkept
  | bounds id bounded => exact h.bounds id bounded
  | starts chatID id => exact h.starts hkept
  | progresses chatID id kind => exact h.progresses hkept
  | asks chatID id => exact h.broadcasts hkept
  | completes chatID id status => exact h.completes hkept
  | delivers =>
    simp only [RunsState.step]
    split
    · next frame hframe => exact h.delivers hframe (hkept frame hframe)
    · exact h
  | connects => exact h.requests true
  | rebuilds => exact h.requests false
  | answers serial =>
    simp only [RunsState.step]
    split
    · next c _ =>
      split
      · exact h.answers c
      · exact h
    · exact h
  | resolves serial =>
    simp only [RunsState.step]
    split
    · next c hc =>
      split
      · next a ha => exact h.resolves (Keyed.mem_of_find hc) ha (hkept c hc a ha)
      · exact h
    · exact h
  | fails serial =>
    simp only [RunsState.step]
    split
    · next c _ => exact h.closes c
    · exact h
  | forgets id =>
    refine ⟨h.leases, h.blank, h.launching, h.launched, h.named, h.current, h.applied, h.rows, ?_⟩
    intro c hc taken runs hanswer
    have hlist := h.lists c hc taken runs hanswer
    exact ⟨hlist.le, hlist.nodup, hlist.blank, hlist.settled⟩

theorem converged (h : s.Sound) : s.Converged := by
  intro happlied hlaunching _ hadopted id
  have hmem : id ∉ s.launching := by simp [hlaunching]
  have hsettled := h.rows id hmem (.inl hadopted)
  rw [← announced_of_not_mem hmem]
  apply hsettled
  rw [happlied, List.drop_length]
  intro frame hframe
  cases hframe

end Sound

/-- While frames state the leases and no adopted list is older than a frame applied before it, the
browser's inventory converges. -/
theorem inventory_converges (hs : s.Started) (events : List RunsEvent)
    (hkept : Along step (fun s e => Kept s e) s events) : (runFrom step s events).Converged := by
  have hsound := hkept.invariant hs.sound fun _ _ hs he => hs.step he
  exact hsound.converged

/-- A run of a chat starts while the handshake's list is on its way. -/
theorem inventory_converges_started :
    (runFrom step {}
      [.connects, .answers 0, .starts "c-1" "wf_1", .resolves 0, .delivers]).Converged := by
  apply inventory_converges
  · exact ⟨List.nodup_nil, rfl, rfl, rfl, rfl, rfl, rfl⟩
  · decide +kernel

/-- A run finishes while a list that names it is on its way, and is live again in the browser. -/
theorem answer_revives_run :
    ¬ (runFrom step {}
      [.connects, .answers 0, .resolves 0, .starts "c-1" "wf_1", .delivers, .rebuilds, .answers 1,
        .completes "c-1" "wf_1" "completed", .delivers, .resolves 1]).Converged := by
  intro hconverged
  have hchat := hconverged (by decide +kernel) (by decide +kernel) (by decide +kernel)
    (by decide +kernel) "wf_1"
  exact absurd hchat (by decide +kernel)

end RunsState
end Marotte.LiveRuns
