import Marotte.Library.Along
import Marotte.Library.Keyed
import Mathlib.Data.List.Sort

/-! # The last status that each chat declared

One entry for each chat, merged on each declaration and dropped when the turn ends, with the
`status` counter. What the counter certifies is the retained `waiting_on_user` set.
-/
namespace Marotte.Status

def waitingOnUser : String := "waiting_on_user"

structure ChatStatusPayload where
  status : String := ""
  description : String := ""
  deriving DecidableEq

structure StatusRow where
  chatID : String
  status : String
  description : String
  deriving DecidableEq

/-- The entries, one for a chat, and the counter; zero is the unminted version. -/
structure ChatStatusCache where
  byChat : List StatusRow := []
  version : ℕ := 0
  distinct : (byChat.map StatusRow.chatID).Nodup := by simp

/-- The first of two texts that is not empty. -/
def cmpOr (a b : String) : String := if a ≠ "" then a else b

namespace ChatStatusCache

variable (cache : ChatStatusCache) (chatID : String)

def get : ChatStatusPayload :=
  match Keyed.find StatusRow.chatID cache.byChat chatID with
  | none => {}
  | some row => { status := row.status, description := row.description }

def bump : ChatStatusCache := { cache with version := cache.version + 1 }

def delete : ChatStatusCache where
  byChat := Keyed.erase StatusRow.chatID cache.byChat chatID
  version := cache.version
  distinct := Keyed.nodup_erase cache.distinct

def put (p : ChatStatusPayload) : ChatStatusCache where
  byChat := Keyed.set StatusRow.chatID cache.byChat
    { chatID, status := p.status, description := p.description }
  version := cache.version
  distinct := Keyed.nodup_set cache.distinct

/-- What a declaration leaves, the effective payload and its stamp. An empty field is absent; a
payload of two empty fields is a clear. A declaration of no chat merges and mints nothing. -/
def mergeStamped (p : ChatStatusPayload) : ChatStatusCache × ChatStatusPayload × ℕ :=
  if chatID = "" then (cache, p, cache.version)
  else if p.status = "" ∧ p.description = "" then
    ((cache.delete chatID).bump, p, cache.version + 1)
  else
    let prev := cache.get chatID
    let p : ChatStatusPayload :=
      { status := cmpOr p.status prev.status
        description := cmpOr p.description prev.description }
    ((cache.put chatID p).bump, p, cache.version + 1)

/-- The retained waiting set without the busy chats, in chat order. -/
def waitingRows (busy : String → Bool) : List StatusRow :=
  (cache.byChat.filter fun row => ¬ busy row.chatID ∧ row.status = waitingOnUser).insertionSort
    fun a b => a.chatID ≤ b.chatID

def snapshotStamped (busy : String → Bool) : List StatusRow × ℕ :=
  (cache.waitingRows busy, cache.version)

/-- A turn's end drops the status, except the one whose meaning is that the turn has ended. -/
def clearAtTurnEnd : ChatStatusCache :=
  if (cache.get chatID).status = waitingOnUser then cache else cache.delete chatID

/-- Drops the status only when it is the retained claim, and whether it went. -/
def clearWaiting : ChatStatusCache × Bool :=
  if (cache.get chatID).status ≠ waitingOnUser then (cache, false)
  else ((cache.delete chatID).bump, true)

/-! ## What each operation retains -/

variable {cache chatID} {chat : String} {p : ChatStatusPayload} {busy : String → Bool}

/-- The chat is retained as waiting on its user. -/
def Waiting (cache : ChatStatusCache) (chat : String) : Prop :=
  (cache.get chat).status = waitingOnUser

instance : DecidablePred cache.Waiting := fun chat =>
  inferInstanceAs (Decidable ((cache.get chat).status = waitingOnUser))

@[simp] theorem get_bump : cache.bump.get chat = cache.get chat := rfl

theorem get_delete :
    (cache.delete chatID).get chat = if chat = chatID then {} else cache.get chat := by
  by_cases h : chat = chatID
  · rw [if_pos h, h, get, delete, Keyed.find_erase_self]
  · rw [if_neg h, get, delete, Keyed.find_erase_of_ne h]
    rfl

theorem get_put : (cache.put chatID p).get chat = if chat = chatID then p else cache.get chat := by
  by_cases h : chat = chatID
  · subst h
    have hfind := @Keyed.find_set_key _ _ _ StatusRow.chatID cache.byChat
      { chatID := chat, status := p.status, description := p.description }
    rw [if_pos rfl, get, put, hfind]
  · rw [if_neg h, get, put, Keyed.find_set_of_ne h]
    rfl

/-- After a declaration the chat holds what was published of it, and no other chat changed. -/
theorem get_mergeStamped (h : chatID ≠ "") :
    (cache.mergeStamped chatID p).1.get chat =
      if chat = chatID then (cache.mergeStamped chatID p).2.1 else cache.get chat := by
  rw [mergeStamped, if_neg h]
  split
  · next hp =>
    obtain ⟨status, description⟩ := p
    obtain ⟨rfl, rfl⟩ := hp
    exact get_delete
  · exact get_put

/-- No turn's end changes which chats wait. -/
theorem waiting_clearAtTurnEnd : (cache.clearAtTurnEnd chatID).Waiting chat ↔ cache.Waiting chat := by
  rw [clearAtTurnEnd]
  split
  · rfl
  · next hne =>
    rw [Waiting, Waiting, get_delete]
    split
    · next heq =>
      rw [heq]
      exact ⟨fun h => absurd h (by decide), fun h => absurd h hne⟩
    · rfl

theorem clearWaiting_of_not (h : ¬ cache.Waiting chatID) :
    cache.clearWaiting chatID = (cache, false) := if_pos h

theorem clearWaiting_of_waiting (h : cache.Waiting chatID) :
    cache.clearWaiting chatID = ((cache.delete chatID).bump, true) := if_neg (not_not.mpr h)

theorem waiting_iff_mem :
    cache.Waiting chat ↔ ∃ row ∈ cache.byChat, row.chatID = chat ∧ row.status = waitingOnUser := by
  constructor
  · intro h
    rw [Waiting, get] at h
    cases hfind : Keyed.find StatusRow.chatID cache.byChat chat with
    | none =>
      rw [hfind] at h
      exact absurd h (by decide)
    | some row =>
      rw [hfind] at h
      exact ⟨row, Keyed.mem_of_find hfind, Keyed.key_of_find hfind, h⟩
  · rintro ⟨row, hrow, rfl, hstatus⟩
    rw [Waiting, get, Keyed.find_of_mem cache.distinct hrow]
    exact hstatus

theorem mem_waitingRows {row : StatusRow} :
    row ∈ cache.waitingRows busy ↔
      row ∈ cache.byChat ∧ busy row.chatID = false ∧ row.status = waitingOnUser := by
  simp [waitingRows]

theorem nodup_waitingRows : ((cache.waitingRows busy).map StatusRow.chatID).Nodup := by
  have hperm := List.perm_insertionSort (fun a b : StatusRow => a.chatID ≤ b.chatID)
    (cache.byChat.filter fun row => ¬ busy row.chatID ∧ row.status = waitingOnUser)
  rw [waitingRows, (hperm.map _).nodup_iff]
  exact cache.distinct.sublist (List.filter_sublist.map _)

/-- A snapshot has a row of exactly the waiting chats that are not busy. -/
theorem exists_waitingRows :
    (∃ row ∈ cache.waitingRows busy, row.chatID = chat) ↔ busy chat = false ∧ cache.Waiting chat := by
  rw [waiting_iff_mem]
  constructor
  · rintro ⟨row, hrow, rfl⟩
    obtain ⟨hmem, hbusy, hstatus⟩ := mem_waitingRows.mp hrow
    exact ⟨hbusy, row, hmem, rfl, hstatus⟩
  · rintro ⟨hbusy, row, hmem, rfl, hstatus⟩
    exact ⟨row, mem_waitingRows.mpr ⟨hmem, hbusy, hstatus⟩, rfl⟩

end ChatStatusCache

/-! ## Who waits on the user, at the server and at a client

Declarations, discharges and turns move the retained statuses; a connected client is given the
snapshot of its connect and every status frame after it. The snapshot leaves out the chats of
running turns, and a turn's end publishes no status.
-/

/-! ## The client -/

/-- The status that each chat's session shows, and the `status` version of the last stamp. -/
structure StatusClient where
  agentStatus : String → String
  version : ℕ

/-- The statuses that a client shows once it has applied a snapshot: a chat without a row has none. -/
def StatusClient.ofSnapshot (snapshot : List StatusRow × ℕ) : StatusClient where
  agentStatus chat := ((Keyed.find StatusRow.chatID snapshot.1 chat).map StatusRow.status).getD ""
  version := snapshot.2

/-- A status frame: a frame of no chat sets nothing. -/
def StatusClient.chatStatus (client : StatusClient) (chatID : String) (p : ChatStatusPayload)
    (stamp : ℕ) : StatusClient where
  agentStatus := if chatID = "" then client.agentStatus
    else Function.update client.agentStatus chatID p.status
  version := stamp

theorem ofSnapshot_waiting {cache : ChatStatusCache} {busy : String → Bool} {chat : String} :
    (StatusClient.ofSnapshot (cache.snapshotStamped busy)).agentStatus chat = waitingOnUser ↔
      busy chat = false ∧ cache.Waiting chat := by
  change ((Keyed.find StatusRow.chatID (cache.waitingRows busy) chat).map
    StatusRow.status).getD "" = waitingOnUser ↔ _
  rw [← ChatStatusCache.exists_waitingRows]
  constructor
  · intro h
    cases hfind : Keyed.find StatusRow.chatID (cache.waitingRows busy) chat with
    | none =>
      rw [hfind] at h
      exact absurd h (by decide)
    | some row => exact ⟨row, Keyed.mem_of_find hfind, Keyed.key_of_find hfind⟩
  · rintro ⟨row, hrow, rfl⟩
    rw [Keyed.find_of_mem ChatStatusCache.nodup_waitingRows hrow]
    exact (ChatStatusCache.mem_waitingRows.mp hrow).2.2

/-! ## The system -/

/-- The server and one client. `busy` is the set that a connect has read and not yet used;
`withheld` marks the waiting chats that the client's snapshot left out, until a frame of them. -/
structure Statuses where
  cache : ChatStatusCache := {}
  own : String → Bool := fun _ => false
  busy : String → Bool := fun _ => false
  client : Option StatusClient := none
  withheld : String → Bool := fun _ => false

namespace Statuses

variable (s : Statuses)

/-- A status event is merged, and what it merges to reaches the client. -/
def publish (chatID : String) (p : ChatStatusPayload) : Statuses :=
  let (cache, p, stamp) := s.cache.mergeStamped chatID p
  { s with
    cache
    client := s.client.map (·.chatStatus chatID p stamp)
    withheld := if chatID = "" then s.withheld else Function.update s.withheld chatID false }

/-- The user has answered: the retained claim goes, and its frame clears the clients. -/
def dischargeWaiting (chatID : String) : Statuses :=
  let (cache, went) := s.cache.clearWaiting chatID
  if went then { s with cache }.publish chatID {} else s

def turnOpened (chatID : String) (userAnswered : Bool) : Statuses :=
  let opened := { s with own := Function.update s.own chatID true }
  if userAnswered then opened.dischargeWaiting chatID else opened

/-- The `turn_closed` event passes the bus. -/
def turnClosed (chatID : String) : Statuses := { s with cache := s.cache.clearAtTurnEnd chatID }

/-- The registry lets go of the chat's own turn. -/
def turnFinished (chatID : String) : Statuses :=
  { s with own := Function.update s.own chatID false }

/-- A connect reads the own turns, which its snapshot is then filtered by. -/
def ownTurns : Statuses := { s with busy := s.own }

def connect : Statuses :=
  { s with
    client := some (.ofSnapshot (s.cache.snapshotStamped s.busy))
    withheld := fun chat => s.busy chat && s.cache.Waiting chat }

inductive StatusEvent where
  | declared (chatID : String) (p : ChatStatusPayload)
  | discharged (chatID : String)
  | turnOpened (chatID : String) (userAnswered : Bool)
  | turnClosed (chatID : String)
  | turnFinished (chatID : String)
  | ownTurns
  | connect

def step : StatusEvent → Statuses
  | .declared chatID p => s.publish chatID p
  | .discharged chatID => s.dischargeWaiting chatID
  | .turnOpened chatID userAnswered => s.turnOpened chatID userAnswered
  | .turnClosed chatID => s.turnClosed chatID
  | .turnFinished chatID => s.turnFinished chatID
  | .ownTurns => s.ownTurns
  | .connect => s.connect

/-! ## Convergence -/

/-- A chat whose turn is not open waits at the client exactly when the server retains that it
waits, and at one version the client holds the chats of a fresh snapshot. -/
structure Converged (client : StatusClient) : Prop where
  shows_iff : ∀ chat, s.own chat = false →
    (client.agentStatus chat = waitingOnUser ↔ s.cache.Waiting chat)
  fresh : client.version = (s.cache.snapshotStamped s.own).2 → ∀ chat, s.own chat = false →
    (client.agentStatus chat = waitingOnUser ↔
      ∃ row ∈ (s.cache.snapshotStamped s.own).1, row.chatID = chat)

/-- After the step the client, if it is connected, has converged. -/
def Lawful (e : StatusEvent) : Prop :=
  ∀ client, (s.step e).client = some client → (s.step e).Converged client

/-- No turn is let go of while its chat retains a claim that the client's snapshot left out and
no frame has told since; and no snapshot leaves out a waiting chat whose turn has gone since the
own turns were read. -/
def Kept : StatusEvent → Prop
  | .turnFinished chatID => ¬ (s.withheld chatID = true ∧ s.cache.Waiting chatID)
  | .connect => ∀ row ∈ s.cache.byChat, row.status = waitingOnUser → s.busy row.chatID = true →
      s.own row.chatID = true
  | _ => True

instance (e : StatusEvent) : Decidable (s.Kept e) := by
  cases e <;> unfold Kept <;> infer_instance

/-! ## What every step keeps -/

/-- The client and the server agree on a chat, or the client's snapshot withheld the waiting chat
and its turn is still open. -/
def AgreesOn (client : StatusClient) (chat : String) : Prop :=
  (client.agentStatus chat = waitingOnUser ↔ s.cache.Waiting chat) ∨
    s.own chat = true ∧ s.withheld chat = true

structure Sound : Prop where
  agrees : ∀ client, s.client = some client → ∀ chat, s.AgreesOn client chat
  unshown : ∀ chat, s.withheld chat = true →
    ∃ client, s.client = some client ∧ client.agentStatus chat ≠ waitingOnUser
  named : ¬ s.cache.Waiting ""

variable {s} {chatID : String} {p : ChatStatusPayload}

theorem sound_empty : Sound {} := by
  refine ⟨fun client h => ?_, fun chat h => ?_, by decide⟩
  · cases h
  · cases h

theorem converged_iff {client : StatusClient} :
    s.Converged client ↔ ∀ chat, s.own chat = false →
      (client.agentStatus chat = waitingOnUser ↔ s.cache.Waiting chat) := by
  constructor
  · exact Converged.shows_iff
  · intro h
    refine ⟨h, fun _ chat hown => ?_⟩
    rw [h chat hown, ChatStatusCache.snapshotStamped, ChatStatusCache.exists_waitingRows]
    exact ⟨fun hw => ⟨hown, hw⟩, And.right⟩

theorem publish_global : s.publish "" p =
    { s with client := s.client.map fun client => { client with version := s.cache.version } } := by
  rfl

/-- A published status brings the chat's own waiting to the client; that of the others may not
have changed since they agreed. -/
theorem sound_publish (h : chatID ≠ "")
    (hagrees : ∀ client, s.client = some client → ∀ chat ≠ chatID, s.AgreesOn client chat)
    (hunshown : ∀ chat, s.withheld chat = true →
      ∃ client, s.client = some client ∧ client.agentStatus chat ≠ waitingOnUser)
    (hnamed : ¬ s.cache.Waiting "") : (s.publish chatID p).Sound := by
  constructor
  · intro client hclient chat
    obtain ⟨before, hbefore, rfl⟩ := Option.map_eq_some_iff.mp hclient
    simp only [AgreesOn, publish, StatusClient.chatStatus, if_neg h, ChatStatusCache.Waiting,
      ChatStatusCache.get_mergeStamped h]
    by_cases hchat : chat = chatID
    · left
      subst hchat
      rw [if_pos rfl, Function.update_self]
      rfl
    · rw [if_neg hchat, Function.update_of_ne hchat, Function.update_of_ne hchat]
      exact hagrees before hbefore chat hchat
  · intro chat hwithheld
    simp only [publish, if_neg h] at hwithheld
    have hchat : chat ≠ chatID := by
      rintro rfl
      rw [Function.update_self] at hwithheld
      cases hwithheld
    rw [Function.update_of_ne hchat] at hwithheld
    obtain ⟨before, hbefore, hne⟩ := hunshown chat hwithheld
    refine ⟨_, Option.map_eq_some_iff.mpr ⟨before, hbefore, rfl⟩, ?_⟩
    simp only [StatusClient.chatStatus, if_neg h]
    rw [Function.update_of_ne hchat]
    exact hne
  · simp only [publish, ChatStatusCache.Waiting, ChatStatusCache.get_mergeStamped h]
    rw [if_neg (Ne.symm h)]
    exact hnamed

namespace Sound

theorem publish (h : s.Sound) : (s.publish chatID p).Sound := by
  by_cases hchat : chatID = ""
  · rw [hchat, publish_global]
    refine ⟨fun client hclient chat => ?_, fun chat hwithheld => ?_, h.named⟩
    · obtain ⟨before, hbefore, rfl⟩ := Option.map_eq_some_iff.mp hclient
      exact h.agrees before hbefore chat
    · obtain ⟨before, hbefore, hne⟩ := h.unshown chat hwithheld
      exact ⟨_, Option.map_eq_some_iff.mpr ⟨before, hbefore, rfl⟩, hne⟩
  · exact sound_publish hchat (fun client hclient chat _ => h.agrees client hclient chat)
      h.unshown h.named

theorem dischargeWaiting (h : s.Sound) : (s.dischargeWaiting chatID).Sound := by
  by_cases hw : s.cache.Waiting chatID
  · have hchat : chatID ≠ "" := by
      rintro rfl
      exact h.named hw
    rw [Statuses.dischargeWaiting, ChatStatusCache.clearWaiting_of_waiting hw]
    apply sound_publish hchat
    · intro client hclient chat hne
      simp only [AgreesOn, ChatStatusCache.Waiting, ChatStatusCache.get_bump,
        ChatStatusCache.get_delete, if_neg hne]
      exact h.agrees client hclient chat
    · exact h.unshown
    · simp only [ChatStatusCache.Waiting, ChatStatusCache.get_bump, ChatStatusCache.get_delete,
        if_neg (Ne.symm hchat)]
      exact h.named
  · rw [Statuses.dischargeWaiting, ChatStatusCache.clearWaiting_of_not hw]
    exact h

theorem opened (h : s.Sound) : Sound { s with own := Function.update s.own chatID true } := by
  refine ⟨fun client hclient chat => ?_, h.unshown, h.named⟩
  rcases h.agrees client hclient chat with hiff | ⟨hown, hwithheld⟩
  · exact .inl hiff
  · right
    refine ⟨?_, hwithheld⟩
    change Function.update s.own chatID true chat = true
    rw [Function.update_apply]
    split
    · rfl
    · exact hown

theorem turnClosed (h : s.Sound) : (s.turnClosed chatID).Sound := by
  constructor
  · intro client hclient chat
    simp only [AgreesOn, Statuses.turnClosed, ChatStatusCache.waiting_clearAtTurnEnd]
    exact h.agrees client hclient chat
  · exact h.unshown
  · simp only [Statuses.turnClosed, ChatStatusCache.waiting_clearAtTurnEnd]
    exact h.named

/-- A turn that is let go of is no longer a reason to disagree. -/
theorem turnFinished (h : s.Sound) (hkept : s.Kept (.turnFinished chatID)) :
    (s.turnFinished chatID).Sound := by
  refine ⟨fun client hclient chat => ?_, h.unshown, h.named⟩
  rcases h.agrees client hclient chat with hiff | ⟨hown, hwithheld⟩
  · exact .inl hiff
  · by_cases hchat : chat = chatID
    · left
      obtain ⟨client', hclient', hne⟩ := h.unshown chat hwithheld
      obtain rfl : client' = client := Option.some.inj (hclient'.symm.trans hclient)
      subst hchat
      exact ⟨fun hshown => absurd hshown hne, fun hw => absurd ⟨hwithheld, hw⟩ hkept⟩
    · right
      refine ⟨?_, hwithheld⟩
      change Function.update s.own chatID false chat = true
      rw [Function.update_of_ne hchat]
      exact hown

theorem connect (h : s.Sound) (hkept : s.Kept .connect) : s.connect.Sound := by
  refine ⟨fun client hclient chat => ?_, fun chat hwithheld => ?_, h.named⟩
  · obtain rfl := Option.some.inj hclient
    simp only [AgreesOn, Statuses.connect, ofSnapshot_waiting, Bool.and_eq_true,
      decide_eq_true_eq]
    by_cases hboth : s.busy chat = true ∧ s.cache.Waiting chat
    · right
      obtain ⟨row, hrow, rfl, hstatus⟩ := ChatStatusCache.waiting_iff_mem.mp hboth.2
      exact ⟨hkept row hrow hstatus hboth.1, hboth⟩
    · left
      refine ⟨And.right, fun hw => ⟨?_, hw⟩⟩
      rw [Bool.eq_false_iff]
      exact fun hbusy => hboth ⟨hbusy, hw⟩
  · refine ⟨_, rfl, fun hshown => ?_⟩
    obtain ⟨hbusy, -⟩ := Bool.and_eq_true_iff.mp hwithheld
    rw [(ofSnapshot_waiting.mp hshown).1] at hbusy
    cases hbusy

/-- One step under the condition. -/
theorem step (h : s.Sound) {e : StatusEvent} (hkept : s.Kept e) : (s.step e).Sound := by
  cases e with
  | declared chatID p => exact h.publish
  | discharged chatID => exact h.dischargeWaiting
  | turnOpened chatID userAnswered =>
    cases userAnswered with
    | false => exact h.opened
    | true => exact h.opened.dischargeWaiting
  | turnClosed chatID => exact h.turnClosed
  | turnFinished chatID => exact h.turnFinished hkept
  | ownTurns => exact ⟨h.agrees, h.unshown, h.named⟩
  | connect => exact h.connect hkept

theorem converged (h : s.Sound) {client : StatusClient} (hclient : s.client = some client) :
    s.Converged client := by
  rw [converged_iff]
  intro chat hown
  rcases h.agrees client hclient chat with hiff | ⟨htrue, -⟩
  · exact hiff
  · rw [hown] at htrue
    cases htrue

/-- A step that leaves the client converged was under the condition: the turn that is let go of,
or was gone, would show the withheld chat. -/
theorem kept_of_lawful (h : s.Sound) {e : StatusEvent} (hlawful : s.Lawful e) : s.Kept e := by
  cases e with
  | turnFinished chatID =>
    rintro ⟨hwithheld, hw⟩
    obtain ⟨client, hclient, hne⟩ := h.unshown chatID hwithheld
    have hown : (s.turnFinished chatID).own chatID = false := Function.update_self ..
    exact hne (((hlawful client hclient).shows_iff chatID hown).mpr hw)
  | connect =>
    intro row hrow hstatus hbusy
    have hw : s.cache.Waiting row.chatID :=
      ChatStatusCache.waiting_iff_mem.mpr ⟨row, hrow, rfl, hstatus⟩
    cases hown : s.own row.chatID with
    | true => rfl
    | false =>
      have hshown := ((hlawful _ rfl).shows_iff row.chatID hown).mpr hw
      rw [(ofSnapshot_waiting.mp hshown).1] at hbusy
      cases hbusy
  | declared | discharged | turnOpened | turnClosed | ownTurns => trivial

theorem along_lawful_iff (h : s.Sound) (events : List StatusEvent) :
    Along Statuses.step Lawful s events ↔ Along Statuses.step Kept s events := by
  apply along_iff h
  · intro s e hs
    constructor
    · exact hs.kept_of_lawful
    · intro hkept client hclient
      exact (hs.step hkept).converged hclient
  · intro s e hs hkept
    exact hs.step hkept

end Sound

/-- The client converges after every step of a run exactly when no step of it leaves a withheld
chat without its turn. -/
theorem waiting_converges_iff (events : List StatusEvent) :
    Along step Lawful {} events ↔ Along step Kept {} events :=
  sound_empty.along_lawful_iff events

/-- A client connects while the turn that declared its chat waiting is still open. -/
def secondDevice : List StatusEvent :=
  [.turnOpened "chat-1" true, .declared "chat-1" { status := waitingOnUser }, .ownTurns, .connect,
    .turnClosed "chat-1", .turnFinished "chat-1"]

/-- No turn is open, the server retains the claim, and the client shows none at the server's own
version. -/
theorem secondDevice_diverges :
    let s := runFrom step {} secondDevice
    s.own "chat-1" = false ∧ s.cache.Waiting "chat-1" ∧
      s.client.map (fun client => client.agentStatus "chat-1") = some "" ∧
      s.client.map StatusClient.version = some (s.cache.snapshotStamped s.own).2 ∧
      ¬ Along step Lawful {} secondDevice := by
  refine ⟨by decide +kernel, by decide +kernel, by decide +kernel, by decide +kernel, ?_⟩
  rw [sound_empty.along_lawful_iff]
  decide +kernel

end Statuses

end Marotte.Status
