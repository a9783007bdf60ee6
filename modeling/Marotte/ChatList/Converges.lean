import Marotte.ChatList.Loading
import Marotte.Library.Feed

/-! # When the browser's chat list converges

A frame that was applied since an answer was taken must be about a chat that the answer does not
name and that the store did not hold as the read began: such rows outlive the answer.
-/
namespace Marotte.ChatList

namespace ListState

variable {s : ListState}

/-- What the server holds of a chat, and what the browser shows of it. -/
def chatFacts (chats : List ChatHeader) (id : String) : Option ChatFacts :=
  (Keyed.find ChatHeader.id chats id).map ChatHeader.facts

def rowFacts (rows : List Session) (id : String) : Option ChatFacts :=
  (Keyed.find Session.id rows id).map Session.facts

/-- Once every frame is delivered and every read has settled, the last one with success, the
browser holds one row for each chat of the server and no other, with its facts. -/
def Converged (s : ListState) : Prop :=
  s.applied = s.published.length → s.calls = [] → s.listReach = .reachable →
    (s.sessions.map Session.id).Nodup ∧ ∀ id, rowFacts s.sessions id = chatFacts s.chats id

/-- The frames that were applied since an answer was taken spare its chats and the rows known
before. -/
def Spared (s : ListState) (call : LoadCall) : Prop :=
  call.aborted = false → ∀ answer ∈ call.answer,
    ∀ frame ∈ (s.published.take s.applied).drop answer.1,
      frame.chatID ∉ answer.2.map ChatHeader.id ∧ frame.chatID ∉ call.knownBefore

def Kept (s : ListState) : ListEvent → Prop
  | .resolves serial => ∀ call ∈ s.call serial, s.Spared call
  | _ => True

instance (s : ListState) (e : ListEvent) : Decidable (s.Kept e) :=
  match e with
  | .resolves serial => inferInstanceAs (Decidable (∀ call ∈ s.call serial, _ → _))
  | .saves _ | .deletes _ | .delivers | .loads | .aborts _ | .answers _ | .fails _ => isTrue trivial

/-- A server with its chats and a browser with the rows it booted with. -/
structure Started (s : ListState) : Prop where
  chats : (s.chats.map ChatHeader.id).Nodup
  published : s.published = []
  sessions : (s.sessions.map Session.id).Nodup
  applied : s.applied = 0
  calls : s.calls = []
  listReach : s.listReach ≠ .reachable

def Settled (s : ListState) (id : String) : Prop :=
  Feed.Settled ChatFrame.chatID s.published (chatFacts s.chats) (rowFacts s.sessions) s.applied id

/-- What holds of a read as long as it runs. -/
structure CallSound (s : ListState) (knownBefore : List String)
    (answer : Option (ℕ × List ChatHeader)) : Prop where
  hinted : ∀ row ∈ s.sessions, row.provisional = true → row.id ∈ knownBefore
  fresh : ∀ row ∈ s.sessions, row.id ∉ knownBefore → s.Settled row.id
  answered : ∀ taken chats, answer = some (taken, chats) →
    Feed.Snapshot ChatFrame.chatID s.published (chatFacts s.chats) taken (chatFacts chats) ∧
      (chats.map ChatHeader.id).Nodup ∧
      ∀ frame ∈ (s.published.take s.applied).drop taken, s.Settled frame.chatID

structure Sound (s : ListState) : Prop where
  chats : (s.chats.map ChatHeader.id).Nodup
  current : Feed.Current ChatFrame.chatID ChatFrame.facts s.published (chatFacts s.chats)
  sessions : (s.sessions.map Session.id).Nodup
  applied : s.applied ≤ s.published.length
  calls : ∀ call ∈ s.calls, s.CallSound call.knownBefore call.answer
  listed : s.listReach = .reachable → ∀ id, s.Settled id

theorem Started.sound (h : s.Started) : s.Sound where
  chats := h.chats
  current := by
    rw [h.published]
    exact Feed.current_nil _
  sessions := h.sessions
  applied := by
    rw [h.applied]
    exact Nat.zero_le _
  calls := by simp [h.calls]
  listed hreach := absurd hreach h.listReach

/-- A read's part reads only the chats, the frames and the rows. -/
theorem CallSound.of_same {s' : ListState} {knownBefore : List String}
    {answer : Option (ℕ × List ChatHeader)} (h : s.CallSound knownBefore answer)
    (hchats : s'.chats = s.chats) (hpublished : s'.published = s.published)
    (hsessions : s'.sessions = s.sessions) (happlied : s'.applied = s.applied) :
    s'.CallSound knownBefore answer := by
  cases s'
  dsimp only at hchats hpublished hsessions happlied
  subst hchats hpublished hsessions happlied
  exact ⟨h.hinted, h.fresh, h.answered⟩

/-! ## Facts of one chat -/

theorem facts_update (row : Session) (h : ChatHeader) : (row.update h).facts = h.facts := rfl

theorem facts_inserted (h : ChatHeader) : h.inserted.facts = h.facts := rfl

theorem chatFacts_set_self (chats : List ChatHeader) (h : ChatHeader) :
    chatFacts (Keyed.set ChatHeader.id chats h) h.id = some h.facts := by
  rw [chatFacts, Keyed.find_set_key, Option.map_some]

theorem chatFacts_set_of_ne {chats : List ChatHeader} {h : ChatHeader} {id : String}
    (hne : id ≠ h.id) : chatFacts (Keyed.set ChatHeader.id chats h) id = chatFacts chats id := by
  rw [chatFacts, Keyed.find_set_of_ne hne, chatFacts]

theorem rowFacts_upsert_self (s : ListState) (h : ChatHeader) :
    rowFacts (s.upsertHeader h) h.id = some h.facts := by
  rw [upsertHeader]
  split
  · next row hrow =>
    have hkey : (row.update h).id = h.id := by
      change row.id = h.id
      exact Keyed.key_of_find hrow
    rw [rowFacts, ← hkey, Keyed.find_set_key, Option.map_some, facts_update]
  · have hself : Keyed.find Session.id (h.inserted :: s.sessions) h.id = some h.inserted :=
      List.find?_cons_of_pos (by simp [ChatHeader.inserted, ChatHeader.session])
    rw [rowFacts, hself, Option.map_some, facts_inserted]

theorem rowFacts_upsert_of_ne {h : ChatHeader} {id : String} (hne : id ≠ h.id) :
    rowFacts (s.upsertHeader h) id = rowFacts s.sessions id := by
  rw [upsertHeader]
  split
  · next row hrow =>
    have hid : row.id = h.id := Keyed.key_of_find hrow
    have hkey : id ≠ (row.update h).id := fun heq => hne (heq.trans hid)
    rw [rowFacts, Keyed.find_set_of_ne hkey, rowFacts]
  · have hother : Keyed.find Session.id (h.inserted :: s.sessions) id =
        Keyed.find Session.id s.sessions id :=
      List.find?_cons_of_neg fun heq => hne (of_decide_eq_true heq).symm
    rw [rowFacts, hother, rowFacts]

theorem rowFacts_handle_self (s : ListState) (frame : ChatFrame) :
    rowFacts (s.handle frame) frame.chatID = frame.facts := by
  cases frame with
  | chatCreated h => exact rowFacts_upsert_self s h
  | chatUpdated h => exact rowFacts_upsert_self s h
  | chatDeleted id =>
    rw [handle, removeChat, rowFacts, ChatFrame.chatID, Keyed.find_erase_self]
    rfl

theorem rowFacts_handle_of_ne {frame : ChatFrame} {id : String} (hne : id ≠ frame.chatID) :
    rowFacts (s.handle frame) id = rowFacts s.sessions id := by
  cases frame with
  | chatCreated h => exact rowFacts_upsert_of_ne hne
  | chatUpdated h => exact rowFacts_upsert_of_ne hne
  | chatDeleted deleted =>
    have hother : id ≠ deleted := hne
    rw [handle, removeChat, rowFacts, Keyed.find_erase_of_ne hother, rowFacts]

theorem nodup_upsert (hs : (s.sessions.map Session.id).Nodup) (h : ChatHeader) :
    ((s.upsertHeader h).map Session.id).Nodup := by
  rw [upsertHeader]
  split
  · exact Keyed.nodup_set hs
  · next hnone =>
    rw [List.map_cons, List.nodup_cons]
    exact ⟨Keyed.find_eq_none.mp hnone, hs⟩

theorem nodup_handle (hs : (s.sessions.map Session.id).Nodup) (frame : ChatFrame) :
    ((s.handle frame).map Session.id).Nodup := by
  cases frame with
  | chatCreated h => exact nodup_upsert hs h
  | chatUpdated h => exact nodup_upsert hs h
  | chatDeleted id => exact Keyed.nodup_erase hs

/-- A row after a frame was there before, or is the frame's own and known to be no hint. -/
theorem mem_handle {frame : ChatFrame} {row : Session} (h : row ∈ s.handle frame) :
    (∃ old ∈ s.sessions, old.id = row.id ∧ old.provisional = row.provisional) ∨
      row.id = frame.chatID ∧ row.provisional = false := by
  have hupsert : ∀ {header : ChatHeader}, row ∈ s.upsertHeader header →
      (∃ old ∈ s.sessions, old.id = row.id ∧ old.provisional = row.provisional) ∨
        row.id = header.id ∧ row.provisional = false := by
    intro header hrow
    rw [upsertHeader] at hrow
    split at hrow
    · next old hold =>
      rcases Keyed.mem_set hrow with rfl | ⟨hmem, -⟩
      · exact .inl ⟨old, Keyed.mem_of_find hold, rfl, rfl⟩
      · exact .inl ⟨row, hmem, rfl, rfl⟩
    · rcases List.mem_cons.mp hrow with rfl | hmem
      · exact .inr ⟨rfl, rfl⟩
      · exact .inl ⟨row, hmem, rfl, rfl⟩
  cases frame with
  | chatCreated header => exact hupsert h
  | chatUpdated header => exact hupsert h
  | chatDeleted id => exact .inl ⟨row, List.mem_of_mem_filter h, rfl, rfl⟩

/-! ## An answer's rows -/

theorem rowFacts_loaded_named {knownBefore : List String} {chats : List ChatHeader} {id : String}
    (h : id ∈ chats.map ChatHeader.id) :
    rowFacts (s.loaded knownBefore chats) id = chatFacts chats id := by
  have hfind : Keyed.find Session.id (chats.map ChatHeader.session) id =
      (Keyed.find ChatHeader.id chats id).map ChatHeader.session := by
    rw [Keyed.find, Keyed.find, List.find?_map]
    rfl
  obtain ⟨header, hheader⟩ := Option.isSome_iff_exists.mp (Keyed.find_isSome.mpr h)
  rw [hheader, Option.map_some] at hfind
  rw [rowFacts, loaded, Keyed.find, List.find?_append]
  rw [Keyed.find] at hfind
  rw [hfind, chatFacts, hheader]
  rfl

theorem rowFacts_loaded_kept {knownBefore : List String} {chats : List ChatHeader} {id : String}
    (h : id ∉ chats.map ChatHeader.id) :
    rowFacts (s.loaded knownBefore chats) id = rowFacts (s.sessions.filter fun row =>
      row.id ∉ knownBefore ∧ row.id ∉ chats.map ChatHeader.id ∧ row.provisional = false) id := by
  have hnone : Keyed.find Session.id (chats.map ChatHeader.session) id = none := by
    rw [Keyed.find_eq_none, List.map_map]
    exact h
  rw [Keyed.find] at hnone
  rw [rowFacts, loaded, Keyed.find, List.find?_append, hnone, Option.none_or]
  rfl

/-- A filter that keeps a chat's row. -/
theorem rowFacts_filter {rows : List Session} {f : Session → Bool} {id : String}
    (h : ∀ row ∈ rows, row.id = id → f row = true) :
    rowFacts (rows.filter f) id = rowFacts rows id := by
  rw [rowFacts, rowFacts]
  congr 1
  induction rows with
  | nil => rfl
  | cons row rows ih =>
    have hrest := ih fun row' hrow' => h row' (List.mem_cons_of_mem _ hrow')
    unfold Keyed.find at hrest ⊢
    by_cases hid : row.id = id
    · rw [List.filter_cons_of_pos (h row (List.mem_cons_self ..) hid),
        List.find?_cons_of_pos (by simpa using hid), List.find?_cons_of_pos (by simpa using hid)]
    · rw [List.find?_cons_of_neg (by simpa using hid), ← hrest, List.filter_cons]
      split
      · rw [List.find?_cons_of_neg (by simpa using hid)]
      · rfl

theorem nodup_loaded (hs : (s.sessions.map Session.id).Nodup) {chats : List ChatHeader}
    (hchats : (chats.map ChatHeader.id).Nodup) (knownBefore : List String) :
    ((s.loaded knownBefore chats).map Session.id).Nodup := by
  have hnamed : (chats.map ChatHeader.session).map Session.id = chats.map ChatHeader.id := by
    rw [List.map_map]
    rfl
  rw [loaded, List.map_append, hnamed, List.nodup_append]
  refine ⟨hchats, hs.sublist (List.filter_sublist.map _), ?_⟩
  rintro id hid id' hid' rfl
  obtain ⟨row, hrow, rfl⟩ := List.mem_map.mp hid'
  have hnew := of_decide_eq_true (List.mem_filter.mp hrow).2
  exact hnew.2.1 hid

/-! ## The steps -/

/-- The calls after one of them was changed in its abort or its answer. -/
theorem calls_set {call call' : LoadCall} (hcall : s.call call.serial = some call)
    (hserial : call'.serial = call.serial) {P : LoadCall → Prop} (h : ∀ c ∈ s.calls, P c)
    (hP : P call → P call') : ∀ c ∈ Keyed.set LoadCall.serial s.calls call', P c := by
  intro c hc
  rcases Keyed.mem_set hc with rfl | ⟨hmem, -⟩
  · exact hP (h call (Keyed.mem_of_find hcall))
  · exact h c hmem

namespace Sound

/-- The server writes a chat and publishes the frame. -/
theorem publishes (h : s.Sound) {chats : List ChatHeader} {frame : ChatFrame}
    (hnodup : (chats.map ChatHeader.id).Nodup)
    (hself : chatFacts chats frame.chatID = frame.facts)
    (hother : ∀ id, id ≠ frame.chatID → chatFacts chats id = chatFacts s.chats id) :
    ({ s with chats, published := s.published ++ [frame] }).Sound := by
  have hsettled : ∀ {id}, s.Settled id →
      ({ s with chats, published := s.published ++ [frame] }).Settled id := by
    intro id hid
    exact hid.publish h.applied hother
  have hlength : s.applied ≤ (s.published ++ [frame]).length := by
    rw [List.length_append]
    exact Nat.le_add_right_of_le h.applied
  refine ⟨hnodup, h.current.publish hself hother, h.sessions, hlength, ?_, ?_⟩
  · intro call hcall
    have hsound := h.calls call hcall
    refine ⟨hsound.hinted, fun row hrow hnew => hsettled (hsound.fresh row hrow hnew), ?_⟩
    intro taken chats' hanswer
    obtain ⟨hsnapshot, hchats, happlied⟩ := hsound.answered taken chats' hanswer
    refine ⟨hsnapshot.publish hother, hchats, ?_⟩
    intro frame' hframe'
    dsimp only at hframe'
    rw [List.take_append_of_le_length h.applied] at hframe'
    exact hsettled (happlied frame' hframe')
  · intro hreach id
    exact hsettled (h.listed hreach id)

theorem delivers (h : s.Sound) {frame : ChatFrame} (hframe : s.published[s.applied]? = some frame) :
    ({ s with sessions := s.handle frame, applied := s.applied + 1 }).Sound := by
  have hself := rowFacts_handle_self s frame
  have hother : ∀ id, id ≠ frame.chatID →
      rowFacts (s.handle frame) id = rowFacts s.sessions id := fun _ => rowFacts_handle_of_ne
  have hsettled : ∀ {id}, s.Settled id →
      ({ s with sessions := s.handle frame, applied := s.applied + 1 }).Settled id := by
    intro id hid
    exact hid.apply h.current hframe hself hother
  have hown : ({ s with sessions := s.handle frame, applied := s.applied + 1 }).Settled
      frame.chatID := Feed.settled_applied h.current hframe hself
  have hlt := (List.getElem?_eq_some_iff.mp hframe).1
  refine ⟨h.chats, h.current, nodup_handle h.sessions frame, hlt, ?_, ?_⟩
  · intro call hcall
    have hsound := h.calls call hcall
    refine ⟨?_, ?_, ?_⟩
    · intro row hrow hprovisional
      rcases mem_handle hrow with ⟨old, hold, hid, hsame⟩ | ⟨-, hplain⟩
      · exact hid ▸ hsound.hinted old hold (hsame.trans hprovisional)
      · rw [hprovisional] at hplain
        cases hplain
    · intro row hrow hnew
      rcases mem_handle hrow with ⟨old, hold, hid, -⟩ | ⟨hid, -⟩
      · exact hsettled (hid ▸ hsound.fresh old hold (hid ▸ hnew))
      · exact hid ▸ hown
    · intro taken chats hanswer
      obtain ⟨hsnapshot, hchats, happlied⟩ := hsound.answered taken chats hanswer
      refine ⟨hsnapshot, hchats, ?_⟩
      intro frame' hframe'
      dsimp only at hframe'
      rw [List.take_add_one, hframe, Option.toList_some] at hframe'
      by_cases htaken : taken ≤ (s.published.take s.applied).length
      · rw [List.drop_append_of_le_length htaken, List.mem_append, List.mem_singleton] at hframe'
        rcases hframe' with hold | rfl
        · exact hsettled (happlied frame' hold)
        · exact hown
      · rw [List.drop_of_length_le] at hframe'
        · cases hframe'
        · rw [List.length_append, List.length_singleton]
          omega
  · intro hreach id
    exact hsettled (h.listed hreach id)

theorem aborts (h : s.Sound) (serial : ℕ) :
    ∀ call ∈ s.abort serial, s.CallSound call.knownBefore call.answer := by
  rw [abort]
  split
  · next call hcall =>
    have hserial := Keyed.key_of_find hcall
    rw [← hserial] at hcall
    refine calls_set hcall ?_ h.calls ?_
    · rfl
    · exact id
  · exact h.calls

theorem loads (h : s.Sound) : s.load.Sound where
  chats := h.chats
  current := h.current
  sessions := h.sessions
  applied := h.applied
  calls call hcall := by
    rcases List.mem_cons.mp hcall with rfl | hcall
    · refine ⟨?_, ?_, by simp⟩
      · intro row hrow _
        exact List.mem_map_of_mem hrow
      · intro row hrow hnew
        exact absurd (List.mem_map_of_mem hrow) hnew
    · cases hcontroller : s.listController with
      | none =>
        rw [hcontroller] at hcall
        exact (h.calls call hcall).of_same rfl rfl rfl rfl
      | some serial =>
        rw [hcontroller] at hcall
        exact (h.aborts serial call hcall).of_same rfl rfl rfl rfl
  listed := h.listed

theorem answers (h : s.Sound) {call : LoadCall} (hcall : s.call call.serial = some call) :
    ({ s with calls := s.answer call }).Sound where
  chats := h.chats
  current := h.current
  sessions := h.sessions
  applied := h.applied
  calls call' hcall' := by
    have hsound : s.CallSound call'.knownBefore call'.answer := by
      refine calls_set (P := fun call => s.CallSound call.knownBefore call.answer) hcall ?_
        h.calls ?_ call' hcall'
      · rfl
      · intro hsound
        refine ⟨hsound.hinted, hsound.fresh, ?_⟩
        intro taken chats hanswer
        cases hanswer
        refine ⟨Feed.snapshot_now _ _, h.chats, ?_⟩
        intro frame hframe
        rw [List.drop_of_length_le] at hframe
        · cases hframe
        · exact List.length_take_le' _ _
    exact hsound.of_same rfl rfl rfl rfl
  listed := h.listed

/-- Every chat that nothing still to be applied is about is settled by an answer. -/
theorem settled_loaded (h : s.Sound) {knownBefore : List String} {taken : ℕ}
    {chats : List ChatHeader} (hcall : s.CallSound knownBefore (some (taken, chats)))
    (hspared : ∀ frame ∈ (s.published.take s.applied).drop taken,
      frame.chatID ∉ chats.map ChatHeader.id ∧ frame.chatID ∉ knownBefore) (id : String) :
    ({ s with sessions := s.loaded knownBefore chats }).Settled id := by
  obtain ⟨hsnapshot, hchats, happlied⟩ := hcall.answered taken chats rfl
  intro huntouched
  change rowFacts (s.loaded knownBefore chats) id = chatFacts s.chats id
  by_cases hnamed : id ∈ chats.map ChatHeader.id
  · have hsince : Feed.Untouched ChatFrame.chatID (s.published.drop taken) id := by
      rcases Feed.untouched_or_applied taken huntouched with hsince | ⟨frame, hmem, rfl⟩
      · exact hsince
      · exact absurd hnamed (hspared frame hmem).1
    rw [rowFacts_loaded_named hnamed]
    exact hsnapshot.same id hsince
  · rw [rowFacts_loaded_kept hnamed]
    rcases Feed.untouched_or_applied taken huntouched with hsince | ⟨frame, hmem, rfl⟩
    · have hnone : chatFacts s.chats id = none := by
        rw [← hsnapshot.same id hsince, chatFacts, Keyed.find_eq_none.mpr hnamed]
        rfl
      rw [hnone, rowFacts, Option.map_eq_none_iff, Keyed.find_eq_none]
      intro hkept
      obtain ⟨row, hmem, rfl⟩ := List.mem_map.mp hkept
      obtain ⟨hrow, hnew⟩ := List.mem_filter.mp hmem
      simp only [decide_eq_true_eq] at hnew
      have hfacts := hcall.fresh row hrow hnew.1 huntouched
      rw [hnone, rowFacts, Keyed.find_of_mem h.sessions hrow] at hfacts
      cases hfacts
    · have hunknown := (hspared frame hmem).2
      rw [← happlied frame hmem huntouched]
      apply rowFacts_filter
      intro row hrow hid
      have hplain : row.provisional = false := by
        cases hprovisional : row.provisional with
        | false => rfl
        | true => exact absurd (hid ▸ hcall.hinted row hrow hprovisional) hunknown
      simp [hid, hunknown, hnamed, hplain]

theorem resolves (h : s.Sound) {call : LoadCall} (hcall : s.CallSound call.knownBefore call.answer)
    (hspared : s.Spared call) : (s.resolve call).Sound := by
  have hcalls : ∀ call' ∈ Keyed.erase LoadCall.serial s.calls call.serial,
      s.CallSound call'.knownBefore call'.answer := by
    intro call' hcall'
    exact h.calls call' (List.mem_of_mem_filter hcall')
  rw [resolve]
  split
  · refine ⟨h.chats, h.current, h.sessions, h.applied, ?_, h.listed⟩
    intro call' hcall'
    exact (hcalls call' hcall').of_same rfl rfl rfl rfl
  next haborted =>
  split
  · refine ⟨h.chats, h.current, h.sessions, h.applied, ?_, by simp⟩
    intro call' hcall'
    exact (hcalls call' hcall').of_same rfl rfl rfl rfl
  · next taken chats hanswer =>
    have hspare := hspared (by simpa using haborted) (taken, chats) hanswer
    rw [hanswer] at hcall
    have hsettled := h.settled_loaded hcall hspare
    refine ⟨h.chats, h.current, ?_, h.applied, ?_, fun _ => hsettled⟩
    · exact nodup_loaded h.sessions (hcall.answered taken chats rfl).2.1 call.knownBefore
    · intro call' hcall'
      have hsound := hcalls call' hcall'
      refine ⟨?_, fun row _ _ => hsettled row.id, ?_⟩
      · intro row hrow hprovisional
        rcases List.mem_append.mp hrow with hnew | hkept
        · obtain ⟨header, -, rfl⟩ := List.mem_map.mp hnew
          cases hprovisional
        · exact hsound.hinted row (List.mem_of_mem_filter hkept) hprovisional
      · intro taken' chats' hanswer'
        obtain ⟨hsnapshot, hchats, -⟩ := hsound.answered taken' chats' hanswer'
        exact ⟨hsnapshot, hchats, fun frame _ => hsettled frame.chatID⟩

theorem step (h : s.Sound) {e : ListEvent} (hkept : s.Kept e) : (s.step e).Sound := by
  cases e with
  | saves header =>
    have hframe : (s.saveFrame header).chatID = header.id ∧
        (s.saveFrame header).facts = some header.facts := by
      rw [saveFrame]
      split
      · exact ⟨rfl, rfl⟩
      · exact ⟨rfl, rfl⟩
    apply h.publishes (Keyed.nodup_set h.chats)
    · rw [hframe.1, hframe.2, chatFacts_set_self]
    · intro id hne
      rw [hframe.1] at hne
      exact chatFacts_set_of_ne hne
  | deletes id =>
    apply h.publishes (Keyed.nodup_erase h.chats)
    · rw [chatFacts, ChatFrame.chatID, Keyed.find_erase_self]
      rfl
    · intro other hne
      have hother : other ≠ id := hne
      rw [chatFacts, Keyed.find_erase_of_ne hother, chatFacts]
  | delivers =>
    simp only [ListState.step]
    split
    · next frame hframe => exact h.delivers hframe
    · exact h
  | loads => exact h.loads
  | aborts serial =>
    refine ⟨h.chats, h.current, h.sessions, h.applied, ?_, h.listed⟩
    intro call hcall
    exact (h.aborts serial call hcall).of_same rfl rfl rfl rfl
  | answers serial =>
    simp only [ListState.step]
    split
    · next call hcall =>
      split
      · have hserial := Keyed.key_of_find hcall
        rw [← hserial] at hcall
        exact h.answers hcall
      · exact h
    · exact h
  | resolves serial =>
    simp only [ListState.step]
    split
    · next call hcall =>
      split
      · exact h.resolves (h.calls call (Keyed.mem_of_find hcall)) (hkept call hcall)
      · exact h
    · exact h
  | fails serial =>
    simp only [ListState.step]
    split
    · next call hcall =>
      have hsound := h.calls call (Keyed.mem_of_find hcall)
      apply h.resolves
      · exact ⟨hsound.hinted, hsound.fresh, by simp⟩
      · intro _ answer hanswer
        cases hanswer
    · exact h

theorem converged (h : s.Sound) : s.Converged := by
  intro happlied _ hreach
  refine ⟨h.sessions, ?_⟩
  intro id
  apply h.listed hreach id
  rw [happlied, List.drop_length]
  intro frame hframe
  cases hframe

end Sound

/-- While every answer that lands spares the chats of the frames applied since it was taken, the
browser's list converges. -/
theorem list_converges (hs : s.Started) (events : List ListEvent)
    (hkept : Along step (fun s e => Kept s e) s events) : (runFrom step s events).Converged := by
  have hsound := hkept.invariant hs.sound fun _ _ hs he => hs.step he
  exact hsound.converged

/-- A chat is created while the list is read. -/
theorem list_converges_created :
    (runFrom step {}
      [.saves { id := "a", name := "A", updatedAt := 1 }, .loads, .answers 0,
        .saves { id := "b", name := "B", updatedAt := 2 }, .resolves 0, .delivers,
        .delivers]).Converged := by
  apply list_converges
  · exact ⟨List.nodup_nil, rfl, List.nodup_nil, rfl, rfl, by simp⟩
  · decide +kernel

/-- An update is delivered while an answer from before it is on its way, and is lost. -/
theorem answer_undoes_update :
    ¬ (runFrom step {}
      [.saves { id := "a", name := "A", updatedAt := 1 }, .delivers, .loads, .answers 0,
        .saves { id := "a", name := "A2", updatedAt := 2 }, .delivers, .resolves 0]).Converged := by
  intro hconverged
  have hfacts := (hconverged (by decide +kernel) (by decide +kernel) (by decide +kernel)).2 "a"
  exact absurd hfacts (by decide +kernel)

end ListState
end Marotte.ChatList
