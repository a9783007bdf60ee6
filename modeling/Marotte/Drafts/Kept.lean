import Marotte.Library.Along
import Mathlib.Logic.Function.Basic

/-! # Composer drafts

The draft of every chat, the chat the box belongs to and the one slot of the debounced save, under
typing, switches, seeds, frames, restores and drops.
-/
namespace Marotte.Drafts

abbrev Text := List Char

/-- One `set_draft`. The empty chat id is no chat. -/
structure Save where
  chatID : Text
  text : Text
  deriving DecidableEq

structure Composer where
  drafts : Text → Option Text
  liveChatID : Text
  box : Text
  pending : Option Save
  sent : List Save

inductive Op where
  | type (text : Text)
  | blur
  | save
  | restore (chatID : Text)
  | retarget (chatID : Text)
  | seed (chatID : Text) (draft : Option Text)
  | failedSend (chatID text : Text)
  | refusedEdit (chatID taken before : Text)
  | remote (chatID text : Text)
  | drop (chatID : Text)
  | fire

namespace Composer

def setDraft (s : Composer) (chatID text : Text) : Composer :=
  { s with drafts := Function.update s.drafts chatID (some text) }

/-! ## The slot -/

/-- A call of the debounced save replaces what is pending. -/
def schedule (s : Composer) (save : Save) : Composer :=
  { s with pending := some save }

/-- A flush sends its argument and empties the slot. -/
def flush (s : Composer) (save : Save) : Composer :=
  { s with pending := none, sent := s.sent ++ [save] }

def fire (s : Composer) : Composer :=
  match s.pending with
  | none => s
  | some save => s.flush save

/-! ## Operations -/

def noteComposerText (s : Composer) (text : Text) : Composer :=
  if s.liveChatID = [] then s
  else if s.drafts s.liveChatID = some text then s
  else (s.setDraft s.liveChatID text).schedule ⟨s.liveChatID, text⟩

def liveDraft (s : Composer) : Text :=
  (s.drafts s.liveChatID).getD []

def flushComposerDraft (s : Composer) : Composer :=
  if s.liveChatID = [] ∨ s.pending = none then s
  else s.flush ⟨s.liveChatID, s.liveDraft⟩

def saveComposerState (s : Composer) : Composer :=
  { s.flushComposerDraft with liveChatID := [] }

def restoreComposerState (s : Composer) (chatID : Text) : Composer :=
  { s with liveChatID := chatID, box := (s.drafts chatID).getD [] }

def retargetComposer (s : Composer) (chatID : Text) : Composer :=
  s.saveComposerState.restoreComposerState chatID

/-- The stored draft loses to a local one. -/
def seedComposerState (s : Composer) (chatID : Text) (draft : Option Text) : Composer :=
  if s.drafts chatID ≠ none then s
  else
    let text := draft.getD []
    let s := s.setDraft chatID text
    if text = [] ∨ chatID ≠ s.liveChatID then s
    else if s.box = [] then { s with box := text }
    else s

def restoreFailedSend (s : Composer) (chatID text : Text) : Composer :=
  if chatID = [] ∨ text = [] then s
  else if (s.drafts chatID).getD [] ≠ [] then s
  else
    let s := (s.setDraft chatID text).schedule ⟨chatID, text⟩
    if chatID = s.liveChatID ∧ s.box = [] then { s with box := text } else s

/-- Only for the live chat is the save debounced. For another one what is pending is flushed
first. -/
def restoreRefusedEdit (s : Composer) (chatID taken before : Text) : Composer :=
  if chatID = [] ∨ s.drafts chatID ≠ some taken then s
  else
    let s := s.setDraft chatID before
    if chatID = s.liveChatID then
      let s := s.schedule ⟨chatID, before⟩
      if s.box = taken then { s with box := before } else s
    else s.flushComposerDraft.flush ⟨chatID, before⟩

def adoptRemoteComposerState (s : Composer) (chatID text : Text) : Composer :=
  if chatID = [] ∨ chatID = s.liveChatID then s else s.setDraft chatID text

def dropComposerState (s : Composer) (chatID : Text) : Composer :=
  let s := { s with drafts := Function.update s.drafts chatID none }
  if chatID = s.liveChatID then { s with liveChatID := [], box := [] } else s

/-- The text typed is what the box holds. -/
def step (s : Composer) : Op → Composer
  | .type text => { s with box := text }.noteComposerText text
  | .blur => s.flushComposerDraft
  | .save => s.saveComposerState
  | .restore chatID => s.restoreComposerState chatID
  | .retarget chatID => s.retargetComposer chatID
  | .seed chatID draft => s.seedComposerState chatID draft
  | .failedSend chatID text => s.restoreFailedSend chatID text
  | .refusedEdit chatID taken before => s.restoreRefusedEdit chatID taken before
  | .remote chatID text => s.adoptRemoteComposerState chatID text
  | .drop chatID => s.dropComposerState chatID
  | .fire => s.fire

def empty : Composer where
  drafts _ := none
  liveChatID := []
  box := []
  pending := none
  sent := []

/-- The text of the last save sent for a chat. -/
def lastSent (s : Composer) (chatID : Text) : Option Text :=
  ((s.sent.filter fun save => save.chatID = chatID).getLast?).map Save.text

end Composer

/-! ## No draft is lost or misfiled

What the drafts held and were given along a run, and the runs whose saves all reach the chat they
are owed to.
-/

variable {s : Composer} {held held' : Text → Text → Prop} {given : Text → Option Text}
  {chatID text : Text} {save : Save} {op : Op}

/-! ## The history of a run -/

/-- The draft that typing, a failed send or a refused edit gives a chat. -/
def gives (s : Composer) : Op → Option Save
  | .type text =>
    if s.liveChatID = [] ∨ s.drafts s.liveChatID = some text then none
    else some ⟨s.liveChatID, text⟩
  | .failedSend chatID text =>
    if chatID = [] ∨ text = [] ∨ (s.drafts chatID).getD [] ≠ [] then none
    else some ⟨chatID, text⟩
  | .refusedEdit chatID taken before =>
    if chatID = [] ∨ s.drafts chatID ≠ some taken then none
    else some ⟨chatID, before⟩
  | _ => none

/-- The composer with the drafts each chat has held and the last one given to it since it was
dropped. -/
structure World where
  composer : Composer
  held : Text → Text → Prop
  given : Text → Option Text

def givenAfter (s : Composer) (given : Text → Option Text) : Op → Text → Option Text
  | .drop chatID => Function.update given chatID none
  | op =>
    match gives s op with
    | none => given
    | some save => Function.update given save.chatID (some save.text)

def World.step (w : World) (op : Op) : World where
  composer := w.composer.step op
  held chatID text := w.held chatID text ∨ (w.composer.step op).drafts chatID = some text
  given := givenAfter w.composer w.given op

def World.start : World where
  composer := .empty
  held _ _ := False
  given _ := none

/-- Every save sent carries a draft its chat held, and with nothing pending the last one of each
chat carries the last draft given to it. -/
structure Saved (w : World) : Prop where
  held : ∀ save ∈ w.composer.sent, w.held save.chatID save.text
  last : w.composer.pending = none → ∀ chatID text, w.given chatID = some text →
    w.composer.lastSent chatID = some text

/-! ## What is owed -/

/-- What is pending is for the chat, or for one that is owed nothing. -/
def Free (s : Composer) (given : Text → Option Text) (chatID : Text) : Prop :=
  ∀ save, s.pending = some save → save.chatID ≠ chatID →
    ∀ text, given save.chatID = some text → s.lastSent save.chatID = some text

/-- A flush sends the last draft given to the live chat. -/
def Flushable (s : Composer) (given : Text → Option Text) : Prop :=
  s.liveChatID = [] ∨ s.pending = none ∨
    Free s given s.liveChatID ∧ ∃ text, s.drafts s.liveChatID = some text
      ∧ ∀ last, given s.liveChatID = some last → last = text

/-- No step replaces a pending save of a chat that is owed one, and none flushes another draft than
the last given. -/
def Kept (w : World) (op : Op) : Prop :=
  match op with
  | .blur | .save | .retarget _ => Flushable w.composer w.given
  | .refusedEdit chatID _ _ =>
    (gives w.composer op).isSome → if chatID = w.composer.liveChatID ∨ w.composer.liveChatID = []
      then Free w.composer w.given chatID else Flushable w.composer w.given
  | op => ∀ save, gives w.composer op = some save → Free w.composer w.given save.chatID

/-- What is given to a chat has been sent or is pending. -/
structure Inv (s : Composer) (held : Text → Text → Prop) (given : Text → Option Text) : Prop where
  drafts : ∀ chatID text, s.drafts chatID = some text → held chatID text
  pending : ∀ save, s.pending = some save → held save.chatID save.text
  sent : ∀ save ∈ s.sent, held save.chatID save.text
  latest : ∀ save text, s.pending = some save → given save.chatID = some text → save.text = text
  owed : ∀ chatID text, given chatID = some text →
    s.lastSent chatID = some text ∨ s.pending = some ⟨chatID, text⟩

theorem saved_of_inv {w : World} (h : Inv w.composer w.held w.given) : Saved w where
  held := h.sent
  last hnone chatID text hgiven := by
    rcases h.owed chatID text hgiven with hsent | hpending
    · exact hsent
    · rw [hnone] at hpending
      contradiction

theorem lastSent_flush (s : Composer) (save : Save) (chatID : Text) :
    (s.flush save).lastSent chatID
      = if save.chatID = chatID then some save.text else s.lastSent chatID := by
  rw [Composer.lastSent, Composer.flush, List.filter_append]
  by_cases h : save.chatID = chatID
  · simp [h]
  · simp [h, Composer.lastSent]

namespace Inv

theorem mono (h : Inv s held given) (hle : ∀ chatID text, held chatID text → held' chatID text) :
    Inv s held' given where
  drafts chatID text hd := hle _ _ (h.drafts chatID text hd)
  pending save hp := hle _ _ (h.pending save hp)
  sent save hs := hle _ _ (h.sent save hs)
  latest := h.latest
  owed := h.owed

theorem setDraft (h : Inv s held given) (hheld : held chatID text) :
    Inv (s.setDraft chatID text) held given where
  drafts c t hd := by
    by_cases hc : c = chatID
    · subst hc
      simp only [Composer.setDraft, Function.update_self, Option.some.injEq] at hd
      exact hd ▸ hheld
    · simp only [Composer.setDraft, Function.update_of_ne hc] at hd
      exact h.drafts c t hd
  pending := h.pending
  sent := h.sent
  latest := h.latest
  owed := h.owed

/-- The last save of every chat but one is the draft last given to it, when the slot is taken from
a save that is owed to no other. -/
theorem sent_of_free (h : Inv s held given) (hfree : Free s given chatID) {c t : Text}
    (hc : c ≠ chatID) (hgiven : given c = some t) : s.lastSent c = some t := by
  rcases h.owed c t hgiven with hsent | hpending
  · exact hsent
  · exact hfree _ hpending hc t hgiven

theorem schedule (h : Inv s held given) (hheld : held chatID text) (hfree : Free s given chatID) :
    Inv (s.schedule ⟨chatID, text⟩) held (Function.update given chatID (some text)) where
  drafts := h.drafts
  pending save hp := by
    obtain rfl : Save.mk chatID text = save := by simpa [Composer.schedule] using hp
    exact hheld
  sent := h.sent
  latest save t hp hgiven := by
    obtain rfl : Save.mk chatID text = save := by simpa [Composer.schedule] using hp
    simpa using hgiven
  owed c t hgiven := by
    by_cases hc : c = chatID
    · subst hc
      rw [Function.update_self, Option.some.injEq] at hgiven
      exact .inr (by rw [Composer.schedule, hgiven])
    · rw [Function.update_of_ne hc] at hgiven
      exact .inl (h.sent_of_free hfree hc hgiven)

/-- A flush for a chat, which may at once be given what is sent. -/
theorem flush (h : Inv s held given) (hheld : held chatID text) (hfree : Free s given chatID)
    {given' : Text → Option Text} (hothers : ∀ c, c ≠ chatID → given' c = given c)
    (hlast : ∀ t, given' chatID = some t → t = text) :
    Inv (s.flush ⟨chatID, text⟩) held given' where
  drafts := h.drafts
  pending save hp := by simp [Composer.flush] at hp
  sent save hs := by
    rw [Composer.flush, List.mem_append, List.mem_singleton] at hs
    rcases hs with hs | rfl
    · exact h.sent save hs
    · exact hheld
  latest save t hp := by simp [Composer.flush] at hp
  owed c t hgiven := by
    left
    rw [lastSent_flush]
    by_cases hc : c = chatID
    · subst hc
      rw [if_pos rfl, hlast t hgiven]
    · rw [hothers c hc] at hgiven
      rw [if_neg (Ne.symm hc)]
      exact h.sent_of_free hfree hc hgiven

theorem drop (h : Inv s held given) (chatID : Text) :
    Inv { s with drafts := Function.update s.drafts chatID none } held
      (Function.update given chatID none) where
  drafts c t hd := by
    by_cases hc : c = chatID
    · subst hc
      simp at hd
    · exact h.drafts c t (by simpa [Function.update_of_ne hc] using hd)
  pending := h.pending
  sent := h.sent
  latest save t hp hgiven := by
    by_cases hc : save.chatID = chatID
    · rw [hc, Function.update_self] at hgiven
      contradiction
    · rw [Function.update_of_ne hc] at hgiven
      exact h.latest save t hp hgiven
  owed c t hgiven := by
    by_cases hc : c = chatID
    · rw [hc, Function.update_self] at hgiven
      contradiction
    · rw [Function.update_of_ne hc] at hgiven
      exact h.owed c t hgiven

/-- Neither the box nor the chat it belongs to is owed anything. -/
theorem shown (h : Inv s held given) (liveChatID box : Text) :
    Inv { s with liveChatID := liveChatID, box := box } held given where
  drafts := h.drafts
  pending := h.pending
  sent := h.sent
  latest := h.latest
  owed := h.owed

theorem fire (h : Inv s held given) : Inv s.fire held given := by
  rw [Composer.fire]
  cases hpending : s.pending with
  | none => exact h
  | some save =>
    apply h.flush (h.pending save hpending)
    · intro other hother hne
      rw [hpending, Option.some.injEq] at hother
      exact absurd (hother ▸ rfl) hne
    · intro c _
      rfl
    · intro t hgiven
      exact (h.latest save t hpending hgiven).symm

theorem flushComposerDraft (h : Inv s held given) (hflush : Flushable s given) :
    Inv s.flushComposerDraft held given := by
  rw [Composer.flushComposerDraft]
  split
  · exact h
  · next hsome =>
    rw [not_or] at hsome
    rcases hflush with hlive | hnone | ⟨hfree, text, hdraft, hlast⟩
    · exact absurd hlive hsome.1
    · exact absurd hnone hsome.2
    · rw [Composer.liveDraft, hdraft, Option.getD_some]
      apply h.flush (h.drafts _ _ hdraft) hfree
      · intro c _
        rfl
      · exact hlast

end Inv

/-! ## Steps -/

theorem givenAfter_of_none (h : gives s op = none) (hdrop : ∀ chatID, op ≠ .drop chatID) :
    givenAfter s given op = given := by
  cases op with
  | drop chatID => exact absurd rfl (hdrop chatID)
  | _ => simp only [givenAfter, h]

theorem givenAfter_of_some (h : gives s op = some save) :
    givenAfter s given op = Function.update given save.chatID (some save.text) := by
  cases op with
  | drop chatID => simp [gives] at h
  | _ => simp only [givenAfter, h]

theorem inv_type (h : Inv s held given)
    (hfree : ∀ save, gives s (.type text) = some save → Free s given save.chatID)
    (hheld : ∀ c t, (s.step (.type text)).drafts c = some t → held c t) :
    Inv (s.step (.type text)) held (givenAfter s given (.type text)) := by
  by_cases hskip : s.liveChatID = [] ∨ s.drafts s.liveChatID = some text
  · have hnone : gives s (.type text) = none := if_pos hskip
    have hstep : s.step (.type text) = { s with box := text } := by
      rcases hskip with hlive | hsame
      · simp [Composer.step, Composer.noteComposerText, hlive]
      · simp [Composer.step, Composer.noteComposerText, hsame]
    rw [givenAfter_of_none hnone (by simp), hstep]
    exact h.shown s.liveChatID text
  · have hsome : gives s (.type text) = some ⟨s.liveChatID, text⟩ := if_neg hskip
    rw [not_or] at hskip
    have hstep : s.step (.type text)
        = ({ s with box := text }.setDraft s.liveChatID text).schedule ⟨s.liveChatID, text⟩ := by
      simp [Composer.step, Composer.noteComposerText, hskip.1, hskip.2]
    rw [hstep] at hheld ⊢
    rw [givenAfter_of_some hsome]
    have hlast : held s.liveChatID text :=
      hheld _ _ (by simp [Composer.schedule, Composer.setDraft])
    exact ((h.shown s.liveChatID text).setDraft hlast).schedule hlast (hfree _ hsome)

theorem inv_failedSend (h : Inv s held given)
    (hfree : ∀ save, gives s (.failedSend chatID text) = some save → Free s given save.chatID)
    (hheld : ∀ c t, (s.step (.failedSend chatID text)).drafts c = some t → held c t) :
    Inv (s.step (.failedSend chatID text)) held (givenAfter s given (.failedSend chatID text)) := by
  by_cases hskip : chatID = [] ∨ text = [] ∨ (s.drafts chatID).getD [] ≠ []
  · have hnone : gives s (.failedSend chatID text) = none := if_pos hskip
    have hstep : s.step (.failedSend chatID text) = s := by
      rw [Composer.step, Composer.restoreFailedSend]
      split
      · rfl
      · next hguard => rw [if_pos (by tauto)]
    rw [givenAfter_of_none hnone (by simp), hstep]
    exact h
  · have hsome : gives s (.failedSend chatID text) = some ⟨chatID, text⟩ := if_neg hskip
    rw [not_or, not_or, not_not] at hskip
    have hlast : held chatID text := by
      apply hheld
      rw [Composer.step, Composer.restoreFailedSend, if_neg (by tauto), if_neg (by tauto)]
      simp only
      split <;> simp [Composer.schedule, Composer.setDraft]
    rw [givenAfter_of_some hsome, Composer.step, Composer.restoreFailedSend, if_neg (by tauto),
      if_neg (by tauto)]
    have hscheduled := (h.setDraft hlast).schedule hlast (hfree _ hsome)
    simp only
    split
    · exact hscheduled.shown _ text
    · exact hscheduled

theorem drafts_flushComposerDraft (s : Composer) : s.flushComposerDraft.drafts = s.drafts := by
  rw [Composer.flushComposerDraft]
  split <;> rfl

theorem pending_flushComposerDraft (h : s.liveChatID ≠ []) : s.flushComposerDraft.pending = none := by
  rw [Composer.flushComposerDraft]
  split
  · next hguard => exact hguard.resolve_left h
  · rfl

theorem Flushable.setDraft (h : Flushable s given) (hne : chatID ≠ s.liveChatID) :
    Flushable (s.setDraft chatID text) given := by
  rcases h with hlive | hnone | ⟨hfree, last, hdraft, hlast⟩
  · exact .inl hlive
  · exact .inr (.inl hnone)
  · refine .inr (.inr ⟨hfree, last, ?_, hlast⟩)
    simpa [Composer.setDraft, Function.update_of_ne hne.symm] using hdraft

/-- What is pending goes out before the draft that is put back. -/
theorem inv_flush_both (h : Inv s held given) (hheld : held chatID text) (hne : chatID ≠ s.liveChatID)
    (hfree : s.liveChatID = [] → Free s given chatID)
    (hflush : s.liveChatID ≠ [] → Flushable s given) :
    Inv (s.flushComposerDraft.flush ⟨chatID, text⟩) held
      (Function.update given chatID (some text)) := by
  have hothers : ∀ c, c ≠ chatID → Function.update given chatID (some text) c = given c :=
    fun c hc => Function.update_of_ne hc _ _
  have hlast : ∀ t, Function.update given chatID (some text) chatID = some t → t = text := by
    intro t ht
    simpa using ht.symm
  by_cases hlive : s.liveChatID = []
  · have hskip : s.flushComposerDraft = s := if_pos (.inl hlive)
    rw [hskip]
    exact h.flush hheld (hfree hlive) hothers hlast
  · apply (h.flushComposerDraft (hflush hlive)).flush hheld _ hothers hlast
    intro save hsave
    rw [pending_flushComposerDraft hlive] at hsave
    contradiction

theorem inv_refusedEdit {taken before : Text} (h : Inv s held given)
    (hkept : (gives s (.refusedEdit chatID taken before)).isSome →
      if chatID = s.liveChatID ∨ s.liveChatID = [] then Free s given chatID else Flushable s given)
    (hheld : ∀ c t, (s.step (.refusedEdit chatID taken before)).drafts c = some t → held c t) :
    Inv (s.step (.refusedEdit chatID taken before)) held
      (givenAfter s given (.refusedEdit chatID taken before)) := by
  by_cases hskip : chatID = [] ∨ s.drafts chatID ≠ some taken
  · have hnone : gives s (.refusedEdit chatID taken before) = none := if_pos hskip
    rw [givenAfter_of_none hnone (by simp), Composer.step, Composer.restoreRefusedEdit,
      if_pos hskip]
    exact h
  · have hsome : gives s (.refusedEdit chatID taken before) = some ⟨chatID, before⟩ := if_neg hskip
    rw [hsome, Option.isSome_some] at hkept
    have hlast : held chatID before := by
      apply hheld
      rw [Composer.step, Composer.restoreRefusedEdit, if_neg hskip]
      simp only
      split
      · split <;> simp [Composer.schedule, Composer.setDraft]
      · simp [Composer.flush, drafts_flushComposerDraft, Composer.setDraft]
    rw [givenAfter_of_some hsome, Composer.step, Composer.restoreRefusedEdit, if_neg hskip]
    have hdraft := h.setDraft hlast
    simp only
    split
    · next hlive =>
      rw [if_pos (.inl hlive)] at hkept
      have hscheduled := hdraft.schedule hlast (hkept rfl)
      split
      · exact hscheduled.shown _ before
      · exact hscheduled
    · next hlive =>
      have hne : chatID ≠ s.liveChatID := hlive
      apply inv_flush_both hdraft hlast hne
      · intro hempty
        have hempty : s.liveChatID = [] := hempty
        rw [if_pos (.inr hempty)] at hkept
        exact hkept rfl
      · intro hsome
        have hsome : s.liveChatID ≠ [] := hsome
        rw [if_neg (not_or.2 ⟨hne, hsome⟩)] at hkept
        exact (hkept rfl).setDraft hne

theorem inv_seed {draft : Option Text} (h : Inv s held given)
    (hheld : ∀ c t, (s.step (.seed chatID draft)).drafts c = some t → held c t) :
    Inv (s.step (.seed chatID draft)) held given := by
  by_cases hlocal : s.drafts chatID ≠ none
  · rw [Composer.step, Composer.seedComposerState, if_pos hlocal]
    exact h
  · have hlast : held chatID (draft.getD []) := by
      apply hheld
      rw [Composer.step, Composer.seedComposerState, if_neg hlocal]
      simp only
      split
      · simp [Composer.setDraft]
      · split <;> simp [Composer.setDraft]
    have hdraft := h.setDraft hlast
    rw [Composer.step, Composer.seedComposerState, if_neg hlocal]
    simp only
    split
    · exact hdraft
    · split
      · exact hdraft.shown _ (draft.getD [])
      · exact hdraft

theorem inv_remote (h : Inv s held given)
    (hheld : ∀ c t, (s.step (.remote chatID text)).drafts c = some t → held c t) :
    Inv (s.step (.remote chatID text)) held given := by
  by_cases hskip : chatID = [] ∨ chatID = s.liveChatID
  · rw [Composer.step, Composer.adoptRemoteComposerState, if_pos hskip]
    exact h
  · have hlast : held chatID text := by
      apply hheld
      rw [Composer.step, Composer.adoptRemoteComposerState, if_neg hskip]
      simp [Composer.setDraft]
    rw [Composer.step, Composer.adoptRemoteComposerState, if_neg hskip]
    exact h.setDraft hlast

theorem inv_drop (h : Inv s held given) (chatID : Text) :
    Inv (s.step (.drop chatID)) held (Function.update given chatID none) := by
  rw [Composer.step, Composer.dropComposerState]
  simp only
  split
  · exact (h.drop chatID).shown [] []
  · exact h.drop chatID

/-- Each step under the condition keeps what is owed. -/
theorem inv_step {w : World} (h : Inv w.composer w.held w.given) (hkept : Kept w op) :
    Inv (w.step op).composer (w.step op).held (w.step op).given := by
  have hheld : ∀ c t, (w.composer.step op).drafts c = some t → (w.step op).held c t :=
    fun c t hd => .inr hd
  have hinv : Inv w.composer (w.step op).held w.given := h.mono fun c t => .inl
  cases op with
  | type text => exact inv_type hinv hkept hheld
  | blur => exact hinv.flushComposerDraft hkept
  | save => exact (hinv.flushComposerDraft hkept).shown [] _
  | restore chatID => exact hinv.shown chatID _
  | retarget chatID => exact ((hinv.flushComposerDraft hkept).shown [] _).shown chatID _
  | seed chatID draft => exact inv_seed hinv hheld
  | failedSend chatID text => exact inv_failedSend hinv hkept hheld
  | refusedEdit chatID taken before => exact inv_refusedEdit hinv hkept hheld
  | remote chatID text => exact inv_remote hinv hheld
  | drop chatID => exact inv_drop hinv chatID
  | fire => exact hinv.fire

theorem inv_start : Inv World.start.composer World.start.held World.start.given where
  drafts chatID text h := by simp [World.start, Composer.empty] at h
  pending save h := by simp [World.start, Composer.empty] at h
  sent save h := by simp [World.start, Composer.empty] at h
  latest save text h := by simp [World.start, Composer.empty] at h
  owed chatID text h := by simp [World.start] at h

/-- No draft is lost or misfiled in a run that keeps what is owed. -/
theorem saved_of_kept {ops : List Op} (h : Along World.step Kept World.start ops) :
    Saved (runFrom World.step World.start ops) := by
  apply saved_of_inv
  apply h.invariant (Q := fun w => Inv w.composer w.held w.given) inv_start
  intro w op hinv hkept
  exact inv_step hinv hkept

/-- A typed draft goes out with the timer. -/
theorem saved_of_kept_typed :
    Saved (runFrom World.step World.start [.restore ['a'], .type ['x'], .fire]) :=
  saved_of_kept (by simp [Along, Kept, World.step, World.start, gives, Free, Composer.empty,
    Composer.step, Composer.restoreComposerState])

/-- A failed send of another chat takes the slot of a draft that is still to be saved. -/
theorem typed_lost : ¬ ∀ ops : List Op, Saved (runFrom World.step World.start ops) := by
  intro h
  have hlast := (h [.restore ['a'], .type ['x'], .failedSend ['b'] ['y'], .fire]).last rfl ['a'] ['x']
    (by decide)
  revert hlast
  decide

end Marotte.Drafts
