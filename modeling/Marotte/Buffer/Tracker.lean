import Marotte.Buffer.Index
import Marotte.Library.Along

/-! # The tracker of all chats

What holds of every chat after any records and clears.
-/
namespace Marotte.Buffer

open ChatLineState

variable {lt : LineTracker} {chatID path : Text} {e : Event}

/-- Every chat tracked is as records leave it. -/
def Good (lt : LineTracker) : Prop :=
  ∀ chatID s, lt chatID = some s → Inv s

theorem Good.getD (h : Good lt) (chatID : Text) : Inv ((lt chatID).getD .empty) := by
  cases hs : lt chatID with
  | none => exact Inv.empty
  | some s => exact h chatID s hs

theorem Good.step (h : Good lt) (e : Event) : Good (lt.step e) := by
  intro chatID s hs
  cases e with
  | record chatID' path r =>
    rw [LineTracker.step] at hs
    by_cases hchat : chatID = chatID'
    · subst hchat
      rw [Function.update_self] at hs
      obtain rfl := Option.some.inj hs
      exact ((h.getD chatID).record path r).inv
    · rw [Function.update_of_ne hchat] at hs
      exact h chatID s hs
  | clear chatID' =>
    rw [LineTracker.step] at hs
    by_cases hchat : chatID = chatID'
    · subst hchat
      rw [Function.update_self] at hs
      contradiction
    · rw [Function.update_of_ne hchat] at hs
      exact h chatID s hs

theorem good_run (events : List Event) : Good (runFrom LineTracker.step newLineTracker events) :=
  runFrom_invariant (fun _ _ hs => by contradiction) (fun _ e h => h.step e) events

theorem get_eq (lt : LineTracker) (chatID path : Text) :
    lt.get chatID path = ((lt chatID).getD .empty).rangesOf path := by
  rw [LineTracker.get]
  cases lt chatID <;> rfl

theorem get_record (lt : LineTracker) (chatID path' : Text) (r : LineRange) (path : Text) :
    (lt.step (.record chatID path' r)).get chatID path
      = (((lt chatID).getD .empty).record path' r).rangesOf path := by
  rw [LineTracker.get, LineTracker.step, Function.update_self, Option.bind_some]

theorem get_step_of_ne (lt : LineTracker) {chatID' : Text} (h : chatID ≠ chatID')
    (he : e = .clear chatID' ∨ ∃ path' r, e = .record chatID' path' r) (path : Text) :
    (lt.step e).get chatID path = lt.get chatID path := by
  rw [LineTracker.get, LineTracker.get]
  obtain rfl | ⟨path', r, rfl⟩ := he <;> rw [LineTracker.step, Function.update_of_ne h]

theorem get_clear (lt : LineTracker) (chatID path : Text) :
    (lt.step (.clear chatID)).get chatID path = none := by
  rw [LineTracker.get, LineTracker.step, Function.update_self, Option.bind_none]

/-- One step of a file that is tracked after it. -/
theorem Good.get_step (h : Good lt) (hkept : (lt.step e).get chatID path ≠ none) :
    (∃ r, e = .record chatID path r ∧ (lt.step e).get chatID path
        = some (((lt.get chatID path).getD [] ++ [r]).rtake maxLineRangesPerFile))
      ∨ (∀ r, e ≠ .record chatID path r) ∧ (lt.step e).get chatID path = lt.get chatID path := by
  cases e with
  | record chatID' path' r =>
    by_cases hchat : chatID = chatID'
    · subst hchat
      have hrecord := (h.getD chatID).record path' r
      rw [get_record] at hkept ⊢
      by_cases hpath : path = path'
      · subst hpath
        refine .inl ⟨r, rfl, ?_⟩
        rw [hrecord.self, get_eq]
      · refine .inr ⟨fun r' heq => hpath ?_, ?_⟩
        · injection heq with _ hpath' _
          exact hpath'.symm
        · rw [get_eq]
          exact (hrecord.other path hpath).resolve_right fun hgone => hkept hgone.1
    · refine .inr ⟨fun r' heq => hchat ?_, get_step_of_ne lt hchat (.inr ⟨path', r, rfl⟩) path⟩
      injection heq with hchat' _ _
      exact hchat'.symm
  | clear chatID' =>
    by_cases hchat : chatID = chatID'
    · subst hchat
      exact absurd (get_clear lt chatID path) hkept
    · exact .inr ⟨fun r heq => by contradiction, get_step_of_ne lt hchat (.inl rfl) path⟩

/-- The ranges recorded for a file. -/
def recordsOf (chatID path : Text) (events : List Event) : List LineRange :=
  events.filterMap fun
    | .record chatID' path' r => if chatID' = chatID ∧ path' = path then some r else none
    | .clear _ => none

theorem recordsOf_record (chatID path : Text) (events : List Event) (r : LineRange) :
    recordsOf chatID path (events ++ [.record chatID path r])
      = recordsOf chatID path events ++ [r] := by
  simp [recordsOf, List.filterMap_append]

theorem recordsOf_of_ne (events : List Event) (he : ∀ r, e ≠ .record chatID path r) :
    recordsOf chatID path (events ++ [e]) = recordsOf chatID path events := by
  rw [recordsOf, List.filterMap_append, recordsOf]
  cases e with
  | record chatID' path' r =>
    have hne : ¬ (chatID' = chatID ∧ path' = path) := by
      rintro ⟨rfl, rfl⟩
      exact he r rfl
    simp [hne]
  | clear chatID' => simp

/-- The ranges of a file that has been tracked since it was not. -/
theorem get_since (before after : List Event)
    (hbefore : (runFrom LineTracker.step newLineTracker before).get chatID path = none)
    (hkept : ∀ mid rest, mid ≠ [] → after = mid ++ rest →
      (runFrom LineTracker.step newLineTracker (before ++ mid)).get chatID path ≠ none) :
    ((runFrom LineTracker.step newLineTracker (before ++ after)).get chatID path).getD []
      = (recordsOf chatID path after).rtake maxLineRangesPerFile := by
  induction after using List.reverseRecOn with
  | nil =>
    rw [List.append_nil, hbefore]
    exact (Recent.rtake_of_length_le (Nat.zero_le _)).symm
  | append_singleton after e ih =>
    have hmid := ih fun mid rest hne heq =>
      hkept mid (rest ++ [e]) hne (by rw [heq, List.append_assoc])
    have htracked := hkept (after ++ [e]) [] (by simp) (by simp)
    rw [← List.append_assoc, runFrom_concat] at htracked ⊢
    rcases (good_run (before ++ after)).get_step htracked with ⟨r, rfl, hget⟩ | ⟨hne, hget⟩
    · rw [hget, Option.getD_some, hmid, Recent.rtake_rtake_append, recordsOf_record]
    · rw [hget, hmid, recordsOf_of_ne after hne]

/-- The maps and the heap hold the same files, every entry is where its index says, and its turn is
that of the newest range. -/
structure Exact (s : ChatLineState) : Prop where
  paths : (s.h.map fun e => (s.entry e).path).Nodup
  entries : ∀ path, s.rangesOf path ≠ none ↔ s.entries path ≠ none
  heap : ∀ path e, s.entries path = some e ↔ e ∈ s.h ∧ (s.entry e).path = path
  index : ∀ (k e : ℕ), s.h[k]? = some e → (s.entry e).index = k
  turn : ∀ path e ranges, s.entries path = some e → s.rangesOf path = some ranges →
    (s.entry e).lastTurn = lastTurnOf ranges
  files : (s.ranges.map File.path).Nodup ∧ s.ranges.length ≤ maxFilesPerChat
  ranges : ∀ path ranges, s.rangesOf path = some ranges → ranges.length ≤ maxLineRangesPerFile

end Marotte.Buffer
