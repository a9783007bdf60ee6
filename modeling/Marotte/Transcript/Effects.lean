import Marotte.Transcript.Held

/-! # What a step changes in a window

Which turns a step leaves held and with which entries, and which reads it leaves answered.
-/
namespace Marotte.Transcript

variable {c c' : Client} {e : Entry} {f : Frame} {turn turn' : String} {st st' : TurnState}

namespace Client

/-! ## Reads -/

/-- The answered reads of a window are among those of another. -/
structure ReadsOf (c' c : Client) : Prop where
  load : ∀ r ∈ c'.load, r ∈ c.load ∨ r.answer = none
  repairs : ∀ r ∈ c'.repairs, r ∈ c.repairs ∨ r.answer = none

namespace ReadsOf

theorem of_eq (hl : c'.load = c.load) (hr : c'.repairs = c.repairs) : c'.ReadsOf c where
  load _ hmem := .inl (hl ▸ hmem)
  repairs _ hmem := .inl (hr ▸ hmem)

theorem refl (c : Client) : c.ReadsOf c := of_eq rfl rfl

theorem trans {c'' : Client} (h : c''.ReadsOf c') (h' : c'.ReadsOf c) : c''.ReadsOf c where
  load r hr := (h.load r hr).elim (h'.load r) .inr
  repairs r hr := (h.repairs r hr).elim (h'.repairs r) .inr

theorem congr {c'' : Client} (h : c'.ReadsOf c) (hl : c''.load = c'.load)
    (hr : c''.repairs = c'.repairs) : c''.ReadsOf c := (of_eq hl hr).trans h

theorem requestTurnRange (c : Client) (turn : String) (after : Option ℕ) :
    (c.requestTurnRange turn after).ReadsOf c := by
  rw [Client.requestTurnRange]
  split
  · exact refl c
  · refine ⟨fun _ hr => .inl hr, ?_⟩
    intro r hr
    rcases List.mem_append.mp hr with hr | hr
    · exact .inl hr
    · rw [List.mem_singleton.mp hr]
      exact .inr rfl

theorem markWindowStale (c : Client) : c.markWindowStale.ReadsOf c := by
  rw [Client.markWindowStale]
  split
  · exact of_eq rfl rfl
  · exact refl c

theorem markHole (c : Client) (turn : String) (after : Option ℕ) :
    (c.markHole turn after).ReadsOf c := (requestTurnRange _ turn after).trans (markWindowStale c)

theorem noteResidentMutation (c : Client) : c.noteResidentMutation.ReadsOf c := by
  rw [Client.noteResidentMutation]
  split
  · exact of_eq rfl rfl
  · exact refl c

/-- A record leaves no page answered. -/
theorem abortReadsForRevert (c : Client) (turns : List String) :
    (c.abortReadsForRevert turns).ReadsOf c ∧
      ∀ r ∈ (c.abortReadsForRevert turns).load, r.answer = none := by
  have hload : ∀ r ∈ (c.abortReadsForRevert turns).load, r.answer = none := by
    intro r hr
    simp only [Client.abortReadsForRevert] at hr
    split at hr
    · next hnone =>
      rw [hnone] at hr
      cases hr
    · split at hr
      · obtain rfl := Option.some_inj.mp hr
        rfl
      · cases hr
  refine ⟨⟨fun r hr => .inr (hload r hr), ?_⟩, hload⟩
  intro r hr
  have hmem := List.mem_of_mem_filter hr
  left
  split at hmem
  · exact hmem
  · split at hmem
    · exact hmem
    · exact hmem

theorem applyRevert (c : Client) (e : Entry) : (c.applyRevert e).ReadsOf c := by
  rw [Client.applyRevert]
  split
  · exact (abortReadsForRevert _ _).1.trans (of_eq rfl rfl)
  · exact refl c

theorem setTurn (c : Client) (turn : String) (st : TurnState) : (c.setTurn turn st).ReadsOf c :=
  of_eq rfl rfl

theorem of_none (hl : c'.load = none) (hr : ∀ r ∈ c'.repairs, r ∈ c.repairs) : c'.ReadsOf c := by
  constructor
  · rw [hl]
    nofun
  · exact fun r hmem => .inl (hr r hmem)

theorem loadFails (c : Client) : c.loadFails.ReadsOf c := by
  rw [Client.loadFails]
  split
  · exact refl c
  · exact of_none rfl fun _ hr => hr

theorem endRepair (c : Client) (turn : String) : (c.endRepair turn).ReadsOf c where
  load _ hr := .inl hr
  repairs _ hr := .inl (Keyed.mem_erase.mp hr).1

theorem applyTurnRange (c : Client) (turn : String) (entries : List Entry)
    (tails : List OpenEntry) : (c.applyTurnRange turn entries tails).ReadsOf c := by
  simp only [Client.applyTurnRange]
  generalize hst : (((c.turns turn).getD { entries := [] }).seatRun entries).seatTails turn tails = st
  have hset : (if (c.turns turn).isNone = true then c.insertTurnByOrdinal turn st
      else c.setTurn turn st).ReadsOf c := by
    split
    · exact of_eq rfl rfl
    · exact of_eq rfl rfl
  generalize (if (c.turns turn).isNone = true then c.insertTurnByOrdinal turn st
    else c.setTurn turn st) = c' at hset ⊢
  split
  · exact refl c
  · split
    · exact refl c
    · split
      · split
        · exact (requestTurnRange c' _ _).trans hset
        · exact hset
      · split
        · exact hset.congr rfl rfl
        · exact hset

theorem rangeArrives (c : Client) (turn : String) : (c.rangeArrives turn).ReadsOf c := by
  simp only [Client.rangeArrives]
  split
  · exact refl c
  · split
    · exact refl c
    · exact endRepair c turn
    · exact (applyTurnRange _ turn _ _).trans (endRepair c turn)

end ReadsOf

/-! ## Frames -/

@[simp] theorem turns_markHole (c : Client) (turn : String) (after : Option ℕ) :
    (c.markHole turn after).turns = c.turns ∧
      (c.markHole turn after).turnOrder = c.turnOrder := by
  simp only [markHole, markWindowStale, requestTurnRange]
  split <;> split <;> exact ⟨rfl, rfl⟩

@[simp] theorem turns_noteResidentMutation (c : Client) :
    c.noteResidentMutation.turns = c.turns ∧
      c.noteResidentMutation.turnOrder = c.turnOrder := by
  rw [noteResidentMutation]
  split <;> exact ⟨rfl, rfl⟩

theorem turns_abortReadsForRevert (c : Client) (turns : List String) :
    (c.abortReadsForRevert turns).turns = c.turns ∧
      (c.abortReadsForRevert turns).turnOrder = c.turnOrder := by
  simp only [abortReadsForRevert]
  split
  · exact ⟨rfl, rfl⟩
  · split <;> exact ⟨rfl, rfl⟩

theorem turns_applyRevert (h : (c.applyRevert e).turns turn = some st) :
    c.turns turn = some st := by
  rw [applyRevert] at h
  split at h
  · rw [(turns_abortReadsForRevert _ _).1] at h
    simp only at h
    split at h
    · cases h
    · exact h
  · exact h

theorem turns_setTurn (h : (c.setTurn turn' st').turns turn = some st) :
    turn = turn' ∧ st = st' ∨ c.turns turn = some st := by
  by_cases ht : turn = turn'
  · rw [ht, turns_setTurn_self] at h
    exact .inl ⟨ht, (Option.some_inj.mp h).symm⟩
  · rw [turns_setTurn_of_ne c st' ht] at h
    exact .inr h

/-- A window with some held turns extended, and all else as it was. -/
structure Extended (c' c : Client) : Prop where
  turns : ∀ turn st, c'.turns turn = some st →
    ∃ st₀, c.turns turn = some st₀ ∧ st₀.entries <+: st.entries
  order : c'.turnOrder = c.turnOrder
  reads : c'.ReadsOf c

namespace Extended

theorem refl (c : Client) : c.Extended c := ⟨fun _ st h => ⟨st, h, List.prefix_rfl⟩, rfl, .refl c⟩

theorem setTurn (c : Client) (h : c.turns turn = some st) (hpre : st.entries <+: st'.entries) :
    (c.setTurn turn st').Extended c where
  turns turn' st'' hst := by
    rcases turns_setTurn hst with ⟨rfl, rfl⟩ | hst
    · exact ⟨st, h, hpre⟩
    · exact ⟨st'', hst, List.prefix_rfl⟩
  order := rfl
  reads := .setTurn c turn st'

theorem trans {c'' : Client} (h : c''.Extended c') (h' : c'.Extended c) : c''.Extended c where
  turns turn st hst := by
    obtain ⟨st₁, hst₁, hpre₁⟩ := h.turns turn st hst
    obtain ⟨st₀, hst₀, hpre₀⟩ := h'.turns turn st₁ hst₁
    exact ⟨st₀, hst₀, hpre₀.trans hpre₁⟩
  order := h.order.trans h'.order
  reads := h.reads.trans h'.reads

theorem noteResidentMutation (c : Client) : c.noteResidentMutation.Extended c where
  turns turn st hst := by
    rw [(turns_noteResidentMutation c).1] at hst
    exact ⟨st, hst, List.prefix_rfl⟩
  order := (turns_noteResidentMutation c).2
  reads := .noteResidentMutation c

end Extended

/-- A frame extends held turns, and may then find a hole or a record. -/
inductive Follows (c c' : Client) : Prop where
  | plain (h : c'.Extended c)
  | hole (c₁ : Client) (turn : String) (after : Option ℕ) (h : c₁.Extended c)
    (heq : c' = c₁.markHole turn after)
  | record (c₁ : Client) (e : Entry) (h : c₁.Extended c) (heq : c' = c₁.applyRevert e)

theorem follows_hole (c : Client) (turn : String) (after : Option ℕ) :
    c.Follows (c.markHole turn after) := .hole c turn after (.refl c) rfl

theorem follows_appendEntry (c₁ : Client) (e : Entry) (h : c₁.Extended c) :
    c.Follows (c₁.appendEntry e) := by
  simp only [appendEntry]
  split
  · split
    · exact .record c₁ e h rfl
    · exact .hole c₁ _ _ h rfl
  · next held hheld =>
    split
    · split
      · exact .plain h
      · exact .hole c₁ _ _ h rfl
    · have hnoted : c₁.noteResidentMutation.turns e.turn = some held := by
        rw [(turns_noteResidentMutation c₁).1]
        exact hheld
      have hpush : (c₁.noteResidentMutation.setTurn e.turn (held.push e)).Extended
          c₁.noteResidentMutation := .setTurn _ hnoted (List.prefix_append _ _)
      have hset := (hpush.trans (.noteResidentMutation c₁)).trans h
      split
      · exact .record _ e hset rfl
      · exact .plain hset

/-- A frame opens a turn that is not held, or follows what is held. -/
theorem receive_cases (c : Client) (f : Frame) :
    (∃ e, f = .turnOpened e ∧ c.turns e.turn = none ∧ c.receive f = { c.noteResidentMutation with
      turns := Function.update c.turns e.turn (some { entries := [e] })
      turnOrder := c.turnOrder ++ [e.turn] }) ∨ c.Follows (c.receive f) := by
  cases f with
  | turnOpened e =>
    simp only [receive, openTurn]
    split
    · exact .inr (.plain (.refl c))
    · next hnone =>
      refine .inl ⟨e, rfl, by simpa using hnone, ?_⟩
      simp only [setTurn, (turns_noteResidentMutation c).1, (turns_noteResidentMutation c).2]
  | entryOpened o =>
    simp only [receive, openEntry]
    split
    · exact .inr (follows_hole c _ _)
    · next held hheld => exact .inr (.plain (.setTurn c hheld List.prefix_rfl))
  | entryDelta turn id lane n delta =>
    simp only [receive, applyDelta]
    split
    · exact .inr (follows_hole c _ _)
    · next held hheld =>
      split
      · split
        · exact .inr (.plain (.setTurn c hheld List.prefix_rfl))
        · exact .inr (follows_hole c _ _)
      · exact .inr (follows_hole c _ _)
  | entrySealed turn id lane seq ts n =>
    simp only [receive, sealEntry]
    split
    · exact .inr (follows_hole c _ _)
    · next held hheld =>
      split
      · split
        · exact .inr (follows_appendEntry _ _ (.setTurn c hheld List.prefix_rfl))
        · exact .inr (follows_hole c _ _)
      · exact .inr (follows_hole c _ _)
  | entryAppended e => exact .inr (follows_appendEntry c e (.refl c))

theorem Follows.reads (h : c.Follows c') : c'.ReadsOf c := by
  cases h with
  | plain h => exact h.reads
  | hole c₁ turn after h heq =>
    rw [heq]
    exact (ReadsOf.markHole c₁ turn after).trans h.reads
  | record c₁ e h heq =>
    rw [heq]
    exact (ReadsOf.applyRevert c₁ e).trans h.reads

theorem reads_receive (c : Client) (f : Frame) : (c.receive f).ReadsOf c := by
  rcases receive_cases c f with ⟨e, -, -, heq⟩ | h
  · rw [heq]
    exact (ReadsOf.noteResidentMutation c).congr rfl rfl
  · exact h.reads

theorem Follows.turns (h : c.Follows c') (hst : c'.turns turn = some st) :
    ∃ st₀, c.turns turn = some st₀ ∧ st₀.entries <+: st.entries := by
  cases h with
  | plain h => exact h.turns turn st hst
  | hole c₁ turn' after h heq =>
    rw [heq, (turns_markHole ..).1] at hst
    exact h.turns turn st hst
  | record c₁ e h heq =>
    rw [heq] at hst
    exact h.turns turn st (turns_applyRevert hst)

/-- What a window holds of a turn after a frame: what it held and entries after it, or the turn's
open that the frame brought. -/
theorem turns_receive (h : (c.receive f).turns turn = some st) :
    (∃ st₀, c.turns turn = some st₀ ∧ st₀.entries <+: st.entries) ∨
      ∃ e, f = .turnOpened e ∧ turn = e.turn ∧ st = { entries := [e] } := by
  rcases receive_cases c f with ⟨e, hf, -, heq⟩ | hfollows
  · rw [heq] at h
    by_cases ht : turn = e.turn
    · rw [ht] at h
      simp only [Function.update_self, Option.some_inj] at h
      exact .inr ⟨e, hf, ht, h.symm⟩
    · simp only [Function.update_of_ne ht] at h
      exact .inl ⟨st, h, List.prefix_rfl⟩
  · exact .inl (hfollows.turns h)

/-- Every held turn has its place in the order. -/
def Indexed (c : Client) : Prop := ∀ turn st, c.turns turn = some st → turn ∈ c.turnOrder

theorem Extended.indexed (h : c'.Extended c) (hc : c.Indexed) : c'.Indexed := by
  intro turn st hst
  obtain ⟨st₀, hst₀, -⟩ := h.turns turn st hst
  rw [h.order]
  exact hc turn st₀ hst₀

theorem Indexed.applyRevert (h : c.Indexed) (e : Entry) : (c.applyRevert e).Indexed := by
  intro turn st hst
  simp only [Client.applyRevert] at hst ⊢
  split at hst
  · rw [(turns_abortReadsForRevert _ _).1] at hst
    rw [(turns_abortReadsForRevert _ _).2]
    simp only at hst ⊢
    split at hst
    · cases hst
    · next hkept => exact List.mem_filter.mpr ⟨h turn st hst, decide_eq_true hkept⟩
  · exact h turn st hst

theorem Indexed.receive (h : c.Indexed) (f : Frame) : (c.receive f).Indexed := by
  rcases receive_cases c f with ⟨e, -, -, heq⟩ | hfollows
  · rw [heq]
    intro turn st hst
    by_cases ht : turn = e.turn
    · exact List.mem_append_right _ (List.mem_singleton.mpr ht)
    · simp only [Function.update_of_ne ht] at hst
      exact List.mem_append_left _ (h turn st hst)
  · cases hfollows with
    | plain hc => exact hc.indexed h
    | hole c₁ turn' after hc heq =>
      rw [heq]
      intro turn st hst
      rw [(turns_markHole ..).1] at hst
      rw [(turns_markHole ..).2]
      exact hc.indexed h turn st hst
    | record c₁ e hc heq =>
      rw [heq]
      exact (hc.indexed h).applyRevert e

/-! ## Records -/

/-- The turns a record drops do not hang on what its carrier holds. -/
theorem droppedBy_setTurn (c : Client) (carrier : String) (st : TurnState) (fromN : ℕ) :
    (c.setTurn carrier st).droppedBy carrier fromN = c.droppedBy carrier fromN := by
  apply List.filter_congr
  intro id _
  by_cases hid : id = carrier
  · simp [hid]
  · simp [hid, heldOrdinal, turns_setTurn_of_ne c st hid]

theorem droppedBy_noteResidentMutation (c : Client) (carrier : String) (fromN : ℕ) :
    c.noteResidentMutation.droppedBy carrier fromN = c.droppedBy carrier fromN := by
  rw [noteResidentMutation]
  split <;> rfl

theorem applyRevert_drops {fromTurn : String} {fromN : ℕ}
    (hp : e.payload = .turnRevert fromTurn fromN) :
    (∀ id ∈ c.droppedBy e.turn fromN, (c.applyRevert e).turns id = none) ∧
      ∀ r ∈ (c.applyRevert e).load, r.answer = none := by
  simp only [applyRevert, hp]
  constructor
  · intro id hid
    rw [(turns_abortReadsForRevert _ _).1]
    simp only [if_pos hid]
  · exact (ReadsOf.abortReadsForRevert _ _).2

/-- A record that the window applies drops the turns at and above its ordinal, and every page
that is answered. -/
theorem receive_record {fromTurn : String} {fromN : ℕ} (hp : e.payload = .turnRevert fromTurn fromN)
    (htakes : c.takesRecord e = true) :
    (∀ id ∈ c.droppedBy e.turn fromN, (c.receive (.entryAppended e)).turns id = none) ∧
      ∀ r ∈ (c.receive (.entryAppended e)).load, r.answer = none := by
  have hk : e.kind = .turnRevert := by rw [Entry.kind, hp]; rfl
  rw [takesRecord, Bool.and_eq_true] at htakes
  simp only [receive, appendEntry]
  cases hheld : c.turns e.turn with
  | none =>
    simp only [if_pos hk]
    exact applyRevert_drops hp
  | some held =>
    have hseq : e.seq = held.entries.length := by simpa [hheld] using htakes.2
    simp only [hseq, ne_eq, not_true_eq_false, if_false, if_pos hk]
    rw [← droppedBy_noteResidentMutation, ← droppedBy_setTurn _ e.turn (held.push e)]
    exact applyRevert_drops hp

/-! ## Answers -/

variable {entries : List Entry} {tails : List OpenEntry}

/-- Every turn of the merged window is a held one, or the page's over the held one. -/
theorem turns_applyPage {page : PageTurns} {older : Bool} {heldAtRequest : List String}
    (h : (c.applyPage page older heldAtRequest).turns turn = some st) : c.turns turn = some st ∨
      ∃ p, page.turns turn = some p ∧ st = ((c.turns turn).map p.mergeTurn).getD p := by
  simp only [Client.applyPage] at h
  split at h
  · simp only at h
    split at h
    · next hfresh =>
      have hnone : c.turns turn = none := by simpa using (List.mem_filter.mp hfresh).2
      exact .inr ⟨st, h, by rw [hnone]; rfl⟩
    · exact .inl h
  · simp only at h
    split at h
    · exact .inl h
    · split at h
      · obtain ⟨p, hp, hst⟩ := Option.map_eq_some_iff.mp h
        exact .inr ⟨p, hp, hst.symm⟩
      · split at h
        · exact .inl h
        · cases h

theorem reads_applyPage (c : Client) (page : PageTurns) (older : Bool)
    (heldAtRequest : List String) : (c.applyPage page older heldAtRequest).load = c.load ∧
      (c.applyPage page older heldAtRequest).repairs = c.repairs := by
  simp only [Client.applyPage]
  split
  · exact ⟨rfl, rfl⟩
  · exact ⟨rfl, rfl⟩

/-- A page without gaps that arrives is merged into the window. -/
theorem pageArrives_cases (c : Client)
    (hholes : ∀ load entries tails, c.load = some load → load.answer = some (some (entries, tails)) →
      (buildPageTurns entries tails).holes = []) : c.pageArrives.ReadsOf c ∧
    ((c.pageArrives.turns = c.turns ∧ c.pageArrives.turnOrder = c.turnOrder) ∨
      ∃ load entries tails, c.load = some load ∧ load.answer = some (some (entries, tails)) ∧
        c.pageArrives.turns = (c.applyPage (buildPageTurns entries tails) load.before.isSome
          load.heldAtRequest).turns ∧
        c.pageArrives.turnOrder = (c.applyPage (buildPageTurns entries tails) load.before.isSome
          load.heldAtRequest).turnOrder) := by
  cases hload : c.load with
  | none =>
    have heq : c.pageArrives = c := by simp only [pageArrives, hload]
    rw [heq]
    exact ⟨.refl c, .inl ⟨rfl, rfl⟩⟩
  | some load =>
    match ha : load.answer with
    | none =>
      have heq : c.pageArrives = c := by simp only [pageArrives, hload, ha]
      rw [heq]
      exact ⟨.refl c, .inl ⟨rfl, rfl⟩⟩
    | some none =>
      have heq : c.pageArrives = c.loadFails := by simp only [pageArrives, hload, ha]
      rw [heq]
      refine ⟨.loadFails c, .inl ?_⟩
      simp only [loadFails, hload, and_self]
    | some (some (entries, tails)) =>
      have hrepairs : ∀ r ∈ (c.applyPage (buildPageTurns entries tails) load.before.isSome
          load.heldAtRequest).repairs, r ∈ c.repairs := by
        rw [(reads_applyPage ..).2]
        exact fun _ hr => hr
      simp only [pageArrives, hload, ha, hholes load entries tails hload ha, if_true]
      split
      · exact ⟨.of_none rfl hrepairs, .inr ⟨load, entries, tails, rfl, ha, rfl, rfl⟩⟩
      · exact ⟨.of_none rfl hrepairs, .inr ⟨load, entries, tails, rfl, ha, rfl, rfl⟩⟩

/-- A page's merge places every turn that it leaves held. -/
theorem Indexed.applyPage (h : c.Indexed) (page : PageTurns) (older : Bool)
    (heldAtRequest : List String) : (c.applyPage page older heldAtRequest).Indexed := by
  intro turn st hst
  simp only [Client.applyPage] at hst ⊢
  split at hst
  · next hold =>
    rw [if_pos hold]
    simp only at hst ⊢
    split at hst
    · next hfresh => exact List.mem_append_left _ hfresh
    · exact List.mem_append_right _ (h turn st hst)
  · next hnew =>
    rw [if_neg hnew]
    simp only at hst ⊢
    rw [List.mem_filter, hst]
    refine ⟨?_, rfl⟩
    rw [List.mem_append, List.mem_append]
    split at hst
    · next harrived => exact .inr harrived
    · split at hst
      · next horder => exact .inl (.inr horder)
      · split at hst
        · next hkept => exact .inl (.inl hkept)
        · cases hst

/-- A turn seated at its ordinal, or set where it stands. -/
theorem seatTurn_spec (c : Client) (turn : String) (st : TurnState) {c' : Client}
    (h : (if (c.turns turn).isNone = true then c.insertTurnByOrdinal turn st
      else c.setTurn turn st) = c') :
    c'.turns = Function.update c.turns turn (some st) ∧ (∀ id ∈ c.turnOrder, id ∈ c'.turnOrder) ∧
      (c.turns turn = none → turn ∈ c'.turnOrder) := by
  split at h
  · rw [← h]
    have hle : (c.turnOrder.findIdx fun id => ((c.setTurn turn st).turns id).any
        (st.ordinal < ·.ordinal)) ≤ c.turnOrder.length := List.findIdx_le_length
    refine ⟨rfl, ?_, ?_⟩
    · exact fun id hid => (List.mem_insertIdx hle).mpr (.inr hid)
    · exact fun _ => (List.mem_insertIdx hle).mpr (.inl rfl)
  · next hheld =>
    rw [← h]
    exact ⟨rfl, fun id hid => hid, fun hnone => absurd (by rw [hnone]; rfl) hheld⟩

@[simp] theorem turns_requestTurnRange (c : Client) (turn : String) (after : Option ℕ) :
    (c.requestTurnRange turn after).turns = c.turns ∧
      (c.requestTurnRange turn after).turnOrder = c.turnOrder := by
  rw [requestTurnRange]
  split <;> exact ⟨rfl, rfl⟩

/-- A range's answer leaves the window, or extends its turn or seats it. -/
theorem applyTurnRange_cases (c : Client) (turn : String) (entries : List Entry)
    (tails : List OpenEntry) : c.applyTurnRange turn entries tails = c ∨
      turn ∉ c.reverted ∧ (((c.turns turn).getD { entries := [] }).seatRun entries).entries ≠ [] ∧
        (c.applyTurnRange turn entries tails).turns = Function.update c.turns turn (some
          ((((c.turns turn).getD { entries := [] }).seatRun entries).seatTails turn tails)) ∧
        (∀ id ∈ c.turnOrder, id ∈ (c.applyTurnRange turn entries tails).turnOrder) ∧
        (c.turns turn = none → turn ∈ (c.applyTurnRange turn entries tails).turnOrder) := by
  simp only [applyTurnRange]
  generalize hst : (((c.turns turn).getD { entries := [] }).seatRun entries).seatTails turn tails = st
  generalize hseat : (if (c.turns turn).isNone = true then c.insertTurnByOrdinal turn st
    else c.setTurn turn st) = c'
  have hspec := seatTurn_spec c turn st hseat
  split
  · exact .inl rfl
  · next hrev =>
    split
    · exact .inl rfl
    · next hne =>
      refine .inr ⟨hrev, hne, ?_⟩
      split
      · split
        · rw [(turns_requestTurnRange ..).1, (turns_requestTurnRange ..).2]
          exact hspec
        · exact hspec
      · split
        · exact hspec
        · exact hspec

end Client
end Marotte.Transcript
