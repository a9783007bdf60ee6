import Mathlib.Data.List.Sort
import Marotte.Steers.Owed

/-! # What the records list

The connect replay reads every chat's record. A call that does not bump the counter leaves every
chat's replay as it was; forgetting a record that lists something is the one silent change.
-/
namespace Marotte.Steers

/-! ## A record's replay is what it shows -/

/-- A row as the replay reads it. -/
def DockRow.face (w : DockRow) : String × String × String × Bool :=
  (w.key, w.kasID, w.text, w.state = .unsent)

theorem filterMap_shown (rows : List DockRow) :
    rows.filterMap DockRow.shown = (rows.filter DockRow.live).map DockRow.face := by
  induction rows with
  | nil => rfl
  | cons w rows ih =>
    rw [filterMap_cons_shown, ih, List.filter_cons, DockRow.shown]
    by_cases hw : w.live = true
    · simp only [hw, if_true]
      rfl
    · simp only [hw, Bool.false_eq_true, if_false]
      rfl

/-- The row frames and batch frames of the faces of live rows. -/
def framesOf (faces : List (String × String × String × Bool)) : List SteerQueued :=
  let batched := faces.filter fun d => d.2.1 ≠ "" ∧ d.2.1 ≠ d.1
  faces.map (fun d =>
      { steerID := d.1, text := d.2.2.1, state := if d.2.2.2 then .unsent else .queued }) ++
    (batched.map fun d => d.2.1).eraseDups.map fun id =>
      let members := batched.filter fun d => d.2.1 = id
      { steerID := id, text := joinSteers (members.map fun d => d.2.2.1), state := .queued,
        replaces := members.map fun d => d.1 }

theorem rowFrame_face {w : DockRow} (h : w.live = true) :
    w.rowFrame = { steerID := w.face.1, text := w.face.2.2.1,
                   state := if w.face.2.2.2 then .unsent else .queued } := by
  obtain ⟨key, kasID, text, owner, seq, state, sent, noted⟩ := w
  cases state with
  | read => cases h
  | done => cases h
  | _ => rfl

theorem appendReplay_eq (r : SteerRecord) :
    r.appendReplay = framesOf (r.rows.filterMap DockRow.shown) ++ r.others := by
  have hrows : (r.rows.filter DockRow.live).map DockRow.rowFrame =
      ((r.rows.filter DockRow.live).map DockRow.face).map fun d =>
        { steerID := d.1, text := d.2.2.1, state := if d.2.2.2 then .unsent else .queued } := by
    rw [List.map_map]
    apply List.map_congr_left
    intro w hw
    exact rowFrame_face (List.mem_filter.mp hw).2
  rw [filterMap_shown, SteerRecord.appendReplay, framesOf, hrows]
  simp only [List.filter_map, List.map_map, batchFrame]
  rfl

theorem appendReplay_of_shown {r r' : SteerRecord} (h : r'.shown = r.shown) :
    r'.appendReplay = r.appendReplay := by
  rw [appendReplay_eq, appendReplay_eq]
  rw [SteerRecord.shown, SteerRecord.shown, Prod.mk.injEq] at h
  rw [h.1, h.2]

/-- What is pruned shows nothing. -/
theorem shown_prune (r : SteerRecord) : r.prune.shown = r.shown := by
  apply Prod.ext
  · simp only [SteerRecord.shown, SteerRecord.prune, filterMap_shown, List.filter_filter]
    congr 1
    apply List.filter_congr
    intro w _
    obtain ⟨key, kasID, text, owner, seq, state, sent, noted⟩ := w
    cases state <;> simp [DockRow.live, RowState.terminal]
  · rfl

/-! ## The calls -/

namespace SteerRecords

variable {rs : SteerRecords}

/-- One record for each chat. -/
def OnePerChat (rs : SteerRecords) : Prop := (rs.chats.map ChatRecord.chat).Nodup

/-- What a chat lists. -/
def replayAt (rs : SteerRecords) (chat : String) : List SteerQueued :=
  ((rs.find chat).map replayOf).getD []

theorem replayAt_of_find {chat : String} {c : ChatRecord} (h : rs.find chat = some c) :
    rs.replayAt chat = replayOf c := by
  rw [replayAt, h]
  rfl

theorem replayAt_of_none {chat : String} (h : rs.find chat = none) : rs.replayAt chat = [] := by
  rw [replayAt, h]
  rfl

theorem chat_of_find {chat : String} {c : ChatRecord} (h : rs.find chat = some c) :
    c.chat = chat := Keyed.key_of_find h

theorem find_put (c : ChatRecord) (chat : String) :
    (rs.put c).find chat = if chat = c.chat then some c else rs.find chat := by
  split
  · next h =>
    rw [h]
    exact Keyed.find_set_key
  · next h => exact Keyed.find_set_of_ne h

theorem replayAt_put (c : ChatRecord) (chat : String) :
    (rs.put c).replayAt chat = if chat = c.chat then replayOf c else rs.replayAt chat := by
  rw [replayAt, find_put]
  split
  · rfl
  · rfl

/-- A record that is put back as it lists leaves every replay as it was. -/
theorem replayAt_put_same {c : ChatRecord} (h : replayOf c = rs.replayAt c.chat) (chat : String) :
    (rs.put c).replayAt chat = rs.replayAt chat := by
  rw [replayAt_put]
  split
  · next heq => rw [h, heq]
  · rfl

theorem OnePerChat.put (h : rs.OnePerChat) (c : ChatRecord) : (rs.put c).OnePerChat :=
  Keyed.nodup_set h

theorem mem_list (h : rs.OnePerChat) {chat : String} {frame : SteerQueued} :
    (chat, frame) ∈ rs.list "" ↔ frame ∈ rs.replayAt chat := by
  rw [list, List.mem_flatMap]
  constructor
  · rintro ⟨c, hc, hmem⟩
    rw [List.mem_insertionSort, List.mem_filter, decide_eq_true_eq] at hc
    obtain ⟨hin, hlive, -⟩ := hc
    obtain ⟨f, hf, heq⟩ := List.mem_map.mp hmem
    rw [Prod.mk.injEq] at heq
    have hfind : rs.find chat = some c := by
      rw [← heq.1]
      exact Keyed.find_of_mem h hin
    rw [replayAt_of_find hfind, replayOf, if_neg hlive, ← heq.2]
    exact hf
  · intro hmem
    cases hfind : rs.find chat with
    | none =>
      rw [replayAt_of_none hfind] at hmem
      cases hmem
    | some c =>
      rw [replayAt_of_find hfind, replayOf] at hmem
      split at hmem
      · cases hmem
      · next hlive =>
        refine ⟨c, ?_, List.mem_map.mpr ⟨frame, hmem, ?_⟩⟩
        · rw [List.mem_insertionSort, List.mem_filter, decide_eq_true_eq]
          exact ⟨Keyed.mem_of_find hfind, hlive, .inl rfl⟩
        · rw [chat_of_find hfind]

/-- A call whose result did not bump the counter lists what was listed. -/
structure Certified (rs : SteerRecords) (out : SteerRecords × Bool) : Prop where
  onePerChat : rs.OnePerChat → out.1.OnePerChat
  listed : out.2 = false → ∀ chat, out.1.replayAt chat = rs.replayAt chat

theorem Certified.same : Certified rs (rs, false) := ⟨id, fun _ _ => rfl⟩

/-- A record that is created lists nothing. -/
theorem recordOf_listed {chat : String} {create : Bool} {c : ChatRecord} {rs' : SteerRecords}
    (h : rs.recordOf chat create = some (c, rs')) :
    replayOf c = rs'.replayAt c.chat ∧ Certified rs (rs', false) := by
  simp only [recordOf] at h
  split at h
  · next c' hfind =>
    simp only [Option.some_inj, Prod.mk.injEq] at h
    obtain ⟨rfl, rfl⟩ := h
    rw [chat_of_find hfind]
    exact ⟨(replayAt_of_find hfind).symm, .same⟩
  · next hfind =>
    split at h
    · simp only [Option.some_inj, Prod.mk.injEq] at h
      obtain ⟨rfl, rfl⟩ := h
      have hnew : replayOf { chat, serial := rs.created } = rs.replayAt chat :=
        (replayAt_of_none hfind).symm
      refine ⟨?_, fun h => h.put _, fun _ => replayAt_put_same hnew⟩
      exact (@replayAt_put rs _ chat).trans (if_pos rfl) |>.symm
    · cases h

theorem step_certified (chat : String) (create : Bool) {fn : SteerM Unit} (hfn : Owes fn) :
    Certified rs (rs.step chat create fn) := by
  simp only [step]
  split
  · exact .same
  · next c rs' hrec =>
    obtain ⟨hreplay, hcreated⟩ := recordOf_listed hrec
    split
    · exact hcreated
    · next hlive =>
      have howed := hfn { record := c.record, jobs := rs'.jobs }
      refine ⟨fun h => (hcreated.onePerChat h).put _, ?_⟩
      intro hquiet chat'
      refine Eq.trans ?_ (hcreated.listed rfl chat')
      refine replayAt_put_same ?_ chat'
      -- nothing is owed, so the record shows what it showed
      have hshown := howed.shows.resolve_left (Bool.eq_false_iff.mp hquiet)
      rw [← hreplay, replayOf, replayOf]
      have hgone : ((fn { record := c.record, jobs := rs'.jobs }).2.record.prune).gone =
          c.record.gone := howed.gone
      rw [hgone, appendReplay_of_shown ((shown_prune _).trans hshown)]

theorem call_certified (mint : ℕ → String) (chat : String) (op : SteerCall) :
    Certified rs (rs.call mint chat op) := by
  rw [call]
  split
  · exact .same
  · exact step_certified chat op.creates (op.fn_owes mint)

theorem takeAgentRows_certified (chat : String) : Certified rs (rs.takeAgentRows chat) := by
  simp only [takeAgentRows]
  split
  · exact .same
  · split
    · exact .same
    · exact ⟨fun h => h.put _, nofun⟩

theorem turnStarted_certified (chat turnID : String) :
    Certified rs (rs.turnStarted chat turnID, false) := by
  simp only [turnStarted]
  split
  · exact .same
  · next c rs' hrec =>
    obtain ⟨hreplay, hcreated⟩ := recordOf_listed hrec
    split
    · exact hcreated
    · refine ⟨fun h => (hcreated.onePerChat h).put _, fun _ chat' => ?_⟩
      exact Eq.trans (replayAt_put_same (by exact hreplay) chat') (hcreated.listed rfl chat')

theorem beginTeardown_certified (chat : String) : Certified rs (rs.beginTeardown chat) := by
  simp only [beginTeardown]
  split
  · exact .same
  · next c rs' hrec =>
    obtain ⟨-, hcreated⟩ := recordOf_listed hrec
    split
    · exact hcreated
    · exact ⟨fun h => (hcreated.onePerChat h).put _, nofun⟩

theorem setLead_certified (chat key : String) : Certified rs (rs.setLead chat key, false) := by
  simp only [setLead]
  split
  · exact .same
  · next c hfind =>
    split
    · exact .same
    · refine ⟨fun h => h.put _, fun _ chat' => replayAt_put_same ?_ chat'⟩
      change replayOf c = rs.replayAt c.chat
      rw [chat_of_find hfind, replayAt_of_find hfind]

theorem undoLead_certified (chat : String) (serial : ℕ) (key : String) :
    Certified rs (rs.undoLead chat serial key, false) := by
  simp only [undoLead]
  split
  · exact .same
  · next c hfind =>
    split
    · refine ⟨fun h => h.put _, fun _ chat' => replayAt_put_same ?_ chat'⟩
      change replayOf c = rs.replayAt c.chat
      rw [chat_of_find hfind, replayAt_of_find hfind]
    · exact .same

/-- A teardown forgets a record that lists nothing, or none. -/
def Forgets (rs : SteerRecords) (chat : String) (serial : ℕ) : Prop :=
  ∀ c ∈ rs.find chat, c.serial = serial → replayOf c = []

instance (rs : SteerRecords) (chat : String) (serial : ℕ) : Decidable (rs.Forgets chat serial) :=
  inferInstanceAs (Decidable (∀ c ∈ rs.find chat, c.serial = serial → replayOf c = []))

theorem endTeardown_certified {chat : String} {serial : ℕ} (h : rs.Forgets chat serial) :
    Certified rs (rs.endTeardown chat serial, false) := by
  simp only [endTeardown]
  split
  · exact .same
  · next c hfind =>
    split
    · next hserial =>
      refine ⟨fun h => Keyed.nodup_erase h, ?_⟩
      intro _ chat'
      by_cases heq : chat' = chat
      · rw [heq, replayAt_of_find hfind, h c hfind hserial]
        exact replayAt_of_none Keyed.find_erase_self
      · simp only [replayAt, find, Keyed.find_erase_of_ne heq]
    · exact .same

end SteerRecords
end Marotte.Steers
