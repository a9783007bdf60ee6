import Mathlib.Data.List.Dedup
import Marotte.Stamps.Listing

/-! # When the list's stamp vouches for the list

Every header that changes is followed by a mint: the operation that wrote it owes one until then. A
scan that started no earlier than a call's stamp has read each header as it is, or one with a mint
to come.
-/
namespace Marotte.Stamps

namespace ChatStore

variable {α : Type} {s : ChatStore α}

/-- At a moment with no operation midway, a list answered at the current version holds the headers
that a fresh scan answers. -/
def Vouches (s : ChatStore α) : Prop :=
  ∀ answer ∈ s.answers, answer.stamp = s.version → s.ops = [] →
    ∀ chatID, Keyed.find ChatHeader.id answer.headers chatID = s.header chatID

/-- A call joins no scan from before the version that it read, and a log that opens finds its
counters on the header. -/
def Kept (s : ChatStore α) : StoreEvent α → Prop
  | .joins stamp => ∀ scan, s.scan = some scan → stamp ≤ scan.started
  | .logOpens chatID turnCount last => ∀ h, s.header chatID = some h →
      h.turnCount = turnCount ∧ h.lastTurnOutcome = last
  | _ => True

/-- A mint is to come for a chat's header. -/
def Owes (s : ChatStore α) (chatID : String) : Prop :=
  ∃ op ∈ s.ops, op.chatID = chatID ∧ (op.stage = .window → s.header chatID ≠ none)

/-- What a scan or an answer holds of a chat is its header, or a mint is to come. -/
def Holds (s : ChatStore α) (got : List (ChatHeader α)) (chatID : String) : Prop :=
  Keyed.find ChatHeader.id got chatID = s.header chatID ∨ s.Owes chatID

structure Sound (s : ChatStore α) : Prop where
  called : ∀ stamp ∈ s.calls, stamp ≤ s.version
  started : ∀ scan, s.scan = some scan → scan.started ≤ s.version
  waits : ∀ stamp ∈ s.waiting, ∃ scan, s.scan = some scan ∧ stamp ≤ scan.started
  unread : ∀ scan, s.scan = some scan → scan.todo = none → scan.got = []
  scanned : ∀ scan, s.scan = some scan → scan.started = s.version →
    ∀ todo, scan.todo = some todo → ∀ chatID, chatID ∉ todo → s.Holds scan.got chatID
  stamped : ∀ answer ∈ s.answers, answer.stamp ≤ s.version
  answered : ∀ answer ∈ s.answers, answer.stamp = s.version →
    ∀ chatID, s.Holds answer.headers chatID

theorem sound_empty : (({} : ChatStore α)).Sound where
  called := by simp
  started := by simp
  waits := by simp
  unread := by simp
  scanned := by simp
  stamped := by simp
  answered := by simp

namespace Sound

theorem vouches (h : s.Sound) : s.Vouches := by
  intro answer hanswer hstamp hops chatID
  rcases h.answered answer hanswer hstamp chatID with hsame | ⟨op, hop, -⟩
  · exact hsame
  · rw [hops] at hop
    cases hop

/-- A step of an operation, which leaves the list calls where they are: what is held of a chat
stays held. -/
theorem operates (h : s.Sound) {headers : List (ChatHeader α)} {ops : List StoreOp}
    (hholds : ∀ got chatID, s.Holds got chatID →
      ({ s with headers, ops } : ChatStore α).Holds got chatID) :
    ({ s with headers, ops } : ChatStore α).Sound where
  called := h.called
  started := h.started
  waits := h.waits
  unread := h.unread
  scanned scan hscan hstarted todo htodo chatID hnot :=
    hholds _ _ (h.scanned scan hscan hstarted todo htodo chatID hnot)
  stamped := h.stamped
  answered answer hanswer hstamp chatID := hholds _ _ (h.answered answer hanswer hstamp chatID)

/-- A header is written or removed by an operation that owes the mint. -/
theorem writes (h : s.Sound) {headers : List (ChatHeader α)} {op : StoreOp}
    (hother : ∀ chatID, chatID ≠ op.chatID →
      Keyed.find ChatHeader.id headers chatID = s.header chatID)
    (hop : op.stage = .window → Keyed.find ChatHeader.id headers op.chatID ≠ none) :
    ({ s with headers, ops := op :: s.ops } : ChatStore α).Sound := by
  apply h.operates
  intro got chatID hheld
  by_cases hchat : chatID = op.chatID
  · subst hchat
    exact .inr ⟨op, List.mem_cons_self .., rfl, hop⟩
  · rcases hheld with hsame | ⟨op', hop', hid, hwindow⟩
    · exact .inl (hsame.trans (hother chatID hchat).symm)
    · refine .inr ⟨op', List.mem_cons_of_mem _ hop', hid, ?_⟩
      rw [header, hother chatID hchat]
      exact hwindow

theorem write (h : s.Sound) (header : ChatHeader α) (stage : OpStage) :
    (s.write header stage).Sound := by
  apply h.writes
  · intro chatID hne
    exact Keyed.find_set_of_ne hne
  · intro _ hnone
    rw [Keyed.find_set_key] at hnone
    cases hnone

theorem remove (h : s.Sound) (chatID : String) : (s.remove chatID).Sound := by
  rw [ChatStore.remove]
  split
  · exact h
  · apply h.writes
    · intro other hne
      exact Keyed.find_erase_of_ne hne
    · intro hstage
      cases hstage

theorem logOpens (h : s.Sound) {chatID : String} {turnCount : ℕ} {last : String}
    (hkept : s.Kept (.logOpens chatID turnCount last)) :
    (s.logOpens chatID turnCount last).Sound := by
  rw [ChatStore.logOpens]
  split
  · exact h
  · next header hheader =>
    obtain ⟨hcount, hlast⟩ := hkept header hheader
    have hsame : header.counters turnCount last = header := by
      rw [ChatHeader.counters, ← hcount, ← hlast]
    have hid := Keyed.key_of_find hheader
    have hfind : ∀ other, Keyed.find ChatHeader.id
        (Keyed.set ChatHeader.id s.headers (header.counters turnCount last)) other =
          s.header other := by
      intro other
      rw [hsame]
      by_cases hother : other = header.id
      · rw [hother, Keyed.find_set_key, hid, hheader]
      · exact Keyed.find_set_of_ne hother
    apply @operates _ _ h _ s.ops
    rintro got other (hgot | ⟨op, hop, hchat, hwindow⟩)
    · exact .inl (hgot.trans (hfind other).symm)
    · refine .inr ⟨op, hop, hchat, ?_⟩
      rw [ChatStore.header, hfind other]
      exact hwindow

theorem writeCounters (h : s.Sound) (chatID : String) (turnCount : ℕ) (last : String) :
    (s.writeCounters chatID turnCount last).Sound := by
  rw [ChatStore.writeCounters]
  split
  · exact h
  · split
    · exact h
    · exact h.write _ _

/-- The operation that ends unminted finds its chat gone, and who removed it has minted or is to. -/
theorem loadWindow (h : s.Sound) {op : StoreOp} (hop : op ∈ s.ops) (hstage : op.stage = .window) :
    (s.loadWindow op).Sound := by
  rw [ChatStore.loadWindow]
  split
  · next hnone =>
    apply @operates _ _ h s.headers
    rintro got chatID (hgot | ⟨op', hop', hchat, hwindow⟩)
    · exact .inl hgot
    · by_cases heq : op' = op
      · subst heq
        exact absurd (hchat ▸ hnone) (hwindow hstage)
      · exact .inr ⟨op', (List.mem_erase_of_ne heq).mpr hop', hchat, hwindow⟩
  · next header hheader =>
    apply @operates _ _ h s.headers
    rintro got chatID (hgot | ⟨op', hop', hchat, hwindow⟩)
    · exact .inl hgot
    · by_cases heq : op' = op
      · subst heq
        exact .inr ⟨_, List.mem_cons_self .., hchat, fun hstage' => by cases hstage'⟩
      · exact .inr ⟨op', List.mem_cons_of_mem _ ((List.mem_erase_of_ne heq).mpr hop'), hchat,
          hwindow⟩

/-- A mint makes every stamp that was given out an old one. -/
theorem bump (h : s.Sound) (ops : List StoreOp) :
    ({ s with version := s.version + 1, ops } : ChatStore α).Sound where
  called stamp hstamp := Nat.le_succ_of_le (h.called stamp hstamp)
  started scan hscan := Nat.le_succ_of_le (h.started scan hscan)
  waits := h.waits
  unread := h.unread
  scanned scan hscan hstarted := by
    have hle := h.started scan hscan
    exact absurd hstarted (Nat.ne_of_lt (Nat.lt_succ_of_le hle))
  stamped answer hanswer := Nat.le_succ_of_le (h.stamped answer hanswer)
  answered answer hanswer hstamp := by
    have hle := h.stamped answer hanswer
    exact absurd hstamp (Nat.ne_of_lt (Nat.lt_succ_of_le hle))

theorem listStamped (h : s.Sound) : ({ s with calls := s.version :: s.calls }).Sound where
  called stamp hstamp := by
    rcases List.mem_cons.mp hstamp with rfl | hmem
    · exact Nat.le_refl _
    · exact h.called stamp hmem
  started := h.started
  waits := h.waits
  unread := h.unread
  scanned := h.scanned
  stamped := h.stamped
  answered := h.answered

/-- A scan that has read nothing, in the place of none. -/
theorem scans (h : s.Sound) :
    ({ s with scan := some (s.scan.getD { started := s.version }) }).Sound where
  called := h.called
  started scan hscan := by
    cases hs : s.scan with
    | none =>
      simp only [hs, Option.getD_none, Option.some.injEq] at hscan
      simp [← hscan]
    | some scan' =>
      simp only [hs, Option.getD_some, Option.some.injEq] at hscan
      exact hscan ▸ h.started scan' hs
  waits stamp hstamp := by
    obtain ⟨scan, hscan, hle⟩ := h.waits stamp hstamp
    exact ⟨scan, by simp [hscan], hle⟩
  unread scan hscan htodo := by
    cases hs : s.scan with
    | none =>
      simp only [hs, Option.getD_none, Option.some.injEq] at hscan
      simp [← hscan]
    | some scan' =>
      simp only [hs, Option.getD_some, Option.some.injEq] at hscan
      exact hscan ▸ h.unread scan' hs (hscan ▸ htodo)
  scanned scan hscan hstarted todo htodo chatID hnot := by
    cases hs : s.scan with
    | none =>
      simp only [hs, Option.getD_none, Option.some.injEq] at hscan
      simp [← hscan] at htodo
    | some scan' =>
      simp only [hs, Option.getD_some, Option.some.injEq] at hscan
      subst hscan
      exact h.scanned scan' hs hstarted todo htodo chatID hnot
  stamped := h.stamped
  answered := h.answered

theorem join (h : s.Sound) {stamp : ℕ} (hcall : stamp ∈ s.calls)
    (hkept : s.Kept (.joins stamp)) : (s.join stamp).Sound where
  called stamp' hstamp := h.called stamp' (List.mem_of_mem_erase hstamp)
  started := h.scans.started
  waits stamp' hstamp := by
    rcases List.mem_cons.mp hstamp with rfl | hwaiting
    · refine ⟨_, rfl, ?_⟩
      cases hs : s.scan with
      | none => exact h.called _ hcall
      | some scan => exact hkept scan hs
    · exact h.scans.waits stamp' hwaiting
  unread := h.scans.unread
  scanned := h.scans.scanned
  stamped := h.stamped
  answered := h.answered

/-- The scan that is running moves on from `scan` to `scan'`. -/
theorem moves (h : s.Sound) {scan scan' : ListScan α} (hscan : s.scan = some scan)
    (hstarted : scan'.started = scan.started) (hunread : scan'.todo = none → scan'.got = [])
    (hholds : scan'.started = s.version → ∀ todo, scan'.todo = some todo →
      ∀ chatID, chatID ∉ todo → s.Holds scan'.got chatID) :
    ({ s with scan := some scan' }).Sound where
  called := h.called
  started _ hscan' := by
    cases hscan'
    exact hstarted ▸ h.started scan hscan
  waits stamp hstamp := by
    obtain ⟨running, hrunning, hle⟩ := h.waits stamp hstamp
    rw [hscan] at hrunning
    cases hrunning
    exact ⟨scan', rfl, hstarted ▸ hle⟩
  unread _ hscan' := by
    cases hscan'
    exact hunread
  scanned _ hscan' := by
    cases hscan'
    exact hholds
  stamped := h.stamped
  answered := h.answered

theorem mapScan (h : s.Sound) {f : ListScan α → ListScan α}
    (hf : ∀ scan, s.scan = some scan → ({ s with scan := some (f scan) }).Sound) :
    ({ s with scan := s.scan.map f }).Sound := by
  cases hscan : s.scan with
  | none =>
    have hsame : ({ s with scan := none } : ChatStore α) = s := by
      cases s
      simp_all
    rw [Option.map_none, hsame]
    exact h
  | some scan => exact hf scan hscan

/-- What the scan becomes when it stays where it is. -/
theorem stays (h : s.Sound) {scan : ListScan α} (hscan : s.scan = some scan) :
    ({ s with scan := some scan }).Sound :=
  hscan ▸ h

/-- A chat that the directory does not list has no header. -/
theorem readsDir (h : s.Sound) {scan : ListScan α} (hscan : s.scan = some scan)
    (htodo : scan.todo = none) (extra : List String) :
    ({ s with scan := some { scan with
      todo := some ((s.headers.map ChatHeader.id ++ extra).dedup) } }).Sound := by
  apply h.moves hscan
  · rfl
  · intro hnone
    cases hnone
  · intro hstarted todo htodo' chatID hnot
    cases htodo'
    simp only [List.mem_dedup, List.mem_append, not_or] at hnot
    left
    rw [h.unread scan hscan htodo]
    exact (Keyed.find_eq_none.mpr hnot.1).symm

theorem readsHeader (h : s.Sound) {scan : ListScan α} (hscan : s.scan = some scan)
    {todo : List String} (htodo : scan.todo = some todo) (chatID : String) :
    ({ s with scan := some (s.readHeader scan todo chatID) }).Sound := by
  apply h.moves hscan
  · rfl
  · intro hnone
    cases hnone
  · intro hstarted todo' htodo' other hnot
    cases htodo'
    by_cases hother : other = chatID
    · subst hother
      left
      rw [readHeader]
      cases hheader : s.header other with
      | none => exact Keyed.find_erase_self
      | some header =>
        have hid := Keyed.key_of_find hheader
        subst hid
        exact Keyed.find_set_key
    · have hleft : other ∉ todo := fun hmem => hnot ((List.mem_erase_of_ne hother).mpr hmem)
      have hfind : Keyed.find ChatHeader.id (s.readHeader scan todo chatID).got other =
          Keyed.find ChatHeader.id scan.got other := by
        rw [readHeader]
        cases hheader : s.header chatID with
        | none => exact Keyed.find_erase_of_ne hother
        | some header =>
          have hid := Keyed.key_of_find hheader
          exact Keyed.find_set_of_ne (hid ▸ hother)
      rw [Holds, hfind]
      exact h.scanned scan hscan hstarted todo htodo other hleft

/-- A call whose stamp is current joined a scan from the current version. -/
theorem scanEnds (h : s.Sound) {scan : ListScan α} (hscan : s.scan = some scan)
    (htodo : scan.todo = some []) :
    ({ s with
      scan := none
      waiting := []
      answers := s.waiting.map (fun stamp => { stamp, headers := scan.got }) ++
        s.answers } : ChatStore α).Sound where
  called := h.called
  started := by simp
  waits := by simp
  unread := by simp
  scanned := by simp
  stamped answer hanswer := by
    rcases List.mem_append.mp hanswer with hnew | hold
    · obtain ⟨stamp, hstamp, rfl⟩ := List.mem_map.mp hnew
      obtain ⟨running, hrunning, hle⟩ := h.waits stamp hstamp
      exact Nat.le_trans hle (h.started running hrunning)
    · exact h.stamped answer hold
  answered answer hanswer hcurrent chatID := by
    rcases List.mem_append.mp hanswer with hnew | hold
    · obtain ⟨stamp, hstamp, rfl⟩ := List.mem_map.mp hnew
      obtain ⟨running, hrunning, hle⟩ := h.waits stamp hstamp
      rw [hscan] at hrunning
      cases hrunning
      have hversion : stamp = s.version := hcurrent
      have hstarted : scan.started = s.version :=
        Nat.le_antisymm (h.started scan hscan) (hversion ▸ hle)
      exact h.scanned scan hscan hstarted [] htodo chatID List.not_mem_nil
    · exact h.answered answer hold hcurrent chatID

theorem step (h : s.Sound) {e : StoreEvent α} (hkept : s.Kept e) : (s.step e).Sound := by
  cases e with
  | mutates header =>
    simp only [ChatStore.step]
    split
    · exact h
    · exact h.write header .saved
  | removes chatID =>
    simp only [ChatStore.step]
    split
    · exact h
    · exact h.remove chatID
  | logOpens chatID turnCount last =>
    simp only [ChatStore.step]
    split
    · exact h
    · exact h.logOpens hkept
  | writesCounters chatID turnCount last =>
    simp only [ChatStore.step]
    split
    · exact h
    · exact h.writeCounters chatID turnCount last
  | changesWindow header =>
    simp only [ChatStore.step]
    split
    · exact h
    · exact h.write header .window
  | loadsWindow op =>
    simp only [ChatStore.step]
    split
    · next hop => exact h.loadWindow hop.1 hop.2.1
    · exact h
  | bumps op =>
    simp only [ChatStore.step]
    split
    · exact h.bump _
    · exact h
  | listStamped => exact h.listStamped
  | joins stamp =>
    simp only [ChatStore.step]
    split
    · next hcall => exact h.join hcall hkept
    · exact h
  | scans => exact h.scans
  | readsDir extra =>
    apply h.mapScan
    intro scan hscan
    split
    · next htodo => exact h.readsDir hscan htodo extra
    · exact h.stays hscan
  | readsHeader chatID =>
    apply h.mapScan
    intro scan hscan
    split
    · next todo htodo =>
      split
      · exact h.readsHeader hscan htodo chatID
      · exact h.stays hscan
    · exact h.stays hscan
  | scanEnds =>
    simp only [ChatStore.step]
    split
    · next scan hscan =>
      split
      · next htodo => exact h.scanEnds hscan htodo
      · exact h
    · exact h

end Sound

end ChatStore
end Marotte.Stamps
