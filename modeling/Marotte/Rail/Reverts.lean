import Marotte.EntryLog.Beside
import Marotte.Rail.Agrees
import Marotte.Rail.Cut

/-! # A revert in the browser

The browser drops by ordinal what the log takes by place, and works the count out from the record.
Over survivors numbered from one the two agree, whatever window of the newest turns is held.
-/
namespace Marotte.Rail

open History

/-- What the browser holds of one chat. -/
structure Session where
  turns : String → Option TurnState
  turnOrder : List String
  turnCount : ℕ
  hasMore : Bool
  reverted : List String

/-- Whether the log has turns that the window does not hold. -/
def derivedHasMore (turnCount residentCount : ℕ) : Bool := residentCount < turnCount

/-- A held turn's ordinal, where the window has its turn_open. -/
def heldOrdinal (st : TurnState) : Option ℕ := (turnOpenOf st).map EntryTurnOpen.n

namespace Session

/-- A turn_opened frame: the turn is seated behind the others, unless it is held. -/
def openTurn (s : Session) (e : Entry) : Session :=
  if (s.turns e.turn).isSome then s
  else
    let turnCount := max s.turnCount ((EntryLog.opensAt e).getD 0)
    let turnOrder := s.turnOrder ++ [e.turn]
    { s with
      turns := Function.update s.turns e.turn (some { entries := [e] })
      turnOrder
      turnCount
      hasMore := derivedHasMore turnCount turnOrder.length }

/-- The held turns a record takes: every one at its ordinal or above, but the carrier. -/
def droppedBy (s : Session) (carrier : String) (fromN : ℕ) : List String :=
  s.turnOrder.filter fun id =>
    id ≠ carrier ∧ ((s.turns id).bind heldOrdinal).any (fun n => fromN ≤ n)

/-- A revert's two writes: the drop, and the count that the survivors leave. -/
def applyRevert (s : Session) (e : Entry) : Session :=
  match e.payload with
  | .turnRevert p =>
    let dropped := s.droppedBy e.turn p.fromN
    let turnOrder := s.turnOrder.filter (· ∉ dropped)
    let carrier := ((s.turns e.turn).bind heldOrdinal).getD 0
    let turnCount := max (p.fromN - 1) carrier
    { turns := fun id => if id ∈ dropped then none else s.turns id
      turnOrder
      turnCount
      hasMore := derivedHasMore turnCount turnOrder.length
      reverted := s.reverted ++ dropped }
  | _ => s

/-- The window a page leaves in an empty session. -/
def ofPage (entries : List Entry) (turnCount : ℕ) : Session :=
  let src := buildPageTurns entries []
  { turns := src.turns
    turnOrder := src.turnOrder
    turnCount
    hasMore := derivedHasMore turnCount src.turnOrder.length
    reverted := [] }

end Session

/-- The session holds the survivors from a place on, each from its turn_open on. -/
structure Holds (c : LineCodec) (l : EntryLog) (place : ℕ) (s : Session) : Prop where
  order : s.turnOrder = l.index.survivingOrder.drop place
  held : ∀ id ∈ s.turnOrder, ∃ st, s.turns id = some st ∧ st.entries ≠ [] ∧
    st.entries <+: own (l.recorded c) id
  absent : ∀ id, id ∉ s.turnOrder → s.turns id = none

/-- The browser's revert beside the server's: the held turns that survive are left, they are again
the newest survivors, the count is the log's, and the survivors are still numbered from one. -/
structure RevertMatches (l : EntryLog) (before after : Session) : Prop where
  kept : after.turnOrder = before.turnOrder.filter (· ∈ l.index.survivingOrder)
  turns : ∀ id, after.turns id = if id ∈ after.turnOrder then before.turns id else none
  newest : after.turnOrder <:+ l.index.survivingOrder
  count : after.turnCount = l.index.turnCount
  numbered : l.Numbered

variable {c : LineCodec} {l l' : EntryLog} {s : Session} {place : ℕ}

/-! ## What the window knows of the ordinals -/

theorem Holds.ordinal (h : EntryLog.Sound c l) (hs : Holds c l place s) {id : String}
    (hid : id ∈ s.turnOrder) : (s.turns id).bind heldOrdinal = some (l.index.ordinal id) := by
  obtain ⟨st, hst, hne, rest, hrest⟩ := hs.held id hid
  have hmem : id ∈ l.index.order := by
    rw [hs.order] at hid
    exact List.mem_of_mem_filter (List.mem_of_mem_drop hid)
  obtain ⟨o, p, body, hown, hp, hn⟩ := h.opening_eq hmem
  have hhead : st.entries.head? = some o := by
    rw [← List.head?_append_of_ne_nil st.entries hne, hrest, hown, List.head?_cons]
  rw [hst, Option.bind_some, heldOrdinal, turnOpenOf, hhead, Option.map_some, hp, hn]
  rfl

/-- Around a survivor, those before it are numbered below and those from it on are not. -/
theorem numbered_split {front rest : List String} {fromTurn : String} (hnum : l.Numbered)
    (hsplit : l.index.survivingOrder = front ++ fromTurn :: rest) :
    front.map l.index.ordinal = List.range' 1 front.length ∧
      l.index.ordinal fromTurn = front.length + 1 ∧
      ∀ id ∈ fromTurn :: rest, front.length + 1 ≤ l.index.ordinal id := by
  rw [EntryLog.Numbered, hsplit, List.map_append, List.length_append, ← List.range'_append_1] at hnum
  obtain ⟨hfront, hrest⟩ := List.append_inj hnum (by simp)
  refine ⟨hfront, ?_, ?_⟩
  · rw [List.map_cons, List.length_cons, List.range'_succ] at hrest
    have hhead := (List.cons_eq_cons.mp hrest).1
    omega
  · intro id hid
    have hmem := List.mem_map_of_mem (f := l.index.ordinal) hid
    rw [hrest, List.mem_range'_1] at hmem
    omega

theorem ordinal_of_front {front : List String} (hfront : front.map l.index.ordinal =
    List.range' 1 front.length) {id : String} (hid : id ∈ front) :
    l.index.ordinal id ≤ front.length := by
  have hmem := List.mem_map_of_mem (f := l.index.ordinal) hid
  rw [hfront, List.mem_range'_1] at hmem
  omega

theorem ordinal_of_last {front : List String} (hfront : front.map l.index.ordinal =
    List.range' 1 front.length) {id : String} (hlast : front.getLast? = some id) :
    l.index.ordinal id = front.length := by
  have hmap : (front.map l.index.ordinal).getLast? = some (l.index.ordinal id) := by
    rw [List.getLast?_map, hlast, Option.map_some]
  rw [hfront, List.getLast?_range'] at hmap
  split at hmap
  · cases hmap
  · have hn := Option.some.inj hmap
    omega

/-! ## The drop -/

theorem applyRevert_turnOrder {e : Entry} {p : EntryTurnRevert} (hp : e.payload = .turnRevert p) :
    (s.applyRevert e).turnOrder = s.turnOrder.filter (· ∉ s.droppedBy e.turn p.fromN) ∧
      (s.applyRevert e).turnCount =
        max (p.fromN - 1) (((s.turns e.turn).bind heldOrdinal).getD 0) ∧
      ∀ id, (s.applyRevert e).turns id =
        if id ∈ s.droppedBy e.turn p.fromN then none else s.turns id := by
  rw [Session.applyRevert, hp]
  exact ⟨rfl, rfl, fun _ => rfl⟩

/-- The drop keeps exactly the turns given, where it takes the others. -/
theorem applyRevert_kept {e : Entry} {p : EntryTurnRevert} (hp : e.payload = .turnRevert p)
    (habsent : ∀ id, id ∉ s.turnOrder → s.turns id = none) {kept : List String}
    (hkept : ∀ id ∈ s.turnOrder, id ∉ s.droppedBy e.turn p.fromN ↔ id ∈ kept) :
    (s.applyRevert e).turnOrder = s.turnOrder.filter (· ∈ kept) ∧
      ∀ id, (s.applyRevert e).turns id =
        if id ∈ (s.applyRevert e).turnOrder then s.turns id else none := by
  obtain ⟨horder, -, hturns⟩ := applyRevert_turnOrder (s := s) hp
  have hleft : (s.applyRevert e).turnOrder = s.turnOrder.filter (· ∈ kept) := by
    rw [horder]
    apply List.filter_congr
    intro id hid
    exact decide_eq_decide.mpr (hkept id hid)
  refine ⟨hleft, fun id => ?_⟩
  rw [hturns]
  simp only [horder, List.mem_filter]
  by_cases hid : id ∈ s.turnOrder
  · by_cases hdrop : id ∈ s.droppedBy e.turn p.fromN <;> simp [hid, hdrop]
  · simp [habsent id hid]

theorem mem_droppedBy {carrier : String} {fromN : ℕ} {id : String} :
    id ∈ s.droppedBy carrier fromN ↔ id ∈ s.turnOrder ∧ id ≠ carrier ∧
      ((s.turns id).bind heldOrdinal).any (fun n => fromN ≤ n) = true := by
  rw [Session.droppedBy, List.mem_filter]
  simp

/-- A record filed in a survivor: the window keeps what stands before the turn it names. -/
theorem matches_of_held (h : EntryLog.Sound c l) (hnum : l.Numbered) (hs : Holds c l place s)
    {fromTurn : String} {record : Entry} {front rest : List String}
    (hcut : EntryLog.Cut c l l' fromTurn none record front rest) :
    RevertMatches l' s (s.applyRevert record) := by
  obtain ⟨p, hp, hfromN⟩ := hcut.payload
  obtain ⟨hfront, hn, hrest⟩ := numbered_split hnum hcut.survivors
  have hleft : l'.index.survivingOrder = front := by simpa using hcut.left
  have hlast : front.getLast? = some record.turn := hcut.carrier
  have horder : ∀ id ∈ front, id ∈ l.index.order := by
    intro id hid
    apply List.mem_of_mem_filter (p := fun id =>
      !((l.index.turns id).map TurnState.reverted).getD false)
    change id ∈ l.index.survivingOrder
    rw [hcut.survivors]
    exact List.mem_append_left _ hid
  have hordinals : ∀ id ∈ front, l'.index.ordinal id = l.index.ordinal id :=
    fun id hid => hcut.ordinals id (horder id hid)
  have hkept : ∀ id ∈ s.turnOrder, id ∉ s.droppedBy record.turn p.fromN ↔ id ∈ front := by
    intro id hid
    have hheld := hs.ordinal h hid
    have hsurvivor : id ∈ front ++ fromTurn :: rest := by
      rw [← hcut.survivors]
      rw [hs.order] at hid
      exact List.mem_of_mem_drop hid
    rw [mem_droppedBy, hheld, Option.any_some, hfromN, hn]
    constructor
    · intro hnot
      rcases List.mem_append.mp hsurvivor with hmem | hmem
      · exact hmem
      · by_cases hself : id = record.turn
        · rw [hself]
          exact List.mem_of_getLast? hlast
        · exact absurd ⟨hid, hself, by simpa using hrest id hmem⟩ hnot
    · rintro hmem ⟨-, -, hle⟩
      have hlow := ordinal_of_front hfront hmem
      simp only [decide_eq_true_eq] at hle
      omega
  obtain ⟨hafter, hturns⟩ := applyRevert_kept hp hs.absent hkept
  have hnodup : (front ++ fromTurn :: rest).Nodup := by
    rw [← hcut.survivors]
    exact h.nodup_survivingOrder
  have hdrop : (s.applyRevert record).turnOrder = front.drop place := by
    rw [hafter, hs.order, hcut.survivors, List.drop_append, List.filter_append]
    have hall : (front.drop place).filter (· ∈ front) = front.drop place := by
      rw [List.filter_eq_self]
      intro id hid
      simpa using List.mem_of_mem_drop hid
    have hnone : ((fromTurn :: rest).drop (place - front.length)).filter (· ∈ front) = [] := by
      rw [List.filter_eq_nil_iff]
      intro id hid hmem
      exact (List.nodup_append.mp hnodup).2.2 id (of_decide_eq_true hmem) id
        (List.mem_of_mem_drop hid) rfl
    rw [hall, hnone, List.append_nil]
  have hcarrier : record.turn ∈ front := List.mem_of_getLast? hlast
  have hcount : l.index.ordinal record.turn = front.length := ordinal_of_last hfront hlast
  constructor
  · rw [hleft]
    exact hafter
  · exact hturns
  · rw [hdrop, hleft]
    exact List.drop_suffix place front
  · rw [(applyRevert_turnOrder hp).2.1, hfromN, hn, Index.turnCount, hleft, hlast]
    simp only [hordinals _ hcarrier, hcount, Nat.add_sub_cancel]
    by_cases hmem : record.turn ∈ s.turnOrder
    · rw [hs.ordinal h hmem, Option.getD_some, hcount, Nat.max_self]
    · rw [hs.absent _ hmem, Option.bind_none, Option.getD_none, Nat.max_zero]
  · rw [EntryLog.Numbered, hleft, ← hfront]
    exact List.map_congr_left hordinals

/-- A record filed in a carrier minted for it: every held turn goes, and the carrier stays. -/
theorem matches_of_minted (h : EntryLog.Sound c l) (hnum : l.Numbered) (hs : Holds c l place s)
    {fromTurn : String} {opening record : Entry} {front rest : List String}
    (hcut : EntryLog.Cut c l l' fromTurn (some opening) record front rest) :
    RevertMatches l' (s.openTurn opening) ((s.openTurn opening).applyRevert record) := by
  obtain ⟨p, hp, hfromN⟩ := hcut.payload
  obtain ⟨hnil, hturn, hnew, ⟨q, hq, hqn⟩, hone⟩ := hcut.carrier
  obtain ⟨-, hn, hrest⟩ := numbered_split hnum hcut.survivors
  rw [hnil, List.length_nil] at hn hrest
  have hsurvivors : l.index.survivingOrder = fromTurn :: rest := by
    rw [hcut.survivors, hnil, List.nil_append]
  have hleft : l'.index.survivingOrder = [opening.turn] := by
    rw [hcut.left, hnil]
    rfl
  have hout : opening.turn ∉ s.turnOrder := by
    rw [hs.order]
    intro hmem
    exact hnew (List.mem_of_mem_filter (List.mem_of_mem_drop hmem))
  have hopened : (s.openTurn opening).turnOrder = s.turnOrder ++ [opening.turn] ∧
      (s.openTurn opening).turns =
        Function.update s.turns opening.turn (some { entries := [opening] }) := by
    rw [Session.openTurn, hs.absent _ hout]
    exact ⟨rfl, rfl⟩
  have habsent : ∀ id, id ∉ (s.openTurn opening).turnOrder → (s.openTurn opening).turns id = none := by
    intro id hid
    rw [hopened.1, List.mem_append, List.mem_singleton, not_or] at hid
    rw [hopened.2, Function.update_of_ne hid.2]
    exact hs.absent id hid.1
  have hkept : ∀ id ∈ (s.openTurn opening).turnOrder,
      id ∉ (s.openTurn opening).droppedBy record.turn p.fromN ↔ id ∈ [opening.turn] := by
    intro id hid
    rw [mem_droppedBy, hturn, List.mem_singleton]
    constructor
    · intro hnot
      by_contra hne
      apply hnot
      refine ⟨hid, hne, ?_⟩
      rw [hopened.1, List.mem_append, List.mem_singleton] at hid
      have hmem := hid.resolve_right hne
      rw [hopened.2, Function.update_of_ne hne, hs.ordinal h hmem, Option.any_some, hfromN, hn]
      rw [hs.order, hsurvivors] at hmem
      simpa using hrest id (List.mem_of_mem_drop hmem)
    · rintro rfl ⟨-, hne, -⟩
      exact hne rfl
  obtain ⟨hafter, hturns⟩ := applyRevert_kept hp habsent hkept
  have hsingle : ((s.openTurn opening).applyRevert record).turnOrder = [opening.turn] := by
    have hnone : s.turnOrder.filter (· ∈ [opening.turn]) = [] := by
      rw [List.filter_eq_nil_iff]
      intro id hid hmem
      rw [List.mem_singleton.mp (of_decide_eq_true hmem)] at hid
      exact hout hid
    rw [hafter, hopened.1, List.filter_append, hnone]
    simp
  constructor
  · rw [hleft]
    exact hafter
  · exact hturns
  · rw [hsingle, hleft]
  · have hheld : ((s.openTurn opening).turns record.turn).bind heldOrdinal = some 1 := by
      rw [hopened.2, hturn, Function.update_self, Option.bind_some, heldOrdinal, turnOpenOf]
      simp [hq, hqn]
    rw [(applyRevert_turnOrder hp).2.1, hheld, hfromN, hn, Index.turnCount, hleft]
    simp [hone]
  · rw [EntryLog.Numbered, hleft]
    simp [hone]

/-- The browser that loads the newest page holds the survivors of its window. -/
theorem holds_page (h : EntryLog.Sound c l) (count k : ℕ) {page : Page}
    (hpage : l.window c k "" = .ok page) :
    Holds c l (l.index.survivingOrder.length - k) (Session.ofPage page.entries count) := by
  rw [h.window_eq] at hpage
  simp only [if_true, Except.ok.injEq, List.take_length, Int.toNat_natCast] at hpage
  subst hpage
  have hseats := seats_page h
    (l.index.survivingOrder.drop (l.index.survivingOrder.length - k))
  have hsub : (l.index.survivingOrder.drop (l.index.survivingOrder.length - k)).Sublist
      l.index.order := (List.drop_sublist _ _).trans (EntryLog.survivingOrder_sublist l)
  have horder := hseats.order
  rw [← h.order_eq, Grouping.filter_mem_sublist (h.order_eq ▸ h.wellFormed.opensOnce) hsub] at horder
  constructor
  · exact horder
  · intro id hid
    change id ∈ (buildPageTurns _ []).turnOrder at hid
    rw [turnOrder_buildPageTurns, horder] at hid
    have hopened : id ∈ opened (l.recorded c) := by
      rw [← h.order_eq]
      exact hsub.subset hid
    obtain ⟨st, hst, hentries, -⟩ := hseats.seated id hopened (by simpa using hid)
    refine ⟨st, hst, ?_, ?_⟩
    · rw [hentries]
      exact List.ne_nil_of_length_pos (EntryLog.own_ne_nil hopened)
    · rw [hentries]
  · intro id hid
    change id ∉ (buildPageTurns _ []).turnOrder at hid
    rw [turnOrder_buildPageTurns, horder] at hid
    exact hseats.absent id (by simpa using fun _ => hid)

/-- The session behind the frame of a carrier, where one was minted. -/
def announce (s : Session) : Option Entry → Session
  | none => s
  | some opening => s.openTurn opening

/-- Of a log that opens and operations leave, with its survivors numbered from one: whatever window
of the newest survivors the browser holds, its revert matches the server's. -/
theorem revert_matches {file : List UInt8} (hfile : LogFile c file) {w : OpenWorld}
    {header : LogHeader} {cap : ℕ} {l₀ : EntryLog}
    (hopen : openEntryLog c w file header cap = (l₀, .ok ())) {ss : List LogStep}
    (hss : l₀.StepsOpenOnce c ss) (hnum : (l₀.steps c ss).Numbered)
    (hs : Holds c (l₀.steps c ss) place s) {ticks : ℕ → Tick} {mint fromTurn : String}
    (hnew : (l₀.steps c ss).NewTurn mint) {cause : TurnRevertCause} {kasMessageID : String}
    {announced : Option Entry} {record : Entry}
    (heq : (l₀.steps c ss).revert c ticks mint fromTurn cause kasMessageID =
      (l', announced, .ok record)) :
    RevertMatches l' (announce s announced) ((announce s announced).applyRevert record) := by
  have hsound : EntryLog.Sound c (l₀.steps c ss) :=
    ((EntryLog.sound_scanned hfile.sound header cap).grows
      (EntryLog.grows_openEntryLog hopen)).steps hss
  obtain ⟨front, rest, hcut⟩ := hsound.revert_cut hnew heq
  cases announced with
  | none => exact matches_of_held hsound hnum hs hcut
  | some opening => exact matches_of_minted hsound hnum hs hcut

/-- Three prompts' turns. -/
def threeTurns : List LogStep :=
  [.call (.openTurn {} "a" { source := .prompt }), .call (.openTurn {} "b" { source := .prompt }),
    .call (.openTurn {} "c" { source := .prompt })]

/-- The log behind the steps. -/
def logOf (ss : List LogStep) : EntryLog := (EntryLog.new noHeader 0).steps jsonLines ss

theorem sound_logOf {ss : List LogStep} (hss : (EntryLog.new noHeader 0).StepsOpenOnce jsonLines ss) :
    EntryLog.Sound jsonLines (logOf ss) :=
  ((EntryLog.sound_scanned (LogFile.absent (c := jsonLines)).sound noHeader 0).grows
    (EntryLog.grows_openEntryLog (w := {}) rfl)).steps hss

/-- The browser behind the page of the newest turns. -/
def browserOf (ss : List LogStep) (k : ℕ) : Session :=
  Session.ofPage ((((logOf ss).window jsonLines k "").toOption.map Page.entries).getD [])
    (logOf ss).index.turnCount

theorem holds_browserOf {ss : List LogStep}
    (hss : (EntryLog.new noHeader 0).StepsOpenOnce jsonLines ss) (k : ℕ) :
    Holds jsonLines (logOf ss) ((logOf ss).index.survivingOrder.length - k) (browserOf ss k) := by
  have hsound := sound_logOf hss
  obtain ⟨page, hpage⟩ : ∃ page, (logOf ss).window jsonLines k "" = .ok page := by
    rw [hsound.window_eq]
    exact ⟨_, rfl⟩
  rw [browserOf, hpage]
  exact holds_page hsound _ k hpage

/-- The log's answer to a revert. -/
def revertOf (ss : List LogStep) (fromTurn : String) :
    EntryLog × Option Entry × Except LogError Entry :=
  (logOf ss).revert jsonLines (fun _ => {}) "d" fromTurn .rewind "k1"

/-- The newest two of three turns held, and the second reverted: the browser is left with none and
counts the first. -/
theorem revert_matches_second : ∃ l' announced record,
    revertOf threeTurns "t-b" = (l', announced, .ok record) ∧
      RevertMatches l' (announce (browserOf threeTurns 2) announced)
        ((announce (browserOf threeTurns 2) announced).applyRevert record) := by
  have hss : (EntryLog.new noHeader 0).StepsOpenOnce jsonLines threeTurns := by
    change EntryLog.NewTurn _ "a" ∧ EntryLog.NewTurn _ "b" ∧ EntryLog.NewTurn _ "c" ∧ True
    exact ⟨by decide +kernel, by decide +kernel, by decide +kernel, trivial⟩
  have hok : (revertOf threeTurns "t-b").2.2.isOk = true := by decide +kernel
  rcases heq : revertOf threeTurns "t-b" with ⟨l', announced, err | record⟩
  · rw [heq] at hok
    cases hok
  · exact ⟨l', announced, record, rfl, revert_matches .absent (w := {}) rfl hss (by decide +kernel)
      (holds_browserOf hss 2) (by decide +kernel) heq⟩

/-- A turn_revert that a caller files hides the second of three turns: the survivors are the turns
of the ordinals one and three. -/
def middleHidden : List LogStep :=
  threeTurns ++ [.call (.append {}
    { id := "r", turn := "t-c", payload := .turnRevert { fromTurn := "t-b", through := "t-b" } })]

/-- The revert of the third turn leaves one turn, and the browser counts two. -/
theorem middleHidden_miscounts :
    (EntryLog.new noHeader 0).StepsOpenOnce jsonLines middleHidden ∧
      Holds jsonLines (logOf middleHidden) 0 (browserOf middleHidden 2) ∧
      ∃ l' record, revertOf middleHidden "t-c" = (l', none, .ok record) ∧
        ¬RevertMatches l' (browserOf middleHidden 2)
          ((browserOf middleHidden 2).applyRevert record) := by
  have hss : (EntryLog.new noHeader 0).StepsOpenOnce jsonLines middleHidden := by
    change EntryLog.NewTurn _ "a" ∧ EntryLog.NewTurn _ "b" ∧ EntryLog.NewTurn _ "c" ∧ _ ≠ _ ∧ True
    exact ⟨by decide +kernel, by decide +kernel, by decide +kernel, by decide, trivial⟩
  have hlen : (logOf middleHidden).index.survivingOrder.length - 2 = 0 := by decide +kernel
  have hheld := holds_browserOf hss 2
  rw [hlen] at hheld
  have hannounced : (revertOf middleHidden "t-c").2.1 = none := by decide +kernel
  have hserver : (revertOf middleHidden "t-c").1.index.turnCount = 1 := by decide +kernel
  have hbrowser : (revertOf middleHidden "t-c").2.2.toOption.map
      (fun e => ((browserOf middleHidden 2).applyRevert e).turnCount) = some 2 := by decide +kernel
  refine ⟨hss, hheld, ?_⟩
  rcases heq : revertOf middleHidden "t-c" with ⟨l', announced, err | record⟩
  · rw [heq] at hbrowser
    cases hbrowser
  · rw [heq] at hannounced hserver hbrowser
    simp only at hannounced hserver
    subst hannounced
    refine ⟨l', record, rfl, fun hmatches => ?_⟩
    have hcount := hmatches.count
    rw [hserver] at hcount
    simp [Except.toOption, hcount] at hbrowser

end Marotte.Rail
