import Marotte.EntryLog.Reverts
import Marotte.EntryLog.Views

/-! # The survivors behind a revert

A revert that goes through leaves the survivors before the turn it names, and where none is left
the carrier it minted.
-/
namespace Marotte.EntryLog

open History

variable {c : LineCodec} {l l' : EntryLog}

/-- The survivors in file order are numbered from one. -/
def Numbered (l : EntryLog) : Prop :=
  l.index.survivingOrder.map l.index.ordinal = List.range' 1 l.index.survivingOrder.length

instance (l : EntryLog) : Decidable l.Numbered := inferInstanceAs (Decidable (_ = _))

/-- The newest survivor outside a suffix of the order is the last one before it. -/
theorem newestSurviving_drop {idx : Index} (hnodup : idx.order.Nodup) (i : ℕ) :
    idx.newestSurviving (idx.order.drop i) =
      ((idx.order.take i).filter
        (fun id => !((idx.turns id).map TurnState.reverted).getD false)).getLast? := by
  rw [Index.newestSurviving, ← List.head?_filter, List.filter_reverse, List.head?_reverse,
    ← Window.filter_notMem_drop hnodup]
  congr 1
  apply List.filter_congr
  intro id _
  simp [Bool.and_comm]

/-- What a revert that goes through does: the survivors before the turn it names stay, and the
record goes to the last of them, or to a carrier minted at one. -/
structure Cut (c : LineCodec) (l l' : EntryLog) (fromTurn : String) (announced : Option Entry)
    (record : Entry) (front rest : List String) : Prop where
  sound : Sound c l'
  survivors : l.index.survivingOrder = front ++ fromTurn :: rest
  payload : ∃ p, record.payload = .turnRevert p ∧ p.fromN = l.index.ordinal fromTurn
  left : l'.index.survivingOrder = front ++ (announced.map Entry.turn).toList
  ordinals : ∀ turn ∈ l.index.order, l'.index.ordinal turn = l.index.ordinal turn
  carrier : match announced with
    | none => front.getLast? = some record.turn
    | some opening => front = [] ∧ record.turn = opening.turn ∧ opening.turn ∉ l.index.order ∧
      (∃ p, opening.payload = .turnOpen p ∧ p.n = 1) ∧ l'.index.ordinal opening.turn = 1

/-- A record's append takes the turns of its window. -/
theorem Sound.append_record (h : Sound c l) {t : Tick} {e stamped : Entry} {p : EntryTurnRevert}
    (hp : e.payload = .turnRevert p) (heq : l.append c t e = (l', .ok stamped)) :
    Sound c l' ∧ stamped.turn = e.turn ∧ stamped.payload = .turnRevert p ∧
      l'.recorded c = l.recorded c ++ [stamped] ∧
      l'.index.survivingOrder = l.index.survivingOrder.filter
        (fun id => !RevertWindow.takes ⟨e.turn, p.fromTurn, p.through⟩ l.index.order id) := by
  have hk : e.kind ≠ .turnOpen := by simp [Entry.kind_of_payload hp, Payload.kind]
  have hsound := h.append t (opensNew_of_ne hk)
  rw [heq] at hsound
  obtain ⟨b, r, hb⟩ := h.coherent
  obtain ⟨hstamped, -, -, hrec, b', hobs, hb'⟩ := hb.append_eq_ok heq
  have hpayload : stamped.payload = .turnRevert p := by
    rw [hstamped, stamp_payload, hp]
    rfl
  have hturn : stamped.turn = e.turn := by rw [hstamped, stamp_turn]
  have hk' : stamped.kind ≠ .turnOpen := by simp [Entry.kind_of_payload hpayload, Payload.kind]
  refine ⟨hsound, hturn, hpayload, hrec, ?_⟩
  have hflags : b.flagsAfter r stamped = fun id =>
      r id || RevertWindow.takes ⟨e.turn, p.fromTurn, p.through⟩ b.order id := by
    rw [Index.flagsAfter, hpayload, hturn]
  rw [hb'.index_eq, hb.index_eq, hb'.intact.folded.survivingOrder_live,
    hb.intact.folded.survivingOrder_live, Index.observeLine_order hk' hobs, hflags,
    Index.live_order, List.filter_filter]
  apply List.filter_congr
  intro id _
  simp [Bool.not_or, Bool.and_comm]

/-- The survivors around one of them, as the order has them. -/
theorem survivors_split {idx : Index} {fromTurn : String} {st : TurnState}
    (hfrom : fromTurn ∈ idx.order) (hst : idx.turns fromTurn = some st)
    (hlive : st.reverted = false) :
    idx.survivingOrder = (idx.order.take (idx.order.idxOf fromTurn)).filter
        (fun id => !((idx.turns id).map TurnState.reverted).getD false) ++
      fromTurn :: (idx.order.drop (idx.order.idxOf fromTurn + 1)).filter
        (fun id => !((idx.turns id).map TurnState.reverted).getD false) := by
  have hlt := List.idxOf_lt_length_iff.mpr hfrom
  have hsplit : idx.order = idx.order.take (idx.order.idxOf fromTurn) ++
      fromTurn :: idx.order.drop (idx.order.idxOf fromTurn + 1) := by
    conv_lhs => rw [← List.take_append_drop (idx.order.idxOf fromTurn) idx.order,
      List.drop_eq_getElem_cons hlt, List.getElem_idxOf hlt]
  rw [Index.survivingOrder]
  conv_lhs => rw [hsplit]
  rw [List.filter_append, List.filter_cons_of_pos (by simp [hst, hlive])]

/-- The window to the newest turn, less what it leaves. -/
theorem filter_takes {order : List String} (hnodup : order.Nodup) {fromTurn through carrier : String}
    (hfrom : fromTurn ∈ order) (hlast : order.getLast? = some through)
    (hout : carrier ∉ order.drop (order.idxOf fromTurn)) (f : String → Bool) :
    (order.filter f).filter
        (fun id => !RevertWindow.takes ⟨carrier, fromTurn, through⟩ order id) =
      (order.take (order.idxOf fromTurn)).filter f := by
  rw [List.filter_filter, ← Window.filter_notMem_drop hnodup]
  apply List.filter_congr
  intro id _
  have htakes : RevertWindow.takes ⟨carrier, fromTurn, through⟩ order id =
      decide (id ∈ order.drop (order.idxOf fromTurn)) := by
    rw [RevertWindow.takes]
    simp only [Window.window_eq_drop hnodup hfrom hlast]
    by_cases hid : id = carrier
    · subst hid
      simp [hout]
    · simp [hid]
  rw [htakes]
  by_cases hid : id ∈ order.drop (order.idxOf fromTurn) <;> simp [hid]

theorem Sound.revert_cut (h : Sound c l) {ticks : ℕ → Tick} {mint : String}
    (hnew : l.NewTurn mint) {fromTurn : String} {cause : TurnRevertCause} {kasMessageID : String}
    {announced : Option Entry} {record : Entry}
    (heq : l.revert c ticks mint fromTurn cause kasMessageID = (l', announced, .ok record)) :
    ∃ front rest, Cut c l l' fromTurn announced record front rest := by
  have hnodup : l.index.order.Nodup := by
    rw [h.order_eq]
    exact h.wellFormed.opensOnce
  rw [EntryLog.revert] at heq
  cases hst : l.index.turns fromTurn with
  | none =>
    simp only [hst] at heq
    cases heq
  | some st =>
    simp only [hst] at heq
    split at heq
    · cases heq
    next hlive =>
    have hfrom : fromTurn ∈ l.index.order := by
      obtain ⟨b, r, hb⟩ := h.coherent
      rw [hb.index_eq, Index.live_order, hb.intact.folded.mem_order]
      rw [hb.index_eq, Index.live_turns, Option.map_eq_some_iff] at hst
      obtain ⟨st₀, hst₀, -⟩ := hst
      rw [hst₀]
      rfl
    obtain ⟨through, hlast⟩ : ∃ through, l.index.order.getLast? = some through :=
      ⟨_, List.getLast?_eq_some_getLast (List.ne_nil_of_mem hfrom)⟩
    have hwindow : l.index.revertWindow fromTurn =
        (l.index.order.drop (l.index.order.idxOf fromTurn), through) := by
      rw [Index.revertWindow, hlast]
      rfl
    have hsurvivors := survivors_split hfrom hst (by simpa using hlive)
    have hn : st.n = l.index.ordinal fromTurn := by rw [Index.ordinal, hst]; rfl
    rw [hwindow] at heq
    simp only [newestSurviving_drop hnodup] at heq
    generalize hfront : (l.index.order.take (l.index.order.idxOf fromTurn)).filter
      (fun id => !((l.index.turns id).map TurnState.reverted).getD false) = front at heq hsurvivors
    cases hs : front.getLast? with
    | some carrier =>
      simp only [hs] at heq
      rcases hreq : l.append c (ticks 0)
          (revertRecord fromTurn st.n through cause kasMessageID carrier) with ⟨l₁, err₁ | stamped⟩
      · rw [hreq] at heq
        cases heq
      rw [hreq] at heq
      cases heq
      obtain ⟨hsound, hturn, hpayload, hrec, hleft⟩ := h.append_record rfl hreq
      have hmem : carrier ∈ l.index.order.take (l.index.order.idxOf fromTurn) := by
        have := List.mem_of_getLast? hs
        rw [← hfront] at this
        exact List.mem_of_mem_filter this
      have hout : carrier ∉ l.index.order.drop (l.index.order.idxOf fromTurn) := by
        intro hdrop
        rw [← List.take_append_drop (l.index.order.idxOf fromTurn) l.index.order] at hnodup
        exact (List.nodup_append.mp hnodup).2.2 carrier hmem carrier hdrop rfl
      refine ⟨front, _, hsound, hsurvivors, ⟨_, hpayload, hn⟩, ?_, ?_, ?_⟩
      · rw [hleft, Index.survivingOrder]
        simp only [revertRecord, Option.map_none, Option.toList_none, List.append_nil]
        rw [filter_takes hnodup hfrom hlast hout, hfront]
      · exact fun turn hturn => h.ordinal_eq hsound hrec hturn
      · simp only [hturn]
        exact hs
    | none =>
      have hnil := List.getLast?_eq_none_iff.mp hs
      have hhigh : l.index.survivingHighWater
          (l.index.order.drop (l.index.order.idxOf fromTurn)) = 0 :=
        Index.survivingHighWater_eq_zero (by rw [newestSurviving_drop hnodup, hfront, hs])
      simp only [hs, hhigh, Nat.zero_add] at heq
      rcases hoeq : l.openTurnWithOrdinal c (ticks 0) mint { source := .revert } 1 with
        ⟨l₁, err₁ | opening⟩
      · rw [hoeq] at heq
        cases heq
      obtain ⟨hturn, hopen⟩ := h.opens hnew hoeq
      rw [← hturn] at hopen
      simp only [hoeq] at heq
      obtain ⟨es, hclose, -⟩ := hopen.sound.append_lengthens (ticks 1)
        (e := carrierClose opening.turn) (by simp) (by simp)
      rcases hceq : l₁.closeCarrier c (ticks 1) opening.turn with ⟨l₂, err₂ | closed⟩
      · simp only [hceq] at heq
        cases heq
      rw [closeCarrier] at hceq
      rw [hceq] at hclose
      simp only [closeCarrier, hceq] at heq
      rcases hreq : l₂.append c (ticks 2)
          (revertRecord fromTurn st.n through cause kasMessageID opening.turn) with
        ⟨l₃, err₃ | stamped⟩
      · simp only [hreq] at heq
        cases heq
      simp only [hreq] at heq
      cases heq
      have hpayload₁ : opening.payload = .turnOpen { source := .revert, n := 1 } := by
        obtain ⟨b, r, hb⟩ := h.coherent
        rw [(hb.append_eq_ok hoeq).1, stamp_payload]
        rfl
      obtain ⟨hsound, hturn₃, hpayload, hrec, hleft⟩ := hclose.sound.append_record rfl hreq
      obtain ⟨opened, -, hrec₁⟩ := hopen.recorded
      have hrec₃ : l'.recorded c = l₁.recorded c ++ (es ++ [record]) := by
        rw [hrec, hclose.recorded, List.append_assoc]
      have hmem₁ : opening.turn ∈ l₁.index.order := by
        apply List.mem_of_mem_filter (p := fun id =>
          !((l₁.index.turns id).map TurnState.reverted).getD false)
        change opening.turn ∈ l₁.index.survivingOrder
        rw [hopen.survivors]
        simp
      have hordinal : l₁.index.ordinal opening.turn = 1 := by
        have hcount := hopen.count
        rwa [Index.turnCount, hopen.survivors, List.getLast?_concat] at hcount
      have horder : ∃ xs, l₂.index.order = l.index.order ++ xs := by
        refine ⟨History.opened ([opened] ++ es), ?_⟩
        rw [h.order_eq, hclose.sound.order_eq, hclose.recorded, hrec₁, List.append_assoc,
          opened_append]
      obtain ⟨xs, hxs⟩ := horder
      have hthrough := List.mem_of_getLast? hlast
      have htaken : ∀ id ∈ l.index.survivingOrder,
          RevertWindow.takes ⟨opening.turn, fromTurn, through⟩ l₂.index.order id = true := by
        intro id hid
        have hne : id ≠ opening.turn := by
          rintro rfl
          exact hopen.new (List.mem_of_mem_filter hid)
        rw [RevertWindow.takes]
        simp only [hxs, Window.window_append (.inl hfrom) (.inl hthrough),
          Window.window_eq_drop hnodup hfrom hlast, Bool.and_eq_true, decide_eq_true_eq,
          bne_iff_ne]
        refine ⟨?_, hne⟩
        by_contra hout
        have hkeep := List.mem_filter.mp (show id ∈ l.index.survivingOrder from hid)
        have hmem : id ∈ front := by
          rw [← hfront, ← Window.filter_notMem_drop hnodup, List.mem_filter]
          exact ⟨hkeep.1, by rw [hkeep.2]; simpa using hout⟩
        rw [hnil] at hmem
        cases hmem
      refine ⟨front, _, hsound, hsurvivors, ⟨_, hpayload, hn⟩, ?_, ?_, hnil, hturn₃, hopen.new,
        ⟨_, hpayload₁, rfl⟩, ?_⟩
      · have hfilter : l.index.survivingOrder.filter (fun id =>
            !RevertWindow.takes ⟨opening.turn, fromTurn, through⟩ l₂.index.order id) = [] := by
          rw [List.filter_eq_nil_iff]
          intro id hid
          rw [htaken id hid]
          exact Bool.false_ne_true
        have hself : RevertWindow.takes ⟨opening.turn, fromTurn, through⟩ l₂.index.order
            opening.turn = false := by
          rw [RevertWindow.takes]
          simp
        rw [hleft, hclose.survivors, hopen.survivors, List.filter_append]
        simp only [revertRecord] at hfilter hself ⊢
        rw [hfilter, hnil]
        simp [hself]
      · intro turn hturn
        have hall : l'.recorded c = l.recorded c ++ ([opened] ++ (es ++ [record])) := by
          rw [hrec₃, hrec₁, List.append_assoc]
        exact h.ordinal_eq hsound hall hturn
      · rw [hopen.sound.ordinal_eq hsound hrec₃ hmem₁, hordinal]

end Marotte.EntryLog
