import Marotte.EntryLog.Files
import Marotte.EntryLog.Reverts
import Marotte.EntryLog.Views

/-! # Paging through a log

A reader asks for the newest `k` turns and goes on from the oldest turn of each page. The pages
it collects hold every surviving turn once, whole.
-/
namespace Marotte

open History

/-- The turns of a page, oldest first. -/
def Page.turns (p : Page) : List String := Grouping.keys Entry.turn p.entries

namespace EntryLog

variable {c : LineCodec} {l : EntryLog}

/-- The pages read from a cursor on, each from the oldest turn of the one before, until one has
nothing older. -/
inductive Walk (c : LineCodec) (l : EntryLog) (k : ℕ) : String → List Page → Prop
  | last {before : String} {page : Page} (h : l.window c k before = .ok page)
      (hmore : page.hasMore = false) : Walk c l k before [page]
  | next {before oldest : String} {page : Page} {pages : List Page}
      (h : l.window c k before = .ok page) (hmore : page.hasMore = true)
      (holdest : page.turns.head? = some oldest) (rest : Walk c l k oldest pages) :
      Walk c l k before (page :: pages)

/-- What a reader collects: the surviving turns, each on one page with all its entries. -/
structure Paged (c : LineCodec) (l : EntryLog) (pages : List Page) : Prop where
  turns : pages.reverse.flatMap Page.turns = l.index.survivingOrder
  once : ∀ t ∈ l.index.survivingOrder, pages.countP (fun p => t ∈ p.turns) = 1
  whole : ∀ p ∈ pages, ∀ t ∈ p.turns, own p.entries t = own (l.recorded c) t
  counted : ∀ p ∈ pages, ∀ t ∈ p.turns,
    (own p.entries t).map Entry.seq = List.range (own p.entries t).length
  surviving : ∀ p ∈ pages, ∀ e ∈ p.entries, l.reverted e.turn = false
  more : ∀ p ∈ pages, p.hasMore = true ↔ ∃ t ∈ l.index.survivingOrder,
    ∀ u ∈ p.turns, l.index.survivingOrder.idxOf t < l.index.survivingOrder.idxOf u

/-- The reads of a log: its surviving turns in file order, the walk over them from the newest on,
and a surviving turn's entries from a seq on with the seq that the answer speaks for. -/
structure Reads (c : LineCodec) (l : EntryLog) (k : ℕ) : Prop where
  order : l.index.survivingOrder = (opened (l.recorded c)).filter (fun t => !l.reverted t)
  ends : ∃ pages, Walk c l k "" pages
  paged : ∀ pages, Walk c l k "" pages → Paged c l pages
  range : ∀ t ∈ l.index.survivingOrder, ∀ fromSeq,
    l.turnRange c t fromSeq = .ok ((own (l.recorded c) t).filter (fun e => fromSeq ≤ e.seq))
  page : ∀ t ∈ l.index.survivingOrder, ∀ fromSeq,
    l.turnPage c t fromSeq = .ok ((own (l.recorded c) t).filter (fun e => fromSeq ≤ e.seq),
      ((((own (l.recorded c) t).filter (fun e => fromSeq ≤ e.seq)).getLast?).map
        Entry.seq).getD (fromSeq - 1))

/-! ## A page -/

/-- A turn's first line is its turn_open. -/
theorem keys_recorded (h : Sound c l) :
    Grouping.keys Entry.turn (l.recorded c) = opened (l.recorded c) := by
  obtain ⟨b, r, hb⟩ := h.coherent
  have hn := h.wellFormed.opensOnce
  rw [hb.recorded_eq] at hn ⊢
  have hall : b.Folded ∧ b.Follows (c.entriesOf (l.file.take b.size)) ∧
      ((opened (c.entriesOf (l.file.take b.size))).Nodup →
        Grouping.keys Entry.turn (c.entriesOf (l.file.take b.size)) =
          opened (c.entriesOf (l.file.take b.size))) := by
    refine hb.intact.induction (P := fun es b => b.Folded ∧ b.Follows es ∧
      ((opened es).Nodup → Grouping.keys Entry.turn es = opened es))
      ⟨Index.folded_empty, ⟨rfl, rfl, by simp⟩, fun _ => rfl⟩ ?_
    rintro es b e len b' ⟨hfolded, hfollows, ih⟩ hobs
    have hnext := Index.follows_concat hfolded hfollows hobs
    refine ⟨hfolded.observeLine hobs, hnext, fun hnodup => ?_⟩
    rw [opened_append] at hnodup
    rw [Grouping.keys_append, opened_append, ih (List.nodup_append.mp hnodup).1]
    congr 1
    by_cases ho : e.kind = .turnOpen
    · have hone : opened [e] = [e.turn] := by simp [opened, ho]
      have hnew : e.turn ∉ es.map Entry.turn := by
        intro hm
        obtain ⟨f, hf, hturn⟩ := List.mem_map.mp hm
        have hmem := hfollows.turn_mem f hf
        rw [hfollows.order, hturn] at hmem
        exact (List.nodup_append.mp hnodup).2.2 e.turn hmem e.turn (by simp [hone]) rfl
      rw [hone, List.filter_cons_of_pos (by simpa using hnew), List.filter_nil]
      simp [Grouping.keys, List.eraseDups_cons]
    · have hone : opened [e] = [] := by simp [opened, ho]
      have hmem := hnext.turn_mem e (by simp)
      rw [hnext.order, opened_append, hone, List.append_nil] at hmem
      obtain ⟨f, hf, -, hturn⟩ := mem_opened.mp hmem
      have hheld : e.turn ∈ es.map Entry.turn := List.mem_map.mpr ⟨f, hf, hturn⟩
      rw [hone, List.filter_cons_of_neg (by simpa using hheld)]
      rfl
  exact hall.2.2 hn

/-- The page of some of the log's turns. -/
def pageOf (c : LineCodec) (l : EntryLog) (turns : List String) (hasMore : Bool) : Page :=
  ⟨(l.recorded c).filter (fun e => e.turn ∈ turns), hasMore⟩

theorem Sound.pageOf_turns (h : Sound c l) {turns : List String}
    (hsub : turns.Sublist l.index.order) (hasMore : Bool) :
    (pageOf c l turns hasMore).turns = turns := by
  have hnodup : l.index.order.Nodup := by
    rw [h.order_eq]
    exact h.wellFormed.opensOnce
  have hkeys := Grouping.keys_filter Entry.turn (fun t => decide (t ∈ turns)) (l.recorded c)
  rw [keys_recorded h, ← h.order_eq, Grouping.filter_mem_sublist hnodup hsub] at hkeys
  exact hkeys

theorem own_pageOf {turns : List String} {hasMore : Bool} {t : String} (ht : t ∈ turns) :
    own (pageOf c l turns hasMore).entries t = own (l.recorded c) t := by
  rw [pageOf, own, own, List.filter_filter]
  apply List.filter_congr
  intro e _
  by_cases he : e.turn = t
  · simp [he, ht]
  · simp [he]

/-! ## The walk -/

theorem survivingOrder_sublist (l : EntryLog) :
    l.index.survivingOrder.Sublist l.index.order := List.filter_sublist

/-- The turns of the page of `k` that ends before a place in the order of the survivors. -/
def pageTurns (l : EntryLog) (k upper : ℕ) : List String :=
  (l.index.survivingOrder.take upper).drop (upper - k)

theorem pageTurns_sublist (l : EntryLog) (k upper : ℕ) :
    (pageTurns l k upper).Sublist l.index.order :=
  ((List.drop_sublist _ _).trans (List.take_sublist _ _)).trans (survivingOrder_sublist l)

/-- The place a cursor stands for. -/
def placeOf (l : EntryLog) (before : String) : Option ℕ :=
  if before = "" then some l.index.survivingOrder.length else l.index.survivingOrder.idxOf? before

theorem Sound.window_place (h : Sound c l) {k upper : ℕ} {before : String}
    (hplace : placeOf l before = some upper) :
    l.window c k before = .ok (pageOf c l (pageTurns l k upper) (decide (0 < upper - k))) := by
  rw [placeOf] at hplace
  rw [h.window_eq]
  simp only [hplace, Int.toNat_natCast]
  rfl

theorem take_append_pageTurns (l : EntryLog) (k upper : ℕ) :
    l.index.survivingOrder.take (upper - k) ++ pageTurns l k upper =
      l.index.survivingOrder.take upper := by
  have hle : upper - k ≤ upper := Nat.sub_le upper k
  have htake : l.index.survivingOrder.take (upper - k) =
      (l.index.survivingOrder.take upper).take (upper - k) := by
    rw [List.take_take, Nat.min_eq_left hle]
  rw [htake, pageTurns, List.take_append_drop]

theorem mem_pageTurns {k upper : ℕ} {t : String} (ht : t ∈ pageTurns l k upper) :
    ∃ i, upper - k ≤ i ∧ i < upper ∧ l.index.survivingOrder[i]? = some t := by
  rw [pageTurns, List.mem_drop_iff_getElem] at ht
  obtain ⟨i, hi, heq⟩ := ht
  rw [List.length_take] at hi
  refine ⟨upper - k + i, by omega, by omega, ?_⟩
  rw [List.getElem_take] at heq
  rw [← heq, List.getElem?_eq_getElem]

/-- A page with an older survivor behind it begins with the turn at its lower place. -/
theorem Sound.next_place (h : Sound c l) (hid : "" ∉ l.index.order) {k upper : ℕ} (hk : 1 ≤ k)
    (hupper : upper ≤ l.index.survivingOrder.length) (hmore : 0 < upper - k) :
    ∃ oldest, (pageTurns l k upper).head? = some oldest ∧
      placeOf l oldest = some (upper - k) := by
  have hlt : upper - k < l.index.survivingOrder.length := by omega
  refine ⟨l.index.survivingOrder[upper - k], ?_, ?_⟩
  · rw [pageTurns, List.head?_drop, List.getElem?_take_of_lt (by omega),
      List.getElem?_eq_getElem hlt]
  · have hmem : l.index.survivingOrder[upper - k] ∈ l.index.order :=
      (survivingOrder_sublist l).subset (List.getElem_mem hlt)
    have hne : l.index.survivingOrder[upper - k] ≠ "" := fun heq => hid (heq ▸ hmem)
    rw [placeOf, if_neg hne]
    exact Window.idxOf?_of_getElem? h.nodup_survivingOrder (List.getElem?_eq_getElem hlt)

/-- From any place the walk comes to an end. -/
theorem Sound.walk_ends (h : Sound c l) (hid : "" ∉ l.index.order) {k : ℕ} (hk : 1 ≤ k)
    {upper : ℕ} (hupper : upper ≤ l.index.survivingOrder.length) {before : String}
    (hplace : placeOf l before = some upper) : ∃ pages, Walk c l k before pages := by
  induction upper using Nat.strongRecOn generalizing before with
  | ind upper ih =>
    have hwindow := h.window_place (k := k) hplace
    by_cases hmore : 0 < upper - k
    · obtain ⟨oldest, hhead, hnext⟩ := h.next_place hid hk hupper hmore
      obtain ⟨pages, hrest⟩ := ih (upper - k) (by omega) (by omega) hnext
      refine ⟨_, .next hwindow (by simpa [pageOf] using hmore) ?_ hrest⟩
      rw [h.pageOf_turns (pageTurns_sublist l k upper), hhead]
    · exact ⟨_, .last hwindow (by simpa [pageOf] using hmore)⟩

/-- What a walk from a place collects: the survivors up to it, cut into pages. -/
theorem Sound.walk_pages (h : Sound c l) (hid : "" ∉ l.index.order) {k : ℕ} (hk : 1 ≤ k)
    {before : String} {pages : List Page} (hw : Walk c l k before pages) {upper : ℕ}
    (hupper : upper ≤ l.index.survivingOrder.length) (hplace : placeOf l before = some upper)
    (hpos : 0 < upper ∨ l.index.survivingOrder = []) :
    pages.reverse.flatMap Page.turns = l.index.survivingOrder.take upper ∧
      ∀ p ∈ pages, ∃ hi ≤ l.index.survivingOrder.length,
        (0 < hi ∨ l.index.survivingOrder = []) ∧
          p = pageOf c l (pageTurns l k hi) (decide (0 < hi - k)) := by
  induction hw generalizing upper with
  | @last before page hwindow hmore =>
    rw [h.window_place hplace, Except.ok.injEq] at hwindow
    subst hwindow
    have hzero : upper - k = 0 := Nat.eq_zero_of_not_pos (of_decide_eq_false hmore)
    constructor
    · have hcut := take_append_pageTurns l k upper
      rw [hzero, List.take_zero, List.nil_append] at hcut
      rw [List.reverse_singleton, List.flatMap_singleton,
        h.pageOf_turns (pageTurns_sublist l k upper), hcut]
    · intro p hp
      exact ⟨upper, hupper, hpos, List.mem_singleton.mp hp⟩
  | @next before oldest page pages hwindow hmore holdest hrest ih =>
    rw [h.window_place hplace, Except.ok.injEq] at hwindow
    subst hwindow
    have hmore' : 0 < upper - k := by simpa [pageOf] using hmore
    obtain ⟨oldest', hhead, hnext⟩ := h.next_place hid hk hupper hmore'
    rw [h.pageOf_turns (pageTurns_sublist l k upper), hhead, Option.some.injEq] at holdest
    subst holdest
    obtain ⟨hturns, hpages⟩ := ih (by omega) hnext (.inl hmore')
    constructor
    · rw [List.reverse_cons, List.flatMap_append, hturns, List.flatMap_singleton,
        h.pageOf_turns (pageTurns_sublist l k upper), take_append_pageTurns]
    · intro p hp
      rcases List.mem_cons.mp hp with rfl | hp
      · exact ⟨upper, hupper, hpos, rfl⟩
      · exact hpages p hp

/-! ## The reads -/

theorem Sound.not_reverted {t : String} (ht : t ∈ l.index.survivingOrder) :
    l.reverted t = false := by
  simpa [reverted] using (List.mem_filter.mp ht).2

theorem idxOf_of_place (h : Sound c l) {i : ℕ} {t : String}
    (ht : l.index.survivingOrder[i]? = some t) : l.index.survivingOrder.idxOf t = i := by
  obtain ⟨hi, rfl⟩ := List.getElem?_eq_some_iff.mp ht
  exact h.nodup_survivingOrder.idxOf_getElem i hi

/-- A page says there is more exactly when a survivor stands before all its turns. -/
theorem Sound.more_iff (h : Sound c l) {k hi : ℕ} (hk : 1 ≤ k)
    (hle : hi ≤ l.index.survivingOrder.length) (hpos : 0 < hi ∨ l.index.survivingOrder = []) :
    0 < hi - k ↔ ∃ t ∈ l.index.survivingOrder, ∀ u ∈ pageTurns l k hi,
      l.index.survivingOrder.idxOf t < l.index.survivingOrder.idxOf u := by
  constructor
  · intro hmore
    have hlen : 0 < l.index.survivingOrder.length := by omega
    refine ⟨l.index.survivingOrder[0], List.getElem_mem hlen, fun u hu => ?_⟩
    obtain ⟨i, hlow, -, hget⟩ := mem_pageTurns hu
    rw [idxOf_of_place h hget, idxOf_of_place h (List.getElem?_eq_getElem hlen)]
    omega
  · rintro ⟨t, ht, hall⟩
    rcases hpos with hpos | hnil
    · by_contra hmore
      have hzero : hi - k = 0 := by omega
      have hlen : 0 < l.index.survivingOrder.length := by omega
      have hfirst : l.index.survivingOrder[0] ∈ pageTurns l k hi := by
        rw [pageTurns, hzero, List.drop_zero]
        exact List.mem_take_iff_getElem.mpr ⟨0, by omega, rfl⟩
      have hlt := hall _ hfirst
      rw [idxOf_of_place h (List.getElem?_eq_getElem hlen)] at hlt
      omega
    · rw [hnil] at ht
      cases ht

theorem countP_turns {pages : List Page} {t : String} :
    pages.countP (fun p => t ∈ p.turns) = (pages.flatMap Page.turns).count t := by
  induction pages with
  | nil => rfl
  | cons p pages ih =>
    have hnodup : p.turns.Nodup := Grouping.nodup_keys Entry.turn p.entries
    rw [List.countP_cons, List.flatMap_cons, List.count_append, ih, hnodup.count]
    simp only [decide_eq_true_eq]
    omega

theorem Sound.paged (h : Sound c l) (hid : "" ∉ l.index.order) {k : ℕ} (hk : 1 ≤ k)
    {pages : List Page} (hw : Walk c l k "" pages) : Paged c l pages := by
  have hpos : 0 < l.index.survivingOrder.length ∨ l.index.survivingOrder = [] := by
    cases l.index.survivingOrder with
    | nil => exact .inr rfl
    | cons t ts => exact .inl (by simp)
  obtain ⟨hturns, hpages⟩ := h.walk_pages hid hk hw (Nat.le_refl _) rfl hpos
  rw [List.take_length] at hturns
  have hsub : ∀ p ∈ pages, ∃ hi ≤ l.index.survivingOrder.length,
      (0 < hi ∨ l.index.survivingOrder = []) ∧ p.turns = pageTurns l k hi ∧
        p = pageOf c l (pageTurns l k hi) (decide (0 < hi - k)) := by
    intro p hp
    obtain ⟨hi, hle, hpos, rfl⟩ := hpages p hp
    exact ⟨hi, hle, hpos, h.pageOf_turns (pageTurns_sublist l k hi) _, rfl⟩
  have hwhole : ∀ p ∈ pages, ∀ t ∈ p.turns, own p.entries t = own (l.recorded c) t := by
    intro p hp t ht
    obtain ⟨hi, -, -, hpt, heq⟩ := hsub p hp
    rw [hpt] at ht
    rw [heq]
    exact own_pageOf ht
  constructor
  · exact hturns
  · intro t ht
    have hperm : (pages.flatMap Page.turns).Perm (pages.reverse.flatMap Page.turns) :=
      (List.reverse_perm pages).symm.flatMap_right _
    rw [countP_turns, hperm.count_eq, hturns]
    exact List.count_eq_one_of_mem h.nodup_survivingOrder ht
  · exact hwhole
  · intro p hp t ht
    rw [hwhole p hp t ht]
    exact h.wellFormed.contiguous t
  · intro p hp e he
    obtain ⟨hi, -, -, -, rfl⟩ := hsub p hp
    have hmem : e.turn ∈ pageTurns l k hi := by simpa using (List.mem_filter.mp he).2
    exact Sound.not_reverted (List.mem_of_mem_take (List.mem_of_mem_drop hmem))
  · intro p hp
    obtain ⟨hi, hle, hpos, hpt, heq⟩ := hsub p hp
    rw [hpt, ← h.more_iff hk hle hpos, heq]
    exact decide_eq_true_iff

theorem Sound.turnRange_eq (h : Sound c l) {t : String} (ht : t ∈ l.index.survivingOrder)
    (fromSeq : ℕ) :
    l.turnRange c t fromSeq = .ok ((own (l.recorded c) t).filter (fun e => fromSeq ≤ e.seq)) := by
  obtain ⟨st, hst, -⟩ := h.row ((survivingOrder_sublist l).subset ht)
  have hrev := Sound.not_reverted ht
  rw [reverted, hst] at hrev
  have hread : l.readSet c [t] = .ok (own (l.recorded c) t) := by
    rw [h.readSet_eq (List.nodup_singleton t)]
    simp [own]
  have hst' : st.reverted = false := by simpa using hrev
  simp only [turnRange, hst, hst', Bool.false_eq_true, if_false, hread]
  by_cases hzero : fromSeq = 0
  · simp [hzero]
  · rw [if_neg hzero]

theorem Sound.turnPage_eq (h : Sound c l) {t : String} (ht : t ∈ l.index.survivingOrder)
    (fromSeq : ℕ) :
    l.turnPage c t fromSeq = .ok ((own (l.recorded c) t).filter (fun e => fromSeq ≤ e.seq),
      ((((own (l.recorded c) t).filter (fun e => fromSeq ≤ e.seq)).getLast?).map
        Entry.seq).getD (fromSeq - 1)) := by
  simp only [turnPage, h.turnRange_eq ht]
  cases hlast : ((own (l.recorded c) t).filter (fun e => fromSeq ≤ e.seq)).getLast? with
  | none => simp
  | some e => simp

/-- Of a log that opens and operations leave, every page size reads every surviving turn once and
whole, and a turn's ranges answer for what it holds. -/
theorem paging_complete {file : List UInt8} (hf : LogFile c file) {w : OpenWorld}
    {header : LogHeader} {cap : ℕ} {l₀ : EntryLog}
    (hopen : openEntryLog c w file header cap = (l₀, .ok ())) {ss : List LogStep}
    (hss : l₀.StepsOpenOnce c ss) (hid : "" ∉ (l₀.steps c ss).index.order) {k : ℕ} (hk : 1 ≤ k) :
    Reads c (l₀.steps c ss) k := by
  have h : Sound c (l₀.steps c ss) :=
    ((sound_scanned hf.sound header cap).grows (grows_openEntryLog hopen)).steps hss
  constructor
  · rw [← h.order_eq]
    rfl
  · exact h.walk_ends hid hk (Nat.le_refl _) rfl
  · exact fun pages hw => h.paged hid hk hw
  · exact fun t ht fromSeq => h.turnRange_eq ht fromSeq
  · exact fun t ht fromSeq => h.turnPage_eq ht fromSeq

/-- Two turns that interleave, the older one written to last, read a turn at a time. -/
theorem paging_complete_interleaved :
    Reads jsonLines ((new noHeader 0).steps jsonLines
      [.call (.openTurn {} "a" { source := .prompt }),
        .call (.openTurn {} "b" { source := .prompt }),
        .call (.append {} { id := "s1", turn := "t-a", payload := .text { text := "late" } })])
      1 := by
  have hopen : openEntryLog jsonLines {} [] noHeader 0 = (new noHeader 0, .ok ()) := rfl
  apply paging_complete .absent hopen
  · change (new noHeader 0).NewTurn "a" ∧ NewTurn _ "b" ∧ _ ≠ _ ∧ True
    exact ⟨by decide +kernel, by decide +kernel, by decide, trivial⟩
  · decide +kernel
  · exact Nat.le_refl 1

end EntryLog

end Marotte
