import Marotte.EntryLog.Files
import Marotte.EntryLog.Views
import Marotte.Stamps.Pages

/-! # When a page's stamps certify it

What an operation adds to a turn that takes entries moves that turn's seq; what it does otherwise
is followed by a mint, for a turn_open as its count is new to the header.
-/
namespace Marotte.Stamps

open History

namespace PageStore

variable {α : Type} {c : LineCodec} {s : PageStore α}

/-- What is filed between turns lands in a turn that takes entries, a rewrite fails only before it
has replaced the log, and a page finds in the registry every open turn that it goes on to show. -/
def Kept (c : LineCodec) (s : PageStore α) : PageEvent α → Prop
  | .appendsBetween _ _ _ => ∃ turn, s.between = some turn ∧ s.Open turn
  | .records _ _ rec => ∃ turn, s.recordedIn rec = some turn ∧ s.Open turn
  | .rewrites w _ marked => w.truncates = true ∧ w.caches = true ∧ marked ≠ none
  | .servesPage read => ∀ answer, s.page c read.args = .ok answer →
      ∀ shown ∈ answer.entries, s.Open shown.turn → shown.turn ∈ read.tails
  | _ => True

/-- A chat whose log was just opened: its header counts as the log does. -/
structure Started (c : LineCodec) (s : PageStore α) : Prop where
  log : s.log.Sound c
  reconcilable : s.log.header.reconcilable = true
  counted : s.log.header.turnCount = s.log.index.turnCount
  pages : s.pages = []

/-- A mint is to come: one is owed outright, or the counters are and they moved. -/
def Owes (s : PageStore α) : Prop :=
  (∃ op ∈ s.ops, .mint ∈ op) ∨
    (∃ op ∈ s.ops, .counters ∈ op) ∧ s.log.header.turnCount ≠ s.log.index.turnCount

/-- A turn that the page stamped has closed, or holds more. -/
def Moved (c : LineCodec) (s : PageStore α) (page : ServedPage α) : Prop :=
  ∃ stamp ∈ page.live, stamp.1 ∈ s.log.index.order ∧
    (stamp.1 ∉ s.openTurns ∨ stamp.2 + 1 < (own (s.log.recorded c) stamp.1).length)

/-- The page is what the same read answers, and it stamped what it shows open. -/
def Certified (c : LineCodec) (s : PageStore α) (page : ServedPage α) : Prop :=
  s.page c page.args = .ok page.answer ∧
    ∀ shown ∈ page.answer.entries, s.Open shown.turn →
      ∃ seq, (shown.turn, seq) ∈ page.live ∧
        seq + 1 ≤ (own (s.log.recorded c) shown.turn).length

structure Sound (c : LineCodec) (s : PageStore α) : Prop where
  log : s.log.Sound c
  reconcilable : s.log.header.reconcilable = true
  counts : s.log.header.turnCount ≤ s.log.index.turnCount ∨ [OpStep.counters, .mint] ∈ s.ops
  stamped : ∀ page ∈ s.pages, page.chat ≤ s.version
  current : ∀ page ∈ s.pages, page.chat = s.version →
    s.Owes ∨ s.Moved c page ∨ s.Certified c page

/-- An open leaves the header with the log's counters. -/
theorem started_of_open {w : OpenWorld} {file : List UInt8} {header : LogHeader} {cap : ℕ}
    (hfile : LogFile c file) (hreconcilable : header.reconcilable = true)
    (hopen : openEntryLog c w file header cap = (s.log, .ok ()))
    (hempty : s.log.index.order = [] → header.turnCount = 0) (hpages : s.pages = []) :
    s.Started c := by
  have hheader := EntryLog.closeUnterminated_header (c := c) w.ticks
    (EntryLog.scanned c file header cap) header.closerModel
    (EntryLog.scanned c file header cap).index.openTurns
  refine ⟨(EntryLog.sound_scanned hfile.sound header cap).grows
    (EntryLog.grows_openEntryLog hopen), ?_, ?_, hpages⟩
  all_goals
    obtain ⟨l, hclosed, ⟨hnil, heq⟩ | hcache⟩ := EntryLog.openEntryLog_eq_ok hopen
    all_goals rw [hclosed] at hheader
  · rw [heq, hheader]
    exact hreconcilable
  · have hwritten := EntryLog.writeCounters_counts (hheader ▸ hreconcilable) hcache
    exact hwritten.2.1
  · have hcount := hempty (heq ▸ hnil)
    rw [heq, hheader]
    change header.turnCount = _
    rw [hcount, Index.turnCount, Index.survivingOrder, hnil]
    rfl
  · have hwritten := EntryLog.writeCounters_counts (hheader ▸ hreconcilable) hcache
    exact hwritten.2.2

theorem Started.sound (h : s.Started c) : s.Sound c where
  log := h.log
  reconcilable := h.reconcilable
  counts := .inl (Nat.le_of_eq h.counted)
  stamped := by simp [h.pages]
  current := by simp [h.pages]

theorem page_eq_ok {args : PageArgs} {answer : PageAnswer α} (h : s.page c args = .ok answer) :
    ∃ win, s.log.window c args.turns args.before = .ok win ∧
      answer = { rest := s.rest, header := s.log.header, draft := s.draft, entries := win.entries,
                 hasMore := win.hasMore } := by
  rw [page] at h
  split at h
  · cases h
  · next win hwin =>
    cases h
    exact ⟨win, hwin, rfl⟩

/-- An open turn has no turn_close among its entries. -/
theorem Open.unclosed (hlog : s.log.Sound c) {turn : String} (h : s.Open turn)
    (hturn : turn ∈ s.log.index.order) {e : Entry} (he : e ∈ s.log.recorded c)
    (heturn : e.turn = turn) : e.kind ≠ .turnClose := by
  intro hkind
  obtain ⟨st, hst, -, hclosed⟩ := hlog.row hturn
  have hopen := h.2
  rw [hst, Option.map_some, Option.getD_some, hclosed, List.any_eq_false] at hopen
  have hown : e ∈ own (s.log.recorded c) turn := by
    rw [own, List.mem_filter]
    exact ⟨he, by simpa using heturn⟩
  exact hopen e hown (by simpa using hkind)

/-- A turn that a longer log leaves open was open before. -/
theorem Open.of_lengthens (hlog : s.log.Sound c) {log : EntryLog} {es : List Entry}
    {openTurns : List String} {ops : List (List OpStep)}
    (hext : EntryLog.Lengthens c s.log log es) (hopen : ∀ turn ∈ openTurns, turn ∈ s.openTurns)
    {turn : String} (hturn : turn ∈ s.log.index.order)
    (h : ({ s with log, openTurns, ops } : PageStore α).Open turn) : s.Open turn := by
  refine ⟨hopen turn h.1, ?_⟩
  obtain ⟨st, hst, -, hclosed⟩ := hlog.row hturn
  obtain ⟨st', hst', -, hclosed'⟩ := hext.sound.row (hext.order hlog hturn)
  have hflag : st'.closed = false := by
    have hflag := h.2
    change ((log.index.turns turn).map TurnState.closed).getD true = false at hflag
    rwa [hst', Option.map_some, Option.getD_some] at hflag
  rw [hst, Option.map_some, Option.getD_some, hclosed]
  rw [hclosed', hext.own, List.any_append, Bool.or_eq_false_iff] at hflag
  exact hflag.1

namespace Sound

theorem owes_of_subset {log : EntryLog} {openTurns : List String} {ops : List (List OpStep)}
    (hheader : log.header = s.log.header) (hcount : log.index.turnCount = s.log.index.turnCount)
    (hops : ∀ op ∈ s.ops, op ∈ ops) (h : s.Owes) :
    ({ s with log, openTurns, ops } : PageStore α).Owes := by
  rcases h with ⟨op, hop, hmint⟩ | ⟨⟨op, hop, hcounters⟩, hne⟩
  · exact .inl ⟨op, hops op hop, hmint⟩
  · right
    refine ⟨⟨op, hops op hop, hcounters⟩, ?_⟩
    change log.header.turnCount ≠ log.index.turnCount
    rwa [hheader, hcount]

/-- Entries behind the log, in turns that take them or that it does not show. -/
theorem lengthens (h : s.Sound c) {log : EntryLog} {es : List Entry} {openTurns : List String}
    {ops : List (List OpStep)} (hext : EntryLog.Lengthens c s.log log es)
    (hes : ∀ e ∈ es, s.Open e.turn ∨ e.turn ∉ s.log.index.order)
    (hopen : ∀ turn ∈ openTurns, turn ∈ s.openTurns) (hops : ∀ op ∈ s.ops, op ∈ ops) :
    ({ s with log, openTurns, ops } : PageStore α).Sound c where
  log := hext.sound
  reconcilable := by
    change log.header.reconcilable = true
    rw [hext.header]
    exact h.reconcilable
  counts := by
    change log.header.turnCount ≤ log.index.turnCount ∨ _
    rw [hext.header, hext.count]
    exact h.counts.imp_right (hops _)
  stamped := h.stamped
  current page hpage hchat := by
    rcases h.current page hpage hchat with howes | ⟨stamp, hstamp, horder, hmoved⟩ | ⟨hsame, hlive⟩
    · exact .inl (owes_of_subset hext.header hext.count hops howes)
    · refine .inr (.inl ⟨stamp, hstamp, hext.order h.log horder, ?_⟩)
      rcases hmoved with hclosed | hmore
      · exact .inl fun hmem => hclosed (hopen _ hmem)
      · right
        change _ < (own (log.recorded c) _).length
        rw [hext.own, List.length_append]
        omega
    · right
      obtain ⟨win, hwin, hanswer⟩ := page_eq_ok hsame
      by_cases hshown : ∃ e ∈ es, ∃ shown ∈ page.answer.entries, shown.turn = e.turn
      · left
        obtain ⟨e, he, shown, hshown, hturn⟩ := hshown
        have hmem := h.log.shown_mem hwin (by simpa [hanswer] using hshown)
        have horder := h.log.turn_mem hmem
        have hopened : s.Open shown.turn := by
          rw [hturn] at horder ⊢
          exact (hes e he).resolve_right fun hnot => hnot horder
        obtain ⟨seq, hstamp, hle⟩ := hlive shown hshown hopened
        refine ⟨_, hstamp, hext.order h.log horder, .inr ?_⟩
        change _ < (own (log.recorded c) shown.turn).length
        have hpos : 0 < (own es shown.turn).length := by
          apply List.length_pos_of_mem (a := e)
          rw [own, List.mem_filter]
          exact ⟨he, by simp [hturn]⟩
        rw [hext.own, List.length_append]
        dsimp only
        omega
      · right
        refine ⟨?_, ?_⟩
        · have hwin' : log.window c page.args.turns page.args.before = .ok win := by
            apply hext.window h.log hwin
            intro e he shown hin hturn
            exact hshown ⟨e, he, shown, by simpa [hanswer] using hin, hturn⟩
          rw [PageStore.page]
          simp only [hwin', hext.header]
          rw [hanswer]
        · intro shown hin hopened
          have hmem := h.log.shown_mem hwin (by simpa [hanswer] using hin)
          have horder := h.log.turn_mem hmem
          obtain ⟨seq, hstamp, hle⟩ := hlive shown hin (hopened.of_lengthens h.log hext hopen horder)
          refine ⟨seq, hstamp, ?_⟩
          change _ ≤ (own (log.recorded c) shown.turn).length
          rw [hext.own, List.length_append]
          omega

/-- A step that leaves a mint to come. -/
theorem owing (h : s.Sound c) {s' : PageStore α} (hlog : s'.log.Sound c)
    (hreconcilable : s'.log.header.reconcilable = true)
    (hcounts : s'.log.header.turnCount ≤ s'.log.index.turnCount ∨
      [OpStep.counters, .mint] ∈ s'.ops)
    (hpages : s'.pages = s.pages) (hversion : s'.version = s.version) (howes : s'.Owes) :
    s'.Sound c where
  log := hlog
  reconcilable := hreconcilable
  counts := hcounts
  stamped := by
    rw [hpages, hversion]
    exact h.stamped
  current _ _ _ := .inl howes

theorem writes (h : s.Sound c) (rest : α) (header : LogHeader) (draft : String) :
    (s.step c (.writes rest header draft)).Sound c where
  log := h.log.grows ((EntryLog.Grows.refl s.log).cache _)
  reconcilable := rfl
  counts := h.counts
  stamped page hpage := Nat.le_succ_of_le (h.stamped page hpage)
  current page hpage hchat := by
    have hle := h.stamped page hpage
    exact absurd hchat (Nat.ne_of_lt (Nat.lt_succ_of_le hle))

/-- The count that a turn_open leaves is above the one on the header. -/
theorem openTurn (h : s.Sound c) (t : Tick) {mint : String} (hnew : s.log.NewTurn mint)
    (spec : TurnSpec) : (s.openTurn c t mint spec).Sound c := by
  rw [PageStore.openTurn]
  rcases heq : s.log.openTurn c t mint spec with ⟨log, err | opened⟩
  · have hext := h.log.opens_error hnew heq
    exact h.lengthens hext (by simp) (fun _ => id) (fun _ => id)
  · obtain ⟨-, hopen⟩ := h.log.opens hnew heq
    have hcount : log.index.turnCount = s.log.index.turnCount + 1 := hopen.count
    apply h.owing hopen.sound
    · exact (congrArg LogHeader.reconcilable hopen.header).trans h.reconcilable
    · change log.header.turnCount ≤ log.index.turnCount ∨ _
      rw [hopen.header, hcount]
      rcases h.counts with hle | hop
      · exact .inl (Nat.le_succ_of_le hle)
      · exact .inr (List.mem_cons_of_mem _ hop)
    · rfl
    · rfl
    · rcases h.counts with hle | hop
      · refine .inr ⟨⟨_, List.mem_cons_self .., List.mem_cons_self ..⟩, ?_⟩
        change log.header.turnCount ≠ log.index.turnCount
        rw [hopen.header, hcount]
        omega
      · exact .inl ⟨_, List.mem_cons_of_mem _ hop, by simp⟩

/-- An entry of a turn that takes entries. -/
theorem append (h : s.Sound c) (t : Tick) {e : Entry} (hopen : s.Open e.turn)
    (ho : e.kind ≠ .turnOpen) (hr : e.kind ≠ .turnRevert) {ops : List (List OpStep)}
    (hops : ∀ op ∈ s.ops, op ∈ ops) :
    ({ s with log := (s.log.append c t e).1, ops } : PageStore α).Sound c := by
  obtain ⟨es, hext, hes⟩ := h.log.append_lengthens t ho hr
  refine h.lengthens hext ?_ (fun _ => id) hops
  intro e' he'
  rw [(hes e' he').1]
  exact .inl hopen

theorem appendsBetween (h : s.Sound c) {ticks : ℕ → Tick} {mint : String} {e : Entry}
    (hkept : s.Kept c (.appendsBetween ticks mint e)) (ho : e.kind ≠ .turnOpen)
    (hr : e.kind ≠ .turnRevert) :
    ({ s with log := (s.log.appendBetweenTurns c ticks mint e).1 } : PageStore α).Sound c := by
  obtain ⟨turn, hbetween, hopen⟩ := hkept
  rw [between] at hbetween
  rw [EntryLog.appendBetweenTurns, hbetween]
  exact h.append (ticks 0) (e := { e with turn := turn }) hopen ho hr (fun _ => id)

theorem records (h : s.Sound c) {ticks : ℕ → Tick} {mint : String} {rec : EntryReconciled}
    (hkept : s.Kept c (.records ticks mint rec)) :
    ({ s with log := (s.log.appendReconciled c ticks mint rec).1 } : PageStore α).Sound c := by
  obtain ⟨turn, hrecorded, hopen⟩ := hkept
  have happend : ({ s with log := (s.log.append c (ticks 0)
      (EntryLog.reconciledEntry rec turn)).1 } : PageStore α).Sound c :=
    h.append (ticks 0) (e := EntryLog.reconciledEntry rec turn) hopen (by simp) (by simp)
      (fun _ => id)
  rw [EntryLog.appendReconciled]
  rw [recordedIn] at hrecorded
  split
  · exact h
  · split
    · next hturn =>
      rw [if_pos hturn] at hrecorded
      cases hrecorded
      exact happend
    · next hturn =>
      rw [if_neg hturn, between] at hrecorded
      rw [hrecorded]
      exact happend

theorem revert (h : s.Sound c) (ticks : ℕ → Tick) {mint : String} (hnew : s.log.NewTurn mint)
    (fromTurn kasMessageID : String) : (s.revert c ticks mint fromTurn kasMessageID).Sound c := by
  have hgrows := EntryLog.grows_revert (c := c) hnew ticks fromTurn .rewind kasMessageID
  have hheader := EntryLog.revert_header (c := c) s.log ticks mint fromTurn .rewind kasMessageID
  rw [PageStore.revert]
  rcases heq : s.log.revert c ticks mint fromTurn .rewind kasMessageID with
    ⟨log, opened, err | record⟩
  · obtain ⟨es, hext, hes⟩ := h.log.revert_error hnew heq
    exact h.lengthens hext (fun e he => .inr (hes e he)) (fun _ => id) (fun _ => id)
  · rw [heq] at hgrows hheader
    apply h.owing (h.log.grows hgrows)
    · exact (congrArg LogHeader.reconcilable hheader).trans h.reconcilable
    · exact .inr (List.mem_cons_self ..)
    · rfl
    · rfl
    · exact .inl ⟨_, List.mem_cons_self .., by simp⟩

theorem rewrite (h : s.Sound c) {w : RewriteWorld} {entries : List Entry} {marked : Option α}
    (hkept : s.Kept c (.rewrites w entries marked)) (hentries : (opened entries).Nodup) :
    (s.rewrite c w entries marked).Sound c := by
  obtain ⟨htruncates, hcaches, hmarked⟩ := hkept
  have hlog := h.log.rewrite htruncates hentries
  rcases heq : s.log.rewrite c w entries with ⟨log, err | ⟨⟩⟩
  · have hsame := (EntryLog.rewrite_header htruncates hcaches h.reconcilable heq).1 err rfl
    simp only [PageStore.rewrite, heq]
    rw [hsame]
    exact h
  · have hheader := (EntryLog.rewrite_header htruncates hcaches h.reconcilable heq).2 rfl
    rw [heq] at hlog
    cases marked with
    | none => exact absurd rfl hmarked
    | some rest =>
      simp only [PageStore.rewrite, heq]
      apply h.owing hlog
      · exact hheader.1
      · exact .inl (Nat.le_of_eq hheader.2)
      · rfl
      · rfl
      · exact .inl ⟨_, List.mem_cons_self .., by simp⟩

/-- `WriteCounters` is behind nothing that a page answers unless it mints. -/
theorem writeCounters (h : s.Sound c) {rest : List OpStep} (hop : .counters :: rest ∈ s.ops) :
    (s.writeCounters rest (s.ops.erase (.counters :: rest))).Sound c := by
  obtain ⟨log, hwritten⟩ := EntryLog.writeCounters_ok h.reconcilable
  obtain ⟨hindex, hreconcilable, hcounts⟩ := EntryLog.writeCounters_counts h.reconcilable hwritten
  have hlog := h.log.grows (EntryLog.grows_writeCounters s.log true)
  rw [hwritten] at hlog
  simp only [PageStore.writeCounters, hwritten]
  split
  · next hsame =>
    have hunwritten := EntryLog.writeCounters_same hwritten hsame.1 hsame.2
    subst hunwritten
    refine ⟨h.log, h.reconcilable, .inl (Nat.le_of_eq hcounts), h.stamped, ?_⟩
    intro page hpage hchat
    rcases h.current page hpage hchat with howes | hmoved | hcertified
    · left
      rcases howes with ⟨op, hop', hmint⟩ | ⟨-, hne⟩
      · left
        by_cases heq : op = .counters :: rest
        · subst heq
          exact ⟨rest, List.mem_cons_self .., by simpa using hmint⟩
        · exact ⟨op, List.mem_cons_of_mem _ ((List.mem_erase_of_ne heq).mpr hop'), hmint⟩
      · exact absurd hcounts hne
    · exact .inr (.inl hmoved)
    · exact .inr (.inr hcertified)
  · apply h.owing hlog
    · exact hreconcilable
    · exact .inl (Nat.le_of_eq hcounts)
    · rfl
    · rfl
    · exact .inl ⟨_, List.mem_cons_self .., List.mem_cons_self ..⟩

/-- A mint makes every page an old one. -/
theorem mint (h : s.Sound c) {rest : List OpStep} :
    ({ s with version := s.version + 1, ops := rest :: s.ops.erase (.mint :: rest) }
      : PageStore α).Sound c where
  log := h.log
  reconcilable := h.reconcilable
  counts := by
    rcases h.counts with hle | hop
    · exact .inl hle
    · right
      apply List.mem_cons_of_mem
      rw [List.mem_erase_of_ne]
      · exact hop
      · simp
  stamped page hpage := Nat.le_succ_of_le (h.stamped page hpage)
  current page hpage hchat := by
    have hle := h.stamped page hpage
    exact absurd hchat (Nat.ne_of_lt (Nat.lt_succ_of_le hle))

theorem proceed (h : s.Sound c) {op : List OpStep} (hop : op ∈ s.ops) : (s.proceed op).Sound c := by
  cases op with
  | nil =>
    refine ⟨h.log, h.reconcilable, ?_, h.stamped, ?_⟩
    · rcases h.counts with hle | hmem
      · exact .inl hle
      · exact .inr ((List.mem_erase_of_ne (by simp)).mpr hmem)
    · intro page hpage hchat
      rcases h.current page hpage hchat with howes | hrest
      · left
        rcases howes with ⟨op, hop', hmint⟩ | ⟨⟨op, hop', hcounters⟩, hne⟩
        · refine .inl ⟨op, (List.mem_erase_of_ne ?_).mpr hop', hmint⟩
          rintro rfl
          cases hmint
        · refine .inr ⟨⟨op, (List.mem_erase_of_ne ?_).mpr hop', hcounters⟩, hne⟩
          rintro rfl
          cases hcounters
      · exact .inr hrest
  | cons first rest =>
    cases first with
    | counters => exact h.writeCounters hop
    | mint => exact h.mint

/-- A page that is served is what the read answers, with the turns it shows open stamped. -/
theorem servePage (h : s.Sound c) {read : PageRead} (hkept : s.Kept c (.servesPage read)) :
    (s.servePage c read).Sound c := by
  rw [PageStore.servePage]
  split
  · exact ⟨h.log, h.reconcilable, h.counts, h.stamped, h.current⟩
  · next answer hanswer =>
    refine ⟨h.log, h.reconcilable, h.counts, ?_, ?_⟩
    · intro page hpage
      rcases List.mem_cons.mp hpage with rfl | hpage
      · exact Nat.le_refl _
      · exact h.stamped page hpage
    · intro page hpage hchat
      rcases List.mem_cons.mp hpage with rfl | hpage
      · right; right
        refine ⟨hanswer, ?_⟩
        intro shown hshown hopen
        obtain ⟨win, hwin, heq⟩ := page_eq_ok hanswer
        have hentries : answer.entries = win.entries := by rw [heq]
        have hmem := h.log.shown_mem hwin (hentries ▸ hshown)
        have horder := h.log.turn_mem hmem
        have htail := hkept answer hanswer shown hshown hopen
        refine ⟨(s.log.newestSeq shown.turn).getD 0, ?_, ?_⟩
        · rw [liveTurns, List.mem_map]
          refine ⟨shown.turn, List.mem_filter.mpr ⟨htail, ?_⟩, rfl⟩
          simp only [decide_eq_true_eq]
          refine ⟨List.any_eq_true.mpr ⟨shown, hshown, by simp⟩, ?_⟩
          rw [List.any_eq_true]
          rintro ⟨e, he, hclose⟩
          simp only [decide_eq_true_eq] at hclose
          exact Open.unclosed h.log hopen horder
            (h.log.shown_mem hwin (hentries ▸ he)) hclose.1 hclose.2
        · have hpos : 0 < (own (s.log.recorded c) shown.turn).length := by
            apply List.length_pos_of_mem (a := shown)
            rw [own, List.mem_filter]
            exact ⟨hmem, by simp⟩
          rw [h.log.newestSeq_eq horder, Option.getD_some]
          change _ ≤ (own (s.log.recorded c) shown.turn).length
          omega
      · exact h.current page hpage hchat

theorem step (h : s.Sound c) {e : PageEvent α} (hkept : s.Kept c e) : (s.step c e).Sound c := by
  cases e with
  | writes rest header draft => exact h.writes rest header draft
  | opensTurn t mint spec =>
    simp only [PageStore.step]
    split
    · next hnew => exact h.openTurn t hnew spec
    · exact h
  | appends t e =>
    simp only [PageStore.step]
    split
    · next hok => exact h.append t hok.1 hok.2.1 hok.2.2.1 (fun _ => id)
    · exact h
  | closes t e =>
    simp only [PageStore.step]
    split
    · next hok =>
      apply h.append t hok.1
      · rw [hok.2]
        intro hkind
        cases hkind
      · rw [hok.2]
        intro hkind
        cases hkind
      · exact fun _ => List.mem_cons_of_mem _
    · exact h
  | ends turn =>
    apply h.lengthens h.log.lengthens_self
    · simp
    · intro turn' hturn'
      exact List.mem_of_mem_filter hturn'
    · exact fun _ => id
  | appendsBetween ticks mint e =>
    simp only [PageStore.step]
    split
    · next hok => exact h.appendsBetween hkept hok.2.1 hok.2.2.1
    · exact h
  | reverts ticks mint fromTurn kasMessageID =>
    simp only [PageStore.step]
    split
    · next hnew => exact h.revert ticks hnew fromTurn kasMessageID
    · exact h
  | rewrites w entries marked =>
    simp only [PageStore.step]
    split
    · next hentries => exact h.rewrite hkept hentries
    · exact h
  | records ticks mint rec =>
    simp only [PageStore.step]
    split
    · exact h.records hkept
    · exact h
  | proceeds op =>
    simp only [PageStore.step]
    split
    · next hop => exact h.proceed hop
    · exact h
  | readsRegistry args => exact ⟨h.log, h.reconcilable, h.counts, h.stamped, h.current⟩
  | servesPage read =>
    simp only [PageStore.step]
    split
    · exact h.servePage hkept
    · exact h

theorem vouched (h : s.Sound c) : s.PagesVouched c := by
  intro hops page hpage hchat hlive
  rcases h.current page hpage hchat with howes | ⟨stamp, hstamp, horder, hmoved⟩ | ⟨hsame, -⟩
  · rcases howes with ⟨op, hop, -⟩ | ⟨⟨op, hop, -⟩, -⟩
    · rw [hops] at hop
      cases hop
    · rw [hops] at hop
      cases hop
  · obtain ⟨hopen, hseq⟩ := hlive stamp hstamp
    rw [h.log.newestSeq_eq horder] at hseq
    have hlength := Option.some.inj hseq
    rcases hmoved with hclosed | hmore
    · exact absurd hopen hclosed
    · omega
  · exact hsame

end Sound

/-- A new chat, its log opened on no file. -/
def newChat : PageStore ℕ where
  rest := 0
  draft := ""
  log := (openEntryLog jsonLines {} [] { noHeader with reconcilable := true } 0).1

theorem newChat_started : newChat.Started jsonLines := by
  apply @started_of_open ℕ jsonLines newChat {} [] { noHeader with reconcilable := true } 0
  · exact LogFile.absent
  · rfl
  · rfl
  · intro _
    rfl
  · rfl

instance (s : PageStore ℕ) : Decidable (s.PagesVouched c) :=
  inferInstanceAs (Decidable (s.ops = [] → _))

end PageStore
end Marotte.Stamps
