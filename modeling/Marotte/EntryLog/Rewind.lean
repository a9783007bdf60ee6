import Marotte.EntryLog.Files
import Marotte.EntryLog.Views
import Mathlib.Data.List.TakeWhile

/-! # What a rewind cuts at

The scan that resolves a prompt id to the turn a rewind reverts and to the runs it cancels. It
decides by place in the file: a run is listed where its launch stands at or behind the cut.
-/
namespace Marotte

open History

/-- The tool_call that a tool_result's id answers. -/
def toolCallIDOfResult (resultID : String) : String :=
  if ":result".toList <:+ resultID.toList then
    String.ofList (resultID.toList.take (resultID.toList.length - ":result".toList.length))
  else resultID

theorem toolCallIDOfResult_toolResultID (id : String) :
    toolCallIDOfResult (toolResultID id) = id := by
  have hlist : (toolResultID id).toList = id.toList ++ ":result".toList := String.toList_append
  rw [toolCallIDOfResult, hlist, if_pos (List.suffix_append _ _), List.length_append,
    Nat.add_sub_cancel, List.take_left, String.ofList_toList]

/-- What a rewind cuts at, what it tells KAS to revert to, and the runs it un-says. -/
structure RewindTarget where
  turn : String := ""
  kasMessageID : String := ""
  launchedRuns : List String := []
  deriving DecidableEq

/-- The state of one pass in file order. -/
structure RewindScan where
  opened : Finset String := ∅
  mentioned : Finset String := ∅
  preCutTools : Finset String := ∅
  target : RewindTarget := {}
  found : Bool := false

/-- The prompt that a turn_open carries. -/
def promptOf (e : Entry) : Option EntryPrompt :=
  match e.payload with
  | .turnOpen p => p.prompt
  | _ => none

namespace RewindScan

def visitOpen (promptID : String) (sc : RewindScan) (e : Entry) : RewindScan :=
  if (promptOf e).map EntryPrompt.id = some promptID then
    let sc := { sc with opened := insert e.turn sc.opened }
    if sc.found then sc else { sc with target := { turn := e.turn }, found := true }
  else sc

def visitBind (session : String) (sc : RewindScan) (e : Entry) (bind : EntryTurnBind) :
    RewindScan :=
  if e.turn ∈ sc.opened ∧ bind.sessionID = session then
    { sc with target := { sc.target with kasMessageID := bind.kasMessageID } }
  else sc

/-- Keeps the id of a tool entry met before the cut. -/
def notePreCut (sc : RewindScan) (e : Entry) : RewindScan :=
  if sc.found then sc else { sc with preCutTools := insert e.id sc.preCutTools }

/-- Decides once per run, at the first entry that carries its id. -/
def visitTool (sc : RewindScan) (e : Entry) (workflowID : String) : RewindScan :=
  let sc := sc.notePreCut e
  if workflowID = "" ∨ workflowID ∈ sc.mentioned then sc
  else
    let sc := { sc with mentioned := insert workflowID sc.mentioned }
    if toolCallIDOfResult e.id ∈ sc.preCutTools then sc
    else
      { sc with
        target := { sc.target with launchedRuns := sc.target.launchedRuns ++ [workflowID] } }

def visit (promptID session : String) (sc : RewindScan) (e : Entry) : RewindScan :=
  match e.payload with
  | .turnOpen _ => visitOpen promptID sc e
  | .turnBind bind => visitBind session sc e bind
  | .toolCall p => visitTool sc e p.workflowID
  | .toolResult p => visitTool sc e p.workflowID
  | _ => sc

end RewindScan

/-- The scan over a whole log; none when no turn_open carries the prompt. -/
def rewindTargetIn (entries : List Entry) (promptID session : String) : Option RewindTarget :=
  let sc := entries.foldl (RewindScan.visit promptID session) {}
  if sc.found then some sc.target else none

/-- The target among the surviving entries. -/
def EntryLog.rewindTarget (c : LineCodec) (l : EntryLog) (promptID session : String) :
    Except LogError (Option RewindTarget) :=
  match l.all c with
  | .error err => .error err
  | .ok entries => .ok (rewindTargetIn entries promptID session)

/-! ## The place of a launch -/

/-- The run that a tool_call or tool_result names, empty where it names none. -/
def workflowOf (e : Entry) : Option String :=
  match e.payload with
  | .toolCall p => some p.workflowID
  | .toolResult p => some p.workflowID
  | _ => none

/-- A turn_open that carries the prompt. -/
def OpensPrompt (promptID : String) (e : Entry) : Prop :=
  (promptOf e).map EntryPrompt.id = some promptID

instance (promptID : String) (e : Entry) : Decidable (OpensPrompt promptID e) :=
  inferInstanceAs (Decidable (_ = _))

/-- The first entry of some entries that names a run, with those before it. -/
structure MentionsRun (entries : List Entry) (run : String) (before : List Entry) (m : Entry) :
    Prop where
  isPrefix : before ++ [m] <+: entries
  run_ne : run ≠ ""
  names : workflowOf m = some run
  first : ∀ e ∈ before, workflowOf e ≠ some run

/-- The entry of a call's id at or before a mention, the mention itself where there is none. -/
def answeredCall (before : List Entry) (m : Entry) : Entry :=
  (before.find? (fun e => (workflowOf e).isSome ∧ e.id = toolCallIDOfResult m.id)).getD m

/-- The entry that launched a run: its first mention, taken at the call that one answers. -/
def LaunchesRun (entries : List Entry) (run : String) (launch : Entry) : Prop :=
  ∃ before m, MentionsRun entries run before m ∧ answeredCall before m = launch

/-- The entries before the first turn_open that carries the prompt. -/
def beforeCut (promptID : String) (entries : List Entry) : List Entry :=
  entries.takeWhile (fun e => ¬ OpensPrompt promptID e)

/-! ## The scan -/

variable {promptID session run : String} {es before : List Entry} {e m : Entry}
  {sc sc' : RewindScan}

theorem mentionsRun_concat : MentionsRun (es ++ [e]) run before m ↔
    MentionsRun es run before m ∨ before = es ∧ m = e ∧ run ≠ "" ∧ workflowOf e = some run ∧
      ∀ f ∈ es, workflowOf f ≠ some run := by
  constructor
  · rintro ⟨hp, hne, hnames, hfirst⟩
    rcases List.prefix_concat_iff.1 hp with heq | hp
    · obtain ⟨rfl, hm⟩ := List.append_inj' heq rfl
      cases hm
      exact .inr ⟨rfl, rfl, hne, hnames, hfirst⟩
    · exact .inl ⟨hp, hne, hnames, hfirst⟩
  · rintro (⟨hp, hne, hnames, hfirst⟩ | ⟨rfl, rfl, hne, hnames, hfirst⟩)
    · exact ⟨hp.trans (List.prefix_append _ _), hne, hnames, hfirst⟩
    · exact ⟨List.prefix_refl _, hne, hnames, hfirst⟩

theorem MentionsRun.mem (h : MentionsRun es run before m) : m ∈ es :=
  h.isPrefix.subset (List.mem_append_right _ List.mem_cons_self)

theorem MentionsRun.unique {before' : List Entry} {m' : Entry}
    (h : MentionsRun es run before m) (h' : MentionsRun es run before' m') :
    before = before' ∧ m = m' := by
  have hshort : ∀ {a b : List Entry} {x y : Entry}, a ++ [x] <+: b ++ [y] →
      workflowOf x = some run → (∀ e ∈ b, workflowOf e ≠ some run) → a ++ [x] = b ++ [y] := by
    intro a b x y hp hx hb
    rcases List.prefix_concat_iff.1 hp with heq | hp
    · exact heq
    · exact absurd hx (hb x (hp.subset (List.mem_append_right _ List.mem_cons_self)))
  have heq : before ++ [m] = before' ++ [m'] := by
    rcases List.prefix_or_prefix_of_prefix h.isPrefix h'.isPrefix with hp | hp
    · exact hshort hp h.names h'.first
    · exact (hshort hp h'.names h.first).symm
  obtain ⟨hbefore, hm⟩ := List.append_inj' heq rfl
  exact ⟨hbefore, (List.cons.inj hm).1⟩

theorem beforeCut_eq_self (h : ∀ f ∈ es, ¬ OpensPrompt promptID f) :
    beforeCut promptID es = es := by
  rw [beforeCut, List.takeWhile_eq_self_iff]
  intro f hf
  exact decide_eq_true (h f hf)

theorem beforeCut_append (h : ∃ f ∈ es, OpensPrompt promptID f) (fs : List Entry) :
    beforeCut promptID (es ++ fs) = beforeCut promptID es := by
  obtain ⟨o, ho, hopens⟩ := h
  rw [beforeCut, beforeCut, List.takeWhile_append, if_neg]
  intro hlen
  have hself := (List.takeWhile_prefix _).eq_of_length hlen
  have hall := List.takeWhile_eq_self_iff.1 hself o ho
  exact of_decide_eq_true hall hopens

/-- What the scan holds behind some entries. -/
structure RewindScan.Scanned (promptID : String) (es : List Entry) (sc : RewindScan) : Prop where
  turn : (es.find? (fun e => OpensPrompt promptID e)).map Entry.turn =
    if sc.found then some sc.target.turn else none
  mentioned : ∀ run, run ∈ sc.mentioned ↔ run ≠ "" ∧ ∃ e ∈ es, workflowOf e = some run
  preCut : ∀ id, id ∈ sc.preCutTools ↔
    ∃ e ∈ beforeCut promptID es, (workflowOf e).isSome ∧ e.id = id
  nodup : sc.target.launchedRuns.Nodup
  listed : ∀ run ∈ sc.target.launchedRuns, run ∈ sc.mentioned
  launched : sc.found = true → ∀ run, run ∈ sc.target.launchedRuns ↔
    ∃ before m, MentionsRun es run before m ∧ (∃ e ∈ before, OpensPrompt promptID e) ∧
      toolCallIDOfResult m.id ∉ sc.preCutTools

/-- What one tool entry changes. -/
theorem RewindScan.visitTool_spec (sc : RewindScan) (e : Entry) (workflowID : String) :
    (sc.visitTool e workflowID).found = sc.found ∧
    (sc.visitTool e workflowID).target.turn = sc.target.turn ∧
    (∀ id, id ∈ (sc.visitTool e workflowID).preCutTools ↔
      id ∈ sc.preCutTools ∨ sc.found = false ∧ e.id = id) ∧
    (∀ run, run ∈ (sc.visitTool e workflowID).mentioned ↔
      run ∈ sc.mentioned ∨ run ≠ "" ∧ run = workflowID) ∧
    (sc.visitTool e workflowID).target.launchedRuns =
      if workflowID ≠ "" ∧ workflowID ∉ sc.mentioned ∧
          toolCallIDOfResult e.id ∉ (sc.visitTool e workflowID).preCutTools then
        sc.target.launchedRuns ++ [workflowID]
      else sc.target.launchedRuns := by
  have hpre : ∀ id, id ∈ (sc.notePreCut e).preCutTools ↔
      id ∈ sc.preCutTools ∨ sc.found = false ∧ e.id = id := by
    intro id
    rw [notePreCut]
    cases hf : sc.found with
    | false => simp [or_comm, eq_comm]
    | true => simp
  have hsame : (sc.notePreCut e).found = sc.found ∧ (sc.notePreCut e).target = sc.target ∧
      (sc.notePreCut e).mentioned = sc.mentioned := by
    rw [notePreCut]
    split <;> exact ⟨rfl, rfl, rfl⟩
  rw [visitTool]
  generalize sc.notePreCut e = marked at hpre hsame
  obtain ⟨hfound, htarget, hmentioned⟩ := hsame
  simp only [hmentioned]
  by_cases hskip : workflowID = "" ∨ workflowID ∈ sc.mentioned
  · rw [if_pos hskip]
    refine ⟨hfound, by rw [htarget], hpre, fun run => ?_, ?_⟩
    · rw [hmentioned, iff_self_or]
      rintro ⟨hne, rfl⟩
      exact hskip.resolve_left hne
    · rw [if_neg fun h => hskip.elim h.1 h.2.1, htarget]
  · rw [if_neg hskip]
    obtain ⟨hne, hnew⟩ := not_or.1 hskip
    have hadd : ∀ run, run ∈ insert workflowID sc.mentioned ↔
        run ∈ sc.mentioned ∨ run ≠ "" ∧ run = workflowID := by
      intro run
      rw [Finset.mem_insert, or_comm, or_congr_right]
      constructor
      · rintro rfl
        exact ⟨hne, rfl⟩
      · exact And.right
    split
    · next hcall =>
      exact ⟨hfound, by rw [htarget], hpre, hadd, by rw [if_neg fun h => h.2.2 hcall, htarget]⟩
    · next hcall =>
      exact ⟨hfound, by rw [htarget], hpre, hadd, by rw [if_pos ⟨hne, hnew, hcall⟩, htarget]⟩

namespace RewindScan.Scanned

theorem found_iff (h : Scanned promptID es sc) :
    sc.found = true ↔ ∃ e ∈ es, OpensPrompt promptID e := by
  have hturn := h.turn
  cases hfind : es.find? (fun e => OpensPrompt promptID e) with
  | none =>
    have hnone := List.find?_eq_none.1 hfind
    rw [hfind] at hturn
    cases hfound : sc.found with
    | false => simpa using hnone
    | true => simp [hfound] at hturn
  | some o =>
    have hopens := List.find?_some hfind
    rw [hfind] at hturn
    cases hfound : sc.found with
    | false => simp [hfound] at hturn
    | true =>
      simp only [true_iff]
      exact ⟨o, List.mem_of_find?_eq_some hfind, of_decide_eq_true hopens⟩

/-- An entry that names no run and moves no cut. -/
theorem skip (h : Scanned promptID es sc) (hrun : workflowOf e = none)
    (hopens : OpensPrompt promptID e → sc.found = true) (hfound : sc'.found = sc.found)
    (hturn : sc'.target.turn = sc.target.turn)
    (hlaunched : sc'.target.launchedRuns = sc.target.launchedRuns)
    (hmentioned : sc'.mentioned = sc.mentioned) (hpre : sc'.preCutTools = sc.preCutTools) :
    Scanned promptID (es ++ [e]) sc' := by
  constructor
  · rw [List.find?_append, hfound, hturn, ← h.turn]
    cases hfind : es.find? (fun e => OpensPrompt promptID e) with
    | some o => rfl
    | none =>
      have hnone := List.find?_eq_none.1 hfind
      have hno : ¬ OpensPrompt promptID e := fun ho => by
        obtain ⟨o, ho, hopens⟩ := h.found_iff.1 (hopens ho)
        exact hnone o ho (decide_eq_true hopens)
      rw [List.find?_cons_of_neg (by simpa using hno)]
      rfl
  · intro run
    rw [hmentioned, h.mentioned]
    simp [hrun]
  · intro id
    rw [hpre, h.preCut]
    by_cases hex : ∃ f ∈ es, OpensPrompt promptID f
    · rw [beforeCut_append hex]
    · have hno : ∀ f ∈ es, ¬ OpensPrompt promptID f := fun f hf ho => hex ⟨f, hf, ho⟩
      have hne : ¬ OpensPrompt promptID e := fun ho => hex (h.found_iff.1 (hopens ho))
      have hno' : ∀ f ∈ es ++ [e], ¬ OpensPrompt promptID f := by
        intro f hf
        rcases List.mem_append.1 hf with hf | hf
        · exact hno f hf
        · exact List.mem_singleton.1 hf ▸ hne
      rw [beforeCut_eq_self hno, beforeCut_eq_self hno']
      simp [hrun]
  · rw [hlaunched]
    exact h.nodup
  · rw [hlaunched, hmentioned]
    exact h.listed
  · rw [hfound, hlaunched, hpre]
    intro hf run
    rw [h.launched hf]
    simp only [mentionsRun_concat, hrun, reduceCtorEq, false_and, and_false, or_false]

/-- The turn_open the rewind cuts at. -/
theorem cut (h : Scanned promptID es sc) (hopens : OpensPrompt promptID e)
    (hrun : workflowOf e = none) (hfound : sc.found = false) (opened : Finset String) :
    Scanned promptID (es ++ [e])
      { sc with opened := opened, target := { turn := e.turn }, found := true } := by
  have hno : ∀ f ∈ es, ¬ OpensPrompt promptID f := by
    intro f hf ho
    have htrue := h.found_iff.2 ⟨f, hf, ho⟩
    rw [hfound] at htrue
    contradiction
  constructor
  · have hnone : es.find? (fun e => OpensPrompt promptID e) = none :=
      List.find?_eq_none.2 fun f hf => by simpa using hno f hf
    rw [List.find?_append, hnone, List.find?_cons_of_pos (by simpa using hopens)]
    rfl
  · intro run
    rw [h.mentioned]
    simp [hrun]
  · intro id
    have hself : beforeCut promptID (es ++ [e]) = es := by
      rw [beforeCut, List.takeWhile_append_of_pos fun f hf => decide_eq_true (hno f hf),
        List.takeWhile_cons_of_neg (by simpa using hopens), List.append_nil]
    rw [h.preCut, beforeCut_eq_self hno, hself]
  · exact List.nodup_nil
  · exact fun run hmem => absurd hmem List.not_mem_nil
  · rintro - run
    constructor
    · exact fun hmem => absurd hmem List.not_mem_nil
    · rintro ⟨before, m, hm, ⟨o, ho, hopens⟩, -⟩
      rcases mentionsRun_concat.1 hm with hm | ⟨rfl, -, -, -, -⟩
      · exact absurd hopens
          (hno o (hm.isPrefix.subset (List.mem_append_left _ ho)))
      · exact absurd hopens (hno o ho)

/-- A tool_call or tool_result. -/
theorem tool (h : Scanned promptID es sc) {workflowID : String}
    (hrun : workflowOf e = some workflowID) (hopens : ¬ OpensPrompt promptID e) :
    Scanned promptID (es ++ [e]) (sc.visitTool e workflowID) := by
  obtain ⟨hfound, hturn, hpre, hmentioned, hlaunched⟩ := visitTool_spec sc e workflowID
  have hex : (∃ f ∈ es ++ [e], OpensPrompt promptID f) ↔ ∃ f ∈ es, OpensPrompt promptID f := by
    simp [hopens]
  constructor
  · rw [List.find?_append, List.find?_cons_of_neg (by simpa using hopens), hfound, hturn,
      List.find?_nil, Option.or_none]
    exact h.turn
  · intro run
    rw [hmentioned, h.mentioned]
    simp only [List.mem_append, List.mem_singleton, or_and_right, exists_or, exists_eq_left, hrun,
      Option.some.injEq, and_or_left]
    rw [eq_comm (a := run)]
  · intro id
    rw [hpre, h.preCut]
    cases hf : sc.found with
    | true => simp [beforeCut_append (h.found_iff.1 hf)]
    | false =>
      have hno : ∀ f ∈ es, ¬ OpensPrompt promptID f := by
        intro f hf' ho
        have htrue := h.found_iff.2 ⟨f, hf', ho⟩
        rw [hf] at htrue
        contradiction
      have hno' : ∀ f ∈ es ++ [e], ¬ OpensPrompt promptID f :=
        fun f hf ho => by
          obtain ⟨o, ho, hopens⟩ := hex.1 ⟨f, hf, ho⟩
          exact hno o ho hopens
      rw [beforeCut_eq_self hno, beforeCut_eq_self hno']
      simp only [true_and, List.mem_append, List.mem_singleton, or_and_right, exists_or,
        exists_eq_left, hrun, Option.isSome_some]
  · rw [hlaunched]
    split
    · next hnew =>
      rw [List.nodup_append]
      refine ⟨h.nodup, List.nodup_singleton _, fun run hmem w hw heq => ?_⟩
      rw [List.mem_singleton.1 hw] at heq
      exact hnew.2.1 (h.listed _ (heq ▸ hmem))
    · exact h.nodup
  · intro run hmem
    rw [hmentioned]
    rw [hlaunched] at hmem
    split at hmem
    · next hnew =>
      rcases List.mem_append.1 hmem with hmem | hmem
      · exact .inl (h.listed run hmem)
      · rw [List.mem_singleton.1 hmem]
        exact .inr ⟨hnew.1, rfl⟩
    · exact .inl (h.listed run hmem)
  · intro hf run
    rw [hfound] at hf
    have hpre' : ∀ id, id ∈ (sc.visitTool e workflowID).preCutTools ↔ id ∈ sc.preCutTools := by
      intro id
      rw [hpre, hf]
      simp
    have hbehind := h.found_iff.1 hf
    have hnew : (∃ before m, (before = es ∧ m = e ∧ run ≠ "" ∧ workflowOf e = some run ∧
          ∀ f ∈ es, workflowOf f ≠ some run) ∧ (∃ f ∈ before, OpensPrompt promptID f) ∧
          toolCallIDOfResult m.id ∉ sc.preCutTools) ↔
        run = workflowID ∧ workflowID ≠ "" ∧ workflowID ∉ sc.mentioned ∧
          toolCallIDOfResult e.id ∉ sc.preCutTools := by
      constructor
      · rintro ⟨before, m, ⟨rfl, rfl, hne, hnames, hfirst⟩, -, hcall⟩
        rw [hrun, Option.some.injEq] at hnames
        rw [hnames, h.mentioned]
        exact ⟨rfl, hne, fun hex => absurd hex.2 (by simpa using hfirst), hcall⟩
      · rintro ⟨rfl, hne, hnot, hcall⟩
        refine ⟨es, e, ⟨rfl, rfl, hne, hrun, fun f hf' hnames => ?_⟩, hbehind, hcall⟩
        exact hnot ((h.mentioned run).2 ⟨hne, f, hf', hnames⟩)
    simp only [hpre', mentionsRun_concat, or_and_right, exists_or, hnew, ← h.launched hf]
    rw [hlaunched]
    simp only [hpre']
    split
    · next hcond => simp [hcond]
    · next hcond =>
      simp only [iff_self_or]
      exact fun hcond' => absurd hcond'.2 hcond

end RewindScan.Scanned

/-- What the scan holds behind a whole log. -/
theorem RewindScan.scanned (promptID session : String) (es : List Entry) :
    Scanned promptID es (es.foldl (visit promptID session) {}) := by
  induction es using List.reverseRecOn with
  | nil =>
    constructor
    · rfl
    · simp
    · simp [beforeCut]
    · exact List.nodup_nil
    · exact fun run hmem => absurd hmem List.not_mem_nil
    · exact fun hfound => absurd hfound Bool.false_ne_true
  | append_singleton es e ih =>
    rw [List.foldl_append, List.foldl_cons, List.foldl_nil]
    generalize es.foldl (visit promptID session) {} = sc at ih
    rw [visit]
    split
    · next p hp =>
      have hrun : workflowOf e = none := by rw [workflowOf, hp]
      rw [visitOpen]
      split
      · next hopens =>
        by_cases hfound : sc.found = true
        · simp only [if_pos hfound]
          exact ih.skip hrun (fun _ => hfound) rfl rfl rfl rfl rfl
        · simp only [if_neg hfound]
          exact ih.cut hopens hrun (Bool.eq_false_iff.2 hfound) _
      · next hopens =>
        exact ih.skip hrun (fun ho => absurd ho hopens) rfl rfl rfl rfl rfl
    · next p hp =>
      have hrun : workflowOf e = none := by rw [workflowOf, hp]
      have hopens : ¬ OpensPrompt promptID e := by simp [OpensPrompt, promptOf, hp]
      rw [visitBind]
      split <;> exact ih.skip hrun (fun ho => absurd ho hopens) rfl rfl rfl rfl rfl
    · next p hp =>
      have hrun : workflowOf e = some p.workflowID := by rw [workflowOf, hp]
      exact ih.tool hrun (by simp [OpensPrompt, promptOf, hp])
    · next p hp =>
      have hrun : workflowOf e = some p.workflowID := by rw [workflowOf, hp]
      exact ih.tool hrun (by simp [OpensPrompt, promptOf, hp])
    · next hopen _ hcall hresult =>
      have hrun : workflowOf e = none := by
        rw [workflowOf]
        split
        · next p hp => exact absurd hp (hcall p)
        · next p hp => exact absurd hp (hresult p)
        · rfl
      have hopens : ¬ OpensPrompt promptID e := by
        rw [OpensPrompt, promptOf]
        split
        · next p hp => exact absurd hp (hopen p)
        · simp
      exact ih.skip hrun (fun ho => absurd ho hopens) rfl rfl rfl rfl rfl

/-! ## What the scan lists -/

theorem not_opensPrompt (h : workflowOf e = some run) : ¬ OpensPrompt promptID e := by
  rw [workflowOf] at h
  rw [OpensPrompt, promptOf]
  split
  · next p hp => simp [hp] at h
  · simp

theorem answeredCall_mem (before : List Entry) (m : Entry) :
    answeredCall before m ∈ before ++ [m] := by
  rw [answeredCall]
  cases hfind : before.find?
      (fun e => (workflowOf e).isSome ∧ e.id = toolCallIDOfResult m.id) with
  | none => exact List.mem_append_right _ List.mem_cons_self
  | some e => exact List.mem_append_left _ (List.mem_of_find?_eq_some hfind)

/-- A launch stands behind the cut where its mention does and no tool entry before the cut has the
id of its call. -/
theorem answeredCall_notMem_beforeCut (h : MentionsRun es run before m) :
    answeredCall before m ∉ beforeCut promptID es ↔ (∃ e ∈ before, OpensPrompt promptID e) ∧
      ∀ e ∈ beforeCut promptID es, (workflowOf e).isSome → e.id ≠ toolCallIDOfResult m.id := by
  obtain ⟨rest, rfl⟩ := h.isPrefix
  by_cases hex : ∃ e ∈ before, OpensPrompt promptID e
  · have hcut : beforeCut promptID (before ++ [m] ++ rest) = beforeCut promptID before := by
      rw [List.append_assoc, beforeCut_append hex]
    rw [hcut, and_iff_right hex, answeredCall]
    have hstart : beforeCut promptID before <+: before := List.takeWhile_prefix _
    generalize beforeCut promptID before = start at hstart ⊢
    obtain ⟨behind, rfl⟩ := hstart
    rw [List.find?_append]
    constructor
    · intro hnot e he htool hid
      have hsome : (start.find?
          (fun e => (workflowOf e).isSome ∧ e.id = toolCallIDOfResult m.id)).isSome := by
        rw [List.find?_isSome]
        exact ⟨e, he, decide_eq_true ⟨htool, hid⟩⟩
      obtain ⟨x, hx⟩ := Option.isSome_iff_exists.1 hsome
      rw [hx] at hnot
      exact hnot (List.mem_of_find?_eq_some hx)
    · intro hno
      have hnone : start.find?
          (fun e => (workflowOf e).isSome ∧ e.id = toolCallIDOfResult m.id) = none := by
        rw [List.find?_eq_none]
        intro e he hmatch
        have hmatch' := of_decide_eq_true hmatch
        exact hno e he hmatch'.1 hmatch'.2
      rw [hnone, Option.none_or]
      cases hfind : behind.find?
          (fun e => (workflowOf e).isSome ∧ e.id = toolCallIDOfResult m.id) with
      | none =>
        intro hmem
        exact h.first m (List.mem_append_left _ hmem) h.names
      | some x =>
        intro hmem
        have hmatch := List.find?_some hfind
        have hmatch' := of_decide_eq_true hmatch
        exact hno x hmem hmatch'.1 hmatch'.2
  · have hmem : answeredCall before m ∈ beforeCut promptID (before ++ [m] ++ rest) := by
      have hall : ∀ e ∈ before ++ [m], decide (¬ OpensPrompt promptID e) = true := by
        intro e he
        rcases List.mem_append.1 he with he | he
        · exact decide_eq_true fun ho => hex ⟨e, he, ho⟩
        · rw [List.mem_singleton.1 he]
          exact decide_eq_true (not_opensPrompt h.names)
      rw [beforeCut, List.takeWhile_append_of_pos hall]
      exact List.mem_append_left _ (answeredCall_mem before m)
    exact ⟨fun hnot => absurd hmem hnot, fun hboth => absurd hboth.1 hex⟩

theorem launchesRun_mem {launch : Entry} (h : LaunchesRun es run launch) : launch ∈ es := by
  obtain ⟨before, m, hm, rfl⟩ := h
  exact hm.isPrefix.subset (answeredCall_mem before m)

theorem launchesRun_names {launch : Entry} (h : LaunchesRun es run launch) :
    (workflowOf launch).isSome := by
  obtain ⟨before, m, hm, rfl⟩ := h
  rw [answeredCall]
  cases hfind : before.find?
      (fun e => (workflowOf e).isSome ∧ e.id = toolCallIDOfResult m.id) with
  | none => exact Option.isSome_of_mem hm.names
  | some e =>
    have hmatch := List.find?_some hfind
    exact (of_decide_eq_true hmatch).1

/-- A rewind's target, when a turn_open carries the prompt. -/
theorem rewindTargetIn_eq (promptID session : String) (es : List Entry) :
    (rewindTargetIn es promptID session).map RewindTarget.turn =
        (es.find? (fun e => OpensPrompt promptID e)).map Entry.turn ∧
      ∀ target, rewindTargetIn es promptID session = some target →
        target.launchedRuns.Nodup ∧ ∀ run, run ∈ target.launchedRuns ↔
          ∃ launch, LaunchesRun es run launch ∧ launch ∉ beforeCut promptID es := by
  have h := RewindScan.scanned promptID session es
  rw [rewindTargetIn]
  generalize es.foldl (RewindScan.visit promptID session) {} = sc at h
  refine ⟨?_, fun target htarget => ?_⟩
  · rw [h.turn]
    split <;> rfl
  · split at htarget
    · next hfound =>
      cases htarget
      refine ⟨h.nodup, fun run => ?_⟩
      rw [h.launched hfound]
      have hcall : ∀ m : Entry, toolCallIDOfResult m.id ∉ sc.preCutTools ↔
          ∀ e ∈ beforeCut promptID es, (workflowOf e).isSome →
            e.id ≠ toolCallIDOfResult m.id := by
        intro m
        rw [h.preCut]
        simp
      constructor
      · rintro ⟨before, m, hm, hex, hno⟩
        exact ⟨_, ⟨before, m, hm, rfl⟩, (answeredCall_notMem_beforeCut hm).2 ⟨hex, (hcall m).1 hno⟩⟩
      · rintro ⟨launch, ⟨before, m, hm, rfl⟩, hnot⟩
        obtain ⟨hex, hno⟩ := (answeredCall_notMem_beforeCut hm).1 hnot
        exact ⟨before, m, hm, hex, (hcall m).2 hno⟩
    · contradiction

end Marotte
