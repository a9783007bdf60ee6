import Marotte.Entry.Output

/-! # A second bound

A rewrite hands bounded entries back to the bound. Their diffs and their input are within the
budget, so that only a cut output is bounded again.
-/
namespace Marotte
open Json

variable {b : ToolBudget}

/-! ## Diffs -/

theorem boundDiffs_again {spent : ℕ} {diffs kept : List ToolDiff}
    (h : boundDiffs b spent diffs = some kept) : boundDiffs b spent kept = none := by
  induction diffs generalizing spent kept with
  | nil => cases h
  | cons d ds ih =>
    rw [boundDiffs] at h
    split at h
    · obtain rfl := Option.some.inj h
      rfl
    · next hfits =>
      obtain ⟨rest, hrest, rfl⟩ := Option.map_eq_some_iff.mp h
      rw [boundDiffs, if_neg hfits, ih hrest]
      rfl

/-! ## The input -/

theorem mem_inputMap {ms : List (String × Json)} {m : String × Json} (h : m ∈ inputMap ms) :
    m ∈ ms := by
  induction ms with
  | nil => exact h
  | cons n ms ih =>
    obtain ⟨k, v⟩ := n
    rw [inputMap] at h
    split at h
    · exact List.mem_cons_of_mem _ (ih h)
    · rcases List.mem_cons.mp h with rfl | h
      · exact List.mem_cons_self
      · exact List.mem_cons_of_mem _ (ih h)

theorem nodup_inputMap (ms : List (String × Json)) : ((inputMap ms).map Prod.fst).Nodup := by
  induction ms with
  | nil => exact List.nodup_nil
  | cons n ms ih =>
    obtain ⟨k, v⟩ := n
    rw [inputMap]
    split
    · exact ih
    · next hany =>
      rw [List.map_cons, List.nodup_cons]
      refine ⟨fun hmem => hany ?_, ih⟩
      obtain ⟨m, hm, hk⟩ := List.mem_map.mp hmem
      exact List.any_eq_true.mpr ⟨m, mem_inputMap hm, decide_eq_true hk⟩

theorem inputMap_of_nodup {ms : List (String × Json)} (h : (ms.map Prod.fst).Nodup) :
    inputMap ms = ms := by
  induction ms with
  | nil => rfl
  | cons n ms ih =>
    obtain ⟨k, v⟩ := n
    rw [List.map_cons, List.nodup_cons] at h
    rw [inputMap, if_neg, ih h.2]
    intro hany
    obtain ⟨m, hm, hk⟩ := List.any_eq_true.mp hany
    exact h.1 (List.mem_map.mpr ⟨m, hm, of_decide_eq_true hk⟩)

/-- The members that a trim leaves fit the total, and the trim drops members only. -/
theorem trimInputToTotal_spec {keys kept : List (String × Json)} (hb : 0 < b.inputTotal)
    (hperm : kept.Perm keys) (hnodup : (kept.map Prod.fst).Nodup) :
    let trimmed := trimInputToTotal b (1 + (kept.map inputMemberBytes).sum) keys kept
    trimmed.Sublist kept ∧ 1 + (trimmed.map inputMemberBytes).sum ≤ b.inputTotal := by
  induction keys generalizing kept with
  | nil =>
    obtain rfl := hperm.eq_nil
    exact ⟨.refl _, hb⟩
  | cons m keys ih =>
    rw [trimInputToTotal]
    split
    · next hfits => exact ⟨.refl _, hfits⟩
    · have hkeys : (m :: keys).filter (fun n => decide (n.1 ≠ m.1)) = keys := by
        have hnodup' := (hperm.map Prod.fst).nodup_iff.mp hnodup
        rw [List.map_cons, List.nodup_cons] at hnodup'
        rw [List.filter_cons_of_neg (by simp)]
        apply List.filter_eq_self.mpr
        intro n hn
        exact decide_eq_true fun heq => hnodup'.1 (heq ▸ List.mem_map_of_mem hn)
      have hkept : (kept.filter (·.1 ≠ m.1)).Perm keys := hkeys ▸ hperm.filter _
      have hsum : 1 + (kept.map inputMemberBytes).sum - inputMemberBytes m =
          1 + ((kept.filter (·.1 ≠ m.1)).map inputMemberBytes).sum := by
        rw [(hperm.map inputMemberBytes).sum_nat, (hkept.map inputMemberBytes).sum_nat,
          List.map_cons, List.sum_cons]
        omega
      rw [hsum]
      obtain ⟨hsub, htotal⟩ := ih hkept (hnodup.sublist (List.filter_sublist.map _))
      exact ⟨hsub.trans List.filter_sublist, htotal⟩

/-- What a bound leaves of an object goes through whole. -/
theorem boundMembers_again {members : List (String × Json)} {out : Json} (hb : 0 < b.inputTotal)
    (h : (
      let all := inputMap members
      let kept := all.filter (fun m => m.2.wireBytes ≤ b.inputMember)
      let spent := 1 + (kept.map inputMemberBytes).sum
      let keys := kept.mergeSort (fun x y =>
        inputMemberBytes y < inputMemberBytes x ∨
          (inputMemberBytes x = inputMemberBytes y ∧ x.1 ≤ y.1))
      let trimmed := trimInputToTotal b spent keys kept
      if kept.length = all.length ∧ spent ≤ b.inputTotal then none
      else some (Json.obj (trimmed.mergeSort (fun x y => x.1 ≤ y.1)))) = some out) :
    boundInput (some out) b = none := by
  simp only at h
  generalize hkept : (inputMap members).filter (fun m => m.2.wireBytes ≤ b.inputMember) = kept at h
  generalize hkeys : kept.mergeSort (fun x y =>
    inputMemberBytes y < inputMemberBytes x ∨
      (inputMemberBytes x = inputMemberBytes y ∧ x.1 ≤ y.1)) = keys at h
  have hnodup : (kept.map Prod.fst).Nodup := by
    rw [← hkept]
    exact (nodup_inputMap members).sublist (List.filter_sublist.map _)
  have hperm : kept.Perm keys := hkeys ▸ (List.mergeSort_perm kept _).symm
  obtain ⟨hsub, htotal⟩ := trimInputToTotal_spec hb hperm hnodup
  split at h
  · cases h
  · obtain rfl := Option.some.inj h
    generalize trimInputToTotal b (1 + (kept.map inputMemberBytes).sum) keys kept = trimmed at hsub htotal
    have hsorted := List.mergeSort_perm trimmed (fun x y => x.1 ≤ y.1)
    have hall : inputMap (trimmed.mergeSort fun x y => x.1 ≤ y.1) =
        trimmed.mergeSort fun x y => x.1 ≤ y.1 :=
      inputMap_of_nodup ((hsorted.map Prod.fst).nodup_iff.mpr (hnodup.sublist (hsub.map _)))
    have hfits : (trimmed.mergeSort fun x y => x.1 ≤ y.1).filter
        (fun m => m.2.wireBytes ≤ b.inputMember) = trimmed.mergeSort fun x y => x.1 ≤ y.1 := by
      apply List.filter_eq_self.mpr
      intro m hm
      have hmem := hsub.subset (hsorted.subset hm)
      rw [← hkept] at hmem
      exact (List.mem_filter.mp hmem).2
    rw [boundInput]
    split
    · rfl
    · simp only [hall, hfits]
      rw [if_pos]
      rw [(hsorted.map inputMemberBytes).sum_nat]
      exact ⟨trivial, htotal⟩

/-- A bounded input is within the budget. -/
theorem boundInput_again {input : Option Json} {out : Json} (hmember : 4 ≤ b.inputMember)
    (hb : 0 < b.inputTotal) (h : boundInput input b = some out) : boundInput (some out) b = none := by
  have hnull : boundInput (some .null) b = none := if_pos hmember
  cases input with
  | none => cases h
  | some raw =>
    by_cases hobj : ∃ members, raw = .obj members
    · obtain ⟨members, rfl⟩ := hobj
      rw [boundInput] at h
      split at h
      · cases h
      · exact boundMembers_again hb h
    · rw [boundInput] at h
      · split at h
        · cases h
        · obtain rfl := Option.some.inj h
          exact hnull
      · exact fun members heq => hobj ⟨members, heq⟩

/-! ## The bounded fields -/

/-- The fields that a bound reads and writes. -/
structure ToolBulk where
  output : String
  outputSpans : List TextSpan
  diffs : List ToolDiff
  input : Option Json
  truncated : Option ToolTruncation
  deriving DecidableEq

namespace ToolBulk

variable (k : ToolBulk)

def cut (b : ToolBudget) : ToolTruncation where
  outputBytes := if (boundOutput k.output b).isSome then k.output.utf8ByteSize else 0
  inputBytes := if (boundInput k.input b).isSome then (k.input.map Json.wireBytes).getD 0 else 0
  diffBytes := if (boundDiffs b 0 k.diffs).isSome then diffsBytes k.diffs else 0
  diffCount := if (boundDiffs b 0 k.diffs).isSome then k.diffs.length else 0

def bound (b : ToolBudget) : ToolBulk where
  output := (boundOutput k.output b).getD k.output
  outputSpans := if (boundOutput k.output b).isSome then [] else k.outputSpans
  diffs := (boundDiffs b 0 k.diffs).getD k.diffs
  input := (boundInput k.input b).or k.input
  truncated := k.truncated

/-- What the record keeps. -/
def persist : ToolBulk :=
  if k.cut persistBudget = {} then k
  else { k.bound persistBudget with truncated := some (mergeTruncation k.truncated (k.cut persistBudget)) }

end ToolBulk

def EntryToolCall.bulk (call : EntryToolCall) : ToolBulk where
  output := call.output
  outputSpans := call.outputSpans
  diffs := call.diffs
  input := call.input
  truncated := call.truncated

def EntryToolCall.withBulk (call : EntryToolCall) (k : ToolBulk) : EntryToolCall :=
  { call with
    output := k.output
    outputSpans := k.outputSpans
    diffs := k.diffs
    input := k.input
    truncated := k.truncated }

/-- A settled payload carries no input. -/
def EntryToolResult.bulk (res : EntryToolResult) : ToolBulk where
  output := res.output
  outputSpans := res.outputSpans
  diffs := res.diffs
  input := none
  truncated := res.truncated

def EntryToolResult.withBulk (res : EntryToolResult) (k : ToolBulk) : EntryToolResult :=
  { res with
    output := k.output
    outputSpans := k.outputSpans
    diffs := k.diffs
    truncated := k.truncated }

theorem boundToolCall_eq (call : EntryToolCall) (b : ToolBudget) :
    boundToolCall call b = (call.withBulk (call.bulk.bound b), call.bulk.cut b) := by
  obtain ⟨output, houtput⟩ : ∃ output, boundOutput call.output b = output := ⟨_, rfl⟩
  obtain ⟨diffs, hdiffs⟩ : ∃ diffs, boundDiffs b 0 call.diffs = diffs := ⟨_, rfl⟩
  obtain ⟨input, hinput⟩ : ∃ input, boundInput call.input b = input := ⟨_, rfl⟩
  simp only [boundToolCall, EntryToolCall.withBulk, EntryToolCall.bulk, ToolBulk.bound,
    ToolBulk.cut, houtput, hdiffs, hinput]
  cases output <;> cases diffs <;> cases input <;> rfl

theorem boundToolResult_eq (res : EntryToolResult) (b : ToolBudget) :
    boundToolResult res b = (res.withBulk (res.bulk.bound b), res.bulk.cut b) := by
  obtain ⟨output, houtput⟩ : ∃ output, boundOutput res.output b = output := ⟨_, rfl⟩
  obtain ⟨diffs, hdiffs⟩ : ∃ diffs, boundDiffs b 0 res.diffs = diffs := ⟨_, rfl⟩
  simp only [boundToolResult, EntryToolResult.withBulk, EntryToolResult.bulk, ToolBulk.bound,
    ToolBulk.cut, houtput, hdiffs]
  cases output <;> cases diffs <;> rfl

theorem persistBoundPayload_toolCall (call : EntryToolCall) :
    persistBoundPayload (.toolCall call) = .toolCall (call.withBulk call.bulk.persist) := by
  rw [persistBoundPayload, boundToolCall_eq, ToolBulk.persist]
  simp only
  split
  · rfl
  · rfl

theorem persistBoundPayload_toolResult (res : EntryToolResult) :
    persistBoundPayload (.toolResult res) = .toolResult (res.withBulk res.bulk.persist) := by
  rw [persistBoundPayload, boundToolResult_eq, ToolBulk.persist]
  simp only
  split
  · rfl
  · rfl

/-! ## The second pass -/

namespace ToolBulk

variable {k : ToolBulk}

theorem cut_eq_zero : k.cut b = {} ↔
    boundOutput k.output b = none ∧ boundDiffs b 0 k.diffs = none ∧ boundInput k.input b = none := by
  constructor
  · intro h
    have hbytes := congrArg ToolTruncation.outputBytes h
    have hcount := congrArg ToolTruncation.diffCount h
    have hinput := congrArg ToolTruncation.inputBytes h
    simp only [cut, ite_eq_right_iff] at hbytes hcount hinput
    refine ⟨?_, ?_, ?_⟩
    · by_contra hsome
      have hzero := hbytes (Option.isSome_iff_ne_none.mpr hsome)
      rw [boundOutput_eq_none, ← utf8ByteSize_eq, hzero] at hsome
      exact hsome (Nat.zero_le _)
    · by_contra hsome
      have hzero := hcount (Option.isSome_iff_ne_none.mpr hsome)
      rw [List.length_eq_zero_iff.mp hzero] at hsome
      exact hsome rfl
    · by_contra hsome
      have hzero := hinput (Option.isSome_iff_ne_none.mpr hsome)
      cases hk : k.input with
      | none =>
        rw [hk] at hsome
        exact hsome rfl
      | some raw =>
        rw [hk, Option.map_some, Option.getD_some] at hzero
        rw [hk] at hsome
        apply hsome
        cases raw with
        | obj members => rw [boundInput, if_pos (by omega)]
        | _ => exact if_pos (by rw [hzero]; exact Nat.zero_le _)
  · rintro ⟨houtput, hdiffs, hinput⟩
    simp only [cut, houtput, hdiffs, hinput]
    rfl

theorem persist_output (k : ToolBulk) :
    k.persist.output = (boundOutput k.output persistBudget).getD k.output := by
  rw [persist]
  split
  · next h => rw [(cut_eq_zero.mp h).1, Option.getD_none]
  · rfl

theorem persist_diffs (k : ToolBulk) : boundDiffs persistBudget 0 k.persist.diffs = none := by
  rw [persist]
  split
  · next h => exact (cut_eq_zero.mp h).2.1
  · cases hdiffs : boundDiffs persistBudget 0 k.diffs with
    | none => simp only [bound, hdiffs, Option.getD_none]
    | some kept => simp only [bound, hdiffs, Option.getD_some, boundDiffs_again hdiffs]

theorem persist_input (k : ToolBulk) : boundInput k.persist.input persistBudget = none := by
  rw [persist]
  split
  · next h => exact (cut_eq_zero.mp h).2.2
  · cases hinput : boundInput k.input persistBudget with
    | none => simp only [bound, hinput, Option.none_or]
    | some out =>
      simp only [bound, hinput, Option.some_or]
      exact boundInput_again (by decide) (by decide) hinput

/-- What the bound of an output leaves beside it: no spans, and a note of its size. -/
theorem persist_noted {t : String} (h : boundOutput k.output persistBudget = some t) :
    k.persist.outputSpans = [] ∧
      ∃ tr, k.persist.truncated = some tr ∧ k.output.utf8ByteSize ≤ tr.outputBytes := by
  have hcut : k.cut persistBudget ≠ {} := by
    intro hzero
    rw [(cut_eq_zero.mp hzero).1] at h
    cases h
  have hbytes : (k.cut persistBudget).outputBytes = k.output.utf8ByteSize := by
    simp only [cut, h]
    rfl
  rw [persist, if_neg hcut]
  refine ⟨by simp only [bound, h]; rfl, _, rfl, ?_⟩
  rw [← hbytes]
  cases k.truncated with
  | none => exact le_rfl
  | some prior => exact le_max_right _ _

/-- A second pass cuts the output alone. -/
theorem persist_cut (k : ToolBulk) : k.persist.cut persistBudget =
    { outputBytes :=
        if (boundOutput k.persist.output persistBudget).isSome then k.persist.output.utf8ByteSize
        else 0 } := by
  simp only [cut, persist_diffs, persist_input]
  rfl

theorem persist_again (k : ToolBulk) :
    (k.persist.persist = k.persist ↔ ¬ Relines persistBudget k.output) ∧
      (k.persist.cut persistBudget = {} ↔ ¬ Brims persistBudget k.output) := by
  have heven : persistBudget.outputBytes / 2 * 2 = persistBudget.outputBytes := by decide
  have hlines : 0 < persistBudget.outputLines := by decide
  by_cases hbrims : Brims persistBudget k.output
  · obtain ⟨t, ht⟩ : ∃ t, boundOutput k.output persistBudget = some t := by
      apply Option.ne_none_iff_exists'.mp
      rw [Ne, boundOutput_eq_none, Nat.not_le]
      exact (hbrims.cuts heven).1.trans_le (utf8Len_windowOf_le hlines _)
    have houtput : k.persist.output = t := by rw [persist_output, ht, Option.getD_some]
    by_cases hrelines : Relines persistBudget k.output
    · obtain ⟨t', ht', hne⟩ := hrelines.again hlines heven ht
      have hcut : k.persist.cut persistBudget ≠ {} := by
        intro hzero
        rw [cut_eq_zero, houtput, ht'] at hzero
        cases hzero.1
      refine ⟨iff_of_false ?_ (not_not_intro hrelines), iff_of_false hcut (not_not_intro hbrims)⟩
      intro hsame
      have hsame := congrArg ToolBulk.output hsame
      rw [persist_output k.persist, houtput, ht', Option.getD_some] at hsame
      exact hne hsame
    · have hagain := hbrims.again hlines heven ht hrelines
      have hcut : k.persist.cut persistBudget ≠ {} := by
        intro hzero
        rw [cut_eq_zero, houtput, hagain] at hzero
        cases hzero.1
      refine ⟨iff_of_true ?_ hrelines, iff_of_false hcut (not_not_intro hbrims)⟩
      obtain ⟨hspans, tr, htr, hbytes⟩ := persist_noted ht
      have hsize : t.utf8ByteSize ≤ tr.outputBytes := by
        have hover := (hbrims.cuts heven).1.trans_le (utf8Len_windowOf_le hlines k.output.toList)
        rw [utf8ByteSize_eq, (hbrims.bounded heven ht).2]
        rw [utf8ByteSize_eq] at hbytes
        omega
      have hmerge : mergeTruncation k.persist.truncated (k.persist.cut persistBudget) = tr := by
        rw [persist_cut, houtput, hagain, htr]
        simp only [mergeTruncation, Option.isSome_some, if_true, Nat.max_zero, max_eq_left hsize]
      have hbound : k.persist.bound persistBudget = k.persist := by
        simp only [bound, persist_diffs, persist_input, houtput, hagain, Option.getD_none,
          Option.getD_some, Option.none_or, Option.isSome_some, if_true]
        rw [← houtput, ← hspans]
      conv_lhs => rw [persist.eq_def k.persist, if_neg hcut, hmerge, hbound, ← htr]
  · have hnone : boundOutput k.persist.output persistBudget = none := by
      rw [persist_output]
      cases ht : boundOutput k.output persistBudget with
      | none => exact ht
      | some t => exact boundOutput_again heven ht hbrims
    have hcut : k.persist.cut persistBudget = {} :=
      cut_eq_zero.mpr ⟨hnone, k.persist_diffs, k.persist_input⟩
    refine ⟨iff_of_true ?_ fun h => hbrims h.brims, iff_of_true hcut hbrims⟩
    exact if_pos hcut

end ToolBulk

/-! ## Entries -/

/-- What a pass of the bound reports to have cut. -/
def Payload.persistCut : Payload → ToolTruncation
  | .toolCall call => (boundToolCall call persistBudget).2
  | .toolResult res => (boundToolResult res persistBudget).2
  | _ => {}

/-- The words of a tool call's or a tool result's output. -/
def Payload.toolOutput : Payload → String
  | .toolCall call => call.output
  | .toolResult res => res.output
  | _ => ""

theorem withBulk_toolCall (call : EntryToolCall) (k k' : ToolBulk) :
    (call.withBulk k).withBulk k' = call.withBulk k ↔ k' = k := by
  constructor
  · exact fun heq => congrArg EntryToolCall.bulk heq
  · rintro rfl
    rfl

theorem withBulk_toolResult (res : EntryToolResult) {k k' : ToolBulk} (h : k.input = none)
    (h' : k'.input = none) : (res.withBulk k).withBulk k' = res.withBulk k ↔ k' = k := by
  obtain ⟨output, outputSpans, diffs, input, truncated⟩ := k
  obtain ⟨output', outputSpans', diffs', input', truncated'⟩ := k'
  subst h h'
  constructor
  · exact fun heq => congrArg EntryToolResult.bulk heq
  · intro heq
    rw [heq]
    rfl

theorem persist_input_none {k : ToolBulk} (h : k.input = none) : k.persist.input = none := by
  rw [ToolBulk.persist]
  split
  · exact h
  · simp only [ToolBulk.bound, h]
    rfl

theorem bulk_withBulk {res : EntryToolResult} {k : ToolBulk} (h : k.input = none) :
    (res.withBulk k).bulk = k := by
  obtain ⟨output, outputSpans, diffs, input, truncated⟩ := k
  subst h
  rfl

theorem not_brims_empty : ¬ Brims persistBudget "" := by
  rintro ⟨front, mid, back, hwindow, hmid, -⟩
  have hnil : windowOf persistBudget "".toList = [] := windowOf_of_le (by decide)
  rw [hnil] at hwindow
  have hlen := congrArg List.length hwindow
  simp only [List.length_nil, List.length_append] at hlen
  exact hmid (List.length_eq_zero_iff.mp (by omega))

theorem persistBoundPayload_again (p : Payload) :
    (persistBoundPayload (persistBoundPayload p) = persistBoundPayload p ↔
        ¬ Relines persistBudget p.toolOutput) ∧
      ((persistBoundPayload p).persistCut = {} ↔ ¬ Brims persistBudget p.toolOutput) := by
  cases p with
  | toolCall call =>
    obtain ⟨hsame, hcut⟩ := call.bulk.persist_again
    rw [persistBoundPayload_toolCall, persistBoundPayload_toolCall, Payload.toolCall.injEq,
      Payload.persistCut, boundToolCall_eq]
    exact ⟨(withBulk_toolCall call _ _).trans hsame, hcut⟩
  | toolResult res =>
    obtain ⟨hsame, hcut⟩ := res.bulk.persist_again
    have hinput : res.bulk.persist.input = none := persist_input_none rfl
    rw [persistBoundPayload_toolResult, persistBoundPayload_toolResult, Payload.toolResult.injEq,
      Payload.persistCut, boundToolResult_eq, bulk_withBulk hinput]
    exact ⟨(withBulk_toolResult res hinput (persist_input_none hinput)).trans hsame, hcut⟩
  | _ =>
    exact ⟨iff_of_true rfl fun h => not_brims_empty h.brims, iff_of_true rfl not_brims_empty⟩

/-- For every entry, a second pass writes the same entry unless the output's window has 160 lines
whose newlines all lie in the 8192 bytes at its two ends, and it reports no cut unless the window has
rune boundaries there and a text between them. -/
theorem persistBoundEntry_again (e : Entry) :
    (persistBoundEntry (persistBoundEntry e) = persistBoundEntry e ↔
        ¬ Relines persistBudget e.payload.toolOutput) ∧
      ((persistBoundEntry e).payload.persistCut = {} ↔
        ¬ Brims persistBudget e.payload.toolOutput) := by
  obtain ⟨hsame, hcut⟩ := persistBoundPayload_again e.payload
  refine ⟨Iff.trans ?_ hsame, hcut⟩
  constructor
  · exact fun h => congrArg Entry.payload h
  · intro h
    rw [persistBoundEntry, persistBoundEntry, h]

/-- An output of 160 lines and 16385 bytes, all of whose newlines lie at its two ends. -/
def fullHalves : List Char :=
  List.replicate 79 '\n' ++ List.replicate 8113 'a' ++ ['m'] ++
    (List.replicate 8112 'a' ++ List.replicate 80 '\n')

theorem relines_fullHalves : Relines persistBudget (String.ofList fullHalves) := by
  have hcount : fullHalves.count '\n' = 159 := by
    simp only [fullHalves, List.count_append, List.count_replicate, List.count_singleton]
    rfl
  have hwindow : windowOf persistBudget (String.ofList fullHalves).toList = fullHalves := by
    rw [String.toList_ofList]
    exact windowOf_of_le (by rw [hcount]; decide)
  refine ⟨_, _, _, hwindow.trans rfl, List.cons_ne_nil _ _, ?_, ?_, by decide, ?_⟩
  · rw [utf8Len_append, utf8Len_replicate, utf8Len_replicate]
    rfl
  · rw [utf8Len_append, utf8Len_replicate, utf8Len_replicate]
    rfl
  · rw [hwindow, hcount]
    rfl

theorem Relines.lost {s : String} (h : Relines persistBudget s) (id turn : String) :
    let e : Entry := { id, turn, payload := .toolResult { output := s } }
    persistBoundEntry (persistBoundEntry e) ≠ persistBoundEntry e ∧
      (persistBoundEntry e).payload.persistCut ≠ {} := by
  intro e
  obtain ⟨hsame, hcut⟩ := persistBoundPayload_again e.payload
  exact ⟨fun heq => hsame.mp (congrArg Entry.payload heq) h, fun hzero => hcut.mp hzero h.brims⟩

theorem fullHalves_lose :
    let e : Entry :=
      { id := "e", turn := "t", payload := .toolResult { output := String.ofList fullHalves } }
    persistBoundEntry (persistBoundEntry e) ≠ persistBoundEntry e ∧
      (persistBoundEntry e).payload.persistCut ≠ {} :=
  relines_fullHalves.lost "e" "t"

end Marotte
