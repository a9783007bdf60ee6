import Marotte.Buffer.Lines
import Marotte.Library.Recent

/-! # The eviction index is exact

The maps and the heap of a chat hold the same files, every entry knows its place, and the file a
record evicts has the smallest last turn.
-/
namespace Marotte.Buffer

open BinaryHeap ChatLineState

variable {s s₀ : ChatLineState} {path : Text} {e i j : ℕ} {turn : ℤ} {r : LineRange}

/-! ## Entries and places -/

/-- The entry map and the heap hold the same entries, and every entry knows its place. -/
structure Linked (s : ChatLineState) : Prop where
  heap : ∀ path e, s.entries path = some e ↔ e ∈ s.h ∧ (s.entry e).path = path
  index : ∀ (k e : ℕ), s.h[k]? = some e → (s.entry e).index = k
  made : ∀ e ∈ s.h, e < s.made

/-- What an exchange leaves as it is. -/
structure Same (s₀ s : ChatLineState) : Prop where
  ranges : s.ranges = s₀.ranges
  entries : s.entries = s₀.entries
  made : s.made = s₀.made
  path : ∀ e, (s.entry e).path = (s₀.entry e).path
  turn : ∀ e, (s.entry e).lastTurn = (s₀.entry e).lastTurn
  mem : ∀ e, e ∈ s.h ↔ e ∈ s₀.h
  length : s.h.length = s₀.h.length

namespace Linked

theorem nodup (h : Linked s) : s.h.Nodup := by
  rw [List.nodup_iff_getElem?_ne_getElem?]
  intro i j hij hj heq
  have hi : i < s.h.length := hij.trans hj
  have hindex := h.index i _ (List.getElem?_eq_getElem hi)
  rw [List.getElem?_eq_getElem hi] at heq
  have := (h.index j _ heq.symm).symm.trans hindex
  omega

/-- No two entries in the heap are of one path. -/
theorem path_inj (h : Linked s) {e e' : ℕ} (he : e ∈ s.h) (he' : e' ∈ s.h)
    (hpath : (s.entry e).path = (s.entry e').path) : e = e' :=
  Option.some.inj (((h.heap _ e).2 ⟨he, hpath⟩).symm.trans ((h.heap _ e').2 ⟨he', rfl⟩))

theorem nodup_paths (h : Linked s) : (s.h.map fun e => (s.entry e).path).Nodup :=
  (List.nodup_map_iff_inj_on h.nodup).2 fun _ he _ he' hpath => h.path_inj he he' hpath

end Linked

theorem getElem?_get {k : ℕ} (hk : k < s.h.length) : s.h[k]? = some (s.get k) := by
  rw [ChatLineState.get, List.getD_eq_getElem _ _ hk, List.getElem?_eq_getElem hk]

theorem get_mem {k : ℕ} (hk : k < s.h.length) : s.get k ∈ s.h :=
  List.mem_of_getElem? (getElem?_get hk)

theorem Same.refl (s : ChatLineState) : Same s s :=
  ⟨rfl, rfl, rfl, fun _ => rfl, fun _ => rfl, fun _ => Iff.rfl, rfl⟩

theorem mem_swap (hi : i < s.h.length) (hj : j < s.h.length) (e : ℕ) :
    e ∈ (s.swap i j).h ↔ e ∈ s.h := by
  simp only [List.mem_iff_getElem?, getElem?_swap s hi hj]
  exact (Equiv.swap i j).exists_congr_left.trans (by simp)

theorem Same.swap (h : Same s₀ s) (hi : i < s.h.length) (hj : j < s.h.length) :
    Same s₀ (s.swap i j) where
  ranges := h.ranges
  entries := h.entries
  made := h.made
  path e := by
    rw [ChatLineState.swap, path_setIndex, path_setIndex]
    exact h.path e
  turn e := by
    rw [ChatLineState.swap, lastTurn_setIndex, lastTurn_setIndex]
    exact h.turn e
  mem e := (mem_swap hi hj e).trans (h.mem e)
  length := by
    rw [← h.length]
    exact fileHeap.len_swap s i j

theorem index_setIndex (s : ChatLineState) (e : ℕ) (index : ℤ) (e' : ℕ) :
    ((s.setIndex e index).entry e').index = if e' = e then index else (s.entry e').index := by
  by_cases he : e' = e
  · subst he
    simp [setIndex]
  · simp [setIndex, he]

/-- An exchange keeps every entry at the place it knows. -/
theorem Linked.swap (h : Linked s) (hi : i < s.h.length) (hj : j < s.h.length) :
    Linked (s.swap i j) where
  heap path e := by
    rw [mem_swap hi hj, ChatLineState.swap, path_setIndex, path_setIndex]
    exact h.heap path e
  index k e hk := by
    rw [getElem?_swap s hi hj] at hk
    have hold := h.index _ e hk
    have hgi := h.index i _ (getElem?_get hi)
    have hgj := h.index j _ (getElem?_get hj)
    rw [ChatLineState.swap, index_setIndex, index_setIndex]
    by_cases hkj : k = j
    · subst hkj
      rw [Equiv.swap_apply_right, getElem?_get hi] at hk
      rw [if_pos (Option.some.inj hk).symm]
    · by_cases hki : k = i
      · subst hki
        rw [Equiv.swap_apply_left, getElem?_get hj] at hk
        have he := (Option.some.inj hk).symm
        have hne : e ≠ s.get k := by
          rintro rfl
          rw [he] at hgi
          omega
        rw [if_neg hne, if_pos he]
      · rw [Equiv.swap_apply_of_ne_of_ne hki hkj] at hold
        have hne : e ≠ s.get i := by
          rintro rfl
          omega
        have hne' : e ≠ s.get j := by
          rintro rfl
          omega
        rw [if_neg hne, if_neg hne']
        exact hold
  made e he := h.made e ((mem_swap hi hj e).1 he)

/-- What the sifts keep. -/
theorem swap_keeps (s₀ : ChatLineState) :
    ∀ s i j, i < fileHeap.len s → j < fileHeap.len s → Linked s ∧ Same s₀ s →
      Linked (fileHeap.swap s i j) ∧ Same s₀ (fileHeap.swap s i j) :=
  fun _ _ _ hi hj h => ⟨h.1.swap hi hj, h.2.swap hi hj⟩

/-! ## The states of a chat -/

/-- The turn of the newest of a file's ranges. -/
def lastTurnOf (ranges : List LineRange) : ℤ :=
  (ranges.getLast?.map LineRange.turn).getD 0

structure Inv (s : ChatLineState) : Prop where
  linked : Linked s
  ordered : Ordered fileHeap s s.h.length
  keys : (s.ranges.map File.path).Nodup
  same : ∀ path, s.rangesOf path ≠ none ↔ s.entries path ≠ none
  last : ∀ path e ranges, s.entries path = some e → s.rangesOf path = some ranges →
    (s.entry e).lastTurn = lastTurnOf ranges
  files : s.ranges.length ≤ maxFilesPerChat
  ranges : ∀ path ranges, s.rangesOf path = some ranges →
    ranges.length ≤ maxLineRangesPerFile

theorem rangesOf_ne_none : s.rangesOf path ≠ none ↔ path ∈ s.ranges.map File.path := by
  rw [rangesOf, Ne, Option.map_eq_none_iff, Keyed.find_eq_none, not_not]

theorem rangesOf_congr (h : s.ranges = s₀.ranges) (path : Text) :
    s.rangesOf path = s₀.rangesOf path := by
  rw [rangesOf, h, rangesOf]

/-! ## Evictions -/

/-- A tracked file is in the heap. -/
theorem Inv.mem_of_rangesOf (h : Inv s) (hranges : s.rangesOf path ≠ none) :
    ∃ e ∈ s.h, s.entries path = some e ∧ (s.entry e).path = path := by
  obtain ⟨e, he⟩ := Option.ne_none_iff_exists'.1 ((h.same path).1 hranges)
  obtain ⟨hmem, hpath⟩ := (h.linked.heap path e).1 he
  exact ⟨e, hmem, he, hpath⟩

theorem length_erase_lt (h : path ∈ s.ranges.map File.path) :
    (Keyed.erase File.path s.ranges path).length < s.ranges.length := by
  obtain ⟨f, hf, rfl⟩ := List.mem_map.1 h
  exact List.length_filter_lt_length_iff_exists.2 ⟨f, hf, by simp⟩

/-- The state with the least entry at the end of the heap. -/
theorem popped_same (h : Linked s) (hpos : 0 < s.h.length) :
    Linked (popped fileHeap s) ∧ Same s (popped fileHeap s) :=
  popped_invariant (swap_keeps s) ⟨h, .refl s⟩ hpos

/-- The entry that is popped. -/
def victim (s : ChatLineState) : ℕ :=
  (popped fileHeap s).get ((popped fileHeap s).h.length - 1)

theorem Linked.victim_mem (h : Linked s) (hpos : 0 < s.h.length) :
    (popped fileHeap s).h = (popped fileHeap s).h.dropLast ++ [victim s] := by
  have hlength := (popped_same h hpos).2.length
  have hne : (popped fileHeap s).h ≠ [] := List.ne_nil_of_length_pos (by omega)
  have hlast : (popped fileHeap s).h.getLast hne = victim s := by
    rw [victim, ChatLineState.get, List.getD_eq_getElem _ _ (by omega), List.getLast_eq_getElem]
  rw [← hlast, List.dropLast_append_getLast hne]

/-- The files and the entries after an eviction. -/
theorem evict_eq (h : Linked s) (hpos : 0 < s.h.length) :
    s.evict.ranges = Keyed.erase File.path s.ranges (s.entry (victim s)).path
      ∧ s.evict.entries = Function.update s.entries (s.entry (victim s)).path none
      ∧ s.evict.h = (popped fileHeap s).h.dropLast
      ∧ s.evict.made = s.made
      ∧ s.evict.entry = ((popped fileHeap s).setIndex (victim s) (-1)).entry := by
  have hsame := (popped_same h hpos).2
  have hpath : (((popped fileHeap s).setIndex (victim s) (-1)).entry (victim s)).path
      = (s.entry (victim s)).path := by
    rw [path_setIndex, hsame.path]
  refine ⟨?_, ?_, rfl, hsame.made, rfl⟩
  · rw [← hpath, ← hsame.ranges]
    rfl
  · rw [← hpath, ← hsame.entries]
    rfl

theorem Linked.evict (h : Linked s) (hpos : 0 < s.h.length) : Linked s.evict := by
  obtain ⟨hlinked, hsame⟩ := popped_same h hpos
  obtain ⟨-, hentries, hh, hmade, hentry⟩ := evict_eq h hpos
  have hsplit := h.victim_mem hpos
  have hnot : victim s ∉ (popped fileHeap s).h.dropLast := by
    have hnodup := hlinked.nodup
    rw [hsplit, List.nodup_append] at hnodup
    exact fun hmem => hnodup.2.2 _ hmem _ (List.mem_singleton_self _) rfl
  have hvictim : victim s ∈ (popped fileHeap s).h := by
    rw [hsplit]
    exact List.mem_append_right _ (List.mem_singleton_self _)
  constructor
  · intro path e
    rw [hentries, hh, hentry, path_setIndex]
    by_cases hpath : path = (s.entry (victim s)).path
    · subst hpath
      rw [Function.update_self]
      refine ⟨fun hnone => (Option.some_ne_none _ hnone.symm).elim, fun ⟨hmem, hpath⟩ => ?_⟩
      rw [← hsame.path] at hpath
      have heq := hlinked.path_inj (List.dropLast_subset _ hmem) hvictim hpath
      exact absurd (heq ▸ hmem) hnot
    · rw [Function.update_of_ne hpath, ← hsame.entries, hlinked.heap]
      refine and_congr_left fun he => ⟨fun hmem => ?_, fun hmem => List.dropLast_subset _ hmem⟩
      rw [hsplit, List.mem_append, List.mem_singleton] at hmem
      refine hmem.resolve_right ?_
      rintro rfl
      exact hpath (he.symm.trans (hsame.path _))
  · intro k e hk
    rw [hh] at hk
    have hmem := List.mem_of_getElem? hk
    have hne : e ≠ victim s := by
      rintro rfl
      exact hnot hmem
    have hk' : (popped fileHeap s).h[k]? = some e := by
      rw [hsplit]
      exact (List.getElem?_append_left (List.getElem?_eq_some_iff.1 hk).1).trans hk
    rw [hentry, index_setIndex, if_neg hne]
    exact hlinked.index k e hk'
  · intro e he
    rw [hh] at he
    rw [hmade, ← hsame.made]
    exact hlinked.made e (List.dropLast_subset _ he)

/-- The keys of the places that an eviction leaves. -/
theorem lastTurn_evict (h : Linked s) (hpos : 0 < s.h.length) {k : ℕ} (hk : k < s.h.length - 1) :
    s.evict.lastTurn k = (popped fileHeap s).lastTurn k := by
  obtain ⟨-, -, hh, -, hentry⟩ := evict_eq h hpos
  have hlength := (popped_same h hpos).2.length
  have hget : s.evict.get k = (popped fileHeap s).get k := by
    rw [ChatLineState.get, ChatLineState.get, hh, List.getD_eq_getElem?_getD,
      List.getD_eq_getElem?_getD, List.getElem?_dropLast, if_pos (by omega)]
  rw [lastTurn, lastTurn, hget, hentry, lastTurn_setIndex]

theorem Inv.ordered_evict (h : Inv s) (hpos : 0 < s.h.length) :
    Ordered fileHeap s.evict s.evict.h.length := by
  have hordered := (ordered_popped h.ordered hpos).1
  have hlength : s.evict.h.length = s.h.length - 1 := by
    rw [(evict_eq h.linked hpos).2.2.1, List.length_dropLast, (popped_same h.linked hpos).2.length]
  intro k hk hkn
  rw [hlength] at hkn
  have hparent := parent_lt hk
  have hle := hordered k hk hkn
  rw [show fileHeap.key s.evict (parent k) = _ from lastTurn_evict h.linked hpos (by omega),
    show fileHeap.key s.evict k = _ from lastTurn_evict h.linked hpos hkn]
  exact hle

/-- No entry in the heap has a smaller turn than the one popped. -/
theorem Inv.victim_le (h : Inv s) (hpos : 0 < s.h.length) (he : e ∈ s.h) :
    (s.entry (victim s)).lastTurn ≤ (s.entry e).lastTurn := by
  have hsame := (popped_same h.linked hpos).2
  have hkey := (ordered_popped h.ordered hpos).2
  obtain ⟨k, hk⟩ := List.mem_iff_getElem?.1 he
  have hlt := (List.getElem?_eq_some_iff.1 hk).1
  have hget : s.get k = e := Option.some.inj ((getElem?_get hlt).symm.trans hk)
  have hvictim : (s.entry (victim s)).lastTurn = fileHeap.key s 0 := by
    rw [← hkey, ← hsame.turn, victim, hsame.length]
    rfl
  rw [hvictim, ← hget]
  exact h.ordered.le hlt

/-- An eviction takes away one file, none has a smaller last turn, and the rest are as before. -/
theorem Inv.evict (h : Inv s) (hpos : 0 < s.h.length) :
    Inv s.evict ∧ s.evict.ranges.length < s.ranges.length
      ∧ ∃ path, s.rangesOf path ≠ none ∧ s.evict.rangesOf path = none
        ∧ (∀ path', path' ≠ path → s.evict.rangesOf path' = s.rangesOf path')
        ∧ ∀ path' ranges ranges', s.rangesOf path = some ranges →
          s.rangesOf path' = some ranges' → lastTurnOf ranges ≤ lastTurnOf ranges' := by
  obtain ⟨hlinked, hsame⟩ := popped_same h.linked hpos
  obtain ⟨hranges, hentries, -, -, hentry⟩ := evict_eq h.linked hpos
  have hvictim : victim s ∈ s.h := by
    rw [← hsame.mem, h.linked.victim_mem hpos]
    exact List.mem_append_right _ (List.mem_singleton_self _)
  have hmap : s.entries (s.entry (victim s)).path = some (victim s) :=
    (h.linked.heap _ _).2 ⟨hvictim, rfl⟩
  have htracked : s.rangesOf (s.entry (victim s)).path ≠ none :=
    (h.same _).2 (hmap ▸ Option.some_ne_none _)
  have hself : s.evict.rangesOf (s.entry (victim s)).path = none := by
    rw [rangesOf, hranges, Keyed.find_erase_self, Option.map_none]
  have hother : ∀ path', path' ≠ (s.entry (victim s)).path →
      s.evict.rangesOf path' = s.rangesOf path' := fun path' hne => by
    rw [rangesOf, hranges, Keyed.find_erase_of_ne hne, rangesOf]
  have hlength : s.evict.ranges.length < s.ranges.length := by
    rw [hranges]
    exact length_erase_lt (rangesOf_ne_none.1 htracked)
  have hold : ∀ path ranges, s.evict.rangesOf path = some ranges →
      path ≠ (s.entry (victim s)).path ∧ s.rangesOf path = some ranges := by
    intro path ranges hpath
    have hne : path ≠ (s.entry (victim s)).path := by
      rintro rfl
      rw [hself] at hpath
      contradiction
    exact ⟨hne, hother path hne ▸ hpath⟩
  refine ⟨⟨h.linked.evict hpos, h.ordered_evict hpos, ?_, ?_, ?_, ?_, ?_⟩, hlength,
    _, htracked, hself, hother, ?_⟩
  · rw [hranges]
    exact Keyed.nodup_erase h.keys
  · intro path
    rw [hentries]
    by_cases hpath : path = (s.entry (victim s)).path
    · subst hpath
      rw [hself, Function.update_self]
      exact iff_of_false (not_not.2 rfl) (not_not.2 rfl)
    · rw [hother path hpath, Function.update_of_ne hpath]
      exact h.same path
  · intro path e ranges hmap' hpath
    obtain ⟨hne, hpath'⟩ := hold path ranges hpath
    rw [hentries, Function.update_of_ne hne] at hmap'
    rw [hentry, lastTurn_setIndex, hsame.turn]
    exact h.last path e ranges hmap' hpath'
  · exact hlength.le.trans h.files
  · intro path ranges hpath
    exact h.ranges path ranges (hold path ranges hpath).2
  · intro path' ranges ranges' hpath hpath'
    have htracked' : s.rangesOf path' ≠ none := hpath' ▸ Option.some_ne_none _
    obtain ⟨e, he, hmap', -⟩ := h.mem_of_rangesOf htracked'
    rw [← h.last _ _ _ hmap hpath, ← h.last _ _ _ hmap' hpath']
    exact h.victim_le hpos he

/-! ## The entry of a recorded file -/

theorem path_setLastTurn (s : ChatLineState) (e : ℕ) (turn : ℤ) (e' : ℕ) :
    ((s.setLastTurn e turn).entry e').path = (s.entry e').path := by
  by_cases he : e' = e
  · subst he
    simp [setLastTurn]
  · simp [setLastTurn, he]

theorem index_setLastTurn (s : ChatLineState) (e : ℕ) (turn : ℤ) (e' : ℕ) :
    ((s.setLastTurn e turn).entry e').index = (s.entry e').index := by
  by_cases he : e' = e
  · subst he
    simp [setLastTurn]
  · simp [setLastTurn, he]

theorem lastTurn_setLastTurn (s : ChatLineState) (e : ℕ) (turn : ℤ) (e' : ℕ) :
    ((s.setLastTurn e turn).entry e').lastTurn = if e' = e then turn else (s.entry e').lastTurn := by
  by_cases he : e' = e
  · subst he
    simp [setLastTurn]
  · simp [setLastTurn, he]

theorem Linked.setLastTurn (h : Linked s) (e : ℕ) (turn : ℤ) : Linked (s.setLastTurn e turn) where
  heap path e' := by
    rw [path_setLastTurn]
    exact h.heap path e'
  index k e' hk := by
    rw [index_setLastTurn]
    exact h.index k e' hk
  made := h.made

/-- What a touch makes of the entries: that of the path has the turn, the others their own. -/
structure Touched (s : ChatLineState) (path : Text) (turn : ℤ) (s' : ChatLineState) : Prop where
  linked : Linked s'
  ordered : Ordered fileHeap s' s'.h.length
  ranges : s'.ranges = s.ranges
  self : ∃ e, s'.entries path = some e ∧ (s'.entry e).lastTurn = turn
  other : ∀ path', path' ≠ path → s'.entries path' = s.entries path'
    ∧ ∀ e, s.entries path' = some e → (s'.entry e).lastTurn = (s.entry e).lastTurn

theorem touched_of_some (h : Linked s) (hordered : Ordered fileHeap s s.h.length)
    (hmap : s.entries path = some e) (turn : ℤ) : Touched s path turn (s.touch path turn) := by
  obtain ⟨hmem, hpath⟩ := (h.heap path e).1 hmap
  obtain ⟨k, hk⟩ := List.mem_iff_getElem?.1 hmem
  have hlt := (List.getElem?_eq_some_iff.1 hk).1
  have hplace : (s.entry e).index.toNat = k := by
    rw [h.index k e hk, Int.toNat_natCast]
  have hlinked := h.setLastTurn e turn
  have htouch : s.touch path turn = fix fileHeap (s.setLastTurn e turn) k := by
    rw [touch, hmap, ← hplace]
  obtain ⟨hlinked', hsame⟩ : Linked (s.touch path turn)
      ∧ Same (s.setLastTurn e turn) (s.touch path turn) := by
    rw [htouch]
    exact fix_invariant (swap_keeps _) ⟨hlinked, .refl _⟩ hlt
  have hkeys : ∀ k', k' < s.h.length → k' ≠ k →
      fileHeap.key (s.setLastTurn e turn) k' = fileHeap.key s k' := by
    intro k' hk' hne
    refine (lastTurn_setLastTurn s e turn (s.get k')).trans (if_neg fun hget => ?_)
    have hindex := h.index k' _ (getElem?_get hk')
    rw [hget, h.index k e hk] at hindex
    omega
  refine ⟨hlinked', ?_, hsame.ranges, ⟨e, ?_, ?_⟩, fun path' hne => ⟨?_, fun e' hmap' => ?_⟩⟩
  · rw [hsame.length, htouch]
    exact ordered_fix hordered hlt hkeys
  · rw [hsame.entries]
    exact hmap
  · rw [hsame.turn, lastTurn_setLastTurn, if_pos rfl]
  · rw [hsame.entries]
    rfl
  · rw [hsame.turn, lastTurn_setLastTurn, if_neg]
    rintro rfl
    exact hne (((h.heap path' _).1 hmap').2.symm.trans hpath)

/-- The state with an entry made for the path and added at the end of the heap. -/
def added (s : ChatLineState) (path : Text) (turn : ℤ) : ChatLineState :=
  { s with
    h := s.h ++ [s.made]
    entry := Function.update s.entry s.made ⟨path, turn, s.h.length⟩
    entries := Function.update s.entries path (some s.made)
    made := s.made + 1 }

theorem touch_of_none (hmap : s.entries path = none) (turn : ℤ) :
    s.touch path turn = up fileHeap (added s path turn) s.h.length := by
  rw [touch, hmap]
  simp only [push, setIndex, added, Function.update_self, Function.update_idem]

theorem entry_added (s : ChatLineState) (path : Text) (turn : ℤ) (he : e ≠ s.made) :
    (added s path turn).entry e = s.entry e :=
  Function.update_of_ne he _ _

theorem entry_added_self (s : ChatLineState) (path : Text) (turn : ℤ) :
    (added s path turn).entry s.made = ⟨path, turn, s.h.length⟩ :=
  Function.update_self ..

theorem entries_added (s : ChatLineState) (turn : ℤ) {path' : Text} (hne : path' ≠ path) :
    (added s path turn).entries path' = s.entries path' :=
  Function.update_of_ne hne _ _

theorem entries_added_self (s : ChatLineState) (path : Text) (turn : ℤ) :
    (added s path turn).entries path = some s.made :=
  Function.update_self ..

theorem Linked.added (h : Linked s) (hmap : s.entries path = none) (turn : ℤ) :
    Linked (added s path turn) := by
  have hold : ∀ e ∈ s.h, (Buffer.added s path turn).entry e = s.entry e := fun e he =>
    entry_added s path turn (h.made e he).ne
  constructor
  · intro path' e
    have hmem : e ∈ (Buffer.added s path turn).h ↔ e ∈ s.h ∨ e = s.made := by
      simp [Buffer.added]
    rw [hmem]
    by_cases he : e = s.made
    · subst he
      rw [entry_added_self]
      by_cases hpath : path' = path
      · subst hpath
        rw [entries_added_self]
        simp
      · refine iff_of_false (fun hmap' => ?_) fun hpath' => hpath hpath'.2.symm
        rw [entries_added s turn hpath] at hmap'
        exact (h.made _ ((h.heap path' _).1 hmap').1).ne rfl
    · rw [entry_added s path turn he, or_iff_left he]
      by_cases hpath : path' = path
      · subst hpath
        refine iff_of_false (fun hmap' => ?_) fun hmem' => ?_
        · rw [entries_added_self] at hmap'
          exact he (Option.some.inj hmap').symm
        · have := (h.heap path' e).2 hmem'
          rw [hmap] at this
          contradiction
      · rw [entries_added s turn hpath]
        exact h.heap path' e
  · intro k e hk
    simp only [Buffer.added] at hk
    rcases List.mem_append.1 (List.mem_of_getElem? hk) with hmem | hmem
    · have hne := (h.made e hmem).ne
      have hlt : k < s.h.length := by
        by_contra hge
        rw [List.getElem?_append_right (by omega), List.getElem?_singleton] at hk
        split at hk
        · exact hne (Option.some.inj hk).symm
        · contradiction
      rw [List.getElem?_append_left hlt] at hk
      rw [hold e hmem]
      exact h.index k e hk
    · obtain rfl := List.mem_singleton.1 hmem
      have hk' : k = s.h.length := by
        by_contra hne
        by_cases hlt : k < s.h.length
        · rw [List.getElem?_append_left hlt] at hk
          exact (h.made _ (List.mem_of_getElem? hk)).ne rfl
        · have := (List.getElem?_eq_some_iff.1 hk).1
          rw [List.length_append, List.length_singleton] at this
          omega
      rw [entry_added_self, hk']
  · intro e he
    rcases List.mem_append.1 he with hmem | hmem
    · exact (h.made e hmem).trans (Nat.lt_succ_self _)
    · obtain rfl := List.mem_singleton.1 hmem
      exact Nat.lt_succ_self _

theorem touched_of_none (h : Linked s) (hordered : Ordered fileHeap s s.h.length)
    (hmap : s.entries path = none) (turn : ℤ) : Touched s path turn (s.touch path turn) := by
  have hlinked := h.added hmap turn
  have hlength : (added s path turn).h.length = s.h.length + 1 := by
    simp [added]
  have hkeys : ∀ k, k < s.h.length → fileHeap.key (added s path turn) k = fileHeap.key s k := by
    intro k hk
    have hget : (added s path turn).get k = s.get k := by
      rw [ChatLineState.get, ChatLineState.get, List.getD_eq_getElem?_getD,
        List.getD_eq_getElem?_getD, added, List.getElem?_append_left hk]
    have hentry := entry_added s path turn (h.made _ (get_mem hk)).ne
    show (added s path turn).lastTurn k = s.lastTurn k
    rw [lastTurn, lastTurn, hget, hentry]
  have hadded : Ordered fileHeap (added s path turn) s.h.length := by
    intro k hk hkn
    rw [hkeys k hkn, hkeys _ ((parent_lt hk).trans hkn)]
    exact hordered k hk hkn
  have hlt : s.h.length < fileHeap.len (added s path turn) :=
    (Nat.lt_succ_self _).trans_eq hlength.symm
  obtain ⟨hlinked', hsame⟩ : Linked (s.touch path turn)
      ∧ Same (added s path turn) (s.touch path turn) := by
    rw [touch_of_none hmap]
    exact up_invariant (swap_keeps _) ⟨hlinked, .refl _⟩ hlt
  refine ⟨hlinked', ?_, hsame.ranges, ⟨s.made, ?_, ?_⟩, fun path' hne => ⟨?_, fun e hmap' => ?_⟩⟩
  · rw [hsame.length, hlength, touch_of_none hmap]
    exact ordered_up hadded hlt
  · rw [hsame.entries]
    exact entries_added_self s path turn
  · rw [hsame.turn, entry_added_self]
  · rw [hsame.entries]
    exact entries_added s turn hne
  · rw [hsame.turn, entry_added s path turn (h.made e ((h.heap path' e).1 hmap').1).ne]

theorem touched (h : Linked s) (hordered : Ordered fileHeap s s.h.length) (path : Text)
    (turn : ℤ) : Touched s path turn (s.touch path turn) := by
  cases hmap : s.entries path with
  | none => exact touched_of_none h hordered hmap turn
  | some e => exact touched_of_some h hordered hmap turn

/-! ## Records -/

theorem keep_recent {ranges : List LineRange} (h : ranges.length ≤ maxLineRangesPerFile)
    (r : LineRange) :
    (if maxLineRangesPerFile ≤ ranges.length then ranges.drop 1 else ranges) ++ [r]
      = (ranges ++ [r]).rtake maxLineRangesPerFile := by
  split
  · next hle =>
    have hone : [r].length ≤ maxLineRangesPerFile := show 1 ≤ maxLineRangesPerFile by decide
    rw [Recent.rtake_append hle hone, Recent.rtake_of_length_le h, List.length_singleton]
  · next hlt =>
    rw [Recent.rtake_of_length_le]
    rw [List.length_append, List.length_singleton]
    omega

/-- The ranges of a file with one more. -/
theorem rangesOf_addRange (h : Inv s) (path : Text) (r : LineRange) (path' : Text) :
    (s.addRange path r).rangesOf path'
      = if path' = path then some (((s.rangesOf path).getD [] ++ [r]).rtake maxLineRangesPerFile)
        else s.rangesOf path' := by
  have hlength : ((s.rangesOf path).getD []).length ≤ maxLineRangesPerFile := by
    cases hranges : s.rangesOf path with
    | none => exact Nat.zero_le _
    | some ranges => exact h.ranges path ranges hranges
  rw [← keep_recent hlength]
  by_cases hpath : path' = path
  · subst hpath
    rw [if_pos rfl]
    exact congrArg (Option.map File.ranges) Keyed.find_set_key
  · rw [if_neg hpath]
    exact congrArg (Option.map File.ranges) (Keyed.find_set_of_ne hpath)

theorem length_addRange (hroom : s.rangesOf path ≠ none ∨ s.ranges.length < maxFilesPerChat)
    (hfiles : s.ranges.length ≤ maxFilesPerChat) (r : LineRange) :
    (s.addRange path r).ranges.length ≤ maxFilesPerChat := by
  simp only [addRange]
  by_cases hmem : path ∈ s.ranges.map File.path
  · have hlength (f : File) (hf : f.path = path) :
        (Keyed.set File.path s.ranges f).length = s.ranges.length := by
      rw [Keyed.set_of_mem (hf ▸ hmem), List.length_map]
    exact (hlength _ rfl).le.trans hfiles
  · have hlt := hroom.resolve_left fun hne => hmem (rangesOf_ne_none.1 hne)
    rw [Keyed.set_of_not_mem hmem, List.length_append, List.length_singleton]
    omega

/-- A record in a chat with room for the file. -/
theorem Inv.addRange_touch (h : Inv s)
    (hroom : s.rangesOf path ≠ none ∨ s.ranges.length < maxFilesPerChat) (r : LineRange) :
    Inv ((s.addRange path r).touch path r.turn)
      ∧ ∀ path', ((s.addRange path r).touch path r.turn).rangesOf path'
        = if path' = path then some (((s.rangesOf path).getD [] ++ [r]).rtake maxLineRangesPerFile)
          else s.rangesOf path' := by
  have hlinked : Linked (s.addRange path r) := ⟨h.linked.heap, h.linked.index, h.linked.made⟩
  have htouched := touched hlinked h.ordered path r.turn
  have hranges : ∀ path', ((s.addRange path r).touch path r.turn).rangesOf path'
      = if path' = path then some (((s.rangesOf path).getD [] ++ [r]).rtake maxLineRangesPerFile)
        else s.rangesOf path' := fun path' => by
    rw [rangesOf_congr htouched.ranges, rangesOf_addRange h]
  obtain ⟨e, hself, hturn⟩ := htouched.self
  refine ⟨⟨htouched.linked, htouched.ordered, ?_, ?_, ?_, ?_, ?_⟩, hranges⟩
  · rw [htouched.ranges]
    exact Keyed.nodup_set h.keys
  · intro path'
    rw [hranges]
    by_cases hpath : path' = path
    · subst hpath
      rw [if_pos rfl, hself]
      exact iff_of_true (Option.some_ne_none _) (Option.some_ne_none _)
    · rw [if_neg hpath, (htouched.other path' hpath).1]
      exact h.same path'
  · intro path' e' ranges hmap hpath'
    rw [hranges] at hpath'
    by_cases hpath : path' = path
    · subst hpath
      rw [if_pos rfl] at hpath'
      rw [hself] at hmap
      rw [← Option.some.inj hmap, hturn, ← Option.some.inj hpath', lastTurnOf,
        ← Nat.succ_pred_eq_of_pos (show 0 < maxLineRangesPerFile by decide),
        List.rtake_concat_succ, List.getLast?_concat, Option.map_some, Option.getD_some]
    · rw [if_neg hpath] at hpath'
      obtain ⟨hentries, hother⟩ := htouched.other path' hpath
      rw [hentries] at hmap
      rw [hother e' hmap]
      exact h.last path' e' ranges hmap hpath'
  · rw [htouched.ranges]
    exact length_addRange hroom h.files r
  · intro path' ranges hpath'
    rw [hranges] at hpath'
    split at hpath'
    · rw [← Option.some.inj hpath']
      exact Recent.length_rtake_le _ _
    · exact h.ranges path' ranges hpath'

/-- What a record does: it may evict another file, one with the smallest last turn, where the file
is not tracked and there is no room, and it adds the range to the file's. -/
structure Recorded (s : ChatLineState) (path : Text) (r : LineRange) (s' : ChatLineState) :
    Prop where
  inv : Inv s'
  self : s'.rangesOf path
    = some (((s.rangesOf path).getD [] ++ [r]).rtake maxLineRangesPerFile)
  other : ∀ path', path' ≠ path → s'.rangesOf path' = s.rangesOf path'
    ∨ s'.rangesOf path' = none ∧ s.rangesOf path = none ∧ s.ranges.length = maxFilesPerChat
      ∧ (∀ path'', path'' ≠ path' → path'' ≠ path → s'.rangesOf path'' = s.rangesOf path'')
      ∧ ∀ path'' ranges ranges', s.rangesOf path' = some ranges →
        s.rangesOf path'' = some ranges' → lastTurnOf ranges ≤ lastTurnOf ranges'

theorem Inv.record (h : Inv s) (path : Text) (r : LineRange) :
    Recorded s path r (s.record path r) := by
  rw [ChatLineState.record]
  split
  · next hfull =>
    obtain ⟨hnone, hfiles⟩ := hfull
    have hpos : 0 < s.h.length := by
      obtain ⟨f, hf⟩ := List.exists_mem_of_length_pos
        ((show 0 < maxFilesPerChat by decide).trans_le hfiles)
      obtain ⟨e, he, -⟩ := h.mem_of_rangesOf (rangesOf_ne_none.2 (List.mem_map_of_mem hf))
      exact List.length_pos_of_mem he
    obtain ⟨hinv, hlength, victim, htracked, hgone, hother, hleast⟩ := h.evict hpos
    have hne : victim ≠ path := by
      rintro rfl
      exact htracked hnone
    have hroom : s.evict.rangesOf path ≠ none ∨ s.evict.ranges.length < maxFilesPerChat :=
      .inr (hlength.trans_le h.files)
    obtain ⟨hinv', hranges⟩ := hinv.addRange_touch hroom r
    refine ⟨hinv', ?_, fun path' hpath => ?_⟩
    · rw [hranges, if_pos rfl, hother path hne.symm]
    · rw [hranges, if_neg hpath]
      by_cases hvictim : path' = victim
      · subst hvictim
        refine .inr ⟨hgone, hnone, h.files.antisymm hfiles, fun path'' hne' hne'' => ?_, hleast⟩
        rw [hranges, if_neg hne'', hother path'' hne']
      · exact .inl (hother path' hvictim)
  · next hroom =>
    have hroom' : s.rangesOf path ≠ none ∨ s.ranges.length < maxFilesPerChat := by
      by_cases hnone : s.rangesOf path = none
      · exact .inr (Nat.lt_of_not_le fun hle => hroom ⟨hnone, hle⟩)
      · exact .inl hnone
    obtain ⟨hinv', hranges⟩ := h.addRange_touch hroom' r
    refine ⟨hinv', ?_, fun path' hpath => .inl ?_⟩
    · rw [hranges, if_pos rfl]
    · rw [hranges, if_neg hpath]

theorem Inv.empty : Inv .empty where
  linked := by
    refine ⟨fun path e => ?_, fun k e hk => ?_, fun e he => ?_⟩
    · exact iff_of_false (Option.some_ne_none _).symm fun h => List.not_mem_nil h.1
    · contradiction
    · contradiction
  ordered k hk hkn := absurd hkn (Nat.not_lt_zero _)
  keys := List.nodup_nil
  same path := iff_of_false (not_not.2 rfl) (not_not.2 rfl)
  last path e ranges hmap := by contradiction
  files := Nat.zero_le _
  ranges path ranges hpath := by contradiction

end Marotte.Buffer
