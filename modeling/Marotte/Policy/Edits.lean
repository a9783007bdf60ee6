import Marotte.Library.Runes
import Mathlib.Data.List.Perm.Basic

/-! # The rules of a policy file

What a rule is, how one is cleaned before it is written, and the four operations on the list of
rules. Two rules are told apart by a text their fields are joined into.
-/
namespace Marotte.Policy

open Runes

structure Rule where
  capability : Bytes
  effect : Bytes
  matching : List Bytes
  exclude : List Bytes
  deriving DecidableEq

inductive PolicyError where
  | capabilityShape
  | invalidEffect
  | tooManyRules
  | patternTooLong
  | patternInvalid
  | patternEmpty
  deriving DecidableEq

def maxMatchEntries : ℕ := 128

def maxPatternLen : ℕ := 512

def maxRulesPerFile : ℕ := 512

def maxCapabilityLen : ℕ := 128

/-! ## Cleaning a rule -/

def validEffect (effect : Bytes) : Bool :=
  effect = ascii "allow" ∨ effect = ascii "deny" ∨ effect = ascii "ask"

/-- `unicode.IsControl`. -/
def isCtrl (c : Char) : Bool :=
  c.toNat < 0x20 || (0x7F ≤ c.toNat && c.toNat ≤ 0x9F)

def isSpacePiece (p : Piece) : Bool :=
  Runes.isSpace p.char

def trimSpace (s : Bytes) : Bytes :=
  ((((pieces s).dropWhile isSpacePiece).reverse.dropWhile isSpacePiece).reverse).flatMap Piece.units

def validString (s : Bytes) : Bool :=
  (pieces s).all fun p =>
    match p with
    | .rune _ => true
    | .stray _ => false

def containsCtrl (s : Bytes) : Bool :=
  (pieces s).any fun p => isCtrl p.char

/-- The patterns cleaned one by one, those already kept left out. -/
def cleanPatterns : List Bytes → List Bytes → Except PolicyError (List Bytes)
  | [], out => .ok out
  | p :: ps, out =>
    if trimSpace p = [] then cleanPatterns ps out
    else if (trimSpace p).length > maxPatternLen then .error .patternTooLong
    else if !validString (trimSpace p) || containsCtrl (trimSpace p) then .error .patternInvalid
    else if trimSpace p ∈ out then cleanPatterns ps out
    else cleanPatterns ps (out ++ [trimSpace p])

/-- A list that emptied itself is refused: a rule without patterns matches everything. -/
def sanitizePatterns (input : List Bytes) : Except PolicyError (List Bytes) :=
  if input.length > maxMatchEntries then .error .tooManyRules
  else
    match cleanPatterns input [] with
    | .error e => .error e
    | .ok out => if input ≠ [] ∧ out = [] then .error .patternEmpty else .ok out

def sanitizeRule (r : Rule) : Except PolicyError Rule :=
  let capability := trimSpace r.capability
  if capability = [] ∨ capability.length > maxCapabilityLen
      ∨ !validString capability ∨ containsCtrl capability then .error .capabilityShape
  else if !validEffect r.effect then .error .invalidEffect
  else
    match sanitizePatterns r.matching with
    | .error e => .error e
    | .ok matching =>
      match sanitizePatterns r.exclude with
      | .error e => .error e
      | .ok exclude => .ok { capability, effect := r.effect, matching, exclude }

/-! ## The operations -/

def sortStrings (ss : List Bytes) : List Bytes :=
  ss.mergeSort fun a b => decide (a ≤ b)

def bar : UInt8 := 124

def comma : UInt8 := 44

/-- The patterns behind a tag, joined by commas. -/
def joined (tag : UInt8) (ss : List Bytes) : Bytes :=
  bar :: tag :: 58 :: [comma].intercalate (sortStrings ss)

/-- The text two rules are compared by. -/
def signature (r : Rule) : Bytes :=
  r.capability ++ bar :: (r.effect ++ (joined 109 r.matching ++ joined 120 r.exclude))

def has (rules : List Rule) (r : Rule) : Bool :=
  rules.any fun s => signature s = signature r

/-- Whether the list changed, and the list. -/
def upsert (rules : List Rule) (r : Rule) : Except PolicyError (Bool × List Rule) :=
  if rules.length ≥ maxRulesPerFile then .error .tooManyRules
  else if has rules r then .ok (false, rules)
  else .ok (true, rules ++ [r])

def remove (rules : List Rule) (r : Rule) : Bool × List Rule :=
  match rules.findIdx? fun s => signature s = signature r with
  | none => (false, rules)
  | some i => (true, rules.eraseIdx i)

/-- The first rule found is given the effect in its place, or taken out where another rule already
expresses the result. -/
def replaceEffect (rules : List Rule) (old : Rule) (effect : Bytes) : Bool × List Rule :=
  match rules.findIdx? fun s => signature s = signature old with
  | none => (false, rules)
  | some i =>
    match rules[i]? with
    | none => (false, rules)
    | some found =>
      let next := { found with effect := effect }
      if signature next = signature old then (false, rules)
      else if has (rules.eraseIdx i) next then (true, rules.eraseIdx i)
      else (true, rules.set i next)

/-! ## Edits of one rule

What the operations are to do, with two rules the same when they have the same capability, the same
effect and the same patterns in any order, and when they do it.
-/

/-- The same capability and effect, and the same patterns in any order. -/
structure Same (r s : Rule) : Prop where
  capability : r.capability = s.capability
  effect : r.effect = s.effect
  matching : r.matching.Perm s.matching
  exclude : r.exclude.Perm s.exclude

instance (r s : Rule) : Decidable (Same r s) :=
  decidable_of_iff (r.capability = s.capability ∧ r.effect = s.effect
      ∧ r.matching.Perm s.matching ∧ r.exclude.Perm s.exclude)
    ⟨fun ⟨h₁, h₂, h₃, h₄⟩ => ⟨h₁, h₂, h₃, h₄⟩, fun ⟨h₁, h₂, h₃, h₄⟩ => ⟨h₁, h₂, h₃, h₄⟩⟩

namespace Same

variable {r s t : Rule}

theorem refl (r : Rule) : Same r r :=
  ⟨rfl, rfl, .refl _, .refl _⟩

theorem symm (h : Same r s) : Same s r :=
  ⟨h.capability.symm, h.effect.symm, h.matching.symm, h.exclude.symm⟩

theorem trans (h : Same r s) (h' : Same s t) : Same r t :=
  ⟨h.capability.trans h'.capability, h.effect.trans h'.effect, h.matching.trans h'.matching,
    h.exclude.trans h'.exclude⟩

theorem withEffect (h : Same r s) (effect : Bytes) :
    Same { r with effect := effect } { s with effect := effect } :=
  ⟨h.capability, rfl, h.matching, h.exclude⟩

end Same

/-! ## What the edits are to do -/

def holds (rules : List Rule) (r : Rule) : Bool :=
  rules.any fun s => Same s r

def upserted (rules : List Rule) (r : Rule) : List Rule :=
  if holds rules r then rules else rules ++ [r]

def removed (rules : List Rule) (r : Rule) : List Rule :=
  match rules.findIdx? fun s => Same s r with
  | none => rules
  | some i => rules.eraseIdx i

def effectReplaced (rules : List Rule) (old : Rule) (effect : Bytes) : List Rule :=
  match rules.findIdx? fun s => Same s old with
  | none => rules
  | some i =>
    match rules[i]? with
    | none => rules
    | some found =>
      if found.effect = effect then rules
      else if holds (rules.eraseIdx i) { found with effect := effect } then rules.eraseIdx i
      else rules.set i { found with effect := effect }

/-! ## The text rules are compared by -/

variable {rules : List Rule} {r s : Rule} {effect : Bytes} {i j : ℕ}

theorem sortStrings_perm {as bs : List Bytes} (h : as.Perm bs) :
    sortStrings as = sortStrings bs := by
  have hsorted : ∀ ss : List Bytes, (sortStrings ss).Pairwise (· ≤ ·) := by
    intro ss
    have hpairwise : (sortStrings ss).Pairwise fun a b => decide (a ≤ b) = true := by
      apply List.pairwise_mergeSort
      · intro a b c hab hbc
        simp only [decide_eq_true_eq] at hab hbc ⊢
        exact List.le_trans hab hbc
      · intro a b
        simp only [Bool.or_eq_true, decide_eq_true_eq]
        exact List.le_total a b
    apply hpairwise.imp
    intro a b hab
    simpa only [decide_eq_true_eq] using hab
  refine List.Perm.eq_of_pairwise ?_ (hsorted as) (hsorted bs) ?_
  · intro a b _ _ hab hba
    exact List.le_antisymm hab hba
  · exact (List.mergeSort_perm as _).trans (h.trans (List.mergeSort_perm bs _).symm)

/-- The same rules have the same text. -/
theorem signature_of_same (h : Same r s) : signature r = signature s := by
  rw [signature, signature, joined, joined, joined, joined, h.capability, h.effect,
    sortStrings_perm h.matching, sortStrings_perm h.exclude]

/-- Rules that differ in their effect alone have different texts. -/
theorem signature_withEffect (h : signature { r with effect := effect } = signature r) :
    effect = r.effect := by
  rw [signature, signature] at h
  have htail := List.append_cancel_left h
  rw [List.cons.injEq] at htail
  exact List.append_cancel_right htail.2

/-! ## Places -/

section Places

variable {α : Type} {p : α → Bool}

/-- Taking out either of two places gives one list only where these hold the same value. -/
theorem getElem_of_tail {l : List α} {a : α} {k : ℕ} (hk : k < l.length)
    (h : l = a :: l.eraseIdx k) : l[k] = a := by
  induction l generalizing a k with
  | nil => simp at hk
  | cons b l ih =>
    cases k with
    | zero =>
      rw [List.cons.injEq] at h
      exact h.1
    | succ k =>
      rw [List.eraseIdx_cons_succ, List.cons.injEq] at h
      rw [List.length_cons] at hk
      rw [List.getElem_cons_succ, ← h.1]
      exact ih (by omega) h.2

theorem getElem_of_eraseIdx {l : List α} {i j : ℕ} (hij : i ≤ j) (hj : j < l.length)
    (h : l.eraseIdx i = l.eraseIdx j) : l[i] = l[j] := by
  induction l generalizing i j with
  | nil => simp at hj
  | cons a l ih =>
    cases i with
    | zero =>
      cases j with
      | zero => rfl
      | succ j =>
        rw [List.eraseIdx_cons_zero, List.eraseIdx_cons_succ] at h
        rw [List.length_cons] at hj
        rw [List.getElem_cons_succ, List.getElem_cons_zero]
        exact (getElem_of_tail (by omega) h).symm
    | succ i =>
      cases j with
      | zero => omega
      | succ j =>
        rw [List.eraseIdx_cons_succ, List.eraseIdx_cons_succ, List.cons.injEq] at h
        rw [List.length_cons] at hj
        exact ih (by omega) (by omega) h.2

theorem countP_set {l : List α} {a : α} (hi : i < l.length) :
    (l.set i a).countP p = (l.eraseIdx i).countP p + if p a then 1 else 0 := by
  rw [List.set_eq_take_append_cons_drop, if_pos hi, List.eraseIdx_eq_take_drop_succ,
    List.countP_append, List.countP_append, List.countP_cons]
  omega

end Places

/-! ## No second copy -/

/-- How many rules of a list are the same as `q`. -/
def copies (rules : List Rule) (q : Rule) : ℕ :=
  rules.countP fun s => Same s q

theorem copies_eq_zero (h : holds rules r = false) {q : Rule} (hq : Same r q) :
    copies rules q = 0 := by
  rw [copies, List.countP_eq_zero]
  intro s hs hsame
  rw [holds, List.any_eq_false] at h
  rw [decide_eq_true_eq] at hsame
  exact h s hs (decide_eq_true (hsame.trans hq.symm))

theorem copies_upserted (rules : List Rule) (r q : Rule) :
    copies (upserted rules r) q ≤ max 1 (copies rules q) := by
  rw [upserted]
  split
  · exact Nat.le_max_right _ _
  · next hfree =>
    rw [Bool.not_eq_true] at hfree
    rw [copies, List.countP_append, ← copies]
    by_cases hq : Same r q
    · rw [copies_eq_zero hfree hq]
      simp [hq]
    · simp only [List.countP_singleton, hq, decide_false, Bool.false_eq_true, if_false, Nat.add_zero]
      exact Nat.le_max_right _ _

theorem copies_eraseIdx (rules : List Rule) (i : ℕ) (q : Rule) :
    copies (rules.eraseIdx i) q ≤ max 1 (copies rules q) :=
  Nat.le_trans (List.eraseIdx_sublist rules i).countP_le (Nat.le_max_right _ _)

theorem copies_removed (rules : List Rule) (r q : Rule) :
    copies (removed rules r) q ≤ max 1 (copies rules q) := by
  rw [removed]
  split
  · exact Nat.le_max_right _ _
  · exact copies_eraseIdx rules _ q

theorem copies_effectReplaced (rules : List Rule) (r : Rule) (effect : Bytes) (q : Rule) :
    copies (effectReplaced rules r effect) q ≤ max 1 (copies rules q) := by
  rw [effectReplaced]
  split
  · exact Nat.le_max_right _ _
  · next i hi =>
    split
    · exact Nat.le_max_right _ _
    · next found hfound =>
      split
      · exact Nat.le_max_right _ _
      · split
        · exact copies_eraseIdx rules i q
        · next hfree =>
          rw [Bool.not_eq_true] at hfree
          obtain ⟨hlt, _⟩ := List.getElem?_eq_some_iff.1 hfound
          have herase := copies_eraseIdx rules i q
          rw [copies, countP_set hlt]
          by_cases hq : Same { found with effect := effect } q
          · have hzero := copies_eq_zero hfree hq
            rw [copies] at hzero
            rw [hzero]
            simp only [hq, decide_true, if_true]
            exact Nat.le_max_left _ _
          · simpa only [copies, hq, decide_false, Bool.false_eq_true, if_false, Nat.add_zero]
              using herase

/-! ## When the operations do it -/

/-- The edits of a rule do what they are to do: below the cap an upsert appends the rule unless the
list holds it, a removal takes out the first one that is the same, a replacement gives that one the
new effect or takes it out where the result is there, and none adds a second copy. -/
structure EditsExactly (rules : List Rule) (r : Rule) (effect : Bytes) : Prop where
  upsert : rules.length < maxRulesPerFile →
    ∃ changed, upsert rules r = .ok (changed, upserted rules r)
  remove : (remove rules r).2 = removed rules r
  replaceEffect : (replaceEffect rules r effect).2 = effectReplaced rules r effect
  single : ∀ q, copies (upserted rules r) q ≤ max 1 (copies rules q)
    ∧ copies (removed rules r) q ≤ max 1 (copies rules q)
    ∧ copies (effectReplaced rules r effect) q ≤ max 1 (copies rules q)

/-- The first rule with the text of the rule named is the first that is the same, and another rule
has the text of the rule its edit results in only where another is the same as that. -/
structure Apart (rules : List Rule) (r : Rule) (effect : Bytes) : Prop where
  named : (rules.findIdx? fun s => signature s = signature r)
    = rules.findIdx? fun s => Same s r
  result : ∀ i, (rules.findIdx? fun s => Same s r) = some i → effect ≠ r.effect →
    has (rules.eraseIdx i) { r with effect := effect }
      = holds (rules.eraseIdx i) { r with effect := effect }

theorem any_eq_isSome_findIdx? {α : Type} (l : List α) (p : α → Bool) :
    l.any p = (l.findIdx? p).isSome := by
  rw [List.findIdx?_isSome]

theorem has_congr (h : Same r s) : has rules r = has rules s := by
  rw [has, has, signature_of_same h]

theorem holds_congr (h : Same r s) : holds rules r = holds rules s := by
  rw [Bool.eq_iff_iff, holds, holds, List.any_eq_true, List.any_eq_true]
  apply exists_congr
  intro t
  apply and_congr_right
  intro _
  rw [decide_eq_true_eq, decide_eq_true_eq]
  exact ⟨fun ht => ht.trans h, fun ht => ht.trans h.symm⟩

/-- What both replacements do once they agree on the rule found. -/
theorem replaceEffect_found {found : Rule} (hsig : (rules.findIdx? fun s =>
      signature s = signature r) = some i) (hget : rules[i]? = some found) (hsame : Same found r) :
    (replaceEffect rules r effect).2
      = if effect = r.effect then rules
        else if has (rules.eraseIdx i) { r with effect := effect } then rules.eraseIdx i
        else rules.set i { found with effect := effect } := by
  have hnext : signature { found with effect := effect } = signature { r with effect := effect } :=
    signature_of_same (hsame.withEffect effect)
  rw [replaceEffect, hsig]
  simp only [hget]
  by_cases heffect : effect = r.effect
  · rw [if_pos (by rw [hnext, heffect]), if_pos heffect]
  · rw [if_neg heffect, if_neg]
    · rw [has_congr (hsame.withEffect effect)]
      split <;> rfl
    · rw [hnext]
      exact fun h => heffect (signature_withEffect h)

theorem effectReplaced_found {found : Rule} (hidx : (rules.findIdx? fun s => Same s r) = some i)
    (hget : rules[i]? = some found) (hsame : Same found r) :
    effectReplaced rules r effect
      = if effect = r.effect then rules
        else if holds (rules.eraseIdx i) { r with effect := effect } then rules.eraseIdx i
        else rules.set i { found with effect := effect } := by
  rw [effectReplaced, hidx]
  simp only [hget]
  rw [hsame.effect, holds_congr (hsame.withEffect effect)]
  by_cases heffect : effect = r.effect
  · rw [if_pos heffect, if_pos heffect.symm]
  · rw [if_neg heffect, if_neg (Ne.symm heffect)]

/-- The first rule that is the same, at its place. -/
theorem exists_found (h : (rules.findIdx? fun s => Same s r) = some i) :
    ∃ found, rules[i]? = some found ∧ Same found r := by
  obtain ⟨hlt, hsame, _⟩ := List.findIdx?_eq_some_iff_getElem.1 h
  exact ⟨rules[i], List.getElem?_eq_getElem hlt, of_decide_eq_true hsame⟩

/-- A removal by the text takes out the first rule that is the same only where it is the first with
the text. -/
theorem named_of_remove (h : (remove rules r).2 = removed rules r) :
    (rules.findIdx? fun s => signature s = signature r) = rules.findIdx? fun s => Same s r := by
  cases hsig : rules.findIdx? fun s => signature s = signature r with
  | none =>
    symm
    rw [List.findIdx?_eq_none_iff] at hsig ⊢
    intro s hs
    rw [decide_eq_false_iff_not]
    intro hsame
    exact of_decide_eq_false (hsig s hs) (signature_of_same hsame)
  | some i =>
    obtain ⟨hi, hsigned, hfirst⟩ := List.findIdx?_eq_some_iff_getElem.1 hsig
    cases hidx : rules.findIdx? fun s => Same s r with
    | none =>
      rw [remove, removed, hsig, hidx] at h
      have hlength : (rules.eraseIdx i).length = rules.length := congrArg List.length h
      rw [List.length_eraseIdx_of_lt hi] at hlength
      omega
    | some j =>
      obtain ⟨hj, hsame, hleast⟩ := List.findIdx?_eq_some_iff_getElem.1 hidx
      have hle : i ≤ j := by
        by_contra hlt
        have hno := hfirst j (by omega)
        exact hno (decide_eq_true (signature_of_same (of_decide_eq_true hsame)))
      rw [remove, removed, hsig, hidx] at h
      have hvalue := getElem_of_eraseIdx hle hj h
      rcases Nat.lt_or_eq_of_le hle with hlt | rfl
      · have hno := hleast i hlt
        rw [hvalue] at hno
        exact absurd hsame hno
      · rfl

/-- The edits of a rule do what they are to do exactly when no other rule takes the place of the one
named, or of the one its edit results in, by having its text. -/
theorem editsExactly_iff (rules : List Rule) (r : Rule) (effect : Bytes) :
    EditsExactly rules r effect ↔ Apart rules r effect := by
  constructor
  · intro h
    have hnamed := named_of_remove h.remove
    refine ⟨hnamed, ?_⟩
    intro i hidx heffect
    obtain ⟨found, hget, hsame⟩ := exists_found hidx
    obtain ⟨hlt, _⟩ := List.getElem?_eq_some_iff.1 hget
    have hreplace := h.replaceEffect
    rw [replaceEffect_found (hnamed.trans hidx) hget hsame, effectReplaced_found hidx hget hsame,
      if_neg heffect, if_neg heffect] at hreplace
    have hlength : (rules.eraseIdx i).length ≠ (rules.set i { found with effect := effect }).length := by
      rw [List.length_eraseIdx_of_lt hlt, List.length_set]
      omega
    cases hhas : has (rules.eraseIdx i) { r with effect := effect } with
    | true =>
      cases hholds : holds (rules.eraseIdx i) { r with effect := effect } with
      | true => rfl
      | false =>
        rw [hhas, hholds] at hreplace
        exact absurd (congrArg List.length hreplace) hlength
    | false =>
      cases hholds : holds (rules.eraseIdx i) { r with effect := effect } with
      | true =>
        rw [hhas, hholds] at hreplace
        exact absurd (congrArg List.length hreplace).symm hlength
      | false => rfl
  · intro h
    refine ⟨?_, ?_, ?_, fun q => ⟨copies_upserted rules r q, copies_removed rules r q,
      copies_effectReplaced rules r effect q⟩⟩
    · intro hcap
      have hsame : has rules r = holds rules r := by
        rw [has, holds, any_eq_isSome_findIdx?, any_eq_isSome_findIdx?, h.named]
      rw [upsert, if_neg (by omega), upserted, hsame]
      split
      · exact ⟨false, rfl⟩
      · exact ⟨true, rfl⟩
    · rw [remove, removed, h.named]
      cases rules.findIdx? fun s => Same s r with
      | none => rfl
      | some i => rfl
    · cases hidx : rules.findIdx? fun s => Same s r with
      | none => rw [replaceEffect, effectReplaced, h.named, hidx]
      | some i =>
        obtain ⟨found, hget, hsame⟩ := exists_found hidx
        rw [replaceEffect_found (h.named.trans hidx) hget hsame,
          effectReplaced_found hidx hget hsame]
        by_cases heffect : effect = r.effect
        · rw [if_pos heffect, if_pos heffect]
        · rw [if_neg heffect, if_neg heffect, h.result i hidx heffect]

/-- A rule for one pattern with a comma in it. -/
def braced : Rule where
  capability := ascii "shell"
  effect := ascii "allow"
  matching := [ascii "git,ls"]
  exclude := []

/-- A rule for the two patterns on the sides of the comma. -/
def paired : Rule where
  capability := ascii "shell"
  effect := ascii "allow"
  matching := [ascii "git", ascii "ls"]
  exclude := []

/-- A rule the cleaning accepts is not written beside one whose pattern holds a comma where it has
two patterns. -/
theorem paired_notWritten : sanitizeRule paired = .ok paired ∧
    upsert [braced] paired = .ok (false, [braced]) ∧
    ¬ EditsExactly [braced] paired paired.effect := by
  have hclean : sanitizeRule paired = .ok paired := by
    decide +kernel
  have hsig : signature braced = signature paired := by
    have hsorted : sortStrings [ascii "git", ascii "ls"] = [ascii "git", ascii "ls"] := by
      have hle : ascii "git" ≤ ascii "ls" := by
        decide
      simp [sortStrings, List.mergeSort, List.merge, hle]
    have hsingle : sortStrings [ascii "git,ls"] = [ascii "git,ls"] := by
      simp [sortStrings]
    have hjoined : joined 109 braced.matching = joined 109 paired.matching := by
      rw [joined, joined, braced, paired, hsorted, hsingle]
      decide
    rw [signature, signature, hjoined]
    rfl
  have hupsert : upsert [braced] paired = .ok (false, [braced]) := by
    simp [upsert, has, hsig, maxRulesPerFile]
  have happended : upserted [braced] paired = [braced, paired] := by
    decide +kernel
  refine ⟨hclean, hupsert, ?_⟩
  intro h
  obtain ⟨changed, hchanged⟩ := h.upsert (by decide)
  rw [hupsert, happended] at hchanged
  simp at hchanged

end Marotte.Policy
