import Mathlib.Algebra.Ring.Nat
import Mathlib.Data.Int.Notation
import Mathlib.Data.List.Basic
import Mathlib.Data.List.Infix
import Mathlib.Data.List.TakeWhile

/-! # Steering acknowledgements in streamed text

The agent closes a reply with `[STEERING steer-<id>: …]`, split across any number of deltas.
Complete markers are removed, and a tail that could still grow into one is withheld.
-/
namespace Marotte.Projection

/-- What commits a `[` to being a marker. -/
def steerAckPrefix : List Char := "[STEERING steer-".toList

/-- The most that may be withheld, in bytes. -/
def maxSteerCarry : ℕ := 8192

/-- A character of the steer's id: neither a blank nor a colon. -/
def idChar (c : Char) : Bool :=
  c ≠ ' ' && c ≠ '\t' && c ≠ '\n' && c ≠ '\x0c' && c ≠ '\r' && c ≠ ':'

/-- What follows a complete marker at the head: an id, `: `, and at least one character up to
the first `]`. -/
def matchAck (s : List Char) : Option (List Char) :=
  if steerAckPrefix.isPrefixOf s then
    let t := s.drop steerAckPrefix.length
    if t.takeWhile idChar = [] then none
    else match t.dropWhile idChar with
      | ':' :: ' ' :: _ :: body =>
        match body.dropWhile (· ≠ ']') with
        | ']' :: rest => some rest
        | _ => none
      | _ => none
  else none

/-- The first complete marker: what comes before it, and after it. -/
def findAck : List Char → Option (List Char × List Char)
  | [] => none
  | c :: s =>
    match matchAck (c :: s) with
    | some rest => some ([], rest)
    | none => (findAck s).map fun r => (c :: r.1, r.2)

/-- The text before the last complete marker with every marker removed, and the text after. -/
def removeAcks : ℕ → List Char → List Char → List Char × List Char
  | 0, settled, s => (settled, s)
  | fuel + 1, settled, s =>
    match findAck s with
    | some (before, rest) => removeAcks fuel (settled ++ before) rest
    | none => (settled, s)

/-- Whether a text at a `[` might still turn into a complete marker. -/
def couldBecomeSteerAck (s : List Char) : Bool :=
  if s.length < steerAckPrefix.length then s.isPrefixOf steerAckPrefix
  else steerAckPrefix.isPrefixOf s && !s.contains ']'

def utf8Len (s : List Char) : ℕ := (s.map Char.utf8Size).sum

/-- Hold from the first candidate, unless it is too long to be one. -/
def holdTail : List Char → List Char × List Char
  | [] => ([], [])
  | c :: s =>
    if c = '[' ∧ couldBecomeSteerAck (c :: s) then
      if maxSteerCarry < utf8Len (c :: s) then (c :: s, []) else ([], c :: s)
    else (c :: (holdTail s).1, (holdTail s).2)

/-- The text safe to emit, and what is still withheld. -/
def stripSteerAcks (carry incoming : List Char) : List Char × List Char :=
  let joined := carry ++ incoming
  let (settled, tail) := removeAcks joined.length [] joined
  (settled ++ (holdTail tail).1, (holdTail tail).2)

/-! ## What is struck out -/

/-- A complete marker: an id, `: `, and a body of at least one character up to the first `]`. -/
def Ack (m : List Char) : Prop :=
  ∃ id c body, m = steerAckPrefix ++ (id ++ ':' :: ' ' :: c :: (body ++ [']'])) ∧ id ≠ [] ∧
    (∀ x ∈ id, idChar x = true) ∧ ']' ∉ body

/-- The second text is the first with markers struck out: complete ones, and ones that were
opened and never closed. -/
inductive Struck : List Char → List Char → Prop
  | nil : Struck [] []
  | keep (c : Char) {w t : List Char} (h : Struck w t) : Struck (c :: w) (c :: t)
  | ack {m w t : List Char} (hm : Ack m) (h : Struck w t) : Struck (m ++ w) t
  | cut {m w t : List Char} (hm : steerAckPrefix <+: m) (hc : ']' ∉ m) (h : Struck w t) :
      Struck (m ++ w) t

namespace Struck

variable {w w' t t' : List Char}

theorem append (h : Struck w t) (h' : Struck w' t') : Struck (w ++ w') (t ++ t') := by
  induction h with
  | nil => exact h'
  | keep c _ ih => exact ih.keep c
  | ack hm _ ih =>
    rw [List.append_assoc]
    exact ih.ack hm
  | cut hm hc _ ih =>
    rw [List.append_assoc]
    exact ih.cut hm hc

theorem refl (w : List Char) : Struck w w := by
  induction w with
  | nil => exact .nil
  | cons c w ih => exact ih.keep c

theorem of_ack (hm : Ack w) : Struck w [] := by
  have h := Struck.nil.ack hm
  rwa [List.append_nil] at h

theorem of_cut (hm : steerAckPrefix <+: w) (hc : ']' ∉ w) : Struck w [] := by
  have h := Struck.nil.cut hm hc
  rwa [List.append_nil] at h

end Struck

theorem dropWhile_cons {α : Type*} {p : α → Bool} {l : List α} {a : α} {rest : List α}
    (h : l.dropWhile p = a :: rest) :
    l = l.takeWhile p ++ a :: rest ∧ p a = false ∧ ∀ x ∈ l.takeWhile p, p x = true := by
  refine ⟨?_, ?_, fun x hx => List.mem_takeWhile_imp hx⟩
  · rw [← h, List.takeWhile_append_dropWhile]
  · have hne : l.dropWhile p ≠ [] := by simp [h]
    have hhead := List.head_dropWhile_not p hne
    simpa [h] using hhead

theorem matchAck_some {s rest : List Char} (h : matchAck s = some rest) :
    ∃ m, Ack m ∧ s = m ++ rest := by
  unfold matchAck at h
  split at h
  · next hprefix =>
    obtain ⟨t, rfl⟩ := List.isPrefixOf_iff_prefix.mp hprefix
    rw [List.drop_left] at h
    dsimp only at h
    split at h
    · cases h
    · next hid =>
      split at h
      · next c body hdrop =>
        split at h
        · next rest' hbody =>
          obtain rfl := Option.some_inj.mp h
          obtain ⟨ht, _, hids⟩ := dropWhile_cons hdrop
          obtain ⟨hb, _, hbodies⟩ := dropWhile_cons hbody
          refine ⟨_, ⟨t.takeWhile idChar, c, body.takeWhile (· ≠ ']'), rfl, hid, hids, ?_⟩, ?_⟩
          · intro hm
            simpa using hbodies ']' hm
          · conv_lhs => rw [ht, hb]
            simp
        · cases h
      · cases h
  · cases h

theorem findAck_some {s before rest : List Char} (h : findAck s = some (before, rest)) :
    ∃ m, Ack m ∧ s = before ++ (m ++ rest) := by
  induction s generalizing before with
  | nil => cases h
  | cons c s ih =>
    unfold findAck at h
    split at h
    · next rest' hm =>
      obtain ⟨rfl, rfl⟩ := Prod.mk.inj (Option.some_inj.mp h)
      exact matchAck_some hm
    · obtain ⟨⟨before', rest'⟩, hf, he⟩ := Option.map_eq_some_iff.mp h
      obtain ⟨rfl, rfl⟩ := Prod.mk.inj he
      obtain ⟨m, hm, hs⟩ := ih hf
      exact ⟨m, hm, by rw [hs]; rfl⟩

theorem removeAcks_struck (fuel : ℕ) (settled s : List Char) {w : List Char}
    (hw : Struck w settled) : ∃ u, w ++ s = u ++ (removeAcks fuel settled s).2 ∧
      Struck u (removeAcks fuel settled s).1 := by
  induction fuel generalizing settled s w with
  | zero => exact ⟨w, rfl, hw⟩
  | succ fuel ih =>
    unfold removeAcks
    split
    · next before rest hf =>
      obtain ⟨m, hm, rfl⟩ := findAck_some hf
      have hstruck : Struck (w ++ (before ++ m)) (settled ++ before) := by
        have h := hw.append ((Struck.refl before).append (Struck.of_ack hm))
        rwa [List.append_nil] at h
      obtain ⟨u, hu, hs⟩ := ih (settled ++ before) rest hstruck
      exact ⟨u, by rw [← hu]; simp, hs⟩
    · exact ⟨w, rfl, hw⟩

theorem holdTail_append (s : List Char) : (holdTail s).1 ++ (holdTail s).2 = s := by
  induction s with
  | nil => rfl
  | cons c s ih =>
    unfold holdTail
    split
    · split
      · exact List.append_nil _
      · rfl
    · rw [List.cons_append, ih]

/-- What is withheld could still become a marker. -/
theorem holdTail_held (s : List Char) :
    (holdTail s).2 = [] ∨ couldBecomeSteerAck (holdTail s).2 = true := by
  induction s with
  | nil => exact .inl rfl
  | cons c s ih =>
    unfold holdTail
    split
    · next hc =>
      split
      · exact .inl rfl
      · exact .inr hc.2
    · exact ih

/-- Every character is emitted, withheld, or part of a marker; what is withheld comes last. -/
theorem stripSteerAcks_struck (carry incoming : List Char) :
    ∃ u, carry ++ incoming = u ++ (stripSteerAcks carry incoming).2 ∧
      Struck u (stripSteerAcks carry incoming).1 := by
  obtain ⟨u, hu, hs⟩ := removeAcks_struck (carry ++ incoming).length [] (carry ++ incoming) .nil
  refine ⟨u ++ (holdTail (removeAcks (carry ++ incoming).length [] (carry ++ incoming)).2).1,
    ?_, hs.append (.refl _)⟩
  rw [List.nil_append] at hu
  conv_lhs => rw [hu]
  simp only [stripSteerAcks, List.append_assoc]
  rw [holdTail_append]

/-- A withheld tail that carries the whole prefix is a marker that was never closed. -/
theorem stripSteerAcks_open {carry incoming : List Char}
    (h : steerAckPrefix <+: (stripSteerAcks carry incoming).2) :
    ']' ∉ (stripSteerAcks carry incoming).2 := by
  have hheld := holdTail_held (removeAcks (carry ++ incoming).length [] (carry ++ incoming)).2
  change steerAckPrefix <+: (holdTail _).2 at h
  change ']' ∉ (holdTail _).2
  rcases hheld with hnil | hcould
  · rw [hnil]
    exact List.not_mem_nil
  · unfold couldBecomeSteerAck at hcould
    have hlen := h.length_le
    rw [if_neg (by omega)] at hcould
    simp only [Bool.and_eq_true, Bool.not_eq_true', List.contains_eq_mem,
      decide_eq_false_iff_not] at hcould
    exact hcould.2

end Marotte.Projection
