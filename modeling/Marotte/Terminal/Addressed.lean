import Marotte.Terminal.Stretches

/-! # Spans address the text

What the calls of a parser emit is valid text without ESC, the spans lie in it one behind the other
with colours a terminal knows, and the text is what remains of the input where no character is
broken by the release of a sequence.
-/
namespace Marotte.Terminal

open Runes

variable {cur st : Style} {a b h held s t x r : Bytes} {xs ys : List Stretch} {n : ℕ}
  {chunks : List Bytes}

/-! ## The text -/

/-- Text before a string is text of its first stretch. -/
theorem stretches_behind (hh : ESC ∉ h) (b : Bytes) :
    openEscape (h ++ b) = openEscape b
      ∧ ∀ zs, readBehind [] (segments (stretches (h ++ b) ++ zs))
        = readBehind h (segments (stretches b ++ zs)) := by
  by_cases hb : ESC ∈ b
  · obtain ⟨x, r, rfl, hx⟩ := List.eq_append_cons_of_mem hb
    have hhx : ESC ∉ h ++ x := by simp [hh, hx]
    rw [← List.append_assoc]
    cases hscan : scanEscape .default (ESC :: r) with
    | none =>
      rw [openEscape_held hhx hscan, openEscape_held hx hscan, stretches_held hhx hscan,
        stretches_held hx hscan]
      refine ⟨rfl, fun zs => ?_⟩
      rw [List.singleton_append, readBehind_text, List.singleton_append, readBehind_text,
        List.nil_append]
    | some p =>
      obtain ⟨n, st⟩ := p
      have hsequence := fun x (hx : ESC ∉ x) => stretches_sequence hx hscan
      have hescape := fun x (hx : ESC ∉ x) => openEscape_sequence hx hscan
      rw [hsequence _ hhx, hsequence _ hx, hescape _ hhx, hescape _ hx]
      refine ⟨rfl, fun zs => ?_⟩
      simp only [List.cons_append, readBehind_text, List.nil_append]
  · have hhb : ESC ∉ h ++ b := by simp [hh, hb]
    rw [openEscape_text hhb, openEscape_text hb, stretches_text hhb, stretches_text hb]
    refine ⟨rfl, fun zs => ?_⟩
    rw [List.singleton_append, readBehind_text, List.singleton_append, readBehind_text,
      List.nil_append]

theorem neutralizeESC_text (hh : ESC ∉ h) : neutralizeESC h = h := by
  rw [neutralizeESC]
  induction h with
  | nil => rfl
  | cons b h ih =>
    rw [List.mem_cons, not_or] at hh
    rw [List.flatMap_cons, ih hh.2, if_neg (Ne.symm hh.1), List.singleton_append]

/-- The characters of a stream are those of its stretches as they are written: a text waits, or a
sequence that is not terminated. -/
theorem streamed_chars (cur : Style) (hh : ESC ∉ h)
    (hheld : held = [] ∨ h = [] ∧ ∃ r, held = ESC :: r ∧ ∀ cur, scanEscape cur (ESC :: r) = none)
    (chunks : List Bytes) :
    (streamed cur (h ++ held) chunks).map Prod.fst
      = readChars (readBehind h (segments (streamStretches held chunks))) := by
  induction chunks generalizing cur h held with
  | nil =>
    rw [streamed, map_painted, streamStretches]
    rcases hheld with rfl | ⟨rfl, r, rfl, -⟩
    · rw [if_pos rfl, List.append_nil, neutralizeESC_text hh, segments, readBehind_cut,
        List.append_nil, readAll, List.flatMap_nil, List.append_nil]
    · rw [if_neg (List.cons_ne_nil _ _), segments, readBehind_cut, List.nil_append,
        List.nil_append, segments, readAll, List.flatMap_cons, List.flatMap_nil, pieces_nil,
        List.append_nil, List.append_nil]
  | cons chunk chunks ih =>
    obtain ⟨hescape, hbehind⟩ := stretches_behind hh (held ++ chunk)
    obtain ⟨hclosed, hopen⟩ := styled_stretches cur (h ++ (held ++ chunk))
    rw [hescape] at hclosed hopen
    rw [streamed, List.append_assoc, List.map_append, streamStretches]
    rcases openEscape_cases (held ++ chunk) with hnil | ⟨r, hr, hnone⟩
    · obtain ⟨hpending, hout⟩ := hclosed hnil
      have hrest := ih (styled cur (h ++ (held ++ chunk))).cur hpending (.inl rfl)
      rw [List.append_nil] at hrest
      rw [hnil, if_neg (by simp), ← hbehind, hout, hrest]
    · obtain ⟨out, cur', hstyled, hout⟩ := hopen (by rw [hr]; exact List.cons_ne_nil _ _)
      rw [hr] at hstyled ⊢
      rw [hstyled, Scanned.after]
      split
      · next hlong =>
        rw [← hbehind]
        have hrest := ih cur' (List.not_mem_nil (a := ESC)) (.inl rfl)
        rw [List.append_nil] at hrest
        rw [hout _ (fresh_released _ _), unterminated, if_pos hlong]
        simp only
        rw [hrest, segments, readBehind_cut, List.nil_append,
          ← readBehind_nil _ (segments_ne_nil _), List.map_append, map_painted, readChars, readChars,
          readChars, List.map_append, List.append_assoc]
      · next hshort =>
        rw [← hbehind]
        have hrest := ih cur' (List.not_mem_nil (a := ESC)) (.inr ⟨rfl, r, rfl, hnone⟩)
        rw [List.nil_append] at hrest
        rw [hout _ (fresh_streamStretches r chunks (hnone _)), unterminated, if_neg hshort]
        simp only
        rw [hrest, List.append_nil]

theorem escapes_streamStretches (hheld : held = [] ∨ ∃ r, held = ESC :: r) (chunks : List Bytes) :
    Escapes (streamStretches held chunks) := by
  have hnone : ∀ b s, .released s ∉ stretches b := fun b => by
    induction Style.default, b using scan_induction with
    | htext cur x hx => simp [stretches_text hx]
    | hheld cur x r hx h => simp [stretches_held hx h]
    | hsequence cur x r n st hx h ih => simpa [stretches_sequence hx h] using ih
  induction chunks generalizing held with
  | nil =>
    rw [streamStretches]
    split
    · exact fun s hs => absurd hs List.not_mem_nil
    · next hne =>
      intro s hs
      rw [Stretch.released.inj (List.mem_singleton.1 hs)]
      exact hheld.resolve_left hne
  | cons chunk chunks ih =>
    have hescape : openEscape (held ++ chunk) = [] ∨ ∃ r, openEscape (held ++ chunk) = ESC :: r :=
      (openEscape_cases (held ++ chunk)).imp_right (Exists.imp fun _ hr => hr.1)
    intro s hs
    rw [streamStretches] at hs
    split at hs
    · next hlong =>
      have hne : openEscape (held ++ chunk) ≠ [] := fun hnil => by
        rw [hnil] at hlong
        contradiction
      rcases List.mem_append.1 hs with hs | hs
      · exact absurd hs (hnone _ s)
      · rcases List.mem_cons.1 hs with hs | hs
        · rw [Stretch.released.inj hs]
          exact hescape.resolve_left hne
        · exact ih (.inl rfl) s hs
    · rcases List.mem_append.1 hs with hs | hs
      · exact absurd hs (hnone _ s)
      · exact ih hescape s hs

/-- The characters of a stream in order. -/
theorem streamed_segments (chunks : List Bytes) :
    (streamed .default [] chunks).map Prod.fst
      = readChars (readAll (segments (streamStretches [] chunks))) := by
  have hchars := streamed_chars .default (List.not_mem_nil (a := ESC)) (.inl rfl) chunks
  rw [readBehind_nil _ (segments_ne_nil _)] at hchars
  exact hchars

theorem remains_chars (xs : List Stretch) :
    remains xs = (readChars (readAll (runs xs))).flatMap String.utf8EncodeChar := by
  rw [remains, readChars, readAll, List.flatMap_map, List.flatMap_assoc]
  rfl

/-- What is emitted is what remains exactly where no character is broken. -/
theorem text_remains_iff (chunks : List Bytes) :
    (newParser.stream chunks).flatMap Call.text = remains (streamStretches [] chunks)
      ↔ Unbroken (streamStretches [] chunks) := by
  obtain ⟨-, hiff, heq⟩ := read_runs _ (escapes_streamStretches (.inl rfl) chunks) []
  rw [readBehind_nil _ (runs_ne_nil _), readBehind_nil _ (segments_ne_nil _)] at hiff heq
  have htext : (newParser.stream chunks).flatMap Call.text
      = (readChars (readAll (segments (streamStretches [] chunks)))).flatMap
          String.utf8EncodeChar := by
    rw [stream_text, ← streamed_segments, ← encoded_chars]
    rfl
  rw [htext, remains_chars]
  constructor
  · intro h
    have hlength := congrArg List.length (encodes_injective h)
    rw [readChars, readChars, List.length_map, List.length_map] at hlength
    exact hiff.1 hlength.symm
  · intro h
    rw [heq h]

/-- What is read of a text without ESC is not ESC. -/
theorem esc_pieces (hs : ESC ∉ s) {p : Piece} (hp : p ∈ pieces s) :
    ESC ∉ String.utf8EncodeChar p.char := by
  cases p with
  | rune c =>
    intro hesc
    refine hs ?_
    rw [← flatMap_pieces s]
    exact List.mem_flatMap.2 ⟨.rune c, hp, hesc⟩
  | stray b =>
    have hnot : ESC ∉ String.utf8EncodeChar replacement := by decide
    exact hnot

theorem esc_neutralizeESC (s : Bytes) : ESC ∉ neutralizeESC s := by
  rw [neutralizeESC, List.mem_flatMap]
  rintro ⟨b, -, hb⟩
  split at hb
  · have hnot : ESC ∉ String.utf8EncodeChar replacement := by decide
    exact hnot hb
  · next hne => exact hne (List.mem_singleton.1 hb).symm

/-! ## Colours -/

/-- The default, an entry of the palette or 24 bits with the flag. -/
def Colour (c : ℤ) : Prop :=
  c = colorDefault ∨ 0 ≤ c ∧ c ≤ 255 ∨ ∃ v : ℕ, v < 0x1000000 ∧ c = rgbFlag + v

def Style.Coloured (st : Style) : Prop :=
  Colour st.fg ∧ Colour st.bg

theorem coloured_default : Style.default.Coloured :=
  ⟨.inl rfl, .inl rfl⟩

theorem Style.Coloured.withFg (h : st.Coloured) {c : ℤ} (hc : Colour c) :
    Style.Coloured { st with fg := c } :=
  ⟨hc, h.2⟩

theorem Style.Coloured.withBg (h : st.Coloured) {c : ℤ} (hc : Colour c) :
    Style.Coloured { st with bg := c } :=
  ⟨h.1, hc⟩

theorem colour_index {c : ℤ} (hlo : 0 ≤ c) (hhi : c ≤ 255) : Colour c :=
  .inr (.inl ⟨hlo, hhi⟩)

theorem colour_palette (h : n ≤ 255) : Colour n :=
  .inr (.inl ⟨Int.natCast_nonneg n, Int.ofNat_le.2 h⟩)

theorem component_le (h : component s = some n) : n ≤ 255 := by
  rw [component, Option.filter_eq_some_iff] at h
  simpa using h.2

theorem colour_rgb {r g b : ℕ} (hr : r ≤ 255) (hg : g ≤ 255) (hb : b ≤ 255) :
    Colour (rgb r g b) := by
  have hlt : r <<< 16 ||| g <<< 8 ||| b < 2 ^ 24 := by
    have hr' : r <<< 16 < 2 ^ 24 := by rw [Nat.shiftLeft_eq]; omega
    have hg' : g <<< 8 < 2 ^ 24 := by rw [Nat.shiftLeft_eq]; omega
    exact Nat.or_lt_two_pow (Nat.or_lt_two_pow hr' hg') (by omega)
  refine .inr (.inr ⟨r <<< 16 ||| g <<< 8 ||| b, hlt, ?_⟩)
  have hflag : rgb r g b = 2 ^ 24 ||| (r <<< 16 ||| g <<< 8 ||| b) := by
    rw [rgb, Nat.or_assoc, Nat.or_assoc, Nat.or_assoc]
    rfl
  rw [hflag, Nat.or_comm, Nat.or_two_pow_eq_add_of_lt hlt, Nat.add_comm]
  rfl

theorem colour_extendedColor {fields : List Bytes} (h : (extendedColor fields).1 = some n) :
    Colour n := by
  rw [extendedColor.eq_def] at h
  split at h
  · contradiction
  · next mode rest =>
    split at h
    · rw [palette256.eq_def] at h
      split at h
      · exact colour_palette (component_le h)
      · contradiction
    · rw [trueColor.eq_def] at h
      split at h
      · simp only [Option.bind_eq_bind, Option.bind_eq_some_iff, Option.pure_def,
          Option.some.injEq] at h
        obtain ⟨r, hr, g, hg, b, hb, rfl⟩ := h
        exact colour_rgb (component_le hr) (component_le hg) (component_le hb)
      · contradiction
    · contradiction

theorem coloured_applyExtendedColor (h : cur.Coloured) (selector : ℕ) (fields : List Bytes) :
    (applyExtendedColor cur selector (extendedColor fields).1).Coloured := by
  rw [applyExtendedColor.eq_def]
  split
  · exact h
  · next c hc =>
    split
    · exact h.withFg (colour_extendedColor hc)
    · exact h.withBg (colour_extendedColor hc)

theorem coloured_applySGRParam (h : cur.Coloured) (n : ℕ) : (applySGRParam cur n).Coloured := by
  rw [applySGRParam.eq_def]
  split
  · exact h
  split
  · exact h
  split
  · exact coloured_default
  split
  · exact h.withFg (.inl rfl)
  split
  · exact h.withBg (.inl rfl)
  split
  · refine h.withFg (colour_index ?_ ?_) <;> omega
  split
  · refine h.withBg (colour_index ?_ ?_) <;> omega
  split
  · refine h.withFg (colour_index ?_ ?_) <;> omega
  split
  · refine h.withBg (colour_index ?_ ?_) <;> omega
  · exact h

theorem coloured_applyFields (h : cur.Coloured) (fields : List Bytes) :
    (applyFields cur fields).Coloured := by
  induction cur, fields using applyFields.induct with
  | case1 cur =>
    rw [applyFields]
    exact h
  | case2 cur field rest hnone ih =>
    rw [applyFields.eq_def]
    simp only [hnone]
    exact ih h
  | case3 cur field rest n hn hextended ih =>
    rw [applyFields.eq_def]
    simp only [hn, if_pos hextended]
    exact ih (coloured_applyExtendedColor h n rest)
  | case4 cur field rest n hn hplain ih =>
    rw [applyFields.eq_def]
    simp only [hn, if_neg hplain]
    exact ih (coloured_applySGRParam h n)

theorem coloured_applySGR (h : cur.Coloured) (params : Bytes) : (applySGR cur params).Coloured := by
  rw [applySGR]
  split
  · exact coloured_default
  · split
    · exact h
    · exact coloured_applyFields h _

theorem coloured_scanCSI (h : cur.Coloured) (hscan : scanCSI cur b = some (n, st)) :
    st.Coloured := by
  rw [scanCSI.eq_def] at hscan
  simp only at hscan
  split at hscan
  · contradiction
  split at hscan
  · split at hscan
    · rw [← (Prod.mk.inj (Option.some.inj hscan)).2]
      exact h
    · rw [← (Prod.mk.inj (Option.some.inj hscan)).2]
      exact coloured_applySGR h _
  · rw [← (Prod.mk.inj (Option.some.inj hscan)).2]
    exact h

theorem scanStringTerminated_style (h : scanStringTerminated cur b = some (n, st)) : cur = st := by
  obtain ⟨m, -, hm⟩ := Option.map_eq_some_iff.1 h
  exact (Prod.mk.inj hm).2

theorem coloured_scanEscape (h : cur.Coloured) (hscan : scanEscape cur b = some (n, st)) :
    st.Coloured := by
  rw [scanEscape.eq_def] at hscan
  split at hscan
  · split at hscan
    · exact coloured_scanCSI h hscan
    split at hscan
    · exact scanStringTerminated_style hscan ▸ h
    split at hscan
    · split at hscan
      · contradiction
      · exact (Prod.mk.inj (Option.some.inj hscan)).2 ▸ h
    split at hscan
    · exact scanStringTerminated_style hscan ▸ h
    · exact (Prod.mk.inj (Option.some.inj hscan)).2 ▸ h
  · contradiction

/-! ## The characters of a stream -/

/-- Characters other than ESC in styles of colours a terminal knows. -/
def Printed (out : List (Char × Style)) : Prop :=
  ∀ p ∈ out, p.2.Coloured ∧ ESC ∉ String.utf8EncodeChar p.1

theorem Printed.append {out out' : List (Char × Style)} (h : Printed out) (h' : Printed out') :
    Printed (out ++ out') :=
  List.forall_mem_append.2 ⟨h, h'⟩

theorem printed_painted (h : cur.Coloured) (hs : ESC ∉ s) : Printed (painted cur s) := by
  intro p hp
  obtain ⟨q, hq, rfl⟩ := List.mem_map.1 hp
  exact ⟨h, esc_pieces hs hq⟩

theorem printed_styled (h : cur.Coloured) (b : Bytes) :
    Printed (styled cur b).out ∧ (styled cur b).cur.Coloured := by
  induction cur, b using scan_induction with
  | htext cur x hx =>
    rw [styled_text hx]
    refine ⟨printed_painted h fun hmem => hx ?_, h⟩
    rw [← settled_append_heldTail x]
    exact List.mem_append_left _ hmem
  | hheld cur x r hx hnone =>
    rw [styled_held hx hnone, Scanned.after, unterminated]
    split
    · exact ⟨(printed_painted h hx).append (printed_painted h (esc_neutralizeESC _)), h⟩
    · rw [List.append_nil]
      exact ⟨printed_painted h hx, h⟩
  | hsequence cur x r n st hx hsome ih =>
    obtain ⟨hprinted, hcur⟩ := ih (coloured_scanEscape h hsome)
    rw [styled_sequence hx hsome, Scanned.after]
    exact ⟨(printed_painted h hx).append hprinted, hcur⟩

theorem printed_streamed (h : cur.Coloured) (pending : Bytes) (chunks : List Bytes) :
    Printed (streamed cur pending chunks) := by
  induction chunks generalizing cur pending with
  | nil => exact printed_painted h (esc_neutralizeESC pending)
  | cons chunk chunks ih =>
    obtain ⟨hprinted, hcur⟩ := printed_styled h (pending ++ chunk)
    exact hprinted.append (ih hcur _)

/-- What the calls on the chunks emit: valid text without ESC, spans that lie in it one behind the
other and are neither empty nor of the default style, and of the stretches of the input the text
that is not removed, its invalid bytes and the ESC bytes released with it replaced one for one. -/
structure Addressed (chunks : List Bytes) : Prop where
  valid : ∀ b, .stray b ∉ pieces ((newParser.stream chunks).flatMap Call.text)
  clean : ESC ∉ (newParser.stream chunks).flatMap Call.text
  within : Within 0 (utf16Len ((newParser.stream chunks).flatMap Call.text))
    ((newParser.stream chunks).flatMap Call.spans)
  coloured : ∀ s ∈ (newParser.stream chunks).flatMap Call.spans, s.style.Coloured
  whole : (streamStretches [] chunks).flatMap Stretch.bytes = chunks.flatten
  remaining : (newParser.stream chunks).flatMap Call.text = remains (streamStretches [] chunks)

theorem neutralizeESC_append (s t : Bytes) :
    neutralizeESC (s ++ t) = neutralizeESC s ++ neutralizeESC t := by
  rw [neutralizeESC, List.flatMap_append, neutralizeESC, neutralizeESC]

theorem terminated_none (h : ∀ c ∈ s, c ≠ 0x07 ∧ c ≠ ESC) : terminated s = none := by
  induction s with
  | nil => rfl
  | cons c s ih =>
    rw [List.forall_mem_cons] at h
    rw [terminated, if_neg h.1.1, if_neg fun hesc => h.1.2 hesc.1, ih h.2, Option.map_none]

/-- An operating system command without its terminator. -/
def commandStart (s : Bytes) : Bytes :=
  ESC :: 0x5d :: s

theorem scanEscape_command (cur : Style) (s : Bytes) :
    scanEscape cur (commandStart s) = (terminated s).map fun n => (n + 2, cur) := by
  refine (scanEscape.eq_def ..).trans ?_
  rw [commandStart]
  simp only
  rw [if_neg (by decide), if_pos trivial, scanStringTerminated, List.drop_succ_cons,
    List.drop_succ_cons, List.drop_zero]

theorem commandStart_open (h : ∀ c ∈ s, c ≠ 0x07 ∧ c ≠ ESC) (cur : Style) :
    scanEscape cur (commandStart s) = none := by
  rw [scanEscape_command, terminated_none h, Option.map_none]

/-- A command that ends with the first byte of `é`. -/
def commandOf (body : Bytes) : Bytes :=
  commandStart (body ++ [0xc3])

theorem commandOf_open (h : ∀ c ∈ s, c ≠ 0x07 ∧ c ≠ ESC) :
    scanEscape .default (commandOf s) = none :=
  commandStart_open (fun c hc => (List.mem_append.1 hc).elim (h c) fun hc => by
    rw [List.mem_singleton.1 hc]
    decide) .default

/-- The release of a long command breaks the character that reaches over its end. -/
theorem commandOf_breaks (h : ∀ c ∈ s, c ≠ 0x07 ∧ c ≠ ESC) (hlong : 4093 < s.length) :
    ¬ Unbroken (streamStretches [] [commandOf s, [0xa9]]) := by
  intro hunbroken
  have hnil : ESC ∉ ([] : Bytes) := List.not_mem_nil
  have hstretches : stretches (commandOf s) = [.text []] := stretches_held hnil (commandOf_open h)
  have hescape : openEscape (commandOf s) = commandOf s := openEscape_held hnil (commandOf_open h)
  have hrelease : maxPendingBytes < (commandOf s).length := by
    rw [commandOf, commandStart, List.length_cons, List.length_cons, List.length_append,
      maxPendingBytes, List.length_singleton]
    omega
  have hrest : ESC ∉ ([0xa9] : Bytes) := by decide
  have hstream : streamStretches [] [commandOf s, [0xa9]]
      = [.text []] ++ .released (commandOf s) :: [.text [0xa9]] := by
    rw [streamStretches, List.nil_append, hescape, if_pos hrelease, hstretches, streamStretches,
      List.nil_append, openEscape_text hrest, stretches_text hrest, if_neg (by decide),
      streamStretches, if_pos rfl, List.append_nil]
  have hapart := hunbroken [.text []] (commandOf s) [.text [0xa9]] hstream
  have htail : heldTail (neutralizeESC (commandOf s)) = [0xc3] := by
    have hlast : neutralizeESC [0xc3] = [0xc3] := neutralizeESC_text (by decide)
    rw [commandOf, commandStart, ← List.cons_append, ← List.cons_append, neutralizeESC_append,
      hlast]
    exact heldTail_append_start _ (by decide) []
  have hfirst : (runs [.text [0xa9]]).headD [] = [0xa9] := rfl
  have hchar : decodeRune [0xc3, 0xa9] = some 'é' := decodeRune_encode 'é' []
  rw [hfirst, Apart, htail] at hapart
  rcases hapart with hempty | hdecode
  · contradiction
  · have hsome := hchar.symm.trans hdecode
    contradiction

end Marotte.Terminal
