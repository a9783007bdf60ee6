import Marotte.Idempotency.Cache

/-! # Retried requests

Every running handler holds the marker of its key, and no other handler's step touches it. A
response that is kept is replayed as the client took it, whole where the client took all of it.
-/
namespace Marotte.Idempotency

/-! ## Keys -/

theorem append_cons_inj {α : Type*} {a : α} {xs xs' ys ys' : List α} (hx : a ∉ xs) (hx' : a ∉ xs')
    (h : xs ++ a :: ys = xs' ++ a :: ys') : xs = xs' ∧ ys = ys' := by
  induction xs generalizing xs' with
  | nil =>
    cases xs' with
    | nil => exact ⟨rfl, (List.cons.inj h).2⟩
    | cons x xs' => exact absurd ((List.cons.inj h).1 ▸ List.mem_cons_self) hx'
  | cons x xs ih =>
    cases xs' with
    | nil => exact absurd ((List.cons.inj h).1 ▸ List.mem_cons_self) hx
    | cons x' xs' =>
      obtain ⟨hhead, htail⟩ := List.cons.inj h
      obtain ⟨hrest, hys⟩ := ih (fun hmem => hx (List.mem_cons_of_mem _ hmem))
        (fun hmem => hx' (List.mem_cons_of_mem _ hmem)) htail
      exact ⟨by rw [hhead, hrest], hys⟩

theorem nul_notMem_method {method : String} (h : idempotentMethod method = true) :
    '\x00' ∉ method.toList := by
  simp only [idempotentMethod, Bool.or_eq_true, decide_eq_true_eq] at h
  rcases h with ((rfl | rfl) | rfl) | rfl <;> decide +kernel

theorem nul_notMem_key {key : String} (h : validIdempotencyKey key = true) :
    '\x00' ∉ key.toList := by
  intro hmem
  simp only [validIdempotencyKey, Bool.and_eq_true] at h
  have hall := List.all_eq_true.mp h.2 _ hmem
  revert hall
  decide

/-- The separators keep the parts of a composite key apart, whatever the path holds. -/
theorem compositeKey_inj {req req' : Request} (h : req.deduped = true) (h' : req'.deduped = true)
    (heq : idempotencyCompositeKey req = idempotencyCompositeKey req') : req = req' := by
  simp only [Request.deduped, Bool.and_eq_true] at h h'
  have hlist := congrArg String.toList heq
  have hform : ∀ req : Request, (idempotencyCompositeKey req).toList =
      req.method.toList ++ '\x00' :: (req.path.toList ++ '\x00' :: req.key.toList) := by
    intro req
    simp [idempotencyCompositeKey]
  rw [hform, hform] at hlist
  obtain ⟨hmethod, hrest⟩ := append_cons_inj (nul_notMem_method h.1) (nul_notMem_method h'.1) hlist
  have hback := congrArg List.reverse hrest
  simp only [List.reverse_append, List.reverse_cons, List.append_assoc, List.singleton_append]
    at hback
  obtain ⟨hkey, hpath⟩ := append_cons_inj
    (fun hmem => nul_notMem_key h.2 (List.mem_reverse.mp hmem))
    (fun hmem => nul_notMem_key h'.2 (List.mem_reverse.mp hmem)) hback
  obtain ⟨method, path, key⟩ := req
  obtain ⟨method', path', key'⟩ := req'
  simp only at hmethod hkey hpath
  rw [String.toList_inj.mp hmethod, String.toList_inj.mp (List.reverse_injective hpath),
    String.toList_inj.mp (List.reverse_injective hkey)]

theorem compositeKey_ne_empty (req : Request) : idempotencyCompositeKey req ≠ "" := by
  intro h
  have hlist := congrArg String.toList h
  simp [idempotencyCompositeKey] at hlist

/-! ## The oldest completed slot -/

/-- What the fold over the slots holds: no completed slot seen, or the oldest of them. -/
def Oldest (seen : List Slot) (oldest : String × ℕ) : Prop :=
  (oldest.1 = "" ∧ ∀ e ∈ seen, e.inflight = true) ∨
    ∃ v ∈ seen, v.inflight = false ∧ oldest = (v.key, v.ts) ∧
      ∀ e ∈ seen, e.inflight = false → v.ts ≤ e.ts

theorem oldest_fold {seen : List Slot} (rest : List Slot) {oldest : String × ℕ}
    (h : Oldest seen oldest) (hkeys : ∀ e ∈ seen ++ rest, e.key ≠ "") :
    Oldest (seen ++ rest) (rest.foldl (fun oldest e =>
      if e.inflight then oldest
      else if oldest.1 = "" ∨ e.ts < oldest.2 then (e.key, e.ts)
      else oldest) oldest) := by
  induction rest generalizing seen oldest with
  | nil => simpa using h
  | cons e rest ih =>
    rw [← List.singleton_append, ← List.append_assoc] at hkeys ⊢
    rw [List.singleton_append, List.foldl_cons]
    refine ih ?_ hkeys
    by_cases he : e.inflight = true
    · rw [if_pos he]
      rcases h with ⟨hnone, hall⟩ | ⟨v, hv, hdone, heq, hmin⟩
      · refine .inl ⟨hnone, fun f hf => ?_⟩
        rcases List.mem_append.mp hf with hf | hf
        · exact hall f hf
        · rw [List.mem_singleton.mp hf, he]
      · refine .inr ⟨v, List.mem_append_left _ hv, hdone, heq, fun f hf hdonef => ?_⟩
        rcases List.mem_append.mp hf with hf | hf
        · exact hmin f hf hdonef
        · rw [List.mem_singleton.mp hf, he] at hdonef
          cases hdonef
    · rw [if_neg he]
      have hdone : e.inflight = false := by simpa using he
      split
      · rename_i hnewer
        refine .inr ⟨e, by simp, hdone, rfl, fun f hf hdonef => ?_⟩
        rcases List.mem_append.mp hf with hf | hf
        · rcases h with ⟨hnone, hall⟩ | ⟨v, hv, -, rfl, hmin⟩
          · rw [hall f hf] at hdonef
            cases hdonef
          · have hkey := hkeys v (List.mem_append_left _ (List.mem_append_left _ hv))
            have hlt := hnewer.resolve_left hkey
            have hle := hmin f hf hdonef
            simp only at hlt
            omega
        · exact Nat.le_of_eq (congrArg Slot.ts (List.mem_singleton.mp hf).symm)
      · rename_i hkeep
        rcases h with ⟨hnone, -⟩ | ⟨v, hv, hdonev, rfl, hmin⟩
        · exact absurd (.inl hnone) hkeep
        · refine .inr ⟨v, List.mem_append_left _ hv, hdonev, rfl, fun f hf hdonef => ?_⟩
          rcases List.mem_append.mp hf with hf | hf
          · exact hmin f hf hdonef
          · rw [List.mem_singleton.mp hf]
            have hle := fun hlt => hkeep (.inr hlt)
            simp only at hle
            omega

/-- An eviction drops a completed slot no completed one is older than. -/
theorem evict_spec {entries order : List Slot} (hperm : order.Perm entries)
    (hkeys : ∀ e ∈ entries, e.key ≠ "") {k : String} (h : evictOldestCompleted order = some k) :
    ∃ v ∈ entries, v.key = k ∧ v.inflight = false ∧
      ∀ e ∈ entries, e.inflight = false → v.ts ≤ e.ts := by
  have hstart : Oldest [] ("", 0) := .inl ⟨rfl, by simp⟩
  have holdest : Oldest order (oldestCompleted order) := by
    have hfold := oldest_fold order hstart
      (by simpa using fun e he => hkeys e (hperm.mem_iff.mp he))
    exact hfold
  unfold evictOldestCompleted at h
  split at h
  · cases h
  rename_i hsome
  rcases holdest with ⟨hnone, -⟩ | ⟨v, hv, hdone, heq, hmin⟩
  · exact absurd hnone hsome
  · refine ⟨v, hperm.mem_iff.mp hv, ?_, hdone, fun e he => hmin e (hperm.mem_iff.mpr he)⟩
    rw [heq] at h
    exact Option.some.inj h

/-! ## Claims -/

/-- What a claim leaves: the new marker, and every slot that is neither under its key nor evicted
for it. -/
structure Claims (w : World) (entries : List Slot) (marker : Slot) (entries' : List Slot)
    (victim : Option String) : Prop where
  mem : ∀ e, e ∈ entries' ↔
    e = marker ∨ e ∈ entries ∧ e.key ≠ marker.key ∧ victim ≠ some e.key
  nodup : (entries'.map Slot.key).Nodup
  evicts : ∀ k, victim = some k →
    w.maxEntries ≤ (Keyed.erase Slot.key entries marker.key).length ∧
      ∃ v ∈ Keyed.erase Slot.key entries marker.key, v.key = k ∧ v.inflight = false ∧
        ∀ e ∈ Keyed.erase Slot.key entries marker.key, e.inflight = false → v.ts ≤ e.ts

variable {w : World} {entries : List Slot} {now owner : ℕ} {key : String}

theorem claim_spec (w : World) (now owner : ℕ) (key : String)
    (hnodup : (entries.map Slot.key).Nodup) (hkeys : ∀ e ∈ entries, e.key ≠ "") :
    ∃ entries' victim,
      claim w now owner key (Keyed.erase Slot.key entries key) = .claimed entries' victim ∧
        Claims w entries { key := key, ts := now, inflight := true, owner := owner } entries'
          victim := by
  refine ⟨_, _, rfl, ?_⟩
  have hleft := Keyed.nodup_erase (k := key) hnodup
  have hkeysLeft : ∀ e ∈ Keyed.erase Slot.key entries key, e.key ≠ "" :=
    fun e he => hkeys e (Keyed.mem_erase.mp he).1
  constructor
  · intro e
    constructor
    · intro he
      rcases Keyed.mem_set he with rfl | ⟨he, hne⟩
      · exact .inl rfl
      · refine .inr ?_
        generalize hv : (if w.maxEntries ≤ (Keyed.erase Slot.key entries key).length then
          evictOldestCompleted (w.arrange owner (Keyed.erase Slot.key entries key)) else none) =
            victim at he
        cases victim with
        | none =>
          exact ⟨(Keyed.mem_erase.mp he).1, hne, by simp⟩
        | some k =>
          obtain ⟨hmem, hk⟩ := Keyed.mem_erase.mp he
          exact ⟨(Keyed.mem_erase.mp hmem).1, hne, fun heq => hk (Option.some.inj heq).symm⟩
    · rintro (rfl | ⟨he, hne, hvictim⟩)
      · exact Keyed.self_mem_set
      · refine Keyed.mem_set_of_ne ?_ hne
        generalize (if w.maxEntries ≤ (Keyed.erase Slot.key entries key).length then
          evictOldestCompleted (w.arrange owner (Keyed.erase Slot.key entries key)) else none) =
            victim at hvictim ⊢
        have hmem := Keyed.mem_erase.mpr ⟨he, hne⟩
        cases victim with
        | none => exact hmem
        | some k => exact Keyed.mem_erase.mpr ⟨hmem, fun heq => hvictim (congrArg some heq.symm)⟩
  · apply Keyed.nodup_set
    generalize (if w.maxEntries ≤ (Keyed.erase Slot.key entries key).length then
      evictOldestCompleted (w.arrange owner (Keyed.erase Slot.key entries key)) else none) = victim
    cases victim with
    | none => exact hleft
    | some k => exact Keyed.nodup_erase hleft
  · intro k hk
    split at hk
    · rename_i hcap
      exact ⟨hcap, evict_spec (w.perm _ _) hkeysLeft hk⟩
    · cases hk

/-- What a request can find under its key. -/
theorem begin_spec (w : World) (now owner : ℕ) (key : String)
    (hnodup : (entries.map Slot.key).Nodup) (hkeys : ∀ e ∈ entries, e.key ≠ "") :
    (∃ e ∈ entries, e.key = key ∧ e.inflight = true ∧ begin w now owner key entries = .busy) ∨
    (∃ e ∈ entries, e.key = key ∧ e.inflight = false ∧ begin w now owner key entries = .replay e) ∨
    ∃ entries' victim, begin w now owner key entries = .claimed entries' victim ∧
      Claims w entries { key := key, ts := now, inflight := true, owner := owner } entries' victim ∧
      ∀ e ∈ entries, e.key = key → e.inflight = false ∧ e.ts + w.ttl ≤ now := by
  obtain ⟨entries', victim, hclaim, hclaims⟩ := claim_spec w now owner key hnodup hkeys
  unfold begin
  cases hfind : Keyed.find Slot.key entries key with
  | none =>
    rw [Keyed.erase_of_find_none hfind] at hclaim
    refine .inr (.inr ⟨entries', victim, hclaim, hclaims, fun e he hk => ?_⟩)
    exact absurd (hk ▸ List.mem_map_of_mem he) (Keyed.find_eq_none.mp hfind)
  | some e =>
    have hmem := Keyed.mem_of_find hfind
    have hkey := Keyed.key_of_find hfind
    simp only
    by_cases hbusy : e.inflight = true
    · rw [if_pos hbusy]
      exact .inl ⟨e, hmem, hkey, hbusy, rfl⟩
    · rw [if_neg hbusy]
      have hdone : e.inflight = false := by simpa using hbusy
      by_cases hfresh : now < e.ts + w.ttl
      · rw [if_pos hfresh]
        exact .inr (.inl ⟨e, hmem, hkey, hdone, rfl⟩)
      · rw [if_neg hfresh]
        refine .inr (.inr ⟨entries', victim, hclaim, hclaims, fun f hf hk => ?_⟩)
        obtain rfl := List.inj_on_of_nodup_map hnodup hf hmem (hk.trans hkey.symm)
        exact ⟨hdone, by omega⟩

/-! ## What every step keeps -/

/-- A slot holds the response of a handler as it was captured. -/
structure Keeps (w : World) (h : Handler) (e : Slot) : Prop where
  key : idempotencyCompositeKey h.req = e.key
  status : e.status = w.recorded h.acts
  ct : e.ct = headerType h.acts ""
  body : e.body = taken h.acts

/-- The writer holds what the client took, or that was over the limit. -/
structure Captures (w : World) (h : Handler) : Prop where
  kept : h.writer.overflow = false → h.writer.buf = taken h.acts
  past : h.writer.overflow = true → w.maxBody < (taken h.acts).length

structure Sound (w : World) (s : Server) : Prop where
  nodup : (s.entries.map Slot.key).Nodup
  marked : ∀ e ∈ s.entries, e.inflight = true →
    ∃ h, s.running e.owner = some h ∧ idempotencyCompositeKey h.req = e.key
  held : ∀ id h, s.running id = some h →
    ∃ e ∈ s.entries, e.key = idempotencyCompositeKey h.req ∧ e.inflight = true ∧ e.owner = id
  kept : ∀ e ∈ s.entries, e.inflight = false → ∃ h, s.ended e.owner = some h ∧ Keeps w h e
  running : ∀ id h, s.running id = some h →
    s.ended id = none ∧ h.req.deduped = true ∧ Captures w h
  ended : ∀ id h, s.ended id = some h → h.req.deduped = true
  answers : ∀ k T, s.answers k = some T →
    T + w.ttl ≤ s.now ∨ ∃ e ∈ s.entries, e.key = k ∧ e.inflight = false ∧ e.ts = T
  starts : ∀ st ∈ s.starts, ∀ T, st.answered = some T → T + w.ttl ≤ st.now
  replays : ∀ r ∈ s.replays,
    ∃ h, s.ended r.slot.owner = some h ∧ h.req = r.req ∧ Keeps w h r.slot
  evictions : ∀ ev ∈ s.evictions, w.maxEntries ≤ ev.entries.length ∧
    ∃ v ∈ ev.entries, v.key = ev.key ∧ v.inflight = false ∧
      ∀ e ∈ ev.entries, e.inflight = false → v.ts ≤ e.ts

variable {s : Server}

theorem sound_start (w : World) : Sound w {} where
  nodup := List.nodup_nil
  marked := by simp
  held id h hid := by cases hid
  kept := by simp
  running id h hid := by cases hid
  ended id h hid := by cases hid
  answers k T hk := by cases hk
  starts := by simp
  replays := by simp
  evictions := by simp

theorem Sound.key_ne_empty (h : Sound w s) : ∀ e ∈ s.entries, e.key ≠ "" := by
  intro e he
  cases hflight : e.inflight with
  | true =>
    obtain ⟨hd, -, hkey⟩ := h.marked e he hflight
    rw [← hkey]
    exact compositeKey_ne_empty _
  | false =>
    obtain ⟨hd, -, hkeeps⟩ := h.kept e he hflight
    rw [← hkeeps.key]
    exact compositeKey_ne_empty _

/-- The only slot of a running handler's key is its own marker. -/
theorem Sound.own (h : Sound w s) {id : ℕ} {hd : Handler} (hid : s.running id = some hd) {e : Slot}
    (he : e ∈ s.entries) (hkey : e.key = idempotencyCompositeKey hd.req) :
    e.inflight = true ∧ e.owner = id := by
  obtain ⟨m, hm, hkeym, hflight, howner⟩ := h.held id hd hid
  obtain rfl := List.inj_on_of_nodup_map h.nodup he hm (hkey.trans hkeym.symm)
  exact ⟨hflight, howner⟩

/-- A handler that leaves with the slots of its key replaced by at most a completed one. -/
theorem Sound.leave (h : Sound w s) {id : ℕ} {hd : Handler} (hid : s.running id = some hd)
    (entries' : List Slot) (hnodup : (entries'.map Slot.key).Nodup)
    (hmem : ∀ e ∈ entries', e ∈ s.entries ∧ e.key ≠ idempotencyCompositeKey hd.req ∨
      e.inflight = false ∧ e.owner = id ∧ Keeps w hd e)
    (hrest : ∀ e ∈ s.entries, e.key ≠ idempotencyCompositeKey hd.req → e ∈ entries') :
    Sound w (s.leave id hd entries') := by
  obtain ⟨hnew, hdeduped, hcaptures⟩ := h.running id hd hid
  have hended : ∀ {x hx}, s.ended x = some hx →
      Function.update s.ended id (some hd) x = some hx := by
    intro x hx hsome
    rw [Function.update_of_ne, hsome]
    rintro rfl
    rw [hnew] at hsome
    cases hsome
  have hrunning : ∀ {x hx}, Function.update s.running id none x = some hx →
      x ≠ id ∧ s.running x = some hx := by
    intro x hx hsome
    by_cases hxid : x = id
    · rw [hxid, Function.update_self] at hsome
      cases hsome
    · rw [Function.update_of_ne hxid] at hsome
      exact ⟨hxid, hsome⟩
  constructor
  · exact hnodup
  · intro e he hflight
    rcases hmem e he with ⟨hold, hne⟩ | ⟨hdone, -⟩
    · obtain ⟨hx, hsome, hkey⟩ := h.marked e hold hflight
      refine ⟨hx, ?_, hkey⟩
      change Function.update s.running id none e.owner = some hx
      rw [Function.update_of_ne, hsome]
      intro howner
      rw [howner, hid] at hsome
      cases hsome
      exact hne hkey.symm
    · rw [hdone] at hflight
      cases hflight
  · intro x hx hsome
    obtain ⟨hxid, hold⟩ := hrunning hsome
    obtain ⟨e, he, hkey, hflight, howner⟩ := h.held x hx hold
    refine ⟨e, hrest e he fun heq => ?_, hkey, hflight, howner⟩
    exact hxid (howner.symm.trans (h.own hid he heq).2)
  · intro e he hdone
    rcases hmem e he with ⟨hold, -⟩ | ⟨-, howner, hkeeps⟩
    · obtain ⟨hx, hsome, hkeeps⟩ := h.kept e hold hdone
      exact ⟨hx, hended hsome, hkeeps⟩
    · refine ⟨hd, ?_, hkeeps⟩
      change Function.update s.ended id (some hd) e.owner = some hd
      rw [howner, Function.update_self]
  · intro x hx hsome
    obtain ⟨hxid, hold⟩ := hrunning hsome
    refine ⟨?_, (h.running x hx hold).2⟩
    change Function.update s.ended id (some hd) x = none
    rw [Function.update_of_ne hxid]
    exact (h.running x hx hold).1
  · intro x hx hsome
    by_cases hxid : x = id
    · change Function.update s.ended id (some hd) x = some hx at hsome
      rw [hxid, Function.update_self] at hsome
      cases hsome
      exact hdeduped
    · change Function.update s.ended id (some hd) x = some hx at hsome
      rw [Function.update_of_ne hxid] at hsome
      exact h.ended x hx hsome
  · intro k T hk
    rcases h.answers k T hk with hold | ⟨e, he, hkey, hdone, hts⟩
    · exact .inl hold
    · refine .inr ⟨e, hrest e he fun heq => ?_, hkey, hdone, hts⟩
      rw [(h.own hid he heq).1] at hdone
      cases hdone
  · exact h.starts
  · intro r hr
    obtain ⟨hx, hsome, hreq, hkeeps⟩ := h.replays r hr
    exact ⟨hx, hended hsome, hreq, hkeeps⟩
  · exact h.evictions

theorem Sound.abort (h : Sound w s) {id : ℕ} {hd : Handler} (hid : s.running id = some hd) :
    Sound w (s.leave id hd (abort (idempotencyCompositeKey hd.req) s.entries)) := by
  obtain ⟨m, hm, hkey, hflight, -⟩ := h.held id hd hid
  have hfind : Keyed.find Slot.key s.entries (idempotencyCompositeKey hd.req) = some m := by
    rw [← hkey]
    exact Keyed.find_of_mem h.nodup hm
  have habort : Idempotency.abort (idempotencyCompositeKey hd.req) s.entries =
      Keyed.erase Slot.key s.entries (idempotencyCompositeKey hd.req) := by
    unfold Idempotency.abort
    rw [hfind]
    simp only [hflight, if_true]
  rw [habort]
  exact h.leave hid _ (Keyed.nodup_erase h.nodup) (fun e he => .inl (Keyed.mem_erase.mp he))
    fun e he hne => Keyed.mem_erase.mpr ⟨he, hne⟩

theorem Sound.finish (h : Sound w s) (id : ℕ) : Sound w (s.finish w id) := by
  unfold Server.finish
  cases hid : s.running id with
  | none => exact h
  | some hd =>
    simp only
    split
    · rename_i hkeep
      have hcaptures := (h.running id hd hid).2.2
      have hleft := h.leave hid (Keyed.set Slot.key s.entries
        { key := idempotencyCompositeKey hd.req
          ts := s.now
          ct := headerType hd.acts ""
          body := hd.writer.buf
          status := w.recorded hd.acts
          inflight := false
          owner := id }) (Keyed.nodup_set h.nodup) (fun e he => by
            rcases Keyed.mem_set he with rfl | hold
            · exact .inr ⟨rfl, rfl, rfl, rfl, rfl, hcaptures.kept hkeep.2⟩
            · exact .inl hold) fun e he hne => Keyed.mem_set_of_ne he hne
      split
      · refine ⟨hleft.nodup, hleft.marked, hleft.held, hleft.kept, hleft.running, hleft.ended,
          fun k T hk => ?_, hleft.starts, hleft.replays, hleft.evictions⟩
        by_cases hkey : k = idempotencyCompositeKey hd.req
        · simp only [hkey, Function.update_self, Option.some.injEq] at hk
          exact .inr ⟨_, Keyed.self_mem_set, hkey.symm, rfl, hk⟩
        · simp only [Function.update_of_ne hkey] at hk
          exact hleft.answers k T hk
      · exact hleft
    · exact h.abort hid

theorem Sound.panic (h : Sound w s) (id : ℕ) : Sound w (s.panic id) := by
  unfold Server.panic
  cases hid : s.running id with
  | none => exact h
  | some hd => exact h.abort hid

theorem Captures.act {h : Handler} (hc : Captures w h) (a : Act) :
    Captures w { h with acts := h.acts ++ [a], writer := h.writer.act w.maxBody a } := by
  have hconcat : ∀ a, taken (h.acts ++ [a]) = taken h.acts ++ taken [a] := by
    intro a
    simp [taken]
  cases a with
  | setType ct =>
    have hsame : taken (h.acts ++ [.setType ct]) = taken h.acts := by simp [taken]
    exact ⟨fun ho => (hc.kept ho).trans hsame.symm, fun ho => hsame ▸ hc.past ho⟩
  | header code =>
    have hsame : taken (h.acts ++ [.header code]) = taken h.acts := by simp [taken]
    exact ⟨fun ho => (hc.kept ho).trans hsame.symm, fun ho => hsame ▸ hc.past ho⟩
  | write c =>
    have hone : taken [.write c] = c.bytes.take c.taken := by simp [taken]
    have hlength : (c.bytes.take c.taken).length = c.taken := by
      rw [List.length_take, Nat.min_eq_left c.le]
    simp only [Writer.act, Writer.write]
    split
    · rename_i hover
      refine ⟨fun ho => absurd ho (by simp [hover]), fun _ => ?_⟩
      have hbefore := hc.past hover
      simp only
      rw [hconcat, List.length_append]
      omega
    split
    · rename_i hover hcap
      refine ⟨fun ho => (by cases ho), fun _ => ?_⟩
      rw [hc.kept (by simpa using hover)] at hcap
      simp only
      rw [hconcat, List.length_append, hone, hlength]
      exact hcap
    · rename_i hover hcap
      refine ⟨fun ho => ?_, fun ho => absurd ho hover⟩
      simp only
      rw [hconcat, hone, hc.kept (by simpa using hover)]

theorem Sound.act (h : Sound w s) (id : ℕ) (a : Act) : Sound w (s.act w id a) := by
  unfold Server.act
  cases hid : s.running id with
  | none => exact h
  | some hd =>
    simp only
    have hrunning : ∀ {x hx}, Function.update s.running id (some { hd with
        acts := hd.acts ++ [a]
        writer := hd.writer.act w.maxBody a }) x = some hx →
        ∃ old, s.running x = some old ∧ hx.req = old.req ∧ (Captures w old → Captures w hx) := by
      intro x hx hsome
      by_cases hxid : x = id
      · rw [hxid, Function.update_self] at hsome
        cases hsome
        exact ⟨hd, hxid ▸ hid, rfl, fun hc => hc.act a⟩
      · rw [Function.update_of_ne hxid] at hsome
        exact ⟨hx, hsome, rfl, fun hc => hc⟩
    refine ⟨h.nodup, fun e he hflight => ?_, fun x hx hsome => ?_, h.kept, fun x hx hsome => ?_,
      h.ended, h.answers, h.starts, h.replays, h.evictions⟩
    · obtain ⟨hx, hsome, hkey⟩ := h.marked e he hflight
      by_cases howner : e.owner = id
      · rw [howner, hid] at hsome
        cases hsome
        refine ⟨{ hd with acts := hd.acts ++ [a], writer := hd.writer.act w.maxBody a }, ?_, hkey⟩
        change Function.update s.running id _ e.owner = _
        rw [howner, Function.update_self]
      · refine ⟨hx, ?_, hkey⟩
        change Function.update s.running id _ e.owner = _
        rw [Function.update_of_ne howner, hsome]
    · obtain ⟨old, hold, hreq, -⟩ := hrunning hsome
      rw [hreq]
      exact h.held x old hold
    · obtain ⟨old, hold, hreq, hcaptures⟩ := hrunning hsome
      obtain ⟨hended, hdeduped, hc⟩ := h.running x old hold
      exact ⟨hended, hreq ▸ hdeduped, hcaptures hc⟩

theorem Sound.arrive (h : Sound w s) (id : ℕ) (req : Request) (lag : ℕ) :
    Sound w (s.arrive w id req lag) := by
  unfold Server.arrive
  split
  · exact h
  rename_i hnew
  obtain ⟨hidle, hunended⟩ : s.running id = none ∧ s.ended id = none := by
    simpa [not_or, Option.isSome_eq_false_iff] using hnew
  split
  rotate_left
  · exact h
  rename_i hdeduped
  simp only
  rcases begin_spec w (s.now - lag) id (idempotencyCompositeKey req) h.nodup h.key_ne_empty with
    ⟨e, he, hkey, hflight, heq⟩ | ⟨e, he, hkey, hdone, heq⟩ | ⟨entries', victim, heq, hclaims, hfree⟩
  · rw [heq]
    exact h
  · rw [heq]
    refine ⟨h.nodup, h.marked, h.held, h.kept, h.running, h.ended, h.answers, h.starts,
      fun r hr => ?_, h.evictions⟩
    rcases List.mem_append.mp hr with hr | hr
    · exact h.replays r hr
    · obtain ⟨hd, hended, hkeeps⟩ := h.kept e he hdone
      rw [List.mem_singleton.mp hr]
      exact ⟨hd, hended, compositeKey_inj (h.ended _ _ hended) hdeduped
        (hkeeps.key.trans hkey), hkeeps⟩
  · rw [heq]
    simp only
    have hrunning : ∀ {x hx}, Function.update s.running id (some { req := req }) x = some hx →
        x = id ∧ hx = { req := req } ∨ x ≠ id ∧ s.running x = some hx := by
      intro x hx hsome
      by_cases hxid : x = id
      · rw [hxid, Function.update_self] at hsome
        exact .inl ⟨hxid, (Option.some.inj hsome).symm⟩
      · rw [Function.update_of_ne hxid] at hsome
        exact .inr ⟨hxid, hsome⟩
    -- A running handler's marker is neither under the key claimed nor the victim.
    have hsafe : ∀ e ∈ s.entries, e.inflight = true →
        e.key ≠ idempotencyCompositeKey req ∧ victim ≠ some e.key := by
      intro e he hflight
      constructor
      · intro hkey
        rw [(hfree e he hkey).1] at hflight
        cases hflight
      · intro hvictim
        obtain ⟨-, v, hv, hkey, hdone, -⟩ := hclaims.evicts e.key hvictim
        obtain rfl := List.inj_on_of_nodup_map h.nodup (Keyed.mem_erase.mp hv).1 he hkey
        rw [hflight] at hdone
        cases hdone
    refine ⟨hclaims.nodup, fun e he hflight => ?_, fun x hx hsome => ?_, fun e he hdone => ?_,
      fun x hx hsome => ?_, h.ended, fun k T hk => ?_, fun st hst T hT => ?_, h.replays,
      fun ev hev => ?_⟩
    · rcases (hclaims.mem e).mp he with rfl | ⟨he, -⟩
      · exact ⟨_, Function.update_self .., rfl⟩
      · obtain ⟨hx, hsome, hkey⟩ := h.marked e he hflight
        refine ⟨hx, ?_, hkey⟩
        change Function.update s.running id _ e.owner = some hx
        rw [Function.update_of_ne, hsome]
        intro howner
        rw [howner, hidle] at hsome
        cases hsome
    · rcases hrunning hsome with ⟨rfl, rfl⟩ | ⟨hxid, hold⟩
      · exact ⟨_, (hclaims.mem _).mpr (.inl rfl), rfl, rfl, rfl⟩
      · obtain ⟨e, he, hkey, hflight, howner⟩ := h.held x hx hold
        exact ⟨e, (hclaims.mem e).mpr (.inr ⟨he, hsafe e he hflight⟩), hkey, hflight, howner⟩
    · rcases (hclaims.mem e).mp he with rfl | ⟨he, -⟩
      · cases hdone
      · exact h.kept e he hdone
    · rcases hrunning hsome with ⟨rfl, rfl⟩ | ⟨-, hold⟩
      · exact ⟨hunended, hdeduped, fun _ => rfl, fun ho => (by cases ho)⟩
      · exact h.running x hx hold
    · have hold : s.answers k = some T ∧ victim ≠ some k := by
        cases victim with
        | none => exact ⟨hk, by simp⟩
        | some v =>
          simp only at hk
          by_cases hkv : k = v
          · rw [hkv, Function.update_self] at hk
            cases hk
          · rw [Function.update_of_ne hkv] at hk
            exact ⟨hk, fun heq => hkv (Option.some.inj heq).symm⟩
      rcases h.answers k T hold.1 with hexpired | ⟨e, he, rfl, hdone, hts⟩
      · exact .inl hexpired
      · by_cases hkey : e.key = idempotencyCompositeKey req
        · have hexpired := (hfree e he hkey).2
          refine .inl ?_
          change T + w.ttl ≤ s.now
          omega
        · exact .inr ⟨e, (hclaims.mem e).mpr (.inr ⟨he, hkey, hold.2⟩), rfl, hdone, hts⟩
    · rcases List.mem_append.mp hst with hst | hst
      · exact h.starts st hst T hT
      · rw [List.mem_singleton.mp hst] at hT ⊢
        rcases h.answers _ T hT with hexpired | ⟨e, he, hkey, -, hts⟩
        · exact hexpired
        · have hexpired := (hfree e he hkey).2
          simp only
          omega
    · cases victim with
      | none => exact h.evictions ev hev
      | some v =>
        rcases List.mem_append.mp hev with hev | hev
        · exact h.evictions ev hev
        · rw [List.mem_singleton.mp hev]
          exact hclaims.evicts v rfl

theorem Sound.sweep (h : Sound w s) (lag : ℕ) :
    Sound w { s with entries := sweep w (s.now - lag) s.entries } := by
  have hmem : ∀ {e}, e ∈ Idempotency.sweep w (s.now - lag) s.entries ↔
      e ∈ s.entries ∧ (e.inflight = true ∨ s.now - lag < e.ts + w.ttl) := by
    intro e
    simp [Idempotency.sweep]
  refine ⟨h.nodup.sublist (List.filter_sublist.map _), fun e he hflight => ?_,
    fun x hx hsome => ?_, fun e he hdone => ?_, h.running, h.ended, fun k T hk => ?_, h.starts,
    h.replays, h.evictions⟩
  · exact h.marked e (hmem.mp he).1 hflight
  · obtain ⟨e, he, hkey, hflight, howner⟩ := h.held x hx hsome
    exact ⟨e, hmem.mpr ⟨he, .inl hflight⟩, hkey, hflight, howner⟩
  · exact h.kept e (hmem.mp he).1 hdone
  · rcases h.answers k T hk with hexpired | ⟨e, he, hkey, hdone, hts⟩
    · exact .inl hexpired
    · by_cases hfresh : s.now - lag < e.ts + w.ttl
      · exact .inr ⟨e, hmem.mpr ⟨he, .inr hfresh⟩, hkey, hdone, hts⟩
      · refine .inl ?_
        change T + w.ttl ≤ s.now
        omega

theorem Sound.step (h : Sound w s) (e : Event) : Sound w (s.step w e) := by
  cases e with
  | arrive id req lag => exact h.arrive id req lag
  | act id a => exact h.act id a
  | finish id => exact h.finish id
  | panic id => exact h.panic id
  | sweep lag => exact h.sweep lag
  | advance d =>
    refine ⟨h.nodup, h.marked, h.held, h.kept, h.running, h.ended, fun k T hk => ?_, h.starts,
      h.replays, h.evictions⟩
    rcases h.answers k T hk with hexpired | hslot
    · exact .inl (Nat.le_add_right_of_le hexpired)
    · exact .inr hslot

/-! ## Whole runs -/

/-- A key's handlers run one at a time, each behind its own marker; a handler starts behind an
answer of its key only once that expired; what is evicted is an oldest completed slot at the cap;
and a request that is done has no marker left. -/
structure Deduplicates (w : World) (s : Server) : Prop where
  exclusive : ∀ id id' h h', s.running id = some h → s.running id' = some h' →
    h.req = h'.req → id = id'
  starts : ∀ st ∈ s.starts, ∀ T, st.answered = some T → T + w.ttl ≤ st.now
  evictions : ∀ ev ∈ s.evictions, w.maxEntries ≤ ev.entries.length ∧
    ∃ v ∈ ev.entries, v.key = ev.key ∧ v.inflight = false ∧
      ∀ e ∈ ev.entries, e.inflight = false → v.ts ≤ e.ts
  cleared : ∀ id h, s.ended id = some h → ∀ e ∈ s.entries, e.owner = id → e.inflight = false
  held : ∀ id h, s.running id = some h →
    ∃ e ∈ s.entries, e.key = idempotencyCompositeKey h.req ∧ e.inflight = true ∧ e.owner = id

/-- Every replay carries what the handler of its request answered, whole. -/
def ReplaysWhole (w : World) (s : Server) : Prop :=
  ∀ r ∈ s.replays, ∃ h, s.ended r.slot.owner = some h ∧ h.req = r.req ∧
    r.slot.status = w.recorded h.acts ∧ r.slot.ct = sentType h.acts "" ∧
      r.slot.body = written h.acts

/-- The client took every write whole, and the content type stayed the one the response went out
with. -/
structure TakenWhole (acts : List Act) : Prop where
  writes : ∀ c, .write c ∈ acts → c.taken = c.bytes.length
  type : headerType acts "" = sentType acts ""

theorem length_taken_le (acts : List Act) : (taken acts).length ≤ (written acts).length := by
  induction acts with
  | nil => exact Nat.le_refl 0
  | cons a acts ih =>
    cases a with
    | write c =>
      simp only [taken, written, List.flatMap_cons, List.length_append, List.length_take] at ih ⊢
      omega
    | _ => exact ih

/-- What the client took is what was written exactly if it took every write whole. -/
theorem taken_eq_written_iff {acts : List Act} :
    taken acts = written acts ↔ ∀ c, .write c ∈ acts → c.taken = c.bytes.length := by
  induction acts with
  | nil => simp [taken, written]
  | cons a acts ih =>
    cases a with
    | write c =>
      have htaken : taken (.write c :: acts) = c.bytes.take c.taken ++ taken acts := rfl
      have hwritten : written (.write c :: acts) = c.bytes ++ written acts := rfl
      rw [htaken, hwritten]
      constructor
      · intro heq
        have hlength := congrArg List.length heq
        have hle := length_taken_le acts
        have hc := c.le
        simp only [List.length_append, List.length_take, Nat.min_eq_left hc] at hlength
        have hwhole : c.taken = c.bytes.length := by omega
        rw [hwhole, List.take_length, List.append_cancel_left_eq, ih] at heq
        intro d hd
        rcases List.mem_cons.mp hd with hd | hd
        · cases hd
          exact hwhole
        · exact heq d hd
      · intro hall
        rw [hall c List.mem_cons_self, List.take_length,
          ih.mpr fun d hd => hall d (List.mem_cons_of_mem _ hd)]
    | setType ct =>
      exact ih.trans ⟨fun hall d hd => hall d (by simpa using hd),
        fun hall d hd => hall d (List.mem_cons_of_mem _ hd)⟩
    | header code =>
      exact ih.trans ⟨fun hall d hd => hall d (by simpa using hd),
        fun hall d hd => hall d (List.mem_cons_of_mem _ hd)⟩

theorem Sound.deduplicates (h : Sound w s) : Deduplicates w s where
  exclusive id id' hd hd' hid hid' hreq := by
    obtain ⟨e, he, hkey, -, howner⟩ := h.held id hd hid
    have hown := h.own hid' he (hreq ▸ hkey)
    exact howner.symm.trans hown.2
  starts := h.starts
  evictions := h.evictions
  cleared id hd hid e he howner := by
    rw [Bool.eq_false_iff]
    intro hflight
    obtain ⟨hx, hsome, -⟩ := h.marked e he hflight
    have hnone := (h.running e.owner hx hsome).1
    rw [howner, hid] at hnone
    cases hnone
  held := h.held

theorem Sound.replaysWhole_iff (h : Sound w s) : ReplaysWhole w s ↔
    ∀ r ∈ s.replays, ∀ hd, s.ended r.slot.owner = some hd → TakenWhole hd.acts := by
  constructor
  · intro hall r hr hd hended
    obtain ⟨hx, hsome, -, -, hct, hbody⟩ := hall r hr
    obtain ⟨hy, hkept, -, hkeeps⟩ := h.replays r hr
    rw [hended] at hsome hkept
    cases hsome
    cases hkept
    exact ⟨taken_eq_written_iff.mp (hkeeps.body.symm.trans hbody), hkeeps.ct.symm.trans hct⟩
  · intro hall r hr
    obtain ⟨hd, hended, hreq, hkeeps⟩ := h.replays r hr
    obtain ⟨hwrites, htype⟩ := hall r hr hd hended
    exact ⟨hd, hended, hreq, hkeeps.status, hkeeps.ct.trans htype,
      hkeeps.body.trans (taken_eq_written_iff.mpr hwrites)⟩

/-- Over every run: handlers are deduplicated, and every replay carries what its run answered,
whole, exactly if the client of each run replayed took every write whole and its content type
stayed. -/
theorem retried_whole_iff (w : World) (events : List Event) :
    Deduplicates w (runFrom (Server.step w) {} events) ∧
      (ReplaysWhole w (runFrom (Server.step w) {} events) ↔
        ∀ r ∈ (runFrom (Server.step w) {} events).replays, ∀ h,
          (runFrom (Server.step w) {} events).ended r.slot.owner = some h →
            TakenWhole h.acts) := by
  have hsound : Sound w (runFrom (Server.step w) {} events) :=
    runFrom_invariant (Q := Sound w) (sound_start w) (fun _ e hs => hs.step e) events
  exact ⟨hsound.deduplicates, hsound.replaysWhole_iff⟩

/-- The first final status written, or 200. -/
def firstStatus : List Act → ℕ
  | [] => 200
  | .header code :: acts => if 200 ≤ code ∨ code = 101 then code else firstStatus acts
  | .write _ :: _ => 200
  | _ :: acts => firstStatus acts

/-- A client that is gone takes nothing of the first response, so its retry replays an empty
body. -/
theorem dead_client_replay :
    let w : World :=
      { ttl := 300, maxEntries := 10000, maxBody := 1048576, recorded := firstStatus
        arrange := fun _ l => l, perm := fun _ l => List.Perm.refl l }
    let req : Request := { method := "POST", path := "/api/command", key := "k" }
    let s := runFrom (Server.step w) {}
      [.arrive 0 req 0, .act 0 (.setType "application/json"), .act 0 (.header 200),
        .act 0 (.write ⟨[123, 125], 0, Nat.zero_le 2⟩), .finish 0, .advance 1, .arrive 1 req 0]
    s.replays.map (fun r => (r.slot.status, r.slot.ct, r.slot.body)) =
        [(200, "application/json", [])] ∧
      (s.ended 0).map (fun h => written h.acts) = some [123, 125] ∧ ¬ ReplaysWhole w s := by
  intro w req s
  have hreplays : s.replays = [⟨req, ⟨idempotencyCompositeKey req, 0, "application/json", [], 200,
      false, 0⟩⟩] := by decide +kernel
  have hended : (s.ended 0).map (fun h => written h.acts) = some [123, 125] := by decide +kernel
  refine ⟨by rw [hreplays]; rfl, hended, fun hall => ?_⟩
  obtain ⟨h, hsome, -, -, -, hbody⟩ := hall _ (hreplays ▸ List.mem_cons_self)
  simp only at hsome hbody
  rw [hsome, Option.map_some, ← hbody] at hended
  cases hended

end Marotte.Idempotency
