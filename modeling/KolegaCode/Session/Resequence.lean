import KolegaCode.Session.Append

/-!
# Session — renumbering

`repair_sequence` on a log whose numbers are wrong.  The file it leaves holds the same events
numbered from one.  The state it leaves is set from the events as they were read, so an append that
does not resynchronise takes the number behind the old last one (`next_seq_iff`).
-/

namespace KolegaCode.Session

open List

/-! ### The events with their new numbers -/

/-- The event at this place of the file, with the number of its place. -/
def atPlace (p : SessionEvent × Nat) : SessionEvent := { p.1 with seq := p.2 + 1 }

theorem renumber_eq (es : List SessionEvent) : renumber es = es.zipIdx.map atPlace := rfl

theorem zipIdx_snoc {α : Type} (xs : List α) (x : α) :
    (xs ++ [x]).zipIdx = xs.zipIdx ++ [(x, xs.length)] := by
  simp [zipIdx_append]

theorem renumber_snoc (es : List SessionEvent) (e : SessionEvent) :
    renumber (es ++ [e]) = renumber es ++ [atPlace (e, es.length)] := by
  rw [renumber_eq, zipIdx_snoc, map_append]
  rfl

@[simp] theorem length_renumber (es : List SessionEvent) : (renumber es).length = es.length := by
  simp [renumber]

theorem numbered_renumber (es : List SessionEvent) : Numbered 1 (renumber es) := by
  induction es using List.reverseRecOn with
  | nil => trivial
  | append_singleton es e ih =>
    rw [renumber_snoc]
    refine numbered_append.mpr ⟨ih, ?_, trivial⟩
    rw [length_renumber]
    show (es.length : Int) + 1 = 1 + es.length
    omega

variable {es fs : List SessionEvent}

theorem logged_renumber {cfg : Config} (h : Logged cfg es) : Logged cfg (renumber es) := by
  intro e he
  obtain ⟨p, hp, rfl⟩ := mem_map.mp he
  obtain ⟨hwf, hs⟩ := h p.1 (fst_mem_of_mem_zipIdx hp)
  exact ⟨hwf.withSeq (by omega), hs⟩

/-- The renumbered event differs in its number alone, so the order is kept. -/
theorem renumber_same (es : List SessionEvent) :
    List.Forall₂ (fun e f => f = { e with seq := f.seq }) es (renumber es) := by
  induction es using List.reverseRecOn with
  | nil => exact .nil
  | append_singleton es e ih =>
    rw [renumber_snoc]
    exact rel_append ih (.cons rfl .nil)

theorem eq_of_numbered {gs : List SessionEvent}
    (hf : List.Forall₂ (fun e f => f = { e with seq := f.seq }) es fs)
    (hg : List.Forall₂ (fun e g => g = { e with seq := g.seq }) es gs) :
    ∀ {n : Int}, Numbered n fs → Numbered n gs → fs = gs := by
  induction hf generalizing gs with
  | nil =>
    intro n _ _
    cases hg
    rfl
  | cons hef _ ih =>
    intro n hnf hng
    cases hg with
    | cons heg hrest => rw [hef, heg, hnf.1, hng.1, ih hrest hnf.2 hng.2]

theorem eq_renumber (h : List.Forall₂ (fun e f => f = { e with seq := f.seq }) es fs)
    (hn : Numbered 1 fs) :
    fs = renumber es :=
  eq_of_numbered h (renumber_same es) hn (numbered_renumber es)

theorem renumber_eq_self (h : (es.zipIdx.any fun p => p.1.seq ≠ p.2 + 1) = false) :
    renumber es = es := by
  have hself : es.zipIdx.map atPlace = es.zipIdx.map Prod.fst := by
    refine map_congr_left fun p hp => ?_
    have hseq := any_eq_false.mp h p hp
    simp only [ne_eq, decide_not, Bool.not_eq_true', decide_eq_false_iff_not, not_not] at hseq
    rw [atPlace, ← hseq]
  rw [renumber_eq, hself, zipIdx_map_fst]

/-! ### The repair -/

section Repair

variable {cfg : Config} {log : Log} {j : SessionJournal}

/-- **The repair numbers the log from one and keeps its order; what it remembers are the old
numbers.** -/
theorem repairSequence_log (h : Logged cfg log.events) :
    repairSequence cfg ⟨j, log.bytes⟩ =
      .ok log.events.length ⟨loadedFrom log.events, render (renumber log.events)⟩ := by
  have hread : readEventsLocked cfg true false ⟨j, log.bytes⟩ = .ok log.events
      ⟨{ j with tailRequiresRecovery := false }, render log.events⟩ := by
    rw [readEventsLocked_log true j h (by simp), Bool.not_true, Bool.and_false]
    rfl
  rw [repairSequence, run_bind_ok hread]
  by_cases hnil : log.events = []
  · rw [if_pos hnil, run_bind_ok (setStateFromEvents_run _ _ _), hnil]
    rfl
  · rw [if_neg hnil]
    cases hany : log.events.zipIdx.any fun p => p.1.seq ≠ p.2 + 1 with
    | true => rfl
    | false =>
      rw [renumber_eq_self hany]
      rfl

theorem appendResolved_seq {req : Request} {attempt : Attempt} {file : Bytes} {e : SessionEvent}
    {v : View} (h : appendResolved cfg req attempt ⟨j, file⟩ = .ok e v) : e.seq = j.nextSeq := by
  cases he : resolveEpoch req j with
  | none =>
    rw [appendResolved_none he] at h
    cases h
  | some epoch =>
    cases hs : attempt.succeeds (eventLine (newEvent cfg req j.nextSeq epoch)) with
    | false =>
      rw [appendResolved_fails he hs] at h
      cases h
    | true =>
      rw [appendResolved_succeeds he hs] at h
      cases h
      rfl

variable {lock : Lock}

/-- What an append that is accepted takes as its number after the repair. -/
theorem append_repaired_seq (h : Logged cfg log.events)
    (hl : lock ≠ .busy ∨ cfg.crossProcessLock = false) {req : Request} {attempt : Attempt}
    {e : SessionEvent} {v : View}
    (happ : append cfg lock req attempt
      ⟨loadedFrom log.events, render (renumber log.events)⟩ = .ok e v) :
    e.seq = if resyncs cfg lock then (log.events.length : Int) + 1 else nextAfter log.events := by
  cases hr : resyncs cfg lock with
  | false =>
    rw [append_ready hl hr rfl] at happ
    exact appendResolved_seq happ
  | true =>
    have hnext := nextAfter_eq (numbered_renumber log.events)
    rw [length_renumber] at hnext
    rw [← append_nil (render (renumber log.events))] at happ
    have hlog : Logged cfg (Log.mk (renumber log.events) [] (by simp)).events := logged_renumber h
    have hbytes : render (renumber log.events) ++ [] =
        (Log.mk (renumber log.events) [] (by simp)).bytes := rfl
    rw [hbytes, append_resyncs hr hlog (numbered_renumber _)] at happ
    rw [appendResolved_seq happ, synced]
    split
    · exact hnext
    · exact hnext

theorem resyncs_or_refused (hc : cfg.crossProcessLock = true) (hl : lock ≠ .owned) :
    resyncs cfg lock = true ∨ lock = .busy := by
  cases lock with
  | owned => exact absurd rfl hl
  | free => exact .inl (by rw [resyncs, hc]; rfl)
  | busy => exact .inr rfl

theorem direct_of_owner (h : ¬ (cfg.crossProcessLock = true ∧ lock ≠ .owned)) :
    (lock ≠ .busy ∨ cfg.crossProcessLock = false) ∧ resyncs cfg lock = false := by
  cases hc : cfg.crossProcessLock with
  | false => exact ⟨.inr rfl, by rw [resyncs, hc]; rfl⟩
  | true =>
    have hlock : lock = .owned := not_not.mp fun hne => h ⟨hc, hne⟩
    rw [hlock]
    exact ⟨.inl (by decide), by rw [resyncs, hc]; rfl⟩

/-- **The next number.**  After the repair of a log of `N` events the next append takes `N + 1`
exactly when it resynchronises (or is refused), or the last number was right all along. -/
theorem next_seq_iff (h : Logged cfg log.events) :
    (∀ req attempt e v, append cfg lock req attempt
        ⟨loadedFrom log.events, render (renumber log.events)⟩ = .ok e v →
      e.seq = log.events.length + 1) ↔
    (cfg.crossProcessLock = true ∧ lock ≠ .owned) ∨
      nextAfter log.events = log.events.length + 1 := by
  by_cases hshared : cfg.crossProcessLock = true ∧ lock ≠ .owned
  · refine ⟨fun _ => .inl hshared, ?_⟩
    intro _ req attempt e v happ
    obtain ⟨hc, hlock⟩ := hshared
    rcases resyncs_or_refused hc hlock with hr | hbusy
    · have hl : lock ≠ .busy := by
        intro hb
        rw [hb, resyncs, hc] at hr
        cases hr
      rw [append_repaired_seq h (.inl hl) happ, if_pos hr]
    · rw [hbusy, append_busy hc] at happ
      cases happ
  · obtain ⟨hl, hr⟩ := direct_of_owner hshared
    refine ⟨?_, ?_⟩
    · intro hall
      have hready : append cfg lock (startEpoch "event" "epoch") {}
          ⟨loadedFrom log.events, render (renumber log.events)⟩ = _ := append_ready hl hr rfl _
      have hepoch : resolveEpoch (startEpoch "event" "epoch") (loadedFrom log.events) =
          some "epoch" := rfl
      rw [appendResolved_succeeds hepoch (succeeds_complete _)] at hready
      exact .inr (hall _ _ _ _ hready)
    · intro hcond req attempt e v happ
      rw [append_repaired_seq h hl happ, hr]
      rcases hcond with hcond | hnext
      · exact absurd hcond hshared
      · exact hnext

end Repair

end KolegaCode.Session
