import KolegaCode.Session.Writers
import KolegaCode.Session.Recorder

/-!
# Session — the journal of a recorder

`Held cfg v es` says that the instance a recorder works on stands on a log of the events `es`,
perhaps with a torn line behind them, and that it knows the log whenever it need not read it.  A
read returns the events, and an append adds its event or does not, whatever it reports
(`append_held`).
-/

namespace KolegaCode.Session

open Json (Dict get?)

/-- The instance stands on a log of these events. -/
structure Held (cfg : Config) (v : View) (es : List SessionEvent) : Prop where
  file : ∃ torn, newline ∉ torn ∧ v.file = render es ++ torn ∧
    (v.journal.ready = true → torn = [] ∧ v.journal = loadedFrom es)
  logged : Logged cfg es
  numbered : Numbered 1 es

section Held

variable {cfg : Config} {v : View} {es : List SessionEvent} {lock : Lock}

theorem held_loaded (h : Logged cfg es) (hn : Numbered 1 es) :
    Held cfg ⟨loadedFrom es, render es⟩ es :=
  ⟨⟨[], by simp, (List.append_nil _).symm, fun _ => ⟨rfl, rfl⟩⟩, h, hn⟩

theorem held_notReady {j : SessionJournal} (hj : j.ready = false) (log : Log)
    (h : Logged cfg log.events) (hn : Numbered 1 log.events) : Held cfg ⟨j, log.bytes⟩ log.events :=
  ⟨⟨log.torn, log.newline_not_mem, rfl, fun hr => absurd (hj.symm.trans hr) (by decide)⟩, h, hn⟩

theorem Held.exists_log (h : Held cfg v es) :
    ∃ log : Log, log.events = es ∧ v.file = log.bytes ∧
      (v.journal.ready = true → log.torn = [] ∧ v.journal = loadedFrom es) := by
  obtain ⟨torn, ht, hf, hr⟩ := h.file
  exact ⟨⟨es, torn, ht⟩, rfl, hf, hr⟩

/-- What a read leaves, whether the lock lets it repair the tail or not. -/
theorem held_read (log : Log) (h : Logged cfg log.events) (hn : Numbered 1 log.events) :
    Held cfg ⟨{ loadedFrom log.events with tailRequiresRecovery := decide (log.torn ≠ []) },
      log.bytes⟩ log.events := by
  refine ⟨⟨log.torn, log.newline_not_mem, rfl, ?_⟩, h, hn⟩
  intro hr
  by_cases htorn : log.torn = []
  · refine ⟨htorn, ?_⟩
    simp [htorn, loadedFrom]
  · simp [SessionJournal.ready, htorn] at hr

section

variable (h : Held cfg v es)
include h

theorem readEvents_held (lock : Lock) :
    ∃ v', readEvents cfg lock true v = .ok es v' ∧ Held cfg v' es := by
  obtain ⟨log, rfl, hf, -⟩ := h.exists_log
  obtain ⟨j, file⟩ := v
  simp only at hf
  subst hf
  by_cases hl : lock ≠ .busy ∨ cfg.crossProcessLock = false
  · exact ⟨_, readEvents_repair hl j h.logged h.numbered, held_loaded h.logged h.numbered⟩
  · rw [not_or, not_not, Bool.not_eq_false] at hl
    exact ⟨_, readEvents_noRepair (.inr ⟨hl.2, hl.1⟩) j h.logged h.numbered,
      held_read log h.logged h.numbered⟩

theorem currentEpoch_held (lock : Lock) :
    ∃ v', Held cfg v' es ∧ currentEpoch cfg lock v =
      match lastEpoch es with
      | some epoch => .ok epoch v'
      | none => .error s!"Session {cfg.sessionId} has no context epoch" v' := by
  have hload : ∃ v', ensureLoaded cfg lock v = .ok () v' ∧ Held cfg v' es ∧
      v'.journal.epochId = lastEpoch es := by
    obtain ⟨log, rfl, hf, hready⟩ := h.exists_log
    cases hr : v.journal.ready with
    | true =>
      refine ⟨v, ensureLoaded_ready hr v.file, h, ?_⟩
      rw [(hready hr).2]
      rfl
    | false =>
      obtain ⟨j, file⟩ := v
      simp only at hf
      subst hf
      by_cases hl : lock ≠ .busy ∨ cfg.crossProcessLock = false
      · exact ⟨_, ensureLoaded_notReady hl hr h.logged h.numbered,
          held_loaded h.logged h.numbered, rfl⟩
      · rw [not_or, not_not, Bool.not_eq_false] at hl
        refine ⟨_, ?_, held_read log h.logged h.numbered, rfl⟩
        exact ensureLoaded_busy hl.2 hl.1 hr h.logged h.numbered
  obtain ⟨v', hv, hheld, hepoch⟩ := hload
  refine ⟨v', hheld, ?_⟩
  rw [currentEpoch, run_bind_ok hv]
  cases hl : lastEpoch es with
  | none | some epoch =>
    rw [hl] at hepoch
    simp only [bind, EStateM.bind, estate_get, hepoch]
    rfl

theorem append_held_eq (hl : lock ≠ .busy ∨ cfg.crossProcessLock = false)
    (req : Request) (attempt : Attempt) :
    append cfg lock req attempt v =
      appendResolved cfg req attempt ⟨loadedFrom es, render es⟩ := by
  obtain ⟨log, rfl, hf, hready⟩ := h.exists_log
  obtain ⟨j, file⟩ := v
  simp only at hf hready
  subst hf
  cases hr : j.ready with
  | true =>
    obtain ⟨ht, hj⟩ := hready hr
    rw [Log.bytes, ht, List.append_nil]
    exact append_known hl h.logged h.numbered fun _ => hj
  | false =>
    cases hs : resyncs cfg lock with
    | true =>
      have hsync : synced log j = loadedFrom log.events := by
        rw [synced, hr]
        rfl
      rw [append_resyncs hs h.logged h.numbered, hsync]
    | false => exact append_notReady hl hs hr h.logged h.numbered

/-- **What an append does to the log of a recorder:** it adds its event or not, and it is
acknowledged only if it did. -/
theorem append_held (lock : Lock) (req : Request) (attempt : Attempt) :
    ∃ v', (∃ epoch, resolveEpoch req (loadedFrom es) = some epoch ∧
        append cfg lock req attempt v = .ok (newEvent cfg req (nextAfter es) epoch) v' ∧
        Held cfg v' (es ++ [newEvent cfg req (nextAfter es) epoch])) ∨
      ∃ message, append cfg lock req attempt v = .error message v' ∧
        (Held cfg v' es ∨ ∃ epoch, resolveEpoch req (loadedFrom es) = some epoch ∧
          Held cfg v' (es ++ [newEvent cfg req (nextAfter es) epoch])) := by
  by_cases hl : lock ≠ .busy ∨ cfg.crossProcessLock = false
  · have hout : Outcome cfg req es (loadedFrom es)
        (appendResolved cfg req attempt ⟨loadedFrom es, render es⟩) :=
      appendResolved_outcome h.numbered rfl
    rw [append_held_eq h hl]
    generalize appendResolved cfg req attempt ⟨loadedFrom es, render es⟩ = result at hout ⊢
    cases hout with
    | refused => exact ⟨_, .inr ⟨_, rfl, .inl (held_loaded h.logged h.numbered)⟩⟩
    | written he =>
      obtain ⟨hlog, hn⟩ := logged_append_newEvent h.logged h.numbered he
      rw [loadedFrom_advanced cfg]
      exact ⟨_, .inl ⟨_, he, rfl, held_loaded hlog hn⟩⟩
    | torn hrest =>
      exact ⟨_, .inr ⟨_, rfl, .inl (held_notReady rfl _ h.logged h.numbered)⟩⟩
    | unreported he =>
      obtain ⟨hlog, hn⟩ := logged_append_newEvent h.logged h.numbered he
      refine ⟨_, .inr ⟨_, rfl, .inr ⟨_, he, ?_⟩⟩⟩
      exact ⟨⟨[], by simp, (List.append_nil _).symm, by simp [SessionJournal.ready]⟩, hlog, hn⟩
  · rw [not_or, not_not, Bool.not_eq_false] at hl
    rw [hl.1, append_busy hl.2]
    exact ⟨v, .inr ⟨_, rfl, .inl h⟩⟩

theorem append_held_complete (hl : lock ≠ .busy ∨ cfg.crossProcessLock = false) {req : Request}
    {epoch : String} (he : resolveEpoch req (loadedFrom es) = some epoch) :
    ∃ v', append cfg lock req {} v = .ok (newEvent cfg req (nextAfter es) epoch) v' ∧
      Held cfg v' (es ++ [newEvent cfg req (nextAfter es) epoch]) := by
  obtain ⟨v', happ⟩ := append_held h lock req {}
  have hok : append cfg lock req {} v = .ok _ _ :=
    (append_held_eq h hl req {}).trans (appendResolved_succeeds he (succeeds_complete _))
  rcases happ with ⟨epoch', he', happ, hheld⟩ | ⟨message, happ, -⟩
  · rw [he] at he'
    cases he'
    exact ⟨v', happ, hheld⟩
  · rw [happ] at hok
    cases hok

theorem append_held_raises (hl : lock ≠ .busy ∨ cfg.crossProcessLock = false) {req : Request}
    {epoch : String}
    (he : resolveEpoch req (loadedFrom es) = some epoch) :
    ∃ message v', append cfg lock req { raises := true } v = .error message v' ∧
      Held cfg v' es := by
  rw [append_held_eq h hl, appendResolved_fails he rfl]
  refine ⟨_, _, rfl, ?_⟩
  exact ⟨⟨[], by simp, rfl, by simp [SessionJournal.ready]⟩, h.logged, h.numbered⟩

end

end Held

end KolegaCode.Session
