import KolegaCode.Session.Append

/-!
# Session — crash recovery

A crash leaves a byte prefix of the log.  Its complete lines are those that end within it
(`linesWithin`), and what remains is the beginning of one more line, so reading it with a repair
returns exactly these events, and the next append continues their numbers.
-/

namespace KolegaCode.Session

open List

/-! ### The complete lines of a prefix -/

/-- The events whose lines end within the first `n` bytes. -/
def linesWithin : (n : Nat) → List SessionEvent → List SessionEvent
  | _, [] => []
  | n, e :: es =>
    if (eventLine e).length ≤ n then e :: linesWithin (n - (eventLine e).length) es else []

theorem linesWithin_prefix (es : List SessionEvent) : ∀ n, linesWithin n es <+: es := by
  induction es with
  | nil =>
    intro n
    exact prefix_refl _
  | cons e es ih =>
    intro n
    rw [linesWithin]
    split
    · exact prefix_cons_inj e |>.mpr (ih _)
    · exact nil_prefix

theorem newline_not_mem_cutLine {e : SessionEvent} (h : e.WellFormed) {p : Bytes}
    (hp : p <+: eventLine e) (hlen : p.length < (eventLine e).length) : newline ∉ p := by
  rcases prefix_concat_iff.mp hp with heq | hp
  · rw [heq] at hlen
    exact absurd hlen (Nat.lt_irrefl _)
  · exact fun hm => newline_not_mem_eventText h (hp.subset hm)

/-- **A prefix of a log is its complete lines and a torn one.** -/
theorem prefix_render {cfg : Config} {es : List SessionEvent} (h : Logged cfg es) :
    ∀ {p : Bytes}, p <+: render es →
      ∃ torn, newline ∉ torn ∧ p = render (linesWithin p.length es) ++ torn := by
  induction es with
  | nil =>
    intro p hp
    rw [render_nil, prefix_nil] at hp
    exact ⟨[], by simp, by rw [hp]; rfl⟩
  | cons e es ih =>
    intro p hp
    rw [linesWithin]
    by_cases hlen : (eventLine e).length ≤ p.length
    · obtain ⟨r, rfl⟩ := prefix_of_prefix_length_le (prefix_append ..) hp hlen
      obtain ⟨torn, ht, hr⟩ := ih (fun e' he' => h e' (by simp [he']))
        ((prefix_append_right_inj _).mp hp)
      refine ⟨torn, ht, ?_⟩
      rw [if_pos hlen, length_append, Nat.add_sub_cancel_left, render_cons, append_assoc, ← hr]
    · have hpe : p <+: eventLine e :=
        prefix_of_prefix_length_le hp (prefix_append ..) (by omega)
      refine ⟨p, newline_not_mem_cutLine (h e (by simp)).1 hpe (by omega), ?_⟩
      rw [if_neg hlen]
      rfl

/-! ### Logs of complete appends -/

/-- What complete appends lead to, by one instance after the other. -/
inductive Produced (cfg : Config) : View → Prop where
  | created : Produced cfg ⟨{}, []⟩
  | appended {v v' : View} {lock : Lock} {req : Request} {e : SessionEvent} :
    Produced cfg v → append cfg lock req {} v = .ok e v' → Produced cfg v'
  | reopened {v : View} : Produced cfg v → Produced cfg ⟨{}, v.file⟩

/-- A complete append adds its event, numbered next, or is refused for want of an epoch. -/
theorem append_complete {cfg : Config} {lock : Lock} (req : Request) {es : List SessionEvent}
    {j : SessionJournal} (hl : lock ≠ .busy ∨ cfg.crossProcessLock = false) (h : Logged cfg es)
    (hn : Numbered 1 es) (hj : j.ready = true → j = loadedFrom es) :
    append cfg lock req {} ⟨j, render es⟩ =
      match resolveEpoch req (loadedFrom es) with
      | none => .error "An epoch id is required for every session event"
          ⟨loadedFrom es, render es⟩
      | some epoch => .ok (newEvent cfg req (nextAfter es) epoch)
          ⟨loadedFrom (es ++ [newEvent cfg req (nextAfter es) epoch]),
            render (es ++ [newEvent cfg req (nextAfter es) epoch])⟩ := by
  rw [append_known hl h hn hj]
  cases he : resolveEpoch req (loadedFrom es) with
  | none => exact appendResolved_none he
  | some epoch =>
    rw [appendResolved_succeeds he (succeeds_complete _), loadedFrom_advanced cfg]
    simp only [loadedFrom, render_append, render_singleton]

/-- The log of complete appends is the lines of numbered events; an instance that is ready knows
them. -/
theorem produced_log {cfg : Config} {v : View} (h : Produced cfg v) :
    ∃ es, v.file = render es ∧ Logged cfg es ∧ Numbered 1 es ∧
      (v.journal.ready = true → v.journal = loadedFrom es) := by
  induction h with
  | created => exact ⟨[], rfl, by simp [Logged], trivial, by simp [SessionJournal.ready]⟩
  | reopened _ ih =>
    obtain ⟨es, hf, hl, hn, -⟩ := ih
    exact ⟨es, hf, hl, hn, by simp [SessionJournal.ready]⟩
  | @appended v v' lock req e _ ha ih =>
    obtain ⟨es, hf, hlog, hn, hj⟩ := ih
    have hl : lock ≠ .busy ∨ cfg.crossProcessLock = false := by
      by_cases hb : lock = .busy
      · refine .inr (Bool.eq_false_iff.mpr fun hc => ?_)
        rw [hb, append_busy hc] at ha
        cases ha
      · exact .inl hb
    obtain ⟨j, file⟩ := v
    subst hf
    rw [append_complete req hl hlog hn hj] at ha
    split at ha
    · cases ha
    · rename_i epoch he
      cases ha
      obtain ⟨hlog', hn'⟩ := logged_append_newEvent hlog hn he
      exact ⟨_, rfl, hlog', hn', fun _ => rfl⟩

/-! ### Recovery -/

/-- **Crash recovery.**  Of every byte prefix of a log of complete appends, a read with a repair
returns exactly the events whose lines are complete, and leaves only them.  The next append, of an
instance that owns the lock or finds it free, adds one event with the next number; without an epoch
of its own and without an `epoch_started` among them it is refused and the log stays. -/
theorem crash_recovery {cfg : Config} {v : View} (hv : Produced cfg v)
    {p : Bytes} (hp : p <+: v.file) (j : SessionJournal) {lock lock' : Lock}
    (hl : lock ≠ .busy ∨ cfg.crossProcessLock = false)
    (hl' : lock' ≠ .busy ∨ cfg.crossProcessLock = false) (req : Request) :
    ∃ es v₁, parseEventBytes cfg true v.file = .ok es ∧
      readEvents cfg lock true ⟨j, p⟩ = .ok (linesWithin p.length es) v₁ ∧
      parseEventBytes cfg true v₁.file = .ok (linesWithin p.length es) ∧
      match resolveEpoch req (loadedFrom (linesWithin p.length es)) with
      | some _ => ∃ e v₂, append cfg lock' req {} v₁ = .ok e v₂ ∧
          e.seq = (linesWithin p.length es).length + 1 ∧
          parseEventBytes cfg true v₂.file = .ok (linesWithin p.length es ++ [e])
      | none => ∃ v₂, append cfg lock' req {} v₁ =
            .error "An epoch id is required for every session event" v₂ ∧
          v₂.file = v₁.file := by
  obtain ⟨es, hf, hlog, hn, -⟩ := produced_log hv
  rw [hf] at hp ⊢
  obtain ⟨torn, ht, hpt⟩ := prefix_render hlog hp
  obtain ⟨rest, hrest⟩ := linesWithin_prefix es p.length
  have hlogS : Logged cfg (linesWithin p.length es) := by
    intro e he
    exact hlog e (hrest ▸ mem_append_left _ he)
  have hnS : Numbered 1 (linesWithin p.length es) := by
    rw [← hrest] at hn
    exact (numbered_append.mp hn).1
  have hlogL : Logged cfg (Log.mk (linesWithin p.length es) torn ht).events := hlogS
  have hread : readEvents cfg lock true ⟨j, (Log.mk (linesWithin p.length es) torn ht).bytes⟩ = _ :=
    readEvents_repair hl j hlogL hnS
  refine ⟨es, ⟨loadedFrom (linesWithin p.length es), render (linesWithin p.length es)⟩,
    parseEventBytes_render hlog fun _ => hn, ?_, parseEventBytes_render hlogS fun _ => hnS, ?_⟩
  · rw [← hread]
    exact congrArg (fun file => readEvents cfg lock true ⟨j, file⟩) hpt
  · have happ := append_complete req hl' hlogS hnS (fun _ => rfl)
    cases he : resolveEpoch req (loadedFrom (linesWithin p.length es)) with
    | none =>
      rw [he] at happ
      exact ⟨_, happ, rfl⟩
    | some epoch =>
      rw [he] at happ
      obtain ⟨hlog', hn'⟩ := logged_append_newEvent hlogS hnS he
      exact ⟨_, _, happ, nextAfter_eq hnS, parseEventBytes_render hlog' fun _ => hn'⟩

/-- The start of the first epoch. -/
def firstEvent : SessionEvent :=
  newEvent sharedConfig (startEpoch "event-1" "epoch-1" event1_ne) 1 "epoch-1"

theorem produced_firstEvent :
    Produced sharedConfig ⟨loadedFrom [firstEvent], render [firstEvent]⟩ := by
  have hnil : Logged sharedConfig [] := by simp [Logged]
  have happ : append sharedConfig .free (startEpoch "event-1" "epoch-1") {} ⟨{}, render []⟩ = _ :=
    append_complete _ (.inl (by decide)) hnil trivial (by simp [SessionJournal.ready])
  exact .appended .created happ

/-- The first event written without its newline is not read. -/
theorem crash_recovery_missingNewline :
    ∃ es v₁, parseEventBytes sharedConfig true (render [firstEvent]) = .ok es ∧
      readEvents sharedConfig .free true ⟨{}, eventText firstEvent⟩ =
        .ok (linesWithin (eventText firstEvent).length es) v₁ ∧
      parseEventBytes sharedConfig true v₁.file =
        .ok (linesWithin (eventText firstEvent).length es) := by
  have hp : eventText firstEvent <+: render [firstEvent] := by
    rw [render_singleton]
    exact prefix_append ..
  obtain ⟨es, v₁, hes, hread, hfile, -⟩ := crash_recovery produced_firstEvent hp {}
    (.inl (by decide : Lock.free ≠ .busy)) (.inl (by decide : Lock.free ≠ .busy))
    (goalEvaluated "event-2")
  exact ⟨es, v₁, hes, hread, hfile⟩

end KolegaCode.Session
