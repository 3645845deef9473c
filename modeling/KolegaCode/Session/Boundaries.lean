import KolegaCode.Session.Resequence
import KolegaCode.Session.Rewind

/-!
# Session — renumbering and the boundaries of rewinds

A rewind stores the number of the event it goes back to.  The repair gives that event a new number
and leaves the stored one, so the replay of a repaired log compares new numbers with old
boundaries.  `resolve` is the log in which the references are renumbered as well.

Both replays start from the same entries of the log, its `Ledger`: the messages and compactions of
the last epoch and the rewinds.  Each keeps the entries that no later rewind reaches
(`foldlM_viewed`), so they agree exactly when the ledger is `Aligned`.
-/

namespace KolegaCode.Session

open List
open Json (Dict get?)

/-! ### References -/

/-- Which event each rewind of the log refers to, by its place: one that has the stored number. -/
structure References (es : List SessionEvent) where
  place : Nat → Nat
  refers : ∀ i e b, es[i]? = some e → e.eventType = "context.rewound" → boundarySeq? e = some b →
    ∃ target, es[place i]? = some target ∧ target.seq = b

/-- The payload with another boundary, if it has one. -/
def setBoundary (n : Int) (payload : Dict) : Dict :=
  payload.map fun p => if p.1 = "boundary_seq" then (p.1, .int n) else p

/-- The event at its place, and a rewind with the new number of the event it refers to. -/
def resolveAt (place : Nat → Nat) (p : SessionEvent × Nat) : SessionEvent :=
  if p.1.eventType = "context.rewound" ∧ (boundarySeq? p.1).isSome then
    { atPlace p with payload := setBoundary (place p.2 + 1) p.1.payload }
  else atPlace p

/-- The log with every number, and every reference to one, understood as the event's place. -/
def resolve (place : Nat → Nat) (es : List SessionEvent) : List SessionEvent :=
  es.zipIdx.map (resolveAt place)

theorem get?_setBoundary (n : Int) (payload : Dict) :
    get? (setBoundary n payload) "boundary_seq" =
      (get? payload "boundary_seq").map fun _ => .int n := by
  induction payload with
  | nil => rfl
  | cons p payload ih =>
    obtain ⟨k, v⟩ := p
    rw [setBoundary, map_cons, ← setBoundary]
    by_cases hk : k = "boundary_seq"
    · simp [hk, Json.get?_cons]
    · simp [hk, Json.get?_cons, ih]

/-! ### The entries of a log -/

/-- A rewind: the numbers its epoch's start and the rewind itself get, the boundary it stores, and
the number the event it refers to gets. -/
structure RewindEntry where
  start : Int
  own : Int
  stored : Int
  target : Int
deriving Repr, DecidableEq

/-- The events of the last epoch that carry a message or a compaction, with their places, and all
rewinds the replay has met. -/
structure Ledger where
  epoch : Option String := none
  start : Int := 0
  messages : List (SessionEvent × Nat) := []
  compactions : List (SessionEvent × Nat) := []
  rewinds : List RewindEntry := []

/-- The event adds no message: its completion is archived, or it continues a turn. -/
def passedOver (archived : List String) (e : SessionEvent) : Bool :=
  (e.eventType = "context.message" && isArchived archived e) ||
    (e.eventType = "turn.started" && (get? e.payload "continuation").any truthy)

/-- What an event is to the replay in an epoch. -/
inductive Effect where
  | pass
  | epoch
  | message
  | compaction
  | rewind
deriving Repr, DecidableEq

def effect (archived : List String) (epoch : Option String) (e : SessionEvent) : Effect :=
  if e.sub then .pass
  else if e.eventType = "context.epoch_started" then .epoch
  else if epoch ≠ some e.epochId then .pass
  else if e.eventType ∈ messageEvents then if passedOver archived e then .pass else .message
  else if e.eventType = "context.compacted" then .compaction
  else if e.eventType = "context.rewound" then .rewind
  else .pass

def ledgerStep (archived : List String) (place : Nat → Nat) (l : Ledger)
    (p : SessionEvent × Nat) : Ledger :=
  match effect archived l.epoch p.1 with
  | .pass => l
  | .epoch => { epoch := some p.1.epochId, start := p.2 + 1, rewinds := l.rewinds }
  | .message => { l with messages := l.messages ++ [p] }
  | .compaction => { l with compactions := l.compactions ++ [p] }
  | .rewind =>
    match boundarySeq? p.1 with
    | some b => { l with rewinds := l.rewinds ++ [⟨l.start, p.2 + 1, b, place p.2 + 1⟩] }
    | none => l

def ledger (archived : List String) (place : Nat → Nat) (es : List SessionEvent) : Ledger :=
  es.zipIdx.foldl (ledgerStep archived place) {}

theorem ledger_snoc (archived : List String) (place : Nat → Nat) (es : List SessionEvent)
    (e : SessionEvent) :
    ledger archived place (es ++ [e]) =
      ledgerStep archived place (ledger archived place es) (e, es.length) := by
  rw [ledger, zipIdx_snoc, foldl_append]
  rfl

/-- No rewind behind the place reaches it, when a rewind goes back to the number `bound` gives. -/
def survives (bound : RewindEntry → Int) (rewinds : List RewindEntry)
    (p : SessionEvent × Nat) : Bool :=
  rewinds.all fun r => r.own ≤ p.2 + 1 || p.2 + 1 < bound r

/-- The stored boundaries say the same as the events the rewinds refer to: no stored boundary lies
in front of its epoch, the same messages are in front of every later boundary, and the same
compaction is the last one in front of every later boundary. -/
structure Aligned (l : Ledger) : Prop where
  valid : ∀ r ∈ l.rewinds, r.start < r.stored
  messages : ∀ p ∈ l.messages,
    survives RewindEntry.stored l.rewinds p = survives RewindEntry.target l.rewinds p
  compaction : (l.compactions.filter (survives RewindEntry.stored l.rewinds)).getLast? =
    (l.compactions.filter (survives RewindEntry.target l.rewinds)).getLast?

/-! ### Reading the log in two ways -/

/-- The events are read at their places, and rewinds go back to the number `bound` gives. -/
structure Views (place : Nat → Nat) (bound : RewindEntry → Int)
    (view : SessionEvent × Nat → SessionEvent) : Prop where
  same : ∀ p, p.1.eventType ≠ "context.rewound" → view p = atPlace p
  sub : ∀ p, (view p).sub = p.1.sub
  eventType : ∀ p, (view p).eventType = p.1.eventType
  epochId : ∀ p, (view p).epochId = p.1.epochId
  boundary : ∀ p start, p.1.eventType = "context.rewound" → boundarySeq? (view p) =
    (boundarySeq? p.1).map fun b => bound ⟨start, p.2 + 1, b, place p.2 + 1⟩

/-- The repaired log goes back to the stored numbers. -/
theorem views_stored (place : Nat → Nat) : Views place RewindEntry.stored atPlace where
  same _ _ := rfl
  sub _ := rfl
  eventType _ := rfl
  epochId _ := rfl
  boundary _ _ _ := Option.map_id'.symm

/-- The resolved log goes back to the events that are referred to. -/
theorem views_target (place : Nat → Nat) : Views place RewindEntry.target (resolveAt place) where
  same p h := if_neg fun hc => h hc.1
  sub p := by
    rw [resolveAt]
    split <;> rfl
  eventType p := by
    rw [resolveAt]
    split <;> rfl
  epochId p := by
    rw [resolveAt]
    split <;> rfl
  boundary p start ht := by
    cases hb : boundarySeq? p.1 with
    | none =>
      rw [resolveAt, if_neg (by simp [hb])]
      exact hb
    | some b =>
      rw [resolveAt, if_pos ⟨ht, by rw [hb]; rfl⟩]
      obtain ⟨v, hv, -⟩ := Option.bind_eq_some_iff.mp hb
      rw [boundarySeq?, get?_setBoundary, hv]
      rfl

/-! ### One event -/

/-- The message of an event, hydrated. -/
def messageOf (hydrate : Dict → Except String Dict) (e : SessionEvent) : Option Dict :=
  match get? e.payload "message" with
  | some (.obj message) => (hydrate message).toOption
  | _ => none

def compactionOf (e : SessionEvent) : Option Dict :=
  match get? e.payload "compaction" with
  | some (.obj value) => some value
  | _ => none

/-- What an entry contributes, with its number. -/
def labelled (content : SessionEvent → Option Dict) (p : SessionEvent × Nat) : Int × Dict :=
  (p.2 + 1, (content p.1).getD [])

/-- The replay has kept the entries of the ledger that survive. -/
structure Tracks (hydrate : Dict → Except String Dict) (bound : RewindEntry → Int)
    (s : ReplayState) (l : Ledger) : Prop where
  epoch : s.currentEpoch = l.epoch
  start : s.epochStartSeq = l.start
  messages : s.messages =
    (l.messages.filter (survives bound l.rewinds)).map (labelled (messageOf hydrate))
  compactions : s.compactions =
    (l.compactions.filter (survives bound l.rewinds)).map (labelled compactionOf)

/-- The entries lie in front of the place. -/
structure Ledger.Within (l : Ledger) (n : Nat) : Prop where
  messages : ∀ p ∈ l.messages, p.2 < n
  compactions : ∀ p ∈ l.compactions, p.2 < n
  rewinds : ∀ r ∈ l.rewinds, r.own ≤ n

variable {bound' : RewindEntry → Int} {view' : SessionEvent × Nat → SessionEvent}

section Step

variable {hydrate : Dict → Except String Dict} {archived : List String} {place : Nat → Nat}
  {bound : RewindEntry → Int} {view : SessionEvent × Nat → SessionEvent} {s s' : ReplayState}
  {l : Ledger} {e : SessionEvent} {n : Nat}

theorem passedOver_iff : passedOver archived e = true ↔
    (e.eventType = "context.message" ∧ isArchived archived e = true) ∨
      (e.eventType = "turn.started" ∧ (get? e.payload "continuation").any truthy = true) := by
  simp [passedOver]

theorem replayMessage_eq_ok :
    replayMessage hydrate archived s e = .ok s' ↔
      if passedOver archived e then s' = s
      else (messageOf hydrate e).isSome ∧
        s' = { s with messages := s.messages ++ [(e.seq, (messageOf hydrate e).getD [])] } := by
  rw [replayMessage]
  split
  · rename_i hc
    rw [if_pos (passedOver_iff.mpr (.inl hc)), Except.ok.injEq, eq_comm]
  split
  · rename_i ht
    rw [if_pos (passedOver_iff.mpr (.inr ht)), Except.ok.injEq, eq_comm]
  rename_i hc ht
  rw [if_neg fun h => (passedOver_iff.mp h).elim hc ht]
  rcases hg : get? e.payload "message" with _ | v
  · simp [messageOf, hg]
  cases v with
  | obj message =>
    cases hh : hydrate message with
    | error text => simp [messageOf, hg, hh, bind, Except.bind, Except.toOption]
    | ok m =>
      simp only [messageOf, hg, hh, bind, Except.bind, Except.toOption, Option.isSome_some,
        Option.getD_some, true_and, pure, Except.pure, Except.ok.injEq]
      exact eq_comm
  | _ => simp [messageOf, hg]

theorem replayCompaction_eq_ok :
    replayCompaction s e = .ok s' ↔
      (compactionOf e).isSome ∧
        s' = { s with compactions := s.compactions ++ [(e.seq, (compactionOf e).getD [])] } := by
  rw [replayCompaction]
  rcases hg : get? e.payload "compaction" with _ | v
  · simp [compactionOf, hg]
  cases v with
  | obj value =>
    simp only [compactionOf, hg, Option.isSome_some, Option.getD_some, true_and, Except.ok.injEq]
    exact eq_comm
  | _ => simp [compactionOf, hg]

theorem replayRewind_eq_ok :
    replayRewind s e = .ok s' ↔
      ∃ b, boundarySeq? e = some b ∧ s.epochStartSeq < b ∧ s' = s.cut b := by
  rw [replayRewind]
  cases hb : boundarySeq? e with
  | none => simp
  | some b =>
    by_cases hle : b ≤ s.epochStartSeq
    · simp only [hle, if_true, Option.some.injEq, exists_eq_left']
      refine ⟨?_, ?_⟩
      · intro h
        cases h
      · intro h
        omega
    · simp only [hle, if_false, Except.ok.injEq, Option.some.injEq, exists_eq_left', eq_comm]
      simp [Int.not_le.mp hle]

variable {p : SessionEvent × Nat}

theorem replayStep_eq_ok (hv : Views place bound view) :
    replayStep hydrate archived s (view p) = .ok s' ↔
      match effect archived s.currentEpoch p.1 with
      | .pass => s' = s
      | .epoch => s' = { currentEpoch := some p.1.epochId, epochStartSeq := p.2 + 1 }
      | .message => (messageOf hydrate p.1).isSome ∧
        s' = { s with messages := s.messages ++ [labelled (messageOf hydrate) p] }
      | .compaction => (compactionOf p.1).isSome ∧
        s' = { s with compactions := s.compactions ++ [labelled compactionOf p] }
      | .rewind => ∃ b, boundarySeq? p.1 = some b ∧
        s.epochStartSeq < bound ⟨s.epochStartSeq, p.2 + 1, b, place p.2 + 1⟩ ∧
        s' = s.cut (bound ⟨s.epochStartSeq, p.2 + 1, b, place p.2 + 1⟩) := by
  rw [replayStep, effect, hv.sub, hv.eventType, hv.epochId]
  by_cases hrew : p.1.eventType = "context.rewound"
  · have hepoch : p.1.eventType ≠ "context.epoch_started" := by
      rw [hrew]
      decide
    have hmessage : p.1.eventType ∉ messageEvents := by
      rw [hrew]
      decide
    have hcomp : p.1.eventType ≠ "context.compacted" := by
      rw [hrew]
      decide
    simp only [if_neg hepoch, if_neg hmessage, if_neg hcomp, if_pos hrew]
    split
    · rw [Except.ok.injEq, eq_comm]
    split
    · rw [Except.ok.injEq, eq_comm]
    simp only [replayRewind_eq_ok, hv.boundary p s.epochStartSeq hrew, Option.map_eq_some_iff,
      exists_exists_and_eq_and]
  rw [hv.same p hrew]
  split
  · rw [Except.ok.injEq, eq_comm]
  split
  · rw [Except.ok.injEq, eq_comm]
    rfl
  split
  · rw [Except.ok.injEq, eq_comm]
  split
  · rw [replayMessage_eq_ok, show passedOver archived (atPlace p) = passedOver archived p.1 from rfl]
    split
    · rfl
    · rfl
  split
  · rw [replayCompaction_eq_ok]
    rfl
  · rw [Except.ok.injEq, eq_comm]

theorem survives_new (h : ∀ r ∈ l.rewinds, r.own ≤ n) : survives bound l.rewinds (e, n) = true := by
  refine all_eq_true.mpr fun r hr => ?_
  have := h r hr
  simp only [Bool.or_eq_true, decide_eq_true_eq]
  omega

/-- A rewind leaves what survived so far and is in front of its boundary. -/
theorem filter_survives_snoc {xs : List (SessionEvent × Nat)} (h : ∀ p ∈ xs, p.2 < n)
    (rewinds : List RewindEntry) {r : RewindEntry} (hr : r.own = n + 1)
    (content : SessionEvent → Option Dict) :
    (xs.filter (survives bound (rewinds ++ [r]))).map (labelled content) =
      ((xs.filter (survives bound rewinds)).map (labelled content)).filter
        fun q => q.1 < bound r := by
  rw [filter_map, filter_filter]
  refine congrArg _ (filter_congr fun p hp => ?_)
  have hlt := h p hp
  have hown : ¬ r.own ≤ (p.2 : Int) + 1 := by omega
  simp only [survives, all_append, all_cons, all_nil, Bool.and_true, hown,
    decide_false, Bool.false_or]
  exact Bool.and_comm _ _

theorem tracks_step (hv : Views place bound view) (ht : Tracks hydrate bound s l)
    (hw : l.Within n) (h : replayStep hydrate archived s (view (e, n)) = .ok s') :
    Tracks hydrate bound s' (ledgerStep archived place l (e, n)) := by
  have hnew : survives bound l.rewinds (e, n) = true := survives_new hw.rewinds
  rw [replayStep_eq_ok hv, ht.epoch] at h
  rw [ledgerStep]
  cases heff : effect archived l.epoch e with
  | pass =>
    simp only [heff] at h
    rw [h]
    exact ht
  | epoch =>
    simp only [heff] at h
    rw [h]
    exact ⟨rfl, rfl, rfl, rfl⟩
  | message =>
    simp only [heff] at h
    rw [h.2]
    refine ⟨rfl, ht.start, ?_, ht.compactions⟩
    simp only [filter_append, filter_singleton, hnew, map_append, ht.messages]
    rfl
  | compaction =>
    simp only [heff] at h
    rw [h.2]
    refine ⟨rfl, ht.start, ht.messages, ?_⟩
    simp only [filter_append, filter_singleton, hnew, map_append, ht.compactions]
    rfl
  | rewind =>
    simp only [heff] at h
    obtain ⟨b, hb, -, rfl⟩ := h
    simp only [hb, ht.start]
    refine ⟨ht.epoch, ht.start, ?_, ?_⟩
    · rw [filter_survives_snoc hw.messages _ rfl, ← ht.messages]
      rfl
    · rw [filter_survives_snoc hw.compactions _ rfl, ← ht.compactions]
      rfl

theorem within_step (hw : l.Within n) : (ledgerStep archived place l (e, n)).Within (n + 1) := by
  have hm : ∀ p ∈ l.messages, p.2 < n + 1 := fun p hp => Nat.lt_succ_of_lt (hw.messages p hp)
  have hc : ∀ p ∈ l.compactions, p.2 < n + 1 :=
    fun p hp => Nat.lt_succ_of_lt (hw.compactions p hp)
  have hr : ∀ r ∈ l.rewinds, r.own ≤ (n + 1 : Nat) := by
    intro r hr
    have := hw.rewinds r hr
    omega
  rw [ledgerStep]
  cases effect archived l.epoch e with
  | pass => exact ⟨hm, hc, hr⟩
  | epoch => exact ⟨by simp, by simp, hr⟩
  | message =>
    refine ⟨?_, hc, hr⟩
    simp only [forall_mem_append, forall_mem_singleton]
    exact ⟨hm, Nat.lt_succ_self n⟩
  | compaction =>
    refine ⟨hm, ?_, hr⟩
    simp only [forall_mem_append, forall_mem_singleton]
    exact ⟨hc, Nat.lt_succ_self n⟩
  | rewind =>
    cases boundarySeq? e with
    | none => exact ⟨hm, hc, hr⟩
    | some b =>
      refine ⟨hm, hc, ?_⟩
      simp only [forall_mem_append, forall_mem_singleton]
      exact ⟨hr, Int.le_refl _⟩

theorem rewinds_subset {r : RewindEntry} (h : r ∈ l.rewinds) :
    r ∈ (ledgerStep archived place l p).rewinds := by
  rw [ledgerStep]
  split
  · exact h
  · exact h
  · exact h
  · exact h
  · split
    · exact mem_append_left _ h
    · exact h

/-- Where one reading of the event succeeds, another does when its boundaries stay behind the start
of their epoch. -/
theorem step_ok_iff {t : ReplayState} (hv : Views place bound view)
    (hv' : Views place bound' view') (ht : Tracks hydrate bound s l)
    (ht' : Tracks hydrate bound' t l) (h : replayStep hydrate archived s (view (e, n)) = .ok s')
    (hvalid : ∀ r ∈ l.rewinds, r.start < bound' r) :
    (∃ t', replayStep hydrate archived t (view' (e, n)) = .ok t') ↔
      ∀ r ∈ (ledgerStep archived place l (e, n)).rewinds, r.start < bound' r := by
  simp only [replayStep_eq_ok hv, replayStep_eq_ok hv', ht.epoch, ht'.epoch] at h ⊢
  rw [ledgerStep]
  cases heff : effect archived l.epoch e with
  | pass | epoch => simpa [heff] using hvalid
  | message | compaction =>
    simp only [heff] at h
    simpa [heff, h.1] using hvalid
  | rewind =>
    simp only [heff] at h
    obtain ⟨b, hb, -, -⟩ := h
    simp only [hb, ht'.start, Option.some.injEq, exists_eq_left', exists_and_left,
      exists_eq, and_true, forall_mem_append, forall_mem_singleton]
    exact ⟨fun hb => ⟨hvalid, hb⟩, fun hb => hb.2⟩

theorem archiveStep_view (hv : Views place bound view) (a : ArchiveState)
    (p : SessionEvent × Nat) : archiveStep a (view p) = archiveStep a p.1 := by
  by_cases hrew : p.1.eventType = "context.rewound"
  · simp [archiveStep, hv.sub, hv.eventType, hrew]
  · rw [hv.same p hrew]
    rfl

end Step

/-! ### The whole log -/

section Run

variable {hydrate : Dict → Except String Dict} {archived : List String} {place : Nat → Nat}
  {bound : RewindEntry → Int} {view : SessionEvent × Nat → SessionEvent}
  {es : List SessionEvent} {s : ReplayState}

theorem within_ledger (archived : List String) (place : Nat → Nat) (es : List SessionEvent) :
    (ledger archived place es).Within es.length := by
  induction es using List.reverseRecOn with
  | nil => exact ⟨by simp [ledger], by simp [ledger], by simp [ledger]⟩
  | append_singleton es e ih =>
    rw [ledger_snoc, length_append, length_singleton]
    exact within_step ih

theorem compactions_subset (archived : List String) (place : Nat → Nat) (es : List SessionEvent) :
    ∀ p ∈ (ledger archived place es).compactions, p ∈ es.zipIdx := by
  induction es using List.reverseRecOn with
  | nil => simp [ledger]
  | append_singleton es e ih =>
    intro p hp
    rw [zipIdx_snoc, mem_append, mem_singleton]
    rw [ledger_snoc, ledgerStep] at hp
    split at hp
    · exact .inl (ih p hp)
    · cases hp
    · exact .inl (ih p hp)
    · rcases mem_append.mp hp with hp | hp
      · exact .inl (ih p hp)
      · exact .inr (mem_singleton.mp hp)
    · split at hp
      · exact .inl (ih p hp)
      · exact .inl (ih p hp)

/-- **A replay keeps the entries that survive.** -/
theorem foldlM_viewed (hv : Views place bound view) :
    ∀ {s : ReplayState}, (es.zipIdx.map view).foldlM (replayStep hydrate archived) {} = .ok s →
      Tracks hydrate bound s (ledger archived place es) := by
  induction es using List.reverseRecOn with
  | nil =>
    intro s h
    cases h
    exact ⟨rfl, rfl, rfl, rfl⟩
  | append_singleton es e ih =>
    intro s h
    rw [zipIdx_snoc, map_append] at h
    obtain ⟨t, ht, hstep⟩ := foldlM_concat_eq_ok.mp h
    rw [ledger_snoc]
    exact tracks_step hv (ih ht) (within_ledger archived place es) hstep

/-- Where one reading of the log succeeds, another does when its boundaries are valid. -/
theorem foldlM_ok_iff (hv : Views place bound view) (hv' : Views place bound' view') :
    ∀ {s : ReplayState}, (es.zipIdx.map view).foldlM (replayStep hydrate archived) {} = .ok s →
      ((∃ t, (es.zipIdx.map view').foldlM (replayStep hydrate archived) {} = .ok t) ↔
        ∀ r ∈ (ledger archived place es).rewinds, r.start < bound' r) := by
  induction es using List.reverseRecOn with
  | nil =>
    intro s _
    exact ⟨fun _ _ hr => absurd hr not_mem_nil, fun _ => ⟨{}, rfl⟩⟩
  | append_singleton es e ih =>
    intro s' h
    rw [zipIdx_snoc, map_append] at h
    obtain ⟨s, hs, hstep⟩ := foldlM_concat_eq_ok.mp h
    rw [zipIdx_snoc, map_append, ledger_snoc]
    have hiff : ∀ {t : ReplayState},
        (es.zipIdx.map view').foldlM (replayStep hydrate archived) {} = .ok t → _ :=
      fun ht => step_ok_iff hv hv' (foldlM_viewed hv hs) (foldlM_viewed hv' ht) hstep
        ((ih hs).mp ⟨_, ht⟩)
    refine ⟨?_, ?_⟩
    · intro hok
      obtain ⟨t', ht'⟩ := hok
      obtain ⟨t, ht, htstep⟩ := foldlM_concat_eq_ok.mp ht'
      exact (hiff ht).mp ⟨t', htstep⟩
    · intro hvalid
      have hfront : ∀ r ∈ (ledger archived place es).rewinds, r.start < bound' r :=
        fun r hr => hvalid r (rewinds_subset hr)
      obtain ⟨t, ht⟩ := (ih hs).mpr hfront
      obtain ⟨t', htstep⟩ := (hiff ht).mpr hvalid
      exact ⟨t', foldlM_concat_eq_ok.mpr ⟨t, ht, htstep⟩⟩

theorem archived_view (hv : Views place bound view) :
    archivedBackgroundCompletionIds (es.zipIdx.map view) =
      archivedBackgroundCompletionIds es := by
  have hfold : ∀ (ps : List (SessionEvent × Nat)) (a : ArchiveState),
      (ps.map view).foldlM archiveStep a = (ps.map Prod.fst).foldlM archiveStep a := by
    intro ps
    induction ps with
    | nil => exact fun a => rfl
    | cons p ps ih =>
      intro a
      rw [map_cons, map_cons, foldlM_cons, foldlM_cons, archiveStep_view hv]
      exact bind_congr ih
  rw [archivedBackgroundCompletionIds, hfold, zipIdx_map_fst, archivedBackgroundCompletionIds]

/-- The entries of a log. -/
def entries (place : Nat → Nat) (es : List SessionEvent) : Ledger :=
  ledger ((archivedBackgroundCompletionIds es).toOption.getD []) place es

theorem replayState_view (hv : Views place bound view) :
    replayState hydrate (es.zipIdx.map view) = .ok s ↔
      (archivedBackgroundCompletionIds es).toOption.isSome ∧
        (es.zipIdx.map view).foldlM (replayStep hydrate
          ((archivedBackgroundCompletionIds es).toOption.getD [])) {} = .ok s := by
  rw [replayState, archived_view hv]
  cases archivedBackgroundCompletionIds es with
  | ok archived => exact ⟨fun h => ⟨rfl, h⟩, fun h => h.2⟩
  | error message =>
    refine ⟨?_, ?_⟩
    · intro h
      cases h
    · intro h
      cases h.1

/-- What a replay shows, with the numbers of the events it comes from: the messages, and the last
compaction. -/
def ReplayState.shown (s : ReplayState) : List (Int × Dict) × Option (Int × Dict) :=
  (s.messages, s.compactions.getLast?)

variable {ps : List (SessionEvent × Nat)} {content : SessionEvent → Option Dict}

/-- Entries contribute the same messages exactly when the same ones survive. -/
theorem map_filter_survives_eq_iff {rewinds : List RewindEntry} :
    (ps.filter (survives bound rewinds)).map (labelled content) =
      (ps.filter (survives bound' rewinds)).map (labelled content) ↔
    ∀ p ∈ ps, survives bound rewinds p = survives bound' rewinds p := by
  have himp : ∀ {b b' : RewindEntry → Int},
      (ps.filter (survives b rewinds)).map (labelled content) =
        (ps.filter (survives b' rewinds)).map (labelled content) →
      ∀ p ∈ ps, survives b rewinds p = true → survives b' rewinds p = true := by
    intro b b' heq p hp hs
    have hm : labelled content p ∈ (ps.filter (survives b' rewinds)).map (labelled content) := by
      rw [← heq]
      exact mem_map_of_mem (mem_filter.mpr ⟨hp, hs⟩)
    obtain ⟨q, hq, heq⟩ := mem_map.mp hm
    have hplace : (q.2 : Int) + 1 = p.2 + 1 := congrArg Prod.fst heq
    have hsq := (mem_filter.mp hq).2
    rw [survives, hplace] at hsq
    exact hsq
  refine ⟨?_, ?_⟩
  · intro heq p hp
    exact Bool.eq_iff_iff.mpr ⟨himp heq p hp, himp heq.symm p hp⟩
  · intro h
    exact congrArg _ (filter_congr h)

/-- The last entry is known by what it contributes. -/
theorem getLast?_eq_of_labelled (es : List SessionEvent) {qs : List (SessionEvent × Nat)}
    (hps : ∀ p ∈ ps, p ∈ es.zipIdx) (hqs : ∀ q ∈ qs, q ∈ es.zipIdx)
    (h : ps.getLast?.map (labelled content) = qs.getLast?.map (labelled content)) :
    ps.getLast? = qs.getLast? := by
  cases hp : ps.getLast? with
  | none =>
    rw [hp] at h
    exact (Option.map_eq_none_iff.mp h.symm).symm
  | some p =>
    rw [hp] at h
    obtain ⟨q, hq, hlabel⟩ := Option.map_eq_some_iff.mp h.symm
    have hplace : (q.2 : Int) + 1 = p.2 + 1 := congrArg Prod.fst hlabel
    have hpm := mem_zipIdx_iff_getElem?.mp (hps p (mem_of_getLast? hp))
    have hqm := mem_zipIdx_iff_getElem?.mp (hqs q (mem_of_getLast? hq))
    have hsnd : q.2 = p.2 := by omega
    rw [hsnd, hpm] at hqm
    rw [hq, Option.some.injEq]
    exact Prod.ext (Option.some.inj hqm) hsnd.symm

/-- **The conversation of a repaired log.**  A log that replays, its references understood,
replays to the same after the repair exactly when its entries are aligned. -/
theorem replay_renumber_iff (h : replayState hydrate (resolve place es) = .ok s) :
    (∃ t, replayState hydrate (renumber es) = .ok t ∧ t.shown = s.shown) ↔
      Aligned (entries place es) := by
  rw [resolve, replayState_view (views_target place)] at h
  obtain ⟨harch, hs⟩ := h
  have hok := foldlM_ok_iff (views_target place) (views_stored place) hs
  have htarget := foldlM_viewed (views_target place) hs
  simp only [renumber_eq, replayState_view (views_stored place), harch, true_and]
  refine ⟨?_, ?_⟩
  · intro hsame
    obtain ⟨t, ht, hshown⟩ := hsame
    have hstored := foldlM_viewed (views_stored place) ht
    have hm : t.messages = s.messages := congrArg Prod.fst hshown
    have hc : t.compactions.getLast? = s.compactions.getLast? := congrArg Prod.snd hshown
    rw [hstored.messages, htarget.messages, map_filter_survives_eq_iff] at hm
    rw [hstored.compactions, htarget.compactions, getLast?_map, getLast?_map] at hc
    refine ⟨hok.mp ⟨t, ht⟩, hm, getLast?_eq_of_labelled es ?_ ?_ hc⟩
    · exact fun p hp => compactions_subset _ place es p (mem_filter.mp hp).1
    · exact fun p hp => compactions_subset _ place es p (mem_filter.mp hp).1
  · intro ha
    obtain ⟨t, ht⟩ := hok.mpr ha.valid
    have hstored := foldlM_viewed (views_stored place) ht
    refine ⟨t, ht, Prod.ext ?_ ?_⟩
    · show t.messages = s.messages
      rw [hstored.messages, htarget.messages]
      exact map_filter_survives_eq_iff.mpr ha.messages
    · show t.compactions.getLast? = s.compactions.getLast?
      rw [hstored.compactions, htarget.compactions, getLast?_map, getLast?_map]
      exact congrArg _ ha.compaction

end Run

/-! ### The repair as a whole -/

/-- The repair does what it is for: the file holds the same events in the same order, numbered from
one; the next append through the instance gets the number behind them; and the log replays to what
the old one shows, its references understood. -/
def Preserves (cfg : Config) (lock : Lock) (hydrate : Dict → Except String Dict) (log : Log)
    (refs : References log.events) (j : SessionJournal) : Prop :=
  ∃ j' fs, repairSequence cfg ⟨j, log.bytes⟩ = .ok log.events.length ⟨j', render fs⟩ ∧
    List.Forall₂ (fun e f => f = { e with seq := f.seq }) log.events fs ∧ Numbered 1 fs ∧
    (∀ req attempt e v, append cfg lock req attempt ⟨j', render fs⟩ = .ok e v →
      e.seq = log.events.length + 1) ∧
    ∀ s, replayState hydrate (resolve refs.place log.events) = .ok s →
      ∃ t, replayState hydrate fs = .ok t ∧ t.shown = s.shown

/-- The file and the state are those of the repair. -/
theorem preserves_iff {cfg : Config} {lock : Lock} {hydrate : Dict → Except String Dict}
    {log : Log} {refs : References log.events} {j : SessionJournal} (h : Logged cfg log.events) :
    Preserves cfg lock hydrate log refs j ↔
      (∀ req attempt e v, append cfg lock req attempt
          ⟨loadedFrom log.events, render (renumber log.events)⟩ = .ok e v →
        e.seq = log.events.length + 1) ∧
      ∀ s, replayState hydrate (resolve refs.place log.events) = .ok s →
        ∃ t, replayState hydrate (renumber log.events) = .ok t ∧ t.shown = s.shown := by
  refine ⟨?_, ?_⟩
  · intro hp
    obtain ⟨j', fs, hrepair, hsame, hnum, happend, hreplay⟩ := hp
    have hfs : fs = renumber log.events := eq_renumber hsame hnum
    subst hfs
    rw [repairSequence_log h] at hrepair
    cases hrepair
    exact ⟨happend, hreplay⟩
  · intro hp
    exact ⟨_, _, repairSequence_log h, renumber_same _, numbered_renumber _, hp.1, hp.2⟩

/-- **When the repair preserves the journal.**  For every log that can be read the repair does what
it is for exactly when the next append finds the number in the file or the last number was right
already, and the boundaries the rewinds store say the same, compared with the new numbers, as the
events they refer to. -/
theorem repair_preserves_iff {cfg : Config} {lock : Lock} {hydrate : Dict → Except String Dict}
    {log : Log} {refs : References log.events} {j : SessionJournal}
    (h : Logged cfg log.events) :
    Preserves cfg lock hydrate log refs j ↔
      ((cfg.crossProcessLock = true ∧ lock ≠ .owned) ∨
        nextAfter log.events = log.events.length + 1) ∧
      ∀ s, replayState hydrate (resolve refs.place log.events) = .ok s →
        Aligned (entries refs.place log.events) := by
  rw [preserves_iff h, next_seq_iff h]
  refine and_congr_right fun _ => forall_congr' fun s => ?_
  refine ⟨?_, ?_⟩
  · intro hc hs
    exact (replay_renumber_iff hs).mp (hc hs)
  · intro ha hs
    exact (replay_renumber_iff hs).mpr (ha hs)

/-! ### Two turns and a gap -/

/-- The number three is missing. -/
def secondTurn : SessionEvent :=
  { turnEvent with
    eventId := "event-4"
    seq := 4
    turnId := some "turn-2"
    payload := [("message", .obj [("role", .str "user"), ("content", .str "again")])] }

/-- The user rewinds to the second turn. -/
def secondRewound : SessionEvent :=
  { rewindEvent with
    eventId := "event-5"
    seq := 5
    payload := [("target_turn_id", .str "turn-2"), ("boundary_seq", .int 4),
      ("rewound_turn_ids", .arr [.str "turn-2"])] }

theorem logged_rootEvent {e : SessionEvent}
    (hroot : e = { createdEvent with
      eventId := e.eventId, seq := e.seq, turnId := e.turnId, actor := e.actor,
      eventType := e.eventType, payload := e.payload })
    (hseq : 1 ≤ e.seq) (hid : e.eventId ≠ "") (hactor : e.actor ≠ "") (htype : e.eventType ≠ "")
    (hpayload : Json.Canonical (.obj e.payload)) :
    e.WellFormed ∧ e.sessionId = sharedConfig.sessionId := by
  rw [hroot]
  exact ⟨{
    lineage := .inl ⟨rfl, ⟨"root", by decide, rfl⟩, ⟨"main", by decide, rfl⟩, ⟨0, by decide, rfl⟩,
      by simp [createdEvent], by simp [createdEvent]⟩
    seq := hseq
    eventId := hid
    sessionId := by simp [createdEvent]
    epochId := by simp [createdEvent]
    timestamp := by simp [createdEvent]
    actor := hactor
    eventType := htype
    payload := hpayload
    artifacts := by simp [createdEvent] }, rfl⟩

def gapLog : Log := ⟨[createdEvent, turnEvent, secondTurn], [], List.not_mem_nil⟩

def rewoundGapLog : Log :=
  ⟨[createdEvent, turnEvent, secondTurn, secondRewound], [], List.not_mem_nil⟩

theorem logged_rewoundGapLog : Logged sharedConfig rewoundGapLog.events := by
  simp only [Logged, rewoundGapLog, forall_mem_cons]
  refine ⟨?_, ?_, ?_, ?_, by simp⟩
  · exact logged_rootEvent rfl (by decide) (by decide) (by decide) (by decide)
      (by simp [createdEvent, Json.Canonical, Json.CanonicalFields])
  · exact logged_rootEvent rfl (by decide) (by decide) (by decide) (by decide)
      (by simp [turnEvent, Json.Canonical, Json.CanonicalFields])
  · exact logged_rootEvent rfl (by decide) (by decide) (by decide) (by decide)
      (by simp [secondTurn, Json.Canonical, Json.CanonicalFields])
  · exact logged_rootEvent rfl (by decide) (by decide) (by decide) (by decide)
      (by simp [secondRewound, Json.Canonical, Json.CanonicalFields, Json.CanonicalItems])

theorem logged_gapLog : Logged sharedConfig gapLog.events :=
  fun e he => logged_rewoundGapLog e (mem_append_left [secondRewound] he)

/-- No rewind, no reference. -/
def gapReferences : References gapLog.events where
  place _ := 0
  refers i e b he ht _ := by
    have hm : e ∈ gapLog.events := List.mem_of_getElem? he
    simp only [gapLog, List.mem_cons, List.not_mem_nil, or_false] at hm
    rcases hm with rfl | rfl | rfl <;> exact absurd ht (by decide)

/-- The rewind refers to the start of the second turn. -/
def rewoundGapReferences : References rewoundGapLog.events where
  place _ := 2
  refers i e b he ht hb := by
    have hm : e ∈ rewoundGapLog.events := List.mem_of_getElem? he
    simp only [rewoundGapLog, List.mem_cons, List.not_mem_nil, or_false] at hm
    rcases hm with rfl | rfl | rfl | rfl
    · exact absurd ht (by decide)
    · exact absurd ht (by decide)
    · exact absurd ht (by decide)
    · exact ⟨secondTurn, rfl, Option.some.inj hb⟩

/-- An instance that shares the lock appends at the right number behind the repaired gap. -/
theorem repair_preserves_gapLog : Preserves sharedConfig .free .ok gapLog gapReferences {} := by
  refine (repair_preserves_iff logged_gapLog).mpr ⟨.inl ⟨rfl, by decide⟩, ?_⟩
  intro _ _
  exact ⟨fun _ hr => absurd hr not_mem_nil, fun _ _ => rfl, rfl⟩

/-- The repair of the rewound log brings the second turn back: its start has the number three
again, and the rewind still goes back to four. -/
theorem repair_loses :
    ¬ Preserves sharedConfig .free .ok rewoundGapLog rewoundGapReferences {} ∧
      ¬ Preserves sharedConfig .owned .ok gapLog gapReferences {} := by
  refine ⟨?_, ?_⟩
  · intro hp
    have hreplay := ((preserves_iff logged_rewoundGapLog).mp hp).2 _ rfl
    obtain ⟨t, ht, hshown⟩ := hreplay
    cases ht
    exact absurd hshown (by decide)
  · intro hp
    have hnext := (next_seq_iff logged_gapLog).mp ((preserves_iff logged_gapLog).mp hp).1
    rcases hnext with hnext | hnext
    · exact absurd rfl hnext.2
    · exact absurd hnext (by decide)

end KolegaCode.Session
