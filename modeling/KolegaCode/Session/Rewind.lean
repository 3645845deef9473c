import KolegaCode.Session.Recorded

/-!
# Session — a rewind is its prefix

Both folds treat a rewind alike: what has the boundary's number or a higher one is dropped.  A turn
that is listed has been cut by no rewind behind its start, so between the start of the target and
the rewind nothing in front of the start is lost (`foldlM_inner`), and the rewind itself leaves
exactly that (`rewind_state`).
-/

namespace KolegaCode.Session

open List
open Json (Dict get?)

/-- The boundary of a rewind of the root agent in this epoch. -/
def cutAt (epochId : String) (e : SessionEvent) : Option Int :=
  if e.sub = false ∧ e.eventType = "context.rewound" ∧ e.epochId = epochId then boundarySeq? e
  else none

variable {b n : Int} {k : Int × String} {events log : List SessionEvent} {xs : List (Int × Dict)}

theorem cutAt_eq_some {epochId : String} {e : SessionEvent} (h : cutAt epochId e = some b) :
    e.sub = false ∧ e.eventType = "context.rewound" ∧ e.epochId = epochId ∧
      boundarySeq? e = some b := by
  rw [cutAt] at h
  split at h
  · rename_i hc
    exact ⟨hc.1, hc.2.1, hc.2.2, h⟩
  · cases h

theorem cutAt_eq_none {epochId : String} {e : SessionEvent}
    (h : e.eventType ≠ "context.rewound") : cutAt epochId e = none :=
  if_neg fun hc => h hc.2.1

/-! ### The turns that are listed -/

/-- The number and the id of a turn. -/
def TurnSummary.key (turn : TurnSummary) : Int × String := (turn.boundarySeq, turn.turnId)

def turnKeys (events : List SessionEvent) (epochId : String) : List (Int × String) :=
  (collectEpochTurns events epochId).map TurnSummary.key

theorem map_key_settleLast (turnId : Option String) (status : TurnStatus)
    (turns : List TurnSummary) :
    (settleLast turnId status turns).map TurnSummary.key = turns.map TurnSummary.key := by
  induction turns with
  | nil => rfl
  | cons turn turns ih =>
    rw [settleLast]
    split
    · rw [map_cons, map_cons, ih]
    split <;> rfl

theorem mem_filter_key (turns : List TurnSummary) (b : Int) (k : Int × String) :
    k ∈ (turns.filter fun turn => turn.boundarySeq < b).map TurnSummary.key ↔
      k ∈ turns.map TurnSummary.key ∧ ∀ b' ∈ some b, k.1 < b' := by
  simp only [mem_map, mem_filter, decide_eq_true_eq, Option.mem_some_iff, forall_eq']
  refine ⟨?_, ?_⟩
  · intro h
    obtain ⟨turn, ⟨hm, hb⟩, rfl⟩ := h
    exact ⟨⟨turn, hm, rfl⟩, hb⟩
  · intro h
    obtain ⟨⟨turn, hm, rfl⟩, hb⟩ := h
    exact ⟨turn, ⟨hm, hb⟩, rfl⟩

/-- A turn that is not just started is listed after an event if it was and is not cut. -/
theorem mem_turnStep {epochId : String} {turns : List TurnSummary} {e : SessionEvent}
    (hk : e.eventType = "turn.started" → e.sub = false → e.seq ≠ k.1) :
    k ∈ (turnStep epochId turns e).map TurnSummary.key ↔
      k ∈ turns.map TurnSummary.key ∧ ∀ b ∈ cutAt epochId e, k.1 < b := by
  rw [turnStep]
  by_cases hepoch : e.epochId = epochId
  · rw [if_neg (not_not.mpr hepoch)]
    cases hsub : e.sub with
    | true => simp [cutAt, hsub]
    | false =>
      rw [if_neg (by decide)]
      by_cases hstart : e.eventType = "turn.started"
      · rw [if_pos hstart, cutAt_eq_none (by rw [hstart]; decide)]
        have hne : k ≠ (e.seq, e.turnId.getD "") := by
          intro h
          exact hk hstart hsub (congrArg Prod.fst h).symm
        simp [TurnSummary.key, hne]
      · rw [if_neg hstart]
        split
        · rename_i status hstatus
          have hne : e.eventType ≠ "context.rewound" := by
            intro h
            rw [h] at hstatus
            cases hstatus
          rw [map_key_settleLast, cutAt_eq_none hne]
          simp
        · by_cases hrewound : e.eventType = "context.rewound"
          · rw [if_pos hrewound, cutAt, if_pos ⟨hsub, hrewound, hepoch⟩]
            cases boundarySeq? e with
            | none => simp
            | some b => exact mem_filter_key turns b k
          · rw [if_neg hrewound, cutAt_eq_none hrewound]
            simp
  · rw [if_pos hepoch]
    simp [cutAt, hepoch]

/-- No rewind among the events cuts what has the number `q`. -/
def Alive (epochId : String) (events : List SessionEvent) (q : Int) : Prop :=
  ∀ e ∈ events, ∀ b ∈ cutAt epochId e, q < b

theorem alive_cons {epochId : String} {e : SessionEvent} {q : Int} :
    Alive epochId (e :: events) q ↔
      (∀ b ∈ cutAt epochId e, q < b) ∧ Alive epochId events q := by
  simp [Alive]

/-- Behind its start a turn stays listed until it is cut. -/
theorem mem_turnKeys_append {epochId : String} {rest : List SessionEvent}
    (hk : ∀ e ∈ rest, e.eventType = "turn.started" → e.sub = false → e.seq ≠ k.1) :
    k ∈ turnKeys (log ++ rest) epochId ↔ k ∈ turnKeys log epochId ∧ Alive epochId rest k.1 := by
  rw [turnKeys, turnKeys, collectEpochTurns, foldl_append, ← collectEpochTurns]
  generalize collectEpochTurns log epochId = turns
  induction rest generalizing turns with
  | nil => simp [Alive]
  | cons e rest ih =>
    rw [foldl_cons, ih fun x hx => hk x (by simp [hx]),
      mem_turnStep (hk e (by simp)), alive_cons, and_assoc]

theorem turnKeys_snoc (log : List SessionEvent) (e : SessionEvent) (epochId : String) :
    turnKeys (log ++ [e]) epochId =
      (turnStep epochId (collectEpochTurns log epochId) e).map TurnSummary.key := by
  rw [turnKeys, collectEpochTurns, foldl_append]
  rfl

theorem turnKeys_snoc_start {e : SessionEvent} {turnId : String} (h : IsStart e turnId) :
    turnKeys (log ++ [e]) e.epochId = turnKeys log e.epochId ++ [(e.seq, turnId)] := by
  rw [turnKeys_snoc, turnStep, if_neg (not_not.mpr rfl), if_neg (by simp [h.root]),
    if_pos h.eventType, map_append, turnKeys]
  simp [TurnSummary.key, h.turnId]

theorem turnKeys_snoc_sublist {e : SessionEvent} {epochId : String}
    (h : ¬ (e.sub = false ∧ e.eventType = "turn.started" ∧ e.epochId = epochId)) :
    (turnKeys (log ++ [e]) epochId).Sublist (turnKeys log epochId) := by
  rw [turnKeys_snoc, turnStep, turnKeys]
  split
  · exact List.Sublist.refl _
  split
  · exact List.Sublist.refl _
  · rename_i hepoch hsub
    rw [if_neg fun ht => h ⟨by simpa using hsub, ht, not_not.mp hepoch⟩]
    split
    · rw [map_key_settleLast]
    split
    · split
      · exact filter_sublist.map _
      · exact List.Sublist.refl _
    · exact List.Sublist.refl _

/-- A listed turn has been started with its number and its id. -/
theorem Kept.start_of_mem (h : Kept log) {epochId : String} (hk : k ∈ turnKeys log epochId) :
    ∃ s ∈ log, IsStart s k.2 ∧ s.seq = k.1 ∧ s.epochId = epochId := by
  induction h with
  | nil => cases hk
  | @snoc log e hr he hseq ih =>
    have hold : k ∈ turnKeys log epochId →
        ∃ s ∈ log ++ [e], IsStart s k.2 ∧ s.seq = k.1 ∧ s.epochId = epochId := by
      intro hk
      obtain ⟨s, hs, hrest⟩ := ih hk
      exact ⟨s, mem_append_left _ hs, hrest⟩
    by_cases hstart : e.sub = false ∧ e.eventType = "turn.started" ∧ e.epochId = epochId
    · obtain ⟨hsub, ht, rfl⟩ := hstart
      obtain ⟨turnId, hst, -⟩ := he.start_inv hsub ht
      rw [turnKeys_snoc_start hst, mem_append, mem_singleton] at hk
      rcases hk with hk | hk
      · exact hold hk
      · rw [hk]
        exact ⟨e, by simp, hst, rfl, rfl⟩
    · exact hold ((turnKeys_snoc_sublist hstart).subset hk)

theorem Kept.turns_sorted (h : Kept log) (epochId : String) :
    (turnKeys log epochId).Pairwise fun k k' => k.1 < k'.1 := by
  induction h with
  | nil => exact List.Pairwise.nil
  | @snoc log e hr he hseq ih =>
    by_cases hstart : e.sub = false ∧ e.eventType = "turn.started" ∧ e.epochId = epochId
    · obtain ⟨hsub, ht, rfl⟩ := hstart
      obtain ⟨turnId, hst, -⟩ := he.start_inv hsub ht
      rw [turnKeys_snoc_start hst, pairwise_append]
      refine ⟨ih, pairwise_singleton .., ?_⟩
      intro k hk k' hk'
      obtain ⟨s, hs, -, hsk, -⟩ := hr.start_of_mem hk
      have hlt := (Kept.snoc hr he hseq).seq_lt.1 s hs
      rw [mem_singleton.mp hk', ← hsk]
      exact hlt
    · exact ih.sublist (turnKeys_snoc_sublist hstart)

variable {turn : TurnSummary}

theorem Kept.le_last (h : Kept log) {epochId : String}
    (hlast : (collectEpochTurns log epochId).getLast? = some turn) (hk : k ∈ turnKeys log epochId) :
    k.1 ≤ turn.boundarySeq := by
  have hs := h.turns_sorted epochId
  obtain ⟨turns, hturns⟩ := getLast?_eq_some_iff.mp hlast
  rw [turnKeys, hturns, map_append, map_singleton] at hs hk
  rcases mem_append.mp hk with hk | hk
  · exact Int.le_of_lt ((pairwise_append.mp hs).2.2 k hk _ (mem_singleton_self _))
  · rw [mem_singleton.mp hk]
    exact Int.le_refl _

/-! ### One step of the replay -/

section Step

variable {hydrate : Dict → Except String Dict} {archived : List String} {s s' : ReplayState}
  {e : SessionEvent} {epochId : String}

theorem replayMessage_cases (h : replayMessage hydrate archived s e = .ok s') :
    s' = s ∨ ∃ m, s' = { s with messages := s.messages ++ [(e.seq, m)] } := by
  rw [replayMessage] at h
  split at h
  · cases h
    exact .inl rfl
  split at h
  · cases h
    exact .inl rfl
  split at h
  · obtain ⟨m, -, h⟩ := bind_eq_ok.mp h
    cases h
    exact .inr ⟨m, rfl⟩
  · cases h

/-- **What a step of the replay can do** inside an epoch: nothing, add a message or a compaction,
or cut. -/
theorem replayStep_cases (h : replayStep hydrate archived s e = .ok s')
    (hepoch : s.currentEpoch = some epochId) (ht : e.eventType ≠ "context.epoch_started") :
    (cutAt epochId e = none ∧ (s' = s ∨
      (∃ m, s' = { s with messages := s.messages ++ [(e.seq, m)] }) ∨
      ∃ v, s' = { s with compactions := s.compactions ++ [(e.seq, v)] })) ∨
    ∃ b, cutAt epochId e = some b ∧ s.epochStartSeq < b ∧ s' = s.cut b := by
  rw [replayStep] at h
  split at h
  · rename_i hsub
    cases h
    exact .inl ⟨if_neg (by simp [hsub]), .inl rfl⟩
  rename_i hsub
  split at h
  · rename_i hne
    cases h
    refine .inl ⟨if_neg fun hc => hne ?_, .inl rfl⟩
    rw [hepoch, hc.2.2]
  rename_i heq
  have he : e.epochId = epochId := Option.some.inj ((not_not.mp heq).symm.trans hepoch)
  split at h
  · rename_i hm
    refine .inl ⟨cutAt_eq_none ?_, ?_⟩
    · intro hr
      simp [hr, messageEvents] at hm
    · rcases replayMessage_cases h with h | h
      · exact .inl h
      · exact .inr (.inl h)
  split at h
  · rename_i hcomp
    rw [replayCompaction] at h
    split at h
    · cases h
      exact .inl ⟨cutAt_eq_none (by rw [hcomp]; decide), .inr (.inr ⟨_, rfl⟩)⟩
    · cases h
  split at h
  · rename_i hrew
    rw [replayRewind] at h
    split at h
    · rename_i b hb
      split at h
      · cases h
      · rename_i hle
        cases h
        refine .inr ⟨b, ?_, by omega, rfl⟩
        rw [cutAt, if_pos ⟨by simpa using hsub, hrew, he⟩, hb]
    · cases h
  · rename_i hrew
    cases h
    exact .inl ⟨cutAt_eq_none hrew, .inl rfl⟩

/-- A step keeps the epoch, and a message stays until it is cut. -/
theorem mem_replayStep (h : replayStep hydrate archived s e = .ok s')
    (hepoch : s.currentEpoch = some epochId) (ht : e.eventType ≠ "context.epoch_started")
    {q : Int} (hq : e.seq ≠ q) :
    s'.currentEpoch = some epochId ∧ (q ∈ s'.messages.map Prod.fst ↔
      q ∈ s.messages.map Prod.fst ∧ ∀ b ∈ cutAt epochId e, q < b) := by
  rcases replayStep_cases h hepoch ht with ⟨hc, rfl | ⟨m, rfl⟩ | ⟨v, rfl⟩⟩ | ⟨b, hc, -, rfl⟩
  · refine ⟨hepoch, ?_⟩
    simp [hc]
  · refine ⟨hepoch, ?_⟩
    simp [hc, Ne.symm hq]
  · refine ⟨hepoch, ?_⟩
    simp [hc]
  · refine ⟨hepoch, ?_⟩
    simp only [hc, ReplayState.cut, mem_map, mem_filter, decide_eq_true_eq,
      Option.mem_some_iff, forall_eq']
    refine ⟨?_, ?_⟩
    · intro hm
      obtain ⟨p, ⟨hp, hb⟩, rfl⟩ := hm
      exact ⟨⟨p, hp, rfl⟩, hb⟩
    · intro hm
      obtain ⟨⟨p, hp, rfl⟩, hb⟩ := hm
      exact ⟨p, ⟨hp, hb⟩, rfl⟩

/-- Everything in the state has a number below `n`. -/
structure ReplayState.Below (s : ReplayState) (n : Int) : Prop where
  messages : ∀ p ∈ s.messages, p.1 < n
  compactions : ∀ p ∈ s.compactions, p.1 < n
  epochStart : s.epochStartSeq < n

theorem ReplayState.Below.cut_eq (h : s.Below n) : s.cut n = s := by
  have hm : s.messages.filter (fun p => p.1 < n) = s.messages :=
    filter_eq_self.mpr fun p hp => decide_eq_true (h.messages p hp)
  have hc : s.compactions.filter (fun p => p.1 < n) = s.compactions :=
    filter_eq_self.mpr fun p hp => decide_eq_true (h.compactions p hp)
  rw [ReplayState.cut, hm, hc]

theorem ReplayState.Below.mono {n' : Int} (h : s.Below n) (hn : n ≤ n') : s.Below n' where
  messages p hp := Int.lt_of_lt_of_le (h.messages p hp) hn
  compactions p hp := Int.lt_of_lt_of_le (h.compactions p hp) hn
  epochStart := Int.lt_of_lt_of_le h.epochStart hn

theorem below_concat (h : ∀ p ∈ xs, p.1 < n) (d : Dict) : ∀ p ∈ xs ++ [(n, d)], p.1 < n + 1 := by
  intro p hp
  rcases mem_append.mp hp with hp | hp
  · have := h p hp
    omega
  · rw [mem_singleton.mp hp]
    show n < n + 1
    omega

theorem below_replayStep (h : replayStep hydrate archived s e = .ok s')
    (hepoch : s.currentEpoch = some epochId) (ht : e.eventType ≠ "context.epoch_started")
    (hs : s.Below e.seq) : s'.Below (e.seq + 1) := by
  have hmono := hs.mono (show e.seq ≤ e.seq + 1 by omega)
  rcases replayStep_cases h hepoch ht with ⟨-, rfl | ⟨m, rfl⟩ | ⟨v, rfl⟩⟩ | ⟨b, -, -, rfl⟩
  · exact hmono
  · exact ⟨below_concat hs.messages m, hmono.compactions, hmono.epochStart⟩
  · exact ⟨hmono.messages, below_concat hs.compactions v, hmono.epochStart⟩
  · exact ⟨fun p hp => hmono.messages p (mem_filter.mp hp).1,
      fun p hp => hmono.compactions p (mem_filter.mp hp).1, hmono.epochStart⟩

theorem replayStep_noEpoch (hnone : s.currentEpoch = none)
    (ht : e.eventType ≠ "context.epoch_started") : replayStep hydrate archived s e = .ok s := by
  rw [replayStep, if_neg ht, hnone]
  split
  · rfl
  · rfl

theorem replayStep_startEpoch (hsub : e.sub = false) (ht : e.eventType = "context.epoch_started") :
    replayStep hydrate archived s e =
      .ok { currentEpoch := some e.epochId, epochStartSeq := e.seq } := by
  rw [replayStep, if_neg (by simp [hsub]), if_pos ht]

end Step

/-! ### The state of a recorded log -/

section Fold

variable {hydrate : Dict → Except String Dict} {archived : List String}

/-- The replay of a recorded log is in its last epoch, and holds what the log holds. -/
theorem Kept.replay_inv (h : Kept log) :
    ∀ {s : ReplayState}, log.foldlM (replayStep hydrate archived) {} = .ok s →
      s.currentEpoch = lastEpoch log ∧ s.Below (nextAfter log) := by
  induction h with
  | nil =>
    intro s hs
    cases hs
    exact ⟨rfl, by simp, by simp, by decide⟩
  | @snoc log e hr he hseq ih =>
    intro s' hs'
    obtain ⟨s, hs, hstep⟩ := foldlM_concat_eq_ok.mp hs'
    obtain ⟨hepoch, hbelow⟩ := ih hs
    rw [lastEpoch_append, nextAfter_append]
    by_cases ht : e.eventType = "context.epoch_started"
    · rw [replayStep_startEpoch (he.epoch_inv ht).1 ht] at hstep
      cases hstep
      rw [if_pos ht]
      exact ⟨rfl, by simp, by simp, by show e.seq < e.seq + 1; omega⟩
    · rw [if_neg ht]
      rw [← hseq] at hbelow
      cases hc : lastEpoch log with
      | none =>
        rw [replayStep_noEpoch (hepoch.trans hc) ht] at hstep
        cases hstep
        exact ⟨hepoch.trans hc, hbelow.mono (by omega)⟩
      | some epochId =>
        have hcur := hepoch.trans hc
        have hne : e.seq ≠ e.seq + 1 := by omega
        exact ⟨(mem_replayStep hstep hcur ht hne).1, below_replayStep hstep hcur ht hbelow⟩

theorem mem_foldlM_replayStep {epochId : String} {rest : List SessionEvent} {q : Int}
    (ht : ∀ e ∈ rest, e.eventType ≠ "context.epoch_started") (hq : ∀ e ∈ rest, e.seq ≠ q) :
    ∀ {s s' : ReplayState}, rest.foldlM (replayStep hydrate archived) s = .ok s' →
      s.currentEpoch = some epochId →
      (q ∈ s'.messages.map Prod.fst ↔
        q ∈ s.messages.map Prod.fst ∧ Alive epochId rest q) := by
  induction rest with
  | nil =>
    intro s s' h _
    cases h
    simp [Alive]
  | cons e rest ih =>
    intro s s' h hepoch
    rw [foldlM_cons] at h
    obtain ⟨s₁, hstep, h⟩ := bind_eq_ok.mp h
    obtain ⟨hepoch₁, hmem⟩ := mem_replayStep hstep hepoch (ht e (by simp)) (hq e (by simp))
    rw [ih (fun x hx => ht x (by simp [hx])) (fun x hx => hq x (by simp [hx])) h hepoch₁, hmem,
      alive_cons, and_assoc]

/-! ### Between the start of a turn and a rewind to it -/

/-- The message of an event can be hydrated. -/
def Hydrates (hydrate : Dict → Except String Dict) (e : SessionEvent) : Prop :=
  ∀ m, get? e.payload "message" = some (.obj m) → ∃ m', hydrate m = .ok m'

/-- An event behind the start of a turn that is not cut: whatever it does, it does to numbers from
the start's on. -/
structure Inner (hydrate : Dict → Except String Dict) (epochId : String) (b : Int)
    (e : SessionEvent) : Prop where
  seq : b ≤ e.seq
  noEpoch : e.eventType ≠ "context.epoch_started"
  uncut : ∀ b' ∈ cutAt epochId e, b < b'
  message : e.sub = false → e.eventType ∈ messageEvents →
    e.eventType = "turn.started" ∧ IsContinuation e ∨ HasMessage e
  compaction : e.sub = false → e.eventType = "context.compacted" →
    ∃ value, get? e.payload "compaction" = some (.obj value)
  boundary : e.sub = false → e.eventType = "context.rewound" → ∃ b', boundarySeq? e = some b'
  hydrates : Hydrates hydrate e

theorem filter_concat_ge (h : b ≤ n) (d : Dict) :
    (xs ++ [(n, d)]).filter (fun p => p.1 < b) = xs.filter fun p => p.1 < b := by
  rw [filter_append]
  simp [h]

theorem filter_filter_lt {b' : Int} (h : b < b') :
    (xs.filter fun p => p.1 < b').filter (fun p => p.1 < b) = xs.filter fun p => p.1 < b := by
  rw [filter_filter]
  refine filter_congr ?_
  intro p _
  rw [Bool.and_eq_left_iff_imp]
  intro hp
  have := of_decide_eq_true hp
  exact decide_eq_true (by omega)

theorem step_inner {epochId : String} {e : SessionEvent} {s : ReplayState}
    (h : Inner hydrate epochId b e) (hepoch : s.currentEpoch = some epochId)
    (hstart : s.epochStartSeq < b) :
    ∃ s', replayStep hydrate archived s e = .ok s' ∧ s'.cut b = s.cut b := by
  rw [replayStep, if_neg h.noEpoch, hepoch]
  split
  · exact ⟨s, rfl, rfl⟩
  rename_i hsub
  have hsub : e.sub = false := by simpa using hsub
  split
  · exact ⟨s, rfl, rfl⟩
  rename_i heq
  have he : e.epochId = epochId := (Option.some.inj (not_not.mp heq)).symm
  split
  · rename_i hm
    rw [replayMessage]
    split
    · exact ⟨s, rfl, rfl⟩
    split
    · exact ⟨s, rfl, rfl⟩
    · rename_i hcont
      rcases h.message hsub hm with hc | ⟨m, hm⟩
      · exact absurd hc hcont
      · obtain ⟨m', hm'⟩ := h.hydrates m hm
        rw [hm]
        refine ⟨{ s with messages := s.messages ++ [(e.seq, m')] }, ?_, ?_⟩
        · simp only [hm']
          rfl
        · simp only [ReplayState.cut, filter_concat_ge h.seq]
  split
  · rename_i hc
    obtain ⟨v, hv⟩ := h.compaction hsub hc
    rw [replayCompaction, hv]
    exact ⟨_, rfl, by simp only [ReplayState.cut, filter_concat_ge h.seq]⟩
  split
  · rename_i hr
    obtain ⟨b', hb'⟩ := h.boundary hsub hr
    have hcut : b < b' := h.uncut b' (by rw [cutAt, if_pos ⟨hsub, hr, he⟩, hb']; rfl)
    rw [replayRewind, hb']
    simp only
    rw [if_neg (by omega)]
    exact ⟨_, rfl, by simp only [ReplayState.cut, filter_filter_lt hcut]⟩
  · exact ⟨s, rfl, rfl⟩

/-- **Nothing in front of the start is lost** behind it, unless the turn is cut. -/
theorem foldlM_inner {epochId : String} {rest : List SessionEvent}
    (h : ∀ e ∈ rest, Inner hydrate epochId b e) :
    ∀ {s : ReplayState}, s.currentEpoch = some epochId → s.epochStartSeq < b →
      ∃ s', rest.foldlM (replayStep hydrate archived) s = .ok s' ∧ s'.cut b = s.cut b := by
  induction rest with
  | nil =>
    intro s _ _
    exact ⟨s, rfl, rfl⟩
  | cons e rest ih =>
    intro s hepoch hstart
    have hstep : ∃ s₁, replayStep hydrate archived s e = .ok s₁ ∧ s₁.cut b = s.cut b :=
      step_inner (h e (by simp)) hepoch hstart
    obtain ⟨s₁, hs₁, hcut₁⟩ := hstep
    have hepoch₁ := congrArg ReplayState.currentEpoch hcut₁
    have hstart₁ := congrArg ReplayState.epochStartSeq hcut₁
    rw [ReplayState.cut_currentEpoch, ReplayState.cut_currentEpoch, hepoch] at hepoch₁
    rw [ReplayState.cut_epochStartSeq, ReplayState.cut_epochStartSeq] at hstart₁
    obtain ⟨s', hs', hcut'⟩ := ih (fun x hx => h x (by simp [hx])) hepoch₁ (hstart₁ ▸ hstart)
    refine ⟨s', ?_, hcut'.trans hcut₁⟩
    rw [foldlM_cons, hs₁]
    exact hs'

end Fold

/-! ### Rewinds -/

theorem rewindPayload_eq_ok {epochId targetTurnId : String} {payload : Dict}
    (h : rewindPayload events epochId targetTurnId = .ok payload) :
    ∃ b, get? payload "target_turn_id" = some (.str targetTurnId) ∧
      get? payload "boundary_seq" = some (.int b) ∧
      (b, targetTurnId) ∈ turnKeys events epochId := by
  rw [rewindPayload] at h
  dsimp only at h
  split at h
  · cases h
  · rename_i target hfind
    cases h
    have hid : target.turnId = targetTurnId := by simpa using find?_some hfind
    refine ⟨target.boundarySeq, ?_, ?_, ?_⟩
    · rw [← hid]
      rfl
    · simp [Json.get?_cons]
    · rw [← hid]
      exact mem_map.mpr ⟨target, mem_of_find?_eq_some hfind, rfl⟩

/-- A rewind of the root agent to a turn. -/
structure IsRewind (e : SessionEvent) (turnId : String) : Prop where
  root : e.sub = false
  eventType : e.eventType = "context.rewound"
  target : get? e.payload "target_turn_id" = some (.str turnId)

/-- A recorded rewind carries the number of its target, which is listed in the current epoch. -/
theorem Emits.rewind_target {e : SessionEvent} (h : Emits log e) {turnId : String}
    (hr : IsRewind e turnId) :
    lastEpoch log = some e.epochId ∧
      ∃ b, boundarySeq? e = some b ∧ (b, turnId) ∈ turnKeys log e.epochId := by
  obtain ⟨hl, turnId', hp⟩ := h.rewind_inv hr.root hr.eventType
  obtain ⟨b, htarget, hb, hmem⟩ := rewindPayload_eq_ok hp
  have hid : turnId' = turnId := by
    rw [hr.target] at htarget
    simpa using htarget.symm
  refine ⟨hl, b, ?_, hid ▸ hmem⟩
  rw [boundarySeq?, hb]
  rfl

theorem Recorded.eq_of_seq_eq (h : Recorded log) {x y : SessionEvent} (hx : x ∈ log)
    (hy : y ∈ log) (hseq : x.seq = y.seq) : x = y := by
  obtain ⟨front, rest, rfl⟩ := append_of_mem hx
  obtain ⟨hlt, hgt⟩ := h.kept.seq_lt
  rcases mem_append.mp hy with hy | hy
  · have := hlt y hy
    omega
  · rcases mem_cons.mp hy with hy | hy
    · exact hy.symm
    · have := hgt y hy
      omega

variable {st : ReplayState}

section Rewind

variable {hydrate : Dict → Except String Dict} {archived : List String}
  {front rest : List SessionEvent} {s r : SessionEvent} {turnId : String}

/-- The events from the start of the target to the rewind. -/
theorem inner_of_rewind (h : Recorded ((front ++ s :: rest) ++ [r])) (hs : IsStart s turnId)
    (hr : IsRewind r turnId) (hhyd : ∀ e ∈ s :: rest, Hydrates hydrate e) :
    boundarySeq? r = some s.seq ∧ s.epochId = r.epochId ∧
      ∀ e ∈ s :: rest, Inner hydrate r.epochId s.seq e := by
  obtain ⟨hlog, hemits, -⟩ := h.last
  obtain ⟨hl, b, hb, hmem⟩ := hemits.rewind_target hr
  obtain ⟨s', hs', hstart', hseq', hepoch'⟩ := hlog.kept.start_of_mem hmem
  have hsb : s.seq = b := (hlog.kept.start_unique (by simp) hs' hs hstart').trans hseq'
  have hss' : s = s' := hlog.eq_of_seq_eq (by simp) hs' (hsb.trans hseq'.symm)
  have hepoch : s.epochId = r.epochId := by rw [hss', hepoch']
  subst hsb
  obtain ⟨-, hgt⟩ := hlog.kept.seq_lt
  have hnoepoch := hlog.kept.no_epoch (hepoch ▸ hl)
  have halive : Alive r.epochId rest s.seq := by
    have hkey : ∀ e ∈ rest, e.eventType = "turn.started" → e.sub = false → e.seq ≠ s.seq := by
      intro e he _ _
      have := hgt e he
      omega
    rw [append_cons] at hmem
    exact ((mem_turnKeys_append hkey).mp hmem).2
  refine ⟨hb, hepoch, ?_⟩
  intro e he
  obtain ⟨c, d, hcd⟩ := append_of_mem he
  have hemit : Emits (front ++ c) e := by
    rw [hcd, ← append_assoc] at hlog
    exact hlog.emits
  refine ⟨?_, ?_, ?_, ?_, fun hsub ht => hemit.compaction_inv hsub ht, ?_, hhyd e he⟩
  · rcases mem_cons.mp he with rfl | he
    · exact Int.le_refl _
    · exact Int.le_of_lt (hgt e he)
  · rcases mem_cons.mp he with rfl | he
    · rw [hs.eventType]
      decide
    · exact hnoepoch e he
  · rcases mem_cons.mp he with rfl | he
    · rw [cutAt_eq_none (by rw [hs.eventType]; decide)]
      simp
    · exact halive e he
  · intro hsub ht
    rcases mem_cons.mp ht with ht | ht
    · obtain ⟨-, -, -, -, hm⟩ := hemit.start_inv hsub ht
      rcases hm with hm | hm
      · exact .inr hm
      · exact .inl ⟨ht, hm⟩
    · exact .inr (hemit.message_inv hsub ht).2.1
  · intro hsub ht
    obtain ⟨-, turnId', hp⟩ := hemit.rewind_inv hsub ht
    obtain ⟨b', -, hb', -⟩ := rewindPayload_eq_ok hp
    exact ⟨b', by rw [boundarySeq?, hb']; rfl⟩

/-- The rewind event itself cuts at its boundary. -/
theorem replayStep_rewind (hr : IsRewind r turnId) (hb : boundarySeq? r = some b)
    (hepoch : st.currentEpoch = some r.epochId) (hstart : st.epochStartSeq < b) :
    replayStep hydrate archived st r = .ok (st.cut b) := by
  have ht := hr.eventType
  rw [replayStep, if_neg (by simp [hr.root]), if_neg (by rw [ht]; decide),
    if_neg (not_not.mpr hepoch), if_neg (by rw [ht]; decide), if_neg (by rw [ht]; decide),
    if_pos ht, replayRewind, hb]
  exact if_neg (by omega)

/-- **A rewind is its prefix**, in the middle of any log. -/
theorem rewind_state (h : Recorded ((front ++ s :: rest) ++ [r])) (hs : IsStart s turnId)
    (hr : IsRewind r turnId) (hhyd : ∀ e ∈ s :: rest, Hydrates hydrate e)
    (later : List SessionEvent) :
    ((front ++ s :: rest) ++ r :: later).foldlM (replayStep hydrate archived) {} =
      (front ++ later).foldlM (replayStep hydrate archived) {} := by
  obtain ⟨hb, hepoch, hinner⟩ := inner_of_rewind h hs hr hhyd
  have hlog := h.last.1
  rw [append_assoc, foldlM_append, foldlM_append]
  cases hfront : front.foldlM (replayStep hydrate archived) {} with
  | error message => rfl
  | ok st =>
    obtain ⟨hcur, hbelow⟩ := hlog.front.kept.replay_inv hfront
    obtain ⟨-, -, hlast, -⟩ := hlog.emits.start_inv hs.root hs.eventType
    have hseq : s.seq = nextAfter front := by
      rw [append_cons] at hlog
      exact hlog.front.last.2.2
    rw [← hseq] at hbelow
    rw [hlast, hepoch] at hcur
    have hinnerfold : ∃ st', (s :: rest).foldlM (replayStep hydrate archived) st = .ok st' ∧
        st'.cut s.seq = st.cut s.seq := foldlM_inner hinner hcur hbelow.epochStart
    obtain ⟨st', hst', hcut⟩ := hinnerfold
    have hcur' := congrArg ReplayState.currentEpoch hcut
    have hstart' := congrArg ReplayState.epochStartSeq hcut
    rw [ReplayState.cut_currentEpoch, ReplayState.cut_currentEpoch, hcur] at hcur'
    rw [ReplayState.cut_epochStartSeq, ReplayState.cut_epochStartSeq] at hstart'
    have hstep : replayStep hydrate archived st' r = .ok st := by
      rw [replayStep_rewind hr hb hcur' (hstart' ▸ hbelow.epochStart), hcut, hbelow.cut_eq]
    show (s :: rest ++ r :: later).foldlM (replayStep hydrate archived) st =
      later.foldlM (replayStep hydrate archived) st
    rw [foldlM_append, hst']
    show (r :: later).foldlM (replayStep hydrate archived) st' = _
    rw [foldlM_cons, hstep]
    rfl

end Rewind

/-! ### Nothing is archived -/

theorem Emits.archiveStep_eq {e : SessionEvent} (h : Emits log e) : archiveStep {} e = .ok {} := by
  rw [archiveStep]
  cases h with
  | startEpoch hsub ht => simp [hsub, ht]
  | startTurn _ hs => simp [hs.root, hs.eventType]
  | message hsub ht _ _ hc =>
    simp only [mem_cons, not_mem_nil, or_false] at ht
    rcases ht with ht | ht | ht <;> simp [hsub, ht, hc]
  | finishTurn hsub ht =>
    rcases terminalStatus_isSome ht with ht | ht | ht <;> simp [hsub, ht]
  | compaction hsub ht => simp [hsub, ht]
  | rewind _ hsub ht => simp [hsub, ht]
  | beside hb =>
    rcases hb with hb | hb
    · simp [hb.1]
    · simp only [contextEvents, messageEvents, cons_append, nil_append, mem_cons,
        not_mem_nil, or_false, not_or] at hb
      simp [hb]

theorem Recorded.emits_of_mem (h : Recorded log) {e : SessionEvent} (he : e ∈ log) :
    ∃ front, Emits front e := by
  obtain ⟨front, rest, rfl⟩ := append_of_mem he
  exact ⟨front, h.emits⟩

theorem archived_eq_nil (h : ∀ e ∈ events, archiveStep {} e = .ok {}) :
    archivedBackgroundCompletionIds events = .ok [] := by
  have hfold : events.foldlM archiveStep {} = .ok {} := by
    induction events with
    | nil => rfl
    | cons e events ih =>
      rw [foldlM_cons, h e (by simp)]
      exact ih fun x hx => h x (by simp [hx])
  rw [archivedBackgroundCompletionIds, hfold]
  rfl

/-! ### The turns whose messages survive -/

/-- An event of the root agent that adds a message. -/
structure AddsMessage (e : SessionEvent) : Prop where
  root : e.sub = false
  eventType : e.eventType ∈ messageEvents
  notContinuation : ¬ (e.eventType = "turn.started" ∧ IsContinuation e)

section Survivors

variable {hydrate : Dict → Except String Dict} {front rest : List SessionEvent}
  {e : SessionEvent}

/-- The message of an event survives as long as no rewind cuts its number. -/
theorem survives_iff (h : Kept (front ++ e :: rest)) (hadd : AddsMessage e)
    (hlast : lastEpoch (front ++ e :: rest) = some e.epochId) {archived : List String}
    (harch : ¬ (e.eventType = "context.message" ∧ isArchived archived e = true))
    (hst : (front ++ e :: rest).foldlM (replayStep hydrate archived) {} = .ok st) :
    e.seq ∈ st.messages.map Prod.fst ↔ Alive e.epochId rest e.seq := by
  rw [foldlM_append] at hst
  obtain ⟨s₀, hs₀, hst⟩ := bind_eq_ok.mp hst
  rw [foldlM_cons] at hst
  obtain ⟨s₁, hs₁, hst⟩ := bind_eq_ok.mp hst
  have hcur : s₀.currentEpoch = some e.epochId := by
    rw [(h.front.replay_inv hs₀).1]
    rcases mem_cons.mp hadd.eventType with ht | ht
    · obtain ⟨-, -, hl, -⟩ := h.emits.start_inv hadd.root ht
      exact hl
    · exact (h.emits.message_inv hadd.root ht).1
  have hne : e.eventType ≠ "context.epoch_started" := by
    intro ht
    have hm := hadd.eventType
    rw [ht] at hm
    exact absurd hm (by decide)
  have hmem : ∃ m, s₁ = { s₀ with messages := s₀.messages ++ [(e.seq, m)] } := by
    rw [replayStep, if_neg (by simp [hadd.root]), if_neg hne, if_neg (not_not.mpr hcur),
      if_pos hadd.eventType, replayMessage] at hs₁
    have hcont : ¬ (e.eventType = "turn.started" ∧
        (get? e.payload "continuation").any truthy = true) := hadd.notContinuation
    rw [if_neg harch, if_neg hcont] at hs₁
    split at hs₁
    · obtain ⟨m, -, hs₁⟩ := bind_eq_ok.mp hs₁
      cases hs₁
      exact ⟨m, rfl⟩
    · cases hs₁
  obtain ⟨m, rfl⟩ := hmem
  have hq : ∀ x ∈ rest, x.seq ≠ e.seq := by
    intro x hx
    have := h.seq_lt.2 x hx
    omega
  rw [mem_foldlM_replayStep (h.no_epoch hlast) hq hst hcur]
  simp

theorem Kept.mem_turnIds_iff (h : Kept log) {s : SessionEvent} {turnId epochId : String}
    (hs : s ∈ log) (hstart : IsStart s turnId) :
    turnId ∈ (collectEpochTurns log epochId).map TurnSummary.turnId ↔
      (s.seq, turnId) ∈ turnKeys log epochId := by
  rw [turnKeys]
  refine ⟨?_, ?_⟩
  · intro hm
    obtain ⟨turn, hturn, rfl⟩ := mem_map.mp hm
    have hkey : turn.key ∈ turnKeys log epochId := mem_map_of_mem hturn
    obtain ⟨s', hs', hstart', hseq', -⟩ := h.start_of_mem hkey
    have hseq : s.seq = turn.boundarySeq := (h.start_unique hs hs' hstart hstart').trans hseq'
    rw [hseq]
    exact hkey
  · intro hm
    obtain ⟨turn, hturn, hkey⟩ := mem_map.mp hm
    exact mem_map.mpr ⟨turn, hturn, congrArg Prod.snd hkey⟩

/-- Behind a message of the latest turn, a rewind that spares the turn spares the message. -/
theorem alive_of_latest (h : Kept (front ++ e :: rest))
    (hturn : (collectEpochTurns front e.epochId).getLast? = some turn)
    (hnot : e.eventType ≠ "turn.started") (halive : Alive e.epochId rest turn.boundarySeq) :
    Alive e.epochId rest e.seq := by
  intro x hx b hb
  by_contra hle
  obtain ⟨c, d, rfl⟩ := append_of_mem hx
  obtain ⟨hsub, ht, hepoch, hbound⟩ := cutAt_eq_some hb
  have hrec : Kept ((front ++ e :: c) ++ x :: d) := by
    rw [append_assoc, cons_append]
    exact h
  obtain ⟨-, turnId, hp⟩ := hrec.emits.rewind_inv hsub ht
  obtain ⟨b', -, hb', hmem⟩ := rewindPayload_eq_ok hp
  have hbb : b' = b := by
    rw [boundarySeq?, hb'] at hbound
    simpa [asInt?] using hbound
  subst hbb
  rw [hepoch] at hmem
  -- the rewind's target was listed in front of the message, so it is no later than its turn
  have hstarts : ∀ y ∈ e :: c, y.eventType = "turn.started" → y.sub = false → y.seq ≠ b' := by
    intro y hy hyt _
    rcases mem_cons.mp hy with rfl | hy
    · exact absurd hyt hnot
    · have := h.seq_lt.2 y (mem_append_left _ hy)
      omega
  have hfront := ((mem_turnKeys_append hstarts).mp hmem).1
  have hle' := h.front.le_last hturn hfront
  have hlt := halive x hx b' hb
  simp only at hle'
  omega

/-- **The turns that are listed are those whose messages survive.** -/
theorem listed_iff_survives (h : Kept (front ++ e :: rest)) (hadd : AddsMessage e)
    (hlast : lastEpoch (front ++ e :: rest) = some e.epochId) {turnId : String}
    (hturn : e.turnId = some turnId) {archived : List String}
    (harch : ¬ (e.eventType = "context.message" ∧ isArchived archived e = true))
    (hst : (front ++ e :: rest).foldlM (replayStep hydrate archived) {} = .ok st) :
    turnId ∈ (collectEpochTurns (front ++ e :: rest) e.epochId).map TurnSummary.turnId ↔
      e.seq ∈ st.messages.map Prod.fst := by
  rw [survives_iff h hadd hlast harch hst]
  have hgt := h.seq_lt.2
  by_cases hstart : e.eventType = "turn.started"
  · -- the event is the start of its turn
    have hs : IsStart e turnId := ⟨hadd.root, hstart, hturn⟩
    have hstarts : ∀ y ∈ rest, y.eventType = "turn.started" → y.sub = false → y.seq ≠ e.seq := by
      intro y hy _ _
      have := hgt y hy
      omega
    rw [h.mem_turnIds_iff (by simp) hs, append_cons, mem_turnKeys_append hstarts,
      turnKeys_snoc_start hs]
    simp
  · -- its turn was the latest one when it was recorded
    have hm : e.eventType ∈ ["assistant.message", "tool.results", "context.message"] := by
      rcases mem_cons.mp hadd.eventType with hm | hm
      · exact absurd hm hstart
      · exact hm
    obtain ⟨-, -, hlatest⟩ := h.emits.message_inv hadd.root hm
    obtain ⟨turn, hget, hid⟩ := hlatest turnId hturn
    subst hid
    have hkey : turn.key ∈ turnKeys front e.epochId :=
      mem_map_of_mem (mem_of_getLast? hget)
    obtain ⟨s, hs, hstart', hseq, -⟩ := h.front.start_of_mem hkey
    have hslt := h.seq_lt.1 s hs
    have hstarts : ∀ y ∈ e :: rest, y.eventType = "turn.started" → y.sub = false →
        y.seq ≠ s.seq := by
      intro y hy hyt _
      rcases mem_cons.mp hy with rfl | hy
      · exact absurd hyt hstart
      · have := hgt y hy
        omega
    have hcut : cutAt e.epochId e = none := by
      refine cutAt_eq_none ?_
      intro hr
      rw [hr] at hm
      exact absurd hm (by decide)
    have hseq : s.seq = turn.boundarySeq := hseq
    have hstart' : IsStart s turn.turnId := hstart'
    rw [h.mem_turnIds_iff (mem_append_left _ hs) hstart', mem_turnKeys_append hstarts,
      alive_cons, hcut]
    refine ⟨?_, ?_⟩
    · intro hl
      exact alive_of_latest h hget hstart (hseq ▸ hl.2.2)
    · intro ha
      refine ⟨hseq ▸ hkey, by simp, ?_⟩
      intro x hx b hb
      have := ha x hx b hb
      simp only
      omega

end Survivors

/-- **Rewind equals prefix.**  In every recorded log, whatever follows a rewind to a turn, the
replay is that of the events in front of the turn's start and of those behind the rewind; and in
that replay the turns that are listed are exactly those whose messages survive. -/
theorem replay_rewind {hydrate : Dict → Except String Dict} {log later : List SessionEvent}
    {r : SessionEvent} {turnId : String} (h : Recorded (log ++ r :: later))
    (hr : IsRewind r turnId) :
    (∃ front s rest, log = front ++ s :: rest ∧ IsStart s turnId) ∧
    (∀ front s rest, log = front ++ s :: rest → IsStart s turnId →
      (∀ e ∈ s :: rest, Hydrates hydrate e) →
      replay hydrate (log ++ r :: later) = replay hydrate (front ++ later)) ∧
    ∀ st, replayState hydrate (log ++ r :: later) = .ok st →
      ∀ e ∈ log ++ r :: later, AddsMessage e →
        lastEpoch (log ++ r :: later) = some e.epochId → ∀ t, e.turnId = some t →
        (t ∈ (collectEpochTurns (log ++ r :: later) e.epochId).map TurnSummary.turnId ↔
          e.seq ∈ st.messages.map Prod.fst) := by
  have harch : ∀ events : List SessionEvent, (∀ e ∈ events, e ∈ log ++ r :: later) →
      archivedBackgroundCompletionIds events = .ok [] := by
    intro events hsub
    refine archived_eq_nil fun e he => ?_
    obtain ⟨front, hemits⟩ := h.emits_of_mem (hsub e he)
    exact hemits.archiveStep_eq
  have hlog : Recorded (log ++ [r]) := by
    rw [append_cons] at h
    exact h.front
  refine ⟨?_, ?_, ?_⟩
  · obtain ⟨-, b, -, hmem⟩ := h.emits.rewind_target hr
    obtain ⟨s, hs, hstart, -⟩ := h.front.kept.start_of_mem hmem
    obtain ⟨front, rest, rfl⟩ := append_of_mem hs
    exact ⟨front, s, rest, rfl, hstart⟩
  · intro front s rest hsplit hs hhyd
    subst hsplit
    have hkept : ∀ e ∈ front ++ later, e ∈ (front ++ s :: rest) ++ r :: later := by
      intro e he
      rcases mem_append.mp he with he | he
      · simp [he]
      · simp [he]
    rw [replay, replay, replayState, replayState, harch _ fun _ he => he, harch _ hkept]
    exact congrArg (Except.map ReplayState.result) (rewind_state hlog hs hr hhyd later)
  · intro st hst e he hadd hlast t ht
    rw [replayState, harch _ fun _ he => he] at hst
    obtain ⟨front, rest, hsplit⟩ := append_of_mem he
    rw [hsplit] at h hlast hst ⊢
    have harch' : ¬ (e.eventType = "context.message" ∧ isArchived [] e = true) := by
      rw [isArchived]
      split <;> simp
    exact listed_iff_survives h.kept hadd hlast ht harch' hst

/-! ### A session with one turn -/

/-- The session is created. -/
def createdEvent : SessionEvent where
  version := 2
  eventId := "event-1"
  sessionId := "session"
  seq := 1
  epochId := "epoch-1"
  turnId := none
  timestamp := "2026-01-01T00:00:00+00:00"
  actor := "system"
  eventType := "context.epoch_started"
  payload := [("reason", .str "new")]
  artifacts := []
  agentId := some "root"
  agentName := some "main"
  depth := some 0

/-- A turn is started. -/
def turnEvent : SessionEvent :=
  { createdEvent with
    eventId := "event-2"
    seq := 2
    turnId := some "turn-1"
    actor := "user"
    eventType := "turn.started"
    payload := [("message", .obj [("role", .str "user"), ("content", .str "hello")])] }

/-- The user rewinds to it. -/
def rewindEvent : SessionEvent :=
  { createdEvent with
    eventId := "event-3"
    seq := 3
    actor := "user"
    eventType := "context.rewound"
    payload := [("target_turn_id", .str "turn-1"), ("boundary_seq", .int 2),
      ("rewound_turn_ids", .arr [.str "turn-1"])] }

theorem recorded_rewindEvent : Recorded [createdEvent, turnEvent, rewindEvent] := by
  have h1 : Recorded [createdEvent] := .snoc .nil (.startEpoch rfl rfl (by simp)) rfl
  have h2 : Recorded ([createdEvent] ++ [turnEvent]) := by
    refine .snoc h1 (.startTurn "turn-1" ⟨rfl, rfl, rfl⟩ rfl ?_ (.inl ⟨_, rfl⟩)) rfl
    intro x hx
    rw [mem_singleton.mp hx]
    decide
  exact .snoc h2 (.rewind "turn-1" rfl rfl rfl rfl) rfl

/-- The replay of the session is that of its creation alone. -/
theorem replay_rewind_oneTurn :
    replay .ok [createdEvent, turnEvent, rewindEvent] = replay .ok [createdEvent] := by
  have h : Recorded ([createdEvent, turnEvent] ++ rewindEvent :: []) := recorded_rewindEvent
  have hr : IsRewind rewindEvent "turn-1" := ⟨rfl, rfl, rfl⟩
  exact (replay_rewind h hr).2.1 [createdEvent] turnEvent [] rfl ⟨rfl, rfl, rfl⟩
    fun _ _ m _ => ⟨m, rfl⟩

end KolegaCode.Session
