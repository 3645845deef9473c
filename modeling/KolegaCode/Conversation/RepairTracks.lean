import KolegaCode.Conversation.RepairConserve

/-!
# Conversation — what a step of the repair finds

When the pass reaches the messages `ms` and `H` are the calls of earlier assistant messages that
still await an answer, each user message of `ms` has lost exactly the first answers to `H`
(`sift`, `Tracks`).  From that invariant follows what an assistant message's look-ahead and search
take and leave open (`settled_tracks`), and when a look-ahead reads blocks that were taken before
(`stale_tracks`).

The calls taken before and those of the current message are kept apart by `Apart`.
-/

namespace KolegaCode.Conversation

open List

/-! ### Blocks with the first answers taken out -/

/-- The block is a result that answers `c`. -/
def Answers (c : ToolCall) (b : ContentBlock) : Prop := ∃ r, b = .toolResult r ∧ answers c r = true

open Classical in
/-- The blocks without the first answer to each call of `H`. -/
noncomputable def sift : (ToolCall → Prop) → List ContentBlock → List ContentBlock
  | _, [] => []
  | H, b :: bs =>
      if ∃ c, H c ∧ Answers c b then sift (fun c => H c ∧ ¬ Answers c b) bs else b :: sift H bs

variable {b : ContentBlock} {bs : List ContentBlock} {K : ToolCall → Prop} {c : ToolCall}
  {cells : List Cell}

theorem sift_taken {H : ToolCall → Prop} (h : ∃ c, H c ∧ Answers c b) (bs : List ContentBlock) :
    sift H (b :: bs) = sift (fun c => H c ∧ ¬ Answers c b) bs := by
  simp only [sift, if_pos h]

theorem sift_kept {H : ToolCall → Prop} (h : ¬ ∃ c, H c ∧ Answers c b) (bs : List ContentBlock) :
    sift H (b :: bs) = b :: sift H bs := by
  simp only [sift, if_neg h]

theorem sift_sublist (H : ToolCall → Prop) (bs : List ContentBlock) : (sift H bs).Sublist bs := by
  induction bs generalizing H with
  | nil => exact .slnil
  | cons b bs ih =>
    by_cases h : ∃ c, H c ∧ Answers c b
    · rw [sift_taken h]; exact (ih _).cons b
    · rw [sift_kept h]; exact (ih H).cons_cons b

theorem mem_sift {H : ToolCall → Prop} (hb : b ∈ bs) (h : ∀ c, H c → ¬ Answers c b) :
    b ∈ sift H bs := by
  induction bs generalizing H with
  | nil => cases hb
  | cons b' bs ih =>
    by_cases h' : ∃ c, H c ∧ Answers c b'
    · rw [sift_taken h']
      rcases mem_cons.mp hb with rfl | hb
      · obtain ⟨c, hc, ha⟩ := h'
        exact absurd ha (h c hc)
      · exact ih hb fun c hc => h c hc.1
    · rw [sift_kept h']
      rcases mem_cons.mp hb with rfl | hb
      · exact mem_cons_self
      · exact mem_cons_of_mem _ (ih hb h)

theorem answered_of_sift_eq_nil {H : ToolCall → Prop} (h : sift H bs = []) (hb : b ∈ bs) :
    ∃ c, H c ∧ Answers c b := by
  by_contra hno
  push Not at hno
  have := mem_sift hb hno
  rw [h] at this
  cases this

theorem sift_false (bs : List ContentBlock) : sift (fun _ => False) bs = bs := by
  induction bs with
  | nil => rfl
  | cons b bs ih => rw [sift_kept (by simp), ih]

/-- Taking out the answers to `H` and then those to `K`, when no block answers both. -/
theorem sift_sift {H : ToolCall → Prop}
    (hd : ∀ b ∈ bs, ∀ c d, H c → K d → Answers c b → ¬ Answers d b) :
    sift K (sift H bs) = sift (fun c => H c ∨ K c) bs := by
  induction bs generalizing H K with
  | nil => rfl
  | cons b bs ih =>
    have hd' : ∀ b ∈ bs, ∀ c d, H c → K d → Answers c b → ¬ Answers d b :=
      fun b' h => hd b' (mem_cons_of_mem _ h)
    by_cases hH : ∃ c, H c ∧ Answers c b
    · obtain ⟨c, hc, ha⟩ := hH
      have hK : ∀ d, K d → ¬ Answers d b := fun d hK => hd b mem_cons_self c d hc hK ha
      rw [sift_taken ⟨c, hc, ha⟩, sift_taken ⟨c, .inl hc, ha⟩, ih fun b' h' c' d h => hd' b' h' c' d h.1]
      congr 1
      funext x
      exact propext ⟨fun h => h.elim (fun h => ⟨.inl h.1, h.2⟩) fun h => ⟨.inr h, hK x h⟩,
        fun h => h.1.imp (fun h' => ⟨h', h.2⟩) id⟩
    · rw [sift_kept hH]
      by_cases hK : ∃ d, K d ∧ Answers d b
      · obtain ⟨d, hd₁, ha⟩ := hK
        rw [sift_taken ⟨d, hd₁, ha⟩, sift_taken ⟨d, .inr hd₁, ha⟩,
          ih fun b' h' c' d' h h'' => hd' b' h' c' d' h h''.1]
        congr 1
        funext x
        exact propext ⟨fun h => h.elim (fun h => ⟨.inl h, fun ha => hH ⟨x, h, ha⟩⟩)
          fun h => ⟨.inr h.1, h.2⟩, fun h => h.1.imp id fun h' => ⟨h', h.2⟩⟩
      · rw [sift_kept hK, ih hd', sift_kept]
        rintro ⟨x, hx | hx, ha⟩
        · exact hH ⟨x, hx, ha⟩
        · exact hK ⟨x, hx, ha⟩

/-- All blocks are taken out exactly when each answers a call of `H`, and no two the same. -/
theorem sift_eq_nil_iff {H : ToolCall → Prop}
    (hu : ∀ b ∈ bs, ∀ c d, H c → H d → Answers c b → Answers d b → c = d) :
    sift H bs = [] ↔ (∀ b ∈ bs, ∃ c, H c ∧ Answers c b) ∧
      bs.Pairwise fun b b' => ∀ c, H c → ¬ (Answers c b ∧ Answers c b') := by
  induction bs generalizing H with
  | nil => simp [sift]
  | cons b bs ih =>
    by_cases hb : ∃ c, H c ∧ Answers c b
    · rw [sift_taken hb, ih fun b' h c d hc hd =>
        hu b' (mem_cons_of_mem _ h) c d hc.1 hd.1]
      simp only [forall_mem_cons, pairwise_cons]
      constructor
      · rintro ⟨h₁, h₂⟩
        -- the call a later block answers is not the one `b` answers
        have key : ∀ b' ∈ bs, ∀ c, H c → Answers c b' → ¬ Answers c b := by
          intro b' h' c hc ha
          obtain ⟨d, ⟨hd, hnd⟩, ha'⟩ := h₁ b' h'
          rwa [hu b' (mem_cons_of_mem _ h') c d hc hd ha ha']
        refine ⟨⟨hb, fun b' h' => ?_⟩, fun b' h' c hc ha => key b' h' c hc ha.2 ha.1, ?_⟩
        · obtain ⟨d, ⟨hd, -⟩, ha'⟩ := h₁ b' h'
          exact ⟨d, hd, ha'⟩
        · refine h₂.imp_of_mem fun {x y} hx _ h c hc ha => ?_
          exact h c ⟨hc, key x hx c hc ha.1⟩ ha
      · rintro ⟨⟨-, h₁⟩, h₂, h₃⟩
        refine ⟨fun b' h' => ?_, h₃.imp fun h c hc => h c hc.1⟩
        obtain ⟨c, hc, ha⟩ := h₁ b' h'
        exact ⟨c, ⟨hc, fun hab => h₂ b' h' c hc ⟨hab, ha⟩⟩, ha⟩
    · rw [sift_kept hb]
      simp [hb]

/-! ### What gathering takes out -/

/-- `c` has no result yet. -/
def Open (slots : Slots) (c : ToolCall) : Prop := (c, none) ∈ slots

theorem Open.mem {slots : Slots} (h : Open slots c) : c ∈ slots.map Prod.fst :=
  mem_map.mpr ⟨_, h, rfl⟩

theorem mem_unmatched {slots : Slots} : c ∈ unmatched slots ↔ Open slots c := by
  simp only [unmatched, mem_filterMap, Open]
  constructor
  · rintro ⟨⟨d, o⟩, hs, h⟩
    cases o <;> simp_all
  · intro h
    exact ⟨_, h, rfl⟩

theorem unmatched_sublist (slots : Slots) : (unmatched slots).Sublist (slots.map Prod.fst) := by
  induction slots with
  | nil => exact .slnil
  | cons s slots ih =>
    obtain ⟨c, o⟩ := s
    cases o with
    | none => exact ih.cons_cons c
    | some r => exact ih.cons c

/-- No block answers two calls of `P`. -/
def Separates (P : ToolCall → Prop) (bs : List ContentBlock) : Prop :=
  ∀ b ∈ bs, ∀ c d, P c → P d → Answers c b → Answers d b → c = d

theorem Separates.mono {P Q : ToolCall → Prop} {as : List ContentBlock} (h : Separates P bs)
    (hP : ∀ c, Q c → P c) (hs : ∀ b ∈ as, b ∈ bs) : Separates Q as :=
  fun b hb c d hc hd => h b (hs b hb) c d (hP c hc) (hP d hd)

/-- Gathering takes the first answers to the open calls, and these are then no longer open. -/
theorem gather_exact {slots : Slots} (hn : (slots.map Prod.fst).Nodup)
    (hu : Separates (· ∈ slots.map Prod.fst) bs) :
    (gather slots bs).2 = sift (Open slots) bs ∧
      ∀ c, Open (gather slots bs).1 c ↔ Open slots c ∧ ∀ b ∈ bs, ¬ Answers c b := by
  induction bs generalizing slots with
  | nil => simp [gather, sift]
  | cons b bs ih =>
    cases h : place slots b with
    | none =>
      have hb : ¬ ∃ c, Open slots c ∧ Answers c b := by
        rintro ⟨c, hc, r, rfl, ha⟩
        rw [place_none h c hc] at ha
        cases ha
      obtain ⟨h₁, h₂⟩ := ih hn (hu.mono (fun _ h => h) fun b' h' => mem_cons_of_mem _ h')
      rw [gather_cons_none h, sift_kept hb]
      refine ⟨congrArg _ h₁, fun c => (h₂ c).trans ?_⟩
      simp only [forall_mem_cons]
      exact ⟨fun h => ⟨h.1, fun ha => hb ⟨c, h.1, ha⟩, h.2⟩, fun h => ⟨h.1, h.2.2⟩⟩
    | some slots' =>
      obtain ⟨r, a, c, t, rfl, rfl, rfl, ha⟩ := place_some h
      have hb : Answers c (.toolResult r) := ⟨r, rfl, ha⟩
      have hmap : (a ++ (c, some r) :: t).map Prod.fst = (a ++ (c, none) :: t).map Prod.fst := by
        simp
      -- the call `r` answers is the one whose slot it fills
      have hopen : ∀ x, Open (a ++ (c, some r) :: t) x ↔
          Open (a ++ (c, none) :: t) x ∧ ¬ Answers x (.toolResult r) := by
        intro x
        have hx : Open (a ++ (c, some r) :: t) x ↔ (x, none) ∈ a ∨ (x, none) ∈ t := by
          simp [Open]
        rw [hx]
        constructor
        · intro h'
          have hmem : Open (a ++ (c, none) :: t) x := by
            rcases h' with h' | h' <;> simp [Open, h']
          refine ⟨hmem, fun hax => ?_⟩
          have hxc : x = c := hu _ mem_cons_self x c hmem.mem (by simp) hax hb
          subst hxc
          simp only [map_append, map_cons] at hn
          have hdis := nodup_middle.mp hn
          rw [nodup_cons] at hdis
          refine hdis.1 (mem_append.mpr (h'.imp ?_ ?_)) <;>
            exact fun h' => mem_map.mpr ⟨_, h', rfl⟩
        · rintro ⟨h', hna⟩
          simp only [Open, mem_append, mem_cons, Prod.mk.injEq, and_true] at h'
          rcases h' with h' | rfl | h'
          · exact .inl h'
          · exact absurd hb hna
          · exact .inr h'
      obtain ⟨h₁, h₂⟩ := @ih (a ++ (c, some r) :: t) (hmap ▸ hn)
        (hu.mono (fun x hx => hmap ▸ hx) fun b' h' => mem_cons_of_mem _ h')
      rw [gather_cons_some h, h₁, sift_taken ⟨c, by simp [Open], hb⟩]
      refine ⟨congrArg (sift · bs) (funext fun x => propext (hopen x)), fun x => ?_⟩
      rw [h₂, hopen]
      simp only [forall_mem_cons, and_assoc]

/-! ### The cells, as a property of the input -/

/-- A user message of the input holds an answer to `c`. -/
def AnsweredBy (c : ToolCall) (m : Message) : Prop := m.role = .user ∧ ∃ b ∈ m.blocks, Answers c b

theorem AnsweredBy.hasBlocks {m : Message} (h : AnsweredBy c m) : m.hasBlocks = true := by
  obtain ⟨-, b, hb, -⟩ := h
  by_contra hno
  rw [Message.blocks_eq_nil_of_not_hasBlocks (Bool.not_eq_true _ ▸ hno)] at hb
  cases hb

theorem not_answeredBy_assistant {m : Message} (h : m.role = .assistant) (c : ToolCall) :
    ¬ AnsweredBy c m := by
  rintro ⟨hr, -⟩
  rw [h] at hr
  cases hr

/-- What the cell of the input message `m` holds once the first answers to `H` have been taken:
a user message has the remaining blocks, and is processed when none remain; any other message is
unchanged. -/
def Tracked (H : ToolCall → Prop) (m : Message) (c : Cell) : Prop :=
  if m.role = .user ∧ m.hasBlocks then
    c.msg.role = .user ∧ c.msg.hasBlocks ∧ (∀ b ∈ c.msg.blocks, b ∈ m.blocks) ∧
      (c.processed = false → c.msg.blocks = sift H m.blocks) ∧
      (c.processed = true ↔ m.blocks ≠ [] ∧ sift H m.blocks = []) ∧
      (c.processed = true → c.msg.blocks ≠ [])
  else c = ⟨m, false⟩

/-- The cells of the messages `ms`, when `H` are the calls awaiting an answer before them. -/
def Tracks : (ToolCall → Prop) → List Message → List Cell → Prop
  | _, [], [] => True
  | H, m :: ms, c :: cs => Tracked H m c ∧ Tracks (fun x => H x ∧ ¬ AnsweredBy x m) ms cs
  | _, _, _ => False

/-- The two sets of calls of a step: `H` taken before, and the open slots, no call in both. -/
structure Apart (H : ToolCall → Prop) (slots : Slots) (ms : List Message) : Prop where
  nodup : (slots.map Prod.fst).Nodup
  disjoint : ∀ c, H c → c ∉ slots.map Prod.fst
  separates : ∀ m ∈ ms, Separates (fun c => H c ∨ c ∈ slots.map Prod.fst) m.blocks

namespace Apart

variable {H : ToolCall → Prop} {slots : Slots} {m : Message} {ms : List Message}

theorem head (h : Apart H slots (m :: ms)) :
    Separates (fun c => H c ∨ c ∈ slots.map Prod.fst) m.blocks :=
  h.separates m mem_cons_self

theorem tail (h : Apart H slots (m :: ms)) {H' : ToolCall → Prop} {slots' : Slots}
    (hH : ∀ c, H' c → H c) (hs : slots'.map Prod.fst = slots.map Prod.fst) :
    Apart H' slots' ms where
  nodup := hs ▸ h.nodup
  disjoint := fun c hc => hs ▸ h.disjoint c (hH c hc)
  separates := fun m' hm => (h.separates m' (mem_cons_of_mem _ hm)).mono
    (fun c hc => hs ▸ hc.imp (hH c) id) fun _ hb => hb

variable {c : ToolCall}

section

variable (h : Apart H slots (m :: ms))
include h

theorem not_answers {b : ContentBlock} (hb : b ∈ m.blocks)
    {d : ToolCall} (hc : H c) (hd : Open slots d) (ha : Answers c b) : ¬ Answers d b := by
  intro ha'
  have hcd := h.head b hb c d (.inl hc) (.inr hd.mem) ha ha'
  exact h.disjoint c hc (hcd ▸ hd.mem)

theorem sift_sift :
    sift (Open slots) (sift H m.blocks) = sift (fun c => H c ∨ Open slots c) m.blocks :=
  Conversation.sift_sift fun _ hb _ _ hc hd ha => h.not_answers hb hc hd ha

theorem answered_sift (hc : Open slots c) :
    (∀ b ∈ sift H m.blocks, ¬ Answers c b) ↔ ∀ b ∈ m.blocks, ¬ Answers c b := by
  refine ⟨fun h' b hb ha => h' b (mem_sift hb fun d hd had => ?_) ha,
    fun h' b hb => h' b ((sift_sublist _ _).subset hb)⟩
  exact h.not_answers hb hd hc had ha

theorem gather :
    (gather slots (sift H m.blocks)).2 = sift (fun c => H c ∨ Open slots c) m.blocks ∧
      ∀ c, Open (gather slots (sift H m.blocks)).1 c ↔
        Open slots c ∧ ∀ b ∈ m.blocks, ¬ Answers c b := by
  obtain ⟨h₁, h₂⟩ := gather_exact h.nodup
    (h.head.mono (fun c hc => .inr hc) fun b hb => (sift_sublist H m.blocks).subset hb)
  refine ⟨h₁.trans h.sift_sift, fun c => (h₂ c).trans ?_⟩
  exact ⟨fun h' => ⟨h'.1, (h.answered_sift h'.1).mp h'.2⟩,
    fun h' => ⟨h'.1, (h.answered_sift h'.1).mpr h'.2⟩⟩

/-- Where nothing remains of a message, no open call is answered in it. -/
theorem not_answered_of_sift_eq_nil (hs : sift H m.blocks = [])
    (hc : Open slots c) : ∀ b ∈ m.blocks, ¬ Answers c b := by
  intro b hb
  obtain ⟨d, hd, ha⟩ := answered_of_sift_eq_nil hs hb
  exact h.not_answers hb hd hc ha

end

end Apart

/-- What the search leaves of a tracked message is tracked. -/
theorem tracked_leave {H : ToolCall → Prop} {m cm : Message} (hu : m.role = .user ∧ m.hasBlocks)
    (hc : Tracked H m ⟨cm, false⟩) (hK : (sift K m.blocks).Sublist (sift H m.blocks)) :
    Tracked K m (leave cm (sift K m.blocks)) := by
  unfold Tracked at hc ⊢
  rw [if_pos hu] at hc ⊢
  obtain ⟨hr, hb, hsub, heq, hproc, -⟩ := hc
  have hcm : cm.blocks = sift H m.blocks := heq rfl
  unfold leave
  split
  · rename_i hl
    rw [hcm] at hl
    have hHK := hK.eq_of_length hl
    exact ⟨hr, hb, hsub, fun _ => hcm.trans hHK.symm, hHK ▸ hproc, nofun⟩
  · rename_i hl
    split
    · rename_i he
      have he := List.isEmpty_iff.mp he
      have hne : cm.blocks ≠ [] := fun h => hl (by rw [he, h])
      refine ⟨hr, hb, hsub, nofun, iff_of_true rfl ⟨fun h => hne ?_, he⟩, fun _ => hne⟩
      exact eq_nil_iff_forall_not_mem.mpr fun b hb' => by simpa [h] using hsub b hb'
    · rename_i he
      exact ⟨hr, rfl, fun b hb' => (sift_sublist _ _).subset hb', fun _ => rfl,
        iff_of_false nofun fun h => he (List.isEmpty_iff.mpr h.2), nofun⟩

/-- **The search**, on tracked cells: it takes the first answers to the open calls out of the
messages, and the calls that stay open are those no message answers. -/
theorem search_tracks {H : ToolCall → Prop} {slots : Slots} {ms : List Message}
    (ha : Apart H slots ms) (ht : Tracks H ms cells) :
    Tracks (fun c => H c ∨ Open slots c) ms (search slots cells).2 ∧
      ∀ c, Open (search slots cells).1 c ↔ Open slots c ∧ ∀ m ∈ ms, ¬ AnsweredBy c m := by
  induction ms generalizing H slots cells with
  | nil =>
    cases cells with
    | nil => simp [search, Tracks]
    | cons c cs => exact ht.elim
  | cons m ms ih =>
    cases cells with
    | nil => exact ht.elim
    | cons c cells =>
      obtain ⟨hm, ht⟩ := ht
      simp only [search, forall_mem_cons]
      -- what a step of the search does to the open calls, and the tail it leaves
      have finish : ∀ slots' : Slots, slots'.map Prod.fst = slots.map Prod.fst →
          (∀ c, Open slots' c ↔ Open slots c ∧ ¬ AnsweredBy c m) →
          Tracks (fun c => (H c ∨ Open slots c) ∧ ¬ AnsweredBy c m) ms
            (search slots' cells).2 ∧
          ∀ c, Open (search slots' cells).1 c ↔
            Open slots c ∧ ¬ AnsweredBy c m ∧ ∀ m ∈ ms, ¬ AnsweredBy c m := by
        intro slots' hmap hopen
        obtain ⟨h₁, h₂⟩ := ih (ha.tail (fun c h => h.1) hmap) ht
        refine ⟨?_, fun c => by rw [h₂, hopen, and_assoc]⟩
        have he : (fun c => (H c ∧ ¬ AnsweredBy c m) ∨ Open slots' c) =
            fun c => (H c ∨ Open slots c) ∧ ¬ AnsweredBy c m := by
          funext x; rw [hopen, or_and_right]
        exact he ▸ h₁
      by_cases hu : m.role = .user ∧ m.hasBlocks
      · have hans : ∀ c, AnsweredBy c m ↔ ∃ b ∈ m.blocks, Answers c b :=
          fun c => and_iff_right hu.1
        have hm' := hm
        unfold Tracked at hm'
        rw [if_pos hu] at hm'
        obtain ⟨hr, hb, -, hblocks, hproc, -⟩ := hm'
        obtain ⟨cm, p⟩ := c
        cases p with
        | false =>
          rw [if_pos ⟨rfl, hr, hb⟩]
          have hcm : cm.blocks = sift H m.blocks := hblocks rfl
          simp only [hcm]
          obtain ⟨g₁, g₂⟩ := ha.gather
          obtain ⟨f₁, f₂⟩ := finish _ (gather_calls _ _) fun c => by
            rw [g₂, hans]; simp only [not_exists, not_and]
          refine ⟨⟨g₁ ▸ tracked_leave hu hm ?_, f₁⟩, f₂⟩
          rw [← ha.sift_sift]
          exact sift_sublist _ _
        | true =>
          rw [if_neg (by simp)]
          have hnil := (hproc.mp rfl).2
          obtain ⟨f₁, f₂⟩ := finish slots rfl fun c => by
            rw [hans]
            refine ⟨fun h => ⟨h, ?_⟩, fun h => h.1⟩
            rintro ⟨b, hb, hab⟩
            exact ha.not_answered_of_sift_eq_nil hnil h b hb hab
          refine ⟨⟨?_, f₁⟩, f₂⟩
          have hnil' : sift (fun c => H c ∨ Open slots c) m.blocks = [] := by
            rw [← ha.sift_sift, hnil]; rfl
          unfold Tracked at hm ⊢
          rw [if_pos hu] at hm ⊢
          exact ⟨hm.1, hm.2.1, hm.2.2.1, (by rintro ⟨⟩),
            iff_of_true rfl ⟨(hproc.mp rfl).1, hnil'⟩, hm.2.2.2.2.2⟩
      · unfold Tracked at hm
        rw [if_neg hu] at hm
        subst hm
        rw [if_neg fun h => hu h.2]
        obtain ⟨f₁, f₂⟩ := finish slots rfl fun c =>
          ⟨fun h => ⟨h, fun h' => hu ⟨h'.1, h'.hasBlocks⟩⟩, fun h => h.1⟩
        refine ⟨⟨?_, f₁⟩, f₂⟩
        unfold Tracked
        rw [if_neg hu]

theorem collect_tracks {H : ToolCall → Prop} {slots : Slots} {ms : List Message}
    (ha : Apart H slots ms) (ht : Tracks H ms cells) :
    Tracks (fun c => H c ∨ Open slots c) ms (collect slots cells).2 ∧
      ∀ c, Open (collect slots cells).1 c ↔ Open slots c ∧ ∀ m ∈ ms, ¬ AnsweredBy c m := by
  unfold collect
  split
  · exact search_tracks ha ht
  · rename_i hi
    have hno : ∀ c, ¬ Open slots c := by
      intro c hc
      refine hi (any_eq_true.mpr ⟨_, hc, rfl⟩)
    refine ⟨?_, fun c => ⟨fun h => absurd h (hno c), fun h => h.1⟩⟩
    have he : (fun c => H c ∨ Open slots c) = H := by
      funext c; simp [hno c]
    rw [he]
    exact ht

/-! ### An assistant message with calls -/

/-- The cells when the pass reaches the messages `ms`: tracked, but for a user message that was
just read as a look-ahead, which is processed. -/
def Follows (H : ToolCall → Prop) : List Message → List Cell → Prop
  | [], [] => True
  | m :: ms, c :: cs =>
      (Tracked H m c ∨ c.processed = true ∧ m.role = .user ∧ m.hasBlocks) ∧
        Tracks (fun x => H x ∧ ¬ AnsweredBy x m) ms cs
  | _, _ => False

theorem Tracks.follows {H : ToolCall → Prop} {ms : List Message} (h : Tracks H ms cells) :
    Follows H ms cells := by
  match ms, cells with
  | [], [] => trivial
  | _ :: _, _ :: _ => exact ⟨.inl h.1, h.2⟩

theorem tracks_start (ms : List Message) {H : ToolCall → Prop} (hH : ∀ c, ¬ H c) :
    Tracks H ms (ms.map (⟨·, false⟩)) := by
  induction ms generalizing H with
  | nil => trivial
  | cons m ms ih =>
    refine ⟨?_, ih fun c h => hH c h.1⟩
    have he : H = fun _ => False := by funext c; simp [hH c]
    unfold Tracked
    split
    · rename_i hu
      rw [he, sift_false]
      exact ⟨hu.1, hu.2, fun _ h => h, fun _ => rfl, iff_of_false nofun fun h => h.1 h.2, nofun⟩
    · rfl

theorem collect_processed (slots : Slots) (m : Message) (cells : List Cell) :
    collect slots (⟨m, true⟩ :: cells) =
      ((collect slots cells).1, ⟨m, true⟩ :: (collect slots cells).2) := by
  unfold collect
  split
  · simp [search]
  · rfl

theorem lookAhead_other (slots : Slots) {u : Message} (hu : ¬ (u.role = .user ∧ u.hasBlocks))
    (p : Bool) (rest : List Cell) :
    (lookAhead slots (⟨u, p⟩ :: rest)).slots = slots ∧
      (lookAhead slots (⟨u, p⟩ :: rest)).rest = ⟨u, p⟩ :: rest := by
  simp only [lookAhead]
  split
  · rename_i hr
    rw [if_neg fun hb => hu ⟨hr, hb⟩]
    exact ⟨rfl, rfl⟩
  · exact ⟨rfl, rfl⟩

theorem open_fresh {cs : List ToolCall} : Open (cs.map (·, none)) c ↔ c ∈ cs := by
  simp [Open]

/-- **The look-ahead and the search** of an assistant message: its calls join those awaiting an
answer, and the calls left open are those no later message answers. -/
theorem settled_tracks {H : ToolCall → Prop} {a : Message} {ms : List Message}
    (ha : Apart H (a.calls.map (·, none)) ms) (ht : Tracks H ms cells) :
    Follows (fun c => H c ∨ c ∈ a.calls) ms (settled a cells).2 ∧
      ∀ c, Open (settled a cells).1 c ↔ c ∈ a.calls ∧ ∀ m ∈ ms, ¬ AnsweredBy c m := by
  have hH : (fun c => H c ∨ Open (a.calls.map (·, none)) c) = fun c => H c ∨ c ∈ a.calls := by
    funext c; rw [open_fresh]
  match ms, cells with
  | [], [] =>
    refine ⟨?_, fun c => ?_⟩
    · simp [settled, lookAhead, collect, search, Follows]
    · simp [settled, lookAhead, collect, search, open_fresh]
  | u :: ms, ⟨cm, p⟩ :: cells =>
    obtain ⟨hm, ht⟩ := ht
    by_cases hu : u.role = .user ∧ u.hasBlocks
    · have hans : ∀ c, AnsweredBy c u ↔ ∃ b ∈ u.blocks, Answers c b :=
        fun c => and_iff_right hu.1
      unfold Tracked at hm
      rw [if_pos hu] at hm
      obtain ⟨hr, hb, hsub, hblocks, hproc, -⟩ := hm
      have hla : lookAhead (a.calls.map (·, none)) (⟨cm, p⟩ :: cells) =
          ⟨(gather (a.calls.map (·, none)) cm.blocks).1,
            (gather (a.calls.map (·, none)) cm.blocks).2, ⟨cm, true⟩ :: cells, some cm⟩ := by
        simp only [lookAhead, if_pos (show cm.role = .user from hr),
          if_pos (show cm.hasBlocks = true from hb)]
      -- read again or not, the message closes the calls it answers
      have hopen : ∀ c, Open (gather (a.calls.map (·, none)) cm.blocks).1 c ↔
          c ∈ a.calls ∧ ¬ AnsweredBy c u := by
        intro c
        rw [hans, ← open_fresh]
        simp only [not_exists, not_and]
        cases p with
        | false =>
          rw [show cm.blocks = sift H u.blocks from hblocks rfl]
          exact ha.gather.2 c
        | true =>
          have hnil := (hproc.mp rfl).2
          rw [(gather_exact ha.nodup (ha.head.mono (fun c hc => .inr hc) hsub)).2]
          exact ⟨fun h => ⟨h.1, ha.not_answered_of_sift_eq_nil hnil h.1⟩,
            fun h => ⟨h.1, fun b hb => h.2 b (hsub b hb)⟩⟩
      obtain ⟨h₁, h₂⟩ := collect_tracks (ha.tail (fun c h => h.1) (gather_calls _ _)) ht
      simp only [settled, hla, collect_processed]
      refine ⟨⟨.inr ⟨rfl, hu⟩, ?_⟩, fun c => ?_⟩
      · have he : (fun c => (H c ∧ ¬ AnsweredBy c u) ∨
            Open (gather (a.calls.map (·, none)) cm.blocks).1 c) =
            fun c => (H c ∨ c ∈ a.calls) ∧ ¬ AnsweredBy c u := by
          funext c; rw [hopen, or_and_right]
        exact he ▸ h₁
      · rw [h₂, hopen, forall_mem_cons, and_assoc]
    · have hc := hm
      unfold Tracked at hc
      rw [if_neg hu, Cell.mk.injEq] at hc
      obtain ⟨rfl, rfl⟩ := hc
      obtain ⟨h₁, h₂⟩ := lookAhead_other (a.calls.map (·, none)) hu false cells
      have ht' : Tracks H (cm :: ms) (⟨cm, false⟩ :: cells) := ⟨hm, ht⟩
      obtain ⟨h₃, h₄⟩ := collect_tracks ha ht'
      rw [settled, h₁, h₂]
      exact ⟨hH ▸ h₃.follows, fun c => by rw [h₄, open_fresh]⟩

/-- The blocks a look-ahead reads again: there are some exactly when every block of the next
message has been taken, and they are blocks of it that answer calls of `H`. -/
theorem stale_tracks {H : ToolCall → Prop} {ms : List Message} (ht : Tracks H ms cells) :
    (stale cells ≠ [] ↔ ∃ u ms', ms = u :: ms' ∧ u.role = .user ∧ u.blocks ≠ [] ∧
      sift H u.blocks = []) ∧
      ∀ b ∈ stale cells, ∃ u ∈ ms, b ∈ u.blocks ∧ ∃ c, H c ∧ Answers c b := by
  cases ms with
  | nil =>
    cases cells with
    | nil => simp [stale]
    | cons c cells => exact ht.elim
  | cons u ms =>
    cases cells with
    | nil => exact ht.elim
    | cons c cells =>
      obtain ⟨cm, p⟩ := c
      have hm := ht.1
      unfold Tracked at hm
      by_cases hu : u.role = .user ∧ u.hasBlocks
      · rw [if_pos hu] at hm
        obtain ⟨hr, -, hsub, -, hproc, hne⟩ := hm
        cases p with
        | false =>
          refine ⟨iff_of_false (by simp [stale]) ?_, by simp [stale]⟩
          rintro ⟨u', ms', he, -, h₁, h₂⟩
          cases he
          cases hproc.mpr ⟨h₁, h₂⟩
        | true =>
          have hst : stale (⟨cm, true⟩ :: cells) = cm.blocks := if_pos hr
          rw [hst]
          obtain ⟨h₁, h₂⟩ := hproc.mp rfl
          refine ⟨iff_of_true (hne rfl) ⟨u, ms, rfl, hu.1, h₁, h₂⟩, fun b hb => ?_⟩
          exact ⟨u, mem_cons_self, hsub b hb, answered_of_sift_eq_nil h₂ (hsub b hb)⟩
      · rw [if_neg hu, Cell.mk.injEq] at hm
        obtain ⟨rfl, rfl⟩ := hm
        refine ⟨iff_of_false (by simp [stale]) ?_, by simp [stale]⟩
        rintro ⟨u', ms', he, hr, h₁, -⟩
        cases he
        refine hu ⟨hr, ?_⟩
        by_contra hno
        exact h₁ (Message.blocks_eq_nil_of_not_hasBlocks (Bool.not_eq_true _ ▸ hno))

end KolegaCode.Conversation
