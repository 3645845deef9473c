import KolegaCode.Gateway.Access

/-!
# Gateway — pairing across processes

What holds of the two files, and of what every process holds of them between two file operations,
in every run without a `Careless` write, one of a file that has changed since it was read.  Where a
write is careless, an approval that returned or a code that was reported can be lost
(`pairing_lost`), but nobody is let in (`Traced`).
-/

namespace KolegaCode.Gateway

open List

/-! ### The files -/

section

variable {now : ℚ} {pending file : Pairings} {code : String} {entry : PairingEntry}

variable {V : Type}

theorem sortKeys_perm (payload : Assoc String V) : (sortKeys payload).Perm payload :=
  perm_insertionSort _ payload

theorem get?_sortKeys {payload : Assoc String V} (h : payload.keys.Nodup) (key : String) :
    (sortKeys payload).get? key = payload.get? key :=
  (Assoc.get?_perm h (sortKeys_perm payload).symm key).symm

theorem nodup_keys_sortKeys {payload : Assoc String V} (h : payload.keys.Nodup) :
    (sortKeys payload).keys.Nodup :=
  ((sortKeys_perm payload).map Prod.fst).nodup_iff.mpr h

theorem evict_sublist (n : Nat) (live : Pairings) : (evict n live).Sublist live := by
  induction n generalizing live with
  | zero => exact List.Sublist.refl live
  | succ n ih =>
    rw [evict]
    split
    · exact List.Sublist.refl live
    · exact (ih _).trans filter_sublist

theorem mem_writtenPairings (h : (code, entry) ∈ writtenPairings now pending) :
    (code, entry) ∈ pending :=
  mem_of_mem_filter ((evict_sublist _ _).subset ((sortKeys_perm _).mem_iff.mp h))

theorem nodup_keys_writtenPairings (h : pending.keys.Nodup) :
    (writtenPairings now pending).keys.Nodup :=
  nodup_keys_sortKeys (h.sublist (((evict_sublist _ _).trans filter_sublist).map _))

/-- What has not expired is written, or dropped for the cap. -/
theorem get?_writtenPairings (hnodup : pending.keys.Nodup) (h : pending.get? code = some entry)
    (hlive : now < entry.expiresAt) :
    (writtenPairings now pending).get? code = some entry ∨ entry ∈ evictedBy now pending := by
  have hmem : (code, entry) ∈ unexpired now pending :=
    mem_filter.mpr ⟨Assoc.mem_of_get? h, decide_eq_true hlive⟩
  by_cases hkept : (code, entry) ∈
      evict ((unexpired now pending).length - MAX_PENDING_CODES) (unexpired now pending)
  · exact .inl (Assoc.get?_of_mem (nodup_keys_writtenPairings hnodup)
      ((sortKeys_perm _).mem_iff.mpr hkept))
  · exact .inr (mem_map.mpr ⟨_, mem_filter.mpr ⟨hmem, decide_eq_true hkept⟩, rfl⟩)

theorem get?_pendingOf (hnodup : file.keys.Nodup) (h : file.get? code = some entry)
    (hvalid : validPairing now code entry = true) : (pendingOf now file).get? code = some entry :=
  Assoc.get?_of_mem (hnodup.sublist (filter_sublist.map _))
    (mem_filter.mpr ⟨Assoc.mem_of_get? h, hvalid⟩)

theorem get?_of_pendingOf (hnodup : file.keys.Nodup)
    (h : (pendingOf now file).get? code = some entry) :
    file.get? code = some entry ∧ validPairing now code entry = true := by
  obtain ⟨hmem, hvalid⟩ := mem_filter.mp (Assoc.mem_of_get? h)
  exact ⟨Assoc.get?_of_mem hnodup hmem, hvalid⟩

theorem strip_code (h : wellFormedCode code = true) : strip code = code := by
  simp only [wellFormedCode, Bool.and_eq_true, all_eq_true, decide_eq_true_eq] at h
  have hspace : ∀ c ∈ code.toList, Hashline.isSpace c = false := by
    have hall : CODE_ALPHABET.all (fun c => !Hashline.isSpace c) = true := by decide
    intro c hc
    simpa using all_eq_true.mp hall c (h.2 c hc)
  rw [strip, Text.strip_eq_self _ hspace, String.ofList_toList]

theorem validIdentity_code (h : wellFormedCode code = true) : validIdentity code = true := by
  simp only [validIdentity, strip_code h, decide_true, Bool.and_true, decide_eq_true_eq]
  rintro rfl
  exact absurd h (by decide)

end

/-! ### What holds of a world -/

/-- What is known of a code that was made. -/
structure WellIssued (clock : ℚ) (entry : PairingEntry) : Prop where
  code : wellFormedCode entry.code = true
  sender : validIdentity entry.senderId = true
  created : 0 ≤ entry.createdAt
  expires : entry.createdAt < entry.expiresAt ∨ entry.expiresAt ≤ clock

/-- The pending codes in hand are codes that were made, each under its own key. -/
structure Listed (w : World) (pending : Pairings) : Prop where
  nodup : pending.keys.Nodup
  good : ∀ code entry, pending.get? code = some entry → entry.code = code ∧ entry ∈ w.issued

/-- What a process has in hand of the pairing file it read. -/
structure Held (w : World) (base pending : Pairings) : Prop extends Listed w pending where
  carries : ∀ code entry, base.get? code = some entry → w.clock < entry.expiresAt →
    pending.get? code = some entry

/-- What a process that approves a code has in hand; the code is taken out of it. -/
def HeldWithout (w : World) (base pending : Pairings) (code : String) (entry : PairingEntry) :
    Prop :=
  ∃ full, pending = full.erase code ∧ Held w base full ∧ full.get? code = some entry ∧
    base.get? code = some entry

def SoundProcess (w : World) : Process → Prop
  | .issuing base pending entry => Held w base pending ∧ pending.get? entry.code = some entry
  | .approving base pending code entry =>
    Held w base pending ∧ pending.get? code = some entry ∧ base.get? code = some entry
  | .admitting base pending code entry allowBase allowlist =>
    HeldWithout w base pending code entry ∧
      ∃ now, 0 ≤ now ∧ allowlist = allowBase.set entry.senderId ⟨entry.senderName, now⟩
  | .closing base pending code entry =>
    HeldWithout w base pending code entry ∧ w.allowFile.get? entry.senderId ≠ none
  | .rejecting base pending => Held w base pending

/-- The code was approved, or dropped for the cap. -/
def Gone (w : World) (entry : PairingEntry) : Prop :=
  (∃ code, .approved code entry ∈ w.log) ∨ .evicted entry ∈ w.log

structure SoundWorld (w : World) : Prop where
  clock : 0 ≤ w.clock
  file : Listed w w.pairingFile
  allowKeys : w.allowFile.keys.Nodup
  issued : ∀ entry ∈ w.issued, WellIssued w.clock entry
  processes : ∀ pid process, w.processes.get? pid = some process → SoundProcess w process
  reported : ∀ entry, .reported entry ∈ w.log → w.clock < entry.expiresAt →
    (entry ∈ w.issued ∧ w.pairingFile.get? entry.code = some entry) ∨ Gone w entry
  approved : ∀ code entry, .approved code entry ∈ w.log →
    entry ∈ w.issued ∧ w.allowFile.get? entry.senderId ≠ none
  allowed : ∀ sender allow, w.allowFile.get? sender = some allow → 0 ≤ allow.approvedAt ∧
    ∃ entry ∈ w.issued, entry.senderId = sender ∧ .admitted entry.code entry ∈ w.log

/-- What a later world keeps for the processes. -/
structure Later (w w' : World) : Prop where
  clock : w.clock ≤ w'.clock
  issued : ∀ entry ∈ w.issued, entry ∈ w'.issued
  allowed : ∀ sender, w.allowFile.get? sender ≠ none → w'.allowFile.get? sender ≠ none

section

variable {w w' : World} {base pending : Pairings} {code : String} {entry : PairingEntry}
  {process : Process} {pid : Nat}

variable {clock listed : ℚ} {config : Config}

theorem WellIssued.mono {clock' : ℚ} (h : WellIssued clock entry) (hle : clock ≤ clock') :
    WellIssued clock' entry :=
  { h with expires := h.expires.imp_right fun he => he.trans hle }

theorem WellIssued.valid {now : ℚ} (h : WellIssued clock entry) (hle : clock ≤ now)
    (hlive : now < entry.expiresAt) : validPairing now entry.code entry = true := by
  have hlt : entry.createdAt < entry.expiresAt :=
    h.expires.resolve_right fun he => absurd (hle.trans_lt hlive) he.not_gt
  have hpos : 0 ≤ entry.expiresAt := h.created.trans hlt.le
  simp [validPairing, validIdentity_code h.code, h.sender, h.created, hpos, hlt, hlive]

theorem Listed.mono (h : Listed w pending) (hle : Later w w') : Listed w' pending :=
  { h with good := fun code entry he => (h.good code entry he).imp_right (hle.issued entry) }

theorem Held.mono (h : Held w base pending) (hle : Later w w') : Held w' base pending :=
  { h.toListed.mono hle with
    carries := fun code entry he hlive => h.carries code entry he (hle.clock.trans_lt hlive) }

theorem HeldWithout.mono (h : HeldWithout w base pending code entry) (hle : Later w w') :
    HeldWithout w' base pending code entry := by
  obtain ⟨full, he, hheld, hrest⟩ := h
  exact ⟨full, he, hheld.mono hle, hrest⟩

theorem SoundProcess.mono (h : SoundProcess w process) (hle : Later w w') :
    SoundProcess w' process := by
  cases process with
  | issuing base pending entry | approving base pending code entry | admitting base pending code entry allowBase allowlist => exact ⟨h.1.mono hle, h.2⟩
  | closing base pending code entry => exact ⟨h.1.mono hle, hle.allowed _ h.2⟩
  | rejecting base pending => exact Held.mono h hle

theorem SoundWorld.tick (h : SoundWorld w) {now : ℚ} (hle : w.clock ≤ now) :
    SoundWorld { w with clock := now } := by
  have hlater : Later w { w with clock := now } := ⟨hle, fun _ he => he, fun _ ha => ha⟩
  exact
    { h with
      clock := h.clock.trans hle
      file := h.file.mono hlater
      issued := fun entry he => (h.issued entry he).mono hle
      processes := fun pid process hp => (h.processes pid process hp).mono hlater
      reported := fun entry he hlive => h.reported entry he (hle.trans_lt hlive) }

theorem SoundWorld.goto (h : SoundWorld w) (hprocess : SoundProcess w process) :
    SoundWorld (w.goto pid process) := by
  have hlater : Later w (w.goto pid process) := ⟨le_rfl, fun _ he => he, fun _ ha => ha⟩
  refine { h with file := h.file.mono hlater, processes := fun pid' process' hp => ?_ }
  simp only [World.goto, Assoc.get?_set] at hp
  split at hp
  · cases hp
    exact hprocess.mono hlater
  · exact (h.processes pid' process' hp).mono hlater

theorem SoundWorld.end (h : SoundWorld w) : SoundWorld (w.end pid) := by
  have hlater : Later w (w.end pid) := ⟨le_rfl, fun _ he => he, fun _ ha => ha⟩
  refine { h with file := h.file.mono hlater, processes := fun pid' process' hp => ?_ }
  simp only [World.end, Assoc.get?_erase] at hp
  split at hp
  · cases hp
  · exact (h.processes pid' process' hp).mono hlater

theorem SoundWorld.held (h : SoundWorld w) (hle : listed ≤ w.clock)
    (hread : ∀ entry ∈ w.issued, WellIssued listed entry) :
    Held w w.pairingFile (pendingOf listed w.pairingFile) where
  nodup := h.file.nodup.sublist (filter_sublist.map _)
  good := fun code entry he => h.file.good code entry (get?_of_pendingOf h.file.nodup he).1
  carries := by
    intro code entry he hlive
    obtain ⟨hcode, hissued⟩ := h.file.good code entry he
    refine get?_pendingOf h.file.nodup he ?_
    rw [← hcode]
    exact (hread entry hissued).valid le_rfl (hle.trans_lt hlive)

theorem SoundWorld.report (h : SoundWorld w) (hissued : entry ∈ w.issued)
    (hfile : w.pairingFile.get? entry.code = some entry) :
    SoundWorld { w with log := w.log ++ [.reported entry] } := by
  have hlater : Later w { w with log := w.log ++ [.reported entry] } :=
    ⟨le_rfl, fun _ he => he, fun _ ha => ha⟩
  refine
    { h with
      file := h.file.mono hlater
      processes := fun pid process hp => (h.processes pid process hp).mono hlater
      reported := ?_, approved := ?_, allowed := ?_ }
  · intro entry' he hlive
    rcases mem_append.mp he with he | he
    · refine (h.reported entry' he hlive).imp_right fun hg => ?_
      exact hg.imp (fun ⟨code, hc⟩ => ⟨code, mem_append_left _ hc⟩)
        (mem_append_left _)
    · rw [mem_singleton] at he
      cases he
      exact .inl ⟨hissued, hfile⟩
  · intro code entry' he
    rcases mem_append.mp he with he | he
    · exact h.approved code entry' he
    · simp at he
  · intro sender allow ha
    obtain ⟨hpos, entry', he, hs, hlog⟩ := h.allowed sender allow ha
    exact ⟨hpos, entry', he, hs, mem_append_left _ hlog⟩

theorem SoundWorld.made (entry : PairingEntry) (h : SoundWorld w) (hle : listed ≤ w.clock)
    (hread : ∀ entry ∈ w.issued, WellIssued listed entry)
    (hnew : (pendingOf listed w.pairingFile).get? entry.code = none)
    (hentry : WellIssued w.clock entry) :
    SoundWorld { w.goto pid (.issuing w.pairingFile
        ((pendingOf listed w.pairingFile).set entry.code entry) entry) with
      issued := w.issued ++ [entry] } := by
  have hheld := h.held hle hread
  have hlater : Later w { w with issued := w.issued ++ [entry] } :=
    ⟨le_rfl, fun _ he => mem_append_left _ he, fun _ ha => ha⟩
  have hsound : SoundWorld { w with issued := w.issued ++ [entry] } := by
    refine
      { h with
        file := h.file.mono hlater
        issued := ?_
        processes := fun pid process hp => (h.processes pid process hp).mono hlater
        reported := fun entry' he hlive =>
          (h.reported entry' he hlive).imp_left fun hf => ⟨mem_append_left _ hf.1, hf.2⟩
        approved := fun code entry' he =>
          (h.approved code entry' he).imp_left (mem_append_left _)
        allowed := ?_ }
    · intro entry' he
      rcases mem_append.mp he with he | he
      · exact h.issued entry' he
      · rw [mem_singleton.mp he]
        exact hentry
    · intro sender allow ha
      obtain ⟨hpos, entry', he, hs, hlog⟩ := h.allowed sender allow ha
      exact ⟨hpos, entry', mem_append_left _ he, hs, hlog⟩
  refine hsound.goto ⟨⟨⟨Assoc.nodup_keys_set hheld.nodup _ _, ?_⟩, ?_⟩, Assoc.get?_set_self ..⟩
  · intro code entry' he
    rw [Assoc.get?_set] at he
    split at he
    · next hc =>
      cases he
      exact ⟨hc.symm, mem_append_right _ (mem_singleton.mpr rfl)⟩
    · obtain ⟨hcode, hissued⟩ := hheld.good code entry' he
      exact ⟨hcode, mem_append_left _ hissued⟩
  · intro code entry' he hlive
    have hcarried := hheld.carries code entry' he hlive
    have hne : code ≠ entry.code := by
      rintro rfl
      rw [hnew] at hcarried
      cases hcarried
    rw [Assoc.get?_set_of_ne hne]
    exact hcarried

theorem issueCode_spec {draws : List String} (h : issueCode draws pending = some code) :
    pending.get? code = none ∧ code ∈ draws := by
  have hnone := find?_some h
  exact ⟨Option.isNone_iff_eq_none.mp hnone, mem_of_mem_take (mem_of_find?_eq_some h)⟩

theorem SoundWorld.issue {config : Config} {message : InboundMessage} {listed created : ℚ}
    {draws : List String} (h : SoundWorld w) (hle : listed ≤ w.clock)
    (hread : ∀ entry ∈ w.issued, WellIssued listed entry)
    (hsender : validIdentity message.senderId = true) (hpos : 0 ≤ created)
    (hexpiring : created ≤ w.clock) (hdraws : draws.all wellFormedCode = true) :
    SoundWorld (w.issue config pid message (pendingOf listed w.pairingFile) created w.clock
      draws) := by
  rw [World.issue]
  split
  · exact h
  · next code hcode =>
    obtain ⟨hnew, hmem⟩ := issueCode_spec hcode
    refine SoundWorld.made (newEntry config message code created w.clock) h hle hread hnew
      ⟨all_eq_true.mp hdraws code hmem, hsender, hpos, ?_⟩
    rcases lt_or_ge 0 config.codeTtlSeconds with hpos | hneg
    · exact .inl (hexpiring.trans_lt (lt_add_of_pos_right _ hpos))
    · exact .inr (add_le_of_nonpos_right hneg)

theorem SoundWorld.contact {config : Config} {message : InboundMessage}
    {listed checked created : ℚ} {draws : List String} (h : SoundWorld w)
    (hle : listed ≤ w.clock) (hread : ∀ entry ∈ w.issued, WellIssued listed entry)
    (hpos : 0 ≤ created) (hexpiring : created ≤ w.clock)
    (hdraws : draws.all wellFormedCode = true) :
    SoundWorld (w.contact config pid message listed checked created w.clock draws) := by
  rw [World.contact]
  split
  · exact h
  next hsender =>
  simp only [Bool.or_eq_true, Bool.not_eq_true', not_or, Bool.not_eq_false] at hsender
  have hissue := @SoundWorld.issue _ pid config _ _ _ _ h hle hread hsender.2 hpos hexpiring hdraws
  simp only
  split
  · next code existing hfind =>
    split
    · have hheld := h.held hle hread
      have hget := Assoc.get?_of_mem hheld.nodup (mem_of_find?_eq_some hfind)
      obtain ⟨hcode, hissued⟩ := hheld.good _ _ hget
      refine h.report hissued ?_
      rw [hcode]
      exact (get?_of_pendingOf h.file.nodup hget).1
    · exact hissue
  · exact hissue

theorem SoundWorld.approve {text : String} {checked : ℚ} (h : SoundWorld w)
    (hle : listed ≤ w.clock) (hread : ∀ entry ∈ w.issued, WellIssued listed entry)
    (hchecked : checked ≤ w.clock) : SoundWorld (w.approve config pid text listed checked) := by
  have hheld := h.held hle hread
  have hreject : ∀ code, (∀ entry, (pendingOf listed w.pairingFile).get? code = some entry →
      entry.expiresAt ≤ checked) → SoundWorld (w.goto pid
        (.rejecting w.pairingFile ((pendingOf listed w.pairingFile).erase code))) := by
    intro code hdead
    refine h.goto ⟨⟨Assoc.nodup_keys_erase hheld.nodup code, ?_⟩, ?_⟩
    · intro code' entry he
      rw [Assoc.get?_erase] at he
      split at he
      · cases he
      · exact hheld.good code' entry he
    · intro code' entry he hlive
      have hcarried := hheld.carries code' entry he hlive
      rw [Assoc.get?_erase, if_neg]
      · exact hcarried
      · rintro rfl
        exact absurd hlive ((hdead entry hcarried).trans hchecked).not_gt
  simp only [World.approve]
  split
  · next hnone =>
    refine hreject _ fun entry he => ?_
    rw [hnone] at he
    cases he
  · next entry hentry =>
    split
    · next hdead =>
      refine hreject _ fun entry' he => ?_
      rw [hentry] at he
      cases he
      exact hdead
    · exact h.goto ⟨hheld, hentry, (get?_of_pendingOf h.file.nodup hentry).1⟩

/-- The pairing file is written; what leaves it was approved, dropped for the cap, or expired. -/
theorem SoundWorld.writePairings {records : List Record} (h : SoundWorld w)
    (hlisted : Listed w pending)
    (hkeeps : ∀ code entry, w.pairingFile.get? code = some entry → w.clock < entry.expiresAt →
      pending.get? code = some entry ∨ .approved code entry ∈ records)
    (hreported : ∀ entry, .reported entry ∈ records →
      entry ∈ w.issued ∧ pending.get? entry.code = some entry)
    (happroved : ∀ code entry, .approved code entry ∈ records →
      entry ∈ w.issued ∧ w.allowFile.get? entry.senderId ≠ none) :
    SoundWorld (w.writePairings w.clock pending records) := by
  have hlater : Later w (w.writePairings w.clock pending records) :=
    ⟨le_rfl, fun _ he => he, fun _ ha => ha⟩
  have hold : ∀ {record}, record ∈ w.log → record ∈ (w.writePairings w.clock pending records).log :=
    fun hr => mem_append_left _ (mem_append_left _ hr)
  have hevicted : ∀ {entry}, entry ∈ evictedBy w.clock pending →
      .evicted entry ∈ (w.writePairings w.clock pending records).log :=
    fun he => mem_append_left _ (mem_append_right _ (mem_map_of_mem he))
  have hwritten : ∀ {code entry}, pending.get? code = some entry → w.clock < entry.expiresAt →
      (w.writePairings w.clock pending records).pairingFile.get? code = some entry ∨
        Gone (w.writePairings w.clock pending records) entry :=
    fun hget hlive => (get?_writtenPairings hlisted.nodup hget hlive).imp_right
      fun he => .inr (hevicted he)
  refine
    { h with
      file := ⟨nodup_keys_writtenPairings hlisted.nodup, fun code entry he => ?_⟩
      processes := fun pid process hp => (h.processes pid process hp).mono hlater
      reported := fun entry he hlive => ?_
      approved := fun code entry he => ?_
      allowed := fun sender allow ha => ?_ }
  · have hmem := mem_writtenPairings (Assoc.mem_of_get? he)
    exact hlisted.good code entry (Assoc.get?_of_mem hlisted.nodup hmem)
  · rcases mem_append.mp he with he | he
    · rcases mem_append.mp he with he | he
      · rcases h.reported entry he hlive with ⟨hissued, hfile⟩ | hg
        · rcases hkeeps _ _ hfile hlive with hpending | happ
          · exact (hwritten hpending hlive).imp_left fun hf => ⟨hissued, hf⟩
          · exact .inr (.inl ⟨_, mem_append_right _ happ⟩)
        · exact .inr (hg.imp (fun ⟨code, hc⟩ => ⟨code, hold hc⟩) hold)
      · simp at he
    · obtain ⟨hissued, hpending⟩ := hreported entry he
      exact (hwritten hpending hlive).imp_left fun hf => ⟨hissued, hf⟩
  · rcases mem_append.mp he with he | he
    · rcases mem_append.mp he with he | he
      · exact h.approved code entry he
      · simp at he
    · exact happroved code entry he
  · obtain ⟨hpos, entry, he, hs, hlog⟩ := h.allowed sender allow ha
    exact ⟨hpos, entry, he, hs, hold hlog⟩

/-- The allowlist is written, with a sender whose code was made for it. -/
theorem SoundWorld.admit {now : ℚ} (h : SoundWorld w) (hnow : 0 ≤ now) (hissued : entry ∈ w.issued)
    (hcode : entry.code = code) :
    SoundWorld { w with
      allowFile := sortKeys (w.allowFile.set entry.senderId ⟨entry.senderName, now⟩)
      log := w.log ++ [.admitted code entry] } := by
  have hnodup := Assoc.nodup_keys_set h.allowKeys entry.senderId ⟨entry.senderName, now⟩
  have hallowed : ∀ sender, w.allowFile.get? sender ≠ none →
      (sortKeys (w.allowFile.set entry.senderId ⟨entry.senderName, now⟩)).get? sender ≠ none := by
    intro sender hs
    rw [get?_sortKeys hnodup, Assoc.get?_set]
    split
    · simp
    · exact hs
  have hlater : Later w { w with
      allowFile := sortKeys (w.allowFile.set entry.senderId ⟨entry.senderName, now⟩)
      log := w.log ++ [.admitted code entry] } := ⟨le_rfl, fun _ he => he, hallowed⟩
  refine
    { h with
      file := h.file.mono hlater
      allowKeys := nodup_keys_sortKeys hnodup
      processes := fun pid process hp => (h.processes pid process hp).mono hlater
      reported := fun entry' he hlive => ?_
      approved := fun code' entry' he => ?_
      allowed := fun sender allow ha => ?_ }
  · refine (h.reported entry' (by simpa using he) hlive).imp_right fun hg => ?_
    exact hg.imp (fun ⟨code', hc⟩ => ⟨code', mem_append_left _ hc⟩) (mem_append_left _)
  · exact (h.approved code' entry' (by simpa using he)).imp_right (hallowed _)
  · rw [get?_sortKeys hnodup, Assoc.get?_set] at ha
    split at ha
    · next hs =>
      cases ha
      exact ⟨hnow, entry, hissued, hs.symm, mem_append_right _ (mem_singleton.mpr (by rw [hcode]))⟩
    · obtain ⟨hpos, entry', he, hs, hlog⟩ := h.allowed sender allow ha
      exact ⟨hpos, entry', he, hs, mem_append_left _ hlog⟩

/-! ### Runs -/

/-- The process writes a file that has changed since it read it. -/
def Careless (w : World) : Event → Bool
  | .resume pid _ =>
    match w.processes.get? pid with
    | some (.issuing base _ _) | some (.closing base _ _ _) | some (.rejecting base _) =>
      base ≠ w.pairingFile
    | some (.admitting _ _ _ _ allowBase _) => allowBase ≠ w.allowFile
    | _ => false
  | _ => false

def Careful (config : Config) : World → List Event → Prop
  | _, [] => True
  | w, event :: events =>
    Careless w event = false ∧
      match step config w event with
      | none => True
      | some w' => Careful config w' events

instance decidableCareful (config : Config) : ∀ (w : World) (events : List Event),
    Decidable (Careful config w events)
  | _, [] => .isTrue trivial
  | w, event :: events =>
    have : Decidable (match step config w event with
        | none => True
        | some w' => Careful config w' events) :=
      match step config w event with
      | none => .isTrue trivial
      | some w' => decidableCareful config w' events
    inferInstanceAs (Decidable (_ ∧ _))

theorem HeldWithout.issued (h : HeldWithout w base pending code entry) :
    entry.code = code ∧ entry ∈ w.issued := by
  obtain ⟨full, -, hheld, hfull, -⟩ := h
  exact hheld.good code entry hfull

theorem Listed.erase (h : Listed w pending) (code : String) : Listed w (pending.erase code) := by
  refine ⟨Assoc.nodup_keys_erase h.nodup code, fun code' entry he => ?_⟩
  rw [Assoc.get?_erase] at he
  split at he
  · cases he
  · exact h.good code' entry he

theorem SoundWorld.resume (h : SoundWorld w) (hprocess : SoundProcess w process)
    (hp : w.processes.get? pid = some process)
    (hcareful : Careless w (.resume pid w.clock) = false) :
    SoundWorld (w.resume pid w.clock process) := by
  cases process with
  | issuing base pending entry =>
    obtain ⟨hheld, hget⟩ := hprocess
    simp only [Careless, hp, ne_eq, decide_not, Bool.not_eq_false', decide_eq_true_eq] at hcareful
    subst hcareful
    refine (h.writePairings hheld.toListed (fun code e he hlive => .inl (hheld.carries code e he hlive))
      (fun e he => ?_) fun code e he => by simp at he).end
    rw [mem_singleton] at he
    cases he
    exact ⟨(hheld.good _ _ hget).2, hget⟩
  | approving base pending code entry =>
    obtain ⟨hheld, hget, hbase⟩ := hprocess
    exact h.goto ⟨⟨pending, rfl, hheld, hget, hbase⟩, w.clock, h.clock, rfl⟩
  | admitting base pending code entry allowBase allowlist =>
    obtain ⟨hheld, now, hnow, rfl⟩ := hprocess
    simp only [Careless, hp, ne_eq, decide_not, Bool.not_eq_false', decide_eq_true_eq] at hcareful
    subst hcareful
    obtain ⟨hcode, hissued⟩ := hheld.issued
    have hadmit := h.admit hnow hissued hcode
    have hnodup := Assoc.nodup_keys_set h.allowKeys entry.senderId ⟨entry.senderName, now⟩
    refine @SoundWorld.goto _ (.closing base pending code entry) pid hadmit ⟨?_, ?_⟩
    · exact hheld.mono ⟨le_rfl, fun _ he => he, fun sender hs => by
        rw [get?_sortKeys hnodup, Assoc.get?_set]
        split
        · simp
        · exact hs⟩
    · simp only
      rw [get?_sortKeys hnodup, Assoc.get?_set_self]
      simp
  | closing base pending code entry =>
    obtain ⟨⟨full, rfl, hheld, hfull, hbase⟩, hallowed⟩ := hprocess
    simp only [Careless, hp, ne_eq, decide_not, Bool.not_eq_false', decide_eq_true_eq] at hcareful
    subst hcareful
    refine (h.writePairings (hheld.toListed.erase code) (fun code' e he hlive => ?_)
      (fun e he => by simp at he) fun code' e he => ?_).end
    · rw [Assoc.get?_erase]
      split
      · next hc =>
        subst hc
        rw [he] at hbase
        cases hbase
        exact .inr (mem_singleton.mpr rfl)
      · exact .inl (hheld.carries code' e he hlive)
    · rw [mem_singleton] at he
      cases he
      exact ⟨(hheld.good _ _ hfull).2, hallowed⟩
  | rejecting base pending =>
    have hheld : Held w base pending := hprocess
    simp only [Careless, hp, ne_eq, decide_not, Bool.not_eq_false', decide_eq_true_eq] at hcareful
    subst hcareful
    exact (h.writePairings hheld.toListed
      (fun code e he hlive => .inl (hheld.carries code e he hlive))
      (fun e he => by simp at he) fun code e he => by simp at he).end

/-- **The step.**  A step that is not careless keeps what holds of a world. -/
theorem SoundWorld.step {event : Event} (h : SoundWorld w) (hcareful : Careless w event = false)
    (hstep : step config w event = some w') : SoundWorld w' := by
  cases event with
  | contact pid message listed checked created expiring draws =>
    simp only [Gateway.step] at hstep
    split at hstep
    · cases hstep
    · next hok =>
      simp only [not_or, not_not] at hok
      obtain ⟨-, ⟨hlisted, hchecked, hcreated, hexpiring⟩, hdraws⟩ := hok
      cases hstep
      have hle := hchecked.trans (hcreated.trans hexpiring)
      exact (h.tick (hlisted.trans hle)).contact hle
        (fun entry he => (h.issued entry he).mono hlisted)
        (h.clock.trans (hlisted.trans (hchecked.trans hcreated))) hexpiring hdraws
  | approve pid code listed checked =>
    simp only [Gateway.step] at hstep
    split at hstep
    · cases hstep
    · next hok =>
      simp only [not_or, not_not] at hok
      obtain ⟨-, hlisted, hchecked⟩ := hok
      cases hstep
      exact (h.tick (hlisted.trans hchecked)).approve hchecked
        (fun entry he => (h.issued entry he).mono hlisted) le_rfl
  | resume pid now =>
    simp only [Gateway.step] at hstep
    split at hstep
    · cases hstep
    · next process hp =>
      split at hstep
      · next hle =>
        cases hstep
        have hlater : Later w { w with clock := now } := ⟨hle, fun _ he => he, fun _ ha => ha⟩
        exact (h.tick hle).resume ((h.processes pid process hp).mono hlater) hp hcareful
      · cases hstep

theorem SoundWorld.run {events : List Event} (h : SoundWorld w)
    (hcareful : Careful config w events) (hrun : run config w events = some w') :
    SoundWorld w' := by
  induction events generalizing w with
  | nil =>
    cases hrun
    exact h
  | cons event events ih =>
    obtain ⟨hevent, hevents⟩ := hcareful
    obtain ⟨w₁, hstep, hrun⟩ := Option.bind_eq_some_iff.mp hrun
    rw [hstep] at hevents
    exact ih (h.step hevent hstep) hevents hrun

theorem sound_start (hclock : 0 ≤ clock) : SoundWorld (World.start clock) where
  clock := hclock
  file := ⟨nodup_nil, fun _ _ he => nomatch he⟩
  allowKeys := nodup_nil
  issued := fun _ he => nomatch he
  processes := fun _ _ hp => nomatch hp
  reported := fun _ he => nomatch he
  approved := fun _ _ he => nomatch he
  allowed := fun _ _ ha => nomatch ha

/-- The code is approvable: `approve` of it, at a time before it expires and not disturbed, returns
its sender. -/
def Approvable (config : Config) (w : World) (entry : PairingEntry) : Prop :=
  ∀ pid now, w.processes.get? pid = none → w.clock ≤ now → now < entry.expiresAt →
    ∃ w', Gateway.run config w [.approve pid entry.code now now, .resume pid now, .resume pid now,
      .resume pid now] = some w' ∧ .approved entry.code entry ∈ w'.log

theorem SoundWorld.approvable (h : SoundWorld w)
    (hupper : ∀ code, wellFormedCode code = true → config.upper code = code)
    (hissued : entry ∈ w.issued) (hfile : w.pairingFile.get? entry.code = some entry) :
    Approvable config w entry := by
  intro pid now hidle hle hlive
  have hwell := h.issued entry hissued
  have hnormal : config.upper (strip entry.code) = entry.code := by
    rw [strip_code hwell.code, hupper _ hwell.code]
  have hpending : (pendingOf now w.pairingFile).get? entry.code = some entry :=
    get?_pendingOf h.file.nodup hfile (hwell.valid hle hlive)
  have happrove : Gateway.step config w (.approve pid entry.code now now) =
      some ({ w with clock := now }.goto pid
        (.approving w.pairingFile (pendingOf now w.pairingFile) entry.code entry)) := by
    rw [Gateway.step, if_neg (by simp [hidle, hle]), World.approve]
    simp only [hnormal, hpending, if_neg hlive.not_ge]
  have hresume : ∀ {v : World} {process : Process}, v.clock = now →
      v.processes.get? pid = some process →
      Gateway.step config v (.resume pid now) = some ({ v with clock := now }.resume pid now process) := by
    intro v process hclock hp
    simp only [Gateway.step, hp, hclock, le_refl, if_true]
  rw [Gateway.run, happrove, Option.bind_some, Gateway.run,
    hresume rfl (Assoc.get?_set_self ..), Option.bind_some, Gateway.run,
    hresume rfl (Assoc.get?_set_self ..), Option.bind_some, Gateway.run,
    hresume rfl (Assoc.get?_set_self ..), Option.bind_some, Gateway.run]
  exact ⟨_, rfl, mem_append_right _ (mem_singleton.mpr rfl)⟩

/-- **Pairing survives several processes.**  In every run from an empty state directory in which no
process writes a file that has changed since it read it: a sender for whom `approve` returned is
allowed; a sender is allowed only if configured, or approved through a code made for that sender;
and a reported code is approvable until it expires, is approved, or is dropped for the cap. -/
theorem pairing_survives (config : Config)
    (hupper : ∀ code, wellFormedCode code = true → config.upper code = code) (clock : ℚ)
    (hclock : 0 ≤ clock) (events : List Event) (w : World)
    (hcareful : Careful config (World.start clock) events)
    (hrun : Gateway.run config (World.start clock) events = some w) :
    (∀ code entry, .approved code entry ∈ w.log → isAllowed config w.allowFile entry.senderId) ∧
    (∀ sender, isAllowed config w.allowFile sender →
      sender ∈ config.configuredUsers ∨
      ∃ entry ∈ w.issued, entry.senderId = sender ∧ .admitted entry.code entry ∈ w.log) ∧
    (∀ entry, .reported entry ∈ w.log → w.clock < entry.expiresAt →
      Approvable config w entry ∨ Gone w entry) := by
  have hsound := (sound_start hclock).run hcareful hrun
  refine ⟨fun code entry he => ?_, fun sender hs => ?_, fun entry he hlive => ?_⟩
  · obtain ⟨hissued, hallow⟩ := hsound.approved code entry he
    obtain ⟨allow, ha⟩ := Option.ne_none_iff_exists'.mp hallow
    have hsender := (hsound.issued entry hissued).sender
    have hget : (approvedUsers w.allowFile).get? entry.senderId = some allow :=
      Assoc.get?_of_mem (hsound.allowKeys.sublist (filter_sublist.map _))
        (mem_filter.mpr ⟨Assoc.mem_of_get? ha, by
          simp [hsender, (hsound.allowed _ _ ha).1]⟩)
    simp [isAllowed, hsender, hget]
  · simp only [isAllowed] at hs
    split at hs
    · cases hs
    · split at hs
      · next hconfigured => exact .inl hconfigured
      · obtain ⟨allow, ha⟩ := Option.isSome_iff_exists.mp hs
        have hmem := mem_of_mem_filter (Assoc.mem_of_get? ha)
        exact .inr (hsound.allowed sender allow (Assoc.get?_of_mem hsound.allowKeys hmem)).2
  · rcases hsound.reported entry he hlive with ⟨hissued, hfile⟩ | hg
    · exact .inl (hsound.approvable hupper hissued hfile)
    · exact .inr hg

end

/-! ### Two runs -/

/-- A gateway with pairing and no configured user. -/
def pairingConfig : Config where
  allowedUsers := []
  pairingEnabled := true
  codeTtlSeconds := 3600
  upper := fun text => String.ofList (text.toList.map Char.toUpper)

theorem upper_code (code : String) (h : wellFormedCode code = true) :
    pairingConfig.upper code = code := by
  simp only [wellFormedCode, Bool.and_eq_true, all_eq_true, decide_eq_true_eq] at h
  have hall : CODE_ALPHABET.all (fun c => c.toUpper == c) = true := by decide
  have hmap : code.toList.map Char.toUpper = code.toList := by
    refine (map_congr_left (g := id) fun c hc => ?_).trans (map_id _)
    exact beq_iff_eq.mp (all_eq_true.mp hall c (h.2 c hc))
  simp only [pairingConfig, hmap, String.ofList_toList]

/-- A message of a sender. -/
def sentBy (sender : String) : InboundMessage := ⟨sender, "New Person", "telegram", "42"⟩

/-- What the pairing file holds of a code of `sentBy`. -/
def codeOf (sender code : String) (created : ℚ) : PairingEntry :=
  ⟨code, sender, "New Person", "telegram", "42", created, created + 3600⟩

/-- Sender 1 gets a code, and an operator approves it. -/
def paired : List Event :=
  [.contact 0 (sentBy "1") 1 1 1 1 ["AAAAAA"], .resume 0 1, .approve 1 " aaaaaa" 2 2, .resume 1 2,
    .resume 1 2, .resume 1 2]

theorem pairing_survives_paired :
    ∃ w, Gateway.run pairingConfig (World.start 0) paired = some w ∧
      isAllowed pairingConfig w.allowFile "1" := by
  obtain ⟨w, hw⟩ := Option.isSome_iff_exists.mp
    (show (Gateway.run pairingConfig (World.start 0) paired).isSome from by decide +kernel)
  have h := pairing_survives pairingConfig upper_code 0 le_rfl paired w (by decide +kernel) hw
  refine ⟨w, hw, h.1 "AAAAAA" (codeOf "1" "AAAAAA" 1) ?_⟩
  have hlog : (Gateway.run pairingConfig (World.start 0) paired).any (fun w =>
    decide (.approved "AAAAAA" (codeOf "1" "AAAAAA" 1) ∈ w.log)) = true := by decide +kernel
  rw [hw] at hlog
  exact of_decide_eq_true hlog

/-- Senders 1 and 2 have codes; two operators approve them, and both read the allowlist before
either writes it. -/
def crossing : List Event :=
  [.contact 0 (sentBy "1") 1 1 1 1 ["AAAAAA"], .resume 0 1,
    .contact 0 (sentBy "2") 2 2 2 2 ["BBBBBB"], .resume 0 2,
    .approve 1 "AAAAAA" 3 3, .approve 2 "BBBBBB" 3 3, .resume 1 3, .resume 2 3, .resume 1 3,
    .resume 2 3, .resume 1 3, .resume 2 3]

/-- Sender 2 gets its code while an operator approves sender 1's. -/
def overtaken : List Event :=
  [.contact 0 (sentBy "1") 1 1 1 1 ["AAAAAA"], .resume 0 1, .approve 1 "AAAAAA" 2 2,
    .contact 0 (sentBy "2") 3 3 3 3 ["BBBBBB"], .resume 0 3, .resume 1 4, .resume 1 4, .resume 1 4]

/-- **Approvals and codes are lost.**  Of two approvals that cross, the first returned and its
sender is not allowed.  A code reported while another was being approved is neither approvable a
moment later, nor approved, nor dropped for the cap. -/
theorem pairing_lost :
    (Gateway.run pairingConfig (World.start 0) crossing).any (fun w =>
      decide (.approved "AAAAAA" (codeOf "1" "AAAAAA" 1) ∈ w.log) &&
        !isAllowed pairingConfig w.allowFile "1") = true ∧
    (Gateway.run pairingConfig (World.start 0) overtaken).any (fun w =>
      decide (.reported (codeOf "2" "BBBBBB" 3) ∈ w.log) && decide (w.clock < 3603) &&
        decide (.approved "BBBBBB" (codeOf "2" "BBBBBB" 3) ∉ w.log) &&
        decide (.evicted (codeOf "2" "BBBBBB" 3) ∉ w.log) &&
        !(Gateway.run pairingConfig w [.approve 2 "BBBBBB" 5 5, .resume 2 5, .resume 2 5,
          .resume 2 5]).any fun w' =>
            decide (.approved "BBBBBB" (codeOf "2" "BBBBBB" 3) ∈ w'.log)) = true := by
  constructor <;> decide +kernel

/-! ### Who is let in -/

/-- The code was made for a message of its sender. -/
def Made (config : Config) (events : List Event) (entry : PairingEntry) : Prop :=
  config.pairingEnabled = true ∧
  ∃ pid message listed checked created expiring draws, ∃ code ∈ draws,
    .contact pid message listed checked created expiring draws ∈ events ∧
    entry = newEntry config message code created expiring

/-- After it was made, and before it expired, the code was entered for approval. -/
def Entered (config : Config) (events : List Event) (entry : PairingEntry) : Prop :=
  ∃ before after pid text listed checked,
    events = before ++ .approve pid text listed checked :: after ∧ Made config before entry ∧
    config.upper (strip text) = entry.code ∧ checked < entry.expiresAt

/-- A code for the sender was. -/
def LetIn (config : Config) (events : List Event) (sender : String) : Prop :=
  ∃ entry, entry.senderId = sender ∧ Entered config events entry

section

variable {config : Config} {events more : List Event} {entry : PairingEntry} {w w' : World}
  {process : Process} {pid : Nat} {pending : Pairings} {event : Event} {sender : String}

def TracedProcess (config : Config) (events : List Event) : Process → Prop
  | .issuing _ pending _ => ∀ p ∈ pending, Made config events p.2
  | .approving _ pending _ entry =>
    (∀ p ∈ pending, Made config events p.2) ∧ Entered config events entry
  | .admitting _ pending _ _ _ allowlist =>
    (∀ p ∈ pending, Made config events p.2) ∧ ∀ sender ∈ allowlist.keys, LetIn config events sender
  | .closing _ pending _ _ => ∀ p ∈ pending, Made config events p.2
  | .rejecting _ pending => ∀ p ∈ pending, Made config events p.2

/-- Whatever is in a file or in hand was made, and who is let in had a code entered. -/
structure Traced (config : Config) (events : List Event) (w : World) : Prop where
  file : ∀ p ∈ w.pairingFile, Made config events p.2
  allowed : ∀ sender ∈ w.allowFile.keys, LetIn config events sender
  processes : ∀ pid process, w.processes.get? pid = some process →
    TracedProcess config events process

theorem Made.mono (h : Made config events entry) : Made config (events ++ more) entry := by
  obtain ⟨hon, pid, message, listed, checked, created, expiring, draws, code, hcode, hmem, he⟩ := h
  exact ⟨hon, pid, message, listed, checked, created, expiring, draws, code, hcode,
    mem_append_left _ hmem, he⟩

theorem Entered.mono (h : Entered config events entry) : Entered config (events ++ more) entry := by
  obtain ⟨before, after, pid, text, listed, checked, rfl, hentered⟩ := h
  exact ⟨before, after ++ more, pid, text, listed, checked, by simp, hentered⟩

theorem LetIn.mono (h : LetIn config events sender) : LetIn config (events ++ more) sender :=
  h.imp fun _ he => he.imp_right Entered.mono

theorem TracedProcess.mono (h : TracedProcess config events process) :
    TracedProcess config (events ++ more) process := by
  cases process with
  | issuing | closing | rejecting => exact fun p hp => (h p hp).mono
  | approving => exact ⟨fun p hp => (h.1 p hp).mono, h.2.mono⟩
  | admitting => exact ⟨fun p hp => (h.1 p hp).mono, fun sender hs => (h.2 sender hs).mono⟩

theorem Traced.mono (h : Traced config events w) : Traced config (events ++ more) w where
  file := fun p hp => (h.file p hp).mono
  allowed := fun sender hs => (h.allowed sender hs).mono
  processes := fun pid process hp => (h.processes pid process hp).mono

theorem Traced.goto (h : Traced config events w) (hprocess : TracedProcess config events process) :
    Traced config events (w.goto pid process) where
  file := h.file
  allowed := h.allowed
  processes := by
    intro pid' process' hp
    simp only [World.goto, Assoc.get?_set] at hp
    split at hp
    · cases hp
      exact hprocess
    · exact h.processes pid' process' hp

theorem Traced.close (h : Traced config events w) (now : ℚ) (records : List Record)
    (hpending : ∀ p ∈ pending, Made config events p.2) :
    Traced config events ((w.writePairings now pending records).end pid) where
  file := fun p hp => hpending p (mem_writtenPairings hp)
  allowed := h.allowed
  processes := by
    intro pid' process' hp
    simp only [World.end, World.writePairings, Assoc.get?_erase] at hp
    split at hp
    · cases hp
    · exact h.processes pid' process' hp

theorem Traced.contact {message : InboundMessage} {listed checked created expiring : ℚ}
    {draws : List String} (h : Traced config events w)
    (hmem : .contact pid message listed checked created expiring draws ∈ events) :
    Traced config events
      (w.contact config pid message listed checked created expiring draws) := by
  simp only [World.contact]
  split
  · exact h
  · next hon =>
    have hissue : Traced config events (w.issue config pid message
        (pendingOf listed w.pairingFile) created expiring draws) := by
      rw [World.issue]
      split
      · exact h
      · next code hcode =>
        have hmade : Made config events (newEntry config message code created expiring) :=
          ⟨by simp_all, _, _, _, _, _, _, _, code, (issueCode_spec hcode).2, hmem, rfl⟩
        exact { @Traced.goto _ _ _ (.issuing _ _ _) pid h (Assoc.forall_set
          (fun p hp => h.file p (mem_of_mem_filter hp)) hmade) with }
    split
    · split
      · exact { h with }
      · exact hissue
    · exact hissue

theorem Traced.approve {before : List Event} {text : String} {listed checked : ℚ}
    (h : Traced config events w) (hlast : events = before ++ [.approve pid text listed checked])
    (hmade : ∀ p ∈ w.pairingFile, Made config before p.2) :
    Traced config events (w.approve config pid text listed checked) := by
  have hread : ∀ p ∈ pendingOf listed w.pairingFile, Made config events p.2 :=
    fun p hp => h.file p (mem_of_mem_filter hp)
  have hreject : Traced config events (w.goto pid (.rejecting w.pairingFile
      ((pendingOf listed w.pairingFile).erase (config.upper (strip text))))) :=
    h.goto fun p hp => hread p (mem_of_mem_filter hp)
  simp only [World.approve]
  split
  · exact hreject
  · next entry hentry =>
    split
    · exact hreject
    · next hlive =>
      obtain ⟨hmem, hvalid⟩ := mem_filter.mp (Assoc.mem_of_get? hentry)
      have hcode : entry.code = config.upper (strip text) := by
        simp only [validPairing, Bool.and_eq_true, decide_eq_true_eq] at hvalid
        tauto
      exact h.goto ⟨hread, before, [], pid, text, listed, checked, hlast, hmade _ hmem, hcode.symm,
        not_le.mp hlive⟩

theorem Traced.resume {now : ℚ} (h : Traced config events w)
    (hprocess : TracedProcess config events process) :
    Traced config events (w.resume pid now process) := by
  cases process with
  | issuing | closing | rejecting => exact h.close _ _ hprocess
  | approving base pending code entry =>
    refine h.goto ⟨fun p hp => hprocess.1 p (mem_of_mem_filter hp), fun sender hs => ?_⟩
    have hold : sender = entry.senderId ∨ sender ∈ w.allowFile.keys := by
      rw [Assoc.keys_set] at hs
      split at hs
      · exact .inr hs
      · exact (mem_append.mp hs).symm.imp_left mem_singleton.mp
    rcases hold with rfl | hold
    · exact ⟨entry, rfl, hprocess.2⟩
    · exact h.allowed sender hold
  | admitting base pending code entry allowBase allowlist =>
    exact { @Traced.goto _ _ _ (.closing base pending code entry) pid h hprocess.1 with
      allowed := fun sender hs =>
        hprocess.2 sender (((sortKeys_perm allowlist).map Prod.fst).mem_iff.mp hs) }

/-- Every step keeps to what was made and entered, a careless one too. -/
theorem Traced.step (h : Traced config events w) (hstep : Gateway.step config w event = some w') :
    Traced config (events ++ [event]) w' := by
  cases event with
  | contact pid message listed checked created expiring draws =>
    simp only [Gateway.step] at hstep
    split at hstep <;> cases hstep
    exact Traced.contact { h.mono with } (mem_append_right _ (mem_singleton_self _))
  | approve pid text listed checked =>
    simp only [Gateway.step] at hstep
    split at hstep <;> cases hstep
    exact Traced.approve { h.mono with } rfl h.file
  | resume pid now =>
    simp only [Gateway.step] at hstep
    split at hstep
    · cases hstep
    · next process hp =>
      split at hstep <;> cases hstep
      exact Traced.resume { h.mono with } (h.processes pid process hp).mono

theorem Traced.run (h : Traced config events w) (hrun : Gateway.run config w more = some w') :
    Traced config (events ++ more) w' := by
  induction more generalizing events w with
  | nil =>
    cases hrun
    rw [append_nil]
    exact h
  | cons event more ih =>
    obtain ⟨w₁, hstep, hrun⟩ := Option.bind_eq_some_iff.mp hrun
    rw [append_cons]
    exact ih (h.step hstep) hrun

/-- **Nobody slips in**, whatever the processes overwrite: who is let in is configured, or was sent
a code that was entered after that, before it expired. -/
theorem allowed_entered (config : Config) (clock : ℚ) (events : List Event) (w : World)
    (hrun : Gateway.run config (World.start clock) events = some w) (sender : String)
    (hallowed : isAllowed config w.allowFile sender = true) :
    sender ∈ config.configuredUsers ∨ LetIn config events sender := by
  have hstart : Traced config [] (World.start clock) :=
    ⟨fun _ h => (nomatch h), fun _ h => (nomatch h), fun _ _ h => (nomatch h)⟩
  simp only [isAllowed] at hallowed
  split at hallowed
  · cases hallowed
  · split at hallowed
    · next hconfigured => exact .inl hconfigured
    · obtain ⟨allow, ha⟩ := Option.isSome_iff_exists.mp hallowed
      have hmem := mem_of_mem_filter (Assoc.mem_of_get? ha)
      exact .inr ((hstart.run hrun).allowed sender (mem_map_of_mem hmem))

/-- Sender 2 of the approvals that cross. -/
theorem allowed_entered_crossing : LetIn pairingConfig crossing "2" := by
  obtain ⟨w, hw⟩ := Option.isSome_iff_exists.mp
    (show (Gateway.run pairingConfig (World.start 0) crossing).isSome from by decide +kernel)
  have hallowed : (Gateway.run pairingConfig (World.start 0) crossing).any (fun w =>
    isAllowed pairingConfig w.allowFile "2") = true := by decide +kernel
  rw [hw] at hallowed
  exact (allowed_entered pairingConfig 0 crossing w hw "2" hallowed).resolve_left (by decide)

end

end KolegaCode.Gateway
