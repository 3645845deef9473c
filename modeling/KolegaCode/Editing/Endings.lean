import KolegaCode.CodexPatch.Clean
import KolegaCode.Editing.Patch

/-!
# Editing — line endings under a patch

An update is planned on the text that `read_text` returns, which has no carriage return, and what is
planned is written as it is.  `update_endings_iff` says when a file keeps its endings.
-/

namespace KolegaCode.Editing

open CodexPatch (Line LineMark PatchChunk PatchOperation Replaced applyUpdateChunks fileLines
  hadFinalNewline parseCodexPatch patchLine)
open Linked (namei toEnd toEntry toMade)
open Snapshots (Name)
open Text (countCrlf dominantEnding normalizeNewlines replaceLineFeeds)

/-! ### Endings -/

def crlf : List Char := ['\r', '\n']

def lf : List Char := ['\n']

/-- Every line break of the text is this one. -/
def AllEndings (ending text : List Char) : Prop :=
  replaceLineFeeds ending (normalizeNewlines text) = text

/-- A text whose breaks are all CRLF, or all LF, has been replaced by one with the same. -/
def SameEndings (text text' : List Char) : Prop :=
  '\n' ∈ text → ∀ ending ∈ [crlf, lf], AllEndings ending text → AllEndings ending text'

theorem allEndings_lf_iff {text : List Char} : AllEndings lf text ↔ '\r' ∉ text := by
  rw [AllEndings, lf, Text.replaceLineFeeds_self]
  constructor
  · intro h
    rw [← h]
    exact Text.not_mem_normalizeNewlines text
  · exact Text.normalizeNewlines_eq_self

theorem mem_replaceLineFeeds_crlf {cs : List Char} :
    ('\n' ∈ replaceLineFeeds crlf cs ↔ '\n' ∈ cs) ∧
      ('\n' ∈ cs → '\r' ∈ replaceLineFeeds crlf cs) := by
  have hmem : ∀ c : Char, c ∈ replaceLineFeeds crlf cs ↔
      ∃ d ∈ cs, c ∈ if d = '\n' then crlf else [d] := fun c => List.mem_flatMap
  refine ⟨?_, fun h => (hmem _).mpr ⟨'\n', h, by decide⟩⟩
  rw [hmem]
  constructor
  · rintro ⟨d, hd, hc⟩
    split at hc
    · next heq => rwa [← heq]
    · rwa [List.mem_singleton.mp hc]
  · exact fun h => ⟨'\n', h, by decide⟩

/-- Without a carriage return, breaks that are all CRLF are none. -/
theorem allEndings_crlf_iff {text : List Char} (h : '\r' ∉ text) :
    AllEndings crlf text ↔ '\n' ∉ text := by
  rw [AllEndings, Text.normalizeNewlines_eq_self h]
  constructor
  · intro heq hmem
    exact h (heq ▸ mem_replaceLineFeeds_crlf.2 hmem)
  · intro hmem
    rw [replaceLineFeeds]
    refine (List.flatMap_congr fun c hc => if_neg ?_).trans (List.flatMap_singleton' text)
    rintro rfl
    exact hmem hc

theorem sameEndings_iff {text text' : List Char}
    (htext : AllEndings crlf text ∨ AllEndings lf text) (h' : '\r' ∉ text') :
    SameEndings text text' ↔ '\r' ∉ text ∨ '\n' ∉ text' := by
  have hboth : ∀ P : List Char → Prop, (∀ ending ∈ [crlf, lf], P ending) ↔ P crlf ∧ P lf := by
    simp
  rw [SameEndings, hboth, allEndings_crlf_iff h', allEndings_lf_iff, allEndings_lf_iff]
  have hreturn : AllEndings crlf text → ('\n' ∈ text ↔ '\r' ∈ text) := by
    intro hall
    rw [AllEndings] at hall
    obtain ⟨hfeed, hret⟩ := @mem_replaceLineFeeds_crlf (normalizeNewlines text)
    rw [hall] at hfeed hret
    refine ⟨fun h => hret (hfeed.mp h), fun h => ?_⟩
    by_contra hno
    have hno' : '\n' ∉ normalizeNewlines text := fun h => hno (hfeed.mpr h)
    have hself : replaceLineFeeds crlf (normalizeNewlines text) = normalizeNewlines text := by
      rw [replaceLineFeeds]
      refine (List.flatMap_congr fun c hc => if_neg ?_).trans (List.flatMap_singleton' _)
      rintro rfl
      exact hno' hc
    rw [hself] at hall
    exact Text.not_mem_normalizeNewlines text (hall.symm ▸ h)
  by_cases hr : '\r' ∈ text
  · have hall : AllEndings crlf text := htext.resolve_right fun h => allEndings_lf_iff.mp h hr
    have hfeed := (hreturn hall).mpr hr
    rw [or_iff_right (not_not.mpr hr)]
    exact ⟨fun h => (h hfeed).1 hall, fun h _ => ⟨fun _ => h, fun hno => absurd hr hno⟩⟩
  · refine iff_of_true (fun hfeed => ⟨fun hall => absurd ((hreturn hall).mp hfeed) hr, fun _ => h'⟩)
      (.inl hr)

/-! ### An update alone -/

variable {w : Workspace} {disk disk' : Disk} {path : Path} {moveTo : Option Path}
  {chunks : List PatchChunk} {text : List Char}

variable {steps : List (Step Name)} {value : Option (List Char)} {original updated : List Char}
  {target : Path}

theorem readText_ok (h : readText disk steps = .ok text) :
    ∃ raw, disk.read steps = .ok (Utf8.encode raw) ∧ text = normalizeNewlines raw := by
  obtain ⟨bytes, hbytes, h⟩ := bind_eq_ok.mp h
  split at h
  · next raw hraw =>
    cases h
    rw [Utf8.encode_of_decode hraw] at hbytes
    exact ⟨raw, os_ok hbytes, rfl⟩
  · cases h

theorem readPath_ok (h : readPath w disk path = .ok value) :
    (value = none ∧ disk.exists (w.locate path) = false) ∨
      ∃ raw, value = some (normalizeNewlines raw) ∧
        disk.read (w.locate path) = .ok (Utf8.encode raw) := by
  unfold readPath at h
  split at h
  · split at h
    · cases hread : readText disk (w.locate path) with
      | error e =>
        rw [hread] at h
        cases h
      | ok text =>
        rw [hread] at h
        cases h
        obtain ⟨raw, hraw, rfl⟩ := readText_ok hread
        exact .inr ⟨raw, rfl, hraw⟩
    · cases h
  · next hno =>
    cases h
    exact .inl ⟨rfl, by simpa using hno⟩

theorem Plan.load_new {plan plan' : Plan} (hnew : plan.working.get? path = none)
    (h : plan.load w disk path = .ok (plan', value)) :
    readPath w disk path = .ok value ∧
      plan' = ⟨plan.initial.set path value, plan.working.set path value⟩ := by
  unfold Plan.load at h
  rw [hnew] at h
  obtain ⟨value', hread, h⟩ := bind_eq_ok.mp h
  cases h
  exact ⟨hread, rfl⟩

theorem Plan.loadExisting_ok {plan plan' : Plan} {value : List Char}
    (h : plan.loadExisting w disk path = .ok (plan', value)) :
    plan.load w disk path = .ok (plan', some value) := by
  obtain ⟨⟨loaded, value'⟩, hload, h⟩ := bind_eq_ok.mp h
  cases value' with
  | none => cases h
  | some text =>
    cases h
    exact hload

theorem mapError_ok {ε ε' α : Type} {x : Except ε α} {f : ε → ε'} {a : α}
    (h : x.mapError f = .ok a) : x = .ok a := by
  cases x with
  | error e => cases h
  | ok b => exact congrArg _ (Except.ok.inj h)

theorem planPatch_update {plan : Plan}
    (h : planPatch w disk [.update path moveTo chunks] = .ok plan) :
    ∃ original updated, readPath w disk path = .ok (some original) ∧
      applyUpdateChunks original chunks path = .ok updated ∧
      ((moveTo.getD path = path ∧
          plan = ⟨[(path, some original)], [(path, some updated)]⟩) ∨
        (moveTo.getD path ≠ path ∧ ∃ previous, readPath w disk (moveTo.getD path) = .ok previous ∧
          plan = ⟨[(path, some original), (moveTo.getD path, previous)],
            [(path, none), (moveTo.getD path, some updated)]⟩)) := by
  obtain ⟨planned, hplan, h⟩ := bind_eq_ok.mp h
  obtain ⟨-, -, h⟩ := bind_eq_ok.mp h
  cases h
  obtain ⟨plan', hop, hplan⟩ := bind_eq_ok.mp hplan
  cases hplan
  obtain ⟨⟨loaded, original⟩, hload, hop⟩ := bind_eq_ok.mp hop
  obtain ⟨updated, hupdated, hop⟩ := bind_eq_ok.mp hop
  obtain ⟨hread, rfl⟩ := Plan.load_new rfl (Plan.loadExisting_ok hload)
  refine ⟨original, updated, hread, mapError_ok hupdated, ?_⟩
  cases moveTo with
  | none =>
    cases hop
    exact .inl ⟨rfl, by simp [Plan.put, Assoc.set]⟩
  | some target =>
    obtain ⟨⟨loaded', value⟩, hload', hop⟩ := bind_eq_ok.mp hop
    cases hop
    by_cases htarget : target = path
    · subst htarget
      unfold Plan.load at hload'
      simp only [Assoc.set, Assoc.get?, if_true] at hload'
      cases hload'
      exact .inl ⟨rfl, by simp [Plan.put, Assoc.set]⟩
    · have htarget' : ¬ path = target := fun h => htarget h.symm
      obtain ⟨hprevious, rfl⟩ := Plan.load_new (by simp [Assoc.set, Assoc.get?, htarget']) hload'
      exact .inr ⟨htarget, value, hprevious, by simp [Plan.put, Assoc.set, htarget']⟩

theorem mutate_lists {plan : Plan} (h : plan.mutate w disk = .ok disk') {removed written : List Path}
    (hremoved : plan.removed = removed) (hwritten : plan.written = written) :
    ∃ gone, removed.foldlM (removePath w) disk = .ok gone ∧
      written.foldlM (plan.writePath w) gone = .ok disk' := by
  subst hremoved hwritten
  exact bind_eq_ok.mp h

theorem foldlM_one {α β : Type} {f : β → α → Except EditError β} {a : α} {b b' : β}
    (h : [a].foldlM f b = .ok b') : f b a = .ok b' := by
  obtain ⟨c, hc, h⟩ := bind_eq_ok.mp h
  cases h
  exact hc

theorem mutate_inPlace
    (h : Plan.mutate w ⟨[(path, some original)], [(path, some updated)]⟩ disk = .ok disk') :
    if updated = original then disk' = disk
    else w.writeFile disk (w.locate path) updated = .ok disk' := by
  by_cases heq : updated = original
  · rw [if_pos heq]
    have hno : Plan.changed ⟨[(path, some original)], [(path, some updated)]⟩ = [] := by
      simp [Plan.changed, Assoc.keys, Assoc.get?, heq]
    obtain ⟨gone, hgone, hwrite⟩ := @mutate_lists _ _ _ _ h [] []
      (by rw [Plan.removed, hno]; rfl) (by rw [Plan.written, hno]; rfl)
    cases hgone
    cases hwrite
    rfl
  · rw [if_neg heq]
    have heq' : ¬ original = updated := fun h => heq h.symm
    have hone : Plan.changed ⟨[(path, some original)], [(path, some updated)]⟩ = [path] := by
      simp [Plan.changed, Assoc.keys, Assoc.get?, heq']
    obtain ⟨gone, hgone, hwrite⟩ := @mutate_lists _ _ _ _ h [] [path]
      (by rw [Plan.removed, hone]; simp [Assoc.get?]) (by rw [Plan.written, hone]; simp [Assoc.get?])
    cases hgone
    have hwrite := foldlM_one hwrite
    rw [Plan.writePath, Assoc.get?, if_pos rfl] at hwrite
    exact hwrite

theorem mutate_moved {previous : Option (List Char)} (hne : target ≠ path)
    (h : Plan.mutate w ⟨[(path, some original), (target, previous)],
      [(path, none), (target, some updated)]⟩ disk = .ok disk') :
    ∃ gone, removePath w disk path = .ok gone ∧
      if previous = some updated then disk' = gone
      else w.writeFile gone (w.locate target) updated = .ok disk' := by
  have hne' : ¬ path = target := fun h => hne h.symm
  set plan : Plan := ⟨[(path, some original), (target, previous)],
    [(path, none), (target, some updated)]⟩ with hplan
  have hremoved : plan.removed = [path] := by
    by_cases heq : previous = some updated
    · simp [hplan, Plan.removed, Plan.changed, Assoc.keys, Assoc.get?, heq, hne']
    · simp [hplan, Plan.removed, Plan.changed, Assoc.keys, Assoc.get?, heq, hne']
  by_cases heq : previous = some updated
  · have hwritten : plan.written = [] := by
      simp [hplan, Plan.written, Plan.changed, Assoc.keys, Assoc.get?, heq, hne']
    obtain ⟨gone, hgone, hwrite⟩ := mutate_lists h hremoved hwritten
    cases hwrite
    exact ⟨_, foldlM_one hgone, if_pos heq ▸ rfl⟩
  · have hwritten : plan.written = [target] := by
      simp [hplan, Plan.written, Plan.changed, Assoc.keys, Assoc.get?, heq, hne']
    obtain ⟨gone, hgone, hwrite⟩ := mutate_lists h hremoved hwritten
    have hwrite := foldlM_one hwrite
    refine ⟨gone, foldlM_one hgone, ?_⟩
    rw [if_neg heq]
    have hget : (plan.working.get? target).join = some updated := by
      simp [hplan, Assoc.get?, hne']
    rwa [Plan.writePath, hget] at hwrite

theorem applyPatch_ok {patch : List Char} {ops : List PatchOperation} {summaries : List (List Char)}
    (h : applyPatch w disk patch = .ok (disk', .success summaries))
    (hp : parseCodexPatch patch = .ok ops) :
    ∃ plan, planPatch w disk ops = .ok plan ∧ plan.mutate w disk = .ok disk' := by
  obtain ⟨ops', hops, h⟩ := bind_eq_ok.mp h
  rw [hp] at hops
  cases hops
  dsimp only at h
  split at h
  · cases h
  · split at h
    · cases h
    · obtain ⟨plan, hplan, h⟩ := bind_eq_ok.mp h
      obtain ⟨out, hout, h⟩ := bind_eq_ok.mp h
      cases h
      exact ⟨plan, hplan, hout⟩

theorem read_exists {data : Snapshots.Bytes} (h : disk.read steps = .ok data) :
    disk.exists steps = true := by
  obtain ⟨f, i, hf, hget, -⟩ := Linked.read_ok h
  rw [Linked.exists, Linked.stat, hf]
  dsimp only
  rw [hget]
  rfl

theorem read_removePath {raw there : List Char}
    (hpath : disk.read (w.locate path) = .ok (Utf8.encode raw))
    (htarget : disk.read (w.locate target) = .ok (Utf8.encode there))
    (h : removePath w disk path = .ok disk') :
    (∀ text', disk'.read (w.locate target) = .ok (Utf8.encode text') →
      text' = there ∧ ¬ LeadsOver w disk (String.ofList path) (String.ofList target)) ∧
    (¬ LeadsOver w disk (String.ofList path) (String.ofList target) →
      disk'.read (w.locate target) = .ok (Utf8.encode there)) := by
  unfold removePath at h
  rw [if_pos (read_exists hpath)] at h
  obtain ⟨g, j, hg, hgdata, -⟩ := Linked.read_ok hpath
  obtain ⟨e, he, leaf, hleaf⟩ := Linked.namei_entry hg hgdata
  obtain ⟨hgone, hcontents⟩ := Linked.unlink_ok he hleaf (os_ok h)
  obtain ⟨f, i, hf, hfdata, hthere⟩ := Linked.read_ok htarget
  have hmade := Linked.namei_made (Linked.Makes.refl disk.tree) hf
  have hleads : LeadsOver w disk (String.ofList path) (String.ofList target) ↔
      e.path ∈ f.passed := by
    constructor
    · rintro ⟨e', f', he', hf', hpass⟩
      cases he.symm.trans he'
      cases hmade.symm.trans hf'
      exact hpass
    · exact fun hpass => ⟨e, f, he, hmade, hpass⟩
  have hwithout := Linked.namei_without rfl hgone hf
  rw [hleads]
  have hkept : e.path ∉ f.passed → disk'.read (w.locate target) = .ok (Utf8.encode there) := by
    intro hpass
    rw [if_neg hpass] at hwithout
    have hne : f.path ≠ e.path := fun h => hpass (h ▸ f.path_mem_passed)
    rw [Linked.read, hwithout]
    dsimp only
    rw [hgone.rest _ hne, hfdata, hcontents, hthere]
  refine ⟨fun text' hread => ?_, hkept⟩
  have hpass : e.path ∉ f.passed := by
    intro hpass
    rw [if_pos hpass] at hwithout
    obtain ⟨f', i', hf', hget, -⟩ := Linked.read_ok hread
    rw [hwithout f' hf'] at hget
    cases hget
  refine ⟨?_, hpass⟩
  rw [hkept hpass] at hread
  exact (Utf8.encode_injective (Except.ok.inj hread)).symm

/-! ### The endings of a file -/

/-- The lines of the text are those of the other with the regions of the chunks replaced. -/
def Updated (chunks : List PatchChunk) (text text' : List Char) : Prop :=
  ∃ lines, Replaced patchLine chunks (fileLines text) lines ∧
    normalizeNewlines text' = ['\n'].intercalate lines ++
      if hadFinalNewline text then ['\n'] else []

/-- The file of the target has this text already. -/
def HasText (w : Workspace) (disk : Disk) (target : Path) (updated : List Char) : Prop :=
  ∃ there, disk.read (w.locate target) = .ok (Utf8.encode there) ∧
    normalizeNewlines there = updated

/-- Where the target has the text already, its file has the endings and is not the one that goes;
where it is written, there are no endings to keep or none are left. -/
structure EndingsKept (w : Workspace) (disk : Disk) (path target : Path)
    (text updated : List Char) : Prop where
  unwritten : HasText w disk target updated → target = path ∨
    ¬ LeadsOver w disk (String.ofList path) (String.ofList target) ∧
      ∀ there, disk.read (w.locate target) = .ok (Utf8.encode there) → SameEndings text there
  written : ¬ HasText w disk target updated → '\r' ∉ text ∨ '\n' ∉ updated

theorem SameEndings.refl (text : List Char) : SameEndings text text := fun _ _ _ h => h

theorem written_iff (htext : AllEndings crlf text ∨ AllEndings lf text) (hclean : '\r' ∉ updated)
    (hlines : Updated chunks text updated) (hno : ¬ HasText w disk target updated)
    (hread : disk'.read (w.locate target) = .ok (Utf8.encode updated)) :
    (∃ text', disk'.read (w.locate target) = .ok (Utf8.encode text') ∧ SameEndings text text' ∧
      Updated chunks text text') ↔ EndingsKept w disk path target text updated := by
  have hsame := sameEndings_iff htext hclean
  constructor
  · rintro ⟨text', hread', hendings, -⟩
    rw [hread] at hread'
    obtain rfl := Utf8.encode_injective (Except.ok.inj hread')
    exact ⟨fun h => absurd h hno, fun _ => hsame.mp hendings⟩
  · exact fun hkept => ⟨updated, hread, hsame.mpr (hkept.written hno), hlines⟩

/-- **Line endings under an update.**  A file whose line breaks are all CRLF, or all LF, keeps them
through an update exactly where it has no carriage return, or no line break is left, or nothing is
written; then the other lines are as they were. -/
theorem update_endings_iff {patch updated : List Char} {summaries : List (List Char)}
    (h : applyPatch w disk patch = .ok (disk', .success summaries))
    (hp : parseCodexPatch patch = .ok [.update path moveTo chunks])
    (hread : disk.read (w.locate path) = .ok (Utf8.encode text))
    (htext : AllEndings crlf text ∨ AllEndings lf text)
    (hupdated : applyUpdateChunks (normalizeNewlines text) chunks path = .ok updated) :
    (∃ text', disk'.read (w.locate (moveTo.getD path)) = .ok (Utf8.encode text') ∧
      SameEndings text text' ∧ Updated chunks text text') ↔
      EndingsKept w disk path (moveTo.getD path) text updated := by
  obtain ⟨plan, hplan, hmutate⟩ := applyPatch_ok h hp
  obtain ⟨original, updated', horiginal, hup, hshape⟩ := planPatch_update hplan
  -- the plan's text is that of the file, and what is planned has no carriage return
  have hraw : original = normalizeNewlines text := by
    rcases readPath_ok horiginal with ⟨hnone, -⟩ | ⟨raw, hsome, hraw⟩
    · cases hnone
    · rw [hread] at hraw
      obtain rfl := Utf8.encode_injective (Except.ok.inj hraw)
      exact Option.some.inj hsome
  subst hraw
  cases hup.symm.trans hupdated
  have hcontent := Text.not_mem_normalizeNewlines text
  have hchunks : CodexPatch.CleanChunks chunks :=
    CodexPatch.parseCodexPatch_clean hp _ List.mem_cons_self
  obtain ⟨hclean, lines, hreplaced, hout⟩ :=
    CodexPatch.applyUpdateChunks_clean hcontent hchunks hupdated
  have hself := Text.normalizeNewlines_eq_self hcontent
  have hfile : fileLines (normalizeNewlines text) = fileLines text := by
    rw [fileLines, fileLines, hadFinalNewline, hadFinalNewline, hself]
  have hfinal : hadFinalNewline (normalizeNewlines text) = hadFinalNewline text := by
    rw [hadFinalNewline, hadFinalNewline, hself]
  rw [hfile] at hreplaced
  rw [hfinal] at hout
  have hlines : ∀ text', normalizeNewlines text' = updated → Updated chunks text text' :=
    fun text' h => ⟨lines, hreplaced, h.trans hout⟩
  have hlinesUpdated := hlines updated (Text.normalizeNewlines_eq_self hclean)
  rcases hshape with ⟨htarget, rfl⟩ | ⟨hne, previous, hprevious, rfl⟩
  · rw [htarget]
    have hhas : HasText w disk path updated ↔ updated = normalizeNewlines text := by
      constructor
      · rintro ⟨there, hthere, rfl⟩
        rw [hread] at hthere
        rw [Utf8.encode_injective (Except.ok.inj hthere)]
      · exact fun heq => ⟨text, hread, heq.symm⟩
    have hresult := mutate_inPlace hmutate
    by_cases heq : updated = normalizeNewlines text
    · rw [if_pos heq] at hresult
      subst hresult
      refine iff_of_true ⟨text, hread, .refl text, hlines text heq.symm⟩
        ⟨fun _ => .inl rfl, fun hno => absurd (hhas.mpr heq) hno⟩
    · rw [if_neg heq] at hresult
      exact written_iff htext hclean hlinesUpdated (fun hhas' => heq (hhas.mp hhas'))
        (read_of_writeFile hresult)
  · obtain ⟨gone, hgone, hresult⟩ := mutate_moved hne hmutate
    have hhas : HasText w disk (moveTo.getD path) updated ↔ previous = some updated := by
      rcases readPath_ok hprevious with ⟨rfl, hmissing⟩ | ⟨raw, rfl, hraw⟩
      · refine iff_of_false ?_ (fun h => by cases h)
        rintro ⟨there, hthere, -⟩
        rw [read_exists hthere] at hmissing
        cases hmissing
      · constructor
        · rintro ⟨there, hthere, rfl⟩
          rw [hraw] at hthere
          rw [Utf8.encode_injective (Except.ok.inj hthere)]
        · exact fun heq => ⟨raw, hraw, Option.some.inj heq⟩
    by_cases heq : previous = some updated
    · rw [if_pos heq] at hresult
      subst hresult
      obtain ⟨there, hthere, hnormal⟩ := hhas.mpr heq
      obtain ⟨honly, hkept⟩ := read_removePath hread hthere hgone
      constructor
      · rintro ⟨text', hread', hendings, -⟩
        obtain ⟨rfl, hleads⟩ := honly text' hread'
        refine ⟨fun _ => .inr ⟨hleads, fun there' hthere' => ?_⟩,
          fun hno => absurd (hhas.mpr heq) hno⟩
        rw [hthere] at hthere'
        rwa [← Utf8.encode_injective (Except.ok.inj hthere')]
      · intro hkeep
        obtain ⟨hleads, hendings⟩ := (hkeep.unwritten (hhas.mpr heq)).resolve_left hne
        exact ⟨there, hkept hleads, hendings there hthere, hlines there hnormal⟩
    · rw [if_neg heq] at hresult
      exact written_iff htext hclean hlinesUpdated (fun hhas' => heq (hhas.mp hhas'))
        (read_of_writeFile hresult)

/-- A patch that replaces the first of two lines. -/
def replaceX : List Char :=
  "*** Begin Patch\n*** Update File: a\n-x\n+z\n*** End Patch".toList

theorem update_keeps_lf : ∃ disk' text',
    (applyPatch ⟨[], []⟩ (oneFile "a" (Utf8.encode "x\ny\n".toList)) replaceX).map Prod.fst =
      .ok disk' ∧ disk'.read (stepsOf "a") = .ok (Utf8.encode text') ∧
    SameEndings "x\ny\n".toList text' := by
  have hrun : (applyPatch ⟨[], []⟩ (oneFile "a" (Utf8.encode "x\ny\n".toList)) replaceX).map
      Prod.snd = .ok (.success ["M a".toList]) := by decide +kernel
  cases h : applyPatch ⟨[], []⟩ (oneFile "a" (Utf8.encode "x\ny\n".toList)) replaceX with
  | error e =>
    rw [h] at hrun
    cases hrun
  | ok r =>
    obtain ⟨disk', answer⟩ := r
    rw [h] at hrun
    have hanswer : answer = .success ["M a".toList] := Except.ok.inj hrun
    rw [hanswer] at h
    obtain ⟨text', hread, hsame, -⟩ := (@update_endings_iff _ _ _ "a".toList none
      [⟨none, [(.remove, "x".toList), (.add, "z".toList)], false⟩] "x\ny\n".toList replaceX
      "z\ny\n".toList _ h (by decide +kernel) (by decide +kernel)
      (.inr (allEndings_lf_iff.mpr (by decide))) (by decide)).mpr
        ⟨fun _ => .inl rfl, fun _ => .inl (by decide)⟩
    exact ⟨disk', text', rfl, hread, hsame⟩

/-- **A CRLF file is written with line feeds.** -/
theorem update_loses_crlf :
    (applyPatch ⟨[], []⟩ (oneFile "a" (Utf8.encode "x\r\ny\r\n".toList)) replaceX).map
        (fun r => (r.2, r.1.read (stepsOf "a"))) =
      .ok (.success ["M a".toList], .ok (Utf8.encode "z\ny\n".toList)) ∧
    AllEndings crlf "x\r\ny\r\n".toList ∧ ¬ AllEndings crlf "z\ny\n".toList := by
  refine ⟨by decide +kernel, by unfold AllEndings; decide, by unfold AllEndings; decide⟩

end KolegaCode.Editing
