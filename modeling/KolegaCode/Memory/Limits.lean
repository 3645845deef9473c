import KolegaCode.Memory.Scans

/-!
# Memory — the limits over a run

The write path checks the size of the file, the number of files and the total size before it
writes.  It does not count the directories that a nested reference makes, which a deletion leaves
behind, while the scan does: after enough of them every later call raises
(`scan_raises_for_ever`).  A `Careful` run never brings the directories over 99.
-/

namespace KolegaCode.Memory

open List

variable {u : Unicode} {root : Root} {disk : Disk}

/-! ### References -/

theorem casefold_ofList_append (u : Unicode) (front back : List Char) :
    casefold u (String.ofList (front ++ back)) =
      casefold u (String.ofList front) ++ casefold u (String.ofList back) := by
  simp only [casefold, String.toList_ofList, flatMap_append]

theorem suffix_isSuffix (name : List Char) : suffix name <:+ name := by
  unfold suffix
  dsimp only
  split
  · exact drop_suffix _ name
  · exact nil_suffix

variable {ref part last content : String} {parts rest base used : List String} {root' : Root}

theorem isMarkdown_of_reference (h : reference u ref = .ok parts) :
    isMarkdown u (parts.getLast?.getD "") := by
  unfold reference at h
  dsimp only at h
  split at h
  · cases h
  · split at h
    · cases h
    · split at h
      · cases h
      · split at h
        · cases h
        · next hmd =>
          split at h
          · cases h
          · cases h
            have hfold := not_not.mp (not_or.mp hmd).2
            obtain ⟨front, hfront⟩ := suffix_isSuffix ((pureParts ref).getLast?.getD "").toList
            rw [isMarkdown, isSuffixOf_iff_suffix, ← hfold]
            refine ⟨casefold u (String.ofList front), ?_⟩
            rw [← casefold_ofList_append, hfront, String.ofList_toList]

theorem parts_ne_nil (h : reference u ref = .ok parts) : parts ≠ [] := by
  rintro rfl
  have hmd := isMarkdown_of_reference h
  revert hmd
  rw [isMarkdown, isSuffixOf_iff_suffix, getLast?_nil, Option.getD_none]
  exact fun hsuffix => absurd (suffix_nil.mp hsuffix) (by decide)

/-- A name that a reference may contain. -/
structure Plain (part : String) : Prop where
  ne_empty : part.toList ≠ []
  ne_dot : part.toList ≠ ['.']
  ne_dots : part ≠ ".."
  chars : (part.toList.all fun c => c ≠ '/' && c ≠ '\\' && c ≠ '\x00') = true

theorem Plain.char (h : Plain part) {c : Char} (hc : c ∈ part.toList) :
    c ≠ '/' ∧ c ≠ '\\' ∧ c ≠ '\x00' := by
  have hall := all_eq_true.mp h.chars c hc
  simpa [and_assoc] using hall

theorem mem_joined {c : Char} (h : c ∈ (joined parts).toList) :
    c = '/' ∨ ∃ part ∈ parts, c ∈ part.toList := by
  rw [joined, String.toList_ofList] at h
  induction parts with
  | nil => cases h
  | cons part parts ih =>
    cases parts with
    | nil =>
      rw [map_singleton, intercalate_singleton] at h
      exact .inr ⟨part, mem_cons_self, h⟩
    | cons next parts =>
      rw [map_cons, map_cons, intercalate_cons_cons, mem_append] at h
      rcases h with h | h
      · rcases mem_append.mp h with h | h
        · exact .inr ⟨part, mem_cons_self, h⟩
        · exact .inl (mem_singleton.mp h)
      · rw [← map_cons] at h
        refine (ih h).imp_right fun hmem => ?_
        obtain ⟨part', hpart', hc⟩ := hmem
        exact ⟨part', mem_cons_of_mem _ hpart', hc⟩

theorem toList_joined_cons (part : String) (parts : List String) :
    ∃ rest, (joined (part :: parts)).toList = part.toList ++ rest := by
  rw [joined, String.toList_ofList]
  cases parts with
  | nil => exact ⟨[], by rw [map_singleton, intercalate_singleton, append_nil]⟩
  | cons next parts =>
    rw [map_cons, map_cons, intercalate_cons_cons, append_assoc]
    exact ⟨_, rfl⟩

theorem pureParts_joined (hne : parts ≠ []) (hplain : ∀ part ∈ parts, Plain part) :
    pureParts (joined parts) = parts := by
  have hslash : ∀ cs ∈ parts.map String.toList, '/' ∉ cs := by
    rintro cs hcs hmem
    obtain ⟨part, hpart, rfl⟩ := mem_map.mp hcs
    exact ((hplain part hpart).char hmem).1 rfl
  have hkeep : ∀ cs ∈ parts.map String.toList, decide (cs ≠ [] ∧ cs ≠ ['.']) = true := by
    rintro cs hcs
    obtain ⟨part, hpart, rfl⟩ := mem_map.mp hcs
    exact decide_eq_true ⟨(hplain part hpart).ne_empty, (hplain part hpart).ne_dot⟩
  rw [pureParts, joined, String.toList_ofList,
    splitOn_intercalate '/' hslash (by simpa using hne), filter_eq_self.mpr hkeep, map_map]
  exact (map_congr_left fun part _ => String.ofList_toList).trans (map_id parts)

theorem reference_joined {first : String} (hplain : ∀ part ∈ first :: rest ++ [last], Plain part)
    (hsuffix : casefold u (String.ofList (suffix last.toList)) = ".md".toList)
    (hreserved : ∀ part ∈ first :: rest ++ [last], casefold u part ≠ "manifest.json".toList) :
    reference u (joined (first :: rest ++ [last])) = .ok (first :: rest ++ [last]) := by
  have hparts := pureParts_joined (by simp) hplain
  obtain ⟨tail, htail⟩ := toList_joined_cons first (rest ++ [last])
  have hfirst := hplain first mem_cons_self
  have hempty : joined (first :: rest ++ [last]) ≠ "" := by
    intro heq
    rw [show joined (first :: (rest ++ [last])) = "" from heq] at htail
    exact hfirst.ne_empty (append_eq_nil_iff.mp htail.symm).1
  have hchar : ∀ c ∈ (joined (first :: rest ++ [last])).toList, c ≠ '\\' ∧ c ≠ '\x00' := by
    intro c hc
    rcases mem_joined hc with rfl | ⟨part, hpart, hmem⟩
    · exact ⟨by decide, by decide⟩
    · exact ((hplain part hpart).char hmem).2
  have hhead : (joined (first :: rest ++ [last])).toList.head? ≠ some '/' := by
    rw [cons_append, htail]
    intro hslash
    cases hcs : first.toList with
    | nil => exact hfirst.ne_empty hcs
    | cons c cs =>
      rw [hcs] at hslash
      exact (hfirst.char (hcs ▸ mem_cons_self)).1 (Option.some.inj hslash)
  have hdots : ".." ∉ first :: rest ++ [last] := fun hmem => (hplain _ hmem).ne_dots rfl
  unfold reference
  rw [hparts, if_neg (not_or.mpr ⟨hempty, fun hc => (hchar _ hc).2 rfl⟩),
    if_neg (fun hc => (hchar _ hc).1 rfl), if_neg (not_or.mpr ⟨hhead, hdots⟩), if_neg, if_neg]
  · rintro ⟨part, hpart, heq⟩
    exact hreserved part hpart heq
  · rw [not_or, not_not, not_not, getLast?_concat]
    exact ⟨if_neg (by simp), hsuffix⟩

/-! ### Reading -/

theorem get_of_parentThere {path : List String} {there : Bool} (hpath : root.get path = some .dir)
    (h : parentThere root path rest = .ok there) :
    if there then root.get (path ++ rest) = some .dir
      else ∃ q, q <+: path ++ rest ∧ root.get q = none := by
  induction rest generalizing path with
  | nil =>
    cases h
    rw [if_pos rfl, append_nil]
    exact hpath
  | cons part rest ih =>
    rw [append_cons]
    unfold parentThere at h
    split at h
    · next hnone =>
      cases h
      exact ⟨path ++ [part], prefix_append _ rest, hnone⟩
    · cases h
    · next hdir => exact ih hdir h

theorem get_of_readPath {opened : Option String} (h : readPath root parts = .ok opened) :
    root.get parts = opened.map .file := by
  unfold readPath at h
  obtain ⟨there, hthere, h⟩ := bind_eq_ok.mp h
  have hparent := get_of_parentThere root.get_nil hthere
  rw [nil_append] at hparent
  cases there with
  | true =>
    rw [if_pos rfl] at h
    split at h
    · next hnone =>
      cases h
      exact hnone
    · cases h
    · next data hfile =>
      split at h
      · cases h
      · cases h
        exact hfile
  | false =>
    cases h
    obtain ⟨q, hq, hnone⟩ := hparent
    have hbelow : q <+: parts := hq.trans ( dropLast_prefix parts)
    by_contra hthere'
    exact FileTree.get_ne_none_above hbelow hthere' hnone

/-! ### Making the parents -/

/-- The directories that `_ensure_parent` makes on the way from one that is there: those that are
missing, up to the first that the operating system refuses. -/
def newDirectories (disk : Disk) (root : Root) (base rest : List String) : Nat :=
  (((rest.inits.map (base ++ ·)).filter fun q => (root.get q).isNone).takeWhile
    fun q => !disk.refusesMkdir q).length

/-- What making the parents of a path may change. -/
structure Parented (root root' : Root) (base rest : List String) (made : Nat) : Prop where
  get_eq : ∀ q, root'.get q = root.get q ∨
    root.get q = none ∧ root'.get q = some .dir ∧ q <+: base ++ rest
  rooted : root.Rooted → root'.Rooted
  files : fileCount root' = fileCount root
  bytes : storedBytes root' = storedBytes root
  directories : directories root' ≤ directories root + made

theorem Parented.refl (root : Root) (base rest : List String) (made : Nat) :
    Parented root root base rest made where
  get_eq _ := .inl rfl
  rooted h := h
  files := rfl
  bytes := rfl
  directories := Nat.le_add_right _ _

theorem newDirectories_cons_of_dir (h : root.get base = some .dir) :
    newDirectories disk root base (part :: rest) =
      newDirectories disk root (base ++ [part]) rest := by
  unfold newDirectories
  rw [inits_cons, map_cons, append_nil, filter_cons_of_neg (by rw [h]; nofun), map_map]
  congr 2
  exact congrArg _ (map_congr_left fun q _ => append_cons base part q)

theorem newDirectories_of_none (rest : List String) (hnone : root.get base = none)
    (hmkdir : disk.refusesMkdir base = false)
    (hget : ∀ q, root'.get q = if q = base then some .dir else root.get q) :
    newDirectories disk root base rest = newDirectories disk root' base rest + 1 := by
  cases rest with
  | nil =>
    have hdir := hget base
    rw [if_pos rfl] at hdir
    simp [newDirectories, hnone, hdir, hmkdir]
  | cons part rest =>
    have hdir := hget base
    rw [if_pos rfl] at hdir
    rw [newDirectories_cons_of_dir hdir]
    unfold newDirectories
    rw [inits_cons, map_cons, append_nil,
      filter_cons_of_pos (by rw [hnone]; rfl), takeWhile_cons_of_pos (by simp [hmkdir]),
      length_cons, map_map]
    congr 3
    have hmap : List.map ((fun q => base ++ q) ∘ fun q => part :: q) rest.inits =
        List.map (fun q => base ++ [part] ++ q) rest.inits :=
      map_congr_left fun q _ => append_cons base part q
    rw [hmap]
    refine filter_congr fun q hq => ?_
    obtain ⟨t, -, rfl⟩ := mem_map.mp hq
    rw [hget, if_neg (by simp)]

theorem ensureParentFrom_spec (disk : Disk) (rest : List String) (h : root.get base = some .dir) :
    Parented root (ensureParentFrom disk rest root base h).1 base rest
      (newDirectories disk root base rest) := by
  induction rest generalizing root base with
  | nil => exact Parented.refl root base [] _
  | cons part rest ih =>
    rw [newDirectories_cons_of_dir h]
    unfold ensureParentFrom
    split
    · next hdir =>
      have hrest := ih hdir
      refine { hrest with get_eq := fun q => (hrest.get_eq q).imp_right fun hq => ?_ }
      exact ⟨hq.1, hq.2.1, by rw [append_cons]; exact hq.2.2⟩
    · exact Parented.refl _ _ _ _
    · next hnone =>
      by_cases hmkdir : disk.refusesMkdir (base ++ [part])
      · rw [if_pos hmkdir]
        exact Parented.refl _ _ _ _
      · rw [if_neg hmkdir]
        have hputs := FileTree.puts_dir h part
        have hrest := ih (FileTree.get_put_self hputs)
        have hnew := newDirectories_of_none rest hnone
          (Bool.eq_false_iff.mpr hmkdir) (FileTree.get_put hputs)
        have htally := FileTree.tally_put hputs
        rw [hnone] at htally
        refine ⟨fun q => ?_, fun hrooted => hrest.rooted (hrooted.put hputs), ?_, ?_, ?_⟩
        · have hcons : base ++ part :: rest = base ++ [part] ++ rest :=
            append_cons base part rest
          rcases hrest.get_eq q with hq | ⟨hq, hdir, hpre⟩
          · by_cases heq : q = base ++ [part]
            · rw [heq] at hq ⊢
              rw [FileTree.get_put_self hputs] at hq
              exact .inr ⟨hnone, hq, hcons ▸ prefix_append _ rest⟩
            · rw [FileTree.get_put, if_neg heq] at hq
              exact .inl hq
          · rw [FileTree.get_put] at hq
            split at hq
            · cases hq
            · exact .inr ⟨hq, hdir, hcons ▸ hpre⟩
        · exact hrest.files.trans (htally countsFile)
        · exact hrest.bytes.trans (htally countsBytes)
        · refine hrest.directories.trans ?_
          have hone : directories (root.put (base ++ [part]) .dir hputs) + 0 =
              directories root + 1 := htally countsDirectory
          omega

theorem ensureParentFrom_done (disk : Disk) (rest : List String) (h : root.get base = some .dir)
    (hmkdir : ∀ q, disk.refusesMkdir q = false)
    (hfree : ∀ q, q <+: base ++ rest → ∀ data, root.get q ≠ some (.file data)) :
    ∃ root', ensureParentFrom disk rest root base h = (root', none) ∧
      root'.get (base ++ rest) = some .dir ∧
      directories root' = directories root + newDirectories disk root base rest := by
  induction rest generalizing root base with
  | nil =>
    refine ⟨root, rfl, by rwa [append_nil], ?_⟩
    simp [newDirectories, h]
  | cons part rest ih =>
    rw [newDirectories_cons_of_dir h]
    rw [append_cons] at hfree ⊢
    unfold ensureParentFrom
    split
    · next hdir => exact ih hdir hfree
    · next data hfile => exact absurd hfile (hfree _ (prefix_append _ rest) data)
    · next hnone =>
      rw [if_neg (by rw [hmkdir]; nofun)]
      have hputs := FileTree.puts_dir h part
      have hnew := newDirectories_of_none rest hnone (hmkdir _) (FileTree.get_put hputs)
      have htally : directories (root.put (base ++ [part]) .dir hputs) +
          ((root.get (base ++ [part])).map countsDirectory).getD 0 = directories root + 1 :=
        FileTree.tally_put hputs countsDirectory
      rw [hnone, Option.map_none, Option.getD_none] at htally
      have hrest : ∀ q, q <+: base ++ [part] ++ rest → ∀ data,
          (root.put (base ++ [part]) .dir hputs).get q ≠ some (.file data) := by
        intro q hq data
        rw [FileTree.get_put]
        split
        · nofun
        · exact hfree q hq data
      obtain ⟨root', hmade, hdir, hcount⟩ := ih (FileTree.get_put_self hputs) hrest
      exact ⟨root', hmade, hdir, by omega⟩

/-! ### What a write leaves -/

theorem Kept.parented {made : Nat} (h : Kept u root) (hmade : Parented root root' [] parts made)
    (hdepth : parts.length ≤ MAX_DIRECTORY_DEPTH)
    (hroom : 1 + directories root + made ≤ MAX_SCAN_DIRECTORIES) : Kept u root' := by
  have hdirectories : 1 + directories root' ≤ MAX_SCAN_DIRECTORIES := by
    have := hmade.directories
    omega
  have hfiles : fileCount root' ≤ MAX_FILES := hmade.files.trans_le h.files
  have hfile : ∀ {path data}, root'.get path = some (.file data) →
      root.get path = some (.file data) := by
    intro path data hget
    rcases hmade.get_eq path with heq | ⟨-, hdir, -⟩
    · rwa [heq] at hget
    · rw [hdir] at hget
      cases hget
  refine ⟨⟨?_, hdirectories, ?_, hfiles, ?_, ?_⟩, hmade.rooted h.rooted, ?_⟩
  · rw [entries_length]
    unfold MAX_FILES at hfiles
    unfold MAX_SCAN_DIRECTORIES at hdirectories
    unfold MAX_SCAN_ENTRIES
    omega
  · intro path hget
    rcases hmade.get_eq path with heq | ⟨-, -, hpre⟩
    · rw [heq] at hget
      exact h.depth path hget
    · exact hpre.length_le.trans hdepth
  · exact fun path data hget => h.fileBytes path data (hfile hget)
  · exact hmade.bytes.trans_le h.totalBytes
  · exact fun path data hget => h.named path data (hfile hget)

theorem Kept.written (h : Kept u root) (hwrite : root.writeBytes parts content = .ok root')
    (hdir : root.get parts ≠ some .dir) (hname : isMarkdown u (parts.getLast?.getD ""))
    (hsize : content.utf8ByteSize ≤ MAX_FILE_BYTES)
    (hcount : root.get parts = none → fileCount root < MAX_FILES)
    (htotal : storedBytes root - ((root.get parts).map countsBytes).getD 0 +
      content.utf8ByteSize ≤ MAX_TOTAL_BYTES) : Kept u root' := by
  have hget := FileTree.get_of_writeBytes hwrite
  have htally := FileTree.tally_writeBytes hwrite
  have hdirs : directories root' = directories root := by
    have hsum : directories root' + ((root.get parts).map countsDirectory).getD 0 =
        directories root + 0 := htally countsDirectory
    cases hparts : root.get parts with
    | none =>
      rw [hparts] at hsum
      exact hsum
    | some e =>
      cases e with
      | dir => exact absurd hparts hdir
      | file data =>
        rw [hparts] at hsum
        exact hsum
  have hfiles : fileCount root' ≤ MAX_FILES := by
    have hsum : fileCount root' + ((root.get parts).map countsFile).getD 0 =
        fileCount root + 1 := htally countsFile
    cases hparts : root.get parts with
    | none =>
      have := hcount hparts
      rw [hparts, Option.map_none, Option.getD_none] at hsum
      omega
    | some e =>
      cases e with
      | dir => exact absurd hparts hdir
      | file data =>
        have := h.files
        rw [hparts, Option.map_some, Option.getD_some, countsFile] at hsum
        omega
  have hbytes : storedBytes root' + ((root.get parts).map countsBytes).getD 0 =
      storedBytes root + content.utf8ByteSize := htally countsBytes
  have hdirectories := h.directories
  rw [← hdirs] at hdirectories
  refine ⟨⟨?_, hdirectories, ?_, hfiles, ?_, by omega⟩, h.rooted.writeBytes hwrite, ?_⟩
  · rw [entries_length]
    unfold MAX_FILES at hfiles
    unfold MAX_SCAN_DIRECTORIES at hdirectories
    unfold MAX_SCAN_ENTRIES
    omega
  · intro path hpath
    rw [hget] at hpath
    split at hpath
    · cases hpath
    · exact h.depth path hpath
  · intro path data hpath
    rw [hget] at hpath
    split at hpath
    · cases hpath
      exact hsize
    · exact h.fileBytes path data hpath
  · intro path data hpath
    rw [hget] at hpath
    split at hpath
    · next heq =>
      rw [heq]
      exact hname
    · exact h.named path data hpath

/-- A write that passes the checks has room for the directories it makes. -/
def HasRoom (disk : Disk) (root : Root) (parts : List String) (content : String) : Prop :=
  admitted root parts content = .ok none → parts.dropLast.length ≤ MAX_DIRECTORY_DEPTH →
    1 + directories root + newDirectories disk root [] parts.dropLast ≤ MAX_SCAN_DIRECTORIES

instance decidableHasRoom (disk : Disk) (root : Root) (parts : List String) (content : String) :
    Decidable (HasRoom disk root parts content) :=
  inferInstanceAs (Decidable (_ → _ → _))

theorem of_admitted (h : admitted root parts content = .ok none) :
    content.utf8ByteSize ≤ MAX_FILE_BYTES ∧ root.get parts ≠ some .dir ∧
      (root.get parts = none → fileCount root < MAX_FILES) ∧
      storedBytes root - ((root.get parts).map countsBytes).getD 0 + content.utf8ByteSize ≤
        MAX_TOTAL_BYTES := by
  unfold admitted at h
  split at h
  · cases h
  · next hsize =>
    cases hread : readPath root parts with
    | error e =>
      rw [hread] at h
      cases h
    | ok opened =>
      have hget := get_of_readPath hread
      rw [hread] at h
      replace h := Except.ok.inj h
      dsimp only at h
      split at h
      · cases h
      · next hcount =>
        split at h
        · cases h
        · next htotal =>
          refine ⟨Nat.not_lt.mp hsize, ?_, ?_, ?_⟩
          · rw [hget]
            cases opened <;> nofun
          · intro hnone
            rw [hget, Option.map_eq_none_iff] at hnone
            exact Nat.not_le.mp fun hle => hcount ⟨hnone, hle⟩
          · rw [hget, Option.map_map]
            exact Nat.not_lt.mp htotal

theorem kept_persist (h : Kept u root) (hname : isMarkdown u (parts.getLast?.getD ""))
    (hsize : content.utf8ByteSize ≤ MAX_FILE_BYTES)
    (hcount : root.get parts = none → fileCount root < MAX_FILES)
    (htotal : storedBytes root - ((root.get parts).map countsBytes).getD 0 +
      content.utf8ByteSize ≤ MAX_TOTAL_BYTES) : Kept u (persist disk root parts ref content).1 := by
  unfold persist
  split
  · exact h
  · next hdir =>
    split
    · exact h
    · split
      · exact h
      · next root' hwrite =>
        exact h.written hwrite (fun hdir' => hdir (FileTree.isDir_iff.mpr hdir')) hname hsize
          hcount htotal

theorem kept_commit (h : Kept u root) (hname : isMarkdown u (parts.getLast?.getD ""))
    (hne : parts ≠ []) (hroom : HasRoom disk root parts content) :
    Kept u (commit u disk root parts ref content).1 := by
  unfold commit
  rw [checks_of_kept h]
  split
  · exact h
  · exact h
  · next hadmit =>
    obtain ⟨hsize, -, hcount, htotal⟩ := of_admitted hadmit
    unfold ensureParent
    split
    · next hparent =>
      split at hparent
      · cases hparent
        exact h
      · next hdepth =>
        have hmade := ensureParentFrom_spec disk parts.dropLast root.get_nil
        rw [hparent] at hmade
        exact h.parented hmade (Nat.not_lt.mp hdepth) (hroom hadmit (Nat.not_lt.mp hdepth))
    · next root' hparent =>
      split at hparent
      · cases hparent
      · next hdepth =>
        have hmade := ensureParentFrom_spec disk parts.dropLast root.get_nil
        rw [hparent] at hmade
        have hkept := h.parented hmade (Nat.not_lt.mp hdepth) (hroom hadmit (Nat.not_lt.mp hdepth))
        -- the parents are above the target, which is as it was
        have hget : root'.get parts = root.get parts := by
          refine (hmade.get_eq parts).resolve_right fun habove => ?_
          have hlen := habove.2.2.length_le
          have hpos := length_pos_iff.mpr hne
          rw [nil_append, length_dropLast] at hlen
          omega
        refine kept_persist hkept hname hsize ?_ ?_
        · rw [hget]
          exact fun hnone => hmade.files.trans_lt (hcount hnone)
        · rw [hget]
          exact (congrArg (fun b => b - _ + _) hmade.bytes).trans_le htotal

/-! ### Runs -/

inductive Call where
  | write (disk : Disk) (ref content : String)
  | edit (disk : Disk) (oldString newString ref : String)
  | delete (disk : Disk) (ref : String)

/-- One call, with what it answers or raises. -/
def perform (u : Unicode) (root : Root) :
    Call → Root × Except MemorySafetyError MemoryWriteResult
  | .write disk ref content => writeEntry u disk root ref content
  | .edit disk oldString newString ref => editTool u disk root oldString newString ref
  | .delete disk ref => deleteEntry u disk root ref

def run (u : Unicode) (root : Root) (calls : List Call) : Root :=
  calls.foldl (fun root call => (perform u root call).1) root

/-- A call that makes no more directories than a scan goes through. -/
def CarefulCall (u : Unicode) (root : Root) : Call → Prop
  | .write disk ref content => ∀ parts ∈ (reference u ref).toOption, HasRoom disk root parts content
  | _ => True

instance decidableCarefulCall (u : Unicode) (root : Root) (call : Call) :
    Decidable (CarefulCall u root call) := by
  cases call with
  | write disk ref content =>
    exact inferInstanceAs (Decidable (∀ parts ∈ (reference u ref).toOption,
      HasRoom disk root parts content))
  | edit disk oldString newString ref => exact .isTrue trivial
  | delete disk ref => exact .isTrue trivial

def Careful (u : Unicode) : Root → List Call → Prop
  | _, [] => True
  | root, call :: calls => CarefulCall u root call ∧ Careful u (perform u root call).1 calls

instance decidableCareful (u : Unicode) : (root : Root) → (calls : List Call) →
    Decidable (Careful u root calls)
  | _, [] => .isTrue trivial
  | root, call :: calls =>
    have := decidableCareful u (perform u root call).1 calls
    inferInstanceAs (Decidable (_ ∧ _))

theorem careful_append {first second : List Call} :
    Careful u root (first ++ second) → Careful u root first := by
  induction first generalizing root with
  | nil => exact fun _ => trivial
  | cons call first ih => exact fun h => ⟨h.1, ih h.2⟩

theorem kept_writeEntry (h : Kept u root) (hroom : CarefulCall u root (.write disk ref content)) :
    Kept u (writeEntry u disk root ref content).1 := by
  unfold writeEntry
  cases href : reference u ref with
  | error e => exact h
  | ok parts =>
    have hparts : parts ∈ (reference u ref).toOption := by
      rw [href]
      rfl
    exact kept_commit h (isMarkdown_of_reference href) (parts_ne_nil href) (hroom parts hparts)

theorem kept_deleteEntry (h : Kept u root) : Kept u (deleteEntry u disk root ref).1 := by
  unfold deleteEntry
  split
  · exact h
  · exact h
  · next parts content hread =>
    obtain ⟨parts', href, hread⟩ := bind_eq_ok.mp hread
    cases hopen : readPath root parts' with
    | error e =>
      rw [hopen] at hread
      cases hread
    | ok opened =>
      rw [hopen] at hread
      cases hread
      have hne := parts_ne_nil href
      have hfile : root.get parts = some (.file content) := get_of_readPath hopen
      split
      · exact h
      · rw [FileTree.unlink_of_file hfile]
        have hget := @FileTree.get_removeTree _ _ _ root parts hne
        have htally := FileTree.tally_removeTree hne hfile
        have hsub : ∀ {path e}, (root.removeTree parts).get path = some e →
            root.get path = some e := by
          intro path e hpath
          rw [hget] at hpath
          split at hpath
          · cases hpath
          · exact hpath
        refine ⟨⟨?_, ?_, ?_, ?_, ?_, ?_⟩, h.rooted.removeTree parts, ?_⟩
        · exact length_filter_le _ _ |>.trans h.entries
        · have hsum : directories (root.removeTree parts) + 0 = directories root :=
            htally countsDirectory
          exact (congrArg (1 + ·) hsum).trans_le h.directories
        · exact fun path hpath => h.depth path (hsub hpath)
        · exact (Nat.le_add_right _ _).trans ((htally countsFile).trans_le h.files)
        · exact fun path data hpath => h.fileBytes path data (hsub hpath)
        · exact (Nat.le_add_right _ _).trans ((htally countsBytes).trans_le h.totalBytes)
        · exact fun path data hpath => h.named path data (hsub hpath)

theorem newDirectories_of_there (h : root.get parts ≠ none) :
    newDirectories disk root [] parts.dropLast = 0 := by
  have hnil : ((parts.dropLast.inits.map ([] ++ ·)).filter fun q => (root.get q).isNone) = [] := by
    refine filter_eq_nil_iff.mpr fun q hq hnone => ?_
    obtain ⟨t, ht, rfl⟩ := mem_map.mp hq
    have hpre : t <+: parts :=
      (mem_inits t _ |>.mp ht).trans ( dropLast_prefix parts)
    exact FileTree.get_ne_none_above hpre h (Option.isNone_iff_eq_none.mp hnone)
  rw [newDirectories, hnil]
  rfl

theorem kept_editTool {oldString newString : String} (h : Kept u root) :
    Kept u (editTool u disk root oldString newString ref).1 := by
  unfold editTool
  split
  · exact h
  · next entry hread =>
    dsimp only
    split
    · exact h
    · split
      · exact h
      · next hone =>
        obtain ⟨parts, href, hread⟩ := bind_eq_ok.mp hread
        obtain ⟨opened, hopen, hread⟩ := bind_eq_ok.mp hread
        cases opened with
        | none =>
          -- a file that is missing holds no occurrence
          cases hread
          rw [Option.getD_none] at hone
          cases hone
        | some data =>
          cases hread
          have hthere : root.get parts ≠ none := by
            rw [get_of_readPath hopen]
            nofun
          refine kept_writeEntry h fun parts' hparts' _ _ => ?_
          rw [href] at hparts'
          cases hparts'
          rw [newDirectories_of_there hthere]
          exact h.directories
      · exact h

theorem kept_perform {call : Call} (h : Kept u root) (hcareful : CarefulCall u root call) :
    Kept u (perform u root call).1 := by
  cases call with
  | write disk ref content => exact kept_writeEntry h hcareful
  | edit disk oldString newString ref => exact kept_editTool h
  | delete disk ref => exact kept_deleteEntry h

theorem kept_run {calls : List Call} (h : Kept u root) (hcareful : Careful u root calls) :
    Kept u (run u root calls) := by
  induction calls generalizing root with
  | nil => exact h
  | cons call calls ih => exact ih (kept_perform h hcareful.1) hcareful.2

/-! ### What a write answers -/

/-- Nothing is in the way of a file: its directories are directories or missing, and not too
deep. -/
structure Free (root : Root) (parts : List String) : Prop where
  depth : parts.dropLast.length ≤ MAX_DIRECTORY_DEPTH
  parents : ∀ q, q <+: parts.dropLast → ∀ data, root.get q ≠ some (.file data)
  target : root.get parts ≠ some .dir

/-- The operating system carries out what it is asked. -/
def Disk.Obliges (disk : Disk) : Prop :=
  (∀ path, disk.refusesMkdir path = false) ∧ disk.refusesWrite = false

/-- A refusal for a size or a count is for the reason that it states. -/
def Stated (root : Root) (parts : List String) (content : String) : Refusal → Prop
  | .fileTooLarge => MAX_FILE_BYTES < content.utf8ByteSize
  | .countLimit => root.get parts = none ∧ MAX_FILES ≤ fileCount root
  | .totalTooLarge => MAX_TOTAL_BYTES <
      storedBytes root - ((root.get parts).map countsBytes).getD 0 + content.utf8ByteSize
  | _ => False

/-- A write is refused for a stated reason, or done. -/
def Answered (root : Root) (parts : List String) (ref content : String)
    (outcome : Root × Except MemorySafetyError MemoryWriteResult) : Prop :=
  (∃ refusal, outcome = (root, .ok { success := false, reference := ref, error := some refusal }) ∧
    Stated root parts content refusal) ∨
  ∃ root' result, outcome = (root', .ok result) ∧ result.success = true ∧
    root'.get parts = some (.file content)

theorem parentThere_isOk {path rest : List String}
    (h : ∀ q, q <+: path ++ rest → ∀ data, root.get q ≠ some (.file data)) :
    ∃ there, parentThere root path rest = .ok there := by
  induction rest generalizing path with
  | nil => exact ⟨true, rfl⟩
  | cons part rest ih =>
    rw [append_cons] at h
    unfold parentThere
    split
    · exact ⟨false, rfl⟩
    · next data hfile => exact absurd hfile (h _ (prefix_append _ rest) data)
    · exact ih h

theorem readPath_isOk {parts : List String} (h : Within root) (hfree : Free root parts) :
    ∃ opened, readPath root parts = .ok opened := by
  obtain ⟨there, hthere⟩ := @parentThere_isOk root [] _ hfree.parents
  rw [readPath, hthere]
  cases there with
  | false => exact ⟨none, rfl⟩
  | true =>
    cases hget : root.get parts with
    | none => exact ⟨none, by simp [bind, Except.bind, pure, Except.pure]⟩
    | some e =>
      cases e with
      | dir => exact absurd hget hfree.target
      | file data =>
        have hsize := Nat.not_lt.mpr (h.fileBytes parts data hget)
        exact ⟨some data, by simp [bind, Except.bind, pure, Except.pure, hsize]⟩

/-- **Within the limits a write is answered**: where nothing is in its way it is done, or refused
for the size or the count that the refusal states. -/
theorem writeEntry_answered (h : Kept u root) (href : reference u ref = .ok parts)
    (hfree : Free root parts) (hdisk : disk.Obliges) :
    Answered root parts ref content (writeEntry u disk root ref content) := by
  obtain ⟨opened, hread⟩ := readPath_isOk h.toWithin hfree
  have hget := get_of_readPath hread
  rw [writeEntry, href]
  dsimp only
  rw [commit, checks_of_kept h]
  cases hadmit : admitted root parts content with
  | error e =>
    unfold admitted at hadmit
    rw [hread] at hadmit
    split at hadmit
    · cases hadmit
    · cases hadmit
  | ok answer =>
    cases answer with
    | some refusal =>
      refine .inl ⟨refusal, rfl, ?_⟩
      unfold admitted at hadmit
      rw [hread] at hadmit
      split at hadmit
      · next hsize =>
        cases hadmit
        exact hsize
      · replace hadmit := Except.ok.inj hadmit
        dsimp only at hadmit
        split at hadmit
        · next hcount =>
          cases hadmit
          exact ⟨by rw [hget, hcount.1]; rfl, hcount.2⟩
        · split at hadmit
          · next htotal =>
            cases hadmit
            rw [Stated, hget, Option.map_map]
            exact htotal
          · cases hadmit
    | none =>
      obtain ⟨made, hmade, hparent, -⟩ :=
        ensureParentFrom_done disk parts.dropLast root.get_nil hdisk.1 hfree.parents
      have hspec := ensureParentFrom_spec disk parts.dropLast root.get_nil
      rw [hmade] at hspec
      have htarget : made.get parts = root.get parts := by
        refine (hspec.get_eq parts).resolve_right fun habove => ?_
        have hlen := habove.2.2.length_le
        have hpos := length_pos_iff.mpr (parts_ne_nil href)
        rw [nil_append, length_dropLast] at hlen
        omega
      have hdir : made.get parts ≠ some .dir := by
        rw [htarget]
        exact hfree.target
      obtain ⟨root', hwrite⟩ := FileTree.writeBytes_isOk hparent hdir content
      rw [ensureParent, if_neg (Nat.not_lt.mpr hfree.depth), hmade]
      dsimp only
      rw [persist, if_neg (fun his => hdir (FileTree.isDir_iff.mp his)),
        if_neg (by rw [hdisk.2]; nofun), hwrite]
      refine .inr ⟨root', _, rfl, rfl, ?_⟩
      rw [FileTree.get_of_writeBytes hwrite, if_pos rfl]

/-- **Project memory within its limits.**  In every run from an empty directory in which no write
makes more directories than a scan goes through, the directory is within every limit after each
call: it can be listed, and a later write with nothing in its way is done, or refused for the size
or the count it states. -/
theorem limits_hold {calls : List Call} (h : Careful u .empty calls) {done : List Call}
    (hdone : done <+: calls) :
    Within (run u .empty done) ∧
      (∀ query, ∃ listed, listEntries u (run u .empty done) query = .ok listed) ∧
      ∀ disk ref content parts, reference u ref = .ok parts → Free (run u .empty done) parts →
        disk.Obliges → Answered (run u .empty done) parts ref content
          (writeEntry u disk (run u .empty done) ref content) := by
  obtain ⟨later, rfl⟩ := hdone
  have hkept := kept_run (kept_empty u) (careful_append h)
  exact ⟨hkept.toWithin, listEntries_of_kept hkept,
    fun _ _ _ _ href hfree hdisk => writeEntry_answered hkept href hfree hdisk⟩

/-! ### The directory that locks itself out -/

/-- **Beyond 99 directories nothing can be listed or written any more.** -/
theorem locked (hrooted : root.Rooted)
    (hdepth : ∀ path, root.get path = some .dir → path.length ≤ MAX_DIRECTORY_DEPTH)
    (hmany : MAX_SCAN_DIRECTORIES < 1 + directories root) :
    (∀ query, ∃ e, listEntries u root query = .error e) ∧
      ∀ disk ref content, (writeEntry u disk root ref content).1 = root ∧
        ∀ result, (writeEntry u disk root ref content).2 = .ok result → result.success = false := by
  have hscan : ∃ e, scanMarkdownFiles u root = .error e := by
    cases hfiles : scanMarkdownFiles u root with
    | error e => exact ⟨e, rfl⟩
    | ok files => exact absurd (directories_of_scan hrooted hdepth hfiles) (Nat.not_le.mpr hmany)
  obtain ⟨e, hscan⟩ := hscan
  constructor
  · intro query
    rw [listEntries, hscan]
    exact ⟨e, rfl⟩
  · intro disk ref content
    unfold writeEntry
    cases reference u ref with
    | error e => exact ⟨rfl, fun _ h => by cases h⟩
    | ok parts =>
      dsimp only
      rw [commit, checks, hscan]
      by_cases hsize : MAX_FILE_BYTES < content.utf8ByteSize
      · rw [if_pos hsize]
        refine ⟨rfl, fun result hresult => ?_⟩
        cases hresult
        rfl
      · rw [if_neg hsize]
        exact ⟨rfl, fun _ h => by cases h⟩

/-- Below a name that is not there yet every directory is new. -/
theorem newDirectories_of_missing (hmkdir : ∀ q, disk.refusesMkdir q = false)
    (hnew : root.get [part] = none) :
    newDirectories disk root [] (part :: rest) = rest.length + 1 := by
  rw [newDirectories_cons_of_dir root.get_nil, newDirectories, filter_eq_self.mpr,
    takeWhile_eq_self_iff.mpr, length_map, length_inits]
  · intro q _
    rw [hmkdir]
    rfl
  · intro q hq
    obtain ⟨t, -, rfl⟩ := mem_map.mp hq
    by_contra hthere
    refine FileTree.get_ne_none_above (prefix_append [part] t) (fun hnone => hthere ?_) hnew
    exact Option.isNone_iff_eq_none.mpr hnone

/-- A small file below a name that was not there. -/
structure Nested (root root' : Root) (part : String) (depth : Nat) : Prop where
  directories : directories root' = directories root + depth
  files : fileCount root' = fileCount root + 1
  bytes : storedBytes root' = storedBytes root + 1
  rooted : root'.Rooted
  depth : ∀ path, root'.get path = some .dir → path.length ≤ MAX_DIRECTORY_DEPTH
  others : ∀ name, name ≠ part → root'.get [name] = root.get [name]

theorem nested_writeEntry (h : Kept u root) (href : reference u ref = .ok (part :: rest ++ [last]))
    (hdepth : rest.length < MAX_DIRECTORY_DEPTH) (hnew : root.get [part] = none)
    (hfiles : fileCount root < MAX_FILES) (hbytes : storedBytes root < MAX_TOTAL_BYTES) :
    Nested root (writeEntry u {} root ref "n").1 part (rest.length + 1) := by
  have hmissing : root.get (part :: rest ++ [last]) = none := by
    by_contra hthere
    exact FileTree.get_ne_none_above (prefix_append [part] _) hthere hnew
  have hread : readPath root (part :: rest ++ [last]) = .ok none := by
    rw [readPath, dropLast_concat, parentThere, nil_append, hnew]
    rfl
  have hadmit : admitted root (part :: rest ++ [last]) "n" = .ok none := by
    rw [admitted, if_neg (by decide), hread]
    refine congrArg Except.ok ?_
    dsimp only
    rw [if_neg fun hcount => absurd hcount.2 (Nat.not_le.mpr hfiles), Option.map_none,
      Option.getD_none, if_neg]
    exact Nat.not_lt.mpr hbytes
  have hfree : ∀ q, q <+: [] ++ part :: rest → ∀ data, root.get q ≠ some (.file data) := by
    intro q hq data hfile
    cases q with
    | nil => cases hfile
    | cons name q =>
      obtain ⟨rfl, -⟩ := cons_prefix_cons.mp hq
      refine FileTree.get_ne_none_above (prefix_append [name] q) ?_ hnew
      rw [singleton_append, hfile]
      rintro ⟨⟩
  obtain ⟨made, hmade, hparent, hdirectories⟩ :=
    ensureParentFrom_done {} _ root.get_nil (fun _ => rfl) hfree
  have hspec := ensureParentFrom_spec {} (part :: rest) root.get_nil
  rw [hmade] at hspec
  rw [newDirectories_of_missing (fun _ => rfl) hnew] at hdirectories
  have htarget : made.get (part :: rest ++ [last]) = none := by
    refine ((hspec.get_eq _).resolve_right fun habove => ?_).trans hmissing
    have hlen := habove.2.2.length_le
    rw [nil_append, length_append] at hlen
    exact absurd hlen (Nat.not_succ_le_self _)
  have hparent' : made.get (part :: rest ++ [last]).dropLast = some .dir := by
    rw [dropLast_concat]
    exact hparent
  obtain ⟨root', hwrite⟩ := FileTree.writeBytes_isOk hparent' (by rw [htarget]; rintro ⟨⟩) "n"
  have hget := FileTree.get_of_writeBytes hwrite
  have hresult : (writeEntry u {} root ref "n").1 = root' := by
    rw [writeEntry, href]
    dsimp only
    rw [commit, checks_of_kept h, hadmit]
    rw [dropLast_concat, ensureParent, if_neg (by rw [length_cons]; omega), hmade]
    dsimp only
    rw [persist, if_neg (by rw [FileTree.isDir_iff, htarget]; rintro ⟨⟩), if_neg (by rintro ⟨⟩), hwrite]
  rw [hresult]
  have htally := FileTree.tally_writeBytes hwrite
  rw [htarget] at htally
  refine ⟨(htally countsDirectory).trans hdirectories, ?_, ?_, ?_, ?_, ?_⟩
  · exact (htally countsFile).trans (congrArg (· + 1) hspec.files)
  · exact (htally countsBytes).trans (congrArg (· + 1) hspec.bytes)
  · exact (hspec.rooted h.rooted).writeBytes hwrite
  · intro path hpath
    rw [hget] at hpath
    split at hpath
    · cases hpath
    · rcases hspec.get_eq path with heq | ⟨-, -, hpre⟩
      · rw [heq] at hpath
        exact h.depth path hpath
      · have := hpre.length_le
        rw [nil_append, length_cons] at this
        omega
  · intro name hname
    rw [hget, if_neg (by simp)]
    refine (hspec.get_eq [name]).resolve_right fun habove => hname ?_
    exact (cons_prefix_cons.mp habove.2.2).1

/-- A tree of small files that were written below new names. -/
structure Filled (u : Unicode) (root : Root) (many count : Nat) (used : List String) : Prop where
  kept : Kept u root
  directories : directories root = many
  files : fileCount root = count
  bytes : storedBytes root = count
  free : ∀ name, name ∉ used → root.get [name] = none

theorem filled_empty (u : Unicode) : Filled u .empty 0 0 [] where
  kept := kept_empty u
  directories := rfl
  files := rfl
  bytes := rfl
  free _ _ := rfl

theorem Filled.nested {many count : Nat} (h : Filled u root many count used)
    (href : reference u ref = .ok (part :: rest ++ [last]))
    (hdepth : rest.length < MAX_DIRECTORY_DEPTH) (hpart : part ∉ used)
    (hcount : count < MAX_FILES) :
    Nested root (writeEntry u {} root ref "n").1 part (rest.length + 1) := by
  refine nested_writeEntry h.kept href hdepth (h.free part hpart) ?_ ?_
  · rw [h.files]
    exact hcount
  · rw [h.bytes]
    exact hcount.trans (by decide)

theorem Filled.next {many count : Nat} (h : Filled u root many count used)
    (href : reference u ref = .ok (part :: rest ++ [last]))
    (hdepth : rest.length < MAX_DIRECTORY_DEPTH) (hpart : part ∉ used)
    (hcount : count < MAX_FILES) (hroom : 1 + many + (rest.length + 1) ≤ MAX_SCAN_DIRECTORIES) :
    Filled u (writeEntry u {} root ref "n").1 (many + (rest.length + 1)) (count + 1)
      (part :: used) := by
  have hnested := h.nested href hdepth hpart hcount
  refine ⟨kept_writeEntry h.kept fun parts hparts _ _ => ?_, ?_, ?_, ?_, fun name hname => ?_⟩
  · rw [href] at hparts
    cases hparts
    rw [dropLast_concat, newDirectories_of_missing (fun _ => rfl) (h.free part hpart),
      h.directories]
    exact hroom
  · rw [hnested.directories, h.directories]
  · rw [hnested.files, h.files]
  · rw [hnested.bytes, h.bytes]
  · obtain ⟨hne, hused⟩ := not_or.mp (fun h => hname (mem_cons.mpr h))
    rw [hnested.others name hne]
    exact h.free name hused

/-- Case folding of the letters of ASCII. -/
def ascii : Unicode where
  fold c := [c.toLower]
  isSpace c := c = ' '

/-- `c/…/c/x.md`, `n` directories below the first. -/
def nested (c : String) (n : Nat) : String := joined (c :: List.replicate n c ++ ["x.md"])

theorem reference_nested {c : String} (hplain : Plain c)
    (hreserved : casefold ascii c ≠ "manifest.json".toList) (n : Nat) :
    reference ascii (nested c n) = .ok (c :: List.replicate n c ++ ["x.md"]) := by
  have hparts : ∀ part ∈ c :: List.replicate n c ++ ["x.md"], part = c ∨ part = "x.md" := by
    intro part hpart
    rcases mem_append.mp hpart with hpart | hpart
    · rcases mem_cons.mp hpart with rfl | hpart
      · exact .inl rfl
      · exact .inl (eq_of_mem_replicate hpart)
    · exact .inr (mem_singleton.mp hpart)
  refine reference_joined (fun part hpart => ?_) (by decide) fun part hpart => ?_
  · rcases hparts part hpart with rfl | rfl
    · exact hplain
    · exact ⟨by decide, by decide, by decide, by decide⟩
  · rcases hparts part hpart with rfl | rfl
    · exact hreserved
    · decide

/-- Four small files, a hundred directories. -/
def lockedCalls : List Call :=
  [.write {} (nested "a" 31) "n", .write {} (nested "b" 31) "n", .write {} (nested "c" 31) "n",
    .write {} (nested "d" 3) "n"]

/-- After four small files the directory can be neither listed nor written. -/
theorem four_files_lock :
    (∀ query, ∃ e, listEntries ascii (run ascii .empty lockedCalls) query = .error e) ∧
      ∀ disk ref content,
        (writeEntry ascii disk (run ascii .empty lockedCalls) ref content).1 =
          run ascii .empty lockedCalls ∧
        ∀ result, (writeEntry ascii disk (run ascii .empty lockedCalls) ref content).2 =
          .ok result → result.success = false := by
  have hreference : ∀ c ∈ ["a", "b", "c", "d"], ∀ n, reference ascii (nested c n) =
      .ok (c :: List.replicate n c ++ ["x.md"]) := by
    intro c hc n
    have hplain : ∀ c ∈ ["a", "b", "c", "d"], c.toList ≠ [] ∧ c.toList ≠ ['.'] ∧ c ≠ ".." ∧
        (c.toList.all fun x => x ≠ '/' && x ≠ '\\' && x ≠ '\x00') = true ∧
        casefold ascii c ≠ "manifest.json".toList := by
      decide
    obtain ⟨hempty, hdot, hdots, hchars, hreserved⟩ := hplain c hc
    exact reference_nested ⟨hempty, hdot, hdots, hchars⟩ hreserved n
  have hone := (filled_empty ascii).next (hreference "a" (by decide) 31) (by decide) (by decide)
    (by decide) (by decide)
  have htwo := hone.next (hreference "b" (by decide) 31) (by decide) (by decide) (by decide)
    (by decide)
  have hthree := htwo.next (hreference "c" (by decide) 31) (by decide) (by decide) (by decide)
    (by decide)
  have hnested := hthree.nested (hreference "d" (by decide) 3) (by decide) (by decide) (by decide)
  have hmany := hnested.directories
  rw [hthree.directories] at hmany
  rw [lockedCalls, run, foldl_cons, foldl_cons, foldl_cons, foldl_cons,
    foldl_nil]
  exact locked hnested.rooted hnested.depth
    (lt_of_lt_of_eq (by decide) (congrArg (1 + ·) hmany.symm))

/-- A note is written below a new directory, corrected and deleted. -/
def noteCalls : List Call :=
  [.write {} "topics/build.md" "make", .edit {} "mak" "cak" "topics/build.md",
    .delete {} "topics/build.md"]

/-- Three calls with room for their directory. -/
theorem notes_within : Careful ascii .empty noteCalls ∧ Within (run ascii .empty noteCalls) :=
  have hcareful : Careful ascii .empty noteCalls := by decide
  ⟨hcareful, (limits_hold hcareful (prefix_refl _)).1⟩

end KolegaCode.Memory
