import KolegaCode.Mcp.Names
import KolegaCode.Permissions.Request

/-!
# Mcp — unambiguous names

A name is *of* a server identifier when it is `mcp__`, the identifier, `__` and something more,
within the limits of a wire name (`Named`).  From such a name the permission rules read the
identifier back (`Named.target`), provided the identifier neither holds a separator nor ends in half
of one (`Plain`), and suffixes keep it (`Named.suffixed`).  So the names of two servers never clash,
and the second round of renaming has nothing to do.
-/

namespace KolegaCode.Mcp

open List
open Permissions (PermissionRule mcpTargetFromToolName permissionRequestForTool)

/-! ### Characters -/

variable {c : Char} {serverId toolId name id : List Char} {ids done : List (List Char)}

theorem isWire_of_hex (h : isHexDigit c = true) : isWire c = true := by
  have hall : "0123456789abcdef".toList.all isWire = true := by decide
  exact all_eq_true.mp hall c (contains_iff_mem.mp h)

theorem HexDigest.isHexDigit_of_mem_take {n m : Nat} (digest : HexDigest n)
    (h : c ∈ digest.text.take m) : isHexDigit c = true :=
  all_eq_true.mp digest.isHex c (mem_of_mem_take h)

theorem isWire_of_digit (h : c.isDigit) : isWire c = true := by
  have hdigit : '0' ≤ c ∧ c ≤ '9' := by
    simpa [Char.isDigit, Char.le_def] using h
  simp [isWire, hdigit]

theorem isWire_digits {n : Nat} (h : c ∈ Nat.toDigits 10 n) : isWire c = true :=
  isWire_of_digit (Nat.isDigit_of_mem_toDigits (by decide) (by decide) h)

/-! ### Plain identifiers -/

/-- An identifier that is read back from a name as it is. -/
structure Plain (serverId : List Char) : Prop where
  ne_nil : serverId ≠ []
  wire : ∀ c ∈ serverId, isWire c = true
  length_le : serverId.length ≤ 32
  uncut : Text.cut? mcpToolSeparator (serverId ++ ['_']) = none

theorem cut?_snoc (h : Text.cut? mcpToolSeparator serverId = none)
    (hlast : serverId.getLast? ≠ some '_') :
    Text.cut? mcpToolSeparator (serverId ++ ['_']) = none := by
  induction serverId with
  | nil => decide
  | cons c cs ih =>
    rw [Text.cut?] at h
    split at h
    · cases h
    · next hpre =>
      rw [Option.map_eq_none_iff] at h
      rw [cons_append, Text.cut?, if_neg, ih h, Option.map_none]
      · cases cs with
        | nil => simp
        | cons d ds => simpa using hlast
      · cases cs with
        | nil =>
          intro hpre'
          simp only [mcpToolSeparator, nil_append, List.isPrefixOf, Bool.and_eq_true,
            beq_iff_eq] at hpre'
          exact hlast (by rw [← hpre'.1]; rfl)
        | cons d ds => simpa [mcpToolSeparator] using hpre

theorem validated_spec {sha1 : List Char → HexDigest 40}
    (h : ∃ value, sanitizeMcpServerId sha1 value = some serverId) :
    serverId ≠ [] ∧ (∀ c ∈ serverId, isWire c = true) ∧ serverId.length ≤ 32 := by
  obtain ⟨value, h⟩ := h
  simp only [sanitizeMcpServerId] at h
  split at h
  · cases h
  · next hne =>
    split at h
    · cases h
    · next hall =>
      rw [Bool.not_eq_true', Bool.not_eq_false] at hall
      have hwire := all_eq_true.mp hall
      split at h
      · next hle =>
        cases h
        exact ⟨hne, hwire, hle⟩
      · cases h
        refine ⟨append_ne_nil_of_right_ne_nil _ (cons_ne_nil _ _), ?_, ?_⟩
        · intro c hc
          rcases mem_append.mp hc with hc | hc
          · exact hwire c (mem_of_mem_take hc)
          · rcases mem_cons.mp hc with rfl | hc
            · decide
            · exact isWire_of_hex ((sha1 _).isHexDigit_of_mem_take hc)
        · rw [length_append, length_cons, length_take, length_take]
          omega

theorem plain_of_not_ambiguous {H : Hashes} (server : McpServerConfig H)
    (h : ambiguous server.id = false) : Plain server.id := by
  obtain ⟨hne, hwire, hlength⟩ := validated_spec server.validated
  rw [ambiguous, Bool.or_eq_false_iff, Option.isSome_eq_false_iff, Option.isNone_iff_eq_none,
    decide_eq_false_iff_not] at h
  exact ⟨hne, hwire, hlength, cut?_snoc h.1 h.2⟩

theorem cut?_of_notMem {text : List Char} (h : '_' ∉ text) :
    Text.cut? mcpToolSeparator text = none := by
  induction text with
  | nil => decide
  | cons c cs ih =>
    rw [mem_cons, not_or] at h
    have hpre : ¬ mcpToolSeparator.isPrefixOf (c :: cs) = true := by
      intro hpre
      simp only [mcpToolSeparator, List.isPrefixOf, Bool.and_eq_true, beq_iff_eq] at hpre
      exact h.1 hpre.1
    rw [Text.cut?, if_neg hpre, ih h.2, Option.map_none]

theorem plain_saltedAlias (H : Hashes) (serverId : List Char) : Plain (saltedAlias H serverId) := by
  have hhex : ∀ c ∈ (H.saltedSha256 serverId).text.take 24, isHexDigit c = true :=
    fun c hc => (H.saltedSha256 serverId).isHexDigit_of_mem_take hc
  have hnone : '_' ∉ saltedAlias H serverId := by
    rw [saltedAlias, mem_cons, not_or]
    exact ⟨by decide, fun h => absurd (hhex '_' h) (by decide)⟩
  refine ⟨cons_ne_nil _ _, ?_, ?_, cut?_snoc (cut?_of_notMem hnone) ?_⟩
  · intro c hc
    rcases mem_cons.mp hc with rfl | hc
    · decide
    · exact isWire_of_hex (hhex c hc)
  · rw [saltedAlias, length_cons, length_take, (H.saltedSha256 serverId).length_eq]
    decide
  · exact fun hlast => hnone (mem_of_getLast? hlast)

/-! ### Names of a server -/

/-- The name is a wire name of a tool of the server. -/
structure Named (serverId name : List Char) : Prop where
  exists_tool : ∃ toolId, toolId ≠ [] ∧ name = mcpToolName serverId toolId
  length_le : name.length ≤ 64
  wire : ∀ c ∈ name, isWire c = true

theorem length_mcpToolName (serverId toolId : List Char) :
    (mcpToolName serverId toolId).length = 7 + serverId.length + toolId.length := by
  simp only [mcpToolName, mcpToolPrefix, mcpToolSeparator, length_append, length_cons, length_nil]
  omega

theorem wire_mcpToolName (hserver : ∀ c ∈ serverId, isWire c = true)
    (htool : ∀ c ∈ toolId, isWire c = true) :
    ∀ c ∈ mcpToolName serverId toolId, isWire c = true := by
  intro c hc
  rw [mcpToolName, mem_append, mem_append, mem_append] at hc
  rcases hc with hc | hc | hc | hc
  · exact all_eq_true.mp (by decide : mcpToolPrefix.all isWire = true) c hc
  · exact hserver c hc
  · exact all_eq_true.mp (by decide : mcpToolSeparator.all isWire = true) c hc
  · exact htool c hc

theorem take_mcpToolName {n : Nat} (h : 7 + serverId.length ≤ n) :
    (mcpToolName serverId toolId).take n =
      mcpToolName serverId (toolId.take (n - (7 + serverId.length))) := by
  have hassoc : ∀ toolId, mcpToolName serverId toolId =
      (mcpToolPrefix ++ (serverId ++ mcpToolSeparator)) ++ toolId := by
    intro toolId
    simp only [mcpToolName, append_assoc]
  have hlength : (mcpToolPrefix ++ (serverId ++ mcpToolSeparator)).length = 7 + serverId.length := by
    simp only [mcpToolPrefix, mcpToolSeparator, length_append, length_cons, length_nil]
    omega
  rw [hassoc, hassoc, take_append, hlength, take_of_length_le (by omega)]

/-- A name keeps its server when a suffix is put in place of its end. -/
theorem Named.suffixed {suffix : List Char} (h : Named serverId name) (hne : suffix ≠ [])
    (hwire : ∀ c ∈ suffix, isWire c = true) (hlength : 7 + serverId.length + suffix.length ≤ 64) :
    Named serverId (suffixed name suffix) := by
  obtain ⟨toolId, -, rfl⟩ := h.exists_tool
  have hcut : Mcp.suffixed (mcpToolName serverId toolId) suffix =
      mcpToolName serverId
        (toolId.take (64 - suffix.length - (7 + serverId.length)) ++ suffix) := by
    have hpos : (0 : Int) ≤ mcpToolNameMaxLength - suffix.length := by
      rw [mcpToolNameMaxLength]
      omega
    have hnat : ((mcpToolNameMaxLength : Int) - suffix.length).toNat = 64 - suffix.length := by
      rw [mcpToolNameMaxLength]
      omega
    rw [Mcp.suffixed, upTo, if_pos hpos, hnat, take_mcpToolName (by omega)]
    simp only [mcpToolName, append_assoc]
  have htool : ∀ c ∈ toolId, isWire c = true := fun c hc =>
    h.wire c (by simp only [mcpToolName, mem_append]; exact .inr (.inr (.inr hc)))
  have hserver : ∀ c ∈ serverId, isWire c = true := fun c hc =>
    h.wire c (by simp only [mcpToolName, mem_append]; exact .inr (.inl hc))
  refine ⟨⟨_, append_ne_nil_of_right_ne_nil _ hne, hcut⟩, ?_, ?_⟩
  · rw [hcut, length_mcpToolName, length_append, length_take]
    omega
  · rw [hcut]
    refine wire_mcpToolName hserver fun c hc => ?_
    rcases mem_append.mp hc with hc | hc
    · exact htool c (mem_of_mem_take hc)
    · exact hwire c hc

/-- **Reading a server back**: the rules see the identifier the name was made with. -/
theorem Named.target (hplain : Plain serverId) (h : Named serverId name) :
    ∃ toolId, mcpTargetFromToolName (String.ofList name) =
      some (String.ofList serverId, String.ofList toolId) := by
  obtain ⟨toolId, hne, rfl⟩ := h.exists_tool
  refine ⟨toolId, ?_⟩
  have hstart : Permissions.startsWith (String.ofList (mcpToolName serverId toolId)) "mcp__" =
      true := by
    rw [Permissions.startsWith, String.toList_ofList, String.toList_ofList, isPrefixOf_iff_prefix]
    exact prefix_append mcpToolPrefix _
  have hdrop : (String.ofList (mcpToolName serverId toolId)).toList.drop 5 =
      serverId ++ (mcpToolSeparator ++ toolId) := by
    rw [String.toList_ofList]
    rfl
  rw [mcpTargetFromToolName, if_pos hstart, hdrop]
  have hcut : Text.cut? ['_', '_'] (serverId ++ (mcpToolSeparator ++ toolId)) =
      some (serverId, toolId) :=
    Text.cut?_append (cons_ne_nil _ _) toolId hplain.uncut
  simp only [hcut, hplain.ne_nil, hne, or_self, if_false]

/-- Plain identifiers with a name in common are the same. -/
theorem Named.unique {a b : List Char} (hpa : Plain a) (hpb : Plain b) (ha : Named a name)
    (hb : Named b name) : a = b := by
  obtain ⟨_, hta⟩ := ha.target hpa
  obtain ⟨_, htb⟩ := hb.target hpb
  rw [hta, Option.some.injEq, Prod.mk.injEq] at htb
  exact String.ofList_injective htb.1

/-! ### The names of one server -/

theorem map_sanitized {text : List Char} (h : ∀ c ∈ text, isWire c = true) :
    (text.map fun c => if isWire c then c else '_') = text := by
  refine (map_congr_left fun c hc => ?_).trans (map_id text)
  rw [h c hc]
  rfl

theorem named_candidate (hplain : Plain serverId) (toolId : List Char) :
    Named serverId (candidate serverId toolId) := by
  obtain ⟨tool, hne, hcandidate⟩ : ∃ tool, tool ≠ [] ∧
      candidate serverId toolId = sanitizeMcpToolName (mcpToolName serverId tool) := by
    refine ⟨_, ?_, rfl⟩
    split
    · exact cons_ne_nil _ _
    · next h => exact h
  -- the tool with its characters replaced; the rest of the name stays
  let tool' := tool.map fun c => if isWire c then c else '_'
  have hne' : tool' ≠ [] := fun h => hne (map_eq_nil_iff.mp h)
  have hwire' : ∀ c ∈ tool', isWire c = true := by
    intro c hc
    obtain ⟨d, -, rfl⟩ := mem_map.mp hc
    split
    · next hd => exact hd
    · decide
  have hsanitized : ((mcpToolName serverId tool).map fun c => if isWire c then c else '_') =
      mcpToolName serverId tool' := by
    rw [mcpToolName, map_append, map_append, map_append, map_sanitized hplain.wire]
    rfl
  rw [hcandidate, sanitizeMcpToolName, hsanitized]
  by_cases hshort : (mcpToolName serverId tool').length ≤ mcpToolNameMaxLength
  · rw [if_pos hshort]
    exact ⟨⟨tool', hne', rfl⟩, hshort, wire_mcpToolName hplain.wire hwire'⟩
  · have hsplit : splitPrefix (mcpToolName serverId tool') =
        (mcpToolPrefix ++ (serverId ++ mcpToolSeparator), tool') := by
      have hpre : mcpToolPrefix.isPrefixOf (mcpToolName serverId tool') = true :=
        isPrefixOf_iff_prefix.mpr (prefix_append _ _)
      have hcut : Text.cut? mcpToolSeparator (serverId ++ (mcpToolSeparator ++ tool')) =
          some (serverId, tool') := Text.cut?_append (cons_ne_nil _ _) tool' hplain.uncut
      rw [splitPrefix, if_pos hpre, mcpToolName, drop_left, hcut]
    have hlength : (mcpToolPrefix ++ (serverId ++ mcpToolSeparator)).length =
        7 + serverId.length := by
      simp only [mcpToolPrefix, mcpToolSeparator, length_append, length_cons, length_nil]
      omega
    have hle := hplain.length_le
    have hbudget : ¬ (mcpToolNameMaxLength : Int) - (7 + serverId.length : Nat) ≤ 0 := by
      rw [mcpToolNameMaxLength]
      omega
    have hpos : 0 < ((mcpToolNameMaxLength : Int) - (7 + serverId.length : Nat)).toNat := by
      omega
    rw [if_neg hshort, hsplit]
    simp only [hlength, if_neg hbudget]
    generalize hn : ((mcpToolNameMaxLength : Int) - (7 + serverId.length : Nat)).toNat = n at hpos ⊢
    have heq : mcpToolPrefix ++ (serverId ++ mcpToolSeparator) ++ tool'.take n =
        mcpToolName serverId (tool'.take n) := by
      simp only [mcpToolName, append_assoc]
    rw [heq]
    refine ⟨⟨tool'.take n, ?_, rfl⟩, ?_, wire_mcpToolName hplain.wire fun c hc =>
      hwire' c (mem_of_mem_take hc)⟩
    · rw [ne_eq, take_eq_nil_iff, not_or]
      exact ⟨hpos.ne', hne'⟩
    · rw [length_mcpToolName, length_take]
      rw [mcpToolNameMaxLength] at hn
      omega

/-- The number of a numbered name is what follows its last underscore. -/
theorem numbered_injective (base : List Char) : Function.Injective (numbered base) := by
  have hdigits : ∀ n, (numbered base n).reverse.takeWhile (· ≠ '_') =
      (Nat.toDigits 10 n).reverse := by
    intro n
    have hnone : ∀ c ∈ (Nat.toDigits 10 n).reverse, decide (c ≠ '_') = true := by
      intro c hc
      rw [mem_reverse] at hc
      refine decide_eq_true fun h => ?_
      rw [h] at hc
      exact Nat.underscore_not_in_toDigits hc
    rw [numbered, suffixed, reverse_append, reverse_cons, append_assoc,
      takeWhile_append_of_pos hnone, singleton_append, takeWhile_cons_of_neg
        (by decide), append_nil]
  intro m n h
  have hrev : (Nat.toDigits 10 m).reverse = (Nat.toDigits 10 n).reverse := by
    rw [← hdigits m, ← hdigits n, h]
  have heq := congrArg (fun ds => Nat.ofDigitChars 10 ds 0) (reverse_injective hrev)
  simpa only [Nat.ofDigitChars_ten_toDigits] using heq

/-- A clashing name gets a free name of the same server. -/
theorem renamed_spec (hplain : Plain serverId) {digest : HexDigest 40} {taken : List (List Char)}
    (h : Named serverId name) (htaken : taken.length < 10 ^ 24 - 2) :
    renamed digest name taken ∉ taken ∧ Named serverId (renamed digest name taken) := by
  have hle := hplain.length_le
  have hbase : Named serverId (suffixed name ('_' :: digest.text.take 8)) := by
    refine h.suffixed (cons_ne_nil _ _) ?_ ?_
    · intro c hc
      rcases mem_cons.mp hc with rfl | hc
      · decide
      · exact isWire_of_hex (digest.isHexDigit_of_mem_take hc)
    · rw [length_cons, length_take]
      omega
  rw [renamed]
  split
  · next hmem =>
    obtain ⟨hfree, n, hn, heq⟩ := @Fresh.firstFree_spec _ _ taken _
      (numbered_injective (suffixed name ('_' :: digest.text.take 8))) 2
    refine ⟨hfree, ?_⟩
    rw [heq]
    have hdigits : (Nat.toDigits 10 n).length ≤ 24 :=
      (Nat.length_toDigits_le_iff (by decide) (by decide)).mpr (by omega)
    refine hbase.suffixed (cons_ne_nil _ _) ?_ ?_
    · intro c hc
      rcases mem_cons.mp hc with rfl | hc
      · decide
      · exact isWire_digits hc
    · rw [length_cons]
      omega
  · next hfree => exact ⟨hfree, hbase⟩

/-- So many tools of one server have names that hold the server. -/
def mostTools : Nat := 10 ^ 23

theorem chooses_renamed (hplain : Plain serverId) (digest : Nat → HexDigest 40) :
    Fresh.Chooses (fun i name taken => renamed (digest i) name taken)
      (fun _ name => Named serverId name) (fun _ name => Named serverId name) (10 ^ 24 - 2) :=
  fun _ _ _ hname htaken => renamed_spec hplain hname htaken

/-- **The names of one server**: one for each tool, all distinct, and all of the server. -/
theorem finalNamesFor_spec (H : Hashes) (hplain : Plain serverId) {tools : List (List Char)}
    (htools : tools.length < mostTools) :
    (finalNamesFor H serverId tools).length = tools.length ∧
      (finalNamesFor H serverId tools).Nodup ∧
      ∀ name ∈ finalNamesFor H serverId tools, Named serverId name := by
  let raw (i : Nat) := mcpToolName serverId (tools.getD i [])
  let candidates := tools.map (candidate serverId)
  let indices := collisions raw (· ≤ ·) candidates
  have hchoose := chooses_renamed hplain fun i => H.sha1 (raw i)
  have hperm : indices.Perm (Fresh.clashing candidates) := perm_insertionSort _ _
  have hnamed : ∀ name ∈ candidates, Named serverId name := by
    intro name hname
    obtain ⟨tool, -, rfl⟩ := mem_map.mp hname
    exact named_candidate hplain tool
  have hP : ∀ j ∈ indices, ∀ name, candidates[j]? = some name → Named serverId name :=
    fun j _ name hname => hnamed name (mem_of_getElem? hname)
  have hlength : candidates.length = tools.length := length_map _
  have hindices : indices.length ≤ tools.length := by
    calc indices.length = (Fresh.clashing candidates).length := hperm.length_eq
      _ ≤ (List.range candidates.length).length := length_filter_le _ _
      _ = tools.length := by rw [length_range, hlength]
  have hbound : candidates.length + indices.length ≤ 10 ^ 24 - 2 := by
    rw [hlength]
    rw [mostTools] at htools
    omega
  refine ⟨?_, Fresh.reassign_nodup hchoose hperm hP hbound, ?_⟩
  · exact (Fresh.length_reassign _ _ _).trans hlength
  · intro name hname
    obtain ⟨j, hj, rfl⟩ := getElem_of_mem hname
    have hj' : j < candidates.length := by
      rwa [finalNamesFor, Fresh.length_reassign] at hj
    by_cases hmem : j ∈ indices
    · obtain ⟨new, hnew, -, hQ⟩ := Fresh.exists_reassign_eq hchoose
        (hperm.nodup_iff.mpr (Fresh.nodup_clashing _)) hmem hj' hP hbound
      have heq : (finalNamesFor H serverId tools)[j] = new :=
        Option.some.inj ((getElem?_eq_getElem hj).symm.trans hnew)
      rw [heq]
      exact hQ
    · have heq : (finalNamesFor H serverId tools)[j]? = candidates[j]? :=
        Fresh.getElem?_reassign_of_notMem hmem
      rw [getElem?_eq_getElem hj] at heq
      exact hnamed _ (mem_of_getElem? heq.symm)

/-! ### Aliases -/

/-- The alias of a server, where no two aliases collide. -/
def aliasOf (H : Hashes) (serverId : List Char) : List Char :=
  if ambiguous serverId then saltedAlias H serverId else serverId

/-- No salted alias is the alias of another server. -/
def NoAliasCollision (H : Hashes) (ids : List (List Char)) : Prop :=
  ∀ a ∈ ids, ambiguous a = true → ∀ b ∈ ids, aliasOf H a = aliasOf H b → a = b

theorem aliasOf_injective {H : Hashes} (h : NoAliasCollision H ids) {a b : List Char}
    (ha : a ∈ ids) (hb : b ∈ ids) (heq : aliasOf H a = aliasOf H b) : a = b := by
  by_cases hamb : ambiguous a = true
  · exact h a ha hamb b hb heq
  · by_cases hbmb : ambiguous b = true
    · exact (h b hb hbmb a ha heq.symm).symm
    · rwa [aliasOf, if_neg hamb, aliasOf, if_neg hbmb] at heq

theorem plain_aliasOf {H : Hashes} (server : McpServerConfig H) : Plain (aliasOf H server.id) := by
  rw [aliasOf]
  split
  · exact plain_saltedAlias H server.id
  · next h => exact plain_of_not_ambiguous server (Bool.eq_false_iff.mpr h)

/-- The aliases so far are those of the servers in `done`. -/
structure AliasesFor (H : Hashes) (done : List (List Char)) (aliases : Aliases) : Prop where
  keys : ∀ id, id ∈ Assoc.keys aliases ↔ id ∈ done
  value : ∀ p ∈ aliases, p.2 = aliasOf H p.1

theorem AliasesFor.get? {H : Hashes} {aliases : Aliases} (h : AliasesFor H done aliases)
    (hid : id ∈ done) : aliases.get? id = some (aliasOf H id) := by
  cases hget : aliases.get? id with
  | none => exact absurd ((h.keys id).mpr hid) (Assoc.get?_eq_none_iff.mp hget)
  | some v =>
    rw [Option.some.injEq]
    exact h.value _ (Assoc.mem_of_get? hget)

theorem AliasesFor.add {H : Hashes} {aliases : Aliases} (hsalt : NoAliasCollision H ids)
    (hdone : ∀ id ∈ done, id ∈ ids) (h : AliasesFor H done aliases) (hid : id ∈ ids)
    (hamb : ambiguous id = true) (hnew : id ∉ done) :
    AliasesFor H (done ++ [id]) (addAlias H aliases id) := by
  have hunused : saltedAlias H id ∉ aliases.map Prod.snd := by
    intro hmem
    obtain ⟨p, hp, heq⟩ := mem_map.mp hmem
    have hkey : p.1 ∈ done := (h.keys _).mp (mem_map_of_mem hp)
    have hsame : aliasOf H id = aliasOf H p.1 := by
      rw [← h.value p hp, heq, aliasOf, if_pos hamb]
    exact hnew (hsalt id hid hamb _ (hdone _ hkey) hsame ▸ hkey)
  have hadd : addAlias H aliases id = aliases.set id (saltedAlias H id) := by
    rw [addAlias]
    simp only [if_neg hunused]
  have hkeys : id ∉ Assoc.keys aliases := fun hmem => hnew ((h.keys id).mp hmem)
  rw [hadd, Assoc.set_of_not_mem hkeys]
  refine ⟨fun k => ?_, fun p hp => ?_⟩
  · rw [Assoc.keys, map_append, mem_append, mem_append, ← Assoc.keys, h.keys]
    rfl
  · rcases mem_append.mp hp with hp | hp
    · exact h.value p hp
    · rw [mem_singleton.mp hp, aliasOf, if_pos hamb]

theorem nodup_eraseDups (l : List (List Char)) : l.eraseDups.Nodup := by
  induction hn : l.length using Nat.strong_induction_on generalizing l with
  | _ n ih =>
    cases l with
    | nil => exact nodup_nil
    | cons a as =>
      rw [eraseDups_cons, nodup_cons]
      refine ⟨by simp [mem_eraseDups], ih _ ?_ _ rfl⟩
      rw [← hn, length_cons]
      exact Nat.lt_succ_of_le (length_filter_le _ _)

/-- Without collisions each server has its own alias. -/
theorem aliasesOf_get? {H : Hashes} (hnodup : ids.Nodup) (hsalt : NoAliasCollision H ids)
    (hid : id ∈ ids) : (aliasesOf H ids).get? id = some (aliasOf H id) := by
  have hrun : ∀ (todo done : List (List Char)) (aliases : Aliases), AliasesFor H done aliases →
      (∀ id ∈ done ++ todo, id ∈ ids) → (∀ id ∈ todo, ambiguous id = true) →
      (done ++ todo).Nodup → AliasesFor H (done ++ todo) (todo.foldl (addAlias H) aliases) := by
    intro todo
    induction todo with
    | nil => exact fun done aliases h _ _ _ => by rwa [append_nil]
    | cons next todo ih =>
      intro done aliases h hids hamb hnd
      have hnext : next ∉ done := fun hmem =>
        (nodup_append.mp hnd).2.2 next hmem next mem_cons_self rfl
      have hadd := h.add hsalt (fun id hid => hids id (mem_append_left _ hid))
        (hids next (mem_append_right _ mem_cons_self))
        (hamb next mem_cons_self) hnext
      have hassoc : done ++ next :: todo = (done ++ [next]) ++ todo := by simp
      rw [hassoc] at hids hnd ⊢
      exact ih _ _ hadd hids (fun id hid => hamb id (mem_cons_of_mem _ hid)) hnd
  let plain := ids.filter (!ambiguous ·)
  let todo := (ids.insertionSort (· ≤ ·)).filter ambiguous
  have hplain : AliasesFor H plain (plain.map fun id => (id, id)) := by
    refine ⟨fun k => ?_, fun p hp => ?_⟩
    · rw [Assoc.keys, map_map]
      simp
    · obtain ⟨k, hk, rfl⟩ := mem_map.mp hp
      have hk' := (mem_filter.mp hk).2
      rw [aliasOf, if_neg (by simpa using hk')]
  have hsorted : (ids.insertionSort (· ≤ ·)).Perm ids := perm_insertionSort _ _
  have hmem : ∀ id, id ∈ plain ++ todo ↔ id ∈ ids := by
    intro id
    rw [mem_append, mem_filter, mem_filter, hsorted.mem_iff]
    cases ambiguous id <;> simp
  have hnd : (plain ++ todo).Nodup := by
    rw [nodup_append]
    refine ⟨hnodup.filter _, (hsorted.nodup_iff.mpr hnodup).filter _, fun a ha b hb => ?_⟩
    rintro rfl
    have h1 := (mem_filter.mp ha).2
    have h2 := (mem_filter.mp hb).2
    rw [h2] at h1
    cases h1
  exact (hrun todo plain _ hplain (fun id hid => (hmem id).mp hid)
    (fun id hid => (mem_filter.mp hid).2) hnd).get? ((hmem id).mpr hid)

/-! ### The names of all servers -/

section

variable {H : Hashes} {exposed : List (McpExposedTool H)}

variable {i : Nat} {t : McpExposedTool H}

theorem mem_serverIds (ht : exposed[i]? = some t) : t.server.id ∈ serverIds exposed := by
  rw [serverIds, mem_eraseDups]
  exact mem_map_of_mem (mem_of_getElem? ht)

theorem mem_indicesOf :
    i ∈ indicesOf exposed serverId ↔ ∃ t, exposed[i]? = some t ∧ t.server.id = serverId := by
  rw [indicesOf, mem_filter, List.mem_range, Option.any_eq_true]
  constructor
  · rintro ⟨-, t, ht, hid⟩
    exact ⟨t, ht, of_decide_eq_true hid⟩
  · rintro ⟨t, ht, hid⟩
    exact ⟨(List.getElem?_eq_some_iff.mp ht).1, t, ht, decide_eq_true hid⟩

theorem nodup_indicesOf (serverId : List Char) : (indicesOf exposed serverId).Nodup :=
  nodup_range.filter _

theorem length_toolsOf (serverId : List Char) :
    (toolsOf exposed serverId).length = (indicesOf exposed serverId).length := by
  have hall : ∀ i ∈ indicesOf exposed serverId,
      ((exposed[i]?).map (·.toolId)).isSome = true := by
    intro i hi
    obtain ⟨t, ht, -⟩ := mem_indicesOf.mp hi
    rw [ht]
    rfl
  rw [toolsOf, length_filterMap_eq_countP, countP_eq_length.mpr hall]

theorem length_toolsOf_le (serverId : List Char) :
    (toolsOf exposed serverId).length ≤ exposed.length := by
  rw [length_toolsOf]
  exact (length_filter_le _ _).trans_eq length_range

/-- What is assumed of the tools: the salted aliases do not collide, and no server has more tools
than there are numbers for; discovery stops at 10,000. -/
structure Manageable (exposed : List (McpExposedTool H)) : Prop where
  aliases : NoAliasCollision H (serverIds exposed)
  tools : ∀ serverId, (toolsOf exposed serverId).length < mostTools

/-- The names of a server's tools, under its alias. -/
def namesOf (exposed : List (McpExposedTool H)) (serverId : List Char) : List (List Char) :=
  finalNamesFor H (aliasOf H serverId) (toolsOf exposed serverId)

section

variable (h : Manageable exposed)
include h

theorem Manageable.namesOf_spec (server : McpServerConfig H) :
    (namesOf exposed server.id).length = (indicesOf exposed server.id).length ∧
      (namesOf exposed server.id).Nodup ∧
      ∀ name ∈ namesOf exposed server.id, Named (aliasOf H server.id) name := by
  have hspec := finalNamesFor_spec H (plain_aliasOf server) (h.tools server.id)
  rw [← length_toolsOf]
  exact hspec

theorem placeServer_eq (names : List (List Char)) (hid : serverId ∈ serverIds exposed) :
    placeServer exposed (aliasesOf H (serverIds exposed)) names serverId =
      Fresh.place names (indicesOf exposed serverId) (namesOf exposed serverId) := by
  have hnames : (exposedToolNamesFor H (aliasOf H serverId) (toolsOf exposed serverId)).map
      Prod.snd = namesOf exposed serverId := by
    refine map_snd_zip ?_
    rw [finalNamesFor, Fresh.length_reassign, length_map, length_map]
  have hnodup : (serverIds exposed).Nodup := nodup_eraseDups _
  rw [placeServer, aliasesOf_get? hnodup h.aliases hid, Option.getD_some, hnames]

theorem serverNames_getElem? {k : Nat} (ht : exposed[i]? = some t)
    (hk : (indicesOf exposed t.server.id)[k]? = some i) :
    (serverNames exposed)[i]? = (namesOf exposed t.server.id)[k]? := by
  have hi : i < exposed.length := (List.getElem?_eq_some_iff.mp ht).1
  -- the last server that writes to the place is the tool's own
  have hrun : ∀ (ids : List (List Char)) (names : List (List Char)),
      (∀ id ∈ ids, id ∈ serverIds exposed) → i < names.length →
      (ids.foldl (placeServer exposed (aliasesOf H (serverIds exposed))) names)[i]? =
        if t.server.id ∈ ids then (namesOf exposed t.server.id)[k]? else names[i]? := by
    intro ids
    induction ids with
    | nil => exact fun names _ _ => rfl
    | cons id ids ih =>
      intro names hids hlt
      have hid := hids id mem_cons_self
      rw [foldl_cons, placeServer_eq h names hid,
        ih _ (fun id hid => hids id (mem_cons_of_mem _ hid))
          (by rw [Fresh.length_place]; exact hlt)]
      by_cases hmem : t.server.id ∈ ids
      · rw [if_pos hmem, if_pos (mem_cons_of_mem _ hmem)]
      · rw [if_neg hmem]
        by_cases hown : t.server.id = id
        · subst hown
          rw [if_pos mem_cons_self]
          exact Fresh.getElem?_place (nodup_indicesOf _) (h.namesOf_spec t.server).1 hk hlt
        · have hother : i ∉ indicesOf exposed id := by
            intro hmem'
            obtain ⟨u, hu, hid'⟩ := mem_indicesOf.mp hmem'
            rw [ht, Option.some.injEq] at hu
            exact hown (hu ▸ hid')
          have hnot : ¬ t.server.id ∈ id :: ids := by
            rw [mem_cons, not_or]
            exact ⟨hown, hmem⟩
          rw [if_neg hnot, Fresh.getElem?_place_of_notMem hother]
  rw [serverNames, hrun (serverIds exposed) _ (fun _ hid => hid)
    (by rw [length_replicate]; exact hi), if_pos (mem_serverIds ht)]

theorem length_serverNames :
    (serverNames exposed).length = exposed.length := by
  have hrun : ∀ (ids : List (List Char)) (names : List (List Char)),
      (∀ id ∈ ids, id ∈ serverIds exposed) →
      (ids.foldl (placeServer exposed (aliasesOf H (serverIds exposed))) names).length =
        names.length := by
    intro ids
    induction ids with
    | nil => exact fun _ _ => rfl
    | cons id ids ih =>
      intro names hids
      rw [foldl_cons, ih _ fun id hid => hids id (mem_cons_of_mem _ hid),
        placeServer_eq h names (hids id mem_cons_self), Fresh.length_place]
  rw [serverNames, hrun _ _ fun _ hid => hid, length_replicate]

theorem exists_serverNames_eq (ht : exposed[i]? = some t) :
    ∃ (k : Nat) (name : List Char), (indicesOf exposed t.server.id)[k]? = some i ∧
      (namesOf exposed t.server.id)[k]? = some name ∧ (serverNames exposed)[i]? = some name ∧
      Named (aliasOf H t.server.id) name := by
  obtain ⟨k, hk⟩ := getElem?_of_mem (mem_indicesOf.mpr ⟨t, ht, rfl⟩)
  obtain ⟨hlength, -, hnamed⟩ := h.namesOf_spec t.server
  have hlt : k < (namesOf exposed t.server.id).length := by
    rw [hlength]
    exact (List.getElem?_eq_some_iff.mp hk).1
  have hname := getElem?_eq_getElem hlt
  exact ⟨k, _, hk, hname, (serverNames_getElem? h ht hk).trans hname, hnamed _ (getElem_mem hlt)⟩

/-- The names of different servers do not clash. -/
theorem nodup_serverNames : (serverNames exposed).Nodup := by
  rw [nodup_iff_getElem?_ne_getElem?]
  intro i j hij hj heq
  rw [length_serverNames h] at hj
  have hi : i < exposed.length := hij.trans hj
  obtain ⟨k, name, hk, hkname, hiname, hnamed⟩ :=
    exists_serverNames_eq h (getElem?_eq_getElem hi)
  obtain ⟨l, name', hl, hlname, hjname, hnamed'⟩ :=
    exists_serverNames_eq h (getElem?_eq_getElem hj)
  rw [hiname, hjname, Option.some.injEq] at heq
  subst heq
  have halias := hnamed.unique (plain_aliasOf _) (plain_aliasOf _) hnamed'
  have hserver := aliasOf_injective h.aliases (mem_serverIds (getElem?_eq_getElem hi))
    (mem_serverIds (getElem?_eq_getElem hj)) halias
  rw [← hserver] at hl hlname
  -- one server, one name: one place in its list, and so one index
  have hkl : k = l := by
    have hlt := (List.getElem?_eq_some_iff.mp hkname).1
    exact (getElem?_inj hlt (h.namesOf_spec _).2.1).mp (hkname.trans hlname.symm)
  rw [hkl, hl, Option.some.injEq] at hk
  omega

/-- The second round of renaming has nothing to do. -/
theorem finalNames_eq : finalNames exposed = serverNames exposed := by
  rw [finalNames, collisions, Fresh.clashing_eq_nil (nodup_serverNames h), insertionSort_nil]
  rfl

end

/-! ### Permissions -/

/-- The server that permission matching reads from a name. -/
def serverPart (name : List Char) : Option String :=
  (mcpTargetFromToolName (String.ofList name)).map Prod.fst

/-- The rule allows a call of the tool with the name. -/
def covers (casefold : String → String) (rule : PermissionRule) (name : List Char)
    (inputs : Json.Dict) : Bool :=
  (permissionRequestForTool (String.ofList name) inputs).any (rule.matches casefold)

theorem exposedToolNames_getElem? (h : Manageable exposed) {p : List Char × List Char}
    (ht : exposed[i]? = some t) (hp : (exposedToolNames exposed)[i]? = some p) :
    Named (aliasOf H t.server.id) p.2 := by
  obtain ⟨-, name, -, -, hname, hnamed⟩ := exists_serverNames_eq h ht
  rw [exposedToolNames, finalNames_eq h, getElem?_zip_eq_some] at hp
  rw [hname, Option.some.injEq] at hp
  exact hp.2 ▸ hnamed

theorem map_snd_exposedToolNames (h : Manageable exposed) :
    (exposedToolNames exposed).map Prod.snd = serverNames exposed := by
  rw [exposedToolNames, finalNames_eq h]
  refine map_snd_zip ?_
  rw [length_serverNames h, length_map]

theorem request_named (hplain : Plain serverId) (hname : Named serverId name) (inputs : Json.Dict) :
    ∃ toolId, permissionRequestForTool (String.ofList name) inputs =
      some { kind := .mcp, toolName := String.ofList name, inputs
             mcpServer := String.ofList serverId, mcpTool := String.ofList toolId } := by
  obtain ⟨toolId, htarget⟩ := hname.target hplain
  obtain ⟨tool, -, rfl⟩ := hname.exists_tool
  refine ⟨toolId, ?_⟩
  have hstart : mcpToolName serverId tool =
      'm' :: 'c' :: 'p' :: '_' :: '_' :: (serverId ++ (mcpToolSeparator ++ tool)) := rfl
  rw [hstart] at htarget ⊢
  rw [Permissions.permissionRequestForTool_mcp, htarget]
  rfl

/-- What a rule that covers a tool says of it, unless it covers every tool. -/
theorem covers_named {casefold : String → String} {rule : PermissionRule}
    (hrule : rule.matchType = .tool → rule.pattern ≠ "*") (hplain : Plain serverId)
    (hname : Named serverId name) {inputs : Json.Dict}
    (hcovers : covers casefold rule name inputs = true) :
    rule.matchType = .tool ∧ rule.pattern = String.ofList name ∨
      rule.matchType = .server ∧ rule.pattern = String.ofList serverId := by
  obtain ⟨toolId, hrequest⟩ := request_named hplain hname inputs
  rw [covers, hrequest, Option.any_some, PermissionRule.matches] at hcovers
  split at hcovers
  · cases hcovers
  · next hkind =>
    rw [ne_eq, not_not] at hkind
    split at hcovers
    · cases hcovers
    · rw [hkind] at hcovers
      simp only [Permissions.matchesMcp] at hcovers
      split at hcovers
      · next htool =>
        rw [Bool.or_eq_true, decide_eq_true_eq, decide_eq_true_eq] at hcovers
        exact .inl ⟨htool, hcovers.resolve_left (hrule htool)⟩
      · next hserver =>
        rw [Bool.and_eq_true, decide_eq_true_eq, decide_eq_true_eq] at hcovers
        exact .inr ⟨hserver, hcovers.2.symm⟩
      · cases hcovers

/-- **MCP tool identities are unambiguous**: every tool gets a wire name, all names are distinct, the
server is read back from each, and it is the same for two tools only if they are of one server; so a
rule that is not for every tool covers no tools of two servers. -/
theorem exposedToolNames_unambiguous {H : Hashes} (exposed : List (McpExposedTool H))
    (hsalt : NoAliasCollision H (serverIds exposed))
    (htools : ∀ serverId, (toolsOf exposed serverId).length < mostTools) :
    (exposedToolNames exposed).length = exposed.length ∧
      (∀ p ∈ exposedToolNames exposed,
        1 ≤ p.2.length ∧ p.2.length ≤ 64 ∧ ∀ c ∈ p.2, isWire c = true) ∧
      ((exposedToolNames exposed).map Prod.snd).Nodup ∧
      ∀ (i j : Nat) (t u : McpExposedTool H) (p q : List Char × List Char),
        exposed[i]? = some t → exposed[j]? = some u →
        (exposedToolNames exposed)[i]? = some p → (exposedToolNames exposed)[j]? = some q →
          (serverPart p.2).isSome ∧
          (serverPart p.2 = serverPart q.2 → t.server.id = u.server.id) ∧
          ∀ (casefold : String → String) (rule : PermissionRule) (inputs inputs' : Json.Dict),
            (rule.matchType = .tool → rule.pattern ≠ "*") →
            covers casefold rule p.2 inputs = true → covers casefold rule q.2 inputs' = true →
            t.server.id = u.server.id := by
  have h : Manageable exposed := ⟨hsalt, htools⟩
  have hlength : (exposedToolNames exposed).length = exposed.length := by
    rw [← length_map Prod.snd, map_snd_exposedToolNames h, length_serverNames h]
  refine ⟨hlength, ?_, ?_, ?_⟩
  · intro p hp
    obtain ⟨i, hi, hpi⟩ := getElem_of_mem hp
    have ht := getElem?_eq_getElem (hlength ▸ hi)
    have hnamed := exposedToolNames_getElem? h ht
      ((getElem?_eq_getElem hi).trans (congrArg some hpi))
    obtain ⟨tool, -, hname⟩ := hnamed.exists_tool
    refine ⟨?_, hnamed.length_le, hnamed.wire⟩
    rw [hname, length_mcpToolName]
    omega
  · rw [map_snd_exposedToolNames h]
    exact nodup_serverNames h
  · intro i j t u p q ht hu hp hq
    have hpname := exposedToolNames_getElem? h ht hp
    have hqname := exposedToolNames_getElem? h hu hq
    have hsame : aliasOf H t.server.id = aliasOf H u.server.id → t.server.id = u.server.id :=
      aliasOf_injective hsalt (mem_serverIds ht) (mem_serverIds hu)
    have hpart : ∀ {server : McpServerConfig H} {name : List Char},
        Named (aliasOf H server.id) name →
        serverPart name = some (String.ofList (aliasOf H server.id)) := by
      intro server name hname
      obtain ⟨_, htarget⟩ := hname.target (plain_aliasOf server)
      rw [serverPart, htarget]
      rfl
    refine ⟨?_, ?_, ?_⟩
    · rw [hpart hpname]
      rfl
    · rw [hpart hpname, hpart hqname, Option.some.injEq]
      exact fun heq => hsame (String.ofList_injective heq)
    · intro casefold rule inputs inputs' hrule hcp hcq
      rcases covers_named hrule (plain_aliasOf _) hpname hcp with ⟨htype, hpat⟩ | ⟨htype, hpat⟩ <;>
        rcases covers_named hrule (plain_aliasOf _) hqname hcq with ⟨htype', hpat'⟩ | ⟨htype', hpat'⟩
      · -- one exact name, which only one server has
        have hname : p.2 = q.2 := String.ofList_injective (hpat.symm.trans hpat')
        rw [hname] at hpname
        exact hsame (hpname.unique (plain_aliasOf _) (plain_aliasOf _) hqname)
      · rw [htype] at htype'
        cases htype'
      · rw [htype] at htype'
        cases htype'
      · exact hsame (String.ofList_injective (hpat.symm.trans hpat'))

end

/-! ### Two servers, one with a separator in its identifier -/

/-- The digests of the texts below, with a salt of zeros. -/
def sampleHashes : Hashes where
  sha1 text :=
    if text = "mcp__docs__get.file".toList then
      ⟨"723079582f6ab334a2d2c6926d949e353f745c2f".toList, by decide, by decide⟩
    else ⟨"6a3e96e043680de947f79d685d0f695dacdd3362".toList, by decide, by decide⟩
  saltedSha256 _ :=
    ⟨"2ab0075da25e5e781c81d9efc64bf8b5903f8ec84c27b57ce3ba339b4076a908".toList, by decide, by decide⟩

def docs : McpServerConfig sampleHashes := ⟨"docs".toList, "docs".toList, by decide⟩

def docsAdmin : McpServerConfig sampleHashes :=
  ⟨"docs__admin".toList, "docs__admin".toList, by decide⟩

/-- Two tools of one server that clash, and one whose server is not what its name starts with. -/
def sampleTools : List (McpExposedTool sampleHashes) :=
  [⟨docs, "get.file".toList⟩, ⟨docs, "get_file".toList⟩, ⟨docsAdmin, "search".toList⟩]

theorem sampleTools_aliases : NoAliasCollision sampleHashes (serverIds sampleTools) := by
  unfold NoAliasCollision
  decide

theorem exposedToolNames_unambiguous_docs :
    NoAliasCollision sampleHashes (serverIds sampleTools) ∧
      ((exposedToolNames sampleTools).map Prod.snd).Nodup :=
  ⟨sampleTools_aliases,
    (exposedToolNames_unambiguous sampleTools sampleTools_aliases fun serverId =>
      (length_toolsOf_le serverId).trans_lt (by decide)).2.2.1⟩

example : (exposedToolNames sampleTools).map (fun p => String.ofList p.2) =
    ["mcp__docs__get_file_72307958", "mcp__docs__get_file_6a3e96e0",
      "mcp__s2ab0075da25e5e781c81d9ef__search"] := by
  decide

end KolegaCode.Mcp
