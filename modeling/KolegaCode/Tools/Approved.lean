import KolegaCode.Tools.Dispatch

/-!
# Tools — what is approved and what runs

The permission request of a call names a command or a path, and the handler receives one.  The
request is read from the inputs as they came, with an order of precedence of its own, and the
handler's from the inputs with their aliases resolved: they are the same exactly when the command is
not given under an alias alone, and a path not under two names that disagree.
-/

namespace KolegaCode.Tools

open List
open Json (Dict get?)
open Permissions (permissionRequestForTool pathFromEditInputs patchPath textOf given? strip)
open Session (truthy strOf)

/-! ### What is approved and what is received -/

/-- The text of a path argument. -/
def pathText (inputs : Dict) (key : String) : String :=
  ((given? inputs key).map fun v => strip (strOf v)).getD ""

/-- The command or path that the permission request carries. -/
def approved (b : Binding) (inputs : Dict) : String :=
  match permissionRequestForTool b.toolName inputs with
  | some request =>
    match request.kind with
    | .command => request.command
    | _ => request.path
  | none => ""

/-- The command or path that a handler receives, in the words of a request.  A call of `eval` has a
language besides its code, and a file that is moved a second path. -/
def Binding.target : Binding → Dict → String
  | .executeTerminalCommand, args | .execCommand, args => strip (textOf args "command")
  | .eval, args =>
    let language := strip (textOf args "language")
    "[" ++ (if language = "" then "?" else language) ++ "] " ++ strip (textOf args "code")
  | .edit, args | .multiEdit, args | .write, args | .hashlineWrite, args => pathText args "path"
  | .claudeEdit, args | .claudeWrite, args => pathText args "file_path"
  | .hashlineEdit, args =>
    if (get? args "rename").any truthy then
      pathText args "path" ++ " -> " ++ strip (textOf args "rename")
    else pathText args "path"
  | .lspEdit, args =>
    if get? args "operation" = some (.str "rename_file") ∧ (get? args "new_path").any truthy then
      pathText args "path" ++ " -> " ++ strip (textOf args "new_path")
    else pathText args "path"
  | .applyPatch, args => patchPath args
  | .resolve, _ => ""

/-- The command is given under its own name, or is blank; a path is not given under two names that
disagree. -/
def Binding.PlainlyNamed : Binding → Dict → Prop
  | .execCommand, inputs => hasKey inputs "command" ∨ strip (textOf inputs "cmd") = ""
  | .eval, inputs => hasKey inputs "code" ∨ strip (textOf inputs "command") = ""
  | .claudeWrite, inputs =>
    (given? inputs "path").isSome → hasKey inputs "file_path" →
      pathText inputs "path" = pathText inputs "file_path"
  | _, _ => True

/-! ### Resolved inputs -/

variable {name key aliasName k : String} {b : Binding} {d : Dict}

section

variable {toolName : String} {aliases : List (String × ParamAlias)} {inputs : Dict}
  {accepted : List String}

/-- Inputs without a name that is an alias for this handler are passed as they are. -/
theorem resolveParamAliases_self (hnodup : (inputs.map Prod.fst).Nodup)
    (hplain : ∀ p ∈ inputs, aliases.lookup p.1 = none ∨ p.1 ∈ accepted) :
    (resolveParamAliases toolName aliases inputs accepted).map Prod.fst = some inputs := by
  have hall : ∀ items : Dict, (∀ p ∈ items, aliases.lookup p.1 = none ∨ p.1 ∈ accepted) →
      resolveArguments toolName aliases inputs accepted items = some (items, []) := by
    intro items
    induction items with
    | nil => exact fun _ => rfl
    | cons p items ih =>
      intro h
      have hp : resolveArgument toolName aliases inputs accepted p.1 p.2 = some (some p, []) := by
        rw [resolveArgument]
        rcases h p mem_cons_self with hnone | hmem
        · rw [hnone]
        · cases aliases.lookup p.1 with
          | none => rfl
          | some entry =>
            simp only [if_pos hmem]
      rw [resolveArguments, hp, ih fun q hq => h q (mem_cons_of_mem _ hq)]
      rfl
  rw [resolveParamAliases]
  split
  · rfl
  · rw [hall inputs hplain, Option.map_some, Option.map_some, Json.dictOf_eq_self hnodup]

variable {hits : List AliasHit}

/-- The arguments are what the inputs are passed as. -/
theorem mem_resolveArguments {items : Dict} {arguments : List (String × Json)}
    {argument : String × Json}
    (h : resolveArguments toolName aliases inputs accepted items = some (arguments, hits)) :
    argument ∈ arguments ↔ ∃ p ∈ items, ∃ hits,
      resolveArgument toolName aliases inputs accepted p.1 p.2 = some (some argument, hits) := by
  induction items generalizing arguments hits with
  | nil =>
    cases h
    simp
  | cons p items ih =>
    rw [resolveArguments, Option.bind_eq_bind, Option.bind_eq_some_iff] at h
    obtain ⟨⟨first, hits₁⟩, hfirst, h⟩ := h
    rw [Option.bind_eq_bind, Option.bind_eq_some_iff] at h
    obtain ⟨⟨rest, hits₂⟩, hrest, h⟩ := h
    cases h
    rw [mem_append, ih hrest, Option.mem_toList]
    constructor
    · rintro (hmem | ⟨q, hq, hits, hq'⟩)
      · exact ⟨p, mem_cons_self, hits₁, hmem ▸ hfirst⟩
      · exact ⟨q, mem_cons_of_mem _ hq, hits, hq'⟩
    · rintro ⟨q, hq, hits, hq'⟩
      rcases mem_cons.mp hq with rfl | hq
      · rw [hfirst, Option.some.injEq, Prod.mk.injEq] at hq'
        exact .inl hq'.1
      · exact .inr ⟨q, hq, hits, hq'⟩

theorem resolveArgument_cases {value v : Json}
    (h : resolveArgument toolName aliases inputs accepted name value = some (some (key, v), hits)) :
    (key = name ∧ v = value ∧ (aliases.lookup name = none ∨ name ∈ accepted)) ∨
      ∃ entry, aliases.lookup name = some entry ∧ name ∉ accepted ∧
        entry.canonical = some key ∧ hasKey inputs key = false ∧
        (entry.transform = none → v = value) := by
  rw [resolveArgument] at h
  split at h
  · next hnone =>
    cases h
    exact .inl ⟨rfl, rfl, .inl hnone⟩
  · next entry hentry =>
    split at h
    · next hmem =>
      cases h
      exact .inl ⟨rfl, rfl, .inr hmem⟩
    · next hmem =>
      refine .inr ⟨entry, hentry, hmem, ?_⟩
      split at h
      · cases h
      · next canonical hcanonical =>
        split at h
        · cases h
        · next hkey =>
          split at h
          · next htransform =>
            cases h
            exact ⟨hcanonical, Bool.eq_false_iff.mpr hkey, fun _ => rfl⟩
          · next transform htransform =>
            split at h
            · cases h
              refine ⟨hcanonical, Bool.eq_false_iff.mpr hkey, fun hnone => ?_⟩
              rw [htransform] at hnone
              cases hnone
            · cases h
            · cases h

theorem resolveParamAliases_cases {resolved : Dict}
    (h : (resolveParamAliases toolName aliases inputs accepted).map Prod.fst = some resolved) :
    (resolved = inputs ∧ ∀ p ∈ aliases, hasKey inputs p.1 = false) ∨
      ∃ arguments hits, resolveArguments toolName aliases inputs accepted inputs =
        some (arguments, hits) ∧ resolved = Json.dictOf arguments := by
  rw [resolveParamAliases] at h
  split at h
  · next hall =>
    cases h
    rw [all_eq_true] at hall
    exact .inl ⟨rfl, fun p hp => by simpa using hall p hp⟩
  · rw [Option.map_map, Option.map_eq_some_iff] at h
    obtain ⟨⟨arguments, hits⟩, harguments, rfl⟩ := h
    exact .inr ⟨arguments, hits, harguments, rfl⟩

/-- A parameter that is given under its own name keeps its value. -/
theorem get?_resolved_own {resolved : Dict} (hnodup : (inputs.map Prod.fst).Nodup)
    (h : (resolveParamAliases toolName aliases inputs accepted).map Prod.fst = some resolved)
    {value : Json} (hvalue : get? inputs key = some value)
    (hown : aliases.lookup key = none ∨ key ∈ accepted) : get? resolved key = some value := by
  rcases resolveParamAliases_cases h with ⟨rfl, -⟩ | ⟨arguments, hits, harguments, rfl⟩
  · exact hvalue
  · have hself : resolveArgument toolName aliases inputs accepted key value =
        some (some (key, value), []) := by
      rw [resolveArgument]
      rcases hown with hnone | hmem
      · rw [hnone]
      · cases aliases.lookup key with
        | none => rfl
        | some entry => simp only [if_pos hmem]
    refine Json.get?_dictOf ?_ fun value' hvalue' => ?_
    · exact (mem_resolveArguments harguments).mpr
        ⟨(key, value), Json.mem_of_get? hvalue, [], hself⟩
    · obtain ⟨⟨name, v⟩, hp, _, hcase⟩ := (mem_resolveArguments harguments).mp hvalue'
      rcases resolveArgument_cases hcase with ⟨rfl, rfl, -⟩ | ⟨entry, -, -, -, hkey, -⟩
      · rw [Json.get?_of_mem hnodup hp, Option.some.injEq] at hvalue
        exact hvalue
      · rw [hasKey, hvalue] at hkey
        cases hkey

theorem mem_of_lookup {entry : ParamAlias} (h : aliases.lookup name = some entry) :
    (name, entry) ∈ aliases := by
  obtain ⟨l, l', rfl, -⟩ := lookup_eq_some_iff.mp h
  exact mem_append_right _ mem_cons_self

theorem get?_resolved_absent {resolved : Dict} (hnodup : (inputs.map Prod.fst).Nodup)
    (h : (resolveParamAliases toolName aliases inputs accepted).map Prod.fst = some resolved)
    (hkey : get? inputs key = none) (hno : ∀ p ∈ aliases, p.2.canonical ≠ some key) :
    get? resolved key = none := by
  rcases resolveParamAliases_cases h with ⟨rfl, -⟩ | ⟨arguments, hits, harguments, rfl⟩
  · exact hkey
  · cases hres : get? (Json.dictOf arguments) key with
    | none => rfl
    | some v =>
      obtain ⟨⟨name, value⟩, hp, _, hcase⟩ :=
        (mem_resolveArguments harguments).mp (Json.mem_of_get?_dictOf hres)
      rcases resolveArgument_cases hcase with ⟨rfl, -, -⟩ | ⟨entry, hentry, -, hcanon, -, -⟩
      · rw [Json.get?_of_mem hnodup hp] at hkey
        cases hkey
      · exact absurd hcanon (hno _ (mem_of_lookup hentry))

theorem get?_resolved_alias {resolved : Dict} (hnodup : (inputs.map Prod.fst).Nodup)
    (h : (resolveParamAliases toolName aliases inputs accepted).map Prod.fst = some resolved)
    (hkey : hasKey inputs key = false) (haccepted : aliasName ∉ accepted)
    (hlookup : aliases.lookup aliasName = some ⟨some key, none⟩)
    (honly : ∀ p ∈ aliases, p.2.canonical = some key → p.1 = aliasName) :
    get? resolved key = get? inputs aliasName := by
  have hnone : get? inputs key = none := by
    rwa [hasKey, Option.isSome_eq_false_iff, Option.isNone_iff_eq_none] at hkey
  rcases resolveParamAliases_cases h with ⟨rfl, hall⟩ | ⟨arguments, hits, harguments, rfl⟩
  · have hnone' := hall _ (mem_of_lookup hlookup)
    rw [hasKey, Option.isSome_eq_false_iff, Option.isNone_iff_eq_none] at hnone'
    rw [hnone, hnone']
  · -- whatever is passed under the parameter's name comes from the alias
    have hfrom : ∀ {v}, (key, v) ∈ arguments → get? inputs aliasName = some v := by
      intro v hv
      obtain ⟨⟨name, value⟩, hp, _, hcase⟩ := (mem_resolveArguments harguments).mp hv
      rcases resolveArgument_cases hcase with ⟨rfl, rfl, -⟩ | ⟨entry, hentry, -, hcanon, -, heq⟩
      · rw [Json.get?_of_mem hnodup hp] at hnone
        cases hnone
      · have hname := honly _ (mem_of_lookup hentry) hcanon
        subst hname
        rw [hlookup, Option.some.injEq] at hentry
        subst hentry
        rw [heq rfl]
        exact Json.get?_of_mem hnodup hp
    cases hget : get? inputs aliasName with
    | none =>
      cases hres : get? (Json.dictOf arguments) key with
      | none => rfl
      | some v =>
        rw [hfrom (Json.mem_of_get?_dictOf hres)] at hget
        cases hget
    | some v =>
      have hself : resolveArgument toolName aliases inputs accepted aliasName v =
          some (some (key, v), [⟨toolName, aliasName, "renamed to `" ++ key ++ "`"⟩]) := by
        rw [resolveArgument, hlookup]
        simp only [if_neg haccepted, hkey, Bool.false_eq_true, if_false]
      refine Json.get?_dictOf ?_ fun v' hv' => ?_
      · exact (mem_resolveArguments harguments).mpr
          ⟨(aliasName, v), Json.mem_of_get? hget, _, hself⟩
      · rw [hfrom hv', Option.some.injEq] at hget
        exact hget

end

/-! ### Reaching the handler -/

theorem hasKey_iff {inputs : Dict} : hasKey inputs name = true ↔ name ∈ inputs.map Prod.fst := by
  rw [hasKey, Option.isSome_iff_ne_none, ne_eq, Json.get?_eq_none_iff, not_not]

/-- The expansion of paths changes values only. -/
theorem keys_foldl {f : Dict → String → Dict}
    (hf : ∀ inputs name, (f inputs name).map Prod.fst = inputs.map Prod.fst) (names : List String)
    (inputs : Dict) : (names.foldl f inputs).map Prod.fst = inputs.map Prod.fst := by
  induction names generalizing inputs with
  | nil => rfl
  | cons name names ih => rw [foldl_cons, ih, hf]

theorem keys_expandPathParams (h : Host) (toolName : String) (inputs : Dict) :
    (expandPathParams h toolName inputs).map Prod.fst = inputs.map Prod.fst := by
  rw [expandPathParams]
  split
  · refine keys_foldl (fun inputs name => ?_) _ _
    split
    · next value hvalue =>
      exact Json.keys_set_of_mem (mem_map_of_mem (Json.mem_of_get? hvalue))
    · rfl
  · rfl

theorem binds_iff {inputs : Dict} :
    b.binds inputs = true ↔ (∀ name ∈ b.required, name ∈ inputs.map Prod.fst) ∧
      ∀ name ∈ inputs.map Prod.fst, name ∈ b.accepted := by
  rw [Binding.binds, Bool.and_eq_true, all_eq_true, all_eq_true]
  refine and_congr (forall₂_congr fun name _ => hasKey_iff) ?_
  constructor
  · intro h name hname
    obtain ⟨p, hp, rfl⟩ := mem_map.mp hname
    exact contains_iff_mem.mp (h p hp)
  · exact fun h p hp => contains_iff_mem.mpr (h p.1 (mem_map_of_mem hp))

/-- A call that reaches its handler has been resolved, and binds. -/
theorem executeSingleTool_eq_some {h : Host} {inputs received : Dict}
    (hr : executeSingleTool b h inputs = some received) :
    ∃ resolved, b.resolved h inputs = some resolved ∧
      received = expandPathParams h b.toolName resolved ∧ b.binds resolved = true := by
  have hcall : b.call h inputs = some received := by
    rw [executeSingleTool] at hr
    split at hr
    · split at hr
      · cases hr
      · split at hr
        · cases hr
        · exact hr
    · split at hr
      · cases hr
      · exact hr
  rw [Binding.call, Option.bind_eq_bind, Option.bind_eq_some_iff] at hcall
  obtain ⟨resolved, hresolved, hcall⟩ := hcall
  simp only at hcall
  split at hcall
  · next hbinds =>
    cases hcall
    rw [binds_iff, keys_expandPathParams, ← binds_iff] at hbinds
    exact ⟨resolved, hresolved, rfl, hbinds⟩
  · cases hcall

theorem get?_eq_none_of_binds {inputs : Dict} (hbinds : b.binds inputs = true)
    (hname : name ∉ b.accepted) : get? inputs name = none :=
  Json.get?_eq_none_iff.mpr fun hmem => hname ((binds_iff.mp hbinds).2 name hmem)

/-- A handler without aliases receives the inputs as they came. -/
theorem resolved_self {h : Host} {inputs resolved : Dict} (hnodup : (inputs.map Prod.fst).Nodup)
    (hresolved : b.resolved h inputs = some resolved)
    (hplain : ∀ name, (paramAliases h.timeoutToYieldMs b.toolName).lookup name = none ∨
      name ∈ b.accepted) : resolved = inputs := by
  rw [Binding.resolved, resolveParamAliases_self hnodup fun p _ => hplain p.1,
    Option.some.injEq] at hresolved
  exact hresolved.symm

/-! ### Paths -/

/-- The path a request carries, where nothing is moved. -/
def eitherPath (inputs : Dict) : String :=
  (((given? inputs "path").orElse fun _ => given? inputs "file_path").map
    fun v => strip (strOf v)).getD ""

theorem given?_eq_none {inputs : Dict} (h : get? inputs key = none) :
    given? inputs key = none := by rw [given?, h]

theorem eitherPath_path {inputs : Dict} (h : get? inputs "file_path" = none) :
    eitherPath inputs = pathText inputs "path" := by
  rw [eitherPath, given?_eq_none h, pathText]
  cases given? inputs "path" <;> rfl

theorem eitherPath_filePath {inputs : Dict} (h : given? inputs "path" = none) :
    eitherPath inputs = pathText inputs "file_path" := by
  rw [eitherPath, h, pathText]
  rfl

theorem pathFromEditInputs_eq {toolName : String} (hpatch : toolName ≠ "apply_patch")
    (inputs : Dict) :
    pathFromEditInputs inputs toolName =
      if toolName = "edit" ∧ (get? inputs "rename").any truthy then
        eitherPath inputs ++ " -> " ++ strip (textOf inputs "rename")
      else if get? inputs "operation" = some (.str "rename_file") ∧
          (get? inputs "new_path").any truthy then
        eitherPath inputs ++ " -> " ++ strip (textOf inputs "new_path")
      else eitherPath inputs := by
  rw [pathFromEditInputs, if_neg hpatch]
  rfl

theorem pathFromEditInputs_plain {inputs : Dict} {toolName : String}
    (hpatch : toolName ≠ "apply_patch") (hrename : toolName = "edit" → get? inputs "rename" = none)
    (hoperation : get? inputs "operation" = none) :
    pathFromEditInputs inputs toolName = eitherPath inputs := by
  have hmoved : ¬ (toolName = "edit" ∧ (get? inputs "rename").any truthy = true) := by
    rintro ⟨hedit, hany⟩
    rw [hrename hedit] at hany
    cases hany
  have hoper : ¬ (get? inputs "operation" = some (.str "rename_file") ∧
      (get? inputs "new_path").any truthy = true) := by
    rintro ⟨hop, -⟩
    rw [hoperation] at hop
    cases hop
  rw [pathFromEditInputs_eq hpatch, if_neg hmoved, if_neg hoper]

theorem approved_edit (hedit : b.toolName ∈ Permissions.editPermissionTools) (inputs : Dict) :
    approved b inputs = pathFromEditInputs inputs b.toolName := by
  have hnot : b.toolName ∉ Permissions.commandPermissionTools := by
    revert hedit
    cases b <;> decide
  have heval : b.toolName ≠ "eval" := fun h => hnot (by rw [h]; decide)
  rw [approved, permissionRequestForTool, if_neg heval, if_neg hnot, if_pos hedit]

/-! ### Parameters with an alias -/

theorem get?_resolved {h : Host} {inputs resolved : Dict} (hnodup : (inputs.map Prod.fst).Nodup)
    (hresolved : b.resolved h inputs = some resolved)
    (hkey : (paramAliases h.timeoutToYieldMs b.toolName).lookup key = none)
    (haccepted : aliasName ∉ b.accepted)
    (hlookup : (paramAliases h.timeoutToYieldMs b.toolName).lookup aliasName =
      some ⟨some key, none⟩)
    (honly : ∀ p ∈ paramAliases h.timeoutToYieldMs b.toolName,
      p.2.canonical = some key → p.1 = aliasName) :
    get? resolved key = if hasKey inputs key then get? inputs key else get? inputs aliasName := by
  split
  · next hgiven =>
    rw [hasKey, Option.isSome_iff_exists] at hgiven
    obtain ⟨value, hvalue⟩ := hgiven
    rw [hvalue]
    exact get?_resolved_own hnodup hresolved hvalue (.inl hkey)
  · next hgiven =>
    exact get?_resolved_alias hnodup hresolved (Bool.eq_false_iff.mpr hgiven) haccepted hlookup
      honly

section

variable {h : Host} {inputs resolved : Dict} (hnodup : (inputs.map Prod.fst).Nodup)
include hnodup

theorem get?_resolved_command (hresolved : Binding.execCommand.resolved h inputs = some resolved) :
    get? resolved "command" =
      if hasKey inputs "command" then get? inputs "command" else get? inputs "cmd" := by
  refine get?_resolved hnodup hresolved rfl (by decide) rfl fun p hp hcanonical => ?_
  rcases mem_cons.mp hp with rfl | hp
  · exact absurd hcanonical (by simp)
  · rcases mem_cons.mp hp with rfl | hp
    · rfl
    · rw [mem_singleton.mp hp] at hcanonical
      cases hcanonical

theorem get?_resolved_code (hresolved : Binding.eval.resolved h inputs = some resolved) :
    get? resolved "code" =
      if hasKey inputs "code" then get? inputs "code" else get? inputs "command" := by
  refine get?_resolved hnodup hresolved rfl (by decide) rfl fun p hp _ => ?_
  rw [mem_singleton.mp hp]

theorem get?_resolved_filePath (hresolved : Binding.claudeWrite.resolved h inputs = some resolved) :
    get? resolved "file_path" =
      if hasKey inputs "file_path" then get? inputs "file_path" else get? inputs "path" := by
  refine get?_resolved hnodup hresolved rfl (by decide) rfl fun p hp _ => ?_
  rw [mem_singleton.mp hp]

end

/-! ### The two agree -/

theorem textOf_congr {e : Dict} {l : String} (h : get? d k = get? e l) :
    textOf d k = textOf e l := by rw [textOf, textOf, h]

theorem pathText_congr {e : Dict} {l : String} (h : get? d k = get? e l) :
    pathText d k = pathText e l := by rw [pathText, pathText, given?, given?, h]

theorem textOf_eq_empty (h : hasKey d k = false) : textOf d k = "" := by
  rw [hasKey, Option.isSome_eq_false_iff, Option.isNone_iff_eq_none] at h
  rw [textOf, h]

theorem strip_empty : strip "" = "" := rfl

section

variable {h : Host} {inputs resolved : Dict} (hnodup : (inputs.map Prod.fst).Nodup)
include hnodup

theorem execCommand_iff (hresolved : Binding.execCommand.resolved h inputs = some resolved) :
    approved .execCommand inputs = Binding.execCommand.target resolved ↔
      Binding.execCommand.PlainlyNamed inputs := by
  have hcommand := get?_resolved_command hnodup hresolved
  have happroved : approved .execCommand inputs = strip (textOf inputs "command") := rfl
  rw [happroved, Binding.target, Binding.PlainlyNamed]
  cases hkey : hasKey inputs "command" with
  | true =>
    rw [hkey, if_pos rfl] at hcommand
    rw [textOf_congr hcommand]
    simp
  | false =>
    rw [hkey, if_neg Bool.false_ne_true] at hcommand
    rw [textOf_congr hcommand, textOf_eq_empty hkey, strip_empty, eq_comm]
    simp

/-- The language of a call of `eval`, as the request shows it. -/
def shownLanguage (inputs : Dict) : String :=
  let language := strip (textOf inputs "language")
  if language = "" then "?" else language

theorem eval_iff (hresolved : Binding.eval.resolved h inputs = some resolved) :
    approved .eval inputs = Binding.eval.target resolved ↔ Binding.eval.PlainlyNamed inputs := by
  have hcode := get?_resolved_code hnodup hresolved
  have hlanguage : textOf resolved "language" = textOf inputs "language" := by
    cases hget : get? inputs "language" with
    | some value =>
      exact textOf_congr ((get?_resolved_own hnodup hresolved hget (.inl rfl)).trans hget.symm)
    | none =>
      refine textOf_congr ((get?_resolved_absent hnodup hresolved hget fun p hp => ?_).trans hget.symm)
      rw [mem_singleton.mp hp]
      simp
  have happroved : approved .eval inputs =
      "[" ++ shownLanguage inputs ++ "] " ++ strip (textOf inputs "code") := rfl
  have htarget : Binding.eval.target resolved =
      "[" ++ shownLanguage inputs ++ "] " ++ strip (textOf resolved "code") := by
    rw [Binding.target, hlanguage]
    rfl
  rw [happroved, htarget, String.append_right_inj, Binding.PlainlyNamed]
  cases hkey : hasKey inputs "code" with
  | true =>
    rw [hkey, if_pos rfl] at hcode
    rw [textOf_congr hcode]
    simp
  | false =>
    rw [hkey, if_neg Bool.false_ne_true] at hcode
    rw [textOf_congr hcode, textOf_eq_empty hkey, strip_empty, eq_comm]
    simp

theorem claudeWrite_iff (hresolved : Binding.claudeWrite.resolved h inputs = some resolved)
    (hbinds : Binding.claudeWrite.binds resolved = true) :
    approved .claudeWrite inputs = Binding.claudeWrite.target resolved ↔
      Binding.claudeWrite.PlainlyNamed inputs := by
  have hpath := get?_resolved_filePath hnodup hresolved
  have hoperation : get? inputs "operation" = none := by
    cases hget : get? inputs "operation" with
    | none => rfl
    | some value =>
      have hres := get?_resolved_own hnodup hresolved hget (.inl rfl)
      rw [get?_eq_none_of_binds hbinds (by decide)] at hres
      cases hres
  rw [approved_edit (by decide), pathFromEditInputs_plain (by decide)
    (fun hedit => absurd hedit (by decide)) hoperation, Binding.target, Binding.PlainlyNamed]
  cases hkey : hasKey inputs "file_path" with
  | true =>
    rw [hkey, if_pos rfl] at hpath
    rw [pathText_congr hpath]
    cases hgiven : given? inputs "path" with
    | none =>
      rw [eitherPath_filePath hgiven]
      simp
    | some value =>
      have heither : eitherPath inputs = pathText inputs "path" := by
        rw [eitherPath, pathText, hgiven]
        rfl
      rw [heither]
      simp
  | false =>
    have hnone : get? inputs "file_path" = none := by
      rwa [hasKey, Option.isSome_eq_false_iff, Option.isNone_iff_eq_none] at hkey
    rw [hkey, if_neg Bool.false_ne_true] at hpath
    rw [pathText_congr hpath, eitherPath_path hnone]
    simp

end

/-- A file tool that moves nothing. -/
theorem approved_eq_eitherPath {inputs : Dict} (hbinds : b.binds inputs = true)
    (hedit : b.toolName ∈ Permissions.editPermissionTools) (hpatch : b.toolName ≠ "apply_patch")
    (hrename : "rename" ∉ b.accepted) (hoperation : "operation" ∉ b.accepted) :
    approved b inputs = eitherPath inputs := by
  rw [approved_edit hedit, pathFromEditInputs_plain hpatch
    (fun _ => get?_eq_none_of_binds hbinds hrename) (get?_eq_none_of_binds hbinds hoperation)]

/-- Handlers that receive the inputs as they came: the request reads the same parameters. -/
theorem approved_eq_target {inputs : Dict} (hbinds : b.binds inputs = true)
    (hb : b ≠ .execCommand ∧ b ≠ .eval ∧ b ≠ .claudeWrite) :
    approved b inputs = b.target inputs := by
  have habsent : ∀ {name}, name ∉ b.accepted → get? inputs name = none :=
    get?_eq_none_of_binds hbinds
  cases b with
  | executeTerminalCommand => rfl
  | execCommand => exact absurd rfl hb.1
  | eval => exact absurd rfl hb.2.1
  | claudeWrite => exact absurd rfl hb.2.2
  | edit | multiEdit | write | hashlineWrite =>
    rw [approved_eq_eitherPath hbinds (by decide) (by decide) (by decide) (by decide),
      eitherPath_path (habsent (by decide))]
    rfl
  | claudeEdit =>
    rw [approved_eq_eitherPath hbinds (by decide) (by decide) (by decide) (by decide),
      eitherPath_filePath (given?_eq_none (habsent (by decide)))]
    rfl
  | hashlineEdit =>
    have hoper : ¬ (get? inputs "operation" = some (.str "rename_file") ∧
        (get? inputs "new_path").any truthy = true) := by
      rw [habsent (by decide)]
      exact fun h => nomatch h.1
    have heither := eitherPath_path (habsent (by decide))
    rw [approved_edit (by decide), pathFromEditInputs_eq (by decide), if_neg hoper, heither]
    simp only [Binding.target, Binding.toolName, true_and]
  | lspEdit =>
    have hmoved : ¬ (Binding.lspEdit.toolName = "edit" ∧
        (get? inputs "rename").any truthy = true) := fun h => absurd h.1 (by decide)
    have heither := eitherPath_path (habsent (by decide))
    rw [approved_edit (by decide), pathFromEditInputs_eq (by decide), if_neg hmoved, heither,
      Binding.target]
  | applyPatch => rfl
  | resolve =>
    rw [approved_eq_eitherPath hbinds (by decide) (by decide) (by decide) (by decide),
      eitherPath_path (habsent (by decide)), pathText, given?_eq_none (habsent (by decide))]
    rfl

/-- **What is approved is what runs**, exactly when the command is not given under an alias alone and
a path not under two names that disagree: then the command or path of the request is the one the
handler receives. -/
theorem approved_eq_target_iff (b : Binding) (h : Host) (inputs received : Dict)
    (hnodup : (inputs.map Prod.fst).Nodup)
    (hreached : executeSingleTool b h inputs = some received) :
    ∃ resolved, b.resolved h inputs = some resolved ∧
      received = expandPathParams h b.toolName resolved ∧
      (approved b inputs = b.target resolved ↔ b.PlainlyNamed inputs) := by
  obtain ⟨resolved, hresolved, hreceived, hbinds⟩ := executeSingleTool_eq_some hreached
  refine ⟨resolved, hresolved, hreceived, ?_⟩
  by_cases hexec : b = .execCommand
  · subst hexec
    exact execCommand_iff hnodup hresolved
  by_cases heval : b = .eval
  · subst heval
    exact eval_iff hnodup hresolved
  by_cases hwrite : b = .claudeWrite
  · subst hwrite
    exact claudeWrite_iff hnodup hresolved hbinds
  have hself : resolved = inputs := by
    refine resolved_self hnodup hresolved fun name => ?_
    cases b with
    | execCommand => exact absurd rfl hexec
    | eval => exact absurd rfl heval
    | claudeWrite => exact absurd rfl hwrite
    | write | hashlineWrite =>
      by_cases hname : name = "path"
      · exact .inr (by rw [hname]; decide)
      · refine .inl ?_
        simp only [Binding.toolName, paramAliases, List.lookup_cons, List.lookup_nil,
          beq_eq_false_iff_ne.mpr hname]
    | _ => exact .inl rfl
  subst hself
  refine iff_of_true (approved_eq_target hbinds ⟨hexec, heval, hwrite⟩) ?_
  cases b <;> trivial

/-- A host that asks, and is told to go ahead; paths and timeouts stay as they are. -/
def permitting : Host := ⟨true, fun _ => true, false, id, .value⟩

theorem approved_eq_target_ls :
    executeSingleTool .execCommand permitting
      [("command", .str "ls "), ("cmd", .str "rm -rf /"), ("title", .str "list")] =
        some [("command", .str "ls ")] ∧
      ∃ resolved, approved .execCommand
          [("command", .str "ls "), ("cmd", .str "rm -rf /"), ("title", .str "list")] =
        Binding.execCommand.target resolved := by
  have hreached : executeSingleTool .execCommand permitting
      [("command", .str "ls "), ("cmd", .str "rm -rf /"), ("title", .str "list")] =
      some [("command", .str "ls ")] := by decide
  obtain ⟨resolved, -, -, hiff⟩ := approved_eq_target_iff .execCommand permitting _ _
    (by decide) hreached
  exact ⟨hreached, resolved, hiff.mpr (.inl rfl)⟩

/-- **Something else runs than was approved**: a command under its alias is not shown at all, and of
two paths the request shows the one that is dropped. -/
theorem approved_other :
    (approved .execCommand [("cmd", .str "rm -rf /")] = "" ∧
      executeSingleTool .execCommand permitting [("cmd", .str "rm -rf /")] =
        some [("command", .str "rm -rf /")]) ∧
    (approved .eval [("command", .str "import os")] = "[?] " ∧
      executeSingleTool .eval permitting [("command", .str "import os")] =
        some [("code", .str "import os")]) ∧
    (approved .claudeWrite
        [("path", .str "notes.md"), ("file_path", .str ".env"), ("content", .str "")] =
        "notes.md" ∧
      executeSingleTool .claudeWrite permitting
        [("path", .str "notes.md"), ("file_path", .str ".env"), ("content", .str "")] =
        some [("file_path", .str ".env"), ("content", .str "")]) := by
  decide

end KolegaCode.Tools
