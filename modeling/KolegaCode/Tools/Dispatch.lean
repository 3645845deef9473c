import KolegaCode.Lib.JsonDict
import KolegaCode.Permissions.Request

/-!
# Tools — dispatching a call

`execute_single_tool` down to the handler: the permission request is made from the inputs as the
model wrote them, and only then are the inputs brought into the form the handler takes.  `Tool.call`
renames registered aliases (`resolve_param_aliases`), expands paths and refuses what does not bind to
the handler's signature.

A tool name can be bound to several handlers, one for each edit protocol (`Binding`).
-/

namespace KolegaCode.Tools

open Json (Dict get?)
open Permissions (PermissionRequest permissionRequestForTool)

/-! ### Aliases -/

/-- What a transform of an alias's value may do. -/
inductive Transformed
  | value (v : Json)
  | dropped
  | raises

/-- `ParamAlias`. -/
structure ParamAlias where
  canonical : Option String := none
  transform : Option (Json → Transformed) := none

/-- `AliasHit`. -/
structure AliasHit where
  tool : String
  aliasName : String
  action : String
  deriving DecidableEq, Repr

/-- `PARAM_ALIASES`, for the tools that are gated; `_timeout_to_yield_ms` is a parameter. -/
def paramAliases (timeoutToYieldMs : Json → Transformed) : String → List (String × ParamAlias)
  | "exec_command" =>
    [("timeout", ⟨some "yield_time_ms", some timeoutToYieldMs⟩), ("cmd", ⟨some "command", none⟩),
      ("title", {})]
  | "eval" => [("command", ⟨some "code", none⟩)]
  | "write" => [("path", ⟨some "file_path", none⟩)]
  | _ => []

def hasKey (inputs : Dict) (name : String) : Bool := (get? inputs name).isSome

/-- What becomes of one argument: the parameter it is passed as, if any, and the hit. -/
def resolveArgument (toolName : String) (aliases : List (String × ParamAlias)) (inputs : Dict)
    (accepted : List String) (name : String) (value : Json) :
    Option (Option (String × Json) × List AliasHit) :=
  let hit (action : String) : List AliasHit := [⟨toolName, name, action⟩]
  match aliases.lookup name with
  | none => some (some (name, value), [])
  | some entry =>
    if name ∈ accepted then some (some (name, value), [])
    else
      match entry.canonical with
      | none => some (none, hit "discarded")
      | some canonical =>
        if hasKey inputs canonical then
          some (none, hit ("dropped (canonical `" ++ canonical ++ "` also present)"))
        else
          let renamed (value : Json) :=
            some (some (canonical, value), hit ("renamed to `" ++ canonical ++ "`"))
          match entry.transform with
          | none => renamed value
          | some transform =>
            match transform value with
            | .value value => renamed value
            | .dropped =>
              some (none, hit ("discarded (value unusable as `" ++ canonical ++ "`)"))
            | .raises => none

/-- The arguments, one after the other. -/
def resolveArguments (toolName : String) (aliases : List (String × ParamAlias)) (inputs : Dict)
    (accepted : List String) : Dict → Option (List (String × Json) × List AliasHit)
  | [] => some ([], [])
  | (name, value) :: rest => do
    let (argument, hits) ← resolveArgument toolName aliases inputs accepted name value
    let (arguments, hits') ← resolveArguments toolName aliases inputs accepted rest
    some (argument.toList ++ arguments, hits ++ hits')

/-- `resolve_param_aliases`; `none` is an exception of a transform. -/
def resolveParamAliases (toolName : String) (aliases : List (String × ParamAlias)) (inputs : Dict)
    (accepted : List String) : Option (Dict × List AliasHit) :=
  if aliases.all fun p => !hasKey inputs p.1 then some (inputs, [])
  else
    (resolveArguments toolName aliases inputs accepted inputs).map fun r => (Json.dictOf r.1, r.2)

/-! ### Bindings -/

/-- The handlers of the gated command and file tools. -/
inductive Binding
  | executeTerminalCommand
  | execCommand
  | eval
  | edit
  | claudeEdit
  | hashlineEdit
  | multiEdit
  | write
  | claudeWrite
  | hashlineWrite
  | applyPatch
  | lspEdit
  | resolve
  deriving DecidableEq, Repr

/-- The name the tool is called by. -/
def Binding.toolName : Binding → String
  | .executeTerminalCommand => "execute_terminal_command"
  | .execCommand => "exec_command"
  | .eval => "eval"
  | .edit | .claudeEdit | .hashlineEdit => "edit"
  | .multiEdit => "multi_edit"
  | .write | .claudeWrite | .hashlineWrite => "write"
  | .applyPatch => "apply_patch"
  | .lspEdit => "lsp_edit"
  | .resolve => "resolve"

/-- The parameters without a default. -/
def Binding.required : Binding → List String
  | .executeTerminalCommand | .execCommand => ["command"]
  | .eval => ["code"]
  | .edit => ["path", "block"]
  | .claudeEdit => ["file_path", "old_string", "new_string"]
  | .hashlineEdit => ["path", "edits"]
  | .multiEdit => ["path", "blocks"]
  | .write | .hashlineWrite => ["path", "content"]
  | .claudeWrite => ["file_path", "content"]
  | .applyPatch => ["input"]
  | .lspEdit => ["operation"]
  | .resolve => ["action_id", "decision"]

/-- The parameters with a default. -/
def Binding.optional : Binding → List String
  | .execCommand => ["workdir", "yield_time_ms", "max_output_tokens", "login", "background"]
  | .eval => ["language", "title", "timeout", "reset"]
  | .claudeEdit => ["replace_all"]
  | .hashlineEdit => ["delete", "rename"]
  | .lspEdit =>
    ["path", "line", "symbol", "new_name", "new_path", "query", "action_id", "end_line", "kind",
      "apply", "timeout"]
  | .resolve => ["force"]
  | _ => []

/-- `accepted_params`. -/
def Binding.accepted (b : Binding) : List String := b.required ++ b.optional

/-! ### The call -/

/-- The code around a call: the permission mode and what the host decides on a request, a hook that
may block the call, the expansion of paths and the transform of a timeout. -/
structure Host where
  ask : Bool
  allows : PermissionRequest → Bool
  blocked : Bool
  expand : String → String
  timeoutToYieldMs : Json → Transformed

/-- The tools whose path parameters are expanded. -/
def fileToolsWithPathParams : List String := ["write", "edit", "multi_edit"]

/-- `_expand_path_params`. -/
def expandPathParams (h : Host) (toolName : String) (inputs : Dict) : Dict :=
  if toolName ∈ fileToolsWithPathParams then
    ["path", "file_path", "rename"].foldl (fun inputs name =>
      match get? inputs name with
      | some (.str value) => Json.set inputs name (.str (h.expand value))
      | _ => inputs) inputs
  else inputs

/-- The inputs bind to the signature of the handler. -/
def Binding.binds (b : Binding) (inputs : Dict) : Bool :=
  b.required.all (hasKey inputs) && inputs.all fun p => b.accepted.contains p.1

/-- The inputs after alias resolution. -/
def Binding.resolved (b : Binding) (h : Host) (inputs : Dict) : Option Dict :=
  (resolveParamAliases b.toolName (paramAliases h.timeoutToYieldMs b.toolName) inputs
    b.accepted).map Prod.fst

/-- `Tool.call`, up to what the handler receives. -/
def Binding.call (b : Binding) (h : Host) (inputs : Dict) : Option Dict := do
  let inputs ← b.resolved h inputs
  let inputs := expandPathParams h b.toolName inputs
  if b.binds inputs then some inputs else none

/-- `execute_single_tool`, up to what the handler receives; `none` where it is not reached. -/
def executeSingleTool (b : Binding) (h : Host) (inputs : Dict) : Option Dict :=
  match permissionRequestForTool b.toolName inputs with
  | some request =>
    if h.ask ∧ ¬ h.allows request then none
    else if h.blocked then none
    else b.call h inputs
  | none => if h.blocked then none else b.call h inputs

end KolegaCode.Tools
