import KolegaCode.CodexPatch.Parse
import KolegaCode.Permissions.Rules

/-!
# Permissions — the request of a tool call

`permission_request_for_tool`: what the user is asked about, read off the name of the tool and its
inputs as the model has written them.
-/

namespace KolegaCode.Permissions

open Json (Dict get?)
open Hashline (isSpace)
open Session (truthy strOf)

/-! ### Gated tools -/

def commandPermissionTools : List String := ["execute_terminal_command", "exec_command", "eval"]

def editPermissionTools : List String :=
  ["edit", "apply_patch", "lsp_edit", "multi_edit", "resolve", "write"]

def messagePermissionTools : List String := ["send_message"]

/-! ### Reading the inputs -/

/-- `str(inputs.get(key) or "")`. -/
def textOf (inputs : Dict) (key : String) : String :=
  match get? inputs key with
  | some value => if truthy value then strOf value else ""
  | none => ""

/-- `inputs.get(key)`, where it is not `None`. -/
def given? (inputs : Dict) (key : String) : Option Json :=
  match get? inputs key with
  | some .null => none
  | value => value

/-- The paths of an operation of a patch. -/
def operationPaths : CodexPatch.PatchOperation → List CodexPatch.Line
  | .add path _ => [path]
  | .delete path => [path]
  | .update path moveTo _ => path :: moveTo.toList

/-- The path of a patch that affects only one. -/
def patchPath (inputs : Dict) : String :=
  match get? inputs "input" with
  | some (.str raw) =>
    match CodexPatch.parseCodexPatch raw.toList with
    | .ok operations =>
      match (operations.flatMap operationPaths).dedup with
      | [path] => String.ofList path
      | _ => ""
    | .error _ => ""
  | _ => ""

/-- `_path_from_edit_inputs`. -/
def pathFromEditInputs (inputs : Dict) (toolName : String) : String :=
  if toolName = "apply_patch" then patchPath inputs
  else
    let value := (given? inputs "path").orElse fun _ => given? inputs "file_path"
    let path := (value.map fun v => strip (strOf v)).getD ""
    let renamed (key : String) := path ++ " -> " ++ strip (textOf inputs key)
    if toolName = "edit" ∧ (get? inputs "rename").any truthy then renamed "rename"
    else if get? inputs "operation" = some (.str "rename_file") ∧
        (get? inputs "new_path").any truthy then renamed "new_path"
    else path

/-- `_message_summary`. -/
def messageSummary (recipient text : String) : String :=
  let lines := Text.splitlines (Text.strip isSpace text.toList)
  let line := (lines.head?.map (Text.strip isSpace)).getD []
  let preview := String.ofList
    (if 80 < line.length then line.take 77 ++ ['.', '.', '.'] else line)
  if recipient = "" then preview
  else if preview = "" then "to " ++ recipient
  else "to " ++ recipient ++ ": " ++ preview

/-- `_mcp_target_from_tool_name`. -/
def mcpTargetFromToolName (toolName : String) : Option (String × String) :=
  if startsWith toolName "mcp__" then
    match Text.cut? ['_', '_'] (toolName.toList.drop 5) with
    | some (serverId, mcpTool) =>
      if serverId = [] ∨ mcpTool = [] then none
      else some (String.ofList serverId, String.ofList mcpTool)
    | none => none
  else none

/-- `permission_request_for_tool`. -/
def permissionRequestForTool (toolName : String) (inputs : Dict) : Option PermissionRequest :=
  if toolName = "eval" then
    let language := strip (textOf inputs "language")
    let language := if language = "" then "?" else language
    let code := strip (textOf inputs "code")
    some { kind := .command, toolName, inputs, command := "[" ++ language ++ "] " ++ code }
  else if toolName ∈ commandPermissionTools then
    some { kind := .command, toolName, inputs, command := strip (textOf inputs "command") }
  else if toolName ∈ editPermissionTools then
    some { kind := .edit, toolName, inputs, path := pathFromEditInputs inputs toolName }
  else if toolName ∈ messagePermissionTools then
    let recipient := strip (textOf inputs "recipient")
    let text := textOf inputs "text"
    some { kind := .message, toolName, inputs, command := messageSummary recipient text }
  else
    (mcpTargetFromToolName toolName).map fun target =>
      { kind := .mcp, toolName, inputs, mcpServer := target.1, mcpTool := target.2 }

/-! ### The names of MCP tools -/

/-- A name that starts as the names of MCP tools do is not the name of another gated tool. -/
theorem permissionRequestForTool_mcp {name : List Char} {inputs : Dict} :
    permissionRequestForTool (String.ofList ('m' :: 'c' :: 'p' :: name)) inputs =
      (mcpTargetFromToolName (String.ofList ('m' :: 'c' :: 'p' :: name))).map fun target =>
        { kind := .mcp, toolName := String.ofList ('m' :: 'c' :: 'p' :: name), inputs
          mcpServer := target.1, mcpTool := target.2 } := by
  have hother : ∀ tools : List String, (∀ tool ∈ tools, tool.toList.take 3 ≠ ['m', 'c', 'p']) →
      String.ofList ('m' :: 'c' :: 'p' :: name) ∉ tools := by
    intro tools htools hmem
    refine htools _ hmem ?_
    rw [String.toList_ofList]
    rfl
  have heval : String.ofList ('m' :: 'c' :: 'p' :: name) ≠ "eval" := fun heq =>
    hother ["eval"] (by decide) (List.mem_singleton.mpr heq)
  rw [permissionRequestForTool, if_neg heval, if_neg (hother commandPermissionTools (by decide)),
    if_neg (hother editPermissionTools (by decide)),
    if_neg (hother messagePermissionTools (by decide))]

end KolegaCode.Permissions
