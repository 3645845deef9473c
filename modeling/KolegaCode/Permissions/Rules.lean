import KolegaCode.Lib.Shlex
import KolegaCode.Lib.Text
import KolegaCode.Hashline.Hash
import KolegaCode.Session.Event

/-!
# Permissions — rules and what they match

`PermissionRule.matches`, and `allow_rule_options`: the rules a host offers when the user is asked
about a tool call and wants to allow it always.  Every offered rule matches its request, except that
the rule for commands starting with two words needs the command to be written with these words, one
space apart.
-/

namespace KolegaCode.Permissions

open List
open Hashline (isSpace)
open Session (truthy strOf)

/-! ### Requests and rules -/

/-- `PermissionKind`. -/
inductive PermissionKind
  | command
  | edit
  | mcp
  | message
  deriving DecidableEq, Repr

/-- `PermissionRequest`. -/
structure PermissionRequest where
  kind : PermissionKind
  toolName : String
  inputs : Json.Dict
  command : String := ""
  path : String := ""
  mcpServer : String := ""
  mcpTool : String := ""

/-- The values of `match_type` that mean something; a rules file may hold others. -/
inductive MatchType
  | exact
  | starting
  | executable
  | tool
  | path
  | server
  | recipient
  | other (text : String)
  deriving DecidableEq, Repr

/-- `PermissionRule`, less its id and its date, which nothing here reads. -/
structure PermissionRule where
  kind : PermissionKind
  tool : String
  matchType : MatchType
  pattern : String
  deriving DecidableEq, Repr

/-- `PermissionRuleOption`. -/
structure PermissionRuleOption where
  label : String
  description : String
  rule : PermissionRule
  deriving DecidableEq, Repr

/-! ### Matching -/

/-- `text.strip()`. -/
def strip (text : String) : String := String.ofList (Text.strip isSpace text.toList)

/-- `str(inputs.get("recipient") or "").strip()`. -/
def recipientOf (inputs : Json.Dict) : String :=
  match Json.get? inputs "recipient" with
  | some value => if truthy value then strip (strOf value) else ""
  | none => ""

/-- `_shell_tokens`. -/
def shellTokens (command : String) : List String :=
  match Shlex.split command.toList with
  | some tokens => tokens.map String.ofList
  | none => (Shlex.splitWhitespace isSpace command.toList).map String.ofList

/-- `_first_shell_token`. -/
def firstShellToken (command : String) : String := (shellTokens command).headD ""

/-- `text.startswith(start)`. -/
def startsWith (text start : String) : Bool := start.toList.isPrefixOf text.toList

/-- `_matches_command`. -/
def matchesCommand (matchType : MatchType) (pattern command : String) : Bool :=
  match matchType with
  | .exact => command = pattern
  | .starting => command = pattern || startsWith command (pattern ++ " ")
  | .executable => firstShellToken command = pattern
  | _ => false

/-- `_matches_edit`. -/
def matchesEdit (rule : PermissionRule) (request : PermissionRequest) : Bool :=
  match rule.matchType with
  | .tool => rule.pattern = "*" || rule.pattern = request.toolName
  | .path => request.path ≠ "" && request.path = rule.pattern
  | _ => false

/-- `_matches_mcp`. -/
def matchesMcp (rule : PermissionRule) (request : PermissionRequest) : Bool :=
  match rule.matchType with
  | .tool => rule.pattern = "*" || rule.pattern = request.toolName
  | .server => request.mcpServer ≠ "" && request.mcpServer = rule.pattern
  | _ => false

section

-- Python's `str.casefold`
variable (casefold : String → String)

/-- `_matches_message`. -/
def matchesMessage (rule : PermissionRule) (request : PermissionRequest) : Bool :=
  match rule.matchType with
  | .tool => rule.pattern = "*" || rule.pattern = request.toolName
  | .recipient =>
      let recipient := casefold (recipientOf request.inputs)
      recipient ≠ "" && recipient = casefold (strip rule.pattern)
  | _ => false

/-- `PermissionRule.matches`. -/
def PermissionRule.matches (rule : PermissionRule) (request : PermissionRequest) : Bool :=
  if rule.kind ≠ request.kind then false
  else if rule.tool ≠ "" && rule.tool ≠ "*" && rule.tool ≠ request.toolName then false
  else match rule.kind with
    | .command => matchesCommand rule.matchType rule.pattern request.command
    | .mcp => matchesMcp rule request
    | .message => matchesMessage casefold rule request
    | .edit => matchesEdit rule request

end

/-! ### Options -/

/-- The key of `_dedupe_options`. -/
abbrev optionKey (option : PermissionRuleOption) : PermissionRule := option.rule

/-- `_dedupe_options`, with the keys seen so far. -/
def dedupeOptions (seen : List PermissionRule) :
    List PermissionRuleOption → List PermissionRuleOption
  | [] => []
  | option :: options =>
      if optionKey option ∈ seen then dedupeOptions seen options
      else option :: dedupeOptions (optionKey option :: seen) options

/-- The option to allow commands that start with two words. -/
def startingOption (start : String) : PermissionRuleOption :=
  ⟨"Always allow commands starting with `" ++ start ++ "`",
    "Allow commands whose first words are `" ++ start ++ "`.", ⟨.command, "*", .starting, start⟩⟩

/-- The option for the first two words of a command, if it has two. -/
def startingOptions (command : String) : List PermissionRuleOption :=
  match shellTokens command with
  | first :: second :: _ => [startingOption (first ++ " " ++ second)]
  | _ => []

/-- The option for the executable of a command. -/
def executableOptions (command : String) : List PermissionRuleOption :=
  let executable := firstShellToken command
  if executable ≠ "" ∧ executable ≠ command then
    [⟨"Always allow `" ++ executable ++ "` commands",
      "Allow commands whose executable is `" ++ executable ++ "`.",
      ⟨.command, "*", .executable, executable⟩⟩]
  else []

/-- `_command_rule_options`. -/
def commandRuleOptions (request : PermissionRequest) : List PermissionRuleOption :=
  let command := request.command
  if command = "" then []
  else
    dedupeOptions []
      (⟨"Always allow this exact command", "Allow `" ++ command ++ "`.",
          ⟨.command, "*", .exact, command⟩⟩ ::
        (startingOptions command ++ executableOptions command))

/-- The option to allow a tool whatever it is called with. -/
def toolOption (label description : String) (kind : PermissionKind) (request : PermissionRequest) :
    PermissionRuleOption :=
  ⟨label, description, ⟨kind, request.toolName, .tool, request.toolName⟩⟩

/-- `_message_rule_options`. -/
def messageRuleOptions (request : PermissionRequest) : List PermissionRuleOption :=
  let recipient := recipientOf request.inputs
  let recipients : List PermissionRuleOption :=
    if recipient ≠ "" then
      [⟨"Always allow messages to `" ++ recipient ++ "`",
        "Allow send_message to this peer by name.",
        ⟨.message, request.toolName, .recipient, recipient⟩⟩]
    else []
  recipients ++
    [toolOption ("Always allow `" ++ request.toolName ++ "`") "Allow messages to any peer session."
      .message request]

/-- `_edit_rule_options`. -/
def editRuleOptions (request : PermissionRequest) : List PermissionRuleOption :=
  let paths : List PermissionRuleOption :=
    if request.path ≠ "" then
      [⟨"Always allow `" ++ request.toolName ++ "` on `" ++ request.path ++ "`",
        "Allow this edit tool for this path.",
        ⟨.edit, request.toolName, .path, request.path⟩⟩]
    else []
  paths ++
    [toolOption ("Always allow `" ++ request.toolName ++ "` edits")
      "Allow this edit tool for any path." .edit request]

/-- `_mcp_rule_options`. -/
def mcpRuleOptions (request : PermissionRequest) : List PermissionRuleOption :=
  let servers : List PermissionRuleOption :=
    if request.mcpServer ≠ "" then
      [⟨"Always allow MCP server `" ++ request.mcpServer ++ "`",
        "Allow all verified MCP tools from this server.",
        ⟨.mcp, "*", .server, request.mcpServer⟩⟩]
    else []
  dedupeOptions []
    (toolOption ("Always allow MCP tool `" ++ request.toolName ++ "`")
      "Allow this exact MCP tool." .mcp request :: servers)

/-- `allow_rule_options`. -/
def allowRuleOptions (request : PermissionRequest) : List PermissionRuleOption :=
  match request.kind with
  | .command => commandRuleOptions request
  | .mcp => mcpRuleOptions request
  | .message => messageRuleOptions request
  | .edit => editRuleOptions request

/-! ### Which options there are -/

variable {option : PermissionRuleOption} {request : PermissionRequest} {first second : String}

theorem mem_of_mem_dedupeOptions :
    ∀ {options : List PermissionRuleOption} {seen : List PermissionRule},
      option ∈ dedupeOptions seen options → option ∈ options
  | [], _, h => absurd h not_mem_nil
  | first :: options, seen, h => by
      rw [dedupeOptions] at h
      split at h
      · exact mem_cons_of_mem _ (mem_of_mem_dedupeOptions h)
      · rcases mem_cons.mp h with rfl | h
        · exact mem_cons_self
        · exact mem_cons_of_mem _ (mem_of_mem_dedupeOptions h)

/-- Each option's rule is kept, unless it was seen before. -/
theorem exists_dedupeOptions :
    ∀ {options : List PermissionRuleOption} {seen : List PermissionRule},
      option ∈ options → option.rule ∉ seen →
        ∃ kept ∈ dedupeOptions seen options, kept.rule = option.rule
  | first :: options, seen, h, hseen => by
      rw [dedupeOptions]
      by_cases hsame : first.rule = option.rule
      · rw [optionKey, if_neg (by rw [hsame]; exact hseen)]
        exact ⟨first, mem_cons_self, hsame⟩
      · have hoption : option ∈ options := by
          rcases mem_cons.mp h with rfl | h
          · exact absurd rfl hsame
          · exact h
        split
        · exact exists_dedupeOptions hoption hseen
        · have hseen' : option.rule ∉ optionKey first :: seen := by
            intro hmem
            rcases mem_cons.mp hmem with hmem | hmem
            · exact hsame hmem.symm
            · exact hseen hmem
          obtain ⟨kept, hkept, hrule⟩ := exists_dedupeOptions hoption hseen'
          exact ⟨kept, mem_cons_of_mem _ hkept, hrule⟩

/-! ### What the options match -/

variable {casefold : String → String}

theorem strip_strip (text : String) : strip (strip text) = strip text := by
  rw [strip, strip, String.toList_ofList, Text.strip_strip]

theorem strip_recipientOf (inputs : Json.Dict) :
    strip (recipientOf inputs) = recipientOf inputs := by
  rw [recipientOf]
  split
  · split
    · exact strip_strip _
    · rfl
  · rfl

theorem matches_tool {kind : PermissionKind} (label description) (hkind : kind = request.kind)
    (hcommand : kind ≠ .command) :
    (toolOption label description kind request).rule.matches casefold request = true := by
  rw [toolOption, PermissionRule.matches, hkind, if_neg (fun h => h rfl)]
  cases hk : request.kind with
  | command => exact absurd (hkind.trans hk) hcommand
  | edit => simp [matchesEdit]
  | mcp => simp [matchesMcp]
  | message => simp [matchesMessage]

theorem edit_options_match (hkind : request.kind = .edit) :
    ∀ option ∈ editRuleOptions request, option.rule.matches casefold request = true := by
  intro option h
  rcases mem_append.mp h with h | h
  · split at h
    · next hpath =>
      rw [mem_singleton.mp h]
      simp [PermissionRule.matches, hkind, matchesEdit, hpath]
    · cases h
  · rw [mem_singleton.mp h]
    exact matches_tool _ _ hkind.symm (by decide)

theorem mcp_options_match (hkind : request.kind = .mcp) :
    ∀ option ∈ mcpRuleOptions request, option.rule.matches casefold request = true := by
  intro option h
  rcases mem_cons.mp (mem_of_mem_dedupeOptions h) with rfl | h
  · exact matches_tool _ _ hkind.symm (by decide)
  · split at h
    · next hserver =>
      rw [mem_singleton.mp h]
      simp [PermissionRule.matches, hkind, matchesMcp, hserver]
    · cases h

theorem message_options_match (hfold : ∀ text, casefold text = "" → text = "")
    (hkind : request.kind = .message) :
    ∀ option ∈ messageRuleOptions request, option.rule.matches casefold request = true := by
  intro option h
  rcases mem_append.mp h with h | h
  · split at h
    · next hrecipient =>
      have hfolded : casefold (recipientOf request.inputs) ≠ "" :=
        fun h => hrecipient (hfold _ h)
      rw [mem_singleton.mp h]
      simp [PermissionRule.matches, hkind, matchesMessage, strip_recipientOf, hfolded]
    · cases h
  · rw [mem_singleton.mp h]
    exact matches_tool _ _ hkind.symm (by decide)

/-- The command begins with its first two words as they are, one space apart, and ends there or
goes on with a space. -/
def StartsAsWritten (command : String) : Prop :=
  ∀ first second rest, shellTokens command = first :: second :: rest →
    ∃ tail, command.toList = first.toList ++ ' ' :: (second.toList ++ tail) ∧
      (tail = [] ∨ ∃ more, tail = ' ' :: more)

theorem matchesCommand_starting {command : String} :
    matchesCommand .starting (first ++ " " ++ second) command = true ↔
      ∃ tail, command.toList = first.toList ++ ' ' :: (second.toList ++ tail) ∧
        (tail = [] ∨ ∃ more, tail = ' ' :: more) := by
  have htext : (first ++ " " ++ second).toList = first.toList ++ ' ' :: second.toList := by
    simp
  rw [matchesCommand, Bool.or_eq_true, decide_eq_true_eq, startsWith,
    isPrefixOf_iff_prefix, String.toList_append, htext, ← String.toList_inj, htext]
  constructor
  · rintro (h | ⟨more, h⟩)
    · exact ⟨[], by rw [h, append_nil], Or.inl rfl⟩
    · refine ⟨' ' :: more, ?_, Or.inr ⟨more, rfl⟩⟩
      rw [← h]
      simp
  · rintro ⟨tail, h, rfl | ⟨more, rfl⟩⟩
    · left
      rw [h, append_nil]
    · right
      refine ⟨more, ?_⟩
      rw [h]
      simp

theorem matches_command {request : PermissionRequest} (hkind : request.kind = .command)
    (matchType : MatchType) (pattern : String) :
    (PermissionRule.mk .command "*" matchType pattern).matches casefold request =
      matchesCommand matchType pattern request.command := by
  rw [PermissionRule.matches, hkind]
  rfl

theorem startingOption_matches (hkind : request.kind = .command) :
    (startingOption (first ++ " " ++ second)).rule.matches casefold request = true ↔
      ∃ tail, request.command.toList = first.toList ++ ' ' :: (second.toList ++ tail) ∧
        (tail = [] ∨ ∃ more, tail = ' ' :: more) := by
  have hrule := @matches_command casefold request hkind .starting (first ++ " " ++ second)
  rw [← matchesCommand_starting, ← hrule]
  exact Iff.rfl

/-- A command with two words has the option for them. -/
theorem exists_startingOption {rest : List String}
    (htokens : shellTokens request.command = first :: second :: rest) :
    ∃ option ∈ commandRuleOptions request,
      option.rule = (startingOption (first ++ " " ++ second)).rule := by
  have hcommand : request.command ≠ "" := by
    intro hempty
    have hnone : shellTokens "" = [] := by decide
    rw [hempty, hnone] at htokens
    cases htokens
  rw [commandRuleOptions, if_neg hcommand]
  refine exists_dedupeOptions (mem_cons_of_mem _ (mem_append_left _ ?_))
    not_mem_nil
  rw [startingOptions, htokens]
  exact mem_singleton.mpr rfl

theorem command_options_match (hkind : request.kind = .command) :
    (∀ option ∈ commandRuleOptions request, option.rule.matches casefold request = true) ↔
      StartsAsWritten request.command := by
  constructor
  · intro h first second rest htokens
    obtain ⟨option, hoption, hrule⟩ := exists_startingOption htokens
    have hmatch := h option hoption
    rw [hrule] at hmatch
    exact (startingOption_matches hkind).mp hmatch
  · intro h option hoption
    rw [commandRuleOptions] at hoption
    split at hoption
    · cases hoption
    · have hoption := mem_of_mem_dedupeOptions hoption
      rcases mem_cons.mp hoption with rfl | hoption
      · rw [matches_command hkind]
        exact decide_eq_true rfl
      · rcases mem_append.mp hoption with hoption | hoption
        · rw [startingOptions] at hoption
          split at hoption
          · next first second rest htokens =>
            rw [mem_singleton.mp hoption]
            exact (startingOption_matches hkind).mpr (h first second rest htokens)
          · cases hoption
        · rw [executableOptions] at hoption
          split at hoption
          · rw [mem_singleton.mp hoption, matches_command hkind]
            exact decide_eq_true rfl
          · cases hoption

/-- **Offered rules match their request**, of whatever kind and tool, except that a command has to
begin with its first two words as they are. -/
theorem offered_match_iff (hfold : ∀ text, casefold text = "" → text = "")
    (request : PermissionRequest) :
    (∀ option ∈ allowRuleOptions request, option.rule.matches casefold request = true) ↔
      (request.kind = .command → StartsAsWritten request.command) := by
  rw [allowRuleOptions]
  cases hkind : request.kind with
  | command =>
    rw [command_options_match hkind]
    exact ⟨fun h _ => h, fun h => h rfl⟩
  | mcp =>
    refine ⟨fun _ h => ?_, fun _ => mcp_options_match hkind⟩
    cases h
  | message =>
    refine ⟨fun _ h => ?_, fun _ => message_options_match hfold hkind⟩
    cases h
  | edit =>
    refine ⟨fun _ h => ?_, fun _ => edit_options_match hkind⟩
    cases h

/-- A command of two plain words and what follows them is written as it is read. -/
theorem startsAsWritten_plain {first second tail : List Char}
    (hfirst : ∀ c ∈ first, Shlex.isPlain c = true) (hne : first ≠ [])
    (hsecond : ∀ c ∈ second, Shlex.isPlain c = true) (hne' : second ≠ [])
    (htail : tail = [] ∨ ∃ more, tail = ' ' :: more)
    (hread : (Shlex.split (second ++ tail)).isSome) :
    StartsAsWritten (String.ofList (first ++ ' ' :: (second ++ tail))) := by
  intro word word' rest htokens
  obtain ⟨words, hwords⟩ : ∃ words, Shlex.split (second ++ tail) = some (second :: words) := by
    rcases htail with rfl | ⟨more, rfl⟩
    · rw [append_nil]
      exact ⟨[], Shlex.split_plain_last hsecond hne'⟩
    · rw [Shlex.split_plain hsecond hne'] at hread ⊢
      rw [Option.isSome_map] at hread
      obtain ⟨words, hwords⟩ := Option.isSome_iff_exists.mp hread
      exact ⟨words, by rw [hwords]; rfl⟩
  rw [shellTokens, String.toList_ofList, Shlex.split_plain hfirst hne, hwords] at htokens
  cases htokens
  refine ⟨tail, ?_, htail⟩
  rw [String.toList_ofList, String.toList_ofList, String.toList_ofList]

/-- A request to run a command. -/
def commandRequest (command : String) : PermissionRequest :=
  ⟨.command, "exec_command", [], command, "", "", ""⟩

theorem offered_match_gitStatus :
    (allowRuleOptions (commandRequest "git status -s")).all
      (fun option => option.rule.matches id (commandRequest "git status -s")) = true :=
  all_eq_true.mpr <|
    (@offered_match_iff id (fun _ h => h) (commandRequest "git status -s")).mpr fun _ =>
      @startsAsWritten_plain "git".toList "status".toList " -s".toList
        (all_eq_true.mp (by decide)) (by decide) (all_eq_true.mp (by decide)) (by decide)
        (Or.inr ⟨"-s".toList, rfl⟩) (by decide)

/-- **An offered rule that misses its own request**: the words are joined with one space, and the
command has two. -/
theorem offered_rule_misses :
    (startingOption "git status") ∈ allowRuleOptions (commandRequest "git  status") ∧
      (startingOption "git status").rule.matches id (commandRequest "git  status") = false := by
  decide

end KolegaCode.Permissions
