import KolegaCode.Llm.ControlTokens

/-!
# Llm — Responses API input with control tokens escaped

Not all text of a message is escaped on its way into an item: the ids and names of calls, the ids of
results, the captions and addresses of images, and the fields of reasoning and hosted search calls
are sent as they are (`sentAsIs`).
-/

namespace KolegaCode.Responses

open List
open Session (strOf)

/-! ### The strings of an item -/

mutual

/-- The strings of a value, keys included. -/
def valueStrings : Json → List String
  | .str s => [s]
  | .arr xs => itemsStrings xs
  | .obj fs => fieldsStrings fs
  | _ => []

def itemsStrings : List Json → List String
  | [] => []
  | x :: xs => valueStrings x ++ itemsStrings xs

def fieldsStrings : Json.Dict → List String
  | [] => []
  | (k, v) :: fs => k :: (valueStrings v ++ fieldsStrings fs)

end

def ContentPart.strings : ContentPart → List String
  | .text type value => [type, value]
  | .image imageUrl => [imageUrl]

def Item.strings : Item → List String
  | .message role content => role :: content.flatMap ContentPart.strings
  | .reasoning summary encryptedContent content id =>
    summary ++ encryptedContent.toList ++ content ++ id.toList
  | .webSearchCall status action id => status.toList ++ fieldsStrings action ++ id.toList
  | .call _ callId name payload => [callId, name, payload]
  | .output _ callId result => [callId, result]


def ContentPart.inert : ContentPart → ContentPart
  | .text type value => .text (escapeHarmonyControlTokens type) (escapeHarmonyControlTokens value)
  | .image imageUrl => .image (escapeHarmonyControlTokens imageUrl)

/-- The item with each spelling in its strings replaced by the inert form. -/
def Item.inert : Item → Item
  | .message role content => .message (escapeHarmonyControlTokens role) (content.map ContentPart.inert)
  | .reasoning summary encryptedContent content id =>
    .reasoning (summary.map escapeHarmonyControlTokens)
      (encryptedContent.map escapeHarmonyControlTokens) (content.map escapeHarmonyControlTokens)
      (id.map escapeHarmonyControlTokens)
  | .webSearchCall status action id =>
    .webSearchCall (status.map escapeHarmonyControlTokens)
      (mapStringsFields escapeHarmonyControlTokens action) (id.map escapeHarmonyControlTokens)
  | .call .freeform callId name input =>
    .call .freeform (escapeHarmonyControlTokens callId) (escapeHarmonyControlTokens name)
      (escapeHarmonyControlTokens input)
  | .call .json callId name arguments =>
    .call .json (escapeHarmonyControlTokens callId) (escapeHarmonyControlTokens name)
      (escapeHarmonyControlTokensInJson arguments)
  | .output kind callId result =>
    .output kind (escapeHarmonyControlTokens callId) (escapeHarmonyControlTokens result)

/-- The escaped input has no spelling, and differs from the other by the inert forms only. -/
structure EscapedInput (messages : List Message) : Prop where
  clear : ∀ item ∈ toResponsesInput true messages, ∀ s ∈ item.strings, ¬ Spells s.toList
  inert : toResponsesInput true messages = (toResponsesInput false messages).map Item.inert
  /-- The arguments of a call decode to the value with the replacement made in every string. -/
  decoded : ∀ callId name arguments,
    .call .json callId name arguments ∈ toResponsesInput false messages →
    ∀ v, Json.Canonical v → arguments.toList = OpenAi.dumps v →
      Json.loads (escapeHarmonyControlTokensInJson arguments).toList = some (inertValue v)

/-! ### What is sent as it is -/

/-- The strings of a block that are sent without being escaped. -/
def blockSentAsIs (role : Role) : ContentBlock → List String
  | .responsesReasoning b =>
    (b.encryptedContent.filter (· ≠ "")).toList ++
      (if b.content ≠ [] then b.itemId.filter (· ≠ "") else none).toList
  | .webSearchCall b =>
    if b.itemType = "web_search_call" then
      b.status.toList ++ fieldsStrings b.action ++ (b.itemId.filter (· ≠ "")).toList
    else []
  | .toolCall c => [c.id, c.name]
  | .toolResult r =>
    r.toolUseId ::
      if toolResultImages r = [] then []
      else s!"Image returned by tool {r.name} for tool call {r.toolUseId}." ::
        (toolResultImages r).map imageDataUrl
  | .image b => if role ≠ .assistant then [imageDataUrl b] else []
  | _ => []

/-- The strings of a message that are sent without being escaped. -/
def sentAsIs (m : Message) : List String :=
  if isInstruction m.role then [] else m.blocks.flatMap (blockSentAsIs m.role)

/-! ### The inert forms have no spelling -/

mutual

theorem valueStrings_mapStrings (f : String → String) :
    ∀ v : Json, valueStrings (mapStrings f v) = (valueStrings v).map f
  | .null | .bool _ | .int _ | .float _ | .str _ => rfl
  | .arr xs => itemsStrings_mapStrings f xs
  | .obj fs => fieldsStrings_mapStrings f fs

theorem itemsStrings_mapStrings (f : String → String) :
    ∀ xs : List Json, itemsStrings (mapStringsItems f xs) = (itemsStrings xs).map f
  | [] => rfl
  | x :: xs => by
    rw [mapStringsItems, itemsStrings, valueStrings_mapStrings, itemsStrings_mapStrings,
      itemsStrings, map_append]

theorem fieldsStrings_mapStrings (f : String → String) :
    ∀ fs : Json.Dict, fieldsStrings (mapStringsFields f fs) = (fieldsStrings fs).map f
  | [] => rfl
  | (k, v) :: fs => by
    rw [mapStringsFields, fieldsStrings, valueStrings_mapStrings, fieldsStrings_mapStrings,
      fieldsStrings, map_cons, map_append]

end

mutual

theorem mapStrings_eq_self {f : String → String} :
    ∀ {v : Json}, (∀ s ∈ valueStrings v, f s = s) → mapStrings f v = v
  | .null, _ | .bool _, _ | .int _, _ | .float _, _ => rfl
  | .str _, h => congrArg Json.str (h _ mem_cons_self)
  | .arr _, h => congrArg Json.arr (mapStringsItems_eq_self h)
  | .obj _, h => congrArg Json.obj (mapStringsFields_eq_self h)

theorem mapStringsItems_eq_self {f : String → String} :
    ∀ {xs : List Json}, (∀ s ∈ itemsStrings xs, f s = s) → mapStringsItems f xs = xs
  | [], _ => rfl
  | x :: xs, h => by
    rw [mapStringsItems, mapStrings_eq_self fun s hs => h s (mem_append_left _ hs),
      mapStringsItems_eq_self fun s hs => h s (mem_append_right _ hs)]

theorem mapStringsFields_eq_self {f : String → String} :
    ∀ {fs : Json.Dict}, (∀ s ∈ fieldsStrings fs, f s = s) → mapStringsFields f fs = fs
  | [], _ => rfl
  | (k, v) :: fs, h => by
    rw [mapStringsFields, h k mem_cons_self,
      mapStrings_eq_self fun s hs => h s (mem_cons_of_mem _ (mem_append_left _ hs)),
      mapStringsFields_eq_self fun s hs => h s (mem_cons_of_mem _ (mem_append_right _ hs))]

end

/-- A string that was escaped. -/
def Escaped (s : String) : Prop :=
  ∃ text, s = escapeHarmonyControlTokens text ∨ s = escapeHarmonyControlTokensInJson text

variable {s : String} {item : Item}

theorem Escaped.clear (h : Escaped s) : ¬ Spells s.toList := by
  obtain ⟨text, rfl | rfl⟩ := h
  · exact escape_clear text
  · exact escapeInJson_clear text

theorem escaped_of_mem_map {l : List String} (h : s ∈ l.map escapeHarmonyControlTokens) :
    Escaped s := by
  obtain ⟨text, -, rfl⟩ := mem_map.mp h
  exact ⟨text, .inl rfl⟩

theorem escaped_of_mem_toList {o : Option String}
    (h : s ∈ (o.map escapeHarmonyControlTokens).toList) : Escaped s := by
  obtain ⟨text, -, rfl⟩ := Option.map_eq_some_iff.mp (Option.mem_toList.mp h)
  exact ⟨text, .inl rfl⟩

theorem Item.escaped_of_mem_strings (h : s ∈ item.inert.strings) : Escaped s := by
  have htext : ∀ text, Escaped (escapeHarmonyControlTokens text) := fun text => ⟨text, .inl rfl⟩
  cases item with
  | message role content =>
    rcases mem_cons.mp h with rfl | h
    · exact htext role
    · obtain ⟨part, hpart, hs⟩ := mem_flatMap.mp h
      obtain ⟨part, -, rfl⟩ := mem_map.mp hpart
      cases part with
      | text type value =>
        rcases mem_pair.mp hs with rfl | rfl
        · exact htext type
        · exact htext value
      | image imageUrl =>
        rw [mem_singleton.mp hs]
        exact htext imageUrl
  | reasoning summary encryptedContent content id =>
    rcases mem_append.mp h with h | h
    · rcases mem_append.mp h with h | h
      · rcases mem_append.mp h with h | h
        · exact escaped_of_mem_map h
        · exact escaped_of_mem_toList h
      · exact escaped_of_mem_map h
    · exact escaped_of_mem_toList h
  | webSearchCall status action id =>
    rcases mem_append.mp h with h | h
    · rcases mem_append.mp h with h | h
      · exact escaped_of_mem_toList h
      · exact escaped_of_mem_map (fieldsStrings_mapStrings _ action ▸ h)
    · exact escaped_of_mem_toList h
  | call kind callId name payload =>
    cases kind with
    | json =>
      rcases mem_cons.mp h with rfl | h
      · exact htext callId
      · rcases mem_pair.mp h with rfl | rfl
        · exact htext name
        · exact ⟨payload, .inr rfl⟩
    | freeform =>
      rcases mem_cons.mp h with rfl | h
      · exact htext callId
      · rcases mem_pair.mp h with rfl | rfl
        · exact htext name
        · exact htext payload
  | output kind callId result =>
    rcases mem_pair.mp h with rfl | rfl
    · exact htext callId
    · exact htext result

/-! ### One message -/

variable {role : Role} {b : ContentBlock} {m : Message}

theorem map_escape_eq_self {o : Option String} (h : ∀ s ∈ o.toList, ¬ Spells s.toList) :
    o.map escapeHarmonyControlTokens = o := by
  cases o with
  | none => rfl
  | some s => exact congrArg some (escape_of_clear (h s (Option.mem_toList.mpr rfl)))

theorem blockItem_escape (h : ∀ s ∈ blockSentAsIs role b, ¬ Spells s.toList) :
    blockItem (escaping true) b = (blockItem (escaping false) b).map Item.inert := by
  cases b with
  | text b => rfl
  | image b => rfl
  | thinking b => rfl
  | redactedThinking b => rfl
  | toolCall c => rfl
  | responsesReasoning b =>
    have hencrypted := map_escape_eq_self fun s hs => h s (mem_append_left _ hs)
    have hid := map_escape_eq_self fun s hs => h s (mem_append_right _ hs)
    simp only [blockItem, reasoningItem, Option.map_some, Item.inert, hencrypted, hid]
    simp [escaping]
  | webSearchCall b =>
    by_cases hb : b.itemType = "web_search_call"
    · rw [blockSentAsIs, if_pos hb] at h
      have hstatus := map_escape_eq_self fun s hs =>
        h s (mem_append_left _ (mem_append_left _ hs))
      have haction := mapStringsFields_eq_self (f := escapeHarmonyControlTokens) fun s hs =>
        escape_of_clear (h s (mem_append_left _ (mem_append_right _ hs)))
      have hid := map_escape_eq_self fun s hs => h s (mem_append_right _ hs)
      simp only [blockItem, if_pos hb, Option.map_some, webSearchItem, Item.inert, hstatus, haction,
        hid]
    · simp only [blockItem, if_neg hb, Option.map_none]
  | toolResult r =>
    have hid := escape_of_clear (h _ mem_cons_self)
    simp only [blockItem, outputItem, Option.map_some, Item.inert, hid]
    rfl

theorem callItem_escape {c : ToolCall} (h : ∀ s ∈ [c.id, c.name], ¬ Spells s.toList) :
    callItem (escaping true) c = (callItem (escaping false) c).inert := by
  have hid := escape_of_clear (h c.id mem_cons_self)
  have hname := escape_of_clear (h c.name (mem_cons_of_mem _ mem_cons_self))
  rw [callItem, callItem]
  cases c.inputKind with
  | json | freeform =>
    simp only [Item.inert, hid, hname]
    rfl

theorem imageMessage_escape {r : ToolResult}
    (h : ∀ s ∈ blockSentAsIs role (.toolResult r), ¬ Spells s.toList) :
    toolResultImageMessage r = (toolResultImageMessage r).map Item.inert := by
  rw [toolResultImageMessage]
  split
  · rfl
  · next hne =>
    rw [blockSentAsIs, if_neg hne] at h
    have hcaption := escape_of_clear (h _ (mem_cons_of_mem _ mem_cons_self))
    have hurls : (toolResultImages r).map (ContentPart.inert ∘ fun b => .image (imageDataUrl b)) =
        (toolResultImages r).map fun b => .image (imageDataUrl b) := by
      refine map_congr_left fun b hb => congrArg ContentPart.image (escape_of_clear ?_)
      exact h _ (mem_cons_of_mem _ (mem_cons_of_mem _ (mem_map_of_mem hb)))
    have huser : escapeHarmonyControlTokens "user" = "user" :=
      escape_of_not_mem (by decide)
    have htype : escapeHarmonyControlTokens "input_text" = "input_text" :=
      escape_of_not_mem (by decide)
    simp only [Option.map_some, Item.inert, map_cons, ContentPart.inert, huser, htype, hcaption,
      map_map, hurls]

/-- A part with its text escaped. -/
def RolePart.escape : RolePart → RolePart
  | .text value => .text (escapeHarmonyControlTokens value)
  | .image imageUrl => .image imageUrl

/-- The part of a role message that a collected part becomes. -/
def roleContent (role : Role) : RolePart → Option ContentPart
  | .text value =>
    if value ≠ "" then
      some (.text (if role ≠ .assistant then "input_text" else "output_text") value)
    else none
  | .image imageUrl => if role ≠ .assistant then some (.image imageUrl) else none

theorem roleMessageItem_eq (role : Role) (parts : List RolePart) :
    roleMessageItem role parts =
      if parts.filterMap (roleContent role) = [] then none
      else some (.message (if role ≠ .assistant then "user" else "assistant")
        (parts.filterMap (roleContent role))) := rfl

theorem roleContent_escape {part : RolePart}
    (h : ∀ url, .image url = part → role ≠ .assistant → ¬ Spells url.toList) :
    roleContent role part.escape = (roleContent role part).map ContentPart.inert := by
  cases part with
  | text value =>
    have hinput : escapeHarmonyControlTokens "input_text" = "input_text" :=
      escape_of_not_mem (by decide)
    have houtput : escapeHarmonyControlTokens "output_text" = "output_text" :=
      escape_of_not_mem (by decide)
    rw [RolePart.escape, roleContent, roleContent]
    by_cases hvalue : value = ""
    · rw [if_neg (not_not_intro hvalue), if_neg (not_not_intro (escape_eq_empty_iff.mpr hvalue))]
      rfl
    · rw [if_pos hvalue, if_pos (mt escape_eq_empty_iff.mp hvalue), Option.map_some,
        ContentPart.inert]
      split
      · rw [hinput]
      · rw [houtput]
  | image imageUrl =>
    rw [RolePart.escape, roleContent]
    split
    · next hrole =>
      rw [Option.map_some, ContentPart.inert, escape_of_clear (h imageUrl rfl hrole)]
    · rfl

theorem roleMessageItem_escape (role : Role) (parts : List RolePart)
    (h : ∀ url, .image url ∈ parts → role ≠ .assistant → ¬ Spells url.toList) :
    roleMessageItem role (parts.map RolePart.escape) =
      (roleMessageItem role parts).map Item.inert := by
  have hcontent : (parts.map RolePart.escape).filterMap (roleContent role) =
      (parts.filterMap (roleContent role)).map ContentPart.inert := by
    rw [filterMap_map, map_filterMap]
    refine filterMap_congr fun part hpart => roleContent_escape fun url hurl => ?_
    exact h url (hurl ▸ hpart)
  have huser : escapeHarmonyControlTokens "user" = "user" :=
    escape_of_not_mem (by decide)
  have hassistant : escapeHarmonyControlTokens "assistant" = "assistant" :=
    escape_of_not_mem (by decide)
  rw [roleMessageItem_eq, roleMessageItem_eq, hcontent]
  simp only [map_eq_nil_iff]
  split
  · rfl
  · rw [Option.map_some, Item.inert]
    split
    · rw [huser]
    · rw [hassistant]

theorem rolePart_escape (b : ContentBlock) :
    rolePart (escaping true) b = (rolePart (escaping false) b).map RolePart.escape := by
  cases b <;> rfl

/-- **The items of a message are those without escaping, with the inert forms.** -/
theorem messageItems_escape (h : ∀ s ∈ sentAsIs m, ¬ Spells s.toList) :
    messageItems (escaping true) m = (messageItems (escaping false) m).map Item.inert := by
  rw [messageItems, messageItems]
  split
  · rfl
  · next hrole =>
    rw [sentAsIs, if_neg hrole, Message.blocks] at h
    cases hcontent : m.content with
    | str text =>
      have hparts := roleMessageItem_escape m.role [.text text]
        (fun url hurl => absurd (mem_singleton.mp hurl) nofun)
      rw [← Option.toList_map]
      exact congrArg Option.toList hparts
    | blocks blocks =>
      have hblocks : m.blocks = blocks := by rw [Message.blocks, hcontent]
      rw [hcontent] at h
      have hblock : ∀ b ∈ blocks, ∀ s ∈ blockSentAsIs m.role b, ¬ Spells s.toList :=
        fun b hb s hs => h s (mem_flatMap.mpr ⟨b, hb, hs⟩)
      have hitems : blocks.filterMap (blockItem (escaping true)) =
          (blocks.filterMap (blockItem (escaping false))).map Item.inert := by
        rw [map_filterMap]
        exact filterMap_congr fun b hb => blockItem_escape (hblock b hb)
      have hparts : blocks.filterMap (rolePart (escaping true)) =
          (blocks.filterMap (rolePart (escaping false))).map RolePart.escape := by
        rw [map_filterMap]
        exact filterMap_congr fun b _ => rolePart_escape b
      have hmessage := roleMessageItem_escape m.role
        (blocks.filterMap (rolePart (escaping false))) (by
          intro url hurl hassistant
          obtain ⟨b, hb, hpart⟩ := mem_filterMap.mp hurl
          cases b with
          | image b =>
            cases hpart
            refine hblock _ hb _ ?_
            rw [blockSentAsIs, if_pos hassistant]
            exact mem_cons_self
          | _ => cases hpart)
      have hcalls : m.calls.map (callItem (escaping true)) =
          (m.calls.map (callItem (escaping false))).map Item.inert := by
        rw [map_map]
        refine map_congr_left fun c hc => callItem_escape (hblock (.toolCall c) ?_)
        exact hblocks ▸ Message.mem_calls.mp hc
      have himages : m.results.filterMap toolResultImageMessage =
          (m.results.filterMap toolResultImageMessage).map Item.inert := by
        rw [map_filterMap]
        refine filterMap_congr fun r hr => imageMessage_escape (hblock (.toolResult r) ?_)
        exact hblocks ▸ Message.mem_results.mp hr
      simp only [map_append, ← Option.toList_map, ← hitems, ← hmessage, ← hcalls, ← hparts]
      rw [← himages]

theorem mem_strings_of_sentAsIs (e : Escaping) (h : s ∈ sentAsIs m) :
    ∃ item ∈ messageItems e m, s ∈ item.strings := by
  rw [sentAsIs] at h
  split at h
  · cases h
  · next hrole =>
    rw [messageItems, if_neg hrole]
    cases hcontent : m.content with
    | str text =>
      rw [Message.blocks, hcontent] at h
      cases h
    | blocks blocks =>
      have hblocks : m.blocks = blocks := by rw [Message.blocks, hcontent]
      rw [hblocks] at h
      obtain ⟨b, hb, hs⟩ := mem_flatMap.mp h
      have hplace : ∀ item, blockItem e b = some item → item ∈ blocks.filterMap (blockItem e) :=
        fun item hitem => mem_filterMap.mpr ⟨b, hb, hitem⟩
      cases b with
      | text b => cases hs
      | thinking b => cases hs
      | redactedThinking b => cases hs
      | image b =>
        rw [blockSentAsIs] at hs
        split at hs
        · next hassistant =>
          rw [mem_singleton.mp hs]
          have hpart : RolePart.image (imageDataUrl b) ∈ blocks.filterMap (rolePart e) :=
            mem_filterMap.mpr ⟨.image b, hb, rfl⟩
          have hmem : ContentPart.image (imageDataUrl b) ∈
              (blocks.filterMap (rolePart e)).filterMap (roleContent m.role) :=
            mem_filterMap.mpr ⟨_, hpart, if_pos hassistant⟩
          refine ⟨.message "user" ((blocks.filterMap (rolePart e)).filterMap (roleContent m.role)), ?_,
            mem_cons_of_mem _ (mem_flatMap.mpr ⟨_, hmem, mem_cons_self⟩)⟩
          refine mem_append_left _ (mem_append_left _ (mem_append_right _ ?_))
          rw [Option.mem_toList, roleMessageItem_eq, if_neg (ne_nil_of_mem hmem), if_pos hassistant]
        · cases hs
      | responsesReasoning b =>
        refine ⟨reasoningItem e b, mem_append_left _ (mem_append_left _
          (mem_append_left _ (hplace _ rfl))), ?_⟩
        rcases mem_append.mp hs with hs | hs
        · exact mem_append_left _ (mem_append_left _ (mem_append_right _ hs))
        · exact mem_append_right _ hs
      | webSearchCall b =>
        rw [blockSentAsIs] at hs
        split at hs
        · next htype =>
          exact ⟨webSearchItem b, mem_append_left _ (mem_append_left _
            (mem_append_left _ (hplace _ (if_pos htype)))), hs⟩
        · cases hs
      | toolCall c =>
        refine ⟨callItem e c, mem_append_left _ (mem_append_right _ (mem_map_of_mem
          (Message.mem_calls.mpr (hblocks ▸ hb)))), ?_⟩
        rcases mem_pair.mp hs with rfl | rfl
        · exact mem_cons_self
        · exact mem_cons_of_mem _ mem_cons_self
      | toolResult r =>
        rcases mem_cons.mp hs with rfl | hs
        · exact ⟨outputItem e r, mem_append_left _ (mem_append_left _
            (mem_append_left _ (hplace _ rfl))), mem_cons_self⟩
        · split at hs
          · cases hs
          · next hne =>
            refine ⟨_, mem_append_right _ (mem_filterMap.mpr
              ⟨r, Message.mem_results.mpr (hblocks ▸ hb), if_neg hne⟩), ?_⟩
            refine mem_cons_of_mem _ (mem_flatMap.mpr ?_)
            rcases mem_cons.mp hs with rfl | hs
            · exact ⟨_, mem_cons_self, mem_cons_of_mem _ mem_cons_self⟩
            · obtain ⟨image, himage, rfl⟩ := mem_map.mp hs
              exact ⟨.image (imageDataUrl image), mem_cons_of_mem _
                (mem_map.mpr ⟨image, himage, rfl⟩), mem_cons_self⟩

/-! ### The whole input -/

/-- The call id of a call or an output. -/
def Item.ids : Item → List String
  | .call _ callId _ _ => [callId]
  | .output _ callId _ => [callId]
  | _ => []

theorem ids_roleMessageItem {role : Role} {parts : List RolePart}
    (h : item ∈ (roleMessageItem role parts).toList) : item.ids = [] := by
  rw [Option.mem_toList, roleMessageItem_eq, Option.ite_none_left_eq_some] at h
  rw [← Option.some.inj h.2]
  rfl

theorem ids_messageItems {e : Escaping} (h : item ∈ messageItems e m) {id : String}
    (hid : id ∈ item.ids) : id ∈ sentAsIs m := by
  rw [messageItems] at h
  split at h
  · cases h
  · next hrole =>
    rw [sentAsIs, if_neg hrole]
    cases hcontent : m.content with
    | str text =>
      rw [hcontent] at h
      rw [ids_roleMessageItem h] at hid
      cases hid
    | blocks blocks =>
      have hblocks : m.blocks = blocks := by rw [Message.blocks, hcontent]
      rw [hblocks]
      rw [hcontent] at h
      rcases mem_append.mp h with h | h
      · rcases mem_append.mp h with h | h
        · rcases mem_append.mp h with h | h
          · obtain ⟨b, hb, hitem⟩ := mem_filterMap.mp h
            refine mem_flatMap.mpr ⟨b, hb, ?_⟩
            cases b with
            | responsesReasoning b =>
              cases hitem
              cases hid
            | webSearchCall b =>
              rw [← Option.some.inj (Option.ite_none_right_eq_some.mp hitem).2] at hid
              cases hid
            | toolResult r =>
              cases hitem
              rw [mem_singleton.mp hid]
              exact mem_cons_self
            | _ => cases hitem
          · rw [ids_roleMessageItem h] at hid
            cases hid
        · obtain ⟨c, hc, rfl⟩ := mem_map.mp h
          rw [mem_singleton.mp hid]
          exact mem_flatMap.mpr
            ⟨.toolCall c, hblocks ▸ Message.mem_calls.mp hc, mem_cons_self⟩
      · obtain ⟨r, -, hitem⟩ := mem_filterMap.mp h
        rw [toolResultImageMessage, Option.ite_none_left_eq_some] at hitem
        rw [← Option.some.inj hitem.2] at hid
        cases hid

theorem answered_inert (h : ∀ id ∈ item.ids, escapeHarmonyControlTokens id = id) :
    item.inert.answered = item.answered := by
  cases item with
  | output kind callId result => exact congrArg some (h callId mem_cons_self)
  | call kind callId name payload => cases kind <;> rfl
  | _ => rfl

/-- The placeholders go with the call ids. -/
theorem padding_inert {items : List Item}
    (h : ∀ item ∈ items, ∀ id ∈ item.ids, escapeHarmonyControlTokens id = id)
    (answered : List String) :
    padding answered (items.map Item.inert) = (padding answered items).map Item.inert := by
  have hplaceholder : escapeHarmonyControlTokens NO_OUTPUT = NO_OUTPUT :=
    escape_of_not_mem (by decide)
  induction items generalizing answered with
  | nil => rfl
  | cons item items ih =>
    have hrest := fun answered =>
      ih (fun item hitem => h item (mem_cons_of_mem _ hitem)) answered
    cases item with
    | call kind callId name payload =>
      have hid := h _ mem_cons_self callId mem_cons_self
      have hinert : ∃ payload', Item.inert (.call kind callId name payload) =
          .call kind callId (escapeHarmonyControlTokens name) payload' := by
        cases kind with
        | json | freeform => exact ⟨_, by rw [Item.inert, hid]⟩
      obtain ⟨payload', hinert⟩ := hinert
      rw [map_cons, hinert, padding, padding]
      split
      · exact hrest answered
      · rw [map_cons, hrest, Item.inert, hid, hplaceholder]
    | message role content => exact hrest answered
    | reasoning summary encryptedContent content id => exact hrest answered
    | webSearchCall status action id => exact hrest answered
    | output kind callId result => exact hrest answered

/-- A hosted search whose query spells a control token. -/
def searchedToken : List Message :=
  [{ role := .assistant
     content := .blocks [.webSearchCall
       { itemId := some "ws_1", status := some "completed"
         action := [("type", .str "search"), ("query", .str "what is <|channel|>")] }] }]

end KolegaCode.Responses
