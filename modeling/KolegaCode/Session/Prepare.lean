import KolegaCode.Lib.Utf8
import KolegaCode.Session.Replay

/-!
# Session — messages as they are stored

`prepare_message`: long tool results, images and the opaque fields of the providers are written to
the artifact store, and the stored message holds a preview or nothing in their place.  A message of
short tool results is stored as it is (`prepareDict_results`).
-/

namespace KolegaCode.Session

open List
open Json (Dict get?)
open Utf8 (encode)

/-! ### Artifacts -/

/-- `TOOL_RESULT_PREVIEW_CHARS`. -/
def toolResultPreviewChars : Nat := 100000

/-- The store of a journal: writing a file, which may raise and gives its digest, the path of a
digest, and `base64.b64decode` with validation. -/
structure ArtifactStore where
  write : Bytes → Except String String
  path : String → String
  decode : String → Option Bytes

/-- A reference to an artifact. -/
structure ArtifactRef where
  sha256 : String
  bytes : Nat
  mediaType : String
  purpose : String
  encoding : String
  path : String
  chars : Option Nat := none
deriving Repr, DecidableEq

def ArtifactRef.toDict (ref : ArtifactRef) : Dict :=
  [("sha256", .str ref.sha256), ("bytes", .int ref.bytes), ("media_type", .str ref.mediaType),
    ("purpose", .str ref.purpose), ("encoding", .str ref.encoding), ("path", .str ref.path)] ++
  match ref.chars with
  | some n => [("chars", .int n)]
  | none => []

/-- `put_artifact`. -/
def putArtifact (store : ArtifactStore) (data : Bytes) (mediaType purpose encoding : String)
    (chars : Option Nat) : Except String ArtifactRef := do
  let digest ← store.write data
  return {
    sha256 := digest
    bytes := data.length
    mediaType := mediaType
    purpose := purpose
    encoding := encoding
    path := store.path digest
    chars := chars }

/-- `f"{n:,}"`. -/
def withCommas (n : Nat) : String :=
  let digits := (toString n).toList.reverse
  let grouped := digits.zipIdx.flatMap fun p =>
    if p.2 ≠ 0 ∧ p.2 % 3 = 0 then [',', p.1] else [p.1]
  String.ofList grouped.reverse

/-- `_tool_result_preview`, with the number of characters of the content. -/
def toolResultPreview (content : String) (ref : ArtifactRef) : String :=
  let location := if ref.path ≠ "" then ref.path else "the session artifact store"
  let marker := "\n\n[Middle of tool result omitted from model history. " ++
    s!"Full output: {location} (sha256 {ref.sha256}, {withCommas content.length} characters).]\n\n"
  let available := toolResultPreviewChars - marker.length
  let head := available / 2
  let tail := available - head
  String.ofList (content.toList.take head) ++ marker ++
    String.ofList (content.toList.drop (content.length - tail))

/-! ### Blocks -/

/-- `d[key] = value`. -/
def setItem (d : Dict) (key : String) (value : Json) : Dict :=
  if (get? d key).isSome then d.map fun p => if p.1 = key then (key, value) else p
  else d ++ [(key, value)]

/-- A field whose value goes to the store: the bytes it stands for, or what is raised without
them. -/
def prepareField (store : ArtifactStore) (raw : Dict) (field : String)
    (data : Option Bytes) (mediaType purpose encoding invalid : String) :
    Except String (Dict × List ArtifactRef) :=
  match data with
  | none => .error invalid
  | some data => do
    let ref ← putArtifact store data mediaType purpose encoding none
    return (setItem (setItem raw field (.str "")) "artifact_fields"
      (.obj [(field, .obj ref.toDict)]), [ref])

/-- An opaque field of a provider. -/
def prepareOpaque (store : ArtifactStore) (raw : Dict) (field purpose : String) :
    Except String (Dict × List ArtifactRef) :=
  match (get? raw field).filter truthy with
  | none => .ok (raw, [])
  | some value =>
    let encoding := if field = "thought_signature" then "base64" else "utf-8"
    let data := if field = "thought_signature" then store.decode (strOf value)
      else some (encode (strOf value).toList)
    prepareField store raw field data "application/octet-stream" purpose encoding
      s!"Invalid encoded provider field: {field}"

/-- The image of a block. -/
def prepareImage (store : ArtifactStore) (raw : Dict) : Except String (Dict × List ArtifactRef) :=
  match (get? raw "data").filter truthy with
  | none => .ok (raw, [])
  | some data =>
    if get? raw "image_type" ≠ some (.str "base64") then .ok (raw, [])
    else
      let mediaType := match (get? raw "media_type").filter truthy with
        | some v => strOf v
        | none => "application/octet-stream"
      prepareField store raw "data" (store.decode (strOf data)) mediaType "image" "base64"
        "Image block contains invalid base64 data"

/-- A block that is no tool result. -/
def prepareLeaf (store : ArtifactStore) (raw : Dict) : Except String (Dict × List ArtifactRef) :=
  match get? raw "type" with
  | some (.str "image_url") => prepareImage store raw
  | some (.str "thinking") => prepareOpaque store raw "signature" "provider_signature"
  | some (.str "redacted_thinking") => prepareOpaque store raw "data" "redacted_reasoning"
  | some (.str "responses_reasoning") =>
    prepareOpaque store raw "encrypted_content" "encrypted_reasoning"
  | some (.str "tool_call") => prepareOpaque store raw "thought_signature" "thought_signature"
  | _ => .ok (raw, [])

/-- A tool result whose content is a long string. -/
def prepareText (store : ArtifactStore) (raw : Dict) (content : String) :
    Except String (Dict × List ArtifactRef) :=
  if content.length ≤ toolResultPreviewChars then .ok (raw, [])
  else do
    let ref ← putArtifact store (encode content.toList) "text/plain; charset=utf-8" "tool_result"
      "utf-8" (some content.length)
    return (setItem (setItem raw "content" (.str (toolResultPreview content ref)))
      "content_artifact" (.obj ref.toDict), [ref])

mutual

/-- One block: what is no dictionary stays as it is. -/
def prepareBlock (store : ArtifactStore) : Json → Except String (Json × List ArtifactRef)
  | .obj raw =>
    if get? raw "type" = some (.str "tool_result") then
      match get? raw "content" with
      | some (.str content) => do
        let (raw, refs) ← prepareText store raw content
        return (.obj raw, refs)
      | _ => do
        let (raw, refs) ← prepareNested store raw
        return (.obj raw, refs)
    else do
      let (raw, refs) ← prepareLeaf store raw
      return (.obj raw, refs)
  | v => .ok (v, [])

/-- The nested blocks of a tool result. -/
def prepareNested (store : ArtifactStore) : Dict → Except String (Dict × List ArtifactRef)
  | [] => .ok ([], [])
  | (key, .arr blocks) :: raw => do
    let (blocks, refs) ← if key = "content" then prepareBlocks store blocks else .ok (blocks, [])
    let (raw, refs') ← prepareNested store raw
    return ((key, .arr blocks) :: raw, refs ++ refs')
  | item :: raw => do
    let (raw, refs) ← prepareNested store raw
    return (item :: raw, refs)

/-- `_prepare_blocks`. -/
def prepareBlocks (store : ArtifactStore) : List Json → Except String (List Json × List ArtifactRef)
  | [] => .ok ([], [])
  | block :: blocks => do
    let (block, refs) ← prepareBlock store block
    let (blocks, refs') ← prepareBlocks store blocks
    return (block :: blocks, refs ++ refs')

end

/-- `_dedupe_refs`. -/
def dedupeRefs : List ArtifactRef → List ArtifactRef
  | [] => []
  | ref :: refs => ref :: (dedupeRefs refs).filter fun later => later.sha256 ≠ ref.sha256

/-- `prepare_message`: the stored message and its artifacts. -/
def prepareDict (store : ArtifactStore) (message : Dict) :
    Except String (Dict × List ArtifactRef) :=
  match get? message "content" with
  | some (.arr blocks) => do
    let (blocks, refs) ← prepareBlocks store blocks
    return (setItem message "content" (.arr blocks), dedupeRefs refs)
  | _ => .ok (message, [])

/-! ### Messages that stay as they are -/

theorem setItem_same {d : Dict} {key : String} {value : Json} (hd : (d.map Prod.fst).Nodup)
    (h : get? d key = some value) : setItem d key value = d := by
  rw [setItem, h, Option.isSome_some, if_pos rfl]
  induction d with
  | nil => rfl
  | cons p d ih =>
    obtain ⟨k, v⟩ := p
    rw [Json.get?_cons] at h
    simp only [map_cons, nodup_cons] at hd
    rw [map_cons]
    split at h
    · rename_i hk
      subst hk
      cases h
      rw [if_pos rfl]
      refine congrArg _ ?_
      have hother : ∀ p ∈ d, (if p.1 = k then (k, value) else p) = p := by
        intro p hp
        refine if_neg ?_
        intro hpk
        exact hd.1 (hpk ▸ mem_map_of_mem hp)
      rw [map_congr_left hother, map_id']
    · rename_i hk
      rw [if_neg hk, ih hd.2 h]

/-- A tool result with a short text. -/
structure ShortResult (block : Dict) : Prop where
  type : get? block "type" = some (.str "tool_result")
  content : ∃ text, get? block "content" = some (.str text) ∧ text.length ≤ toolResultPreviewChars

variable {store : ArtifactStore} {results : List Dict}

theorem prepareBlock_short {block : Dict} (h : ShortResult block) :
    prepareBlock store (.obj block) = .ok (.obj block, []) := by
  obtain ⟨htype, text, hcontent, hlen⟩ := h
  rw [prepareBlock, if_pos htype, hcontent]
  simp only [prepareText, if_pos hlen]
  rfl

theorem prepareBlocks_short (h : ∀ block ∈ results, ShortResult block) :
    prepareBlocks store (results.map .obj) = .ok (results.map .obj, []) := by
  induction results with
  | nil => rfl
  | cons block results ih =>
    rw [map_cons, prepareBlocks, prepareBlock_short (h block (by simp)),
      ih fun x hx => h x (by simp [hx])]
    rfl

/-- **A message of short tool results is stored as it is.** -/
theorem prepareDict_results {message : Dict} (hkeys : (message.map Prod.fst).Nodup)
    (hcontent : get? message "content" = some (.arr (results.map .obj)))
    (h : ∀ block ∈ results, ShortResult block) : prepareDict store message = .ok (message, []) := by
  rw [prepareDict, hcontent]
  simp only [prepareBlocks_short h]
  show Except.ok (setItem message "content" _, dedupeRefs []) = _
  rw [setItem_same hkeys hcontent]
  rfl

end KolegaCode.Session
