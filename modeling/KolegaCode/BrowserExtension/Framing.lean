import KolegaCode.Lib.JsonHooks
import KolegaCode.Lib.JsonLine
import KolegaCode.Lib.Chunked
import KolegaCode.Lib.Except

/-!
# Browser extension — frames of native messages

A message is a JSON object in UTF-8 behind its length in four bytes.  One reader takes frames off
what it is given and one waits until its buffer is long enough; both do what `readFrame` does with
the bytes of the stream.
-/

namespace KolegaCode.BrowserExtension.Framing

open List
open Json (Dict Canonical dumpsBytes finite loadsWith Hooks)
open Chunked

/-- The errors of the module, a number that does not fit the header, and an assertion. -/
inductive FramingError where
  | valueError (message : String)
  | framing (message : String)
  | messageTooLarge
  | truncatedMessage
  | structError
  | assertionError
deriving DecidableEq, Repr

/-- The size of a header. -/
def HEADER_SIZE : Nat := 4

/-! ### Messages -/

/-- `_reject_duplicate_keys` and `_reject_constant`. -/
def hooks : Hooks FramingError :=
  .strict (.framing "Native message contains a duplicate object key")
    (.framing "Native message contains a non-finite number")

def decodeObject (data : List UInt8) : Except FramingError Dict :=
  match Utf8.decode data with
  | none => .error (.framing "Native message is not valid UTF-8")
  | some text =>
    match loadsWith hooks text with
    | .error (.hook e) => .error e
    | .error .syntaxError => .error (.framing "Native message is not valid JSON")
    | .ok (.obj value) => .ok value
    | .ok _ => .error (.framing "Native message must be a JSON object")

def checkMaxBytes (maxBytes : Int) : Except FramingError Unit :=
  if maxBytes ≤ 0 then .error (.valueError "max_bytes must be positive") else .ok ()

def encodeMessage (message : Dict) (maxBytes : Int) : Except FramingError (List UInt8) := do
  checkMaxBytes maxBytes
  if finite (.obj message) = false then
    .error (.framing "Native message is not JSON serializable")
  else
    let payload := dumpsBytes (.obj message)
    if payload.length > maxBytes then .error .messageTooLarge
    else if payload.length < 256 ^ HEADER_SIZE then
      return littleEndian HEADER_SIZE payload.length ++ payload
    else .error .structError

/-! ### The reader of a stream -/

/-- The loop of `_read_exact`: it reads what is missing until nothing is. -/
def readMissing (size : Nat) (allowCleanEof : Bool) (chunks : List UInt8)
    (stream : List (Chunk UInt8)) :
    Except FramingError (Option (List UInt8) × List (Chunk UInt8)) :=
  if chunks.length < size then
    if (read (size - chunks.length) stream).1 = [] then
      if chunks = [] ∧ allowCleanEof = true then .ok (none, stream) else .error .truncatedMessage
    else
      readMissing size allowCleanEof (chunks ++ (read (size - chunks.length) stream).1)
        (read (size - chunks.length) stream).2
  else .ok (some chunks, stream)
termination_by size - chunks.length
decreasing_by
  rename_i hlt hne
  have := List.length_pos_iff.mpr hne
  rw [List.length_append]
  omega

def readExact (stream : List (Chunk UInt8)) (size : Nat) (allowCleanEof : Bool) :
    Except FramingError (Option (List UInt8) × List (Chunk UInt8)) :=
  readMissing size allowCleanEof [] stream

def readMessage (maxBytes : Int) (stream : List (Chunk UInt8)) :
    Except FramingError (Option (Dict × List (Chunk UInt8))) := do
  checkMaxBytes maxBytes
  match ← readExact stream HEADER_SIZE true with
  | (none, _) => return none
  | (some header, stream) =>
    let length := ofLittleEndian header
    if length > maxBytes then .error .messageTooLarge
    else
      match ← readExact stream length false with
      | (none, _) => .error .assertionError
      | (some payload, stream) =>
        let message ← decodeObject payload
        return some (message, stream)

/-! ### The reader that waits -/

/-- A reader with what has arrived and is not taken, and what will arrive. -/
structure StreamReader where
  buffer : List UInt8 := []
  arriving : List (Chunk UInt8)

/-- It waits until the buffer has `n` bytes or nothing arrives any more. -/
def waitForData (n : Nat) (buffer : List UInt8) :
    List (Chunk UInt8) → List UInt8 × List (Chunk UInt8)
  | [] => (buffer, [])
  | chunk :: arriving =>
    if buffer.length < n then waitForData n (buffer ++ chunk.items) arriving
    else (buffer, chunk :: arriving)

/-- `readexactly(n)`; the error is the partial read. -/
def StreamReader.readexactly (reader : StreamReader) (n : Nat) :
    Except (List UInt8) (List UInt8 × StreamReader) :=
  let (buffer, arriving) := waitForData n reader.buffer reader.arriving
  if buffer.length < n then .error buffer else .ok (buffer.take n, ⟨buffer.drop n, arriving⟩)

def readMessageAsync (maxBytes : Int) (reader : StreamReader) :
    Except FramingError (Option (Dict × StreamReader)) := do
  checkMaxBytes maxBytes
  match reader.readexactly HEADER_SIZE with
  | .error partialRead => if partialRead = [] then return none else .error .truncatedMessage
  | .ok (header, reader) =>
    let length := ofLittleEndian header
    if length > maxBytes then .error .messageTooLarge
    else
      match reader.readexactly length with
      | .error _ => .error .truncatedMessage
      | .ok (payload, reader) =>
        let message ← decodeObject payload
        return some (message, reader)

/-- All bytes a reader has and will have. -/
def StreamReader.content (reader : StreamReader) : List UInt8 :=
  reader.buffer ++ Chunked.content reader.arriving

/-! ### The frame at the front of the bytes -/

/-- What both readers do, on the bytes alone. -/
def readFrame (maxBytes : Int) (bytes : List UInt8) :
    Except FramingError (Option (Dict × List UInt8)) := do
  checkMaxBytes maxBytes
  if bytes = [] then return none
  else if bytes.length < HEADER_SIZE then .error .truncatedMessage
  else
    let length := ofLittleEndian (bytes.take HEADER_SIZE)
    if length > maxBytes then .error .messageTooLarge
    else if (bytes.drop HEADER_SIZE).length < length then .error .truncatedMessage
    else
      let message ← decodeObject ((bytes.drop HEADER_SIZE).take length)
      return some (message, (bytes.drop HEADER_SIZE).drop length)

/-! ### The readers read frames -/

variable {size : Nat} {allowCleanEof : Bool} {chunks frame bytes : List UInt8}
  {stream : List (Chunk UInt8)} {reader : StreamReader} {message : Dict} {maxBytes : Int}
  {messages : List Dict} {outcome : Except FramingError Unit}

theorem readMissing_of_le (hchunks : chunks.length ≤ size)
    (h : size ≤ (chunks ++ content stream).length) :
    ∃ stream', readMissing size allowCleanEof chunks stream =
        .ok (some ((chunks ++ content stream).take size), stream') ∧
      content stream' = (chunks ++ content stream).drop size := by
  fun_induction readMissing size allowCleanEof chunks stream with
  | case1 chunks stream hlt hempty heof | case2 chunks stream hlt hempty heof =>
    rw [content_of_read_nil (by omega) hempty, append_nil] at h
    omega
  | case3 chunks stream hlt hempty ih =>
    have happend : chunks ++ (read (size - chunks.length) stream).1 ++
        content (read (size - chunks.length) stream).2 = chunks ++ content stream := by
      rw [append_assoc, read_append]
    rw [happend] at ih
    refine ih ?_ h
    have := length_read_le (size - chunks.length) stream
    rw [length_append]
    omega
  | case4 chunks stream hge =>
    have hsize : chunks.length = size := by omega
    refine ⟨stream, ?_, ?_⟩
    · rw [take_append_of_le_length hsize.ge, take_of_length_le hsize.le]
    · rw [← hsize, drop_left]

theorem readMissing_of_lt (h : (chunks ++ content stream).length < size) :
    readMissing size allowCleanEof chunks stream =
      if chunks ++ content stream = [] ∧ allowCleanEof = true then .ok (none, stream)
      else .error .truncatedMessage := by
  fun_induction readMissing size allowCleanEof chunks stream with
  | case1 chunks stream hlt hempty heof =>
    rw [content_of_read_nil (by omega) hempty, append_nil, if_pos heof]
  | case2 chunks stream hlt hempty heof =>
    rw [content_of_read_nil (by omega) hempty, append_nil, if_neg heof]
  | case3 chunks stream hlt hempty ih =>
    have happend : chunks ++ (read (size - chunks.length) stream).1 ++
        content (read (size - chunks.length) stream).2 = chunks ++ content stream := by
      rw [append_assoc, read_append]
    have hne : chunks ++ content stream ≠ [] := by
      rw [← happend]
      simp [hempty]
    rw [happend] at ih
    rw [ih h, if_neg (fun hn => hne hn.1), if_neg (fun hn => hne hn.1)]
  | case4 chunks stream hge =>
    rw [length_append] at h
    omega

theorem readExact_of_le (allowCleanEof : Bool) (h : size ≤ (content stream).length) :
    ∃ stream', readExact stream size allowCleanEof =
        .ok (some ((content stream).take size), stream') ∧
      content stream' = (content stream).drop size :=
  readMissing_of_le (Nat.zero_le _) h

theorem readExact_of_lt (h : (content stream).length < size) :
    readExact stream size allowCleanEof =
      if content stream = [] ∧ allowCleanEof = true then .ok (none, stream)
      else .error .truncatedMessage :=
  readMissing_of_lt h

/-- **The reader of a stream reads frames.** -/
theorem readMessage_content (maxBytes : Int) (stream : List (Chunk UInt8)) :
    (readMessage maxBytes stream).map (Option.map (Prod.map id content)) =
      readFrame maxBytes (content stream) := by
  rw [readMessage, readFrame]
  cases checkMaxBytes maxBytes with
  | error e => rfl
  | ok u =>
    simp only [bind, Except.bind, pure, Except.pure]
    by_cases hheader : (content stream).length < HEADER_SIZE
    · rw [readExact_of_lt hheader, if_pos hheader]
      by_cases hempty : content stream = []
      · rw [if_pos ⟨hempty, rfl⟩, if_pos hempty]
        rfl
      · rw [if_neg (fun h => hempty h.1), if_neg hempty]
        rfl
    · obtain ⟨rest, hread, hrest⟩ := readExact_of_le true (Nat.not_lt.mp hheader)
      have hne : content stream ≠ [] := by
        intro hempty
        rw [hempty] at hheader
        exact hheader (by decide)
      rw [hread, if_neg hheader, if_neg hne]
      dsimp only
      split
      · rfl
      · rw [← hrest]
        by_cases hpayload :
            (content rest).length < ofLittleEndian ((content stream).take HEADER_SIZE)
        · rw [readExact_of_lt hpayload, if_pos hpayload, if_neg (fun h => by cases h.2)]
          rfl
        · obtain ⟨rest', hread', hrest'⟩ :=
            readExact_of_le false (Nat.not_lt.mp hpayload)
          rw [hread', if_neg hpayload, ← hrest']
          dsimp only
          cases decodeObject _ <;> rfl

theorem waitForData_content (n : Nat) (buffer : List UInt8) (arriving : List (Chunk UInt8)) :
    (waitForData n buffer arriving).1 ++ content (waitForData n buffer arriving).2 =
        buffer ++ content arriving ∧
      (n ≤ (waitForData n buffer arriving).1.length ∨
        (waitForData n buffer arriving).2 = []) := by
  fun_induction waitForData n buffer arriving with
  | case1 buffer => exact ⟨rfl, .inr rfl⟩
  | case2 buffer chunk arriving hlt ih =>
    rw [content_cons, ← append_assoc]
    exact ih
  | case3 buffer chunk arriving hge => exact ⟨rfl, .inl (Nat.not_lt.mp hge)⟩

theorem readexactly_of_le {n : Nat} (h : n ≤ reader.content.length) :
    ∃ reader', reader.readexactly n = .ok (reader.content.take n, reader') ∧
      reader'.content = reader.content.drop n := by
  obtain ⟨hcontent, henough⟩ := waitForData_content n reader.buffer reader.arriving
  have hlength : n ≤ (waitForData n reader.buffer reader.arriving).1.length := by
    rcases henough with henough | hended
    · exact henough
    · rw [hended, content_nil, append_nil] at hcontent
      rwa [hcontent]
  refine ⟨⟨(waitForData n reader.buffer reader.arriving).1.drop n,
    (waitForData n reader.buffer reader.arriving).2⟩, ?_, ?_⟩
  · rw [StreamReader.content, ← hcontent, take_append_of_le_length hlength]
    exact if_neg (Nat.not_lt.mpr hlength)
  · rw [StreamReader.content, StreamReader.content, ← hcontent, drop_append_of_le_length hlength]

theorem readexactly_of_lt {n : Nat} (h : reader.content.length < n) :
    reader.readexactly n = .error reader.content := by
  obtain ⟨hcontent, henough⟩ := waitForData_content n reader.buffer reader.arriving
  rw [← StreamReader.content] at hcontent
  have hended : (waitForData n reader.buffer reader.arriving).2 = [] := by
    rcases henough with henough | hended
    · rw [← hcontent, length_append] at h
      omega
    · exact hended
  rw [hended, content_nil, append_nil] at hcontent
  rw [← hcontent] at h ⊢
  exact if_pos h

/-- **The reader that waits reads frames.** -/
theorem readMessageAsync_content (maxBytes : Int) (reader : StreamReader) :
    (readMessageAsync maxBytes reader).map (Option.map (Prod.map id StreamReader.content)) =
      readFrame maxBytes reader.content := by
  rw [readMessageAsync, readFrame]
  cases checkMaxBytes maxBytes with
  | error e => rfl
  | ok u =>
    simp only [bind, Except.bind, pure, Except.pure]
    by_cases hheader : reader.content.length < HEADER_SIZE
    · rw [readexactly_of_lt hheader, if_pos hheader]
      dsimp only
      split <;> rfl
    · obtain ⟨rest, hread, hrest⟩ := readexactly_of_le (Nat.not_lt.mp hheader)
      have hne : reader.content ≠ [] := by
        intro hempty
        rw [hempty] at hheader
        exact hheader (by decide)
      rw [hread, if_neg hheader, if_neg hne]
      dsimp only
      split
      · rfl
      · rw [← hrest]
        by_cases hpayload :
            rest.content.length < ofLittleEndian (reader.content.take HEADER_SIZE)
        · rw [readexactly_of_lt hpayload, if_pos hpayload]
          rfl
        · obtain ⟨rest', hread', hrest'⟩ := readexactly_of_le (Nat.not_lt.mp hpayload)
          rw [hread', if_neg hpayload, ← hrest']
          dsimp only
          cases decodeObject _ <;> rfl

/-! ### Frames that were written -/

/-- A frame `encode_message` makes of a dictionary Python can hold. -/
structure Frame (maxBytes : Int) (message : Dict) (frame : List UInt8) : Prop where
  canonical : Canonical (.obj message)
  encoded : encodeMessage message maxBytes = .ok frame

theorem decodeObject_dumpsBytes (hcanonical : Canonical (.obj message))
    (hfinite : finite (.obj message) = true) :
    decodeObject (dumpsBytes (.obj message)) = .ok message := by
  have hloads : loadsWith hooks (Json.dumps (.obj message)) = .ok (.obj message) :=
    Json.loadsWith_dumps (Json.Hooks.plain_strict _ _) hcanonical hfinite
  rw [decodeObject, dumpsBytes, Utf8.decode_encode]
  dsimp only
  rw [hloads]

/-- What a frame is: the bytes of an object that is within the bound, behind their number. -/
theorem Frame.eq (h : Frame maxBytes message frame) :
    ∃ payload, frame = littleEndian HEADER_SIZE payload.length ++ payload ∧
      0 < maxBytes ∧ (payload.length : Int) ≤ maxBytes ∧ payload.length < 256 ^ HEADER_SIZE ∧
      decodeObject payload = .ok message := by
  have hencoded := h.encoded
  rw [encodeMessage] at hencoded
  obtain ⟨u, hmax, hencoded⟩ := bind_eq_ok.mp hencoded
  split at hencoded
  · cases hencoded
  · next hfinite =>
    dsimp only at hencoded
    split at hencoded
    · cases hencoded
    · next hlength =>
      split at hencoded
      · next hheader =>
        cases hencoded
        refine ⟨_, rfl, ?_, Int.not_lt.mp hlength, hheader,
          decodeObject_dumpsBytes h.canonical (by simpa using hfinite)⟩
        rw [checkMaxBytes] at hmax
        split at hmax
        · cases hmax
        · next hpositive => exact Int.not_le.mp hpositive
      · cases hencoded

/-- **A frame in front of other bytes** is read, and the other bytes are left. -/
theorem readFrame_append (h : Frame maxBytes message frame) (rest : List UInt8) :
    readFrame maxBytes (frame ++ rest) = .ok (some (message, rest)) := by
  obtain ⟨payload, rfl, hmax, hle, hheader, hdecode⟩ := h.eq
  have hlength : (littleEndian HEADER_SIZE payload.length).length = HEADER_SIZE :=
    length_littleEndian _ _
  have htake : (littleEndian HEADER_SIZE payload.length ++ payload ++ rest).take HEADER_SIZE =
      littleEndian HEADER_SIZE payload.length := by
    rw [append_assoc, take_append_of_le_length hlength.ge, take_of_length_le hlength.le]
  have hdrop : (littleEndian HEADER_SIZE payload.length ++ payload ++ rest).drop HEADER_SIZE =
      payload ++ rest := by
    rw [append_assoc]
    exact drop_left' hlength
  have hne : littleEndian HEADER_SIZE payload.length ++ payload ++ rest ≠ [] := by
    intro hempty
    rw [hempty, take_nil] at htake
    rw [← htake] at hlength
    exact absurd hlength (by decide)
  have henough : ¬ (littleEndian HEADER_SIZE payload.length ++ payload ++ rest).length <
      HEADER_SIZE := by
    rw [length_append, length_append, hlength]
    omega
  rw [readFrame, checkMaxBytes, if_neg (Int.not_le.mpr hmax)]
  simp only [bind, Except.bind, pure, Except.pure]
  rw [if_neg hne, if_neg henough, htake, hdrop, ofLittleEndian_littleEndian hheader,
    if_neg (Int.not_lt.mpr hle), List.take_left, drop_left, hdecode, if_neg]
  rw [length_append]
  omega

/-- **A frame that is cut inside** is a truncated message. -/
theorem readFrame_cut {front back : List UInt8} (h : Frame maxBytes message frame)
    (hcut : frame = front ++ back) (hfront : front ≠ []) (hback : back ≠ []) :
    readFrame maxBytes front = .error .truncatedMessage := by
  obtain ⟨payload, rfl, hmax, hle, hheader, -⟩ := h.eq
  have hlength : (littleEndian HEADER_SIZE payload.length).length = HEADER_SIZE :=
    length_littleEndian _ _
  have hsum : front.length + back.length = HEADER_SIZE + payload.length := by
    rw [← length_append, ← hcut, length_append, hlength]
  have hpositive := length_pos_iff.mpr hback
  rw [readFrame, checkMaxBytes, if_neg (Int.not_le.mpr hmax)]
  simp only [bind, Except.bind, pure, Except.pure]
  rw [if_neg hfront]
  by_cases hshort : front.length < HEADER_SIZE
  · rw [if_pos hshort]
  · have htake : front.take HEADER_SIZE = littleEndian HEADER_SIZE payload.length := by
      rw [← @List.take_append_of_le_length _ _ back _ (Nat.not_lt.mp hshort), ← hcut,
        take_append_of_le_length hlength.ge, take_of_length_le hlength.le]
    rw [if_neg hshort, htake, ofLittleEndian_littleEndian hheader, if_neg (Int.not_lt.mpr hle),
      if_pos]
    rw [length_drop]
    omega

theorem yields_frames {frames : List (List UInt8)}
    (h : List.Forall₂ (Frame maxBytes) messages frames) {rest : List UInt8} {more : List Dict}
    (hrest : Yields (readFrame maxBytes) rest more outcome) :
    Yields (readFrame maxBytes) (frames.flatten ++ rest) (messages ++ more) outcome := by
  induction h with
  | nil => exact hrest
  | cons hframe _ ih =>
    rw [flatten_cons, append_assoc, cons_append]
    exact .next (readFrame_append hframe _) ih

theorem length_lt_of_readFrame {rest : List UInt8}
    (h : readFrame maxBytes bytes = .ok (some (message, rest))) : rest.length < bytes.length := by
  obtain ⟨u, -, h⟩ := bind_eq_ok.mp h
  split at h
  · cases h
  · split at h
    · cases h
    · next hheader =>
      dsimp only at h
      split at h
      · cases h
      · split at h
        · cases h
        · obtain ⟨message', -, h⟩ := bind_eq_ok.mp h
          cases h
          rw [length_drop, length_drop]
          have : 0 < HEADER_SIZE := by decide
          omega

/-! ### Both readers -/

/-- Both readers yield these messages and come to this end, and nothing else. -/
def BothYield (maxBytes : Int) (stream : List (Chunk UInt8)) (reader : StreamReader)
    (messages : List Dict) (outcome : Except FramingError Unit) : Prop :=
  (∀ messages' outcome', Yields (readMessage maxBytes) stream messages' outcome' ↔
      messages' = messages ∧ outcome' = outcome) ∧
    ∀ messages' outcome', Yields (readMessageAsync maxBytes) reader messages' outcome' ↔
      messages' = messages ∧ outcome' = outcome

theorem bothYield (h : Yields (readFrame maxBytes) bytes messages outcome)
    (hstream : content stream = bytes) (hreader : reader.content = bytes) :
    BothYield maxBytes stream reader messages outcome := by
  subst hstream
  have hsync : Yields (readMessage maxBytes) stream messages outcome :=
    (yields_view (readMessage_content maxBytes)).mpr h
  have hasync : Yields (readMessageAsync maxBytes) reader messages outcome :=
    (yields_view (readMessageAsync_content maxBytes)).mpr (hreader ▸ h)
  exact ⟨fun _ _ => hsync.iff, fun _ _ => hasync.iff⟩

end KolegaCode.BrowserExtension.Framing
