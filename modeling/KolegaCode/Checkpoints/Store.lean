import KolegaCode.Lib.Assoc
import KolegaCode.Lib.Leads

/-!
# Checkpoints — the spool of file copies

`CheckpointBlobStore` keeps the copies of files that a rewind may need, once under their digest and
with a count of references, packed one behind the other into segment files.  A segment is sealed
when it is full or a write to it failed, deleted once nothing in it is live, and compacted into the
segment that is being written once less than half of it is.

An `OSError` of a write is caught by whoever asked for it: `append` gives `none` for it.  What a
method raises is a `KeyError`.
-/

namespace KolegaCode.Checkpoints

abbrev Bytes := List UInt8

def MIN_FREE_BYTES : Int := 5 * 1024 ^ 3
def FREE_SPACE_RECHECK_BYTES : Nat := 64 * 1024 * 1024
def SEGMENT_BYTES : Nat := 64 * 1024 * 1024

def STORAGE_LIMIT : String := "checkpoint storage limit reached"
def LOW_DISK_SPACE : String := "not enough free disk space for a checkpoint copy"
def WRITE_FAILED : String := "could not write a checkpoint copy"

structure Blob where
  segment : Nat
  offset : Nat
  size : Nat
  refs : Nat
deriving DecidableEq

structure Segment where
  size : Nat
  live : Int
deriving DecidableEq

structure CheckpointBlobStore (Sha : Type) where
  diskBytes : Int
  liveBytes : Int
  blobs : Assoc Sha Blob
  segments : Assoc Nat Segment
  active : Option Nat
  nextSegment : Nat
  created : Bool
  closed : Bool
  freeBytes : Option Int
  writtenSinceFreeCheck : Nat
  /-- What the pack files hold. -/
  files : Assoc Nat Bytes

def CheckpointBlobStore.new (Sha : Type) : CheckpointBlobStore Sha where
  diskBytes := 0
  liveBytes := 0
  blobs := []
  segments := []
  active := none
  nextSegment := 0
  created := false
  closed := false
  freeBytes := none
  writtenSinceFreeCheck := 0
  files := []

/-- What the operating system does to one append: nothing, or an error when the spool directory is
made, when a segment file is opened, or after some bytes have been written. -/
inductive Fault where
  | none
  | dir
  | file
  | write (written : Nat)
deriving DecidableEq

structure KeyError

abbrev StoreM (Sha : Type) := EStateM KeyError (CheckpointBlobStore Sha)

variable {Sha : Type}

/-! ### Segments -/

/-- `self._segments[index]`. -/
def segmentAt (index : Nat) : StoreM Sha Segment := do
  match (← get).segments.get? index with
  | some segment => pure segment
  | none => throw ⟨⟩

/-- `self._segments[index].live += size`. -/
def addLive (index : Nat) (size : Int) : StoreM Sha Unit := do
  let segment ← segmentAt index
  modify fun s => { s with
    segments := s.segments.set index { segment with live := segment.live + size } }

def deleteSegment (index : Nat) : StoreM Sha Unit := do
  let segment ← segmentAt index
  modify fun s => { s with
    segments := s.segments.erase index
    diskBytes := s.diskBytes - segment.size
    files := s.files.erase index }

def sealActive : StoreM Sha Unit := do
  let active := (← get).active
  modify fun s => { s with active := none }
  match active with
  | none => pure ()
  | some index =>
    let segment ← segmentAt index
    if segment.live ≤ 0 then
      deleteSegment index

def openSegment (fault : Fault) : StoreM Sha (Option Nat) := do
  sealActive
  let index := (← get).nextSegment
  modify fun s => { s with nextSegment := index + 1 }
  if fault = .file then
    return none
  modify fun s => { s with
    files := s.files.set index ((s.files.get? index).getD [])
    segments := s.segments.set index ⟨0, 0⟩
    active := some index }
  return some index

/-- The active segment, or a new one where there is none or where the data no longer fits. -/
def activeFor (fault : Fault) (size : Nat) : StoreM Sha (Option Nat) := do
  match (← get).active with
  | none => openSegment fault
  | some index =>
    let segment ← segmentAt index
    if segment.size ≠ 0 ∧ SEGMENT_BYTES < segment.size + size then
      openSegment fault
    else
      return some index

/-- Bytes written at the end of a segment file. -/
def writeFile (index : Nat) (data : Bytes) : StoreM Sha Unit :=
  modify fun s => { s with files := s.files.set index ((s.files.get? index).getD [] ++ data) }

/-- The bytes that reach the file before the write fails, when it does. -/
def Fault.cuts (fault : Fault) (data : Bytes) : Option Bytes :=
  match fault, data with
  | .write written, _ :: _ => some (data.take written)
  | _, _ => Option.none

/-- `_append`: where the data was put, or `none` for an `OSError`. -/
def append (fault : Fault) (data : Bytes) : StoreM Sha (Option (Nat × Nat)) := do
  if fault = .dir ∧ (← get).created = false then
    return none
  modify fun s => { s with created := true }
  let some active ← activeFor fault data.length | return none
  let segment ← segmentAt active
  match fault.cuts data with
  | some written =>
    -- the file now ends past the recorded size
    writeFile active written
    sealActive
    return none
  | none =>
    writeFile active data
    modify fun s => { s with
      segments := s.segments.set active { segment with size := segment.size + data.length }
      diskBytes := s.diskBytes + data.length }
    return some (active, segment.size)

def readBlob (s : CheckpointBlobStore Sha) (blob : Blob) : Option Bytes :=
  match s.files.get? blob.segment with
  | none => none
  | some content =>
    let data := (content.drop blob.offset).take blob.size
    if data.length = blob.size then some data else none

def removeDir : StoreM Sha Unit :=
  modify fun s => { s with
    active := none
    blobs := []
    segments := []
    diskBytes := 0
    liveBytes := 0
    created := false
    files := if s.created then [] else s.files }

variable [DecidableEq Sha]

/-- The loop of `_compact`; `false` when an append failed and the method returned there. -/
def compactLoop (index : Nat) : List (Sha × Blob) → List Fault → StoreM Sha Bool
  | [], _ => return true
  | (sha, blob) :: moving, faults => do
    match readBlob (← get) blob with
    | none => compactLoop index moving faults
    | some data =>
      let some (segment, offset) ← append (faults.headD .none) data | return false
      addLive index (-(blob.size : Int))
      addLive segment blob.size
      modify fun s => { s with
        blobs := s.blobs.set sha ⟨segment, offset, blob.size, blob.refs⟩ }
      compactLoop index moving faults.tail

/-- What `_compact` moves. -/
def movingFrom (s : CheckpointBlobStore Sha) (index : Nat) : List (Sha × Blob) :=
  s.blobs.filter fun p => p.2.segment = index

def compact (index : Nat) (faults : List Fault) : StoreM Sha Unit := do
  if ← compactLoop index (movingFrom (← get) index) faults then
    if (← segmentAt index).live ≤ 0 then
      deleteSegment index

/-! ### The methods -/

/-- What a method gives back; `raised` is a `KeyError`. -/
inductive Outcome where
  | done
  | found (stored : Bool)
  | reply (reason : String)
  | content (data : Option Bytes)
  | raised
deriving DecidableEq

def acquire (sha : Sha) : StoreM Sha Bool := do
  match (← get).blobs.get? sha with
  | none => return false
  | some blob =>
    modify fun s => { s with blobs := s.blobs.set sha { blob with refs := blob.refs + 1 } }
    return true

def release (sha : Sha) (faults : List Fault) : StoreM Sha Unit := do
  match (← get).blobs.get? sha with
  | none => return
  | some blob =>
    if 1 < blob.refs then
      modify fun s => { s with blobs := s.blobs.set sha { blob with refs := blob.refs - 1 } }
    else
      modify fun s => { s with
        blobs := s.blobs.erase sha
        liveBytes := s.liveBytes - blob.size }
      addLive blob.segment (-(blob.size : Int))
      let segment ← segmentAt blob.segment
      if (← get).active ≠ some blob.segment then
        if segment.live ≤ 0 then
          deleteSegment blob.segment
        else if 2 * segment.live < segment.size then
          compact blob.segment faults

/-- `free` is what the volume reports when it is asked. -/
def freeSpaceAllows (free : Option Int) (size : Nat) : StoreM Sha Bool := do
  let s ← get
  if s.freeBytes = none ∨ FREE_SPACE_RECHECK_BYTES < s.writtenSinceFreeCheck + size then
    modify fun s => { s with freeBytes := free, writtenSinceFreeCheck := 0 }
  match (← get).freeBytes with
  | none => return true
  | some bytes =>
    if bytes - size < MIN_FREE_BYTES then
      return false
    else
      modify fun s => { s with
        freeBytes := some (bytes - size)
        writtenSinceFreeCheck := s.writtenSinceFreeCheck + size }
      return true

def put (sha : Sha) (data : Bytes) (limit : Int) (free : Option Int) (fault : Fault) :
    StoreM Sha String := do
  let s ← get
  if s.closed then
    return WRITE_FAILED
  match s.blobs.get? sha with
  | some blob =>
    modify fun s => { s with blobs := s.blobs.set sha { blob with refs := blob.refs + 1 } }
    return ""
  | none =>
    if limit < s.diskBytes + data.length then
      return STORAGE_LIMIT
    if !(← freeSpaceAllows free data.length) then
      return LOW_DISK_SPACE
    let some (segment, offset) ← append fault data | return WRITE_FAILED
    modify fun s => { s with blobs := s.blobs.set sha ⟨segment, offset, data.length, 1⟩ }
    addLive segment data.length
    modify fun s => { s with liveBytes := s.liveBytes + data.length }
    return ""

def read (sha : Sha) : StoreM Sha (Option Bytes) := do
  let s ← get
  match s.blobs.get? sha with
  | none => return none
  | some blob => return readBlob s blob

def clear : StoreM Sha Unit := removeDir

def close : StoreM Sha Unit := do
  modify fun s => { s with closed := true }
  removeDir

/-! ### Runs -/

/-- One call, with what the operating system does to it. -/
inductive Op (Sha : Type) where
  | put (sha : Sha) (data : Bytes) (limit : Int) (free : Option Int) (fault : Fault)
  | acquire (sha : Sha)
  | release (sha : Sha) (faults : List Fault)
  | read (sha : Sha)
  | clear
  | close

/-- The call as the store answers it. -/
def Op.call : Op Sha → StoreM Sha Outcome
  | .put sha data limit free fault => return .reply (← Checkpoints.put sha data limit free fault)
  | .acquire sha => return .found (← Checkpoints.acquire sha)
  | .release sha faults => do
    Checkpoints.release sha faults
    return .done
  | .read sha => return .content (← Checkpoints.read sha)
  | .clear => do
    Checkpoints.clear
    return .done
  | .close => do
    Checkpoints.close
    return .done

/-- The outcome of a call and the store it leaves. -/
def step (s : CheckpointBlobStore Sha) (op : Op Sha) : CheckpointBlobStore Sha × Outcome :=
  match op.call s with
  | .ok outcome s' => (s', outcome)
  | .error _ s' => (s', .raised)

/-- The store after a list of calls, and each of them with its outcome. -/
def run (s : CheckpointBlobStore Sha) :
    List (Op Sha) → CheckpointBlobStore Sha × List (Op Sha × Outcome)
  | [] => (s, [])
  | op :: ops =>
    let (s', outcome) := step s op
    let (final, log) := run s' ops
    (final, (op, outcome) :: log)

end KolegaCode.Checkpoints
