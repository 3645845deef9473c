import Mathlib.Data.List.Sort
import Mathlib.Data.Rat.Init
import Mathlib.Algebra.Order.Field.Rat
import KolegaCode.Hashline.Hash
import KolegaCode.Lib.Assoc
import KolegaCode.Lib.Text

/-!
# Gateway — sender access control

The daemon and the operator's processes share two files: the allowlist, and the pairing codes that
are pending.  Each method reads a file whole and writes it whole; between the two the other
processes go on.  A step is the stretch of a method up to its next file operation, and carries the
readings of the clock, which does not go back.
-/

namespace KolegaCode.Gateway

def CODE_ALPHABET : List Char := "ABCDEFGHJKLMNPQRSTUVWXYZ23456789".toList
def CODE_LENGTH : Nat := 6
def MAX_PENDING_CODES : Nat := 50

/-- `value.strip()`. -/
def strip (value : String) : String := String.ofList (Text.strip Hashline.isSpace value.toList)

def validIdentity (value : String) : Bool := strip value ≠ "" && value = strip value

/-- One pending onboarding request, as the pairing file holds it. -/
structure PairingEntry where
  code : String
  senderId : String
  senderName : String
  channel : String
  chatId : String
  createdAt : ℚ
  expiresAt : ℚ
deriving DecidableEq

/-- An approval, as the allowlist file holds it. -/
structure AllowEntry where
  name : String
  approvedAt : ℚ
deriving DecidableEq

abbrev Pairings := Assoc String PairingEntry
abbrev Allowlist := Assoc String AllowEntry

structure InboundMessage where
  senderId : String
  senderName : String
  channel : String
  chatId : String

/-- What an access control is made with. -/
structure Config where
  allowedUsers : List String
  pairingEnabled : Bool
  codeTtlSeconds : ℚ
  /-- `str.upper`. -/
  upper : String → String

def Config.configuredUsers (config : Config) : List String := config.allowedUsers.filter validIdentity

/-- `json.dumps(payload, sort_keys=True)`, read back. -/
def sortKeys {V : Type} (payload : Assoc String V) : Assoc String V :=
  payload.insertionSort fun p q => p.1 ≤ q.1

/-! ### Reading -/

def validPairing (now : ℚ) (code : String) (entry : PairingEntry) : Bool :=
  validIdentity code && entry.code = code && validIdentity entry.senderId &&
    decide (0 ≤ entry.createdAt) && decide (0 ≤ entry.expiresAt) &&
    !(decide (entry.expiresAt ≤ entry.createdAt) || decide (entry.expiresAt ≤ now))

/-- `_pending`. -/
def pendingOf (now : ℚ) (file : Pairings) : Pairings :=
  file.filter fun p => validPairing now p.1 p.2

/-- `_approved_users`. -/
def approvedUsers (file : Allowlist) : Allowlist :=
  file.filter fun p => validIdentity p.1 && decide (0 ≤ p.2.approvedAt)

def isAllowed (config : Config) (file : Allowlist) (senderId : String) : Bool :=
  if !validIdentity senderId then false
  else if senderId ∈ config.configuredUsers then true
  else ((approvedUsers file).get? senderId).isSome

/-! ### Writing -/

/-- `min(live, key=lambda code: live[code]["created_at"])`. -/
def oldest : Pairings → Option String
  | [] => none
  | (code, entry) :: live =>
    some (live.foldl (fun best p => if p.2.createdAt < best.2.createdAt then p else best)
      (code, entry)).1

/-- The loop of `_write_pairings`, for so many codes more than the cap allows. -/
def evict : Nat → Pairings → Pairings
  | 0, live => live
  | n + 1, live =>
    match oldest live with
    | none => live
    | some code => evict n (live.erase code)

def unexpired (now : ℚ) (pending : Pairings) : Pairings :=
  pending.filter fun p => decide (now < p.2.expiresAt)

/-- What `_write_pairings` writes. -/
def writtenPairings (now : ℚ) (pending : Pairings) : Pairings :=
  let live := unexpired now pending
  sortKeys (evict (live.length - MAX_PENDING_CODES) live)

/-- The codes `_write_pairings` drops for the cap. -/
def evictedBy (now : ℚ) (pending : Pairings) : List PairingEntry :=
  let live := unexpired now pending
  (live.filter fun p => p ∉ evict (live.length - MAX_PENDING_CODES) live).map Prod.snd

/-- A code as `_issue_code` draws it. -/
def wellFormedCode (code : String) : Bool :=
  code.length = CODE_LENGTH && code.toList.all fun c => c ∈ CODE_ALPHABET

/-- `_issue_code`: the first of a hundred draws that is not pending. -/
def issueCode (draws : List String) (pending : Pairings) : Option String :=
  (draws.take 100).find? fun code => (pending.get? code).isNone

/-! ### The processes -/

/-- Where a process stands between two file operations, with the file contents it works on. -/
inductive Process where
  /-- `on_unknown_sender`, about to write the pairing file with a new code. -/
  | issuing (base pending : Pairings) (entry : PairingEntry)
  /-- `approve`, about to read the allowlist. -/
  | approving (base pending : Pairings) (code : String) (entry : PairingEntry)
  /-- `approve`, about to write the allowlist. -/
  | admitting (base pending : Pairings) (code : String) (entry : PairingEntry)
      (allowBase allowlist : Allowlist)
  /-- `approve`, about to write the pairing file and return. -/
  | closing (base pending : Pairings) (code : String) (entry : PairingEntry)
  /-- `approve`, about to write the pairing file and raise. -/
  | rejecting (base pending : Pairings)

/-- What can be seen from outside. -/
inductive Record where
  /-- A code is given to its sender. -/
  | reported (entry : PairingEntry)
  /-- The allowlist with the sender is written. -/
  | admitted (code : String) (entry : PairingEntry)
  /-- `approve` returned the sender. -/
  | approved (code : String) (entry : PairingEntry)
  /-- `approve` raised. -/
  | rejected
  /-- The code was dropped for the cap. -/
  | evicted (entry : PairingEntry)
deriving DecidableEq

structure World where
  clock : ℚ
  allowFile : Allowlist
  pairingFile : Pairings
  processes : Assoc Nat Process
  /-- Every code that was made, for whom. -/
  issued : List PairingEntry
  log : List Record

def World.start (clock : ℚ) : World where
  clock := clock
  allowFile := []
  pairingFile := []
  processes := []
  issued := []
  log := []

inductive Event where
  /-- `on_unknown_sender` up to the write, with the clock's readings and the random draws. -/
  | contact (pid : Nat) (message : InboundMessage) (listed checked created expiring : ℚ)
      (draws : List String)
  /-- `approve` up to the reading of the allowlist or the write that rejects. -/
  | approve (pid : Nat) (code : String) (listed checked : ℚ)
  /-- The next file operation of a process, with the clock's reading. -/
  | resume (pid : Nat) (now : ℚ)

/-- The process ends. -/
def World.end (w : World) (pid : Nat) : World := { w with processes := w.processes.erase pid }

def World.goto (w : World) (pid : Nat) (process : Process) : World :=
  { w with processes := w.processes.set pid process }

def World.writePairings (w : World) (now : ℚ) (pending : Pairings) (records : List Record) :
    World :=
  { w with
    pairingFile := writtenPairings now pending
    log := w.log ++ (evictedBy now pending).map .evicted ++ records }

def newEntry (config : Config) (message : InboundMessage) (code : String)
    (created expiring : ℚ) : PairingEntry where
  code := code
  senderId := message.senderId
  senderName := message.senderName
  channel := message.channel
  chatId := message.chatId
  createdAt := created
  expiresAt := expiring + config.codeTtlSeconds

/-- The branch of `on_unknown_sender` that makes a code; with all draws taken it raises. -/
def World.issue (config : Config) (w : World) (pid : Nat) (message : InboundMessage)
    (pending : Pairings) (created expiring : ℚ) (draws : List String) : World :=
  match issueCode draws pending with
  | none => w
  | some code =>
    let entry := newEntry config message code created expiring
    { w.goto pid (.issuing w.pairingFile (pending.set code entry) entry) with
      issued := w.issued ++ [entry] }

/-- `on_unknown_sender`, from the reading of the pairing file to the write. -/
def World.contact (config : Config) (w : World) (pid : Nat) (message : InboundMessage)
    (listed checked created expiring : ℚ) (draws : List String) : World :=
  if !config.pairingEnabled || !validIdentity message.senderId then w
  else
    let pending := pendingOf listed w.pairingFile
    match pending.find? fun p => p.2.senderId = message.senderId with
    | some (_, existing) =>
      if checked < existing.expiresAt then { w with log := w.log ++ [.reported existing] }
      else w.issue config pid message pending created expiring draws
    | none => w.issue config pid message pending created expiring draws

/-- `approve`, from the reading of the pairing file to the next file operation. -/
def World.approve (config : Config) (w : World) (pid : Nat) (code : String) (listed checked : ℚ) :
    World :=
  let normalized := config.upper (strip code)
  let pending := pendingOf listed w.pairingFile
  match pending.get? normalized with
  | none => w.goto pid (.rejecting w.pairingFile (pending.erase normalized))
  | some entry =>
    if entry.expiresAt ≤ checked then
      w.goto pid (.rejecting w.pairingFile (pending.erase normalized))
    else w.goto pid (.approving w.pairingFile pending normalized entry)

def World.resume (w : World) (pid : Nat) (now : ℚ) : Process → World
  | .issuing _ pending entry => (w.writePairings now pending [.reported entry]).end pid
  | .approving base pending code entry =>
    let allowlist := w.allowFile.set entry.senderId ⟨entry.senderName, now⟩
    w.goto pid (.admitting base (pending.erase code) code entry w.allowFile allowlist)
  | .admitting base pending code entry _ allowlist =>
    { w.goto pid (.closing base pending code entry) with
      allowFile := sortKeys allowlist
      log := w.log ++ [.admitted code entry] }
  | .closing _ pending code entry =>
    (w.writePairings now pending [.approved code entry]).end pid
  | .rejecting _ pending => (w.writePairings now pending [.rejected]).end pid

/-- One step; `none` where the event cannot happen. -/
def step (config : Config) (w : World) : Event → Option World
  | .contact pid message listed checked created expiring draws =>
    if (w.processes.get? pid).isSome ∨ ¬ (w.clock ≤ listed ∧ listed ≤ checked ∧ checked ≤ created ∧
        created ≤ expiring) ∨ ¬ draws.all wellFormedCode then none
    else some ({ w with clock := expiring }.contact config pid message listed checked created
      expiring draws)
  | .approve pid code listed checked =>
    if (w.processes.get? pid).isSome ∨ ¬ (w.clock ≤ listed ∧ listed ≤ checked) then none
    else some ({ w with clock := checked }.approve config pid code listed checked)
  | .resume pid now =>
    match w.processes.get? pid with
    | none => none
    | some process => if w.clock ≤ now then some ({ w with clock := now }.resume pid now process) else none

def run (config : Config) (w : World) : List Event → Option World
  | [] => some w
  | event :: events => (step config w event).bind fun w' => run config w' events

end KolegaCode.Gateway
