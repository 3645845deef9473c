import KolegaCode.Session.Crash
import KolegaCode.Session.Writers
import Mathlib.Logic.Relation

/-!
# Session — following the log

`FileSessionEventStore.tail`.  A follower keeps a byte offset into `events.jsonl` while other
processes extend the file, leave a torn line behind and cut it off again.  A scan asks for the
file's size, reads from the offset up to that size, and takes what it read up to the last newline;
the file may change between the two.

The offset is the end of complete lines at all times, and a complete line never changes, so what the
follower has yielded is what the lines before its offset publish.
-/

namespace KolegaCode.Session

open List
open Json (Dict get? loadsBytes)

variable {α : Type}

/-! ### The follower -/

def UI_EVENT_PREFIX : String := "ui."

/-- `_decode` of a record: the number and the presentation event, where it is one;
`validate` is `AgentEvent.model_validate`. -/
def decodeRecord (validate : Dict → Option α) : Json → Option (Int × α)
  | .obj record =>
    match get? record "type", get? record "payload", (get? record "seq").bind asInt? with
    | some (.str eventType), some (.obj payload), some seq =>
      if UI_EVENT_PREFIX.isPrefixOf eventType then
        match get? payload "event" with
        | some (.obj event) => (validate event).map fun event => (seq, event)
        | _ => none
      else none
    | _, _, _ => none
  | _ => none

/-- `_decode`. -/
def decodeLine (validate : Dict → Option α) (line : Bytes) : Option (Int × α) :=
  (loadsBytes line).bind (decodeRecord validate)

/-- `_scan`, once the size is known. -/
def scan (validate : Dict → Option α) (offset size : Nat) (file : Bytes) :
    List (Int × α) × Nat :=
  if size ≤ offset then if size < offset then ([], 0) else ([], offset)
  else
    let raw := (file.drop offset).take (size - offset)
    let consumed := completeLines raw
    if consumed = [] then ([], offset)
    else
      (((splitlines consumed).filter fun line => !isBlank line).filterMap (decodeLine validate),
        offset + consumed.length)

/-- What `tail` yields of the records of a scan, and the next number it waits for. -/
def deliver (nextSeq : Int) : List (Int × α) → List (Int × α) × Int
  | [] => ([], nextSeq)
  | (seq, event) :: records =>
    if seq < nextSeq then deliver nextSeq records
    else ((seq, event) :: (deliver (seq + 1) records).1, (deliver (seq + 1) records).2)

/-- `tail`: what it keeps between two scans, the size it has asked for, and what it has yielded. -/
structure Follower (α : Type) where
  offset : Nat := 0
  nextSeq : Int
  size : Option Nat := none
  yielded : List (Int × α) := []

def Follower.tail (fromSeq : Int) : Follower α where
  nextSeq := max 1 fromSeq

/-- `os.path.getsize`; a file that is not there has no bytes. -/
def Follower.getsize (f : Follower α) (file : Bytes) : Follower α :=
  { f with size := some file.length }

/-- The rest of the scan, and what is yielded of it. -/
def Follower.read (validate : Dict → Option α) (f : Follower α) (file : Bytes) : Follower α :=
  match f.size with
  | none => f
  | some size =>
    let (records, offset) := scan validate f.offset size file
    let (events, nextSeq) := deliver f.nextSeq records
    { offset := offset, nextSeq := nextSeq, size := none, yielded := f.yielded ++ events }

/-! ### What the events publish -/

/-- The presentation event of an event of the log. -/
def published (validate : Dict → Option α) (e : SessionEvent) : Option (Int × α) :=
  if UI_EVENT_PREFIX.isPrefixOf e.eventType then
    match get? e.payload "event" with
    | some (.obj event) => (validate event).map fun event => (e.seq, event)
    | _ => none
  else none

variable {validate : Dict → Option α}

theorem decodeLine_eventText {e : SessionEvent} (h : e.WellFormed) :
    decodeLine validate (eventText e) = published validate e := by
  obtain ⟨-, -, -, hseq, -, -, -, -, htype, hpayload, -⟩ := SessionEvent.get?_toDict e
  rw [decodeLine, loadsBytes_eventText h, Option.bind_some, decodeRecord, htype, hpayload, hseq]
  rfl

theorem published_seq {e : SessionEvent} {seq : Int} {event : α}
    (h : published validate e = some (seq, event)) : seq = e.seq := by
  rw [published] at h
  split at h
  · split at h
    · obtain ⟨event', -, hpair⟩ := Option.map_eq_some_iff.mp h
      exact (congrArg Prod.fst hpair).symm
    · cases h
  · cases h

variable {es : List SessionEvent}

theorem records_render {cfg : Config} (h : Logged cfg es) :
    ((splitlines (render es)).filter fun line => !isBlank line).filterMap (decodeLine validate) =
      es.filterMap (published validate) := by
  rw [splitlines_render h, filter_eq_self.mpr, filterMap_map]
  · exact filterMap_congr fun e he => decodeLine_eventText (h e he).1
  · intro line hline
    obtain ⟨e, -, rfl⟩ := mem_map.mp hline
    rw [isBlank_eventText]
    rfl

/-- What a follower that waits for `nextSeq` yields of a stretch of the log: it has not yet seen the
stretch, and is not waiting for a number beyond it that was not asked for. -/
theorem deliver_published (validate : Dict → Option α) {fromSeq : Int} {n nextSeq : Int}
    (hnum : Numbered n es) (hfrom : fromSeq ≤ nextSeq) (hnext : nextSeq ≤ max fromSeq n) :
    (deliver nextSeq (es.filterMap (published validate))).1 =
        (es.filterMap (published validate)).filter (fun p => decide (fromSeq ≤ p.1)) ∧
      fromSeq ≤ (deliver nextSeq (es.filterMap (published validate))).2 ∧
      (deliver nextSeq (es.filterMap (published validate))).2 ≤ max fromSeq (n + es.length) := by
  induction es generalizing n nextSeq with
  | nil => exact ⟨rfl, hfrom, by simpa [deliver] using hnext⟩
  | cons e es ih =>
    obtain ⟨hseq, hnum⟩ := hnum
    have hlength : n + (e :: es).length = n + 1 + es.length := by
      rw [length_cons]
      omega
    rw [hlength]
    cases hp : published validate e with
    | none =>
      rw [filterMap_cons_none hp]
      exact ih hnum hfrom (by omega)
    | some p =>
      obtain ⟨seq, event⟩ := p
      obtain rfl := published_seq hp
      rw [filterMap_cons_some hp, deliver]
      by_cases hlt : e.seq < nextSeq
      · rw [if_pos hlt, filter_cons_of_neg (by simpa using by omega)]
        exact ih hnum hfrom (by omega)
      · rw [if_neg hlt, filter_cons_of_pos (by simpa using by omega)]
        obtain ⟨hyield, hfrom', hnext'⟩ := @ih (n + 1) (e.seq + 1) hnum (by omega) (by omega)
        exact ⟨congrArg _ hyield, hfrom', hnext'⟩

/-! ### What a scan reads -/

theorem le_linesWithin {n k : Nat} (hk : k ≤ es.length) (h : (render (es.take k)).length ≤ n) :
    k ≤ (linesWithin n es).length := by
  induction es generalizing n k with
  | nil => exact hk.trans (Nat.zero_le _)
  | cons e es ih =>
    cases k with
    | zero => exact Nat.zero_le _
    | succ k =>
      rw [take_succ_cons, render_cons, length_append] at h
      rw [linesWithin, if_pos (by omega), length_cons]
      have hrest := @ih (n - (eventLine e).length) k (by simpa using hk) (by omega)
      omega

/-- **What is read behind complete lines, up to its last newline, is complete lines**; and every line
that ends within what is read is among them. -/
theorem completeLines_take {cfg : Config} (h : Logged cfg es) {torn : Bytes} (ht : newline ∉ torn)
    (n : Nat) :
    ∃ m ≤ es.length, completeLines ((render es ++ torn).take n) = render (es.take m) ∧
      ∀ k ≤ es.length, (render (es.take k)).length ≤ n → k ≤ m := by
  by_cases hn : n ≤ (render es).length
  · have hprefix : (render es).take n <+: render es := take_prefix _ _
    obtain ⟨torn', ht', hread⟩ := prefix_render h hprefix
    have hwithin := linesWithin_prefix es n
    rw [length_take, Nat.min_eq_left hn] at hread
    refine ⟨(linesWithin n es).length, hwithin.length_le, ?_, fun k hk hlen => le_linesWithin hk hlen⟩
    rw [take_append_of_le_length hn, hread, completeLines_render ht',
      ← prefix_iff_eq_take.mp hwithin]
  · refine ⟨es.length, Nat.le_refl _, ?_, fun k hk _ => hk⟩
    rw [take_append, take_of_length_le (by omega), take_length, completeLines_render]
    exact fun hm => ht ((take_subset _ _) hm)

theorem render_take_eq_nil {m : Nat} (hm : m ≤ es.length) (h : render (es.take m) = []) :
    m = 0 := by
  cases m with
  | zero => rfl
  | succ m =>
    obtain ⟨e, es, rfl⟩ := exists_cons_of_length_pos (Nat.zero_lt_of_lt hm)
    rw [take_succ_cons, render_cons, eventLine_eq] at h
    simp at h

/-- A scan from behind the lines of `done` reads lines of `ahead`: all that end within the size. -/
theorem scan_log {cfg : Config} {done ahead : List SessionEvent} (h : Logged cfg ahead)
    {torn : Bytes} (ht : newline ∉ torn) {size : Nat} (hsize : (render done).length ≤ size) :
    ∃ m ≤ ahead.length,
      scan validate (render done).length size (render (done ++ ahead) ++ torn) =
        ((ahead.take m).filterMap (published validate),
          (render (done ++ ahead.take m)).length) ∧
      ∀ k ≤ ahead.length, (render (done ++ ahead.take k)).length ≤ size → k ≤ m := by
  have hfile : (render (done ++ ahead) ++ torn).drop (render done).length =
      render ahead ++ torn := by
    rw [render_append, append_assoc, drop_left]
  have hlength : ∀ k, (render (done ++ ahead.take k)).length =
      (render done).length + (render (ahead.take k)).length := fun k => by
    rw [render_append, length_append]
  obtain ⟨m, hm, hlines, hlast⟩ := completeLines_take h ht (size - (render done).length)
  refine ⟨m, hm, ?_, fun k hk hlen => hlast k hk (by rw [hlength] at hlen; omega)⟩
  have hlogged : Logged cfg (ahead.take m) := fun e he => h e (mem_of_mem_take he)
  rw [scan]
  split
  · -- the file was not longer than the offset
    have hzero : size - (render done).length = 0 := by omega
    rw [hzero, take_zero] at hlines
    obtain rfl := render_take_eq_nil hm hlines.symm
    rw [if_neg (by omega), take_zero, append_nil]
    rfl
  · dsimp only
    rw [hfile, hlines]
    split
    · next hnil =>
      obtain rfl := render_take_eq_nil hm hnil
      rw [take_zero, append_nil]
      rfl
    · rw [records_render hlogged, hlength]

/-! ### Writers and a follower -/

/-- What happens to the log: part of a line is written behind the last newline, the rest of the line
of an event is written, or the torn line is cut off. -/
inductive LogAction where
  | write (bytes : Bytes) (newline_not_mem : newline ∉ bytes)
  | complete (e : SessionEvent)
  | truncate

def Log.apply (log : Log) : LogAction → Log
  | .write bytes newline_not_mem =>
    ⟨log.events, log.torn ++ bytes,
      fun h => (List.mem_append.mp h).elim log.newline_not_mem newline_not_mem⟩
  | .complete e => ⟨log.events ++ [e], [], List.not_mem_nil⟩
  | .truncate => log.repaired

/-- What is torn is the beginning of the event's line, and the event has the next number. -/
def Log.Allows (cfg : Config) (log : Log) : LogAction → Prop
  | .complete e => log.torn <+: eventLine e ∧ Logged cfg [e] ∧ e.seq = log.events.length + 1
  | _ => True

inductive FollowAction where
  | log (action : LogAction)
  | getsize
  | read

/-- The log and a follower.  `sized` counts the events that were complete when the follower last
asked for the size, `seen` those when it asked in its last finished scan. -/
structure FollowWorld (α : Type) where
  log : Log
  follower : Follower α
  sized : Nat := 0
  seen : Nat := 0

def FollowWorld.step (validate : Dict → Option α) (w : FollowWorld α) : FollowAction → FollowWorld α
  | .log action => { w with log := w.log.apply action }
  | .getsize =>
    { w with follower := w.follower.getsize w.log.bytes, sized := w.log.events.length }
  | .read =>
    { w with
      follower := w.follower.read validate w.log.bytes
      seen := if w.follower.size = none then w.seen else w.sized }

def FollowWorld.run (validate : Dict → Option α) (w : FollowWorld α) (acts : List FollowAction) :
    FollowWorld α := acts.foldl (FollowWorld.step validate) w

def FollowWorld.Allows (cfg : Config) (w : FollowWorld α) : FollowAction → Prop
  | .log action => w.log.Allows cfg action
  | _ => True

def FollowWorld.AllowsRun (cfg : Config) (validate : Dict → Option α) :
    FollowWorld α → List FollowAction → Prop
  | _, [] => True
  | w, act :: acts => w.Allows cfg act ∧ AllowsRun cfg validate (w.step validate act) acts

/-- What the events publish, from the number `fromSeq` on. -/
def publishedFrom (validate : Dict → Option α) (fromSeq : Int) (es : List SessionEvent) :
    List (Int × α) :=
  (es.filterMap (published validate)).filter fun p => decide (fromSeq ≤ p.1)

/-- What was yielded is what a stretch of complete events from the start of the log publishes from
`fromSeq` on, in ascending order; and the stretch has every event that was complete when the last
finished scan asked for the size. -/
structure ExactlyOnce (validate : Dict → Option α) (fromSeq : Int) (w : FollowWorld α) : Prop where
  yielded : ∃ n, w.seen ≤ n ∧ n ≤ w.log.events.length ∧
    w.follower.yielded = publishedFrom validate fromSeq (w.log.events.take n)
  ascending : w.follower.yielded.Pairwise fun p q => p.1 < q.1

/-! ### What has been taken up -/

/-- The follower has taken up the first `n` events. -/
structure Taken (validate : Dict → Option α) (fromSeq : Int) (w : FollowWorld α) (n : Nat) :
    Prop where
  seen : w.seen ≤ n
  le : n ≤ w.log.events.length
  offset : w.follower.offset = (render (w.log.events.take n)).length
  yielded : w.follower.yielded = publishedFrom validate fromSeq (w.log.events.take n)
  from_le : fromSeq ≤ w.follower.nextSeq
  next_le : w.follower.nextSeq ≤ max fromSeq (n + 1)
  size : ∀ size, w.follower.size = some size →
    w.follower.offset ≤ size ∧ (render (w.log.events.take w.sized)).length ≤ size

structure Follows (validate : Dict → Option α) (cfg : Config) (fromSeq : Int) (w : FollowWorld α) :
    Prop where
  logged : Logged cfg w.log.events
  numbered : Numbered 1 w.log.events
  sized : w.sized ≤ w.log.events.length
  taken : ∃ n, Taken validate fromSeq w n

variable {cfg : Config} {fromSeq : Int} {w : FollowWorld α}

theorem Log.apply_events (log : Log) (action : LogAction) :
    ∃ more, (log.apply action).events = log.events ++ more := by
  cases action with
  | write bytes h => exact ⟨[], (append_nil _).symm⟩
  | complete e => exact ⟨[e], rfl⟩
  | truncate => exact ⟨[], (append_nil _).symm⟩

variable {action : LogAction}

theorem Log.apply_logged {log : Log} (hlog : Logged cfg log.events) (hnum : Numbered 1 log.events)
    (h : log.Allows cfg action) :
    Logged cfg (log.apply action).events ∧ Numbered 1 (log.apply action).events := by
  cases action with
  | write bytes hbytes => exact ⟨hlog, hnum⟩
  | truncate => exact ⟨hlog, hnum⟩
  | complete e =>
    obtain ⟨-, he, hseq⟩ := h
    refine ⟨hlog.append he, numbered_append.mpr ⟨hnum, ?_, trivial⟩⟩
    omega

section

variable (h : Follows validate cfg fromSeq w)
include h

theorem Follows.log (ha : w.log.Allows cfg action) :
    Follows validate cfg fromSeq { w with log := w.log.apply action } := by
  obtain ⟨more, hmore⟩ := w.log.apply_events action
  obtain ⟨hlog, hnum⟩ := Log.apply_logged h.logged h.numbered ha
  have hlength : (w.log.apply action).events.length = w.log.events.length + more.length := by
    rw [hmore, length_append]
  have htake : ∀ n ≤ w.log.events.length,
      (w.log.apply action).events.take n = w.log.events.take n := fun n hn => by
    rw [hmore, take_append_of_le_length hn]
  obtain ⟨n, hn⟩ := h.taken
  have hle : w.sized ≤ w.log.events.length + more.length := Nat.le_add_right_of_le h.sized
  refine ⟨hlog, hnum, hlength ▸ hle, n, hn.seen, ?_, ?_, ?_, hn.from_le, hn.next_le, ?_⟩
  · exact hlength ▸ Nat.le_add_right_of_le hn.le
  · rw [htake n hn.le]
    exact hn.offset
  · rw [htake n hn.le]
    exact hn.yielded
  · rw [htake _ h.sized]
    exact hn.size

theorem Follows.getsize :
    Follows validate cfg fromSeq (w.step validate .getsize) := by
  obtain ⟨n, hn⟩ := h.taken
  have hbytes : ∀ k ≤ w.log.events.length, (render (w.log.events.take k)).length ≤
      w.log.bytes.length := by
    intro k _
    rw [Log.bytes, length_append, ← take_append_drop k w.log.events, render_append,
      length_append, take_append_drop]
    omega
  refine ⟨h.logged, h.numbered, Nat.le_refl _, n, hn.seen, hn.le, hn.offset, hn.yielded, hn.from_le,
    hn.next_le, fun size hsize => ?_⟩
  cases hsize
  refine ⟨?_, hbytes _ (Nat.le_refl _)⟩
  exact hn.offset ▸ hbytes n hn.le

/-- **A scan takes up the complete lines it reads**, and yields what they publish. -/
theorem Follows.read :
    Follows validate cfg fromSeq (w.step validate .read) := by
  obtain ⟨n, hn⟩ := h.taken
  cases hsize : w.follower.size with
  | none =>
    have hsame : w.step validate .read = w := by
      rw [FollowWorld.step, Follower.read, hsize]
      simp
    rw [hsame]
    exact h
  | some size =>
    have hevents : w.log.events.take n ++ w.log.events.drop n = w.log.events :=
      take_append_drop n _
    have hdone : (w.log.events.take n).length = n := length_take_of_le hn.le
    have hlogged : Logged cfg (w.log.events.drop n) := fun e he => h.logged e (mem_of_mem_drop he)
    obtain ⟨hoffset, hsized⟩ := hn.size size hsize
    rw [hn.offset] at hoffset
    obtain ⟨m, hm, hscan, hlast⟩ := @scan_log _ validate cfg (w.log.events.take n) _ hlogged
      w.log.torn w.log.newline_not_mem size hoffset
    rw [hevents, ← hn.offset] at hscan
    have htake : w.log.events.take n ++ (w.log.events.drop n).take m = w.log.events.take (n + m) :=
      take_add.symm
    have hnum : Numbered (1 + n) ((w.log.events.drop n).take m) := by
      have hall := h.numbered
      rw [← hevents, numbered_append, hdone, ← take_append_drop m (w.log.events.drop n),
        numbered_append] at hall
      exact hall.2.1
    obtain ⟨hyield, hfrom, hnext⟩ := deliver_published validate hnum hn.from_le
      (by have := hn.next_le; omega)
    have hstep : w.step validate .read =
        { w with
          follower :=
            { offset := (render (w.log.events.take (n + m))).length
              nextSeq := (deliver w.follower.nextSeq
                (((w.log.events.drop n).take m).filterMap (published validate))).2
              size := none
              yielded := w.follower.yielded ++ publishedFrom validate fromSeq
                ((w.log.events.drop n).take m) }
          seen := w.sized } := by
      rw [FollowWorld.step, Follower.read, hsize, if_neg (by rintro ⟨⟩)]
      dsimp only
      rw [Log.bytes, hscan, htake, hyield, publishedFrom]
    rw [length_drop] at hm
    rw [length_take_of_le (by rw [length_drop]; omega)] at hnext
    rw [hstep]
    refine ⟨h.logged, h.numbered, h.sized, n + m, ?_, ?_, rfl, ?_, hfrom, ?_, fun _ hs => by cases hs⟩
    · -- the events that were complete when the size was asked for end within it
      by_cases hle : w.sized ≤ n
      · exact Nat.le_add_right_of_le hle
      · have hk := hlast (w.sized - n) (by rw [length_drop]; have := h.sized; omega) (by
          rw [← take_add, Nat.add_sub_cancel' (by omega)]
          exact hsized)
        change w.sized ≤ n + m
        omega
    · change n + m ≤ w.log.events.length
      have := hn.le
      omega
    · change w.follower.yielded ++ publishedFrom validate fromSeq ((w.log.events.drop n).take m) =
        publishedFrom validate fromSeq (w.log.events.take (n + m))
      rw [hn.yielded, ← htake, publishedFrom, publishedFrom, publishedFrom, filterMap_append,
        filter_append]
    · change (deliver w.follower.nextSeq _).2 ≤ max fromSeq (((n + m : Nat) : Int) + 1)
      omega

/-! ### Every run -/

theorem Follows.step {act : FollowAction}
    (ha : w.Allows cfg act) : Follows validate cfg fromSeq (w.step validate act) := by
  cases act with
  | log action => exact h.log ha
  | getsize => exact h.getsize
  | read => exact h.read

theorem Follows.run {acts : List FollowAction} (ha : w.AllowsRun cfg validate acts) :
    Follows validate cfg fromSeq (w.run validate acts) := by
  induction acts generalizing w with
  | nil => exact h
  | cons act acts ih => exact ih (h.step ha.1) ha.2

end

theorem Follows.tail (validate : Dict → Option α) (fromSeq : Int) {log : Log} (hlog : Logged cfg log.events) (hnum : Numbered 1 log.events) :
    Follows validate cfg (max 1 fromSeq) ⟨log, .tail fromSeq, 0, 0⟩ :=
  ⟨hlog, hnum, Nat.zero_le _, 0, Nat.zero_le _, Nat.zero_le _, rfl, rfl, Int.le_refl _,
    Int.le_max_left _ _, nofun⟩

theorem pairwise_published {n : Int} (h : Numbered n es) :
    (es.filterMap (published validate)).Pairwise (fun p q => p.1 < q.1) ∧
      ∀ p ∈ es.filterMap (published validate), n ≤ p.1 := by
  induction es generalizing n with
  | nil => exact ⟨.nil, nofun⟩
  | cons e es ih =>
    obtain ⟨hpairs, hle⟩ := ih h.2
    cases hp : published validate e with
    | none =>
      rw [filterMap_cons_none hp]
      exact ⟨hpairs, fun p hmem => by have := hle p hmem; omega⟩
    | some p =>
      have hseq : p.1 = n := (published_seq hp).trans h.1
      rw [filterMap_cons_some hp]
      refine ⟨.cons (fun q hq => by have := hle q hq; omega) hpairs, fun q hq => ?_⟩
      rcases mem_cons.mp hq with rfl | hq
      · exact Int.le_of_eq hseq.symm
      · have := hle q hq
        omega

theorem publishedFrom_max (h : Numbered 1 es) :
    publishedFrom validate (max 1 fromSeq) es = publishedFrom validate fromSeq es := by
  refine filter_congr fun p hp => decide_eq_decide.mpr ?_
  have hle := (pairwise_published h).2 p hp
  omega

/-- **Exactly once, in order, and nothing torn**: of a follower started at `fromSeq` on any log, in
every state of any run. -/
theorem follower_exactly_once (cfg : Config) (validate : Dict → Option α) (fromSeq : Int) {log : Log}
    (hlog : Logged cfg log.events) (hnum : Numbered 1 log.events) {acts : List FollowAction}
    (ha : FollowWorld.AllowsRun cfg validate ⟨log, .tail fromSeq, 0, 0⟩ acts) :
    ExactlyOnce validate fromSeq (FollowWorld.run validate ⟨log, .tail fromSeq, 0, 0⟩ acts) := by
  have h := (Follows.tail validate fromSeq hlog hnum).run ha
  obtain ⟨n, hn⟩ := h.taken
  have htake : Numbered 1 ((FollowWorld.run validate ⟨log, .tail fromSeq, 0, 0⟩ acts).log.events.take
      n) := by
    have hall := h.numbered
    rw [← take_append_drop n (FollowWorld.log _).events, numbered_append] at hall
    exact hall.1
  have hyielded := hn.yielded.trans (publishedFrom_max htake)
  refine ⟨⟨n, hn.seen, hn.le, hyielded⟩, ?_⟩
  rw [hyielded, publishedFrom]
  exact (pairwise_published htake).1.filter _

/-! ### A torn line that is cut off and replaced -/

/-- A presentation event. -/
def turnStarted : Request where
  eventType := "ui.turn_started"
  actor := "system"
  payload := [("event", .obj [("event_type", .str "turn_started")])]
  eventId := "event-1"
  timestamp := "2026-01-01T00:00:00+00:00"
  eventType_ne := by decide
  actor_ne := system_ne
  eventId_ne := event1_ne
  timestamp_ne := sampleTime_ne
  payload_canonical := by simp [Json.Canonical, Json.CanonicalFields]
  artifacts_canonical := canonical_noArtifacts

/-- The follower scans a torn line; it is cut off, an event is written, and the follower scans
again. -/
def tornThenWritten : List FollowAction :=
  [.log (.write [123, 34] (by decide)), .getsize, .read, .log .truncate,
    .log (.complete (newEvent sharedConfig turnStarted 1 "epoch-1")), .getsize, .read]

theorem follower_tornThenWritten :
    ExactlyOnce some 1 (FollowWorld.run some ⟨⟨[], [], by decide⟩, .tail 1, 0, 0⟩
      tornThenWritten) := by
  have hevent : Logged sharedConfig [newEvent sharedConfig turnStarted 1 "epoch-1"] := by
    intro e he
    rw [mem_singleton.mp he]
    exact ⟨wellFormed_newEvent _ (by decide) (by decide), rfl⟩
  exact @follower_exactly_once Dict sharedConfig some 1 ⟨[], [], by decide⟩ (by simp [Logged]) trivial
    tornThenWritten
    ⟨trivial, trivial, trivial, trivial, ⟨ nil_prefix, hevent, rfl⟩, trivial, trivial, trivial⟩

/-! ### The writers of the journal -/

/-- One thing that may happen to the log. -/
def Extends (cfg : Config) (log log' : Log) : Prop :=
  ∃ action, log.Allows cfg action ∧ log' = log.apply action

variable {log : Log}

theorem extends_torn (log : Log) {rest : Bytes} (hrest : newline ∉ rest) :
    Relation.ReflTransGen (Extends cfg) log ⟨log.events, rest, hrest⟩ :=
  .tail (.single ⟨.truncate, trivial, rfl⟩) ⟨.write rest hrest, trivial, rfl⟩

theorem extends_newEvent (hlog : Logged cfg log.events) (hnum : Numbered 1 log.events)
    {req : Request} {j : SessionJournal} {epoch : String} (he : resolveEpoch req j = some epoch) :
    Relation.ReflTransGen (Extends cfg) log
      ⟨log.events ++ [newEvent cfg req (nextAfter log.events) epoch], [], List.not_mem_nil⟩ := by
  obtain ⟨hlog', -⟩ := logged_append_newEvent hlog hnum he
  refine .tail (.single ⟨.truncate, trivial, rfl⟩) ⟨.complete _, ⟨ nil_prefix, ?_, ?_⟩, rfl⟩
  · exact fun e hmem => hlog' e (mem_append_right _ hmem)
  · exact nextAfter_eq hnum

/-- **What the instances of the journal do to the file** is one thing after another that may happen
to the log. -/
theorem step_extends {ι : Type} [DecidableEq ι] {w : World ι} (hc : cfg.crossProcessLock = true)
    (hf : w.file = log.bytes) (hlog : Logged cfg log.events) (hnum : Numbered 1 log.events)
    {a : Action ι} (ha : Allowed w a) :
    ∃ log', Relation.ReflTransGen (Extends cfg) log log' ∧ (step cfg w a).file = log'.bytes := by
  have hsame : ∃ log', Relation.ReflTransGen (Extends cfg) log log' ∧ w.file = log'.bytes :=
    ⟨log, .refl, hf⟩
  cases a with
  | append i req attempt =>
    by_cases hb : w.lock i = .busy
    · rw [step, hb, append_busy hc]
      exact hsame
    · have hwritten : ∀ {epoch j}, resolveEpoch req j = some epoch →
          ∃ log', Relation.ReflTransGen (Extends cfg) log log' ∧
            render (log.events ++ [newEvent cfg req (nextAfter log.events) epoch]) = log'.bytes :=
        fun he => ⟨_, extends_newEvent hlog hnum he, (append_nil _).symm⟩
      have houtcome := allowed_outcome hc hf hlog hnum ha hb
      rw [step]
      generalize append cfg (w.lock i) req attempt (w.view i) = result at houtcome
      cases houtcome with
      | refused _ => exact ⟨log.repaired, .single ⟨.truncate, trivial, rfl⟩, log.repaired_bytes.symm⟩
      | written he => exact hwritten he
      | torn hrest _ => exact ⟨_, extends_torn log hrest, rfl⟩
      | unreported he => exact hwritten he
  | read i repairTail =>
    obtain ⟨log', he, hr⟩ := read_log hlog hnum (w.lock i) repairTail (w.journals i)
    rw [step, World.view, hf, hr]
    refine ⟨⟨log.events, log'.torn, log'.newline_not_mem⟩, extends_torn log _, ?_⟩
    rw [Log.bytes, ← he]
    rfl
  | acquire i | release i =>
    rw [step]
    split <;> exact hsame
  | reopen i => exact hsame

theorem Follows.extends {w : FollowWorld α} {log' : Log} (h : Follows validate cfg fromSeq w)
    (hlog : Relation.ReflTransGen (Extends cfg) w.log log') :
    Follows validate cfg fromSeq { w with log := log' } := by
  induction hlog with
  | refl => exact h
  | tail _ hstep ih =>
    obtain ⟨action, ha, rfl⟩ := hstep
    exact ih.log ha

/-! ### A follower beside the instances -/

section Watched

variable {ι : Type} [DecidableEq ι]

inductive WatchAction (ι : Type) where
  | journal (action : Action ι)
  | getsize
  | read

/-- The instances on the file and a follower; `sized` and `seen` count complete lines. -/
structure Watched (ι α : Type) where
  world : World ι
  follower : Follower α
  sized : Nat := 0
  seen : Nat := 0

def Watched.step (cfg : Config) (validate : Dict → Option α) (s : Watched ι α) :
    WatchAction ι → Watched ι α
  | .journal action => { s with world := Session.step cfg s.world action }
  | .getsize =>
    { s with
      follower := s.follower.getsize s.world.file, sized := s.world.file.count newline }
  | .read =>
    { s with
      follower := s.follower.read validate s.world.file
      seen := if s.follower.size = none then s.seen else s.sized }

def Watched.run (cfg : Config) (validate : Dict → Option α) (s : Watched ι α)
    (acts : List (WatchAction ι)) : Watched ι α := acts.foldl (Watched.step cfg validate) s

def Watched.Allows (s : Watched ι α) : WatchAction ι → Prop
  | .journal action => Allowed s.world action
  | _ => True

def Watched.AllowsRun (cfg : Config) (validate : Dict → Option α) :
    Watched ι α → List (WatchAction ι) → Prop
  | _, [] => True
  | s, act :: acts => s.Allows act ∧ AllowsRun cfg validate (s.step cfg validate act) acts

/-- The log that the file holds, as the follower's world sees it. -/
def Watched.At (s : Watched ι α) (log : Log) : FollowWorld α := ⟨log, s.follower, s.sized, s.seen⟩

variable {s : Watched ι α}

theorem Follows.watched (hc : cfg.crossProcessLock = true)
    (h : Follows validate cfg fromSeq (s.At log)) (hf : s.world.file = log.bytes)
    {act : WatchAction ι} (ha : s.Allows act) : ∃ log',
      (s.step cfg validate act).world.file = log'.bytes ∧
        Follows validate cfg fromSeq ((s.step cfg validate act).At log') := by
  cases act with
  | journal action =>
    obtain ⟨log', hlog, hf'⟩ := step_extends hc hf h.logged h.numbered ha
    exact ⟨log', hf', h.extends hlog⟩
  | getsize =>
    have hcount : log.bytes.count newline = log.events.length := count_newline_log h.logged
    have hstep := h.getsize
    refine ⟨log, hf, ?_⟩
    rw [Watched.step, Watched.At, hf, hcount]
    exact hstep
  | read =>
    have hstep := h.read
    refine ⟨log, hf, ?_⟩
    rw [Watched.step, Watched.At, hf]
    exact hstep

theorem Follows.watchedRun (hc : cfg.crossProcessLock = true) {acts : List (WatchAction ι)}
    (h : Follows validate cfg fromSeq (s.At log)) (hf : s.world.file = log.bytes)
    (ha : s.AllowsRun cfg validate acts) : ∃ log',
      (s.run cfg validate acts).world.file = log'.bytes ∧
        Follows validate cfg fromSeq ((s.run cfg validate acts).At log') := by
  induction acts generalizing s log with
  | nil => exact ⟨log, hf, h⟩
  | cons act acts ih =>
    obtain ⟨log', hf', h'⟩ := h.watched hc hf ha.1
    exact ih h' hf' ha.2

end Watched

end KolegaCode.Session
