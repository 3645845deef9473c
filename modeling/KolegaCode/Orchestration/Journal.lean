import KolegaCode.Lib.JsonDict
import Mathlib.Data.List.Sort

/-!
# Orchestration — the journal of a workflow run

A run writes one row for every `agent()` call that has returned, in that order.  A later run reads
the completed rows back as a cache: the rows of one content key are handed out one by one, in the
order in which their calls were issued.
-/

namespace KolegaCode.Orchestration

open List
open Json (Dict get?)

/-! ### Rows -/

/-- The arguments of `RunJournal.record`; the metadata name none of the fields that the cache
reads. -/
structure Row where
  index : Nat
  key : String
  label : Option String
  value : Json
  status : String
  metadata : Dict
  plain : ∀ field ∈ ["index", "key", "status", "value"], field ∉ metadata.map Prod.fst

def ofOption : Option String → Json
  | some text => .str text
  | none => .null

/-- The line that `record` appends. -/
def Row.payload (row : Row) : Dict :=
  let payload : Dict := [("index", .int row.index), ("key", .str row.key),
    ("label", ofOption row.label), ("status", .str row.status), ("value", row.value)]
  let payload := Json.update payload (row.metadata.filter fun field => field.2 ≠ .null)
  match get? row.metadata "requested_routing" with
  | some routing => Json.set payload "requested_routing" routing
  | none => payload

/-! ### The cache -/

section Cache

-- `int(value)` of what is neither an integer nor a Boolean
variable (toInt : Json → Option Int)

/-- `int(value)`. -/
def int? : Json → Option Int
  | .int n => some n
  | .bool b => some (if b then 1 else 0)
  | value => toInt value

/-- What `load_cache` takes of a line: its index, its key and the row, where it is a completed
one; `none` stands for a line that is no JSON. -/
def entryOf (line : Option Json) : Option (Int × String × Dict) :=
  match line with
  | some (.obj entry) =>
    if (get? entry "status").getD (.str "completed") = .str "completed" then
      match (get? entry "index").bind (int? toInt), get? entry "key" with
      | some index, some (.str key) => some (index, key, entry)
      | _, _ => none
    else none
  | _ => none

/-- `ResumeCache`: the rows that are left of every key. -/
abbrev ResumeCache := Assoc String (List Dict)

/-- The rows by index; the last of one index wins. -/
def byIndex (lines : List (Option Json)) : Assoc Int (String × Dict) :=
  (lines.filterMap (entryOf toInt)).foldl (fun rows entry => rows.set entry.1 entry.2) []

def addRow (cache : ResumeCache) (entry : String × Dict) : ResumeCache :=
  cache.set entry.1 ((cache.get? entry.1).getD [] ++ [entry.2])

/-- `RunJournal.load_cache`. -/
def loadCache (lines : List (Option Json)) : ResumeCache :=
  let rows := byIndex toInt lines
  ((rows.keys.insertionSort (· ≤ ·)).filterMap rows.get?).foldl addRow []

end Cache

/-- The rows that are left of a key. -/
def ResumeCache.left (cache : ResumeCache) (key : String) : List Dict := (cache.get? key).getD []

/-- `ResumeCache.take`. -/
def ResumeCache.take (cache : ResumeCache) (key : String) : Option Dict × ResumeCache :=
  match cache.left key with
  | [] => (none, cache)
  | row :: rows => (some row, cache.set key rows)

theorem ResumeCache.take_left (cache : ResumeCache) (key key' : String) :
    (cache.take key).1 = (cache.left key).head? ∧
      (cache.take key).2.left key' =
        if key' = key then (cache.left key).tail else cache.left key' := by
  unfold take
  split
  · next hnil =>
    refine ⟨by rw [hnil]; rfl, ?_⟩
    split
    · next heq => rw [heq, hnil]; rfl
    · rfl
  · next row rows hcons =>
    refine ⟨by rw [hcons]; rfl, ?_⟩
    rw [ResumeCache.left, Assoc.get?_set]
    split
    · rw [hcons]; rfl
    · rfl

/-! ### What a journal is read as -/

/-- The completed rows of a key, in the order in which their calls were issued. -/
structure InIssueOrder (journal : List Row) (key : String) (rows : List Row) : Prop where
  sorted : rows.Pairwise fun a b => a.index < b.index
  mem : ∀ row, row ∈ rows ↔ row ∈ journal ∧ row.status = "completed" ∧ row.key = key

/-- The lines of a journal. -/
def linesOf (journal : List Row) : List (Option Json) := journal.map fun row => some (.obj row.payload)

theorem get?_updated (base patch : Dict) {field : String} (h : field ∉ patch.map Prod.fst) :
    get? (Json.update base patch) field = get? base field := by
  rw [Json.get?_update]
  have hnone : get? (Json.dictOf patch) field = none := by
    refine Option.eq_none_iff_forall_ne_some.mpr fun value hvalue => h ?_
    exact mem_map.mpr ⟨_, Json.mem_of_get?_dictOf hvalue, rfl⟩
  rw [hnone]
  rfl

/-- The metadata hide none of the fields that the cache reads. -/
theorem Row.get?_payload (row : Row) {field : String}
    (h : field ∈ ["index", "key", "status", "value"]) :
    get? row.payload field = get? [("index", .int row.index), ("key", .str row.key),
      ("label", ofOption row.label), ("status", .str row.status), ("value", row.value)] field := by
  have hplain := row.plain field h
  have hfilter : field ∉ (row.metadata.filter fun f => f.2 ≠ .null).map Prod.fst := fun hmem =>
    hplain ((filter_sublist.map Prod.fst).subset hmem)
  unfold Row.payload
  split
  · rw [Json.get?_set, if_neg, get?_updated _ _ hfilter]
    rintro rfl
    revert h
    decide
  · exact get?_updated _ _ hfilter

variable (toInt : Json → Option Int)

theorem entryOf_payload (row : Row) : entryOf toInt (some (.obj row.payload)) =
    if row.status = "completed" then some ((row.index : Int), row.key, row.payload) else none := by
  have hstatus : get? row.payload "status" = some (.str row.status) := row.get?_payload (by decide)
  have hindex : get? row.payload "index" = some (.int row.index) := row.get?_payload (by decide)
  have hkey : get? row.payload "key" = some (.str row.key) := row.get?_payload (by decide)
  unfold entryOf
  dsimp only
  rw [hstatus, hindex, hkey]
  by_cases hcompleted : row.status = "completed"
  · rw [if_pos hcompleted, if_pos (by rw [hcompleted]; rfl)]
    rfl
  · rw [if_neg hcompleted, if_neg]
    exact fun h => hcompleted (Json.str.inj h)

/-- The completed rows of a journal, as the cache has them by index. -/
theorem byIndex_linesOf {journal : List Row} (h : (journal.map Row.index).Nodup) :
    byIndex toInt (linesOf journal) = (journal.filter fun row => row.status = "completed").map
      fun row => ((row.index : Int), row.key, row.payload) := by
  have hentries : (linesOf journal).filterMap (entryOf toInt) =
      (journal.filter fun row => row.status = "completed").map
        fun row => ((row.index : Int), row.key, row.payload) := by
    rw [linesOf, filterMap_map]
    induction journal with
    | nil => rfl
    | cons row journal ih =>
      rw [filterMap_cons, Function.comp_apply, entryOf_payload, filter_cons]
      have htail := ih (nodup_cons.mp (map_cons ▸ h)).2
      by_cases hcompleted : row.status = "completed"
      · rw [if_pos hcompleted, if_pos (decide_eq_true hcompleted), map_cons, htail]
      · rw [if_neg hcompleted, if_neg (by simpa using hcompleted), htail]
  rw [byIndex, hentries]
  refine Assoc.ofPairs_of_nodup ?_
  rw [map_map]
  have hcast : (journal.filter fun row => row.status = "completed").map
      (Prod.fst ∘ fun row => ((row.index : Int), row.key, row.payload)) =
        ((journal.filter fun row => row.status = "completed").map Row.index).map Int.ofNat := by
    rw [map_map]
    rfl
  rw [hcast]
  exact (h.sublist (filter_sublist.map Row.index)).map fun a b h => Int.ofNat.inj h

/-- Adding rows one by one puts each behind the earlier ones of its key. -/
theorem left_foldl_addRow (entries : List (String × Dict)) (cache : ResumeCache) (key : String) :
    (entries.foldl addRow cache).left key =
      cache.left key ++ (entries.filter fun entry => entry.1 = key).map Prod.snd := by
  induction entries generalizing cache with
  | nil => rw [foldl_nil, filter_nil, map_nil, append_nil]
  | cons entry entries ih =>
    have hadd : (addRow cache entry).left key =
        if entry.1 = key then cache.left key ++ [entry.2] else cache.left key := by
      rw [addRow, ResumeCache.left, Assoc.get?_set]
      by_cases heq : key = entry.1
      · rw [if_pos heq, if_pos heq.symm, heq]
        rfl
      · rw [if_neg heq, if_neg fun h => heq h.symm]
        rfl
    rw [foldl_cons, ih, hadd, filter_cons]
    by_cases heq : entry.1 = key
    · rw [if_pos heq, if_pos (decide_eq_true heq), map_cons, append_assoc, singleton_append]
    · rw [if_neg heq, if_neg (by simpa using heq)]

/-- **The cache of a journal.**  Every key has its completed rows in the order in which their calls
were issued, whatever the order in which they stand. -/
theorem left_loadCache {journal rows : List Row} {key : String}
    (h : (journal.map Row.index).Nodup) (hrows : InIssueOrder journal key rows) :
    (loadCache toInt (linesOf journal)).left key = rows.map Row.payload := by
  set completed := journal.filter fun row => row.status = "completed" with hcompleted
  set sorted := completed.insertionSort fun a b => a.index ≤ b.index with hsorted
  have hperm : sorted.Perm completed := perm_insertionSort _ _
  have htotal : Std.Total fun a b : Row => a.index ≤ b.index := ⟨fun a b => Nat.le_total _ _⟩
  have htrans : IsTrans Row fun a b => a.index ≤ b.index := ⟨fun _ _ _ => Nat.le_trans⟩
  have hpairwise : sorted.Pairwise fun a b => a.index ≤ b.index :=
    pairwise_insertionSort _ completed
  have hnodup : (completed.map Row.index).Nodup :=
    h.sublist (filter_sublist.map Row.index)
  have hbyIndex := byIndex_linesOf toInt h
  rw [← hcompleted] at hbyIndex
  have hkeys : (byIndex toInt (linesOf journal)).keys.insertionSort (· ≤ ·) =
      sorted.map fun row => (row.index : Int) := by
    rw [hbyIndex, Assoc.keys, map_map, hsorted]
    exact (map_insertionSort (fun a b : Row => a.index ≤ b.index) (· ≤ ·)
      (fun row : Row => (row.index : Int)) completed fun a _ b _ => Int.ofNat_le.symm).symm
  have hget : ∀ row ∈ sorted,
      (byIndex toInt (linesOf journal)).get? (row.index : Int) = some (row.key, row.payload) := by
    intro row hrow
    rw [hbyIndex]
    refine Assoc.get?_of_mem ?_ (mem_map.mpr ⟨row, hperm.subset hrow, rfl⟩)
    rw [Assoc.keys, map_map]
    exact (map_map .. ▸ hnodup.map fun a b h => Int.ofNat.inj h :)
  have hentries : (sorted.map fun row => (row.index : Int)).filterMap
      (byIndex toInt (linesOf journal)).get? = sorted.map fun row => (row.key, row.payload) := by
    rw [filterMap_map, ← filterMap_eq_map]
    exact filterMap_congr hget
  -- both are the completed rows of the key by ascending index
  have hrows' : sorted.filter (fun row => row.key = key) = rows := by
    have hmem : ∀ row, row ∈ sorted.filter (fun row => row.key = key) ↔ row ∈ rows := by
      intro row
      rw [mem_filter, hperm.mem_iff, hcompleted, mem_filter, hrows.mem]
      simp [and_assoc]
    have hsortedNodup : (sorted.filter fun row => row.key = key).Nodup :=
      ((hperm.map Row.index).nodup_iff.mpr hnodup).of_map.filter _
    have hrowsNodup : rows.Nodup := by
      refine hrows.sorted.imp ?_
      rintro a b hlt rfl
      exact Nat.lt_irrefl _ hlt
    refine List.Perm.eq_of_pairwise (fun a b ha hb hab hba => ?_) (hpairwise.filter _)
      (hrows.sorted.imp Nat.le_of_lt) ((perm_ext_iff_of_nodup hsortedNodup hrowsNodup).mpr hmem)
    refine inj_on_of_nodup_map hnodup (hperm.subset (mem_of_mem_filter ha)) ?_
      (Nat.le_antisymm hab hba)
    exact hperm.subset (mem_of_mem_filter ((hmem b).mpr hb))
  unfold loadCache
  dsimp only
  rw [hkeys, hentries, left_foldl_addRow, filter_map, map_map, ← hrows']
  rfl

end KolegaCode.Orchestration
