import KolegaCode.BrowserExtension.Protocol
import KolegaCode.Lib.JsonDict
import Mathlib.Algebra.Order.BigOperators.Group.List
import Mathlib.Algebra.Order.Group.Nat

/-!
# Browser extension — the limit of a direction

What `from_mapping` accepts is written in as many bytes as it came in, but for a URL that is
normalized.  The constructor looks at the limit (`toJson_of_construct`) and `from_mapping` does
not, so it is the object that was read that has to be within the limit (`toJson_isOk_iff`).
-/

namespace KolegaCode.BrowserExtension

open List Option
open Json (Dict get? set size sizeFields stringSize floats UniqueKeys)
open Hashline (isSpace)

section

variable {python : Python}

/-! ### What the checks keep -/

mutual

/-- A value that is valid is returned as it is, and its floats are finite. -/
theorem validateJsonValue_eq_ok : ∀ {depth : Nat} {v w : Json},
    validateJsonValue python depth v = .ok w →
      w = v ∧ ∀ s ∈ floats v, python.isFinite s = true
  | depth, .null, w, h => by
    obtain ⟨u, -, h⟩ := bind_eq_ok.mp h
    cases h
    exact ⟨rfl, by simp [floats]⟩
  | depth, .bool b, w, h => by
    obtain ⟨u, -, h⟩ := bind_eq_ok.mp h
    cases h
    exact ⟨rfl, by simp [floats]⟩
  | depth, .str s, w, h => by
    obtain ⟨u, -, h⟩ := bind_eq_ok.mp h
    cases h
    exact ⟨rfl, by simp [floats]⟩
  | depth, .int n, w, h => by
    obtain ⟨u, -, h⟩ := bind_eq_ok.mp h
    split at h
    · cases h
    · cases h
      exact ⟨rfl, by simp [floats]⟩
  | depth, .float s, w, h => by
    obtain ⟨u, -, h⟩ := bind_eq_ok.mp h
    split at h
    · cases h
    · next hfinite =>
      cases h
      exact ⟨rfl, by simpa [floats] using hfinite⟩
  | depth, .arr xs, w, h => by
    obtain ⟨u, -, h⟩ := bind_eq_ok.mp h
    obtain ⟨ys, hitems, h⟩ := bind_eq_ok.mp h
    cases h
    obtain ⟨rfl, hfloats⟩ := validateItems_eq_ok hitems
    exact ⟨rfl, hfloats⟩
  | depth, .obj fs, w, h => by
    obtain ⟨u, -, h⟩ := bind_eq_ok.mp h
    obtain ⟨gs, hfields, h⟩ := bind_eq_ok.mp h
    cases h
    obtain ⟨rfl, hfloats⟩ := validateFields_eq_ok hfields
    exact ⟨rfl, hfloats⟩

theorem validateItems_eq_ok : ∀ {depth : Nat} {xs ys : List Json},
    validateItems python depth xs = .ok ys →
      ys = xs ∧ ∀ s ∈ Json.floatsOfItems xs, python.isFinite s = true
  | depth, [], ys, h => by
    cases h
    exact ⟨rfl, by simp [Json.floatsOfItems]⟩
  | depth, x :: xs, ys, h => by
    obtain ⟨y, hx, h⟩ := bind_eq_ok.mp h
    obtain ⟨zs, hxs, h⟩ := bind_eq_ok.mp h
    cases h
    obtain ⟨rfl, hx⟩ := validateJsonValue_eq_ok hx
    obtain ⟨rfl, hxs⟩ := validateItems_eq_ok hxs
    exact ⟨rfl, forall_mem_append.mpr ⟨hx, hxs⟩⟩

theorem validateFields_eq_ok : ∀ {depth : Nat} {fs gs : Dict},
    validateFields python depth fs = .ok gs →
      gs = fs ∧ ∀ s ∈ Json.floatsOfFields fs, python.isFinite s = true
  | depth, [], gs, h => by
    cases h
    exact ⟨rfl, by simp [Json.floatsOfFields]⟩
  | depth, (k, v) :: fs, gs, h => by
    obtain ⟨w, hv, h⟩ := bind_eq_ok.mp h
    obtain ⟨hs, hfs, h⟩ := bind_eq_ok.mp h
    cases h
    obtain ⟨rfl, hv⟩ := validateJsonValue_eq_ok hv
    obtain ⟨rfl, hfs⟩ := validateFields_eq_ok hfs
    exact ⟨rfl, forall_mem_append.mpr ⟨hv, hfs⟩⟩

end

variable {fs values : Dict} {value v : Json} {keys : List String} {key name s : String}
  {d : MessageDirection}

theorem validateObject_eq_ok {gs : Dict} (h : validateObject python fs = .ok gs) :
    gs = fs ∧ ∀ s ∈ Json.floatsOfFields fs, python.isFinite s = true := by
  obtain ⟨u, -, h⟩ := bind_eq_ok.mp h
  exact validateFields_eq_ok h

theorem exactMapping_eq_ok {label : String} (h : exactMapping value keys label = .ok fs) :
    value = .obj fs ∧ HasKeys fs keys := by
  unfold exactMapping at h
  split at h
  · split at h
    · next hkeys =>
      cases h
      exact ⟨rfl, hkeys⟩
    · cases h
  · cases h

theorem perm_of_hasKeys (hfs : (fs.map Prod.fst).Nodup) (hkeys : keys.Nodup) (h : HasKeys fs keys) :
    fs.Perm (keys.map fun k => (k, field fs k)) := by
  have hmap : (keys.map fun k => (k, field fs k)).Nodup :=
    hkeys.map fun a b heq => (Prod.mk.inj heq).1
  refine (perm_ext_iff_of_nodup (List.Nodup.of_map _ hfs) hmap).mpr ?_
  rintro ⟨k, v⟩
  constructor
  · intro hmem
    have hk : k ∈ keys := h.2 k (mem_map_of_mem hmem)
    refine mem_map.mpr ⟨k, hk, ?_⟩
    rw [field, Json.get?_of_mem hfs hmem, getD_some]
  · intro hmem
    obtain ⟨k', hk', heq⟩ := mem_map.mp hmem
    cases heq
    obtain ⟨p, hp, hpk⟩ := mem_map.mp (h.1 k hk')
    obtain ⟨k'', v⟩ := p
    cases hpk
    rw [field, Json.get?_of_mem hfs hp, getD_some]
    exact hp

/-! ### Operations -/

/-- But for a URL, the parameters are returned as they are. -/
theorem checkParams_eq_ok {operation : Operation} {params : Dict}
    (hnavigate : operation ≠ .navigate) (htabs : operation ≠ .tabs)
    (h : checkParams python operation values = .ok params) : params = values := by
  cases operation with
  | navigate => exact absurd rfl hnavigate
  | tabs => exact absurd rfl htabs
  | navigateBack | detach =>
    obtain ⟨_, -, h⟩ := bind_eq_ok.mp h
    cases h
    rfl
  | snapshot =>
    obtain ⟨_, -, h⟩ := bind_eq_ok.mp h
    obtain ⟨_, -, h⟩ := bind_eq_ok.mp h
    obtain ⟨_, -, h⟩ := bind_eq_ok.mp h
    cases h
    rfl
  | find =>
    obtain ⟨_, -, h⟩ := bind_eq_ok.mp h
    obtain ⟨_, -, h⟩ := bind_eq_ok.mp h
    obtain ⟨_, -, h⟩ := bind_eq_ok.mp h
    split at h
    · cases h
    · dsimp only at h
      split at h
      · obtain ⟨_, -, h⟩ := bind_eq_ok.mp h
        cases h
        rfl
      · cases h
        rfl
  | waitFor =>
    obtain ⟨_, -, h⟩ := bind_eq_ok.mp h
    obtain ⟨_, -, h⟩ := bind_eq_ok.mp h
    obtain ⟨_, -, h⟩ := bind_eq_ok.mp h
    obtain ⟨_, -, h⟩ := bind_eq_ok.mp h
    split at h
    · cases h
    · cases h
      rfl
  | click =>
    obtain ⟨_, -, h⟩ := bind_eq_ok.mp h
    cases h
    rfl
  | type =>
    obtain ⟨_, -, h⟩ := bind_eq_ok.mp h
    obtain ⟨_, -, h⟩ := bind_eq_ok.mp h
    obtain ⟨_, -, h⟩ := bind_eq_ok.mp h
    split at h
    · cases h
    · cases h
      rfl
  | fillForm | selectOption =>
    obtain ⟨_, -, h⟩ := bind_eq_ok.mp h
    cases h
    rfl
  | hover =>
    obtain ⟨_, -, h⟩ := bind_eq_ok.mp h
    obtain ⟨_, -, h⟩ := bind_eq_ok.mp h
    cases h
    rfl
  | drag =>
    obtain ⟨_, -, h⟩ := bind_eq_ok.mp h
    obtain ⟨_, -, h⟩ := bind_eq_ok.mp h
    obtain ⟨_, -, h⟩ := bind_eq_ok.mp h
    cases h
    rfl
  | pressKey =>
    obtain ⟨_, -, h⟩ := bind_eq_ok.mp h
    obtain ⟨_, -, h⟩ := bind_eq_ok.mp h
    split at h
    · cases h
    · cases h
      rfl
  | scroll =>
    obtain ⟨_, -, h⟩ := bind_eq_ok.mp h
    cases h
    rfl
  | networkRequests =>
    obtain ⟨_, -, h⟩ := bind_eq_ok.mp h
    split at h
    · cases h
    · obtain ⟨_, -, h⟩ := bind_eq_ok.mp h
      dsimp only at h
      split at h
      · obtain ⟨_, -, h⟩ := bind_eq_ok.mp h
        cases h
        rfl
      · cases h
        rfl
  | screenshot =>
    obtain ⟨_, -, h⟩ := bind_eq_ok.mp h
    obtain ⟨_, -, h⟩ := bind_eq_ok.mp h
    split at h
    · cases h
    · obtain ⟨_, -, h⟩ := bind_eq_ok.mp h
      split at h
      · cases h
      · obtain ⟨_, -, h⟩ := bind_eq_ok.mp h
        split at h
        · cases h
        · split at h
          · cases h
          · cases h
            rfl

/-! ### Payloads -/

theorem validatePayload_eq_ok {type : MessageType} {payload : Payload}
    (h : validatePayload python type value = .ok payload) :
    ∃ given checked, value = .obj given ∧ HasKeys given type.schema ∧
      checkPayload python type given = .ok checked ∧
      (∀ s ∈ Json.floatsOfFields checked, python.isFinite s = true) ∧
      payload = Payload.ofDict checked type := by
  obtain ⟨given, hexact, h⟩ := bind_eq_ok.mp h
  obtain ⟨checked, hcheck, h⟩ := bind_eq_ok.mp h
  obtain ⟨validated, hvalid, h⟩ := bind_eq_ok.mp h
  cases h
  obtain ⟨rfl, hkeys⟩ := exactMapping_eq_ok hexact
  obtain ⟨rfl, hfinite⟩ := validateObject_eq_ok hvalid
  exact ⟨given, _, rfl, hkeys, hcheck, hfinite, rfl⟩

theorem validateOperationRequest_eq_ok {operation params : Json} {validated : Dict}
    (h : validateOperationRequest python operation params = .ok validated) :
    ∃ name op given, operation = .str name ∧ ALLOWED_OPERATIONS.lookup name = some op ∧
      params = .obj given ∧ checkParams python op given = .ok validated := by
  unfold validateOperationRequest at h
  split at h
  · next name =>
    split at h
    · cases h
    · split at h
      · cases h
      · next op hlookup =>
        split at h
        · next given =>
          obtain ⟨values, hcheck, h⟩ := bind_eq_ok.mp h
          obtain ⟨rfl, -⟩ := validateObject_eq_ok h
          exact ⟨name, op, given, rfl, hlookup, rfl, hcheck⟩
        · cases h
  · cases h

theorem field_set_self (d : Dict) (key : String) (v : Json) : field (set d key v) key = v := by
  rw [field, Json.get?_set, if_pos rfl, getD_some]

theorem field_set_of_ne {d : Dict} {key' : String} (v : Json) (h : key' ≠ key) :
    field (set d key v) key' = field d key' := by
  rw [field, Json.get?_set, if_neg (by tauto), field]

theorem eq_strOf (h : ∃ s, v = .str s) : v = .str (strOf v) := by
  obtain ⟨s, rfl⟩ := h
  rfl

theorem isMessage_str (h : ¬ isMessage v = false) : ∃ s, v = .str s := by
  cases v with
  | str s => exact ⟨s, rfl⟩
  | _ => exact absurd rfl h

theorem eq_bool (h : ¬ isBool v = false) : v = .bool (decide (v = .bool true)) := by
  cases v with
  | bool b => cases b <;> rfl
  | _ => exact absurd rfl h

/-- The payload of an envelope is the dictionary that was checked. -/
theorem toDict_ofDict {type : MessageType} {given checked : Dict}
    (h : checkPayload python type given = .ok checked) :
    (Payload.ofDict checked type).toDict = type.schema.map fun k => (k, field checked k) := by
  unfold checkPayload at h
  cases type with
  | request =>
    obtain ⟨params, hparams, h⟩ := bind_eq_ok.mp h
    obtain ⟨name, op, _, hname, -⟩ := validateOperationRequest_eq_ok hparams
    cases h
    simp only [Payload.ofDict, Payload.toDict, MessageType.schema, map_cons, map_nil,
      field_set_self, field_set_of_ne _ (show "operation" ≠ "params" by decide), hname, strOf,
      dictOf]
  | response =>
    cases h
    rfl
  | error =>
    dsimp only at h
    split at h
    · next code hcode =>
      split at h
      · cases h
      · split at h
        · cases h
        · next hmessage =>
          split at h
          · cases h
          · next hretryable =>
            cases h
            have hcode := eq_strOf ⟨code, hcode⟩
            have hmessage := eq_strOf (isMessage_str hmessage)
            have hretryable := eq_bool hretryable
            simp only [Payload.ofDict, Payload.toDict, MessageType.schema, map_cons,
              map_nil, ← hcode, ← hmessage, ← hretryable]
    · cases h
  | cancel =>
    dsimp only at h
    split at h
    · cases h
    · next hreason =>
      cases h
      have hreason := eq_strOf (isMessage_str hreason)
      simp only [Payload.ofDict, Payload.toDict, MessageType.schema, map_cons, map_nil, ← hreason]
  | event =>
    dsimp only at h
    split at h
    · next name data hname hdata =>
      split at h
      · cases h
      · cases h
        simp only [Payload.ofDict, Payload.toDict, MessageType.schema, map_cons,
          map_nil, hname, hdata, strOf, dictOf]
    · split at h <;> cases h
    · cases h

theorem type_ofDict (checked : Dict) (type : MessageType) :
    (Payload.ofDict checked type).type = type := by
  cases type <;> rfl

theorem checkPayload_eq_self {type : MessageType} {given checked : Dict} (htype : type ≠ .request)
    (h : checkPayload python type given = .ok checked) : checked = given := by
  unfold checkPayload at h
  cases type with
  | request => exact absurd rfl htype
  | response =>
    cases h
    rfl
  | error =>
    dsimp only at h
    split at h
    · split at h
      · cases h
      · split at h
        · cases h
        · split at h
          · cases h
          · cases h
            rfl
    · cases h
  | cancel =>
    dsimp only at h
    split at h
    · cases h
    · cases h
      rfl
  | event =>
    dsimp only at h
    split at h
    · split at h
      · cases h
      · cases h
        rfl
    · split at h <;> cases h
    · cases h

theorem checkPayload_request {given checked : Dict}
    (h : checkPayload python .request given = .ok checked) :
    ∃ name op params validated, field given "operation" = .str name ∧
      ALLOWED_OPERATIONS.lookup name = some op ∧ field given "params" = .obj params ∧
      checkParams python op params = .ok validated ∧
      checked = set given "params" (.obj validated) := by
  obtain ⟨validated, hparams, h⟩ := bind_eq_ok.mp h
  obtain ⟨name, op, params, hname, hlookup, hgiven, hcheck⟩ :=
    validateOperationRequest_eq_ok hparams
  cases h
  exact ⟨name, op, params, validated, hname, hlookup, hgiven, hcheck, rfl⟩

theorem keys_checkPayload {type : MessageType} {given checked : Dict}
    (hkeys : HasKeys given type.schema) (h : checkPayload python type given = .ok checked) :
    checked.map Prod.fst = given.map Prod.fst := by
  by_cases htype : type = .request
  · subst htype
    obtain ⟨-, -, -, validated, -, -, -, -, rfl⟩ := checkPayload_request h
    exact Json.keys_set_of_mem (hkeys.1 "params" (by simp [MessageType.schema]))
  · rw [checkPayload_eq_self htype h]

/-- A request of these operations has its URL normalized. -/
def Operation.HasUrl (operation : Operation) : Prop := operation = .navigate ∨ operation = .tabs

/-- But for a URL, the payload is checked and nothing of it changed. -/
theorem checkPayload_request_eq_self {given checked : Dict}
    (h : checkPayload python .request given = .ok checked)
    (hurl : ∀ name op, field given "operation" = .str name →
      ALLOWED_OPERATIONS.lookup name = some op → ¬ op.HasUrl) : checked = given := by
  obtain ⟨name, op, params, validated, hname, hlookup, hparams, hcheck, rfl⟩ :=
    checkPayload_request h
  obtain ⟨hnavigate, htabs⟩ := not_or.mp (hurl name op hname hlookup)
  rw [checkParams_eq_ok hnavigate htabs hcheck]
  refine Json.set_of_get? ?_
  unfold field at hparams
  cases hget : get? given "params" with
  | none =>
    rw [hget] at hparams
    cases hparams
  | some v =>
    rw [hget] at hparams
    exact congrArg some hparams

/-! ### Envelopes -/

theorem orFail_eq_ok {α : Type} {code message : String} {x : Option α} {a : α}
    (h : orFail code message x = .ok a) : x = some a := by
  cases x with
  | none => cases h
  | some b =>
    cases h
    rfl

theorem direction_of_ofValue (h : MessageDirection.ofValue v = some d) : v = .str d.value := by
  simpa using find?_some h

theorem type_of_ofValue {t : MessageType} (h : MessageType.ofValue v = some t) :
    v = .str t.value := by
  simpa using find?_some h

theorem identifier_eq_ok (h : identifier v name = .ok s) :
    v = .str s ∧ isIdentifier s.toList = true := by
  unfold identifier at h
  split at h
  · split at h
    · next hidentifier =>
      cases h
      exact ⟨rfl, hidentifier⟩
    · cases h
  · cases h

theorem deadline_eq_ok {n : Nat} (h : deadline v = .ok n) :
    v = .int n ∧ (n : Int) ≤ MAX_SAFE_INTEGER := by
  unfold deadline at h
  split at h
  · split at h
    · cases h
    · next m hm =>
      cases h
      obtain ⟨hpos, hle⟩ := not_or.mp hm
      have hcast : (m.toNat : Int) = m := Int.toNat_of_nonneg (by omega)
      rw [hcast]
      exact ⟨rfl, by omega⟩
  · cases h

namespace Envelope

/-- What `from_mapping` finds. -/
structure Accepted (python : Python) (envelope given checked : Dict) (type : MessageType)
    (e : Envelope) : Prop where
  keys : HasKeys envelope ENVELOPE_KEYS
  version : field envelope "version" = .int PROTOCOL_VERSION
  direction : field envelope "direction" = .str e.direction.value
  type_eq : field envelope "type" = .str type.value
  request : field envelope "request_id" = .str e.requestId
  runtime : field envelope "runtime_id" = .str e.runtimeId
  session : field envelope "session_id" = .str e.sessionId
  deadline : field envelope "deadline_ms" = .int e.deadlineMs
  payload : field envelope "payload" = .obj given
  identifiers : isIdentifier e.requestId.toList = true ∧ isIdentifier e.runtimeId.toList = true ∧
    isIdentifier e.sessionId.toList = true
  safe : (e.deadlineMs : Int) ≤ MAX_SAFE_INTEGER
  schema : HasKeys given type.schema
  check : checkPayload python type given = .ok checked
  finite : ∀ s ∈ Json.floatsOfFields checked, python.isFinite s = true
  payload_eq : e.payload = Payload.ofDict checked type

/-- **The parts of a message that is accepted.** -/
theorem fromMapping_eq_ok {value : Json} {e : Envelope} (h : fromMapping python value = .ok e) :
    ∃ envelope given checked type, value = .obj envelope ∧
      Accepted python envelope given checked type e := by
  obtain ⟨envelope, hexact, h⟩ := bind_eq_ok.mp h
  obtain ⟨u, hversion, h⟩ := bind_eq_ok.mp h
  obtain ⟨direction, hdirection, h⟩ := bind_eq_ok.mp h
  obtain ⟨type, htype, h⟩ := bind_eq_ok.mp h
  obtain ⟨requestId, hrequest, h⟩ := bind_eq_ok.mp h
  obtain ⟨runtimeId, hruntime, h⟩ := bind_eq_ok.mp h
  obtain ⟨sessionId, hsession, h⟩ := bind_eq_ok.mp h
  obtain ⟨deadlineMs, hdeadline, h⟩ := bind_eq_ok.mp h
  obtain ⟨payload, hpayload, h⟩ := bind_eq_ok.mp h
  cases h
  obtain ⟨rfl, hkeys⟩ := exactMapping_eq_ok hexact
  obtain ⟨given, checked, hgiven, hschema, hcheck, hfinite, rfl⟩ := validatePayload_eq_ok hpayload
  have hversion : field envelope "version" = .int PROTOCOL_VERSION := by
    unfold checkVersion at hversion
    split at hversion
    · assumption
    · cases hversion
  exact ⟨envelope, given, checked, type, rfl, {
    keys := hkeys
    version := hversion
    direction := direction_of_ofValue (orFail_eq_ok hdirection)
    type_eq := type_of_ofValue (orFail_eq_ok htype)
    request := (identifier_eq_ok hrequest).1
    runtime := (identifier_eq_ok hruntime).1
    session := (identifier_eq_ok hsession).1
    deadline := (deadline_eq_ok hdeadline).1
    payload := hgiven
    identifiers := ⟨(identifier_eq_ok hrequest).2, (identifier_eq_ok hruntime).2,
      (identifier_eq_ok hsession).2⟩
    safe := (deadline_eq_ok hdeadline).2
    schema := hschema
    check := hcheck
    finite := hfinite
    payload_eq := rfl }⟩

end Envelope

/-! ### Sizes -/

section

variable {floatText : String → String}

theorem size_obj (fs : Dict) :
    size floatText (.obj fs) =
      2 + (fs.map fun p => stringSize p.1 + 1 + size floatText p.2).sum + (fs.length - 1) := by
  rw [size, Json.sizeFields_eq]

theorem uniqueKeys_field (h : Json.UniqueKeysFields fs) (key : String) :
    UniqueKeys (field fs key) := by
  unfold field
  cases hget : get? fs key with
  | none => trivial
  | some v => exact Json.uniqueKeysFields_iff.mp h _ (Json.mem_of_get? hget)

theorem size_dumpsInt_le {n : Nat} {k : Nat} (hk : 0 < k) (h : n < 10 ^ k) :
    size floatText (.int n) ≤ k := by
  rw [size]
  exact (Nat.length_toDigits_le_iff (by decide) hk).mpr h

theorem stringSize_identifier (h : isIdentifier s.toList = true) : stringSize s ≤ 770 := by
  have hle : s.toList.length ≤ 128 := by
    unfold isIdentifier matchesWord at h
    split at h
    · cases h
    · next c cs hs =>
      simp only [Bool.and_eq_true, decide_eq_true_eq] at h
      rw [hs, length_cons]
      omega
  have := Json.stringSize_le s
  omega

theorem stringSize_direction (d : MessageDirection) : stringSize d.value ≤ 30 := by
  cases d <;> decide

theorem stringSize_type (t : MessageType) : stringSize t.value ≤ 10 := by
  cases t <;> decide

end

namespace Envelope

variable {envelope given checked : Dict} {type : MessageType} {e : Envelope}

section

variable (h : Accepted python envelope given checked type e)
include h

theorem Accepted.toDict_perm (hgiven : (given.map Prod.fst).Nodup) :
    checked.Perm e.payload.toDict := by
  have hkeys := keys_checkPayload h.schema h.check
  have hchecked : HasKeys checked type.schema := by
    unfold HasKeys
    rw [hkeys]
    exact h.schema
  rw [h.payload_eq, toDict_ofDict h.check]
  exact perm_of_hasKeys (hkeys ▸ hgiven) (by cases type <;> decide) hchecked

/-- **What is accepted unchanged is written in as many bytes**, whatever the order of its keys. -/
theorem Accepted.size_eq (henvelope : (envelope.map Prod.fst).Nodup)
    (hgiven : (given.map Prod.fst).Nodup) (hself : checked = given) :
    size python.floatRepr (.obj e.toMapping) = size python.floatRepr (.obj envelope) := by
  have hpayload : size python.floatRepr (.obj e.payload.toDict) =
      size python.floatRepr (.obj given) := by
    rw [← hself]
    exact (Json.size_obj_perm _ (h.toDict_perm hgiven)).symm
  have htype : e.payload.type = type := by rw [h.payload_eq, type_ofDict]
  rw [Json.size_obj_perm _ (perm_of_hasKeys henvelope (by decide) h.keys), size_obj, size_obj]
  simp only [toMapping, ENVELOPE_KEYS, map_cons, map_nil, sum_cons, sum_nil,
    length_cons, length_nil, h.version, h.direction, h.type_eq, h.request, h.runtime,
    h.session, h.deadline, h.payload, hpayload, htype]

theorem Accepted.size_le {n : Nat} (hn : size python.floatRepr (.obj e.payload.toDict) ≤ n) :
    size python.floatRepr (.obj e.toMapping) ≤ n + 3100 := by
  have hkeys : ∀ k ∈ ENVELOPE_KEYS, stringSize k ≤ 13 := by decide
  simp only [ENVELOPE_KEYS, forall_mem_cons, not_mem_nil, false_implies, implies_true,
    and_true] at hkeys
  obtain ⟨hrequest, hruntime, hsession⟩ := h.identifiers
  have hrequest := stringSize_identifier hrequest
  have hruntime := stringSize_identifier hruntime
  have hsession := stringSize_identifier hsession
  have hdirection := stringSize_direction e.direction
  have htype := stringSize_type e.payload.type
  have hversion : size python.floatRepr (.int PROTOCOL_VERSION) ≤ 1 :=
    size_dumpsInt_le (n := 1) (by decide) (by decide)
  have hdeadline : size python.floatRepr (.int e.deadlineMs) ≤ 16 := by
    refine size_dumpsInt_le (by decide) ?_
    have := h.safe
    unfold MAX_SAFE_INTEGER at this
    omega
  have hstr : ∀ s : String, size python.floatRepr (.str s) = stringSize s := fun s => by rw [size]
  rw [size_obj]
  simp only [toMapping, map_cons, map_nil, sum_cons, sum_nil, length_cons, length_nil, hstr]
  omega

/-- **An envelope that was accepted is written if it is within the limit.** -/
theorem Accepted.written_iff (hgiven : (given.map Prod.fst).Nodup) :
    (∃ encoded, toJson python e = .ok encoded) ↔
      size python.floatRepr (.obj e.toMapping) ≤ sizeLimit e.direction := by
  have hfinite : ∀ s ∈ floats (.obj e.toMapping), python.isFinite s = true := by
    intro s hs
    obtain ⟨p, hp, hs⟩ := Json.mem_floatsOfFields.mp hs
    simp only [toMapping, mem_cons, not_mem_nil, or_false] at hp
    rcases hp with rfl | rfl | rfl | rfl | rfl | rfl | rfl | rfl
    case inr.inr.inr.inr.inr.inr.inr =>
      obtain ⟨q, hq, hs⟩ := Json.mem_floatsOfFields.mp hs
      have hq := (h.toDict_perm hgiven).mem_iff.mpr hq
      exact h.finite s (Json.mem_floatsOfFields.mpr ⟨q, hq, hs⟩)
    all_goals exact absurd hs not_mem_nil
  rw [toJson, if_pos hfinite]
  dsimp only
  rw [Json.length_encode_dumpsSorted]
  split
  · next hlimit => exact ⟨fun ⟨_, h⟩ => (nomatch h), fun h => absurd h (Nat.not_le.mpr hlimit)⟩
  · next hlimit => exact ⟨fun _ => Nat.not_lt.mp hlimit, fun _ => ⟨_, rfl⟩⟩

end

end Envelope

/-! ### URLs -/

/-- A normalized URL takes at most nine bytes for each unit of what it is made of, a character of
three percent-encoded bytes, and as much as a host more. -/
def Python.UrlsBounded (python : Python) : Prop :=
  ∀ candidate url, python.httpUrl candidate = .ok url →
    stringSize url ≤ 9 * utf16Length candidate + 400

theorem utf16Length_append (s t : List Char) :
    utf16Length (s ++ t) = utf16Length s + utf16Length t := by
  simp [utf16Length]

theorem utf16Length_sublist {s t : List Char} (h : s.Sublist t) : utf16Length s ≤ utf16Length t :=
  (h.map _).sum_le_sum fun _ _ => Nat.zero_le _

theorem length_le_utf16Length (s : List Char) : s.length ≤ utf16Length s := by
  unfold utf16Length
  induction s with
  | nil => exact Nat.le_refl _
  | cons c s ih =>
    rw [length_cons, map_cons, sum_cons]
    split <;> omega

theorem strip_sublist (s : List Char) : (Text.strip isSpace s).Sublist s :=
  ( rdropWhile_prefix _ _).sublist.trans (dropWhile_sublist _)

theorem stringParam_eq_ok {nullable nonempty : Bool} {maximum : Nat}
    (h : stringParam v name nullable maximum nonempty = .ok (some s)) :
    utf16Length s.toList ≤ maximum := by
  unfold stringParam at h
  split at h
  · split at h <;> cases h
  · split at h
    · next hparam =>
      cases h
      exact hparam.1
    · cases h
  · cases h

theorem size_normalizeHttpUrl (floatText : String → String) (hurls : python.UrlsBounded)
    {nullable : Bool} {url : Option String} (h : normalizeHttpUrl python v nullable = .ok url) :
    size floatText (url.elim .null .str) ≤ 75000 := by
  obtain ⟨raw, hraw, h⟩ := bind_eq_ok.mp h
  cases raw with
  | none =>
    cases h
    rw [Option.elim_none, size]
    decide
  | some raw =>
    have hlength := stringParam_eq_ok hraw
    have hstrip : utf16Length (Text.strip isSpace raw.toList) ≤ 8192 :=
      (utf16Length_sublist (strip_sublist _)).trans hlength
    dsimp only at h
    split at h
    · next url' hurl =>
      cases h
      have hle := hurls _ _ hurl
      have hcandidate : utf16Length (if "://".toList <:+: Text.strip isSpace raw.toList then
          Text.strip isSpace raw.toList
        else (if isLocalAddress (Text.strip isSpace raw.toList) = true then "http"
          else "https").toList ++ "://".toList ++ Text.strip isSpace raw.toList) ≤ 8200 := by
        have hscheme : utf16Length (if isLocalAddress (Text.strip isSpace raw.toList) = true then
            "http" else "https").toList ≤ 5 := by
          split <;> decide
        have hcolon : utf16Length "://".toList = 3 := by decide
        split
        · omega
        · rw [utf16Length_append, utf16Length_append]
          omega
      rw [Option.elim_some, size]
      omega
    · cases h

theorem exactParams_eq_ok {u : Unit} (h : exactParams values keys = .ok u) :
    HasKeys values keys := by
  unfold exactParams at h
  split at h
  · assumption
  · cases h

theorem hasKeys_set (v : Json) (h : HasKeys values keys) (hkey : key ∈ keys) :
    HasKeys (set values key v) keys := by
  unfold HasKeys
  rw [Json.keys_set_of_mem (h.1 key hkey)]
  exact h

theorem nodup_set (v : Json) (hvalues : (values.map Prod.fst).Nodup) (h : HasKeys values keys)
    (hkey : key ∈ keys) : ((set values key v).map Prod.fst).Nodup := by
  rw [Json.keys_set_of_mem (h.1 key hkey)]
  exact hvalues

theorem nullableInteger_eq_ok {minimum maximum : Int} {u : Unit}
    (h : nullableInteger python v name minimum maximum = .ok u) :
    v = .null ∨ ∃ n, v = .int n ∧ minimum ≤ n ∧ n ≤ maximum := by
  unfold nullableInteger at h
  split at h
  · exact .inl rfl
  · next n =>
    split at h
    · next hn => exact .inr ⟨n, rfl, hn⟩
    · cases h
  · cases h
  · cases h

theorem inSet_eq_ok {options : List String} (h : inSet v options = .ok true) :
    ∃ s ∈ options, v = .str s := by
  unfold inSet at h
  split at h
  · next s =>
    refine ⟨s, ?_, rfl⟩
    simpa using (Except.ok.inj h)
  · cases h
  · cases h
  · cases h

theorem size_checkParams_le (hurls : python.UrlsBounded) {operation : Operation} {params : Dict}
    (hoperation : operation.HasUrl) (hvalues : (values.map Prod.fst).Nodup)
    (h : checkParams python operation values = .ok params) :
    size python.floatRepr (.obj params) ≤ 75200 := by
  rcases hoperation with rfl | rfl
  · obtain ⟨u, hkeys, h⟩ := bind_eq_ok.mp h
    obtain ⟨url, hurl, h⟩ := bind_eq_ok.mp h
    cases h
    have hkeys := exactParams_eq_ok hkeys
    have hparams := hasKeys_set (url.elim .null .str) hkeys (mem_singleton_self _)
    have hnodup := nodup_set (url.elim .null .str) hvalues hkeys (mem_singleton_self _)
    have hurl := size_normalizeHttpUrl python.floatRepr hurls hurl
    have hname : stringSize "url" = 5 := by decide
    rw [Json.size_obj_perm _ (perm_of_hasKeys hnodup (by decide) hparams), size_obj]
    simp only [map_cons, map_nil, sum_cons, sum_nil, length_cons, length_nil, field_set_self, hname]
    omega
  · obtain ⟨u, hkeys, h⟩ := bind_eq_ok.mp h
    obtain ⟨known, haction, h⟩ := bind_eq_ok.mp h
    split at h
    · cases h
    · next hknown =>
      have hkeys := exactParams_eq_ok hkeys
      obtain ⟨u', hindex, h⟩ := bind_eq_ok.mp h
      obtain ⟨url, hurl, h⟩ := bind_eq_ok.mp h
      have hknown : known = true := by simpa using hknown
      obtain ⟨s, hs, hstr⟩ := inSet_eq_ok (hknown ▸ haction)
      have hparams : params = set values "url" (url.elim .null .str) := by
        simp only [field_set_of_ne _ (show "action" ≠ "url" by decide), hstr] at h
        split at h
        · cases h
        · split at h
          · cases h
          · split at h
            · cases h
            · cases h
              rfl
      have hsize : size python.floatRepr (field values "index") ≤ 4 := by
        rcases nullableInteger_eq_ok hindex with hnull | ⟨n, hn, hpos, hle⟩
        · rw [hnull, size]
        · obtain ⟨m, rfl⟩ := Int.eq_ofNat_of_zero_le hpos
          rw [hn]
          exact size_dumpsInt_le (by decide) (by omega)
      have haction : size python.floatRepr (field values "action") ≤ 8 := by
        have hsmall : ∀ s ∈ ["list", "new", "close", "select"], stringSize s ≤ 8 := by decide
        rw [hstr, size]
        exact hsmall s hs
      have hmem : "url" ∈ ["action", "index", "url"] := by decide
      have hset := hasKeys_set (url.elim .null .str) hkeys hmem
      have hnodup := nodup_set (url.elim .null .str) hvalues hkeys hmem
      have hurl := size_normalizeHttpUrl python.floatRepr hurls hurl
      have hnames : stringSize "url" = 5 ∧ stringSize "action" = 8 ∧ stringSize "index" = 7 := by
        decide
      rw [hparams, Json.size_obj_perm _ (perm_of_hasKeys hnodup (by decide) hset), size_obj]
      simp only [map_cons, map_nil, sum_cons, sum_nil, length_cons,
        length_nil, field_set_self, hnames, field_set_of_ne _ (show "action" ≠ "url" by decide),
        field_set_of_ne _ (show "index" ≠ "url" by decide)]
      omega

/-! ### Messages -/

/-- A request whose operation has its URL normalized. -/
def HasUrl (value : Json) : Prop :=
  field (dictOf value) "type" = .str "request" ∧
    field (dictOf (field (dictOf value) "payload")) "operation" ∈
      [Json.str "browser.navigate", .str "browser.tabs"]

instance (value : Json) : Decidable (HasUrl value) := inferInstanceAs (Decidable (_ ∧ _))

/-- The byte bound of the direction a message names. -/
def limitOf (value : Json) : Nat :=
  if field (dictOf value) "direction" = .str "extension_to_runtime" then
    MAX_PROTOCOL_RESPONSE_JSON_BYTES
  else MAX_PROTOCOL_JSON_BYTES

instance (op : Operation) : Decidable op.HasUrl := inferInstanceAs (Decidable (_ ∨ _))

theorem hasUrl_of_lookup {op : Operation} (h : ALLOWED_OPERATIONS.lookup name = some op) :
    op.HasUrl ↔ name ∈ ["browser.navigate", "browser.tabs"] := by
  have hall : ∀ p ∈ ALLOWED_OPERATIONS,
      p.2.HasUrl ↔ p.1 ∈ ["browser.navigate", "browser.tabs"] := by decide
  obtain ⟨before, behind, heq, -⟩ := lookup_eq_some_iff.mp h
  exact hall (name, op) (heq ▸ by simp)

theorem uniqueKeys_of_parse {text : List Char} (h : Envelope.parse text = .ok value) :
    UniqueKeys value := by
  unfold Envelope.parse at h
  split at h
  · next hload =>
    cases h
    exact Json.uniqueKeys_of_loadsWith hload
  · cases h
  · cases h

theorem limitOf_obj {envelope : Dict} (h : field envelope "direction" = .str d.value) :
    limitOf (.obj envelope) = Envelope.sizeLimit d := by
  rw [limitOf, dictOf, h]
  cases d <;> decide

namespace Envelope

theorem json_le_sizeLimit (d : MessageDirection) : MAX_PROTOCOL_JSON_BYTES ≤ sizeLimit d := by
  cases d <;> decide

theorem Accepted.size_le_of_hasUrl {envelope given checked : Dict} {e : Envelope}
    (h : Accepted python envelope given checked .request e) (hurls : python.UrlsBounded)
    (hunique : UniqueKeys (.obj given)) {name : String} {op : Operation} {params validated : Dict}
    (hname : field given "operation" = .str name)
    (hlookup : ALLOWED_OPERATIONS.lookup name = some op)
    (hparams : field given "params" = .obj params)
    (hcheck : checkParams python op params = .ok validated)
    (hchecked : checked = set given "params" (.obj validated)) (hurl : op.HasUrl) :
    size python.floatRepr (.obj e.toMapping) ≤ MAX_PROTOCOL_JSON_BYTES := by
  have hnodup : (params.map Prod.fst).Nodup := by
    have hfield := uniqueKeys_field hunique.2 "params"
    rw [hparams] at hfield
    exact hfield.1
  have hvalidated := size_checkParams_le hurls hurl hnodup hcheck
  have hsmall : ∀ s ∈ ["browser.navigate", "browser.tabs"], stringSize s ≤ 20 := by decide
  have hname' := hsmall name ((hasUrl_of_lookup hlookup).mp hurl)
  have hkeys : stringSize "operation" = 11 ∧ stringSize "params" = 8 := by decide
  have hdict := toDict_ofDict h.check
  rw [← h.payload_eq] at hdict
  have hpayload : size python.floatRepr (.obj e.payload.toDict) ≤ 75300 := by
    have hstr : size python.floatRepr (.str name) = stringSize name := by rw [size]
    rw [hdict, size_obj, hchecked]
    simp only [MessageType.schema, map_cons, map_nil, sum_cons, sum_nil,
      length_cons, length_nil, field_set_self, hkeys,
      field_set_of_ne _ (show "operation" ≠ "params" by decide), hname, hstr]
    omega
  have := h.size_le hpayload
  unfold MAX_PROTOCOL_JSON_BYTES
  omega

variable {value : Json}

theorem toJson_isOk_iff_of_parse {text : List Char} {e : Envelope} (hurls : python.UrlsBounded)
    (hparse : parse text = .ok value) (haccept : fromMapping python value = .ok e) :
    (∃ encoded, toJson python e = .ok encoded) ↔
      HasUrl value ∨ size python.floatRepr value ≤ limitOf value := by
  obtain ⟨envelope, given, checked, type, rfl, h⟩ := fromMapping_eq_ok haccept
  obtain ⟨henvelope, hfields⟩ := uniqueKeys_of_parse hparse
  have hunique := uniqueKeys_field hfields "payload"
  rw [h.payload] at hunique
  rw [h.written_iff hunique.1, limitOf_obj h.direction]
  have hmessage : HasUrl (.obj envelope) ↔
      type = .request ∧ field given "operation" ∈
        [Json.str "browser.navigate", .str "browser.tabs"] := by
    rw [HasUrl, dictOf, h.payload, dictOf, h.type_eq]
    cases type <;> simp [MessageType.value]
  by_cases hurl : HasUrl (.obj envelope)
  · obtain ⟨rfl, hoperation⟩ := hmessage.mp hurl
    obtain ⟨name, op, params, validated, hname, hlookup, hparams, hcheck, hchecked⟩ :=
      checkPayload_request h.check
    have hop : op.HasUrl := by
      rw [hasUrl_of_lookup hlookup]
      simpa [hname] using hoperation
    have hle := h.size_le_of_hasUrl hurls hunique hname hlookup hparams hcheck hchecked hop
    exact ⟨fun _ => .inl hurl, fun _ => hle.trans (json_le_sizeLimit _)⟩
  · have hself : checked = given := by
      by_cases htype : type = .request
      · subst htype
        refine checkPayload_request_eq_self h.check fun name op hname hlookup hop => ?_
        refine hurl (hmessage.mpr ⟨rfl, ?_⟩)
        rw [hname]
        simpa using (hasUrl_of_lookup hlookup).mp hop
      · exact checkPayload_eq_self htype h.check
    rw [h.size_eq henvelope hunique.1 hself, or_iff_right hurl]

theorem readJson_eq_ok {raw : Raw} {maxBytes : Int} (h : readJson raw maxBytes = .ok value) :
    ∃ text, parse text = .ok value := by
  unfold readJson at h
  split at h
  · split at h
    · cases h
    · split at h
      · cases h
      · exact ⟨_, h⟩
  · split at h
    · cases h
    · exact ⟨_, h⟩

/-- **When a message that is read can be written onward**: it is a request with a URL, or the object
it was parsed to is within the limit of its direction. -/
theorem toJson_isOk_iff {raw : Raw} {maxBytes : Int} {e : Envelope} (hurls : python.UrlsBounded)
    (h : fromJson python raw maxBytes = .ok e) :
    ∃ value, readJson raw maxBytes = .ok value ∧ fromMapping python value = .ok e ∧
      ((∃ encoded, toJson python e = .ok encoded) ↔
        HasUrl value ∨ size python.floatRepr value ≤ limitOf value) := by
  obtain ⟨value, hread, haccept⟩ := bind_eq_ok.mp h
  obtain ⟨text, hparse⟩ := readJson_eq_ok hread
  exact ⟨value, hread, haccept, toJson_isOk_iff_of_parse hurls hparse haccept⟩

/-- **What the constructor takes can be written.** -/
theorem toJson_of_construct {e e' : Envelope} (h : construct python e = .ok e') :
    ∃ encoded, toJson python e' = .ok encoded := by
  obtain ⟨validated, -, h⟩ := bind_eq_ok.mp h
  obtain ⟨encoded, hencoded, h⟩ := bind_eq_ok.mp h
  cases h
  exact ⟨encoded, hencoded⟩

/-- Floats as they are written, and URLs that are normal already. -/
def plainPython : Python where
  floatRepr := id
  isFinite _ := true
  between _ _ _ := true
  stringRepr := id
  httpUrl candidate := .ok (String.ofList candidate)

theorem urlsBounded_plainPython : plainPython.UrlsBounded := by
  intro candidate url h
  cases h
  have hle := Json.stringSize_le (String.ofList candidate)
  have hunits := length_le_utf16Length candidate
  rw [String.toList_ofList] at hle
  omega

theorem fromJson_dumps {maxBytes : Int} (hvalue : Json.Canonical value)
    (hfinite : Json.finite value = true) (hle : (size id value : Int) ≤ maxBytes) :
    fromJson python (.text (Json.dumps value)) maxBytes = fromMapping python value := by
  rw [fromJson, readJson, Json.length_encode_dumps, if_neg (by omega), parse,
    Json.loadsWith_dumps (Json.Hooks.plain_strict _ _) hvalue hfinite]
  rfl

/-- A message between `a` and `b`, of session `c`. -/
def message (type : MessageType) (payload : Dict) : Json :=
  .obj [("version", .int 1), ("direction", .str "runtime_to_extension"), ("type", .str type.value),
    ("request_id", .str "a"), ("runtime_id", .str "b"), ("session_id", .str "c"),
    ("deadline_ms", .int 9), ("payload", .obj payload)]

def envelopeOf (payload : Payload) : Envelope where
  direction := .runtimeToExtension
  requestId := "a"
  runtimeId := "b"
  sessionId := "c"
  deadlineMs := 9
  payload := payload

def listTabs : Dict := [("action", .str "list"), ("index", .null), ("url", .null)]

theorem fromJson_listTabs :
    fromJson plainPython
        (.text (Json.dumps (message .request
          [("operation", .str "browser.tabs"), ("params", .obj listTabs)])))
        MAX_PROTOCOL_RESPONSE_JSON_BYTES =
      .ok (envelopeOf (.request "browser.tabs" listTabs)) :=
  (fromJson_dumps (by decide) (by decide) (by decide)).trans rfl

theorem toJson_isOk_iff_listTabs :
    ∃ value, readJson (.text (Json.dumps (message .request
          [("operation", .str "browser.tabs"), ("params", .obj listTabs)])))
        MAX_PROTOCOL_RESPONSE_JSON_BYTES = .ok value ∧
      fromMapping plainPython value = .ok (envelopeOf (.request "browser.tabs" listTabs)) ∧
      ((∃ encoded, toJson plainPython (envelopeOf (.request "browser.tabs" listTabs)) =
          .ok encoded) ↔
        HasUrl value ∨ size plainPython.floatRepr value ≤ limitOf value) :=
  toJson_isOk_iff urlsBounded_plainPython fromJson_listTabs

/-! ### An event past the limit -/

/-- An event with a text. -/
def textEvent (text : String) : Json :=
  message .event [("event", .str "tab"), ("data", .obj [("text", .str text)])]

theorem fromMapping_textEvent (text : String) :
    fromMapping plainPython (textEvent text) =
      .ok (envelopeOf (.event "tab" [("text", .str text)])) :=
  rfl

theorem canonical_textEvent (text : String) : Json.Canonical (textEvent text) := by
  simp [textEvent, message, Json.Canonical, Json.CanonicalFields]

theorem size_textEvent (text : String) :
    stringSize text < size id (textEvent text) ∧
      size id (textEvent text) ≤ stringSize text + 300 := by
  have hkeys : ∀ k ∈ ENVELOPE_KEYS ++ ["event", "data", "text", "tab"], stringSize k ≤ 13 := by
    decide
  have hvalues : ∀ s ∈ ["runtime_to_extension", MessageType.event.value, "a", "b", "c"],
      stringSize s ≤ 22 := by decide
  simp only [ENVELOPE_KEYS, cons_append, nil_append, forall_mem_cons,
    not_mem_nil, false_implies, implies_true, and_true] at hkeys hvalues
  have hint : (Json.dumpsInt 1).length = 1 ∧ (Json.dumpsInt 9).length = 1 := by decide
  have hstr : ∀ s : String, size id (.str s) = stringSize s := fun s => by rw [size]
  have hnum : ∀ n : Int, size id (.int n) = (Json.dumpsInt n).length := fun n => by rw [size]
  rw [textEvent, message, size_obj]
  simp only [map_cons, map_nil, sum_cons, sum_nil, length_cons, length_nil, hstr, hnum, size_obj]
  omega

/-- An event of a mebibyte is accepted, and cannot be written. -/
theorem fromJson_textEvent :
    ∃ e, fromJson plainPython
        (.text (Json.dumps (textEvent (String.ofList (List.replicate 1048576 'a')))))
        MAX_PROTOCOL_RESPONSE_JSON_BYTES = .ok e ∧
      ¬ ∃ encoded, toJson plainPython e = .ok encoded := by
  generalize htext : String.ofList (List.replicate 1048576 'a') = text
  have hlength : text.toList.length = 1048576 := by
    rw [← htext, String.toList_ofList, length_replicate]
  have hlow := Json.le_stringSize text
  have hhigh := Json.stringSize_le text
  obtain ⟨hpast, hsize⟩ := size_textEvent text
  have hvalue := canonical_textEvent text
  have hfinite : Json.finite (textEvent text) = true := rfl
  have hparse : parse (Json.dumps (textEvent text)) = .ok (textEvent text) := by
    rw [parse, Json.loadsWith_dumps (Json.Hooks.plain_strict _ _) hvalue hfinite]
  have hbytes : (size id (textEvent text) : Int) ≤ MAX_PROTOCOL_RESPONSE_JSON_BYTES := by
    unfold MAX_PROTOCOL_RESPONSE_JSON_BYTES
    omega
  refine ⟨_, (fromJson_dumps hvalue hfinite hbytes).trans (fromMapping_textEvent text), ?_⟩
  rw [toJson_isOk_iff_of_parse urlsBounded_plainPython hparse (fromMapping_textEvent text)]
  rintro (hurl | hle)
  · have htype : Json.str "event" = .str "request" := hurl.1
    exact absurd htype (by decide)
  · have hlimit : size id (textEvent text) ≤ MAX_PROTOCOL_JSON_BYTES := hle
    unfold MAX_PROTOCOL_JSON_BYTES at hlimit
    omega

end Envelope

end

end KolegaCode.BrowserExtension
