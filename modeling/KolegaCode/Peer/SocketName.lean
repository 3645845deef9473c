import KolegaCode.Hashline.ReadTags
import KolegaCode.Lib.JsonText

/-!
# Peer — names of sockets

The name of a session's socket is its id in base64url, without padding, and the process id.  The
bytes of the id have no case, so the id that is read back has lower-case digits
(`parseSocketName_socketName`).
-/

namespace KolegaCode.Peer

open List
open Decimal (ofDigits)
open Json (hexValue)
open Text (isDecimal)

attribute [local instance] Text.lawfulBEq

/-! ### The codec -/

/-- `bytes.fromhex`; white space between two bytes is skipped. -/
def fromhex : List Char → Option (List Nat)
  | [] => some []
  | c :: cs =>
    if c ∈ [' ', '\t', '\n', '\r', '\x0b', '\x0c'] then fromhex cs
    else match cs with
      | [] => none
      | d :: cs => do some ((16 * (← hexValue c) + (← hexValue d)) :: (← fromhex cs))

/-- `bytes.hex()`. -/
def hex (bytes : List Nat) : List Char :=
  bytes.flatMap fun b => [Nat.digitChar (b / 16), Nat.digitChar (b % 16)]

/-- The groups of six bits, the last one filled up with zeros. -/
def sextets : List Nat → List Nat
  | a :: b :: c :: rest =>
    a / 4 :: (a % 4 * 16 + b / 16) :: (b % 16 * 4 + c / 64) :: c % 64 :: sextets rest
  | [a, b] => [a / 4, a % 4 * 16 + b / 16, b % 16 * 4]
  | [a] => [a / 4, a % 4 * 16]
  | [] => []

/-- The bytes of groups of six bits; bits that make no byte are dropped. -/
def octets : List Nat → List Nat
  | w :: x :: y :: z :: rest =>
    (w * 4 + x / 16) :: (x % 16 * 16 + y / 4) :: (y % 4 * 64 + z) :: octets rest
  | [w, x, y] => [w * 4 + x / 16, x % 16 * 16 + y / 4]
  | [w, x] => [w * 4 + x / 16]
  | _ => []

def base64url : List Char :=
  "ABCDEFGHIJKLMNOPQRSTUVWXYZabcdefghijklmnopqrstuvwxyz0123456789-_".toList

/-- `base64.urlsafe_b64encode`. -/
def urlsafeB64encode (bytes : List Nat) : List Char :=
  (sextets bytes).map (base64url.getD · 'A') ++ List.replicate ((3 - bytes.length % 3) % 3) '='

def encodeSocketSid (sessionId : List Char) : Option (List Char) :=
  (fromhex sessionId).map fun bytes => (urlsafeB64encode bytes).rdropWhile (· = '=')

/-- Python prints and reads no integer with more digits. -/
def intMaxStrDigits : Nat := 4300

/-- The name of the socket; `none` where `fromhex` or the process id raises. -/
def socketName (sessionId : List Char) (pid : Nat) : Option (List Char) := do
  let sid ← encodeSocketSid sessionId
  if intMaxStrDigits < (Nat.toDigits 10 pid).length then none
  some (sid ++ '.' :: (Nat.toDigits 10 pid ++ ".sock".toList))

def isLegacy (c : Char) : Bool := c ∈ "0123456789abcdef".toList

/-- `_decode_socket_sid` of what the pattern lets through: 22 characters of the alphabet, which with
their padding are 16 bytes, or a legacy id. -/
def decodeSocketSid (raw : List Char) : List Char :=
  if raw.length = 32 ∧ raw.all isLegacy then raw else hex (octets (raw.map base64url.idxOf))

/-- `_SOCKET_NAME_RE`: the session id and the process id.  No full stop is in a session id, so at
most one of its forms goes on with one; `$` is also before a line feed at the end. -/
def matchSocketName (name : List Char) : Option (List Char × List Char) :=
  let sid := name.takeWhile (· ≠ '.')
  let rest := (name.dropWhile (· ≠ '.')).drop 1
  let pid := rest.takeWhile isDecimal
  if (sid.length = 22 ∧ sid.all (· ∈ base64url) ∨ sid.length = 32 ∧ sid.all isLegacy) ∧
      '.' ∈ name ∧ pid ≠ [] ∧
      rest.dropWhile isDecimal ∈ [".sock".toList, ".sock\n".toList]
  then some (sid, pid) else none

/-- `.error` is the `ValueError` of a process id with too many digits. -/
def parseSocketName (name : List Char) : Except Unit (Option (List Char × Nat)) :=
  match matchSocketName name with
  | none => .ok none
  | some (sid, pid) =>
    if intMaxStrDigits < pid.length then .error () else .ok (some (decodeSocketSid sid, ofDigits pid))

def hexDigits : List Char := "0123456789abcdefABCDEF".toList

/-- A session id: 32 hexadecimal digits. -/
def IsSessionId (sessionId : List Char) : Prop :=
  sessionId.length = 32 ∧ ∀ c ∈ sessionId, c ∈ hexDigits

/-! ### Groups of bits -/

theorem octets_sextets {bytes : List Nat} (h : ∀ b ∈ bytes, b < 256) :
    octets (sextets bytes) = bytes := by
  fun_induction sextets bytes with
  | case1 a b c rest ih =>
    simp only [forall_mem_cons] at h
    rw [octets, ih h.2.2.2, show a / 4 * 4 + (a % 4 * 16 + b / 16) / 16 = a by omega,
      show (a % 4 * 16 + b / 16) % 16 * 16 + (b % 16 * 4 + c / 64) / 4 = b by omega,
      show (b % 16 * 4 + c / 64) % 4 * 64 + c % 64 = c by omega]
  | case2 a b =>
    simp only [forall_mem_cons] at h
    rw [octets, show a / 4 * 4 + (a % 4 * 16 + b / 16) / 16 = a by omega,
      show (a % 4 * 16 + b / 16) % 16 * 16 + b % 16 * 4 / 4 = b by omega]
  | case3 a => rw [octets, show a / 4 * 4 + a % 4 * 16 / 16 = a by omega]
  | case4 => rfl

theorem length_sextets (bytes : List Nat) :
    (sextets bytes).length = (4 * bytes.length + 2) / 3 := by
  fun_induction sextets bytes with
  | case1 a b c rest ih =>
    simp only [length_cons, ih]
    omega
  | case2 | case3 | case4 => simp

theorem sextets_lt {bytes : List Nat} (h : ∀ b ∈ bytes, b < 256) : ∀ s ∈ sextets bytes, s < 64 := by
  fun_induction sextets bytes with
  | case1 a b c rest ih =>
    simp only [forall_mem_cons] at h ⊢
    exact ⟨by omega, by omega, by omega, by omega, ih h.2.2.2⟩
  | case2 a b | case3 a =>
    simp only [forall_mem_cons] at h ⊢
    exact ⟨by omega, by omega, by simp; try omega⟩
  | case4 => exact nofun

theorem base64url_spec : ∀ s < 64, base64url.idxOf (base64url.getD s 'A') = s ∧
    base64url.getD s 'A' ∈ base64url ∧ base64url.getD s 'A' ≠ '=' ∧ base64url.getD s 'A' ≠ '.' := by
  have hchars : base64url.Nodup ∧ base64url.length = 64 ∧ '=' ∉ base64url ∧ '.' ∉ base64url := by
    rw [show base64url = _ from String.toList_ofList]
    decide +kernel
  obtain ⟨hnodup, hlen, heq, hdot⟩ := hchars
  intro s hs
  have hlt : s < base64url.length := by omega
  have hmem := getElem_mem hlt
  rw [getD_eq_getElem?_getD, getElem?_eq_getElem hlt, Option.getD_some]
  exact ⟨hnodup.idxOf_getElem s hlt, hmem, ne_of_mem_of_not_mem hmem heq,
    ne_of_mem_of_not_mem hmem hdot⟩

theorem hexValue_spec : ∀ c ∈ hexDigits, ∃ v < 16, hexValue c = some v ∧
    Nat.digitChar v = c.toLower ∧ c ∉ [' ', '\t', '\n', '\r', '\x0b', '\x0c'] := by
  rw [show hexDigits = _ from String.toList_ofList]
  exact @of_decide_eq_true _ (List.decidableBAll _ _) (by decide +kernel)

theorem fromhex_spec {digits : List Char} (heven : digits.length % 2 = 0)
    (h : ∀ c ∈ digits, c ∈ hexDigits) :
    ∃ bytes, fromhex digits = some bytes ∧ 2 * bytes.length = digits.length ∧
      (∀ b ∈ bytes, b < 256) ∧ hex bytes = digits.map Char.toLower := by
  match digits with
  | [] => exact ⟨[], rfl, rfl, nofun, rfl⟩
  | [c] => cases heven
  | c :: d :: digits =>
    simp only [forall_mem_cons] at h
    obtain ⟨v, hv, hc, hcv, hspace⟩ := hexValue_spec c h.1
    obtain ⟨w, hw, hd, hdw, -⟩ := hexValue_spec d h.2.1
    obtain ⟨bytes, hbytes, hlength, hlt, hhex⟩ := fromhex_spec
      (by simp only [length_cons] at heven; omega) h.2.2
    refine ⟨(16 * v + w) :: bytes, ?_, ?_, ?_, ?_⟩
    · rw [fromhex, if_neg hspace]
      simp [hc, hd, hbytes]
    · simp only [length_cons]
      omega
    · exact forall_mem_cons.mpr ⟨by omega, hlt⟩
    · rw [hex, flatMap_cons, ← hex, hhex, show (16 * v + w) / 16 = v by omega,
        show (16 * v + w) % 16 = w by omega, hcv, hdw]
      rfl

/-! ### The round trip -/

theorem encodeSocketSid_spec {sid : List Char} (h : IsSessionId sid) :
    ∃ raw, encodeSocketSid sid = some raw ∧ raw.length = 22 ∧ (∀ c ∈ raw, c ∈ base64url) ∧
      (∀ c ∈ raw, c ≠ '.') ∧ decodeSocketSid raw = sid.map Char.toLower := by
  obtain ⟨bytes, hbytes, hlength, hlt, hhex⟩ := fromhex_spec (by rw [h.1]) h.2
  have hsixteen : bytes.length = 16 := by
    have := h.1
    omega
  have hspec : ∀ s ∈ sextets bytes, _ := fun s hs => base64url_spec s (sextets_lt hlt s hs)
  have hraw : ((sextets bytes).map (base64url.getD · 'A')).length = 22 := by
    rw [length_map, length_sextets, hsixteen]
  refine ⟨(sextets bytes).map (base64url.getD · 'A'), ?_, hraw, ?_, ?_, ?_⟩
  · rw [encodeSocketSid, hbytes, Option.map_some, urlsafeB64encode, hsixteen]
    rw [show List.replicate ((3 - 16 % 3) % 3) '=' = ['='] ++ ['='] from rfl, ← append_assoc,
      rdropWhile_concat_pos _ _ _ (by decide), rdropWhile_concat_pos _ _ _ (by decide),
      rdropWhile_eq_self_iff.mpr]
    intro hne
    obtain ⟨s, hs, heq⟩ := mem_map.mp (getLast_mem hne)
    rw [← heq]
    simpa using (hspec s hs).2.2.1
  · exact forall_mem_map.mpr fun s hs => (hspec s hs).2.1
  · exact forall_mem_map.mpr fun s hs => (hspec s hs).2.2.2
  · have hvalues : ((sextets bytes).map (base64url.getD · 'A')).map base64url.idxOf = sextets bytes := by
      rw [map_map]
      exact (map_congr_left fun s hs => (hspec s hs).1).trans (map_id _)
    rw [decodeSocketSid, if_neg fun hc => by omega, hvalues, octets_sextets hlt, hhex]

theorem parseSocketName_of_eq {sid : List Char} {pid : Nat} {name : List Char}
    (h : IsSessionId sid) (hname : socketName sid pid = some name) :
    parseSocketName name = .ok (some (sid.map Char.toLower, pid)) := by
  obtain ⟨raw, hraw, hlength, halphabet, hstop, hdecode⟩ := encodeSocketSid_spec h
  rw [socketName, hraw, Option.bind_eq_bind, Option.bind_some] at hname
  split at hname
  · cases hname
  · next hdigits =>
    cases hname
    obtain ⟨htake, hdrop⟩ := @Hashline.scan_toDigits pid ".sock".toList fun c hc => by
      cases hc
      decide
    set rest := Nat.toDigits 10 pid ++ ".sock".toList with hrest
    have hmatch : matchSocketName (raw ++ '.' :: rest) = some (raw, Nat.toDigits 10 pid) := by
      have hbefore : ∀ c ∈ raw, decide (c ≠ '.') = true := fun c hc => decide_eq_true (hstop c hc)
      have hsid : (raw ++ '.' :: rest).takeWhile (· ≠ '.') = raw := by
        rw [takeWhile_append_of_pos hbefore]
        simp
      have hdot : (raw ++ '.' :: rest).dropWhile (· ≠ '.') = '.' :: rest :=
        dropWhile_append_of_pos hbefore
      simp only [matchSocketName, hsid, hdot, drop_succ_cons, drop_zero, htake, hdrop]
      refine if_pos ⟨.inl ⟨hlength, ?_⟩, by simp, Nat.toDigits_ne_nil, mem_cons_self⟩
      exact all_eq_true.mpr fun c hc => decide_eq_true (halphabet c hc)
    rw [parseSocketName, hmatch]
    dsimp only
    rw [if_neg hdigits, hdecode, ReadFile.ofDigits_toDigits]

/-- **The round trip**: the name of a socket gives the process id and the session id, with its
digits in lower case, and no other session id or process id gives that name. -/
theorem parseSocketName_socketName {sid : List Char} {pid : Nat} {name : List Char}
    (h : IsSessionId sid) (hname : socketName sid pid = some name) :
    parseSocketName name = .ok (some (sid.map Char.toLower, pid)) ∧
      ∀ sid' pid', IsSessionId sid' → socketName sid' pid' = some name →
        sid'.map Char.toLower = sid.map Char.toLower ∧ pid' = pid := by
  have hparse := parseSocketName_of_eq h hname
  refine ⟨hparse, fun sid' pid' h' hname' => ?_⟩
  rw [parseSocketName_of_eq h' hname'] at hparse
  simpa using hparse

theorem isSessionId_replicate {c : Char} (h : c ∈ hexDigits) : IsSessionId (List.replicate 32 c) :=
  ⟨length_replicate, fun _ hd => eq_of_mem_replicate hd ▸ h⟩

/-- Digits in upper case come back in lower case. -/
theorem parseSocketName_upper : ¬ ∀ (sid : List Char) (pid : Nat) (name : List Char), 0 < pid →
    IsSessionId sid → socketName sid pid = some name →
    parseSocketName name = .ok (some (sid, pid)) := by
  intro h
  have hid : IsSessionId (List.replicate 32 'A') := isSessionId_replicate (by decide)
  obtain ⟨name, hname⟩ : ∃ name, socketName (List.replicate 32 'A') 1 = some name := ⟨_, rfl⟩
  have hparse := h _ 1 name one_pos hid hname
  rw [parseSocketName_of_eq hid hname] at hparse
  exact absurd hparse (by decide)

theorem parseSocketName_zeros :
    parseSocketName (List.replicate 22 'A' ++ ".7.sock".toList) =
      .ok (some (List.replicate 32 '0', 7)) :=
  (parseSocketName_socketName (isSessionId_replicate (by decide))
    (by decide : socketName (List.replicate 32 '0') 7 = _)).1

end KolegaCode.Peer
