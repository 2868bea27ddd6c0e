import Trove.Lib.Except
import Trove.Lib.Map
import Trove.Lib.Strings

/-!
# Keyrings

An ordered set of secrets keys: the first one seals, all of them open. The ciphers, the digest
behind a key's identifier and standard base64 are taken as given, with the laws of them that the
code rests on (`Crypto`). The keyfile a keyring is written to parses back to it
(`parseKeyring_encode`).
-/

namespace Trove.Secretbox

open Lib Lib.Strings List

abbrev Bytes := List UInt8

def keySize : ℕ := 32

def keyIDLength : ℕ := 8

/-- The nonce of AES-GCM. -/
def nonceSize : ℕ := 12

def overhead : ℕ := 16

def macSize : ℕ := 32

def isKeyID (s : String) : Bool :=
  decide (len s = keyIDLength) &&
    (bytes s).all fun c => (0x30 ≤ c && c ≤ 0x39) || (0x61 ≤ c && c ≤ 0x66)

def isBase64 (c : Char) : Bool :=
  decide ((48 ≤ c.toNat ∧ c.toNat ≤ 57) ∨ (65 ≤ c.toNat ∧ c.toNat ≤ 90) ∨
    (97 ≤ c.toNat ∧ c.toNat ≤ 122) ∨ c.toNat = 43 ∨ c.toNat = 47 ∨ c.toNat = 61)

/-- The primitives, and what is assumed of them. -/
structure Crypto where
  keyID : Bytes → String
  keyID_isKeyID : ∀ material, isKeyID (keyID material) = true
  encode : Bytes → String
  decode : String → Option Bytes
  decode_encode : ∀ b, decode (encode b) = some b
  encode_isBase64 : ∀ b, ∀ c ∈ (encode b).toList, isBase64 c = true
  encode_ne_empty : ∀ b, b ≠ [] → encode b ≠ ""
  aeadSeal : Bytes → Bytes → Bytes → Bytes → Bytes
  aeadOpen : Bytes → Bytes → Bytes → Bytes → Option Bytes
  aeadOpen_aeadSeal : ∀ key nonce plaintext additional,
    aeadOpen key nonce (aeadSeal key nonce plaintext additional) additional = some plaintext
  length_aeadSeal : ∀ key nonce plaintext additional,
    (aeadSeal key nonce plaintext additional).length = plaintext.length + overhead
  hmac : Bytes → Bytes → Bytes
  length_hmac : ∀ key message, (hmac key message).length = macSize

variable (C : Crypto)

/-! ## Keys -/

/-- Why key material was refused. -/
inductive KeyReason
  | wrongLength (got : ℕ)
  | notBase64
  | notBuilt
  | repeated (id : String)

/-- Key material with the identifier derived from it, or Go's zero key. -/
structure Key where
  material : Bytes
  id : String
  built : (material.length = keySize ∧ id = C.keyID material) ∨
    (material = List.replicate keySize 0 ∧ id = "")

variable {C}

/-- A key of 32 bytes. -/
def newKey (material : Bytes) : Except KeyReason (Key C) :=
  if h : material.length ≠ keySize then .error (.wrongLength material.length)
  else .ok ⟨material, C.keyID material, .inl ⟨not_not.mp h, rfl⟩⟩

def decodeKey (line : String) : Except KeyReason (Key C) :=
  match C.decode (trimSpace line) with
  | none => .error .notBase64
  | some material => newKey material

def Key.encode (k : Key C) : String := C.encode k.material

/-! ## Keyrings -/

/-- Why a keyring was not built. -/
inductive RingError
  | noKey
  | invalidKey (reason : KeyReason)

/-- A problem in a keyfile. The line is 0 when it is with the file as a whole. -/
structure KeyfileError where
  path : String := ""
  line : ℕ := 0
  err : RingError

/-- The keys in order, and the place of each identifier. -/
structure Keyring (C : Crypto) where
  entries : List (Key C) := []
  byID : GoMap String ℕ := ∅

def addKeys : List (Key C) → Keyring C → Except RingError (Keyring C)
  | [], r => .ok r
  | k :: keys, r =>
    if k.id = "" then .error (.invalidKey .notBuilt)
    else if (r.byID.lookup k.id).isSome then .error (.invalidKey (.repeated k.id))
    else addKeys keys ⟨r.entries ++ [k], r.byID.insert k.id r.entries.length⟩

def newKeyring (keys : List (Key C)) : Except RingError (Keyring C) :=
  if keys.length = 0 then .error .noKey else addKeys keys {}

/-- The keys of the lines, counted from `i`. Blank lines and comments are passed over. -/
def readLines : ℕ → List String → Except KeyfileError (List (Key C))
  | _, [] => .ok []
  | i, line :: lines =>
    if trimSpace line = "" ∨ hasPrefix (trimSpace line) "#" then readLines (i + 1) lines
    else
      match decodeKey (trimSpace line) with
      | .error reason => .error { line := i + 1, err := .invalidKey reason }
      | .ok k => do
        let keys ← readLines (i + 1) lines
        .ok (k :: keys)

def parseKeyring (data : String) : Except KeyfileError (Keyring C) := do
  let keys ← readLines 0 (split data '\n')
  if keys.length = 0 then .error { err := .noKey }
  else
    match newKeyring keys with
    | .error err => .error { err }
    | .ok r => .ok r

def keysOf : Option (Keyring C) → List (Key C)
  | none => []
  | some r => r.entries

/-- A line for each key. -/
def encode (r : Option (Keyring C)) : String :=
  (keysOf r).foldl (fun text k => text ++ k.encode ++ "\n") ""

def activeKeyID : Option (Keyring C) → String
  | none => ""
  | some r =>
    match r.entries with
    | [] => ""
    | k :: _ => k.id

/-- The new key in front. -/
def rotate (r : Option (Keyring C)) (key : Key C) : Except RingError (Keyring C) :=
  newKeyring (key :: keysOf r)

/-! ## What a keyring is -/

/-- Identifiers are distinct, none is empty, and each leads to its key. -/
structure Keyring.Valid (r : Keyring C) : Prop where
  named : ∀ k ∈ r.entries, k.id ≠ ""
  nodup : (r.entries.map Key.id).Nodup
  lookup : ∀ id i, r.byID.lookup id = some i ↔ ∃ k, r.entries[i]? = some k ∧ k.id = id

theorem valid_empty : ({} : Keyring C).Valid :=
  ⟨by simp, by simp, by simp⟩

variable {r : Keyring C} {k : Key C} {keys : List (Key C)}

theorem Keyring.Valid.add (h : r.Valid) (hnm : k.id ≠ "") (hnew : r.byID.lookup k.id = none) :
    Keyring.Valid ⟨r.entries ++ [k], r.byID.insert k.id r.entries.length⟩ := by
  have hfr : k.id ∉ r.entries.map Key.id := by
    intro hmem
    obtain ⟨k', hk', hid⟩ := mem_map.mp hmem
    obtain ⟨i, hi⟩ := mem_iff_getElem?.mp hk'
    rw [(h.lookup k.id i).mpr ⟨k', hi, hid⟩] at hnew
    cases hnew
  refine ⟨?_, ?_, fun id i => ?_⟩
  · simpa [or_imp, forall_and] using ⟨h.named, hnm⟩
  · rw [map_append, nodup_append]
    refine ⟨h.nodup, by simp, ?_⟩
    rintro id hid _ hk rfl
    exact hfr (mem_singleton.mp hk ▸ hid)
  · rw [AList.lookup_insert_eq_some, h.lookup]
    constructor
    · rintro (⟨rfl, rfl⟩ | ⟨-, k', hk', hid⟩)
      · exact ⟨k, by simp, rfl⟩
      · have hlt := (List.getElem?_eq_some_iff.mp hk').1
        exact ⟨k', by rw [List.getElem?_append_left hlt, hk'], hid⟩
    · rintro ⟨k', hk', rfl⟩
      rcases lt_trichotomy i r.entries.length with hlt | rfl | hgt
      · rw [List.getElem?_append_left hlt] at hk'
        refine .inr ⟨fun heq => hfr ?_, k', hk', rfl⟩
        exact heq ▸ mem_map_of_mem (mem_of_getElem? hk')
      · obtain rfl : k = k' := by simpa using hk'
        exact .inl ⟨rfl, rfl⟩
      · rw [List.getElem?_eq_none (by simp; omega)] at hk'
        cases hk'

theorem addKeys_spec {r' : Keyring C} (h : r.Valid) (hadd : addKeys keys r = .ok r') :
    r'.entries = r.entries ++ keys ∧ r'.Valid := by
  induction keys generalizing r with
  | nil =>
    obtain rfl := Except.ok.inj hadd
    exact ⟨by simp, h⟩
  | cons k keys ih =>
    rw [addKeys] at hadd
    split_ifs at hadd with hnm hsn
    obtain ⟨hen, hvl⟩ := ih (h.add hnm (by simpa using hsn)) hadd
    exact ⟨by rw [hen, append_assoc, singleton_append], hvl⟩

theorem entries_of_newKeyring (h : newKeyring keys = .ok r) :
    r.entries = keys ∧ keys ≠ [] ∧ r.Valid := by
  unfold newKeyring at h
  split_ifs at h with hem
  obtain ⟨hen, hvl⟩ := addKeys_spec valid_empty h
  refine ⟨hen, fun hnil => hem (by simp [hnil]), hvl⟩

theorem Keyring.Valid.find (h : r.Valid) (hk : k ∈ r.entries) :
    ∃ i, r.byID.lookup k.id = some i ∧ r.entries[i]? = some k := by
  obtain ⟨i, hi⟩ := mem_iff_getElem?.mp hk
  exact ⟨i, (h.lookup k.id i).mpr ⟨k, hi, rfl⟩, hi⟩

theorem Keyring.Valid.lookup_eq_none (h : r.Valid) {id : String} (hid : id ∉ r.entries.map Key.id) :
    r.byID.lookup id = none := by
  rw [Option.eq_none_iff_forall_ne_some]
  intro i hi
  obtain ⟨k, hk, rfl⟩ := (h.lookup id i).mp hi
  exact hid (mem_map_of_mem (mem_of_getElem? hk))

/-! ## Keyfiles -/

theorem isSpace_of_isBase64 {c : Char} (h : isBase64 c = true) : isSpace c = false := by
  simp only [isBase64, decide_eq_true_eq] at h
  exact isSpace_of_graphic (by omega)

theorem Key.newKey_material (h : k.id ≠ "") : newKey k.material = .ok k := by
  obtain ⟨hln, hid⟩ := k.built.resolve_right fun hzr => h hzr.2
  rw [newKey, dif_neg (not_not.mpr hln)]
  cases k
  simp_all

theorem Key.encode_line (k : Key C) :
    trimSpace k.encode = k.encode ∧ k.encode ≠ "" ∧ hasPrefix k.encode "#" = false ∧
      '\n' ∉ k.encode.toList := by
  have hal := C.encode_isBase64 k.material
  have hmt : k.material ≠ [] := by
    intro hnil
    have hbl := k.built
    rw [hnil] at hbl
    rcases hbl with ⟨hln, -⟩ | ⟨hzr, -⟩
    · cases hln
    · cases hzr
  refine ⟨trimSpace_eq_self fun c hc => isSpace_of_isBase64 (hal c hc),
    C.encode_ne_empty _ hmt, ?_, fun hmem => ?_⟩
  · rw [Bool.eq_false_iff]
    intro hhs
    obtain ⟨rest, hrs⟩ := hasPrefix_iff.mp hhs
    have hmem : '#' ∈ k.encode.toList := by
      rw [← hrs]
      exact mem_append_left _ (by decide)
    exact absurd (hal '#' hmem) (by decide)
  · exact absurd (hal '\n' hmem) (by decide)

theorem Key.decodeKey_encode (h : k.id ≠ "") : decodeKey k.encode = .ok k := by
  rw [decodeKey, k.encode_line.1, Key.encode, C.decode_encode]
  exact k.newKey_material h

theorem foldl_lines (keys : List (Key C)) (text : String) :
    keys.foldl (fun text k => text ++ k.encode ++ "\n") text =
      text ++ keys.foldl (fun text k => text ++ k.encode ++ "\n") "" := by
  induction keys generalizing text with
  | nil => simp
  | cons k keys ih =>
    rw [foldl_cons, ih, foldl_cons, ih ("" ++ k.encode ++ "\n")]
    simp only [String.append_assoc, String.empty_append]

theorem split_encode (r : Keyring C) :
    split (encode (some r)) '\n' = r.entries.map Key.encode ++ [""] := by
  show split (r.entries.foldl _ "") '\n' = _
  induction r.entries with
  | nil => rfl
  | cons k keys ih =>
    rw [foldl_cons, foldl_lines, String.empty_append]
    have hsp := split_append '\n' k.encode
      (keys.foldl (fun text k => text ++ k.encode ++ "\n") "")
    rw [ih, split_eq_singleton k.encode_line.2.2.2] at hsp
    exact hsp

theorem readLines_encode (h : ∀ k ∈ keys, k.id ≠ "") (i : ℕ) :
    readLines i (keys.map Key.encode ++ [""]) = .ok keys := by
  induction keys generalizing i with
  | nil =>
    have hbl : trimSpace "" = "" := by decide
    rw [map_nil, nil_append, readLines, if_pos (.inl hbl), readLines]
  | cons k keys ih =>
    obtain ⟨htr, hne, hhs, -⟩ := k.encode_line
    rw [map_cons, cons_append, readLines, htr, if_neg (by simp [hne, hhs]),
      k.decodeKey_encode (h k mem_cons_self)]
    exact bind_eq_ok.mpr ⟨keys, ih (fun k' hk' => h k' (mem_cons_of_mem _ hk')) (i + 1), rfl⟩

/-- **Keyfiles.** A keyring that was built is what its keyfile parses to. -/
theorem parseKeyring_encode (h : newKeyring keys = .ok r) :
    parseKeyring (encode (some r)) = .ok r := by
  obtain ⟨hen, hne, hvl⟩ := entries_of_newKeyring h
  refine bind_eq_ok.mpr ⟨r.entries, ?_, ?_⟩
  · rw [split_encode]
    exact readLines_encode hvl.named 0
  · rw [hen, if_neg (by simpa using hne), h]

end Trove.Secretbox
