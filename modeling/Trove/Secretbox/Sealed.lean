import Trove.Secretbox.Keyring

/-!
# Sealed values and digests

A sealed value is `v1:<key-id>:<base64(nonce, ciphertext)>`, a digest is the key's identifier
followed by the HMAC. Both name the key that made them, so that any keyring with that key can check
them.
-/

namespace Trove.Secretbox

open Lib Lib.Strings List

/-! ## Contexts -/

def version : String := "v1"

def maxContextLength : ℕ := 255

/-- What binds a value to the row it lives in. -/
abbrev Context := String

/-- Why a context binds no value. -/
inductive ContextReason
  | empty
  | long (got : ℕ)
  | unfinished
  | notPrintable
  deriving DecidableEq

/-- The first part that is wrong. -/
def validate (ctx : Context) : Except ContextReason Unit :=
  if ctx = "" then .error .empty
  else if len ctx > maxContextLength then .error (.long (len ctx))
  else if hasSuffix ctx ":" then .error .unfinished
  else if (bytes ctx).any fun c => c < 0x20 || c > 0x7e then .error .notPrintable
  else .ok ()

/-! ## Errors -/

/-- How a stored value fails to parse. -/
inductive MalformedReason
  | shape
  | keyID
  | notBase64
  | notCanonical
  | short
  deriving DecidableEq

/-- How an operation fails. -/
inductive BoxError
  | invalidContext (reason : ContextReason)
  | noKey (operation : String)
  | nonce (err : String)
  | malformed (reason : MalformedReason)
  | unsupportedVersion
  | unknownKey (id : String)
  | authentication (id : String)

def checkContext (ctx : Context) : Except BoxError Unit := (validate ctx).mapError .invalidContext

/-! ## Sealing -/

abbrev Nonce := {b : Bytes // b.length = nonceSize}

variable {C : Crypto}

def sealedAs (k : Key C) (nonce : Nonce) (plaintext : Bytes) (ctx : Context) : String :=
  version ++ ":" ++ k.id ++ ":" ++
    C.encode (nonce.1 ++ C.aeadSeal k.material nonce.1 plaintext (bytes ctx))

/-- `Seal`. The nonce is drawn from `random`. -/
def sealValue (r : Option (Keyring C)) (random : Except String Nonce) (plaintext : Bytes)
    (ctx : Context) : Except BoxError String := do
  checkContext ctx
  match keysOf r with
  | [] => .error (.noKey "seal")
  | active :: _ =>
    match random with
    | .error err => .error (.nonce err)
    | .ok nonce => .ok (sealedAs active nonce plaintext ctx)

def parseSealed (C : Crypto) (value : String) : Except BoxError (String × Bytes) :=
  match split value ':' with
  | [tag, id, text] =>
    if tag ≠ version then .error .unsupportedVersion
    else if !isKeyID id then .error (.malformed .keyID)
    else
      match C.decode text with
      | none => .error (.malformed .notBase64)
      | some payload =>
        if C.encode payload ≠ text then .error (.malformed .notCanonical) else .ok (id, payload)
  | _ => .error (.malformed .shape)

def openValue (r : Option (Keyring C)) (value : String) (ctx : Context) :
    Except BoxError Bytes := do
  checkContext ctx
  let (id, payload) ← parseSealed C value
  match r with
  | none => .error (.noKey "open")
  | some r =>
    match (r.byID.lookup id).bind (r.entries[·]?) with
    | none => .error (.unknownKey id)
    | some k =>
      if payload.length < nonceSize + overhead then .error (.malformed .short)
      else
        match C.aeadOpen k.material (payload.take nonceSize) (payload.drop nonceSize)
          (bytes ctx) with
        | none => .error (.authentication id)
        | some plaintext => .ok plaintext

def keyIDOf (C : Crypto) (value : String) : Except BoxError String :=
  (parseSealed C value).map Prod.fst

def needsReseal (r : Option (Keyring C)) (value : String) : Except BoxError Bool := do
  let id ← keyIDOf C value
  .ok (decide (id ≠ activeKeyID r))

/-! ## Digests -/

/-- `binary.PutUvarint`. -/
def uvarint (n : ℕ) : Bytes :=
  if n < 0x80 then [UInt8.ofNat n] else UInt8.ofNat (n % 0x80 + 0x80) :: uvarint (n / 0x80)

def computeMAC (k : Key C) (ctx : Context) (value : Bytes) : Bytes :=
  C.hmac k.material (uvarint (len ctx) ++ bytes ctx ++ value)

def digestAs (k : Key C) (value : Bytes) (ctx : Context) : Bytes :=
  bytes k.id ++ computeMAC k ctx value

/-- The active key's. -/
def mac (r : Option (Keyring C)) (value : Bytes) (ctx : Context) : Except BoxError Bytes := do
  checkContext ctx
  match keysOf r with
  | [] => .error (.noKey "mac")
  | active :: _ => .ok (digestAs active value ctx)

def lookupBytes (m : GoMap String ℕ) (b : Bytes) : Option ℕ :=
  (m.keys.find? fun id => decide (bytes id = b)).bind m.lookup

/-- Under the key that it names. -/
def verifyMAC (r : Option (Keyring C)) (value : Bytes) (ctx : Context) (digest : Bytes) : Bool :=
  match validate ctx with
  | .error _ => false
  | .ok () =>
    match r with
    | none => false
    | some r =>
      if digest.length ≠ keyIDLength + macSize then false
      else
        match (lookupBytes r.byID (digest.take keyIDLength)).bind (r.entries[·]?) with
        | none => false
        | some k => decide (digest.drop keyIDLength = computeMAC k ctx value)

/-! ## The formats -/

variable {k : Key C} {ctx : Context} {r : Keyring C}

theorem isKeyID_id (h : k.id ≠ "") : isKeyID k.id = true := by
  obtain ⟨-, hid⟩ := k.built.resolve_right fun hzr => h hzr.2
  rw [hid]
  exact C.keyID_isKeyID k.material

theorem len_of_isKeyID {id : String} (h : isKeyID id = true) : len id = keyIDLength := by
  exact of_decide_eq_true (Bool.and_eq_true_iff.mp h).1

theorem not_mem_of_isKeyID {id : String} (h : isKeyID id = true) : ':' ∉ id.toList := by
  intro hmem
  have hall := all_eq_true.mp (Bool.and_eq_true_iff.mp h).2 0x3a
    (mem_bytes_of_mem hmem (by decide))
  exact absurd hall (by decide)

theorem parseSealed_sealedAs (h : k.id ≠ "") (nonce : Nonce) (plaintext : Bytes) (ctx : Context) :
    parseSealed C (sealedAs k nonce plaintext ctx) =
      .ok (k.id, nonce.1 ++ C.aeadSeal k.material nonce.1 plaintext (bytes ctx)) := by
  have hid := isKeyID_id h
  have hpy (b : Bytes) : ':' ∉ (C.encode b).toList := fun hmem =>
    absurd (C.encode_isBase64 b ':' hmem) (by decide)
  have hsp (text : String) (htx : ':' ∉ text.toList) :
      split (version ++ ":" ++ k.id ++ ":" ++ text) ':' = [version, k.id, text] := by
    rw [show (":" : String) = String.singleton ':' from rfl, split_append, split_append,
      split_eq_singleton (by decide), split_eq_singleton (not_mem_of_isKeyID hid),
      split_eq_singleton htx]
    rfl
  rw [parseSealed, sealedAs, hsp _ (hpy _)]
  simp only [ne_eq, not_true_eq_false, if_false, hid, Bool.not_true, Bool.false_eq_true,
    C.decode_encode]

theorem checkContext_eq_ok : checkContext ctx = .ok () ↔ validate ctx = .ok () :=
  mapError_eq_ok

theorem checkContext_bind_eq_ok {α : Type} {x : Except BoxError α} {a : α} :
    (checkContext ctx >>= fun _ => x) = .ok a ↔ validate ctx = .ok () ∧ x = .ok a := by
  rw [bind_eq_ok, ← checkContext_eq_ok]
  constructor
  · rintro ⟨⟨⟩, hctx, hx⟩
    exact ⟨hctx, hx⟩
  · exact fun ⟨hctx, hx⟩ => ⟨(), hctx, hx⟩

theorem sealValue_eq_ok {r : Option (Keyring C)} {random : Except String Nonce} {plaintext : Bytes}
    {value : String} :
    sealValue r random plaintext ctx = .ok value ↔
      validate ctx = .ok () ∧ ∃ active nonce, (keysOf r).head? = some active ∧
        random = .ok nonce ∧ value = sealedAs active nonce plaintext ctx := by
  rw [sealValue, checkContext_bind_eq_ok]
  cases keysOf r with
  | nil => simp
  | cons active keys =>
    cases random with
    | error err => simp
    | ok nonce => simp [eq_comm]

theorem mac_eq_ok {r : Option (Keyring C)} {value : Bytes} {digest : Bytes} :
    mac r value ctx = .ok digest ↔
      validate ctx = .ok () ∧ ∃ active, (keysOf r).head? = some active ∧
        digest = digestAs active value ctx := by
  rw [mac, checkContext_bind_eq_ok]
  cases keysOf r with
  | nil => simp
  | cons active keys => simp [eq_comm]

theorem Keyring.Valid.find_entry (h : r.Valid) (hk : k ∈ r.entries) :
    (r.byID.lookup k.id).bind (r.entries[·]?) = some k := by
  obtain ⟨i, hlk, hi⟩ := h.find hk
  rw [hlk]
  exact hi

theorem openValue_sealedAs (h : r.Valid) (hk : k ∈ r.entries) (hctx : validate ctx = .ok ())
    (nonce : Nonce) (plaintext : Bytes) :
    openValue (some r) (sealedAs k nonce plaintext ctx) ctx = .ok plaintext := by
  have hln : ¬(nonce.1 ++ C.aeadSeal k.material nonce.1 plaintext (bytes ctx)).length <
      nonceSize + overhead := by
    rw [length_append, nonce.2, C.length_aeadSeal]
    omega
  rw [openValue, checkContext_eq_ok.mpr hctx]
  simp only [ok_bind, parseSealed_sealedAs (h.named k hk), h.find_entry hk, if_neg hln]
  rw [take_left' nonce.2, drop_left' nonce.2, C.aeadOpen_aeadSeal]

theorem openValue_invalid (r : Option (Keyring C)) {reason : ContextReason}
    (hctx : validate ctx = .error reason) (value : String) :
    openValue r value ctx = .error (.invalidContext reason) := by
  rw [openValue, checkContext, hctx]
  rfl

theorem openValue_unknown (h : r.Valid) (hnm : k.id ≠ "") (hk : k.id ∉ r.entries.map Key.id)
    (hctx : validate ctx = .ok ()) (nonce : Nonce) (plaintext : Bytes) (sealed : Context) :
    openValue (some r) (sealedAs k nonce plaintext sealed) ctx = .error (.unknownKey k.id) := by
  rw [openValue, checkContext_eq_ok.mpr hctx]
  simp only [ok_bind, parseSealed_sealedAs hnm, h.lookup_eq_none hk, Option.bind_none]

theorem needsReseal_sealedAs (r : Option (Keyring C)) (hnm : k.id ≠ "") (nonce : Nonce)
    (plaintext : Bytes) (ctx : Context) :
    needsReseal r (sealedAs k nonce plaintext ctx) = .ok (decide (k.id ≠ activeKeyID r)) := by
  rw [needsReseal, keyIDOf, parseSealed_sealedAs hnm]
  rfl

theorem lookupBytes_bytes (m : GoMap String ℕ) (id : String) :
    lookupBytes m (bytes id) = m.lookup id := by
  unfold lookupBytes
  have hkey : (fun id' => decide (bytes id' = bytes id)) = fun id' => decide (id' = id) := by
    simp only [bytes_injective.eq_iff]
  rw [hkey]
  cases hfn : m.keys.find? fun id' => decide (id' = id) with
  | none =>
    have hab : id ∉ m := fun hmem => by simpa using List.find?_eq_none.mp hfn id hmem
    rw [Option.bind_none, AList.lookup_eq_none.mpr hab]
  | some id' =>
    obtain rfl : id' = id := by simpa using List.find?_some hfn
    rfl

theorem length_bytes_id (h : k.id ≠ "") : (bytes k.id).length = keyIDLength := by
  rw [length_bytes, len_of_isKeyID (isKeyID_id h)]

theorem verifyMAC_digestAs (hnm : k.id ≠ "") (hctx : validate ctx = .ok ()) (value made : Bytes)
    (signed : Context) :
    verifyMAC (some r) value ctx (digestAs k made signed) =
      match (r.byID.lookup k.id).bind (r.entries[·]?) with
      | none => false
      | some k' => decide (computeMAC k signed made = computeMAC k' ctx value) := by
  have hid := length_bytes_id hnm
  have hln : (digestAs k made signed).length = keyIDLength + macSize := by
    rw [digestAs, length_append, hid, computeMAC, C.length_hmac]
  rw [verifyMAC, hctx]
  simp only [hln, ne_eq, not_true_eq_false, if_false]
  rw [digestAs, take_left' hid, drop_left' hid, lookupBytes_bytes]

/-! ## What is hashed -/

theorem uvarint_eq (n : ℕ) :
    ∃ b rest, uvarint n = b :: rest ∧ (n < 0x80 → b.toNat = n ∧ rest = []) ∧
      (0x80 ≤ n → b.toNat = n % 0x80 + 0x80 ∧ rest = uvarint (n / 0x80)) := by
  rw [uvarint]
  split_ifs with hn
  · exact ⟨_, _, rfl, fun _ => ⟨by simp; omega, rfl⟩, fun hle => by omega⟩
  · exact ⟨_, _, rfl, fun hlt => absurd hlt hn, fun _ => ⟨by simp; omega, rfl⟩⟩

theorem uvarint_append_inj {m n : ℕ} {xs ys : Bytes} (h : uvarint m ++ xs = uvarint n ++ ys) :
    m = n ∧ xs = ys := by
  induction m using Nat.strong_induction_on generalizing n with
  | _ m ih =>
    obtain ⟨b, rest, hm, hls, hmr⟩ := uvarint_eq m
    obtain ⟨b', rest', hn, hls', hmr'⟩ := uvarint_eq n
    rw [hm, hn, cons_append, cons_append, List.cons.injEq] at h
    obtain ⟨rfl, h⟩ := h
    -- the high bit tells whether another byte follows
    rcases Nat.lt_or_ge m 0x80 with hlt | hge <;> rcases Nat.lt_or_ge n 0x80 with hlt' | hge'
    · obtain ⟨hb, rfl⟩ := hls hlt
      obtain ⟨hb', rfl⟩ := hls' hlt'
      exact ⟨hb.symm.trans hb', h⟩
    · have hb := (hls hlt).1
      omega
    · have hb := (hmr hge).1
      omega
    · obtain ⟨hb, rfl⟩ := hmr hge
      obtain ⟨hb', rfl⟩ := hmr' hge'
      obtain ⟨hdiv, hrs⟩ := ih (m / 0x80) (by omega) h
      exact ⟨by omega, hrs⟩

/-- The bytes written to the hash for a context and a value. -/
def macInput (ctx value : Bytes) : Bytes := uvarint ctx.length ++ ctx ++ value

/-- **MAC inputs.** What `computeMAC` hashes determines the context and the value, whatever bytes
they are. -/
theorem macInput_unambiguous :
    (∀ (k : Key C) (ctx : Context) (value : Bytes),
      computeMAC k ctx value = C.hmac k.material (macInput (bytes ctx) value)) ∧
    ∀ ctx value ctx' value' : Bytes,
      macInput ctx value = macInput ctx' value' ↔ ctx = ctx' ∧ value = value' := by
  refine ⟨fun k ctx value => ?_, fun ctx value ctx' value' => ⟨fun h => ?_, ?_⟩⟩
  · rw [computeMAC, macInput, length_bytes]
  · rw [macInput, macInput, append_assoc, append_assoc] at h
    obtain ⟨hln, hrs⟩ := uvarint_append_inj h
    exact append_inj hrs hln
  · rintro ⟨rfl, rfl⟩
    rfl

end Trove.Secretbox
