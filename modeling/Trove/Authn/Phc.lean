import Trove.Authn.Password
import Trove.Lib.Decimal
import Trove.Lib.Except

/-!
# Verifiers as text

The text of a verifier is `$argon2id$v=19$m=..,t=..,p=..$<salt>$<digest>`. `decode` reads it field
by field and then requires that what it read is written the same way, so that a verifier has one
text whatever the base64 decoder lets pass (`decode_eq_ok`); and it reads every text the writer
makes.
-/

namespace Trove.Authn

open Lib Lib.Strings

/-- What is used of base64 without padding, of Argon2id and of `%q`. The base64 decoder may accept
more than the encoder writes. -/
structure Phc where
  encodeToString : List UInt8 → String
  decodeString : String → Option (List UInt8)
  idKey : List UInt8 → List UInt8 → ℕ → ℕ → ℕ → ℕ → List UInt8
  quote : String → String
  decodeString_encodeToString : ∀ b, decodeString (encodeToString b) = some b
  encodeToString_plain : ∀ b, '$' ∉ (encodeToString b).toList
  length_idKey : ∀ password salt iterations memory lanes n,
    (idKey password salt iterations memory lanes n).length = n

/-- The text of its error. -/
def InvalidParams.text (reason : InvalidParams) : String :=
  "invalid Argon2id parameters: " ++ match reason with
  | .memory kib => "memory " ++ padded 0 kib ++ " KiB is below the 8 KiB minimum"
  | .noLanes => "parallelism must be at least 1"
  | .lanes n kib =>
    padded 0 n ++ " lanes need at least " ++ padded 0 (n * 8) ++ " KiB of memory, have " ++
      padded 0 kib
  | .noIterations => "iterations must be at least 1"
  | .shortSalt n => "salt length " ++ padded 0 n ++ " is below the 8-byte minimum"
  | .shortKey n => "key length " ++ padded 0 n ++ " is below the 16-byte minimum"
  | .maxMemory kib =>
    "memory " ++ padded 0 kib ++ " KiB exceeds the " ++ padded 0 Authn.maxMemory ++ " KiB maximum"
  | .maxIterations n =>
    padded 0 n ++ " iterations exceed the maximum of " ++ padded 0 Authn.maxIterations
  | .maxWork kib n =>
    padded 0 kib ++ " KiB over " ++ padded 0 n ++ " passes is " ++ padded 0 (kib * n) ++
      " KiB-passes of work, above the maximum of " ++ padded 0 Authn.maxWork
  | .longSalt n =>
    "salt length " ++ padded 0 n ++ " exceeds the maximum of " ++ padded 0 Authn.maxLength
  | .longKey n =>
    "key length " ++ padded 0 n ++ " exceeds the maximum of " ++ padded 0 Authn.maxLength

namespace Phc

variable (x : Phc)

/-- The digest at the cost. -/
def derive (password : String) (salt : List UInt8) (p : Params) : List UInt8 :=
  x.idKey (bytes password) salt p.iterations p.memory p.parallelism p.keyLength

def phcAlgorithm : String := "argon2id"
def phcVersion : ℕ := 19

def encode (p : Params) (salt digest : List UInt8) : String :=
  "$" ++ phcAlgorithm ++ "$v=" ++ padded 0 phcVersion ++ "$m=" ++ padded 0 p.memory ++ ",t=" ++
    padded 0 p.iterations ++ ",p=" ++ padded 0 p.parallelism ++ "$" ++ x.encodeToString salt ++
    "$" ++ x.encodeToString digest

/-- Decimal digits without a leading zero, within the bits. -/
def parseUint (s : String) (bits : ℕ) : Option ℕ :=
  if s = "" ∨ 1 < len s ∧ hasPrefix s "0" then none
  else if s.toList.all Char.isDigit = false then none
  else
    let n := Nat.ofDigitChars 10 s.toList 0
    if n < 2 ^ bits then some n else none

/-- Refuse, unless it holds. -/
def check (ok : Prop) [Decidable ok] (detail : String) : Except String Unit :=
  if ok then .ok () else .error detail

/-- Refuse, if there is none. -/
def present {α : Type} (a : Option α) (detail : String) : Except String α :=
  a.elim (.error detail) .ok

def decodeCost (name : String) (bits : ℕ) (cost : String) : Except String ℕ := do
  check (hasPrefix cost name) ("expected " ++ x.quote name ++ " in " ++ x.quote cost)
  present (parseUint (trimPrefix cost name) bits) ("unreadable cost " ++ x.quote cost)

def decodeCosts (text : String) : Except String Params :=
  match split text ',' with
  | [m, t, p] => do
    let memory ← x.decodeCost "m=" 32 m
    let iterations ← x.decodeCost "t=" 32 t
    let parallelism ← x.decodeCost "p=" 8 p
    .ok ⟨memory, iterations, ⟨parallelism % 256, Nat.mod_lt _ (by decide)⟩, 0, 0⟩
  | _ => .error ("unreadable cost parameters " ++ x.quote text)

def decode (encoded : String) : Except String (Params × List UInt8 × List UInt8) :=
  match split encoded '$' with
  | [first, algorithm, version, costs, saltText, digestText] => do
    check (first = "") "expected 5 $-separated fields"
    check (algorithm = phcAlgorithm)
      ("algorithm " ++ x.quote algorithm ++ " is not " ++ phcAlgorithm)
    check (hasPrefix version "v=") ("unreadable version " ++ x.quote version)
    let number ← present (parseUint (trimPrefix version "v=") 32)
      ("unreadable version " ++ x.quote version)
    check (number = phcVersion)
      ("version " ++ padded 0 number ++ " is not " ++ padded 0 phcVersion)
    let params ← x.decodeCosts costs
    let salt ← present (x.decodeString saltText) "salt is not base64"
    let digest ← present (x.decodeString digestText) "digest is not base64"
    check (salt.length ≤ maxLength)
      ("salt longer than the " ++ padded 0 maxLength ++ "-byte maximum")
    check (digest.length ≤ maxLength)
      ("digest longer than the " ++ padded 0 maxLength ++ "-byte maximum")
    let params := { params with saltLength := salt.length, keyLength := digest.length }
    params.validate.mapError InvalidParams.text
    check (x.encode params salt digest = encoded) "is not canonically encoded"
    .ok (params, salt, digest)
  | _ => .error "expected 5 $-separated fields"

/-! ## What is accepted -/

variable {x} {p : Params} {salt digest : List UInt8}

variable {ok : Prop} {detail : String} {n : ℕ}

theorem check_pos [Decidable ok] (h : ok) : check ok detail = .ok () :=
  if_pos h

theorem check_eq_ok [Decidable ok] : check ok detail = .ok () ↔ ok := by
  unfold check
  split_ifs with h <;> simp [h]

theorem decode_eq_ok {encoded : String} (h : x.decode encoded = .ok (p, salt, digest)) :
    encoded = x.encode p salt digest ∧ p.validate = .ok () ∧ salt.length = p.saltLength ∧
      digest.length = p.keyLength := by
  unfold decode at h
  split at h
  · simp only [bind_eq_ok] at h
    obtain ⟨_, -, _, -, _, -, _, -, _, -, costs, -, salt', -, digest', -, _, -, _, -, _, hvl, _,
      hen, h⟩ := h
    cases h
    exact ⟨(check_eq_ok.mp hen).symm, mapError_eq_ok.mp hvl, rfl, rfl⟩
  · cases h

/-! ## What is written -/

theorem not_mem_padded {c : Char} (h : c.isDigit = false) (n : ℕ) : c ∉ (padded 0 n).toList :=
  fun hmem => by simp [isDigit_of_mem_padded hmem] at h

theorem parseUint_padded {bits : ℕ} (h : n < 2 ^ bits) : parseUint (padded 0 n) bits = some n := by
  have hdg : (padded 0 n).toList.all Char.isDigit = true :=
    List.all_eq_true.mpr fun _ => isDigit_of_mem_padded
  have hzr : ¬(padded 0 n = "" ∨ 1 < len (padded 0 n) ∧ hasPrefix (padded 0 n) "0") := by
    rintro (hem | ⟨hlen, hhd⟩)
    · exact padded_ne_nil 0 n (by rw [hem]; rfl)
    · obtain ⟨rest, hrs⟩ := hasPrefix_iff.mp hhd
      obtain rfl := eq_nil_of_padded_zero hrs.symm
      rw [show padded 0 n = "0" from String.toList_inj.mp hrs.symm] at hlen
      exact absurd hlen (by decide)
  unfold parseUint
  rw [if_neg hzr, if_neg (by simp [hdg]), ofDigitChars_padded]
  exact if_pos h

theorem decodeCost_append (name : String) (bits : ℕ) (h : n < 2 ^ bits) :
    x.decodeCost name bits (name ++ padded 0 n) = .ok n := by
  have hcut : cutPrefix (name ++ padded 0 n) name = some (padded 0 n) := cutPrefix_eq_some.mpr rfl
  have hpr : hasPrefix (name ++ padded 0 n) name = true :=
    hasPrefix_iff.mpr (by rw [String.toList_append]; exact List.prefix_append _ _)
  rw [decodeCost, check_eq_ok.mpr hpr, ok_bind, trimPrefix, hcut, Option.getD_some,
    parseUint_padded h]
  rfl

theorem bounds_of_validate (h : p.validate = .ok ()) :
    p.memory < 2 ^ 32 ∧ p.iterations < 2 ^ 32 ∧ p.saltLength ≤ maxLength ∧
      p.keyLength ≤ maxLength := by
  have hmm : maxMemory = 2 ^ 18 := rfl
  have hir : maxIterations = 16 := rfl
  simp only [Params.validate, ite_error_eq_ok] at h
  omega

def costs (p : Params) : List String :=
  ["m=" ++ padded 0 p.memory, "t=" ++ padded 0 p.iterations, "p=" ++ padded 0 p.parallelism]

theorem decodeCosts_costs (hmm : p.memory < 2 ^ 32) (hir : p.iterations < 2 ^ 32) :
    x.decodeCosts (join (costs p) ',') = .ok { p with saltLength := 0, keyLength := 0 } := by
  have hsp : split (join (costs p) ',') ',' = costs p := by
    refine split_join (by simp [costs]) ?_
    have hdg := fun n => not_mem_padded (c := ',') rfl n
    simp [costs, hdg]
  have hln : p.parallelism.1 < 2 ^ 8 := p.parallelism.isLt
  rw [decodeCosts, hsp, costs]
  simp only [decodeCost_append _ 32 hmm, decodeCost_append _ 32 hir,
    decodeCost_append _ 8 hln, ok_bind, Nat.mod_eq_of_lt p.parallelism.isLt]

theorem encode_eq_join : x.encode p salt digest =
    join ["", phcAlgorithm, "v=" ++ padded 0 phcVersion, join (costs p) ',', x.encodeToString salt,
      x.encodeToString digest] '$' := by
  have hdl : ("$" : String) = String.singleton '$' := rfl
  have hvr : ("$v=" : String) = String.singleton '$' ++ "v=" := rfl
  have hmm : ("$m=" : String) = String.singleton '$' ++ "m=" := rfl
  have hir : (",t=" : String) = String.singleton ',' ++ "t=" := rfl
  have hln : (",p=" : String) = String.singleton ',' ++ "p=" := rfl
  unfold encode costs
  simp only [hvr, hmm, hir, hln, hdl, join_cons_cons, join_singleton,
    String.append_assoc, String.empty_append]

theorem split_encode : split (x.encode p salt digest) '$' =
    ["", phcAlgorithm, "v=" ++ padded 0 phcVersion, join (costs p) ',', x.encodeToString salt,
      x.encodeToString digest] := by
  rw [encode_eq_join]
  refine split_join (by simp) ?_
  have hdg := fun n => not_mem_padded (c := '$') rfl n
  have hcs : '$' ∉ (join (costs p) ',').toList := by
    simp [join_cons_cons, join_singleton, costs, hdg]
  simp [phcAlgorithm, hcs, hdg, x.encodeToString_plain]

theorem decode_encode (hvl : p.validate = .ok ()) (hsl : salt.length = p.saltLength)
    (hdg : digest.length = p.keyLength) :
    x.decode (x.encode p salt digest) = .ok (p, salt, digest) := by
  obtain ⟨hmm, hir, hst, hds⟩ := bounds_of_validate hvl
  have hvr : parseUint (trimPrefix ("v=" ++ padded 0 phcVersion) "v=") 32 = some phcVersion := by
    decide
  have hpr : ({ p with saltLength := salt.length, keyLength := digest.length } : Params) = p := by
    rw [hsl, hdg]
  have hvr' : hasPrefix ("v=" ++ padded 0 phcVersion) "v=" = true := by decide
  rw [← hsl] at hst
  rw [← hdg] at hds
  unfold decode
  rw [split_encode]
  simp only [hvr, hvr', x.decodeString_encodeToString, present, Option.elim_some, ok_bind,
    decodeCosts_costs hmm hir, check_pos, hst, hds, hpr, hvl,
    Except.mapError]

/-- Verifiers in this form. -/
def scheme (x : Phc) : Scheme String where
  derive := x.derive
  encode := x.encode
  decode := x.decode
  decode_encode _ _ _ hvalid hsalt := decode_encode hvalid hsalt (x.length_idKey ..)

/-- **Password hash strings.** What is written is read back as it was, so distinct verifiers have
distinct texts; nothing else is read; and a password is accepted on the text made for it. -/
theorem phc_roundtrip (x : Phc) :
    (∀ p salt digest, p.validate = .ok () → salt.length = p.saltLength →
      digest.length = p.keyLength → x.decode (x.encode p salt digest) = .ok (p, salt, digest)) ∧
    (∀ p salt digest p' salt' digest', p.validate = .ok () → salt.length = p.saltLength →
      digest.length = p.keyLength → p'.validate = .ok () → salt'.length = p'.saltLength →
      digest'.length = p'.keyLength → x.encode p salt digest = x.encode p' salt' digest' →
      (p, salt, digest) = (p', salt', digest')) ∧
    (∀ encoded p salt digest, x.decode encoded = .ok (p, salt, digest) →
      encoded = x.encode p salt digest ∧ p.validate = .ok () ∧ salt.length = p.saltLength ∧
        digest.length = p.keyLength) ∧
    (∀ params random password encoded, hash x.scheme params random password = .ok encoded →
      verify x.scheme encoded password = .ok ()) := by
  refine ⟨fun _ _ _ => decode_encode, ?_, fun _ _ _ _ => decode_eq_ok,
    fun _ _ _ _ h => (hashOf_hash h).verify⟩
  intro p salt digest p' salt' digest' hvl hsl hdg hvl' hsl' hdg' heq
  have hrd := decode_encode (x := x) hvl hsl hdg
  rw [heq, decode_encode hvl' hsl' hdg'] at hrd
  exact (Except.ok.inj hrd).symm

def plainPhc : Phc where
  encodeToString b := String.ofList (b.map fun u => Char.ofNat (u.toNat + 256))
  decodeString s := some (s.toList.map fun ch => UInt8.ofNat ch.toNat)
  idKey _ _ _ _ _ n := List.replicate n 0
  quote := id
  decodeString_encodeToString b := by
    have hbyte : ∀ u : UInt8, UInt8.ofNat (Char.ofNat (u.toNat + 256)).toNat = u := by
      intro u
      have hu := u.toNat_lt
      rw [Unicode.toNat_ofNat (.inl (by omega)), ← UInt8.toNat_inj, UInt8.toNat_ofNat',
        Nat.add_mod_right]
      exact Nat.mod_eq_of_lt hu
    simp [Function.comp_def, hbyte]
  encodeToString_plain b := by
    have hbyte : ∀ u : UInt8, Char.ofNat (u.toNat + 256) ≠ '$' := by
      intro u h
      have hu := u.toNat_lt
      have htoNat := congrArg Char.toNat h
      rw [Unicode.toNat_ofNat (.inl (by omega)), show ('$').toNat = 36 from rfl] at htoNat
      omega
    simp [hbyte]
  length_idKey _ _ _ _ _ _ := List.length_replicate

end Phc

end Trove.Authn
