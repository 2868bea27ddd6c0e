import Trove.Lib.Strings

/-!
# Password verifiers

A verifier carries its salt and its cost parameters, so a password is checked at the cost its
verifier was made with and re-hashed when that is below the configured one. Argon2id and the text
form of a verifier are parameters: `Scheme` is what is used of them, and `Phc` the text form.
-/

namespace Trove.Authn

/-- The Argon2id cost parameters. -/
structure Params where
  (memory iterations : ℕ)
  parallelism : Fin 256
  (saltLength keyLength : ℕ)
  deriving DecidableEq

def defaultParams : Params := ⟨19456, 2, 1, 16, 32⟩

def maxMemory : ℕ := 2 ^ 18
def maxIterations : ℕ := 16
def maxWork : ℕ := 2 ^ 19
def maxLength : ℕ := 1024

/-- Why parameters make no usable hash. -/
inductive InvalidParams
  | memory (kib : ℕ)
  | noLanes
  | lanes (parallelism memory : ℕ)
  | noIterations
  | shortSalt (length : ℕ)
  | shortKey (length : ℕ)
  | maxMemory (kib : ℕ)
  | maxIterations (iterations : ℕ)
  | maxWork (memory iterations : ℕ)
  | longSalt (length : ℕ)
  | longKey (length : ℕ)
  deriving DecidableEq

/-- The first bound that is not met. -/
def Params.validate (p : Params) : Except InvalidParams Unit :=
  if p.memory < 8 then .error (.memory p.memory)
  else if p.parallelism = 0 then .error .noLanes
  else if p.memory / 8 < p.parallelism then .error (.lanes p.parallelism p.memory)
  else if p.iterations = 0 then .error .noIterations
  else if p.saltLength < 8 then .error (.shortSalt p.saltLength)
  else if p.keyLength < 16 then .error (.shortKey p.keyLength)
  else if maxMemory < p.memory then .error (.maxMemory p.memory)
  else if maxIterations < p.iterations then .error (.maxIterations p.iterations)
  else if maxWork < p.memory * p.iterations then .error (.maxWork p.memory p.iterations)
  else if maxLength < p.saltLength then .error (.longSalt p.saltLength)
  else if maxLength < p.keyLength then .error (.longKey p.keyLength)
  else .ok ()

example : defaultParams.validate = .ok () := by decide

/-- The hash primitive, and verifiers as they are stored: what was encoded decodes to itself. -/
structure Scheme (H : Type) where
  derive : String → List UInt8 → Params → List UInt8
  encode : Params → List UInt8 → List UInt8 → H
  decode : H → Except String (Params × List UInt8 × List UInt8)
  decode_encode : ∀ password salt p, p.validate = .ok () → salt.length = p.saltLength →
    decode (encode p salt (derive password salt p)) = .ok (p, salt, derive password salt p)

/-- Verifiers in the clear. -/
def plainScheme : Scheme (Params × List UInt8 × List UInt8) where
  derive password _ _ := password.toList.map fun ch => ch.toNat.toUInt8
  encode p salt key := (p, salt, key)
  decode := .ok
  decode_encode _ _ _ _ _ := rfl

variable {H : Type} (c : Scheme H)

/-- Why a check failed. -/
inductive VerifyError
  | invalidHash (detail : String)
  | mismatch
  deriving DecidableEq

def verify (encoded : H) (password : String) : Except VerifyError Unit :=
  match c.decode encoded with
  | .error detail => .error (.invalidHash detail)
  | .ok (params, salt, want) =>
    if c.derive password salt params = want then .ok () else .error .mismatch

def needsRehash (encoded : H) (want : Params) : Except String Bool :=
  match c.decode encoded with
  | .error detail => .error detail
  | .ok (have_, _, _) =>
    .ok (have_.memory < want.memory || have_.iterations < want.iterations ||
      have_.parallelism < want.parallelism || have_.saltLength < want.saltLength)

/-- Why no hash was made. -/
inductive HashError
  | emptyPassword
  | invalidParams (reason : InvalidParams)
  | readingSalt

/-- `Hasher.Hash`; `random` is what the randomness source gave, and too little of it is none. -/
def hash (params : Params) (random : List UInt8) (password : String) : Except HashError H :=
  if password = "" then .error .emptyPassword
  else
    match params.validate with
    | .error reason => .error (.invalidParams reason)
    | .ok () =>
      if random.length < params.saltLength then .error .readingSalt
      else
        let salt := random.take params.saltLength
        .ok (c.encode params salt (c.derive password salt params))

def HashOf (encoded : H) (password : String) : Prop :=
  ∃ params salt, c.decode encoded = .ok (params, salt, c.derive password salt params)

def CollisionFree (used : String → Prop) : Prop :=
  ∀ p q, used p → used q → ∀ salt params, c.derive p salt params = c.derive q salt params → p = q

variable {c}

variable {password : String} {encoded : H}

theorem hashOf_hash {params : Params} {random : List UInt8}
    (h : hash c params random password = .ok encoded) : HashOf c encoded password := by
  unfold hash at h
  cases hvl : params.validate with
  | error reason =>
    simp only [hvl] at h
    split_ifs at h
  | ok u =>
    simp only [hvl] at h
    split_ifs at h with _ hrn
    cases h
    refine ⟨_, _, c.decode_encode password _ params hvl ?_⟩
    rw [List.length_take]
    omega

theorem HashOf.verify (h : HashOf c encoded password) : verify c encoded password = .ok () := by
  obtain ⟨params, salt, hdc⟩ := h
  unfold Authn.verify
  simp [hdc]

theorem HashOf.eq_of_verify {used : String → Prop} (hfr : CollisionFree c used) {other : String}
    (h : HashOf c encoded password) (hps : used password) (hot : used other)
    (hvr : Authn.verify c encoded other = .ok ()) : other = password := by
  obtain ⟨params, salt, hdc⟩ := h
  unfold Authn.verify at hvr
  simp only [hdc] at hvr
  split_ifs at hvr with heq
  exact hfr other password hot hps salt params heq

end Trove.Authn
