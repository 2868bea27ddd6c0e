import Trove.Lib.Strings

/-!
# Digests

`parseDigest` accepts an allowlisted algorithm, a colon and exactly the right number of lowercase
hex characters, and nothing else. A digest handed to a blob store has passed it.
-/

namespace Trove.Blob

open Lib

/-- The accepted algorithms, and the hex characters of each. -/
def hexLength (algorithm : String) : Option ℕ :=
  if algorithm = "sha256" then some 64
  else if algorithm = "sha512" then some 128
  else none

def isLowerHex (c : Char) : Bool := ('0' ≤ c && c ≤ '9') || ('a' ≤ c && c ≤ 'f')

/-- Why a string is not a digest. -/
inductive InvalidDigest
  | noSeparator
  | unsupportedAlgorithm (algorithm : String)
  | wrongLength (algorithm : String) (want got : ℕ)
  | notLowerHex
  deriving DecidableEq

def InvalidDigest.text (quote : String → String) : InvalidDigest → String
  | .noSeparator => "want algorithm:hex"
  | .unsupportedAlgorithm algorithm => "unsupported algorithm " ++ quote algorithm
  | .wrongLength algorithm want got =>
    algorithm ++ " digests are " ++ toString want ++ " hex characters, got " ++ toString got
  | .notLowerHex => "hex must be lowercase 0-9a-f"

def parseDigest (s : String) : Except InvalidDigest String :=
  match Strings.cut s ':' with
  | (_, none) => .error .noSeparator
  | (algorithm, some hex) =>
    match hexLength algorithm with
    | none => .error (.unsupportedAlgorithm algorithm)
    | some n =>
      if Strings.len hex ≠ n then .error (.wrongLength algorithm n (Strings.len hex))
      else if hex.toList.all isLowerHex = false then .error .notLowerHex
      else .ok s

/-- `Digest.Validate` accepts. `NewHostedRef` and every blob-store call test it. -/
def validDigest (s : String) : Bool := (parseDigest s).isOk

theorem parseDigest_of_validDigest {s : String} (h : validDigest s = true) :
    ∃ d, parseDigest s = .ok d := by
  unfold validDigest at h
  cases hp : parseDigest s with
  | ok d => exact ⟨d, rfl⟩
  | error e => simp [hp, Except.isOk, Except.toBool] at h

theorem parseDigest_ok {s d : String} (h : parseDigest s = .ok d) : d = s := by
  unfold parseDigest at h
  split at h
  · cases h
  · split at h
    · cases h
    · split_ifs at h
      exact (Except.ok.inj h).symm

def repeated (c : Char) : String := "sha256:" ++ String.ofList (List.replicate 64 c)

example : validDigest (repeated 'a') = true := by decide

def maxUploadIDLength : ℕ := 128

/-- It may become a file name or an object key. -/
def validUploadID (id : String) : Bool :=
  id ≠ "" && decide (Strings.len id ≤ maxUploadIDLength) && id ≠ "." && id ≠ ".." &&
    id.toList.all fun c =>
      ('a' ≤ c && c ≤ 'z') || ('A' ≤ c && c ≤ 'Z') || ('0' ≤ c && c ≤ '9') ||
        c = '-' || c = '_' || c = '.'

end Trove.Blob
