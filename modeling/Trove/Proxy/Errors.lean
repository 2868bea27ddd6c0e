import Trove.Proxy.Redirect

/-!
# What an upstream call fails with

Callers do not look at statuses: they ask an error which of a closed set of conditions it is, and
the degraded mode asks why a failure counts as an outage, if it does.
-/

namespace Trove.Proxy

inductive Sentinel
  | notFound
  | unauthorized
  | rateLimited
  | digestMismatch
  | upstreamUnavailable
  | redirectRefused
  | invalidReference
  | manifestTooLarge
  deriving DecidableEq

/-- What a `TransportError` was attempting. -/
inductive Op
  | buildRequest
  | exchange (method : String) (url : Url)
  | readToken
  | readManifest (path : String)
  deriving DecidableEq

inductive UpstreamError
  /-- `StatusError`: a response the client cannot use. -/
  | status (code : ℕ) (method path : String)
  /-- `RateLimitedError`: a 429, and the delay it asked for if it did. -/
  | rateLimited (retryAfter : ℤ) (hasRetryAfter : Bool) (path : String)
  /-- `TransportError`; whether the failure below HTTP was a timeout. -/
  | transport (op : Op) (timeout : Bool)
  | redirect (err : RedirectError)
  | reference (kind value reason : String)
  | tooLarge (limit : ℤ) (path : String)
  | auth (reason : String)
  | digestMismatch
  /-- `UnusableContentError`. -/
  | unusable (repository digest reason : String)
  /-- A not-found answered from the record of one. -/
  | remembered (upstream reference : String)
  | cancelled (op : Op)
  deriving DecidableEq

/-- `errors.Is`. -/
def UpstreamError.is : UpstreamError → Sentinel → Bool
  | .status code _ _, .notFound => code = 404 || code = 410
  | .status code _ _, .unauthorized => code = 401 || code = 403
  | .status code _ _, .upstreamUnavailable =>
    code ≠ 404 && code ≠ 410 && code ≠ 401 && code ≠ 403
  | .rateLimited _ _ _, .rateLimited => true
  | .transport _ _, .upstreamUnavailable => true
  | .redirect _, .redirectRefused => true
  | .reference _ _ _, .invalidReference => true
  | .tooLarge _ _, .manifestTooLarge => true
  | .auth _, .unauthorized => true
  | .digestMismatch, .digestMismatch => true
  | .unusable _ _ _, .upstreamUnavailable => true
  | .remembered _ _, .notFound => true
  | _, _ => false

inductive DegradedCause
  | unreachable
  | timeout
  | upstreamError
  | rateLimited
  deriving DecidableEq

/-- Why a failure counts as degraded, if it does. -/
def classify (err : UpstreamError) : Option DegradedCause :=
  if err.is .rateLimited then some .rateLimited
  else
    match err with
    | .transport _ timeout => some (if timeout then .timeout else .unreachable)
    | .status _ _ _ => if err.is .upstreamUnavailable then some .upstreamError else none
    | _ => if err.is .upstreamUnavailable then some .unreachable else none

theorem isSome_classify (err : UpstreamError) :
    (classify err).isSome ↔ err.is .rateLimited = true ∨ err.is .upstreamUnavailable = true := by
  unfold classify
  cases err <;> simp [UpstreamError.is]

theorem exists_of_is_rateLimited {err : UpstreamError} (h : err.is .rateLimited = true) :
    ∃ retryAfter has path, err = .rateLimited retryAfter has path := by
  cases err with
  | rateLimited retryAfter has path => exact ⟨retryAfter, has, path, rfl⟩
  | _ => cases h

theorem classify_eq_rateLimited {err : UpstreamError} (h : classify err = some .rateLimited) :
    ∃ retryAfter has path, err = .rateLimited retryAfter has path := by
  apply exists_of_is_rateLimited
  by_contra hnot
  unfold classify at h
  cases err with
  | rateLimited retryAfter has path => exact hnot rfl
  | transport op timeout => cases timeout <;> cases h
  | status code method path =>
    by_cases hun : (UpstreamError.status code method path).is .upstreamUnavailable = true
    · rw [if_pos hun] at h
      cases h
    · rw [if_neg hun] at h
      cases h
  | _ => cases h

end Trove.Proxy
