import Trove.Hostpattern

/-!
# Where a client may be sent

`RedirectPolicy.allow` decides whether the client may send a request to a URL at all, and
`RedirectPolicy.follow` whether it may follow a redirect there. The targets of redirects and the
realms of challenges are strings the upstream chooses.

URLs come out of `net/url` parsed. Which hosts are IP literals, and which addresses are loopback,
private and so on, is `net`'s to say: `Net` is what is assumed of it. The policy asks `net.ParseIP`,
which refuses an address with a zone; the dialer, which takes the host of a URL through
`idnaASCII` and asks `netip.ParseAddr`, does not.
-/

namespace Trove.Proxy

open Lib

structure Url where
  scheme : String
  user : Option String
  (host path rawQuery fragment : String)
  deriving DecidableEq

/-- `u.Hostname()`: the host without a port of digits and without brackets. -/
def Url.hostname (u : Url) : String :=
  let cs := u.host.toList
  let host := match cs.reverse.dropWhile Char.isDigit with
    | ':' :: before => before.reverse
    | _ => cs
  if host.head? = some '[' ∧ host.getLast? = some ']' then
    String.ofList (host.drop 1).dropLast
  else String.ofList host

example : (Url.mk "https" none "[::1]:5000" "" "" "").hostname = "::1" := by decide

/-- `net`'s address literals and its predicates on them. -/
structure Net where
  Ip : Type
  /-- `netip.ParseAddr`: the address and its zone. -/
  parseAddr : String → Option (Ip × String)
  /-- `idnaASCII`: the name that is dialled for a host. -/
  idnaASCII : String → String
  isLoopback : Ip → Bool
  isPrivate : Ip → Bool
  isUnspecified : Ip → Bool
  isLinkLocalUnicast : Ip → Bool
  isLinkLocalMulticast : Ip → Bool
  isInterfaceLocalMulticast : Ip → Bool
  isMulticast : Ip → Bool
  idnaASCII_of_ascii : ∀ host, Strings.IsAscii host → idnaASCII host = host
  /-- The digits of an address may be written in either case. -/
  parseAddr_toLower : ∀ host ip, parseAddr host = some (ip, "") →
    parseAddr (Strings.toLower host) = some (ip, "")

/-- `net.ParseIP`. -/
def Net.parseIP (net : Net) (host : String) : Option net.Ip :=
  ((net.parseAddr host).filter (·.2 = "")).map (·.1)

/-- The address, with its zone, that a request to `u` is dialled as, if any. -/
def Net.literal (net : Net) (u : Url) : Option (net.Ip × String) :=
  net.parseAddr (net.idnaASCII u.hostname)

/-- An address the client will talk to when it is not the configured upstream. -/
def Net.isGlobalUnicast (net : Net) (ip : net.Ip) : Bool :=
  !(net.isLoopback ip || net.isPrivate ip || net.isUnspecified ip || net.isLinkLocalUnicast ip ||
    net.isLinkLocalMulticast ip || net.isInterfaceLocalMulticast ip || net.isMulticast ip)

/-! ## Refusals -/

def redacted (u : Url) : Url := { u with rawQuery := "", fragment := "", user := none }

inductive RedirectReason
  | tooMany (limit : ℤ)
  | downgrade
  | scheme (given : String)
  | noHost
  | credentials
  | privateAddress
  | outside (upstreamHost : String)
  | unusableLocation
  deriving DecidableEq

inductive Place
  | url (u : Url)
  | header (location : String)
  deriving DecidableEq

structure RedirectError where
  from_ : Option Url
  target : Place
  reason : RedirectReason
  deriving DecidableEq

/-! ## The policy -/

def defaultMaxRedirects : ℤ := 5

structure RedirectPolicy where
  /-- `0` is the default, and a negative one refuses every redirect. -/
  maxRedirects : ℤ
  trustedHosts : List String
  allowDowngrade : Bool
  deriving DecidableEq

namespace RedirectPolicy

def strict : RedirectPolicy := ⟨0, [], false⟩

variable (net : Net) (p : RedirectPolicy)

def maxHops : ℤ := if p.maxRedirects = 0 then defaultMaxRedirects else p.maxRedirects

/-- Whether the client may send a request to `u` at all. -/
def allow (upstream u : Url) : Except RedirectError Unit :=
  let refuse (reason : RedirectReason) : Except RedirectError Unit :=
    .error ⟨none, .url (redacted u), reason⟩
  if u.scheme ≠ "http" ∧ u.scheme ≠ "https" then refuse (.scheme u.scheme)
  else if u.host = "" then refuse .noHost
  else if u.user.isSome then refuse .credentials
  else
    let host := Strings.toLower u.hostname
    let upstreamHost := Strings.toLower upstream.hostname
    if host = upstreamHost then .ok ()
    else if (net.parseIP host).any (!net.isGlobalUnicast ·) then refuse .privateAddress
    else if Strings.hasSuffix host ("." ++ upstreamHost) && upstreamHost ≠ "" then .ok ()
    else if p.trustedHosts.any (Hostpattern.matches host ·) then .ok ()
    else refuse (.outside upstreamHost)

/-- Whether a redirect may be followed; `hop` counts from 1. -/
def follow (upstream from_ target : Url) (hop : ℤ) : Except RedirectError Unit :=
  let refuse (reason : RedirectReason) : Except RedirectError Unit :=
    .error ⟨some (redacted from_), .url (redacted target), reason⟩
  if p.maxHops < hop then refuse (.tooMany p.maxHops)
  else if target.scheme = "http" ∧ p.allowDowngrade = false ∧
      (Strings.equalFold from_.scheme "https" ∨ Strings.equalFold upstream.scheme "https") then
    refuse .downgrade
  else
    match p.allow net upstream target with
    | .ok () => .ok ()
    | .error err => .error { err with from_ := some (redacted from_) }

variable {net p} {upstream u : Url}

theorem scheme_of_allow (h : p.allow net upstream u = .ok ()) :
    u.scheme = "http" ∨ u.scheme = "https" := by
  unfold allow at h
  by_contra hnot
  rw [not_or] at hnot
  simp [hnot] at h

theorem follow_eq_ok {from_ target : Url} {hop : ℤ}
    (h : p.follow net upstream from_ target hop = .ok ()) :
    hop ≤ p.maxHops ∧ p.allow net upstream target = .ok () ∧
      (p.allowDowngrade = false → upstream.scheme = "https" → target.scheme = "https") := by
  unfold follow at h
  split_ifs at h with hhop hdw
  split at h
  · rename_i hal
    refine ⟨not_lt.mp hhop, hal, fun hst hup => ?_⟩
    rcases scheme_of_allow hal with hht | hhp
    · refine absurd ⟨hht, hst, .inr ?_⟩ hdw
      rw [hup]
      decide
    · exact hhp
  · cases h

end RedirectPolicy

end Trove.Proxy
