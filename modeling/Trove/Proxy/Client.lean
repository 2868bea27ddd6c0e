import Trove.Proxy.Backoff
import Trove.Proxy.Challenge

/-!
# The upstream client

One logical request is an exchange with the upstream; if that is answered 401, a token exchange with
the realm the challenge names, or basic credentials, and the exchange again. Every exchange follows
redirects by hand, so that the policy sees each hop and the credentials are dropped where the chain
leaves the upstream's family. The remote side, the clock and the credential source are scripts of
answers, and what is used of the standard library is `Web`.
-/

namespace Trove.Proxy

open Lib Meta

abbrev Header := List (String × String)

/-- `http.Response`. -/
structure Response where
  status : ℕ
  header : String → List String
  body : Except Unit (List UInt8)

/-- `resp.Header.Get`. -/
def Response.get (resp : Response) (key : String) : String := (resp.header key).headD ""

inductive Failure
  | cancelled
  | timedOut
  | network (timeout : Bool)

/-- What a request is answered. -/
abbrev Answer := Except Failure Response

structure TokenResponse where
  (token accessToken : String)
  expiresIn : ℤ

structure Web where
  parseUrl : String → Option Url
  resolve : Url → String → Option Url
  setQuery : String → List (String × String) → String
  requestable : Url → Bool
  base64 : String → String
  decodeToken : List UInt8 → Option TokenResponse
  parseTime : String → Option Time

/-- Which exchange of the client a request belongs to. -/
inductive Exchange
  | resource
  | token (realm : Url)

/-- A request on the wire: what it is, and the exchange and the hop it belongs to. -/
structure Sent where
  method : String
  url : Url
  header : Header
  exchange : Exchange
  hop : ℕ

/-- The answers to the requests, the readings of the clock and of the credential source. -/
structure Script where
  answer : ℕ → Answer
  clock : ℕ → Time
  basic : ℕ → Except String (String × String)

/-- `RegistryClient`. `hasCreds` is whether there is a credential source. -/
structure RegistryClient where
  base : Url
  hasCreds : Bool
  redirects : RedirectPolicy
  userAgent : String

/-- `New`: an upstream is a scheme and a host. -/
def newClient (web : Web) (upstream : String) (hasCreds : Bool) (redirects : RedirectPolicy)
    (userAgent : String) : Except UpstreamError RegistryClient :=
  let refuse (reason : String) : Except UpstreamError RegistryClient :=
    .error (.reference "upstream" upstream reason)
  if upstream = "" then refuse "required"
  else
    match web.parseUrl upstream with
    | none => refuse "unparseable"
    | some base =>
      if base.scheme ≠ "http" ∧ base.scheme ≠ "https" then refuse "scheme must be http or https"
      else if base.host = "" then refuse "must name a host"
      else if base.user.isSome then refuse "must not carry credentials"
      else if base.path ≠ "" ∧ base.path ≠ "/" then refuse "must be the registry root"
      else if base.rawQuery ≠ "" ∨ base.fragment ≠ "" then
        refuse "must not carry a query or fragment"
      else .ok ⟨{ base with path := "" }, hasCreds, redirects, userAgent⟩

structure ClientState where
  /-- The authorization of a scope, and when it stops being usable. -/
  auth : GoMap String (String × Time)
  /-- Until when the upstream is known to answer Basic; `0` if it is not. -/
  basicUntil : Time
  sent : List Sent
  reads : ℕ

def ClientState.init : ClientState := ⟨∅, 0, [], 0⟩

def defaultTokenLifetime : ℤ := 60 * second
def tokenExpirySkew : ℤ := 10 * second
def basicAuthMemory : ℤ := 300 * second
def maxTokenBytes : ℕ := 2 ^ 20

/-- A delay in seconds or a date, and whether there is one. -/
def parseRetryAfter (web : Web) (value : String) (now : Time) : ℤ × Bool :=
  let value := Strings.trimSpace value
  if value = "" then (0, false)
  else
    match Strings.parseInt value with
    | some seconds => if seconds < 0 then (0, true) else (duration (seconds * second), true)
    | none =>
      match web.parseTime value with
      | none => (0, false)
      | some when_ =>
        -- `Sub` stops at the longest duration
        let delay := max (-2 ^ 63) (min (2 ^ 63 - 1) (when_ - now))
        if 0 < delay then (delay, true) else (0, true)

/-! ## Throttling headers -/

/-- The positive number of seconds a parameter `w` gives. -/
def windowSeconds (param : String) : Option ℤ :=
  match Strings.cut param '=' with
  | (_, none) => none
  | (key, some val) =>
    if Strings.trimSpace (Strings.toLower key) ≠ "w" then none
    else (Strings.parseInt (Strings.trimSpace val)).filter (0 < ·)

def firstPolicy (value : String) : String × List String :=
  let (countPart, rest) := Strings.cut (Strings.cut (Strings.trimSpace value) ',').1 ';'
  (countPart, Strings.split (rest.getD "") ';')

def parseRateLimitHeader (value : String) : ℤ × Bool × ℤ :=
  if Strings.trimSpace value = "" then (0, false, 0)
  else
    match Strings.parseInt (Strings.trimSpace (firstPolicy value).1) with
    | none => (0, false, 0)
    | some count =>
      (count, true, (firstPolicy value).2.foldl (fun window param =>
        (windowSeconds param).elim window fun seconds => duration (seconds * second)) 0)

/-- The seconds of the last window a policy gives, `0` if it gives none. -/
def lastSeconds (value : String) : ℤ :=
  (firstPolicy value).2.foldl (fun seconds param => (windowSeconds param).getD seconds) 0

/-- The seconds of a `Retry-After` that is a number. -/
def retrySeconds (value : String) : Option ℤ := Strings.parseInt (Strings.trimSpace value)

/-- The most seconds a duration holds. -/
def maxSeconds : ℤ := (2 ^ 63 - 1) / second

variable {n : ℤ} {value : String}

theorem duration_seconds_iff (h : 0 ≤ n) : duration (n * second) = n * second ↔ n ≤ maxSeconds := by
  have hmax : maxSeconds = 9223372036 := rfl
  rw [show second = 1000000000 from rfl]
  have hlt : duration (n * 1000000000) < (2 ^ 64 + 1) / 2 := Int.bmod_lt (by decide)
  constructor
  · omega
  · exact fun hle => Int.bmod_eq_of_le (by omega) (by omega)

theorem duration_nonneg_iff (n : ℤ) : 0 ≤ duration n ↔ n % 2 ^ 64 < 2 ^ 63 := by
  rw [duration, Int.bmod]
  split_ifs <;> omega

theorem duration_seconds_mono {m : ℤ} (h0 : 0 ≤ m) (h : m ≤ n) (hn : n ≤ maxSeconds) :
    duration (m * second) ≤ duration (n * second) := by
  rw [(duration_seconds_iff h0).mpr (h.trans hn), (duration_seconds_iff (h0.trans h)).mpr hn]
  exact Int.mul_le_mul_of_nonneg_right h (by decide)

theorem parseRetryAfter_number (web : Web) (now : Time) (h : retrySeconds value = some n) :
    parseRetryAfter web value now = (duration (max 0 n * second), true) := by
  have hne : Strings.trimSpace value ≠ "" := by
    intro heq
    rw [retrySeconds, heq] at h
    cases h
  rw [retrySeconds] at h
  rw [parseRetryAfter, if_neg hne, h]
  dsimp only
  split_ifs with hneg
  · rw [max_eq_left hneg.le]
    rfl
  · rw [max_eq_right (not_lt.mp hneg)]

theorem parseRetryAfter_date (web : Web) (now : Time) (h : retrySeconds value = none) :
    0 ≤ (parseRetryAfter web value now).1 := by
  rw [retrySeconds] at h
  simp only [parseRetryAfter, h]
  split_ifs
  · exact le_rfl
  · split
    · exact le_rfl
    · split_ifs with hdl
      · exact hdl.le
      · exact le_rfl

theorem windowSeconds_pos {param : String} (h : windowSeconds param = some n) : 0 < n := by
  unfold windowSeconds at h
  split at h
  · cases h
  · split_ifs at h
    simpa using (Option.filter_eq_some_iff.mp h).2

theorem foldl_window (params : List String) {seconds : ℤ} (h : 0 ≤ seconds) :
    0 ≤ params.foldl (fun seconds param => (windowSeconds param).getD seconds) seconds ∧
      params.foldl (fun window param =>
        (windowSeconds param).elim window fun seconds => duration (seconds * second))
          (duration (seconds * second)) =
      duration (params.foldl (fun seconds param => (windowSeconds param).getD seconds) seconds *
        second) := by
  induction params generalizing seconds with
  | nil => exact ⟨h, rfl⟩
  | cons param params ih =>
    rw [List.foldl_cons, List.foldl_cons]
    cases hpr : windowSeconds param with
    | none => exact ih h
    | some n => exact ih (windowSeconds_pos hpr).le

theorem lastSeconds_nonneg (value : String) : 0 ≤ lastSeconds value :=
  (foldl_window (firstPolicy value).2 le_rfl).1

theorem parseRateLimitHeader_window (value : String) :
    (parseRateLimitHeader value).2 = (false, 0) ∨
      (parseRateLimitHeader value).2 = (true, duration (lastSeconds value * second)) := by
  have hwn := (foldl_window (firstPolicy value).2 (le_refl 0)).2
  rw [show duration (0 * second) = 0 by decide, ← lastSeconds] at hwn
  unfold parseRateLimitHeader
  split_ifs
  · exact .inl rfl
  · split
    · exact .inl rfl
    · exact .inr (by rw [hwn])

theorem Backoff.delay_mono (opts : BackoffOptions) (jitter : ℤ → ℤ) (failures : ℕ) {a b : ℤ}
    (h : a ≤ b) : delay opts jitter failures a ≤ delay opts jitter failures b := by
  unfold delay
  dsimp only
  split_ifs <;> omega

/-- **Throttling headers.** A wait that is not a number of seconds is not negative. One that is a
number is that number of seconds exactly if they fit in a duration, and not negative exactly if what
is left of it in 64 bits is not; up to the largest that fits, more seconds are a longer wait, and
never a shorter backoff. Windows are read in the same way, where the count in front is one. -/
theorem throttling_monotone (web : Web) (now : Time) (v w : String) :
    (retrySeconds v = none → 0 ≤ (parseRetryAfter web v now).1) ∧
    (∀ a, retrySeconds v = some a →
      ((parseRetryAfter web v now).1 = max 0 a * second ↔ a ≤ maxSeconds) ∧
      (0 ≤ (parseRetryAfter web v now).1 ↔ max 0 a * second % 2 ^ 64 < 2 ^ 63) ∧
      ∀ b, retrySeconds w = some b → a ≤ b → b ≤ maxSeconds →
        (parseRetryAfter web v now).1 ≤ (parseRetryAfter web w now).1 ∧
        ∀ opts states entity at_ jitter,
          (Backoff.penalize opts states entity at_ jitter (parseRetryAfter web v now).1).1 ≤
            (Backoff.penalize opts states entity at_ jitter (parseRetryAfter web w now).1).1) ∧
    ((parseRateLimitHeader v).2.1 = false → (parseRateLimitHeader v).2.2 = 0) ∧
    ((parseRateLimitHeader v).2.1 = true →
      ((parseRateLimitHeader v).2.2 = lastSeconds v * second ↔ lastSeconds v ≤ maxSeconds) ∧
      (0 ≤ (parseRateLimitHeader v).2.2 ↔ lastSeconds v * second % 2 ^ 64 < 2 ^ 63) ∧
      ((parseRateLimitHeader w).2.1 = true → lastSeconds v ≤ lastSeconds w →
        lastSeconds w ≤ maxSeconds →
        (parseRateLimitHeader v).2.2 ≤ (parseRateLimitHeader w).2.2)) := by
  refine ⟨parseRetryAfter_date web now, fun a ha => ?_, fun hno => ?_, fun hcn => ?_⟩
  · have hzero : (0 : ℤ) ≤ maxSeconds := by decide
    have hva := parseRetryAfter_number web now ha
    refine ⟨?_, hva ▸ duration_nonneg_iff _, fun b hb hab hmax => ?_⟩
    · rw [hva, duration_seconds_iff (le_max_left 0 a)]
      exact ⟨fun h => (le_max_right 0 a).trans h, fun h => max_le hzero h⟩
    · have hwt : (parseRetryAfter web v now).1 ≤ (parseRetryAfter web w now).1 := by
        rw [hva, parseRetryAfter_number web now hb]
        exact duration_seconds_mono (le_max_left 0 a) (max_le_max_left 0 hab) (max_le hzero hmax)
      exact ⟨hwt, fun opts states entity at_ jitter =>
        Int.add_le_add_left (Backoff.delay_mono opts jitter _ hwt) at_⟩
  · rcases parseRateLimitHeader_window v with heq | heq
    · rw [heq]
    · simp [heq] at hno
  · have heq := (parseRateLimitHeader_window v).resolve_left fun h => by simp [h] at hcn
    simp only [heq]
    refine ⟨duration_seconds_iff (lastSeconds_nonneg v), duration_nonneg_iff _,
      fun hcn' hle hmax => ?_⟩
    have heq' := (parseRateLimitHeader_window w).resolve_left fun h => by simp [h] at hcn'
    simp only [heq']
    exact duration_seconds_mono (lastSeconds_nonneg v) hle hmax

def blindWeb : Web :=
  ⟨fun _ => none, fun _ _ => none, fun query _ => query, fun _ => false, id, fun _ => none,
    fun _ => none⟩

theorem throttling_monotone_minutes :
    (parseRetryAfter blindWeb "60" 0).1 ≤ (parseRetryAfter blindWeb " 120" 0).1 :=
  (((throttling_monotone blindWeb 0 "60" " 120").2.1 60 (by decide)).2.2 120 (by decide) (by decide)
    (by decide)).1

/-- A wait of 293 years is negative, and one of 585 years shorter than a minute. -/
theorem seconds_wrap :
    (parseRetryAfter blindWeb "9223372037" 0).1 < 0 ∧
      (parseRateLimitHeader "100;w=9223372037").2.2 < 0 ∧
      (Backoff.penalize (newBackoff 0 0) ∅ "hub" 0 id
        (parseRetryAfter blindWeb "18446744074" 0).1).1 <
        (Backoff.penalize (newBackoff 0 0) ∅ "hub" 0 id (parseRetryAfter blindWeb "60" 0).1).1 := by
  decide

namespace RegistryClient

variable (web : Web) (net : Net) (script : Script) (c : RegistryClient)

/-- `c.now()`. -/
def now (st : ClientState) : Time × ClientState :=
  (script.clock st.reads, { st with reads := st.reads + 1 })

/-! ## One exchange -/

/-- The upstream itself or one of its subdomains. -/
def sameFamily (u : Url) : Bool :=
  let host := Strings.toLower u.hostname
  let base := Strings.toLower c.base.hostname
  host = base || (base ≠ "" && Strings.hasSuffix host ("." ++ base))

def isAuthorization (key : String) : Bool := Strings.equalFold key "Authorization"

def credential (header : Header) (auth : String) : String :=
  if auth = "" then ((header.find? fun h => isAuthorization h.1).map (·.2)).getD "" else auth

/-- The headers of one request. The credential travels to the upstream's family, and to the host of
a token exchange. -/
def applyHeaders (header : Header) (auth : String) (current : Url) (trustHost : Bool) : Header :=
  header.filter (fun h => !isAuthorization h.1) ++
    (if c.userAgent = "" then [] else [("User-Agent", c.userAgent)]) ++
    (if credential header auth ≠ "" ∧ (trustHost = true ∨ c.sameFamily current = true) then
      [("Authorization", credential header auth)]
    else [])

def isRedirect (status : ℕ) : Bool := status ∈ [301, 302, 303, 307, 308]

structure Outgoing where
  method : String
  header : Header
  auth : String
  exchange : Exchange
  /-- The host outside the family that may see the credential on the first hop, if any. -/
  credentialHost : String

def put (o : Outgoing) (hop : ℕ) (current : Url) (st : ClientState) : ClientState :=
  let header := c.applyHeaders o.header o.auth current (hop = 0 && o.credentialHost ≠ "")
  { st with sent := st.sent ++ [⟨o.method, current, header, o.exchange, hop⟩] }

def transportError (op : Op) : Failure → UpstreamError
  | .cancelled => .cancelled op
  | .timedOut => .transport op true
  | .network timeout => .transport op timeout

/-- The loop of `send`. A hop is followed only up to the limit, so `left` never runs out
(`sendFrom_succ`). -/
def sendFrom (o : Outgoing) (left hop : ℕ) (current : Url) (st : ClientState) :
    Except UpstreamError Response × ClientState :=
  if web.requestable current then
    let after := c.put o hop current st
    match script.answer st.sent.length with
    | .error failure =>
      (.error (transportError (.exchange o.method (redacted current)) failure), after)
    | .ok resp =>
      if isRedirect resp.status then
        match web.resolve current (resp.get "Location"), resp.get "Location" with
        | none, location | some _, location@"" =>
          (.error (.redirect ⟨some (redacted current), .header location, .unusableLocation⟩), after)
        | some next, _ =>
          match c.redirects.follow net c.base current next (hop + 1) with
          | .error err => (.error (.redirect err), after)
          | .ok () =>
            match left with
            | 0 => (.error (.redirect ⟨some (redacted current), .url (redacted next),
                .tooMany c.redirects.maxHops⟩), after)
            | left + 1 => sendFrom o left (hop + 1) next after
      else (.ok resp, after)
  else (.error (.transport .buildRequest false), st)

def send (o : Outgoing) (target : Url) (st : ClientState) :
    Except UpstreamError Response × ClientState :=
  c.sendFrom web net script o c.redirects.maxHops.toNat 0 target st

def statusError (resp : Response) (method path : String) (st : ClientState) :
    UpstreamError × ClientState :=
  if resp.status = 429 then
    let (now, st) := now script st
    let (retryAfter, has) := parseRetryAfter web (resp.get "Retry-After") now
    (.rateLimited retryAfter has path, st)
  else (.status resp.status method path, st)

/-! ## Authorizations -/

def basicAuthorization (st : ClientState) : Except UpstreamError String × ClientState :=
  if c.hasCreds then
    match script.basic st.reads with
    | .error _ =>
      (.error (.auth "credentials could not be read"), { st with reads := st.reads + 1 })
    | .ok (username, password) =>
      (.ok ("Basic " ++ web.base64 (username ++ ":" ++ password)),
        { st with reads := st.reads + 1 })
  else (.error (.auth "upstream requires credentials and none are configured"), st)

/-- The authorization of the scope if it is still good, basic credentials for an upstream known to
take them, or none. -/
def authorizationFor (scope : String) (st : ClientState) :
    Except UpstreamError String × ClientState :=
  let (now, st) := now script st
  match (st.auth.lookup scope).filter (now < ·.2) with
  | some entry => (.ok entry.1, st)
  | none =>
    if st.basicUntil ≠ 0 ∧ now < st.basicUntil ∧ c.hasCreds = true then
      c.basicAuthorization web script st
    else (.ok "", st)

def acceptToken (scope path : String) (resp : Response) (st : ClientState) :
    Except UpstreamError String × ClientState :=
  if resp.status = 401 ∨ resp.status = 403 then
    if c.hasCreds then (.error (.auth "token endpoint rejected our credentials"), st)
    else (.error (.auth "token endpoint requires credentials and none are configured"), st)
  else if resp.status ≠ 200 then
    let (err, st) := statusError web script resp "GET" path st
    (.error err, st)
  else
    match resp.body with
    | .error () => (.error (.transport .readToken false), st)
    | .ok body =>
      match web.decodeToken (body.take maxTokenBytes) with
      | none => (.error (.auth "token endpoint returned an unreadable document"), st)
      | some decoded =>
        let token := if decoded.token = "" then decoded.accessToken else decoded.token
        if token = "" then (.error (.auth "token endpoint returned no token"), st)
        else
          let lifetime :=
            if 0 < decoded.expiresIn then duration (decoded.expiresIn * second)
            else defaultTokenLifetime
          let lifetime :=
            if tokenExpirySkew < lifetime then lifetime - tokenExpirySkew else lifetime
          let (now, st) := now script st
          (.ok ("Bearer " ++ token),
            { st with auth := st.auth.insert scope ("Bearer " ++ token, now + lifetime) })

def tokenQuery (ch : Challenge) (scope rawQuery : String) : String :=
  let requested := if ch.param "scope" = "" then scope else ch.param "scope"
  web.setQuery rawQuery
    ((if ch.param "service" = "" then [] else [("service", ch.param "service")]) ++
      (if requested = "" then [] else [("scope", requested)]))

def exchangeToken (realm tokenURL : Url) (header : Header) (scope : String) (st : ClientState) :
    Except UpstreamError String × ClientState :=
  match c.send web net script ⟨"GET", header, "", .token realm, realm.hostname⟩ tokenURL st with
  | (.error err, st) => (.error err, st)
  | (.ok resp, st) => c.acceptToken web script scope tokenURL.path resp st

/-- The token exchange for one scope. The policy is asked about the realm, but not whether the step
there is a downgrade. -/
def fetchToken (ch : Challenge) (scope : String) (st : ClientState) :
    Except UpstreamError String × ClientState :=
  if ch.param "realm" = "" then (.error (.auth "bearer challenge named no realm"), st)
  else
    match web.parseUrl (ch.param "realm") with
    | none => (.error (.auth "bearer challenge named an unparseable realm"), st)
    | some realm =>
      match c.redirects.allow net c.base realm with
      | .error err => (.error (.redirect err), st)
      | .ok () =>
        let tokenURL := { realm with rawQuery := tokenQuery web ch scope realm.rawQuery }
        if c.hasCreds then
          match c.basicAuthorization web script st with
          | (.error err, st) => (.error err, st)
          | (.ok basic, st) =>
            c.exchangeToken web net script realm tokenURL [("Authorization", basic)] scope st
        else c.exchangeToken web net script realm tokenURL [] scope st

def authorize (ch : Challenge) (scope : String) (st : ClientState) :
    Except UpstreamError String × ClientState :=
  match ch.scheme with
  | .basic =>
    match c.basicAuthorization web script st with
    | (.error err, st) => (.error err, st)
    | (.ok auth, st) =>
      let (now, st) := now script st
      (.ok auth, { st with basicUntil := now + basicAuthMemory })
  | .bearer => c.fetchToken web net script ch scope st

/-! ## One logical request -/

/-- A 401 is answered once. -/
def request (method path : String) (header : Header) (scope : String) (st : ClientState) :
    Except UpstreamError Response × ClientState :=
  let target := { c.base with path := path }
  match c.authorizationFor web script scope st with
  | (.error err, st) => (.error err, st)
  | (.ok auth, st) =>
    match c.send web net script ⟨method, header, auth, .resource, ""⟩ target st with
    | (.error err, st) => (.error err, st)
    | (.ok resp, st) =>
      if resp.status = 401 then
        match parseChallenge (resp.header "Www-Authenticate") with
        | none =>
          (.error (.auth "upstream demanded authentication with no challenge we understand"), st)
        | some ch =>
          match c.authorize web net script ch scope st with
          | (.error err, st) => (.error err, st)
          | (.ok auth, st) =>
            c.send web net script ⟨method, header, auth, .resource, ""⟩ target st
      else (.ok resp, st)

end RegistryClient

end Trove.Proxy
