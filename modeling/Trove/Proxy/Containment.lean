import Trove.Proxy.Client
import Trove.Lib.Run

/-!
# Where the client goes, and with what

Whatever the remote side answers, every request goes to the upstream, to the realm of a challenge
the policy allowed, or to a redirect target the policy followed; and it carries the credentials only
into the upstream's family or, on the first hop of a token exchange, to the realm. `Contained` says
this of one request, `Sends` of all requests of a call.
-/

namespace Trove.Proxy

open Lib Meta List

def Sent.CarriesAuthorization (s : Sent) : Prop :=
  ∃ h ∈ s.header, RegistryClient.isAuthorization h.1 = true

instance (s : Sent) : Decidable s.CarriesAuthorization :=
  inferInstanceAs (Decidable (∃ h ∈ s.header, RegistryClient.isAuthorization h.1 = true))

namespace RegistryClient

variable (web : Web) (net : Net) (script : Script) (c : RegistryClient)

def Challenged (realm : Url) : Prop :=
  ∃ n resp ch, script.answer n = .ok resp ∧
    parseChallenge (resp.header "Www-Authenticate") = some ch ∧ ch.scheme = .bearer ∧
    web.parseUrl (ch.param "realm") = some realm

structure Followed (u : Url) : Prop where
  allowed : c.redirects.allow net c.base u = .ok ()
  secure : c.redirects.allowDowngrade = false → c.base.scheme = "https" → u.scheme = "https"

inductive Place : Exchange → ℕ → Url → Prop
  | upstream (path : String) : Place .resource 0 { c.base with path := path }
  | realm (realm : Url) (query : String) (hchallenged : Challenged web script realm)
      (hallowed : c.redirects.allow net c.base realm = .ok ()) :
      Place (.token realm) 0 { realm with rawQuery := query }
  | redirect (exchange : Exchange) (hop : ℕ) (u : Url) (hhop : 0 < hop)
      (hfollowed : c.Followed net u) : Place exchange hop u

/-- The request goes where it may, and takes the credentials only where they may go. -/
structure Contained (s : Sent) : Prop where
  place : c.Place web net script s.exchange s.hop s.url
  auth : s.CarriesAuthorization →
    c.sameFamily s.url = true ∨ (s.hop = 0 ∧ ∃ realm, s.exchange = .token realm)
  creds : s.CarriesAuthorization → ∀ realm, s.exchange = .token realm → c.hasCreds = true

/-- From one state to the other at most `n` requests were sent, all of them contained. -/
def Sends (n : ℕ) (st st' : ClientState) : Prop :=
  ∃ new, st'.sent = st.sent ++ new ∧ new.length ≤ n ∧ ∀ s ∈ new, c.Contained web net script s

variable {web net script c}

variable {st st' : ClientState} {scope : String}

theorem Sends.of_sent_eq (h : st'.sent = st.sent) :
    c.Sends web net script 0 st st' := ⟨[], by simp [h], le_rfl, by simp⟩

variable {n m : ℕ} {header : Header} {resp : Response} {auth : Except UpstreamError String}
  {ch : Challenge} {u : Url}

theorem Sends.mono (h : c.Sends web net script n st st') (hle : n ≤ m) :
    c.Sends web net script m st st' := by
  obtain ⟨new, hsn, hlen, hnew⟩ := h
  exact ⟨new, hsn, hlen.trans hle, hnew⟩

theorem Sends.trans {st₁ st₂ : ClientState} (h : c.Sends web net script n st st₁)
    (h' : c.Sends web net script m st₁ st₂) : c.Sends web net script (n + m) st st₂ := by
  obtain ⟨new, hsn, hlen, hnew⟩ := h
  obtain ⟨new', hsn', hlen', hnew'⟩ := h'
  refine ⟨new ++ new', by rw [hsn', hsn, append_assoc], ?_, fun s hs => ?_⟩
  · rw [length_append]
    omega
  · rcases mem_append.mp hs with hs | hs
    · exact hnew s hs
    · exact hnew' s hs

/-! ## One exchange -/

theorem authorization_of_applyHeaders {auth : String} {current : Url} {trustHost : Bool}
    (h : ∃ h ∈ c.applyHeaders header auth current trustHost, isAuthorization h.1 = true) :
    credential header auth ≠ "" ∧ (trustHost = true ∨ c.sameFamily current = true) := by
  obtain ⟨h, hmem, hat⟩ := h
  rcases mem_append.mp hmem with hmem | hmem
  · rcases mem_append.mp hmem with hmem | hmem
    · have := (mem_filter.mp hmem).2
      simp [hat] at this
    · -- the user agent is no credential
      split_ifs at hmem
      · cases hmem
      · obtain rfl := mem_singleton.mp hmem
        have : isAuthorization "User-Agent" = false := by decide
        rw [this] at hat
        cases hat
  · split_ifs at hmem with hcr
    · exact hcr
    · cases hmem

/-- It goes where it may, only a token exchange has a host outside the family that sees the
credential, and only one with credentials has any. -/
structure MayStart (web : Web) (net : Net) (script : Script) (c : RegistryClient) (o : Outgoing)
    (hop : ℕ) (u : Url) : Prop where
  place : c.Place web net script o.exchange hop u
  trusts : o.credentialHost ≠ "" → ∃ realm, o.exchange = .token realm
  creds : credential o.header o.auth ≠ "" → ∀ realm, o.exchange = .token realm → c.hasCreds = true

variable {o : Outgoing} {left hop : ℕ} {current : Url} {st : ClientState}

theorem MayStart.contained (h : c.MayStart web net script o hop current) :
    c.Sends web net script 1 st (c.put o hop current st) := by
  refine ⟨_, rfl, le_rfl, fun s hs => ?_⟩
  obtain rfl := mem_singleton.mp hs
  refine ⟨h.place, fun hcr => ?_, fun hcr => ?_⟩
  · obtain ⟨-, htr | hfm⟩ := authorization_of_applyHeaders hcr
    · simp only [Bool.and_eq_true, decide_eq_true_eq] at htr
      exact .inr ⟨htr.1, h.trusts htr.2⟩
    · exact .inl hfm
  · exact h.creds (authorization_of_applyHeaders hcr).1

theorem MayStart.follow (h : c.MayStart web net script o hop current) {next : Url}
    (hfl : c.redirects.follow net c.base current next (hop + 1) = .ok ()) :
    c.MayStart web net script o (hop + 1) next := by
  obtain ⟨-, hal, hsc⟩ := RedirectPolicy.follow_eq_ok hfl
  exact ⟨.redirect _ _ _ (Nat.succ_pos hop) ⟨hal, hsc⟩, h.trusts, h.creds⟩

/-- What an exchange that the answer to a request ends with comes to. -/
inductive Ends : Answer → Except UpstreamError Response → Prop
  | fails (op : Op) (failure : Failure) : Ends (.error failure) (.error (transportError op failure))
  | refused (resp : Response) (err : RedirectError) : Ends (.ok resp) (.error (.redirect err))
  | answered (resp : Response) : Ends (.ok resp) (.ok resp)

variable (web net script c o left hop current st) in
theorem sendFrom_cases :
    c.sendFrom web net script o left hop current st =
      (.error (.transport .buildRequest false), st) ∨
    (∃ r, c.sendFrom web net script o left hop current st = (r, c.put o hop current st) ∧
      Ends (script.answer st.sent.length) r) ∨
    ∃ resp left' next, script.answer st.sent.length = .ok resp ∧ left = left' + 1 ∧
      c.redirects.follow net c.base current next (hop + 1) = .ok () ∧
      c.sendFrom web net script o left hop current st =
        c.sendFrom web net script o left' (hop + 1) next (c.put o hop current st) := by
  rw [sendFrom]
  generalize script.answer st.sent.length = answer
  split_ifs with hreq
  · right
    split
    · exact .inl ⟨_, rfl, .fails _ _⟩
    · split_ifs
      · split
        · exact .inl ⟨_, rfl, .refused _ _⟩
        · exact .inl ⟨_, rfl, .refused _ _⟩
        · split
          · exact .inl ⟨_, rfl, .refused _ _⟩
          · rename_i hfl
            split
            · exact .inl ⟨_, rfl, .refused _ _⟩
            · exact .inr ⟨_, _, _, rfl, rfl, hfl, rfl⟩
      · exact .inl ⟨_, rfl, .answered _⟩
  · exact .inl rfl

theorem sendFrom_sends (h : c.MayStart web net script o hop current) :
    c.Sends web net script (left + 1) st (c.sendFrom web net script o left hop current st).2 := by
  induction left using Nat.strong_induction_on generalizing hop current st with
  | _ left ih =>
    rcases sendFrom_cases web net script c o left hop current st with
      heq | ⟨r, heq, -⟩ | ⟨-, left', next, -, rfl, hfl, heq⟩
    · rw [heq]
      exact (Sends.of_sent_eq rfl).mono (Nat.zero_le _)
    · rw [heq]
      exact h.contained.mono (by omega)
    · rw [heq]
      exact (h.contained.trans (ih left' (by omega) (h.follow hfl))).mono (by omega)

def Last (script : Script) (st : ClientState) (resp : Response) : Prop :=
  script.answer (st.sent.length - 1) = .ok resp

theorem sendFrom_last (h : c.sendFrom web net script o left hop current st = (.ok resp, st')) :
    Last script st' resp := by
  induction left using Nat.strong_induction_on generalizing hop current st with
  | _ left ih =>
    rcases sendFrom_cases web net script c o left hop current st with
      heq | ⟨r, heq, hen⟩ | ⟨-, left', next, -, rfl, -, heq⟩
    · rw [heq] at h
      cases h
    · rw [heq] at h
      cases h
      rw [Last, put, length_append, length_singleton, Nat.add_sub_cancel]
      generalize script.answer st.sent.length = answer at hen
      cases hen
      rfl
    · rw [heq] at h
      exact ih left' (by omega) h

theorem sendFrom_succ (hlf : c.redirects.maxHops.toNat ≤ hop + left) :
    c.sendFrom web net script o (left + 1) hop current st =
      c.sendFrom web net script o left hop current st := by
  induction left generalizing hop current st with
  | zero =>
    rw [sendFrom, sendFrom]
    split_ifs
    · dsimp only
      split
      · rfl
      · split_ifs
        · split
          · rfl
          · rfl
          · split
            · rfl
            · rename_i hfl
              have := (RedirectPolicy.follow_eq_ok hfl).1
              omega
        · rfl
    · rfl
  | succ left ih =>
    rw [sendFrom, sendFrom]
    have hnx (next : Url) (st : ClientState) :
        c.sendFrom web net script o (left + 1) (hop + 1) next st =
          c.sendFrom web net script o left (hop + 1) next st := ih (by omega)
    simp only [hnx]

theorem send_sends {r : Except UpstreamError Response}
    (h : c.send web net script o current st = (r, st'))
    (hst : c.MayStart web net script o 0 current) :
    c.Sends web net script (c.redirects.maxHops.toNat + 1) st st' := by
  have hsn : c.Sends web net script (c.redirects.maxHops.toNat + 1) st
      (c.sendFrom web net script o c.redirects.maxHops.toNat 0 current st).2 :=
    sendFrom_sends hst
  rw [send] at h
  rwa [h] at hsn

theorem send_answer (h : c.send web net script o current st = (.ok resp, st')) :
    ∃ n, script.answer n = .ok resp := ⟨_, sendFrom_last h⟩

/-! ## Authorizations -/

theorem sent_statusError (resp : Response) (method path : String) (st : ClientState) :
    (statusError web script resp method path st).2.sent = st.sent := by
  unfold statusError
  split_ifs <;> rfl

theorem sent_basicAuthorization (h : c.basicAuthorization web script st = (auth, st')) :
    st'.sent = st.sent := by
  unfold basicAuthorization at h
  split_ifs at h
  · split at h <;> cases h <;> rfl
  · cases h
    rfl

theorem sent_authorizationFor (h : c.authorizationFor web script scope st = (auth, st')) :
    st'.sent = st.sent := by
  unfold authorizationFor at h
  dsimp only at h
  split at h
  · cases h
    rfl
  · split_ifs at h
    · have := sent_basicAuthorization h
      exact this
    · cases h
      rfl

theorem sent_acceptToken (scope path : String) (resp : Response) (st : ClientState) :
    (c.acceptToken web script scope path resp st).2.sent = st.sent := by
  unfold acceptToken
  split_ifs
  · rfl
  · rfl
  · exact sent_statusError resp _ _ st
  · split
    · rfl
    · split
      · rfl
      · dsimp only
        split_ifs <;> rfl

theorem exchangeToken_sends {realm : Url} {query : String} (hch : Challenged web script realm)
    (hal : c.redirects.allow net c.base realm = .ok ())
    (hcr : credential header "" ≠ "" → c.hasCreds = true) :
    c.Sends web net script (c.redirects.maxHops.toNat + 1) st
      (c.exchangeToken web net script realm
        { realm with rawQuery := query } header scope st).2 := by
  have hst : c.MayStart web net script ⟨"GET", header, "", .token realm, realm.hostname⟩ 0
      { realm with rawQuery := query } :=
    ⟨.realm realm query hch hal, fun _ => ⟨realm, rfl⟩, fun h _ _ => hcr h⟩
  unfold exchangeToken
  split
  · rename_i heq
    exact send_sends heq hst
  · rename_i heq
    exact (send_sends heq hst).trans (Sends.of_sent_eq (sent_acceptToken _ _ _ _))

theorem fetchToken_sends (hch : ∀ realm, web.parseUrl (ch.param "realm") = some realm →
      Challenged web script realm) :
    c.Sends web net script (c.redirects.maxHops.toNat + 1) st
      (c.fetchToken web net script ch scope st).2 := by
  have hnn : c.Sends web net script (c.redirects.maxHops.toNat + 1) st st :=
    (Sends.of_sent_eq rfl).mono (Nat.zero_le _)
  unfold fetchToken
  split_ifs with hrl hcr
  · exact hnn
  · split
    · exact hnn
    · rename_i realm hpr
      split
      · exact hnn
      · rename_i hal
        obtain ⟨auth, st', hbs⟩ : ∃ auth st', c.basicAuthorization web script st = (auth, st') :=
          ⟨_, _, rfl⟩
        have hsn : c.Sends web net script 0 st st' :=
          Sends.of_sent_eq (sent_basicAuthorization hbs)
        simp only [hbs]
        cases auth with
        | error err => exact hsn.mono (Nat.zero_le _)
        | ok basic =>
          exact (hsn.trans (exchangeToken_sends (hch realm hpr) hal
            fun _ => hcr)).mono (by omega)
  · split
    · exact hnn
    · rename_i realm hpr
      split
      · exact hnn
      · rename_i hal
        exact exchangeToken_sends (hch realm hpr) hal
          fun hcd => absurd rfl hcd

theorem authorize_sends
    (hch : ch.scheme = .bearer → ∀ realm, web.parseUrl (ch.param "realm") = some realm →
      Challenged web script realm) :
    c.Sends web net script (c.redirects.maxHops.toNat + 1) st
      (c.authorize web net script ch scope st).2 := by
  unfold authorize
  split
  · obtain ⟨auth, st', hbs⟩ : ∃ auth st', c.basicAuthorization web script st = (auth, st') :=
      ⟨_, _, rfl⟩
    have hsn : c.Sends web net script 0 st st' :=
      Sends.of_sent_eq (sent_basicAuthorization hbs)
    simp only [hbs]
    cases auth with
    | error err | ok auth => exact hsn.mono (Nat.zero_le _)
  · rename_i hbr
    exact fetchToken_sends (hch hbr)

theorem mayStart_resource (method path : String) (header : Header) (auth : String) :
    c.MayStart web net script ⟨method, header, auth, .resource, ""⟩ 0
      { c.base with path := path } :=
  ⟨.upstream path, fun h => absurd rfl h, fun _ _ h => nomatch h⟩

variable (web net script c) in
theorem request_sends (method path : String) (header : Header) (scope : String)
    (st : ClientState) :
    c.Sends web net script (3 * (c.redirects.maxHops.toNat + 1)) st
      (c.request web net script method path header scope st).2 := by
  unfold request
  dsimp only
  split
  · rename_i hat
    exact (Sends.of_sent_eq (sent_authorizationFor hat)).mono (Nat.zero_le _)
  · rename_i auth st₁ hat
    have hsn : c.Sends web net script 0 st st₁ := Sends.of_sent_eq (sent_authorizationFor hat)
    split
    · rename_i hsd
      exact (hsn.trans (send_sends hsd (mayStart_resource ..))).mono (by omega)
    · rename_i resp st₂ hsd
      have hfr := hsn.trans (send_sends hsd (mayStart_resource ..))
      split_ifs
      · split
        · exact hfr.mono (by omega)
        · rename_i ch hch
          -- the realm comes from an answer of the remote side
          have htk : c.Sends web net script (c.redirects.maxHops.toNat + 1) st₂
              (c.authorize web net script ch scope st₂).2 := by
            obtain ⟨n, han⟩ := send_answer hsd
            exact authorize_sends fun hbr realm hpr =>
              ⟨n, resp, ch, han, hch, hbr, hpr⟩
          split
          · rename_i hah
            rw [hah] at htk
            exact (hfr.trans htk).mono (by omega)
          · rename_i auth' st₃ hah
            rw [hah] at htk
            cases hls : c.send web net script ⟨method, header, auth', .resource, ""⟩
                { c.base with path := path } st₃ with
            | mk r st₄ =>
              have hrt := send_sends hls (mayStart_resource method path header auth')
              exact ((hfr.trans htk).trans hrt).mono (by omega)
      · exact hfr.mono (by omega)

/-! ## Containment -/

theorem Place.allowed {exchange : Exchange} (h : c.Place web net script exchange hop u) :
    (∃ path, u = { c.base with path := path }) ∨ c.redirects.allow net c.base u = .ok () := by
  cases h with
  | upstream path => exact .inl ⟨path, rfl⟩
  | realm realm query _ hal => exact .inr hal
  | redirect _ _ _ _ hfl => exact .inr hfl.allowed

/-- The upstream's host or a name below it, letter case aside. -/
def InDomain (net : Net) (c : RegistryClient) (u : Url) : Prop :=
  u.hostname.toLower = c.base.hostname.toLower ∨
    net.literal u = none ∧ ∃ sub, u.hostname.toLower = sub ++ "." ++ c.base.hostname.toLower

/-- The host is dialled as the policy reads it: in ASCII, and as a name unless it is the
upstream's. -/
def Plain (net : Net) (c : RegistryClient) (u : Url) : Prop :=
  Strings.IsAscii u.hostname ∧
    (net.literal u = none ∨ u.hostname.toLower = c.base.hostname.toLower)

theorem inDomain_of_sameFamily (hbase : Strings.IsAscii c.base.hostname) (hplain : c.Plain net u)
    (h : c.sameFamily u = true) : c.InDomain net u := by
  obtain ⟨hascii, hname | hsame⟩ := hplain
  · simp only [sameFamily, Bool.or_eq_true, Bool.and_eq_true, decide_eq_true_eq,
      Strings.toLower_of_ascii hascii, Strings.toLower_of_ascii hbase] at h
    rcases h with hsame | ⟨-, hsuffix⟩
    · exact .inl hsame
    · obtain ⟨front, hfront⟩ := isSuffixOf_iff_suffix.mp hsuffix
      refine .inr ⟨hname, String.ofList front, ?_⟩
      rw [← String.toList_inj, ← hfront]
      simp
  · exact .inl hsame

/-- A request of the client. -/
structure Call where
  (method path : String)
  header : Header
  scope : String

def run (web : Web) (net : Net) (script : Script) (c : RegistryClient) (calls : List Call)
    (st : ClientState) : ClientState :=
  calls.foldl (fun st call =>
    (c.request web net script call.method call.path call.header call.scope st).2) st

theorem contained_of_run (calls : List Call) (st : ClientState) (s : Sent)
    (hs : s ∈ (c.run web net script calls st).sent) :
    s ∈ st.sent ∨ c.Contained web net script s := by
  induction calls generalizing st with
  | nil => exact .inl hs
  | cons call calls ih =>
    rcases ih _ hs with hs | hs
    · obtain ⟨new, hsn, -, hnew⟩ := request_sends web net script c call.method call.path
        call.header call.scope st
      rw [hsn] at hs
      rcases mem_append.mp hs with hs | hs
      · exact .inl hs
      · exact .inr (hnew s hs)
    · exact .inr hs

theorem Contained.secure {s : Sent} (h : c.Contained web net script s)
    (hup : c.base.scheme = "https") (hst : c.redirects.allowDowngrade = false)
    (hrl : c.hasCreds = true → ∀ realm, Challenged web script realm →
      c.redirects.allow net c.base realm = .ok () → realm.scheme = "https")
    (hcr : s.CarriesAuthorization) : s.url.scheme = "https" := by
  obtain ⟨method, url, header, exchange, hop⟩ := s
  obtain ⟨hpl, -, hcd⟩ := h
  cases hpl with
  | upstream path => exact hup
  | realm realm query hch hal => exact hrl (hcd hcr realm rfl) realm hch hal
  | redirect _ _ _ _ hfl => exact hfl.secure hst hup

/-- **Credentials stay.** Of an https upstream with downgrades refused, and as long as no challenge
names an allowed realm that is not https (or there are no credentials): in every sequence of
requests, whatever the remote side answers, one that carries an Authorization header is https and
goes to the upstream, to a name below it, or on the first hop of a token exchange to the realm,
which the policy allows. A redirect beyond ASCII or to an address is not said to stay. -/
theorem credentials_contained (web : Web) (net : Net) (script : Script) (c : RegistryClient)
    (hupstream : c.base.scheme = "https") (hascii : Strings.IsAscii c.base.hostname)
    (hstrict : c.redirects.allowDowngrade = false)
    (hrealms : c.hasCreds = true → ∀ realm, Challenged web script realm →
      c.redirects.allow net c.base realm = .ok () → realm.scheme = "https")
    (calls : List Call) :
    ∀ s ∈ (c.run web net script calls .init).sent, s.CarriesAuthorization →
      s.url.scheme = "https" ∧
      ((c.Plain net s.url → c.InDomain net s.url) ∨
        ∃ realm query, s.exchange = .token realm ∧ s.hop = 0 ∧
          s.url = { realm with rawQuery := query } ∧
          c.redirects.allow net c.base realm = .ok ()) := by
  intro s hs hcr
  rcases contained_of_run calls .init s hs with hs | hs
  · cases hs
  · refine ⟨hs.secure hupstream hstrict hrealms hcr, ?_⟩
    rcases hs.auth hcr with hfm | ⟨hhop, realm, hec⟩
    · exact .inl fun hplain => inDomain_of_sameFamily hascii hplain hfm
    · obtain ⟨method, url, header, exchange, hop⟩ := s
      subst hhop hec
      cases hs.place with
      | realm realm query _ hal => exact .inr ⟨realm, query, rfl, rfl, rfl, hal⟩
      | redirect _ _ _ hhop _ => exact absurd hhop (lt_irrefl 0)

/-! ## Hosts the policy misreads -/

def secured : RegistryClient :=
  ⟨⟨"https", none, "registry.example", "", "", ""⟩, true, .strict, ""⟩

/-- Of all texts only `text` is a URL. -/
def webOf (text : String) (url : Url) : Web where
  parseUrl s := if s = text then some url else none
  resolve _ s := if s = text then some url else none
  setQuery _ _ := ""
  requestable _ := true
  base64 := id
  decodeToken _ := none
  parseTime _ := none

/-- A net whose only address is the loopback one with a zone that looks like a subdomain. -/
def zonedNet : Net where
  Ip := Unit
  parseAddr host :=
    if host = "::1%x.registry.example" then some ((), "x.registry.example") else none
  idnaASCII := id
  isLoopback _ := true
  isPrivate _ := false
  isUnspecified _ := false
  isLinkLocalUnicast _ := false
  isLinkLocalMulticast _ := false
  isInterfaceLocalMulticast _ := false
  isMulticast _ := false
  idnaASCII_of_ascii _ _ := rfl
  parseAddr_toLower host ip h := by
    split_ifs at h
    simp at h

def zonedUrl : Url := ⟨"https", none, "[::1%x.registry.example]", "/", "", ""⟩

def challenge (text : String) : Response :=
  ⟨401, fun key => if key = "Www-Authenticate" then [text] else [], .ok []⟩

def redirect (location : String) : Response :=
  ⟨302, fun key => if key = "Location" then [location] else [], .ok []⟩

/-- These answers in turn, and then none. -/
def answering (answers : List Response) : Script where
  answer n := (answers[n]?).elim (.error (.network false)) .ok
  clock _ := second
  basic _ := .ok ("operator", "secret")

def pull : Call := ⟨"GET", "/v2/app/manifests/latest", [], "repository:app:pull"⟩

/-- The realm is on the upstream's own host but http, and the password goes there in clear; and it
follows a redirect to a host that only Unicode's lower case takes for the upstream's, and one to the
loopback address. -/
theorem credentials_in_clear :
    secured.base.scheme = "https" ∧ secured.redirects.allowDowngrade = false ∧
    (∃ s ∈ (secured.run (webOf "http://registry.example/token"
          ⟨"http", none, "registry.example", "/token", "", ""⟩) zonedNet
        (answering [challenge "Bearer realm=\"http://registry.example/token\""]) [pull] .init).sent,
      ("Authorization", "Basic operator:secret") ∈ s.header ∧ s.url.scheme = "http") ∧
    (∃ s ∈ (secured.run (webOf "https://reg\u0130stry.example/"
          ⟨"https", none, "reg\u0130stry.example", "/", "", ""⟩) zonedNet
        (answering [challenge "Basic", redirect "https://reg\u0130stry.example/"])
          [pull] .init).sent,
      ("Authorization", "Basic operator:secret") ∈ s.header ∧
        s.url.hostname = "reg\u0130stry.example") ∧
    ∃ s ∈ (secured.run (webOf "https://[::1%25x.registry.example]/" zonedUrl) zonedNet
        (answering [challenge "Basic", redirect "https://[::1%25x.registry.example]/"])
        [pull] .init).sent,
      ("Authorization", "Basic operator:secret") ∈ s.header ∧
        (zonedNet.literal s.url).any (zonedNet.isLoopback ·.1) = true := by
  decide +kernel

/-- The same registry with an https realm on a host of its own. -/
theorem credentials_contained_subdomain :
    let web := webOf "https://auth.registry.example/token"
      ⟨"https", none, "auth.registry.example", "/token", "", ""⟩
    let script := answering [challenge "Bearer realm=\"https://auth.registry.example/token\""]
    ∃ s ∈ (secured.run web zonedNet script [pull] .init).sent,
      s.CarriesAuthorization ∧ s.url.scheme = "https" ∧
      ((secured.Plain zonedNet s.url → secured.InDomain zonedNet s.url) ∨
        ∃ realm query, s.exchange = .token realm ∧ s.hop = 0 ∧
          s.url = { realm with rawQuery := query } ∧
          secured.redirects.allow zonedNet secured.base realm = .ok ()) := by
  intro web script
  have hrl : ∀ realm, Challenged web script realm → realm.scheme = "https" := by
    rintro realm ⟨n, resp, ch, -, -, -, hpr⟩
    simp only [web, webOf] at hpr
    split_ifs at hpr
    cases hpr
    rfl
  obtain ⟨s, hs, hcr⟩ : ∃ s ∈ (secured.run web zonedNet script [pull] .init).sent,
    s.CarriesAuthorization := by decide +kernel
  exact ⟨s, hs, hcr, credentials_contained web zonedNet script secured rfl (by decide) rfl
    (fun _ realm hch _ => hrl realm hch) _ s hs hcr⟩

end RegistryClient

end Trove.Proxy
