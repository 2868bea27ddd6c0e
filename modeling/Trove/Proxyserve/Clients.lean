import Trove.Lib.Run
import Trove.Meta.Repositories
import Trove.Proxy.Redirect

/-!
# Upstream clients

`ClientCache` keeps one client for each proxy entity, under the entity's name and the configuration
version it was built from. An update moves the version on; deleting an entity and creating another
under its name starts the version again, and the cache is not told.

Parsing a stored configuration and building a client are parameters. A built client is known by the
options it was built from.
-/

namespace Trove.Proxyserve

open Meta Lib Table

/-- What a client is built from, of a `repo.ProxyConfig`. -/
structure ProxyConfig where
  upstream : String
  trustedHosts : List String

/-- What a client is built with. -/
structure Options where
  upstream : String
  /-- The entity whose sealed credential is read on each request. -/
  credentials : Option String
  redirects : Proxy.RedirectPolicy
  deriving DecidableEq

/-- A built client. -/
structure Client where
  options : Options
  deriving DecidableEq

structure CachedClient where
  client : Client
  version : ℤ

/-- How `ClientFor` fails. -/
inductive ClientError
  | readConfiguration (entity : String) (err : Error)
  | notProxy (entity : String) (type : RepositoryType)
  | parseConfiguration (entity err : String)
  | buildClient (entity err : String)
  deriving DecidableEq

/-- How configurations are parsed and clients built, and whether the deployment has both a
credential store and a keyring. -/
structure Settings where
  parseProxyConfig : List UInt8 → Except String ProxyConfig
  build : Options → Except String Unit
  hasCredentials : Bool

abbrev ClientCache := GoMap String CachedClient

variable (c : Settings)

def credentialsFor (entity : String) : Option String :=
  if c.hasCredentials then some entity else none

def optionsFor (entity : String) (config : ProxyConfig) : Options where
  upstream := config.upstream
  credentials := credentialsFor c entity
  redirects := { Proxy.RedirectPolicy.strict with trustedHosts := config.trustedHosts }

def clientFor (s : Repositories) (clients : ClientCache) (entity : String) :
    Except ClientError Client × ClientCache :=
  match s.getRepository entity with
  | .error err => (.error (.readConfiguration entity err), clients)
  | .ok record =>
    if record.type ≠ .proxy then (.error (.notProxy entity record.type), clients)
    else
      match (clients.lookup entity).filter (·.version = record.configVersion) with
      | some cached => (.ok cached.client, clients)
      | none =>
        match c.parseProxyConfig record.config with
        | .error err => (.error (.parseConfiguration entity err), clients)
        | .ok config =>
          match c.build (optionsFor c entity config) with
          | .error err => (.error (.buildClient entity err), clients)
          | .ok () =>
            (.ok ⟨optionsFor c entity config⟩,
              clients.insert entity ⟨⟨optionsFor c entity config⟩, record.configVersion⟩)

/-! ## The proxies at work -/

structure Proxies where
  store : Repositories
  clients : ClientCache

/-- A call on them. -/
inductive Action
  | create (repo : Repository)
  | update (name : String) (config : List UInt8) (expectedVersion : ℤ) (actor : String) (at_ : Time)
  | delete (name : String)
  | clientFor (entity : String)

/-- One call; a call that fails changes nothing. -/
def Proxies.step (w : Proxies) : Action → Option Proxies
  | .create repo =>
    match w.store.createRepository repo with
    | .error _ => some w
    | .ok s' => some { w with store := s' }
  | .update name config expectedVersion actor at_ =>
    match w.store.updateRepositoryConfig name config expectedVersion actor at_ with
    | .error _ => some w
    | .ok s' => some { w with store := s' }
  | .delete name =>
    match w.store.deleteRepository name with
    | .error _ => some w
    | .ok s' => some { w with store := s' }
  | .clientFor entity => some { w with clients := (clientFor c w.store w.clients entity).2 }

/-- The client was built from the upstream and the trusted hosts the row has now. -/
def BuiltFrom (record : Repository) (client : Client) : Prop :=
  ∃ config, c.parseProxyConfig record.config = .ok config ∧
    client.options = optionsFor c record.name config

/-- No entity comes to be under a name the cache holds a client for. -/
def KeepsNames (w : Proxies) : Action → Prop
  | .create repo =>
    (w.store.createRepository repo).isOk = true → w.clients.lookup repo.name = none
  | _ => True

instance (w : Proxies) : (a : Action) → Decidable (KeepsNames w a)
  | .create repo => inferInstanceAs (Decidable
      ((w.store.createRepository repo).isOk = true → w.clients.lookup repo.name = none))
  | .update _ _ _ _ _ | .delete _ | .clientFor _ => inferInstanceAs (Decidable True)

/-- Every client in the cache is at most as new as its row, and built from it when as new. -/
def Current (w : Proxies) : Prop :=
  ∀ entity cached record, w.clients.lookup entity = some cached →
    w.store.repos.lookup entity = some record → cached.version ≤ record.configVersion ∧
      (cached.version = record.configVersion → BuiltFrom c record cached.client)

variable {c}

theorem clientFor_ok {s : Repositories} {clients : ClientCache} {entity : String} {client : Client}
    (h : (clientFor c s clients entity).1 = .ok client) :
    ∃ record, s.repos.lookup entity = some record ∧ record.type = .proxy ∧
      ((∃ cached, clients.lookup entity = some cached ∧
          cached.version = record.configVersion ∧ cached.client = client) ∨
        BuiltFrom c record client) := by
  unfold clientFor Repositories.getRepository at h
  cases hrc : s.repos.lookup entity with
  | none => simp [hrc] at h
  | some record =>
    have hnm : record.name = entity := key_of_lookup hrc
    simp only [hrc] at h
    split_ifs at h with hty
    refine ⟨record, rfl, not_not.mp hty, ?_⟩
    split at h
    · rename_i cached hcc
      obtain ⟨hlk, hvr⟩ := Option.filter_eq_some_iff.mp hcc
      exact .inl ⟨cached, hlk, of_decide_eq_true hvr, Except.ok.inj h⟩
    · split at h
      · cases h
      · rename_i config hpr
        split at h
        · cases h
        · exact .inr ⟨config, hpr, by rw [← Except.ok.inj h, hnm]⟩

theorem clientFor_clients (s : Repositories) (clients : ClientCache) (entity : String) :
    (clientFor c s clients entity).2 = clients ∨
      ∃ record client, s.repos.lookup entity = some record ∧ BuiltFrom c record client ∧
        (clientFor c s clients entity).2 =
          clients.insert entity ⟨client, record.configVersion⟩ := by
  unfold clientFor Repositories.getRepository
  cases hrc : s.repos.lookup entity with
  | none => exact .inl rfl
  | some record =>
    have hnm : record.name = entity := key_of_lookup hrc
    simp only
    split_ifs with hty
    · exact .inl rfl
    · split
      · exact .inl rfl
      · split
        · exact .inl rfl
        · rename_i config hpr
          split
          · exact .inl rfl
          · exact .inr ⟨record, _, rfl, ⟨config, hpr, by rw [hnm]⟩, rfl⟩

/-! ## One call -/

theorem Current.step {w w' : Proxies} {a : Action} (h : Current c w) (hsf : KeepsNames w a)
    (hst : w.step c a = some w') : Current c w' := by
  cases a with
  | create repo =>
    simp only [Proxies.step] at hst
    split at hst
    · cases hst
      exact h
    · rename_i s' hcr
      cases hst
      obtain ⟨-, hrp⟩ := Repositories.createRepository_ok hcr
      intro entity cached record hcc hrc
      rw [hrp, lookup_insert] at hrc
      split_ifs at hrc with hnm
      · have hfr : w.clients.lookup repo.name = none := hsf (by rw [hcr]; rfl)
        rw [hnm, hfr] at hcc
        cases hcc
      · exact h entity cached record hcc hrc
  | update name config expectedVersion actor at_ =>
    simp only [Proxies.step] at hst
    split at hst
    · cases hst
      exact h
    · rename_i s' hup
      cases hst
      obtain ⟨repo, hre, hrp⟩ := Repositories.updateRepositoryConfig_ok hup
      intro entity cached record hcc hrc
      rw [hrp, lookup_insert] at hrc
      split_ifs at hrc with hnm
      · -- the row moved on, so the cached client is older
        have hsm : repo.name = name := key_of_lookup hre
        obtain rfl := Option.some.inj hrc
        have hle := (h entity cached repo hcc (by rw [hnm, hsm]; exact hre)).1
        exact ⟨by simp only; omega, fun heq => by simp only at heq; omega⟩
      · exact h entity cached record hcc hrc
  | delete name =>
    simp only [Proxies.step] at hst
    split at hst
    · cases hst
      exact h
    · rename_i s' hdl
      cases hst
      intro entity cached record hcc hrc
      rw [Repositories.deleteRepository_ok hdl, lookup_erase] at hrc
      split_ifs at hrc
      exact h entity cached record hcc hrc
  | clientFor entity =>
    cases hst
    rcases clientFor_clients w.store w.clients entity with hsm | ⟨record, client, hrow, hbl, hnew⟩
    · intro entity' cached record hcc
      rw [hsm] at hcc
      exact h entity' cached record hcc
    · intro entity' cached record' hcc hrc
      rw [hnew] at hcc
      rcases AList.lookup_insert_eq_some.mp hcc with ⟨rfl, rfl⟩ | ⟨-, hcc⟩
      · obtain rfl : record = record' := Option.some.inj (hrow.symm.trans hrc)
        exact ⟨le_refl _, fun _ => hbl⟩
      · exact h entity' cached record' hcc hrc

/-! ## Whole runs -/

/-- **A proxy talks to its own upstream.** From an empty cache over any repositories, after every
run of creations, updates, deletions and `ClientFor` calls in which no entity is created under a
name the cache holds a client for, a client `ClientFor` returns was built from its entity's current
upstream and trusted hosts. -/
theorem client_of_run (c : Settings) (s : Repositories) (w : Proxies) (as : List Action)
    (hsafe : Along (Proxies.step c) KeepsNames ⟨s, ∅⟩ as)
    (hrun : exec (Proxies.step c) ⟨s, ∅⟩ as = some w) (entity : String) (client : Client)
    (hclient : (clientFor c w.store w.clients entity).1 = .ok client) :
    ∃ record, w.store.repos.lookup entity = some record ∧ record.type = .proxy ∧
      BuiltFrom c record client := by
  have hin : Current c ⟨s, ∅⟩ := by
    intro entity cached record hcc
    simp at hcc
  have hcr : Current c w := exec_invariant (fun _ _ _ h hok hs => h.step hok hs) hin hsafe hrun
  obtain ⟨record, hrc, hty, ⟨cached, hcc, hvr, rfl⟩ | hbl⟩ := clientFor_ok hclient
  · exact ⟨record, hrc, hty, (hcr entity cached record hcc hrc).2 hvr⟩
  · exact ⟨record, hrc, hty, hbl⟩

/-! ## A name used twice -/

def configOf (upstream : String) : List UInt8 :=
  Strings.bytes ("\x7b\"upstream\":\"" ++ upstream ++ "\"\x7d")

def twoUpstreams : Settings where
  parseProxyConfig raw :=
    if raw = configOf "https://a.example" then .ok ⟨"https://a.example", []⟩
    else if raw = configOf "https://b.example" then .ok ⟨"https://b.example", []⟩
    else .error "unexpected end of JSON input"
  build _ := .ok ()
  hasCredentials := false

def createHub (upstream : String) : Action := .create ⟨"hub", .proxy, configOf upstream, 0, 0, 0⟩

def usedTwice : List Action :=
  [createHub "https://a.example", .clientFor "hub", .delete "hub", createHub "https://b.example"]

/-- The new entity is handed the client of the old one. -/
theorem client_of_deleted :
    ∃ w ∈ exec (Proxies.step twoUpstreams) ⟨.empty, ∅⟩ usedTwice,
      (w.store.repos.lookup "hub").map Repository.config = some (configOf "https://b.example") ∧
        (clientFor twoUpstreams w.store w.clients "hub").1 =
          .ok ⟨optionsFor twoUpstreams "hub" ⟨"https://a.example", []⟩⟩ := by
  decide

def updated : List Action :=
  [createHub "https://a.example", .clientFor "hub",
    .update "hub" (configOf "https://b.example") 1 "ann" 5]

theorem client_of_run_updated :
    ∃ w ∈ exec (Proxies.step twoUpstreams) ⟨.empty, ∅⟩ updated,
      ∃ client, (clientFor twoUpstreams w.store w.clients "hub").1 = .ok client ∧
        ∃ record, w.store.repos.lookup "hub" = some record ∧ record.type = .proxy ∧
          BuiltFrom twoUpstreams record client := by
  have hgo : ∃ w ∈ exec (Proxies.step twoUpstreams) ⟨.empty, ∅⟩ updated,
      (clientFor twoUpstreams w.store w.clients "hub").1 =
        .ok ⟨optionsFor twoUpstreams "hub" ⟨"https://b.example", []⟩⟩ := by decide
  obtain ⟨w, hrun, hcl⟩ := hgo
  exact ⟨w, hrun, _, hcl, client_of_run twoUpstreams .empty w updated (by decide) hrun "hub" _
    hcl⟩

end Trove.Proxyserve
