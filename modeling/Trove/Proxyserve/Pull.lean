import Trove.Meta.Content
import Trove.Proxy.Routine
import Trove.Proxy.Tee

/-!
# Pulls through a proxy that is deleted and created again

A pull reads its proxy's row, builds the target of all its fills from it, and from then on knows the
proxy by its name. Pulls run beside each other and beside the deletion and the creation of proxies,
a call at a time. The state keeps how often each entity was created, and of each cached row the
creation its pull had read.

Parsing a configuration, the routing rules and the defaults are one parameter, `plan`; everything
else that answers a pull answers as it likes.
-/

namespace Trove.Proxyserve

open Lib Meta Proxy List Function Table

/-! ## The pull -/

/-- What a target takes from the configuration. -/
structure Plan where
  (upstream remote : String)
  (tagTTL negativeTTL : ℤ)
  offline : OfflineMode

/-- What a client asks for. -/
inductive PullRequest
  | manifest (name reference : String)
  | blob (name : String) (digest : Digest)

def PullRequest.name : PullRequest → String
  | .manifest name _ | .blob name _ => name

/-- What a pull ends with. -/
inductive Served
  | manifest (result : ManifestResult)
  | blob (result : Routine.BlobResult)

variable (f : Filler) (plan : Repository → String → Except PullError Plan)

def target (name : String) (record : Except String (Option Repository)) :
    Routine (Except PullError Target) :=
  match record with
  | .error err => return .error (.store "read the repository configuration" err)
  | .ok none => return .error (.contentUnknown "")
  | .ok (some record) =>
    if record.type ≠ .proxy then
      return .error (.contentUnknown
        (f.quote (entityOf name) ++ " is a " ++ record.type.text ++ ", not a proxy"))
    else
      match plan record ((Strings.cut name '/').2.getD "") with
      | .error err => return .error err
      | .ok p => do
        match ← Routine.ask (.clientFor (entityOf name)) with
        | .error err =>
          return .error (.configuration
            ("build the upstream client for " ++ f.quote (entityOf name) ++ ": " ++ err))
        | .ok client =>
          return .ok ⟨name, p.upstream, p.remote, client, p.tagTTL, p.negativeTTL, p.offline⟩

/-- The part of `Manifest` behind the resolution of a tag. -/
def serveDigest (t : Target) (digest : Digest) : Routine (Except PullError Served) := do
  match ← Routine.manifest f t digest with
  | .error err => return .error err
  | .ok result => return .ok (.manifest result)

def serveManifest (t : Target) (reference : String) : Routine (Except PullError Served) :=
  match Blob.parseDigest reference with
  | .ok _ => serveDigest f t reference
  | .error _ => do
    match ← Routine.resolve f t reference with
    | .error err => return .error err
    | .ok resolution => serveDigest f t resolution.digest

def serveBlob (t : Target) (digest : Digest) : Routine (Except PullError Served) := do
  match ← Routine.blob f t digest with
  | .error err => return .error err
  | .ok result => return .ok (.blob result)

def PullRequest.serve (t : Target) : PullRequest → Routine (Except PullError Served)
  | .manifest _ reference => serveManifest f t reference
  | .blob _ digest => serveBlob f t digest

def pull (request : PullRequest) (record : Except String (Option Repository)) :
    Routine (Except PullError Served) :=
  match Reponame.validate request.name with
  | .error err => return .error (.contentUnknown (err.message f.quote))
  | .ok () => do
    match ← target f plan request.name record with
    | .error err => return .error err
    | .ok t => request.serve f t

/-! ## The store's answers -/

/-- A cached row, by its key. -/
inductive Row
  | lease (repo tag : String)
  | absence (repo reference : String)
  | manifest (repo : String) (digest : Digest)
  | blob (repo : String) (digest : Digest)
  deriving DecidableEq

def Row.repository : Row → String
  | .lease repo _ | .absence repo _ | .manifest repo _ | .blob repo _ => repo

def HasRow (s : Memory) : Row → Prop
  | .lease repo tag => s.tagLeases.Has (repo, tag)
  | .absence repo reference => s.negativeCache.Has (repo, reference)
  | .manifest repo digest => s.cachedManifests.Has (repo, digest)
  | .blob repo digest => s.cachedBlobs.Has (repo, digest)

instance (s : Memory) : DecidablePred (HasRow s)
  | .lease _ _ | .absence _ _ | .manifest _ _ | .blob _ _ =>
    inferInstanceAs (Decidable (Table.Has _ _))

structure Outcome (c : PullCall) where
  reply : c.Reply
  store : Memory
  wrote : Option Row

/-- A read, which may fail. -/
def readRow {α : Type} (fault : Option String) (row : Except Error α) :
    Except String (Option α) :=
  match fault with
  | some err => .error err
  | none => .ok row.toOption

def writeRow (s : Memory) (fault : Option String) (result : Except Error Memory)
    (row : Option Row) :
    Except String Unit × Memory × Option Row :=
  match fault, result with
  | some err, _ => (.error err, s, none)
  | none, .error err => (.error (err.message f.quote), s, none)
  | none, .ok s' => (.ok (), s', row)

/-- The call is answered: the metadata store's by the store, all others as given. -/
def serve (s : Memory) (fault : Option String) (answers : (c : PullCall) → c.Reply) :
    (c : PullCall) → Outcome c
  | .getTagLease repo tag => ⟨readRow fault (s.cached.getTagLease repo tag), s, none⟩
  | .getNegativeEntry repo reference =>
    ⟨readRow fault (s.cached.getNegativeEntry repo reference), s, none⟩
  | .getCachedManifest repo digest =>
    ⟨readRow fault (s.cached.getCachedManifest repo digest), s, none⟩
  | .getCachedBlob repo digest => ⟨readRow fault (s.getCachedBlob repo digest), s, none⟩
  | .putTagLease lease =>
    let (reply, s', wrote) := writeRow f s fault
      ((s.cached.putTagLease f.quote lease).map s.withCached)
      (some (.lease lease.repository lease.tag))
    ⟨reply, s', wrote⟩
  | .deleteTagLease repo tag =>
    let (reply, s', wrote) :=
      writeRow f s fault ((s.cached.deleteTagLease repo tag).map s.withCached) none
    ⟨reply, s', wrote⟩
  | .putNegativeEntry entry =>
    let (reply, s', wrote) := writeRow f s fault
      ((s.cached.putNegativeEntry f.quote entry).map s.withCached)
      (some (.absence entry.repository entry.reference))
    ⟨reply, s', wrote⟩
  | .deleteNegativeEntry repo reference =>
    let (reply, s', wrote) :=
      writeRow f s fault ((s.cached.deleteNegativeEntry repo reference).map s.withCached) none
    ⟨reply, s', wrote⟩
  | .putCachedManifest m refs =>
    let (reply, s', wrote) := writeRow f s fault
      ((s.cached.putCachedManifest f.quote m refs).map s.withCached)
      (some (.manifest m.repository m.digest))
    ⟨reply, s', wrote⟩
  | .putCachedBlob b =>
    let (reply, s', wrote) :=
      writeRow f s fault (s.putCachedBlob f.quote b) (some (.blob b.repository b.digest))
    ⟨reply, s', wrote⟩
  | c => ⟨answers c, s, none⟩

/-! ## Pulls beside deletions and creations -/

/-- A pull under way; `born` is how often its entity had been created when it read the row. -/
structure Pull where
  name : String
  born : ℕ
  program : Routine (Except PullError Served)

/-- The store with the pulls on it, how often each entity was created, and the `born` of the pull
each row was written by. -/
structure Mirrors where
  store : Memory
  pulls : List Pull
  created : String → ℕ
  writer : Row → ℕ

inductive Event
  | pull (request : PullRequest) (fault : Option String)
  | call (k : ℕ) (fault : Option String) (answers : (c : PullCall) → c.Reply)
  | create (repo : Repository)
  | delete (name : String)

/-- One call. -/
def Mirrors.step (w : Mirrors) : Event → Option Mirrors
  | .pull request fault =>
    let entity := entityOf request.name
    some { w with
      pulls := w.pulls ++ [⟨request.name, w.created entity,
        pull f plan request (readRow fault (w.store.hosted.getRepository entity))⟩] }
  | .call k fault answers =>
    w.pulls[k]?.bind fun p =>
      match p.program with
      | .ret _ => none
      | .call c next =>
        let outcome := serve f w.store fault answers c
        some { w with
          store := outcome.store
          pulls := w.pulls.set k { p with program := next outcome.reply }
          writer := match outcome.wrote with
            | none => w.writer
            | some row => update w.writer row p.born }
  | .create repo =>
    match w.store.repositories.createRepository repo with
    | .error _ => some w
    | .ok r =>
      some { w with
        store := w.store.withRepositories r
        created := update w.created repo.name (w.created repo.name + 1) }
  | .delete name =>
    match w.store.deleteRepository name with
    | .error _ => some w
    | .ok s => some { w with store := s }

/-- No row was written by a pull that read the entity's row before its latest creation. -/
def Clean (w : Mirrors) : Prop :=
  ∀ row, HasRow w.store row → w.created (entityOf row.repository) ≤ w.writer row

def Settled (w : Mirrors) : Event → Prop
  | .create repo => w.store.hosted.repos.lookup repo.name = none →
    ∀ p ∈ w.pulls, entityOf p.name = repo.name → p.program.returned = true
  | _ => True

instance (w : Mirrors) : (e : Event) → Decidable (Settled w e)
  | .create _ => inferInstanceAs (Decidable (_ → ∀ p ∈ w.pulls, _ → _))
  | .pull _ _ | .call _ _ _ | .delete _ => inferInstanceAs (Decidable True)

/-! ## What a pull writes -/

variable {f plan}

open Proxy.Routine (WritesWithin)

variable {t : Target} {fault : Option String} {c : PullCall}

theorem serveDigest_within (digest : Digest) :
    WritesWithin t.repository (serveDigest f t digest) := by
  refine (Routine.manifest_within digest).bind fun result => ?_
  cases result with
  | error err => trivial
  | ok m => trivial

theorem serveManifest_within (reference : String) :
    WritesWithin t.repository (serveManifest f t reference) := by
  unfold serveManifest
  split
  · exact serveDigest_within reference
  · refine Routine.resolve_within.bind fun result => ?_
    cases result with
    | error err => trivial
    | ok resolution => exact serveDigest_within resolution.digest

theorem serveBlob_within (digest : Digest) : WritesWithin t.repository (serveBlob f t digest) := by
  refine (Routine.blob_within digest).bind fun result => ?_
  cases result with
  | error err => trivial
  | ok b => trivial

theorem PullRequest.serve_within (request : PullRequest) (t : Target) :
    WritesWithin t.repository (request.serve f t) := by
  cases request with
  | manifest name reference => exact serveManifest_within reference
  | blob name digest => exact serveBlob_within digest

theorem pull_within (request : PullRequest) (record : Except String (Option Repository)) :
    WritesWithin request.name (pull f plan request record) := by
  unfold pull
  split
  · trivial
  · unfold target
    rcases record with err | (_ | record)
    · trivial
    · trivial
    · dsimp only
      split_ifs
      · trivial
      · split
        · trivial
        · rename_i p _
          refine ⟨trivial, fun client _ => ?_⟩
          cases client with
          | error err => trivial
          | ok client =>
            exact request.serve_within ⟨request.name, p.upstream, p.remote, client, p.tagTTL,
              p.negativeTTL, p.offline⟩

/-! ## What a call does -/

variable {s s' : Memory}

def WroteWithin (name : String) (s s' : Memory) (wrote : Option Row) : Prop :=
  s'.hosted.repos = s.hosted.repos ∧
    ((wrote = none ∧ ∀ row, HasRow s' row → HasRow s row) ∨
      ∃ written, wrote = some written ∧ written.repository = name ∧ s.Entity name ∧
        ∀ row, HasRow s' row → row = written ∨ HasRow s row)

theorem wroteWithin_refl (name : String) (s : Memory) : WroteWithin name s s none :=
  ⟨rfl, .inl ⟨rfl, fun _ h => h⟩⟩

theorem writeRow_within {name : String} {result : Except Error Memory} {row : Option Row}
    (h : ∀ s', result = .ok s' → WroteWithin name s s' row) :
    WroteWithin name s (writeRow f s fault result row).2.1 (writeRow f s fault result row).2.2 := by
  unfold writeRow
  split
  · exact wroteWithin_refl name s
  · exact wroteWithin_refl name s
  · exact h _ rfl

theorem entity_of_require {name : String}
    (h : s.cached.requireProxyEntity f.quote name = .ok ()) : s.Entity name := by
  obtain ⟨repo, hrp, -⟩ := Memory.proxyEntity_of_require h
  exact ⟨repo, hrp⟩

/-- **One call.** It writes at most one row, which is of the pull's repository, and what it finds is
of the repository it asks for. -/
theorem serve_within {name : String} {answers : (c : PullCall) → c.Reply}
    (h : Routine.Within name c) :
    WroteWithin name s (serve f s fault answers c).store (serve f s fault answers c).wrote ∧
      Routine.Keyed c (serve f s fault answers c).reply := by
  cases c with
  | getTagLease repo tag =>
    refine ⟨wroteWithin_refl name s, fun l hl => ?_⟩
    have hrd : readRow fault (s.cached.getTagLease repo tag) = .ok (some l) := hl
    unfold readRow at hrd
    split at hrd
    · cases hrd
    · have hlk := mem_toOption.mp (Except.ok.inj hrd)
      unfold Cached.getTagLease at hlk
      split at hlk
      · rename_i lease hrow
        cases hlk
        exact congrArg Prod.fst (key_of_lookup hrow)
      · cases hlk
  | putTagLease lease =>
    refine ⟨writeRow_within fun s' hok => ?_, trivial⟩
    obtain ⟨c, hput, rfl⟩ := map_eq_ok.mp hok
    obtain ⟨hpr, -, rfl⟩ := Cached.putTagLease_eq_ok hput
    refine ⟨rfl, .inr ⟨_, rfl, h, h ▸ entity_of_require hpr, fun row hrow => ?_⟩⟩
    cases row with
    | lease repo tag => exact (has_insert.mp hrow).imp (fun heq => by cases heq; rfl) id
    | _ => exact .inr hrow
  | putNegativeEntry entry =>
    refine ⟨writeRow_within fun s' hok => ?_, trivial⟩
    obtain ⟨c, hput, rfl⟩ := map_eq_ok.mp hok
    obtain ⟨hpr, rfl⟩ := Cached.putNegativeEntry_eq_ok hput
    refine ⟨rfl, .inr ⟨_, rfl, h, h ▸ entity_of_require hpr, fun row hrow => ?_⟩⟩
    cases row with
    | absence repo reference => exact (has_insert.mp hrow).imp (fun heq => by cases heq; rfl) id
    | _ => exact .inr hrow
  | putCachedManifest m refs =>
    refine ⟨writeRow_within fun s' hok => ?_, trivial⟩
    obtain ⟨c, hput, rfl⟩ := map_eq_ok.mp hok
    obtain ⟨hpr, rfl⟩ := Cached.putCachedManifest_eq_ok hput
    refine ⟨rfl, .inr ⟨_, rfl, h, h ▸ entity_of_require hpr, fun row hrow => ?_⟩⟩
    cases row with
    | manifest repo digest => exact (has_insert.mp hrow).imp (fun heq => by cases heq; rfl) id
    | _ => exact .inr hrow
  | putCachedBlob b =>
    refine ⟨writeRow_within fun s' hok => ?_, trivial⟩
    obtain ⟨hpr, rfl⟩ := Memory.putCachedBlob_eq_ok hok
    refine ⟨rfl, .inr ⟨_, rfl, h, h ▸ entity_of_require hpr, fun row hrow => ?_⟩⟩
    cases row with
    | blob repo digest => exact (has_insert.mp hrow).imp (fun heq => by cases heq; rfl) id
    | _ => exact .inr hrow
  | deleteTagLease repo tag =>
    refine ⟨writeRow_within fun s' hok => ?_, trivial⟩
    obtain ⟨c, hdl, rfl⟩ := map_eq_ok.mp hok
    obtain rfl := Cached.deleteTagLease_eq_ok hdl
    refine ⟨rfl, .inl ⟨rfl, fun row hrow => ?_⟩⟩
    cases row with
    | lease repo tag => exact (has_erase.mp hrow).2
    | _ => exact hrow
  | deleteNegativeEntry repo reference =>
    refine ⟨writeRow_within fun s' hok => ?_, trivial⟩
    obtain ⟨c, hdl, rfl⟩ := map_eq_ok.mp hok
    obtain rfl := Cached.deleteNegativeEntry_eq_ok hdl
    refine ⟨rfl, .inl ⟨rfl, fun row hrow => ?_⟩⟩
    cases row with
    | absence repo reference => exact (has_erase.mp hrow).2
    | _ => exact hrow
  | _ => exact ⟨wroteWithin_refl name s, trivial⟩

/-! ## Every step -/

/-- Rows stand under entities that are there, each was written for the entity's latest creation, and
every pull under way was begun after it. -/
structure Mirrors.Inv (w : Mirrors) : Prop where
  stands : ∀ row, HasRow w.store row → w.store.Entity row.repository
  writer : ∀ row, HasRow w.store row → w.writer row = w.created (entityOf row.repository)
  within : ∀ p ∈ w.pulls, WritesWithin p.name p.program
  born : ∀ p ∈ w.pulls, p.program.returned = false → p.born = w.created (entityOf p.name)

variable {w w' : Mirrors}

theorem Mirrors.Inv.pull (h : w.Inv) (request : PullRequest)
    (record : Except String (Option Repository)) :
    Mirrors.Inv { w with pulls := w.pulls ++ [⟨request.name, w.created (entityOf request.name),
      Proxyserve.pull f plan request record⟩] } := by
  exact ⟨h.stands, h.writer, forall_mem_concat h.within (pull_within request record),
    forall_mem_concat h.born fun _ => rfl⟩

theorem Mirrors.Inv.call (h : w.Inv) {k : ℕ} {p : Pull} (hp : w.pulls[k]? = some p)
    {next : c.Reply → Routine (Except PullError Served)} (hpr : p.program = .call c next)
    {outcome : Outcome c} (hwr : WroteWithin p.name w.store outcome.store outcome.wrote)
    (hky : Routine.Keyed c outcome.reply) :
    Mirrors.Inv { w with
      store := outcome.store
      pulls := w.pulls.set k { p with program := next outcome.reply }
      writer := match outcome.wrote with
        | none => w.writer
        | some row => update w.writer row p.born } := by
  have hmem := mem_of_getElem? hp
  have hbr : p.born = w.created (entityOf p.name) := h.born p hmem (by rw [hpr]; rfl)
  obtain ⟨hrp, hrw⟩ := hwr
  have hen : ∀ name, w.store.Entity name → outcome.store.Entity name := by
    intro name hnm
    unfold Memory.Entity at hnm ⊢
    rw [hrp]
    exact hnm
  refine ⟨fun row hrow => ?_, fun row hrow => ?_, fun q hq => ?_, fun q hq hrn => ?_⟩
  · rcases hrw with ⟨-, hold⟩ | ⟨written, -, hnm, hth, hold⟩
    · exact hen _ (h.stands row (hold row hrow))
    · rcases hold row hrow with rfl | hbf
      · rw [hnm]
        exact hen _ hth
      · exact hen _ (h.stands row hbf)
  · rcases hrw with ⟨hnn, hold⟩ | ⟨written, hsm, hnm, -, hold⟩
    · rw [hnn]
      exact h.writer row (hold row hrow)
    · rw [hsm]
      by_cases heq : row = written
      · subst heq
        rw [hnm, ← hbr]
        exact update_self ..
      · rw [← h.writer row ((hold row hrow).resolve_left heq)]
        exact update_of_ne heq ..
  · rcases mem_or_eq_of_mem_set hq with hq | rfl
    · exact h.within q hq
    · have hcl := h.within p hmem
      rw [hpr] at hcl
      exact hcl.2 _ hky
  · rcases mem_or_eq_of_mem_set hq with hq | rfl
    · exact h.born q hq hrn
    · exact hbr

theorem Mirrors.Inv.create (h : w.Inv) {repo : Repository} {r : Repositories}
    (hok : w.store.repositories.createRepository repo = .ok r)
    (hst : Settled w (.create repo)) :
    { w with
      store := w.store.withRepositories r
      created := update w.created repo.name (w.created repo.name + 1) }.Inv := by
  obtain ⟨hfr, hrp⟩ := Repositories.createRepository_ok hok
  have hfr' : w.store.hosted.repos.lookup repo.name = none := hfr
  refine ⟨fun row hrow => ?_, fun row hrow => ?_, h.within, fun p hp hrn => ?_⟩
  · have hth := h.stands row hrow
    show r.repos.Has _
    rw [hrp]
    exact has_insert.mpr (.inr hth)
  · -- nothing is stored under a name that is free
    have hne : entityOf row.repository ≠ repo.name := by
      intro heq
      obtain ⟨old, hold⟩ := h.stands row hrow
      rw [heq, hfr'] at hold
      cases hold
    exact (h.writer row hrow).trans (update_of_ne hne ..).symm
  · have hne : entityOf p.name ≠ repo.name := by
      intro heq
      rw [hst hfr' p hp heq] at hrn
      cases hrn
    exact (h.born p hp hrn).trans (update_of_ne hne ..).symm

theorem singleSegment_entityOf (name : String) : SingleSegment (entityOf name) := by
  unfold SingleSegment entityOf Reponame.prefixOf Strings.cut
  rw [String.toList_ofList]
  intro hmem
  have hne := mem_takeWhile_imp hmem
  simp at hne

theorem hasRow_of_delete {name : String} (hok : s.deleteRepository name = .ok s') {row : Row}
    (hrow : HasRow s' row) : HasRow s row ∧ entityOf row.repository ≠ name := by
  obtain ⟨-, rfl⟩ := Memory.deleteRepository_ok hok
  have hot : ∀ {repository : String}, (!belongsTo repository name) = true →
      entityOf repository ≠ name := by
    rintro repository hkp rfl
    have hun := (under_iff_entityOf (singleSegment_entityOf repository)).mpr rfl
    rw [belongsTo_iff.mpr hun] at hkp
    cases hkp
  cases row with
  | lease repo tag =>
    obtain ⟨l, hl⟩ := hrow
    obtain ⟨hold, hkp⟩ := lookup_restrict_eq_some.mp hl
    have hkey : l.repository = repo := congrArg Prod.fst (key_of_lookup hold)
    exact ⟨⟨l, hold⟩, hot (hkey ▸ hkp)⟩
  | absence repo reference =>
    obtain ⟨e, he⟩ := hrow
    obtain ⟨hold, hkp⟩ := lookup_restrict_eq_some.mp he
    have hkey : e.repository = repo := congrArg Prod.fst (key_of_lookup hold)
    exact ⟨⟨e, hold⟩, hot (hkey ▸ hkp)⟩
  | manifest repo digest =>
    obtain ⟨m, hm⟩ := hrow
    obtain ⟨hold, hkp⟩ := lookup_restrict_eq_some.mp hm
    have hkey : m.repository = repo := congrArg Prod.fst (key_of_lookup hold)
    exact ⟨⟨m, hold⟩, hot (hkey ▸ hkp)⟩
  | blob repo digest =>
    obtain ⟨b, hb⟩ := hrow
    obtain ⟨hold, hkp⟩ := lookup_restrict_eq_some.mp hb
    have hkey : b.repository = repo := congrArg Prod.fst (key_of_lookup hold)
    exact ⟨⟨b, hold⟩, hot (hkey ▸ hkp)⟩

theorem Mirrors.Inv.delete (h : w.Inv) {name : String}
    (hok : w.store.deleteRepository name = .ok s') : { w with store := s' }.Inv := by
  refine ⟨fun row hrow => ?_, fun row hrow => ?_, h.within, h.born⟩
  · obtain ⟨hold, hne⟩ := hasRow_of_delete hok hrow
    obtain ⟨-, rfl⟩ := Memory.deleteRepository_ok hok
    exact has_erase.mpr ⟨hne, h.stands row hold⟩
  · exact h.writer row (hasRow_of_delete hok hrow).1

theorem Mirrors.Inv.step (h : w.Inv) {e : Event} (hst : Settled w e)
    (hsp : w.step f plan e = some w') : w'.Inv := by
  cases e with
  | pull request fault =>
    obtain rfl := Option.some.inj hsp
    exact h.pull request _
  | call k fault answers =>
    obtain ⟨p, hp, hcl⟩ := Option.bind_eq_some_iff.mp hsp
    split at hcl
    · cases hcl
    · rename_i c next hpr
      obtain rfl := Option.some.inj hcl
      have hwt := h.within p (mem_of_getElem? hp)
      rw [hpr] at hwt
      obtain ⟨hwr, hky⟩ := serve_within hwt.1
      exact h.call hp hpr hwr hky
  | create repo =>
    rw [Mirrors.step] at hsp
    split at hsp
    · obtain rfl := Option.some.inj hsp
      exact h
    · rename_i r hok
      obtain rfl := Option.some.inj hsp
      exact h.create hok hst
  | delete name =>
    rw [Mirrors.step] at hsp
    split at hsp
    · obtain rfl := Option.some.inj hsp
      exact h
    · rename_i s' hok
      obtain rfl := Option.some.inj hsp
      exact h.delete hok

/-- A store with nothing under way; what it holds counts as of the entities it has. -/
def Mirrors.of (s : Memory) : Mirrors := ⟨s, [], fun _ => 0, fun _ => 0⟩

/-- **A clean start.** From a store whose cached rows stand under entities that are there, in every
run of pulls, deletions and creations in which an entity is created only while no pull under its
name is under way, no cached row was written by a pull begun before its entity's latest creation. -/
theorem clean_of_run (f : Filler) (plan : Repository → String → Except PullError Plan) (s : Memory)
    (hstands : ∀ row, HasRow s row → s.Entity row.repository) {events : List Event} {w : Mirrors}
    (hsettled : Along (Mirrors.step f plan) Settled (.of s) events)
    (hrun : exec (Mirrors.step f plan) (.of s) events = some w) : Clean w := by
  have hst : (Mirrors.of s).Inv := by
    refine ⟨hstands, fun _ _ => rfl, fun p hp => ?_, fun p hp => ?_⟩ <;> exact absurd hp not_mem_nil
  have hinv := exec_invariant (fun _ _ _ h hok hsp => Mirrors.Inv.step h hok hsp) hst
    hsettled hrun
  exact fun row hrow => (hinv.writer row hrow).ge

/-! ## The run that breaks it -/

def planOf (_ : Repository) (remainder : String) : Except PullError Plan :=
  .ok ⟨remainder, "upstream", 900, 60, .serveStale⟩

def upstreamAnswers : (c : PullCall) → c.Reply
  | .clientFor _ => .ok quietClient
  | .now _ => 0
  | .joinTag _ _ | .joinManifest _ _ => none
  | .upstreamReady _ _ _ => .ok ()
  | .resolveTag _ _ _ _ => .ok ⟨true, Blob.repeated 'a', "", "", [1]⟩
  | .fetchManifest _ _ _ => .ok ([1], "")
  | .fetchBlob _ _ _ => .ok 1
  | .publish _ => ()
  | .getTagLease _ _ | .getNegativeEntry _ _ | .getCachedManifest _ _ | .getCachedBlob _ _ =>
    .ok none
  | .putTagLease _ | .deleteTagLease _ _ | .putNegativeEntry _ | .deleteNegativeEntry _ _
  | .putCachedManifest _ _ | .putCachedBlob _ => .ok ()
  | .openBlob _ => .unusable
  | .fill _ => none

def hubCreated (config : List UInt8) : Event := .create ⟨"hub", .proxy, config, 0, 0, 0⟩

def callsOf (n : ℕ) : List Event := List.replicate n (.call 0 none upstreamAnswers)

/-- The proxy is deleted and created again while a pull of a tag has the upstream's answer. -/
def recreatedMeanwhile : List Event :=
  [hubCreated [1], .pull (.manifest "hub/nginx" "latest") none] ++ callsOf 7 ++
    [.delete "hub", hubCreated [2]] ++ callsOf 6

/-- The lease and the manifest the pull then writes are of the predecessor's upstream. -/
theorem clean_inherited :
    ∃ w ∈ exec (Mirrors.step mirrorFiller planOf) (.of .empty) recreatedMeanwhile,
      HasRow w.store (.lease "hub/nginx" "latest") ∧
      HasRow w.store (.manifest "hub/nginx" (Blob.repeated 'a')) ∧ ¬Clean w := by
  have hrun : ∃ w ∈ exec (Mirrors.step mirrorFiller planOf) (.of .empty) recreatedMeanwhile,
      HasRow w.store (.lease "hub/nginx" "latest") ∧
      HasRow w.store (.manifest "hub/nginx" (Blob.repeated 'a')) ∧
      w.writer (.lease "hub/nginx" "latest") < w.created (entityOf "hub/nginx") := by
    decide +kernel
  obtain ⟨w, hw, hls, hmn, hwr⟩ := hrun
  exact ⟨w, hw, hls, hmn, fun hcl => absurd (hcl _ hls) (not_le.mpr hwr)⟩

def recreatedBetween : List Event :=
  [hubCreated [1], .pull (.manifest "hub/nginx" "latest") none] ++ callsOf 13 ++
    [.delete "hub", hubCreated [2], .pull (.manifest "hub/nginx" "latest") none] ++
    List.replicate 13 (.call 1 none upstreamAnswers)

theorem clean_of_run_between :
    ∃ w, exec (Mirrors.step mirrorFiller planOf) (.of .empty) recreatedBetween = some w ∧
      HasRow w.store (.lease "hub/nginx" "latest") ∧ Clean w := by
  have hrun : ∃ w ∈ exec (Mirrors.step mirrorFiller planOf) (.of .empty) recreatedBetween,
      HasRow w.store (.lease "hub/nginx" "latest") := by
    decide +kernel
  have hst : Along (Mirrors.step mirrorFiller planOf) Settled (.of .empty)
      recreatedBetween := by
    decide +kernel
  have hem : ∀ row, HasRow Memory.empty row → Memory.empty.Entity row.repository := by
    intro row hrow
    cases row <;> exact absurd hrow (not_has_empty _)
  obtain ⟨w, hw, hls⟩ := hrun
  exact ⟨w, hw, hls, clean_of_run mirrorFiller planOf .empty hem hst hw⟩

end Trove.Proxyserve
