import Trove.Meta.Memory

/-!
# Content integrity

Content is never orphaned: tags name stored manifests, edges stand beside their manifests, and every
content name, upload and group member names an entity that is there. Entity names are single path
segments, so the content of an entity is exactly what `belongsTo` finds.
-/

namespace Trove.Meta

open Lib List Function Table

def SingleSegment (name : String) : Prop := '/' ∉ name.toList

instance : DecidablePred SingleSegment := fun name =>
  inferInstanceAs (Decidable ('/' ∉ name.toList))

def Under (entity name : String) : Prop := name = entity ∨ ∃ rest, name = entity ++ "/" ++ rest

theorem belongsTo_iff {name entity : String} :
    belongsTo name entity = true ↔ Under entity name := by
  unfold belongsTo Under
  rw [Bool.or_eq_true, beq_iff_eq, Strings.hasPrefix_iff]
  refine or_congr_right ⟨?_, ?_⟩
  · rintro ⟨rest, h⟩
    refine ⟨String.ofList rest, String.toList_inj.mp ?_⟩
    rw [← h, String.toList_append (t := String.ofList rest), String.toList_ofList]
  · rintro ⟨rest, rfl⟩
    exact ⟨rest.toList, by simp⟩

theorem under_iff_entityOf {entity : String} (h : SingleSegment entity) {name : String} :
    Under entity name ↔ entityOf name = entity := by
  rw [← belongsTo_iff, entityOf, Reponame.prefixOf, Strings.cut_fst_eq_iff h]
  unfold belongsTo
  rw [Bool.or_eq_true, beq_iff_eq, Strings.hasPrefix_iff]
  rfl

namespace Memory

def Entity (s : Memory) (name : String) : Prop := s.hosted.repos.Has (entityOf name)

/-- That entity is a proxy. -/
def ProxyEntity (s : Memory) (name : String) : Prop :=
  ∃ repo, s.hosted.repos.lookup (entityOf name) = some repo ∧ repo.type = .proxy

/-- No content is orphaned. -/
structure Integrity (s : Memory) : Prop where
  segment : ∀ repo ∈ s.hosted.repos.values, SingleSegment repo.name
  tag : ∀ t ∈ s.hosted.tags.values, s.hosted.manifests.Has (t.repository, t.digest)
  edges : ∀ key, (s.hosted.refs.lookup key).isSome = true ↔ s.hosted.manifests.Has key
  manifest : ∀ m ∈ s.hosted.manifests.values, s.Entity m.repository
  upload : ∀ u ∈ s.hosted.uploads.values, s.Entity u.repository
  cachedEdges : ∀ key, (s.cachedRefs.lookup key).isSome = true ↔ s.cachedManifests.Has key
  cachedManifest : ∀ m ∈ s.cachedManifests.values, s.ProxyEntity m.repository
  cachedBlob : ∀ b ∈ s.cachedBlobs.values, s.ProxyEntity b.repository
  lease : ∀ l ∈ s.tagLeases.values, s.ProxyEntity l.repository
  absence : ∀ e ∈ s.negativeCache.values, s.ProxyEntity e.repository
  member : ∀ group, ∀ m ∈ s.members group,
    ∃ repo, s.hosted.repos.lookup m.repository = some repo ∧ repo.type ≠ .group
  positions : ∀ group, ((s.members group).map GroupMember.position).Nodup

variable {quote : String → String} {s s' : Memory}

theorem integrity_empty : empty.Integrity := by
  constructor <;> simp [empty, Store.empty]

/-! ## What an operation on content does -/

/-- The operation neither writes a repository row nor the members of a group. -/
def Op.OnContent : Op → Prop
  | .createRepository _ | .updateRepositoryConfig .. | .deleteRepository _ | .setGroupMembers .. =>
    False
  | _ => True

/-- A change an operation on content makes to the store, with what it has made sure of. -/
inductive ContentChange (s : Memory) : Memory → Prop
  | credentials (creds : Table ProxyCredential.repository) :
      ContentChange s { s with proxyCredentials := creds }
  | blobs (blobs : Table Blob.digest) :
      ContentChange s { s with hosted := { s.hosted with blobs := blobs } }
  | putManifest (m : Manifest) (refs : List ManifestRef) (h : s.Entity m.repository) :
      ContentChange s { s with hosted := { s.hosted with
        manifests := s.hosted.manifests.insert m
        refs := s.hosted.refs.insert (m.repository, m.digest) refs } }
  | deleteManifest (repo : String) (digest : Digest) :
      ContentChange s { s with hosted := { s.hosted with
        manifests := s.hosted.manifests.erase (repo, digest)
        refs := s.hosted.refs.erase (repo, digest)
        tags := s.hosted.tags.restrict fun t => !(t.repository = repo && t.digest = digest) } }
  | tags (tags : Table fun t : Tag => (t.repository, t.name))
      (h : ∀ t ∈ tags.values, t ∈ s.hosted.tags.values ∨
        t.name ≠ "" ∧ s.hosted.manifests.Has (t.repository, t.digest)) :
      ContentChange s { s with hosted := { s.hosted with tags := tags } }
  | uploads (uploads : Table UploadSession.id)
      (h : (∀ u ∈ s.hosted.uploads.values, s.Entity u.repository) →
        ∀ u ∈ uploads.values, s.Entity u.repository) :
      ContentChange s { s with hosted := { s.hosted with uploads := uploads } }
  | putCachedManifest (m : CachedManifest) (refs : List ManifestRef)
      (h : s.ProxyEntity m.repository) :
      ContentChange s { s with
        cachedManifests := s.cachedManifests.insert m
        cachedRefs := s.cachedRefs.insert (m.repository, m.digest) refs }
  | deleteCachedManifest (repo : String) (digest : Digest) :
      ContentChange s { s with
        cachedManifests := s.cachedManifests.erase (repo, digest)
        cachedRefs := s.cachedRefs.erase (repo, digest) }
  | touchManifest (m : CachedManifest) (now : Time) (h : m ∈ s.cachedManifests.values) :
      ContentChange s { s with
        cachedManifests := s.cachedManifests.insert { m with lastAccessAt := now } }
  | cachedBlobs (blobs : Table fun b : CachedBlob => (b.repository, b.digest))
      (h : (∀ b ∈ s.cachedBlobs.values, s.ProxyEntity b.repository) →
        ∀ b ∈ blobs.values, s.ProxyEntity b.repository) :
      ContentChange s { s with cachedBlobs := blobs }
  | leases (leases : Table fun l : TagLease => (l.repository, l.tag))
      (h : (∀ l ∈ s.tagLeases.values, s.ProxyEntity l.repository) →
        ∀ l ∈ leases.values, s.ProxyEntity l.repository) :
      ContentChange s { s with tagLeases := leases }
  | absences (absences : Table fun e : NegativeEntry => (e.repository, e.reference))
      (h : (∀ e ∈ s.negativeCache.values, s.ProxyEntity e.repository) →
        ∀ e ∈ absences.values, s.ProxyEntity e.repository) :
      ContentChange s { s with negativeCache := absences }

theorem proxyEntity_of_require {name : String}
    (h : s.cached.requireProxyEntity quote name = .ok ()) : s.ProxyEntity name := by
  unfold Cached.requireProxyEntity at h
  split at h
  · cases h
  · rename_i repo hrow
    split_ifs at h with hty
    exact ⟨repo, hrow, hty⟩

theorem onHosted_eq_ok {result : Except Error Store} (h : s.onHosted result = .ok s') :
    ∃ hosted, result = .ok hosted ∧ s' = { s with hosted := hosted } := by
  cases result with
  | error err => cases h
  | ok hosted => exact ⟨hosted, rfl, (Except.ok.inj h).symm⟩

theorem onCached_eq_ok {result : Except Error Cached} (h : s.onCached result = .ok s') :
    ∃ c, result = .ok c ∧ s' = s.withCached c := by
  cases result with
  | error err => cases h
  | ok c => exact ⟨c, rfl, (Except.ok.inj h).symm⟩

theorem touch_changes (s : Memory) (access : CacheAccess) :
    Relation.ReflTransGen ContentChange s (s.touch access) := by
  unfold touch
  split
  · split
    · exact .refl
    · rename_i m hrow
      split_ifs
      · exact .single (.touchManifest m _ (mem_values_of_lookup hrow))
      · exact .refl
  · split
    · exact .refl
    · rename_i b hrow
      split_ifs
      · exact .single (.cachedBlobs _ fun h =>
          forall_insert h (h b (mem_values_of_lookup hrow)))
      · exact .refl
  · exact .refl

theorem apply_changes {op : Op} (hop : op.OnContent) (hok : s.apply quote op = .ok s') :
    Relation.ReflTransGen ContentChange s s' := by
  have hrs : ∀ {entity}, ¬ s.hosted.repoExists entity = false → s.hosted.repos.Has entity :=
    fun h => has_iff_isSome.mpr ((Bool.not_eq_false _).mp h)
  cases op with
  | createRepository | updateRepositoryConfig | deleteRepository | setGroupMembers => cases hop
  | putProxyCredential cred =>
    have hok := mapError_eq_ok.mp hok
    unfold putProxyCredential at hok
    split_ifs at hok
    split at hok
    · cases hok
    · split_ifs at hok
      cases hok
      exact .single (.credentials _)
  | deleteProxyCredential repository =>
    have hok := mapError_eq_ok.mp hok
    unfold deleteProxyCredential at hok
    split_ifs at hok
    cases hok
    exact .single (.credentials _)
  | putManifest m refs =>
    obtain ⟨hosted, hhs, rfl⟩ := onHosted_eq_ok hok
    unfold Store.putManifest at hhs
    split_ifs at hhs with hen
    cases hhs
    exact .single (.putManifest m refs (hrs hen))
  | deleteManifest repo digest =>
    obtain ⟨hosted, hhs, rfl⟩ := onHosted_eq_ok hok
    obtain ⟨-, rfl⟩ := Store.deleteManifest_ok hhs
    exact .single (.deleteManifest repo digest)
  | putTag tag =>
    obtain ⟨hosted, hhs, rfl⟩ := onHosted_eq_ok hok
    unfold Store.putTag at hhs
    split_ifs at hhs with hnm _ hmn
    cases hhs
    exact .single (.tags _ (forall_insert (fun _ => .inl)
      (.inr ⟨hnm, has_of_not_isNone hmn⟩)))
  | deleteTag repo name =>
    obtain ⟨hosted, hhs, rfl⟩ := onHosted_eq_ok hok
    unfold Store.deleteTag at hhs
    split_ifs at hhs
    cases hhs
    exact .single (.tags _ (forall_erase _ fun _ => .inl))
  | putBlob blob =>
    obtain ⟨hosted, hhs, rfl⟩ := onHosted_eq_ok hok
    rcases Store.putBlob_ok hhs with ⟨-, rfl⟩ | ⟨-, rfl⟩
    · exact .refl
    · exact .single (.blobs _)
  | deleteBlob digest =>
    obtain ⟨hosted, hhs, rfl⟩ := onHosted_eq_ok hok
    unfold Store.deleteBlob at hhs
    split_ifs at hhs
    cases hhs
    exact .single (.blobs _)
  | createUpload session =>
    obtain ⟨hosted, hhs, rfl⟩ := onHosted_eq_ok hok
    unfold Store.createUpload at hhs
    split_ifs at hhs with _ hen
    cases hhs
    exact .single (.uploads _ fun h => forall_insert h (hrs hen))
  | updateUpload id bytes now =>
    obtain ⟨hosted, hhs, rfl⟩ := onHosted_eq_ok hok
    unfold Store.updateUpload at hhs
    split at hhs
    · cases hhs
    · rename_i session hrow
      split_ifs at hhs
      cases hhs
      exact .single (.uploads _ fun h =>
        forall_insert h (h session (mem_values_of_lookup hrow)))
  | deleteUpload id =>
    obtain ⟨hosted, hhs, rfl⟩ := onHosted_eq_ok hok
    obtain rfl := Store.deleteUpload_ok hhs
    exact .single (.uploads _ (forall_erase _))
  | putCachedManifest m refs =>
    obtain ⟨c, hc, rfl⟩ := onCached_eq_ok hok
    obtain ⟨hpr, rfl⟩ := Cached.putCachedManifest_eq_ok hc
    exact .single (.putCachedManifest m refs (proxyEntity_of_require hpr))
  | deleteCachedManifest repo digest =>
    have hok := mapError_eq_ok.mp hok
    unfold deleteCachedManifest at hok
    split_ifs at hok
    cases hok
    exact .single (.deleteCachedManifest repo digest)
  | putCachedBlob b =>
    obtain ⟨hpr, rfl⟩ := putCachedBlob_eq_ok (mapError_eq_ok.mp hok)
    exact .single (.cachedBlobs _ fun h => forall_insert h (proxyEntity_of_require hpr))
  | deleteCachedBlob repo digest =>
    obtain ⟨⟨left, s₁⟩, hdl, rfl⟩ := map_eq_ok.mp (mapError_eq_ok.mp hok)
    unfold deleteCachedBlob at hdl
    split_ifs at hdl
    cases hdl
    exact .single (.cachedBlobs _ (forall_erase _))
  | putTagLease lease =>
    obtain ⟨c, hc, rfl⟩ := onCached_eq_ok hok
    obtain ⟨hpr, -, rfl⟩ := Cached.putTagLease_eq_ok hc
    exact .single (.leases _ fun h => forall_insert h (proxyEntity_of_require hpr))
  | deleteTagLease repo tag =>
    obtain ⟨c, hc, rfl⟩ := onCached_eq_ok hok
    obtain rfl := Cached.deleteTagLease_eq_ok hc
    exact .single (.leases _ (forall_erase _))
  | putNegativeEntry entry =>
    obtain ⟨c, hc, rfl⟩ := onCached_eq_ok hok
    obtain ⟨hpr, rfl⟩ := Cached.putNegativeEntry_eq_ok hc
    exact .single (.absences _ fun h => forall_insert h (proxyEntity_of_require hpr))
  | deleteNegativeEntry repo reference =>
    obtain ⟨c, hc, rfl⟩ := onCached_eq_ok hok
    obtain rfl := Cached.deleteNegativeEntry_eq_ok hc
    exact .single (.absences _ (forall_erase _))
  | touchCached accesses =>
    have hok := mapError_eq_ok.mp hok
    unfold touchCached at hok
    split at hok
    · cases hok
    · cases hok
      clear * -
      induction accesses generalizing s with
      | nil => exact .refl
      | cons access accesses ih => exact (s.touch_changes access).trans ih

/-- What every change keeps, an operation on content keeps. -/
theorem apply_content_invariant {P : Memory → Prop} (hch : ∀ s s', P s → ContentChange s s' → P s')
    {op : Op} (hop : op.OnContent) (hok : s.apply quote op = .ok s') (h : P s) : P s' := by
  have hall := apply_changes hop hok
  clear hok
  induction hall with
  | refl => exact h
  | tail _ hlast ih => exact hch _ _ ih hlast

theorem apply_onContent {op : Op} (hop : op.OnContent) (hok : s.apply quote op = .ok s') :
    s'.repositories = s.repositories ∧ s'.members = s.members :=
  apply_content_invariant (P := fun t => t.repositories = s.repositories ∧ t.members = s.members)
    (fun _ _ h hch => by cases hch <;> exact h) hop hok ⟨rfl, rfl⟩

/-! ## Groups -/

structure GroupsSound (s : Memory) : Prop where
  member : ∀ group, ∀ m ∈ s.members group,
    ∃ repo, s.hosted.repos.lookup m.repository = some repo ∧ repo.type ≠ .group
  positions : ∀ group, ((s.members group).map GroupMember.position).Nodup

theorem GroupsSound.empty : Memory.empty.GroupsSound where
  member := fun _ _ hm => nomatch hm
  positions := fun _ => nodup_nil

theorem Integrity.groupsSound (h : s.Integrity) : s.GroupsSound := ⟨h.member, h.positions⟩

/-- Repositories stay, and keep their types. -/
def KeepsTypes (repos repos' : Table Repository.name) : Prop :=
  ∀ name repo, repos.lookup name = some repo →
    ∃ repo', repos'.lookup name = some repo' ∧ repo'.type = repo.type

theorem keepsTypes_createRepository {s s' : Repositories} {repo : Repository}
    (hok : s.createRepository repo = .ok s') : KeepsTypes s.repos s'.repos := by
  obtain ⟨-, hfr, rfl⟩ := Repositories.createRepository_eq_ok.mp hok
  intro name old hold
  have hne : name ≠ repo.name := by
    rintro rfl
    cases hfr.symm.trans hold
  exact ⟨old, (lookup_insert ..).trans ((if_neg hne).trans hold), rfl⟩

theorem keepsTypes_updateRepositoryConfig {s s' : Repositories} {name actor : String}
    {config : List UInt8} {expectedVersion : ℤ} {now : Time}
    (hok : s.updateRepositoryConfig name config expectedVersion actor now = .ok s') :
    KeepsTypes s.repos s'.repos := by
  obtain ⟨repo, hrow, -, rfl⟩ := Repositories.updateRepositoryConfig_eq_ok.mp hok
  intro other old hold
  by_cases hot : other = repo.name
  · refine ⟨_, (lookup_insert ..).trans (if_pos hot), ?_⟩
    rw [hot, show repo.name = name from key_of_lookup hrow, hrow] at hold
    cases hold
    rfl
  · exact ⟨old, (lookup_insert ..).trans ((if_neg hot).trans hold), rfl⟩

theorem GroupsSound.of_keepsTypes (h : s.GroupsSound) (hmm : s'.members = s.members)
    (hkp : KeepsTypes s.hosted.repos s'.hosted.repos) : s'.GroupsSound where
  member := by
    intro group m hm
    rw [hmm] at hm
    obtain ⟨repo, hrow, hty⟩ := h.member group m hm
    obtain ⟨repo', hrow', hty'⟩ := hkp _ _ hrow
    exact ⟨repo', hrow', hty' ▸ hty⟩
  positions := by
    rw [hmm]
    exact h.positions

theorem checkMembers_ok {group : String} {members : List GroupMember} {seen : List ℤ} {targets : ℕ}
    (hok : s.checkMembers quote group seen members = .ok targets) :
    (∀ m ∈ members, ∃ repo, s.hosted.repos.lookup m.repository = some repo ∧ repo.type ≠ .group) ∧
      (members.map GroupMember.position).Nodup ∧ ∀ m ∈ members, m.position ∉ seen := by
  induction members generalizing seen targets with
  | nil => simp
  | cons m members ih =>
    unfold checkMembers at hok
    split at hok
    · cases hok
    · rename_i repo hrp
      split at hok
      · cases hok
      split at hok
      · cases hok
      rename_i hgr
      split at hok
      · cases hok
      rename_i hsn
      split at hok
      · cases hok
      · rename_i rest hrs
        obtain ⟨hmm, hnd, hfr⟩ := ih hrs
        refine ⟨?_, ?_, ?_⟩
        · intro m' hm'
          rcases mem_cons.mp hm' with rfl | hm'
          · exact ⟨repo, hrp, hgr⟩
          · exact hmm m' hm'
        · refine nodup_cons.mpr ⟨fun hmem => ?_, hnd⟩
          obtain ⟨m', hm', hps⟩ := mem_map.mp hmem
          exact hfr m' hm' (by simp [hps])
        · intro m' hm'
          rcases mem_cons.mp hm' with rfl | hm'
          · exact hsn
          · exact fun hmem => hfr m' hm' (mem_cons_of_mem _ hmem)

theorem setGroupMembers_ok {group : String} {members : List GroupMember}
    (hok : s.setGroupMembers quote group members = .ok s') :
    s' = { s with
      members := update s.members group (sortBy GroupMember.position members) } ∧
      (∀ m ∈ members, ∃ repo, s.hosted.repos.lookup m.repository = some repo ∧
        repo.type ≠ .group) ∧
      (members.map GroupMember.position).Nodup ∧ (s.hosted.repos.lookup group).isSome = true := by
  unfold setGroupMembers at hok
  split at hok
  · cases hok
  · rename_i repo hrow
    split_ifs at hok
    split at hok
    · cases hok
    · rename_i targets hch
      split_ifs at hok
      obtain ⟨hmm, hnd, -⟩ := checkMembers_ok hch
      exact ⟨(Except.ok.inj hok).symm, hmm, hnd, by rw [hrow]; rfl⟩

theorem deleteRepository_ok {name : String} (hok : s.deleteRepository name = .ok s') :
    s.hosted.repos.Has name ∧ s' = s.without name := by
  unfold deleteRepository at hok
  split_ifs at hok with hhas
  exact ⟨has_of_not_isNone hhas, (Except.ok.inj hok).symm⟩

theorem GroupsSound.apply (h : s.GroupsSound) {op : Op} (hok : s.apply quote op = .ok s') :
    s'.GroupsSound := by
  by_cases hop : op.OnContent
  · obtain ⟨hrw, hmm⟩ := apply_onContent hop hok
    have hrp : s'.hosted.repos = s.hosted.repos := congrArg Repositories.repos hrw
    exact h.of_keepsTypes hmm fun name repo hrow => ⟨repo, hrp ▸ hrow, rfl⟩
  cases op with
  | createRepository repo =>
    obtain ⟨r, hr, rfl⟩ := map_eq_ok.mp (mapError_eq_ok.mp hok)
    exact h.of_keepsTypes rfl (keepsTypes_createRepository hr)
  | updateRepositoryConfig name config expectedVersion actor now =>
    obtain ⟨r, hr, rfl⟩ := map_eq_ok.mp hok
    exact h.of_keepsTypes rfl (keepsTypes_updateRepositoryConfig hr)
  | deleteRepository name =>
    obtain ⟨-, rfl⟩ := deleteRepository_ok (mapError_eq_ok.mp hok)
    constructor
    · intro group m hm
      dsimp only [without] at hm
      split_ifs at hm
      · cases hm
      · obtain ⟨hm, hne⟩ := mem_filter.mp hm
        obtain ⟨repo, hrow, hty⟩ := h.member group m hm
        refine ⟨repo, ?_, hty⟩
        exact (lookup_erase ..).trans ((if_neg (by simpa using hne)).trans hrow)
    · intro group
      dsimp only [without]
      split_ifs
      · exact nodup_nil
      · exact (h.positions group).sublist (filter_sublist.map _)
  | setGroupMembers group members =>
    obtain ⟨rfl, hmm, hps, -⟩ := setGroupMembers_ok (mapError_eq_ok.mp hok)
    constructor
    · intro other m hm
      dsimp only at hm
      by_cases hot : other = group
      · subst hot
        rw [update_self, mem_sortBy] at hm
        exact hmm m hm
      · rw [update_of_ne hot] at hm
        exact h.member other m hm
    · intro other
      dsimp only
      by_cases hot : other = group
      · subst hot
        rw [update_self, ((perm_sortBy members).map _).nodup_iff]
        exact hps
      · rw [update_of_ne hot]
        exact h.positions other
  | _ => exact absurd trivial hop

/-! ## Repositories -/

variable {r : Repositories} {name repo entity : String} {μ : Type}
  {refs : GoMap (String × Digest) (List ManifestRef)} {digest : Digest}

theorem Integrity.withRepositories (h : s.Integrity)
    (hkp : KeepsTypes s.hosted.repos r.repos)
    (hsg : ∀ repo ∈ r.repos.values, SingleSegment repo.name)
    (hgr : (s.withRepositories r).GroupsSound) : (s.withRepositories r).Integrity := by
  have hen : ∀ name, s.Entity name → (s.withRepositories r).Entity name := by
    rintro name ⟨repo, hrp⟩
    obtain ⟨repo', hrp', -⟩ := hkp _ repo hrp
    exact ⟨repo', hrp'⟩
  have hpr : ∀ name, s.ProxyEntity name → (s.withRepositories r).ProxyEntity name := by
    rintro name ⟨repo, hrp, hty⟩
    obtain ⟨repo', hrp', hty'⟩ := hkp _ repo hrp
    exact ⟨repo', hrp', hty'.trans hty⟩
  exact { h with
    segment := hsg
    manifest := fun m hm => hen _ (h.manifest m hm)
    upload := fun u hu => hen _ (h.upload u hu)
    cachedManifest := fun m hm => hpr _ (h.cachedManifest m hm)
    cachedBlob := fun b hb => hpr _ (h.cachedBlob b hb)
    lease := fun l hl => hpr _ (h.lease l hl)
    absence := fun e he => hpr _ (h.absence e he)
    member := hgr.member }

theorem edges_restrict {key : μ → String × Digest} {manifests : Table key} (name : String)
    (h : ∀ k, (refs.lookup k).isSome = true ↔ manifests.Has k) (k : String × Digest) :
    ((refs.restrict fun k _ => !belongsTo k.1 name).lookup k).isSome = true ↔
      (manifests.restrict fun m => !belongsTo (key m).1 name).Has k := by
  rw [Option.isSome_iff_exists]
  constructor
  · rintro ⟨edges, hed⟩
    obtain ⟨hed, hkp⟩ := AList.lookup_restrict_eq_some.mp hed
    obtain ⟨m, hm⟩ := (h k).mp (by rw [hed]; rfl)
    refine ⟨m, lookup_restrict_eq_some.mpr ⟨hm, ?_⟩⟩
    rw [key_of_lookup hm]
    exact hkp
  · rintro ⟨m, hm⟩
    obtain ⟨hm, hkp⟩ := lookup_restrict_eq_some.mp hm
    obtain ⟨edges, hed⟩ := Option.isSome_iff_exists.mp ((h k).mpr ⟨m, hm⟩)
    refine ⟨edges, AList.lookup_restrict_eq_some.mpr ⟨hed, ?_⟩⟩
    rw [← key_of_lookup hm]
    exact hkp

theorem singleSegment_entityOf (name : String) : SingleSegment (entityOf name) := by
  unfold SingleSegment entityOf Reponame.prefixOf Strings.cut
  rw [String.toList_ofList]
  intro hmem
  simpa using mem_takeWhile_imp hmem

theorem belongsTo_entityOf (name : String) : belongsTo name (entityOf name) = true :=
  belongsTo_iff.mpr ((under_iff_entityOf (singleSegment_entityOf name)).mpr rfl)

variable {content : String}

section

variable (hkp : (!belongsTo content name) = true)
include hkp

/-- What is kept belongs to another entity, which is kept too. -/
theorem entityOf_ne : entityOf content ≠ name := by
  rintro rfl
  rw [belongsTo_entityOf] at hkp
  cases hkp

theorem entity_erase (h : s.Entity content) : (s.hosted.repos.erase name).Has (entityOf content) :=
  has_erase.mpr ⟨entityOf_ne hkp, h⟩

theorem proxyEntity_without (h : s.ProxyEntity content) : (s.without name).ProxyEntity content := by
  obtain ⟨repo, hrow, hty⟩ := h
  refine ⟨repo, ?_, hty⟩
  exact (lookup_erase ..).trans ((if_neg (entityOf_ne hkp)).trans hrow)

end

theorem Integrity.deleteRepository (h : s.Integrity) (hok : s.deleteRepository name = .ok s')
    (hgr : s'.GroupsSound) : s'.Integrity := by
  obtain ⟨-, rfl⟩ := deleteRepository_ok hok
  exact {
    segment := forall_erase _ h.segment
    tag := by
      intro t ht
      obtain ⟨ht, hkp⟩ := mem_values_restrict.mp ht
      obtain ⟨m, hm⟩ := h.tag t ht
      refine ⟨m, lookup_restrict_eq_some.mpr ⟨hm, ?_⟩⟩
      rw [show m.repository = t.repository from congrArg Prod.fst (key_of_lookup hm)]
      exact hkp
    edges := edges_restrict name h.edges
    manifest := forall_of_restrict h.manifest fun _ => entity_erase
    upload := forall_of_restrict h.upload fun _ => entity_erase
    cachedEdges := edges_restrict name h.cachedEdges
    cachedManifest := forall_of_restrict h.cachedManifest fun _ => proxyEntity_without
    cachedBlob := forall_of_restrict h.cachedBlob fun _ => proxyEntity_without
    lease := forall_of_restrict h.lease fun _ => proxyEntity_without
    absence := forall_of_restrict h.absence fun _ => proxyEntity_without
    member := hgr.member
    positions := hgr.positions }

/-! ## Hosted content -/

variable {hosted : Store}

theorem edges_insert {key : μ → String × Digest} {manifests : Table key} (m : μ)
    (edges : List ManifestRef) (h : ∀ k, (refs.lookup k).isSome = true ↔ manifests.Has k)
    (k : String × Digest) :
    ((refs.insert (key m) edges).lookup k).isSome = true ↔ (manifests.insert m).Has k := by
  rw [has_insert]
  by_cases hk : k = key m
  · subst hk
    simp
  · rw [AList.lookup_insert_ne hk, h k]
    simp [hk]

theorem edges_erase {key : μ → String × Digest} {manifests : Table key} (k' : String × Digest)
    (h : ∀ k, (refs.lookup k).isSome = true ↔ manifests.Has k) (k : String × Digest) :
    ((refs.erase k').lookup k).isSome = true ↔ (manifests.erase k').Has k := by
  rw [has_erase]
  by_cases hk : k = k'
  · subst hk
    simp
  · rw [AList.lookup_erase_ne hk, h k]
    simp [hk]

theorem Integrity.change (h : s.Integrity) (hch : ContentChange s s') : s'.Integrity := by
  cases hch with
  | credentials | blobs => exact { h with }
  | putManifest m refs hen => exact { h with
      tag := fun t ht => has_insert.mpr (.inr (h.tag t ht))
      edges := edges_insert m refs h.edges
      manifest := forall_insert h.manifest hen }
  | deleteManifest repo digest => exact { h with
      tag := by
        intro t ht
        obtain ⟨ht, hkp⟩ := mem_values_restrict.mp ht
        refine has_erase.mpr ⟨fun heq => ?_, h.tag t ht⟩
        simp [show t.repository = repo from congrArg Prod.fst heq,
          show t.digest = digest from congrArg Prod.snd heq] at hkp
      edges := edges_erase (repo, digest) h.edges
      manifest := forall_erase _ h.manifest }
  | tags tags hrw => exact { h with tag := fun t ht => (hrw t ht).elim (h.tag t) And.right }
  | uploads _ hrw => exact { h with upload := hrw h.upload }
  | putCachedManifest m refs hpr => exact { h with
      cachedEdges := edges_insert m refs h.cachedEdges
      cachedManifest := forall_insert h.cachedManifest hpr }
  | deleteCachedManifest repo digest => exact { h with
      cachedEdges := edges_erase (repo, digest) h.cachedEdges
      cachedManifest := forall_erase _ h.cachedManifest }
  | touchManifest m now hm => exact { h with
      cachedEdges := fun k => by
        refine (h.cachedEdges k).trans (has_insert.trans (or_iff_right_of_imp ?_)).symm
        rintro rfl
        exact has_iff_mem_values.mpr ⟨m, hm, rfl⟩
      cachedManifest := forall_insert h.cachedManifest (h.cachedManifest m hm) }
  | cachedBlobs _ hrw => exact { h with cachedBlob := hrw h.cachedBlob }
  | leases _ hrw => exact { h with lease := hrw h.lease }
  | absences _ hrw => exact { h with absence := hrw h.absence }

/-! ## Sequences of operations -/

def Op.Validated : Op → Prop
  | .createRepository repo => SingleSegment repo.name
  | _ => True

instance : DecidablePred Op.Validated := fun op => by
  cases op <;> dsimp only [Op.Validated] <;> infer_instance

theorem Integrity.apply (h : s.Integrity) {op : Op} (hop : op.Validated)
    (hok : s.apply quote op = .ok s') : s'.Integrity := by
  by_cases hcn : op.OnContent
  · exact apply_content_invariant (fun _ _ => Integrity.change) hcn hok h
  have hgr := h.groupsSound.apply hok
  cases op with
  | createRepository repo =>
    obtain ⟨r, hr, rfl⟩ := map_eq_ok.mp (mapError_eq_ok.mp hok)
    obtain ⟨-, -, rfl⟩ := Repositories.createRepository_eq_ok.mp hr
    exact h.withRepositories (keepsTypes_createRepository hr) (forall_insert h.segment hop) hgr
  | updateRepositoryConfig name config expectedVersion actor now =>
    obtain ⟨r, hr, rfl⟩ := map_eq_ok.mp hok
    obtain ⟨repo, hrow, -, rfl⟩ := Repositories.updateRepositoryConfig_eq_ok.mp hr
    exact h.withRepositories (keepsTypes_updateRepositoryConfig hr)
      (forall_insert h.segment (h.segment repo (mem_values_of_lookup hrow))) hgr
  | deleteRepository name => exact h.deleteRepository (mapError_eq_ok.mp hok) hgr
  | setGroupMembers group members =>
    obtain ⟨rfl, -⟩ := setGroupMembers_ok (mapError_eq_ok.mp hok)
    exact { h with
      member := hgr.member
      positions := hgr.positions }
  | _ => exact absurd trivial hcn

theorem Integrity.run (h : s.Integrity) {ops : List Op} (hops : ∀ op ∈ ops, op.Validated) :
    (s.run quote ops).Integrity := by
  induction ops generalizing s with
  | nil => exact h
  | cons op ops ih =>
    refine ih (s := s.after quote op) ?_ fun op' hop' => hops op' (mem_cons_of_mem _ hop')
    unfold after
    split
    · rename_i s' hok
      exact h.apply (hops op mem_cons_self) hok
    · exact h

/-! ## What deleting an entity takes -/

/-- The entity and exactly what is stored under it are gone. -/
structure Removes (s s' : Memory) (entity : String) : Prop where
  manifests : ∀ m, m ∈ s'.hosted.manifests.values ↔
    m ∈ s.hosted.manifests.values ∧ ¬Under entity m.repository
  edges : ∀ key edges, s'.hosted.refs.lookup key = some edges ↔
    s.hosted.refs.lookup key = some edges ∧ ¬Under entity key.1
  tags : ∀ t, t ∈ s'.hosted.tags.values ↔ t ∈ s.hosted.tags.values ∧ ¬Under entity t.repository
  uploads : ∀ u, u ∈ s'.hosted.uploads.values ↔
    u ∈ s.hosted.uploads.values ∧ ¬Under entity u.repository
  cachedManifests : ∀ m, m ∈ s'.cachedManifests.values ↔
    m ∈ s.cachedManifests.values ∧ ¬Under entity m.repository
  cachedEdges : ∀ key edges, s'.cachedRefs.lookup key = some edges ↔
    s.cachedRefs.lookup key = some edges ∧ ¬Under entity key.1
  cachedBlobs : ∀ b, b ∈ s'.cachedBlobs.values ↔
    b ∈ s.cachedBlobs.values ∧ ¬Under entity b.repository
  leases : ∀ l, l ∈ s'.tagLeases.values ↔ l ∈ s.tagLeases.values ∧ ¬Under entity l.repository
  absences : ∀ e, e ∈ s'.negativeCache.values ↔
    e ∈ s.negativeCache.values ∧ ¬Under entity e.repository
  /-- What is under the entity is what has it as its entity: nothing of another one. -/
  others : ∀ name, Under entity name ↔ entityOf name = entity
  repositories : ∀ name, s'.hosted.repos.lookup name =
    if name = entity then none else s.hosted.repos.lookup name
  members : ∀ group, s'.members group =
    if group = entity then [] else (s.members group).filter (·.repository ≠ entity)
  history : ∀ name, name ≠ entity → s'.configHistory.lookup name = s.configHistory.lookup name
  credentials : ∀ name, name ≠ entity →
    s'.proxyCredentials.lookup name = s.proxyCredentials.lookup name
  blobs : s'.hosted.blobs = s.hosted.blobs
  gcRuns : s'.hosted.gcRuns = s.hosted.gcRuns

theorem mem_restrict_belongsTo {κ ν : Type} [DecidableEq κ] {key : ν → κ} {t : Table key}
    {repository : ν → String} (v : ν) :
    v ∈ (t.restrict fun v => !belongsTo (repository v) entity).values ↔
      v ∈ t.values ∧ ¬Under entity (repository v) := by
  rw [mem_values_restrict, Bool.not_eq_true', ← Bool.not_eq_true, belongsTo_iff]

theorem lookup_restrict_belongsTo (key : String × Digest) (edges : List ManifestRef) :
    (refs.restrict fun key _ => !belongsTo key.1 entity).lookup key = some edges ↔
      refs.lookup key = some edges ∧ ¬Under entity key.1 := by
  rw [AList.lookup_restrict_eq_some, Bool.not_eq_true', ← Bool.not_eq_true, belongsTo_iff]

theorem Integrity.removes (h : s.Integrity) (hok : s.deleteRepository entity = .ok s') :
    Removes s s' entity := by
  obtain ⟨⟨deleted, hrow⟩, rfl⟩ := deleteRepository_ok hok
  have hsg : SingleSegment entity := by
    rw [← key_of_lookup hrow]
    exact h.segment deleted (mem_values_of_lookup hrow)
  exact {
    manifests := mem_restrict_belongsTo
    edges := lookup_restrict_belongsTo
    tags := mem_restrict_belongsTo
    uploads := mem_restrict_belongsTo
    cachedManifests := mem_restrict_belongsTo
    cachedEdges := lookup_restrict_belongsTo
    cachedBlobs := mem_restrict_belongsTo
    leases := mem_restrict_belongsTo
    absences := mem_restrict_belongsTo
    others := fun _ => under_iff_entityOf hsg
    repositories := fun name => lookup_erase entity name
    members := fun _ => rfl
    history := fun _ hne => AList.lookup_erase_ne hne
    credentials := fun _ hne => AList.lookup_erase_ne hne
    blobs := rfl
    gcRuns := rfl }

/-- **Content integrity.** After every sequence of operations with single-segment entity names no
content is orphaned, and deleting an entity removes exactly what is stored under it. -/
theorem content_integrity (quote : String → String) (ops : List Op)
    (hops : ∀ op ∈ ops, op.Validated) :
    (empty.run quote ops).Integrity ∧
      ∀ entity s', (empty.run quote ops).deleteRepository entity = .ok s' →
        Removes (empty.run quote ops) s' entity :=
  ⟨integrity_empty.run hops, fun _ _ hok => (integrity_empty.run hops).removes hok⟩

def twoTeams : List Op := [
  .createRepository ⟨"team", .hosted, [], 0, 0, 0⟩,
  .createRepository ⟨"team-a", .hosted, [], 0, 0, 0⟩,
  .putManifest ⟨"team/api", "d1", "", "", "", [], 0, 0⟩ [],
  .putManifest ⟨"team-a/api", "d1", "", "", "", [], 0, 0⟩ [],
  .putTag ⟨"team-a/api", "latest", "d1", 0, 0⟩]

theorem content_integrity_twoTeams :
    (∀ op ∈ twoTeams, op.Validated) ∧ (empty.run id twoTeams).Integrity ∧
      ∃ s', (empty.run id twoTeams).deleteRepository "team" = .ok s' ∧
        Removes (empty.run id twoTeams) s' "team" := by
  have hops : ∀ op ∈ twoTeams, op.Validated := by decide +kernel
  have hok : ((empty.run id twoTeams).deleteRepository "team").isOk = true := by decide +kernel
  obtain ⟨s', hs'⟩ := isOk_iff.mp hok
  obtain ⟨hin, hrm⟩ := content_integrity id twoTeams hops
  exact ⟨hops, hin, s', hs', hrm "team" s' hs'⟩

end Memory

end Trove.Meta
