import Trove.Lib.Page
import Trove.Meta.Content
import Trove.Meta.Events
import Trove.Meta.Identity
import Trove.Meta.Visibility

/-!
# Listings

The paged listings of the in-memory store: repositories, the tags of a name, the names that hold
content, subjects, and events. Each collects the rows the visibility allows and hands them out a
page at a time; the cursor is the last key of the page before.
-/

namespace Trove.Meta

open Lib List Table

/-- What of a listing a caller asks for. -/
structure ListOptions where
  visibility : Visibility
  limit : ℤ
  cursor : String

def defaultPageSize : ℤ := 100
def maxPageSize : ℤ := 1000

namespace ListOptions

def effectiveLimit (o : ListOptions) : ℤ :=
  if o.limit ≤ 0 then defaultPageSize
  else if o.limit > maxPageSize then maxPageSize
  else o.limit

theorem effectiveLimit_pos (o : ListOptions) : 0 < o.effectiveLimit := by
  unfold effectiveLimit defaultPageSize maxPageSize
  split_ifs <;> omega

/-- The loop every listing ends with: the rows beyond the cursor in key order, up to the limit. -/
def page {α : Type} (o : ListOptions) (key : α → String) (rows : List α) : Page α String :=
  pageAt key "" o.effectiveLimit.toNat o.cursor rows

end ListOptions

namespace Memory

variable (s : Memory)

def listRepositories (opts : ListOptions) : Except Error (Page Repository String) :=
  .ok (opts.page Repository.name
    (s.hosted.repos.values.filter fun repo => opts.visibility.allows repo.name))

def holdsHosted (name : String) : Bool := s.hosted.manifests.values.any (·.repository = name)

def knownContentName (name : String) : Bool :=
  s.hosted.repoExists (entityOf name) && (name = entityOf name || s.holdsHosted name)

/-- A name nobody knows and one the caller may not see answer alike. -/
def listTags (repo : String) (opts : ListOptions) : Except Error (Page Tag String) :=
  if !s.knownContentName repo || !opts.visibility.allows repo then
    .error (.notFound "repository" repo)
  else .ok (opts.page Tag.name (s.hosted.tags.values.filter (·.repository = repo)))

def contentNames : List String :=
  (s.hosted.manifests.values.map Manifest.repository ++
    s.cachedManifests.values.map CachedManifest.repository).dedup

def listContentNames (opts : ListOptions) : Except Error (Page String String) :=
  .ok (opts.page id (s.contentNames.filter opts.visibility.allows))

end Memory

/-- `ListSubjects`. The visibility is not asked for. -/
def Identity.listSubjects (s : Identity) (opts : ListOptions) :
    Except Error (Page Subject String) :=
  .ok (opts.page Subject.name s.subjects.values)

/-- A system event is seen only by a view of everything. -/
def visibleEvent (v : Visibility) (e : EventRow) : Bool :=
  if e.repository = "" then v.isUnrestricted else v.allows e.repository

def Events.listEvents (events : Events) (opts : ListOptions) :
    Except Error (Page EventRow String) :=
  .ok (opts.page EventRow.id (events.values.filter (visibleEvent opts.visibility)))

/-! ## Keys are not empty -/

namespace Memory

variable {quote : String → String} {s s' : Memory}

/-- Rows have names to be listed by, and content has its entity. -/
structure Named (s : Memory) : Prop where
  repository : ∀ repo ∈ s.hosted.repos.values, repo.name ≠ ""
  tag : ∀ t ∈ s.hosted.tags.values, t.name ≠ ""
  manifest : ∀ m ∈ s.hosted.manifests.values, s.Entity m.repository
  cachedManifest : ∀ m ∈ s.cachedManifests.values, s.Entity m.repository

theorem Named.empty : Memory.empty.Named := by
  constructor <;> simp [Memory.empty, Store.empty]

theorem Named.withRepositories (h : s.Named) {r : Repositories}
    (hnm : ∀ repo ∈ r.repos.values, repo.name ≠ "")
    (hgr : ∀ name, s.hosted.repos.Has name → r.repos.Has name) : (s.withRepositories r).Named where
  repository := hnm
  tag := h.tag
  manifest := fun m hm => hgr _ (h.manifest m hm)
  cachedManifest := fun m hm => hgr _ (h.cachedManifest m hm)

theorem Named.deleteRepository (h : s.Named) {name : String}
    (hok : s.deleteRepository name = .ok s') : s'.Named := by
  obtain ⟨-, rfl⟩ := deleteRepository_ok hok
  exact {
    repository := forall_erase _ h.repository
    tag := forall_restrict _ h.tag
    manifest := forall_of_restrict h.manifest fun _ => entity_erase
    cachedManifest := forall_of_restrict h.cachedManifest fun _ => entity_erase }

theorem Named.change (h : s.Named) (hch : ContentChange s s') : s'.Named := by
  cases hch with
  | putManifest m refs hen => exact { h with manifest := forall_insert h.manifest hen }
  | deleteManifest repo digest => exact { h with
      tag := forall_restrict _ h.tag
      manifest := forall_erase _ h.manifest }
  | tags tags hrw => exact { h with tag := fun t ht => (hrw t ht).elim (h.tag t) And.left }
  | putCachedManifest m refs hpr => exact { h with
      cachedManifest := forall_insert h.cachedManifest (hpr.imp fun _ => And.left) }
  | deleteCachedManifest repo digest => exact { h with
      cachedManifest := forall_erase _ h.cachedManifest }
  | touchManifest m now hm => exact { h with
      cachedManifest := forall_insert h.cachedManifest (h.cachedManifest m hm) }
  | _ => exact { h with }

theorem Named.apply (h : s.Named) {op : Op} (hok : s.apply quote op = .ok s') : s'.Named := by
  by_cases hop : op.OnContent
  · exact apply_content_invariant (fun _ _ => Named.change) hop hok h
  cases op with
  | createRepository repo =>
    obtain ⟨r, hr, rfl⟩ := map_eq_ok.mp (mapError_eq_ok.mp hok)
    obtain ⟨hnm, -, rfl⟩ := Repositories.createRepository_eq_ok.mp hr
    exact h.withRepositories (forall_insert h.repository hnm)
      fun name hhas => has_insert.mpr (.inr hhas)
  | updateRepositoryConfig name config expectedVersion actor now =>
    obtain ⟨r, hr, rfl⟩ := map_eq_ok.mp hok
    obtain ⟨repo, hrow, -, rfl⟩ := Repositories.updateRepositoryConfig_eq_ok.mp hr
    exact h.withRepositories
      (forall_insert h.repository (h.repository repo (mem_values_of_lookup hrow)))
      fun name hhas => has_insert.mpr (.inr hhas)
  | deleteRepository name => exact h.deleteRepository (mapError_eq_ok.mp hok)
  | setGroupMembers group members =>
    obtain ⟨rfl, -⟩ := setGroupMembers_ok (mapError_eq_ok.mp hok)
    exact { h with }
  | _ => exact absurd trivial hop

theorem Named.run (ops : List Op) : (Memory.empty.run quote ops).Named :=
  run_invariant Named.empty (fun _ _ _ h => h.apply) ops

theorem Named.entity_ne_empty (h : s.Named) {name : String} (hen : s.Entity name) :
    name ≠ "" := by
  rintro rfl
  obtain ⟨repo, hrow⟩ := hen
  exact h.repository repo (mem_values_of_lookup hrow) (key_of_lookup hrow)

end Memory

/-! ## Walking a listing -/

theorem empty_lt {name : String} (h : name ≠ "") : "" < name := by
  rw [String.lt_iff_toList_lt]
  cases hls : name.toList with
  | nil => exact absurd (String.toList_eq_nil_iff.mp hls) h
  | cons c cs => exact nil_lt_cons c cs

theorem empty_le (name : String) : "" ≤ name := by
  by_cases h : name = ""
  · rw [h]
  · exact (empty_lt h).le

/-- Following the next cursor from the empty one comes to a last page: the pages list the visible
rows, each once and in ascending order, and none is longer than the effective limit. -/
def Paginates {α : Type} (list : ListOptions → Except Error (Page α String)) (key : α → String)
    (v : Visibility) (limit : ℤ) (visible : α → Prop) : Prop :=
  ∃ fuel pages,
    walk (fun cursor => list ⟨v, limit, cursor⟩) "" fuel "" = some (.ok pages) ∧
    (∀ r, r ∈ pages.flatMap Page.rows ↔ visible r) ∧
    Increasing key (pages.flatMap Page.rows) ∧
    ∀ p ∈ pages, (p.rows.length : ℤ) ≤ (ListOptions.mk v limit "").effectiveLimit

theorem paginates_of_page {α : Type} {list : ListOptions → Except Error (Page α String)}
    {key : α → String} {v : Visibility} {limit : ℤ} {rows : List α}
    (hls : ∀ cursor, list ⟨v, limit, cursor⟩ = .ok ((ListOptions.mk v limit cursor).page key rows))
    (hky : (rows.map key).Nodup) (hne : ∀ r ∈ rows, key r ≠ "") :
    Paginates list key v limit (· ∈ rows) := by
  have hlm := (ListOptions.mk v limit "").effectiveLimit_pos
  obtain ⟨pages, hwl, hrw, hsz⟩ :=
    walk_eq (Int.pos_iff_toNat_pos.mp hlm) hky (fun r hr => empty_lt (hne r hr)) hls
      (Nat.lt_succ_self _)
  refine ⟨_, pages, hwl, fun r => ?_, ?_, fun p hp => ?_⟩
  · rw [hrw, mem_sortBy]
  · rw [hrw]
    exact increasing_sortBy hky
  · have hsi := hsz p hp
    omega

namespace Memory

variable {quote : String → String} {s : Memory}

theorem nodup_tag_names (s : Memory) (repo : String) :
    ((s.hosted.tags.values.filter (·.repository = repo)).map Tag.name).Nodup := by
  have hky := s.hosted.tags.nodup_map_key_values.sublist
    ((filter_sublist (p := fun t : Tag => t.repository = repo)).map _)
  rw [List.Nodup, pairwise_map] at hky ⊢
  refine hky.imp_of_mem fun {t t'} ht ht' hne hnm => hne ?_
  have hrp : t.repository = repo := by simpa using (mem_filter.mp ht).2
  have hrp' : t'.repository = repo := by simpa using (mem_filter.mp ht').2
  rw [hrp, hrp', hnm]

theorem mem_contentNames {name : String} :
    name ∈ s.contentNames ↔ (∃ m ∈ s.hosted.manifests.values, m.repository = name) ∨
      ∃ m ∈ s.cachedManifests.values, m.repository = name := by
  rw [contentNames, mem_dedup, mem_append, mem_map, mem_map]

theorem holdsHosted_iff {name : String} :
    s.holdsHosted name = true ↔ ∃ m ∈ s.hosted.manifests.values, m.repository = name := by
  simp [holdsHosted]

theorem Named.knownContentName_iff (h : s.Named) {name : String} :
    s.knownContentName name = true ↔
      (name = entityOf name ∧ s.hosted.repos.Has name) ∨ s.holdsHosted name = true := by
  unfold knownContentName
  rw [Bool.and_eq_true, Bool.or_eq_true, decide_eq_true_eq, Store.repoExists,
    ← has_iff_isSome]
  constructor
  · rintro ⟨hen, hnm | hhl⟩
    · exact .inl ⟨hnm, hnm ▸ hen⟩
    · exact .inr hhl
  · rintro (⟨hnm, hhas⟩ | hhl)
    · exact ⟨hnm ▸ hhas, .inl hnm⟩
    · obtain ⟨m, hm, rfl⟩ := holdsHosted_iff.mp hhl
      exact ⟨h.manifest m hm, .inr hhl⟩

/-- The two stores have the same rows of what the visibility allows. -/
structure AgreeOn (v : Visibility) (s t : Memory) : Prop where
  repositories : ∀ repo : Repository, v.allows repo.name = true →
    (repo ∈ s.hosted.repos.values ↔ repo ∈ t.hosted.repos.values)
  manifests : ∀ m : Manifest, v.allows m.repository = true →
    (m ∈ s.hosted.manifests.values ↔ m ∈ t.hosted.manifests.values)
  cachedManifests : ∀ m : CachedManifest, v.allows m.repository = true →
    (m ∈ s.cachedManifests.values ↔ m ∈ t.cachedManifests.values)
  tags : ∀ t' : Tag, v.allows t'.repository = true →
    (t' ∈ s.hosted.tags.values ↔ t' ∈ t.hosted.tags.values)

section Agree

variable {t : Memory} {v : Visibility}

section

variable (h : AgreeOn v s t)
include h

theorem AgreeOn.knownContentName (hs : s.Named) (ht : t.Named) {name : String}
    (hv : v.allows name = true) : s.knownContentName name = t.knownContentName name := by
  have hhas : s.hosted.repos.Has name ↔ t.hosted.repos.Has name := by
    rw [has_iff_mem_values, has_iff_mem_values]
    refine exists_congr fun repo => and_congr_left ?_
    rintro rfl
    exact h.repositories repo hv
  have hhl : s.holdsHosted name = true ↔ t.holdsHosted name = true := by
    rw [holdsHosted_iff, holdsHosted_iff]
    refine exists_congr fun m => and_congr_left ?_
    rintro rfl
    exact h.manifests m hv
  rw [Bool.eq_iff_iff, hs.knownContentName_iff, ht.knownContentName_iff, hhas, hhl]

theorem AgreeOn.mem_contentNames {name : String} (hv : v.allows name = true) :
    name ∈ s.contentNames ↔ name ∈ t.contentNames := by
  rw [Memory.mem_contentNames, Memory.mem_contentNames]
  refine or_congr (exists_congr fun m => and_congr_left ?_)
    (exists_congr fun m => and_congr_left ?_)
  · rintro rfl
    exact h.manifests m hv
  · rintro rfl
    exact h.cachedManifests m hv

theorem AgreeOn.listRepositories (limit : ℤ) (cursor : String) :
    s.listRepositories ⟨v, limit, cursor⟩ = t.listRepositories ⟨v, limit, cursor⟩ := by
  refine congrArg Except.ok (pageAt_congr ?_ ?_ (fun repo => ?_) _ _ _)
  · exact s.hosted.repos.nodup_map_key_values.sublist (filter_sublist.map _)
  · exact t.hosted.repos.nodup_map_key_values.sublist (filter_sublist.map _)
  · rw [mem_filter, mem_filter]
    exact and_congr_left (h.repositories repo)

theorem AgreeOn.listTags (hs : s.Named) (ht : t.Named) (repo : String)
    (limit : ℤ) (cursor : String) :
    s.listTags repo ⟨v, limit, cursor⟩ = t.listTags repo ⟨v, limit, cursor⟩ := by
  unfold Memory.listTags
  by_cases hv : v.allows repo = true
  · rw [h.knownContentName hs ht hv]
    split_ifs
    · rfl
    · refine congrArg Except.ok (pageAt_congr (s.nodup_tag_names repo) (t.nodup_tag_names repo)
        (fun tag => ?_) _ _ _)
      rw [mem_filter, mem_filter, decide_eq_true_eq]
      refine and_congr_left ?_
      rintro rfl
      exact h.tags tag hv
  · simp [hv]

theorem AgreeOn.listContentNames (limit : ℤ) (cursor : String) :
    s.listContentNames ⟨v, limit, cursor⟩ = t.listContentNames ⟨v, limit, cursor⟩ := by
  refine congrArg Except.ok (pageAt_congr ?_ ?_ (fun name => ?_) _ _ _)
  · rw [map_id]
    exact (nodup_dedup _).filter _
  · rw [map_id]
    exact (nodup_dedup _).filter _
  · rw [mem_filter, mem_filter]
    exact and_congr_left fun hv => h.mem_contentNames hv

end

end Agree

/-! ## Each listing -/

theorem Named.listRepositories (h : s.Named) (v : Visibility) (limit : ℤ) :
    Paginates s.listRepositories Repository.name v limit
      (· ∈ s.hosted.repos.values.filter fun repo => v.allows repo.name) :=
  paginates_of_page (fun _ => rfl)
    (s.hosted.repos.nodup_map_key_values.sublist (filter_sublist.map _))
    fun repo hrp => h.repository repo (mem_of_mem_filter hrp)

theorem Named.listTags (h : s.Named) {repo : String} {v : Visibility}
    (hkn : s.knownContentName repo = true) (hv : v.allows repo = true) (limit : ℤ) :
    Paginates (s.listTags repo) Tag.name v limit
      (· ∈ s.hosted.tags.values.filter (·.repository = repo)) := by
  refine paginates_of_page (fun cursor => ?_) (s.nodup_tag_names repo)
    fun tag htag => h.tag tag (mem_of_mem_filter htag)
  rw [Memory.listTags, hkn, hv]
  rfl

theorem Named.listContentNames (h : s.Named) (v : Visibility) (limit : ℤ) :
    Paginates s.listContentNames id v limit (· ∈ s.contentNames.filter v.allows) := by
  refine paginates_of_page (fun _ => rfl) ?_ fun name hnm => ?_
  · rw [map_id]
    exact (nodup_dedup _).filter _
  · rcases mem_contentNames.mp (mem_of_mem_filter hnm) with ⟨m, hm, rfl⟩ | ⟨m, hm, rfl⟩
    · exact h.entity_ne_empty (h.manifest m hm)
    · exact h.entity_ne_empty (h.cachedManifest m hm)

end Memory

theorem Events.listEvents_paginates {events : Events} (h : ∀ e ∈ events.values, e.id ≠ "")
    (v : Visibility) (limit : ℤ) :
    Paginates events.listEvents EventRow.id v limit (· ∈ events.values.filter (visibleEvent v)) :=
  paginates_of_page (fun _ => rfl)
    (events.nodup_map_key_values.sublist (filter_sublist.map _))
    fun e he => h e (mem_of_mem_filter he)

theorem Events.listEvents_congr {events events' : Events} {v : Visibility}
    (h : ∀ e, visibleEvent v e = true → (e ∈ events.values ↔ e ∈ events'.values)) (limit : ℤ)
    (cursor : String) :
    events.listEvents ⟨v, limit, cursor⟩ = events'.listEvents ⟨v, limit, cursor⟩ := by
  refine congrArg Except.ok (pageAt_congr ?_ ?_ (fun e => ?_) _ _ _)
  · exact events.nodup_map_key_values.sublist (filter_sublist.map _)
  · exact events'.nodup_map_key_values.sublist (filter_sublist.map _)
  · rw [mem_filter, mem_filter]
    exact and_congr_left (h e)

/-- **Pagination.** In every state of the store, for every visibility and limit: the four listings
come to an end and list exactly the visible rows, each once and in ascending order, no page longer
than the effective limit; the tags of a name not known or not visible are not found, under every
cursor. Two stores that agree on the visible rows answer alike. -/
theorem pagination_exact (quote : String → String) (ops ops' : List Memory.Op)
    (txs txs' : List (Tx → Except Error Tx)) (v : Visibility) (limit : ℤ) :
    let s := Memory.empty.run quote ops
    let t := Memory.empty.run quote ops'
    Paginates s.listRepositories Repository.name v limit
        (fun repo => repo ∈ s.hosted.repos.values ∧ v.allows repo.name = true) ∧
      (∀ repo, s.knownContentName repo = true → v.allows repo = true →
        Paginates (s.listTags repo) Tag.name v limit
          (fun tag => tag ∈ s.hosted.tags.values ∧ tag.repository = repo)) ∧
      (∀ repo, ¬(s.knownContentName repo = true ∧ v.allows repo = true) → ∀ cursor,
        s.listTags repo ⟨v, limit, cursor⟩ = .error (.notFound "repository" repo)) ∧
      Paginates s.listContentNames id v limit
        (fun name => ((∃ m ∈ s.hosted.manifests.values, m.repository = name) ∨
          ∃ m ∈ s.cachedManifests.values, m.repository = name) ∧ v.allows name = true) ∧
      Paginates (Events.run txs).listEvents EventRow.id v limit
        (fun e => e ∈ (Events.run txs).values ∧ visibleEvent v e = true) ∧
      (s.AgreeOn v t → ∀ cursor,
        s.listRepositories ⟨v, limit, cursor⟩ = t.listRepositories ⟨v, limit, cursor⟩ ∧
        (∀ repo, s.listTags repo ⟨v, limit, cursor⟩ = t.listTags repo ⟨v, limit, cursor⟩) ∧
        s.listContentNames ⟨v, limit, cursor⟩ = t.listContentNames ⟨v, limit, cursor⟩) ∧
      ((∀ e, visibleEvent v e = true →
          (e ∈ (Events.run txs).values ↔ e ∈ (Events.run txs').values)) → ∀ cursor,
        (Events.run txs).listEvents ⟨v, limit, cursor⟩ =
          (Events.run txs').listEvents ⟨v, limit, cursor⟩) := by
  intro s t
  have hs : s.Named := .run ops
  have ht : t.Named := .run ops'
  refine ⟨?_, fun repo hkn hv => ?_, fun repo hhd cursor => ?_, ?_, ?_, ?_, ?_⟩
  · simpa only [mem_filter] using hs.listRepositories v limit
  · simpa only [mem_filter, decide_eq_true_eq] using hs.listTags hkn hv limit
  · unfold Memory.listTags
    rw [not_and_or, Bool.not_eq_true, Bool.not_eq_true] at hhd
    rw [if_pos]
    simpa using hhd
  · simpa only [mem_filter, Memory.mem_contentNames] using hs.listContentNames v limit
  · simpa only [mem_filter] using
      Events.listEvents_paginates (Events.id_ne_empty_run txs) v limit
  · intro hag cursor
    exact ⟨hag.listRepositories limit cursor, fun repo => hag.listTags hs ht repo limit cursor,
      hag.listContentNames limit cursor⟩
  · intro hag cursor
    exact Events.listEvents_congr hag limit cursor

end Trove.Meta
