import Mathlib.Algebra.Ring.Int.Defs
import Mathlib.Data.Prod.Lex
import Mathlib.Algebra.BigOperators.Group.List.Basic
import Trove.Meta.Memory

/-!
# The in-memory metadata store: what can be evicted

The cached rows as eviction sees them: what a scope, a proxy entity or the whole cache, occupies,
and its rows least recently used first, manifests and blobs in one total order. A page is the
beginning of that list. Sizes are `int64` in the code; sums of them are sums of integers as long as
the cache holds less than `2 ^ 63` bytes.
-/

namespace Trove.Meta

open Lib List Table

def CachedKind.text : CachedKind → String
  | .manifest => "manifest"
  | .blob => "blob"
  | .unknown text => text

/-- One cached row. -/
structure CachedItem where
  repository : String
  digest : Digest
  kind : CachedKind
  size : ℤ
  lastAccessAt : Time
  deriving DecidableEq

def CachedManifest.item (m : CachedManifest) : CachedItem :=
  ⟨m.repository, m.digest, .manifest, m.size, m.lastAccessAt⟩

def CachedBlob.item (b : CachedBlob) : CachedItem :=
  ⟨b.repository, b.digest, .blob, b.size, b.lastAccessAt⟩

def CachedItem.lru (i : CachedItem) : Time ×ₗ String ×ₗ String ×ₗ String :=
  toLex (i.lastAccessAt, toLex (i.repository, toLex (i.digest, i.kind.text)))

/-- What a scope stores. -/
structure CacheUsage where
  manifestBytes : ℤ
  manifests : ℕ
  blobBytes : ℤ
  blobs : ℕ
  bytes : ℤ

/-- The content name is in the scope; the empty entity is the whole cache. -/
def inCacheScope (content entity : String) : Bool := entity = "" || belongsTo content entity

/-! ## A scope as a range of names -/

/-- The bounds `EntityContentRange` compares names with. -/
def entityContentRange (entity : List UInt8) : List UInt8 × List UInt8 :=
  (entity ++ Strings.bytes "/", entity ++ Strings.bytes "0")

/-- The name lies between the bounds. -/
def inContentRange (name entity : List UInt8) : Bool :=
  (entityContentRange entity).1 ≤ name && name < (entityContentRange entity).2

def cacheScope (entity name : String) : Bool :=
  entity = "" || (name = entity || inContentRange (Strings.bytes name) (Strings.bytes entity))

theorem range_iff_prefix {lo hi : UInt8} (h : hi.toNat = lo.toNat + 1) (e n : List UInt8) :
    (e ++ [lo] ≤ n ∧ n < e ++ [hi]) ↔ e ++ [lo] <+: n := by
  induction e generalizing n with
  | nil =>
    cases n with
    | nil => simp [← List.not_lt]
    | cons x rest =>
      have hle := List.nil_le rest
      have hlt : ¬rest < [] := List.not_lt.mpr hle
      simp only [List.nil_append, List.cons_le_cons_iff, List.cons_lt_cons_iff, hle, hlt, and_true,
        and_false, or_false, List.cons_prefix_cons, List.nil_prefix, UInt8.lt_iff_toNat_lt,
        ← UInt8.toNat_inj]
      omega
  | cons b e ih =>
    cases n with
    | nil => simp [← List.not_lt]
    | cons x rest =>
      rw [List.cons_append, List.cons_append, List.cons_le_cons_iff, List.cons_lt_cons_iff,
        List.cons_prefix_cons, ← ih rest]
      constructor
      · rintro ⟨hlo | ⟨rfl, hlo⟩, hhi | ⟨heq, hhi⟩⟩
        · exact absurd hlo (UInt8.lt_asymm hhi)
        · exact absurd (heq ▸ hlo) (UInt8.lt_irrefl _)
        · exact absurd hhi (UInt8.lt_irrefl _)
        · exact ⟨rfl, hlo, hhi⟩
      · rintro ⟨rfl, hlo, hhi⟩
        exact ⟨.inr ⟨rfl, hlo⟩, .inr ⟨rfl, hhi⟩⟩

/-- **Content ranges.** The names between the bounds are those that go on from the entity with a
slash, so the database selects the rows the in-memory store has in the scope. -/
theorem contentRange_exact :
    (∀ entity name : List UInt8,
      inContentRange name entity = true ↔ entity ++ Strings.bytes "/" <+: name) ∧
    ∀ entity name : String,
      (name = entity || inContentRange (Strings.bytes name) (Strings.bytes entity)) =
          belongsTo name entity ∧
        cacheScope entity name = inCacheScope name entity := by
  have hrn : ∀ entity name : List UInt8,
      inContentRange name entity = true ↔ entity ++ Strings.bytes "/" <+: name := by
    intro entity name
    rw [inContentRange, Bool.and_eq_true, decide_eq_true_eq, decide_eq_true_eq]
    exact range_iff_prefix (by decide) entity name
  have hnm : ∀ entity name : String,
      (name = entity || inContentRange (Strings.bytes name) (Strings.bytes entity)) =
        belongsTo name entity := by
    intro entity name
    rw [Bool.eq_iff_iff, belongsTo, Bool.or_eq_true, Bool.or_eq_true, hrn, ← Strings.bytes_append,
      Strings.bytes_prefix_iff, Strings.hasPrefix_iff, decide_eq_true_eq, beq_iff_eq]
  refine ⟨hrn, fun entity name => ⟨hnm entity name, ?_⟩⟩
  rw [cacheScope, hnm, inCacheScope]

namespace Memory

variable (s : Memory) (entity : String)

def scopeManifests : List CachedManifest :=
  s.cachedManifests.values.filter fun m => inCacheScope m.repository entity

def scopeBlobs : List CachedBlob :=
  s.cachedBlobs.values.filter fun b => inCacheScope b.repository entity

def cachedUsage : CacheUsage :=
  let manifestBytes := ((s.scopeManifests entity).map CachedManifest.size).sum
  let blobBytes := ((s.scopeBlobs entity).map CachedBlob.size).sum
  { manifestBytes := manifestBytes
    manifests := (s.scopeManifests entity).length
    blobBytes := blobBytes
    blobs := (s.scopeBlobs entity).length
    bytes := manifestBytes + blobBytes }

def evictable : List CachedItem :=
  sortBy CachedItem.lru ((s.scopeManifests entity).map CachedManifest.item ++
    (s.scopeBlobs entity).map CachedBlob.item)

/-- The first of them. -/
def listEvictable (limit : ℤ) : List CachedItem :=
  if limit ≤ 0 then [] else (s.evictable entity).take limit.toNat

/-! ## The order -/

variable {s entity} {item : CachedItem}

theorem mem_evictable :
    item ∈ s.evictable entity ↔
      (∃ m ∈ s.cachedManifests.values, inCacheScope m.repository entity = true ∧ m.item = item) ∨
        ∃ b ∈ s.cachedBlobs.values, inCacheScope b.repository entity = true ∧ b.item = item := by
  simp only [evictable, mem_sortBy, mem_append, mem_map, scopeManifests, scopeBlobs,
    mem_filter, and_assoc]

theorem lru_injOn {i j : CachedItem} (h : i.lru = j.lru) :
    i.repository = j.repository ∧ i.digest = j.digest ∧ i.kind.text = j.kind.text := by
  simp only [CachedItem.lru, toLex_inj, Prod.mk.injEq] at h
  exact h.2

theorem nodup_lru (s : Memory) (entity : String) :
    (((s.scopeManifests entity).map CachedManifest.item ++
      (s.scopeBlobs entity).map CachedBlob.item).map CachedItem.lru).Nodup := by
  have hmn := s.cachedManifests.nodup_map_key_values.sublist
    ((filter_sublist (p := fun m : CachedManifest => inCacheScope m.repository entity)).map _)
  have hbl := s.cachedBlobs.nodup_map_key_values.sublist
    ((filter_sublist (p := fun b : CachedBlob => inCacheScope b.repository entity)).map _)
  rw [map_append, map_map, map_map, nodup_append]
  refine ⟨?_, ?_, ?_⟩
  · rw [List.Nodup, pairwise_map] at hmn ⊢
    refine hmn.imp fun {m m'} hne heq => hne ?_
    obtain ⟨hrp, hdg, -⟩ := lru_injOn heq
    exact Prod.ext hrp hdg
  · rw [List.Nodup, pairwise_map] at hbl ⊢
    refine hbl.imp fun {b b'} hne heq => hne ?_
    obtain ⟨hrp, hdg, -⟩ := lru_injOn heq
    exact Prod.ext hrp hdg
  · intro k hk k' hk' heq
    obtain ⟨m, -, rfl⟩ := mem_map.mp hk
    obtain ⟨b, -, rfl⟩ := mem_map.mp hk'
    obtain ⟨-, -, hkn⟩ := lru_injOn heq
    exact absurd (show "manifest" = "blob" from hkn) (by decide)

theorem increasing_evictable (s : Memory) (entity : String) :
    Increasing CachedItem.lru (s.evictable entity) :=
  increasing_sortBy (s.nodup_lru entity)

theorem cachedUsage_bytes (s : Memory) (entity : String) :
    (s.cachedUsage entity).bytes = ((s.evictable entity).map CachedItem.size).sum := by
  rw [evictable, ((perm_sortBy _).map CachedItem.size).sum_eq, map_append, sum_append,
    map_map, map_map]
  rfl

theorem listEvictable_eq_take {limit : ℤ} (hlm : 1 ≤ limit) :
    s.listEvictable entity limit = (s.evictable entity).take limit.toNat :=
  if_neg (by omega)

/-! ## Deleting the first row -/

/-- Two stores with the same rows outside a scope, and the same of everything that is not cached
content. -/
structure SameOutside (entity : String) (s s' : Memory) : Prop where
  hosted : s'.hosted = s.hosted
  members : s'.members = s.members
  configHistory : s'.configHistory = s.configHistory
  proxyCredentials : s'.proxyCredentials = s.proxyCredentials
  tagLeases : s'.tagLeases = s.tagLeases
  negativeCache : s'.negativeCache = s.negativeCache
  manifests : ∀ m : CachedManifest, inCacheScope m.repository entity = false →
    (m ∈ s'.cachedManifests.values ↔ m ∈ s.cachedManifests.values)
  refs : ∀ repo digest, inCacheScope repo entity = false →
    s'.cachedRefs.lookup (repo, digest) = s.cachedRefs.lookup (repo, digest)
  blobs : ∀ b : CachedBlob, inCacheScope b.repository entity = false →
    (b ∈ s'.cachedBlobs.values ↔ b ∈ s.cachedBlobs.values)

theorem SameOutside.refl (entity : String) (s : Memory) : SameOutside entity s s :=
  ⟨rfl, rfl, rfl, rfl, rfl, rfl, fun _ _ => Iff.rfl, fun _ _ _ => rfl, fun _ _ => Iff.rfl⟩

theorem SameOutside.trans {s₁ s₂ s₃ : Memory} (h : SameOutside entity s₁ s₂)
    (h' : SameOutside entity s₂ s₃) : SameOutside entity s₁ s₃ where
  hosted := h'.hosted.trans h.hosted
  members := h'.members.trans h.members
  configHistory := h'.configHistory.trans h.configHistory
  proxyCredentials := h'.proxyCredentials.trans h.proxyCredentials
  tagLeases := h'.tagLeases.trans h.tagLeases
  negativeCache := h'.negativeCache.trans h.negativeCache
  manifests := fun m hm => (h'.manifests m hm).trans (h.manifests m hm)
  refs := fun repo digest hrp => (h'.refs repo digest hrp).trans (h.refs repo digest hrp)
  blobs := fun b hb => (h'.blobs b hb).trans (h.blobs b hb)

theorem deleteCachedManifest_item {m : CachedManifest} (hm : m ∈ s.cachedManifests.values)
    (hsc : inCacheScope m.repository entity = true) :
    ∃ s', s.deleteCachedManifest m.repository m.digest = .ok s' ∧ SameOutside entity s s' ∧
      s'.cachedBlobs = s.cachedBlobs ∧
      ∀ i, i ∈ s'.evictable entity ↔ i ∈ s.evictable entity ∧ i ≠ m.item := by
  have hrow := mem_values.mp hm
  refine ⟨_, if_neg (by simp [hrow]), ?_, rfl, fun i => ?_⟩
  · refine ⟨rfl, rfl, rfl, rfl, rfl, rfl, fun m' hm' => ?_, fun repo digest hrp => ?_,
      fun _ _ => Iff.rfl⟩
    · rw [mem_values_erase]
      refine and_iff_right fun hkey => ?_
      rw [show m'.repository = m.repository from congrArg Prod.fst hkey, hsc] at hm'
      cases hm'
    · refine AList.lookup_erase_ne fun hkey => ?_
      rw [show repo = m.repository from congrArg Prod.fst hkey, hsc] at hrp
      cases hrp
  · rw [mem_evictable, mem_evictable]
    simp only [mem_values_erase]
    constructor
    · rintro (⟨m', ⟨hne, hm'⟩, hsc', rfl⟩ | ⟨b, hb, hsc', rfl⟩)
      · refine ⟨.inl ⟨m', hm', hsc', rfl⟩, fun heq => hne ?_⟩
        exact Prod.ext (congrArg CachedItem.repository heq) (congrArg CachedItem.digest heq)
      · refine ⟨.inr ⟨b, hb, hsc', rfl⟩, fun heq => ?_⟩
        cases congrArg CachedItem.kind heq
    · rintro ⟨⟨m', hm', hsc', rfl⟩ | hbl, hne⟩
      · refine .inl ⟨m', ⟨fun hkey => hne ?_, hm'⟩, hsc', rfl⟩
        rw [eq_of_lookup hrow hm' hkey]
      · exact .inr hbl

theorem deleteCachedBlob_item {b : CachedBlob} (hb : b ∈ s.cachedBlobs.values)
    (hsc : inCacheScope b.repository entity = true) :
    ∃ s', s.deleteCachedBlob b.repository b.digest = .ok (s'.blobClaims b.digest, s') ∧
      SameOutside entity s s' ∧
      ∀ i, i ∈ s'.evictable entity ↔ i ∈ s.evictable entity ∧ i ≠ b.item := by
  have hrow := mem_values.mp hb
  refine ⟨{ s with cachedBlobs := s.cachedBlobs.erase (b.repository, b.digest) },
    if_neg (by simp [hrow]), ?_, fun i => ?_⟩
  · refine ⟨rfl, rfl, rfl, rfl, rfl, rfl, fun _ _ => Iff.rfl, fun _ _ _ => rfl, fun b' hb' => ?_⟩
    rw [mem_values_erase]
    refine and_iff_right fun hkey => ?_
    rw [show b'.repository = b.repository from congrArg Prod.fst hkey, hsc] at hb'
    cases hb'
  · rw [mem_evictable, mem_evictable]
    simp only [mem_values_erase]
    constructor
    · rintro (⟨m, hm, hsc', rfl⟩ | ⟨b', ⟨hne, hb'⟩, hsc', rfl⟩)
      · refine ⟨.inl ⟨m, hm, hsc', rfl⟩, fun heq => ?_⟩
        cases congrArg CachedItem.kind heq
      · refine ⟨.inr ⟨b', hb', hsc', rfl⟩, fun heq => hne ?_⟩
        exact Prod.ext (congrArg CachedItem.repository heq) (congrArg CachedItem.digest heq)
    · rintro ⟨hmn | ⟨b', hb', hsc', rfl⟩, hne⟩
      · exact .inl hmn
      · refine .inr ⟨b', ⟨fun hkey => hne ?_, hb'⟩, hsc', rfl⟩
        rw [eq_of_lookup hrow hb' hkey]

theorem evictable_tail {s' : Memory} {rest : List CachedItem}
    (hhd : s.evictable entity = item :: rest)
    (hmem : ∀ i, i ∈ s'.evictable entity ↔ i ∈ s.evictable entity ∧ i ≠ item) :
    s'.evictable entity = rest := by
  have hin := s.increasing_evictable entity
  rw [hhd] at hin hmem
  refine (s'.increasing_evictable entity).eq_of_mem_iff (pairwise_cons.mp hin).2
    fun i => ?_
  rw [hmem, mem_cons]
  constructor
  · rintro ⟨rfl | hi, hne⟩
    · exact absurd rfl hne
    · exact hi
  · intro hi
    refine ⟨.inr hi, ?_⟩
    rintro rfl
    exact absurd ((pairwise_cons.mp hin).1 i hi) (lt_irrefl _)

end Memory

end Trove.Meta
