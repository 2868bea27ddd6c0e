import Trove.Registry.Delete

/-!
# What a DELETE takes

The manifests a DELETE is to take are those attached to the digest, directly or through others. The
pre-check looks for indexes outside that tree, and `DeleteManifest` looks for any live index: an
index inside the tree that lists another member makes the cascade stop unless it is deleted first
(`delete_stops_halfway`).
-/

namespace Trove.Registry

open Meta Lib List

/-- The digest is the root or attached to it, directly or through others. -/
def InTree (s : Store) (name : String) (root : Digest) : Digest → Prop :=
  Relation.ReflTransGen (fun a b => b ∈ referrers s name a) root

def IndexedOutside (s : Store) (name : String) (root : Digest) : Prop :=
  ∃ member parent, InTree s name root member ∧ s.ListsChild name parent member ∧
    ¬ InTree s name root parent

/-- The second store is the first without the manifests of the repository that are gone, their edges
and the tags that point at them. -/
structure Removes (s s' : Store) (name : String) (gone : Digest → Prop) : Prop where
  manifests : ∀ k m, s'.manifests.lookup k = some m ↔
    s.manifests.lookup k = some m ∧ ¬ (k.1 = name ∧ gone k.2)
  refs : ∀ k edges, s'.refs.lookup k = some edges ↔
    s.refs.lookup k = some edges ∧ ¬ (k.1 = name ∧ gone k.2)
  tags : ∀ k tag, s'.tags.lookup k = some tag ↔
    s.tags.lookup k = some tag ∧ ¬ (k.1 = name ∧ gone tag.digest)
  repos : s'.repos = s.repos
  blobs : s'.blobs = s.blobs
  uploads : s'.uploads = s.uploads
  gcRuns : s'.gcRuns = s.gcRuns

/-! ## The tree and the pre-check -/

section Tree

variable {s : Store} {name : String} {root : Digest}

variable {digest member : Digest} {inTree : List Digest}

theorem mem_collectReferrerTree :
    digest ∈ (collectReferrerTree s name root).flatten ↔ InTree s name root digest :=
  mem_levels (nodup_storedDigests s name) (fun _ _ => storedDigests_of_mem_referrers)
    (Nat.lt_succ_of_le (length_storedDigests_le s name))

theorem InTree.stored (hrt : (s.manifests.lookup (name, root)).isSome)
    (h : InTree s name root digest) : (s.manifests.lookup (name, digest)).isSome := by
  rcases Relation.ReflTransGen.cases_tail h with rfl | ⟨subject, -, hmem⟩
  · exact hrt
  · exact mem_storedDigests.mp (storedDigests_of_mem_referrers hmem)

theorem refuseMember_eq_none :
    refuseMember s name inTree member = none ↔
      ∀ parent, s.ListsChild name parent member → parent ∈ inTree := by
  unfold refuseMember
  simp only [ite_eq_left_iff, reduceCtorEq, imp_false, not_not, filter_eq_nil_iff,
    decide_eq_true_eq, Store.mem_listIndexParents]

theorem refuseMember_eq_some {refusal : Response}
    (h : refuseMember s name inTree member = some refusal) :
    ∃ message, refusal = .refused 403 "DENIED" message := by
  unfold refuseMember at h
  simp only at h
  split_ifs at h
  exact ⟨_, (Option.some.inj h).symm⟩

theorem refuseIfIndexed_eq_none :
    refuseIfIndexed s name (collectReferrerTree s name root) = none ↔
      ¬ IndexedOutside s name root := by
  rw [refuseIfIndexed, List.findSome?_eq_none_iff]
  simp only [refuseMember_eq_none, mem_collectReferrerTree, IndexedOutside]
  push Not
  exact ⟨fun h d p hd hp => h d hd p hp, fun h d hd p hp => h d p hd hp⟩

theorem refuseIfIndexed_of_indexedOutside (h : IndexedOutside s name root) :
    ∃ message, refuseIfIndexed s name (collectReferrerTree s name root) =
      some (.refused 403 "DENIED" message) := by
  cases hrf : refuseIfIndexed s name (collectReferrerTree s name root) with
  | none => exact absurd h (refuseIfIndexed_eq_none.mp hrf)
  | some refusal =>
    obtain ⟨member, -, hmm⟩ := exists_of_findSome?_eq_some hrf
    obtain ⟨message, rfl⟩ := refuseMember_eq_some hmm
    exact ⟨message, rfl⟩

end Tree

/-! ## The loop -/

section Loop

variable {quote : String → String} {s s' s'' : Store} {name : String}

theorem Removes.refl (s : Store) (name : String) : Removes s s name fun _ => False := by
  constructor <;> simp

variable {gone gone' : Digest → Prop} {order : List Digest}

theorem Removes.trans (h : Removes s s' name gone) (h' : Removes s' s'' name gone') :
    Removes s s'' name fun d => gone d ∨ gone' d where
  manifests k m := by
    rw [h'.manifests, h.manifests]
    tauto
  refs k edges := by
    rw [h'.refs, h.refs]
    tauto
  tags k tag := by
    rw [h'.tags, h.tags]
    tauto
  repos := h'.repos.trans h.repos
  blobs := h'.blobs.trans h.blobs
  uploads := h'.uploads.trans h.uploads
  gcRuns := h'.gcRuns.trans h.gcRuns

theorem Removes.congr (h : Removes s s' name gone) (hiff : ∀ d, gone d ↔ gone' d) :
    Removes s s' name gone' := by
  obtain rfl : gone = gone' := funext fun d => propext (hiff d)
  exact h

theorem removes_deleteManifest {digest : Digest} (h : s.deleteManifest name digest = .ok s') :
    Removes s s' name (· = digest) := by
  obtain ⟨-, rfl⟩ := Store.deleteManifest_ok h
  constructor
  · rintro ⟨repo, d⟩ m
    simp only [Table.lookup_erase, Option.ite_none_left_eq_some, Prod.mk.injEq]
    tauto
  · rintro ⟨repo, d⟩ edges
    simp only [AList.lookup_erase_eq_some, ne_eq, Prod.mk.injEq]
    tauto
  · rintro ⟨repo, n⟩ tag
    have hkey : s.tags.lookup (repo, n) = some tag → tag.repository = repo := fun htag =>
      congrArg Prod.fst (Table.key_of_lookup htag)
    change (s.tags.rows.restrict _).lookup _ = _ ↔ s.tags.rows.lookup _ = _ ∧ _
    rw [AList.lookup_restrict_eq_some]
    simp only [Bool.not_eq_true', Bool.and_eq_false_iff, decide_eq_false_iff_not]
    constructor
    · rintro ⟨htag, hkp⟩
      rw [hkey htag] at hkp
      exact ⟨htag, by tauto⟩
    · rintro ⟨htag, hkp⟩
      rw [hkey htag]
      exact ⟨htag, by tauto⟩
  all_goals rfl

theorem Removes.listsChild (h : Removes s s' name gone) {parent child : Digest} :
    s'.ListsChild name parent child ↔ s.ListsChild name parent child ∧ ¬ gone parent := by
  constructor
  · rintro ⟨edges, hed, hls⟩
    obtain ⟨hed, hkp⟩ := (h.refs _ _).mp hed
    exact ⟨⟨edges, hed, hls⟩, fun hgn => hkp ⟨rfl, hgn⟩⟩
  · rintro ⟨⟨edges, hed, hls⟩, hkp⟩
    exact ⟨edges, (h.refs _ _).mpr ⟨hed, fun hgn => hkp hgn.2⟩, hls⟩

/-- Every member of the list that others of it list comes after them. -/
def ParentsFirst (s : Store) (name : String) (order : List Digest) : Prop :=
  order.Pairwise fun member later => ¬ s.ListsChild name later member

theorem deleteMembers_referenced {member : Digest}
    (hst : (s.manifests.lookup (name, member)).isSome) (hpr : s.liveParents name member ≠ []) :
    (deleteMembers quote name s (member :: order)).1 ≠ .accepted := by
  have hdel : s.deleteManifest name member =
      .error (.referenced "manifest" member (s.liveParents name member)) := by
    rw [Store.deleteManifest, if_neg (by simpa [Option.isSome_iff_ne_none] using hst), if_pos hpr]
  rw [deleteMembers, hdel]
  exact nofun

/-- The loop comes to its end exactly if the order takes parents first, and then the members are
gone. -/
theorem deleteMembers_accepted_iff (hnd : order.Nodup)
    (hst : ∀ d ∈ order, (s.manifests.lookup (name, d)).isSome)
    (hin : ∀ d ∈ order, ∀ parent, s.ListsChild name parent d → parent ∈ order) :
    ((deleteMembers quote name s order).1 = .accepted ↔ ParentsFirst s name order) ∧
      ((deleteMembers quote name s order).1 = .accepted →
        Removes s (deleteMembers quote name s order).2 name (· ∈ order)) := by
  induction order generalizing s with
  | nil =>
    exact ⟨⟨fun _ => .nil, fun _ => rfl⟩, fun _ => (Removes.refl s name).congr fun d => by simp⟩
  | cons member order ih =>
    obtain ⟨hnot, hnd⟩ := nodup_cons.mp hnd
    -- whoever lists the first member is itself, or comes later
    by_cases hpr : s.liveParents name member = []
    · obtain ⟨s', hdel⟩ : ∃ s', s.deleteManifest name member = .ok s' :=
        ⟨_, Store.deleteManifest_eq_ok (hst member mem_cons_self) hpr⟩
      have hrm := removes_deleteManifest hdel
      have hne : ∀ d ∈ order, d ≠ member := fun d hd heq => hnot (heq ▸ hd)
      have hfr : ParentsFirst s name (member :: order) ↔ ParentsFirst s' name order := by
        rw [ParentsFirst, pairwise_cons, and_iff_right fun later hlt hls => ?_]
        · refine List.Pairwise.iff_of_mem fun _ hlt => not_congr ?_
          exact (and_iff_left (hne _ hlt)).symm.trans hrm.listsChild.symm
        · exact not_mem_nil (hpr ▸ Store.mem_liveParents.mpr ⟨hne later hlt, hls⟩)
      obtain ⟨hiff, hgone⟩ := ih hnd
        (fun d hd => by
          obtain ⟨m, hm⟩ := Option.isSome_iff_exists.mp (hst d (mem_cons_of_mem _ hd))
          rw [(hrm.manifests (name, d) m).mpr ⟨hm, fun hgn => hne d hd hgn.2⟩]
          rfl)
        (fun d hd parent hls => by
          obtain ⟨hls, hne⟩ := hrm.listsChild.mp hls
          exact mem_of_ne_of_mem hne (hin d (mem_cons_of_mem _ hd) parent hls))
      rw [deleteMembers, hdel, hfr]
      exact ⟨hiff, fun hac => (hrm.trans (hgone hac)).congr fun d => mem_cons.symm⟩
    · have hrf : (deleteMembers quote name s (member :: order)).1 ≠ .accepted :=
        deleteMembers_referenced (hst member mem_cons_self) hpr
      refine ⟨⟨fun hac => absurd hac hrf, fun hfr => ?_⟩, fun hac => absurd hac hrf⟩
      obtain ⟨parent, hpn⟩ := exists_mem_of_ne_nil _ hpr
      obtain ⟨hne, hls⟩ := Store.mem_liveParents.mp hpn
      have hmem := hin member mem_cons_self parent hls
      exact absurd hls ((pairwise_cons.mp hfr).1 parent (mem_of_ne_of_mem hne hmem))

end Loop

/-! ## The whole request -/

section Request

variable {quote : String → String} {s : Store} {name : String} {digest : Digest}

theorem parseDigest_eq (h : Blob.validDigest digest = true) :
    Blob.parseDigest digest = .ok digest := by
  obtain ⟨d, hd⟩ := Blob.parseDigest_of_validDigest h
  obtain rfl := Blob.parseDigest_ok hd
  exact hd

theorem delete_eq (hhs : hostedRepo s name = .ok ()) (hvl : Blob.validDigest digest = true)
    (hst : (s.manifests.lookup (name, digest)).isSome) :
    delete quote s name digest =
      match refuseIfIndexed s name (collectReferrerTree s name digest) with
      | some refusal => (refusal, s)
      | none => deleteMembers quote name s (collectReferrerTree s name digest).reverse.flatten := by
  obtain ⟨m, hm⟩ := Option.isSome_iff_exists.mp hst
  have hget : s.getManifest name digest = .ok m := by simp only [Store.getManifest, hm]
  unfold delete
  cases hrf : refuseIfIndexed s name (collectReferrerTree s name digest)
  all_goals simp only [hhs, parseDigest_eq hvl, hget, hrf]

/-- **DELETE is all or nothing.** If an index outside the tree lists a member, the answer is a
refusal and nothing changed. If none does, the answer is 202 and exactly the tree, its edges and its
tags are gone, exactly where the cascade's order takes every index of the tree before the members it
lists. -/
theorem delete_all_or_nothing (hhosted : hostedRepo s name = .ok ())
    (hvalid : Blob.validDigest digest = true)
    (hstored : (s.manifests.lookup (name, digest)).isSome) :
    (¬ IndexedOutside s name digest →
      ((delete quote s name digest).1 = .accepted ∧
        Removes s (delete quote s name digest).2 name (InTree s name digest) ↔
      ParentsFirst s name (collectReferrerTree s name digest).reverse.flatten)) ∧
    (IndexedOutside s name digest →
      ∃ message, delete quote s name digest = (.refused 403 "DENIED" message, s)) := by
  rw [delete_eq hhosted hvalid hstored]
  constructor
  · intro hin
    rw [refuseIfIndexed_eq_none.mpr hin]
    have hmem : ∀ d, d ∈ (collectReferrerTree s name digest).reverse.flatten ↔
        InTree s name digest d := fun d => by
      rw [← mem_collectReferrerTree]
      simp only [mem_flatten, mem_reverse]
    have hnd : (collectReferrerTree s name digest).reverse.flatten.Nodup :=
      ((reverse_perm _).flatten.nodup_iff).mpr (nodup_levels _ _ _)
    have hpr : ∀ d ∈ (collectReferrerTree s name digest).reverse.flatten, ∀ parent,
        s.ListsChild name parent d →
          parent ∈ (collectReferrerTree s name digest).reverse.flatten := by
      intro d hd parent hls
      by_contra hot
      exact hin ⟨d, parent, (hmem d).mp hd, hls, fun h => hot ((hmem parent).mpr h)⟩
    obtain ⟨hiff, hgone⟩ := deleteMembers_accepted_iff hnd
      (fun d hd => ((hmem d).mp hd).stored hstored) hpr
    rw [← hiff]
    exact and_iff_left_of_imp fun hac => (hgone hac).congr hmem
  · intro hot
    obtain ⟨message, hrf⟩ := refuseIfIndexed_of_indexedOutside hot
    rw [hrf]
    exact ⟨message, rfl⟩

end Request

/-! ## A tree that lists its own members -/

instance (s : Store) (repo : String) (parent child : Digest) :
    Decidable (s.ListsChild repo parent child) :=
  decidable_of_iff ((s.refs.lookup (repo, parent)).any (Store.listsChild · child) = true) <| by
    rw [Option.any_eq_true]
    rfl

instance (s : Store) (name : String) (order : List Digest) :
    Decidable (ParentsFirst s name order) :=
  inferInstanceAs (Decidable (order.Pairwise _))

def attachedTo (subject digest : Digest) : Manifest where
  repository := "team/api"
  digest := digest
  mediaType := "application/vnd.oci.image.manifest.v1+json"
  artifactType := ""
  subject := subject
  payload := []
  size := 0
  createdAt := 1

def bundle (signature index : Digest) : Store :=
  { Store.empty with
    repos := Table.insert ⟨"team", .hosted, [], 1, 1, 1⟩ ∅
    manifests := ((((∅ : Table _).insert (attachedTo "" (Blob.repeated 'f'))).insert
      (attachedTo (Blob.repeated 'f') (Blob.repeated 'a'))).insert
      (attachedTo (Blob.repeated 'f') signature)).insert (attachedTo (Blob.repeated 'f') index)
    refs := AList.insert ("team/api", index) [⟨signature, .childManifest⟩] ∅ }

/-- The signature comes before the index that lists it: the bill of materials goes, the signature is
refused and the answer is 403. -/
theorem delete_stops_halfway :
    let s := bundle (Blob.repeated 'b') (Blob.repeated 'c')
    let after := delete id s "team/api" (Blob.repeated 'f')
    ¬ IndexedOutside s "team/api" (Blob.repeated 'f') ∧
      (∃ message, after.1 = .refused 403 "DENIED" message) ∧
      (s.manifests.lookup ("team/api", Blob.repeated 'a')).isSome ∧
      (after.2.manifests.lookup ("team/api", Blob.repeated 'a')).isNone ∧
      (after.2.manifests.lookup ("team/api", Blob.repeated 'f')).isSome := by
  refine ⟨refuseIfIndexed_eq_none.mp (by decide), ⟨_, rfl⟩, by decide, by decide, by decide⟩

/-- With the digests the other way round the index goes first and everything is deleted. -/
theorem delete_all_or_nothing_index_first :
    let s := bundle (Blob.repeated 'c') (Blob.repeated 'b')
    (delete id s "team/api" (Blob.repeated 'f')).1 = .accepted ∧
      Removes s (delete id s "team/api" (Blob.repeated 'f')).2 "team/api"
        (InTree s "team/api" (Blob.repeated 'f')) :=
  ((delete_all_or_nothing (by decide) (by decide) (by decide)).1
    (refuseIfIndexed_eq_none.mp (by decide))).mpr (by decide)

end Trove.Registry
