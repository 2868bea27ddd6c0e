import Trove.Meta.Content

/-!
# The lineage of a configuration

The configurations stored for a repository since it was last created, oldest first: the row holds
the last of them, and the history the others. A `Lineage` says so for every name at once, without
rows, versions or revisions.
-/

namespace Trove.Meta

open Lib List Function Table

variable {quote : String → String}

namespace Memory

def listConfigHistory (s : Memory) (name : String) : List ConfigRevision :=
  (s.configHistory.lookup name).getD []

end Memory

/-! ## The abstract lineage -/

/-- The configurations stored for each name since it was last created; none when there is no such
repository. -/
abbrev Lineage := String → List (List UInt8)

def Lineage.step (l : Lineage) : Memory.Op → Lineage
  | .createRepository repo =>
    if repo.name ≠ "" ∧ l repo.name = [] then update l repo.name [repo.config] else l
  | .updateRepositoryConfig name config expectedVersion _ _ =>
    if l name ≠ [] ∧ ((l name).length : ℤ) = expectedVersion then
      update l name (l name ++ [config])
    else l
  | .deleteRepository name => update l name []
  | _ => l

theorem Lineage.step_createRepository (l : Lineage) (repo : Repository) :
    l.step (.createRepository repo) =
      if repo.name ≠ "" ∧ l repo.name = [] then update l repo.name [repo.config] else l :=
  rfl

theorem Lineage.step_updateRepositoryConfig (l : Lineage) (name : String) (config : List UInt8)
    (expectedVersion : ℤ) (actor : String) (now : Time) :
    l.step (.updateRepositoryConfig name config expectedVersion actor now) =
      if l name ≠ [] ∧ ((l name).length : ℤ) = expectedVersion then
        update l name (l name ++ [config])
      else l :=
  rfl

variable {op : Memory.Op}

theorem Lineage.step_onContent (l : Lineage) (hop : op.OnContent) : l.step op = l := by
  cases op with
  | createRepository | updateRepositoryConfig | deleteRepository | setGroupMembers => cases hop
  | _ => rfl

/-- The lineages after the operations. -/
def Lineage.run (ops : List Memory.Op) : Lineage := ops.foldl Lineage.step fun _ => []

theorem Lineage.run_concat (ops : List Memory.Op) (op : Memory.Op) :
    Lineage.run (ops ++ [op]) = (Lineage.run ops).step op := by
  simp [Lineage.run]

theorem Lineage.step_of_ne_delete (l : Lineage) {name : String}
    (hop : op ≠ .deleteRepository name) :
    l.step op name = l name ∨ ∃ config, l.step op name = l name ++ [config] := by
  cases op with
  | createRepository repo =>
    rw [step_createRepository]
    split_ifs with hnew
    · by_cases hnm : name = repo.name
      · subst hnm
        exact .inr ⟨repo.config, by rw [update_self, hnew.2, nil_append]⟩
      · exact .inl (update_of_ne hnm _ l)
    · exact .inl rfl
  | updateRepositoryConfig updated config expectedVersion actor now =>
    rw [step_updateRepositoryConfig]
    split_ifs
    · by_cases hnm : name = updated
      · subst hnm
        exact .inr ⟨config, update_self ..⟩
      · exact .inl (update_of_ne hnm _ l)
    · exact .inl rfl
  | deleteRepository deleted =>
    have hnm : name ≠ deleted := by
      rintro rfl
      exact hop rfl
    exact .inl (update_of_ne hnm _ l)
  | _ => exact .inl rfl

theorem Lineage.step_of_eq_nil {l : Lineage} {name : String} (hnil : l name = [])
    (hop : ∀ repo, op = .createRepository repo → repo.name ≠ name) : l.step op name = [] := by
  cases op with
  | createRepository repo =>
    rw [step_createRepository]
    split_ifs
    · rw [update_of_ne (hop repo rfl).symm, hnil]
    · exact hnil
  | updateRepositoryConfig updated config expectedVersion actor now =>
    rw [step_updateRepositoryConfig]
    split_ifs with hcr
    · have hnm : name ≠ updated := by
        rintro rfl
        exact hcr.1 hnil
      rw [update_of_ne hnm, hnil]
    · exact hnil
  | deleteRepository deleted =>
    rw [step]
    by_cases hnm : name = deleted
    · rw [hnm, update_self]
    · rw [update_of_ne hnm, hnil]
  | _ => exact hnil

/-! ## The store follows the lineage -/

/-- What the store keeps of one name: the row has the last configuration, the history the ones
before it, numbered from 1. -/
def Lineage.Kept (configs : List (List UInt8)) (history : List ConfigRevision) :
    Option Repository → Prop
  | none => configs = [] ∧ history = []
  | some repo =>
    configs = history.map ConfigRevision.config ++ [repo.config] ∧
      repo.configVersion = configs.length ∧
      history.map ConfigRevision.version = (List.range history.length).map fun i : ℕ => (i : ℤ) + 1

def Memory.Follows (s : Memory) (l : Lineage) : Prop :=
  ∀ name, Lineage.Kept (l name) (s.listConfigHistory name) (s.hosted.repos.lookup name)

namespace Memory.Follows

variable {s s' : Memory} {l : Lineage}

theorem empty : Memory.empty.Follows fun _ => [] := fun _ => ⟨rfl, rfl⟩

theorem eq_nil_iff (h : s.Follows l) (name : String) :
    l name = [] ↔ s.hosted.repos.lookup name = none := by
  have hkp := h name
  cases hrow : s.hosted.repos.lookup name with
  | none =>
    rw [hrow] at hkp
    simpa using hkp.1
  | some repo =>
    rw [hrow] at hkp
    simp [hkp.1]

variable {name : String}

section

variable (h : s.Follows l)
include h

variable {repo : Repository} {r : Repositories}

theorem configVersion_eq (hrow : s.hosted.repos.lookup name = some repo) :
    repo.configVersion = (l name).length := by
  have hkp := h name
  rw [hrow] at hkp
  exact hkp.2.1

theorem update {configs : List (List UInt8)} {history : List ConfigRevision}
    {row : Option Repository} (hkp : Lineage.Kept configs history row)
    (hrow : s'.hosted.repos.lookup name = row) (hhs : s'.listConfigHistory name = history)
    (hot : ∀ other ≠ name, s'.hosted.repos.lookup other = s.hosted.repos.lookup other ∧
      s'.configHistory.lookup other = s.configHistory.lookup other) :
    s'.Follows (update l name configs) := by
  intro other
  by_cases hnm : other = name
  · subst hnm
    rw [update_self, hrow, hhs]
    exact hkp
  · obtain ⟨hrow, hhs⟩ := hot other hnm
    rw [update_of_ne hnm, listConfigHistory, hhs, hrow]
    exact h other

theorem of_repositories_eq (hrw : s'.repositories = s.repositories) : s'.Follows l := by
  intro name
  have hrp : s'.hosted.repos = s.hosted.repos := congrArg Repositories.repos hrw
  have hhs : s'.configHistory = s.configHistory := congrArg Repositories.configHistory hrw
  rw [listConfigHistory, hrp, hhs]
  exact h name

theorem createRepository (hok : s.repositories.createRepository repo = .ok r) :
    (s.withRepositories r).Follows (l.step (.createRepository repo)) := by
  obtain ⟨hnm, hfr, rfl⟩ := Repositories.createRepository_eq_ok.mp hok
  have hkp := h repo.name
  rw [show s.hosted.repos.lookup repo.name = none from hfr] at hkp
  obtain ⟨hnil, hhs⟩ := hkp
  rw [Lineage.step_createRepository, if_pos ⟨hnm, hnil⟩]
  refine h.update ?_ ((lookup_insert ..).trans (if_pos rfl)) hhs
    fun other hot => ⟨(lookup_insert ..).trans (if_neg hot), rfl⟩
  exact ⟨rfl, rfl, rfl⟩

theorem updateRepositoryConfig {config : List UInt8} {expectedVersion : ℤ} {actor : String}
    {now : Time}
    (hok : s.repositories.updateRepositoryConfig name config expectedVersion actor now = .ok r) :
    (s.withRepositories r).Follows
      (l.step (.updateRepositoryConfig name config expectedVersion actor now)) := by
  obtain ⟨repo, hrow, hvr, rfl⟩ := Repositories.updateRepositoryConfig_eq_ok.mp hok
  replace hrow : s.hosted.repos.lookup name = some repo := hrow
  have hnm : repo.name = name := key_of_lookup hrow
  have hkp := h name
  rw [hrow] at hkp
  obtain ⟨hcn, hln, hvs⟩ := hkp
  have hct : repo.configVersion = (s.listConfigHistory name).length + 1 := by
    simp [hln, hcn]
  rw [Lineage.step_updateRepositoryConfig,
    if_pos ⟨by simp [hcn], hln.symm.trans hvr⟩]
  have hhs : (s.configHistory.insert name (s.listConfigHistory name ++
      [⟨name, repo.configVersion, repo.config, actor, now⟩])).lookup name = some _ :=
    AList.lookup_insert _
  refine h.update ?_ ((lookup_insert ..).trans (if_pos hnm.symm))
    (congrArg (Option.getD · []) hhs)
    fun other hot => ⟨?_, AList.lookup_insert_ne hot⟩
  · refine ⟨?_, ?_, ?_⟩
    · simp [hcn]
    · simp [hln]
    · simp [range_succ, hvs, hct]
  · exact (lookup_insert ..).trans (if_neg (hnm ▸ hot))

theorem deleteRepository (hok : s.deleteRepository name = .ok s') :
    s'.Follows (l.step (.deleteRepository name)) := by
  obtain ⟨-, rfl⟩ := deleteRepository_ok hok
  have hhs : (s.configHistory.erase name).lookup name = none := AList.lookup_erase _ _
  have hkp : Lineage.Kept [] [] none := ⟨rfl, rfl⟩
  exact h.update hkp ((lookup_erase ..).trans (if_pos rfl))
    (congrArg (Option.getD · []) hhs)
    fun other hot => ⟨(lookup_erase ..).trans (if_neg hot), AList.lookup_erase_ne hot⟩

theorem apply {op : Op} (hok : s.apply quote op = .ok s') : s'.Follows (l.step op) := by
  by_cases hop : op.OnContent
  · rw [l.step_onContent hop]
    exact h.of_repositories_eq (apply_onContent hop hok).1
  cases op with
  | createRepository repo =>
    obtain ⟨r, hr, rfl⟩ := map_eq_ok.mp (mapError_eq_ok.mp hok)
    exact h.createRepository hr
  | updateRepositoryConfig name config expectedVersion actor now =>
    obtain ⟨r, hr, rfl⟩ := map_eq_ok.mp hok
    exact h.updateRepositoryConfig hr
  | deleteRepository name => exact h.deleteRepository (mapError_eq_ok.mp hok)
  | setGroupMembers group members =>
    obtain ⟨rfl, -⟩ := setGroupMembers_ok (mapError_eq_ok.mp hok)
    exact h
  | _ => exact absurd trivial hop

theorem apply_error {op : Op} {err : UpdateError}
    (herr : s.apply quote op = .error err) : l.step op = l := by
  cases op with
  | createRepository repo =>
    rw [Lineage.step_createRepository]
    refine if_neg fun ⟨hnm, hnil⟩ => ?_
    have hok : s.repositories.createRepository repo = .ok _ :=
      Repositories.createRepository_eq_ok.mpr ⟨hnm, (h.eq_nil_iff repo.name).mp hnil, rfl⟩
    rw [Memory.apply, hok] at herr
    cases herr
  | updateRepositoryConfig name config expectedVersion actor now =>
    rw [Lineage.step_updateRepositoryConfig]
    refine if_neg fun ⟨hnil, hvr⟩ => ?_
    obtain ⟨repo, hrow⟩ := Option.ne_none_iff_exists'.mp (mt (h.eq_nil_iff name).mpr hnil)
    have hok : s.repositories.updateRepositoryConfig name config expectedVersion actor now =
      .ok _ :=
      Repositories.updateRepositoryConfig_eq_ok.mpr
        ⟨repo, hrow, (h.configVersion_eq hrow).trans hvr, rfl⟩
    rw [Memory.apply, hok] at herr
    cases herr
  | deleteRepository name =>
    have hfr : s.hosted.repos.lookup name = none := by
      by_contra hrow
      rw [Memory.apply, Memory.deleteRepository, if_neg (by simpa using hrow)] at herr
      cases herr
    rw [Lineage.step, update_eq_self_iff]
    exact ((h.eq_nil_iff name).mpr hfr).symm
  | _ => rfl

theorem after (op : Op) : (s.after quote op).Follows (l.step op) := by
  unfold Memory.after
  split
  · rename_i s' hok
    exact h.apply hok
  · rename_i err herr
    rw [h.apply_error herr]
    exact h

end

theorem run (ops : List Op) : (Memory.empty.run quote ops).Follows (Lineage.run ops) := by
  induction ops using List.reverseRecOn with
  | nil => exact empty
  | append_singleton ops op ih =>
    rw [Lineage.run_concat, Memory.run_concat]
    exact ih.after op

end Memory.Follows

/-! ## The configurations a run stored -/

namespace Memory

/-- At some moment of the operations, and since the repository's latest creation, its row was at the
version and held the configuration. -/
def StoredAt (quote : String → String) (ops : List Op) (name : String) (version : ℤ)
    (config : List UInt8) : Prop :=
  ∃ before after repo, ops = before ++ after ∧ .deleteRepository name ∉ after ∧
    (Memory.empty.run quote before).hosted.repos.lookup name = some repo ∧
    repo.configVersion = version ∧ repo.config = config

variable {ops : List Op} {name : String} {config : List UInt8}

theorem storedAt_concat {op : Op} {version : ℤ} :
    StoredAt quote (ops ++ [op]) name version config ↔
      (op ≠ .deleteRepository name ∧ StoredAt quote ops name version config) ∨
        ∃ repo, (Memory.empty.run quote (ops ++ [op])).hosted.repos.lookup name = some repo ∧
          repo.configVersion = version ∧ repo.config = config := by
  constructor
  · rintro ⟨before, after, repo, hsp, hkp, hrow⟩
    rcases eq_nil_or_concat after with rfl | ⟨rest, last, rfl⟩
    · rw [append_nil] at hsp
      exact .inr ⟨repo, hsp ▸ hrow⟩
    · rw [concat_eq_append, ← append_assoc] at hsp
      obtain ⟨rfl, hls⟩ := append_inj' hsp rfl
      obtain rfl : op = last := by simpa using hls
      rw [concat_eq_append, mem_append, not_or] at hkp
      refine .inl ⟨?_, before, rest, repo, rfl, hkp.1, hrow⟩
      rintro rfl
      exact hkp.2 mem_cons_self
  · rintro (⟨hop, before, after, repo, rfl, hkp, hrow⟩ | ⟨repo, hrow⟩)
    · refine ⟨before, after ++ [op], repo, by simp, ?_, hrow⟩
      rw [mem_append, not_or]
      exact ⟨hkp, by simpa using Ne.symm hop⟩
    · exact ⟨ops ++ [op], [], repo, by simp, by simp, hrow⟩

theorem row_iff_lineage {i : ℕ} :
    (∃ repo, (Memory.empty.run quote ops).hosted.repos.lookup name = some repo ∧
      repo.configVersion = (i : ℤ) + 1 ∧ repo.config = config) ↔
      (Lineage.run ops name).length = i + 1 ∧ (Lineage.run ops name)[i]? = some config := by
  have hfl : (Memory.empty.run quote ops).Follows (Lineage.run ops) := .run ops
  have hkp := hfl name
  cases hrow : (Memory.empty.run quote ops).hosted.repos.lookup name with
  | none =>
    rw [hrow] at hkp
    simp [hkp.1]
  | some repo =>
    rw [hrow] at hkp
    obtain ⟨hcn, hvr, -⟩ := hkp
    have hls : ∀ i, (Lineage.run ops name).length = i + 1 →
        (Lineage.run ops name)[i]? = some repo.config := by
      intro i hi
      have hhs : i = ((Memory.empty.run quote ops).listConfigHistory name).length := by
        simpa [hcn] using hi.symm
      rw [hcn, hhs]
      simp
    constructor
    · rintro ⟨_, hrp, hi, rfl⟩
      cases hrp
      have hln : (Lineage.run ops name).length = i + 1 := by omega
      exact ⟨hln, hls i hln⟩
    · rintro ⟨hln, hcf⟩
      rw [hls i hln] at hcf
      exact ⟨repo, rfl, by omega, Option.some.inj hcf⟩

theorem storedAt_iff_lineage (ops : List Op) {i : ℕ} :
    StoredAt quote ops name ((i : ℤ) + 1) config ↔ (Lineage.run ops name)[i]? = some config := by
  induction ops using List.reverseRecOn with
  | nil =>
    refine iff_of_false ?_ (by simp [Lineage.run])
    rintro ⟨before, after, repo, hsp, -, hrow, -⟩
    obtain ⟨rfl, rfl⟩ := append_eq_nil_iff.mp hsp.symm
    cases hrow
  | append_singleton ops op ih =>
    rw [storedAt_concat, ih, row_iff_lineage, Lineage.run_concat]
    by_cases hop : op = .deleteRepository name
    · subst hop
      simp [Lineage.step]
    · rcases (Lineage.run ops).step_of_ne_delete hop with hsm | ⟨added, had⟩
      · rw [hsm]
        exact ⟨fun h => h.elim And.right And.right, fun h => .inl ⟨hop, h⟩⟩
      · rw [had, length_append, length_singleton]
        -- the configuration added is at the end, and the others are where they were
        by_cases hi : i < (Lineage.run ops name).length
        · rw [List.getElem?_append_left hi]
          exact ⟨fun h => h.elim And.right And.right, fun h => .inl ⟨hop, h⟩⟩
        · have hnn : (Lineage.run ops name)[i]? = none := List.getElem?_eq_none (not_lt.mp hi)
          rw [List.getElem?_append_right (not_lt.mp hi), hnn]
          constructor
          · rintro (⟨-, h⟩ | ⟨-, h⟩)
            · cases h
            · exact h
          · intro h
            have hlt := (List.getElem?_eq_some_iff.mp h).1
            rw [length_singleton] at hlt
            exact .inr ⟨by omega, h⟩

theorem mem_listConfigHistory {revision : ConfigRevision}
    (hmem : revision ∈ (Memory.empty.run quote ops).listConfigHistory name) :
    ∃ i : ℕ, revision.version = (i : ℤ) + 1 ∧
      (Lineage.run ops name)[i]? = some revision.config := by
  have hfl : (Memory.empty.run quote ops).Follows (Lineage.run ops) := .run ops
  have hkp := hfl name
  obtain ⟨i, hi, hrv⟩ := mem_iff_getElem.mp hmem
  cases hrow : (Memory.empty.run quote ops).hosted.repos.lookup name with
  | none =>
    rw [hrow] at hkp
    rw [hkp.2] at hmem
    cases hmem
  | some repo =>
    rw [hrow] at hkp
    obtain ⟨hcn, -, hvr⟩ := hkp
    refine ⟨i, ?_, ?_⟩
    · have hvs := congrArg (·[i]?) hvr
      simpa [hi, hrv] using hvs
    · rw [hcn, List.getElem?_append_left (by simpa using hi)]
      simp [hi, hrv]

/-! ## Updates against a version -/

theorem updateRepositoryConfig_isOk_iff {s : Memory} {expectedVersion : ℤ} {actor : String}
    {now : Time} :
    (s.apply quote (.updateRepositoryConfig name config expectedVersion actor now)).isOk = true ↔
      ∃ repo, s.hosted.repos.lookup name = some repo ∧ repo.configVersion = expectedVersion := by
  rw [isOk_iff]
  constructor
  · rintro ⟨s', hok⟩
    obtain ⟨r, hr, -⟩ := map_eq_ok.mp hok
    obtain ⟨repo, hrow, hvr, -⟩ := Repositories.updateRepositoryConfig_eq_ok.mp hr
    exact ⟨repo, hrow, hvr⟩
  · rintro ⟨repo, hrow, hvr⟩
    exact ⟨_, map_eq_ok.mpr
      ⟨_, Repositories.updateRepositoryConfig_eq_ok.mpr ⟨repo, hrow, hvr, rfl⟩, rfl⟩⟩

theorem lineage_grows {n : ℕ} {before : List Op} (mid : List Op)
    (hbf : Lineage.run before name = [] ∨ n ≤ (Lineage.run before name).length)
    (hmid : ∀ repo, .createRepository repo ∈ mid → repo.name ≠ name) :
    Lineage.run (before ++ mid) name = [] ∨ n ≤ (Lineage.run (before ++ mid) name).length := by
  induction mid using List.reverseRecOn with
  | nil => simpa using hbf
  | append_singleton mid op ih =>
    rw [← append_assoc, Lineage.run_concat]
    replace ih := ih fun repo hrp => hmid repo (mem_append_left _ hrp)
    by_cases hdl : op = .deleteRepository name
    · subst hdl
      exact .inl (by simp [Lineage.step])
    · rcases ih with hnil | hgr
      · refine .inl (Lineage.step_of_eq_nil hnil fun repo hrp => hmid repo ?_)
        exact mem_append_right _ (hrp ▸ mem_cons_self)
      · refine .inr ?_
        rcases (Lineage.run (before ++ mid)).step_of_ne_delete hdl with hsm | ⟨added, had⟩
        · rwa [hsm]
        · rw [had, length_append]
          omega

/-- **Lineage.** After any operations: an update succeeds if and only if the repository exists and
is at the expected version, and one that fails changes nothing; the history of a repository has one
revision for each version before the current one, in order, each with the configuration stored at
its version since the latest creation. Of two updates against one version, both succeed only if the
repository was created again in between. -/
theorem config_lineage (quote : String → String) (ops : List Op) (name : String) :
    let s := Memory.empty.run quote ops
    (∀ config expectedVersion actor now,
      ((s.apply quote (.updateRepositoryConfig name config expectedVersion actor now)).isOk = true ↔
        ∃ repo, s.hosted.repos.lookup name = some repo ∧ repo.configVersion = expectedVersion) ∧
      ((s.apply quote
        (.updateRepositoryConfig name config expectedVersion actor now)).isOk = false →
        s.after quote (.updateRepositoryConfig name config expectedVersion actor now) = s)) ∧
    (∀ repo, s.hosted.repos.lookup name = some repo →
      (s.listConfigHistory name).map ConfigRevision.version =
        (List.range (repo.configVersion - 1).toNat).map (fun i : ℕ => (i : ℤ) + 1) ∧
      1 ≤ repo.configVersion) ∧
    (∀ revision ∈ s.listConfigHistory name, ∀ config,
      StoredAt quote ops name revision.version config ↔ config = revision.config) ∧
    (∀ mid version config config' actor actor' now now',
      let update := Op.updateRepositoryConfig name config version actor now
      (s.apply quote update).isOk = true →
      ((Memory.empty.run quote (ops ++ update :: mid)).apply quote
        (.updateRepositoryConfig name config' version actor' now')).isOk = true →
      ∃ repo, .createRepository repo ∈ mid ∧ repo.name = name) := by
  intro s
  have hfl : s.Follows (Lineage.run ops) := .run ops
  refine ⟨fun config expectedVersion actor now => ⟨updateRepositoryConfig_isOk_iff, ?_⟩, ?_, ?_, ?_⟩
  · intro hfs
    unfold after
    split
    · rename_i s' hok
      rw [hok] at hfs
      cases hfs
    · rfl
  · intro repo hrow
    have hkp := hfl name
    rw [hrow] at hkp
    obtain ⟨hcn, hvr, hvs⟩ := hkp
    have hct : repo.configVersion = (s.listConfigHistory name).length + 1 := by
      simp [hvr, hcn]
    rw [hvs, hct]
    simp
  · intro revision hrv config
    obtain ⟨i, hvr, hcf⟩ := mem_listConfigHistory hrv
    rw [hvr, storedAt_iff_lineage, hcf, Option.some.injEq, eq_comm]
  · intro mid version config config' actor actor' now now' update hfr hsc
    by_contra hnn
    push Not at hnn
    obtain ⟨repo, hrow, hvr⟩ := updateRepositoryConfig_isOk_iff.mp hfr
    obtain ⟨repo', hrow', hvr'⟩ := updateRepositoryConfig_isOk_iff.mp hsc
    have hln := hfl.configVersion_eq hrow
    have hln' := (Follows.run _).configVersion_eq hrow'
    -- after the first update the lineage is longer than the version, and it stays so
    have hup : Lineage.run (ops ++ [update]) name = Lineage.run ops name ++ [config] := by
      have hes := mt (hfl.eq_nil_iff name).mp (by simp [hrow])
      rw [Lineage.run_concat, Lineage.step_updateRepositoryConfig,
        if_pos ⟨hes, by omega⟩, update_self]
    have hgr := lineage_grows (n := version.toNat + 1) mid
      (.inr (by rw [hup, length_append, length_singleton]; omega)) hnn
    rw [append_assoc, singleton_append] at hgr
    rcases hgr with hnil | hgr
    · rw [(Follows.run _).eq_nil_iff, hrow'] at hnil
      cases hnil
    · omega

end Memory

end Trove.Meta
