import Trove.Meta.Store

/-!
# The in-memory metadata store: repository rows

Creating a repository, replacing its configuration under a version check, and deleting it. The rows
and the history of superseded configurations are all these calls read.
-/

namespace Trove.Meta

open Lib

/-- A superseded configuration. -/
structure ConfigRevision where
  repository : String
  version : ℤ
  config : List UInt8
  actor : String
  at_ : Time

structure Repositories where
  repos : Table Repository.name
  configHistory : GoMap String (List ConfigRevision)

def Repositories.empty : Repositories := ⟨∅, ∅⟩

inductive UpdateError
  | store (err : Error)
  | stale (name : String) (version expected : ℤ)

namespace Repositories

variable (s : Repositories)

/-- A new row starts at version 1. -/
def createRepository (repo : Repository) : Except Error Repositories :=
  if repo.name = "" then .error (.invalid "name" "must not be empty")
  else if (s.repos.lookup repo.name).isSome then .error (.conflict "repository" repo.name)
  else .ok { s with repos := s.repos.insert { repo with configVersion := 1 } }

def getRepository (name : String) : Except Error Repository :=
  match s.repos.lookup name with
  | some repo => .ok repo
  | none => .error (.notFound "repository" name)

/-- Replaces the configuration if the row is at the expected version, and records the one it
replaces. -/
def updateRepositoryConfig (name : String) (config : List UInt8) (expectedVersion : ℤ)
    (actor : String) (at_ : Time) : Except UpdateError Repositories :=
  match s.repos.lookup name with
  | none => .error (.store (.notFound "repository" name))
  | some repo =>
    if repo.configVersion ≠ expectedVersion then
      .error (.stale name repo.configVersion expectedVersion)
    else
      .ok {
        repos := s.repos.insert { repo with
          config := config
          configVersion := repo.configVersion + 1
          updatedAt := at_ }
        configHistory := s.configHistory.insert name (((s.configHistory.lookup name).getD []) ++
          [⟨name, repo.configVersion, repo.config, actor, at_⟩]) }

/-- The row and its history. -/
def deleteRepository (name : String) : Except Error Repositories :=
  if (s.repos.lookup name).isNone then .error (.notFound "repository" name)
  else .ok { repos := s.repos.erase name, configHistory := s.configHistory.erase name }

variable {s} {s' : Repositories}

variable {repo : Repository} {name actor : String} {at_ : Time} {expectedVersion : ℤ}
  {config : List UInt8}

theorem createRepository_eq_ok :
    s.createRepository repo = .ok s' ↔ repo.name ≠ "" ∧ s.repos.lookup repo.name = none ∧
      s' = { s with repos := s.repos.insert { repo with configVersion := 1 } } := by
  unfold createRepository
  split_ifs with hnm htk
  · simp [hnm]
  · simp [Option.isSome_iff_ne_none.mp htk]
  · have hfr : s.repos.lookup repo.name = none := by simpa using htk
    simp [hnm, hfr, eq_comm]

theorem createRepository_ok (h : s.createRepository repo = .ok s') :
    s.repos.lookup repo.name = none ∧
      s'.repos = s.repos.insert { repo with configVersion := 1 } := by
  obtain ⟨-, hfr, rfl⟩ := createRepository_eq_ok.mp h
  exact ⟨hfr, rfl⟩

theorem updateRepositoryConfig_eq_ok :
    s.updateRepositoryConfig name config expectedVersion actor at_ = .ok s' ↔
      ∃ repo, s.repos.lookup name = some repo ∧ repo.configVersion = expectedVersion ∧
        s' = {
          repos := s.repos.insert { repo with
            config := config
            configVersion := repo.configVersion + 1
            updatedAt := at_ }
          configHistory := s.configHistory.insert name (((s.configHistory.lookup name).getD []) ++
            [⟨name, repo.configVersion, repo.config, actor, at_⟩]) } := by
  unfold updateRepositoryConfig
  split
  · rename_i hrow
    simp [hrow]
  · rename_i repo hrow
    split_ifs with hvr
    · simp [hrow, hvr]
    · simp [hrow, not_not.mp hvr, eq_comm]

theorem updateRepositoryConfig_ok
    (h : s.updateRepositoryConfig name config expectedVersion actor at_ = .ok s') :
    ∃ repo, s.repos.lookup name = some repo ∧ s'.repos = s.repos.insert { repo with
      config := config
      configVersion := repo.configVersion + 1
      updatedAt := at_ } := by
  obtain ⟨repo, hrow, -, rfl⟩ := updateRepositoryConfig_eq_ok.mp h
  exact ⟨repo, hrow, rfl⟩

theorem deleteRepository_ok (h : s.deleteRepository name = .ok s') :
    s'.repos = s.repos.erase name := by
  unfold deleteRepository at h
  split_ifs at h
  cases h
  rfl

end Repositories

end Trove.Meta
