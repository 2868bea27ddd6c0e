import Mathlib.Algebra.Group.Int.Defs
import Trove.Lib.Map

/-!
# Stored records

The values the metadata store holds. A digest is an opaque key here, compared as a string; a time
is a number of nanoseconds whose `0` is Go's zero time.
-/

namespace Trove.Meta

abbrev Digest := String
/-- Nanoseconds from the zero time. -/
abbrev Time := ℤ

/-- `time.Second`. -/
def second : ℤ := 10 ^ 9

inductive RepositoryType
  | hosted
  | proxy
  | group
  deriving DecidableEq

/-- A repository entity. -/
structure Repository where
  name : String
  type : RepositoryType
  config : List UInt8
  configVersion : ℤ
  (createdAt updatedAt : Time)

/-- A manifest of a repository. -/
structure Manifest where
  repository : String
  digest : Digest
  (mediaType artifactType : String)
  subject : Digest
  payload : List UInt8
  size : ℤ
  createdAt : Time

/-- Why a manifest references a digest. -/
inductive RefKind
  | config
  | layer
  | childManifest
  | subject
  deriving DecidableEq

/-- The other kinds name manifests. -/
def RefKind.isBlob : RefKind → Bool
  | .config | .layer => true
  | .childManifest | .subject => false

/-- An edge to a digest. -/
structure ManifestRef where
  child : Digest
  kind : RefKind
  deriving DecidableEq

/-- A name pointing at a manifest. -/
structure Tag where
  (repository name : String)
  digest : Digest
  (createdAt updatedAt : Time)
  deriving DecidableEq

/-- A hosted blob's row. -/
structure Blob where
  digest : Digest
  size : ℤ
  createdAt : Time

/-- An upload in progress. -/
structure UploadSession where
  (id repository : String)
  digest : Digest
  bytes : ℤ
  (startedAt lastChunkAt : Time)

/-- A sweep: its deadline, its cursor and its counts. -/
structure GCRun where
  id : String
  startedAt : Time
  /-- `0` while the run is unfinished. -/
  finishedAt : Time
  sweepBefore : Time
  cursor : Digest
  (scanned deleted freedBytes : ℤ)
  failure : String

/-- The typed failures of a store call. -/
inductive Error
  | notFound (kind id : String)
  | conflict (kind id : String)
  | referenced (kind id : String) (by_ : List String)
  | invalid (field reason : String)
  deriving DecidableEq

/-- Its text; `quote` is `%q`. -/
def Error.message (quote : String → String) : Error → String
  | .notFound kind id => kind ++ " " ++ quote id ++ " not found"
  | .conflict kind id => kind ++ " " ++ quote id ++ " already exists"
  | .referenced kind id by_ =>
    kind ++ " " ++ quote id ++ " is still referenced by [" ++ String.intercalate " " by_ ++ "]"
  | .invalid field reason => "invalid " ++ field ++ ": " ++ reason

end Trove.Meta
