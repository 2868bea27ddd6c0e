import Trove.Server.OciRoutes

/-!
# The registry's route table

The distribution routes in the order the server registers them. Names are any number of segments and
may contain the words the suffixes are made of, so what keeps the routes of one method apart is
their last literal, or the shape of the reference.
-/

namespace Trove.Registry

open Lib Lib.Strings Server

inductive Handler
  | blobStat
  | blobGet
  | blobRefuseDelete
  | uploadStart
  | uploadPatch
  | uploadCommit
  | uploadStatus
  | uploadCancel
  | manifestHead
  | manifestGet
  | manifestPut
  | manifestDelete
  | manifestDeleteTag
  | tagList
  | referrerList
  deriving DecidableEq

/-- `Blobs.Register`. -/
def blobRoutes : List (Registration Handler) :=
  [⟨"HEAD", "/blobs/{digest}", ⟨.repoRead, false⟩, .blobStat⟩,
    ⟨"GET", "/blobs/{digest}", ⟨.repoRead, false⟩, .blobGet⟩,
    ⟨"DELETE", "/blobs/{digest}", ⟨.manifestDelete, false⟩, .blobRefuseDelete⟩,
    ⟨"POST", "/blobs/uploads/", ⟨.repoWrite, false⟩, .uploadStart⟩,
    ⟨"PATCH", "/blobs/uploads/{id}", ⟨.repoWrite, false⟩, .uploadPatch⟩,
    ⟨"PUT", "/blobs/uploads/{id}", ⟨.repoWrite, false⟩, .uploadCommit⟩,
    ⟨"GET", "/blobs/uploads/{id}", ⟨.repoWrite, false⟩, .uploadStatus⟩,
    ⟨"DELETE", "/blobs/uploads/{id}", ⟨.repoWrite, false⟩, .uploadCancel⟩]

/-- `Manifests.Register`. Deleting a tag and deleting a manifest share a path and not a verb. -/
def manifestRoutes : List (Registration Handler) :=
  [⟨"HEAD", "/manifests/{reference}", ⟨.repoRead, false⟩, .manifestHead⟩,
    ⟨"GET", "/manifests/{reference}", ⟨.repoRead, false⟩, .manifestGet⟩,
    ⟨"PUT", "/manifests/{reference}", ⟨.repoWrite, false⟩, .manifestPut⟩,
    ⟨"DELETE", "/manifests/{reference:digest}", ⟨.manifestDelete, false⟩, .manifestDelete⟩,
    ⟨"DELETE", "/manifests/{reference:tag}", ⟨.tagDelete, false⟩, .manifestDeleteTag⟩]

/-- `Tags.Register`. -/
def tagRoutes : List (Registration Handler) :=
  [⟨"GET", "/tags/list", ⟨.repoRead, false⟩, .tagList⟩]

def referrerRoutes : List (Registration Handler) :=
  [⟨"GET", "/referrers/{digest}", ⟨.referrerRead, false⟩, .referrerList⟩]

def registrations : List (Registration Handler) :=
  blobRoutes ++ manifestRoutes ++ tagRoutes ++ referrerRoutes

/-- The distribution half of the server's router. -/
def serveRouter : Except Panic (Router Handler) := registrations.foldlM Router.handleOCI {}

theorem serveRouter_isOk : serveRouter.isOk = true := by decide +kernel

theorem registrations_apart :
    (registrations.map Registration.route).Pairwise OciRoute.ApartFrom := by decide +kernel

theorem placeholders_nodup : ∀ reg ∈ registrations, (placeholders reg.suffix).Nodup := by
  decide +kernel

theorem handler_injective : ∀ reg ∈ registrations, ∀ reg' ∈ registrations,
    reg.handler = reg'.handler → reg = reg' := by
  decide +kernel

/-- **Dispatch is unambiguous.** Whatever stands for the repository name, of any number of segments
and with any words, the path built from a name, a route's suffix and values that fit its
placeholders is dispatched to that route, with exactly that name and those values. And every
dispatched path is built from what is reported. -/
theorem dispatch_unambiguous :
    ∃ router, serveRouter = .ok router ∧
      (∀ reg ∈ registrations, ∀ reg' ∈ registrations, reg.handler = reg'.handler → reg = reg') ∧
      (∀ reg ∈ registrations, ∀ (name : String) (value : String → String),
        Fills reg.suffix value →
        ∃ found, router.matchOCI reg.method ("/v2/" ++ name ++ fill reg.suffix value) =
            .ok (some found) ∧
          found.permission = reg.permission ∧ found.handler = reg.handler ∧ found.name = name ∧
          ∀ key, found.values.lookup key =
            if key ∈ placeholders reg.suffix then some (value key) else none) ∧
      ∀ (method path : String) (found : OciMatch Handler),
        router.matchOCI method path = .ok (some found) →
        ∃ reg ∈ registrations, reg.method = method ∧ found.permission = reg.permission ∧
          found.handler = reg.handler ∧
          path = "/v2/" ++ found.name ++
            fill reg.suffix fun key => (found.values.lookup key).getD "" := by
  obtain ⟨router, hrt⟩ := isOk_iff.mp serveRouter_isOk
  refine ⟨router, hrt, handler_injective, fun reg hreg name value hfl => ?_,
    fun method path found h => ?_⟩
  · exact matchOCI_fill hrt registrations_apart hreg name hfl
  · exact path_of_matchOCI hrt placeholders_nodup h

example : fill "/blobs/uploads/{id}" (fun _ => "7f") = "/blobs/uploads/7f" := by decide +kernel

end Trove.Registry
