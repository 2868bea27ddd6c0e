import Trove.Meta.Events

/-!
# Events

The taxonomy, the envelope every consumer sees and the check an event passes before it is published.
A payload is modelled by the type it belongs to and by its encoding.
-/

namespace Trove.Eventbus

open Meta

/-- The closed set of types. -/
inductive EventType
  | artifactPushed
  | artifactPulled
  | artifactDeleted
  | cacheFilled
  | cacheEvicted
  | cacheStaleServed
  | groupMemberSkipped
  | scanCompleted
  | scanRegressed
  | policyViolated
  | authzDenied
  | roleChanged
  | quotaWarned
  | quotaExceeded
  | gcCompleted
  | blobCorrupt
  deriving DecidableEq

namespace EventType

/-- The wire name. -/
def string : EventType → String
  | artifactPushed => "artifact.pushed"
  | artifactPulled => "artifact.pulled"
  | artifactDeleted => "artifact.deleted"
  | cacheFilled => "cache.filled"
  | cacheEvicted => "cache.evicted"
  | cacheStaleServed => "cache.stale-served"
  | groupMemberSkipped => "group.member.skipped"
  | scanCompleted => "scan.completed"
  | scanRegressed => "scan.regressed"
  | policyViolated => "policy.violated"
  | authzDenied => "authz.denied"
  | roleChanged => "role.changed"
  | quotaWarned => "quota.warned"
  | quotaExceeded => "quota.exceeded"
  | gcCompleted => "gc.completed"
  | blobCorrupt => "blob.corrupt"

end EventType

open EventType in
def types : List EventType :=
  [artifactPushed, artifactPulled, artifactDeleted, cacheFilled, cacheEvicted, cacheStaleServed,
    groupMemberSkipped, scanCompleted, scanRegressed, policyViolated, authzDenied, roleChanged,
    quotaWarned, quotaExceeded, gcCompleted, blobCorrupt]

def validType (t : String) : Bool := types.any fun known => t = known.string

structure Payload where
  eventType : EventType
  json : Except String (List UInt8)

/-- The envelope. An emitter may leave `id` empty and `at_` zero. -/
structure Event where
  (id type repository resource actor : String)
  payload : Option Payload
  at_ : Time

/-- Why an event is refused. -/
inductive Invalid
  | noId
  | unknownType (type : String)
  | noTimestamp (type : String)
  | noPayload (type : String)
  | wrongPayload (type carried : String)
  | encoding (type err : String)
  | noName
  | noHandler (name : String)
  | wantsUnknown (name type : String)
  | closed

namespace Event

def validate (e : Event) : Except Invalid Unit :=
  if e.id = "" then .error .noId
  else if !validType e.type then .error (.unknownType e.type)
  else if e.at_ = 0 then .error (.noTimestamp e.type)
  else
    match e.payload with
    | none => .error (.noPayload e.type)
    | some payload =>
      if payload.eventType.string ≠ e.type then
        .error (.wrongPayload e.type payload.eventType.string)
      else .ok ()

def record (e : Event) : Except Invalid EventRow :=
  match e.validate with
  | .error err => .error err
  | .ok () =>
    match e.payload.map Payload.json with
    | some (.ok payload) =>
      .ok
        { id := e.id
          type := e.type
          repository := e.repository
          resource := e.resource
          actor := e.actor
          payload := payload
          at_ := e.at_ }
    | some (.error err) => .error (.encoding e.type err)
    -- a validated event has a payload
    | none => .error (.noPayload e.type)

theorem id_of_record {e : Event} {row : EventRow} (h : e.record = .ok row) : row.id = e.id := by
  unfold record at h
  split at h
  · cases h
  split at h
  · cases h
    rfl
  · cases h
  · cases h

end Event

end Trove.Eventbus
