import Trove.Lib.Run
import Trove.Registry.Manifests
import Trove.Registry.Uploads

/-!
# The registry at work

Any number of manifest PUTs, pushes, POSTs and sweeps, and between their steps the store calls of
the other handlers. One action is one store call, so a list of actions is one interleaving and
`Lib.exec` of it one run of the registry.
-/

namespace Trove.Registry

open Meta Lib

/-! ## A sweep -/

/-- The calls of one run of the collector: list a batch, and for each candidate delete its row if
the store still agrees and then its bytes. -/
structure Sweep where
  before : Time
  batch : ℤ
  cursor : Digest
  todo : List Blob
  /-- The digest whose row is gone and whose bytes are to go. -/
  reclaiming : Option Digest
  finished : Bool

def Sweep.step (sh : Shared) (sw : Sweep) : Option (Shared × Sweep) :=
  match sw.reclaiming with
  | some d =>
    match sh.bytes.delete d with
    | .error _ => some (sh, { sw with reclaiming := none })
    | .ok bytes' => some ({ sh with bytes := bytes' }, { sw with reclaiming := none })
  | none =>
    match sw.todo with
    | candidate :: todo =>
      match sh.store.deleteBlobIfUnreferenced candidate.digest sw.before with
      | (false, _) => some (sh, { sw with cursor := candidate.digest, todo := todo })
      | (true, s') =>
        some ({ sh with store := s', log := .swept candidate.digest sw.before :: sh.log },
          { sw with cursor := candidate.digest, todo := todo, reclaiming := some candidate.digest })
    | [] =>
      if sw.finished then none
      else match sh.store.listSweepCandidates sw.before sw.cursor sw.batch with
        | [] => some (sh, { sw with finished := true })
        | candidates => some (sh, { sw with todo := candidates })

/-- The digest whose row the next step of a sweep deletes. -/
def Sweep.deletes (sh : Shared) (sw : Sweep) : Option Digest :=
  match sw.reclaiming, sw.todo with
  | none, candidate :: _ =>
    if (sh.store.deleteBlobIfUnreferenced candidate.digest sw.before).1 then some candidate.digest
    else none
  | _, _ => none

/-- A step of a sweep reads; or it deletes the row of an old, unreferenced, unpinned blob; or it
deletes the bytes of the row it deleted last. -/
theorem Sweep.step_cases {sh sh' : Shared} {sw sw' : Sweep} (h : sw.step sh = some (sh', sw')) :
    (sh' = sh ∧ sw'.reclaiming = none) ∨
    (∃ blob, sw.deletes sh = some blob.digest ∧ sh.store.blobs.lookup blob.digest = some blob ∧
      sh.store.sweepable blob sw.before = true ∧ sw'.reclaiming = some blob.digest ∧
      sh' = { sh with
        store := { sh.store with blobs := sh.store.blobs.erase blob.digest }
        log := .swept blob.digest sw.before :: sh.log }) ∨
    (∃ d, sw.reclaiming = some d ∧ sw'.reclaiming = none ∧
      sh' = { sh with bytes := { sh.bytes with blobs := sh.bytes.blobs.erase d } }) := by
  obtain ⟨before, batch, cursor, todo, reclaiming, finished⟩ := sw
  cases reclaiming with
  | some d =>
    simp only [step] at h
    split at h <;> cases h
    · exact .inl ⟨rfl, rfl⟩
    · rename_i bytes' hdel
      obtain rfl := Blob.Store.delete_ok hdel
      exact .inr (.inr ⟨d, rfl, rfl, rfl⟩)
  | none =>
    cases todo with
    | nil =>
      simp only [step] at h
      split_ifs at h
      split at h <;> cases h <;> exact .inl ⟨rfl, rfl⟩
    | cons candidate todo =>
      rcases Store.deleteBlobIfUnreferenced_cases (s := sh.store) candidate.digest before with
        hdel | ⟨blob, hrow, hsw, hdel⟩
      · simp only [step, hdel] at h
        cases h
        exact .inl ⟨rfl, rfl⟩
      · simp only [step, hdel] at h
        cases h
        have hkey : blob.digest = candidate.digest := Table.key_of_lookup hrow
        rw [← hkey] at hrow hdel ⊢
        exact .inr (.inl ⟨blob, by simp [deletes, ← hkey, hdel], hrow, hsw, rfl, rfl⟩)

/-! ## The world -/

structure World where
  shared : Shared
  puts : List Put
  pushes : List Push
  starts : List Start
  sweeps : List Sweep

/-- One call, or the arrival of a request. -/
inductive Action
  | tick (by_ : ℕ)
  | put (request : PutRequest)
  | push (request : PushRequest)
  | start (request : StartRequest)
  | sweep (before : Time) (cursor : Digest) (batch : ℤ)
  | stepPut (i : ℕ)
  | stepPush (i : ℕ)
  | stepStart (i : ℕ)
  | stepSweep (i : ℕ)
  | deleteManifest (repo : String) (digest : Digest)
  | patch (id : String) (chunk : Blob.Content)
  | cancel (id : String)
  | deleteUpload (id : String)

variable (digestOf : String → Blob.Content → Digest)

/-- A call of a handler that is one store call here; a call that fails changes nothing. -/
def Shared.call (sh : Shared) : Action → Shared
  | .tick n => { sh with clock := sh.clock + n }
  | .deleteManifest repo digest =>
    match sh.store.deleteManifest repo digest with
    | .error _ => sh
    | .ok s' => { sh with store := s' }
  | .patch id chunk =>
    match sh.bytes.write id chunk with
    | .error _ => sh
    | .ok bytes' => { sh with bytes := bytes' }
  | .cancel id => { sh with bytes := sh.bytes.cancel id }
  | .deleteUpload id => { sh with store := dropUpload sh.store id }
  | _ => sh

/-- One step of the registry. A thread that is done has no step. -/
def World.step (w : World) : Action → Option World
  | .put r => some { w with puts := w.puts ++ [⟨r, .route⟩] }
  | .push r => some { w with pushes := w.pushes ++ [⟨r, .route⟩] }
  | .start r => some { w with starts := w.starts ++ [⟨r, .route⟩] }
  | .sweep before cursor batch =>
    some { w with sweeps := w.sweeps ++ [⟨before, batch, cursor, [], none, false⟩] }
  | .stepPut i =>
    (advance Put.step w.shared w.puts i).map fun r => { w with shared := r.1, puts := r.2 }
  | .stepPush i =>
    (advance (Push.step digestOf) w.shared w.pushes i).map fun r =>
      { w with shared := r.1, pushes := r.2 }
  | .stepStart i =>
    (advance Start.step w.shared w.starts i).map fun r => { w with shared := r.1, starts := r.2 }
  | .stepSweep i =>
    (advance Sweep.step w.shared w.sweeps i).map fun r => { w with shared := r.1, sweeps := r.2 }
  | a => some { w with shared := w.shared.call a }

/-! ## What a step can do -/

/-- The cases of a step: a request or a sweep arrives, a handler makes its one call, or a thread of
one of the four pools takes a step. -/
inductive World.Step (w : World) : Action → World → Prop
  | arrive {a : Action} {w' : World} (shared : w'.shared = w.shared)
      (puts : ∀ p ∈ w'.puts, p ∈ w.puts ∨ p.phase = .route)
      (pushes : ∀ p ∈ w'.pushes, p ∈ w.pushes ∨ p.phase = .route)
      (sweeps : ∀ sw ∈ w'.sweeps, sw ∈ w.sweeps ∨ sw.reclaiming = none) : Step w a w'
  | call (a : Action) : Step w a { w with shared := w.shared.call a }
  | put {i : ℕ} {p p' : Put} {sh : Shared} (thread : w.puts[i]? = some p)
      (step : p.step w.shared = some (sh, p')) :
      Step w (.stepPut i) { w with shared := sh, puts := w.puts.set i p' }
  | push {i : ℕ} {p p' : Push} {sh : Shared} (thread : w.pushes[i]? = some p)
      (step : p.step digestOf w.shared = some (sh, p')) :
      Step w (.stepPush i) { w with shared := sh, pushes := w.pushes.set i p' }
  | start {i : ℕ} {p p' : Start} {sh : Shared} (thread : w.starts[i]? = some p)
      (step : p.step w.shared = some (sh, p')) :
      Step w (.stepStart i) { w with shared := sh, starts := w.starts.set i p' }
  | sweep {i : ℕ} {sw sw' : Sweep} {sh : Shared} (thread : w.sweeps[i]? = some sw)
      (step : sw.step w.shared = some (sh, sw')) :
      Step w (.stepSweep i) { w with shared := sh, sweeps := w.sweeps.set i sw' }

variable {digestOf}

theorem mem_or_eq_of_mem_append_singleton {τ : Type*} {pool : List τ} {t t' : τ}
    (h : t ∈ pool ++ [t']) : t ∈ pool ∨ t = t' := by
  simpa using h

theorem World.step_of_eq_some {w w' : World} {a : Action} (h : w.step digestOf a = some w') :
    Step digestOf w a w' := by
  cases a with
  | put r =>
    cases h
    exact .arrive rfl
      (fun p hp => (mem_or_eq_of_mem_append_singleton hp).imp_right (by rintro rfl; rfl))
      (fun _ => .inl) (fun _ => .inl)
  | push r =>
    cases h
    exact .arrive rfl (fun _ => .inl)
      (fun p hp => (mem_or_eq_of_mem_append_singleton hp).imp_right (by rintro rfl; rfl))
      (fun _ => .inl)
  | start r =>
    cases h
    exact .arrive rfl (fun _ => .inl) (fun _ => .inl) (fun _ => .inl)
  | sweep before cursor batch =>
    cases h
    exact .arrive rfl (fun _ => .inl) (fun _ => .inl)
      (fun sw hsw => (mem_or_eq_of_mem_append_singleton hsw).imp_right (by rintro rfl; rfl))
  | stepPut i =>
    obtain ⟨⟨sh, pool⟩, hadv, rfl⟩ := Option.map_eq_some_iff.mp h
    obtain ⟨p, p', hp, hst, rfl⟩ := advance_eq_some hadv
    exact .put hp hst
  | stepPush i =>
    obtain ⟨⟨sh, pool⟩, hadv, rfl⟩ := Option.map_eq_some_iff.mp h
    obtain ⟨p, p', hp, hst, rfl⟩ := advance_eq_some hadv
    exact .push hp hst
  | stepStart i =>
    obtain ⟨⟨sh, pool⟩, hadv, rfl⟩ := Option.map_eq_some_iff.mp h
    obtain ⟨p, p', hp, hst, rfl⟩ := advance_eq_some hadv
    exact .start hp hst
  | stepSweep i =>
    obtain ⟨⟨sh, pool⟩, hadv, rfl⟩ := Option.map_eq_some_iff.mp h
    obtain ⟨sw, sw', hsw, hst, rfl⟩ := advance_eq_some hadv
    exact .sweep hsw hst
  | tick n | deleteManifest repo d | patch id chunk | cancel id | deleteUpload id =>
    cases h
    exact .call _

theorem Shared.call_cases (sh : Shared) (a : Action) :
    (∃ repo d s', sh.store.deleteManifest repo d = .ok s' ∧ sh.call a = { sh with store := s' }) ∨
      sh.Quiet (sh.call a) := by
  cases a with
  | tick n => exact .inr ⟨rfl, rfl, rfl, rfl, rfl⟩
  | deleteManifest repo d =>
    cases hdel : sh.store.deleteManifest repo d with
    | error e => exact .inr (by simpa [Shared.call, hdel] using .refl sh)
    | ok s' => exact .inl ⟨repo, d, s', hdel, by simp [Shared.call, hdel]⟩
  | patch id chunk =>
    refine .inr ?_
    cases hw : sh.bytes.write id chunk with
    | error e => simpa [Shared.call, hw] using .refl sh
    | ok bytes' =>
      simp only [Shared.call, hw]
      exact ⟨rfl, rfl, rfl, Blob.Store.write_ok hw, rfl⟩
  | cancel id => exact .inr ⟨rfl, rfl, rfl, rfl, rfl⟩
  | deleteUpload id => exact .inr (quiet_dropUpload sh id)
  | _ => exact .inr (.refl sh)

end Trove.Registry
