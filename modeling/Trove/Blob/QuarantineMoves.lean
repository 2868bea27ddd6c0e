import Trove.Blob.Quarantine
import Trove.Blob.FsPublished

/-!
# What quarantine moves

A reader that finds a mismatch moves what is at the blob's path when it closes, not the file it has
read. Both are the same file as long as nothing is published under the digest meanwhile
(`KeepsReaders`): then no call writes to a file a reader was opened on.
-/

namespace Trove.Blob.Fs

open Lib List

variable (digestOf : String → Content → Digest)

def BlobReader.spoiled (disk : Disk) (r : BlobReader) : Prop :=
  ∃ file ∈ r.file, ¬Hashes digestOf r.digest (disk.content file)

instance (disk : Disk) (r : BlobReader) : Decidable (r.spoiled digestOf disk) :=
  match h : r.file with
  | none => .isFalse (by simp [BlobReader.spoiled, h])
  | some file =>
    decidable_of_iff (¬Hashes digestOf r.digest (disk.content file))
      (by simp [BlobReader.spoiled, h])

def Task.renames (t : Task) (digest : Digest) : Bool :=
  match t.phase with
  | .publishing expected _ .rename => expected = digest
  | _ => false

/-- Nothing is published under a digest while a reader of other content is open there; and a `Put`'s
random name is no other call's meanwhile. -/
def KeepsReaders (w : Traffic) : Action → Prop
  | .task k _ =>
    ∀ t ∈ w.tasks[k]?, ∀ r ∈ w.readers, t.renames r.digest = true → ¬r.spoiled digestOf w.disk
  | .put _ name _ => ∀ t ∈ w.tasks, t.name = name → t.busy = false
  | .commit id _ _ => ∀ t ∈ w.tasks, t.name = id → t.put = true → t.busy = false
  | .get _ | .read _ _ | .delete _ => True

instance (w : Traffic) : (a : Action) → Decidable (KeepsReaders digestOf w a)
  | .task k _ =>
    match h : w.tasks[k]? with
    | none => .isTrue (by simp [KeepsReaders, h])
    | some t =>
      decidable_of_iff (∀ r ∈ w.readers, t.renames r.digest = true → ¬r.spoiled digestOf w.disk)
        (by simp [KeepsReaders, h])
  | .put _ name _ => inferInstanceAs (Decidable (∀ t ∈ w.tasks, t.name = name → t.busy = false))
  | .commit id _ _ =>
    inferInstanceAs (Decidable (∀ t ∈ w.tasks, t.name = id → t.put = true → t.busy = false))
  | .get _ | .read _ _ | .delete _ => inferInstanceAs (Decidable True)

/-! ## What a step does -/

variable {digestOf}

/-- The file the call writes to. -/
def Task.writes (t : Task) : Option ℕ :=
  match t.phase with
  | .writing file _ _ | .copying _ file _ => some file
  | _ => none

theorem Task.busy_of_writes {t : Task} (h : t.writes.isSome = true) : t.busy = true := by
  unfold Task.writes at h
  unfold Task.busy
  split
  · rename_i answer hph
    simp [hph] at h
  · rfl

variable {disk disk' : Disk} {t : Task}

variable {expected digest : Digest}

theorem writes_verified {seen : Content} :
    { t with phase := verified digestOf expected seen }.writes = none := by
  unfold verified
  split <;> rfl

theorem writes_published {size : ℕ} {err : Option FsError} :
    { t with phase := t.published expected size err }.writes = none := by
  unfold Task.published
  split
  · rfl
  · split_ifs <;> rfl

theorem Task.next_effect {phase : Phase} (h : t.Next digestOf disk disk' phase) :
    (∀ file ∈ { t with phase := phase }.writes, t.writes = some file) ∧
      (disk' = disk ∨ (∃ file content, t.writes = some file ∧ disk' = disk.store file content) ∨
        disk' = disk.remove (.upload t.name) ∨
        ∃ digest, t.renames digest = true ∧
          disk.rename (.upload t.name) (.blob digest) = some disk') := by
  -- a step that leaves the call with no descriptor to write to
  have hnn : ∀ phase, { t with phase := phase }.writes = none →
      ∀ file ∈ { t with phase := phase }.writes, t.writes = some file := by
    intro phase hwr file hfl
    rw [hwr] at hfl
    cases hfl
  cases h with
  | @append file offset written chunk hph | @copy expected file seen chunk hph =>
    have hwr : t.writes = some file := by simp [Task.writes, hph]
    exact ⟨fun file' hfl => hwr.trans hfl, .inr (.inl ⟨file, _, hwr, rfl⟩)⟩
  | @rename expected size disk' hph hrn =>
    have hrm : t.renames expected = true := by simp [Task.renames, hph]
    exact ⟨hnn _ rfl, .inr (.inr (.inr ⟨expected, hrm, hrn⟩))⟩
  | removed hph => exact ⟨hnn _ rfl, .inr (.inr (.inl rfl))⟩
  | verify hph hend | copied hph => exact ⟨hnn _ writes_verified, .inl rfl⟩
  | published err hph => exact ⟨hnn _ writes_published, .inl rfl⟩
  | read n hph | publish stage' hph | fail hbs hwt | answer hbs => exact ⟨hnn _ rfl, .inl rfl⟩

/-! ## What holds of readers and writers -/

def BlobReader.Seen (digestOf : String → Content → Digest) (disk : Disk) (r : BlobReader) : Prop :=
  match r.phase with
  | .reading file seen => seen <+: disk.content file
  | .corrupt file _ | .mkdir file _ | .clear file _ | .move file _ =>
    ¬Hashes digestOf r.digest (disk.content file)
  | .sync _ | .intact | .closed _ _ => True

/-- No call writes to the reader's file, and if it is spoiled nothing has taken its place. -/
structure BlobReader.Sound (digestOf : String → Content → Digest) (disk : Disk)
    (tasks : List Task) (r : BlobReader) : Prop where
  valid : (parseDigest r.digest).isOk = true
  seen : r.Seen digestOf disk
  there : ∀ file ∈ r.file, file < disk.next
  unwritten : ∀ file ∈ r.file, ∀ t ∈ tasks, t.writes ≠ some file
  place : ∀ file ∈ r.file, ¬Hashes digestOf r.digest (disk.content file) →
    ∀ i, disk.entry (.blob r.digest) = some i → i = file

variable {tasks tasks' : List Task} {r : BlobReader}

theorem BlobReader.Sound.congr (h : r.Sound digestOf disk tasks)
    (hcn : ∀ file ∈ r.file, disk'.content file = disk.content file)
    (hnx : disk.next ≤ disk'.next)
    (hwr : ∀ file ∈ r.file, ∀ t ∈ tasks', t.writes ≠ some file)
    (hbl : r.spoiled digestOf disk → ∀ i, disk'.entry (.blob r.digest) = some i →
      disk.entry (.blob r.digest) = some i) : r.Sound digestOf disk' tasks' := by
  refine ⟨h.valid, ?_, fun file hfl => (h.there file hfl).trans_le hnx, hwr, ?_⟩
  · have hsn := h.seen
    unfold BlobReader.Seen at hsn ⊢
    split at hsn
    all_goals first
      | trivial
      | (rename_i hph
         rw [hcn _ (by simp [BlobReader.file, hph])]
         exact hsn)
  · intro file hfl hbad i hi
    rw [hcn file hfl] at hbad
    exact h.place file hfl hbad i (hbl ⟨file, hfl, hbad⟩ i hi)

/-- What every state reached satisfies. -/
structure Traffic.Inv (digestOf : String → Content → Digest) (w : Traffic) : Prop where
  owner : ∀ t ∈ w.tasks, ∀ file ∈ t.writes,
    file < w.disk.next ∧ ∀ p, w.disk.entry p = some file → p = .upload t.name
  puts : ∀ t ∈ w.tasks, t.writes.isSome = true → t.put = true
  alone : ∀ (i j : ℕ) (t u : Task), i ≠ j → w.tasks[i]? = some t → w.tasks[j]? = some u →
    t.name = u.name → t.writes.isSome = true → u.busy = false
  readers : ∀ r ∈ w.readers, r.Sound digestOf w.disk w.tasks
  moved : ∀ m ∈ w.moved, ¬Hashes digestOf m.1 m.2

variable {w : Traffic}

/-! ## Steps of writers -/

theorem Task.writes_of_renames (h : t.renames digest = true) : t.writes = none := by
  unfold Task.renames at h
  split at h
  · rename_i hph
    simp [Task.writes, hph]
  · cases h

variable {u : Task} {j file k : ℕ} {input : Input} {s : ReadStep}

theorem Traffic.Inv.owner_of_rename (h : w.Inv digestOf) {i : ℕ} (hij : i ≠ j)
    (ht : w.tasks[i]? = some t) (hu : w.tasks[j]? = some u) (hbs : t.busy = true)
    (hrn : w.disk.rename (.upload t.name) (.blob digest) = some disk')
    (hfl : u.writes = some file) :
    file < disk'.next ∧ ∀ p, disk'.entry p = some file → p = .upload u.name := by
  obtain ⟨hlt, how⟩ := h.owner u (mem_of_getElem? hu) file hfl
  obtain ⟨moved, hmv, -, hnx, hbl, hold, hrs⟩ := Files.rename_eq_some hrn (by simp)
  refine ⟨hnx ▸ hlt, fun p hp => ?_⟩
  by_cases hpb : p = .blob digest
  · subst hpb
    obtain rfl : moved = file := Option.some.inj (hbl.symm.trans hp)
    -- the file moved is the other call's, which then has the same staging name
    have hnm : u.name = t.name := (Path.upload.inj (how _ hmv)).symm
    rw [h.alone j i u t (Ne.symm hij) hu ht hnm (by rw [hfl]; rfl)] at hbs
    cases hbs
  · by_cases hpu : p = .upload t.name
    · subst hpu
      rw [hold] at hp
      cases hp
    · exact how p ((hrs p hpu hpb).symm.trans hp)

theorem Traffic.Inv.owner_of_next (h : w.Inv digestOf) {phase : Phase} (ht : w.tasks[k]? = some t)
    (hnx : t.next digestOf w.disk input = some (disk', phase)) (hu : w.tasks[j]? = some u)
    (hfl : u.writes = some file) :
    file < disk'.next ∧ ∀ p, disk'.entry p = some file → p = .upload u.name := by
  have how := h.owner u (mem_of_getElem? hu) file hfl
  obtain ⟨-, rfl | ⟨file', content, -, rfl⟩ | rfl | ⟨digest, hrn, hrm⟩⟩ :=
    Task.next_effect (Task.next_of_eq_some hnx)
  · exact how
  · exact how
  · exact ⟨how.1, fun p hp => how.2 p (Files.entry_of_remove hp).2⟩
  · refine h.owner_of_rename (j := j) ?_ ht hu (Task.busy_of_next hnx) hrm hfl
    rintro rfl
    obtain rfl := Option.some.inj (ht.symm.trans hu)
    rw [Task.writes_of_renames hrn] at hfl
    cases hfl

theorem Traffic.Inv.task (h : w.Inv digestOf) {phase : Phase}
    (hok : KeepsReaders digestOf w (.task k input)) (ht : w.tasks[k]? = some t)
    (hnx : t.next digestOf w.disk input = some (disk', phase)) :
    { w with disk := disk', tasks := w.tasks.set k { t with phase := phase } }.Inv digestOf := by
  obtain ⟨hwr, hds⟩ := Task.next_effect (Task.next_of_eq_some hnx)
  have hbs := Task.busy_of_next hnx
  -- each call of the new list was there with the same name, and wrote to what it writes to
  have hold : ∀ (i : ℕ) (u : Task), (w.tasks.set k { t with phase := phase })[i]? = some u →
      ∃ v, w.tasks[i]? = some v ∧ v.name = u.name ∧ v.put = u.put ∧
        (∀ file ∈ u.writes, v.writes = some file) ∧ (v.busy = false → u.busy = false) := by
    intro i u hu
    rcases eq_of_getElem?_set hu with ⟨rfl, rfl⟩ | ⟨-, hsm⟩
    · exact ⟨t, ht, rfl, rfl, hwr, fun hid => by rw [hid] at hbs; cases hbs⟩
    · exact ⟨u, hsm, rfl, rfl, fun file hfl => hfl, fun hid => hid⟩
  refine ⟨?_, ?_, ?_, ?_, h.moved⟩
  · intro u hu file hfl
    obtain ⟨i, hi⟩ := mem_iff_getElem?.mp hu
    obtain ⟨v, hv, hnm, -, hvf, -⟩ := hold i u hi
    rw [← hnm]
    exact h.owner_of_next ht hnx hv (hvf file hfl)
  · intro u hu hso
    obtain ⟨i, hi⟩ := mem_iff_getElem?.mp hu
    obtain ⟨v, hv, -, hput, hvf, -⟩ := hold i u hi
    obtain ⟨file, hfl⟩ := Option.isSome_iff_exists.mp hso
    rw [← hput]
    exact h.puts v (mem_of_getElem? hv) (by rw [hvf file hfl]; rfl)
  · intro i j a b hij ha hb hab hso
    obtain ⟨a', ha', hnm, -, haf, -⟩ := hold i a ha
    obtain ⟨b', hb', hnm', -, -, hid⟩ := hold j b hb
    obtain ⟨file, hfl⟩ := Option.isSome_iff_exists.mp hso
    refine hid (h.alone i j a' b' hij ha' hb' ?_ (by rw [haf file hfl]; rfl))
    exact hnm.trans (hab.trans hnm'.symm)
  · intro r hr
    have hsn := h.readers r hr
    have hun : ∀ file ∈ r.file, ∀ u ∈ w.tasks.set k { t with phase := phase },
        u.writes ≠ some file := by
      intro file hfl u hu hwt
      obtain ⟨i, hi⟩ := mem_iff_getElem?.mp hu
      obtain ⟨v, hv, -, -, hvf, -⟩ := hold i u hi
      exact hsn.unwritten file hfl v (mem_of_getElem? hv) (hvf file hwt)
    rcases hds with rfl | ⟨file', content, hwt, rfl⟩ | rfl | ⟨digest, hrn, hrm⟩
    · exact hsn.congr (fun _ _ => rfl) le_rfl hun fun _ _ hi => hi
    · refine hsn.congr (fun file hfl => ?_) le_rfl hun fun _ _ hi => hi
      refine Files.content_store_ne content ?_
      rintro rfl
      exact hsn.unwritten file hfl t (mem_of_getElem? ht) hwt
    · exact hsn.congr (fun _ _ => rfl) le_rfl hun
        fun _ _ hi => (Files.entry_of_remove hi).2
    · obtain ⟨moved, -, hcn, hls, -, -, hrs⟩ := Files.rename_eq_some hrm (by simp)
      refine hsn.congr (fun _ _ => by rw [hcn]) (le_of_eq hls.symm) hun ?_
      intro hsp i hi
      have hne : r.digest ≠ digest := by
        rintro rfl
        exact hok t ht r hr hrn hsp
      rwa [hrs _ (by simp) fun heq => hne (Path.blob.inj heq)] at hi

/-! ## The start of a writer -/

theorem put_started {name : String} {phase : Phase}
    (h : Call.Started disk (.put expected name) disk' phase) (hph : t.phase = phase) :
    (disk' = disk ∧ t.writes = none) ∨
      (disk' = disk.link (.upload name) ∧ t.writes = some disk.next) := by
  unfold Task.writes
  rw [hph]
  cases h with
  | answered call answer => exact .inl ⟨rfl, rfl⟩
  | copying expected name => exact .inr ⟨rfl, rfl⟩

theorem commit_started {id : String} {phase : Phase}
    (h : Call.Started disk (.commit id expected) disk' phase) (hph : t.phase = phase) :
    disk' = disk ∧ t.writes = none := by
  unfold Task.writes
  rw [hph]
  cases h with
  | answered call answer | verifying hfl => exact ⟨rfl, rfl⟩

section

variable (h : w.Inv digestOf)
include h

theorem Traffic.Inv.concat (hds : (disk' = w.disk ∧ t.writes = none) ∨
      (disk' = w.disk.link (.upload t.name) ∧ t.writes = some w.disk.next ∧ t.put = true))
    (hid : t.writes.isSome = true → ∀ u ∈ w.tasks, u.name = t.name → u.busy = false)
    (hov : ∀ u ∈ w.tasks, u.name = t.name → u.writes.isSome = true → t.busy = false) :
    { w with disk := disk', tasks := w.tasks ++ [t] }.Inv digestOf := by
  have hnx : w.disk.next ≤ disk'.next := by
    rcases hds with ⟨rfl, -⟩ | ⟨rfl, -⟩
    · exact le_rfl
    · exact Nat.le_succ _
  have hen : ∀ p file, file < w.disk.next → disk'.entry p = some file →
      w.disk.entry p = some file := by
    rcases hds with ⟨rfl, -⟩ | ⟨rfl, -⟩
    · exact fun p file _ hp => hp
    · exact fun p file hfl hp => (Files.entry_of_link hp hfl).2
  refine ⟨?_, ?_, ?_, ?_, h.moved⟩
  · intro u hu file hfl
    rcases mem_append.mp hu with hu | hu
    · obtain ⟨hlt, how⟩ := h.owner u hu file hfl
      exact ⟨hlt.trans_le hnx, fun p hp => how p (hen p file hlt hp)⟩
    · obtain rfl := mem_singleton.mp hu
      rcases hds with ⟨-, hnn⟩ | ⟨rfl, hsm, -⟩
      · rw [hnn] at hfl
        cases hfl
      · obtain rfl := Option.some.inj (hsm.symm.trans hfl)
        refine ⟨Nat.lt_succ_self _, fun p hp => ?_⟩
        exact (w.disk.link (.upload u.name)).single _ _ _ hp Files.entry_link_self
  · intro u hu hsm
    rcases mem_append.mp hu with hu | hu
    · exact h.puts u hu hsm
    · obtain rfl := mem_singleton.mp hu
      rcases hds with ⟨-, hnn⟩ | ⟨-, -, hput⟩
      · rw [hnn] at hsm
        cases hsm
      · exact hput
  · exact forall_pairs_concat h.alone fun u hu =>
      ⟨hov u hu, fun hnm hsm => hid hsm u hu hnm.symm⟩
  · intro r hr
    have hsn := h.readers r hr
    refine hsn.congr (fun file hfl => ?_) hnx (fun file hfl u hu => ?_) fun _ i hi => ?_
    · rcases hds with ⟨rfl, -⟩ | ⟨rfl, -⟩
      · rfl
      · exact Files.content_link_of_lt (hsn.there file hfl)
    · rcases mem_append.mp hu with hu | hu
      · exact hsn.unwritten file hfl u hu
      · obtain rfl := mem_singleton.mp hu
        rcases hds with ⟨-, hnn⟩ | ⟨-, hsm, -⟩
        · rw [hnn]
          exact (Option.some_ne_none file).symm
        · rw [hsm]
          intro heq
          exact absurd (hsn.there file hfl) (by rw [← Option.some.inj heq]; exact lt_irrefl _)
    · rcases hds with ⟨rfl, -⟩ | ⟨rfl, -⟩
      · exact hi
      · rwa [Files.entry_link_ne (by simp)] at hi

theorem Traffic.Inv.put {name : String} {fault : Bool}
    (hok : KeepsReaders digestOf w (.put expected name fault)) :
    (w.start (.put expected name) fault).Inv digestOf := by
  obtain ⟨hnm, hput, hst⟩ :=
    Call.started (Prod.mk.eta (p := Call.start w.disk fault (.put expected name))).symm
  have hid : ∀ u ∈ w.tasks, u.name = name → u.busy = false := hok
  refine h.concat ?_ (fun _ u hu hun => hid u hu (hun.trans hnm)) fun u hu hun hsm => ?_
  · rw [hnm]
    rcases put_started hst rfl with hsa | ⟨hln, hwr⟩
    · exact .inl hsa
    · exact .inr ⟨hln, hwr, hput⟩
  · have hbs := Task.busy_of_writes hsm
    rw [hid u hu (hun.trans hnm)] at hbs
    cases hbs

theorem Traffic.Inv.commit {id : String} {fault : Bool}
    (hok : KeepsReaders digestOf w (.commit id expected fault)) :
    (w.start (.commit id expected) fault).Inv digestOf := by
  obtain ⟨hnm, -, hst⟩ :=
    Call.started (Prod.mk.eta (p := Call.start w.disk fault (.commit id expected))).symm
  obtain ⟨hds, hwr⟩ := commit_started hst rfl
  refine h.concat (.inl ⟨hds, hwr⟩) (fun hsm => ?_) fun u hu hun hsm => ?_
  · rw [hwr] at hsm
    cases hsm
  · have hbs := Task.busy_of_writes hsm
    rw [hok u hu (hun.trans hnm) (h.puts u hu hsm)] at hbs
    cases hbs

/-! ## Steps of readers -/

theorem Traffic.Inv.get {r : BlobReader} (hget : get w.disk digest = .ok r) :
    { w with readers := w.readers ++ [r] }.Inv digestOf := by
  refine ⟨h.owner, h.puts, h.alone, fun r' hr' => ?_, h.moved⟩
  rcases mem_append.mp hr' with hr' | hr'
  · exact h.readers r' hr'
  · obtain rfl := mem_singleton.mp hr'
    unfold Fs.get at hget
    split at hget
    · cases hget
    · rename_i parsed hpr
      split at hget
      · cases hget
      · rename_i file hfl
        cases hget
        refine ⟨by rw [hpr]; rfl, nil_prefix, ?_, ?_, ?_⟩
        · intro file' hfl'
          cases hfl'
          exact w.disk.fresh _ _ hfl
        · intro file' hfl' t ht hwr
          cases hfl'
          cases (h.owner t ht file hwr).2 _ hfl
        · intro file' hfl' _ i hi
          cases hfl'
          exact Option.some.inj (hi.symm.trans hfl)

theorem Traffic.Inv.remove (p : Path) : { w with disk := w.disk.remove p }.Inv digestOf := by
  refine ⟨?_, h.puts, h.alone, ?_, h.moved⟩
  · intro t ht file hfl
    obtain ⟨hlt, how⟩ := h.owner t ht file hfl
    exact ⟨hlt, fun q hq => how q (Files.entry_of_remove hq).2⟩
  · intro r hr
    have hsn := h.readers r hr
    exact hsn.congr (fun _ _ => rfl) le_rfl hsn.unwritten
      fun _ i hi => (Files.entry_of_remove hi).2

theorem Traffic.Inv.rename (hrn : w.disk.rename (.blob digest) (.quarantine digest) = some disk') :
    { w with disk := disk' }.Inv digestOf := by
  obtain ⟨moved, hmv, hcn, hnx, htr, hold, hrs⟩ :=
    Files.rename_eq_some hrn (by simp)
  refine ⟨?_, h.puts, h.alone, ?_, h.moved⟩
  · intro t ht file hfl
    obtain ⟨hlt, how⟩ := h.owner t ht file hfl
    refine ⟨hnx ▸ hlt, fun p hp => ?_⟩
    by_cases hpq : p = .quarantine digest
    · subst hpq
      obtain rfl : moved = file := Option.some.inj (htr.symm.trans hp)
      cases how _ hmv
    · by_cases hpb : p = .blob digest
      · subst hpb
        rw [show disk'.entry (.blob digest) = none from hold] at hp
        cases hp
      · exact how p ((hrs p hpb hpq).symm.trans hp)
  · intro r hr
    have hsn := h.readers r hr
    refine hsn.congr (fun _ _ => by rw [hcn]) (le_of_eq hnx.symm) hsn.unwritten ?_
    intro _ i hi
    by_cases hdg : r.digest = digest
    · rw [hdg, hold] at hi
      cases hi
    · rwa [hrs _ (fun heq => hdg (Path.blob.inj heq)) (by simp)] at hi

end

theorem BlobReader.Sound.phase (h : r.Sound digestOf disk tasks) {phase : ReadPhase}
    (hfl : ∀ file ∈ { r with phase := phase }.file, r.file = some file)
    (hsn : { r with phase := phase }.Seen digestOf disk) :
    { r with phase := phase }.Sound digestOf disk tasks :=
  ⟨h.valid, hsn, fun file hf => h.there file (hfl file hf),
    fun file hf => h.unwritten file (hfl file hf), fun file hf => h.place file (hfl file hf)⟩

theorem BlobReader.Sound.same (h : r.Sound digestOf disk tasks) {phase : ReadPhase}
    (hfl : { r with phase := phase }.file = r.file)
    (hsn : { r with phase := phase }.Seen digestOf disk ↔ r.Seen digestOf disk) :
    { r with phase := phase }.Sound digestOf disk tasks :=
  h.phase (fun _ hf => hfl.symm.trans hf) (hsn.mpr h.seen)

theorem not_hashes_of_verify {content : Content} {err : Error}
    (hvl : (parseDigest digest).isOk = true) (h : verify digestOf digest content = .error err) :
    ¬Hashes digestOf digest content := by
  intro hhs
  unfold verify at h
  split at h
  · rename_i hpr
    rw [hpr] at hvl
    cases hvl
  · rw [if_pos (show digestOf (algorithmOf digest) content = digest from hhs)] at h
    cases h

/-- **One step of a reader.** It changes nothing, clears its slot, or moves what is at the blob's
path; in the last case the reader knows its own file does not hash. -/
theorem BlobReader.next_effect {input : ReadInput} (h : r.next digestOf disk input = some s)
    (hsn : r.Sound digestOf disk tasks) : { r with phase := s.phase }.Sound digestOf disk tasks ∧
      ((s.disk = disk ∧ s.moved = none) ∨
        (s.disk = disk.remove (.quarantine r.digest) ∧ s.moved = none) ∨
        (disk.rename (.blob r.digest) (.quarantine r.digest) = some s.disk ∧
          s.moved = disk.contentAt (.blob r.digest) ∧
          ∃ file ∈ r.file, ¬Hashes digestOf r.digest (disk.content file))) := by
  unfold BlobReader.next at h
  split at h
  -- a step to a phase without a file has nothing to keep
  all_goals try
    cases h
    exact ⟨hsn.phase (fun _ hf => by cases hf) trivial, .inl ⟨rfl, rfl⟩⟩
  · rename_i file seen n hph
    have hfl : r.file = some file := by simp [BlobReader.file, hph]
    obtain ⟨rest, hrs⟩ : seen <+: disk.content file := by
      simpa [BlobReader.Seen, hph] using hsn.seen
    split at h
    · rename_i hrd
      -- nothing was left to read, so what was read is the whole file
      have hall : seen = disk.content file := by
        rw [← hrs, drop_left] at hrd
        rw [← hrs, show rest = [] by simpa using hrd, append_nil]
      split at h
      · cases h
        exact ⟨hsn.phase (fun _ hf => by cases hf) trivial, .inl ⟨rfl, rfl⟩⟩
      · rename_i err hvr
        cases h
        rw [hall] at hvr
        refine ⟨hsn.phase (fun _ hf => hfl.trans hf) ?_, .inl ⟨rfl, rfl⟩⟩
        exact not_hashes_of_verify hsn.valid hvr
    · rename_i chunk hrd
      cases h
      refine ⟨hsn.phase (fun _ hf => hfl.trans hf) ?_, .inl ⟨rfl, rfl⟩⟩
      show _ <+: disk.content file
      rw [← hrs, drop_left, prefix_append_right_inj]
      exact take_prefix _ _
  · rename_i hph
    cases h
    exact ⟨hsn.same (by simp [BlobReader.file, hph]) (by simp [BlobReader.Seen, hph]),
      .inl ⟨rfl, rfl⟩⟩
  · rename_i hph
    cases h
    exact ⟨hsn.same (by simp [BlobReader.file, hph]) (by simp [BlobReader.Seen, hph]),
      .inl ⟨rfl, rfl⟩⟩
  · rename_i hph
    cases h
    exact ⟨hsn.same (by simp [BlobReader.file, hph]) (by simp [BlobReader.Seen, hph]),
      .inr (.inl ⟨rfl, rfl⟩)⟩
  · rename_i file err hph
    have hse := hsn.seen
    rw [BlobReader.Seen, hph] at hse
    split at h
    · cases h
      exact ⟨hsn.phase (fun _ hf => by cases hf) trivial, .inl ⟨rfl, rfl⟩⟩
    · rename_i disk₁ hrn
      cases h
      refine ⟨hsn.phase (fun _ hf => by cases hf) trivial, .inr (.inr ⟨hrn, rfl, file, ?_, hse⟩)⟩
      rw [BlobReader.file, hph]
      rfl
  · cases h

theorem Traffic.Inv.set (h : w.Inv digestOf) (k : ℕ)
    (hr : r.Sound digestOf w.disk w.tasks) :
    { w with readers := w.readers.set k r }.Inv digestOf := by
  refine ⟨h.owner, h.puts, h.alone, fun r' hr' => ?_, h.moved⟩
  rcases mem_or_eq_of_mem_set hr' with hr' | rfl
  · exact h.readers r' hr'
  · exact hr

theorem Traffic.Inv.read (h : w.Inv digestOf) {input : ReadInput} (hr : w.readers[k]? = some r)
    (hnx : r.next digestOf w.disk input = some s) :
    Traffic.Inv digestOf { w with
      disk := s.disk
      readers := w.readers.set k { r with phase := s.phase }
      moved := w.moved ++ s.moved.toList.map fun content => (r.digest, content) } := by
  have hsn := h.readers r (mem_of_getElem? hr)
  obtain ⟨hsn', hds⟩ := BlobReader.next_effect hnx hsn
  have hset := h.set k hsn'
  rcases hds with ⟨hds, hmv⟩ | ⟨hds, hmv⟩ | ⟨hrn, hmv, file, hfl, hbad⟩
  · rw [hds, hmv, Option.toList_none, map_nil, append_nil]
    exact hset
  · rw [hds, hmv, Option.toList_none, map_nil, append_nil]
    exact hset.remove _
  · refine { hset.rename hrn with moved := fun m hm => ?_ }
    rcases mem_append.mp hm with hm | hm
    · exact h.moved m hm
    · obtain ⟨content, hcn, rfl⟩ := mem_map.mp hm
      rw [hmv, Option.mem_toList] at hcn
      obtain ⟨i, hi, rfl⟩ := Files.contentAt_eq_some.mp hcn
      -- what is moved is still the file the reader was opened on
      rw [hsn.place file hfl hbad i hi]
      exact hbad

/-! ## Every run -/

theorem Traffic.Inv.step {w' : Traffic} {a : Action} (h : w.Inv digestOf)
    (hok : KeepsReaders digestOf w a) (hst : w.step digestOf a = some w') : w'.Inv digestOf := by
  cases a with
  | put expected name fault =>
    obtain rfl := Option.some.inj hst
    exact h.put hok
  | commit id expected fault =>
    obtain rfl := Option.some.inj hst
    exact h.commit hok
  | task k input =>
    obtain ⟨t, ht, hmap⟩ := Option.bind_eq_some_iff.mp hst
    obtain ⟨⟨disk₁, phase⟩, hnx, rfl⟩ := Option.map_eq_some_iff.mp hmap
    exact h.task hok ht hnx
  | get digest =>
    rw [Traffic.step] at hst
    split at hst
    · obtain rfl := Option.some.inj hst
      exact h
    · rename_i r hget
      obtain rfl := Option.some.inj hst
      exact h.get hget
  | read k input =>
    obtain ⟨r, hr, hmap⟩ := Option.bind_eq_some_iff.mp hst
    obtain ⟨s, hnx, rfl⟩ := Option.map_eq_some_iff.mp hmap
    exact h.read hr hnx
  | delete digest =>
    rw [Traffic.step] at hst
    split at hst
    · obtain rfl := Option.some.inj hst
      exact h
    · rename_i disk₁ hdl
      obtain rfl := Option.some.inj hst
      unfold delete at hdl
      split at hdl
      · cases hdl
      · split at hdl
        · cases hdl
        · cases hdl
          exact h.remove _

/-- **Quarantine.** In every run of readers, `Put`s, `Commit`s and deletions in which nothing is
published under a digest while a reader of other content is open there, what a quarantine move moves
does not hash to the digest. -/
theorem moved_corrupt_of_run (digestOf : String → Content → Digest) (disk : Disk)
    {actions : List Action} {w : Traffic}
    (hok : Along (Traffic.step digestOf) (KeepsReaders digestOf) ⟨disk, [], [], []⟩ actions)
    (hrun : exec (Traffic.step digestOf) ⟨disk, [], [], []⟩ actions = some w) :
    ∀ m ∈ w.moved, ¬Hashes digestOf m.1 m.2 := by
  have hst : Traffic.Inv digestOf ⟨disk, [], [], []⟩ := by
    refine ⟨?_, ?_, ?_, ?_, ?_⟩
    · exact fun t ht => absurd ht not_mem_nil
    · exact fun t ht => absurd ht not_mem_nil
    · intro i j t u hij ht
      cases ht
    · exact fun r hr => absurd hr not_mem_nil
    · exact fun m hm => absurd hm not_mem_nil
  exact (exec_invariant (fun _ _ _ h hok hsp => Traffic.Inv.step h hok hsp) hst hok hrun).moved

/-! ## The run that breaks it -/

def damaged : Disk := ((Files.empty : Disk).link (.blob (repeated 'a'))).store 0 [2]

def twoReaders : List Action :=
  [.get (repeated 'a'), .get (repeated 'a'), .read 0 (.read 7), .read 0 (.read 7),
    .read 1 (.read 7),
    .read 1 (.read 7)]

/-- `Close` of the reader. -/
def closeOf (k : ℕ) : List Action := [.read k .close, .read k .go, .read k .go, .read k .go]

def putAgain : List Action :=
  [.put (repeated 'a') "n" false, .task 0 (.bytes [1]), .task 0 .eof, .task 0 .go, .task 0 .go,
    .task 0 .go, .task 0 .go, .task 0 .go, .task 0 .go]

/-- The second reader to close moves the good content the blob was replaced with. -/
theorem moved_replacement :
    ∃ w ∈ exec (Traffic.step sampleHash) ⟨damaged, [], [], []⟩
      (twoReaders ++ closeOf 0 ++ putAgain ++ closeOf 1),
      (repeated 'a', [1]) ∈ w.moved ∧ Hashes sampleHash (repeated 'a') [1] ∧
        w.disk.entry (.blob (repeated 'a')) = none := by
  decide +kernel

/-- The same with both readers closed before the `Put`. -/
theorem moved_corrupt_of_run_closeFirst :
    ∃ w, exec (Traffic.step sampleHash) ⟨damaged, [], [], []⟩
        (twoReaders ++ closeOf 0 ++ closeOf 1 ++ putAgain) = some w ∧
      (repeated 'a', [2]) ∈ w.moved ∧ w.disk.contentAt (.blob (repeated 'a')) = some [1] ∧
      ∀ m ∈ w.moved, ¬Hashes sampleHash m.1 m.2 := by
  have hrun : ∃ w ∈ exec (Traffic.step sampleHash) ⟨damaged, [], [], []⟩
      (twoReaders ++ closeOf 0 ++ closeOf 1 ++ putAgain),
      (repeated 'a', [2]) ∈ w.moved ∧ w.disk.contentAt (.blob (repeated 'a')) = some [1] := by
    decide +kernel
  have hok : Along (Traffic.step sampleHash) (KeepsReaders sampleHash) ⟨damaged, [], [], []⟩
      (twoReaders ++ closeOf 0 ++ closeOf 1 ++ putAgain) := by
    decide +kernel
  obtain ⟨w, hw, hmv, hcn⟩ := hrun
  exact ⟨w, hw, hmv, hcn, moved_corrupt_of_run sampleHash damaged hok hw⟩

end Trove.Blob.Fs
