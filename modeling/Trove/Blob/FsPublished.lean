import Trove.Blob.Fs

/-!
# What stands at a blob's path

Verified content is published by renaming the staging file, so what is at a blob's path is what was
at the staging path at that moment. It hashes to the digest as long as the staging path is the
publishing call's own from its first system call on (`Separate`). Each step changes the disk in one
of a few ways (`Change`).
-/

namespace Trove.Blob.Fs

open Lib List

variable (digestOf : String → Content → Digest)

def Hashes (digest : Digest) (content : Content) : Prop :=
  digestOf (algorithmOf digest) content = digest

instance (digest : Digest) (content : Content) : Decidable (Hashes digestOf digest content) :=
  inferInstanceAs (Decidable (_ = _))

def Published (disk : Disk) : Prop :=
  ∀ digest content, disk.contentAt (.blob digest) = some content → Hashes digestOf digest content

/-! ## Calls that have a staging path to themselves -/

/-- The call is under way. -/
def Task.busy (t : Task) : Bool :=
  match t.phase with
  | .done _ => false
  | _ => true

def Task.exclusive (t : Task) : Bool :=
  match t.phase with
  | .done _ | .writing _ _ _ => false
  | _ => true

/-- No call that may change a staging path starts while a `Commit` or a `Put` on it is under way,
nor the other way round. -/
def Separate (w : World) : Event → Prop
  | .call (.openUpload _) _ => True
  | .call (.commit id _) _ => ∀ t ∈ w.tasks, t.name = id → t.busy = false
  | .call (.put _ name) _ => ∀ t ∈ w.tasks, t.name = name → t.busy = false
  | .call call _ => ∀ t ∈ w.tasks, t.name = call.name → t.exclusive = false
  | .step _ _ => True

instance (w : World) : (e : Event) → Decidable (Separate w e)
  | .call (.openUpload _) _ | .step _ _ => inferInstanceAs (Decidable True)
  | .call (.commit _ _) _ | .call (.put _ _) _ | .call (.createUpload _) _ | .call (.write _ _) _
  | .call (.cancel _) _ => inferInstanceAs (Decidable (∀ t ∈ w.tasks, _ → _))

/-- Calls under way on one staging path are all `Write`s, or there is only one. -/
def Apart (tasks : List Task) : Prop :=
  ∀ (i j : ℕ) (t u : Task), i ≠ j → tasks[i]? = some t → tasks[j]? = some u → t.name = u.name →
    t.exclusive = true → u.busy = false

/-! ## What a step does to the disk -/

variable {digestOf}

/-- What a call on a staging name may change. -/
inductive Change (name : String) (disk : Disk) : Disk → Prop
  | none : Change name disk disk
  | create : Change name disk (disk.link (.upload name))
  | write (file : ℕ) (content : Content)
      (howner : ∀ p, disk.entry p = some file → p = .upload name) :
      Change name disk (disk.store file content)
  | remove : Change name disk (disk.remove (.upload name))

def Task.Ok (digestOf : String → Content → Digest) (disk : Disk) (t : Task) : Prop :=
  match t.phase with
  | .writing file _ _ =>
    file < disk.next ∧ ∀ p, disk.entry p = some file → p = .upload t.name
  | .verifying _ file seen =>
    ∀ i, disk.entry (.upload t.name) = some i → i = file ∧ seen <+: disk.content file
  | .copying _ file seen =>
    (file < disk.next ∧ ∀ p, disk.entry p = some file → p = .upload t.name) ∧
      ∀ i, disk.entry (.upload t.name) = some i → i = file ∧ disk.content file = seen
  | .publishing expected _ _ =>
    ∀ content, disk.contentAt (.upload t.name) = some content → Hashes digestOf expected content
  | .removing _ | .done _ => True

variable {disk disk' : Disk} {name : String} {t u : Task}

section

variable (h : Change name disk disk')
include h

theorem Change.published (hp : Published digestOf disk) : Published digestOf disk' := by
  intro digest content hcn
  obtain ⟨i, hi, hc⟩ := Files.contentAt_eq_some.mp hcn
  cases h with
  | none => exact hp digest content hcn
  | create =>
    rw [Files.content_link_of_lt (disk.fresh _ _ hi)] at hc
    exact hp digest content (Files.contentAt_eq_some.mpr ⟨i, hi, hc⟩)
  | write file c how =>
    have hne : disk.entry (.blob digest) ≠ some file := by
      intro hfl
      cases how _ hfl
    rw [Files.contentAt_store_ne hne] at hcn
    exact hp digest content hcn
  | remove =>
    exact hp digest content (Files.contentAt_eq_some.mpr ⟨i, hi, hc⟩)

theorem Change.upload {other : String} (hne : other ≠ name) :
    disk'.entry (.upload other) = disk.entry (.upload other) ∧
      ∀ i, disk.entry (.upload other) = some i → disk'.content i = disk.content i := by
  have hpt : Path.upload other ≠ Path.upload name := fun heq => hne (Path.upload.inj heq)
  cases h with
  | none => exact ⟨rfl, fun _ _ => rfl⟩
  | create =>
    exact ⟨Files.entry_link_ne hpt, fun i hi => Files.content_link_of_lt (disk.fresh _ _ hi)⟩
  | write file c how =>
    refine ⟨rfl, fun i hi => Files.content_store_ne c ?_⟩
    rintro rfl
    exact hpt (how _ hi)
  | remove => exact ⟨Files.entry_remove_ne hpt, fun _ _ => rfl⟩

theorem Change.entry {file : ℕ} (hfl : file < disk.next) :
    file < disk'.next ∧ ∀ p, disk'.entry p = some file → disk.entry p = some file := by
  cases h with
  | none => exact ⟨hfl, fun _ hp => hp⟩
  | create => exact ⟨Nat.lt_succ_of_lt hfl, fun _ hp => (Files.entry_of_link hp hfl).2⟩
  | write file' c how => exact ⟨hfl, fun _ hp => hp⟩
  | remove => exact ⟨hfl, fun _ hp => (Files.entry_of_remove hp).2⟩

theorem Change.ok_other (hne : t.name ≠ name) (hok : t.Ok digestOf disk) : t.Ok digestOf disk' := by
  obtain ⟨hen, hcn⟩ := h.upload hne
  unfold Task.Ok at hok ⊢
  split at hok
  · exact ⟨(h.entry hok.1).1, fun p hp => hok.2 p ((h.entry hok.1).2 p hp)⟩
  · intro i hi
    rw [hen] at hi
    obtain ⟨rfl, hsn⟩ := hok i hi
    exact ⟨rfl, by rw [hcn i hi]; exact hsn⟩
  · refine ⟨⟨(h.entry hok.1.1).1, fun p hp => hok.1.2 p ((h.entry hok.1.1).2 p hp)⟩, ?_⟩
    intro i hi
    rw [hen] at hi
    obtain ⟨rfl, hsn⟩ := hok.2 i hi
    exact ⟨rfl, by rw [hcn i hi]; exact hsn⟩
  · intro content hcn'
    obtain ⟨i, hi, hc⟩ := Files.contentAt_eq_some.mp hcn'
    rw [hen] at hi
    rw [hcn i hi] at hc
    exact hok content (Files.contentAt_eq_some.mpr ⟨i, hi, hc⟩)
  · trivial
  · trivial

theorem Change.ok_write (hec : t.exclusive = false)
    (hok : t.Ok digestOf disk) : t.Ok digestOf disk' := by
  unfold Task.Ok at hok ⊢
  unfold Task.exclusive at hec
  split at hok
  · exact ⟨(h.entry hok.1).1, fun p hp => hok.2 p ((h.entry hok.1).2 p hp)⟩
  all_goals first | trivial | (rename_i hph; rw [hph] at hec; cases hec)

end

/-! ## Publication -/

variable {digest : Digest}

theorem published_of_rename (h : disk.rename (.upload name) (.blob digest) = some disk')
    (hp : Published digestOf disk)
    (hok : ∀ content, disk.contentAt (.upload name) = some content →
      Hashes digestOf digest content) : Published digestOf disk' := by
  obtain ⟨i, hi, hcn, -, hbl, -, hrs⟩ := Files.rename_eq_some h (by simp)
  intro digest' content hc
  obtain ⟨j, hj, hjc⟩ := Files.contentAt_eq_some.mp hc
  rw [hcn] at hjc
  by_cases heq : digest' = digest
  · subst heq
    obtain rfl : i = j := Option.some.inj (hbl.symm.trans hj)
    exact hok content (Files.contentAt_eq_some.mpr ⟨i, hi, hjc⟩)
  · rw [hrs _ (by simp) fun hpt => heq (Path.blob.inj hpt)] at hj
    exact hp digest' content (Files.contentAt_eq_some.mpr ⟨j, hj, hjc⟩)

theorem ok_other_of_rename (h : disk.rename (.upload name) (.blob digest) = some disk')
    (hne : t.name ≠ name) (hok : t.Ok digestOf disk) : t.Ok digestOf disk' := by
  obtain ⟨i, hi, hcn, hnx, hbl, hold, hrs⟩ := Files.rename_eq_some h (by simp)
  have hen : disk'.entry (.upload t.name) = disk.entry (.upload t.name) :=
    hrs _ (fun heq => hne (Path.upload.inj heq)) (by simp)
  -- a file another call writes to is not the one that was moved
  have how : ∀ file, (∀ p, disk.entry p = some file → p = .upload t.name) →
      ∀ p, disk'.entry p = some file → p = .upload t.name := by
    intro file how p hp
    by_cases hpb : p = .blob digest
    · subst hpb
      obtain rfl : i = file := Option.some.inj (hbl.symm.trans hp)
      exact absurd (Path.upload.inj (how _ hi)).symm hne
    · by_cases hpu : p = .upload name
      · subst hpu
        rw [hold] at hp
        cases hp
      · exact how p ((hrs p hpu hpb).symm.trans hp)
  unfold Task.Ok Files.contentAt at hok ⊢
  rw [hen, hcn, hnx]
  split at hok
  · exact ⟨hok.1, how _ hok.2⟩
  · exact hok
  · exact ⟨⟨hok.1.1, how _ hok.1.2⟩, hok.2⟩
  · exact hok
  · trivial
  · trivial

/-! ## One step of a call -/

variable {expected : Digest} {input : Input} {fault : Bool} {w : World}

theorem ok_verified {seen : Content}
    (h : ∀ content, disk.contentAt (.upload t.name) = some content → content = seen) :
    { t with phase := verified digestOf expected seen }.Ok digestOf disk := by
  unfold verified
  cases hvr : verify digestOf expected seen with
  | error err => trivial
  | ok =>
    intro content hcn
    rw [h content hcn]
    unfold verify at hvr
    split at hvr
    · cases hvr
    · split_ifs at hvr with hhs
      exact hhs

theorem ok_published {size : ℕ} {err : Option FsError} :
    { t with phase := t.published expected size err }.Ok digestOf disk := by
  unfold Task.published
  split
  · trivial
  · split_ifs <;> trivial

/-- **One step.** A call that goes on keeps what it relies on; it changes the disk only on its own
staging path, or it publishes what is there. -/
theorem Task.next_cases {phase : Phase} (h : t.Next digestOf disk disk' phase)
    (hok : t.Ok digestOf disk) :
    { t with phase := phase }.Ok digestOf disk' ∧
      (Change t.name disk disk' ∨
        ∃ expected size stage, t.phase = .publishing expected size stage ∧
          disk.rename (.upload t.name) (.blob expected) = some disk') := by
  unfold Task.Ok at hok
  cases h with
  | @append file offset written chunk hph =>
    rw [hph] at hok
    exact ⟨hok, .inl (.write file _ hok.2)⟩
  | @read expected file seen n hph =>
    rw [hph] at hok
    refine ⟨fun i hi => ?_, .inl .none⟩
    obtain ⟨rfl, rest, hrs⟩ := hok i hi
    refine ⟨rfl, ?_⟩
    rw [← hrs, drop_left, prefix_append_right_inj]
    exact take_prefix _ _
  | @verify expected file seen hph hend =>
    rw [hph] at hok
    refine ⟨ok_verified fun content hcn => ?_, .inl .none⟩
    obtain ⟨i, hi, hc⟩ := Files.contentAt_eq_some.mp hcn
    obtain ⟨rfl, rest, hrs⟩ := hok i hi
    -- nothing was left to read
    rw [← hrs, drop_left] at hend
    rw [← hc, ← hrs, hend, append_nil]
  | @copy expected file seen chunk hph =>
    rw [hph] at hok
    refine ⟨⟨hok.1, fun i hi => ?_⟩, .inl (.write file _ hok.1.2)⟩
    obtain ⟨rfl, hsn⟩ := hok.2 i hi
    refine ⟨rfl, ?_⟩
    rw [Files.writeAt_length chunk _ (congrArg List.length hsn.symm), Files.append,
      Files.content_store_self, hsn]
  | @copied expected file seen hph =>
    rw [hph] at hok
    refine ⟨ok_verified fun content hcn => ?_, .inl .none⟩
    obtain ⟨i, hi, hc⟩ := Files.contentAt_eq_some.mp hcn
    obtain ⟨rfl, hsn⟩ := hok.2 i hi
    exact hc.symm.trans hsn
  | publish stage' hph =>
    rw [hph] at hok
    exact ⟨hok, .inl .none⟩
  | @rename expected size disk' hph hrn =>
    refine ⟨fun content hcn => ?_, .inr ⟨expected, size, .rename, hph, hrn⟩⟩
    -- the staging path is free after the move
    obtain ⟨i, -, -, -, -, hold, -⟩ := Files.rename_eq_some hrn (by simp)
    obtain ⟨j, hj, -⟩ := Files.contentAt_eq_some.mp hcn
    rw [hold] at hj
    cases hj
  | published err hph => exact ⟨ok_published, .inl .none⟩
  | fail => exact ⟨trivial, .inl .none⟩
  | removed hph => exact ⟨trivial, .inl .remove⟩
  | answer => exact ⟨trivial, .inl .none⟩

theorem Task.busy_of_next {r : Disk × Phase} (h : t.next digestOf disk input = some r) :
    t.busy = true := by
  unfold Task.busy
  split
  · rename_i answer hph
    simp [Task.next, hph] at h
  · rfl

theorem Task.exclusive_of_next {phase : Phase} (h : t.Next digestOf disk disk' phase)
    (hec : { t with phase := phase }.exclusive = true) : t.exclusive = true := by
  cases h with
  | append chunk hph => cases hec
  | removed hph => cases hec
  | answer => cases hec
  | fail hbs hwr =>
    unfold Task.exclusive
    split
    · rename_i answer hph
      exact absurd hph (hbs answer)
    · rename_i file offset written hph
      exact absurd hph (hwr file offset written)
    · rfl
  | _ => simp [Task.exclusive, *]

theorem Task.exclusive_of_not_busy (h : t.busy = false) : t.exclusive = false := by
  unfold Task.busy at h
  unfold Task.exclusive
  cases hph : t.phase <;> simp_all

/-! ## The start of a call -/

theorem Call.Started.ok {call : Call} (h : Call.Started disk call disk' t.phase)
    (hnm : t.name = call.name) : t.Ok digestOf disk' ∧ Change call.name disk disk' := by
  unfold Task.Ok
  rw [hnm]
  generalize t.phase = phase at h
  cases h with
  | answered call answer => exact ⟨trivial, .none⟩
  | created id => exact ⟨trivial, .create⟩
  | writing hfl => exact ⟨⟨disk.fresh _ _ hfl, fun p hp => disk.single _ _ _ hp hfl⟩, .none⟩
  | verifying hfl =>
    exact ⟨fun i hi => ⟨Option.some.inj (hi.symm.trans hfl), nil_prefix⟩, .none⟩
  | cancelled id => exact ⟨trivial, .remove⟩
  | copying expected name =>
    refine ⟨⟨⟨Nat.lt_succ_self _, fun p hp => ?_⟩, fun i hi => ?_⟩, .create⟩
    · exact (disk.link (.upload name)).single _ _ _ hp Files.entry_link_self
    · exact ⟨Option.some.inj (hi.symm.trans Files.entry_link_self), Files.content_link_self⟩

theorem Call.Started.phase {call : Call} {phase : Phase} (h : Call.Started disk call disk' phase)
    (hph : t.phase = phase) :
    match call with
    | .openUpload _ => disk' = disk ∧ t.busy = false
    | .createUpload _ | .cancel _ => t.busy = false
    | .write _ _ => t.exclusive = false
    | .commit _ _ | .put _ _ => True := by
  unfold Task.busy Task.exclusive
  rw [hph]
  cases h with
  | answered call answer => cases call <;> simp
  | created id => rfl
  | writing hfl => rfl
  | verifying hfl => trivial
  | cancelled id => rfl
  | copying expected name => trivial

/-! ## Every step -/

/-- What every state reached satisfies. -/
structure Inv (digestOf : String → Content → Digest) (w : World) : Prop where
  published : Published digestOf w.disk
  ok : ∀ t ∈ w.tasks, t.Ok digestOf w.disk
  apart : Apart w.tasks

theorem Separate.others {call : Call} {t : Task} {disk' : Disk} (h : Separate w (.call call fault))
    (hst : Call.Started w.disk call disk' t.phase) {u : Task} (hu : u ∈ w.tasks)
    (hnm : u.name = call.name) :
    (u.exclusive = false ∨ disk' = w.disk) ∧ (u.exclusive = true → t.busy = false) ∧
      (t.exclusive = true → u.busy = false) := by
  have hph := hst.phase rfl
  cases call with
  | openUpload id =>
    refine ⟨.inr hph.1, fun _ => hph.2, fun hec => ?_⟩
    rw [Task.exclusive_of_not_busy hph.2] at hec
    cases hec
  | createUpload id =>
    have hot : u.exclusive = false := h u hu hnm
    refine ⟨.inl hot, fun _ => hph, fun hec => ?_⟩
    rw [Task.exclusive_of_not_busy hph] at hec
    cases hec
  | write id offset =>
    have hot : u.exclusive = false := h u hu hnm
    refine ⟨.inl hot, fun hec => ?_, fun hec => ?_⟩
    · rw [hot] at hec
      cases hec
    · rw [show t.exclusive = false from hph] at hec
      cases hec
  | cancel id =>
    have hot : u.exclusive = false := h u hu hnm
    refine ⟨.inl hot, fun _ => hph, fun hec => ?_⟩
    rw [Task.exclusive_of_not_busy hph] at hec
    cases hec
  | commit id expected | put expected name =>
    have hid : u.busy = false := h u hu hnm
    have hot := Task.exclusive_of_not_busy hid
    refine ⟨.inl hot, fun hec => ?_, fun _ => hid⟩
    rw [hot] at hec
    cases hec

theorem Inv.call {call : Call} (h : Inv digestOf w) (hsp : Separate w (.call call fault)) {t : Task}
    {disk' : Disk} (hst : call.start w.disk fault = (disk', t)) :
    Inv digestOf ⟨disk', w.tasks ++ [t]⟩ := by
  obtain ⟨hnm, -, hsr⟩ := Call.started hst
  obtain ⟨hok, hch⟩ : t.Ok digestOf disk' ∧ Change call.name w.disk disk' := hsr.ok hnm
  have hot := fun u hu => hsp.others hsr (u := u) hu
  refine ⟨hch.published h.published, ?_, ?_⟩
  · intro u hu
    rcases mem_append.mp hu with hu | hu
    · by_cases hun : u.name = call.name
      · rcases (hot u hu hun).1 with hec | hsm
        · exact hch.ok_write hec (h.ok u hu)
        · rw [hsm]
          exact h.ok u hu
      · exact hch.ok_other hun (h.ok u hu)
    · rw [mem_singleton.mp hu]
      exact hok
  · exact forall_pairs_concat h.apart fun u hu =>
      ⟨fun hut => (hot u hu (hut.trans hnm)).2.1,
        fun htu => (hot u hu (htu.symm.trans hnm)).2.2⟩

theorem Inv.next {k : ℕ} {t : Task} {disk' : Disk} {phase : Phase} (h : Inv digestOf w)
    (ht : w.tasks[k]? = some t) (hnx : t.next digestOf w.disk input = some (disk', phase)) :
    Inv digestOf ⟨disk', w.tasks.set k { t with phase := phase }⟩ := by
  have hmem := mem_of_getElem? ht
  have hbs := Task.busy_of_next hnx
  have hnx := Task.next_of_eq_some hnx
  obtain ⟨hok, hds⟩ := Task.next_cases hnx (h.ok t hmem)
  -- a call on the same path is a `Write` beside a `Write`, or over
  have hot : ∀ (j : ℕ) (u : Task), j ≠ k → w.tasks[j]? = some u → u.Ok digestOf disk' := by
    intro j u hjk hu
    have hu' := h.ok u (mem_of_getElem? hu)
    by_cases hnm : u.name = t.name
    · have hec : u.exclusive = false := by
        cases hx : u.exclusive with
        | false => rfl
        | true =>
          rw [h.apart j k u t hjk hu ht hnm hx] at hbs
          cases hbs
      rcases hds with hch | ⟨expected, size, stage, hph, -⟩
      · exact hch.ok_write hec hu'
      · have hid := h.apart k j t u (Ne.symm hjk) ht hu hnm.symm
          (by simp [Task.exclusive, hph])
        unfold Task.busy at hid
        unfold Task.Ok
        split at hid
        · rename_i answer hdn
          rw [hdn]
          trivial
        · cases hid
    · rcases hds with hch | ⟨expected, size, stage, -, hrn⟩
      · exact hch.ok_other hnm hu'
      · exact ok_other_of_rename hrn hnm hu'
  refine ⟨?_, ?_, ?_⟩
  · rcases hds with hch | ⟨expected, size, stage, hph, hrn⟩
    · exact hch.published h.published
    · have htok := h.ok t hmem
      rw [Task.Ok, hph] at htok
      exact published_of_rename hrn h.published htok
  · intro u hu
    obtain ⟨j, hj⟩ := mem_iff_getElem?.mp hu
    rcases eq_of_getElem?_set hj with ⟨-, rfl⟩ | ⟨hjk, hold⟩
    · exact hok
    · exact hot j u hjk hold
  · -- the call that went on is exclusive only if it was, and it was under way
    refine forall_pairs_set h.apart fun j u hjk hu => ⟨fun hut hec => ?_, fun htu hx => ?_⟩
    · rw [h.apart j k u t hjk hu ht hut hec] at hbs
      cases hbs
    · exact h.apart k j t u (Ne.symm hjk) ht hu htu (Task.exclusive_of_next hnx hx)

theorem Inv.step {w' : World} {e : Event} (h : Inv digestOf w) (hsp : Separate w e)
    (hst : w.step digestOf e = some w') : Inv digestOf w' := by
  cases e with
  | call call fault =>
    obtain rfl := Option.some.inj hst
    exact h.call hsp rfl
  | step k input =>
    obtain ⟨⟨disk', tasks'⟩, had, rfl⟩ := Option.map_eq_some_iff.mp hst
    obtain ⟨t, t', ht, hnx, rfl⟩ := advance_eq_some had
    obtain ⟨⟨disk₁, phase⟩, hph, heq⟩ := Option.map_eq_some_iff.mp hnx
    cases heq
    exact h.next ht hph

/-- **Published content.** From a disk whose blobs hash to their digests, after every run of calls
of any handles and `Put`s that have their staging paths to themselves while they publish, every file
at a blob's path hashes to the digest in its name. -/
theorem published_of_run (digestOf : String → Content → Digest) (disk : Disk)
    (hdisk : Published digestOf disk) {events : List Event} {w : World}
    (hseparate : Along (World.step digestOf) Separate ⟨disk, []⟩ events)
    (hrun : exec (World.step digestOf) ⟨disk, []⟩ events = some w) :
    Published digestOf w.disk := by
  have hst : Inv digestOf ⟨disk, []⟩ := by
    refine ⟨hdisk, fun t ht => ?_, fun i j t u hij ht => ?_⟩ <;> cases ht
  have hinv := exec_invariant (fun w e w' h hok hsp => Inv.step h hok hsp) hst hseparate hrun
  exact hinv.published

/-! ## The run that breaks it -/

def sampleHash (_ : String) (content : Content) : Digest :=
  if content = [1] then repeated 'a' else repeated 'b'

def appendAfterCommit : List Event :=
  [.call (.createUpload "u") false, .call (.write "u" 0) false, .step 1 (.bytes [1]), .step 1 .eof,
    .call (.write "u" 1) false, .call (.commit "u" (repeated 'a')) false, .step 3 (.take 7),
    .step 3 (.take 7), .step 3 .go, .step 3 .go, .step 3 .go, .step 3 .go, .step 2 (.bytes [2])]

/-- A `Write` that opened the file before a `Commit` through another handle appends to the published
blob. -/
theorem published_appended :
    ∃ w ∈ exec (World.step sampleHash) ⟨Files.empty, []⟩ appendAfterCommit,
      w.disk.contentAt (.blob (repeated 'a')) = some [1, 2] ∧
        ¬Hashes sampleHash (repeated 'a') [1, 2] := by
  decide +kernel

/-- The same calls with the second `Write` after the `Commit` is over. -/
def commitFirst : List Event :=
  [.call (.createUpload "u") false, .call (.write "u" 0) false, .step 1 (.bytes [1]), .step 1 .eof,
    .call (.commit "u" (repeated 'a')) false, .step 2 (.take 7), .step 2 (.take 7), .step 2 .go,
    .step 2 .go, .step 2 .go, .step 2 .go, .step 2 .go, .step 2 .go, .call (.write "u" 1) false]

theorem published_of_run_commitFirst :
    ∃ w, exec (World.step sampleHash) ⟨Files.empty, []⟩ commitFirst = some w ∧
      w.disk.contentAt (.blob (repeated 'a')) = some [1] ∧ Published sampleHash w.disk := by
  have hrun : ∃ w ∈ exec (World.step sampleHash) ⟨Files.empty, []⟩ commitFirst,
      w.disk.contentAt (.blob (repeated 'a')) = some [1] := by decide +kernel
  have hsp : Along (World.step sampleHash) Separate ⟨Files.empty, []⟩ commitFirst := by
    decide +kernel
  obtain ⟨w, hw, hcn⟩ := hrun
  have hem : Published sampleHash Files.empty := fun digest content h => by cases h
  exact ⟨w, hw, hcn, published_of_run sampleHash Files.empty hem hsp hw⟩

end Trove.Blob.Fs
