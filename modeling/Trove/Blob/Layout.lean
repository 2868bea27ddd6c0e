import Trove.Blob.S3
import Trove.Lib.Except
import Trove.Lib.Path

/-!
# Where blobs, quarantined blobs and uploads are kept

A store on a filesystem keeps everything below its root directory, a store in a bucket below its key
prefix. An entry's location is a list of names without a slash behind the root or the prefix, so
that the location gives the names back, and the names the entry (`Entry.segments_injective`).
-/

namespace Trove.Blob.Layout

open Lib Lib.Strings Lib.Path List

/-- What a store keeps. -/
inductive Entry
  | blob (digest : Digest)
  | quarantine (digest : Digest)
  | upload (id : String)

def Entry.valid : Entry → Bool
  | .blob digest => validDigest digest
  | .quarantine digest => validDigest digest
  | .upload id => (validateUploadID id).isOk

/-- The part behind the algorithm. -/
def hexOf (digest : Digest) : String := (cut digest ':').2.getD ""

/-- The directory a digest is put in. -/
def fanOut (hex : String) : String := String.ofList (hex.toList.take 2)

/-! ## On a filesystem -/

/-- The parts joined to the root, unless that leaves it. -/
def confine (root : String) (parts : List String) : Except Error String :=
  let path := joinPath (root :: parts)
  match rel root path with
  | none =>
    .error (.invalid "path" ("cannot be resolved against the store root: Rel: can't make " ++
      path ++ " relative to " ++ root))
  | some rel =>
    if rel = ".." ∨ hasPrefix rel "../" then
      .error (.invalid "path" "resolves outside the store root")
    else .ok path

def pathFor (base root : String) (digest : Digest) : Except Error String :=
  match parseDigest digest with
  | .error reason => .error (.invalidDigest digest reason)
  | .ok _ => confine root [base, algorithmOf digest, fanOut (hexOf digest), hexOf digest]

def blobPath (root : String) (digest : Digest) : Except Error String := pathFor "blobs" root digest

def quarantinePath (root : String) (digest : Digest) : Except Error String :=
  pathFor "quarantine" root digest

/-- The staging file of a session. -/
def uploadPath (root id : String) : Except Error String :=
  match validateUploadID id with
  | .error err => .error err
  | .ok () => confine root ["uploads", id]

def digestFromPath (root path : String) : Option Digest :=
  match rel root path with
  | none => none
  | some rel =>
    match split rel '/' with
    | [algorithm, dir, name] =>
      match parseDigest (algorithm ++ ":" ++ name) with
      | .error _ => none
      | .ok digest => if dir ≠ fanOut name then none else some digest
    | _ => none

/-- The path of an entry. -/
def fsLocation (root : String) : Entry → Except Error String
  | .blob digest => blobPath root digest
  | .quarantine digest => quarantinePath root digest
  | .upload id => uploadPath root id

/-! ## In a bucket -/

def trim (s : String) (c : Char) : String :=
  String.ofList ((s.toList.dropWhile (· = c)).reverse.dropWhile (· = c)).reverse

def normalisePrefix (text : String) : Except Error String :=
  let trimmed := trim text '/'
  if trimmed = "" then .ok ""
  else if clean trimmed ≠ trimmed ∨ hasPrefix (clean trimmed) ".." then
    .error (.invalid "prefix" "must be a plain key prefix")
  else .ok (clean trimmed ++ "/")

def quarantineKey (root : String) (digest : Digest) : Except Error String :=
  match parseDigest digest with
  | .error reason => .error (.invalidDigest digest reason)
  | .ok _ => .ok (root ++ "quarantine" ++ "/" ++ algorithmOf digest ++ "/" ++ hexOf digest)

def digestFromKey (base key : String) : Option Digest :=
  match cutPrefix key base with
  | none => none
  | some rest =>
    match cut rest '/' with
    | (_, none) => none
    | (algorithm, some hex) =>
      if contains hex '/' then none else (parseDigest (algorithm ++ ":" ++ hex)).toOption

def walkOne (root : String) (object : Sigma fun _ : String => Content) : Option (Digest × ℕ) :=
  (digestFromKey (root ++ "blobs" ++ "/") object.1).map fun digest => (digest, object.2.length)

/-- The key of an entry. -/
def s3Location (root : String) : Entry → Except Error String
  | .blob digest => S3.blobKey root digest
  | .quarantine digest => quarantineKey root digest
  | .upload id => S3.uploadPrefixFor root id

/-- A key the store may write. -/
def IsKeyOf (root key : String) : Prop :=
  (∃ digest, S3.blobKey root digest = .ok key ∨ quarantineKey root digest = .ok key) ∨
    ∃ id base, S3.uploadPrefixFor root id = .ok base ∧
      (key = base ++ S3.sessionMarker ∨ ∃ n, key = base ++ padded S3.chunkDigits n)

/-! ## Digests and identifiers as names -/

variable {s id root key : String} {e : Entry} {digest : Digest}

variable {d base path text : String} {e' : Entry}

theorem parts_of_parseDigest (h : parseDigest s = .ok d) :
    d = s ∧ s = algorithmOf s ++ ":" ++ hexOf s ∧
      (algorithmOf s = "sha256" ∨ algorithmOf s = "sha512") ∧
      (hexOf s).toList.all isLowerHex = true ∧ 64 ≤ len (hexOf s) := by
  refine ⟨parseDigest_ok h, ?_⟩
  unfold parseDigest at h
  split at h
  · cases h
  · rename_i algorithm hex hcut
    have hal : algorithmOf s = algorithm := congrArg Prod.fst hcut
    have hhex : hexOf s = hex := by rw [hexOf, hcut]; rfl
    rw [hal, hhex]
    split at h
    · cases h
    · rename_i n hn
      split_ifs at h with hlen hall
      refine ⟨(cut_eq_some.mp hcut).1, ?_⟩
      unfold hexLength at hn
      split_ifs at hn with h256 h512
      · cases hn
        exact ⟨.inl h256, by simpa using hall, by omega⟩
      · cases hn
        exact ⟨.inr h512, by simpa using hall, by omega⟩

theorem plain_of_hex (h : s.toList.all isLowerHex = true) (hne : s ≠ "") : IsPlain s := by
  have hch := all_eq_true.mp h
  refine ⟨hne, ?_, ?_, fun hmem => absurd (hch '/' hmem) (by decide)⟩
  · rintro rfl
    exact absurd h (by decide)
  · rintro rfl
    exact absurd h (by decide)

theorem plain_of_parseDigest (h : parseDigest s = .ok d) :
    IsPlain (algorithmOf s) ∧ IsPlain (hexOf s) ∧ IsPlain (fanOut (hexOf s)) := by
  obtain ⟨-, -, hal, hhex, hlen⟩ := parts_of_parseDigest h
  have hne : hexOf s ≠ "" := by
    intro hem
    rw [hem] at hlen
    exact absurd hlen (by decide)
  refine ⟨?_, plain_of_hex hhex hne, plain_of_hex ?_ ?_⟩
  · rcases hal with heq | heq
    · rw [heq]
      decide
    · rw [heq]
      decide
  · rw [fanOut, String.toList_ofList, all_eq_true]
    exact fun c hc => all_eq_true.mp hhex c (mem_of_mem_take hc)
  · simpa [fanOut] using hne

theorem plain_of_validateUploadID (h : validateUploadID id = .ok ()) : IsPlain id := by
  unfold validateUploadID at h
  split_ifs at h with hem hln hdot hvl
  rw [not_or] at hdot
  refine ⟨hem, hdot.1, hdot.2, fun hmem => ?_⟩
  simp only [validUploadID, Bool.and_eq_true] at hvl
  exact absurd (all_eq_true.mp hvl.2 '/' hmem) (by decide)

def Entry.parts : Entry → List String
  | .blob digest => ["blobs", algorithmOf digest, fanOut (hexOf digest), hexOf digest]
  | .quarantine digest => ["quarantine", algorithmOf digest, fanOut (hexOf digest), hexOf digest]
  | .upload id => ["uploads", id]

/-- The names of its key. -/
def Entry.segments : Entry → List String
  | .blob digest => ["blobs", algorithmOf digest, hexOf digest]
  | .quarantine digest => ["quarantine", algorithmOf digest, hexOf digest]
  | .upload id => ["uploads", id, ""]

theorem digest_eq {d d' : Digest} (h : validDigest d = true) (h' : validDigest d' = true)
    (hal : algorithmOf d = algorithmOf d') (hhex : hexOf d = hexOf d') : d = d' := by
  obtain ⟨_, hd⟩ := parseDigest_of_validDigest h
  obtain ⟨_, hd'⟩ := parseDigest_of_validDigest h'
  rw [(parts_of_parseDigest hd).2.1, (parts_of_parseDigest hd').2.1, hal, hhex]

theorem Entry.segments_injective (h : e.valid = true) (h' : e'.valid = true)
    (heq : e.segments = e'.segments) : e = e' := by
  cases e <;> cases e' <;> simp_all [Entry.segments, Entry.valid]
  all_goals exact digest_eq h h' heq.1 heq.2

theorem Entry.segments_of_parts (heq : e.parts = e'.parts) : e.segments = e'.segments := by
  cases e <;> cases e' <;> simp_all [Entry.segments, Entry.parts]

/-! ## Locations -/

theorem validUpload : (validateUploadID id).isOk = true ↔ validateUploadID id = .ok () := by
  rw [isOk_iff]
  exact ⟨fun ⟨_, h⟩ => h, fun h => ⟨_, h⟩⟩

theorem Entry.plain (h : e.valid = true) : ∀ part ∈ e.parts, IsPlain part := by
  have hwr : ∀ w ∈ ["blobs", "quarantine", "uploads"], IsPlain w := by decide
  cases e with
  | blob digest | quarantine digest =>
    obtain ⟨_, hd⟩ := parseDigest_of_validDigest h
    obtain ⟨hal, hhex, hdir⟩ := plain_of_parseDigest hd
    simp [Entry.parts, hwr, hal, hhex, hdir]
  | upload id =>
    simp [Entry.parts, hwr, plain_of_validateUploadID (validUpload.mp h)]

theorem confine_text (root : Rooted) {parts : List String} (hne : parts ≠ [])
    (h : ∀ part ∈ parts, IsPlain part) :
    confine root.text parts = .ok (root.append parts h).text := by
  have hrel : rel root.text (root.append parts h).text = some (join parts '/') := by
    have htx : (root.append parts h).text ≠ root.text := fun heq => by
      have := textOf_injective (root.append parts h).plain root.plain heq
      simp [Rooted.append, hne] at this
    rw [rel_text, if_neg htx, Rooted.append, dropCommon_append]
    rfl
  have hsp : split (join parts '/') '/' = parts :=
    split_join hne fun part hpr => (h part hpr).2.2.2
  have hup : ".." ∉ parts := fun hmem => (h ".." hmem).2.2.1 rfl
  rw [confine, joinPath_text root hne h, hrel]
  refine if_neg ?_
  rintro (heq | hpf)
  · refine hup (hsp ▸ ?_)
    rw [heq]
    decide
  · obtain ⟨rest, hrs⟩ := hasPrefix_iff.mp hpf
    refine hup (hsp ▸ ?_)
    rw [show join parts '/' = ".." ++ String.singleton '/' ++ String.ofList rest from
      String.toList_inj.mp (by rw [← hrs]; simp), split_append]
    exact mem_append_left _ (by decide)

theorem pathFor_eq_ok (root : Rooted) (hpl : validDigest digest = true → ∀ part ∈
      [base, algorithmOf digest, fanOut (hexOf digest), hexOf digest], IsPlain part) :
    pathFor base root.text digest = .ok path ↔ validDigest digest = true ∧ path = textOf
      (root.parts ++ [base, algorithmOf digest, fanOut (hexOf digest), hexOf digest]) := by
  unfold pathFor
  cases hd : parseDigest digest with
  | error reason => simp [validDigest, hd, Except.isOk, Except.toBool]
  | ok d =>
    have hvl : validDigest digest = true := by simp [validDigest, hd, Except.isOk, Except.toBool]
    rw [confine_text root (cons_ne_nil _ _) (hpl hvl), Except.ok.injEq, eq_comm]
    exact ⟨fun h => ⟨hvl, h⟩, And.right⟩

theorem fsLocation_eq_ok (root : Rooted) :
    fsLocation root.text e = .ok path ↔
      e.valid = true ∧ path = textOf (root.parts ++ e.parts) := by
  cases e with
  | blob digest => exact pathFor_eq_ok root (Entry.plain (e := .blob digest))
  | quarantine digest => exact pathFor_eq_ok root (Entry.plain (e := .quarantine digest))
  | upload id =>
    rw [fsLocation, uploadPath, Entry.valid, validUpload]
    cases hid : validateUploadID id with
    | error err => simp
    | ok u =>
      rw [confine_text root (cons_ne_nil _ _)
        (Entry.plain (e := .upload id) (validUpload.mpr hid)), Except.ok.injEq, eq_comm]
      exact ⟨fun h => ⟨rfl, h⟩, And.right⟩

theorem join_three (a b c : String) : join [a, b, c] '/' = a ++ "/" ++ b ++ "/" ++ c := by
  rw [join_cons_cons, join_cons_cons, join_singleton, String.append_assoc, String.append_assoc,
    String.append_assoc]
  rfl

theorem s3Location_eq_ok :
    s3Location root e = .ok key ↔ e.valid = true ∧ key = root ++ join e.segments '/' := by
  cases e with
  | blob digest =>
    rw [s3Location, S3.blobKey, Entry.valid, validDigest, Entry.segments, join_three]
    cases parseDigest digest with
    | error reason => simp [Except.isOk, Except.toBool]
    | ok d => simp [Except.isOk, Except.toBool, hexOf, String.append_assoc, eq_comm]
  | quarantine digest =>
    rw [s3Location, quarantineKey, Entry.valid, validDigest, Entry.segments, join_three]
    cases parseDigest digest with
    | error reason => simp [Except.isOk, Except.toBool]
    | ok d => simp [Except.isOk, Except.toBool, String.append_assoc, eq_comm]
  | upload id =>
    rw [s3Location, S3.uploadPrefixFor, Entry.valid, Entry.segments, join_three]
    cases validateUploadID id with
    | error err => simp [Except.isOk, Except.toBool]
    | ok u => simp [Except.isOk, Except.toBool, String.append_assoc, eq_comm]

/-! ## Stores that share a bucket -/

theorem normalisePrefix_eq_ok (h : normalisePrefix text = .ok root) :
    root = "" ∨ ∃ x, root = x ++ String.singleton '/' := by
  unfold normalisePrefix at h
  dsimp only at h
  split_ifs at h with hem
  · exact .inl (Except.ok.inj h).symm
  · exact .inr ⟨_, (Except.ok.inj h).symm⟩

theorem eq_of_append_join {root' text' : String} {names names' : List String}
    (h : normalisePrefix text = .ok root) (h' : normalisePrefix text' = .ok root')
    (hnm : ∀ name ∈ names, '/' ∉ name.toList) (hnm' : ∀ name ∈ names', '/' ∉ name.toList)
    (hth : names.length = 3) (hth' : names'.length = 3)
    (heq : root ++ join names '/' = root' ++ join names' '/') : root = root' ∧ names = names' := by
  have hsp : ∀ {root text : String} {names : List String}, normalisePrefix text = .ok root →
      (∀ name ∈ names, '/' ∉ name.toList) → names.length = 3 →
      ∃ dirs, split (root ++ join names '/') '/' = dirs ++ names := by
    intro root text names h hnm hth
    have hne : names ≠ [] := by
      rintro rfl
      cases hth
    rcases normalisePrefix_eq_ok h with rfl | ⟨x, rfl⟩
    · exact ⟨[], by rw [String.empty_append, split_join hne hnm, nil_append]⟩
    · exact ⟨split x '/', by rw [split_append, split_join hne hnm]⟩
  obtain ⟨dirs, hdr⟩ := hsp h hnm hth
  obtain ⟨dirs', hdr'⟩ := hsp h' hnm' hth'
  rw [heq, hdr'] at hdr
  obtain ⟨-, rfl⟩ := append_inj' hdr (hth'.trans hth.symm)
  refine ⟨?_, rfl⟩
  rw [← String.toList_inj, String.toList_append, String.toList_append] at heq
  exact String.toList_inj.mp (append_cancel_right heq)

theorem digest_of_append {algorithm hex : String} {d : Digest}
    (h : parseDigest (algorithm ++ ":" ++ hex) = .ok d) :
    validDigest d = true ∧ algorithmOf d = algorithm ∧ hexOf d = hex := by
  obtain ⟨rfl, hpr, hal, hhex, -⟩ := parts_of_parseDigest h
  have hpl : ':' ∉ (algorithmOf (algorithm ++ ":" ++ hex)).toList := by
    rcases hal with heq | heq <;> rw [heq] <;> decide
  have hpl' : ':' ∉ (hexOf (algorithm ++ ":" ++ hex)).toList := fun hmem =>
    absurd (all_eq_true.mp hhex ':' hmem) (by decide)
  -- cut at every colon, the digest has the two pieces the parser found
  have hpc := split_append ':' (algorithmOf (algorithm ++ ":" ++ hex))
    (hexOf (algorithm ++ ":" ++ hex))
  rw [split_eq_singleton hpl, split_eq_singleton hpl'] at hpc
  have hsp := (split_append ':' algorithm hex).symm.trans
    ((congrArg (split · ':') hpr).trans hpc)
  obtain ⟨a, ha⟩ := length_eq_one_iff.mp (show (split algorithm ':').length = 1 by
    have hpos := length_pos_iff.mpr (split_ne_nil algorithm ':')
    have hpos' := length_pos_iff.mpr (split_ne_nil hex ':')
    have hln := congrArg List.length hsp
    simp at hln
    omega)
  rw [ha, singleton_append, singleton_append, List.cons.injEq] at hsp
  have halg := join_split algorithm ':'
  have hhx := join_split hex ':'
  rw [ha, join_singleton] at halg
  rw [hsp.2, join_singleton] at hhx
  exact ⟨by simp [validDigest, h, Except.isOk, Except.toBool], hsp.1.symm.trans halg, hhx⟩

theorem digestFromKey_eq_some :
    digestFromKey (root ++ "blobs" ++ "/") key = some digest ↔
      s3Location root (.blob digest) = .ok key := by
  rw [s3Location_eq_ok, Entry.valid, Entry.segments, join_three]
  constructor
  · intro h
    unfold digestFromKey at h
    split at h
    · cases h
    · rename_i rest hrs
      split at h
      · cases h
      · rename_i algorithm hex hcut
        split_ifs at h with hsl
        obtain ⟨hvl, hal, hhex⟩ := digest_of_append (mem_toOption.mp h)
        rw [hal, hhex, cutPrefix_eq_some.mp hrs, (cut_eq_some.mp hcut).1]
        simp only [String.append_assoc]
        exact ⟨hvl, rfl⟩
  · rintro ⟨hvl, rfl⟩
    obtain ⟨d, hd⟩ := parseDigest_of_validDigest hvl
    obtain ⟨rfl, hpr, -⟩ := parts_of_parseDigest hd
    obtain ⟨hal, hhex, -⟩ := plain_of_parseDigest hd
    have hrs : cutPrefix (root ++ ("blobs" ++ "/" ++ algorithmOf d ++ "/" ++ hexOf d))
        (root ++ "blobs" ++ "/") = some (algorithmOf d ++ "/" ++ hexOf d) := by
      rw [cutPrefix_eq_some]
      simp only [String.append_assoc]
    have hcut : cut (algorithmOf d ++ "/" ++ hexOf d) '/' = (algorithmOf d, some (hexOf d)) :=
      cut_eq_some.mpr ⟨rfl, hal.2.2.2⟩
    have hsl : contains (hexOf d) '/' = false := by
      rw [Strings.contains, ← Bool.not_eq_true, contains_iff_mem]
      exact hhex.2.2.2
    simp only [digestFromKey, hrs, hcut, hsl, Bool.false_eq_true, if_false, ← hpr, hd]
    rfl

theorem Entry.segments_plain (h : e.valid = true) : ∀ name ∈ e.segments, '/' ∉ name.toList := by
  have hsub : e.segments ⊆ "" :: e.parts := by cases e <;> simp [Entry.segments, Entry.parts]
  intro name hnm
  rcases mem_cons.mp (hsub hnm) with rfl | hmem
  · simp
  · exact (Entry.plain h name hmem).2.2.2

theorem names_of_isKeyOf (h : IsKeyOf root key) :
    ∃ names : List String, names.length = 3 ∧ (∀ name ∈ names, '/' ∉ name.toList) ∧
      key = root ++ join names '/' := by
  have hlc : ∀ e, s3Location root e = .ok key → ∃ names : List String, names.length = 3 ∧
      (∀ name ∈ names, '/' ∉ name.toList) ∧ key = root ++ join names '/' := by
    intro e he
    obtain ⟨hvl, hkey⟩ := s3Location_eq_ok.mp he
    exact ⟨e.segments, by cases e <;> rfl, Entry.segments_plain hvl, hkey⟩
  rcases h with ⟨digest, h | h⟩ | ⟨id, base, hbs, hkey⟩
  · exact hlc (.blob digest) h
  · exact hlc (.quarantine digest) h
  · obtain ⟨hvl, rfl⟩ := (s3Location_eq_ok (e := .upload id)).mp hbs
    obtain ⟨name, hnm, rfl⟩ : ∃ name : String, '/' ∉ name.toList ∧
        key = root ++ join (Entry.upload id).segments '/' ++ name := by
      rcases hkey with rfl | ⟨n, rfl⟩
      · exact ⟨_, by decide, rfl⟩
      · exact ⟨_, fun hmem => absurd (isDigit_of_mem_padded hmem) (by decide), rfl⟩
    refine ⟨["uploads", id, name], rfl, ?_, ?_⟩
    · have hid := Entry.segments_plain hvl id (by simp [Entry.segments])
      simp [hid, hnm]
    · simp [Entry.segments, join_three, String.append_assoc]

theorem not_mem_of_parseInt (h : (parseInt s).isNone = false) : '/' ∉ s.toList := by
  intro hmem
  have hnn : ∀ {ds : List Char}, '/' ∈ ds → ds.all Char.isDigit = false := fun hds =>
    Bool.eq_false_iff.mpr fun hall => absurd (all_eq_true.mp hall '/' hds) (by decide)
  unfold parseInt at h
  split at h
  rename_i negative digits heq
  have hdg : '/' ∈ digits := by
    split at heq <;> cases heq <;> simp_all
  rw [if_pos (.inr (hnn hdg))] at h
  cases h

theorem names_of_chunkOf {object : Sigma fun _ : String => Content}
    (hbs : S3.uploadPrefixFor root id = .ok base) {chunk : S3.Chunk}
    (h : S3.chunkOf base object = some chunk) :
    ∃ name : String, '/' ∉ name.toList ∧ '/' ∉ id.toList ∧
      object.1 = root ++ join ["uploads", id, name] '/' := by
  obtain ⟨hvl, rfl⟩ := (s3Location_eq_ok (e := .upload id)).mp hbs
  unfold S3.chunkOf at h
  split_ifs at h with hpr hmr hnm
  have hkey := cutPrefix_eq_some.mp (if_pos (by simpa using hpr))
  refine ⟨S3.nameIn _ object.1, not_mem_of_parseInt (Bool.eq_false_iff.mpr hnm),
    Entry.segments_plain hvl id (by simp [Entry.segments]), hkey.trans ?_⟩
  rw [← S3.nameIn, Entry.segments, join_three, join_three]
  simp only [String.append_assoc, String.empty_append]

/-! ## The digest of a file -/

theorem digestFromPath_eq_some (root path : Rooted) :
    digestFromPath (joinPath [root.text, "blobs"]) path.text = some digest ↔
      fsLocation root.text (.blob digest) = .ok path.text := by
  have hbl : ∀ part ∈ ["blobs"], IsPlain part := by decide
  rw [fsLocation_eq_ok, joinPath_text root (cons_ne_nil _ _) hbl, digestFromPath, rel_text]
  dsimp only
  constructor
  · intro h
    split_ifs at h with heq
    · cases h
    obtain ⟨common, hbs, hpt⟩ := dropCommon_spec (root.append ["blobs"] hbl).parts path.parts
    generalize dropCommon (root.append ["blobs"] hbl).parts path.parts = rest at h hbs hpt
    obtain ⟨up, down⟩ := rest
    split at h
    · rename_i algorithm dir name hsp
      split at h
      · cases h
      · rename_i d hd
        split_ifs at h with hdir
        cases h
        obtain ⟨hvl, hal, hhex⟩ := digest_of_append hd
        have hnm : List.replicate up.length ".." ++ down = [algorithm, dir, name] := by
          rw [← hsp, split_join]
          · rintro hnil
            rw [hnil] at hsp
            cases hsp
          · intro part hpr
            rcases mem_append.mp hpr with hpr | hpr
            · rw [eq_of_mem_replicate hpr]
              decide
            · exact (path.plain part (hpt ▸ mem_append_right _ hpr)).2.2.2
        -- a path that first goes up names no algorithm
        cases up with
        | cons u up =>
          rw [length_cons, replicate_succ, cons_append, List.cons.injEq] at hnm
          obtain ⟨d', hd'⟩ := parseDigest_of_validDigest hvl
          have hpl := (plain_of_parseDigest hd').1
          rw [hal, ← hnm.1] at hpl
          exact absurd rfl hpl.2.2.1
        | nil =>
          refine ⟨hvl, congrArg textOf ?_⟩
          rw [append_nil] at hbs
          rw [hpt, ← hbs, show down = _ from hnm, Entry.parts, hal, hhex,
            ← not_not.mp hdir, Rooted.append, append_assoc]
          rfl
    · cases h
  · rintro ⟨hvl, htx⟩
    obtain ⟨d, hd⟩ := parseDigest_of_validDigest hvl
    obtain ⟨rfl, hps, -⟩ := parts_of_parseDigest hd
    have hpl := Entry.plain (e := .blob d) hvl
    have hpt : path.parts = (root.append ["blobs"] hbl).parts ++
        [algorithmOf d, fanOut (hexOf d), hexOf d] := by
      refine (textOf_injective path.plain (root.append _ hpl).plain htx).trans ?_
      rw [Rooted.append, Rooted.append, append_assoc]
      rfl
    have hne : path.text ≠ (root.append ["blobs"] hbl).text := fun heq => by
      have := textOf_injective path.plain (root.append ["blobs"] hbl).plain heq
      simp [hpt] at this
    have hsp : split (join [algorithmOf d, fanOut (hexOf d), hexOf d] '/') '/' =
        [algorithmOf d, fanOut (hexOf d), hexOf d] :=
      split_join (cons_ne_nil _ _) fun part hpr =>
        (hpl part (mem_cons_of_mem _ hpr)).2.2.2
    rw [if_neg hne, hpt, dropCommon_append, length_nil, replicate_zero, nil_append,
      hsp]
    simp only [← hps, hd, ne_eq, not_true_eq_false, if_false]

/-- **Storage layout.** On a filesystem and in a bucket, exactly the valid entries have a location,
distinct entries have distinct ones, all below the root or the prefix, and a digest is read off a
location exactly when that is the digest's. Stores with distinct prefixes share no key, and no
listing of one reports an object of the other. -/
theorem layout_isolated :
    (∀ root : Rooted,
      (∀ e, e.valid = true ↔ ∃ path, fsLocation root.text e = .ok path) ∧
      (∀ e e' path, fsLocation root.text e = .ok path → fsLocation root.text e' = .ok path →
        e = e') ∧
      (∀ e path, fsLocation root.text e = .ok path → ∃ path' : Rooted, path'.text = path ∧
        root.parts <+: path'.parts ∧ root.parts ≠ path'.parts) ∧
      ∀ (path : Rooted) digest, digestFromPath (joinPath [root.text, "blobs"]) path.text =
        some digest ↔
        fsLocation root.text (.blob digest) = .ok path.text) ∧
    ∀ text root, normalisePrefix text = .ok root →
      (∀ e, e.valid = true ↔ ∃ key, s3Location root e = .ok key) ∧
      (∀ e e' key, s3Location root e = .ok key → s3Location root e' = .ok key → e = e') ∧
      (∀ e key, s3Location root e = .ok key → hasPrefix key root = true) ∧
      (∀ key digest, digestFromKey (root ++ "blobs" ++ "/") key = some digest ↔
        s3Location root (.blob digest) = .ok key) ∧
      ∀ text' root', normalisePrefix text' = .ok root' → root ≠ root' →
        ∀ object : Sigma fun _ : String => Content, IsKeyOf root' object.1 →
          ¬IsKeyOf root object.1 ∧ walkOne root object = none ∧
          ∀ id base, S3.uploadPrefixFor root id = .ok base → S3.chunkOf base object = none := by
  refine ⟨fun root => ⟨fun e => ?_, fun e e' path h h' => ?_, fun e path h => ?_, fun path digest =>
    digestFromPath_eq_some root path⟩, fun text root hrt => ⟨fun e => ?_, fun e e' key h h' => ?_,
    fun e key h => ?_, fun key digest => digestFromKey_eq_some,
      fun text' root' hrt' hne object hkey =>
    ?_⟩⟩
  · simp [fsLocation_eq_ok]
  · obtain ⟨hvl, rfl⟩ := (fsLocation_eq_ok root).mp h
    obtain ⟨hvl', heq⟩ := (fsLocation_eq_ok root).mp h'
    have hpr := textOf_injective (root.append _ (Entry.plain hvl)).plain
      (root.append _ (Entry.plain hvl')).plain heq
    exact Entry.segments_injective hvl hvl'
      (Entry.segments_of_parts (append_cancel_left hpr))
  · obtain ⟨hvl, rfl⟩ := (fsLocation_eq_ok root).mp h
    refine ⟨root.append _ (Entry.plain hvl), rfl, prefix_append _ _, fun heq => ?_⟩
    have hnil : e.parts = [] := by simpa [Rooted.append] using heq
    cases e <;> cases hnil
  · simp [s3Location_eq_ok]
  · obtain ⟨hvl, rfl⟩ := s3Location_eq_ok.mp h
    obtain ⟨hvl', heq⟩ := s3Location_eq_ok.mp h'
    refine Entry.segments_injective hvl hvl' (eq_of_append_join hrt hrt
      (Entry.segments_plain hvl) (Entry.segments_plain hvl') ?_ ?_ heq).2
    · cases e <;> rfl
    · cases e' <;> rfl
  · obtain ⟨-, rfl⟩ := s3Location_eq_ok.mp h
    rw [hasPrefix_iff, String.toList_append]
    exact prefix_append _ _
  · obtain ⟨names', hth', hsl', hkey'⟩ := names_of_isKeyOf hkey
    have hot : ∀ names : List String, names.length = 3 → (∀ name ∈ names, '/' ∉ name.toList) →
        object.1 ≠ root ++ join names '/' := fun names hth hsl heq =>
      hne (eq_of_append_join hrt hrt' hsl hsl' hth hth' (heq ▸ hkey')).1
    refine ⟨fun hown => ?_, ?_, fun id base hbs => ?_⟩
    · obtain ⟨names, hth, hsl, heq⟩ := names_of_isKeyOf hown
      exact hot names hth hsl heq
    · rw [walkOne, Option.map_eq_none_iff, Option.eq_none_iff_forall_ne_some]
      intro digest hdg
      obtain ⟨hvl, heq⟩ := s3Location_eq_ok.mp (digestFromKey_eq_some.mp hdg)
      exact hot _ rfl (Entry.segments_plain hvl) heq
    · rw [Option.eq_none_iff_forall_ne_some]
      intro chunk hch
      obtain ⟨name, hnm, hid, heq⟩ := names_of_chunkOf hbs hch
      exact hot _ rfl (by simp [hnm, hid]) heq

end Trove.Blob.Layout
