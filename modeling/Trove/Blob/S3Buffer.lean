import Trove.Blob.S3

/-!
# An upload session is a buffer

What a bucket holds of a session (`Stored`) determines every listing up to its order, and the order
is that of the writes as long as the numbers of the pieces have six digits. So the handle and the
bucket stand for a buffer that is appended to, call after call. The millionth piece is listed in
front of most others (`session_not_buffer`).
-/

namespace Trove.Blob.S3

open Lib AList

/-! ## What a bucket holds of a session -/

section stored

variable {bucket : Bucket} {base : String} {pieces : List Content}

/-- The key of a chunk. -/
def keyAt (base : String) (n : ℕ) : String := base ++ padded chunkDigits n

/-- The bucket holds the marker and the pieces, and nothing else under the session's keys. -/
structure Stored (bucket : Bucket) (base : String) (pieces : List Content) : Prop where
  marker : bucket.lookup (base ++ sessionMarker) = some []
  piece : ∀ i bytes, pieces[i]? = some bytes → bucket.lookup (keyAt base (i + 1)) = some bytes
  only : ∀ key bytes, bucket.lookup key = some bytes → Strings.hasPrefix key base = true →
    key = base ++ sessionMarker ∨ ∃ i < pieces.length, key = keyAt base (i + 1)

theorem hasPrefix_append (base name : String) : Strings.hasPrefix (base ++ name) base = true := by
  rw [Strings.hasPrefix_iff, String.toList_append]
  exact List.prefix_append _ _

theorem nameIn_append (base name : String) : nameIn base (base ++ name) = name := by
  rw [nameIn, String.toList_append, List.drop_left, String.ofList_toList]

theorem keyAt_injective (base : String) : Function.Injective (keyAt base) := by
  intro m n h
  have hls := congrArg String.toList h
  simp only [keyAt, String.toList_append, List.append_cancel_left_eq] at hls
  exact padded_injective _ (String.toList_injective hls)

theorem keyAt_ne_marker (base : String) (n : ℕ) : keyAt base n ≠ base ++ sessionMarker := by
  intro h
  have hls := congrArg String.toList h
  simp only [keyAt, String.toList_append, List.append_cancel_left_eq] at hls
  have hs : 's' ∈ (padded chunkDigits n).toList := by
    rw [hls]
    decide
  exact absurd (isDigit_of_mem_padded hs) (by decide)

theorem chunkOf_keyAt {n : ℕ} (hn : n < 2 ^ 63) (bytes : Content) :
    chunkOf base ⟨keyAt base n, bytes⟩ = some ⟨keyAt base n, bytes.length⟩ := by
  have hnm : nameIn base (keyAt base n) ≠ sessionMarker := by
    rw [keyAt, nameIn_append]
    intro h
    exact keyAt_ne_marker base n (by rw [keyAt, h])
  have hpr : (Strings.parseInt (nameIn base (keyAt base n))).isNone = false := by
    rw [keyAt, nameIn_append, parseInt_padded hn]
    rfl
  have hpf : ¬ Strings.hasPrefix (keyAt base n) base = false := by
    rw [keyAt, hasPrefix_append]
    decide
  unfold chunkOf
  rw [if_neg hpf, if_neg hnm, if_neg (by simp [hpr])]

def numbered (base : String) (pieces : List Content) : List Chunk :=
  pieces.mapIdx fun i bytes => ⟨keyAt base (i + 1), bytes.length⟩

theorem mem_numbered {c : Chunk} : c ∈ numbered base pieces ↔
    ∃ i bytes, pieces[i]? = some bytes ∧ c = ⟨keyAt base (i + 1), bytes.length⟩ := by
  unfold numbered
  rw [List.mem_mapIdx]
  constructor
  · rintro ⟨i, hi, rfl⟩
    exact ⟨i, pieces[i], List.getElem?_eq_getElem hi, rfl⟩
  · rintro ⟨i, bytes, hget, rfl⟩
    obtain ⟨hi, rfl⟩ := List.getElem?_eq_some_iff.mp hget
    exact ⟨i, hi, rfl⟩

theorem map_key_numbered : (numbered base pieces).map Chunk.key =
    (List.range pieces.length).map fun i => keyAt base (i + 1) := by
  apply List.ext_getElem
  · simp [numbered]
  · intro i hi hi'
    simp [numbered]

theorem nodup_key_numbered : ((numbered base pieces).map Chunk.key).Nodup := by
  rw [map_key_numbered]
  refine List.nodup_range.map fun i j h => ?_
  have := keyAt_injective base h
  omega

theorem increasing_numbered (h : pieces.length < 10 ^ chunkDigits) :
    Increasing Chunk.key (numbered base pieces) := by
  have hky : ((numbered base pieces).map Chunk.key).Pairwise (· < ·) := by
    rw [map_key_numbered, List.pairwise_map]
    refine List.pairwise_lt_range.imp_of_mem fun {i j} hi hj hij => ?_
    rw [List.mem_range] at hi hj
    rw [keyAt, keyAt, append_lt_append_iff,
      padded_lt_padded (by decide) (by omega) (by omega)]
    omega
  exact List.pairwise_map.mp hky

theorem chunkOf_eq_some {object : Sigma fun _ : String => Content} {c : Chunk}
    (h : chunkOf base object = some c) :
    Strings.hasPrefix object.1 base = true ∧ nameIn base object.1 ≠ sessionMarker ∧
      c = ⟨object.1, object.2.length⟩ := by
  unfold chunkOf at h
  split_ifs at h with hbs hnm hnb
  cases h
  exact ⟨by simpa using hbs, hnm, rfl⟩

theorem nodup_key_listed (bucket : Bucket) (base : String) :
    ((bucket.entries.filterMap (chunkOf base)).map Chunk.key).Nodup := by
  have hsub := @map_filterMap_sublist _ _ _ (chunkOf base) Sigma.fst Chunk.key
    (fun object c h => by rw [(chunkOf_eq_some h).2.2]) bucket.entries
  exact List.Nodup.sublist hsub bucket.nodupKeys

/-- **Reading a session back.** If every object delivers its content, in whatever pieces, then in
whatever pieces a commit reads the chunks that are listed, every read returns and it is handed the
stored pieces one after the other, and then the end. -/
theorem chunkReader_delivers {σ : Type} (objects : Objects σ) (bucket : Bucket) (base : String)
    (hserves : objects.Serves bucket) :
    let reader : ChunkReader σ := ⟨none, listChunks bucket base⟩
    Delivers .eof (settled (ChunkReader.read objects)) reader
        (Session.streamed bucket (listChunks bucket base)) ∧
      ∀ ns, (∀ n ∈ ns, 0 < n) → ∀ n, 0 < n → ∃ rounds,
        (ChunkReader.read objects rounds
          (after (settled (ChunkReader.read objects)) reader ns) n).isSome := by
  refine delivers_of_loop ChunkReader.read_succ
    (fun r content n hn h => ChunkReader.returns_of_has hn hserves h) ⟨fun c hc => ?_, rfl⟩
  obtain ⟨object, hmem, hck⟩ := List.mem_filterMap.mp (mem_sortBy.mp hc)
  rw [(chunkOf_eq_some hck).2.2]
  exact ⟨object.2, mem_lookup_iff.mpr hmem⟩

/-- Two chunks, the marker between them in the listing. -/
def twoChunks : Bucket :=
  ((AList.insert "u/000002" [3] ∅).insert "u/session" []).insert "u/000001" [1, 2]

theorem chunkReader_delivers_two :
    Delivers .eof (settled (ChunkReader.read (.whole twoChunks))) ⟨none, listChunks twoChunks "u/"⟩
      [1, 2, 3] := by
  have hall : Session.streamed twoChunks (listChunks twoChunks "u/") =
    [1, 2, 3] := by decide +kernel
  rw [← hall]
  exact (chunkReader_delivers _ twoChunks "u/" (Objects.whole_serves twoChunks)).1

namespace Stored

section

variable (h : Stored bucket base pieces)
include h

theorem mem_listed (hn : pieces.length < 2 ^ 63) {c : Chunk} :
    c ∈ bucket.entries.filterMap (chunkOf base) ↔ c ∈ numbered base pieces := by
  rw [List.mem_filterMap, mem_numbered]
  constructor
  · rintro ⟨⟨key, bytes⟩, hmem, hch⟩
    obtain ⟨hbs, hnm, rfl⟩ := chunkOf_eq_some hch
    have hlk : bucket.lookup key = some bytes := mem_lookup_iff.mpr hmem
    rcases h.only key bytes hlk hbs with rfl | ⟨i, hi, rfl⟩
    · exact absurd (nameIn_append base sessionMarker) hnm
    · have hpc := h.piece i pieces[i] (List.getElem?_eq_getElem hi)
      obtain rfl : bytes = pieces[i] := Option.some.inj (hlk.symm.trans hpc)
      exact ⟨i, pieces[i], List.getElem?_eq_getElem hi, rfl⟩
  · rintro ⟨i, bytes, hget, rfl⟩
    obtain ⟨hi, -⟩ := List.getElem?_eq_some_iff.mp hget
    exact ⟨⟨keyAt base (i + 1), bytes⟩, mem_lookup_iff.mp (h.piece i bytes hget),
      chunkOf_keyAt (by omega) bytes⟩

theorem listChunks_eq (hn : pieces.length < 2 ^ 63) :
    listChunks bucket base = sortBy Chunk.key (numbered base pieces) := by
  have hls := increasing_sortBy (nodup_key_listed bucket base)
  have hnm := increasing_sortBy (@nodup_key_numbered base pieces)
  refine hls.eq_of_mem_iff hnm fun c => ?_
  rw [mem_sortBy, mem_sortBy, h.mem_listed hn]

theorem listChunks_of_fits
    (hft : pieces.length < 10 ^ chunkDigits) : listChunks bucket base = numbered base pieces := by
  have hn : pieces.length < 2 ^ 63 := hft.trans (by decide)
  have hin := @increasing_numbered base pieces hft
  rw [h.listChunks_eq hn]
  refine (increasing_sortBy nodup_key_numbered).eq_of_mem_iff hin fun c => ?_
  rw [mem_sortBy]

theorem streamed_numbered : Session.streamed bucket (numbered base pieces) = pieces.flatten := by
  have hmap : (numbered base pieces).map (fun c => (bucket.lookup c.key).getD []) = pieces := by
    apply List.ext_getElem
    · simp [numbered]
    · intro i hi hi'
      have hbn : i < (numbered base pieces).length := by simpa using hi
      have hch : (numbered base pieces)[i] = ⟨keyAt base (i + 1), pieces[i].length⟩ := by
        simp [numbered]
      rw [List.getElem_map, hch, h.piece i pieces[i] (List.getElem?_eq_getElem hi')]
      rfl
  rw [Session.streamed, hmap]

theorem sum_size (hn : pieces.length < 2 ^ 63) :
    ((listChunks bucket base).map Chunk.size).sum = pieces.flatten.length ∧
      (listChunks bucket base).length = pieces.length := by
  have hpr : (listChunks bucket base).Perm (numbered base pieces) := by
    rw [h.listChunks_eq hn]
    exact perm_sortBy _
  have hsz : (numbered base pieces).map Chunk.size = pieces.map List.length := by
    apply List.ext_getElem
    · simp [numbered]
    · intro i hi hi'
      simp [numbered]
  constructor
  · rw [(hpr.map Chunk.size).sum_nat, hsz, List.length_flatten]
  · rw [hpr.length_eq, numbered, List.length_mapIdx]

theorem congr {bucket' : Bucket}
    (hsm : ∀ key, Strings.hasPrefix key base = true → bucket'.lookup key = bucket.lookup key) :
    Stored bucket' base pieces := by
  refine ⟨?_, fun i bytes hget => ?_, fun key bytes hkey hbs => ?_⟩
  · rw [hsm _ (hasPrefix_append base _), h.marker]
  · rw [hsm (keyAt base (i + 1)) (hasPrefix_append base _), h.piece i bytes hget]
  · exact h.only key bytes (hsm key hbs ▸ hkey) hbs

theorem lookup_next : bucket.lookup (keyAt base (pieces.length + 1)) = none := by
  by_contra hne
  obtain ⟨bytes, hby⟩ := Option.ne_none_iff_exists'.mp hne
  rcases h.only _ bytes hby (hasPrefix_append base _) with hmr | ⟨i, hi, hkey⟩
  · exact keyAt_ne_marker base _ hmr
  · have := keyAt_injective base hkey
    omega

theorem concat (bytes : Content) :
    Stored (bucket.insert (keyAt base (pieces.length + 1)) bytes) base (pieces ++ [bytes]) := by
  refine ⟨?_, fun i b hget => ?_, fun key b hkey hbs => ?_⟩
  · rw [lookup_insert_ne (keyAt_ne_marker base _).symm, h.marker]
  · rcases Nat.lt_or_ge i pieces.length with hi | hi
    · rw [List.getElem?_append_left hi] at hget
      have hne : keyAt base (i + 1) ≠ keyAt base (pieces.length + 1) := by
        intro heq
        have := keyAt_injective base heq
        omega
      rw [lookup_insert_ne hne, h.piece i b hget]
    · rw [List.getElem?_append_right hi] at hget
      obtain ⟨hlen, rfl⟩ := List.getElem?_eq_some_iff.mp hget
      obtain rfl : i = pieces.length := by
        simp at hlen
        omega
      simp
  · rw [lookup_insert_eq_some] at hkey
    rw [List.length_append, List.length_singleton]
    rcases hkey with ⟨rfl, -⟩ | ⟨-, hold⟩
    · exact .inr ⟨pieces.length, by omega, rfl⟩
    · rcases h.only key b hold hbs with hmr | ⟨i, hi, hkey⟩
      · exact .inl hmr
      · exact .inr ⟨i, by omega, hkey⟩

theorem insert_erase (bytes : Content) :
    Stored ((bucket.insert (keyAt base (pieces.length + 1)) bytes).erase
      (keyAt base (pieces.length + 1))) base pieces := by
  refine h.congr fun key _ => ?_
  by_cases hkey : key = keyAt base (pieces.length + 1)
  · rw [hkey, lookup_erase, h.lookup_next]
  · rw [lookup_erase_ne hkey, lookup_insert_ne hkey]

end

end Stored

theorem lookup_foldl_erase (chunks : List Chunk) (bucket : Bucket) (key : String) :
    (chunks.foldl (fun b c => b.erase c.key) bucket).lookup key =
      if ∃ c ∈ chunks, c.key = key then none else bucket.lookup key := by
  induction chunks generalizing bucket with
  | nil => simp
  | cons c chunks ih =>
    rw [List.foldl_cons, ih]
    by_cases hrs : ∃ c ∈ chunks, c.key = key
    · obtain ⟨d, hd, hkey⟩ := hrs
      rw [if_pos ⟨d, hd, hkey⟩, if_pos ⟨d, .tail _ hd, hkey⟩]
    · rw [if_neg hrs]
      by_cases hkey : c.key = key
      · rw [if_pos ⟨c, .head _, hkey⟩, ← hkey, lookup_erase]
      · rw [if_neg (by simpa [hkey] using hrs), lookup_erase_ne (Ne.symm hkey)]

def Absent (bucket : Bucket) (base : String) : Prop :=
  ∀ key, Strings.hasPrefix key base = true → bucket.lookup key = none

theorem Stored.discard (h : Stored bucket base pieces) (hn : pieces.length < 2 ^ 63) {u : Session}
    (hu : u.base = base) : Absent (u.discard bucket).2 base := by
  subst hu
  intro key hbs
  by_contra hne
  obtain ⟨bytes, hby⟩ := Option.ne_none_iff_exists'.mp hne
  unfold Session.discard at hby
  rw [lookup_erase_eq_some, lookup_foldl_erase] at hby
  obtain ⟨hmr, hby⟩ := hby
  split_ifs at hby with hls
  rcases h.only key bytes hby hbs with rfl | ⟨i, hi, rfl⟩
  · exact hmr rfl
  · refine hls ⟨⟨keyAt u.base (i + 1), pieces[i].length⟩, ?_, rfl⟩
    rw [h.listChunks_eq hn, mem_sortBy, mem_numbered]
    exact ⟨i, pieces[i], List.getElem?_eq_getElem hi, rfl⟩

theorem Absent.discard (h : Absent bucket base) {u : Session} :
    Absent (u.discard bucket).2 base := by
  intro key hbs
  by_contra hne
  obtain ⟨bytes, hby⟩ := Option.ne_none_iff_exists'.mp hne
  unfold Session.discard at hby
  rw [lookup_erase_eq_some, lookup_foldl_erase] at hby
  obtain ⟨-, hby⟩ := hby
  split_ifs at hby
  rw [h key hbs] at hby
  cases hby

end stored

/-! ## The session is the buffer -/

section simulation

variable {digestOf : String → Content → Digest} {root id base : String} {w : World} {b : Buffer}

/-- The pieces are counted in an `int`, a commit finds no more of them than six digits can number,
and what happens elsewhere stays there. -/
def Fits (base : String) (b : Buffer) : Op → Prop
  | .write _ => ∀ pieces, b = some pieces → pieces.length + 1 < 2 ^ 63
  | .commit _ => ∀ pieces, b = some pieces → pieces.length < 10 ^ chunkDigits
  | .elsewhere key _ => Strings.hasPrefix key base = false
  | _ => True

instance Fits.decidable (base : String) : ∀ b op, Decidable (Fits base b op)
  | none, .write _ => isTrue (by simp [Fits])
  | some pieces, .write _ => decidable_of_iff (pieces.length + 1 < 2 ^ 63) (by simp [Fits])
  | none, .commit _ => isTrue (by simp [Fits])
  | some pieces, .commit _ =>
    decidable_of_iff (pieces.length < 10 ^ chunkDigits) (by simp [Fits])
  | _, .elsewhere key _ => inferInstanceAs (Decidable (Strings.hasPrefix key base = false))
  | _, .create => isTrue trivial
  | _, .reopen => isTrue trivial
  | _, .cancel => isTrue trivial

structure Related (id base : String) (w : World) (b : Buffer) : Prop where
  sameId : w.session.id = id
  sameBase : w.session.base = base
  offset : w.session.offset = b.offset
  absent : b = none → Absent w.bucket base
  stored : ∀ pieces, b = some pieces → Stored w.bucket base pieces ∧
    pieces.length < 2 ^ 63 ∧
    (w.session.next = pieces.length + 1 ∨ w.session.next = 0 ∧ pieces = [])

theorem hasPrefix_blobKey {digest : Digest} {key : String}
    (hbs : uploadPrefixFor root id = .ok base) (hkey : blobKey root digest = .ok key) :
    Strings.hasPrefix key base = false := by
  unfold uploadPrefixFor at hbs
  unfold blobKey at hkey
  split at hbs
  · cases hbs
  split at hkey
  · cases hkey
  cases hbs
  cases hkey
  rw [Bool.eq_false_iff, ne_eq, Strings.hasPrefix_iff]
  simp only [String.toList_append, List.append_assoc]
  simp

theorem Related.marker_none (h : Related id base w none) :
    w.bucket.lookup (base ++ sessionMarker) = none :=
  h.absent rfl _ (hasPrefix_append base _)

theorem Related.create (hbs : uploadPrefixFor root id = .ok base) (h : Related id base w b) :
    (w.step digestOf root id .create).1 = (b.step digestOf id .create).1 ∧
      Related id base (w.step digestOf root id .create).2 (b.step digestOf id .create).2 := by
  cases b with
  | none =>
    have hcr : createUpload root w.bucket id =
        .ok (⟨id, base, 0, 0⟩, w.bucket.insert (base ++ sessionMarker) []) := by
      simp only [createUpload, hbs, h.marker_none]
      rfl
    simp only [World.step, Buffer.step, hcr]
    refine ⟨trivial, rfl, rfl, rfl, by simp, ?_⟩
    rintro pieces ⟨⟩
    refine ⟨⟨by simp, by simp, fun key bytes hkey hpr => ?_⟩, by decide, .inr ⟨rfl, rfl⟩⟩
    rw [lookup_insert_eq_some] at hkey
    rcases hkey with ⟨rfl, -⟩ | ⟨-, hold⟩
    · exact .inl rfl
    · rw [h.absent rfl key hpr] at hold
      cases hold
  | some pieces =>
    have hcr : createUpload root w.bucket id =
        .error (.invalid "id" "upload session already exists") := by
      simp only [createUpload, hbs, (h.stored pieces rfl).1.marker]
      rfl
    simp only [World.step, Buffer.step, hcr]
    exact ⟨trivial, h⟩

theorem Related.reopen (hbs : uploadPrefixFor root id = .ok base) (h : Related id base w b) :
    (w.step digestOf root id .reopen).1 = (b.step digestOf id .reopen).1 ∧
      Related id base (w.step digestOf root id .reopen).2 (b.step digestOf id .reopen).2 := by
  cases b with
  | none =>
    have hon : openUpload root w.bucket id = .error (.notFound "upload" id) := by
      simp only [openUpload, hbs, h.marker_none]
      rfl
    simp only [World.step, Buffer.step, hon]
    exact ⟨trivial, h⟩
  | some pieces =>
    obtain ⟨hst, hft, -⟩ := h.stored pieces rfl
    obtain ⟨hsum, hcn⟩ := hst.sum_size hft
    have hon : openUpload root w.bucket id =
        .ok ⟨id, base, pieces.flatten.length, pieces.length + 1⟩ := by
      simp only [openUpload, hbs, hst.marker, hsum, hcn]
      rfl
    simp only [World.step, Buffer.step, hon]
    refine ⟨trivial, rfl, rfl, rfl, by simp, ?_⟩
    rintro _ ⟨⟩
    exact ⟨hst, hft, .inl rfl⟩

theorem Related.write (h : Related id base w b) {body : Answers}
    (hft : Fits base b (.write body)) :
    (w.step digestOf root id (.write body)).1 = (b.step digestOf id (.write body)).1 ∧
      Related id base (w.step digestOf root id (.write body)).2
        (b.step digestOf id (.write body)).2 := by
  cases b with
  | none =>
    have hnn : (w.bucket.lookup (w.session.base ++ sessionMarker)).isNone = true := by
      rw [h.sameBase, h.marker_none]
      rfl
    simp only [World.step, Session.write, hnn, if_true, Buffer.step, h.sameId]
    exact ⟨trivial, h⟩
  | some pieces =>
    obtain ⟨hst, hlen, hnx⟩ := h.stored pieces rfl
    have hof : w.session.offset = pieces.flatten.length := h.offset
    have hmr : ¬ (w.bucket.lookup (w.session.base ++ sessionMarker)).isNone = true := by
      rw [h.sameBase, hst.marker]
      decide
    have hnm : (if w.session.next = 0 then 1 else w.session.next) = pieces.length + 1 := by
      rcases hnx with hnx | ⟨hnx, rfl⟩
      · rw [if_neg (by omega), hnx]
      · rw [if_pos hnx, List.length_nil]
    rcases hbd : halted body with ⟨bytes, err⟩
    by_cases hby : bytes = []
    · -- an empty object is stored and removed
      subst hby
      simp only [World.step, Session.write, if_neg hmr, hnm, hbd, Buffer.step,
        List.length_nil, lt_irrefl, if_false, if_true, hof]
      refine ⟨trivial, h.sameId, h.sameBase, rfl, by simp, ?_⟩
      rintro _ ⟨⟩
      refine ⟨?_, hlen, .inl rfl⟩
      rw [h.sameBase]
      exact hst.insert_erase []
    · have hpos : 0 < bytes.length := List.length_pos_iff.mpr hby
      have hrm : pieces.length + 1 < 2 ^ 63 := hft pieces rfl
      have htt : (pieces ++ [bytes]).flatten.length = pieces.flatten.length + bytes.length := by
        simp
      simp only [World.step, Session.write, if_neg hmr, hnm, hbd, Buffer.step,
        if_pos hpos, if_neg hby, htt, hof]
      refine ⟨trivial, h.sameId, h.sameBase, htt.symm, by simp, ?_⟩
      rintro _ ⟨⟩
      rw [List.length_append, List.length_singleton]
      refine ⟨?_, hrm, .inl rfl⟩
      rw [h.sameBase]
      exact hst.concat bytes

theorem Related.discard {bucket : Bucket} (h : Related id base w b)
    (hab : Absent (w.session.discard bucket).2 base) :
    Related id base ⟨(w.session.discard bucket).1, (w.session.discard bucket).2⟩ none :=
  ⟨h.sameId, h.sameBase, rfl, fun _ => hab, by simp⟩

theorem Related.cancel (h : Related id base w b) :
    (w.step digestOf root id .cancel).1 = (b.step digestOf id .cancel).1 ∧
      Related id base (w.step digestOf root id .cancel).2 (b.step digestOf id .cancel).2 := by
  refine ⟨rfl, h.discard ?_⟩
  cases b with
  | none => exact (h.absent rfl).discard
  | some pieces =>
    obtain ⟨hst, hft, -⟩ := h.stored pieces rfl
    exact hst.discard hft h.sameBase

theorem Related.commit (hbs : uploadPrefixFor root id = .ok base) (h : Related id base w b)
    {expected : Digest} (hft : Fits base b (.commit expected)) :
    (w.step digestOf root id (.commit expected)).1 = (b.step digestOf id (.commit expected)).1 ∧
      Related id base (w.step digestOf root id (.commit expected)).2
        (b.step digestOf id (.commit expected)).2 := by
  cases hpr : parseDigest expected with
  | error reason =>
    have hkey : blobKey root expected = .error (.invalidDigest expected reason) := by
      simp only [blobKey, hpr]
    simp only [World.step, Session.commit, hkey, Buffer.step, hpr]
    exact ⟨trivial, h⟩
  | ok parsed =>
    obtain ⟨key, hkey⟩ : ∃ key, blobKey root expected = .ok key := by
      simp only [blobKey, hpr]
      exact ⟨_, rfl⟩
    cases b with
    | none =>
      have hnn : (w.bucket.lookup (w.session.base ++ sessionMarker)).isNone = true := by
        rw [h.sameBase, h.marker_none]
        rfl
      simp only [World.step, Session.commit, hkey, hnn, if_true, Buffer.step, hpr, h.sameId]
      exact ⟨trivial, h⟩
    | some pieces =>
      obtain ⟨hst, hlen, -⟩ := h.stored pieces rfl
      have hmr : ¬ (w.bucket.lookup (w.session.base ++ sessionMarker)).isNone = true := by
        rw [h.sameBase, hst.marker]
        decide
      have hsr : Session.streamed w.bucket (listChunks w.bucket w.session.base) =
          pieces.flatten := by
        rw [h.sameBase, hst.listChunks_of_fits (hft pieces rfl), hst.streamed_numbered]
      cases hvr : verify digestOf expected pieces.flatten with
      | error err =>
        simp only [World.step, Session.commit, hkey, if_neg hmr, hsr, hvr, Buffer.step,
          hpr]
        exact ⟨rfl, h.discard (hst.discard hlen h.sameBase)⟩
      | ok _ =>
        -- the blob's key is elsewhere, so the session is what it was
        have hpb : Stored (w.bucket.insert key pieces.flatten) base pieces := by
          refine hst.congr fun key' hbs' => lookup_insert_ne ?_
          rintro rfl
          rw [hasPrefix_blobKey hbs hkey] at hbs'
          cases hbs'
        simp only [World.step, Session.commit, hkey, if_neg hmr, hsr, hvr, Buffer.step,
          hpr]
        exact ⟨rfl, h.discard (hpb.discard hlen h.sameBase)⟩

theorem Related.elsewhere (h : Related id base w b) {key : String} {object : Option Content}
    (hel : Strings.hasPrefix key base = false) :
    Related id base (w.step digestOf root id (.elsewhere key object)).2 b := by
  have hsm : ∀ key', Strings.hasPrefix key' base = true →
      (w.step digestOf root id (.elsewhere key object)).2.bucket.lookup key' =
        w.bucket.lookup key' := by
    intro key' hkey'
    have hne : key' ≠ key := by
      rintro rfl
      rw [hel] at hkey'
      cases hkey'
    cases object with
    | none => exact lookup_erase_ne hne
    | some bytes => exact lookup_insert_ne hne
  refine ⟨h.sameId, h.sameBase, h.offset, fun hb key' hkey' => ?_, fun pieces hb => ?_⟩
  · rw [hsm key' hkey', h.absent hb key' hkey']
  · obtain ⟨hst, hlen, hnx⟩ := h.stored pieces hb
    exact ⟨hst.congr hsm, hlen, hnx⟩

theorem Related.of_create {bucket bucket' : Bucket} {u : Session}
    (hbs : uploadPrefixFor root id = .ok base) (hfr : Absent bucket base)
    (hcr : createUpload root bucket id = .ok (u, bucket')) :
    Related id base ⟨u, bucket'⟩ (some []) := by
  have hnn : Related id base ⟨⟨id, base, 0, 0⟩, bucket⟩ none :=
    ⟨rfl, rfl, rfl, fun _ => hfr, by simp⟩
  have hnx := (@Related.create (fun _ _ => "") _ _ _ _ _ hbs hnn).2
  simpa only [World.step, hcr, Buffer.step] using hnx

/-- Every call is answered as the buffer would, and leaves the two related. -/
theorem Related.step (hbs : uploadPrefixFor root id = .ok base) (h : Related id base w b)
    {op : Op} (hft : Fits base b op) :
    (w.step digestOf root id op).1 = (b.step digestOf id op).1 ∧
      Related id base (w.step digestOf root id op).2 (b.step digestOf id op).2 := by
  cases op with
  | create => exact h.create hbs
  | reopen => exact h.reopen hbs
  | write body => exact h.write hft
  | commit expected => exact h.commit hbs hft
  | cancel => exact h.cancel
  | elsewhere key object => exact ⟨rfl, h.elsewhere hft⟩

end simulation

def World.observed (digestOf : String → Content → Digest) (root id : String) (w : World) (op : Op) :
    (Answer × ℕ) × World :=
  let (answer, w) := w.step digestOf root id op
  ((answer, w.session.offset), w)

/-- The same of the buffer. -/
def Buffer.observed (digestOf : String → Content → Digest) (id : String) (b : Buffer) (op : Op) :
    (Answer × ℕ) × Buffer :=
  let (answer, b) := b.step digestOf id op
  ((answer, b.offset), b)

/-- **The session is a buffer.** From its creation under keys that hold nothing, every sequence of
calls and every body are answered as by a buffer that is appended to, as long as no commit finds
more pieces than six digits can number: the offset is the number of bytes stored, and a commit
streams the pieces in the order they were written. -/
theorem session_refines_buffer (digestOf : String → Content → Digest) (root id base : String)
    (bucket bucket' : Bucket) (u : Session) (ops : List Op)
    (hbase : uploadPrefixFor root id = .ok base) (hfresh : Absent bucket base)
    (hcreate : createUpload root bucket id = .ok (u, bucket'))
    (hfits : Along (fun b op => some (Buffer.observed digestOf id b op).2) (Fits base)
      (some []) ops) :
    outputs (World.observed digestOf root id) ⟨u, bucket'⟩ ops =
      outputs (Buffer.observed digestOf id) (some []) ops := by
  have hst : Related id base ⟨u, bucket'⟩ (some []) := .of_create hbase hfresh hcreate
  refine outputs_eq_of_simulation (fun w b op h hop => ?_) hst hfits
  obtain ⟨han, hnx⟩ := @Related.step digestOf _ _ _ _ _ hbase h _ hop
  exact ⟨Prod.ext han hnx.offset, hnx⟩

def resumed : List Op :=
  [.write [([1], none)], .write [], .reopen, .write [([2], none), ([3], some (.failed "reset"))],
    .commit (repeated 'a')]

theorem session_refines_buffer_resumed :
    ∃ u bucket', createUpload "" ∅ "u" = .ok (u, bucket') ∧
      outputs (World.observed (fun _ _ => repeated 'a') "" "u") ⟨u, bucket'⟩ resumed =
        [(.wrote 1 none, 1), (.wrote 1 none, 1), (.opened (.ok ()), 1),
          (.wrote 3 (some (.body (.failed "reset"))), 3),
          (.committed [1, 2, 3] (.ok (repeated 'a', 3)), 0)] := by
  have hok : (createUpload "" ∅ "u").isOk = true := by decide +kernel
  cases hcr : createUpload "" ∅ "u" with
  | error err => simp [hcr, Except.isOk, Except.toBool] at hok
  | ok out =>
    have hrun := session_refines_buffer (fun _ _ => repeated 'a') "" "u" "uploads/u/" ∅ out.2 out.1
      resumed (by decide +kernel) (fun _ _ => rfl) hcr (by decide +kernel)
    exact ⟨out.1, out.2, rfl, hrun.trans (by decide +kernel)⟩

/-! ### The millionth piece -/

/-- A seventh digit: with a million pieces, the last one listed is the one before the last
written. -/
theorem Stored.streamed_million {bucket : Bucket} {base : String} {pieces : List Content}
    {bytes : Content} (h : Stored bucket base pieces) (hlen : pieces.length = 10 ^ chunkDigits)
    (hby : pieces[999998]? = some bytes) :
    ∃ front, Session.streamed bucket (listChunks bucket base) = front ++ bytes := by
  have hn : pieces.length < 2 ^ 63 := by
    rw [hlen]
    decide
  have hls : (⟨keyAt base 999999, bytes.length⟩ : Chunk) ∈ sortBy Chunk.key
    (numbered base pieces) :=
    mem_sortBy.mpr (mem_numbered.mpr ⟨999998, bytes, hby, rfl⟩)
  obtain ⟨front, hfr⟩ := (increasing_sortBy nodup_key_numbered).exists_concat hls fun c hc => by
    obtain ⟨i, piece, hget, rfl⟩ := mem_numbered.mp (mem_sortBy.mp hc)
    obtain ⟨hi, -⟩ := List.getElem?_eq_some_iff.mp hget
    rw [hlen, chunkDigits] at hi
    -- the numbers of six digits come in order, and the one of seven before most of them
    rcases Nat.lt_or_ge i 999999 with hsm | hlr
    · rcases Nat.lt_or_ge i 999998 with hle | hmr
      · refine le_of_lt ((append_lt_append_iff _ _ _).mpr ?_)
        rw [padded_lt_padded (by decide) (by rw [chunkDigits]; omega) (by rw [chunkDigits]; omega)]
        omega
      · obtain rfl : i = 999998 := by omega
        exact le_rfl
    · obtain rfl : i = 999999 := by omega
      exact le_of_lt ((append_lt_append_iff _ _ _).mpr (by decide +kernel))
  rw [h.listChunks_eq hn, hfr]
  simp [Session.streamed, h.piece 999998 bytes hby]

/-- One byte at a time. -/
def byteWrites (n : ℕ) (b : UInt8) : List Op := List.replicate n (.write [([b], none)])

theorem after_byteWrites (digestOf : String → Content → Digest) (id : String) (n : ℕ) (b : UInt8)
    (pieces : List Content) :
    after (Buffer.observed digestOf id) (some pieces) (byteWrites n b) =
      some (pieces ++ List.replicate n [b]) := by
  induction n generalizing pieces with
  | zero => simp [byteWrites, after]
  | succ n ih =>
    have hst : (Buffer.observed digestOf id (some pieces) (.write [([b], none)])).2 =
        some (pieces ++ [[b]]) := rfl
    rw [byteWrites, List.replicate_succ, after, List.foldl_cons, hst]
    have hrs := ih (pieces ++ [[b]])
    rw [byteWrites, after] at hrs
    rw [hrs, List.append_assoc, List.replicate_succ]
    rfl

theorem along_byteWrites (digestOf : String → Content → Digest) (id base : String) (n : ℕ)
    (b : UInt8) (pieces : List Content) (hn : pieces.length + n < 2 ^ 63) :
    Along (fun b op => some (Buffer.observed digestOf id b op).2) (Fits base) (some pieces)
      (byteWrites n b) := by
  induction n generalizing pieces with
  | zero => trivial
  | succ n ih =>
    refine ⟨?_, ?_⟩
    · rintro _ ⟨⟩
      omega
    · rintro _ ⟨⟩
      refine ih (pieces ++ [[b]]) ?_
      rw [List.length_append, List.length_singleton]
      omega

theorem Related.commit_streamed {digestOf : String → Content → Digest} {root id base : String}
    {w : World} {pieces : List Content} {expected parsed : Digest}
    (h : Related id base w (some pieces)) (hpr : parseDigest expected = .ok parsed) :
    ∃ result, (w.step digestOf root id (.commit expected)).1 =
      .committed (Session.streamed w.bucket (listChunks w.bucket base)) result := by
  have hmr : ¬ (w.bucket.lookup (w.session.base ++ sessionMarker)).isNone = true := by
    rw [h.sameBase, (h.stored pieces rfl).1.marker]
    decide
  rw [← h.sameBase]
  simp only [World.step, Session.commit, blobKey, hpr, if_neg hmr]
  cases verify digestOf expected
    (Session.streamed w.bucket (listChunks w.bucket w.session.base)) with
  | error err => exact ⟨.error err, rfl⟩
  | ok _ => exact ⟨.ok _, rfl⟩

theorem Related.commit_ne {digestOf : String → Content → Digest} {root id base : String}
    {w : World} {pieces front : List Content} {expected parsed : Digest}
    (h : Related id base w (some pieces)) (hpr : parseDigest expected = .ok parsed)
    (hlen : pieces.length = 10 ^ chunkDigits) (hls : pieces = front ++ [[1]])
    (hbf : pieces[999998]? = some [0]) :
    outputs (World.observed digestOf root id) w [.commit expected] ≠
      outputs (Buffer.observed digestOf id) (some pieces) [.commit expected] := by
  intro hcm
  have han : (w.step digestOf root id (.commit expected)).1 =
      (Buffer.step digestOf id (some pieces) (.commit expected)).1 :=
    congrArg Prod.fst (List.cons.inj hcm).1
  revert han
  obtain ⟨result, hdr⟩ := @Related.commit_streamed digestOf root _ _ _ _ _ _ h hpr
  obtain ⟨streamed, hst⟩ := (h.stored pieces rfl).1.streamed_million hlen hbf
  rw [hdr, hst]
  simp only [Buffer.step, hpr]
  intro heq
  have hcn := (Answer.committed.inj heq).1
  rw [hls, List.flatten_append] at hcn
  exact absurd (List.append_inj' hcn rfl).2 (by decide)

def million : List Op := byteWrites 999999 0 ++ (byteWrites 1 1 ++ [.commit (repeated 'a')])

/-- The commit does not stream the bytes in the order they were written. -/
theorem session_not_buffer :
    ∃ u bucket', createUpload "" ∅ "u" = .ok (u, bucket') ∧
      outputs (World.observed (fun _ _ => repeated 'a') "" "u") ⟨u, bucket'⟩ million ≠
        outputs (Buffer.observed (fun _ _ => repeated 'a') "u") (some []) million := by
  have hok : (createUpload "" ∅ "u").isOk = true := by decide +kernel
  have hbs : uploadPrefixFor "" "u" = .ok "uploads/u/" := by decide +kernel
  cases hcr : createUpload "" ∅ "u" with
  | error err => simp [hcr, Except.isOk, Except.toBool] at hok
  | ok out =>
    refine ⟨out.1, out.2, rfl, fun heq => ?_⟩
    have hst (w : World) (b : Buffer) (op : Op) (h : Related "u" "uploads/u/" w b)
        (hop : Fits "uploads/u/" b op) :
        Related "u" "uploads/u/" (World.observed (fun _ _ => repeated 'a') "" "u" w op).2
          (Buffer.observed (fun _ _ => repeated 'a') "u" b op).2 :=
      (@Related.step (fun _ _ => repeated 'a') _ _ _ _ _ hbs h _ hop).2
    have hsr : Related "u" "uploads/u/" ⟨out.1, out.2⟩ (some []) :=
      .of_create hbs (fun _ _ => rfl) hcr
    have hzr := after_related hst hsr
      (along_byteWrites (fun _ _ => repeated 'a') "u" "uploads/u/" 999999 0 [] (by simp))
    rw [after_byteWrites, List.nil_append] at hzr
    have hone := after_related hst hzr
      (along_byteWrites (fun _ _ => repeated 'a') "u" "uploads/u/" 1 1 _
        (by rw [List.length_replicate]; omega))
    rw [after_byteWrites] at hone
    -- the last answers are those of the commit
    rw [million, outputs_append, outputs_append, outputs_append, outputs_append,
      after_byteWrites, List.nil_append, after_byteWrites] at heq
    have htl := (List.append_inj' heq (by simp only [List.length_append, length_outputs])).2
    have hcm := (List.append_inj' htl (by simp only [length_outputs])).2
    have hpr : parseDigest (repeated 'a') = .ok (repeated 'a') := by decide +kernel
    refine hone.commit_ne hpr ?_ rfl ?_ hcm
    · rw [List.length_append, List.length_replicate, List.length_replicate, chunkDigits]
      omega
    · rw [List.getElem?_append_left (by rw [List.length_replicate]; omega),
        List.getElem?_replicate, if_pos (by omega)]

end Trove.Blob.S3
