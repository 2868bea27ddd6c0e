import Trove.Blob.Store
import Trove.Lib.Reader

/-!
# The verified reader

A blob is streamed to its caller and hashed on the way, one byte behind the source: the last byte
read is held back until more bytes have arrived behind it, or the source has ended and the hash is
the one expected. A stream that does not match ends one byte short and with an error.

A buffer is the list of its bytes, and a write or a slice outside it is a panic, as it is in Go. The
loop of `Read` takes a number of rounds.
-/

namespace Trove.Blob

open Lib List

/-- The errors a stream ends with. -/
inductive StreamError
  | eof
  | mismatch (err : Error)
  | failed (text : String)
  deriving DecidableEq

inductive Fault
  | panic
  | outOfRounds
  deriving DecidableEq

/-- `copy(p[offset:], bytes)` where the bytes must fit. -/
def overwrite (p : Content) (offset : ℕ) (bytes : Content) : Except Fault Content :=
  if offset + bytes.length ≤ p.length then
    .ok (p.take offset ++ bytes ++ p.drop (offset + bytes.length))
  else .error .panic

def byteAt (p : Content) (i : ℕ) : Except Fault UInt8 :=
  match p[i]? with
  | some b => .ok b
  | none => .error .panic

structure VerifiedReader (σ : Type) where
  src : σ
  expected : Digest
  hashed : Content
  held : UInt8
  (hasHeld done : Bool)
  err : Option StreamError
  reported : List Error
  deriving DecidableEq

structure ReadResult where
  n : ℕ
  err : Option StreamError
  buffer : Content

/-- The bytes handed over. -/
def ReadResult.bytes (r : ReadResult) : Content := r.buffer.take r.n

inductive Round (σ : Type)
  | returned (result : ReadResult) (r : VerifiedReader σ)
  | again (p : Content) (r : VerifiedReader σ)

/-- Nothing is read yet. -/
def newVerifiedReader {σ : Type} (src : σ) (digest : Digest) :
    Except InvalidDigest (VerifiedReader σ) :=
  match parseDigest digest with
  | .error reason => .error reason
  | .ok _ => .ok ⟨src, digest, [], 0, false, false, none, []⟩

namespace VerifiedReader

variable {σ : Type} (digestOf : String → Content → Digest) (source : Reader σ UInt8 StreamError)

/-- Verify at the end of the stream and decide what the caller sees. -/
def finish (r : VerifiedReader σ) (p : Content) (written : ℕ) :
    Except Fault (ReadResult × VerifiedReader σ) :=
  match verify digestOf r.expected r.hashed with
  | .error err =>
    .ok (⟨written, some (.mismatch err), p⟩, { r with
      done := true
      err := some (.mismatch err)
      hasHeld := false
      reported := r.reported ++ [err] })
  | .ok () =>
    let atEnd := { r with hasHeld := false, done := true, err := some .eof }
    if r.hasHeld then
      match overwrite p written [r.held] with
      | .error fault => .error fault
      | .ok p => .ok (⟨written + 1, some .eof, p⟩, atEnd)
    else .ok (⟨written, some .eof, p⟩, atEnd)

def roundAside (r : VerifiedReader σ) (p : Content) : Except Fault (Round σ) :=
  let ((bytes, err), src) := source r.src 1
  let r := { r with src := src }
  match bytes with
  | b :: _ =>
    match overwrite p 0 [r.held] with
    | .error fault => .error fault
    | .ok p => .ok (.returned ⟨1, none, p⟩ { r with hashed := r.hashed ++ [b], held := b })
  | [] =>
    match err with
    | some .eof => (r.finish digestOf p 0).map fun out => .returned out.1 out.2
    | some err => .ok (.returned ⟨0, some err, p⟩ { r with done := true, err := some err })
    | none => .ok (.again p r)

/-- What a round hands over of what it read behind the offset, and what it holds back. -/
def release (r : VerifiedReader σ) (p : Content) (offset : ℕ) (bytes : Content) :
    Except Fault (Content × ℕ × VerifiedReader σ) :=
  match overwrite p offset bytes with
  | .error fault => .error fault
  | .ok p =>
    if bytes = [] then .ok (p, 0, r)
    else
      match (if r.hasHeld then overwrite p 0 [r.held] else .ok p) with
      | .error fault => .error fault
      | .ok p =>
        match byteAt p (offset + bytes.length - 1) with
        | .error fault => .error fault
        | .ok last =>
          .ok (p, (if r.hasHeld then 1 else 0) + (bytes.length - 1),
            { r with hashed := r.hashed ++ bytes, held := last, hasHeld := true })

def roundInto (r : VerifiedReader σ) (p : Content) : Except Fault (Round σ) :=
  let offset := if r.hasHeld then 1 else 0
  if p.length < offset then .error .panic
  else
    let ((bytes, err), src) := source r.src (p.length - offset)
    match release { r with src := src } p offset bytes with
    | .error fault => .error fault
    | .ok (p, written, r) =>
      match err with
      | some .eof => (r.finish digestOf p written).map fun out => .returned out.1 out.2
      | some err => .ok (.returned ⟨written, some err, p⟩ { r with done := true, err := some err })
      | none =>
        if 0 < written then .ok (.returned ⟨written, none, p⟩ r)
        else .ok (.again p r)

/-- One round of the loop. -/
def round (r : VerifiedReader σ) (p : Content) : Except Fault (Round σ) :=
  if r.done then .ok (.returned ⟨0, r.err, p⟩ r)
  else if r.hasHeld && p.length = 1 then r.roundAside digestOf source p
  else r.roundInto digestOf source p

/-- At most `rounds` rounds. -/
def readLoop (rounds : ℕ) (r : VerifiedReader σ) (p : Content) :
    Except Fault (ReadResult × VerifiedReader σ) :=
  match rounds with
  | 0 => .error .outOfRounds
  | rounds + 1 =>
    match r.round digestOf source p with
    | .error fault => .error fault
    | .ok (.returned result r) => .ok (result, r)
    | .ok (.again p r) => readLoop rounds r p

def read (rounds : ℕ) (r : VerifiedReader σ) (p : Content) :
    Except Fault (ReadResult × VerifiedReader σ) :=
  if p.length = 0 then .ok (⟨0, none, p⟩, r) else readLoop digestOf source rounds r p

/-- One `Read` after another. -/
def reads (rounds : ℕ) (r : VerifiedReader σ) :
    List Content → Except Fault (List ReadResult × VerifiedReader σ)
  | [] => .ok ([], r)
  | p :: ps =>
    match r.read digestOf source rounds p with
    | .error fault => .error fault
    | .ok (result, r) => (reads rounds r ps).map fun out => (result :: out.1, out.2)

end VerifiedReader

/-! ## Buffers -/

theorem overwrite_ok {p bytes : Content} {offset : ℕ} (h : offset + bytes.length ≤ p.length) :
    overwrite p offset bytes =
      .ok (p.take offset ++ bytes ++ p.drop (offset + bytes.length)) := if_pos h

theorem overwrite_nil {p : Content} {offset : ℕ} (h : offset ≤ p.length) :
    overwrite p offset [] = .ok p := by
  rw [overwrite_ok (by simpa using h), append_nil, length_nil, Nat.add_zero,
    take_append_drop]

theorem byteAt_append (front back : Content) (b : UInt8) :
    byteAt (front ++ b :: back) front.length = .ok b := by
  unfold byteAt
  rw [List.getElem?_append_right le_rfl, Nat.sub_self]
  rfl

namespace VerifiedReader

variable {σ : Type} {digestOf : String → Content → Digest} {source : Reader σ UInt8 StreamError}
  {p : Content} {r : VerifiedReader σ}

def withheld (r : VerifiedReader σ) : Content := if r.hasHeld then [r.held] else []

theorem length_withheld (r : VerifiedReader σ) :
    r.withheld.length = if r.hasHeld then 1 else 0 := by
  unfold withheld
  split_ifs <;> rfl

theorem overwrite_withheld {bytes : Content} (hft : r.withheld.length + bytes.length ≤ p.length) :
    ∃ p₁, overwrite p r.withheld.length bytes = .ok p₁ ∧
      (if r.hasHeld then overwrite p₁ 0 [r.held] else .ok p₁) =
        .ok (r.withheld ++ bytes ++ p.drop (r.withheld.length + bytes.length)) := by
  refine ⟨_, overwrite_ok hft, ?_⟩
  unfold withheld at hft ⊢
  split_ifs with hhl
  · rw [if_pos hhl] at hft
    cases p with
    | nil => simp at hft
    | cons b p =>
      rw [overwrite_ok (by simp)]
      simp
  · simp

theorem release_cons (front : Content) (last : UInt8)
    (hft : r.withheld.length + (front ++ [last]).length ≤ p.length) :
    ∃ p', p'.length = p.length ∧
      p'.take (r.withheld.length + front.length) = r.withheld ++ front ∧
      r.release p r.withheld.length (front ++ [last]) = .ok (p', r.withheld.length + front.length,
        { r with hashed := r.hashed ++ (front ++ [last]), held := last, hasHeld := true }) := by
  obtain ⟨p₁, hwr, hfr⟩ := overwrite_withheld hft
  have hls : byteAt (r.withheld ++ (front ++ [last]) ++
      p.drop (r.withheld.length + (front ++ [last]).length))
      (r.withheld.length + (front ++ [last]).length - 1) = .ok last := by
    have := byteAt_append (r.withheld ++ front)
      (p.drop (r.withheld.length + (front ++ [last]).length)) last
    simpa [Nat.add_assoc] using this
  refine ⟨r.withheld ++ (front ++ [last]) ++
    p.drop (r.withheld.length + (front ++ [last]).length), ?_, ?_, ?_⟩
  · simp only [length_append, length_drop] at hft ⊢
    omega
  · rw [← append_assoc, append_assoc (r.withheld ++ front), ← length_append,
      take_left]
  · unfold release
    simp only [hwr, hfr, hls, ← length_withheld]
    simp

theorem release_nil (hp : r.withheld.length ≤ p.length) :
    r.release p r.withheld.length [] = .ok (p, 0, r) := by
  unfold release
  rw [overwrite_nil hp]
  rfl

/-! ## The end of the stream -/

variable (digestOf) in
/-- All of the content if it verifies, and otherwise all but the last byte. -/
def owed (expected : Digest) (content : Content) : Content :=
  match verify digestOf expected content with
  | .ok () => content
  | .error _ => content.dropLast

variable (digestOf) in
def ending (expected : Digest) (content : Content) : StreamError :=
  match verify digestOf expected content with
  | .ok () => .eof
  | .error err => .mismatch err

variable (digestOf) in
def reports (expected : Digest) (content : Content) : List Error :=
  match verify digestOf expected content with
  | .ok () => []
  | .error err => [err]

/-- The stream is over: everything owed is handed over, and the error stays. -/
structure Over (digestOf : String → Content → Digest) (content : Content)
    (r : VerifiedReader σ) : Prop where
  done : r.done = true
  err : r.err = some (ending digestOf r.expected content)
  reported : r.reported = reports digestOf r.expected content

/-- The stream is under way: `sent` is handed over, one byte is held back as soon as any has been
read, and the source has the rest. -/
structure Running (source : Reader σ UInt8 StreamError) (content sent rest : Content)
    (r : VerifiedReader σ) : Prop where
  running : r.done = false
  reported : r.reported = []
  hashed : r.hashed = sent ++ r.withheld
  first : r.hasHeld = false → r.hashed = []
  delivers : Delivers .eof source r.src rest
  content : content = r.hashed ++ rest

structure Step (digestOf : String → Content → Digest) (source : Reader σ UInt8 StreamError)
    (content sent p : Content) (r : VerifiedReader σ) (result : ReadResult)
    (r' : VerifiedReader σ) : Prop where
  expected : r'.expected = r.expected
  within : result.n ≤ result.buffer.length ∧ result.buffer.length = p.length
  outcome : (result.err = none ∧ 0 < result.n ∧
      ∃ rest, Running source content (sent ++ result.bytes) rest r') ∨
    (result.err = some (ending digestOf r.expected content) ∧
      sent ++ result.bytes = owed digestOf r.expected content ∧ r'.Over digestOf content)

theorem finish_spec {sent : Content} {written : ℕ} (hrp : r.reported = [])
    (hhs : r.hashed = sent ++ p.take written ++ r.withheld)
    (hem : r.hasHeld = false → r.hashed = [])
    (hrm : written + r.withheld.length ≤ p.length) :
    ∃ result r', r.finish digestOf p written = .ok (result, r') ∧
      r'.expected = r.expected ∧
      (result.n ≤ result.buffer.length ∧ result.buffer.length = p.length) ∧
      result.err = some (ending digestOf r.expected r.hashed) ∧
      sent ++ result.bytes = owed digestOf r.expected r.hashed ∧ r'.Over digestOf r.hashed := by
  have hwr : written ≤ p.length := by omega
  unfold finish ending owed
  cases hvr : verify digestOf r.expected r.hashed with
  | error err =>
    refine ⟨_, _, rfl, rfl, ⟨hwr, rfl⟩, rfl, ?_, ⟨rfl, ?_, ?_⟩⟩
    · cases hhl : r.hasHeld with
      | true => simp [ReadResult.bytes, hhs, withheld, hhl, dropLast_append_of_ne_nil]
      | false =>
        have hnil := hem hhl
        rw [hhs] at hnil
        simp only [append_eq_nil_iff] at hnil
        simp [ReadResult.bytes, hhs, hnil.1.1, hnil.1.2, hnil.2]
    · simp only [ending, hvr]
    · simp only [hrp, reports, hvr, nil_append]
  | ok _ =>
    have hov : Over digestOf r.hashed
        { r with hasHeld := false, done := true, err := some .eof } := by
      refine ⟨rfl, ?_, ?_⟩
      · simp only [ending, hvr]
      · simp only [hrp, reports, hvr]
    cases hhl : r.hasHeld with
    | true =>
      have hone : r.withheld = [r.held] := if_pos hhl
      rw [hone, length_singleton] at hrm
      simp only [if_true, overwrite_ok (show written + [r.held].length ≤ p.length from hrm)]
      refine ⟨_, _, rfl, rfl, ⟨?_, ?_⟩, rfl, ?_, hov⟩
      · simp only [length_append, length_take, length_drop, length_singleton]
        omega
      · simp only [length_append, length_take, length_drop, length_singleton]
        omega
      · have hlen : (p.take written ++ [r.held]).length = written + 1 := by
          rw [length_append, length_take, length_singleton]
          omega
        rw [ReadResult.bytes, ← hlen, take_left, hhs, hone, append_assoc]
    | false =>
      have hnn : r.withheld = [] := if_neg (by simp [hhl])
      refine ⟨_, _, rfl, rfl, ⟨hwr, rfl⟩, rfl, ?_, hov⟩
      rw [ReadResult.bytes, hhs, hnn, append_nil]

/-! ## One round -/

def RoundSpec (digestOf : String → Content → Digest) (source : Reader σ UInt8 StreamError)
    (content sent rest p : Content) (r : VerifiedReader σ) : Round σ → Prop
  | .returned result r' => Step digestOf source content sent p r result r'
  | .again p' r' => p'.length = p.length ∧ r'.expected = r.expected ∧
      ∃ n piece, 0 < n ∧ source r.src n = ((piece, none), r'.src) ∧
        Running source content sent (rest.drop piece.length) r'

variable {content sent rest : Content}

theorem finish_step {r₁ : VerifiedReader σ} {p₁ : Content} {written : ℕ}
    (hrp : r₁.reported = []) (hep : r₁.expected = r.expected)
    (hhs : r₁.hashed = sent ++ p₁.take written ++ r₁.withheld)
    (hem : r₁.hasHeld = false → r₁.hashed = [])
    (hrm : written + r₁.withheld.length ≤ p₁.length) (hlen : p₁.length = p.length)
    (hcn : content = r₁.hashed) :
    ∃ out, (r₁.finish digestOf p₁ written).map (fun out => Round.returned out.1 out.2) = .ok out ∧
      RoundSpec digestOf source content sent rest p r out := by
  obtain ⟨result, r', hfn, hep', hwt, herr, how, hov⟩ :=
    @finish_spec _ digestOf _ _ _ _ hrp hhs hem hrm
  rw [← hcn, hep] at herr how
  rw [← hcn] at hov
  refine ⟨.returned result r', by rw [hfn]; rfl, ?_⟩
  exact ⟨hep'.trans hep, ⟨hwt.1, hwt.2.trans hlen⟩, .inr ⟨herr, how, hov⟩⟩

theorem roundAside_spec (h : Running source content sent rest r) (hhl : r.hasHeld = true)
    (hp : p.length = 1) :
    ∃ out, r.roundAside digestOf source p = .ok out ∧
      RoundSpec digestOf source content sent rest p r out := by
  have hone : r.withheld = [r.held] := if_pos hhl
  have hhs := h.hashed
  unfold roundAside
  rcases hrd : source r.src 1 with ⟨⟨piece, err⟩, src⟩
  obtain ⟨hft, rest', rfl, hdl, herr⟩ := h.delivers.answer one_pos hrd
  cases piece with
  | cons b piece =>
    obtain rfl : piece = [] := length_eq_zero_iff.mp (by simpa using hft)
    have hwr := @overwrite_ok p [r.held] 0 (by simp [hp])
    simp only [hwr]
    refine ⟨_, rfl, rfl, ⟨by simp, by simp [hp]⟩, .inl ⟨rfl, one_pos, rest', ?_⟩⟩
    refine ⟨h.running, h.reported, ?_, by simp [hhl], hdl, ?_⟩
    · simp [ReadResult.bytes, withheld, hhl, hhs]
    · simpa using h.content
  | nil =>
    rcases herr with rfl | ⟨rfl, rfl⟩
    · refine ⟨_, rfl, rfl, rfl, 1, [], one_pos, hrd, ?_⟩
      exact ⟨h.running, h.reported, h.hashed, h.first, hdl, h.content⟩
    · refine finish_step h.reported rfl ?_ h.first ?_ rfl (by simpa using h.content)
      · show r.hashed = sent ++ p.take 0 ++ r.withheld
        simpa using h.hashed
      · simp [withheld, hhl, hp]

theorem release_spec (bytes : Content) (hhs : r.hashed = sent ++ r.withheld)
    (hfr : r.hasHeld = false → r.hashed = [])
    (hft : r.withheld.length + bytes.length ≤ p.length) :
    ∃ p' written held hasHeld, ∃ r' : VerifiedReader σ,
      r' = { r with hashed := r.hashed ++ bytes, held := held, hasHeld := hasHeld } ∧
      r.release p r.withheld.length bytes = .ok (p', written, r') ∧
      p'.length = p.length ∧ r'.hashed = sent ++ p'.take written ++ r'.withheld ∧
      (r'.hasHeld = false → r'.hashed = []) ∧ written + r'.withheld.length ≤ p'.length := by
  rcases eq_nil_or_concat bytes with rfl | ⟨front, last, rfl⟩
  · refine ⟨p, 0, r.held, r.hasHeld, r, by simp, release_nil (by omega), rfl, ?_, hfr, ?_⟩
    · simpa using hhs
    · simpa using hft
  · rw [concat_eq_append] at hft ⊢
    obtain ⟨p', hlen, htk, hrl⟩ := release_cons front last hft
    refine ⟨p', _, last, true, _, rfl, hrl, hlen, ?_, by simp, ?_⟩
    · show r.hashed ++ (front ++ [last]) = sent ++ p'.take _ ++ [last]
      rw [htk, hhs]
      simp only [append_assoc]
    · simp only [withheld, if_true, length_singleton, length_append] at hft ⊢
      omega

section

variable (h : Running source content sent rest r)
include h

theorem roundInto_spec (hp : r.withheld.length < p.length) :
    ∃ out, r.roundInto digestOf source p = .ok out ∧
      RoundSpec digestOf source content sent rest p r out := by
  unfold roundInto
  rw [← length_withheld, if_neg (by omega)]
  rcases hrd : source r.src (p.length - r.withheld.length) with ⟨⟨piece, err⟩, src⟩
  obtain ⟨hft, rest', rfl, hdl, herr⟩ := h.delivers.answer (by omega) hrd
  obtain ⟨p', written, held, hasHeld, r', hr', hrl, hlen, hhs, hfr, hrm⟩ :=
    release_spec (r := { r with src := src }) (p := p) piece h.hashed h.first
      (show r.withheld.length + piece.length ≤ p.length by omega)
  replace hrl : release { r with src := src } p r.withheld.length piece = _ := hrl
  have hcn : content = r'.hashed ++ rest' := by
    rw [hr', h.content, append_assoc]
  simp only [hrl]
  rcases herr with rfl | ⟨rfl, rfl⟩
  · -- the source has more to say: the stream stays under way
    have hrn : Running source content (sent ++ p'.take written) rest' r' := by
      refine ⟨?_, ?_, hhs, hfr, ?_, hcn⟩
      · rw [hr']; exact h.running
      · rw [hr']; exact h.reported
      · rw [hr']; exact hdl
    by_cases hwr : 0 < written
    · refine ⟨_, if_pos hwr, by rw [hr'], ⟨?_, hlen⟩, .inl ⟨rfl, hwr, rest', hrn⟩⟩
      show written ≤ p'.length
      omega
    · obtain rfl : written = 0 := by omega
      refine ⟨_, if_neg hwr, hlen, by rw [hr'], _, piece, ?_, by rw [hr', hrd], ?_⟩
      · omega
      · simpa using hrn
  · refine finish_step ?_ ?_ hhs hfr hrm hlen (by simpa using hcn)
    · rw [hr']; exact h.reported
    · rw [hr']

theorem round_spec (hp : 0 < p.length) : ∃ out, r.round digestOf source p = .ok out ∧
      RoundSpec digestOf source content sent rest p r out := by
  unfold round
  rw [if_neg (by simp [h.running])]
  by_cases had : r.hasHeld = true ∧ p.length = 1
  · rw [if_pos (by simpa using had)]
    exact roundAside_spec h had.1 had.2
  · rw [if_neg (by simpa using had)]
    refine roundInto_spec h ?_
    rw [length_withheld]
    split_ifs with hhl
    · have : p.length ≠ 1 := fun hone => had ⟨hhl, hone⟩
      omega
    · exact hp

/-! ## One read -/

theorem readLoop_spec (hp : 0 < p.length) : ∃ rounds₀ result r', (∀ rounds, rounds₀ ≤ rounds →
        readLoop digestOf source rounds r p = .ok (result, r')) ∧
      Step digestOf source content sent p r result r' := by
  obtain ⟨s, hs⟩ : ∃ s, s = r.src := ⟨_, rfl⟩
  have hdl := h.delivers
  rw [← hs] at hdl
  -- the induction is on the pieces the source still has
  induction hdl generalizing r p with
  | intro _ _ _ _ ih =>
    obtain ⟨out, hrn, hout⟩ := @round_spec _ digestOf _ _ _ _ _ _ h hp
    cases out with
    | returned result r' =>
      refine ⟨1, result, r', fun rounds hrd => ?_, hout⟩
      obtain ⟨rounds, rfl⟩ := Nat.exists_eq_add_of_le' hrd
      simp only [readLoop, hrn]
    | again p' r' =>
      obtain ⟨hlen, hep, n, piece, hn, hre, hrg⟩ := hout
      rw [← hs] at hre
      have hnx := ih n hn (by rw [hre]) (r := r') (p := p')
      rw [hre] at hnx
      obtain ⟨rounds₀, result, r'', hlp, hst⟩ := hnx hrg (by omega) rfl
      refine ⟨rounds₀ + 1, result, r'', fun rounds hrd => ?_, ?_⟩
      · obtain ⟨rounds, rfl⟩ := Nat.exists_eq_add_of_le' (show 1 ≤ rounds by omega)
        simp only [readLoop, hrn, hlp rounds (by omega)]
      · exact ⟨hst.expected.trans hep, ⟨hst.within.1, hst.within.2.trans hlen⟩,
          hep ▸ hst.outcome⟩

end

theorem read_eq_readLoop (hp : 0 < p.length) (rounds : ℕ) :
    r.read digestOf source rounds p = readLoop digestOf source rounds r p := if_neg (by omega)

theorem read_over (h : r.Over digestOf content) {rounds : ℕ} (hrn : 1 ≤ rounds)
    (hp : 0 < p.length) :
    r.read digestOf source rounds p =
      .ok (⟨0, some (ending digestOf r.expected content), p⟩, r) := by
  obtain ⟨rounds, rfl⟩ := Nat.exists_eq_add_of_le' hrn
  rw [read_eq_readLoop hp]
  simp only [readLoop, round, h.done, if_true, h.err]

/-! ## A whole stream -/

def Within (p : Content) (result : ReadResult) : Prop :=
  result.n ≤ result.buffer.length ∧ result.buffer.length = p.length

def handedOver (results : List ReadResult) : Content := (results.map ReadResult.bytes).flatten

/-- The error comes with the last of the bytes or after it, and every read behind it returns nothing
and the error. -/
def Ends (results : List ReadResult) (bytes : Content) (err : StreamError) : Prop :=
  ∃ before last after, results = before ++ last :: after ∧
    (∀ result ∈ before, result.err = none) ∧ last.err = some err ∧
    handedOver (before ++ [last]) = bytes ∧
    ∀ result ∈ after, result.n = 0 ∧ result.err = some err

theorem handedOver_cons (result : ReadResult) (results : List ReadResult) :
    handedOver (result :: results) = result.bytes ++ handedOver results := rfl

theorem reads_over (h : r.Over digestOf content) {rounds : ℕ} (hrn : 1 ≤ rounds)
    {ps : List Content} (hps : ∀ p ∈ ps, 0 < p.length) :
    ∃ results, r.reads digestOf source rounds ps = .ok (results, r) ∧
      List.Forall₂ Within ps results ∧
      ∀ result ∈ results, result.n = 0 ∧
        result.err = some (ending digestOf r.expected content) := by
  induction ps with
  | nil => exact ⟨[], rfl, .nil, by simp⟩
  | cons p ps ih =>
    obtain ⟨results, hrd, hwt, hall⟩ := ih fun q hq => hps q (.tail _ hq)
    refine ⟨⟨0, some (ending digestOf r.expected content), p⟩ :: results, ?_,
      .cons ⟨Nat.zero_le _, rfl⟩ hwt, forall_mem_cons.mpr ⟨⟨rfl, rfl⟩, hall⟩⟩
    simp only [reads, read_over h hrn (hps p (.head _)), hrd]
    rfl

theorem reads_spec {ps : List Content} (h : Running source content sent rest r)
    (hps : ∀ p ∈ ps, 0 < p.length) :
    ∃ rounds₀, ∀ rounds, rounds₀ ≤ rounds → ∃ results r',
      r.reads digestOf source rounds ps = .ok (results, r') ∧ List.Forall₂ Within ps results ∧
      (((∀ result ∈ results, result.err = none ∧ 0 < result.n) ∧
          ∃ rest', Running source content (sent ++ handedOver results) rest' r') ∨
        (∃ bytes, sent ++ bytes = owed digestOf r.expected content ∧
          Ends results bytes (ending digestOf r.expected content) ∧
          r'.reported = reports digestOf r.expected content)) := by
  induction ps generalizing r sent rest with
  | nil =>
    refine ⟨0, fun _ _ => ⟨[], r, rfl, .nil, .inl ⟨by simp, rest, ?_⟩⟩⟩
    simpa [handedOver] using h
  | cons p ps ih =>
    have hp := hps p (.head _)
    have hps' : ∀ q ∈ ps, 0 < q.length := fun q hq => hps q (.tail _ hq)
    obtain ⟨rounds₁, result, r₁, hrd, hst⟩ := @readLoop_spec _ digestOf _ _ _ _ _ _ h hp
    obtain ⟨hep, hwt, ⟨herr, hn, rest₁, hrn⟩ | ⟨herr, how, hov⟩⟩ := hst
    · obtain ⟨rounds₂, hrs⟩ := ih hrn hps'
      refine ⟨max rounds₁ rounds₂, fun rounds hro => ?_⟩
      obtain ⟨results, r', hrs', hall, hcs⟩ := hrs rounds (by omega)
      refine ⟨result :: results, r', ?_, .cons hwt hall, ?_⟩
      · simp only [reads, read_eq_readLoop hp, hrd rounds (by omega), hrs']
        rfl
      rw [hep] at hcs
      rcases hcs with ⟨hnn, rest', hrn'⟩ | ⟨bytes, hby, hen, hrp⟩
      · refine .inl ⟨forall_mem_cons.mpr ⟨⟨herr, hn⟩, hnn⟩, rest', ?_⟩
        rwa [handedOver_cons, ← append_assoc]
      · obtain ⟨before, last, after, rfl, hbf, hls, rfl, haf⟩ := hen
        refine .inr ⟨result.bytes ++ handedOver (before ++ [last]), ?_, ?_, hrp⟩
        · rw [← append_assoc, hby]
        · exact ⟨result :: before, last, after, rfl, forall_mem_cons.mpr ⟨herr, hbf⟩,
            hls, rfl, haf⟩
    · refine ⟨max rounds₁ 1, fun rounds hro => ?_⟩
      obtain ⟨results, hrs', hall, hend⟩ :=
        @reads_over _ _ source _ _ hov rounds (by omega) ps hps'
      refine ⟨result :: results, r₁, ?_, .cons hwt hall, .inr ⟨result.bytes, how, ?_, ?_⟩⟩
      · simp only [reads, read_eq_readLoop hp, hrd rounds (by omega), hrs']
        rfl
      · refine ⟨[], result, results, rfl, by simp, herr, ?_, hep ▸ hend⟩
        simp [handedOver]
      · rw [hov.reported, hep]

theorem Running.sent_before_last (h : Running source content sent rest r) :
    sent <+: content.dropLast := by
  rw [h.content, h.hashed]
  cases hhl : r.hasHeld with
  | true =>
    rw [withheld, if_pos hhl, append_assoc, dropLast_append_of_ne_nil (by simp)]
    exact prefix_append _ _
  | false =>
    have hnil := h.first hhl
    rw [h.hashed, append_eq_nil_iff] at hnil
    rw [hnil.1]
    exact nil_prefix

theorem length_le_handedOver {ps : List Content} {results : List ReadResult}
    (hwt : List.Forall₂ Within ps results) (h : ∀ result ∈ results, 0 < result.n) :
    ps.length ≤ (handedOver results).length := by
  induction hwt with
  | nil => exact Nat.zero_le _
  | @cons p result ps results hone _ ih =>
    have hrs := ih fun q hq => h q (.tail _ hq)
    have hby : result.bytes.length = result.n := length_take_of_le hone.1
    have hn := h result (.head _)
    rw [handedOver_cons, length_append, length_cons]
    omega

end VerifiedReader

/-- **The verified stream.** Whatever pieces the source delivers and whatever buffers the caller
reads into, no read leaves its buffer and enough reads reach the end. Content that hashes to the
digest is handed over whole; any other is handed over without its last byte, ends with the mismatch,
and is reported once. -/
theorem verifiedReader_streams {σ : Type} (digestOf : String → Content → Digest)
    (source : Reader σ UInt8 StreamError) (content : Content) (digest : Digest) (src : σ)
    (r : VerifiedReader σ) (ps : List Content) (hnew : newVerifiedReader src digest = .ok r)
    (hsource : Delivers .eof source src content) (hps : ∀ p ∈ ps, 0 < p.length) :
    ∃ rounds₀, ∀ rounds, rounds₀ ≤ rounds → ∃ results r',
      r.reads digestOf source rounds ps = .ok (results, r') ∧
      List.Forall₂ VerifiedReader.Within ps results ∧
      (content.length < ps.length → ∃ result ∈ results, result.err ≠ none) ∧
      (((∀ result ∈ results, result.err = none) ∧
          VerifiedReader.handedOver results <+: content.dropLast ∧ r'.reported = []) ∨
        (digestOf (algorithmOf digest) content = digest ∧
          VerifiedReader.Ends results content .eof ∧ r'.reported = []) ∨
        (digestOf (algorithmOf digest) content ≠ digest ∧
          ∃ err, err = .mismatch digest (digestOf (algorithmOf digest) content) content.length ∧
            VerifiedReader.Ends results content.dropLast (.mismatch err) ∧
            r'.reported = [err])) := by
  obtain ⟨parsed, hpr⟩ : ∃ parsed, parseDigest digest = .ok parsed := by
    unfold newVerifiedReader at hnew
    split at hnew
    · cases hnew
    · exact ⟨_, ‹_›⟩
  have hr : r = ⟨src, digest, [], 0, false, false, none, []⟩ := by
    simpa [newVerifiedReader, hpr] using hnew.symm
  have hrn : VerifiedReader.Running source content [] content r := by
    rw [hr]
    exact ⟨rfl, rfl, rfl, fun _ => rfl, hsource, rfl⟩
  obtain ⟨rounds₀, hrd⟩ := @VerifiedReader.reads_spec _ digestOf _ _ _ _ _ _ hrn hps
  refine ⟨rounds₀, fun rounds hrs => ?_⟩
  obtain ⟨results, r', hrd', hwt, hcs⟩ := hrd rounds hrs
  refine ⟨results, r', hrd', hwt, ?_, ?_⟩
  · intro hln
    rcases hcs with ⟨hnn, rest, hst⟩ | ⟨_, _, ⟨before, last, after, rfl, _, hls, _⟩, _⟩
    · -- every read handed something over, and together they stay short of the content
      have hcn := VerifiedReader.length_le_handedOver hwt fun q hq => (hnn q hq).2
      have hsn := hst.sent_before_last.length_le
      rw [nil_append, length_dropLast] at hsn
      omega
    · exact ⟨last, by simp, by simp [hls]⟩
  · have hep : r.expected = digest := by rw [hr]
    rw [hep] at hcs
    rcases hcs with ⟨hnn, rest, hst⟩ | ⟨bytes, how, hen, hrp⟩
    · exact .inl ⟨fun q hq => (hnn q hq).1, hst.sent_before_last, hst.reported⟩
    · right
      subst how
      unfold VerifiedReader.owed VerifiedReader.ending at hen
      unfold VerifiedReader.reports at hrp
      by_cases hgd : digestOf (algorithmOf digest) content = digest
      · rw [verify, hpr] at hen hrp
        simp only [if_pos hgd] at hen hrp
        exact .inl ⟨hgd, hen, hrp⟩
      · rw [verify, hpr] at hen hrp
        simp only [if_neg hgd] at hen hrp
        exact .inr ⟨hgd, _, rfl, hen, hrp⟩

def threeBytes : List Content := [[1], [], [2, 3]]

theorem verifiedReader_streams_threeBytes :
    ∃ r rounds results r', newVerifiedReader threeBytes (repeated 'a') = .ok r ∧
      r.reads (fun _ _ => repeated 'a') (pieces .eof) rounds [[0], [0], [0, 0], [0]] =
        .ok (results, r') ∧
      VerifiedReader.Ends results [1, 2, 3] .eof := by
  obtain ⟨r, hnew⟩ : ∃ r, newVerifiedReader threeBytes (repeated 'a') = .ok r :=
    ⟨⟨threeBytes, repeated 'a', [], 0, false, false, none, []⟩, by decide +kernel⟩
  obtain ⟨rounds, hrn⟩ := verifiedReader_streams (fun _ _ => repeated 'a')
    (pieces StreamError.eof) [1, 2, 3] (repeated 'a') threeBytes r [[0], [0], [0, 0], [0]] hnew
    (pieces_delivers StreamError.eof threeBytes) (by decide)
  obtain ⟨results, r', hrd, _, hln, hcs⟩ := hrn rounds le_rfl
  refine ⟨r, rounds, results, r', hnew, hrd, ?_⟩
  obtain ⟨result, hmem, herr⟩ := hln (by decide)
  rcases hcs with ⟨hnn, _⟩ | ⟨_, hen, _⟩ | ⟨hbad, _⟩
  · exact absurd (hnn result hmem) herr
  · exact hen
  · exact absurd rfl hbad

end Trove.Blob
