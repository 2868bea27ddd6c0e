import Trove.Lib.Run

/-!
# Readers

A reader is asked for at most `n` elements and answers with some and possibly an error, one of which
is the end of the stream. `Delivers` is what it means to deliver a content in any pieces: the
answers are the content from the front, an answer may be empty, the end may come together with the
last piece or after it, and it comes.
-/

namespace Trove.Lib

open List

variable {σ α ε : Type*}

abbrev Reader (σ α ε : Type*) := σ → ℕ → (List α × Option ε) × σ

/-- The reader answers with the end, and only that, from now on. -/
def Ended (eof : ε) (read : Reader σ α ε) (s : σ) : Prop :=
  ∃ ended : σ → Prop, ended s ∧
    ∀ s n, 0 < n → ended s → (read s n).1 = ([], some eof) ∧ ended (read s n).2

inductive Delivers (eof : ε) (read : Reader σ α ε) : σ → List α → Prop
  | intro {s : σ} {content : List α}
      (fits : ∀ n, 0 < n → (read s n).1.1.length ≤ n)
      (front : ∀ n, 0 < n → (read s n).1.1 <+: content)
      (ends : ∀ n, 0 < n → ∀ err, (read s n).1.2 = some err →
        err = eof ∧ (read s n).1.1 = content ∧ Ended eof read (read s n).2)
      (goes : ∀ n, 0 < n → (read s n).1.2 = none →
        Delivers eof read (read s n).2 (content.drop (read s n).1.1.length)) :
      Delivers eof read s content

variable {eof : ε} {read : Reader σ α ε} {s : σ} {content : List α}

theorem Ended.delivers (h : Ended eof read s) : Delivers eof read s [] := by
  obtain ⟨ended, hs, hov⟩ := h
  constructor
  · intro n hn
    simp [(hov s n hn hs).1]
  · intro n hn
    simp [(hov s n hn hs).1]
  · intro n hn err herr
    obtain ⟨hrd, hnx⟩ := hov s n hn hs
    rw [hrd] at herr ⊢
    cases herr
    exact ⟨rfl, rfl, ended, hnx, hov⟩
  · intro n hn hnn
    simp [(hov s n hn hs).1] at hnn

theorem Delivers.answer {n : ℕ} {piece : List α} {err : Option ε} {s' : σ}
    (h : Delivers eof read s content) (hn : 0 < n) (hrd : read s n = ((piece, err), s')) :
    piece.length ≤ n ∧ ∃ rest, content = piece ++ rest ∧ Delivers eof read s' rest ∧
      (err = none ∨ err = some eof ∧ rest = []) := by
  obtain ⟨fits, front, ends, goes⟩ := h
  have hft := fits n hn
  obtain ⟨rest, hrs⟩ := front n hn
  have hen := ends n hn
  have hgs := goes n hn
  rw [hrd] at hft hrs hen hgs
  refine ⟨hft, rest, hrs.symm, ?_⟩
  cases err with
  | none =>
    rw [← hrs, drop_left] at hgs
    exact ⟨hgs rfl, .inl rfl⟩
  | some err =>
    obtain ⟨rfl, hall, hed⟩ := hen err rfl
    replace hall : piece = content := hall
    have hnil : rest = [] := by simpa [hall] using hrs
    exact ⟨hnil ▸ hed.delivers, .inr ⟨rfl, hnil⟩⟩

/-- An answer that hands over something of what is there, or is the end when nothing is. -/
def Progress (eof : ε) (has : σ → List α → Prop) (content : List α) (n : ℕ)
    (answer : (List α × Option ε) × σ) : Prop :=
  (content = [] ∧ answer.1 = ([], some eof) ∧ has answer.2 []) ∨
    ∃ piece rest, piece ≠ [] ∧ piece.length ≤ n ∧ content = piece ++ rest ∧
      answer.1 = (piece, none) ∧ has answer.2 rest

theorem delivers_of_progress {has : σ → List α → Prop}
    (hpr : ∀ s content n, 0 < n → has s content → Progress eof has content n (read s n))
    (h : has s content) : Delivers eof read s content := by
  induction hlen : content.length using Nat.strongRecOn generalizing s content with
  | ind length ih =>
    by_cases hnil : content = []
    · subst hnil
      refine Ended.delivers ⟨(has · []), h, fun s n hn hs => ?_⟩
      rcases hpr s [] n hn hs with ⟨-, hed⟩ | ⟨piece, rest, hpc, -, hap, -⟩
      · exact hed
      · exact absurd (append_eq_nil_iff.mp hap.symm).1 hpc
    · have hrd (n : ℕ) (hn : 0 < n) := (hpr s content n hn h).resolve_left fun hl => hnil hl.1
      constructor
      · intro n hn
        obtain ⟨piece, rest, _, hft, _, han, _⟩ := hrd n hn
        rw [han]
        exact hft
      · intro n hn
        obtain ⟨piece, rest, _, _, rfl, han, _⟩ := hrd n hn
        rw [han]
        exact prefix_append _ _
      · intro n hn err herr
        obtain ⟨piece, rest, _, _, _, han, _⟩ := hrd n hn
        rw [han] at herr
        cases herr
      · intro n hn _
        obtain ⟨piece, rest, hpc, _, rfl, han, hrs⟩ := hrd n hn
        rw [han, drop_left]
        refine ih rest.length ?_ hrs rfl
        have := length_pos_iff.mpr hpc
        rw [← hlen, length_append]
        omega

/-! ## Reads that loop -/

section Loop

variable {loop : ℕ → σ → ℕ → Option ((List α × Option ε) × σ)}

open Classical in
/-- The reader a loop amounts to: its answer after as many rounds as that takes. -/
noncomputable def settled (loop : ℕ → σ → ℕ → Option ((List α × Option ε) × σ)) : Reader σ α ε :=
  fun s n => if h : ∃ answer rounds, loop rounds s n = some answer then h.choose
    else (([], none), s)

theorem settled_eq {answer : (List α × Option ε) × σ} {rounds n : ℕ}
    (hsucc : ∀ {rounds s n answer}, loop rounds s n = some answer →
      loop (rounds + 1) s n = some answer)
    (h : loop rounds s n = some answer) : settled loop s n = answer := by
  have hadd : ∀ {rounds answer} (more : ℕ), loop rounds s n = some answer →
      loop (rounds + more) s n = some answer := by
    intro rounds answer more h
    induction more with
    | zero => exact h
    | succ more ih => exact hsucc ih
  have hex : ∃ answer rounds, loop rounds s n = some answer := ⟨answer, rounds, h⟩
  obtain ⟨rounds', h'⟩ := hex.choose_spec
  rw [settled, dif_pos hex]
  have hsum := hadd rounds h'
  rw [Nat.add_comm, hadd rounds' h] at hsum
  exact (Option.some.inj hsum).symm

/-- A loop that comes to an answer wherever something is there delivers it, and comes to an answer
after any reads. -/
theorem delivers_of_loop {has : σ → List α → Prop}
    (hsucc : ∀ {rounds s n answer}, loop rounds s n = some answer →
      loop (rounds + 1) s n = some answer)
    (hpr : ∀ s content n, 0 < n → has s content →
      ∃ rounds answer, loop rounds s n = some answer ∧ Progress eof has content n answer)
    (h : has s content) :
    Delivers eof (settled loop) s content ∧
      ∀ ns, (∀ n ∈ ns, 0 < n) → ∀ n, 0 < n →
        ∃ rounds, (loop rounds (after (settled loop) s ns) n).isSome := by
  have hst : ∀ s content n, 0 < n → has s content →
      Progress eof has content n (settled loop s n) := by
    intro s content n hn hs
    obtain ⟨rounds, answer, hlp, han⟩ := hpr s content n hn hs
    rwa [settled_eq hsucc hlp]
  refine ⟨delivers_of_progress hst h, fun ns hns n hn => ?_⟩
  induction ns generalizing s content with
  | nil =>
    obtain ⟨rounds, answer, hlp, -⟩ := hpr s content n hn h
    exact ⟨rounds, by rw [after, foldl_nil, hlp]; rfl⟩
  | cons m ns ih =>
    obtain ⟨rest, hrest⟩ : ∃ rest, has (settled loop s m).2 rest := by
      rcases hst s content m (hns m (.head _)) h with ⟨-, -, hnil⟩ | ⟨-, rest, -, -, -, -, hrest⟩
      · exact ⟨[], hnil⟩
      · exact ⟨rest, hrest⟩
    exact ih hrest fun n hn => hns n (.tail _ hn)

end Loop

/-! ## Any reader -/

/-- What a reader has given, and where that left it, as long as it answered without an error. -/
inductive Gives (read : Reader σ α ε) (s₀ : σ) : σ → List α → Prop
  | start : Gives read s₀ s₀ []
  | more {s : σ} {given : List α} (n : ℕ) (h : Gives read s₀ s given)
      (hnone : (read s n).1.2 = none) : Gives read s₀ (read s n).2 (given ++ (read s n).1.1)

/-- When the reader first ends, what it has given meets `P`. -/
def EndsOnlyAfter (eof : ε) (P : List α → Prop) (read : Reader σ α ε) (s₀ : σ) : Prop :=
  ∀ s given n, Gives read s₀ s given → (read s n).1.2 = some eof → P (given ++ (read s n).1.1)

/-! ## A reader of pieces -/

/-- The reader that has pieces and hands over one at a time, as much of it as is asked for. -/
def pieces (eof : ε) : Reader (List (List α)) α ε
  | [], _ => (([], some eof), [])
  | piece :: rest, n =>
    if piece.length ≤ n then ((piece, none), rest)
    else ((piece.take n, none), piece.drop n :: rest)

theorem pieces_nil (eof : ε) : Ended eof (pieces eof) ([] : List (List α)) :=
  ⟨(· = []), rfl, by rintro _ n _ rfl; exact ⟨rfl, rfl⟩⟩

theorem pieces_delivers (eof : ε) (all : List (List α)) :
    Delivers eof (pieces eof) all all.flatten := by
  induction all with
  | nil => exact (pieces_nil eof).delivers
  | cons piece rest ih =>
    induction hlen : piece.length using Nat.strongRecOn generalizing piece with
    | ind size hsz =>
      have hall (n : ℕ) : pieces eof (piece :: rest) n =
          if piece.length ≤ n then ((piece, none), rest)
          else ((piece.take n, none), piece.drop n :: rest) := rfl
      constructor
      · intro n _
        rw [hall]
        split_ifs with h
        · exact h
        · exact length_take_le n piece
      · intro n _
        rw [hall]
        split_ifs with h
        · exact prefix_append _ _
        · exact (List.take_prefix n piece).trans (prefix_append _ _)
      · intro n _ err herr
        rw [hall] at herr
        split_ifs at herr
      · intro n hn _
        rw [hall]
        split_ifs with h
        · simpa using ih
        · have hnx := hsz (piece.drop n).length (by rw [length_drop]; omega) _ rfl
          rw [length_take_of_le (by omega), flatten_cons,
            drop_append_of_le_length (by omega)]
          exact hnx

theorem pieces_gives {eof : ε} {all rest : List (List α)} {given : List α}
    (h : Gives (pieces eof) all rest given) : given ++ rest.flatten = all.flatten := by
  induction h with
  | start => rfl
  | @more rest given n _ hnn ih =>
    cases rest with
    | nil => simp [pieces] at hnn
    | cons piece rest =>
      rw [← ih, pieces]
      split_ifs
      · simp
      · rw [flatten_cons, append_assoc, ← append_assoc (piece.take n),
          take_append_drop, flatten_cons]

theorem pieces_endsOnlyAfter (eof : ε) (all : List (List α)) :
    EndsOnlyAfter eof (· = all.flatten) (pieces eof) all := by
  intro rest given n h herr
  cases rest with
  | nil =>
    rw [← pieces_gives h]
    rfl
  | cons piece rest =>
    rw [pieces] at herr
    split_ifs at herr

end Trove.Lib
