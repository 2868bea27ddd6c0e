import Mathlib.Data.List.Dedup
import Mathlib.Logic.Function.Iterate

/-!
# Regular expressions with assertions

`Matches w r i j` says that `r` matches the characters of `w` from position `i` up to position `j`:
an assertion looks at what stands before and behind it. `ends` computes where a match that begins at
a position can end, and `search` whether there is a match anywhere. Neither depends on which of
several matches is preferred or what the groups capture, so expressions carry neither.
-/

namespace Trove.Lib

open List

inductive Assertion
  | beginText
  | endText
  | beginLine
  | endLine
  | wordBoundary
  | noWordBoundary
  deriving DecidableEq

/-- The expressions. -/
inductive Regexp
  | empty
  | char (member : Char → Bool)
  | look (a : Assertion)
  | cat (r s : Regexp)
  | alt (r s : Regexp)
  | times (min : ℕ) (max : Option ℕ) (r : Regexp)

namespace Regexp

def cats (rs : List Regexp) : Regexp := rs.foldr cat empty

/-- One of the expressions. -/
def alts (r : Regexp) (rs : List Regexp) : Regexp := rs.foldl alt r

/-! ## Meaning -/

def isWord (c : Char) : Bool := c.isAlphanum || c = '_'

def wordAt (w : List Char) (i : ℕ) : Bool := (w[i]?.map isWord).getD false

/-- A position lies on a word boundary when just one of its two neighbours is a word character. -/
def onBoundary (w : List Char) (i : ℕ) : Bool := (i ≠ 0 && wordAt w (i - 1)) != wordAt w i

def holdsAt (w : List Char) (i : ℕ) : Assertion → Bool
  | .beginText => i = 0
  | .endText => i = w.length
  | .beginLine => i = 0 || w[i - 1]? = some '\n'
  | .endLine => i = w.length || w[i]? = some '\n'
  | .wordBoundary => onBoundary w i
  | .noWordBoundary => !onBoundary w i

/-- A walk of so many steps. -/
def Walk (R : ℕ → ℕ → Prop) : ℕ → ℕ → ℕ → Prop
  | 0, i, j => i = j
  | n + 1, i, k => ∃ j, R i j ∧ Walk R n j k

/-- The expression matches the text from the first position up to the second. -/
def Matches (w : List Char) : Regexp → ℕ → ℕ → Prop
  | empty, i, j => i = j
  | char member, i, j => j = i + 1 ∧ ∃ c, w[i]? = some c ∧ member c = true
  | look a, i, j => i = j ∧ holdsAt w i a = true
  | cat r s, i, k => ∃ j, Matches w r i j ∧ Matches w s j k
  | alt r s, i, j => Matches w r i j ∨ Matches w s i j
  | times min max r, i, j =>
    ∃ n, min ≤ n ∧ (∀ m ∈ max, n ≤ m) ∧ Walk (Matches w r) n i j

def MatchesWhole (r : Regexp) (w : List Char) : Prop := Matches w r 0 w.length

/-! ## Matching -/

/-- Where one step leads from any of the positions. -/
def advance (f : ℕ → List ℕ) (l : List ℕ) : List ℕ := (l.flatMap f).dedup

def upTo (f : ℕ → List ℕ) : ℕ → List ℕ → List ℕ
  | 0, l => l
  | n + 1, l => l ++ upTo f n (advance f l)

/-- Where a match that begins at the position can end. A repetition without a bound goes on for as
many rounds as the text has characters. -/
def ends (w : List Char) : Regexp → ℕ → List ℕ
  | empty, i => [i]
  | char member, i => if w[i]?.any member then [i + 1] else []
  | look a, i => if holdsAt w i a then [i] else []
  | cat r s, i => (ends w r i).flatMap (ends w s)
  | alt r s, i => ends w r i ++ ends w s i
  | times min max r, i =>
    match max with
    | none => upTo (ends w r) w.length ((advance (ends w r))^[min] [i])
    | some m => if m < min then [] else upTo (ends w r) (m - min) ((advance (ends w r))^[min] [i])

def search (r : Regexp) (w : List Char) : Bool :=
  (List.range (w.length + 1)).any fun i => !(ends w r i).isEmpty

/-! ## Walks -/

section Walk

variable {R : ℕ → ℕ → Prop}

theorem walk_add {m n i k : ℕ} : Walk R (m + n) i k ↔ ∃ j, Walk R m i j ∧ Walk R n j k := by
  induction m generalizing i with
  | zero =>
    rw [Nat.zero_add]
    exact ⟨fun h => ⟨i, rfl, h⟩, fun ⟨_, h, hn⟩ => h ▸ hn⟩
  | succ m ih =>
    rw [Nat.add_right_comm]
    constructor
    · rintro ⟨j, hj, h⟩
      obtain ⟨l, hl, hn⟩ := ih.mp h
      exact ⟨l, ⟨j, hj, hl⟩, hn⟩
    · rintro ⟨l, ⟨j, hj, hl⟩, hn⟩
      exact ⟨j, hj, ih.mpr ⟨l, hl, hn⟩⟩

theorem walk_le (hle : ∀ i j, R i j → i ≤ j) {n i j : ℕ} (h : Walk R n i j) : i ≤ j := by
  induction n generalizing i with
  | zero => exact Nat.le_of_eq h
  | succ n ih =>
    obtain ⟨k, hk, h⟩ := h
    exact Nat.le_trans (hle i k hk) (ih h)

/-- A walk that never goes back needs no more steps than it makes way: those that stay where they
are can be left out. -/
theorem walk_shorten (hle : ∀ i j, R i j → i ≤ j) {n i j : ℕ} (h : Walk R n i j) :
    ∃ m ≤ j - i, Walk R m i j := by
  induction n generalizing i with
  | zero => exact ⟨0, Nat.zero_le _, h⟩
  | succ n ih =>
    obtain ⟨k, hk, h⟩ := h
    obtain ⟨m, hm, hwl⟩ := ih h
    have hik := hle i k hk
    have hkj := walk_le hle hwl
    by_cases heq : i = k
    · subst heq
      exact ⟨m, hm, hwl⟩
    · exact ⟨m + 1, by omega, k, hk, hwl⟩

variable {f : ℕ → List ℕ} (hf : ∀ i j, j ∈ f i ↔ R i j)

include hf

theorem mem_iterate_advance (n : ℕ) (l : List ℕ) (j : ℕ) :
    j ∈ (advance f)^[n] l ↔ ∃ i ∈ l, Walk R n i j := by
  induction n generalizing l with
  | zero => simp [Walk]
  | succ n ih =>
    rw [Function.iterate_succ_apply, ih]
    simp only [advance, mem_dedup, mem_flatMap, hf, Walk]
    constructor
    · rintro ⟨k, ⟨i, hi, hk⟩, h⟩
      exact ⟨i, hi, k, hk, h⟩
    · rintro ⟨i, hi, k, hk, h⟩
      exact ⟨k, ⟨i, hi, hk⟩, h⟩

theorem mem_upTo (n : ℕ) (l : List ℕ) (j : ℕ) :
    j ∈ upTo f n l ↔ ∃ m ≤ n, ∃ i ∈ l, Walk R m i j := by
  induction n generalizing l with
  | zero => simp [upTo, Walk]
  | succ n ih =>
    rw [upTo, mem_append, ih]
    have hone := mem_iterate_advance hf 1 l
    constructor
    · rintro (h | ⟨m, hm, k, hk, h⟩)
      · exact ⟨0, Nat.zero_le _, j, h, rfl⟩
      · obtain ⟨i, hi, hik⟩ := (hone k).mp hk
        exact ⟨1 + m, by omega, i, hi, walk_add.mpr ⟨k, hik, h⟩⟩
    · rintro ⟨m, hm, i, hi, h⟩
      cases m with
      | zero => exact .inl (h ▸ hi)
      | succ m =>
        obtain ⟨k, hk, h⟩ := h
        exact .inr ⟨m, by omega, k, (hone k).mpr ⟨i, hi, k, hk, rfl⟩, h⟩

end Walk

/-! ## The matcher finds the matches -/

variable {w : List Char}

variable {i j : ℕ} {r : Regexp}

theorem Matches.bounds (h : Matches w r i j) : i ≤ j ∧ (i < j → j ≤ w.length) := by
  induction r generalizing i j with
  | empty =>
    obtain rfl : i = j := h
    exact ⟨Nat.le_refl _, fun h => absurd h (Nat.lt_irrefl _)⟩
  | char member =>
    obtain ⟨rfl, c, hc, -⟩ := h
    have hlt : i < w.length := (List.getElem?_eq_some_iff.mp hc).1
    exact ⟨by omega, fun _ => hlt⟩
  | look a =>
    obtain ⟨rfl, -⟩ := h
    exact ⟨Nat.le_refl _, fun h => absurd h (Nat.lt_irrefl _)⟩
  | cat r s ihr ihs =>
    obtain ⟨k, hr, hs⟩ := h
    have hr := ihr hr
    have hs := ihs hs
    omega
  | alt r s ihr ihs =>
    rcases h with h | h
    · exact ihr h
    · exact ihs h
  | times min max r ih =>
    obtain ⟨n, -, -, h⟩ := h
    induction n generalizing i with
    | zero =>
      obtain rfl : i = j := h
      exact ⟨Nat.le_refl _, fun h => absurd h (Nat.lt_irrefl _)⟩
    | succ n ihn =>
      obtain ⟨k, hk, h⟩ := h
      have hk := ih hk
      have h := ihn h
      omega

theorem matches_times {min : ℕ} {max : Option ℕ} :
    Matches w (times min max r) i j ↔
      (∀ m ∈ max, min ≤ m) ∧ ∃ n ≤ (max.map (· - min)).getD w.length,
        ∃ k, Walk (Matches w r) min i k ∧ Walk (Matches w r) n k j := by
  have hle : ∀ i j, Matches w r i j → i ≤ j := fun _ _ h => h.bounds.1
  constructor
  · rintro ⟨n, hmin, hmax, h⟩
    refine ⟨fun m hm => Nat.le_trans hmin (hmax m hm), ?_⟩
    obtain ⟨k, hmin', hrs⟩ := walk_add.mp (Nat.add_sub_cancel' hmin ▸ h)
    cases max with
    | some m =>
      have hm := hmax m rfl
      exact ⟨n - min, Nat.sub_le_sub_right hm min, k, hmin', hrs⟩
    | none =>
      obtain ⟨m, hm, hwl⟩ := walk_shorten hle hrs
      have hkj : Matches w (times 0 none r) k j := ⟨_, Nat.zero_le _, nofun, hrs⟩
      have hbn := hkj.bounds
      exact ⟨m, show m ≤ w.length by omega, k, hmin', hwl⟩
  · rintro ⟨hmax, n, hn, k, hmin, hrs⟩
    refine ⟨min + n, Nat.le_add_right _ _, fun m hm => ?_, walk_add.mpr ⟨k, hmin, hrs⟩⟩
    obtain rfl := hm
    have hm := hmax m rfl
    have hn : n ≤ m - min := hn
    omega

theorem mem_ends : j ∈ ends w r i ↔ Matches w r i j := by
  induction r generalizing i j with
  | empty =>
    rw [ends, mem_singleton]
    exact eq_comm
  | char member =>
    rw [ends, Matches, ← Option.any_eq_true]
    by_cases h : w[i]?.any member = true
    · rw [if_pos h, mem_singleton]
      exact (and_iff_left h).symm
    · rw [if_neg h]
      exact ⟨nofun, fun hm => absurd hm.2 h⟩
  | look a =>
    rw [ends, Matches]
    by_cases h : holdsAt w i a = true
    · rw [if_pos h, mem_singleton, eq_comm]
      exact (and_iff_left h).symm
    · rw [if_neg h]
      exact ⟨nofun, fun hm => absurd hm.2 h⟩
  | cat r s ihr ihs =>
    simp only [ends, Matches, mem_flatMap, ihr, ihs]
  | alt r s ihr ihs =>
    simp only [ends, Matches, mem_append, ihr, ihs]
  | times min max r ih =>
    have hf : ∀ i j, j ∈ ends w r i ↔ Matches w r i j := fun _ _ => ih
    rw [matches_times]
    cases max with
    | none =>
      simp only [ends, mem_upTo hf, mem_iterate_advance hf, mem_singleton]
      simp
    | some m =>
      by_cases hm : m < min
      · simp only [ends, if_pos hm]
        exact ⟨nofun, fun h => absurd (h.1 m rfl) (Nat.not_le.mpr hm)⟩
      · simp only [ends, if_neg hm, mem_upTo hf, mem_iterate_advance hf, mem_singleton]
        simp [Nat.le_of_not_lt hm]

theorem search_iff : search r w = true ↔ ∃ i ≤ w.length, ∃ j, Matches w r i j := by
  simp only [search, any_eq_true, mem_range, Nat.lt_succ_iff, Bool.not_eq_true',
    isEmpty_eq_false_iff_exists_mem, mem_ends]

/-- **Anchored expressions.** Between the two anchors of the text an expression is found just when
it matches the whole of the text. -/
theorem search_anchored :
    search (cats [look .beginText, r, look .endText]) w = true ↔ MatchesWhole r w := by
  rw [search_iff]
  constructor
  · rintro ⟨i, -, j, _, ⟨rfl, hbg⟩, k, hr, _, ⟨rfl, hend⟩, -⟩
    obtain rfl : i = 0 := of_decide_eq_true hbg
    obtain rfl : k = w.length := of_decide_eq_true hend
    exact hr
  · intro h
    exact ⟨0, Nat.zero_le _, w.length, 0, ⟨rfl, rfl⟩, w.length, h, w.length,
      ⟨rfl, decide_eq_true rfl⟩, rfl⟩

end Regexp

end Trove.Lib
