import Mathlib.Data.List.Basic
import Mathlib.Data.Option.Basic

/-!
# Buffered channels

A channel holds at most `cap` values and hands them out in the order they came. `send` and `recv`
are the two communications as a `select` with a default tries them: neither waits, and `none` says
that it cannot proceed.
-/

namespace Trove.Lib

/-- A bounded queue. -/
structure Chan (α : Type*) where
  cap : ℕ
  buffer : List α
  fits : buffer.length ≤ cap

namespace Chan

variable {α : Type*}

/-- It begins empty. -/
def make (α : Type*) (cap : ℕ) : Chan α := ⟨cap, [], Nat.zero_le cap⟩

/-- Fails when the buffer is full. -/
def send (q : Chan α) (a : α) : Option (Chan α) :=
  if h : q.buffer.length < q.cap then
    some ⟨q.cap, q.buffer ++ [a], by
      rw [List.length_append, List.length_singleton]
      exact h⟩
  else none

/-- Fails when the buffer is empty. -/
def recv (q : Chan α) : Option (α × Chan α) :=
  match h : q.buffer with
  | [] => none
  | a :: rest => some (a, ⟨q.cap, rest, by
      have hfits := q.fits
      rw [h, List.length_cons] at hfits
      omega⟩)

variable {q q' : Chan α}

theorem buffer_of_send {a : α} (h : q.send a = some q') : q'.buffer = q.buffer ++ [a] := by
  unfold send at h
  split_ifs at h
  cases h
  rfl

theorem buffer_of_recv {a : α} (h : q.recv = some (a, q')) : q.buffer = a :: q'.buffer := by
  unfold recv at h
  split at h
  · cases h
  · rename_i b rest hbf
    cases h
    exact hbf

theorem recv_eq_none : q.recv = none ↔ q.buffer = [] := by
  unfold recv
  split
  · rename_i hbf
    simp [hbf]
  · rename_i hbf
    simp [hbf]

end Chan

end Trove.Lib
