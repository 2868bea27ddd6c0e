import Mathlib.Tactic.Ring
import Mathlib.Tactic.Linarith

/-!
# The generic cell rate algorithm

A token bucket held as one instant: the moment at which its allowance is fully restored. It runs
ahead of the clock by one refill interval for each attempt still owed, and an attempt waits while it
runs further ahead than the burst tolerates. `Owes` bounds the debt by a number of attempts, and
`level` is the potential of a window: it never falls with time, an attempt raises it by one refill,
and a refund lowers it by no more.
-/

namespace Trove.Lib.Bucket

variable (burst refill : ℤ)

def tolerance : ℤ := (burst - 1) * refill

/-- How long until an attempt may be made; zero or less is now. -/
def wait (restoredAt now : ℤ) : ℤ := restoredAt - tolerance burst refill - now

/-- An attempt is made. An idle bucket starts owing from now. -/
def spend (restoredAt now : ℤ) : ℤ := (if restoredAt < now then now else restoredAt) + refill

/-- An attempt is taken back, never further than to now. -/
def refund (restoredAt now : ℤ) : ℤ :=
  if now < restoredAt - refill then restoredAt - refill else now

/-- No more than `n` attempts are owed. -/
def Owes (n : ℕ) (restoredAt now : ℤ) : Prop := restoredAt ≤ now + n * refill

variable {burst refill} {n : ℕ} {restoredAt now : ℤ}

variable {now' : ℤ}

theorem Owes.mono (h : Owes refill n restoredAt now) (hle : now ≤ now') :
    Owes refill n restoredAt now' := by
  unfold Owes at *
  linarith

section

variable (hrf : 0 < refill)
include hrf

theorem owes_now (n : ℕ) (now : ℤ) : Owes refill n now now := by
  unfold Owes
  have := mul_nonneg (Int.natCast_nonneg n) hrf.le
  linarith

theorem Owes.spend (h : Owes refill n restoredAt now) :
    Owes refill (n + 1) (spend refill restoredAt now) now := by
  have hn := mul_nonneg (Int.natCast_nonneg n) hrf.le
  unfold Owes Bucket.spend at *
  push_cast
  split_ifs <;> linarith

theorem Owes.of_le (h : Owes refill n restoredAt now) {m : ℕ}
    (hle : n ≤ m) : Owes refill m restoredAt now := by
  have hmul : (n : ℤ) * refill ≤ m * refill :=
    mul_le_mul_of_nonneg_right (Int.ofNat_le.mpr hle) hrf.le
  unfold Owes at *
  linarith

theorem Owes.refund (h : Owes refill (n + 1) restoredAt now) :
    Owes refill n (refund refill restoredAt now) now := by
  have hn := mul_nonneg (Int.natCast_nonneg n) hrf.le
  unfold Owes Bucket.refund at *
  push_cast at h
  split_ifs <;> linarith

theorem Owes.wait_nonpos (h : Owes refill n restoredAt now)
    (hn : (n : ℤ) < burst) : wait burst refill restoredAt now ≤ 0 := by
  have hle : (n : ℤ) * refill ≤ tolerance burst refill :=
    mul_le_mul_of_nonneg_right (by omega) hrf.le
  unfold Owes at h
  unfold wait
  linarith

end

/-! ## The potential of a window -/

/-- How far the debt reaches, which is no earlier than now. -/
def level (restoredAt now : ℤ) : ℤ := max restoredAt now

theorem level_mono (restoredAt : ℤ) (h : now ≤ now') :
    level restoredAt now ≤ level restoredAt now' := max_le_max le_rfl h

theorem le_level (restoredAt now : ℤ) : now ≤ level restoredAt now := le_max_right _ _

theorem level_of_le (restoredAt : ℤ) (h : now ≤ now') :
    level restoredAt now' = max (level restoredAt now) now' := by
  unfold level
  omega

theorem max_wait_level (hbr : 0 < burst) (hrf : 0 < refill) (restoredAt now : ℤ) :
    max (wait burst refill (level restoredAt now) now) 0 =
      max (wait burst refill restoredAt now) 0 := by
  have htl : 0 ≤ tolerance burst refill := mul_nonneg (by omega) hrf.le
  unfold wait level
  omega

theorem level_refund (hrf : 0 < refill) (restoredAt : ℤ) (h : now ≤ now') :
    level (refund refill restoredAt now) now' = max (level restoredAt now - refill) now' := by
  unfold level refund
  split_ifs <;> omega

theorem level_spend (hrf : 0 < refill) (restoredAt now : ℤ) :
    level (spend refill restoredAt now) now = level restoredAt now + refill := by
  unfold level spend
  split_ifs <;> omega

theorem level_sub_le_refund (hrf : 0 < refill) (restoredAt now : ℤ) :
    level restoredAt now - refill ≤ level (refund refill restoredAt now) now := by
  unfold level refund
  split_ifs <;> omega

theorem spend_le (hbr : 0 < burst) (hrf : 0 < refill)
    (h : wait burst refill restoredAt now ≤ 0) :
    spend refill restoredAt now ≤ now + burst * refill := by
  have hone : refill ≤ burst * refill := le_mul_of_one_le_left hrf.le hbr
  have htl : tolerance burst refill = burst * refill - refill := by
    unfold tolerance
    ring
  unfold wait at h
  unfold spend
  split_ifs <;> omega

end Trove.Lib.Bucket
