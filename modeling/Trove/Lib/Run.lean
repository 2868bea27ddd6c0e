import Mathlib.Data.Option.Basic
import Mathlib.Data.List.Basic
import Mathlib.Data.List.Induction
import Mathlib.Logic.Relation

/-!
# Runs of a step function

A system is a partial step function `step : σ → α → Option σ` on actions. `exec` takes a list of
actions in order, `Along ok` says that each of them is taken in a state that meets `ok`, and
`exec_invariant` is the induction rule: what one step preserves, a run preserves.
-/

namespace Trove.Lib

open List

variable {σ α : Type*} (step : σ → α → Option σ)

/-- The state after the actions, when each of them is enabled in turn. -/
def exec : σ → List α → Option σ
  | s, [] => some s
  | s, a :: as => (step s a).bind fun s' => exec s' as

/-- Every action of the run is taken in a state that meets `ok`. -/
def Along (ok : σ → α → Prop) : σ → List α → Prop
  | _, [] => True
  | s, a :: as => ok s a ∧ ∀ s' ∈ step s a, Along ok s' as

instance Along.decidable (ok : σ → α → Prop) [∀ s a, Decidable (ok s a)] :
    ∀ s as, Decidable (Along step ok s as)
  | _, [] => isTrue trivial
  | s, a :: as =>
    match h : step s a with
    | none => decidable_of_iff (ok s a) (by simp [Along, h])
    | some s' =>
      have := Along.decidable ok s' as
      decidable_of_iff (ok s a ∧ Along step ok s' as) (by simp [Along, h])

variable {step}

variable {s s' : σ} {as : List α} {ok : σ → α → Prop} {τ β ε : Type*} {i k : ℕ}

theorem exec_cons_eq_some {a : α} :
    exec step s (a :: as) = some s' ↔ ∃ t, step s a = some t ∧ exec step t as = some s' := by
  rw [exec, Option.bind_eq_some_iff]

theorem Along.and {P : α → Prop} (h : Along step ok s as) (hP : ∀ a ∈ as, P a) :
    Along step (fun s a => ok s a ∧ P a) s as := by
  induction as generalizing s with
  | nil => trivial
  | cons a as ih =>
    exact ⟨⟨h.1, hP a mem_cons_self⟩,
      fun s' hs' => ih (h.2 s' hs') fun b hb => hP b (mem_cons_of_mem _ hb)⟩

theorem along_of_forall (hok : ∀ s a, ok s a) (s : σ) (as : List α) : Along step ok s as := by
  induction as generalizing s with
  | nil => trivial
  | cons a as ih => exact ⟨hok s a, fun s' _ => ih s'⟩

theorem run_append {t : σ} {bs : List α} (hok : Along step ok s (as ++ bs))
    (hrun : exec step s (as ++ bs) = some s') (ht : exec step s as = some t) :
    Along step ok s as ∧ Along step ok t bs ∧ exec step t bs = some s' := by
  induction as generalizing s with
  | nil =>
    obtain rfl : s = t := by simpa [exec] using ht
    exact ⟨trivial, hok, hrun⟩
  | cons a as ih =>
    obtain ⟨u, hu, ht⟩ := exec_cons_eq_some.mp ht
    obtain ⟨u', hu', hrun⟩ := exec_cons_eq_some.mp hrun
    obtain rfl : u = u' := Option.some.inj (hu.symm.trans hu')
    obtain ⟨hfr, hrs⟩ := ih (hok.2 u hu) hrun ht
    refine ⟨⟨hok.1, fun v hv => ?_⟩, hrs⟩
    obtain rfl : u = v := Option.some.inj (hu.symm.trans hv)
    exact hfr

/-- **Invariant rule.** What every step that meets `ok` preserves holds after every run all of
whose steps meet `ok`. -/
theorem exec_invariant {Inv : σ → Prop}
    (hst : ∀ s a s', Inv s → ok s a → step s a = some s' → Inv s') (h : Inv s)
    (hok : Along step ok s as) (hrun : exec step s as = some s') : Inv s' := by
  induction as generalizing s with
  | nil =>
    obtain rfl : s = s' := by simpa [exec] using hrun
    exact h
  | cons a as ih =>
    obtain ⟨t, ht, hrun⟩ := exec_cons_eq_some.mp hrun
    exact ih (hst s a t h hok.1 ht) (hok.2 t ht) hrun

/-! ## Systems that answer -/

def outputs {β : Type*} (step : σ → α → β × σ) : σ → List α → List β
  | _, [] => []
  | s, a :: as => (step s a).1 :: outputs step (step s a).2 as

variable {R : σ → τ → Prop} {t t' : τ} {step' : τ → α → β × τ} {pool : List τ}

/-- **Simulation rule.** Two systems whose related states answer alike and stay related answer
alike for ever, as long as the actions meet `ok`. -/
theorem outputs_eq_of_simulation {step : σ → α → β × σ} {ok : τ → α → Prop}
    (hst : ∀ s t a, R s t → ok t a →
      (step s a).1 = (step' t a).1 ∧ R (step s a).2 (step' t a).2) (h : R s t)
    (hok : Along (fun t a => some (step' t a).2) ok t as) :
    outputs step s as = outputs step' t as := by
  induction as generalizing s t with
  | nil => rfl
  | cons a as ih =>
    obtain ⟨han, hnx⟩ := hst s t a h hok.1
    rw [outputs, outputs, han, ih hnx (hok.2 _ rfl)]

def after {β : Type*} (step : σ → α → β × σ) (s : σ) (as : List α) : σ :=
  as.foldl (fun s a => (step s a).2) s

theorem length_outputs (step : σ → α → β × σ) (s : σ) (as : List α) :
    (outputs step s as).length = as.length := by
  induction as generalizing s with
  | nil => rfl
  | cons a as ih => rw [outputs, length_cons, length_cons, ih]

theorem outputs_append (step : σ → α → β × σ) (s : σ) (as bs : List α) :
    outputs step s (as ++ bs) = outputs step s as ++ outputs step (after step s as) bs := by
  induction as generalizing s with
  | nil => rfl
  | cons a as ih =>
    rw [cons_append, outputs, outputs, ih]
    rfl

theorem after_related {step : σ → α → β × σ} {ok : τ → α → Prop}
    (hst : ∀ s t a, R s t → ok t a → R (step s a).2 (step' t a).2) (h : R s t)
    (hok : Along (fun t a => some (step' t a).2) ok t as) :
    R (after step s as) (after step' t as) := by
  induction as generalizing s t with
  | nil => exact h
  | cons a as ih => exact ih (hst s t a h hok.1) (hok.2 _ rfl)

/-! ## Logs

A log is judged event by event, each against what stands before it.
-/

/-- Every event of the log meets `ok` with what stands before it. -/
def Justified {ε : Type*} (ok : List ε → ε → Prop) (log : List ε) : Prop :=
  ∀ before e after, log = before ++ e :: after → ok before e

theorem Justified.nil {ok : List ε → ε → Prop} : Justified ok [] := by
  intro before e after h
  simp at h

variable {log : List ε} {P : τ → Prop}

theorem justified_concat {ok : List ε → ε → Prop} {e : ε} :
    Justified ok (log ++ [e]) ↔ Justified ok log ∧ ok log e := by
  refine ⟨fun h => ⟨fun before e' after hlog => ?_, h log e [] rfl⟩, ?_⟩
  · exact h before e' (after ++ [e]) (by rw [hlog]; simp)
  · rintro ⟨h, he⟩ before e' after hlog
    rcases eq_nil_or_concat after with rfl | ⟨after, last, rfl⟩
    · obtain ⟨rfl, hls⟩ := append_inj' hlog rfl
      cases hls
      exact he
    · rw [concat_eq_append, ← cons_append, ← append_assoc] at hlog
      exact h before e' after (append_inj' hlog rfl).1

theorem Justified.countP_le_one {ok : List ε → ε → Prop} {p : ε → Bool} (h : Justified ok log)
    (hp : ∀ before e, ok before e → p e = true → ∀ e' ∈ before, ¬ p e' = true) :
    log.countP p ≤ 1 := by
  induction log using List.reverseRecOn with
  | nil => simp
  | append_singleton log e ih =>
    obtain ⟨hlog, he⟩ := justified_concat.mp h
    rw [countP_append, countP_singleton]
    split_ifs with hpe
    · have hzr := countP_eq_zero.mpr (hp log e he hpe)
      omega
    · exact ih hlog

/-! ## Pools of threads

Threads of one kind share a state and are numbered; one of them takes a step, the others wait.
-/

/-- Thread `i` of the pool takes a step on the shared state. -/
def advance {τ : Type*} (next : σ → τ → Option (σ × τ)) (s : σ) (pool : List τ) (i : ℕ) :
    Option (σ × List τ) :=
  pool[i]?.bind fun t => (next s t).map fun r => (r.1, pool.set i r.2)

theorem advance_eq_some {next : σ → τ → Option (σ × τ)} {pool' : List τ}
    (h : advance next s pool i = some (s', pool')) :
    ∃ t t', pool[i]? = some t ∧ next s t = some (s', t') ∧ pool' = pool.set i t' := by
  obtain ⟨t, ht, h⟩ := Option.bind_eq_some_iff.mp h
  obtain ⟨⟨s₁, t'⟩, hst, h⟩ := Option.map_eq_some_iff.mp h
  cases h
  exact ⟨t, t', ht, hst, rfl⟩

theorem eq_of_getElem?_concat {u : τ} (h : (pool ++ [t])[i]? = some u) :
    pool[i]? = some u ∨ (i = pool.length ∧ u = t) := by
  rcases Nat.lt_or_ge i pool.length with hi | hi
  · rw [List.getElem?_append_left hi] at h
    exact .inl h
  · rw [List.getElem?_append_right hi] at h
    have hzr : i - pool.length = 0 := by
      by_contra hne
      rw [List.getElem?_eq_none (by simp; omega)] at h
      cases h
    rw [hzr] at h
    exact .inr ⟨by omega, (Option.some.inj h).symm⟩

theorem forall_mem_concat (h : ∀ t ∈ pool, P t) (h' : P t') : ∀ t ∈ pool ++ [t'], P t := by
  intro t ht
  rcases mem_append.mp ht with ht | ht
  · exact h t ht
  · rwa [mem_singleton.mp ht]

theorem forall_mem_set (h : ∀ t ∈ pool, P t) (h' : P t') : ∀ t ∈ pool.set i t', P t := by
  intro t ht
  rcases mem_or_eq_of_mem_set ht with ht | rfl
  · exact h t ht
  · exact h'

theorem eq_of_getElem?_set {u : τ} (h : (pool.set k t')[i]? = some u) :
    (i = k ∧ u = t') ∨ (i ≠ k ∧ pool[i]? = some u) := by
  by_cases hik : i = k
  · subst hik
    rw [List.getElem?_set_self (by simpa using (List.getElem?_eq_some_iff.mp h).1)] at h
    exact .inl ⟨rfl, (Option.some.inj h).symm⟩
  · rw [List.getElem?_set_ne (Ne.symm hik)] at h
    exact .inr ⟨hik, h⟩

theorem forall_pairs_concat {R : τ → τ → Prop}
    (h : ∀ (i j : ℕ) (t u : τ), i ≠ j → pool[i]? = some t → pool[j]? = some u → R t u)
    (h' : ∀ t ∈ pool, R t t' ∧ R t' t) :
    ∀ (i j : ℕ) (t u : τ), i ≠ j → (pool ++ [t'])[i]? = some t → (pool ++ [t'])[j]? = some u →
      R t u := by
  intro i j t u hij ht hu
  rcases eq_of_getElem?_concat ht with hold | ⟨hi, rfl⟩
  · rcases eq_of_getElem?_concat hu with hold' | ⟨-, rfl⟩
    · exact h i j t u hij hold hold'
    · exact (h' t (mem_of_getElem? hold)).1
  · rcases eq_of_getElem?_concat hu with hold | ⟨hj, -⟩
    · exact (h' u (mem_of_getElem? hold)).2
    · exact absurd (hi.trans hj.symm) hij

theorem forall_pairs_set {R : τ → τ → Prop}
    (h : ∀ (i j : ℕ) (t u : τ), i ≠ j → pool[i]? = some t → pool[j]? = some u → R t u)
    (h' : ∀ (j : ℕ) (t : τ), j ≠ k → pool[j]? = some t → R t t' ∧ R t' t) :
    ∀ (i j : ℕ) (t u : τ), i ≠ j → (pool.set k t')[i]? = some t → (pool.set k t')[j]? = some u →
      R t u := by
  intro i j t u hij ht hu
  rcases eq_of_getElem?_set ht with ⟨rfl, rfl⟩ | ⟨hik, hold⟩
  · rcases eq_of_getElem?_set hu with ⟨rfl, -⟩ | ⟨hji, hold⟩
    · exact absurd rfl hij
    · exact (h' j u hji hold).2
  · rcases eq_of_getElem?_set hu with ⟨rfl, rfl⟩ | ⟨-, hold'⟩
    · exact (h' i t hik hold).1
    · exact h i j t u hij hold hold'

theorem filterMap_set_perm (f : τ → Option β) (h : pool[k]? = some t) :
    ((f t).toList ++ (pool.set k t').filterMap f).Perm ((f t').toList ++ pool.filterMap f) := by
  induction pool generalizing k with
  | nil => simp at h
  | cons u pool ih =>
    have hcn : ∀ (v : τ) (l : List τ), (v :: l).filterMap f = (f v).toList ++ l.filterMap f := by
      intro v l
      cases hv : f v <;> simp [hv]
    cases k with
    | zero =>
      obtain rfl : u = t := by simpa using h
      rw [set_cons_zero, hcn, hcn, ← append_assoc, ← append_assoc]
      exact perm_append_comm.append_right _
    | succ k =>
      rw [set_cons_succ, hcn, hcn]
      refine (perm_append_comm_assoc _ _ _).trans ?_
      refine ((ih (by simpa using h)).append_left _).trans ?_
      exact perm_append_comm_assoc _ _ _

end Trove.Lib
