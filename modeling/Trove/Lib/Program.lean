import Mathlib.Logic.Basic

/-!
# Programs that make calls

A `Program` is what a piece of code does between the calls it makes. It can be run to its end
against a handler (`run`), or a call at a time beside others. `Calls` is what holds of every call it
can make, as long as the replies keep to a contract. A program can also be cut short after any of
its calls (`runWith`), and `Meets` is the condition from which it leaves one thing when it returns
and another wherever it is cut.
-/

namespace Trove.Lib

/-- Calls `c : ι` with replies of type `ρ c`, and a result of type `α`. -/
inductive Program {ι : Type} (ρ : ι → Type) (α : Type) : Type
  | ret (a : α)
  | call (c : ι) (next : ρ c → Program ρ α)

namespace Program

variable {ι : Type} {ρ : ι → Type} {α β σ : Type}

def bind : Program ρ α → (α → Program ρ β) → Program ρ β
  | .ret a, f => f a
  | .call c next, f => .call c fun r => (next r).bind f

instance : Monad (Program ρ) where
  pure := .ret
  bind := bind

def perform (c : ι) : Program ρ (ρ c) := .call c .ret

def returned : Program ρ α → Bool
  | .ret _ => true
  | .call _ _ => false

@[simp] theorem ret_bind (a : α) (f : α → Program ρ β) : (Program.ret a >>= f) = f a := rfl

@[simp] theorem call_bind (c : ι) (next : ρ c → Program ρ α) (f : α → Program ρ β) :
    (Program.call c next >>= f) = .call c fun r => next r >>= f := rfl

/-! ## To the end -/

def run (handle : (c : ι) → σ → ρ c × σ) : Program ρ α → σ → α × σ
  | .ret a, s => (a, s)
  | .call c next, s => (next (handle c s).1).run handle (handle c s).2

variable {handle : (c : ι) → σ → ρ c × σ}

@[simp] theorem run_call (c : ι) (next : ρ c → Program ρ α) (s : σ) :
    (Program.call c next).run handle s = (next (handle c s).1).run handle (handle c s).2 := rfl

@[simp] theorem run_bind (p : Program ρ α) (f : α → Program ρ β) (s : σ) :
    (p >>= f).run handle s = (f (p.run handle s).1).run handle (p.run handle s).2 := by
  induction p generalizing s with
  | ret a => rfl
  | call c next ih => exact ih _ _

/-! ## The calls it can make -/

/-- Every call meets `P`, when every reply before it met `R`. -/
def Calls (P : ι → Prop) (R : (c : ι) → ρ c → Prop) : Program ρ α → Prop
  | .ret _ => True
  | .call c next => P c ∧ ∀ r, R c r → (next r).Calls P R

variable {P : ι → Prop} {R : (c : ι) → ρ c → Prop}

theorem Calls.bind {p : Program ρ α} {f : α → Program ρ β} (h : p.Calls P R)
    (hf : ∀ a, (f a).Calls P R) : (p >>= f).Calls P R := by
  induction p with
  | ret a => exact hf a
  | call c next ih => exact ⟨h.1, fun r hr => ih r (h.2 r hr)⟩

/-! ## Cut short -/

variable {ε : Type}

/-- Each call takes an input, which says how it turns out. The program is cut short when the inputs
run out. -/
def runWith (handle : (c : ι) → ε → σ → ρ c × σ) : Program ρ α → List ε → σ → Option α × σ
  | .ret a, _, s => (some a, s)
  | .call _ _, [], s => (none, s)
  | .call c next, e :: es, s => (next (handle c e s).1).runWith handle es (handle c e s).2

/-- However its calls turn out, the program leaves `post` when it returns, and `cut` wherever it is
cut short. -/
def Meets (handle : (c : ι) → ε → σ → ρ c × σ) (cut : σ → Prop) (post : α → σ → Prop) :
    Program ρ α → σ → Prop
  | .ret a, s => post a s
  | .call c next, s =>
    cut s ∧ ∀ e, (next (handle c e s).1).Meets handle cut post (handle c e s).2

section Meets

variable {handle : (c : ι) → ε → σ → ρ c × σ} {cut : σ → Prop} {post : α → σ → Prop}

variable {s : σ} {p : Program ρ α}

theorem Meets.runWith (h : p.Meets handle cut post s) (es : List ε) :
    (∀ a, (p.runWith handle es s).1 = some a → post a (p.runWith handle es s).2) ∧
      ((p.runWith handle es s).1 = none → cut (p.runWith handle es s).2) := by
  induction p generalizing s es with
  | ret a =>
    refine ⟨fun b hb => ?_, fun hnn => ?_⟩
    · obtain rfl := Option.some.inj hb
      exact h
    · cases hnn
  | call c next ih =>
    cases es with
    | nil =>
      refine ⟨fun b hb => ?_, fun _ => h.1⟩
      cases hb
    | cons e es => exact ih _ (h.2 e) es

theorem Meets.bind {f : α → Program ρ β} {post : β → σ → Prop}
    (h : p.Meets handle cut (fun a s => (f a).Meets handle cut post s) s) :
    (p >>= f).Meets handle cut post s := by
  induction p generalizing s with
  | ret a => exact h
  | call c next ih => exact ⟨h.1, fun e => ih _ (h.2 e)⟩

theorem Meets.mono {cut' : σ → Prop} {post' : α → σ → Prop} (h : p.Meets handle cut post s)
    (hcut : ∀ s, cut s → cut' s) (hps : ∀ a s, post a s → post' a s) :
    p.Meets handle cut' post' s := by
  induction p generalizing s with
  | ret a => exact hps a s h
  | call c next ih => exact ⟨hcut s h.1, fun e => ih _ (h.2 e)⟩

theorem Calls.meets {P : ι → Prop} {Inv : σ → Prop} (h : p.Calls P fun _ _ => True)
    (hst : ∀ c e s, P c → Inv s → Inv (handle c e s).2) (hs : Inv s) :
    p.Meets handle Inv (fun _ => Inv) s := by
  induction p generalizing s with
  | ret a => exact hs
  | call c next ih => exact ⟨hs, fun e => ih _ (h.2 _ trivial) (hst c e s h.1 hs)⟩

theorem exists_runWith (handle : (c : ι) → ε → σ → ρ c × σ) (e : ε) (p : Program ρ α) (s : σ) :
    ∃ n, ∀ m, n ≤ m → ∃ a, (p.runWith handle (List.replicate m e) s).1 = some a := by
  induction p generalizing s with
  | ret a => exact ⟨0, fun m _ => ⟨a, rfl⟩⟩
  | call c next ih =>
    obtain ⟨n, hn⟩ := ih (handle c e s).1 (handle c e s).2
    refine ⟨n + 1, fun m hm => ?_⟩
    obtain ⟨m, rfl⟩ := Nat.exists_eq_add_of_le' hm
    exact hn (m + n) (Nat.le_add_left n m)

end Meets

end Program

end Trove.Lib
