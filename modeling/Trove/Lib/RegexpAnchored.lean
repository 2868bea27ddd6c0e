import Trove.Lib.RegexpReader

/-!
# Regular expressions in a group

A text is anchored by putting it between `\A(?:` and `)\z`, before anything is known of its groups,
and that says what it should only for a text that does not close the group itself
(`parse_anchored`).
-/

namespace Trove.Lib.Regexp

open List

/-- What closes the group again. -/
def closing : List Char := [')', '\\', 'z']

def anchor : Local := { mode := .perl, items := [.look .beginText] }

/-- The state a text leads to inside the group. -/
def State.under (σ : State) : State := { σ with outer := σ.outer ++ [anchor] }

theorem run_opening (u : Unicode) (s : List Char) :
    State.run u {} ('\\' :: 'A' :: '(' :: '?' :: ':' :: s) = State.run u (State.under {}) s := rfl

/-! ## What follows does not reach behind the text -/

theorem number_append (s : List Char) :
    number (s ++ closing) = (number s).map fun x => (x.1, x.2 ++ closing) := by
  have htk : (s ++ closing).takeWhile Char.isDigit = s.takeWhile Char.isDigit := by
    rw [takeWhile_append]
    split_ifs with h
    · rw [List.IsPrefix.eq_of_length (List.takeWhile_prefix _) h]
      exact append_nil s
    · rfl
  have hdr : (s ++ closing).dropWhile Char.isDigit = s.dropWhile Char.isDigit ++ closing := by
    rw [dropWhile_append]
    split_ifs with h
    · rw [isEmpty_iff.mp h]
      rfl
    · rfl
  unfold number
  rw [htk, hdr]
  split <;> rfl

theorem closesCount_append (s : List Char) : closesCount (s ++ closing) = closesCount s := by
  cases s <;> rfl

theorem countRest_append (n : ℕ) (s : List Char) : countRest n (s ++ closing) = countRest n s := by
  cases s with
  | nil => rfl
  | cons c s =>
    unfold countRest
    rw [closesCount_append, cons_append, List.head?_cons, List.head?_cons, tail_cons,
      tail_cons, closesCount_append, number_append]
    cases number s with
    | none => rfl
    | some x =>
      show (if _ then _ else if _ then _ else if _ then _ else
        if closesCount (x.2 ++ closing) then _ else _) = _
      rw [closesCount_append]
      rfl

theorem count_append (s : List Char) : count (s ++ closing) = count s := by
  unfold count
  rw [number_append]
  cases number s with
  | none => rfl
  | some x =>
    show (countRest x.1 (x.2 ++ closing) >>= _) = _
    rw [countRest_append]
    rfl

theorem closesName_append (s : List Char) : closesName (s ++ closing) = closesName s := by
  fun_induction closesName s with
  | case1 s => rfl
  | case2 c s h ih =>
    rw [cons_append, closesName]
    · exact ih
    · rintro t rfl ht
      cases s with
      | nil => cases ht
      | cons d s =>
        obtain ⟨rfl, rfl⟩ := List.cons.inj ht
        exact h s rfl rfl
  | case3 => rfl

theorem ahead_append (s : List Char) : ahead (s ++ closing) = ahead s := by
  unfold ahead
  rw [count_append]
  cases s with
  | nil => rfl
  | cons c s =>
    rw [cons_append, tail_cons, closesName_append]
    rfl

theorem run_append (u : Unicode) (σ : State) (s : List Char) :
    σ.run u (s ++ closing) = σ.run u s >>= fun σ => σ.run u closing := by
  induction s generalizing σ with
  | nil => rfl
  | cons c s ih =>
    rw [cons_append, State.run, State.run, ahead_append]
    cases σ.step u c (ahead s) with
    | error e => rfl
    | ok σ => exact ih σ

/-! ## The groups around a text do not bear on it -/

theorem act_under (outer : List Local) (x : Action)
    (h : State.act outer x ≠ .error .unexpectedParen) :
    State.act (outer ++ [anchor]) x = (State.act outer x).map State.under := by
  cases x with
  | stay l => rfl
  | opens l flags => rfl
  | closes l =>
    cases outer with
    | nil => exact absurd rfl h
    | cons group outer => rfl

variable {u : Unicode} {σ : State} {c : Char} {a : Ahead} {l l' : Local} {r : Regexp}

theorem step_under (h : σ.step u c a ≠ .error .unexpectedParen) :
    σ.under.step u c a = (σ.step u c a).map State.under := by
  unfold State.step at *
  cases hrd : σ.inner.read u c a with
  | error e =>
    show (σ.inner.read u c a >>= _) = _
    rw [hrd]
    rfl
  | ok x =>
    show (σ.inner.read u c a >>= _) = _
    rw [hrd] at h ⊢
    exact act_under σ.outer x h

theorem run_under {s : List Char} (h : σ.run u s ≠ .error .unexpectedParen) :
    σ.under.run u s = (σ.run u s).map State.under := by
  induction s generalizing σ with
  | nil => rfl
  | cons c s ih =>
    rw [State.run] at h ⊢
    rw [State.run]
    have hst : σ.step u c (ahead s) ≠ .error .unexpectedParen := by
      intro heq
      rw [heq] at h
      exact h rfl
    rw [step_under hst]
    cases hσ : σ.step u c (ahead s) with
    | error e => rfl
    | ok σ' =>
      rw [hσ] at h
      exact ih h

/-! ## Only a parenthesis closes a group -/

theorem map_stay_ne_closes {x : Except ParseError Local} : x.map Action.stay ≠ .ok (.closes l) := by
  intro h
  obtain ⟨_, -, h⟩ := map_eq_ok.mp h
  cases h

theorem readPlain_closes (h : l.readPlain u c a = .ok (.closes l')) : c = ')' ∧ l' = l := by
  unfold Local.readPlain at h
  split at h
  case h_2 =>
    cases h
    exact ⟨rfl, rfl⟩
  case h_1 =>
    split at h <;> cases h
  case h_11 =>
    split at h
    · exact absurd h map_stay_ne_closes
    · cases h
  all_goals first | cases h | exact absurd h map_stay_ne_closes

theorem readFlag_ne_closes {negated sawFlag : Bool} {f : Flags} :
    l.readFlag negated sawFlag f c ≠ .ok (.closes l') := by
  unfold Local.readFlag
  split <;> (try split) <;> nofun

theorem readOctal_closes {p : Place} {digits value : ℕ}
    (h : l.readOctal u p digits value c a = .ok (.closes l')) :
    c = ')' ∧ p = .outside ∧ l' = l.literal u value := by
  have hbh : Local.readOctal.behind u l value c a p = .ok (.closes l') →
      c = ')' ∧ p = .outside ∧ l' = l.literal u value := by
    intro h
    cases p with
    | outside =>
      obtain ⟨rfl, rfl⟩ := readPlain_closes h
      exact ⟨rfl, rfl, rfl⟩
    | item cls => exact absurd h map_stay_ne_closes
    | upper cls lo =>
      rw [Local.readOctal.behind] at h
      split_ifs at h
      exact absurd h map_stay_ne_closes
  unfold Local.readOctal at h
  split at h
  · split_ifs at h
    · cases h
    · exact hbh h
  · exact hbh h

theorem read_closes (h : l.read u c a = .ok (.closes l')) : c = ')' ∧ l.finish u = .ok l' := by
  unfold Local.read at h
  unfold Local.finish
  cases hmd : l.mode with
  | plain =>
    rw [hmd] at h
    obtain ⟨rfl, rfl⟩ := readPlain_closes h
    exact ⟨rfl, rfl⟩
  | repetition =>
    rw [hmd] at h
    dsimp only at h
    split at h
    · cases h
    · obtain ⟨rfl, rfl⟩ := readPlain_closes h
      exact ⟨rfl, rfl⟩
  | octal p digits value =>
    rw [hmd] at h
    obtain ⟨rfl, rfl, rfl⟩ := readOctal_closes h
    exact ⟨rfl, rfl⟩
  | perl =>
    rw [hmd] at h
    dsimp only at h
    split at h
    · cases h
    · split at h
      · cases h
      · exact absurd h readFlag_ne_closes
  | flags negated sawFlag f =>
    rw [hmd] at h
    exact absurd h readFlag_ne_closes
  | _ =>
    -- the other modes are in the middle of something that no group opens or closes in
    rw [hmd] at h
    dsimp only at h
    (repeat' split at h) <;> first | cases h | exact absurd h map_stay_ne_closes

theorem act_outer_ne_nil {outer : List Local} {x : Action} (hx : ∀ l, x ≠ .closes l)
    (hot : outer ≠ []) (h : State.act outer x = .ok σ) : σ.outer ≠ [] := by
  cases x with
  | stay l =>
    obtain rfl := Except.ok.inj h
    exact hot
  | opens l flags =>
    obtain rfl := Except.ok.inj h
    exact cons_ne_nil _ _
  | closes l => exact absurd rfl (hx l)

theorem run_outer_ne_nil {u : Unicode} {σ σ' : State} {s : List Char} (hs : ')' ∉ s)
    (hot : σ.outer ≠ []) (h : σ.run u s = .ok σ') : σ'.outer ≠ [] := by
  induction s generalizing σ with
  | nil =>
    obtain rfl := Except.ok.inj h
    exact hot
  | cons c s ih =>
    obtain ⟨σ₁, hst, h⟩ := bind_eq_ok.mp h
    obtain ⟨x, hrd, hact⟩ := bind_eq_ok.mp hst
    have hx : ∀ l, x ≠ .closes l := by
      rintro l rfl
      exact hs (mem_cons.mpr (.inl (read_closes hrd).1.symm))
    exact ih (fun hmem => hs (mem_cons_of_mem c hmem)) (act_outer_ne_nil hx hot hact) h

theorem finish_eq_ok :
    σ.finish u = .ok r ↔ ∃ l, σ.inner.finish u = .ok l ∧ σ.outer = [] ∧ l.expr = r := by
  unfold State.finish
  simp only [bind_eq_ok]
  cases σ.outer <;> simp

/-! ## The anchored text -/

theorem finish_closing (h : (σ.under.run u closing >>= fun σ => σ.finish u) = .ok r) :
    ∃ e, σ.finish u = .ok e ∧ r = cats [.look .beginText, e, .look .endText] := by
  obtain ⟨σ', hrun, hfn⟩ := bind_eq_ok.mp h
  obtain ⟨_, -, hnil, -⟩ := finish_eq_ok.mp hfn
  obtain ⟨σ₁, hst, htl⟩ := bind_eq_ok.mp hrun
  have hot : σ₁.outer = [] := by
    by_contra hne
    exact run_outer_ne_nil (by decide) hne htl hnil
  obtain ⟨x, hrd, hact⟩ := bind_eq_ok.mp hst
  have han : ∀ outer : List Local, outer ++ [anchor] ≠ [] := by simp
  cases x with
  | stay l | opens l flags => exact absurd hot (act_outer_ne_nil (by simp) (han _) hact)
  | closes l =>
    obtain ⟨inner, outer⟩ := σ
    cases outer with
    | nil =>
      obtain rfl := Except.ok.inj hact
      obtain rfl := Except.ok.inj htl
      exact ⟨l.expr, finish_eq_ok.mpr ⟨l, (read_closes hrd).2, rfl, rfl⟩,
        (Except.ok.inj hfn).symm⟩
    | cons group outer =>
      obtain rfl := Except.ok.inj hact
      exact absurd hot (han outer)

/-- **Anchoring a text.** When the text between the anchors can be read, and the text by itself does
not close a group it did not open, the text by itself can be read, and what was read of the whole is
its expression between the anchors. -/
theorem parse_anchored {s : List Char} (h : parse u ("\\A(?:".toList ++ s ++ ")\\z".toList) = .ok r)
    (hcl : parse u s ≠ .error .unexpectedParen) :
    ∃ e, parse u s = .ok e ∧ r = cats [.look .beginText, e, .look .endText] := by
  have hrun : State.run u {} s ≠ .error .unexpectedParen := by
    intro her
    refine hcl ?_
    unfold parse
    rw [her]
    rfl
  have htx : "\\A(?:".toList ++ s ++ ")\\z".toList =
      '\\' :: 'A' :: '(' :: '?' :: ':' :: (s ++ closing) := rfl
  unfold parse at h
  rw [htx, run_opening, run_append, run_under hrun] at h
  cases hσ : State.run u {} s with
  | error e =>
    rw [hσ] at h
    cases h
  | ok σ =>
    rw [hσ] at h
    obtain ⟨e, hfn, hr⟩ := finish_closing h
    refine ⟨e, ?_, hr⟩
    unfold parse
    rw [hσ]
    exact hfn

end Trove.Lib.Regexp
