import Trove.Lib.Sql
import Trove.Lib.Strings

/-!
# Visibility of repositories in listings

A listing is bounded by a `Visibility`: everything, or what one of a list of filters selects. In
memory a name is checked with `Visibility.allows`; the SQL stores compile the visibility into a
condition over the name column with its arguments, which has the same value on every name
(`conditionValue_eq`).
-/

namespace Trove.Meta

open Lib List

structure ScopeFilter where
  all : Bool := false
  exact : String := ""
  pathPrefix : String := ""

/-- `ScopeFilter.Matches`, with the prefix compared as a slice of bytes. -/
def ScopeFilter.matches (f : ScopeFilter) (name : String) : Bool :=
  if f.all then true
  else if f.exact ≠ "" then name == f.exact
  else if f.pathPrefix ≠ "" then
    decide (Strings.len name > Strings.len f.pathPrefix) &&
      Strings.sliceTo name (Strings.len f.pathPrefix) == Strings.bytes f.pathPrefix
  else false

/-- What a caller may see. -/
structure Visibility where
  isUnrestricted : Bool
  filters : List ScopeFilter

def unrestricted : Visibility := ⟨true, []⟩

def visibleTo (filters : List ScopeFilter) : Visibility := ⟨false, filters⟩

/-- The name is visible. -/
def Visibility.allows (v : Visibility) (name : String) : Bool :=
  v.isUnrestricted || v.filters.any (·.matches name)

/-! ## The SQL condition -/

abbrev Placeholder := ℕ → String

/-- SQLite's. -/
def question : Placeholder := fun _ => "?"

/-- PostgreSQL's. -/
def dollar : Placeholder := fun n => "$" ++ n.repr

abbrev Clauses := List String × List Sql.Value

/-- One round of the loop over the filters; `none` when the filter matches everything and the
function returns at once. -/
def addFilter (column : String) (ph : Placeholder) (start : ℕ) (acc : Clauses) (f : ScopeFilter) :
    Option Clauses :=
  let (clauses, args) := acc
  let next := start + args.length
  if f.all then none
  else if f.exact ≠ "" then
    some (clauses ++ [column ++ " = " ++ ph next], args ++ [.text f.exact])
  else if f.pathPrefix ≠ "" then
    let n := f.pathPrefix.toList.length
    some (clauses ++ ["(substr(" ++ column ++ ", 1, " ++ ph next ++ ") = " ++ ph (next + 1) ++
        " AND length(" ++ column ++ ") > " ++ ph (next + 2) ++ ")"],
      args ++ [.int n, .text f.pathPrefix, .int n])
  else some (clauses, args)

def visibilityClause (column : String) (v : Visibility) (ph : Placeholder) (start : ℕ) :
    String × List Sql.Value :=
  if v.isUnrestricted then ("1 = 1", [])
  else
    match v.filters.foldlM (addFilter column ph start) ([], []) with
    | none => ("1 = 1", [])
    | some ([], _) => ("1 = 0", [])
    | some (clauses, args) => ("(" ++ " OR ".intercalate clauses ++ ")", args)

theorem marks_question : Sql.Marks id question where
  word := by
    intro k
    simp [question, Sql.isWordChar]
  ne_nil := by
    intro k
    simp [question]
  param := by
    intro k ts
    have htx : (question k).toList = ['?'] := by simp [question]
    rw [htx, Sql.classify]
    rfl

theorem marks_dollar (next : ℕ) : Sql.Marks (fun _ => next) dollar where
  word := by
    intro k c hc
    simp only [dollar, String.toList_append, Nat.toList_repr] at hc
    rcases mem_append.mp hc with hc | hc
    · rw [mem_singleton.mp hc]
      rfl
    · have := Nat.isDigit_of_mem_toDigits (by decide) (by decide) hc
      simp [Sql.isWordChar, Sql.isNameChar, Char.isAlphanum, this]
  ne_nil := by
    intro k
    simp [dollar]
  param := by
    intro k ts
    have htx : (dollar k).toList = '$' :: Nat.toDigits 10 k := by
      simp [dollar]
    rw [htx, Sql.classify, Nat.ofDigitChars_toDigits (by decide) (by decide)]

/-! ## What one filter compiles to -/

def ScopeFilter.clauses (column : String) (ph : Placeholder) (k : ℕ) (f : ScopeFilter) :
    List String :=
  if f.exact ≠ "" then [column ++ " = " ++ ph k]
  else if f.pathPrefix ≠ "" then
    ["(substr(" ++ column ++ ", 1, " ++ ph k ++ ") = " ++ ph (k + 1) ++
      " AND length(" ++ column ++ ") > " ++ ph (k + 2) ++ ")"]
  else []

def ScopeFilter.args (f : ScopeFilter) : List Sql.Value :=
  if f.exact ≠ "" then [.text f.exact]
  else if f.pathPrefix ≠ "" then
    [.int f.pathPrefix.toList.length, .text f.pathPrefix, .int f.pathPrefix.toList.length]
  else []

variable {column : String} {ph : Placeholder}

theorem addFilter_eq {start : ℕ} {f : ScopeFilter} (h : f.all = false) (clauses : List String)
    (args : List Sql.Value) :
    addFilter column ph start (clauses, args) f =
      some (clauses ++ f.clauses column ph (start + args.length), args ++ f.args) := by
  simp only [addFilter, ScopeFilter.clauses, ScopeFilter.args, h, Bool.false_eq_true, if_false]
  split_ifs
  · rfl
  · rfl
  · simp

section Clause

variable {counter : ℕ → ℕ} {ph : Placeholder} {column : String} {row : String → Option Sql.Value}
  {name : String}

theorem denotes_exact (hph : Sql.Marks counter ph) (hcl : Sql.isColumn column)
    (hrow : row column = some (.text name)) (k : ℕ) (exact : String) :
    Sql.Denotes Sql.ReadsAnd counter row k (column ++ " = " ++ ph k) [.text exact]
      (name == exact) := by
  refine ⟨[.name column, .symbol '=', .param k], .eq (.column column) (.param k), ?_, ?_, ?_⟩
  · have hmr := ((Sql.lexes_mark hph k).space.symbol '=').space
    simpa using (Sql.lexes_column hcl k).append hmr
  · exact ((Sql.readsOperand_of_isColumn hcl).eq (Sql.readsOperand_param k)).conjunction
  · rintro before after rfl
    have harg := Sql.getElem?_args before [.text exact] after (i := 0) (by simp)
    simp only [Nat.add_zero] at harg
    simp only [Sql.Expr.eval, hrow, harg]
    rfl

theorem denotes_prefix (hph : Sql.Marks counter ph) (hcl : Sql.isColumn column)
    (hrow : row column = some (.text name)) (k : ℕ) (p : String) :
    Sql.Denotes Sql.ReadsAnd counter row k
      ("(substr(" ++ column ++ ", 1, " ++ ph k ++ ") = " ++ ph (k + 1) ++
        " AND length(" ++ column ++ ") > " ++ ph (k + 2) ++ ")")
      [.int p.toList.length, .text p, .int p.toList.length]
      (decide (String.ofList (name.toList.take p.toList.length) = p) &&
        decide (name.toList.length > p.toList.length)) := by
  have hcol := Sql.readsOperand_of_isColumn hcl
  have hun := (hcol.disjunction.substr (Sql.readsOperand_number 1).disjunction
    (Sql.readsOperand_param k).disjunction).eq (Sql.readsOperand_param (k + 1))
  have hln := hcol.disjunction.length.gt (Sql.readsOperand_param (k + 2))
  have hrd := (hun.and hln.conjunction).disjunction.paren.comparison.conjunction
  refine ⟨_, _, ?_, hrd, ?_⟩
  · have hend := (Sql.lexes_mark hph (k + 2)).append (Sql.Lexes.nil.symbol ')')
    have hlg := (Sql.lexes_word "length".toList (.name "length") (k + 2)).append
      (((Sql.lexes_column hcl (k + 2)).append
        ((hend.space.symbol '>').space.symbol ')')).symbol '(')
    have hand := (Sql.lexes_mark hph (k + 1)).append
      ((Sql.lexes_word "AND".toList .andWord (k + 2)).append hlg.space).space
    have hcn := (Sql.lexes_mark hph k).append ((hand.space.symbol '=').space.symbol ')')
    have hone := (Sql.lexes_word "1".toList (.number 1) k).append (hcn.space.symbol ',')
    have hsb := (Sql.lexes_word "substr".toList (.name "substr") k).append
      (((Sql.lexes_column hcl k).append (hone.space.symbol ',')).symbol '(')
    simpa using hsb.symbol '('
  · rintro before after rfl
    have harg (i : ℕ) (hi : i < 3) := Sql.getElem?_args before
      [.int p.toList.length, .text p, .int p.toList.length] after (i := i) hi
    have h0 := harg 0 (by decide)
    have h1 := harg 1 (by decide)
    have h2 := harg 2 (by decide)
    simp only [Nat.add_zero] at h0
    simp only [Sql.Expr.eval, hrow, h0, h1, h2]
    simp [Sql.Value.substr, Sql.Value.eq, Sql.Value.gt, Sql.Value.and, Sql.Value.length]

theorem codePoints_eq_bytes (name p : String) :
    (decide (String.ofList (name.toList.take p.toList.length) = p) &&
      decide (name.toList.length > p.toList.length)) =
    (decide (Strings.len name > Strings.len p) &&
      Strings.sliceTo name (Strings.len p) == Strings.bytes p) := by
  rw [Bool.eq_iff_iff]
  simp only [Bool.and_eq_true, decide_eq_true_eq, beq_iff_eq, gt_iff_lt]
  rw [Strings.take_eq_iff_sliceTo_eq, and_comm]
  refine and_congr_left fun hsl => ?_
  exact (Strings.len_lt_iff_of_prefix
    (Strings.hasPrefix_iff.mp (Strings.sliceTo_eq_iff.mp hsl))).symm

variable {f : ScopeFilter} {filters : List ScopeFilter}

theorem clauses_cases (hph : Sql.Marks counter ph) (hcl : Sql.isColumn column)
    (hrow : row column = some (.text name)) (k : ℕ) (hall : f.all = false) :
    (f.clauses column ph k = [] ∧ f.args = [] ∧ f.matches name = false) ∨
      ∃ text, f.clauses column ph k = [text] ∧
        Sql.Denotes Sql.ReadsAnd counter row k text f.args (f.matches name) := by
  simp only [ScopeFilter.clauses, ScopeFilter.args, ScopeFilter.matches, hall, Bool.false_eq_true,
    if_false]
  by_cases hec : f.exact ≠ ""
  · simp only [if_pos hec]
    exact .inr ⟨_, rfl, denotes_exact hph hcl hrow k f.exact⟩
  · by_cases hpr : f.pathPrefix ≠ ""
    · simp only [if_neg hec, if_pos hpr, ← codePoints_eq_bytes]
      exact .inr ⟨_, rfl, denotes_prefix hph hcl hrow k f.pathPrefix⟩
    · simp only [if_neg hec, if_neg hpr]
      exact .inl ⟨trivial, trivial, trivial⟩

/-! ## The whole condition -/

def clausesFrom (column : String) (ph : Placeholder) : ℕ → List ScopeFilter → List String
  | _, [] => []
  | k, f :: filters =>
    f.clauses column ph k ++ clausesFrom column ph (k + f.args.length) filters

theorem foldlM_addFilter (h : ∀ f ∈ filters, f.all = false) (start : ℕ) (clauses : List String)
    (args : List Sql.Value) :
    filters.foldlM (addFilter column ph start) (clauses, args) =
      some (clauses ++ clausesFrom column ph (start + args.length) filters,
        args ++ filters.flatMap ScopeFilter.args) := by
  induction filters generalizing clauses args with
  | nil => simp [clausesFrom]
  | cons f filters ih =>
    rw [forall_mem_cons] at h
    rw [foldlM_cons, addFilter_eq h.1, Option.bind_eq_bind, Option.bind_some, ih h.2,
      clausesFrom, flatMap_cons, length_append]
    simp only [append_assoc, Nat.add_assoc]

theorem foldlM_addFilter_all (hf : f ∈ filters) (hall : f.all) (start : ℕ) (acc : Clauses) :
    filters.foldlM (addFilter column ph start) acc = none := by
  induction filters generalizing acc with
  | nil => cases hf
  | cons g filters ih =>
    rw [foldlM_cons]
    rcases mem_cons.mp hf with rfl | hf
    · simp [addFilter, hall]
    · cases addFilter column ph start acc g with
      | none => rfl
      | some acc => exact ih hf acc

theorem clausesFrom_cases (hph : Sql.Marks counter ph) (hcl : Sql.isColumn column)
    (hrow : row column = some (.text name)) (hall : ∀ f ∈ filters, f.all = false) (k : ℕ) :
    (clausesFrom column ph k filters = [] ∧ filters.flatMap ScopeFilter.args = [] ∧
      filters.any (·.matches name) = false) ∨
    clausesFrom column ph k filters ≠ [] ∧
      Sql.Denotes Sql.ReadsOr counter row k (" OR ".intercalate (clausesFrom column ph k filters))
        (filters.flatMap ScopeFilter.args) (filters.any (·.matches name)) := by
  induction filters generalizing k with
  | nil => exact .inl ⟨rfl, rfl, rfl⟩
  | cons f filters ih =>
    rw [forall_mem_cons] at hall
    rw [clausesFrom, flatMap_cons, any_cons]
    rcases clauses_cases hph hcl hrow k hall.1 with
      ⟨hcs, har, hf⟩ | ⟨text, htx, hdn⟩
    · rw [hcs, har, hf, nil_append, nil_append, Bool.false_or]
      exact ih hall.2 k
    · refine .inr ⟨by simp [htx], ?_⟩
      rw [htx, singleton_append]
      rcases ih hall.2 (k + f.args.length) with ⟨hcs, har, hrs⟩ | ⟨hne, hrs⟩
      · rw [hcs, har, hrs, append_nil, Bool.or_false, String.intercalate_singleton]
        exact hdn.disjunction
      · rw [String.intercalate_cons_of_ne_nil hne]
        exact hdn.or hrs

end Clause

theorem evalText_constant (row : String → Option Sql.Value) (params : List Sql.Value) (next : ℕ) :
    Sql.evalText row params next "1 = 1" = some (.bool true) ∧
      Sql.evalText row params next "1 = 0" = some (.bool false) := by
  have hrd (n : ℕ) := ((Sql.readsOperand_number 1).eq
    (Sql.readsOperand_number n)).conjunction.disjunction.parse_eq
  have hone : Sql.lexemes next "1 = 1" = [.number 1] ++ .symbol '=' :: [.number 1] := rfl
  have hzr : Sql.lexemes next "1 = 0" = [.number 1] ++ .symbol '=' :: [.number 0] := rfl
  exact ⟨rfl, rfl⟩

/-- The value of the condition on a row, in a query that binds other arguments before and after its
own. `next` is the turn of its first bare mark. -/
def conditionValue (column : String) (v : Visibility) (ph : Placeholder)
    (row : String → Option Sql.Value) (before after : List Sql.Value) (next : ℕ) :
    Option Sql.Value :=
  let clause := visibilityClause column v ph (before.length + 1)
  Sql.evalText row (before ++ clause.2 ++ after) next clause.1

/-- **The SQL condition.** With its arguments bound from position `start` on, among any others, the
condition over a row whose column holds `name` is true exactly when the visibility allows `name`. -/
theorem conditionValue_eq {counter : ℕ → ℕ} (hph : Sql.Marks counter ph) (hcl : Sql.isColumn column)
    {row : String → Option Sql.Value} {name : String} (hrow : row column = some (.text name))
    (v : Visibility) (before after : List Sql.Value) :
    conditionValue column v ph row before after (counter (before.length + 1)) =
      some (.bool (v.allows name)) := by
  rw [conditionValue, visibilityClause]
  cases hun : v.isUnrestricted with
  | true =>
    simp only [if_true, Visibility.allows, hun, Bool.true_or]
    exact (evalText_constant ..).1
  | false =>
    simp only [Bool.false_eq_true, if_false, Visibility.allows, hun, Bool.false_or]
    by_cases hall : ∃ f ∈ v.filters, f.all
    · obtain ⟨f, hf, hfl⟩ := hall
      have hany : v.filters.any (·.matches name) = true :=
        any_eq_true.mpr ⟨f, hf, by simp [ScopeFilter.matches, hfl]⟩
      rw [foldlM_addFilter_all hf hfl, hany]
      exact (evalText_constant ..).1
    · have hnn : ∀ f ∈ v.filters, f.all = false := by simpa using hall
      rw [foldlM_addFilter hnn]
      simp only [nil_append, length_nil, Nat.add_zero]
      rcases clausesFrom_cases hph hcl hrow hnn (before.length + 1) with
        ⟨hcs, har, hany⟩ | ⟨hne, hdn⟩
      · rw [hcs, hany]
        exact (evalText_constant ..).2
      · obtain ⟨clause, clauses, hcs⟩ := exists_cons_of_ne_nil hne
        rw [hcs] at hdn ⊢
        exact hdn.evalText_paren rfl

end Trove.Meta
