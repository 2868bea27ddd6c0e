import Mathlib.Data.String.Basic

/-!
# SQL conditions

The meaning of the text of a condition: comparisons of columns, parameters, numbers and the two
functions `length` and `substr`, combined with `AND`, `OR` and parentheses. The text is cut into
tokens, the parameter marks are numbered, and a recursive-descent parser with fuel reads the tokens.
Strings are measured in code points. The `Reads` rules state what each construct parses to, from
what its parts parse to.
-/

namespace Trove.Lib.Sql

open List

/-- The values of a condition. -/
inductive Value
  | int (n : ℤ)
  | text (s : String)
  | bool (b : Bool)

/-! ## Tokens -/

inductive Token
  | word (text : List Char)
  | symbol (c : Char)

def isNameChar (c : Char) : Bool := c.isAlphanum || c == '_'

def isWordChar (c : Char) : Bool := isNameChar c || c == '$' || c == '?'

def flush : List Char → List Token
  | [] => []
  | w => [.word w]

/-- The tokens of the characters, after the characters of a word not finished yet. -/
def lexFrom (pending : List Char) : List Char → List Token
  | [] => flush pending
  | c :: cs =>
    if isWordChar c then lexFrom (pending ++ [c]) cs
    else if c = ' ' then flush pending ++ lexFrom [] cs
    else flush pending ++ .symbol c :: lexFrom [] cs

/-- A token with its role. -/
inductive Lexeme
  | name (n : String)
  | number (n : ℕ)
  | param (n : ℕ)
  | andWord
  | orWord
  | symbol (c : Char)
  deriving DecidableEq

/-- The role of a word. -/
def wordLexeme (w : List Char) : Lexeme :=
  if w = ['A', 'N', 'D'] then .andWord
  else if w = ['O', 'R'] then .orWord
  else if w.all Char.isDigit then .number (Nat.ofDigitChars 10 w 0)
  else .name (String.ofList w)

/-- The roles of the tokens. A `?` takes the next parameter in turn, a `$n` the parameter `n`. -/
def classify (next : ℕ) : List Token → List Lexeme
  | [] => []
  | .symbol c :: ts => .symbol c :: classify next ts
  | .word ['?'] :: ts => .param next :: classify (next + 1) ts
  | .word ('$' :: ds) :: ts => .param (Nat.ofDigitChars 10 ds 0) :: classify next ts
  | .word w :: ts => wordLexeme w :: classify next ts

def lexemes (next : ℕ) (text : String) : List Lexeme := classify next (lexFrom [] text.toList)

/-! ## Expressions -/

/-- The conditions the store writes. -/
inductive Expr
  | column (name : String)
  | number (n : ℕ)
  | param (n : ℕ)
  | length (e : Expr)
  | substr (e start count : Expr)
  | eq (a b : Expr)
  | gt (a b : Expr)
  | and (a b : Expr)
  | or (a b : Expr)

/-- In code points. -/
def Value.length : Value → Option Value
  | .text s => some (.int s.toList.length)
  | _ => none

/-- `substr(s, 1, n)`, in code points. Other starts do not occur here and have no value. -/
def Value.substr : Value → Value → Value → Option Value
  | .text s, .int 1, .int n => some (.text (String.ofList (s.toList.take n.toNat)))
  | _, _, _ => none

def Value.eq : Value → Value → Option Value
  | .int m, .int n => some (.bool (m = n))
  | .text s, .text t => some (.bool (s = t))
  | _, _ => none

def Value.gt : Value → Value → Option Value
  | .int m, .int n => some (.bool (m > n))
  | _, _ => none

def Value.and : Value → Value → Option Value
  | .bool a, .bool b => some (.bool (a && b))
  | _, _ => none

def Value.or : Value → Value → Option Value
  | .bool a, .bool b => some (.bool (a || b))
  | _, _ => none

section Eval

variable (column : String → Option Value) (params : List Value)

def Expr.eval : Expr → Option Value
  | .column name => column name
  | .number n => some (.int n)
  | .param 0 => none
  | .param (n + 1) => params[n]?
  | .length e => do Value.length (← e.eval)
  | .substr e start count => do Value.substr (← e.eval) (← start.eval) (← count.eval)
  | .eq a b => do Value.eq (← a.eval) (← b.eval)
  | .gt a b => do Value.gt (← a.eval) (← b.eval)
  | .and a b => do Value.and (← a.eval) (← b.eval)
  | .or a b => do Value.or (← a.eval) (← b.eval)

end Eval

/-! ## The parser -/

mutual

/-- Operands joined by `OR`. -/
def parseOr : ℕ → List Lexeme → Option (Expr × List Lexeme)
  | 0, _ => none
  | fuel + 1, ls => do
    let (a, rest) ← parseAnd fuel ls
    match rest with
    | .orWord :: rest => do
      let (b, rest) ← parseOr fuel rest
      some (.or a b, rest)
    | rest => some (a, rest)

def parseAnd : ℕ → List Lexeme → Option (Expr × List Lexeme)
  | 0, _ => none
  | fuel + 1, ls => do
    let (a, rest) ← parseComparison fuel ls
    match rest with
    | .andWord :: rest => do
      let (b, rest) ← parseAnd fuel rest
      some (.and a b, rest)
    | rest => some (a, rest)

def parseComparison : ℕ → List Lexeme → Option (Expr × List Lexeme)
  | 0, _ => none
  | fuel + 1, ls => do
    let (a, rest) ← parseOperand fuel ls
    match rest with
    | .symbol '=' :: rest => do
      let (b, rest) ← parseOperand fuel rest
      some (.eq a b, rest)
    | .symbol '>' :: rest => do
      let (b, rest) ← parseOperand fuel rest
      some (.gt a b, rest)
    | rest => some (a, rest)

def parseOperand : ℕ → List Lexeme → Option (Expr × List Lexeme)
  | 0, _ => none
  | _ + 1, .number n :: rest => some (.number n, rest)
  | _ + 1, .param n :: rest => some (.param n, rest)
  | fuel + 1, .symbol '(' :: rest => do
    let (e, rest) ← parseOr fuel rest
    match rest with
    | .symbol ')' :: rest => some (e, rest)
    | _ => none
  | fuel + 1, .name "length" :: .symbol '(' :: rest => do
    let (e, rest) ← parseOr fuel rest
    match rest with
    | .symbol ')' :: rest => some (.length e, rest)
    | _ => none
  | fuel + 1, .name "substr" :: .symbol '(' :: rest => do
    let (e, rest) ← parseOr fuel rest
    match rest with
    | .symbol ',' :: rest => do
      let (start, rest) ← parseOr fuel rest
      match rest with
      | .symbol ',' :: rest => do
        let (count, rest) ← parseOr fuel rest
        match rest with
        | .symbol ')' :: rest => some (.substr e start count, rest)
        | _ => none
      | _ => none
    | _ => none
  | _ + 1, .name n :: rest => some (.column n, rest)
  | _ + 1, _ => none

end

def parse (ls : List Lexeme) : Option Expr :=
  match parseOr (4 * ls.length) ls with
  | some (e, []) => some e
  | _ => none

def evalText (column : String → Option Value) (params : List Value) (next : ℕ) (text : String) :
    Option Value := do
  (← parse (lexemes next text)).eval column params

/-! ## Reading what was written -/

/-- How strongly the first lexeme binds to what stands before it. -/
def level : List Lexeme → ℕ
  | .symbol '=' :: _ => 3
  | .symbol '>' :: _ => 3
  | .andWord :: _ => 2
  | .orWord :: _ => 1
  | _ => 0

def ReadsOperand (ls : List Lexeme) (e : Expr) : Prop :=
  ∀ fuel rest, 4 * ls.length ≤ fuel + 3 → parseOperand fuel (ls ++ rest) = some (e, rest)

/-- The lexemes read as a comparison, when nothing that follows belongs to it. -/
def ReadsComparison (ls : List Lexeme) (e : Expr) : Prop :=
  ∀ fuel rest, 4 * ls.length ≤ fuel + 2 → level rest < 3 →
    parseComparison fuel (ls ++ rest) = some (e, rest)

def ReadsAnd (ls : List Lexeme) (e : Expr) : Prop :=
  ∀ fuel rest, 4 * ls.length ≤ fuel + 1 → level rest < 2 →
    parseAnd fuel (ls ++ rest) = some (e, rest)

def ReadsOr (ls : List Lexeme) (e : Expr) : Prop :=
  ∀ fuel rest, 4 * ls.length ≤ fuel → level rest < 1 →
    parseOr fuel (ls ++ rest) = some (e, rest)

variable {ls ls' ls'' : List Lexeme} {a b c : Expr}

theorem ReadsOperand.length_pos (h : ReadsOperand ls a) : 0 < ls.length := by
  by_contra hlen
  have := h 0 [] (by omega)
  cases this

theorem ReadsComparison.length_pos (h : ReadsComparison ls a) : 0 < ls.length := by
  by_contra hlen
  have := h 0 [] (by omega) (by decide)
  cases this

theorem ReadsAnd.length_pos (h : ReadsAnd ls a) : 0 < ls.length := by
  by_contra hlen
  have := h 0 [] (by omega) (by decide)
  cases this

theorem readsOperand_number (n : ℕ) : ReadsOperand [.number n] (.number n) := by
  intro fuel rest hfl
  obtain ⟨fuel, rfl⟩ : ∃ f, fuel = f + 1 := ⟨fuel - 1, by simp at hfl; omega⟩
  rw [singleton_append, parseOperand]

theorem readsOperand_param (n : ℕ) : ReadsOperand [.param n] (.param n) := by
  intro fuel rest hfl
  obtain ⟨fuel, rfl⟩ : ∃ f, fuel = f + 1 := ⟨fuel - 1, by simp at hfl; omega⟩
  rw [singleton_append, parseOperand]

theorem readsOperand_column {n : String} (hln : n ≠ "length") (hsb : n ≠ "substr") :
    ReadsOperand [.name n] (.column n) := by
  intro fuel rest hfl
  obtain ⟨fuel, rfl⟩ : ∃ f, fuel = f + 1 := ⟨fuel - 1, by simp at hfl; omega⟩
  rw [singleton_append, parseOperand]
  · exact fun _ _ h => hln h
  · exact fun _ _ h => hsb h

theorem ReadsOr.paren (h : ReadsOr ls a) :
    ReadsOperand (.symbol '(' :: (ls ++ [.symbol ')'])) a := by
  intro fuel rest hfl
  simp only [length_cons, length_append, length_nil] at hfl
  obtain ⟨fuel, rfl⟩ : ∃ f, fuel = f + 1 := ⟨fuel - 1, by omega⟩
  rw [cons_append, append_assoc, parseOperand, h fuel _ (by omega) (by simp [level])]
  rfl

theorem ReadsOr.length (h : ReadsOr ls a) :
    ReadsOperand (.name "length" :: .symbol '(' :: (ls ++ [.symbol ')'])) (.length a) := by
  intro fuel rest hfl
  simp only [length_cons, length_append, length_nil] at hfl
  obtain ⟨fuel, rfl⟩ : ∃ f, fuel = f + 1 := ⟨fuel - 1, by omega⟩
  rw [cons_append, cons_append, append_assoc, parseOperand,
    h fuel _ (by omega) (by simp [level])]
  rfl

theorem ReadsOr.substr (ha : ReadsOr ls a) (hb : ReadsOr ls' b) (hc : ReadsOr ls'' c) :
    ReadsOperand (.name "substr" :: .symbol '(' ::
      (ls ++ .symbol ',' :: (ls' ++ .symbol ',' :: (ls'' ++ [.symbol ')'])))) (.substr a b c) := by
  intro fuel rest hfl
  simp only [length_cons, length_append, length_nil] at hfl
  obtain ⟨fuel, rfl⟩ : ∃ f, fuel = f + 1 := ⟨fuel - 1, by omega⟩
  simp only [cons_append, append_assoc, nil_append]
  rw [parseOperand, ha fuel _ (by omega) (by simp [level])]
  simp only [Option.bind_eq_bind, Option.bind_some]
  rw [hb fuel _ (by omega) (by simp [level])]
  simp only [Option.bind_some]
  rw [hc fuel _ (by omega) (by simp [level])]
  rfl

theorem ReadsOperand.comparison (h : ReadsOperand ls a) : ReadsComparison ls a := by
  intro fuel rest hfl hlv
  have hpos := h.length_pos
  obtain ⟨fuel, rfl⟩ : ∃ f, fuel = f + 1 := ⟨fuel - 1, by omega⟩
  rw [parseComparison, h fuel rest (by omega)]
  simp only [Option.bind_eq_bind, Option.bind_some]
  split
  · simp [level] at hlv
  · simp [level] at hlv
  · rfl

theorem ReadsOperand.eq (ha : ReadsOperand ls a) (hb : ReadsOperand ls' b) :
    ReadsComparison (ls ++ .symbol '=' :: ls') (.eq a b) := by
  intro fuel rest hfl _
  simp only [length_cons, length_append] at hfl
  obtain ⟨fuel, rfl⟩ : ∃ f, fuel = f + 1 := ⟨fuel - 1, by omega⟩
  rw [append_assoc, cons_append, parseComparison, ha fuel _ (by omega)]
  simp only [Option.bind_eq_bind, Option.bind_some]
  rw [hb fuel rest (by omega)]
  rfl

theorem ReadsOperand.gt (ha : ReadsOperand ls a) (hb : ReadsOperand ls' b) :
    ReadsComparison (ls ++ .symbol '>' :: ls') (.gt a b) := by
  intro fuel rest hfl _
  simp only [length_cons, length_append] at hfl
  obtain ⟨fuel, rfl⟩ : ∃ f, fuel = f + 1 := ⟨fuel - 1, by omega⟩
  rw [append_assoc, cons_append, parseComparison, ha fuel _ (by omega)]
  simp only [Option.bind_eq_bind, Option.bind_some]
  rw [hb fuel rest (by omega)]
  rfl

theorem ReadsComparison.conjunction (h : ReadsComparison ls a) : ReadsAnd ls a := by
  intro fuel rest hfl hlv
  have hpos := h.length_pos
  obtain ⟨fuel, rfl⟩ : ∃ f, fuel = f + 1 := ⟨fuel - 1, by omega⟩
  rw [parseAnd, h fuel rest (by omega) (by omega)]
  simp only [Option.bind_eq_bind, Option.bind_some]
  split
  · simp [level] at hlv
  · rfl

theorem ReadsComparison.and (ha : ReadsComparison ls a) (hb : ReadsAnd ls' b) :
    ReadsAnd (ls ++ .andWord :: ls') (.and a b) := by
  intro fuel rest hfl hlv
  simp only [length_cons, length_append] at hfl
  obtain ⟨fuel, rfl⟩ : ∃ f, fuel = f + 1 := ⟨fuel - 1, by omega⟩
  rw [append_assoc, cons_append, parseAnd, ha fuel _ (by omega) (by simp [level])]
  simp only [Option.bind_eq_bind, Option.bind_some]
  rw [hb fuel rest (by omega) hlv]
  rfl

theorem ReadsAnd.disjunction (h : ReadsAnd ls a) : ReadsOr ls a := by
  intro fuel rest hfl hlv
  have hpos := h.length_pos
  obtain ⟨fuel, rfl⟩ : ∃ f, fuel = f + 1 := ⟨fuel - 1, by omega⟩
  rw [parseOr, h fuel rest (by omega) (by omega)]
  simp only [Option.bind_eq_bind, Option.bind_some]
  split
  · simp [level] at hlv
  · rfl

theorem ReadsAnd.or (ha : ReadsAnd ls a) (hb : ReadsOr ls' b) :
    ReadsOr (ls ++ .orWord :: ls') (.or a b) := by
  intro fuel rest hfl hlv
  simp only [length_cons, length_append] at hfl
  obtain ⟨fuel, rfl⟩ : ∃ f, fuel = f + 1 := ⟨fuel - 1, by omega⟩
  rw [append_assoc, cons_append, parseOr, ha fuel _ (by omega) (by simp [level])]
  simp only [Option.bind_eq_bind, Option.bind_some]
  rw [hb fuel rest (by omega) hlv]
  rfl

theorem ReadsOperand.disjunction (h : ReadsOperand ls a) : ReadsOr ls a :=
  h.comparison.conjunction.disjunction

theorem ReadsOr.parse_eq (h : ReadsOr ls a) : parse ls = some a := by
  have := h (4 * ls.length) [] le_rfl (by decide)
  rw [append_nil] at this
  rw [parse, this]

/-! ## Lexing -/

theorem lexFrom_word {w : List Char} (hw : ∀ c ∈ w, isWordChar c) (pending cs : List Char) :
    lexFrom pending (w ++ cs) = lexFrom (pending ++ w) cs := by
  induction w generalizing pending with
  | nil => simp
  | cons c w ih =>
    rw [forall_mem_cons] at hw
    rw [cons_append, lexFrom, if_pos hw.1, ih hw.2, append_assoc, singleton_append]

theorem lexFrom_flush (pending : List Char) {c : Char} (hc : isWordChar c = false)
    (cs : List Char) : lexFrom pending (c :: cs) = flush pending ++ lexFrom [] (c :: cs) := by
  simp only [lexFrom, hc, Bool.false_eq_true, if_false]
  split_ifs <;> rfl

theorem lexFrom_word_cons {w : List Char} (hw : ∀ c ∈ w, isWordChar c) (hne : w ≠ []) {c : Char}
    (hc : isWordChar c = false) (cs : List Char) :
    lexFrom [] (w ++ c :: cs) = .word w :: lexFrom [] (c :: cs) := by
  rw [lexFrom_word hw, nil_append, lexFrom_flush w hc]
  cases w with
  | nil => exact absurd rfl hne
  | cons _ _ => rfl

theorem lexFrom_space (cs : List Char) : lexFrom [] (' ' :: cs) = lexFrom [] cs := by
  rfl

theorem lexFrom_symbol {c : Char} (hc : isWordChar c = false) (hsp : c ≠ ' ')
    (cs : List Char) : lexFrom [] (c :: cs) = .symbol c :: lexFrom [] cs := by
  rw [lexFrom, if_neg (by simp [hc]), if_neg hsp]
  rfl

/-- A text of marks and words has the lexemes `ls` when something else follows it. `counter k` is
the turn of the next bare mark when `k` is the next parameter. -/
def Lexes (counter : ℕ → ℕ) (text : List Char) (i j : ℕ) (ls : List Lexeme) : Prop :=
  ∀ c cs, isWordChar c = false →
    classify (counter i) (lexFrom [] (text ++ c :: cs)) =
      ls ++ classify (counter j) (lexFrom [] (c :: cs))

/-- The mark of parameter `k` is read as parameter `k` when it is its turn. -/
structure Marks (counter : ℕ → ℕ) (ph : ℕ → String) : Prop where
  word : ∀ k, ∀ c ∈ (ph k).toList, isWordChar c
  ne_nil : ∀ k, (ph k).toList ≠ []
  param : ∀ k ts, classify (counter k) (.word (ph k).toList :: ts) =
    .param k :: classify (counter (k + 1)) ts

/-- The name of a column: a word that starts with no digit and is neither a keyword nor a
function. -/
def isColumn (n : String) : Bool :=
  n.toList.all isNameChar && n.toList.head?.any (!·.isDigit) &&
    ["AND", "OR", "length", "substr"].all (· ≠ n)

section Lexes

variable {counter : ℕ → ℕ} {ph : ℕ → String} {text text' : List Char} {i j k : ℕ}

theorem Lexes.nil : Lexes counter [] i i [] := fun _ _ _ => rfl

theorem Lexes.space (h : Lexes counter text i j ls) : Lexes counter (' ' :: text) i j ls := by
  intro c cs hc
  rw [cons_append, lexFrom_space, h c cs hc]

theorem Lexes.symbol (h : Lexes counter text i j ls) (d : Char)
    (hd : isWordChar d = false := by decide) (hsp : d ≠ ' ' := by decide) :
    Lexes counter (d :: text) i j (.symbol d :: ls) := by
  intro c cs hc
  rw [cons_append, lexFrom_symbol hd hsp, classify, h c cs hc, cons_append]

theorem Lexes.append (h : Lexes counter text i j ls) {d : Char}
    (h' : Lexes counter (d :: text') j k ls') (hd : isWordChar d = false := by decide) :
    Lexes counter (text ++ d :: text') i k (ls ++ ls') := by
  intro c cs hc
  rw [append_assoc, cons_append, h d _ hd, ← cons_append, h' c cs hc,
    append_assoc]

theorem lexes_mark (h : Marks counter ph) (k : ℕ) :
    Lexes counter (ph k).toList k (k + 1) [.param k] := by
  intro c cs hc
  rw [lexFrom_word_cons (h.word k) (h.ne_nil k) hc, h.param, singleton_append]

theorem lexes_word (w : List Char) (l : Lexeme) (i : ℕ) (hl : wordLexeme w = l := by decide)
    (hw : w.all isNameChar := by decide) (hne : w ≠ [] := by decide) :
    Lexes counter w i i [l] := by
  rw [all_eq_true] at hw
  intro c cs hc
  have hwr : ∀ c ∈ w, isWordChar c := fun c hmem => by simp [isWordChar, hw c hmem]
  rw [lexFrom_word_cons hwr hne hc, singleton_append, classify, hl]
  · rintro rfl
    exact absurd (hw '?' (by simp)) (by decide)
  · rintro ds rfl
    exact absurd (hw '$' (by simp)) (by decide)

variable {n : String}

theorem isColumn_ne (h : isColumn n) : n ≠ "AND" ∧ n ≠ "OR" ∧ n ≠ "length" ∧ n ≠ "substr" := by
  rw [isColumn, Bool.and_eq_true] at h
  simpa [ne_comm] using h.2

theorem wordLexeme_column (h : isColumn n) : wordLexeme n.toList = .name n := by
  obtain ⟨hand, hor, -, -⟩ := isColumn_ne h
  have hdg : n.toList.all Char.isDigit = false := by
    simp only [isColumn, Bool.and_eq_true] at h
    cases hn : n.toList with
    | nil => simp [hn] at h
    | cons c cs =>
      have hc : c.isDigit = false := by simpa [hn] using h.1.2
      rw [all_cons, hc, Bool.false_and]
  rw [wordLexeme, if_neg, if_neg, if_neg (by simp [hdg]), String.ofList_toList]
  · exact fun heq => hor (String.toList_inj.mp heq)
  · exact fun heq => hand (String.toList_inj.mp heq)

theorem lexes_column (h : isColumn n) (i : ℕ) : Lexes counter n.toList i i [.name n] := by
  have hl := wordLexeme_column h
  simp only [isColumn, Bool.and_eq_true] at h
  refine lexes_word n.toList (.name n) i hl h.1.1 ?_
  rintro hnil
  simp [hnil] at h

theorem Lexes.lexemes_paren (h : Lexes counter text i j ls) :
    lexemes (counter i) (String.ofList ('(' :: (text ++ [')']))) =
      .symbol '(' :: (ls ++ [.symbol ')']) := by
  rw [lexemes, String.toList_ofList, lexFrom_symbol (by decide) (by decide), classify,
    h ')' [] (by decide)]
  rfl

theorem readsOperand_of_isColumn (h : isColumn n) : ReadsOperand [.name n] (.column n) := by
  obtain ⟨-, -, hln, hsb⟩ := isColumn_ne h
  exact readsOperand_column hln hsb

end Lexes

/-! ## Written conditions -/

theorem getElem?_args (before args after : List Value) {i : ℕ} (h : i < args.length) :
    (before ++ args ++ after)[before.length + i]? = args[i]? := by
  rw [append_assoc, List.getElem?_append_right (by omega), Nat.add_sub_cancel_left,
    List.getElem?_append_left h]

/-- The text, with its arguments from parameter `k` on, is read by `reads` and has the truth value
`b` wherever the arguments stand among the others. -/
def Denotes (reads : List Lexeme → Expr → Prop) (counter : ℕ → ℕ) (column : String → Option Value)
    (k : ℕ) (text : String) (args : List Value) (b : Bool) : Prop :=
  ∃ ls e, Lexes counter text.toList k (k + args.length) ls ∧ reads ls e ∧
    ∀ before after, before.length + 1 = k →
      e.eval column (before ++ args ++ after) = some (.bool b)

section Denotes

variable {counter : ℕ → ℕ} {column : String → Option Value} {k : ℕ} {text text' : String}
  {args args' : List Value} {b b' : Bool}

theorem Denotes.disjunction (h : Denotes ReadsAnd counter column k text args b) :
    Denotes ReadsOr counter column k text args b := by
  obtain ⟨ls, e, hlex, hrd, hev⟩ := h
  exact ⟨ls, e, hlex, hrd.disjunction, hev⟩

theorem Denotes.or (h : Denotes ReadsAnd counter column k text args b)
    (h' : Denotes ReadsOr counter column (k + args.length) text' args' b') :
    Denotes ReadsOr counter column k (text ++ " OR " ++ text') (args ++ args') (b || b') := by
  obtain ⟨ls, e, hlex, hrd, hev⟩ := h
  obtain ⟨ls', e', hlex', hrd', hev'⟩ := h'
  refine ⟨ls ++ .orWord :: ls', .or e e', ?_, hrd.or hrd', ?_⟩
  · have hor : Lexes counter ['O', 'R'] (k + args.length) (k + args.length) [.orWord] :=
      lexes_word _ _ _
    have := hlex.append (hor.append hlex'.space).space
    rw [length_append, ← Nat.add_assoc]
    simpa using this
  · intro before after hbf
    have hlf := hev before (args' ++ after) hbf
    have hrg := hev' (before ++ args) after (by rw [length_append]; omega)
    rw [← append_assoc] at hlf
    rw [← append_assoc, Expr.eval, hlf, hrg]
    rfl

theorem Denotes.evalText_paren (h : Denotes ReadsOr counter column k text args b)
    {before after : List Value} (hbf : before.length + 1 = k) :
    evalText column (before ++ args ++ after) (counter k) ("(" ++ text ++ ")") =
      some (.bool b) := by
  obtain ⟨ls, e, hlex, hrd, hev⟩ := h
  have htx : "(" ++ text ++ ")" = String.ofList ('(' :: (text.toList ++ [')'])) := by
    rw [← String.toList_inj]
    simp
  rw [evalText, htx, hlex.lexemes_paren, hrd.paren.disjunction.parse_eq]
  exact hev before after hbf

end Denotes

end Trove.Lib.Sql
