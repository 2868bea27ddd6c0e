import Trove.Lib.Except
import Trove.Policy.Inventory
import Mathlib.Data.Prod.Lex

/-!
# Retention rules

A rule is a filter, which decides whether it has an opinion on a manifest, and a kind, which decides
what it keeps of the manifests it has an opinion on. `compileRules` validates a rule list;
`gatherOpinions` collects the opinions of every rule; `resolve` reduces one manifest's opinions to a
verdict. The regular expressions are a parameter, `compile`.
-/

namespace Trove.Policy

open Lib
open Meta (Time)

/-- What a rule keeps of what it matches. The first four are legal; the zero value is `other ""`. -/
inductive RuleKind
  | selectMatched
  | keepLastN
  | keepNewerThan
  | keepIfPulledSince
  | other (text : String)

def RuleKind.text : RuleKind → String
  | .selectMatched => "select-matched"
  | .keepLastN => "keep-last-n"
  | .keepNewerThan => "keep-newer-than"
  | .keepIfPulledSince => "keep-if-pulled-since"
  | .other text => text

def RuleKind.valid : RuleKind → Bool
  | .other _ => false
  | _ => true

def TagStatus.text : TagStatus → String
  | .anyTags => ""
  | .tagged => "tagged"
  | .untagged => "untagged"
  | .other text => text

def TagStatus.valid : TagStatus → Bool
  | .other _ => false
  | _ => true

/-- A rule as it is configured. -/
structure Rule where
  name : String
  priority : ℤ
  kind : RuleKind
  (n age : ℤ)
  tagStatus : TagStatus
  (includeTags excludeTags : List String)

/-- The rule and the field that are wrong. -/
structure RuleError where
  (rule field reason : String)
  deriving DecidableEq

structure CompiledRule extends Rule where
  includes : List (String → Bool)
  excludes : List (String → Bool)

/-! ## Compilation -/

section Compile

variable (quote : String → String) (compile : String → Except String (String → Bool))

/-- A rule without a count. -/
def readsNoCount (rule : Rule) : Except RuleError Unit :=
  if rule.n ≠ 0 then .error ⟨rule.name, "n", rule.kind.text ++ " does not read a count"⟩ else .ok ()

/-- A rule without an age. -/
def readsNoAge (rule : Rule) : Except RuleError Unit :=
  if rule.age ≠ 0 then .error ⟨rule.name, "age", rule.kind.text ++ " does not read an age"⟩
  else .ok ()

/-- Refuses a rule that carries a value its kind does not read. -/
def validateKindFields (rule : Rule) : Except RuleError Unit :=
  match rule.kind with
  | .keepLastN =>
    if rule.n < 0 then .error ⟨rule.name, "n", "must not be negative"⟩ else readsNoAge rule
  | .keepNewerThan | .keepIfPulledSince =>
    if rule.age ≤ 0 then
      .error ⟨rule.name, "age", "must be positive: a zero or negative window keeps nothing"⟩
    else readsNoCount rule
  | _ => do
    readsNoCount rule
    readsNoAge rule

def compilePattern (rule field pattern : String) : Except RuleError (String → Bool) :=
  if pattern = "" then
    .error ⟨rule, field, "an empty pattern matches no tag name and would never fire"⟩
  else match compile ("\\A(?:" ++ pattern ++ ")\\z") with
    | .error e =>
      .error ⟨rule, field, "pattern " ++ quote pattern ++ " does not compile: " ++ e⟩
    | .ok re => .ok re

def compilePatterns (rule field : String) (patterns : List String) :
    Except RuleError (List (String → Bool)) :=
  patterns.mapM (compilePattern quote compile rule field)

/-- The checks of one rule apart from its name. -/
def compileRule (rule : Rule) : Except RuleError CompiledRule :=
  if !rule.kind.valid then
    .error ⟨rule.name, "kind", "unknown rule kind " ++ quote rule.kind.text⟩
  else if !rule.tagStatus.valid then
    .error ⟨rule.name, "tag_status", "unknown tag status " ++ quote rule.tagStatus.text⟩
  else do
    validateKindFields rule
    let includes ← compilePatterns quote compile rule.name "include_tags" rule.includeTags
    let excludes ← compilePatterns quote compile rule.name "exclude_tags" rule.excludeTags
    .ok { rule with includes, excludes }

def compileRulesFrom : ℕ → List String → List Rule → Except RuleError (List CompiledRule)
  | _, _, [] => .ok []
  | position, names, rule :: rest =>
    if rule.name = "" then
      .error ⟨"#" ++ toString position, "name",
        "a rule must be named: the name is what a plan entry cites"⟩
    else if rule.name ∈ names then
      .error ⟨rule.name, "name", "already used: rule names must be unique"⟩
    else do
      let compiled ← compileRule quote compile rule
      let set ← compileRulesFrom (position + 1) (rule.name :: names) rest
      .ok (compiled :: set)

def compileRules (rules : List Rule) : Except RuleError (List CompiledRule) :=
  compileRulesFrom quote compile 0 [] rules

end Compile

/-! ## Opinions -/

def CompiledRule.matches (r : CompiledRule) (m : Manifest) : Bool :=
  (match r.tagStatus with
    | .tagged => m.status = .tagged
    | .untagged => m.status = .untagged
    | _ => true) &&
  !(m.tags.any fun tag => r.excludes.any fun re => re tag.name) &&
  (r.includes.isEmpty || m.tags.any fun tag => r.includes.any fun re => re tag.name)

def rank (m : Manifest) : ℤ ×ₗ Digest := toLex (-m.pushedAt, m.digest)

def reference (m : Manifest) : Time := if m.lastPulledAt = 0 then m.pushedAt else m.lastPulledAt

def CompiledRule.keeps (r : CompiledRule) (matched : List Manifest) (now : Time) : List Digest :=
  match r.kind with
  | .keepLastN => ((sortBy rank matched).take r.n.toNat).map Manifest.digest
  | .keepNewerThan =>
    (matched.filter fun m => now - r.age < m.pushedAt).map Manifest.digest
  | .keepIfPulledSince =>
    (matched.filter fun m => now - r.age < reference m).map Manifest.digest
  | _ => []

/-- One rule's verdict on one manifest. -/
structure Opinion where
  rule : String
  priority : ℤ
  kind : RuleKind
  keep : Bool

def CompiledRule.opinion (r : CompiledRule) (kept : List Digest) (m : Manifest) : Opinion :=
  { rule := r.name, priority := r.priority, kind := r.kind, keep := m.digest ∈ kept }

/-- The opinions of one rule. -/
def addOpinions (selectable : List Manifest) (now : Time) (opinions : Digest → List Opinion)
    (r : CompiledRule) : Digest → List Opinion :=
  let matched := selectable.filter r.matches
  let kept := r.keeps matched now
  matched.foldl (fun opinions m => appendAt opinions m.digest (r.opinion kept m)) opinions

/-- The opinions of all rules. -/
def gatherOpinions (selectable : List Manifest) (rules : List CompiledRule) (now : Time) :
    Digest → List Opinion :=
  rules.foldl (addOpinions selectable now) fun _ => []

/-- A manifest two rules of equal priority disagree about. -/
structure Conflict where
  digest : Digest
  priority : ℤ
  (selecting keeping : List String)

/-- What the strongest rules decided. -/
structure Verdict where
  applicable : Bool := false
  keep : Bool := false
  rule : String := ""
  kind : RuleKind := .other ""
  priority : ℤ := 0
  agreeing : List String := []

/-- The strongest priority. -/
def bestPriority (first : ℤ) (opinions : List Opinion) : ℤ :=
  opinions.foldl (fun best o => if o.priority < best then o.priority else best) first

def kindsOf (opinions : List Opinion) : String → RuleKind :=
  opinions.foldl (fun kinds o => Function.update kinds o.rule o.kind) fun _ => .other ""

def resolveTop (digest : Digest) (best : ℤ) (top : List Opinion) : Except Conflict Verdict :=
  let selecting := sortBy id ((top.filter (!·.keep)).map Opinion.rule)
  let keeping := sortBy id ((top.filter (·.keep)).map Opinion.rule)
  if selecting.length > 0 ∧ keeping.length > 0 then
    .error { digest, priority := best, selecting, keeping }
  else
    let keep := decide (keeping.length > 0)
    -- never empty: there is an opinion at the deciding priority, and it is in one of the two
    let deciders := if keep then keeping else selecting
    let rule := deciders.headD ""
    .ok { applicable := true, keep, rule, kind := kindsOf top rule, priority := best,
          agreeing := deciders.tail }

/-- One manifest's opinions reduced to a verdict, or to the conflict that stops the evaluation. -/
def resolve (digest : Digest) : List Opinion → Except Conflict Verdict
  | [] => .ok {}
  | first :: others =>
    let best := bestPriority first.priority others
    resolveTop digest best ((first :: others).filter (·.priority = best))

end Trove.Policy
