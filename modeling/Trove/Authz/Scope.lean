import Trove.Lib.Except
import Trove.Reponame

/-!
# Scopes

The scope grammar, the resources a permission is checked against and the filters the query layer
compiles scopes into. A `Scope` is a string that may never have gone through the parser, so every
operation validates it first. `Form` is what a parsed scope says (`parseScope_eq_ok`).
-/

namespace Trove.Authz

open Lib Reponame

abbrev Scope := String

def systemScope : Scope := "system"

def allRepositories : Scope := "*"

def wildcardSuffix : String := "/*"

/-! ## Parsing -/

/-- Why a scope was refused. -/
inductive ScopeReason
  | empty
  | notPrefix (root : String) (err : Reponame.InvalidError)
  | notName (err : Reponame.InvalidError)
  | reserved
  deriving DecidableEq

def ScopeReason.text (quote : String → String) : ScopeReason → String
  | .empty => "must not be empty"
  | .notPrefix root err => quote root ++ " is not a repository prefix: " ++ err.message quote
  | .notName err => err.message quote
  | .reserved => "\"system\" is the global scope: a repository scope cannot start with it"

/-- A refused scope, and why. -/
structure InvalidScopeError where
  scope : String
  reason : ScopeReason
  deriving DecidableEq

/-- The text of the error. -/
def InvalidScopeError.message (quote : String → String) (e : InvalidScopeError) : String :=
  "invalid scope " ++ quote e.scope ++ ": " ++ e.reason.text quote

def checkNotReserved (scope name : String) : Except InvalidScopeError Unit :=
  if Reponame.prefixOf name ≠ systemScope then .ok () else .error ⟨scope, .reserved⟩

def parseScope (s : String) : Except InvalidScopeError Scope :=
  if s = "" then .error ⟨s, .empty⟩
  else if s = systemScope then .ok systemScope
  else if s = allRepositories then .ok allRepositories
  else
    match Strings.cutSuffix s wildcardSuffix with
    | some root =>
      match Reponame.validate root with
      | .error err => .error ⟨s, .notPrefix root err⟩
      | .ok () => do
        checkNotReserved s root
        .ok s
    | none =>
      match Reponame.validate s with
      | .error err => .error ⟨s, .notName err⟩
      | .ok () => do
        checkNotReserved s s
        .ok s

/-- The parser accepts it. -/
def Scope.validate (s : Scope) : Except InvalidScopeError Unit := (parseScope s).map fun _ => ()

/-! ## Resources -/

/-- What a permission is checked against. `invalid` is Go's zero value. -/
inductive Resource
  | invalid
  | system
  | repository (name : Reponame.Name)

def repository (name : String) : Except Reponame.InvalidError Resource :=
  match Reponame.parseName name with
  | .error err => .error err
  | .ok name => .ok (.repository name)

variable {name s : String} {form : Form}

theorem repository_eq_ok (h : Reponame.valid name) :
    repository name = .ok (.repository ⟨name, h⟩) := by
  have hpr : Reponame.parseName name = .ok ⟨name, h⟩ := by
    unfold Reponame.parseName
    split
    · rename_i err herr
      rw [validate_eq_ok.mpr h] at herr
      cases herr
    · rfl
  rw [repository, hpr]

theorem valid_of_repository {resource : Resource} (h : repository name = .ok resource) :
    Reponame.valid name := by
  rw [← validate_eq_ok]
  unfold repository Reponame.parseName at h
  split at h
  · cases h
  · rename_i parsed hpr
    split at hpr
    · cases hpr
    · assumption

def Scope.matches (s : Scope) (r : Resource) : Bool :=
  match Scope.validate s with
  | .error _ => false
  | .ok () =>
    match r with
    | .invalid => false
    | .system => s == systemScope
    | .repository name =>
      if s = systemScope then false
      else if s = allRepositories then true
      else
        match Strings.cutSuffix s wildcardSuffix with
        | some root =>
          Strings.hasPrefix name.text (root ++ "/") &&
            Decidable.decide (Strings.len name.text > Strings.len root + 1)
        | none => s == name.text

/-! ## Filters -/

/-- A scope compiled for a query: everything, one name, or the names under a path. Zero selects
nothing. -/
structure Filter where
  all : Bool := false
  exact : String := ""
  pathPrefix : String := ""

def Filter.matches (f : Filter) (name : String) : Bool :=
  if f.all then true
  else if f.exact ≠ "" then name == f.exact
  else if f.pathPrefix ≠ "" then
    Strings.hasPrefix name f.pathPrefix &&
      Decidable.decide (Strings.len name > Strings.len f.pathPrefix)
  else false

/-- `Scope.Filter`. The system scope and an invalid one select no repositories at all. -/
def Scope.filter (s : Scope) : Option Filter :=
  match Scope.validate s with
  | .error _ => none
  | .ok () =>
    if s = systemScope then none
    else if s = allRepositories then some { all := true }
    else
      match Strings.cutSuffix s wildcardSuffix with
      | some root => some { pathPrefix := root ++ "/" }
      | none => some { exact := s }

def filters (scopes : List Scope) : List Filter := scopes.filterMap Scope.filter

/-! ## The four forms -/

/-- What a scope says. -/
inductive Form
  | system
  | all
  | exact (name : Reponame.Name)
  | under (root : Reponame.Name)

def Form.text : Form → Scope
  | .system => systemScope
  | .all => allRepositories
  | .exact name => name.text
  | .under root => root.text ++ wildcardSuffix

def Form.Legal : Form → Prop
  | .system => True
  | .all => True
  | .exact name => Reponame.prefixOf name.text ≠ systemScope
  | .under root => Reponame.prefixOf root.text ≠ systemScope

/-- One name is itself, a path is what has its segments as a proper prefix, and the system is no
repository. -/
def Form.Covers : Form → Resource → Prop
  | .system, r => r = .system
  | .all, r => ∃ name, r = .repository name
  | .exact name, r => r = .repository name
  | .under root, r => ∃ name, r = .repository name ∧
      Reponame.segments root.text <+: Reponame.segments name.text ∧
      Reponame.segments root.text ≠ Reponame.segments name.text

theorem name_ne {name : Reponame.Name} (h : Reponame.valid s = false) : name.text ≠ s := by
  rintro rfl
  rw [name.isValid] at h
  cases h

theorem under_ne {root : String} (h : s.toList.getLast? ≠ some '*') :
    root ++ wildcardSuffix ≠ s := by
  rintro rfl
  simp [wildcardSuffix] at h

theorem under_ne_all (root : Reponame.Name) : root.text ++ wildcardSuffix ≠ allRepositories := by
  intro heq
  have hlen := congrArg (fun s => s.toList.length) heq
  simp [wildcardSuffix, allRepositories] at hlen

theorem Form.Legal.name_ne_system {name : Reponame.Name} (h : (Form.exact name).Legal) :
    name.text ≠ systemScope := by
  intro heq
  rw [Form.Legal, heq] at h
  exact h (by decide)

theorem cutSuffix_name (name : Reponame.Name) :
    Strings.cutSuffix name.text wildcardSuffix = none := by
  rw [Option.eq_none_iff_forall_ne_some]
  intro root hrt
  rw [Strings.cutSuffix_eq_some] at hrt
  have hls := alnum_getLast name.isValid
  simp [hrt, wildcardSuffix, Reponame.classOf] at hls

theorem cutSuffix_under (root : String) :
    Strings.cutSuffix (root ++ wildcardSuffix) wildcardSuffix = some root :=
  Strings.cutSuffix_eq_some.mpr rfl

theorem checkNotReserved_eq_ok {scope : String} :
    checkNotReserved scope name = .ok () ↔ Reponame.prefixOf name ≠ systemScope := by
  rw [checkNotReserved]
  split_ifs with h <;> simp [h]

theorem parseScope_text (h : form.Legal) : parseScope form.text = .ok form.text := by
  cases form with
  | system => decide
  | all => decide
  | exact name =>
    rw [parseScope, Form.text, if_neg (name_ne (by decide)), if_neg h.name_ne_system,
      if_neg (name_ne (by decide)), cutSuffix_name]
    simp only [validate_eq_ok.mpr name.isValid, checkNotReserved_eq_ok.mpr h]
    rfl
  | under root =>
    rw [parseScope, Form.text, if_neg (under_ne (by decide)), if_neg (under_ne (by decide)),
      if_neg (under_ne_all root), cutSuffix_under]
    simp only [validate_eq_ok.mpr root.isValid, checkNotReserved_eq_ok.mpr h]
    rfl

theorem exists_form_of_parseScope {t : String} (h : parseScope s = .ok t) :
    t = s ∧ ∃ form : Form, form.Legal ∧ form.text = s := by
  rw [parseScope] at h
  split_ifs at h with hem hsy hall
  · cases h
    exact ⟨hsy.symm, .system, trivial, hsy.symm⟩
  · cases h
    exact ⟨hall.symm, .all, trivial, hall.symm⟩
  · split at h
    · rename_i root hrt
      rw [Strings.cutSuffix_eq_some] at hrt
      split at h
      · cases h
      · rename_i hvl
        obtain ⟨u, hu, ⟨⟩⟩ := bind_eq_ok.mp h
        exact ⟨rfl, .under ⟨root, validate_eq_ok.mp hvl⟩,
          checkNotReserved_eq_ok.mp hu, hrt.symm⟩
    · split at h
      · cases h
      · rename_i hvl
        obtain ⟨u, hu, ⟨⟩⟩ := bind_eq_ok.mp h
        exact ⟨rfl, .exact ⟨s, validate_eq_ok.mp hvl⟩,
          checkNotReserved_eq_ok.mp hu, rfl⟩

/-- **The grammar.** The parser accepts exactly the texts of legal forms, and returns them as they
came. -/
theorem parseScope_eq_ok {t : String} :
    parseScope s = .ok t ↔ t = s ∧ ∃ form : Form, form.Legal ∧ form.text = s := by
  refine ⟨exists_form_of_parseScope, ?_⟩
  rintro ⟨rfl, form, hlg, rfl⟩
  exact parseScope_text hlg

theorem Form.Legal.validate_text (h : form.Legal) : Scope.validate form.text = .ok () := by
  rw [Scope.validate, parseScope_text h]
  rfl

theorem len_append_slash (root : String) : Strings.len (root ++ "/") = Strings.len root + 1 := by
  rw [Strings.len, String.utf8ByteSize_append]
  rfl

/-- **Matching.** A parsed scope matches exactly the resources its form covers. -/
theorem matches_text_iff (h : form.Legal) (r : Resource) :
    Scope.matches form.text r ↔ form.Covers r := by
  unfold Scope.matches
  rw [h.validate_text]
  cases r with
  | invalid => cases form <;> simp [Form.Covers]
  | system =>
    cases form with
    | system => simp [Form.text, Form.Covers]
    | all => simp [Form.text, Form.Covers, systemScope, allRepositories]
    | exact name => simp [Form.text, Form.Covers, h.name_ne_system]
    | under root =>
      have hne : root.text ++ wildcardSuffix ≠ systemScope := under_ne (by decide)
      simp [Form.text, Form.Covers, hne]
  | repository name =>
    cases form with
    | system => simp [Form.text, Form.Covers]
    | all => simp [Form.text, Form.Covers, systemScope, allRepositories]
    | exact name' =>
      have hall : name'.text ≠ allRepositories := name_ne (by decide)
      simp only [Form.text, Form.Covers, if_neg h.name_ne_system, if_neg hall, cutSuffix_name]
      rw [beq_iff_eq, Resource.repository.injEq, Reponame.Name.ext_iff, eq_comm]
    | under root =>
      have hsy : root.text ++ wildcardSuffix ≠ systemScope := under_ne (by decide)
      simp only [Form.text, Form.Covers, if_neg hsy, if_neg (under_ne_all root),
        cutSuffix_under, Resource.repository.injEq]
      rw [exists_eq_left', segments_prefix_iff name.isValid, len_append_slash]
      simp

/-- The filter of a form. -/
def Form.filter : Form → Option Filter
  | .system => none
  | .all => some { all := true }
  | .exact name => some { exact := name.text }
  | .under root => some { pathPrefix := root.text ++ "/" }

theorem filter_text (h : form.Legal) : Scope.filter form.text = form.filter := by
  rw [Scope.filter, h.validate_text]
  cases form with
  | system => rfl
  | all => rfl
  | exact name =>
    have hall : name.text ≠ allRepositories := name_ne (by decide)
    simp only [Form.text, Form.filter, if_neg h.name_ne_system, if_neg hall, cutSuffix_name]
  | under root =>
    have hsy : root.text ++ wildcardSuffix ≠ systemScope := under_ne (by decide)
    simp only [Form.text, Form.filter, if_neg hsy, if_neg (under_ne_all root), cutSuffix_under]

theorem filter_matches_iff (form : Form) (name : Reponame.Name) :
    form.filter.any (·.matches name.text) ↔ form.Covers (.repository name) := by
  cases form with
  | system => simp [Form.filter, Form.Covers]
  | all => simp [Form.filter, Form.Covers, Filter.matches]
  | exact name' =>
    have hne : name'.text ≠ "" := name_ne (by decide)
    simp only [Form.filter, Form.Covers, Option.any_some, Filter.matches, Bool.false_eq_true,
      if_false, if_pos hne, beq_iff_eq, Resource.repository.injEq, Reponame.Name.ext_iff]
  | under root =>
    have hne : root.text ++ "/" ≠ "" := by simp
    simp only [Form.filter, Form.Covers, Option.any_some, Filter.matches, Bool.false_eq_true,
      if_false, ne_eq, not_true_eq_false, if_pos hne, Bool.and_eq_true, decide_eq_true_eq,
      Resource.repository.injEq]
    rw [exists_eq_left', segments_prefix_iff name.isValid]

/-- **The compiled form.** A scope and its filter agree on every repository, whether or not the
scope went through the parser. -/
theorem matches_repository (s : Scope) (name : Reponame.Name) :
    Scope.matches s (.repository name) = (Scope.filter s).any (·.matches name.text) := by
  cases hpr : parseScope s with
  | error err =>
    unfold Scope.matches
    simp [Scope.filter, Scope.validate, hpr, Except.map]
  | ok t =>
    obtain ⟨-, form, hlg, rfl⟩ := exists_form_of_parseScope hpr
    rw [Bool.eq_iff_iff, matches_text_iff hlg, filter_text hlg, filter_matches_iff]

end Trove.Authz
