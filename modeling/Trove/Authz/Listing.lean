import Trove.Authz.Decide
import Trove.Meta.Visibility

/-!
# Listing and deciding

`visibilityFor` compiles a subject's bindings into the visibility its listings run under. The
decision, the filters of the scopes, the visibility in memory, and the SQL condition with SQLite's
marks and with PostgreSQL's give one answer (`listing_eq_decide`).
-/

namespace Trove.Authz

open Lib

def scopeFilter (f : Filter) : Meta.ScopeFilter :=
  { all := f.all, exact := f.exact, pathPrefix := f.pathPrefix }

/-- `server.VisibilityFor`. The result is never unrestricted. -/
def visibilityFor (bindings : List Binding) (verb : Verb) : Meta.Visibility :=
  Meta.visibleTo ((filters (visibleScopes bindings verb)).map scopeFilter)

theorem scopeFilter_matches (f : Filter) (name : String) :
    (scopeFilter f).matches name = f.matches name := by
  have hpr : (decide (Strings.len name > Strings.len f.pathPrefix) &&
      Strings.sliceTo name (Strings.len f.pathPrefix) == Strings.bytes f.pathPrefix) =
      (Strings.hasPrefix name f.pathPrefix &&
        decide (Strings.len name > Strings.len f.pathPrefix)) := by
    rw [Bool.eq_iff_iff, Bool.and_eq_true, Bool.and_eq_true, beq_iff_eq, Strings.sliceTo_eq_iff,
      and_comm]
  rw [Filter.matches, ← hpr]
  rfl

theorem visibleTo_allows (fs : List Filter) (name : String) :
    (Meta.visibleTo (fs.map scopeFilter)).allows name = fs.any (·.matches name) := by
  rw [Meta.Visibility.allows, Meta.visibleTo, Bool.false_or, List.any_map]
  exact congrArg fs.any (funext fun f => scopeFilter_matches f name)

/-- The filters give one answer on a name, in memory and as a condition over a row with the name,
wherever its arguments stand among the query's. -/
structure Agree (fs : List Filter) (name : String) (answer : Bool) : Prop where
  filters : fs.any (·.matches name) = answer
  visibility : (Meta.visibleTo (fs.map scopeFilter)).allows name = answer
  question : ∀ (column : String) (row : String → Option Sql.Value) (before after : List Sql.Value),
    Sql.isColumn column → row column = some (.text name) →
    Meta.conditionValue column (Meta.visibleTo (fs.map scopeFilter)) Meta.question row before after
      (before.length + 1) = some (.bool answer)
  dollar : ∀ (column : String) (row : String → Option Sql.Value) (before after : List Sql.Value)
    (next : ℕ), Sql.isColumn column → row column = some (.text name) →
    Meta.conditionValue column (Meta.visibleTo (fs.map scopeFilter)) Meta.dollar row before after
      next = some (.bool answer)

theorem agree_any (fs : List Filter) (name : String) : Agree fs name (fs.any (·.matches name)) where
  filters := rfl
  visibility := visibleTo_allows fs name
  question := by
    intro column row before after hcl hrow
    rw [← visibleTo_allows]
    exact Meta.conditionValue_eq Meta.marks_question hcl hrow _ before after
  dollar := by
    intro column row before after next hcl hrow
    rw [← visibleTo_allows]
    exact Meta.conditionValue_eq (Meta.marks_dollar next) hcl hrow _ before after

def filterOf (scope : Scope) : Filter := (Scope.filter scope).getD {}

theorem any_matches_getD (o : Option Filter) (name : String) :
    o.any (·.matches name) = (o.getD {}).matches name := by
  cases o with
  | none => simp [Filter.matches]
  | some f => rfl

/-- **Listing equals deciding.** Every way of filtering a listing by the subject's bindings shows a
legal name exactly when the decision allows the verb on it; and for every parsed scope every matcher
gives the answer its form says: equality for one name, a proper prefix of path segments for
`root/*`. -/
theorem listing_eq_decide (bindings : List Binding) (verb : Verb) (hverb : verb.valid)
    (name : Reponame.Name) :
    ((visibilityFor bindings verb).allows name.text =
        (Authz.decide bindings verb (.repository name)).allowed ∧
      Agree (filters (visibleScopes bindings verb)) name.text
        (Authz.decide bindings verb (.repository name)).allowed) ∧
    ∀ s scope, parseScope s = .ok scope →
      ∃ form : Form, form.Legal ∧ form.text = scope ∧
        (Scope.matches scope (.repository name) ↔ form.Covers (.repository name)) ∧
        (filterOf scope).matches name.text = Scope.matches scope (.repository name) ∧
        (scopeFilter (filterOf scope)).matches name.text =
          Scope.matches scope (.repository name) ∧
        Agree [filterOf scope] name.text (Scope.matches scope (.repository name)) := by
  rw [decide_repository bindings hverb]
  refine ⟨⟨visibleTo_allows _ _, agree_any _ _⟩, fun s scope hpr => ?_⟩
  obtain ⟨rfl, form, hlg, rfl⟩ := exists_form_of_parseScope hpr
  have hfl : (filterOf form.text).matches name.text =
      Scope.matches form.text (.repository name) := by
    rw [matches_repository, any_matches_getD, filterOf]
  have hag := agree_any [filterOf form.text] name.text
  rw [List.any_cons, List.any_nil, Bool.or_false, hfl] at hag
  refine ⟨form, hlg, rfl, matches_text_iff hlg _, hfl, ?_, hag⟩
  rw [scopeFilter_matches, hfl]

/-- A reader of everything under `team-a`, seen through the theorem: the repository is allowed, and
PostgreSQL's condition selects its row. -/
theorem listing_eq_decide_teamA :
    ∃ (bindings : List Binding) (name : Reponame.Name) (row : String → Option Sql.Value),
      Verb.repoRead.valid ∧ name.text = "team-a/api" ∧
      (Authz.decide bindings .repoRead (.repository name)).allowed ∧
      (visibilityFor bindings .repoRead).allows name.text ∧
      Meta.conditionValue "name" (visibilityFor bindings .repoRead) Meta.dollar row [] [] 1 =
        some (.bool true) := by
  refine ⟨[⟨"b1", "reader", "team-a/*", [.repoList, .repoRead], ""⟩],
    ⟨"team-a/api", by decide⟩, fun _ => some (.text "team-a/api"), rfl, rfl, ?_⟩
  have hal : (Authz.decide [⟨"b1", "reader", "team-a/*", [.repoList, .repoRead], ""⟩] .repoRead
      (.repository ⟨"team-a/api", by decide⟩)).allowed := by decide
  have hls := (listing_eq_decide [⟨"b1", "reader", "team-a/*", [.repoList, .repoRead], ""⟩]
    .repoRead rfl ⟨"team-a/api", by decide⟩).1
  exact ⟨hal, hls.1, hls.2.dollar "name" _ [] [] 1 (by decide) rfl⟩

end Trove.Authz
