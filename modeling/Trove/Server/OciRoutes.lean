import Trove.Authz.Decide
import Trove.Lib.Map

/-!
# The distribution routes

A repository name spans any number of path segments, so the distribution API's routes are matched by
a suffix pattern, and what stands between `/v2/` and the suffix is the name. `handleOCI` registers a
route, longer suffixes first, and `matchOCI` takes the first that fits. Two suffixes that differ in
a literal, or have opposite constraints, at the same place from the end never fit one path
(`tailsApart`).
-/

namespace Trove.Server

open Lib Lib.Strings List Function

/-! ## Placeholders -/

/-- What a path segment must satisfy to fill a placeholder. -/
inductive OciConstraint
  | anySegment
  | digest
  | tag
  deriving DecidableEq

/-- The segment may fill it. -/
def OciConstraint.accepts : OciConstraint → String → Bool
  | .anySegment, _ => true
  | .digest, segment => contains segment ':'
  | .tag, segment => !contains segment ':'

def ociConstraints : List (String × OciConstraint) := [("digest", .digest), ("tag", .tag)]

/-- What registration stops on. -/
inductive Panic
  | noVerb (method suffix : String)
  | unknownVerb (method suffix verb : String)
  | badSuffix (method suffix : String)
  | listing (method suffix : String)
  | emptySegment (method suffix : String)
  | unknownConstraint (kind segment : String)
  | twice (method pattern : String)
  deriving DecidableEq

def cutPlaceholder (segment : String) : Except Panic (Option (String × OciConstraint)) :=
  if !hasPrefix segment "\x7b" || !hasSuffix segment "\x7d" then .ok none
  else
    let inner := String.ofList (segment.toList.drop 1).dropLast
    match cut inner ':' with
    | (_, none) => .ok (some (inner, .anySegment))
    | (name, some kind) =>
      match ociConstraints.lookup kind with
      | none => .error (.unknownConstraint kind segment)
      | some check => .ok (some (name, check))

/-! ## The router -/

/-- What of a route's permission its registration reads. -/
structure Permission where
  verb : Authz.Verb
  listing : Bool := false
  deriving DecidableEq

/-- An entry of the route table. -/
structure Route where
  (method pattern : String)
  permission : Permission

/-- One registered distribution route. The handler is guarded by the permission. -/
structure OciRoute (H : Type) where
  method : String
  segments : List String
  trailingSlash : Bool
  permission : Permission
  handler : H

structure Router (H : Type) where
  routes : List Route := []
  oci : List (OciRoute H) := []

structure Registration (H : Type) where
  (method suffix : String)
  permission : Permission
  handler : H
  deriving DecidableEq

variable {H : Type}

def cutSlash (s : String) : String × Bool :=
  match cutSuffix s "/" with
  | some trimmed => (trimmed, true)
  | none => (s, false)

def Registration.route (reg : Registration H) : OciRoute H where
  method := reg.method
  segments := split (trimPrefix (cutSlash reg.suffix).1 "/") '/'
  trailingSlash := (cutSlash reg.suffix).2
  permission := reg.permission
  handler := reg.handler

/-- The table with the route, which must not be in it. -/
def Router.record (r : Router H) (route : Route) : Except Panic (Router H) :=
  if r.routes.any fun e => e.method == route.method && e.pattern == route.pattern then
    .error (.twice route.method route.pattern)
  else .ok { r with routes := r.routes ++ [route] }

def Registration.readSegment (reg : Registration H) (segment : String) :
    Except Panic (Option (String × OciConstraint)) :=
  if segment = "" then .error (.emptySegment reg.method reg.suffix) else cutPlaceholder segment

/-- The verb is known. -/
def Registration.checkVerb (reg : Registration H) : Except Panic Unit :=
  match reg.permission.verb with
  | .unknown verb =>
    if verb = "" then .error (.noVerb reg.method reg.suffix)
    else .error (.unknownVerb reg.method reg.suffix verb)
  | _ => .ok ()

def Registration.checkSuffix (reg : Registration H) : Except Panic Unit :=
  if !hasPrefix reg.suffix "/" || decide (len reg.suffix < 2) then
    .error (.badSuffix reg.method reg.suffix)
  else .ok ()

def Registration.checkListing (reg : Registration H) : Except Panic Unit :=
  if reg.permission.listing then .error (.listing reg.method reg.suffix) else .ok ()

/-- `HandleOCI`. Longer suffixes come first, and the sort is stable. -/
def Router.handleOCI (r : Router H) (reg : Registration H) : Except Panic (Router H) := do
  reg.checkVerb
  reg.checkSuffix
  reg.checkListing
  let _ ← reg.route.segments.mapM reg.readSegment
  let r ← r.record ⟨reg.method, "/v2/{name}" ++ reg.suffix, reg.permission⟩
  .ok { r with
    oci := (r.oci ++ [reg.route]).insertionSort fun a b => b.segments.length ≤ a.segments.length }

/-- The loop over a route's segments. The tail has as many parts. -/
def matchSegments : List String → List String → GoMap String String →
    Except Panic (Option (GoMap String String))
  | [], _, values => .ok (some values)
  | _ :: _, [], _ => .ok none
  | pattern :: patterns, part :: parts, values =>
    match cutPlaceholder pattern with
    | .error err => .error err
    | .ok (some (placeholder, constraint)) =>
      if part = "" ∨ constraint.accepts part = false then .ok none
      else matchSegments patterns parts (values.insert placeholder part)
    | .ok none => if pattern ≠ part then .ok none else matchSegments patterns parts values

structure OciMatch (H : Type) where
  permission : Permission
  handler : H
  name : String
  values : GoMap String String

/-- The loop over the routes. -/
def firstMatch (method : String) (trailingSlash : Bool) (parts : List String) :
    List (OciRoute H) → Except Panic (Option (OciMatch H))
  | [] => .ok none
  | route :: routes =>
    let k := route.segments.length
    if route.method ≠ method ∨ route.trailingSlash ≠ trailingSlash ∨ parts.length ≤ k then
      firstMatch method trailingSlash parts routes
    else
      match matchSegments route.segments (parts.drop (parts.length - k)) ∅ with
      | .error err => .error err
      | .ok none => firstMatch method trailingSlash parts routes
      | .ok (some values) =>
        .ok
          (some ⟨route.permission, route.handler, join (parts.take (parts.length - k)) '/', values⟩)

def Router.matchOCI (r : Router H) (method path : String) :
    Except Panic (Option (OciMatch H)) :=
  match cutPrefix path "/v2/" with
  | none => .ok none
  | some path =>
    if path = "" then .ok none
    else firstMatch method (cutSlash path).2 (split (cutSlash path).1 '/') r.oci

/-! ## What a suffix stands for -/

def fillSegment (value : String → String) (segment : String) : String :=
  match cutPlaceholder segment with
  | .ok (some (placeholder, _)) => value placeholder
  | _ => segment

def fill (suffix : String) (value : String → String) : String :=
  join ((split suffix '/').map (fillSegment value)) '/'

def placeholderOf (segment : String) : Option String :=
  match cutPlaceholder segment with
  | .ok (some (placeholder, _)) => some placeholder
  | _ => none

def placeholders (suffix : String) : List String := (split suffix '/').filterMap placeholderOf

def Fills (suffix : String) (value : String → String) : Prop :=
  ∀ segment ∈ split suffix '/', ∀ name constraint,
    cutPlaceholder segment = .ok (some (name, constraint)) →
      value name ≠ "" ∧ '/' ∉ (value name).toList ∧ constraint.accepts (value name) = true

/-! ## Matching one route -/

/-- The pattern's segment fits the part of the path. -/
inductive Reads : String → String → Prop
  | literal {segment : String} (h : cutPlaceholder segment = .ok none) : Reads segment segment
  | value {segment part name : String} {constraint : OciConstraint}
      (h : cutPlaceholder segment = .ok (some (name, constraint))) (hne : part ≠ "")
      (haccepts : constraint.accepts part = true) : Reads segment part

def bound : List String → List String → GoMap String String → GoMap String String
  | pattern :: patterns, part :: parts, values =>
    match placeholderOf pattern with
    | some placeholder => bound patterns parts (values.insert placeholder part)
    | none => bound patterns parts values
  | _, _, values => values

variable {patterns parts : List String} {reg : Registration H} {segment : String}

theorem reads_literal (hcut : cutPlaceholder segment = .ok none) {part : String} :
    Reads segment part ↔ segment = part := by
  constructor
  · rintro (- | hcut')
    · rfl
    · cases hcut.symm.trans hcut'
  · rintro rfl
    exact .literal hcut

theorem reads_value {found : String × OciConstraint}
    (hcut : cutPlaceholder segment = .ok (some found)) {part : String} :
    Reads segment part ↔ ¬ (part = "" ∨ found.2.accepts part = false) := by
  rw [not_or, Bool.not_eq_false]
  constructor
  · rintro (hcut' | ⟨hcut', hne, hac⟩)
    · cases hcut.symm.trans hcut'
    · obtain rfl := Option.some.inj (Except.ok.inj (hcut.symm.trans hcut'))
      exact ⟨hne, hac⟩
  · exact fun h => .value hcut h.1 h.2

open Classical in
theorem matchSegments_eq (h : ∀ pattern ∈ patterns, ∃ found, cutPlaceholder pattern = .ok found)
    (hlen : patterns.length = parts.length) (values : GoMap String String) :
    matchSegments patterns parts values = .ok
      (if List.Forall₂ Reads patterns parts then some (bound patterns parts values) else none) := by
  induction patterns generalizing parts values with
  | nil =>
    obtain rfl := length_eq_zero_iff.mp hlen.symm
    rfl
  | cons pattern patterns ih =>
    obtain ⟨part, parts, rfl⟩ := exists_cons_of_length_eq_add_one hlen.symm
    obtain ⟨found, hcut⟩ := h pattern mem_cons_self
    have ih := ih (fun p hp => h p (mem_cons_of_mem _ hp)) (Nat.succ.inj hlen)
    rw [matchSegments, bound, placeholderOf, hcut]
    simp only [List.forall₂_cons]
    cases found with
    | none =>
      simp only [reads_literal hcut]
      by_cases hpr : pattern = part <;> simp [hpr, ih]
    | some found =>
      simp only [reads_value hcut]
      by_cases hpr : part = "" ∨ found.2.accepts part = false <;>
        simp only [hpr, ih, not_true, not_false_iff, true_and, false_and, if_true, if_false]

/-- A route fits a request. -/
structure OciRoute.Fits (route : OciRoute H) (method : String) (trailingSlash : Bool)
    (parts : List String) : Prop where
  method_eq : route.method = method
  slash_eq : route.trailingSlash = trailingSlash
  longer : route.segments.length < parts.length
  reads : List.Forall₂ Reads route.segments (parts.drop (parts.length - route.segments.length))

def OciRoute.found (route : OciRoute H) (parts : List String) : OciMatch H where
  permission := route.permission
  handler := route.handler
  name := join (parts.take (parts.length - route.segments.length)) '/'
  values := bound route.segments (parts.drop (parts.length - route.segments.length)) ∅

theorem OciRoute.found_values (route : OciRoute H) (parts : List String) :
    (route.found parts).values =
      bound route.segments (parts.drop (parts.length - route.segments.length)) ∅ := rfl

def OciRoute.Readable (route : OciRoute H) : Prop :=
  ∀ pattern ∈ route.segments, ∃ found, cutPlaceholder pattern = .ok found

section FirstMatch

variable {method : String} {trailingSlash : Bool} {parts : List String}

variable {route : OciRoute H}

open Classical in
theorem firstMatch_eq {routes : List (OciRoute H)} (hrd : ∀ route ∈ routes, route.Readable) :
    firstMatch method trailingSlash parts routes = .ok
      ((routes.find? fun route => route.Fits method trailingSlash parts).map (·.found parts)) := by
  induction routes with
  | nil => rfl
  | cons route routes ih =>
    have ih := ih fun r hr => hrd r (mem_cons_of_mem _ hr)
    rw [firstMatch, List.find?_cons]
    split_ifs with hsk
    · have hft : ¬ route.Fits method trailingSlash parts := fun hft => by
        simp [hft.method_eq, hft.slash_eq, Nat.not_le.mpr hft.longer] at hsk
      simpa [hft] using ih
    · simp only [not_or, not_not, not_le] at hsk
      obtain ⟨hmt, hsl, hln⟩ := hsk
      have hft : route.Fits method trailingSlash parts ↔ List.Forall₂ Reads route.segments
          (parts.drop (parts.length - route.segments.length)) :=
        ⟨fun hft => hft.reads, fun hrs => ⟨hmt, hsl, hln, hrs⟩⟩
      rw [matchSegments_eq (hrd route mem_cons_self) (by rw [length_drop]; omega)]
      by_cases hfit : route.Fits method trailingSlash parts
      · rw [if_pos (hft.mp hfit), decide_eq_true hfit]
        rfl
      · rw [if_neg (mt hft.mpr hfit), decide_eq_false hfit]
        exact ih

theorem fits_of_firstMatch {routes : List (OciRoute H)} (hrd : ∀ route ∈ routes, route.Readable)
    {found : OciMatch H} (h : firstMatch method trailingSlash parts routes = .ok (some found)) :
    ∃ route ∈ routes, route.Fits method trailingSlash parts ∧ found = route.found parts := by
  rw [firstMatch_eq hrd] at h
  obtain ⟨route, hfn, rfl⟩ := Option.map_eq_some_iff.mp (Except.ok.inj h)
  exact ⟨route, mem_of_find?_eq_some hfn, by simpa using List.find?_some hfn, rfl⟩

theorem firstMatch_of_unique {routes : List (OciRoute H)} (hrd : ∀ route ∈ routes, route.Readable)
    (hmem : route ∈ routes) (hft : route.Fits method trailingSlash parts)
    (hun : ∀ route' ∈ routes, route'.Fits method trailingSlash parts → route' = route) :
    firstMatch method trailingSlash parts routes = .ok (some (route.found parts)) := by
  rw [firstMatch_eq hrd]
  cases hfn : routes.find? _ with
  | none => exact absurd hft (by simpa using List.find?_eq_none.mp hfn route hmem)
  | some first =>
    rw [hun first (mem_of_find?_eq_some hfn) (by simpa using List.find?_some hfn)]
    rfl

end FirstMatch

/-! ## Suffixes that never fit one path -/

def apart (pattern pattern' : String) : Bool :=
  match cutPlaceholder pattern, cutPlaceholder pattern' with
  | .ok none, .ok none => pattern ≠ pattern'
  | .ok (some (_, .digest)), .ok (some (_, .tag)) => true
  | .ok (some (_, .tag)), .ok (some (_, .digest)) => true
  | _, _ => false

theorem not_reads_of_apart {pattern pattern' part : String} (h : apart pattern pattern' = true)
    (hrd : Reads pattern part) : ¬ Reads pattern' part := by
  intro hrd'
  unfold apart at h
  cases hrd with
  | literal hcut => cases hrd' <;> simp_all
  | value hcut hne hac =>
    rename_i constraint
    cases hrd' with
    | literal hcut' => simp [hcut, hcut'] at h
    | value hcut' hne' hac' =>
      rename_i constraint'
      cases constraint <;> cases constraint' <;> simp_all [OciConstraint.accepts]

/-- At some place from the end the two suffixes exclude each other. -/
def tailsApart (segments segments' : List String) : Bool :=
  (List.zipWith apart segments.reverse segments'.reverse).any id

theorem not_tailsApart_of_fits {route route' : OciRoute H} {method : String} {trailingSlash : Bool}
    (h : route.Fits method trailingSlash parts) (h' : route'.Fits method trailingSlash parts) :
    tailsApart route.segments route'.segments = false := by
  have hfr : ∀ a b l : List String, List.Forall₂ Reads a (l.take a.length) →
      List.Forall₂ Reads b (l.take b.length) → (List.zipWith apart a b).any id = false := by
    intro a
    induction a with
    | nil => exact fun _ _ _ _ => rfl
    | cons p a ih =>
      intro b l ha hb
      cases b with
      | nil => rfl
      | cons q b =>
        cases l with
        | nil => cases ha
        | cons part l =>
          rw [length_cons, take_succ_cons, List.forall₂_cons] at ha hb
          have hhd : apart p q = false :=
            Bool.eq_false_iff.mpr fun hap => not_reads_of_apart hap ha.1 hb.1
          rw [zipWith_cons_cons, any_cons, ih b l ha.2 hb.2, hhd]
          rfl
  have hbc : ∀ segments : List String,
      List.Forall₂ Reads segments (parts.drop (parts.length - segments.length)) →
      List.Forall₂ Reads segments.reverse (parts.reverse.take segments.reverse.length) := by
    intro segments hrd
    rw [length_reverse, take_reverse]
    exact List.forall₂_reverse_iff.mpr hrd
  exact hfr _ _ parts.reverse (hbc _ h.reads) (hbc _ h'.reads)

/-! ## Registered routes -/

/-- What an accepted registration's suffix is: a slash, segments that are not empty, perhaps another
slash. -/
structure Registration.Accepted (reg : Registration H) : Prop where
  suffix_eq : split reg.suffix '/' =
    "" :: (reg.route.segments ++ if reg.route.trailingSlash then [""] else [])
  nonempty : ∀ segment ∈ reg.route.segments, segment ≠ ""
  readable : reg.route.Readable

theorem cutSlash_eq (s : String) :
    s = (cutSlash s).1 ++ if (cutSlash s).2 then "/" else "" := by
  unfold cutSlash
  cases h : cutSuffix s "/" with
  | none => simp
  | some trimmed => simpa using cutSuffix_eq_some.mp h

theorem split_slash (s : String) : split (s ++ "/") '/' = split s '/' ++ [""] := by
  have h := split_append '/' s ""
  rw [String.append_empty] at h
  exact h

theorem split_cutSlash (s : String) :
    split s '/' = split (cutSlash s).1 '/' ++ if (cutSlash s).2 then [""] else [] := by
  nth_rewrite 1 [cutSlash_eq s]
  cases (cutSlash s).2
  · simp
  · exact split_slash _

theorem hasPrefix_cutSlash {s : String} (h : hasPrefix s "/") (hlen : ¬ len s < 2) :
    ∃ rest, (cutSlash s).1 = "/" ++ rest := by
  obtain ⟨rest, hrs⟩ := hasPrefix_iff.mp h
  have hs : s = "/" ++ String.ofList rest := by
    rw [← String.toList_inj, ← hrs]
    simp
  unfold cutSlash
  cases hcut : cutSuffix s "/" with
  | none => exact ⟨_, hs⟩
  | some trimmed =>
    have htr := cutSuffix_eq_some.mp hcut
    cases hls : trimmed.toList with
    | nil =>
      rw [String.toList_eq_nil_iff.mp hls] at htr
      exact absurd (htr ▸ by decide) hlen
    | cons c cs =>
      refine ⟨String.ofList cs, ?_⟩
      have hsl : ("/" : String).toList = ['/'] := rfl
      have hhd := congrArg String.toList (htr.symm.trans hs)
      rw [String.toList_append, hls, String.toList_append, hsl, singleton_append] at hhd
      obtain ⟨hc, -⟩ := cons_eq_cons.mp hhd
      rw [← String.toList_inj, hls, hc, String.toList_append, hsl, String.toList_ofList,
        singleton_append]

theorem trimPrefix_slash (rest : String) : trimPrefix ("/" ++ rest) "/" = rest := by
  rw [trimPrefix, cutPrefix_eq_some.mpr rfl, Option.getD_some]

theorem accepted_of_handleOCI {r r' : Router H} (h : r.handleOCI reg = .ok r') :
    reg.Accepted ∧ r'.oci.Perm (r.oci ++ [reg.route]) := by
  obtain ⟨_, -, h⟩ := bind_eq_ok.mp h
  obtain ⟨_, hsf, h⟩ := bind_eq_ok.mp h
  obtain ⟨_, -, h⟩ := bind_eq_ok.mp h
  obtain ⟨found, hsg, h⟩ := bind_eq_ok.mp h
  obtain ⟨recorded, hrc, h⟩ := bind_eq_ok.mp h
  obtain rfl := Except.ok.inj h
  have hoci : recorded.oci = r.oci := by
    unfold Router.record at hrc
    split_ifs at hrc
    rw [← Except.ok.inj hrc]
  have hrd : ∀ segment ∈ reg.route.segments,
      segment ≠ "" ∧ ∃ found, cutPlaceholder segment = .ok found := by
    intro segment hmem
    obtain ⟨found, hfn⟩ := ok_of_mapM hsg hmem
    unfold Registration.readSegment at hfn
    split_ifs at hfn with hem
    exact ⟨hem, found, hfn⟩
  refine ⟨⟨?_, fun s hs => (hrd s hs).1, fun s hs => (hrd s hs).2⟩, ?_⟩
  · unfold Registration.checkSuffix at hsf
    split_ifs at hsf with hbad
    simp only [Bool.or_eq_true, Bool.not_eq_true', not_or, Bool.not_eq_false,
      decide_eq_true_eq] at hbad
    obtain ⟨rest, hrs⟩ := hasPrefix_cutSlash hbad.1 hbad.2
    have hsp := split_append '/' "" rest
    rw [split_cutSlash, Registration.route, hrs, trimPrefix_slash]
    exact congrArg (· ++ _) hsp
  · show (List.insertionSort _ (recorded.oci ++ [reg.route])).Perm _
    rw [hoci]
    exact perm_insertionSort _ _

theorem mem_oci_of_foldlM {regs : List (Registration H)} {r r' : Router H}
    (h : regs.foldlM Router.handleOCI r = .ok r') :
    (∀ reg ∈ regs, reg.Accepted) ∧
      ∀ route, route ∈ r'.oci ↔ route ∈ r.oci ∨ ∃ reg ∈ regs, reg.route = route := by
  induction regs generalizing r with
  | nil =>
    obtain rfl := Except.ok.inj h
    simp
  | cons reg regs ih =>
    obtain ⟨next, hnx, h⟩ := bind_eq_ok.mp h
    obtain ⟨hac, hpr⟩ := accepted_of_handleOCI hnx
    obtain ⟨hrs, hmem⟩ := ih h
    refine ⟨fun reg' hreg' => ?_, fun route => ?_⟩
    · rcases mem_cons.mp hreg' with rfl | hreg'
      · exact hac
      · exact hrs reg' hreg'
    · rw [hmem, hpr.mem_iff, mem_append, mem_singleton, or_assoc]
      rw [exists_mem_cons_iff, eq_comm]

/-! ## Filling a suffix -/

theorem fillSegment_empty (value : String → String) : fillSegment value "" = "" := by
  have hcut : cutPlaceholder "" = .ok none := by decide
  rw [fillSegment, hcut]

theorem fillSegment_literal (h : cutPlaceholder segment = .ok none) (value : String → String) :
    fillSegment value segment = segment := by
  rw [fillSegment, h]

theorem fillSegment_value {name : String} {constraint : OciConstraint}
    (h : cutPlaceholder segment = .ok (some (name, constraint))) (value : String → String) :
    fillSegment value segment = value name := by
  rw [fillSegment, h]

theorem Registration.Accepted.segments_ne_nil : reg.route.segments ≠ [] := by
  apply split_ne_nil

theorem Registration.Accepted.mem_suffix (h : reg.Accepted) (hmem : segment ∈ reg.route.segments) :
    segment ∈ split reg.suffix '/' := by
  rw [h.suffix_eq]
  simp [hmem]

theorem Registration.Accepted.placeholders_eq (h : reg.Accepted) :
    placeholders reg.suffix = reg.route.segments.filterMap placeholderOf := by
  have hem : placeholderOf "" = none := by decide
  rw [placeholders, h.suffix_eq]
  cases reg.route.trailingSlash <;> simp [hem]

theorem Registration.Accepted.fill_eq (h : reg.Accepted) (value : String → String) :
    fill reg.suffix value = "/" ++ join (reg.route.segments.map (fillSegment value)) '/' ++
      if reg.route.trailingSlash then "/" else "" := by
  have hne : reg.route.segments.map (fillSegment value) ≠ [] := by
    simpa using Registration.Accepted.segments_ne_nil
  have hsl : String.singleton '/' = "/" := rfl
  rw [fill, h.suffix_eq, map_cons, map_append, fillSegment_empty, ← singleton_append,
    join_append (cons_ne_nil _ _) (by simp [hne]), join_singleton, String.empty_append, hsl]
  cases reg.route.trailingSlash with
  | false => simp
  | true =>
    simp only [if_true, map_cons, map_nil, fillSegment_empty]
    rw [join_append hne (cons_ne_nil _ _), join_singleton, String.append_empty, hsl,
      String.append_assoc]

theorem reads_fillSegment (h : reg.Accepted) {value : String → String}
    (hfl : Fills reg.suffix value) (hmem : segment ∈ reg.route.segments) :
    Reads segment (fillSegment value segment) ∧ fillSegment value segment ≠ "" ∧
      '/' ∉ (fillSegment value segment).toList := by
  obtain ⟨found, hcut⟩ := h.readable segment hmem
  cases found with
  | none =>
    rw [fillSegment_literal hcut]
    exact ⟨.literal hcut, h.nonempty segment hmem, not_mem_of_mem_split (h.mem_suffix hmem)⟩
  | some found =>
    obtain ⟨hne, hsl, hac⟩ := hfl segment (h.mem_suffix hmem) _ _ hcut
    rw [fillSegment_value hcut]
    exact ⟨.value hcut hne hac, hne, hsl⟩

theorem lookup_bound_map {value : String → String} (patterns : List String)
    (values : GoMap String String) (key : String) :
    (bound patterns (patterns.map (fillSegment value)) values).lookup key =
      if key ∈ patterns.filterMap placeholderOf then some (value key) else values.lookup key := by
  induction patterns generalizing values with
  | nil => simp [bound]
  | cons pattern patterns ih =>
    rw [map_cons, bound, filterMap_cons]
    cases hpl : placeholderOf pattern with
    | none => exact ih values
    | some placeholder =>
      have hfl : fillSegment value pattern = value placeholder := by
        unfold placeholderOf at hpl
        unfold fillSegment
        split at hpl
        · rw [Option.some.inj hpl]
        · cases hpl
      rw [ih, hfl]
      by_cases hkey : key = placeholder
      · subst hkey
        simp
      · simp [hkey]

theorem map_fillSegment_congr {value value' : String → String}
    (h : ∀ key ∈ patterns.filterMap placeholderOf, value key = value' key) :
    patterns.map (fillSegment value) = patterns.map (fillSegment value') := by
  refine map_congr_left fun pattern hmem => ?_
  unfold fillSegment
  split
  · rename_i key _ hkey
    exact h key (mem_filterMap.mpr ⟨pattern, hmem, by rw [placeholderOf, hkey]⟩)
  · rfl

theorem exists_fillSegment (h : List.Forall₂ Reads patterns parts)
    (hnd : (patterns.filterMap placeholderOf).Nodup) :
    ∃ value, parts = patterns.map (fillSegment value) := by
  induction h with
  | nil => exact ⟨fun _ => "", rfl⟩
  | @cons pattern part patterns parts hrd _ ih =>
    cases hrd with
    | literal hcut =>
      have hpl : placeholderOf pattern = none := by rw [placeholderOf, hcut]
      rw [filterMap_cons, hpl] at hnd
      obtain ⟨value, hvl⟩ := ih hnd
      exact ⟨value, by rw [map_cons, ← hvl, fillSegment_literal hcut]⟩
    | value hcut hne hac =>
      rename_i name constraint
      have hpl : placeholderOf pattern = some name := by rw [placeholderOf, hcut]
      rw [filterMap_cons, hpl] at hnd
      obtain ⟨hfr, hnd⟩ := nodup_cons.mp hnd
      obtain ⟨value, hvl⟩ := ih hnd
      refine ⟨update value name part, ?_⟩
      -- the other segments do not see the new value
      have hrs : patterns.map (fillSegment (update value name part)) =
          patterns.map (fillSegment value) :=
        map_fillSegment_congr fun key hkey =>
          update_of_ne (ne_of_mem_of_not_mem hkey hfr) part value
      rw [map_cons, hrs, ← hvl, fillSegment_value hcut, update_self]

/-! ## A table whose routes are apart -/

/-- Two routes that one request could be for exclude each other somewhere. -/
def OciRoute.ApartFrom (route route' : OciRoute H) : Prop :=
  route.method = route'.method → route.trailingSlash = route'.trailingSlash →
    tailsApart route.segments route'.segments = true

instance (route route' : OciRoute H) : Decidable (route.ApartFrom route') :=
  inferInstanceAs (Decidable (_ → _ → _))

/-- No request fits both. -/
def OciRoute.Excludes (route route' : OciRoute H) : Prop :=
  ∀ method trailingSlash parts, route.Fits method trailingSlash parts →
    ¬ route'.Fits method trailingSlash parts

instance : Std.Symm (OciRoute.Excludes (H := H)) where
  symm _ _ h method trailingSlash parts hfits' hfits := h method trailingSlash parts hfits hfits'

theorem OciRoute.ApartFrom.excludes {route route' : OciRoute H} (h : route.ApartFrom route') :
    route.Excludes route' := by
  intro method trailingSlash parts hft hft'
  have hap := h (hft.method_eq.trans hft'.method_eq.symm)
    (hft.slash_eq.trans hft'.slash_eq.symm)
  rw [not_tailsApart_of_fits hft hft'] at hap
  cases hap

theorem path_eq_nil (h : join parts '/' = "") (hne : parts ≠ [])
    (hsl : ∀ part ∈ parts, '/' ∉ part.toList) : parts = [""] := by
  rw [← split_join hne hsl, h]
  rfl

theorem cutSlash_join (hls : ∀ part ∈ parts.getLast?, part ≠ "") (hne : parts ≠ [])
    (hsl : ∀ part ∈ parts, '/' ∉ part.toList) (trailingSlash : Bool) :
    cutSlash (join parts '/' ++ if trailingSlash then "/" else "") =
      (join parts '/', trailingSlash) := by
  cases trailingSlash with
  | true =>
    have hcut : cutSuffix (join parts '/' ++ "/") "/" = some (join parts '/') :=
      cutSuffix_eq_some.mpr rfl
    rw [if_pos rfl, cutSlash, hcut]
  | false =>
    rw [if_neg Bool.false_ne_true, String.append_empty, cutSlash]
    cases hcut : cutSuffix (join parts '/') "/" with
    | none => rfl
    | some trimmed =>
      have hpr := split_join hne hsl
      rw [cutSuffix_eq_some.mp hcut, split_slash] at hpr
      exact absurd rfl (hls "" (by simp [← hpr]))

theorem matchOCI_join (hls : ∀ part ∈ parts.getLast?, part ≠ "") (hne : parts ≠ [])
    (hsl : ∀ part ∈ parts, '/' ∉ part.toList) (router : Router H) (method : String)
    (trailingSlash : Bool) :
    router.matchOCI method ("/v2/" ++ (join parts '/' ++ if trailingSlash then "/" else "")) =
      firstMatch method trailingSlash parts router.oci := by
  have hem : (join parts '/' ++ if trailingSlash then "/" else "") ≠ "" := by
    intro hem
    obtain ⟨hjn, -⟩ := String.append_eq_empty_iff.mp hem
    have hsn := path_eq_nil hjn hne hsl
    exact absurd rfl (hls "" (by simp [hsn]))
  have hcut : cutPrefix ("/v2/" ++ (join parts '/' ++ if trailingSlash then "/" else "")) "/v2/" =
      some (join parts '/' ++ if trailingSlash then "/" else "") := cutPrefix_eq_some.mpr rfl
  rw [Router.matchOCI, hcut]
  simp only [if_neg hem, cutSlash_join hls hne hsl, split_join hne hsl]

section Table

variable {regs : List (Registration H)} {router : Router H}
variable (hregister : regs.foldlM Router.handleOCI {} = .ok router)

include hregister

theorem mem_router {route : OciRoute H} : route ∈ router.oci ↔ ∃ reg ∈ regs, reg.route = route := by
  rw [(mem_oci_of_foldlM hregister).2]
  simp

theorem router_readable : ∀ route ∈ router.oci, route.Readable := by
  intro route hmem
  obtain ⟨reg, hreg, rfl⟩ := (mem_router hregister).mp hmem
  exact ((mem_oci_of_foldlM hregister).1 reg hreg).readable

theorem eq_of_fits (hap : (regs.map Registration.route).Pairwise OciRoute.ApartFrom)
    {route route' : OciRoute H} (hmem : route ∈ router.oci) (hmem' : route' ∈ router.oci)
    {method : String} {trailingSlash : Bool} (hft : route.Fits method trailingSlash parts)
    (hft' : route'.Fits method trailingSlash parts) : route = route' := by
  by_contra hne
  have hrt : ∀ {route}, route ∈ router.oci → route ∈ regs.map Registration.route :=
    fun hmem => mem_map.mpr ((mem_router hregister).mp hmem)
  exact (hap.imp fun h => h.excludes).forall (hrt hmem) (hrt hmem') hne _ _ _ hft hft'

theorem matchOCI_fill (hap : (regs.map Registration.route).Pairwise OciRoute.ApartFrom)
    {reg : Registration H} (hreg : reg ∈ regs) (name : String) {value : String → String}
    (hfl : Fills reg.suffix value) :
    ∃ found, router.matchOCI reg.method ("/v2/" ++ name ++ fill reg.suffix value) =
        .ok (some found) ∧
      found.permission = reg.permission ∧ found.handler = reg.handler ∧ found.name = name ∧
      ∀ key, found.values.lookup key =
        if key ∈ placeholders reg.suffix then some (value key) else none := by
  have hac := (mem_oci_of_foldlM hregister).1 reg hreg
  have hrd : ∀ segment ∈ reg.route.segments, Reads segment (fillSegment value segment) ∧
      fillSegment value segment ≠ "" ∧ '/' ∉ (fillSegment value segment).toList :=
    fun segment => reads_fillSegment hac hfl
  set tail := reg.route.segments.map (fillSegment value) with htl
  set parts := split name '/' ++ tail with hpr
  have hlen : parts.length - reg.route.segments.length = (split name '/').length := by
    simp [hpr, htl]
  have hnil : tail ≠ [] := by
    simpa [htl] using Registration.Accepted.segments_ne_nil
  have hdr : parts.drop (parts.length - reg.route.segments.length) = tail := by
    rw [hlen, hpr, drop_left]
  have htk : parts.take (parts.length - reg.route.segments.length) = split name '/' := by
    rw [hlen, hpr, take_left]
  have hsl : ∀ part ∈ parts, '/' ∉ part.toList := by
    intro part hpt
    rcases mem_append.mp hpt with hpt | hpt
    · exact not_mem_of_mem_split hpt
    · obtain ⟨segment, hsg, rfl⟩ := mem_map.mp hpt
      exact (hrd segment hsg).2.2
  have hls : ∀ part ∈ parts.getLast?, part ≠ "" := by
    intro part hpt
    rw [hpr, List.getLast?_append_of_ne_nil _ hnil] at hpt
    obtain ⟨segment, hsg, rfl⟩ := mem_map.mp (mem_of_getLast? hpt)
    exact (hrd segment hsg).2.1
  have hne : parts ≠ [] := by simp [hpr, hnil]
  have hph : "/v2/" ++ name ++ fill reg.suffix value =
      "/v2/" ++ (join parts '/' ++ if reg.route.trailingSlash then "/" else "") := by
    rw [hac.fill_eq, hpr, join_append (split_ne_nil name _) hnil, join_split]
    simp only [String.append_assoc]
    rfl
  have hft : reg.route.Fits reg.method reg.route.trailingSlash parts := by
    refine ⟨rfl, rfl, ?_, ?_⟩
    · have hpos := length_pos_iff.mpr (split_ne_nil name '/')
      omega
    · rw [hdr, htl, List.forall₂_map_right_iff]
      exact List.forall₂_same.mpr fun segment hmem => (hrd segment hmem).1
  refine ⟨reg.route.found parts, ?_, rfl, rfl, ?_, fun key => ?_⟩
  · rw [hph, matchOCI_join hls hne hsl]
    have hmem : reg.route ∈ router.oci := (mem_router hregister).mpr ⟨reg, hreg, rfl⟩
    exact firstMatch_of_unique (router_readable hregister) hmem hft fun route' hmem' hft' =>
      eq_of_fits hregister hap hmem' hmem hft' hft
  · show join (parts.take _) '/' = name
    rw [htk, join_split]
  · rw [OciRoute.found_values, hdr, htl, lookup_bound_map, hac.placeholders_eq, AList.lookup_empty]

theorem path_of_matchOCI (hnd : ∀ reg ∈ regs, (placeholders reg.suffix).Nodup)
    {method path : String} {found : OciMatch H}
    (h : router.matchOCI method path = .ok (some found)) :
    ∃ reg ∈ regs, reg.method = method ∧ found.permission = reg.permission ∧
      found.handler = reg.handler ∧
      path = "/v2/" ++ found.name ++
        fill reg.suffix fun key => (found.values.lookup key).getD "" := by
  unfold Router.matchOCI at h
  cases hcut : cutPrefix path "/v2/" with
  | none => simp [hcut] at h
  | some rest =>
    simp only [hcut] at h
    have hem : rest ≠ "" := by
      intro hem
      rw [if_pos hem] at h
      cases h
    rw [if_neg hem] at h
    obtain ⟨route, hmem, hft, rfl⟩ := fits_of_firstMatch (router_readable hregister) h
    obtain ⟨reg, hreg, rfl⟩ := (mem_router hregister).mp hmem
    have hac := (mem_oci_of_foldlM hregister).1 reg hreg
    refine ⟨reg, hreg, hft.method_eq, rfl, rfl, ?_⟩
    set parts := split (cutSlash rest).1 '/' with hpr
    set n := parts.length - reg.route.segments.length with hn
    have hnd := hnd reg hreg
    rw [hac.placeholders_eq] at hnd
    obtain ⟨value, hvl⟩ := exists_fillSegment hft.reads hnd
    have hlk : ∀ key ∈ reg.route.segments.filterMap placeholderOf,
        ((reg.route.found parts).values.lookup key).getD "" = value key := by
      intro key hkey
      rw [OciRoute.found_values, ← hn, hvl, lookup_bound_map, if_pos hkey, Option.getD_some]
    have htl : parts.drop n = reg.route.segments.map
        (fillSegment fun key => ((reg.route.found parts).values.lookup key).getD "") := by
      rw [hvl]
      exact map_fillSegment_congr fun key hkey => (hlk key hkey).symm
    have hln := hft.longer
    have htk : parts.take n ≠ [] := by
      rw [Ne, take_eq_nil_iff]
      rintro (hzr | hnil)
      · omega
      · simp [hnil] at hln
    have hdr : parts.drop n ≠ [] := by
      rw [hvl]
      simpa using Registration.Accepted.segments_ne_nil
    have hjn : join parts '/' = (reg.route.found parts).name ++ "/" ++ join (parts.drop n) '/' := by
      conv_lhs => rw [← take_append_drop n parts]
      exact join_append htk hdr
    rw [cutPrefix_eq_some.mp hcut, cutSlash_eq rest, ← hft.slash_eq, hac.fill_eq, ← htl,
      ← join_split (cutSlash rest).1 '/', ← hpr, hjn]
    simp only [String.append_assoc]

end Table

end Trove.Server
