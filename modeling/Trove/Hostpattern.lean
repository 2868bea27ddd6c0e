import Mathlib.Data.List.Infix
import Trove.Lib.Except
import Trove.Lib.Strings

/-!
# Host patterns

The grammar for naming a host a proxy client may be sent to: an exact host, or `*.` and a domain for
its subdomains. `matches` is total, and a pattern it cannot make sense of matches nothing;
`validate` is what an operator may store. A wildcard over one to three numbers is accepted although
its subdomains are addresses.
-/

namespace Trove.Hostpattern

open Lib List Strings

def lastColon (cs : List Char) : Option ℕ :=
  (cs.reverse.findIdx? (· = ':')).map fun i => cs.length - 1 - i

def splitHostPort (hostport : String) : Option String :=
  let cs := hostport.toList
  match lastColon cs with
  | none => none
  | some i =>
    if cs.head? = some '[' then
      -- the last colon must follow the closing bracket of the address
      match cs.findIdx? (· = ']') with
      | none => none
      | some close =>
        if close + 1 ≠ i then none
        else if (cs.drop 1).contains '[' || (cs.drop (close + 1)).contains ']' then none
        else some (String.ofList ((cs.take close).drop 1))
    else if (cs.take i).contains ':' then none
    else if cs.contains '[' || cs.contains ']' then none
    else some (String.ofList (cs.take i))

def «matches» (host pattern : String) : Bool :=
  let pattern := Strings.toLower (Strings.trimSpace pattern)
  let host := Strings.toLower (Strings.trimSpace host)
  if pattern = "" || host = "" then false
  else
    -- a port of the pattern is ignored
    let pattern := (splitHostPort pattern).getD pattern
    if Strings.hasPrefix pattern "*." then
      let suffix := String.ofList (pattern.toList.drop 2)
      suffix ≠ "" && Strings.hasSuffix host ("." ++ suffix)
    else host = pattern

example : «matches» "Auth.docker.io" "auth.docker.io:443" = true := by decide
example : «matches» "docker.com" "*.docker.com" = false := by decide

/-! ## What is accepted -/

def maxNameLength : ℕ := 253
def maxLabelLength : ℕ := 63

def isHostRune (c : Char) : Bool :=
  ('a' ≤ c && c ≤ 'z') || ('A' ≤ c && c ≤ 'Z') || ('0' ≤ c && c ≤ '9') || c = '-'

def isOctet (field : String) : Bool :=
  field ≠ "" && field.toList.all Char.isDigit &&
    (field.toList.head? ≠ some '0' || field.toList.length = 1) &&
    decide (field.toList.foldl (fun (n : ℕ) c => 10 * n + (c.toNat - '0'.toNat)) 0 ≤ 255)

/-- An IPv4 address. -/
def isIP (host : String) : Bool :=
  (Strings.split host '.').length = 4 && (Strings.split host '.').all isOctet

variable (quote : String → String) (quoteRune : Char → String)

/-- The text of every refusal. -/
def refuse (pattern reason : String) : Except String Unit :=
  .error ("invalid host pattern " ++ quote pattern ++ ": " ++ reason)

/-- One label of a name. -/
def validateLabel (pattern label : String) : Except String Unit :=
  if label = "" then refuse quote pattern "has an empty label"
  else if Strings.len label > maxLabelLength then
    refuse quote pattern ("has a label longer than " ++ toString maxLabelLength ++ " characters")
  else if Strings.hasPrefix label "-" || Strings.hasSuffix label "-" then
    refuse quote pattern "has a label starting or ending with a hyphen"
  else
    match label.toList.find? (!isHostRune ·) with
    | some c => refuse quote pattern
        ("contains " ++ quoteRune c ++ ", which is not a letter, digit, or hyphen")
    | none => .ok ()

/-- A name, or an address. -/
def validateHost (pattern host : String) : Except String Unit :=
  if Strings.contains host '*' then
    refuse quote pattern "may only use \"*\" as the first label, as in \"*.example.com\""
  else if isIP host then
    if pattern ≠ host then refuse quote pattern "must not use a wildcard over an IP address"
    else .ok ()
  else (Strings.split host '.').forM (validateLabel quote quoteRune pattern)

def validate (pattern : String) : Except String Unit :=
  if Strings.trimSpace pattern ≠ pattern then
    refuse quote pattern "must not have leading or trailing whitespace"
  else if pattern = "" then refuse quote pattern "must not be empty"
  else if Strings.len pattern > maxNameLength then
    refuse quote pattern ("is longer than " ++ toString maxNameLength ++ " characters")
  else if "://".toList <:+: pattern.toList then refuse quote pattern "is a host, not a URL"
  else if ['/', '?', '#'].any (Strings.contains pattern ·) then
    refuse quote pattern "is a host, not a URL path"
  else if Strings.contains pattern '@' then refuse quote pattern "must not carry credentials"
  else if Strings.contains pattern ':' then
    refuse quote pattern
      "must not carry a port: the list names a host, and a port here would be ignored"
  else
    match Strings.cutPrefix pattern "*." with
    | some "" => refuse quote pattern "must name a domain after \"*.\""
    | some suffix => validateHost quote quoteRune pattern suffix
    | none => validateHost quote quoteRune pattern pattern

/-- Non-empty labels of letters, digits and hyphens. -/
def IsHost (host : String) : Prop :=
  ∀ label ∈ Strings.split host '.', label ≠ "" ∧ ∀ c ∈ label.toList, isHostRune c = true

instance (host : String) : Decidable (IsHost host) :=
  decidable_of_iff
    ((Strings.split host '.').all fun label => label ≠ "" && label.toList.all isHostRune)
    (by simp [IsHost])

/-- One to three octets, which an address can end in. -/
def EndsAddress (domain : String) : Prop :=
  (Strings.split domain '.').length ≤ 3 ∧ ∀ label ∈ Strings.split domain '.', isOctet label = true

variable {quote quoteRune} {pattern host : String}

theorem validateLabel_ok {label : String}
    (h : validateLabel quote quoteRune pattern label = .ok ()) :
    label ≠ "" ∧ ∀ c ∈ label.toList, isHostRune c = true := by
  unfold validateLabel refuse at h
  split_ifs at h with hem
  split at h
  · cases h
  · rename_i hfn
    refine ⟨hem, fun c hc => ?_⟩
    simpa using List.find?_eq_none.mp hfn c hc

theorem isHost_of_isIP (h : isIP host = true) : IsHost host := by
  intro label hlb
  have hoc := all_eq_true.mp (Bool.and_eq_true_iff.mp h).2 label hlb
  simp only [isOctet, Bool.and_eq_true, decide_eq_true_eq, all_eq_true] at hoc
  obtain ⟨⟨⟨hne, hdg⟩, -⟩, -⟩ := hoc
  refine ⟨hne, fun c hc => ?_⟩
  have hdt := hdg c hc
  simp only [Char.isDigit, Bool.and_eq_true, decide_eq_true_eq] at hdt
  simp only [isHostRune, Bool.or_eq_true, Bool.and_eq_true, decide_eq_true_eq, Char.le_def]
  exact .inl (.inr hdt)

theorem validateHost_ok (h : validateHost quote quoteRune pattern host = .ok ()) : IsHost host := by
  unfold validateHost at h
  split_ifs at h with hst hip hsm
  · cases h
  · cases h
  · exact isHost_of_isIP hip
  · exact fun label hlb => validateLabel_ok (forM_eq_ok.mp h label hlb)

theorem validate_ok (h : validate quote quoteRune pattern = .ok ()) :
    IsHost pattern ∨ ∃ domain, pattern = "*." ++ domain ∧ IsHost domain := by
  unfold validate refuse at h
  split_ifs at h
  split at h
  · cases h
  · rename_i suffix _ hcut
    exact .inr ⟨suffix, cutPrefix_eq_some.mp hcut, validateHost_ok h⟩
  · exact .inl (validateHost_ok h)

/-! ## What a pattern matches -/

variable {c : Char} {domain : String}

theorem not_mem_of_isHost (h : IsHost host) (hdot : c ≠ '.') (hrn : isHostRune c = false) :
    c ∉ host.toList := by
  intro hc
  obtain ⟨label, hlb, hmem⟩ := mem_split_of_mem hc hdot
  have htr := (h label hlb).2 c hmem
  rw [hrn] at htr
  cases htr

theorem ne_empty_of_isHost (h : IsHost host) : host ≠ "" := by
  rintro rfl
  exact (h "" (by decide)).1 rfl

theorem graphic_of_isHost (h : IsHost host) (hc : c ∈ host.toList) :
    0x21 ≤ c.toNat ∧ c.toNat < 0x7f := by
  by_cases hdot : c = '.'
  · subst hdot
    decide
  · obtain ⟨label, hlb, hmem⟩ := mem_split_of_mem hc hdot
    have hrn := (h label hlb).2 c hmem
    simp only [isHostRune, Bool.or_eq_true, Bool.and_eq_true, decide_eq_true_eq, Char.le_def,
      UInt32.le_iff_toNat_le] at hrn
    change (((97 ≤ c.toNat ∧ c.toNat ≤ 122) ∨ (65 ≤ c.toNat ∧ c.toNat ≤ 90)) ∨
      (48 ≤ c.toNat ∧ c.toNat ≤ 57)) ∨ c = '-' at hrn
    rcases hrn with hrn | rfl
    · omega
    · decide

theorem trimSpace_of_isHost (h : IsHost host) : Strings.trimSpace host = host :=
  trimSpace_eq_self fun _ hc => isSpace_of_graphic (graphic_of_isHost h hc)

theorem mem_toLower {s : String} (has : c.toNat < 128) (hc : ¬ ('a' ≤ c ∧ c ≤ 'z')) :
    c ∈ (Strings.toLower s).toList → c ∈ s.toList := by
  rw [Strings.toLower, String.toList_ofList, mem_map]
  rintro ⟨b, hb, hlw⟩
  rwa [← Unicode.eq_of_toLower_eq hlw has hc]

theorem splitHostPort_eq_none {s : String} (h : ':' ∉ s.toList) : splitHostPort s = none := by
  have hcl : lastColon s.toList = none := by
    rw [lastColon, Option.map_eq_none_iff, List.findIdx?_eq_none_iff]
    intro c hc
    rw [decide_eq_false_iff_not]
    rintro rfl
    exact h (mem_reverse.mp hc)
  simp only [splitHostPort, hcl]

theorem toLower_ne_empty (h : IsHost host) : Strings.toLower host ≠ "" := by
  intro hem
  exact ne_empty_of_isHost h (String.toList_inj.mp (by simpa [Strings.toLower] using hem))

theorem not_mem_toLower (h : IsHost host) (hcl : c = ':' ∨ c = '*') :
    c ∉ (Strings.toLower host).toList := by
  rcases hcl with rfl | rfl
  · exact fun hc => not_mem_of_isHost h (by decide) (by decide)
      (mem_toLower (by decide) (by decide) hc)
  · exact fun hc => not_mem_of_isHost h (by decide) (by decide)
      (mem_toLower (by decide) (by decide) hc)

theorem matches_host (hhs : IsHost host) (hpt : IsHost pattern) :
    «matches» host pattern = true ↔ Strings.toLower host = Strings.toLower pattern := by
  have hcl : ':' ∉ (Strings.toLower pattern).toList := not_mem_toLower hpt (.inl rfl)
  have hst : Strings.hasPrefix (Strings.toLower pattern) "*." = false := by
    rw [Bool.eq_false_iff]
    intro hpr
    exact not_mem_toLower hpt (.inr rfl)
      ((hasPrefix_iff.mp hpr).subset (mem_cons_self : '*' ∈ "*.".toList))
  simp only [«matches», trimSpace_of_isHost hhs, trimSpace_of_isHost hpt,
    splitHostPort_eq_none hcl, Option.getD_none, hst, toLower_ne_empty hpt,
    toLower_ne_empty hhs]
  simp

theorem matches_wildcard (hhs : IsHost host) (hdm : IsHost domain) :
    «matches» host ("*." ++ domain) = true ↔
      '.' :: (Strings.toLower domain).toList <:+ (Strings.toLower host).toList := by
  have htr : Strings.trimSpace ("*." ++ domain) = "*." ++ domain := by
    refine trimSpace_eq_self fun c hc => ?_
    rcases mem_append.mp (String.toList_append ▸ hc) with hc | hc
    · rcases mem_pair.mp hc with rfl | rfl <;> decide
    · exact isSpace_of_graphic (graphic_of_isHost hdm hc)
  have hlw : (Strings.toLower ("*." ++ domain)).toList =
      '*' :: '.' :: (Strings.toLower domain).toList := by
    simp [Strings.toLower, Unicode.toLower]
  have hcl : ':' ∉ (Strings.toLower ("*." ++ domain)).toList := by
    rw [hlw]
    simpa using not_mem_toLower hdm (.inl rfl)
  have hne : Strings.toLower ("*." ++ domain) ≠ "" := by
    rw [ne_eq, ← String.toList_inj, hlw]
    simp
  have hpr : Strings.hasPrefix (Strings.toLower ("*." ++ domain)) "*." = true := by
    rw [hasPrefix_iff, hlw]
    exact ⟨_, rfl⟩
  simp only [«matches», trimSpace_of_isHost hhs, htr, splitHostPort_eq_none hcl,
    Option.getD_none, hpr, hne, toLower_ne_empty hhs, hlw, drop_succ_cons,
    drop_zero, String.ofList_toList, if_true]
  simp [Strings.hasSuffix, toLower_ne_empty hdm]

/-- The host is one or more labels in front of the domain, letter case aside. -/
def Below (host domain : String) : Prop :=
  ∃ front rest, IsHost front ∧ host = front ++ "." ++ rest ∧
    Strings.toLower rest = Strings.toLower domain

theorem below_iff (hhs : IsHost host) :
    Below host domain ↔
      '.' :: (Strings.toLower domain).toList <:+ (Strings.toLower host).toList := by
  constructor
  · rintro ⟨front, rest, -, rfl, hrs⟩
    rw [← hrs]
    exact ⟨(Strings.toLower front).toList, by simp [Strings.toLower, Unicode.toLower]⟩
  · rintro ⟨before, hbf⟩
    rw [Strings.toLower, Strings.toLower, String.toList_ofList, String.toList_ofList, eq_comm,
      map_eq_append_iff] at hbf
    obtain ⟨front, behind, hsp, -, hbh⟩ := hbf
    obtain ⟨dot, rest, rfl, hdot, hrs⟩ := map_eq_cons_iff.mp hbh
    obtain rfl := Unicode.eq_of_toLower_eq hdot (by decide) (by decide)
    have heq : host = String.ofList front ++ "." ++ String.ofList rest := by
      rw [← String.toList_inj, hsp]
      simp
    refine ⟨String.ofList front, String.ofList rest, fun label hlb => hhs label ?_, heq, ?_⟩
    · rw [heq]
      exact (split_append '.' _ _).symm ▸ mem_append_left _ hlb
    · rw [Strings.toLower, Strings.toLower, String.toList_ofList, hrs]

theorem isOctet_spec {field : String} (h : isOctet field = true) :
    ∀ c ∈ field.toList, c.isDigit = true := by
  simp only [isOctet, Bool.and_eq_true, all_eq_true] at h
  exact h.1.1.2

theorem endsAddress_of_below (hbl : Below host domain) (hip : isIP host = true) :
    EndsAddress domain := by
  obtain ⟨front, rest, -, rfl, hrs⟩ := hbl
  have hsp := split_append '.' front rest
  have hfr := length_pos_iff.mpr (split_ne_nil front '.')
  rw [isIP, show "." = String.singleton '.' from rfl, hsp] at hip
  simp only [length_append, Bool.and_eq_true, decide_eq_true_eq, all_append,
    all_eq_true] at hip
  -- the octets have no letters, so the domain is spelled as they are
  have hpl : ∀ c ∈ rest.toList, c.toNat < 128 ∧ ¬ ('a' ≤ c ∧ c ≤ 'z') ∧ c.toLower = c := by
    intro c hc
    by_cases hdot : c = '.'
    · subst hdot
      decide
    · obtain ⟨label, hlb, hmem⟩ := mem_split_of_mem hc hdot
      have hdg := isOctet_spec (hip.2.2 label hlb) c hmem
      simp only [Char.isDigit, Bool.and_eq_true, decide_eq_true_eq] at hdg
      refine ⟨(UInt32.le_iff_toNat_le.mp hdg.2).trans_lt (by decide), fun hlt => ?_, ?_⟩
      · exact absurd (hlt.1.trans hdg.2) (by decide)
      · unfold Char.toLower
        split
        · rename_i hup
          exact absurd (UInt32.le_trans hup.1 hdg.2) (by decide)
        · rfl
  have heq : domain = rest := by
    have hlw : domain.toList.map Unicode.toLower = rest.toList := by
      have := congrArg String.toList hrs
      rw [Strings.toLower, Strings.toLower, String.toList_ofList, String.toList_ofList,
        map_congr_left fun c hc => (Unicode.toLower_of_ascii (hpl c hc).1).trans (hpl c hc).2.2,
        map_id'] at this
      exact this.symm
    rw [← String.toList_inj, ← hlw]
    refine (map_id' _).symm.trans (map_congr_left fun c hc => ?_)
    obtain ⟨has, hlt, -⟩ := hpl _ (hlw ▸ mem_map_of_mem hc)
    exact Unicode.eq_of_toLower_eq rfl has hlt
  rw [heq]
  exact ⟨by omega, hip.2.2⟩

/-- An address that ends in the octets. -/
theorem exists_address (h : EndsAddress domain) :
    ∃ front, IsHost front ∧ isIP (front ++ "." ++ domain) = true := by
  obtain ⟨hlen, hoc⟩ := h
  have hne := length_pos_iff.mpr (split_ne_nil domain '.')
  have haddr (front : String) (hfr : (Strings.split front '.').all isOctet = true)
      (hsum : (Strings.split front '.').length + (Strings.split domain '.').length = 4) :
      isIP (front ++ "." ++ domain) = true := by
    have hsp : Strings.split (front ++ "." ++ domain) '.' = _ := split_append '.' front domain
    rw [isIP, hsp, length_append, all_append, hsum, hfr]
    simpa using hoc
  -- as many zeros in front as are missing to four
  obtain hln | hln | hln : (Strings.split domain '.').length = 1 ∨
      (Strings.split domain '.').length = 2 ∨ (Strings.split domain '.').length = 3 := by omega
  · exact ⟨"0.0.0", by decide +kernel, haddr _ (by decide +kernel) (by rw [hln]; decide +kernel)⟩
  · exact ⟨"0.0", by decide +kernel, haddr _ (by decide +kernel) (by rw [hln]; decide +kernel)⟩
  · exact ⟨"0", by decide +kernel, haddr _ (by decide +kernel) (by rw [hln]; decide +kernel)⟩

theorem toLower_ne_wildcard (h : IsHost host) :
    Strings.toLower host ≠ Strings.toLower ("*." ++ domain) := by
  intro heq
  refine not_mem_toLower h (.inr rfl) ?_
  rw [heq]
  simp [Strings.toLower, Unicode.toLower]

theorem matches_iff (hpattern : validate quote quoteRune pattern = .ok ()) (hhost : IsHost host) :
    «matches» host pattern = true ↔ Strings.toLower host = Strings.toLower pattern ∨
      ∃ domain, pattern = "*." ++ domain ∧ Below host domain := by
  rcases validate_ok hpattern with hec | ⟨domain, rfl, hdm⟩
  · rw [matches_host hhost hec]
    refine (or_iff_left ?_).symm
    rintro ⟨domain, rfl, -⟩
    exact not_mem_of_isHost hec (by decide) (by decide)
      (by simp : '*' ∈ ("*." ++ domain).toList)
  · rw [matches_wildcard hhost hdm, ← below_iff hhost, or_iff_right (toLower_ne_wildcard hhost)]
    constructor
    · exact fun hbl => ⟨domain, rfl, hbl⟩
    · rintro ⟨domain', heq, hbl⟩
      rwa [(String.append_right_inj "*.").mp heq]

/-- **Patterns grant what they say.** An accepted pattern matches, of the hosts of non-empty labels
of letters, digits and hyphens, exactly the host it spells, letter case aside, or, when it is `*.`
and a domain, the hosts below the domain that are not addresses: this is so exactly if the pattern
is no wildcard over one to three octets. -/
theorem matches_exact (quote : String → String) (quoteRune : Char → String) {pattern : String}
    (hpattern : validate quote quoteRune pattern = .ok ()) :
    (∀ domain, pattern = "*." ++ domain → ¬ EndsAddress domain) ↔
      ∀ host, IsHost host →
        («matches» host pattern = true ↔ Strings.toLower host = Strings.toLower pattern ∨
          ∃ domain, pattern = "*." ++ domain ∧ Below host domain ∧ isIP host = false) ∧
        ∀ domain, pattern = "*." ++ domain → isIP host = true → «matches» host pattern = false := by
  constructor
  · intro hnames host hhost
    have hname : ∀ domain, pattern = "*." ++ domain → Below host domain → isIP host = false :=
      fun domain heq hbl => Bool.eq_false_iff.mpr fun hip =>
        hnames domain heq (endsAddress_of_below hbl hip)
    constructor
    · rw [matches_iff hpattern hhost]
      refine or_congr_right (exists_congr fun domain => and_congr_right fun heq => ?_)
      exact ⟨fun hbl => ⟨hbl, hname domain heq hbl⟩, And.left⟩
    · intro domain heq hip
      rw [Bool.eq_false_iff, ne_eq, matches_iff hpattern hhost, heq,
        or_iff_right (toLower_ne_wildcard hhost)]
      rintro ⟨domain', heq', hbl⟩
      rw [hname domain' (heq.trans heq') hbl] at hip
      cases hip
  · intro hexact domain heq hend
    obtain ⟨front, hfront, hip⟩ := exists_address hend
    have hhost := isHost_of_isIP hip
    have hno := (hexact _ hhost).2 domain heq hip
    rw [(matches_iff hpattern hhost).mpr
      (.inr ⟨domain, heq, front, domain, hfront, rfl, rfl⟩)] at hno
    cases hno

/-- A host two labels below its domain. -/
theorem matches_exact_production :
    validate id String.singleton "*.docker.com" = .ok () ∧
      «matches» "production.cloudflare.docker.com" "*.docker.com" = true := by
  have hpt : validate id String.singleton "*.docker.com" = .ok () := by decide +kernel
  have hnm : ∀ domain, "*.docker.com" = "*." ++ domain → ¬ EndsAddress domain := by
    intro domain heq hen
    have hcut := cutPrefix_eq_some.mpr heq
    cases hcut
    exact absurd (hen.2 "docker" (by decide +kernel)) (by decide)
  refine ⟨hpt, ((matches_exact id String.singleton hpt).mp hnm _ (by decide +kernel)).1.mpr ?_⟩
  exact .inr ⟨"docker.com", by decide, ⟨"production.cloudflare", "docker.com", by decide +kernel,
    by decide, rfl⟩, by decide +kernel⟩

/-- A wildcard over three octets is accepted, and matches a public address. -/
theorem wildcard_over_octets :
    validate id String.singleton "*.8.8.8" = .ok () ∧ IsHost "8.8.8.8" ∧ isIP "8.8.8.8" = true ∧
      «matches» "8.8.8.8" "*.8.8.8" = true := by
  decide +kernel

end Trove.Hostpattern
