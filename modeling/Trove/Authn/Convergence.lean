import Trove.Authn.Bootstrap

/-!
# Bootstrap converges

`Reached` holds between any two calls of any boots from the store as it is made (`bootstrap_meets`),
and a boot that completes leaves the store bootstrapped. Once the admin is a user with a credential,
a boot only ever writes roles (`bootstrap_quiet`).
-/

namespace Trove.Bootstrap

open Lib Meta List Table

/-! ## Reading the store -/

/-- The call only reads. -/
def Call.reads : Call → Bool
  | .getRole _ => true
  | .listSubjects _ => true
  | .getUserCredential _ => true
  | _ => false

section Steps

variable {quote : String → String} {α : Type} {cut : World → Prop} {w : World}

variable {c : Call} {s : Identity} {x : Subject}

variable {f : c.Reply → Program Call.Reply α} {post : α → World → Prop}

theorem meets_perform (hcut : cut w)
    (h : (f (handle quote c () w).1).Meets (handle quote) cut post (handle quote c () w).2) :
    (Program.perform c >>= f).Meets (handle quote) cut post w := ⟨hcut, fun _ => h⟩

theorem meets_step {r : c.Reply} (hcut : cut w) (hst : c.perform quote w.store = (r, s))
    (h : (f r).Meets (handle quote) cut post ⟨s, w.calls ++ [c]⟩) :
    (Program.perform c >>= f).Meets (handle quote) cut post w := by
  refine meets_perform hcut ?_
  rw [handle, hst]
  exact h

theorem settle_ok {s' : Identity} {x : Except Meta.Error Identity} (h : x = .ok s') :
    settle s x = (.ok (), s') := by
  rw [h, settle]

theorem settle_error {x : Except Meta.Error Identity} {err : Meta.Error} (h : x = .error err) :
    settle s x = (.error err, s) := by
  rw [h, settle]

theorem store_of_reads (h : c.reads = true) (w : World) :
    (handle quote c () w).2.store = w.store := by
  cases c <;> first | rfl | cases h

theorem reply_listSubjects (v : Visibility) (cursor : String) (w : World) :
    (handle quote (.listSubjects ⟨v, maxPageSize, cursor⟩) () w).1 =
      .ok (pageAt Subject.name "" 1000 cursor w.store.subjects.values) := rfl

theorem tally_hasUser (l : List Subject) (t : Tally) :
    (l.foldl Tally.add t).hasUser = (t.hasUser || l.any (·.kind = .user)) := by
  induction l generalizing t with
  | nil => simp
  | cons x l ih =>
    rw [foldl_cons, ih, any_cons]
    by_cases hkn : x.kind = .user <;> simp [Tally.add, hkn]

theorem tally_admin_of_absent {l : List Subject} (h : ∀ x ∈ l, x.name ≠ adminName) (t : Tally) :
    (l.foldl Tally.add t).admin = t.admin := by
  induction l generalizing t with
  | nil => rfl
  | cons x l ih =>
    rw [foldl_cons, ih fun y hy => h y (mem_cons_of_mem x hy), Tally.add,
      if_neg (h x mem_cons_self)]

theorem tally_admin {l : List Subject} (h : ∀ y ∈ l, y.name = adminName → y = x)
    (hnm : x.name = adminName) {t : Tally} (hx : t.admin = some x ∨ x ∈ l) :
    (l.foldl Tally.add t).admin = some x := by
  induction l generalizing t with
  | nil => simpa using hx
  | cons y l ih =>
    refine ih (fun z hz => h z (mem_cons_of_mem y hz)) ?_
    by_cases hy : y.name = adminName
    · exact .inl (by rw [Tally.add, if_pos hy, h y mem_cons_self hy])
    · rw [Tally.add, if_neg hy]
      refine hx.imp_right fun hmem => (mem_cons.mp hmem).resolve_left ?_
      rintro rfl
      exact hy hnm

theorem tallySubjects_meets (hcut : ∀ c w, c.reads = true → cut w → cut (handle quote c () w).2)
    (hw : cut w) (pages : ℕ) (cursor : String) (t : Tally) :
    (tallySubjects pages cursor t).Meets (handle quote) cut (fun r w' =>
      cut w' ∧ w'.store = w.store ∧
        (r = .ok ((beyond Subject.name cursor w.store.subjects.values).foldl Tally.add t) ∨
          ∃ err, r = .error err ∧
            pages ≤ (beyond Subject.name cursor w.store.subjects.values).length)) w := by
  induction pages generalizing cursor t w with
  | zero => exact ⟨hw, rfl, .inr ⟨_, rfl, Nat.zero_le _⟩⟩
  | succ pages ih =>
    have hw' := hcut (.listSubjects ⟨visibleTo [], maxPageSize, cursor⟩) w rfl hw
    have hst (x : Subject) (_ : x ∈ w.store.subjects.values) (hlt : cursor < x.name) :
        "" < x.name := lt_of_le_of_lt (empty_le cursor) hlt
    have hlm : 0 < 1000 := by decide
    refine meets_perform hw ?_
    rw [reply_listSubjects]
    dsimp only
    rcases pageAt_cases w.store.subjects.nodup_map_key_values hlm "" cursor hst with
      ⟨hnx, hrw⟩ | ⟨hnx, hne, hrw⟩
    · rw [if_pos hnx, hrw]
      exact ⟨hw', rfl, .inl rfl⟩
    · rw [if_neg hnx]
      refine (ih hw' _ _).mono (fun _ h => h) ?_
      rintro r w' ⟨hcut', hsr, hr⟩
      refine ⟨hcut', hsr, ?_⟩
      rw [← hrw, foldl_append, length_append]
      refine hr.imp_right ?_
      rintro ⟨err, rfl, hpg⟩
      have hpos := length_pos_iff.mpr hne
      rw [store_of_reads rfl] at hpg
      exact ⟨err, rfl, by omega⟩

theorem mem_listed :
    x ∈ beyond Subject.name "" s.subjects.values ↔ s.subjects.lookup x.name = some x ∧
      x.name ≠ "" := by
  rw [mem_beyond, mem_values]
  exact and_congr_right fun _ => ⟨fun h => h.ne', empty_lt⟩

theorem adminNeeded_meets_user (hcut : ∀ c w, c.reads = true → cut w → cut (handle quote c () w).2)
    (hw : cut w) (hx : w.store.subjects.lookup adminName = some x) (hkn : x.kind = .user)
    (pages : ℕ) :
    (adminNeeded pages).Meets (handle quote) cut (fun r w' =>
      cut w' ∧ w'.store = w.store ∧
        (r = .ok (w.store.userCredentials.lookup adminName).isNone ∨
          ∃ err, r = .error err ∧ pages ≤ w.store.subjects.values.length)) w := by
  refine Program.Meets.bind ((tallySubjects_meets hcut hw pages "" {}).mono (fun _ h => h) ?_)
  rintro r w' ⟨hw', hst, rfl | ⟨err, rfl, hpg⟩⟩
  · have hnm : x.name = adminName := key_of_lookup hx
    have hls : x ∈ beyond Subject.name "" w.store.subjects.values :=
      mem_listed.mpr ⟨hnm ▸ hx, hnm ▸ by decide⟩
    have had := tally_admin (t := {}) (fun y hy hyn => Option.some.inj
      ((hyn ▸ (mem_listed.mp hy).1).symm.trans hx)) hnm (.inr hls)
    have hus : ((beyond Subject.name "" w.store.subjects.values).foldl Tally.add {}).hasUser =
        true := by
      rw [tally_hasUser, Bool.false_or, any_eq_true]
      exact ⟨x, hls, decide_eq_true hkn⟩
    simp only [had, hus, hkn, ne_eq, not_true_eq_false, if_false, Bool.not_true,
      Bool.false_eq_true]
    refine meets_perform hw' ?_
    have hw'' := hcut (.getUserCredential adminName) w' rfl hw'
    have hrp : (handle quote (.getUserCredential adminName) () w').1 =
        w.store.getUserCredential adminName := by rw [← hst]; rfl
    rw [hrp, Identity.getUserCredential]
    cases w.store.userCredentials.lookup adminName with
    | none | some cred => exact ⟨hw'', hst, .inl rfl⟩
  · exact ⟨hw', hst, .inr ⟨err, rfl, hpg.trans (length_beyond_le _ _)⟩⟩

theorem adminNeeded_meets_nobody
    (hcut : ∀ c w, c.reads = true → cut w → cut (handle quote c () w).2) (hw : cut w)
    (hx : w.store.subjects.lookup adminName = none)
    (hnb : ∀ x ∈ w.store.subjects.values, x.kind ≠ .user) (pages : ℕ) :
    (adminNeeded pages).Meets (handle quote) cut (fun r w' =>
      cut w' ∧ w'.store = w.store ∧
        (r = .ok true ∨ ∃ err, r = .error err ∧ pages ≤ w.store.subjects.values.length)) w := by
  refine Program.Meets.bind ((tallySubjects_meets hcut hw pages "" {}).mono (fun _ h => h) ?_)
  rintro r w' ⟨hw', hst, rfl | ⟨err, rfl, hpg⟩⟩
  · have had : ((beyond Subject.name "" w.store.subjects.values).foldl Tally.add {}).admin =
        none := by
      refine tally_admin_of_absent (fun x hls hnm => ?_) {}
      have hlk := (mem_listed.mp hls).1
      rw [hnm, hx] at hlk
      cases hlk
    have hus : ((beyond Subject.name "" w.store.subjects.values).foldl Tally.add {}).hasUser =
        false := by
      rw [tally_hasUser, Bool.false_or, any_eq_false]
      exact fun x hls => by simpa using hnb x (mem_beyond.mp hls).1
    simp only [had, hus]
    exact ⟨hw', hst, .inl rfl⟩
  · exact ⟨hw', hst, .inr ⟨err, rfl, hpg.trans (length_beyond_le _ _)⟩⟩

end Steps

/-! ## What is reached -/

def shipped (role : Authz.Role) : Meta.Role := ⟨role.name, true, role.verbs.map Authz.Verb.text⟩

theorem storedRole_shipped {role : Authz.Role} (h : role ∈ Authz.builtinRoles) :
    Identity.storedRole (shipped role) = shipped role := by
  obtain ⟨name, verbs, -, rfl⟩ := Authz.eq_builtinRole h
  exact congrArg (Role.mk name true) (Authz.sortBy_text_sortVerbs verbs)

theorem sameVerbSet_self (verbs : List String) : sameVerbSet verbs verbs = true := by
  simp [sameVerbSet]

def Seeded (roles : List Authz.Role) (s : Identity) : Prop :=
  ∀ role ∈ roles, s.roles.lookup role.name = some (shipped role)

/-- What holds between any two calls. The credential is there only when the rest is. -/
structure Reached (s : Identity) : Prop where
  roles : ∀ stored ∈ s.roles.values, ∃ role ∈ Authz.builtinRoles, stored = shipped role
  subjects : ∀ x ∈ s.subjects.values,
    (x.kind ≠ .user ∧ x.name ≠ adminName ∧ x.id ≠ adminID) ∨ ∃ t, x = adminSubject t
  bindings : ∀ b ∈ s.bindings.values, ∃ t, b = systemBinding t ∨ b = allBinding t
  credentials : ∀ c ∈ s.userCredentials.values, c.mustRotate = true
  complete : s.userCredentials.Has adminName →
    s.subjects.Has adminName ∧ s.bindings.Has adminSystemBindingID ∧
      s.bindings.Has adminAllBindingID

theorem reached_new : Reached Identity.new where
  roles _ h := absurd h not_mem_nil
  subjects := forall_insert (fun _ h => absurd h not_mem_nil) (.inl (by decide))
  bindings _ h := absurd h not_mem_nil
  credentials _ h := absurd h not_mem_nil
  complete := fun ⟨_, h⟩ => by cases h

namespace Reached

variable {s : Identity}

section

variable (h : Reached s)
include h

variable {role : Authz.Role} {x : Subject} {b : Meta.Binding}

theorem eq_shipped (hrl : role ∈ Authz.builtinRoles) {stored : Meta.Role}
    (hst : s.roles.lookup role.name = some stored) : stored = shipped role := by
  obtain ⟨role', hrl', rfl⟩ := h.roles stored (mem_values_of_lookup hst)
  have hnm : (shipped role').name = role.name := key_of_lookup hst
  rw [inj_on_of_nodup_map Authz.nodup_names_builtinRoles hrl' hrl hnm]

theorem eq_adminSubject (hx : s.subjects.lookup adminName = some x) : ∃ t, x = adminSubject t :=
  (h.subjects x (mem_values_of_lookup hx)).resolve_left fun hot =>
    hot.2.1 (key_of_lookup hx)

theorem other_of_absent (hx : s.subjects.lookup adminName = none) (hmem : x ∈ s.subjects.values) :
    x.kind ≠ .user ∧ x.id ≠ adminID := by
  rcases h.subjects x hmem with ⟨hkn, -, hid⟩ | ⟨t, rfl⟩
  · exact ⟨hkn, hid⟩
  · rw [mem_values] at hmem
    cases hx.symm.trans hmem

theorem putBuiltinRole (hrl : role ∈ Authz.builtinRoles) (hab : s.roles.lookup role.name = none) :
    s.putBuiltinRole (shipped role) = .ok { s with roles := s.roles.insert (shipped role) } ∧
      Reached { s with roles := s.roles.insert (shipped role) } := by
  have hnm : (shipped role).name ≠ "" := by
    obtain ⟨name, verbs, hnm, rfl⟩ := Authz.eq_builtinRole hrl
    exact hnm
  have hfr : s.roles.lookup (shipped role).name = none := hab
  constructor
  · rw [Identity.putBuiltinRole, if_neg (by simp [shipped]), if_neg hnm,
      if_neg (by simp [hfr]), storedRole_shipped hrl]
  · exact { h with roles := forall_insert h.roles ⟨role, hrl, rfl⟩ }

theorem eq_systemBinding (hb : s.bindings.lookup adminSystemBindingID = some b) :
    ∃ t, b = systemBinding t := by
  obtain ⟨t, rfl | rfl⟩ := h.bindings b (mem_values_of_lookup hb)
  · exact ⟨t, rfl⟩
  · exact absurd (key_of_lookup hb) (by decide : adminAllBindingID ≠ adminSystemBindingID)

theorem eq_allBinding (hb : s.bindings.lookup adminAllBindingID = some b) :
    ∃ t, b = allBinding t := by
  obtain ⟨t, rfl | rfl⟩ := h.bindings b (mem_values_of_lookup hb)
  · exact absurd (key_of_lookup hb) (by decide : adminSystemBindingID ≠ adminAllBindingID)
  · exact ⟨t, rfl⟩

end

end Reached

namespace Seeded

variable {roles : List Authz.Role} {role : Authz.Role} {s : Identity}

theorem concat (h : Seeded roles s) (hrl : s.roles.lookup role.name = some (shipped role)) :
    Seeded (roles ++ [role]) s := forall_mem_concat h hrl

theorem insert (h : Seeded roles s) (hab : s.roles.lookup role.name = none) :
    Seeded (roles ++ [role]) { s with roles := s.roles.insert (shipped role) } := by
  refine concat (fun role' hrl' => ?_) ?_
  · have hlk := h role' hrl'
    have hnm : role'.name ≠ (shipped role).name := by
      intro hnm
      rw [show role'.name = role.name from hnm, hab] at hlk
      cases hlk
    exact (lookup_insert _ _).trans ((if_neg hnm).trans hlk)
  · exact (lookup_insert _ _).trans (if_pos rfl)

end Seeded

section Boots

variable {quote : String → String} {w : World}

theorem reached_of_reads (c : Call) (w : World) (hrd : c.reads = true) (h : Reached w.store) :
    Reached (handle quote c () w).2.store := by
  rwa [store_of_reads hrd]

variable {roles : List Authz.Role} {ids : List String}

theorem seedRole_meets (h : Reached w.store) (hsd : Seeded roles w.store) {role : Authz.Role}
    (hrl : role ∈ Authz.builtinRoles) :
    (seedRole role).Meets (handle quote) (fun w => Reached w.store) (fun r w' =>
      r = .ok () ∧ Reached w'.store ∧ Seeded (roles ++ [role]) w'.store ∧
        w'.store.subjects = w.store.subjects) w := by
  cases hlk : w.store.roles.lookup role.name with
  | none =>
    obtain ⟨hput, hrc⟩ := h.putBuiltinRole hrl hlk
    have hget : w.store.getRole role.name = .error (.notFound "role" role.name) := by
      rw [Identity.getRole, hlk]
    refine meets_step h (Prod.ext hget rfl) (meets_step h (settle_ok hput) ?_)
    exact ⟨rfl, hrc, hsd.insert hlk, rfl⟩
  | some stored =>
    obtain rfl := h.eq_shipped hrl hlk
    have hget : w.store.getRole role.name = .ok (shipped role) := by
      rw [Identity.getRole, hlk]
    have hsm : (shipped role).builtin &&
        sameVerbSet (shipped role).verbs (role.verbs.map Authz.Verb.text) := sameVerbSet_self _
    refine meets_step h (Prod.ext hget rfl) ?_
    dsimp only
    rw [if_pos hsm]
    exact ⟨rfl, h, hsd.concat hlk, rfl⟩

theorem seedRoles_meets (quote : String → String) (h : Reached w.store) {done : List Authz.Role}
    (hsd : Seeded done w.store) (hrl : ∀ role ∈ roles, role ∈ Authz.builtinRoles) :
    (seedRoles roles).Meets (handle quote) (fun w => Reached w.store) (fun r w' =>
      r = .ok () ∧ Reached w'.store ∧ Seeded (done ++ roles) w'.store ∧
        w'.store.subjects = w.store.subjects) w := by
  induction roles generalizing done w with
  | nil => exact ⟨rfl, h, by rwa [append_nil], rfl⟩
  | cons role roles ih =>
    obtain ⟨hro, hrl⟩ := forall_mem_cons.mp hrl
    refine Program.Meets.bind ((seedRole_meets h hsd hro).mono (fun _ h => h) ?_)
    rintro r w' ⟨rfl, hrc, hsd', hsb⟩
    rw [append_cons, ← hsb]
    exact ih hrc hsd' hrl

theorem seedBuiltinRoles_meets (quote : String → String) (h : Reached w.store) :
    seedBuiltinRoles.Meets (handle quote) (fun w => Reached w.store) (fun r w' =>
      r = .ok () ∧ Reached w'.store ∧ Seeded Authz.builtinRoles w'.store ∧
        w'.store.subjects = w.store.subjects) w := by
  have hnn : Seeded [] w.store := fun _ hrl => absurd hrl not_mem_nil
  exact seedRoles_meets quote h hnn fun _ hrl => hrl

/-! ## The admin -/

/-- The store while the admin is created: all but the credential is there. -/
structure Ready (ids : List String) (s : Identity) : Prop where
  reached : Reached s
  seeded : Seeded Authz.builtinRoles s
  subject : s.subjects.Has adminName
  bound : ∀ id ∈ ids, s.bindings.Has id
  noCredential : ¬s.userCredentials.Has adminName

/-- The store every boot works toward. -/
structure Complete (s : Identity) : Prop where
  reached : Reached s
  seeded : Seeded Authz.builtinRoles s
  credential : s.userCredentials.Has adminName

def Host.Works (host : Host) : Prop :=
  ∃ raw hash, host.random = .ok raw ∧ host.hash (host.encode raw) = .ok hash ∧ hash ≠ ""

/-- A boot completes, or fails for a cause of its own. -/
def Host.Ends (host : Host) (r : Except BootError BootstrapResult) (s : Identity) : Prop :=
  (∃ result, r = .ok result ∧ Complete s) ∨ (¬host.Works ∧ ∃ err, r = .error err ∧ Reached s)

def Passed (r : Except Meta.Error Unit) : Prop :=
  r = .ok () ∨ ∃ kind id, r = .error (.conflict kind id)

variable {s : Identity}

theorem createSubject_step (quote : String → String) (h : Reached s)
    (hsd : Seeded Authz.builtinRoles s) (hcr : ¬s.userCredentials.Has adminName) (t : Time) :
    ∃ r s', settle s (s.createSubject quote (adminSubject t)) = (r, s') ∧ Passed r ∧
      Ready [] s' := by
  have hnm : (adminSubject t).name ≠ "" := (by decide : adminName ≠ "")
  have hid : (adminSubject t).id ≠ "" := (by decide : adminID ≠ "")
  have hkn : ¬(adminSubject t).kind.valid = false := (by decide : ¬SubjectKind.user.valid = false)
  by_cases hsb : s.subjects.Has adminName
  · have hsm : (s.subjects.lookup (adminSubject t).name).isSome := has_iff_isSome.mp hsb
    have hcn : s.createSubject quote (adminSubject t) = .error (.conflict "subject" adminName) := by
      rw [Identity.createSubject, if_neg hnm, if_neg hid, if_neg hkn, if_pos hsm]
      rfl
    exact ⟨_, s, settle_error hcn, .inr ⟨_, _, rfl⟩, h, hsd, hsb, by simp, hcr⟩
  · have hnn : s.subjects.lookup adminName = none := by
      simpa [has_iff_isSome] using hsb
    have hfr : ¬s.subjects.values.any (·.id = (adminSubject t).id) = true := by
      intro hany
      obtain ⟨x, hx, heq⟩ := any_eq_true.mp hany
      exact (h.other_of_absent hnn hx).2 (of_decide_eq_true heq)
    have hok : s.createSubject quote (adminSubject t) =
        .ok { s with subjects := s.subjects.insert (adminSubject t) } := by
      rw [Identity.createSubject, if_neg hnm, if_neg hid, if_neg hkn,
        if_neg (by simpa [adminSubject] using hnn), if_neg hfr]
    refine ⟨_, _, settle_ok hok, .inl rfl, ?_, hsd, ?_, by simp, hcr⟩
    · exact { h with
        subjects := forall_insert h.subjects (.inr ⟨t, rfl⟩)
        complete := fun hhas => absurd hhas hcr }
    · exact has_insert.mpr (.inl rfl)

theorem createBinding_step (quote : String → String) (h : Ready ids s) {t : Time} {b : Meta.Binding}
    (hb : b = systemBinding t ∨ b = allBinding t) :
    ∃ r s', settle s (s.createBinding quote b) = (r, s') ∧ Passed r ∧ Ready (b.id :: ids) s' := by
  have hvl : b.id ≠ "" ∧ b.principalKind.valid ≠ false ∧ b.scope ≠ "" := by
    rcases hb with rfl | rfl
    · exact ⟨(by decide : adminSystemBindingID ≠ ""), nofun, (by decide : "system" ≠ "")⟩
    · exact ⟨(by decide : adminAllBindingID ≠ ""), nofun, (by decide : "*" ≠ "")⟩
  by_cases hbn : s.bindings.Has b.id
  · have hcn : s.createBinding quote b = .error (.conflict "binding" b.id) := by
      rw [Identity.createBinding, if_neg hvl.1, if_neg hvl.2.1, if_neg hvl.2.2,
        if_pos (has_iff_isSome.mp hbn)]
    refine ⟨_, s, settle_error hcn, .inr ⟨_, _, rfl⟩, ?_⟩
    exact { h with bound := forall_mem_cons.mpr ⟨hbn, h.bound⟩ }
  · have hrl : ¬(s.roles.lookup b.role).isNone = true := by
      obtain ⟨role, hrl, hnm⟩ := Authz.exists_roleAdmin
      have hlk := h.seeded role hrl
      rw [show b.role = role.name by rcases hb with rfl | rfl <;> exact hnm.symm, hlk]
      simp
    have hpr : ¬s.principalExists b.principalKind b.principalID = false := by
      obtain ⟨x, hx⟩ := h.subject
      obtain ⟨t', rfl⟩ := h.reached.eq_adminSubject hx
      have hany : s.principalExists .subject adminID = true :=
        any_eq_true.mpr ⟨_, mem_values_of_lookup hx, decide_eq_true rfl⟩
      rw [Bool.not_eq_false]
      rcases hb with rfl | rfl <;> exact hany
    have hgr : ¬s.bindings.values.any (·.sameGrant b) = true := by
      intro hany
      obtain ⟨b', hb', hsm⟩ := any_eq_true.mp hany
      obtain ⟨t', hb''⟩ := h.reached.bindings b' hb'
      have hid : b'.id ≠ b.id := fun heq => hbn (has_iff_mem_values.mpr ⟨b', hb', heq⟩)
      rcases hb with rfl | rfl <;> rcases hb'' with rfl | rfl <;>
        first
          | exact hid rfl
          | simp [Meta.Binding.sameGrant, systemBinding, allBinding, adminBinding] at hsm
    have hok : s.createBinding quote b = .ok { s with bindings := s.bindings.insert b } := by
      rw [Identity.createBinding, if_neg hvl.1, if_neg hvl.2.1, if_neg hvl.2.2,
        if_neg fun hso => hbn (has_iff_isSome.mpr hso), if_neg hrl, if_neg hpr,
        if_neg hgr]
    refine ⟨_, _, settle_ok hok, .inl rfl, ?_⟩
    exact {
      reached := { h.reached with
        bindings := forall_insert h.reached.bindings ⟨t, hb⟩
        complete := fun hhas => absurd hhas h.noCredential }
      seeded := h.seeded
      subject := h.subject
      bound := forall_mem_cons.mpr ⟨has_insert.mpr (.inl rfl), fun id hid =>
        has_insert.mpr (.inr (h.bound id hid))⟩
      noCredential := h.noCredential }

theorem bindAdmin_meets (h : Ready ids w.store) {bindings : List Meta.Binding}
    (hbn : ∀ b ∈ bindings, ∃ t, b = systemBinding t ∨ b = allBinding t) :
    (bindAdmin bindings).Meets (handle quote) (fun w => Reached w.store) (fun r w' =>
      r = .ok () ∧ Ready ((bindings.map Binding.id).reverse ++ ids) w'.store) w := by
  induction bindings generalizing ids w with
  | nil => exact ⟨rfl, h⟩
  | cons b bindings ih =>
    obtain ⟨⟨t, hb⟩, hbn⟩ := forall_mem_cons.mp hbn
    obtain ⟨r, s', hst, hps, hrd⟩ := createBinding_step quote h hb
    rw [map_cons, reverse_cons, append_assoc, singleton_append]
    refine meets_step h.reached hst ?_
    rcases hps with rfl | ⟨kind, id, rfl⟩ <;> exact ih hrd hbn

theorem putUserCredential_step (h : Ready [adminAllBindingID, adminSystemBindingID] s)
    {hash : String} (hhs : hash ≠ "") :
    ∃ s', settle s (s.putUserCredential ⟨adminName, hash, true, 0⟩) = (.ok (), s') ∧
      Complete s' := by
  have hsb : ¬(s.subjects.lookup adminName).isNone = true := by
    obtain ⟨x, hx⟩ := h.subject
    simp [hx]
  have hok : s.putUserCredential ⟨adminName, hash, true, 0⟩ =
      .ok { s with userCredentials := s.userCredentials.insert ⟨adminName, hash, true, 0⟩ } := by
    rw [Identity.putUserCredential, if_neg hhs, if_neg hsb]
  refine ⟨_, settle_ok hok, ?_, h.seeded, has_insert.mpr (.inl rfl)⟩
  exact { h.reached with
    credentials := forall_insert h.reached.credentials rfl
    complete := fun _ => ⟨h.subject, h.bound _ (by simp), h.bound _ (by simp)⟩ }

theorem finishAdmin_meets (h : Ready [] w.store) (host : Host) (password hash : String) :
    (finishAdmin host password hash).Meets (handle quote) (fun w => Reached w.store) (fun r w' =>
      (∃ result, r = .ok result ∧ Complete w'.store) ∨
        (hash = "" ∧ ∃ err, r = .error err ∧ Reached w'.store)) w := by
  have hbn : ∀ x ∈ [systemBinding (host.now 1), allBinding (host.now 2)],
      ∃ t, x = systemBinding t ∨ x = allBinding t := by
    simpa using ⟨⟨host.now 1, .inl rfl⟩, ⟨host.now 2, .inr rfl⟩⟩
  refine Program.Meets.bind ((bindAdmin_meets h hbn).mono (fun _ h => h) ?_)
  rintro r w' ⟨rfl, hrd⟩
  by_cases hhs : hash = ""
  · have her : w'.store.putUserCredential ⟨adminName, hash, true, 0⟩ =
        .error (.invalid "hash" "must not be empty") := by
      rw [Identity.putUserCredential, if_pos hhs]
    exact meets_step hrd.reached (settle_error her) (.inr ⟨hhs, _, rfl, hrd.reached⟩)
  · obtain ⟨s', hst, hcm⟩ := putUserCredential_step hrd hhs
    exact meets_step hrd.reached hst (.inl ⟨_, rfl, hcm⟩)

theorem createAdmin_meets (h : Reached w.store) (hsd : Seeded Authz.builtinRoles w.store)
    (hcr : ¬w.store.userCredentials.Has adminName) (host : Host) :
    (createAdmin host).Meets (handle quote) (fun w => Reached w.store)
      (fun r w' => host.Ends r w'.store)
      w := by
  unfold createAdmin Host.generatePassword
  cases hrn : host.random with
  | error err =>
    refine .inr ⟨?_, _, rfl, h⟩
    rintro ⟨raw, hash, hraw, -⟩
    cases hrn.symm.trans hraw
  | ok raw =>
    dsimp only
    cases hhs : host.hash (host.encode raw) with
    | error err =>
      refine .inr ⟨?_, _, rfl, h⟩
      rintro ⟨raw', hash, hraw, hhs', -⟩
      obtain rfl := Except.ok.inj (hrn.symm.trans hraw)
      cases hhs.symm.trans hhs'
    | ok hash =>
      obtain ⟨r, s', hst, hps, hrd⟩ := createSubject_step quote h hsd hcr (host.now 0)
      have hfn : (finishAdmin host (host.encode raw) hash).Meets (handle quote)
          (fun w => Reached w.store) (fun r w' => host.Ends r w'.store)
          ⟨s', w.calls ++ [.createSubject (adminSubject (host.now 0))]⟩ := by
        refine (finishAdmin_meets hrd host (host.encode raw) hash).mono (fun _ h => h) ?_
        rintro r w' (hok | ⟨rfl, herr⟩)
        · exact .inl hok
        · refine .inr ⟨?_, herr⟩
          rintro ⟨raw', hash', hraw, hhs', hne⟩
          obtain rfl := Except.ok.inj (hrn.symm.trans hraw)
          exact hne (Except.ok.inj (hhs'.symm.trans hhs))
      refine meets_step h hst ?_
      rcases hps with rfl | ⟨kind, id, rfl⟩ <;> exact hfn

/-- **One boot.** From a store that was reached, a boot leaves one wherever it crashes. One that
returns has completed, unless it had no password or gave up on the listing. -/
theorem bootstrap_meets (quote : String → String) (h : Reached w.store) (host : Host) :
    (bootstrap host).Meets (handle quote) (fun w => Reached w.store) (fun r w' =>
      host.Ends r w'.store ∨
        (host.pages ≤ w.store.subjects.values.length ∧ ∃ err, r = .error err ∧
          Reached w'.store)) w := by
  refine Program.Meets.bind ((seedBuiltinRoles_meets quote h).mono (fun _ h => h) ?_)
  rintro r w' ⟨rfl, hrc, hsd, hsb⟩
  rw [← hsb]
  cases hsj : w'.store.subjects.lookup adminName with
  | none =>
    have hcr : ¬w'.store.userCredentials.Has adminName := by
      intro hcr
      obtain ⟨x, hx⟩ := (hrc.complete hcr).1
      cases hsj.symm.trans hx
    refine Program.Meets.bind ((adminNeeded_meets_nobody reached_of_reads hrc hsj
      (fun x hx => (hrc.other_of_absent hsj hx).1) host.pages).mono (fun _ h => h) ?_)
    rintro r w'' ⟨hrc', hst, rfl | ⟨err, rfl, hpg⟩⟩
    · rw [← hst] at hsd hcr
      exact (createAdmin_meets hrc' hsd hcr host).mono (fun _ h => h) fun _ _ => .inl
    · exact .inr ⟨hpg, _, rfl, hrc'⟩
  | some x =>
    obtain ⟨t, rfl⟩ := hrc.eq_adminSubject hsj
    refine Program.Meets.bind ((adminNeeded_meets_user reached_of_reads hrc hsj rfl
      host.pages).mono (fun _ h => h) ?_)
    rintro r w'' ⟨hrc', hst, rfl | ⟨err, rfl, hpg⟩⟩
    · cases hcr : w'.store.userCredentials.lookup adminName with
      | none =>
        have hnn : ¬w''.store.userCredentials.Has adminName := by
          rintro ⟨cred, hsm⟩
          rw [hst, hcr] at hsm
          cases hsm
        rw [← hst] at hsd
        exact (createAdmin_meets hrc' hsd hnn host).mono (fun _ h => h) fun _ _ => .inl
      | some cred =>
        refine .inl (.inl ⟨_, rfl, hrc', hst ▸ hsd, cred, ?_⟩)
        rw [hst, hcr]
    · exact .inr ⟨hpg, _, rfl, hrc'⟩

end Boots

/-! ## Boots after boots -/

structure Bootstrapped (s : Identity) : Prop where
  roles : ∀ role ∈ Authz.builtinRoles, s.roles.lookup role.name = some (shipped role)
  user : ∃ admin, s.subjects.values.filter (·.kind = .user) = [admin] ∧ admin.name = adminName ∧
    admin.id = adminID ∧ admin.disabled = false
  credential : ∃ cred, s.userCredentials.lookup adminName = some cred ∧ cred.mustRotate = true
  system : ∃ b ∈ s.bindings.values, b.principalKind = .subject ∧ b.principalID = adminID ∧
    b.role = Authz.roleAdmin ∧ b.scope = Authz.systemScope
  everywhere : ∃ b ∈ s.bindings.values, b.principalKind = .subject ∧ b.principalID = adminID ∧
    b.role = Authz.roleAdmin ∧ b.scope = Authz.allRepositories

theorem Complete.bootstrapped {s : Identity} (h : Complete s) : Bootstrapped s := by
  obtain ⟨⟨x, hx⟩, hsy, hall⟩ := h.reached.complete h.credential
  obtain ⟨cred, hcr⟩ := h.credential
  obtain ⟨t, rfl⟩ := h.reached.eq_adminSubject hx
  have hus : s.subjects.values.filter (·.kind = .user) = [adminSubject t] := by
    rw [← filter_key_eq s.subjects.nodup_map_key_values (mem_values_of_lookup hx)]
    refine filter_congr fun y hy => ?_
    rw [decide_eq_decide]
    rcases h.reached.subjects y hy with ⟨hkn, hnm, -⟩ | ⟨t', rfl⟩
    · exact iff_of_false hkn hnm
    · exact iff_of_true rfl rfl
  obtain ⟨system, hsy⟩ := hsy
  obtain ⟨t₁, rfl⟩ := h.reached.eq_systemBinding hsy
  obtain ⟨all, hall⟩ := hall
  obtain ⟨t₂, rfl⟩ := h.reached.eq_allBinding hall
  exact {
    roles := h.seeded
    user := ⟨_, hus, rfl, rfl, rfl⟩
    credential := ⟨cred, hcr, h.reached.credentials cred (mem_values_of_lookup hcr)⟩
    system := ⟨_, mem_values_of_lookup hsy, rfl, rfl, rfl, rfl⟩
    everywhere := ⟨_, mem_values_of_lookup hall, rfl, rfl, rfl, rfl⟩ }

/-- The store a boot leaves. -/
def Boot.after (quote : String → String) (s : Identity) (b : Boot) : Identity :=
  (b.run quote s).2.store

section Boots

variable {quote : String → String} {s : Identity} {b : Boot}

theorem reached_after (h : Reached s) : Reached (b.after quote s) := by
  obtain ⟨hrt, hcut⟩ := (bootstrap_meets (w := { store := s }) quote h b.host).runWith
    (List.replicate b.calls ())
  cases hrs : (b.run quote s).1 with
  | none => exact hcut hrs
  | some r =>
    rcases hrt r hrs with (⟨_, -, hcm⟩ | ⟨-, _, -, hrc⟩) | ⟨-, _, -, hrc⟩
    · exact hcm.reached
    · exact hrc
    · exact hrc

theorem reached_boots (quote : String → String) (boots : List Boot) :
    Reached (boots.foldl (Boot.after quote) Identity.new) := by
  induction boots using List.reverseRecOn with
  | nil => exact reached_new
  | append_singleton boots b ih =>
    rw [foldl_append]
    exact reached_after ih

theorem bootstrapped_of_completed (h : Reached s) {result : BootstrapResult}
    (hrun : (b.run quote s).1 = some (.ok result)) : Bootstrapped (b.run quote s).2.store := by
  have hrt := ((bootstrap_meets (w := { store := s }) quote h b.host).runWith
    (List.replicate b.calls ())).1 _ hrun
  rcases hrt with (⟨_, -, hcm⟩ | ⟨-, _, her, -⟩) | ⟨-, _, her, -⟩
  · exact hcm.bootstrapped
  · cases her
  · cases her

theorem completes (quote : String → String) (h : Reached s) {host : Host} (hwr : host.Works)
    (hpg : s.subjects.values.length < host.pages) :
    ∃ n, ∀ m, n ≤ m → ∃ result, (Boot.run quote ⟨host, m⟩ s).1 = some (.ok result) := by
  obtain ⟨n, hn⟩ := Program.exists_runWith (handle quote) () (bootstrap host) { store := s }
  refine ⟨n, fun m hm => ?_⟩
  obtain ⟨r, hr⟩ := hn m hm
  have hrt := ((bootstrap_meets (w := { store := s }) quote h host).runWith
    (List.replicate m ())).1 r hr
  rcases hrt with (⟨result, rfl, -⟩ | ⟨hfl, -⟩) | ⟨hgv, -⟩
  · exact ⟨result, hr⟩
  · exact absurd hwr hfl
  · exact absurd hpg (not_lt.mpr hgv)

end Boots

/-! ## Later boots -/

structure Quiet (s : Identity) (w : World) : Prop where
  subjects : w.store.subjects = s.subjects
  bindings : w.store.bindings = s.bindings
  userCredentials : w.store.userCredentials = s.userCredentials
  calls : ∀ c ∈ w.calls, c.writesIdentity = false

section Quiet

variable {quote : String → String} {s : Identity} {w : World}

theorem putBuiltinRole_settle (role : Meta.Role) (s : Identity) :
    ∃ roles, (settle s (s.putBuiltinRole role)).2 = { s with roles := roles } := by
  cases hput : s.putBuiltinRole role with
  | error err => exact ⟨s.roles, rfl⟩
  | ok s' => exact ⟨_, Identity.putBuiltinRole_ok hput⟩

theorem Quiet.step (h : Quiet s w) {c : Call} (hc : c.writesIdentity = false) :
    Quiet s (handle quote c () w).2 := by
  have hcl : ∀ c' ∈ w.calls ++ [c], c'.writesIdentity = false := by
    simpa [or_imp, forall_and] using ⟨h.calls, hc⟩
  cases c with
  | putBuiltinRole role =>
    obtain ⟨roles, hst⟩ := putBuiltinRole_settle role w.store
    have hsp : (handle quote (.putBuiltinRole role) () w).2 =
        ⟨{ w.store with roles := roles }, w.calls ++ [.putBuiltinRole role]⟩ :=
      congrArg (World.mk · _) hst
    rw [hsp]
    exact ⟨h.subjects, h.bindings, h.userCredentials, hcl⟩
  | getRole name | listSubjects opts | getUserCredential subject => exact { h with calls := hcl }
  | createSubject subject => cases hc
  | putUserCredential cred => cases hc
  | createBinding binding => cases hc

theorem writesIdentity_of_reads {c : Call} (h : c.reads = true) : c.writesIdentity = false := by
  cases c <;> first | rfl | cases h

theorem seedRole_calls (role : Authz.Role) :
    (seedRole role).Calls (fun c => c.writesIdentity = false) fun _ _ => True := by
  have hput : (putRole role).Calls (fun c => c.writesIdentity = false) fun _ _ => True := by
    refine ⟨rfl, fun r _ => ?_⟩
    cases r <;> trivial
  refine ⟨rfl, fun r _ => ?_⟩
  cases r with
  | error err => cases err <;> first | exact hput | trivial
  | ok stored =>
    show (if _ then _ else putRole role : Program _ _).Calls _ _
    split_ifs
    · trivial
    · exact hput

theorem seedRoles_calls (roles : List Authz.Role) :
    (seedRoles roles).Calls (fun c => c.writesIdentity = false) fun _ _ => True := by
  induction roles with
  | nil => trivial
  | cons role roles ih =>
    refine (seedRole_calls role).bind fun r => ?_
    cases r with
    | error err => trivial
    | ok _ => exact ih

theorem bootstrap_quiet {admin : Subject} (had : s.subjects.lookup adminName = some admin)
    (hkn : admin.kind = .user) (hcr : s.userCredentials.Has adminName) (host : Host)
    (hw : Quiet s w) :
    (bootstrap host).Meets (handle quote) (Quiet s) (fun _ => Quiet s) w := by
  have hrd (c : Call) (w : World) (hc : c.reads = true) (hw : Quiet s w) :
      Quiet s (handle quote c () w).2 := hw.step (writesIdentity_of_reads hc)
  refine Program.Meets.bind ((Program.Calls.meets (seedRoles_calls Authz.builtinRoles)
    (fun c _ w hc (hw : Quiet s w) => hw.step hc) hw).mono (fun _ h => h) fun r w' hw' => ?_)
  cases r with
  | error err => exact hw'
  | ok _ =>
    rw [← hw'.subjects] at had
    refine Program.Meets.bind ((adminNeeded_meets_user hrd hw' had hkn host.pages).mono
      (fun _ h => h) ?_)
    rintro r w'' ⟨hw'', -, rfl | ⟨err, rfl, -⟩⟩
    · obtain ⟨cred, hlk⟩ := hcr
      rw [hw'.userCredentials, hlk]
      exact hw''
    · exact hw''

/-- **Bootstrap converges.** Behind any boots from the store as it is made, each cut short anywhere,
a boot that completes leaves the store bootstrapped, and one that is not cut short does complete.
Where the admin is a user with a credential, no boot writes a subject, a credential or a binding. -/
theorem bootstrap_converges (quote : String → String) (boots : List Boot) :
    let reached := boots.foldl (Boot.after quote) Identity.new
    (∀ (b : Boot) result, (b.run quote reached).1 = some (.ok result) →
      Bootstrapped (b.run quote reached).2.store) ∧
    (∀ host : Host, host.Works → reached.subjects.values.length < host.pages →
      ∃ n, ∀ m, n ≤ m → ∃ result, (Boot.run quote ⟨host, m⟩ reached).1 = some (.ok result)) ∧
    ∀ (s : Identity) admin (b : Boot), s.subjects.lookup adminName = some admin →
      admin.kind = .user → s.userCredentials.Has adminName → Quiet s (b.run quote s).2 := by
  intro reached
  have hrc : Reached reached := reached_boots quote boots
  refine ⟨fun b result => bootstrapped_of_completed hrc, fun host => completes quote hrc, ?_⟩
  intro s admin b had hkn hcr
  have hst : Quiet s { store := s } := ⟨rfl, rfl, rfl, by simp⟩
  obtain ⟨hrt, hcut⟩ := (bootstrap_quiet had hkn hcr b.host hst).runWith
    (List.replicate b.calls ())
  cases hrs : (b.run quote s).1 with
  | none => exact hcut hrs
  | some r => exact hrt r hrs

end Quiet

end Trove.Bootstrap
