import Trove.Lib.Run
import Trove.Policy.Cascade

/-!
# Subject cycles

`newInventory` walks the subject edges with three colours. What is settled has no cycle below it,
the nodes on the path lead one to the next, and a walk that meets its own path has found a cycle. In
an inventory that was accepted the attachments are a forest whose trees `referrerSubtree` lists.
-/

namespace Trove.Policy

open Lib Relation List Function

/-- The manifest `a` of the snapshot has the manifest `b` of the snapshot as its subject. -/
def SubjectEdge (snapshot : List Manifest) (a b : Digest) : Prop :=
  (∃ m ∈ snapshot, m.digest = a ∧ m.subject = b) ∧ b ∈ snapshot.map Manifest.digest

/-! ## One walk -/

section Walk

variable (byDigest : Digest → Option Manifest)

def Follows (a b : Digest) : Prop := b ≠ "" ∧ ∃ m, byDigest a = some m ∧ m.subject = b

variable {byDigest}

theorem follows_functional (a b c : Digest) (hb : Follows byDigest a b)
    (hc : Follows byDigest a c) : b = c := by
  obtain ⟨-, m, hm, rfl⟩ := hb
  obtain ⟨-, m', hm', rfl⟩ := hc
  rw [hm] at hm'
  rw [Option.some.inj hm']

/-- Between two walks: nothing is on a path, and below what is settled there is no cycle. -/
structure Rested (byDigest : Digest → Option Manifest) (state : Digest → Mark) : Prop where
  idle : ∀ d, state d ≠ .onPath
  clear : ∀ d, state d = .settled → NoCycleFrom (Follows byDigest) d

/-- During a walk: the path leads to the current node. -/
structure Walking (byDigest : Digest → Option Manifest) (state : Digest → Mark)
    (path : List Digest) (current : Digest) : Prop where
  onPath : ∀ d, state d = .onPath ↔ d ∈ path
  clear : ∀ d, state d = .settled → NoCycleFrom (Follows byDigest) d
  chain : (path ++ [current]).IsChain (Follows byDigest)

theorem settle_apply (path : List Digest) (state : Digest → Mark) (d : Digest) :
    settle path state d = if d ∈ path then .settled else state d := by
  unfold settle
  induction path generalizing state with
  | nil => simp
  | cons node path ih =>
    rw [foldl_cons, ih]
    by_cases hpt : d ∈ path
    · simp [hpt]
    · by_cases hd : d = node <;> simp [hpt, hd]

variable {state : Digest → Mark} {path : List Digest} {current : Digest}

theorem Walking.rested (hon : ∀ d, state d = .onPath ↔ d ∈ path)
    (hcl : ∀ d, state d = .settled → NoCycleFrom (Follows byDigest) d)
    (hpt : ∀ d ∈ path, NoCycleFrom (Follows byDigest) d) :
    Rested byDigest (settle path state) := by
  constructor
  · intro d hd
    rw [settle_apply] at hd
    split_ifs at hd with hmem
    exact hmem ((hon d).mp hd)
  · intro d hd
    rw [settle_apply] at hd
    split_ifs at hd with hmem
    · exact hpt d hmem
    · exact hcl d hd

theorem Walking.step (h : Walking byDigest state path current) (hnew : state current = .unvisited) :
    (∀ d, update state current .onPath d = .onPath ↔ d ∈ path ++ [current]) ∧
      ∀ d, update state current .onPath d = .settled →
        NoCycleFrom (Follows byDigest) d := by
  constructor
  · intro d
    by_cases hd : d = current
    · subst hd
      simp
    · rw [update_of_ne hd, h.onPath d, mem_append, mem_singleton,
        or_iff_left hd]
  · intro d hd
    by_cases heq : d = current
    · subst heq
      rw [update_self] at hd
      cases hd
    · rw [update_of_ne heq] at hd
      exact h.clear d hd

theorem Walking.seen (hon : ∀ d, state d = .onPath ↔ d ∈ path) {d : Digest}
    (hd : state d ≠ .unvisited) : settle path state d = .settled := by
  rw [settle_apply]
  split_ifs with hmem
  · rfl
  · cases hst : state d with
    | unvisited => exact absurd hst hd
    | onPath => exact absurd ((hon d).mp hst) hmem
    | settled => rfl

theorem Walking.stop (h : Walking byDigest state path current) (hnew : state current = .unvisited)
    (hst : ∀ b, ¬ Follows byDigest current b) :
    Rested byDigest (settle (path ++ [current]) (update state current .onPath)) ∧
      settle (path ++ [current]) (update state current .onPath) current = .settled ∧
      ∀ d, state d ≠ .unvisited →
        settle (path ++ [current]) (update state current .onPath) d = .settled := by
  obtain ⟨hon, hcl⟩ := h.step hnew
  have hls : NoCycleFrom (Follows byDigest) current :=
    noCycleFrom_of_next fun b hb => absurd hb (hst b)
  have hpt : ∀ d ∈ path ++ [current], NoCycleFrom (Follows byDigest) d :=
    forall_mem_concat (noCycleFrom_of_chain follows_functional h.chain hls) hls
  refine ⟨Walking.rested hon hcl hpt, Walking.seen hon (by simp), fun d hd => ?_⟩
  refine Walking.seen hon ?_
  by_cases heq : d = current
  · simp [heq]
  · rwa [update_of_ne heq]

variable {fuel : ℕ} {nodes : List Digest}

theorem walk_spec (hnd : ∀ d m, byDigest d = some m → d ∈ nodes) (hfl : pending nodes state < fuel)
    (h : Walking byDigest state path current) :
    match walk byDigest fuel state path current with
    | .error err => (∃ d, TransGen (Follows byDigest) d d) ∧ ∃ path, err.reason = .subjectCycle path
    | .ok state' =>
      Rested byDigest state' ∧ state' current = .settled ∧
        ∀ d, state d ≠ .unvisited → state' d = .settled := by
  induction fuel generalizing state path current with
  | zero => omega
  | succ fuel ih =>
    rw [walk]
    cases hst : state current with
    | onPath =>
      exact ⟨⟨current, cycle_of_chain h.chain ((h.onPath current).mp hst)⟩, path, rfl⟩
    | settled =>
      have hpt := noCycleFrom_of_chain follows_functional h.chain (h.clear current hst)
      exact ⟨Walking.rested h.onPath h.clear hpt, Walking.seen h.onPath (by simp [hst]),
        fun d => Walking.seen h.onPath⟩
    | unvisited =>
      cases hlk : byDigest current with
      | none =>
        refine h.stop hst fun b hb => ?_
        obtain ⟨-, m, hm, -⟩ := hb
        rw [hlk] at hm
        cases hm
      | some next =>
        simp only
        by_cases hem : next.subject = ""
        · rw [if_pos hem]
          refine h.stop hst fun b hb => ?_
          obtain ⟨hne, m, hm, hb⟩ := hb
          rw [hlk] at hm
          exact hne (by rw [← hb, ← Option.some.inj hm, hem])
        · rw [if_neg hem]
          have hfw : Follows byDigest current next.subject := ⟨hem, next, hlk, rfl⟩
          have hlt := pending_update_lt (hnd current next hlk) hst .onPath (by decide)
          have hwl : Walking byDigest (update state current .onPath)
              (path ++ [current]) next.subject :=
            ⟨(h.step hst).1, (h.step hst).2,
              h.chain.append_overlap (isChain_pair.mpr hfw) (cons_ne_nil _ _)⟩
          have hrs := ih (by omega) hwl
          revert hrs
          cases walk byDigest fuel (update state current .onPath) (path ++ [current])
            next.subject with
          | error err => exact id
          | ok state' =>
            rintro ⟨hrt, -, hold⟩
            refine ⟨hrt, hold current (by simp), fun d hd => hold d ?_⟩
            by_cases heq : d = current
            · simp [heq]
            · rwa [update_of_ne heq]

/-! ## All walks -/

theorem checkCycles_spec (hnd : ∀ d m, byDigest d = some m → d ∈ nodes) (hfl : nodes.length < fuel)
    (starts : List Manifest) (h : Rested byDigest state) :
    match checkCycles byDigest fuel starts state with
    | .error err => (∃ d, TransGen (Follows byDigest) d d) ∧ ∃ path, err.reason = .subjectCycle path
    | .ok () => ∀ start ∈ starts, NoCycleFrom (Follows byDigest) start.digest := by
  induction starts generalizing state with
  | nil => simp [checkCycles]
  | cons start starts ih =>
    rw [checkCycles]
    by_cases hst : state start.digest = .unvisited
    · rw [if_neg (not_not.mpr hst)]
      have hpn : pending nodes state < fuel :=
        lt_of_le_of_lt (length_filter_le _ _) hfl
      have hwl : Walking byDigest state [] start.digest :=
        ⟨fun d => iff_of_false (h.idle d) not_mem_nil, h.clear, isChain_singleton _⟩
      have hwk := walk_spec hnd hpn hwl
      revert hwk
      cases walk byDigest fuel state [] start.digest with
      | error err => exact id
      | ok state' =>
        rintro ⟨hrs, hsr, -⟩
        have hrt := ih hrs
        show match checkCycles byDigest fuel starts state' with | .error err => _ | .ok () => _
        revert hrt
        cases checkCycles byDigest fuel starts state' with
        | error err => exact id
        | ok _ => exact fun hrt =>
            forall_mem_cons.mpr ⟨hrs.clear start.digest hsr, hrt⟩
    · rw [if_pos hst]
      have hsl : state start.digest = .settled := by
        cases hmr : state start.digest with
        | unvisited => exact absurd hmr hst
        | onPath => exact absurd hmr (h.idle start.digest)
        | settled => rfl
      have hrt := ih h
      revert hrt
      cases checkCycles byDigest fuel starts state with
      | error err => exact id
      | ok _ => exact fun hrt =>
          forall_mem_cons.mpr ⟨h.clear start.digest hsl, hrt⟩

end Walk

/-! ## Cycles of a snapshot -/

section Snapshot

variable {snapshot : List Manifest} (hacc : Accepted snapshot)

include hacc

variable {d a : Digest}

theorem byDigest_eq_some {c : Manifest} :
    (snapshot.foldl Loading.add {}).byDigest d = some c ↔
      c ∈ snapshot.map Manifest.clone ∧ c.digest = d := by
  rw [byDigest_foldl_add hacc.digests]
  simp

theorem mem_digests_of_byDigest (d : Digest) (c : Manifest)
    (h : (snapshot.foldl Loading.add {}).byDigest d = some c) :
    d ∈ snapshot.map Manifest.digest := by
  obtain ⟨hmem, rfl⟩ := (byDigest_eq_some hacc).mp h
  obtain ⟨m, hm, rfl⟩ := mem_map.mp hmem
  exact mem_map.mpr ⟨m, hm, rfl⟩

theorem follows_iff {b : Digest} :
    Follows (snapshot.foldl Loading.add {}).byDigest a b ↔
      b ≠ "" ∧ ∃ m ∈ snapshot, m.digest = a ∧ m.subject = b := by
  refine and_congr_right fun _ => ?_
  simp only [byDigest_eq_some hacc, mem_map]
  constructor
  · rintro ⟨_, ⟨⟨m, hm, rfl⟩, hdg⟩, hsb⟩
    exact ⟨m, hm, hdg, hsb⟩
  · rintro ⟨m, hm, hdg, hsb⟩
    exact ⟨m.clone, ⟨⟨m, hm, rfl⟩, hdg⟩, hsb⟩

theorem follows_of_subjectEdge {b : Digest} (h : SubjectEdge snapshot a b) :
    Follows (snapshot.foldl Loading.add {}).byDigest a b := by
  obtain ⟨hed, hlv⟩ := h
  obtain ⟨m, hm, rfl⟩ := mem_map.mp hlv
  exact (follows_iff hacc).mpr ⟨(hacc.wellFormed m hm).digest, hed⟩

theorem subjectPath_of_follows (hd : d ∈ snapshot.map Manifest.digest)
    (h : TransGen (Follows (snapshot.foldl Loading.add {}).byDigest) a d) :
    TransGen (SubjectEdge snapshot) a d := by
  induction h using TransGen.head_induction_on with
  | single hst => exact .single ⟨((follows_iff hacc).mp hst).2, hd⟩
  | @head a b hst hrs ih =>
    obtain ⟨c, hbc, -⟩ := TransGen.head'_iff.mp hrs
    obtain ⟨-, m, hm, rfl, -⟩ := (follows_iff hacc).mp hbc
    exact .head ⟨((follows_iff hacc).mp hst).2, mem_map_of_mem hm⟩ ih

theorem cycle_iff :
    TransGen (Follows (snapshot.foldl Loading.add {}).byDigest) d d ↔
      TransGen (SubjectEdge snapshot) d d := by
  constructor
  · intro h
    obtain ⟨b, hdb, -⟩ := TransGen.head'_iff.mp h
    obtain ⟨-, m, hm, rfl, -⟩ := (follows_iff hacc).mp hdb
    exact subjectPath_of_follows hacc (mem_map_of_mem hm) h
  · intro h
    exact TransGen.mono (fun a b => follows_of_subjectEdge hacc) d d h

theorem checkCycles_exact {fuel : ℕ} (hfl : snapshot.length < fuel) :
    match checkCycles (snapshot.foldl Loading.add {}).byDigest fuel
      (sortBy Manifest.digest (snapshot.map Manifest.clone)) (fun _ => .unvisited) with
    | .error err =>
      (∃ d, TransGen (SubjectEdge snapshot) d d) ∧ ∃ path, err.reason = .subjectCycle path
    | .ok () => ¬ ∃ d, TransGen (SubjectEdge snapshot) d d := by
  have hrs : Rested (snapshot.foldl Loading.add {}).byDigest fun _ => .unvisited := by
    constructor <;> exact fun _ h => by cases h
  have hsp := checkCycles_spec (mem_digests_of_byDigest hacc) (by simpa using hfl)
    (sortBy Manifest.digest (snapshot.map Manifest.clone)) hrs
  revert hsp
  cases checkCycles (snapshot.foldl Loading.add {}).byDigest fuel
    (sortBy Manifest.digest (snapshot.map Manifest.clone)) (fun _ => .unvisited) with
  | error err =>
    rintro ⟨⟨d, hd⟩, hrn⟩
    exact ⟨⟨d, (cycle_iff hacc).mp hd⟩, hrn⟩
  | ok _ =>
    rintro hcl ⟨d, hd⟩
    obtain ⟨b, ⟨⟨m, hm, rfl, -⟩, -⟩, -⟩ := TransGen.head'_iff.mp hd
    have hst : m.clone ∈ sortBy Manifest.digest (snapshot.map Manifest.clone) :=
      mem_sortBy.mpr (mem_map_of_mem hm)
    exact hcl m.clone hst m.digest .refl ((cycle_iff hacc).mpr hd)

end Snapshot

/-! ## The inventory -/

variable {inv : Inventory} {snapshot : List Manifest}

theorem attached_iff_subjectEdge {repository : String}
    (h : newInventory repository snapshot = .ok inv) {a b : Digest} :
    inv.Attached a b ↔ SubjectEdge snapshot b a := by
  have hvl := valid_of_newInventory h
  have hmem := fun m => (perm_of_newInventory h).mem_iff (a := m)
  rw [hvl.attached_iff, SubjectEdge, and_comm]
  refine and_congr ?_ ?_
  · simp only [hmem, mem_map]
    constructor
    · rintro ⟨_, ⟨m, hm, rfl⟩, hsb, hdg⟩
      exact ⟨m, hm, hdg, hsb⟩
    · rintro ⟨m, hm, hdg, hsb⟩
      exact ⟨m.clone, ⟨m, hm, rfl⟩, hsb, hdg⟩
  · simp only [Option.isSome_iff_exists, hvl.lookup, hmem, mem_map]
    constructor
    · rintro ⟨_, ⟨m, hm, rfl⟩, hdg⟩
      exact ⟨m, hm, hdg⟩
    · rintro ⟨m, hm, hdg⟩
      exact ⟨m.clone, ⟨m, hm, rfl⟩, hdg⟩

theorem increasing_referrerSubtree (inv : Inventory) (d : Digest) :
    Increasing id (inv.referrerSubtree d) := by
  refine increasing_sortBy ?_
  rw [map_id]
  exact (nodup_cons.mp (nodup_reach _ _ d)).2

theorem referrerSubtree_eq_of_fuel (hv : inv.Valid) {fuel : ℕ} (hfl : inv.manifests.length < fuel)
    (d : Digest) : sortBy id (reach inv.referrers fuel d) = inv.referrerSubtree d := by
  have hnd : ∀ a, ∀ b ∈ inv.referrers a, b ∈ inv.manifests.map Manifest.digest := by
    intro a b hb
    obtain ⟨-, m, hm, -, rfl⟩ := (hv.mem_referrers a b).mp hb
    exact mem_map_of_mem hm
  have hnp : ((reach inv.referrers fuel d).map id).Nodup := by
    rw [map_id]
    exact (nodup_cons.mp (nodup_reach _ fuel d)).2
  refine (increasing_sortBy hnp).eq_of_mem_iff (increasing_referrerSubtree inv d)
    fun x => ?_
  rw [mem_sortBy, mem_reach hv.nodup_digests hnd (by simpa using hfl), hv.mem_referrerSubtree]
  rfl

/-- The construction finds a subject cycle, or there is none and it succeeds. -/
theorem newInventory_cases (repository : String) (hrepository : repository ≠ "") {loaded : Loading}
    (hload : loadManifests snapshot {} = .ok loaded) :
    ((∃ d path, newInventory repository snapshot = .error ⟨d, .subjectCycle path⟩) ∧
      ∃ d, TransGen (SubjectEdge snapshot) d d) ∨
    ((∃ inv, newInventory repository snapshot = .ok inv) ∧
      ¬ ∃ d, TransGen (SubjectEdge snapshot) d d) := by
  obtain ⟨⟨hacc, -⟩, rfl⟩ := loadManifests_eq_ok.mp hload
  have hmn : (snapshot.foldl Loading.add {}).manifests = snapshot.map Manifest.clone :=
    manifests_foldl_add snapshot {}
  have hln : (sortBy Manifest.digest (snapshot.map Manifest.clone)).length = snapshot.length := by
    rw [(perm_sortBy _).length_eq, length_map]
  have hnew : newInventory repository snapshot =
      (checkCycles (snapshot.foldl Loading.add {}).byDigest (snapshot.length + 1)
        (sortBy Manifest.digest (snapshot.map Manifest.clone)) fun _ => .unvisited).bind fun _ =>
          .ok (assemble repository (sortBy Manifest.digest (snapshot.map Manifest.clone))
            (snapshot.foldl Loading.add {}).byDigest) := by
    rw [newInventory, if_neg hrepository, hload]
    show Except.bind (checkCycles _ ((sortBy Manifest.digest
      (snapshot.foldl Loading.add {}).manifests).length + 1) _ _) _ = _
    rw [hmn, hln]
  have hec := checkCycles_exact hacc (Nat.lt_succ_self snapshot.length)
  rw [hnew]
  revert hec
  cases checkCycles (snapshot.foldl Loading.add {}).byDigest (snapshot.length + 1)
    (sortBy Manifest.digest (snapshot.map Manifest.clone)) (fun _ => .unvisited) with
  | error err =>
    rintro ⟨hcy, path, hpt⟩
    exact .inl ⟨⟨err.digest, path, by rw [← hpt]; rfl⟩, hcy⟩
  | ok _ => exact fun hnn => .inr ⟨⟨_, rfl⟩, hnn⟩

/-- **Cycles.** For every named repository and every snapshot whose rows pass their checks,
`newInventory` fails for a subject cycle exactly when the subject edges between its manifests
contain one, and succeeds otherwise; more fuel changes nothing. The subtree of a digest is what
leads to it by one or more subject edges, once each and in digest order, and two manifests without a
subject in the snapshot share nothing of their subtrees. -/
theorem subjectCycle_exact (repository : String) (hrepository : repository ≠ "")
    (snapshot : List Manifest) (loaded : Loading)
    (hload : loadManifests snapshot {} = .ok loaded) :
    ((∃ d path, newInventory repository snapshot = .error ⟨d, .subjectCycle path⟩) ↔
      ∃ d, TransGen (SubjectEdge snapshot) d d) ∧
    ((∃ inv, newInventory repository snapshot = .ok inv) ↔
      ¬ ∃ d, TransGen (SubjectEdge snapshot) d d) ∧
    (∀ fuel, snapshot.length < fuel →
      checkCycles loaded.byDigest fuel (sortBy Manifest.digest loaded.manifests)
          (fun _ => .unvisited) =
        checkCycles loaded.byDigest (snapshot.length + 1)
          (sortBy Manifest.digest loaded.manifests) fun _ => .unvisited) ∧
    ∀ inv, newInventory repository snapshot = .ok inv →
      (∀ d, (∀ x, x ∈ inv.referrerSubtree d ↔ TransGen (SubjectEdge snapshot) x d) ∧
        Increasing id (inv.referrerSubtree d) ∧
        ∀ fuel, inv.manifests.length < fuel →
          sortBy id (reach inv.referrers fuel d) = inv.referrerSubtree d) ∧
      ∀ d d', d ≠ d' → (∀ s, ¬ SubjectEdge snapshot d s) → (∀ s, ¬ SubjectEdge snapshot d' s) →
        (inv.referrerSubtree d).Disjoint (inv.referrerSubtree d') := by
  have hcs := newInventory_cases repository hrepository hload
  obtain ⟨⟨hacc, -⟩, rfl⟩ := loadManifests_eq_ok.mp hload
  have hat : ∀ inv, newInventory repository snapshot = .ok inv →
      inv.Attached = swap (SubjectEdge snapshot) := by
    intro inv hinv
    funext a b
    exact propext (attached_iff_subjectEdge hinv)
  have hac : (∃ inv, newInventory repository snapshot = .ok inv) ↔
      ¬ ∃ d, TransGen (SubjectEdge snapshot) d d := by
    rcases hcs with ⟨⟨d, path, heq⟩, hcy⟩ | ⟨hok, hnn⟩
    · exact iff_of_false (by simp [heq]) (not_not.mpr hcy)
    · exact iff_of_true hok hnn
  refine ⟨?_, hac, fun fuel hfl => ?_, fun inv hinv => ⟨fun d => ?_, fun d d' hne hd hd' => ?_⟩⟩
  · rcases hcs with ⟨herr, hcy⟩ | ⟨⟨inv, heq⟩, hnn⟩
    · exact iff_of_true herr hcy
    · exact iff_of_false (by simp [heq]) hnn
  · exact checkCycles_eq_of_fuel (mem_digests_of_byDigest hacc) (by simpa using hfl) (by simp) _ _
  · have hvl := valid_of_newInventory hinv
    refine ⟨fun x => ?_, increasing_referrerSubtree inv d,
      fun fuel hfl => referrerSubtree_eq_of_fuel hvl hfl d⟩
    rw [hvl.mem_referrerSubtree, hat inv hinv, reflTransGen_swap,
      reflTransGen_iff_eq_or_transGen]
    constructor
    · rintro ⟨hne, heq | hpt⟩
      · exact absurd heq.symm hne
      · exact hpt
    · intro hpt
      refine ⟨?_, .inr hpt⟩
      rintro rfl
      exact hac.mp ⟨inv, hinv⟩ ⟨x, hpt⟩
  · have hvl := valid_of_newInventory hinv
    intro x hx hx'
    have hrt : ∀ d, (∀ s, ¬ SubjectEdge snapshot d s) → ∀ p, ¬ inv.Attached p d :=
      fun d hd p hp => hd p ((attached_iff_subjectEdge hinv).mp hp)
    exact hne (root_unique hvl.attached_unique (hvl.mem_referrerSubtree.mp hx).2
      (hvl.mem_referrerSubtree.mp hx').2 (hrt d hd) (hrt d' hd'))

/-- Two manifests that are each other's subject, and the same with one of them attached outside. -/
theorem subjectCycle_exact_twoManifests :
    let x : Manifest := ⟨"sha256:x", [], 1, 0, 0, 7, [], "sha256:y"⟩
    let y : Manifest := ⟨"sha256:y", [], 1, 0, 0, 7, [], "sha256:x"⟩
    let out : Manifest := ⟨"sha256:y", [], 1, 0, 0, 7, [], "sha256:z"⟩
    (∃ d path, newInventory "team/api" [x, y] = .error ⟨d, .subjectCycle path⟩) ∧
      ∀ inv, newInventory "team/api" [x, out] = .ok inv →
        "sha256:x" ∈ inv.referrerSubtree "sha256:y" := by
  intro x y out
  obtain ⟨hcy, -⟩ := subjectCycle_exact "team/api" (by decide) [x, y] _ rfl
  obtain ⟨-, -, -, hsb⟩ := subjectCycle_exact "team/api" (by decide) [x, out] _ rfl
  have hxy : SubjectEdge [x, y] "sha256:x" "sha256:y" :=
    ⟨⟨x, by simp, rfl, rfl⟩, by simp [y]⟩
  have hyx : SubjectEdge [x, y] "sha256:y" "sha256:x" :=
    ⟨⟨y, by simp, rfl, rfl⟩, by simp [x]⟩
  have hout : SubjectEdge [x, out] "sha256:x" "sha256:y" :=
    ⟨⟨x, by simp, rfl, rfl⟩, by simp [out]⟩
  exact ⟨hcy.mpr ⟨"sha256:x", .tail (.single hxy) hyx⟩, fun inv hinv =>
    (((hsb inv hinv).1 "sha256:y").1 "sha256:x").mpr (.single hout)⟩

end Trove.Policy
