import Trove.Lib.Sort

/-!
# Keyset pagination

A listing hands out its rows in key order, a page at a time. A page lists the rows whose key is
beyond the cursor, up to a limit, and names the last of them as the next cursor when rows are left;
`start` is the cursor of the first page, and the next cursor of the last one. Following the cursors
reaches the last page and lists every row once (`walk_eq`).
-/

namespace Trove.Lib

open List

variable {α κ ε : Type*} [LinearOrder κ] {key : α → κ}

structure Page (α κ : Type*) where
  rows : List α
  next : κ

def beyond (key : α → κ) (cursor : κ) (rows : List α) : List α :=
  sortBy key (rows.filter fun r => cursor < key r)

/-- One page. -/
def pageAt (key : α → κ) (start : κ) (limit : ℕ) (cursor : κ) (rows : List α) : Page α κ :=
  let listed := (beyond key cursor rows).take limit
  { rows := listed
    next :=
      if limit < (beyond key cursor rows).length then (listed.getLast?.map key).getD start
      else start }

/-- The pages from a cursor on, up to the one that names no next cursor. Nothing when the fuel runs
out before it. -/
def walk (list : κ → Except ε (Page α κ)) (start : κ) : ℕ → κ → Option (Except ε (List (Page α κ)))
  | 0, _ => none
  | fuel + 1, cursor =>
    match list cursor with
    | .error err => some (.error err)
    | .ok page =>
      if page.next = start then some (.ok [page])
      else (walk list start fuel page.next).map (Except.map (page :: ·))

/-! ## What a page lists -/

variable {cursor start : κ} {rows : List α} {r : α} {limit : ℕ}

theorem mem_beyond : r ∈ beyond key cursor rows ↔ r ∈ rows ∧ cursor < key r := by
  rw [beyond, mem_sortBy, mem_filter, decide_eq_true_eq]

theorem length_beyond_le (cursor : κ) (rows : List α) :
    (beyond key cursor rows).length ≤ rows.length := by
  rw [beyond, (perm_sortBy _).length_eq]
  exact length_filter_le _ _

theorem increasing_beyond (hky : (rows.map key).Nodup) (cursor : κ) :
    Increasing key (beyond key cursor rows) :=
  increasing_sortBy (hky.sublist (filter_sublist.map key))

theorem pageAt_congr {rows' : List α} (hky : (rows.map key).Nodup)
    (hky' : (rows'.map key).Nodup) (hrw : ∀ r, r ∈ rows ↔ r ∈ rows') (start : κ) (limit : ℕ)
    (cursor : κ) : pageAt key start limit cursor rows = pageAt key start limit cursor rows' := by
  have hby : beyond key cursor rows = beyond key cursor rows' := by
    refine (increasing_beyond hky cursor).eq_of_mem_iff (increasing_beyond hky' cursor) ?_
    intro r
    rw [mem_beyond, mem_beyond, hrw]
  rw [pageAt, pageAt, hby]

theorem length_pageAt_le (start : κ) (limit : ℕ) (cursor : κ) (rows : List α) :
    (pageAt key start limit cursor rows).rows.length ≤ limit :=
  length_take_le limit _

theorem mem_rows_pageAt (h : r ∈ (pageAt key start limit cursor rows).rows) :
    r ∈ rows ∧ cursor < key r :=
  mem_beyond.mp (mem_of_mem_take h)

theorem lt_of_not_mem_rows (hky : (rows.map key).Nodup) {r' : α} (hr : r ∈ rows)
    (hlt : cursor < key r) (hnot : r ∉ (pageAt key start limit cursor rows).rows)
    (hr' : r' ∈ (pageAt key start limit cursor rows).rows) : key r' < key r := by
  have hsp := take_append_drop limit (beyond key cursor rows)
  have hin : Increasing key ((beyond key cursor rows).take limit ++
      (beyond key cursor rows).drop limit) := hsp.symm ▸ increasing_beyond hky cursor
  have hby : r ∈ beyond key cursor rows := mem_beyond.mpr ⟨hr, hlt⟩
  rw [← hsp, mem_append] at hby
  exact (pairwise_append.mp hin).2.2 r' hr' r (hby.resolve_left hnot)

theorem le_of_rows_eq_nil (hlm : 0 < limit)
    (hnil : (pageAt key start limit cursor rows).rows = []) (hr : r ∈ rows) : key r ≤ cursor := by
  by_contra hlt
  have hby : r ∈ beyond key cursor rows := mem_beyond.mpr ⟨hr, not_le.mp hlt⟩
  rcases take_eq_nil_iff.mp hnil with hzr | hnn
  · omega
  · rw [hnn] at hby
    cases hby

/-! ## Following the cursors -/

theorem beyond_last (hky : (rows.map key).Nodup) {last : α}
    (hls : ((beyond key cursor rows).take limit).getLast? = some last) :
    beyond key (key last) rows = (beyond key cursor rows).drop limit := by
  have hin := increasing_beyond hky cursor
  have hsp := take_append_drop limit (beyond key cursor rows)
  have hor := pairwise_append.mp
    (show Increasing key (List.take limit _ ++ List.drop limit _) from hsp.symm ▸ hin)
  obtain ⟨front, hfr⟩ := List.getLast?_eq_some_iff.mp hls
  refine (increasing_beyond hky (key last)).eq_of_mem_iff hor.2.1 fun r => ?_
  have hmem : last ∈ (beyond key cursor rows).take limit := by
    rw [hfr]
    simp
  constructor
  · intro hr
    obtain ⟨hr, hlt⟩ := mem_beyond.mp hr
    have hcr := (mem_beyond.mp (mem_of_mem_take hmem)).2
    have hr' : r ∈ beyond key cursor rows := mem_beyond.mpr ⟨hr, hcr.trans hlt⟩
    rw [← hsp, mem_append] at hr'
    refine hr'.resolve_left fun htk => ?_
    -- the last row listed has the greatest key of its page
    have hle : key r ≤ key last := by
      rw [hfr] at htk
      rcases mem_append.mp htk with hr | hr
      · have hpg := hor.1
        rw [hfr] at hpg
        exact ((pairwise_append.mp hpg).2.2 r hr last (by simp)).le
      · rw [mem_singleton.mp hr]
    exact absurd hlt hle.not_gt
  · intro hr
    exact mem_beyond.mpr ⟨(mem_beyond.mp (mem_of_mem_drop hr)).1, hor.2.2 last hmem r hr⟩

theorem pageAt_cases (hky : (rows.map key).Nodup) (hlm : 0 < limit) (start cursor : κ)
    (hst : ∀ r ∈ rows, cursor < key r → start < key r) :
    (pageAt key start limit cursor rows).next = start ∧
        (pageAt key start limit cursor rows).rows = beyond key cursor rows ∨
      (pageAt key start limit cursor rows).next ≠ start ∧
        (pageAt key start limit cursor rows).rows ≠ [] ∧
        (pageAt key start limit cursor rows).rows ++
          beyond key (pageAt key start limit cursor rows).next rows = beyond key cursor rows := by
  by_cases hmr : limit < (beyond key cursor rows).length
  · obtain ⟨last, hls⟩ : ∃ last, ((beyond key cursor rows).take limit).getLast? = some last := by
      refine Option.isSome_iff_exists.mp (List.getLast?_isSome.mpr fun hnil => ?_)
      have hln := congrArg List.length hnil
      rw [length_take, length_nil] at hln
      omega
    have hnx : (pageAt key start limit cursor rows).next = key last := by
      simp [pageAt, hmr, hls]
    obtain ⟨hmem, hlt⟩ := mem_beyond.mp (mem_of_mem_take (mem_of_mem_getLast? hls))
    have hne : (beyond key cursor rows).take limit ≠ [] := fun hnil => by simp [hnil] at hls
    refine .inr ⟨hnx ▸ (hst last hmem hlt).ne', hne, ?_⟩
    rw [hnx, beyond_last hky hls]
    exact take_append_drop limit _
  · exact .inl ⟨by simp [pageAt, hmr], take_of_length_le (not_lt.mp hmr)⟩

variable {list : κ → Except ε (Page α κ)} {fuel : ℕ}

theorem walk_from (hlm : 0 < limit) (hky : (rows.map key).Nodup) (hst : ∀ r ∈ rows, start < key r)
    (hls : ∀ cursor, list cursor = .ok (pageAt key start limit cursor rows))
    (hfl : (beyond key cursor rows).length < fuel) :
    ∃ pages, walk list start fuel cursor = some (.ok pages) ∧
      pages.flatMap Page.rows = beyond key cursor rows ∧ ∀ p ∈ pages, p.rows.length ≤ limit := by
  induction fuel generalizing cursor with
  | zero => exact absurd hfl (Nat.not_lt_zero _)
  | succ fuel ih =>
    rw [walk, hls]
    have hsz : (pageAt key start limit cursor rows).rows.length ≤ limit :=
      length_pageAt_le start limit cursor rows
    rcases pageAt_cases hky hlm start cursor fun r hr _ => hst r hr with
      ⟨hnx, hrw⟩ | ⟨hnx, hne, hrw⟩
    · refine ⟨[pageAt key start limit cursor rows], ?_, ?_, ?_⟩
      · simp only [hnx, if_true]
      · rw [flatMap_cons, flatMap_nil, append_nil, hrw]
      · exact forall_mem_cons.mpr ⟨hsz, by simp⟩
    · have hfw : (beyond key (pageAt key start limit cursor rows).next rows).length < fuel := by
        have hpos := length_pos_iff.mpr hne
        have hln := congrArg List.length hrw
        rw [length_append] at hln
        omega
      obtain ⟨pages, hwl, hpg, hss⟩ := ih hfw
      refine ⟨pageAt key start limit cursor rows :: pages, ?_, ?_, ?_⟩
      · simp only [hnx, if_false, hwl, Option.map_some, Except.map]
      · rw [flatMap_cons, hpg, hrw]
      · exact forall_mem_cons.mpr ⟨hsz, hss⟩

/-- **Walking the pages.** From the first page on, the walk ends within as many pages as there are
rows and one, lists every row once in key order, and no page is longer than the limit. -/
theorem walk_eq (hlm : 0 < limit) (hky : (rows.map key).Nodup) (hst : ∀ r ∈ rows, start < key r)
    (hls : ∀ cursor, list cursor = .ok (pageAt key start limit cursor rows))
    (hfl : rows.length < fuel) :
    ∃ pages, walk list start fuel start = some (.ok pages) ∧
      pages.flatMap Page.rows = sortBy key rows ∧ ∀ p ∈ pages, p.rows.length ≤ limit := by
  have hall : beyond key start rows = sortBy key rows := by
    rw [beyond, filter_eq_self.mpr fun r hr => decide_eq_true (hst r hr)]
  rw [← hall]
  refine walk_from hlm hky hst hls ?_
  rwa [hall, (perm_sortBy rows).length_eq]

end Trove.Lib
