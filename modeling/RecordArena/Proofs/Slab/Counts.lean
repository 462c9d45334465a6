import RecordArena.Proofs.Slab.Partition

/-!
# Counts that cover the records

A page counts at least its occupied rows, and a slab counts what its pages do. This holds after
every run, also after one that has created more records than there are indices and has occupied rows
twice. So a count that is lowered because a record ends is never zero.

## Main definitions

* `PageTable.Counts` – the counts of the pages cover their rows and add up to a total.

## Main statements

* `Slab.Step.counts` – creating, writing and freeing keep the counts.
* `Slab.counts_pos` – the counts of a live record are not zero.
-/

namespace RecordArena

namespace Rows

variable {rows : Rows} {i : Nat}

theorem setFlag_of_count_le (hi : rows.count ≤ i) (flag : UInt8) : rows.setFlag i flag = rows := by
  have hsize : rows.block.size ≤ rows.flagPosition i := by
    rw [rows.size_block]
    exact Nat.mul_le_mul_right _ hi
  obtain ⟨count, width, block, hblock⟩ := rows
  simp only [setFlag, Array.setIfInBounds_eq_of_size_le hsize]

/-- Occupying a row makes at most one more row occupied. -/
theorem card_occupied_occupy_le (rows : Rows) (i : Nat) :
    (rows.occupy i).occupied.card ≤ rows.occupied.card + 1 := by
  by_cases hi : i < rows.count
  · rw [occupied_occupy hi]
    exact Finset.card_insert_le i rows.occupied
  · rw [occupy, setFlag_of_count_le (Nat.le_of_not_lt hi)]
    exact Nat.le_succ _

end Rows

namespace PageTable

/-- Every page counts its occupied rows, or more, and all pages together count `live` records. -/
structure Counts (t : PageTable) (live : Nat) : Prop where
  covers : ∀ (i : Nat) (page : Page), t.pages[i]? = some page →
    page.rows.occupied.card ≤ page.live
  total : live = t.liveTotal

variable {t t' : PageTable} {live live' : Nat} {p : UInt32} {page : Page} {change : Page → Page}

theorem lt_of_modify (h : t.modify p change = .ok t') : p.toNat < t.pages.size := by
  unfold modify at h
  split at h
  · next hcontains => exact of_decide_eq_true hcontains
  · cases h

namespace Counts

theorem of_pages_eq (h : t.Counts live) (hpages : t'.pages = t.pages) : t'.Counts live where
  covers i page hpage := h.covers i page (hpages ▸ hpage)
  total := by rw [h.total, liveTotal, liveTotal, hpages]

/-- One page changes, and its count with it. -/
theorem withPage (h : t.Counts live) (hpage : t.pages[p.toNat]? = some page)
    (hcovers : (change page).rows.occupied.card ≤ (change page).live)
    (hlive : live' + page.live = live + (change page).live) :
    (t.withPage p change).Counts live' where
  covers i page' hpage' := by
    rw [getElem?_withPage] at hpage'
    split at hpage'
    · next heq =>
      rw [← heq, hpage, Option.map_some, Option.some.injEq] at hpage'
      rwa [← hpage']
    · exact h.covers i page' hpage'
  total := by
    have htotal := liveTotal_withPage hpage change
    have hsum := h.total
    omega

theorem empty {initial slots recordSize : Nat} {resetOnFree : Bool} {backing : Backing}
    (h : PageTable.empty initial slots recordSize resetOnFree backing = .ok t) : t.Counts 0 := by
  cases empty_eq_ok h
  exact ⟨fun i page hpage => (by cases hpage), rfl⟩

/-- A page that is allocated counts no record and has none. -/
theorem push (h : t.Counts live) (hpages : t'.pages = t.pages.push t.freshPage) :
    t'.Counts live := by
  refine ⟨fun i page hpage => ?_, h.total.trans (liveTotal_push hpages).symm⟩
  rw [hpages, Array.getElem?_push] at hpage
  split at hpage
  · cases hpage
    exact (Page.Counted.of_vacant rfl (Rows.isOccupied_vacant _ _)).ge
  · exact h.covers i page hpage

theorem generateMany {n : Nat} (h : t.Counts live)
    (hblock : t.slots * (t.recordSize + 1) ≤ t.backing.limit)
    (hrun : (PageTable.generateMany n t).outcome = .ok t') : t'.Counts live := by
  induction n generalizing t with
  | zero =>
    cases hrun
    exact h
  | succ n ih =>
    obtain ⟨⟨q, t₁⟩, hgenerate, hrun⟩ := Traced.outcome_bind_eq_ok hrun
    obtain ⟨⟨q', t₂⟩, hadd, hqueue⟩ := Traced.outcome_bind_eq_ok hgenerate
    obtain ⟨reserved, hadd'⟩ := addPage_eq hblock
    cases hadd.symm.trans hadd'
    cases hqueue
    have hpushed : (PageTable.mk (t.pages.push t.freshPage) (t.free.push (.ofNat t.pages.size))
        reserved t.slots t.recordSize t.resetOnFree t.backing).Counts live := h.push rfl
    exact ih hpushed hblock hrun

theorem nextFree (h : t.Counts live) (hblock : t.slots * (t.recordSize + 1) ≤ t.backing.limit)
    (hnext : t.nextFree.outcome = .ok (p, t')) : t'.Counts live := by
  rcases nextFree_cases hblock hnext with ⟨-, hpages⟩ | ⟨-, -, -, hpages⟩
  · exact h.of_pages_eq hpages
  · exact h.push hpages

theorem release (h : t.Counts live) (hpage : t.pages[p.toNat]? = some page) (hlive : page.live = 0)
    (hrelease : (t.release p).outcome = .ok t') : t'.Counts live := by
  have hp := (Array.getElem?_eq_some_iff.mp hpage).1
  cases hrelease.symm.trans (release_eq hp)
  obtain ⟨-, hlive', -⟩ := t.recycle_spec hlive
  have hcovers : (t.recycle page).rows.occupied.card ≤ (t.recycle page).live := by
    rw [recycle]
    split
    · rw [Page.clear, Rows.occupied_eq_empty (Rows.isOccupied_clear page.rows), Finset.card_empty]
    · exact h.covers _ page hpage
  exact (h.withPage hpage hcovers (by rw [hlive, hlive'])).of_pages_eq rfl

theorem occupy (h : t.Counts live) {place : Place} (hoccupy : t.occupy place = .ok t') :
    t'.Counts (live + 1) := by
  have hp := lt_of_modify hoccupy
  cases hoccupy.symm.trans (modify_eq hp _)
  have hpage := Array.getElem?_eq_getElem hp
  have hcovers := h.covers _ _ hpage
  refine h.withPage hpage ?_ ?_
  · exact (Rows.card_occupied_occupy_le _ _).trans (Nat.succ_le_succ hcovers)
  · change _ = live + (_ + 1)
    omega

theorem write (h : t.Counts live) {place : Place} {src : Bytes}
    (hwrite : t.write place src = .ok t') : t'.Counts live := by
  obtain ⟨page, hread, hwrite⟩ := bind_eq_ok hwrite
  split at hwrite
  · have hpage := getElem?_of_page hread
    cases hwrite.symm.trans (modify_eq (Array.getElem?_eq_some_iff.mp hpage).1 _)
    refine h.withPage hpage ?_ rfl
    change (page.rows.setPayload place.slot src).occupied.card ≤ page.live
    rw [Rows.occupied_setPayload]
    exact h.covers _ page hpage
  · cases hwrite

/-- The counts that an occupied row has raised are not zero. -/
theorem pos (h : t.Counts live) {place : Place} (hocc : t.isOccupied place = .ok true) :
    ∃ page, t.page place.page = .ok page ∧ place.slot < page.rows.count ∧
      page.rows.isOccupied place.slot = true ∧ 0 < page.live ∧ page.live ≤ live := by
  obtain ⟨page, hread, hflag⟩ := bind_eq_ok hocc
  rw [Page.isOccupied] at hflag
  split at hflag
  · next hslot =>
    have hpage := getElem?_of_page hread
    have hmem : place.slot ∈ page.rows.occupied :=
      Rows.mem_occupied.mpr ⟨hslot, Except.ok.inj hflag⟩
    have hpos : 0 < page.rows.occupied.card := Finset.card_pos.mpr ⟨_, hmem⟩
    -- without this page the others count no less than nothing
    have htotal := liveTotal_withPage hpage fun page => { page with live := 0 }
    have hsum := h.total
    refine ⟨page, hread, hslot, Except.ok.inj hflag, hpos.trans_le (h.covers _ page hpage), ?_⟩
    change _ = t.liveTotal + 0 at htotal
    omega
  · cases hflag

theorem vacate (h : t.Counts live) {place : Place} {remaining : Nat}
    (hvacate : t.vacate place = .ok (some remaining, t')) :
    t'.Counts (live - 1) ∧ ∃ page, t'.pages[place.page.toNat]? = some page ∧
      page.live = remaining := by
  obtain ⟨occupied, hocc, hvacate⟩ := bind_eq_ok hvacate
  cases occupied with
  | false => cases hvacate
  | true =>
    obtain ⟨page, hread, hslot, hflag, hpos, hle⟩ := h.pos hocc
    have hpage := getElem?_of_page hread
    obtain ⟨t₁, hmodify, hvacate⟩ := bind_eq_ok hvacate
    obtain ⟨left, hleft, hvacate⟩ := bind_eq_ok hvacate
    cases hvacate
    cases hmodify.symm.trans (modify_eq (lt_of_modify hmodify) _)
    refine ⟨h.withPage hpage ?_ ?_, left, getElem?_of_page hleft, rfl⟩
    · change (page.rows.vacate place.slot).occupied.card ≤ page.live - 1
      rw [Rows.occupied_vacate hslot,
        Finset.card_erase_of_mem (Rows.mem_occupied.mpr ⟨hslot, hflag⟩)]
      exact Nat.sub_le_sub_right (h.covers _ page hpage) 1
    · change _ = live + (page.live - 1)
      omega

end Counts

end PageTable

namespace Slab

variable {s s' : Slab} {index : UInt32}

theorem new_counts {layout : RecordLayout} {config : SlabConfig} {backing : Backing}
    (h : (new layout config backing).outcome = .ok s) : s.pages.Counts s.live := by
  obtain ⟨t₀, t₁, p, hempty, hmany, hnext, -, hlive⟩ := new_cases h
  have hshaped := new_shaped h
  have hextends₁ := PageTable.generateMany_extends hmany
  have hextends₂ := PageTable.nextFree_extends hnext
  have hcounts₁ := (PageTable.Counts.empty hempty).generateMany
    (hshaped.block_le_of_extends (hextends₁.trans hextends₂)) hmany
  rw [hlive]
  exact hcounts₁.nextFree (hshaped.block_le_of_extends hextends₂) hnext

/-- Creating, writing and freeing keep the counts, whatever rows they meet. -/
theorem Step.counts (hs : s.Shaped) (h : s.pages.Counts s.live) (hstep : s.Step s') :
    s'.pages.Counts s'.live := by
  cases hstep with
  | create hrun =>
    obtain ⟨t, c, t', hoccupy, hadvance, -, rfl⟩ := create_cases hrun
    have ht := h.occupy hoccupy
    have hkept := PageTable.modify_extends hoccupy fun _ => ⟨rfl, rfl⟩
    have hblock := ((⟨rfl, rfl, hkept⟩ : s.Extends { s with pages := t }).shaped hs).block_le
    rcases Cursor.advance_cases hadvance with
      ⟨-, -, rfl⟩ | ⟨-, p, t₁, left, hnext, -, hleft, ⟨-, rfl⟩ | ⟨hlive, hrelease⟩⟩
    · exact ht
    · exact ht.nextFree hblock hnext
    · exact (ht.nextFree hblock hnext).release (PageTable.getElem?_of_page hleft) hlive hrelease
  | write place src hrun =>
    obtain ⟨t, hwrite, hrun⟩ := bind_eq_ok hrun
    cases hrun
    exact h.write hwrite
  | free index hrun =>
    obtain ⟨⟨remaining, t₁⟩, hvacate, hrun⟩ := Traced.outcome_bind_eq_ok hrun
    have hvacate := Traced.outcome_liftFault_eq_ok hvacate
    cases remaining with
    | none =>
      cases PageTable.vacate_none hvacate
      cases hrun
      exact h
    | some remaining =>
      obtain ⟨ht₁, page, hpage, hlive⟩ := h.vacate hvacate
      dsimp only at hrun
      split at hrun
      · next hlast =>
        obtain ⟨t₂, hrelease, hrun⟩ := Traced.outcome_bind_eq_ok hrun
        cases hrun
        exact ht₁.release hpage (hlive.trans hlast.1) hrelease
      · cases hrun
        exact ht₁

/-- A record that is live is counted by its page and by the slab. -/
theorem counts_pos (h : s.pages.Counts s.live) (hlive : s.isLive index = .ok true) :
    ∃ page, s.pages.page (s.place index).page = .ok page ∧ 0 < page.live ∧ page.live ≤ s.live := by
  rw [isLive] at hlive
  split at hlive
  · obtain ⟨page, hread, -, -, hpos, hle⟩ := h.pos hlive
    exact ⟨page, hread, hpos, hle⟩
  · cases hlive

end Slab

end RecordArena
