import RecordArena.InPlace.Slab
import RecordArena.Proofs.InPlace.Performs
import RecordArena.Proofs.Slab.Shape

/-!
# Slabs: the changes in place perform their operations

Freeing and writing a record in place end up with the slab that the operation answers, and fail as
the operation does.
-/

namespace RecordArena.InPlace

theorem release_performs (p : UInt32) (t : PageTable) :
    Performs (release p) (Prod.mk () <$> t.release p) t := by
  -- the page is there again, zeroed or not, and then it is queued
  have hqueue : ∀ zeroed : PageTable, Performs
      (do
        alter fun _ => zeroed
        Traced.emit (.pageRecycled (← zeroed.page p).index)
        alter fun t => { t with free := t.free.push p } : InPlace PageTable Unit)
      (Prod.mk () <$> (do
        Traced.emit (.pageRecycled (← zeroed.page p).index)
        pure { zeroed with free := zeroed.free.push p } : Traced PageTable)) t := by
    intro zeroed
    rw [map_bind]
    refine .alter_bind (.lift_bind (liftM (zeroed.page p)) fun page _ => ?_)
    rw [map_bind]
    exact .lift_bind _ fun _ _ => .alter _ zeroed
  rw [release, PageTable.release]
  refine .look_bind ?_
  dsimp only
  split
  · rw [map_bind]
    exact .lift_bind (liftM (t.clear p)) fun zeroed _ => hqueue zeroed
  · rw [map_bind]
    exact .lift_bind (liftM (t.modify p id)) fun zeroed _ => hqueue zeroed

theorem free_performs (index : UInt32) (s : Slab) :
    Performs (free index) (Prod.mk () <$> s.free index) s := by
  rw [free, Slab.free, map_bind]
  refine .look_bind (.lift_bind (liftM (s.pages.vacate (s.place index))) fun a hvacate => ?_)
  obtain ⟨remaining, pages⟩ := a
  cases remaining with
  | none =>
    cases PageTable.vacate_none (Traced.outcome_liftFault_eq_ok hvacate)
    exact .pure () s
  | some remaining =>
    have hrelease : Performs (within Slab.pages (fun pages s => { s with pages })
        (release (s.place index).page)) _ { s with pages, live := s.live - 1 } :=
      .within_part (release_performs (s.place index).page pages)
    refine .alter_bind (.alter_bind ?_)
    dsimp only
    split
    · exact hrelease
    · exact .pure () _

theorem writeRecord_performs (index : UInt32) (src : Bytes) (s : Slab) :
    Performs (writeRecord index src) (Prod.mk () <$> liftM (s.write index src)) s := by
  refine .look_bind ?_
  cases s.write index src with
  | error fault => exact .of_error rfl rfl
  | ok s' => exact .alter _ s

end RecordArena.InPlace
