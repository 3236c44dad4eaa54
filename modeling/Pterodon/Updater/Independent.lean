import Pterodon.Lib.Alike
import Pterodon.Updater.Harmless

/-!
# Calls that follow each other in one process

The `stash_map` is a static variable: what the `stash` commands of one call record is still there
when the next call runs, on whatever partition. `runCalls` runs calls one after the other.

A verification looks into the `stash_map` under the ids that its own list names, and nowhere else.
An entry makes no difference if the recorded blocks have the contents of the stash file (`Backed`):
the file would have been loaded without it. In all other cases it may make one, since `LoadStash`
does not go on to the stash file when the recorded blocks do not have the right contents, though the
comment in it says so.
-/

namespace Pterodon.Updater

open Lib List

/-! ## Calls -/

/-- A call of `block_image_verify` or `block_image_update`, with the partition it is for and the
outcomes of its system calls. -/
structure Call where
  cfg : Config
  partition : Nat
  list : Text
  newData : List Bytes
  faults : List Bool

/-- What a call does when it finds a `stash_map` and a partition with its stash directory. -/
def Call.run (c : Call) (stashMap : Text → Option RangeSet) (d : Disk) :
    Outcome Event Params Halt Bool :=
  performBlockImageUpdate c.cfg c.list (.entering stashMap c.newData c.faults) d

/-- Two states that differ in the `stash_map` only. Under an id of `ids` the second one has the same
entry, or none where the first has that of `recorded` and no system call fails. -/
structure Differ (ids : List Text) (recorded : Text → Option RangeSet) (v w : Params) : Prop where
  rest : noMap w = noMap v
  map : ∀ id ∈ ids, w.stashMap id = v.stashMap id ∨
    (w.stashMap id = none ∧ v.stashMap id = recorded id ∧ v.faults = [])

section Differ

variable {cfg : Config} {ids : List Text} {recorded : Text → Option RangeSet} {v w : Params}

theorem Differ.faults (h : Differ ids recorded v w) : w.faults = v.faults :=
  (congrArg Params.faults h.rest : (noMap w).faults = (noMap v).faults)

theorem Differ.set {g : Params → Params}
    (hg : ∀ v map, g { v with stashMap := map } = { g v with stashMap := map })
    (hfaults : ∀ v, v.faults = [] → (g v).faults = []) (h : Differ ids recorded v w) :
    Differ ids recorded (g v) (g w) := by
  have hmap : ∀ u, (g u).stashMap = u.stashMap := fun u =>
    (congrArg Params.stashMap (hg u u.stashMap) : (g u).stashMap = _)
  refine ⟨(hg w _).symm.trans ((congrArg g h.rest).trans (hg v _)), fun id hid => ?_⟩
  rw [hmap, hmap]
  exact (h.map id hid).imp_right fun ⟨hw, hv, hf⟩ => ⟨hw, hv, hfaults v hf⟩

theorem Differ.record (id : Text) (entry : Option RangeSet) (h : Differ ids recorded v w) :
    Differ ids recorded { v with stashMap := Function.update v.stashMap id entry }
      { w with stashMap := Function.update w.stashMap id entry } := by
  refine ⟨h.rest, fun id' hid' => ?_⟩
  dsimp only
  by_cases heq : id' = id
  · subst heq
    exact .inl (by rw [Function.update_self, Function.update_self])
  · rw [Function.update_of_ne heq, Function.update_of_ne heq]
    exact h.map id' hid'

end Differ

namespace Sample

/-- The `stash_map` afterwards. -/
def recorded : Text → Option RangeSet := Function.update (fun _ => none) front (some frontBlocks)

end Sample

open Sample

end Pterodon.Updater
