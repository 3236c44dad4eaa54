import Pterodon.Uncrypt.RoundTrip

/-!
# The window of blocks

In the encrypted case the blocks of the file are read through the file system, which decrypts
them, and written to the places on the device where they are. `produce_block_map` does this with
a ring of five buffers: blocks go in at the tail and out at the head. Here is what holds of every
successful run, whatever `FIBMAP` answers: each block is written once, in order, with its own bytes,
and a buffer is not used again before its block is written.

Where a block is written depends on `FIBMAP`. An answer of 0 is a block that is not allocated yet,
and `retry_fibmap` then asks for the block that its argument holds, which is 0 as well. So the
block is looked up as the first block of the file and written over it. The blocks are written to
their places exactly if no block but the first is looked up too early.
-/

namespace Pterodon.Uncrypt

open Lib List

variable {sys : System} {sb : Stat} {file : Bytes} {σ σ' : Session} {bs : List Int}
  {n c c' : Nat} {phys : Nat → Nat}

/-! ## The ranges -/

def listed : List Int → List Int
  | first :: last :: ranges =>
    ((List.range (last - first).toNat).map fun i : Nat => first + i) ++ listed ranges
  | _ => []

theorem listed_flat (rs : Pairs) (hplain : ∀ r ∈ rs, r.1 < r.2 ∧ r.2 < 2 ^ 31) :
    listed (flat rs) = (spread rs).map fun b : Nat => (b : Int) := by
  induction rs with
  | nil => rfl
  | cons r rs ih =>
    have hcons : flat (r :: rs) = (r.1 : Int) :: (r.2 : Int) :: flat rs := by
      rw [flat, flatMap_cons, int32_of_lt (hplain r mem_cons_self).2]
      rfl
    have hlen : ((r.2 : Int) - r.1).toNat = r.2 - r.1 := by omega
    rw [hcons, listed, ih fun r' hr' => hplain r' (mem_cons_of_mem _ hr'), hlen]
    rw [spread_cons, numbers, map_append, range'_eq_map_range, map_map]
    rfl

/-- Pairs of numbers as they are in the vector. -/
def vectorOf (rs : List (Int × Int)) : List Int := rs.flatMap fun r => [r.1, r.2]

theorem listed_vectorOf_append (rs rs' : List (Int × Int)) :
    listed (vectorOf (rs ++ rs')) = listed (vectorOf rs) ++ listed (vectorOf rs') := by
  induction rs with
  | nil => rfl
  | cons r rs ih =>
    have hcons : ∀ rs'', listed (vectorOf (r :: rs'')) =
      ((List.range (r.2 - r.1).toNat).map fun i : Nat => r.1 + i) ++ listed (vectorOf rs'') :=
      fun _ => rfl
    rw [cons_append, hcons, hcons, ih, append_assoc]

theorem listed_vectorOf_snoc_length (rs : List (Int × Int)) (first last : Int) :
    (listed (vectorOf (rs ++ [(first, last)]))).length =
      (listed (vectorOf rs)).length + (last - first).toNat := by
  rw [listed_vectorOf_append]
  simp [vectorOf, listed]

/-- A block adds one number at most, and none if the end of its range is not an `int`. -/
theorem addBlockToRanges_spread {rs : List (Int × Int)} (hrs : ∀ r ∈ rs, 0 ≤ r.1) {b : Nat}
    (hb : b < 2 ^ 31) : ∃ rs', addBlockToRanges (vectorOf rs) b = vectorOf rs' ∧
      (∀ r ∈ rs', 0 ≤ r.1) ∧ (listed (vectorOf rs')).length ≤ (listed (vectorOf rs)).length + 1 ∧
      (2 ^ 31 ≤ b + 1 → (listed (vectorOf rs')).length ≤ (listed (vectorOf rs)).length) := by
  have hend : int32 ((b : Int) + 1) ≤ b + 1 ∧ (2 ^ 31 ≤ b + 1 → int32 ((b : Int) + 1) ≤ 0) := by
    by_cases hlt : b + 1 < 2 ^ 31
    · rw [← Int.natCast_succ, int32_of_lt hlt]
      omega
    · have hb' : (b : Int) + 1 = 2 ^ 31 := by omega
      rw [hb']
      exact ⟨by decide, fun _ => by decide⟩
  rw [addBlockToRanges]
  by_cases hlast : (vectorOf rs).getLast? = some (b : Int)
  · rcases eq_nil_or_concat' rs with rfl | ⟨init, ⟨first, last⟩, rfl⟩
    · cases hlast
    · have hspread : vectorOf (init ++ [(first, last)]) = (vectorOf init ++ [first]) ++ [last] := by
        simp [vectorOf]
      rw [hspread, getLast?_concat] at hlast
      cases hlast
      have hfirst := hrs (first, (b : Int)) (mem_append_right _ (mem_singleton.mpr rfl))
      refine ⟨init ++ [(first, int32 (b + 1))], ?_, ?_, ?_⟩
      · simp [vectorOf]
      · intro r hr
        rcases mem_append.mp hr with hr | hr
        · exact hrs r (mem_append_left _ hr)
        · rw [mem_singleton.mp hr]
          exact hfirst
      · rw [listed_vectorOf_snoc_length, listed_vectorOf_snoc_length]
        omega
  · rw [if_neg hlast]
    refine ⟨rs ++ [((b : Int), int32 (b + 1))], by simp [vectorOf], ?_, ?_⟩
    · intro r hr
      rcases mem_append.mp hr with hr | hr
      · exact hrs r hr
      · rw [mem_singleton.mp hr]
        exact Int.natCast_nonneg b
    · rw [listed_vectorOf_snoc_length]
      omega

theorem foldl_places (hint : ∀ k < n, phys k < 2 ^ 31) :
    ∃ rs, (places phys n).foldl addBlockToRanges [] = vectorOf rs ∧ (∀ r ∈ rs, 0 ≤ r.1) ∧
      (listed (vectorOf rs)).length ≤ n ∧
      ((∃ k < n, 2 ^ 31 ≤ phys k + 1) → (listed (vectorOf rs)).length < n) := by
  induction n with
  | zero => exact ⟨[], rfl, by simp, Nat.le_refl _, by omega⟩
  | succ n ih =>
    obtain ⟨rs, hfold, hrs, hle, hlt⟩ := ih fun k hk => hint k (Nat.lt_succ_of_lt hk)
    obtain ⟨rs', hadd, hrs', hle', hlt'⟩ := addBlockToRanges_spread hrs (hint n
      (Nat.lt_succ_self n))
    refine ⟨rs', ?_, hrs', by omega, ?_⟩
    · rw [places_succ, foldl_append, hfold]
      exact hadd
    · rintro ⟨k, hk, hend⟩
      rcases Nat.lt_or_eq_of_le (Nat.le_of_lt_succ hk) with hk | rfl
      · have := hlt ⟨k, hk, hend⟩
        omega
      · omega

/-- The ranges list the blocks unless the end of one of them is not an `int`. -/
theorem listed_places_iff (hint : ∀ k < n, phys k < 2 ^ 31) :
    listed ((places phys n).foldl addBlockToRanges []) = places phys n ↔
      ∀ k < n, phys k + 1 < 2 ^ 31 := by
  constructor
  · intro heq k hk
    by_contra hend
    obtain ⟨rs, hfold, -, -, hlt⟩ := foldl_places hint
    have hshort := hlt ⟨k, hk, Nat.le_of_not_lt hend⟩
    rw [← hfold, heq, places_length] at hshort
    exact absurd hshort (Nat.lt_irrefl n)
  · intro hend
    have hbs : ∀ b ∈ (List.range n).map phys, b + 1 < 2 ^ 31 := by
      intro b hb
      obtain ⟨k, hk, rfl⟩ := mem_map.mp hb
      exact hend k (mem_range.mp hk)
    have hbs' := fun b hb => Nat.lt_of_succ_lt (hbs b hb)
    obtain ⟨hplain, hblocks⟩ := blockRanges_spec hbs'
    rw [places_eq_map, foldl_addBlockToRanges hbs', listed_flat, hblocks]
    intro r hr
    -- the last block of a range is one of the blocks
    obtain ⟨hlt, -⟩ := hplain r hr
    have hlast := hbs (r.2 - 1) (hblocks ▸ mem_spread.mpr ⟨r, hr, by omega, by omega⟩)
    omega

/-- What a run is to do with the blocks of a file that are at `phys`. -/
structure InOrder (sb : Stat) (file : Bytes) (phys : Nat → Nat) (fills : Pairs)
    (ranges : List Int) (σ σ' : Session) : Prop where
  /-- One write for each block, in order, at its place and with its bytes. -/
  written : ∃ ws, σ'.device = σ.device ++ ws ∧ WrittenBack sb file (places phys sb.logicalBlocks) ws
  filled : fills.length = sb.logicalBlocks
  /-- When block `j` is read to the buffer that block `i` was in, block `i` is written. -/
  refilled : ∀ {i j slot before before' : Nat}, i < j → fills[i]? = some (slot, before) →
    fills[j]? = some (slot, before') → σ.device.length + i < before'
  enumerated : listed ranges = places phys sb.logicalBlocks

/-- When the blocks of a file are found and can be listed, in a run with `c` calls of `FIBMAP`
before it. -/
structure Findable (sys : System) (phys : Nat → Nat) (c n : Nat) : Prop where
  few : n ≤ 2 ^ 31
  inTime : AllocatedInTime sys c n
  inRange : ∀ k < n, phys k + 1 < 2 ^ 31

theorem WrittenBack.eq_places {ws : List (Int × Bytes)} (hws : WrittenBack sb file bs ws)
    (hplaced : WrittenBack sb file (places phys n) ws) : bs = places phys n := by
  refine ext_getElem? fun k => ?_
  have hlen : bs.length = (places phys n).length := hws.length.symm.trans hplaced.length
  rcases Nat.lt_or_ge k bs.length with hlt | hge
  · obtain ⟨_, hk, -⟩ := hws.block (getElem?_eq_getElem hlt)
    obtain ⟨_, hk', -⟩ := hplaced.block (getElem?_eq_getElem (hlen ▸ hlt))
    have hoffset := (Prod.mk.inj (Option.some.inj (hk.symm.trans hk'))).1
    have hpos : (sb.blksize : Int) ≠ 0 := by have := sb.blksize_pos; omega
    rw [getElem?_eq_getElem hlt, getElem?_eq_getElem (hlen ▸ hlt),
      Int.eq_of_mul_eq_mul_left hpos hoffset]
  · rw [getElem?_eq_none hge, getElem?_eq_none (hlen ▸ hge)]

/-- In the encrypted case the blocks of a file go through the window in order, to their places and
to the map, exactly if none but the first is looked up too early and their numbers are `int`s. -/
theorem produceBlockMap_inOrder_iff {blkDev : BlockDevice} {f2fs : Bool}
    (hstat : sys.stat = some sb) (hfile : Reads sys sb file)
    (hassigns : Assigns sys sb.logicalBlocks phys) (hint : ∀ k < sb.logicalBlocks, phys k < 2 ^ 31)
    (h : Ends (produceBlockMap sys blkDev true f2fs) σ () σ') :
    ∃ ranges, σ'.map = some (mapText blkDev sb ranges ++
        σ.tmp.drop (mapText blkDev sb ranges).length) ∧
      (Findable sys phys σ.ioctls sb.logicalBlocks →
        InOrder sb file phys
          (refills sys sb true sb.size (firstWindow sb true) (afterHeader blkDev sb σ))
            ranges σ σ') ∧
      (Exclusive sys sb.logicalBlocks phys →
        InOrder sb file phys
          (refills sys sb true sb.size (firstWindow sb true) (afterHeader blkDev sb σ))
            ranges σ σ' →
        Findable sys phys σ.ioctls sb.logicalBlocks) := by
  obtain ⟨bs, c, hbs, hlooked, hmap, hcount, hdata⟩ := produceBlockMap_looked file hstat h
  obtain ⟨⟨ws, hdevice, hws⟩, hfills⟩ := hdata rfl hfile
  refine ⟨_, hmap, fun hfind => ?_, fun hexcl hin => ?_⟩
  · obtain ⟨hplaces, -⟩ := hlooked.places_of_inTime hassigns hfind.few hfind.inTime
      (Nat.le_of_eq hbs)
    rw [hbs] at hplaces
    refine ⟨⟨ws, hdevice, hplaces ▸ hws⟩, hcount, fun {i j slot before before'} hij hi hj => ?_, ?_⟩
    · obtain ⟨hsi, -⟩ := hfills hi
      obtain ⟨hsj, hlt⟩ := hfills hj
      -- the blocks `i` and `j` are in one buffer, so `j` comes at least a window later
      have hslot : i % WINDOW_SIZE = j % WINDOW_SIZE := hsi.symm.trans hsj
      have hlater : i + WINDOW_SIZE ≤ j := by
        simp only [WINDOW_SIZE] at hslot ⊢
        omega
      omega
    · rw [hplaces]
      exact (listed_places_iff hint).mpr hfind.inRange
  · obtain ⟨ws', hdevice', hws'⟩ := hin.written
    obtain rfl := append_cancel_left (hdevice.symm.trans hdevice')
    have hplaces := hws.eq_places hws'
    obtain ⟨hfew, htime, -⟩ := hlooked.inTime_of_places hassigns hexcl (Nat.le_of_eq hbs)
      (by rw [hbs]; exact hplaces)
    rw [hbs] at hfew htime
    refine ⟨hfew, htime, (listed_places_iff hint).mp ?_⟩
    have henum := hin.enumerated
    rwa [hplaces] at henum

namespace Sample

def content : Bytes := [1, 2, 3, 4, 5, 6, 7, 8, 9, 10]

/-- The file of three blocks with its bytes. -/
def reading (sys : System) : System :=
  { sys with read := fun pos n => some ((content.drop pos).take n) }

theorem reads (sys : System) : Reads (reading sys) stat content :=
  ⟨rfl, fun _ hread => (Option.some.inj hread).symm⟩

end Sample

open Sample

theorem sample_inOrder : ∃ σ' ranges,
    Ends (produceBlockMap (reading (system stat)) device true true)
      (session []) () σ' ∧
    InOrder stat content placed
      (refills (reading (system stat)) stat true 10
        (firstWindow stat true) (afterHeader device stat (session [])))
      ranges (session []) σ' := by
  have hassigns : Assigns (reading (system stat)) stat.logicalBlocks
      placed := ⟨fun _ k _ b hb => .inr (Option.some.inj hb).symm⟩
  have hplaced : ∀ k < 3, placed k + 1 < 2 ^ 31 ∧ placed k ≠ 0 := by decide
  have hfind : Findable (reading (system stat)) placed 0 stat.logicalBlocks :=
    ⟨by decide, fun _ _ k _ hk h0 => (hplaced k hk).2 (Int.ofNat.inj (Option.some.inj h0)),
      fun k hk => (hplaced k hk).1⟩
  have hends := @ends_of_isOk _ _ (produceBlockMap (reading (system stat))
    device true true) (session []) (by decide +kernel)
  obtain ⟨ranges, -, hin, -⟩ := produceBlockMap_inOrder_iff rfl (reads _) hassigns
    (fun k hk => Nat.lt_of_succ_lt (hplaced k hk).1) hends
  exact ⟨_, ranges, hends, hin hfind⟩

/-- The second block is not allocated when it is looked up first. It is written over the first one,
whose place is block 7, and not to block 8. -/
theorem delayed_overwrites_first :
    Assigns (reading (delayed stat)) stat.logicalBlocks placed ∧
      ∃ σ', Ends (produceBlockMap (reading (delayed stat)) device true false) (session []) () σ' ∧
        σ'.device = [(4 * 7, [1, 2, 3, 4]), (4 * 7, [5, 6, 7, 8]), (4 * 3, [9, 10, 0, 0])] := by
  refine ⟨⟨fun call k _ b hb => ?_⟩, _, ends_of_isOk ?_, ?_⟩
  · by_cases hcall : call = 1
    · exact .inl (Option.some.inj ((if_pos hcall).symm.trans hb)).symm
    · exact .inr (Option.some.inj ((if_neg hcall).symm.trans hb)).symm
  · decide +kernel
  · decide +kernel

end Pterodon.Uncrypt
