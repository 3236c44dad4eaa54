import Pterodon.Uncrypt.Produce

/-!
# What `MapBlockFile` maps, and what a failure leaves behind

`MapBlockFile` reserves the addresses of the whole file and maps one range after the other over
them. A range that is mapped is recorded at once, and the destructor unmaps what is recorded. When
a later line is bad, the reserved addresses are unmapped and the call fails, but what was recorded
by then stays: the destructor unmaps it a second time.
-/

namespace Pterodon.Uncrypt

open Lib List

/-! ## Laying out ranges -/

/-- The ranges one after the other, from an address on. -/
def layout (blksize : Nat) : Pairs → Nat → List MappedRange
  | [], _ => []
  | r :: rs, next =>
    ⟨next, (r.2 - r.1) * blksize, r.1 * blksize⟩ ::
      layout blksize rs (next + (r.2 - r.1) * blksize)

/-- A range with its offset as an `off_t`. -/
def MappedRange.wrap (r : MappedRange) : MappedRange := { r with offset := offT r.offset }

theorem offT_of_lt {n : Nat} (h : n < 2 ^ 63) : offT (n : Int) = n := by
  refine Int.bmod_eq_of_le ?_ ?_ <;> omega

theorem wrap_eq_iff {blksize : Nat} {rs : Pairs} : ∀ {next : Nat},
    (layout blksize rs next).map MappedRange.wrap = layout blksize rs next ↔
      ∀ r ∈ rs, r.1 * blksize < 2 ^ 63 := by
  induction rs with
  | nil => exact iff_of_true rfl (forall_mem_nil _)
  | cons r rs ih =>
    intro next
    have hoffset : offT ((r.1 : Int) * blksize) = r.1 * blksize ↔ r.1 * blksize < 2 ^ 63 := by
      rw [← Nat.cast_mul]
      refine ⟨fun h => ?_, offT_of_lt⟩
      have hlt := @Int.bmod_lt ((r.1 * blksize : Nat) : Int) (2 ^ 64) (by decide)
      rw [← offT] at hlt
      omega
    rw [layout, map_cons, cons.injEq, ih, forall_mem_cons, ← hoffset]
    simp [MappedRange.wrap]

/-! ## The loop -/

/-- The lines hold the numbers of the ranges `rs`, and the device can be mapped as they say. -/
structure Laid (abi : Abi) (mem : Memory) (blksize : Nat) (lines : List Bytes) (next : Nat)
    (rs : Pairs) : Prop where
  scanned : lines.map (fun l => scanSizes abi.bits (cstr l)) = rs.map some
  ordered : ∀ r ∈ rs, r.1 < r.2
  mapped : ∀ r ∈ (layout blksize rs next).map MappedRange.wrap,
    mem.mmap r.addr r.length r.offset = true

section Loop

variable {abi : Abi} {mem : Memory} {blksize next remaining left : Nat} {line : Bytes}
  {lines : List Bytes} {ranges : List MappedRange}

theorem laid_cons {r : Nat × Nat} {rs : Pairs} :
    Laid abi mem blksize (line :: lines) next (r :: rs) ↔
      scanSizes abi.bits (cstr line) = some r ∧ r.1 < r.2 ∧
      mem.mmap next ((r.2 - r.1) * blksize) (offT (r.1 * blksize)) = true ∧
      Laid abi mem blksize lines (next + (r.2 - r.1) * blksize) rs := by
  constructor
  · rintro ⟨hscan, hordered, hmapped⟩
    simp only [layout, map_cons, forall_mem_cons, cons.injEq, MappedRange.wrap] at *
    exact ⟨hscan.1, hordered.1, hmapped.1, hscan.2, hordered.2, hmapped.2⟩
  · rintro ⟨hscan, hlt, hmmap, hscans, hordered, hmapped⟩
    refine ⟨by rw [map_cons, map_cons, hscan, hscans], forall_mem_cons.mpr ⟨hlt, hordered⟩, ?_⟩
    simp only [layout, map_cons, forall_mem_cons, MappedRange.wrap]
    exact ⟨hmmap, hmapped⟩

theorem mapRange_some_iff (hpos : 0 < blksize) (hrem : remaining < 2 ^ abi.bits) {r : MappedRange} :
    mapRange abi mem blksize line next remaining = some r ↔
      ∃ first last, scanSizes abi.bits (cstr line) = some (first, last) ∧ first < last ∧
        (last - first) * blksize ≤ remaining ∧
        mem.mmap next ((last - first) * blksize) (offT (first * blksize)) = true ∧
        r = ⟨next, (last - first) * blksize, offT (first * blksize)⟩ := by
  unfold mapRange
  rcases scanSizes abi.bits (cstr line) with _ | ⟨first, last⟩
  · exact ⟨nofun, nofun⟩
  have hguard : (last ≤ first ∨ abi.sizeMax / blksize < last - first ∨
      remaining < (last - first) * blksize % 2 ^ abi.bits) ↔
      ¬ (first < last ∧ (last - first) * blksize ≤ remaining) := by
    rw [Nat.div_lt_iff_lt_mul hpos, Abi.sizeMax]
    by_cases hfit : (last - first) * blksize < 2 ^ abi.bits
    · rw [Nat.mod_eq_of_lt hfit]
      omega
    · omega
  simp only [hguard, ite_not]
  constructor
  · intro h
    split at h
    case isFalse => cases h
    rename_i hok
    rw [Nat.mod_eq_of_lt (by omega)] at h
    split at h
    · rename_i hmmap
      exact ⟨first, last, rfl, hok.1, hok.2, hmmap, (Option.some.inj h).symm⟩
    · cases h
  · rintro ⟨f, l, heq, hlt, hle, hmmap, rfl⟩
    cases heq
    rw [if_pos ⟨hlt, hle⟩, Nat.mod_eq_of_lt (by omega), if_pos hmmap]

theorem mapRanges_cons {size : Nat} {offset : Int}
    (h : mapRange abi mem blksize line next remaining = some ⟨next, size, offset⟩) :
    mapRanges abi mem blksize (line :: lines) next remaining =
      (⟨next, size, offset⟩ :: (mapRanges abi mem blksize lines (next + size) (remaining - size)).1,
        (mapRanges abi mem blksize lines (next + size) (remaining - size)).2) := by
  rw [mapRanges, h]

/-- The loop comes to its end exactly if the lines hold ranges that can be mapped and fit in. -/
theorem mapRanges_iff (hpos : 0 < blksize) : ∀ {lines : List Bytes} {next remaining : Nat}
    {ranges : List MappedRange}, remaining < 2 ^ abi.bits →
    (mapRanges abi mem blksize lines next remaining = (ranges, some left) ↔
      ∃ rs, Laid abi mem blksize lines next rs ∧
        (spread rs).length * blksize + left = remaining ∧
        ranges = (layout blksize rs next).map MappedRange.wrap)
  | [], next, remaining, ranges, _ => by
    constructor
    · intro h
      cases h
      exact ⟨[], ⟨rfl, forall_mem_nil _, forall_mem_nil _⟩, by simp [spread], rfl⟩
    · rintro ⟨rs, hlaid, hsum, rfl⟩
      obtain rfl : rs = [] := map_eq_nil_iff.mp hlaid.scanned.symm
      rw [show spread [] = [] from rfl, length_nil, Nat.zero_mul, Nat.zero_add] at hsum
      rw [hsum]
      rfl
  | line :: lines, next, remaining, ranges, hrem => by
    constructor
    · intro h
      cases hrange : mapRange abi mem blksize line next remaining with
      | none =>
        rw [mapRanges, hrange] at h
        cases h
      | some r =>
        obtain ⟨first, last, hscan, hlt, hle, hmmap, rfl⟩ := (mapRange_some_iff hpos hrem).mp hrange
        rw [mapRanges_cons hrange, Prod.mk.injEq] at h
        obtain ⟨rfl, hleft⟩ := h
        obtain ⟨rs, hlaid, hsum, hrest⟩ := (mapRanges_iff hpos (by omega)).mp (Prod.ext rfl hleft)
        refine ⟨(first, last) :: rs, laid_cons.mpr ⟨hscan, hlt, hmmap, hlaid⟩, ?_, ?_⟩
        · rw [spread_cons_length, Nat.add_mul]
          dsimp only
          omega
        · exact congrArg (List.cons _) hrest
    · rintro ⟨rs, hlaid, hsum, rfl⟩
      cases rs with
      | nil => cases hlaid.scanned
      | cons r rs =>
        obtain ⟨hscan, hlt, hmmap, hlaid⟩ := laid_cons.mp hlaid
        rw [spread_cons_length, Nat.add_mul] at hsum
        have hrange := (mapRange_some_iff hpos hrem).mpr
          ⟨r.1, r.2, hscan, hlt, by omega, hmmap, rfl⟩
        have hrest := (mapRanges_iff hpos (by omega : remaining - (r.2 - r.1) * blksize < _)).mpr
          ⟨rs, hlaid, by omega, rfl⟩
        rw [mapRanges_cons hrange, hrest]
        rfl

theorem mapRanges_eq_nil (hne : lines ≠ []) :
    (mapRanges abi mem blksize lines next remaining).1 = [] ↔
      ∀ l ∈ lines.head?, mapRange abi mem blksize l next remaining = none := by
  obtain ⟨line, lines, rfl⟩ := exists_cons_of_ne_nil hne
  rw [mapRanges]
  cases hrange : mapRange abi mem blksize line next remaining <;> simp [hrange]

end Loop

/-! ## The whole map -/

section Map

variable {abi : Abi} {mem : Memory} {content : Bytes} {s : Reservation} {rs : Pairs}

theorem reserveSpace_some (h : reserveSpace abi mem content = some s) :
    0 < s.blksize ∧ s.blocks = (s.size - 1) / s.blksize + 1 ∧
      s.blocks * s.blksize < 2 ^ abi.bits ∧ s.lines ≠ [] := by
  unfold reserveSpace at h
  split at h
  case isFalse => cases h
  dsimp only at h
  split at h
  · cases h
  split at h
  case h_2 => cases h
  split at h
  · cases h
  rename_i hok
  push Not at hok
  split at h
  case isFalse => cases h
  cases h
  have hpos : 0 < _ := Nat.pos_of_ne_zero hok.2.1
  refine ⟨hpos, rfl, ?_, ?_⟩
  · have hle := (Nat.le_div_iff_mul_le hpos).mp hok.2.2.1
    exact Nat.lt_of_le_of_lt hle (Nat.sub_lt (Nat.two_pow_pos _) Nat.one_pos)
  · rw [ne_eq, drop_eq_nil_iff]
    omega

/-- The ranges `rs` are on the lines of the map, can be mapped, and are as many blocks as the file
has. -/
structure Tiled (abi : Abi) (mem : Memory) (s : Reservation) (rs : Pairs) : Prop
    extends Laid abi mem s.blksize s.lines 0 rs where
  blocks : (spread rs).length = s.blocks

/-- `MapBlockFile` returns true exactly if its lines tile the file. -/
theorem mapBlockFile_some_iff (h : reserveSpace abi mem content = some s) {m : MemMapping} :
    (mapBlockFile abi mem content).1 = some m ↔ ∃ rs, Tiled abi mem s rs ∧
      m = ⟨s.blockDev, (layout s.blksize rs 0).map MappedRange.wrap, s.size⟩ := by
  obtain ⟨hpos, -, hfits, -⟩ := reserveSpace_some h
  have hiff := @mapRanges_iff abi mem s.blksize 0 hpos s.lines 0 _
    (mapRanges abi mem s.blksize s.lines 0 (s.blocks * s.blksize)).1 hfits
  have hblocks : ∀ {rs : Pairs}, (spread rs).length * s.blksize + 0 = s.blocks * s.blksize ↔
      (spread rs).length = s.blocks := fun {rs} => Nat.mul_left_inj (Nat.ne_of_gt hpos)
  rw [mapBlockFile, h]
  dsimp only
  constructor
  · intro hm
    split at hm
    case isFalse => cases hm
    rename_i hdone
    obtain ⟨rs, hlaid, hsum, hranges⟩ := hiff.mp (Prod.ext rfl hdone)
    cases hm
    exact ⟨rs, ⟨hlaid, hblocks.mp hsum⟩, by rw [hranges]⟩
  · rintro ⟨rs, htiled, rfl⟩
    have hdone := (@mapRanges_iff abi mem s.blksize 0 hpos s.lines 0 _ _ hfits).mpr
      ⟨rs, htiled.toLaid, hblocks.mpr htiled.blocks, rfl⟩
    rw [hdone, if_pos rfl]

theorem mapBlockFile_snd {m : MemMapping} (h : (mapBlockFile abi mem content).1 = some m) :
    (mapBlockFile abi mem content).2 = m.ranges := by
  unfold mapBlockFile at h ⊢
  split at h
  · cases h
  · dsimp only at h ⊢
    split at h
    · rw [← Option.some.inj h]
    · cases h

/-- On the first line of the ranges there are no two numbers, or they are no range, or one of more
blocks than the file has, or one that the device refuses. -/
def Reservation.FirstRefused (abi : Abi) (mem : Memory) (s : Reservation) : Prop :=
  ∀ l ∈ s.lines.head?, ∀ first last, scanSizes abi.bits (cstr l) = some (first, last) →
    first < last → last - first ≤ s.blocks →
    mem.mmap 0 ((last - first) * s.blksize) (offT (first * s.blksize)) = false

theorem mapBlockFile_snd_nil_iff (h : reserveSpace abi mem content = some s) :
    (mapBlockFile abi mem content).2 = [] ↔ s.FirstRefused abi mem := by
  obtain ⟨hpos, -, hfits, hlines⟩ := reserveSpace_some h
  rw [mapBlockFile, h]
  dsimp only
  rw [mapRanges_eq_nil hlines]
  refine forall₂_congr fun l _ => ?_
  rw [Option.eq_none_iff_forall_ne_some]
  constructor
  · intro hnone first last hscan hlt hle
    refine Bool.eq_false_iff.mpr fun hmmap => ?_
    exact hnone ⟨0, (last - first) * s.blksize, offT (first * s.blksize)⟩
      ((mapRange_some_iff hpos hfits).mpr
        ⟨first, last, hscan, hlt, Nat.mul_le_mul_right _ hle, hmmap, rfl⟩)
  · intro hrefused r hr
    obtain ⟨first, last, hscan, hlt, hle, hmmap, -⟩ := (mapRange_some_iff hpos hfits).mp hr
    have hfalse := hrefused first last hscan hlt (Nat.le_of_mul_le_mul_right hle hpos)
    exact Bool.eq_false_iff.mp hfalse hmmap

/-- The mapping is exact: the ranges of the lines tile the reserved space in order, at the offsets
that the lines name. -/
def Exact (abi : Abi) (s : Reservation) (m : MemMapping) : Prop :=
  ∃ rs : Pairs, s.lines.map (fun l => scanSizes abi.bits (cstr l)) = rs.map some ∧
    (∀ r ∈ rs, r.1 < r.2) ∧ (spread rs).length = s.blocks ∧
    m.ranges = layout s.blksize rs 0

/-- The numbers of the lines determine the ranges. -/
theorem Tiled.exact_iff (h : Tiled abi mem s rs) :
    Exact abi s ⟨s.blockDev, (layout s.blksize rs 0).map MappedRange.wrap, s.size⟩ ↔
      ∀ r ∈ rs, r.1 * s.blksize < 2 ^ 63 := by
  rw [← @wrap_eq_iff _ _ 0]
  constructor
  · rintro ⟨rs', hscan, -, -, hranges⟩
    obtain rfl : rs = rs' :=
      map_injective_iff.mpr (Option.some_injective _) (h.scanned.symm.trans hscan)
    exact hranges
  · exact fun heq => ⟨rs, h.scanned, h.ordered, h.blocks, heq⟩

end Map

/-- Sizes never wrap: the reserved space fits a `size_t`, and a call that returns true lays the
ranges of the lines out over all of it. The mapping is exact, and a call that returns false leaves
nothing recorded, if and only if the first range is refused or the lines tile the file with offsets
that fit an `off_t`. -/
theorem mapBlockFile_exact_iff (abi : Abi) (mem : Memory) (content : Bytes) :
    (∀ m, (mapBlockFile abi mem content).1 = some m →
      ∃ s rs, reserveSpace abi mem content = some s ∧ Tiled abi mem s rs ∧
        s.blocks = (s.size - 1) / s.blksize + 1 ∧ s.blocks * s.blksize < 2 ^ abi.bits ∧
        m = ⟨s.blockDev, (layout s.blksize rs 0).map MappedRange.wrap, s.size⟩ ∧
        (mapBlockFile abi mem content).2 = m.ranges) ∧
    ((∀ m, (mapBlockFile abi mem content).1 = some m →
        ∃ s, reserveSpace abi mem content = some s ∧ Exact abi s m) ∧
      ((mapBlockFile abi mem content).1 = none → (mapBlockFile abi mem content).2 = []) ↔
    ∀ s, reserveSpace abi mem content = some s → s.FirstRefused abi mem ∨
      ∃ rs, Tiled abi mem s rs ∧ ∀ r ∈ rs, r.1 * s.blksize < 2 ^ 63) := by
  cases hspace : reserveSpace abi mem content with
  | none =>
    have hnone : mapBlockFile abi mem content = (none, []) := by rw [mapBlockFile, hspace]
    rw [hnone]
    exact ⟨nofun, iff_of_true ⟨nofun, fun _ => rfl⟩ nofun⟩
  | some s =>
    obtain ⟨-, hblocks, hfits, -⟩ := reserveSpace_some hspace
    have hsome : ∀ m, (mapBlockFile abi mem content).1 = some m → ∃ rs, Tiled abi mem s rs ∧
        m = ⟨s.blockDev, (layout s.blksize rs 0).map MappedRange.wrap, s.size⟩ ∧
        (mapBlockFile abi mem content).2 = m.ranges := by
      intro m hm
      obtain ⟨rs, htiled, hm'⟩ := (mapBlockFile_some_iff hspace).mp hm
      exact ⟨rs, htiled, hm', mapBlockFile_snd hm⟩
    refine ⟨fun m hm => ?_, fun ⟨hexact, hundone⟩ s' hs' => ?_, fun h => ?_⟩
    · obtain ⟨rs, htiled, hm, hranges⟩ := hsome m hm
      exact ⟨s, rs, rfl, htiled, hblocks, hfits, hm, hranges⟩
    · cases hs'
      cases hm : (mapBlockFile abi mem content).1 with
      | none => exact .inl ((mapBlockFile_snd_nil_iff hspace).mp (hundone hm))
      | some m =>
        obtain ⟨rs, htiled, rfl, -⟩ := hsome m hm
        obtain ⟨s', hs', hexact⟩ := hexact _ hm
        cases hs'
        exact .inr ⟨rs, htiled, htiled.exact_iff.mp hexact⟩
    · rcases h s rfl with hrefused | ⟨rs, htiled, hoffsets⟩
      · -- nothing is recorded, so nothing is mapped either
        have hnil := (mapBlockFile_snd_nil_iff hspace).mpr hrefused
        refine ⟨fun m hm => ?_, fun _ => hnil⟩
        obtain ⟨rs, htiled, rfl, hranges⟩ := hsome m hm
        refine ⟨s, rfl, htiled.exact_iff.mpr ?_⟩
        obtain rfl : rs = [] := by
          cases rs with
          | nil => rfl
          | cons r rs => exact absurd (hranges.symm.trans hnil) (cons_ne_nil _ _)
        exact forall_mem_nil _
      · have hm := (mapBlockFile_some_iff hspace).mpr ⟨rs, htiled, rfl⟩
        rw [hm]
        refine ⟨fun m hm' => ?_, nofun⟩
        cases hm'
        exact ⟨s, rfl, htiled.exact_iff.mpr hoffsets⟩

namespace Sample

/-- A device that is mapped by the page. -/
def memory : Memory :=
  ⟨true, fun _ => true, fun _ => true, fun addr _ offset => addr % 4096 = 0 ∧ offset % 4096 = 0⟩

/-- A map of a file on `/d` with blocks of a page. -/
def mapOf (blocks : Nat) (rs : Pairs) : Bytes :=
  ascii "/d\n".toList ++ natBytes (blocks * 4096) ++ [32] ++ natBytes 4096 ++ [10] ++
    natBytes rs.length ++ rs.flatMap fun r => [10] ++ natBytes r.1 ++ [32] ++ natBytes r.2

end Sample

open Sample

/-- Three blocks in the ranges 1 to 3 and 7 to 8. -/
theorem goodMap_exact : (mapBlockFile .lp64 memory (mapOf 3 [(1, 3), (7, 8)])).1 =
        some ⟨[47, 100], [⟨0, 8192, 4096⟩, ⟨8192, 4096, 28672⟩], 12288⟩ ∧
      ∀ s, reserveSpace .lp64 memory (mapOf 3 [(1, 3), (7, 8)]) = some s →
        s.FirstRefused .lp64 memory ∨
        ∃ rs, Tiled .lp64 memory s rs ∧ ∀ r ∈ rs, r.1 * s.blksize < 2 ^ 63 := by
  have hmap : mapBlockFile .lp64 memory (mapOf 3 [(1, 3), (7, 8)]) =
      (some ⟨[47, 100], [⟨0, 8192, 4096⟩, ⟨8192, 4096, 28672⟩], 12288⟩,
        [⟨0, 8192, 4096⟩, ⟨8192, 4096, 28672⟩]) := by
    decide +kernel
  refine ⟨by rw [hmap], (mapBlockFile_exact_iff _ _ _).2.mp ⟨fun m hm => ?_, ?_⟩⟩
  · rw [hmap] at hm
    cases hm
    exact ⟨_, rfl, [(1, 3), (7, 8)], by decide +kernel⟩
  · rw [hmap]
    exact nofun

/-- The second range of the first map is empty: the call fails and the first range stays recorded.
And block `2 ^ 52` is mapped from the start of the device. -/
theorem badMap_recorded : mapBlockFile .lp64 memory (mapOf 3 [(1, 3), (7, 7)]) =
        (none, [⟨0, 8192, 4096⟩]) ∧
    mapBlockFile .lp64 memory (mapOf 1 [(2 ^ 52, 2 ^ 52 + 1)]) =
        (some ⟨[47, 100], [⟨0, 4096, 0⟩], 4096⟩, [⟨0, 4096, 0⟩]) := by
  decide +kernel

end Pterodon.Uncrypt
