import Pterodon.Uncrypt.Unmapping

/-!
# Block maps are read back

A map that was written is read back as the blocks that it lists: the lines of the ranges are
read back as the ranges, and the ranges, laid out one after the other, show the blocks of
the sequence in order.

That needs the map to end where its text ends. If the temporary file was longer and holds
anything but blanks there, the lines that are left over make `MapBlockFile` refuse the map. And the
blocks it lists are those of the file exactly if none but the first is looked up before it is
allocated.
-/

namespace Pterodon.Uncrypt

open Lib List

/-! ## What a mapping shows -/

theorem showsAt_layout {blksize : Nat} (hpos : 0 < blksize) (rs : Pairs) {next i : Nat}
    (hi : next ≤ i) :
    showsAt (layout blksize rs next) i = ((spread rs)[(i - next) / blksize]?).map
        fun b : Nat => (b : Int) * blksize + ((i - next) % blksize : Nat) := by
  induction rs generalizing next with
  | nil => rfl
  | cons r rs ih =>
    obtain ⟨q, hq⟩ : ∃ q, q = (i - next) / blksize := ⟨_, rfl⟩
    have hblocks : spread (r :: rs) = range' r.1 (r.2 - r.1) ++ spread rs := rfl
    obtain ⟨m, hm⟩ : ∃ m, m = (i - next) % blksize := ⟨_, rfl⟩
    have hsplit : blksize * q + m = i - next := hq ▸ hm ▸ Nat.div_add_mod _ _
    have hin : i < next + (r.2 - r.1) * blksize ↔ q < r.2 - r.1 := by
      rw [hq, Nat.div_lt_iff_lt_mul hpos]
      omega
    rw [← hq, ← hm, hblocks]
    show (findSome? _ (_ :: _)) = _
    rw [findSome?_cons]
    by_cases hlt : q < r.2 - r.1
    · -- the address is in the first range
      rw [if_pos ⟨hi, hin.mpr hlt⟩, getElem?_append_left (by rwa [length_range']),
        getElem?_range' hlt]
      show some ((r.1 * blksize : Int) + (i - next : Nat)) = some _
      rw [← hsplit]
      push_cast
      rw [Int.add_mul, Int.mul_comm (blksize : Int) q, Int.one_mul, Int.add_assoc]
    · rw [if_neg fun h => hlt (hin.mp h.2)]
      have hge : next + (r.2 - r.1) * blksize ≤ i := Nat.not_lt.mp fun h => hlt (hin.mp h)
      have hrest : i - (next + (r.2 - r.1) * blksize) = i - next - blksize * (r.2 - r.1) := by
        rw [Nat.mul_comm]
        omega
      have hnext := ih hge
      rw [hrest, Nat.sub_mul_div, Nat.sub_mul_mod (by rw [Nat.mul_comm]; omega), ← hq,
        ← hm] at hnext
      rw [getElem?_append_right (by rw [length_range']; omega), length_range']
      exact hnext

/-- A mapping that shows the blocks of a file, in order. -/
structure MapsFile (blkDev : BlockDevice) (sb : Stat) (phys : Nat → Nat) (m : MemMapping) :
    Prop where
  device : m.blockDev = blkDev.path
  length : m.length = sb.size
  shows : ∀ i, showsAt m.ranges i =
    if i < sb.blocks * sb.blksize then
      some ((phys (i / sb.blksize) : Int) * sb.blksize + (i % sb.blksize : Nat))
    else none

section Shows

variable {blkDev : BlockDevice} {sb : Stat} {rs : Pairs} {phys : Nat → Nat}

theorem mapsFile_layout_iff (hlen : (spread rs).length = sb.blocks) :
    MapsFile blkDev sb phys ⟨blkDev.path, layout sb.blksize rs 0, sb.size⟩ ↔
      spread rs = (List.range sb.blocks).map phys := by
  have hpos := sb.blksize_pos
  have hshows := fun i => showsAt_layout hpos rs (Nat.zero_le i)
  constructor
  · intro h
    refine ext_getElem? fun k => ?_
    rcases Nat.lt_or_ge k sb.blocks with hk | hk
    · -- the first byte of block `k`
      have hi : k * sb.blksize < sb.blocks * sb.blksize := Nat.mul_lt_mul_of_pos_right hk hpos
      have hk' : k < (spread rs).length := hlen ▸ hk
      have heq := (hshows (k * sb.blksize)).symm.trans (h.shows (k * sb.blksize))
      rw [if_pos hi, Nat.sub_zero, Nat.mul_div_cancel _ hpos, getElem?_eq_getElem hk',
        Option.map_some, Option.some.injEq] at heq
      have hmul := Int.eq_of_mul_eq_mul_right (by omega) (add_right_cancel heq)
      rw [getElem?_eq_getElem hk', getElem?_map, getElem?_range hk, Int.ofNat.inj hmul]
      rfl
    · rw [getElem?_eq_none (hlen ▸ hk), getElem?_eq_none (by rwa [length_map, length_range])]
  · intro hblocks
    refine ⟨rfl, rfl, fun i => ?_⟩
    rw [hshows, Nat.sub_zero, hblocks]
    by_cases hi : i < sb.blocks * sb.blksize
    · have hq : i / sb.blksize < sb.blocks := (Nat.div_lt_iff_lt_mul hpos).mpr hi
      rw [if_pos hi, getElem?_map, getElem?_range hq]
      rfl
    · have hq : ¬ i / sb.blksize < sb.blocks := fun h => hi ((Nat.div_lt_iff_lt_mul hpos).mp h)
      rw [if_neg hi, getElem?_eq_none (by rw [length_map, length_range]; omega)]
      rfl

end Shows

/-! ## Reading the lines -/

/-- The calls of `MapBlockFile` work: what can go wrong is the map. -/
structure Memory.Works (mem : Memory) (page : Nat) (blkDev : BlockDevice) : Prop where
  page_lt : 1 < page
  readable : mem.readable = true
  reserve : ∀ size, mem.reserve size = true
  opens : mem.opens blkDev.path = true
  /-- Addresses and offsets are mapped by the page. -/
  mmap : ∀ next size offset, page ∣ next → (page : Int) ∣ offset → mem.mmap next size offset = true

theorem natBytes_no_zero {n : Nat} : 0 ∉ natBytes n := by
  intro h
  exact Bool.false_ne_true (isDigitByte_of_mem_natBytes h)

theorem cstr_two_numbers (m n : Nat) :
    cstr (natBytes m ++ 32 :: natBytes n) = natBytes m ++ 32 :: natBytes n := by
  refine cstr_of_notMem ?_
  rw [mem_append, mem_cons]
  rintro (h | h | h)
  · exact natBytes_no_zero h
  · exact absurd h (by decide)
  · exact natBytes_no_zero h

theorem Abi.bits_cases (abi : Abi) : abi.bits = 32 ∨ abi.bits = 64 := by
  cases abi with
  | ilp32 => exact .inl rfl
  | lp64 => exact .inr rfl

theorem Abi.lt_pow_bits (abi : Abi) {n : Nat} (h : n < 2 ^ 32) : n < 2 ^ abi.bits := by
  rcases abi.bits_cases with hbits | hbits <;> rw [hbits]
  · exact h
  · omega

variable {abi : Abi} {mem : Memory} {page : Nat} {blkDev : BlockDevice} {sb : Stat} {rs : Pairs}
  {content rest : Bytes} {more : List Bytes} {bs : List Nat}

theorem solid_intBytes (n : Int) : Solid (intBytes n) := by
  rw [intBytes]
  split
  · refine Solid.of_no_space (cons_ne_nil _ _) (forall_mem_cons.mpr ⟨rfl, fun b hb => ?_⟩)
    exact isSpace_of_isDigitByte (isDigitByte_of_mem_natBytes hb)
  · exact solid_natBytes _

theorem blockMapLines_solid (blkDev : BlockDevice) (sb : Stat) (rs : Pairs) :
    ∀ l ∈ blockMapLines blkDev sb rs, Solid l := by
  intro l hl
  rcases mem_append.mp hl with hl | hl
  · simp only [mem_cons, not_mem_nil, or_false] at hl
    rcases hl with rfl | rfl | rfl
    · exact Solid.of_no_space blkDev.nonempty fun b hb => (blkDev.no_space b hb).2
    · exact (solid_natBytes _).append (solid_natBytes _) (by decide)
    · exact solid_natBytes _
  · obtain ⟨r, -, rfl⟩ := mem_map.mp hl
    exact (solid_natBytes _).append (solid_intBytes _) (by decide)

theorem blockMapLines_length (blkDev : BlockDevice) (sb : Stat) (rs : Pairs) :
    (blockMapLines blkDev sb rs).length = 3 + rs.length := by
  rw [blockMapLines, length_append, length_map]
  rfl

theorem Stat.size_le (sb : Stat) : sb.size ≤ sb.blocks * sb.blksize := by
  have hdiv := Nat.div_add_mod (sb.size - 1) sb.blksize
  have hmod := Nat.mod_lt (sb.size - 1) sb.blksize_pos
  rw [Stat.blocks, Nat.succ_mul, Nat.mul_comm]
  omega

theorem Stat.blocks_le (sb : Stat) (hne : 0 < sb.size) : sb.blocks ≤ sb.size := by
  have := Nat.div_le_self (sb.size - 1) sb.blksize
  rw [Stat.blocks]
  omega

/-- What `MapBlockFile` makes of the first lines: there must be no lines left over. -/
theorem reserveSpace_lines (hmem : mem.Works page blkDev) (hpage : page ∣ sb.blksize)
    (hne : 0 < sb.size) (hrs : rs ≠ []) (hcount : rs.length ≤ sb.blocks)
    (hlines : (trim content).splitOn 10 = blockMapLines blkDev sb rs ++ more) {s : Reservation} :
    reserveSpace abi mem content = some s ∧ s.size = sb.size ↔
      more = [] ∧ sb.blocks * sb.blksize < 2 ^ abi.bits ∧
        s = ⟨blkDev.path, sb.size, sb.blksize, sb.blocks, rs.map rangeLine⟩ := by
  have hpos := sb.blksize_pos
  have hrs' : 0 < rs.length := length_pos_iff.mpr hrs
  -- either way the size of the file fits
  have hfits : reserveSpace abi mem content = some s ∧ s.size = sb.size ∨
      sb.blocks * sb.blksize < 2 ^ abi.bits → sb.size < 2 ^ abi.bits := by
    rintro (⟨hs, hsize⟩ | hblocks)
    · obtain ⟨hpos, hblocks, hlt, -⟩ := reserveSpace_some hs
      have hle := @Nat.lt_div_mul_add (s.size - 1) _ hpos
      rw [hblocks, Nat.succ_mul] at hlt
      omega
    · exact Nat.lt_of_le_of_lt sb.size_le hblocks
  by_cases hsize : sb.size < 2 ^ abi.bits
  case neg =>
    exact iff_of_false (fun h => hsize (hfits (.inl h))) fun h => hsize (hfits (.inr h.2.1))
  have hsize64 := sb.size_lt
  have hblk := sb.blksize_lt
  have hle := sb.blocks_le hne
  have hsizes : scanSizes abi.bits (cstr ((blockMapLines blkDev sb rs ++ more).getD 1 [])) =
      some (sb.size, sb.blksize) := by
    show scanSizes abi.bits (cstr (natBytes sb.size ++ 32 :: natBytes sb.blksize)) = _
    rw [cstr_two_numbers]
    exact scanSizes_natBytes hsize (abi.lt_pow_bits hblk) (by omega) (by omega)
  have hranges : scanSize abi.bits (cstr ((blockMapLines blkDev sb rs ++ more).getD 2 [])) =
      some (rs.length, []) := by
    show scanSize abi.bits (cstr (natBytes rs.length)) = _
    have hscan := @scanSize_natBytes abi.bits rs.length (by omega) (by omega) [] []
      (by simp) (by simp)
    rw [nil_append, append_nil] at hscan
    rw [cstr_of_notMem natBytes_no_zero, hscan]
  have hpath : cstr ((blockMapLines blkDev sb rs ++ more).getD 0 []) = blkDev.path :=
    cstr_of_notMem fun h => (blkDev.no_space 0 h).1 rfl
  have hlen : (blockMapLines blkDev sb rs ++ more).length = 3 + rs.length + more.length := by
    rw [length_append, blockMapLines_length]
  have hguard : (sb.size = 0 ∨ sb.blksize = 0 ∨ abi.sizeMax / sb.blksize < sb.blocks ∨
      rs.length = 0 ∨ 3 + rs.length + more.length ≠ (3 + rs.length) % 2 ^ abi.bits) ↔
      ¬ (more = [] ∧ sb.blocks * sb.blksize < 2 ^ abi.bits) := by
    have hmore : more = [] ↔ more.length = 0 := length_eq_zero_iff.symm
    rw [Nat.div_lt_iff_lt_mul hpos, Abi.sizeMax, hmore]
    by_cases hspace : sb.blocks * sb.blksize < 2 ^ abi.bits
    · -- blocks of two bytes at least, so that three more lines do not wrap
      have htwo : sb.blocks * 2 ≤ sb.blocks * sb.blksize :=
        Nat.mul_le_mul_left _ (Nat.lt_of_lt_of_le hmem.page_lt (Nat.le_of_dvd hpos hpage))
      have hbits : 3 + rs.length < 2 ^ abi.bits := by
        rcases abi.bits_cases with hb | hb <;> rw [hb] at hspace ⊢ <;> omega
      rw [Nat.mod_eq_of_lt hbits]
      omega
    · omega
  rw [reserveSpace, if_pos hmem.readable, hlines]
  dsimp only
  rw [hlen, if_neg (by omega), hsizes, hranges]
  dsimp only
  rw [← Stat.blocks, if_congr hguard rfl rfl, hpath, hmem.reserve, hmem.opens, ite_not]
  by_cases hok : more = [] ∧ sb.blocks * sb.blksize < 2 ^ abi.bits
  · obtain ⟨rfl, hspace⟩ := hok
    have hdrop : (blockMapLines blkDev sb rs ++ []).drop 3 = rs.map rangeLine := by
      rw [append_nil]
      rfl
    rw [if_pos ⟨rfl, hspace⟩, hdrop]
    refine ⟨fun h => ⟨rfl, hspace, (Option.some.inj h.1).symm⟩, fun h => ?_⟩
    rw [h.2.2]
    exact ⟨rfl, rfl⟩
  · rw [if_neg hok]
    exact iff_of_false (by simp) fun h => hok ⟨h.1, h.2.1⟩

theorem reserveSpace_text (hmem : mem.Works page blkDev) (hpage : page ∣ sb.blksize)
    (hne : 0 < sb.size) (hrs : rs ≠ []) (hcount : rs.length ≤ sb.blocks) {s : Reservation} :
    reserveSpace abi mem ((blockMapLines blkDev sb rs).flatMap (· ++ [10]) ++ rest) = some s ∧
        s.size = sb.size ↔
      (∀ b ∈ rest, isSpace b = true) ∧ sb.blocks * sb.blksize < 2 ^ abi.bits ∧
        s = ⟨blkDev.path, sb.size, sb.blksize, sb.blocks, rs.map rangeLine⟩ := by
  have hlines : blockMapLines blkDev sb rs ≠ [] := cons_ne_nil _ _
  have hsolid := blockMapLines_solid blkDev sb rs
  by_cases hblank : ∀ b ∈ rest, isSpace b = true
  · have hsplit := (splitOn_trim_lines hlines hsolid hblank).trans (append_nil _).symm
    rw [reserveSpace_lines hmem hpage hne hrs hcount hsplit]
    exact and_congr_left' (iff_of_true rfl hblank)
  · -- the old lines that are left make one line too many
    obtain ⟨more, hmore, hsplit⟩ := splitOn_trim_more hlines hsolid hblank
    rw [reserveSpace_lines hmem hpage hne hrs hcount hsplit]
    exact iff_of_false (fun h => hmore h.1) fun h => hblank h.1

/-! ## Reading the ranges -/

/-- The end of a range as it is read back: one that is not an `int` is printed as a negative
number. -/
def Abi.readEnd (abi : Abi) (n : Nat) : Nat := if n = 2 ^ 31 then 2 ^ abi.bits - 2 ^ 31 else n

theorem scan_rangeLine {r : Nat × Nat} (hlt : r.1 < r.2) (hle : r.2 ≤ 2 ^ 31) :
    scanSizes abi.bits (cstr (rangeLine r)) = some (r.1, abi.readEnd r.2) := by
  have hfirst : r.1 < 2 ^ abi.bits := abi.lt_pow_bits (by omega)
  rcases Nat.lt_or_eq_of_le hle with hend | hend
  · rw [rangeLine, int32_of_lt hend, intBytes_natCast, cstr_two_numbers,
      scanSizes_natBytes hfirst (abi.lt_pow_bits (by omega)) (by omega) (by omega), Abi.readEnd,
      if_neg (by omega)]
  · have hprinted : intBytes (int32 r.2) = ascii "-2147483648".toList := by
      rw [hend]
      decide +kernel
    have hline : cstr (rangeLine r) = natBytes r.1 ++ 32 :: ascii "-2147483648".toList := by
      rw [rangeLine, hprinted]
      refine cstr_of_notMem ?_
      rw [mem_append]
      exact fun h => h.elim natBytes_no_zero (by decide +kernel)
    rw [hline, scanSizes_cons hfirst (by omega), Abi.readEnd, if_pos hend]
    cases abi with
    | ilp32 => rw [show scanSize _ _ = some (2 ^ 31, []) by decide +kernel]; rfl
    | lp64 => rw [show scanSize _ _ = some (2 ^ 64 - 2 ^ 31, []) by decide +kernel]; rfl

theorem length_le_spread (hplain : Plain rs) : rs.length ≤ (spread rs).length := by
  induction rs with
  | nil => exact Nat.le_refl 0
  | cons r rs ih =>
    have hrest := ih (forall_mem_cons.mp hplain).2
    have hlt := (hplain r mem_cons_self).1
    rw [spread_cons_length, length_cons]
    omega

theorem range_le_spread {r : Nat × Nat} (h : r ∈ rs) : r.2 - r.1 ≤ (spread rs).length := by
  induction rs with
  | nil => cases h
  | cons q rs ih =>
    rw [spread_cons_length]
    rcases mem_cons.mp h with rfl | h
    · exact Nat.le_add_right _ _
    · exact Nat.le_trans (ih h) (Nat.le_add_left _ _)

/-- Every end of a range is read back as it was. -/
def Abi.ReadsEnds (abi : Abi) (bs : List Nat) : Prop := abi = .lp64 → ∀ b ∈ bs, b + 1 < 2 ^ 31

theorem Abi.readEnd_map (hplain : Plain rs) (h : abi.ReadsEnds (spread rs)) :
    rs.map (fun r => (r.1, abi.readEnd r.2)) = rs := by
  refine (map_congr_left fun r hr => ?_).trans (map_id rs)
  obtain ⟨hlt, hle⟩ := hplain r hr
  refine Prod.ext rfl ?_
  dsimp only [Abi.readEnd, id]
  split
  · rename_i hend
    cases abi with
    | ilp32 => exact hend.symm
    | lp64 =>
      have := h rfl (r.2 - 1) (mem_spread.mpr ⟨r, hr, by omega, by omega⟩)
      omega
  · rfl

theorem Memory.Works.layout (hmem : mem.Works page blkDev) {blksize : Nat} (hpage : page ∣ blksize)
    (hblk : blksize < 2 ^ 32) : ∀ {rs : Pairs} {next : Nat}, Plain rs → page ∣ next →
    ∀ r ∈ (layout blksize rs next).map MappedRange.wrap, mem.mmap r.addr r.length r.offset = true
  | [], _, _, _ => forall_mem_nil _
  | r :: rs, next, hplain, hnext => by
    obtain ⟨hr, hrest⟩ := forall_mem_cons.mp hplain
    have hoffset : offT ((r.1 : Int) * blksize) = (r.1 : Int) * blksize := by
      have hmul : r.1 * blksize < 2 ^ 31 * 2 ^ 32 := Nat.mul_lt_mul'' (by omega) hblk
      exact_mod_cast offT_of_lt hmul
    simp only [Uncrypt.layout, map_cons, forall_mem_cons, MappedRange.wrap, hoffset]
    exact ⟨hmem.mmap _ _ _ hnext (Dvd.dvd.mul_left (Int.natCast_dvd_natCast.mpr hpage) _),
      hmem.layout hpage hblk hrest (Nat.dvd_add hnext (Dvd.dvd.mul_left hpage _))⟩

/-- The map of the blocks `bs` is read back as a mapping of them. -/
theorem mapText_mapped_iff (hmem : mem.Works page blkDev) (hpage : page ∣ sb.blksize)
    (hne : 0 < sb.size) (hbs : ∀ b ∈ bs, b < 2 ^ 31) (hlen : bs.length = sb.blocks)
    {m : MemMapping} :
    (mapBlockFile abi mem (blockMapText blkDev sb bs ++ rest)).1 = some m ∧ m.length = sb.size ↔
      (∀ b ∈ rest, isSpace b = true) ∧ sb.blocks * sb.blksize < 2 ^ abi.bits ∧
        abi.ReadsEnds bs ∧ m = ⟨blkDev.path, layout sb.blksize (blockRanges bs) 0, sb.size⟩ := by
  obtain ⟨hplain, hblocks⟩ := blockRanges_spec hbs
  have hcount : (blockRanges bs).length ≤ sb.blocks := by
    have hle := length_le_spread hplain
    rwa [hblocks, hlen] at hle
  have hrs : blockRanges bs ≠ [] := by
    intro hnil
    rw [hnil] at hblocks
    rw [← hblocks] at hlen
    exact Nat.succ_ne_zero _ hlen.symm
  have hspace := fun s => @reserveSpace_text abi mem page blkDev sb (blockRanges bs) rest hmem hpage
    hne hrs hcount s
  have hscan : ((blockRanges bs).map rangeLine).map (fun l => scanSizes abi.bits (cstr l)) =
      ((blockRanges bs).map fun r => (r.1, abi.readEnd r.2)).map some := by
    rw [map_map, map_map]
    exact map_congr_left fun r hr => scan_rangeLine (hplain r hr).1 (hplain r hr).2
  have hoffsets : ∀ r ∈ blockRanges bs, r.1 * sb.blksize < 2 ^ 63 := by
    intro r hr
    have := hplain r hr
    have hmul : r.1 * sb.blksize < 2 ^ 31 * 2 ^ 32 := Nat.mul_lt_mul'' (by omega) sb.blksize_lt
    omega
  rw [blockMapText]
  constructor
  · rintro ⟨hm, hsize⟩
    obtain ⟨s, hs⟩ : ∃ s, reserveSpace abi mem
        ((blockMapLines blkDev sb (blockRanges bs)).flatMap (· ++ [10]) ++ rest) = some s := by
      refine Option.isSome_iff_exists.mp (Option.isSome_iff_ne_none.mpr fun hnone => ?_)
      rw [mapBlockFile, hnone] at hm
      cases hm
    obtain ⟨rs, htiled, rfl⟩ := (mapBlockFile_some_iff hs).mp hm
    obtain ⟨hblank, hbits, rfl⟩ := (hspace s).mp ⟨hs, hsize⟩
    obtain rfl : rs = (blockRanges bs).map fun r => (r.1, abi.readEnd r.2) :=
      map_injective_iff.mpr (Option.some_injective _) (htiled.scanned.symm.trans hscan)
    have hends : abi.ReadsEnds bs := by
      -- the end of such a range is read as a number far behind the file
      rintro rfl b hb
      rw [← hblocks] at hb
      obtain ⟨r, hr, hlo, hhi⟩ := mem_spread.mp hb
      obtain ⟨hlt, hle⟩ := hplain r hr
      have hshort := range_le_spread
        (mem_map_of_mem hr (f := fun r : Nat × Nat => (r.1, Abi.lp64.readEnd r.2)))
      have hfew := sb.blocks_le hne
      have hfile := sb.size_lt
      rw [htiled.blocks] at hshort
      dsimp only [Abi.readEnd] at hshort
      split at hshort
      · have hpow : 2 ^ Abi.lp64.bits = 2 ^ 64 := rfl
        omega
      · omega
    refine ⟨hblank, hbits, hends, ?_⟩
    rw [Abi.readEnd_map hplain (hblocks.symm ▸ hends), wrap_eq_iff.mpr hoffsets]
  · rintro ⟨hblank, hbits, hends, rfl⟩
    obtain ⟨hs, -⟩ := (hspace _).mpr ⟨hblank, hbits, rfl⟩
    refine ⟨(mapBlockFile_some_iff hs).mpr ⟨blockRanges bs,
      ⟨⟨?_, fun r hr => (hplain r hr).1, ?_⟩, ?_⟩, ?_⟩,
      rfl⟩
    · rw [hscan, Abi.readEnd_map hplain (hblocks.symm ▸ hends)]
    · exact hmem.layout hpage sb.blksize_lt hplain (Nat.dvd_zero page)
    · rw [hblocks, hlen]
    · rw [wrap_eq_iff.mpr hoffsets]

/-! ## The round trip -/

variable {sys : System} {phys : Nat → Nat} {encrypted f2fs : Bool} {σ σ' : Session} {n c c' : Nat}

theorem int32_natCast_le (n : Nat) : int32 n ≤ n := by
  rw [int32, Int.bmod_def]
  split <;> omega

/-- Whatever is looked up, blocks of the file are found. -/
theorem Looked.exists_nat (hassigns : Assigns sys n phys) (hexcl : Exclusive sys n phys)
    (hint : ∀ k < n, phys k < 2 ^ 31) {ls : List Int} (h : Looked sys c ls c')
    (hlen : ls.length ≤ n) :
    ∃ bs : List Nat, ls = bs.map (fun b : Nat => (b : Int)) ∧ ∀ b ∈ bs, b < 2 ^ 31 := by
  induction h with
  | nil => exact ⟨[], rfl, forall_mem_nil _⟩
  | @snoc ls c₁ c₂ b init last ih =>
    rw [length_append, length_singleton] at hlen
    obtain ⟨bs, rfl, hbs⟩ := ih (by omega)
    obtain ⟨k, hk, rfl⟩ : ∃ k < n, b = (phys k : Int) := by
      cases last with
      | direct answer hb =>
        have hnonneg : 0 ≤ int32 (bs.map fun b : Nat => (b : Int)).length := by
          by_contra hneg
          exact hb (hexcl.negative _ _ _ (by omega) answer)
        obtain ⟨k, hk⟩ := Int.eq_ofNat_of_zero_le hnonneg
        have hle := int32_natCast_le (bs.map fun b : Nat => (b : Int)).length
        rw [hk] at answer hle
        exact ⟨k, by omega, (hassigns.answer _ k (by omega) b answer).resolve_left hb⟩
      | retried _ _ hlast hb =>
        exact ⟨0, by omega, (hassigns.answer _ 0 (by omega) b hlast).resolve_left hb⟩
    refine ⟨bs ++ [phys k], by rw [map_append]; rfl, fun b hb => ?_⟩
    rcases mem_append.mp hb with hb | hb
    · exact hbs b hb
    · rw [mem_singleton.mp hb]
      exact hint k hk

/-- When the map of a file is read back, in a run with `c` calls of `FIBMAP` before it and `tmp` in
the temporary file. -/
structure Readable (sys : System) (abi : Abi) (blkDev : BlockDevice) (sb : Stat) (phys : Nat → Nat)
    (c : Nat) (tmp : Bytes) : Prop where
  /-- The blocks are counted by an `int`. -/
  few : sb.blocks ≤ 2 ^ 31
  inTime : AllocatedInTime sys c sb.blocks
  /-- The blocks of the file fit a `size_t`. -/
  fits : sb.blocks * sb.blksize < 2 ^ abi.bits
  ends : abi.ReadsEnds ((List.range sb.blocks).map phys)
  blank : ∀ b ∈ tmp.drop (blockMapText blkDev sb ((List.range sb.blocks).map phys)).length,
    isSpace b = true

/-- If `produce_block_map` succeeds, its map is mapped as the blocks of the file exactly if no block
but the first is looked up too early, the numbers fit their types, and the temporary file held
nothing but blanks past the length of the map. -/
theorem block_map_round_trip (hstat : sys.stat = some sb) (hne : 0 < sb.size)
    (hassigns : Assigns sys sb.blocks phys) (hint : ∀ k < sb.blocks, phys k < 2 ^ 31)
    (hpage : page ∣ sb.blksize) (hmem : mem.Works page blkDev)
    (h : Ends (produceBlockMap sys blkDev encrypted f2fs) σ () σ') :
    (Readable sys abi blkDev sb phys σ.ioctls σ.tmp →
      ∃ map m, σ'.map = some map ∧ (mapBlockFile abi mem map).1 = some m ∧
        MapsFile blkDev sb phys m) ∧
    (Exclusive sys sb.blocks phys →
      (∃ map m, σ'.map = some map ∧ (mapBlockFile abi mem map).1 = some m ∧
        MapsFile blkDev sb phys m) →
      Readable sys abi blkDev sb phys σ.ioctls σ.tmp) := by
  obtain ⟨ls, c, hls, hlooked, hmap, -⟩ := produceBlockMap_looked [] hstat h
  rw [sb.logicalBlocks_eq_blocks hne] at hls
  have hphys : ∀ b ∈ (List.range sb.blocks).map phys, b < 2 ^ 31 := by
    intro b hb
    obtain ⟨k, hk, rfl⟩ := mem_map.mp hb
    exact hint k (mem_range.mp hk)
  have hlen : ((List.range sb.blocks).map phys).length = sb.blocks := by
    rw [length_map, length_range]
  constructor
  · intro hread
    obtain ⟨hplaces, -⟩ := hlooked.places_of_inTime hassigns hread.few hread.inTime
      (Nat.le_of_eq hls)
    rw [hplaces, hls, places_eq_map, mapText_eq hphys] at hmap
    obtain ⟨hm, -⟩ := (mapText_mapped_iff hmem hpage hne hphys hlen).mpr
      ⟨hread.blank, hread.fits, hread.ends, rfl⟩
    obtain ⟨-, hblocks⟩ := blockRanges_spec hphys
    exact ⟨_, _, hmap, hm, (mapsFile_layout_iff (by rw [hblocks, hlen])).mpr hblocks⟩
  · rintro hexcl ⟨map, m, hmap', hm, hfile⟩
    obtain ⟨bs, rfl, hbs⟩ := hlooked.exists_nat hassigns hexcl hint (Nat.le_of_eq hls)
    rw [length_map] at hls
    rw [mapText_eq hbs, hmap', Option.some.injEq] at hmap
    subst hmap
    obtain ⟨hblank, hfits, hends, rfl⟩ := (mapText_mapped_iff hmem hpage hne hbs hls).mp
      ⟨hm, hfile.length⟩
    obtain ⟨-, hblocks⟩ := blockRanges_spec hbs
    -- the mapping shows the blocks that were found, so they are those of the file
    obtain rfl : bs = (List.range sb.blocks).map phys :=
      hblocks.symm.trans ((mapsFile_layout_iff (by rw [hblocks, hls])).mp hfile)
    obtain ⟨hfew, htime, -⟩ := hlooked.inTime_of_places hassigns hexcl (by rw [length_map, hlen])
      (by rw [length_map, hlen, places_eq_map])
    rw [length_map, hlen] at hfew htime
    exact ⟨hfew, htime, hfits, hends, hblank⟩

namespace Sample

def stat : Stat := ⟨10, 4, by decide, by decide, by decide⟩

/-- A file of three pages, the last one short. -/
def paged : Stat := ⟨8200, 4096, by decide, by decide, by decide⟩

def short : Stat := ⟨3000, 4096, by decide, by decide, by decide⟩

/-- `/d`. -/
def device : BlockDevice := ⟨[47, 100], by decide, by decide +kernel⟩

def placed (k : Nat) : Nat := [7, 8].getD k 3

def system (sb : Stat) : System where
  mapRemoved := true
  tmpOpened := true
  statusWritten := true
  stat := some sb
  fileOpened := true
  deviceOpened := true
  dontMove := true
  fibmap _ k := some (placed k.toNat)
  fileSynced _ := true
  read _ size := some (List.replicate size 1)
  deviceWritten _ := true
  mapWritten _ := none
  mapSynced := true
  mapClosed := true
  deviceSynced := true
  deviceClosed := true
  renamed := true
  dirOpened := true
  dirSynced := true
  dirClosed := true

/-- The first `FIBMAP` for the second block comes before the block is allocated. -/
def delayed (sb : Stat) : System :=
  { system sb with fibmap := fun call k => if call = 1 then some 0 else some (placed k.toNat) }

def session (tmp : Bytes) : Session := ⟨none, tmp, 0, 0, []⟩

end Sample

open Sample

/-- The temporary file holds more blanks than the map has bytes. -/
theorem sample_map_round_trip : ∃ σ', Ends (produceBlockMap (system paged) device true true)
        (session (List.replicate 40 32)) () σ' ∧
      ∃ map m, σ'.map = some map ∧ (mapBlockFile .ilp32 memory map).1 = some m ∧
        MapsFile device paged placed m := by
  have hassigns : Assigns (system paged) paged.blocks placed :=
    ⟨fun _ k _ b hb => .inr (Option.some.inj hb).symm⟩
  have hpos : ∀ k < 3, placed k < 2 ^ 31 ∧ placed k ≠ 0 := by decide
  have hread : Readable (system paged) .ilp32 device paged placed 0 (List.replicate 40 32) :=
    ⟨by decide, fun _ _ k _ hk h0 => (hpos k hk).2 (Int.ofNat.inj (Option.some.inj h0)),
      by decide, nofun, by decide +kernel⟩
  have hmem : memory.Works 4096 device :=
    ⟨by decide, rfl, fun _ => rfl, rfl, fun next _ offset hnext hoffset =>
      decide_eq_true ⟨Nat.mod_eq_zero_of_dvd hnext, Int.emod_eq_zero_of_dvd hoffset⟩⟩
  have hends := @ends_of_isOk _ _ (produceBlockMap (system paged) device true
    true) (session (List.replicate 40 32)) (by decide +kernel)
  exact ⟨_, hends, (block_map_round_trip rfl (by decide) hassigns (fun k hk => (hpos k hk).1)
    (by decide) hmem hends).1 hread⟩

/-- A run that fails after its map of two ranges is written leaves it in the temporary file,
and the lines of it that are longer than the map of the next run make that one invalid. And a
block that is looked up again after its allocation is listed as the first block of the file. -/
theorem stale_map_refused : (let failed := (produceBlockMap { system paged with mapSynced := false }
        device false false).run.run (session [])
      ∃ σ', Ends (produceBlockMap (system short) device false false)
        failed.2 () σ' ∧ σ'.map.isSome = true ∧
        σ'.map.bind (fun map => (mapBlockFile .lp64 memory map).1) = none) ∧
    (∃ σ', Ends (produceBlockMap (delayed paged) device false false) (session []) () σ' ∧
      (σ'.map.bind fun map => (mapBlockFile .lp64 memory map).1).bind
        (fun m => showsAt m.ranges 4096) = some (7 * 4096)) := by
  refine ⟨⟨_, ends_of_isOk ?_, ?_, ?_⟩, ⟨_, ends_of_isOk ?_, ?_⟩⟩
  · decide +kernel
  · decide +kernel
  · decide +kernel
  · decide +kernel
  · decide +kernel

end Pterodon.Uncrypt
