import Pterodon.ImgDiff.ZipChunks

/-!
# The target of a zip patch, cut into chunks

`ZipModeImage::InitializeChunks` walks over the target with a position and the number of the next
entry. Where the position is at an entry it adds the chunks of the entry, and otherwise one chunk
up to the next entry or to the end of the file. `targetChunks` has this as a recursion over the
entries; here are the loop itself and the one that cuts a long entry, with their `size_t` and
`int` arithmetic.

For entries that do not overlap, in whatever order they are reported, the chunks are a partition of
the file (`initializeChunks_partition`). The counter of the pieces of an entry is an `int`, so an
entry must not have too many of them.
-/

namespace Pterodon.ImgDiff.ZipMode

open Lib ApplyPatch ImageChunk List

variable {e : Bytes × ZipEntry}

/-! ## The loops -/

/-- An `int` after an operation. -/
def wrapInt (n : Int) : Int := n.bmod (2 ^ 32)

/-- `std::to_string` of an `int`. -/
def intText (n : Int) : Bytes :=
  if n < 0 then 0x2d :: natBytes n.natAbs else natBytes n.natAbs

/-- Piece number `count` of an entry. Its start is a `size_t`. -/
def pieceChunk (file name : Bytes) (entry : ZipEntry) (limit : Nat) (count : Int)
    (length : Nat) : ImageChunk :=
  { type := .normal
    start := ((entry.offset + limit * count : Int) % 2 ^ 64).toNat
    inputFile := file
    rawDataLen := length
    entryName := name ++ 0x2d :: intText count }

/-- The loop over the pieces of an entry, of which `compressedLen` bytes are left. Every round
takes at least one of them. -/
def pieceLoop (file name : Bytes) (entry : ZipEntry) (limit : Nat) : Nat → Nat → Int → Chunks
  | 0, _, _ => []
  | rounds + 1, compressedLen, count =>
    if compressedLen = 0 then []
    else
      let length := min limit compressedLen
      pieceChunk file name entry limit count length ::
        pieceLoop file name entry limit rounds (compressedLen - length) (wrapInt (count + 1))

/-- `AddZipEntryToChunks`. -/
def addEntry (zip : ZipLib) (data file : Bytes) (limit : Nat)
    (named : Bytes × ZipEntry) : Option Chunks :=
  let (name, entry) := named
  if 0 < entry.compressedLength ∧ 0 < limit ∧ limit < entry.compressedLength then
    some (pieceLoop file name entry limit (entry.compressedLength + 1) entry.compressedLength 0)
  else addZipEntryToChunks zip data file limit named

/-- The loop over the file, at most `fuel` rounds of it, from `pos` on with the entries `named`
still to come. The inner `none` is a `false` that is returned. -/
def composeChunks (zip : ZipLib) (data file : Bytes) (limit : Nat) :
    Nat → Nat → List (Bytes × ZipEntry) → Option (Option Chunks)
  | 0, _, _ => none
  | fuel + 1, pos, named =>
    if file.length ≤ pos then some (some [])
    else
      match named with
      | [] =>
        let rawDataLen := file.length - pos
        (composeChunks zip data file limit fuel (pos + rawDataLen) []).map
          (Option.map (normalChunk file pos rawDataLen :: ·))
      | e :: rest =>
        if pos = e.2.offset then
          match addEntry zip data file limit e with
          | none => some none
          | some chunks =>
            (composeChunks zip data file limit fuel ((pos + e.2.compressedLength) % 2 ^ 64)
              rest).map (Option.map (chunks ++ ·))
        else
          let rawDataLen := (e.2.offset + 2 ^ 64 - pos) % 2 ^ 64
          (composeChunks zip data file limit fuel ((pos + rawDataLen) % 2 ^ 64)
            (e :: rest)).map (Option.map (normalChunk file pos rawDataLen :: ·))

/-- `InitializeChunks` on a target with the entries that the iteration reported. -/
def initializeChunks (zip : ZipLib) (data file : Bytes) (limit fuel : Nat)
    (entries : List (Bytes × ZipEntry)) : Option (Option Chunks) :=
  composeChunks zip data file limit fuel 0 (sortedEntries limit entries)

/-! ## The pieces of an entry -/

section Pieces

variable {file name : Bytes} {entry : ZipEntry} {limit : Nat}

def pieces (limit compressedLen : Nat) : Nat := (compressedLen + limit - 1) / limit

theorem lt_pieces_iff {len k : Nat} (hlimit : 0 < limit) : k < pieces limit len ↔
    limit * k < len := by
  unfold pieces
  rw [← Nat.succ_le_iff, Nat.le_div_iff_mul_le hlimit, Nat.succ_mul, Nat.mul_comm k limit]
  omega

theorem pieceLoop_eq (file name : Bytes) (entry : ZipEntry) (hlimit : 0 < limit) (len : Nat) :
    ∀ rounds k,
    pieces limit len - k < rounds →
    pieceLoop file name entry limit rounds (len - limit * k) (wrapInt k) =
      (List.range' k (pieces limit len - k)).map fun i : Nat =>
        pieceChunk file name entry limit (wrapInt i) (min limit (len - limit * i)) := by
  intro rounds
  induction rounds with
  | zero => intro k h; exact absurd h (Nat.not_lt_zero _)
  | succ rounds ih =>
    intro k h
    rw [pieceLoop]
    by_cases hk : k < pieces limit len
    · have hmore := (lt_pieces_iff hlimit).1 hk
      have hnext : len - limit * k - min limit (len - limit * k) = len - limit * (k + 1) := by
        rw [Nat.mul_succ]
        omega
      have hcount : wrapInt (wrapInt k + 1) = wrapInt ((k + 1 : Nat) : Int) := by
        simp [wrapInt]
      have hrange : pieces limit len - k = (pieces limit len - (k + 1)) + 1 := by omega
      rw [if_neg (by omega)]
      dsimp only
      rw [hnext, hcount, ih (k + 1) (by omega), hrange, range'_succ, map_cons]
    · have hdone : len - limit * k = 0 := by
        have := mt (lt_pieces_iff hlimit).2 hk
        omega
      rw [if_pos hdone, Nat.sub_eq_zero_of_le (Nat.not_lt.1 hk)]
      rfl

theorem pieces_le (hlimit : 0 < limit) (len : Nat) : pieces limit len ≤ len := by
  refine Nat.not_lt.1 fun h => ?_
  have hlt := (lt_pieces_iff hlimit).1 h
  exact absurd hlt (Nat.not_lt.2 (Nat.le_mul_of_pos_left len hlimit))

theorem wrapInt_of_lt {n : Nat} (h : n < 2 ^ 31) : wrapInt n = n := by
  unfold wrapInt
  rw [Int.bmod_eq_of_le] <;> omega

theorem intText_natCast (n : Nat) : intText n = natBytes n := by
  simp [intText]

/-- While the counter is in range, the loop cuts the entry as `splitEntry` does. -/
theorem pieceLoop_eq_splitEntry (hlimit : 0 < limit)
    (hend : entry.offset + entry.compressedLength < 2 ^ 64)
    (hcount : pieces limit entry.compressedLength ≤ 2 ^ 31) :
    pieceLoop file name entry limit (entry.compressedLength + 1) entry.compressedLength 0 =
      splitEntry file name entry limit := by
  have hle := pieces_le hlimit entry.compressedLength
  have hloop := pieceLoop_eq file name entry hlimit entry.compressedLength
    (entry.compressedLength + 1) 0 (by omega)
  rw [splitEntry, range_eq_range']
  refine hloop.trans (map_congr_left fun i hi => ?_)
  have hlt := (lt_pieces_iff hlimit).1 (show i < pieces limit entry.compressedLength by
    simpa using (mem_range'_1.1 hi).2)
  have hi31 : i < 2 ^ 31 := Nat.lt_of_lt_of_le (by simpa using (mem_range'_1.1 hi).2) hcount
  have hstart : ((entry.offset + limit * (i : Int) : Int) % 2 ^ 64).toNat =
      entry.offset + limit * i := by
    have hcast : (entry.offset + limit * (i : Int) : Int) =
        ((entry.offset + limit * i : Nat) : Int) := by
      rfl
    rw [hcast, Int.emod_eq_of_lt (by omega) (by omega), Int.toNat_natCast]
  rw [wrapInt_of_lt hi31, pieceChunk, hstart, intText_natCast]

/-- An entry whose pieces an `int` can count. -/
def Countable (limit : Nat) (e : Bytes × ZipEntry) : Prop :=
  0 < limit → pieces limit e.2.compressedLength ≤ 2 ^ 31

theorem addEntry_eq {zip : ZipLib} {data : Bytes}
    (hend : e.2.offset + e.2.compressedLength < 2 ^ 64) (hcount : Countable limit e) :
    addEntry zip data file limit e = addZipEntryToChunks zip data file limit e := by
  simp only [addEntry]
  split
  · next h =>
    rw [pieceLoop_eq_splitEntry h.2.1 hend (hcount h.2.1), addZipEntryToChunks]
    simp only [if_neg (Nat.ne_of_gt h.1), if_pos h.2]
  · rfl

end Pieces

/-! ## The loop over the file -/

section Loop

variable {zip : ZipLib} {data file : Bytes} {limit : Nat}

/-- A round that finds the position at an entry, and what the recursion has for it. -/
theorem composeChunks_at {rest : List (Bytes × ZipEntry)} {fuel : Nat}
    (hend : e.2.offset + e.2.compressedLength < 2 ^ 64) (hcount : Countable limit e)
    (hrest : composeChunks zip data file limit fuel (e.2.offset + e.2.compressedLength) rest =
      some (targetChunks zip data file limit (e.2.offset + e.2.compressedLength) rest)) :
    composeChunks zip data file limit (fuel + 1) e.2.offset (e :: rest) =
      some (targetChunks zip data file limit e.2.offset (e :: rest)) := by
  rw [composeChunks, targetChunks]
  split
  · rfl
  · next hmore =>
    simp only [addEntry_eq hend hcount, Nat.mod_eq_of_lt hend, hrest, if_neg hmore]
    cases addZipEntryToChunks zip data file limit e with
    | none => rfl
    | some chunks =>
      cases targetChunks zip data file limit (e.2.offset + e.2.compressedLength) rest <;> rfl

/-- The loop comes to an end, within two rounds for every entry, with the chunks of the
recursion. -/
theorem composeChunks_eq (hfile : file.length < 2 ^ 64) (named : List (Bytes × ZipEntry))
    (hends : ∀ e ∈ named, e.2.offset + e.2.compressedLength < 2 ^ 64)
    (hcount : ∀ e ∈ named, Countable limit e) :
    ∀ {pos fuel : Nat}, pos < 2 ^ 64 → 2 * named.length + 2 ≤ fuel →
      composeChunks zip data file limit fuel pos named =
        some (targetChunks zip data file limit pos named) := by
  induction named with
  | nil =>
    intro pos fuel _ hfuel
    obtain ⟨fuel, rfl⟩ := Nat.exists_eq_add_of_le' (show 2 ≤ fuel from hfuel)
    have hlast : ∀ {fuel : Nat}, composeChunks zip data file limit (fuel + 1) file.length [] =
        some (some []) := by
      intro fuel
      rw [composeChunks, if_pos (Nat.le_refl _)]
    rw [targetChunks, composeChunks]
    split
    · next hdone => rw [if_neg (Nat.not_lt.2 hdone)]
    · next hmore =>
      rw [if_pos (Nat.not_le.1 hmore)]
      dsimp only
      rw [Nat.add_sub_cancel' (Nat.le_of_lt (Nat.not_le.1 hmore)), hlast]
      rfl
  | cons e rest ih =>
    intro pos fuel hpos hfuel
    have hend := hends e mem_cons_self
    have hrest : ∀ {fuel : Nat}, 2 * rest.length + 2 ≤ fuel →
        composeChunks zip data file limit fuel (e.2.offset + e.2.compressedLength) rest =
          some (targetChunks zip data file limit (e.2.offset + e.2.compressedLength) rest) :=
      ih (forall_mem_cons.mp hends).2
        (forall_mem_cons.mp hcount).2 hend
    have hat : ∀ {fuel : Nat}, 2 * rest.length + 3 ≤ fuel →
        composeChunks zip data file limit fuel e.2.offset (e :: rest) =
          some (targetChunks zip data file limit e.2.offset (e :: rest)) := by
      intro fuel hfuel
      obtain ⟨fuel, rfl⟩ := Nat.exists_eq_add_of_le' (Nat.le_trans (Nat.le_add_left 1 _) hfuel)
      exact composeChunks_at hend (hcount e mem_cons_self) (hrest (by omega))
    by_cases hoff : pos = e.2.offset
    · subst hoff
      exact hat (by rw [length_cons] at hfuel; omega)
    · -- a chunk up to the entry, and then the position is at it
      obtain ⟨fuel, rfl⟩ := Nat.exists_eq_add_of_le' (Nat.le_trans (Nat.le_add_left 1 _) hfuel)
      by_cases hmore : file.length ≤ pos
      · rw [composeChunks, targetChunks, if_pos hmore, if_pos hmore]
      · have hnext : (pos + (e.2.offset + 2 ^ 64 - pos) % 2 ^ 64) % 2 ^ 64 = e.2.offset := by omega
        rw [composeChunks, if_neg hmore, targetChunks_gap hmore hoff]
        simp only [if_neg hoff, hnext]
        rw [hat (by rw [length_cons] at hfuel; omega)]
        rfl

/-! ## A partition -/

/-- An entry as the iteration reports it lies in the file; two of them start at different places
and do not overlap. -/
structure Reported (file : Bytes) (entries : List (Bytes × ZipEntry)) : Prop where
  inside : ∀ e ∈ entries, e.2.offset + e.2.compressedLength ≤ file.length
  distinct : entries.Pairwise fun a b => a.2.offset ≠ b.2.offset
  apart : entries.Pairwise fun a b => a.2.offset + a.2.compressedLength ≤ b.2.offset ∨
    b.2.offset + b.2.compressedLength ≤ a.2.offset

/-- The chunks cut the file into pieces with something in them. A piece with the name of an entry
respects the limit, and what is deflated is the data of one entry. -/
structure Partition (file : Bytes) (limit : Nat) (entries : List (Bytes × ZipEntry))
    (cs : Chunks) : Prop where
  tiles : Tiles file 0 cs file.length
  nonEmpty : ∀ c ∈ cs, 0 < c.rawDataLen
  limited : 0 < limit → ∀ c ∈ cs, c.entryName ≠ [] → c.rawDataLen ≤ limit
  deflated : ∀ c ∈ cs, c.type = .deflate → ∃ e ∈ entries, e.2.deflated = true ∧
    c.entryName = e.1 ∧ c.start = e.2.offset ∧ c.rawDataLen = e.2.compressedLength

theorem Reported.sorted {entries : List (Bytes × ZipEntry)} (h : Reported file entries)
    (limit : Nat) : Layout file file.length (sortedEntries limit entries) := by
  have hbefore : entries.Pairwise (fun a b => Before a b ∨ Before b a) := by
    refine (h.distinct.and h.apart).imp ?_
    intro a b hab
    rcases hab.2 with hle | hle
    · exact .inl ⟨by omega, hle⟩
    · exact .inr ⟨by omega, hle⟩
  exact ⟨Nat.le_refl _, fun e he => h.inside e (mem_of_sortedEntries he),
    sorted_before hbefore limit⟩

theorem addZipEntry_mem {chunks : Chunks}
    (h : addZipEntryToChunks zip data file limit e = some chunks) {c : ImageChunk}
    (hc : c ∈ chunks) :
    0 < c.rawDataLen ∧ (0 < limit → c.rawDataLen ≤ limit) ∧
      (c.type = .deflate → e.2.deflated = true ∧ c.entryName = e.1 ∧ c.start = e.2.offset ∧
        c.rawDataLen = e.2.compressedLength) := by
  unfold addZipEntryToChunks at h
  dsimp only at h
  split at h
  · cases h
    cases hc
  next hpos =>
    split at h
    · next hsplit =>
      cases h
      obtain ⟨count, hcount, rfl⟩ := mem_map.1 hc
      have hlt := (lt_pieces_iff hsplit.1).1 (mem_range.1 hcount)
      exact ⟨Nat.lt_min.2 ⟨hsplit.1, by omega⟩, fun _ => Nat.min_le_left _ _, nofun⟩
    next hwhole =>
      have hlen : 0 < limit → e.2.compressedLength ≤ limit := fun hl =>
        Nat.not_lt.1 fun hlt => hwhole ⟨hl, hlt⟩
      split at h
      · next hdeflated =>
        split at h
        · cases h
        · cases h
          obtain rfl := mem_singleton.1 hc
          exact ⟨Nat.pos_of_ne_zero hpos, hlen, fun _ => ⟨hdeflated, rfl, rfl, rfl⟩⟩
      · cases h
        obtain rfl := mem_singleton.1 hc
        exact ⟨Nat.pos_of_ne_zero hpos, hlen, nofun⟩

theorem targetChunks_partition (hfile : file.length < 2 ^ 64)
    {entries : List (Bytes × ZipEntry)} (hentries : Reported file entries)
    {cs : Chunks}
    (h : targetChunks zip data file limit 0 (sortedEntries limit entries) = some cs) :
    Partition file limit entries cs := by
  have hlayout := hentries.sorted limit
  have hlaid := targetChunks_laid hfile hlayout (Nat.zero_le _) (fun _ _ => Nat.zero_le _) h
  have hmem := hlaid.mem
  refine ⟨hlaid.tiles hlayout, ?_, ?_, ?_⟩
  · intro c hc
    rcases hmem c hc with hgap | ⟨e, -, chunks, hadd, hin⟩
    · exact hgap.2.2
    · exact (addZipEntry_mem hadd hin).1
  · intro hlimit c hc hname
    rcases hmem c hc with hgap | ⟨e, -, chunks, hadd, hin⟩
    · exact absurd hgap.2.1 hname
    · exact (addZipEntry_mem hadd hin).2.1 hlimit
  · intro c hc htype
    rcases hmem c hc with hgap | ⟨e, he, chunks, hadd, hin⟩
    · exact absurd (hgap.1.symm.trans htype) nofun
    · exact ⟨e, mem_of_sortedEntries he, (addZipEntry_mem hadd hin).2.2 htype⟩

end Loop

/-- Whatever the order of the entries, the limit and the answers of libziparchive: the loop comes to
an end, and if it succeeds the chunks are a partition. -/
theorem initializeChunks_partition (zip : ZipLib) (data file : Bytes) (limit : Nat)
    (entries : List (Bytes × ZipEntry)) (hfile : file.length < 2 ^ 64)
    (hentries : Reported file entries)
    (hcount : 0 < limit → ∀ e ∈ entries, e.2.compressedLength ≤ limit * (2 ^ 31 - 1)) :
    ∀ fuel ≥ 2 * entries.length + 2, ∃ result,
      initializeChunks zip data file limit fuel entries = some result ∧
        ∀ cs, result = some cs → Partition file limit entries cs := by
  intro fuel hfuel
  have hlength : (sortedEntries limit entries).length ≤ entries.length := by
    rw [sortedEntries, length_insertionSort]
    exact length_filter_le _ _
  have hends : ∀ e ∈ sortedEntries limit entries, e.2.offset + e.2.compressedLength < 2 ^ 64 :=
    fun e he => Nat.lt_of_le_of_lt (hentries.inside e (mem_of_sortedEntries he)) hfile
  have hcountable : ∀ e ∈ sortedEntries limit entries, Countable limit e := by
    intro e he hlimit
    refine Nat.not_lt.1 fun hlt => ?_
    have hmore := (lt_pieces_iff hlimit).1 hlt
    have hle := hcount hlimit e (mem_of_sortedEntries he)
    omega
  exact ⟨_, composeChunks_eq hfile _ hends hcountable (by omega) (by omega),
    fun cs hcs => targetChunks_partition hfile hentries hcs⟩

/-! ## An entry with too many pieces -/

/-- A stored entry of `n` bytes at the start of the file. -/
def wholeEntry (n : Nat) : Bytes × ZipEntry := ([0x61], ⟨false, 0, n, n⟩)

/-- Cut into single bytes, an entry that is more than `INT_MAX` long comes out with a piece far
behind the end of the file. -/
theorem wholeEntry_overflows {n : Nat} (hn : 2 ^ 31 < n) (hmax : n < 2 ^ 32) {file : Bytes}
    (hfile : file.length = n) (zip : ZipLib) (data : Bytes) :
    ∃ cs, (∀ fuel, initializeChunks zip data file 1 (fuel + 2) [wholeEntry n] = some (some cs)) ∧
      ¬Partition file 1 [wholeEntry n] cs := by
  have hadd : addEntry zip data file 1 (wholeEntry n) =
      some (pieceLoop file [0x61] (wholeEntry n).2 1 (n + 1) n 0) :=
    if_pos (show 0 < n ∧ 0 < 1 ∧ 1 < n by omega)
  refine ⟨pieceLoop file [0x61] (wholeEntry n).2 1 (n + 1) n 0, fun fuel => ?_, fun h => ?_⟩
  · have hsorted : sortedEntries 1 [wholeEntry n] = [wholeEntry n] := rfl
    have hpos : ¬file.length ≤ 0 := by omega
    have hend : file.length ≤ (0 + (wholeEntry n).2.compressedLength) % 2 ^ 64 := by
      change file.length ≤ (0 + n) % 2 ^ 64
      omega
    rw [initializeChunks, hsorted, composeChunks, if_neg hpos]
    simp only [hadd]
    rw [if_pos (show 0 = (wholeEntry n).2.offset from rfl), composeChunks, if_pos hend]
    simp
  · -- piece number `2 ^ 31` is counted as number `-2 ^ 31`
    have hle := pieces_le Nat.one_pos n
    have hloop := pieceLoop_eq file [0x61] (wholeEntry n).2 Nat.one_pos n (n + 1) 0 (by omega)
    have hmem : pieceChunk file [0x61] (wholeEntry n).2 1 (wrapInt (2 ^ 31 : Nat))
        (min 1 (n - 1 * 2 ^ 31)) ∈ pieceLoop file [0x61] (wholeEntry n).2 1 (n + 1) n 0 := by
      refine hloop ▸ mem_map.2 ⟨2 ^ 31, ?_, rfl⟩
      have hlt : 2 ^ 31 < pieces 1 n := (lt_pieces_iff Nat.one_pos).2 (by omega)
      exact mem_range'_1.2 ⟨Nat.zero_le _, by omega⟩
    have hstart : (pieceChunk file [0x61] (wholeEntry n).2 1 (wrapInt (2 ^ 31 : Nat))
        (min 1 (n - 1 * 2 ^ 31))).start = 2 ^ 64 - 2 ^ 31 := by
      simp only [pieceChunk, wholeEntry]
      decide
    have hle := (h.tiles.inside _ hmem).le
    rw [hstart] at hle
    omega

namespace Sample

def zip : ZipLib := ⟨fun _ => none, fun _ _ => none⟩

/-- An entry of one byte more than `2 ^ 31`, and a limit of one byte. -/
theorem initializeChunks_overflows :
    ∃ cs, (∀ fuel, initializeChunks zip [] (List.replicate (2 ^ 31 + 1) 0) 1 (fuel + 2)
        [wholeEntry (2 ^ 31 + 1)] = some (some cs)) ∧
      ¬Partition (List.replicate (2 ^ 31 + 1) 0) 1 [wholeEntry (2 ^ 31 + 1)] cs :=
  wholeEntry_overflows (by omega) (by omega) length_replicate zip []

/-- Two entries of a file with ten bytes, the later one first, and an empty one. -/
def entries : List (Bytes × ZipEntry) :=
  [([0x62], ⟨false, 6, 3, 3⟩), ([0x61], ⟨false, 1, 3, 3⟩), ([0x63], ⟨true, 5, 0, 0⟩)]

theorem initializeChunks_small :
    ∃ result, initializeChunks zip [] (List.replicate 10 0) 2 8 entries = some result ∧
      ∀ cs, result = some cs → Partition (List.replicate 10 0) 2 entries cs :=
  initializeChunks_partition zip [] _ 2 entries (by decide)
    ⟨by decide, by decide, by decide⟩ (fun _ => by decide) 8 (by decide)

end Sample

end Pterodon.ImgDiff.ZipMode
