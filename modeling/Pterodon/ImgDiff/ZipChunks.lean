import Pterodon.ImgDiff.Tiling
import Pterodon.ImgDiff.ZipMode

/-!
# The chunks of a zip file

What `ZipModeImage::Initialize` builds, with and without a limit, from what libziparchive
promises: the chunks of the target tile the file, those of the source lie in it, and the
contents of a deflate chunk are those of its bytes. The pass over the target's chunks
keeps all of this and leaves only deflate chunks that can be rebuilt.
-/

namespace Pterodon.ImgDiff.ZipMode

open Lib ApplyPatch ImageChunk List

variable {e : Bytes × ZipEntry} {entries : List (Bytes × ZipEntry)} {cs : Chunks}

/-! ## What libziparchive promises -/

/-- Two entries of a zip file: one ends before the other begins, whose local header is between. -/
def Before (a b : Bytes × ZipEntry) : Prop :=
  a.2.offset < b.2.offset ∧ a.2.offset + a.2.compressedLength ≤ b.2.offset

/-- The promises, and that deflated entries have contents. -/
structure ZipLawful (lib : DiffLib) (zip : ZipLib) : Prop where
  inside : ∀ {data : Bytes} {entries : List (Bytes × ZipEntry)},
    zip.entries data = some entries →
    ∀ e ∈ entries, e.2.offset + e.2.compressedLength ≤ data.length
  apart : ∀ {data : Bytes} {entries : List (Bytes × ZipEntry)},
    zip.entries data = some entries → entries.Pairwise (fun a b => Before a b ∨ Before b a)
  /-- The lengths have 32 bits. -/
  lengths : ∀ {data : Bytes} {entries : List (Bytes × ZipEntry)},
    zip.entries data = some entries →
    ∀ e ∈ entries, e.2.compressedLength < 2 ^ 32 ∧ e.2.uncompressedLength < 2 ^ 32
  /-- The number of entries has 16 bits. -/
  count : ∀ {data : Bytes} {entries : List (Bytes × ZipEntry)},
    zip.entries data = some entries → entries.length < 2 ^ 16
  contents : ∀ {data : Bytes} {entries : List (Bytes × ZipEntry)},
    zip.entries data = some entries → ∀ e ∈ entries, e.2.deflated = true →
    0 < e.2.uncompressedLength
  extract : ∀ {data contents : Bytes} {entry : ZipEntry},
    zip.extractToMemory data entry = some contents →
    lib.inflate (sliceOf data entry.offset entry.compressedLength) = some contents
      ∧ contents.length = entry.uncompressedLength

/-- Entries in order, in the first `size` bytes of a file. -/
structure Layout (file : Bytes) (size : Nat) (named : List (Bytes × ZipEntry)) : Prop where
  within : size ≤ file.length
  inside : ∀ e ∈ named, e.2.offset + e.2.compressedLength ≤ size
  sorted : named.Pairwise Before

theorem Layout.tail {file : Bytes} {size : Nat} {named : List (Bytes × ZipEntry)}
    (h : Layout file size (e :: named)) : Layout file size named :=
  ⟨h.within, (forall_mem_cons.mp h.inside).2, (pairwise_cons.mp h.sorted).2⟩

/-- The entries that chunks are made of, in the first `size` bytes of a file. -/
structure Entries (file : Bytes) (size : Nat) (named : List (Bytes × ZipEntry)) : Prop where
  within : size ≤ file.length
  inside : ∀ e ∈ named, e.2.offset + e.2.compressedLength ≤ size
  sorted : named.Pairwise Before
  lengths : ∀ e ∈ named, e.2.compressedLength < 2 ^ 32 ∧ e.2.uncompressedLength < 2 ^ 32
  contents : ∀ e ∈ named, e.2.deflated = true → 0 < e.2.uncompressedLength

theorem Entries.layout {file : Bytes} {size : Nat} {named : List (Bytes × ZipEntry)}
    (h : Entries file size named) : Layout file size named :=
  ⟨h.within, h.inside, h.sorted⟩

theorem Entries.tail {file : Bytes} {size : Nat} {named : List (Bytes × ZipEntry)}
    (h : Entries file size (e :: named)) : Entries file size named :=
  ⟨h.within, (forall_mem_cons.mp h.inside).2, (pairwise_cons.mp h.sorted).2,
    (forall_mem_cons.mp h.lengths).2, (forall_mem_cons.mp h.contents).2⟩

theorem findEocd_le {file : Bytes} : ∀ {i size : Nat}, findEocd file i = some size →
    size ≤ file.length
  | 0, size, h => eocdAt_le h
  | i + 1, size, h => by
    rw [findEocd] at h
    split at h
    · exact eocdAt_le h
    · exact findEocd_le h
where
  eocdAt_le {file : Bytes} {i size : Nat} (h : findEocd.eocdAt file i = some size) :
      size ≤ file.length := by
    unfold findEocd.eocdAt at h
    split at h
    · cases h
    split at h
    · cases h
    dsimp only at h
    split at h
    · cases h
    · have := Option.some.inj h
      omega

theorem getZipFileSize_le {file : Bytes} {size : Nat} (h : getZipFileSize file = some size) :
    size ≤ file.length := by
  unfold getZipFileSize at h
  split at h
  · cases h
  dsimp only at h
  split at h
  · cases h
  · exact findEocd_le h

theorem mem_of_sortedEntries {limit : Nat} (h : e ∈ sortedEntries limit entries) : e ∈ entries :=
  (mem_filter.mp ((mem_insertionSort _).mp h)).1

theorem sorted_before (h : entries.Pairwise (fun a b => Before a b ∨ Before b a)) (limit : Nat) :
    (sortedEntries limit entries).Pairwise Before := by
  have hperm := perm_insertionSort
    (fun a b : Bytes × ZipEntry => a.2.offset ≤ b.2.offset)
    (entries.filter fun named => named.2.deflated || decide (0 < limit))
  have hapart : (sortedEntries limit entries).Pairwise (fun a b => Before a b ∨ Before b a) :=
    (hperm.pairwise_iff (fun h => h.symm)).mpr (h.filter _)
  have hsorted := pairwise_insertionSort
    (fun a b : Bytes × ZipEntry => a.2.offset ≤ b.2.offset)
    (entries.filter fun named => named.2.deflated || decide (0 < limit))
  refine (hapart.and hsorted).imp ?_
  intro a b hab
  obtain ⟨h | h, hle⟩ := hab
  · exact h
  · exact absurd h.1 (by omega)

theorem entries_sorted {lib : DiffLib} {zip : ZipLib} (hz : ZipLawful lib zip) {file : Bytes}
    {size limit : Nat} (hsize : getZipFileSize file = some size)
    (h : zip.entries (file.take size) = some entries) :
    Entries file size (sortedEntries limit entries) := by
  refine ⟨getZipFileSize_le hsize, fun e he => ?_, sorted_before (hz.apart h) limit,
    fun e he => hz.lengths h e (mem_of_sortedEntries he),
    fun e he => hz.contents h e (mem_of_sortedEntries he)⟩
  have hin := hz.inside h e (mem_of_sortedEntries he)
  rw [length_take] at hin
  omega

/-! ## The chunks of an entry -/

theorem sliceOf_take {file : Bytes} {size start len : Nat} (h : start + len ≤ size) :
    sliceOf (file.take size) start len = sliceOf file start len := by
  unfold sliceOf
  rw [drop_take, take_take, Nat.min_eq_left (by omega)]

def deflates (cs : Chunks) : Chunks := cs.filter (fun c => c.type = .deflate)

theorem deflates_append (cs ds : Chunks) :
    deflates (cs ++ ds) = deflates cs ++ deflates ds := filter_append ..

theorem deflates_of_normal (h : ∀ c ∈ cs, c.type = .normal) : deflates cs = [] := by
  refine filter_eq_nil_iff.mpr ?_
  intro c hc
  rw [h c hc]
  decide

variable {lib : DiffLib} {zip : ZipLib} {file : Bytes} {size limit : Nat}
  {named : Bytes × ZipEntry}

theorem splitEntry_tiles {name : Bytes} {entry : ZipEntry} (hlimit : 0 < limit)
    (hin : entry.offset + entry.compressedLength ≤ file.length) :
    Tiles file entry.offset (splitEntry file name entry limit)
      (entry.offset + entry.compressedLength) := by
  -- The first `m` chunks reach as far as `m` times the limit.
  have key : ∀ m, (∀ k < m, limit * k < entry.compressedLength) →
      Tiles file entry.offset ((List.range m).map fun count =>
        ({ type := .normal
           start := entry.offset + limit * count
           inputFile := file
           rawDataLen := min limit (entry.compressedLength - limit * count)
           entryName := name ++ 0x2d :: natBytes count } : ImageChunk))
        (entry.offset + min (limit * m) entry.compressedLength) := by
    intro m
    induction m with
    | zero =>
      intro _
      change entry.offset = _
      rw [Nat.mul_zero, Nat.zero_min, Nat.add_zero]
    | succ m ih =>
      intro hk
      have hm := hk m (Nat.lt_succ_self m)
      rw [range_succ, map_append]
      refine (ih (fun k hkm => hk k (Nat.lt_succ_of_lt hkm))).append ⟨⟨rfl, ?_⟩, ?_, ?_⟩
      · dsimp only
        omega
      · dsimp only
        omega
      · change entry.offset + min (limit * m) entry.compressedLength
          + min limit (entry.compressedLength - limit * m) = _
        rw [Nat.mul_succ]
        omega
  have hcount := key ((entry.compressedLength + limit - 1) / limit) (by
    intro k hk
    have := (Nat.le_div_iff_mul_le hlimit).mp (Nat.succ_le_of_lt hk)
    rw [Nat.succ_mul, Nat.mul_comm] at this
    omega)
  have hend : entry.compressedLength ≤ limit * ((entry.compressedLength + limit - 1) / limit) := by
    have := Nat.lt_mul_div_succ (entry.compressedLength + limit - 1) hlimit
    rw [Nat.mul_add] at this
    omega
  rw [Nat.min_eq_right hend] at hcount
  exact hcount

theorem addZipEntry_tiles {data : Bytes}
    (hin : named.2.offset + named.2.compressedLength ≤ file.length)
    (h : addZipEntryToChunks zip data file limit named = some cs) :
    Tiles file named.2.offset cs (named.2.offset + named.2.compressedLength) := by
  unfold addZipEntryToChunks at h
  dsimp only at h
  split at h
  · rename_i hzero
    cases h
    rw [hzero]
    rfl
  split at h
  · rename_i hsplit
    cases h
    exact splitEntry_tiles hsplit.1 hin
  split at h
  · split at h
    · cases h
    · cases h
      exact ⟨⟨rfl, hin⟩, rfl, rfl⟩
  · cases h
    exact ⟨⟨rfl, hin⟩, rfl, rfl⟩

theorem sound_normal {c : ImageChunk} (ht : c.type = .normal) (hlevel : c.compressLevel = 6)
    (hunc : c.uncompressedData = []) : Sound lib (2 ^ 32) c :=
  ⟨by rw [ht]; decide, by unfold IsInt; omega,
    by rw [hunc, length_nil]; omega, fun h => absurd (ht.symm.trans h) (by decide)⟩

theorem splitEntry_normal {name : Bytes} {entry : ZipEntry} {c : ImageChunk}
    (hc : c ∈ splitEntry file name entry limit) :
    c.type = .normal ∧ c.compressLevel = 6 ∧ c.uncompressedData = [] := by
  obtain ⟨count, _, rfl⟩ := mem_map.mp hc
  exact ⟨rfl, rfl, rfl⟩

theorem addZipEntry_sound (hz : ZipLawful lib zip)
    (hin : named.2.offset + named.2.compressedLength ≤ size)
    (hlen : named.2.compressedLength < 2 ^ 32 ∧ named.2.uncompressedLength < 2 ^ 32)
    (hne : named.2.deflated = true → 0 < named.2.uncompressedLength)
    (h : addZipEntryToChunks zip (file.take size) file limit named = some cs) :
    (∀ c ∈ cs, Sound lib (2 ^ 32) c) ∧ (deflates cs).length ≤ 1 := by
  unfold addZipEntryToChunks at h
  dsimp only at h
  split at h
  · cases h
    exact ⟨nofun, by decide⟩
  split at h
  · cases h
    refine ⟨fun c hc => ?_, ?_⟩
    · obtain ⟨ht, hlevel, hunc⟩ := splitEntry_normal hc
      exact sound_normal ht hlevel hunc
    · rw [deflates_of_normal (fun c hc => (splitEntry_normal hc).1)]
      decide
  split at h
  · rename_i hdeflated
    split at h
    · cases h
    · rename_i contents hextract
      cases h
      obtain ⟨hinf, hlength⟩ := hz.extract hextract
      rw [sliceOf_take hin] at hinf
      have hpos := hne hdeflated
      refine ⟨?_, length_filter_le _ _⟩
      intro c hc
      obtain rfl := mem_singleton.mp hc
      have hshort : contents.length < 2 ^ 32 := by omega
      exact ⟨nofun, by dsimp only; unfold IsInt; omega, hshort,
        fun _ => ⟨⟨contents, hinf, length_pos_iff.mp (by omega),
          (append_nil _).symm⟩, hlen.1, hshort⟩⟩
  · cases h
    refine ⟨?_, length_filter_le _ _⟩
    intro c hc
    obtain rfl := mem_singleton.mp hc
    exact sound_normal rfl rfl rfl

/-! ## The target -/

section Target

/-- The chunks of the target from a place on: those of each entry, and one for what is before an
entry or behind them all. -/
inductive Laid (zip : ZipLib) (data file : Bytes) (limit : Nat) :
    Nat → List (Bytes × ZipEntry) → Chunks → Prop
  | done (ds) : Laid zip data file limit file.length ds []
  | last {pos} (h : pos < file.length) :
      Laid zip data file limit pos [] [normalChunk file pos (file.length - pos)]
  | gap {pos d ds more} (h : pos < d.2.offset) (hend : d.2.offset ≤ file.length)
      (rest : Laid zip data file limit d.2.offset (d :: ds) more) :
      Laid zip data file limit pos (d :: ds) (normalChunk file pos (d.2.offset - pos) :: more)
  | entry {d ds chunks more} (h : addZipEntryToChunks zip data file limit d = some chunks)
      (rest : Laid zip data file limit (d.2.offset + d.2.compressedLength) ds more) :
      Laid zip data file limit d.2.offset (d :: ds) (chunks ++ more)

variable {data : Bytes} {pos : Nat} {named : List (Bytes × ZipEntry)}

theorem targetChunks_gap {rest : List (Bytes × ZipEntry)}
    (hmore : ¬file.length ≤ pos) (hoff : pos ≠ e.2.offset) :
    targetChunks zip data file limit pos (e :: rest) =
      (targetChunks zip data file limit e.2.offset (e :: rest)).map
        (normalChunk file pos ((e.2.offset + 2 ^ 64 - pos) % 2 ^ 64) :: ·) := by
  rw [targetChunks, targetChunks]
  simp only [if_neg hmore]
  split
  · rfl
  · cases addZipEntryToChunks zip data file limit e with
    | none => rfl
    | some chunks =>
      cases targetChunks zip data file limit (e.2.offset + e.2.compressedLength) rest <;> rfl

theorem targetChunks_laid (hfile : file.length < 2 ^ 64) :
    ∀ {named : List (Bytes × ZipEntry)} {pos : Nat} {cs : Chunks},
      Layout file size named → pos ≤ file.length → (∀ e ∈ named, pos ≤ e.2.offset) →
      targetChunks zip data file limit pos named = some cs → Laid zip data file limit pos named cs
  | [], pos, cs, _, hpos, _, h => by
    cases h
    split
    · exact .last ‹_›
    · obtain rfl : pos = file.length := by omega
      exact .done _
  | e :: rest, pos, cs, he, hpos, hafter, h => by
    have hin := he.inside e mem_cons_self
    have hsize := he.within
    have hoff := hafter e mem_cons_self
    have hentry : ∀ {cs : Chunks},
        targetChunks zip data file limit e.2.offset (e :: rest) = some cs →
        Laid zip data file limit e.2.offset (e :: rest) cs := by
      intro cs h
      rw [targetChunks] at h
      split at h
      · cases h
        rw [show e.2.offset = file.length by omega]
        exact .done _
      · rename_i hmore
        simp only [if_true, nil_append, if_neg hmore] at h
        split at h
        · rename_i chunks more hadd hrest
          cases h
          exact .entry hadd (targetChunks_laid hfile he.tail (by omega)
            (fun d hd => ((pairwise_cons.mp he.sorted).1 d hd).2) hrest)
        · cases h
    by_cases hpos : pos = e.2.offset
    · subst hpos
      exact hentry h
    · rw [targetChunks_gap (by omega) hpos] at h
      obtain ⟨cs, hcs, rfl⟩ := Option.map_eq_some_iff.mp h
      rw [show (e.2.offset + 2 ^ 64 - pos) % 2 ^ 64 = e.2.offset - pos by omega]
      exact .gap (by omega) (by omega) (hentry hcs)

theorem Laid.tiles (h : Laid zip data file limit pos named cs) (he : Layout file size named) :
    Tiles file pos cs file.length := by
  induction h with
  | done => exact rfl
  | last h =>
    refine ⟨⟨rfl, by dsimp only [normalChunk]; omega⟩, rfl, ?_⟩
    exact Nat.add_sub_cancel' (Nat.le_of_lt h)
  | @gap pos e _ _ h hend _ ih =>
    have hreach : pos + (e.2.offset - pos) = e.2.offset := Nat.add_sub_cancel' (Nat.le_of_lt h)
    refine ⟨⟨rfl, Nat.le_trans (Nat.le_of_eq hreach) hend⟩, rfl, ?_⟩
    change Tiles file (pos + (e.2.offset - pos)) _ _
    rw [hreach]
    exact ih he
  | entry hadd _ ih =>
    have hin := Nat.le_trans (he.inside _ mem_cons_self) he.within
    exact (addZipEntry_tiles hin hadd).append (ih he.tail)

theorem Laid.mem (h : Laid zip data file limit pos named cs) : ∀ c ∈ cs,
    (c.type = .normal ∧ c.entryName = [] ∧ 0 < c.rawDataLen) ∨
      ∃ e ∈ named, ∃ chunks, addZipEntryToChunks zip data file limit e = some chunks ∧
        c ∈ chunks := by
  induction h with
  | done => exact nofun
  | last h => exact forall_mem_singleton.mpr (.inl ⟨rfl, rfl, Nat.sub_pos_of_lt h⟩)
  | gap h _ _ ih => exact forall_mem_cons.mpr ⟨.inl ⟨rfl, rfl, Nat.sub_pos_of_lt h⟩, ih⟩
  | @entry e _ chunks _ hadd _ ih =>
    refine forall_mem_append.mpr ⟨fun c hc => .inr ⟨e, mem_cons_self, chunks, hadd, hc⟩, ?_⟩
    intro c hc
    refine (ih c hc).imp_right ?_
    rintro ⟨d, hd, hmem⟩
    exact ⟨d, mem_cons_of_mem _ hd, hmem⟩

theorem normalChunk_sound (start length : Nat) :
    Sound lib (2 ^ 32) (normalChunk file start length) := sound_normal rfl rfl rfl

theorem Laid.sound (hz : ZipLawful lib zip)
    (h : Laid zip (file.take size) file limit pos named cs) (he : Entries file size named) :
    (∀ c ∈ cs, Sound lib (2 ^ 32) c) ∧ (deflates cs).length ≤ named.length := by
  induction h with
  | done => exact ⟨nofun, Nat.zero_le _⟩
  | last => exact ⟨forall_mem_singleton.mpr (normalChunk_sound _ _), Nat.le_of_eq rfl⟩
  | gap _ _ _ ih => exact ⟨forall_mem_cons.mpr ⟨normalChunk_sound _ _, (ih he).1⟩, (ih he).2⟩
  | @entry e _ _ _ hadd _ ih =>
    obtain ⟨hs, hd⟩ := addZipEntry_sound hz (he.inside e mem_cons_self)
      (he.lengths e mem_cons_self) (he.contents e mem_cons_self) hadd
    obtain ⟨hs', hd'⟩ := ih he.tail
    refine ⟨forall_mem_append.mpr ⟨hs, hs'⟩, ?_⟩
    rw [deflates_append, length_append, length_cons]
    omega

end Target

theorem initializeZip_target (hz : ZipLawful lib zip) (hfile : file.length < 2 ^ 64)
    (h : initializeZip zip false limit file = some cs) :
    Tiles file 0 cs file.length ∧ (∀ c ∈ cs, Sound lib (2 ^ 32) c)
      ∧ (deflates cs).length < 2 ^ 16 := by
  unfold initializeZip at h
  split at h
  · cases h
  rename_i size hsize
  split at h
  · cases h
  rename_i entries hentries
  have he : Entries file size (sortedEntries limit entries) := entries_sorted hz hsize hentries
  have hcount : (sortedEntries limit entries).length < 2 ^ 16 := by
    unfold sortedEntries
    rw [length_insertionSort]
    exact Nat.lt_of_le_of_lt (length_filter_le _ _) (hz.count hentries)
  have hlaid := targetChunks_laid hfile he.layout (Nat.zero_le _) (fun _ _ => Nat.zero_le _) h
  obtain ⟨hs, hd⟩ := hlaid.sound hz he
  exact ⟨hlaid.tiles he.layout, hs, Nat.lt_of_le_of_lt hd hcount⟩

/-! ## The source -/

theorem addAll_sound (hz : ZipLawful lib zip) : ∀ {named : List (Bytes × ZipEntry)} {cs : Chunks},
      Entries file size named →
      addAll zip (file.take size) file limit named = some cs →
      ∀ c ∈ cs, c.Inside file ∧ Sound lib (2 ^ 32) c
  | [], cs, _, h => by
    cases h
    exact nofun
  | e :: rest, cs, he, h => by
    rw [addAll] at h
    split at h
    · rename_i chunks more hadd hrest
      cases h
      have hin := he.inside e mem_cons_self
      have hwithin := he.within
      intro c hc
      rcases mem_append.mp hc with hc | hc
      · exact ⟨(addZipEntry_tiles (by omega) hadd).inside c hc,
          (addZipEntry_sound hz hin (he.lengths e mem_cons_self)
            (he.contents e mem_cons_self) hadd).1 c hc⟩
      · exact addAll_sound hz he.tail hrest c hc
    · cases h

/-- What `Initialize` makes of the source. The last chunk is the end of the file. -/
theorem initializeZip_source (hz : ZipLawful lib zip)
    (h : initializeZip zip true limit file = some cs) :
    (∀ c ∈ cs, c.Inside file ∧ Sound lib (2 ^ 32) c) ∧
      ∃ chunks start, start < file.length ∧
        cs = chunks ++ [normalChunk file start (file.length - start)] := by
  unfold initializeZip at h
  split at h
  · cases h
  rename_i size hsize
  split at h
  · cases h
  rename_i entries hentries
  have he : Entries file size (sortedEntries limit entries) := entries_sorted hz hsize hentries
  have h : sourceChunks zip (file.take size) file limit (sortedEntries limit entries) = some cs := h
  unfold sourceChunks at h
  split at h
  · cases h
  rename_i chunks hadd
  split at h
  · rename_i hend
    cases h
    refine ⟨fun c hc => ?_, chunks, _, hend, rfl⟩
    rcases mem_append.mp hc with hc | hc
    · exact addAll_sound hz he hadd c hc
    · rw [mem_singleton.mp hc]
      exact ⟨⟨rfl, by dsimp only [normalChunk]; omega⟩, normalChunk_sound _ _⟩
  · cases h

end Pterodon.ImgDiff.ZipMode
