import Pterodon.Sideload.Pinning

/-!
# What an honest provider's file reads as

With a provider that hands out the bytes of one file and fails when asked for others, the buffer
holds the cached block of the file, padded with zeros behind the end, and a reply is cut out of the
one or two blocks it touches.

Block numbers have 32 bits, and so has the start of a block. A block number that has lost bits means
another block: `readAt` says which byte is found in the place of one. The start of a block only
matters for a block that is not full, and the code does not see that of one at 4 GiB or above. Then
the provider is asked for bytes behind the end of the file and every read of that block fails. And
the number `-1` stands for no block, so that a read of the block with this number takes what is in
the buffer, if nothing has been fetched before. Nothing else goes wrong (`reads_faithful_iff`).
-/

namespace Pterodon.Sideload

open Lib List

variable {δ : Type} {sha256 : Bytes → δ} {zero : δ} {vtab : Provider} {file memory : Bytes}
  {bs : Nat} {cold : Bool}

def bytesFrom (byteAt : Nat → UInt8) (offset size : Nat) : Bytes :=
  (List.range' offset size).map byteAt

/-- The file, with zeros behind its end. -/
def padded (file : Bytes) (p : Nat) : UInt8 := file.getD p 0

def blockOf (file : Bytes) (bs block : Nat) : Bytes := bytesFrom (padded file) (block * bs) bs

/-- The provider succeeds exactly if it is asked for bytes of the file, and stores these. -/
structure Honest (vtab : Provider) (file : Bytes) (bs : Nat) : Prop where
  inside : ∀ call block n, block * bs + n ≤ file.length →
    0 ≤ (vtab.readBlock call block n).2 ∧
      ∀ i, (vtab.readBlock call block n).1 i = if i < n then file[block * bs + i]? else none
  outside : ∀ call block n, 0 < n → file.length < block * bs + n →
    (vtab.readBlock call block n).2 < 0

/--
`read_block_file` of `fuse_sdcard_provider.cpp`. `ReadFully` stores what it can read before it finds
the end of the file.
-/
def readBlockFile (file : Bytes) (bs : Nat) : Provider where
  readBlock _ block fetchSize :=
    (fun i => if i < fetchSize then file[block * bs + i]? else none,
      if fetchSize = 0 ∨ block * bs + fetchSize ≤ file.length then 0 else -eio)

theorem honest_readBlockFile (file : Bytes) (bs : Nat) :
    Honest (readBlockFile file bs) file bs := by
  refine ⟨fun call block n hin => ⟨?_, fun i => rfl⟩, fun call block n hpos hout => ?_⟩
  · exact Int.le_of_eq (if_pos (.inr hin)).symm
  · show ite _ _ _ < 0
    rw [if_neg (by omega)]
    decide

/-- The last block of the file, if it is not full and starts at 4 GiB or above. -/
def FarPartial (fileSize bs block : Nat) : Prop :=
  block < packageBlocks fileSize bs % 2 ^ 32 ∧ fileSize < block * bs + bs ∧ 2 ^ 32 ≤ block * bs

/-- The byte that is found at a position. `memory` is what the buffer held in the beginning, and it
is `cold` as long as nothing was fetched. -/
def readAt (file memory : Bytes) (bs : Nat) (cold : Bool) (p : Nat) : UInt8 :=
  let block := p / bs % 2 ^ 32
  if block < packageBlocks file.length bs % 2 ^ 32 then padded file (block * bs + p % bs)
  else if cold && block = NO_BLOCK then memory.getD (p % bs) 0
  else 0

/-- What holds between two requests. -/
structure Serves (sha256 : Bytes → δ) (zero : δ) (file memory : Bytes) (bs : Nat) (cold : Bool)
    (fd : FuseData δ) : Prop where
  fileSize : fd.fileSize = file.length
  blockSize : fd.blockSize = bs
  fileBlocks : fd.fileBlocks = packageBlocks file.length bs % 2 ^ 32
  few : fd.fileBlocks ≤ 2 ^ 18
  hashes : fd.hashes.length = fd.fileBlocks
  /-- A digest that is stored is that of the block. -/
  digests : ∀ b < fd.fileBlocks,
    fd.hashes.getD b zero = zero ∨ fd.hashes.getD b zero = sha256 (blockOf file bs b)
  currBlock : fd.currBlock < 2 ^ 32
  /-- The buffer holds the cached block, and that is one that can be read. -/
  data : fd.blockData = bytesFrom (readAt file memory bs cold) (fd.currBlock * bs) bs
  readable : ¬ FarPartial file.length bs fd.currBlock
  fresh : cold = true → fd.currBlock = NO_BLOCK

/-! ## Blocks -/

section Bytes

variable {byteAt : Nat → UInt8} {offset size n k : Nat}

theorem bytesFrom_length (byteAt : Nat → UInt8) (offset size : Nat) :
    (bytesFrom byteAt offset size).length = size := by
  unfold bytesFrom
  rw [length_map, length_range']

theorem bytesFrom_getElem? (hk : k < size) :
    (bytesFrom byteAt offset size)[k]? = some (byteAt (offset + k)) := by
  unfold bytesFrom
  rw [getElem?_map, getElem?_range' hk, Option.map_some, Nat.one_mul]

theorem bytesFrom_slice (h : k + n ≤ size) :
    ((bytesFrom byteAt offset size).drop k).take n = bytesFrom byteAt (offset + k) n := by
  unfold bytesFrom
  rw [← map_drop, ← map_take, drop_range', Nat.mul_one, take_range'_of_length_ge (by omega)]

theorem bytesFrom_append (byteAt : Nat → UInt8) (offset m n : Nat) :
    bytesFrom byteAt offset m ++ bytesFrom byteAt (offset + m) n =
      bytesFrom byteAt offset (m + n) := by
  unfold bytesFrom
  rw [← map_append, range'_append_1]

theorem bytesFrom_congr {byteAt' : Nat → UInt8} {offset' : Nat}
    (h : ∀ i < n, byteAt (offset + i) = byteAt' (offset' + i)) :
    bytesFrom byteAt offset n = bytesFrom byteAt' offset' n := by
  refine ext_getElem? fun k => ?_
  rcases Nat.lt_or_ge k n with hk | hk
  · rw [bytesFrom_getElem? hk, bytesFrom_getElem? hk, h k hk]
  · rw [getElem?_eq_none (by rw [bytesFrom_length]; exact hk),
      getElem?_eq_none (by rw [bytesFrom_length]; exact hk)]

theorem bytesFrom_inj {byteAt' : Nat → UInt8} :
    bytesFrom byteAt offset n = bytesFrom byteAt' offset n ↔
      ∀ i < n, byteAt (offset + i) = byteAt' (offset + i) := by
  refine ⟨fun heq i hi => ?_, bytesFrom_congr⟩
  have hbyte := congrArg (·[i]?) heq
  rw [bytesFrom_getElem? hi, bytesFrom_getElem? hi] at hbyte
  exact Option.some.inj hbyte

end Bytes

theorem lt_of_block {fileSize block : Nat}
    (h : block < packageBlocks fileSize bs % 2 ^ 32) : block * bs < fileSize := by
  have hlt : block < packageBlocks fileSize bs := Nat.lt_of_lt_of_le h (Nat.mod_le _ _)
  unfold packageBlocks at hlt
  split at hlt
  · omega
  · have hle := Nat.mul_le_mul_right bs (Nat.le_of_lt_succ hlt)
    have := Nat.div_mul_le_self (fileSize - 1) bs
    omega

theorem place_block {block i : Nat} (hi : i < bs) :
    (block * bs + i) / bs = block ∧ (block * bs + i) % bs = i :=
  (Nat.div_mod_unique (by omega)).mpr ⟨by rw [Nat.mul_comm, Nat.add_comm], hi⟩

/-- A position in a block is read as the one in the block with the last 32 bits of the number. -/
theorem readAt_block {block i : Nat} {cold' : Bool} (hi : i < bs)
    (hcold : (cold && block % 2 ^ 32 = NO_BLOCK) = (cold' && block % 2 ^ 32 = NO_BLOCK)) :
    readAt file memory bs cold (block * bs + i) =
      readAt file memory bs cold' (block % 2 ^ 32 * bs + i) := by
  unfold readAt
  rw [(place_block hi).1, (place_block hi).1, (place_block hi).2, (place_block hi).2, Nat.mod_mod]
  dsimp only
  rw [hcold]

theorem readAt_inside {block i : Nat} (hblock : block < packageBlocks file.length bs % 2 ^ 32)
    (hi : i < bs) : readAt file memory bs cold (block * bs + i) = padded file (block * bs + i) := by
  have hsmall : block % 2 ^ 32 = block := Nat.mod_eq_of_lt (by omega)
  unfold readAt
  rw [(place_block hi).1, (place_block hi).2, hsmall]
  exact if_pos hblock

theorem readAt_outside {block i : Nat} (hblock : packageBlocks file.length bs % 2 ^ 32 ≤ block)
    (hfits : block < 2 ^ 32) (hi : i < bs) : readAt file memory bs cold (block * bs + i) =
      if cold && block = NO_BLOCK then memory.getD i 0 else 0 := by
  unfold readAt
  rw [(place_block hi).1, (place_block hi).2, Nat.mod_eq_of_lt hfits]
  exact if_neg (Nat.not_lt.mpr hblock)

/-! ## One fetch -/

section Fetch

variable {fd : FuseData δ} {block : Nat}

/-- The 32-bit start only matters for a block of which the end of the file is a part. -/
theorem fetchSize_near (h : Serves sha256 zero file memory bs cold fd)
    (hin : block * bs < file.length)
    (hnear : ¬ (file.length < block * bs + bs ∧ 2 ^ 32 ≤ block * bs)) :
    fd.fetchSize block = min bs (file.length - block * bs) ∧
      (fd.isPartial block = true ↔ file.length < block * bs + bs) := by
  have hmod : block * bs % 2 ^ 32 ≤ block * bs := Nat.mod_le _ _
  unfold FuseData.fetchSize FuseData.isPartial FuseData.blockStart
  rw [h.blockSize, h.fileSize]
  generalize block * bs = start at hin hnear hmod ⊢
  by_cases hlow : start < 2 ^ 32
  · rw [Nat.mod_eq_of_lt hlow]
    by_cases hpart : file.length < start + bs
    · rw [decide_eq_true hpart]
      exact ⟨by rw [if_pos rfl]; omega, Iff.intro (fun _ => hpart) (fun _ => rfl)⟩
    · rw [decide_eq_false hpart]
      exact ⟨by rw [if_neg (by simp)]; omega, Iff.intro nofun
        (fun hc => absurd hc hpart)⟩
  · rw [decide_eq_false (by omega)]
    exact ⟨by rw [if_neg (by simp)]; omega, Iff.intro nofun (by omega)⟩

theorem scribble_getElem? (w : Nat → Option UInt8) : ∀ (buffer : Bytes) (i k : Nat),
    (scribble w i buffer)[k]? = buffer[k]?.map fun b => (w (i + k)).getD b
  | [], _, _ => rfl
  | b :: buffer, i, 0 => rfl
  | b :: buffer, i, k + 1 => by
    have hnext : i + 1 + k = i + (k + 1) := by omega
    rw [scribble, getElem?_cons_succ, getElem?_cons_succ, scribble_getElem? w buffer, hnext]

theorem fetched_block (hhonest : Honest vtab file bs)
    (h : Serves sha256 zero file memory bs cold fd) (hin : block * bs < file.length)
    (hnear : ¬ (file.length < block * bs + bs ∧ 2 ^ 32 ≤ block * bs)) :
    0 ≤ (vtab.readBlock fd.calls block (fd.fetchSize block)).2 ∧
      (fd.fetched vtab block).blockData = blockOf file bs block := by
  obtain ⟨hsize, hpart⟩ := fetchSize_near h hin hnear
  obtain ⟨hok, hbytes⟩ := hhonest.inside fd.calls block (fd.fetchSize block) (by omega)
  refine ⟨hok, ext_getElem? fun k => ?_⟩
  have hdata : fd.blockData.length = bs := by rw [h.data, bytesFrom_length]
  have hlen := @padded_length δ fd block (hdata.trans h.blockSize.symm)
  show (scribble _ 0 (fd.padded block))[k]? = _
  rw [scribble_getElem?, hbytes, Nat.zero_add]
  rw [h.blockSize] at hlen
  rcases Nat.lt_or_ge k bs with hk | hk
  · obtain ⟨b, hb⟩ : ∃ b, (fd.padded block)[k]? = some b :=
      ⟨_, getElem?_eq_getElem (by rw [hlen]; exact hk)⟩
    rw [blockOf, bytesFrom_getElem? hk, hb, Option.map_some, padded, getD_eq_getElem?_getD]
    congr 1
    by_cases hkn : k < fd.fetchSize block
    · have hfile : block * bs + k < file.length := by omega
      rw [if_pos hkn, getElem?_eq_getElem hfile]
      rfl
    · -- behind the end of the file: the zeros that were put there before
      have hpartial : fd.isPartial block = true := hpart.mpr (by omega)
      have htake : (fd.blockData.take (fd.fetchSize block)).length = fd.fetchSize block := by
        rw [length_take, hdata]
        omega
      unfold FuseData.padded at hb
      rw [if_pos hpartial, getElem?_append_right (by omega),
        getElem?_replicate_of_lt (by rw [h.blockSize]; omega)] at hb
      rw [if_neg hkn, getElem?_eq_none (by omega)]
      exact (Option.some.inj hb).symm
  · have hnone : (fd.padded block)[k]? = none := getElem?_eq_none (by rw [hlen]; exact hk)
    have hnone' : (blockOf file bs block)[k]? = none :=
      getElem?_eq_none (by unfold blockOf; rw [bytesFrom_length]; exact hk)
    rw [hnone, hnone']
    rfl

variable [DecidableEq δ]

/-- A block that can be read; if it was not in the buffer, the buffer is not cold any more. -/
theorem fetchBlock_near (hhonest : Honest vtab file bs)
    (h : Serves sha256 zero file memory bs cold fd) (hblock : block < 2 ^ 32)
    (hnear : ¬ FarPartial file.length bs block) :
    ∃ fd', fetchBlock sha256 zero vtab fd block = (0, fd') ∧ fd'.currBlock = block ∧
      Serves sha256 zero file memory bs (cold && block = NO_BLOCK) fd' := by
  unfold fetchBlock
  split
  · rename_i hcurr
    have hcold : (cold && block = NO_BLOCK) = cold := by
      cases hc : cold with
      | false => rfl
      | true => rw [hcurr, h.fresh hc]; rfl
    rw [hcold]
    exact ⟨fd, rfl, hcurr.symm, h⟩
  rename_i hcurr
  have hcold : (cold && block = NO_BLOCK) = false := by
    cases hc : cold with
    | false => rfl
    | true => rw [← h.fresh hc, decide_eq_false hcurr]; rfl
  rw [hcold]
  split
  · -- behind the end of the file
    rename_i hbehind
    rw [h.fileBlocks] at hbehind
    refine ⟨_, rfl, rfl, ⟨h.fileSize, h.blockSize, h.fileBlocks, h.few, h.hashes, h.digests, hblock,
      ?_, hnear, nofun⟩⟩
    refine (eq_replicate_iff.mpr
      ⟨(bytesFrom_length ..).trans h.blockSize.symm, fun b hb => ?_⟩).symm
    obtain ⟨p, hp, rfl⟩ := mem_map.mp hb
    rw [mem_range'_1] at hp
    obtain ⟨i, rfl⟩ := Nat.exists_eq_add_of_le hp.1
    exact readAt_outside hbehind hblock (by omega)
  · rename_i hinside
    have hfew := h.few
    rw [Nat.not_le] at hinside
    have hcount := hinside
    rw [h.fileBlocks] at hcount
    obtain ⟨hok, hdata⟩ := fetched_block hhonest h (lt_of_block hcount)
      (fun hfar => hnear ⟨hcount, hfar⟩)
    have hshown : (fd.fetched vtab block).blockData =
        bytesFrom (readAt file memory bs false) (block * bs) bs :=
      hdata.trans (bytesFrom_congr fun i hi => (readAt_inside hcount hi).symm)
    have hlt : block < fd.hashes.length := by
      rw [h.hashes]
      exact hinside
    have hstored := h.digests block hinside
    dsimp only
    rw [if_neg (by omega)]
    split
    · exact ⟨_, rfl, rfl, ⟨h.fileSize, h.blockSize, h.fileBlocks, h.few, h.hashes, h.digests,
        hblock, hshown, hnear, nofun⟩⟩
    split
    · -- a digest of other bytes was never stored
      rename_i hdiff hnonzero
      rw [hdata] at hdiff
      exact absurd (hstored.resolve_left hnonzero).symm hdiff
    · refine ⟨_, rfl, rfl, ⟨h.fileSize, h.blockSize, h.fileBlocks, h.few, ?_, fun b hb => ?_,
        hblock, hshown, hnear, nofun⟩⟩
      · rw [length_set]
        exact h.hashes
      · rw [hdata]
        by_cases hbb : block = b
        · subst hbb
          exact .inr (getD_set_self hlt)
        · rw [getD_set_ne hbb]
          exact h.digests b hb

/-- The last block is not: the provider is asked for more than there is. -/
theorem fetchBlock_far (hbs : 0 < bs) (hbound : bs ≤ 2 ^ 32) (hhonest : Honest vtab file bs)
    (h : Serves sha256 zero file memory bs cold fd) (hfar : FarPartial file.length bs block) :
    (fetchBlock sha256 zero vtab fd block).1 < 0 := by
  obtain ⟨hinside, hend, hhigh⟩ := hfar
  have hin := lt_of_block hinside
  have hcurr : block ≠ fd.currBlock := by
    intro heq
    rw [heq] at hinside hend hhigh
    exact h.readable ⟨hinside, hend, hhigh⟩
  rw [← h.fileBlocks] at hinside
  -- four gigabytes below its place the block ends before the file does
  have hsize : fd.fetchSize block = bs := by
    unfold FuseData.fetchSize FuseData.isPartial FuseData.blockStart
    rw [h.blockSize, h.fileSize, decide_eq_false (by omega), if_neg (by simp)]
  have hfail := hhonest.outside fd.calls block bs hbs hend
  unfold fetchBlock
  rw [if_neg hcurr, if_neg (by omega), hsize]
  rw [if_pos hfail]
  exact hfail

end Fetch

/-! ## One request -/

/-- A read of the package, of a block at most. -/
structure Admissible (bs : Nat) (req : ReadRequest) : Prop where
  nodeid : req.nodeid = PACKAGE_FILE_ID
  size : req.size ≤ bs

/-- The blocks of a request: the one it starts in, and the next if it spills over. -/
def firstOf (bs : Nat) (req : ReadRequest) : Nat := req.offset / bs % 2 ^ 32

def Spills (bs : Nat) (req : ReadRequest) : Prop := bs < req.size + req.offset % bs

instance (bs : Nat) (req : ReadRequest) : Decidable (Spills bs req) :=
  inferInstanceAs (Decidable (_ < _))

/-- Neither block that a request touches is a partial one at 4 GiB or above. -/
def Readable (fileSize bs : Nat) (req : ReadRequest) : Prop :=
  ¬ FarPartial fileSize bs (firstOf bs req) ∧
    (Spills bs req → ¬ FarPartial fileSize bs ((firstOf bs req + 1) % 2 ^ 32))

section Request

variable [DecidableEq δ] {fd : FuseData δ} {req : ReadRequest}

/-- `handle_read` on such a request: the only 32-bit numbers that wrap are those of blocks. -/
theorem handleRead_eq (hpos : 0 < bs) (hbs : bs ≤ 2 ^ 22) (hbsfd : fd.blockSize = bs)
    (hreq : Admissible bs req) :
    handleRead sha256 zero vtab fd req =
      let r₁ := fetchBlock sha256 zero vtab fd (firstOf bs req)
      if r₁.1 ≠ 0 then (r₁.1, none, r₁.2)
      else if Spills bs req then
        let r₂ := fetchBlock sha256 zero vtab r₁.2 ((firstOf bs req + 1) % 2 ^ 32)
        if r₂.1 ≠ 0 then (r₂.1, none, r₂.2)
        else
          (NO_STATUS, some ((r₁.2.blockData.drop (req.offset % bs)).take (bs - req.offset % bs) ++
              r₂.2.blockData.take (req.size - (bs - req.offset % bs))), r₂.2)
      else (NO_STATUS, some ((r₁.2.blockData.drop (req.offset % bs)).take req.size), r₁.2) := by
  subst hbsfd
  unfold handleRead
  rw [if_neg (not_not_intro hreq.nodeid), spills_eq req hpos hbs hreq.size,
    blockOffset_eq req hpos hbs]
  simp only [decide_eq_true_eq]
  rfl

variable (hpos : 0 < bs) (hbs : bs ≤ 2 ^ 22) (hhonest : Honest vtab file bs)
  (h : Serves sha256 zero file memory bs cold fd) (hreq : Admissible bs req)
include hpos hbs hhonest h hreq

theorem handleRead_near (hnear : Readable file.length bs req) :
    ∃ fd', handleRead sha256 zero vtab fd req = (NO_STATUS, some (bytesFrom
        (readAt file memory bs (cold && firstOf bs req = NO_BLOCK)) req.offset req.size), fd') ∧
      Serves sha256 zero file memory bs
        (cold && firstOf bs req = NO_BLOCK && !decide (Spills bs req)) fd' := by
  obtain ⟨hfar₁, hfar₂⟩ := hnear
  have hsize := hreq.size
  have hlt := Nat.mod_lt req.offset hpos
  have hplace : req.offset / bs * bs + req.offset % bs = req.offset := by
    rw [Nat.mul_comm]
    exact Nat.div_add_mod req.offset bs
  have hfirst : firstOf bs req < 2 ^ 32 := Nat.mod_lt _ (by decide)
  obtain ⟨fd₁, hfetch, hcurr, hserves⟩ := fetchBlock_near hhonest h hfirst hfar₁
  generalize hc : (cold && decide (firstOf bs req = NO_BLOCK)) = cold₁ at hserves ⊢
  -- the part of a reply from the first block
  have hpart : ∀ n, req.offset % bs + n ≤ bs →
      (fd₁.blockData.drop (req.offset % bs)).take n =
        bytesFrom (readAt file memory bs cold₁) req.offset n := by
    intro n hn
    rw [hserves.data, hcurr, bytesFrom_slice hn]
    refine bytesFrom_congr fun i hi => ?_
    have hshift := @readAt_block file memory bs cold₁ (req.offset / bs) (req.offset % bs + i) cold₁
      (by omega) rfl
    rw [← Nat.add_assoc, hplace, ← Nat.add_assoc] at hshift
    exact hshift.symm
  rw [handleRead_eq hpos hbs h.blockSize hreq, hfetch]
  dsimp only
  rw [if_neg (not_not_intro rfl)]
  by_cases hspill : Spills bs req
  · obtain ⟨fd₂, hfetch₂, hcurr₂, hserves₂⟩ := fetchBlock_near hhonest hserves
      (Nat.mod_lt _ (by decide)) (hfar₂ hspill)
    -- the block behind the one without a number is another
    have hcold₂ : (cold₁ && (firstOf bs req + 1) % 2 ^ 32 = NO_BLOCK) = false := by
      have hNB : NO_BLOCK = 2 ^ 32 - 1 := rfl
      rw [← hc, Bool.and_assoc, ← Bool.decide_and, decide_eq_false (by omega), Bool.and_false]
    rw [hcold₂] at hserves₂
    rw [if_pos hspill, hfetch₂, decide_eq_true hspill, Bool.not_true, Bool.and_false]
    dsimp only
    rw [if_neg (not_not_intro rfl), hpart _ (by omega)]
    refine ⟨fd₂, ?_, hserves₂⟩
    unfold Spills at hspill
    have hnext : (req.offset / bs + 1) * bs = req.offset + (bs - req.offset % bs) := by
      rw [Nat.add_mul]
      omega
    have hsum : bs - req.offset % bs + (req.size - (bs - req.offset % bs)) = req.size := by omega
    have hrest : fd₂.blockData.take (req.size - (bs - req.offset % bs)) =
        bytesFrom (readAt file memory bs cold₁) (req.offset + (bs - req.offset % bs))
          (req.size - (bs - req.offset % bs)) := by
      rw [hserves₂.data, hcurr₂]
      refine (@bytesFrom_slice _ _ _ _ 0 (by omega)).trans (bytesFrom_congr fun i hi => ?_)
      have hblock : (req.offset / bs + 1) % 2 ^ 32 = (firstOf bs req + 1) % 2 ^ 32 :=
        (Nat.mod_add_mod _ _ _).symm
      have hshift := @readAt_block file memory bs cold₁ (req.offset / bs + 1) i false (by omega)
        (by rw [hblock, hcold₂]; rfl)
      rw [hnext, hblock] at hshift
      exact hshift.symm
    rw [hrest, bytesFrom_append, hsum]
  · rw [if_neg hspill, decide_eq_false hspill, Bool.not_false, Bool.and_true]
    unfold Spills at hspill
    exact ⟨fd₁, by rw [hpart _ (by omega)], hserves⟩

/-- A request that touches a partial block at 4 GiB or above gets no reply. -/
theorem handleRead_far (hfar : ¬ Readable file.length bs req) :
    (handleRead sha256 zero vtab fd req).2.1 = none := by
  have hbound : bs ≤ 2 ^ 32 := by omega
  rw [handleRead_eq hpos hbs h.blockSize hreq]
  by_cases hfar₁ : FarPartial file.length bs (firstOf bs req)
  · have hneg := fetchBlock_far hpos hbound hhonest h hfar₁
    dsimp only
    rw [if_pos (by omega)]
  · obtain ⟨hspill, hfar₂⟩ : Spills bs req ∧
        FarPartial file.length bs ((firstOf bs req + 1) % 2 ^ 32) := by
      by_contra hc
      exact hfar ⟨hfar₁, fun hspill hfar₂ => hc ⟨hspill, hfar₂⟩⟩
    have hfirst : firstOf bs req < 2 ^ 32 := Nat.mod_lt _ (by decide)
    obtain ⟨fd₁, hfetch, -, hserves⟩ := fetchBlock_near hhonest h hfirst hfar₁
    have hneg := fetchBlock_far hpos hbound hhonest hserves hfar₂
    rw [hfetch]
    dsimp only
    rw [if_neg (not_not_intro rfl), if_pos hspill, if_pos (by omega)]

end Request

/-! ## Any sequence of requests -/

/-- The blocks of all requests can be read, and the byte found at each of their positions is that of
the file. -/
def AllRight (file memory : Bytes) (bs : Nat) : Bool → List ReadRequest → Prop
  | _, [] => True
  | cold, req :: reqs =>
    Readable file.length bs req ∧
    (∀ i < req.size, readAt file memory bs (cold && firstOf bs req = NO_BLOCK) (req.offset + i) =
      padded file (req.offset + i)) ∧
    AllRight file memory bs (cold && firstOf bs req = NO_BLOCK && !decide (Spills bs req)) reqs

section Run

variable [DecidableEq δ] {fd : FuseData δ}

theorem serve_length_le (sha256 : Bytes → δ) (zero : δ) (vtab : Provider) (fd : FuseData δ)
    (reqs : List ReadRequest) : (serve sha256 zero vtab fd reqs).1.length ≤ reqs.length := by
  induction reqs generalizing fd with
  | nil => exact Nat.le_refl 0
  | cons req reqs ih =>
    have hrest := ih (handleRead sha256 zero vtab fd req).2.2
    rw [serve]
    split
    · exact Nat.succ_le_succ hrest
    · exact Nat.le_succ_of_le hrest

/-- All replies are there and right, as long as nothing of this kind is asked for. -/
theorem serve_iff (hpos : 0 < bs) (hbs : bs ≤ 2 ^ 22) (hhonest : Honest vtab file bs)
    {reqs : List ReadRequest} (hreqs : ∀ req ∈ reqs, Admissible bs req)
    (h : Serves sha256 zero file memory bs cold fd) :
    (serve sha256 zero vtab fd reqs).1 =
        reqs.map (fun req => (req, bytesFrom (padded file) req.offset req.size)) ↔
      AllRight file memory bs cold reqs := by
  induction reqs generalizing fd cold with
  | nil => exact ⟨fun _ => trivial, fun _ => rfl⟩
  | cons req reqs ih =>
    obtain ⟨hreq, hrest⟩ := forall_mem_cons.mp hreqs
    rw [serve, map_cons, AllRight]
    by_cases hnear : Readable file.length bs req
    · obtain ⟨fd', hread, hserves⟩ := handleRead_near hpos hbs hhonest h hreq hnear
      rw [hread]
      rw [cons_eq_cons, ih hrest hserves, Prod.mk.injEq, bytesFrom_inj]
      exact ⟨fun hall => ⟨hnear, hall.1.2, hall.2⟩, fun hall => ⟨⟨rfl, hall.2.1⟩, hall.2.2⟩⟩
    · -- a reply is missing from here on
      have hnone := handleRead_far hpos hbs hhonest h hreq hnear
      have hshort := serve_length_le sha256 zero vtab (handleRead sha256 zero vtab fd req).2.2 reqs
      rw [hnone]
      dsimp only
      refine ⟨fun heq => ?_, fun hall => absurd hall.1 hnear⟩
      have hlen := congrArg List.length heq
      rw [length_cons, length_map] at hlen
      omega

omit [DecidableEq δ] in
theorem runFuseSideload_serves (hrun : runFuseSideload zero file.length bs memory = some fd)
    (hmemory : memory.length = bs) :
    0 < bs ∧ bs ≤ 2 ^ 22 ∧ Serves sha256 zero file memory bs true fd := by
  unfold runFuseSideload at hrun
  dsimp only at hrun
  split at hrun
  · cases hrun
  split at hrun
  · cases hrun
  split at hrun
  · cases hrun
  rename_i hsmall hlarge hfew
  cases hrun
  have hNB : NO_BLOCK = 2 ^ 32 - 1 := rfl
  rw [Nat.not_lt] at hfew
  refine ⟨by omega, by omega, rfl, rfl, rfl, hfew, length_replicate, fun b hb => .inl ?_,
    show NO_BLOCK < 2 ^ 32 by decide, ?_, fun hfar => ?_, fun _ => rfl⟩
  · rw [getD_eq_getElem?_getD, getElem?_replicate_of_lt hb, Option.getD_some]
  · refine ext_getElem? fun k => ?_
    show memory[k]? = (bytesFrom (readAt file memory bs true) (NO_BLOCK * bs) bs)[k]?
    rcases Nat.lt_or_ge k bs with hk | hk
    · rw [bytesFrom_getElem? hk, readAt_outside (by omega) (by decide) hk, getD_eq_getElem?_getD,
        getElem?_eq_getElem (by omega)]
      rfl
    · rw [getElem?_eq_none (by omega), getElem?_eq_none (by rw [bytesFrom_length]; exact hk)]
  · have hlt : NO_BLOCK < packageBlocks file.length bs % 2 ^ 32 := hfar.1
    omega

end Run

/--
**What an honest provider's file reads as.** Every reply is there and has the bytes of the file,
followed by zeros, if and only if no request touches a last block that is not full and starts at
4 GiB or above, and the bytes at the positions that are read instead are the same.
-/
theorem reads_faithful_iff [DecidableEq δ] {fd : FuseData δ} {reqs : List ReadRequest}
    (hrun : runFuseSideload zero file.length bs memory = some fd) (hmemory : memory.length = bs)
    (hhonest : Honest vtab file bs) (hreqs : ∀ req ∈ reqs, Admissible bs req) :
    (serve sha256 zero vtab fd reqs).1 =
        reqs.map (fun req => (req, bytesFrom (padded file) req.offset req.size)) ↔
      AllRight file memory bs true reqs := by
  obtain ⟨hpos, hbs, hserves⟩ := runFuseSideload_serves hrun hmemory
  exact serve_iff hpos hbs hhonest hreqs hserves

section Sample

/-- A package of three bytes, with the bytes of a block as its own digest. -/
def small : FuseData Bytes where
  fileSize := 3
  blockSize := 4096
  fileBlocks := 1
  currBlock := NO_BLOCK
  blockData := List.replicate 4096 0
  hashes := [[]]
  calls := 0

/-- A read across the end of the file, one that starts in it and spills over, one behind it, and one
where the block number has 33 bits but the byte found is a zero as well. -/
def smallReads : List ReadRequest :=
  [⟨PACKAGE_FILE_ID, 1, 4⟩, ⟨PACKAGE_FILE_ID, 4094, 3⟩, ⟨PACKAGE_FILE_ID, 8192, 1⟩,
    ⟨PACKAGE_FILE_ID, 2 ^ 44 + 3, 1⟩]

theorem small_package_read :
    runFuseSideload [] 3 4096 (List.replicate 4096 0) = some small ∧
      (serve id [] (readBlockFile [5, 6, 7] 4096) small smallReads).1 =
        [(⟨PACKAGE_FILE_ID, 1, 4⟩, [6, 7, 0, 0]), (⟨PACKAGE_FILE_ID, 4094, 3⟩, [0, 0, 0]),
          (⟨PACKAGE_FILE_ID, 8192, 1⟩, [0]), (⟨PACKAGE_FILE_ID, 2 ^ 44 + 3, 1⟩, [0])] := by
  have hrun : runFuseSideload [] 3 4096 (List.replicate 4096 0) = some small := rfl
  have hreqs : ∀ req ∈ smallReads, Admissible 4096 req := by
    intro req hmem
    simp only [smallReads, mem_cons, not_mem_nil, or_false] at hmem
    rcases hmem with rfl | rfl | rfl | rfl <;> exact ⟨rfl, by decide⟩
  have hnear : ∀ req, Readable 3 4096 req :=
    fun req => ⟨fun hfar => by have := lt_of_block hfar.1; have := hfar.2.2; omega,
      fun _ hfar => by have := lt_of_block hfar.1; have := hfar.2.2; omega⟩
  refine ⟨hrun, (@reads_faithful_iff _ id [] _ [5, 6, 7] _ _ _ _ _ hrun length_replicate
    (honest_readBlockFile _ _) hreqs).mpr ?_⟩
  exact ⟨hnear _, by decide, hnear _, by decide, hnear _, by decide, hnear _, by decide, trivial⟩

/-- A package of one byte more than 4 GiB. -/
def large : Bytes := List.replicate (2 ^ 32 + 1) 7

/--
The last byte of a package of one byte more than 4 GiB cannot be read. And a read far behind the end
of a package of one byte, where the block number has 33 bits, returns that byte.
-/
theorem far_reads_unfaithful :
    (∃ fd, runFuseSideload [] large.length 65536 (List.replicate 65536 0) = some fd ∧
      (handleRead id [] (readBlockFile large 65536) fd ⟨PACKAGE_FILE_ID, 2 ^ 32, 1⟩).2.1 = none ∧
      bytesFrom (padded large) (2 ^ 32) 1 = [7]) ∧
    (∃ fd, runFuseSideload [] 1 4096 (List.replicate 4096 0) = some fd ∧
      (handleRead id [] (readBlockFile [7] 4096) fd ⟨PACKAGE_FILE_ID, 2 ^ 44, 1⟩).2.1 = some [7] ∧
      bytesFrom (padded [7]) (2 ^ 44) 1 = [0]) := by
  have hlen : large.length = 2 ^ 32 + 1 := length_replicate
  constructor
  · obtain ⟨fd, hrun⟩ : ∃ fd,
        runFuseSideload ([] : Bytes) large.length 65536 (List.replicate 65536 0) = some fd := by
      rw [hlen]
      exact ⟨_, rfl⟩
    obtain ⟨hpos, hbs, hserves⟩ := @runFuseSideload_serves _ id _ _ _ _ _ hrun length_replicate
    refine ⟨fd, hrun, handleRead_far hpos hbs (honest_readBlockFile _ _) hserves
      ⟨rfl, by decide⟩ (fun hc => hc.1 ?_), ?_⟩
    · rw [hlen]
      exact ⟨by decide, by decide, by decide⟩
    · have hlast : large.getD (2 ^ 32) 0 = 7 := by
        rw [getD_eq_getElem?_getD, large, getElem?_replicate_of_lt (by decide), Option.getD_some]
      exact congrArg (fun b => [b]) hlast
  · obtain ⟨hpos, hbs, hserves⟩ := @runFuseSideload_serves _ id [] [7] (List.replicate 4096 0) 4096
      { small with fileSize := 1 } rfl length_replicate
    obtain ⟨fd', hread, -⟩ := @handleRead_near _ _ _ _ _ _ _ _ _ _ ⟨PACKAGE_FILE_ID, 2 ^ 44, 1⟩ hpos
      hbs (honest_readBlockFile _ _) hserves ⟨rfl, by decide⟩
      ⟨fun hfar => absurd hfar.2.2 (by decide), fun hspill => absurd hspill (by decide)⟩
    refine ⟨{ small with fileSize := 1 }, rfl, ?_, rfl⟩
    rw [hread]
    rfl

end Sample

end Pterodon.Sideload
