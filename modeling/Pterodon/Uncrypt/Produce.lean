import Pterodon.Lib.Ranges
import Pterodon.Uncrypt.BlockMap

/-!
# What is written to a block map

`produce_block_map` keeps a window of blocks that are read but not yet looked up. Every
block leaves it once and in order, so the ranges it collects are those of the file's block
sequence, and the text it writes is determined by that sequence.

The text is written over the temporary file without truncating it. What the file held past
the length of the text is in the map, too.
-/

namespace Pterodon.Uncrypt

open Lib List

/-! ## Ranges of a block sequence -/

/-- One more block in the ranges: it extends the last range or begins a new one. -/
def extend (rs : Pairs) (b : Nat) : Pairs :=
  match rs.getLast? with
  | some (first, last) =>
    if last = b then rs.dropLast ++ [(first, last + 1)] else rs ++ [(b, b + 1)]
  | none => [(b, b + 1)]

/-- The ranges of a block sequence. -/
def blockRanges (bs : List Nat) : Pairs := bs.foldl extend []

/-- Ranges in the vector of `produce_block_map`. -/
def flat (rs : Pairs) : List Int := rs.flatMap fun r => [(r.1 : Int), int32 r.2]

/-- Ranges that are not empty and whose blocks are positive `int`s. -/
def Plain (rs : Pairs) : Prop := ∀ r ∈ rs, r.1 < r.2 ∧ r.2 ≤ 2 ^ 31

theorem extend_cases (rs : Pairs) (b : Nat) :
    (∃ init first, rs = init ++ [(first, b)] ∧ extend rs b = init ++ [(first, b + 1)]) ∨
    ((∀ init first, rs ≠ init ++ [(first, b)]) ∧ extend rs b = rs ++ [(b, b + 1)]) := by
  rcases eq_nil_or_concat' rs with rfl | ⟨init, ⟨first, last⟩, rfl⟩
  · exact .inr ⟨fun init first h => by simp at h, rfl⟩
  · by_cases hb : last = b
    · subst hb
      simp [extend]
    · refine .inr ⟨fun init' first' h => hb ?_, ?_⟩
      · have := (append_inj' h rfl).2
        simp only [List.cons.injEq, Prod.mk.injEq, and_true] at this
        exact this.2
      · simp [extend, hb]

theorem extend_plain {rs : Pairs} {b : Nat} (h : Plain rs) (hb : b < 2 ^ 31) :
    Plain (extend rs b) := by
  rcases extend_cases rs b with ⟨init, first, rfl, hext⟩ | ⟨-, hext⟩ <;> rw [hext] <;> intro r hr
  · rcases mem_append.mp hr with hr | hr
    · exact h r (mem_append_left _ hr)
    · rw [mem_singleton.mp hr]
      have := (h (first, b) (mem_append_right _ (mem_singleton.mpr rfl))).1
      exact ⟨Nat.lt_succ_of_lt this, hb⟩
  · rcases mem_append.mp hr with hr | hr
    · exact h r hr
    · rw [mem_singleton.mp hr]
      exact ⟨Nat.lt_succ_self b, hb⟩

theorem spread_extend {rs : Pairs} (b : Nat) (h : Plain rs) :
    spread (extend rs b) = spread rs ++ [b] := by
  rcases extend_cases rs b with ⟨init, first, rfl, hext⟩ | ⟨-, hext⟩ <;> rw [hext, spread_append]
  · have hlt : first < b := (h (first, b) (mem_append_right _ (mem_singleton.mpr rfl))).1
    rw [spread_append, append_assoc]
    simp only [spread_cons, spread_nil, append_nil, numbers]
    rw [show b + 1 - first = b - first + 1 by omega, range'_concat]
    congr 3
    omega
  · simp [numbers]

theorem int32_of_lt {n : Nat} (h : n < 2 ^ 31) : int32 (n : Int) = n := by
  refine Int.bmod_eq_of_le ?_ ?_ <;> omega

/-- The one end of a range that is not an `int` wraps to a negative one. -/
theorem int32_end {n b : Nat} (hn : n ≤ 2 ^ 31) (h : int32 (n : Int) = b) : n = b := by
  rcases Nat.lt_or_eq_of_le hn with hlt | rfl
  · rw [int32_of_lt hlt] at h
    exact Int.ofNat.inj h
  · rw [show int32 ((2 ^ 31 : Nat) : Int) = -2 ^ 31 by decide] at h
    omega

theorem flat_concat (rs : Pairs) (first last : Nat) :
    flat (rs ++ [(first, last)]) = (flat rs ++ [(first : Int)]) ++ [int32 last] := by simp [flat]

theorem addBlockToRanges_flat {rs : Pairs} (h : Plain rs) {b : Nat} (hb : b < 2 ^ 31) :
    addBlockToRanges (flat rs) b = flat (extend rs b) := by
  rw [addBlockToRanges]
  rcases extend_cases rs b with ⟨init, first, rfl, hext⟩ | ⟨hne, hext⟩ <;> rw [hext]
  · rw [flat_concat, getLast?_concat, int32_of_lt hb, if_pos rfl, dropLast_concat]
    simp [flat]
  · have hlast : (flat rs).getLast? ≠ some (b : Int) := by
      rcases eq_nil_or_concat' rs with rfl | ⟨init, ⟨first, last⟩, rfl⟩
      · simp [flat]
      · intro heq
        rw [flat_concat, getLast?_concat] at heq
        have hle := (h _ (mem_append_right _ (mem_singleton.mpr rfl))).2
        exact hne init first (int32_end hle (Option.some.inj heq) ▸ rfl)
    rw [if_neg hlast]
    simp [flat]

theorem blockRanges_concat (bs : List Nat) (b : Nat) :
    blockRanges (bs ++ [b]) = extend (blockRanges bs) b := by
  rw [blockRanges, foldl_append]
  rfl

theorem blockRanges_spec {bs : List Nat} (hbs : ∀ b ∈ bs, b < 2 ^ 31) :
    Plain (blockRanges bs) ∧ spread (blockRanges bs) = bs := by
  induction bs using reverseRecOn with
  | nil => exact ⟨fun r hr => absurd hr (not_mem_nil), rfl⟩
  | append_singleton bs b ih =>
    obtain ⟨hplain, hblocks⟩ := ih fun c hc => hbs c (mem_append_left _ hc)
    have hb := hbs b (mem_append_right _ (mem_singleton.mpr rfl))
    rw [blockRanges_concat]
    exact ⟨extend_plain hplain hb, (spread_extend b hplain).trans (by rw [hblocks])⟩

/-! ## Every block leaves the window once -/

def Stat.blocks (sb : Stat) : Nat := (sb.size - 1) / sb.blksize + 1

theorem window_full_iff {j k : Nat} (hle : k ≤ j) (hroom : j < k + WINDOW_SIZE) :
    (j % WINDOW_SIZE + 1) % WINDOW_SIZE = k % WINDOW_SIZE ↔ j + 1 = k + WINDOW_SIZE := by
  simp only [WINDOW_SIZE] at hroom ⊢
  omega

theorem window_empty_iff {j k : Nat} (hle : k ≤ j) (hroom : j < k + WINDOW_SIZE) :
    k % WINDOW_SIZE = j % WINDOW_SIZE ↔ k = j := by
  simp only [WINDOW_SIZE] at hroom ⊢
  omega

def SameMap (σ σ' : Session) : Prop := σ'.tmp = σ.tmp ∧ σ'.offset = σ.offset

variable {sys : System} {sb : Stat} {encrypted : Bool} {σ σ' : Session}

/-- `findBlock` for `block` from the `FIBMAP` call `c` on: the answer, and the number of the next
call. -/
inductive Found (sys : System) (c : Nat) (block : Int) : Int → Nat → Prop
  | direct {b : Int} (answer : sys.fibmap c block = some b) (hb : b ≠ 0) :
      Found sys c block b (c + 1)
  /-- The call answers 0, and so do `m` calls for block 0 after it. -/
  | retried {b : Int} {m : Nat} (answer : sys.fibmap c block = some 0)
      (early : ∀ i < m, sys.fibmap (c + 1 + i) 0 = some 0)
      (last : sys.fibmap (c + 1 + m) 0 = some b) (hb : b ≠ 0) :
      Found sys c block b (c + 1 + m + 1)

variable {b : Int}

theorem fibmap_answer {k : Int} (h : Ends (fibmap sys k) σ b σ') :
    sys.fibmap σ.ioctls k = some b ∧ σ' = { σ with ioctls := σ.ioctls + 1 } := by
  rw [fibmap, ends_get_bind] at h
  cases hfib : sys.fibmap σ.ioctls k with
  | none =>
    rw [hfib] at h
    exact absurd h not_ends_throw
  | some b' =>
    rw [hfib] at h
    obtain ⟨rfl, rfl⟩ := ends_pure.mp h
    exact ⟨rfl, rfl⟩

theorem retryFibmap_answer {tries : Nat} (h : Ends (retryFibmap sys tries 0) σ b σ') :
    ∃ m, (∀ i < m, sys.fibmap (σ.ioctls + i) 0 = some 0) ∧
      sys.fibmap (σ.ioctls + m) 0 = some b ∧ b ≠ 0 ∧
      σ' = { σ with ioctls := σ.ioctls + m + 1 } := by
  induction tries generalizing σ with
  | zero => exact absurd h not_ends_throw
  | succ tries ih =>
    rw [retryFibmap, ends_get_bind, ends_check_bind] at h
    obtain ⟨answer, σ₁, hfib, h⟩ := ends_bind.mp h.2
    obtain ⟨hanswer, rfl⟩ := fibmap_answer hfib
    by_cases hzero : answer = 0
    · rw [hzero] at h
      obtain ⟨m, hearly, hlast, hb, rfl⟩ := ih h
      refine ⟨m + 1, fun i hi => ?_, ?_, hb, ?_⟩
      · cases i with
        | zero => exact hzero ▸ hanswer
        | succ i =>
          have := hearly i (by omega)
          rwa [Nat.add_right_comm] at this
      · rwa [Nat.add_right_comm] at hlast
      · dsimp only
        congr 1
        omega
    · rw [if_pos hzero] at h
      obtain ⟨rfl, rfl⟩ := ends_pure.mp h
      exact ⟨0, fun i hi => absurd hi (Nat.not_lt_zero i), hanswer, hzero, rfl⟩

theorem findBlock_found {block : Int} (h : Ends (findBlock sys block) σ b σ') :
    ∃ c, Found sys σ.ioctls block b c ∧ σ' = { σ with ioctls := c } := by
  obtain ⟨answer, σ₁, hfib, h⟩ := ends_bind.mp h
  obtain ⟨hanswer, rfl⟩ := fibmap_answer hfib
  by_cases hzero : answer = 0
  · rw [hzero] at h
    obtain ⟨m, hearly, hlast, hb, rfl⟩ := retryFibmap_answer h
    exact ⟨_, .retried (hzero ▸ hanswer) hearly hlast hb, rfl⟩
  · rw [if_neg hzero] at h
    obtain ⟨rfl, rfl⟩ := ends_pure.mp h
    exact ⟨_, .direct hanswer hzero, rfl⟩

/-- What `FIBMAP` may answer for the blocks of a file that has them at `phys`. -/
structure Assigns (sys : System) (n : Nat) (phys : Nat → Nat) : Prop where
  /-- An answer is the physical block, or 0 as long as there is none. -/
  answer : ∀ call, ∀ k < n, ∀ b, sys.fibmap call (k : Int) = some b → b = 0 ∨ b = phys k

/-- What else is known of the answers to `FIBMAP`, apart from those for the blocks of the file: a
negative number is not a block, and block 0 shares its place with no other. -/
structure Exclusive (sys : System) (n : Nat) (phys : Nat → Nat) : Prop where
  negative : ∀ call k b, k < 0 → sys.fibmap call k = some b → b = 0
  distinct : ∀ k < n, 0 < k → phys k ≠ phys 0

/-! ## What the window holds -/

/-- The number of blocks that the bytes of a file are in: none for an empty file. -/
def Stat.logicalBlocks (sb : Stat) : Nat := (sb.size + sb.blksize - 1) / sb.blksize

/-- The bytes of a block of the file; the last block may be shorter. -/
def fileBlock (sb : Stat) (file : Bytes) (k : Nat) : Bytes :=
  (file.drop (k * sb.blksize)).take sb.blksize

structure Reads (sys : System) (sb : Stat) (file : Bytes) : Prop where
  size : file.length = sb.size
  read : ∀ {pos n : Nat} {bytes : Bytes}, pos + n ≤ sb.size → sys.read pos n = some bytes →
    bytes = (file.drop pos).take n

/-- `bs` were found for the blocks 0, 1, ... of the file. -/
inductive Looked (sys : System) (c : Nat) : List Int → Nat → Prop
  | nil : Looked sys c [] c
  | snoc {bs : List Int} {c₁ c₂ : Nat} {b : Int} (init : Looked sys c bs c₁)
      (last : Found sys c₁ (int32 bs.length) b c₂) : Looked sys c (bs ++ [b]) c₂

/-- One write for each block that was looked up, with the bytes of the block. -/
structure WrittenBack (sb : Stat) (file : Bytes) (bs : List Int)
    (ws : List (Int × Bytes)) : Prop where
  length : ws.length = bs.length
  block : ∀ {k : Nat} {b : Int}, bs[k]? = some b →
    ∃ buffer, ws[k]? = some (sb.blksize * b, buffer) ∧ fileBlock sb file k <+: buffer

/-- In the encrypted case: what is in the buffers, and what was written to the device. -/
structure Buffered (sb : Stat) (file : Bytes) (σ₀ : Session) (w : Window) (σ : Session)
    (j : Nat) (bs : List Int) : Prop where
  /-- A block that was read and not yet written is in its buffer. -/
  buffer : ∀ k, bs.length ≤ k → k < j →
    fileBlock sb file k <+: w.buffers.getD (k % WINDOW_SIZE) []
  buffers : w.buffers.length = WINDOW_SIZE
  device : ∃ ws, σ.device = σ₀.device ++ ws ∧ WrittenBack sb file bs ws

/-- After `j` blocks were read and `bs` found for those that left the window. -/
structure Holding (sys : System) (sb : Stat) (encrypted : Bool) (file : Bytes) (σ₀ : Session)
    (w : Window) (σ : Session) (j : Nat) (bs : List Int) : Prop where
  le : bs.length ≤ j
  room : j < bs.length + WINDOW_SIZE
  pos : w.pos = if encrypted then min (j * sb.blksize) sb.size else j * sb.blksize
  head : w.head = bs.length % WINDOW_SIZE
  tail : w.tail = j % WINDOW_SIZE
  headBlock : w.headBlock = int32 bs.length
  ranges : w.ranges = bs.foldl addBlockToRanges []
  looked : Looked sys σ₀.ioctls bs σ.ioctls
  data : encrypted = true → Reads sys sb file → Buffered sb file σ₀ w σ j bs
  sameMap : SameMap σ₀ σ

variable {file : Bytes} {σ₀ : Session} {w w' : Window} {j : Nat} {bs : List Int}

theorem WrittenBack.snoc {ws : List (Int × Bytes)} {b : Int} {buffer : Bytes}
    (hws : WrittenBack sb file bs ws) (hbuffer : fileBlock sb file bs.length <+: buffer) :
    WrittenBack sb file (bs ++ [b]) (ws ++ [(sb.blksize * b, buffer)]) := by
  refine ⟨by simp [hws.length], fun {k b'} hk => ?_⟩
  rcases Nat.lt_trichotomy k bs.length with hlt | rfl | hgt
  · rw [getElem?_append_left hlt] at hk
    rw [getElem?_append_left (by rw [hws.length]; exact hlt)]
    exact hws.block hk
  · rw [getElem?_concat_length] at hk
    rw [← hws.length, getElem?_concat_length, ← Option.some.inj hk, hws.length]
    exact ⟨buffer, rfl, hbuffer⟩
  · rw [getElem?_eq_none (by rw [length_append]; exact hgt)] at hk
    cases hk

theorem int32_succ_int32 (n : Nat) : int32 (int32 n + 1) = int32 (n + 1 : Nat) := by
  rw [int32, int32, int32, Int.bmod_add_bmod, Int.natCast_succ]

theorem Buffered.device_length (hw : Buffered sb file σ₀ w σ j bs) :
    σ.device.length = σ₀.device.length + bs.length := by
  obtain ⟨ws, hdevice, hws⟩ := hw.device
  rw [hdevice, length_append, hws.length]

/-! ## The loops -/

/-- The buffers that the loop over the file fills, each with the number of writes to the device
before that. -/
def refills (sys : System) (sb : Stat) (encrypted : Bool) : Nat → Window → Session →
    Pairs
  | 0, _, _ => []
  | rounds + 1, w, σ =>
    if w.pos < sb.size then
      match (makeRoom sys sb encrypted w).run.run σ with
      | (.ok w₁, σ₁) => (w₁.tail, σ₁.device.length) ::
          match (readTail sys sb encrypted w₁).run.run σ₁ with
          | (.ok w₂, σ₂) => refills sys sb encrypted rounds w₂ σ₂
          | (.error _, _) => []
      | (.error _, _) => []
    else []

theorem Stat.lt_logicalBlocks_iff (sb : Stat) (j : Nat) :
    j * sb.blksize < sb.size ↔ j < sb.logicalBlocks := by
  have hpos := sb.blksize_pos
  have hsucc : (j + 1) * sb.blksize = j * sb.blksize + sb.blksize := Nat.succ_mul _ _
  rw [Stat.logicalBlocks, Nat.lt_iff_add_one_le, Nat.lt_iff_add_one_le, Nat.le_div_iff_mul_le hpos]
  omega

theorem Stat.logicalBlocks_le_size (sb : Stat) : sb.logicalBlocks ≤ sb.size := by
  refine Nat.le_of_not_lt fun hlt => ?_
  have hmul := Nat.le_mul_of_pos_right sb.size sb.blksize_pos
  exact absurd ((sb.lt_logicalBlocks_iff sb.size).mpr hlt) (Nat.not_lt.mpr hmul)

section Holding

variable (hw : Holding sys sb encrypted file σ₀ w σ j bs)
include hw

theorem Holding.writeHead (hj : bs.length < j) (h : Ends (writeHead sys sb encrypted w) σ w' σ') :
    ∃ b, Holding sys sb encrypted file σ₀ w' σ' j (bs ++ [b]) := by
  obtain ⟨b, σ₁, hfind, h⟩ := ends_bind.mp h
  obtain ⟨c, hfound, rfl⟩ := findBlock_found hfind
  rw [hw.headBlock] at hfound
  obtain ⟨_, σ₂, hwrite, h⟩ := ends_bind.mp h
  have hback : σ₂ = { σ with
      ioctls := c
      device := if encrypted then σ.device ++ [(sb.blksize * b, w.buffers.getD w.head [])]
        else σ.device } := by
    cases encrypted with
    | false => exact (ends_pure.mp hwrite).2
    | true =>
      exact (ends_check.mp hwrite).2
  obtain ⟨rfl, rfl⟩ := ends_pure.mp h
  subst hback
  have hroom := hw.room
  have hlen : (bs ++ [b]).length = bs.length + 1 := by simp
  refine ⟨b, by omega, by omega, hw.pos, ?_, hw.tail, ?_, ?_, hw.looked.snoc hfound,
    fun henc hfile => ?_, hw.sameMap⟩
  · rw [hw.head, Nat.mod_add_mod, hlen]
  · rw [hw.headBlock, int32_succ_int32, hlen]
  · rw [hw.ranges, foldl_append]
    rfl
  · subst henc
    have hdata := hw.data rfl hfile
    obtain ⟨ws, hdevice, hws⟩ := hdata.device
    refine ⟨fun k hk => hdata.buffer k (by omega), hdata.buffers,
      ws ++ [(sb.blksize * b, w.buffers.getD w.head [])], ?_, hws.snoc ?_⟩
    · show σ.device ++ _ = _
      rw [hdevice, append_assoc]
    · rw [hw.head]
      exact hdata.buffer bs.length (Nat.le_refl _) hj

/-- The next block is read to the tail, and no block that is still to be written is in that
buffer. -/
theorem Holding.readTail (hroom : j + 1 < bs.length + WINDOW_SIZE) (hpos : w.pos < sb.size)
    (h : Ends (readTail sys sb encrypted w) σ w' σ') :
    Holding sys sb encrypted file σ₀ w' σ' (j + 1) bs := by
  have htail : (w.tail + 1) % WINDOW_SIZE = (j + 1) % WINDOW_SIZE := by
    rw [hw.tail, Nat.mod_add_mod]
  have hposj := hw.pos
  have hle := hw.le
  have hsucc : (j + 1) * sb.blksize = j * sb.blksize + sb.blksize := Nat.succ_mul _ _
  cases encrypted with
  | false =>
    obtain ⟨rfl, rfl⟩ := ends_pure.mp h
    rw [if_neg Bool.false_ne_true] at hposj
    refine ⟨by omega, hroom, ?_, hw.head, htail, hw.headBlock, hw.ranges, hw.looked, nofun,
      hw.sameMap⟩
    rw [if_neg Bool.false_ne_true, hsucc, hposj]
  | true =>
    rw [Uncrypt.readTail] at h
    dsimp only at h
    rw [if_pos rfl] at hposj
    cases hread : sys.read w.pos (min sb.blksize (sb.size - w.pos)) with
    | none =>
      rw [hread] at h
      exact absurd h not_ends_throw
    | some bytes =>
      rw [hread] at h
      obtain ⟨rfl, rfl⟩ := ends_pure.mp h
      refine ⟨by omega, hroom, ?_, hw.head, htail, hw.headBlock, hw.ranges, hw.looked,
        fun _ hfile => ?_, hw.sameMap⟩
      · show w.pos + min sb.blksize (sb.size - w.pos) = _
        rw [if_pos rfl]
        omega
      have hdata := hw.data rfl hfile
      refine ⟨fun k hk hkj => ?_, ?_, hdata.device⟩
      · have hpos' : w.pos = j * sb.blksize := by omega
        -- the bytes are those of block `j`
        have hbytes : bytes = fileBlock sb file j := by
          rw [hfile.read (by omega) hread, hpos', ← hfile.size, ← length_drop,
            ← take_take, take_length, fileBlock]
        have hslot : k % WINDOW_SIZE < w.buffers.length := by
          rw [hdata.buffers]
          exact Nat.mod_lt _ (Nat.zero_lt_succ _)
        rw [getD_eq_getElem?_getD, hw.tail]
        rcases Nat.lt_or_eq_of_le (Nat.le_of_lt_succ hkj) with hlt | rfl
        · have hne : j % WINDOW_SIZE ≠ k % WINDOW_SIZE := fun heq =>
            absurd ((window_empty_iff (Nat.le_of_lt hlt) (by omega)).mp heq.symm) (by omega)
          rw [getElem?_modify_ne _ _ hne, ← getD_eq_getElem?_getD]
          exact hdata.buffer k hk hlt
        · rw [getElem?_modify_eq, getElem?_eq_getElem hslot, hbytes]
          exact prefix_append _ _
      · rw [length_modify, hdata.buffers]

theorem Holding.pos_lt_iff : w.pos < sb.size ↔ j < sb.logicalBlocks := by
  rw [← sb.lt_logicalBlocks_iff, hw.pos]
  cases encrypted with
  | false => rw [if_neg Bool.false_ne_true]
  | true =>
    rw [if_pos rfl]
    omega

theorem Holding.makeRoom (h : Ends (makeRoom sys sb encrypted w) σ w' σ') :
    ∃ bs', Holding sys sb encrypted file σ₀ w' σ' j bs' ∧ j + 1 < bs'.length + WINDOW_SIZE := by
  have hroom := hw.room
  have hfull : (w.tail + 1) % WINDOW_SIZE = w.head ↔ j + 1 = bs.length + WINDOW_SIZE := by
    rw [hw.tail, hw.head]
    exact window_full_iff hw.le hroom
  rw [Uncrypt.makeRoom] at h
  by_cases hf : (w.tail + 1) % WINDOW_SIZE = w.head
  · rw [if_pos hf] at h
    have hj := hfull.mp hf
    obtain ⟨b, hw'⟩ := hw.writeHead (by simp only [WINDOW_SIZE] at hj; omega) h
    exact ⟨_, hw', by rw [length_append, length_singleton]; omega⟩
  · rw [if_neg hf] at h
    obtain ⟨rfl, rfl⟩ := ends_pure.mp h
    exact ⟨bs, hw, by omega⟩

/-- The loop over the file fills the buffers in turn, each when the block in it is written. -/
theorem Holding.readBlocks {rounds : Nat} (hj : j ≤ sb.logicalBlocks)
    (hrounds : sb.logicalBlocks ≤ j + rounds)
    (h : Ends (readBlocks sys sb encrypted rounds w) σ w' σ') :
    (∃ bs', Holding sys sb encrypted file σ₀ w' σ' sb.logicalBlocks bs') ∧
      j + (refills sys sb encrypted rounds w σ).length = sb.logicalBlocks ∧
      (encrypted = true → Reads sys sb file → ∀ {i slot written : Nat},
        (refills sys sb encrypted rounds w σ)[i]? = some (slot, written) → slot =
          (j + i) % WINDOW_SIZE ∧ σ₀.device.length + (j + i) < written + WINDOW_SIZE) := by
  induction rounds generalizing w j bs σ with
  | zero =>
    obtain ⟨rfl, rfl⟩ := ends_pure.mp h
    obtain rfl : j = sb.logicalBlocks := by omega
    exact ⟨⟨bs, hw⟩, rfl, fun _ _ _ _ _ hi => by cases hi⟩
  | succ rounds ih =>
    rw [Uncrypt.readBlocks] at h
    by_cases hpos : w.pos < sb.size
    · rw [if_pos hpos] at h
      have hlt := hw.pos_lt_iff.mp hpos
      obtain ⟨w₂, σ₂, hstep, h⟩ := ends_bind.mp h
      obtain ⟨w₁, σ₁, hroom, hread⟩ := ends_bind.mp hstep
      obtain ⟨bs₁, hw₁, hfree⟩ := hw.makeRoom hroom
      have hw₂ := hw₁.readTail hfree (hw₁.pos_lt_iff.mpr hlt) hread
      obtain ⟨hdone, hcount, hfills⟩ := ih hw₂ (by omega) (by omega) h
      have hcons : refills sys sb encrypted (rounds + 1) w σ =
          (w₁.tail, σ₁.device.length) :: refills sys sb encrypted rounds w₂ σ₂ := by
        rw [refills, if_pos hpos, hroom]
        dsimp only
        rw [hread]
      rw [hcons]
      refine ⟨hdone, by rw [length_cons]; omega, fun henc hfile {i slot written} hi => ?_⟩
      cases i with
      | zero =>
        cases hi
        rw [(hw₁.data henc hfile).device_length, hw₁.tail]
        exact ⟨rfl, by omega⟩
      | succ i =>
        have hrest := hfills henc hfile hi
        rwa [Nat.add_right_comm] at hrest
    · rw [if_neg hpos] at h
      obtain ⟨rfl, rfl⟩ := ends_pure.mp h
      have hge : ¬ j < sb.logicalBlocks := fun hlt => hpos (hw.pos_lt_iff.mpr hlt)
      obtain rfl : j = sb.logicalBlocks := by omega
      rw [refills, if_neg hpos]
      exact ⟨⟨bs, hw⟩, rfl, fun _ _ _ _ _ hi => by cases hi⟩

theorem Holding.writeBlocks {rounds : Nat} (hrounds : j ≤ bs.length + rounds)
    (h : Ends (writeBlocks sys sb encrypted rounds w) σ w' σ') :
    ∃ bs', bs'.length = j ∧ Holding sys sb encrypted file σ₀ w' σ' j bs' := by
  induction rounds generalizing w bs σ with
  | zero =>
    obtain ⟨rfl, rfl⟩ := ends_pure.mp h
    exact ⟨bs, Nat.le_antisymm hw.le hrounds, hw⟩
  | succ rounds ih =>
    have hempty : w.head = w.tail ↔ bs.length = j := by
      rw [hw.head, hw.tail]
      exact window_empty_iff hw.le hw.room
    rw [Uncrypt.writeBlocks] at h
    by_cases hend : w.head = w.tail
    · rw [if_neg (not_not_intro hend)] at h
      obtain ⟨rfl, rfl⟩ := ends_pure.mp h
      exact ⟨bs, hempty.mp hend, hw⟩
    · rw [if_pos hend] at h
      obtain ⟨w₁, σ₁, hhead, h⟩ := ends_bind.mp h
      have hlt : bs.length < j := Nat.lt_of_le_of_ne hw.le fun heq => hend (hempty.mpr heq)
      obtain ⟨b, hw₁⟩ := hw.writeHead hlt hhead
      exact ih hw₁ (by rw [length_append, length_singleton]; omega) h

end Holding

/-! ## Where the blocks are -/

/-- The first `FIBMAP` calls for block 0 answer 0, as many as `m`. -/
def Early (sys : System) (c m : Nat) : Prop :=
  (∀ i < m, sys.fibmap (c + i) 0 = some 0) ∧ sys.fibmap (c + m) 0 ≠ some 0

/-- No block but the first is looked up before it is allocated. The calls are counted from `c`. -/
def AllocatedInTime (sys : System) (c n : Nat) : Prop :=
  ∀ m, Early sys c m → ∀ k : Nat, 0 < k → k < n → sys.fibmap (c + m + k) k ≠ some 0

/-- The blocks of the file in order. -/
def places (phys : Nat → Nat) (n : Nat) : List Int := (List.range n).map fun k => (phys k : Int)

variable {n c c' : Nat} {phys : Nat → Nat}

@[simp] theorem places_length (phys : Nat → Nat) (n : Nat) : (places phys n).length = n := by
  rw [places, length_map, length_range]

theorem places_succ (phys : Nat → Nat) (n : Nat) :
    places phys (n + 1) = places phys n ++ [(phys n : Int)] := by
  rw [places, range_succ, map_append]
  rfl

theorem Early.unique {m m' : Nat} (h : Early sys c m) (h' : Early sys c m') : m = m' := by
  rcases Nat.lt_trichotomy m m' with hlt | heq | hgt
  · exact absurd (h'.1 m hlt) h.2
  · exact heq
  · exact absurd (h.1 m' hgt) h'.2

/-- A block that is looked up again is block 0 itself, or is taken for it. -/
theorem Found.first (h : Found sys c 0 b c') :
    ∃ m, Early sys c m ∧ sys.fibmap (c + m) 0 = some b ∧ b ≠ 0 ∧ c' = c + m + 1 := by
  cases h with
  | direct answer hb =>
    refine ⟨0, ⟨fun i hi => absurd hi (Nat.not_lt_zero i), ?_⟩, answer, hb, rfl⟩
    rw [Nat.add_zero, answer]
    exact fun heq => hb (Option.some.inj heq)
  | @retried m answer early last hb =>
    have hlast : sys.fibmap (c + (m + 1)) 0 = some b := by
      rwa [Nat.add_right_comm] at last
    refine ⟨m + 1, ⟨fun i hi => ?_, ?_⟩, hlast, hb, by omega⟩
    · cases i with
      | zero => exact answer
      | succ i =>
        have := early i (by omega)
        rwa [Nat.add_right_comm] at this
    · rw [hlast]
      exact fun heq => hb (Option.some.inj heq)

theorem Looked.calls_nil (h : Looked sys c [] c') : c' = c := by
  generalize hbs : ([] : List Int) = bs at h
  cases h with
  | nil => rfl
  | snoc => exact absurd hbs.symm (by simp)

/-- After the blocks in `bs`, with one call for each but the first. -/
def CalledOnce (sys : System) (c : Nat) (bs : List Int) (c' : Nat) : Prop :=
  bs ≠ [] → ∃ m, Early sys c m ∧ c' = c + m + bs.length

theorem Looked.places_of_inTime (hassigns : Assigns sys n phys) (hfew : n ≤ 2 ^ 31)
    (htime : AllocatedInTime sys c n) (h : Looked sys c bs c') (hlen : bs.length ≤ n) :
    bs = places phys bs.length ∧ CalledOnce sys c bs c' := by
  induction h with
  | nil => exact ⟨rfl, fun hne => absurd rfl hne⟩
  | @snoc bs c₁ c₂ b init last ih =>
    rw [length_append, length_singleton] at hlen
    obtain ⟨hplaces, hcalls⟩ := ih (by omega)
    rw [int32_of_lt (by omega)] at last
    have hdone : b = phys bs.length ∧ ∃ m, Early sys c m ∧ c₂ = c + m + (bs.length + 1) := by
      by_cases hbs : bs = []
      · subst hbs
        obtain rfl := init.calls_nil
        obtain ⟨m, hearly, hanswer, hb, rfl⟩ := last.first
        exact ⟨(hassigns.answer _ 0 hlen b hanswer).resolve_left hb, m, hearly, rfl⟩
      · obtain ⟨m, hearly, rfl⟩ := hcalls hbs
        cases last with
        | direct answer hb =>
          exact ⟨(hassigns.answer _ _ hlen b answer).resolve_left hb, m, hearly, rfl⟩
        | retried answer =>
          exact absurd answer (htime m hearly _ (length_pos_iff.mpr hbs) hlen)
    refine ⟨?_, fun _ => by rw [length_append]; exact hdone.2⟩
    rw [length_append, length_singleton, places_succ, ← hplaces, hdone.1]

theorem Looked.inTime_of_places (hassigns : Assigns sys n phys) (hexcl : Exclusive sys n phys)
    (h : Looked sys c bs c') (hlen : bs.length ≤ n) (hplaces : bs = places phys bs.length) :
    bs.length ≤ 2 ^ 31 ∧ AllocatedInTime sys c bs.length ∧ CalledOnce sys c bs c' := by
  induction h with
  | nil =>
    exact ⟨Nat.zero_le _, fun _ _ k _ hk => absurd hk (Nat.not_lt_zero k),
      fun hne => absurd rfl hne⟩
  | @snoc bs c₁ c₂ b init last ih =>
    rw [length_append] at hlen
    rw [length_append, length_singleton, places_succ] at hplaces
    obtain ⟨hinit, hb⟩ := append_inj' hplaces rfl
    obtain rfl := (List.cons.inj hb).1
    obtain ⟨hfew, htime, hcalls⟩ := ih (by omega) hinit
    rw [length_append, length_singleton, CalledOnce, length_append]
    by_cases hbs : bs = []
    · subst hbs
      obtain rfl := init.calls_nil
      obtain ⟨m, hearly, -, -, rfl⟩ := last.first
      refine ⟨by decide, fun _ _ k hk hk1 => ?_, fun _ => ⟨m, hearly, rfl⟩⟩
      rw [length_nil] at hk1
      omega
    · have hpos := length_pos_iff.mpr hbs
      obtain ⟨m, hearly, rfl⟩ := hcalls hbs
      cases last with
      | retried _ _ hlast hb =>
        -- the place of block 0 is found
        have hfirst := (hassigns.answer _ 0 (by omega) _ hlast).resolve_left hb
        exact absurd (Int.ofNat.inj hfirst) (hexcl.distinct _ hlen hpos)
      | direct answer hb =>
        have hlt : bs.length < 2 ^ 31 := by
          by_contra hge
          have hneg : int32 bs.length < 0 := by
            rw [show bs.length = 2 ^ 31 by omega]
            decide
          exact hb (hexcl.negative _ _ _ hneg answer)
        rw [int32_of_lt hlt] at answer
        refine ⟨hlt, fun m' hearly' k hk0 hk => ?_, fun _ => ⟨m, hearly, rfl⟩⟩
        rcases Nat.lt_or_eq_of_le (Nat.le_of_lt_succ hk) with hk | rfl
        · exact htime m' hearly' k hk0 hk
        · rw [hearly'.unique hearly, answer]
          exact fun heq => hb (Option.some.inj heq)

/-! ## The text of the map -/

def rangeLine (r : Nat × Nat) : Bytes := natBytes r.1 ++ 32 :: intBytes (int32 r.2)

def blockMapLines (blkDev : BlockDevice) (sb : Stat) (rs : Pairs) : List Bytes :=
  [blkDev.path, natBytes sb.size ++ 32 :: natBytes sb.blksize, natBytes rs.length] ++
    rs.map rangeLine

/-- The map of a file whose blocks are `bs`. -/
def blockMapText (blkDev : BlockDevice) (sb : Stat) (bs : List Nat) : Bytes :=
  (blockMapLines blkDev sb (blockRanges bs)).flatMap (· ++ [10])

/-- The temporary file begins with `text`, written over what it held before. -/
def Written (old text : Bytes) (σ : Session) : Prop :=
  σ.tmp = text ++ old.drop text.length ∧ σ.offset = text.length

variable {old text : Bytes}

theorem Written.sameMap (h : Written old text σ) (hsame : SameMap σ σ') : Written old text σ' :=
  ⟨hsame.1.trans h.1, hsame.2.trans h.2⟩

variable {u : Unit}

theorem writeString_session {s : Bytes} (h : Ends (writeString sys s) σ u σ') :
    σ' = { σ with tmp := overwrite σ.tmp σ.offset s, offset := σ.offset + s.length } := by
  obtain ⟨hok, rfl⟩ := ends_check.mp h
  cases hfail : sys.mapWritten σ.offset with
  | some written =>
    rw [hfail] at hok
    exact absurd hok Bool.false_ne_true
  | none => rfl

theorem writeString_ends {s : Bytes} (hw : Written old text σ)
    (h : Ends (writeString sys s) σ u σ') : Written old (text ++ s) σ' := by
  rw [writeString_session h]
  constructor
  · rw [overwrite, hw.1, hw.2, take_left, ← drop_drop, drop_left, drop_drop, length_append]
  · rw [hw.2, length_append]

theorem intBytes_natCast (n : Nat) : intBytes (n : Int) = natBytes n := by
  rw [intBytes, if_neg (by omega), Int.natAbs_natCast]

def rangeLines : List Int → Bytes
  | first :: last :: ranges => intBytes first ++ [32] ++ intBytes last ++ [10] ++ rangeLines ranges
  | _ => []

/-- Nothing but the map was written to, and no block was looked up. -/
def SameBlocks (σ σ' : Session) : Prop := σ'.device = σ.device ∧ σ'.ioctls = σ.ioctls

theorem writeRanges_lines : ∀ {ranges : List Int} {text : Bytes} {σ : Session},
    Written old text σ → Ends (writeRanges sys ranges) σ u σ' →
      Written old (text ++ rangeLines ranges) σ' ∧ SameBlocks σ σ'
  | [], text, σ, hw, h => by
    obtain ⟨-, rfl⟩ := ends_pure.mp h
    exact ⟨(append_nil text).symm ▸ hw, rfl, rfl⟩
  | [_], text, σ, hw, h => by
    obtain ⟨-, rfl⟩ := ends_pure.mp h
    exact ⟨(append_nil text).symm ▸ hw, rfl, rfl⟩
  | first :: last :: ranges, text, σ, hw, h => by
    obtain ⟨_, σ₁, hline, hrest⟩ := ends_bind.mp h
    obtain ⟨hdone, hsame⟩ := writeRanges_lines (writeString_ends hw hline) hrest
    rw [writeString_session hline] at hsame
    rw [rangeLines, ← append_assoc]
    exact ⟨hdone, hsame⟩

theorem rangeLines_flat (rs : Pairs) :
    rangeLines (flat rs) = (rs.map rangeLine).flatMap (· ++ [10]) := by
  induction rs with
  | nil => rfl
  | cons r rs ih =>
    have hline : rangeLine r = intBytes r.1 ++ [32] ++ intBytes (int32 r.2) := by
      rw [rangeLine, intBytes_natCast, append_assoc, singleton_append]
    have hcons : flat (r :: rs) = (r.1 : Int) :: int32 r.2 :: flat rs := by simp [flat]
    rw [hcons, rangeLines, ih, map_cons, flatMap_cons, hline]

theorem flat_length (rs : Pairs) : (flat rs).length / 2 = rs.length := by
  have hlen : (flat rs).length = rs.length * 2 := by
    rw [flat]
    simp
  rw [hlen, Nat.mul_div_cancel _ (by decide)]

theorem foldl_addBlockToRanges {bs : List Nat} (hbs : ∀ b ∈ bs, b < 2 ^ 31) :
    (bs.map fun b : Nat => (b : Int)).foldl addBlockToRanges [] = flat (blockRanges bs) := by
  induction bs using reverseRecOn with
  | nil => rfl
  | append_singleton bs b ih =>
    have hinit := fun c hc => hbs c (mem_append_left _ hc)
    rw [map_append, foldl_append, ih hinit, blockRanges_concat]
    exact addBlockToRanges_flat (blockRanges_spec hinit).1
      (hbs b (mem_append_right _ (mem_singleton.mpr rfl)))

theorem places_eq_map : places phys n = ((List.range n).map phys).map fun b : Nat => (b : Int) := by
  rw [map_map]
  rfl

/-! ## A run -/

def firstWindow (sb : Stat) (encrypted : Bool) : Window :=
  ⟨0, 0, 0, 0, [],
    if encrypted then List.replicate WINDOW_SIZE (List.replicate sb.blksize 0) else []⟩

/-- The session before the loops: the first two lines of the map are written. -/
def afterHeader (blkDev : BlockDevice) (sb : Stat) (σ : Session) : Session :=
  { σ with
    map := none
    tmp := overwrite σ.tmp 0 (header blkDev sb)
    offset := (header blkDev sb).length }

/-- The map with the ranges of a vector. -/
def mapText (blkDev : BlockDevice) (sb : Stat) (ranges : List Int) : Bytes :=
  header blkDev sb ++ (natBytes (ranges.length / 2) ++ [10]) ++ rangeLines ranges

theorem Holding.start (σ₀ : Session) :
    Holding sys sb encrypted file σ₀ (firstWindow sb encrypted) σ₀ 0 [] := by
  refine ⟨Nat.le_refl 0, Nat.zero_lt_succ _, ?_, rfl, rfl, rfl, rfl, .nil, fun henc _ => ?_, rfl,
    rfl⟩
  · cases encrypted with
    | false => exact (Nat.zero_mul _).symm
    | true => exact ((congrArg (min · _) (Nat.zero_mul _)).trans (Nat.zero_min _)).symm
  · subst henc
    exact ⟨fun k _ hk => absurd hk (Nat.not_lt_zero k), length_replicate,
      [], (append_nil _).symm, rfl, fun hk => by cases hk⟩

/-- A run: the blocks that are found, written and listed are the same. -/
theorem produceBlockMap_looked (file : Bytes) {blkDev : BlockDevice} {f2fs : Bool}
    (hstat : sys.stat = some sb) (h : Ends (produceBlockMap sys blkDev encrypted f2fs) σ u σ') :
    ∃ bs c, bs.length = sb.logicalBlocks ∧ Looked sys σ.ioctls bs c ∧
      σ'.map = some (mapText blkDev sb (bs.foldl addBlockToRanges []) ++
        σ.tmp.drop (mapText blkDev sb (bs.foldl addBlockToRanges [])).length) ∧
      (refills sys sb encrypted sb.size (firstWindow sb encrypted)
        (afterHeader blkDev sb σ)).length = sb.logicalBlocks ∧
      (encrypted = true → Reads sys sb file →
        (∃ ws, σ'.device = σ.device ++ ws ∧ WrittenBack sb file bs ws) ∧
        ∀ {i slot written : Nat}, (refills sys sb encrypted sb.size (firstWindow sb encrypted)
            (afterHeader blkDev sb σ))[i]? = some (slot, written) →
          slot = i % WINDOW_SIZE ∧ σ.device.length + i < written + WINDOW_SIZE) := by
  rw [produceBlockMap, ends_check_bind, ends_modify_bind, ends_check_bind, ends_modify_bind,
    ends_check_bind] at h
  obtain ⟨-, -, -, h⟩ := h
  obtain ⟨sb', σ₁, hsb, h⟩ := ends_bind.mp h
  rw [statFile, hstat] at hsb
  obtain ⟨rfl, rfl⟩ := ends_pure.mp hsb
  obtain ⟨_, σ₂, hheader, h⟩ := ends_bind.mp h
  have hempty : Written σ.tmp [] { σ with map := none, offset := 0 } := ⟨rfl, rfl⟩
  have hwritten := writeString_ends hempty hheader
  obtain rfl : σ₂ = afterHeader blkDev sb' σ := by
    rw [writeString_session hheader, afterHeader, Nat.zero_add]
  rw [ends_check_bind, ends_check_bind, ends_check_bind] at h
  obtain ⟨-, -, -, h⟩ := h
  -- the loops
  obtain ⟨w₁, σ₃, hread, h⟩ := ends_bind.mp h
  have hrounds : sb'.logicalBlocks ≤ 0 + sb'.size := by
    rw [Nat.zero_add]
    exact sb'.logicalBlocks_le_size
  have hstart : Holding sys sb' encrypted file (afterHeader blkDev sb' σ) _ _ 0 [] := .start _
  obtain ⟨⟨bs₁, hw₁⟩, hcount, hfills⟩ := hstart.readBlocks (Nat.zero_le _) hrounds hread
  obtain ⟨w₂, σ₄, hwrite, h⟩ := ends_bind.mp h
  obtain ⟨bs, hbs, hw₂⟩ := hw₁.writeBlocks (Nat.le_of_lt hw₁.room) hwrite
  have hloops := hwritten.sameMap hw₂.sameMap
  rw [hw₂.ranges] at h
  -- the rest of the map
  obtain ⟨_, σ₅, hline, h⟩ := ends_bind.mp h
  obtain ⟨_, σ₆, hlines, h⟩ := ends_bind.mp h
  obtain ⟨htext, hsame⟩ := writeRanges_lines (writeString_ends hloops hline) hlines
  rw [writeString_session hline] at hsame
  rw [ends_check_bind, ends_check_bind, ends_check_bind, ends_check_bind, ends_check_bind,
    ends_modify_bind, ends_check_bind, ends_check_bind] at h
  obtain ⟨-, -, -, -, -, -, -, h⟩ := h
  obtain ⟨-, rfl⟩ := ends_check.mp h
  refine ⟨bs, σ₄.ioctls, hbs, hw₂.looked, congrArg some htext.1, ?_, fun henc hfile => ?_⟩
  · rwa [Nat.zero_add] at hcount
  · obtain ⟨ws, hdevice, hws⟩ := (hw₂.data henc hfile).device
    refine ⟨⟨ws, hsame.1.trans hdevice, hws⟩, fun {i slot written} hi => ?_⟩
    have := hfills henc hfile hi
    rwa [Nat.zero_add] at this

theorem Stat.logicalBlocks_eq_blocks (sb : Stat) (hne : 0 < sb.size) :
    sb.logicalBlocks = sb.blocks := by
  have hsize : sb.size + sb.blksize - 1 = sb.size - 1 + sb.blksize := by omega
  rw [logicalBlocks, blocks, hsize, Nat.add_div_right _ sb.blksize_pos]

/-- The map of a file whose blocks were found at `bs`. -/
theorem mapText_eq {bs : List Nat} (hbs : ∀ b ∈ bs, b < 2 ^ 31) (blkDev : BlockDevice) :
    mapText blkDev sb ((bs.map fun b : Nat => (b : Int)).foldl addBlockToRanges []) =
      blockMapText blkDev sb bs := by
  rw [foldl_addBlockToRanges hbs, mapText, flat_length, rangeLines_flat]
  simp only [blockMapText, blockMapLines, header, flatMap_cons, append_assoc, cons_append,
    nil_append]

end Pterodon.Uncrypt
