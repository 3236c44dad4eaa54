import Pterodon.ImgDiff.Decode

/-!
# Lists of chunks

What the lists of chunks keep through the passes of `imgdiff`. A list of target chunks
tiles a stretch of the file (`Tiles`), and merging adjacent normal chunks keeps that. A
deflate chunk of the target can be rebuilt from its contents (`Rebuildable`), one of the
source inflates to them (`Expands`). From these, the patch made for a target chunk
yields the bytes of the chunk, whatever source chunk it was made against.
-/

namespace Pterodon.ImgDiff

open Lib ApplyPatch ImageChunk List PatchChunk

def ImageChunk.raw (c : ImageChunk) : Bytes := sliceOf c.inputFile c.start c.rawDataLen

structure ImageChunk.Inside (file : Bytes) (c : ImageChunk) : Prop where
  inputFile : c.inputFile = file
  le : c.start + c.rawDataLen ≤ file.length

variable {c d tgt : ImageChunk} {start : Nat}

theorem ImageChunk.Inside.getRawData {file : Bytes} (h : c.Inside file) :
    c.getRawData = some c.raw := by
  have hle := h.le
  rw [← h.inputFile] at hle
  exact if_pos hle

theorem sliceOf_length {file : Bytes} {len : Nat} (h : start + len ≤ file.length) :
    (sliceOf file start len).length = len := by
  rw [sliceOf, length_take, length_drop]
  omega

theorem ImageChunk.Inside.raw_length {file : Bytes} (h : c.Inside file) :
    c.raw.length = c.rawDataLen := by
  have hle := h.le
  rw [← h.inputFile] at hle
  exact sliceOf_length hle

theorem sliceOf_append (file : Bytes) (start len len' : Nat) :
    sliceOf file start len ++ sliceOf file (start + len) len' =
      sliceOf file start (len + len') := by
  unfold sliceOf
  rw [← drop_drop, take_add]

theorem sliceOf_all (file : Bytes) : sliceOf file 0 file.length = file := by
  rw [sliceOf, drop_zero, take_length]

/-! ## Tilings -/

/-- The chunks cut the stretch of the file between `a` and `b` into consecutive pieces. -/
def Tiles (file : Bytes) : Nat → Chunks → Nat → Prop
  | a, [], b => a = b
  | a, c :: cs, b => c.Inside file ∧ c.start = a ∧ Tiles file (a + c.rawDataLen) cs b

variable {file : Bytes} {cs ds : Chunks} {a b : Nat}

theorem Tiles.le (h : Tiles file a cs b) : a ≤ b := by
  induction cs generalizing a with
  | nil => exact Nat.le_of_eq h
  | cons c cs ih => exact Nat.le_trans (Nat.le_add_right a _) (ih h.2.2)

theorem Tiles.inside (h : Tiles file a cs b) : ∀ c ∈ cs, c.Inside file := by
  induction cs generalizing a with
  | nil => nofun
  | cons d cs ih => exact forall_mem_cons.mpr ⟨h.1, ih h.2.2⟩

theorem Tiles.append {e : Nat} (h : Tiles file a cs b) (h' : Tiles file b ds e) :
    Tiles file a (cs ++ ds) e := by
  induction cs generalizing a with
  | nil => rw [show a = b from h]; exact h'
  | cons d cs ih => exact ⟨h.1, h.2.1, ih h.2.2⟩

theorem Tiles.raw (h : Tiles file a cs b) :
    (cs.map ImageChunk.raw).flatten = sliceOf file a (b - a) := by
  induction cs generalizing a with
  | nil =>
    rw [show a = b from h, Nat.sub_self]
    rfl
  | cons c cs ih =>
    obtain ⟨hin, hstart, hrest⟩ := h
    have hle := hrest.le
    rw [map_cons, flatten_cons, ih hrest, ImageChunk.raw, hin.inputFile, hstart, sliceOf_append]
    congr 1
    omega

/-- Nothing but the type, the level and the contents of a chunk is changed. -/
def SamePlace (c d : ImageChunk) : Prop :=
  d.inputFile = c.inputFile ∧ d.start = c.start ∧ d.rawDataLen = c.rawDataLen

theorem Tiles.congr (h : List.Forall₂ SamePlace cs ds) (ht : Tiles file a cs b) :
    Tiles file a ds b := by
  induction h generalizing a with
  | nil => exact ht
  | cons hcd _ ih =>
    obtain ⟨hf, hs, hl⟩ := hcd
    obtain ⟨hin, hstart, hrest⟩ := ht
    refine ⟨⟨hf.trans hin.inputFile, ?_⟩, hs.trans hstart, ?_⟩
    · rw [hs, hl]; exact hin.le
    · rw [hl]; exact ih hrest

/-! ## Merging -/

theorem Tiles.mergeAdjacent (h : Tiles file a (c :: d :: cs) b) :
    Tiles file a (c.mergeAdjacentNormal d :: cs) b := by
  obtain ⟨hc, hstart, hd, hdstart, hrest⟩ := h
  refine ⟨⟨hc.inputFile, ?_⟩, hstart, ?_⟩
  · have hle := hd.le
    change c.start + (c.rawDataLen + d.rawDataLen) ≤ _
    omega
  · change Tiles file (a + (c.rawDataLen + d.rawDataLen)) cs b
    rw [← Nat.add_assoc]
    exact hrest

theorem Tiles.mergeFrom (h : Tiles file a (c :: cs) b) : Tiles file a (mergeFrom c cs) b := by
  induction cs generalizing c a with
  | nil => exact h
  | cons d cs ih =>
    rw [ImgDiff.mergeFrom]
    split
    · exact ih h.mergeAdjacent
    · exact ⟨h.1, h.2.1, ih h.2.2⟩

theorem Tiles.merge (h : Tiles file a cs b) : Tiles file a (mergeAdjacentNormalChunks cs) b := by
  cases cs with
  | nil => exact h
  | cons c cs => exact Tiles.mergeFrom h

/-- A merged list has the deflate chunks of the list, and normal ones that have grown. -/
theorem mem_mergeFrom (h : d ∈ mergeFrom c cs) :
    ∃ e ∈ c :: cs, d = { e with rawDataLen := d.rawDataLen } ∧ (d = e ∨ d.type = .normal) := by
  induction cs generalizing c with
  | nil => exact ⟨d, h, rfl, .inl rfl⟩
  | cons f cs ih =>
    rw [mergeFrom] at h
    split at h
    · rename_i hadj
      obtain ⟨e, he, hd, hcase⟩ := ih h
      rcases mem_cons.mp he with rfl | he
      · have hnormal : c.type = .normal := (of_decide_eq_true hadj).1
        exact ⟨c, mem_cons_self, hd, .inr (by rw [hd]; exact hnormal)⟩
      · exact ⟨e, mem_cons_of_mem _ (mem_cons_of_mem _ he), hd, hcase⟩
    · rcases mem_cons.mp h with rfl | h
      · exact ⟨d, mem_cons_self, rfl, .inl rfl⟩
      · obtain ⟨e, he, hrest⟩ := ih h
        exact ⟨e, mem_cons_of_mem _ he, hrest⟩

theorem mem_merge (h : d ∈ mergeAdjacentNormalChunks cs) :
    ∃ e ∈ cs, d = { e with rawDataLen := d.rawDataLen } ∧ (d = e ∨ d.type = .normal) := by
  cases cs with
  | nil => cases h
  | cons c cs => exact mem_mergeFrom h

/-- Merging as the types see it, when every chunk follows on the one before. -/
def mergeTypesFrom (cur : ChunkType) : List ChunkType → List ChunkType
  | [] => [cur]
  | t :: rest =>
    if cur = .normal ∧ t = .normal then mergeTypesFrom cur rest else cur :: mergeTypesFrom t rest

/-- Every chunk starts where the one before it ends. -/
def Contiguous (cs : Chunks) : Prop :=
  cs.IsChain (fun c d => d.start = c.start + c.rawDataLen)

theorem Tiles.contiguous (h : Tiles file a cs b) : Contiguous cs := by
  induction cs generalizing a with
  | nil => exact .nil
  | cons c cs ih =>
    cases cs with
    | nil => exact .singleton c
    | cons d cs =>
      obtain ⟨-, hstart, hrest⟩ := h
      exact .cons_cons (by rw [hrest.2.1, hstart]) (ih hrest)

theorem Contiguous.mergeAdjacent (h : Contiguous (c :: d :: cs)) :
    Contiguous (c.mergeAdjacentNormal d :: cs) := by
  obtain ⟨hd, hrest⟩ := isChain_cons_cons.1 h
  cases cs with
  | nil => exact .singleton _
  | cons e cs =>
    obtain ⟨he, hcs⟩ := isChain_cons_cons.1 hrest
    refine .cons_cons ?_ hcs
    rw [he, hd, Nat.add_assoc]
    rfl

theorem mergeFrom_head (c : ImageChunk) (cs : Chunks) :
    ∃ d ds, mergeFrom c cs = d :: ds ∧ d.start = c.start ∧ d.type = c.type := by
  induction cs generalizing c with
  | nil => exact ⟨c, [], rfl, rfl, rfl⟩
  | cons d cs ih =>
    rw [ImgDiff.mergeFrom]
    split
    · exact ih (c.mergeAdjacentNormal d)
    · exact ⟨c, _, rfl, rfl, rfl⟩

theorem Contiguous.merge (h : Contiguous cs) : Contiguous (mergeAdjacentNormalChunks cs) := by
  cases cs with
  | nil => exact h
  | cons c cs =>
    change Contiguous (mergeFrom c cs)
    induction cs generalizing c with
    | nil => exact h
    | cons d cs ih =>
      rw [ImgDiff.mergeFrom]
      split
      · exact ih _ h.mergeAdjacent
      · obtain ⟨hstart, hrest⟩ := isChain_cons_cons.1 h
        have hmerged := ih d hrest
        obtain ⟨e, es, heq, he, -⟩ := mergeFrom_head d cs
        rw [heq] at hmerged ⊢
        exact .cons_cons (he.trans hstart) hmerged

theorem filter_mergeFrom :
    (mergeFrom c cs).filter (·.type ≠ .normal) = (c :: cs).filter (·.type ≠ .normal) := by
  induction cs generalizing c with
  | nil => rfl
  | cons d cs ih =>
    rw [ImgDiff.mergeFrom]
    split
    · next hadj =>
      obtain ⟨hc, hd, -⟩ := of_decide_eq_true hadj
      rw [ih]
      simp [mergeAdjacentNormal, hc, hd]
    · simp only [filter_cons, ih]

/-- No two neighbours can be merged. -/
def Merged (cs : Chunks) : Prop := cs.IsChain fun c d => c.isAdjacentNormal d = false

theorem merged_mergeFrom : Merged (mergeFrom c cs) := by
  induction cs generalizing c with
  | nil => exact .singleton c
  | cons d cs ih =>
    rw [ImgDiff.mergeFrom]
    split
    · exact ih
    · next hadj =>
      obtain ⟨e, es, heq, hstart, htype⟩ := mergeFrom_head d cs
      have hrest : Merged (e :: es) := heq ▸ ih
      rw [heq]
      refine .cons_cons ?_ hrest
      rw [isAdjacentNormal, hstart, htype]
      exact Bool.eq_false_iff.mpr hadj

theorem Merged.mergeFrom (h : Merged (c :: cs)) : mergeFrom c cs = c :: cs := by
  induction cs generalizing c with
  | nil => rfl
  | cons d cs ih =>
    obtain ⟨hadj, hrest⟩ := isChain_cons_cons.1 h
    rw [ImgDiff.mergeFrom, if_neg (Bool.eq_false_iff.mp hadj), ih hrest]

namespace Image

variable {c : ImageChunk} {cs rest : Chunks} {front stale junk : Slots} {fuel : Nat}

/-- The inner loop makes the head of what is merged, and leaves the chunks that it has merged where
they are. -/
theorem absorb_eq (hfuel : rest.length ≤ fuel) :
    ∃ d stale' rest', absorb front.length fuel (front ++ some c :: (stale ++ rest.map some))
        (front.length + 1 + stale.length) =
      some (front ++ some d :: (stale' ++ rest'.map some), front.length + 1 + stale'.length) ∧
      mergeFrom c rest = d :: ImgDiff.mergeAdjacentNormalChunks rest' ∧
      rest'.length ≤ rest.length := by
  induction rest generalizing c stale fuel with
  | nil =>
    refine ⟨c, stale, [], ?_, rfl, le_rfl⟩
    cases fuel with
    | zero => rfl
    | succ fuel =>
      rw [absorb, if_neg]
      simp
      omega
  | cons e rest ih =>
    obtain ⟨fuel, rfl⟩ := Nat.exists_eq_add_of_le' (Nat.le_trans (Nat.le_add_left ..) hfuel)
    have hcur : (front ++ some c :: (stale ++ (e :: rest).map some)).getD front.length none =
        some c := by simp
    have hnext : (front ++ some c :: (stale ++ (e :: rest).map some)).getD
        (front.length + 1 + stale.length) none = some e := by
      rw [getD_eq_getElem?_getD, getElem?_append_right (by omega)]
      simp [Nat.add_assoc, Nat.add_comm 1]
    have hset : ∀ x, (front ++ some c :: (stale ++ (e :: rest).map some)).set front.length x =
        front ++ x :: ((stale ++ [some e]) ++ rest.map some) := by simp
    rw [absorb, if_pos (by simp; omega), hcur, hnext, mergeFrom]
    simp only [Option.bind_eq_bind, Option.bind_some]
    by_cases hadj : c.isAdjacentNormal e = true
    · rw [if_pos hadj, if_pos hadj, hset]
      obtain ⟨d, stale', rest', habsorb, hmerge, hle⟩ :=
        @ih (c.mergeAdjacentNormal e) (stale ++ [some e]) fuel (by simpa using hfuel)
      rw [length_append, length_singleton, ← Nat.add_assoc] at habsorb
      exact ⟨d, stale', rest', habsorb, hmerge, Nat.le_succ_of_le hle⟩
    · rw [if_neg hadj, if_neg hadj]
      exact ⟨c, stale, e :: rest, rfl, rfl, le_rfl⟩

theorem moveChunk_eq (front : Slots) (j : Option ImageChunk) (tail : Slots) :
    moveChunk (front ++ j :: (junk ++ some c :: tail)) front.length
        (front.length + (junk.length + 1)) = front ++ some c :: (junk ++ none :: tail) := by
  simp [moveChunk]

/-- A chunk is moved to the first of the slots that are not looked at, or stays in its own. -/
theorem exists_junk (done : Chunks) (junk : Slots) (d : ImageChunk) (tail : Slots) :
    ∃ junk' : Slots, (if done.length ≠ done.length + junk.length then
        moveChunk (done.map some ++ (junk ++ some d :: tail))
          done.length (done.length + junk.length)
      else done.map some ++ (junk ++ some d :: tail)) =
        done.map some ++ some d :: (junk' ++ tail) ∧ junk'.length = junk.length := by
  cases junk with
  | nil => exact ⟨[], by simp, rfl⟩
  | cons j junk =>
    refine ⟨junk ++ [none], ?_, by simp⟩
    rw [if_pos (by simp), ← length_map some]
    exact (moveChunk_eq ..).trans (by simp)

/-- The slots are what is merged so far, slots that are not looked at any more, and the chunks still
to be merged. -/
theorem compact_eq {done : Chunks} (hfuel : rest.length ≤ fuel) :
    ∃ junk', compact fuel (done.map some ++ (junk ++ rest.map some)) done.length
        (done.length + junk.length) =
      some ((done ++ ImgDiff.mergeAdjacentNormalChunks rest).map some ++ junk',
        (done ++ ImgDiff.mergeAdjacentNormalChunks rest).length) := by
  induction fuel generalizing done junk rest with
  | zero =>
    obtain rfl := length_eq_zero_iff.mp (Nat.le_zero.mp hfuel)
    exact ⟨junk, by simp [compact, ImgDiff.mergeAdjacentNormalChunks]⟩
  | succ fuel ih =>
    rw [compact]
    cases rest with
    | nil => exact ⟨junk, by simp [ImgDiff.mergeAdjacentNormalChunks]⟩
    | cons c rest =>
      obtain ⟨d, stale, rest', habsorb, hmerge, hle⟩ := @absorb_eq c rest (done.map some ++ junk) []
        (done.map some ++ (junk ++ (c :: rest).map some)).length (by simp; omega)
      rw [length_append, length_map, nil_append, length_nil, Nat.add_zero, append_assoc,
        append_assoc, ← map_cons] at habsorb
      have hmerge : ImgDiff.mergeAdjacentNormalChunks (c :: rest) =
        d :: ImgDiff.mergeAdjacentNormalChunks rest' := hmerge
      obtain ⟨junk', hmove, hlen⟩ := exists_junk done junk d (stale ++ rest'.map some)
      rw [if_pos (by simp), habsorb]
      simp only [Option.bind_eq_bind, Option.bind_some]
      rw [hmove, hmerge]
      obtain ⟨junk'', hrest⟩ := @ih rest' (junk' ++ stale) (done ++ [d]) (by simp at hfuel; omega)
      refine ⟨junk'', ?_⟩
      simpa [hlen, Nat.add_assoc, Nat.add_comm 1] using hrest

theorem mergeAdjacentNormalChunks_eq (cs : Chunks) :
    mergeAdjacentNormalChunks cs = some (ImgDiff.mergeAdjacentNormalChunks cs) := by
  obtain ⟨junk, hcompact⟩ := @compact_eq cs [] cs.length [] le_rfl
  have hall : ∀ cs : Chunks, (cs.map some).mapM id = some cs := by
    intro cs
    induction cs with
    | nil => rfl
    | cons c cs ih => simp [mapM_cons, ih]
  rw [mergeAdjacentNormalChunks]
  simp only [map_nil, nil_append, length_nil] at hcompact
  rw [hcompact]
  simp only [Option.bind_eq_bind, Option.bind_some]
  rw [take_left' (length_map some), hall]

end Image

/-- Merging keeps the bytes and every chunk that is not normal, and leaves nothing to merge. -/
theorem merge_chunks (file : Bytes) (a b : Nat) (cs : Chunks) (h : Tiles file a cs b) :
    ∃ merged, Image.mergeAdjacentNormalChunks cs = some merged ∧
      Tiles file a merged b ∧ (merged.map raw).flatten = (cs.map raw).flatten ∧
      merged.filter (·.type ≠ .normal) = cs.filter (·.type ≠ .normal) ∧
      Merged merged ∧ Image.mergeAdjacentNormalChunks merged = some merged := by
  refine ⟨_, Image.mergeAdjacentNormalChunks_eq cs, h.merge, h.merge.raw.trans h.raw.symm, ?_⟩
  rw [Image.mergeAdjacentNormalChunks_eq]
  cases cs with
  | nil => exact ⟨rfl, .nil, rfl⟩
  | cons c cs =>
    have hmerged := @merged_mergeFrom c cs
    refine ⟨filter_mergeFrom, hmerged, congrArg some ?_⟩
    obtain ⟨d, ds, heq, -⟩ := mergeFrom_head c cs
    show mergeAdjacentNormalChunks (mergeFrom c cs) = mergeFrom c cs
    rw [heq] at hmerged ⊢
    exact hmerged.mergeFrom

/-- Two normal chunks in front of a deflate chunk, and one behind it. -/
def Sample.mixed : Chunks :=
  [normalChunk [5, 6, 7, 8] 0 1, normalChunk [5, 6, 7, 8] 1 1,
    { normalChunk [5, 6, 7, 8] 2 1 with type := .deflate }, normalChunk [5, 6, 7, 8] 3 1]

theorem two_chunks_merged :
    Image.mergeAdjacentNormalChunks Sample.mixed = some [normalChunk [5, 6, 7, 8] 0 2,
      { normalChunk [5, 6, 7, 8] 2 1 with type := .deflate }, normalChunk [5, 6, 7, 8] 3 1] ∧
    ∃ merged, Image.mergeAdjacentNormalChunks Sample.mixed = some merged ∧ Merged merged := by
  obtain ⟨merged, heq, -, -, -, hmerged, -⟩ := merge_chunks [5, 6, 7, 8] 0 4 Sample.mixed
    ⟨⟨rfl, by decide⟩, rfl, ⟨rfl, by decide⟩, rfl, ⟨rfl, by decide⟩, rfl, ⟨rfl, by decide⟩,
      rfl, rfl⟩
  exact ⟨by decide, merged, heq, hmerged⟩

theorem Contiguous.congr (h : List.Forall₂ SamePlace cs ds) (hc : Contiguous cs) :
    Contiguous ds := by
  induction h with
  | nil => exact .nil
  | @cons c d cs ds hcd hrest ih =>
    cases hrest with
    | nil => exact .singleton d
    | @cons c' d' cs ds hcd' _ =>
      obtain ⟨hstart, hrest⟩ := isChain_cons_cons.1 hc
      refine .cons_cons ?_ (ih hrest)
      rw [hcd'.2.1, hcd.2.1, hcd.2.2, hstart]

theorem mergeFrom_types (h : Contiguous (c :: cs)) :
    (mergeFrom c cs).map ImageChunk.type = mergeTypesFrom c.type (cs.map ImageChunk.type) := by
  induction cs generalizing c with
  | nil => rfl
  | cons d cs ih =>
    obtain ⟨hstart, hrest⟩ := isChain_cons_cons.1 h
    have hadj : c.isAdjacentNormal d = true ↔ c.type = .normal ∧ d.type = .normal := by
      unfold isAdjacentNormal
      rw [decide_eq_true_eq]
      exact ⟨fun h => ⟨h.1, h.2.1⟩, fun h => ⟨h.1, h.2, hstart⟩⟩
    rw [mergeFrom, map_cons, mergeTypesFrom]
    by_cases hn : c.type = .normal ∧ d.type = .normal
    · rw [if_pos (hadj.mpr hn), if_pos hn]
      exact ih h.mergeAdjacent
    · rw [if_neg (fun h => hn (hadj.mp h)), if_neg hn, map_cons, ih hrest]

/-- What is merged is a matter of the types: two lists with the same types have them after
merging too. -/
theorem merge_types_eq (hc : Contiguous cs) (hd : Contiguous ds)
    (h : cs.map ImageChunk.type = ds.map ImageChunk.type) :
    (mergeAdjacentNormalChunks cs).map ImageChunk.type
      = (mergeAdjacentNormalChunks ds).map ImageChunk.type := by
  cases cs with
  | nil =>
    rw [map_nil, eq_comm, map_eq_nil_iff] at h
    rw [h]
  | cons c cs =>
    cases ds with
    | nil => cases h
    | cons d ds =>
      rw [map_cons, map_cons, List.cons.injEq] at h
      change (mergeFrom c cs).map _ = (mergeFrom d ds).map _
      rw [mergeFrom_types hc, mergeFrom_types hd, h.1, h.2]

/-! ## Deflate chunks of the target -/

theorem compareBuffers_iff (file : Bytes) (start offset n : Nat) (bufs : List Bytes) :
    compareBuffers file start offset bufs = some n ↔
      n = offset + bufs.flatten.length ∧
        sliceOf file (start + offset) bufs.flatten.length = bufs.flatten := by
  induction bufs generalizing offset with
  | nil => simp [compareBuffers, sliceOf, eq_comm]
  | cons b bufs ih =>
    rw [compareBuffers, flatten_cons, length_append]
    split
    · next hsame =>
      rw [ih, ← sliceOf_append, hsame, append_cancel_left_eq, Nat.add_assoc, Nat.add_assoc]
    · next hdiff =>
      refine iff_of_false (Option.some_ne_none n).symm fun h => hdiff ?_
      have htake := congrArg (List.take b.length) h.2
      rwa [take_left, sliceOf, take_take, Nat.min_eq_left (Nat.le_add_right _ _)] at htake

variable {lib : DiffLib}

theorem rebuilds_of_tryReconstruction {level : Int} (hlen : c.uncompressedData.length < 2 ^ 32)
    (h : tryReconstruction lib c level = true) :
    Rebuilds lib.toPatchLib level c.uncompressedData c.raw := by
  unfold tryReconstruction at h
  rw [Nat.mod_eq_of_lt hlen, take_length] at h
  split at h
  · cases h
  · rename_i hinit
    split at h
    · cases h
    · rename_i buffers hdef
      refine ⟨by simpa using hinit, buffers, hdef, ?_⟩
      obtain ⟨hlen', hsame⟩ := (compareBuffers_iff ..).mp (of_decide_eq_true h)
      rw [ImageChunk.raw, hlen', Nat.zero_add]
      exact hsame.symm

/-- A target chunk that the decoder can produce: its bytes as they are, or its contents
deflated again. -/
structure Target (lib : DiffLib) (c : ImageChunk) : Prop where
  notRaw : c.type ≠ .raw
  level : IsInt c.compressLevel
  contents : c.type = .deflate → c.uncompressedData ≠ []
  rebuilds : c.type = .deflate →
    Rebuilds lib.toPatchLib c.compressLevel c.uncompressedData c.raw

theorem reconstruct_cases (h : reconstructDeflateChunk lib c = some d) :
    c.type = .deflate ∧ ∃ level, (level = 6 ∨ level = 9) ∧ d = { c with compressLevel := level }
      ∧ tryReconstruction lib c level = true := by
  unfold reconstructDeflateChunk at h
  split at h
  · cases h
  · rename_i ht
    split at h
    · cases h
    · rename_i level hfind
      refine ⟨not_not.mp ht, level, ?_, (Option.some.inj h).symm, find?_some hfind⟩
      have := mem_of_find?_eq_some hfind
      simpa using this

theorem Target.of_reconstruct (h : reconstructDeflateChunk lib c = some d)
    (hlen : c.uncompressedData.length < 2 ^ 32) (hne : c.uncompressedData ≠ []) : Target lib d := by
  obtain ⟨ht, level, hlevel, rfl, htry⟩ := reconstruct_cases h
  refine ⟨by rw [ht]; decide, ?_, fun _ => hne, fun _ => rebuilds_of_tryReconstruction hlen htry⟩
  unfold IsInt
  dsimp only
  omega

theorem Target.of_normal (ht : c.type = .normal) (hlevel : IsInt c.compressLevel) : Target lib c :=
  ⟨by rw [ht]; decide, hlevel, fun h => absurd (ht.symm.trans h) (by decide),
    fun h => absurd (ht.symm.trans h) (by decide)⟩

/-! ## Deflate chunks of the source -/

/-- The contents kept with a deflate chunk are those of its bytes, followed by `extra`. -/
structure Expands (lib : DiffLib) (extra : Bytes) (c : ImageChunk) : Prop where
  inflate : ∃ contents, lib.inflate c.raw = some contents ∧ contents ≠ []
    ∧ c.uncompressedData = contents ++ extra
  rawLen : c.rawDataLen < 2 ^ 32
  expandedLen : c.uncompressedData.length < 2 ^ 32

/-- A chunk as the passes leave it: a deflate chunk has the contents of its bytes. -/
structure Sound (lib : DiffLib) (bound : Nat) (c : ImageChunk) : Prop where
  notRaw : c.type ≠ .raw
  level : IsInt c.compressLevel
  contents : c.uncompressedData.length < bound
  expands : c.type = .deflate → Expands lib [] c

section Passes

variable {bound : Nat}

theorem Sound.of_merge (h : ∀ c ∈ cs, Sound lib bound c) :
    ∀ c ∈ mergeAdjacentNormalChunks cs, Sound lib bound c := by
  intro d hd
  obtain ⟨e, he, hde, hcase⟩ := mem_merge hd
  have hs := h e he
  rcases hcase with rfl | hnormal
  · exact hs
  · refine ⟨by rw [hnormal]; decide, ?_, ?_, fun ht => absurd (hnormal.symm.trans ht) (by decide)⟩
    · rw [hde]; exact hs.level
    · rw [hde]; exact hs.contents

theorem Target.of_merge (h : ∀ c ∈ cs, Target lib c) :
    ∀ c ∈ mergeAdjacentNormalChunks cs, Target lib c := by
  intro d hd
  obtain ⟨e, he, hde, hcase⟩ := mem_merge hd
  rcases hcase with rfl | hnormal
  · exact h d he
  · exact Target.of_normal hnormal (by rw [hde]; exact (h e he).level)

theorem sound_changeToNormal (h : Sound lib bound c) :
    Sound lib bound c.changeDeflateChunkToNormal := by
  have hcontents := h.contents
  unfold changeDeflateChunkToNormal
  split
  · exact h
  · exact ⟨nofun, h.level, by dsimp only [length_nil]; omega, nofun⟩

theorem samePlace_changeToNormal (c : ImageChunk) : SamePlace c c.changeDeflateChunkToNormal := by
  unfold changeDeflateChunkToNormal
  split <;> exact ⟨rfl, rfl, rfl⟩

theorem changeToNormal_type (h : c.type ≠ .raw) : c.changeDeflateChunkToNormal.type = .normal := by
  unfold changeDeflateChunkToNormal
  split
  · rename_i ht
    cases hc : c.type with
    | normal => rfl
    | deflate => exact absurd hc ht
    | raw => exact absurd hc h
  · rfl

theorem keepDeflated_target {src tgt' : ImageChunk} (ht : Sound lib bound tgt)
    (h : keepDeflated lib tgt src = some (some tgt')) :
    SamePlace tgt tgt' ∧ tgt'.type = tgt.type ∧ Target lib tgt' ∧ Sound lib bound tgt' := by
  unfold keepDeflated at h
  split at h
  · cases h
  · cases h
  · have hrec := Option.some.inj h
    obtain ⟨hdeflate, level, _, rfl, _⟩ := reconstruct_cases hrec
    have hexp := ht.expands hdeflate
    obtain ⟨contents, _, hne, hunc⟩ := hexp.inflate
    have htarget := Target.of_reconstruct hrec hexp.expandedLen
      (by rw [hunc, append_nil]; exact hne)
    exact ⟨⟨rfl, rfl, rfl⟩, rfl, htarget, ht.notRaw, htarget.level, ht.contents,
      fun _ => ⟨hexp.inflate, hexp.rawLen, hexp.expandedLen⟩⟩

end Passes

section Source

variable {old : Bytes} {bonus : Option Bytes} {i : Nat} {p : PatchChunk}
  {src : ImageChunk}

theorem not_tooShort {len : Nat} (h : start + len ≤ old.length) :
    ¬ tooShort old start len = true := by
  unfold tooShort
  rw [decide_eq_true_eq]
  omega

theorem decoderSource_normal (hp : p.type = .normal)
    (hle : p.sourceStart + p.sourceLen ≤ old.length)
    (hat : sliceOf old p.sourceStart p.sourceLen = src.raw) :
    decoderSource lib.toPatchLib old bonus i p = some src.raw := by
  unfold decoderSource
  rw [if_neg (not_tooShort hle), if_neg (by rw [hp]; decide), hat]

theorem decoderSource_deflate (hp : p.type = .deflate)
    (hle : p.sourceStart + p.sourceLen ≤ old.length)
    (hat : sliceOf old p.sourceStart p.sourceLen = src.raw)
    (hexp : p.sourceUncompressedLen = src.uncompressedData.length) (hraw : src.raw.length < 2 ^ 32)
    (hsrc : Expands lib (if i = 1 then bonus.getD [] else []) src) :
    decoderSource lib.toPatchLib old bonus i p = some src.uncompressedData := by
  obtain ⟨contents, hinf, hne, hcontents⟩ := hsrc.inflate
  have hlen := hsrc.expandedLen
  have hpos := length_pos_iff.mpr hne
  unfold decoderSource expandSource
  rw [if_neg (not_tooShort hle), if_pos hp, hat, hexp, Nat.mod_eq_of_lt hlen,
    Nat.mod_eq_of_lt hraw, take_length, hinf]
  rw [hcontents, length_append] at hlen ⊢
  dsimp only
  rw [if_neg (by omega), if_pos (by omega), Nat.add_sub_cancel_left, Nat.sub_self, replicate_zero,
    append_nil]

end Source

/-! ## The patch for a chunk -/

theorem generate_cases {src : ImageChunk} {p : PatchChunk} (h : generate lib tgt src = some p) :
    (tgt.type = .normal ∧ ofTarget tgt = some p ∧
      (tgt.rawDataLen ≤ 160 ∨ ∃ data, makePatch lib tgt src = some data
        ∧ tgt.rawDataLen < data.length)) ∨
    ∃ data, makePatch lib tgt src = some data ∧ p = ofPatch tgt src data := by
  unfold generate at h
  split at h
  · rename_i hsmall
    obtain ⟨ht, hlen⟩ := of_decide_eq_true hsmall
    exact .inl ⟨ht, h, .inl (by omega)⟩
  · split at h
    · cases h
    · rename_i data hdata
      split at h
      · rename_i hsmall
        obtain ⟨ht, hlen⟩ := of_decide_eq_true hsmall
        refine .inl ⟨ht, h, ?_⟩
        rcases hlen with hlen | hlen
        · exact .inl hlen
        · exact .inr ⟨data, hdata, hlen⟩
      · exact .inr ⟨data, hdata, (Option.some.inj h).symm⟩

theorem makePatch_cases {src : ImageChunk} {data : Bytes} (h : makePatch lib tgt src = some data) :
    ∃ old new, src.dataForPatch = some old ∧ tgt.dataForPatch = some new
      ∧ lib.bsdiff old new = some data := by
  obtain ⟨old, hold, h⟩ := Option.bind_eq_some_iff.mp h
  obtain ⟨new, hnew, h⟩ := Option.bind_eq_some_iff.mp h
  exact ⟨old, new, hold, hnew, h⟩

theorem dataForPatch_normal (hin : c.Inside file) (ht : c.type ≠ .deflate) :
    c.dataForPatch = some c.raw := by
  rw [dataForPatch, if_neg ht, hin.getRawData]

theorem ofTarget_data {p : PatchChunk} (hin : tgt.Inside file) (ht : tgt.type = .normal)
    (h : ofTarget tgt = some p) :
    p = { type := .raw, sourceStart := 0, sourceLen := 0, sourceUncompressedLen := 0,
          targetUncompressedLen := tgt.dataLengthForPatch,
          targetCompressLevel := tgt.compressLevel, data := tgt.raw } := by
  unfold ofTarget at h
  rw [dataForPatch_normal hin (by rw [ht]; decide)] at h
  exact (Option.some.inj h).symm

/-- A source chunk that the decoder expands as chunk number `i`. -/
structure SourceAt (lib : DiffLib) (src : Bytes) (bonus : Option Bytes) (i : Nat)
    (c : ImageChunk) : Prop where
  inside : c.Inside src
  length : c.dataLengthForPatch < 2 ^ 64
  expands : c.type = .deflate → Expands lib (if i = 1 then bonus.getD [] else []) c

/-- The decoder's source for a chunk that was patched against a source chunk of its type. -/
theorem decoderSource_of_sourceAt {src : Bytes} {bonus : Option Bytes} {p : PatchChunk}
    {i : Nat} (hc : SourceAt lib src bonus i c) (htype : tgt.type = c.type)
    (hgen : generate lib tgt c = some p) {source : Bytes} (hp : p.type ≠ .raw)
    (hsource : c.dataForPatch = some source) :
    decoderSource lib.toPatchLib src bonus i p = some source := by
  rcases generate_cases hgen with ⟨ht, hof, _⟩ | ⟨data, _, rfl⟩
  · obtain ⟨data, _, hof⟩ := Option.bind_eq_some_iff.mp hof
    rw [← Option.some.inj hof] at hp
    exact absurd rfl hp
  · have hle : (ofPatch tgt c data).sourceStart
        + (ofPatch tgt c data).sourceLen ≤ src.length := hc.inside.le
    have hat : sliceOf src (ofPatch tgt c data).sourceStart
        (ofPatch tgt c data).sourceLen = c.raw := by
      rw [ImageChunk.raw, hc.inside.inputFile]
      rfl
    by_cases hd : c.type = .deflate
    · have hexp := hc.expands hd
      rw [dataForPatch, if_pos hd] at hsource
      rw [← hsource]
      refine decoderSource_deflate (htype.trans hd) hle hat (if_pos hd) ?_ hexp
      rw [hc.inside.raw_length]
      exact hexp.rawLen
    · have hn : (ofPatch tgt c data).type = .normal := by
        cases hk : (ofPatch tgt c data).type with
        | normal => rfl
        | deflate => exact absurd (htype.symm.trans hk) hd
        | raw => exact absurd hk hp
      rw [dataForPatch_normal hc.inside hd] at hsource
      rw [← hsource]
      exact decoderSource_normal hn hle hat

/--
The patch made for a target chunk yields the chunk's bytes, if the decoder finds the source the
patch was made against. The place of that source may have changed since.
-/
theorem yields_of_generate (hl : Lawful lib) {src : ImageChunk} {p q : PatchChunk}
    (h : generate lib tgt src = some p) (hin : tgt.Inside file) (htgt : Target lib tgt)
    (hq : q = { p with sourceStart := q.sourceStart }) {old : Bytes}
    {bonus : Option Bytes} {i : Nat}
    (hsrc : ∀ source, q.type ≠ .raw → src.dataForPatch = some source →
      decoderSource lib.toPatchLib old bonus i q = some source) :
    Yields lib.toPatchLib old bonus i q tgt.raw := by
  have htype : q.type = p.type := by rw [hq]
  have hdata : q.data = p.data := by rw [hq]
  rcases generate_cases h with ⟨ht, hp, _⟩ | ⟨data, hpatch, rfl⟩
  · have hp := ofTarget_data hin ht hp
    have hraw : q.data = tgt.raw := by rw [hdata, hp]
    rw [← hraw]
    exact yields_raw (by rw [htype, hp])
  · obtain ⟨source, new, hsource, hnew, hdiff⟩ := makePatch_cases hpatch
    have hfound := hsrc source (by rw [htype]; exact htgt.notRaw) hsource
    rw [← show q.data = data from hdata] at hdiff
    cases ht : tgt.type with
    | raw => exact absurd ht htgt.notRaw
    | normal =>
      rw [dataForPatch_normal hin (by rw [ht]; decide)] at hnew
      rw [← Option.some.inj hnew] at hdiff
      exact yields_normal hl (htype.trans ht) hfound hdiff
    | deflate =>
      rw [dataForPatch, if_pos ht] at hnew
      rw [← Option.some.inj hnew] at hdiff
      have hlen : q.targetUncompressedLen = tgt.uncompressedData.length := by
        rw [hq]
        exact if_pos ht
      have hlevel : q.targetCompressLevel = tgt.compressLevel := by rw [hq]; rfl
      exact yields_deflate hl (htype.trans ht) hfound hdiff (htgt.contents ht) hlen
        (by rw [hlevel]; exact htgt.rebuilds ht)

theorem fits_of_generate {src : ImageChunk} {p : PatchChunk}
    (h : generate lib tgt src = some p) (hin : tgt.Inside file) (htgt : Target lib tgt)
    (hstart : src.start < 2 ^ 64) (hlen : src.rawDataLen < 2 ^ 64)
    (hsrc : src.dataLengthForPatch < 2 ^ 64) (hdata : tgt.dataLengthForPatch < 2 ^ 64)
    (hraw : p.type = .raw → tgt.rawDataLen < 2 ^ 31) : p.Fits := by
  rcases generate_cases h with ⟨ht, hp, _⟩ | ⟨data, _, rfl⟩
  · have hp := ofTarget_data hin ht hp
    have hshort := hraw (by rw [hp])
    subst hp
    exact ⟨by dsimp only; omega, by dsimp only; omega, by dsimp only; omega, hdata, htgt.level,
      fun _ => by rw [hin.raw_length]; exact hshort⟩
  · exact ⟨hstart, hlen, hsrc, hdata, htgt.level, fun h => absurd h htgt.notRaw⟩

end Pterodon.ImgDiff
