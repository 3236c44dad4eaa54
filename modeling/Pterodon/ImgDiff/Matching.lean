import Pterodon.ImgDiff.ZipChunks

/-!
# Which entries stay deflated

`CheckAndProcessChunks` of zip mode, seen from the entries. The deflated entries of the
source are a supply. Each deflated entry of the target, in the order of the file, looks
for the first entry left in the supply that has its name. If there is one and the two
differ and the target entry can be rebuilt, it stays deflated (`stays`), to be patched
later on its contents. If they are identical, or the entry cannot be rebuilt, both
become normal and the source entry leaves the supply (`spend`).

The patches are made only after the pass, from what is then left. Because a name also
matches with `-0` behind it, an entry of the target can lose its source to a later one;
`orphaned` are the entries that stay deflated and find nothing any more.
-/

namespace Pterodon.ImgDiff.ZipMode

open Lib ApplyPatch ImageChunk List

variable (lib : DiffLib) {c d t t' : ImageChunk} {P : ImageChunk → Prop} {srcs srcs' cs : Chunks}
    {file : Bytes} {a b : Nat}

/-! ## The supply -/

def hasName (tgt c : ImageChunk) : Bool := sameName tgt.entryName c.entryName

/-- The entry of the supply that a target entry finds. -/
def firstMatch (supply : Chunks) (tgt : ImageChunk) : Option ImageChunk :=
  supply.find? (hasName tgt)

def stays (supply : Chunks) (tgt : ImageChunk) : Bool :=
  match firstMatch supply tgt with
  | none => false
  | some src => decide (tgt.raw ≠ src.raw) && (reconstructDeflateChunk lib tgt).isSome

def spend (supply : Chunks) (tgt : ImageChunk) : Chunks :=
  if stays lib supply tgt then supply else supply.eraseP (hasName tgt)

/-- The supply after a list of target entries. -/
def left (supply tgts : Chunks) : Chunks :=
  tgts.foldl (spend lib) supply

def kept : Chunks → Chunks → Chunks
  | _, [] => []
  | supply, tgt :: tgts =>
    if stays lib supply tgt then tgt :: kept (spend lib supply tgt) tgts
    else kept (spend lib supply tgt) tgts

theorem kept_length_le : ∀ tgts supply : Chunks,
    (kept lib supply tgts).length ≤ tgts.length
  | [], _ => Nat.le_refl 0
  | t :: tgts, supply => by
    have ih := kept_length_le tgts (spend lib supply t)
    rw [kept, length_cons]
    split
    · rw [length_cons]
      omega
    · omega

/-- The target entries that stay deflated and find no source once the pass is over. -/
def orphaned (supply tgts : Chunks) : Chunks :=
  (kept lib supply tgts).filter fun tgt => (firstMatch (left lib supply tgts) tgt).isNone

/-! ## The lookup -/

theorem find_deflates (chunks : Chunks) (tgt : ImageChunk) :
    (findChunkByName chunks tgt.entryName false).bind (chunks[·]?)
      = firstMatch (deflates chunks) tgt := by
  unfold firstMatch deflates findChunkByName
  rw [find?_filter, find?_eq_bind_findIdx?_getElem?]
  simp [hasName]

theorem findChunkByName_eq_none {chunks : Chunks} {tgt : ImageChunk}
    (h : findChunkByName chunks tgt.entryName false = none) :
    firstMatch (deflates chunks) tgt = none := by
  rw [← find_deflates, h]
  rfl

theorem deflates_modify {tgt : ImageChunk} : ∀ {chunks : Chunks} {i : Nat},
    findChunkByName chunks tgt.entryName false = some i →
    deflates (chunks.modify i changeDeflateChunkToNormal) = (deflates chunks).eraseP (hasName tgt)
  | [], i, h => absurd h (by simp [findChunkByName])
  | c :: cs, i, h => by
    unfold findChunkByName at h
    rw [findIdx?_cons] at h
    split at h
    · rename_i hc
      cases h
      have hc : c.type = .deflate ∧ hasName tgt c = true := by simpa [hasName] using hc
      rw [modify_zero_cons, deflates, deflates, filter_cons_of_neg,
        filter_cons_of_pos (by simpa using hc.1), eraseP_cons_of_pos hc.2]
      rw [changeToNormal_type (by rw [hc.1]; decide)]
      decide
    · rename_i hc
      obtain ⟨j, hj, rfl⟩ := Option.map_eq_some_iff.mp h
      have ih := deflates_modify hj
      rw [modify_succ_cons]
      by_cases ht : c.type = .deflate
      · have hname : ¬ hasName tgt c = true := by
          intro hn
          exact hc (by simpa [ht, hasName] using hn)
        rw [deflates, deflates, filter_cons_of_pos (by simpa using ht),
          filter_cons_of_pos (by simpa using ht), eraseP_cons_of_neg hname]
        congr 1
      · rw [deflates, deflates, filter_cons_of_neg (by simpa using ht),
          filter_cons_of_neg (by simpa using ht)]
        exact ih

/-! ## A round of the pass -/

variable {lib : DiffLib} {src tgt : Bytes}

theorem equals_inside (hc : c.Inside tgt) (hd : d.Inside src) (ht : c.type = d.type) :
    c.equals d = some (decide (c.raw = d.raw)) := by
  unfold equals
  rw [if_neg (not_not.mpr ht), hc.getRawData, hd.getRawData]
  split
  · rename_i hlen
    rw [← hc.raw_length, ← hd.raw_length] at hlen
    rw [decide_eq_false (fun h => hlen (congrArg List.length h))]
  · rfl

theorem keepDeflated_inside (hc : c.Inside tgt) (hd : d.Inside src) (ht : c.type = d.type) :
    keepDeflated lib c d = some (if c.raw = d.raw then none else reconstructDeflateChunk
      lib c) := by
  unfold keepDeflated
  rw [equals_inside hc hd ht]
  by_cases h : c.raw = d.raw
  · rw [decide_eq_true h, if_pos h]
  · rw [decide_eq_false h, if_neg h]

theorem forall_mem_modify {f : ImageChunk → ImageChunk} (hf : ∀ c, P c → P (f c)) :
    ∀ {cs : Chunks} {i : Nat}, (∀ c ∈ cs, P c) →
    ∀ c ∈ cs.modify i f, P c
  | [], _, _, c, hc => by simp at hc
  | d :: ds, 0, h, c, hc => by
    rcases mem_cons.mp hc with rfl | hc
    · exact hf d (h d mem_cons_self)
    · exact h c (mem_cons_of_mem _ hc)
  | d :: ds, i + 1, h, c, hc => by
    rcases mem_cons.mp hc with rfl | hc
    · exact h c mem_cons_self
    · exact forall_mem_modify hf (forall_mem_cons.mp h).2 c hc

theorem processChunk_cases (h : processChunk lib srcs t = some (t', srcs')) :
    (t.type ≠ .deflate ∧ t' = t ∧ srcs' = srcs) ∨
    t.type = .deflate ∧
      ((findChunkByName srcs t.entryName false = none
          ∧ t' = t.changeDeflateChunkToNormal ∧ srcs' = srcs) ∨
        ∃ i c, findChunkByName srcs t.entryName false = some i ∧ srcs[i]? = some c ∧
          ((keepDeflated lib t c = some (some t') ∧ srcs' = srcs) ∨
            keepDeflated lib t c = some none ∧ t' = t.changeDeflateChunkToNormal
              ∧ srcs' = srcs.modify i changeDeflateChunkToNormal)) := by
  unfold processChunk at h
  split at h
  · rename_i ht
    cases h
    exact .inl ⟨ht, rfl, rfl⟩
  rename_i ht
  refine .inr ⟨not_not.mp ht, ?_⟩
  split at h
  · rename_i hnone
    cases h
    exact .inl ⟨hnone, rfl, rfl⟩
  · rename_i i hfind
    right
    split at h
    · cases h
    · rename_i t₁ hkeep
      cases h
      obtain ⟨c, hc, hkeep⟩ := Option.bind_eq_some_iff.mp hkeep
      exact ⟨i, c, hfind, hc, .inl ⟨hkeep, rfl⟩⟩
    · rename_i hkeep
      cases h
      obtain ⟨c, hc, hkeep⟩ := Option.bind_eq_some_iff.mp hkeep
      exact ⟨i, c, hfind, hc, .inr ⟨hkeep, rfl, rfl⟩⟩

theorem processChunk_sources (hP : ∀ c, P c → P c.changeDeflateChunkToNormal)
    (h : processChunk lib srcs t = some (t', srcs')) (hs : ∀ c ∈ srcs, P c) : ∀ c ∈ srcs', P c := by
  rcases processChunk_cases h with ⟨_, _, rfl⟩ | ⟨_, ⟨_, _, rfl⟩ | ⟨i, c, _, _,
    ⟨_, rfl⟩ | ⟨_, _, rfl⟩⟩⟩
  · exact hs
  · exact hs
  · exact hs
  · exact forall_mem_modify hP hs

structure ChunkDone (lib : DiffLib) (t t' : ImageChunk) : Prop where
  samePlace : SamePlace t t'
  name : t'.entryName = t.entryName
  target : Target lib t'
  sound : Sound lib (2 ^ 32) t'

theorem chunkDone_normal (ht : Sound lib (2 ^ 32) t) :
    ChunkDone lib t t.changeDeflateChunkToNormal := by
  refine ⟨samePlace_changeToNormal t, ?_,
    Target.of_normal (changeToNormal_type ht.notRaw) (sound_changeToNormal ht).level,
    sound_changeToNormal ht⟩
  unfold changeDeflateChunkToNormal
  split <;> rfl

theorem keepDeflated_name (h : keepDeflated lib t c = some (some t')) :
    t'.entryName = t.entryName := by
  unfold keepDeflated at h
  split at h
  · cases h
  · cases h
  · obtain ⟨_, level, _, rfl, _⟩ := reconstruct_cases (Option.some.inj h)
    rfl

theorem processChunk_target (h : processChunk lib srcs t = some (t', srcs'))
    (ht : Sound lib (2 ^ 32) t) : ChunkDone lib t t' := by
  rcases processChunk_cases h with ⟨hn, rfl, _⟩ | ⟨_, ⟨_, rfl, _⟩ | ⟨i, c, _, _,
    ⟨hk, _⟩ | ⟨_, rfl, _⟩⟩⟩
  · refine ⟨⟨rfl, rfl, rfl⟩, rfl, Target.of_normal ?_ ht.level, ht⟩
    cases htype : t'.type with
    | normal => rfl
    | deflate => exact absurd htype hn
    | raw => exact absurd htype ht.notRaw
  · exact chunkDone_normal ht
  · obtain ⟨hplace, _, htarget, hsound⟩ := keepDeflated_target ht hk
    exact ⟨hplace, keepDeflated_name hk, htarget, hsound⟩
  · exact chunkDone_normal ht

/-- A round, seen from the entries: the supply is spent, and the chunk stays deflated or not. -/
theorem processChunk_supply (h : processChunk lib srcs t = some (t', srcs'))
    (hs : ∀ c ∈ srcs, c.Inside src) (htin : t.Inside tgt) (ht : t.type = .deflate) :
    deflates srcs' = spend lib (deflates srcs) t
      ∧ (t'.type = .deflate ↔ stays lib (deflates srcs) t = true) := by
  have hnormal : t.changeDeflateChunkToNormal.type ≠ .deflate := by
    rw [changeToNormal_type (by rw [ht]; decide)]
    decide
  rcases processChunk_cases h with ⟨hn, _⟩ | ⟨_, ⟨hnone, rfl, rfl⟩ | ⟨i, c, hfind, hc, hkeep⟩⟩
  · exact absurd ht hn
  · have hm := findChunkByName_eq_none hnone
    have hstays : stays lib (deflates srcs') t = false := by
      unfold stays
      rw [hm]
    refine ⟨?_, ?_⟩
    · have hall := find?_eq_none.mp hm
      rw [spend, hstays, eraseP_of_forall_not hall]
      rfl
    · rw [hstays]
      exact ⟨fun h => absurd h hnormal, fun h => absurd h (by decide)⟩
  · have hm : firstMatch (deflates srcs) t = some c := by
      rw [← find_deflates, hfind]
      exact hc
    have hmem := mem_filter.mp (mem_of_find?_eq_some hm)
    have hctype : c.type = .deflate := by simpa using hmem.2
    have hkd : keepDeflated lib t c = _ :=
      keepDeflated_inside htin (hs c hmem.1) (ht.trans hctype.symm)
    have hstays : stays lib (deflates srcs) t
        = (decide (t.raw ≠ c.raw) && (reconstructDeflateChunk lib t).isSome) := by
      unfold stays
      rw [hm]
    rcases hkeep with ⟨hk, rfl⟩ | ⟨hk, rfl, rfl⟩
    · rw [hkd] at hk
      have hk := Option.some.inj hk
      split at hk
      · cases hk
      · rename_i hraw
        have hst : stays lib (deflates srcs') t = true := by
          rw [hstays, hk, decide_eq_true hraw]
          rfl
        obtain ⟨_, level, _, rfl, _⟩ := reconstruct_cases hk
        exact ⟨by rw [spend, if_pos hst], fun _ => hst, fun _ => ht⟩
    · rw [hkd] at hk
      have hk := Option.some.inj hk
      have hst : stays lib (deflates srcs) t = false := by
        rw [hstays]
        split at hk
        · rename_i hraw
          rw [decide_eq_false (not_not.mpr hraw)]
          rfl
        · rw [hk, Option.isSome_none, Bool.and_false]
      refine ⟨?_, fun h => absurd h hnormal, fun h => absurd (hst.symm.trans h) (by decide)⟩
      rw [deflates_modify hfind, spend, hst]
      rfl

/-! ## The pass -/

theorem processChunks_sources (hP : ∀ c, P c → P c.changeDeflateChunkToNormal) :
    ∀ {tgts srcs tgts' srcs' : Chunks},
      processChunks lib srcs tgts = some (tgts', srcs') → (∀ c ∈ srcs, P c) → ∀ c ∈ srcs', P c
  | [], srcs, tgts', srcs', h, hs => by
    cases h
    exact hs
  | t :: tgts, srcs, tgts', srcs', h, hs => by
    rw [processChunks] at h
    split at h
    · cases h
    · rename_i t₁ srcs₁ hround
      split at h
      · cases h
      · rename_i tgts₂ srcs₂ hrest
        cases h
        exact processChunks_sources hP hrest (processChunk_sources hP hround hs)

theorem inside_changeToNormal (h : c.Inside file) : c.changeDeflateChunkToNormal.Inside file := by
  obtain ⟨hfile, hstart, hlen⟩ := samePlace_changeToNormal c
  exact ⟨hfile.trans h.inputFile, by rw [hstart, hlen]; exact h.le⟩

/-- What the decoder and the name lookup see of a deflate chunk. -/
def place (c : ImageChunk) : Nat × Nat × Bytes := (c.start, c.rawDataLen, c.entryName)

structure PassDone (lib : DiffLib) (srcs tgts tgts' srcs' : Chunks) : Prop where
  chunks : List.Forall₂ (ChunkDone lib) tgts tgts'
  left : deflates srcs' = left lib (deflates srcs) (deflates tgts)
  kept : (deflates tgts').map place = (kept lib (deflates srcs) (deflates tgts)).map place

theorem deflates_cons_of_deflate (h : c.type = .deflate) (cs : Chunks) :
    deflates (c :: cs) = c :: deflates cs := filter_cons_of_pos (by simpa using h)

theorem deflates_cons_of_ne (h : c.type ≠ .deflate) (cs : Chunks) :
    deflates (c :: cs) = deflates cs := filter_cons_of_neg (by simpa using h)

theorem ChunkDone.place_eq (h : ChunkDone lib t t') : place t' = place t := by
  obtain ⟨_, hstart, hlen⟩ := h.samePlace
  unfold place
  rw [hstart, hlen, h.name]

theorem processChunks_done : ∀ {tgts srcs tgts' srcs' : Chunks},
    processChunks lib srcs tgts = some (tgts', srcs') → (∀ c ∈ srcs, c.Inside src) →
    (∀ c ∈ tgts, c.Inside tgt) → (∀ c ∈ tgts, Sound lib (2 ^ 32) c) →
    PassDone lib srcs tgts tgts' srcs'
  | [], srcs, tgts', srcs', h, _, _, _ => by
    cases h
    exact ⟨.nil, rfl, rfl⟩
  | t :: tgts, srcs, tgts', srcs', h, hs, htin, ht => by
    rw [processChunks] at h
    split at h
    · cases h
    rename_i t₁ srcs₁ hround
    split at h
    · cases h
    rename_i tgts₂ srcs₂ hrest
    cases h
    have hdone := processChunk_target hround (ht t mem_cons_self)
    have ih := processChunks_done hrest
      (processChunk_sources (fun c => inside_changeToNormal) hround
        hs)
      (forall_mem_cons.mp htin).2
      (forall_mem_cons.mp ht).2
    refine ⟨.cons hdone ih.chunks, ?_, ?_⟩
    · rw [ih.left]
      by_cases hd : t.type = .deflate
      · rw [deflates_cons_of_deflate hd, left, left, foldl_cons,
          (processChunk_supply hround hs (htin t mem_cons_self) hd).1]
      · rcases processChunk_cases hround with ⟨_, _, hsame⟩ | ⟨hd', _⟩
        · rw [deflates_cons_of_ne hd, hsame]
        · exact absurd hd' hd
    · by_cases hd : t.type = .deflate
      · obtain ⟨hsupply, hiff⟩ := processChunk_supply hround hs (htin t mem_cons_self) hd
        rw [deflates_cons_of_deflate hd, kept, ← hsupply]
        by_cases hst : stays lib (deflates srcs) t = true
        · rw [if_pos hst, deflates_cons_of_deflate (hiff.mpr hst), map_cons, map_cons,
            ih.kept, hdone.place_eq]
        · rw [if_neg hst, deflates_cons_of_ne (fun h => hst (hiff.mp h)), ih.kept]
      · rcases processChunk_cases hround with ⟨_, rfl, rfl⟩ | ⟨hd', _⟩
        · rw [deflates_cons_of_ne hd, deflates_cons_of_ne hd, ih.kept]
        · exact absurd hd' hd

/-! ## After merging -/

theorem deflates_mergeFrom : ∀ {cs : Chunks} {c : ImageChunk},
    deflates (mergeFrom c cs) = deflates (c :: cs)
  | [], c => rfl
  | d :: cs, c => by
    rw [mergeFrom]
    split
    · rename_i hadj
      obtain ⟨hc, hd, _⟩ := of_decide_eq_true hadj
      have hmerged : (c.mergeAdjacentNormal d).type ≠ .deflate := by
        rw [show (c.mergeAdjacentNormal d).type = c.type from rfl, hc]
        decide
      rw [deflates_mergeFrom, deflates_cons_of_ne hmerged,
        deflates_cons_of_ne (by rw [hc]; decide), deflates_cons_of_ne (by rw [hd]; decide)]
    · by_cases hc : c.type = .deflate
      · rw [deflates_cons_of_deflate hc, deflates_cons_of_deflate hc, deflates_mergeFrom]
      · rw [deflates_cons_of_ne hc, deflates_cons_of_ne hc, deflates_mergeFrom]

theorem deflates_merge (cs : Chunks) : deflates (mergeAdjacentNormalChunks cs) = deflates cs := by
  cases cs with
  | nil => rfl
  | cons c cs => exact deflates_mergeFrom

/-- The stretches between the deflate chunks of a tiling from `a` to `b`. -/
def gaps (a : Nat) : List (Nat × Nat × Bytes) → Nat → Pairs
  | [], b => [(a, b)]
  | (start, len, _) :: rest, b => (a, start) :: gaps (start + len) rest b

/-- In a tiling, a normal chunk that is not merged with the next is followed by a deflate chunk. -/
theorem deflate_of_not_adjacent {e : ImageChunk} (h : Tiles file a (c :: e :: cs) b)
    (hraw : ∀ d ∈ c :: e :: cs, d.type ≠ .raw) (hc : c.type ≠ .deflate)
    (hadj : ¬ c.isAdjacentNormal e = true) : e.type = .deflate := by
  have hcn : c.type = .normal := by
    cases htype : c.type with
    | normal => rfl
    | deflate => exact absurd htype hc
    | raw => exact absurd htype (hraw c mem_cons_self)
  cases htype : e.type with
  | deflate => rfl
  | raw => exact absurd htype (hraw e (mem_cons_of_mem _ mem_cons_self))
  | normal => exact absurd (decide_eq_true ⟨hcn, htype, by rw [h.2.2.2.1, h.2.1]⟩) hadj

theorem gaps_cons {e : ImageChunk} {x : Nat × Nat} (hstart : e.start = a)
    (h : x ∈ gaps (if e.type = .deflate then a + e.rawDataLen else a) ((deflates cs).map place) b) :
    x ∈ gaps a ((deflates (e :: cs)).map place) b := by
  split at h
  · next he =>
    rw [deflates_cons_of_deflate he]
    exact mem_cons_of_mem _ (hstart.symm ▸ h)
  · next he =>
    rw [deflates_cons_of_ne he]
    exact h

/-- A merged list alternates. Its normal chunks are gaps that each reach from one deflate chunk to
the next, and there is at most one of them more than deflate chunks. -/
theorem mergeFrom_alternates : ∀ {cs : Chunks} {c : ImageChunk} {a : Nat},
    Tiles file a (c :: cs) b → (∀ d ∈ c :: cs, d.type ≠ .raw) →
    (∀ d ∈ mergeFrom c cs, d.type = .normal → (d.start, d.start + d.rawDataLen) ∈
      gaps (if c.type = .deflate then a + c.rawDataLen else a) ((deflates cs).map place) b) ∧
    (mergeFrom c cs).length ≤ 2 * (deflates cs).length + (if c.type = .deflate then 2 else 1)
  | [], c, a, h, _ => by
    refine ⟨fun d hd hn => ?_, by split <;> exact Nat.le_of_ble_eq_true rfl⟩
    obtain rfl := mem_singleton.mp hd
    rw [if_neg (by rw [hn]; decide), h.2.1, show a + d.rawDataLen = b from h.2.2]
    exact mem_singleton.mpr rfl
  | e :: cs, c, a, h, hraw => by
    obtain ⟨hcraw, hraw'⟩ := forall_mem_cons.mp hraw
    rw [mergeFrom]
    split
    · rename_i hadj
      obtain ⟨hc, he, _⟩ := of_decide_eq_true hadj
      have hc' : c.type ≠ .deflate := by rw [hc]; decide
      have hm : (c.mergeAdjacentNormal e).type ≠ .deflate := hc'
      have ih := mergeFrom_alternates h.mergeAdjacent
        (forall_mem_cons.mpr ⟨hcraw, (forall_mem_cons.mp hraw').2⟩)
      rw [if_neg hm, if_neg hm] at ih
      rw [if_neg hc', if_neg hc', deflates_cons_of_ne (by rw [he]; decide)]
      exact ih
    · rename_i hadj
      have hrest := h.2.2
      obtain ⟨hgaps, hlength⟩ := mergeFrom_alternates hrest hraw'
      rw [length_cons]
      by_cases hc : c.type = .deflate
      · rw [if_pos hc, if_pos hc]
        refine ⟨fun d hd hn => ?_, ?_⟩
        · rcases mem_cons.mp hd with rfl | hd
          · exact absurd (hn.symm.trans hc) (by decide)
          · exact gaps_cons hrest.2.1 (hgaps d hd hn)
        · split at hlength
          · next he =>
            rw [deflates_cons_of_deflate he, length_cons]
            omega
          · next he =>
            rw [deflates_cons_of_ne he]
            omega
      · have he := deflate_of_not_adjacent h hraw hc hadj
        rw [if_pos he] at hgaps hlength
        rw [if_neg hc, if_neg hc, deflates_cons_of_deflate he, length_cons]
        refine ⟨fun d hd hn => ?_, by omega⟩
        rcases mem_cons.mp hd with rfl | hd
        · rw [h.2.1, ← hrest.2.1]
          exact mem_cons_self
        · exact mem_cons_of_mem _ (hrest.2.1.symm ▸ hgaps d hd hn)

theorem merge_length (h : Tiles file a cs b) (hraw : ∀ d ∈ cs, d.type ≠ .raw) :
    (mergeAdjacentNormalChunks cs).length ≤ 2 * (deflates cs).length + 1 := by
  cases cs with
  | nil => exact Nat.zero_le _
  | cons c cs =>
    refine Nat.le_trans (mergeFrom_alternates h hraw).2 ?_
    split
    · next hc =>
      rw [deflates_cons_of_deflate hc, length_cons]
      omega
    · next hc => rw [deflates_cons_of_ne hc]

theorem merge_gaps (h : Tiles file a cs b) (hraw : ∀ d ∈ cs, d.type ≠ .raw)
    (hd : d ∈ mergeAdjacentNormalChunks cs) (hn : d.type = .normal) :
    (d.start, d.start + d.rawDataLen) ∈ gaps a ((deflates cs).map place) b := by
  cases cs with
  | nil => cases hd
  | cons c cs => exact gaps_cons h.2.1 ((mergeFrom_alternates h hraw).1 d hd hn)

end Pterodon.ImgDiff.ZipMode
