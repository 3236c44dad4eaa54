import Pterodon.ApplyPatch.SinkSim
import Pterodon.Updater.Stream

/-!
# What a patch leaves on the device

A patch that is applied with a `RangeSinkWriter` as its sink leaves in the target what it
leaves in a buffer with a sink that appends to it. `Written` relates the two: so much
output went to the first addresses of the target. It is kept piece by piece, in both
directions: a piece that the writer takes whole moves `Written` on, and a piece that still
fits is taken whole if nothing is amiss.
-/

namespace Pterodon.Updater

open Lib List ApplyPatch

/-! ## Blocks and addresses -/

theorem toBytes_cons (b : Block) (bs : List Block) : toBytes (b :: bs) = b.toBytes ++ toBytes bs :=
  rfl

theorem toBytes_length (bs : List Block) : (toBytes bs).length = bs.length * BLOCKSIZE := by
  induction bs with
  | nil => simp [toBytes]
  | cons b bs ih =>
    rw [toBytes_cons, length_append, ih, Block.toBytes_length, length_cons,
      Nat.succ_mul, Nat.add_comm]

theorem toBytes_injective : Function.Injective toBytes := by
  intro bs
  induction bs with
  | nil =>
    intro cs h
    have hlen := congrArg List.length h
    rw [toBytes_length, toBytes_length] at hlen
    have hB : BLOCKSIZE ≠ 0 := by decide
    exact (length_eq_zero_iff.mp ((Nat.mul_eq_zero.mp hlen.symm).resolve_right hB)).symm
  | cons b bs ih =>
    intro cs h
    cases cs with
    | nil =>
      have hlen := congrArg List.length h
      rw [toBytes_length] at hlen
      exact absurd hlen (Nat.mul_ne_zero (Nat.succ_ne_zero _) (by decide))
    | cons c cs =>
      obtain ⟨hb, hbs⟩ := append_inj h (by rw [Block.toBytes_length, Block.toBytes_length])
      rw [ih hbs, ← Block.ofBytes_toBytes b, hb, Block.ofBytes_toBytes]

/-- The addresses of a target, in range order. -/
def RangeSet.addresses (tgt : RangeSet) : List Nat := tgt.ranges.flatMap rangeAddresses

theorem addresses_new (tgt : RangeSet) : (RangeSinkWriter.new tgt).addresses = tgt.addresses := rfl

variable {tgt : RangeSet}

theorem mem_addresses {x : Nat} : x ∈ tgt.addresses ↔ x / BLOCKSIZE ∈ tgt.blockList := by
  unfold RangeSet.addresses RangeSet.blockList spread
  rw [mem_flatMap, mem_flatMap]
  simp only [mem_rangeAddresses]

theorem address_lt {cfg : Config} (hon : ∀ b ∈ tgt.blockList, b < cfg.deviceBlocks) :
    ∀ a ∈ tgt.addresses, a < cfg.deviceBlocks * BLOCKSIZE :=
  fun _ ha => (Nat.div_lt_iff_lt_mul (by decide)).mp (hon _ (mem_addresses.mp ha))

theorem flatMap_blockAddresses : ∀ (n b : Nat),
    (List.range' b n).flatMap blockAddresses = List.range' (b * BLOCKSIZE) (n * BLOCKSIZE)
  | 0, b => by simp
  | n + 1, b => by
    rw [range'_succ, flatMap_cons, flatMap_blockAddresses n (b + 1), blockAddresses,
      Nat.succ_mul n, Nat.add_comm (n * BLOCKSIZE), Nat.succ_mul b, ← range'_append_1]

theorem addresses_eq (tgt : RangeSet) : tgt.addresses = tgt.blockList.flatMap blockAddresses := by
  unfold RangeSet.addresses RangeSet.blockList spread
  rw [flatMap_assoc]
  refine flatMap_congr ?_
  intro p _
  exact (flatMap_blockAddresses (p.2 - p.1) p.1).symm

theorem addresses_length (tgt : RangeSet) : tgt.addresses.length = tgt.blocks * BLOCKSIZE := by
  rw [addresses_eq, length_flatMap, ← RangeSet.blockList_length]
  induction tgt.blockList with
  | nil => simp
  | cons b bs ih =>
    rw [map_cons, sum_cons, ih, length_cons, Nat.succ_mul, blockAddresses,
      length_range', Nat.add_comm]

theorem addresses_nodup (h : tgt.blockList.Nodup) : tgt.addresses.Nodup := by
  rw [addresses_eq]
  refine nodup_flatMap.mpr ⟨fun b _ => nodup_range', ?_⟩
  refine List.Pairwise.imp ?_ h
  intro b c hne x hb hc
  exact hne ((mem_blockAddresses.mp hb).symm.trans (mem_blockAddresses.mp hc))

theorem bytesAt_block (device : Nat → Block) (b : Nat) :
    bytesAt device (blockAddresses b) = (device b).toBytes := by
  have hlen : (device b).toBytes.length = BLOCKSIZE := Block.toBytes_length _
  unfold blockAddresses
  rw [← hlen]
  refine bytesAt_range' ?_
  intro x h₁ h₂
  rw [hlen] at h₁ h₂
  have hx : x / BLOCKSIZE = b := mem_blockAddresses.mp (mem_range'_1.mpr ⟨h₁, h₂⟩)
  have hmod : x % BLOCKSIZE = x - b * BLOCKSIZE := by
    have := Nat.div_add_mod x BLOCKSIZE
    rw [hx, Nat.mul_comm] at this
    omega
  unfold byteAt
  rw [hx, hmod, hlen]

theorem bytesAt_addresses (tgt : RangeSet) (device : Nat → Block) :
    bytesAt device tgt.addresses = toBytes (tgt.contents device) := by
  rw [addresses_eq]
  unfold RangeSet.contents
  induction tgt.blockList with
  | nil => rfl
  | cons b bs ih =>
    rw [map_cons, toBytes_cons, ← ih, ← bytesAt_block]
    exact map_append

/-! ## The writer and the buffer -/

/-- At every mark, what is discarded has its slots still to come. -/
def Covered : List (Item (Nat × Nat) Nat) → Prop
  | [] => True
  | .mark p :: form => (∀ x ∈ rangeAddresses p, x ∈ slots form) ∧ Covered form
  | .slot _ :: form => Covered form

theorem covered_row {form : List (Item (Nat × Nat) Nat)} (h : Covered form) :
    ∀ as : List Nat, Covered (as.map .slot ++ form)
  | [] => h
  | _ :: as => covered_row h as

theorem covered_ranges : ∀ ps : Pairs, Covered (ps.flatMap rangeItems)
  | [] => trivial
  | p :: ps => by
    refine ⟨fun x hx => ?_, covered_row (covered_ranges ps) _⟩
    show x ∈ slots ((rangeAddresses p).map .slot ++ ps.flatMap rangeItems)
    rw [slots_append, slots_row]
    exact mem_append_left _ hx

theorem put_of_not_mem {x : Nat} : ∀ {us : List (Nat × UInt8)} {bytes : Nat → UInt8},
    x ∉ us.map Prod.fst → put bytes us x = bytes x
  | [], _, _ => rfl
  | u :: us, bytes, h => by
    obtain ⟨hne, hrest⟩ := not_or.mp (mt mem_cons.mpr h)
    exact (put_of_not_mem hrest).trans (Function.update_of_ne hne _ _)

theorem itemUpdates_mark {cfg : Config} {p : Nat × Nat} {x : Nat}
    (h : x ∈ (itemUpdates cfg (.mark p)).map Prod.fst) : x ∈ rangeAddresses p := by
  obtain ⟨u, hu, rfl⟩ := mem_map.mp h
  rw [itemUpdates] at hu
  split at hu
  · obtain ⟨b, hb, hzip⟩ := mem_flatMap.mp hu
    rw [mem_rangeAddresses, mem_blockAddresses.mp (of_mem_zip hzip).1]
    exact hb
  · cases hu

/-- If no slot comes twice, the data is in the slots in the end, and nothing else has changed. -/
theorem put_fill {cfg : Config} {form : List (Item (Nat × Nat) Nat)} (hc : Covered form)
    (hnd : (slots form).Nodup) {data : Bytes} {bytes : Nat → UInt8}
    (hlen : data.length ≤ (slots form).length) :
    ((slots form).take data.length).map
        (put bytes ((fill form data).1.flatMap (itemUpdates cfg))) = data ∧
      ∀ x ∉ slots form, put bytes ((fill form data).1.flatMap (itemUpdates cfg)) x = bytes x := by
  induction form generalizing data bytes with
  | nil =>
    obtain rfl := length_eq_zero_iff.mp (Nat.le_zero.mp hlen)
    exact ⟨rfl, fun _ _ => rfl⟩
  | cons item form ih =>
    cases data with
    | nil =>
      exact ⟨rfl, fun _ _ => rfl⟩
    | cons c data =>
      cases item with
      | mark p =>
        obtain ⟨hbytes, helse⟩ := @ih hc.2 hnd (c :: data)
          (put bytes (itemUpdates cfg (.mark p))) hlen
        rw [fill, flatMap_cons, put_append]
        refine ⟨hbytes, fun x hx => (helse x hx).trans (put_of_not_mem fun hmem => ?_)⟩
        exact hx (hc.1 x (itemUpdates_mark hmem))
      | slot a =>
        obtain ⟨ha, hnd⟩ := nodup_cons.mp hnd
        obtain ⟨hbytes, helse⟩ := @ih hc hnd data (Function.update bytes a c)
          (Nat.le_of_succ_le_succ hlen)
        refine ⟨congrArg₂ _ ?_ hbytes, fun x hx => ?_⟩
        · exact (helse a ha).trans (Function.update_self ..)
        · obtain ⟨hne, hx⟩ := not_or.mp (mt mem_cons.mpr hx)
          exact (helse x hx).trans (Function.update_of_ne hne _ _)

/-- `out` was filled in, and only the blocks of the target were touched. -/
structure Written (cfg : Config) (tgt : RangeSet) (faults : List Bool) (s : SinkState)
    (out : Bytes) : Prop where
  confined : Confined (· ∈ tgt.blockList) faults s.trace s.faults
  length_le : out.length ≤ tgt.addresses.length
  form : s.writer.form = (fill (tgt.ranges.flatMap rangeItems) out).2
  renders : Renders cfg s.trace (fill (tgt.ranges.flatMap rangeItems) out).1

section Written

variable {cfg : Config} {S : Nat → Prop} {faults : List Bool} {s : SinkState} {out x : Bytes}

theorem written_new (cfg : Config) (tgt : RangeSet) (offset : Nat) (faults : List Bool) :
    Written cfg tgt faults ⟨⟨tgt.ranges, offset, 0⟩, [], faults⟩ [] where
  confined := .nil 0
  length_le := Nat.zero_le _
  form := by
    rw [fill_nil]
    rfl
  renders := by
    rw [fill_nil]
    exact renders_nil

theorem Written.addresses (h : Written cfg tgt faults s out) :
    s.writer.addresses = tgt.addresses.drop out.length := by
  rw [← slots_form, h.form, (slots_fill _ _).2, slots_ranges]
  rfl

theorem Written.bytes (h : Written cfg tgt faults s out) (hnd : tgt.addresses.Nodup) (d : Disk) :
    bytesAt (acts s.trace d).device (tgt.addresses.take out.length) = out := by
  have hslots : slots (tgt.ranges.flatMap rangeItems) = tgt.addresses := slots_ranges tgt.ranges
  have hput := @put_fill cfg _ (covered_ranges tgt.ranges) (by rw [hslots]; exact hnd) out
    (byteAt d.device) (by rw [hslots]; exact h.length_le)
  rw [hslots, ← h.renders.updates, ← byteAt_acts h.renders.inBlock] at hput
  exact hput.1

theorem addresses_of_finished (h : s.writer.finished = true) : s.writer.addresses = [] := by
  obtain ⟨hp, hl⟩ := of_decide_eq_true h
  unfold RangeSinkWriter.addresses addressesOf
  rw [hp, hl]
  rfl

theorem rangeSink_spec (cfg : Config) (x : Bytes) (h : ¬ s.writer.finished = true)
    (hS : ∀ a ∈ s.writer.addresses, S (a / BLOCKSIZE)) :
    ∃ t, LoopSpec cfg S s.writer x s.trace s.faults (rangeSink cfg s x) t := by
  unfold rangeSink
  rw [if_neg h]
  exact writeLoop_spec hS

theorem rangeSink_finished (h : s.writer.finished = true) : rangeSink cfg s x = (s, 0) := by
  unfold rangeSink
  rw [if_pos h]

theorem Written.step (h : Written cfg tgt faults s out) (hok : (rangeSink cfg s x).2 = x.length) :
    Written cfg tgt faults (rangeSink cfg s x).1 (out ++ x) := by
  by_cases hfin : s.writer.finished = true
  · rw [rangeSink_finished hfin] at hok ⊢
    rwa [length_eq_zero_iff.mp hok.symm, append_nil]
  have hS : ∀ a ∈ s.writer.addresses, a / BLOCKSIZE ∈ tgt.blockList := by
    intro a ha
    rw [h.addresses] at ha
    exact mem_addresses.mp (mem_of_mem_drop ha)
  obtain ⟨t, ht⟩ := rangeSink_spec cfg x hfin hS
  obtain ⟨hfit, hform, hrun⟩ := ht.whole hok
  have hlen := congrArg List.length h.addresses
  rw [length_drop] at hlen
  rw [h.form] at hform hrun
  refine ⟨?_, ?_, ?_, ?_⟩
  · rw [ht.trace_eq]
    exact h.confined.trans ht.confined
  · have := h.length_le
    rw [length_append]
    omega
  · rw [hform, fill_append]
  · rw [ht.trace_eq, fill_append]
    exact h.renders.append hrun

theorem rangeSink_payload (h : s.writer.finished = false)
    (hlen : (rangeSink cfg s x).2 = x.length) :
    payload (rangeSink cfg s x).1.trace =
        payload s.trace ++ (s.writer.addresses.take x.length).zip x ∧
      (rangeSink cfg s x).1.writer.addresses = s.writer.addresses.drop x.length ∧
      ∀ p ∈ (rangeSink cfg s x).1.writer.pending, p ∈ s.writer.pending := by
  have hmore : ¬ s.writer.finished = true := by rw [h]; exact Bool.false_ne_true
  obtain ⟨t, ht⟩ := rangeSink_spec (S := fun _ => True) cfg x hmore fun _ _ => trivial
  obtain ⟨hfit, hform, hrun⟩ := ht.whole hlen
  refine ⟨?_, ?_, fun p hp => ?_⟩
  · rw [ht.trace_eq, payload_append, hrun.payload, (slots_fill _ _).1, slots_form,
      zip_eq_zip_take_min, Nat.min_eq_right hfit, take_length]
  · rw [← slots_form, hform, (slots_fill _ _).2, slots_form]
  · have hmark := RangeSinkWriter.mark_mem_form.mpr hp
    rw [hform] at hmark
    exact RangeSinkWriter.mark_mem_form.mp ((fill_suffix _ _).mem hmark)

theorem Written.taken (hfit : ∀ a ∈ tgt.addresses, a < cfg.deviceBlocks * BLOCKSIZE)
    (h : Written cfg tgt [] s out) (hlen : (out ++ x).length ≤ tgt.addresses.length) :
    (rangeSink cfg s x).2 = x.length := by
  have haddr := h.addresses
  have hleft := congrArg List.length haddr
  rw [length_append] at hlen
  rw [length_drop] at hleft
  by_cases hfin : s.writer.finished = true
  · rw [addresses_of_finished hfin, length_nil] at hleft
    rw [rangeSink_finished hfin]
    omega
  obtain ⟨t, ht⟩ := rangeSink_spec (S := fun _ => True) cfg x hfin fun _ _ => trivial
  refine ht.taken h.confined.smooth (by omega) fun a ha => hfit a ?_
  rw [haddr] at ha
  exact mem_of_mem_drop ha

/-- What goes to the device would have gone to a buffer. -/
theorem sinkSim_range_memory :
    SinkSim (rangeSink cfg) memorySink (Written cfg tgt faults) (fun _ => True) where
  step _ _ _ _ hr hok _ := ⟨rfl, hr.step hok⟩
  down _ _ _ _ _ := trivial

theorem sinkSim_memory_range (hfit : ∀ a ∈ tgt.addresses, a < cfg.deviceBlocks * BLOCKSIZE) :
    SinkSim memorySink (rangeSink cfg) (fun out s => Written cfg tgt [] s out)
      (fun out => out.length ≤ tgt.addresses.length) where
  step _ _ _ _ hr _ hlen := ⟨hr.taken hfit hlen, hr.step (hr.taken hfit hlen)⟩
  down out x _ _ hlen := by
    have : (out ++ x).length ≤ tgt.addresses.length := hlen
    rw [length_append] at this
    omega

theorem rangeSink_touches (hS : ∀ a ∈ s.writer.addresses, S (a / BLOCKSIZE))
    (h : Touches S s.trace) : Touches S (rangeSink cfg s x).1.trace := by
  by_cases hfin : s.writer.finished = true
  · rw [rangeSink_finished hfin]
    exact h
  obtain ⟨t, ht⟩ := rangeSink_spec cfg x hfin hS
  rw [ht.trace_eq]
  exact h.append ht.confined.touches

/-! ## New data -/

theorem availableSpace_eq (w : RangeSinkWriter) : w.availableSpace = w.addresses.length := by
  unfold RangeSinkWriter.availableSpace RangeSinkWriter.addresses addressesOf
  rw [length_append, length_range', length_flatMap]
  congr 2
  exact map_congr_left (fun p _ => (length_range' ..).symm)

theorem finished_of_addresses (hp : ∀ p ∈ s.writer.pending, p.1 < p.2)
    (h : s.writer.addresses = []) : s.writer.finished = true := by
  obtain ⟨hleft, hpending⟩ := append_eq_nil_iff.mp h
  have hl : s.writer.left = 0 := by simpa using hleft
  have hnil : s.writer.pending = [] := by
    cases hcase : s.writer.pending with
    | nil => rfl
    | cons p ps =>
      rw [hcase] at hpending hp
      have hlt := hp p mem_cons_self
      have hzero : rangeAddresses p = [] := (append_eq_nil_iff.mp hpending).1
      unfold rangeAddresses RangeSinkWriter.rangeBytes at hzero
      rw [range'_eq_nil_iff] at hzero
      have hB : BLOCKSIZE ≠ 0 := by decide
      have := (Nat.mul_eq_zero.mp hzero).resolve_right hB
      omega
  exact decide_eq_true ⟨hnil, hl⟩

theorem Written.finished_iff (h : Written cfg tgt faults s out) :
    s.writer.finished = true ↔ out.length = tgt.addresses.length := by
  have hle := h.length_le
  constructor
  · intro hfin
    have hnil := addresses_of_finished hfin
    rw [h.addresses, drop_eq_nil_iff] at hnil
    omega
  · intro hlen
    refine finished_of_addresses (fun p hp => ?_) ?_
    · have hmark := RangeSinkWriter.mark_mem_form.mpr hp
      rw [h.form] at hmark
      exact tgt.ordered p (@RangeSinkWriter.mark_mem_form p (.new tgt) |>.mp
        ((fill_suffix _ _).mem hmark))
    · rw [h.addresses, hlen, drop_length]

theorem receiveNewData_ok (hfit : ∀ a ∈ tgt.addresses, a < cfg.deviceBlocks * BLOCKSIZE)
    (pieces : List Bytes) (hw : Written cfg tgt [] s out)
    (hlt : out.length < tgt.addresses.length)
    (hge : tgt.addresses.length ≤ out.length + pieces.flatten.length) :
    ∃ s' rest, receiveNewData cfg pieces s = (s', some rest) ∧
      Written cfg tgt [] s' (out ++ pieces.flatten.take (tgt.addresses.length - out.length)) ∧
      rest.flatten = pieces.flatten.drop (tgt.addresses.length - out.length) := by
  induction pieces generalizing s out with
  | nil =>
    rw [flatten_nil, length_nil] at hge
    omega
  | cons data pieces ih =>
    have hspace : s.writer.availableSpace = tgt.addresses.length - out.length := by
      rw [availableSpace_eq, hw.addresses, length_drop]
    rw [flatten_cons, length_append] at hge
    rw [flatten_cons]
    generalize hm : tgt.addresses.length - out.length = m at hspace ⊢
    generalize hx : data.take (min data.length m) = x
    have hxlen : x.length = min data.length m := by
      rw [← hx, length_take]
      omega
    have htaken : (rangeSink cfg s x).2 = x.length := by
      refine hw.taken hfit ?_
      rw [length_append, hxlen]
      omega
    have hw₁ := hw.step htaken
    have hfull := hw₁.finished_iff
    rw [length_append] at hfull
    unfold receiveNewData
    dsimp only
    rw [hspace, hx, if_neg (by rw [htaken, hxlen]; simp)]
    split
    · -- the target is full
      rename_i hfin
      have hmin : min data.length m = m := by
        have := hfull.mp hfin
        omega
      have hle : m ≤ data.length := by omega
      refine ⟨_, _, rfl, ?_, ?_⟩
      · rw [take_append_of_le_length hle, ← hmin, hx]
        exact hw₁
      · rw [hmin, flatten_cons, drop_append_of_le_length hle]
    · -- the next piece goes on
      rename_i hfin
      have hmore : out.length + x.length ≠ tgt.addresses.length := fun h => hfin (hfull.mpr h)
      obtain rfl : x = data := by
        rw [← hx]
        exact take_of_length_le (by omega)
      have hgap : m = x.length + (tgt.addresses.length - (out ++ x).length) := by
        rw [length_append]
        omega
      obtain ⟨s', rest, hrun, hw', hrest⟩ := ih hw₁ (by omega) (by omega)
      refine ⟨s', rest, hrun, ?_, ?_⟩
      · rw [hgap, take_length_add_append, ← append_assoc]
        exact hw'
      · rw [hgap, drop_length_add_append]
        exact hrest

end Written

theorem wp_withSink {α : Type} {I : List Event → Disk → Prop} {Q : Post α} {E : Post Halt}
    {h : List Event} {v : Params} {d : Disk} {f : SinkState → SinkState × α} {s : SinkState} {a : α}
    (hf : f ⟨.new tgt, [], v.faults⟩ = (s, a)) (hi : Along I h s.trace d)
    (hq : Q a (h ++ s.trace) { v with faults := s.faults } (acts s.trace d)) :
    wp I (withSink tgt f) Q E h v d := by
  unfold wp withSink
  rw [hf]
  exact ⟨hi, hq⟩

end Pterodon.Updater
