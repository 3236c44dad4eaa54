import Pterodon.Lib.Feed
import Pterodon.Updater.Frame

/-!
# What a range sink has written

The ranges of a target are a form: for each range a mark, at which a retry discards it, and a slot
for each of its byte addresses. A `RangeSinkWriter` fills in this form from a stream of bytes. A
piece that it takes whole fills the next slots, and with nothing amiss every piece that fits is
taken whole. The events of the writer put the bytes of the filled slots to their addresses, one
after the other.
-/

namespace Pterodon.Updater

open Lib List ApplyPatch RangeSinkWriter Function

variable {cfg : Config} {device : Nat → Block} {a : Nat} {t t' : List Event} {p : Nat × Nat}
  {ps : Pairs} {S : Nat → Prop} {data : Bytes} {faults : List Bool}

/-! ## Bytes of the device -/

namespace Block

theorem toBytes_length (b : Block) : b.toBytes.length = BLOCKSIZE := leBytes_length _ _

theorem toBytes_ofBytes {bytes : Bytes} (h : bytes.length = BLOCKSIZE) :
    (ofBytes bytes).toBytes = bytes := by
  have hlt : leNat bytes < 2 ^ (8 * 4096) := by
    have := leNat_lt bytes
    rw [h] at this
    rwa [Nat.pow_mul]
  unfold ofBytes toBytes
  rw [BitVec.toNat_ofNat, Nat.mod_eq_of_lt hlt, ← h]
  exact leBytes_leNat bytes

theorem ofBytes_toBytes (b : Block) : ofBytes b.toBytes = b := by
  have hlt : b.toNat < 256 ^ BLOCKSIZE := by
    have := b.isLt
    rwa [Nat.pow_mul] at this
  unfold ofBytes toBytes
  rw [leNat_leBytes hlt]
  exact BitVec.ofNat_toNat _ b |>.trans (by simp)

theorem toBytes_splice (b : Block) {offset : Nat} {data : Bytes}
    (h : offset + data.length ≤ BLOCKSIZE) :
    (b.splice offset data).toBytes
      = b.toBytes.take offset ++ data ++ b.toBytes.drop (offset + data.length) := by
  refine toBytes_ofBytes ?_
  rw [length_append, length_append, length_take, length_drop, toBytes_length]
  omega

end Block

def byteAt (device : Nat → Block) (a : Nat) : UInt8 :=
  (device (a / BLOCKSIZE)).toBytes.getD (a % BLOCKSIZE) 0

theorem byteAt_congr {device' : Nat → Block}
    (h : device' (a / BLOCKSIZE) = device (a / BLOCKSIZE)) : byteAt device' a =
      byteAt device a := by
  unfold byteAt
  rw [h]

def blockAddresses (b : Nat) : List Nat := List.range' (b * BLOCKSIZE) BLOCKSIZE

theorem mem_blockAddresses {b x : Nat} : x ∈ blockAddresses b ↔ x / BLOCKSIZE = b := by
  have hB : 0 < BLOCKSIZE := by decide
  unfold blockAddresses
  rw [mem_range'_1, Nat.div_eq_iff hB]
  omega

theorem byteAt_write (d : Disk) (h : a % BLOCKSIZE + data.length ≤ BLOCKSIZE) (x : Nat) :
    byteAt (Effect.act (Event.write a data) d).device x
      = if a ≤ x ∧ x < a + data.length then data.getD (x - a) 0 else byteAt d.device x := by
  show byteAt (update d.device (a / BLOCKSIZE) _) x = _
  have ha := Nat.div_add_mod' a BLOCKSIZE
  have hx := Nat.div_add_mod' x BLOCKSIZE
  by_cases hb : x / BLOCKSIZE = a / BLOCKSIZE
  · rw [hb] at hx
    unfold byteAt
    rw [hb, update_self, Block.toBytes_splice _ h]
    have hlen := Block.toBytes_length (d.device (a / BLOCKSIZE))
    simp only [getD_eq_getElem?_getD]
    by_cases h₁ : x < a
    · rw [if_neg (by omega), append_assoc, getElem?_append_left
        (by rw [length_take]; omega), getElem?_take_of_lt (by omega)]
    · by_cases h₂ : x < a + data.length
      · rw [if_pos ⟨by omega, h₂⟩, append_assoc, getElem?_append_right
          (by rw [length_take]; omega), getElem?_append_left
          (by rw [length_take]; omega), length_take]
        congr 2
        omega
      · rw [if_neg (by omega), getElem?_append_right
          (by rw [length_append, length_take]; omega), getElem?_drop, length_append, length_take]
        congr 2
        omega
  · have hno : ¬ (a ≤ x ∧ x < a + data.length) := fun ⟨h₁, h₂⟩ =>
      hb (mem_blockAddresses.mp (mem_range'_1.mpr ⟨by omega, by omega⟩))
    rw [if_neg hno]
    exact byteAt_congr (update_of_ne hb _ _)

/-! ## Bytes with their addresses -/

/-- The bytes that an event writes, each with its address. -/
def Event.payload : Event → List (Nat × UInt8)
  | .write address data => (List.range' address data.length).zip data
  | _ => []

def payload (trace : List Event) : List (Nat × UInt8) := trace.flatMap Event.payload

theorem payload_append (t t' : List Event) : payload (t ++ t') = payload t ++ payload t' :=
  flatMap_append ..

/-- Change bytes one after the other. -/
def put (bytes : Nat → UInt8) (updates : List (Nat × UInt8)) : Nat → UInt8 :=
  updates.foldl (fun bytes u => Function.update bytes u.1 u.2) bytes

theorem put_append (bytes : Nat → UInt8) (us us' : List (Nat × UInt8)) :
    put bytes (us ++ us') = put (put bytes us) us' := foldl_append

theorem put_run : ∀ (data : Bytes) (bytes : Nat → UInt8) (a x : Nat),
    put bytes ((List.range' a data.length).zip data) x =
      if a ≤ x ∧ x < a + data.length then data.getD (x - a) 0 else bytes x
  | [], bytes, a, x => by
    rw [if_neg (by rw [length_nil]; omega)]
    rfl
  | c :: data, bytes, a, x => by
    have ih := put_run data (update bytes a c) (a + 1) x
    have hstep : put bytes ((range' a (c :: data).length).zip (c :: data)) =
        put (update bytes a c) ((range' (a + 1) data.length).zip data) := by
      rfl
    rw [hstep, ih, length_cons]
    rcases Nat.lt_trichotomy x a with hlt | rfl | hgt
    · rw [if_neg (by omega), if_neg (by omega), update_of_ne (by omega)]
    · rw [if_neg (by omega), if_pos (by omega), update_self, Nat.sub_self]
      rfl
    · by_cases hin : x < a + (data.length + 1)
      · have hsub : x - a = (x - (a + 1)) + 1 := by omega
        rw [if_pos (by omega), if_pos (by omega), hsub, getD_cons_succ]
      · rw [if_neg (by omega), if_neg (by omega), update_of_ne (by omega)]

/-- The bytes an event changes, in order. -/
def byteUpdates : Event → List (Nat × UInt8)
  | .write address data => (List.range' address data.length).zip data
  | .writeBlock block data => (blockAddresses block).zip data.toBytes
  | .discard block data => (blockAddresses block).zip data.toBytes
  | _ => []

/-- A write that stays in its block, as all writes do. -/
def Event.InBlock : Event → Prop
  | .write address data => address % BLOCKSIZE + data.length ≤ BLOCKSIZE
  | _ => True

theorem byteAt_update (device : Nat → Block) (b : Nat) (data : Block) (x : Nat) :
    byteAt (update device b data) x =
      put (byteAt device) ((blockAddresses b).zip data.toBytes) x := by
  have hrun := put_run data.toBytes (byteAt device) (b * BLOCKSIZE) x
  rw [Block.toBytes_length] at hrun
  unfold blockAddresses
  rw [hrun]
  by_cases hb : x / BLOCKSIZE = b
  · rw [if_pos (mem_range'_1.mp (mem_blockAddresses.mpr hb))]
    unfold byteAt
    have hsub : x - b * BLOCKSIZE = x % BLOCKSIZE := by
      have := Nat.div_add_mod' x BLOCKSIZE
      rw [hb] at this
      omega
    rw [hb, update_self, hsub]
  · rw [if_neg fun h => hb (mem_blockAddresses.mp (mem_range'_1.mpr h))]
    exact byteAt_congr (update_of_ne hb _ _)

theorem byteAt_act {e : Event} (he : e.InBlock) (d : Disk) :
    byteAt (Effect.act e d).device = put (byteAt d.device) (byteUpdates e) := by
  funext x
  cases e with
  | write address data =>
    rw [byteAt_write d he x]
    exact (put_run data (byteAt d.device) address x).symm
  | writeBlock block data | discard block data => exact byteAt_update d.device block data x
  | _ => rfl

theorem byteAt_acts : ∀ {t : List Event}, (∀ e ∈ t, e.InBlock) → ∀ d : Disk,
    byteAt (acts t d).device = put (byteAt d.device) (t.flatMap byteUpdates)
  | [], _, _ => rfl
  | e :: t, h, d => by
    rw [acts_cons, byteAt_acts (forall_mem_cons.mp h).2,
      byteAt_act (h e mem_cons_self), flatMap_cons, put_append]

/-! ## Events on some blocks -/

/-- All events are on blocks of `S`. -/
def Touches (S : Nat → Prop) (t : List Event) : Prop := ∀ e ∈ t, ∃ b, e.block? = some b ∧ S b

theorem Touches.append (h : Touches S t) (h' : Touches S t') : Touches S (t ++ t') :=
  forall_mem_append.mpr ⟨h, h'⟩

theorem Touches.frame : ∀ {t : List Event} {d : Disk}, Touches S t →
    Frame S d (acts t d)
  | [], d, _ => Frame.refl S d
  | e :: t, d, h => by
    obtain ⟨b, hb, hS⟩ := h e mem_cons_self
    have hrest : Touches S t := fun e' he' => h e' (mem_cons_of_mem _ he')
    exact (frame_act d hb hS).trans hrest.frame

theorem Touches.along {I : List Event → Disk → Prop} :
    ∀ {t h : List Event} {d : Disk}, Touches S t → (∀ h' d', Frame S d d' → I h' d') →
      Along I h t d
  | [], _, _, _, _ => trivial
  | e :: t, h, d, ht, hi => by
    obtain ⟨b, hb, hS⟩ := ht e mem_cons_self
    have hrest : Touches S t := fun e' he' => ht e' (mem_cons_of_mem _ he')
    have hf := frame_act d hb hS
    exact ⟨hi _ _ hf, hrest.along (fun h' d' hf' => hi h' d' (hf.trans hf'))⟩

/-- The events are on blocks of `S`, and some outcomes of system calls were taken. -/
structure Confined (S : Nat → Prop) (faults : List Bool) (t : List Event) (faults' : List Bool) :
    Prop where
  touches : Touches S t
  faults_eq : ∃ n, faults' = faults.drop n

namespace Confined

theorem nil (n : Nat) : Confined S faults [] (faults.drop n) :=
  ⟨fun _ he => absurd he not_mem_nil, n, rfl⟩

theorem trans {faults' faults'' : List Bool} (h : Confined S faults t faults')
    (h' : Confined S faults' t' faults'') : Confined S faults (t ++ t') faults'' := by
  obtain ⟨n, hn⟩ := h.faults_eq
  obtain ⟨m, hm⟩ := h'.faults_eq
  exact ⟨h.touches.append h'.touches, n + m, by rw [hm, hn, drop_drop]⟩

theorem smooth (h : Confined S [] t faults) : faults = [] := by
  obtain ⟨n, hn⟩ := h.faults_eq
  rw [hn, drop_nil]

end Confined

/-! ## Forms -/

def rangeAddresses (p : Nat × Nat) : List Nat :=
  List.range' (p.1 * BLOCKSIZE) (RangeSinkWriter.rangeBytes p)

theorem mem_rangeAddresses {x : Nat} : x ∈ rangeAddresses p ↔ x / BLOCKSIZE ∈ numbers p := by
  have hB : 0 < BLOCKSIZE := by decide
  unfold rangeAddresses rangeBytes
  rw [mem_range'_1, mem_numbers, ← Nat.add_mul,
    Nat.le_div_iff_mul_le hB, Nat.div_lt_iff_lt_mul hB]
  rcases Nat.le_total p.1 p.2 with hle | hle
  · rw [Nat.add_sub_cancel' hle]
  · rw [Nat.sub_eq_zero_of_le hle, Nat.add_zero]
    have := Nat.mul_le_mul_right BLOCKSIZE hle
    omega

/-- What a range is to the form: a mark, and a slot for each byte. -/
def rangeItems (p : Nat × Nat) : List (Item (Nat × Nat) Nat) :=
  .mark p :: (rangeAddresses p).map .slot

/-- The bytes that change: at a mark, with a retry, those of the whole range. -/
def itemUpdates (cfg : Config) : Item (Nat × Nat) (Nat × UInt8) → List (Nat × UInt8)
  | .mark p =>
    if cfg.isRetry then
      (numbers p).flatMap fun b => (blockAddresses b).zip (cfg.discarded b).toBytes
    else []
  | .slot u => [u]

theorem flatMap_slot (cfg : Config) (us : List (Nat × UInt8)) :
    (us.map Item.slot).flatMap (itemUpdates cfg) = us := by
  rw [flatMap_map]
  exact flatMap_singleton' us

/-- The events do what the filled items say. -/
structure Renders (cfg : Config) (t : List Event) (items : List (Item (Nat × Nat) (Nat × UInt8))) :
    Prop where
  inBlock : ∀ e ∈ t, e.InBlock
  updates : t.flatMap byteUpdates = items.flatMap (itemUpdates cfg)
  payload : payload t = slots items

theorem Renders.append {items items' : List (Item (Nat × Nat) (Nat × UInt8))}
    (h : Renders cfg t items) (h' : Renders cfg t' items') :
    Renders cfg (t ++ t') (items ++ items') where
  inBlock e he := (mem_append.mp he).elim (h.inBlock e) (h'.inBlock e)
  updates := by rw [flatMap_append, flatMap_append, h.updates, h'.updates]
  payload := by rw [payload_append, slots_append, h.payload, h'.payload]

theorem renders_nil : Renders cfg [] [] := ⟨fun _ he => absurd he not_mem_nil, rfl, rfl⟩

theorem renders_write (h : a % BLOCKSIZE + data.length ≤ BLOCKSIZE) :
    Renders cfg [.write a data] (((range' a data.length).zip data).map .slot) where
  inBlock := forall_mem_singleton.mpr h
  updates := by
    rw [flatMap_slot]
    exact append_nil _
  payload := by
    rw [slots_row]
    exact append_nil _

/-! ## `write_all` and `SeekToOutputRange` -/

theorem writeAll_confined {fuel : Nat} (hS : ∀ x, a ≤ x → x < a + data.length → S (x / BLOCKSIZE)) :
    Confined S faults (writeAll cfg fuel a data faults).1 (writeAll cfg fuel a data
      faults).2.1 := by
  induction fuel generalizing a data faults with
  | zero => exact .nil 0
  | succ fuel ih =>
    rw [writeAll]
    split
    · exact .nil 0
    rename_i hdata
    have hpos : 0 < data.length := length_pos_iff.mpr hdata
    split
    · rw [pop_snd]
      exact .nil 1
    · refine Confined.trans ⟨forall_mem_singleton.mpr ?_, 1, pop_snd faults⟩ (ih ?_)
      · exact ⟨a / BLOCKSIZE, rfl, hS a (Nat.le_refl a) (by omega)⟩
      · intro x h₁ h₂
        rw [length_drop] at h₂
        exact hS x (by omega) (by omega)

theorem renders_writeAll {fuel : Nat} (hfuel : data.length ≤ fuel)
    (hok : (writeAll cfg fuel a data faults).2.2 = true) :
    Renders cfg (writeAll cfg fuel a data faults).1
      (((range' a data.length).zip data).map .slot) := by
  induction fuel generalizing a data faults with
  | zero =>
    rw [length_eq_zero_iff.mp (Nat.le_zero.mp hfuel)]
    exact renders_nil
  | succ fuel ih =>
    rw [writeAll] at hok ⊢
    split at hok
    · rename_i hnil
      rw [hnil]
      exact renders_nil
    rename_i hnil
    have hmod : a % BLOCKSIZE < BLOCKSIZE := Nat.mod_lt a (by decide)
    rw [if_neg hnil]
    split at hok
    · cases hok
    rename_i hgood
    rw [if_neg hgood]
    generalize hsize : BLOCKSIZE - a % BLOCKSIZE = size at hok ⊢
    have hrest := ih (by rw [length_drop]; omega) hok
    have hfirst : Renders cfg [.write a (data.take size)] _ :=
      renders_write (by rw [length_take]; omega)
    have hzip : (range' a data.length).zip data =
        (range' a (data.take size).length).zip (data.take size) ++
          (range' (a + size) (data.drop size).length).zip (data.drop size) := by
      rcases Nat.lt_or_ge size data.length with hlt | hge
      · rw [length_take, Nat.min_eq_left (Nat.le_of_lt hlt), length_drop,
          ← zip_append (by rw [length_range', length_take, Nat.min_eq_left (Nat.le_of_lt hlt)]),
          take_append_drop, range'_append_1, Nat.add_sub_cancel' (Nat.le_of_lt hlt)]
      · rw [take_of_length_le hge, drop_eq_nil_of_le hge, zip_nil_right, append_nil]
    rw [hzip, map_append]
    exact hfirst.append hrest

theorem writeAll_ok {fuel : Nat} (hfit : a + data.length ≤ cfg.deviceBlocks * BLOCKSIZE) :
    (writeAll cfg fuel a data []).2.2 = true := by
  have hB : 0 < BLOCKSIZE := by decide
  induction fuel generalizing a data with
  | zero => rfl
  | succ fuel ih =>
    unfold writeAll
    split
    · rfl
    rename_i hdata
    have hpos : 0 < data.length := length_pos_iff.mpr hdata
    have hblock : a / BLOCKSIZE < cfg.deviceBlocks :=
      (Nat.div_lt_iff_lt_mul hB).mpr (by omega)
    split
    · rename_i hbad
      have : ¬ cfg.deviceBlocks ≤ a / BLOCKSIZE := by omega
      exact absurd hbad (by simp [pop, this])
    · show (writeAll cfg fuel _ _ []).2.2 = true
      by_cases hlt : BLOCKSIZE - a % BLOCKSIZE < data.length
      · exact ih (by rw [length_drop]; omega)
      · rw [drop_of_length_le (by omega)]
        cases fuel with
        | zero => rfl
        | succ fuel => rfl

theorem seek_confined (hS : ∀ b ∈ numbers p, S b) :
    Confined S faults (seekToOutputRange cfg p faults).1 (seekToOutputRange cfg p faults).2.1 := by
  unfold seekToOutputRange
  split
  · exact .nil 0
  split
  · exact ⟨fun _ he => absurd he not_mem_nil, 1, pop_snd faults⟩
  · refine ⟨fun e he => ?_, 1, pop_snd faults⟩
    obtain ⟨b, hb, rfl⟩ := mem_map.mp he
    exact ⟨b, rfl, hS b hb⟩

theorem seek_ok (cfg : Config) (p : Nat × Nat) : (seekToOutputRange cfg p []).2.2 = true := by
  unfold seekToOutputRange
  split
  · rfl
  · rfl

theorem renders_seek (hok : (seekToOutputRange cfg p faults).2.2 = true) :
    Renders cfg (seekToOutputRange cfg p faults).1 [.mark p] := by
  unfold seekToOutputRange at hok ⊢
  cases hretry : cfg.isRetry with
  | false => exact ⟨fun _ he => absurd he not_mem_nil, by simp [itemUpdates, hretry], rfl⟩
  | true =>
    rw [hretry] at hok
    cases hpop : (pop faults).1 with
    | false =>
      rw [hpop] at hok
      cases hok
    | true =>
      refine ⟨fun e he => ?_, ?_, flatMap_eq_nil_iff.mpr fun e he => ?_⟩
      · obtain ⟨b, _, rfl⟩ := mem_map.mp he
        trivial
      · simp [itemUpdates, hretry, flatMap_map, byteUpdates]
      · obtain ⟨b, _, rfl⟩ := mem_map.mp he
        rfl

/-! ## The cursor -/

/-- The addresses still to come: the rest of the current range, then the other ranges. -/
def addressesOf (pending : Pairs) (offset left : Nat) : List Nat :=
  List.range' offset left ++ pending.flatMap rangeAddresses

namespace RangeSinkWriter

def addresses (w : RangeSinkWriter) : List Nat :=
  addressesOf w.pending w.offset w.left

/-- What the writer has still to fill in. -/
def form (w : RangeSinkWriter) : List (Item (Nat × Nat) Nat) :=
  (List.range' w.offset w.left).map .slot ++ w.pending.flatMap rangeItems

theorem mark_mem_form {w : RangeSinkWriter} : .mark p ∈ w.form ↔ p ∈ w.pending := by
  simp [form, rangeItems]

end RangeSinkWriter

theorem slots_ranges : ∀ ps : Pairs,
    slots (ps.flatMap rangeItems) = ps.flatMap rangeAddresses
  | [] => rfl
  | p :: ps => by
    rw [flatMap_cons, slots_append, slots_ranges ps]
    exact congrArg (· ++ _) (slots_row _)

theorem slots_form (w : RangeSinkWriter) : slots w.form = w.addresses := by
  unfold form
  rw [slots_append, slots_row, slots_ranges]
  rfl

def bytesAt (device : Nat → Block) (addresses : List Nat) : Bytes :=
  addresses.map (byteAt device)

theorem bytesAt_range' {data : Bytes}
    (h : ∀ x, a ≤ x → x < a + data.length → byteAt device x = data.getD (x - a) 0) :
    bytesAt device (List.range' a data.length) = data := by
  refine ext_getElem? ?_
  intro i
  unfold bytesAt
  rw [getElem?_map]
  rcases Nat.lt_or_ge i data.length with hi | hi
  · rw [getElem?_range' hi, Option.map_some, h _ (by omega) (by omega), getD_eq_getElem?_getD]
    rw [show a + 1 * i - a = i by omega, getElem?_eq_getElem hi, Option.getD_some]
  · rw [getElem?_eq_none (by simpa using hi), getElem?_eq_none hi]
    rfl

/-- What the loop of `Write` does. -/
structure LoopSpec (cfg : Config) (S : Nat → Prop) (w : RangeSinkWriter) (data : Bytes)
    (trace : List Event) (faults : List Bool) (r : SinkState × Nat) (t : List Event) : Prop where
  trace_eq : r.1.trace = trace ++ t
  confined : Confined S faults t r.1.faults
  /-- If the data is taken whole then it is filled in. -/
  whole : r.2 = data.length → data.length ≤ w.addresses.length ∧
    r.1.writer.form = (fill w.form data).2 ∧ Renders cfg t (fill w.form data).1
  /-- With nothing amiss data that fits is taken whole. -/
  taken : faults = [] → data.length ≤ w.addresses.length →
    (∀ x ∈ w.addresses, x < cfg.deviceBlocks * BLOCKSIZE) → r.2 = data.length

section Loop

variable {pending : Pairs} {offset left : Nat} {trace : List Event}

theorem LoopSpec.stopped {w : RangeSinkWriter} {r : SinkState × Nat}
    (htrace : r.1.trace = trace ++ t) (ht : Confined S faults t r.1.faults)
    (hne : r.2 ≠ data.length)
    (htaken : faults = [] → data.length ≤ w.addresses.length →
      ¬ ∀ x ∈ w.addresses, x < cfg.deviceBlocks * BLOCKSIZE) :
    LoopSpec cfg S w data trace faults r t where
  trace_eq := htrace
  confined := ht
  whole h := absurd h hne
  taken h₁ h₂ h₃ := absurd h₃ (htaken h₁ h₂)

theorem zip_range' {n : Nat} (h : data.length ≤ n) :
    (range' a n).zip data = (range' a data.length).zip data := by
  have hsplit : range' a n = range' a data.length ++ range' (a + data.length)
      (n - data.length) := by
    rw [range'_append_1, Nat.add_sub_cancel' h]
  have hzip := @zip_append _ _ (range' a data.length) (range' (a + data.length) (n - data.length))
    data [] (by rw [length_range'])
  rwa [append_nil, zip_nil_right, append_nil, ← hsplit] at hzip

def currentWrite (cfg : Config) (offset left : Nat) (data : Bytes) (faults : List Bool) :
    List Event × List Bool × Bool :=
  writeAll cfg data.length offset (data.take (min data.length left)) faults

theorem currentWrite_confined (hS : ∀ x ∈ addressesOf pending offset left, S (x / BLOCKSIZE)) :
    Confined S faults (currentWrite cfg offset left data faults).1
      (currentWrite cfg offset left data faults).2.1 := by
  refine writeAll_confined fun x h₁ h₂ => hS x (mem_append_left _ ?_)
  rw [mem_range'_1]
  rw [length_take] at h₂
  omega

theorem renders_currentWrite (hok : (currentWrite cfg offset left data faults).2.2 = true) :
    Renders cfg (currentWrite cfg offset left data faults).1
      (((range' offset left).zip (data.take (min data.length left))).map .slot) := by
  have hlen : (data.take (min data.length left)).length = min data.length left := by
    rw [length_take]
    omega
  have hrun := renders_writeAll (by omega) hok
  rwa [← zip_range' (by omega : _ ≤ left)] at hrun

theorem currentWrite_failed (h : (currentWrite cfg offset left data faults).2.2 = false) :
    data ≠ [] ∧ (faults = [] →
      ¬ ∀ x ∈ addressesOf pending offset left, x < cfg.deviceBlocks * BLOCKSIZE) := by
  constructor
  · intro hnil
    subst hnil
    exact absurd h (by simp [currentWrite, writeAll])
  · intro hf hfit
    have hok : (currentWrite cfg offset left data faults).2.2 = true := by
      by_cases hz : min data.length left = 0
      · unfold currentWrite
        rw [hz, take_zero]
        cases data.length <;> rfl
      · rw [hf]
        refine writeAll_ok ?_
        have hmem : offset + left - 1 ∈ addressesOf pending offset left := by
          refine mem_append_left _ ?_
          rw [mem_range'_1]
          omega
        have := hfit _ hmem
        rw [length_take]
        omega
    rw [hok] at h
    cases h

theorem writeLoop_eq : writeLoop cfg pending offset left data trace faults =
    let r := currentWrite cfg offset left data faults
    if !r.2.2 then (⟨⟨pending, offset, left⟩, trace ++ r.1, r.2.1⟩, 0)
    else if data.length ≤ left then
      (⟨⟨pending, offset + min data.length left, left - min data.length left⟩, trace ++ r.1, r.2.1⟩,
        min data.length left)
    else
      match pending with
      | [] => (⟨⟨[], offset + min data.length left, 0⟩, trace ++ r.1, r.2.1⟩, min data.length left)
      | p :: pending =>
        let s := seekToOutputRange cfg p r.2.1
        if !s.2.2 then (⟨⟨pending, offset + min data.length left, rangeBytes p⟩,
          trace ++ r.1 ++ s.1, s.2.1⟩, min data.length left)
        else
          let rest := writeLoop cfg pending (p.1 * BLOCKSIZE) (rangeBytes p)
            (data.drop (min data.length left)) (trace ++ r.1 ++ s.1) s.2.1
          (rest.1, min data.length left + rest.2) := by
  rw [writeLoop.eq_def]
  rfl

/-- What happens in the current range; if there is more data the loop goes on. -/
theorem writeLoop_current (hS : ∀ x ∈ addressesOf pending offset left, S (x / BLOCKSIZE))
    (hmore : (currentWrite cfg offset left data faults).2.2 = true → left < data.length →
      ∃ t, LoopSpec cfg S ⟨pending, offset, left⟩ data trace faults
        (writeLoop cfg pending offset left data trace faults) t) :
    ∃ t, LoopSpec cfg S ⟨pending, offset, left⟩ data trace faults
      (writeLoop cfg pending offset left data trace faults) t := by
  have hconf := @currentWrite_confined cfg S data faults pending offset left hS
  cases hok : (currentWrite cfg offset left data faults).2.2 with
  | false =>
    obtain ⟨hne, hbad⟩ := @currentWrite_failed cfg data faults pending offset left hok
    refine ⟨(currentWrite cfg offset left data faults).1, ?_⟩
    rw [writeLoop_eq]
    simp only [hok]
    exact .stopped rfl hconf (fun h0 => hne (length_eq_zero_iff.mp h0.symm)) fun hf _ => hbad hf
  | true =>
    rcases Nat.lt_or_ge left data.length with hgt | hle
    · exact hmore hok hgt
    have hmin : min data.length left = data.length := Nat.min_eq_left hle
    have hrun := renders_currentWrite hok
    rw [hmin, take_length] at hrun
    have hrow := @fill_row _ _ _ (pending.flatMap rangeItems) (range' offset left) data
      (by rw [length_range']; exact hle)
    have hform : fill (form ⟨pending, offset, left⟩) data = _ := hrow
    refine ⟨(currentWrite cfg offset left data faults).1, ?_⟩
    rw [writeLoop_eq]
    simp only [hok, if_pos hle, hmin]
    refine ⟨rfl, hconf, fun _ => ⟨?_, ?_, ?_⟩, fun _ _ _ => rfl⟩
    · simp only [addresses, addressesOf, length_append, length_range']
      omega
    · rw [hform, drop_range', Nat.mul_one]
      rfl
    · rw [hform]
      exact hrun

theorem range_touched (hS : ∀ x ∈ addressesOf (p :: ps) offset left, S (x / BLOCKSIZE)) :
    ∀ b ∈ numbers p, S b := by
  intro b hb
  have hdiv : b * BLOCKSIZE / BLOCKSIZE = b := Nat.mul_div_cancel b (by decide)
  have hmem : b * BLOCKSIZE ∈ rangeAddresses p := mem_rangeAddresses.mpr (by rw [hdiv]; exact hb)
  have := hS (b * BLOCKSIZE) (mem_append_right _ (mem_append_left _ hmem))
  rwa [hdiv] at this

theorem fill_next (hgt : left < data.length) : fill (form ⟨p :: ps, offset, left⟩) data =
      (((range' offset left).zip (data.take left)).map .slot ++ ([.mark p] ++ (fill
        (form ⟨ps, p.1 * BLOCKSIZE, rangeBytes p⟩)
        (data.drop left)).1), (fill (form ⟨ps, p.1 * BLOCKSIZE, rangeBytes p⟩)
        (data.drop left)).2) := by
  have htake : (data.take left).length = left := by rw [length_take]; omega
  have hne : data.drop left ≠ [] := by
    rw [← length_pos_iff, length_drop]
    omega
  have hrow := @fill_row _ _ _ ((p :: ps).flatMap rangeItems) (range' offset left) (data.take left)
    (by rw [length_range', htake])
  rw [htake, drop_eq_nil_of_le (by rw [length_range'])] at hrow
  have hall := fill_append (form ⟨p :: ps, offset, left⟩) (data.take left)
    (data.drop left)
  rw [take_append_drop, show fill (form ⟨p :: ps, offset, left⟩) _ = _ from hrow] at hall
  rw [hall]
  exact congrArg (fun r => (_ ++ r.1, r.2)) (fill_mark p _ hne)

/-- The data goes on in the next range: `c` is the write to the current range, `s` the step
to the next, and `r` the rest of the loop. -/
theorem writeLoop_next {c s : List Event × List Bool × Bool} {r : SinkState × Nat}
    (hS : ∀ x ∈ addressesOf (p :: ps) offset left, S (x / BLOCKSIZE))
    (hc : currentWrite cfg offset left data faults = c) (hcok : c.2.2 = true)
    (hgt : left < data.length) (hs : seekToOutputRange cfg p c.2.1 = s) (hsok : s.2.2 = true)
    (hr : writeLoop cfg ps (p.1 * BLOCKSIZE) (rangeBytes p) (data.drop left)
      (trace ++ c.1 ++ s.1) s.2.1 = r)
    (hrest : LoopSpec cfg S ⟨ps, p.1 * BLOCKSIZE, rangeBytes p⟩
      (data.drop left) (trace ++ c.1 ++ s.1) s.2.1 r t) :
    LoopSpec cfg S ⟨p :: ps, offset, left⟩ data trace faults
      (writeLoop cfg (p :: ps) offset left data trace faults) (c.1 ++ (s.1 ++ t)) := by
  have hmin : min data.length left = left := Nat.min_eq_right (Nat.le_of_lt hgt)
  have heq : writeLoop cfg (p :: ps) offset left data trace faults = (r.1, left + r.2) := by
    rw [writeLoop_eq]
    simp only [hc, hcok, hs, hsok, hr, Bool.not_true, Bool.false_eq_true, if_false,
      if_neg (Nat.not_le_of_lt hgt), hmin]
  have hlen : (addresses ⟨p :: ps, offset, left⟩).length = left +
      (addresses ⟨ps, p.1 * BLOCKSIZE, rangeBytes p⟩).length := by
    show (range' offset left ++ _).length = _
    rw [length_append, length_range']
    rfl
  have hdrop : (data.drop left).length = data.length - left := length_drop
  have hcurrent := @currentWrite_confined cfg S data faults _ offset left hS
  rw [hc] at hcurrent
  have hseek := @seek_confined cfg p S c.2.1 (range_touched hS)
  rw [hs] at hseek
  rw [heq]
  refine ⟨?_, hcurrent.trans (hseek.trans hrest.confined), fun hr2 => ?_, fun hf hle hfit => ?_⟩
  · rw [hrest.trace_eq]
    simp only [append_assoc]
  · obtain ⟨hle, hform, hrun⟩ := hrest.whole (by omega)
    have hfirst := @renders_currentWrite cfg data faults offset left (by rw [hc]; exact hcok)
    have hmark := @renders_seek cfg p c.2.1 (by rw [hs]; exact hsok)
    rw [hc, hmin] at hfirst
    rw [hs] at hmark
    rw [fill_next hgt]
    exact ⟨by omega, hform, hfirst.append (hmark.append hrun)⟩
  · subst hf
    have hsmooth := hcurrent.smooth
    rw [hsmooth] at hseek
    have := hrest.taken hseek.smooth (by omega) fun x hx => hfit x (mem_append_right _ hx)
    omega

theorem writeLoop_spec (hS : ∀ x ∈ addressesOf pending offset left, S (x / BLOCKSIZE)) :
    ∃ t, LoopSpec cfg S ⟨pending, offset, left⟩ data trace faults
      (writeLoop cfg pending offset left data trace faults) t := by
  induction pending generalizing offset left data trace faults with
  | nil =>
    refine writeLoop_current hS fun hok hgt => ?_
    -- there is no next range
    have hmin : min data.length left = left := Nat.min_eq_right (Nat.le_of_lt hgt)
    refine ⟨(currentWrite cfg offset left data faults).1, ?_⟩
    rw [writeLoop_eq]
    simp only [hok, if_neg (Nat.not_le_of_lt hgt), hmin]
    refine .stopped rfl (currentWrite_confined hS) (Nat.ne_of_lt hgt) fun _ hlen => ?_
    simp [addresses, addressesOf] at hlen
    omega
  | cons p ps ih =>
    refine writeLoop_current hS fun hok hgt => ?_
    have hmin : min data.length left = left := Nat.min_eq_right (Nat.le_of_lt hgt)
    cases hseek : (seekToOutputRange cfg p
      (currentWrite cfg offset left data faults).2.1).2.2 with
    | false =>
      have hcurrent := @currentWrite_confined cfg S data faults _ offset left hS
      refine ⟨(currentWrite cfg offset left data faults).1 ++ (seekToOutputRange cfg p
        (currentWrite cfg offset left data faults).2.1).1, ?_⟩
      rw [writeLoop_eq]
      simp only [hok, hseek, if_neg (Nat.not_le_of_lt hgt), hmin]
      refine .stopped (append_assoc ..) (hcurrent.trans (seek_confined (range_touched hS)))
        (Nat.ne_of_lt hgt) fun hf _ _ => ?_
      subst hf
      rw [hcurrent.smooth, seek_ok] at hseek
      cases hseek
    | true =>
      obtain ⟨t, ht⟩ := ih fun x hx => hS x (mem_append_right _ hx)
      exact ⟨_, writeLoop_next hS rfl hok hgt rfl hseek rfl ht⟩

end Loop

end Pterodon.Updater
