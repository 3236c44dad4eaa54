import Pterodon.Bootloader.BootControl

/-!
# Slot metadata under any sequence of calls

What a call does to the 32 bytes is said once, slot by slot, in `documented`: the struct
that is loaded after a successful call is the one loaded before with each slot's metadata
changed that way and the CRC recomputed (`perform_load`). What holds after a sequence of
calls follows from it.

The calls never check what the initialization read. `current_slot` is -1 if the suffix
property names no slot, and `num_slots` is whatever three bits a valid block holds. Every
index is in bounds, in every sequence of calls, exactly if the property names a slot and a
valid block says no more than four slots.
-/

namespace Pterodon.Bootloader

open Lib List SlotMetadata

variable {n i slot : Nat} {io : MiscIo} {misc : Field 32} {m : Module}

/-! ## Loading what was stored -/

theorem Field.of_val_append (f : Field n) (rest : Bytes) : Field.of n (f.val ++ rest) = f := by
  apply Subtype.ext
  show padded n ((f.val ++ rest).take n) = f.val
  rw [take_left' f.property, padded, f.property, Nat.sub_self, replicate_zero, append_nil]

theorem Field.of_drop {l rest : Bytes} {f : Field n} (h : l.drop i = f.val ++ rest) :
    Field.of n (l.drop i) = f := by
  rw [h, Field.of_val_append]

theorem SlotMetadata.ofBytes_bytes (s : SlotMetadata) :
    ofBytes (s.bytes.getD 0 0) (s.bytes.getD 1 0) = s := by
  obtain ⟨p, t, b, v, r⟩ := s
  have ht := t.isLt
  simp only [bytes, ofBytes, getD_cons_zero, getD_cons_succ,
    UInt8.toNat_ofNat', mk.injEq, Fin.ext_iff, Fin.val_ofNat]
  omega

theorem getD_add {α : Type} (l : List α) (i k : Nat) (d : α) :
    l.getD (i + k) d = (l.drop i).getD k d := by
  rw [getD_eq_getElem?_getD, getD_eq_getElem?_getD, getElem?_drop]

theorem drop_add_left {α : Type} {l x y : List α} (h : l.drop i = x ++ y) (hx : x.length = n) :
    l.drop (i + n) = y := by
  rw [← drop_drop, h, drop_left' hx]

theorem SlotMetadata.ofBytes_drop {l rest : Bytes} {s : SlotMetadata}
    (h : l.drop i = s.bytes ++ rest) : ofBytes (l.getD i 0) (l.getD (i + 1) 0) = s := by
  have h₀ : l.getD i 0 = s.bytes.getD 0 0 := by
    rw [← Nat.add_zero i, getD_add, h]
    rfl
  have h₁ : l.getD (i + 1) 0 = s.bytes.getD 1 0 := by
    rw [getD_add, h]
    rfl
  rw [h₀, h₁, ofBytes_bytes]

theorem BootloaderControl.ofBytes_bytes (c : BootloaderControl) : ofBytes c.bytes = c := by
  -- the block from each of its fields on
  have d₀ : c.bytes.val.drop 0 = c.slotSuffix.val ++ (c.magic.val ++ ([c.version,
      UInt8.ofNat (c.nbSlot + 8 * c.recoveryTriesRemaining + 64 * c.unnamed)] ++
      (c.reserved0.val ++ ((c.slotInfo 0).bytes ++ ((c.slotInfo 1).bytes ++
      ((c.slotInfo 2).bytes ++ ((c.slotInfo 3).bytes ++
      (c.reserved1.val ++ (c.crc32Le.val ++ []))))))))) := by
    simp [bytes, checked]
  have d₄ := drop_add_left d₀ c.slotSuffix.property
  have d₈ := drop_add_left d₄ c.magic.property
  have d₁₀ := drop_add_left d₈ rfl
  have d₁₂ := drop_add_left d₁₀ c.reserved0.property
  have d₁₄ := drop_add_left d₁₂ rfl
  have d₁₆ := drop_add_left d₁₄ rfl
  have d₁₈ := drop_add_left d₁₆ rfl
  have d₂₀ := drop_add_left d₁₈ rfl
  have d₂₈ := drop_add_left d₂₀ c.reserved1.property
  have hflags : (c.bytes.val.getD 9 0).toNat =
      c.nbSlot + 8 * c.recoveryTriesRemaining + 64 * c.unnamed := by
    have hbyte : c.bytes.val.getD (0 + 4 + 4 + 1) 0 =
        UInt8.ofNat (c.nbSlot + 8 * c.recoveryTriesRemaining + 64 * c.unnamed) := by
      rw [getD_add, d₈]
      rfl
    rw [hbyte, UInt8.toNat_ofNat', Nat.mod_eq_of_lt (by omega)]
  apply BootloaderControl.ext
  · exact Field.of_drop d₀
  · exact Field.of_drop d₄
  · show c.bytes.val.getD (0 + 4 + 4 + 0) 0 = _
    rw [getD_add, d₈]
    rfl
  · show Fin.ofNat 8 (c.bytes.val.getD 9 0).toNat = _
    rw [Fin.ext_iff, Fin.val_ofNat]
    omega
  · show Fin.ofNat 8 ((c.bytes.val.getD 9 0).toNat / 8) = _
    rw [Fin.ext_iff, Fin.val_ofNat]
    omega
  · show Fin.ofNat 4 ((c.bytes.val.getD 9 0).toNat / 64) = _
    rw [Fin.ext_iff, Fin.val_ofNat]
    omega
  · exact Field.of_drop d₁₀
  · funext i
    rcases i with ⟨_ | _ | _ | _ | _, hi⟩
    · exact ofBytes_drop d₁₂
    · exact ofBytes_drop d₁₄
    · exact ofBytes_drop d₁₆
    · exact ofBytes_drop d₁₈
    · omega
  · exact Field.of_drop d₂₀
  · exact Field.of_drop d₂₈

/-- The struct that `LoadBootloaderControl` gets. -/
abbrev load (misc : Field 32) : BootloaderControl := .ofBytes misc

theorem load_save (c : BootloaderControl) : load (save c) = { c with crc32Le := c.leCRC } :=
  BootloaderControl.ofBytes_bytes _

theorem crcValid_save (c : BootloaderControl) : (load (save c)).crcValid := by
  rw [load_save]
  -- the CRC is not among the bytes it is about
  exact Eq.refl c.leCRC

/-! ## What a call does to a slot -/

def perform (m : Module) (call : Call) (io : MiscIo) (misc : Field 32) : Result :=
  match call with
  | .markBootSuccessful => markBootSuccessful m io misc
  | .setActiveBootSlot slot => setActiveBootSlot m slot io misc
  | .setSlotAsUnbootable slot => setSlotAsUnbootable m slot io misc

theorem setSlot_apply (slots : Fin 4 → SlotMetadata) (i : Nat)
    (f : SlotMetadata → SlotMetadata) (j : Fin 4) :
    setSlot slots i f j = if j.val = i then f (slots j) else slots j := rfl

/-- The body of the loop is the minimum with the priority below the active one. -/
theorem lowered_eq (s : SlotMetadata) :
    (if s.priority ≥ kActivePriority then { s with priority := kActivePriority - 1 } else s) =
      { s with priority := min s.priority 14 } := by
  have hmin : ∀ p : Fin 16, (if p ≥ kActivePriority then kActivePriority - 1 else p) =
      min p 14 := by
    decide
  rw [← hmin]
  by_cases h : s.priority ≥ kActivePriority
  · rw [if_pos h, if_pos h]
  · rw [if_neg h, if_neg h]

theorem lowerPriorities_apply (others : List Nat) (slots : Fin 4 → SlotMetadata) (j : Fin 4) :
    lowerPriorities others slots j =
      if j.val ∈ others then { slots j with priority := min (slots j).priority 14 }
      else slots j := by
  induction others generalizing slots with
  | nil => simp [lowerPriorities]
  | cons i others ih =>
    show lowerPriorities others (setSlot slots i _) j = _
    rw [ih, setSlot_apply]
    by_cases hi : j.val = i
    · rw [if_pos hi, lowered_eq, if_pos (mem_cons.mpr (Or.inl hi))]
      by_cases hj : j.val ∈ others
      · rw [if_pos hj]
        simp only [min_assoc, min_self]
      · rw [if_neg hj]
    · have hmem : j.val ∈ i :: others ↔ j.val ∈ others := by
        rw [mem_cons]
        tauto
      simp only [if_neg hi, hmem]

theorem failed_ne : ¬ ((-1 : Int) = 0) := by decide

theorem update_ret {used : List Nat} {f : (Fin 4 → SlotMetadata) → Fin 4 → SlotMetadata}
    (h : (update io misc used f).ret = 0) :
    update io misc used f =
      ⟨0, used, save { load misc with slotInfo := f (load misc).slotInfo }⟩ := by
  rw [update] at h ⊢
  cases hl : io.loads with
  | false =>
    rw [hl] at h
    exact absurd h failed_ne
  | true =>
    cases hs : io.saves with
    | false =>
      rw [hl, hs] at h
      exact absurd h failed_ne
    | true => rfl

variable {call : Call}

theorem update_documented {used : List Nat} {f : (Fin 4 → SlotMetadata) → Fin 4 → SlotMetadata}
    (hf : ∀ slots i, f slots i = documented m call i (slots i))
    (h : (update io misc used f).ret = 0) :
    update io misc used f = ⟨0, used, save { load misc with
      slotInfo := fun i => documented m call i ((load misc).slotInfo i) }⟩ := by
  have hslots : f (load misc).slotInfo =
      fun i : Fin 4 => documented m call i ((load misc).slotInfo i) := by
    funext i
    exact hf _ i
  rw [update_ret h, hslots]

def indices (m : Module) : Call → List Nat
  | .markBootSuccessful => [m.currentSlot]
  | .setActiveBootSlot slot => (List.range m.numSlots).filter (· ≠ slot) ++ [slot]
  | .setSlotAsUnbootable slot => [slot]

/-- What the arguments of a successful call are. -/
def Accepts (m : Module) : Call → Prop
  | .markBootSuccessful => True
  | .setActiveBootSlot slot => slot < kMaxNumSlots ∧ slot < m.numSlots
  | .setSlotAsUnbootable slot => slot < kMaxNumSlots ∧ slot < m.numSlots

theorem activated_eq (m : Module) (slot : Nat) (slots : Fin 4 → SlotMetadata) (i : Fin 4) :
    setSlot (lowerPriorities ((List.range m.numSlots).filter (· ≠ slot)) slots) slot
      (fun s => { s with
        priority := kActivePriority
        triesRemaining := kActiveTries
        verityCorrupted := if slot ≠ m.currentSlot then 0 else s.verityCorrupted }) i =
      documented m (.setActiveBootSlot slot) i (slots i) := by
  have hmem : i.val ∈ (List.range m.numSlots).filter (· ≠ slot) ↔
      i.val < m.numSlots ∧ i.val ≠ slot := by
    rw [mem_filter, mem_range, decide_eq_true_eq]
  rw [setSlot_apply, lowerPriorities_apply, documented]
  by_cases hi : i.val = slot
  · rw [if_pos hi, if_pos hi, if_neg (fun hin => (hmem.mp hin).2 hi)]
    by_cases hcur : slot = m.currentSlot
    · rw [if_neg (not_not.mpr hcur), if_pos hcur]
      rfl
    · rw [if_pos hcur, if_neg hcur]
      rfl
  · rw [if_neg hi, if_neg hi]
    by_cases hlt : i.val < m.numSlots
    · rw [if_pos (hmem.mpr ⟨hlt, hi⟩), if_pos hlt]
    · rw [if_neg (fun hin => hlt (hmem.mp hin).1), if_neg hlt]

theorem perform_ret (h : (perform m call io misc).ret = 0) :
    Accepts m call ∧ perform m call io misc = ⟨0, indices m call, save { load misc with
      slotInfo := fun i => documented m call i ((load misc).slotInfo i) }⟩ := by
  cases call with
  | markBootSuccessful =>
    rw [perform] at h ⊢
    exact ⟨trivial, update_documented (fun _ _ => rfl) h⟩
  | setActiveBootSlot slot =>
    rw [perform, setActiveBootSlot] at h ⊢
    by_cases hbad : slot ≥ kMaxNumSlots ∨ slot ≥ m.numSlots
    · rw [if_pos hbad] at h
      exact absurd h failed_ne
    · rw [if_neg hbad] at h ⊢
      obtain ⟨hmax, hnum⟩ := not_or.mp hbad
      exact ⟨⟨Nat.lt_of_not_le hmax, Nat.lt_of_not_le hnum⟩,
        update_documented (activated_eq m slot) h⟩
  | setSlotAsUnbootable slot =>
    rw [perform, setSlotAsUnbootable] at h ⊢
    by_cases hbad : slot ≥ kMaxNumSlots ∨ slot ≥ m.numSlots
    · rw [if_pos hbad] at h
      exact absurd h failed_ne
    · rw [if_neg hbad] at h ⊢
      obtain ⟨hmax, hnum⟩ := not_or.mp hbad
      exact ⟨⟨Nat.lt_of_not_le hmax, Nat.lt_of_not_le hnum⟩, update_documented (fun _ _ => rfl) h⟩

theorem perform_load (h : (perform m call io misc).ret = 0) (i : Fin 4) :
    (load (perform m call io misc).misc).slotInfo i =
      documented m call i ((load misc).slotInfo i) := by
  rw [(perform_ret h).2, load_save]

/-! ## Sequences of calls -/

/-- The states of the 32 bytes after a sequence of successful calls. -/
inductive Reach (m : Module) (start : Field 32) : List Call → Field 32 → Prop where
  | start : Reach m start [] start
  | call {calls : List Call} {misc : Field 32} {call : Call} {io : MiscIo} :
      Reach m start calls misc → (perform m call io misc).ret = 0 →
      Reach m start (calls ++ [call]) (perform m call io misc).misc

def Call.activates : Call → Option Nat
  | .setActiveBootSlot slot => some slot
  | _ => none

def lastActive (calls : List Call) : Option Nat := (calls.filterMap Call.activates).getLast?

theorem lastActive_append (calls : List Call) (call : Call) :
    lastActive (calls ++ [call]) = call.activates.or (lastActive calls) := by
  rw [lastActive, filterMap_append, getLast?_append]
  cases call <;> rfl

/-- The slot has a higher priority than every other one of the device. -/
def Leads (m : Module) (slot : Nat) (c : BootloaderControl) : Prop :=
  ∀ i j : Fin 4, i.val = slot → j.val < m.numSlots → j ≠ i →
    (c.slotInfo j).priority < (c.slotInfo i).priority

theorem leads_activated (h : (perform m (.setActiveBootSlot slot) io misc).ret = 0) :
    Leads m slot (load (perform m (.setActiveBootSlot slot) io misc).misc) := by
  intro i j hi hj hne
  have hne' : j.val ≠ slot := fun hjs => hne (Fin.ext (hjs.trans hi.symm))
  have hmin : ∀ p : Fin 16, min p 14 < 15 := by decide
  rw [perform_load h, perform_load h, documented, documented, if_pos hi, if_neg hne', if_pos hj]
  exact hmin _

theorem leads_kept (hcall : ∀ s, call ≠ .setActiveBootSlot s) (h : (perform m call io misc).ret = 0)
    (hlead : Leads m slot (load misc)) : Leads m slot (load (perform m call io misc).misc) := by
  have hsame : ∀ (i : Nat) (s : SlotMetadata), (documented m call i s).priority = s.priority := by
    intro i s
    cases call with
    | markBootSuccessful | setSlotAsUnbootable s =>
      rw [documented]
      split <;> rfl
    | setActiveBootSlot s => exact absurd rfl (hcall s)
  intro i j hi hj hne
  rw [perform_load h, perform_load h, hsame, hsame]
  exact hlead i j hi hj hne

theorem reach_leads {start now : Field 32} {calls : List Call} (hr : Reach m start calls now)
    (hlast : lastActive calls = some slot) : Leads m slot (load now) := by
  induction hr with
  | start => cases hlast
  | @call calls misc call io hr hret ih =>
    rw [lastActive_append] at hlast
    cases call with
    | markBootSuccessful => exact leads_kept (fun _ hc => Call.noConfusion hc) hret (ih hlast)
    | setActiveBootSlot s =>
      cases hlast
      exact leads_activated hret
    | setSlotAsUnbootable s =>
      exact leads_kept (fun _ hc => Call.noConfusion hc) hret (ih hlast)

/-- What is to hold of the slot metadata whatever calls are made. -/
structure SlotsSafe (m : Module) (start : Field 32) : Prop where
  /-- No call indexes past the end of `slot_info`. -/
  bounds : ∀ calls now, Reach m start calls now → ∀ call io,
    (perform m call io now).ret = 0 → ∀ i ∈ (perform m call io now).used, i < 4
  /-- The CRC is valid after every call. -/
  crc : ∀ calls now, Reach m start calls now → calls ≠ [] → (load now).crcValid
  /-- The slot activated last has the highest priority. -/
  active : ∀ calls now, Reach m start calls now → ∀ slot, lastActive calls = some slot →
    Leads m slot (load now)
  /-- A call changes what it documents, and the CRC. -/
  changes : ∀ calls now, Reach m start calls now → ∀ call io,
    (perform m call io now).ret = 0 →
    load (perform m call io now).misc = { load now with
        slotInfo := fun i => documented m call i ((load now).slotInfo i)
        crc32Le := (load (perform m call io now).misc).crc32Le }

theorem reach_crc {start now : Field 32} {calls : List Call} (hr : Reach m start calls now)
    (hne : calls ≠ []) : (load now).crcValid := by
  cases hr with
  | start => exact absurd rfl hne
  | call hr hret =>
    rw [(perform_ret hret).2]
    exact crcValid_save _

theorem indices_lt (hcur : m.currentSlot < 4) (hnum : m.numSlots ≤ 4) (hcall : Accepts m call) :
    ∀ i ∈ indices m call, i < 4 := by
  intro i hi
  cases call with
  | markBootSuccessful =>
    rw [mem_singleton.mp hi]
    exact hcur
  | setActiveBootSlot slot =>
    rcases mem_append.mp hi with hi | hi
    · have := mem_range.mp (mem_filter.mp hi).1
      omega
    · rw [mem_singleton.mp hi]
      exact hcall.1
  | setSlotAsUnbootable slot =>
    rw [mem_singleton.mp hi]
    exact hcall.1

/-- The module is safe exactly if it counts four slots at most and runs from one of them. -/
theorem slotsSafe_iff (m : Module) (start : Field 32) :
    SlotsSafe m start ↔ m.currentSlot < 4 ∧ m.numSlots ≤ 4 := by
  constructor
  · intro h
    have hfirst := h.bounds [] start .start
    constructor
    · exact hfirst .markBootSuccessful ⟨true, true⟩ rfl m.currentSlot (mem_singleton_self _)
    · -- with more slots, activating the first one indexes the fifth
      by_contra hmany
      have hok : ¬ (0 ≥ kMaxNumSlots ∨ 0 ≥ m.numSlots) := by
        rw [not_or]
        exact ⟨by decide, by omega⟩
      have hret : (perform m (.setActiveBootSlot 0) ⟨true, true⟩ start).ret = 0 := by
        rw [perform, setActiveBootSlot, if_neg hok]
        rfl
      have hfifth := hfirst (.setActiveBootSlot 0) ⟨true, true⟩ hret 4 (by
        rw [(perform_ret hret).2]
        refine mem_append_left _ (mem_filter.mpr ⟨mem_range.mpr ?_, by decide⟩)
        omega)
      omega
  · rintro ⟨hcur, hnum⟩
    exact
      { bounds := by
          intro calls now hr call io hret
          obtain ⟨hacc, hres⟩ := perform_ret hret
          rw [hres]
          exact indices_lt hcur hnum hacc
        crc := fun calls now hr hne => reach_crc hr hne
        active := fun calls now hr slot hlast => reach_leads hr hlast
        changes := by
          intro calls now hr call io hret
          rw [(perform_ret hret).2, load_save] }

/-! ## What the initialization accepts -/

theorem slotSuffixToIndex_lt (suffix : Bytes) :
    slotSuffixToIndex suffix < 4 ↔ suffix ∈ kSlotSuffixes := by
  rw [slotSuffixToIndex]
  by_cases h : suffix ∈ kSlotSuffixes
  · rw [if_pos h]
    exact ⟨fun _ => h, fun _ => idxOf_lt_length_iff.mpr h⟩
  · rw [if_neg h]
    exact ⟨fun hlt => absurd hlt (by decide), fun hin => absurd hin h⟩

theorem countSlots_le {stat : Bytes → Stat} {basePath : Bytes} {n : Fin 8}
    (h : countSlots stat basePath = some n) : n.val ≤ 4 := by
  have hexisting : (((List.range kMaxNumSlots).filter fun slot =>
      stat (basePath ++ kSlotSuffixes.getD slot []) = .found).getLast?.map (· + 1)).getD 0 ≤ 4 := by
    cases hlast : ((List.range kMaxNumSlots).filter fun slot =>
        stat (basePath ++ kSlotSuffixes.getD slot []) = .found).getLast? with
    | none => exact Nat.zero_le 4
    | some slot =>
      have hmem := mem_of_getLast? hlast
      exact mem_range.mp (mem_filter.mp hmem).1
  obtain ⟨-, hn⟩ := Option.ite_none_right_eq_some.mp h
  rw [← Option.some.inj hn]
  exact Nat.le_trans (Nat.mod_le ..) hexisting

theorem initDefault_nbSlot (stat : Bytes → Stat) (miscDevice : Bytes) (currentSlot : Nat) :
    (initDefaultBootloaderControl stat miscDevice currentSlot).nbSlot.val ≤ 4 := by
  show (Option.getD (if dirName miscDevice = [] then none
    else countSlots stat (dirName miscDevice ++ ascii "boot".toList)) (4 : Fin 8)).val ≤ 4
  by_cases hdir : dirName miscDevice = []
  · rw [if_pos hdir]
    exact Nat.le_refl 4
  · rw [if_neg hdir]
    cases hcount : countSlots stat (dirName miscDevice ++ ascii "boot".toList) with
    | none => exact Nat.le_refl 4
    | some n => exact countSlots_le hcount

/-- After the initialization, the slot metadata is safe under every sequence of calls if and
only if the suffix property names a slot and a block with a valid CRC counts no more than
four. -/
theorem slot_metadata_safe_iff (setup : Setup) (misc : Field 32) (m : Module)
    (start : Field 32) (h : lazyInitialization setup misc = some (m, start)) :
    SlotsSafe m start ↔
      setup.suffixProp ∈ kSlotSuffixes ∧
      ((load misc).crcValid → (load misc).nbSlot.val ≤ 4) := by
  rw [slotsSafe_iff, ← slotSuffixToIndex_lt]
  obtain ⟨-, h⟩ := Option.ite_none_left_eq_some.mp h
  by_cases hcrc : (load misc).crcValid
  · rw [if_pos hcrc] at h
    cases h
    exact ⟨fun hs => ⟨hs.1, fun _ => hs.2⟩, fun hs => ⟨hs.1, hs.2 hcrc⟩⟩
  · -- the defaults are in bounds by themselves
    rw [if_neg hcrc] at h
    cases h
    have hdefault := initDefault_nbSlot setup.stat setup.device
      (slotSuffixToIndex setup.suffixProp)
    exact ⟨fun hs => ⟨hs.1, fun hv => absurd hv hcrc⟩, fun hs => ⟨hs.1, hdefault⟩⟩

namespace Sample

/-- A device that runs from its first slot, with two boot partitions. -/
def setup : Setup where
  suffixProp := ascii ['_', 'a']
  device := ascii ['/', 'm']
  loads := true
  saves := true
  stat := fun path =>
    if path = ascii "/boot_a".toList ∨
        path = ascii "/boot_b".toList then .found
    else .missing

def unset : Setup := { setup with suffixProp := [] }

/-- A valid block that counts seven slots. -/
def crowded : Field 32 := save { load (Field.zero 32) with nbSlot := ⟨7, by decide⟩ }

end Sample

open Sample

theorem two_slots_safe :
    ∃ m start, lazyInitialization setup (Field.zero 32) = some (m, start) ∧
      m.numSlots = 2 ∧ SlotsSafe m start := by
  have hsome : (lazyInitialization setup (Field.zero 32)).map (·.1.numSlots) = some 2 := by
    decide +kernel
  obtain ⟨⟨m, start⟩, h, hnum⟩ := Option.map_eq_some_iff.mp hsome
  exact ⟨m, start, h, hnum, (slot_metadata_safe_iff setup (Field.zero 32) m start h).mpr
    ⟨by decide, fun _ => by decide⟩⟩

/-- Without the property, marking a boot as successful indexes with -1; with a block that
counts seven slots, activating the first one indexes three slots that are not there. -/
theorem slots_out_of_bounds : (lazyInitialization unset (Field.zero 32)).map
      (fun s => ((perform s.1 .markBootSuccessful ⟨true, true⟩ s.2).ret,
        (perform s.1 .markBootSuccessful ⟨true, true⟩ s.2).used)) = some (0, [4294967295]) ∧
    (lazyInitialization setup crowded).map
      (fun s => ((perform s.1 (.setActiveBootSlot 0) ⟨true, true⟩ s.2).ret,
        (perform s.1 (.setActiveBootSlot 0) ⟨true, true⟩ s.2).used)) =
      some (0, [1, 2, 3, 4, 5, 6, 0]) := by
  decide +kernel

/-! ## The queries -/

theorem reach_health {start now : Field 32} {calls : List Call} (hreach : Reach m start calls now)
    (i : Fin 4) : ((load now).slotInfo i).health =
      calls.foldl (Call.treat m i) ((load start).slotInfo i).health := by
  induction hreach with
  | start => rfl
  | @call calls misc call io _ hret ih =>
    rw [perform_load hret, foldl_concat, ← ih]
    cases call <;> simp only [documented, Call.treat] <;> split_ifs <;> rfl

/-- Where no index is out of bounds, the answers about a slot follow from the calls: only those
about the slot itself count, and activating it does not take back that it was successful. -/
theorem queries_follow_calls {start now : Field 32} {calls : List Call} (hsafe : SlotsSafe m start)
    (hslot : slot < m.numSlots) (hreach : Reach m start calls now) :
    let (tries, successful) :=
      calls.foldl (Call.treat m slot) ((load start).slotInfo (Fin.ofNat 4 slot)).health
    isSlotBootable m slot true now = tries.val ∧
      isSlotMarkedSuccessful m slot true now = if successful ≠ 0 ∧ tries ≠ 0 then 1 else 0 := by
  have hmax : slot < 4 := Nat.lt_of_lt_of_le hslot ((slotsSafe_iff _ _).mp hsafe).2
  have hgood : ¬ (slot ≥ kMaxNumSlots ∨ slot ≥ m.numSlots) := by
    rw [kMaxNumSlots]
    omega
  have hhealth := reach_health hreach (Fin.ofNat 4 slot)
  rw [show (Fin.ofNat 4 slot).val = slot from Nat.mod_eq_of_lt hmax] at hhealth
  dsimp only
  rw [← hhealth, isSlotBootable, isSlotMarkedSuccessful, querySlot, querySlot, if_neg hgood,
    if_neg hgood]
  exact ⟨rfl, rfl⟩

/-- A slot is marked as successful, and activated. -/
theorem queries_after_update :
    let calls := [Call.markBootSuccessful, .setActiveBootSlot 0]
    ∃ now, Reach ⟨[], 2, 0⟩ (Field.zero 32) calls now ∧
      isSlotBootable ⟨[], 2, 0⟩ 0 true now = 6 ∧ isSlotMarkedSuccessful ⟨[], 2, 0⟩ 0 true now =
        1 := by
  have hreach : Reach ⟨[], 2, 0⟩ (Field.zero 32) _ _ :=
    @Reach.call _ _ _ _ (.setActiveBootSlot 0) ⟨true, true⟩
      (@Reach.call _ _ _ _ .markBootSuccessful ⟨true, true⟩ .start rfl) rfl
  exact ⟨_, hreach, queries_follow_calls ((slotsSafe_iff _ _).mpr (by decide)) (by decide) hreach⟩

end Pterodon.Bootloader
