import Pterodon.Updater.BlockImg

/-!
# What the device operations do

One rule for each operation on the device. They all say two things: that only the blocks
the operation was given can change, at its end and wherever it is stopped, and what these
blocks hold at the end. An operation goes wrong only if a system call fails or its
arguments do not fit the device.
-/

namespace Pterodon.Updater

open Lib List ApplyPatch RangeSet

variable {S : Nat → Prop} {v' : Params} {Q : Post Unit}

/-! ## Frames -/

/-- `d'` is `d` except for the blocks with `S`. -/
structure Frame (S : Nat → Prop) (d d' : Disk) : Prop where
  stash : d'.stash = d.stash
  stashDir : d'.stashDir = d.stashDir
  device : ∀ b, ¬ S b → d'.device b = d.device b

theorem Frame.refl (S : Nat → Prop) (d : Disk) : Frame S d d := ⟨rfl, rfl, fun _ _ => rfl⟩

theorem Frame.trans {d d' d'' : Disk} (h : Frame S d d') (h' : Frame S d' d'') : Frame S d d'' :=
  ⟨h'.stash.trans h.stash, h'.stashDir.trans h.stashDir,
    fun b hb => (h'.device b hb).trans (h.device b hb)⟩

theorem Frame.mono {S' : Nat → Prop} {d d' : Disk} (h : Frame S d d') (hs : ∀ b, S b → S' b) :
    Frame S' d d' :=
  ⟨h.stash, h.stashDir, fun b hb => h.device b (fun hb' => hb (hs b hb'))⟩

theorem frame_act {e : Event} {b : Nat} (d : Disk) (he : e.block? = some b) (hb : S b) :
    Frame S d (Effect.act e d) := by
  have hupd : ∀ x : Block, Frame S d { d with device := Function.update d.device b x } := by
    intro x
    refine ⟨rfl, rfl, fun c hc => ?_⟩
    have hne : c ≠ b := fun h => hc (h ▸ hb)
    exact Function.update_of_ne hne _ _
  cases e with
  | write address data | writeBlock block data | discard block data =>
    injection he with he; subst he; exact hupd _
  | fsync | stashWrite | stashRename | unlink | mkdir | rmdir =>
    exact absurd he (by simp [Event.block?])

/-- `v'` is `v` after some system calls. -/
def Popped (v v' : Params) : Prop := ∃ n, v' = { v with faults := v.faults.drop n }

theorem Popped.refl (v : Params) : Popped v v := ⟨0, rfl⟩

theorem Popped.trans {v v'' : Params} (h : Popped v v') (h' : Popped v' v'') : Popped v v'' := by
  obtain ⟨n, hn⟩ := h
  obtain ⟨m, hm⟩ := h'
  refine ⟨n + m, ?_⟩
  rw [hm, hn]
  simp only [drop_drop]

theorem Popped.faults {v : Params} (h : Popped v v') (hv : v.faults = []) : v' = v := by
  obtain ⟨n, hn⟩ := h
  rw [hn, hv, drop_nil, ← hv]

theorem Popped.idle {v : Params} (h : Popped v v') (hv : v.faults = []) : v'.faults = [] :=
  h.faults hv ▸ hv

theorem Popped.freestash {v : Params} (h : Popped v v') : v'.freestash = v.freestash := by
  obtain ⟨n, hn⟩ := h
  rw [hn]

theorem Popped.buffer {v : Params} (h : Popped v v') : v'.buffer = v.buffer := by
  obtain ⟨n, hn⟩ := h
  rw [hn]

/-! ## System calls -/

section Rules

variable {I : List Event → Disk → Prop} {E : Post Halt}
  {h : List Event} {v : Params} {d : Disk} {cfg : Config}

theorem pop_snd (faults : List Bool) : (pop faults).2 = faults.drop 1 := by
  cases faults <;> rfl

theorem popped_pop (v : Params) : Popped v { v with faults := (pop v.faults).2 } :=
  ⟨1, by rw [pop_snd]⟩

theorem wp_sys {Q : Post Bool}
    (hq : ∀ ok v', Popped v v' → (v.faults = [] → ok = true) → Q ok h v' d) :
    wp I sys Q E h v d := by
  refine ⟨trivial, ?_⟩
  show Q (pop v.faults).1 (h ++ []) { v with faults := (pop v.faults).2 } d
  rw [append_nil]
  refine hq _ _ (popped_pop v) ?_
  intro hf
  rw [hf]
  rfl

theorem wp_require {ok : Bool} (hq : ok = true → Q () h v d) (he : ok = false → E .error h v d) :
    wp I (require ok) Q E h v d := by
  cases ok with
  | true => exact wp_pure (hq rfl)
  | false => exact wp_fail (he rfl)

theorem wp_call (hq : ∀ v', Popped v v' → Q () h v' d)
    (he : ∀ v', v.faults ≠ [] → Popped v v' → E .error h v' d) : wp I call Q E h v d := by
  refine wp_bind (wp_sys ?_)
  intro ok v' hp hok
  refine wp_require (fun _ => hq v' hp) (fun hno => he v' ?_ hp)
  intro hf
  rw [hok hf] at hno
  cases hno

theorem wp_call_ok (hf : v.faults = []) (hq : Q () h v d) : wp I call Q E h v d := by
  refine wp_call ?_ (fun _ hne _ => absurd hf hne)
  intro v' hp
  rw [hp.faults hf]
  exact hq

theorem wp_parseRange {text : Text} {Q : Post RangeSet}
    (hq : ∀ r, parse cfg.parseUint text = some r → Q r h v d)
    (he : parse cfg.parseUint text = none → E .check h v d) :
    wp I (parseRange cfg text) Q E h v d := by
  unfold parseRange
  cases hp : parse cfg.parseUint text with
  | none => exact wp_fail (he hp)
  | some r => exact wp_pure (hq r hp)

/-! ## Reading -/

theorem contents_length (r : RangeSet) (device : Nat → Block) :
    (r.contents device).length = r.blocks := by
  unfold contents
  rw [length_map, blockList_length]

theorem wp_readBlocks {src : RangeSet} {buffer : List Block} {Q : Post (Option (List Block))}
    (hq : ∀ v', Popped v v' → onDevice cfg src = true → src.blocks ≤ buffer.length →
      Q (some (src.contents d.device ++ buffer.drop src.blocks)) h v' d)
    (hn : ∀ v', Popped v v' → ¬ (v.faults = [] ∧ onDevice cfg src = true) → Q none h v' d)
    (he : ∀ v', Popped v v' → buffer.length < src.blocks → E .memory h v' d) :
    wp I (readBlocks cfg src buffer) Q E h v d := by
  refine wp_bind (wp_sys ?_)
  intro ok v' hp hok
  refine wp_ite (fun hbad => wp_pure (hn v' hp ?_)) (fun hgood => ?_)
  · rintro ⟨hf, hon⟩
    rw [hok hf, hon] at hbad
    cases hbad
  have hon : onDevice cfg src = true := by
    cases hon : onDevice cfg src with
    | true => rfl
    | false => rw [hon] at hgood; exact absurd (by simp) hgood
  refine wp_ite (fun hlt => wp_fail (he v' hp hlt)) (fun hge => ?_)
  exact wp_bind (wp_disk (wp_pure (hq v' hp hon (Nat.le_of_not_lt hge))))

theorem wp_readBlocksOrFail {src : RangeSet} {buffer : List Block} {Q : Post (List Block)}
    (hq : ∀ v', Popped v v' → onDevice cfg src = true → src.blocks ≤ buffer.length →
      Q (src.contents d.device ++ buffer.drop src.blocks) h v' d)
    (hn : ∀ v', Popped v v' → ¬ (v.faults = [] ∧ onDevice cfg src = true) → E .error h v' d)
    (he : ∀ v', Popped v v' → buffer.length < src.blocks → E .memory h v' d) :
    wp I (readBlocksOrFail cfg src buffer) Q E h v d := by
  refine wp_bind (wp_readBlocks ?_ ?_ he)
  · intro v' hp hon hlen
    exact wp_pure (hq v' hp hon hlen)
  · intro v' hp hbad
    exact wp_fail (hn v' hp hbad)

/-! ## Writing whole blocks -/

theorem wp_discardAll : ∀ (bs : List Nat) {h : List Event} {d : Disk},
      (∀ h' d', Frame (· ∈ bs) d d' → I h' d') →
      (∀ h' d', Frame (· ∈ bs) d d' → (∀ b ∈ bs, d'.device b = cfg.discarded b) → Q () h' v d') →
      wp I (discardAll cfg bs) Q E h v d := by
  intro bs
  induction bs with
  | nil => intro h d _ hq; exact wp_pure (hq h d (Frame.refl _ d) (by simp))
  | cons b bs ih =>
    intro h d hi hq
    have hf : Frame (· ∈ b :: bs) d (Effect.act (Event.discard b (cfg.discarded b)) d) :=
      frame_act d rfl mem_cons_self
    have hmono : ∀ {d' : Disk}, Frame (· ∈ bs) (Effect.act (Event.discard b (cfg.discarded b)) d)
        d' →
        Frame (· ∈ b :: bs) d d' :=
      fun hf' => hf.trans (hf'.mono (fun _ => mem_cons_of_mem _))
    refine wp_bind (wp_emit (hi _ _ hf) (ih (fun h' d' hf' => hi h' d' (hmono hf')) ?_))
    intro h' d' hf' hbs
    refine hq h' d' (hmono hf') ?_
    intro c hc
    by_cases hmem : c ∈ bs
    · exact hbs c hmem
    · have hcb : c = b := (mem_cons.mp hc).resolve_right hmem
      rw [hf'.device c hmem, hcb]
      exact Function.update_self ..

theorem wp_discardBlocks {p : Nat × Nat} (hi : ∀ h' d', Frame (· ∈ numbers p) d d' → I h' d')
    (hq : ∀ h' v' d', Popped v v' → Frame (· ∈ numbers p) d d' → Q () h' v' d')
    (he : ∀ v', v.faults ≠ [] → Popped v v' → E .error h v' d) :
    wp I (discardBlocks cfg p) Q E h v d := by
  refine wp_ite (fun _ => wp_pure (hq h v d (Popped.refl v) (Frame.refl _ d))) (fun _ => ?_)
  refine wp_bind (wp_call ?_ he)
  intro v' hp
  exact wp_discardAll _ hi (fun h' d' hf _ => hq h' v' d' hp hf)

theorem wp_writeRun : ∀ (xs : List Block) (b : Nat) {h : List Event} {v : Params} {d : Disk},
      (∀ h' d', Frame (· ∈ List.range' b xs.length) d d' → I h' d') →
      (∀ h' v' d', Popped v v' → Frame (· ∈ List.range' b xs.length) d d' →
        (List.range' b xs.length).map d'.device = xs → Q () h' v' d') →
      (∀ h' v' d', ¬ (v.faults = [] ∧ b + xs.length ≤ cfg.deviceBlocks) →
        Frame (· ∈ List.range' b xs.length) d d' → Popped v v' → E .error h' v' d') →
      wp I (writeRun cfg b xs) Q E h v d := by
  intro xs
  induction xs with
  | nil => intro b h v d _ hq _; exact wp_pure (hq h v d (Popped.refl v) (Frame.refl _ d) rfl)
  | cons x xs ih =>
    intro b h v d hi hq he
    rw [length_cons, range'_succ] at hi hq he
    refine wp_bind (wp_call ?_ ?_)
    · intro v₁ hp₁
      refine wp_bind (wp_require ?_ ?_)
      · intro _
        have hf : Frame (· ∈ b :: range' (b + 1) xs.length) d
            (Effect.act (Event.writeBlock b x) d) := frame_act d rfl mem_cons_self
        have hmono : ∀ {d' : Disk}, Frame (· ∈ range' (b + 1) xs.length)
            (Effect.act (Event.writeBlock b x) d) d' →
            Frame (· ∈ b :: range' (b + 1) xs.length) d d' :=
          fun hf' => hf.trans (hf'.mono (fun _ => mem_cons_of_mem _))
        refine wp_bind (wp_emit (hi _ _ hf) (ih (b + 1) ?_ ?_ ?_))
        · intro h' d' hf'
          exact hi h' d' (hmono hf')
        · intro h' v' d' hp hf' hx
          refine hq h' v' d' (hp₁.trans hp) (hmono hf') ?_
          have hb : d'.device b = x := by
            rw [hf'.device b (by rw [mem_range'_1]; omega)]
            exact Function.update_self ..
          rw [map_cons, hb, hx]
        · intro h' v' d' hbad hf' hp
          refine he h' v' d' ?_ (hmono hf') (hp₁.trans hp)
          rintro ⟨hf₀, hfit⟩
          exact hbad ⟨hp₁.idle hf₀, by omega⟩
      · intro hno
        refine he _ _ _ ?_ (Frame.refl _ d) hp₁
        rintro ⟨_, hfit⟩
        exact absurd hno (by simp; omega)
    · intro v₁ hf₀ hp₁
      exact he _ _ _ (fun hc => hf₀ hc.1) (Frame.refl _ d) hp₁

theorem Frame.left {as bs : List Nat} {d' : Disk} (h : Frame (· ∈ as) d d') :
    Frame (· ∈ as ++ bs) d d' := h.mono (fun _ => mem_append_left _)

theorem Frame.right {as bs : List Nat} {d' : Disk} (h : Frame (· ∈ bs) d d') :
    Frame (· ∈ as ++ bs) d d' := h.mono (fun _ => mem_append_right _)

def rangesFit (cfg : Config) (ps : Pairs) : Prop := ∀ p ∈ ps, p.2 ≤ cfg.deviceBlocks

theorem onDevice_iff {r : RangeSet} : onDevice cfg r = true ↔ rangesFit cfg r.ranges := by
  unfold onDevice rangesFit
  simp

/-- `WriteBlocks`: if no block is listed twice, the target holds the data in the end. -/
theorem wp_writeRanges :
    ∀ (ps : Pairs) (data : List Block) {h : List Event} {v : Params} {d : Disk},
      (∀ p ∈ ps, p.1 < p.2) →
      (∀ h' d', Frame (· ∈ spread ps) d d' → I h' d') →
      (∀ h' v' d', Popped v v' → Frame (· ∈ spread ps) d d' →
        ((spread ps).Nodup →
          (spread ps).map d'.device = data.take (spread ps).length) → Q () h' v' d') →
      (∀ e h' v' d', ¬ (v.faults = [] ∧ rangesFit cfg ps ∧ (spread ps).length ≤ data.length) →
        Frame (· ∈ spread ps) d d' → Popped v v' → E e h' v' d') →
      wp I (writeRanges cfg ps data) Q E h v d := by
  intro ps
  induction ps with
  | nil =>
    intro data h v d _ _ hq _
    exact wp_pure (hq h v d (Popped.refl v) (Frame.refl _ d) (fun _ => by simp [spread]))
  | cons p ps ih =>
    intro data h v d hord hi hq he
    have hp := hord p mem_cons_self
    have hlen : (numbers p).length = p.2 - p.1 := numbers_length p
    rw [spread_cons] at hi hq he
    refine wp_ite (fun hlt => wp_fail (he _ _ _ _ ?_ (Frame.refl _ d) (Popped.refl v)))
      (fun hge => ?_)
    · rintro ⟨_, _, hfit⟩
      rw [length_append] at hfit
      omega
    have htake : (data.take (p.2 - p.1)).length = p.2 - p.1 := by rw [length_take]; omega
    have hrun : range' p.1 (data.take (p.2 - p.1)).length = numbers p := by
      rw [htake]; rfl
    refine wp_bind (wp_discardBlocks (fun h' d' hf => hi h' d' hf.left) ?_ ?_)
    · intro h₁ v₁ d₁ hp₁ hf₁
      refine wp_bind (wp_writeRun _ _ ?_ ?_ ?_)
      · intro h' d' hf
        rw [hrun] at hf
        exact hi h' d' (hf₁.trans hf).left
      · intro h₂ v₂ d₂ hp₂ hf₂ hdata
        rw [hrun] at hf₂ hdata
        have hf₁₂ : Frame (· ∈ numbers p ++ spread ps) d d₂ :=
          (hf₁.trans hf₂).left
        refine ih (data.drop (p.2 - p.1)) (forall_mem_cons.mp hord).2 ?_ ?_ ?_
        · intro h' d' hf
          exact hi h' d' (hf₁₂.trans hf.right)
        · intro h' v' d' hp₃ hf hrest
          refine hq h' v' d' ((hp₁.trans hp₂).trans hp₃) (hf₁₂.trans hf.right) ?_
          intro hnd
          obtain ⟨_, hnd', hdisj⟩ := nodup_append.mp hnd
          rw [map_append, hrest hnd', length_append, hlen, take_add]
          congr 1
          rw [← hdata]
          refine map_congr_left ?_
          intro b hb
          exact hf.device b (fun hb' => hdisj b hb b hb' rfl)
        · intro e h' v' d' hbad hf hp₃
          refine he e h' v' d' ?_ (hf₁₂.trans hf.right) ((hp₁.trans hp₂).trans hp₃)
          rintro ⟨hf₀, hfit, hl⟩
          rw [length_append] at hl
          exact hbad ⟨(hp₁.trans hp₂).idle hf₀, (forall_mem_cons.mp hfit).2, by
            rw [length_drop]; omega⟩
      · intro h₂ v₂ d₂ hbad hf₂ hp₂
        rw [hrun] at hf₂
        refine he _ h₂ v₂ d₂ ?_ (hf₁.trans hf₂).left (hp₁.trans hp₂)
        rintro ⟨hf₀, hfit, _⟩
        have := hfit p mem_cons_self
        exact hbad ⟨hp₁.idle hf₀, by omega⟩
    · intro v₁ hf₀ hp₁
      exact he _ _ _ _ (fun hc => hf₀ hc.1) (Frame.refl _ d) hp₁

theorem zeroRanges_eq (cfg : Config) : ∀ (ps : Pairs) (n : Nat),
    (spread ps).length ≤ n →
    zeroRanges cfg ps = writeRanges cfg ps (List.replicate n Block.zero)
  | [], _, _ => rfl
  | p :: ps, n, hn => by
    rw [spread_cons, length_append, numbers_length] at hn
    rw [zeroRanges, writeRanges, if_neg (by rw [length_replicate]; omega),
      take_replicate, drop_replicate, Nat.min_eq_left (by omega),
      zeroRanges_eq cfg ps (n - (p.2 - p.1)) (by omega)]

theorem wp_eraseRanges : ∀ (ps : Pairs) {h : List Event} {v : Params} {d : Disk},
      (∀ h' d', Frame (· ∈ spread ps) d d' → I h' d') →
      (∀ h' v' d', Popped v v' → Frame (· ∈ spread ps) d d' →
        (∀ b ∈ spread ps, d'.device b = cfg.discarded b) → Q () h' v' d') →
      (∀ h' v' d', v.faults ≠ [] → Frame (· ∈ spread ps) d d' → Popped v v' →
        E .error h' v' d') →
      wp I (eraseRanges cfg ps) Q E h v d := by
  intro ps
  induction ps with
  | nil =>
    intro h v d _ hq _
    exact wp_pure (hq h v d (Popped.refl v) (Frame.refl _ d) (by simp [spread]))
  | cons p ps ih =>
    intro h v d hi hq he
    refine wp_bind (wp_call ?_ ?_)
    · intro v₁ hp₁
      refine wp_bind (wp_discardAll _ (fun h' d' hf => hi h' d' hf.left) ?_)
      intro h₁ d₁ hf₁ hdis
      refine ih (fun h' d' hf => hi h' d' (hf₁.left.trans hf.right)) ?_ ?_
      · intro h' v' d' hp₂ hf hrest
        refine hq h' v' d' (hp₁.trans hp₂) (hf₁.left.trans hf.right) ?_
        intro b hb
        by_cases hmem : b ∈ spread ps
        · exact hrest b hmem
        · rw [hf.device b hmem]
          exact hdis b ((mem_append.mp hb).resolve_right hmem)
      · intro h' v' d' hf₀ hf hp₂
        exact he h' v' d' (fun hv => hf₀ (hp₁.idle hv)) (hf₁.left.trans hf.right) (hp₁.trans hp₂)
    · intro v₁ hf₀ hp₁
      exact he _ _ _ hf₀ (Frame.refl _ d) hp₁

end Rules

end Pterodon.Updater
