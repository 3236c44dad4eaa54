import Pterodon.ApplyPatch.ImgPatch

/-!
# Patches do not see their sink

Whatever a patch does with one sink it does with another, as long as the second takes
whole every piece that the first takes whole. `SinkSim` is that condition, with a relation
between the states of the two; `G` singles out states of the first sink to which the
condition may be restricted, and must not be entered from outside. `Keeps` is about one
sink: what each piece preserves, a patch preserves, whether it succeeds or not.
-/

namespace Pterodon.ApplyPatch

open Lib

variable {σ τ : Type}

/-- `sink'` follows `sink` as long as that stays in `G`. -/
structure SinkSim (sink : Sink σ) (sink' : Sink τ) (R : σ → τ → Prop) (G : σ → Prop) : Prop where
  step : ∀ s t x, x ≠ [] → R s t → (sink s x).2 = x.length → G (sink s x).1 →
    (sink' t x).2 = x.length ∧ R (sink s x).1 (sink' t x).1
  /-- A state in `G` was reached within `G`. -/
  down : ∀ s x, x ≠ [] → (sink s x).2 = x.length → G (sink s x).1 → G s

/-- If `f` ends well in `G`, then it started in `G`, and `f'` ends well from related states. -/
def Follows {ρ : Type} (R : σ → τ → Prop) (G : σ → Prop) (ok : ρ) (f : σ → σ × ρ)
    (f' : τ → τ × ρ) : Prop :=
  ∀ s s', f s = (s', ok) → G s' → G s ∧ ∀ t, R s t → ∃ t', f' t = (t', ok) ∧ R s' t'

section Sim

variable {lib : PatchLib} {sink : Sink σ} {sink' : Sink τ} {R : σ → τ → Prop} {G : σ → Prop}
  {old patch : Bytes} (hsim : SinkSim sink sink' R G)

include hsim

theorem follows_feed (pieces : List Bytes) :
    Follows R G true (feed sink pieces) (feed sink' pieces) := by
  induction pieces with
  | nil =>
    intro s s' h hg
    injection h with h _
    subst h
    exact ⟨hg, fun t hr => ⟨t, rfl, hr⟩⟩
  | cons x xs ih =>
    intro s s' h hg
    unfold feed at h
    split at h
    · rename_i hnil
      obtain ⟨hdown, hrest⟩ := ih s s' h hg
      refine ⟨hdown, ?_⟩
      intro t hr
      obtain ⟨t', ht', hrt⟩ := hrest t hr
      refine ⟨t', ?_, hrt⟩
      unfold feed
      rw [if_pos hnil]
      exact ht'
    rename_i hne
    dsimp only at h
    split at h
    · rename_i htaken
      obtain ⟨hmid, hrest⟩ := ih _ _ h hg
      refine ⟨hsim.down s x hne htaken hmid, ?_⟩
      intro t hr
      obtain ⟨htaken', hr'⟩ := hsim.step s t x hne hr htaken hmid
      obtain ⟨t', ht', hrt⟩ := hrest _ hr'
      refine ⟨t', ?_, hrt⟩
      unfold feed
      rw [if_neg hne, if_pos htaken']
      exact ht'
    · cases h

theorem follows_bsdiff (offset : Nat) :
    Follows R G .success (applyBSDiffPatch lib sink old patch offset)
      (applyBSDiffPatch lib sink' old patch offset) := by
  intro s s' h hg
  unfold applyBSDiffPatch at h
  split at h
  · cases h
  rename_i hoff
  injection h with hs hstatus
  split at hstatus
  · rename_i hboth
    rw [Bool.and_eq_true] at hboth
    obtain ⟨hdown, hrest⟩ := follows_feed hsim (lib.bspatch old (patch.drop offset)).1 s s'
      (Prod.ext hs hboth.1) hg
    refine ⟨hdown, ?_⟩
    intro t hr
    obtain ⟨t', ht', hrt⟩ := hrest t hr
    refine ⟨t', ?_, hrt⟩
    unfold applyBSDiffPatch
    rw [if_neg hoff]
    dsimp only
    rw [ht', hboth.2]
    rfl
  · cases hstatus

omit hsim in
theorem compressionSink_taken {params : DeflateParams} {expected : Nat} {st : Compression σ}
    {x : Bytes} (hne : x ≠ [])
    (h : (compressionSink lib params expected sink st x).2 = x.length) :
    ∃ pieces s, lib.deflate params st.fed x (!decide (st.fed.length + x.length < expected))
        = some pieces ∧ feed sink pieces st.inner = (s, true) ∧
      compressionSink lib params expected sink st x
        = (⟨st.fed ++ x, !decide (st.fed.length + x.length < expected), s⟩, x.length) := by
  have hpos : 0 ≠ x.length := fun h0 => hne (List.length_eq_zero_iff.mp h0.symm)
  unfold compressionSink at h ⊢
  dsimp only at h ⊢
  split at h
  · exact absurd h hpos
  · rename_i pieces hdef
    split at h
    · rename_i s hfeed
      exact ⟨pieces, s, hdef, hfeed, rfl⟩
    · exact absurd h hpos

theorem sinkSim_compression (params : DeflateParams) (expected : Nat) :
    SinkSim (compressionSink lib params expected sink) (compressionSink lib params expected sink')
      (fun st st' => st.fed = st'.fed ∧ st.ended = st'.ended ∧ R st.inner st'.inner)
      (fun st => G st.inner) where
  step := by
    rintro st st' x hne ⟨hfed, hended, hr⟩ htaken hg
    obtain ⟨pieces, s, hdef, hfeed, heq⟩ := compressionSink_taken hne htaken
    rw [heq] at hg ⊢
    obtain ⟨_, hrest⟩ := follows_feed hsim pieces _ _ hfeed hg
    obtain ⟨t', ht', hrt⟩ := hrest st'.inner hr
    have heq' : compressionSink lib params expected sink' st' x
        = (⟨st'.fed ++ x, !decide (st'.fed.length + x.length < expected), t'⟩, x.length) := by
      unfold compressionSink
      dsimp only
      rw [← hfed, hdef]
      dsimp only
      rw [ht']
    rw [heq', hfed]
    exact ⟨rfl, rfl, rfl, hrt⟩
  down := by
    intro st x hne htaken hg
    obtain ⟨pieces, s, hdef, hfeed, heq⟩ := compressionSink_taken hne htaken
    rw [heq] at hg
    exact (follows_feed hsim pieces _ _ hfeed hg).1

theorem follows_stream (offset expected : Nat) (params : DeflateParams) :
    Follows R G .success (applyBSDiffPatchAndStreamOutput lib sink old patch offset expected params)
      (applyBSDiffPatchAndStreamOutput lib sink' old patch offset expected params) := by
  intro s s' h hg
  unfold applyBSDiffPatchAndStreamOutput at h
  split at h
  · cases h
  rename_i hinit
  generalize hrun : applyBSDiffPatch lib (compressionSink lib params expected sink) old patch offset
    ⟨[], false, s⟩ = run at h
  obtain ⟨st, result⟩ := run
  cases result with
  | success =>
    injection h with hs hstatus
    subst hs
    split at hstatus
    · rename_i hend
      obtain ⟨hdown, hrest⟩ := follows_bsdiff (sinkSim_compression hsim params expected) offset
        _ _ hrun hg
      refine ⟨hdown, ?_⟩
      intro t hr
      obtain ⟨st', hst', hfed, hended, hrt⟩ := hrest ⟨[], false, t⟩ ⟨rfl, rfl, hr⟩
      refine ⟨st'.inner, ?_, hrt⟩
      unfold applyBSDiffPatchAndStreamOutput
      rw [if_neg hinit, hst']
      dsimp only
      rw [← hfed, ← hended, if_pos hend]
    · cases hstatus
  | failure | abort =>
    cases h

omit hsim in
theorem follows_refused {r : σ → σ} {r' : τ → τ} {st st' : PatchStatus} (h : st ≠ .success) :
    Follows R G PatchStatus.success (fun s => (r s, st)) (fun t => (r' t, st')) := by
  intro s s' hs _
  injection hs with _ hs
  exact absurd hs h

theorem follows_normal (pos : Nat) : Follows R G .success (applyNormalChunk lib sink old patch pos)
      (applyNormalChunk lib sink' old patch pos) := by
  unfold applyNormalChunk
  dsimp only
  split
  · exact follows_refused (by simp)
  · exact follows_bsdiff hsim _

theorem follows_deflate (bonus : Bytes) (pos : Nat) :
    Follows R G .success (applyDeflateChunk lib sink old patch bonus pos)
      (applyDeflateChunk lib sink' old patch bonus pos) := by
  unfold applyDeflateChunk
  dsimp only
  split
  · exact follows_refused (by simp)
  split
  · exact follows_refused (by simp)
  · exact follows_stream hsim _ _ _

theorem follows_raw (pos dataLen : Nat) :
    Follows R G .success (applyRawChunk sink patch pos dataLen)
      (applyRawChunk sink' patch pos dataLen) := by
  unfold applyRawChunk
  split
  · exact follows_refused (by simp)
  intro s s' h hg
  injection h with hs hstatus
  split at hstatus
  · rename_i htaken
    obtain ⟨hdown, hrest⟩ := follows_feed hsim [sliceOf patch pos dataLen] s s'
      (Prod.ext hs htaken) hg
    refine ⟨hdown, ?_⟩
    intro t hr
    obtain ⟨t', ht', hrt⟩ := hrest t hr
    refine ⟨t', ?_, hrt⟩
    dsimp only
    rw [ht']
    rfl
  · cases hstatus

theorem follows_chunk (bonus : Option Bytes) (i pos : Nat) :
    Follows R G .success (fun s => (applyChunk lib sink old patch bonus i pos s).1)
      (fun t => (applyChunk lib sink' old patch bonus i pos t).1) ∧
    ∀ s t, (applyChunk lib sink old patch bonus i pos s).2
      = (applyChunk lib sink' old patch bonus i pos t).2 := by
  unfold applyChunk
  split
  · exact ⟨follows_refused (by simp), fun _ _ => rfl⟩
  split
  · split
    · exact ⟨follows_refused (by simp), fun _ _ => rfl⟩
    · exact ⟨follows_normal hsim _, fun _ _ => rfl⟩
  split
  · split
    · exact ⟨follows_refused (by simp), fun _ _ => rfl⟩
    · exact ⟨follows_raw hsim _ _, fun _ _ => rfl⟩
  split
  · split
    · exact ⟨follows_refused (by simp), fun _ _ => rfl⟩
    · exact ⟨follows_deflate hsim _ _, fun _ _ => rfl⟩
  · exact ⟨follows_refused (by simp), fun _ _ => rfl⟩

theorem follows_chunks (bonus : Option Bytes) :
    ∀ n i pos : Nat, Follows R G .success (applyChunks lib sink old patch bonus n i pos)
      (applyChunks lib sink' old patch bonus n i pos) := by
  intro n
  induction n with
  | zero =>
    intro i pos s s' h hg
    injection h with h _
    subst h
    exact ⟨hg, fun t hr => ⟨t, rfl, hr⟩⟩
  | succ n ih =>
    intro i pos s s' h hg
    obtain ⟨hchunk, hpos⟩ := @follows_chunk σ τ lib sink sink' R G old patch hsim bonus i pos
    unfold applyChunks at h
    split at h
    · rename_i s₁ pos₁ hrun
      obtain ⟨hmid, hrest⟩ := ih (i + 1) pos₁ s₁ s' h hg
      obtain ⟨hdown, hfirst⟩ := hchunk s s₁ (by dsimp only; rw [hrun]) hmid
      refine ⟨hdown, ?_⟩
      intro t hr
      obtain ⟨t₁, ht₁, hr₁⟩ := hfirst t hr
      obtain ⟨t', ht', hrt⟩ := hrest t₁ hr₁
      refine ⟨t', ?_, hrt⟩
      have hrun' : applyChunk lib sink' old patch bonus i pos t = ((t₁, .success), pos₁) := by
        refine Prod.ext ht₁ ?_
        rw [← hpos s t, hrun]
      unfold applyChunks
      rw [hrun']
      exact ht'
    · rename_i r pos₁ hno hrun
      exact absurd h (hno s')

theorem follows_image (bonus : Option Bytes) :
    Follows R G .success (applyImagePatch lib sink old patch bonus)
      (applyImagePatch lib sink' old patch bonus) := by
  unfold applyImagePatch
  split
  · exact follows_refused (by simp)
  split
  · exact follows_refused (by simp)
  · exact follows_chunks hsim bonus _ _ _

end Sim

/-! ## Invariants of a sink -/

/-- `f` keeps `P`, however it ends. -/
def Keeps {ρ : Type} (P : σ → Prop) (f : σ → σ × ρ) : Prop := ∀ s, P s → P (f s).1

section Keeps

variable {lib : PatchLib} {sink : Sink σ} {P : σ → Prop} {old patch : Bytes}

theorem keeps_here {ρ : Type} (r : ρ) : Keeps P (fun s => (s, r)) := fun _ h => h

variable (hP : ∀ x, Keeps P (fun s => sink s x))

include hP

theorem keeps_feed (pieces : List Bytes) : Keeps P (feed sink pieces) := by
  induction pieces with
  | nil => exact keeps_here true
  | cons x xs ih =>
    intro s hs
    unfold feed
    split
    · exact ih s hs
    dsimp only
    split
    · exact ih _ (hP x s hs)
    · exact hP x s hs

theorem keeps_bsdiff (offset : Nat) : Keeps P (applyBSDiffPatch lib sink old patch offset) := by
  intro s hs
  unfold applyBSDiffPatch
  split
  · exact hs
  · exact keeps_feed hP _ s hs

theorem keeps_compression (params : DeflateParams) (expected : Nat) (x : Bytes) :
    Keeps (fun st : Compression σ => P st.inner)
      (fun st => compressionSink lib params expected sink st x) := by
  intro st hst
  have hfeed : ∀ pieces, P (feed sink pieces st.inner).1 := fun pieces => keeps_feed hP pieces _ hst
  unfold compressionSink
  dsimp only
  split
  · exact hst
  · rename_i pieces _
    have := hfeed pieces
    split
    · rename_i heq; rw [heq] at this; exact this
    · rename_i heq; rw [heq] at this; exact this

theorem keeps_stream (offset expected : Nat) (params : DeflateParams) :
    Keeps P (applyBSDiffPatchAndStreamOutput lib sink old patch offset expected params) := by
  intro s hs
  unfold applyBSDiffPatchAndStreamOutput
  split
  · exact hs
  have h : P (applyBSDiffPatch lib (compressionSink lib params expected sink) old patch offset
      ⟨[], false, s⟩).1.inner :=
    keeps_bsdiff (keeps_compression hP params expected) offset ⟨[], false, s⟩ hs
  split
  rename_i st result heq
  rw [heq] at h
  cases result <;> exact h

theorem keeps_chunk (bonus : Option Bytes) (i pos : Nat) :
    Keeps P (fun s => (applyChunk lib sink old patch bonus i pos s).1) := by
  intro s hs
  unfold applyChunk
  dsimp only
  split
  · exact hs
  split
  · split
    · exact hs
    unfold applyNormalChunk
    dsimp only
    split
    · exact hs
    · exact keeps_bsdiff hP _ s hs
  split
  · split
    · exact hs
    unfold applyRawChunk
    split
    · exact hs
    · exact keeps_feed hP _ s hs
  split
  · split
    · exact hs
    unfold applyDeflateChunk
    dsimp only
    split
    · exact hs
    split
    · exact hs
    · exact keeps_stream hP _ _ _ s hs
  · exact hs

theorem keeps_image (bonus : Option Bytes) :
    Keeps P (applyImagePatch lib sink old patch bonus) := by
  have hchunks : ∀ n i pos, Keeps P (applyChunks lib sink old patch bonus n i pos) := by
    intro n
    induction n with
    | zero => exact fun _ _ => keeps_here _
    | succ n ih =>
      intro i pos s hs
      have h : P (applyChunk lib sink old patch bonus i pos s).1.1 :=
        keeps_chunk hP bonus i pos s hs
      unfold applyChunks
      split
      · rename_i heq; rw [heq] at h; exact ih _ _ _ h
      · rename_i heq; rw [heq] at h; exact h
  intro s hs
  unfold applyImagePatch
  split
  · exact hs
  split
  · exact hs
  · exact hchunks _ _ _ s hs

end Keeps

end Pterodon.ApplyPatch
