import Pterodon.Framework.PathNames

/-!
# The volume of a path

`volume_for_path` looks for an entry of the table whose mount point is the path, then the path up
to its last slash, and so on. The slash at the beginning is kept, and ends the search.
-/

namespace Pterodon.FsManager

open Lib List Framework

/-- An entry of the table. Its fields are the words of a line. -/
structure Volume where
  mountPoint : Bytes
  blkDevice : Bytes
  mountPoint_ne : mountPoint ≠ []
deriving DecidableEq

variable (fstab : List Volume)

/-- `fs_mgr_get_entry_for_mount_point`. -/
def entryFor (path : Bytes) : Option Volume :=
  fstab.find? (·.mountPoint = path)

/-- Where the search goes on, at the last slash. -/
def parent (dir : Bytes) : Bytes := if dir = [] then [47] else dir

/-- What the path is cut to; `none` if it has no slash. -/
def shortened (str : Bytes) : Option Bytes :=
  (lastSlash str).map fun slash => parent (str.take slash)

theorem shortened_cases (path : Bytes) : shortened path = none ∧ 47 ∉ path ∨
    ∃ dir base, path = dir ++ 47 :: base ∧ 47 ∉ base ∧ shortened path = some (parent dir) := by
  by_cases h : 47 ∈ path
  · obtain ⟨base, dir, hrev, hbase⟩ := eq_append_cons_of_mem (mem_reverse.mpr h)
    have hpath : path = dir.reverse ++ 47 :: base.reverse := by
      rw [← reverse_reverse path, hrev]
      simp
    have hbase' : 47 ∉ base.reverse := fun h => hbase (mem_reverse.mp h)
    refine .inr ⟨_, _, hpath, hbase', ?_⟩
    rw [shortened, hpath, lastSlash_append _ hbase', Option.map_some, take_left]
  · refine .inl ⟨?_, h⟩
    rw [shortened, lastSlash, findIdx?_eq_none_iff.mpr]
    · rfl
    · exact fun b hb => decide_eq_false fun h' => h (h' ▸ mem_reverse.mp hb)

theorem length_shortened {str str' : Bytes} (hroot : str ≠ [47])
    (h : shortened str = some str') : str'.length < str.length := by
  obtain ⟨hnone, -⟩ | ⟨dir, base, rfl, -, hsome⟩ := shortened_cases str
  · rw [hnone] at h
    cases h
  · obtain rfl := Option.some.inj (h.symm.trans hsome)
    cases dir with
    | nil =>
      have hbase : base ≠ [] := fun h => hroot (by rw [h]; rfl)
      simpa [parent] using length_pos_iff.mpr hbase
    | cons b dir => simp [parent]

/-- The loop of `volume_for_path`. -/
def lookup (str : Bytes) : Option Volume :=
  match entryFor fstab str with
  | some v => some v
  | none =>
    if str = [47] then none
    else
      match _h : shortened str with
      | none => none
      | some str' => lookup str'
termination_by str.length
decreasing_by exact length_shortened ‹_› ‹_›

def volumeForPath (path : Bytes) : Option Volume :=
  if path = [] then none else lookup fstab path

/-- A path, its prefixes in front of a slash, and the root of an absolute one. -/
def Candidate (path c : Bytes) : Prop :=
  c = path ∨ (c ≠ [] ∧ ∃ rest, path = c ++ 47 :: rest) ∨ (c = [47] ∧ path.head? = some 47)

/-- The entry with the longest mount point, if there is any. -/
def Longest (path : Bytes) : Option Volume → Prop
  | none => ∀ c, Candidate path c → entryFor fstab c = none
  | some v => Candidate path v.mountPoint ∧ entryFor fstab v.mountPoint = some v ∧
      ∀ c, Candidate path c → entryFor fstab c ≠ none → c.length ≤ v.mountPoint.length

section Search

variable {fstab : List Volume} {path dir base c : Bytes}

theorem Candidate.length_le (h : Candidate path c) : c.length ≤ path.length := by
  rcases h with rfl | ⟨-, rest, rfl⟩ | ⟨rfl, hhead⟩
  · exact Nat.le_refl _
  · simp
  · exact length_pos_iff.mpr fun h => by simp [h] at hhead

theorem candidate_noSlash (hslash : 47 ∉ path) (h : Candidate path c) : c = path := by
  rcases h with rfl | ⟨-, rest, rfl⟩ | ⟨-, hhead⟩
  · rfl
  · simp at hslash
  · exact absurd (mem_of_mem_head? hhead) hslash

theorem candidate_root (h : Candidate [47] c) : c = [47] := by
  rcases h with h | ⟨hne, rest, hcut⟩ | ⟨h, -⟩
  · exact h
  · have hlen := congrArg length hcut
    have hpos := length_pos_iff.mpr hne
    simp at hlen
    omega
  · exact h

theorem candidate_cut (hbase : 47 ∉ base) : Candidate (dir ++ 47 :: base) c ↔
    c = dir ++ 47 :: base ∨ Candidate (parent dir) c := by
  constructor
  · refine Or.imp_right ?_
    rintro (⟨hne, rest, hcut⟩ | ⟨rfl, hhead⟩)
    · rcases append_eq_append_iff.mp hcut with ⟨more, rfl, hmore⟩ | ⟨more, rfl, hmore⟩
      · cases more with
        | nil =>
          rw [append_nil] at hne ⊢
          exact .inl (if_neg hne).symm
        | cons b more => exact absurd ((cons.inj hmore).2 ▸ by simp) hbase
      · rw [parent, if_neg (append_ne_nil_of_left_ne_nil hne _)]
        cases more with
        | nil => exact .inl (append_nil c).symm
        | cons b more => exact .inr (.inl ⟨hne, more, (cons.inj hmore).1 ▸ rfl⟩)
    · cases dir with
      | nil => exact .inl rfl
      | cons b dir => exact .inr (.inr ⟨rfl, hhead⟩)
  · rintro (h | h)
    · exact .inl h
    · refine .inr ?_
      cases dir with
      | nil => exact .inr ⟨candidate_root h, rfl⟩
      | cons b dir =>
        rcases h with h | ⟨hne, rest, hcut⟩ | ⟨h, hhead⟩
        · exact .inl ⟨h ▸ cons_ne_nil b dir, base, h ▸ rfl⟩
        · exact .inl ⟨hne, rest ++ 47 :: base, by
            rw [show b :: dir = c ++ 47 :: rest from hcut, append_assoc, cons_append]⟩
        · exact .inr ⟨h, hhead⟩

theorem lookup_eq (hentry : entryFor fstab path = none) : lookup fstab path =
    if path = [47] then none else (shortened path).bind (lookup fstab) := by
  rw [lookup, hentry]
  dsimp only
  split
  · rfl
  · split
    · next h => rw [h, Option.bind_none]
    · next h => rw [h, Option.bind_some]

theorem lookup_longest : Longest fstab path (lookup fstab path) := by
  induction hlen : path.length using Nat.strongRecOn generalizing path with
  | ind n ih =>
    cases hentry : entryFor fstab path with
    | some v =>
      have hmount : v.mountPoint = path := by simpa using List.find?_some hentry
      rw [lookup, hentry]
      exact ⟨.inl hmount, hmount ▸ hentry, fun c hc _ => hmount ▸ hc.length_le⟩
    | none =>
      by_cases hroot : path = [47]
      · rw [lookup_eq hentry, if_pos hroot]
        exact fun c hc => candidate_root (hroot ▸ hc) ▸ hroot ▸ hentry
      rw [lookup_eq hentry, if_neg hroot]
      obtain ⟨hlast, hslash⟩ | ⟨dir, base, rfl, hbase, hlast⟩ := shortened_cases path
      · rw [hlast]
        exact fun c hc => candidate_noSlash hslash hc ▸ hentry
      · rw [hlast, Option.bind_some]
        have hnext := ih _ (hlen ▸ length_shortened hroot hlast) rfl
        cases hfound : lookup fstab (parent dir) with
        | none =>
          rw [hfound] at hnext
          exact fun c hc => ((candidate_cut hbase).mp hc).elim (fun h => h ▸ hentry) (hnext c)
        | some v =>
          rw [hfound] at hnext
          obtain ⟨hcand, hv, hmax⟩ := hnext
          refine ⟨(candidate_cut hbase).mpr (.inr hcand), hv, fun c hc hne => ?_⟩
          rcases (candidate_cut hbase).mp hc with rfl | hc
          · exact absurd hentry hne
          · exact hmax c hc hne

end Search

/-- `volume_for_path` ends with the entry whose mount point is the longest of the candidates. -/
theorem volumeForPath_longest (fstab : List Volume) (path : Bytes) :
    Longest fstab path (volumeForPath fstab path) := by
  rw [volumeForPath]
  split
  · next hnil =>
    -- no mount point is empty
    rw [hnil]
    refine fun c hc => List.find?_eq_none.mpr fun v _ hv => ?_
    exact v.mountPoint_ne (by rw [of_decide_eq_true hv, candidate_noSlash not_mem_nil hc])
  · exact lookup_longest

end Pterodon.FsManager
