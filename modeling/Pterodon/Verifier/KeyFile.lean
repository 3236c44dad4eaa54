import Pterodon.Verifier.KeyGrammar

/-!
# What `load_keys` accepts

Two more facts about the loader are needed besides what it makes of a text. Every store is within
its array or goes to its first element: the first word of a modulus, or byte of a coordinate, is
read on its own and the others by a loop over the length. And every key takes at least one
character, so the loop over the keys comes to its end.
-/

namespace Pterodon.Verifier

open Lib Lib.Logged List Takes

/-! ## What is stored, and what is taken -/

section Stores

/-- The index is one of the array, or the first one. -/
def Store.Near (e : Store) : Prop := e.index < max 1 e.size

theorem takes_scan {P : Store → Prop} (fmt : List Directive) (n : Int) : Takes P (scan fmt n) := by
  constructor
  · intro s e h
    unfold Logs scan at h
    split at h <;> cases h
  · intro s r s' h
    obtain ⟨rfl, _, rfl⟩ := yields_scan.mp h
    exact fscanf_rest_length_le fmt s

theorem takes_scanMore {P : Store → Prop} {store : Nat → Parser Store Unit} :
    ∀ (count i : Nat), (∀ j, i ≤ j → j < i + count → Takes P (store j)) →
      Takes P (scanMore store i count) := by
  intro count
  induction count with
  | zero => exact fun i _ => pure _
  | succ count ih =>
    intro i hstore
    refine (takes_scan _ _).bind fun r => ?_
    refine (hstore i (Nat.le_refl i) (by omega)).bind fun _ => ?_
    exact (ih (i + 1) fun j hlo hhi => hstore j (by omega) (by omega)).bind fun _ => pure _

theorem takes_parseRsaKey : Takes Store.Near parseRsaKey := by
  refine (takes_scan _ _).bind fun head => ?_
  refine ite fail ?_
  refine (takes_scan _ _).bind fun word => ?_
  -- the first word is stored before the loop that goes by the length
  have hfirst : Store.Near ⟨0, Conv.stored .i head.first⟩ :=
    Nat.lt_of_lt_of_le Nat.zero_lt_one (Nat.le_max_left 1 _)
  refine (log hfirst).bind fun _ => ?_
  refine (takes_scanMore _ 1 fun j _ hhi => log ?_).bind fun words => ?_
  · show j < max 1 (Conv.stored .i head.first)
    omega
  refine (takes_scan _ _).bind fun rr => ?_
  refine (takes_scanMore _ 1 fun j _ _ => pure ()).bind fun rrs => ?_
  exact (takes_scan _ _).bind fun tail => pure _

theorem takes_parseCoordinate {n : Nat} (hn : 0 < n) : Takes Store.Near (parseCoordinate n) := by
  have hnear : ∀ j, Store.Near ⟨n - j - 1, n⟩ := by
    unfold Store.Near
    dsimp only
    omega
  refine (takes_scan _ _).bind fun byte => ?_
  refine (log (hnear 0)).bind fun _ => ?_
  refine (takes_scanMore _ 1 fun j _ _ => log (hnear j)).bind fun bytes => ?_
  exact (takes_scan _ _).bind fun tail => pure _

variable {onCurve : Nat → Nat → Bool}

theorem takes_parseEcKey : Takes Store.Near (parseEcKey onCurve) := by
  have hcoordinate := takes_parseCoordinate (show 0 < orderBytes by decide)
  refine (takes_scan _ _).bind fun head => ?_
  refine ite fail ?_
  refine hcoordinate.bind fun x => hcoordinate.bind fun y => (takes_scan _ _).bind fun tail => ?_
  exact ite (pure _) fail

theorem takes_version {P : Store → Prop} (c : Char) :
    Takes P (if c = '{' then pure .brace else if c = 'v' then do
      let r ← scan [.num .d, .space, .lit '{'] 1
      pure (.version r.first (r.stop = .complete)) else pure (.other c) : Parser Store Start) :=
  ite (pure _) (ite ((takes_scan _ _).bind fun _ => pure _) (pure _))

theorem takes_loadBody (start : Start) : Takes Store.Near (loadBody onCurve start) := by
  unfold loadBody
  split
  · exact fail
  split
  · exact takes_parseRsaKey.bind fun r => pure _
  · exact takes_parseEcKey.bind fun r => pure _

theorem logsOnly_loadKeysFrom (fuel : Nat) : LogsOnly Store.Near (loadKeysFrom onCurve fuel) := by
  have hchar : LogsOnly Store.Near scanChar := by
    intro s e h
    unfold Logs scanChar at h
    split at h <;> cases h
  have hgetc : LogsOnly Store.Near fgetc := by
    intro s e h
    cases s <;> cases h
  induction fuel with
  | zero => exact LogsOnly.fail
  | succ fuel ih =>
    have hstart := hchar.bind fun c => (takes_version c).logs
    have hkey : LogsOnly Store.Near (loadKey onCurve) :=
      hstart.bind fun start => (takes_loadBody start).logs
    refine hkey.bind fun key => hgetc.bind fun ch => ?_
    split
    · exact ih.bind fun keys => LogsOnly.pure _
    · exact LogsOnly.pure _
    · exact LogsOnly.fail

end Stores

/-! ## The loop ends on its own -/

section Rounds

variable {onCurve : Nat → Nat → Bool}

theorem loadKey_takes {s s' : Text} {key : KeyReading} (h : Yields (loadKey onCurve) s key s') :
    s'.length < s.length := by
  obtain ⟨start, s₁, hstart, hbody⟩ := yields_bind.mp h
  obtain ⟨c, s₂, hc, hrest⟩ := yields_bind.mp hstart
  have htaken : s₂.length < s.length := by
    have hskip := skipBlanks_length_le s
    obtain ⟨t, ht, hnil⟩ := Option.bind_eq_some_iff.mp (yields_scanChar.mp hc)
    rw [lexSym_iff.mp ht, Option.some.inj hnil] at hskip
    exact hskip
  calc s'.length ≤ s₁.length := (takes_loadBody start).shrinks s₁ key s' hbody
    _ ≤ s₂.length := (@takes_version Store.Near c).shrinks s₂ start s₁ hrest
    _ < s.length := htaken

theorem loadKeysFrom_fuel : ∀ (fuel fuel' : Nat) (s : Text), s.length < fuel → s.length < fuel' →
    loadKeysFrom onCurve fuel s = loadKeysFrom onCurve fuel' s := by
  intro fuel
  induction fuel with
  | zero =>
    intro fuel' s h
    exact absurd h (Nat.not_lt_zero _)
  | succ fuel ih =>
    intro fuel' s h h'
    obtain ⟨fuel', rfl⟩ : ∃ k, fuel' = k + 1 := ⟨fuel' - 1, by omega⟩
    refine bind_congr fun key s₁ hkey => bind_congr fun ch s₂ hch => ?_
    have hkeyTakes := loadKey_takes hkey
    split
    · rcases yields_fgetc.mp hch with ⟨hnone, _⟩ | ⟨d, _, rfl⟩
      · cases hnone
      · rw [length_cons] at hkeyTakes
        show Logged.bind _ _ s₂ = Logged.bind _ _ s₂
        unfold Logged.bind
        rw [ih fuel' s₂ (by omega) (by omega)]
    · rfl
    · rfl

end Rounds

/-! ## The loader -/

theorem written_proper {onCurve : Nat → Nat → Bool} {file : Text} {readings : List KeyReading}
    {keys : List KeyText} (h : (loadKeys onCurve file).2 = some readings) (hne : keys ≠ [])
    (hall : ∀ k ∈ keys, k.WellFormed) (hwritten : Written keys file) :
    ∀ r ∈ readings, r.Proper := by
  obtain ⟨⟨readings', s'⟩, hyields, rfl⟩ := Option.map_eq_some_iff.mp h
  have hreadings : readings' = keys.map KeyText.reading :=
    loadKeysFrom_complete hyields hne hall hwritten
  intro r hr
  rw [hreadings] at hr
  obtain ⟨k, _, rfl⟩ := mem_map.mp hr
  exact k.reading_proper

/--
**What the loader accepts.** A text it accepts is written in the grammar, with a certificate for
every key as its version says, if and only if all keys were read as they should be: they start with
a brace or a version from 2 to 5, all braces are there, and as many words as declared. A store is
outside its array if and only if the array has no elements. There is no bound on the number of keys.
-/
theorem loadKeys_documented_iff (onCurve : Nat → Nat → Bool) (file : Text) :
    (∀ readings, (loadKeys onCurve file).2 = some readings →
      ((∃ keys : List KeyText, keys ≠ [] ∧ (∀ k ∈ keys, k.WellFormed) ∧ Written keys file ∧
          readings.map KeyReading.cert = keys.map KeyText.certificate) ↔
        ∀ r ∈ readings, r.Proper)) ∧
    ((∀ e ∈ (loadKeys onCurve file).1, e.index < e.size) ↔
      ∀ e ∈ (loadKeys onCurve file).1, e.size ≠ 0) ∧
    ∀ fuel, file.length < fuel →
      loadKeysFrom onCurve fuel file = loadKeysFrom onCurve (file.length + 1) file := by
  refine ⟨fun readings haccepted => ?_, ⟨fun h e he hzero => ?_, fun h e he => ?_⟩,
    fun fuel h => loadKeysFrom_fuel fuel _ file h (Nat.lt_succ_self _)⟩
  · constructor
    · rintro ⟨keys, hne, hall, hwritten, _⟩
      exact written_proper haccepted hne hall hwritten
    · intro hproper
      obtain ⟨⟨readings', s'⟩, hyields, rfl⟩ := Option.map_eq_some_iff.mp haccepted
      obtain ⟨keys, hne, hall, hreadings, hwritten⟩ := loadKeysFrom_sound hyields hproper
      refine ⟨keys, hne, hall, hwritten, ?_⟩
      rw [hreadings, map_map]
      exact map_congr_left fun k _ => k.reading_cert
  · have hlt := h e he
    omega
  · have hnear := logsOnly_loadKeysFrom _ file e he
    have hsize := h e he
    unfold Store.Near at hnear
    omega

section Samples

def twoKeys : Text :=
  "v2 \x7b2,0xc926ad21,\x7b1795090719,-695002876\x7d,\x7b-857949815,1175080310\x7d\x7d,\n".toList ++
    "\x7b1,0x1,\x7b5\x7d,\x7b6\x7d\x7d\n".toList

theorem twoKeys_documented :
    ∃ readings, (loadKeys (fun _ _ => true) twoKeys).2 = some readings ∧
      ∃ keys : List KeyText, keys ≠ [] ∧ (∀ k ∈ keys, k.WellFormed) ∧ Written keys twoKeys ∧
        readings.map KeyReading.cert = keys.map KeyText.certificate := by
  have hsome : (loadKeys (fun _ _ => true) twoKeys).2.isSome = true := by decide +kernel
  have hproper : ∀ readings ∈ (loadKeys (fun _ _ => true) twoKeys).2, ∀ r ∈ readings, r.Proper := by
    decide +kernel
  obtain ⟨readings, haccepted⟩ := Option.isSome_iff_exists.mp hsome
  exact ⟨readings, haccepted, ((loadKeys_documented_iff (fun _ _ => true) twoKeys).1 readings
    haccepted).mpr (hproper readings haccepted)⟩

/-- A key that starts with another character. -/
def otherStart : Text := "x1,0x1,\x7b5\x7d,\x7b6\x7d\x7d".toList

/-- Two keys, the first of them with no brace behind its version nor at its end. -/
def noBraces : Text := "v2 1,0x1,\x7b5\x7d,\x7b6,\x7b1,0x1,\x7b5\x7d,\x7b6\x7d\x7d".toList

def noWords : Text := "\x7b0,0x1,\x7b5\x7d,\x7b6\x7d\x7d".toList

/--
Three files that are accepted: in the first the certificate has no exponent and no hash, the second
is not written in the grammar, for the third a word is stored into an array without elements.
-/
theorem lenient_files :
    (loadKeys (fun _ _ => true) otherStart).2.map (List.map fun r => (r.cert.hashLen, r.cert.key)) =
      some [(0, .rsa [5] 0)] ∧
    (∃ readings, (loadKeys (fun _ _ => true) noBraces).2 = some readings ∧
      ¬ ∃ keys : List KeyText, keys ≠ [] ∧ (∀ k ∈ keys, k.WellFormed) ∧ Written keys noBraces) ∧
    (loadKeys (fun _ _ => true) noWords).2.isSome = true ∧
      ⟨0, 0⟩ ∈ (loadKeys (fun _ _ => true) noWords).1 := by
  have hsome : (loadKeys (fun _ _ => true) noBraces).2.isSome = true := by decide +kernel
  have himproper : ∀ readings ∈ (loadKeys (fun _ _ => true) noBraces).2, ∃ r ∈ readings,
      ¬ r.Proper := by
    decide +kernel
  obtain ⟨readings, haccepted⟩ := Option.isSome_iff_exists.mp hsome
  refine ⟨by decide +kernel, ⟨readings, haccepted, ?_⟩, by decide +kernel, by decide +kernel⟩
  rintro ⟨keys, hne, hall, hwritten⟩
  obtain ⟨r, hr, hnot⟩ := himproper readings haccepted
  exact hnot (written_proper haccepted hne hall hwritten r hr)

end Samples

end Pterodon.Verifier
