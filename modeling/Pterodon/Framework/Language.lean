import Pterodon.Lib.CString

/-!
# Language files

`LoadLanguages` takes the keys and values out of the lines of XML files, and keeps those of all
files in one map, under the key, an underscore and the name of the language. The lines are taken
apart as they were put together. The names are not: key `a_b` of language `c` and key `a` of
language `b_c` have the same one, and whichever file comes first has it.
-/

namespace Pterodon.Framework.Language

open List Lib

/-- `find_first_of`, from a position on; `none` is `npos`. -/
def findFrom (c : UInt8) (pos : Option Nat) (line : Bytes) : Option Nat :=
  pos.bind fun pos => ((line.drop pos).findIdx? (· = c)).map (pos + ·)

/-- `find_last_of`. -/
def findLast (c : UInt8) (line : Bytes) : Option Nat :=
  (findFrom c (some 0) line.reverse).map (line.length - 1 - ·)

/-- `pos++`, which makes 0 of `npos`. -/
def next (pos : Option Nat) : Nat := (pos.map (· + 1)).getD 0

/-- `substr(pos, stop - pos)`. The difference may wrap; then it is all of the rest. -/
def between (line : Bytes) (pos : Nat) (stop : Option Nat) : Bytes :=
  if pos ≤ stop.getD line.length then (line.drop pos).take (stop.getD line.length - pos)
  else line.drop pos

def stringTag : Bytes := ascii "<string".toList

/-- What the loop over the lines takes out of a line. -/
def scanLine (line : Bytes) : Option (Bytes × Bytes) :=
  let line := line.dropWhile (· ≠ 60)
  if stringTag.isPrefixOf line then
    let keyStart := next (findFrom 34 (some 0) line)
    let keyEnd := findFrom 34 (some keyStart) line
    let valueStart := next (findFrom 62 keyEnd line)
    some (between line keyStart keyEnd, between line valueStart (findLast 60 line))
  else none

/-- The map of a `DataBase`, in the order in which variables were added. -/
abbrev Map : Type := List (Bytes × Bytes)

/-- `DataBase::NewVar`. -/
def newVar (m : Map) (name value : Bytes) : Map :=
  if (m.lookup name).isSome then m else m ++ [(name, value)]

/-- The name of a variable. -/
def variableName (key language : Bytes) : Bytes := key ++ 95 :: language

def loadFile (m : Map) (language : Bytes) (lines : List Bytes) : Map :=
  (lines.filterMap scanLine).foldl (fun m e => newVar m (variableName e.1 language) e.2) m

/-- `LoadLanguages`, with the names and the lines of the files of the folder. -/
def loadLanguages (files : List (Bytes × List Bytes)) (select : Bytes) : Map :=
  files.foldl (fun m f => if select ≠ [] ∧ select ≠ f.1 then m else loadFile m f.1 f.2) []

/-- `parse_language_string`. -/
def parseLanguageString (m : Map) (active key default : Bytes) : Bytes :=
  (m.lookup (variableName key active)).getD default

/-! ## Lines -/

/-- A line of a language file. -/
inductive Line where
  | string (before key value : Bytes)
  | other (text : Bytes)

namespace Line

def text : Line → Bytes
  | string before key value =>
    before ++ (ascii "<string name=\"".toList ++ (key ++ 34 :: 62 ::
      (value ++ ascii "</string>".toList)))
  | other text => text

def entry : Line → Option (Bytes × Bytes)
  | string _ key value => some (key, value)
  | other _ => none

/-- No `<` before the tag and no quote in the key; other lines have no such tag. -/
def WellFormed : Line → Prop
  | string before key _ => 60 ∉ before ∧ 34 ∉ key
  | other text => stringTag.isPrefixOf (text.dropWhile (· ≠ 60)) = false

end Line

section Lines

variable {c : UInt8} {xs ys line : Bytes} {n : Nat}

theorem findFrom_eq (h : line.drop n = xs ++ c :: ys) (hc : c ∉ xs) :
    findFrom c (some n) line = some (n + xs.length) := by
  have hnone : xs.findIdx? (· = c) = none :=
    findIdx?_eq_none_iff.mpr fun b hb => decide_eq_false fun heq => hc (heq ▸ hb)
  rw [findFrom, Option.bind_some, h, findIdx?_append, hnone]
  simp [findIdx?_cons]

theorem findLast_eq (h : line = xs ++ c :: ys) (hc : c ∉ ys) :
    findLast c line = some xs.length := by
  have hrev : line.reverse.drop 0 = ys.reverse ++ c :: xs.reverse := by
    rw [drop_zero, h, reverse_append, reverse_cons, append_assoc, singleton_append]
  rw [findLast, findFrom_eq hrev (mt mem_reverse.mp hc), h]
  simp

theorem between_eq (h : line.drop n = xs ++ ys) : between line n (some (n + xs.length)) = xs := by
  rw [between, Option.getD_some, if_pos (Nat.le_add_right ..), Nat.add_sub_cancel_left, h,
    take_left]

theorem scanLine_text {l : Line} (h : l.WellFormed) : scanLine l.text = l.entry := by
  cases l with
  | other text => exact if_neg (Bool.eq_false_iff.mp h)
  | string before key value =>
    obtain ⟨hbefore, hkey⟩ := h
    obtain ⟨rest, hrest⟩ : ∃ rest, rest = value ++ ascii "</string>".toList := ⟨_, rfl⟩
    obtain ⟨line, hline⟩ : ∃ line, line = ascii "<string name=\"".toList ++
      (key ++ 34 :: 62 :: rest) := ⟨_, rfl⟩
    have hskip : ∀ b ∈ before, decide (b ≠ 60) = true :=
      fun b hb => decide_eq_true fun heq => hbefore (heq ▸ hb)
    have hdrop : (before ++ line).dropWhile (· ≠ 60) = line := by
      rw [dropWhile_append_of_pos hskip, hline]
      rfl
    have hkeyStart : line.drop 14 = key ++ 34 :: 62 :: rest := by rw [hline]; rfl
    have hquote : findFrom 34 (some 0) line = some 13 :=
      @findFrom_eq _ (ascii "<string name=".toList) _ _ _ (by rw [hline]; rfl) (by decide)
    have hkeyEnd : findFrom 34 (some 14) line = some (14 + key.length) :=
      findFrom_eq hkeyStart hkey
    have htag : line.drop (14 + key.length) = [34] ++ 62 :: rest := by
      rw [← drop_drop, hkeyStart, drop_left]
      rfl
    have hvalue : line.drop (14 + key.length + 2) = value ++ ascii "</string>".toList := by
      rw [← drop_drop, htag, ← hrest]
      rfl
    have hlast : findLast 60 line = some (14 + key.length + 2 + value.length) := by
      have hsplit : line = (ascii "<string name=\"".toList ++ (key ++ 34 :: 62 :: value)) ++
          60 :: ascii "/string>".toList := by
        rw [hline, hrest]
        simp [ascii]
      rw [findLast_eq hsplit (by decide)]
      simp [ascii]
      omega
    show scanLine (before ++ (ascii "<string name=\"".toList ++ (key ++ 34 :: 62 ::
      (value ++ ascii "</string>".toList)))) = _
    rw [← hrest, ← hline, scanLine, hdrop, if_pos (by rw [hline]; rfl), hquote]
    show some (between line 14 (findFrom 34 (some 14) line), between line
      (next (findFrom 62 (findFrom 34 (some 14) line) line)) (findLast 60 line)) = _
    rw [hkeyEnd, findFrom_eq htag (by decide), between_eq hkeyStart, hlast]
    exact congrArg (fun v => some (key, v)) (between_eq hvalue)

end Lines

/-! ## Names -/

/-- A file, with the name of its language. -/
abbrev File : Type := Bytes × List Line

def strings (f : File) : Map := f.2.filterMap Line.entry

/-- The strings of a file under the names that they get. -/
def named (f : File) : Map := (strings f).map fun e => (variableName e.1 f.1, e.2)

/-- What a file adds to the map. -/
def vars (select : Bytes) (f : File) : Map := if select ≠ [] ∧ select ≠ f.1 then [] else named f

/-- The files as they are found in the folder. -/
def stored (files : List File) : List (Bytes × List Bytes) :=
  files.map fun f => (f.1, f.2.map Line.text)

section Names

variable {x active : Bytes} {files : List File}

theorem lookup_newVars (es m : Map) :
    (es.foldl (fun m e => newVar m e.1 e.2) m).lookup x = (m ++ es).lookup x := by
  induction es generalizing m with
  | nil => rw [append_nil, foldl_nil]
  | cons e es ih =>
    rw [foldl_cons, ih, newVar]
    split
    · next hsome =>
      rw [lookup_append, lookup_append, lookup_cons]
      by_cases hx : x = e.1
      · obtain ⟨v, hv⟩ := Option.isSome_iff_exists.mp hsome
        rw [hx, hv, Option.some_or, Option.some_or]
      · rw [beq_false_of_ne hx]
    · rw [append_assoc, singleton_append]

theorem lookup_loadLanguages (select : Bytes) (h : ∀ f ∈ files, ∀ l ∈ f.2, l.WellFormed) :
    (loadLanguages (stored files) select).lookup x = (files.flatMap (vars select)).lookup x := by
  have hload : loadLanguages (stored files) select =
      (files.flatMap (vars select)).foldl (fun m e => newVar m e.1 e.2) [] := by
    rw [loadLanguages, stored, foldl_map, foldl_flatMap]
    refine foldl_ext _ _ _ fun m f hf => ?_
    have hscan : (f.2.map Line.text).filterMap scanLine = strings f := by
      rw [filterMap_map]
      exact filterMap_congr fun l hl => scanLine_text (h f hf l hl)
    rw [vars, loadFile, hscan]
    split
    · rfl
    · rw [named, foldl_map]
  rw [hload, lookup_newVars, nil_append]

theorem lookup_named (key : Bytes) (f : File) :
    (named f).lookup (variableName key f.1) = (strings f).lookup key := by
  rw [named]
  induction strings f with
  | nil => rfl
  | cons e es ih =>
    have hname : (variableName key f.1 == variableName e.1 f.1) = (key == e.1) := by
      rw [Bool.eq_iff_iff, beq_iff_eq, beq_iff_eq]
      exact append_left_inj _
    rw [map_cons, lookup_cons, hname, ih, lookup_cons]

/-- The first file that has a name decides. -/
theorem lookup_first (vs : File → Map) : (files.flatMap vs).lookup x =
    (files.find? fun f => ((vs f).lookup x).isSome).bind fun f => (vs f).lookup x := by
  induction files with
  | nil => rfl
  | cons f files ih =>
    rw [flatMap_cons, lookup_append, ih, find?_cons]
    cases hf : (vs f).lookup x with
    | none => rfl
    | some v => simp [hf]

theorem find?_active (hnames : (files.map Prod.fst).Nodup) {f : File} (hf : f ∈ files)
    (hactive : f.1 = active) : files.find? (·.1 = active) = some f := by
  induction files with
  | nil => cases hf
  | cons g files ih =>
    obtain ⟨hnew, hnames⟩ := nodup_cons.mp hnames
    rcases mem_cons.mp hf with rfl | hf
    · exact find?_cons_of_pos (by simpa using hactive)
    · have hother : g.1 ≠ active := fun h =>
        hnew (mem_map.mpr ⟨f, hf, hactive.trans h.symm⟩)
      rw [find?_cons_of_neg (by simpa using hother), ih hnames hf]

/-- The value of a key in the active language's own file. -/
def ownValue (files : List File) (active key : Bytes) : Option Bytes :=
  (files.find? (·.1 = active)).bind fun f => (strings f).lookup key

theorem ownValue_eq (hnames : (files.map Prod.fst).Nodup) {f : File} (hf : f ∈ files)
    (hactive : f.1 = active) (key : Bytes) :
    ownValue files active key = (named f).lookup (variableName key active) := by
  rw [ownValue, find?_active hnames hf hactive, ← hactive, lookup_named]
  rfl

theorem ownValue_eq_none {key : Bytes}
    (h : ∀ f ∈ files, f.1 = active → (named f).lookup (variableName key active) = none) :
    ownValue files active key = none := by
  rw [ownValue]
  cases hf : files.find? (·.1 = active) with
  | none => rfl
  | some f =>
    have hactive : f.1 = active := by simpa using find?_some hf
    rw [Option.bind_some, ← lookup_named, hactive]
    exact h f (mem_of_find?_eq_some hf) hactive

end Names

/-- The value of a key is that of the active language's own file, or else the default, exactly if
only that file is loaded, or the first file in the folder that has a string under the same name is
that file, or gives the name the same value. -/
theorem language_lookup_iff (files : List File) (active select key default : Bytes)
    (hlines : ∀ f ∈ files, ∀ l ∈ f.2, l.WellFormed) (hnames : (files.map Prod.fst).Nodup)
    (hselect : select = [] ∨ select = active) :
    parseLanguageString (loadLanguages (stored files) select) active key default =
        (ownValue files active key).getD default ↔
      (select = [] → ∀ f ∈ files.find? fun f => ((named f).lookup (variableName key active)).isSome,
        f.1 = active ∨ (named f).lookup (variableName key active) =
          some ((ownValue files active key).getD default)) := by
  rw [parseLanguageString, lookup_loadLanguages select hlines, lookup_first]
  rcases eq_or_ne select [] with rfl | hne
  · have hall : vars [] = named := by
      funext f
      simp [vars]
    rw [hall]
    cases hfirst : files.find? fun f => ((named f).lookup (variableName key active)).isSome with
    | none =>
      have hnone : ownValue files active key = none :=
        ownValue_eq_none fun f hf _ => Option.not_isSome_iff_eq_none.mp (find?_eq_none.mp
          hfirst f hf)
      simp [hnone]
    | some f =>
      have hsome := find?_some hfirst
      obtain ⟨v, hv⟩ := Option.isSome_iff_exists.mp hsome
      by_cases hactive : f.1 = active
      · have hown := ownValue_eq hnames (mem_of_find?_eq_some hfirst) hactive key
        simp [hactive, hown]
      · simp [hactive, hv]
  · -- only the active language's file is loaded
    obtain rfl := hselect.resolve_left hne
    simp only [hne, false_implies, iff_true]
    congr 1
    cases hfirst : files.find? fun f => ((vars select f).lookup (variableName key
      select)).isSome with
    | none =>
      refine (ownValue_eq_none fun f hf hactive => ?_).symm
      have hnone := Option.not_isSome_iff_eq_none.mp (find?_eq_none.mp hfirst f hf)
      rwa [vars, if_neg fun h => h.2 hactive.symm] at hnone
    | some f =>
      have hsome := find?_some hfirst
      have hactive : f.1 = select := by
        by_contra hother
        simp [vars, hne, Ne.symm hother] at hsome
      rw [ownValue_eq hnames (mem_of_find?_eq_some hfirst) hactive, Option.bind_some, vars,
        if_neg fun h => h.2 hactive.symm]

/-- Key `a` of language `b_c` is found since its file comes before that with key `a_b` of language
`c`. -/
theorem own_key_found :
    parseLanguageString (loadLanguages (stored [([98, 95, 99], [.string [] [97] [50]]),
      ([99], [.string [] [97, 95, 98] [49]])]) []) [98, 95, 99] [97] [48] = [50] :=
  (language_lookup_iff [([98, 95, 99], [.string [] [97] [50]]),
      ([99], [.string [] [97, 95, 98] [49]])] [98, 95, 99] [] [97] [48]
    (by simp [Line.WellFormed]) (by decide) (.inl rfl)).mpr fun _ => by decide

/-- Key `a_b` of language `c` comes before key `a` of language `b_c`. -/
theorem other_language_found :
    parseLanguageString (loadLanguages (stored [([99], [.string [] [97, 95, 98] [49]]),
      ([98, 95, 99], [.string [] [97] [50]])]) []) [98, 95, 99] [97] [48] = [49] := by
  decide +kernel

end Pterodon.Framework.Language
