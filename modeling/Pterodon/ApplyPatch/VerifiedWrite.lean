import Mathlib.Order.Nat
import Pterodon.Lib.Fallible
import Pterodon.ApplyPatch.ApplyPatch

/-!
# Writing a partition on any device

`WriteToPartition` does not trust the device: it reads back what it wrote, and writes once more
from where that differs. Here the device is anything. How it answers a call may depend on all calls
before it, it may write and read less than it is asked for, read other bytes than were written, and
fail. What is known of a run is the log of its calls, and the results are about that log: where the
run succeeds, it ends with a reading of all the data, and what stands before a second attempt is a
reading that differs from the data, nowhere before the position that the attempt writes from.
-/

namespace Pterodon.ApplyPatch.VerifiedWrite

open Lib List

/-! ## The device -/

inductive Mode where
  | readWrite
  | readOnly
  deriving DecidableEq

inductive Event where
  | opened (mode : Mode)
  | seek (position : Nat)
  /-- Of `bytes` as many as `written` were taken. -/
  | write (bytes : Bytes) (written : Nat)
  | fsync
  | closed
  /-- `sync` and the write to `/proc/sys/vm/drop_caches`, which may fail. -/
  | dropCaches
  | read (bytes : Bytes)
  deriving DecidableEq

/-- How a device answers after a log of calls. -/
structure Device where
  opens : List Event → Mode → Bool
  seeks : List Event → Nat → Bool
  write : List Event → (bytes : Bytes) → Option (Fin (bytes.length + 1))
  fsync : List Event → Bool
  close : List Event → Bool
  read : List Event → (room : Nat) → Option {bytes : Bytes // bytes.length ≤ room}

variable (dev : Device)

/-- Why a run does not return 0: it returns -1, or it has not returned yet. -/
inductive Stop where
  | failed
  | unfinished
  deriving DecidableEq

/-- A procedure that calls the device. -/
abbrev Calls : Type → Type := Fallible Stop (List Event)

/-- A call that succeeds or fails. -/
def call (answer : List Event → Bool) (e : Event) : Calls Unit := do
  check (answer (← get)) .failed
  modify (· ++ [e])

def otaWrite (bytes : Bytes) : Calls Nat := do
  match dev.write (← get) bytes with
  | none => throw .failed
  | some written => do
    modify (· ++ [.write bytes written])
    pure written

def otaRead (room : Nat) : Calls Bytes := do
  match dev.read (← get) room with
  | none => throw .failed
  | some bytes => do
    modify (· ++ [.read bytes])
    pure bytes

/-! ## The code -/

/-- The loop `while (start < len)`, for a number of rounds: a device may take nothing, again and
again. -/
def writeLoop (data : Bytes) : Nat → Nat → Calls Unit
  | 0, _ => throw .unfinished
  | fuel + 1, start =>
    if start < data.length then do
      let written ← otaWrite dev ((data.drop start).take (1 <<< 20))
      writeLoop data fuel (start + written)
    else pure ()

/-- The loop `while (so_far < to_read)`: what it leaves in the buffer. It takes `to_read` rounds
at most. -/
def readBlock : Nat → Nat → Calls Bytes
  | _, 0 => pure []
  | 0, _ + 1 => throw .unfinished
  | fuel + 1, toRead + 1 => do
    let bytes ← otaRead dev (toRead + 1)
    check (!bytes.isEmpty) .failed
    let rest ← readBlock fuel (toRead + 1 - bytes.length)
    pure (bytes ++ rest)

/-- The loop over the steps of 4096 bytes: what it leaves in `start`. -/
def verifyLoop (data : Bytes) : Nat → Nat → Calls Nat
  | 0, _ => throw .unfinished
  | fuel + 1, p =>
    if p < data.length then do
      let toRead := min 4096 (data.length - p)
      let buffer ← readBlock dev toRead toRead
      if buffer = (data.drop p).take toRead then verifyLoop data fuel (p + 4096)
      else pure p
    else pure data.length

/-- The attempts, from a position: whether one is successful. -/
def writeAttempts (fuel : Nat) (data : Bytes) : Nat → Nat → Calls Bool
  | 0, _ => pure false
  | attempts + 1, start => do
    call (dev.seeks · start) (.seek start)
    writeLoop dev data fuel start
    call dev.fsync .fsync
    call dev.close .closed
    call (dev.opens · .readOnly) (.opened .readOnly)
    modify (· ++ [.dropCaches])
    call (dev.seeks · 0) (.seek 0)
    let start ← verifyLoop dev data (data.length + 1) 0
    if start = data.length then pure true
    else do
      call dev.close .closed
      call (dev.opens · .readWrite) (.opened .readWrite)
      writeAttempts fuel data attempts start

/-- `WriteToPartition`: the run ends if it returns 0. -/
def writeToPartition (fuel : Nat) (data : Bytes) (target : Text) : Calls Unit :=
  match target.splitOn ':' with
  | tag :: _ :: _ => do
    check (decide (tag = emmc)) .failed
    call (dev.opens · .readWrite) (.opened .readWrite)
    let success ← writeAttempts dev fuel data 2 0
    check success .failed
    call dev.close .closed
  | _ => throw .failed

/-! ## Calls -/

section

variable {dev : Device} {data : Bytes} {h : List Event} {E : List Event → Prop}

theorem meets_call {answer : List Event → Bool} {e : Event} {Q : Unit → List Event → Prop}
    (hdone : Q () (h ++ [e])) (hstop : E h) : Meets (call answer e) h Q E := by
  exact meets_get_bind (meets_check_bind (fun _ => hdone) hstop)

section

variable {α : Type} {R : α → List Event → Prop}

theorem meets_call_bind {answer : List Event → Bool} {e : Event} {f : Unit → Calls α}
    (hdone : Meets (f ()) (h ++ [e]) R E) (hstop : E h) : Meets (call answer e >>= f) h R E :=
  (meets_call hdone hstop).bind fun _ _ hf => hf

theorem meets_otaWrite_bind {bytes : Bytes} {f : Nat → Calls α}
    (hdone : ∀ written, Meets (f written) (h ++ [.write bytes written]) R E) (hstop : E h) :
    Meets (otaWrite dev bytes >>= f) h R E := by
  have hcall : Meets (otaWrite dev bytes) h (fun written h' => Meets (f written) h' R E) E := by
    refine meets_get_bind ?_
    cases dev.write h bytes with
    | none => exact meets_throw hstop
    | some written => exact meets_modify_bind (meets_pure (hdone written))
  exact hcall.bind fun _ _ hf => hf

theorem meets_otaRead_bind {room : Nat} {f : Bytes → Calls α}
    (hdone : ∀ bytes : Bytes, bytes.length ≤ room →
      Meets (f bytes) (h ++ [.read bytes]) R E) (hstop : E h) :
    Meets (otaRead dev room >>= f) h R E := by
  have hcall : Meets (otaRead dev room) h (fun bytes h' => Meets (f bytes) h' R E) E := by
    refine meets_get_bind ?_
    cases dev.read h room with
    | none => exact meets_throw hstop
    | some bytes => exact meets_modify_bind (meets_pure (hdone bytes bytes.property))
  exact hcall.bind fun _ _ hf => hf

end

/-! ## What a verification reads -/

/-- The log has only reads more. -/
def OnlyReads (h h' : List Event) : Prop :=
  ∃ reads : List Bytes, h' = h ++ reads.map .read

theorem OnlyReads.refl (h : List Event) : OnlyReads h h := ⟨[], by simp⟩

theorem OnlyReads.trans {h₁ h₂ : List Event} : OnlyReads h h₁ → OnlyReads h₁ h₂ → OnlyReads h h₂
  | ⟨reads, heq⟩, ⟨more, heq'⟩ => ⟨reads ++ more, by rw [heq', heq]; simp⟩

theorem meets_readBlock : ∀ (fuel toRead : Nat) (h : List Event),
    Meets (readBlock dev fuel toRead) h
      (fun buffer h' => ∃ reads : List Bytes, h' = h ++ reads.map .read ∧
        buffer = reads.flatten ∧ buffer.length = toRead)
      (OnlyReads h)
  | 0, 0, h => meets_pure ⟨[], by simp⟩
  | _ + 1, 0, h => meets_pure ⟨[], by simp⟩
  | 0, _ + 1, h => meets_throw (.refl h)
  | fuel + 1, toRead + 1, h => by
    refine meets_otaRead_bind (fun bytes hle => ?_) (.refl h)
    have hone : OnlyReads h (h ++ [.read bytes]) := ⟨[bytes], rfl⟩
    refine meets_check_bind (fun _ => ?_) hone
    refine Meets.bind ((meets_readBlock fuel _ _).mono (fun _ _ hq => hq)
      fun _ hreads => hone.trans hreads) ?_
    rintro rest _ ⟨reads, rfl, rfl, hlen⟩
    refine meets_pure ⟨bytes :: reads, by simp, by simp, ?_⟩
    rw [length_append]
    omega

/-- What the verification from `p` reads is the data, or it stops in the step from `r` on, where
the bytes read differ from the data. -/
def Verified (data : Bytes) (p : Nat) (got : Bytes) (r : Nat) : Prop :=
  (r = data.length ∧ got = data.drop p) ∨
    (p ≤ r ∧ r < data.length ∧ got.take (r - p) = (data.drop p).take (r - p) ∧
      got ≠ (data.drop p).take got.length)

variable {p : Nat}

theorem Verified.step {r : Nat} {more : Bytes} (hmore : Verified data (p + 4096) more r) :
    Verified data p ((data.drop p).take (min 4096 (data.length - p)) ++ more) r := by
  have hstep : (data.drop p).take (min 4096 (data.length - p)) = (data.drop p).take 4096 := by
    rw [← length_drop, ← take_take, take_length]
  have hsplit : (data.drop p).take 4096 ++ data.drop (p + 4096) = data.drop p := by
    rw [← drop_drop, take_append_drop]
  rw [hstep]
  rcases hmore with ⟨hr, hall⟩ | ⟨hpr, hr, hagree, hdiffer⟩
  · exact .inl ⟨hr, by rw [hall, hsplit]⟩
  · -- the step is a whole one, as the verification came further
    have hlen : ((data.drop p).take 4096).length = 4096 := by
      rw [length_take, length_drop]
      omega
    refine .inr ⟨by omega, hr, ?_, ?_⟩
    · have hfar : r - p = 4096 + (r - (p + 4096)) := by omega
      rw [hfar, take_append, take_of_length_le (by omega), hlen,
        Nat.add_sub_cancel_left, hagree, take_add, drop_drop]
    · intro heq
      rw [length_append, hlen, take_add, drop_drop] at heq
      exact hdiffer (append_cancel_left heq)

theorem meets_verifyLoop : ∀ (fuel p : Nat) (h : List Event),
    Meets (verifyLoop dev data fuel p) h
      (fun r h' => ∃ reads : List Bytes, h' = h ++ reads.map .read ∧
        Verified data p reads.flatten r)
      (OnlyReads h)
  | 0, _, h => meets_throw (.refl h)
  | fuel + 1, p, h => by
    rw [verifyLoop]
    by_cases hp : p < data.length
    · rw [if_pos hp]
      refine (meets_readBlock _ _ h).bind ?_
      rintro buffer _ ⟨reads, rfl, rfl, hlen⟩
      by_cases heq : reads.flatten = (data.drop p).take (min 4096 (data.length - p))
      · rw [if_pos heq]
        have hone : OnlyReads h (h ++ reads.map .read) := ⟨reads, rfl⟩
        refine (meets_verifyLoop fuel _ _).mono ?_ fun _ hmore => hone.trans hmore
        rintro r _ ⟨more, rfl, hmore⟩
        refine ⟨reads ++ more, by simp, ?_⟩
        rw [flatten_append, heq]
        exact hmore.step
      · rw [if_neg heq]
        refine meets_pure ⟨reads, rfl, .inr ⟨Nat.le_refl _, hp, ?_, ?_⟩⟩
        · rw [Nat.sub_self, take_zero, take_zero]
        · rw [hlen]
          exact heq
    · rw [if_neg hp]
      refine meets_pure ⟨[], by simp, .inl ⟨rfl, ?_⟩⟩
      rw [drop_eq_nil_of_le (by omega)]
      rfl

/-! ## The log of any run -/

/-- Byte `m` is the first one that is not the data's. -/
def FirstMismatch (data got : Bytes) (m : Nat) : Prop :=
  m < got.length ∧ (∀ k < m, got[k]? = data[k]?) ∧ got[m]? ≠ data[m]?

/-- The log ends with a verification that failed, and `p` is not after the first byte in which
it differs. -/
def RetryAfter (data : Bytes) (log : List Event) (p : Nat) : Prop :=
  ∃ (before : List Event) (reads : List Bytes) (m : Nat),
    log = before ++ .seek 0 :: reads.map .read ++ [.closed] ∧
      FirstMismatch data reads.flatten m ∧ p ≤ m

/-- Where the write loop of an attempt stands, told from the calls after its seek. -/
inductive Cursor where
  | writing (position : Nat)
  | over
  | astray
  deriving DecidableEq

/-- A write takes the data on from the position. Anything else is called after the last of them. -/
def Cursor.next (data : Bytes) : Cursor → Event → Cursor
  | .writing q, .write bytes written =>
    if bytes = (data.drop q).take (1 <<< 20) then .writing (q + written) else .astray
  | .writing q, _ => if q < data.length then .astray else .over
  | .over, _ => .over
  | .astray, _ => .astray

/-- The calls write the data from `p` on before they do anything else. -/
def Rewrites (data : Bytes) (p : Nat) (calls : List Event) : Prop :=
  calls.foldl (Cursor.next data) (.writing p) ≠ .astray

/-- At every attempt in the log: a failed verification stands before it if it is not the first, and
its writes are over or it is the last attempt, which stands at `c`. -/
structure Inv (data : Bytes) (c : Cursor) (h : List Event) : Prop where
  kept : c ≠ .astray
  attempts : ∀ {a b : List Event} {p : Nat}, h = a ++ .opened .readWrite :: .seek p :: b →
    (a ≠ [] → RetryAfter data a p) ∧
      (b.foldl (Cursor.next data) (.writing p) = c ∨
        b.foldl (Cursor.next data) (.writing p) = .over)

theorem Inv.nil : Inv data .over [] :=
  ⟨Cursor.noConfusion, fun heq => absurd heq.symm (by simp)⟩

theorem Inv.snoc {c : Cursor} {e : Event} (hi : Inv data c h) (hc : c.next data e ≠ .astray)
    (he : (∀ p, e ≠ .seek p) ∨ ∀ a, h ≠ a ++ [.opened .readWrite]) :
    Inv data (c.next data e) (h ++ [e]) := by
  refine ⟨hc, fun {a b p} heq => ?_⟩
  rcases eq_nil_or_concat' b with rfl | ⟨b, x, rfl⟩
  · -- the call would be the seek of the attempt
    have hlast : h ++ [e] = a ++ [.opened .readWrite] ++ [.seek p] := by simpa using heq
    obtain ⟨hh, hx⟩ := append_inj' hlast rfl
    rcases he with he | he
    · exact absurd (List.cons.inj hx).1 (he p)
    · exact absurd hh (he a)
  · have hlast : h ++ [e] = (a ++ .opened .readWrite :: .seek p :: b) ++ [x] := by simpa using heq
    obtain ⟨hh, hx⟩ := append_inj' hlast rfl
    obtain rfl := (List.cons.inj hx).1
    obtain ⟨hretry, hfold⟩ := hi.attempts hh
    refine ⟨hretry, ?_⟩
    rw [foldl_append, foldl_cons, foldl_nil]
    rcases hfold with hfold | hfold
    · exact .inl (by rw [hfold])
    · exact .inr (by rw [hfold]; rfl)

theorem Inv.seek {a : List Event} (hi : Inv data .over (a ++ [.opened .readWrite]))
    (ha : a ≠ [] → RetryAfter data a p) :
    Inv data (.writing p) (a ++ [.opened .readWrite] ++ [.seek p]) := by
  refine ⟨Cursor.noConfusion, fun {a' b p'} heq => ?_⟩
  rcases eq_nil_or_concat' b with rfl | ⟨b, x, rfl⟩
  · have hlast : a ++ [.opened .readWrite] ++ [.seek p] =
        a' ++ [.opened .readWrite] ++ [.seek p'] := by simpa using heq
    obtain ⟨hh, hx⟩ := append_inj' hlast rfl
    obtain ⟨rfl, -⟩ := append_inj' hh rfl
    obtain rfl := Event.seek.inj (List.cons.inj hx).1
    exact ⟨ha, .inl rfl⟩
  · have hlast : a ++ [.opened .readWrite] ++ [.seek p] =
        (a' ++ .opened .readWrite :: .seek p' :: b) ++ [x] := by simpa using heq
    obtain ⟨hh, -⟩ := append_inj' hlast rfl
    obtain ⟨hretry, hfold⟩ := hi.attempts hh
    refine ⟨hretry, .inr ?_⟩
    rw [foldl_append, hfold.elim id id]
    rfl

theorem Inv.over (hi : Inv data .over h) (e : Event) (he : ∀ p, e ≠ .seek p) :
    Inv data .over (h ++ [e]) :=
  hi.snoc Cursor.noConfusion (.inl he)

theorem Inv.reads (hi : Inv data .over h) (reads : List Bytes) :
    Inv data .over (h ++ reads.map .read) := by
  induction reads generalizing h with
  | nil => rwa [map_nil, append_nil]
  | cons bytes reads ih => simpa using ih (hi.over (.read bytes) nofun)

theorem meets_writeLoop : ∀ (fuel start : Nat) (h : List Event), Inv data (.writing start) h →
    Meets (writeLoop dev data fuel start) h
      (fun _ h' => ∃ q, data.length ≤ q ∧ Inv data (.writing q) h') (∃ c, Inv data c ·)
  | 0, start, h, hi => meets_throw ⟨_, hi⟩
  | fuel + 1, start, h, hi => by
    rw [writeLoop]
    by_cases hlt : start < data.length
    · rw [if_pos hlt]
      refine meets_otaWrite_bind (fun written => ?_) ⟨_, hi⟩
      refine meets_writeLoop fuel (start + written) _ ?_
      have hnext : Cursor.next data (.writing start)
          (.write ((data.drop start).take (1 <<< 20)) written) = .writing (start + written) :=
        if_pos rfl
      rw [← hnext]
      exact hi.snoc (by rw [hnext]; nofun) (.inl nofun)
    · rw [if_neg hlt]
      exact meets_pure ⟨start, Nat.le_of_not_lt hlt, hi⟩

/-- The log ends with a reading of all the data from the start of the partition. -/
def ReadsBack (data : Bytes) (log : List Event) : Prop :=
  ∃ (before : List Event) (reads : List Bytes),
    log = before ++ .opened .readOnly :: .dropCaches :: .seek 0 :: reads.map .read ∧
      reads.flatten = data

theorem exists_firstMismatch {got : Bytes} (hagree : got.take p = data.take p)
    (hdiffer : got ≠ data.take got.length) : ∃ m, FirstMismatch data got m ∧ p ≤ m := by
  have hex : ∃ m : Nat, got[m]? ≠ (data.take got.length)[m]? := by
    by_contra hall
    exact hdiffer (ext_getElem? fun m => not_not.mp fun hne => hall ⟨m, hne⟩)
  have hlt : Nat.find hex < got.length := by
    by_contra hge
    refine Nat.find_spec hex ?_
    rw [getElem?_eq_none (Nat.le_of_not_lt hge), getElem?_take_eq_none (Nat.le_of_not_lt hge)]
  have hfirst : FirstMismatch data got (Nat.find hex) := by
    refine ⟨hlt, fun k hk => ?_, ?_⟩
    · have hsame := not_not.mp (Nat.find_min hex hk)
      rwa [getElem?_take_of_lt (hk.trans hlt)] at hsame
    · have hne := Nat.find_spec hex
      rwa [getElem?_take_of_lt hlt] at hne
  refine ⟨_, hfirst, Nat.le_of_not_lt fun hp => hfirst.2.2 ?_⟩
  rw [← getElem?_take_of_lt hp, hagree, getElem?_take_of_lt hp]

theorem meets_writeAttempts {fuel : Nat} : ∀ (attempts start : Nat) (a : List Event),
    Inv data .over (a ++ [.opened .readWrite]) → (a ≠ [] → RetryAfter data a start) →
    Meets (writeAttempts dev fuel data attempts start) (a ++ [.opened .readWrite])
      (fun success h' => Inv data .over h' ∧ (success = true → ReadsBack data h'))
      (∃ c, Inv data c ·)
  | 0, _, a, hi, _ => meets_pure ⟨hi, nofun⟩
  | attempts + 1, start, a, hi, ha => by
    have hseek := hi.seek ha
    refine meets_call_bind ?_ ⟨_, hi⟩
    refine (meets_writeLoop fuel start _ hseek).bind ?_
    rintro _ h ⟨q, hq, hwritten⟩
    -- from here on the write loop of this attempt is over
    have hsync : Inv data .over (h ++ [.fsync]) := by
      have hnext : Cursor.next data (.writing q) .fsync = .over := if_neg (by omega)
      rw [← hnext]
      exact hwritten.snoc (by rw [hnext]; nofun) (.inl nofun)
    have hclose := hsync.over .closed nofun
    have hopen := hclose.over (.opened .readOnly) nofun
    have hdrop := hopen.over .dropCaches nofun
    have hback := hdrop.snoc (Cursor.noConfusion : Cursor.next data .over (.seek 0) ≠ .astray)
      (.inr fun _ heq => nomatch (append_inj' heq rfl).2)
    refine meets_call_bind ?_ ⟨_, hwritten⟩
    refine meets_call_bind ?_ ⟨_, hsync⟩
    refine meets_call_bind ?_ ⟨_, hclose⟩
    refine meets_modify_bind ?_
    refine meets_call_bind ?_ ⟨_, hdrop⟩
    refine Meets.bind ((meets_verifyLoop _ 0 _).mono (fun _ _ hq => hq) ?_) ?_
    · rintro _ ⟨reads, rfl⟩
      exact ⟨_, hback.reads reads⟩
    rintro r _ ⟨reads, rfl, hverified⟩
    rcases hverified with ⟨rfl, hall⟩ | ⟨-, hr, hagree, hdiffer⟩
    · rw [if_pos rfl]
      exact meets_pure ⟨hback.reads reads, fun _ =>
        ⟨h ++ [Event.fsync, .closed], reads, by simp, by rw [hall, drop_zero]⟩⟩
    · rw [if_neg (by omega)]
      obtain ⟨m, hm, hrm⟩ := exists_firstMismatch hagree hdiffer
      have hshut := (hback.reads reads).over .closed nofun
      refine meets_call_bind ?_ ⟨_, hback.reads reads⟩
      refine meets_call_bind ?_ ⟨_, hshut⟩
      refine meets_writeAttempts attempts r _ (hshut.over _ nofun) fun _ => ?_
      exact ⟨h ++ [Event.fsync, .closed, .opened .readOnly, .dropCaches], reads, m, by simp, hm,
        hrm⟩

end

/-- A run that returns 0 ends with a reading of the data, after the last of its writes. And in the
log of any run, an attempt that is not the first comes after a reading that differs from the data.
It writes the data from a position that is not after the first byte that differs. -/
theorem writeToPartition_verified (dev : Device) (fuel : Nat) (data : Bytes) (target : Text) :
    (∀ log, Ends (writeToPartition dev fuel data target) [] () log →
      ∃ (before : List Event) (reads : List Bytes),
        log = before ++ .opened .readOnly :: .dropCaches :: .seek 0 ::
          (reads.map .read ++ [.closed]) ∧ reads.flatten = data) ∧
    ∀ (before after : List Event) (p : Nat), before ≠ [] →
      ((writeToPartition dev fuel data target).run.run []).2 =
        before ++ .opened .readWrite :: .seek p :: after →
      RetryAfter data before p ∧ Rewrites data p after := by
  have hrun : Meets (writeToPartition dev fuel data target) []
      (fun _ log => (∃ h, log = h ++ [.closed] ∧ ReadsBack data h) ∧ ∃ c, Inv data c log)
      (∃ c, Inv data c ·) := by
    unfold writeToPartition
    split
    · have hnone : Inv data .over [] := .nil
      have hopen := hnone.over (.opened .readWrite) nofun
      refine meets_check_bind (fun _ => ?_) ⟨_, hnone⟩
      refine meets_call_bind ?_ ⟨_, hnone⟩
      refine Meets.bind (meets_writeAttempts 2 0 [] hopen (absurd rfl)) ?_
      rintro success h ⟨hi, hback⟩
      refine meets_check_bind (fun hok => ?_) ⟨_, hi⟩
      exact meets_call ⟨⟨h, rfl, hback hok⟩, _, hi.over _ nofun⟩ ⟨_, hi⟩
    · exact meets_throw ⟨_, .nil⟩
  refine ⟨fun log hends => ?_, fun before after p hne hlog => ?_⟩
  · obtain ⟨h, rfl, before, reads, rfl, hall⟩ := (hrun.ends hends).1
    exact ⟨before, reads, by simp, hall⟩
  · obtain ⟨c, hi⟩ : ∃ c, Inv data c ((writeToPartition dev fuel data target).run.run []).2 :=
      hrun.always (fun _ _ hq => hq.2) fun _ hE => hE
    obtain ⟨hretry, hfold⟩ := hi.attempts hlog
    refine ⟨hretry hne, fun hastray => ?_⟩
    rcases hfold with hfold | hfold
    · exact hi.kept (hfold ▸ hastray)
    · cases hfold.symm.trans hastray

/-! A device that takes two bytes at a time, gives one at a time, and stores the first attempt
wrong. -/
namespace Lossy

def data : Bytes := [1, 2, 3]

def target : Text := "EMMC:p".toList

/-- What it reads from the start on. -/
def stored (log : List Event) : Bytes :=
  if log.count .dropCaches = 1 then [1, 9, 3] else data

def readSoFar (log : List Event) : Nat :=
  (log.reverse.takeWhile (· ≠ .seek 0)).length

def device : Device where
  opens _ _ := true
  seeks _ _ := true
  write _ bytes := some ⟨min 2 bytes.length, by omega⟩
  fsync _ := true
  close _ := true
  read log room := some ⟨((stored log).drop (readSoFar log)).take (min 1 room), by
    rw [length_take]
    omega⟩

def log : List Event := ((writeToPartition device 4 data target).run.run []).2

end Lossy

theorem writeToPartition_verified_lossy : (∃ (before : List Event) (reads : List Bytes),
      Lossy.log = before ++ .opened .readOnly :: .dropCaches :: .seek 0 ::
        (reads.map .read ++ [.closed]) ∧ reads.flatten = Lossy.data) ∧
      RetryAfter Lossy.data (Lossy.log.take 13) 0 ∧
      Rewrites Lossy.data 0 (Lossy.log.drop 15) := by
  have hboth := writeToPartition_verified Lossy.device 4 Lossy.data Lossy.target
  have hlog : Lossy.log =
      Lossy.log.take 13 ++ .opened .readWrite :: .seek 0 :: Lossy.log.drop 15 := by
    decide +kernel
  exact ⟨hboth.1 _ (ends_of_isOk (by decide +kernel)), hboth.2 _ _ 0 (by decide +kernel) hlog⟩

end Pterodon.ApplyPatch.VerifiedWrite
