import Mathlib.Data.Nat.Digits.Defs
import Mathlib.Logic.Function.Basic
import Mathlib.Tactic.Common

/-!
# Memory by bytes and words

Memory gives every accessible address its byte.  A word is eight bytes, the lowest first, at an
address that is a multiple of eight.  Of what reads and writes do there are two pictures: a section
that holds given bytes, and a section that holds what another one held before.
-/

namespace InfinityLabs
namespace Lib

/-- Why an access has no result. -/
inductive AccessFault where
  | inaccessible
  | misaligned
  | assertion
  deriving DecidableEq, Repr

/-- The bytes in memory, where it is accessible. -/
abbrev ByteMemory := Nat → Option UInt8

/-- The bytes from `a` on are accessible, `n` of them. -/
def Accessible (m : ByteMemory) (a n : Nat) : Prop := ∀ i < n, (m (a + i)).isSome

theorem Accessible.first {m : ByteMemory} {a n : Nat} (h : Accessible m a (n + 1)) :
    (m a).isSome :=
  h 0 (Nat.succ_pos n)

variable {α β : Type} {m : ByteMemory} {a b d s i j k n : Nat} {c : UInt8} {bs : List UInt8}

@[simp] theorem access_ok_bind (x : α) (f : α → Except AccessFault β) :
    (Except.ok x >>= f) = f x := rfl

/-! ## Bytes -/

def readByte (m : ByteMemory) (a : Nat) : Except AccessFault UInt8 :=
  match m a with
  | none => .error .inaccessible
  | some c => .ok c

def writeByte (m : ByteMemory) (a : Nat) (c : UInt8) : Except AccessFault ByteMemory :=
  if (m a).isSome then .ok (Function.update m a (some c)) else .error .inaccessible

def readBytes (m : ByteMemory) : Nat → Nat → Except AccessFault (List UInt8)
  | _, 0 => .ok []
  | a, n + 1 => do
      let c ← readByte m a
      let bs ← readBytes m (a + 1) n
      pure (c :: bs)

def writeBytes : ByteMemory → Nat → List UInt8 → Except AccessFault ByteMemory
  | m, _, [] => .ok m
  | m, a, c :: bs => do
      let m ← writeByte m a c
      writeBytes m (a + 1) bs

/-- The memory with given bytes from `a` on. -/
def written (m : ByteMemory) (a : Nat) (bs : List UInt8) : ByteMemory := fun x =>
  if a ≤ x ∧ x < a + bs.length then bs[x - a]? else m x

/-- The memory with one byte `n` times from `a` on. -/
def filled (m : ByteMemory) (a n : Nat) (c : UInt8) : ByteMemory := fun x =>
  if a ≤ x ∧ x < a + n then some c else m x

/-- The memory with the `n` bytes from `s` on also from `d` on. -/
def moved (m : ByteMemory) (d s n : Nat) : ByteMemory := fun x =>
  if d ≤ x ∧ x < d + n then m (s + (x - d)) else m x

theorem written_cons :
    written (Function.update m a (some c)) (a + 1) bs = written m a (c :: bs) := by
  funext x
  unfold written
  rw [List.length_cons]
  rcases Nat.lt_trichotomy x a with hlt | rfl | hgt
  · rw [if_neg (by omega), if_neg (by omega), Function.update_of_ne (Nat.ne_of_lt hlt)]
  · rw [if_neg (by omega), if_pos (by omega), Function.update_self, Nat.sub_self]
    rfl
  · have hsub : x - a = x - (a + 1) + 1 := by omega
    rw [Function.update_of_ne (Nat.ne_of_gt hgt), hsub, List.getElem?_cons_succ]
    congr 1
    exact propext (by omega)

theorem isSome_update (h : (m b).isSome) : (Function.update m a (some c) b).isSome := by
  by_cases hab : b = a
  case pos => rw [hab, Function.update_self]; rfl
  case neg => rwa [Function.update_of_ne hab]

/-- **Accessible bytes are written.** -/
theorem writeBytes_eq (h : Accessible m a bs.length) :
    writeBytes m a bs = .ok (written m a bs) := by
  induction bs generalizing m a with
  | nil =>
      have hsame : written m a [] = m := by
        funext x
        exact if_neg (by rw [List.length_nil]; omega)
      rw [hsame, writeBytes]
  | cons c bs ih =>
      have hrest : Accessible (Function.update m a (some c)) (a + 1) bs.length := by
        intro i hi
        have hnext := h (i + 1) (by rw [List.length_cons]; omega)
        rw [show a + (i + 1) = a + 1 + i by omega] at hnext
        exact isSome_update hnext
      rw [writeBytes, writeByte, if_pos h.first, access_ok_bind, ih hrest, written_cons]

/-- **Accessible bytes are read.** -/
theorem readBytes_eq (h : Accessible m a n) :
    ∃ bs, readBytes m a n = .ok bs ∧ bs.length = n ∧ ∀ i < n, m (a + i) = bs[i]? := by
  induction n generalizing a with
  | zero => exact ⟨[], rfl, rfl, fun i hi => absurd hi (Nat.not_lt_zero i)⟩
  | succ n ih =>
      have hrest : Accessible m (a + 1) n := by
        intro i hi
        have hnext := h (i + 1) (by omega)
        rwa [show a + (i + 1) = a + 1 + i by omega] at hnext
      obtain ⟨bs, hread, hlength, hget⟩ := ih hrest
      obtain ⟨c, hc⟩ := Option.isSome_iff_exists.mp h.first
      refine ⟨c :: bs, ?_, by rw [List.length_cons, hlength], ?_⟩
      · rw [readBytes, readByte, hc]
        simp only [access_ok_bind, hread]
        rfl
      · intro i hi
        cases i with
        | zero => exact hc
        | succ i =>
            rw [List.getElem?_cons_succ, ← hget i (by omega), show a + (i + 1) = a + 1 + i by omega]

/-! ## Words -/

/-- The word of eight bytes. -/
def wordOf (bs : List UInt8) : Nat := Nat.ofDigits 256 (bs.map UInt8.toNat)

/-- The lowest bytes of a word. -/
def bytesOf : Nat → Nat → List UInt8
  | 0, _ => []
  | n + 1, w => UInt8.ofNat w :: bytesOf n (w / 256)

def readWord (m : ByteMemory) (a : Nat) : Except AccessFault Nat := do
  if a % 8 ≠ 0 then .error .misaligned
  else
    let bs ← readBytes m a 8
    pure (wordOf bs)

def writeWord (m : ByteMemory) (a w : Nat) : Except AccessFault ByteMemory :=
  if a % 8 ≠ 0 then .error .misaligned else writeBytes m a (bytesOf 8 w)

/-- A word has the bytes it is made of. -/
theorem bytesOf_wordOf (bs : List UInt8) : bytesOf bs.length (wordOf bs) = bs := by
  induction bs with
  | nil => rfl
  | cons c bs ih =>
      have hlt := UInt8.toNat_lt c
      have hcons : wordOf (c :: bs) = c.toNat + 256 * wordOf bs := Nat.ofDigits_cons
      have hbyte : UInt8.ofNat (wordOf (c :: bs)) = c := by
        apply UInt8.toNat_inj.mp
        rw [UInt8.toNat_ofNat', hcons]
        omega
      have hrest : wordOf (c :: bs) / 256 = wordOf bs := by omega
      rw [List.length_cons, bytesOf, hbyte, hrest, ih]

theorem length_bytesOf (n w : Nat) : (bytesOf n w).length = n := by
  induction n generalizing w with
  | zero => rfl
  | succ n ih => rw [bytesOf, List.length_cons, ih]

theorem writeWord_eq {w : Nat} (halign : a % 8 = 0) (h : Accessible m a 8) :
    writeWord m a w = .ok (written m a (bytesOf 8 w)) := by
  rw [writeWord, if_neg (by simp [halign]), writeBytes_eq (by rwa [length_bytesOf])]

/-! ## Filling -/

theorem written_replicate : written m a (List.replicate n c) = filled m a n c := by
  funext x
  unfold written filled
  rw [List.length_replicate]
  split
  · rw [List.getElem?_replicate, if_pos (by omega)]
  · rfl

theorem filled_zero : filled m a 0 c = m :=
  funext fun _ => if_neg (by omega)

/-- A section is filled in two parts. -/
theorem filled_filled : filled (filled m a n c) (a + n) k c = filled m a (n + k) c := by
  funext x
  unfold filled
  grind

theorem Accessible.filled (h : Accessible m b k) : Accessible (Lib.filled m a n c) b k := by
  intro i hi
  unfold Lib.filled
  split
  · rfl
  · exact h i hi

/-- A part of an accessible section. -/
theorem Accessible.part (h : Accessible m a n) (hle : j + k ≤ n) : Accessible m (a + j) k := by
  intro i hi
  rw [Nat.add_assoc]
  exact h (j + i) (by omega)

theorem writeByte_eq_filled (h : (m a).isSome) : writeByte m a c = .ok (filled m a 1 c) := by
  rw [writeByte, if_pos h]
  congr 1
  funext x
  unfold filled
  by_cases hx : x = a
  case pos => rw [hx, Function.update_self, if_pos (by omega)]
  case neg => rw [Function.update_of_ne hx, if_neg (by omega)]

/-! ## Moving -/

theorem moved_zero : moved m d s 0 = m :=
  funext fun _ => if_neg (by omega)

theorem Accessible.moved (hs : Accessible m s n) (h : Accessible m b k) :
    Accessible (Lib.moved m d s n) b k := by
  intro i hi
  unfold Lib.moved
  split
  · exact hs _ (by omega)
  · exact h i hi

/-- A section is moved from its begin on, where what comes later has not been overwritten. -/
theorem moved_moved_back (h : d ≤ s ∨ s + k + j ≤ d) :
    moved (moved m d s k) (d + k) (s + k) j = moved m d s (k + j) := by
  funext x
  unfold moved
  by_cases hfirst : d ≤ x ∧ x < d + k
  case pos => rw [if_neg (by omega), if_pos hfirst, if_pos (by omega)]
  case neg =>
    by_cases hsecond : d + k ≤ x ∧ x < d + k + j
    case pos =>
      rw [if_pos hsecond, if_neg (by omega), if_pos (by omega)]
      congr 1
      omega
    case neg => rw [if_neg hsecond, if_neg hfirst, if_neg (by omega)]

/-- A section is moved from its end on, to a place behind its own. -/
theorem moved_moved_front (h : s ≤ d) :
    moved (moved m (d + j) (s + j) k) d s j = moved m d s (j + k) := by
  funext x
  unfold moved
  by_cases hfirst : d ≤ x ∧ x < d + j
  case pos => rw [if_pos hfirst, if_neg (by omega), if_pos (by omega)]
  case neg =>
    by_cases hsecond : d + j ≤ x ∧ x < d + j + k
    case pos =>
      rw [if_neg hfirst, if_pos hsecond, if_pos (by omega)]
      congr 1
      omega
    case neg => rw [if_neg hfirst, if_neg hsecond, if_neg (by omega)]

/-- `*dest = *src` for bytes. -/
def copyByte (m : ByteMemory) (d s : Nat) : Except AccessFault ByteMemory := do
  let c ← readByte m s
  writeByte m d c

/-- `*dest = *src` for words. -/
def copyWord (m : ByteMemory) (d s : Nat) : Except AccessFault ByteMemory := do
  let w ← readWord m s
  writeWord m d w

theorem written_eq_moved (h : ∀ i < bs.length, m (s + i) = bs[i]?) :
    written m d bs = moved m d s bs.length := by
  funext x
  unfold written moved
  split
  · rw [h _ (by omega)]
  · rfl

theorem copyByte_eq (hd : (m d).isSome) (hs : (m s).isSome) :
    copyByte m d s = .ok (moved m d s 1) := by
  obtain ⟨c, hc⟩ := Option.isSome_iff_exists.mp hs
  rw [copyByte, readByte, hc, access_ok_bind, writeByte_eq_filled hd]
  congr 1
  funext x
  unfold filled moved
  split
  · rw [show x - d = 0 by omega, Nat.add_zero, hc]
  · rfl

theorem copyWord_eq (hdalign : d % 8 = 0) (hsalign : s % 8 = 0) (hd : Accessible m d 8)
    (hs : Accessible m s 8) : copyWord m d s = .ok (moved m d s 8) := by
  obtain ⟨bs, hread, hlength, hget⟩ := readBytes_eq hs
  have hword : readWord m s = .ok (wordOf bs) := by
    rw [readWord, if_neg (by simp [hsalign]), hread]
    rfl
  have hbytes := bytesOf_wordOf bs
  rw [hlength] at hbytes
  rw [copyWord, hword, access_ok_bind, writeWord_eq hdalign hd, hbytes,
    written_eq_moved (by rwa [hlength]), hlength]

end Lib
end InfinityLabs
