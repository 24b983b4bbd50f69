import InfinityLabs.Lib.Cells
import InfinityLabs.Lib.Occurrences
import InfinityLabs.Sorting.MtQuickSort

/-!
# Two substring searches

`StrStrRec` of `projects/recursion/src/recursion.c` compares with `strncmp` at every place of the
haystack; `StrStr` of `c/ws7/strings.c` compares character by character.

A string in memory is its characters and the byte that ends it.  A pointer into a string is the
memory from its place on, and a read where nothing is left has no result.
-/

namespace InfinityLabs
namespace Recursion

open Lib
open Sorting.MtQuickSort (CString)

/-- A string as it stands in memory. -/
def inMemory (s : CString) : List UInt8 :=
  s.chars ++ [0]

/-! ## The recursive search -/

/-- `strlen`. -/
def strlen : List UInt8 → Except Fault Nat
  | [] => .error .outOfBounds
  | c :: s => if c = 0 then .ok 0 else (strlen s).map (· + 1)

/-- `strncmp`: at most `n` characters, and none behind the end of a string. -/
def strncmp : List UInt8 → List UInt8 → Nat → Except Fault Int
  | _, _, 0 => .ok 0
  | x :: s, y :: t, n + 1 =>
      if x ≠ y then .ok ((x.toNat : Int) - y.toNat)
      else if x = 0 then .ok 0
      else strncmp s t n
  | [], _, _ + 1 => .error .outOfBounds
  | _ :: _, [], _ + 1 => .error .outOfBounds

/-- `StrStrRec`. -/
def strStrRec (haystack needle : List UInt8) : Except Fault (Option (List UInt8)) := do
  let needle_len ← strlen needle
  if (← readCell needle 0) = 0 then pure (some haystack)
  else
    match haystack with
    | [] => .error .outOfBounds
    | c :: rest =>
        if c = 0 then pure none
        else if (← strncmp (c :: rest) needle needle_len) = 0 then pure (some (c :: rest))
        else strStrRec rest needle

/-! ## The search with two loops -/

/-- The inner loop of `StrStr`: where it leaves `n`. -/
def compareLoop : List UInt8 → List UInt8 → Except Fault (List UInt8)
  | [], _ => .error .outOfBounds
  | c :: h, n =>
      if c = 0 then .ok n
      else
        match n with
        | [] => .error .outOfBounds
        | d :: n =>
            if d = 0 then .ok (d :: n) else if c = d then compareLoop h n else .ok (d :: n)

/-- The outer loop of `StrStr`. -/
def strStrLoop (needle : List UInt8) : List UInt8 → Except Fault (Option (List UInt8))
  | [] => .error .outOfBounds
  | c :: rest =>
      if c = 0 then .ok none
      else do
        let n ← compareLoop (c :: rest) needle
        if (← readCell n 0) = 0 then pure (some (c :: rest)) else strStrLoop needle rest

/-- `StrStr`. -/
def strStr (haystack needle : List UInt8) : Except Fault (Option (List UInt8)) := do
  if (← readCell needle 0) = 0 then pure (some haystack) else strStrLoop needle haystack

/-! ## Comparing at a place -/

variable {text needle : List UInt8}

theorem strlen_terminated (h : 0 ∉ text) : strlen (text ++ [0]) = .ok text.length := by
  induction text with
  | nil => rfl
  | cons c text ih =>
      simp at h
      simp [strlen, Ne.symm h.1, ih h.2, Except.map]

/-- The characters of the needle are compared with as many of the text. -/
theorem strncmp_front (text : List UInt8) (hneedle : 0 ∉ needle) :
    ∃ d, strncmp (text ++ [0]) (needle ++ [0]) needle.length = .ok d ∧
      (d = 0 ↔ needle <+: text) := by
  induction needle generalizing text with
  | nil => exact ⟨0, by simp [strncmp], by simp⟩
  | cons y needle ih =>
      simp at hneedle
      cases text with
      | nil =>
          have hne : (0 : UInt8) ≠ y := hneedle.1
          have hpos : y.toNat ≠ 0 := fun h => hne (UInt8.toNat_inj.mp h.symm)
          refine ⟨((0 : UInt8).toNat : Int) - y.toNat, by simp [strncmp, hne], ?_⟩
          simp
          omega
      | cons x text =>
          by_cases hxy : x = y
          case pos =>
            subst hxy
            obtain ⟨d, hd, hfront⟩ := ih text hneedle.2
            refine ⟨d, by simpa [strncmp, Ne.symm hneedle.1] using hd, ?_⟩
            rw [hfront]
            simp
          case neg =>
            have hne : x.toNat ≠ y.toNat := fun h => hxy (UInt8.toNat_inj.mp h)
            refine ⟨(x.toNat : Int) - y.toNat, by simp [strncmp, hxy], ?_⟩
            simp [Ne.symm hxy]
            omega

/-- The inner loop stops at the end of the needle exactly if the text begins with it. -/
theorem compareLoop_front (htext : 0 ∉ text) (hneedle : 0 ∉ needle) :
    ∃ n c, compareLoop (text ++ [0]) (needle ++ [0]) = .ok n ∧ readCell n 0 = .ok c ∧
      (c = 0 ↔ needle <+: text) := by
  induction text generalizing needle with
  | nil =>
      cases needle with
      | nil => exact ⟨[0], 0, rfl, rfl, by simp⟩
      | cons y needle =>
          simp at hneedle
          exact ⟨y :: needle ++ [0], y, rfl, rfl, by simp [Ne.symm hneedle.1]⟩
  | cons x text ih =>
      simp at htext
      cases needle with
      | nil => exact ⟨[0], 0, by simp [compareLoop, Ne.symm htext.1], rfl, by simp⟩
      | cons y needle =>
          simp at hneedle
          by_cases hxy : x = y
          case pos =>
            subst hxy
            obtain ⟨n, c, hloop, hc, hfront⟩ := ih htext.2 hneedle.2
            refine ⟨n, c, ?_, hc, by simpa using hfront⟩
            simpa [compareLoop, Ne.symm htext.1] using hloop
          case neg =>
            refine ⟨y :: needle ++ [0], y, ?_, rfl, ?_⟩
            · simp [compareLoop, Ne.symm htext.1, Ne.symm hneedle.1, hxy]
            · simp [Ne.symm hneedle.1, Ne.symm hxy]

/-! ## From place to place -/

/-- A place in the rest is one further from the front. -/
theorem map_drop_cons {α : Type} (a : α) (memory : List α) (r : Option Nat) :
    (r.map (· + 1)).map (a :: memory).drop = r.map memory.drop := by
  cases r <;> rfl

/-- `StrStrRec` returns the first place. -/
theorem strStrRec_finds (htext : 0 ∉ text) (hneedle : 0 ∉ needle) :
    ∃ r, FirstOccurrence needle text r ∧
      strStrRec (text ++ [0]) (needle ++ [0]) = .ok (r.map (text ++ [0]).drop) := by
  have hlen := strlen_terminated hneedle
  cases needle with
  | nil => exact ⟨some 0, firstOccurrence_front ⟨_, rfl⟩, by cases text <;> rfl⟩
  | cons y needle =>
      have hfirst : readCell (y :: needle ++ [0]) 0 = .ok y := rfl
      have hy : y ≠ 0 := fun h => hneedle (by simp [h])
      induction text with
      | nil =>
          refine ⟨none, firstOccurrence_nil (by simp), ?_⟩
          simp only [List.nil_append]
          rw [strStrRec, hlen, hfirst]
          simp [hy]
      | cons x text ih =>
          simp at htext
          obtain ⟨r, hr, hrest⟩ := ih htext.2
          obtain ⟨d, hd, hfront⟩ := strncmp_front (x :: text) hneedle
          rw [List.cons_append] at hd ⊢
          have hx : x ≠ 0 := Ne.symm htext.1
          rw [strStrRec, hlen, hfirst]
          simp only [ok_bind, if_neg hy, if_neg hx, hd]
          by_cases hzero : d = 0
          case pos =>
            refine ⟨some 0, firstOccurrence_front (hfront.mp hzero), ?_⟩
            rw [if_pos hzero]
            rfl
          case neg =>
            refine ⟨_, firstOccurrence_cons (fun h => hzero (hfront.mpr h)) hr, ?_⟩
            rw [map_drop_cons, ← hrest, if_neg hzero]

/-- The outer loop of `StrStr` ends at the first place. -/
theorem strStrLoop_finds (htext : 0 ∉ text) (hneedle : 0 ∉ needle) (hne : needle ≠ []) :
    ∃ r, FirstOccurrence needle text r ∧
      strStrLoop (needle ++ [0]) (text ++ [0]) = .ok (r.map (text ++ [0]).drop) := by
  induction text with
  | nil => exact ⟨none, firstOccurrence_nil hne, rfl⟩
  | cons x text ih =>
      obtain ⟨n, c, hloop, hc, hfront⟩ := compareLoop_front htext hneedle
      simp at htext
      obtain ⟨r, hr, hrest⟩ := ih htext.2
      rw [List.cons_append] at hloop ⊢
      rw [strStrLoop, hloop]
      by_cases hzero : c = 0
      case pos =>
        refine ⟨some 0, firstOccurrence_front (hfront.mp hzero), ?_⟩
        simp [Ne.symm htext.1, hc, hzero]
        rfl
      case neg =>
        refine ⟨_, firstOccurrence_cons (fun h => hzero (hfront.mpr h)) hr, ?_⟩
        rw [map_drop_cons, ← hrest]
        simp [Ne.symm htext.1, hc, hzero]

/-- `StrStr` returns the first place. -/
theorem strStr_finds (htext : 0 ∉ text) (hneedle : 0 ∉ needle) :
    ∃ r, FirstOccurrence needle text r ∧
      strStr (text ++ [0]) (needle ++ [0]) = .ok (r.map (text ++ [0]).drop) := by
  cases needle with
  | nil => exact ⟨some 0, firstOccurrence_front ⟨_, rfl⟩, rfl⟩
  | cons y needle =>
      have hy : y ≠ 0 := fun h => hneedle (by simp [h])
      have hfirst : readCell (y :: needle ++ [0]) 0 = .ok y := rfl
      rw [strStr, hfirst]
      simpa [hy] using strStrLoop_finds htext hneedle (by simp)

/-- **Both searches return the first place** where the needle stands in the haystack, or none,
and read neither string behind its end. -/
theorem substring_searches (haystack needle : CString) :
    ∃ r, FirstOccurrence needle.chars haystack.chars r ∧
      strStrRec (inMemory haystack) (inMemory needle) = .ok (r.map (inMemory haystack).drop) ∧
      strStr (inMemory haystack) (inMemory needle) = .ok (r.map (inMemory haystack).drop) := by
  obtain ⟨r, hr, hrec⟩ := strStrRec_finds haystack.noNul needle.noNul
  obtain ⟨r', hr', hloop⟩ := strStr_finds haystack.noNul needle.noNul
  have hsame : r' = r := hr'.unique hr
  exact ⟨r, hr, hrec, hsame ▸ hloop⟩

end Recursion
end InfinityLabs
