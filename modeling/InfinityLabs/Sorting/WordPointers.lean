import InfinityLabs.Lib.Cells
import InfinityLabs.Lib.Separated

/-!
# The words of the dictionary

`CreateArrayPointers` of `projects/sorting/src/mt_q_sort.c` goes over the buffer twice: once to
count the words, and once to write a pointer to each and to end it in place of its newline.
Both loops are the scan for parts between newlines, so the array that the first one asks for
is filled by the second one to its last entry.
-/

namespace InfinityLabs
namespace Sorting
namespace WordPointers

open Lib

/-- `'\n'`. -/
def newline : UInt8 := 10

/-- A `char*` into the buffer. -/
inductive Pointer where
  | null
  | at (i : Nat)
  deriving DecidableEq, Repr

/-- The first loop, with the rounds that are left. -/
def countLoop (buffer : List UInt8) : Nat → Nat → Bool → Nat → Except Fault Nat
  | 0, _, _, count => .ok count
  | left + 1, i, in_word, count => do
      let c ← readCell buffer i
      if c ≠ newline then
        if in_word = false then countLoop buffer left (i + 1) true (count + 1)
        else countLoop buffer left (i + 1) in_word count
      else countLoop buffer left (i + 1) false count

/-- What the second loop leaves; an entry that has not been written is `none`. -/
structure Filling where
  j : Nat
  buffer : List UInt8
  ptrs : List (Option Pointer)

/-- The second loop, with the rounds that are left. -/
def fillLoop : Nat → Nat → Bool → Filling → Except Fault Filling
  | 0, _, _, s => .ok s
  | left + 1, i, in_word, s => do
      let c ← readCell s.buffer i
      if c = newline then do
        let buffer ← writeCell s.buffer i 0
        fillLoop left (i + 1) false { s with buffer := buffer }
      else if in_word = false then do
        let ptrs ← writeCell s.ptrs s.j (some (.at i))
        fillLoop left (i + 1) true { s with j := s.j + 1, ptrs := ptrs }
      else fillLoop left (i + 1) in_word s

/-- What a call leaves: its result, where `none` is `NULL`, the number behind `num_of_words`, and
the buffer. -/
structure Created where
  ptrs : Option (List (Option Pointer))
  num_of_words : Option Nat
  buffer : Option (List UInt8)

/-- `CreateArrayPointers`; `allocated` says that its allocation succeeds, and an argument that is
`none` is `NULL`. -/
def createArrayPointers (allocated : Bool) (buffer : Option (List UInt8)) (length : Nat)
    (num_of_words : Option Nat) : Except Fault Created :=
  match buffer, num_of_words with
  | none, _ => .ok ⟨none, num_of_words, buffer⟩
  | some _, none => .ok ⟨none, num_of_words, buffer⟩
  | some text, some _ =>
      if length = 0 then
        .ok ⟨if allocated then some [some .null] else none, some 0, buffer⟩
      else do
        let count ← countLoop text length 0 false 0
        if allocated then do
          let s ← fillLoop length 0 false ⟨0, text, List.replicate (count + 1) none⟩
          let ptrs ← writeCell s.ptrs s.j (some .null)
          pure ⟨some ptrs, some s.j, some s.buffer⟩
        else pure ⟨none, some 0, buffer⟩

/-! ## The two loops -/

/-- The first loop counts the starts of the words. -/
theorem countLoop_eq (done rest behind : List UInt8) (in_word : Bool) (count : Nat) :
    countLoop (done ++ (rest ++ behind)) rest.length done.length in_word count =
      .ok (count + (partStarts newline done.length in_word rest).length) := by
  induction rest generalizing done in_word count with
  | nil => rfl
  | cons c rest ih =>
      have hread : readCell (done ++ (c :: rest ++ behind)) done.length = .ok c :=
        readCell_split c rfl
      have hrest := ih (done ++ [c])
      simp only [List.append_assoc, List.singleton_append, List.length_append,
        List.length_singleton] at hrest
      rw [List.length_cons, countLoop, hread, ok_bind, partStarts, List.cons_append]
      by_cases hc : c = newline
      case pos => simp [hc, ← hrest]
      case neg =>
        cases in_word with
        | true => simp [hc, hrest]
        | false =>
            simp [hc, hrest]
            omega

/-- The byte that stands in the buffer after the call. -/
def ended (c : UInt8) : UInt8 :=
  if c = newline then 0 else c

/-- The pointers to the words. -/
def pointers (starts : List Nat) : List (Option Pointer) :=
  starts.map fun i => some (.at i)

/-- The second loop writes one pointer for each start, and ends the words. -/
theorem fillLoop_eq (done rest behind : List UInt8) (in_word : Bool)
    (before : List (Option Pointer)) {starts : List Nat}
    (hstarts : partStarts newline done.length in_word rest = starts) :
    fillLoop rest.length done.length in_word
        ⟨before.length, done ++ (rest ++ behind),
          before ++ List.replicate (starts.length + 1) none⟩ =
      .ok ⟨before.length + starts.length, done ++ (rest.map ended ++ behind),
        before ++ (pointers starts ++ [none])⟩ := by
  induction rest generalizing done in_word before starts with
  | nil =>
      subst hstarts
      rfl
  | cons c rest ih =>
      have hread : readCell (done ++ (c :: rest ++ behind)) done.length = .ok c :=
        readCell_split c rfl
      have hlength : ∀ b : UInt8, (done ++ [b]).length = done.length + 1 := by simp
      rw [partStarts] at hstarts
      rw [List.length_cons, fillLoop, hread, ok_bind, List.map_cons]
      by_cases hc : c = newline
      case pos =>
        have hwrite : writeCell (done ++ (c :: rest ++ behind)) done.length 0 =
            .ok (done ++ (0 :: rest ++ behind)) := writeCell_split c 0 rfl
        have hrest := ih (done ++ [0]) false before (by simpa [hc, hlength] using hstarts)
        rw [if_pos hc, hwrite, ok_bind]
        simpa [hlength, ended, hc] using hrest
      case neg =>
        rw [if_neg hc] at hstarts ⊢
        have hkept : ended c = c := if_neg hc
        cases in_word with
        | true =>
            have hrest := ih (done ++ [c]) true before (by simpa [hlength] using hstarts)
            simpa [hlength, hkept] using hrest
        | false =>
            simp only [Bool.false_eq_true, if_false] at hstarts
            subst hstarts
            have hwrite := writeCell_split (l := before) (none : Option Pointer)
              (some (.at done.length)) (i := before.length) rfl
              (r := List.replicate
                ((partStarts newline (done.length + 1) true rest).length + 1) none)
            have hrest := ih (done ++ [c]) true (before ++ [some (.at done.length)])
              (by rw [hlength])
            rw [List.length_cons, List.replicate_succ, hwrite]
            simp [hlength, hkept, pointers] at hrest ⊢
            rw [hrest, Nat.add_right_comm, Nat.add_assoc]

/-! ## The call -/

/-- What a call returns where its allocation succeeds: pointers to the starts, then `NULL`. -/
theorem createArrayPointers_eq (text : List UInt8) (n : Nat) :
    createArrayPointers true (some (text ++ [0])) text.length (some n) =
      .ok ⟨some (pointers (partStarts newline 0 false text) ++ [some Pointer.null]),
        some (partStarts newline 0 false text).length, some (text.map ended ++ [0])⟩ := by
  by_cases hempty : text = []
  case pos =>
    subst hempty
    rfl
  case neg =>
    have hlength : text.length ≠ 0 := fun h => hempty (List.length_eq_zero_iff.mp h)
    have hcount := countLoop_eq [] text [0] false 0
    have hfill := fillLoop_eq [] text [0] false [] (Eq.refl (partStarts newline 0 false text))
    simp only [List.nil_append, List.length_nil, Nat.zero_add] at hcount hfill
    have hend : writeCell (pointers (partStarts newline 0 false text) ++ [none])
        (partStarts newline 0 false text).length (some Pointer.null) =
        .ok (pointers (partStarts newline 0 false text) ++ [some Pointer.null]) :=
      writeCell_split none (some Pointer.null) (by simp [pointers])
    rw [createArrayPointers, if_neg hlength, hcount, ok_bind, if_pos rfl, hfill, ok_bind, hend]
    rfl

/-- Behind a word stands the byte that ends it, and the word itself is kept. -/
theorem ended_part {text : List UInt8} {i e : Nat} (h : IsPart newline text i e) :
    (text.map ended ++ [0])[e]? = some 0 ∧
      ∀ k, i ≤ k → k < e → (text.map ended ++ [0])[k]? = text[k]? := by
  constructor
  · rcases h.right with hend | hsep
    · simp [hend]
    · have hlt : e < text.length := (List.getElem?_eq_some_iff.mp hsep).1
      rw [List.getElem?_append_left (by simpa using hlt), List.getElem?_map, hsep]
      rfl
  · intro k hik hke
    have hlt : k < text.length := Nat.lt_of_lt_of_le hke h.inside
    have hne := h.noSep k hik hke
    rw [List.getElem?_append_left (by simpa using hlt), List.getElem?_map]
    simp [hlt] at hne ⊢
    simp [ended, hne]

/-- **The words are found**: both loops count the same parts between newlines, the pointers are
their starts in order, and fill the array up to its last entry with `NULL` behind them; and
every word is ended. -/
theorem createArrayPointers_words (text : List UInt8) (n : Nat) :
    ∃ starts : List Nat, ∃ buffer : List UInt8,
      countLoop (text ++ [0]) text.length 0 false 0 = .ok starts.length ∧
      createArrayPointers true (some (text ++ [0])) text.length (some n) =
        .ok ⟨some (pointers starts ++ [some Pointer.null]), some starts.length, some buffer⟩ ∧
      starts.Pairwise (· < ·) ∧ (∀ i, i ∈ starts ↔ ∃ e, IsPart newline text i e) ∧
      ∀ i e, IsPart newline text i e →
        buffer[e]? = some 0 ∧ ∀ k, i ≤ k → k < e → buffer[k]? = text[k]? := by
  refine ⟨partStarts newline 0 false text, text.map ended ++ [0], ?_,
    createArrayPointers_eq text n, pairwise_partStarts newline 0 false text, fun i => ?_,
    fun i e => ended_part⟩
  · simpa using countLoop_eq [] text [0] false 0
  · rw [mem_partStarts, ← startsPart_iff]
    simp

/-- Newlines in front, between and behind. -/
example : createArrayPointers true (some [10, 65, 66, 10, 10, 67, 10, 0]) 7 (some 0) =
    .ok ⟨some [some (.at 1), some (.at 5), some Pointer.null], some 2,
      some [0, 65, 66, 0, 0, 67, 0, 0]⟩ := rfl

end WordPointers
end Sorting
end InfinityLabs
