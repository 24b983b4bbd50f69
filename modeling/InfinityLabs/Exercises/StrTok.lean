import InfinityLabs.Lib.Cells
import InfinityLabs.Lib.Separated
import InfinityLabs.Recursion.SubstringSearch

/-!
# Cutting a string into tokens

`StrTok` of `c/ws7/strings.c`.  It keeps a pointer from call to call, skips delimiters from there
on, and cuts the string behind the token by overwriting the delimiter.  A call that reaches the end
of the string leaves no pointer, and from then on nothing is found.

The string is an array of characters that is written to, and pointers into it are places.
-/

namespace InfinityLabs
namespace Exercises
namespace StrTok

open Lib
open Sorting.MtQuickSort (CString)
open Recursion (inMemory)

/-! ## The code -/

/-- The string in memory, and the static pointer; `none` is `NULL`. -/
structure TokState where
  cells : List UInt8
  next : Option Nat
  deriving DecidableEq, Repr

/-- The character `d` points to behind the inner loop over the delimiters that skips. -/
def scanDelimiters (c : UInt8) : List UInt8 → Except Fault UInt8
  | [] => .error .outOfBounds
  | d :: delimiters => if d ≠ 0 ∧ d ≠ c then scanDelimiters c delimiters else .ok d

/-- The inner loop over the delimiters that cuts. -/
def findDelimiter (c : UInt8) : List UInt8 → Except Fault Bool
  | [] => .error .outOfBounds
  | d :: delimiters =>
      if d = 0 then .ok false else if d = c then .ok true else findDelimiter c delimiters

/-- The loop that skips delimiters. -/
def skipDelimiters (delimiters cells : List UInt8) : Nat → Nat → Except Fault Nat
  | 0, _ => .error .outOfFuel
  | fuel + 1, next => do
      let c ← readCell cells next
      if c = 0 then pure next
      else if (← scanDelimiters c delimiters) = 0 then pure next
      else skipDelimiters delimiters cells fuel (next + 1)

/-- The loop that cuts the token: the string, and the static pointer. -/
def cutToken (delimiters cells : List UInt8) : Nat → Nat → Except Fault TokState
  | 0, _ => .error .outOfFuel
  | fuel + 1, next => do
      let c ← readCell cells next
      if c = 0 then pure ⟨cells, none⟩
      else if ← findDelimiter c delimiters then
        let cells ← writeCell cells next 0
        pure ⟨cells, some (next + 1)⟩
      else cutToken delimiters cells fuel (next + 1)

/-- `StrTok`: the token's place, and the state it leaves. -/
def strTok (fuel : Nat) (delimiters : List UInt8) (str : Option Nat) (s : TokState) :
    Except Fault (Option Nat × TokState) :=
  match str.or s.next with
  | none => .ok (none, ⟨s.cells, none⟩)
  | some next => do
      let start ← skipDelimiters delimiters s.cells fuel next
      if (← readCell s.cells start) = 0 then pure (none, ⟨s.cells, none⟩)
      else
        let s ← cutToken delimiters s.cells fuel start
        pure (some start, s)

/-- Further calls of `StrTok`, with `NULL`. -/
def furtherCalls (fuel : Nat) (delimiters : List UInt8) :
    Nat → TokState → Except Fault (List (Option Nat) × TokState)
  | 0, s => .ok ([], s)
  | n + 1, s => do
      let (token, s) ← strTok fuel delimiters none s
      let (tokens, s) ← furtherCalls fuel delimiters n s
      pure (token :: tokens, s)

/-- A first call with the string, and further ones. -/
def tokenCalls (fuel : Nat) (delimiters : List UInt8) (n : Nat) (s : TokState) :
    Except Fault (List (Option Nat) × TokState) := do
  let (token, s) ← strTok fuel delimiters (some 0) s
  let (tokens, s) ← furtherCalls fuel delimiters n s
  pure (token :: tokens, s)

/-! ## Tokens -/

variable {delims : CString} {l t blanks token behind : List UInt8} {c : UInt8} {fuel i : Nat}

/-- A character is a delimiter. -/
def isDelimiter (delims : CString) (c : UInt8) : Bool := decide (c ∈ delims.chars)

/-- Where the string has delimiters. -/
def marks (delims : CString) (chars : List UInt8) : List Bool := chars.map (isDelimiter delims)

/-- The places of all tokens, in their order. -/
structure IsTokens (delims : CString) (chars : List UInt8) (starts : List Nat) : Prop where
  ordered : starts.Pairwise (· < ·)
  complete : ∀ i, i ∈ starts ↔ ∃ e, IsPart true (marks delims chars) i e

/-! ## The loops -/

theorem scanDelimiters_eq :
    scanDelimiters c (inMemory delims) = .ok (if isDelimiter delims c then c else 0) := by
  obtain ⟨chars, noNul⟩ := delims
  unfold inMemory isDelimiter
  simp only [decide_eq_true_eq]
  induction chars with
  | nil => rfl
  | cons d chars ih =>
      rw [List.mem_cons, not_or] at noNul
      rw [List.cons_append, scanDelimiters]
      by_cases hd : d = c
      case pos => rw [if_neg (fun h => h.2 hd), if_pos (List.mem_cons.mpr (Or.inl hd.symm)), hd]
      case neg =>
        rw [if_pos ⟨Ne.symm noNul.1, hd⟩, ih noNul.2]
        simp only [List.mem_cons, Ne.symm hd, false_or]

theorem findDelimiter_eq : findDelimiter c (inMemory delims) = .ok (isDelimiter delims c) := by
  obtain ⟨chars, noNul⟩ := delims
  unfold inMemory isDelimiter
  induction chars with
  | nil => simp [findDelimiter]
  | cons d chars ih =>
      rw [List.mem_cons, not_or] at noNul
      rw [List.cons_append, findDelimiter, if_neg (Ne.symm noNul.1)]
      by_cases hd : d = c
      case pos => rw [if_pos hd, decide_eq_true (List.mem_cons.mpr (Or.inl hd.symm))]
      case neg =>
        rw [if_neg hd, ih noNul.2]
        simp only [List.mem_cons, Ne.symm hd, false_or]

/-- Delimiters are skipped up to a character that is none, or to the end. -/
theorem skipDelimiters_eq (hblanks : ∀ c ∈ blanks, isDelimiter delims c = true)
    (hstop : isDelimiter delims c = false) (hi : i = l.length) (hfuel : blanks.length < fuel) :
    skipDelimiters (inMemory delims) (l ++ (blanks ++ c :: t)) fuel i =
      .ok (i + blanks.length) := by
  induction blanks generalizing fuel i l with
  | nil =>
      obtain ⟨fuel, rfl⟩ := Nat.exists_eq_add_of_lt hfuel
      rw [List.length_nil, Nat.zero_add, skipDelimiters, List.nil_append, readCell_split c hi,
        ok_bind]
      by_cases hc : c = 0
      case pos => rw [if_pos hc]; rfl
      case neg => rw [if_neg hc, scanDelimiters_eq, hstop]; rfl
  | cons b blanks ih =>
      obtain ⟨fuel, rfl⟩ : ∃ k, fuel = k + 1 :=
        Nat.exists_eq_succ_of_ne_zero (Nat.ne_of_gt (Nat.zero_lt_of_lt hfuel))
      rw [List.forall_mem_cons] at hblanks
      rw [List.length_cons] at hfuel
      have hb : b ≠ 0 := by
        rintro rfl
        exact delims.noNul (of_decide_eq_true hblanks.1)
      have hrest := @ih (l ++ [b]) fuel (i + 1) hblanks.2 (by simp [hi]) (by omega)
      rw [List.append_assoc, List.singleton_append] at hrest
      rw [List.cons_append, skipDelimiters, readCell_split b hi, ok_bind, if_neg hb,
        scanDelimiters_eq, hblanks.1, ok_bind, if_pos rfl, if_neg hb, hrest, List.length_cons,
        Nat.add_assoc, Nat.add_comm 1]

/-- The characters of the token are passed. -/
theorem cutToken_pass (htoken : ∀ c ∈ token, isDelimiter delims c = false) (hnul : 0 ∉ token)
    (hi : i = l.length) :
    cutToken (inMemory delims) (l ++ (token ++ t)) (fuel + token.length) i =
      cutToken (inMemory delims) (l ++ (token ++ t)) fuel (i + token.length) := by
  induction token generalizing i l with
  | nil => rfl
  | cons c token ih =>
      rw [List.forall_mem_cons] at htoken
      rw [List.mem_cons, not_or] at hnul
      have hrest := @ih (l ++ [c]) (i + 1) htoken.2 hnul.2 (by simp [hi])
      rw [List.append_assoc, List.singleton_append] at hrest
      rw [List.length_cons, ← Nat.add_assoc, cutToken, List.cons_append, readCell_split c hi,
        ok_bind, if_neg (Ne.symm hnul.1), findDelimiter_eq, htoken.1, ok_bind,
        if_neg Bool.false_ne_true, hrest, Nat.add_assoc, Nat.add_comm 1]

theorem cutToken_end (hi : i = l.length) :
    cutToken (inMemory delims) (l ++ 0 :: t) (fuel + 1) i = .ok ⟨l ++ 0 :: t, none⟩ := by
  rw [cutToken, readCell_split 0 hi, ok_bind, if_pos rfl]
  rfl

theorem cutToken_delimiter (hc : isDelimiter delims c = true) (hi : i = l.length) :
    cutToken (inMemory delims) (l ++ c :: t) (fuel + 1) i =
      .ok ⟨l ++ 0 :: t, some (i + 1)⟩ := by
  have hne : c ≠ 0 := by
    rintro rfl
    exact delims.noNul (of_decide_eq_true hc)
  rw [cutToken, readCell_split c hi, ok_bind, if_neg hne, findDelimiter_eq, hc, ok_bind, if_pos rfl,
    writeCell_split c 0 hi, ok_bind]
  rfl

/-! ## One call -/

theorem isDelimiter_zero : isDelimiter delims 0 = false := decide_eq_false delims.noNul

/-- Behind the last token nothing is found. -/
theorem strTok_none (hblanks : ∀ c ∈ blanks, isDelimiter delims c = true)
    (hfuel : blanks.length < fuel) :
    strTok fuel (inMemory delims) none ⟨l ++ (blanks ++ [0]), some l.length⟩ =
      .ok (none, ⟨l ++ (blanks ++ [0]), none⟩) := by
  have hread : readCell (l ++ (blanks ++ [0])) (l.length + blanks.length) = .ok 0 := by
    rw [← List.append_assoc]
    exact readCell_split 0 (by simp)
  simp only [strTok, Option.none_or]
  rw [skipDelimiters_eq hblanks isDelimiter_zero rfl hfuel, ok_bind, hread, ok_bind, if_pos rfl]
  rfl

/-- In front of a token the delimiters are skipped and the token is cut. -/
theorem strTok_some (hblanks : ∀ c ∈ blanks, isDelimiter delims c = true) (hne : token ≠ [])
    (htoken : ∀ c ∈ token, isDelimiter delims c = false) (hnul : 0 ∉ token)
    (hfuel : blanks.length < fuel) :
    strTok fuel (inMemory delims) none ⟨l ++ (blanks ++ (token ++ t)), some l.length⟩ = (do
      let s ← cutToken (inMemory delims) (l ++ (blanks ++ (token ++ t))) fuel
        (l.length + blanks.length)
      pure (some (l.length + blanks.length), s)) := by
  obtain ⟨c, token, rfl⟩ := List.exists_cons_of_ne_nil hne
  have hc : c ≠ 0 := fun h => hnul (by rw [h]; exact List.mem_cons_self)
  have hskip := @skipDelimiters_eq delims l (token ++ t) blanks c fuel l.length hblanks
    (htoken c List.mem_cons_self) rfl hfuel
  have hread :
      readCell (l ++ (blanks ++ (c :: token ++ t))) (l.length + blanks.length) = .ok c := by
    rw [← List.append_assoc]
    exact readCell_split c (by simp)
  simp only [strTok, Option.none_or]
  rw [List.cons_append] at hread ⊢
  rw [hskip, ok_bind, hread, ok_bind, if_neg hc]

theorem strTok_last (hblanks : ∀ c ∈ blanks, isDelimiter delims c = true) (hne : token ≠ [])
    (htoken : ∀ c ∈ token, isDelimiter delims c = false) (hnul : 0 ∉ token)
    (hfuel : blanks.length + token.length < fuel) :
    strTok fuel (inMemory delims) none ⟨l ++ (blanks ++ (token ++ [0])), some l.length⟩ =
      .ok (some (l.length + blanks.length), ⟨l ++ (blanks ++ (token ++ [0])), none⟩) := by
  obtain ⟨fuel, rfl⟩ : ∃ k, fuel = k + 1 + token.length := ⟨fuel - 1 - token.length, by omega⟩
  have hpass := @cutToken_pass delims (l ++ blanks) [0] token (fuel + 1) (l.length + blanks.length)
    htoken hnul (by simp)
  have hend := @cutToken_end delims (l ++ (blanks ++ token)) [] fuel
    (l.length + blanks.length + token.length) (by simp; omega)
  simp only [List.append_assoc] at hpass hend
  rw [strTok_some hblanks hne htoken hnul (by omega), hpass, hend]
  rfl

theorem strTok_token (hblanks : ∀ c ∈ blanks, isDelimiter delims c = true) (hne : token ≠ [])
    (htoken : ∀ c ∈ token, isDelimiter delims c = false) (hnul : 0 ∉ token)
    (hc : isDelimiter delims c = true) (hfuel : blanks.length + token.length < fuel) :
    strTok fuel (inMemory delims) none ⟨l ++ (blanks ++ (token ++ c :: t)), some l.length⟩ =
      .ok (some (l.length + blanks.length), ⟨l ++ (blanks ++ (token ++ 0 :: t)),
        some (l.length + blanks.length + token.length + 1)⟩) := by
  obtain ⟨fuel, rfl⟩ : ∃ k, fuel = k + 1 + token.length := ⟨fuel - 1 - token.length, by omega⟩
  have hpass := @cutToken_pass delims (l ++ blanks) (c :: t) token (fuel + 1)
    (l.length + blanks.length) htoken hnul (by simp)
  have hend := @cutToken_delimiter delims (l ++ (blanks ++ token)) t c fuel
    (l.length + blanks.length + token.length) hc (by simp; omega)
  simp only [List.append_assoc] at hpass hend
  rw [strTok_some hblanks hne htoken hnul (by omega), hpass, hend]
  rfl

/-! ## All calls -/

/-- What some calls return: the places, and then `NULL`. -/
def returned (starts : List Nat) (n : Nat) : List (Option Nat) :=
  (List.range n).map fun k => starts[k]?

theorem returned_nil (n : Nat) : returned [] n = List.replicate n none := by
  simp [returned, List.map_const']

theorem returned_cons (start : Nat) (starts : List Nat) (n : Nat) :
    returned (start :: starts) (n + 1) = some start :: returned starts n := by
  simp [returned, List.range_succ_eq_map]

/-- Without a pointer nothing is found any more. -/
theorem furtherCalls_null (cells : List UInt8) (n : Nat) :
    furtherCalls fuel (inMemory delims) n ⟨cells, none⟩ =
      .ok (List.replicate n none, ⟨cells, none⟩) := by
  induction n with
  | zero => rfl
  | succ n ih =>
      have hcall : strTok fuel (inMemory delims) none ⟨cells, none⟩ = .ok (none, ⟨cells, none⟩) :=
        rfl
      rw [furtherCalls, hcall, ok_bind]
      simp only [ih, ok_bind]
      rfl

/-- The characters from a place up to the next delimiter. -/
def tokenAt (delims : CString) (chars : List UInt8) (i : Nat) : List UInt8 :=
  (chars.drop i).takeWhile fun c => !isDelimiter delims c

theorem tokenAt_front (htoken : ∀ c ∈ token, isDelimiter delims c = false)
    (hbehind : ∀ c ∈ behind.head?, isDelimiter delims c = true) :
    tokenAt delims (blanks ++ (token ++ behind)) blanks.length = token := by
  rw [tokenAt, List.drop_left]
  exact takeWhile_part (fun c hc => by rw [htoken c hc]; rfl) fun c hc => by rw [hbehind c hc]; rfl

theorem tokenAt_behind (j : Nat) :
    tokenAt delims (l ++ behind) (l.length + j) = tokenAt delims behind j := by
  rw [tokenAt, tokenAt, List.drop_append, List.drop_eq_nil_of_le (Nat.le_add_right _ _),
    Nat.add_sub_cancel_left, List.nil_append]

/-- The first token among the marks. -/
theorem partStarts_marks (hblanks : ∀ c ∈ blanks, isDelimiter delims c = true) (hne : token ≠ [])
    (htoken : ∀ c ∈ token, isDelimiter delims c = false) :
    partStarts true i false (marks delims (blanks ++ (token ++ behind))) =
      (i + blanks.length) ::
        partStarts true (i + blanks.length + token.length) true (marks delims behind) := by
  have hmarks : ∀ m ∈ marks delims blanks, m = true := by simpa [marks] using hblanks
  have hinside : ∀ m ∈ marks delims token, m ≠ true := by simpa [marks] using htoken
  have hnonempty : marks delims token ≠ [] := by simpa [marks] using hne
  have hmap : marks delims (blanks ++ (token ++ behind)) =
      marks delims blanks ++ (marks delims token ++ marks delims behind) := by
    simp [marks]
  have hlength : ∀ chars, (marks delims chars).length = chars.length := fun chars => by
    simp [marks]
  rw [hmap, partStarts_blanks hmarks, partStarts_part hnonempty hinside, hlength, hlength]

/-- Calls that go on at the text `rest` behind `l` return its tokens, and end every token found in
memory. -/
def CallsGoOn (fuel : Nat) (delims : CString) (l rest : List UInt8) (n : Nat) : Prop :=
  ∃ s, furtherCalls fuel (inMemory delims) n ⟨l ++ (rest ++ [0]), some l.length⟩ =
      .ok (returned (partStarts true l.length false (marks delims rest)) n, s) ∧
    l <+: s.cells ∧
    ∀ k < n, ∀ j, (partStarts true l.length false (marks delims rest))[k]? = some (l.length + j) →
      Holds s.cells (l.length + j) (tokenAt delims rest j ++ [0])

theorem callsGoOn_none {n : Nat} (hblanks : ∀ c ∈ blanks, isDelimiter delims c = true)
    (hfuel : blanks.length < fuel) : CallsGoOn fuel delims l blanks (n + 1) := by
  have hcall := @strTok_none delims l blanks fuel hblanks hfuel
  have hstarts : partStarts true l.length false (marks delims blanks) = [] := by
    have hmarks : ∀ m ∈ marks delims blanks, m = true := by simpa [marks] using hblanks
    have hpass := @partStarts_blanks _ true _ l.length _ [] hmarks
    rw [List.append_nil] at hpass
    rw [hpass, partStarts]
  refine ⟨⟨l ++ (blanks ++ [0]), none⟩, ?_, List.prefix_append l _, ?_⟩
  · rw [hstarts, returned_nil, furtherCalls, hcall, ok_bind]
    simp only [furtherCalls_null]
    rfl
  · rw [hstarts]
    intro k _ j hj
    cases hj

/-- The token that has just been cut is ended. -/
theorem holds_token (htoken : ∀ c ∈ token, isDelimiter delims c = false)
    (hbehind : ∀ c ∈ behind.head?, isDelimiter delims c = true) (cells : List UInt8)
    (hcells : l ++ (blanks ++ (token ++ [0])) <+: cells) :
    Holds cells (l.length + blanks.length)
      (tokenAt delims (blanks ++ (token ++ behind)) blanks.length ++ [0]) := by
  obtain ⟨x, rfl⟩ := hcells
  rw [tokenAt_front htoken hbehind]
  have hholds := @holds_append _ (l ++ blanks) (token ++ [0]) x (l.length + blanks.length) (by simp)
  simpa using hholds

theorem callsGoOn_last {n : Nat} (hblanks : ∀ c ∈ blanks, isDelimiter delims c = true)
    (hne : token ≠ []) (htoken : ∀ c ∈ token, isDelimiter delims c = false) (hnul : 0 ∉ token)
    (hfuel : blanks.length + token.length < fuel) :
    CallsGoOn fuel delims l (blanks ++ token) (n + 1) := by
  have hcall := @strTok_last delims l blanks token fuel hblanks hne htoken hnul hfuel
  have hstarts := @partStarts_marks delims blanks token [] l.length hblanks hne htoken
  have hend :
      partStarts true (l.length + blanks.length + token.length) true (marks delims []) = [] := rfl
  rw [hend, List.append_nil] at hstarts
  refine ⟨⟨l ++ (blanks ++ (token ++ [0])), none⟩, ?_, List.prefix_append l _, ?_⟩
  · rw [hstarts, returned_cons, returned_nil, furtherCalls, List.append_assoc, hcall, ok_bind]
    simp only [furtherCalls_null]
    rfl
  · rw [hstarts]
    intro k _ j hj
    cases k with
    | zero =>
        obtain rfl : blanks.length = j := Nat.add_left_cancel (Option.some.inj hj)
        have hfirst := @holds_token delims l blanks token [] htoken (by simp) _
          (List.prefix_refl (l ++ (blanks ++ (token ++ [0]))))
        rwa [List.append_nil] at hfirst
    | succ k => cases hj

theorem callsGoOn_token {n : Nat} (hblanks : ∀ c ∈ blanks, isDelimiter delims c = true)
    (hne : token ≠ []) (htoken : ∀ c ∈ token, isDelimiter delims c = false) (hnul : 0 ∉ token)
    (hc : isDelimiter delims c = true) (hfuel : blanks.length + token.length < fuel)
    (h : CallsGoOn fuel delims (l ++ (blanks ++ (token ++ [0]))) behind n) :
    CallsGoOn fuel delims l (blanks ++ (token ++ c :: behind)) (n + 1) := by
  have hplace : (l ++ (blanks ++ (token ++ [0]))).length =
      l.length + blanks.length + token.length + 1 := by
    simp
    omega
  have hcall := @strTok_token delims l (behind ++ [0]) blanks token c fuel hblanks hne htoken hnul
    hc hfuel
  have hstarts := @partStarts_marks delims blanks token (c :: behind) l.length hblanks hne htoken
  have hnext : partStarts true (l.length + blanks.length + token.length) true
      (marks delims (c :: behind)) =
        partStarts true (l ++ (blanks ++ (token ++ [0]))).length false (marks delims behind) := by
    rw [hplace, marks, List.map_cons, hc, partStarts, if_pos rfl, marks]
  rw [hnext] at hstarts
  obtain ⟨s, hcalls, hbegin, hended⟩ := h
  refine ⟨s, ?_, (List.prefix_append l _).trans hbegin, ?_⟩
  · rw [hplace] at hcalls
    simp only [List.append_assoc, List.singleton_append] at hcalls
    rw [hstarts, hplace, returned_cons, furtherCalls]
    simp only [List.append_assoc, List.cons_append, hcall, ok_bind, hcalls]
    rfl
  · rw [hstarts]
    intro k hk j hj
    cases k with
    | zero =>
        obtain rfl : blanks.length = j := Nat.add_left_cancel (Option.some.inj hj)
        exact holds_token htoken (fun d hd => by rw [← Option.mem_some.mp hd, hc]) _ hbegin
    | succ k =>
        rw [List.getElem?_cons_succ] at hj
        -- what comes later is behind the delimiter
        obtain ⟨m, hm, -⟩ := mem_partStarts.mp (List.mem_of_getElem? hj)
        have hlater := hended k (by omega) m (by rw [hj, hm])
        have hj' : j = (blanks ++ (token ++ [c])).length + m := by
          simp at hm ⊢
          omega
        have hshape : blanks ++ (token ++ c :: behind) = blanks ++ (token ++ [c]) ++ behind := by
          simp
        rw [hm, hshape, hj', tokenAt_behind]
        exact hlater

/-- **The calls** from a place on. -/
theorem callsGoOn (n : Nat) (rest l : List UInt8) (hnul : 0 ∉ rest) (hfuel : rest.length < fuel) :
    CallsGoOn fuel delims l rest n := by
  induction n generalizing rest l with
  | zero => exact ⟨_, rfl, List.prefix_append l _, fun k hk => absurd hk (Nat.not_lt_zero k)⟩
  | succ n ih =>
      obtain ⟨blanks, token, behind, rfl, hblanks, htoken, hbehind, hnone⟩ :=
        exists_first_part (isDelimiter delims) rest
      have hnulToken : 0 ∉ token := fun h => hnul (by simp [h])
      simp only [List.length_append] at hfuel
      by_cases hne : token = []
      case pos =>
        obtain rfl := hnone hne
        rw [hne, List.append_nil, List.append_nil]
        exact callsGoOn_none hblanks (by omega)
      case neg =>
        cases behind with
        | nil =>
            rw [List.append_nil]
            exact callsGoOn_last hblanks hne htoken hnulToken (by omega)
        | cons c behind =>
            rw [List.length_cons] at hfuel
            exact callsGoOn_token hblanks hne htoken hnulToken (hbehind c rfl) (by omega)
              (ih behind _ (fun h => hnul (by simp [h])) (by omega))

/-! ## The tokens of a string -/

/-- A part of the marks is a token. -/
theorem tokenAt_of_isPart {chars : List UInt8} {i e : Nat}
    (h : IsPart true (marks delims chars) i e) :
    tokenAt delims chars i = (chars.take e).drop i := by
  have hlength : (marks delims chars).length = chars.length := by simp [marks]
  have hsplit : chars.drop i = (chars.take e).drop i ++ chars.drop e := by
    have hle := h.nonempty
    have hinside := h.inside
    rw [hlength] at hinside
    conv_lhs => rw [← List.take_append_drop e chars]
    rw [List.drop_append_of_le_length (by rw [List.length_take]; omega)]
  rw [tokenAt, hsplit]
  have hmark : ∀ {k : Nat} {c : UInt8}, chars[k]? = some c →
      (marks delims chars)[k]? = some (isDelimiter delims c) := by
    intro k c hget
    rw [marks, List.getElem?_map, hget]
    rfl
  refine takeWhile_part (fun c hc => ?_) fun c hc => ?_
  · obtain ⟨k, hget⟩ := List.getElem?_of_mem hc
    rw [List.getElem?_drop, List.getElem?_take] at hget
    split at hget
    next hk =>
      have hno := h.noSep (i + k) (Nat.le_add_right i k) hk
      rw [hmark hget, ne_eq, Option.some.injEq, Bool.not_eq_true] at hno
      rw [hno]
      rfl
    next => cases hget
  · rw [List.head?_drop] at hc
    have hget := hmark (Option.mem_def.mp hc)
    rcases h.right with hend | hsep
    · rw [hend, List.getElem?_eq_none (Nat.le_refl _)] at hget
      cases hget
    · rw [hsep, Option.some.injEq] at hget
      rw [← hget]
      rfl

/-- **`StrTok`** returns the tokens of the string one after the other, each ended in memory, and
then `NULL` for ever. -/
theorem strTok_enumerates (text delims : CString) :
    ∃ starts, IsTokens delims text.chars starts ∧ ∀ before n, ∃ bound, ∀ fuel ≥ bound, ∃ s,
      tokenCalls fuel (inMemory delims) n ⟨inMemory text, before⟩ =
          .ok (returned starts (n + 1), s) ∧
        ∀ k ≤ n, ∀ i e, starts[k]? = some i → IsPart true (marks delims text.chars) i e →
          Holds s.cells i ((text.chars.take e).drop i ++ [0]) := by
  refine ⟨partStarts true 0 false (marks delims text.chars), ⟨pairwise_partStarts _ _ _ _, ?_⟩, ?_⟩
  · intro i
    rw [mem_partStarts, ← startsPart_iff]
    simp
  · intro before n
    refine ⟨text.chars.length + 1, fun fuel hfuel => ?_⟩
    obtain ⟨s, hcalls, -, hended⟩ := @callsGoOn delims fuel (n + 1) text.chars [] text.noNul hfuel
    refine ⟨s, hcalls, fun k hk i e hi hpart => ?_⟩
    rw [← tokenAt_of_isPart hpart]
    have hholds := hended k (by omega) i (by simpa using hi)
    simpa using hholds

end StrTok
end Exercises
end InfinityLabs
