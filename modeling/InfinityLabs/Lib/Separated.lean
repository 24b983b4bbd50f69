import Mathlib.Data.List.TakeWhile
import Mathlib.Data.Nat.Find
import Mathlib.Tactic.Common

/-!
# Parts between separators

The maximal parts of a text that hold no separator and are not empty.  A scan with one flag finds
where they start: at every element that is no separator and comes first or behind one.
-/

namespace InfinityLabs
namespace Lib

variable {α : Type} {sep : α}

/-- From `i` up to `e` the text has no separator, and the part cannot be made longer. -/
structure IsPart (sep : α) (text : List α) (i e : Nat) : Prop where
  nonempty : i < e
  inside : e ≤ text.length
  noSep : ∀ k, i ≤ k → k < e → text[k]? ≠ some sep
  left : i = 0 ∨ text[i - 1]? = some sep
  right : e = text.length ∨ text[e]? = some sep

/-- An element that is no separator and comes first or behind a separator; `inPart` says that the
text goes on a part. -/
def StartsPart (sep : α) (inPart : Bool) (text : List α) (i : Nat) : Prop :=
  (∃ c, text[i]? = some c ∧ c ≠ sep) ∧
    if i = 0 then inPart = false else text[i - 1]? = some sep

/-- A part starts there. -/
theorem startsPart_iff [DecidableEq α] {text : List α} {i : Nat} :
    StartsPart sep false text i ↔ ∃ e, IsPart sep text i e := by
  constructor
  · rintro ⟨⟨c, hc, hne⟩, hleft⟩
    have hlt : i < text.length := (List.getElem?_eq_some_iff.mp hc).1
    -- the part goes up to the next separator, or to the end
    have hend : ∃ e, i < e ∧ (e = text.length ∨ text[e]? = some sep) :=
      ⟨text.length, hlt, Or.inl rfl⟩
    have hfind := Nat.find_spec hend
    have hmin : ∀ k, i < k → k < Nat.find hend → text[k]? ≠ some sep := fun k hk hlt hsep =>
      Nat.find_min hend hlt ⟨hk, Or.inr hsep⟩
    refine ⟨Nat.find hend, hfind.1, Nat.find_min' hend ⟨hlt, Or.inl rfl⟩, ?_, ?_, hfind.2⟩
    · intro k hik hke hsep
      rcases Nat.eq_or_lt_of_le hik with rfl | hik
      · rw [hc, Option.some.injEq] at hsep
        exact hne hsep
      · exact hmin k hik hke hsep
    · by_cases hzero : i = 0
      · exact Or.inl hzero
      · rw [if_neg hzero] at hleft
        exact Or.inr hleft
  · rintro ⟨e, h⟩
    have hlt : i < text.length := Nat.lt_of_lt_of_le h.nonempty h.inside
    have hget := List.getElem?_eq_getElem hlt
    refine ⟨⟨text[i], hget, fun hsep => ?_⟩, ?_⟩
    · exact h.noSep i (Nat.le_refl i) h.nonempty (by rw [hget, hsep])
    · by_cases hzero : i = 0
      · simp [hzero]
      · rw [if_neg hzero]
        exact h.left.resolve_left hzero

theorem startsPart_zero {inPart : Bool} {c : α} {rest : List α} :
    StartsPart sep inPart (c :: rest) 0 ↔ c ≠ sep ∧ inPart = false := by
  simp [StartsPart]

/-! ## The scan -/

variable [DecidableEq α]

/-- The starts of the parts, where the text begins at place `i`. -/
def partStarts (sep : α) : Nat → Bool → List α → List Nat
  | _, _, [] => []
  | i, inPart, c :: rest =>
      if c = sep then partStarts sep (i + 1) false rest
      else if inPart then partStarts sep (i + 1) true rest
      else i :: partStarts sep (i + 1) true rest

theorem startsPart_succ {inPart : Bool} {c : α} {rest : List α} {i : Nat} :
    StartsPart sep inPart (c :: rest) (i + 1) ↔ StartsPart sep (decide (c ≠ sep)) rest i := by
  cases i with
  | zero => simp [StartsPart]
  | succ i => simp [StartsPart]

/-- **The scan** finds every start, and nothing else. -/
theorem mem_partStarts {i k : Nat} {inPart : Bool} {text : List α} :
    k ∈ partStarts sep i inPart text ↔ ∃ m, k = i + m ∧ StartsPart sep inPart text m := by
  induction text generalizing i inPart with
  | nil => simp [partStarts, StartsPart]
  | cons c rest ih =>
      have hsplit : (∃ m, k = i + m ∧ StartsPart sep inPart (c :: rest) m) ↔
          k = i ∧ c ≠ sep ∧ inPart = false ∨
            ∃ m, k = i + 1 + m ∧ StartsPart sep (decide (c ≠ sep)) rest m := by
        constructor
        · rintro ⟨m, rfl, hm⟩
          cases m with
          | zero => exact Or.inl ⟨rfl, startsPart_zero.mp hm⟩
          | succ m => exact Or.inr ⟨m, by omega, startsPart_succ.mp hm⟩
        · rintro (⟨rfl, hm⟩ | ⟨m, rfl, hm⟩)
          · exact ⟨0, rfl, startsPart_zero.mpr hm⟩
          · exact ⟨m + 1, by omega, startsPart_succ.mpr hm⟩
      rw [hsplit, partStarts]
      by_cases hsep : c = sep
      case pos => simp [hsep, ih]
      case neg => cases inPart <;> simp [hsep, ih]

/-- The starts come in their order. -/
theorem pairwise_partStarts (sep : α) (i : Nat) (inPart : Bool) (text : List α) :
    (partStarts sep i inPart text).Pairwise (· < ·) := by
  induction text generalizing i inPart with
  | nil => exact .nil
  | cons c rest ih =>
      rw [partStarts]
      by_cases hsep : c = sep
      case pos => simpa [hsep] using ih (i + 1) false
      case neg =>
        cases inPart with
        | true => simpa [hsep] using ih (i + 1) true
        | false =>
            simp only [hsep, if_false, Bool.false_eq_true]
            refine List.pairwise_cons.mpr ⟨fun k hk => ?_, ih (i + 1) true⟩
            obtain ⟨m, rfl, -⟩ := mem_partStarts.mp hk
            omega

/-! ## What the scan passes -/

variable {i : Nat} {blanks part text : List α}

theorem partStarts_blanks (h : ∀ c ∈ blanks, c = sep) :
    partStarts sep i false (blanks ++ text) = partStarts sep (i + blanks.length) false text := by
  induction blanks generalizing i with
  | nil => rfl
  | cons c blanks ih =>
      rw [List.forall_mem_cons] at h
      rw [List.cons_append, partStarts, if_pos h.1, ih h.2, List.length_cons, Nat.add_assoc,
        Nat.add_comm 1]

theorem partStarts_inside (h : ∀ c ∈ part, c ≠ sep) :
    partStarts sep i true (part ++ text) = partStarts sep (i + part.length) true text := by
  induction part generalizing i with
  | nil => rfl
  | cons c part ih =>
      rw [List.forall_mem_cons] at h
      rw [List.cons_append, partStarts, if_neg h.1, if_pos rfl, ih h.2, List.length_cons,
        Nat.add_assoc, Nat.add_comm 1]

/-- A part that is not empty starts, and is passed. -/
theorem partStarts_part (hne : part ≠ []) (h : ∀ c ∈ part, c ≠ sep) :
    partStarts sep i false (part ++ text) = i :: partStarts sep (i + part.length) true text := by
  obtain ⟨c, part, rfl⟩ := List.exists_cons_of_ne_nil hne
  rw [List.forall_mem_cons] at h
  rw [List.cons_append, partStarts, if_neg h.1, if_neg Bool.false_ne_true, partStarts_inside h.2,
    List.length_cons, Nat.add_assoc, Nat.add_comm 1]

omit [DecidableEq α] in
/-- A text is separators, a part, and what comes behind it. -/
theorem exists_first_part (p : α → Bool) (text : List α) :
    ∃ blanks part behind, text = blanks ++ (part ++ behind) ∧ (∀ c ∈ blanks, p c = true) ∧
      (∀ c ∈ part, p c = false) ∧ (∀ c ∈ behind.head?, p c = true) ∧ (part = [] → behind = []) := by
  refine ⟨text.takeWhile p, (text.dropWhile p).takeWhile (!p ·),
    (text.dropWhile p).dropWhile (!p ·), ?_, fun c hc => List.mem_takeWhile_imp hc, fun c hc => ?_, fun c hc => ?_, fun hnil => ?_⟩
  · rw [List.takeWhile_append_dropWhile, List.takeWhile_append_dropWhile]
  · simpa using List.mem_takeWhile_imp hc
  · have hstop := List.head?_dropWhile_not (!p ·) (text.dropWhile p)
    rw [Option.mem_def.mp hc] at hstop
    simpa using hstop
  · -- behind the separators something else would begin a part
    cases hrest : text.dropWhile p with
    | nil => rfl
    | cons c rest =>
        have hstop := List.head?_dropWhile_not p text
        rw [hrest, List.head?_cons] at hstop
        rw [hrest, List.takeWhile_cons_of_pos (by simpa using hstop)] at hnil
        cases hnil

omit [DecidableEq α] in
/-- A part is what can be taken up to the next separator. -/
theorem takeWhile_part {p : α → Bool} (h : ∀ c ∈ part, p c = true)
    (hstop : ∀ c ∈ text.head?, p c = false) : (part ++ text).takeWhile p = part := by
  rw [List.takeWhile_append_of_pos h]
  cases text with
  | nil => rw [List.takeWhile_nil, List.append_nil]
  | cons c text => rw [List.takeWhile_cons, hstop c rfl, if_neg Bool.false_ne_true, List.append_nil]

end Lib
end InfinityLabs
