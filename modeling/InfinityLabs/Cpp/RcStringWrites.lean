import InfinityLabs.Cpp.RcStringCounts

/-!
# Writes through references to a reference-counted string

`operator[]` unshares a string when a reference is taken, and a write comes later.  It changes
the string alone if the string still has the representation to itself then.
-/

namespace InfinityLabs
namespace Cpp

open Lib

/-! ## References -/

/-- A reference refers to a character. -/
def RcState.RefsInRange (s : RcState) : Prop :=
  ∀ r ∈ s.refs, ∃ text, s.memory.texts[r.rc]? = some text ∧ r.idx < text.length

/-- A step keeps the references to characters. -/
theorem RcState.RefsInRange.step {s s' : RcState} {a : RcAction} (h : s.RefsInRange)
    (hcounted : s.Counted) (hstep : s.step a = some s') : s'.RefsInRange := by
  cases hwrite : a.isWrite with
  | false =>
      have hkeeps := (hcounted.step hstep).2 hwrite
      intro r hmem
      rcases hkeeps.refs r hmem with hold | hnew
      · obtain ⟨text, htext, hidx⟩ := h r hold
        exact ⟨text, getElem?_of_prefix hkeeps.texts htext, hidx⟩
      · exact hnew
  | true =>
      cases a with
      | write ref c =>
          obtain ⟨r, imp, -, hderef, -, -, htexts, -, hrefs⟩ := hcounted.write hstep
          intro r' hmem
          obtain ⟨text, htext, hidx⟩ := h r' (hrefs ▸ hmem)
          rw [htexts]
          by_cases hrc : r.rc = r'.rc
          case pos =>
            have himp := (deref_eq_some hderef).2.2
            rw [hrc, htext, Option.some.injEq] at himp
            refine ⟨imp.str.set r.idx c, ?_, ?_⟩
            · rw [hrc, List.getElem?_set_self (List.getElem?_eq_some_iff.mp htext).1]
            · rwa [List.length_set, ← himp]
          case neg => exact ⟨text, by rwa [List.getElem?_set_ne hrc], hidx⟩
      | construct str allocated => cases hwrite
      | copy other => cases hwrite
      | assign string other => cases hwrite
      | destroy string => cases hwrite
      | index string idx allocated => cases hwrite
      | get string idx => cases hwrite
      | load ref => cases hwrite

/-- References refer to characters in every run. -/
theorem rcMachine_refsInRange {s : RcState} (h : rcMachine.Reached s) : s.RefsInRange := by
  have hboth : s.Counted ∧ s.RefsInRange := by
    refine Machine.ReachedBy.invariant (I := fun s => s.Counted ∧ s.RefsInRange) ?_ ?_ h
    · rintro s rfl
      exact ⟨rcMachine_counted (.start rfl), nofun⟩
    · intro s a s' hs _ hstep
      exact ⟨(hs.1.step hstep).1, hs.2.step hs.1 hstep⟩
  exact hboth.2

/-! ## Other strings -/

/-- The characters of a live string. -/
def RcState.text? (s : RcState) (string : Nat) : Option (List Nat) :=
  (s.rc? string).bind fun rc => s.memory.texts[rc]?

/-- A write through the reference, whatever is written, leaves every string as it is other than
the one that the reference was obtained from. -/
def RcState.WriteKeepsOthers (s : RcState) (ref : Nat) (r : RcRef) : Prop :=
  ∀ c s', s.step (.write ref c) = some s' → ∀ string, string ≠ r.string →
    s'.text? string = s.text? string

/-- The string that the reference was obtained from has the representation that it refers into,
and `IsShared` is false there. -/
def RcState.HasToItself (s : RcState) (r : RcRef) : Prop :=
  s.rc? r.string = some r.rc ∧ s.memory.isShared r.rc = some false

/-- The strings that hold a representation besides one of them. -/
theorem exists_other_iff {s : RcState} {string rc : Nat} (hrc : s.rc? string = some rc) :
    (∃ other, other ≠ string ∧ s.rc? other = some rc) ↔ 1 < s.handles rc := by
  obtain ⟨hget, hpos⟩ := handles_pos hrc
  have hcount := count_set_held hget none rc
  rw [if_pos rfl, if_neg nofun, Nat.add_zero] at hcount
  constructor
  · rintro ⟨other, hne, hother⟩
    have hmem : some rc ∈ s.strings.set string none := by
      refine List.mem_of_getElem? (i := other) ?_
      rw [List.getElem?_set_ne hne.symm]
      exact (handles_pos hother).1
    have hposOther := List.count_pos_iff.mpr hmem
    rw [RcState.handles]
    omega
  · intro hlt
    rw [RcState.handles] at hlt
    obtain ⟨other, hother⟩ := List.getElem?_of_mem
      (List.count_pos_iff.mp (show 0 < (s.strings.set string none).count (some rc) by omega))
    have hne : other ≠ string := by
      rintro rfl
      rw [List.getElem?_set_self (List.getElem?_eq_some_iff.mp hget).1] at hother
      cases hother
    rw [List.getElem?_set_ne hne.symm] at hother
    exact ⟨other, hne, by rw [RcState.rc?, hother]; rfl⟩

/-- A representation that was not deleted is held by another string, unless the one has it to
itself. -/
theorem RcState.Counted.exists_other_iff {s : RcState} (h : s.Counted) {r : RcRef} {imp : RCImp}
    (hderef : s.memory.deref r.rc = some imp) :
    (∃ other, other ≠ r.string ∧ s.rc? other = some r.rc) ↔ ¬ s.HasToItself r := by
  obtain ⟨hget, hzero, -⟩ := deref_eq_some hderef
  have hfreed := h.counted.freed r.rc imp hget
  have hpos : 0 < s.handles r.rc := by
    refine Nat.pos_of_ne_zero ?_
    intro hnone
    rw [hzero, if_pos hnone] at hfreed
    cases hfreed
  have hshared : s.memory.isShared r.rc = some (decide (1 < s.handles r.rc)) := by
    rw [RcMemory.isShared, hderef, Option.map_some, h.counted.count r.rc imp hget hpos]
  by_cases hrc : s.rc? r.string = some r.rc
  case pos =>
    rw [Cpp.exists_other_iff hrc, RcState.HasToItself, hshared]
    simp [hrc]
  case neg =>
    refine iff_of_true ?_ fun hitself => hrc hitself.1
    obtain ⟨other, hother⟩ := List.getElem?_of_mem (List.count_pos_iff.mp hpos)
    have hotherRc : s.rc? other = some r.rc := by
      rw [RcState.rc?, hother]
      rfl
    refine ⟨other, ?_, hotherRc⟩
    rintro rfl
    exact hrc hotherRc

/-- A write changes no other string exactly if the string has the representation to itself. -/
theorem RcState.Counted.writeKeepsOthers_iff {s : RcState} (h : s.Counted) (hrefs : s.RefsInRange)
    {ref : Nat} {r : RcRef} {imp : RCImp} (hr : s.refs[ref]? = some r)
    (hderef : s.memory.deref r.rc = some imp) : s.WriteKeepsOthers ref r ↔ s.HasToItself r := by
  have htext := (deref_eq_some hderef).2.2
  have hlt := (List.getElem?_eq_some_iff.mp htext).1
  constructor
  · intro hkeeps
    refine Classical.not_not.mp fun hnot => ?_
    obtain ⟨other, hne, hother⟩ := (h.exists_other_iff hderef).mpr hnot
    obtain ⟨text, htext', hidx⟩ := hrefs r (List.mem_of_getElem? hr)
    rw [htext, Option.some.injEq] at htext'
    subst htext'
    -- another character than the one that is there
    obtain ⟨s', hwrite⟩ : ∃ s', s.step (.write ref (imp.str[r.idx] + 1)) = some s' := by
      simp only [RcState.step, RcState.write, hr, hderef, Option.bind_eq_bind, Option.bind_some,
        if_pos hidx, Option.some.injEq, exists_eq']
    obtain ⟨r', imp', hr', hderef', -, -, htexts, hstrings, -⟩ := h.write hwrite
    have hsame := hkeeps _ _ hwrite other hne
    rw [hr, Option.some.injEq] at hr'
    subst hr'
    rw [hderef, Option.some.injEq] at hderef'
    subst hderef'
    rw [RcState.text?, RcState.text?, RcState.rc?, hstrings, ← RcState.rc?, hother,
      Option.bind_some, Option.bind_some, htexts, List.getElem?_set_self hlt, htext,
      Option.some.injEq] at hsame
    have hchar := congrArg (fun text => text[r.idx]?) hsame
    simp [hidx] at hchar
  · intro hitself c s' hstep other hne
    obtain ⟨r', imp', hr', hderef', -, -, htexts, hstrings, -⟩ := h.write hstep
    rw [hr, Option.some.injEq] at hr'
    subst hr'
    rw [RcState.text?, RcState.text?, RcState.rc?, hstrings, ← RcState.rc?]
    cases hrc : s.rc? other with
    | none => rfl
    | some q =>
        have hq : r.rc ≠ q := by
          rintro rfl
          exact (h.exists_other_iff hderef).mp ⟨other, hne, hrc⟩ hitself
        rw [Option.bind_some, Option.bind_some, htexts, List.getElem?_set_ne hq]

/-- What is no write changes no string but the one that it is applied to. -/
theorem RcState.Counted.keepsOthers {s s' : RcState} {a : RcAction} (h : s.Counted)
    (hwrite : a.isWrite = false) (hstep : s.step a = some s') {string : Nat}
    (hlive : (s.rc? string).isSome) (hne : a.target ≠ some string) :
    s'.text? string = s.text? string := by
  have hkeeps := (h.step hstep).2 hwrite
  obtain ⟨rc, hrc⟩ := Option.isSome_iff_exists.mp hlive
  obtain ⟨imp, -, hderef, -⟩ := h.counted.deref (handles_pos hrc).2
  have htext := (deref_eq_some hderef).2.2
  rw [RcState.text?, RcState.text?, hkeeps.strings string rc hne hrc, hrc, Option.bind_some,
    Option.bind_some, htext, getElem?_of_prefix hkeeps.texts htext]

/-- In every run: a write through a reference that does not dangle changes no other string
exactly if the string that it was obtained from still has the representation, and has it to
itself; nothing else changes another string. -/
theorem rcString_writes {s : RcState} (h : rcMachine.Reached s) :
    (∀ ref r, s.refs[ref]? = some r → (s.memory.deref r.rc).isSome →
      (s.WriteKeepsOthers ref r ↔ s.HasToItself r)) ∧
    ∀ a s', a.isWrite = false → s.step a = some s' → ∀ string, (s.rc? string).isSome →
      a.target ≠ some string → s'.text? string = s.text? string := by
  have hcounted := rcMachine_counted h
  refine ⟨?_, ?_⟩
  · intro ref r hr hderef
    obtain ⟨imp, himp⟩ := Option.isSome_iff_exists.mp hderef
    exact hcounted.writeKeepsOthers_iff (rcMachine_refsInRange h) hr himp
  · intro a s' hwrite hstep string hlive hne
    exact hcounted.keepsOthers hwrite hstep hlive hne

/-- A copy, and a reference into one of the two that is taken after it. -/
def referenceAfterCopy : List RcAction :=
  [.construct [97, 0] true, .copy 0, .index 0 0 true]

theorem rcString_writes_referenceAfterCopy :
    ∃ s, rcMachine.run ⟨[], [], []⟩ referenceAfterCopy = some s ∧
      s.refs[0]? = some ⟨0, 1, 0⟩ ∧ s.WriteKeepsOthers 0 ⟨0, 1, 0⟩ := by
  have hrun : rcMachine.run ⟨[], [], []⟩ referenceAfterCopy = some _ := rfl
  have hwrites := rcString_writes (Machine.Reached.run (.start rfl) hrun)
  exact ⟨_, hrun, rfl, (hwrites.1 0 ⟨0, 1, 0⟩ rfl rfl).mpr ⟨rfl, rfl⟩⟩

/-- A reference, and a copy that is made after it. -/
def copyAfterReference : List RcAction :=
  [.construct [97, 0] true, .index 0 0 true, .copy 0]

/-- The write through the reference into the one string changes the other. -/
theorem rcString_writeChangesCopy :
    ∃ s s', rcMachine.Reached s ∧ s.refs[0]? = some ⟨0, 0, 0⟩ ∧ s.text? 1 = some [97, 0] ∧
      s.step (.write 0 98) = some s' ∧ s'.text? 1 = some [98, 0] ∧
      ¬ s.WriteKeepsOthers 0 ⟨0, 0, 0⟩ := by
  have hrun : rcMachine.run ⟨[], [], []⟩ copyAfterReference = some _ := rfl
  refine ⟨_, _, Machine.Reached.run (.start rfl) hrun, rfl, rfl, rfl, rfl, ?_⟩
  intro hkeeps
  have hsame := hkeeps 98 _ rfl 1 Nat.one_ne_zero
  cases hsame

end Cpp
end InfinityLabs
