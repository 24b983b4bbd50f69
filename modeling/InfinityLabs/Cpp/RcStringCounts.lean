import InfinityLabs.Cpp.RcString
import InfinityLabs.Lib.ListParts
import Mathlib.Logic.Function.Basic

/-!
# The counters of the reference-counted string

A counter is the number of the strings that point to its representation, and a representation
is deleted once, when that number falls to zero.  An operation that changes a counter is
described by the number that it changes; what the strings point to then follows.
-/

namespace InfinityLabs
namespace Cpp

open Lib

/-! ## Counted representations -/

/-- The texts of the representations. -/
def RcMemory.texts (m : RcMemory) : List (List Nat) := m.map RCImp.str

/-- Representation `rc` is held `held rc` times: its counter says so, or it was deleted once. -/
structure RcMemory.Counted (m : RcMemory) (held : Nat → Nat) : Prop where
  inRange : ∀ rc, 0 < held rc → rc < m.length
  count : ∀ rc imp, m[rc]? = some imp → 0 < held rc → imp.count = held rc
  freed : ∀ rc imp, m[rc]? = some imp → imp.deletions = if held rc = 0 then 1 else 0

namespace RcMemory.Counted

variable {m : RcMemory} {held : Nat → Nat} {rc : Nat}

/-- A representation that is held is there. -/
theorem deref (h : m.Counted held) (hpos : 0 < held rc) :
    ∃ imp, m[rc]? = some imp ∧ m.deref rc = some imp ∧ imp.count = held rc ∧
      imp.deletions = 0 := by
  have hlt := h.inRange rc hpos
  have hget : m[rc]? = some m[rc] := List.getElem?_eq_getElem hlt
  have hfreed := h.freed rc _ hget
  rw [if_neg (Nat.ne_of_gt hpos)] at hfreed
  refine ⟨m[rc], hget, ?_, h.count rc _ hget hpos, hfreed⟩
  rw [RcMemory.deref, hget]
  simp [hfreed]

/-- A representation whose counter is changed. -/
theorem set (h : m.Counted held) {imp imp' : RCImp} {n : Nat} (hget : m[rc]? = some imp)
    (hcount : 0 < n → imp'.count = n) (hfreed : imp'.deletions = if n = 0 then 1 else 0) :
    RcMemory.Counted (m.set rc imp') (Function.update held rc n) := by
  refine ⟨?_, ?_, ?_⟩
  · intro q hpos
    rw [List.length_set]
    by_cases hq : q = rc
    case pos => exact hq ▸ (List.getElem?_eq_some_iff.mp hget).1
    case neg => exact h.inRange q (by rwa [Function.update_of_ne hq] at hpos)
  · intro q other hother hpos
    rcases of_getElem?_set hother with ⟨rfl, rfl⟩ | ⟨hq, hother⟩
    · rw [Function.update_self] at hpos ⊢
      exact hcount hpos
    · rw [Function.update_of_ne hq] at hpos ⊢
      exact h.count q other hother hpos
  · intro q other hother
    rcases of_getElem?_set hother with ⟨rfl, rfl⟩ | ⟨hq, hother⟩
    · rw [Function.update_self]
      exact hfreed
    · rw [Function.update_of_ne hq]
      exact h.freed q other hother

/-- A changed counter leaves the texts as they are. -/
theorem texts_set {imp imp' : RCImp} (hget : m[rc]? = some imp) (hstr : imp'.str = imp.str) :
    RcMemory.texts (m.set rc imp') = m.texts := by
  obtain ⟨l₁, l₂, rfl, hset, -⟩ := exists_split_of_getElem? hget
  rw [hset, RcMemory.texts, RcMemory.texts, List.map_append, List.map_append, List.map_cons,
    List.map_cons, hstr]

/-- `IncNShare` counts one more. -/
theorem incNShare (h : m.Counted held) (hpos : 0 < held rc) (hlt : held rc + 1 < 2 ^ 64) :
    ∃ m', m.incNShare rc = some m' ∧
      m'.Counted (Function.update held rc (held rc + 1)) ∧ m'.texts = m.texts := by
  obtain ⟨imp, hget, hderef, hcount, hfreed⟩ := h.deref hpos
  refine ⟨m.set rc { imp with count := (imp.count + 1) % 2 ^ 64 }, ?_, ?_, ?_⟩
  · rw [RcMemory.incNShare, hderef, Option.map_some]
  · refine h.set hget (fun _ => ?_) hfreed
    rw [hcount]
    exact Nat.mod_eq_of_lt hlt
  · exact texts_set hget rfl

/-- `DecOrDel` counts one less, and deletes the representation with the last. -/
theorem decOrDel (h : m.Counted held) (hpos : 0 < held rc) :
    ∃ m', m.decOrDel rc = some m' ∧
      m'.Counted (Function.update held rc (held rc - 1)) ∧ m'.texts = m.texts := by
  obtain ⟨imp, hget, hderef, hcount, hfreed⟩ := h.deref hpos
  rw [RcMemory.decOrDel, hderef, Option.map_some]
  by_cases hshared : 1 < imp.count
  case pos =>
    rw [if_pos hshared]
    refine ⟨_, rfl, h.set hget (fun _ => ?_) ?_, texts_set hget rfl⟩
    · dsimp only
      rw [hcount]
    · dsimp only
      rw [hfreed, if_neg (by omega)]
  case neg =>
    rw [if_neg hshared]
    refine ⟨_, rfl, h.set hget (fun hn => ?_) ?_, texts_set hget rfl⟩
    · omega
    · dsimp only
      rw [hfreed, if_pos (by omega)]

/-- A new representation is held once. -/
theorem append (h : m.Counted held) (str : List Nat) :
    RcMemory.Counted (m ++ [{ count := 1, str, deletions := 0 }])
      (Function.update held m.length 1) := by
  refine ⟨?_, ?_, ?_⟩
  · intro q hpos
    rw [List.length_append, List.length_singleton]
    by_cases hq : q = m.length
    case pos => omega
    case neg =>
      rw [Function.update_of_ne hq] at hpos
      exact Nat.lt_succ_of_lt (h.inRange q hpos)
  · intro q imp himp hpos
    rcases of_getElem?_append_singleton himp with ⟨hq, himp⟩ | ⟨rfl, rfl⟩
    · rw [Function.update_of_ne (Nat.ne_of_lt hq)] at hpos ⊢
      exact h.count q imp himp hpos
    · rw [Function.update_self]
  · intro q imp himp
    rcases of_getElem?_append_singleton himp with ⟨hq, himp⟩ | ⟨rfl, rfl⟩
    · rw [Function.update_of_ne (Nat.ne_of_lt hq)]
      exact h.freed q imp himp
    · rw [Function.update_self]
      rfl

/-- `CreateMRC` copies a text that ends. -/
theorem createMRC (h : m.Counted held) {src : List Nat} {length : Nat}
    (hlength : src.idxOf? 0 = some length) :
    ∃ m', m.createMRC src true = some (some (m', m.length)) ∧
      m'.Counted (Function.update held m.length 1) ∧
      m'.texts = m.texts ++ [src.take length ++ [0]] := by
  refine ⟨_, ?_, h.append (src.take length ++ [0]), ?_⟩
  · rw [RcMemory.createMRC, hlength, Option.map_some, if_pos rfl]
  · rw [RcMemory.texts, List.map_append]
    rfl

/-- The same number of times, in other words. -/
theorem congr {held' : Nat → Nat} (h : m.Counted held) (heq : held' = held) : m.Counted held' :=
  heq ▸ h

/-- No string points beyond the representations. -/
theorem held_length (h : m.Counted held) : held m.length = 0 :=
  Nat.eq_zero_of_not_pos fun hpos => Nat.lt_irrefl _ (h.inRange _ hpos)

end RcMemory.Counted

/-! ## What the strings hold -/

/-- The number of strings that point to a representation. -/
def RcState.handles (s : RcState) (rc : Nat) : Nat := s.strings.count (some rc)

/-- The counters count the strings, which have their places in memory. -/
structure RcState.Counted (s : RcState) : Prop where
  counted : s.memory.Counted s.handles
  room : RcState.sizeofRCString * s.strings.countP Option.isSome ≤ 2 ^ 64

/-- A string that points elsewhere, or to nothing any more. -/
theorem count_set_held {strings : List (Option Nat)} {string old : Nat}
    (hold : strings[string]? = some (some old)) (new : Option Nat) (q : Nat) :
    (strings.set string new).count (some q) + (if q = old then 1 else 0) =
      strings.count (some q) + if new = some q then 1 else 0 := by
  have hcount := count_set_add hold new (some q)
  by_cases hq : q = old
  case pos => simpa [hq] using hcount
  case neg => simpa [hq, Ne.symm hq] using hcount

/-- A string that stops pointing to a representation. -/
theorem count_set_none {strings : List (Option Nat)} {string old : Nat}
    (hold : strings[string]? = some (some old)) :
    (fun q => (strings.set string none).count (some q)) =
      Function.update (fun q => strings.count (some q)) old (strings.count (some old) - 1) := by
  funext q
  have hcount := count_set_held hold none q
  simp only [reduceCtorEq, if_false, Nat.add_zero] at hcount
  by_cases hq : q = old
  case pos =>
    subst hq
    rw [Function.update_self, ← hcount, if_pos rfl, Nat.add_sub_cancel]
  case neg => rw [Function.update_of_ne hq, ← hcount, if_neg hq, Nat.add_zero]

/-- A string that points to another representation is counted there first. -/
theorem count_set_some {strings : List (Option Nat)} {string old : Nat}
    (hold : strings[string]? = some (some old)) (rc : Nat) {held : Nat → Nat}
    (hheld : held = Function.update (fun q => strings.count (some q)) rc
      (strings.count (some rc) + 1)) :
    (fun q => (strings.set string (some rc)).count (some q)) =
      Function.update held old (held old - 1) := by
  funext q
  have hcount := count_set_held hold (some rc) q
  simp only [Option.some.injEq, eq_comm (b := q)] at hcount
  have hq : held q = strings.count (some q) + if q = rc then 1 else 0 := by
    rw [hheld]
    by_cases hq : q = rc
    case pos => rw [hq, Function.update_self, if_pos rfl]
    case neg => rw [Function.update_of_ne hq, if_neg hq, Nat.add_zero]
  by_cases hold : q = old
  case pos =>
    subst hold
    rw [Function.update_self, hq, ← hcount, if_pos rfl, Nat.add_sub_cancel]
  case neg => rw [Function.update_of_ne hold, hq, ← hcount, if_neg hold, Nat.add_zero]

/-- A new string. -/
theorem count_concat (strings : List (Option Nat)) (rc : Nat) :
    (fun q => (strings ++ [some rc]).count (some q)) =
      Function.update (fun q => strings.count (some q)) rc (strings.count (some rc) + 1) := by
  funext q
  rw [List.count_append, List.count_singleton]
  by_cases hq : q = rc
  case pos => simp [hq]
  case neg => simp [hq, Ne.symm hq]

/-- A string that points to a representation is one of those that do. -/
theorem handles_pos {s : RcState} {string rc : Nat} (h : s.rc? string = some rc) :
    s.strings[string]? = some (some rc) ∧ 0 < s.handles rc := by
  have hget : s.strings[string]? = some (some rc) := Option.join_eq_some_iff.mp h
  exact ⟨hget, List.count_pos_iff.mpr (List.mem_of_getElem? hget)⟩

/-! ## What an operation keeps -/

/-- The texts stay, the strings other than the target point to what they did, and a new
reference refers to a character. -/
structure RcState.Keeps (s : RcState) (target : Option Nat) (s' : RcState) : Prop where
  texts : s.memory.texts <+: s'.memory.texts
  strings : ∀ string rc, target ≠ some string → s.rc? string = some rc → s'.rc? string = some rc
  refs : ∀ r ∈ s'.refs, r ∈ s.refs ∨
    ∃ text, s'.memory.texts[r.rc]? = some text ∧ r.idx < text.length

namespace RcState.Keeps

variable {s s' : RcState}

/-- A new string is none of the others. -/
theorem concat {rc : Nat} (htexts : s.memory.texts <+: s'.memory.texts)
    (hstrings : s'.strings = s.strings ++ [some rc]) (hrefs : s'.refs = s.refs) :
    s.Keeps none s' where
  texts := htexts
  strings := by
    intro string rc' _ hrc
    have hget := (handles_pos hrc).1
    have hlt := (List.getElem?_eq_some_iff.mp hget).1
    rw [RcState.rc?, hstrings, List.getElem?_append_left hlt]
    exact hrc
  refs _ hmem := Or.inl (hrefs ▸ hmem)

/-- The target points elsewhere. -/
theorem set {string : Nat} {new : Option Nat} (htexts : s.memory.texts <+: s'.memory.texts)
    (hstrings : s'.strings = s.strings.set string new) (hrefs : s'.refs = s.refs) :
    s.Keeps (some string) s' where
  texts := htexts
  strings := by
    intro other rc hne hrc
    rw [RcState.rc?, hstrings, List.getElem?_set_ne fun heq => hne (congrArg some heq)]
    exact hrc
  refs _ hmem := Or.inl (hrefs ▸ hmem)

/-- Nothing changed. -/
theorem refl (s : RcState) (target : Option Nat) : s.Keeps target s :=
  ⟨List.prefix_rfl, fun _ _ _ h => h, fun _ => Or.inl⟩

end RcState.Keeps

namespace RcState.Counted

variable {s : RcState} (h : s.Counted)
include h

/-- A counter has room for one more string, and for the one that an assignment counts first. -/
theorem handles_succ_lt (rc : Nat) : s.handles rc + 1 < 2 ^ 64 := by
  have hroom := h.room
  have hle : s.handles rc ≤ s.strings.countP Option.isSome := count_some_le_countP_isSome _ rc
  unfold sizeofRCString at hroom
  omega

/-! ## The operations -/

/-- The constructor is defined on a text that ends. -/
theorem construct {str : List Nat} {length : Nat} (hlength : str.idxOf? 0 = some length)
    (hroom : s.HasRoom) :
    ∃ s', s.construct str true = some s' ∧ s'.Counted ∧ s.Keeps none s' := by
  obtain ⟨memory, hcreate, hcounted, htexts⟩ := h.counted.createMRC hlength
  have hzero : s.strings.count (some s.memory.length) = 0 := h.counted.held_length
  have hhandles := count_concat s.strings s.memory.length
  rw [hzero] at hhandles
  refine ⟨{ s with memory, strings := s.strings ++ [some s.memory.length] }, ?_, ⟨?_, ?_⟩, ?_⟩
  · simp only [RcState.construct, hcreate, Option.bind_eq_bind, Option.bind_some, if_pos hroom]
  · exact hcounted.congr hhandles
  · dsimp only
    rw [List.countP_append]
    exact hroom
  · exact Keeps.concat (htexts ▸ List.prefix_append _ _) rfl rfl

/-- The copy constructor is defined on a live string. -/
theorem copy {other rc : Nat} (hrc : s.rc? other = some rc) (hroom : s.HasRoom) :
    ∃ s', s.copy other = some s' ∧ s'.Counted ∧ s.Keeps none s' := by
  obtain ⟨-, hpos⟩ := handles_pos hrc
  obtain ⟨memory, hinc, hcounted, htexts⟩ := h.counted.incNShare hpos (h.handles_succ_lt rc)
  refine ⟨{ s with memory, strings := s.strings ++ [some rc] }, ?_, ⟨?_, ?_⟩, ?_⟩
  · simp only [RcState.copy, hrc, Option.bind_eq_bind, Option.bind_some, if_pos hroom, hinc]
  · exact hcounted.congr (count_concat s.strings rc)
  · dsimp only
    rw [List.countP_append]
    exact hroom
  · exact Keeps.concat (htexts ▸ List.prefix_rfl) rfl rfl

/-- `operator=` is defined on live strings, whichever they are. -/
theorem assign {string other old rc : Nat} (hold : s.rc? string = some old)
    (hrc : s.rc? other = some rc) :
    ∃ s', s.assign string other = some s' ∧ s'.Counted ∧ s.Keeps (some string) s' := by
  obtain ⟨hget, hpos⟩ := handles_pos hold
  obtain ⟨-, hposRc⟩ := handles_pos hrc
  obtain ⟨memory, hinc, hcounted, htexts⟩ := h.counted.incNShare hposRc (h.handles_succ_lt rc)
  -- the new one is counted first, so an assignment to itself deletes nothing
  have hposOld : 0 < Function.update s.handles rc (s.handles rc + 1) old := by
    by_cases hq : old = rc
    case pos => rw [hq, Function.update_self]; omega
    case neg => rwa [Function.update_of_ne hq]
  obtain ⟨memory', hdec, hcounted', htexts'⟩ := hcounted.decOrDel hposOld
  have hhandles := count_set_some hget rc rfl
  have hlive := countP_isSome_set_some hget rc
  refine ⟨{ s with memory := memory', strings := s.strings.set string (some rc) }, ?_, ⟨?_, ?_⟩,
    ?_⟩
  · simp only [RcState.assign, hrc, hold, Option.bind_eq_bind, Option.bind_some, hinc, hdec]
  · exact hcounted'.congr hhandles
  · have hroom := h.room
    dsimp only
    rwa [hlive]
  · exact Keeps.set ((htexts'.trans htexts) ▸ List.prefix_rfl) rfl rfl

/-- The destructor is defined on a live string. -/
theorem destroy {string old : Nat} (hold : s.rc? string = some old) :
    ∃ s', s.destroy string = some s' ∧ s'.Counted ∧ s.Keeps (some string) s' := by
  obtain ⟨hget, hpos⟩ := handles_pos hold
  obtain ⟨memory, hdec, hcounted, htexts⟩ := h.counted.decOrDel hpos
  have hhandles := count_set_none hget
  have hlive := countP_isSome_set_none hget
  refine ⟨{ s with memory, strings := s.strings.set string none }, ?_, ⟨?_, ?_⟩, ?_⟩
  · simp only [RcState.destroy, hold, Option.bind_eq_bind, Option.bind_some, hdec]
  · exact hcounted.congr hhandles
  · have hroom := h.room
    dsimp only
    unfold sizeofRCString at *
    omega
  · exact Keeps.set (htexts ▸ List.prefix_rfl) rfl rfl

/-- The string gets a representation of its own where it shares one. -/
theorem unshare {string old length : Nat} {imp : RCImp} (hold : s.rc? string = some old)
    (hlength : imp.str.idxOf? 0 = some length) :
    ∃ memory memory', s.memory.createMRC imp.str true = some (some (memory, s.memory.length)) ∧
      memory.decOrDel old = some memory' ∧
      memory'.texts = s.memory.texts ++ [imp.str.take length ++ [0]] ∧
      RcState.Counted { s with
        memory := memory'
        strings := s.strings.set string (some s.memory.length) } := by
  obtain ⟨hget, hpos⟩ := handles_pos hold
  obtain ⟨memory, hcreate, hcounted, htexts⟩ := h.counted.createMRC hlength
  have hzero : s.strings.count (some s.memory.length) = 0 := h.counted.held_length
  have hne : old ≠ s.memory.length := Nat.ne_of_lt (h.counted.inRange old hpos)
  have hposOld : 0 < Function.update s.handles s.memory.length 1 old := by
    rwa [Function.update_of_ne hne]
  obtain ⟨memory', hdec, hcounted', htexts'⟩ := hcounted.decOrDel hposOld
  have hheld : Function.update s.handles s.memory.length 1 =
      Function.update (fun q => s.strings.count (some q)) s.memory.length
        (s.strings.count (some s.memory.length) + 1) := by
    rw [hzero]
    rfl
  have hhandles := count_set_some hget s.memory.length hheld
  have hlive := countP_isSome_set_some hget s.memory.length
  refine ⟨memory, memory', hcreate, hdec, htexts'.trans htexts, ?_, ?_⟩
  · exact hcounted'.congr hhandles
  · have hroom := h.room
    dsimp only
    rwa [hlive]

end RcState.Counted

/-- What a pointer leads to is a representation that was not deleted. -/
theorem deref_eq_some {m : RcMemory} {rc : Nat} {imp : RCImp} (h : m.deref rc = some imp) :
    m[rc]? = some imp ∧ imp.deletions = 0 ∧ m.texts[rc]? = some imp.str := by
  obtain ⟨hget, hzero⟩ := Option.filter_eq_some_iff.mp h
  refine ⟨hget, beq_iff_eq.mp hzero, ?_⟩
  rw [RcMemory.texts, List.getElem?_map, hget, Option.map_some]

/-- A reference that is returned. -/
theorem RcState.Keeps.refer {s s' t : RcState} {string rc idx : Nat} {target : Option Nat}
    (h : s.Keeps target t) (hcounted : t.Counted) (hrefs : t.refs = s.refs)
    (hrefer : t.refer string rc idx = some s') : s'.Counted ∧ s.Keeps target s' := by
  obtain ⟨imp, hderef, hif⟩ := Option.bind_eq_some_iff.mp hrefer
  obtain ⟨hidx, hs'⟩ := Option.ite_none_right_eq_some.mp hif
  obtain rfl := Option.some.inj hs'
  refine ⟨⟨hcounted.counted, hcounted.room⟩, h.texts, h.strings, ?_⟩
  intro r hmem
  rcases List.mem_append.mp hmem with hmem | hmem
  · exact Or.inl (hrefs ▸ hmem)
  · rw [List.mem_singleton.mp hmem]
    exact Or.inr ⟨imp.str, (deref_eq_some hderef).2.2, hidx⟩

namespace RcState.Counted

variable {s s' : RcState} (h : s.Counted)
include h

/-- The ways in which the non-constant `operator[]` goes on. -/
theorem index_cases {string old : Nat} (hold : s.rc? string = some old) (idx : Nat)
    (allocated : Bool) :
    ∃ imp, s.memory.deref old = some imp ∧
      (s.index string idx allocated = s.refer string old idx ∨
        imp.str.idxOf? 0 = none ∧ s.index string idx allocated = none ∨
        s.index string idx allocated = some s ∨
        ∃ length t, imp.str.idxOf? 0 = some length ∧
          s.index string idx allocated = t.refer string s.memory.length idx ∧ t.Counted ∧
          s.Keeps (some string) t ∧ t.refs = s.refs ∧ t.rc? string = some s.memory.length ∧
          t.memory.texts[s.memory.length]? = some (imp.str.take length ++ [0])) := by
  obtain ⟨hget, hpos⟩ := handles_pos hold
  obtain ⟨imp, -, hderef, -, -⟩ := h.counted.deref hpos
  have hisShared : s.memory.isShared old = some (decide (1 < imp.count)) := by
    rw [RcMemory.isShared, hderef, Option.map_some]
  refine ⟨imp, hderef, ?_⟩
  by_cases hshared : 1 < imp.count
  case neg =>
    left
    simp only [RcState.index, hold, hisShared, hshared, decide_false, Option.bind_eq_bind,
      Option.bind_some, Bool.false_eq_true, if_false]
  case pos =>
    right
    cases hlength : imp.str.idxOf? 0 with
    | none =>
        left
        refine ⟨rfl, ?_⟩
        simp only [RcState.index, hold, hisShared, hshared, decide_true, Option.bind_eq_bind,
          Option.bind_some, if_true, hderef, RcMemory.createMRC, hlength, Option.map_none,
          Option.bind_none]
    | some length =>
        right
        cases allocated with
        | false =>
            left
            simp only [RcState.index, hold, hisShared, hshared, decide_true, Option.bind_eq_bind,
              Option.bind_some, if_true, hderef, RcMemory.createMRC, hlength, Option.map_some,
              Bool.false_eq_true, if_false]
        | true =>
            right
            obtain ⟨memory, memory', hcreate, hdec, htexts, hcounted⟩ := h.unshare hold hlength
            refine ⟨length, _, rfl, ?_, hcounted, ?_, rfl, ?_, ?_⟩
            · simp only [RcState.index, hold, hisShared, hshared, decide_true,
                Option.bind_eq_bind, Option.bind_some, if_true, hderef, hcreate, hdec]
            · exact Keeps.set (htexts ▸ List.prefix_append _ _) rfl rfl
            · rw [RcState.rc?, List.getElem?_set_self (List.getElem?_eq_some_iff.mp hget).1]
              rfl
            · have hlen : s.memory.texts.length = s.memory.length := List.length_map _
              dsimp only
              rw [htexts, ← hlen, List.getElem?_concat_length]

/-- The non-constant `operator[]` keeps the counts. -/
theorem index {string idx : Nat} {allocated : Bool}
    (hindex : s.index string idx allocated = some s') :
    s'.Counted ∧ s.Keeps (some string) s' := by
  obtain ⟨old, hold, -⟩ := Option.bind_eq_some_iff.mp hindex
  obtain ⟨imp, -, hcases⟩ := h.index_cases hold idx allocated
  rcases hcases with hrefer | ⟨-, hnone⟩ | hsame |
    ⟨length, t, -, hrefer, hcounted, hkeeps, hrefs, -⟩
  · rw [hrefer] at hindex
    exact (Keeps.refl s (some string)).refer h rfl hindex
  · rw [hnone] at hindex
    cases hindex
  · rw [hsame, Option.some.injEq] at hindex
    exact hindex ▸ ⟨h, Keeps.refl s _⟩
  · rw [hrefer] at hindex
    exact hkeeps.refer hcounted hrefs hindex

/-- A write through a reference changes a text. -/
theorem write {ref c : Nat} (hwrite : s.write ref c = some s') :
    ∃ r imp, s.refs[ref]? = some r ∧ s.memory.deref r.rc = some imp ∧ r.idx < imp.str.length ∧
      s'.Counted ∧ s'.memory.texts = s.memory.texts.set r.rc (imp.str.set r.idx c) ∧
      s'.strings = s.strings ∧ s'.refs = s.refs := by
  simp only [RcState.write, Option.bind_eq_bind, Option.bind_eq_some_iff] at hwrite
  obtain ⟨r, hr, imp, hderef, hif⟩ := hwrite
  obtain ⟨hidx, hs'⟩ := Option.ite_none_right_eq_some.mp hif
  obtain rfl := Option.some.inj hs'
  obtain ⟨hget, hfreed, -⟩ := deref_eq_some hderef
  refine ⟨r, imp, hr, hderef, hidx, ⟨?_, h.room⟩, ?_, rfl, rfl⟩
  · have hzero := h.counted.freed r.rc imp hget
    have hset : RcMemory.Counted (s.memory.set r.rc { imp with str := imp.str.set r.idx c }) _ :=
      h.counted.set hget (h.counted.count r.rc imp hget) hzero
    exact hset.congr (Function.update_eq_self r.rc s.handles).symm
  · rw [RcMemory.texts, RcMemory.texts, List.map_set]

end RcState.Counted

/-! ## The runs -/

/-- The string that an operation is applied to. -/
def RcAction.target : RcAction → Option Nat
  | .assign string _ | .destroy string | .index string _ _ => some string
  | _ => none

/-- A write through a reference. -/
def RcAction.isWrite : RcAction → Bool
  | .write _ _ => true
  | _ => false

/-- A step keeps the counts, and one that is no write keeps the texts. -/
theorem RcState.Counted.step {s s' : RcState} {a : RcAction} (h : s.Counted)
    (hstep : s.step a = some s') :
    s'.Counted ∧ (a.isWrite = false → s.Keeps a.target s') := by
  cases a with
  | construct str allocated =>
      cases hlength : str.idxOf? 0 with
      | none =>
          simp only [RcState.step, RcState.construct, RcMemory.createMRC, hlength, Option.map_none,
            Option.bind_eq_bind, Option.bind_none] at hstep
          cases hstep
      | some length =>
          cases allocated with
          | false =>
              simp only [RcState.step, RcState.construct, RcMemory.createMRC, hlength,
                Option.map_some, Bool.false_eq_true, if_false, Option.bind_eq_bind,
                Option.bind_some, Option.some.injEq] at hstep
              exact hstep ▸ ⟨h, fun _ => Keeps.refl s _⟩
          | true =>
              by_cases hroom : s.HasRoom
              case pos =>
                obtain ⟨t, hcreate, hcounted, hkeeps⟩ := h.construct hlength hroom
                rw [RcState.step, hcreate, Option.some.injEq] at hstep
                exact hstep ▸ ⟨hcounted, fun _ => hkeeps⟩
              case neg =>
                simp only [RcState.step, RcState.construct, RcMemory.createMRC, hlength,
                  Option.map_some, if_true, Option.bind_eq_bind, Option.bind_some,
                  if_neg hroom] at hstep
                cases hstep
  | copy other =>
      obtain ⟨rc, hrc, hrest⟩ := Option.bind_eq_some_iff.mp hstep
      obtain ⟨hroom, -⟩ := Option.ite_none_right_eq_some.mp hrest
      obtain ⟨t, hcopy, hcounted, hkeeps⟩ := h.copy hrc hroom
      rw [RcState.step, hcopy, Option.some.injEq] at hstep
      exact hstep ▸ ⟨hcounted, fun _ => hkeeps⟩
  | assign string other =>
      obtain ⟨rc, hrc, hrest⟩ := Option.bind_eq_some_iff.mp hstep
      obtain ⟨memory, -, hrest⟩ := Option.bind_eq_some_iff.mp hrest
      obtain ⟨old, hold, -⟩ := Option.bind_eq_some_iff.mp hrest
      obtain ⟨t, hassign, hcounted, hkeeps⟩ := h.assign hold hrc
      rw [RcState.step, hassign, Option.some.injEq] at hstep
      exact hstep ▸ ⟨hcounted, fun _ => hkeeps⟩
  | destroy string =>
      obtain ⟨old, hold, -⟩ := Option.bind_eq_some_iff.mp hstep
      obtain ⟨t, hdestroy, hcounted, hkeeps⟩ := h.destroy hold
      rw [RcState.step, hdestroy, Option.some.injEq] at hstep
      exact hstep ▸ ⟨hcounted, fun _ => hkeeps⟩
  | index string idx allocated =>
      obtain ⟨hcounted, hkeeps⟩ := h.index hstep
      exact ⟨hcounted, fun _ => hkeeps⟩
  | get string idx =>
      obtain ⟨-, -, rfl⟩ := Option.map_eq_some_iff.mp hstep
      exact ⟨h, fun _ => Keeps.refl s _⟩
  | load ref =>
      obtain ⟨-, -, rfl⟩ := Option.map_eq_some_iff.mp hstep
      exact ⟨h, fun _ => Keeps.refl s _⟩
  | write ref c =>
      obtain ⟨-, -, -, -, -, hcounted, -⟩ := h.write hstep
      exact ⟨hcounted, nofun⟩

/-- The counts hold in every run. -/
theorem rcMachine_counted {s : RcState} (h : rcMachine.Reached s) : s.Counted := by
  refine Machine.ReachedBy.invariant (I := RcState.Counted) ?_ ?_ h
  · rintro s rfl
    refine ⟨⟨?_, ?_, ?_⟩, by decide⟩
    · exact fun rc hpos => absurd hpos (Nat.lt_irrefl 0)
    · exact nofun
    · exact nofun
  · intro s a s' hs _ hstep
    exact (hs.step hstep).1

/-- The counter of a representation is the number of strings that point to it, and it was
deleted once if there is none.  What a live string points to is there, so that no operation on
live strings meets a representation that was deleted. -/
structure RcState.IsExact (s : RcState) : Prop where
  count : ∀ rc imp, s.memory[rc]? = some imp → 0 < s.handles rc → imp.count = s.handles rc
  freed : ∀ rc imp, s.memory[rc]? = some imp →
    imp.deletions = if s.handles rc = 0 then 1 else 0
  held : ∀ string rc, s.rc? string = some rc → (s.memory.deref rc).isSome
  construct : ∀ str allocated, (str.idxOf? 0).isSome → s.HasRoom →
    (s.step (.construct str allocated)).isSome
  copy : ∀ other, (s.rc? other).isSome → s.HasRoom → (s.step (.copy other)).isSome
  assign : ∀ string other, (s.rc? string).isSome → (s.rc? other).isSome →
    (s.step (.assign string other)).isSome
  destroy : ∀ string, (s.rc? string).isSome → (s.step (.destroy string)).isSome
  index : ∀ string rc imp length idx allocated, s.rc? string = some rc →
    s.memory.deref rc = some imp → imp.str.idxOf? 0 = some length → idx ≤ length →
    (s.step (.index string idx allocated)).isSome

/-- A reference to a character is returned. -/
theorem RcState.Counted.refer_isSome {s : RcState} (h : s.Counted) {string rc idx : Nat}
    {text : List Nat} (hrc : s.rc? string = some rc) (htext : s.memory.texts[rc]? = some text)
    (hidx : idx < text.length) : (s.refer string rc idx).isSome := by
  obtain ⟨imp, -, hderef, -⟩ := h.counted.deref (handles_pos hrc).2
  have htext' := (deref_eq_some hderef).2.2
  rw [htext, Option.some.injEq] at htext'
  rw [RcState.refer, hderef, Option.bind_some, if_pos (htext' ▸ hidx), Option.isSome_some]

/-- In every run the counters are exact. -/
theorem rcString_isExact {s : RcState} (h : rcMachine.Reached s) : s.IsExact := by
  have hcounted := rcMachine_counted h
  refine ⟨hcounted.counted.count, hcounted.counted.freed, ?_, ?_, ?_, ?_, ?_, ?_⟩
  · intro string rc hrc
    obtain ⟨imp, -, hderef, -⟩ := hcounted.counted.deref (handles_pos hrc).2
    rw [hderef, Option.isSome_some]
  · intro str allocated hends hroom
    obtain ⟨length, hlength⟩ := Option.isSome_iff_exists.mp hends
    cases allocated with
    | false =>
        simp only [RcState.step, RcState.construct, RcMemory.createMRC, hlength, Option.map_some,
          Bool.false_eq_true, if_false, Option.bind_eq_bind, Option.bind_some, Option.isSome_some]
    | true =>
        obtain ⟨t, hcreate, -⟩ := hcounted.construct hlength hroom
        rw [RcState.step, hcreate, Option.isSome_some]
  · intro other hlive hroom
    obtain ⟨rc, hrc⟩ := Option.isSome_iff_exists.mp hlive
    obtain ⟨t, hcopy, -⟩ := hcounted.copy hrc hroom
    rw [RcState.step, hcopy, Option.isSome_some]
  · intro string other hlive hliveOther
    obtain ⟨old, hold⟩ := Option.isSome_iff_exists.mp hlive
    obtain ⟨rc, hrc⟩ := Option.isSome_iff_exists.mp hliveOther
    obtain ⟨t, hassign, -⟩ := hcounted.assign hold hrc
    rw [RcState.step, hassign, Option.isSome_some]
  · intro string hlive
    obtain ⟨old, hold⟩ := Option.isSome_iff_exists.mp hlive
    obtain ⟨t, hdestroy, -⟩ := hcounted.destroy hold
    rw [RcState.step, hdestroy, Option.isSome_some]
  · intro string rc imp length idx allocated hrc hderef hlength hidx
    have hlt : length < imp.str.length := (List.idxOf?_eq_some_iff.mp hlength).1
    obtain ⟨imp', hderef', hcases⟩ := hcounted.index_cases hrc idx allocated
    obtain rfl : imp' = imp := Option.some.inj (hderef'.symm.trans hderef)
    rw [RcState.step]
    rcases hcases with hrefer | ⟨hnone, -⟩ | hsame |
      ⟨length', t, hlength', hrefer, htCounted, -, -, htRc, htext⟩
    · rw [hrefer]
      exact hcounted.refer_isSome hrc (deref_eq_some hderef).2.2 (by omega)
    · rw [hnone] at hlength
      cases hlength
    · rw [hsame, Option.isSome_some]
    · rw [hrefer]
      obtain rfl : length' = length := Option.some.inj (hlength'.symm.trans hlength)
      refine htCounted.refer_isSome htRc htext ?_
      rw [List.length_append, List.length_take_of_le (Nat.le_of_lt hlt), List.length_singleton]
      omega

/-- Two strings share a representation; one is assigned to itself, unshared and destroyed. -/
def sharedAndUnshared : List RcAction :=
  [.construct [72, 105, 0] true, .copy 0, .assign 0 0, .index 1 0 true, .write 0 104, .assign 0 1,
    .destroy 0, .destroy 1]

theorem rcString_isExact_sharedAndUnshared :
    ∃ s, rcMachine.run ⟨[], [], []⟩ sharedAndUnshared = some s ∧
      s.memory.map RCImp.deletions = [1, 1] ∧ s.IsExact := by
  have hrun : rcMachine.run ⟨[], [], []⟩ sharedAndUnshared = some _ := rfl
  exact ⟨_, hrun, rfl, rcString_isExact (Machine.Reached.run (.start rfl) hrun)⟩

end Cpp
end InfinityLabs
